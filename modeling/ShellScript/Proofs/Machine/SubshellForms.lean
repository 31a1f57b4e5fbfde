import ShellScript.Proofs.Machine.Isolation

-- The forms in which a block runs in a subshell. They differ in one respect only: `( )` runs the trap for the end of
-- the shell, and neither a command substitution nor a stage of a pipeline does.
namespace ShellScript
namespace Machine

open Program (Stmt Block)
open Run

-- What `( )` runs in its subshell.
def ending (E : Engine) (b : Block) : Run Int := do
  let c ← code (runBlock E b)
  finish E c

-- A command substitution, with what runs in its subshell.
def captureBy (m : Run Int) : Run String := do
  let start := (← world).channels.size
  let out ← newChannel (.sink "" false)
  let status ← withStreams (fun s => { s with output := out }) m
  setStatus status
  let text := match (← world).channels[start]? with
    | some (.sink text _) => text
    | _ => ""
  modifyWorld fun w => { w with channels := w.channels.extract 0 start }
  return Text.trimRightChars (· == '\n') text

-- A pipeline, with what runs in the subshell of its first stage.
def stagesBy (m : Run Int) (E : Engine) (input : Option Stream) (rest : List Stmt) (both : List Bool) :
    Run (List Int) := do
  let i := (← world).channels.size
  let out ← newChannel (.sink "" true)
  let c ← withStreams (fun s =>
    { input := input.getD s.input, output := out, error := if both.headD false then out else s.error }) m
  let text := match (← world).channels[i]? with
    | some (.sink text _) => text
    | _ => ""
  let next ← newChannel (.source text.toList true)
  return c :: (← runStages E (some next) rest (both.drop 1))

theorem capture_eq (E : Engine) (b : Block) : capture E b = captureBy (code (E.stmt (.group b))) := rfl

theorem runStages_eq (E : Engine) (input : Option Stream) (st next : Stmt) (rest : List Stmt) (both : List Bool) :
    runStages E input (st :: next :: rest) both = stagesBy (code (E.stmt st)) E input (next :: rest) both := rfl

-- What is left of a computation when its shell is dropped.
def outcome {α : Type} : EStateM.Result Signal State α → Except Signal α × World
  | .ok a t => (.ok a, t.world)
  | .error e t => (.error e, t.world)

-- The state in which a subshell starts.
def entered (change : Streams → Streams) (s : State) : State :=
  { s with shell := { forked s.shell with streams := change s.shell.streams } }

-- A subshell of a subshell starts where that one is.
theorem forked_entered (change : Streams → Streams) (s : State) :
    forked (entered change s).shell = (entered change s).shell := by
  simp [forked, entered]

theorem withStreams_congr {α : Type} {change : Streams → Streams} {m m' : Run α} {s : State}
    (h : outcome (m (entered change s)) = outcome (m' (entered change s))) :
    withStreams change m s = withStreams change m' s := by
  have heq (m : Run α) : withStreams change m s =
      ensuring m (fun t => { t with shell := s.shell }) (entered change s) := rfl
  rw [heq, heq, ensuring, ensuring]
  cases hr : m (entered change s) <;> cases hr' : m' (entered change s) <;> rw [hr, hr'] at h <;>
    simp_all [outcome]

-- Only what stops the whole run gets out.
def Closed {α : Type} (m : Run α) : Prop := ∀ s e t, m s = .error e t → ∃ why, e = .stopped why

namespace Closed

variable {α β : Type} {m : Run α}

theorem of_ok (h : ∀ s, ∃ a t, m s = .ok a t) : Closed m := by
  intro s e t ht
  obtain ⟨a, u, hu⟩ := h s
  cases hu.symm.trans ht

theorem stopped (why : Stop) : Closed (throw (.stopped why) : Run α) := fun _ _ _ h => by
  cases h
  exact ⟨why, rfl⟩

theorem handled {k : α → Run β} {h : Signal → Run β} (hk : ∀ a, Closed (k a)) (hh : ∀ e, Closed (h e)) :
    Closed (handled m k h) := by
  intro s e t ht
  cases hr : m s with
  | ok a u => exact hk a u e t ((handled_of_ok hr k h).symm.trans ht)
  | error e' u => exact hh e' u e t ((handled_of_error hr k h).symm.trans ht)

theorem bind {k : α → Run β} (hm : Closed m) (hk : ∀ a, Closed (k a)) : Closed (m >>= k) := by
  intro s e t ht
  cases hr : m s with
  | ok a u => exact hk a u e t ((bind_of_ok hr k).symm.trans ht)
  | error e' u =>
      cases (bind_of_error hr k).symm.trans ht
      exact hm s _ _ hr

end Closed

theorem closed_pure {α : Type} (a : α) : Closed (pure a : Run α) := .of_ok fun s => ⟨a, s, rfl⟩

theorem closed_shell : Closed shell := .of_ok fun s => ⟨s.shell, s, rfl⟩

theorem closed_complain (text : String) : Closed (complain text) := by
  refine closed_shell.bind fun s => .of_ok fun t => ?_
  generalize s.streams.error = to_
  cases to_ <;> exact ⟨(), _, rfl⟩

theorem closed_code (m : Run Unit) : Closed (code m) := by
  rw [code_eq]
  refine .handled (fun _ => closed_shell.bind fun s => closed_pure s.status) fun e => ?_
  cases e with
  | exit c => exact closed_pure c
  | return_ c => exact closed_pure c
  | loop n next => exact closed_shell.bind fun s => closed_pure s.status
  | fail f => exact (closed_complain f.report).bind fun _ => closed_pure 1
  | stopped why => exact .stopped why

theorem closed_finish (E : Engine) (c : Int) : Closed (finish E c) := by
  rw [finish_eq]
  refine closed_shell.bind fun s => ?_
  split
  · exact closed_pure c
  · split
    · exact closed_pure c
    · refine Closed.bind (.of_ok fun t => ⟨(), _, rfl⟩) fun _ => .handled (fun _ => closed_pure c) fun e => ?_
      cases e with
      | exit c => exact closed_pure c
      | stopped why => exact .stopped why
      | _ => exact closed_pure c

theorem closed_ending (E : Engine) (b : Block) : Closed (ending E b) :=
  (closed_code _).bind fun c => closed_finish E c

-- Of the traps only those that ignore a signal are left in a subshell.
theorem untrapped_of_forked {s : Shell} (h : forked s = s) : s.Untrapped := by
  have hlookup (n : String) (traps : Table String) :
      ((traps.filter fun t => t.2.isEmpty).lookup n).getD "" = "" := by
    induction traps with
    | nil => rfl
    | cons e rest ih =>
        obtain ⟨k, text⟩ := e
        by_cases htext : text.isEmpty = true
        · rw [List.filter_cons_of_pos (by simpa using htext), List.lookup_cons]
          split
          · simpa using htext
          · exact ih
        · rw [List.filter_cons_of_neg (by simpa using htext)]
          exact ih
  have htraps : s.traps.filter (fun t => t.2.isEmpty) = s.traps := congrArg Shell.traps h
  rw [Shell.Untrapped, ← htraps]
  exact hlookup "ERR" s.traps

section Parentheses

variable {E : Engine} {b : Block} {s t : State} (hs : forked s.shell = s.shell)

include hs

theorem inSubshell_id {α : Type} (m : Run α) :
    inSubshell id m s = ensuring m (fun t => { t with shell := s.shell }) s := by
  have heq : inSubshell id m s =
      ensuring m (fun t => { t with shell := s.shell }) { s with shell := forked s.shell } := rfl
  rw [heq, hs]

-- In a subshell already, `( )` ends or exits with the status of its body: no trap for failures is left there.
theorem runStmt_subshell_of_ok {c : Int} (h : ending E b s = .ok c t) :
    let u : State := ⟨t.world, { s.shell with status := c }⟩
    runStmt E (.subshell b) s = .ok () u ∨ runStmt E (.subshell b) s = .error (.exit c) u := by
  intro u
  have hbody : (inSubshell id (ending E b) >>= setStatus) s = .ok () u := by
    have hin : inSubshell id (ending E b) s = .ok c ⟨t.world, s.shell⟩ := by
      rw [inSubshell_id hs, ensuring, h]
    exact bind_of_ok hin setStatus
  have hcheck : runStmt E (.subshell b) s = afterCommand E u := bind_of_ok hbody fun _ => afterCommand E
  rw [hcheck]
  have huntrapped : s.shell.Untrapped := untrapped_of_forked hs
  exact afterCommand_untrapped huntrapped

theorem runStmt_subshell_of_error {e : Signal} (h : ending E b s = .error e t) :
    runStmt E (.subshell b) s = .error e ⟨t.world, s.shell⟩ := by
  have hin : inSubshell id (ending E b) s = .error e ⟨t.world, s.shell⟩ := by
    rw [inSubshell_id hs, ensuring, h]
  have hbody : (inSubshell id (ending E b) >>= setStatus) s = .error e ⟨t.world, s.shell⟩ :=
    bind_of_error hin setStatus
  exact bind_of_error hbody fun _ => afterCommand E

theorem outcome_subshell : outcome (code (runStmt E (.subshell b)) s) = outcome (ending E b s) := by
  cases h : ending E b s with
  | ok c t =>
      rcases runStmt_subshell_of_ok hs h with heq | heq
      · rw [code, heq]
        rfl
      · rw [code, heq]
        rfl
  | error e t =>
      obtain ⟨why, rfl⟩ := closed_ending E b s e t h
      rw [code, runStmt_subshell_of_error hs h]
      rfl

-- As the only statement of a block, too.
theorem outcome_block {E' : Engine} (hE : E'.stmt (.subshell b) = runStmt E (.subshell b))
    (hbetween : E'.between = pure ()) (file : String) :
    outcome (code (runBlock E' ⟨file, [.subshell b]⟩) s) = outcome (ending E b s) := by
  have hblock : runBlock E' ⟨file, [.subshell b]⟩ s = runStmt E (.subshell b) s := by
    have hrecover : recovering E' (E'.stmt (.subshell b)) s = runStmt E (.subshell b) s := by
      rw [recovering, hE]
      cases h : ending E b s with
      | ok c t => rcases runStmt_subshell_of_ok hs h with heq | heq <;> rw [heq]
      | error e t =>
          obtain ⟨why, rfl⟩ := closed_ending E b s e t h
          rw [runStmt_subshell_of_error hs h]
    change (recovering E' (E'.stmt (.subshell b)) >>= fun _ => E'.between >>= fun _ => pure ()) s = _
    rw [← hrecover, hbetween]
    cases hr : recovering E' (E'.stmt (.subshell b)) s with
    | ok u t => exact bind_of_ok hr _
    | error e t => exact bind_of_error hr _
  rw [← outcome_subshell hs, code, code, hblock]

end Parentheses

-- Without the trap there is no difference.

-- The shell in which the block ends has no trap for its end.
def EndsPlainly (E : Engine) (b : Block) (s : State) : Prop :=
  ((stateOf (code (runBlock E b) s)).shell.traps.lookup "EXIT").getD "" = ""

theorem finish_plainly {E : Engine} {c : Int} {s : State} (h : (s.shell.traps.lookup "EXIT").getD "" = "") :
    finish E c s = .ok c s := by
  rw [finish_eq, shell_bind]
  cases htrap : s.shell.traps.lookup "EXIT" with
  | none => rfl
  | some text =>
      rw [htrap] at h
      cases h
      rfl

theorem ending_plainly {E : Engine} {b : Block} {s : State} (h : EndsPlainly E b s) :
    ending E b s = code (runBlock E b) s := by
  rw [EndsPlainly] at h
  unfold ending
  cases hr : code (runBlock E b) s with
  | ok c t =>
      rw [hr] at h
      rw [bind_of_ok hr]
      exact finish_plainly h
  | error e t => rw [bind_of_error hr]

-- The states in which the block starts.

def captureStart (s : State) : State :=
  entered (fun x => { x with output := .channel s.world.channels.size })
    { s with world := { s.world with channels := s.world.channels.push (.sink "" false) } }

def stageStart (input : Option Stream) (both : List Bool) (s : State) : State :=
  let out := .channel s.world.channels.size
  entered (fun x => { input := input.getD x.input, output := out, error := if both.headD false then out else x.error })
    { s with world := { s.world with channels := s.world.channels.push (.sink "" true) } }

theorem bind_congr_at {α β : Type} {m m' : Run α} {k : α → Run β} {s : State} (h : m s = m' s) :
    (m >>= k) s = (m' >>= k) s := by
  change EStateM.bind m k s = EStateM.bind m' k s
  rw [EStateM.bind, EStateM.bind, h]

theorem captureBy_congr {m m' : Run Int} {s : State}
    (h : outcome (m (captureStart s)) = outcome (m' (captureStart s))) : captureBy m s = captureBy m' s :=
  bind_congr_at (s := { s with world := { s.world with channels := s.world.channels.push (.sink "" false) } })
    (withStreams_congr h)

theorem stagesBy_congr {m m' : Run Int} {E : Engine} {input : Option Stream} {rest : List Stmt} {both : List Bool}
    {s : State} (h : outcome (m (stageStart input both s)) = outcome (m' (stageStart input both s))) :
    stagesBy m E input rest both s = stagesBy m' E input rest both s :=
  bind_congr_at (s := { s with world := { s.world with channels := s.world.channels.push (.sink "" true) } })
    (withStreams_congr h)

-- A block as a command substitution or as a stage that others follow, and the same block in parentheses there: what
-- runs in the subshell is the block, and in parentheses the trap for its end after it. Where it ends without such a
-- trap, all output and every status is the same.
theorem subshell_forms (program : Program) (compiles : Bool) (rounds n : Nat) (b : Block) :
    let E := engine program compiles rounds
    (∀ file, capture (E (n + 2)) ⟨file, [.subshell b]⟩ = captureBy (ending (E n) b)) ∧
    capture (E (n + 1)) b = captureBy (code (runBlock (E n) b)) ∧
    (∀ input next rest both,
      runStages (E (n + 1)) input (.subshell b :: next :: rest) both =
        stagesBy (ending (E n) b) (E (n + 1)) input (next :: rest) both ∧
      runStages (E (n + 1)) input (.group b :: next :: rest) both =
        stagesBy (code (runBlock (E n) b)) (E (n + 1)) input (next :: rest) both) ∧
    (∀ file s, EndsPlainly (E n) b (captureStart s) →
      capture (E (n + 2)) ⟨file, [.subshell b]⟩ s = capture (E (n + 1)) b s) ∧
    (∀ input next rest both s, EndsPlainly (E n) b (stageStart input both s) →
      runStages (E (n + 1)) input (.subshell b :: next :: rest) both s =
        runStages (E (n + 1)) input (.group b :: next :: rest) both s) := by
  intro E
  have hcapture (file : String) : capture (E (n + 2)) ⟨file, [.subshell b]⟩ = captureBy (ending (E n) b) := by
    rw [capture_eq]
    funext s
    exact captureBy_congr (outcome_block (forked_entered _ _) rfl rfl file)
  have hstages (input : Option Stream) (next : Stmt) (rest : List Stmt) (both : List Bool) :
      runStages (E (n + 1)) input (.subshell b :: next :: rest) both =
        stagesBy (ending (E n) b) (E (n + 1)) input (next :: rest) both := by
    rw [runStages_eq]
    funext s
    exact stagesBy_congr (outcome_subshell (forked_entered _ _))
  refine ⟨hcapture, capture_eq _ b, fun input next rest both => ⟨hstages input next rest both, runStages_eq ..⟩,
    fun file s hs => ?_, fun input next rest both s hs => ?_⟩
  · rw [hcapture]
    exact captureBy_congr (congrArg outcome (ending_plainly hs))
  · rw [hstages]
    exact stagesBy_congr (congrArg outcome (ending_plainly hs))

-- `$( ( : ) )` and `$( : )`.
theorem colon_in_parentheses :
    let program : Program := { name := "", main := default }
    let b : Block := ⟨"", [.call {} [] [⟨[.lit ":" false]⟩] [] none none]⟩
    capture (engine program false 1 7) ⟨"", [.subshell b]⟩ {} = capture (engine program false 1 6) b {} :=
  (subshell_forms _ false 1 5 _).2.2.2.1 _ {} (by unfold EndsPlainly; decide +kernel)

-- `$( (trap 'echo bye' EXIT) )` and `$(trap 'echo bye' EXIT)`.
theorem trap_runs_only_in_parentheses :
    let program : Program := { name := "", main := default }
    let words : List Program.Word := [⟨[.lit "trap" false]⟩, ⟨[.lit "echo bye" false]⟩, ⟨[.lit "EXIT" false]⟩]
    let b : Block := ⟨"", [.call {} [] words [] none none]⟩
    (outcome (capture (engine program true 1 7) ⟨"", [.subshell b]⟩ {})).1.toOption = some "bye" ∧
      (outcome (capture (engine program true 1 6) b {})).1.toOption = some "" := by
  decide +kernel

end Machine
end ShellScript

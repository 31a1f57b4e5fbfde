import ShellScript.Proofs.Machine.Statement

-- The status with which code begins that a running shell comes to besides its own statements: the text of `eval`, a
-- trap for the end of the shell or for a failed command, a sourced file. All of it begins with success, whatever led to
-- it. A trap for a failed command gives the status back when it is done.
namespace ShellScript
namespace Machine

open Program (Stmt Block)
open Run

-- The text is not blank and is compiled to `b`.
structure Compiles (name text : String) (b : Block) : Prop where
  visible : (Text.trim text).isEmpty = false
  block : Program.compile name text = .ok b

theorem exists_compiles {name text : String}
    (h : (!(Text.trim text).isEmpty && (Program.compile name text).toOption.isSome) = true) :
    ∃ b, Compiles name text b := by
  obtain ⟨hvisible, hsome⟩ := Bool.and_eq_true_iff.mp h
  cases hcompile : Program.compile name text with
  | error e =>
      rw [hcompile] at hsome
      cases hsome
  | ok b => exact ⟨b, by simpa using hvisible, hcompile⟩

namespace State

-- Within one more condition.
def inCondition (s : State) : State := { s with shell := { s.shell with conditions := s.shell.conditions + 1 } }

-- Within the conditions of `s`.
def outOfCondition (s t : State) : State := { t with shell := { t.shell with conditions := s.shell.conditions } }

def withoutTrap (s : State) (name : String) : State :=
  { s with shell := { s.shell with traps := s.shell.traps.erase name } }

-- Within one more sourced file.
def inSource (s : State) : State := { s with shell := { s.shell with sources := s.shell.sources + 1 } }

def outOfSource (s t : State) : State := { t with shell := { t.shell with sources := s.shell.sources } }

end State

-- What the shell ends with after its trap, if it was to end with `n`.
def endAfterTrap (n : Int) : Signal → Run Int
  | .exit c => pure c
  | .stopped why => throw (.stopped why)
  | _ => pure n

-- How what leaves a trap for a failed command is answered, when the status was `n`.
def resume (n : Int) : Signal → Run Unit
  | .fail f => do complain f.report; setStatus n
  | .return_ _ => setStatus n
  | .loop _ _ => setStatus n
  | e => throw e

-- With `errexit` a failed command ends the shell, after the trap for it.
def endIfErrexit (n : Int) : Run Unit := do
  if (← shell).options.errexit then throw (.exit n)

section

variable {E : Engine} {name text : String} {b : Block}

theorem evalText_of_compiles (hE : E.compiles = true) (h : Compiles name text b) (s : State) :
    evalText E name text s = E.stmt (.group b) (s.withStatus 0) := by
  unfold evalText
  rw [h.visible, hE, h.block]
  rfl

theorem not_isEmpty_of_compiles (h : Compiles name text b) : text.isEmpty = false := by
  rw [← Bool.not_eq_true, String.isEmpty_iff]
  rintro rfl
  have hvisible := h.visible
  revert hvisible
  decide +kernel

-- Only where the computation leads to matters.
theorem handled_eq_of_eq {α β : Type} {m m' : Run α} {s s' : State} (h : m s = m' s') (onOk : α → Run β)
    (onSignal : Signal → Run β) : handled m onOk onSignal s = handled m' onOk onSignal s' := by
  rw [handled, handled, h]

theorem bind_eq_of_eq {α β : Type} {m m' : Run α} {s s' : State} (h : m s = m' s') (k : α → Run β) :
    (m >>= k) s = (m' >>= k) s' := by
  change EStateM.bind m k s = EStateM.bind m' k s'
  rw [EStateM.bind, EStateM.bind, h]

theorem finish_of_compiles (hE : E.compiles = true) (h : Compiles "trap" text b) {s : State}
    (htrap : s.shell.traps.lookup "EXIT" = some text) (n : Int) :
    finish E n s =
      handled (E.stmt (.group b)) (fun _ => pure n) (endAfterTrap n) ((s.withoutTrap "EXIT").withStatus 0) := by
  have hrun := evalText_of_compiles hE h ((s.withoutTrap "EXIT").withStatus n)
  rw [finish_eq, shell_bind, htrap]
  dsimp only
  rw [not_isEmpty_of_compiles h]
  generalize evalText E "trap" text = m at hrun
  exact handled_eq_of_eq hrun (fun _ => pure n) (endAfterTrap n)

theorem asCondition_eq_of_eq {m m' : Run Unit} {s s' : State} (h : m s.inCondition = m' s') :
    asCondition m s = ensuring m' s.outOfCondition s' := by
  have hcondition : asCondition m s = ensuring m s.outOfCondition s.inCondition := rfl
  rw [hcondition, ensuring, ensuring, h]

theorem runTrap_of_compiles (hE : E.compiles = true) (h : Compiles "trap" text b) (s : State) :
    runTrap E text s =
      handled (ensuring (E.stmt (.group b)) s.outOfCondition) (fun _ => setStatus s.shell.status)
        (resume s.shell.status) (s.inCondition.withStatus 0) := by
  have hrun := asCondition_eq_of_eq (evalText_of_compiles hE h s.inCondition)
  rw [runTrap_eq, shell_bind]
  generalize evalText E "trap" text = m at hrun
  exact handled_eq_of_eq hrun (fun _ => setStatus s.shell.status) (resume s.shell.status)

end

theorem complain_ends (text : String) (s : State) : ∃ w, complain text s = .ok () { s with world := w } := by
  unfold complain
  rw [shell_bind]
  cases s.shell.streams.error with
  | channel i => exact ⟨_, rfl⟩
  | null | discard => exact ⟨s.world, rfl⟩

-- The status is `n` again, unless the shell ends.
inductive Resumed (n : Int) : EStateM.Result Signal State Unit → Prop
  | ok {t : State} (h : t.shell.status = n) : Resumed n (.ok () t)
  | exit (code : Int) (t : State) : Resumed n (.error (.exit code) t)
  | stopped (why : Stop) (t : State) : Resumed n (.error (.stopped why) t)

theorem resumed_setStatus (n : Int) (s : State) : Resumed n (setStatus n s) := .ok rfl

theorem Resumed.bind {n : Int} {m k : Run Unit} {s : State} (hm : Resumed n (m s)) (hk : ∀ t, Resumed n (k t)) :
    Resumed n ((m >>= fun _ => k) s) := by
  cases hr : m s with
  | ok u t =>
      rw [bind_of_ok hr]
      exact hk t
  | error e t =>
      rw [bind_of_error hr]
      rw [hr] at hm
      cases hm with
      | exit code => exact .exit code t
      | stopped why => exact .stopped why t

theorem resumed_resume (n : Int) (e : Signal) (s : State) : Resumed n (resume n e s) := by
  cases e with
  | fail f =>
      obtain ⟨w, hw⟩ := complain_ends f.report s
      have hresume : resume n (.fail f) s = setStatus n { s with world := w } := bind_of_ok hw _
      rw [hresume]
      exact resumed_setStatus n _
  | return_ code => exact resumed_setStatus n s
  | loop k next => exact resumed_setStatus n s
  | exit code => exact .exit code s
  | stopped why => exact .stopped why s

theorem resumed_runTrap (E : Engine) (text : String) (s : State) : Resumed s.shell.status (runTrap E text s) := by
  rw [runTrap_eq, shell_bind]
  generalize asCondition (evalText E "trap" text) = m
  cases hm : m s with
  | ok u t =>
      rw [handled_of_ok hm]
      exact resumed_setStatus s.shell.status t
  | error e t =>
      rw [handled_of_error hm]
      exact resumed_resume s.shell.status e t

-- The trap for a failed command, if there is one.
def failureTrap (E : Engine) (s : Shell) : Run Unit :=
  match s.traps.lookup "ERR" with
  | some text => if text.isEmpty then pure () else runTrap E text
  | none => pure ()

theorem resumed_failureTrap (E : Engine) (s : State) : Resumed s.shell.status (failureTrap E s.shell s) := by
  unfold failureTrap
  cases s.shell.traps.lookup "ERR" with
  | none => exact .ok rfl
  | some text =>
      dsimp only
      split
      · exact .ok rfl
      · exact resumed_runTrap E text s

theorem afterCommand_eq (E : Engine) :
    afterCommand E = (do
      let s ← shell
      if s.status == 0 || s.conditions > 0 then return
      failureTrap E s
      setStatus s.status
      endIfErrexit s.status) := by
  unfold afterCommand failureTrap
  refine congrArg (shell >>= ·) (funext fun s => congrArg (ite _ (pure ())) ?_)
  generalize s.traps.lookup "ERR" = trap
  cases trap with
  | none => rfl
  | some text =>
      generalize runTrap E text = run
      dsimp only
      cases text.isEmpty <;> rfl

theorem afterCommand_of_compiles {E : Engine} {text : String} {b : Block} (hE : E.compiles = true)
    (h : Compiles "trap" text b) {s : State} (hfailed : s.shell.status ≠ 0) (hfree : s.shell.conditions = 0)
    (htrap : s.shell.traps.lookup "ERR" = some text) :
    afterCommand E s =
      (handled (ensuring (E.stmt (.group b)) s.outOfCondition) (fun _ => setStatus s.shell.status)
          (resume s.shell.status) >>= fun _ =>
        setStatus s.shell.status >>= fun _ => endIfErrexit s.shell.status) (s.inCondition.withStatus 0) := by
  have hgo : ¬(s.shell.status == 0 || s.shell.conditions > 0) = true := by simp [hfailed, hfree]
  rw [afterCommand_eq, shell_bind, if_neg hgo, failureTrap, htrap]
  dsimp only
  rw [not_isEmpty_of_compiles h]
  exact bind_eq_of_eq (runTrap_of_compiles hE h s) _

theorem resumed_afterCommand (E : Engine) (s : State) : Resumed s.shell.status (afterCommand E s) := by
  rw [afterCommand_eq, shell_bind]
  split
  · exact .ok rfl
  refine Resumed.bind (resumed_failureTrap E s) fun t => ?_
  rw [setStatus_bind]
  unfold endIfErrexit
  rw [shell_bind]
  split
  · exact .exit _ _
  · exact .ok rfl

-- The text of `eval`, the traps for the end of the shell and for a failed command, and a sourced file begin with
-- success, whatever the status `n` was that led to them: they run from one and the same state for every `n`. A trap for
-- a failed command leaves `n` behind, unless the shell ends there. The first statement of a block begins where the block
-- begins.
theorem reentered_code_begins_with_success (E : Engine) (hE : E.compiles = true) (s : State) (n : Int) :
    (∀ command args b, Compiles "eval" (Text.joinWith " " args) b →
      runBuiltin E .eval command args (s.withStatus n) = E.stmt (.group b) (s.withStatus 0)) ∧
    (∀ text b, s.shell.traps.lookup "EXIT" = some text → Compiles "trap" text b →
      finish E n s =
        handled (E.stmt (.group b)) (fun _ => pure n) (endAfterTrap n) ((s.withoutTrap "EXIT").withStatus 0)) ∧
    (∀ text b, n ≠ 0 → s.shell.conditions = 0 → s.shell.traps.lookup "ERR" = some text → Compiles "trap" text b →
      afterCommand E (s.withStatus n) =
        (handled (ensuring (E.stmt (.group b)) s.outOfCondition) (fun _ => setStatus n) (resume n) >>= fun _ =>
          setStatus n >>= fun _ => endIfErrexit n) (s.inCondition.withStatus 0)) ∧
    Resumed n (afterCommand E (s.withStatus n)) ∧
    (∀ b, runUnit E b (s.withStatus n) =
      ensuring (catchReturn (E.stmt (.group b))) s.outOfSource (s.inSource.withStatus 0)) ∧
    ∀ program compiles rounds depth file st rest u,
      let below := engine program compiles rounds depth
      (engine program compiles rounds (depth + 1)).stmt (.group ⟨file, st :: rest⟩) u =
        (recovering below (below.stmt st) >>= fun _ => runStmts below rest) u := by
  refine ⟨fun command args b h => ?_, fun text b htrap h => ?_, fun text b hn hfree htrap h => ?_, ?_, fun b => rfl,
    fun program compiles rounds depth _ st rest u => congrFun (runStmts_cons program compiles rounds depth st rest) u⟩
  · exact evalText_of_compiles hE h (s.withStatus n)
  · exact finish_of_compiles hE h htrap n
  · exact afterCommand_of_compiles hE h (s := s.withStatus n) hn hfree htrap
  · exact resumed_afterCommand E (s.withStatus n)

-- `echo $?` as the text of `eval` and as a trap.
theorem status_is_zero_after_three :
    let E := engine { name := "", main := default } true 1 6
    let s : State := { shell := { traps := [("ERR", "echo $?")] } }
    (∃ b, Compiles "eval" (Text.joinWith " " ["echo $?"]) b ∧
      runBuiltin E .eval "eval" ["echo $?"] (s.withStatus 3) = E.stmt (.group b) (s.withStatus 0)) ∧
    ∃ b, Compiles "trap" "echo $?" b ∧ afterCommand E (s.withStatus 3) =
      (handled (ensuring (E.stmt (.group b)) s.outOfCondition) (fun _ => setStatus 3) (resume 3) >>= fun _ =>
        setStatus 3 >>= fun _ => endIfErrexit 3) (s.inCondition.withStatus 0) := by
  intro E s
  obtain ⟨b, hb⟩ : ∃ b, Compiles "eval" (Text.joinWith " " ["echo $?"]) b := exists_compiles (by decide +kernel)
  obtain ⟨b', hb'⟩ : ∃ b, Compiles "trap" "echo $?" b := exists_compiles (by decide +kernel)
  have h := reentered_code_begins_with_success E rfl s 3
  exact ⟨⟨b, hb, h.1 _ _ b hb⟩, b', hb', h.2.2.1 _ b' (by decide) rfl rfl hb'⟩

-- `(exit 3); eval 'echo $?'`.
theorem eval_prints_zero_after_three :
    let program : Program := { name := "", main := default }
    let words : List Program.Word := [⟨[.lit "eval" false]⟩, ⟨[.lit "echo $?" true]⟩]
    let b : Block := ⟨"", [.call {} [] words [] none none]⟩
    let s : State := { shell := { status := 3 } }
    (match capture (engine program true 1 7) b s with
      | .ok text _ => some text
      | .error _ _ => none) = some "0" := by
  decide +kernel

end Machine
end ShellScript

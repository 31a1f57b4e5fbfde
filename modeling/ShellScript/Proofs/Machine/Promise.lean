import ShellScript.Proofs.Machine.Engine

-- What a computation promises about the shell it leaves and about the signals it is left by, however it ends.
namespace ShellScript
namespace Machine

open Program (Stmt Block Redir)
open Run

structure Promise where
  -- the streams stay as they are
  streams : Prop
  -- no `break` or `continue` counts more loops than there are
  contained : Prop

-- Where a computation stands: in an expansion, in a statement, in a loop that has had its share of a signal, or in a
-- subshell.
inductive Level where
  | quiet
  | flow
  | loop
  | inner
deriving DecidableEq

namespace Promise

structure Keeps (p : Promise) (l : Level) (s t : Shell) : Prop where
  depth : t.env.depth = s.env.depth
  conditions : t.conditions = s.conditions
  sources : t.sources = s.sources
  calls : t.calls = s.calls
  loops : t.loops = s.loops
  streams : p.streams → t.streams = s.streams
  settings : l = .quiet → t.params = s.params ∧ t.options = s.options

def Allows (p : Promise) : Level → Shell → Signal → Prop
  | _, _, .fail _ => True
  | _, _, .stopped _ => True
  | .flow, _, .exit _ => True
  | .flow, s, .return_ _ => 0 < s.calls + s.sources
  | .flow, s, .loop n _ => 1 ≤ n ∧ (p.contained → n ≤ s.loops)
  | .loop, _, .exit _ => True
  | .loop, s, .return_ _ => 0 < s.calls + s.sources
  | .loop, s, .loop n _ => 1 ≤ n ∧ (p.contained → n < s.loops)
  | _, _, _ => False

def Kept {α : Type} (p : Promise) (l : Level) (s : State) : EStateM.Result Signal State α → Prop
  | .ok _ t => p.Keeps l s.shell t.shell
  | .error e t => p.Keeps l s.shell t.shell ∧ p.Allows l s.shell e

variable {p : Promise} {l l' : Level} {α β : Type}

theorem Keeps.refl (s : Shell) : p.Keeps l s s := ⟨rfl, rfl, rfl, rfl, rfl, fun _ => rfl, fun _ => ⟨rfl, rfl⟩⟩

theorem Keeps.trans {s t u : Shell} (h : p.Keeps l s t) (h' : p.Keeps l t u) : p.Keeps l s u where
  depth := h'.depth.trans h.depth
  conditions := h'.conditions.trans h.conditions
  sources := h'.sources.trans h.sources
  calls := h'.calls.trans h.calls
  loops := h'.loops.trans h.loops
  streams hp := (h'.streams hp).trans (h.streams hp)
  settings hl := ⟨(h'.settings hl).1.trans (h.settings hl).1, (h'.settings hl).2.trans (h.settings hl).2⟩

theorem Keeps.of_frame {s t : Shell} (h : t.frame = s.frame)
    (hl : l = .quiet → t.params = s.params ∧ t.options = s.options) : p.Keeps l s t where
  depth := congrArg Place.depth h
  conditions := congrArg Place.conditions h
  sources := congrArg Place.sources h
  calls := congrArg Place.calls h
  loops := congrArg Place.loops h
  streams _ := congrArg Place.streams h
  settings := hl

theorem Keeps.of_quiet {s t : Shell} (h : p.Keeps .quiet s t) : p.Keeps l s t :=
  { h with settings := fun _ => h.settings rfl }

-- What a signal may do depends on counters only, and these are kept.
theorem Keeps.allows_iff {s t : Shell} {e : Signal} (h : p.Keeps l s t) : p.Allows l' t e ↔ p.Allows l' s e := by
  cases l' <;> cases e <;> simp only [Allows, h.loops, h.calls, h.sources]

theorem Allows.of_quiet {s : Shell} {e : Signal} (h : p.Allows .quiet s e) : p.Allows l s e := by
  cases e with
  | fail | stopped => simp [Allows]
  | _ => exact absurd h (by simp [Allows])

theorem Kept.of_quiet {s : State} {r : EStateM.Result Signal State α} (h : p.Kept .quiet s r) : p.Kept l s r := by
  cases r with
  | ok a t => exact Keeps.of_quiet h
  | error e t => exact ⟨h.1.of_quiet, h.2.of_quiet⟩

-- A promise about no counts is the same in a loop as outside.
theorem Kept.loop_of_flow (hp : ¬p.contained) {s : State} {r : EStateM.Result Signal State α} (h : p.Kept .flow s r) :
    p.Kept .loop s r := by
  cases r with
  | ok a t => exact { h with settings := nofun }
  | error e t =>
      refine ⟨{ h.1 with settings := nofun }, ?_⟩
      cases e with
      | loop n next => exact ⟨h.2.1, fun hc => absurd hc hp⟩
      | _ => exact h.2

theorem Kept.after {s t : State} {r : EStateM.Result Signal State α} (h : p.Keeps l s.shell t.shell)
    (h' : p.Kept l t r) : p.Kept l s r := by
  cases r with
  | ok a u => exact Keeps.trans h h'
  | error e u => exact ⟨h.trans h'.1, h.allows_iff.mp h'.2⟩

theorem Kept.bind {m : Run α} {k : α → Run β} {s : State} (hm : p.Kept l s (m s))
    (hk : ∀ a t, p.Keeps l s.shell t.shell → p.Kept l t (k a t)) : p.Kept l s ((m >>= k) s) := by
  cases hr : m s with
  | ok a t =>
      rw [hr] at hm
      rw [bind_of_ok hr]
      exact Kept.after hm (hk a t hm)
  | error e t =>
      rw [hr] at hm
      rw [bind_of_error hr]
      exact hm

theorem Kept.of_loose {m : Run α} (h : Loose m) (hl : l ≠ .quiet) (s : State) : p.Kept l s (m s) := by
  have hs := h s
  cases hr : m s with
  | ok a t =>
      rw [hr] at hs
      exact .of_frame hs.frame fun h => absurd h hl
  | error e t =>
      rw [hr] at hs
      cases e with
      | fail f => exact ⟨.of_frame hs.frame fun h => absurd h hl, by simp [Allows]⟩
      | _ => exact hs.elim

theorem Kept.of_plain {m : Run α} (h : Plain m) (s : State) : p.Kept l s (m s) := by
  have hkeeps {t : State} (hs : s.Unmoved t) : p.Keeps l s.shell t.shell :=
    .of_frame hs.undisturbed.frame fun _ => ⟨congrArg Place.params hs.place, congrArg Place.options hs.place⟩
  have hs := h s
  cases hr : m s with
  | ok a t =>
      rw [hr] at hs
      exact hkeeps hs
  | error e t =>
      rw [hr] at hs
      cases e with
      | fail f => exact ⟨hkeeps hs, by simp [Allows]⟩
      | _ => exact hs.elim

-- Only the computation on the left is looked at.
def congruence (p : Promise) (l : Level) : Congruence where
  rel m _ := ∀ s, p.Kept l s (m s)
  plain h := Kept.of_plain h
  exhausted s := ⟨.refl s.shell, by simp [Allows]⟩
  bind hm hk s := Kept.bind (hm s) fun a t _ => hk a t
  handle {α β m m' k k' h h'} hm hk hh s := by
    have hs := hm s
    cases hr : m s with
    | ok a t =>
        rw [hr] at hs
        rw [handled_of_ok hr]
        exact Kept.after hs (hk a t)
    | error e t =>
        rw [hr] at hs
        rw [handled_of_error hr]
        rcases hh e with ⟨heq, -⟩ | ⟨-, hrel⟩
        · rw [heq]
          exact hs
        · exact Kept.after hs.1 (hrel t)

-- No promise is about what variables contain.
theorem kept_modifyVar (name : String) (f : Var → Var) (s : State) : p.Kept l s (modifyVar name f s) := by
  exact .of_frame (Shell.frame_of_place (s.shell.place_withEnv (Env.depth_put ..))) fun _ => ⟨rfl, rfl⟩

theorem kept_writing (local_ : Bool) (name : String) {m m' : Var → Run String}
    (hm : ∀ v, (p.congruence l).rel (m v) (m' v)) :
    (p.congruence l).rel (writing local_ name m) (writing local_ name m') :=
  Agreement.writing kept_modifyVar local_ name hm

-- Brackets.

theorem Kept.within {m : Run α} {change : Shell → Shell} {restore : Shell → Shell → Shell}
    (hkeeps : ∀ s t, p.Keeps l (change s) t → p.Keeps l' s (restore s t))
    (hallows : ∀ s e, p.Allows l (change s) e → p.Allows l' s e) (hm : ∀ s, p.Kept l s (m s)) (s : State) :
    p.Kept l' s (within change restore m s) := by
  have hs := hm { s with shell := change s.shell }
  rw [within_apply, Run.ensuring]
  cases hr : m { s with shell := change s.shell } with
  | ok a t =>
      rw [hr] at hs
      exact hkeeps s.shell t.shell hs
  | error e t =>
      rw [hr] at hs
      exact ⟨hkeeps s.shell t.shell hs.1, hallows s.shell e hs.2⟩

-- As above, for a body that `return` leaves.
theorem Kept.withinCatch {m : Run Unit} {change : Shell → Shell} {restore : Shell → Shell → Shell}
    (hkeeps : ∀ s t, p.Keeps .flow (change s) t → p.Keeps .flow s (restore s t))
    (hallows : ∀ s e, (∀ c, e ≠ .return_ c) → p.Allows .flow (change s) e → p.Allows .flow s e)
    (hm : ∀ s, p.Kept .flow s (m s)) (s : State) :
    p.Kept .flow s (Run.within change restore (catchReturn m) s) := by
  have hs := hm { s with shell := change s.shell }
  rw [within_apply, Run.ensuring, catchReturn]
  cases hr : m { s with shell := change s.shell } with
  | ok a t =>
      rw [hr] at hs
      exact hkeeps s.shell t.shell hs
  | error e t =>
      rw [hr] at hs
      cases e with
      | return_ c =>
          have hstatus : p.Keeps .flow (change s.shell) { t.shell with status := c } :=
            hs.1.trans (.of_frame rfl Level.noConfusion)
          exact hkeeps s.shell { t.shell with status := c } hstatus
      | _ => exact ⟨hkeeps s.shell t.shell hs.1, hallows s.shell _ (fun c => Signal.noConfusion) hs.2⟩

theorem kept_condition {m : Run Unit} (hm : ∀ s, p.Kept .flow s (m s)) (s : State) :
    p.Kept .flow s (asCondition m s) := by
  refine Kept.within (fun _ _ h => ?_) (fun _ e h => ?_) hm s
  · exact { h with conditions := rfl }
  · cases e <;> exact h

theorem kept_unit {m : Run Unit} (hm : ∀ s, p.Kept .flow s (m s)) (s : State) : p.Kept .flow s (inUnit m s) := by
  refine Kept.withinCatch (fun _ _ h => ?_) (fun s e he h => ?_) hm s
  · exact { h with sources := rfl }
  · cases e with
    | return_ c => exact absurd rfl (he c)
    | _ => exact h

-- Inside a function there is no loop around, so that nothing may count any.
theorem kept_call (args : List String) {m : Run Unit} (hm : ∀ s, p.Kept .flow s (m s)) (s : State) :
    p.Kept .flow s (inCall args m s) := by
  refine Kept.withinCatch (fun s t h => ?_) (fun s e he h => ?_) hm s
  · have hdepth : t.env.pop.depth = s.env.depth := Env.depth_pop h.depth
    exact { h with depth := hdepth, calls := rfl, loops := rfl, settings := nofun }
  · cases e with
    | return_ c => exact absurd rfl (he c)
    | loop n next =>
        refine ⟨h.1, fun hp => ?_⟩
        have hzero : n ≤ 0 := h.2 hp
        have hone : 1 ≤ n := h.1
        omega
    | _ => exact h

theorem kept_params (args : List String) {m : Run Unit} (hm : ∀ s, p.Kept .flow s (m s)) (s : State) :
    p.Kept .flow s (withParams args m s) := by
  refine Kept.within (fun _ _ h => ?_) (fun _ e h => ?_) hm s
  · exact { h with settings := nofun }
  · cases e <;> exact h

theorem kept_scope {bind : Env → Env} {m : Run Unit} (hbind : ∀ e, (bind e).depth = e.depth)
    (hm : ∀ s, p.Kept .flow s (m s)) (s : State) : p.Kept .flow s (inScope bind m s) := by
  refine Kept.within (fun s t h => ?_) (fun _ e h => ?_) hm s
  · have hdepth : t.env.pop.depth = s.env.depth := Env.depth_pop (h.depth.trans (hbind s.env.push))
    exact { h with depth := hdepth }
  · cases e <;> exact h

-- A subshell leaves no trace in the shell.
theorem kept_subshell (change : Streams → Streams) {m : Run α} (hm : ∀ s, p.Kept .inner s (m s)) (s : State) :
    p.Kept .quiet s (withStreams change m s) := by
  rw [withStreams_eq]
  refine Kept.within (fun s t _ => ?_) (fun _ e h => ?_) hm s
  · exact Keeps.refl s
  · cases e <;> exact h

theorem kept_loop {m : Run Unit} (hm : ∀ s, p.Kept .loop s (m s)) (s : State) : p.Kept .flow s (inLoop m s) := by
  refine Kept.within (fun _ _ h => ?_) (fun s e h => ?_) hm s
  · exact { h with loops := rfl, settings := nofun }
  · cases e with
    | loop n next => exact ⟨h.1, fun hp => Nat.le_of_lt_succ (h.2 hp)⟩
    | _ => exact h

-- The loop takes its own share of a signal.
theorem kept_turn {m : Run Unit} (hm : ∀ s, p.Kept .flow s (m s)) (s : State) : p.Kept .loop s (turn m s) := by
  have hs := hm s
  unfold turn
  cases hr : m s with
  | ok a t =>
      rw [hr] at hs
      exact { hs with settings := nofun }
  | error e t =>
      rw [hr] at hs
      have hkeeps : p.Keeps .loop s.shell t.shell := { hs.1 with settings := nofun }
      cases e with
      | loop n next =>
          by_cases hn : n > 1
          · simp only [hn, if_true]
            refine ⟨hkeeps, by omega, fun hp => ?_⟩
            have hle : n ≤ s.shell.loops := hs.2.2 hp
            omega
          · simp only [hn]
            exact hkeeps
      | _ => exact ⟨hkeeps, hs.2⟩

-- Signals.

theorem kept_throw {s : State} {e : Signal} (he : p.Allows l s.shell e) : p.Kept l s ((throw e : Run α) s) :=
  ⟨.refl s.shell, he⟩

theorem kept_return (args : List String) (s : State) : p.Kept .flow s (Command.return_ args s) := by
  have hthrow (c : Int) (t : State) (ht : p.Keeps .flow s.shell t.shell) (hin : 0 < s.shell.calls + s.shell.sources) :
      p.Kept .flow t ((throw (.return_ c) : Run Unit) t) :=
    kept_throw (ht.allows_iff.mpr hin)
  unfold Command.return_
  rw [shell_bind]
  split
  · exact Kept.of_plain (plain_complainWith _ _) s
  · rename_i hout
    have hin : 0 < s.shell.calls + s.shell.sources := by
      simp only [Bool.and_eq_true, beq_iff_eq] at hout
      omega
    cases args with
    | nil => exact hthrow _ s (.refl _) hin
    | cons a args =>
        dsimp only
        cases Text.int64? a with
        | some n => exact hthrow _ s (.refl _) hin
        | none => exact Kept.bind (Kept.of_plain (plain_complain _) s) fun _ t ht => hthrow 2 t ht hin

-- The count is at least one, and at most the number of loops.
theorem kept_leaveLoop (name : String) (next : Bool) (args : List String) (s : State) :
    p.Kept .flow s (Command.leaveLoop name next args s) := by
  have hthrow (n : Nat) (hn : 1 ≤ n) (hloops : ¬(s.shell.loops == 0) = true) :
      p.Kept .flow s ((setStatus 0 >>= fun _ => (throw (.loop (min n s.shell.loops) next) : Run Unit)) s) := by
    refine Kept.bind (Kept.of_plain (plain_setStatus 0) s) fun _ t ht => kept_throw ?_
    refine ht.allows_iff.mpr ⟨?_, fun _ => Nat.min_le_right n _⟩
    simp only [beq_iff_eq] at hloops
    omega
  have hrest (n : Nat) (hn : 1 ≤ n) : p.Kept .flow s ((shell >>= fun sh =>
      if sh.loops == 0 then
        complainWith 0 (name ++ ": only meaningful in a \x60for', \x60while', or \x60until' loop")
      else do
        setStatus 0
        throw (.loop (min n sh.loops) next)) s) := by
    rw [shell_bind]
    split
    · exact Kept.of_plain (plain_complainWith _ _) s
    · rename_i hloops
      exact hthrow n hn hloops
  unfold Command.leaveLoop
  cases args with
  | nil => exact hrest 1 (Nat.le_refl 1)
  | cons a args =>
      dsimp only
      cases hcount : (Text.int64? a).bind fun n => if n < 1 then none else some n.toNat with
      | none => exact Kept.of_plain (plain_complainWith _ _) s
      | some n =>
          refine hrest n ?_
          simp only [Option.bind_eq_some_iff] at hcount
          obtain ⟨i, -, hi⟩ := hcount
          split at hi
          · cases hi
          · cases hi
            omega

-- Redirections.

def forgetStreams (p : Promise) : Promise := { p with streams := False }

theorem Allows.forgetStreams_iff {s : Shell} {e : Signal} : p.forgetStreams.Allows l s e ↔ p.Allows l s e := by
  cases l <;> cases e <;> rfl

theorem Kept.forgetStreams {s : State} {r : EStateM.Result Signal State α} (h : p.Kept l s r) :
    p.forgetStreams.Kept l s r := by
  cases r with
  | ok a t => exact { h with streams := False.elim }
  | error e t => exact ⟨{ h.1 with streams := False.elim }, Allows.forgetStreams_iff.mpr h.2⟩

section Redirections

variable {E E' : Engine} (h : (p.congruence .quiet).Expands E E')

include h

theorem kept_applyRedirs (hp : ¬p.streams) (rs : List Redir) :
    (p.congruence .flow).rel (applyRedirs E rs) (applyRedirs E' rs) := by
  have hexpands : (p.congruence .flow).Expands E E' :=
    ⟨h.program, h.compiles, fun b t => (h.capture b t).of_quiet, fun depth x t => (h.eval depth x t).of_quiet,
      kept_writing⟩
  have hset (change : Streams → Streams) (t : State) : p.Kept .flow t (setStreams change t) :=
    ⟨rfl, rfl, rfl, rfl, rfl, fun h => absurd h hp, nofun⟩
  exact Agreement.applyRedirs hset hexpands rs

theorem kept_tryRedirs (hp : ¬p.streams) (rs : List Redir) {m : Run Unit} (hm : ∀ s, p.Kept .flow s (m s))
    (s : State) : p.Kept .flow s (tryRedirs E rs m s) := by
  have hbody : (p.congruence .flow).rel m m := hm
  exact Congruence.tryRedirs (kept_applyRedirs h hp rs) hbody s

-- While they are in force the streams differ; afterwards they are what they were.
theorem kept_redirectedOr (rs : List Redir) {onFail : Failure → Run Unit} (hfail : ∀ f s, p.Kept .flow s (onFail f s))
    {m : Run Unit} (hm : ∀ s, p.Kept .flow s (m s)) (s : State) :
    p.Kept .flow s (redirectedOr onFail E rs m s) := by
  have hexpands : (p.forgetStreams.congruence .quiet).Expands E E' :=
    ⟨h.program, h.compiles, fun b t => (h.capture b t).forgetStreams,
      fun depth x t => (h.eval depth x t).forgetStreams, kept_writing⟩
  have hbody : (p.forgetStreams.congruence .flow).rel m m := fun t => (hm t).forgetStreams
  have hfail' (f : Failure) : (p.forgetStreams.congruence .flow).rel (onFail f) (onFail f) :=
    fun t => (hfail f t).forgetStreams
  have htry : p.forgetStreams.Kept .flow s (tryRedirsOr onFail E rs m s) :=
    Agreement.tryRedirsOr hfail' (kept_applyRedirs hexpands id rs) hbody s
  unfold redirectedOr
  split
  · exact hm s
  · rw [shell_bind, ensuring]
    cases hr : tryRedirsOr onFail E rs m s with
    | ok a t =>
        rw [hr] at htry
        exact { htry with streams := fun _ => rfl }
    | error e t =>
        rw [hr] at htry
        exact ⟨{ htry.1 with streams := fun _ => rfl }, Allows.forgetStreams_iff.mp htry.2⟩

end Redirections

end Promise

def Discipline.promise (p : Promise) : Discipline where
  quiet := p.congruence .quiet
  flow := p.congruence .flow
  loop := p.congruence .loop
  inner := p.congruence .inner
  flow_of_quiet h s := (h s).of_quiet
  loop_of_quiet h s := (h s).of_quiet
  loose h := Promise.Kept.of_loose h nofun
  exit _ s := Promise.kept_throw trivial
  return_ := Promise.kept_return
  leaveLoop := Promise.kept_leaveLoop
  absorb {α β m m' k k' h h'} hm hk hh hstopped _ s := by
    have hs := hm s
    cases hr : m s with
    | ok a t =>
        rw [hr] at hs
        rw [handled_of_ok hr]
        exact Promise.Kept.after { hs with settings := nofun } (hk a t)
    | error e t =>
        rw [hr] at hs
        rw [handled_of_error hr]
        have hkeeps : p.Keeps .inner s.shell t.shell := { hs.1 with settings := nofun }
        rcases e.stopped_or with ⟨why, rfl⟩ | he
        · rw [hstopped]
          exact ⟨hkeeps, trivial⟩
        · exact Promise.Kept.after hkeeps (hh e he t)
  condition := Promise.kept_condition
  unit := Promise.kept_unit
  call args _ _ := Promise.kept_call args
  params args _ _ := Promise.kept_params args
  scope values _ _ := Promise.kept_scope (depth_withValues values)
  write := Promise.kept_writing
  subshell change _ _ := Promise.kept_subshell change
  inLoop := Promise.kept_loop
  turn := Promise.kept_turn
  redirectedOr h rs hfail hm := Promise.kept_redirectedOr h rs hfail hm

theorem Discipline.admits_promise (p : Promise) : (Discipline.promise p).Admits :=
  ⟨fun _ s => .refl s.shell, fun _ => Promise.kept_throw trivial⟩

end Machine
end ShellScript

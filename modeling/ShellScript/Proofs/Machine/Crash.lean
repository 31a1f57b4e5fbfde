import ShellScript.Proofs.Machine.ControlFlow

-- Crashes. `trap` reads its action without a look at whether there is one, and `getopts` a letter at a position that
-- a longer argument has left. Nothing else in a run crashes.
namespace ShellScript
namespace Machine

open Program (Stmt Redir)
open Run

def Uncrashing {α : Type} (m : Run α) : Prop := ∀ s t, m s ≠ .error (.stopped .crash) t

namespace Uncrashing

variable {α β : Type} {m : Run α}

theorem of_stays {rel : State → State → Prop} (h : ∀ s, Stays rel s (m s)) : Uncrashing m := by
  intro s t ht
  have hs := h s
  rw [ht] at hs
  exact hs

theorem throw {e : Signal} (he : e ≠ .stopped .crash) : Uncrashing (throw e : Run α) := by
  intro s t ht
  cases ht
  exact he rfl

-- A signal that is no crash may be answered.
theorem handled {k : α → Run β} {h : Signal → Run β} (hm : Uncrashing m) (hk : ∀ a, Uncrashing (k a))
    (hh : ∀ e, e ≠ .stopped .crash → Uncrashing (h e)) : Uncrashing (handled m k h) := by
  intro s t ht
  cases hr : m s with
  | ok a u => exact hk a u t ((handled_of_ok hr k h).symm.trans ht)
  | error e u =>
      have he : e ≠ .stopped .crash := fun he => hm s u (he ▸ hr)
      exact hh e he u t ((handled_of_error hr k h).symm.trans ht)

theorem bind {k : α → Run β} (hm : Uncrashing m) (hk : ∀ a, Uncrashing (k a)) : Uncrashing (m >>= k) := by
  have heq : m >>= k = Machine.handled m k MonadExcept.throw :=
    eq_handled (fun _ _ _ h => bind_of_ok h k) fun _ _ _ h => bind_of_error h k
  rw [heq]
  exact hm.handled hk fun e he => throw he

theorem ensuring (after : State → State) (hm : Uncrashing m) : Uncrashing (ensuring m after) := by
  intro s t ht
  rw [Run.ensuring] at ht
  cases hr : m s with
  | ok a u =>
      rw [hr] at ht
      cases ht
  | error e u =>
      rw [hr] at ht
      cases ht
      exact hm s u hr

theorem within (change : Shell → Shell) (restore : Shell → Shell → Shell) (hm : Uncrashing m) :
    Uncrashing (within change restore m) := by
  intro s
  rw [within_apply]
  exact hm.ensuring _ _

theorem catchReturn {m : Run Unit} (hm : Uncrashing m) : Uncrashing (catchReturn m) := by
  intro s t ht
  rw [Machine.catchReturn] at ht
  cases hr : m s with
  | ok a u =>
      rw [hr] at ht
      cases ht
  | error e u =>
      rw [hr] at ht
      cases e with
      | return_ c => exact of_stays (plain_setStatus c) u t ht
      | stopped why =>
          cases ht
          exact hm s t hr
      | _ => cases ht

theorem turn {m : Run Unit} (hm : Uncrashing m) : Uncrashing (turn m) := by
  intro s t ht
  rw [Machine.turn] at ht
  cases hr : m s with
  | ok a u =>
      rw [hr] at ht
      cases ht
  | error e u =>
      rw [hr] at ht
      cases e with
      | loop n next =>
          dsimp only at ht
          split at ht <;> cases ht
      | stopped why =>
          cases ht
          exact hm s t hr
      | _ => cases ht

end Uncrashing

-- Only the computation on the left is looked at.
def Congruence.uncrashing : Congruence where
  rel m _ := Uncrashing m
  plain hm := .of_stays hm
  exhausted := .throw nofun
  bind := .bind
  handle hm hk hh := by
    refine Uncrashing.handled hm hk fun e he => ?_
    rcases hh e with ⟨heq, -⟩ | ⟨-, h⟩
    · rw [heq]
      exact .throw he
    · exact h

theorem Uncrashing.applyRedirs {E E' : Engine} (h : Congruence.uncrashing.Expands E E') (rs : List Redir) :
    Uncrashing (applyRedirs E rs) :=
  Agreement.applyRedirs (C := Congruence.uncrashing.toAgreement) (fun _ _ _ ht => nomatch ht) h rs

def Discipline.uncrashing : Discipline where
  quiet := .uncrashing
  flow := .uncrashing
  loop := .uncrashing
  inner := .uncrashing
  flow_of_quiet h := h
  loop_of_quiet h := h
  loose h := .of_stays h
  exit _ := .throw nofun
  return_ := Congruence.return_ (C := .uncrashing) fun _ => .throw nofun
  leaveLoop name next := Congruence.leaveLoop (C := .uncrashing) name fun _ =>
    Uncrashing.bind (.of_stays (plain_setStatus 0)) fun _ => .throw nofun
  absorb hm hk hh hstopped _ := by
    refine Uncrashing.handled hm hk fun e he => ?_
    rcases e.stopped_or with ⟨why, rfl⟩ | hnot
    · rw [hstopped]
      exact .throw he
    · exact hh e hnot
  condition h := Uncrashing.within _ _ h
  unit h := Uncrashing.within _ _ (Uncrashing.catchReturn h)
  call _ _ _ h := Uncrashing.within _ _ (Uncrashing.catchReturn h)
  params _ _ _ h := Uncrashing.within _ _ h
  scope _ _ _ h := Uncrashing.within _ _ h
  write local_ name _ _ h :=
    Agreement.writing (C := Congruence.uncrashing.toAgreement) (fun _ _ _ _ ht => nomatch ht) local_ name h
  subshell change _ _ h := by
    rw [withStreams_eq]
    exact Uncrashing.within _ _ h
  inLoop h := Uncrashing.within _ _ h
  turn h := Uncrashing.turn h
  redirectedOr h rs hfail hm :=
    Agreement.redirectedOr (C := Congruence.uncrashing.toAgreement) hfail (Uncrashing.applyRedirs h rs) hm
      fun _ _ _ h => Uncrashing.ensuring _ h

-- What never crashes, given an engine that does not.
def Engine.Uncrashing (E : Engine) : Prop := Discipline.uncrashing.Follows E E

namespace Engine.Uncrashing

variable {E : Engine}

theorem runBuiltin (h : E.Uncrashing) {b : Builtin} (hb : ¬(b = .trap ∨ b = .getopts)) (name : String)
    (args : List String) : Machine.Uncrashing (runBuiltin E b name args) :=
  Discipline.runBuiltin h b name args
    (fun _ => Discipline.umask (D := .uncrashing) (fun _ _ _ ht => nomatch ht) name args) fun hcrash => absurd hcrash hb

-- Of all commands but `getopts` one crashes, and with one list of arguments only.
theorem crashes_iff (h : E.Uncrashing) {b : Builtin} (hb : b ≠ .getopts) (name : String) (args : List String)
    (s : State) :
    (∃ t, Machine.runBuiltin E b name args s = .error (.stopped .crash) t) ↔ b = .trap ∧ args = ["--"] := by
  constructor
  · rintro ⟨t, ht⟩
    by_cases htrap : b = .trap
    · subst htrap
      by_cases hargs : args = ["--"]
      · exact ⟨rfl, hargs⟩
      · exact absurd ht (Machine.Uncrashing.of_stays (Command.plain_trap hargs) s t)
    · exact absurd ht (h.runBuiltin (not_or.mpr ⟨htrap, hb⟩) name args s t)
  · rintro ⟨rfl, rfl⟩
    exact ⟨_, rfl⟩

end Engine.Uncrashing

-- Goes on with an answer where `m` crashes.
def rescued (answer : Run Unit) (m : Run Unit) : Run Unit := fun s =>
  match m s with
  | .error (.stopped .crash) t => answer t
  | r => r

theorem rescued_crash (m : Run Unit) : rescued (throw (.stopped .crash)) m = m := by
  funext s
  unfold rescued
  split
  · rename_i ht
    rw [ht]
    rfl
  · rfl

theorem Uncrashing.rescued {answer : Run Unit} (h : Uncrashing answer) (m : Run Unit) :
    Uncrashing (rescued answer m) := by
  intro s t ht
  unfold Machine.rescued at ht
  split at ht
  · exact h _ _ ht
  · rename_i hnot
    exact hnot t ht

-- The engine that answers the crashes of `trap` and `getopts`, which run nothing else.
def Layer.rescuing (answer : Run Unit) : Layer :=
  .running fun E b name args =>
    if b = .trap ∨ b = .getopts then rescued answer (runBuiltin E b name args) else runBuiltin E b name args

theorem rescuing_crash : Layer.rescuing (throw (.stopped .crash)) = Layer.real := by
  rw [← Layer.running_real, Layer.rescuing]
  refine congrArg Layer.running ?_
  funext E b name args
  rw [rescued_crash, ite_self]

theorem rescuing_uncrashing {answer : Run Unit} (h : Uncrashing answer) (program : Program) (compiles : Bool)
    (rounds n : Nat) : ((Layer.rescuing answer).engine program compiles rounds n).Uncrashing := by
  refine Discipline.running_follows (D := .uncrashing) (fun hE b name args => ?_) (fun h => h) (fun hE redirs => ?_)
    program compiles rounds n
  · split
    · exact h.rescued _
    · rename_i hb
      exact Discipline.runBuiltin hE b name args
        (fun _ => Discipline.umask (D := .uncrashing) (fun _ _ _ ht => nomatch ht) name args) fun hcrash => absurd hcrash hb
  · exact Congruence.tryRedirs (C := .uncrashing) (Uncrashing.applyRedirs hE.expands redirs)
      (Uncrashing.of_stays (plain_setStatus 0))

-- A run crashes at a `trap --`, or at a `getopts` whose position is beyond its argument: a run in which the crashes of
-- these two commands are answered does not crash at all. A command that is none of the two ends with a status or a
-- signal, whatever its arguments and the state of the shell.
theorem builtin_crashes (program : Program) (compiles : Bool) (rounds n : Nat) :
    let E := fun answer => (Layer.rescuing answer).engine program compiles rounds n
    E (throw (.stopped .crash)) = engine program compiles rounds n ∧
    ∀ answer, Uncrashing answer →
      (∀ st, Uncrashing ((E answer).stmt st)) ∧
      (∀ b args, Uncrashing ((E answer).builtin b args)) ∧
      (∀ b name args s, b ≠ .getopts →
        ((∃ t, runBuiltin (E answer) b name args s = .error (.stopped .crash) t) ↔ b = .trap ∧ args = ["--"])) := by
  intro E
  refine ⟨?_, fun answer hanswer => ?_⟩
  · change (Layer.rescuing (throw (.stopped .crash))).engine program compiles rounds n = _
    rw [rescuing_crash, Layer.engine_real]
  · have hE := rescuing_uncrashing hanswer program compiles rounds n
    exact ⟨hE.stmt, hE.builtin, fun b name args s hb => hE.crashes_iff hb name args s⟩

-- With `trap --` as a command that succeeds, `eval 'trap --'` does not crash.
theorem eval_of_bare_trap_rescued :
    let E := (Layer.rescuing (pure ())).engine { name := "", main := default } true 1 6
    Uncrashing (E.builtin .eval ["eval", "trap --"]) :=
  ((builtin_crashes _ true 1 6).2 (pure ()) (.of_stays (plain_pure ()))).2.1 _ _

-- `trap --`.
theorem bare_trap_crashes :
    let program : Program := { name := "", main := default }
    signalOf ((engine program false 1 5).stmt
      (.call {} [] [⟨[.lit "trap" false]⟩, ⟨[.lit "--" false]⟩] [] none none) {}) = some (.stopped .crash) := by
  decide +kernel

end Machine
end ShellScript

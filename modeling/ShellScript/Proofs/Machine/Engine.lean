import ShellScript.Proofs.Machine.Statement

-- Engines that treat some statements or commands in a way of their own, such as an `exec` without a command or the
-- condition of a `while` loop. One that gives up there agrees with the real one on every run that it finishes.
namespace ShellScript
namespace Machine

open Program (Stmt Block Redir)
open Run

-- The state in which a run ends, by a result or by a signal.
def stateOf {α : Type} : EStateM.Result Signal State α → State
  | .ok _ t => t
  | .error _ t => t

-- The run as a whole is stopped.
def givesUp {α : Type} : EStateM.Result Signal State α → Bool
  | .error (.stopped _) _ => true
  | _ => false

-- How one level of an engine is made of the level below it.
structure Layer where
  stmt : Engine → Stmt → Run Unit
  builtin : Engine → Builtin → String → List String → Run Unit
  between : Engine → Run Unit := fun _ => pure ()

namespace Layer

def real : Layer := { stmt := runStmt, builtin := runBuiltin }

def alert : Layer := { real with between := runSignals }

def above (l : Layer) (E : Engine) : Engine :=
  { program := E.program, compiles := E.compiles, rounds := E.rounds
    stmt := l.stmt E
    between := l.between E
    builtin := fun b args => l.builtin E b (args.headD "") (args.drop 1)
    eval := arithAt E }

def engine (l : Layer) (program : Program) (compiles : Bool) (rounds : Nat) : Nat → Engine
  | 0 => Machine.engine program compiles rounds 0
  | n + 1 => l.above (l.engine program compiles rounds n)

theorem engine_real (program : Program) (compiles : Bool) (rounds n : Nat) :
    real.engine program compiles rounds n = Machine.engine program compiles rounds n := by
  induction n with
  | zero => rfl
  | succ n ih =>
      rw [engine, ih]
      cases n <;> rfl

theorem engine_alert (program : Program) (compiles : Bool) (rounds n : Nat) :
    alert.engine program compiles rounds n = alertEngine program compiles rounds n := by
  induction n with
  | zero => rfl
  | succ n ih =>
      rw [engine, ih]
      cases n <;> rfl

-- The layer whose commands run in a way of their own.
def running (run : Engine → Builtin → String → List String → Run Unit) : Layer where
  stmt E
    | .call _ assigns words redirs _ _ =>
      checked E (callBy (run E) E (tryRedirs E redirs (setStatus 0)) assigns words redirs)
    | st => runStmt E st
  builtin := run

theorem running_stmt_eq (run : Engine → Builtin → String → List String → Run Unit) (E : Engine) {st : Stmt}
    (h : isApart st = false) : (running run).stmt E st = runStmt E st := by
  cases st with
  | call => exact absurd h (by simp [isApart])
  | _ => rfl

theorem running_real : running runBuiltin = real := by
  have hstmt : (running runBuiltin).stmt = runStmt := by
    funext E st
    cases st with
    | call at_ assigns words redirs x y =>
        change checked E (callBy (runBuiltin E) E _ assigns words redirs) = checked E (callOr E _ assigns words redirs)
        rw [callOr_eq]
    | _ => rfl
  exact congrArg (fun stmt => { stmt, builtin := runBuiltin : Layer }) hstmt

end Layer

structure Variant where
  bare : Engine → List Redir → Run Unit
  check : Engine → Block → Run Unit

namespace Variant

def real : Variant where
  bare E redirs := tryRedirs E redirs (setStatus 0)
  check E cond := asCondition (runBlock E cond)

def run (v : Variant) (E : Engine) : Stmt → Run Unit
  | .call _ assigns words redirs _ _ => checked E (callOr E (v.bare E redirs) assigns words redirs)
  | .loop untilTrue cond body => inLoop (whileOn (v.check E cond) (loopBody E body) untilTrue E.rounds 0)
  | st => runStmt E st

theorem run_eq (v : Variant) (E : Engine) {st : Stmt} (h : isApart st = false) : v.run E st = runStmt E st := by
  cases st with
  | call | loop => exact absurd h (by simp [isApart])
  | _ => rfl

theorem run_real (E : Engine) (st : Stmt) : real.run E st = runStmt E st := by
  cases st with
  | loop untilTrue cond body => simp only [run, real, runStmt, whileLoop_eq]
  | _ => rfl

-- One level more than an engine.
def above (v : Variant) (E : Engine) : Engine :=
  { program := E.program, compiles := E.compiles, rounds := E.rounds
    stmt := v.run E
    builtin := fun b args => runBuiltin E b (args.headD "") (args.drop 1)
    eval := arithAt E }

def engine (v : Variant) (program : Program) (compiles : Bool) (rounds : Nat) : Nat → Engine
  | 0 => Machine.engine program compiles rounds 0
  | n + 1 => v.above (v.engine program compiles rounds n)

def layer (v : Variant) : Layer := { stmt := v.run, builtin := runBuiltin }

theorem engine_eq (v : Variant) (program : Program) (compiles : Bool) (rounds n : Nat) :
    v.engine program compiles rounds n = v.layer.engine program compiles rounds n := by
  induction n with
  | zero => rfl
  | succ n ih =>
      rw [engine, ih]
      rfl

theorem layer_real : real.layer = Layer.real := by
  rw [layer, funext fun E => funext (run_real E)]
  rfl

theorem engine_real (program : Program) (compiles : Bool) (rounds n : Nat) :
    real.engine program compiles rounds n = Machine.engine program compiles rounds n := by
  rw [engine_eq, layer_real, Layer.engine_real]

end Variant

namespace Discipline

variable {D : Discipline} {v v' : Variant}

theorem run {E E' : Engine} (h : D.Follows E E') (hadmits : D.Admits)
    (hbare : ∀ redirs, D.flow.rel (v.bare E redirs) (v'.bare E' redirs))
    (hcheck : ∀ cond, D.loop.rel (v.check E cond) (v'.check E' cond)) (st : Stmt) :
    D.flow.rel (v.run E st) (v'.run E' st) := by
  cases hst : isApart st with
  | false =>
      rw [v.run_eq E hst, v'.run_eq E' hst]
      exact runStmt h hst
  | true =>
      cases st with
      | call at_ assigns words redirs x y => exact checked h (callOr h hadmits (hbare redirs) assigns words redirs)
      | loop untilTrue cond body =>
          unfold Variant.run
          rw [h.rounds]
          exact D.inLoop (whileOn (hcheck cond) (loopBody h body) untilTrue _ 0)
      | _ => exact absurd hst (by simp [isApart])

-- The step from one level to the next carries over to all of them.
theorem layered {l l' : Layer}
    (hstmt : ∀ {E E' : Engine}, D.Follows E E' → ∀ st, D.flow.rel (l.stmt E st) (l'.stmt E' st))
    (hbuiltin : ∀ {E E' : Engine}, D.Follows E E' → ∀ b name args,
      D.flow.rel (l.builtin E b name args) (l'.builtin E' b name args))
    (hbetween : ∀ {E E' : Engine}, D.Follows E E' → D.flow.rel (l.between E) (l'.between E'))
    (program : Program) (compiles : Bool) (rounds n : Nat) :
    D.Follows (l.engine program compiles rounds n) (l'.engine program compiles rounds n) := by
  induction n with
  | zero =>
      exact ⟨rfl, rfl, rfl, fun _ => D.flow.exhausted, D.flow.pure (), fun _ _ => D.flow.exhausted,
        fun _ _ => D.quiet.exhausted⟩
  | succ n ih =>
      exact ⟨ih.program, ih.compiles, ih.rounds, hstmt ih, hbetween ih, fun b _ => hbuiltin ih b _ _,
        Agreement.arithAt ih.expands⟩

theorem follows (hadmits : D.Admits) (hbare : ∀ {E E' : Engine}, D.Follows E E' → ∀ redirs,
      D.flow.rel (v.bare E redirs) (v'.bare E' redirs))
    (hcheck : ∀ {E E' : Engine}, D.Follows E E' → ∀ cond, D.loop.rel (v.check E cond) (v'.check E' cond))
    (program : Program) (compiles : Bool) (rounds n : Nat) :
    D.Follows (v.engine program compiles rounds n) (v'.engine program compiles rounds n) := by
  rw [v.engine_eq, v'.engine_eq]
  refine layered (fun h => ?_) (fun h => ?_) (fun _ => D.flow.pure ()) program compiles rounds n
  · exact run h hadmits (hbare h) (hcheck h)
  · exact hadmits.runBuiltin h

section Running

variable {runs runs' : Engine → Builtin → String → List String → Run Unit}
  (hruns : ∀ {E E' : Engine}, D.Follows E E' → ∀ b name args, D.flow.rel (runs E b name args) (runs' E' b name args))
  (hloop : ∀ {m m' : Run Unit}, D.flow.rel m m' → D.loop.rel m m')
  (hbare : ∀ {E E' : Engine}, D.Follows E E' → ∀ redirs,
    D.flow.rel (tryRedirs E redirs (setStatus 0)) (tryRedirs E' redirs (setStatus 0)))

include hruns hloop hbare

theorem running_stmt {E E' : Engine} (h : D.Follows E E') (st : Stmt) :
    D.flow.rel ((Layer.running runs).stmt E st) ((Layer.running runs').stmt E' st) := by
  cases hst : isApart st with
  | false =>
      rw [Layer.running_stmt_eq runs E hst, Layer.running_stmt_eq runs' E' hst]
      exact runStmt h hst
  | true =>
      cases st with
      | call at_ assigns words redirs x y => exact checked h (callBy h (hruns h) (hbare h redirs) assigns words redirs)
      | loop untilTrue cond body =>
          change D.flow.rel (Machine.runStmt E (.loop untilTrue cond body)) (Machine.runStmt E' (.loop untilTrue cond body))
          rw [Machine.runStmt, Machine.runStmt, whileLoop_eq, whileLoop_eq, h.rounds]
          exact D.inLoop (whileOn (hloop (D.condition (runBlock h cond))) (loopBody h body) untilTrue _ 0)
      | _ => exact absurd hst (by simp [isApart])

-- Commands that run alike make engines that do.
theorem running_follows (program : Program) (compiles : Bool) (rounds n : Nat) :
    D.Follows ((Layer.running runs).engine program compiles rounds n)
      ((Layer.running runs').engine program compiles rounds n) :=
  layered (running_stmt hruns hloop hbare) hruns (fun _ => D.flow.pure ()) program compiles rounds n

end Running

end Discipline

-- Gives up, or does what the other one does.
def Approximates {α : Type} (m m' : Run α) : Prop := ∀ s, (∃ t, m s = .error (.stopped .bound) t) ∨ m s = m' s

namespace Approximates

variable {α β : Type} {m m' : Run α}

theorem refl (m : Run α) : Approximates m m := fun _ => .inr rfl

theorem giveUp (m : Run α) : Approximates (throw (.stopped .bound)) m := fun s => .inl ⟨s, rfl⟩

theorem handled {k k' : α → Run β} {h h' : Signal → Run β} (hm : Approximates m m')
    (hk : ∀ a, Approximates (k a) (k' a)) (hh : ∀ e, (∀ why, e ≠ .stopped why) → Approximates (h e) (h' e))
    (hstopped : ∀ why, h (.stopped why) = throw (.stopped why))
    (hstopped' : ∀ why, h' (.stopped why) = throw (.stopped why)) : Approximates (handled m k h) (handled m' k' h') := by
  intro s
  rcases hm s with ⟨t, ht⟩ | heq
  · rw [handled_of_error ht, hstopped]
    exact .inl ⟨t, rfl⟩
  · cases hr : m s with
    | ok a t =>
        rw [handled_of_ok hr, handled_of_ok (heq ▸ hr)]
        exact hk a t
    | error e t =>
        rw [handled_of_error hr, handled_of_error (heq ▸ hr)]
        rcases e.stopped_or with ⟨why, rfl⟩ | he
        · rw [hstopped, hstopped']
          exact .inr rfl
        · exact hh e he t

theorem bind {k k' : α → Run β} (hm : Approximates m m') (hk : ∀ a, Approximates (k a) (k' a)) :
    Approximates (m >>= k) (m' >>= k') := by
  have heq : ∀ (m : Run α) (k : α → Run β), m >>= k = Machine.handled m k throw := fun m k =>
    eq_handled (fun _ _ _ hm => bind_of_ok hm k) fun _ _ _ hm => bind_of_error hm k
  rw [heq, heq]
  exact handled hm hk (fun e _ => refl _) (fun _ => rfl) fun _ => rfl

-- What looks only at the result of a run, and gives up where that has given up.
theorem around {F : Run α → Run β}
    (hgiveUp : ∀ {m : Run α} {s t : State}, m s = .error (.stopped .bound) t → ∃ u, F m s = .error (.stopped .bound) u)
    (hsame : ∀ {m m' : Run α} {s : State}, m s = m' s → F m s = F m' s) (hm : Approximates m m') :
    Approximates (F m) (F m') := by
  intro s
  rcases hm s with ⟨t, ht⟩ | heq
  · exact .inl (hgiveUp ht)
  · exact .inr (hsame heq)

theorem ensuring (after : State → State) (hm : Approximates m m') :
    Approximates (ensuring m after) (Run.ensuring m' after) := by
  refine around (F := fun m => Run.ensuring m after) (fun {_ _ t} ht => ⟨after t, ?_⟩) (fun heq => ?_) hm
  · rw [Run.ensuring, ht]
  · rw [Run.ensuring, Run.ensuring, heq]

theorem within (change : Shell → Shell) (restore : Shell → Shell → Shell) (hm : Approximates m m') :
    Approximates (within change restore m) (Run.within change restore m') := by
  intro s
  rw [within_apply, within_apply]
  exact hm.ensuring _ _

theorem catchReturn {m m' : Run Unit} (hm : Approximates m m') :
    Approximates (catchReturn m) (Machine.catchReturn m') := by
  refine around (fun {_ _ t} ht => ⟨t, ?_⟩) (fun heq => ?_) hm
  · rw [Machine.catchReturn, ht]
  · rw [Machine.catchReturn, Machine.catchReturn, heq]

theorem turn {m m' : Run Unit} (hm : Approximates m m') : Approximates (turn m) (Machine.turn m') := by
  refine around (fun {_ _ t} ht => ⟨t, ?_⟩) (fun heq => ?_) hm
  · rw [Machine.turn, ht]
  · rw [Machine.turn, Machine.turn, heq]

end Approximates

def Congruence.approximation : Congruence where
  rel := Approximates
  plain _ := .refl _
  exhausted := .refl _
  bind := .bind
  handle hm hk hh := by
    have hstopped := fun why => Answers.of_stopped (hh (.stopped why))
    refine .handled hm hk (fun e _ => ?_) (fun why => (hstopped why).1) fun why => (hstopped why).2
    rcases hh e with ⟨h, h'⟩ | ⟨-, h⟩
    · rw [h, h']
      exact .refl _
    · exact h

theorem Approximates.applyRedirs {E E' : Engine} (h : Congruence.approximation.Expands E E')
    (rs : List Program.Redir) : Approximates (applyRedirs E rs) (Machine.applyRedirs E' rs) :=
  Agreement.applyRedirs (C := Congruence.approximation.toAgreement) (fun _ => .refl _) h rs

def Discipline.approximation : Discipline where
  quiet := .approximation
  flow := .approximation
  loop := .approximation
  inner := .approximation
  flow_of_quiet h := h
  loop_of_quiet h := h
  loose _ := .refl _
  exit _ := .refl _
  return_ _ := .refl _
  leaveLoop _ _ _ := .refl _
  absorb hm hk hh hstopped hstopped' := .handled hm hk hh hstopped hstopped'
  condition h := h.within _ _
  unit h := h.catchReturn.within _ _
  call _ _ _ h := h.catchReturn.within _ _
  params _ _ _ h := h.within _ _
  scope _ _ _ h := h.within _ _
  write local_ name _ _ h :=
    Agreement.writing (C := Congruence.approximation.toAgreement) (fun _ _ => .refl _) local_ name h
  subshell change _ _ h := h.within (fun s => { forked s with streams := change s.streams }) fun s _ => s
  inLoop h := h.within _ _
  turn h := h.turn
  redirectedOr h rs hfail hm :=
    Agreement.redirectedOr (C := Congruence.approximation.toAgreement) hfail (.applyRedirs h rs) hm
      fun _ _ _ h => h.ensuring _

theorem Discipline.admits_approximation : Discipline.approximation.Admits := ⟨fun _ => .refl _, .refl _⟩

-- Where no signal is to come, both do the same, and none is to come afterwards.
def Silently {α : Type} (m m' : Run α) : Prop :=
  ∀ s, s.world.arrivals = [] → m s = m' s ∧ (stateOf (m s)).world.arrivals = []

namespace Silently

variable {α β : Type} {m m' : Run α}

theorem of_stays {rel : State → State → Prop} (h : ∀ s, Stays rel s (m s))
    (hrel : ∀ s t : State, rel s t → s.world.arrivals = [] → t.world.arrivals = []) : Silently m m := by
  intro s hs
  have hm := h s
  cases hr : m s with
  | ok a t =>
      rw [hr] at hm
      exact ⟨rfl, hrel s t hm hs⟩
  | error e t =>
      rw [hr] at hm
      cases e with
      | fail f => exact ⟨rfl, hrel s t hm hs⟩
      | _ => exact hm.elim

theorem of_plain (h : Plain m) : Silently m m := of_stays h fun _ _ => State.Unmoved.silent

theorem throw (e : Signal) : Silently (throw e : Run α) (throw e) := fun _ hs => ⟨rfl, hs⟩

theorem handled {k k' : α → Run β} {h h' : Signal → Run β} (hm : Silently m m') (hk : ∀ a, Silently (k a) (k' a))
    (hh : ∀ e, Silently (h e) (h' e)) : Silently (handled m k h) (handled m' k' h') := by
  intro s hs
  obtain ⟨heq, hsilent⟩ := hm s hs
  cases hr : m s with
  | ok a t =>
      rw [hr] at heq hsilent
      rw [handled_of_ok hr, handled_of_ok heq.symm]
      exact hk a t hsilent
  | error e t =>
      rw [hr] at heq hsilent
      rw [handled_of_error hr, handled_of_error heq.symm]
      exact hh e t hsilent

-- What looks only at the result of a run and leaves the world alone.
theorem around {F : Run α → Run β} (hsame : ∀ {m m' : Run α} {s : State}, m s = m' s → F m s = F m' s)
    (hworld : ∀ (m : Run α) s, (stateOf (F m s)).world = (stateOf (m s)).world) (hm : Silently m m') :
    Silently (F m) (F m') := by
  intro s hs
  obtain ⟨heq, hsilent⟩ := hm s hs
  exact ⟨hsame heq, (congrArg World.arrivals (hworld m s)).trans hsilent⟩

theorem ensuring {after : State → State} (hafter : ∀ s, (after s).world = s.world) (hm : Silently m m') :
    Silently (ensuring m after) (Run.ensuring m' after) := by
  refine around (F := fun m => Run.ensuring m after) (fun heq => ?_) (fun m s => ?_) hm
  · rw [Run.ensuring, Run.ensuring, heq]
  · rw [Run.ensuring]
    cases m s <;> exact hafter _

theorem within (change : Shell → Shell) (restore : Shell → Shell → Shell) (hm : Silently m m') :
    Silently (within change restore m) (Run.within change restore m') := by
  intro s hs
  rw [within_apply, within_apply]
  refine hm.ensuring ?_ { s with shell := change s.shell } hs
  exact fun _ => rfl

theorem catchReturn {m m' : Run Unit} (hm : Silently m m') : Silently (catchReturn m) (Machine.catchReturn m') := by
  refine around (fun heq => ?_) (fun m s => ?_) hm
  · rw [Machine.catchReturn, Machine.catchReturn, heq]
  · rw [Machine.catchReturn]
    cases m s with
    | ok a t => rfl
    | error e t => cases e <;> rfl

theorem turn {m m' : Run Unit} (hm : Silently m m') : Silently (turn m) (Machine.turn m') := by
  refine around (fun heq => ?_) (fun m s => ?_) hm
  · rw [Machine.turn, Machine.turn, heq]
  · rw [Machine.turn]
    cases m s with
    | ok a t => rfl
    | error e t =>
        cases e with
        | loop n next =>
            dsimp only
            split <;> rfl
        | _ => rfl

end Silently

def Congruence.silence : Congruence where
  rel := Silently
  plain := .of_plain
  exhausted := .throw _
  bind {α β m m' k k'} hm hk := by
    have heq : ∀ (m : Run α) (k : α → Run β), m >>= k = handled m k MonadExcept.throw := fun m k =>
      eq_handled (fun _ _ _ hm => bind_of_ok hm k) fun _ _ _ hm => bind_of_error hm k
    rw [heq, heq]
    exact hm.handled hk fun e => .throw e
  handle hm hk hh := by
    refine hm.handled hk fun e => ?_
    rcases hh e with ⟨h, h'⟩ | ⟨-, h⟩
    · rw [h, h']
      exact .throw e
    · exact h

theorem Silently.applyRedirs {E E' : Engine} (h : Congruence.silence.Expands E E') (rs : List Redir) :
    Silently (applyRedirs E rs) (Machine.applyRedirs E' rs) :=
  Agreement.applyRedirs (C := Congruence.silence.toAgreement) (fun _ _ hs => ⟨rfl, hs⟩) h rs

def Discipline.silence : Discipline where
  quiet := .silence
  flow := .silence
  loop := .silence
  inner := .silence
  flow_of_quiet h := h
  loop_of_quiet h := h
  loose h := .of_stays h fun _ _ => State.Undisturbed.silent
  exit _ := .throw _
  return_ := Congruence.return_ fun _ => .throw _
  leaveLoop name _ := Congruence.leaveLoop name fun _ =>
    Congruence.silence.bind (Silently.of_plain (plain_setStatus 0)) fun _ => .throw _
  absorb hm hk hh hstopped hstopped' := hm.handled hk fun e => by
    rcases e.stopped_or with ⟨why, rfl⟩ | he
    · rw [hstopped, hstopped']
      exact .throw _
    · exact hh e he
  condition h := h.within _ _
  unit h := h.catchReturn.within _ _
  call _ _ _ h := h.catchReturn.within _ _
  params _ _ _ h := h.within _ _
  scope _ _ _ h := h.within _ _
  write local_ name _ _ h :=
    Agreement.writing (C := Congruence.silence.toAgreement) (fun _ _ _ hs => ⟨rfl, hs⟩) local_ name h
  subshell change _ _ h := h.within (fun s => { forked s with streams := change s.streams }) fun s _ => s
  inLoop h := h.within _ _
  turn h := h.turn
  redirectedOr h rs hfail hm :=
    Agreement.redirectedOr (C := Congruence.silence.toAgreement) hfail (.applyRedirs h rs) hm
      fun _ _ _ h => h.ensuring fun _ => rfl

theorem Discipline.admits_silence : Discipline.silence.Admits := ⟨fun _ _ hs => ⟨rfl, hs⟩, .throw _⟩

theorem silent_runSignals (E : Engine) : Silently (runSignals E) (pure ()) := by
  intro s hs
  have hnone : runSignals E s = .ok () s := by
    rw [runSignals, shell_bind]
    split
    · rfl
    · rw [world_bind, hs]
      rfl
  rw [hnone]
  exact ⟨rfl, hs⟩

-- To a shell to which no signal comes, the two engines are the same.
theorem alertEngine_silent (program : Program) (compiles : Bool) (rounds n : Nat) :
    Discipline.silence.Follows (alertEngine program compiles rounds n) (engine program compiles rounds n) := by
  have hbare {E E' : Engine} (h : Discipline.silence.Follows E E') (redirs : List Redir) :
      Silently (tryRedirs E redirs (setStatus 0)) (tryRedirs E' redirs (setStatus 0)) :=
    Congruence.tryRedirs (C := .silence) (.applyRedirs h.expands redirs) (.of_plain (plain_setStatus 0))
  have hstmt {E E' : Engine} (h : Discipline.silence.Follows E E') (st : Stmt) :
      Discipline.silence.flow.rel (runStmt E st) (runStmt E' st) := by
    rw [← Variant.run_real, ← Variant.run_real]
    refine Discipline.run h Discipline.admits_silence (fun redirs => ?_) (fun cond => ?_) st
    · exact hbare h redirs
    · exact Discipline.silence.condition (Discipline.runBlock h cond)
  rw [← Layer.engine_alert, ← Layer.engine_real]
  refine Discipline.layered hstmt (fun h => Discipline.admits_silence.runBuiltin h) ?_ program compiles rounds n
  exact fun _ => silent_runSignals _

end Machine
end ShellScript

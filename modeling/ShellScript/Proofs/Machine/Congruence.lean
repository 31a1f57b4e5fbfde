import ShellScript.Proofs.Machine.Command
import ShellScript.Proofs.Machine.Plain

-- Computations that leave the last status as it is, however they end, unless the run is given up. What an expansion does
-- besides running commands is mild: it stays in its place and keeps the status.
namespace ShellScript
namespace Machine

open Run

structure Steady {α : Type} (m : Run α) : Prop where
  ok : ∀ {s a t}, m s = .ok a t → t.shell.status = s.shell.status
  error : ∀ {s e t}, m s = .error e t → (∀ why, e ≠ .stopped why) → t.shell.status = s.shell.status

section Rules

variable {α β : Type} {m : Run α}

theorem Steady.bind {k : α → Run β} (hm : Steady m) (hk : ∀ a, Steady (k a)) : Steady (m >>= k) := by
  constructor
  · intro s b u h
    cases hr : m s with
    | ok a t => exact ((hk a).ok ((bind_of_ok hr k).symm.trans h)).trans (hm.ok hr)
    | error e t => cases (bind_of_error hr k).symm.trans h
  · intro s e u h he
    cases hr : m s with
    | ok a t => exact ((hk a).error ((bind_of_ok hr k).symm.trans h) he).trans (hm.ok hr)
    | error e' t =>
        cases (bind_of_error hr k).symm.trans h
        exact hm.error hr he

theorem steady_pure (a : α) : Steady (pure a : Run α) := by
  constructor
  · intro s b t h
    cases h
    rfl
  · exact nofun

theorem steady_throw (e : Signal) : Steady (throw e : Run α) := by
  constructor
  · exact nofun
  · intro s e' t h _
    cases h
    rfl

theorem steady_get : Steady (get : Run State) := by
  constructor
  · intro s b t h
    cases h
    rfl
  · exact nofun

theorem steady_modify {f : State → State} (h : ∀ s, (f s).shell.status = s.shell.status) :
    Steady (modify f : Run Unit) := by
  constructor
  · intro s b t ht
    cases ht
    exact h s
  · exact nofun

theorem steady_shell : Steady shell := steady_get.bind fun s => steady_pure s.shell

theorem steady_world : Steady world := steady_get.bind fun s => steady_pure s.world

theorem steady_modifyShell {f : Shell → Shell} (h : ∀ s, (f s).status = s.status) : Steady (modifyShell f) :=
  steady_modify fun s => h s.shell

theorem steady_modifyWorld (f : World → World) : Steady (modifyWorld f) := steady_modify fun _ => rfl

theorem steady_nextSignal : Steady nextSignal := by
  refine steady_world.bind fun w => ?_
  split
  · exact steady_pure _
  · exact (steady_modifyWorld _).bind fun _ => steady_pure _

theorem steady_setEnv (env : Env) : Steady (setEnv env) := steady_modifyShell fun _ => rfl

end Rules

structure Mild {α : Type} (m : Run α) : Prop where
  plain : Plain m
  steady : Steady m

section Mild

variable {α β : Type} {m : Run α}

@[simp] theorem Mild.bind {k : α → Run β} (hm : Mild m) (hk : ∀ a, Mild (k a)) : Mild (m >>= k) :=
  ⟨hm.plain.bind fun a => (hk a).plain, hm.steady.bind fun a => (hk a).steady⟩

@[simp] theorem mild_pure (a : α) : Mild (pure a : Run α) := ⟨plain_pure a, steady_pure a⟩

@[simp] theorem Mild.map (f : α → β) (hm : Mild m) : Mild (f <$> m) := by
  rw [← bind_pure_comp]
  exact hm.bind fun a => mild_pure (f a)

@[simp] theorem mild_fail (f : Failure) : Mild (fail f : Run α) := ⟨plain_fail f, steady_throw _⟩

theorem mild_get : Mild (get : Run State) := ⟨plain_get, steady_get⟩

@[simp] theorem mild_shell : Mild shell := ⟨plain_shell, steady_shell⟩

@[simp] theorem mild_world : Mild world := ⟨plain_world, steady_world⟩

theorem mild_modifyWorld {f : World → World} (hmask : ∀ w, (f w).mask = w.mask)
    (hsilent : ∀ w, w.arrivals = [] → (f w).arrivals = [] := by exact fun _ h => h) : Mild (modifyWorld f) :=
  ⟨plain_modifyWorld hmask hsilent, steady_modifyWorld f⟩

@[simp] theorem mild_ite {c : Prop} [Decidable c] {m' : Run α} (h : Mild m) (h' : Mild m') :
    Mild (if c then m else m') := by
  split <;> assumption

@[simp] theorem mild_setVar (name value : String) : Mild (setVar name value) := by
  refine ⟨plain_setVar name value, steady_shell.bind fun s => ?_⟩
  split
  · exact steady_setEnv _
  · exact steady_throw _

-- An update of the variables that may fail after it has changed some of them.
theorem steady_updateEnv (f : Env → Env × Option Failure) : Steady (do
    let (env, failure) := f (← shell).env
    setEnv env
    match failure with
    | some f => fail f
    | none => return) := by
  refine steady_shell.bind fun s => (steady_setEnv _).bind fun _ => ?_
  cases (f s.env).2 with
  | some f => exact steady_throw _
  | none => exact steady_pure ()

@[simp] theorem mild_setIndex (name : String) (i : Int) (value : String) : Mild (setIndex name i value) :=
  ⟨plain_setIndex name i value, steady_updateEnv fun e => e.setIndex name i value⟩

theorem mild_setArray (name : String) (values : List String) : Mild (setArray name values) :=
  ⟨plain_setArray name values, steady_updateEnv fun e => e.setArray name values⟩

@[simp] theorem mild_valueOf (name : String) : Mild (valueOf name) := by
  simp [valueOf]

@[simp] theorem mild_newChannel (c : Channel) : Mild (newChannel c) :=
  ⟨plain_newChannel c, steady_world.bind fun _ => (steady_modifyWorld _).bind fun _ => steady_pure _⟩

end Mild
end Machine
end ShellScript

-- Relations between two computations that sequencing and the handling of signals respect. A property of one
-- computation is a relation that looks at its left side only.
namespace ShellScript
namespace Machine

open Program (Word Part Param Arith Stmt Block Assign)
open Run

-- Goes on after a result and after a signal.
def handled {α β : Type} (m : Run α) (onOk : α → Run β) (onSignal : Signal → Run β) : Run β := fun s =>
  match m s with
  | .ok a s => onOk a s
  | .error e s => onSignal e s

def Var.withText (value : String) (v : Var) : Var :=
  if v.array then { v with list := value :: v.list.drop 1 } else { v with value }

-- Assigns a text that is found only after the variable has been looked at.
def writing (local_ : Bool) (name : String) (text : Var → Run String) : Run Unit := do
  let v ← target local_ name
  if v.readOnly then fail (.ofText .readOnly name)
  let value ← text v
  modifyVar name (Var.withText value)

theorem Signal.stopped_or (e : Signal) : (∃ why, e = .stopped why) ∨ ∀ why, e ≠ .stopped why := by
  cases e with
  | stopped why => exact .inl ⟨why, rfl⟩
  | _ => exact .inr nofun

-- Both sides let a signal through, or both go on after one that does not stop the run.
def Answers {β : Type} (rel : Run β → Run β → Prop) (e : Signal) (m m' : Run β) : Prop :=
  (m = throw e ∧ m' = throw e) ∨ ((∀ why, e ≠ .stopped why) ∧ rel m m')

theorem Answers.of_stopped {β : Type} {rel : Run β → Run β → Prop} {why : Stop} {m m' : Run β}
    (h : Answers rel (.stopped why) m m') : m = throw (.stopped why) ∧ m' = throw (.stopped why) := by
  rcases h with h | ⟨h, -⟩
  · exact h
  · exact absurd rfl (h why)

-- What expanding words respects.
structure Agreement where
  rel : {α : Type} → Run α → Run α → Prop
  mild : ∀ {α : Type} {m : Run α}, Mild m → rel m m
  exhausted : ∀ {α : Type}, rel (throw (.stopped .bound) : Run α) (throw (.stopped .bound))
  bind : ∀ {α β : Type} {m m' : Run α} {k k' : α → Run β}, rel m m' → (∀ a, rel (k a) (k' a)) →
    rel (m >>= k) (m' >>= k')
  handle : ∀ {α β : Type} {m m' : Run α} {k k' : α → Run β} {h h' : Signal → Run β}, rel m m' →
    (∀ a, rel (k a) (k' a)) → (∀ e, Answers rel e (h e) (h' e)) → rel (handled m k h) (handled m' k' h')

-- What statements respect, too: the status may change.
structure Congruence extends Agreement where
  plain : ∀ {α : Type} {m : Run α}, Plain m → rel m m
  mild := fun h => plain h.plain

theorem handled_of_ok {α β : Type} {m : Run α} {s t : State} {a : α} (hm : m s = .ok a t) (k : α → Run β)
    (h : Signal → Run β) : handled m k h s = k a t := by
  rw [handled, hm]

theorem handled_of_error {α β : Type} {m : Run α} {s t : State} {e : Signal} (hm : m s = .error e t)
    (k : α → Run β) (h : Signal → Run β) : handled m k h s = h e t := by
  rw [handled, hm]

theorem eq_handled {α β : Type} {f : Run β} {m : Run α} {k : α → Run β} {h : Signal → Run β}
    (hok : ∀ s a t, m s = .ok a t → f s = k a t) (herror : ∀ s e t, m s = .error e t → f s = h e t) :
    f = handled m k h := by
  funext s
  cases hm : m s with
  | ok a t => rw [hok s a t hm, handled_of_ok hm]
  | error e t => rw [herror s e t hm, handled_of_error hm]

theorem tryCatch_eq_handled {α : Type} (m : Run α) (h : Signal → Run α) :
    tryCatch m h = handled m pure h := by
  funext s
  change EStateM.tryCatch m h s = _
  unfold EStateM.tryCatch handled
  cases m s <;> rfl

-- Only failures are answered.
def answerFailures {α : Type} (answer : Failure → Run α) : Signal → Run α
  | .fail f => answer f
  | e => throw e

namespace Agreement

variable (C : Agreement) {α β : Type}

theorem pure (a : α) : C.rel (Pure.pure a : Run α) (Pure.pure a) := C.mild (mild_pure a)

theorem shell {k k' : Shell → Run β} (h : ∀ s, C.rel (k s) (k' s)) : C.rel (shell >>= k) (shell >>= k') :=
  C.bind (C.mild mild_shell) h

theorem world {k k' : World → Run β} (h : ∀ w, C.rel (k w) (k' w)) : C.rel (world >>= k) (world >>= k') :=
  C.bind (C.mild mild_world) h

theorem ite {c : Prop} [Decidable c] {m m' n n' : Run α} (h : C.rel m m') (h' : C.rel n n') :
    C.rel (if c then m else n) (if c then m' else n') := by
  split <;> assumption

-- A check in front of the rest.
theorem guard {c : Prop} [Decidable c] {x : Run Unit} (hx : Mild x) {k k' : Unit → Run β}
    (h : ∀ u, C.rel (k u) (k' u)) : C.rel (if c then x >>= k else k ()) (if c then x >>= k' else k' ()) :=
  C.ite (C.bind (C.mild hx) h) (h ())

-- A failure is answered and every other signal passes.
theorem handleFail {m m' : Run Unit} {k k' : Unit → Run Unit} {h h' : Failure → Run Unit} (hm : C.rel m m')
    (hk : ∀ u, C.rel (k u) (k' u)) (hf : ∀ f, Answers C.rel (.fail f) (h f) (h' f)) :
    C.rel
      (fun s => match m s with
        | .ok u s => k u s
        | .error (.fail f) s => h f s
        | .error e s => .error e s)
      (fun s => match m' s with
        | .ok u s => k' u s
        | .error (.fail f) s => h' f s
        | .error e s => .error e s) := by
  have heq : ∀ (m : Run Unit) (k : Unit → Run Unit) (h : Failure → Run Unit),
      (fun s => match m s with
        | .ok u s => k u s
        | .error (.fail f) s => h f s
        | .error e s => .error e s) = handled m k (answerFailures h) := by
    intro m k h
    refine eq_handled (fun s u t hm => ?_) fun s e t hm => ?_
    · simp only [hm]
    · cases e <;> simp only [hm] <;> rfl
  rw [heq m k h, heq m' k' h']
  refine C.handle hm hk fun e => ?_
  cases e with
  | fail f => exact hf f
  | _ => exact .inl ⟨rfl, rfl⟩

-- What expanding words takes from an engine, and what assignments take from the congruence.
structure Expands (E E' : Engine) : Prop where
  program : E'.program = E.program
  compiles : E'.compiles = E.compiles
  capture : ∀ b, C.rel (capture E b) (capture E' b)
  eval : ∀ depth x, C.rel (E.eval depth x) (E'.eval depth x)
  write : ∀ local_ name {m m' : Var → Run String}, (∀ v, C.rel (m v) (m' v)) →
    C.rel (writing local_ name m) (writing local_ name m')

end Agreement

theorem Congruence.guard (C : Congruence) {β : Type} {c : Prop} [Decidable c] {x : Run Unit} (hx : Plain x)
    {k k' : Unit → Run β} (h : ∀ u, C.rel (k u) (k' u)) :
    C.rel (if c then x >>= k else k ()) (if c then x >>= k' else k' ()) :=
  C.ite (C.bind (C.plain hx) h) (h ())

end Machine
end ShellScript

import ShellScript.Machine.Step
import ShellScript.Proofs.Machine.Env

-- Computations that stay in their place: they may change variables, files and settings and may fail, but they
-- are left by no other signal, and every counter that a surrounding construct has set is as it was. Nor do they
-- change a global that is read-only, or the permissions of new files.
namespace ShellScript
namespace Machine

namespace Env

theorem length_putIn (name : String) (v : Var) (ss : List Scope) : (putIn name v ss).length = ss.length := by
  induction ss with
  | nil => rfl
  | cons s ss ih =>
      cases ss with
      | nil => rfl
      | cons t ts =>
          simp only [putIn]
          split
          · rfl
          · simp only [List.length_cons] at ih ⊢
            rw [ih]

theorem depth_ofScopes (ss : List Scope) : (ofScopes ss).depth = ss.length - 1 := by
  cases ss <;> rfl

@[simp] theorem depth_put (e : Env) (name : String) (v : Var) : (e.put name v).depth = e.depth := by
  rw [put, depth_ofScopes, length_putIn]
  rfl

@[simp] theorem depth_declareLocal (e : Env) (name : String) : (e.declareLocal name).depth = e.depth := by
  unfold declareLocal
  split <;> rfl

theorem depth_pop {e : Env} {n : Nat} (h : e.depth = n + 1) : e.pop.depth = n := by
  obtain ⟨scope, outer⟩ := e
  cases outer with
  | nil => exact absurd h (by simp [depth])
  | cons s ss => simpa [depth, pop] using h

end Env

open Run

-- What the constructs around a command have set.
structure Place where
  depth : Nat
  conditions : Nat
  sources : Nat
  calls : Nat
  loops : Nat
  streams : Streams
  params : List String
  options : Program.Options

def Shell.place (s : Shell) : Place :=
  { depth := s.env.depth, conditions := s.conditions, sources := s.sources, calls := s.calls, loops := s.loops,
    streams := s.streams, params := s.params, options := s.options }

-- The place but for the parameters and options, which some commands may replace.
def Shell.frame (s : Shell) : Place := { s.place with params := [], options := {} }

theorem Shell.frame_of_place {s t : Shell} (h : t.place = s.place) : t.frame = s.frame := by
  rw [frame, frame, h]

-- Only the depth of the scopes can tell two sets of variables apart here.
theorem Shell.place_withEnv (s : Shell) {env : Env} (h : env.depth = s.env.depth) :
    Shell.place { s with env } = s.place := by
  simp only [place, h]

def State.withStatus (s : State) (n : Int) : State := { s with shell := { s.shell with status := n } }

namespace Run

variable {α β : Type}

theorem bind_of_ok {m : Run α} {s t : State} {a : α} (h : m s = .ok a t) (k : α → Run β) :
    (m >>= k) s = k a t := by
  change EStateM.bind m k s = _
  rw [EStateM.bind, h]

theorem shell_bind (k : Shell → Run β) (s : State) : (shell >>= k) s = k s.shell s := bind_of_ok rfl k

theorem world_bind (k : World → Run β) (s : State) : (world >>= k) s = k s.world s := bind_of_ok rfl k

theorem modifyShell_bind (f : Shell → Shell) (k : Unit → Run β) (s : State) :
    (modifyShell f >>= k) s = k () { s with shell := f s.shell } := bind_of_ok rfl k

theorem setStatus_bind (n : Int) (k : Unit → Run β) (s : State) : (setStatus n >>= k) s = k () (s.withStatus n) :=
  bind_of_ok rfl k

theorem bind_of_error {m : Run α} {s t : State} {e : Signal} (h : m s = .error e t) (k : α → Run β) :
    (m >>= k) s = .error e t := by
  change EStateM.bind m k s = _
  rw [EStateM.bind, h]

end Run

namespace State

-- After an expansion or a simple command.
structure Unmoved (s t : State) : Prop where
  place : t.shell.place = s.shell.place
  env : s.shell.env.Respects t.shell.env
  mask : t.world.mask = s.world.mask
  -- no signal comes up
  silent : s.world.arrivals = [] → t.world.arrivals = []

-- After a command that may replace the parameters or take variables away.
structure Undisturbed (s t : State) : Prop where
  frame : t.shell.frame = s.shell.frame
  env : s.shell.env.Protects t.shell.env
  mask : t.world.mask = s.world.mask
  silent : s.world.arrivals = [] → t.world.arrivals = []

variable {s t u : State}

theorem Unmoved.refl (s : State) : s.Unmoved s := ⟨rfl, .refl _, rfl, id⟩

theorem Unmoved.trans (h : s.Unmoved t) (h' : t.Unmoved u) : s.Unmoved u :=
  ⟨h'.place.trans h.place, h.env.trans h'.env, h'.mask.trans h.mask, fun hs => h'.silent (h.silent hs)⟩

theorem Undisturbed.trans (h : s.Undisturbed t) (h' : t.Undisturbed u) : s.Undisturbed u :=
  ⟨h'.frame.trans h.frame, h.env.trans h'.env, h'.mask.trans h.mask, fun hs => h'.silent (h.silent hs)⟩

theorem Unmoved.undisturbed (h : s.Unmoved t) : s.Undisturbed t :=
  ⟨Shell.frame_of_place h.place, h.env.protects, h.mask, h.silent⟩

instance : Trans Unmoved Unmoved Unmoved := ⟨Unmoved.trans⟩

instance : Trans Undisturbed Undisturbed Undisturbed := ⟨Undisturbed.trans⟩

-- New variables, in the scopes of before.
theorem Unmoved.withEnv (s : State) {env : Env} (henv : s.shell.env.Respects env) :
    s.Unmoved { s with shell := { s.shell with env } } :=
  ⟨s.shell.place_withEnv henv.protects.depth, henv, rfl, id⟩

theorem Undisturbed.withEnv (s : State) {env : Env} (henv : s.shell.env.Protects env) :
    s.Undisturbed { s with shell := { s.shell with env } } :=
  ⟨Shell.frame_of_place (s.shell.place_withEnv henv.depth), henv, rfl, id⟩

end State

-- The state that is reached is related to the one before, and no signal but a failure leaves.
def Stays {α : Type} (rel : State → State → Prop) (s : State) : EStateM.Result Signal State α → Prop
  | .ok _ t => rel s t
  | .error (.fail _) t => rel s t
  | .error _ _ => False

def Plain {α : Type} (m : Run α) : Prop := ∀ s, Stays State.Unmoved s (m s)

def Loose {α : Type} (m : Run α) : Prop := ∀ s, Stays State.Undisturbed s (m s)

section Rules

variable {α β : Type}

variable {rel : State → State → Prop} [Trans rel rel rel]

theorem Stays.trans {s t : State} {r : EStateM.Result Signal State α} (h : rel s t) (h' : Stays rel t r) :
    Stays rel s r := by
  cases r with
  | ok a u => exact Trans.trans (r := rel) (s := rel) h h'
  | error e u =>
      cases e with
      | fail f => exact Trans.trans (r := rel) (s := rel) h h'
      | _ => exact h'.elim

-- The second computation is looked at only where the first one leads.
theorem Stays.bind {m : Run α} {k : α → Run β} {s : State} (hm : Stays rel s (m s))
    (hk : ∀ a t, m s = .ok a t → Stays rel t (k a t)) : Stays rel s ((m >>= k) s) := by
  cases hr : m s with
  | ok a t =>
      rw [bind_of_ok hr]
      rw [hr] at hm
      exact Stays.trans hm (hk a t hr)
  | error e t =>
      rw [bind_of_error hr]
      rw [hr] at hm
      cases e with
      | fail f => exact hm
      | _ => exact hm.elim

@[simp] theorem Plain.bind {m : Run α} {k : α → Run β} (hm : Plain m) (hk : ∀ a, Plain (k a)) :
    Plain (m >>= k) :=
  fun s => Stays.bind (hm s) fun a t _ => hk a t

theorem Loose.bind {m : Run α} {k : α → Run β} (hm : Loose m) (hk : ∀ a, Loose (k a)) : Loose (m >>= k) :=
  fun s => Stays.bind (hm s) fun a t _ => hk a t

theorem Plain.loose {m : Run α} (hm : Plain m) : Loose m := fun s => by
  have hs := hm s
  cases hr : m s with
  | ok a t =>
      rw [hr] at hs
      exact hs.undisturbed
  | error e t =>
      rw [hr] at hs
      cases e with
      | fail f => exact hs.undisturbed
      | _ => exact hs.elim

@[simp] theorem plain_pure (a : α) : Plain (pure a : Run α) := .refl

@[simp] theorem Plain.map {m : Run α} (f : α → β) (hm : Plain m) : Plain (f <$> m) := by
  rw [← bind_pure_comp]
  exact hm.bind fun a => plain_pure (f a)

-- What is read is the shell of the state in which the rest runs.
theorem Plain.ofShell {k : Shell → Run β} (h : ∀ s : State, Stays State.Unmoved s (k s.shell s)) :
    Plain (shell >>= k) :=
  fun s => by
    rw [shell_bind]
    exact h s

theorem Loose.ofShell {k : Shell → Run β} (h : ∀ s : State, Stays State.Undisturbed s (k s.shell s)) :
    Loose (shell >>= k) :=
  fun s => by
    rw [shell_bind]
    exact h s

theorem Plain.modifyShell {f : Shell → Shell} (h : ∀ s : Shell, (f s).place = s.place ∧ (f s).env = s.env) :
    Plain (modifyShell f) :=
  fun s => ⟨(h s.shell).1, (h s.shell).2.symm ▸ .refl _, rfl, id⟩

theorem Loose.modifyShell {f : Shell → Shell} (h : ∀ s : Shell, (f s).frame = s.frame ∧ (f s).env = s.env) :
    Loose (Run.modifyShell f) :=
  fun s => ⟨(h s.shell).1, (h s.shell).2.symm ▸ .refl _, rfl, id⟩

theorem Plain.modifyEnv {f : Shell → Env} (henv : ∀ s : Shell, s.env.Respects (f s)) :
    Plain (Run.modifyShell fun s => { s with env := f s }) :=
  fun s => .withEnv s (henv s.shell)

@[simp] theorem plain_modifyWorld {f : World → World} (hmask : ∀ w, (f w).mask = w.mask)
    (hsilent : ∀ w, w.arrivals = [] → (f w).arrivals = [] := by exact fun _ h => h) : Plain (modifyWorld f) :=
  fun s => ⟨rfl, .refl _, hmask s.world, hsilent s.world⟩

@[simp] theorem plain_get : Plain (get : Run State) := .refl

@[simp] theorem plain_shell : Plain shell := .refl

@[simp] theorem plain_world : Plain world := .refl

@[simp] theorem plain_fail (f : Failure) : Plain (fail f : Run α) := .refl

@[simp] theorem plain_ite {c : Prop} [Decidable c] {m m' : Run α} (h : Plain m) (h' : Plain m') :
    Plain (if c then m else m') := by
  split <;> assumption

end Rules

-- Variables.

section Variables

section Assigned

variable {name : String} {s : State}

theorem setVar_eq (h : ∀ v, s.shell.env.get? name = some v → v.readOnly = false) (value : String) :
    setVar name value s = .ok () { s with shell := { s.shell with env := s.shell.env.assign name value } } := by
  rw [setVar, shell_bind]
  simp only [Env.set_eq h]
  rfl

theorem trySetVar_eq (h : ∀ v, s.shell.env.get? name = some v → v.readOnly = false) (value : String) :
    trySetVar name value s = .ok () { s with shell := { s.shell with env := s.shell.env.assign name value } } := by
  rw [trySetVar, shell_bind]
  simp only [Env.set_eq h]
  rfl

end Assigned

@[simp] theorem plain_setStatus (n : Int) : Plain (setStatus n) :=
  Plain.modifyShell fun _ => ⟨rfl, rfl⟩

@[simp] theorem plain_setVar (name value : String) : Plain (setVar name value) := by
  refine Plain.ofShell fun s => ?_
  cases h : s.shell.env.set name value with
  | ok env => exact .withEnv s (Env.respects_set h)
  | error f => exact .refl s

@[simp] theorem plain_trySetVar (name value : String) : Plain (trySetVar name value) := by
  refine Plain.ofShell fun s => ?_
  cases h : s.shell.env.set name value with
  | ok env => exact .withEnv s (Env.respects_set h)
  | error f => exact .refl s

-- An update of the variables that may fail after it has changed some of them.
theorem plain_updateEnv (f : Env → Env × Option Failure) (henv : ∀ e : Env, e.Respects (f e).1) :
    Plain (do
      let (env, failure) := f (← shell).env
      setEnv env
      match failure with
      | some f => fail f
      | none => return) := by
  refine Plain.ofShell fun s => ?_
  refine Stays.bind (.withEnv s (henv s.shell.env)) fun _ t _ => ?_
  cases (f s.shell.env).2 with
  | some f => exact .refl t
  | none => exact .refl t

@[simp] theorem plain_setIndex (name : String) (i : Int) (value : String) : Plain (setIndex name i value) :=
  plain_updateEnv (fun e => e.setIndex name i value) fun e => e.respects_setIndex name i value

@[simp] theorem plain_setArray (name : String) (values : List String) : Plain (setArray name values) :=
  plain_updateEnv (fun e => e.setArray name values) fun e => e.respects_setArray name values

@[simp] theorem plain_valueOf (name : String) : Plain (valueOf name) := by
  simp [valueOf]

end Variables

-- Streams.

-- The world once a text was written to a stream.
def World.receive (w : World) (to_ : Stream) (text : String) : World :=
  match Run.write to_ text { world := w } with
  | .ok _ t => t.world
  | .error _ t => t.world

section Streams

theorem write_eq (to_ : Stream) (text : String) (s : State) :
    write to_ text s = .ok () { s with world := s.world.receive to_ text } := by
  cases to_ with
  | channel i => rfl
  | null | discard => rfl

theorem print_eq (text : String) (s : State) :
    print text s = .ok () { s with world := s.world.receive s.shell.streams.output text } :=
  write_eq _ _ s

theorem complain_eq (text : String) (s : State) : complain text s =
    .ok () { s with world := s.world.receive s.shell.streams.error (s.shell.name ++ ": " ++ text ++ "\n") } :=
  write_eq _ _ s

-- Of the shell only the status is another one.
theorem complainWith_eq (status : Int) (text : String) (s : State) : complainWith status text s =
    .ok () { world := s.world.receive s.shell.streams.error (s.shell.name ++ ": " ++ text ++ "\n")
             shell := { s.shell with status } } :=
  bind_of_ok (complain_eq text s) _

@[simp] theorem plain_newChannel (c : Channel) : Plain (newChannel c) := by
  refine plain_world.bind fun w => ?_
  exact Plain.bind (plain_modifyWorld fun _ => rfl) fun _ => plain_pure _

@[simp] theorem plain_write (to_ : Stream) (text : String) : Plain (write to_ text) := by
  cases to_ with
  | channel i =>
      unfold write
      refine plain_modifyWorld (fun w => ?_) fun w h => ?_
      · split <;> rfl
      · split <;> exact h
  | null | discard => exact plain_pure ()

@[simp] theorem plain_print (text : String) : Plain (print text) := by
  simp [print]

@[simp] theorem plain_printLine (text : String) : Plain (printLine text) := plain_print _

@[simp] theorem plain_complain (text : String) : Plain (complain text) := by
  simp [complain]

@[simp] theorem plain_complainWith (status : Int) (text : String) : Plain (complainWith status text) := by
  simp [complainWith]

@[simp] theorem plain_usage (name text : String) : Plain (usage name text) := plain_complainWith _ _

@[simp] theorem plain_remaining (from_ : Stream) : Plain (remaining from_) := by
  unfold remaining
  refine plain_world.bind fun w => ?_
  split
  · split <;> simp
  · simp

@[simp] theorem plain_consume (from_ : Stream) (n : Nat) : Plain (consume from_ n) := by
  cases from_ with
  | channel i =>
      unfold consume
      refine plain_modifyWorld (fun w => ?_) fun w h => ?_
      · split <;> rfl
      · split <;> exact h
  | null | discard => exact plain_pure ()

-- A look for a signal takes one of those that are to come.
theorem plain_nextSignal : Plain nextSignal := by
  intro s
  unfold nextSignal
  rw [world_bind]
  cases harrivals : s.world.arrivals with
  | nil => exact .refl s
  | cons found later => exact ⟨rfl, .refl _, rfl, fun hnone => absurd (harrivals.symm.trans hnone) nofun⟩

@[simp] theorem plain_readLine (from_ : Stream) (delim : Char) : Plain (readLine from_ delim) := by
  simp [readLine]

@[simp] theorem plain_readChars (from_ : Stream) (n : Nat) (delim : Char) : Plain (readChars from_ n delim) := by
  refine (plain_remaining from_).bind fun rest => ?_
  dsimp only
  split <;> simp

end Streams
end Machine
end ShellScript

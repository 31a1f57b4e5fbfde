import ShellScript.Proofs.Machine.Promise

-- However a statement ends, the scopes of before are there, and what is read-only in them is still there and still
-- read-only. What it contains is lost only where it is a text and is declared to be an array.
namespace ShellScript
namespace Machine

open Program (Stmt Block Redir Assign Word)
open Run

-- The state that is reached, by a result or by a signal, is related to the one before.
def Reaches (rel : State → State → Prop) {α : Type} (m : Run α) : Prop := ∀ s, rel s (stateOf (m s))

namespace Reaches

variable {rel rel' : State → State → Prop} {α β : Type} {m : Run α}

theorem mono (hrel : ∀ s t, rel s t → rel' s t) (hm : Reaches rel m) : Reaches rel' m := fun s => hrel s _ (hm s)

theorem of_stays (h : ∀ s, Stays rel s (m s)) : Reaches rel m := by
  intro s
  have hs := h s
  cases hr : m s with
  | ok a t =>
      rw [hr] at hs
      exact hs
  | error e t =>
      rw [hr] at hs
      cases e with
      | fail f => exact hs
      | _ => exact hs.elim

theorem throw (hrefl : ∀ s, rel s s) (e : Signal) : Reaches rel (throw e : Run α) := fun s => hrefl s

theorem handled [Trans rel rel rel] {k : α → Run β} {h : Signal → Run β} (hm : Reaches rel m)
    (hk : ∀ a, Reaches rel (k a)) (hh : ∀ e, Reaches rel (h e)) : Reaches rel (handled m k h) := by
  intro s
  have hs := hm s
  cases hr : m s with
  | ok a t =>
      rw [hr] at hs
      rw [handled_of_ok hr]
      exact Trans.trans hs (hk a t)
  | error e t =>
      rw [hr] at hs
      rw [handled_of_error hr]
      exact Trans.trans hs (hh e t)

theorem bind [Trans rel rel rel] {k : α → Run β} (hrefl : ∀ s, rel s s) (hm : Reaches rel m)
    (hk : ∀ a, Reaches rel (k a)) : Reaches rel (m >>= k) := by
  have heq : m >>= k = Machine.handled m k MonadExcept.throw :=
    eq_handled (fun _ _ _ hm => bind_of_ok hm k) fun _ _ _ hm => bind_of_error hm k
  rw [heq]
  exact hm.handled hk fun e => .throw hrefl e

theorem within {change : Shell → Shell} {restore : Shell → Shell → Shell}
    (h : ∀ s t : State, rel { s with shell := change s.shell } t →
      rel' s { t with shell := restore s.shell t.shell }) (hm : Reaches rel m) :
    Reaches rel' (within change restore m) := by
  intro s
  have hs := hm { s with shell := change s.shell }
  rw [within_apply, Run.ensuring]
  cases hr : m { s with shell := change s.shell } <;> rw [hr] at hs <;> exact h s _ hs

theorem ensuring {after : State → State} (h : ∀ s t : State, rel s t → rel' s (after t)) (hm : Reaches rel m) :
    Reaches rel' (ensuring m after) := by
  intro s
  have hs := hm s
  rw [Run.ensuring]
  cases hr : m s <;> rw [hr] at hs <;> exact h s _ hs

-- A relation on states that sequencing respects, and that holds where only variables, files and settings change.
def congruence (rel : State → State → Prop) [Trans rel rel rel] (hplain : ∀ s t : State, s.Unmoved t → rel s t) :
    Congruence where
  rel m _ := Reaches rel m
  plain hm := mono hplain (of_stays hm)
  exhausted := .throw (fun s => hplain s s (.refl s)) _
  bind hm hk := hm.bind (fun s => hplain s s (.refl s)) hk
  handle hm hk hh := by
    refine hm.handled hk fun e => ?_
    rcases hh e with ⟨h, -⟩ | ⟨-, h⟩
    · rw [h]
      exact .throw (fun s => hplain s s (.refl s)) e
    · exact h

end Reaches

namespace State

-- The variables compare, and the mask may have to stay.
structure Guarded (env : Env → Env → Prop) (masked : Prop) (s t : State) : Prop where
  env : env s.shell.env t.shell.env
  mask : masked → t.world.mask = s.world.mask

variable {env : Env → Env → Prop} {masked : Prop} {s t u : State}

theorem Unmoved.guarded (h : s.Unmoved t) : s.Guarded Env.Respects masked t := ⟨h.env, fun _ => h.mask⟩

theorem Guarded.protects (h : s.Guarded Env.Respects masked t) : s.Guarded Env.Protects masked t :=
  { h with env := h.env.protects }

theorem Undisturbed.guarded (h : s.Undisturbed t) : s.Guarded Env.Protects masked t := ⟨h.env, fun _ => h.mask⟩

theorem Guarded.trans [Trans env env env] (h : s.Guarded env masked t) (h' : t.Guarded env masked u) :
    s.Guarded env masked u :=
  ⟨Trans.trans h.env h'.env, fun hm => (h'.mask hm).trans (h.mask hm)⟩

instance [Trans env env env] : Trans (Guarded env masked) (Guarded env masked) (Guarded env masked) :=
  ⟨Guarded.trans⟩

-- A variable that may be written.
theorem Guarded.modifyVar {name : String} {f : Var → Var} (hf : ∀ v, (f v).readOnly = v.readOnly)
    (h : s.shell.env.isWritable name = true) :
    s.Guarded Env.Respects masked (stateOf (modifyVar name f s)) := by
  have hold : ((s.shell.env.get? name).getD {}).readOnly = false := by
    obtain ⟨v, hv, hro⟩ := (Option.any_eq_true _ _).mp h
    rw [hv]
    simpa using hro
  exact ⟨Env.respects_put hold ((hf _).trans hold), fun _ => rfl⟩

end State

-- Variables in front of a command stand in the innermost scope.
theorem withValues_outer (values : List (String × String)) (scope : Scope) (outer : List Scope) :
    (withValues values ⟨scope, outer⟩).outer = outer := by
  induction values generalizing scope with
  | nil => rfl
  | cons x xs ih =>
      have hdeclare : ∃ s v, (Env.declareLocal ⟨scope, outer⟩ x.1) = ⟨s, outer⟩ ∧ s.lookup x.1 = some v := by
        unfold Env.declareLocal
        cases hx : scope.lookup x.1 with
        | some v => exact ⟨scope, v, rfl, hx⟩
        | none => exact ⟨_, _, rfl, (Table.lookup_insert ..).trans (if_pos rfl)⟩
      obtain ⟨s, u, hs, hu⟩ := hdeclare
      have hput (v : Var) : Env.put ⟨s, outer⟩ x.1 v = ⟨Table.insert x.1 v s, outer⟩ := by
        cases outer with
        | nil => rfl
        | cons t ts => simp [Env.put, Env.all, Env.putIn, Env.ofScopes, hu]
      rw [withValues, List.foldl_cons]
      dsimp only
      rw [hs, hput]
      exact ih _

theorem withValues_push (values : List (String × String)) (env : Env) :
    ∃ scope, withValues values env.push = ⟨scope, env.all⟩ := by
  have houter := withValues_outer values [] env.all
  cases hpush : withValues values env.push with
  | mk scope outer =>
      change withValues values ⟨[], env.all⟩ = _ at hpush
      rw [hpush] at houter
      exact ⟨scope, congrArg (Env.mk scope) houter⟩

open State in
def Congruence.expansions (masked : Prop) : Congruence :=
  Reaches.congruence (Guarded Env.Respects masked) fun _ _ h => h.guarded

open State in
def Congruence.statements (masked : Prop) : Congruence :=
  Reaches.congruence (Guarded Env.Protects masked) fun _ _ h => h.guarded.protects

section Brackets

open State

variable {masked : Prop} {α : Type} {m : Run α}

theorem Reaches.statements (h : Reaches (Guarded Env.Respects masked) m) : Reaches (Guarded Env.Protects masked) m :=
  h.mono fun _ _ => Guarded.protects

-- What a bracket that leaves the variables alone makes of it.
theorem Reaches.bracket {env : Env → Env → Prop} (hm : Reaches (Guarded env masked) m) {change : Shell → Shell}
    {restore : Shell → Shell → Shell} (hchange : ∀ s, (change s).env = s.env)
    (hrestore : ∀ s t, (restore s t).env = t.env) :
    Reaches (Guarded env masked) (Run.within change restore m) := by
  refine hm.within fun s t h => ?_
  obtain ⟨henv, hmask⟩ := h
  rw [hchange] at henv
  exact ⟨(hrestore s.shell t.shell).symm ▸ henv, hmask⟩

-- A scope that is opened and closed again.
theorem Reaches.scoped (hm : Reaches (Guarded Env.Protects masked) m) {change : Shell → Shell}
    {restore : Shell → Shell → Shell} (hopen : ∀ s, ∃ scope, (change s).env = ⟨scope, s.env.all⟩)
    (hrestore : ∀ s t, (restore s t).env = t.env.pop) :
    Reaches (Guarded Env.Protects masked) (Run.within change restore m) := by
  refine hm.within fun s t h => ⟨?_, h.mask⟩
  obtain ⟨scope, hscope⟩ := hopen s.shell
  have hkept : Env.Protects ⟨scope, s.shell.env.all⟩ t.shell.env := hscope ▸ h.env
  exact (hrestore s.shell t.shell).symm ▸ hkept.pop

theorem Reaches.catchReturn {m : Run Unit} (hm : Reaches (Guarded Env.Protects masked) m) :
    Reaches (Guarded Env.Protects masked) (Machine.catchReturn m) := by
  intro s
  have hs := hm s
  unfold Machine.catchReturn
  cases hr : m s with
  | ok a t =>
      rw [hr] at hs
      exact hs
  | error e t =>
      rw [hr] at hs
      cases e <;> exact { hs with }

theorem Reaches.turn {m : Run Unit} (hm : Reaches (Guarded Env.Protects masked) m) :
    Reaches (Guarded Env.Protects masked) (Machine.turn m) := by
  intro s
  have hs := hm s
  unfold Machine.turn
  cases hr : m s with
  | ok a t =>
      rw [hr] at hs
      exact hs
  | error e t =>
      rw [hr] at hs
      cases e with
      | loop n next =>
          dsimp only
          split <;> exact hs
      | _ => exact hs

-- Of a subshell only the world is left.
theorem Reaches.subshell (hm : Reaches (Guarded Env.Protects masked) m) (change : Streams → Streams) :
    Reaches (Guarded Env.Respects masked) (withStreams change m) := by
  rw [withStreams_eq]
  exact hm.within fun s t h => ⟨.refl _, h.mask⟩

end Brackets

namespace Guarded

open State (Guarded)

variable {masked : Prop}

-- The variable may still be written when its text is known, since an expansion makes nothing read-only.
theorem writing (local_ : Bool) (name : String) {m m' : Var → Run String}
    (hm : ∀ v, (Congruence.expansions masked).rel (m v) (m' v)) :
    (Congruence.expansions masked).rel (writing local_ name m) (Machine.writing local_ name m') := by
  intro s
  obtain ⟨v, hv, hget⟩ := target_eq local_ name s
  have htarget := (Congruence.expansions masked).plain (plain_target local_ name) s
  generalize (if local_ = true then _ else _ : Env) = env at hv hget
  rw [hv] at htarget
  unfold Machine.writing
  rw [bind_of_ok hv]
  refine State.Guarded.trans htarget ?_
  change Guarded Env.Respects masked { s with shell := { s.shell with env } } _
  cases hro : v.readOnly with
  | true => exact (State.Unmoved.refl _).guarded
  | false =>
      have hwritable : env.isWritable name = true := by simp [Env.isWritable, hget, hro]
      have htext := hm v { s with shell := { s.shell with env } }
      simp only [Bool.false_eq_true, if_false]
      cases hr : m v { s with shell := { s.shell with env } } with
      | ok value u =>
          rw [hr] at htext
          rw [bind_of_ok hr]
          refine htext.trans (State.Guarded.modifyVar (fun w => ?_) (htext.env.writable name hwritable))
          unfold Var.withText
          split <;> rfl
      | error e u =>
          rw [hr] at htext
          rw [bind_of_error hr]
          exact htext

theorem throw {α : Type} (e : Signal) : (Congruence.statements masked).rel (throw e : Run α) (throw e) :=
  Reaches.throw (fun s => (State.Unmoved.refl s).guarded.protects) e

theorem setStreams (change : Streams → Streams) :
    (Congruence.expansions masked).rel (setStreams change) (Machine.setStreams change) :=
  fun _ => ⟨.refl _, fun _ => rfl⟩

theorem tryRedirs {E E' : Engine} (h : (Congruence.expansions masked).Expands E E') (rs : List Redir)
    {m m' : Run Unit} (hm : (Congruence.statements masked).rel m m') :
    (Congruence.statements masked).rel (tryRedirs E rs m) (Machine.tryRedirs E' rs m') :=
  Congruence.tryRedirs (Reaches.statements (Agreement.applyRedirs setStreams h rs)) hm

theorem redirectedOr {E E' : Engine} (h : (Congruence.expansions masked).Expands E E') (rs : List Redir)
    {onFail onFail' : Failure → Run Unit} (hfail : ∀ f, (Congruence.statements masked).rel (onFail f) (onFail' f))
    {m m' : Run Unit} (hm : (Congruence.statements masked).rel m m') :
    (Congruence.statements masked).rel (redirectedOr onFail E rs m) (Machine.redirectedOr onFail' E' rs m') :=
  Agreement.redirectedOr hfail (Reaches.statements (Agreement.applyRedirs setStreams h rs)) hm
    fun _ _ _ h => Reaches.ensuring (fun _ _ hst => { hst with }) h

end Guarded

def Discipline.guarded (masked : Prop) : Discipline where
  quiet := .expansions masked
  flow := .statements masked
  loop := .statements masked
  inner := .statements masked
  flow_of_quiet h := Reaches.statements h
  loop_of_quiet h := Reaches.statements h
  loose h := (Reaches.of_stays h).mono fun _ _ => State.Undisturbed.guarded
  exit _ := Guarded.throw _
  return_ := Congruence.return_ fun _ => Guarded.throw _
  leaveLoop name _ := Congruence.leaveLoop name fun _ =>
    Agreement.bind _ (Congruence.plain _ (plain_setStatus 0)) fun _ => Guarded.throw _
  absorb {_ _ _ _ _ _ h _} hm hk hh hstopped _ := Reaches.handled hm hk fun e => by
    rcases e.stopped_or with ⟨why, rfl⟩ | he
    · rw [hstopped]
      exact Guarded.throw _
    · exact hh e he
  condition h := Reaches.bracket h (fun _ => rfl) fun _ _ => rfl
  unit h := (Reaches.catchReturn h).bracket (fun _ => rfl) fun _ _ => rfl
  call _ _ _ h := (Reaches.catchReturn h).scoped (fun _ => ⟨[], rfl⟩) fun _ _ => rfl
  params _ _ _ h := Reaches.bracket h (fun _ => rfl) fun _ _ => rfl
  scope values _ _ h :=
    Reaches.scoped h (fun s => withValues_push values s.env) fun _ _ => rfl
  write := Guarded.writing
  subshell change _ _ h := Reaches.subshell h change
  inLoop h := Reaches.bracket h (fun _ => rfl) fun _ _ => rfl
  turn h := Reaches.turn h
  redirectedOr h rs hfail hm := Guarded.redirectedOr h rs hfail hm

-- What the mask is set to is of no account where it need not stay.
theorem Discipline.admits_guarded : (Discipline.guarded False).Admits :=
  ⟨fun _ _ => ⟨.refl _, False.elim⟩, Guarded.throw _⟩

theorem engine_guarded (program : Program) (compiles : Bool) (rounds depth : Nat) :
    (Discipline.guarded False).Follows (engine program compiles rounds depth)
      (engine program compiles rounds depth) := by
  rw [← Variant.engine_real]
  refine Discipline.follows Discipline.admits_guarded (fun h redirs => ?_) (fun h cond => ?_)
    program compiles rounds depth
  · exact Guarded.tryRedirs h.expands redirs (Congruence.plain _ (plain_setStatus 0))
  · exact (Discipline.guarded False).condition (Discipline.runBlock h cond)

-- A global that is read-only never goes away and never ceases to be read-only, whatever runs and however it ends. Its
-- content changes in one way only: declaring a text to be an array forgets it, or makes it the only element.
theorem stmt_keeps_readOnly (program : Program) (compiles : Bool) (rounds depth : Nat) (st : Stmt) (s : State)
    (name : String) (v : Var) (hv : s.shell.env.globals.lookup name = some v) (hro : v.readOnly = true) :
    ∃ w, (stateOf ((engine program compiles rounds depth).stmt st s)).shell.env.globals.lookup name = some w ∧
      w.readOnly = true ∧
      ((w.value = v.value ∧ w.list = v.list ∧ w.array = v.array) ∨
        (v.array = false ∧ w.array = true ∧ w.value = "" ∧ (w.list = [] ∨ w.list = [v.value]))) := by
  have hkept := ((engine_guarded program compiles rounds depth).stmt st s).env.globals
  obtain ⟨w, hw, hfixed⟩ := hkept name v hv hro
  exact ⟨w, hw, hfixed.readOnly, hfixed.content⟩

-- `x=2`, where `x` is read-only.
theorem assign_keeps_readOnly :
    let program : Program := { name := "", main := default }
    let v : Var := { value := "1", readOnly := true }
    let s : State := { shell := { env := ⟨[("x", v)], []⟩ } }
    let st : Stmt := .call {} [⟨"x", none, false, some ⟨[.lit "2" false]⟩, none⟩] [] [] none none
    ∃ w, (stateOf ((engine program false 1 5).stmt st s)).shell.env.globals.lookup "x" = some w ∧
      w.readOnly = true ∧
      ((w.value = v.value ∧ w.list = v.list ∧ w.array = v.array) ∨
        (v.array = false ∧ w.array = true ∧ w.value = "" ∧ (w.list = [] ∨ w.list = [v.value]))) :=
  stmt_keeps_readOnly _ false 1 5 _ _ "x" _ rfl rfl

-- `declare -a x`, where `x` is read-only.
theorem declare_array_empties_readOnly :
    let program : Program := { name := "", main := default }
    let v : Var := { value := "1", readOnly := true }
    let s : State := { shell := { env := ⟨[("x", v)], []⟩ } }
    let st : Stmt := .decl {} .declare [⟨[.lit "-a" false]⟩] [⟨"x", none, false, none, none⟩] []
    (stateOf ((engine program false 1 5).stmt st s)).shell.env.globals.lookup "x" =
      some { v with value := "", array := true } := by
  decide +kernel

end Machine
end ShellScript

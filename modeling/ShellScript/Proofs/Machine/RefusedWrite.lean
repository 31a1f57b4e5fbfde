import ShellScript.Proofs.Machine.Env

-- Writes that are refused. A write looks at no more than the variable that it sees under its name; what it does to that one
-- is said here once. A refused write changes nothing, unless it has made an array of something that was none.
namespace ShellScript
namespace Machine

theorem Table.insert_self {α : Type} {name : String} {v : α} {t : Table α} (h : t.lookup name = some v) :
    Table.insert name v t = t := by
  induction t with
  | nil => cases h
  | cons e rest ih =>
      obtain ⟨k, w⟩ := e
      rw [Table.insert]
      by_cases hk : k = name
      · rw [List.lookup_cons, hk, beq_self_eq_true] at h
        rw [if_pos (by simp [hk]), hk, Option.some.inj h]
      · rw [List.lookup_cons, beq_false_of_ne (Ne.symm hk)] at h
        rw [if_neg (by simp [hk]), ih h]

theorem Table.insert_insert {α : Type} (name : String) (v w : α) (t : Table α) :
    Table.insert name w (Table.insert name v t) = Table.insert name w t := by
  induction t with
  | nil => simp [Table.insert]
  | cons e rest ih =>
      obtain ⟨k, u⟩ := e
      by_cases hk : k = name
      · simp [Table.insert, hk]
      · simp [Table.insert, hk, ih]

-- The variable as an array of the values that it has.
def Var.asArray (v : Var) : Var := if v.array then v else { v with array := true, list := [v.value], value := "" }

theorem Var.asArray_of_array {v : Var} (h : v.array = true) : v.asArray = v := if_pos h

theorem Var.array_asArray (v : Var) : v.asArray.array = true := by
  unfold asArray
  split
  · assumption
  · rfl

theorem Var.asArray_eq_self_iff {v : Var} : v.asArray = v ↔ v.array = true :=
  ⟨fun h => h ▸ v.array_asArray, asArray_of_array⟩

theorem Var.values_asArray (v : Var) : v.asArray.values = v.values := by
  unfold asArray
  split
  · rfl
  · rename_i h
    simp [values, h]

namespace Env

theorem ofScopes_all (e : Env) : ofScopes e.all = e := rfl

-- What is there already may be put in its place again.
theorem put_self {e : Env} {name : String} {v : Var} (h : e.get? name = some v) : e.put name v = e := by
  have hsame : ∀ ss : List Scope, findIn name ss = some v → putIn name v ss = ss := by
    intro ss
    induction ss with
    | nil => exact nofun
    | cons s ss ih =>
        intro hfind
        rw [findIn] at hfind
        cases hs : s.lookup name with
        | some w =>
            rw [hs] at hfind
            obtain rfl := Option.some.inj hfind
            cases ss with
            | nil => rw [putIn, Table.insert_self hs]
            | cons t ts => simp only [putIn, hs, Option.isSome_some, if_true, Table.insert_self hs]
        | none =>
            rw [hs] at hfind
            cases ss with
            | nil => cases hfind
            | cons t ts =>
                simp only [putIn, hs, Option.isSome_none, Bool.false_eq_true, if_false]
                rw [ih hfind]
  rw [put, hsame e.all h, ofScopes_all]

theorem put_eq_self_iff {e : Env} {name : String} {v : Var} : e.put name v = e ↔ e.get? name = some v := by
  refine ⟨fun h => ?_, put_self⟩
  rw [← h, get?_put, if_pos rfl]

-- Of two values the later one counts.
theorem put_put (e : Env) (name : String) (v w : Var) : (e.put name v).put name w = e.put name w := by
  have htwice : ∀ ss : List Scope, putIn name w (putIn name v ss) = putIn name w ss := by
    intro ss
    induction ss with
    | nil => rfl
    | cons s ss ih =>
        cases ss with
        | nil => simp only [putIn, Table.insert_insert]
        | cons t ts =>
            cases hs : s.lookup name with
            | some u => simp only [putIn, hs, Option.isSome_some, if_true, Table.lookup_insert, Table.insert_insert]
            | none =>
                cases hp : putIn name v (t :: ts) with
                | nil => exact absurd hp (putIn_ne_nil name v t ts)
                | cons t' ts' =>
                    rw [hp] at ih
                    simp only [putIn, hs, Option.isSome_none, Bool.false_eq_true, if_false, hp, ih]
  rw [put, all_put, htwice]
  rfl

end Env

-- A write to a variable.
inductive Write where
  | set (value : String)
  | setIndex (i : Int) (value : String)
  | setArray (values : List String)
  | unset

-- What becomes of the variable that is seen.
inductive Edit where
  | keep
  | put (v : Var)
  | erase

def Edit.on (name : String) (e : Env) : Edit → Env
  | .keep => e
  | .put v => e.put name v
  | .erase => Env.ofScopes (Env.eraseIn name e.all)

namespace Write

-- A plain assignment and `unset` leave the variables alone when they are refused.
def apply (name : String) (e : Env) : Write → Env × Option Failure
  | .set value =>
    match e.set name value with
    | .ok e' => (e', none)
    | .error f => (e, some f)
  | .setIndex i value => e.setIndex name i value
  | .setArray values => e.setArray name values
  | .unset =>
    match e.unset name with
    | .ok e' => (e', none)
    | .error f => (e, some f)

-- The place of an element, counted from the end if it is negative.
def place (i : Int) (v : Var) : Int := if i < 0 then i + v.values.length else i

-- What a write does to the variable that it sees, and why it is refused.
def outcome (name : String) : Write → Option Var → Edit × Option Failure
  | .set value, none => (.put { value }, none)
  | .set value, some v =>
    if v.readOnly then (.keep, some (.readOnly name))
    else (.put { v with value, list := [], array := false }, none)
  | .setIndex i value, seen =>
    let v := seen.getD { array := true }
    if v.readOnly then (.keep, some (.readOnly name))
    else if place i v < 0 then (.put v.asArray, some (.badIndex name (place i v)))
    else (.put { v.asArray with list := Env.setAt (place i v).toNat value v.asArray.list }, none)
  | .setArray values, seen =>
    let v := seen.getD {}
    if v.readOnly then (.keep, some (.readOnly name))
    else (.put { v with array := true, list := values, value := "" }, none)
  | .unset, none => (.keep, none)
  | .unset, some v => if v.readOnly then (.keep, some (.readOnly name)) else (.erase, none)

-- `setIndex` makes an array of what it finds before it looks at the index.
def converts : Write → Option Var → Bool
  | .setIndex _ _, none => true
  | .setIndex _ _, some v => !v.readOnly && !v.array
  | _, _ => false

theorem length_list_asArray (v : Var) : v.asArray.list.length = v.values.length := by
  rw [← v.values_asArray, Var.values, if_pos v.array_asArray]

theorem place_asArray (i : Int) (v : Var) : (if i < 0 then i + v.asArray.list.length else i) = place i v := by
  rw [length_list_asArray, place]

section

variable (name : String) (e : Env)

-- A write that begins with a new variable if there is none.
theorem begin_with (d : Var) : ∃ e', (if (e.get? name).isSome then e else e.put name d) = e' ∧
    (e'.get? name).getD {} = (e.get? name).getD d ∧ (∀ w, e'.put name w = e.put name w) ∧
    ((e.get? name).isSome = true → e' = e) := by
  cases hget : e.get? name with
  | some v => exact ⟨e, rfl, by rw [hget]; rfl, fun _ => rfl, fun _ => rfl⟩
  | none =>
      refine ⟨e.put name d, rfl, ?_, e.put_put name _, nofun⟩
      rw [Env.get?_put, if_pos rfl]
      rfl

theorem isSome_of_readOnly {d : Var} (hd : d.readOnly = false)
    (h : ((e.get? name).getD d).readOnly = true) : (e.get? name).isSome = true := by
  cases hget : e.get? name with
  | some v => rfl
  | none =>
      rw [hget, Option.getD_none, hd] at h
      cases h

theorem setIndex_eq (i : Int) (value : String) :
    e.setIndex name i value = ((outcome name (.setIndex i value) (e.get? name)).1.on name e,
      (outcome name (.setIndex i value) (e.get? name)).2) := by
  obtain ⟨e', he, hvar, hput, hsame⟩ := begin_with name e { array := true }
  have hro := hsame ∘ isSome_of_readOnly name e (d := { array := true }) rfl
  unfold Env.setIndex outcome
  dsimp only
  rw [he, hvar]
  generalize (e.get? name).getD { array := true } = v at hro ⊢
  rw [← Var.asArray, place_asArray, hput, hput]
  split
  · rename_i h
    rw [hro h]
    rfl
  · split <;> rfl

theorem setArray_eq (values : List String) :
    e.setArray name values = ((outcome name (.setArray values) (e.get? name)).1.on name e,
      (outcome name (.setArray values) (e.get? name)).2) := by
  obtain ⟨e', he, hvar, hput, hsame⟩ := begin_with name e {}
  have hro := hsame ∘ isSome_of_readOnly name e (d := {}) rfl
  unfold Env.setArray outcome
  dsimp only
  rw [he, hvar, hput]
  generalize (e.get? name).getD {} = v at hro ⊢
  split
  · rename_i h
    rw [hro h]
    rfl
  · rfl

-- A write depends on the variable that it sees, and on nothing else.
theorem apply_eq (w : Write) :
    w.apply name e = ((w.outcome name (e.get? name)).1.on name e, (w.outcome name (e.get? name)).2) := by
  cases w with
  | setIndex i value => exact setIndex_eq name e i value
  | setArray values => exact setArray_eq name e values
  | set value =>
      unfold apply Env.set
      cases e.get? name with
      | none => rfl
      | some v => cases hro : v.readOnly <;> simp [outcome, hro, Edit.on]
  | unset =>
      unfold apply Env.unset
      cases e.get? name with
      | none => rfl
      | some v => cases hro : v.readOnly <;> simp [outcome, hro, Edit.on]

end

-- Only `unset` takes a variable away.
theorem outcome_ne_erase {w : Write} (h : w ≠ .unset) (name : String) (seen : Option Var) :
    (w.outcome name seen).1 ≠ .erase := by
  cases w with
  | set value =>
      cases seen with
      | none => exact nofun
      | some v => cases hro : v.readOnly <;> simp [outcome, hro]
  | setIndex i value =>
      unfold outcome
      dsimp only
      repeat' split
      all_goals exact nofun
  | setArray values =>
      unfold outcome
      dsimp only
      split <;> exact nofun
  | unset => exact absurd rfl h

theorem outcome_of_readOnly (name : String) (w : Write) {v : Var} (h : v.readOnly = true) :
    w.outcome name (some v) = (.keep, some (.readOnly name)) := by
  cases w <;> simp [outcome, h]

-- Of a variable that may be written only an index is refused, and the array has been made by then.
theorem outcome_of_badIndex {name : String} {w : Write} {seen : Option Var} {f : Failure}
    (hwritable : seen.all (!·.readOnly) = true) (h : (w.outcome name seen).2 = some f) :
    (w.outcome name seen).1 = .put (seen.getD { array := true }).asArray ∧ ∃ i value, w = .setIndex i value := by
  cases w with
  | setIndex i value =>
      have hro : (seen.getD { array := true }).readOnly = false := by
        cases seen with
        | none => rfl
        | some v => simpa using hwritable
      refine ⟨?_, i, value, rfl⟩
      unfold outcome at h ⊢
      simp only [hro, Bool.false_eq_true, if_false] at h ⊢
      split at h
      · rw [if_pos ‹_›]
      · cases h
  | set value => cases seen <;> simp_all [outcome]
  | setArray values => cases seen <;> simp_all [outcome]
  | unset => cases seen <;> simp_all [outcome]

theorem converts_setIndex {i : Int} {value : String} {seen : Option Var} (h : seen.all (!·.readOnly) = true) :
    (setIndex i value).converts seen = false ↔ seen = some (seen.getD { array := true }).asArray := by
  cases seen with
  | none => simp [converts]
  | some v =>
      have hro : v.readOnly = false := by simpa using h
      simp [converts, hro, eq_comm (a := v), Var.asArray_eq_self_iff]

theorem converts_of_readOnly (w : Write) {v : Var} (h : v.readOnly = true) : w.converts (some v) = false := by
  cases w <;> simp [converts, h]

-- After a refused write everything is as before, unless an element was to be set of something that is no array: then
-- there is an array of the text that was there, or an empty one.
theorem apply_of_refused {name : String} {e : Env} {w : Write} {f : Failure} (h : (w.apply name e).2 = some f) :
    ((w.apply name e).1 = e ↔ w.converts (e.get? name) = false) ∧ (w.converts (e.get? name) = true →
      (w.apply name e).1 = e.put name ((e.get? name).getD { array := true }).asArray) := by
  rw [apply_eq] at h ⊢
  by_cases hwritable : (e.get? name).all (!·.readOnly) = true
  · obtain ⟨hedit, i, value, rfl⟩ := outcome_of_badIndex hwritable h
    rw [converts_setIndex hwritable, hedit, Edit.on]
    exact ⟨Env.put_eq_self_iff, fun _ => rfl⟩
  · obtain ⟨v, hv, hro⟩ : ∃ v, e.get? name = some v ∧ v.readOnly = true := by
      simpa [Option.all_eq_true] using hwritable
    rw [hv, outcome_of_readOnly name w hro, converts_of_readOnly w hro]
    exact ⟨iff_of_true rfl rfl, nofun⟩

theorem apply_of_refused_index : ((setIndex (-2) "v").apply "x" { scope := [("x", { value := "1" })] }).1 =
    { scope := [("x", { list := ["1"], array := true })] } := by
  have h : ((setIndex (-2) "v").apply "x" { scope := [("x", { value := "1" })] }).2 = some (.badIndex "x" (-1)) := by
    decide
  exact (apply_of_refused h).2 rfl

-- The index is refused, and the variable is there all the same.
theorem refused_index_leaves_array : ((setIndex (-1) "v").apply "x" ({} : Env)).2 = some (.badIndex "x" (-1)) ∧
    ({} : Env).get? "x" = none ∧ ((setIndex (-1) "v").apply "x" ({} : Env)).1.get? "x" = some { array := true } := by
  decide

end Write
end Machine
end ShellScript

import Mathlib.Data.List.Forall2
import ShellScript.Machine.Variable

-- Reading variables after they were written.
namespace ShellScript
namespace Machine

theorem Table.lookup_insert {α : Type} (name n : String) (v : α) (t : Table α) :
    (Table.insert name v t).lookup n = if n = name then some v else t.lookup n := by
  induction t with
  | nil =>
      by_cases hn : n = name
      · simp [Table.insert, hn]
      · simp [Table.insert, hn]
  | cons e rest ih =>
      obtain ⟨k, w⟩ := e
      by_cases hk : k = name
      · subst hk
        by_cases hn : n = k
        · simp [Table.insert, hn]
        · simp [Table.insert, hn, List.lookup_cons, beq_false_of_ne hn]
      · by_cases hn : n = k
        · subst hn
          simp [Table.insert, hk]
        · simp [Table.insert, hk, List.lookup_cons, beq_false_of_ne hn, ih]

namespace Env

theorem findIn_putIn (name n : String) (v : Var) {ss : List Scope} (hss : ss ≠ []) :
    findIn n (putIn name v ss) = if n = name then some v else findIn n ss := by
  induction ss with
  | nil => exact absurd rfl hss
  | cons s ss ih =>
      cases ss with
      | nil =>
          simp only [putIn, findIn, Table.lookup_insert]
          by_cases hn : n = name <;> simp [hn]
      | cons s' ss =>
          simp only [putIn]
          split
          · rename_i hs
            by_cases hn : n = name
            · simp [findIn, Table.lookup_insert, hn]
            · simp [findIn, Table.lookup_insert, hn]
          · rename_i hs
            have hnone : s.lookup name = none := Option.not_isSome_iff_eq_none.mp hs
            rw [findIn, ih (by simp)]
            by_cases hn : n = name
            · simp [hn, hnone]
            · simp [hn, findIn]

theorem get?_put (e : Env) (name n : String) (v : Var) :
    (e.put name v).get? n = if n = name then some v else e.get? n := by
  have hall : (e.put name v).all = putIn name v e.all := by
    have hne : putIn name v e.all ≠ [] := by
      rw [all]
      cases e.outer with
      | nil => simp [putIn]
      | cons s ss =>
          simp only [putIn]
          split <;> simp
    rw [put]
    cases hp : putIn name v e.all with
    | nil => exact absurd hp hne
    | cons s ss => rfl
  rw [get?, hall, findIn_putIn name n v (by simp [all])]
  rfl

theorem get?_declare (e : Env) (name n : String) :
    (e.declare name).get? n = if n = name then some ((e.get? name).getD {}) else e.get? n := by
  unfold declare
  cases hv : e.get? name with
  | none =>
      rw [if_neg (by simp), get?_put]
      rfl
  | some v =>
      rw [if_pos (by simp)]
      by_cases hn : n = name
      · simp [hn, hv]
      · simp [hn]

-- The variables after an assignment.
def assign (e : Env) (name value : String) : Env :=
  e.put name { (e.get? name).getD {} with value := value, list := [], array := false }

variable {e : Env} {name n value : String}

theorem set_eq (h : ∀ v, e.get? name = some v → v.readOnly = false) : e.set name value = .ok (e.assign name value) := by
  unfold set assign
  cases hseen : e.get? name with
  | none => rfl
  | some v => simp [h v hseen]

theorem value?_assign : (e.assign name value).value? n = if n = name then some value else e.value? n := by
  rw [value?, assign, get?_put]
  split
  · rfl
  · rfl

theorem not_readOnly_assign (h : ∀ v, e.get? n = some v → v.readOnly = false) :
    ∀ v, (e.assign name value).get? n = some v → v.readOnly = false := by
  intro v hv
  rw [assign, get?_put] at hv
  split at hv
  · rename_i hn
    subst hn
    rw [← Option.some.inj hv]
    cases hseen : e.get? n with
    | none => rfl
    | some w => exact h w hseen
  · exact h v hv

end Env
end Machine
end ShellScript

-- The scopes under everything that changes variables: each stays where it is, and what is read-only in it stays what it
-- is, unless it is a text and is declared to be an array.
namespace ShellScript
namespace Machine

theorem Table.lookup_erase {α : Type} (name n : String) (t : Table α) :
    (Table.erase name t).lookup n = if n = name then none else t.lookup n := by
  induction t with
  | nil => simp [Table.erase]
  | cons e rest ih =>
      obtain ⟨k, w⟩ := e
      rw [Table.erase] at ih ⊢
      by_cases hk : k = name
      · rw [List.filter_cons_of_neg (by simp [hk]), ih]
        by_cases hn : n = name
        · simp [hn]
        · simp [hn, List.lookup_cons, beq_false_of_ne (hk ▸ hn)]
      · rw [List.filter_cons_of_pos (by simp [hk]), List.lookup_cons, List.lookup_cons, ih]
        by_cases hn : n = k
        · simp [hn, hk]
        · simp [beq_false_of_ne hn]

-- What a variable that is read-only may become: the same, or, of a text, an array of that text or of nothing.
structure Var.Fixed (v w : Var) : Prop where
  readOnly : w.readOnly = true
  content : (w.value = v.value ∧ w.list = v.list ∧ w.array = v.array) ∨
    (v.array = false ∧ w.array = true ∧ w.value = "" ∧ (w.list = [] ∨ w.list = [v.value]))

theorem Var.Fixed.refl {v : Var} (h : v.readOnly = true) : v.Fixed v := ⟨h, .inl ⟨rfl, rfl, rfl⟩⟩

theorem Var.Fixed.trans {u v w : Var} (h : u.Fixed v) (h' : v.Fixed w) : u.Fixed w := by
  refine ⟨h'.readOnly, ?_⟩
  rcases h'.content with ⟨hvalue, hlist, harray⟩ | ⟨htext, hrest⟩
  · rw [hvalue, hlist, harray]
    exact h.content
  · rcases h.content with ⟨hvalue, -, harray⟩ | ⟨-, harray, -⟩
    · rw [hvalue] at hrest
      exact .inr ⟨harray ▸ htext, hrest⟩
    · rw [harray] at htext
      cases htext

-- The scope is still there: no variable in it that is read-only is lost or changed.
def Scope.Kept (s s' : Scope) : Prop :=
  ∀ name v, s.lookup name = some v → v.readOnly = true → ∃ w, s'.lookup name = some w ∧ v.Fixed w

namespace Scope

theorem Kept.refl (s : Scope) : Kept s s := fun _ v hv hro => ⟨v, hv, .refl hro⟩

theorem Kept.trans {s t u : Scope} (h : Kept s t) (h' : Kept t u) : Kept s u := by
  intro name v hv hro
  obtain ⟨w, hw, hfixed⟩ := h name v hv hro
  obtain ⟨x, hx, hfixed'⟩ := h' name w hw hfixed.readOnly
  exact ⟨x, hx, hfixed.trans hfixed'⟩

-- What is put in the place of a variable that is read-only has to be what that one may become.
theorem kept_insert {s : Scope} {name : String} {v : Var}
    (h : ∀ u, s.lookup name = some u → u.readOnly = true → u.Fixed v) : Kept s (Table.insert name v s) := by
  intro n u hu hro
  rw [Table.lookup_insert]
  by_cases hn : n = name
  · subst hn
    exact ⟨v, if_pos rfl, h u hu hro⟩
  · exact ⟨u, (if_neg hn).trans hu, .refl hro⟩

theorem kept_erase {s : Scope} {name : String} (h : ∀ u, s.lookup name = some u → u.readOnly = false) :
    Kept s (Table.erase name s) := by
  intro n u hu hro
  have hn : n ≠ name := by
    rintro rfl
    exact Bool.false_ne_true ((h u hu).symm.trans hro)
  exact ⟨u, by rwa [Table.lookup_erase, if_neg hn], .refl hro⟩

end Scope

open List (Forall₂)

theorem kept_all (ss : List Scope) : Forall₂ Scope.Kept ss ss := List.forall₂_same.mpr fun s _ => .refl s

namespace Env

def outermost (s : Scope) : List Scope → Scope
  | [] => s
  | t :: ts => outermost t ts

def globals (e : Env) : Scope := outermost e.scope e.outer

-- The variable is there, and an assignment may change it.
def isWritable (e : Env) (name : String) : Bool := (e.get? name).any fun v => !v.readOnly

-- The same scopes in the same order.
def Protects (e e' : Env) : Prop := Forall₂ Scope.Kept e.all e'.all

structure Respects (e e' : Env) : Prop where
  protects : e.Protects e'
  -- what could be assigned to still can
  writable : ∀ name, e.isWritable name = true → e'.isWritable name = true

theorem Protects.refl (e : Env) : e.Protects e := kept_all e.all

theorem Protects.trans {e e' e'' : Env} (h : e.Protects e') (h' : e'.Protects e'') : e.Protects e'' := by
  unfold Protects at h h' ⊢
  generalize e.all = ss, e'.all = ts, e''.all = us at h h' ⊢
  induction h generalizing us with
  | nil => exact h'
  | cons hs _ ih =>
      cases h' with
      | cons ht hrest => exact .cons (hs.trans ht) (ih _ hrest)

theorem Protects.depth {e e' : Env} (h : e.Protects e') : e'.depth = e.depth :=
  Nat.succ.inj h.length_eq.symm

theorem Protects.globals {e e' : Env} (h : e.Protects e') : Scope.Kept e.globals e'.globals := by
  obtain ⟨s, ss⟩ := e
  obtain ⟨t, ts⟩ := e'
  have hlast : ∀ {ss ts : List Scope} {s t : Scope}, Forall₂ Scope.Kept (s :: ss) (t :: ts) →
      Scope.Kept (outermost s ss) (outermost t ts) := by
    intro ss
    induction ss with
    | nil =>
        intro ts s t h
        cases h with
        | cons hs hrest =>
            cases hrest
            exact hs
    | cons s' ss ih =>
        intro ts s t h
        cases h with
        | cons _ hrest =>
            cases hrest with
            | cons hs hrest =>
                have hnext := ih (.cons hs hrest)
                exact hnext
  exact hlast h

-- A scope that was opened goes, and those under it stay.
theorem Protects.pop {scope : Scope} {e e' : Env} (h : Protects ⟨scope, e.all⟩ e') : e.Protects e'.pop := by
  obtain ⟨t, ts⟩ := e'
  cases h with
  | cons _ hrest =>
      cases ts with
      | nil => cases hrest
      | cons u us => exact hrest

theorem Respects.refl (e : Env) : e.Respects e := ⟨.refl e, fun _ h => h⟩

theorem Respects.trans {e e' e'' : Env} (h : e.Respects e') (h' : e'.Respects e'') : e.Respects e'' :=
  ⟨h.protects.trans h'.protects, fun name hname => h'.writable name (h.writable name hname)⟩

instance : Trans Protects Protects Protects := ⟨Protects.trans⟩

instance : Trans Respects Respects Respects := ⟨Respects.trans⟩

-- Scopes.

theorem all_ofScopes {ss : List Scope} (h : ss ≠ []) : (ofScopes ss).all = ss := by
  cases ss with
  | nil => exact absurd rfl h
  | cons s ss => rfl

theorem putIn_ne_nil (name : String) (v : Var) (s : Scope) (ss : List Scope) : putIn name v (s :: ss) ≠ [] := by
  cases ss with
  | nil => exact List.cons_ne_nil _ _
  | cons t ts =>
      simp only [putIn]
      split <;> exact List.cons_ne_nil _ _

theorem all_put (e : Env) (name : String) (v : Var) : (e.put name v).all = putIn name v e.all :=
  all_ofScopes (putIn_ne_nil name v e.scope e.outer)

theorem eraseIn_ne_nil (name : String) (s : Scope) (ss : List Scope) : eraseIn name (s :: ss) ≠ [] := by
  rw [eraseIn]
  split <;> exact List.cons_ne_nil _ _

-- Only the variable that is seen is replaced.
theorem kept_putIn {name : String} {v : Var} (ss : List Scope)
    (h : ∀ u, findIn name ss = some u → u.readOnly = true → u.Fixed v) : Forall₂ Scope.Kept ss (putIn name v ss) := by
  induction ss with
  | nil => exact .nil
  | cons s ss ih =>
      have hhere (u : Var) (hu : s.lookup name = some u) (hro : u.readOnly = true) : u.Fixed v :=
        h u (by rw [findIn, hu]) hro
      cases ss with
      | nil => exact .cons (Scope.kept_insert hhere) .nil
      | cons t ts =>
          simp only [putIn]
          split
          · exact .cons (Scope.kept_insert hhere) (kept_all _)
          · rename_i hs
            have hnone : s.lookup name = none := Option.not_isSome_iff_eq_none.mp hs
            exact .cons (.refl s) (ih fun u hu => h u (by rw [findIn, hnone, hu]))

theorem kept_eraseIn {name : String} (ss : List Scope)
    (h : ∀ u, findIn name ss = some u → u.readOnly = false) : Forall₂ Scope.Kept ss (eraseIn name ss) := by
  induction ss with
  | nil => exact .nil
  | cons s ss ih =>
      simp only [eraseIn]
      split
      · exact .cons (Scope.kept_erase fun u hu => h u (by rw [findIn, hu])) (kept_all _)
      · rename_i hs
        have hnone : s.lookup name = none := Option.not_isSome_iff_eq_none.mp hs
        exact .cons (.refl s) (ih fun u hu => h u (by rw [findIn, hnone, hu]))

-- Updates.

theorem protects_put {e : Env} {name : String} {v : Var}
    (h : ∀ u, e.get? name = some u → u.readOnly = true → u.Fixed v) : e.Protects (e.put name v) := by
  rw [Protects, all_put]
  exact kept_putIn e.all h

theorem isWritable_put {e : Env} {name : String} {v : Var} (h : v.readOnly = false) :
    (e.put name v).isWritable name = true := by
  simp [isWritable, get?_put, h]

-- A variable that may be changed, or that is not there yet.
theorem respects_put {e : Env} {name : String} {v : Var} (hold : ((e.get? name).getD {}).readOnly = false)
    (hv : v.readOnly = false) : e.Respects (e.put name v) := by
  refine ⟨protects_put fun u hu hro => ?_, fun n hn => ?_⟩
  · rw [hu, Option.getD_some, hro] at hold
    cases hold
  · by_cases hname : n = name
    · exact hname ▸ isWritable_put hv
    · rw [isWritable, get?_put, if_neg hname]
      exact hn

theorem respects_put_of_none {e : Env} {name : String} {v : Var} (hold : e.get? name = none)
    (hv : v.readOnly = false) : e.Respects (e.put name v) :=
  respects_put (by rw [hold]; rfl) hv

theorem respects_declare (e : Env) (name : String) : e.Respects (e.declare name) := by
  unfold declare
  cases h : e.get? name with
  | some v => exact .refl e
  | none => exact respects_put_of_none h rfl

theorem get?_declareLocal (e : Env) (name n : String) : (e.declareLocal name).get? n =
    if n = name then some ((e.scope.lookup name).getD { exported := ((e.get? name).map (·.exported)).getD false })
    else e.get? n := by
  unfold declareLocal
  cases hv : e.scope.lookup name with
  | some v =>
      by_cases hn : n = name
      · simp [hn, get?, all, findIn, hv]
      · simp [hn]
  | none =>
      by_cases hn : n = name
      · simp [hn, get?, all, findIn, Table.lookup_insert]
      · simp [hn, get?, all, findIn, Table.lookup_insert]

theorem protects_declareLocal (e : Env) (name : String) : e.Protects (e.declareLocal name) := by
  unfold declareLocal
  cases hv : e.scope.lookup name with
  | some v => exact .refl e
  | none => exact .cons (Scope.kept_insert fun u hu => absurd (hv.symm.trans hu) nofun) (kept_all e.outer)

theorem respects_declareLocal (e : Env) (name : String) : e.Respects (e.declareLocal name) := by
  refine ⟨e.protects_declareLocal name, fun n hn => ?_⟩
  rw [isWritable, get?_declareLocal]
  by_cases hname : n = name
  · subst hname
    cases hv : e.scope.lookup n with
    | none => simp
    | some v =>
        have hget : e.get? n = some v := by
          simp [get?, all, findIn, hv]
        rw [isWritable, hget] at hn
        simpa using hn
  · rw [if_neg hname]
    exact hn

theorem respects_set {e e' : Env} {name value : String} (h : e.set name value = .ok e') : e.Respects e' := by
  unfold set at h
  cases hv : e.get? name with
  | none =>
      rw [hv] at h
      cases h
      exact respects_put_of_none hv rfl
  | some v =>
      rw [hv] at h
      cases hro : v.readOnly with
      | true => simp [hro] at h
      | false =>
          simp only [hro, Bool.false_eq_true, if_false] at h
          cases h
          exact respects_put (by rw [hv]; exact hro) rfl

theorem respects_setIndex (e : Env) (name : String) (i : Int) (value : String) :
    e.Respects (e.setIndex name i value).1 := by
  have hthere : e.Respects (if (e.get? name).isSome then e else e.put name { array := true }) := by
    cases h : e.get? name with
    | some v => exact .refl e
    | none => exact respects_put_of_none h rfl
  unfold setIndex
  dsimp only
  generalize (if (e.get? name).isSome then e else e.put name { array := true }) = e' at hthere ⊢
  generalize hv : (e'.get? name).getD {} = v
  split
  · exact hthere
  · rename_i hro
    have hput {u : Var} (hu : u.readOnly = v.readOnly) : e.Respects (e'.put name u) := by
      rw [Bool.not_eq_true] at hro
      exact hthere.trans (respects_put (hv ▸ hro) (hu.trans hro))
    repeat' split
    all_goals exact hput rfl

theorem respects_setArray (e : Env) (name : String) (values : List String) :
    e.Respects (e.setArray name values).1 := by
  have hthere : e.Respects (if (e.get? name).isSome then e else e.put name {}) := e.respects_declare name
  unfold setArray
  dsimp only
  generalize (if (e.get? name).isSome then e else e.put name {}) = e' at hthere ⊢
  split
  · exact hthere
  · rename_i hro
    rw [Bool.not_eq_true] at hro
    exact hthere.trans (respects_put hro hro)

theorem protects_unset {e e' : Env} {name : String} (h : e.unset name = .ok e') : e.Protects e' := by
  unfold unset at h
  cases hv : e.get? name with
  | none =>
      rw [hv] at h
      cases h
      exact .refl e
  | some v =>
      rw [hv] at h
      cases hro : v.readOnly with
      | true => simp [hro] at h
      | false =>
          simp only [hro, Bool.false_eq_true, if_false] at h
          cases h
          have hall : (ofScopes (eraseIn name e.all)).all = eraseIn name e.all :=
            all_ofScopes (eraseIn_ne_nil name e.scope e.outer)
          rw [Protects, hall]
          refine kept_eraseIn e.all fun u hu => ?_
          obtain rfl := Option.some.inj (hv.symm.trans hu)
          exact hro

end Env
end Machine
end ShellScript

import ShellScript.Proofs.Machine.RefusedWrite

-- A local variable hides the one of that name outside until its scope is left. What the scopes of a chain have under one
-- name is a column; every operation that is about a name changes its column alone, at the first place that is taken.
namespace ShellScript
namespace Machine

-- A column, the innermost scope first.
namespace Column

def nearest (c : List (Option Var)) : Option Var := c.findSome? id

def put (v : Var) : List (Option Var) → List (Option Var)
  | [] => []
  | [_] => [some v]
  | x :: c => if x.isSome then some v :: c else x :: put v c

def erase : List (Option Var) → List (Option Var)
  | [] => []
  | x :: c => if x.isSome then none :: c else x :: erase c

def hides (c : List (Option Var)) : Bool := c.any Option.isSome

@[simp] theorem hides_nil : hides [] = false := rfl

@[simp] theorem hides_cons (x : Option Var) (c : List (Option Var)) : hides (x :: c) = (x.isSome || hides c) := rfl

theorem put_append {v : Var} {inner under : List (Option Var)} (h : under ≠ []) :
    put v (inner ++ under) = if hides inner then put v inner ++ under else inner ++ put v under := by
  induction inner with
  | nil => rfl
  | cons x inner ih =>
      have hput : put v (x :: (inner ++ under)) =
          if x.isSome then some v :: (inner ++ under) else x :: put v (inner ++ under) := by
        cases hc : inner ++ under with
        | nil => exact absurd (List.append_eq_nil_iff.mp hc).2 h
        | cons y c => rfl
      rw [List.cons_append, hput, ih]
      cases x with
      | some u => cases inner <;> simp [put]
      | none =>
          cases inner with
          | nil => simp
          | cons y inner => cases hh : hides (y :: inner) <;> simp_all [put]

theorem erase_append (inner under : List (Option Var)) :
    erase (inner ++ under) = if hides inner then erase inner ++ under else inner ++ erase under := by
  induction inner with
  | nil => rfl
  | cons x inner ih =>
      rw [List.cons_append, erase, ih]
      cases x with
      | some u => simp [erase]
      | none => cases hh : hides inner <;> simp [erase, hh]

theorem nearest_append {inner : List (Option Var)} (under : List (Option Var)) (h : hides inner = false) :
    nearest (inner ++ under) = nearest under := by
  rw [nearest, List.findSome?_append, List.findSome?_eq_none_iff.mpr, Option.none_or]
  · rfl
  · simpa [hides] using h

@[simp] theorem length_put (v : Var) (c : List (Option Var)) : (put v c).length = c.length := by
  fun_induction put v c <;> simp_all

@[simp] theorem length_erase (c : List (Option Var)) : (erase c).length = c.length := by
  fun_induction erase c <;> simp_all

-- The outermost of the scopes has the variable.
def holds (c : List (Option Var)) : Bool := (c.getLast?.getD none).isSome

theorem holds_cons {x : Option Var} {c : List (Option Var)} (h : c ≠ []) : holds (x :: c) = holds c := by
  cases c with
  | nil => exact absurd rfl h
  | cons y c => rfl

theorem hides_of_holds {c : List (Option Var)} (h : holds c = true) : hides c = true := by
  induction c with
  | nil => cases h
  | cons x c ih =>
      cases c with
      | nil => simpa [holds] using h
      | cons y c => simp [ih ((holds_cons (by simp)).symm.trans h)]

theorem holds_put {v : Var} {c : List (Option Var)} (h : holds c = true) : holds (put v c) = true := by
  fun_induction put v c with
  | case1 => exact h
  | case2 => rfl
  | case3 x c hc hx => rwa [holds_cons hc] at h ⊢
  | case4 x c hc hx ih =>
      rw [holds_cons hc] at h
      rw [holds_cons (List.ne_nil_of_length_pos (by simpa using List.length_pos_iff.mpr hc))]
      exact ih h

end Column

def Edit.onColumn (c : List (Option Var)) : Edit → List (Option Var)
  | keep => c
  | put v => Column.put v c
  | erase => Column.erase c

namespace Env

def column (e : Env) (n : String) : List (Option Var) := e.all.map (·.lookup n)

theorem column_ne_nil (e : Env) (n : String) : e.column n ≠ [] := List.cons_ne_nil _ _

theorem get?_eq_nearest (e : Env) (n : String) : e.get? n = Column.nearest (e.column n) := by
  have hfind : ∀ ss : List Scope, findIn n ss = Column.nearest (ss.map (·.lookup n)) := by
    intro ss
    induction ss with
    | nil => rfl
    | cons s ss ih =>
        rw [findIn, List.map_cons, Column.nearest, List.findSome?_cons]
        cases hs : s.lookup n with
        | some v => rfl
        | none => exact ih
  exact hfind e.all

theorem column_put (e : Env) (name n : String) (v : Var) :
    (e.put name v).column n = if n = name then Column.put v (e.column n) else e.column n := by
  have hput : ∀ ss : List Scope, (putIn name v ss).map (·.lookup n) =
      if n = name then Column.put v (ss.map (·.lookup n)) else ss.map (·.lookup n) := by
    intro ss
    induction ss with
    | nil => simp [putIn, Column.put]
    | cons s ss ih =>
        cases ss with
        | nil =>
            simp only [putIn, List.map_cons, List.map_nil, Table.lookup_insert]
            split <;> rfl
        | cons t ts =>
            simp only [putIn, List.map_cons, Column.put]
            by_cases hn : n = name
            · subst hn
              cases hs : s.lookup n with
              | some u => simp [Table.lookup_insert]
              | none => simpa [hs] using ih
            · simp only [if_neg hn] at ih ⊢
              cases hs : s.lookup name with
              | some u => simp [Table.lookup_insert, hn]
              | none => simpa [hs] using ih
  rw [column, all_put, hput]
  rfl

theorem column_erase (e : Env) (name n : String) : (ofScopes (eraseIn name e.all)).column n =
    if n = name then Column.erase (e.column n) else e.column n := by
  have hne : eraseIn name e.all ≠ [] := eraseIn_ne_nil name e.scope e.outer
  have herase : ∀ ss : List Scope, (eraseIn name ss).map (·.lookup n) =
      if n = name then Column.erase (ss.map (·.lookup n)) else ss.map (·.lookup n) := by
    intro ss
    induction ss with
    | nil => simp [eraseIn, Column.erase]
    | cons s ss ih =>
        simp only [eraseIn, List.map_cons, Column.erase]
        by_cases hn : n = name
        · subst hn
          cases hs : s.lookup n with
          | some u => simp [Table.lookup_erase]
          | none => simpa [hs] using ih
        · simp only [if_neg hn] at ih ⊢
          cases hs : s.lookup name with
          | some u => simp [Table.lookup_erase, hn]
          | none => simpa using ih
  rw [column, all_ofScopes hne, herase]
  rfl

@[simp] theorem column_push (e : Env) (n : String) : e.push.column n = none :: e.column n := rfl

theorem column_pop {e : Env} {n : String} {x : Option Var} {c : List (Option Var)} (h : e.column n = x :: c)
    (hc : c ≠ []) : e.pop.column n = c := by
  obtain ⟨s, ss⟩ := e
  obtain ⟨-, rfl⟩ := List.cons.inj h
  cases ss with
  | nil => exact absurd rfl hc
  | cons t ts => rfl

theorem column_declareLocal_of_ne {e : Env} {name n : String} (h : n ≠ name) :
    (e.declareLocal name).column n = e.column n := by
  unfold declareLocal
  split
  · rfl
  · simp [column, all, Table.lookup_insert, h]

theorem column_declareLocal_self {e : Env} {name : String} {x : Option Var} {c : List (Option Var)}
    (h : e.column name = x :: c) : ∃ v, (e.declareLocal name).column name = some v :: c := by
  obtain ⟨rfl, rfl⟩ := List.cons.inj h
  unfold declareLocal
  cases hs : e.scope.lookup name with
  | some v => exact ⟨v, by simp [column, all, hs]⟩
  | none =>
      refine ⟨{ exported := ((e.get? name).map (·.exported)).getD false }, ?_⟩
      simp [column, all, Table.lookup_insert]

theorem put_declare (e : Env) (name : String) (v : Var) : (e.declare name).put name v = e.put name v := by
  unfold declare
  split
  · rfl
  · exact e.put_put name {} v

end Env

theorem Edit.column_on (ed : Edit) (name n : String) (e : Env) : (ed.on name e).column n =
    if n = name then ed.onColumn (e.column n) else e.column n := by
  cases ed with
  | keep => exact (ite_self _).symm
  | put v => exact e.column_put name n v
  | erase => exact e.column_erase name n

-- What is done to the variables between the opening of a scope and its end.
inductive Action where
  | push
  | pop
  | declareLocal (name : String)
  | write (name : String) (w : Write)
  -- of a variable that is made if there is none
  | alter (name : String) (f : Var → Var)
  | setExport (name : String) (on : Bool)

namespace Action

def run (e : Env) : Action → Env
  | push => e.push
  | pop => e.pop
  | declareLocal name => e.declareLocal name
  | write name w => (w.apply name e).1
  | alter name f => (e.declare name).put name (f (((e.declare name).get? name).getD {}))
  | setExport name on => e.setExport name on

def runAll (e : Env) (as : List Action) : Env := as.foldl run e

-- The variable that is written, in whichever scope it is found.
def target? : Action → Option String
  | write name _ | alter name _ | setExport name _ => some name
  | _ => none

-- What becomes of the variable that is seen.
def edit (seen : Option Var) : Action → Edit
  | write name w => (w.outcome name seen).1
  | alter _ f => .put (f (seen.getD {}))
  | setExport _ on => .put { seen.getD {} with exported := on }
  | _ => .keep

theorem run_eq_edit {a : Action} {name : String} (h : a.target? = some name) (e : Env) :
    a.run e = (a.edit (e.get? name)).on name e := by
  cases a with
  | write n w =>
      obtain rfl := Option.some.inj h
      rw [run, Write.apply_eq]
      rfl
  | alter n f =>
      obtain rfl := Option.some.inj h
      rw [run, Env.put_declare, Env.get?_declare, if_pos rfl]
      rfl
  | setExport n on =>
      obtain rfl := Option.some.inj h
      rw [run, Env.setExport, Env.put_declare, Env.get?_declare, if_pos rfl]
      rfl
  | push => cases h
  | pop => cases h
  | declareLocal n => cases h

theorem column_run_of_ne {a : Action} {name n : String} (h : a.target? = some name) (hn : n ≠ name) (e : Env) :
    (a.run e).column n = e.column n := by
  rw [run_eq_edit h, Edit.column_on, if_neg hn]

theorem edit_ne_erase {a : Action} {name : String} (h : a.target? = some name) (ha : a ≠ .write name .unset)
    (seen : Option Var) : a.edit seen ≠ .erase := by
  cases a with
  | write n w =>
      obtain rfl := Option.some.inj h
      exact w.outcome_ne_erase (fun hw => ha (hw ▸ rfl)) n seen
  | alter n f => exact nofun
  | setExport n on => exact nofun
  | push => exact nofun
  | pop => exact nofun
  | declareLocal n => exact nofun

-- How many scopes are open after an action, of those that were opened since.
def depth (k : Nat) : Action → Nat
  | push => k + 1
  | pop => k - 1
  | _ => k

-- Every scope that is opened is left again, and no other one is.
def Balanced : Nat → List Action → Prop
  | k, [] => k = 0
  | k, a :: as => (a = .pop → 0 < k) ∧ Balanced (a.depth k) as

-- The writes to a variable that go past the k innermost scopes, because none of these has it.
def reaching (n : String) : Nat → Env → List Action → List Action
  | _, _, [] => []
  | k, e, a :: as =>
    let rest := reaching n (a.depth k) (a.run e) as
    if a.target? = some n ∧ Column.hides ((e.column n).take k) = false then a :: rest else rest

-- The chain is the one of `e₀` under further scopes, as far as one name is concerned.
structure Over (n : String) (k : Nat) (e e₀ : Env) (inner : List (Option Var)) : Prop where
  length : inner.length = k + 1
  column : e.column n = inner ++ e₀.column n

section

variable {n : String} {k : Nat} {e e₀ : Env} {inner : List (Option Var)} {a : Action}

-- A write to the variable changes the scopes inside if one of them has it, and otherwise those under them.
theorem Over.write (h : Over n k e e₀ inner) (ha : a.target? = some n) :
    ∃ inner', Over n k (a.run e) (if Column.hides inner = false then a.run e₀ else e₀) inner' ∧
      (Column.holds inner = true → a ≠ .write n .unset → Column.holds inner' = true) ∧
      (Column.hides inner = false → Column.hides inner' = false) := by
  have hunder := e₀.column_ne_nil n
  have hcolumn (e : Env) : (a.run e).column n = (a.edit (Column.nearest (e.column n))).onColumn (e.column n) := by
    rw [run_eq_edit ha, Edit.column_on, if_pos rfl, Env.get?_eq_nearest]
  cases hides : Column.hides inner with
  | true =>
      cases hedit : a.edit (Column.nearest (inner ++ e₀.column n)) with
      | keep => exact ⟨inner, ⟨h.length, by rw [hcolumn, h.column, hedit]; rfl⟩, fun hold _ => hold, nofun⟩
      | put v =>
          refine ⟨Column.put v inner, ⟨by rw [Column.length_put, h.length], ?_⟩, fun hold _ => Column.holds_put hold, nofun⟩
          rw [hcolumn, h.column, hedit, Edit.onColumn, Column.put_append hunder, if_pos hides]
          rfl
      | erase =>
          refine ⟨Column.erase inner, ⟨by rw [Column.length_erase, h.length], ?_⟩, fun _ hset => ?_, nofun⟩
          · rw [hcolumn, h.column, hedit, Edit.onColumn, Column.erase_append, if_pos hides]
            rfl
          · exact absurd hedit (edit_ne_erase ha hset _)
  | false =>
      refine ⟨inner, ⟨h.length, ?_⟩, fun hold _ => hold, fun _ => hides⟩
      rw [if_pos rfl, hcolumn e, hcolumn e₀, h.column, Column.nearest_append _ hides]
      cases a.edit (Column.nearest (e₀.column n)) with
      | keep => rfl
      | put v => rw [Edit.onColumn, Column.put_append hunder, hides]; rfl
      | erase => rw [Edit.onColumn, Column.erase_append, hides]; rfl

theorem Over.step (h : Over n k e e₀ inner) (hpop : a = .pop → 0 < k) :
    ∃ inner', Over n (a.depth k) (a.run e)
        (if a.target? = some n ∧ Column.hides inner = false then a.run e₀ else e₀) inner' ∧
      (Column.holds inner = true → a ≠ .write n .unset → Column.holds inner' = true) ∧
      (Column.hides inner = false → a ≠ .declareLocal n → Column.hides inner' = false) := by
  have hne : inner ≠ [] := List.ne_nil_of_length_eq_add_one h.length
  -- a write to one of the variables
  have hwrite (m : String) (ha : a.target? = some m) (hdepth : a.depth k = k) :
      ∃ inner', Over n (a.depth k) (a.run e)
          (if a.target? = some n ∧ Column.hides inner = false then a.run e₀ else e₀) inner' ∧
        (Column.holds inner = true → a ≠ .write n .unset → Column.holds inner' = true) ∧
        (Column.hides inner = false → a ≠ .declareLocal n → Column.hides inner' = false) := by
    rw [hdepth]
    by_cases hm : m = n
    · subst hm
      obtain ⟨inner', hover, hhold, hhide⟩ := h.write ha
      refine ⟨inner', ?_, hhold, fun hh _ => hhide hh⟩
      simpa only [ha, true_and] using hover
    · refine ⟨inner, ⟨h.length, ?_⟩, fun hold _ => hold, fun hh _ => hh⟩
      rw [column_run_of_ne ha (Ne.symm hm), if_neg (by simp [ha, hm]), h.column]
  cases a with
  | write m w => exact hwrite m rfl rfl
  | alter m f => exact hwrite m rfl rfl
  | setExport m on => exact hwrite m rfl rfl
  | push =>
      refine ⟨none :: inner, ⟨congrArg (· + 1) h.length, ?_⟩, fun hold _ => ?_, fun hh _ => hh⟩
      · rw [run, Env.column_push, h.column]
        rfl
      · rwa [Column.holds_cons hne]
  | pop =>
      obtain ⟨k, rfl⟩ : ∃ j, k = j + 1 := Nat.exists_eq_add_one.mpr (hpop rfl)
      obtain ⟨x, inner', rfl⟩ := List.exists_cons_of_ne_nil hne
      have hlength : inner'.length = k + 1 := Nat.succ.inj h.length
      have hne' : inner' ≠ [] := List.ne_nil_of_length_eq_add_one hlength
      refine ⟨inner', ⟨hlength, Env.column_pop h.column (by simp [hne'])⟩, fun hold _ => ?_, fun hh _ => ?_⟩
      · rwa [Column.holds_cons hne'] at hold
      · exact (Bool.or_eq_false_iff.mp hh).2
  | declareLocal m =>
      by_cases hm : n = m
      · subst hm
        obtain ⟨x, inner', rfl⟩ := List.exists_cons_of_ne_nil hne
        obtain ⟨v, hv⟩ := Env.column_declareLocal_self h.column
        refine ⟨some v :: inner', ⟨h.length, hv⟩, fun hold _ => ?_, fun _ ha => absurd rfl ha⟩
        cases inner' with
        | nil => rfl
        | cons y inner' => rwa [Column.holds_cons (by simp)] at hold ⊢
      · refine ⟨inner, ⟨h.length, ?_⟩, fun hold _ => hold, fun hh _ => hh⟩
        rw [run, Env.column_declareLocal_of_ne hm, h.column]
        rfl

end

section

variable {n name : String} {k : Nat} {e e₀ : Env} {inner : List (Option Var)} {as : List Action}

theorem Over.hides (h : Over n k e e₀ inner) : Column.hides ((e.column n).take (k + 1)) = Column.hides inner := by
  rw [h.column, ← h.length, List.take_left]

theorem depth_succ {a : Action} (h : a = .pop → 0 < k) : a.depth (k + 1) = a.depth k + 1 := by
  cases a with
  | pop => exact (Nat.sub_one_add_one (Nat.pos_iff_ne_zero.mp (h rfl))).symm
  | _ => rfl

-- When all the scopes are left again, the chain is the one that the reaching writes alone lead to.
theorem Over.column_pop_runAll (h : Over n k e e₀ inner) (has : Balanced k as) :
    (runAll e as).pop.column n = (runAll e₀ (reaching n (k + 1) e as)).column n := by
  induction as generalizing k e e₀ inner with
  | nil =>
      obtain rfl : k = 0 := has
      obtain ⟨x, rfl⟩ := List.length_eq_one_iff.mp h.length
      exact Env.column_pop h.column (e₀.column_ne_nil n)
  | cons a as ih =>
      obtain ⟨hpop, has⟩ := has
      obtain ⟨inner', hover, -⟩ := h.step hpop
      have hrest := ih hover has
      rw [← depth_succ hpop] at hrest
      rw [reaching, h.hides]
      split
      · rename_i hreach
        rw [if_pos hreach] at hrest
        exact hrest
      · rename_i hreach
        rw [if_neg hreach] at hrest
        exact hrest

-- Nothing reaches past a local variable that is never unset.
theorem Over.reaching_eq_nil (h : Over n k e e₀ inner) (has : Balanced k as) (hold : Column.holds inner = true)
    (hset : .write n .unset ∉ as) : reaching n (k + 1) e as = [] := by
  induction as generalizing k e e₀ inner with
  | nil => rfl
  | cons a as ih =>
      obtain ⟨hpop, has⟩ := has
      rw [List.mem_cons, not_or] at hset
      obtain ⟨hhead, htail⟩ := hset
      obtain ⟨inner', hover, hhold, -⟩ := h.step hpop
      have hrest := ih hover has (hhold hold (Ne.symm hhead)) htail
      rw [← depth_succ hpop] at hrest
      rw [reaching, h.hides, Column.hides_of_holds hold, hrest]
      simp

-- All writes reach past scopes in which the variable is never made local.
theorem Over.reaching_eq_filter (h : Over n k e e₀ inner) (has : Balanced k as) (hfree : Column.hides inner = false)
    (hlocal : .declareLocal n ∉ as) : reaching n (k + 1) e as = as.filter (·.target? = some n) := by
  induction as generalizing k e e₀ inner with
  | nil => rfl
  | cons a as ih =>
      obtain ⟨hpop, has⟩ := has
      rw [List.mem_cons, not_or] at hlocal
      obtain ⟨hhead, htail⟩ := hlocal
      obtain ⟨inner', hover, -, hhide⟩ := h.step hpop
      have hrest := ih hover has (hhide hfree (Ne.symm hhead)) htail
      rw [← depth_succ hpop] at hrest
      rw [reaching, h.hides, hfree, hrest, List.filter_cons]
      simp

end

theorem over_declareLocal (e : Env) (name n : String) : ∃ x, Over n 0 (e.push.declareLocal name) e [x] ∧
    (n = name → x.isSome = true) ∧ (n ≠ name → x = none) := by
  by_cases hn : n = name
  · subst hn
    obtain ⟨v, hv⟩ := Env.column_declareLocal_self (e.column_push n)
    exact ⟨some v, ⟨rfl, hv⟩, fun _ => rfl, fun h => absurd rfl h⟩
  · refine ⟨none, ⟨rfl, ?_⟩, fun h => absurd h hn, fun _ => rfl⟩
    rw [Env.column_declareLocal_of_ne hn, Env.column_push]
    rfl

-- A scope with a local variable is opened and, after any number of actions, left again. Then every scope of the chain has
-- under the name of that variable what it had before. Under any other name it has what it would have had if the scopes
-- had never been opened and only the writes that reached past them had been made: all of them, if no scope made a local
-- variable of that name.
theorem shadows (e : Env) {name : String} {as : List Action} (hbalanced : Balanced 0 as)
    (hset : .write name .unset ∉ as) :
    (runAll (e.push.declareLocal name) as).pop.column name = e.column name ∧
    ∀ n, (runAll (e.push.declareLocal name) as).pop.column n =
        (runAll e (reaching n 1 (e.push.declareLocal name) as)).column n ∧
      (n ≠ name → .declareLocal n ∉ as → (runAll (e.push.declareLocal name) as).pop.column n =
        (runAll e (as.filter (·.target? = some n))).column n) := by
  refine ⟨?_, fun n => ?_⟩
  · obtain ⟨x, hover, hheld, -⟩ := over_declareLocal e name name
    have hholds : Column.holds [x] = true := hheld rfl
    rw [hover.column_pop_runAll hbalanced, hover.reaching_eq_nil hbalanced hholds hset]
    rfl
  · obtain ⟨x, hover, -, hfree⟩ := over_declareLocal e name n
    refine ⟨hover.column_pop_runAll hbalanced, fun hn hlocal => ?_⟩
    have hhides : Column.hides [x] = false := by rw [hfree hn]; rfl
    rw [hover.column_pop_runAll hbalanced, hover.reaching_eq_filter hbalanced hhides hlocal]

theorem shadows_inner_scope :
    let e : Env := { scope := [("x", { value := "outer" }), ("y", { value := "1" })] }
    let as := [.write "x" (.set "inner"), .push, .declareLocal "y", .write "y" (.set "2"), .write "x" (.setIndex 1 "3"), .pop,
      .write "y" (.set "4"), .setExport "x" true]
    (runAll (e.push.declareLocal "x") as).pop.column "x" = [some { value := "outer" }] ∧
      (runAll (e.push.declareLocal "x") as).pop.column "y" = [some { value := "4" }] := by
  intro e as
  have hbalanced : Balanced 0 as := by simp [as, Balanced, depth]
  have hset : Action.write "x" .unset ∉ as := by simp [as]
  have hx' : e.column "x" = [some { value := "outer" }] := by decide +kernel
  have hy' : (runAll e (reaching "y" 1 (e.push.declareLocal "x") as)).column "y" = [some { value := "4" }] := by
    decide +kernel
  obtain ⟨hx, hy⟩ := shadows e hbalanced hset
  exact ⟨hx.trans hx', (hy "y").1.trans hy'⟩

end Action
end Machine
end ShellScript

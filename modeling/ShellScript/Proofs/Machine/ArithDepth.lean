import ShellScript.Proofs.Machine.ArithRank

-- How the limit on the depth of values works: it is passed where too many values lead one to the other, but as a
-- subscript begins to count anew, values can lead one to the other without an end.
namespace ShellScript
namespace Machine

open Program (Arith)
open Run

-- The evaluation of an expression at a depth comes to the text of a variable or of an element, which is evaluated at a
-- depth of its own. What stands before it has been evaluated, and what stands after it does not matter.
inductive Visits (E : Engine) : Nat → Arith → State → Nat → String → State → Prop
  | value {depth : Nat} {y : String} {index : Option Arith} {s s' : State} {t : String}
      (h : arithText E y index s = .ok t s') : Visits E depth (.var y index) s (depth + 1) t s'
  -- a subscript is evaluated as if nothing were around it
  | subscript {depth d : Nat} {y : String} {i : Arith} {s s' : State} {t : String} (h : Visits E 0 i s d t s') :
      Visits E depth (.var y (some i)) s d t s'
  | unary {depth d : Nat} {op : Script.ArithOp} {post : Bool} {x : Arith} {s s' : State} {t : String}
      (hop : op = .inc ∨ op = .dec → ∃ y index, x = .var y index) (h : Visits E depth x s d t s') :
      Visits E depth (.unary op post x) s d t s'
  -- the subscript of an element that is stepped, for the second time
  | stepped {depth d : Nat} {op : Script.ArithOp} {post : Bool} {y : String} {i : Arith} {n : Int} {s s' s'' : State}
      {t : String} (hop : op = .inc ∨ op = .dec) (hold : arith E depth (.var y (some i)) s = .ok n s')
      (h : Visits E 0 i s' d t s'') : Visits E depth (.unary op post (.var y (some i))) s d t s''
  | left {depth d : Nat} {op : Script.ArithOp} {x y : Arith} {s s' : State} {t : String}
      (hop : Arithmetic.isAssign op = false) (h : Visits E depth x s d t s') : Visits E depth (.binary op x y) s d t s'
  | right {depth d : Nat} {op : Script.ArithOp} {x y : Arith} {n : Int} {s s' s'' : State} {t : String}
      (hop : Arithmetic.isAssign op = false) (hx : arith E depth x s = .ok n s') (hand : op = .land → n ≠ 0)
      (hor : op = .lor → n = 0) (h : Visits E depth y s' d t s'') : Visits E depth (.binary op x y) s d t s''
  | stored {depth d : Nat} {y : String} {index : Option Arith} {x : Arith} {s s' : State} {t : String}
      (h : Visits E depth x s d t s') : Visits E depth (.binary .assign (.var y index) x) s d t s'
  -- the subscript of an element that is assigned
  | placed {depth d : Nat} {y : String} {i x : Arith} {n : Int} {s s' s'' : State} {t : String}
      (hx : arith E depth x s = .ok n s') (h : Visits E 0 i s' d t s'') :
      Visits E depth (.binary .assign (.var y (some i)) x) s d t s''
  | added {depth d : Nat} {op op' : Script.ArithOp} {y : String} {index : Option Arith} {x : Arith} {s s' : State}
      {t : String} (hop : Arithmetic.ofAssign? op = some op') (h : Visits E depth x s d t s') :
      Visits E depth (.binary op (.var y index) x) s d t s'
  | updated {depth d : Nat} {op op' : Script.ArithOp} {y : String} {index : Option Arith} {x : Arith} {n : Int}
      {s s' s'' : State} {t : String} (hop : Arithmetic.ofAssign? op = some op') (hx : arith E depth x s = .ok n s')
      (h : Visits E depth (.var y index) s' d t s'') : Visits E depth (.binary op (.var y index) x) s d t s''
  -- the subscript of an element that is updated, for the second time
  | replaced {depth d : Nat} {op op' : Script.ArithOp} {y : String} {i x : Arith} {l n r : Int}
      {s s' s'' s''' : State} {t : String} (hop : Arithmetic.ofAssign? op = some op') (hx : arith E depth x s = .ok n s')
      (hy : arith E depth (.var y (some i)) s' = .ok l s'') (hr : Arithmetic.binary op' l n = .ok r)
      (h : Visits E 0 i s'' d t s''') : Visits E depth (.binary op (.var y (some i)) x) s d t s'''
  | cond {depth d : Nat} {c x : Arith} {y : Option Arith} {s s' : State} {t : String} (h : Visits E depth c s d t s') :
      Visits E depth (.ternary c x y) s d t s'
  | yes {depth d : Nat} {c x : Arith} {y : Option Arith} {n : Int} {s s' s'' : State} {t : String}
      (hc : arith E depth c s = .ok n s') (hn : n ≠ 0) (h : Visits E depth x s' d t s'') :
      Visits E depth (.ternary c x y) s d t s''
  | no {depth d : Nat} {c x y : Arith} {s s' s'' : State} {t : String} (hc : arith E depth c s = .ok 0 s')
      (h : Visits E depth y s' d t s'') : Visits E depth (.ternary c x (some y)) s d t s''

-- An expression fails where a value that it comes to does.
theorem Visits.fails {E : Engine} {depth d : Nat} {x : Arith} {s s' s'' : State} {t : String} {e : Signal}
    (h : Visits E depth x s d t s') (hfails : textValue E d t s' = .error e s'') : arith E depth x s = .error e s'' := by
  induction h with
  | value h =>
      rw [arith]
      exact (bind_of_ok h _).trans hfails
  | subscript _ ih =>
      rw [arith]
      unfold arithText
      exact bind_of_error (bind_of_error (ih hfails) _) _
  | @unary depth d op post x s s' t hop _ ih =>
      by_cases hstep : op = .inc ∨ op = .dec
      · obtain ⟨y, index, rfl⟩ := hop hstep
        rw [arith_step hstep]
        exact bind_of_error (ih hfails) _
      · unfold arith
        rw [if_neg (by simpa using hstep)]
        exact bind_of_error (ih hfails) _
  | stepped hop hold _ ih =>
      rw [arith_step hop, bind_of_ok hold]
      exact bind_of_error (bind_of_error (ih hfails) _) _
  | @left depth d op x y s s' t hop _ ih =>
      unfold arith
      have hx := ih hfails
      by_cases hlogic : (op == .land || op == .lor) = true
      · rw [if_pos hlogic]
        exact bind_of_error hx _
      rw [if_neg hlogic]
      by_cases hcomma : (op == .comma) = true
      · rw [if_pos hcomma]
        exact bind_of_error hx _
      · rw [if_neg hcomma, if_neg (Bool.eq_false_iff.mp hop)]
        exact bind_of_error hx _
  | @right depth d op x y n s s' s'' t hop hx hand hor _ ih =>
      unfold arith
      have hy := ih hfails
      by_cases hlogic : (op == .land || op == .lor) = true
      · rw [if_pos hlogic]
        refine (bind_of_ok hx _).trans ?_
        have hneeded : ¬((op == .land) == (n == 0)) = true := by
          obtain rfl | rfl : op = .land ∨ op = .lor := by simpa using hlogic
          · simpa using hand rfl
          · simpa using hor rfl
        rw [if_neg hneeded]
        exact bind_of_error hy _
      rw [if_neg hlogic]
      by_cases hcomma : (op == .comma) = true
      · rw [if_pos hcomma]
        exact (bind_of_ok hx _).trans hy
      · rw [if_neg hcomma, if_neg (Bool.eq_false_iff.mp hop)]
        exact (bind_of_ok hx _).trans (bind_of_error hy _)
  | stored _ ih =>
      rw [arith_store]
      exact bind_of_error (ih hfails) _
  | placed hx _ ih =>
      rw [arith_store, bind_of_ok hx]
      exact bind_of_error (bind_of_error (ih hfails) _) _
  | added hop _ ih =>
      rw [arith_update hop]
      exact bind_of_error (ih hfails) _
  | updated hop hx _ ih =>
      rw [arith_update hop, bind_of_ok hx]
      exact bind_of_error (ih hfails) _
  | replaced hop hx hy hr _ ih =>
      rw [arith_update hop, bind_of_ok hx, bind_of_ok hy, hr]
      exact bind_of_error (bind_of_error (ih hfails) _) _
  | cond _ ih =>
      unfold arith
      exact bind_of_error (ih hfails) _
  | yes hc hn _ ih =>
      unfold arith
      exact (bind_of_ok hc _).trans ((congrFun (if_pos (by simpa using hn)) _).trans (ih hfails))
  | no hc _ ih =>
      unfold arith
      rw [bind_of_ok hc]
      exact ih hfails

section

variable (program : Program) (compiles : Bool) (rounds : Nat)

-- Expressions whose values lead one to the other until the limit is passed, each at the depth at which the one before it
-- is left and in the state in which it is left.
inductive Exceeds : Nat → Nat → Arith → State → Prop
  | passed {n depth : Nat} {x : Arith} {s : State} (h : maxArithDepth < depth) : Exceeds n depth x s
  | leads {n depth d : Nat} {x x' : Arith} {s s' : State} {t : String}
      (h : Visits (engine program compiles rounds (n + 1)) depth x s d t s') (ht : Denotes t x')
      (hcompiles : compiles = true ∨ Text.isName (Text.trim t) = true) (hexceeds : Exceeds n d x' s') :
      Exceeds (n + 1) depth x s

variable {program compiles rounds}

theorem Exceeds.fails {n depth : Nat} {x : Arith} {s : State} (h : Exceeds program compiles rounds n depth x s) :
    ∃ s', arithAt (engine program compiles rounds n) depth x s =
      .error (.fail (.withDetail .arith "expression recursion level exceeded")) s' := by
  induction h with
  | @passed n depth x s hdepth =>
      rw [arithAt, if_pos hdepth]
      exact ⟨s, rfl⟩
  | @leads n depth d x x' s s' t hvisits ht hcompiles _ ih =>
      rw [arithAt]
      split
      · exact ⟨s, rfl⟩
      · obtain ⟨s'', hfails⟩ := ih
        refine ⟨s'', hvisits.fails ?_⟩
        rw [textValue_of_denotes ht hcompiles]
        exact hfails

theorem arithText_of_value {E : Engine} {y t : String} {s : State} (h : s.shell.env.value? y = some t) :
    arithText E y none s = .ok t s := by
  unfold arithText
  rw [shell_bind, h]
  rfl

-- Names of which each has the name of another one as its value.
theorem exceeds_of_names (named : String → Prop) {s : State}
    (h : ∀ y, named y → ∃ t, s.shell.env.value? y = some t ∧ Text.isName (Text.trim t) = true ∧ named (Text.trim t))
    {n depth : Nat} {y : String} (hy : named y) (hn : maxArithDepth < n + depth) :
    Exceeds program compiles rounds n depth (.var y none) s := by
  induction n generalizing depth y with
  | zero => exact .passed (by omega)
  | succ n ih =>
      obtain ⟨t, hvalue, hname, hnamed⟩ := h y hy
      exact .leads (.value (arithText_of_value hvalue)) (denotes_of_name hname) (.inr hname) (ih hnamed (by omega))

variable (program compiles rounds)

-- Texts, with the depths and the states in which they are evaluated, of which each leads to another one.
def Unending (texts : Nat → String → State → Prop) : Prop :=
  ∀ depth t s, texts depth t s → depth ≤ maxArithDepth ∧ ∃ x d t' s', Denotes t x ∧
    (compiles = true ∨ Text.isName (Text.trim t) = true) ∧ texts d t' s' ∧
    ∀ n, Visits (engine program compiles rounds n) depth x s d t' s'

variable {program compiles rounds}

theorem Unending.stopped {texts : Nat → String → State → Prop} (h : Unending program compiles rounds texts) (n : Nat)
    {depth : Nat} {t : String} {s : State} (ht : texts depth t s) :
    ∃ s', textValue (engine program compiles rounds n) depth t s = .error (.stopped .bound) s' := by
  induction n generalizing depth t s with
  | zero =>
      obtain ⟨-, x, d, t', s', hx, hcompiles, -, -⟩ := h depth t s ht
      rw [textValue_of_denotes hx hcompiles]
      exact ⟨s, rfl⟩
  | succ n ih =>
      obtain ⟨hdepth, x, d, t', s', hx, hcompiles, ht', hvisits⟩ := h depth t s ht
      obtain ⟨s'', hstopped⟩ := ih ht'
      refine ⟨s'', ?_⟩
      rw [textValue_of_denotes hx hcompiles]
      exact (congrFun (if_neg (Nat.not_lt.mpr hdepth)) s).trans ((hvisits n).fails hstopped)

end

section

variable (program : Program) (compiles : Bool) (rounds : Nat) (x : Arith) (s : State)

-- The evaluation ends where the variables have ranks, so that no value leads through a subscript back to itself. It fails
-- where values that lead one to the other pass the limit, which begins anew in a subscript, and it does not end where they
-- lead one to the other for ever without passing it.
theorem arith_depth_limit :
    (∀ (rank : String → Nat) (r n : Nat), x.Mentions (rank · ≤ r) (rank · ≤ r) → s.Ranked rank →
      (maxArithDepth + 1) * (r + 1) ≤ n →
      Ends rank (fun _ => True) (arith (engine program compiles rounds n) 0 x s)) ∧
    (∀ n, Exceeds program compiles rounds n 0 x s → ∃ s', arith (engine program compiles rounds n) 0 x s =
      .error (.fail (.withDetail .arith "expression recursion level exceeded")) s') ∧
    (∀ texts, Unending program compiles rounds texts → ∀ d t s', texts d t s' →
      (∀ n, Visits (engine program compiles rounds n) 0 x s d t s') →
      ∀ n, ∃ s', arith (engine program compiles rounds n) 0 x s = .error (.stopped .bound) s') := by
  refine ⟨fun rank r n hx hs hn => ?_, fun n h => h.fails, fun texts h d t s' ht hvisits n => ?_⟩
  · cases n with
    | zero =>
        simp only [maxArithDepth] at hn
        omega
    | succ n =>
        have hbelow : ∀ y, rank y ≤ r → ∀ x : Arith, x.Ranked rank (rank y) →
            Settles rank (arithAt (engine program compiles rounds n) 1 x) fun _ => True := by
          intro y hy x hx
          refine settles_arithAt program compiles rounds hx (.inr ?_)
          simp only [maxArithDepth] at hn ⊢
          omega
        exact (settles_arith hbelow x 0 hx hbelow).ends s hs
  · obtain ⟨s'', hstopped⟩ := h.stopped n ht
    exact ⟨s'', (hvisits n).fails hstopped⟩

end

-- An element with a name for its subscript.
def element? : List Program.Stmt → Option (String × String)
  | [.arith (.var a (some (.var y none)))] => some (a, y)
  | _ => none

theorem element?_eq {stmts : List Program.Stmt} {a y : String} (h : element? stmts = some (a, y)) :
    stmts = [.arith (.var a (some (.var y none)))] := by
  unfold element? at h
  split at h
  · cases h
    rfl
  · cases h

theorem denotes_of_element {t a y : String} (hnumber : Arithmetic.isNumber (Text.trim t) = false)
    (h : ((Program.compile "arith" ("((" ++ Text.trim t ++ "))")).toOption.bind fun b => element? b.stmts) =
      some (a, y)) : Denotes t (.var a (some (.var y none))) := by
  refine ⟨hnumber, ?_⟩
  cases hcompile : Program.compile "arith" ("((" ++ Text.trim t ++ "))") with
  | error e =>
      rw [hcompile] at h
      cases h
  | ok b =>
      rw [hcompile] at h
      exact ⟨b, rfl, element?_eq h⟩

def State.ofValues (values : List (String × String)) : State :=
  { shell := { env := { scope := values.map fun x => (x.1, { value := x.2 }) } } }

theorem State.ranked_ofValues {rank : String → Nat} {values : List (String × String)}
    (h : ∀ x ∈ values, RankedText rank x.1 x.2) : (State.ofValues values).Ranked rank := by
  intro scope hscope x hx t ht
  obtain rfl := List.mem_singleton.mp hscope
  obtain ⟨v, hv, rfl⟩ := List.mem_map.mp hx
  obtain rfl := List.mem_singleton.mp ht
  exact h v hv

-- `x` is `a[y]` where `y` is a number; `y` is itself; `y` is `a[y]`.
theorem depth_limit_of_element :
    let program : Program := { name := "", main := default }
    let rank := fun y => if y = "y" then 0 else 1
    Ends rank (fun _ => True)
        (arith (engine program true 1 66) 0 (.var "x" none) (.ofValues [("x", "a[y]"), ("y", "5")])) ∧
      (∃ s', arith (engine program true 1 33) 0 (.var "y" none) (.ofValues [("y", "y")]) =
        .error (.fail (.withDetail .arith "expression recursion level exceeded")) s') ∧
      ∀ n, ∃ s', arith (engine program true 1 n) 0 (.var "y" none) (.ofValues [("y", "a[y]")]) =
        .error (.stopped .bound) s' := by
  intro program rank
  have hdenotes : Denotes "a[y]" (.var "a" (some (.var "y" none))) :=
    denotes_of_element (by decide +kernel) (by decide +kernel)
  have hranked : (State.ofValues [("x", "a[y]"), ("y", "5")]).Ranked rank := by
    refine State.ranked_ofValues (List.forall_mem_cons.mpr ⟨?_, List.forall_mem_singleton.mpr ?_⟩)
    · intro x hx
      obtain rfl := hx.unique hdenotes
      exact .element (by decide) (.name (by decide))
    · exact rankedText_of_isNumber rank "y" (by decide +kernel)
  have hself : Text.trim "y" = "y" := by decide +kernel
  have hexceeds : Exceeds program true 1 33 0 (.var "y" none) (.ofValues [("y", "y")]) := by
    refine exceeds_of_names (· = "y") ?_ rfl (by decide)
    rintro y rfl
    exact ⟨"y", rfl, by decide +kernel, hself⟩
  let cycle := fun depth t s => depth = 1 ∧ t = "a[y]" ∧ s = State.ofValues [("y", "a[y]")]
  have hcycle : Unending program true 1 cycle := by
    rintro depth t s ⟨rfl, rfl, rfl⟩
    refine ⟨by decide, _, 1, "a[y]", _, hdenotes, .inl rfl, ⟨rfl, rfl, rfl⟩, fun n => ?_⟩
    exact .subscript (.value (arithText_of_value rfl))
  refine ⟨?_, ?_, ?_⟩
  · exact (arith_depth_limit program true 1 _ _).1 rank 1 66 (.name (by decide)) hranked (by decide)
  · exact (arith_depth_limit program true 1 _ _).2.1 33 hexceeds
  · exact (arith_depth_limit program true 1 _ _).2.2 cycle hcycle 1 "a[y]" _ ⟨rfl, rfl, rfl⟩
      fun n => .value (arithText_of_value rfl)

-- Forty values, of which the first twenty lead to a subscript and the others are in it.
theorem subscript_begins_anew :
    let values := (List.range 40).map fun i =>
      ("x" ++ toString i, if i = 19 then "a[x20]" else "x" ++ toString (i + 1))
    let E := engine { name := "", main := default } true 1 50
    (match arith E 0 (.var "x0" none) (.ofValues values) with
      | .ok n _ => some n
      | .error _ _ => none) = some 0 := by
  decide +kernel

end Machine
end ShellScript

import ShellScript.Proofs.Machine.ArithDepth

-- How often the subscript of an element is evaluated that arithmetic assigns to. A plain assignment evaluates it once.
-- `++`, `--` and compound assignments evaluate it for the element that they read and again for the one that they write,
-- so that they do what one evaluation would do where the second one repeats the first.
namespace ShellScript

namespace Program.Arith

-- Numbers, names, elements and operators that assign nothing.
inductive Pure : Arith → Prop
  | num (text : String) : Pure (.num text)
  | name (y : String) : Pure (.var y none)
  | element (a : String) {i : Arith} (hi : Pure i) : Pure (.var a (some i))
  | unary {op : Script.ArithOp} (hop : ¬(op = .inc ∨ op = .dec)) (post : Bool) {x : Arith} (hx : Pure x) :
      Pure (.unary op post x)
  | binary {op : Script.ArithOp} (hop : ¬Machine.Arithmetic.isAssign op = true) {x y : Arith} (hx : Pure x)
      (hy : Pure y) : Pure (.binary op x y)
  | cond {c x : Arith} (hc : Pure c) (hx : Pure x) : Pure (.ternary c x none)
  | ternary {c x y : Arith} (hc : Pure c) (hx : Pure x) (hy : Pure y) : Pure (.ternary c x (some y))

theorem Pure.subscript {a : String} {i : Arith} (h : Pure (.var a (some i))) : Pure i := by
  cases h with
  | element _ hi => exact hi

end Program.Arith

namespace Machine

open Program (Arith)
open Run

def elementText (a : String) (i : Int) : Run String := do
  return (((← shell).env.get? a).bind fun v => nth? v.values i).getD ""

def elementValue (E : Engine) (depth : Nat) (a : String) (i : Int) : Run Int := do
  textValue E (depth + 1) (← elementText a i)

-- `a[e] op= y`, where `again` gives the element to be written after the element `i` has been read.
def updateBy (again : Int → Run Int) (E : Engine) (depth : Nat) (op : Script.ArithOp) (a : String) (e y : Arith) :
    Run Int := do
  let r ← arith E depth y
  let i ← arith E 0 e
  let l ← elementValue E depth a i
  let n ← ofExcept (Arithmetic.binary op l r)
  setIndex a (← again i) (toString n)
  return n

-- `a[e]++` and its like.
def stepBy (again : Int → Run Int) (E : Engine) (depth : Nat) (op : Script.ArithOp) (post : Bool) (a : String)
    (e : Arith) : Run Int := do
  let i ← arith E 0 e
  let old ← elementValue E depth a i
  let n := Text.wrap64 (if op == .inc then old + 1 else old - 1)
  setIndex a (← again i) (toString n)
  return if post then old else n

-- `a[e] = y`.
def storeOnce (E : Engine) (depth : Nat) (a : String) (e y : Arith) : Run Int := do
  let r ← arith E depth y
  let i ← arith E 0 e
  setIndex a i (toString r)
  return r

-- What is read is what is written.
def updateOnce : Engine → Nat → Script.ArithOp → String → Arith → Arith → Run Int := updateBy pure

def stepOnce : Engine → Nat → Script.ArithOp → Bool → String → Arith → Run Int := stepBy pure

section

variable (E : Engine) (depth : Nat) (a : String) (e y : Arith)

theorem arith_element : arith E depth (.var a (some e)) = (do
    let i ← arith E 0 e
    elementValue E depth a i) := by
  rw [arith, arithText, bind_assoc]
  rfl

theorem arithAssign_element (n : Int) : arithAssign E a n (some e) = (do
    let i ← arith E 0 e
    setIndex a i (toString n)) := by
  rw [arithAssign]

theorem arith_store_element : arith E depth (.binary .assign (.var a (some e)) y) = storeOnce E depth a e y := by
  rw [arith_store]
  simp only [arithAssign_element, bind_assoc]
  rfl

theorem arith_update_element {op op' : Script.ArithOp} (hop : Arithmetic.ofAssign? op = some op') :
    arith E depth (.binary op (.var a (some e)) y) = updateBy (fun _ => arith E 0 e) E depth op' a e y := by
  rw [arith_update hop]
  simp only [arith_element, arithAssign_element, bind_assoc]
  rfl

theorem arith_step_element {op : Script.ArithOp} (hop : op = .inc ∨ op = .dec) (post : Bool) :
    arith E depth (.unary op post (.var a (some e))) = stepBy (fun _ => arith E 0 e) E depth op post a e := by
  rw [arith_step hop]
  simp only [arith_element, arithAssign_element, bind_assoc]
  rfl

-- After the element has been read, the subscript comes to the same and has no effect.
def Repeats (s : State) : Prop :=
  ∀ i t l u, arith E 0 e s = .ok i t → elementValue E depth a i t = .ok l u → arith E 0 e u = .ok i u

end

-- Only the states are looked at to which the computation leads.
theorem bind_congr_of_ok {α β : Type} {m : Run α} {k k' : α → Run β} {s : State}
    (h : ∀ a t, m s = .ok a t → k a t = k' a t) : (m >>= k) s = (m >>= k') s := by
  cases hr : m s with
  | ok a t => rw [bind_of_ok hr, bind_of_ok hr, h a t hr]
  | error e t => rw [bind_of_error hr, bind_of_error hr]

theorem ofExcept_ok {α : Type} {x : Except Failure α} {s t : State} {a : α} (h : ofExcept x s = .ok a t) : t = s := by
  cases x with
  | ok b =>
      cases h
      rfl
  | error f => cases h

section

variable {E : Engine} {depth : Nat} {a : String} {e y : Arith} {s : State}

theorem stepBy_of_repeats (h : Repeats E depth a e s) (op : Script.ArithOp) (post : Bool) :
    stepBy (fun _ => arith E 0 e) E depth op post a e s = stepOnce E depth op post a e s := by
  refine bind_congr_of_ok fun i t ht => bind_congr_of_ok fun old u hu => ?_
  rw [bind_of_ok (h i t old u ht hu)]
  rfl

theorem updateBy_of_repeats (h : ∀ r t, arith E depth y s = .ok r t → Repeats E depth a e t) (op : Script.ArithOp) :
    updateBy (fun _ => arith E 0 e) E depth op a e y s = updateOnce E depth op a e y s := by
  refine bind_congr_of_ok fun r t hr => bind_congr_of_ok fun i u hi => bind_congr_of_ok fun l v hl => ?_
  refine bind_congr_of_ok fun n w hn => ?_
  obtain rfl := ofExcept_ok hn
  rw [bind_of_ok (h r t hr i u l _ hi hl)]
  rfl

end

-- The state is the same afterwards, however the computation ends.
inductive Still {α : Type} (m : Run α) (s : State) : Prop
  | ok {a : α} (h : m s = .ok a s)
  | error {e : Signal} (h : m s = .error e s)

namespace Still

variable {α β : Type} {m : Run α} {s : State}

theorem eq_of_ok (hm : Still m s) {a : α} {t : State} (h : m s = .ok a t) : t = s := by
  cases hm with
  | ok h' =>
      rw [h] at h'
      cases h'
      rfl
  | error h' =>
      rw [h] at h'
      cases h'

theorem bind {k : α → Run β} (hm : Still m s) (hk : ∀ a, m s = .ok a s → Still (k a) s) : Still (m >>= k) s := by
  cases hm with
  | error h => exact .error (bind_of_error h k)
  | @ok a h =>
      cases hk a h with
      | ok h' => exact .ok ((bind_of_ok h k).trans h')
      | error h' => exact .error ((bind_of_ok h k).trans h')

theorem pure (a : α) : Still (Pure.pure a) s := .ok rfl

theorem ofExcept (x : Except Failure α) : Still (Machine.ofExcept x) s := by
  cases x with
  | ok a => exact .ok rfl
  | error f => exact .error rfl

theorem ite {c : Prop} [Decidable c] {m' : Run α} (hm : Still m s) (hm' : Still m' s) :
    Still (if c then m else m') s := by
  split <;> assumption

end Still

-- No variable has the text of an expression that assigns something.
def PureText (t : String) : Prop := ∀ x, Denotes t x → x.Pure

def State.PureTexts (s : State) : Prop := s.shell.env.Each fun _ t => PureText t

theorem pureText_empty : PureText "" := fun x hx => absurd hx (not_denotes_empty x)

section

variable {E : Engine} {s : State} (hs : s.PureTexts) (heval : ∀ depth x, x.Pure → Still (E.eval depth x) s)

include hs in
theorem pureText_of_get? {y : String} {v : Var} (hv : s.shell.env.get? y = some v) : PureText v.text ∧
    ∀ i, PureText ((nth? v.values i).getD "") := by
  have hall := Env.Each.get? hs hv
  refine ⟨?_, fun i => ?_⟩
  · rcases v.text_cases with htext | htext
    · exact htext ▸ pureText_empty
    · exact hall _ htext
  · cases hnth : nth? v.values i with
    | none => exact pureText_empty
    | some t => exact hall t (v.values_subset (mem_of_nth? hnth))

include heval

theorem still_textValue {t : String} (ht : PureText t) (depth : Nat) : Still (textValue E depth t) s := by
  rcases textValue_cases E t depth with ⟨r, hr⟩ | ⟨x, hx, hvalue⟩
  · rw [hr]
    exact .ofExcept r
  · rw [hvalue]
    exact heval depth x (ht x hx)

include hs

theorem still_elementValue (depth : Nat) (a : String) (i : Int) : Still (elementValue E depth a i) s := by
  refine (Still.ok rfl : Still (elementText a i) s).bind fun t ht => still_textValue heval ?_ (depth + 1)
  cases ht
  cases hget : s.shell.env.get? a with
  | none => exact pureText_empty
  | some v => exact (pureText_of_get? hs hget).2 i

theorem still_name (depth : Nat) (y : String) : Still (arith E depth (.var y none)) s := by
  rw [arith]
  cases hget : s.shell.env.get? y with
  | some v =>
      have htext : arithText E y none s = .ok v.text s := arithText_of_value (by rw [Env.value?, hget]; rfl)
      refine Still.bind (.ok htext) fun t ht => still_textValue heval ?_ (depth + 1)
      cases htext.symm.trans ht
      exact (pureText_of_get? hs hget).1
  | none =>
      have htext : arithText E y none s = (if s.shell.options.nounset then unbound y else pure "" : Run String) s := by
        unfold arithText
        rw [shell_bind, Env.value?, hget]
        rfl
      cases hstrict : s.shell.options.nounset with
      | true =>
          rw [hstrict] at htext
          exact Still.bind (.error htext) fun t ht => by cases htext.symm.trans ht
      | false =>
          rw [hstrict] at htext
          refine Still.bind (.ok htext) fun t ht => still_textValue heval ?_ (depth + 1)
          cases htext.symm.trans ht
          exact pureText_empty

-- One case for each form of expression.
theorem still_arith {x : Arith} (hx : x.Pure) (depth : Nat) : Still (arith E depth x) s := by
  induction hx generalizing depth with
  | num text =>
      rw [arith]
      exact .ofExcept _
  | name y => exact still_name hs heval depth y
  | element a _ ih =>
      rw [arith_element]
      exact (ih 0).bind fun i _ => still_elementValue hs heval depth a i
  | unary hop post _ ih =>
      unfold arith
      rw [if_neg (by simpa using hop)]
      exact (ih depth).bind fun n _ => .ofExcept _
  | binary hop _ _ ihx ihy =>
      unfold arith
      refine .ite ?_ (.ite ((ihx depth).bind fun _ _ => ihy depth) ?_)
      · exact (ihx depth).bind fun l _ => .ite (.pure _) ((ihy depth).bind fun r _ => .pure _)
      · rw [if_neg hop]
        exact (ihx depth).bind fun l _ => (ihy depth).bind fun r _ => .ofExcept _
  | cond _ _ ihc ihx =>
      unfold arith
      exact (ihc depth).bind fun n _ => .ite (ihx depth) (.pure 0)
  | ternary _ _ _ ihc ihx ihy =>
      unfold arith
      exact (ihc depth).bind fun n _ => .ite (ihx depth) (ihy depth)

theorem repeats_of_pure {e : Arith} (he : e.Pure) (depth : Nat) (a : String) : Repeats E depth a e s := by
  intro i t l u hi hl
  obtain rfl := (still_arith hs heval he 0).eq_of_ok hi
  obtain rfl := (still_elementValue hs heval depth a i).eq_of_ok hl
  exact hi

end

theorem still_eval (program : Program) (compiles : Bool) (rounds n : Nat) {s : State} (hs : s.PureTexts) (depth : Nat)
    {x : Arith} (hx : x.Pure) : Still ((engine program compiles rounds n).eval depth x) s := by
  induction n generalizing depth x with
  | zero => exact .error rfl
  | succ n ih =>
      change Still (arithAt (engine program compiles rounds n) depth x) s
      unfold arithAt
      exact .ite (.error rfl) (still_arith hs (fun depth x hx => ih depth hx) hx depth)

-- An assignment to an element evaluates the subscript once, after the value. `++`, `--` and the other assignments read
-- the element that one evaluation comes to and write the one that a second evaluation comes to, which is the same
-- as if there were only one if the second one repeats the first. It does for a subscript without assignments if no
-- variable stands for an expression that assigns something.
theorem element_assignments (E : Engine) (depth : Nat) (a : String) (e : Arith) :
    (∀ y, arith E depth (.binary .assign (.var a (some e)) y) = storeOnce E depth a e y) ∧
    (∀ op op' y, Arithmetic.ofAssign? op = some op' →
      arith E depth (.binary op (.var a (some e)) y) = updateBy (fun _ => arith E 0 e) E depth op' a e y ∧
        ∀ s, (∀ r t, arith E depth y s = .ok r t → Repeats E depth a e t) →
          arith E depth (.binary op (.var a (some e)) y) s = updateOnce E depth op' a e y s) ∧
    (∀ op post, op = .inc ∨ op = .dec →
      arith E depth (.unary op post (.var a (some e))) = stepBy (fun _ => arith E 0 e) E depth op post a e ∧
        ∀ s, Repeats E depth a e s →
          arith E depth (.unary op post (.var a (some e))) s = stepOnce E depth op post a e s) ∧
    ∀ program compiles rounds n, E = engine program compiles rounds n →
      e.Pure → ∀ s : State, s.PureTexts → Repeats E depth a e s := by
  refine ⟨arith_store_element E depth a e, fun op op' y hop => ?_, fun op post hop => ?_, ?_⟩
  · have hrun := arith_update_element E depth a e y hop
    exact ⟨hrun, fun s h => (congrFun hrun s).trans (updateBy_of_repeats h op')⟩
  · have hrun := arith_step_element E depth a e hop post
    exact ⟨hrun, fun s h => (congrFun hrun s).trans (stepBy_of_repeats h op post)⟩
  · rintro program compiles rounds n rfl he s hs
    exact repeats_of_pure hs (fun depth x hx => still_eval program compiles rounds n hs depth hx) he depth a

-- `a[i]++` where `i` is 2.
theorem element_step_of_name :
    let E := engine { name := "", main := default } true 1 3
    let s := State.ofValues [("i", "2")]
    arith E 0 (.unary .inc true (.var "a" (some (.var "i" none)))) s = stepOnce E 0 .inc true "a" (.var "i" none) s := by
  intro E s
  have hs : s.PureTexts := by
    intro scope hscope x hx t ht
    obtain rfl := List.mem_singleton.mp hscope
    obtain rfl := List.mem_singleton.mp hx
    obtain rfl := List.mem_singleton.mp ht
    exact fun x hx => absurd hx.1 (by decide +kernel)
  have h := element_assignments E 0 "a" (.var "i" none)
  exact (h.2.2.1 .inc true (.inl rfl)).2 s (h.2.2.2 _ true 1 3 rfl (.name "i") s hs)

-- `a[i++] += 1` where `i` is 0: reads the element 0, writes the element 1 and leaves 2 in `i`.
theorem subscript_evaluated_twice :
    let E := engine { name := "", main := default } true 1 3
    let e : Arith := .unary .inc true (.var "i" none)
    let texts : EStateM.Result Signal State Int → List (Option (List String)) := fun r =>
      match r with
      | .ok _ t => ["i", "a"].map fun y => (t.shell.env.get? y).map Var.values
      | .error _ _ => []
    texts (arith E 0 (.binary .addAssign (.var "a" (some e)) (.num "1")) (.ofValues [("i", "0")])) =
        [some ["2"], some ["", "1"]] ∧
      texts (updateOnce E 0 .add "a" e (.num "1") (.ofValues [("i", "0")])) = [some ["1"], some ["1"]] := by
  decide +kernel

end Machine
end ShellScript

import ShellScript.Proofs.Machine.RefusedWrite
import ShellScript.Proofs.Machine.ArithShortCut

-- Where the evaluation of values that are expressions themselves ends. Each value counts as one level of depth, but a
-- subscript begins to count anew, so what a variable's value has in a subscript must be of a lower rank than the variable.
namespace ShellScript

namespace Machine
namespace Env

-- A property of the texts of all variables is kept by each write whose text has it.

-- What holds of each text of each variable.
def Each (P : String → String → Prop) (e : Env) : Prop :=
  ∀ scope ∈ e.all, ∀ x ∈ scope, ∀ t ∈ x.2.value :: x.2.list, P x.1 t

variable {P : String → String → Prop} {e : Env}

theorem mem_of_lookup {name : String} {v : Var} {scope : Scope} (h : scope.lookup name = some v) : (name, v) ∈ scope := by
  induction scope with
  | nil => cases h
  | cons x scope ih =>
      obtain ⟨k, w⟩ := x
      rw [List.lookup_cons] at h
      cases hk : name == k with
      | true =>
          rw [hk] at h
          cases h
          exact beq_iff_eq.mp hk ▸ List.mem_cons_self
      | false =>
          rw [hk] at h
          exact List.mem_cons_of_mem _ (ih h)

theorem Each.get? (h : e.Each P) {name : String} {v : Var} (hv : e.get? name = some v) :
    ∀ t ∈ v.value :: v.list, P name t := by
  have hfound : ∃ scope ∈ e.all, (name, v) ∈ scope := by
    rw [Env.get?] at hv
    generalize e.all = ss at hv ⊢
    induction ss with
    | nil => cases hv
    | cons scope ss ih =>
        rw [findIn] at hv
        cases hscope : scope.lookup name with
        | some w =>
            rw [hscope] at hv
            cases hv
            exact ⟨scope, List.mem_cons_self, mem_of_lookup hscope⟩
        | none =>
            rw [hscope] at hv
            obtain ⟨scope', hmem, hv⟩ := ih hv
            exact ⟨scope', List.mem_cons_of_mem _ hmem, hv⟩
  obtain ⟨scope, hscope, hmem⟩ := hfound
  exact h scope hscope _ hmem

theorem mem_insert {name : String} {v : Var} {scope : Scope} {x : String × Var} (h : x ∈ Table.insert name v scope) :
    x = (name, v) ∨ x ∈ scope := by
  induction scope with
  | nil => exact .inl (List.mem_singleton.mp h)
  | cons y scope ih =>
      rw [Table.insert] at h
      split at h
      · exact (List.mem_cons.mp h).imp_right (List.mem_cons_of_mem _)
      · rcases List.mem_cons.mp h with rfl | h
        · exact .inr List.mem_cons_self
        · exact (ih h).imp_right (List.mem_cons_of_mem _)

theorem Each.put (h : e.Each P) {name : String} {v : Var} (hv : ∀ t ∈ v.value :: v.list, P name t) :
    (e.put name v).Each P := by
  have hins (scope : Scope) (hscope : ∀ x ∈ scope, ∀ t ∈ x.2.value :: x.2.list, P x.1 t) :
      ∀ x ∈ Table.insert name v scope, ∀ t ∈ x.2.value :: x.2.list, P x.1 t := by
    intro x hx
    rcases mem_insert hx with rfl | hx
    · exact hv
    · exact hscope x hx
  unfold Each at h ⊢
  rw [all_put]
  generalize e.all = ss at h
  induction ss with
  | nil => exact nofun
  | cons scope ss ih =>
      obtain ⟨hscope, hss⟩ := List.forall_mem_cons.mp h
      cases ss with
      | nil => exact List.forall_mem_cons.mpr ⟨hins scope hscope, nofun⟩
      | cons scope' ss =>
          rw [putIn]
          · split
            · exact List.forall_mem_cons.mpr ⟨hins scope hscope, hss⟩
            · exact List.forall_mem_cons.mpr ⟨hscope, ih hss⟩
          · exact List.cons_ne_nil scope' ss

theorem Each.set (h : e.Each P) {e' : Env} {name value : String} (hset : e.set name value = .ok e')
    (hvalue : P name value) : e'.Each P := by
  unfold Env.set at hset
  split at hset
  · cases hset
    exact h.put (by simpa using hvalue)
  · split at hset
    · cases hset
    · cases hset
      exact h.put (by simpa using hvalue)

theorem mem_setAt {i : Nat} {value t : String} {ts : List String} (h : t ∈ setAt i value ts) :
    t = value ∨ t = "" ∨ t ∈ ts := by
  induction i generalizing ts with
  | zero =>
      cases ts with
      | nil => exact .inl (List.mem_singleton.mp h)
      | cons t' ts => exact (List.mem_cons.mp h).imp_right fun h => .inr (List.mem_cons_of_mem _ h)
  | succ i ih =>
      cases ts with
      | nil =>
          rcases List.mem_cons.mp h with rfl | h
          · exact .inr (.inl rfl)
          · simpa using ih h
      | cons t' ts =>
          rcases List.mem_cons.mp h with rfl | h
          · exact .inr (.inr List.mem_cons_self)
          · exact (ih h).imp_right (Or.imp_right (List.mem_cons_of_mem _))

theorem Each.setIndex (h : e.Each P) {name value : String} {i : Int} (hvalue : P name value) (hempty : P name "") :
    (e.setIndex name i value).1.Each P := by
  have hnew : ∀ t ∈ ({ array := true } : Var).value :: ({ array := true } : Var).list, P name t :=
    List.forall_mem_singleton.mpr hempty
  unfold Env.setIndex
  dsimp only
  have hmade : (if (e.get? name).isSome then e else e.put name { array := true }).Each P := by
    split
    · exact h
    · exact h.put hnew
  generalize (if (e.get? name).isSome then e else e.put name { array := true }) = made at hmade ⊢
  have hvar : ∀ t ∈ ((made.get? name).getD {}).value :: ((made.get? name).getD {}).list, P name t := by
    cases hget : made.get? name with
    | none => exact List.forall_mem_singleton.mpr hempty
    | some v => exact hmade.get? hget
  generalize (made.get? name).getD {} = v at hvar ⊢
  have harray : ∀ t ∈ (if v.array then v else { v with array := true, list := [v.value], value := "" }).value ::
      (if v.array then v else { v with array := true, list := [v.value], value := "" }).list, P name t := by
    split
    · exact hvar
    · exact List.forall_mem_cons.mpr ⟨hempty, List.forall_mem_singleton.mpr (hvar _ List.mem_cons_self)⟩
  generalize (if v.array then v else { v with array := true, list := [v.value], value := "" }) = w at harray ⊢
  generalize (if i < 0 then i + (w.list.length : Int) else i) = i
  split
  · exact hmade
  split
  · exact hmade.put harray
  · refine hmade.put (List.forall_mem_cons.mpr ⟨harray _ List.mem_cons_self, fun t ht => ?_⟩)
    rcases mem_setAt ht with rfl | rfl | ht
    · exact hvalue
    · exact hempty
    · exact harray t (List.mem_cons_of_mem _ ht)

end Env
end Machine

namespace Program.Arith

-- No expansions. The variables outside of subscripts satisfy `p`, those in subscripts satisfy `q`.
inductive Mentions (q : String → Prop) : (String → Prop) → Arith → Prop
  | num {p : String → Prop} (text : String) : Mentions q p (.num text)
  | name {p : String → Prop} {y : String} (h : p y) : Mentions q p (.var y none)
  | element {p : String → Prop} {y : String} {i : Arith} (h : p y) (hi : Mentions q q i) : Mentions q p (.var y (some i))
  | binary {p : String → Prop} (op : Script.ArithOp) {x y : Arith} (hx : Mentions q p x) (hy : Mentions q p y) :
      Mentions q p (.binary op x y)
  | unary {p : String → Prop} (op : Script.ArithOp) (post : Bool) {x : Arith} (hx : Mentions q p x) :
      Mentions q p (.unary op post x)
  | cond {p : String → Prop} {c x : Arith} (hc : Mentions q p c) (hx : Mentions q p x) :
      Mentions q p (.ternary c x none)
  | ternary {p : String → Prop} {c x y : Arith} (hc : Mentions q p c) (hx : Mentions q p x) (hy : Mentions q p y) :
      Mentions q p (.ternary c x (some y))

-- The variables have at most the rank `r`, and those in subscripts a lower one.
def Ranked (rank : String → Nat) (r : Nat) : Arith → Prop := Mentions (rank · < r) (rank · ≤ r)

theorem Mentions.named {p q : String → Prop} {y : String} {index : Option Arith} (h : Mentions q p (.var y index)) :
    p y := by
  cases h with
  | name h => exact h
  | element h _ => exact h

theorem Mentions.subscript {p q : String → Prop} {y : String} {i : Arith} (h : Mentions q p (.var y (some i))) :
    Mentions q q i := by
  cases h with
  | element _ hi => exact hi

end Program.Arith

namespace Machine

open Program (Arith)
open Run

-- What an assignment leaves in a variable is a number.
theorem Arithmetic.isNumber_toString (n : Int) : isNumber (Text.trim (toString n)) = true := by
  have hdigit (m : Nat) : ∀ d ∈ Nat.toDigits 10 m, Text.isDigit d = true :=
    fun d hd => Nat.isDigit_of_mem_toDigits (by decide) (by decide) hd
  have hvisible (m : Nat) : ∀ d ∈ Nat.toDigits 10 m, 33 ≤ d.toNat ∧ d.toNat < 0x80 := fun d hd =>
    (range_of_isOperandChar (isOperandChar_of_isDigit (hdigit m d hd))).imp_left (le_trans (by decide))
  have hfirst (m : Nat) : ∃ c cs, Nat.toDigits 10 m = c :: cs ∧ Text.isDigit c = true := by
    obtain ⟨c, cs, hlist⟩ := List.exists_cons_of_ne_nil (Nat.toDigits_ne_nil (n := m) (b := 10))
    exact ⟨c, cs, hlist, hdigit m c (hlist ▸ List.mem_cons_self)⟩
  rw [Int.toString_eq_repr, Int.repr_eq_if]
  split
  · obtain ⟨c, cs, hlist, hc⟩ := hfirst n.toNat
    rw [Nat.repr_eq_ofList_toDigits, Text.trim_of_visible (hvisible _), isNumber, String.toList_ofList, hlist,
      splitSign_of_operandChar (isOperandChar_of_isDigit hc)]
    exact hc
  · obtain ⟨c, cs, hlist, hc⟩ := hfirst (-n).toNat
    have hneg : "-" ++ (-n).toNat.repr = String.ofList ('-' :: Nat.toDigits 10 (-n).toNat) := by
      rw [Nat.repr_eq_ofList_toDigits]
      exact (@String.ofList_append ['-'] _).symm
    rw [hneg, Text.trim_of_visible (List.forall_mem_cons.mpr ⟨by decide, hvisible _⟩), isNumber, String.toList_ofList, hlist]
    exact hc

-- The expression that a text is compiled to, if it is neither blank nor taken for a number.
def Denotes (t : String) (x : Arith) : Prop :=
  Arithmetic.isNumber (Text.trim t) = false ∧
    ∃ b, Program.compile "arith" ("((" ++ Text.trim t ++ "))") = .ok b ∧ b.stmts = [.arith x]

theorem Denotes.unique {t : String} {x y : Arith} (hx : Denotes t x) (hy : Denotes t y) : x = y := by
  obtain ⟨-, b, hb, hx⟩ := hx
  obtain ⟨-, b', hb', hy⟩ := hy
  rw [hb] at hb'
  cases hb'
  rw [hx] at hy
  cases hy
  rfl

theorem denotes_of_name {t : String} (ht : Text.isName (Text.trim t) = true) : Denotes t (.var (Text.trim t) none) := by
  refine ⟨?_, _, Program.compile_name ht, rfl⟩
  obtain ⟨c, cs, hlist, hc, hall⟩ := Program.exists_of_isName ht
  rw [hlist, Arithmetic.isNumber, String.toList_ofList,
    Arithmetic.splitSign_of_operandChar (hall c List.mem_cons_self)]
  exact hc

theorem not_denotes_empty (x : Arith) : ¬Denotes "" x := by
  rintro ⟨-, b, hb, -⟩
  have htrim : Text.trim "" = "" := by decide +kernel
  rw [htrim] at hb
  exact compile_empty b hb

-- A text is worth zero, is read as a number, fails to compile, or is evaluated as what it denotes.
theorem textValue_cases (E : Engine) (t : String) (depth : Nat) :
    (∃ r, textValue E depth t = ofExcept r) ∨ ∃ x, Denotes t x ∧ textValue E depth t = E.eval depth x := by
  unfold textValue
  dsimp only
  split
  · exact .inl ⟨.ok 0, rfl⟩
  split
  · exact .inl ⟨_, rfl⟩
  split
  · next hname => exact .inr ⟨_, denotes_of_name hname, rfl⟩
  · next hnumber _ =>
    unfold compileArith
    split
    · exact .inl ⟨.error _, rfl⟩
    split
    · exact .inl ⟨.error _, rfl⟩
    · next b hb =>
      split
      · next x hx => exact .inr ⟨x, ⟨Bool.not_eq_true _ ▸ hnumber, b, hb, hx⟩, rfl⟩
      · exact .inl ⟨.error _, rfl⟩

theorem textValue_of_denotes {E : Engine} {t : String} {x : Arith} (h : Denotes t x)
    (hcompiles : E.compiles = true ∨ Text.isName (Text.trim t) = true) (depth : Nat) :
    textValue E depth t = E.eval depth x := by
  rcases hcompiles with hcompiles | hname
  · obtain ⟨hnumber, b, hb, hx⟩ := h
    exact textValue_of_not_number (compileArith_of_stmts hcompiles hb hx) hnumber depth
  · obtain rfl := h.unique (denotes_of_name hname)
    have hempty : (Text.trim t).isEmpty = false := by
      rw [← Bool.not_eq_true, String.isEmpty_iff]
      intro hnil
      rw [hnil] at hname
      cases hname
    unfold textValue
    simp only [hempty, h.1, hname, Bool.false_eq_true, if_false, if_true]

-- What the text of a variable leads to has no higher rank, and in subscripts a lower one.
def RankedText (rank : String → Nat) (y t : String) : Prop := ∀ x, Denotes t x → x.Ranked rank (rank y)

def State.Ranked (rank : String → Nat) (s : State) : Prop := s.shell.env.Each (RankedText rank)

theorem rankedText_empty (rank : String → Nat) (y : String) : RankedText rank y "" :=
  fun x hx => absurd hx (not_denotes_empty x)

theorem rankedText_of_isNumber (rank : String → Nat) (y : String) {t : String}
    (ht : Arithmetic.isNumber (Text.trim t) = true) : RankedText rank y t :=
  fun _ hx => absurd ht (Bool.eq_false_iff.mp hx.1)

-- The computation ends by a result or by a failure, and leaves the variables ranked.
inductive Ends {α : Type} (rank : String → Nat) (Q : α → Prop) : EStateM.Result Signal State α → Prop
  | value {a : α} {t : State} (h : Q a) (ht : t.Ranked rank) : Ends rank Q (.ok a t)
  | failure (f : Failure) {t : State} (ht : t.Ranked rank) : Ends rank Q (.error (.fail f) t)

structure Settles {α : Type} (rank : String → Nat) (m : Run α) (Q : α → Prop) : Prop where
  ends : ∀ s : State, s.Ranked rank → Ends rank Q (m s)

theorem Var.text_cases (v : Var) : v.text = "" ∨ v.text ∈ v.value :: v.list := by
  obtain ⟨value, list, array⟩ := v
  cases array with
  | false => exact .inr List.mem_cons_self
  | true =>
      cases list with
      | nil => exact .inl rfl
      | cons t ts => exact .inr (List.mem_cons_of_mem _ List.mem_cons_self)

theorem Var.values_subset (v : Var) : v.values ⊆ v.value :: v.list := by
  unfold Var.values
  split
  · exact List.subset_cons_self _ _
  · exact List.cons_subset.mpr ⟨List.mem_cons_self, List.nil_subset _⟩

theorem mem_of_nth? {vs : List String} {i : Int} {t : String} (h : nth? vs i = some t) : t ∈ vs := by
  unfold nth? at h
  dsimp only at h
  generalize (if i < 0 then i + (vs.length : Int) else i) = j at h
  split at h
  · cases h
  · exact List.mem_of_getElem? h

namespace Settles

variable {α β : Type} {rank : String → Nat} {Q : α → Prop} {R : β → Prop}

theorem pure {a : α} (h : Q a) : Settles rank (Pure.pure a) Q := ⟨fun _ hs => .value h hs⟩

theorem bind {m : Run α} {k : α → Run β} (hm : Settles rank m Q) (hk : ∀ a, Q a → Settles rank (k a) R) :
    Settles rank (m >>= k) R := by
  refine ⟨fun s hs => ?_⟩
  have hend := hm.ends s hs
  cases hr : m s with
  | ok a t =>
      rw [hr] at hend
      rw [bind_of_ok hr]
      cases hend with
      | value h ht => exact (hk a h).ends t ht
  | error e t =>
      rw [hr] at hend
      rw [bind_of_error hr]
      cases hend with
      | failure f ht => exact .failure f ht

theorem ofExcept (x : Except Failure α) : Settles rank (Machine.ofExcept x) fun _ => True := by
  cases x with
  | ok a => exact pure trivial
  | error f => exact ⟨fun _ hs => .failure f hs⟩

theorem fail (f : Failure) : Settles rank (Run.fail f : Run α) Q := ⟨fun _ hs => .failure f hs⟩

theorem ite {c : Prop} [Decidable c] {m m' : Run α} (h : c → Settles rank m Q) (h' : ¬c → Settles rank m' Q) :
    Settles rank (if c then m else m') Q := by
  split
  · next hc => exact h hc
  · next hc => exact h' hc

end Settles

section

variable {rank : String → Nat} {E : Engine} {p q : String → Prop}

theorem settles_setVar {y t : String} (ht : Arithmetic.isNumber (Text.trim t) = true) :
    Settles rank (setVar y t) fun _ => True := by
  refine ⟨fun s hs => ?_⟩
  unfold setVar
  rw [shell_bind]
  cases hset : s.shell.env.set y t with
  | ok env => exact .value trivial (Env.Each.set hs hset (rankedText_of_isNumber rank y ht))
  | error f => exact .failure f hs

theorem settles_setIndex {y t : String} (i : Int) (ht : Arithmetic.isNumber (Text.trim t) = true) :
    Settles rank (setIndex y i t) fun _ => True := by
  refine ⟨fun s hs => ?_⟩
  have hset : (s.shell.env.setIndex y i t).1.Each (RankedText rank) :=
    Env.Each.setIndex hs (rankedText_of_isNumber rank y ht) (rankedText_empty rank y)
  unfold setIndex
  rw [shell_bind]
  cases hresult : s.shell.env.setIndex y i t with
  | mk env failure =>
      rw [hresult] at hset
      cases failure with
      | none => exact .value trivial hset
      | some f => exact .failure f hset

theorem settles_textValue {y t : String} {depth : Nat} (ht : RankedText rank y t)
    (heval : ∀ x : Arith, x.Ranked rank (rank y) → Settles rank (E.eval depth x) fun _ => True) :
    Settles rank (textValue E depth t) fun _ => True := by
  rcases textValue_cases E t depth with ⟨r, hr⟩ | ⟨x, hx, hvalue⟩
  · rw [hr]
    exact .ofExcept r
  · rw [hvalue]
    exact heval x (ht x hx)

theorem settles_arithText {y : String} {index : Option Arith}
    (hi : ∀ i, index = some i → Settles rank (arith E 0 i) fun _ => True) :
    Settles rank (arithText E y index) (RankedText rank y) := by
  have hvar {s : State} (hs : s.Ranked rank) {v : Var} (hv : s.shell.env.get? y = some v) :
      ∀ t ∈ v.value :: v.list, RankedText rank y t := Env.Each.get? hs hv
  cases index with
  | none =>
      refine ⟨fun s hs => ?_⟩
      unfold arithText
      rw [shell_bind, Env.value?]
      cases hget : s.shell.env.get? y with
      | none => exact (Settles.ite (fun _ => .fail _) fun _ => .pure (rankedText_empty rank y)).ends s hs
      | some v =>
          refine .value ?_ hs
          rcases v.text_cases with htext | htext
          · exact htext ▸ rankedText_empty rank y
          · exact hvar hs hget _ htext
  | some i =>
      unfold arithText
      refine (hi i rfl).bind fun n _ => ⟨fun s hs => .value ?_ hs⟩
      cases hget : s.shell.env.get? y with
      | none => exact rankedText_empty rank y
      | some v =>
          cases hnth : nth? v.values n with
          | none => simpa [hnth] using rankedText_empty rank y
          | some t => simpa [hnth] using hvar hs hget t (v.values_subset (mem_of_nth? hnth))

theorem settles_arithAssign {y : String} {index : Option Arith} (n : Int)
    (hi : ∀ i, index = some i → Settles rank (arith E 0 i) fun _ => True) :
    Settles rank (arithAssign E y n index) fun _ => True := by
  have hn := Arithmetic.isNumber_toString n
  cases index with
  | none => exact settles_setVar hn
  | some i => exact (hi i rfl).bind fun k _ => settles_setIndex k hn

theorem Arithmetic.isAssign_cases {op : Script.ArithOp} (h : isAssign op = true) :
    op = .assign ∨ ∃ op', ofAssign? op = some op' := by
  rw [isAssign, Bool.or_eq_true] at h
  exact h.imp beq_iff_eq.mp Option.isSome_iff_exists.mp

theorem Arithmetic.not_lazy_of_isAssign {op : Script.ArithOp} (h : isAssign op = true) :
    ¬(op == .land || op == .lor) = true ∧ ¬(op == .comma) = true := by
  revert h
  cases op <;> decide

theorem arith_store (E : Engine) (depth : Nat) (y : String) (index : Option Arith) (x : Arith) :
    arith E depth (.binary .assign (.var y index) x) = (do
      let r ← arith E depth x
      arithAssign E y r index
      return r) := by
  rw [arith]
  rfl

theorem arith_update {E : Engine} {depth : Nat} {op op' : Script.ArithOp} (hop : Arithmetic.ofAssign? op = some op')
    (y : String) (index : Option Arith) (x : Arith) :
    arith E depth (.binary op (.var y index) x) = (do
      let r ← arith E depth x
      let l ← arith E depth (.var y index)
      let r ← ofExcept (Arithmetic.binary op' l r)
      arithAssign E y r index
      return r) := by
  have hassign : Arithmetic.isAssign op = true := by simp [Arithmetic.isAssign, hop]
  obtain ⟨hlogic, hcomma⟩ := Arithmetic.not_lazy_of_isAssign hassign
  rw [arith, arith, if_neg hlogic, if_neg hcomma, if_pos hassign, hop]
  simp only [bind_assoc]

theorem arith_step {E : Engine} {depth : Nat} {op : Script.ArithOp} (hop : op = .inc ∨ op = .dec) (post : Bool)
    (y : String) (index : Option Arith) :
    arith E depth (.unary op post (.var y index)) = (do
      let old ← arith E depth (.var y index)
      let n := Text.wrap64 (if op == .inc then old + 1 else old - 1)
      arithAssign E y n index
      return if post then old else n) := by
  rw [arith, arith, if_pos (by simpa using hop)]
  simp only [bind_assoc]

-- The values that an expression comes to are those of the variables that it mentions.
theorem settles_arith (hq : ∀ y, q y → ∀ x : Arith, x.Ranked rank (rank y) → Settles rank (E.eval 1 x) fun _ => True) :
    ∀ (x : Arith) {p : String → Prop} (depth : Nat), x.Mentions q p →
      (∀ y, p y → ∀ x : Arith, x.Ranked rank (rank y) → Settles rank (E.eval (depth + 1) x) fun _ => True) →
      Settles rank (arith E depth x) fun _ => True
  | .num text, p, depth, hx, hp => by
      rw [arith]
      exact Settles.ofExcept (Arithmetic.number text)
  | .var y index, p, depth, hx, hp => by
      have hi : ∀ i, index = some i → Settles rank (arith E 0 i) fun _ => True := by
        rintro i rfl
        exact settles_arith hq i 0 hx.subscript hq
      rw [arith]
      exact (settles_arithText hi).bind fun t ht => settles_textValue ht (hp y hx.named)
  | .word w, p, depth, hx, hp => nomatch hx
  | .ternary c x y, p, depth, hx, hp => by
      have hc : c.Mentions q p := by cases hx <;> assumption
      have hx' : x.Mentions q p := by cases hx <;> assumption
      unfold arith
      refine (settles_arith hq c depth hc hp).bind fun n _ => .ite (fun _ => settles_arith hq x depth hx' hp) fun _ => ?_
      cases hx with
      | cond => exact .pure trivial
      | ternary _ _ hy => exact settles_arith hq _ depth hy hp
  | .unary op post x, p, depth, hx, hp => by
      have hx' : x.Mentions q p := by cases hx; assumption
      have hvalue := settles_arith hq x depth hx' hp
      by_cases hstep : op = .inc ∨ op = .dec
      · cases x with
        | var y index =>
            have hi : ∀ i, index = some i → Settles rank (arith E 0 i) fun _ => True := by
              rintro i rfl
              exact settles_arith hq i 0 hx'.subscript hq
            rw [arith_step hstep]
            exact hvalue.bind fun old _ => (settles_arithAssign _ hi).bind fun _ _ => .pure trivial
        | _ =>
            unfold arith
            rw [if_pos (by simpa using hstep)]
            exact .fail _
      · unfold arith
        rw [if_neg (by simpa using hstep)]
        exact hvalue.bind fun n _ => .ofExcept _
  | .binary op x y, p, depth, hx, hp => by
      obtain ⟨hx', hy⟩ : x.Mentions q p ∧ y.Mentions q p := by
        cases hx
        constructor <;> assumption
      have hleft := settles_arith hq x depth hx' hp
      have hright := settles_arith hq y depth hy hp
      by_cases hassign : Arithmetic.isAssign op = true
      · cases x with
        | var z index =>
            have hi : ∀ i, index = some i → Settles rank (arith E 0 i) fun _ => True := by
              rintro i rfl
              exact settles_arith hq i 0 hx'.subscript hq
            have hstore (n : Int) := settles_arithAssign (y := z) n hi
            obtain rfl | ⟨op', hop⟩ := Arithmetic.isAssign_cases hassign
            · rw [arith_store]
              exact hright.bind fun r _ => (hstore r).bind fun _ _ => .pure trivial
            · rw [arith_update hop]
              refine hright.bind fun r _ => hleft.bind fun l _ => (Settles.ofExcept _).bind fun n _ => ?_
              exact (hstore n).bind fun _ _ => .pure trivial
        | _ =>
            obtain ⟨hlogic, hcomma⟩ := Arithmetic.not_lazy_of_isAssign hassign
            unfold arith
            rw [if_neg hlogic, if_neg hcomma, if_pos hassign]
            exact .fail _
      · unfold arith
        refine .ite (fun _ => ?_) fun _ => .ite (fun _ => hleft.bind fun _ _ => hright) fun _ => ?_
        · exact hleft.bind fun l _ => .ite (fun _ => .pure trivial) fun _ => hright.bind fun r _ => .pure trivial
        · rw [if_neg hassign]
          exact hleft.bind fun l _ => hright.bind fun r _ => .ofExcept _
termination_by x => sizeOf x
decreasing_by
  all_goals
    subst_vars
    simp_wf <;> omega

end

section

variable (program : Program) (compiles : Bool) (rounds : Nat) {rank : String → Nat}

-- A value takes one level and goes one deeper; a subscript begins anew but has a lower rank.
theorem settles_arithAt {n r depth : Nat} {x : Arith} (hx : x.Ranked rank r)
    (hn : maxArithDepth < depth ∨ (maxArithDepth + 1) * (r + 1) ≤ n + depth) :
    Settles rank (arithAt (engine program compiles rounds n) depth x) fun _ => True := by
  induction n generalizing r depth x with
  | zero =>
      have hdepth : maxArithDepth < depth := by
        simp only [maxArithDepth] at hn ⊢
        omega
      rw [arithAt, if_pos hdepth]
      exact .fail _
  | succ n ih =>
      simp only [maxArithDepth] at hn ih
      rw [arithAt]
      refine .ite (fun _ => .fail _) fun hdepth => ?_
      simp only [maxArithDepth] at hdepth
      have hbelow : ∀ y, rank y < r → ∀ x : Arith, x.Ranked rank (rank y) →
          Settles rank (arithAt (engine program compiles rounds n) 1 x) fun _ => True :=
        fun y hy x hx => ih hx (by omega)
      exact settles_arith hbelow x depth hx fun y hy x hx => ih hx (by omega)

end

end Machine
end ShellScript

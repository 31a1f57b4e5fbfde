import ShellScript.Proofs.Machine.ControlFlow
import ShellScript.Proofs.Program.Lowering
import ShellScript.Proofs.Program.Operand
import ShellScript.Proofs.Text.Numeral
import ShellScript.Proofs.Text.Characters

-- The short cuts past the compiler that the evaluation of a text takes: they answer as the compiled text does for names
-- and for literals, but a text that only begins with a digit is taken for a literal too, and fails.
namespace ShellScript
namespace Machine
namespace Arithmetic

open Script.Read (isOperandChar)

-- A number as it is written in an expression: a sign or none, a digit, and what an operand goes on with.
def isLiteral (t : String) : Bool := isNumber t && (Text.splitSign t.toList).2.all isOperandChar

theorem isOperandChar_of_isNumeralChar {c : Char} (h : Text.isNumeralChar c = true) : isOperandChar c = true := by
  simp only [Text.isNumeralChar, Text.digitValue?] at h
  simp only [isOperandChar, Text.isNameChar, Text.isNameStart]
  split at h
  · simp_all
  split at h
  · simp_all
  split at h
  · simp_all
  · simp_all

theorem isOperandChar_of_isDigit {c : Char} (h : Text.isDigit c = true) : isOperandChar c = true := by
  simp [isOperandChar, Text.isNameChar, h]

theorem range_of_isOperandChar {c : Char} (h : isOperandChar c = true) : 35 ≤ c.toNat ∧ c.toNat < 0x80 := by
  have hle (a b : Char) (hab : a ≤ c ∧ c ≤ b) : a.toNat ≤ c.toNat ∧ c.toNat ≤ b.toNat := hab
  have hrange (a b : Char) (hab : a ≤ c ∧ c ≤ b) (ha : 35 ≤ a.toNat) (hb : b.toNat < 0x80) :
      35 ≤ c.toNat ∧ c.toNat < 0x80 :=
    ⟨ha.trans (hle a b hab).1, (hle a b hab).2.trans_lt hb⟩
  simp only [isOperandChar, Text.isNameChar, Text.isNameStart, Text.isLower, Text.isUpper, Text.isDigit,
    Bool.or_eq_true, Bool.and_eq_true, decide_eq_true_eq, beq_iff_eq] at h
  rcases h with ((((((rfl | h) | h) | h) | rfl) | rfl) | rfl)
  · decide
  · exact hrange _ _ h (by decide) (by decide)
  · exact hrange _ _ h (by decide) (by decide)
  · exact hrange _ _ h (by decide) (by decide)
  all_goals decide

-- What the digits of a number come to, or what is wrong with them.
def magnitude (cs : List Char) : Except String Int :=
  match Text.cut? '#' (String.ofList cs) with
  | some (b, digits) =>
    match Text.int64? b with
    | some base =>
      if base < 2 || base > 64 then .error "invalid base"
      else ((inBase base.toNat digits).elim (.error "value too great for base") .ok)
    | none => .error "invalid base"
  | none => (Text.int64 0 (String.ofList cs)).toOption.elim (.error "value too great for base") .ok

def signed (neg : Bool) (n : Int) : Int := if neg then Text.wrap64 (-n) else n

theorem number_eq (t : String) :
    number t = match magnitude (Text.splitSign (Text.trim t).toList).2 with
      | .ok n => .ok (signed (Text.splitSign (Text.trim t).toList).1 n)
      | .error what => malformed t what := by
  unfold number magnitude
  dsimp only
  cases Text.cut? '#' (String.ofList (Text.splitSign (Text.trim t).toList).2) with
  | none =>
      dsimp only
      cases (Text.int64 0 (String.ofList (Text.splitSign (Text.trim t).toList).2)).toOption <;> rfl
  | some r =>
      dsimp only
      cases Text.int64? r.1 with
      | none => rfl
      | some base =>
          dsimp only
          cases decide (base < 2) || decide (base > 64) with
          | true => rfl
          | false => cases inBase base.toNat r.2 <;> rfl

theorem splitSign_of_operandChar {c : Char} (hc : isOperandChar c = true) (cs : List Char) :
    Text.splitSign (c :: cs) = (false, c :: cs) := by
  unfold Text.splitSign
  split
  · next h =>
    cases h
    exact absurd hc (by decide)
  · next h =>
    cases h
    exact absurd hc (by decide)
  · rfl

theorem number_of_operand {cs : List Char} (hcs : ∀ c ∈ cs, isOperandChar c = true)
    (hdigit : cs.head?.any Text.isDigit = true) :
    number (String.ofList cs) = match magnitude cs with
      | .ok n => .ok n
      | .error what => malformed (String.ofList cs) what := by
  have htrim : Text.trim (String.ofList cs) = String.ofList cs :=
    Text.trim_of_visible fun c hc => (range_of_isOperandChar (hcs c hc)).imp_left (le_trans (by decide))
  cases cs with
  | nil => cases hdigit
  | cons c cs =>
      rw [number_eq, htrim, String.toList_ofList, splitSign_of_operandChar (hcs c List.mem_cons_self)]
      rfl

theorem number_of_sign {c : Char} {op : Script.ArithOp} (hop : Script.Read.signOp? c = some op) {cs : List Char}
    (hcs : ∀ c ∈ cs, isOperandChar c = true) :
    number (String.ofList (c :: cs)) = match magnitude cs with
      | .ok n => .ok (signed (op == .sub) n)
      | .error what => malformed (String.ofList (c :: cs)) what := by
  have htrim : Text.trim (String.ofList (c :: cs)) = String.ofList (c :: cs) := by
    refine Text.trim_of_visible (List.forall_mem_cons.mpr ⟨?_, fun c hc => ?_⟩)
    · obtain ⟨rfl, -⟩ | ⟨rfl, -⟩ := Script.Read.signOp?_eq hop <;> decide
    · exact (range_of_isOperandChar (hcs c hc)).imp_left (le_trans (by decide))
  rw [number_eq, htrim, String.toList_ofList]
  obtain ⟨rfl, rfl⟩ | ⟨rfl, rfl⟩ := Script.Read.signOp?_eq hop <;> rfl

-- A base with a number behind it that has a sign of its own.
def IsRebased (t : String) : Prop := ['#', '-'] <:+: t.toList ∨ ['#', '+'] <:+: t.toList

theorem wideDigits_all {base : Nat} {v n : Int} {cs : List Char} (h : wideDigits base v cs = some n) :
    ∀ c ∈ cs, isOperandChar c = true := by
  induction cs generalizing v with
  | nil => simp
  | cons c cs ih =>
      rw [wideDigits] at h
      split at h
      · next d hd =>
        have hc : isOperandChar c = true := by
          simp only [isOperandChar, Text.isNameChar, Text.isNameStart]
          unfold wideDigit? at hd
          repeat' split at hd
          all_goals simp_all
        split at h
        · exact List.forall_mem_cons.mpr ⟨hc, ih h⟩
        · cases h
      · cases h

theorem splitSign_suffix (cs : List Char) : (Text.splitSign cs).2 <:+ cs := by
  unfold Text.splitSign
  split
  · exact List.suffix_cons _ _
  · exact List.suffix_cons _ _
  · exact List.suffix_rfl

theorem inBase_all {base : Nat} {digits : String} {n : Int} (h : inBase base digits = some n) :
    ∀ c ∈ (Text.splitSign digits.toList).2, isOperandChar c = true := by
  unfold inBase at h
  split at h
  · exact fun c hc => isOperandChar_of_isNumeralChar (Text.int64_all h c hc)
  · exact fun c hc => wideDigits_all h c ((splitSign_suffix _).mem hc)

-- A number is read as a whole, or as a base and digits.
theorem magnitude_cases {cs : List Char} {n : Int} (h : magnitude cs = .ok n) :
    (∃ m, (Text.int64 0 (String.ofList cs)).toOption = some m) ∨
      ∃ b digits base m, cs = b.toList ++ '#' :: digits.toList ∧ Text.int64? b = some base ∧
        inBase base.toNat digits = some m := by
  unfold magnitude at h
  cases hcut : Text.cut? '#' (String.ofList cs) with
  | none =>
      rw [hcut] at h
      dsimp only at h
      cases hread : (Text.int64 0 (String.ofList cs)).toOption with
      | none =>
          rw [hread] at h
          cases h
      | some m => exact .inl ⟨m, rfl⟩
  | some r =>
      obtain ⟨b, digits⟩ := r
      have hparts := Program.toList_of_cut? hcut
      rw [String.toList_ofList] at hparts
      rw [hcut] at h
      dsimp only at h
      cases hbase : Text.int64? b with
      | none =>
          rw [hbase] at h
          cases h
      | some base =>
          rw [hbase] at h
          dsimp only at h
          split at h
          · cases h
          cases hdigits : inBase base.toNat digits with
          | none =>
              rw [hdigits] at h
              cases h
          | some m => exact .inr ⟨b, digits, base, m, hparts, hbase, hdigits⟩

-- Neither the base nor the digits have a sign where the number begins with a digit and no sign follows the mark.
theorem base_unsigned {c : Char} {cs bs ds : List Char} (hc : Text.isDigit c = true) (h : c :: cs = bs ++ '#' :: ds) :
    (Text.splitSign bs).2 = bs := by
  cases bs with
  | nil =>
      obtain ⟨rfl, -⟩ := List.cons.inj h
      exact absurd hc (by decide)
  | cons b bs =>
      obtain ⟨rfl, -⟩ := List.cons.inj h
      rw [splitSign_of_operandChar (isOperandChar_of_isDigit hc)]

theorem digits_unsigned {bs ds : List Char} (h : ¬IsRebased (String.ofList (bs ++ '#' :: ds))) :
    (Text.splitSign ds).2 = ds := by
  rw [IsRebased, String.toList_ofList] at h
  unfold Text.splitSign
  split
  · next ds => exact absurd (.inl ⟨bs, ds, List.append_assoc bs _ ds⟩) h
  · next ds => exact absurd (.inr ⟨bs, ds, List.append_assoc bs _ ds⟩) h
  · rfl

-- What is read as a number has operand characters alone, but for its signs.
theorem magnitude_all {c : Char} {cs : List Char} {n : Int} (h : magnitude (c :: cs) = .ok n)
    (hdigit : Text.isDigit c = true) (hrebased : ¬IsRebased (String.ofList (c :: cs))) :
    ∀ d ∈ c :: cs, isOperandChar d = true := by
  obtain ⟨m, hread⟩ | ⟨b, digits, base, m, hparts, hbase, hdigits⟩ := magnitude_cases h
  · have hall := Text.int64_all hread
    rw [String.toList_ofList, splitSign_of_operandChar (isOperandChar_of_isDigit hdigit)] at hall
    exact fun d hd => isOperandChar_of_isNumeralChar (hall d hd)
  · have hleft := Text.int64?_all hbase
    have hright := inBase_all hdigits
    rw [base_unsigned hdigit hparts] at hleft
    rw [digits_unsigned (hparts ▸ hrebased)] at hright
    intro d hd
    rw [hparts, List.mem_append, List.mem_cons] at hd
    rcases hd with hd | rfl | hd
    · exact isOperandChar_of_isNumeralChar (hleft d hd)
    · decide
    · exact hright d hd

end Arithmetic

open Program (Arith)
open Run
open Script.Read (isOperandChar signOp?)

-- The same value and state, or failures that differ in their details only.
inductive SameAnswer : EStateM.Result Signal State Int → EStateM.Result Signal State Int → Prop
  | value (n : Int) (s : State) : SameAnswer (.ok n s) (.ok n s)
  | failure {f f' : Failure} (s : State) (h : f.cause = f'.cause) : SameAnswer (.error (.fail f) s) (.error (.fail f') s)

theorem compileArith_of_compile {E : Engine} {t : String} {a x : Arith}
    (hcompile : Program.compile "arith" ("((" ++ t ++ "))") = .ok ⟨"arith", [.arith a]⟩)
    (h : compileArith E t = pure x) : a = x := by
  unfold compileArith at h
  rw [hcompile] at h
  split at h
  · cases congrFun h {}
  · cases congrFun h {}
    rfl

theorem compileArith_of_stmts {E : Engine} {t : String} {b : Program.Block} {x : Arith} (hcompiles : E.compiles = true)
    (h : Program.compile "arith" ("((" ++ t ++ "))") = .ok b) (hb : b.stmts = [.arith x]) : compileArith E t = pure x := by
  unfold compileArith
  rw [hcompiles, h]
  dsimp only
  rw [hb]
  rfl

theorem compile_empty (b : Program.Block) : Program.compile "arith" ("((" ++ "" ++ "))") ≠ .ok b := by
  have hfails : (Program.compile "arith" ("((" ++ "" ++ "))")).toOption.isNone = true := by decide +kernel
  intro h
  rw [h] at hfails
  cases hfails

theorem not_compiles_empty {E : Engine} {x : Arith} : compileArith E "" ≠ pure x := by
  intro h
  unfold compileArith at h
  split at h
  · cases congrFun h {}
  · split at h
    · cases congrFun h {}
    · next hb => exact compile_empty _ hb

-- A text that does not begin like a number is evaluated as it is compiled.
theorem textValue_of_not_number {E : Engine} {v : String} {x : Arith} (h : compileArith E (Text.trim v) = pure x)
    (hnumber : Arithmetic.isNumber (Text.trim v) = false) (depth : Nat) : textValue E depth v = E.eval depth x := by
  unfold textValue
  dsimp only
  generalize Text.trim v = t at h hnumber
  have hempty : t.isEmpty = false := by
    rw [← Bool.not_eq_true, String.isEmpty_iff]
    rintro rfl
    exact not_compiles_empty h
  rw [hempty, hnumber]
  simp only [Bool.false_eq_true, if_false]
  split
  · next hname =>
    rw [compileArith_of_compile (Program.compile_name hname) h]
  · rw [h]
    rfl

-- What is taken for a number without being compiled.
theorem textValue_of_number (E : Engine) {v : String} (h : Arithmetic.isNumber (Text.trim v) = true) (depth : Nat) :
    textValue E depth v = ofExcept (Arithmetic.number (Text.trim v)) := by
  unfold textValue
  dsimp only
  have hempty : (Text.trim v).isEmpty = false := by
    rw [← Bool.not_eq_true, String.isEmpty_iff]
    intro hnil
    rw [hnil] at h
    cases h
  rw [hempty, h]
  simp only [Bool.false_eq_true, if_false, if_true]

-- The two ways in which a literal is written.
theorem exists_of_isLiteral {t : String} (h : Arithmetic.isLiteral t = true) :
    ∃ c cs, Text.isDigit c = true ∧ (∀ d ∈ c :: cs, isOperandChar d = true) ∧
      (t = String.ofList (c :: cs) ∨ ∃ s op, signOp? s = some op ∧ t = String.ofList (s :: c :: cs)) := by
  obtain ⟨hnumber, hall⟩ := Bool.and_eq_true_iff.mp h
  have hback : t = String.ofList t.toList := String.ofList_toList.symm
  unfold Arithmetic.isNumber at hnumber
  cases hsplit : (Text.splitSign t.toList).2 with
  | nil =>
      rw [hsplit] at hnumber
      cases hnumber
  | cons c cs =>
      rw [hsplit] at hnumber hall
      refine ⟨c, cs, hnumber, List.all_eq_true.mp hall, ?_⟩
      unfold Text.splitSign at hsplit
      split at hsplit
      · next ds hds =>
        cases hsplit
        exact .inr ⟨'-', .sub, rfl, hds ▸ hback⟩
      · next ds hds =>
        cases hsplit
        exact .inr ⟨'+', .add, rfl, hds ▸ hback⟩
      · have hlist : t.toList = c :: cs := hsplit
        exact .inl (hlist ▸ hback)

theorem arith_of_literal {E : Engine} {t : String} {x : Arith} (ht : Arithmetic.isLiteral t = true)
    (h : compileArith E t = pure x) (E' : Engine) (depth : Nat) (s : State) :
    SameAnswer (ofExcept (Arithmetic.number t) s) (arith E' depth x s) := by
  obtain ⟨c, cs, hc, hcs, rfl | ⟨sign, op, hop, rfl⟩⟩ := exists_of_isLiteral ht
  · obtain rfl := compileArith_of_compile (Program.compile_number hc hcs) h
    rw [arith]
    cases Arithmetic.number (String.ofList (c :: cs)) with
    | ok n => exact .value n s
    | error f => exact .failure s rfl
  · obtain rfl := compileArith_of_compile (Program.compile_sign hop hc hcs) h
    have hsign : arith E' depth (.unary op false (.num (String.ofList (c :: cs)))) = (do
        ofExcept (Arithmetic.unary op (← ofExcept (Arithmetic.number (String.ofList (c :: cs)))))) := by
      obtain ⟨-, rfl⟩ | ⟨-, rfl⟩ := Script.Read.signOp?_eq hop <;> simp only [arith] <;> rfl
    rw [hsign, Arithmetic.number_of_sign hop hcs, Arithmetic.number_of_operand hcs hc]
    cases Arithmetic.magnitude (c :: cs) with
    | ok n =>
        obtain ⟨-, rfl⟩ | ⟨-, rfl⟩ := Script.Read.signOp?_eq hop
        · exact .value _ s
        · exact .value _ s
    | error what => exact .failure s rfl

-- What is taken for a number and is none fails, whatever it would come to.
theorem number_fails {t : String} (htrim : Text.trim t = t) (hnumber : Arithmetic.isNumber t = true)
    (hliteral : Arithmetic.isLiteral t = false) (hrebased : ¬Arithmetic.IsRebased t) :
    ∃ f, f.cause = .arith ∧ Arithmetic.number t = .error f := by
  rw [Arithmetic.number_eq, htrim]
  cases hvalue : Arithmetic.magnitude (Text.splitSign t.toList).2 with
  | error what => exact ⟨_, rfl, rfl⟩
  | ok n =>
      rw [Arithmetic.isLiteral, hnumber, Bool.true_and] at hliteral
      refine absurd ?_ (Bool.eq_false_iff.mp hliteral)
      unfold Arithmetic.isNumber at hnumber
      cases hsplit : (Text.splitSign t.toList).2 with
      | nil => rfl
      | cons c cs =>
          rw [hsplit] at hnumber hvalue
          have hinfix : c :: cs <:+ t.toList := hsplit ▸ Arithmetic.splitSign_suffix t.toList
          refine List.all_eq_true.mpr (Arithmetic.magnitude_all hvalue hnumber fun h => hrebased ?_)
          rw [Arithmetic.IsRebased, String.toList_ofList] at h
          exact h.imp (·.trans hinfix.isInfix) (·.trans hinfix.isInfix)

section

variable (program : Program) (compiles : Bool) (rounds n depth : Nat)

-- The value of a text that can be compiled is that of the compiled text if the text does not begin like a number, and
-- also if it is a literal, up to the depth at which nothing is evaluated any more. What else begins like a number fails
-- without being compiled, unless there is a sign between a base and its digits.
theorem textValue_of_compiles {v : String} {x : Arith}
    (h : compileArith (engine program compiles rounds (n + 1)) (Text.trim v) = pure x) :
    (Arithmetic.isNumber (Text.trim v) = false →
      textValue (engine program compiles rounds (n + 1)) depth v = arithAt (engine program compiles rounds n) depth x) ∧
    (Arithmetic.isLiteral (Text.trim v) = true → depth ≤ maxArithDepth → ∀ s,
      SameAnswer (textValue (engine program compiles rounds (n + 1)) depth v s)
        (arithAt (engine program compiles rounds n) depth x s)) ∧
    (Arithmetic.isNumber (Text.trim v) = true → Arithmetic.isLiteral (Text.trim v) = false →
      ¬Arithmetic.IsRebased (Text.trim v) → ∀ s, ∃ f : Failure, f.cause = .arith ∧
        textValue (engine program compiles rounds (n + 1)) depth v s = .error (.fail f) s) := by
  refine ⟨fun hnumber => textValue_of_not_number h hnumber depth, fun hliteral hdepth s => ?_, ?_⟩
  · have hnumber := (Bool.and_eq_true_iff.mp hliteral).1
    rw [textValue_of_number _ hnumber, arithAt, if_neg (Nat.not_lt.mpr hdepth)]
    exact arith_of_literal hliteral h _ depth s
  · intro hnumber hliteral hrebased s
    obtain ⟨f, hcause, hfails⟩ := number_fails (Text.trim_trim v) hnumber hliteral hrebased
    refine ⟨f, hcause, ?_⟩
    rw [textValue_of_number _ hnumber, hfails]
    rfl

end

-- ` -12 `.
theorem textValue_of_signed_literal :
    let program : Program := { name := "", main := default }
    compileArith (engine program true 1 2) (Text.trim " -12 ") = pure (.unary .sub false (.num "12")) ∧
      SameAnswer (textValue (engine program true 1 2) 0 " -12 " {})
        (arithAt (engine program true 1 1) 0 (.unary .sub false (.num "12")) {}) := by
  intro program
  have htrim : Text.trim " -12 " = String.ofList ['-', '1', '2'] := by decide +kernel
  have hcompile : compileArith (engine program true 1 2) (Text.trim " -12 ") = pure (.unary .sub false (.num "12")) := by
    rw [htrim, compileArith, Program.compile_sign (show signOp? '-' = some .sub from rfl) (by decide) (List.all_eq_true.mp rfl)]
    rfl
  exact ⟨hcompile, (textValue_of_compiles program true 1 1 0 hcompile).2.1 (by rw [htrim]; decide) (by decide) {}⟩

-- `1+2` is taken for a number.
theorem sum_taken_for_number :
    let E := engine { name := "", main := default } true 1 2
    (match (compileArith E "1+2" >>= arithAt E 0) {} with
      | .ok n _ => some n
      | .error _ _ => none) = some 3 ∧
      signalOf (textValue E 0 "1+2" {}) =
        some (.fail { cause := .arith, details := ["1+2", "value too great for base"] }) := by
  decide +kernel

end Machine
end ShellScript

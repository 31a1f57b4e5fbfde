import Mathlib.Data.Nat.Digits.Defs
import ShellScript.Proofs.Machine.ArithRank
import ShellScript.Proofs.Machine.Parameter
import ShellScript.Proofs.Text.Characters

-- Whole numbers as texts. What is stored of a number is its decimal text, and reading that gives the number back, unless it
-- is the least one; a number with a base in front is worth what its digits come to.
namespace ShellScript
namespace Machine

open Program (Arith)
open Run

namespace Arithmetic

theorem trim_toString (n : Int) : Text.trim (toString n) = toString n := by
  have hdigits : ∀ d ∈ Nat.toDigits 10 n.natAbs, 33 ≤ d.toNat ∧ d.toNat < 0x80 := fun d hd =>
    (range_of_isOperandChar (isOperandChar_of_isDigit (Text.isDigit_of_mem_toDigits d hd))).imp_left (le_trans (by decide))
  have hsign : ∀ c ∈ Text.signOf n, 33 ≤ c.toNat ∧ c.toNat < 0x80 := by
    unfold Text.signOf
    split <;> simp
  rw [Text.toString_eq_ofList, Text.trim_of_visible (List.forall_mem_append.mpr ⟨hsign, hdigits⟩)]

def tooGreat (text : String) : Failure := { cause := .arith, details := [text, "value too great for base"] }

-- A number of 64 bits is read as it is written.
theorem number_toString {n : Int} (hn : (n.natAbs : Int) ≤ Text.maxInt64) : number (toString n) = .ok n := by
  have hnohash : Text.cut? '#' (String.ofList (Nat.toDigits 10 n.natAbs)) = none := by
    refine Option.eq_none_iff_forall_ne_some.mpr fun ⟨front, back⟩ h => ?_
    have hdigits := Text.isDigit_of_mem_toDigits (m := n.natAbs)
    have hsplit := Program.toList_of_cut? h
    rw [String.toList_ofList] at hsplit
    exact absurd (hdigits '#' (by simp [hsplit])) (by decide)
  have hnegated : Text.wrap64 (-(n.natAbs : Int)) = -n.natAbs := by
    refine Text.wrap64_of_inInt64 (Text.inInt64_iff.mpr ?_)
    simp only [Text.maxInt64] at hn
    omega
  have hsigned := Text.splitSign_signOf (n := n) (Text.isDigit_of_mem_toDigits (m := n.natAbs))
  have hread : (Text.int64 0 (String.ofList (Nat.toDigits 10 n.natAbs))).toOption = some (n.natAbs : Int) :=
    congrArg Text.Numeral.toOption (Text.int64_toDigits hn)
  unfold number
  simp only [trim_toString]
  rw [Text.toString_eq_ofList, String.toList_ofList, hsigned]
  simp only [hnohash, hread]
  cases hneg : decide (n < 0) with
  | true => rw [if_pos rfl, hnegated, Int.ofNat_natAbs_of_nonpos (Int.le_of_lt (of_decide_eq_true hneg)), Int.neg_neg]
  | false => rw [if_neg Bool.false_ne_true, Int.natAbs_of_nonneg (by simpa using hneg)]

-- The size of the least number of 64 bits is no number of 64 bits.
theorem number_least : number (toString Text.minInt64) = .error (tooGreat (toString Text.minInt64)) := by
  decide +kernel

end Arithmetic

-- A number that is stored

theorem textValue_decimal (E : Engine) (depth : Nat) (n : Int) :
    textValue E depth (toString n) = ofExcept (Arithmetic.number (toString n)) := by
  rw [textValue_of_number E (Arithmetic.isNumber_toString n), Arithmetic.trim_toString]

theorem textValue_toString (E : Engine) (depth : Nat) {n : Int} (hn : (n.natAbs : Int) ≤ Text.maxInt64) (s : State) :
    textValue E depth (toString n) s = .ok n s := by
  rw [textValue_decimal, Arithmetic.number_toString hn]
  rfl

namespace Env

theorem getElem?_setAt (i : Nat) (value : String) (ts : List String) : (setAt i value ts)[i]? = some value := by
  induction i generalizing ts with
  | zero => cases ts <;> rfl
  | succ i ih => cases ts <;> exact ih _

theorem length_setAt {i : Nat} {ts : List String} (h : i < ts.length) (value : String) :
    (setAt i value ts).length = ts.length := by
  induction i generalizing ts with
  | zero =>
      cases ts with
      | nil => cases h
      | cons t ts => rfl
  | succ i ih =>
      cases ts with
      | nil => cases h
      | cons t ts => exact congrArg Nat.succ (ih (Nat.lt_of_succ_lt_succ h))

-- An element is found where it was put, also when its place is counted from the end.
theorem nth?_setAt {i : Int} {v : Var} (h : ¬Write.place i v < 0) (value : String) :
    nth? (setAt (Write.place i v).toNat value v.asArray.list) i = some value := by
  have hlength := Write.length_list_asArray v
  unfold Write.place at h ⊢
  unfold nth?
  split at h
  · next hi =>
    rw [if_pos hi, if_pos hi, length_setAt (by omega), hlength, if_neg h]
    exact getElem?_setAt _ _ _
  · next hi =>
    rw [if_neg hi, if_neg hi, if_neg hi]
    exact getElem?_setAt _ _ _

-- The text of a variable, or of its element at a place.
def textAt (e : Env) (name : String) : Option Int → Option String
  | none => e.value? name
  | some i => (e.get? name).bind fun v => nth? v.values i

variable {name : String}

theorem textAt_congr {e e' : Env} (h : e.get? name = e'.get? name) (place : Option Int) :
    e.textAt name place = e'.textAt name place := by
  cases place with
  | none => rw [textAt, textAt, value?, value?, h]
  | some i => rw [textAt, textAt, h]

theorem textAt_set {e e' : Env} {value : String} (h : e.set name value = .ok e') : e'.textAt name none = some value := by
  have hput (v : Var) (hv : v.text = value) (h : (.ok (e.put name v) : Except Failure Env) = .ok e') :
      e'.textAt name none = some value := by
    cases h
    rw [textAt, value?, get?_put, if_pos rfl]
    exact congrArg some hv
  unfold set at h
  split at h
  · exact hput _ rfl h
  · split at h
    · cases h
    · exact hput _ rfl h

theorem textAt_setIndex {e e' : Env} {i : Int} {value : String} (h : e.setIndex name i value = (e', none)) :
    e'.textAt name (some i) = some value := by
  rw [Write.setIndex_eq] at h
  obtain ⟨he, hnone⟩ := Prod.mk.inj h
  rw [← he]
  unfold Write.outcome at hnone ⊢
  dsimp only at hnone ⊢
  split at hnone
  · cases hnone
  next hreadOnly =>
  split at hnone
  · cases hnone
  next hplace =>
  rw [if_neg hreadOnly, if_neg hplace, Edit.on, textAt, get?_put, if_pos rfl, Option.bind_some, Var.values,
    if_pos (Var.array_asArray _)]
  exact nth?_setAt hplace value

end Env

section Storing

variable {E : Engine} {name : String} {n : Int} {index : Option Arith} {place : Option Int} {s t u : State} {depth : Nat}

-- The place that an index comes to.
def placeOf (E : Engine) : Option Arith → Run (Option Int)
  | none => return none
  | some x => return some (← arith E 0 x)

-- The variable, or its element at the place, is worth `n` in every later expression, as long as nobody writes the variable.
def ReadsBack (E : Engine) (name : String) (place : Option Int) (n : Int) (s : State) : Prop :=
  ∀ (depth : Nat) (index : Option Arith) (t u : State), t.shell.env.get? name = s.shell.env.get? name →
    placeOf E index t = .ok place u → u.shell.env.get? name = s.shell.env.get? name →
    arith E depth (.var name index) t = .ok n u

theorem arithText_of_placeOf {text : String} (hplace : placeOf E index s = .ok place t)
    (hs : s.shell.env.textAt name place = some text) (ht : t.shell.env.textAt name place = some text) :
    arithText E name index s = .ok text t := by
  cases index with
  | none =>
      cases hplace
      rw [Env.textAt] at hs
      rw [arithText, shell_bind, hs]
      rfl
  | some x =>
      obtain ⟨i, t', hi, hdone⟩ := bind_ok hplace
      cases hdone
      rw [Env.textAt] at ht
      rw [arithText, bind_of_ok hi, shell_bind, ht]
      rfl

theorem readsBack_of_text (hn : (n.natAbs : Int) ≤ Text.maxInt64) (h : s.shell.env.textAt name place = some (toString n)) :
    ReadsBack E name place n s := by
  intro depth index t u ht hplace hu
  have htext := arithText_of_placeOf hplace ((Env.textAt_congr ht place).trans h) ((Env.textAt_congr hu place).trans h)
  rw [arith, bind_of_ok htext]
  exact textValue_toString E (depth + 1) hn u

theorem setVar_ok {text : String} (h : setVar name text s = .ok () t) : t.shell.env.textAt name none = some text := by
  rw [setVar, shell_bind] at h
  cases hset : s.shell.env.set name text with
  | ok env =>
      rw [hset] at h
      cases h
      exact Env.textAt_set hset
  | error f =>
      rw [hset] at h
      cases h

theorem setIndex_ok {i : Int} {text : String} (h : setIndex name i text s = .ok () t) :
    t.shell.env.textAt name (some i) = some text := by
  rw [setIndex, shell_bind] at h
  cases hset : s.shell.env.setIndex name i text with
  | mk env failure =>
      rw [hset] at h
      cases failure with
      | none =>
          cases h
          exact Env.textAt_setIndex hset
      | some f => cases h

-- What is stored is the decimal text.
theorem textAt_arithAssign (h : arithAssign E name n index s = .ok () t) :
    ∃ place u, placeOf E index s = .ok place u ∧ t.shell.env.textAt name place = some (toString n) := by
  cases index with
  | none => exact ⟨none, s, rfl, setVar_ok h⟩
  | some x =>
      obtain ⟨i, u, hi, hset⟩ := bind_ok h
      exact ⟨some i, u, bind_of_ok hi _, setIndex_ok hset⟩

-- The number has just been stored, and it is found where it was put.
def StoredAt (E : Engine) (name : String) (index : Option Arith) (n : Int) (t : State) : Prop :=
  ∃ place s u, arithAssign E name n index s = .ok () t ∧ placeOf E index s = .ok place u ∧ ReadsBack E name place n t

theorem storedAt_of_arithAssign (hn : (n.natAbs : Int) ≤ Text.maxInt64) (h : arithAssign E name n index s = .ok () t) :
    StoredAt E name index n t := by
  obtain ⟨place, u, hplace, htext⟩ := textAt_arithAssign h
  exact ⟨place, s, u, h, hplace, readsBack_of_text hn htext⟩

-- What a run ends with.
theorem stores_of_bind {r m : Int} (h : (arithAssign E name n index >>= fun _ => pure m) s = .ok r t) :
    r = m ∧ arithAssign E name n index s = .ok () t := by
  obtain ⟨_, u, hassign, hdone⟩ := bind_ok h
  cases hdone
  exact ⟨rfl, hassign⟩

theorem arithAssign_of_assign {op : Script.ArithOp} (hop : Arithmetic.isAssign op = true) {y : Arith}
    (h : arith E depth (.binary op (.var name index) y) s = .ok n t) : ∃ u, arithAssign E name n index u = .ok () t := by
  obtain rfl | ⟨op', hop⟩ := Arithmetic.isAssign_cases hop
  · rw [arith_store] at h
    obtain ⟨r, u, -, h⟩ := bind_ok h
    obtain ⟨rfl, hassign⟩ := stores_of_bind h
    exact ⟨u, hassign⟩
  · rw [arith_update hop] at h
    obtain ⟨_, _, -, h⟩ := bind_ok h
    obtain ⟨_, _, -, h⟩ := bind_ok h
    obtain ⟨r, u, -, h⟩ := bind_ok h
    obtain ⟨rfl, hassign⟩ := stores_of_bind h
    exact ⟨u, hassign⟩

-- The number that is stored where an increment or a decrement comes to `r`.
def stepped (op : Script.ArithOp) (post : Bool) (r : Int) : Int :=
  if post then Text.wrap64 (if op == .inc then r + 1 else r - 1) else r

theorem arithAssign_of_step {op : Script.ArithOp} (hop : op = .inc ∨ op = .dec) {post : Bool} {r : Int}
    (h : arith E depth (.unary op post (.var name index)) s = .ok r t) :
    ∃ u, arithAssign E name (stepped op post r) index u = .ok () t := by
  rw [arith_step hop] at h
  obtain ⟨old, u, -, h⟩ := bind_ok h
  obtain ⟨rfl, hassign⟩ := stores_of_bind h
  refine ⟨u, ?_⟩
  cases post <;> exact hassign

-- What an integer variable is given: the value of the text, added to what the variable has if it is appended.
def sumFor (E : Engine) (name value : String) (append : Bool) : Run Int := do
  let n ← textValue E 0 value
  let old ← if append then do
      let s ← shell
      orZero (textValue E 0 ((s.env.get? name).getD {}).text)
    else pure 0
  return Text.wrap64 (n + old)

theorem textFor_integer {v : Var} (hinteger : v.integer = true) (name value : String) (append : Bool) :
    textFor E name value append v = (do return toString (← sumFor E name value append)) := by
  cases append <;>
    simp only [textFor, sumFor, hinteger, Bool.false_eq_true, if_false, if_true, bind_assoc, pure_bind]

theorem textAt_writing {local_ : Bool} {text : Var → Run String} {value : String} {v : Var}
    (htarget : target local_ name s = .ok v t) (htext : text v t = .ok value u) {w : State}
    (h : writing local_ name text s = .ok () w) : w.shell.env.textAt name none = some value := by
  rw [writing, bind_of_ok htarget] at h
  cases hreadOnly : v.readOnly with
  | true =>
      rw [hreadOnly, if_pos rfl] at h
      cases h
  | false =>
      rw [hreadOnly, if_neg Bool.false_ne_true] at h
      have hmodify : modifyVar name (Var.withText value) u = .ok () w := (bind_of_ok htext _).symm.trans h
      cases hmodify
      have htext (v : Var) : (Var.withText value v).text = value := by
        unfold Var.withText Var.text
        cases v.array <;> rfl
      exact congrArg (Option.map Var.text) ((Env.get?_put ..).trans (if_pos rfl)) |>.trans (congrArg some (htext _))

theorem natAbs_le_maxInt64 (hn : Text.inInt64 n = true) (hleast : n ≠ Text.minInt64) : (n.natAbs : Int) ≤ Text.maxInt64 := by
  rw [Text.inInt64_iff] at hn
  simp only [Text.minInt64, Text.maxInt64] at hleast ⊢
  omega

-- A number of 64 bits is what its text is read as, so that every later expression finds it where an assignment, an
-- increment or a decrement has stored it and in an integer variable. The least number is the exception: its text is no
-- number.
theorem stored_number (E : Engine) {n : Int} (hn : Text.inInt64 n = true) :
    (∀ depth s, textValue E depth (toString n) s =
      if n = Text.minInt64 then .error (.fail (Arithmetic.tooGreat (toString n))) s else .ok n s) ∧
    (n ≠ Text.minInt64 →
      (∀ depth op name index y s t, Arithmetic.isAssign op = true →
        arith E depth (.binary op (.var name index) y) s = .ok n t → StoredAt E name index n t) ∧
      (∀ depth op post name index s t r, op = .inc ∨ op = .dec →
        arith E depth (.unary op post (.var name index)) s = .ok r t → stepped op post r = n → StoredAt E name index n t) ∧
      (∀ name value append local_ v s t u w, target local_ name s = .ok v t → v.integer = true →
        sumFor E name value append t = .ok n u → assignPlain E name value append local_ s = .ok () w →
        ReadsBack E name none n w)) := by
  refine ⟨fun depth s => ?_, fun hleast => ?_⟩
  · split
    · next h =>
      rw [textValue_decimal, h, Arithmetic.number_least]
      rfl
    · next h => exact textValue_toString E depth (natAbs_le_maxInt64 hn h) s
  have hsize := natAbs_le_maxInt64 hn hleast
  refine ⟨fun depth op name index y s t hop h => ?_, fun depth op post name index s t r hop h hr => ?_,
    fun name value append local_ v s t u w htarget hinteger hsum h => ?_⟩
  · obtain ⟨u, hassign⟩ := arithAssign_of_assign hop h
    exact storedAt_of_arithAssign hsize hassign
  · obtain ⟨u, hassign⟩ := arithAssign_of_step hop h
    exact storedAt_of_arithAssign hsize (hr ▸ hassign)
  · rw [assignPlain_eq] at h
    have htext : textFor E name value append v t = .ok (toString n) u := by
      rw [textFor_integer hinteger]
      exact bind_of_ok hsum _
    exact readsBack_of_text hsize (textAt_writing htarget htext h)

theorem stored_seven : ∃ t, Text.inInt64 7 = true ∧ 7 ≠ Text.minInt64 ∧
    arith (engine { name := "", main := ⟨"", []⟩ } false 0 0) 0 (.binary .assign (.var "x" none) (.num "7")) {} = .ok 7 t ∧
    StoredAt (engine { name := "", main := ⟨"", []⟩ } false 0 0) "x" none 7 t :=
  ⟨_, by decide, by decide, rfl, ((stored_number _ (by decide)).2 (by decide)).1 0 .assign "x" none (.num "7") {} _ rfl rfl⟩

end Storing

-- A number with a base

namespace Arithmetic

-- The value of a digit in a base. Up to 36 capital letters are worth what small ones are.
def digitIn? (base : Nat) (c : Char) : Option Nat :=
  (if base ≤ 36 then Text.digitValue? c else wideDigit? c).filter (· < base)

-- The digits of a number, the most significant one first.
def AreDigits (base : Nat) : List Char → List Nat → Prop := List.Forall₂ fun c d => digitIn? base c = some d

def positional (base : Nat) (ds : List Nat) : Nat := Nat.ofDigits base ds.reverse

section Digits

variable {base limit v : Nat} {c : Char} {cs : List Char} {d : Nat} {ds : List Nat}

theorem positional_cons (base d : Nat) (ds : List Nat) :
    positional base (d :: ds) = d * base ^ ds.length + positional base ds := by
  rw [positional, Nat.ofDigits_reverse_cons, Nat.add_comm, Nat.mul_comm]
  rfl

theorem digitIn?_narrow (hbase : base ≤ 36) : digitIn? base c = (Text.digitValue? c).filter (· < base) := by
  rw [digitIn?, if_pos hbase]

theorem digitIn?_wide (hbase : ¬base ≤ 36) : digitIn? base c = (wideDigit? c).filter (· < base) := by
  rw [digitIn?, if_neg hbase]

-- The value of the digits so far and of those that follow.
theorem limited_of_areDigits (hbase : 0 < base) (hnarrow : base ≤ 36) (h : AreDigits base cs ds) (hv : v ≤ limit) :
    Text.limited base limit false v cs =
      if v * base ^ ds.length + positional base ds ≤ limit then some (v * base ^ ds.length + positional base ds, true)
      else some (limit, false) := by
  induction h generalizing v with
  | nil =>
      have hvalue : v * base ^ 0 + positional base [] = v := by simp [positional]
      rw [List.length_nil, hvalue, if_pos hv]
      rfl
  | @cons c d cs ds hd _ ih =>
      rw [digitIn?_narrow hnarrow, Option.filter_eq_some_iff, decide_eq_true_eq] at hd
      obtain ⟨hdigit, hlt⟩ := hd
      have hvalue : v * base ^ (d :: ds).length + positional base (d :: ds) =
          (v * base + d) * base ^ ds.length + positional base ds := by
        rw [positional_cons, List.length_cons]
        ring
      rw [hvalue, Text.limited, Bool.false_and, if_neg Bool.false_ne_true, hdigit]
      dsimp only
      rw [if_neg (Nat.not_le.mpr hlt)]
      by_cases hpast : v * base + d > limit
      · have hpow : 0 < base ^ ds.length := Nat.pow_pos hbase
        have hmore := Nat.le_mul_of_pos_right (v * base + d) hpow
        rw [if_pos hpast, if_neg (by omega)]
      · rw [if_neg hpast, ih (by omega)]

-- What is no digit is found, unless the digits in front of it are too many already.
theorem limited_of_not_digit (hnarrow : base ≤ 36) (h : ∃ c ∈ cs, digitIn? base c = none) :
    Text.limited base limit false v cs = none ∨ Text.limited base limit false v cs = some (limit, false) := by
  induction cs generalizing v with
  | nil => simp at h
  | cons c cs ih =>
      rw [Text.limited, Bool.false_and, if_neg Bool.false_ne_true]
      cases hdigit : Text.digitValue? c with
      | none => exact .inl rfl
      | some d =>
          dsimp only
          by_cases hlt : d < base
          · rw [if_neg (Nat.not_le.mpr hlt)]
            split
            · exact .inr rfl
            · obtain ⟨c', hmem, hnone⟩ := h
              rcases List.mem_cons.mp hmem with rfl | hmem
              · rw [digitIn?_narrow hnarrow, hdigit, Option.filter_some, if_pos (by simpa using hlt)] at hnone
                cases hnone
              · exact ih ⟨c', hmem, hnone⟩
          · rw [if_pos (Nat.not_lt.mp hlt)]
            exact .inl rfl

theorem wideDigits_of_areDigits (hwide : ¬base ≤ 36) (h : AreDigits base cs ds) (v : Int) :
    wideDigits base (Text.wrap64 v) cs = some (Text.wrap64 (v * base ^ ds.length + positional base ds)) := by
  induction h generalizing v with
  | nil => simp [wideDigits, positional]
  | @cons c d cs ds hd _ ih =>
      rw [digitIn?_wide hwide, Option.filter_eq_some_iff, decide_eq_true_eq] at hd
      obtain ⟨hdigit, hlt⟩ := hd
      have hwrap : Text.wrap64 (Text.wrap64 v * base + d) = Text.wrap64 (v * base + d) := by
        rw [Text.wrap64, Text.wrap64, ← Int.bmod_add_bmod, Int.bmod_mul_bmod, Int.bmod_add_bmod]
        rfl
      rw [wideDigits, hdigit]
      dsimp only
      rw [if_pos hlt, hwrap, ih, positional_cons, List.length_cons]
      push_cast
      ring_nf

theorem wideDigits_of_not_digit (hwide : ¬base ≤ 36) (h : ∃ c ∈ cs, digitIn? base c = none) (v : Int) :
    wideDigits base v cs = none := by
  induction cs generalizing v with
  | nil => simp at h
  | cons c cs ih =>
      rw [wideDigits]
      cases hdigit : wideDigit? c with
      | none => rfl
      | some d =>
          dsimp only
          split
          · next hlt =>
            obtain ⟨c', hmem, hnone⟩ := h
            rcases List.mem_cons.mp hmem with rfl | hmem
            · rw [digitIn?_wide hwide, hdigit, Option.filter_some, if_pos (by simpa using hlt)] at hnone
              cases hnone
            · exact ih ⟨c', hmem, hnone⟩ _
          · rfl

theorem not_sign_of_digit (h : digitIn? base c = some d) : c ≠ '-' ∧ c ≠ '+' := by
  have hvalue : Text.digitValue? c = some d ∨ wideDigit? c = some d := by
    unfold digitIn? at h
    split at h
    · exact .inl (Option.filter_eq_some_iff.mp h).1
    · exact .inr (Option.filter_eq_some_iff.mp h).1
  constructor
  · rintro rfl
    rcases hvalue with h | h <;> cases h
  · rintro rfl
    rcases hvalue with h | h <;> cases h

theorem splitSign_of_unsigned (h : cs.head? ≠ some '-' ∧ cs.head? ≠ some '+') : Text.splitSign cs = (false, cs) := by
  unfold Text.splitSign
  split
  · exact absurd rfl h.1
  · exact absurd rfl h.2
  · rfl

theorem AreDigits.unsigned (h : AreDigits base cs ds) : cs.head? ≠ some '-' ∧ cs.head? ≠ some '+' := by
  cases h with
  | nil => exact ⟨nofun, nofun⟩
  | cons hd _ =>
      have hsign := not_sign_of_digit hd
      simpa using hsign

theorem uint64_eq (hbase : 2 ≤ base) (hcs : cs ≠ []) : Text.uint64 base cs = Text.limited base Text.maxUInt64 false 0 cs := by
  have hzero : (base == 0) = false := by simp; omega
  rw [Text.uint64, List.isEmpty_eq_false_iff.mpr hcs, if_neg Bool.false_ne_true, hzero, if_neg Bool.false_ne_true]

theorem uint64_of_areDigits (hbase : 2 ≤ base) (hnarrow : base ≤ 36) (h : AreDigits base cs ds) (hds : ds ≠ []) :
    Text.uint64 base cs = if positional base ds ≤ Text.maxUInt64 then some (positional base ds, true)
      else some (Text.maxUInt64, false) := by
  have hcs : cs ≠ [] := by
    rintro rfl
    cases h
    exact hds rfl
  rw [uint64_eq hbase hcs, limited_of_areDigits (by omega) hnarrow h (Nat.zero_le _), Nat.zero_mul, Nat.zero_add]

theorem toOption_int64 {s : String} {neg whole : Bool} (hsplit : Text.splitSign s.toList = (neg, cs))
    (hread : Text.uint64 base cs = some (v, whole)) :
    (Text.int64 base s).toOption =
      if neg then (if (v : Int) > -Text.minInt64 then none else some (-(v : Int)))
      else if (v : Int) > Text.maxInt64 then none else some (v : Int) := by
  rw [Text.int64, hsplit]
  dsimp only
  rw [hread]
  dsimp only
  repeat' split
  all_goals rfl

-- A base up to 36.

theorem inBase_narrow (hbase : 2 ≤ base) (hnarrow : base ≤ 36) (h : AreDigits base cs ds) (hds : ds ≠ []) :
    inBase base (String.ofList cs) = if (positional base ds : Int) > Text.maxInt64 then none else some (positional base ds : Int) := by
  have hsplit : Text.splitSign (String.ofList cs).toList = (false, cs) := by
    rw [String.toList_ofList, splitSign_of_unsigned h.unsigned]
  have hread := uint64_of_areDigits hbase hnarrow h hds
  rw [inBase, if_pos hnarrow]
  by_cases hlimit : positional base ds ≤ Text.maxUInt64
  · rw [if_pos hlimit] at hread
    exact (toOption_int64 hsplit hread).trans (if_neg Bool.false_ne_true)
  · have hpast : (positional base ds : Int) > Text.maxInt64 := by
      simp only [Text.maxInt64, Text.maxUInt64] at hlimit ⊢
      omega
    rw [if_neg hlimit] at hread
    rw [if_pos hpast]
    exact toOption_int64 hsplit hread

-- A sign in front of the digits counts too.
theorem inBase_signed (hbase : 2 ≤ base) (hnarrow : base ≤ 36) (h : AreDigits base cs ds) (hds : ds ≠ [])
    (hfits : (positional base ds : Int) ≤ Text.maxInt64) :
    inBase base (String.ofList ('-' :: cs)) = some (-(positional base ds : Int)) ∧
    inBase base (String.ofList ('+' :: cs)) = some (positional base ds : Int) := by
  have hlimit : positional base ds ≤ Text.maxUInt64 := by
    simp only [Text.maxInt64, Text.maxUInt64] at hfits ⊢
    omega
  have hleast : ¬(positional base ds : Int) > -Text.minInt64 := by
    simp only [Text.maxInt64, Text.minInt64] at hfits ⊢
    omega
  have hread : Text.uint64 base cs = some (positional base ds, true) := by
    rw [uint64_of_areDigits hbase hnarrow h hds, if_pos hlimit]
  have hsplit (c : Char) (neg : Bool) (hc : Text.splitSign (c :: cs) = (neg, cs)) :
      Text.splitSign (String.ofList (c :: cs)).toList = (neg, cs) := by
    rw [String.toList_ofList, hc]
  rw [inBase, inBase, if_pos hnarrow, if_pos hnarrow, toOption_int64 (hsplit '-' true rfl) hread,
    toOption_int64 (hsplit '+' false rfl) hread, if_pos rfl, if_neg hleast, if_neg Bool.false_ne_true,
    if_neg (not_lt.mpr hfits)]
  exact ⟨rfl, rfl⟩

theorem inBase_empty (hnarrow : base ≤ 36) : inBase base "" = none := by
  rw [inBase, if_pos hnarrow]
  rfl

theorem inBase_of_not_digit (hbase : 2 ≤ base) (h : ∃ c ∈ cs, digitIn? base c = none)
    (hunsigned : base ≤ 36 → cs.head? ≠ some '-' ∧ cs.head? ≠ some '+') : inBase base (String.ofList cs) = none := by
  by_cases hnarrow : base ≤ 36
  · have hcs : cs ≠ [] := by
      rintro rfl
      simp at h
    rw [inBase, if_pos hnarrow, Text.int64, String.toList_ofList, splitSign_of_unsigned (hunsigned hnarrow)]
    dsimp only
    rw [uint64_eq hbase hcs]
    rcases limited_of_not_digit hnarrow h with hread | hread <;> rw [hread] <;> rfl
  · rw [inBase, if_neg hnarrow, String.toList_ofList, wideDigits_of_not_digit hnarrow h]

-- A base from 37 on.
theorem inBase_wide (hwide : ¬base ≤ 36) (h : AreDigits base cs ds) :
    inBase base (String.ofList cs) = some (Text.wrap64 (positional base ds)) := by
  have hread := wideDigits_of_areDigits hwide h 0
  rw [Int.zero_mul, Int.zero_add] at hread
  rw [inBase, if_neg hwide, String.toList_ofList]
  exact hread

end Digits

section Based

variable {base : Nat} {text : String} {cs : List Char}

theorem magnitude_based (hbase : 2 ≤ base ∧ base ≤ 64) :
    magnitude (Nat.toDigits 10 base ++ '#' :: cs) =
      (inBase base (String.ofList cs)).elim (.error "value too great for base") .ok := by
  have hdigits : ∀ d ∈ Nat.toDigits 10 base, Text.isDigit d = true := Text.isDigit_of_mem_toDigits
  have hcut : Text.cut? '#' (String.ofList (Nat.toDigits 10 base ++ '#' :: cs)) =
      some (String.ofList (Nat.toDigits 10 base), String.ofList cs) := by
    refine Text.cut?_eq_some.mpr ⟨by simp, fun hmem => ?_⟩
    rw [String.toList_ofList] at hmem
    exact absurd (hdigits _ hmem) (by decide)
  have hread : Text.int64? (String.ofList (Nat.toDigits 10 base)) = some (base : Int) := by
    have hvalue : Nat.ofDigitChars 10 (Nat.toDigits 10 base) 0 = (base : Int).natAbs :=
      Nat.ofDigitChars_toDigits (by decide) (by decide)
    have hsigned := Text.intOfDigits?_signOf (n := (base : Int)) hdigits Nat.toDigits_ne_nil hvalue
    rw [Text.signOf, if_neg (by omega), List.nil_append] at hsigned
    rw [Text.int64?, hsigned, Option.filter_some, if_pos]
    rw [Text.inInt64_iff]
    omega
  have hrange : (decide ((base : Int) < 2) || decide ((base : Int) > 64)) = false := by
    simp
    omega
  unfold magnitude
  rw [hcut]
  dsimp only
  rw [hread]
  dsimp only
  rw [hrange, if_neg Bool.false_ne_true, Int.toNat_natCast]

theorem number_based (hbase : 2 ≤ base ∧ base ≤ 64) (htext : (Text.trim text).toList = Nat.toDigits 10 base ++ '#' :: cs) :
    number text = (inBase base (String.ofList cs)).elim (.error (tooGreat text)) .ok := by
  have hsign : Text.splitSign (Text.trim text).toList = (false, Nat.toDigits 10 base ++ '#' :: cs) := by
    obtain ⟨d, ds, hds⟩ := List.exists_cons_of_ne_nil (Nat.toDigits_ne_nil (n := base) (b := 10))
    have hd : Text.isDigit d = true := Text.isDigit_of_mem_toDigits d (hds ▸ List.mem_cons_self)
    rw [htext, hds, List.cons_append, splitSign_of_operandChar (isOperandChar_of_isDigit hd)]
  rw [number_eq, hsign]
  dsimp only
  rw [magnitude_based hbase]
  cases inBase base (String.ofList cs) <;> rfl

-- A number with a base from 2 to 64 is worth the positional value of its digits if there are any and the value is below
-- 2 ^ 63. What has no digits, a digit that is none in the base or a larger value fails where the base is at most 36, but for
-- a sign in front of the digits, which counts. In a larger base no digits are worth zero, and a larger value wraps around.
theorem number_with_base (hbase : 2 ≤ base ∧ base ≤ 64)
    (htext : (Text.trim text).toList = Nat.toDigits 10 base ++ '#' :: cs) :
    (∀ ds, AreDigits base cs ds → ds ≠ [] → (positional base ds : Int) ≤ Text.maxInt64 →
      number text = .ok (positional base ds)) ∧
    ((∃ c ∈ cs, digitIn? base c = none) → (base ≤ 36 → cs.head? ≠ some '-' ∧ cs.head? ≠ some '+') →
      number text = .error (tooGreat text)) ∧
    (base ≤ 36 → (cs = [] ∨ ∃ ds, AreDigits base cs ds ∧ (positional base ds : Int) > Text.maxInt64) →
      number text = .error (tooGreat text)) ∧
    (base ≤ 36 → ∀ sign digits ds, cs = sign :: digits → sign = '-' ∨ sign = '+' → AreDigits base digits ds → ds ≠ [] →
      (positional base ds : Int) ≤ Text.maxInt64 →
      number text = .ok (if sign = '-' then -(positional base ds : Int) else positional base ds)) ∧
    (36 < base → ∀ ds, AreDigits base cs ds → number text = .ok (Text.wrap64 (positional base ds))) := by
  rw [number_based hbase htext]
  refine ⟨fun ds h hds hfits => ?_, fun h hunsigned => ?_, fun hnarrow h => ?_,
    fun hnarrow sign digits ds hcs hsign h hds hfits => ?_, fun hwide ds h => ?_⟩
  · by_cases hnarrow : base ≤ 36
    · rw [inBase_narrow hbase.1 hnarrow h hds, if_neg (not_lt.mpr hfits)]
      rfl
    · have hwrap : Text.wrap64 (positional base ds) = positional base ds := by
        refine Text.wrap64_of_inInt64 (Text.inInt64_iff.mpr ?_)
        simp only [Text.maxInt64] at hfits
        omega
      rw [inBase_wide hnarrow h, hwrap]
      rfl
  · rw [inBase_of_not_digit hbase.1 h hunsigned]
    rfl
  · rcases h with rfl | ⟨ds, h, hpast⟩
    · exact congrArg (Option.elim · _ _) (inBase_empty hnarrow)
    · have hds : ds ≠ [] := by
        rintro rfl
        exact absurd hpast (by simp [positional, Text.maxInt64])
      rw [inBase_narrow hbase.1 hnarrow h hds, if_pos hpast]
      rfl
  · obtain ⟨hminus, hplus⟩ := inBase_signed hbase.1 hnarrow h hds hfits
    subst hcs
    rcases hsign with rfl | rfl
    · rw [hminus]
      rfl
    · rw [hplus]
      rfl
  · rw [inBase_wide (not_le.mpr hwide) h]
    rfl

theorem number_without_digits :
    (Text.trim "64#").toList = Nat.toDigits 10 64 ++ '#' :: [] ∧ number "64#" = .ok 0 := by
  have htext : (Text.trim "64#").toList = Nat.toDigits 10 64 ++ '#' :: [] := by decide +kernel
  have hzero : Text.wrap64 (positional 64 []) = 0 := by decide +kernel
  exact ⟨htext, ((number_with_base (by decide) htext).2.2.2.2 (by decide) [] .nil).trans (congrArg Except.ok hzero)⟩

end Based

end Arithmetic

end Machine
end ShellScript

import Mathlib.Data.List.Forall2
import ShellScript.Log.Value
import ShellScript.Proofs.Script.Quotation
import ShellScript.Proofs.Text.Numeral

-- JSON texts, what they stand for, and the numbers and data that are written so. A text is UTF-8, byte for byte.
namespace ShellScript

inductive Json where
  | null
  | bool (b : Bool)
  -- as it is written
  | number (literal : String)
  | text (s : String)
  | list (items : List Json)
  -- in the order in which they are written
  | object (members : List (String × Json))

namespace Json

open Text (utf8 hex runesOf)

-- Strings

-- A character that may stand for itself.
def IsUnescaped (c : Char) : Prop := 0x20 ≤ c.toNat ∧ c ≠ '"' ∧ c ≠ '\\'

-- The letters that stand for a character behind a backslash.
def letters : List (Char × Char) :=
  [('"', '"'), ('\\', '\\'), ('/', '/'), ('b', '\x08'), ('f', '\x0c'), ('n', '\n'), ('r', '\r'), ('t', '\t')]

def hexNumber? (ds : List Char) : Option Nat := ds.foldlM (fun v d => (Text.hexValue? d).map (v * 16 + ·)) 0

-- Four hexadecimal digits.
def IsUnit (ds : List Char) (n : Nat) : Prop := ds.length = 4 ∧ hexNumber? ds = some n

-- What one character is written as. Beyond the first 65536 characters an escape takes two units, which no character has.
inductive Writes : List Char → Char → Prop where
  | plain {c : Char} (hc : IsUnescaped c) : Writes (utf8 c) c
  | letter {l c : Char} (hl : (l, c) ∈ letters) : Writes ['\\', l] c
  | unit {ds : List Char} {n : Nat} (hds : IsUnit ds n) (hn : n < 0xD800 ∨ 0xDFFF < n) : Writes ('\\' :: 'u' :: ds) (Char.ofNat n)
  | pair {ds es : List Char} {n m : Nat} (hds : IsUnit ds n) (hes : IsUnit es m) (hn : 0xD800 ≤ n ∧ n < 0xDC00)
      (hm : 0xDC00 ≤ m ∧ m < 0xE000) :
      Writes ('\\' :: 'u' :: (ds ++ '\\' :: 'u' :: es)) (Char.ofNat (0x10000 + (n - 0xD800) * 0x400 + (m - 0xDC00)))

-- What stands between quotes, and the characters that it stands for.
inductive Spells : List Char → List Char → Prop where
  | nil : Spells [] []
  | cons {w cs us : List Char} {c : Char} (hw : Writes w c) (rest : Spells cs us) : Spells (w ++ cs) (c :: us)

-- Numbers

def IsDigits (ds : List Char) : Prop := ds ≠ [] ∧ ∀ d ∈ ds, Text.isDigit d = true

-- There is no zero in front of other digits.
def IsWhole (ds : List Char) : Prop := IsDigits ds ∧ (ds.head? = some '0' → ds = ['0'])

def IsFraction (cs : List Char) : Prop := cs = [] ∨ ∃ ds, cs = '.' :: ds ∧ IsDigits ds

def IsExponent (cs : List Char) : Prop :=
  cs = [] ∨ ∃ mark sign ds, cs = mark :: (sign ++ ds) ∧ (mark = 'e' ∨ mark = 'E') ∧ (sign = [] ∨ sign = ['+'] ∨ sign = ['-']) ∧
    IsDigits ds

def IsNumber (cs : List Char) : Prop :=
  ∃ sign whole fraction exponent, cs = sign ++ (whole ++ (fraction ++ exponent)) ∧ (sign = [] ∨ sign = ['-']) ∧
    IsWhole whole ∧ IsFraction fraction ∧ IsExponent exponent

-- Values

def IsBlank (cs : List Char) : Prop := ∀ c ∈ cs, c = ' ' ∨ c = '\t' ∨ c = '\n' ∨ c = '\r'

mutual

inductive Denotes : List Char → Json → Prop where
  | null : Denotes "null".toList .null
  | bool (b : Bool) : Denotes (if b then "true" else "false").toList (.bool b)
  | number {s : String} (hs : IsNumber s.toList) : Denotes s.toList (.number s)
  | text {cs us : List Char} (h : Spells cs us) : Denotes ('"' :: (cs ++ ['"'])) (.text (String.ofList (us.flatMap utf8)))
  | emptyList {blank : List Char} (h : IsBlank blank) : Denotes ('[' :: (blank ++ [']'])) (.list [])
  | list {cs : List Char} {xs : List Json} (h : DenotesItems cs xs) : Denotes ('[' :: (cs ++ [']'])) (.list xs)
  | emptyObject {blank : List Char} (h : IsBlank blank) : Denotes ('\x7b' :: (blank ++ ['\x7d'])) (.object [])
  | object {cs : List Char} {ms : List (String × Json)} (h : DenotesMembers cs ms) :
      Denotes ('\x7b' :: (cs ++ ['\x7d'])) (.object ms)

inductive DenotesItems : List Char → List Json → Prop where
  | last {a cs b : List Char} {x : Json} (ha : IsBlank a) (h : Denotes cs x) (hb : IsBlank b) : DenotesItems (a ++ cs ++ b) [x]
  | cons {a cs b rest : List Char} {x : Json} {xs : List Json} (ha : IsBlank a) (h : Denotes cs x) (hb : IsBlank b)
      (hrest : DenotesItems rest xs) : DenotesItems (a ++ cs ++ b ++ ',' :: rest) (x :: xs)

inductive DenotesMembers : List Char → List (String × Json) → Prop where
  | last {cs : List Char} {m : String × Json} (h : DenotesMember cs m) : DenotesMembers cs [m]
  | cons {cs rest : List Char} {m : String × Json} {ms : List (String × Json)} (h : DenotesMember cs m)
      (hrest : DenotesMembers rest ms) : DenotesMembers (cs ++ ',' :: rest) (m :: ms)

inductive DenotesMember : List Char → String × Json → Prop where
  | mk {a key us b c cs d : List Char} {x : Json} (ha : IsBlank a) (hkey : Spells key us) (hb : IsBlank b) (hc : IsBlank c)
      (h : Denotes cs x) (hd : IsBlank d) :
      DenotesMember (a ++ '"' :: (key ++ '"' :: (b ++ ':' :: (c ++ cs ++ d)))) (String.ofList (us.flatMap utf8), x)

end

-- Units and numbers

theorem hexNumber?_hex (w n : Nat) : hexNumber? (hex w n) = some (n % 16 ^ w) := by
  induction w generalizing n with
  | zero => simp [hex, hexNumber?, Nat.mod_one]
  | succ w ih =>
      have hvalue : n / 16 % 16 ^ w * 16 + n % 16 = n % 16 ^ (w + 1) := by
        rw [Nat.pow_succ', Nat.mod_mul]
        ring
      have hfront : (hex w (n / 16)).foldlM (fun v d => (Text.hexValue? d).map (v * 16 + ·)) 0 = some (n / 16 % 16 ^ w) := ih _
      rw [hex, hexNumber?, List.foldlM_append, hfront]
      simp [Text.hexValue?_hexDigit, hvalue]

theorem isUnit_hex {n : Nat} (hn : n < 0x10000) : IsUnit (hex 4 n) n :=
  ⟨Text.length_hex 4 n, (hexNumber?_hex 4 n).trans (congrArg some (Nat.mod_eq_of_lt hn))⟩

theorem writes_hex (h : c.toNat < 0x10000) : Writes ('\\' :: 'u' :: hex 4 c.toNat) c := by
  have hvalid : c.toNat < 0xD800 ∨ 0xDFFF < c.toNat ∧ c.toNat < 0x110000 := c.valid
  have hunit := Writes.unit (Json.isUnit_hex h) (by omega)
  rwa [Char.ofNat_toNat] at hunit

theorem isNumber_toString (n : Int) : IsNumber (toString n).toList := by
  rw [Text.toString_eq_ofList, String.toList_ofList]
  refine ⟨Text.signOf n, Nat.toDigits 10 n.natAbs, [], [], by simp, ?_, ⟨⟨?_, Text.isDigit_of_mem_toDigits⟩, fun hzero => ?_⟩,
    .inl rfl, .inl rfl⟩
  · unfold Text.signOf
    split
    · exact .inr rfl
    · exact .inl rfl
  · exact Nat.toDigits_ne_nil
  · cases Nat.eq_zero_or_pos n.natAbs with
    | inl habs =>
        rw [habs]
        rfl
    | inr habs =>
        obtain ⟨c, cs, hcs, hc⟩ := Text.head_toDigits habs
        rw [hcs] at hzero
        exact absurd (Option.some.inj hzero) hc

-- Bytes of which none is a control character or a backslash.
def IsSolid (cs : List Char) : Prop := ∀ c ∈ cs, 0x20 ≤ c.toNat

-- Every backslash is followed by a letter that JSON knows behind one.
inductive IsClean : List Char → Prop where
  | nil : IsClean []
  | plain {c : Char} {cs : List Char} (hc : c ≠ '\\') (rest : IsClean cs) : IsClean (c :: cs)
  | escape {l : Char} {cs : List Char} (hl : l ∈ 'u' :: letters.map Prod.fst) (rest : IsClean cs) : IsClean ('\\' :: l :: cs)

section Clean

variable {cs ds : List Char}

theorem IsSolid.append (hcs : IsSolid cs) (hds : IsSolid ds) : IsSolid (cs ++ ds) := List.forall_mem_append.mpr ⟨hcs, hds⟩

theorem IsSolid.cons {c : Char} (hc : 0x20 ≤ c.toNat) (hcs : IsSolid cs) : IsSolid (c :: cs) := List.forall_mem_cons.mpr ⟨hc, hcs⟩

theorem isSolid_nil : IsSolid [] := List.forall_mem_nil _

theorem IsClean.append (hcs : IsClean cs) (hds : IsClean ds) : IsClean (cs ++ ds) := by
  induction hcs with
  | nil => exact hds
  | plain hc _ ih => exact ih.plain hc
  | escape hl _ ih => exact ih.escape hl

theorem IsClean.of_cons {c : Char} (hc : c ≠ '\\') (h : IsClean (c :: cs)) : IsClean cs := by
  cases h with
  | plain _ rest => exact rest
  | escape _ _ => exact absurd rfl hc

theorem IsClean.of_escape {l : Char} (h : IsClean ('\\' :: l :: cs)) : l ∈ 'u' :: letters.map Prod.fst ∧ IsClean cs := by
  cases h with
  | plain hc _ => exact absurd rfl hc
  | escape hl rest => exact ⟨hl, rest⟩

theorem IsClean.of_append (hcs : IsClean cs) (h : IsClean (cs ++ ds)) : IsClean ds := by
  induction hcs with
  | nil => exact h
  | plain hc _ ih => exact ih (h.of_cons hc)
  | escape _ _ ih => exact ih h.of_escape.2

theorem isClean_of_not_mem (h : '\\' ∉ cs) : IsClean cs := by
  induction cs with
  | nil => exact .nil
  | cons c cs ih =>
      rw [List.mem_cons, not_or] at h
      exact (ih h.2).plain (Ne.symm h.1)

-- Digits are neither.
theorem hexValue?_bounds {d : Char} {n : Nat} (h : Text.hexValue? d = some n) : 0x20 ≤ d.toNat ∧ d ≠ '\\' := by
  have hle {a : Char} (ha : a ≤ d) : a.toNat ≤ d.toNat := ha
  refine ⟨?_, ?_⟩
  · unfold Text.hexValue? Text.isDigit at h
    simp only [Bool.and_eq_true, decide_eq_true_eq] at h
    split at h
    · next hd => exact Nat.le_trans (by decide) (hle hd.1)
    split at h
    · next hd => exact Nat.le_trans (by decide) (hle hd.1)
    split at h
    · next hd => exact Nat.le_trans (by decide) (hle hd.1)
    · cases h
  · rintro rfl
    cases h

theorem hexNumber?_bounds {n : Nat} (h : hexNumber? ds = some n) : ∀ d ∈ ds, 0x20 ≤ d.toNat ∧ d ≠ '\\' := by
  have hfold {v : Nat} (h : ds.foldlM (fun v d => (Text.hexValue? d).map (v * 16 + ·)) v = some n) :
      ∀ d ∈ ds, 0x20 ≤ d.toNat ∧ d ≠ '\\' := by
    clear * - h
    induction ds generalizing v with
    | nil => exact List.forall_mem_nil _
    | cons d ds ih =>
        rw [List.foldlM_cons] at h
        obtain ⟨w, hw, h⟩ := Option.bind_eq_some_iff.mp h
        obtain ⟨m, hm, -⟩ := Option.map_eq_some_iff.mp hw
        exact List.forall_mem_cons.mpr ⟨hexValue?_bounds hm, ih h⟩
  exact hfold h

theorem digits_bounds (h : ∀ d ∈ ds, Text.isDigit d = true) : ∀ d ∈ ds, 0x20 ≤ d.toNat ∧ d ≠ '\\' := fun d hd =>
  hexValue?_bounds (n := d.toNat - '0'.toNat) (if_pos (h d hd))

theorem isNumber_bounds (h : IsNumber cs) : ∀ c ∈ cs, 0x20 ≤ c.toNat ∧ c ≠ '\\' := by
  obtain ⟨sign, whole, fraction, exponent, rfl, hsign, hwhole, hfraction, hexponent⟩ := h
  refine List.forall_mem_append.mpr ⟨?_, List.forall_mem_append.mpr ⟨digits_bounds hwhole.1.2, List.forall_mem_append.mpr ⟨?_, ?_⟩⟩⟩
  · rcases hsign with rfl | rfl <;> simp
  · rcases hfraction with rfl | ⟨ds, rfl, hds⟩
    · exact List.forall_mem_nil _
    · exact List.forall_mem_cons.mpr ⟨by decide, digits_bounds hds.2⟩
  · rcases hexponent with rfl | ⟨mark, sign, ds, rfl, hmark, hsign, hds⟩
    · exact List.forall_mem_nil _
    · refine List.forall_mem_cons.mpr ⟨?_, List.forall_mem_append.mpr ⟨?_, digits_bounds hds.2⟩⟩
      · rcases hmark with rfl | rfl <;> decide
      · rcases hsign with rfl | rfl | rfl <;> simp

theorem solid_and_clean (h : ∀ c ∈ cs, 0x20 ≤ c.toNat ∧ c ≠ '\\') : IsSolid cs ∧ IsClean cs :=
  ⟨fun c hc => (h c hc).1, isClean_of_not_mem fun hmem => (h _ hmem).2 rfl⟩

theorem Writes.solid_and_clean {w : List Char} {c : Char} (h : Writes w c) : IsSolid w ∧ IsClean w := by
  have hunit {ds : List Char} {n : Nat} (hds : IsUnit ds n) : IsSolid ds ∧ IsClean ds :=
    Json.solid_and_clean (hexNumber?_bounds hds.2)
  have hu : 'u' ∈ 'u' :: letters.map Prod.fst := List.mem_cons_self ..
  cases h with
  | plain hc =>
      refine Json.solid_and_clean fun b hb => ⟨?_, ?_⟩
      · by_contra hlow
        obtain rfl := Text.eq_of_mem_utf8 (by omega) hb
        exact hlow hc.1
      · rintro rfl
        exact hc.2.2 (Text.eq_of_mem_utf8 (by decide) hb).symm
  | letter hl =>
      have hall : ∀ p ∈ letters, 0x20 ≤ p.1.toNat := by simp [letters]
      exact ⟨.cons (by decide) (.cons (hall _ hl) isSolid_nil), .escape (List.mem_cons_of_mem _ (List.mem_map_of_mem hl)) .nil⟩
  | unit hds _ => exact ⟨.cons (by decide) (.cons (by decide) (hunit hds).1), (hunit hds).2.escape hu⟩
  | pair hds hes _ _ =>
      exact ⟨.cons (by decide) (.cons (by decide) ((hunit hds).1.append (.cons (by decide) (.cons (by decide) (hunit hes).1)))),
        ((hunit hds).2.append ((hunit hes).2.escape hu)).escape hu⟩

theorem Spells.solid_and_clean {us : List Char} (h : Spells cs us) : IsSolid cs ∧ IsClean cs := by
  induction h with
  | nil => exact ⟨isSolid_nil, .nil⟩
  | cons hw _ ih => exact ⟨hw.solid_and_clean.1.append ih.1, hw.solid_and_clean.2.append ih.2⟩

theorem IsBlank.clean (h : IsBlank cs) : IsClean cs := by
  refine isClean_of_not_mem fun hmem => ?_
  have hall := h _ hmem
  simp at hall

-- JSON is clean.
theorem Denotes.clean {x : Json} (h : Denotes cs x) : IsClean cs := by
  have hquote {cs : List Char} (h : IsClean cs) : IsClean ('"' :: (cs ++ ['"'])) := .plain (by decide) (h.append (.plain (by decide) .nil))
  have hlist {cs : List Char} (h : IsClean cs) : IsClean ('[' :: (cs ++ [']'])) := .plain (by decide) (h.append (.plain (by decide) .nil))
  have hobject {cs : List Char} (h : IsClean cs) : IsClean ('\x7b' :: (cs ++ ['\x7d'])) :=
    .plain (by decide) (h.append (.plain (by decide) .nil))
  refine @Denotes.rec (fun cs _ _ => IsClean cs) (fun cs _ _ => IsClean cs) (fun cs _ _ => IsClean cs) (fun cs _ _ => IsClean cs)
    ?null ?bool ?number ?text ?emptyList ?list ?emptyObject ?object ?lastItem ?item ?lastMember ?nextMember ?member cs x h
  case null => exact isClean_of_not_mem (by decide)
  case bool => exact fun b => isClean_of_not_mem (by cases b <;> decide)
  case number => exact fun hs => (Json.solid_and_clean (isNumber_bounds hs)).2
  case text => exact fun h => hquote h.solid_and_clean.2
  case emptyList => exact fun h => hlist h.clean
  case list => exact fun _ h => hlist h
  case emptyObject => exact fun h => hobject h.clean
  case object => exact fun _ h => hobject h
  case lastItem => exact fun ha _ hb h => (ha.clean.append h).append hb.clean
  case item => exact fun ha _ hb _ h hrest => ((ha.clean.append h).append hb.clean).append (.plain (by decide) hrest)
  case lastMember => exact fun _ h => h
  case nextMember => exact fun _ _ h hrest => h.append (.plain (by decide) hrest)
  case member =>
    exact fun ha hkey hb hc _ hd h => ha.clean.append (.plain (by decide) (hkey.solid_and_clean.2.append
      (.plain (by decide) (hb.clean.append (.plain (by decide) ((hc.clean.append h).append hd.clean))))))

end Clean

end Json

open Json (Writes Spells IsNumber IsBlank IsSolid Denotes DenotesItems DenotesMembers DenotesMember)

namespace Binary64

open Json (IsDigits IsWhole IsFraction IsExponent)

-- Digits in front of which no zero stands, or none at all for zero.
structure Decimal.IsNormal (d : Decimal) : Prop where
  digits : ∀ x ∈ d.digits, x < 10
  lead : d.digits.head? ≠ some 0
  zero : d.digits = [] → d.point ≤ 0

section Digits

variable {d : Decimal} {ds : List Nat}

theorem isNormal_zero : Decimal.IsNormal ⟨[], 0⟩ := ⟨List.forall_mem_nil _, by simp, fun _ => Int.le_refl 0⟩

theorem isNormal_withDigits (div : Nat → Nat → Nat) (n num den : Nat) : (withDigits div n num den).IsNormal := by
  unfold withDigits
  split
  · exact isNormal_zero
  dsimp only
  split
  · exact isNormal_zero
  next hvalue =>
  obtain ⟨c, cs, hdigits, hc⟩ := Text.head_toDigits (Nat.pos_of_ne_zero (by simpa using hvalue))
  have hall := hdigits ▸ Text.isDigit_of_mem_toDigits
  have hlt : ∀ d ∈ c :: cs, d.toNat - '0'.toNat < 10 := fun d hd => Text.lt_ten_of_isDigit (hall d hd)
  have hlead : c.toNat - '0'.toNat ≠ 0 := by
    intro hzero
    have hdigit := hall c (List.mem_cons_self ..)
    simp only [Text.isDigit, Bool.and_eq_true, decide_eq_true_eq] at hdigit
    have hle : '0'.toNat ≤ c.toNat := hdigit.1
    exact hc (Char.toNat_inj.mp (by omega))
  have hdrop (x : Nat) (xs : List Nat) (hx : x ≠ 0) : dropZeros (x :: xs) = x :: dropZeros xs := by
    rw [dropZeros, List.reverse_cons, Text.dropWhile_append_cons (by simpa using hx)]
    simp [dropZeros]
  rw [digitsOf, hdigits, List.map_cons]
  refine ⟨?_, ?_, ?_⟩
  · intro x hx
    have hmem : x ∈ (c :: cs).map fun c => c.toNat - '0'.toNat := by
      simp only [dropZeros, List.mem_reverse] at hx
      exact List.mem_reverse.mp ((List.dropWhile_suffix _).subset hx)
    obtain ⟨d, hd, rfl⟩ := List.mem_map.mp hmem
    exact hlt d hd
  · rw [hdrop _ _ hlead]
    exact fun h => hlead (Option.some.inj h)
  · rw [hdrop _ _ hlead]
    exact fun h => absurd h (List.cons_ne_nil _ _)

theorem isNormal_shortest (m : Nat) (e : Int) : (shortest m e).IsNormal := by
  have hfrom (fuel n : Nat) : (shortestFrom m e fuel n).IsNormal := by
    induction fuel generalizing n with
    | zero => exact isNormal_withDigits _ _ _ _
    | succ fuel ih =>
        rw [shortestFrom]
        dsimp only
        split
        · exact isNormal_withDigits _ _ _ _
        split
        · exact isNormal_withDigits _ _ _ _
        · exact ih _
  unfold shortest
  split
  · exact isNormal_zero
  · exact hfrom _ _

theorem isDigit_digit {x : Nat} (hx : x < 10) : Text.isDigit (Char.ofNat ('0'.toNat + x)) = true := by
  have hall : ∀ x < 10, Text.isDigit (Char.ofNat ('0'.toNat + x)) = true := by decide
  exact hall x hx

theorem isDigits_digitsAt (hds : ∀ x ∈ ds, x < 10) (i : Int) {n : Nat} (hn : n ≠ 0) :
    IsDigits (digitText (digitsAt ds i n)).toList := by
  have hget (i : Nat) : ds.getD i 0 < 10 := by
    rw [List.getD_eq_getElem?_getD]
    cases hi : ds[i]? with
    | none => simp
    | some x => exact hds x (List.mem_of_getElem? hi)
  have hall (i : Int) (n : Nat) : ∀ x ∈ digitsAt ds i n, x < 10 := by
    induction n generalizing i with
    | zero => exact List.forall_mem_nil _
    | succ n ih =>
        rw [digitsAt]
        refine List.forall_mem_cons.mpr ⟨?_, ih _⟩
        split
        · decide
        · exact hget _
  obtain ⟨n, rfl⟩ := Nat.exists_eq_succ_of_ne_zero hn
  rw [digitText, String.toList_ofList]
  refine ⟨by simp [digitsAt], fun c hc => ?_⟩
  obtain ⟨x, hx, rfl⟩ := List.mem_map.mp hc
  exact isDigit_digit (hall _ _ x hx)

theorem isFraction_digits (hds : ∀ x ∈ ds, x < 10) (i : Int) (n : Nat) :
    IsFraction (if n > 0 then "." ++ digitText (digitsAt ds i n) else "").toList := by
  split
  · next hn => exact .inr ⟨_, String.toList_append .., isDigits_digitsAt hds i (Nat.ne_of_gt hn)⟩
  · exact .inl rfl

theorem positional_shape (h : d.IsNormal) (prec : Nat) :
    ∃ whole fraction, (positional d prec).toList = whole ++ fraction ∧ IsWhole whole ∧ IsFraction fraction := by
  refine ⟨_, _, String.toList_append .., ?_, isFraction_digits h.digits _ _⟩
  split
  · next hpoint =>
    have hne : d.digits ≠ [] := fun hnil => absurd (h.zero hnil) (by omega)
    obtain ⟨x, xs, hdigits⟩ := List.exists_cons_of_ne_nil hne
    obtain ⟨n, hn⟩ := Nat.exists_eq_succ_of_ne_zero (show d.point.toNat ≠ 0 by omega)
    refine ⟨isDigits_digitsAt h.digits 0 (by omega), fun hzero => ?_⟩
    have hlead := h.lead
    rw [hdigits] at hlead hzero
    rw [hn, digitsAt, digitText, String.toList_ofList] at hzero
    have hchar : Char.ofNat ('0'.toNat + x) = '0' := Option.some.inj hzero
    have hall : ∀ x < 10, Char.ofNat ('0'.toNat + x) = '0' → x = 0 := by decide
    exact (hlead (congrArg some (hall x (h.digits x (hdigits ▸ List.mem_cons_self ..)) hchar))).elim
  · exact ⟨⟨by simp, by simp [Text.isDigit]⟩, fun _ => rfl⟩

theorem scientific_shape (h : ∀ x ∈ d.digits, x < 10) (prec : Int) :
    ∃ x fraction sign ds, (scientific 'e' d prec).toList = x :: (fraction ++ 'e' :: sign :: ds) ∧ Text.isDigit x = true ∧
      IsFraction fraction ∧ (sign = '-' ∨ sign = '+') ∧ IsDigits ds := by
  have hfraction : IsFraction (if prec > 0 then "." ++ digitText (digitsAt d.digits 1 prec.toNat) else "").toList := by
    have hnat := isFraction_digits h 1 prec.toNat
    have hsame : (prec.toNat > 0) = (prec > 0) := by simp
    rwa [ite_congr hsame (fun _ => rfl) fun _ => rfl] at hnat
  have hexponent (n : Nat) : IsDigits (if (toString n).length < 2 then "0" ++ toString n else toString n).toList := by
    have hdigits : IsDigits (toString n).toList := by
      rw [Nat.toString_eq_repr, Nat.repr_eq_ofList_toDigits, String.toList_ofList]
      exact ⟨Nat.toDigits_ne_nil, Text.isDigit_of_mem_toDigits⟩
    split
    · rw [String.toList_append]
      exact ⟨by simp, List.forall_mem_append.mpr ⟨by simp [Text.isDigit], hdigits.2⟩⟩
    · exact hdigits
  have hfirst := (isDigits_digitsAt h 0 Nat.one_ne_zero).2
  rw [digitsAt, digitsAt, digitText, String.toList_ofList, List.map_singleton] at hfirst
  let exp : Int := if d.digits.isEmpty then 0 else d.point - 1
  refine ⟨_, _, if exp < 0 then '-' else '+', _, ?_, hfirst _ (List.mem_singleton_self _), hfraction, ?_, hexponent exp.natAbs⟩
  · simp [scientific, digitText, digitsAt, exp]
  · split
    · exact .inl rfl
    · exact .inr rfl

theorem general_cases (mark : Char) (d : Decimal) :
    (∃ n, general mark d none = scientific mark d n) ∨ ∃ n, general mark d none = positional d n := by
  unfold general
  dsimp only
  split
  · exact .inl ⟨_, rfl⟩
  · exact .inr ⟨_, rfl⟩

-- Every number is written as JSON has it.

theorem isNumber_signed {s : String} (negative : Bool) {whole fraction exponent : List Char} (hs : s.toList = whole ++ (fraction ++ exponent))
    (hwhole : IsWhole whole) (hfraction : IsFraction fraction) (hexponent : IsExponent exponent) :
    IsNumber ((if negative then "-" else "") ++ s).toList := by
  refine ⟨(if negative then "-" else "").toList, whole, fraction, exponent, by rw [String.toList_append, hs], ?_, hwhole, hfraction, hexponent⟩
  cases negative with
  | false => exact .inl rfl
  | true => exact .inr rfl

theorem isWhole_digit {x : Char} (hx : Text.isDigit x = true) : IsWhole [x] :=
  ⟨⟨List.cons_ne_nil _ _, List.forall_mem_singleton.mpr hx⟩, fun h => congrArg (fun c => [c]) (Option.some.inj h)⟩

theorem isNumber_positional (negative : Bool) (h : d.IsNormal) (prec : Nat) :
    IsNumber ((if negative then "-" else "") ++ positional d prec).toList := by
  obtain ⟨whole, fraction, htext, hwhole, hfraction⟩ := positional_shape h prec
  exact isNumber_signed negative (htext.trans (by rw [List.append_nil])) hwhole hfraction (.inl rfl)

theorem isNumber_scientific (negative : Bool) (h : d.IsNormal) (prec : Int) :
    IsNumber ((if negative then "-" else "") ++ scientific 'e' d prec).toList := by
  obtain ⟨x, fraction, sign, ds, htext, hx, hfraction, hsign, hds⟩ := scientific_shape h.digits prec
  refine isNumber_signed negative htext (isWhole_digit hx) hfraction (.inr ⟨'e', [sign], ds, rfl, .inl rfl, ?_, hds⟩)
  rcases hsign with rfl | rfl <;> simp

theorem isNumber_general (negative : Bool) (h : d.IsNormal) :
    IsNumber ((if negative then "-" else "") ++ general 'e' d none).toList := by
  obtain ⟨n, hn⟩ | ⟨n, hn⟩ := general_cases 'e' d
  · rw [hn]
    exact isNumber_scientific negative h n
  · rw [hn]
    exact isNumber_positional negative h n

end Digits

theorem isNumber_text (style : Style) (negative : Bool) (m : Nat) (e : Int) :
    IsNumber (text style 'e' none (.finite negative m e)).toList := by
  have hnormal := isNormal_shortest m e
  cases style with
  | exponent => exact isNumber_scientific negative hnormal _
  | fixed => exact isNumber_positional negative hnormal _
  | general => exact isNumber_general negative hnormal

end Binary64

namespace Log

theorem jsonNumber_cases (x : Binary64) :
    (∃ style, jsonNumber x = x.text style 'e' none) ∨
      ∃ front sign d, (x.text .exponent 'e' none).toList = front ++ 'e' :: sign :: ['0', d] ∧
        jsonNumber x = String.ofList (front ++ ['e', sign, d]) := by
  have hshort {text : String} {d sign : Char} {rest : List Char} (h : text.toList.reverse = d :: '0' :: sign :: 'e' :: rest) :
      text.toList = rest.reverse ++ 'e' :: sign :: ['0', d] := by
    rw [← List.reverse_reverse text.toList, h]
    simp
  unfold jsonNumber
  dsimp only
  generalize (!x.isZero && _) = large
  cases large with
  | false => exact .inl ⟨.fixed, rfl⟩
  | true =>
      simp only [if_true]
      split
      · next h => exact .inr ⟨_, _, _, hshort h, rfl⟩
      · exact .inl ⟨.exponent, rfl⟩

theorem isNumber_jsonNumber (negative : Bool) (m : Nat) (e : Int) : IsNumber (jsonNumber (.finite negative m e)).toList := by
  obtain ⟨style, hstyle⟩ | ⟨front, mark, d, htext, hshort⟩ := jsonNumber_cases (.finite negative m e)
  · rw [hstyle]
    exact Binary64.isNumber_text style negative m e
  · have hnormal := Binary64.isNormal_shortest m e
    let shortest := Binary64.shortest m e
    obtain ⟨x, fraction, sign, ds, hscientific, hx, hfraction, hsign, hds⟩ :=
      Binary64.scientific_shape hnormal.digits (max ((shortest.digits.length : Int) - 1) 0)
    have hsigned : (Binary64.text .exponent 'e' none (.finite negative m e)).toList =
        ((if negative then "-" else "").toList ++ x :: fraction) ++ 'e' :: sign :: ds := by
      rw [Binary64.text, String.toList_append, Binary64.unsigned]
      simp [hscientific, shortest]
    -- the mark stands once, so that both splits of the text are the same
    have hdigit {c : Char} (hc : Text.isDigit c = true) : 'e' ≠ c := by
      rintro rfl
      cases hc
    have hfront : 'e' ∉ (if negative then "-" else "").toList ++ x :: fraction := by
      rw [List.mem_append, List.mem_cons, not_or, not_or]
      refine ⟨by cases negative <;> decide, hdigit hx, ?_⟩
      rcases hfraction with rfl | ⟨ds, rfl, -, hall⟩
      · exact List.not_mem_nil
      · exact List.not_mem_cons_of_ne_of_not_mem (by decide) fun hmem => hdigit (hall _ hmem) rfl
    have hback : 'e' ∉ sign :: ds := by
      refine List.not_mem_cons_of_ne_of_not_mem ?_ fun hmem => hdigit (hds.2 _ hmem) rfl
      rcases hsign with rfl | rfl <;> decide
    obtain ⟨rfl, -, hexponent⟩ := (List.append_cons_inj_of_notMem hfront hback).mp (hsigned.symm.trans htext)
    obtain ⟨rfl, rfl⟩ := List.cons.inj hexponent
    rw [hshort, String.toList_ofList]
    refine ⟨(if negative then "-" else "").toList, [x], fraction, ['e', sign, d], by simp, ?_, Binary64.isWhole_digit hx, hfraction,
      .inr ⟨'e', [sign], [d], rfl, .inl rfl, ?_, List.cons_ne_nil _ _, ?_⟩⟩
    · cases negative with
      | false => exact .inl rfl
      | true => exact .inr rfl
    · rcases hsign with rfl | rfl <;> simp
    · exact List.forall_mem_singleton.mpr (hds.2 d (by simp))

end Log

namespace Log

-- Data of no fixed shape

mutual

def Item.toJson : Item → Json
  | .null => .null
  | .bool b => .bool b
  | .number x => .number (jsonNumber x)
  | .text s => .text (Text.mended s)
  | .list items => .list (toJsons items)
  | .table fields => .object (toMembers fields)

def toJsons : List Item → List Json
  | [] => []
  | x :: xs => x.toJson :: toJsons xs

def toMembers : List (String × Item) → List (String × Json)
  | [] => []
  | (k, x) :: fs => (Text.mended k, x.toJson) :: toMembers fs

end

-- Its numbers can be written down.
mutual

def Item.IsFinite : Item → Prop
  | .number x => ∃ negative mantissa exponent, x = .finite negative mantissa exponent
  | .list items => AreFinite items
  | .table fields => FieldsFinite fields
  | _ => True

def AreFinite : List Item → Prop
  | [] => True
  | x :: xs => x.IsFinite ∧ AreFinite xs

def FieldsFinite : List (String × Item) → Prop
  | [] => True
  | (_, x) :: fs => x.IsFinite ∧ FieldsFinite fs

end

section Items

theorem writes_jsonRune (html : Bool) (r : Text.Rune) : Writes (jsonRune true html r) r.value := by
  cases r with
  | stray b =>
      have htext : jsonRune true html (.stray b) = '\\' :: 'u' :: Text.hex 4 Text.replacement.toNat := by
        show "\\ufffd".toList = _
        decide
      rw [htext]
      exact Json.writes_hex (by decide)
  | char c =>
      unfold jsonRune
      dsimp only
      split
      · next hself =>
        refine .letter ?_
        rcases (by simpa using hself : c = '"' ∨ c = '\\') with rfl | rfl <;> simp [Json.letters, Text.Rune.value]
      next hother =>
      simp only [Bool.or_eq_true, beq_iff_eq, not_or] at hother
      split
      · next hc => exact .letter (by simp [Json.letters, Text.Rune.value, beq_iff_eq.mp hc])
      split
      · next hc => exact .letter (by simp [Json.letters, Text.Rune.value, beq_iff_eq.mp hc])
      split
      · next hc => exact .letter (by simp [Json.letters, Text.Rune.value, beq_iff_eq.mp hc])
      split
      · next hc => exact .letter (by simp at hc; simp [Json.letters, Text.Rune.value, hc])
      split
      · next hc => exact .letter (by simp at hc; simp [Json.letters, Text.Rune.value, hc])
      split
      · next hlow =>
        refine Json.writes_hex ?_
        simp only [Bool.or_eq_true, decide_eq_true_eq, beq_iff_eq] at hlow
        omega
      next hlow =>
      split
      · next hmarkup =>
        refine Json.writes_hex ?_
        have hc : c = '<' ∨ c = '>' ∨ c = '&' := by simpa [or_assoc] using (Bool.and_eq_true_iff.mp hmarkup).2
        rcases hc with rfl | rfl | rfl <;> decide
      · simp only [Bool.or_eq_true, decide_eq_true_eq, not_or] at hlow
        exact .plain ⟨by omega, hother.1, hother.2⟩

-- A stray byte is read as the replacement character.
theorem spells_jsonText (html : Bool) (s : String) :
    ∃ cs us, (jsonText true html s).toList = '"' :: (cs ++ ['"']) ∧ Spells cs us ∧ String.ofList (us.flatMap Text.utf8) = Text.mended s := by
  have hspells (rs : List Text.Rune) : Spells (rs.flatMap (jsonRune true html)) (rs.map Text.Rune.value) := by
    induction rs with
    | nil => exact .nil
    | cons r rs ih => exact ih.cons (writes_jsonRune html r)
  refine ⟨_, _, by simp [jsonText], hspells (Text.runes s), ?_⟩
  rw [Text.mended, Text.ofRunes, List.flatMap_map, List.flatMap_map]
  rfl


-- The text is JSON for the value, and stands on one line.
def Renders (s : String) (x : Json) : Prop := Denotes s.toList x ∧ IsSolid s.toList

def RendersMember (s : String) (m : String × Json) : Prop := DenotesMember s.toList m ∧ IsSolid s.toList

theorem Renders.number {s : String} (h : IsNumber s.toList) : Renders s (.number s) := ⟨.number h, fun c hc => (Json.isNumber_bounds h c hc).1⟩

theorem Renders.quoted {s : String} {cs us : List Char} (hs : s.toList = '"' :: (cs ++ ['"'])) (h : Spells cs us) :
    Renders s (.text (String.ofList (us.flatMap Text.utf8))) := by
  rw [Renders, hs]
  exact ⟨.text h, .cons (by decide) (h.solid_and_clean.1.append (.cons (by decide) (List.forall_mem_nil _)))⟩

theorem renders_boolText (b : Bool) : Renders (boolText b) (.bool b) := by
  cases b with
  | false => exact ⟨.bool false, by simp [boolText, IsSolid]⟩
  | true => exact ⟨.bool true, by simp [boolText, IsSolid]⟩

theorem renders_jsonText (html : Bool) (s : String) : Renders (jsonText true html s) (.text (Text.mended s)) := by
  obtain ⟨cs, us, hs, hspells, hus⟩ := spells_jsonText html s
  rw [← hus]
  exact .quoted hs hspells

theorem toList_commas (t : String) {ts : List String} (hts : ts ≠ []) :
    (Text.joinWith "," (t :: ts)).toList = t.toList ++ ',' :: (Text.joinWith "," ts).toList := by
  rw [Text.joinWith, String.intercalate_cons_of_ne_nil hts]
  simp [Text.joinWith]

theorem commas_solid {α : Type} {R : String → α → Prop} (hR : ∀ t x, R t x → IsSolid t.toList) {ts : List String} {xs : List α}
    (h : List.Forall₂ R ts xs) : IsSolid (Text.joinWith "," ts).toList := by
  induction h with
  | nil => exact List.forall_mem_nil _
  | @cons t x ts xs hx _ ih =>
      by_cases hne : ts = []
      · subst hne
        simpa [Text.joinWith] using hR t x hx
      · rw [toList_commas t hne]
        exact (hR t x hx).append (.cons (by decide) ih)

theorem isBlank_nil : IsBlank [] := List.forall_mem_nil _

theorem renders_list {ts : List String} {xs : List Json} (h : List.Forall₂ Renders ts xs) :
    Renders ("[" ++ Text.joinWith "," ts ++ "]") (.list xs) := by
  have hitems {t : String} {x : Json} {ts : List String} {xs : List Json} (hx : Renders t x) (hxs : List.Forall₂ Renders ts xs) :
      DenotesItems (Text.joinWith "," (t :: ts)).toList (x :: xs) := by
    induction hxs generalizing t x with
    | nil => simpa [Text.joinWith] using DenotesItems.last isBlank_nil hx.1 isBlank_nil
    | cons hy _ ih =>
        rw [toList_commas t (List.cons_ne_nil _ _)]
        simpa using DenotesItems.cons isBlank_nil hx.1 isBlank_nil (ih hy)
  have htext : ("[" ++ Text.joinWith "," ts ++ "]").toList = '[' :: ((Text.joinWith "," ts).toList ++ [']']) := by simp
  rw [Renders, htext]
  refine ⟨?_, .cons (by decide) ((commas_solid (fun _ _ hx => hx.2) h).append (.cons (by decide) (List.forall_mem_nil _)))⟩
  cases h with
  | nil => exact .emptyList isBlank_nil
  | cons hx hxs => exact .list (hitems hx hxs)

theorem renders_table {ts : List String} {ms : List (String × Json)} (h : List.Forall₂ RendersMember ts ms) :
    Renders ("\x7b" ++ Text.joinWith "," ts ++ "\x7d") (.object ms) := by
  have hmembers {t : String} {m : String × Json} {ts : List String} {ms : List (String × Json)} (hm : RendersMember t m)
      (hms : List.Forall₂ RendersMember ts ms) : DenotesMembers (Text.joinWith "," (t :: ts)).toList (m :: ms) := by
    induction hms generalizing t m with
    | nil => simpa [Text.joinWith] using DenotesMembers.last hm.1
    | cons hn _ ih =>
        rw [toList_commas t (List.cons_ne_nil _ _)]
        exact .cons hm.1 (ih hn)
  have htext : ("\x7b" ++ Text.joinWith "," ts ++ "\x7d").toList = '\x7b' :: ((Text.joinWith "," ts).toList ++ ['\x7d']) := by simp
  rw [Renders, htext]
  refine ⟨?_, .cons (by decide) ((commas_solid (fun _ _ hm => hm.2) h).append (.cons (by decide) (List.forall_mem_nil _)))⟩
  cases h with
  | nil => exact .emptyObject isBlank_nil
  | cons hm hms => exact .object (hmembers hm hms)

theorem rendersMember_json (html : Bool) (k : String) {s : String} {x : Json} (h : Renders s x) :
    RendersMember (jsonText true html k ++ ":" ++ s) (Text.mended k, x) := by
  obtain ⟨cs, us, hk, hspells, hus⟩ := spells_jsonText html k
  have htext : (jsonText true html k ++ ":" ++ s).toList = '"' :: (cs ++ '"' :: ':' :: s.toList) := by simp [hk]
  rw [RendersMember, htext, ← hus]
  refine ⟨?_, .cons (by decide) (hspells.solid_and_clean.1.append (.cons (by decide) (.cons (by decide) h.2)))⟩
  simpa using DenotesMember.mk isBlank_nil hspells isBlank_nil isBlank_nil h.1 isBlank_nil

-- An item is JSON on one line.
theorem renders_item (html : Bool) (x : Item) : x.IsFinite → Renders (x.json html) x.toJson := by
  refine Item.toJson.induct (fun x => x.IsFinite → Renders (x.json html) x.toJson)
    (fun fs => FieldsFinite fs → List.Forall₂ RendersMember (jsonFields html fs) (toMembers fs))
    (fun xs => AreFinite xs → List.Forall₂ Renders (jsonItems html xs) (toJsons xs)) ?null ?bool ?number ?text ?list ?table
    ?noItem ?item ?noField ?field x
  case null => exact fun _ => ⟨.null, by simp [Item.json, IsSolid]⟩
  case bool => exact fun b _ => renders_boolText b
  case number =>
    rintro x ⟨negative, m, e, rfl⟩
    exact .number (isNumber_jsonNumber negative m e)
  case text => exact fun s _ => renders_jsonText html s
  case list => exact fun xs ih h => renders_list (ih h)
  case table => exact fun fs ih h => renders_table (ih h)
  case noItem => exact fun _ => .nil
  case item => exact fun x xs hx ih h => .cons (hx h.1) (ih h.2)
  case noField => exact fun _ => .nil
  case field => exact fun k x fs hx ih h => .cons (rendersMember_json html k (hx h.1)) (ih h.2)

end Items

end Log

end ShellScript

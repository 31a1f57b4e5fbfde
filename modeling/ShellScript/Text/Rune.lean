import ShellScript.Text.Byte

-- Reading the bytes of a text as UTF-8. A byte that begins no well-formed sequence stands alone and counts
-- as one character, the replacement character.
namespace ShellScript.Text

inductive Rune where
  | char (c : Char)
  | stray (byte : Char)
deriving Repr, DecidableEq, Inhabited

def replacement : Char := Char.ofNat 0xFFFD

namespace Rune

def value : Rune → Char
  | .char c => c
  | .stray _ => replacement

end Rune

-- The UTF-8 bytes of a character.
def utf8 (c : Char) : List Char :=
  let n := c.toNat
  if n < 0x80 then [c]
  else if n < 0x800 then [Char.ofNat (0xC0 + n / 64), Char.ofNat (0x80 + n % 64)]
  else if n < 0x10000 then
    [Char.ofNat (0xE0 + n / 4096), Char.ofNat (0x80 + n / 64 % 64), Char.ofNat (0x80 + n % 64)]
  else
    [Char.ofNat (0xF0 + n / 262144), Char.ofNat (0x80 + n / 4096 % 64), Char.ofNat (0x80 + n / 64 % 64),
      Char.ofNat (0x80 + n % 64)]

def Rune.bytes : Rune → List Char
  | .char c => utf8 c
  | .stray b => [b]

private def continuation (c : Char) : Bool := 0x80 ≤ c.toNat && c.toNat ≤ 0xBF

-- Shortest forms only, and neither surrogates nor numbers above U+10FFFF: the second byte's range says so.
private def second (lead byte : Char) : Bool :=
  let l := lead.toNat
  let b := byte.toNat
  let low := if l == 0xE0 then 0xA0 else if l == 0xF0 then 0x90 else 0x80
  let high := if l == 0xED then 0x9F else if l == 0xF4 then 0x8F else 0xBF
  low ≤ b && b ≤ high

-- The character that `lead` begins, and how many of the following bytes belong to it.
def leading (lead : Char) (rest : List Char) : Rune × Nat :=
  let n := lead.toNat
  if n < 0x80 then (.char lead, 0)
  else if 0xC2 ≤ n && n ≤ 0xDF then
    match rest with
    | b :: _ =>
      if continuation b then (.char (Char.ofNat ((n - 0xC0) * 64 + (b.toNat - 0x80))), 1) else (.stray lead, 0)
    | _ => (.stray lead, 0)
  else if 0xE0 ≤ n && n ≤ 0xEF then
    match rest with
    | b :: c :: _ =>
      if second lead b && continuation c then
        (.char (Char.ofNat ((n - 0xE0) * 4096 + (b.toNat - 0x80) * 64 + (c.toNat - 0x80))), 2)
      else (.stray lead, 0)
    | _ => (.stray lead, 0)
  else if 0xF0 ≤ n && n ≤ 0xF4 then
    match rest with
    | b :: c :: d :: _ =>
      if second lead b && continuation c && continuation d then
        (.char (Char.ofNat ((n - 0xF0) * 262144 + (b.toNat - 0x80) * 4096 + (c.toNat - 0x80) * 64
          + (d.toNat - 0x80))), 3)
      else (.stray lead, 0)
    | _ => (.stray lead, 0)
  else (.stray lead, 0)

private def runesAfter : Nat → List Char → List Rune
  | _, [] => []
  | k + 1, _ :: cs => runesAfter k cs
  | 0, c :: cs =>
    let (r, k) := leading c cs
    r :: runesAfter k cs

def runesOf (cs : List Char) : List Rune := runesAfter 0 cs

-- A byte below 128 is a character of its own.
theorem runesOf_cons {c : Char} (h : c.toNat < 0x80) (cs : List Char) : runesOf (c :: cs) = .char c :: runesOf cs := by
  have hleading : leading c cs = (.char c, 0) := if_pos h
  simp only [runesOf, runesAfter, hleading]

theorem runesOf_of_ascii {cs : List Char} (h : ∀ c ∈ cs, c.toNat < 0x80) : runesOf cs = cs.map .char := by
  induction cs with
  | nil => rfl
  | cons c cs ih =>
      obtain ⟨hc, hcs⟩ := List.forall_mem_cons.mp h
      rw [runesOf_cons hc, ih hcs, List.map_cons]

theorem toNat_ofNat {n : Nat} (h : n < 0xD800 ∨ 0xDFFF < n ∧ n < 0x110000) : (Char.ofNat n).toNat = n := by
  have hvalid : n.isValidChar := h
  rw [Char.ofNat, dif_pos hvalid]
  rfl

-- What the bytes of a sequence hold is written with the same bytes.
private theorem utf8_two {a b : Nat} (ha : 2 ≤ a ∧ a < 32) (hb : b < 64) :
    utf8 (Char.ofNat (a * 64 + b)) = [Char.ofNat (0xC0 + a), Char.ofNat (0x80 + b)] := by
  have hn := toNat_ofNat (n := a * 64 + b) (.inl (by omega))
  have hhigh : (a * 64 + b) / 64 = a := by omega
  have hlow : (a * 64 + b) % 64 = b := by omega
  rw [utf8, hn, if_neg (by omega), if_pos (by omega), hhigh, hlow]

private theorem utf8_three {a b c : Nat} (ha : a < 16) (hb : b < 64) (hc : c < 64) (hlong : a = 0 → 32 ≤ b)
    (hvalid : a = 13 → b < 32) :
    utf8 (Char.ofNat (a * 4096 + b * 64 + c)) = [Char.ofNat (0xE0 + a), Char.ofNat (0x80 + b), Char.ofNat (0x80 + c)] := by
  have hn := toNat_ofNat (n := a * 4096 + b * 64 + c) (by omega)
  have hhigh : (a * 4096 + b * 64 + c) / 4096 = a := by omega
  have hmid : (a * 4096 + b * 64 + c) / 64 % 64 = b := by omega
  have hlow : (a * 4096 + b * 64 + c) % 64 = c := by omega
  rw [utf8, hn, if_neg (by omega), if_neg (by omega), if_pos (by omega), hhigh, hmid, hlow]

private theorem utf8_four {a b c d : Nat} (ha : a < 5) (hb : b < 64) (hc : c < 64) (hd : d < 64) (hlong : a = 0 → 16 ≤ b)
    (hvalid : a = 4 → b < 16) :
    utf8 (Char.ofNat (a * 262144 + b * 4096 + c * 64 + d)) =
      [Char.ofNat (0xF0 + a), Char.ofNat (0x80 + b), Char.ofNat (0x80 + c), Char.ofNat (0x80 + d)] := by
  have hn := toNat_ofNat (n := a * 262144 + b * 4096 + c * 64 + d) (by omega)
  have hhigh : (a * 262144 + b * 4096 + c * 64 + d) / 262144 = a := by omega
  have hmid : (a * 262144 + b * 4096 + c * 64 + d) / 4096 % 64 = b := by omega
  have hmid' : (a * 262144 + b * 4096 + c * 64 + d) / 64 % 64 = c := by omega
  have hlow : (a * 262144 + b * 4096 + c * 64 + d) % 64 = d := by omega
  rw [utf8, hn, if_neg (by omega), if_neg (by omega), if_neg (by omega), hhigh, hmid, hmid', hlow]

private theorem ofNat_add_sub {c : Char} {n : Nat} (h : n ≤ c.toNat) : Char.ofNat (n + (c.toNat - n)) = c := by
  rw [Nat.add_sub_cancel' h, Char.ofNat_toNat]

private theorem continuation_bounds {c : Char} (h : continuation c = true) : 0x80 ≤ c.toNat ∧ c.toNat - 0x80 < 64 := by
  simp only [continuation, Bool.and_eq_true, decide_eq_true_eq] at h
  omega

private theorem second_bounds {lead b : Char} (h : second lead b = true) :
    (0x80 ≤ b.toNat ∧ b.toNat - 0x80 < 64) ∧ (lead.toNat = 0xE0 → 0xA0 ≤ b.toNat) ∧ (lead.toNat = 0xF0 → 0x90 ≤ b.toNat) ∧
      (lead.toNat = 0xED → b.toNat ≤ 0x9F) ∧ (lead.toNat = 0xF4 → b.toNat ≤ 0x8F) := by
  simp only [second, Bool.and_eq_true, decide_eq_true_eq, beq_iff_eq] at h
  split at h <;> split at h <;> (try split at h) <;> (try split at h) <;> omega

-- The first rune is written with its own bytes.
theorem leading_bytes (c : Char) (cs : List Char) :
    (leading c cs).1.bytes = c :: cs.take (leading c cs).2 := by
  unfold leading
  dsimp only
  split
  · next h => simp [Rune.bytes, utf8, h]
  split
  · next hn =>
    simp only [Bool.and_eq_true, decide_eq_true_eq] at hn
    split
    · split
      · next b cs hb =>
        have hb := continuation_bounds hb
        rw [Rune.bytes, utf8_two (by omega) hb.2, ofNat_add_sub (by omega), ofNat_add_sub hb.1]
        rfl
      · rfl
    · rfl
  split
  · next hn =>
    simp only [Bool.and_eq_true, decide_eq_true_eq] at hn
    split
    · split
      · next b d cs hbd =>
        rw [Bool.and_eq_true] at hbd
        have hb := second_bounds hbd.1
        have hd := continuation_bounds hbd.2
        rw [Rune.bytes, utf8_three (by omega) hb.1.2 hd.2 (by omega) (by omega), ofNat_add_sub (by omega),
          ofNat_add_sub hb.1.1, ofNat_add_sub hd.1]
        rfl
      · rfl
    · rfl
  split
  · next hn =>
    simp only [Bool.and_eq_true, decide_eq_true_eq] at hn
    split
    · split
      · next b d e cs hbde =>
        rw [Bool.and_eq_true, Bool.and_eq_true] at hbde
        have hb := second_bounds hbde.1.1
        have hd := continuation_bounds hbde.1.2
        have he := continuation_bounds hbde.2
        rw [Rune.bytes, utf8_four (by omega) hb.1.2 hd.2 he.2 (by omega) (by omega), ofNat_add_sub (by omega),
          ofNat_add_sub hb.1.1, ofNat_add_sub hd.1, ofNat_add_sub he.1]
        rfl
      · rfl
    · rfl
  · rfl

private theorem toNat_byte {n : Nat} (h : n < 0x100) : (Char.ofNat n).toNat = n := toNat_ofNat (.inl (by omega))

private theorem continuation_ofNat {b : Nat} (hb : b < 64) : continuation (Char.ofNat (0x80 + b)) = true := by
  simp only [continuation, toNat_byte (n := 0x80 + b) (by omega), Bool.and_eq_true, decide_eq_true_eq]
  omega

private theorem second_of_bounds {lead b : Char} (hb : 0x80 ≤ b.toNat ∧ b.toNat - 0x80 < 64)
    (hlong : (lead.toNat = 0xE0 → 0xA0 ≤ b.toNat) ∧ (lead.toNat = 0xF0 → 0x90 ≤ b.toNat))
    (hvalid : (lead.toNat = 0xED → b.toNat ≤ 0x9F) ∧ (lead.toNat = 0xF4 → b.toNat ≤ 0x8F)) : second lead b = true := by
  simp only [second, Bool.and_eq_true, decide_eq_true_eq, beq_iff_eq]
  split <;> split <;> (try split) <;> (try split) <;> omega

-- The bytes of a sequence are read as what they hold, whatever follows.
private theorem leading_two {a b : Nat} (ha : 2 ≤ a ∧ a < 32) (hb : b < 64) (rest : List Char) :
    leading (Char.ofNat (0xC0 + a)) (Char.ofNat (0x80 + b) :: rest) = (.char (Char.ofNat (a * 64 + b)), 1) := by
  simp only [leading, toNat_byte (n := 0xC0 + a) (by omega), toNat_byte (n := 0x80 + b) (by omega),
    continuation_ofNat hb, Nat.add_sub_cancel_left, Bool.and_eq_true, decide_eq_true_eq]
  rw [if_neg (by omega), if_pos (by omega), if_pos trivial]

private theorem leading_three {a b c : Nat} (ha : a < 16) (hb : b < 64) (hc : c < 64) (hlong : a = 0 → 32 ≤ b)
    (hvalid : a = 13 → b < 32) (rest : List Char) :
    leading (Char.ofNat (0xE0 + a)) (Char.ofNat (0x80 + b) :: Char.ofNat (0x80 + c) :: rest) =
      (.char (Char.ofNat (a * 4096 + b * 64 + c)), 2) := by
  have hlead := toNat_byte (n := 0xE0 + a) (by omega)
  have hmid := toNat_byte (n := 0x80 + b) (by omega)
  have hsecond : second (Char.ofNat (0xE0 + a)) (Char.ofNat (0x80 + b)) = true := by
    refine second_of_bounds ?_ ?_ ?_ <;> rw [hmid] <;> (try rw [hlead]) <;> omega
  simp only [leading, hlead, hmid, toNat_byte (n := 0x80 + c) (by omega), hsecond, continuation_ofNat hc,
    Nat.add_sub_cancel_left, Bool.and_eq_true, decide_eq_true_eq]
  rw [if_neg (by omega), if_neg (by omega), if_pos (by omega), if_pos ⟨trivial, trivial⟩]

private theorem leading_four {a b c d : Nat} (ha : a < 5) (hb : b < 64) (hc : c < 64) (hd : d < 64)
    (hlong : a = 0 → 16 ≤ b) (hvalid : a = 4 → b < 16) (rest : List Char) :
    leading (Char.ofNat (0xF0 + a)) (Char.ofNat (0x80 + b) :: Char.ofNat (0x80 + c) :: Char.ofNat (0x80 + d) :: rest) =
      (.char (Char.ofNat (a * 262144 + b * 4096 + c * 64 + d)), 3) := by
  have hlead := toNat_byte (n := 0xF0 + a) (by omega)
  have hhigh := toNat_byte (n := 0x80 + b) (by omega)
  have hsecond : second (Char.ofNat (0xF0 + a)) (Char.ofNat (0x80 + b)) = true := by
    refine second_of_bounds ?_ ?_ ?_ <;> rw [hhigh] <;> (try rw [hlead]) <;> omega
  simp only [leading, hlead, hhigh, toNat_byte (n := 0x80 + c) (by omega), toNat_byte (n := 0x80 + d) (by omega), hsecond,
    continuation_ofNat hc, continuation_ofNat hd, Nat.add_sub_cancel_left, Bool.and_eq_true, decide_eq_true_eq]
  rw [if_neg (by omega), if_neg (by omega), if_neg (by omega), if_pos (by omega), if_pos ⟨⟨trivial, trivial⟩, trivial⟩]

theorem leading_utf8 (c : Char) (rest : List Char) :
    ∃ b bs, utf8 c = b :: bs ∧ leading b (bs ++ rest) = (.char c, bs.length) := by
  have hvalid : c.toNat < 0xD800 ∨ 0xDFFF < c.toNat ∧ c.toNat < 0x110000 := c.valid
  have hback {n : Nat} (hn : n = c.toNat) : Char.ofNat n = c := by rw [hn, Char.ofNat_toNat]
  by_cases hone : c.toNat < 0x80
  · exact ⟨c, [], if_pos hone, if_pos hone⟩
  by_cases htwo : c.toNat < 0x800
  · refine ⟨_, _, by rw [utf8, if_neg hone, if_pos htwo], ?_⟩
    refine (leading_two (by omega) (by omega) rest).trans ?_
    rw [hback (by omega)]
    rfl
  by_cases hthree : c.toNat < 0x10000
  · refine ⟨_, _, by rw [utf8, if_neg hone, if_neg htwo, if_pos hthree], ?_⟩
    refine (leading_three (by omega) (by omega) (by omega) (by omega) (by omega) rest).trans ?_
    rw [hback (by omega)]
    rfl
  · refine ⟨_, _, by rw [utf8, if_neg hone, if_neg htwo, if_neg hthree], ?_⟩
    refine (leading_four (by omega) (by omega) (by omega) (by omega) (by omega) (by omega) rest).trans ?_
    rw [hback (by omega)]
    rfl

-- Reading a rune looks at no byte after those that belong to it, unless they show that it is none.
theorem leading_append {c : Char} {xs ys : List Char} (h : (leading c (xs ++ ys)).2 ≤ xs.length) :
    leading c xs = leading c (xs ++ ys) := by
  rcases xs with _ | ⟨x₁, _ | ⟨x₂, _ | ⟨x₃, xs⟩⟩⟩
  · rcases ys with _ | ⟨y₁, _ | ⟨y₂, _ | ⟨y₃, ys⟩⟩⟩ <;> grind [leading]
  · rcases ys with _ | ⟨y₁, _ | ⟨y₂, ys⟩⟩ <;> grind [leading]
  · rcases ys with _ | ⟨y₁, ys⟩ <;> grind [leading]
  · rfl

theorem runesOf_cons_drop (c : Char) (cs : List Char) :
    runesOf (c :: cs) = (leading c cs).1 :: runesOf (cs.drop (leading c cs).2) := by
  have hafter (k : Nat) (cs : List Char) : runesAfter k cs = runesOf (cs.drop k) := by
    induction cs generalizing k with
    | nil => cases k <;> rfl
    | cons c cs ih =>
        cases k with
        | zero => rfl
        | succ k => exact ih k
  exact congrArg (List.cons _) (hafter _ _)

def runes (s : String) : List Rune := runesOf s.toList

def ofRunes (rs : List Rune) : String := String.ofList (rs.flatMap Rune.bytes)

theorem ofRunes_of_ascii {cs : List Char} (h : ∀ c ∈ cs, c.toNat < 0x80) : ofRunes (cs.map .char) = String.ofList cs := by
  refine congrArg String.ofList ?_
  induction cs with
  | nil => rfl
  | cons c cs ih =>
      obtain ⟨hc, hcs⟩ := List.forall_mem_cons.mp h
      have hbytes : (Rune.char c).bytes = [c] := if_pos hc
      rw [List.map_cons, List.flatMap_cons, hbytes, ih hcs, List.singleton_append]

-- The first character and the bytes after it.
def uncons? (cs : List Char) : Option (Rune × List Char) :=
  match cs with
  | [] => none
  | c :: rest =>
    let (r, k) := leading c rest
    some (r, rest.drop k)

def runeCount (s : String) : Nat := (runes s).length

-- Encodes ordinary characters as bytes.
def ofUnicode (s : String) : String := String.ofList (s.toList.flatMap utf8)

def Rune.char? : Rune → Option Char
  | .char c => some c
  | .stray _ => none

-- The characters that a valid UTF-8 text spells.
def toUnicode? (s : String) : Option String := ((runes s).mapM Rune.char?).map String.ofList

-- Each run of stray bytes becomes one replacement character.
def dropStrays : List Rune → List Rune
  | [] => []
  | .char c :: rs => .char c :: dropStrays rs
  | .stray _ :: .stray b :: rs => dropStrays (.stray b :: rs)
  | .stray _ :: rs => .char replacement :: dropStrays rs

def toValid (s : String) : String := ofRunes (dropStrays (runes s))

-- White space in the sense of Unicode's White_Space property.

def isSpace (c : Char) : Bool :=
  let n := c.toNat
  (9 ≤ n && n ≤ 13) || n == 0x20 || n == 0x85 || n == 0xA0 || n == 0x1680 || (0x2000 ≤ n && n ≤ 0x200A)
    || n == 0x2028 || n == 0x2029 || n == 0x202F || n == 0x205F || n == 0x3000

def Rune.isSpace : Rune → Bool
  | .char c => Text.isSpace c
  | .stray _ => false

def trimLeft (s : String) : String := ofRunes ((runes s).dropWhile Rune.isSpace)

def trimRight (s : String) : String := ofRunes (((runes s).reverse.dropWhile Rune.isSpace).reverse)

def trim (s : String) : String := trimRight (trimLeft s)

-- A space that ends a field makes the next one start afresh.
def fieldRunes : List Rune → List Rune → List (List Rune)
  | cur, [] => if cur.isEmpty then [] else [cur.reverse]
  | cur, r :: rs =>
    if r.isSpace then
      if cur.isEmpty then fieldRunes [] rs else cur.reverse :: fieldRunes [] rs
    else fieldRunes (r :: cur) rs

-- The maximal runs without white space.
def fields (s : String) : List String := (fieldRunes [] (runes s)).map ofRunes

def trimChars (p : Char → Bool) (s : String) : String :=
  String.ofList ((s.toList.dropWhile p).reverse.dropWhile p).reverse

def trimLeftChars (p : Char → Bool) (s : String) : String := String.ofList (s.toList.dropWhile p)

def trimRightChars (p : Char → Bool) (s : String) : String :=
  String.ofList (s.toList.reverse.dropWhile p).reverse

end ShellScript.Text

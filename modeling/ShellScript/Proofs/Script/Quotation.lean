import Mathlib.Tactic.Ring
import ShellScript.Proofs.Text.Characters
import ShellScript.Script.Print
import ShellScript.Script.Read.Word
import ShellScript.Text.Quoted

-- The quotations in which a text is written for the shell: where each of them ends, and what it stands for.
namespace ShellScript

namespace Construct

theorem closeSingle_plain {cs : List Char} (h : '\'' ∉ cs) (left : Nat) (rest : List Char) :
    closeSingle left (cs ++ '\'' :: rest) = .ok rest := by
  induction cs with
  | nil => rfl
  | cons c cs ih =>
      rw [List.mem_cons, not_or] at h
      rw [List.cons_append, closeSingle, if_neg (by simpa using Ne.symm h.1), ih h.2]

-- Text in which each of the characters `marks` stands behind a backslash.
inductive Guarded (marks : List Char) : List Char → Prop where
  | nil : Guarded marks []
  | plain {c : Char} {cs : List Char} (plain : c ∉ marks) (rest : Guarded marks cs) : Guarded marks (c :: cs)
  | escaped (c : Char) {cs : List Char} (rest : Guarded marks cs) : Guarded marks ('\\' :: c :: cs)

theorem Guarded.append {marks cs ds : List Char} (h : Guarded marks cs) (h' : Guarded marks ds) : Guarded marks (cs ++ ds) := by
  induction h with
  | nil => exact h'
  | plain hc _ ih => exact ih.plain hc
  | escaped c _ ih => exact ih.escaped c

theorem Guarded.of_plain {marks cs : List Char} (h : ∀ c ∈ cs, c ∉ marks) : Guarded marks cs := by
  induction cs with
  | nil => exact nil
  | cons c cs ih =>
      obtain ⟨hc, hcs⟩ := List.forall_mem_cons.mp h
      exact (ih hcs).plain hc

theorem Guarded.mono {marks marks' cs : List Char} (h : Guarded marks cs) (hsub : ∀ c ∈ marks', c ∈ marks) : Guarded marks' cs := by
  induction h with
  | nil => exact nil
  | plain hc _ ih => exact ih.plain fun hmark => hc (hsub _ hmark)
  | escaped c _ ih => exact ih.escaped c

theorem Guarded.head?_ne {marks cs : List Char} {c : Char} (h : Guarded marks cs) (hc : c ∈ marks) (hback : c ≠ '\\') :
    cs.head? ≠ some c := by
  cases h with
  | nil => exact nofun
  | plain hplain _ => exact fun heq => hplain (Option.some.inj heq ▸ hc)
  | escaped _ _ => exact fun heq => hback (Option.some.inj heq).symm

def ansiMarks : List Char := ['\\', '\'']

def doubleMarks : List Char := ['\\', Text.backquote, '$', '"']

theorem closeEscaped_guarded {k : Construct} {stop : Char} {cs : List Char} (hstop : stop ≠ '\\')
    (h : Guarded ['\\', stop] cs) (left : Nat) (rest : List Char) :
    closeEscaped k stop left (cs ++ stop :: rest) = .ok rest := by
  have hplain {c : Char} (hc : c ≠ '\\') (ds : List Char) : closeEscaped k stop left (c :: ds) =
      if c == stop then .ok ds else closeEscaped k stop left ds := by
    rw [closeEscaped]
    rintro _ _ rfl
    exact absurd rfl hc
  induction h with
  | nil => rw [List.nil_append, hplain hstop, if_pos (beq_self_eq_true stop)]
  | plain hc _ ih =>
      simp only [List.mem_cons, List.not_mem_nil, or_false, not_or] at hc
      rw [List.cons_append, hplain hc.1, if_neg (by simpa using hc.2), ih]
  | escaped c _ ih => rw [List.cons_append, List.cons_append, closeEscaped, ih]

theorem closeAnsi_guarded {cs : List Char} (h : Guarded ansiMarks cs) (left : Nat) (rest : List Char) :
    closeAnsi left (cs ++ '\'' :: rest) = .ok rest := closeEscaped_guarded (by decide) h left rest

-- Inside double quotes the text `cs` closes nothing and leaves nothing open.
def Passes (d : Dialect) (cs : List Char) : Prop :=
  ∀ (n left : Nat) (prev : Char) (rest : List Char), ∃ m prev',
    n ≤ m ∧ close d (n + cs.length) .double left prev (cs ++ rest) = close d m .double left prev' rest

theorem passes_nil (d : Dialect) : Passes d [] := fun n _ prev _ => ⟨n, prev, Nat.le_refl n, rfl⟩

theorem Passes.append {d : Dialect} {cs ds : List Char} (h : Passes d cs) (h' : Passes d ds) : Passes d (cs ++ ds) := by
  intro n left prev rest
  obtain ⟨m, prev₁, hm, hfirst⟩ := h (n + ds.length) left prev (ds ++ rest)
  obtain ⟨k, rfl⟩ := Nat.exists_eq_add_of_le hm
  obtain ⟨m, prev₂, hm, hsecond⟩ := h' (n + k) left prev₁ rest
  refine ⟨m, prev₂, by omega, ?_⟩
  rw [List.append_assoc, List.length_append, Nat.add_comm cs.length, ← Nat.add_assoc, hfirst, ← hsecond]
  congr 1
  omega

theorem passes_plain {d : Dialect} {c : Char} (hc : c ∉ doubleMarks) : Passes d [c] := by
  intro n left prev rest
  simp only [doubleMarks, List.mem_cons, List.not_mem_nil, or_false, not_or] at hc
  refine ⟨n, c, Nat.le_refl n, ?_⟩
  rw [List.length_singleton, List.singleton_append, close]
  simp [turn, Frame.step, hc]

theorem passes_guarded {d : Dialect} {cs : List Char} (h : Guarded doubleMarks cs) : Passes d cs := by
  induction h with
  | nil => exact passes_nil d
  | plain hc _ ih => exact (passes_plain hc).append ih
  | escaped c _ ih =>
      have hpair : Passes d ['\\', c] := fun n left prev rest => ⟨n + 1, c, Nat.le_succ n, by
        rw [List.cons_append, List.singleton_append, List.length_cons, List.length_singleton, close]
        rfl⟩
      exact hpair.append ih

theorem closeDouble_of_passes {d : Dialect} {cs : List Char} (h : Passes d cs) (rest : List Char) :
    closeDouble d (cs ++ '"' :: rest) = .ok rest := by
  have hlength : 2 * (cs ++ '"' :: rest).length + 1 = (cs.length + 2 * rest.length + 3) + cs.length := by
    rw [List.length_append, List.length_cons]
    omega
  obtain ⟨m, prev, hm, hclose⟩ := h (cs.length + 2 * rest.length + 3) ((cs ++ '"' :: rest).length + 1) '"' ('"' :: rest)
  obtain ⟨m, rfl⟩ := Nat.exists_eq_succ_of_ne_zero (show m ≠ 0 by omega)
  rw [closeDouble, hlength, hclose, close]
  rfl

theorem closeDouble_guarded {cs : List Char} (h : Guarded doubleMarks cs) (d : Dialect) (rest : List Char) :
    closeDouble d (cs ++ '"' :: rest) = .ok rest := closeDouble_of_passes (passes_guarded h) rest

end Construct

namespace Text

theorem hexValue?_hexDigit (n : Nat) : hexValue? (hexDigit n) = some (n % 16) := by
  have hall : ∀ m < 16, hexValue? (hexDigit m) = some m := by decide
  have hdigit : hexDigit n = hexDigit (n % 16) := by simp only [hexDigit, Nat.mod_mod]
  rw [hdigit, hall _ (Nat.mod_lt _ (by decide))]

theorem length_hex (w n : Nat) : (hex w n).length = w := by
  induction w generalizing n with
  | zero => rfl
  | succ w ih => rw [hex, List.length_append, ih, List.length_singleton]

end Text

namespace Script

open Construct (Guarded ansiMarks doubleMarks)
open Text (Rune hex utf8)

section Digits

-- The digits that are written are read as the number that they hold.
theorem go_hex (w n k count v : Nat) (rest : List Char) :
    digits.go Text.hexValue? 16 (w + k) count v (hex w n ++ rest) =
      digits.go Text.hexValue? 16 k (count + w) (v * 16 ^ w + n % 16 ^ w) rest := by
  induction w generalizing n k rest with
  | zero => simp [hex, Nat.mod_one]
  | succ w ih =>
      have hvalue : (v * 16 ^ w + n / 16 % 16 ^ w) * 16 + n % 16 = v * 16 ^ (w + 1) + n % 16 ^ (w + 1) := by
        rw [Nat.pow_succ', Nat.mod_mul]
        ring
      rw [hex, List.append_assoc, List.singleton_append, Nat.add_right_comm, Nat.add_assoc, ih, digits.go,
        Text.hexValue?_hexDigit]
      dsimp only
      rw [hvalue, Nat.add_assoc]

theorem digits_hex {w n : Nat} (hw : w ≠ 0) (hn : n < 16 ^ w) (rest : List Char) :
    digits Text.hexValue? 16 w (hex w n ++ rest) = (w, n, rest) := by
  obtain ⟨w, rfl⟩ := Nat.exists_eq_succ_of_ne_zero hw
  have hgo := go_hex (w + 1) n 0 0 0 rest
  rw [Nat.zero_mul, Nat.zero_add, Nat.zero_add, Nat.mod_eq_of_lt hn] at hgo
  rw [digits]
  exact hgo.trans (by rw [digits.go])

end Digits

-- The text `xs` stands for `ys` between `$'` and `'`.
def Decodes (xs ys : List Char) : Prop :=
  ∀ n rest, xs.length + rest.length ≤ n →
    ∃ m, rest.length ≤ m ∧ unescapeAnsiList n (xs ++ rest) = ys ++ unescapeAnsiList m rest

section Decoding

variable {xs ys xs' ys' : List Char} {c : Char}

theorem Decodes.nil : Decodes [] [] := fun n _ hn => ⟨n, by simpa using hn, rfl⟩

theorem Decodes.append (h : Decodes xs ys) (h' : Decodes xs' ys') : Decodes (xs ++ xs') (ys ++ ys') := by
  intro n rest hn
  rw [List.length_append] at hn
  obtain ⟨m, hm, heq⟩ := h n (xs' ++ rest) (by rw [List.length_append]; omega)
  rw [List.length_append] at hm
  obtain ⟨k, hk, heq'⟩ := h' m rest hm
  exact ⟨k, hk, by rw [List.append_assoc, heq, heq', List.append_assoc]⟩

theorem decodes_plain (h : c ≠ '\\') : Decodes [c] [c] := by
  intro n rest hn
  rw [List.length_singleton] at hn
  obtain ⟨n, rfl⟩ := Nat.exists_eq_add_of_le' (show 1 ≤ n by omega)
  refine ⟨n, by omega, ?_⟩
  rw [List.singleton_append, unescapeAnsiList]
  · rfl
  · rintro _ _ rfl
    exact absurd rfl h

theorem decodes_bytes (h : ∀ c ∈ xs, c ≠ '\\') : Decodes xs xs := by
  induction xs with
  | nil => exact .nil
  | cons c cs ih =>
      obtain ⟨hc, hcs⟩ := List.forall_mem_cons.mp h
      exact (decodes_plain hc).append (ih hcs)

theorem decodes_control {k : Char} (h : controlOf? c = some k) : Decodes ['\\', c] [k] := by
  intro n rest hn
  rw [List.length_cons, List.length_singleton] at hn
  obtain ⟨n, rfl⟩ := Nat.exists_eq_add_of_le' (show 1 ≤ n by omega)
  refine ⟨n, by omega, ?_⟩
  rw [List.cons_append, List.singleton_append]
  conv_lhs => unfold unescapeAnsiList
  simp only [h]
  rfl

theorem decodes_self (h : c = '\\' ∨ c = '\'') : Decodes ['\\', c] [c] := by
  intro n rest hn
  rw [List.length_cons, List.length_singleton] at hn
  obtain ⟨n, rfl⟩ := Nat.exists_eq_add_of_le' (show 1 ≤ n by omega)
  refine ⟨n, by omega, ?_⟩
  rcases h with rfl | rfl <;> rfl

-- The letters in front of a number.
def isNumberLetter (c : Char) : Bool := c == 'x' || c == 'u' || c == 'U'

def widthOf (c : Char) : Nat := if c == 'x' then 2 else if c == 'u' then 4 else 8

-- The bytes that a number stands for.
def numberBytes (c : Char) (n : Nat) : List Char := if c == 'x' then [Char.ofNat n] else charBytes n

theorem decodes_number {n : Nat} (hc : isNumberLetter c = true) (hn : n < 16 ^ widthOf c) :
    Decodes ('\\' :: c :: hex (widthOf c) n) (numberBytes c n) := by
  have hletter : c = 'x' ∨ c = 'u' ∨ c = 'U' := by simpa [isNumberLetter, or_assoc] using hc
  have hcontrol : controlOf? c = none := by rcases hletter with rfl | rfl | rfl <;> rfl
  have hself : (c == '\\' || c == '\'' || c == '"' || c == '?') = false := by rcases hletter with rfl | rfl | rfl <;> rfl
  have hother : (c == 'c') = false := by rcases hletter with rfl | rfl | rfl <;> rfl
  have hwidth : ∃ w, widthOf c = w + 1 := by rcases hletter with rfl | rfl | rfl <;> exact ⟨_, rfl⟩
  intro k rest hk
  rw [List.length_cons, List.length_cons, Text.length_hex] at hk
  obtain ⟨k, rfl⟩ := Nat.exists_eq_add_of_le' (show 1 ≤ k by omega)
  obtain ⟨w, hw⟩ := hwidth
  have hread : digits Text.hexValue? 16 (if c == 'x' then 2 else if c == 'u' then 4 else 8) (hex (widthOf c) n ++ rest) =
      (w + 1, n, rest) :=
    (digits_hex (by rw [hw]; exact Nat.succ_ne_zero w) hn rest).trans (by rw [hw])
  refine ⟨k, by omega, ?_⟩
  have hescape : (c == 'x' || c == 'u' || c == 'U') = true := hc
  rw [List.cons_append, List.cons_append]
  conv_lhs => unfold unescapeAnsiList
  simp only [hcontrol, hself, hother, hescape, hread, Bool.false_eq_true, if_false, if_true]
  rfl

theorem unescapeAnsi_of_decodes (h : Decodes xs ys) : unescapeAnsi (String.ofList xs) = Text.toValid (String.ofList ys) := by
  obtain ⟨m, -, heq⟩ := h (xs.length + 1) [] (by simp)
  have hnil : unescapeAnsiList m [] = [] := by cases m <;> rfl
  rw [List.append_nil, hnil, List.append_nil] at heq
  rw [unescapeAnsi, String.toList_ofList, heq]

-- What a character is written as.

theorem controlOf?_of_escapeLetter? {l : Char} (h : Text.escapeLetter? c = some l) : controlOf? l = some c ∧ utf8 c = [c] := by
  have hback {n : Nat} (hn : c.toNat = n) : c = Char.ofNat n := by rw [← hn, Char.ofNat_toNat]
  unfold Text.escapeLetter? at h
  split at h
  case h_8 => cases h
  all_goals
    rename_i hn
    cases h
    obtain rfl := hback hn
    exact ⟨rfl, rfl⟩

theorem charBytes_toNat (c : Char) : charBytes c.toNat = utf8 c := by
  have hvalid : c.toNat.isValidChar := c.valid
  rw [charBytes, if_pos hvalid, Char.ofNat_toNat]

theorem hex_plain (w n : Nat) : ∀ d ∈ hex w n, d ∉ ansiMarks := by
  have hall : ∀ m < 16, Text.hexDigit m ∉ ansiMarks := by decide
  induction w generalizing n with
  | zero => nofun
  | succ w ih =>
      intro d hd
      rcases List.mem_append.mp hd with hd | hd
      · exact ih _ d hd
      · have hdigit : Text.hexDigit n = Text.hexDigit (n % 16) := by simp only [Text.hexDigit, Nat.mod_mod]
        rw [List.mem_singleton.mp hd, hdigit]
        exact hall _ (Nat.mod_lt _ (by decide))

-- An escape, or the bytes of a character that needs none.
theorem dollarEscaped_cases (c : Char) :
    (∃ l, (Rune.char c).dollarEscaped = ['\\', l] ∧ utf8 c = [c] ∧ (controlOf? l = some c ∨ l = c ∧ (c = '\\' ∨ c = '\''))) ∨
    (∃ l, isNumberLetter l = true ∧ (Rune.char c).dollarEscaped = '\\' :: l :: hex (widthOf l) c.toNat ∧
      c.toNat < 16 ^ widthOf l ∧ numberBytes l c.toNat = utf8 c) ∨
    ((Rune.char c).dollarEscaped = utf8 c ∧ ∀ b ∈ utf8 c, b ∉ ansiMarks) := by
  rw [Rune.dollarEscaped]
  split
  · rename_i hself
    have hself : c = '\'' ∨ c = '\\' := by simpa using hself
    refine .inl ⟨c, rfl, ?_, .inr ⟨rfl, hself.symm⟩⟩
    rcases hself with rfl | rfl <;> rfl
  rename_i hother
  simp only [Bool.or_eq_true, beq_iff_eq, not_or] at hother
  split
  · refine .inr (.inr ⟨rfl, fun b hb hmark => ?_⟩)
    simp only [ansiMarks, List.mem_cons, List.not_mem_nil, or_false] at hmark
    rcases hmark with rfl | rfl
    · exact hother.2 (Text.eq_of_mem_utf8 (by decide) hb).symm
    · exact hother.1 (Text.eq_of_mem_utf8 (by decide) hb).symm
  split
  · rename_i l hl
    obtain ⟨hcontrol, hutf8⟩ := controlOf?_of_escapeLetter? hl
    exact .inl ⟨l, rfl, hutf8, .inl hcontrol⟩
  refine .inr (.inl ?_)
  split
  · rename_i hascii
    refine ⟨'x', rfl, rfl, Nat.lt_of_lt_of_le hascii (by decide), ?_⟩
    have hutf8 : utf8 c = [c] := if_pos hascii
    rw [hutf8]
    exact congrArg (fun c => [c]) (Char.ofNat_toNat c)
  split
  · rename_i hshort
    exact ⟨'u', rfl, rfl, hshort, charBytes_toNat c⟩
  · have hvalid : c.toNat < 0xD800 ∨ 0xDFFF < c.toNat ∧ c.toNat < 0x110000 := c.valid
    have hlong : c.toNat < 16 ^ 8 := by omega
    exact ⟨'U', rfl, rfl, hlong, charBytes_toNat c⟩

theorem decodes_dollarEscaped (c : Char) : Decodes (Rune.char c).dollarEscaped (utf8 c) := by
  obtain ⟨l, heq, hutf8, hcontrol | ⟨rfl, hself⟩⟩ | ⟨l, hl, heq, hn, hbytes⟩ | ⟨heq, hplain⟩ := dollarEscaped_cases c
  · rw [heq, hutf8]
    exact decodes_control hcontrol
  · rw [heq, hutf8]
    exact decodes_self hself
  · rw [heq, ← hbytes]
    exact decodes_number hl hn
  · rw [heq]
    exact decodes_bytes fun b hb hback => hplain b hb (by simp [ansiMarks, hback])

theorem guarded_dollarEscaped (c : Char) : Guarded ansiMarks (Rune.char c).dollarEscaped := by
  obtain ⟨l, heq, -⟩ | ⟨l, -, heq, -⟩ | ⟨heq, hplain⟩ := dollarEscaped_cases c
  · rw [heq]
    exact .escaped l .nil
  · rw [heq]
    exact .escaped l (.of_plain (hex_plain _ _))
  · rw [heq]
    exact .of_plain hplain

end Decoding

theorem guarded_doubleEscaped (cs : List Char) : Guarded doubleMarks (cs.flatMap Text.doubleEscaped) := by
  induction cs with
  | nil => exact .nil
  | cons c cs ih =>
      rw [List.flatMap_cons, Text.doubleEscaped]
      split
      · exact .escaped c ih
      · rename_i hplain
        refine .plain ?_ ih
        simpa [doubleMarks, and_comm, and_assoc, and_left_comm] using hplain

theorem unescapeDoubleList_escaped (cs : List Char) : unescapeDoubleList (cs.flatMap Text.doubleEscaped) = cs := by
  induction cs with
  | nil => rfl
  | cons c cs ih =>
      rw [List.flatMap_cons, Text.doubleEscaped]
      split
      · rename_i hescaped
        have hc : c = '"' ∨ c = '\\' ∨ c = Text.backquote ∨ c = '$' := by simpa [or_assoc] using hescaped
        rcases hc with rfl | rfl | rfl | rfl <;> exact congrArg (List.cons _) ih
      · rename_i hplain
        have hback : c ≠ '\\' := by
          rintro rfl
          exact hplain rfl
        rw [List.singleton_append, unescapeDoubleList, ih]
        · rintro _ rfl
          exact absurd rfl hback
        · rintro _ _ rfl
          exact absurd rfl hback

-- The quotes around a text.
inductive Quote where
  | bare
  | single
  | dollar
  | double

namespace Quote

def around : Quote → List Char → List Char
  | .bare, cs => cs
  | .single, cs => '\'' :: (cs ++ ['\''])
  | .dollar, cs => '$' :: '\'' :: (cs ++ ['\''])
  | .double, cs => '"' :: (cs ++ ['"'])

def isQuoted : Quote → Bool
  | .bare => false
  | _ => true

-- What stands between the quotes does not end them, and stands for a text.
def Holds (v : String) : Quote → List Char → Prop
  | .bare, cs => cs ≠ [] ∧ (∀ c ∈ cs, Text.isShellChar c = false) ∧ String.ofList cs = v
  | .single, cs => '\'' ∉ cs ∧ String.ofList cs = v
  | .dollar, cs => Guarded ansiMarks cs ∧ unescapeAnsi (String.ofList cs) = v
  | .double, cs => cs ≠ [] ∧ Guarded doubleMarks cs ∧ unescapeDouble (String.ofList cs) = v

end Quote

theorem exists_of_mend {r : Rune} (h : Text.mend r = r) : ∃ c, r = .char c := ⟨r.value, h.symm⟩

theorem toValid_of_isValid {s : String} (h : Text.IsValid s) : Text.toValid s = s := by
  have hkept {rs : List Rune} (hrs : ∀ r ∈ rs, Text.mend r = r) : Text.dropStrays rs = rs := by
    induction rs with
    | nil => rfl
    | cons r rs ih =>
        obtain ⟨hr, hrest⟩ := List.forall_mem_cons.mp hrs
        obtain ⟨c, rfl⟩ := exists_of_mend hr
        rw [Text.dropStrays, ih hrest]
  rw [Text.toValid, hkept h, Text.ofRunes_runes]

theorem dollarEscaped_runes {rs : List Rune} (h : ∀ r ∈ rs, Text.mend r = r) :
    Guarded ansiMarks (rs.flatMap Rune.dollarEscaped) ∧ Decodes (rs.flatMap Rune.dollarEscaped) (rs.flatMap Rune.bytes) := by
  induction rs with
  | nil => exact ⟨.nil, .nil⟩
  | cons r rs ih =>
      obtain ⟨hr, hrs⟩ := List.forall_mem_cons.mp h
      obtain ⟨c, rfl⟩ := exists_of_mend hr
      obtain ⟨hguarded, hdecodes⟩ := ih hrs
      exact ⟨(guarded_dollarEscaped c).append hguarded, (decodes_dollarEscaped c).append hdecodes⟩

-- Every text of characters, none of them the null character, is written between quotes that hold it.
theorem exists_holds {v : String} (hvalid : Text.IsValid v) (hnull : '\x00' ∉ v.toList) :
    ∃ q cs, (Text.shellQuoted v).toList = Quote.around q cs ∧ q.Holds v cs := by
  unfold Text.shellQuoted
  dsimp only
  split
  · rename_i hempty
    have hv : v = "" := by simpa using hempty
    exact ⟨.single, [], rfl, List.not_mem_nil, hv.symm⟩
  rename_i hnonempty
  have hne : v.toList ≠ [] := by simpa using hnonempty
  rw [if_neg (by simpa using hnull)]
  split
  · obtain ⟨hguarded, hdecodes⟩ := dollarEscaped_runes hvalid
    refine ⟨.dollar, (Text.runes v).flatMap Rune.dollarEscaped, by simp [Quote.around], hguarded, ?_⟩
    rw [unescapeAnsi_of_decodes hdecodes, Text.runes, Text.flatMap_bytes_runesOf, String.ofList_toList,
      toValid_of_isValid hvalid]
  split
  · rename_i hbare
    have hsafe : v.toList.any Text.isShellChar = false := by
      simpa using (Bool.and_eq_true_iff.mp hbare).1
    refine ⟨.bare, v.toList, rfl, hne, fun c hc => ?_, String.ofList_toList⟩
    simpa using List.any_eq_false.mp hsafe c hc
  split
  · rename_i hsingle
    exact ⟨.single, v.toList, by simp [Quote.around], by simpa using hsingle, String.ofList_toList⟩
  · refine ⟨.double, v.toList.flatMap Text.doubleEscaped, by simp [Quote.around], ?_, guarded_doubleEscaped _, ?_⟩
    · intro hnil
      have hback := unescapeDoubleList_escaped v.toList
      rw [hnil] at hback
      exact hne hback.symm
    · rw [unescapeDouble, String.toList_ofList, unescapeDoubleList_escaped, String.ofList_toList]

-- Commands between backquotes, of which no level of quotation may take a backslash that another one needs.

section Backquotes

open Read

-- A character that a backquoted command has only behind a backslash.
def isGuarded (inDouble : Bool) (c : Char) : Bool := c == '\\' || c == Text.backquote || (inDouble && c == '"')

theorem escapeBackquote_cons (inDouble : Bool) (c : Char) (cs : List Char) : escapeBackquote inDouble (c :: cs) =
    if isGuarded inDouble c then '\\' :: c :: escapeBackquote inDouble cs else c :: escapeBackquote inDouble cs := by
  rw [escapeBackquote, List.flatMap_cons]
  unfold isGuarded
  split <;> rfl

theorem guarded_escapeBackquote (inDouble : Bool) (cs : List Char) :
    Guarded ['\\', Text.backquote] (escapeBackquote inDouble cs) := by
  induction cs with
  | nil => exact .nil
  | cons c cs ih =>
      rw [escapeBackquote_cons]
      split
      · exact .escaped c ih
      · rename_i hplain
        refine .plain (fun hc => hplain ?_) ih
        have hcases : c = '\\' ∨ c = Text.backquote := by simpa using hc
        rcases hcases with rfl | rfl <;> rfl

theorem unescapeBackquote_escape (inDouble : Bool) (cs : List Char) :
    unescapeBackquote inDouble (escapeBackquote inDouble cs) = cs := by
  induction cs with
  | nil => rfl
  | cons c cs ih =>
      rw [escapeBackquote_cons]
      by_cases hc : isGuarded inDouble c = true
      · have hprotects : (c == '\\' || c == Text.backquote || c == '$' || (inDouble && c == '"')) = true := by
          unfold isGuarded at hc
          cases hdollar : c == '$' <;> simp_all
        rw [if_pos hc, unescapeBackquote, if_pos hprotects, ih]
      · have hback : c ≠ '\\' := by
          rintro rfl
          exact hc rfl
        rw [if_neg hc, unescapeBackquote, ih]
        rintro _ _ rfl
        exact absurd rfl hback

-- A text as it is written between backquotes.
def backquoted (inDouble : Bool) (cs : List Char) : List Char :=
  Text.backquote :: (escapeBackquote inDouble cs ++ [Text.backquote])

theorem print_backquoted (inDouble : Bool) (p : Position) (b : Block) :
    (WordPart.command p b true).print inDouble =
      Printer.str (String.ofList (backquoted inDouble (Printer.fresh b.printSub).toList)) := by
  rfl

theorem closeBackquote_escape (inDouble : Bool) (cs : List Char) (left : Nat) (rest : List Char) :
    Construct.closeBackquote left (escapeBackquote inDouble cs ++ Text.backquote :: rest) = .ok rest :=
  Construct.closeEscaped_guarded (by decide) (guarded_escapeBackquote inDouble cs) left rest

theorem inside_eq {close : Construct.Close} {body rest : List Char} {stop : Char} (h : close = .ok rest) :
    inside close (body ++ stop :: rest) 1 = (body, rest) := by
  have hlength : (body ++ stop :: rest).length - rest.length - 1 = body.length := by
    simp only [List.length_append, List.length_cons]
    omega
  rw [h, inside, hlength, List.take_left]

theorem partAt_backquoted (s : Setting) (nested : Nested) (mode : Mode) (first : Bool) (g : Gathered) (p : Position)
    (cs rest : List Char) :
    partAt s nested mode first g p Text.backquote (escapeBackquote (mode == .double) cs ++ Text.backquote :: rest) = (do
      let b ← nested.block (p.step Text.backquote) cs
      return (g.addPart (.command p b true), rest)) := by
  have hsingle : (Text.backquote == '\'' && mode.quotes) = false := rfl
  have hdouble : (Text.backquote == '"' && mode.quotes) = false := rfl
  have hinside : inside (Construct.closeBackquote 0 (escapeBackquote (mode == .double) cs ++ Text.backquote :: rest))
      (escapeBackquote (mode == .double) cs ++ Text.backquote :: rest) 1 = (escapeBackquote (mode == .double) cs, rest) :=
    inside_eq (closeBackquote_escape _ cs 0 rest)
  rw [partAt, if_neg (by decide), if_neg (by simp [hsingle]), if_neg (by simp [hdouble]), if_pos (by decide), hinside]
  simp only [unescapeBackquote_escape]

-- A text that is written between backquotes is read back from there as it was, in and out of double quotes, and the
-- command ends with the last of the written backquotes.
theorem backquoted_reads_back (inDouble : Bool) (cs : List Char) :
    unescapeBackquote inDouble (escapeBackquote inDouble cs) = cs ∧
      (∀ left rest, Construct.closeBackquote left (escapeBackquote inDouble cs ++ Text.backquote :: rest) = .ok rest) ∧
      (∀ p b, (WordPart.command p b true).print inDouble =
        Printer.str (String.ofList (backquoted inDouble (Printer.fresh b.printSub).toList))) ∧
      ∀ s nested mode first g p rest,
        partAt s nested mode first g p Text.backquote (escapeBackquote (mode == .double) cs ++ Text.backquote :: rest) = (do
          let b ← nested.block (p.step Text.backquote) cs
          return (g.addPart (.command p b true), rest)) :=
  ⟨unescapeBackquote_escape inDouble cs, closeBackquote_escape inDouble cs, print_backquoted inDouble,
    fun s nested mode first g p rest => partAt_backquoted s nested mode first g p cs rest⟩

end Backquotes

end Script
end ShellScript

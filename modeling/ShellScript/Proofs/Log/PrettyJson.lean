import ShellScript.Log.Write
import ShellScript.Proofs.Log.Json
import ShellScript.Proofs.Text.Paths

-- What the spacious JSON style writes of an entry: the object with the entry's level, message and fields, if all texts are
-- made of characters that are written alike in messages and in JSON, and else no JSON at all.
namespace ShellScript

open Json (Writes Spells IsUnescaped IsNumber IsBlank IsSolid IsClean Denotes DenotesItems DenotesMembers DenotesMember)

namespace Text

-- A character that is written in quotes as JSON has it. Bell, vertical tab and the other control characters below 128 are
-- not, nor are unprintable characters beyond the first 65536, nor stray bytes.
def Rune.isPortable : Rune → Bool
  | .stray _ => false
  | .char c => Text.isPrintable c || ['\x08', '\t', '\n', '\x0c', '\r'].contains c || (0x80 ≤ c.toNat && c.toNat < 0x10000)

def IsPortable (s : String) : Prop := ∀ r ∈ runes s, r.isPortable = true

instance (s : String) : Decidable (IsPortable s) := decidable_of_iff ((runes s).all Rune.isPortable = true) List.all_eq_true

section Portable

variable {c : Char}

theorem le_of_isPrintable (h : isPrintable c = true) : 0x20 ≤ c.toNat := by
  simp only [isPrintable] at h
  split at h
  · simpa using h
  · omega

theorem writes_plain (h : isPrintable c = true) (hquote : c ≠ '"') (hback : c ≠ '\\') : Writes (utf8 c) c :=
  .plain ⟨le_of_isPrintable h, hquote, hback⟩

-- An escape that JSON does not have.
def IsForeign (cs : List Char) : Prop := ∃ l ds, cs = '\\' :: l :: ds ∧ l ∈ ['a', 'v', 'x', 'U'] ∧ IsSolid ds

theorem isForeign_hex {l : Char} (hl : l ∈ ['a', 'v', 'x', 'U']) (w n : Nat) : IsForeign ('\\' :: l :: hex w n) :=
  ⟨l, _, rfl, hl, fun d hd => (Json.hexNumber?_bounds (Json.hexNumber?_hex w n) d hd).1⟩

theorem escapeLetter?_cases {l : Char} (h : escapeLetter? c = some l) :
    (Rune.char c).isPortable = true ∧ (l, c) ∈ Json.letters ∨ (Rune.char c).isPortable = false ∧ (l = 'a' ∨ l = 'v') := by
  have hback {n : Nat} (hn : c.toNat = n) : c = Char.ofNat n := by rw [← hn, Char.ofNat_toNat]
  unfold escapeLetter? at h
  split at h
  case h_8 => cases h
  all_goals
    rename_i hn
    cases h
    obtain rfl := hback hn
    decide

-- The characters with a letter of their own apart, all below 128 that cannot be printed are foreign.
theorem escaped_cases (r : Rune) :
    (∃ c, r = .char c ∧ r.isPortable = true ∧ Writes (r.escaped '"') c) ∨ r.isPortable = false ∧ IsForeign (r.escaped '"') := by
  cases r with
  | stray b => exact .inr ⟨rfl, isForeign_hex (by decide) 2 b.toNat⟩
  | char c =>
      rw [Rune.escaped]
      split
      · next hself =>
        have hself : c = '"' ∨ c = '\\' := by simpa using hself
        refine .inl ⟨c, rfl, ?_, .letter ?_⟩
        · rcases hself with rfl | rfl <;> decide
        · rcases hself with rfl | rfl <;> simp [Json.letters]
      next hother =>
      simp only [Bool.or_eq_true, beq_iff_eq, not_or] at hother
      split
      · next hprint => exact .inl ⟨c, rfl, by simp [Rune.isPortable, hprint], writes_plain hprint hother.1 hother.2⟩
      next hprint =>
      split
      · next l hl =>
        rcases escapeLetter?_cases hl with ⟨hportable, hletter⟩ | ⟨hportable, hletter⟩
        · exact .inl ⟨c, rfl, hportable, .letter hletter⟩
        · exact .inr ⟨hportable, isForeign_hex (by rcases hletter with rfl | rfl <;> decide) 0 0⟩
      next hnone =>
      have hletter : ['\x08', '\t', '\n', '\x0c', '\r'].contains c = false := by
        rw [List.contains_eq_mem, decide_eq_false_iff_not]
        intro hmem
        have hall : ∀ c ∈ ['\x08', '\t', '\n', '\x0c', '\r'], escapeLetter? c ≠ none := by simp [escapeLetter?]
        exact hall c hmem hnone
      have hportable : (Rune.char c).isPortable = decide (0x80 ≤ c.toNat ∧ c.toNat < 0x10000) := by
        rw [Rune.isPortable, Bool.eq_false_iff.mpr hprint, hletter, Bool.false_or, Bool.false_or, Bool.decide_and]
      split
      · next hascii => exact .inr ⟨by rw [hportable]; simp; omega, isForeign_hex (by decide) 2 c.toNat⟩
      next hascii =>
      split
      · next hshort => exact .inl ⟨c, rfl, by rw [hportable]; simp; omega, Json.writes_hex hshort⟩
      · next hshort => exact .inr ⟨by rw [hportable]; simp; omega, isForeign_hex (by decide) 8 c.toNat⟩

theorem escaped_solid (r : Rune) : IsSolid (r.escaped '"') := by
  obtain ⟨c, -, -, hw⟩ | ⟨-, l, ds, heq, hl, hds⟩ := escaped_cases r
  · exact hw.solid_and_clean.1
  · have hall : ∀ l ∈ ['a', 'v', 'x', 'U'], 0x20 ≤ l.toNat := by simp
    rw [heq]
    exact .cons (by decide) (.cons (hall l hl) hds)

theorem spells_escaped {rs : List Rune} (h : ∀ r ∈ rs, r.isPortable = true) :
    ∃ us, rs = us.map .char ∧ Spells (rs.flatMap (Rune.escaped '"')) us := by
  induction rs with
  | nil => exact ⟨[], rfl, .nil⟩
  | cons r rs ih =>
      obtain ⟨hr, hrs⟩ := List.forall_mem_cons.mp h
      obtain ⟨us, rfl, hus⟩ := ih hrs
      obtain ⟨c, rfl, -, hw⟩ | ⟨hfalse, -⟩ := escaped_cases r
      · exact ⟨c :: us, rfl, hus.cons hw⟩
      · cases hfalse.symm.trans hr

theorem portable_of_clean {rs : List Rune} {rest : List Char} (h : IsClean (rs.flatMap (Rune.escaped '"') ++ rest)) :
    (∀ r ∈ rs, r.isPortable = true) ∧ IsClean rest := by
  induction rs with
  | nil => exact ⟨List.forall_mem_nil _, h⟩
  | cons r rs ih =>
      rw [List.flatMap_cons, List.append_assoc] at h
      obtain ⟨c, -, hr, hw⟩ | ⟨-, l, ds, heq, hl, -⟩ := escaped_cases r
      · obtain ⟨hrs, hrest⟩ := ih (hw.solid_and_clean.2.of_append h)
        exact ⟨List.forall_mem_cons.mpr ⟨hr, hrs⟩, hrest⟩
      · rw [heq] at h
        have hall : ∀ l ∈ ['a', 'v', 'x', 'U'], l ∉ 'u' :: Json.letters.map Prod.fst := by simp [Json.letters]
        exact absurd h.of_escape.1 (hall l hl)

theorem toList_quoted (s : String) : (quoted s).toList = '"' :: ((runes s).flatMap (Rune.escaped '"') ++ ['"']) := by
  simp [quoted, quotedWith]

theorem quoted_solid (s : String) : IsSolid (quoted s).toList := by
  rw [toList_quoted]
  refine .cons (by decide) (.append (fun b hb => ?_) (.cons (by decide) Json.isSolid_nil))
  obtain ⟨r, -, hb⟩ := List.mem_flatMap.mp hb
  exact escaped_solid r b hb

-- A text in quotes is clean only if all of its characters are portable.
theorem portable_of_quoted {s : String} {rest : List Char} (h : IsClean ((quoted s).toList ++ rest)) : IsPortable s ∧ IsClean rest := by
  rw [toList_quoted] at h
  have hbody : IsClean ((runes s).flatMap (Rune.escaped '"') ++ '"' :: rest) := by
    simpa using IsClean.of_cons (by decide) h
  obtain ⟨hs, hrest⟩ := portable_of_clean hbody
  exact ⟨hs, hrest.of_cons (by decide)⟩

theorem flatMap_runes {s : String} {us : List Char} (h : runes s = us.map .char) : String.ofList (us.flatMap utf8) = s := by
  have hs := ofRunes_runes s
  rw [h, ofRunes, List.flatMap_map] at hs
  exact hs

end Portable

end Text

namespace Log

-- A text without control characters is laid out as it is.
theorem blockText_eq {s : String} (h : IsSolid s.toList) : blockText s = s := by
  have hne {c : Char} (hc : c.toNat < 0x20) : c ∉ s.toList := fun hmem => absurd (h c hmem) (by omega)
  have htabs : Text.replaceChar '\t' [' ', ' ', ' ', ' '] s = s := by
    have hflat : (s.toList.flatMap fun x => if x == '\t' then [' ', ' ', ' ', ' '] else [x]) = s.toList.flatMap fun x => [x] := by
      refine List.flatMap_congr fun x hx => if_neg ?_
      rintro heq
      exact hne (by decide) (beq_iff_eq.mp heq ▸ hx)
    rw [Text.replaceChar, hflat, List.flatMap_singleton', String.ofList_toList]
  have hreturns {cs : List Char} (hcs : '\r' ∉ cs) : joinReturns cs = cs := by
    induction cs with
    | nil => rfl
    | cons c cs ih =>
        rw [List.mem_cons, not_or] at hcs
        rw [joinReturns, ih hcs.2]
        rintro _ rfl
        exact absurd rfl hcs.1
  rw [blockText, htabs, hreturns (hne (by decide)), String.ofList_toList]
  dsimp only
  rw [Text.splitAt_of_not_mem (hne (by decide))]

end Log

namespace Text

-- Texts that are always portable

section

variable {s t : String}

theorem portable_iff : IsPortable s ↔ ∃ us : List Char, s.toList = us.flatMap utf8 ∧ ∀ u ∈ us, (Rune.char u).isPortable = true := by
  constructor
  · intro h
    obtain ⟨us, hus, -⟩ := spells_escaped h
    refine ⟨us, ?_, fun u hu => h _ (hus ▸ List.mem_map_of_mem hu)⟩
    rw [← flatMap_runes hus, String.toList_ofList]
  · rintro ⟨us, hus, hall⟩ r hr
    have hs : s = ofUnicode (String.ofList us) := by rw [ofUnicode, String.toList_ofList, ← hus, String.ofList_toList]
    rw [hs, runes_ofUnicode, String.toList_ofList] at hr
    obtain ⟨u, hu, rfl⟩ := List.mem_map.mp hr
    exact hall u hu

theorem IsPortable.append (hs : IsPortable s) (ht : IsPortable t) : IsPortable (s ++ t) := by
  obtain ⟨us, hus, hall⟩ := portable_iff.mp hs
  obtain ⟨ws, hws, hall'⟩ := portable_iff.mp ht
  refine portable_iff.mpr ⟨us ++ ws, ?_, List.forall_mem_append.mpr ⟨hall, hall'⟩⟩
  rw [String.toList_append, hus, hws, List.flatMap_append]

-- Printable characters below 128.
def IsPlain (cs : List Char) : Prop := ∀ c ∈ cs, 33 ≤ c.toNat ∧ c.toNat < 0x7F

theorem portable_of_plain (h : IsPlain s.toList) : IsPortable s := by
  intro r hr
  rw [runes, runesOf_of_ascii fun c hc => Nat.lt_trans (h c hc).2 (by decide)] at hr
  obtain ⟨c, hc, rfl⟩ := List.mem_map.mp hr
  have hprint : isPrintable c = true := by
    have hrange := h c hc
    rw [isPrintable, if_pos hrange.2, decide_eq_true_eq]
    omega
  simp [Rune.isPortable, hprint]

theorem digit_bounds {c : Char} (h : isDigit c = true) : 0x30 ≤ c.toNat ∧ c.toNat < 0x3A := by
  simp only [isDigit, Bool.and_eq_true, decide_eq_true_eq] at h
  have hlow : '0'.toNat ≤ c.toNat := h.1
  have hhigh : c.toNat ≤ '9'.toNat := h.2
  exact ⟨hlow, Nat.lt_of_le_of_lt hhigh (by decide)⟩

theorem plain_of_isDigit {cs : List Char} (h : ∀ c ∈ cs, isDigit c = true) : IsPlain cs := fun c hc =>
  ⟨Nat.le_trans (by decide) (digit_bounds (h c hc)).1, Nat.lt_trans (digit_bounds (h c hc)).2 (by decide)⟩

theorem digits_toString (n : Nat) : ∀ c ∈ (toString n).toList, isDigit c = true := by
  rw [Nat.toString_eq_repr, Nat.repr_eq_ofList_toDigits, String.toList_ofList]
  exact isDigit_of_mem_toDigits

theorem portable_toString (n : Nat) : IsPortable (toString n) := portable_of_plain (plain_of_isDigit (digits_toString n))

theorem portable_decimalFraction (n places : Nat) : IsPortable (decimalFraction n places) := by
  refine (portable_toString _).append ?_
  split
  · exact portable_of_plain (List.forall_mem_nil _)
  · refine IsPortable.append (portable_of_plain (by simp [IsPlain])) (portable_of_plain (plain_of_isDigit fun c hc => ?_))
    rw [String.toList_ofList, List.mem_reverse] at hc
    have hpadded := List.mem_reverse.mp ((List.dropWhile_suffix _).subset hc)
    rw [decimalFraction.padLeftWith, String.toList_append, String.toList_ofList, List.mem_append] at hpadded
    rcases hpadded with hzero | hdigit
    · rw [List.eq_of_mem_replicate hzero]
      rfl
    · exact digits_toString _ c hdigit

-- The unit of a millionth of a second is the only one beyond the letters.
theorem portable_duration (ns : Int) : IsPortable (duration ns) := by
  have hplain {s : String} (h : ∀ c ∈ s.toList, 33 ≤ c.toNat ∧ c.toNat < 0x7F) : IsPortable s := portable_of_plain h
  have hsign : IsPortable (if ns < 0 then "-" else "") := by
    split
    · exact hplain (by simp)
    · exact hplain (by simp)
  have hmicro : IsPortable "\xc2\xb5s" := by
    have hall : ∀ u ∈ ['µ', 's'], (Rune.char u).isPortable = true := by simp [Rune.isPortable, isPrintable]
    exact portable_iff.mpr ⟨['µ', 's'], by decide, hall⟩
  have hseconds (n : Nat) : IsPortable (decimalFraction n 9 ++ "s") := (portable_decimalFraction n 9).append (hplain (by simp))
  unfold duration
  dsimp only
  split
  · exact hplain (by simp)
  split
  · exact (hsign.append (portable_toString _)).append (hplain (by simp))
  split
  · exact (hsign.append (portable_decimalFraction _ _)).append hmicro
  split
  · exact (hsign.append (portable_decimalFraction _ _)).append (hplain (by simp))
  split
  · exact hsign.append (hseconds _)
  split
  · exact ((hsign.append (portable_toString _)).append (hplain (by simp))).append (hseconds _)
  · exact ((((hsign.append (portable_toString _)).append (hplain (by simp))).append (portable_toString _)).append
      (hplain (by simp))).append (hseconds _)

end

end Text

namespace Log
namespace Level

open Text (IsPlain)

-- The levels from which others are told by their distance.
def bases : List (String × Level) := [("DEBUG", debug), ("INFO", info), ("WARN", warn), ("ERROR", error)]

def distance (n : Int) : String := (if n < 0 then "" else "+") ++ toString n

theorem name_cases (l : Level) :
    l ∈ [trace, debug, info, warn, error] ∨
      ∃ base ∈ bases, ∃ n : Int, l.value = base.2.value + n ∧ (Text.inInt64 l.value = true → Text.inInt64 n = true) ∧
        l.name = base.1 ++ distance n := by
  by_cases hnamed : l ∈ [trace, debug, info, warn, error]
  · exact .inl hnamed
  have hrelative (base : String) {n : Int} (hn : n ≠ 0) : relative base n = base ++ distance n := by
    rw [relative, if_neg (by simpa using hn), distance, String.append_assoc]
  have hne {m : Level} (hm : m ∈ [trace, debug, info, warn, error]) : l ≠ m := fun h => hnamed (h ▸ hm)
  have hvalue {m : Level} (hm : m ∈ [trace, debug, info, warn, error]) : l.value ≠ m.value := fun h => hne hm (by cases l; cases m; exact congrArg mk h)
  have htrace := hne (m := trace) (by simp)
  have hdebug := hvalue (m := debug) (by simp)
  have hinfo := hvalue (m := info) (by simp)
  have hwarn := hvalue (m := warn) (by simp)
  have herror := hvalue (m := error) (by simp)
  simp only [debug, info, warn, error] at hdebug hinfo hwarn herror
  have hname : l.name = if l.value < 0 then relative "DEBUG" (l.value + 4) else if l.value < 4 then relative "INFO" l.value
      else if l.value < 8 then relative "WARN" (l.value - 4) else relative "ERROR" (l.value - 8) := by
    simp only [List.mem_cons, List.not_mem_nil, or_false, not_or] at hnamed
    simp [name, hnamed]
  have hfits {n : Int} (hn : l.value ≤ n ∧ n ≤ 8 ∨ 0 ≤ n ∧ n ≤ l.value) (hl : Text.inInt64 l.value = true) : Text.inInt64 n = true := by
    rw [Text.inInt64_iff] at hl ⊢
    omega
  rw [hname]
  refine .inr ?_
  split
  · exact ⟨("DEBUG", debug), by simp [bases], l.value + 4, by simp only [debug]; omega, hfits (by omega), hrelative _ (by omega)⟩
  split
  · exact ⟨("INFO", info), by simp [bases], l.value, by simp only [info]; omega, hfits (by omega), hrelative _ (by omega)⟩
  split
  · exact ⟨("WARN", warn), by simp [bases], l.value - 4, by simp only [warn]; omega, hfits (by omega), hrelative _ (by omega)⟩
  · exact ⟨("ERROR", error), by simp [bases], l.value - 8, by simp only [error]; omega, hfits (by omega), hrelative _ (by omega)⟩

theorem toList_distance (n : Int) : (distance n).toList = (if n < 0 then '-' else '+') :: Nat.toDigits 10 n.natAbs := by
  rw [distance, Text.toString_eq_ofList, String.toList_append, String.toList_ofList, Text.signOf]
  split <;> rfl

-- Capital letters, signs and digits.
theorem distance_bounds {base : String × Level} (hbase : base ∈ bases) (n : Int) :
    ∀ c ∈ (base.1 ++ distance n).toList, 33 ≤ c.toNat ∧ c.toNat < 0x61 := by
  rw [String.toList_append, toList_distance]
  refine List.forall_mem_append.mpr ⟨?_, List.forall_mem_cons.mpr ⟨?_, fun c hc => ?_⟩⟩
  · have hall : ∀ b ∈ bases, ∀ c ∈ b.1.toList, 33 ≤ c.toNat ∧ c.toNat < 0x61 := by simp [bases]
    exact hall base hbase
  · split <;> decide
  · have hdigit := Text.digit_bounds (Text.isDigit_of_mem_toDigits c hc)
    omega

theorem upper_eq {cs : List Char} (h : ∀ c ∈ cs, c.toNat < 0x61) : Text.upper (String.ofList cs) = String.ofList cs := by
  have hascii : ∀ c ∈ cs, c.toNat < 0x80 := fun c hc => Nat.lt_trans (h c hc) (by decide)
  have hsame {c : Char} (hc : c.toNat < 0x61) : Text.toUpper c = c := by
    have hall : ∀ r ∈ Text.upperRanges, 0x61 ≤ r.first := by decide +kernel
    have hnone : (Text.upperRanges.find? fun r => r.first ≤ c.toNat && c.toNat ≤ r.last && (c.toNat - r.first) % r.step == 0) = none := by
      refine List.find?_eq_none.mpr fun r hr => ?_
      have hfirst := hall r hr
      simp
      omega
    rw [Text.toUpper, Text.mapCase, hnone]
  rw [Text.upper, Text.runes, String.toList_ofList, Text.runesOf_of_ascii hascii, List.map_map]
  have hmap : cs.map (Text.Rune.mapValue Text.toUpper ∘ Text.Rune.char) = cs.map Text.Rune.char :=
    List.map_congr_left fun c hc => congrArg Text.Rune.char (hsame (h c hc))
  rw [hmap, Text.ofRunes_of_ascii hascii]

theorem int64?_distance {n : Int} (hn : Text.inInt64 n = true) : Text.int64? (distance n) = some n := by
  have hread : Text.intOfDigits? 10 (distance n) = some n := by
    have hsplit : Text.splitSign (distance n).toList = (decide (n < 0), Nat.toDigits 10 n.natAbs) := by
      rw [toList_distance]
      split
      · next hneg => simp [Text.splitSign, hneg]
      · next hpos => simp [Text.splitSign, hpos]
    have hvalue : Nat.ofDigitChars 10 (Nat.toDigits 10 n.natAbs) 0 = n.natAbs := Nat.ofDigitChars_toDigits (by decide) (by decide)
    obtain ⟨d, ds, hds⟩ := List.exists_cons_of_ne_nil (Nat.toDigits_ne_nil (n := n.natAbs) (b := 10))
    have hdigits : Text.natOfDigits? 10 0 (Nat.toDigits 10 n.natAbs) = some n.natAbs :=
      (Text.natOfDigits?_of_isDigit Text.isDigit_of_mem_toDigits 0).trans (congrArg some hvalue)
    have hsigned : (if decide (n < 0) = true then -(n.natAbs : Int) else n.natAbs) = n := by
      simp only [decide_eq_true_eq]
      omega
    rw [hds] at hsplit hdigits
    rw [Text.intOfDigits?, hsplit]
    dsimp only
    rw [hdigits]
    exact congrArg some hsigned
  rw [Text.int64?, hread, Option.filter_some, if_pos hn]

theorem ofText_distance {base : String × Level} (hbase : base ∈ bases) {n : Int} (hn : Text.inInt64 n = true) :
    ofText (base.1 ++ distance n) = ⟨Text.wrap64 (base.2.value + n)⟩ := by
  have htrim : Text.trim (base.1 ++ distance n) = base.1 ++ distance n := by
    have htext := Text.trim_of_visible fun c hc =>
      ⟨(distance_bounds hbase n c hc).1, Nat.lt_trans (distance_bounds hbase n c hc).2 (by decide)⟩
    rwa [String.ofList_toList] at htext
  have hsign : ∃ sign ds, (distance n).toList = sign :: ds ∧ (sign = '-' ∨ sign = '+') := by
    refine ⟨_, _, toList_distance n, ?_⟩
    split
    · exact .inl rfl
    · exact .inr rfl
  obtain ⟨sign, ds, hdistance, hsign⟩ := hsign
  have hcases : base ∈ [("DEBUG", debug), ("INFO", info), ("WARN", warn), ("ERROR", error)] := hbase
  simp only [List.mem_cons, List.not_mem_nil, or_false] at hcases
  have hfold : Text.equalFold (base.1 ++ distance n) "trace" = false := by
    have hhead : ∃ c cs, base.1.toList = c :: cs ∧ c.toNat < 0x80 ∧ Text.foldCase c ≠ Text.foldCase 't' := by
      rcases hcases with rfl | rfl | rfl | rfl
      all_goals exact ⟨_, _, rfl, by decide, by decide⟩
    obtain ⟨c, cs, hcs, hascii, hne⟩ := hhead
    rw [Text.equalFold, beq_eq_false_iff_ne, Text.runes, String.toList_append, hcs, List.cons_append, Text.runesOf_cons hascii]
    exact fun h => hne (Text.Rune.char.inj (List.cons.inj h).1)
  have hletters : ∀ c ∈ base.1.toList, (!(c == '+' || c == '-')) = true := by
    rcases hcases with rfl | rfl | rfl | rfl
    all_goals simp
  have hstop : (!(sign == '+' || sign == '-')) = false := by rcases hsign with rfl | rfl <;> rfl
  have htake : (base.1 ++ distance n).toList.takeWhile (fun c => !(c == '+' || c == '-')) = base.1.toList := by
    rw [String.toList_append, hdistance, List.takeWhile_append_of_pos hletters, List.takeWhile_cons_of_neg (by simp [hstop]),
      List.append_nil]
  have hdrop : (base.1 ++ distance n).toList.dropWhile (fun c => !(c == '+' || c == '-')) = (distance n).toList := by
    rw [String.toList_append, hdistance, List.dropWhile_append_of_pos hletters, List.dropWhile_cons_of_neg (by simp [hstop])]
  have hne : (distance n).isEmpty = false := by
    rw [String.isEmpty_eq_false_iff]
    rintro hempty
    rw [hempty] at hdistance
    cases hdistance
  unfold ofText
  dsimp only
  rw [htrim, hfold, htake, hdrop, String.ofList_toList, String.ofList_toList, int64?_distance hn, hne]
  rcases hcases with rfl | rfl | rfl | rfl
  all_goals rfl

theorem label_cases (l : Level) :
    l ∈ [trace, debug, info, warn, error] ∨
      ∃ base ∈ bases, ∃ n : Int, l.value = base.2.value + n ∧ (Text.inInt64 l.value = true → Text.inInt64 n = true) ∧
        l.label = base.1 ++ distance n := by
  refine (name_cases l).imp_right ?_
  rintro ⟨base, hbase, n, hvalue, hfits, hname⟩
  have hupper := upper_eq fun c hc => (distance_bounds hbase n c hc).2
  rw [String.ofList_toList] at hupper
  exact ⟨base, hbase, n, hvalue, hfits, by rw [label, hname, hupper]⟩

theorem portable_label (l : Level) : Text.IsPortable l.label := by
  refine Text.portable_of_plain ?_
  rcases label_cases l with hnamed | ⟨base, hbase, n, -, -, hlabel⟩
  · have hall : ∀ m ∈ [trace, debug, info, warn, error], m.label ∈ ["TRACE", "DEBUG", "INFO", "WARN", "ERROR"] := by decide +kernel
    have hplain : ∀ s ∈ ["TRACE", "DEBUG", "INFO", "WARN", "ERROR"], IsPlain s.toList := by simp [IsPlain]
    exact hplain _ (hall l hnamed)
  · rw [hlabel]
    exact fun c hc => ⟨(distance_bounds hbase n c hc).1, Nat.lt_trans (distance_bounds hbase n c hc).2 (by decide)⟩

-- A level is told from its label.
theorem ofText_label {l : Level} (hl : Text.inInt64 l.value = true) : ofText l.label = l := by
  rcases label_cases l with hnamed | ⟨base, hbase, n, hvalue, hfits, hlabel⟩
  · have hall : ∀ m ∈ [trace, debug, info, warn, error], ofText m.label = m := by decide +kernel
    exact hall l hnamed
  · rw [hlabel, ofText_distance hbase (hfits hl), ← hvalue, Text.wrap64_of_inInt64 hl]

end Level
end Log

namespace Log

-- Fields

mutual

def Value.toJson : Value → Json
  | .text s => .text s
  | .int n => .number (toString n)
  | .float x => .number (floatText x)
  | .bool b => .bool b
  | .duration ns => .text (Text.duration ns)
  | .error s => .text s
  | .item x => x.toJson
  | .group fields => .object (membersOf fields)

-- A field without key and value says nothing.
def membersOf : List (String × Value) → List (String × Json)
  | [] => []
  | (k, v) :: fs => if Field.isEmpty (k, v) then membersOf fs else (k, v.toJson) :: membersOf fs

end

-- Its numbers can be written down.
mutual

def Value.IsFinite : Value → Prop
  | .float x => ∃ negative mantissa exponent, x = .finite negative mantissa exponent
  | .item x => x.IsFinite
  | .group fields => AllFinite fields
  | _ => True

def AllFinite : List (String × Value) → Prop
  | [] => True
  | (_, v) :: fs => v.IsFinite ∧ AllFinite fs

end

-- Its texts and its keys can be written as JSON has them. Those of an item always can.
mutual

def Value.IsPortable : Value → Prop
  | .text s => Text.IsPortable s
  | .error s => Text.IsPortable s
  | .group fields => ArePortable fields
  | _ => True

def ArePortable : List (String × Value) → Prop
  | [] => True
  | (k, v) :: fs => Text.IsPortable k ∧ v.IsPortable ∧ ArePortable fs

end

section Fields

variable {s : String} {fs : List (String × Value)}

theorem renders_quoted (h : Text.IsPortable s) : Renders (Text.quoted s) (.text s) := by
  obtain ⟨us, hus, hspells⟩ := Text.spells_escaped h
  have hquoted := Renders.quoted (Text.toList_quoted s) hspells
  rwa [Text.flatMap_runes hus] at hquoted

theorem portable_of_isEmpty {k : String} {v : Value} (h : Field.isEmpty (k, v) = true) : Text.IsPortable k ∧ v.IsPortable := by
  rw [Field.isEmpty, Bool.and_eq_true] at h
  have hk : k = "" := by simpa using h.1
  refine ⟨hk ▸ Text.portable_of_plain (List.forall_mem_nil _), ?_⟩
  cases v with
  | item x => exact trivial
  | _ => cases h.2

-- What a member is given.
def prettyValue (depth : Nat) : Value → String
  | .group fs => prettyObject (depth + 1) fs
  | v => prettyJsonValue v

theorem prettyMember_eq (depth : Nat) (name : String) (v : Value) :
    prettyMember depth name v = blockText (Text.quoted name) ++ ": " ++ prettyValue depth v := by
  rw [prettyMember.eq_def]
  cases v <;> rfl

theorem prettyMembers_skip (first : Bool) (depth : Nat) (h : membersOf fs = []) : prettyMembers depth first fs = "" := by
  induction fs with
  | nil => rw [prettyMembers]
  | cons f fs ih =>
      obtain ⟨k, v⟩ := f
      rw [membersOf] at h
      split at h
      · next hempty => rw [prettyMembers, if_pos hempty, ih h]
      · cases h

theorem prettyMembers_next (depth : Nat) (h : membersOf fs ≠ []) :
    prettyMembers depth false fs = "," ++ prettyMembers depth true fs := by
  induction fs with
  | nil => exact absurd rfl h
  | cons f fs ih =>
      obtain ⟨k, v⟩ := f
      rw [membersOf] at h
      rw [prettyMembers, prettyMembers]
      split
      · next hempty =>
        rw [if_pos hempty] at h
        exact ih h
      · simp only [Bool.false_eq_true, if_false, if_true, String.empty_append, String.append_assoc]

theorem isBlank_line (n : Nat) : IsBlank ("\n" ++ Text.replicate n "  ").toList := by
  have hindent : IsBlank (Text.replicate n "  ").toList := by
    induction n with
    | zero => exact isBlank_nil
    | succ n ih =>
        intro c hc
        rw [Text.replicate, List.replicate_succ, String.join_cons, String.toList_append, List.mem_append] at hc
        rcases hc with hc | hc
        · exact .inl (by simpa using hc)
        · exact ih c hc
  rw [String.toList_append]
  exact List.forall_mem_append.mpr ⟨by simp, hindent⟩

theorem toList_prettyObject (depth : Nat) (fs : List (String × Value)) : (prettyObject depth fs).toList =
    '\x7b' :: ((prettyMembers depth true fs).toList ++ ("\n" ++ Text.replicate (depth - 1) "  ").toList ++ ['\x7d']) := by
  rw [prettyObject]
  simp

theorem denotes_object (depth : Nat) (h : membersOf fs ≠ [] → ∀ tail, IsBlank tail →
      DenotesMembers ((prettyMembers depth true fs).toList ++ tail) (membersOf fs)) :
    Denotes (prettyObject depth fs).toList (.object (membersOf fs)) := by
  rw [toList_prettyObject]
  by_cases hnone : membersOf fs = []
  · rw [prettyMembers_skip true depth hnone, hnone]
    exact .emptyObject (isBlank_line _)
  · exact .object (h hnone _ (isBlank_line _))

theorem denotesMember_line {depth : Nat} {k : String} {v : Value} {x : Json} {tail : List Char} (hk : Text.IsPortable k)
    (hv : Denotes (prettyValue depth v).toList x) (htail : IsBlank tail) :
    DenotesMember (("\n" ++ Text.replicate depth "  " ++ prettyMember depth k v).toList ++ tail) (k, x) := by
  obtain ⟨us, hus, hspells⟩ := Text.spells_escaped hk
  have hflat : blockText (Text.quoted k) = Text.quoted k := blockText_eq (renders_quoted hk).2
  have htext : ("\n" ++ Text.replicate depth "  " ++ prettyMember depth k v).toList ++ tail =
      ("\n" ++ Text.replicate depth "  ").toList ++ '"' :: ((Text.runes k).flatMap (Text.Rune.escaped '"') ++
        '"' :: ([] ++ ':' :: ([' '] ++ (prettyValue depth v).toList ++ tail))) := by
    rw [prettyMember_eq, hflat]
    simp [Text.toList_quoted]
  have hmember := DenotesMember.mk (isBlank_line depth) hspells isBlank_nil (List.forall_mem_singleton.mpr (.inl rfl)) hv htail
  rw [Text.flatMap_runes hus] at hmember
  rwa [htext]

theorem blockText_quoted (s : String) : blockText (Text.quoted s) = Text.quoted s := blockText_eq (Text.quoted_solid s)

theorem denotes_single {v : Value} (hgroup : v.isGroup = false) (hfinite : v.IsFinite) (hv : v.IsPortable) (depth : Nat) :
    Denotes (prettyValue depth v).toList v.toJson := by
  have hquoted {s : String} (hs : Text.IsPortable s) : Denotes (blockText (Text.quoted s)).toList (.text s) := by
    rw [blockText_quoted]
    exact (renders_quoted hs).1
  cases v with
  | text s =>
      rw [Value.IsPortable] at hv
      have hdenotes : Denotes (blockText (Text.quoted s)).toList (.text s) := hquoted hv
      exact hdenotes
  | int n => exact .number (Json.isNumber_toString n)
  | float x =>
      rw [Value.IsFinite] at hfinite
      obtain ⟨negative, m, e, rfl⟩ := hfinite
      have hnumber := Denotes.number (Binary64.isNumber_text .general negative m e)
      exact hnumber
  | bool b => exact (renders_boolText b).1
  | duration ns =>
      have hdenotes : Denotes (blockText (Text.quoted (Text.duration ns))).toList (.text (Text.duration ns)) :=
        hquoted (Text.portable_duration ns)
      exact hdenotes
  | error s =>
      rw [Value.IsPortable] at hv
      have hdenotes : Denotes (blockText (Text.quoted s)).toList (.text s) := hquoted hv
      exact hdenotes
  | item x =>
      rw [Value.IsFinite] at hfinite
      have hrenders := renders_item true x hfinite
      have hdenotes : Denotes (blockText (x.json true)).toList x.toJson := by
        rw [blockText_eq hrenders.2]
        exact hrenders.1
      exact hdenotes
  | group fs => cases hgroup

theorem clean_single {v : Value} (hgroup : v.isGroup = false) (hfinite : v.IsFinite) {depth : Nat} {rest : List Char}
    (h : IsClean ((prettyValue depth v).toList ++ rest)) : v.IsPortable ∧ IsClean rest := by
  -- only of texts it is not known yet that they are portable
  have hportable (hv : v.IsPortable) : v.IsPortable ∧ IsClean rest :=
    ⟨hv, (denotes_single hgroup hfinite hv depth).clean.of_append h⟩
  cases v with
  | text s =>
      have hquoted : IsClean ((blockText (Text.quoted s)).toList ++ rest) := h
      rw [blockText_quoted] at hquoted
      rw [Value.IsPortable]
      exact Text.portable_of_quoted hquoted
  | error s =>
      have hquoted : IsClean ((blockText (Text.quoted s)).toList ++ rest) := h
      rw [blockText_quoted] at hquoted
      rw [Value.IsPortable]
      exact Text.portable_of_quoted hquoted
  | int n => exact hportable trivial
  | float x => exact hportable trivial
  | bool b => exact hportable trivial
  | duration ns => exact hportable trivial
  | item x => exact hportable trivial
  | group fs => cases hgroup

theorem denotesMembers_cons {depth : Nat} {k : String} {v : Value} {tail : List Char} (hempty : Field.isEmpty (k, v) = false)
    (hk : Text.IsPortable k) (hv : Denotes (prettyValue depth v).toList v.toJson) (htail : IsBlank tail)
    (hrest : membersOf fs ≠ [] → DenotesMembers ((prettyMembers depth true fs).toList ++ tail) (membersOf fs)) :
    DenotesMembers ((prettyMembers depth true ((k, v) :: fs)).toList ++ tail) ((k, v.toJson) :: membersOf fs) := by
  have htext : (prettyMembers depth true ((k, v) :: fs)).toList =
      ("\n" ++ Text.replicate depth "  " ++ prettyMember depth k v).toList ++ (prettyMembers depth false fs).toList := by
    rw [prettyMembers, hempty, ← String.toList_append]
    simp only [Bool.false_eq_true, if_false, if_true, String.empty_append]
  rw [htext]
  by_cases hnone : membersOf fs = []
  · rw [prettyMembers_skip false depth hnone, hnone, String.toList_empty, List.append_nil]
    exact .last (denotesMember_line hk hv htail)
  · rw [prettyMembers_next depth hnone]
    have hline := denotesMember_line hk hv isBlank_nil
    rw [List.append_nil] at hline
    simpa using DenotesMembers.cons hline (hrest hnone)

-- At whatever depth it is laid out, a value of portable texts is JSON.
theorem denotes_value (v : Value) : v.IsFinite → v.IsPortable → ∀ depth, Denotes (prettyValue depth v).toList v.toJson := by
  refine Value.toJson.induct (fun v => v.IsFinite → v.IsPortable → ∀ depth, Denotes (prettyValue depth v).toList v.toJson)
    (fun fs => AllFinite fs → ArePortable fs → ∀ depth tail, IsBlank tail → membersOf fs ≠ [] →
      DenotesMembers ((prettyMembers depth true fs).toList ++ tail) (membersOf fs))
    ?text ?int ?float ?bool ?duration ?error ?item ?group ?none ?skip ?field v
  case text => exact fun s => denotes_single rfl
  case int => exact fun n => denotes_single rfl
  case float => exact fun x => denotes_single rfl
  case bool => exact fun b => denotes_single rfl
  case duration => exact fun ns => denotes_single rfl
  case error => exact fun s => denotes_single rfl
  case item => exact fun x => denotes_single rfl
  case group =>
    intro fs ih hfinite h depth
    rw [Value.IsFinite] at hfinite
    rw [Value.IsPortable] at h
    rw [prettyValue, Value.toJson]
    exact denotes_object (depth + 1) fun hne tail htail => ih hfinite h (depth + 1) tail htail hne
  case none => exact fun _ _ _ _ _ h => absurd rfl h
  case skip =>
    intro k v fs hempty ih hfinite h depth tail htail hne
    rw [AllFinite] at hfinite
    rw [ArePortable] at h
    rw [membersOf, if_pos hempty] at hne ⊢
    rw [prettyMembers, if_pos hempty]
    exact ih hfinite.2 h.2.2 depth tail htail hne
  case field =>
    intro k v fs hempty hv ih hfinite h depth tail htail _
    rw [AllFinite] at hfinite
    rw [ArePortable] at h
    rw [membersOf, if_neg hempty]
    exact denotesMembers_cons (by simpa using hempty) h.1 (hv hfinite.1 h.2.1 depth) htail (ih hfinite.2 h.2.2 depth tail htail)

theorem clean_object {depth : Nat} {rest : List Char} (h : IsClean ((prettyObject depth fs).toList ++ rest))
    (hfs : ∀ rest, IsClean ((prettyMembers depth true fs).toList ++ rest) → ArePortable fs ∧ IsClean rest) :
    ArePortable fs ∧ IsClean rest := by
  rw [toList_prettyObject, List.cons_append] at h
  have hmembers : IsClean ((prettyMembers depth true fs).toList ++
      (("\n" ++ Text.replicate (depth - 1) "  ").toList ++ '\x7d' :: rest)) := by simpa using h.of_cons (by decide)
  obtain ⟨hportable, htail⟩ := hfs _ hmembers
  exact ⟨hportable, ((isBlank_line _).clean.of_append htail).of_cons (by decide)⟩

theorem clean_member {depth : Nat} {first : Bool} {k : String} {v : Value} {rest : List Char} (hempty : Field.isEmpty (k, v) = false)
    (h : IsClean ((prettyMembers depth first ((k, v) :: fs)).toList ++ rest)) :
    Text.IsPortable k ∧ IsClean ((prettyValue depth v).toList ++ ((prettyMembers depth false fs).toList ++ rest)) := by
  have htext : (prettyMembers depth first ((k, v) :: fs)).toList ++ rest = (if first then "" else ",").toList ++
      (("\n" ++ Text.replicate depth "  ").toList ++ ((Text.quoted k).toList ++
        ([':', ' '] ++ ((prettyValue depth v).toList ++ ((prettyMembers depth false fs).toList ++ rest))))) := by
    rw [prettyMembers, hempty, prettyMember_eq, blockText_quoted]
    simp
  rw [htext] at h
  have hsep : IsClean (if first then "" else ",").toList := Json.isClean_of_not_mem (by cases first <;> decide)
  obtain ⟨hk, hvalue⟩ := Text.portable_of_quoted ((isBlank_line depth).clean.of_append (hsep.of_append h))
  exact ⟨hk, (hvalue.of_cons (by decide)).of_cons (by decide)⟩

-- Any other value is not even clean.
theorem clean_value (v : Value) :
    v.IsFinite → ∀ depth rest, IsClean ((prettyValue depth v).toList ++ rest) → v.IsPortable ∧ IsClean rest := by
  refine Value.toJson.induct
    (fun v => v.IsFinite → ∀ depth rest, IsClean ((prettyValue depth v).toList ++ rest) → v.IsPortable ∧ IsClean rest)
    (fun fs => AllFinite fs → ∀ depth first rest, IsClean ((prettyMembers depth first fs).toList ++ rest) → ArePortable fs ∧ IsClean rest)
    ?text ?int ?float ?bool ?duration ?error ?item ?group ?none ?skip ?field v
  case text => exact fun s hfinite _ _ => clean_single rfl hfinite
  case int => exact fun n hfinite _ _ => clean_single rfl hfinite
  case float => exact fun x hfinite _ _ => clean_single rfl hfinite
  case bool => exact fun b hfinite _ _ => clean_single rfl hfinite
  case duration => exact fun ns hfinite _ _ => clean_single rfl hfinite
  case error => exact fun s hfinite _ _ => clean_single rfl hfinite
  case item => exact fun x hfinite _ _ => clean_single rfl hfinite
  case group =>
    intro fs ih hfinite depth rest h
    rw [Value.IsFinite] at hfinite
    rw [prettyValue] at h
    rw [Value.IsPortable]
    exact clean_object h fun rest => ih hfinite (depth + 1) true rest
  case none =>
    intro _ depth first rest h
    rw [prettyMembers] at h
    exact ⟨trivial, h⟩
  case skip =>
    intro k v fs hempty ih hfinite depth first rest h
    rw [AllFinite] at hfinite
    rw [prettyMembers, if_pos hempty] at h
    obtain ⟨hfs, hrest⟩ := ih hfinite.2 depth first rest h
    rw [ArePortable]
    exact ⟨⟨(portable_of_isEmpty hempty).1, (portable_of_isEmpty hempty).2, hfs⟩, hrest⟩
  case field =>
    intro k v fs hempty hv ih hfinite depth first rest h
    rw [AllFinite] at hfinite
    obtain ⟨hk, hvalue⟩ := clean_member (by simpa using hempty) h
    obtain ⟨hv, hmembers⟩ := hv hfinite.1 depth _ hvalue
    obtain ⟨hfs, hrest⟩ := ih hfinite.2 depth false rest hmembers
    rw [ArePortable]
    exact ⟨⟨hk, hv, hfs⟩, hrest⟩

end Fields

-- Entries

-- The fields of an entry: the stamp if there is one, the level, the message, the logger's fields and the entry's own ones.
def entryFields (lg : Logger) (e : Entry) : List Field :=
  (if lg.stamp.isEmpty then [] else [("time", Value.text lg.stamp)]) ++
    [("level", Value.text e.level.label), ("msg", Value.text e.message)] ++ lg.with_ ++ e.fields.filter fun f => !f.2.isEmptyGroup

-- An entry is written as a JSON object and a line end if and only if its texts are portable. The object has a member for each
-- field, in order and with the field's value, and the level is told from its label.
theorem Logger.write_pretty {lg : Logger} {e : Entry} (hformat : lg.format = .json) (hpretty : lg.pretty = true)
    (hlevel : lg.level.value ≤ e.level.value) (hfinite : AllFinite (entryFields lg e)) :
    ∃ text, lg.write e = text ++ "\n" ∧
      (ArePortable (entryFields lg e) → Denotes text.toList (.object (membersOf (entryFields lg e)))) ∧
      (∀ x, Denotes text.toList x → ArePortable (entryFields lg e)) ∧
      (Text.inInt64 e.level.value = true → Level.ofText e.level.label = e.level) := by
  have hwrite : lg.write e = prettyObject 1 (entryFields lg e) ++ "\n" := by
    rw [Logger.write, if_neg (by omega), hpretty, hformat]
    rfl
  have hobject : Value.IsFinite (.group (entryFields lg e)) := by
    rw [Value.IsFinite]
    exact hfinite
  refine ⟨_, hwrite, fun h => ?_, fun x hx => ?_, Level.ofText_label⟩
  · have hgroup : Value.IsPortable (.group (entryFields lg e)) := by
      rw [Value.IsPortable]
      exact h
    have hdenotes := denotes_value _ hobject hgroup 0
    rwa [prettyValue, Value.toJson] at hdenotes
  · have hclean : IsClean ((prettyValue 0 (.group (entryFields lg e))).toList ++ []) := by
      rw [prettyValue, List.append_nil]
      exact hx.clean
    have hgroup := (clean_value _ hobject 0 [] hclean).1
    rwa [Value.IsPortable] at hgroup

def sampleEntry : Entry where
  level := .warn
  message := "a\tb"
  fields := [("n", .int (-7)), ("nil", .null), ("list", .item (.list [.text "x\x07", .bool true])),
    ("group", .group [("wait", .duration 1500), ("none", .group [])])]

theorem Logger.write_pretty_nested :
    ∃ text, ({ format := .json } : Logger).write sampleEntry = text ++ "\n" ∧
      Denotes text.toList (.object [("level", .text "WARN"), ("msg", .text "a\tb"), ("n", .number "-7"), ("nil", .null),
        ("list", .list [.text "x\x07", .bool true]),
        ("group", .object [("wait", .text "1.5\xc2\xb5s"), ("none", .object [])])]) := by
  have hfields : entryFields { format := .json } sampleEntry = [("level", .text "WARN"), ("msg", .text "a\tb"), ("n", .int (-7)),
      ("nil", .null), ("list", .item (.list [.text "x\x07", .bool true])),
      ("group", .group [("wait", .duration 1500), ("none", .group [])])] := by rfl
  have hfinite : AllFinite (entryFields { format := .json } sampleEntry) := by
    rw [hfields]
    simp [AllFinite, Value.IsFinite, Value.null, Item.IsFinite, AreFinite]
  have hportable : ArePortable (entryFields { format := .json } sampleEntry) := by
    have htexts : ∀ s ∈ ["level", "WARN", "msg", "a\tb", "n", "nil", "list", "group", "wait", "none"], Text.IsPortable s := by
      decide +kernel
    rw [hfields]
    simpa [ArePortable, Value.IsPortable, Value.null] using htexts
  obtain ⟨text, hwrite, hdenotes, -⟩ := Logger.write_pretty rfl rfl (by decide) hfinite
  have hmembers : membersOf (entryFields { format := .json } sampleEntry) = [("level", .text "WARN"), ("msg", .text "a\tb"),
      ("n", .number "-7"), ("nil", .null), ("list", .list [.text "x\x07", .bool true]),
      ("group", .object [("wait", .text "1.5\xc2\xb5s"), ("none", .object [])])] := by rfl
  exact ⟨text, hwrite, hmembers ▸ hdenotes hportable⟩

-- The bell is written with an escape of its own.
example : ¬Text.IsPortable "a\x07b" := by decide +kernel

end Log
end ShellScript

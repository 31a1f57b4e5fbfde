import Mathlib.Data.List.DropRight
import Mathlib.Data.List.TakeDrop
import ShellScript.Text.Rune
import ShellScript.Text.Quoted

-- Texts as the characters they spell. A text that is cut between two of its runes is read as before on both sides of the
-- cut, so one without white space around it stays as it is when it is trimmed once more. `ofUnicode u` spells `u`: a text
-- that begins or ends with whole characters leaves whole characters behind when they are taken away.
namespace ShellScript

theorem drop_length_takeWhile {α : Type} (p : α → Bool) (l : List α) : l.drop (l.takeWhile p).length = l.dropWhile p := by
  have hboth := congrArg (List.drop (l.takeWhile p).length) (List.takeWhile_append_dropWhile (p := p) (l := l))
  rwa [List.drop_left, eq_comm] at hboth

namespace Text

theorem leading_le_length (c : Char) (cs : List Char) : (leading c cs).2 ≤ cs.length := by
  rcases cs with _ | ⟨c₁, _ | ⟨c₂, _ | ⟨c₃, cs⟩⟩⟩ <;> grind [leading]

theorem flatMap_bytes_runesOf (cs : List Char) : (runesOf cs).flatMap Rune.bytes = cs := by
  induction hn : cs.length using Nat.strong_induction_on generalizing cs with
  | _ n ih =>
      subst hn
      cases cs with
      | nil => rfl
      | cons c cs =>
          have hlength : (cs.drop (leading c cs).2).length < (c :: cs).length := by
            rw [List.length_drop, List.length_cons]
            omega
          have hrest := ih _ hlength _ rfl
          rw [runesOf_cons_drop, List.flatMap_cons, leading_bytes, hrest, List.cons_append, List.take_append_drop]

-- The bytes before the cut are read without those after it.
theorem runesOf_cut {cs : List Char} {rs rs' : List Rune} (h : runesOf cs = rs ++ rs') :
    runesOf (rs.flatMap Rune.bytes) = rs ∧ runesOf (rs'.flatMap Rune.bytes) = rs' := by
  induction rs generalizing cs with
  | nil =>
      rw [List.nil_append] at h
      have hback : rs'.flatMap Rune.bytes = cs := h ▸ flatMap_bytes_runesOf cs
      exact ⟨rfl, hback ▸ h⟩
  | cons r rs ih =>
      cases cs with
      | nil => cases h
      | cons c cs =>
          rw [runesOf_cons_drop, List.cons_append] at h
          obtain ⟨rfl, hrest⟩ := List.cons.inj h
          obtain ⟨hleft, hright⟩ := ih hrest
          refine ⟨?_, hright⟩
          have hdrop : cs.drop (leading c cs).2 = rs.flatMap Rune.bytes ++ rs'.flatMap Rune.bytes := by
            rw [← List.flatMap_append, ← hrest, flatMap_bytes_runesOf]
          have hwhole : cs = (cs.take (leading c cs).2 ++ rs.flatMap Rune.bytes) ++ rs'.flatMap Rune.bytes := by
            rw [List.append_assoc, ← hdrop, List.take_append_drop]
          have htake : (cs.take (leading c cs).2).length = (leading c cs).2 :=
            List.length_take_of_le (leading_le_length c cs)
          have hleading : leading c (cs.take (leading c cs).2 ++ rs.flatMap Rune.bytes) = leading c cs := by
            have hlocal : (leading c cs).2 ≤ (cs.take (leading c cs).2 ++ rs.flatMap Rune.bytes).length := by
              rw [List.length_append, htake]
              exact Nat.le_add_right _ _
            generalize cs.take (leading c cs).2 ++ rs.flatMap Rune.bytes = xs at hwhole hlocal ⊢
            rw [hwhole] at hlocal ⊢
            exact leading_append hlocal
          rw [List.flatMap_cons, leading_bytes, List.cons_append, runesOf_cons_drop, hleading,
            List.drop_append_of_le_length htake.ge, List.drop_eq_nil_of_le htake.le, List.nil_append, hleft]

theorem runes_ofRunes_of_infix {s : String} {rs : List Rune} (h : rs <:+: runes s) : runes (ofRunes rs) = rs := by
  obtain ⟨front, back, hrs⟩ := h
  have hfront := (runesOf_cut hrs.symm).1
  have hmiddle := (runesOf_cut hfront).2
  rw [runes, ofRunes, String.toList_ofList, hmiddle]

-- What is left of the runes between the spaces.
def trimmed (s : String) : List Rune := ((runes s).dropWhile Rune.isSpace).rdropWhile Rune.isSpace

theorem isInfix_trimmed (s : String) : trimmed s <:+: runes s :=
  (List.rdropWhile_prefix _ _).isInfix.trans (List.dropWhile_suffix _).isInfix

theorem trim_eq (s : String) : trim s = ofRunes (trimmed s) := by
  have hleft : runes (trimLeft s) = (runes s).dropWhile Rune.isSpace :=
    runes_ofRunes_of_infix (List.dropWhile_suffix _).isInfix
  rw [trim, trimRight, hleft]
  rfl

theorem trim_trim (s : String) : trim (trim s) = trim s := by
  have hrunes : runes (trim s) = trimmed s := by rw [trim_eq, runes_ofRunes_of_infix (isInfix_trimmed s)]
  have hhead : (trimmed s).dropWhile Rune.isSpace = trimmed s := by
    refine List.dropWhile_eq_self_iff.mpr fun hlength => ?_
    have hprefix := List.rdropWhile_prefix Rune.isSpace ((runes s).dropWhile Rune.isSpace)
    have hbound : 0 < ((runes s).dropWhile Rune.isSpace).length := hlength.trans_le hprefix.length_le
    have hfirst : (trimmed s)[0] = ((runes s).dropWhile Rune.isSpace)[0] := hprefix.getElem hlength
    rw [hfirst]
    exact List.dropWhile_eq_self_iff.mp (List.dropWhile_idempotent _ _) _
  rw [trim_eq (trim s), trimmed, hrunes, hhead, trim_eq s, trimmed, List.rdropWhile_idempotent]

theorem trim_eq_self {s : String} (h : ∀ r ∈ runes s, r.isSpace = false) : trim s = s := by
  have hleft : (runes s).dropWhile Rune.isSpace = runes s :=
    List.dropWhile_eq_self_iff.mpr fun hl => Bool.not_eq_true _ ▸ h _ (List.getElem_mem hl)
  have hright : (runes s).rdropWhile Rune.isSpace = runes s :=
    List.rdropWhile_eq_self_iff.mpr fun hl => Bool.not_eq_true _ ▸ h _ (List.getLast_mem hl)
  rw [trim_eq, trimmed, hleft, hright, ofRunes, runes, flatMap_bytes_runesOf, String.ofList_toList]

theorem trim_of_visible {cs : List Char} (h : ∀ c ∈ cs, 33 ≤ c.toNat ∧ c.toNat < 0x80) :
    trim (String.ofList cs) = String.ofList cs := by
  refine trim_eq_self fun r hr => ?_
  rw [runes, String.toList_ofList, runesOf_of_ascii fun c hc => (h c hc).2] at hr
  obtain ⟨c, hc, rfl⟩ := List.mem_map.mp hr
  have hrange := h c hc
  simp only [Rune.isSpace, isSpace]
  simp
  omega

theorem toList_ofUnicode (u : String) : (ofUnicode u).toList = u.toList.flatMap utf8 := String.toList_ofList

theorem ofUnicode_append (u w : String) : ofUnicode (u ++ w) = ofUnicode u ++ ofUnicode w := by
  rw [ofUnicode, String.toList_append, List.flatMap_append, String.ofList_append]
  rfl

theorem ofUnicode_of_ascii {u : String} (h : ∀ c ∈ u.toList, c.toNat < 0x80) : ofUnicode u = u := by
  have hbytes (cs : List Char) (hcs : ∀ c ∈ cs, c.toNat < 0x80) : cs.flatMap utf8 = cs := by
    induction cs with
    | nil => rfl
    | cons c cs ih =>
        obtain ⟨hc, hcs⟩ := List.forall_mem_cons.mp hcs
        rw [List.flatMap_cons, ih hcs, utf8, if_pos hc, List.singleton_append]
  rw [ofUnicode, hbytes u.toList h, String.ofList_toList]

theorem runesOf_utf8 (c : Char) (cs : List Char) : runesOf (utf8 c ++ cs) = .char c :: runesOf cs := by
  obtain ⟨b, bs, hutf8, hleading⟩ := leading_utf8 c cs
  rw [hutf8, List.cons_append, runesOf_cons_drop, hleading, List.drop_left]

theorem runesOf_flatMap_utf8 (us cs : List Char) : runesOf (us.flatMap utf8 ++ cs) = us.map .char ++ runesOf cs := by
  induction us with
  | nil => rfl
  | cons u us ih => rw [List.flatMap_cons, List.append_assoc, runesOf_utf8, ih, List.map_cons, List.cons_append]

theorem runes_ofUnicode (u : String) : runes (ofUnicode u) = u.toList.map .char := by
  have hruns := runesOf_flatMap_utf8 u.toList []
  rwa [List.append_nil, show runesOf [] = [] from rfl, List.append_nil, ← toList_ofUnicode] at hruns

theorem map_char_inj {us ws : List Char} (h : us.map Rune.char = ws.map Rune.char) : us = ws :=
  List.map_injective_iff.mpr (fun _ _ h => Rune.char.inj h) h

theorem ofUnicode_inj {u w : String} (h : ofUnicode u = ofUnicode w) : u = w := by
  have hrunes := congrArg runes h
  rw [runes_ofUnicode, runes_ofUnicode] at hrunes
  exact String.toList_inj.mp (map_char_inj hrunes)

theorem flatMap_utf8_inj {us ws : List Char} (h : us.flatMap utf8 = ws.flatMap utf8) : us = ws := by
  have hofList (cs : List Char) : ofUnicode (String.ofList cs) = String.ofList (cs.flatMap utf8) := by
    rw [ofUnicode, String.toList_ofList]
  have hsame := ofUnicode_inj ((hofList us).trans ((congrArg String.ofList h).trans (hofList ws).symm))
  exact String.ofList_injective hsame

-- Whole characters at the front leave whole characters.
theorem exists_of_front {u w x : String} (h : ofUnicode u = ofUnicode w ++ x) :
    ∃ a, u = w ++ a ∧ x = ofUnicode a := by
  have hlist := congrArg String.toList h
  rw [String.toList_append, toList_ofUnicode, toList_ofUnicode] at hlist
  have hrunes : u.toList.map Rune.char = w.toList.map Rune.char ++ runesOf x.toList := by
    have hread := runesOf_flatMap_utf8 w.toList x.toList
    rwa [← hlist, ← toList_ofUnicode, show runesOf (ofUnicode u).toList = runes (ofUnicode u) from rfl,
      runes_ofUnicode] at hread
  obtain ⟨ws, xs, hus, hws, hxs⟩ := List.map_eq_append_iff.mp hrunes
  obtain rfl := map_char_inj hws
  have hu : u = w ++ String.ofList xs := by rw [← String.toList_inj, hus]; simp
  refine ⟨String.ofList xs, hu, ?_⟩
  rw [hu, ofUnicode_append, String.append_right_inj] at h
  exact h.symm

-- A byte that goes on with a character.
def Continues (c : Char) : Prop := 0x80 ≤ c.toNat ∧ c.toNat < 0xC0

theorem utf8_shape (c : Char) : ∃ b bs, utf8 c = b :: bs ∧ ¬Continues b ∧ ∀ d ∈ bs, Continues d := by
  have hbyte {n : Nat} (hn : n < 0x100) : (Char.ofNat n).toNat = n := toNat_ofNat (.inl (by omega))
  have hend (n : Nat) : Continues (Char.ofNat (0x80 + n % 64)) := by
    rw [Continues, hbyte (by omega)]
    omega
  have hlead {n : Nat} (hlow : 0xC0 ≤ n) (hhigh : n < 0x100) : ¬Continues (Char.ofNat n) := by
    rw [Continues, hbyte hhigh]
    omega
  have hvalid : c.toNat < 0x110000 := by
    have h : c.toNat < 0xD800 ∨ 0xDFFF < c.toNat ∧ c.toNat < 0x110000 := c.valid
    omega
  unfold utf8
  dsimp only
  split
  · exact ⟨_, _, rfl, by rw [Continues]; omega, by simp⟩
  split
  · exact ⟨_, _, rfl, hlead (by omega) (by omega), by simp [hend]⟩
  split
  · exact ⟨_, _, rfl, hlead (by omega) (by omega), by simp [hend]⟩
  · exact ⟨_, _, rfl, hlead (by omega) (by omega), by simp [hend]⟩

theorem head_utf8 {us : List Char} {d : Char} (h : d ∈ (us.flatMap utf8).head?) : ¬Continues d := by
  cases us with
  | nil => cases h
  | cons u us =>
      obtain ⟨b, bs, hutf8, hb, -⟩ := utf8_shape u
      rw [List.flatMap_cons, hutf8] at h
      cases h
      exact hb

-- Whole characters at the end leave whole characters: no character begins inside of another one.
theorem exists_of_back_list {us ws xs : List Char} (h : us.flatMap utf8 = xs ++ ws.flatMap utf8) :
    ∃ as, us = as ++ ws ∧ xs = as.flatMap utf8 := by
  induction us generalizing xs with
  | nil =>
      obtain ⟨rfl, hws⟩ := List.append_eq_nil_iff.mp h.symm
      have hws : ws.flatMap utf8 = [].flatMap utf8 := hws
      exact ⟨[], (flatMap_utf8_inj hws).symm, rfl⟩
  | cons u us ih =>
      rw [List.flatMap_cons] at h
      rcases List.append_eq_append_iff.mp h with ⟨ys, rfl, hus⟩ | ⟨ys, hutf8, hws⟩
      · obtain ⟨as, rfl, rfl⟩ := ih hus
        exact ⟨u :: as, rfl, rfl⟩
      rcases xs with _ | ⟨b, xs⟩
      · have hsame : ws.flatMap utf8 = (u :: us).flatMap utf8 := by rw [hws, List.flatMap_cons, hutf8, List.nil_append]
        exact ⟨[], (flatMap_utf8_inj hsame).symm, rfl⟩
      rcases ys with _ | ⟨d, ys⟩
      · refine ⟨[u], ?_, ?_⟩
        · rw [flatMap_utf8_inj hws, List.singleton_append]
        · rw [List.flatMap_singleton, hutf8, List.append_nil]
      -- the cut lies inside of the first character
      · obtain ⟨b', bs, hshape, -, hbs⟩ := utf8_shape u
        have hinner : d ∈ bs := by
          rw [hutf8, List.cons_append] at hshape
          rw [← (List.cons.inj hshape).2]
          simp
        have hhead : d ∈ (ws.flatMap utf8).head? := by rw [hws]; rfl
        exact absurd (hbs d hinner) (head_utf8 hhead)

theorem exists_of_back {u w x : String} (h : ofUnicode u = x ++ ofUnicode w) :
    ∃ a, u = a ++ w ∧ x = ofUnicode a := by
  have hlist := congrArg String.toList h
  rw [String.toList_append, toList_ofUnicode, toList_ofUnicode] at hlist
  obtain ⟨as, hu, hx⟩ := exists_of_back_list hlist
  refine ⟨String.ofList as, ?_, ?_⟩
  · rw [← String.toList_inj, hu]
    simp
  · rw [← String.toList_inj, hx, toList_ofUnicode, String.toList_ofList]

-- Names

theorem exists_cons_of_isName {name : String} (hname : isName name = true) :
    ∃ c cs, name.toList = c :: cs ∧ isNameStart c = true ∧ ∀ d ∈ name.toList, isNameChar d = true := by
  unfold isName at hname
  split at hname
  · cases hname
  · next c cs hlist =>
    obtain ⟨hc, hcs⟩ := Bool.and_eq_true_iff.mp hname
    refine ⟨c, cs, hlist, hc, hlist ▸ List.forall_mem_cons.mpr ⟨?_, List.all_eq_true.mp hcs⟩⟩
    simp [isNameChar, hc]

theorem span_name {name rest : List Char} (hname : ∀ c ∈ name, isNameChar c = true)
    (hrest : ∀ c ∈ rest.head?, isNameChar c = false) : (name ++ rest).span isNameChar = (name, rest) := by
  rw [List.span_eq_takeWhile_dropWhile, List.takeWhile_append_of_pos hname, List.dropWhile_append_of_pos hname]
  cases rest with
  | nil => simp
  | cons c cs =>
      have hc : ¬isNameChar c = true := Bool.eq_false_iff.mp (hrest c rfl)
      rw [List.takeWhile_cons_of_neg hc, List.dropWhile_cons_of_neg hc, List.append_nil]

end Text
end ShellScript

-- Lines of a comment as the characters they spell: an ASCII character stands alone wherever it is, so a text may be cut
-- there, trimmed on both sides of it, and split into words.
namespace ShellScript
namespace Text

section Lists

variable {α : Type} {p : α → Bool} {a : α}

theorem dropWhile_append_cons (ha : p a = false) (xs ys : List α) :
    (xs ++ a :: ys).dropWhile p = xs.dropWhile p ++ a :: ys := by
  rw [List.dropWhile_append]
  split
  · rename_i hnil
    rw [List.isEmpty_iff.mp hnil, List.dropWhile_cons_of_neg (by simp [ha]), List.nil_append]
  · rfl

theorem rdropWhile_append_cons (ha : p a = false) (xs ys : List α) :
    (xs ++ a :: ys).rdropWhile p = xs ++ a :: ys.rdropWhile p := by
  have hreverse : (xs ++ a :: ys).reverse = ys.reverse ++ a :: xs.reverse := by simp
  rw [List.rdropWhile, hreverse, dropWhile_append_cons ha, List.rdropWhile]
  simp

theorem dropWhile_rdropWhile (l : List α) : (l.rdropWhile p).dropWhile p = (l.dropWhile p).rdropWhile p := by
  by_cases hall : ∀ a ∈ l, p a = true
  · have hleft : l.dropWhile p = [] := List.dropWhile_eq_nil_iff.mpr hall
    have hright : l.rdropWhile p = [] := List.rdropWhile_eq_nil_iff.mpr hall
    rw [hleft, hright]
    rfl
  · obtain ⟨a, ha, hpa⟩ : ∃ a ∈ l, p a = false := by simpa using hall
    obtain ⟨xs, ys, rfl⟩ := List.append_of_mem ha
    rw [rdropWhile_append_cons hpa, dropWhile_append_cons hpa, dropWhile_append_cons hpa, rdropWhile_append_cons hpa]

end Lists

-- No sequence of bytes reaches over an ASCII character.
theorem leading_stops {c : Char} (hc : c.toNat < 0x80) (x : Char) (xs ys : List Char) :
    (leading x (xs ++ c :: ys)).2 ≤ xs.length := by
  by_contra hlt
  have hbytes := leading_bytes x (xs ++ c :: ys)
  have hmem : c ∈ (xs ++ c :: ys).take (leading x (xs ++ c :: ys)).2 := by
    obtain ⟨k, hk⟩ : ∃ k, (leading x (xs ++ c :: ys)).2 = xs.length + (k + 1) :=
      ⟨(leading x (xs ++ c :: ys)).2 - xs.length - 1, by omega⟩
    rw [hk, List.take_length_add_append]
    simp
  cases hrune : (leading x (xs ++ c :: ys)).1 with
  | stray b =>
      rw [hrune] at hbytes
      rw [← (List.cons.inj hbytes).2] at hmem
      cases hmem
  | char u =>
      obtain ⟨b, bs, hutf8, -, hcontinues⟩ := utf8_shape u
      rw [hrune, Rune.bytes, hutf8] at hbytes
      rw [← (List.cons.inj hbytes).2] at hmem
      exact absurd (hcontinues c hmem).1 (by omega)

theorem runesOf_append_cons {c : Char} (hc : c.toNat < 0x80) (xs ys : List Char) :
    runesOf (xs ++ c :: ys) = runesOf xs ++ .char c :: runesOf ys := by
  induction hn : xs.length using Nat.strong_induction_on generalizing xs with
  | _ n ih =>
      subst hn
      cases xs with
      | nil => exact runesOf_cons hc ys
      | cons x xs =>
          have hstops := leading_stops hc x xs ys
          have hshorter : (xs.drop (leading x (xs ++ c :: ys)).2).length < (x :: xs).length := by
            rw [List.length_drop, List.length_cons]
            omega
          rw [List.cons_append, runesOf_cons_drop, runesOf_cons_drop, leading_append hstops,
            List.drop_append_of_le_length hstops, ih _ hshorter _ rfl, List.cons_append]

theorem mem_runesOf {c : Char} (hc : c.toNat < 0x80) {cs : List Char} : .char c ∈ runesOf cs ↔ c ∈ cs := by
  constructor
  · intro hmem
    have hbytes : c ∈ (runesOf cs).flatMap Rune.bytes :=
      List.mem_flatMap.mpr ⟨_, hmem, by simp [Rune.bytes, utf8, hc]⟩
    rwa [flatMap_bytes_runesOf] at hbytes
  · intro hmem
    obtain ⟨xs, ys, rfl⟩ := List.append_of_mem hmem
    rw [runesOf_append_cons hc]
    simp

theorem eq_of_mem_utf8 {c u : Char} (hc : c.toNat < 0x80) (h : c ∈ utf8 u) : c = u := by
  have hread : runesOf (utf8 u) = [.char u] := (congrArg runesOf (List.append_nil _).symm).trans (runesOf_utf8 u [])
  have hmem := (mem_runesOf hc).mpr h
  rw [hread] at hmem
  exact Rune.char.inj (List.mem_singleton.mp hmem)

theorem bytes_ne_nil (r : Rune) : r.bytes ≠ [] := by
  cases r with
  | stray b => exact List.cons_ne_nil _ _
  | char c =>
      obtain ⟨b, bs, hutf8, -⟩ := utf8_shape c
      rw [Rune.bytes, hutf8]
      exact List.cons_ne_nil _ _

theorem ofRunes_runes (s : String) : ofRunes (runes s) = s := by
  rw [ofRunes, runes, flatMap_bytes_runesOf, String.ofList_toList]

theorem runes_inj {s t : String} (h : runes s = runes t) : s = t := by rw [← ofRunes_runes s, h, ofRunes_runes]

theorem runes_ne_nil {s : String} (h : s ≠ "") : runes s ≠ [] := fun hnil => h (runes_inj hnil)

theorem runes_append_cons {c : Char} (hc : c.toNat < 0x80) {s : String} {xs ys : List Char} (h : s.toList = xs ++ c :: ys) :
    runes s = runesOf xs ++ .char c :: runesOf ys := by rw [runes, h, runesOf_append_cons hc]

theorem runes_trim (s : String) : runes (trim s) = trimmed s := by
  rw [trim_eq, runes_ofRunes_of_infix (isInfix_trimmed s)]

theorem isInfix_trim (s : String) : (trim s).toList <:+: s.toList := by
  obtain ⟨front, back, h⟩ := isInfix_trimmed s
  have hbytes : s.toList = (runes s).flatMap Rune.bytes := (flatMap_bytes_runesOf _).symm
  rw [trim_eq, ofRunes, String.toList_ofList, hbytes, ← h, List.flatMap_append, List.flatMap_append]
  exact List.infix_append _ _ _

theorem trim_trimRight (s : String) : trim (trimRight s) = trim s := by
  have hrunes : runes (trimRight s) = (runes s).rdropWhile Rune.isSpace :=
    runes_ofRunes_of_infix (List.rdropWhile_prefix _ _).isInfix
  rw [trim_eq, trim_eq, trimmed, trimmed, hrunes, dropWhile_rdropWhile, List.rdropWhile_idempotent]

-- Between two characters that are no white space, nothing is taken away.
theorem trim_between {c d : Char} (hc : c.toNat < 0x80) (hd : d.toNat < 0x80) (hcs : isSpace c = false) (hds : isSpace d = false)
    {s : String} {xs ys zs : List Char} (h : s.toList = xs ++ c :: (ys ++ d :: zs)) :
    (trim s).toList = (trimLeft (String.ofList xs)).toList ++ c :: (ys ++ d :: (trimRight (String.ofList zs)).toList) := by
  have hone {c : Char} (hc : c.toNat < 0x80) : (Rune.char c).bytes = [c] := if_pos hc
  have hleft : (Rune.char c).isSpace = false := hcs
  have hright : (Rune.char d).isSpace = false := hds
  rw [trim_eq, trimmed, runes_append_cons hc h, runesOf_append_cons hd, dropWhile_append_cons hleft, ← List.cons_append,
    ← List.append_assoc, rdropWhile_append_cons hright, trimLeft, trimRight, ofRunes, ofRunes, ofRunes]
  simp [runes, hone hc, hone hd, flatMap_bytes_runesOf, List.rdropWhile]

section Words

-- Every byte that belongs to no character becomes the replacement character.
def mend (r : Rune) : Rune := .char r.value

def mended (s : String) : String := ofRunes ((runes s).map mend)

@[simp] theorem value_mend (r : Rune) : (mend r).value = r.value := rfl

theorem isSpace_mend (r : Rune) : (mend r).isSpace = r.isSpace := by
  cases r with
  | char c => rfl
  | stray b => exact show isSpace replacement = false by decide

theorem value_ne {c : Char} (hc : c.toNat < 0x80) {cs : List Char} (h : c ∉ cs) {r : Rune} (hr : r ∈ runesOf cs) :
    r.value ≠ c := by
  rintro rfl
  cases r with
  | char c => exact h ((mem_runesOf hc).mp hr)
  | stray b => exact absurd hc (show ¬replacement.toNat < 0x80 by decide)

-- Texts that are UTF-8 throughout.
def IsValid (s : String) : Prop := ∀ r ∈ runes s, mend r = r

theorem mended_of_isValid {s : String} (h : IsValid s) : mended s = s := by
  have hmap : (runes s).map mend = runes s := (List.map_congr_left h).trans (List.map_id _)
  rw [mended, hmap, ofRunes_runes]

theorem runes_ofRunes_of_mend {rs : List Rune} (h : ∀ r ∈ rs, mend r = r) : runes (ofRunes rs) = rs := by
  have hmap : rs = (rs.map Rune.value).map .char := by
    rw [List.map_map]
    exact ((List.map_congr_left h).trans (List.map_id _)).symm
  have hbytes : ofRunes ((rs.map Rune.value).map .char) = ofUnicode (String.ofList (rs.map Rune.value)) := by
    rw [ofRunes, ofUnicode, String.toList_ofList, List.flatMap_map]
    rfl
  rw [hmap, hbytes, runes_ofUnicode, String.toList_ofList]

theorem mend_mend {rs : List Rune} : ∀ r ∈ rs.map mend, mend r = r := by
  intro r hr
  obtain ⟨r, -, rfl⟩ := List.mem_map.mp hr
  rfl

theorem runes_mended (s : String) : runes (mended s) = (runes s).map mend := runes_ofRunes_of_mend mend_mend

theorem isValid_mended (s : String) : IsValid (mended s) := by
  rw [IsValid, runes_mended]
  exact mend_mend

theorem mended_trim (s : String) : mended (trim s) = trim (mended s) := by
  have hspace : Rune.isSpace ∘ mend = Rune.isSpace := funext isSpace_mend
  refine runes_inj ?_
  rw [runes_mended, runes_trim, runes_trim, trimmed, trimmed, runes_mended, List.dropWhile_map, hspace, List.rdropWhile,
    List.rdropWhile, ← List.map_reverse, List.dropWhile_map, hspace, List.map_reverse]

variable {P : Rune → Prop} {rs cur : List Rune} {words : List (List Rune)}

-- Fields.

theorem of_mem_fieldRunes (hcur : ∀ r ∈ cur, P r) (hrs : ∀ r ∈ rs, r.isSpace = false → P r) :
    ∀ w ∈ fieldRunes cur rs, w ≠ [] ∧ ∀ r ∈ w, P r := by
  have hfinish {cur : List Rune} (hcur : ∀ r ∈ cur, P r) (hne : ¬cur.isEmpty = true) :
      cur.reverse ≠ [] ∧ ∀ r ∈ cur.reverse, P r := by simpa [List.isEmpty_iff] using And.intro hne hcur
  induction rs generalizing cur with
  | nil =>
      intro w hw
      rw [fieldRunes] at hw
      split at hw
      · cases hw
      · rename_i hne
        rw [List.mem_singleton.mp hw]
        exact hfinish hcur hne
  | cons r rs ih =>
      obtain ⟨hr, hrs⟩ := List.forall_mem_cons.mp hrs
      rw [fieldRunes]
      split
      · split
        · exact ih nofun hrs
        · rename_i hne
          exact List.forall_mem_cons.mpr ⟨hfinish hcur hne, ih nofun hrs⟩
      · rename_i hspace
        exact ih (List.forall_mem_cons.mpr ⟨hr (Bool.eq_false_iff.mpr hspace), hcur⟩) hrs

theorem fieldRunes_solid (h : ∀ r ∈ rs, r.isSpace = false) (cur : List Rune) :
    fieldRunes cur rs = if cur.reverse ++ rs = [] then [] else [cur.reverse ++ rs] := by
  induction rs generalizing cur with
  | nil => simp [fieldRunes]
  | cons r rs ih =>
      obtain ⟨hr, hrs⟩ := List.forall_mem_cons.mp h
      rw [fieldRunes, hr, if_neg Bool.false_ne_true, ih hrs]
      simp

theorem fieldRunes_spaces (h : ∀ r ∈ rs, r.isSpace = true) (cur : List Rune) :
    fieldRunes cur rs = fieldRunes cur [] := by
  induction rs generalizing cur with
  | nil => rfl
  | cons r rs ih =>
      obtain ⟨hr, hrs⟩ := List.forall_mem_cons.mp h
      have hend : fieldRunes [] rs = [] := ih hrs []
      have hnil : fieldRunes cur [] = if cur.isEmpty then [] else [cur.reverse] := rfl
      rw [hnil, fieldRunes, if_pos hr, hend]

theorem fieldRunes_append_spaces {spaces : List Rune} (h : ∀ r ∈ spaces, r.isSpace = true) (cur rs : List Rune) :
    fieldRunes cur (rs ++ spaces) = fieldRunes cur rs := by
  induction rs generalizing cur with
  | nil => exact fieldRunes_spaces h cur
  | cons r rs ih => rw [List.cons_append, fieldRunes, fieldRunes, ih, ih]

theorem fieldRunes_dropWhile (rs : List Rune) : fieldRunes [] (rs.dropWhile Rune.isSpace) = fieldRunes [] rs := by
  induction rs with
  | nil => rfl
  | cons r rs ih =>
      cases hr : r.isSpace with
      | true => rw [List.dropWhile_cons_of_pos hr, ih, fieldRunes, if_pos hr, List.isEmpty_nil, if_pos rfl]
      | false => rw [List.dropWhile_cons_of_neg (by simp [hr])]

theorem fields_trim (s : String) : fields (trim s) = fields s := by
  have hright (rs cur : List Rune) : fieldRunes cur (rs.rdropWhile Rune.isSpace) = fieldRunes cur rs := by
    have hspaces : ∀ r ∈ rs.rtakeWhile Rune.isSpace, r.isSpace = true := fun _ => List.mem_rtakeWhile_imp
    rw [← fieldRunes_append_spaces hspaces cur, List.rdropWhile_append_rtakeWhile]
  rw [fields, fields, runes_trim, trimmed, hright, fieldRunes_dropWhile]

-- Words between quotes.

theorem mem_pushWord {w : List Rune} (h : w ∈ pushWord cur words) : w ≠ [] ∧ w = cur.reverse ∨ w ∈ words := by
  rw [pushWord] at h
  split at h
  · exact .inr h
  · rename_i hne
    rcases List.mem_cons.mp h with rfl | h
    · exact .inl ⟨by simpa using hne, rfl⟩
    · exact .inr h

theorem of_splitRunes {state : SplitState} {ws : List (List Rune)} (h : splitRunes state cur words rs = .ok ws)
    (hrs : ∀ r ∈ rs, P (mend r)) (hback : P (.char '\\')) (hcur : ∀ r ∈ cur, P r)
    (hwords : ∀ w ∈ words, w ≠ [] ∧ ∀ r ∈ w, P r) : ∀ w ∈ ws, w ≠ [] ∧ ∀ r ∈ w, P r := by
  have hpush {cur : List Rune} {words : List (List Rune)} (hcur : ∀ r ∈ cur, P r)
      (hwords : ∀ w ∈ words, w ≠ [] ∧ ∀ r ∈ w, P r) : ∀ w ∈ pushWord cur words, w ≠ [] ∧ ∀ r ∈ w, P r := by
    intro w hw
    rcases mem_pushWord hw with ⟨hne, rfl⟩ | hw
    · exact ⟨hne, fun r hr => hcur r (List.mem_reverse.mp hr)⟩
    · exact hwords w hw
  induction rs generalizing state cur words with
  | nil =>
      cases state
      case plain =>
        cases h
        intro w hw
        exact hpush hcur hwords w (List.mem_reverse.mp hw)
      all_goals cases h
  | cons r rs ih =>
      obtain ⟨hr, hrs⟩ := List.forall_mem_cons.mp hrs
      have htaken : ∀ r' ∈ mend r :: cur, P r' := List.forall_mem_cons.mpr ⟨hr, hcur⟩
      cases state with
      | plain =>
          rw [splitRunes] at h
          split at h
          · exact ih h hrs nofun (hpush hcur hwords)
          split at h
          · exact ih h hrs hcur hwords
          split at h
          · exact ih h hrs hcur hwords
          split at h
          · exact ih h hrs hcur hwords
          · exact ih h hrs htaken hwords
      | single =>
          rw [splitRunes] at h
          split at h
          · exact ih h hrs hcur hwords
          · exact ih h hrs htaken hwords
      | double =>
          rw [splitRunes] at h
          split at h
          · exact ih h hrs hcur hwords
          split at h
          · exact ih h hrs hcur hwords
          · exact ih h hrs htaken hwords
      | escape back =>
          cases back with
          | false =>
              rw [splitRunes] at h
              exact ih h hrs htaken hwords
          | true =>
              rw [splitRunes] at h
              split at h
              · exact ih h hrs htaken hwords
              · exact ih h hrs (List.forall_mem_cons.mpr ⟨hr, List.forall_mem_cons.mpr ⟨hback, hcur⟩⟩) hwords

-- Without quotes and backslashes, words are fields.
theorem splitRunes_bare (h : ∀ r ∈ rs, r.value ≠ '\'' ∧ r.value ≠ '"' ∧ r.value ≠ '\\') (cur : List Rune)
    (words : List (List Rune)) :
    splitRunes .plain cur words rs = .ok (words.reverse ++ fieldRunes cur (rs.map mend)) := by
  induction rs generalizing cur words with
  | nil =>
      rw [splitRunes, pushWord, List.map_nil, fieldRunes]
      split <;> simp
  | cons r rs ih =>
      obtain ⟨⟨hsingle, hdouble, hback⟩, hrs⟩ := List.forall_mem_cons.mp h
      rw [splitRunes, List.map_cons, fieldRunes, isSpace_mend]
      split
      · rw [ih hrs, pushWord]
        split <;> simp
      · rw [if_neg (by simpa using hsingle), if_neg (by simpa using hdouble), if_neg (by simpa using hback), ih hrs]
        rfl

theorem splitRunes_single (h : ∀ r ∈ rs, r.value ≠ '\'') (cur : List Rune) (words : List (List Rune)) (rest : List Rune) :
    splitRunes .single cur words (rs ++ rest) = splitRunes .single ((rs.map mend).reverse ++ cur) words rest := by
  induction rs generalizing cur with
  | nil => rfl
  | cons r rs ih =>
      obtain ⟨hr, hrs⟩ := List.forall_mem_cons.mp h
      rw [List.cons_append, splitRunes, if_neg (by simpa using hr), ih hrs]
      simp [mend]

-- What stands for a quote between single quotes.
def escapedQuote : List Char := ['\'', '\\', '\'', '\'']

-- What is between single quotes is read back.
theorem splitRunes_escaped (cs : List Char) (cur : List Rune) (words : List (List Rune)) :
    splitRunes .single cur words (runesOf ((cs.flatMap fun x => if x == '\'' then escapedQuote else [x]) ++ ['\''])) =
      .ok (pushWord (((runesOf cs).map mend).reverse ++ cur) words).reverse := by
  have hsame {cs : List Char} (h : '\'' ∉ cs) : (cs.flatMap fun x => if x == '\'' then escapedQuote else [x]) = cs := by
    have hpieces : ∀ x ∈ cs, (if x == '\'' then escapedQuote else [x]) = [x] := by
      intro x hx
      rw [if_neg]
      rw [beq_iff_eq]
      rintro rfl
      exact h hx
    rw [List.flatMap_congr hpieces]
    simp
  induction hn : cs.length using Nat.strong_induction_on generalizing cs cur with
  | _ n ih =>
      subst hn
      by_cases hquote : '\'' ∈ cs
      · obtain ⟨xs, ys, rfl, hxs⟩ := List.eq_append_cons_of_mem hquote
        have hshorter : ys.length < (xs ++ '\'' :: ys).length := by
          rw [List.length_append, List.length_cons]
          omega
        have hbytes : ((xs ++ '\'' :: ys).flatMap fun x => if x == '\'' then escapedQuote else [x]) ++ ['\''] =
            xs ++ '\'' :: '\\' :: '\'' :: '\'' :: ((ys.flatMap fun x => if x == '\'' then escapedQuote else [x]) ++ ['\'']) := by
          rw [List.flatMap_append, List.flatMap_cons, hsame hxs]
          simp [escapedQuote]
        rw [hbytes, runesOf_append_cons (by decide), splitRunes_single (fun r => value_ne (by decide) hxs),
          runesOf_cons (by decide), runesOf_cons (by decide), runesOf_cons (by decide)]
        refine (ih _ hshorter _ (.char '\'' :: (((runesOf xs).map mend).reverse ++ cur)) rfl).trans ?_
        rw [runesOf_append_cons (by decide)]
        simp [mend, Rune.value]
      · rw [hsame hquote, runesOf_append_cons (by decide), splitRunes_single (fun r => value_ne (by decide) hquote)]
        rfl

theorem shellWords_quoted {s : String} (hs : s ≠ "") :
    shellWords ("'" ++ replaceChar '\'' escapedQuote s ++ "'") = .ok [mended s] := by
  have hlist : ("'" ++ replaceChar '\'' escapedQuote s ++ "'").toList =
      '\'' :: ((s.toList.flatMap fun x => if x == '\'' then escapedQuote else [x]) ++ ['\'']) := by
    simp [replaceChar]
  have hrunes : runesOf s.toList ≠ [] := runes_ne_nil hs
  have hne : ((runesOf s.toList).map mend).reverse ++ [] ≠ [] := by simpa using hrunes
  rw [shellWords, runes, hlist, runesOf_cons (by decide)]
  refine (congrArg (Except.map _) (splitRunes_escaped s.toList [] [])).trans ?_
  rw [pushWord, if_neg (by simpa using hne)]
  simp [Except.map, mended, runes]

theorem shellWords_bare {s : String} (h : ∀ c ∈ s.toList, c ≠ '\'' ∧ c ≠ '"' ∧ c ≠ '\\') :
    shellWords s = .ok (fields (mended s)) := by
  have hvalues : ∀ r ∈ runes s, r.value ≠ '\'' ∧ r.value ≠ '"' ∧ r.value ≠ '\\' := fun r hr =>
    ⟨value_ne (by decide) (fun hmem => (h _ hmem).1 rfl) hr, value_ne (by decide) (fun hmem => (h _ hmem).2.1 rfl) hr,
      value_ne (by decide) (fun hmem => (h _ hmem).2.2 rfl) hr⟩
  rw [shellWords, splitRunes_bare hvalues, fields, runes_mended]
  rfl

end Words

theorem cut?_eq_some {c : Char} {s front back : String} :
    cut? c s = some (front, back) ↔ s.toList = front.toList ++ c :: back.toList ∧ c ∉ front.toList := by
  have hcut (xs ys : List Char) (hxs : c ∉ xs) : (xs ++ c :: ys).takeWhile (· != c) = xs := by
    rw [List.takeWhile_append_of_pos fun x hx => by simpa using fun h : x = c => hxs (h ▸ hx)]
    simp
  by_cases hmem : c ∈ s.toList
  · obtain ⟨xs, ys, hs, hxs⟩ := List.eq_append_cons_of_mem hmem
    have hleft : cut? c s = some (String.ofList xs, String.ofList ys) := by
      rw [cut?, hs]
      simp only [hcut xs ys hxs, List.drop_left]
    rw [hleft, hs]
    constructor
    · intro h
      cases h
      simpa using hxs
    · rintro ⟨h, hfront⟩
      have hsame : xs = front.toList := by
        rw [← hcut xs ys hxs, h, hcut _ _ hfront]
      obtain ⟨-, hback⟩ := List.append_inj h (congrArg List.length hsame)
      rw [hsame, (List.cons.inj hback).2, String.ofList_toList, String.ofList_toList]
  · have hall : s.toList.takeWhile (· != c) = s.toList :=
      List.takeWhile_eq_self_iff.mpr fun x hx => by simpa using fun h : x = c => hmem (h ▸ hx)
    have hnone : cut? c s = none := by
      rw [cut?, hall]
      simp
    rw [hnone]
    refine ⟨nofun, fun ⟨h, _⟩ => absurd ?_ hmem⟩
    rw [h]
    simp

end Text
end ShellScript

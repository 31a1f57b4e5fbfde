import Mathlib.Data.List.Forall2
import Mathlib.Data.List.Nodup
import ShellScript.Machine.FileSystem
import ShellScript.Pattern
import ShellScript.Proofs.Text.Order
import ShellScript.Proofs.Text.Paths
import ShellScript.Proofs.Text.Characters

-- Patterns of file names: what a component of a pattern matches, what quoting does, and which files of a file system a
-- search finds.
namespace ShellScript
namespace Machine

open ShellScript.Path (IsName rooted stem)

namespace Glob

-- A component of a pattern matches a name.
def Matches (c n : String) : Prop := ∃ items, readItems (c.length + 1) c.toList = some items ∧ matchItems items n.toList = true

instance (c n : String) : Decidable (Matches c n) :=
  decidable_of_iff ((readItems (c.length + 1) c.toList).any fun items => matchItems items n.toList)
    (by simp only [Matches, Option.any_eq_true])

-- A character with a meaning in the pattern of a component.
def isSpecial (c : Char) : Bool := c == '*' || c == '?' || c == '[' || c == '\\'

-- A component that has no such character.
def IsLiteral (c : String) : Prop := ∀ x ∈ c.toList, isSpecial x = false

instance (c : String) : Decidable (IsLiteral c) :=
  decidable_of_iff (c.toList.all fun x => !isSpecial x) (by simp [IsLiteral])

theorem matchItems_chars (cs : List Char) (items : List Item) (ds : List Char) :
    matchItems (cs.map .char ++ items) ds = true ↔ ∃ es, ds = cs ++ es ∧ matchItems items es = true := by
  induction cs generalizing ds with
  | nil => simp
  | cons c cs ih =>
      cases ds with
      | nil => simp [matchItems]
      | cons d ds =>
          rw [List.map_cons, List.cons_append, matchItems, Bool.and_eq_true, beq_iff_eq, ih]
          constructor
          · rintro ⟨rfl, es, rfl, h⟩
            exact ⟨es, rfl, h⟩
          · rintro ⟨es, h, hes⟩
            rw [List.cons_append, List.cons.injEq] at h
            exact ⟨h.1.symm, es, h.2, hes⟩

theorem readItems_cons {c : Char} (hc : isSpecial c = false) (n : Nat) (cs : List Char) :
    readItems (n + 1) (c :: cs) = (readItems n cs).map (.char c :: ·) := by
  simp only [isSpecial, Bool.or_eq_false_iff, beq_eq_false_iff_ne] at hc
  simp [readItems, hc]

-- Text without such characters is read as it is.
theorem readItems_append {cs : List Char} (hcs : ∀ c ∈ cs, isSpecial c = false) (n : Nat) (rest : List Char) :
    readItems (n + cs.length) (cs ++ rest) = (readItems n rest).map (cs.map .char ++ ·) := by
  induction cs with
  | nil => simp
  | cons c cs ih =>
      obtain ⟨hc, hcs⟩ := List.forall_mem_cons.mp hcs
      rw [List.length_cons, ← Nat.add_assoc, List.cons_append, readItems_cons hc, ih hcs, Option.map_map]
      rfl

-- How much is read does not matter as long as it is enough.

theorem length_uncons {cs rest : List Char} {r : Text.Rune} (h : Text.uncons? cs = some (r, rest)) :
    rest.length < cs.length := by
  cases cs with
  | nil => simp [Text.uncons?] at h
  | cons c cs =>
      simp only [Text.uncons?, Option.some.injEq, Prod.mk.injEq] at h
      rw [← h.2, List.length_drop, List.length_cons]
      omega

theorem length_setChar {cs rest : List Char} {v : Nat} (h : setChar? cs = some (v, rest)) : rest.length < cs.length := by
  cases cs with
  | nil => simp [setChar?] at h
  | cons c cs =>
      have hfront : (if c == '\\' then cs else c :: cs).length ≤ (c :: cs).length := by
        split <;> simp
      rw [setChar?] at h
      split at h
      · cases h
      · dsimp only at h
        split at h
        · rename_i r more huncons
          have hmore := length_uncons huncons
          split at h
          · cases h
          · cases h
            omega
        · cases h

theorem length_setRanges {n : Nat} {acc ranges : List (Nat × Nat)} {cs rest : List Char}
    (h : setRanges n acc cs = some (ranges, rest)) : rest.length ≤ cs.length := by
  induction n generalizing acc cs with
  | zero => simp [setRanges] at h
  | succ n ih =>
      unfold setRanges at h
      split at h
      · cases h
        simp
      · split at h
        · cases h
        · rename_i low more hlow
          have hlow' := length_setChar hlow
          split at h
          · rename_i high more' hhigh
            have hhigh' := length_setChar hhigh
            have hrest := ih h
            simp only [List.length_cons] at hlow'
            omega
          · cases h
        · rename_i low more hother hlow
          have hlow' := length_setChar hlow
          have hrest := ih h
          omega

theorem readItems_fuel {n m : Nat} {cs : List Char} (hn : cs.length < n) (hm : cs.length < m) :
    readItems n cs = readItems m cs := by
  induction n generalizing m cs with
  | zero => omega
  | succ n ih =>
      obtain ⟨m, rfl⟩ : ∃ k, m = k + 1 := ⟨m - 1, by omega⟩
      cases cs with
      | nil => rfl
      | cons c cs =>
          simp only [List.length_cons] at hn hm
          have hsame : readItems n cs = readItems m cs := ih (by omega) (by omega)
          unfold readItems
          split
          · rw [hsame]
          · rw [hsame]
          · cases cs with
            | nil => rfl
            | cons d cs =>
                simp only [List.length_cons] at hn hm
                have hrest : readItems n cs = readItems m cs := ih (by omega) (by omega)
                simp only [hrest]
          · dsimp only
            split
            · rfl
            · rename_i ranges rest hranges
              have hrest : rest.length ≤ cs.length := (length_setRanges hranges).trans (by split <;> simp)
              rw [ih (m := m) (by omega) (by omega)]
          · rw [hsame]

-- Such a component matches only itself.
theorem matches_literal {c : String} (hc : IsLiteral c) (n : String) : Matches c n ↔ n = c := by
  have hread : readItems (c.length + 1) c.toList = some (c.toList.map .char) := by
    have hall := readItems_append hc 1 []
    rw [List.append_nil, Nat.add_comm, String.length_toList] at hall
    simpa [readItems] using hall
  have hmatch := matchItems_chars c.toList [] n.toList
  simp only [List.append_nil, matchItems, List.isEmpty_iff] at hmatch
  simp only [Matches, hread, Option.some.injEq, exists_eq_left', hmatch]
  simp [String.toList_inj]

theorem matches_literals {cs ns : List String} (hcs : ∀ c ∈ cs, IsLiteral c) :
    List.Forall₂ Matches cs ns ↔ ns = cs := by
  induction cs generalizing ns with
  | nil => simp
  | cons c cs ih =>
      obtain ⟨hc, hcs⟩ := List.forall_mem_cons.mp hcs
      cases ns with
      | nil => simp
      | cons n ns => simp [matches_literal hc, ih hcs]

-- A name begins like a pattern that begins with an ordinary character.
theorem matches_first {c n : String} {x : Char} {xs : List Char} (hc : c.toList = x :: xs) (hx : isSpecial x = false)
    (h : Matches c n) : ∃ ys, n.toList = x :: ys := by
  obtain ⟨items, hread, hmatch⟩ := h
  rw [hc, readItems_cons hx] at hread
  obtain ⟨items, -, rfl⟩ := Option.map_eq_some_iff.mp hread
  obtain ⟨ys, hys, -⟩ := (matchItems_chars [x] items n.toList).mp hmatch
  exact ⟨ys, hys⟩

-- Quoted text.

theorem readItems_escaped (n : Nat) (c : Char) (cs : List Char) :
    readItems (n + 1) ('\\' :: c :: cs) = (readItems n cs).map (.char c :: ·) := by
  simp [readItems]

theorem toNat_special {c : Char} (hc : isSpecial c = true) : c.toNat < 0x80 := by
  simp only [isSpecial, Bool.or_eq_true, beq_iff_eq] at hc
  rcases hc with ((rfl | rfl) | rfl) | rfl <;> decide

theorem toNat_utf8 {c b : Char} (hc : 0x80 ≤ c.toNat) (hb : b ∈ Text.utf8 c) : 0x80 ≤ b.toNat := by
  have hmax : c.toNat < 0x110000 := by
    have hvalid : c.toNat < 0xD800 ∨ 0xDFFF < c.toNat ∧ c.toNat < 0x110000 := c.valid
    omega
  have hofNat {n : Nat} (hn : n < 0xD800) : (Char.ofNat n).toNat = n := Text.toNat_ofNat (.inl hn)
  unfold Text.utf8 at hb
  rw [if_neg (by omega)] at hb
  split at hb
  · simp only [List.mem_cons, List.not_mem_nil, or_false] at hb
    rcases hb with rfl | rfl <;> rw [hofNat (by omega)] <;> omega
  split at hb
  · simp only [List.mem_cons, List.not_mem_nil, or_false] at hb
    rcases hb with rfl | rfl | rfl <;> rw [hofNat (by omega)] <;> omega
  · simp only [List.mem_cons, List.not_mem_nil, or_false] at hb
    rcases hb with rfl | rfl | rfl | rfl <;> rw [hofNat (by omega)] <;> omega

-- Only special characters get a backslash, and no byte of another one is special.
def quoteRune (r : Text.Rune) : List Char := if isSpecial r.value then ['\\', r.value] else Text.utf8 r.value

theorem readItems_quoteRune (c : Char) {n : Nat} {rest : List Char} (hn : (quoteRune (.char c) ++ rest).length < n) :
    readItems n (quoteRune (.char c) ++ rest) =
      (readItems n rest).map ((Text.utf8 c).map .char ++ ·) := by
  have hvalue : Text.Rune.value (.char c) = c := rfl
  rw [quoteRune, hvalue] at hn ⊢
  split at hn
  · rename_i hc
    have hutf8 : Text.utf8 c = [c] := if_pos (toNat_special hc)
    simp only [List.length_append, List.length_cons, List.length_nil] at hn
    obtain ⟨n, rfl⟩ : ∃ k, n = k + 1 := ⟨n - 1, by omega⟩
    rw [if_pos hc, hutf8, List.cons_append, List.cons_append, List.nil_append, readItems_escaped,
      readItems_fuel (n := n) (m := n + 1) (by omega) (by omega)]
    rfl
  · rename_i hc
    have hbytes : ∀ b ∈ Text.utf8 c, isSpecial b = false := by
      intro b hb
      rcases Nat.lt_or_ge c.toNat 0x80 with hlow | hhigh
      · have hutf8 : Text.utf8 c = [c] := if_pos hlow
        rw [hutf8, List.mem_singleton] at hb
        simpa [hb] using hc
      · exact Bool.eq_false_iff.mpr fun hb' => absurd (toNat_utf8 hhigh hb) (Nat.not_le.mpr (toNat_special hb'))
    rw [List.length_append] at hn
    obtain ⟨k, rfl⟩ : ∃ k, n = k + (Text.utf8 c).length := ⟨n - (Text.utf8 c).length, by omega⟩
    rw [if_neg hc, readItems_append hbytes, readItems_fuel (n := k) (m := k + (Text.utf8 c).length) (by omega) (by omega)]

theorem readItems_quoteRunes {rs : List Text.Rune} (hrs : ∀ r ∈ rs, ∃ c, r = .char c) {n : Nat} {rest : List Char}
    (hn : (rs.flatMap quoteRune ++ rest).length < n) :
    readItems n (rs.flatMap quoteRune ++ rest) =
      (readItems n rest).map ((rs.flatMap Text.Rune.bytes).map .char ++ ·) := by
  induction rs with
  | nil => simp
  | cons r rs ih =>
      obtain ⟨⟨c, rfl⟩, hrs'⟩ := List.forall_mem_cons.mp hrs
      rw [List.flatMap_cons, List.append_assoc] at hn ⊢
      have hrest : (rs.flatMap quoteRune ++ rest).length < n := by
        rw [List.length_append] at hn
        omega
      rw [readItems_quoteRune c hn, ih hrs' hrest, Option.map_map]
      rw [List.flatMap_cons, List.map_append]
      exact congrFun (congrArg _ (funext fun items => (List.append_assoc _ _ items).symm)) _

-- Quoted text stands for itself.
theorem matches_quoted {t : String} (ht : ∀ r ∈ Text.runes t, ∃ c, r = .char c) (c n : String) :
    Matches (Pattern.quoteMeta t ++ c) n ↔ ∃ m, n = t ++ m ∧ Matches c m := by
  have hread : readItems ((Pattern.quoteMeta t ++ c).length + 1) (Pattern.quoteMeta t ++ c).toList =
      (readItems (c.length + 1) c.toList).map (t.toList.map .char ++ ·) := by
    have hc : c.toList.length = c.length := String.length_toList
    rw [String.toList_append, ← String.length_toList, String.toList_append]
    by_cases hspecial : t.toList.any isSpecial
    · have hquote : (Pattern.quoteMeta t).toList = (Text.runes t).flatMap quoteRune := by
        rw [Pattern.quoteMeta]
        exact (congrArg _ (if_pos hspecial)).trans String.toList_ofList
      have hbytes : (Text.runes t).flatMap Text.Rune.bytes = t.toList := Text.flatMap_bytes_runesOf t.toList
      rw [hquote, readItems_quoteRunes ht (Nat.lt_succ_self _), hbytes]
      refine congrArg _ (readItems_fuel ?_ (hc ▸ Nat.lt_succ_self _))
      rw [List.length_append]
      omega
    · have hquote : Pattern.quoteMeta t = t := if_neg hspecial
      have hplain : ∀ x ∈ t.toList, isSpecial x = false := by simpa using hspecial
      have hlength : (t.toList ++ c.toList).length + 1 = c.length + 1 + t.toList.length := by
        rw [List.length_append, hc]
        omega
      rw [hquote, hlength, readItems_append hplain]
  constructor
  · rintro ⟨items, hitems, hmatch⟩
    rw [hread] at hitems
    obtain ⟨items', hitems', rfl⟩ := Option.map_eq_some_iff.mp hitems
    obtain ⟨m, hm, hmatch'⟩ := (matchItems_chars t.toList items' n.toList).mp hmatch
    refine ⟨String.ofList m, String.toList_inj.mp (by simpa using hm), items', hitems', ?_⟩
    rwa [String.toList_ofList]
  · rintro ⟨m, rfl, items, hitems, hmatch⟩
    refine ⟨t.toList.map .char ++ items, by rw [hread, hitems]; rfl, ?_⟩
    exact (matchItems_chars t.toList items _).mpr ⟨m.toList, String.toList_append, hmatch⟩

end Glob

namespace FileSystem

-- The files have paths from the root, and what is above them is a directory.
structure Rooted (fs : FileSystem) : Prop where
  names : ∀ p ∈ fs.entries.map Prod.fst, ∃ ns, (∀ n ∈ ns, IsName n) ∧ p = rooted ns
  nodup : (fs.entries.map Prod.fst).Nodup
  parent : ∀ ns n, (∀ m ∈ ns ++ [n], IsName m) → rooted (ns ++ [n]) ∈ fs.entries.map Prod.fst → fs.isDir (rooted ns) = true

-- There is a file or a directory with the path.
def HasPath (fs : FileSystem) (ns : List String) : Prop := (∀ n ∈ ns, IsName n) ∧ (fs.find? (rooted ns)).isSome = true

instance (fs : FileSystem) (ns : List String) : Decidable (fs.HasPath ns) :=
  inferInstanceAs (Decidable ((∀ n ∈ ns, IsName n) ∧ (fs.find? (rooted ns)).isSome = true))

section

variable {fs : FileSystem} {ns : List String}

theorem normalize_rooted (h : ∀ n ∈ ns, IsName n) : normalize (rooted ns) = rooted ns := by
  have hne {p : String} (hp : Path.isAbs p = false) : rooted ns ≠ p := by
    rintro rfl
    exact Bool.noConfusion ((Path.isAbs_rooted ns).symm.trans hp)
  have hdot : rooted ns ≠ "." := hne (by decide)
  have hdots : rooted ns ≠ ".." := hne (by decide)
  simp [normalize, Path.clean_rooted h, hdot, hdots]

theorem hasPath_iff : fs.HasPath ns ↔ (∀ n ∈ ns, IsName n) ∧ rooted ns ∈ fs.entries.map Prod.fst := by
  refine and_congr_right fun h => ?_
  rw [find?, normalize_rooted h, List.lookup_isSome_iff, List.mem_map]
  refine exists_congr fun e => and_congr_right fun _ => ?_
  rw [beq_iff_eq, eq_comm]

-- Whether the files are so can be looked up path by path.
theorem rooted_of_components (h : ∀ p ∈ fs.entries.map Prod.fst, (∀ n ∈ Path.components p, IsName n) ∧
      p = rooted (Path.components p) ∧ fs.isDir (rooted (Path.components p).dropLast) = true)
    (hnodup : (fs.entries.map Prod.fst).Nodup) : fs.Rooted where
  names p hp := ⟨Path.components p, (h p hp).1, (h p hp).2.1⟩
  nodup := hnodup
  parent ns n hns hp := by
    have hdir := (h _ hp).2.2
    rwa [Path.components_rooted hns, List.dropLast_concat] at hdir

-- A directory is there if something in it is.
theorem HasPath.init (hfs : fs.Rooted) {n : String} (h : fs.HasPath (ns ++ [n])) :
    fs.HasPath ns ∧ fs.isDir (rooted ns) = true := by
  rw [hasPath_iff] at h
  have hdir := hfs.parent ns n h.1 h.2
  refine ⟨⟨fun m hm => h.1 m (List.mem_append_left _ hm), ?_⟩, hdir⟩
  rw [isDir] at hdir
  cases hentry : fs.find? (rooted ns) with
  | none => simp [hentry] at hdir
  | some e => rfl

-- What stands in a directory.
theorem inside_iff (hfs : fs.Rooted) (hns : ∀ n ∈ ns, IsName n) {p : String} (hp : p ∈ fs.entries.map Prod.fst) :
    (p != "/" && normalize (Path.dir p) == rooted ns) = true ↔ ∃ n, IsName n ∧ p = rooted (ns ++ [n]) := by
  obtain ⟨ms, hms, rfl⟩ := hfs.names p hp
  have hroot : ∀ ks n, (∀ k ∈ ks ++ [n], IsName k) → rooted (ks ++ [n]) ≠ rooted [] := by
    intro ks n hks h
    exact absurd (Path.rooted_inj hks (by simp) h) (by simp)
  rcases List.eq_nil_or_concat ms with rfl | ⟨ms, n, rfl⟩
  · refine iff_of_false (by simp [rooted, Text.joinWith]) ?_
    rintro ⟨n, hn, h⟩
    refine hroot ns n ?_ h.symm
    simpa [or_imp, forall_and] using ⟨hns, hn⟩
  · rw [List.concat_eq_append] at hms ⊢
    have hinit : ∀ m ∈ ms, IsName m := fun m hm => hms m (List.mem_append_left _ hm)
    have hn : IsName n := hms n (by simp)
    rw [Path.dir_rooted hinit hn, normalize_rooted hinit]
    rw [Bool.and_eq_true, bne_iff_ne, beq_iff_eq]
    constructor
    · rintro ⟨-, h⟩
      exact ⟨n, hn, by rw [Path.rooted_inj hinit hns h]⟩
    · rintro ⟨k, hk, h⟩
      have hks : ∀ m ∈ ns ++ [k], IsName m := by simpa [or_imp, forall_and] using ⟨hns, hk⟩
      have heq := Path.rooted_inj hms hks h
      exact ⟨hroot ms n hms, by rw [(List.append_inj' heq rfl).1]⟩

theorem list_perm (hns : ∀ n ∈ ns, IsName n) :
    (fs.list (rooted ns)).Perm ((fs.entries.filter fun e => e.1 != "/" && normalize (Path.dir e.1) == rooted ns).map
      fun e => Path.base e.1) := by
  rw [list, normalize_rooted hns]
  exact List.mergeSort_perm _ _

theorem mem_list (hfs : fs.Rooted) (hns : ∀ n ∈ ns, IsName n) {n : String} : n ∈ fs.list (rooted ns) ↔ fs.HasPath (ns ++ [n]) := by
  rw [(list_perm hns).mem_iff, hasPath_iff]
  simp only [List.mem_map, List.mem_filter]
  constructor
  · rintro ⟨e, ⟨he, hin⟩, rfl⟩
    obtain ⟨n, hn, hen⟩ := (inside_iff hfs hns (List.mem_map_of_mem he)).mp hin
    rw [hen, Path.base_rooted hn]
    refine ⟨by simpa [or_imp, forall_and] using ⟨hns, hn⟩, e, he, hen⟩
  · rintro ⟨hnames, e, he, hen⟩
    have hn : IsName n := hnames n (by simp)
    exact ⟨e, ⟨he, (inside_iff hfs hns (List.mem_map_of_mem he)).mpr ⟨n, hn, hen⟩⟩, by rw [hen, Path.base_rooted hn]⟩

theorem nodup_list (hfs : fs.Rooted) (hns : ∀ n ∈ ns, IsName n) : (fs.list (rooted ns)).Nodup := by
  rw [(list_perm hns).nodup_iff]
  have hkeys : fs.entries.Pairwise fun e e' => e.1 ≠ e'.1 := List.pairwise_map.mp hfs.nodup
  rw [List.Nodup, List.pairwise_map]
  refine (hkeys.filter _).imp_of_mem fun {e e'} he he' hne => ?_
  rw [List.mem_filter] at he he'
  obtain ⟨n, hn, hen⟩ := (inside_iff hfs hns (List.mem_map_of_mem he.1)).mp he.2
  obtain ⟨n', hn', hen'⟩ := (inside_iff hfs hns (List.mem_map_of_mem he'.1)).mp he'.2
  rw [hen, hen', Path.base_rooted hn, Path.base_rooted hn']
  rintro rfl
  exact hne (hen.trans hen'.symm)

end

end FileSystem

namespace Glob

variable {fs : FileSystem} {ns : List String}

-- The names in a directory that match.
def below (fs : FileSystem) (items : List Item) (dir : String) : List String :=
  if fs.isDir dir then ((fs.list dir).filter fun n => matchItems items n.toList).map fun n => Path.join [dir, n] else []

theorem inDir_of_some {c : String} {items : List Item} (h : readItems (c.length + 1) c.toList = some items) (dir : String) :
    inDir fs dir c = some (below fs items dir) := by
  rw [inDir, below, h]
  cases fs.isDir dir with
  | false => rfl
  | true => cases hnames : fs.list dir <;> rfl

theorem inDir_of_none {c : String} (h : readItems (c.length + 1) c.toList = none) (dir : String) :
    (inDir fs dir c).getD [] = [] := by
  rw [inDir, h]
  cases fs.isDir dir with
  | false => rfl
  | true => cases hnames : fs.list dir <;> rfl

theorem inDir_some_or_empty (c : String) :
    (∀ dir, (inDir fs dir c).isSome = true) ∨ ∀ dir, (inDir fs dir c).getD [] = [] := by
  cases hitems : readItems (c.length + 1) c.toList with
  | none => exact .inr (inDir_of_none hitems)
  | some items => exact .inl fun dir => by rw [inDir_of_some hitems]; rfl

theorem join_name (hns : ∀ n ∈ ns, IsName n) {n : String} (hn : IsName n) :
    Path.join [rooted ns, n] = rooted (ns ++ [n]) := by
  have hjoin : Path.join [rooted ns, Text.joinWith "/" [n]] = rooted (ns ++ [n]) :=
    Path.join_rooted hns (by simpa using hn) (by simp)
  simpa [Text.joinWith] using hjoin

theorem mem_inDir (hfs : fs.Rooted) (hns : ∀ n ∈ ns, IsName n) (c q : String) :
    q ∈ (inDir fs (rooted ns) c).getD [] ↔ ∃ n, q = rooted (ns ++ [n]) ∧ fs.HasPath (ns ++ [n]) ∧ Matches c n := by
  cases hitems : readItems (c.length + 1) c.toList with
  | none => simp [inDir_of_none hitems, Matches, hitems]
  | some items =>
      have hmatches : ∀ n, Matches c n ↔ matchItems items n.toList = true := by simp [Matches, hitems]
      rw [inDir_of_some hitems, Option.getD_some, below]
      split
      · simp only [List.mem_map, List.mem_filter, FileSystem.mem_list hfs hns, hmatches]
        refine exists_congr fun n => ⟨?_, ?_⟩
        · rintro ⟨⟨hpath, hmatch⟩, rfl⟩
          exact ⟨join_name hns (hpath.1 n (by simp)), hpath, hmatch⟩
        · rintro ⟨rfl, hpath, hmatch⟩
          exact ⟨⟨hpath, hmatch⟩, join_name hns (hpath.1 n (by simp))⟩
      · rename_i hdir
        refine iff_of_false List.not_mem_nil ?_
        rintro ⟨n, -, hpath, -⟩
        exact hdir (hpath.init hfs).2

theorem nodup_inDir (hfs : fs.Rooted) (hns : ∀ n ∈ ns, IsName n) (c : String) : ((inDir fs (rooted ns) c).getD []).Nodup := by
  cases hitems : readItems (c.length + 1) c.toList with
  | none => simp [inDir_of_none hitems]
  | some items =>
      rw [inDir_of_some hitems, Option.getD_some, below]
      split
      · refine List.Nodup.map_on (fun n hn m hm h => ?_) ((FileSystem.nodup_list hfs hns).filter _)
        have hn' := (FileSystem.mem_list hfs hns).mp (List.mem_filter.mp hn).1
        have hm' := (FileSystem.mem_list hfs hns).mp (List.mem_filter.mp hm).1
        rw [join_name hns (hn'.1 n (by simp)), join_name hns (hm'.1 m (by simp))] at h
        simpa using Path.rooted_inj hn'.1 hm'.1 h
      · exact List.nodup_nil

-- Several searches at once, where either none of them fails or none of them finds anything.
theorem getD_mapM {α β : Type} {g : α → Option (List β)} (l : List α)
    (h : (∀ a, (g a).isSome = true) ∨ ∀ a, (g a).getD [] = []) :
    ((l.mapM g).map List.flatten).getD [] = l.flatMap fun a => (g a).getD [] := by
  rcases h with h | h
  · have hsome : l.mapM g = some (l.map fun a => (g a).getD []) := by
      induction l with
      | nil => rfl
      | cons a l ih =>
          obtain ⟨b, hb⟩ := Option.isSome_iff_exists.mp (h a)
          simp [List.mapM_cons, hb, ih]
    rw [hsome]
    rfl
  · have hnone : ∀ bs, l.mapM g = some bs → bs.flatten = [] := by
      induction l with
      | nil => simp
      | cons a l ih =>
          intro bs hbs
          rw [List.mapM_cons] at hbs
          obtain ⟨b, hb, hbs⟩ := Option.bind_eq_some_iff.mp hbs
          obtain ⟨more, hmore, hbs⟩ := Option.bind_eq_some_iff.mp hbs
          cases hbs
          have hempty := h a
          rw [hb, Option.getD_some] at hempty
          rw [List.flatten_cons, hempty, ih more hmore]
          rfl
    have hall : (l.flatMap fun a => (g a).getD []) = [] := List.flatMap_eq_nil_iff.mpr fun a _ => h a
    rw [hall]
    cases hl : l.mapM g with
    | none => rfl
    | some bs => exact hnone bs hl

theorem forall₂_concat {α β : Type} {R : α → β → Prop} {as : List α} {a : α} {bs : List β} :
    List.Forall₂ R (as ++ [a]) bs ↔ ∃ bs' b, bs = bs' ++ [b] ∧ List.Forall₂ R as bs' ∧ R a b := by
  rw [← List.forall₂_reverse_iff, List.reverse_append, List.reverse_singleton, List.singleton_append,
    List.forall₂_cons_left_iff]
  constructor
  · rintro ⟨b, bs', hab, hrest, hbs⟩
    refine ⟨bs'.reverse, b, ?_, ?_, hab⟩
    · rw [← List.reverse_reverse bs, hbs, List.reverse_cons]
    · rwa [← List.forall₂_reverse_iff, List.reverse_reverse]
  · rintro ⟨bs', b, rfl, hrest, hab⟩
    exact ⟨b, bs'.reverse, hab, List.forall₂_reverse_iff.mpr hrest, by simp⟩

-- What is found are the paths that match component by component, each of them once.
structure Finds (fs : FileSystem) (cs found : List String) : Prop where
  nodup : found.Nodup
  mem : ∀ q, q ∈ found ↔ ∃ ns, q = rooted ns ∧ fs.HasPath ns ∧ List.Forall₂ Matches cs ns

theorem hasMeta_rooted_concat (init : List String) (c : String) :
    hasMeta (rooted (init ++ [c])) = (hasMeta (rooted init) || hasMeta c) := by
  rw [Path.rooted_concat, stem]
  by_cases hne : init = []
  · simp [hne, hasMeta, rooted, Text.joinWith]
  · simp [hne, hasMeta]

-- The text in front of the last component, and the directory that it names.
theorem front_rooted_concat (init : List String) (c : String) :
    String.ofList ((rooted (init ++ [c])).toList.take ((rooted (init ++ [c])).toList.length - c.toList.length)) =
      stem init ++ "/" := by
  have hlist : (rooted (init ++ [c])).toList = ((stem init).toList ++ ['/']) ++ c.toList := by
    simp [Path.rooted_concat]
  have hlength : (((stem init).toList ++ ['/']) ++ c.toList).length - c.toList.length =
      ((stem init).toList ++ ['/']).length := by
    rw [List.length_append, Nat.add_sub_cancel]
  rw [hlist, hlength, List.take_left, String.ofList_append, String.ofList_toList]

theorem directory_of_front (init : List String) :
    (if (stem init ++ "/") == "/" then stem init ++ "/" else Text.dropBack 1 (stem init ++ "/")) = rooted init := by
  by_cases hne : init = []
  · rw [hne]
    decide
  · have hroot : (rooted init ++ "/" == "/") = false := by
      rw [beq_eq_false_iff_ne]
      intro h
      exact Path.rooted_ne_empty init (by simpa using congrArg String.toList h)
    rw [stem, if_neg hne, hroot]
    simp [Text.dropBack]

theorem find_concat (n : Nat) (init : List String) {c : String} (hc : IsName c) :
    find (n + 1) fs (rooted (init ++ [c])) =
      if !hasMeta (rooted (init ++ [c])) then
        some (if (fs.find? (rooted (init ++ [c]))).isSome then [rooted (init ++ [c])] else [])
      else if !hasMeta (rooted init) then inDir fs (rooted init) c
      else (find n fs (rooted init)).bind fun dirs => (dirs.mapM fun d => inDir fs d c).map List.flatten := by
  have hlist : (rooted (init ++ [c])).toList = (stem init).toList ++ '/' :: c.toList := by simp [Path.rooted_concat]
  have hback : (rooted (init ++ [c])).toList.reverse.takeWhile (· != '/') = c.toList.reverse := by
    rw [hlist, Path.takeWhile_last hc.slash]
  have hmore : (stem init ++ "/" == rooted (init ++ [c])) = false := by
    rw [beq_eq_false_iff_ne]
    intro h
    have htail := congrArg String.toList h
    rw [hlist] at htail
    exact hc.nonempty (by simpa using htail)
  have hempty : (stem init ++ "/").isEmpty = false := by simp
  rw [find]
  dsimp only
  rw [hback, List.length_reverse, List.reverse_reverse, String.ofList_toList, front_rooted_concat, hmore, hempty]
  simp only [Bool.false_eq_true, if_false]
  rw [directory_of_front]
  cases find n fs (rooted init) <;> rfl

theorem find_root (n : Nat) : find (n + 1) fs (rooted []) = some (if (fs.find? (rooted [])).isSome then [rooted []] else []) := by
  have hmeta : (!hasMeta (rooted [])) = true := by decide
  rw [find, if_pos hmeta]

-- A pattern without special characters.
theorem finds_literal {cs : List String} (hcs : ∀ c ∈ cs, IsName c) (hplain : ∀ c ∈ cs, IsLiteral c) :
    Finds fs cs (if (fs.find? (rooted cs)).isSome then [rooted cs] else []) := by
  constructor
  · split <;> simp
  · intro q
    simp only [matches_literals hplain]
    split
    · rename_i hfound
      rw [List.mem_singleton]
      exact ⟨fun h => ⟨cs, h, ⟨hcs, hfound⟩, rfl⟩, by rintro ⟨ns, rfl, -, rfl⟩; rfl⟩
    · rename_i hfound
      refine iff_of_false List.not_mem_nil ?_
      rintro ⟨ns, -, hpath, rfl⟩
      exact hfound hpath.2

theorem literal_of_not_hasMeta {c : String} (hescape : hasMeta c = true ∨ '\\' ∉ c.toList) (h : hasMeta c = false) :
    IsLiteral c := by
  have hbackslash : '\\' ∉ c.toList := hescape.resolve_left (by simp [h])
  intro x hx
  have hmeta := List.any_eq_false.mp h x hx
  have hne : x ≠ '\\' := ne_of_mem_of_not_mem hx hbackslash
  simpa [isSpecial, hne] using hmeta

theorem literal_of_not_hasMeta_rooted {cs : List String} (hescape : ∀ c ∈ cs, hasMeta c = true ∨ '\\' ∉ c.toList)
    (h : hasMeta (rooted cs) = false) : ∀ c ∈ cs, IsLiteral c := by
  induction cs using List.reverseRecOn with
  | nil => simp
  | append_singleton init c ih =>
      rw [hasMeta_rooted_concat, Bool.or_eq_false_iff] at h
      rw [List.forall_mem_append] at hescape ⊢
      exact ⟨ih hescape.1 h.1, by simpa using literal_of_not_hasMeta (hescape.2 c (by simp)) h.2⟩

-- The files below directories that were found.
theorem Finds.concat (hfs : fs.Rooted) {init dirs : List String} (h : Finds fs init dirs) (c : String) :
    Finds fs (init ++ [c]) (dirs.flatMap fun d => (inDir fs d c).getD []) := by
  constructor
  · rw [List.nodup_flatMap]
    constructor
    · intro d hd
      obtain ⟨ns, rfl, hns, -⟩ := (h.mem d).mp hd
      exact nodup_inDir hfs hns.1 c
    · refine h.nodup.imp_of_mem fun {d d'} hd hd' hne => ?_
      obtain ⟨ns, rfl, hns, -⟩ := (h.mem d).mp hd
      obtain ⟨ns', rfl, hns', -⟩ := (h.mem d').mp hd'
      intro q hq hq'
      obtain ⟨n, rfl, hpath, -⟩ := (mem_inDir hfs hns.1 c q).mp hq
      obtain ⟨n', heq, hpath', -⟩ := (mem_inDir hfs hns'.1 c _).mp hq'
      have hsame := Path.rooted_inj hpath.1 hpath'.1 heq
      exact hne (by rw [(List.append_inj' hsame rfl).1])
  · intro q
    simp only [List.mem_flatMap, forall₂_concat]
    constructor
    · rintro ⟨d, hd, hq⟩
      obtain ⟨ns, rfl, hns, hmatch⟩ := (h.mem d).mp hd
      obtain ⟨n, rfl, hpath, hn⟩ := (mem_inDir hfs hns.1 c q).mp hq
      exact ⟨ns ++ [n], rfl, hpath, ns, n, rfl, hmatch, hn⟩
    · rintro ⟨ns, rfl, hpath, ns, n, rfl, hmatch, hn⟩
      have hns := (hpath.init hfs).1
      exact ⟨rooted ns, (h.mem _).mpr ⟨ns, rfl, hns, hmatch⟩, (mem_inDir hfs hns.1 c _).mpr ⟨n, rfl, hpath, hn⟩⟩

theorem finds_inDir (hfs : fs.Rooted) {init : List String} (hinit : ∀ m ∈ init, IsName m)
    (hplain : ∀ m ∈ init, IsLiteral m) (c : String) :
    Finds fs (init ++ [c]) ((inDir fs (rooted init) c).getD []) := by
  refine ⟨nodup_inDir hfs hinit c, fun q => ?_⟩
  rw [mem_inDir hfs hinit]
  simp only [forall₂_concat, matches_literals hplain]
  constructor
  · rintro ⟨n, rfl, hpath, hn⟩
    exact ⟨init ++ [n], rfl, hpath, init, n, rfl, rfl, hn⟩
  · rintro ⟨ns, rfl, hpath, ns, n, rfl, rfl, hn⟩
    exact ⟨n, rfl, hpath, hn⟩

-- The search is exact: it finds what matches component by component. A component without a pattern character is looked
-- up as it is, so it must not have a backslash.
theorem finds_find (hfs : fs.Rooted) {cs : List String} (hcs : ∀ c ∈ cs, IsName c)
    (hescape : ∀ c ∈ cs, hasMeta c = true ∨ '\\' ∉ c.toList) {n : Nat} (hn : cs.length < n) :
    Finds fs cs ((find n fs (rooted cs)).getD []) := by
  induction cs using List.reverseRecOn generalizing n with
  | nil =>
      obtain ⟨n, rfl⟩ : ∃ k, n = k + 1 := ⟨n - 1, by omega⟩
      rw [find_root]
      exact finds_literal hcs (by simp)
  | append_singleton init c ih =>
      obtain ⟨n, rfl⟩ : ∃ k, n = k + 1 := ⟨n - 1, by omega⟩
      have hinit : ∀ m ∈ init, IsName m := fun m hm => hcs m (List.mem_append_left _ hm)
      have hinit' : ∀ m ∈ init, hasMeta m = true ∨ '\\' ∉ m.toList := fun m hm => hescape m (List.mem_append_left _ hm)
      rw [find_concat n init (hcs c (by simp))]
      cases hmeta : hasMeta (rooted (init ++ [c])) with
      | false => exact finds_literal hcs (literal_of_not_hasMeta_rooted hescape hmeta)
      | true =>
          cases hmeta' : hasMeta (rooted init) with
          | false => exact finds_inDir hfs hinit (literal_of_not_hasMeta_rooted hinit' hmeta') c
          | true =>
              have hdirs := (ih hinit hinit' (n := n) (by simpa using hn)).concat hfs c
              simp only [Bool.not_true, Bool.false_eq_true, if_false]
              cases hfind : find n fs (rooted init) with
              | none =>
                  rw [hfind] at hdirs
                  exact hdirs
              | some dirs =>
                  rw [hfind] at hdirs
                  rw [Option.bind_some, getD_mapM dirs (inDir_some_or_empty c)]
                  exact hdirs

-- The search for a pattern finds what it should.
def Exact (fs : FileSystem) (pattern : String) : Prop := Finds fs (Path.components pattern) (search fs pattern)

theorem exact_rooted (hfs : fs.Rooted) {cs : List String} (hcs : ∀ c ∈ cs, IsName c)
    (hescape : ∀ c ∈ cs, hasMeta c = true ∨ '\\' ∉ c.toList) : Exact fs (rooted cs) := by
  rw [Exact, Path.components_rooted hcs]
  exact finds_find hfs hcs hescape (Nat.lt_succ_of_le (Path.length_le_rooted cs))

end Glob

end Machine
end ShellScript

import ShellScript.Machine.Expand
import ShellScript.Proofs.Machine.Glob
import ShellScript.Proofs.Machine.Plain

-- The names that a field is replaced by: those of the files that match it.
namespace ShellScript
namespace Machine

open ShellScript.Path (IsName rooted)
open Glob (Matches)
open Run

namespace Fragment

variable (f : List Fragment)

-- What is searched for.
def target (dir : String) : String := if Path.isAbs (pattern f) then pattern f else Path.join [dir, pattern f]

-- The name of a file that was found.
def nameOf (dir p : String) : String := if Path.isAbs (pattern f) then p else Path.relative dir p

-- Whether a file is given although its name begins with a dot.
def shows (p : String) : Bool := Text.hasPrefix (Path.base (pattern f)) "." || !Text.hasPrefix (Path.base p) "."

def fileNames (files : FileSystem) (dir : String) : List String :=
  ((Glob.search files (target f dir)).filter (shows f)).map (nameOf f dir)

end Fragment

-- The values of a predicate in their order, each of them once; a text in their place if there are none.
structure Lists (names : List String) (text : String) (P : String → Prop) : Prop where
  sorted : names.Pairwise fun a b => Text.le a b = true
  nodup : names.Nodup
  mem : ∀ n, n ∈ names ↔ P n ∨ n = text ∧ ¬∃ m, P m

theorem Lists.of_sort {l : List String} {P : String → Prop} (hl : l.Nodup) (hmem : ∀ n, n ∈ l ↔ P n) (text : String) :
    Lists (if l.isEmpty then [text] else Text.sort l) text P := by
  cases l with
  | nil =>
      have hnone : ¬∃ m, P m := by
        rintro ⟨m, hm⟩
        exact List.not_mem_nil ((hmem m).mpr hm)
      refine ⟨by simp, by simp, fun n => ?_⟩
      have hn : ¬P n := fun hn => hnone ⟨n, hn⟩
      simp [hn, hnone]
  | cons m l =>
      have hsome : ∃ m, P m := ⟨m, (hmem m).mp List.mem_cons_self⟩
      have hsort : (Text.sort (m :: l)).Perm (m :: l) := List.mergeSort_perm _ _
      refine ⟨?_, hsort.nodup_iff.mpr hl, fun n => ?_⟩
      · exact (pairwise_mergeSort_cmp (m :: l)).imp ne_gt_iff.mpr
      · simp only [List.isEmpty_cons, Bool.false_eq_true, if_false, hsome, not_true, and_false, or_false]
        exact hsort.mem_iff.trans (hmem n)

theorem Lists.congr {names : List String} {text : String} {P Q : String → Prop} (h : Lists names text P)
    (hPQ : ∀ n, P n ↔ Q n) : Lists names text Q := by
  have heq : P = Q := funext fun n => propext (hPQ n)
  exact heq ▸ h

theorem matchFiles_eq {f : List Fragment} {s : State} (hmeta : Fragment.hasMeta f = true)
    (hglob : s.shell.options.noglob = false) :
    matchFiles f s =
      .ok (if (Fragment.fileNames f s.world.files s.shell.dir).isEmpty then [Fragment.plain f]
        else Text.sort (Fragment.fileNames f s.world.files s.shell.dir)) s := by
  rw [matchFiles, shell_bind, hmeta, hglob]
  rfl

-- A file with a path that matches the components of a pattern below a directory, where a name begins with a dot only if
-- the component does.
def Named (files : FileSystem) (dir cs ns : List String) : Prop :=
  files.HasPath (dir ++ ns) ∧
    List.Forall₂ (fun c n => Matches c n ∧ (Text.hasPrefix n "." = true → Text.hasPrefix c "." = true)) cs ns

-- A pattern of a single component.
theorem exists_named_singleton {files : FileSystem} {dir : List String} {c q : String} :
    (∃ ns, Named files dir [c] ns ∧ q = Text.joinWith "/" ns) ↔
      files.HasPath (dir ++ [q]) ∧ Matches c q ∧ (Text.hasPrefix q "." = true → Text.hasPrefix c "." = true) := by
  have hjoin (n : String) : Text.joinWith "/" [n] = n := by simp [Text.joinWith]
  constructor
  · rintro ⟨ns, ⟨hpath, hmatch⟩, rfl⟩
    obtain ⟨n, _, hn, hnil, rfl⟩ := List.forall₂_cons_left_iff.mp hmatch
    cases List.forall₂_nil_left_iff.mp hnil
    rw [hjoin]
    exact ⟨hpath, hn⟩
  · rintro ⟨hpath, hmatch⟩
    exact ⟨[q], ⟨hpath, .cons hmatch .nil⟩, (hjoin q).symm⟩

-- The components of a pattern of which only the last one may begin with a pattern character.
structure Regular (cs : List String) : Prop where
  nonempty : cs ≠ []
  names : ∀ c ∈ cs, IsName c
  first : ∀ c ∈ cs.dropLast, ∀ x ∈ c.toList.head?, Glob.isSpecial x = false

section

variable {f : List Fragment} {files : FileSystem}

-- The names are those of the files that were found, one for each.
theorem lists_fileNames {dir : List String} (hdir : ∀ n ∈ dir, IsName n)
    (hexact : Glob.Exact files (Fragment.target f (rooted dir))) (text : String) :
    let names := Fragment.fileNames f files (rooted dir)
    Lists (if names.isEmpty then [text] else Text.sort names) text fun n => ∃ ns, files.HasPath ns ∧
      List.Forall₂ Matches (Path.components (Fragment.target f (rooted dir))) ns ∧
      Fragment.shows f (rooted ns) = true ∧ n = Fragment.nameOf f (rooted dir) (rooted ns) := by
  refine Lists.of_sort ?_ (fun n => ?_) text
  · refine List.Nodup.map_on (fun p hp q hq h => ?_) (hexact.nodup.filter _)
    obtain ⟨ns, rfl, hns, -⟩ := (hexact.mem p).mp (List.mem_filter.mp hp).1
    obtain ⟨ms, rfl, hms, -⟩ := (hexact.mem q).mp (List.mem_filter.mp hq).1
    unfold Fragment.nameOf at h
    split at h
    · exact h
    · rw [Path.relative_inj hdir hns.1 hms.1 h]
  · simp only [Fragment.fileNames, List.mem_map, List.mem_filter, hexact.mem]
    constructor
    · rintro ⟨p, ⟨⟨ns, rfl, hpath, hmatch⟩, hshown⟩, rfl⟩
      exact ⟨ns, hpath, hmatch, hshown, rfl⟩
    · rintro ⟨ns, hpath, hmatch, hshown, rfl⟩
      exact ⟨rooted ns, ⟨⟨ns, rfl, hpath, hmatch⟩, hshown⟩, rfl⟩

-- Only a pattern that begins with a dot or a pattern character matches a name that begins with a dot.
theorem hidden_of_matches {c n : String} (hc : IsName c) (hfirst : ∀ x ∈ c.toList.head?, Glob.isSpecial x = false)
    (h : Matches c n) (hn : Text.hasPrefix n "." = true) : Text.hasPrefix c "." = true := by
  cases hl : c.toList with
  | nil => exact absurd (String.toList_eq_nil_iff.mp hl) hc.nonempty
  | cons x xs =>
      obtain ⟨ys, hys⟩ := Glob.matches_first hl (hfirst x (by simp [hl])) h
      simpa [Text.hasPrefix, hl, hys, List.isPrefixOf] using hn

theorem forall₂_hidden {cs ns : List String} (hcs : ∀ c ∈ cs, IsName c)
    (hfirst : ∀ c ∈ cs, ∀ x ∈ c.toList.head?, Glob.isSpecial x = false) (h : List.Forall₂ Matches cs ns) :
    List.Forall₂ (fun c n => Matches c n ∧ (Text.hasPrefix n "." = true → Text.hasPrefix c "." = true)) cs ns := by
  induction h with
  | nil => exact .nil
  | cons hcn _ ih =>
      obtain ⟨hc, hcs⟩ := List.forall_mem_cons.mp hcs
      obtain ⟨hx, hfirst⟩ := List.forall_mem_cons.mp hfirst
      exact .cons ⟨hcn, hidden_of_matches hc hx hcn⟩ (ih hcs hfirst)

-- Looking at the last name only is enough for such a pattern.
theorem named_iff {cs dir ns : List String} (hcs : Regular cs)
    (hbase : ∀ init c, cs = init ++ [c] → Path.base (Fragment.pattern f) = c) :
    files.HasPath (dir ++ ns) ∧ List.Forall₂ Matches cs ns ∧ Fragment.shows f (rooted (dir ++ ns)) = true ↔
      Named files dir cs ns := by
  obtain ⟨init, c, hconcat⟩ := List.eq_nil_or_concat cs |>.resolve_left hcs.nonempty
  rw [List.concat_eq_append] at hconcat
  subst hconcat
  rw [Named]
  refine and_congr_right fun hpath => ?_
  have hshows {ns : List String} {n : String} (hpath : files.HasPath (dir ++ (ns ++ [n]))) :
      Fragment.shows f (rooted (dir ++ (ns ++ [n]))) = true ↔ (Text.hasPrefix n "." = true → Text.hasPrefix c "." = true) := by
    have hn : IsName n := hpath.1 n (by simp)
    rw [Fragment.shows, hbase init c rfl, ← List.append_assoc, Path.base_rooted hn]
    cases Text.hasPrefix n "." <;> simp
  rw [Glob.forall₂_concat, Glob.forall₂_concat]
  constructor
  · rintro ⟨⟨ns, n, rfl, hinit, hn⟩, hshown⟩
    refine ⟨ns, n, rfl, forall₂_hidden ?_ ?_ hinit, hn, (hshows hpath).mp hshown⟩
    · exact fun m hm => hcs.names m (List.mem_append_left _ hm)
    · simpa using hcs.first
  · rintro ⟨ns, n, rfl, hinit, hn, hhidden⟩
    exact ⟨⟨ns, n, rfl, hinit.imp fun _ _ h => h.1, hn⟩, (hshows hpath).mpr hhidden⟩

theorem forall₂_append {dir cs ms : List String} (hdir : ∀ d ∈ dir, Glob.IsLiteral d) :
    List.Forall₂ Matches (dir ++ cs) ms ↔ ∃ ns, ms = dir ++ ns ∧ List.Forall₂ Matches cs ns := by
  induction dir generalizing ms with
  | nil => simp
  | cons d dir ih =>
      obtain ⟨hd, hdir⟩ := List.forall_mem_cons.mp hdir
      rw [List.cons_append, List.forall₂_cons_left_iff]
      simp only [Glob.matches_literal hd, ih hdir]
      constructor
      · rintro ⟨_, _, rfl, ⟨ns, rfl, h⟩, rfl⟩
        exact ⟨ns, rfl, h⟩
      · rintro ⟨ns, rfl, h⟩
        exact ⟨d, dir ++ ns, rfl, ⟨ns, rfl, h⟩, rfl⟩

-- A pattern that does not begin at the root is searched for below the directory, and the names are the ways from there.
theorem exists_found_below_iff {dir cs : List String} (hdir : ∀ d ∈ dir, IsName d) (hcs : Regular cs)
    (hpattern : Fragment.pattern f = Text.joinWith "/" cs) (hplain : ∀ d ∈ dir, Glob.IsLiteral d) (n : String) :
    (∃ ns, files.HasPath ns ∧ List.Forall₂ Matches (Path.components (Fragment.target f (rooted dir))) ns ∧
        Fragment.shows f (rooted ns) = true ∧ n = Fragment.nameOf f (rooted dir) (rooted ns)) ↔
      ∃ ns, Named files dir cs ns ∧ n = Text.joinWith "/" ns := by
  have hrooted : Path.isAbs (Fragment.pattern f) = false := by
    rw [hpattern, Path.isAbs_joinWith fun n hn => ⟨(hcs.names n hn).nonempty, (hcs.names n hn).slash⟩]
  have hall : ∀ n ∈ dir ++ cs, IsName n := fun n hn => (List.mem_append.mp hn).elim (hdir n) (hcs.names n)
  have htarget : Path.components (Fragment.target f (rooted dir)) = dir ++ cs := by
    rw [Fragment.target, hrooted, if_neg Bool.false_ne_true, hpattern, Path.join_rooted hdir hcs.names hcs.nonempty,
      Path.components_rooted hall]
  have hbase : ∀ init c, cs = init ++ [c] → Path.base (Fragment.pattern f) = c := by
    rintro init c rfl
    rw [hpattern, Path.base_joinWith (hcs.names c (by simp))]
  have hname {ns : List String} (hpath : files.HasPath (dir ++ ns)) (hmatch : List.Forall₂ Matches cs ns) :
      Fragment.nameOf f (rooted dir) (rooted (dir ++ ns)) = Text.joinWith "/" ns := by
    have hne : ns ≠ [] := by
      rintro rfl
      exact hcs.nonempty (List.forall₂_nil_right_iff.mp hmatch)
    rw [Fragment.nameOf, hrooted, if_neg Bool.false_ne_true]
    exact Path.relative_below hdir (fun n hn => hpath.1 n (List.mem_append_right _ hn)) hne
  rw [htarget]
  simp only [forall₂_append hplain, ← named_iff hcs hbase]
  constructor
  · rintro ⟨_, hpath, ⟨ns, rfl, hmatch⟩, hshown, rfl⟩
    exact ⟨ns, ⟨hpath, hmatch, hshown⟩, hname hpath hmatch⟩
  · rintro ⟨ns, ⟨hpath, hmatch, hshown⟩, rfl⟩
    exact ⟨dir ++ ns, hpath, ⟨ns, rfl, hmatch⟩, hshown, (hname hpath hmatch).symm⟩

-- A pattern that begins at the root is searched for as it is, and so are the names.
theorem exists_found_rooted_iff (dir : List String) {cs : List String} (hcs : Regular cs)
    (hpattern : Fragment.pattern f = rooted cs) (n : String) :
    (∃ ns, files.HasPath ns ∧ List.Forall₂ Matches (Path.components (Fragment.target f (rooted dir))) ns ∧
        Fragment.shows f (rooted ns) = true ∧ n = Fragment.nameOf f (rooted dir) (rooted ns)) ↔
      ∃ ns, Named files [] cs ns ∧ n = rooted ns := by
  have hrooted : Path.isAbs (Fragment.pattern f) = true := by rw [hpattern, Path.isAbs_rooted]
  have htarget : Path.components (Fragment.target f (rooted dir)) = cs := by
    rw [Fragment.target, if_pos hrooted, hpattern, Path.components_rooted hcs.names]
  have hbase : ∀ init c, cs = init ++ [c] → Path.base (Fragment.pattern f) = c := by
    rintro init c rfl
    rw [hpattern, Path.base_rooted (hcs.names c (by simp))]
  have hname (p : String) : Fragment.nameOf f (rooted dir) p = p := if_pos hrooted
  rw [htarget]
  simp only [hname, ← named_iff hcs hbase, List.nil_append, and_assoc]

end

-- The names that a field with a pattern is replaced by, in order and without repetitions, or its text if there are none,
-- given that a search finds what matches component by component. What is searched for is the pattern behind the working
-- directory, made as short as possible, so the characters of that directory are part of the pattern too; the names are
-- the ways from the directory to what was found, and of those only the last component is looked at for a dot. These are
-- the names that the field itself matches, component by component, if the directory has no pattern characters and only
-- the last component of the pattern begins with one. Quoted text stands for itself.
theorem file_names {f : List Fragment} {s : State} {dir : List String} (hglob : s.shell.options.noglob = false)
    (hmeta : Fragment.hasMeta f = true) (hdir : ∀ d ∈ dir, IsName d) (hs : s.shell.dir = rooted dir)
    (hexact : Glob.Exact s.world.files (Fragment.target f (rooted dir))) :
    ∃ names, matchFiles f s = .ok names s ∧
      (Lists names (Fragment.plain f) fun n => ∃ ns, s.world.files.HasPath ns ∧
        List.Forall₂ Matches (Path.components (Fragment.target f (rooted dir))) ns ∧
        Fragment.shows f (rooted ns) = true ∧ n = Fragment.nameOf f (rooted dir) (rooted ns)) ∧
      (∀ cs, Regular cs → Fragment.pattern f = Text.joinWith "/" cs →
        (∀ d ∈ dir, Glob.IsLiteral d) →
        Lists names (Fragment.plain f) fun n => ∃ ns, Named s.world.files dir cs ns ∧ n = Text.joinWith "/" ns) ∧
      (∀ cs, Regular cs → Fragment.pattern f = rooted cs →
        Lists names (Fragment.plain f) fun n => ∃ ns, Named s.world.files [] cs ns ∧ n = rooted ns) ∧
      ∀ t c n, (∀ r ∈ Text.runes t, ∃ x, r = .char x) →
        (Matches (Pattern.quoteMeta t ++ c) n ↔ ∃ m, n = t ++ m ∧ Matches c m) := by
  have hlists := lists_fileNames hdir hexact (Fragment.plain f)
  exact ⟨_, hs ▸ matchFiles_eq hmeta hglob, hlists,
    fun cs hcs hpattern hplain => hlists.congr (exists_found_below_iff hdir hcs hpattern hplain),
    fun cs hcs hpattern => hlists.congr (exists_found_rooted_iff dir hcs hpattern),
    fun t c n ht => Glob.matches_quoted ht c n⟩

-- Files in a directory, by their paths.
def State.among (dir : String) (dirs files : List String) : State :=
  { world := { files := { entries := dirs.map (·, { isDir := true, mode := 0o755 }) ++ files.map (·, { isDir := false, mode := 0o644 }) } }
    shell := { dir } }

-- A quoted star and a question mark.
theorem file_names_of_quoted :
    let s := State.among "/d" ["/", "/d"] ["/d/x*y", "/d/xyz", "/d/.x"]
    let f : List Fragment := [⟨"x*", true⟩, ⟨"?", false⟩]
    ∃ names, matchFiles f s = .ok names s ∧ "x*y" ∈ names ∧ "xyz" ∉ names := by
  intro s f
  have hfiles : s.world.files.Rooted := FileSystem.rooted_of_components (by decide +kernel) (by decide +kernel)
  have hs : s.shell.dir = rooted ["d"] := by decide +kernel
  have htarget : Fragment.target f (rooted ["d"]) = rooted ["d", "x\\*?"] := by decide +kernel
  have hexact : Glob.Exact s.world.files (Fragment.target f (rooted ["d"])) := by
    rw [htarget]
    exact Glob.exact_rooted hfiles (by decide +kernel) (by decide +kernel)
  obtain ⟨names, hnames, -, hlists, -⟩ :=
    file_names (f := f) (s := s) rfl (by decide +kernel) (by decide +kernel) hs hexact
  have hregular : Regular ["x\\*?"] := ⟨by simp, by decide +kernel, by simp⟩
  have hnamed := hlists ["x\\*?"] hregular (by decide +kernel) (by decide +kernel)
  have hmem : ∀ n, n ∈ names ↔ _ := hnamed.mem
  simp only [exists_named_singleton] at hmem
  refine ⟨names, hnames, (hmem _).mpr (.inl (by decide +kernel)), fun h => ?_⟩
  rcases (hmem _).mp h with h | h
  · exact absurd h (by decide +kernel)
  · exact absurd h.1 (by decide +kernel)

-- The file `y` of another directory that matches the name of the working directory.
theorem directory_is_pattern :
    let s := State.among "/a*" ["/", "/a*", "/ab"] ["/a*/x", "/ab/y"]
    (∃ names, matchFiles [⟨"*", false⟩] s = .ok names s ∧ "../ab/y" ∈ names) ∧
      ¬∃ ns, Named s.world.files ["a*"] ["*"] ns ∧ "../ab/y" = Text.joinWith "/" ns := by
  intro s
  have hfiles : s.world.files.Rooted := FileSystem.rooted_of_components (by decide +kernel) (by decide +kernel)
  have htarget : Fragment.target [⟨"*", false⟩] (rooted ["a*"]) = rooted ["a*", "*"] := by decide +kernel
  have hexact : Glob.Exact s.world.files (Fragment.target [⟨"*", false⟩] (rooted ["a*"])) := by
    rw [htarget]
    exact Glob.exact_rooted hfiles (by decide +kernel) (by decide +kernel)
  have hlists := lists_fileNames (by decide +kernel) hexact "*"
  have hs : s.shell.dir = rooted ["a*"] := by decide +kernel
  refine ⟨⟨_, hs ▸ matchFiles_eq (by decide +kernel) rfl, ?_⟩, ?_⟩
  · refine (hlists.mem "../ab/y").mpr (.inl ⟨["ab", "y"], by decide +kernel, ?_, by decide +kernel, by decide +kernel⟩)
    rw [htarget, Path.components_rooted (by decide +kernel)]
    exact .cons (by decide +kernel) (.cons (by decide +kernel) .nil)
  · rw [exists_named_singleton]
    decide +kernel

end Machine
end ShellScript

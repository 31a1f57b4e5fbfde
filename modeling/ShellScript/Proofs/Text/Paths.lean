import Mathlib.Data.List.Induction
import Mathlib.Data.List.TakeWhile
import ShellScript.Path

-- Paths as the lists of their components: what stays the same when such a path is made simpler, joined with another one
-- or seen from a directory.
namespace ShellScript

namespace Text

theorem splitList_of_not_mem {c : Char} {s : List Char} (h : c ∉ s) : splitList c s = [s] := by
  induction s with
  | nil => rfl
  | cons x xs ih =>
      obtain ⟨hx, hxs⟩ := not_or.mp (mt List.mem_cons.mpr h)
      simp [splitList, ih hxs, Ne.symm hx]

theorem splitList_ne_nil (c : Char) (s : List Char) : splitList c s ≠ [] := by
  cases s with
  | nil => simp [splitList]
  | cons x xs =>
      rw [splitList]
      split
      · simp
      · split <;> simp

theorem splitList_append (c : Char) (s t : List Char) :
    splitList c (s ++ c :: t) = splitList c s ++ splitList c t := by
  induction s with
  | nil => simp [splitList]
  | cons x xs ih =>
      rw [List.cons_append, splitList, splitList, ih]
      cases hxs : splitList c xs with
      | nil => exact absurd hxs (splitList_ne_nil c xs)
      | cons r rs => split <;> simp

theorem splitAt_of_not_mem {c : Char} {s : String} (h : c ∉ s.toList) : splitAt c s = [s] := by
  rw [splitAt, splitList_of_not_mem h, List.map_singleton, String.ofList_toList]

theorem splitAt_slash (s t : String) : splitAt '/' (s ++ "/" ++ t) = splitAt '/' s ++ splitAt '/' t := by
  have hlist : (s ++ "/" ++ t).toList = s.toList ++ '/' :: t.toList := by simp
  rw [splitAt, splitAt, splitAt, hlist, splitList_append, List.map_append]

theorem not_mem_of_mem_splitList {c : Char} {s p : List Char} (h : p ∈ splitList c s) : c ∉ p := by
  induction s generalizing p with
  | nil =>
      obtain rfl := List.mem_singleton.mp h
      exact List.not_mem_nil
  | cons x xs ih =>
      rw [splitList] at h
      split at h
      · rcases List.mem_cons.mp h with rfl | h
        · exact List.not_mem_nil
        · exact ih h
      · rename_i hx
        split at h
        · exact absurd ‹_› (splitList_ne_nil c xs)
        · rename_i r rs hrest
          rcases List.mem_cons.mp h with rfl | h
          · have hr := ih (hrest ▸ List.mem_cons_self)
            rw [List.mem_cons, not_or]
            exact ⟨fun heq => hx (by simp [heq]), hr⟩
          · exact ih (hrest ▸ List.mem_cons_of_mem _ h)

theorem not_mem_of_mem_splitAt {c : Char} {s p : String} (h : p ∈ splitAt c s) : c ∉ p.toList := by
  obtain ⟨cs, hcs, rfl⟩ := List.mem_map.mp h
  rw [String.toList_ofList]
  exact not_mem_of_mem_splitList hcs

theorem joinWith_cons {n : String} {ns : List String} (hne : ns ≠ []) : joinWith "/" (n :: ns) = n ++ "/" ++ joinWith "/" ns :=
  String.intercalate_cons_of_ne_nil hne

theorem joinWith_append {ns ms : List String} (hns : ns ≠ []) (hms : ms ≠ []) :
    joinWith "/" (ns ++ ms) = joinWith "/" ns ++ "/" ++ joinWith "/" ms :=
  String.intercalate_append_of_ne_nil hns hms

-- Where no piece has a slash in it, the pieces are what was joined.
theorem splitAt_joinWith {ns : List String} (hne : ns ≠ []) (h : ∀ n ∈ ns, '/' ∉ n.toList) :
    splitAt '/' (joinWith "/" ns) = ns := by
  induction ns with
  | nil => exact absurd rfl hne
  | cons n ns ih =>
      obtain ⟨hn, hns⟩ := List.forall_mem_cons.mp h
      by_cases hrest : ns = []
      · rw [hrest]
        simpa [joinWith] using splitAt_of_not_mem hn
      · rw [joinWith_cons hrest, splitAt_slash, splitAt_of_not_mem hn, ih hrest hns]
        rfl

end Text

namespace Path

open Text

-- A component that names something in its directory.
structure IsName (n : String) : Prop where
  nonempty : n ≠ ""
  slash : '/' ∉ n.toList
  dot : n ≠ "."
  dots : n ≠ ".."

instance (n : String) : Decidable (IsName n) :=
  decidable_of_iff (n ≠ "" ∧ '/' ∉ n.toList ∧ n ≠ "." ∧ n ≠ "..")
    ⟨fun h => ⟨h.1, h.2.1, h.2.2.1, h.2.2.2⟩, fun h => ⟨h.nonempty, h.slash, h.dot, h.dots⟩⟩

-- The path from the root.
def rooted (ns : List String) : String := "/" ++ joinWith "/" ns

-- What stands in front of a last component and its slash.
def stem (ns : List String) : String := if ns = [] then "" else rooted ns

section

variable {ns : List String}

theorem rooted_concat (ns : List String) (n : String) : rooted (ns ++ [n]) = stem ns ++ "/" ++ n := by
  by_cases hne : ns = []
  · simp [hne, stem, rooted, joinWith]
  · rw [rooted, joinWith_append hne (by simp), stem, if_neg hne, rooted]
    simp [joinWith, String.append_assoc]

theorem length_le_rooted (ns : List String) : ns.length ≤ (rooted ns).length := by
  induction ns using List.reverseRecOn with
  | nil => simp
  | append_singleton ns n ih =>
      have hlength : (rooted (ns ++ [n])).length = (stem ns).length + 1 + n.length := by
        rw [rooted_concat, String.length_append, String.length_append]
        rfl
      rw [hlength, stem, List.length_append, List.length_singleton]
      split
      · simp_all
      · omega

theorem isAbs_rooted (ns : List String) : isAbs (rooted ns) = true := by simp [isAbs, rooted, hasPrefix]

theorem isAbs_append {n : String} (hne : n ≠ "") (hslash : '/' ∉ n.toList) (s : String) : isAbs (n ++ s) = false := by
  cases hl : n.toList with
  | nil => exact absurd (String.toList_eq_nil_iff.mp hl) hne
  | cons c cs =>
      have hc : c ≠ '/' := fun h => hslash (by simp [hl, h])
      simp [isAbs, hasPrefix, hl, List.isPrefixOf, hc.symm]

theorem isAbs_joinWith (h : ∀ n ∈ ns, n ≠ "" ∧ '/' ∉ n.toList) : isAbs (joinWith "/" ns) = false := by
  cases ns with
  | nil => decide
  | cons n ns =>
      obtain ⟨hn, hslash⟩ := h n List.mem_cons_self
      by_cases hne : ns = []
      · simpa [hne, joinWith] using isAbs_append hn hslash ""
      · rw [joinWith_cons hne, String.append_assoc]
        exact isAbs_append hn hslash _

theorem splitAt_rooted (p : String) : splitAt '/' ("/" ++ p) = "" :: splitAt '/' p := by
  have hempty : splitAt '/' "" = [""] := by decide
  have hslash := splitAt_slash "" p
  rwa [hempty, String.empty_append] at hslash

theorem components_joinWith (h : ∀ n ∈ ns, IsName n) : components (joinWith "/" ns) = ns := by
  by_cases hne : ns = []
  · rw [hne]
    decide
  · rw [components, splitAt_joinWith hne fun n hn => (h n hn).slash, List.filter_eq_self]
    intro n hn
    simpa using (h n hn).nonempty

theorem components_rooted (h : ∀ n ∈ ns, IsName n) : components (rooted ns) = ns := by
  rw [components, rooted, splitAt_rooted]
  exact components_joinWith h

theorem rooted_inj {ms : List String} (hns : ∀ n ∈ ns, IsName n) (hms : ∀ n ∈ ms, IsName n) (h : rooted ns = rooted ms) :
    ns = ms := by
  rw [← components_rooted hns, h, components_rooted hms]

theorem reduce_names (rooted : Bool) (done : List String) (h : ∀ n ∈ ns, IsName n) (rest : List String) :
    reduce rooted done (ns ++ rest) = reduce rooted (ns.reverse ++ done) rest := by
  induction ns generalizing done with
  | nil => rfl
  | cons n ns ih =>
      obtain ⟨hn, hns⟩ := List.forall_mem_cons.mp h
      have hstep : reduce rooted done (n :: (ns ++ rest)) = reduce rooted (n :: done) (ns ++ rest) := by
        simp [reduce, hn.nonempty, hn.dot, hn.dots]
      rw [List.cons_append, hstep, ih _ hns]
      simp

theorem reduce_splitAt (rooted : Bool) (done : List String) (h : ∀ n ∈ ns, IsName n) (rest : List String) :
    reduce rooted done (splitAt '/' (joinWith "/" ns) ++ rest) = reduce rooted (ns.reverse ++ done) rest := by
  by_cases hne : ns = []
  · have hempty : splitAt '/' (joinWith "/" []) = [""] := by decide
    rw [hne, hempty]
    rfl
  · rw [splitAt_joinWith hne fun n hn => (h n hn).slash, reduce_names rooted done h]

-- A path from the root is simplified component by component.
theorem clean_of_isAbs {p : String} (hp : isAbs p = true) (hreduce : reduce true [] (splitAt '/' p) = ns.reverse) :
    clean p = rooted ns := by
  rw [clean, hp, hreduce, List.reverse_reverse]
  rfl

theorem clean_rooted (h : ∀ n ∈ ns, IsName n) : clean (rooted ns) = rooted ns := by
  refine clean_of_isAbs (isAbs_rooted ns) ?_
  have hreduce := reduce_splitAt true [] h []
  rw [List.append_nil, List.append_nil] at hreduce
  rw [rooted, splitAt_rooted]
  exact hreduce

-- What is left of the components names something, or goes up from where the path begins; from the root there is no way up.
theorem mem_reduce {rooted : Bool} {done cs : List String} {n : String} (h : n ∈ reduce rooted done cs) :
    n ∈ done ∨ n ∈ cs ∧ n ≠ "" ∧ n ≠ "." ∧ (rooted = true → n ≠ "..") := by
  induction cs generalizing done with
  | nil => exact .inl h
  | cons c cs ih =>
      have hlater {done : List String} (h : n ∈ reduce rooted done cs) :
          n ∈ done ∨ n ∈ c :: cs ∧ n ≠ "" ∧ n ≠ "." ∧ (rooted = true → n ≠ "..") :=
        (ih h).imp_right (And.imp_left (List.mem_cons_of_mem c))
      unfold reduce at h
      split at h
      · exact hlater h
      · rename_i hc
        split at h
        · rename_i hup
          split at h
          · -- `..` after another one
            rename_i d ds
            split at h
            · rename_i hd
              rcases hlater h with h | h
              · rcases List.mem_cons.mp h with rfl | h
                · exact .inl (by simp_all)
                · exact .inl h
              · exact .inr h
            · exact (hlater h).imp_left (List.mem_cons_of_mem d)
          · split at h
            · exact hlater h
            · rename_i hrooted
              rcases hlater h with h | h
              · obtain rfl := List.mem_singleton.mp h
                exact .inr ⟨by simp_all, by decide, by decide, fun hr => absurd hr hrooted⟩
              · exact .inr h
        · rename_i hup
          rcases hlater h with h | h
          · rcases List.mem_cons.mp h with rfl | h
            · exact .inr ⟨List.mem_cons_self, by simp_all⟩
            · exact .inl h
          · exact .inr h

-- A path that was made simple is made of names, and it stays as it is.

theorem mem_parts {p n : String} (h : n ∈ (reduce (isAbs p) [] (splitAt '/' p)).reverse) :
    n ≠ "" ∧ '/' ∉ n.toList ∧ n ≠ "." ∧ (isAbs p = true → n ≠ "..") := by
  rcases mem_reduce (List.mem_reverse.mp h) with h | ⟨hmem, hne, hdot, hup⟩
  · cases h
  · exact ⟨hne, not_mem_of_mem_splitAt hmem, hdot, hup⟩

theorem clean_eq_rooted {p : String} (h : isAbs p = true) : ∃ ns, (∀ n ∈ ns, IsName n) ∧ clean p = rooted ns := by
  refine ⟨(reduce true [] (splitAt '/' p)).reverse, fun n hn => ?_, clean_of_isAbs h (List.reverse_reverse _).symm⟩
  rw [← h] at hn
  obtain ⟨hne, hslash, hdot, hup⟩ := mem_parts hn
  exact ⟨hne, hslash, hdot, hup h⟩

theorem isAbs_clean (p : String) : isAbs (clean p) = isAbs p := by
  cases h : isAbs p with
  | true =>
      obtain ⟨ns, -, heq⟩ := clean_eq_rooted h
      rw [heq, isAbs_rooted]
  | false =>
      have hparts : isAbs (joinWith "/" (reduce false [] (splitAt '/' p)).reverse) = false := by
        refine isAbs_joinWith fun n hn => ?_
        rw [← h] at hn
        exact ⟨(mem_parts hn).1, (mem_parts hn).2.1⟩
      rw [clean, h, if_neg Bool.false_ne_true]
      split
      · decide
      · exact hparts

theorem clean_clean {p : String} (h : isAbs p = true) : clean (clean p) = clean p := by
  obtain ⟨ns, hns, heq⟩ := clean_eq_rooted h
  rw [heq, clean_rooted hns]

theorem rooted_ne_empty (ns : List String) : rooted ns ≠ "" := by simp [rooted]

theorem joinWith_ne_empty (h : ∀ n ∈ ns, IsName n) (hne : ns ≠ []) : joinWith "/" ns ≠ "" := by
  intro hempty
  have hcomponents := components_joinWith h
  rw [hempty] at hcomponents
  exact hne (hcomponents.symm.trans (by decide))

theorem join_rooted {ms : List String} (hns : ∀ n ∈ ns, IsName n) (hms : ∀ n ∈ ms, IsName n) (hne : ms ≠ []) :
    join [rooted ns, joinWith "/" ms] = rooted (ns ++ ms) := by
  have hfilter : [rooted ns, joinWith "/" ms].filter (!·.isEmpty) = [rooted ns, joinWith "/" ms] := by
    simp [rooted_ne_empty, joinWith_ne_empty hms hne]
  have hjoin : joinWith "/" [rooted ns, joinWith "/" ms] = rooted ns ++ "/" ++ joinWith "/" ms := by
    rw [joinWith_cons (by simp)]
    simp [joinWith]
  rw [join, hfilter]
  dsimp only
  rw [hjoin]
  refine clean_of_isAbs (by simp [isAbs, hasPrefix, rooted]) ?_
  have hdir := reduce_splitAt true [] hns (splitAt '/' (joinWith "/" ms))
  have hrest := reduce_splitAt true ns.reverse hms []
  rw [List.append_nil] at hdir hrest
  rw [splitAt_slash, rooted, splitAt_rooted, List.reverse_append]
  exact hdir.trans hrest

-- The part of a path behind its last slash.

theorem dropWhile_last {l : List Char} (hne : l ≠ []) (hl : '/' ∉ l) (s : List Char) :
    (s ++ l).reverse.dropWhile (· == '/') = (s ++ l).reverse := by
  obtain ⟨l, c, rfl⟩ := List.eq_nil_or_concat l |>.resolve_left hne
  have hc : c ≠ '/' := fun h => hl (by simp [h])
  simp [hc]

theorem reverse_ne_slash {l : List Char} (hl : '/' ∉ l) : ∀ c ∈ l.reverse, (c != '/') = true := by
  intro c hc
  simpa using ne_of_mem_of_not_mem (List.mem_reverse.mp hc) hl

theorem takeWhile_last {l : List Char} (hl : '/' ∉ l) (s : List Char) :
    (s ++ '/' :: l).reverse.takeWhile (· != '/') = l.reverse := by
  rw [List.reverse_append, List.reverse_cons, List.append_assoc, List.takeWhile_append_of_pos (reverse_ne_slash hl)]
  simp

theorem dropWhile_last_not {l : List Char} (hl : '/' ∉ l) (s : List Char) :
    (s ++ '/' :: l).reverse.dropWhile (· != '/') = '/' :: s.reverse := by
  rw [List.reverse_append, List.reverse_cons, List.append_assoc, List.dropWhile_append_of_pos (reverse_ne_slash hl)]
  simp

theorem base_eq {p : String} {s l : List Char} (hp : p.toList = s ++ l) (hne : l ≠ []) (hl : '/' ∉ l) :
    base p = String.ofList (p.toList.reverse.takeWhile (· != '/')).reverse := by
  have hempty : p.isEmpty = false := by
    rw [← Bool.not_eq_true, String.isEmpty_iff]
    rintro rfl
    simp [hne] at hp
  rw [base, hempty, if_neg Bool.false_ne_true, hp, dropWhile_last hne hl]
  split
  · rename_i hnil
    simp [hne] at hnil
  · rfl

theorem base_slash {n : String} (hn : IsName n) (p : String) : base (p ++ "/" ++ n) = n := by
  have hne : n.toList ≠ [] := mt String.toList_eq_nil_iff.mp hn.nonempty
  have hlist : (p ++ "/" ++ n).toList = p.toList ++ '/' :: n.toList := by simp
  rw [base_eq (s := (p ++ "/").toList) (by simp) hne hn.slash, hlist, takeWhile_last hn.slash, List.reverse_reverse,
    String.ofList_toList]

theorem base_name {n : String} (hn : IsName n) : base n = n := by
  have hne : n.toList ≠ [] := mt String.toList_eq_nil_iff.mp hn.nonempty
  have hall : n.toList.reverse.takeWhile (· != '/') = n.toList.reverse :=
    List.takeWhile_eq_self_iff.mpr (reverse_ne_slash hn.slash)
  rw [base_eq (s := []) rfl hne hn.slash, hall, List.reverse_reverse, String.ofList_toList]

theorem base_rooted {n : String} (hn : IsName n) : base (rooted (ns ++ [n])) = n := by
  rw [rooted_concat, base_slash hn]

theorem base_joinWith {n : String} (hn : IsName n) : base (joinWith "/" (ns ++ [n])) = n := by
  by_cases hne : ns = []
  · simpa [hne, joinWith] using base_name hn
  · rw [joinWith_append hne (by simp)]
    simpa [joinWith] using base_slash hn (joinWith "/" ns)

theorem dir_rooted {n : String} (hns : ∀ n ∈ ns, IsName n) (hn : IsName n) : dir (rooted (ns ++ [n])) = rooted ns := by
  have hlist : (stem ns ++ "/" ++ n).toList = (stem ns).toList ++ '/' :: n.toList := by simp
  have hfront : String.ofList ('/' :: (stem ns).toList.reverse).reverse = stem ns ++ "/" := by simp
  rw [rooted_concat, dir, hlist, dropWhile_last_not hn.slash, hfront, stem]
  by_cases hne : ns = []
  · rw [if_pos hne, hne]
    decide
  · rw [if_neg hne]
    refine clean_of_isAbs (by simp [isAbs, hasPrefix, rooted]) ?_
    have hslash := splitAt_slash (rooted ns) ""
    have hreduce := reduce_splitAt true [] hns [""]
    rw [String.append_empty] at hslash
    rw [List.append_nil] at hreduce
    rw [hslash, rooted, splitAt_rooted]
    exact hreduce

theorem cleanComponents_rooted (h : ∀ n ∈ ns, IsName n) : cleanComponents (rooted ns) = ns := by
  rw [cleanComponents, clean_rooted h, components_rooted h, List.filter_eq_self]
  intro n hn
  simpa using (h n hn).dot

-- The way from one directory to another.

theorem dropCommon_append (ns ms : List String) : dropCommon ns (ns ++ ms) = ([], ms) := by
  induction ns with
  | nil => cases ms <;> rfl
  | cons n ns ih => simp [dropCommon, ih]

theorem exists_common (ns ms : List String) :
    ∃ common, ns = common ++ (dropCommon ns ms).1 ∧ ms = common ++ (dropCommon ns ms).2 := by
  induction ns generalizing ms with
  | nil => exact ⟨[], by simp [dropCommon], by simp [dropCommon]⟩
  | cons n ns ih =>
      cases ms with
      | nil => exact ⟨[], rfl, rfl⟩
      | cons m ms =>
          by_cases hnm : n = m
          · obtain ⟨common, hns, hms⟩ := ih ms
            subst hnm
            refine ⟨n :: common, ?_, ?_⟩ <;> simp [dropCommon, ← hns, ← hms]
          · exact ⟨[], by simp [dropCommon, hnm], by simp [dropCommon, hnm]⟩

theorem relative_below {ms : List String} (hns : ∀ n ∈ ns, IsName n) (hms : ∀ n ∈ ms, IsName n) (hne : ms ≠ []) :
    relative (rooted ns) (rooted (ns ++ ms)) = joinWith "/" ms := by
  have hall : ∀ n ∈ ns ++ ms, IsName n := fun n hn => (List.mem_append.mp hn).elim (hns n) (hms n)
  rw [relative, cleanComponents_rooted hns, cleanComponents_rooted hall, dropCommon_append]
  simp [hne]

-- The components of the way from one directory to another.
def steps (ns ms : List String) : List String :=
  List.replicate (dropCommon ns ms).1.length ".." ++ (dropCommon ns ms).2

theorem relative_rooted {ms : List String} (hns : ∀ n ∈ ns, IsName n) (hms : ∀ n ∈ ms, IsName n) :
    relative (rooted ns) (rooted ms) = if steps ns ms = [] then "." else joinWith "/" (steps ns ms) := by
  rw [relative, cleanComponents_rooted hns, cleanComponents_rooted hms]
  simp [steps, List.map_const']

variable (ns) in
theorem steps_spec {ms : List String} (hms : ∀ n ∈ ms, IsName n) :
    (steps ns ms).takeWhile (· == "..") = List.replicate (dropCommon ns ms).1.length ".." ∧
      (steps ns ms).dropWhile (· == "..") = (dropCommon ns ms).2 := by
  obtain ⟨common, -, hdown⟩ := exists_common ns ms
  have hnames : ∀ n ∈ (dropCommon ns ms).2, IsName n := by
    intro n hn
    exact hms n (hdown ▸ List.mem_append_right common hn)
  have hup : ∀ n ∈ List.replicate (dropCommon ns ms).1.length "..", (n == "..") = true := by
    intro n hn
    simp [List.eq_of_mem_replicate hn]
  rw [steps, List.takeWhile_append_of_pos hup, List.dropWhile_append_of_pos hup]
  cases hrest : (dropCommon ns ms).2 with
  | nil => simp
  | cons n rest =>
      have hn : (n == "..") = false := by simpa using (hnames n (hrest ▸ List.mem_cons_self)).dots
      simp [hn]

variable (ns) in
theorem steps_inj {ms ms' : List String} (hms : ∀ n ∈ ms, IsName n) (hms' : ∀ n ∈ ms', IsName n)
    (h : steps ns ms = steps ns ms') : ms = ms' := by
  obtain ⟨common, hns, hdown⟩ := exists_common ns ms
  obtain ⟨common', hns', hdown'⟩ := exists_common ns ms'
  obtain ⟨hup, hrest⟩ := steps_spec ns hms
  obtain ⟨hup', hrest'⟩ := steps_spec ns hms'
  have hlength : (dropCommon ns ms).1.length = (dropCommon ns ms').1.length := by
    have hreplicate := hup.symm.trans ((congrArg _ h).trans hup')
    simpa using congrArg List.length hreplicate
  have hcommon : common = common' := List.append_inj_left' (hns.symm.trans hns') hlength
  rw [hdown, hdown', hcommon, ← hrest, ← hrest', h]

theorem splitAt_relative {ms : List String} (hns : ∀ n ∈ ns, IsName n) (hms : ∀ n ∈ ms, IsName n) :
    splitAt '/' (relative (rooted ns) (rooted ms)) = if steps ns ms = [] then ["."] else steps ns ms := by
  have hslash : ∀ n ∈ steps ns ms, '/' ∉ n.toList := by
    obtain ⟨common, -, hdown⟩ := exists_common ns ms
    intro n hn
    rcases List.mem_append.mp hn with hn | hn
    · rw [List.eq_of_mem_replicate hn]
      decide
    · exact (hms n (hdown ▸ List.mem_append_right common hn)).slash
  rw [relative_rooted hns hms]
  split
  · decide
  · exact splitAt_joinWith ‹_› hslash

-- Different paths are seen differently.
theorem relative_inj {ms ms' : List String} (hns : ∀ n ∈ ns, IsName n) (hms : ∀ n ∈ ms, IsName n)
    (hms' : ∀ n ∈ ms', IsName n) (h : relative (rooted ns) (rooted ms) = relative (rooted ns) (rooted ms')) : ms = ms' := by
  have hnot {ms : List String} (hms : ∀ n ∈ ms, IsName n) : steps ns ms ≠ ["."] := by
    intro hdot
    obtain ⟨common, -, hdown⟩ := exists_common ns ms
    have hmem : "." ∈ steps ns ms := hdot ▸ List.mem_singleton_self _
    rcases List.mem_append.mp hmem with hmem | hmem
    · exact absurd (List.eq_of_mem_replicate hmem) (by decide)
    · exact (hms "." (hdown ▸ List.mem_append_right common hmem)).dot rfl
  have hsplit := congrArg (splitAt '/') h
  rw [splitAt_relative hns hms, splitAt_relative hns hms'] at hsplit
  refine steps_inj ns hms hms' ?_
  split at hsplit <;> split at hsplit
  · simp_all
  · exact absurd hsplit.symm (hnot hms')
  · exact absurd hsplit (hnot hms)
  · exact hsplit

end

end Path
end ShellScript

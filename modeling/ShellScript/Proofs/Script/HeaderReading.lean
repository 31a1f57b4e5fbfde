import ShellScript.Proofs.Script.Opening
import ShellScript.Proofs.Text.Order
import ShellScript.Proofs.Text.Paths
import ShellScript.Proofs.Text.Characters

-- The header of a script, written out and read back. A tag without a value is not written, and a dependency that holds
-- other white space than a blank or a tab, or bytes that are no character, is read back as something else; all the rest is
-- read as it was.
namespace ShellScript

namespace Text

-- The pieces of lines, each of which ends.
theorem splitAt_lines {lines : List String} (h : ∀ l ∈ lines, '\n' ∉ l.toList) (rest : String) :
    splitAt '\n' (String.join (lines.map (· ++ "\n")) ++ rest) = lines ++ splitAt '\n' rest := by
  induction lines with
  | nil => simp
  | cons l lines ih =>
      obtain ⟨hl, hlines⟩ := List.forall_mem_cons.mp h
      have hlist : (String.join ((l :: lines).map (· ++ "\n")) ++ rest).toList =
          l.toList ++ '\n' :: (String.join (lines.map (· ++ "\n")) ++ rest).toList := by simp
      have htail := ih hlines
      rw [splitAt] at htail ⊢
      rw [hlist, splitList_append, splitList_of_not_mem hl, List.map_append, htail]
      simp [splitAt]

end Text

namespace Script

open Std (TransCmp LawfulEqCmp OrientedCmp)
open Text (trim runes trimmed mended mend)

-- Where the tags of other names are kept.

section Tags

variable {key value : String} {tags : List (String × String)}

-- Each key once, in the order of their bytes.
def SortedTags (tags : List (String × String)) : Prop := tags.Pairwise fun a b => Text.compare a.1 b.1 = .lt

namespace Header

theorem mem_insertTag {tag : String × String} (h : tag ∈ insertTag key value tags) : tag = (key, value) ∨ tag ∈ tags := by
  induction tags with
  | nil => exact .inl (List.mem_singleton.mp h)
  | cons t tags ih =>
      rw [insertTag] at h
      split at h
      · exact List.mem_cons.mp h
      · exact (List.mem_cons.mp h).imp id (List.mem_cons_of_mem _)
      · rcases List.mem_cons.mp h with rfl | h
        · exact .inr List.mem_cons_self
        · exact (ih h).imp id (List.mem_cons_of_mem _)

theorem sorted_insertTag (h : SortedTags tags) : SortedTags (insertTag key value tags) := by
  induction tags with
  | nil => exact List.pairwise_singleton _ _
  | cons t tags ih =>
      obtain ⟨ht, htags⟩ := List.pairwise_cons.mp h
      rw [insertTag]
      split
      · rename_i hlt
        refine List.pairwise_cons.mpr ⟨fun u hu => ?_, h⟩
        rcases List.mem_cons.mp hu with rfl | hu
        · exact hlt
        · exact TransCmp.lt_trans hlt (ht u hu)
      · rename_i heq
        obtain rfl : key = t.1 := LawfulEqCmp.eq_of_compare heq
        exact List.pairwise_cons.mpr ⟨ht, htags⟩
      · rename_i hgt
        refine List.pairwise_cons.mpr ⟨fun u hu => ?_, ih htags⟩
        rcases mem_insertTag hu with rfl | hu
        · exact OrientedCmp.lt_of_gt hgt
        · exact ht u hu

-- A key behind all others is put last.
theorem insertTag_of_lt (h : ∀ tag ∈ tags, Text.compare tag.1 key = .lt) : insertTag key value tags = tags ++ [(key, value)] := by
  induction tags with
  | nil => rfl
  | cons t tags ih =>
      obtain ⟨ht, htags⟩ := List.forall_mem_cons.mp h
      have hgt : Text.compare key t.1 = .gt := OrientedCmp.gt_of_lt ht
      rw [insertTag, hgt]
      exact congrArg (List.cons t) (ih htags)

end Header

end Tags

namespace Header

-- The names that a dependency tag gives.
def namesOf (value : String) : List String :=
  match Text.shellWords value with
  | .ok ws => ws
  | .error _ => Text.fields value

-- What a tag says, once its name and its value are told apart.
def withTag (h : Header) (key value : String) : Header :=
  if key == "Version" then { h with version := value }
  else if key == "Author" then { h with author := value }
  else if key == "Description" then { h with description := value }
  else if key == "Dependency" then { h with dependencies := h.dependencies ++ namesOf value }
  else if key.isEmpty then h
  else { h with others := insertTag key value h.others }

theorem addTag_at {h : Header} {comment : String} {rest : List Char} (hcomment : comment.toList = '@' :: rest) :
    h.addTag comment = match Text.cut? ':' (String.ofList rest) with
      | none => h
      | some (key, value) => h.withTag (trim key) (trim value) := by
  unfold addTag withTag
  simp only [hcomment]
  cases Text.cut? ':' (String.ofList rest) with
  | none => rfl
  | some parts =>
      dsimp only
      generalize trim parts.1 = key
      generalize trim parts.2 = value
      cases hwords : Text.shellWords value <;> simp only [namesOf, hwords]

theorem addTag_of_cut {h : Header} {comment key value : String}
    (hcomment : comment.toList = '@' :: (key.toList ++ ':' :: value.toList)) (hkey : ':' ∉ key.toList) :
    h.addTag comment = h.withTag (trim key) (trim value) := by
  have hcut : Text.cut? ':' (String.ofList (key.toList ++ ':' :: value.toList)) = some (key, value) :=
    Text.cut?_eq_some.mpr ⟨String.toList_ofList, hkey⟩
  rw [addTag_at hcomment, hcut]

theorem addTag_cases (h : Header) (comment : String) :
    h.addTag comment = h ∨ ∃ key value : String, comment.toList = '@' :: (key.toList ++ ':' :: value.toList) ∧
      ':' ∉ key.toList ∧ h.addTag comment = h.withTag (trim key) (trim value) := by
  by_cases hat : ∃ rest, comment.toList = '@' :: rest
  · obtain ⟨rest, hcomment⟩ := hat
    cases hcut : Text.cut? ':' (String.ofList rest) with
    | none => exact .inl (by rw [addTag_at hcomment, hcut])
    | some parts =>
        obtain ⟨key, value⟩ := parts
        obtain ⟨hrest, hkey⟩ := Text.cut?_eq_some.mp hcut
        rw [String.toList_ofList] at hrest
        rw [hrest] at hcomment
        exact .inr ⟨key, value, hcomment, hkey, addTag_of_cut hcomment hkey⟩
  · refine .inl ?_
    unfold addTag
    split
    · rename_i rest hcomment
      exact absurd ⟨rest, hcomment⟩ hat
    · rfl

-- The texts that a header is made of.

-- A value has no white space around it and is on one line.
def IsValue (s : String) : Prop := trim s = s ∧ '\n' ∉ s.toList

def fieldNames : List String := ["Version", "Author", "Description", "Dependency"]

structure IsKey (s : String) : Prop where
  value : IsValue s
  ne_empty : s ≠ ""
  cut : ':' ∉ s.toList
  other : s ∉ fieldNames

def IsDependency (s : String) : Prop := s ≠ "" ∧ '\n' ∉ s.toList

-- What is true of every header that is read.
structure Legible (h : Header) : Prop where
  shebang : h.shebang = "" ∨ Text.hasPrefix h.shebang "#!" = true
  shebang_value : IsValue h.shebang
  version : IsValue h.version
  author : IsValue h.author
  description : IsValue h.description
  dependencies : ∀ d ∈ h.dependencies, IsDependency d
  sorted : SortedTags h.others
  keys : ∀ tag ∈ h.others, IsKey tag.1
  values : ∀ tag ∈ h.others, IsValue tag.2

theorem isValue_trim {s : String} (h : '\n' ∉ s.toList) : IsValue (trim s) :=
  ⟨Text.trim_trim s, fun hmem => h ((Text.isInfix_trim s).subset hmem)⟩

theorem isValue_empty : IsValue "" := ⟨by decide +kernel, by simp⟩

theorem legible_empty : Legible {} where
  shebang := .inl rfl
  shebang_value := isValue_empty
  version := isValue_empty
  author := isValue_empty
  description := isValue_empty
  dependencies := nofun
  sorted := .nil
  keys := nofun
  values := nofun

theorem isDependency_of_ofRunes {w : List Text.Rune} (hne : w ≠ []) (h : ∀ r ∈ w, '\n' ∉ r.bytes) :
    IsDependency (Text.ofRunes w) := by
  refine ⟨fun hempty => ?_, fun hmem => ?_⟩
  · obtain ⟨r, rs, rfl⟩ := List.exists_cons_of_ne_nil hne
    have hbytes : (r :: rs).flatMap Text.Rune.bytes = [] := String.ofList_eq_empty_iff.mp hempty
    rw [List.flatMap_cons, List.append_eq_nil_iff] at hbytes
    exact Text.bytes_ne_nil r hbytes.1
  · rw [Text.ofRunes, String.toList_ofList] at hmem
    obtain ⟨r, hr, hbytes⟩ := List.mem_flatMap.mp hmem
    exact h r hr hbytes

theorem isDependency_of_mem {value d : String} (h : '\n' ∉ value.toList) (hd : d ∈ namesOf value) : IsDependency d := by
  have hbytes : ∀ r ∈ runes value, '\n' ∉ r.bytes := fun r hr hmem => by
    refine h ?_
    rw [← Text.flatMap_bytes_runesOf value.toList]
    exact List.mem_flatMap.mpr ⟨r, hr, hmem⟩
  have hmend : ∀ r ∈ runes value, '\n' ∉ (mend r).bytes := fun r hr hmem => by
    exact Text.value_ne (by decide) h hr (Text.eq_of_mem_utf8 (by decide) hmem).symm
  unfold namesOf at hd
  split at hd
  · rename_i ws hws
    unfold Text.shellWords at hws
    cases hsplit : Text.splitRunes .plain [] [] (runes value) with
    | error e =>
        rw [hsplit] at hws
        cases hws
    | ok words =>
        rw [hsplit] at hws
        cases hws
        obtain ⟨w, hw, rfl⟩ := List.mem_map.mp hd
        obtain ⟨hne, hall⟩ := Text.of_splitRunes (P := fun r => '\n' ∉ r.bytes) hsplit hmend (by decide)
          (by simp) (by simp) w hw
        exact isDependency_of_ofRunes hne hall
  · obtain ⟨w, hw, rfl⟩ := List.mem_map.mp hd
    obtain ⟨hne, hall⟩ := Text.of_mem_fieldRunes (P := fun r => '\n' ∉ r.bytes) (by simp) (fun r hr _ => hbytes r hr) w hw
    exact isDependency_of_ofRunes hne hall

theorem Legible.withTag {h : Header} {key value : String} (hlegible : h.Legible) (hkey : IsValue key)
    (hcut : ':' ∉ key.toList) (hvalue : IsValue value) : (h.withTag key value).Legible := by
  unfold Header.withTag
  split
  · exact { hlegible with version := hvalue }
  split
  · exact { hlegible with author := hvalue }
  split
  · exact { hlegible with description := hvalue }
  split
  · refine { hlegible with dependencies := fun d hd => ?_ }
    rcases List.mem_append.mp hd with hd | hd
    · exact hlegible.dependencies d hd
    · exact isDependency_of_mem hvalue.2 hd
  split
  · exact hlegible
  · rename_i hversion hauthor hdescription hdependency hempty
    have hothers : IsKey key := by
      refine ⟨hkey, by simpa using hempty, hcut, ?_⟩
      simp only [beq_iff_eq] at hversion hauthor hdescription hdependency
      simp [fieldNames, hversion, hauthor, hdescription, hdependency]
    refine { hlegible with sorted := sorted_insertTag hlegible.sorted, keys := ?_, values := ?_ }
    · intro tag htag
      rcases mem_insertTag htag with rfl | htag
      · exact hothers
      · exact hlegible.keys tag htag
    · intro tag htag
      rcases mem_insertTag htag with rfl | htag
      · exact hvalue
      · exact hlegible.values tag htag

theorem Legible.addTag {h : Header} {comment : String} (hlegible : h.Legible) (hcomment : '\n' ∉ comment.toList) :
    (h.addTag comment).Legible := by
  obtain heq | ⟨key, value, hlist, hcut, heq⟩ := addTag_cases h comment
  · rwa [heq]
  · rw [hlist] at hcomment
    have hkey : '\n' ∉ key.toList := fun hmem => hcomment (by simp [hmem])
    have hvalue : '\n' ∉ value.toList := fun hmem => hcomment (by simp [hmem])
    rw [heq]
    exact hlegible.withTag (isValue_trim hkey) (fun hmem => hcut ((Text.isInfix_trim key).subset hmem)) (isValue_trim hvalue)

theorem Legible.ofLines {lines : List String} (hlines : ∀ l ∈ lines, '\n' ∉ l.toList) (first : Bool) {h : Header}
    (hlegible : h.Legible) : (ofLines first h lines).Legible := by
  induction lines generalizing first h with
  | nil => exact hlegible
  | cons l lines ih =>
      obtain ⟨hl, hlines⟩ := List.forall_mem_cons.mp hlines
      have hvalue := isValue_trim hl
      rw [Header.ofLines]
      split
      · rename_i hfirst
        exact ih hlines false { hlegible with
          shebang := .inr (Bool.and_eq_true_iff.mp hfirst).2
          shebang_value := hvalue }
      split
      · exact ih hlines false hlegible
      split
      · refine ih hlines false (hlegible.addTag (isValue_trim ?_).2)
        rw [Text.trimLeftChars, String.toList_ofList]
        exact fun hmem => hvalue.2 ((List.dropWhile_suffix _).subset hmem)
      · exact hlegible

theorem legible_ofSource (src : String) : (ofSource src).Legible :=
  legible_empty.ofLines (fun _ hl => Text.not_mem_of_mem_splitAt hl) true

-- One line for each tag, behind the interpreter line.

def line (tag : String × String) : String := "# @" ++ tag.1 ++ ": " ++ tag.2

def tags (h : Header) : List (String × String) :=
  [("Version", h.version), ("Author", h.author), ("Description", h.description)]
    ++ (h.dependencies.map fun d => ("Dependency", quoteDependency d)) ++ h.others

def hasValue (tag : String × String) : Bool := !tag.2.isEmpty

def lines (h : Header) : List String :=
  (if h.shebang.isEmpty then [] else [h.shebang]) ++ (h.tags.filter hasValue).map line

theorem join_lines (tags : List (String × String)) :
    String.join (tags.map tagLine) = String.join (((tags.filter hasValue).map line).map (· ++ "\n")) := by
  induction tags with
  | nil => rfl
  | cons tag tags ih =>
      cases hempty : tag.2.isEmpty with
      | true => simp [hasValue, tagLine, hempty, ih]
      | false => simp [hasValue, tagLine, hempty, ih, line, String.append_assoc]

theorem text_eq (h : Header) :
    h.text = if h.lines = [] then "" else String.join ((h.lines ++ [""]).map (· ++ "\n")) := by
  have hlines : (if h.shebang.isEmpty then "" else h.shebang ++ "\n") ++ String.join (h.tags.map tagLine) =
      String.join (h.lines.map (· ++ "\n")) := by
    rw [join_lines, lines]
    split <;> simp
  have htext : h.text = if (String.join (h.lines.map (· ++ "\n"))).isEmpty then ""
      else String.join (h.lines.map (· ++ "\n")) ++ "\n" := by
    rw [← hlines]
    rfl
  rw [htext]
  cases h.lines with
  | nil => rfl
  | cons l ls =>
      rw [if_neg (by simp), if_neg (by simp)]
      simp [String.append_assoc]

-- A line that is written for a tag is read as that tag.
theorem ofLines_line {key value : String} (hkey : trim key = key) (hcut : ':' ∉ key.toList) (first : Bool) (h : Header)
    (ls : List String) : ofLines first h (line (key, value) :: ls) = ofLines false (h.withTag key (trim value)) ls := by
  have hline : (line (key, value)).toList = [] ++ '#' :: ((' ' :: '@' :: key.toList) ++ ':' :: ' ' :: value.toList) := by
    simp [line]
  have htrim := Text.trim_between (by decide) (by decide) (by decide) (by decide) hline
  generalize hl : trim (line (key, value)) = l at htrim
  have hcomment : (Text.trimLeftChars (· == '#') l).toList =
      [' '] ++ '@' :: (key.toList ++ ':' :: (Text.trimRight (String.ofList (' ' :: value.toList))).toList) := by
    rw [Text.trimLeftChars, String.toList_ofList, htrim]
    rfl
  have hcomment := Text.trim_between (by decide) (by decide) (by decide) (by decide) hcomment
  have htag := addTag_of_cut (h := h) hcomment hcut
  have hvalue : trim (String.ofList (' ' :: value.toList)) = trim value := by
    refine Text.runes_inj ?_
    rw [Text.runes_trim, Text.runes_trim, trimmed, trimmed, runes, String.toList_ofList, Text.runesOf_cons (by decide)]
    rfl
  rw [String.ofList_toList, Text.trim_trimRight, Text.trim_trimRight, hkey, hvalue] at htag
  rw [ofLines, hl]
  have hlist : ∃ cs, l.toList = '#' :: ' ' :: cs := ⟨_, htrim⟩
  obtain ⟨cs, hlist⟩ := hlist
  have hshebang : Text.hasPrefix l "#!" = false := by
    rw [Text.hasPrefix, hlist]
    rfl
  have hempty : l.isEmpty = false := by
    rw [String.isEmpty_eq_false_iff]
    rintro rfl
    cases hlist
  have hcomment : Text.hasPrefix l "#" = true := by simp [Text.hasPrefix, hlist]
  rw [hshebang, Bool.and_false, if_neg Bool.false_ne_true, hempty, if_neg Bool.false_ne_true, if_pos hcomment, htag]

def put (h : Header) (tag : String × String) : Header := h.withTag tag.1 (trim tag.2)

theorem ofLines_tags {tags : List (String × String)} (htags : ∀ tag ∈ tags, trim tag.1 = tag.1 ∧ ':' ∉ tag.1.toList)
    (h : Header) (ls : List String) : ofLines false h (tags.map line ++ ls) = ofLines false (tags.foldl put h) ls := by
  induction tags generalizing h with
  | nil => rfl
  | cons tag tags ih =>
      obtain ⟨⟨hkey, hcut⟩, htags⟩ := List.forall_mem_cons.mp htags
      rw [List.map_cons, List.cons_append, ofLines_line hkey hcut, ih htags]
      rfl

theorem ofLines_blank (first : Bool) (h : Header) (ls : List String) : ofLines first h ("" :: ls) = ofLines false h ls := by
  have hempty : trim "" = "" := isValue_empty.1
  have hshebang : Text.hasPrefix "" "#!" = false := rfl
  rw [ofLines, hempty, hshebang, Bool.and_false, if_neg Bool.false_ne_true, if_pos (by rfl)]

-- What a dependency is read back as.
def needsQuotes (d : String) : Bool := d.toList.any fun c => c == ' ' || c == '\t' || c == '\'' || c == '"' || c == '\\'

def rereadDependency (d : String) : List String := if needsQuotes d then [mended d] else Text.fields (mended d)

theorem quoteDependency_eq (d : String) :
    quoteDependency d = if needsQuotes d then "'" ++ Text.replaceChar '\'' Text.escapedQuote d ++ "'" else d := rfl

theorem namesOf_quoteDependency {d : String} (hd : d ≠ "") : namesOf (trim (quoteDependency d)) = rereadDependency d := by
  rw [quoteDependency_eq, rereadDependency]
  cases hquotes : needsQuotes d with
  | true =>
      rw [if_pos rfl, if_pos rfl]
      have hlist : ("'" ++ Text.replaceChar '\'' Text.escapedQuote d ++ "'").toList =
          [] ++ '\'' :: ((Text.replaceChar '\'' Text.escapedQuote d).toList ++ '\'' :: []) := by simp
      have htrim : trim ("'" ++ Text.replaceChar '\'' Text.escapedQuote d ++ "'") =
          "'" ++ Text.replaceChar '\'' Text.escapedQuote d ++ "'" := by
        refine String.toList_inj.mp ?_
        rw [Text.trim_between (by decide) (by decide) (by decide) (by decide) hlist, hlist]
        rfl
      rw [htrim, namesOf, Text.shellWords_quoted hd]
  | false =>
      rw [if_neg Bool.false_ne_true, if_neg Bool.false_ne_true]
      have hbare : ∀ c ∈ (trim d).toList, c ≠ '\'' ∧ c ≠ '"' ∧ c ≠ '\\' := by
        intro c hc
        have hfree := List.any_eq_false.mp hquotes c ((Text.isInfix_trim d).subset hc)
        simp only [Bool.or_eq_true, beq_iff_eq, not_or] at hfree
        exact ⟨hfree.1.1.2, hfree.1.2, hfree.2⟩
      rw [namesOf, Text.shellWords_bare hbare, Text.mended_trim, Text.fields_trim]

-- What the header is read back as.
def reread (h : Header) : Header :=
  { h with dependencies := h.dependencies.flatMap rereadDependency, others := h.others.filter hasValue }

def putWritten (h : Header) (tag : String × String) : Header := if hasValue tag then h.put tag else h

theorem quoteDependency_ne_empty {d : String} (hd : d ≠ "") : quoteDependency d ≠ "" := by
  rw [quoteDependency_eq]
  split
  · simp
  · exact hd

theorem put_dependencies {deps : List String} (hdeps : ∀ d ∈ deps, IsDependency d) (h : Header) :
    (deps.map fun d => ("Dependency", quoteDependency d)).foldl putWritten h =
      { h with dependencies := h.dependencies ++ deps.flatMap rereadDependency } := by
  induction deps generalizing h with
  | nil => simp
  | cons d deps ih =>
      obtain ⟨hd, hdeps⟩ := List.forall_mem_cons.mp hdeps
      have hvalue : hasValue ("Dependency", quoteDependency d) = true := by
        simp [hasValue, quoteDependency_ne_empty hd.1]
      have hput : putWritten h ("Dependency", quoteDependency d) =
          { h with dependencies := h.dependencies ++ rereadDependency d } := by
        rw [putWritten, if_pos hvalue, put, ← namesOf_quoteDependency hd.1]
        rfl
      rw [List.map_cons, List.foldl_cons, hput, ih hdeps]
      simp

theorem put_others {tags : List (String × String)} (hsorted : SortedTags tags) (hkeys : ∀ tag ∈ tags, IsKey tag.1)
    (hvalues : ∀ tag ∈ tags, IsValue tag.2) {h : Header}
    (hbefore : ∀ t ∈ h.others, ∀ tag ∈ tags, Text.compare t.1 tag.1 = .lt) :
    tags.foldl putWritten h = { h with others := h.others ++ tags.filter hasValue } := by
  induction tags generalizing h with
  | nil => simp
  | cons tag tags ih =>
      obtain ⟨hfirst, hsorted⟩ := List.pairwise_cons.mp hsorted
      obtain ⟨hkey, hkeys⟩ := List.forall_mem_cons.mp hkeys
      obtain ⟨hvalue, hvalues⟩ := List.forall_mem_cons.mp hvalues
      rw [List.foldl_cons]
      cases hwritten : hasValue tag with
      | false =>
          have hput : putWritten h tag = h := by rw [putWritten, if_neg (by simp [hwritten])]
          rw [hput, ih hsorted hkeys hvalues fun t ht u hu => hbefore t ht u (List.mem_cons_of_mem _ hu)]
          simp [hwritten]
      | true =>
          have hother := hkey.other
          simp only [fieldNames, List.mem_cons, List.not_mem_nil, or_false, not_or] at hother
          have hput : putWritten h tag = { h with others := h.others ++ [tag] } := by
            rw [putWritten, if_pos hwritten, put, hvalue.1, withTag, if_neg (by simpa using hother.1),
              if_neg (by simpa using hother.2.1), if_neg (by simpa using hother.2.2.1), if_neg (by simpa using hother.2.2.2),
              if_neg (by simpa using hkey.ne_empty), insertTag_of_lt fun t ht => hbefore t ht tag List.mem_cons_self]
          rw [hput, ih hsorted hkeys hvalues]
          · simp [hwritten]
          · intro t ht u hu
            rcases List.mem_append.mp ht with ht | ht
            · exact hbefore t ht u (List.mem_cons_of_mem _ hu)
            · rw [List.mem_singleton.mp ht]
              exact hfirst u hu

theorem put_field {h : Header} {key value : String} (hvalue : IsValue value) :
    h.putWritten (key, value) = if value = "" then h else h.withTag key value := by
  rw [putWritten, put, hvalue.1]
  simp [hasValue]

theorem put_tags {h : Header} (hlegible : h.Legible) :
    (h.tags.filter hasValue).foldl put { shebang := h.shebang } = h.reread := by
  have hfields : [("Version", h.version), ("Author", h.author), ("Description", h.description)].foldl putWritten
      { shebang := h.shebang } =
      { shebang := h.shebang, version := h.version, author := h.author, description := h.description } := by
    have hversion : putWritten { shebang := h.shebang } ("Version", h.version) =
        { shebang := h.shebang, version := h.version } := by
      rw [put_field hlegible.version]
      split
      · rename_i hempty
        rw [hempty]
      · rfl
    have hauthor : putWritten { shebang := h.shebang, version := h.version } ("Author", h.author) =
        { shebang := h.shebang, version := h.version, author := h.author } := by
      rw [put_field hlegible.author]
      split
      · rename_i hempty
        rw [hempty]
      · rfl
    rw [List.foldl_cons, hversion, List.foldl_cons, hauthor, List.foldl_cons, List.foldl_nil,
      put_field hlegible.description]
    split
    · rename_i hempty
      rw [hempty]
    · rfl
  rw [List.foldl_filter]
  change h.tags.foldl putWritten _ = _
  rw [tags, List.foldl_append, List.foldl_append, hfields, put_dependencies hlegible.dependencies,
    put_others hlegible.sorted hlegible.keys hlegible.values (by simp)]
  rfl

theorem newline_free_quoteDependency {d : String} (hd : '\n' ∉ d.toList) : '\n' ∉ (quoteDependency d).toList := by
  rw [quoteDependency_eq]
  split
  · have hquoted : '\n' ∉ (Text.replaceChar '\'' Text.escapedQuote d).toList := by
      rw [Text.replaceChar, String.toList_ofList, List.mem_flatMap]
      rintro ⟨x, hx, hmem⟩
      split at hmem
      · exact absurd hmem (by decide)
      · rw [List.mem_singleton.mp hmem] at hd
        exact hd hx
    simpa using hquoted
  · exact hd

theorem of_mem_tags {h : Header} (hlegible : h.Legible) {tag : String × String} (htag : tag ∈ h.tags) :
    (tag.1 ∈ fieldNames ∨ IsKey tag.1) ∧ '\n' ∉ tag.2.toList := by
  rcases List.mem_append.mp htag with htag | htag
  · rcases List.mem_append.mp htag with htag | htag
    · rcases List.mem_cons.mp htag with rfl | htag
      · exact ⟨.inl (by simp [fieldNames]), hlegible.version.2⟩
      rcases List.mem_cons.mp htag with rfl | htag
      · exact ⟨.inl (by simp [fieldNames]), hlegible.author.2⟩
      rw [List.mem_singleton.mp htag]
      exact ⟨.inl (by simp [fieldNames]), hlegible.description.2⟩
    · obtain ⟨d, hd, rfl⟩ := List.mem_map.mp htag
      exact ⟨.inl (by simp [fieldNames]), newline_free_quoteDependency (hlegible.dependencies d hd).2⟩
  · exact ⟨.inr (hlegible.keys tag htag), (hlegible.values tag htag).2⟩

theorem name_of_mem_tags {h : Header} (hlegible : h.Legible) {tag : String × String} (htag : tag ∈ h.tags) :
    IsValue tag.1 ∧ ':' ∉ tag.1.toList := by
  obtain hname | hkey := (of_mem_tags hlegible htag).1
  · have hall : ∀ name ∈ fieldNames, (trim name = name ∧ '\n' ∉ name.toList) ∧ ':' ∉ name.toList := by decide +kernel
    exact hall _ hname
  · exact ⟨hkey.value, hkey.cut⟩

theorem newline_free_lines {h : Header} (hlegible : h.Legible) : ∀ l ∈ h.lines, '\n' ∉ l.toList := by
  intro l hl
  rcases List.mem_append.mp hl with hl | hl
  · split at hl
    · cases hl
    · rw [List.mem_singleton.mp hl]
      exact hlegible.shebang_value.2
  · obtain ⟨tag, htag, rfl⟩ := List.mem_map.mp hl
    have hmem := (List.mem_filter.mp htag).1
    simpa [line] using And.intro (name_of_mem_tags hlegible hmem).1.2 (of_mem_tags hlegible hmem).2

-- The lines of a header are read as the header with its dependencies read back and its empty tags left out.
theorem ofLines_lines {h : Header} (hlegible : h.Legible) (ls : List String) :
    ofLines true {} (h.lines ++ "" :: ls) = ofLines false h.reread ls := by
  have htidy : ∀ tag ∈ h.tags.filter hasValue, trim tag.1 = tag.1 ∧ ':' ∉ tag.1.toList := fun tag htag =>
    have hname := name_of_mem_tags hlegible (List.mem_filter.mp htag).1
    ⟨hname.1.1, hname.2⟩
  have hread := ofLines_tags htidy { shebang := h.shebang } ("" :: ls)
  rw [put_tags hlegible, ofLines_blank] at hread
  rw [← hread, lines]
  cases hshebang : h.shebang.isEmpty with
  | false =>
      have hprefix : Text.hasPrefix h.shebang "#!" = true :=
        hlegible.shebang.resolve_left fun hempty => by simp [hempty] at hshebang
      rw [if_neg Bool.false_ne_true, List.append_assoc, List.singleton_append, ofLines, hlegible.shebang_value.1, hprefix]
      rfl
  | true =>
      have hempty : h.shebang = "" := by simpa using hshebang
      rw [if_pos rfl, List.nil_append, hempty]
      cases htags : h.tags.filter hasValue with
      | nil => exact (ofLines_blank true {} ls).trans (ofLines_blank false {} ls).symm
      | cons tag tags =>
          rw [htags] at htidy
          obtain ⟨hkey, hcut⟩ := htidy tag List.mem_cons_self
          rw [List.map_cons, List.cons_append, ofLines_line hkey hcut, ofLines_line hkey hcut]

theorem ofSource_text {h : Header} (hlegible : h.Legible) (rest : String) :
    ofSource (h.text ++ rest) = ofLines h.text.isEmpty h.reread (Text.splitAt '\n' rest) := by
  rw [ofSource, text_eq]
  cases hlines : h.lines with
  | nil =>
      have hreread : h.reread = {} := by
        have hshebang : h.shebang = "" := by
          by_contra hne
          simp [lines, hne] at hlines
        have hwritten : h.tags.filter hasValue = [] := by
          rw [lines] at hlines
          exact List.map_eq_nil_iff.mp (List.append_eq_nil_iff.mp hlines).2
        rw [← put_tags hlegible, hwritten, hshebang]
        rfl
      rw [if_pos rfl, String.empty_append, hreread]
      rfl
  | cons l ls =>
      rw [if_neg (List.cons_ne_nil _ _), ← hlines, Text.splitAt_lines, List.append_assoc, List.singleton_append,
        ofLines_lines hlegible]
      · have hwritten : (String.join ((h.lines ++ [""]).map (· ++ "\n"))).isEmpty = false := by simp [hlines]
        rw [hwritten]
      · intro l hl
        rcases List.mem_append.mp hl with hl | hl
        · exact newline_free_lines hlegible l hl
        · rw [List.mem_singleton.mp hl]
          simp

-- What is read back as it was.

-- All bytes of the dependency are characters, and white space in it makes the printer put it between quotes.
def Kept (d : String) : Prop := Text.IsValid d ∧ (needsQuotes d = true ∨ ∀ r ∈ runes d, r.isSpace = false)

instance (s : String) : Decidable (Text.IsValid s) :=
  inferInstanceAs (Decidable (∀ r ∈ runes s, mend r = r))

instance (d : String) : Decidable (Kept d) :=
  inferInstanceAs (Decidable (Text.IsValid d ∧ (needsQuotes d = true ∨ ∀ r ∈ runes d, r.isSpace = false)))

structure Lasting (h : Header) : Prop where
  values : ∀ tag ∈ h.others, tag.2 ≠ ""
  dependencies : ∀ d ∈ h.dependencies, Kept d

instance (h : Header) : Decidable h.Lasting :=
  decidable_of_iff ((∀ tag ∈ h.others, tag.2 ≠ "") ∧ ∀ d ∈ h.dependencies, Kept d)
    ⟨fun ⟨hvalues, hkept⟩ => ⟨hvalues, hkept⟩, fun ⟨hvalues, hkept⟩ => ⟨hvalues, hkept⟩⟩

theorem rereadDependency_of_kept {d : String} (hd : d ≠ "") (h : Kept d) : rereadDependency d = [d] := by
  rw [rereadDependency, Text.mended_of_isValid h.1]
  split
  · rfl
  · rename_i hquotes
    have hsolid := h.2.resolve_left hquotes
    have hrunes : ([] : List Text.Rune).reverse ++ runes d ≠ [] := Text.runes_ne_nil hd
    rw [Text.fields, Text.fieldRunes_solid hsolid, if_neg hrunes]
    exact congrArg (fun s => [s]) (Text.ofRunes_runes d)

theorem needsQuotes_mended {d : String} (h : needsQuotes d = true) : needsQuotes (mended d) = true := by
  obtain ⟨c, hc, hquote⟩ := List.any_eq_true.mp h
  refine List.any_eq_true.mpr ⟨c, ?_, hquote⟩
  have hascii : c.toNat < 0x80 := by
    simp only [Bool.or_eq_true, beq_iff_eq] at hquote
    rcases hquote with (((rfl | rfl) | rfl) | rfl) | rfl <;> decide
  have hmem : mend (.char c) ∈ (runes d).map mend := List.mem_map_of_mem ((Text.mem_runesOf hascii).mpr hc)
  rw [← Text.runes_mended] at hmem
  exact (Text.mem_runesOf hascii).mp hmem

-- What is read back once is read back again.
theorem kept_of_mem {d e : String} (hd : d ≠ "") (he : e ∈ rereadDependency d) : e ≠ "" ∧ Kept e := by
  rw [rereadDependency] at he
  split at he
  · rename_i hquotes
    rw [List.mem_singleton.mp he]
    refine ⟨fun hempty => ?_, Text.isValid_mended d, .inl (needsQuotes_mended hquotes)⟩
    have hnil : (runes d).map mend = [] := by
      rw [← Text.runes_mended, hempty]
      rfl
    exact Text.runes_ne_nil hd (List.map_eq_nil_iff.mp hnil)
  · obtain ⟨w, hw, rfl⟩ := List.mem_map.mp he
    have hvalid : ∀ r ∈ runes (mended d), r.isSpace = false → mend r = r ∧ r.isSpace = false := fun r hr hspace =>
      ⟨Text.isValid_mended d r hr, hspace⟩
    obtain ⟨hne, hall⟩ := Text.of_mem_fieldRunes (P := fun r => mend r = r ∧ r.isSpace = false) (by simp) hvalid w hw
    have hrunes : runes (Text.ofRunes w) = w := Text.runes_ofRunes_of_mend fun r hr => (hall r hr).1
    refine ⟨fun hempty => hne ?_, ?_, .inr ?_⟩
    · rw [← hrunes, hempty]
      rfl
    · rw [Text.IsValid, hrunes]
      exact fun r hr => (hall r hr).1
    · rw [hrunes]
      exact fun r hr => (hall r hr).2

theorem flatMap_rereadDependency {deps : List String} (hdeps : ∀ d ∈ deps, d ≠ "") :
    deps.flatMap rereadDependency = deps ↔ ∀ d ∈ deps, Kept d := by
  constructor
  · intro h d hd
    rw [← h] at hd
    obtain ⟨d', hd', hmem⟩ := List.mem_flatMap.mp hd
    exact (kept_of_mem (hdeps d' hd') hmem).2
  · intro h
    rw [List.flatMap_congr fun d hd => rereadDependency_of_kept (hdeps d hd) (h d hd)]
    simp

theorem reread_eq_self {h : Header} (hlegible : h.Legible) : h.reread = h ↔ h.Lasting := by
  have hdeps := flatMap_rereadDependency fun d hd => (hlegible.dependencies d hd).1
  have hothers : h.others.filter hasValue = h.others ↔ ∀ tag ∈ h.others, tag.2 ≠ "" := by
    rw [List.filter_eq_self]
    simp [hasValue]
  constructor
  · intro h'
    exact ⟨hothers.mp (congrArg others h'), hdeps.mp (congrArg dependencies h')⟩
  · rintro ⟨hvalues, hkept⟩
    rw [reread, hdeps.mpr hkept, hothers.mpr hvalues]

-- A line that begins with neither white space nor a number sign ends the header.
theorem ofLines_of_head {l : String} {r : Text.Rune} (hhead : (runes l).head? = some r) (hspace : r.isSpace = false)
    (hsign : r ≠ .char '#') (first : Bool) (h : Header) (ls : List String) : ofLines first h (l :: ls) = h := by
  obtain ⟨rs, hrunes⟩ := List.head?_eq_some_iff.mp hhead
  have htrim : runes (trim l) = r :: rs.rdropWhile Text.Rune.isSpace := by
    have hmid := Text.rdropWhile_append_cons hspace [] rs
    rw [Text.runes_trim, trimmed, hrunes, List.dropWhile_cons_of_neg (by simp [hspace])]
    exact hmid
  have hplain : ∀ cs, (trim l).toList ≠ '#' :: cs := by
    intro cs hcs
    rw [runes, hcs, Text.runesOf_cons (by decide)] at htrim
    exact hsign (List.cons.inj htrim).1.symm
  have hnoprefix (p : String) (ps : List Char) (hp : p.toList = '#' :: ps) : Text.hasPrefix (trim l) p = false := by
    rw [Text.hasPrefix, hp]
    cases hcs : (trim l).toList with
    | nil => rfl
    | cons c cs =>
        have hc : ('#' == c) = false := beq_false_of_ne fun heq => hplain cs (heq ▸ hcs)
        rw [List.isPrefixOf_cons_cons, hc, Bool.false_and]
  have hempty : (trim l).isEmpty = false := by
    rw [String.isEmpty_eq_false_iff]
    intro hempty
    rw [hempty] at htrim
    cases htrim
  rw [ofLines, hnoprefix "#!" ['!'] rfl, Bool.and_false, if_neg Bool.false_ne_true, hempty,
    if_neg Bool.false_ne_true, hnoprefix "#" [] rfl, if_neg Bool.false_ne_true]

-- A text that begins with neither has no header.
theorem ofLines_of_plain {s : String} (hplain : Plain s.toList) (hspace : ∀ r ∈ (runes s).head?, r.isSpace = false)
    (first : Bool) (h : Header) : ofLines first h (Text.splitAt '\n' s) = h := by
  by_cases hempty : s = ""
  · rw [hempty, Text.splitAt_of_not_mem (by simp)]
    exact ofLines_blank first h []
  obtain ⟨r, rs, hrunes⟩ := List.exists_cons_of_ne_nil (Text.runes_ne_nil hempty)
  have hsolid : r.isSpace = false := hspace r (by simp [hrunes])
  have hsign : r ≠ .char '#' := by
    rintro rfl
    have hbytes : s.toList = '#' :: rs.flatMap Text.Rune.bytes := by
      have hback := Text.flatMap_bytes_runesOf s.toList
      rw [show Text.runesOf s.toList = _ from hrunes] at hback
      exact hback.symm
    rw [hbytes] at hplain
    exact hplain rfl
  by_cases hmem : '\n' ∈ s.toList
  · obtain ⟨xs, ys, hlist, hxs⟩ := List.eq_append_cons_of_mem hmem
    have hpieces : Text.splitAt '\n' s = String.ofList xs :: (Text.splitList '\n' ys).map String.ofList := by
      rw [Text.splitAt, hlist, Text.splitList_append, Text.splitList_of_not_mem hxs]
      rfl
    have hhead : (runes (String.ofList xs)).head? = some r := by
      have hcut := Text.runes_append_cons (c := '\n') (by decide) hlist
      rw [hrunes] at hcut
      rw [runes, String.toList_ofList]
      cases hfirst : Text.runesOf xs with
      | nil =>
          rw [hfirst] at hcut
          rw [(List.cons.inj hcut).1] at hsolid
          exact absurd hsolid (by decide)
      | cons r' rs' =>
          rw [hfirst] at hcut
          rw [(List.cons.inj hcut).1]
          rfl
    rw [hpieces]
    exact ofLines_of_head hhead hsolid hsign first h _
  · rw [Text.splitAt_of_not_mem hmem]
    exact ofLines_of_head (by rw [hrunes]; rfl) hsolid hsign first h []

end Header

attribute [local irreducible] Read.textAt

theorem header_read {dialect : Option Dialect} {name src : String} (h : (read dialect name src).isFatal = false) :
    (read dialect name src).header = Header.ofSource src := by
  obtain ⟨d, hd⟩ := exists_readAs h
  rw [hd]
  rfl

-- The header of a script that is written out. All of it is read again but tags without a value, and each dependency as
-- the words that are left of it; where the commands begin with white space that is no blank for the shell, lines of
-- theirs may be read as more of it. So a header is read as it was just if it has no such tag and no such dependency.
theorem header_of_text (dialect : Option Dialect) (name src : String) (hsound : (read dialect name src).isFatal = false) :
    let f := read dialect name src
    Header.ofSource f.text = Header.ofLines f.header.text.isEmpty f.header.reread (Text.splitAt '\n' f.body.text) ∧
    ((∀ r ∈ (runes f.body.text).head?, r.isSpace = false) →
      Header.ofSource f.text = f.header.reread ∧ (Header.ofSource f.text = f.header ↔ f.header.Lasting)) := by
  intro f
  have hlegible : f.header.Legible := by
    rw [header_read hsound]
    exact Header.legible_ofSource src
  have htext : Header.ofSource f.text =
      Header.ofLines f.header.text.isEmpty f.header.reread (Text.splitAt '\n' f.body.text) :=
    Header.ofSource_text hlegible f.body.text
  refine ⟨htext, fun hspace => ?_⟩
  rw [htext, Header.ofLines_of_plain (plain_body hsound) hspace]
  exact ⟨rfl, Header.reread_eq_self hlegible⟩

def oddName : String := "# @Dependency: 'a b'\necho\n"

theorem header_of_odd_name :
    let f := read (some .bash) "t" oddName
    f.isFatal = false ∧ f.header.dependencies = ["a b"] ∧ Header.ofSource f.text = f.header := by
  intro f
  obtain ⟨hsound, hbody⟩ : f.isFatal = false ∧ ∀ r ∈ (runes f.body.text).head?, r.isSpace = false := by decide +kernel
  have hheader : Header.ofSource oddName = { dependencies := ["a b"] } := by decide +kernel
  have hback := ((header_of_text (some .bash) "t" oddName hsound).2 hbody).2
  rw [header_read hsound, hheader] at hback
  rw [header_read hsound, hheader]
  exact ⟨hsound, rfl, hback.mpr (by decide +kernel)⟩

-- White space that is neither a blank nor a tab stands in a dependency without quotes, and is read as the end of it.
def verticalTab : String := "# @Dependency: 'a\x0bb'\necho\n"

theorem dependency_is_split :
    let f := read (some .bash) "t" verticalTab
    f.isFatal = false ∧ f.header.dependencies = ["a\x0bb"] ∧ (Header.ofSource f.text).dependencies = ["a", "b"] := by
  intro f
  obtain ⟨hsound, htext⟩ : f.isFatal = false ∧ f.text = "# @Dependency: a\x0bb\n\necho\n" := by decide +kernel
  rw [htext, header_read hsound]
  exact ⟨hsound, by decide +kernel⟩

end Script
end ShellScript

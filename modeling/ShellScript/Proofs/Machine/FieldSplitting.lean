import Mathlib.Data.List.DropRight
import Mathlib.Data.List.TakeWhile
import ShellScript.Machine.Command.Input
import ShellScript.Proofs.Machine.Spelling
import ShellScript.Proofs.Text.Characters

-- The splitting of values into fields, once as the pieces between separators and once character by character, and the
-- fields of a word that is just an unquoted list.
namespace ShellScript
namespace Machine

section Pieces

variable {α : Type} (sep blank : α → Bool)

-- What comes after one divider: blank separators and at most one other separator among them.
def pastDivider (cs : List α) : List α :=
  match cs.dropWhile blank with
  | c :: more => if sep c && !blank c then more.dropWhile blank else c :: more
  | [] => []

theorem length_pastDivider_le (cs : List α) : (pastDivider sep blank cs).length ≤ cs.length := by
  have hblank := List.length_dropWhile_le blank cs
  unfold pastDivider
  split
  · rename_i c more hcs
    rw [hcs] at hblank
    have hmore := List.length_dropWhile_le blank more
    split <;> grind
  · simp

-- A divider is not empty.
theorem length_pastDivider_lt {cs : List α} (hne : cs ≠ []) :
    (pastDivider sep blank (cs.dropWhile fun c => !sep c)).length < cs.length := by
  cases cs with
  | nil => exact absurd rfl hne
  | cons c cs =>
      by_cases hc : sep c
      · have hlen := List.length_dropWhile_le blank cs
        simp only [hc, List.dropWhile_cons, Bool.not_true, Bool.false_eq_true, if_false]
        by_cases hb : blank c
        · have hpast : pastDivider sep blank (c :: cs) = pastDivider sep blank cs := by
            simp [pastDivider, hb]
          rw [hpast]
          exact Nat.lt_succ_of_le (length_pastDivider_le sep blank cs)
        · have hpast : pastDivider sep blank (c :: cs) = cs.dropWhile blank := by
            simp [pastDivider, hb, hc]
          rw [hpast]
          exact Nat.lt_succ_of_le hlen
      · have htail := length_pastDivider_le sep blank (cs.dropWhile fun c => !sep c)
        have hlen := List.length_dropWhile_le (fun c => !sep c) cs
        simp only [hc, List.dropWhile_cons, Bool.not_false, if_true, List.length_cons]
        omega

-- The pieces of a text, at most `limit` of them when there is one; the last one takes the rest.
def pieces (limit : Option Nat) (cs : List α) : List (List α) :=
  if hne : cs = [] then []
  else if limit = some 1 then [cs]
  else cs.takeWhile (fun c => !sep c) ::
    pieces (limit.map (· - 1)) (pastDivider sep blank (cs.dropWhile fun c => !sep c))
termination_by cs.length
decreasing_by exact length_pastDivider_lt sep blank hne

theorem pieces_nil (limit : Option Nat) : pieces sep blank limit [] = [] := by
  rw [pieces, dif_pos rfl]

theorem pieces_of_ne {limit : Option Nat} {cs : List α} (hne : cs ≠ []) (hlimit : limit ≠ some 1) :
    pieces sep blank limit cs = cs.takeWhile (fun c => !sep c) ::
      pieces sep blank (limit.map (· - 1)) (pastDivider sep blank (cs.dropWhile fun c => !sep c)) := by
  rw [pieces, dif_neg hne, if_neg hlimit]

theorem head_dropWhile {cs : List α} {c : α} (h : c ∈ (cs.dropWhile blank).head?) : blank c = false := by
  have hnot := List.head?_dropWhile_not blank cs
  rw [Option.mem_def.mp h] at hnot
  simpa using hnot

-- Nothing blank is left of the divider.
theorem head_pastDivider {cs : List α} {c : α} (h : c ∈ (pastDivider sep blank cs).head?) : blank c = false := by
  unfold pastDivider at h
  split at h
  · rename_i d more hcs
    split at h
    · exact head_dropWhile blank h
    · exact head_dropWhile blank (hcs ▸ h)
  · simp at h

-- Without what is blank at either end.
def trimmed (cs : List α) : List α := (cs.dropWhile blank).rdropWhile blank

theorem trimmed_append (cs : List α) : trimmed blank cs ++ (cs.dropWhile blank).rtakeWhile blank = cs.dropWhile blank :=
  List.rdropWhile_append_rtakeWhile

theorem head_trimmed {cs : List α} {c : α} (h : c ∈ (trimmed blank cs).head?) : blank c = false := by
  have hhead : c ∈ (cs.dropWhile blank).head? := by
    rw [← trimmed_append, List.head?_append, Option.mem_def.mp h]
    rfl
  exact head_dropWhile blank hhead

end Pieces

namespace Command

theorem splitFields_cons (sep blank : Char → Bool) (limit : Option Nat) (n count : Nat) {cs : List Char}
    (hne : cs ≠ []) :
    splitFields sep blank limit (n + 1) count cs =
      if limit.any (count + 1 == ·) then [String.ofList cs]
      else String.ofList (cs.takeWhile fun c => !sep c) ::
        splitFields sep blank limit n (count + 1) (pastDivider sep blank (cs.dropWhile fun c => !sep c)) := by
  have hempty : cs.isEmpty = false := by simpa using hne
  rw [splitFields, hempty]
  dsimp only
  rw [drop_length_takeWhile, pastDivider]
  cases (cs.dropWhile fun c => !sep c).dropWhile blank <;> rfl

theorem splitFields_eq_pieces (sep blank : Char → Bool) {limit : Option Nat} {n count : Nat} {cs : List Char}
    (hn : cs.length < n) (hcount : ∀ k ∈ limit, count < k) :
    splitFields sep blank limit n count cs = (pieces sep blank (limit.map (· - count)) cs).map String.ofList := by
  induction n generalizing count cs with
  | zero => omega
  | succ n ih =>
      by_cases hne : cs = []
      · rw [hne, pieces_nil]
        rfl
      rw [splitFields_cons sep blank limit n count hne]
      have hshort := Nat.lt_of_lt_of_le (length_pastDivider_lt sep blank hne) (Nat.le_of_lt_succ hn)
      cases limit with
      | none =>
          rw [pieces_of_ne sep blank hne (by simp), ih hshort (by simp)]
          rfl
      | some k =>
          have hk := hcount k rfl
          by_cases hlast : count + 1 = k
          · have hone : (some k).map (· - count) = some 1 := by
              simp only [Option.map_some, Option.some.injEq]
              omega
            rw [pieces, dif_neg hne, if_pos hone, if_pos (by simpa using hlast)]
            rfl
          · have hmore : (some k).map (· - count) ≠ some 1 := by
              simp only [Option.map_some, ne_eq, Option.some.injEq]
              omega
            rw [pieces_of_ne sep blank hne hmore, if_neg (by simpa using hlast), ih hshort (fun k' h => by cases h; omega)]
            simp [Nat.sub_sub]

end Command

namespace Fields

-- A separator that is blank.
def isBlankSep (separators : List Char) (c : Char) : Bool := separators.contains c && isBlank c

end Fields

theorem Command.splitLine_eq (separators : String) {limit : Option Nat} (hlimit : ∀ k ∈ limit, 0 < k) (line : String) :
    splitLine separators limit line =
      (pieces separators.toList.contains (Fields.isBlankSep separators.toList) limit
        (trimmed (Fields.isBlankSep separators.toList) line.toList)).map String.ofList := by
  have hsub : limit.map (· - 0) = limit := by cases limit <;> rfl
  refine (splitFields_eq_pieces _ _ (Nat.lt_succ_self _) hlimit).trans ?_
  rw [hsub]
  rfl

namespace Fields

-- The same fields behind others that are done already, the last one of which comes first.
def after (done : List (List Fragment)) (f : Fields) : Fields := { f with done := f.done ++ done }

-- The current field is done, if there is one.
def closed (f : Fields) : Fields := if f.opened then f.flush else f

-- The texts of the fields.
def texts (f : Fields) : List String := f.finish.map Fragment.plain

section

variable (separators : List Char) (done : List (List Fragment)) (f : Fields)

@[simp] theorem opened_after : (f.after done).opened = f.opened := rfl

@[simp] theorem flush_after : (f.after done).flush = f.flush.after done := rfl

@[simp] theorem addWord_after (cs : List Char) : (f.after done).addWord cs = (f.addWord cs).after done := by
  unfold addWord
  split <;> rfl

@[simp] theorem closed_after : (f.after done).closed = f.closed.after done := by
  unfold closed
  rw [opened_after]
  split <;> rfl

theorem finish_after : (f.after done).finish = done.reverse ++ f.finish := by
  have hdone : (f.after done).finish = (if f.opened || !f.current.isEmpty then f.flush.after done else f.after done).done.reverse :=
    rfl
  rw [hdone, finish]
  split <;> simp [after]

theorem opened_closed : f.closed.opened = false := by
  unfold closed
  split
  · rfl
  · simpa using ‹¬f.opened = true›

theorem opened_addWord {w : List Char} (hw : w ≠ []) : (f.addWord w).opened = true := by
  simp [addWord, hw, add]

theorem finish_closed : f.closed.finish = f.finish := by
  unfold closed
  split
  · rename_i hopened
    simp [finish, hopened, flush]
  · rfl

-- One step of the splitting.

theorem splitFrom_word_cons (cs : List Char) (c : Char) (rest : List Char) :
    splitFrom separators (.word cs) f (c :: rest) =
      if !separators.contains c then splitFrom separators (.word (c :: cs)) f rest
      else if isBlank c then splitFrom separators .blank (f.addWord cs) rest
      else splitFrom separators .hard (f.addWord cs).flush rest := rfl

theorem splitFrom_blank_cons (c : Char) (rest : List Char) :
    splitFrom separators .blank f (c :: rest) =
      if !separators.contains c then splitFrom separators (.word [c]) f.closed rest
      else if isBlank c then splitFrom separators .blank f rest
      else splitFrom separators .hard f.flush rest := rfl

theorem splitFrom_hard_cons (c : Char) (rest : List Char) :
    splitFrom separators .hard f (c :: rest) =
      if !separators.contains c then splitFrom separators (.word [c]) f rest
      else if isBlank c then splitFrom separators .hard f rest
      else splitFrom separators .hard f.flush rest := rfl

-- Where one more character leads.
def step : Place × Fields → Char → Place × Fields
  | (.word w, f), c =>
    if !separators.contains c then (.word (c :: w), f)
    else if isBlank c then (.blank, f.addWord w) else (.hard, (f.addWord w).flush)
  | (.blank, f), c =>
    if !separators.contains c then (.word [c], f.closed) else if isBlank c then (.blank, f) else (.hard, f.flush)
  | (.hard, f), c =>
    if !separators.contains c then (.word [c], f) else if isBlank c then (.hard, f) else (.hard, f.flush)

-- The fields at the end of the text.
def ending : Place × Fields → Fields
  | (.word w, f) => f.addWord w
  | (.blank, f) => f.closed
  | (.hard, f) => f

theorem splitFrom_eq_foldl (place : Place) (cs : List Char) :
    splitFrom separators place f cs = ending (cs.foldl (step separators) (place, f)) := by
  induction cs generalizing place f with
  | nil => cases place <;> rfl
  | cons c cs ih =>
      rw [List.foldl_cons]
      cases place with
      | word w =>
          rw [splitFrom_word_cons, step, ih, ih, ih]
          split <;> [rfl; split <;> rfl]
      | blank =>
          rw [splitFrom_blank_cons, step, ih, ih, ih]
          split <;> [rfl; split <;> rfl]
      | hard =>
          rw [splitFrom_hard_cons, step, ih, ih, ih]
          split <;> [rfl; split <;> rfl]

theorem ending_after (place : Place) : ending (place, f.after done) = (ending (place, f)).after done := by
  cases place with
  | word w => exact addWord_after done f w
  | blank => exact closed_after done f
  | hard => rfl

theorem step_after (place : Place) (c : Char) :
    step separators (place, f.after done) c =
      ((step separators (place, f) c).1, (step separators (place, f) c).2.after done) := by
  cases place with
  | word w =>
      rw [step, step, addWord_after, flush_after]
      split <;> [rfl; split <;> rfl]
  | blank =>
      rw [step, step, closed_after, flush_after]
      split <;> [rfl; split <;> rfl]
  | hard =>
      rw [step, step, flush_after]
      split <;> [rfl; split <;> rfl]

theorem splitFrom_after (place : Place) (cs : List Char) :
    splitFrom separators place (f.after done) cs = (splitFrom separators place f cs).after done := by
  rw [splitFrom_eq_foldl, splitFrom_eq_foldl]
  induction cs generalizing place f with
  | nil => exact ending_after done f place
  | cons c cs ih =>
      rw [List.foldl_cons, List.foldl_cons, step_after]
      exact ih _ _

end

section

variable (separators : List Char)

theorem addWord_nil (f : Fields) : f.addWord [] = f := rfl

-- Behind a separator that is not blank the splitting begins anew after the blank ones.
theorem splitFrom_hard (f : Fields) (cs : List Char) :
    splitFrom separators .hard f cs = splitFrom separators (.word []) f (cs.dropWhile (isBlankSep separators)) := by
  induction cs with
  | nil => rfl
  | cons c cs ih =>
      rw [splitFrom_hard_cons]
      by_cases hsep : c ∈ separators
      · cases hblank : isBlank c with
        | true => simp [isBlankSep, hsep, hblank, ih]
        | false => simp [isBlankSep, hsep, hblank, splitFrom_word_cons, addWord_nil]
      · simp [isBlankSep, hsep, splitFrom_word_cons]

-- Blank separators at the beginning divide nothing.
theorem splitFrom_blank_of_not_opened {f : Fields} (hf : f.opened = false) (cs : List Char) :
    splitFrom separators .blank f cs = splitFrom separators .hard f cs := by
  have hclosed : f.closed = f := by simp [closed, hf]
  induction cs with
  | nil => exact hclosed
  | cons c cs ih => rw [splitFrom_blank_cons, splitFrom_hard_cons, hclosed, ih]

-- Behind a field the splitting begins anew after the divider.
theorem splitFrom_blank_of_opened {f : Fields} (hf : f.opened = true) (cs : List Char) :
    splitFrom separators .blank f cs =
      splitFrom separators (.word []) f.flush (pastDivider separators.contains (isBlankSep separators) cs) := by
  have hclosed : f.closed = f.flush := by simp [closed, hf]
  induction cs with
  | nil => exact hclosed
  | cons c cs ih =>
      rw [splitFrom_blank_cons, hclosed]
      by_cases hsep : c ∈ separators
      · cases hblank : isBlank c with
        | true => simp [pastDivider, isBlankSep, hsep, hblank, ih]
        | false => simp [pastDivider, isBlankSep, hsep, hblank, splitFrom_hard]
      · simp [pastDivider, isBlankSep, hsep, splitFrom_word_cons]

-- A run of characters that are no separators.
theorem splitFrom_run (f : Fields) (w cs : List Char) :
    splitFrom separators (.word w) f cs =
      splitFrom separators (.word ((cs.takeWhile fun c => !separators.contains c).reverse ++ w)) f
        (cs.dropWhile fun c => !separators.contains c) := by
  induction cs generalizing w with
  | nil => rfl
  | cons c cs ih =>
      by_cases hsep : c ∈ separators
      · simp [hsep]
      · simp [splitFrom_word_cons, hsep, ih]

-- The first piece is a field of its own.
theorem finish_splitFrom_front {cs : List Char} (hne : cs ≠ []) (hhead : ∀ c ∈ cs.head?, isBlankSep separators c = false) :
    (splitFrom separators (.word []) {} cs).finish =
      (splitFrom separators (.word [])
        (({} : Fields).addWord (cs.takeWhile fun c => !separators.contains c).reverse).flush
        (pastDivider separators.contains (isBlankSep separators) (cs.dropWhile fun c => !separators.contains c))).finish := by
  have hopened {w : List Char} (hw : w ≠ []) : (({} : Fields).addWord w.reverse).opened = true :=
    opened_addWord {} (mt List.reverse_eq_nil_iff.mp hw)
  have hsplit : cs.takeWhile (fun c => !separators.contains c) ++ cs.dropWhile (fun c => !separators.contains c) = cs :=
    List.takeWhile_append_dropWhile
  have hnot := List.head?_dropWhile_not (fun c => !separators.contains c) cs
  rw [splitFrom_run, List.append_nil]
  generalize cs.takeWhile (fun c => !separators.contains c) = front at hsplit ⊢
  generalize cs.dropWhile (fun c => !separators.contains c) = tail at hsplit hnot ⊢
  cases tail with
  | nil =>
      rw [List.append_nil] at hsplit
      have hg := hopened (hsplit ▸ hne : front ≠ [])
      exact (finish_closed _).symm.trans (congrArg finish (if_pos hg))
  | cons c rest =>
      have hsep : c ∈ separators := by simpa using hnot
      cases hblank : isBlank c with
      | false =>
          have hc : isBlankSep separators c = false := by simp [isBlankSep, hblank]
          have hpast : pastDivider separators.contains (isBlankSep separators) (c :: rest) =
              rest.dropWhile (isBlankSep separators) := by
            simp [pastDivider, hc, hsep]
          rw [splitFrom_word_cons, hpast, ← splitFrom_hard]
          simp [hsep, hblank]
      | true =>
          have hc : isBlankSep separators c = true := by simp [isBlankSep, hblank, hsep]
          have hfront : front ≠ [] := by
            rintro rfl
            have := hhead c (by simp [← hsplit])
            simp [hc] at this
          have hpast : pastDivider separators.contains (isBlankSep separators) (c :: rest) =
              pastDivider separators.contains (isBlankSep separators) rest := by
            simp [pastDivider, hc]
          rw [splitFrom_word_cons, hpast, ← splitFrom_blank_of_opened separators (hopened hfront)]
          simp [hsep, hblank]

theorem flush_addWord (w : List Char) : ∃ field, (({} : Fields).addWord w.reverse).flush = ({} : Fields).after [field] ∧
    Fragment.plain field = String.ofList w := by
  cases w with
  | nil => exact ⟨[], rfl, rfl⟩
  | cons c w => exact ⟨[⟨String.ofList (c :: w), false⟩], by simp [addWord, add, flush, after], by simp [Fragment.plain]⟩

theorem texts_splitFrom {cs : List Char} (hhead : ∀ c ∈ cs.head?, isBlankSep separators c = false) :
    (splitFrom separators (.word []) {} cs).texts =
      (pieces separators.contains (isBlankSep separators) none cs).map String.ofList := by
  induction hn : cs.length using Nat.strong_induction_on generalizing cs with
  | h n ih =>
    by_cases hne : cs = []
    · rw [hne, pieces_nil]
      rfl
    have hshort := length_pastDivider_lt separators.contains (isBlankSep separators) hne
    obtain ⟨field, hflush, hplain⟩ := flush_addWord (cs.takeWhile fun c => !separators.contains c)
    have hrest := ih _ (hn ▸ hshort) (fun c => head_pastDivider _ _) rfl
    rw [texts] at hrest
    rw [texts, finish_splitFrom_front separators hne hhead, hflush, splitFrom_after, finish_after, List.map_append, hrest,
      pieces_of_ne _ _ hne (by simp), List.map_cons, ← hplain]
    rfl

theorem splitFrom_leading (cs : List Char) :
    splitFrom separators (.word []) {} cs = splitFrom separators (.word []) {} (cs.dropWhile (isBlankSep separators)) := by
  cases cs with
  | nil => rfl
  | cons c cs =>
      by_cases hc : isBlankSep separators c
      · obtain ⟨hsep, hblank⟩ : c ∈ separators ∧ isBlank c = true := by simpa [isBlankSep] using hc
        have hdrop : (c :: cs).dropWhile (isBlankSep separators) = cs.dropWhile (isBlankSep separators) := by simp [hc]
        rw [hdrop, ← splitFrom_hard, ← splitFrom_blank_of_not_opened separators (f := {}) rfl, splitFrom_word_cons]
        simp [hsep, hblank, addWord_nil]
      · simp [hc]

theorem finish_splitFrom_blanks (place : Place) (f : Fields) {bs : List Char} (hbs : ∀ b ∈ bs, isBlankSep separators b) :
    (splitFrom separators place f bs).finish = (splitFrom separators place f []).finish := by
  have hblank : ∀ f : Fields, splitFrom separators .blank f bs = f.closed := by
    intro f
    induction bs with
    | nil => rfl
    | cons b bs ih =>
        obtain ⟨hb, hbs⟩ := List.forall_mem_cons.mp hbs
        obtain ⟨hsep, hblank⟩ : b ∈ separators ∧ isBlank b = true := by simpa [isBlankSep] using hb
        rw [splitFrom_blank_cons]
        simp [hsep, hblank, ih hbs]
  cases place with
  | blank => exact congrArg finish (hblank f)
  | hard =>
      rw [splitFrom_hard, List.dropWhile_eq_nil_iff.mpr hbs]
      rfl
  | word w =>
      cases bs with
      | nil => rfl
      | cons b bs =>
          obtain ⟨hsep, hb⟩ : b ∈ separators ∧ isBlank b = true := by
            simpa [isBlankSep] using hbs b List.mem_cons_self
          have hword : splitFrom separators (.word w) f (b :: bs) = splitFrom separators .blank (f.addWord w) (b :: bs) := by
            rw [splitFrom_word_cons, splitFrom_blank_cons]
            simp [hsep, hb]
          rw [hword, hblank]
          exact finish_closed _

theorem finish_splitFrom_trailing (place : Place) (f : Fields) (cs : List Char) {bs : List Char}
    (hbs : ∀ b ∈ bs, isBlankSep separators b) :
    (splitFrom separators place f (cs ++ bs)).finish = (splitFrom separators place f cs).finish := by
  rw [splitFrom_eq_foldl, splitFrom_eq_foldl, List.foldl_append]
  generalize cs.foldl (step separators) (place, f) = reached
  obtain ⟨place, f⟩ := reached
  rw [← splitFrom_eq_foldl, finish_splitFrom_blanks separators place f hbs]
  cases place <;> rfl

theorem split_eq_splitFrom {m : Splitting} (hm : m.joined = false) (f : Fields) (v : String) :
    f.split m v = splitFrom m.separators.toList (.word []) f v.toList := by
  unfold split
  rw [hm, Bool.false_or]
  split
  · rename_i hempty
    have hsep : m.separators.toList = [] := by simpa using hempty
    have hrun := splitFrom_run [] f [] v.toList
    have hfront : v.toList.takeWhile (fun c => !([] : List Char).contains c) = v.toList := by simp
    have htail : v.toList.dropWhile (fun c => !([] : List Char).contains c) = [] := by simp
    rw [hfront, htail, List.append_nil] at hrun
    rw [hsep, hrun, splitFrom, addWord]
    simp
  · rfl

end

-- What one character keeps. Only a separator that is not blank ends a field that was never begun.
theorem step_keeps {P : Fields → Prop} {separators : List Char} (hword : ∀ f w, P f → P (f.addWord w))
    (hclosed : ∀ f, P f → P f.closed) (hhard : ∀ c ∈ separators, isBlank c = false → ∀ f, P f → P f.flush)
    {place : Place} {f : Fields} (hf : P f) (c : Char) : P (step separators (place, f) c).2 := by
  by_cases hsep : c ∈ separators
  · cases hblank : isBlank c with
    | true => cases place <;> simp [step, hsep, hblank, hf, hword]
    | false => cases place <;> simp [step, hsep, hblank, hf, hword, hhard c hsep hblank]
  · cases place <;> simp [step, hsep, hf, hclosed]

theorem splitFrom_keeps {P : Fields → Prop} {separators : List Char} (hword : ∀ f w, P f → P (f.addWord w))
    (hclosed : ∀ f, P f → P f.closed) (hhard : ∀ c ∈ separators, isBlank c = false → ∀ f, P f → P f.flush)
    (place : Place) {f : Fields} (hf : P f) (cs : List Char) : P (splitFrom separators place f cs) := by
  rw [splitFrom_eq_foldl]
  induction cs generalizing place f with
  | nil => cases place <;> simp [ending, hf, hword, hclosed]
  | cons c cs ih => exact ih _ (step_keeps hword hclosed hhard hf c)

-- The fields of a value are the pieces of its text.
theorem texts_split (separators v : String) :
    (({} : Fields).split ⟨separators, false⟩ v).texts = Command.splitLine separators none v := by
  let blank := isBlankSep separators.toList
  calc (({} : Fields).split ⟨separators, false⟩ v).texts
      = (splitFrom separators.toList (.word []) {} (v.toList.dropWhile blank)).texts := by
        rw [split_eq_splitFrom rfl, splitFrom_leading]
    _ = (splitFrom separators.toList (.word []) {} (trimmed blank v.toList)).texts := by
        rw [texts, texts, ← trimmed_append blank v.toList,
          finish_splitFrom_trailing _ _ _ _ fun _ hb => List.mem_rtakeWhile_imp hb]
    _ = Command.splitLine separators none v := by
        rw [texts_splitFrom _ fun _ hc => head_trimmed blank hc, Command.splitLine_eq separators (by simp)]

-- A field without pieces exists only if it is open.
def Sound (f : Fields) : Prop := f.opened = false → f.current = []

theorem Sound.split {m : Splitting} (hm : m.joined = false) (v : String) : (({} : Fields).split m v).Sound := by
  rw [split_eq_splitFrom hm]
  refine splitFrom_keeps (fun f w h => ?_) (fun f h => ?_) (fun _ _ _ f _ _ => rfl) _ (fun _ => rfl) _
  · unfold Fields.addWord
    split
    · exact h
    · rintro ⟨⟩
  · unfold Fields.closed
    split
    · exact fun _ => rfl
    · exact h

-- Behind a separator that is not blank no field is open.
def Aware : Place × Fields → Prop
  | (.hard, f) => f.opened = false
  | _ => True

theorem step_aware (separators : List Char) {at_ : Place × Fields} (h : Aware at_) (c : Char) :
    Aware (step separators at_ c) := by
  obtain ⟨place, f⟩ := at_
  by_cases hsep : c ∈ separators
  · cases hblank : isBlank c <;> cases place <;> simp [step, hsep, hblank, Aware, flush]
    exact h
  · cases place <;> simp [step, hsep, Aware]

-- Whether a field is open at the end depends on the last character.
theorem opened_step (separators : List Char) {at_ : Place × Fields} (h : Aware at_) (c : Char) :
    (ending (step separators at_ c)).opened = !separators.contains c := by
  obtain ⟨place, f⟩ := at_
  by_cases hsep : c ∈ separators
  · cases hblank : isBlank c <;> cases place <;> simp [step, hsep, hblank, ending, flush, opened_closed]
    exact h
  · cases place <;> simp [step, hsep, ending, opened_addWord]

theorem opened_splitFrom (separators : List Char) {place : Place} {f : Fields} (h : Aware (place, f)) (cs : List Char) (c : Char) :
    (splitFrom separators place f (cs ++ [c])).opened = !separators.contains c := by
  have haware : Aware (cs.foldl (step separators) (place, f)) := by
    generalize (place, f) = at_ at h
    induction cs generalizing at_ with
    | nil => exact h
    | cons d cs ih => exact ih _ (step_aware separators h d)
  rw [splitFrom_eq_foldl, List.foldl_append]
  exact opened_step separators haware c

-- The fields of one value.
def ofValue (m : Splitting) (v : String) : List (List Fragment) := (({} : Fields).split m v).finish

-- The value ends inside of a field: its last character is no separator.
def endsOpen (m : Splitting) (v : String) : Bool := v.toList.getLast?.any fun c => !m.separators.toList.contains c

-- The fields of several values: those of each one, and an empty one where a value ends outside of every field and
-- another one follows.
def ofValues (m : Splitting) : List String → List (List Fragment)
  | [] => []
  | [v] => ofValue m v
  | v :: vs => ofValue m v ++ (if endsOpen m v then [] else [[]]) ++ ofValues m vs

theorem ofValues_cons_cons (m : Splitting) (v w : String) (vs : List String) :
    ofValues m (v :: w :: vs) = ofValue m v ++ (if endsOpen m v then [] else [[]]) ++ ofValues m (w :: vs) := rfl

section

variable {m : Splitting} (hm : m.joined = false)

include hm in
theorem opened_split (v : String) : (({} : Fields).split m v).opened = endsOpen m v := by
  rw [split_eq_splitFrom hm, endsOpen]
  rcases List.eq_nil_or_concat v.toList with hnil | ⟨cs, c, hcs⟩
  · rw [hnil]
    rfl
  · have haware : Aware (.word [], ({} : Fields)) := trivial
    rw [hcs, List.concat_eq_append, opened_splitFrom m.separators.toList haware]
    simp

include hm in
theorem split_after (done : List (List Fragment)) (v : String) :
    (({} : Fields).after done).split m v = (({} : Fields).split m v).after done := by
  rw [split_eq_splitFrom hm, split_eq_splitFrom hm, splitFrom_after]

-- Where no field is open, ending one makes an empty one.
theorem Sound.done_flush {f : Fields} (h : f.Sound) :
    f.flush.done.reverse = f.finish ++ if f.opened then [] else [[]] := by
  cases hopened : f.opened with
  | true => simp [finish, hopened, flush]
  | false => simp [finish, hopened, flush, h hopened]

-- Every further value begins a new field.
def addNext (m : Splitting) (f : Fields) (v : String) : Fields := addValue m false f.flush v

include hm in
theorem addNext_eq (f : Fields) (v : String) :
    addNext m f v = (({} : Fields).split m v).after (f.current.reverse :: f.done) := split_after hm _ v

include hm in
theorem finish_foldl_addNext {f : Fields} (hf : f.Sound) (v : String) (vs : List String) :
    ((v :: vs).foldl (addNext m) f).finish = f.finish ++ (if f.opened then [] else [[]]) ++ ofValues m (v :: vs) := by
  induction vs generalizing f v with
  | nil =>
      rw [List.foldl_cons, List.foldl_nil, addNext_eq hm, finish_after, ← hf.done_flush]
      rfl
  | cons w vs ih =>
      have hsound : (addNext m f v).Sound := by
        rw [addNext_eq hm]
        exact Sound.split hm v
      have hopened : (addNext m f v).opened = endsOpen m v := by
        rw [addNext_eq hm]
        exact opened_split hm v
      have hfinish : (addNext m f v).finish = f.flush.done.reverse ++ ofValue m v := by
        rw [addNext_eq hm]
        exact finish_after _ _
      rw [List.foldl_cons, ih hsound, hopened, hfinish, hf.done_flush, ofValues_cons_cons]
      simp only [List.append_assoc]

include hm in
-- The fields of the elements of a list.
theorem finish_addValues (vs : List String) : (({} : Fields).addValues m false vs).finish = ofValues m vs := by
  unfold addValues
  rw [hm, if_neg Bool.false_ne_true]
  cases vs with
  | nil => rfl
  | cons v vs =>
      cases vs with
      | nil => rfl
      | cons w vs =>
          have hfirst : addValue m false {} v = ({} : Fields).split m v := rfl
          have hrest := finish_foldl_addNext hm (Sound.split hm v) w vs
          rw [opened_split hm] at hrest
          exact hrest

-- How many fields belong to no value: one for each value but the last that ends outside of every field.
theorem length_ofValues (m : Splitting) (vs : List String) :
    (ofValues m vs).length = (vs.flatMap (ofValue m)).length + vs.dropLast.countP fun v => !endsOpen m v := by
  induction vs with
  | nil => rfl
  | cons v vs ih =>
      cases vs with
      | nil => simp [ofValues]
      | cons w vs =>
          rw [ofValues_cons_cons, List.dropLast_cons_cons, List.countP_cons, List.flatMap_cons]
          cases endsOpen m v <;> simp [ih] <;> omega

theorem ofValues_eq_flatMap_iff (m : Splitting) (vs : List String) :
    ofValues m vs = vs.flatMap (ofValue m) ↔ ∀ v ∈ vs.dropLast, endsOpen m v = true := by
  constructor
  · intro h
    have hlen := length_ofValues m vs
    rw [h, Nat.left_eq_add, List.countP_eq_zero] at hlen
    simpa using hlen
  · intro h
    induction vs with
    | nil => rfl
    | cons v vs ih =>
        cases vs with
        | nil => simp [ofValues]
        | cons w vs =>
            rw [List.dropLast_cons_cons, List.forall_mem_cons] at h
            rw [ofValues_cons_cons, ih h.2, h.1, List.flatMap_cons]
            simp

-- No field is empty so far.
structure Filled (f : Fields) : Prop where
  done : ∀ field ∈ f.done, Fragment.plain field ≠ ""
  current : f.opened = true → Fragment.plain f.current.reverse ≠ ""
  sound : f.Sound

theorem Filled.addWord {f : Fields} (h : f.Filled) (w : List Char) : (f.addWord w).Filled := by
  cases w with
  | nil => exact h
  | cons c w => exact ⟨h.done, fun _ => by simp [Fields.addWord, add, Fragment.plain], by rintro ⟨⟩⟩

theorem Filled.closed {f : Fields} (h : f.Filled) : f.closed.Filled := by
  unfold Fields.closed
  split
  · rename_i hopened
    exact ⟨List.forall_mem_cons.mpr ⟨h.current hopened, h.done⟩, by rintro ⟨⟩, fun _ => rfl⟩
  · exact h

theorem Filled.finish {f : Fields} (h : f.Filled) : ∀ field ∈ f.finish, Fragment.plain field ≠ "" := by
  cases hopened : f.opened with
  | true => simpa [Fields.finish, hopened, flush, or_imp, forall_and] using ⟨h.done, h.current hopened⟩
  | false => simpa [Fields.finish, hopened, h.sound hopened] using h.done

include hm in
theorem ofValue_filled (hblank : ∀ c ∈ m.separators.toList, isBlank c = true) (v : String) :
    ∀ field ∈ ofValue m v, Fragment.plain field ≠ "" := by
  have hstart : ({} : Fields).Filled := ⟨by simp, by rintro ⟨⟩, fun _ => rfl⟩
  have hhard : ∀ c ∈ m.separators.toList, isBlank c = false → ∀ f : Fields, f.Filled → f.flush.Filled := by
    intro c hc hnot
    rw [hblank c hc] at hnot
    cases hnot
  rw [ofValue, split_eq_splitFrom hm]
  exact (splitFrom_keeps (fun f w h => h.addWord w) (fun f h => h.closed) hhard _ hstart _).finish

include hm in
-- With blank separators only the fields that belong to no value are the empty ones.
theorem ofValues_filled_iff (hblank : ∀ c ∈ m.separators.toList, isBlank c = true) (vs : List String) :
    (∀ field ∈ ofValues m vs, Fragment.plain field ≠ "") ↔ ∀ v ∈ vs.dropLast, endsOpen m v = true := by
  induction vs with
  | nil => simp [ofValues]
  | cons v vs ih =>
      have hv := ofValue_filled hm hblank v
      cases vs with
      | nil => simpa [ofValues] using hv
      | cons w vs =>
          rw [ofValues_cons_cons, List.dropLast_cons_cons, List.forall_mem_cons, ← ih]
          simp only [List.mem_append, or_imp, forall_and]
          cases endsOpen m v with
          | true => simpa using fun _ => hv
          | false => simp [Fragment.plain]

end

end Fields

open Program (Param)
open Run

-- Fields without pattern characters, and all fields where no patterns are expanded, stay as they are.
theorem matchAll_plain {fs : List (List Fragment)} {s : State}
    (h : s.shell.options.noglob = true ∨ ∀ f ∈ fs, Fragment.hasMeta f = false) :
    matchAll fs s = .ok (fs.map Fragment.plain) s := by
  induction fs with
  | nil => rfl
  | cons f fs ih =>
      have hf : matchFiles f s = .ok [Fragment.plain f] s := by
        refine congrFun (if_pos ?_) s
        rcases h with h | h
        · simp [h]
        · simp [h f List.mem_cons_self]
      have hfs := ih (h.imp_right fun h g hg => h g (List.mem_cons_of_mem f hg))
      rw [matchAll, bind_of_ok hf, bind_of_ok hfs]
      rfl

-- A word that is a single unquoted expansion.
theorem fields_param {E : Engine} {x : Param} {s t : State} {p : ParamValue} (hx : param E x s = .ok p t) :
    fields E [⟨[.param x]⟩] s = matchAll (addParam ⟨s.shell.separators, false⟩ false p {}).finish t := by
  have hchoices : Brace.expand [.param x] = [[.param x]] := rfl
  have hparts : expandParts E ⟨s.shell.separators, false⟩ false [.param x] {} s =
      .ok (addParam ⟨s.shell.separators, false⟩ false p {}) t := by
    rw [expandParts, expandPart, bind_assoc, bind_of_ok hx]
    rfl
  have hseparators : separators s = .ok s.shell.separators s := rfl
  simp only [fields, hchoices, expandChoices, pure_bind, List.append_nil, bind_pure]
  rw [bind_of_ok hseparators, bind_of_ok hparts]

-- The parameters or the elements of an array as a list: `$@`, `$*`, and with a name and `@` or `*` as its index.
inductive ListForm where
  | params (star : Bool)
  | elements (name : String) (star : Bool)

namespace ListForm

def param : ListForm → Param
  | params star => ⟨if star then "*" else "@", false, false, none, none, none, none, none⟩
  | elements name star => ⟨name, false, false, none, some ⟨[.lit (if star then "*" else "@") false]⟩, none, none, none⟩

def values (s : Shell) : ListForm → List String
  | params _ => s.params
  | elements name _ => ((s.env.get? name).map Var.values).getD []

-- The name is that of a variable, which exists where that is asked for.
def Available (s : Shell) : ListForm → Prop
  | params _ => True
  | elements name _ => special? s name = none ∧ (s.options.nounset = true → (s.env.get? name).isSome)

theorem lookup_elements {E : Engine} {s : State} {name : String} (hname : special? s.shell name = none) (star : Bool) :
    lookup E name (some ⟨[.lit (if star then "*" else "@") false]⟩) s =
      .ok (allElements (s.shell.env.get? name) (if star then .star else .all)) s := by
  have hcurrent : (s.shell.env.get? name).filter (fun _ => (s.shell.env.get? name).isSome) = s.shell.env.get? name := by
    cases s.shell.env.get? name <;> rfl
  have hindex : literal E ⟨[.lit (if star then "*" else "@") false]⟩ s = .ok (if star then "*" else "@") s :=
    (Spells.lit _ false).literal
  rw [lookup, shell_bind, hname]
  dsimp only
  rw [bind_of_ok hindex]
  have hstar : ("*" == "@") = false := by decide
  cases star
  all_goals
    simp only [Bool.false_eq_true, if_false, if_true, beq_self_eq_true, hstar, pure_bind, bind_assoc]
    rw [shell_bind, hcurrent]
    rfl

theorem param_eq (E : Engine) {form : ListForm} {s : State} (h : form.Available s.shell) :
    ∃ p, Machine.param E form.param s = .ok p s ∧ p.isPlural = true ∧ p.list = form.values s.shell := by
  cases form with
  | params star => cases star <;> exact ⟨_, rfl, rfl, rfl⟩
  | elements name star =>
      obtain ⟨hname, hset⟩ := h
      refine ⟨allElements (s.shell.env.get? name) (if star then .star else .all), ?_, ?_, ?_⟩
      · rw [ListForm.param, Machine.param, shell_bind]
        dsimp only
        simp only [Bool.false_and, Bool.false_eq_true, if_false]
        rw [bind_of_ok (lookup_elements hname star), shell_bind]
        refine congrFun (if_neg ?_) s
        cases hvar : s.shell.env.get? name with
        | none =>
            have hnounset : s.shell.options.nounset = false := by simpa [hvar] using hset
            simp [hnounset]
        | some v => simp [allElements]
      · cases s.shell.env.get? name <;> cases star <;> rfl
      · rw [values]
        cases s.shell.env.get? name <;> rfl

end ListForm

open Fields in
-- The fields of a word that is just an unquoted list, for every list and all separators: those of each element by
-- itself, but an element that ends outside of every field (an empty one, or one with a separator at its end) leaves an
-- empty field behind if another element follows. So the fields are those of the elements exactly if all elements but
-- the last end inside of a field; and exactly then no field is empty when all separators are blank.
theorem list_fields (E : Engine) (s : State) :
    let m : Splitting := ⟨s.shell.separators, false⟩
    (∀ x p t, param E x s = .ok p t → p.isPlural = true →
      fields E [⟨[.param x]⟩] s = matchAll (ofValues m p.list) t) ∧
    (∀ form : ListForm, form.Available s.shell →
      fields E [⟨[.param form.param]⟩] s = matchAll (ofValues m (form.values s.shell)) s) ∧
    ∀ vs,
      (ofValues m vs = vs.flatMap (ofValue m) ↔ ∀ v ∈ vs.dropLast, endsOpen m v = true) ∧
      ((∀ c ∈ m.separators.toList, isBlank c = true) →
        ((∀ field ∈ ofValues m vs, Fragment.plain field ≠ "") ↔ ∀ v ∈ vs.dropLast, endsOpen m v = true)) := by
  intro m
  have hlist : ∀ x p t, param E x s = .ok p t → p.isPlural = true →
      fields E [⟨[.param x]⟩] s = matchAll (ofValues m p.list) t := by
    intro x p t hx hp
    have hadd : addParam m false p {} = ({} : Fields).addValues m false p.list := by
      unfold addParam
      cases hplural : p.plural with
      | one => simp [ParamValue.isPlural, hplural] at hp
      | all | star => rfl
    rw [fields_param hx, hadd, finish_addValues rfl]
  refine ⟨hlist, fun form hform => ?_, fun vs => ⟨ofValues_eq_flatMap_iff m vs, fun hblank => ?_⟩⟩
  · obtain ⟨p, hp, hplural, hvalues⟩ := form.param_eq E hform
    rw [hlist _ p s hp hplural, hvalues]
  · exact ofValues_filled_iff rfl hblank vs

-- `$@` with the parameters `a`, `b c` and an empty one.
theorem list_fields_of_params :
    let E := engine { name := "", main := default } true 1 1
    let s : State := { shell := { params := ["a", "b c", ""] } }
    let m : Splitting := ⟨" \t\n", false⟩
    (ListForm.params false).Available s.shell ∧
      fields E [⟨[.param (ListForm.params false).param]⟩] s = matchAll (Fields.ofValues m ["a", "b c", ""]) s ∧
      (∀ v ∈ ["a", "b c"], Fields.endsOpen m v = true) ∧
      Fields.ofValues m ["a", "b c", ""] = ["a", "b c", ""].flatMap (Fields.ofValue m) := by
  intro E s m
  have hopen : ∀ v ∈ ["a", "b c"], Fields.endsOpen m v = true := by decide
  have h := list_fields E s
  exact ⟨trivial, h.2.1 _ trivial, hopen, (h.2.2 ["a", "b c", ""]).1.mpr hopen⟩

-- `$@` with the parameters `a`, an empty one and `b`: by itself the empty one has no field.
theorem empty_element_leaves_field :
    let E := engine { name := "", main := default } true 1 1
    let s : State := { shell := { params := ["a", "", "b"] } }
    (match fields E [⟨[.param (ListForm.params false).param]⟩] s with
      | .ok words _ => some words
      | .error _ _ => none) = some ["a", "", "b"] ∧
    (["a", "", "b"].flatMap (Fields.ofValue ⟨s.shell.separators, false⟩)).map Fragment.plain = ["a", "b"] := by
  decide +kernel

end Machine
end ShellScript

import Mathlib.Order.Compare
import ShellScript.Text.Byte

-- Byte order is a linear order of texts, and what is sorted by a linear order depends on its members alone.
namespace ShellScript

open Std (TransCmp LawfulEqCmp OrientedCmp)

section Sorting

variable {α : Type} {cmp : α → α → Ordering}

theorem ne_gt_iff {o : Ordering} : (o != .gt) = true ↔ o.isLE = true := by cases o <;> simp

theorem pairwise_mergeSort_cmp [TransCmp cmp] (l : List α) :
    (l.mergeSort fun a b => cmp a b != .gt).Pairwise fun a b => (cmp a b).isLE = true := by
  refine (List.pairwise_mergeSort (fun a b c hab hbc => ?_) (fun a b => ?_) l).imp ne_gt_iff.mp
  · exact ne_gt_iff.mpr (TransCmp.isLE_trans (ne_gt_iff.mp hab) (ne_gt_iff.mp hbc))
  · have hswap : cmp b a = (cmp a b).swap := OrientedCmp.eq_swap
    rw [hswap]
    cases cmp a b <;> rfl

-- Sorting forgets in which order its members came.
theorem mergeSort_eq_of_perm [TransCmp cmp] [LawfulEqCmp cmp] {l l' : List α} (h : l.Perm l') :
    (l.mergeSort fun a b => cmp a b != .gt) = l'.mergeSort fun a b => cmp a b != .gt := by
  have hperm : (l.mergeSort fun a b => cmp a b != .gt).Perm (l'.mergeSort fun a b => cmp a b != .gt) :=
    ((List.mergeSort_perm _ _).trans h).trans (List.mergeSort_perm _ _).symm
  refine hperm.eq_of_pairwise (fun a b _ _ hab hba => ?_) (pairwise_mergeSort_cmp l) (pairwise_mergeSort_cmp l')
  exact LawfulEqCmp.eq_of_compare (Std.OrientedCmp.isLE_antisymm hab hba)

end Sorting

section Pairs

variable {α β : Type}

theorem transCmp_comap (cmp : β → β → Ordering) [TransCmp cmp] (f : α → β) : TransCmp fun a b => cmp (f a) (f b) where
  eq_swap := OrientedCmp.eq_swap
  isLE_trans := TransCmp.isLE_trans

-- Pairs by their first members, and those with the same first one by their second.
def lexOrder (f : α → α → Ordering) (g : β → β → Ordering) (a b : α × β) : Ordering := (f a.1 b.1).then (g a.2 b.2)

variable {f : α → α → Ordering} {g : β → β → Ordering}

instance [TransCmp f] [TransCmp g] : TransCmp (lexOrder f g) := by
  have hf : TransCmp fun a b : α × β => f a.1 b.1 := transCmp_comap f Prod.fst
  have hg : TransCmp fun a b : α × β => g a.2 b.2 := transCmp_comap g Prod.snd
  exact inferInstanceAs (TransCmp (compareLex (fun a b : α × β => f a.1 b.1) fun a b => g a.2 b.2))

instance [LawfulEqCmp f] [LawfulEqCmp g] : LawfulEqCmp (lexOrder f g) where
  compare_self := Ordering.then_eq_eq.mpr ⟨Std.ReflCmp.compare_self, Std.ReflCmp.compare_self⟩
  eq_of_compare {a b} h := by
    obtain ⟨hf, hg⟩ := Ordering.then_eq_eq.mp h
    exact Prod.ext (LawfulEqCmp.eq_of_compare hf) (LawfulEqCmp.eq_of_compare hg)

end Pairs

namespace Text

theorem compareList_eq (as bs : List Char) : compareList as bs = List.compareLex Ord.compare as bs := by
  induction as generalizing bs with
  | nil => cases bs <;> rfl
  | cons a as ih =>
      cases bs with
      | nil => rfl
      | cons b bs =>
          have hchar : Ord.compare a b = if a < b then .lt else if a = b then .eq else .gt := rfl
          rw [compareList, List.compareLex_cons_cons, ← ih, hchar]
          rcases Std.lt_trichotomy a b with h | rfl | h
          · simp [h]
          · rw [if_neg Std.lt_irrefl, if_neg Std.lt_irrefl, if_neg Std.lt_irrefl, if_pos rfl]
            rfl
          · simp [h, Char.lt_asymm h, (Char.ne_of_lt h).symm]

instance : TransCmp compare := by
  have h : compare = fun a b => List.compareLex Ord.compare a.toList b.toList := by
    funext a b
    exact compareList_eq _ _
  exact h ▸ transCmp_comap _ String.toList

instance : LawfulEqCmp compare where
  compare_self {a} := by
    rw [compare, compareList_eq]
    exact Std.ReflCmp.compare_self
  eq_of_compare {a b} h := by
    rw [compare, compareList_eq] at h
    exact String.toList_inj.mp (LawfulEqCmp.eq_of_compare h)

theorem le_of_not_le {a b : String} (h : le a b = false) : le b a = true := by
  rw [le, bne_eq_false_iff_eq] at h
  have hswap : compare b a = (compare a b).swap := OrientedCmp.eq_swap
  rw [le, hswap, h]
  rfl

theorem le_antisymm {a b : String} (h : le a b = true) (h' : le b a = true) : a = b :=
  LawfulEqCmp.eq_of_compare (Std.OrientedCmp.isLE_antisymm (ne_gt_iff.mp h) (ne_gt_iff.mp h'))

theorem sort_eq_of_perm {xs ys : List String} (h : xs.Perm ys) : sort xs = sort ys := mergeSort_eq_of_perm h

-- Dropping repetitions drops no value.
theorem mem_compact {α : Type} [BEq α] [LawfulBEq α] {a : α} : ∀ {l : List α}, a ∈ compact l ↔ a ∈ l
  | [] => Iff.rfl
  | x :: xs => by
      have ih : a ∈ compact xs ↔ a ∈ xs := mem_compact
      rw [compact, List.mem_cons, ← ih]
      cases compact xs with
      | nil => simp
      | cons y ys =>
          dsimp only
          split
          · rename_i heq
            rw [eq_of_beq heq]
            simp
          · simp

end Text
end ShellScript

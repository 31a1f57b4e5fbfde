import Mathlib.Data.Int.GCD
import Mathlib.Data.List.Forall2
import Mathlib.Tactic.LinearCombination
import Mathlib.Tactic.Ring
import ShellScript.Machine.Fields
import ShellScript.Proofs.Text.Numeral

-- Ranges of numbers in braces. The count from one bound to the other is made with numbers of 64 bits, and one that
-- passes their limit goes on at the other end.
namespace ShellScript
namespace Machine
namespace Brace

open Text (wrap64 inInt64 maxInt64 minInt64 inInt64_iff inInt64_wrap64 wrap64_eq wrap64_of_inInt64 wrap64_wrap64_add)

section Count

variable (to_ step : Int) (up : Bool)

-- The count has passed its end.
def Past (n : Int) : Prop := if up then to_ < n else n < to_

instance (n : Int) : Decidable (Past to_ up n) := inferInstanceAs (Decidable (if up then to_ < n else n < to_))

-- What is added from one number to the next.
def stride : Int := if up then step else -step

-- All numbers that a count comes across from `n` on, if it ends.
inductive Counts : Int → List Int → Prop
  | past {n : Int} (h : Past to_ up n) : Counts n []
  | next {n : Int} {ns : List Int} (h : ¬Past to_ up n) (rest : Counts (wrap64 (n + stride step up)) ns) :
      Counts n (n :: ns)

variable {to_ step up}

-- One more step is made first.
theorem add_succ_mul (n d : Int) (i : Nat) : n + ((i + 1 : Nat) : Int) * d = n + d + i * d := by
  push_cast
  ring

theorem Counts.unique {n : Int} {ns ms : List Int} (h : Counts to_ step up n ns) (h' : Counts to_ step up n ms) :
    ns = ms := by
  induction h generalizing ms with
  | past hpast =>
      cases h' with
      | past => rfl
      | next hnot => exact absurd hpast hnot
  | next hnot _ ih =>
      cases h' with
      | past hpast => exact absurd hpast hnot
      | next _ rest => rw [ih rest]

-- Where a count is after `i` steps.
theorem Counts.drop {n : Int} {ns : List Int} (h : Counts to_ step up n ns) (hn : inInt64 n = true) {i : Nat}
    (hi : i ≤ ns.length) : Counts to_ step up (wrap64 (n + i * stride step up)) (ns.drop i) := by
  induction h generalizing i with
  | past hpast =>
      obtain rfl := Nat.le_zero.mp hi
      simpa [wrap64_of_inInt64 hn] using Counts.past hpast
  | @next n ns hnot rest ih =>
      cases i with
      | zero => simpa [wrap64_of_inInt64 hn] using Counts.next hnot rest
      | succ i =>
          have hrest := ih (inInt64_wrap64 _) (Nat.le_of_succ_le_succ hi)
          rwa [wrap64_wrap64_add, ← add_succ_mul] at hrest

-- After `2 ^ 64` steps a count is back where it began.
theorem Counts.length_lt {n : Int} {ns : List Int} (h : Counts to_ step up n ns) (hn : inInt64 n = true) :
    ns.length < 18446744073709551616 := by
  by_contra hlong
  have hback := h.drop hn (Nat.le_of_not_lt hlong)
  have hsame : wrap64 (n + (18446744073709551616 : Nat) * stride step up) = n := by
    refine wrap64_eq hn ⟨-stride step up, ?_⟩
    rw [Nat.cast_ofNat]
    ring
  rw [hsame] at hback
  have hlength := congrArg List.length (h.unique hback)
  rw [List.length_drop] at hlength
  omega

theorem exists_counts_iff {n : Int} (hn : inInt64 n = true) :
    (∃ ns, Counts to_ step up n ns) ↔ ∃ i : Nat, Past to_ up (wrap64 (n + i * stride step up)) := by
  constructor
  · rintro ⟨ns, h⟩
    have hend := h.drop hn (Nat.le_refl _)
    rw [List.drop_length] at hend
    cases hend with
    | past hpast => exact ⟨_, hpast⟩
  · rintro ⟨i, hi⟩
    induction i generalizing n with
    | zero => exact ⟨[], .past (by simpa [wrap64_of_inInt64 hn] using hi)⟩
    | succ i ih =>
        by_cases hpast : Past to_ up n
        · exact ⟨[], .past hpast⟩
        · rw [add_succ_mul, ← wrap64_wrap64_add] at hi
          obtain ⟨ns, hns⟩ := ih (inInt64_wrap64 _) hi
          exact ⟨n :: ns, .next hpast hns⟩

-- The numbers of 64 bits that a count can come across.
theorem exists_step_iff {n m : Int} (hm : inInt64 m = true) :
    (∃ i : Nat, wrap64 (n + i * stride step up) = m) ↔ (Int.gcd step 18446744073709551616 : Int) ∣ m - n := by
  have hstride : Int.gcd (stride step up) 18446744073709551616 = Int.gcd step 18446744073709551616 := by
    unfold stride
    split
    · rfl
    · exact Int.neg_gcd
  rw [← hstride]
  constructor
  · rintro ⟨i, rfl⟩
    have hwrap : (Int.gcd (stride step up) 18446744073709551616 : Int) ∣ wrap64 (n + i * stride step up) -
        (n + i * stride step up) :=
      (Int.gcd_dvd_right ..).trans Int.dvd_bmod_sub_self
    have hstep : (Int.gcd (stride step up) 18446744073709551616 : Int) ∣ i * stride step up :=
      (Int.gcd_dvd_left ..).mul_left _
    have hsum := Int.dvd_add hwrap hstep
    have heq : wrap64 (n + i * stride step up) - (n + i * stride step up) + i * stride step up =
        wrap64 (n + i * stride step up) - n := by ring
    rwa [heq] at hsum
  · rintro ⟨c, hc⟩
    have hbezout := Int.gcd_eq_gcd_ab (stride step up) 18446744073709551616
    generalize stride step up = d at *
    generalize Int.gcdA d 18446744073709551616 = x at hbezout
    generalize Int.gcdB d 18446744073709551616 = y at hbezout
    -- a number of steps that is not negative leads to the same place
    refine ⟨((x * c) % 18446744073709551616).toNat, wrap64_eq hm ?_⟩
    rw [Int.toNat_of_nonneg (Int.emod_nonneg _ (by decide))]
    have hmod := Int.emod_add_mul_ediv (x * c) 18446744073709551616
    refine ⟨y * c + d * (x * c / 18446744073709551616), ?_⟩
    have hstep : x * c % 18446744073709551616 = x * c - 18446744073709551616 * (x * c / 18446744073709551616) := by
      omega
    rw [hstep]
    rw [hbezout] at hc
    linear_combination hc

-- How far the bounded count gets.

theorem stepsOn_past {n : Int} (h : Past to_ up n) (fuel : Nat) (done : List Int) :
    stepsOn to_ step up fuel done n = done.reverse := by
  cases fuel with
  | zero => rfl
  | succ fuel =>
      refine if_neg ?_
      cases up with
      | true => exact Int.not_le.mpr h
      | false => exact Int.not_le.mpr h

theorem stepsOn_next {n : Int} (h : ¬Past to_ up n) (fuel : Nat) (done : List Int) :
    stepsOn to_ step up (fuel + 1) done n = stepsOn to_ step up fuel (n :: done) (wrap64 (n + stride step up)) := by
  cases up with
  | true => exact if_pos (Int.not_lt.mp h)
  | false => exact if_pos (Int.not_lt.mp h)

theorem Counts.stepsOn_eq {n : Int} {ns : List Int} (h : Counts to_ step up n ns) {fuel : Nat} (hfuel : ns.length ≤ fuel)
    (done : List Int) : stepsOn to_ step up fuel done n = done.reverse ++ ns := by
  induction h generalizing fuel done with
  | past hpast => rw [stepsOn_past hpast, List.append_nil]
  | next hnot _ ih =>
      obtain ⟨fuel, rfl⟩ : ∃ k, fuel = k + 1 := ⟨fuel - 1, by grind⟩
      rw [stepsOn_next hnot, ih (Nat.le_of_succ_le_succ hfuel)]
      simp

theorem le_length_stepsOn (fuel : Nat) (done : List Int) (n : Int) :
    done.length ≤ (stepsOn to_ step up fuel done n).length := by
  induction fuel generalizing done n with
  | zero => simp [stepsOn]
  | succ fuel ih =>
      by_cases hpast : Past to_ up n
      · simp [stepsOn_past hpast]
      · rw [stepsOn_next hpast]
        exact Nat.le_of_succ_le (ih (n :: done) _)

theorem lt_length_stepsOn {n : Int} (hn : inInt64 n = true) {j : Nat}
    (h : ∀ i ≤ j, ¬Past to_ up (wrap64 (n + i * stride step up))) {fuel : Nat} (hfuel : j < fuel) (done : List Int) :
    done.length + j < (stepsOn to_ step up fuel done n).length := by
  induction j generalizing n fuel done with
  | zero =>
      obtain ⟨fuel, rfl⟩ : ∃ k, fuel = k + 1 := ⟨fuel - 1, by omega⟩
      have hfirst : ¬Past to_ up n := by simpa [wrap64_of_inInt64 hn] using h 0 (Nat.le_refl 0)
      rw [stepsOn_next hfirst]
      exact le_length_stepsOn fuel (n :: done) _
  | succ j ih =>
      obtain ⟨fuel, rfl⟩ : ∃ k, fuel = k + 1 := ⟨fuel - 1, by omega⟩
      have hfirst : ¬Past to_ up n := by simpa [wrap64_of_inInt64 hn] using h 0 (Nat.zero_le _)
      have hrest : ∀ i ≤ j, ¬Past to_ up (wrap64 (wrap64 (n + stride step up) + i * stride step up)) := by
        intro i hi
        rw [wrap64_wrap64_add, ← add_succ_mul]
        exact h (i + 1) (Nat.succ_le_succ hi)
      have hlength := ih (inInt64_wrap64 _) hrest (Nat.lt_of_succ_lt_succ hfuel) (n :: done)
      rw [List.length_cons] at hlength
      rw [stepsOn_next hfirst]
      omega

-- A count whose numbers all fit.
theorem counts_range {n : Int} {j : Nat} (hnot : ∀ i < j, ¬Past to_ up (n + i * stride step up))
    (hpast : Past to_ up (n + j * stride step up)) (hfits : ∀ i ≤ j, inInt64 (n + i * stride step up) = true) :
    Counts to_ step up n ((List.range j).map fun i : Nat => n + i * stride step up) := by
  induction j generalizing n with
  | zero => exact .past (by simpa using hpast)
  | succ j ih =>
      have hsum := add_succ_mul n (stride step up)
      have hnext : wrap64 (n + stride step up) = n + stride step up :=
        wrap64_of_inInt64 (by simpa using hfits 1 (by omega))
      have hrest := ih (n := n + stride step up) (fun i hi => hsum i ▸ hnot (i + 1) (by omega)) (hsum j ▸ hpast)
        (fun i hi => hsum i ▸ hfits (i + 1) (by omega))
      have hlist : (List.range (j + 1)).map (fun i : Nat => n + (i : Int) * stride step up) =
          n :: (List.range j).map fun i : Nat => n + stride step up + (i : Int) * stride step up := by
        rw [List.range_succ_eq_map, List.map_cons, List.map_map]
        simp only [Function.comp_def, Nat.succ_eq_add_one, hsum]
        simp
      rw [hlist]
      refine .next (by simpa using hnot 0 (by omega)) ?_
      rwa [hnext]

end Count

section Range

-- How many numbers come after `a`, and all of them: `a`, `a ± k`, `a ± 2 * k` and so on as far as `b`.
def further (a b k : Int) : Nat := (b - a).natAbs / k.natAbs

def numbers (a b k : Int) : List Int := (List.range (further a b k + 1)).map fun i : Nat => a + i * stride k (a ≤ b)

variable {a b k : Int}

theorem length_numbers : (numbers a b k).length = further a b k + 1 := by simp [numbers]

section

variable (hk : 0 < k)

include hk

theorem not_past_iff (i : Nat) : ¬Past b (a ≤ b) (a + i * stride k (a ≤ b)) ↔ i ≤ further a b k := by
  have hcast : ((i * k.natAbs : Nat) : Int) = i * k := by
    rw [Nat.cast_mul, Int.natAbs_of_nonneg hk.le]
  rw [further, Nat.le_div_iff_mul_le (Int.natAbs_pos.mpr hk.ne')]
  by_cases hup : a ≤ b
  · simp only [Past, stride, hup, decide_true, if_true]
    omega
  · simp only [Past, stride, hup, decide_false, Bool.false_eq_true, if_false, Int.mul_neg]
    omega

-- The numbers up to the end lie between the ends.
theorem inInt64_numbers (ha : inInt64 a = true) (hb : inInt64 b = true) {i : Nat} (hi : i ≤ further a b k) :
    inInt64 (a + i * stride k (a ≤ b)) = true := by
  have hnot := (not_past_iff hk i).mpr hi
  have hpos : 0 ≤ (i : Int) * k := Int.mul_nonneg (Int.natCast_nonneg i) hk.le
  rw [inInt64_iff] at ha hb ⊢
  by_cases hup : a ≤ b
  · simp only [Past, stride, hup, decide_true, if_true] at hnot ⊢
    omega
  · simp only [Past, stride, hup, decide_false, Bool.false_eq_true, if_false, Int.mul_neg] at hnot ⊢
    omega

-- The first number past the end, if it fits.
theorem counts_numbers (ha : inInt64 a = true) (hb : inInt64 b = true)
    (hnext : inInt64 (a + (further a b k + 1 : Nat) * stride k (a ≤ b)) = true) :
    Counts b k (a ≤ b) a (numbers a b k) := by
  refine counts_range (fun i hi => (not_past_iff hk i).mpr (Nat.le_of_lt_succ hi)) ?_ fun i hi => ?_
  · by_contra hnot
    exact absurd ((not_past_iff hk _).mp hnot) (by omega)
  · rcases Nat.lt_or_eq_of_le hi with hi | rfl
    · exact inInt64_numbers hk ha hb (Nat.le_of_lt_succ hi)
    · exact hnext

-- If it does not fit, it is not past the end any more.
theorem not_past_of_wrapped (ha : inInt64 a = true) (hb : inInt64 b = true) (hsmall : k ≤ 9223372036854775807)
    (hnext : inInt64 (a + (further a b k + 1 : Nat) * stride k (a ≤ b)) = false) :
    ¬Past b (a ≤ b) (wrap64 (a + (further a b k + 1 : Nat) * stride k (a ≤ b))) := by
  have hlast := (not_past_iff hk (further a b k)).mpr (Nat.le_refl _)
  have hout := mt inInt64_iff.mpr (Bool.eq_false_iff.mp hnext)
  rw [inInt64_iff] at ha hb
  have hsum : ((further a b k + 1 : Nat) : Int) * k = further a b k * k + k := by
    push_cast
    ring
  have hpos : 0 ≤ (further a b k : Int) * k := Int.mul_nonneg (Int.natCast_nonneg _) hk.le
  by_cases hup : a ≤ b
  · simp only [Past, stride, hup, decide_true, if_true, hsum] at hlast hout ⊢
    have hwrap : wrap64 (a + (further a b k * k + k)) = a + (further a b k * k + k) - 18446744073709551616 :=
      wrap64_eq (inInt64_iff.mpr (by omega)) ⟨-1, by ring⟩
    omega
  · simp only [Past, stride, hup, decide_false, Bool.false_eq_true, if_false, Int.mul_neg, hsum] at hlast hout ⊢
    have hwrap : wrap64 (a + -(further a b k * k + k)) = a + -(further a b k * k + k) + 18446744073709551616 :=
      wrap64_eq (inInt64_iff.mpr (by omega)) ⟨1, by ring⟩
    omega

-- What the bounded count gives.
theorem steps_numbers (ha : inInt64 a = true) (hb : inInt64 b = true)
    (hnext : inInt64 (a + (further a b k + 1 : Nat) * stride k (a ≤ b)) = true) : steps a b k = numbers a b k := by
  have hcounts := counts_numbers hk ha hb hnext
  exact hcounts.stepsOn_eq ((hcounts.length_lt ha).le.trans (by decide)) []

theorem lt_length_steps (ha : inInt64 a = true) (hb : inInt64 b = true) (hsmall : k ≤ 9223372036854775807)
    (hnext : inInt64 (a + (further a b k + 1 : Nat) * stride k (a ≤ b)) = false) :
    further a b k + 1 < (steps a b k).length := by
  have hnot : ∀ i ≤ further a b k + 1, ¬Past b (a ≤ b) (wrap64 (a + i * stride k (a ≤ b))) := by
    intro i hi
    rcases Nat.lt_or_eq_of_le hi with hi | rfl
    · have hi := Nat.le_of_lt_succ hi
      rw [wrap64_of_inInt64 (inInt64_numbers hk ha hb hi)]
      exact (not_past_iff hk i).mpr hi
    · exact not_past_of_wrapped hk ha hb hsmall hnext
  have hfurther : further a b k ≤ 18446744073709551615 := by
    rw [inInt64_iff] at ha hb
    exact (Nat.div_le_self _ _).trans (by omega)
  have hfuel : further a b k + 1 < 18446744073709551617 := by omega
  have hlength := lt_length_stepsOn ha hnot hfuel []
  rwa [List.length_nil, Nat.zero_add] at hlength

end

end Range

-- The size of a step: zero counts as one.
def size (n : Int) : Int := max n.natAbs 1

theorem stepSize_pos (n : Int) : 0 < stepSize n := lt_max_of_lt_right Int.zero_lt_one

theorem stepSize_le (n : Int) : stepSize n ≤ 9223372036854775807 :=
  max_le (inInt64_iff.mp (inInt64_wrap64 _)).2 (by decide)

theorem stepSize_eq {n : Int} (hn : inInt64 n = true) (hmin : n ≠ minInt64) : stepSize n = size n := by
  have hneg : minInt64 = -9223372036854775808 := rfl
  rw [inInt64_iff] at hn
  rw [stepSize, size, wrap64_of_inInt64]
  rw [inInt64_iff]
  omega

-- The least number has no counterpart.
theorem stepSize_min : stepSize minInt64 = 1 := by decide

-- A count that needs no number that 64 bits cannot hold: the step has the size that is asked for, and the first number
-- past the end fits.
def Fits (a b n : Int) : Prop :=
  (n ≠ minInt64 ∨ a = b) ∧
    inInt64 (a + (further a b (stepSize n) + 1 : Nat) * stride (stepSize n) (a ≤ b)) = true

instance (a b n : Int) : Decidable (Fits a b n) := inferInstanceAs (Decidable (_ ∧ _))

theorem numbers_stepSize {a b n : Int} (hn : inInt64 n = true) (h : n ≠ minInt64 ∨ a = b) :
    numbers a b (stepSize n) = numbers a b (size n) := by
  rcases h with h | rfl
  · rw [stepSize_eq hn h]
  · simp [numbers, further]

theorem further_size_le {a b n : Int} (hn : inInt64 n = true) : further a b (size n) ≤ further a b (stepSize n) := by
  by_cases hmin : n = minInt64
  · rw [hmin, stepSize_min]
    exact Nat.div_le_div_left (by decide) (by decide)
  · rw [stepSize_eq hn hmin]

theorem length_steps_ne {a b n : Int} (ha : inInt64 a = true) (hb : inInt64 b = true) (hn : inInt64 n = true)
    (h : ¬Fits a b n) : (steps a b (stepSize n)).length ≠ (numbers a b (size n)).length := by
  rw [length_numbers]
  cases hnext : inInt64 (a + (further a b (stepSize n) + 1 : Nat) * stride (stepSize n) (a ≤ b)) with
  | false =>
      have hsize := further_size_le (a := a) (b := b) hn
      have hlength := lt_length_steps (stepSize_pos n) ha hb (stepSize_le n) hnext
      omega
  | true =>
      obtain ⟨rfl, hab⟩ : n = minInt64 ∧ a ≠ b := by
        by_contra hother
        exact h ⟨by tauto, hnext⟩
      rw [steps_numbers (stepSize_pos _) ha hb hnext, length_numbers, stepSize_min]
      have hone : further a b 1 = (b - a).natAbs := Nat.div_one _
      have hlarge : further a b (size minInt64) = (b - a).natAbs / 9223372036854775808 := rfl
      omega

theorem steps_eq_numbers_iff {a b n : Int} (ha : inInt64 a = true) (hb : inInt64 b = true) (hn : inInt64 n = true) :
    steps a b (stepSize n) = numbers a b (size n) ↔ Fits a b n := by
  constructor
  · intro heq
    by_contra h
    exact length_steps_ne ha hb hn h (congrArg List.length heq)
  · rintro ⟨h, hnext⟩
    rw [steps_numbers (stepSize_pos n) ha hb hnext, numbers_stepSize hn h]

section Width

-- A bound with a needless zero in front says how wide the numbers are.
def ZeroLed (s : String) : Prop := ∃ c cs, s.toList = '0' :: c :: cs ∨ s.toList = '-' :: '0' :: c :: cs

-- The width of the wider of the two bounds, as far as they say one.
def IsWidth (w : Nat) (from_ to_ : String) : Prop :=
  (∀ s ∈ [from_, to_], ZeroLed s → s.length ≤ w) ∧ (w = 0 ∨ ∃ s ∈ [from_, to_], ZeroLed s ∧ s.length = w)

-- A number in decimal digits, with zeros in front of them as far as it is less wide than `w`.
structure IsPadded (w : Nat) (n : Int) (t : String) : Prop where
  shape : ∃ ds, (∀ d ∈ ds, Text.isDigit d = true) ∧ t.toList = Text.signOf n ++ ds
  value : Text.intOfDigits? 10 t = some n
  length : t.length = max w (toString n).length

theorem widthOf_zeroLed {s : String} (h : ZeroLed s) : widthOf s = s.length := by
  obtain ⟨c, cs, hs | hs⟩ := h
  · simp [widthOf, Text.withoutPrefix, Text.hasPrefix, hs]
  · simp [widthOf, Text.withoutPrefix, Text.hasPrefix, Text.dropFront, hs]

theorem zeroLed_of_widthOf {s : String} (h : widthOf s ≠ 0) : ZeroLed s := by
  unfold widthOf at h
  split at h
  · next c cs hs =>
    refine ⟨c, cs, ?_⟩
    rw [Text.withoutPrefix] at hs
    split at hs
    · next hprefix =>
      obtain ⟨rest, hrest⟩ := List.isPrefixOf_iff_prefix.mp hprefix
      refine .inr ?_
      simp [Text.dropFront, ← hrest] at hs
      simp [← hrest, hs]
    · exact .inl hs
  · exact absurd rfl h

theorem isWidth_widthOf (from_ to_ : String) : IsWidth (max (widthOf from_) (widthOf to_)) from_ to_ := by
  constructor
  · intro s hs hled
    rw [← widthOf_zeroLed hled]
    simp only [List.mem_cons, List.not_mem_nil, or_false] at hs
    rcases hs with rfl | rfl
    · exact le_max_left ..
    · exact le_max_right ..
  · have hone (s : String) (hs : s ∈ [from_, to_]) (hw : widthOf s ≠ 0) :
        ∃ t ∈ [from_, to_], ZeroLed t ∧ t.length = widthOf s :=
      ⟨s, hs, zeroLed_of_widthOf hw, (widthOf_zeroLed (zeroLed_of_widthOf hw)).symm⟩
    by_cases hzero : max (widthOf from_) (widthOf to_) = 0
    · exact .inl hzero
    · refine .inr ?_
      rcases Nat.le_total (widthOf from_) (widthOf to_) with hle | hle
      · rw [Nat.max_eq_right hle] at hzero ⊢
        exact hone to_ (by simp) hzero
      · rw [Nat.max_eq_left hle] at hzero ⊢
        exact hone from_ (by simp) hzero

theorem toList_padded (w : Nat) (n : Int) : (padded w n).toList = Text.signOf n ++
    (List.replicate (w - (Nat.toDigits 10 n.natAbs).length - (Text.signOf n).length) '0' ++ Nat.toDigits 10 n.natAbs) := by
  by_cases hn : n < 0 <;>
    simp [padded, Text.signOf, hn, Nat.toString_eq_repr, Nat.repr_eq_ofList_toDigits, String.length_ofList]

theorem padded_zero (n : Int) : padded 0 n = toString n := by
  rw [← String.ofList_toList (s := padded 0 n), toList_padded, Text.toString_eq_ofList]
  simp

theorem isPadded_padded (w : Nat) (n : Int) : IsPadded w n (padded w n) := by
  have hdigits : ∀ d ∈ List.replicate (w - (Nat.toDigits 10 n.natAbs).length - (Text.signOf n).length) '0' ++
      Nat.toDigits 10 n.natAbs, Text.isDigit d = true := by
    intro d hd
    rcases List.mem_append.mp hd with hd | hd
    · rw [List.eq_of_mem_replicate hd]
      rfl
    · exact Nat.isDigit_of_mem_toDigits (by decide) (by decide) hd
  have hlist := toList_padded w n
  refine ⟨⟨_, hdigits, hlist⟩, ?_, ?_⟩
  · rw [← String.ofList_toList (s := padded w n), hlist]
    refine Text.intOfDigits?_signOf hdigits (by simp [Nat.toDigits_ne_nil]) ?_
    rw [Nat.ofDigitChars_append, Nat.ofDigitChars_replicate_zero, Nat.mul_zero, Nat.ofDigitChars_ten_toDigits]
  · rw [← String.length_toList, hlist, Text.toString_eq_ofList, String.length_ofList]
    simp only [List.length_append, List.length_replicate]
    omega

end Width

-- Two bounds and a step that are numbers of 64 bits. A step that is left out is one.
structure IsRange (elems : List Program.Word) (from_ to_ : String) (a b n : Int) : Prop where
  texts : elems.map wordText = [from_, to_] ∧ n = 1 ∨
    ∃ s, elems.map wordText = [from_, to_, s] ∧ Text.int64? s = some n
  first : Text.int64? from_ = some a
  last : Text.int64? to_ = some b

section Sequence

variable {elems : List Program.Word} {from_ to_ : String} {a b n : Int}

theorem IsRange.inInt64 (h : IsRange elems from_ to_ a b n) :
    Text.inInt64 a = true ∧ Text.inInt64 b = true ∧ Text.inInt64 n = true := by
  refine ⟨(Option.filter_eq_some_iff.mp h.first).2, (Option.filter_eq_some_iff.mp h.last).2, ?_⟩
  rcases h.texts with ⟨-, rfl⟩ | ⟨s, -, hs⟩
  · rfl
  · exact (Option.filter_eq_some_iff.mp hs).2

theorem sequence?_eq (h : IsRange elems from_ to_ a b n) :
    sequence? elems = some ((steps a b (stepSize n)).map (padded (max (widthOf from_) (widthOf to_)))) := by
  have htext : (fun m => if max (widthOf from_) (widthOf to_) > 0 then padded (max (widthOf from_) (widthOf to_)) m
      else toString m) = padded (max (widthOf from_) (widthOf to_)) := by
    funext m
    split
    · rfl
    · next hzero => rw [Nat.eq_zero_of_not_pos hzero, padded_zero]
  rcases h.texts with ⟨htexts, rfl⟩ | ⟨s, htexts, hs⟩
  · simp only [sequence?, htexts, h.first, h.last, htext]
    rfl
  · simp only [sequence?, htexts, hs, h.first, h.last, htext, Option.bind_some]

theorem forall₂_padded (w : Nat) (ns : List Int) : List.Forall₂ (IsPadded w) ns (ns.map (padded w)) := by
  rw [List.forall₂_map_right_iff, List.forall₂_same]
  exact fun n _ => isPadded_padded w n

-- A range ends if and only if the count can come upon a number past the end at all. The numbers that it comes across are
-- those that are asked for if and only if it needs no number that 64 bits cannot hold, and the texts are theirs.
theorem sequence_of_numbers (h : IsRange elems from_ to_ a b n) :
    ((∃ ns, Counts b (stepSize n) (a ≤ b) a ns) ↔ ∃ m, Text.inInt64 m = true ∧ Past b (a ≤ b) m ∧
      (Int.gcd (stepSize n) 18446744073709551616 : Int) ∣ m - a) ∧
    (Counts b (stepSize n) (a ≤ b) a (numbers a b (size n)) ↔ Fits a b n) ∧
    ∃ w, IsWidth w from_ to_ ∧
      (∀ ns, Counts b (stepSize n) (a ≤ b) a ns →
        ∃ ts, sequence? elems = some ts ∧ List.Forall₂ (IsPadded w) ns ts) ∧
      ((∃ ts, sequence? elems = some ts ∧ List.Forall₂ (IsPadded w) (numbers a b (size n)) ts) ↔ Fits a b n) := by
  obtain ⟨ha, hb, hn⟩ := h.inInt64
  have hsteps {ns : List Int} (hcounts : Counts b (stepSize n) (a ≤ b) a ns) : steps a b (stepSize n) = ns :=
    hcounts.stepsOn_eq ((hcounts.length_lt ha).le.trans (by decide)) []
  have hcounts (hfits : Fits a b n) : Counts b (stepSize n) (a ≤ b) a (numbers a b (size n)) := by
    rw [← numbers_stepSize hn hfits.1]
    exact counts_numbers (stepSize_pos n) ha hb hfits.2
  refine ⟨?_, ⟨fun h => (steps_eq_numbers_iff ha hb hn).mp (hsteps h), hcounts⟩, _, isWidth_widthOf from_ to_, ?_, ?_⟩
  · rw [exists_counts_iff ha]
    constructor
    · rintro ⟨i, hpast⟩
      exact ⟨_, inInt64_wrap64 _, hpast, (exists_step_iff (inInt64_wrap64 _)).mp ⟨i, rfl⟩⟩
    · rintro ⟨m, hm, hpast, hdvd⟩
      obtain ⟨i, hi⟩ := (exists_step_iff hm).mpr hdvd
      exact ⟨i, hi ▸ hpast⟩
  · intro ns hns
    rw [sequence?_eq h, hsteps hns]
    exact ⟨_, rfl, forall₂_padded _ ns⟩
  · rw [sequence?_eq h]
    constructor
    · rintro ⟨ts, hts, hpadded⟩
      obtain rfl := Option.some.inj hts
      by_contra hfits
      refine length_steps_ne ha hb hn hfits ?_
      rw [hpadded.length_eq, List.length_map]
    · intro hfits
      rw [hsteps (hcounts hfits)]
      exact ⟨_, rfl, forall₂_padded _ _⟩

end Sequence

theorem sequence_of_padded_numbers :
    let elems : List Program.Word := [⟨[.lit "08" false]⟩, ⟨[.lit "-2" false]⟩, ⟨[.lit "3" false]⟩]
    IsRange elems "08" "-2" 8 (-2) 3 ∧ Fits 8 (-2) 3 ∧ numbers 8 (-2) (size 3) = [8, 5, 2, -1] ∧
      ∃ w, IsWidth w "08" "-2" ∧ ∃ ts, sequence? elems = some ts ∧
        List.Forall₂ (IsPadded w) (numbers 8 (-2) (size 3)) ts := by
  intro elems
  have hrange : IsRange elems "08" "-2" 8 (-2) 3 :=
    ⟨.inr ⟨"3", by simp [elems, wordText, partsText], by decide +kernel⟩, by decide +kernel, by decide +kernel⟩
  have hfits : Fits 8 (-2) 3 := by decide
  obtain ⟨-, -, w, hw, -, htexts⟩ := sequence_of_numbers hrange
  exact ⟨hrange, hfits, by decide, w, hw, htexts.mpr hfits⟩

-- The count comes back from the other end.
theorem sequence_comes_back :
    let elems : List Program.Word :=
      [⟨[.lit "1" false]⟩, ⟨[.lit "3" false]⟩, ⟨[.lit "9223372036854775807" false]⟩]
    IsRange elems "1" "3" 1 3 9223372036854775807 ∧ numbers 1 3 (size 9223372036854775807) = [1] ∧
      sequence? elems = some ["1", "-9223372036854775808", "-1"] := by
  intro elems
  have hrange : IsRange elems "1" "3" 1 3 9223372036854775807 :=
    ⟨.inr ⟨"9223372036854775807", by simp [elems, wordText, partsText], by decide +kernel⟩, by decide +kernel,
      by decide +kernel⟩
  refine ⟨hrange, by decide +kernel, ?_⟩
  rw [sequence?_eq hrange]
  decide +kernel

end Brace
end Machine
end ShellScript

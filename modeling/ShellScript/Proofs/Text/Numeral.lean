import ShellScript.Text.Integer

-- A text that is read as a number has no characters but digits, and underscores if it names its own base.
namespace ShellScript
namespace Text

def isNumeralChar (c : Char) : Bool := (digitValue? c).isSome || c == '_'

theorem isNumeralChar_of_digit {c : Char} {d : Nat} (h : digitValue? c = some d) : isNumeralChar c = true := by
  simp [isNumeralChar, h]

theorem natOfDigits?_all {base v n : Nat} {cs : List Char} (h : natOfDigits? base v cs = some n) :
    ∀ c ∈ cs, isNumeralChar c = true := by
  induction cs generalizing v with
  | nil => simp
  | cons c cs ih =>
      rw [natOfDigits?] at h
      split at h
      · next d hd =>
        split at h
        · exact List.forall_mem_cons.mpr ⟨isNumeralChar_of_digit hd, ih h⟩
        · cases h
      · cases h

-- Digits behind the limit are not looked at, but then the limit is all there is.
theorem limited_all {base limit v n : Nat} {u whole : Bool} {cs : List Char}
    (h : limited base limit u v cs = some (n, whole)) :
    (∀ c ∈ cs, isNumeralChar c = true) ∨ n = limit := by
  induction cs generalizing v with
  | nil => simp
  | cons c cs ih =>
      rw [limited] at h
      split at h
      · next hunder =>
        have hc : isNumeralChar c = true := by
          rw [isNumeralChar, (Bool.and_eq_true_iff.mp hunder).2, Bool.or_true]
        exact (ih h).imp_left fun hcs => List.forall_mem_cons.mpr ⟨hc, hcs⟩
      · split at h
        · next d hd =>
          split at h
          · cases h
          · split at h
            · cases h
              exact .inr rfl
            · exact (ih h).imp_left fun hcs => List.forall_mem_cons.mpr ⟨isNumeralChar_of_digit hd, hcs⟩
        · cases h

theorem isNumeralChar_of_toLower {c : Char} (h : isNumeralChar c.toLower = true) : isNumeralChar c = true := by
  by_cases hupper : isUpper c = true
  · simp only [isNumeralChar, digitValue?, hupper, if_true]
    split <;> (try split) <;> rfl
  · have hsame : c.toLower = c := by
      unfold Char.toLower
      rw [dif_neg]
      intro hc
      apply hupper
      simpa [isUpper, Char.le_def] using hc
    rwa [hsame] at h

-- The mark of a base has no other characters either.
theorem baseMark_all {cs : List Char} (h : ∀ c ∈ (baseMark cs).2, isNumeralChar c = true) :
    ∀ c ∈ cs, isNumeralChar c = true := by
  have hzero : isNumeralChar '0' = true := by decide
  unfold baseMark at h
  split at h
  · next b c cs =>
    dsimp only at h
    have hmark (m : Char) (hm : isNumeralChar m = true) (hb : b.toLower = m) (h : ∀ d ∈ c :: cs, isNumeralChar d = true) :
        ∀ d ∈ '0' :: b :: c :: cs, isNumeralChar d = true :=
      List.forall_mem_cons.mpr ⟨hzero, List.forall_mem_cons.mpr ⟨isNumeralChar_of_toLower (hb ▸ hm), h⟩⟩
    split at h
    · next hb => exact hmark 'b' (by decide) (beq_iff_eq.mp hb) h
    split at h
    · next hb => exact hmark 'o' (by decide) (beq_iff_eq.mp hb) h
    split at h
    · next hb => exact hmark 'x' (by decide) (beq_iff_eq.mp hb) h
    · exact List.forall_mem_cons.mpr ⟨hzero, h⟩
  · exact List.forall_mem_cons.mpr ⟨hzero, h⟩
  · exact h

theorem uint64_all {base n : Nat} {whole : Bool} {cs : List Char} (h : uint64 base cs = some (n, whole)) :
    (∀ c ∈ cs, isNumeralChar c = true) ∨ n = maxUInt64 := by
  unfold uint64 at h
  split at h
  · cases h
  · split at h
    · dsimp only at h
      split at h
      · next v hv =>
        split at h
        · cases h
        · cases h
          exact (limited_all hv).imp_left baseMark_all
      · exact (limited_all h).imp_left baseMark_all
    · exact limited_all h

-- A number that fits has been read to its end.
theorem int64_all {base : Nat} {s : String} {n : Int} (h : (int64 base s).toOption = some n) :
    ∀ c ∈ (splitSign s.toList).2, isNumeralChar c = true := by
  unfold int64 at h
  dsimp only at h
  split at h
  · cases h
  · next v whole hv =>
    refine (uint64_all hv).resolve_right ?_
    rintro rfl
    split at h
    · cases h
    · cases h

theorem int64?_all {s : String} {n : Int} (h : int64? s = some n) :
    ∀ c ∈ (splitSign s.toList).2, isNumeralChar c = true := by
  have hread : intOfDigits? 10 s = some n := (Option.filter_eq_some_iff.mp h).1
  unfold intOfDigits? at hread
  split at hread
  · cases hread
  · next hsplit =>
    obtain ⟨_, hvalue, -⟩ := Option.map_eq_some_iff.mp hread
    obtain ⟨m, hm, -⟩ := Option.bind_eq_some_iff.mp hvalue
    rw [hsplit]
    exact natOfDigits?_all hm

-- Numbers of 64 bits.

theorem inInt64_iff {n : Int} : inInt64 n = true ↔ -9223372036854775808 ≤ n ∧ n ≤ 9223372036854775807 := by
  rw [inInt64, Bool.and_eq_true, decide_eq_true_iff, decide_eq_true_iff]
  rfl

theorem inInt64_wrap64 (n : Int) : inInt64 (wrap64 n) = true := by
  have hlow := Int.le_bmod (x := n) (m := 18446744073709551616) (by decide)
  have hhigh := Int.bmod_lt (x := n) (m := 18446744073709551616) (by decide)
  rw [inInt64_iff, wrap64]
  omega

theorem wrap64_eq {n m : Int} (hm : inInt64 m = true) (h : (18446744073709551616 : Int) ∣ m - n) : wrap64 n = m := by
  rw [inInt64_iff] at hm
  exact (Int.bmod_eq_iff (by decide)).mpr ⟨by omega, by omega, h⟩

theorem wrap64_of_inInt64 {n : Int} (h : inInt64 n = true) : wrap64 n = n :=
  wrap64_eq h (by simp)

theorem wrap64_wrap64_add (n k : Int) : wrap64 (wrap64 n + k) = wrap64 (n + k) := Int.bmod_add_bmod

-- Only decimal digits have a value below ten.
theorem digitValue?_of_isDigit {c : Char} (h : isDigit c = true) : digitValue? c = some (c.toNat - '0'.toNat) := if_pos h

theorem lt_ten_of_isDigit {c : Char} (h : isDigit c = true) : c.toNat - '0'.toNat < 10 := by
  simp only [isDigit, Bool.and_eq_true, decide_eq_true_eq, Char.le_def, UInt32.le_iff_toNat_le] at h
  have hzero : '0'.toNat = 48 := rfl
  have hnine : '9'.val.toNat = 57 := rfl
  have hval : c.toNat = c.val.toNat := rfl
  omega

theorem natOfDigits?_of_isDigit {cs : List Char} (h : ∀ c ∈ cs, isDigit c = true) (v : Nat) :
    natOfDigits? 10 v cs = some (Nat.ofDigitChars 10 cs v) := by
  induction cs generalizing v with
  | nil => rfl
  | cons c cs ih =>
      have hc := List.forall_mem_cons.mp h
      simp only [natOfDigits?, digitValue?_of_isDigit hc.1, if_pos (lt_ten_of_isDigit hc.1), ih hc.2,
        Nat.ofDigitChars_cons, Nat.mul_comm v 10]

theorem le_ofDigitChars (cs : List Char) (v : Nat) : v ≤ Nat.ofDigitChars 10 cs v := by
  induction cs generalizing v with
  | nil => exact Nat.le_refl v
  | cons c cs ih =>
      rw [Nat.ofDigitChars_cons]
      exact Nat.le_trans (by omega) (ih _)

theorem limited_of_isDigit {cs : List Char} (h : ∀ c ∈ cs, isDigit c = true) {limit v : Nat} {underscores : Bool}
    (hlimit : Nat.ofDigitChars 10 cs v ≤ limit) :
    limited 10 limit underscores v cs = some (Nat.ofDigitChars 10 cs v, true) := by
  induction cs generalizing v with
  | nil => rfl
  | cons c cs ih =>
      have hc := List.forall_mem_cons.mp h
      rw [Nat.ofDigitChars_cons, Nat.mul_comm 10 v] at hlimit ⊢
      have hfits := Nat.le_trans (le_ofDigitChars cs _) hlimit
      have hdigit : (c == '_') = false := by
        rw [beq_eq_false_iff_ne]
        rintro rfl
        cases hc.1
      simp only [limited, digitValue?_of_isDigit hc.1, hdigit, Bool.and_false, Bool.false_eq_true, if_false]
      rw [if_neg (Nat.not_le.mpr (lt_ten_of_isDigit hc.1)), if_neg (Nat.not_lt.mpr hfits)]
      exact ih hc.2 hlimit

-- What stands in front of the digits of a number.
def signOf (n : Int) : List Char := if n < 0 then ['-'] else []

theorem splitSign_signOf {n : Int} {ds : List Char} (hds : ∀ d ∈ ds, isDigit d = true) :
    splitSign (signOf n ++ ds) = (decide (n < 0), ds) := by
  unfold signOf
  split
  · next hn => simp [splitSign, hn]
  · next hn =>
    cases ds with
    | nil => simp [splitSign, hn]
    | cons d ds =>
        have hd := (List.forall_mem_cons.mp hds).1
        have hplus : d ≠ '+' := by rintro rfl; cases hd
        have hminus : d ≠ '-' := by rintro rfl; cases hd
        simp [splitSign, hn, hplus, hminus]

theorem intOfDigits?_signOf {n : Int} {ds : List Char} (hds : ∀ d ∈ ds, isDigit d = true) (hne : ds ≠ [])
    (hvalue : Nat.ofDigitChars 10 ds 0 = n.natAbs) : intOfDigits? 10 (String.ofList (signOf n ++ ds)) = some n := by
  obtain ⟨d, ds, rfl⟩ := List.exists_cons_of_ne_nil hne
  have hsigned : (if decide (n < 0) = true then -(n.natAbs : Int) else n.natAbs) = n := by
    simp only [decide_eq_true_eq]
    omega
  rw [intOfDigits?, String.toList_ofList, splitSign_signOf hds]
  dsimp only
  rw [natOfDigits?_of_isDigit hds, hvalue]
  exact congrArg some hsigned

theorem toString_eq_ofList (n : Int) : toString n = String.ofList (signOf n ++ Nat.toDigits 10 n.natAbs) := by
  rw [Int.toString_eq_repr, Int.repr_eq_if, signOf]
  by_cases hn : n < 0
  · have habs : (-n).toNat = n.natAbs := by omega
    rw [if_neg (by omega), if_pos hn, habs, Nat.repr_eq_ofList_toDigits, String.ofList_append]
  · have habs : n.toNat = n.natAbs := by omega
    rw [if_pos (by omega), if_neg hn, habs, Nat.repr_eq_ofList_toDigits, List.nil_append]

theorem isDigit_of_mem_toDigits {m : Nat} : ∀ d ∈ Nat.toDigits 10 m, isDigit d = true :=
  fun _ hd => Nat.isDigit_of_mem_toDigits (by decide) (by decide) hd

-- A number is written without zeros in front, so its digits are read as decimal ones.
theorem head_toDigits {m : Nat} (hm : 0 < m) : ∃ c cs, Nat.toDigits 10 m = c :: cs ∧ c ≠ '0' := by
  induction m using Nat.strongRecOn with
  | _ m ih =>
      by_cases hlt : m < 10
      · refine ⟨Nat.digitChar m, [], Nat.toDigits_of_lt_base hlt, ?_⟩
        have hall : ∀ m < 10, 0 < m → Nat.digitChar m ≠ '0' := by decide
        exact hall m hlt hm
      · obtain ⟨c, cs, hcs, hc⟩ := ih (m / 10) (by omega) (by omega)
        refine ⟨c, cs ++ Nat.toDigits 10 (m % 10), ?_, hc⟩
        have happend := Nat.toDigits_append_toDigits (b := 10) (n := m / 10) (d := m % 10) (by decide) (by omega) (by omega)
        rw [Nat.div_add_mod] at happend
        rw [← happend, hcs, List.cons_append]

theorem int64_toDigits {m : Nat} (hm : (m : Int) ≤ maxInt64) : int64 0 (String.ofList (Nat.toDigits 10 m)) = .ok m := by
  have hvalue : Nat.ofDigitChars 10 (Nat.toDigits 10 m) 0 = m := Nat.ofDigitChars_toDigits (by decide) (by decide)
  have hsign : splitSign (Nat.toDigits 10 m) = (false, Nat.toDigits 10 m) := by
    have hsigned := splitSign_signOf (n := (m : Int)) (isDigit_of_mem_toDigits (m := m))
    rwa [signOf, if_neg (by omega), decide_eq_false (by omega), List.nil_append] at hsigned
  have hread : uint64 0 (Nat.toDigits 10 m) = some (m, true) := by
    have hfits : Nat.ofDigitChars 10 (Nat.toDigits 10 m) 0 ≤ maxUInt64 := by
      rw [hvalue]
      simp only [maxInt64, maxUInt64] at hm ⊢
      omega
    have hlimited : limited 10 maxUInt64 true 0 (Nat.toDigits 10 m) = some (m, true) :=
      (limited_of_isDigit isDigit_of_mem_toDigits hfits).trans (by rw [hvalue])
    cases Nat.eq_zero_or_pos m with
    | inl hzero =>
        subst hzero
        rfl
    | inr hpos =>
        obtain ⟨c, cs, hcs, hc⟩ := head_toDigits hpos
        have hbase : baseMark (Nat.toDigits 10 m) = (10, Nat.toDigits 10 m) := by
          rw [hcs, baseMark]
          · exact fun _ _ _ h => hc (List.cons.inj h).1
          · exact fun _ h => hc (List.cons.inj h).1
        have hnonempty : (Nat.toDigits 10 m).isEmpty = false := by rw [hcs]; rfl
        have hplain : (Nat.toDigits 10 m).contains '_' = false := by
          rw [List.contains_eq_mem, decide_eq_false_iff_not]
          exact fun hmem => nomatch isDigit_of_mem_toDigits _ hmem
        rw [uint64, hnonempty, if_neg Bool.false_ne_true, if_pos (by rfl), hbase]
        dsimp only
        rw [hlimited]
        dsimp only
        rw [hplain, Bool.false_and, if_neg Bool.false_ne_true]
  have hfits : ¬(m : Int) > maxInt64 := by omega
  rw [int64, String.toList_ofList, hsign]
  dsimp only
  rw [hread]
  simp [hfits]

end Text
end ShellScript

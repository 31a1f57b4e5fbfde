import ShellScript.Proofs.Machine.ArithShortCut
import ShellScript.Proofs.Machine.Parameter
import ShellScript.Proofs.Text.Characters
import ShellScript.Proofs.Text.Numeral

-- Slices of texts and lists. Where they begin and end is worked out with numbers of 64 bits, and only the sum of a
-- beginning and a length can be too large for them.
namespace ShellScript
namespace Machine

open Text (inInt64 maxInt64 wrap64 ofUnicode)

-- Where a slice of `n` things begins and ends, in unbounded integers.
def sliceStart (n : Nat) (offset : Int) : Int := if offset < 0 then n + offset else offset

def sliceStop (n : Nat) (offset : Int) : Option Int → Int
  | none => n
  | some l => if l < 0 then n + l else min (sliceStart n offset + l) n

-- The sum is too large.
def Overflows (n : Nat) (offset : Int) (length : Option Int) : Prop :=
  ∃ l, length = some l ∧ 0 < l ∧ 0 ≤ sliceStart n offset ∧ sliceStart n offset < n ∧ maxInt64 < sliceStart n offset + l

section Lists

variable {α : Type}

-- The things from one place to another, if both are places among them.
def between (xs : List α) (start stop : Int) : List α :=
  if start < 0 ∨ xs.length < start ∨ stop < start then [] else (xs.take stop.toNat).drop start.toNat

-- What an offset and a length select.
def selected (xs : List α) (offset : Int) (length : Option Int) : List α :=
  between xs (sliceStart xs.length offset) (sliceStop xs.length offset length)

-- What comes out of it.
structure Slices (xs ys : List α) (offset : Int) (length : Option Int) : Prop where
  exact_iff : ys = selected xs offset length ↔ ¬Overflows xs.length offset length
  overflow : Overflows xs.length offset length → xs.length ≤ maxInt64 → ys = []

variable {xs : List α} {start stop : Int}

theorem between_eq_nil (h : stop ≤ start) : between xs start stop = [] := by
  unfold between
  split
  · rfl
  · have hlength : (xs.take stop.toNat).length ≤ start.toNat := by
      rw [List.length_take]
      omega
    exact List.drop_eq_nil_of_le hlength

theorem length_between_le (xs : List α) (start stop : Int) : (between xs start stop).length ≤ (stop - start).toNat := by
  unfold between
  split
  · exact Nat.zero_le _
  · rw [List.length_drop, List.length_take]
    omega

theorem length_between (hstart : 0 ≤ start) (hle : start ≤ stop) (hstop : stop ≤ xs.length) :
    (between xs start stop).length = (stop - start).toNat := by
  rw [between, if_neg (by omega), List.length_drop, List.length_take]
  omega

end Lists

-- Where the code makes a slice end.
def wrappedStop (n : Nat) (offset : Int) : Option Int → Int
  | none => n
  | some l => if l < 0 then n + l else min (wrap64 (sliceStart n offset + l)) n

theorem bounds_eq (n : Nat) (offset : Int) (length : Option Int) :
    ParamOps.bounds n offset length =
      if sliceStart n offset < 0 ∨ n < sliceStart n offset ∨ wrappedStop n offset length < sliceStart n offset then none
      else some ((sliceStart n offset).toNat, (wrappedStop n offset length).toNat) := by
  have hstart : (if offset < 0 then offset + n else offset) = sliceStart n offset := by
    unfold sliceStart
    split <;> omega
  unfold ParamOps.bounds
  rw [hstart]
  dsimp only
  by_cases hout : sliceStart n offset < 0 ∨ n < sliceStart n offset
  · rw [if_pos (by simpa using hout), if_pos (by tauto)]
  · rw [if_neg (by simpa using hout)]
    have hstop : (wrappedStop n offset length < sliceStart n offset) ↔ (sliceStart n offset < 0 ∨ n < sliceStart n offset ∨
      wrappedStop n offset length < sliceStart n offset) := by tauto
    simp only [← hstop]
    rfl

-- No place is outside of the things.
theorem bounds_le {n : Nat} {offset : Int} {length : Option Int} {a b : Nat}
    (h : ParamOps.bounds n offset length = some (a, b)) : a ≤ b ∧ b ≤ n := by
  rw [bounds_eq] at h
  split at h
  · cases h
  · cases h
    have hstop : wrappedStop n offset length ≤ n := by
      unfold wrappedStop
      split
      · exact Int.le_refl _
      · split <;> omega
    omega

section Lists

variable {α : Type} {xs : List α} {offset : Int} {length : Option Int}

theorem sliceList_eq (xs : List α) (offset : Int) (length : Option Int) : ParamOps.sliceList xs offset length =
    between xs (sliceStart xs.length offset) (wrappedStop xs.length offset length) := by
  unfold ParamOps.sliceList between
  rw [bounds_eq]
  by_cases hout : sliceStart xs.length offset < 0 ∨ xs.length < sliceStart xs.length offset ∨
      wrappedStop xs.length offset length < sliceStart xs.length offset
  · rw [if_pos hout, if_pos hout]
  · rw [if_neg hout, if_neg hout]

theorem between_of_neg (h : start < 0) : between xs start stop = [] := if_pos (.inl h)

-- A sum that is too large is taken for a negative one, or for one that is at least too small.
theorem wrappedStop_lt {n : Nat} (hlength : ∀ l ∈ length, inInt64 l = true) (h : Overflows n offset length) :
    sliceStart n offset < sliceStop n offset length ∧ wrappedStop n offset length < sliceStop n offset length ∧
      (n ≤ maxInt64 → wrappedStop n offset length < sliceStart n offset) := by
  obtain ⟨l, rfl, hpos, hstart, hlt, hover⟩ := h
  have hl := Text.inInt64_iff.mp (hlength l rfl)
  have hwrap := Text.inInt64_iff.mp (Text.inInt64_wrap64 (sliceStart n offset + l))
  have hnegative (hn : n ≤ maxInt64) : wrap64 (sliceStart n offset + l) < 0 := by
    have heq : wrap64 (sliceStart n offset + l) = sliceStart n offset + l - 18446744073709551616 :=
      Text.wrap64_eq (Text.inInt64_iff.mpr (by rw [maxInt64] at *; omega)) ⟨-1, by omega⟩
    rw [maxInt64] at hn
    omega
  simp only [sliceStop, wrappedStop, if_neg (Int.not_lt.mpr (Int.le_of_lt hpos))]
  rw [maxInt64] at *
  refine ⟨by omega, ?_, fun hn => ?_⟩
  · by_cases hn : (n : Int) ≤ 9223372036854775807
    · have := hnegative hn
      omega
    · omega
  · have := hnegative hn
    omega

theorem wrappedStop_eq {n : Nat} (hlength : ∀ l ∈ length, inInt64 l = true) (h : ¬Overflows n offset length) :
    wrappedStop n offset length = sliceStop n offset length ∨ sliceStart n offset < 0 ∨
      wrappedStop n offset length ≤ sliceStart n offset ∧ sliceStop n offset length ≤ sliceStart n offset := by
  cases length with
  | none => exact .inl rfl
  | some l =>
      have hl := Text.inInt64_iff.mp (hlength l rfl)
      have hwrap := Text.inInt64_iff.mp (Text.inInt64_wrap64 (sliceStart n offset + l))
      by_cases hneg : l < 0
      · exact .inl (by simp only [wrappedStop, sliceStop, if_pos hneg])
      simp only [wrappedStop, sliceStop, if_neg hneg]
      by_cases hfits : sliceStart n offset + l ≤ maxInt64
      · rcases Int.lt_or_le (sliceStart n offset) 0 with hstart | hstart
        · exact .inr (.inl hstart)
        · rw [maxInt64] at hfits
          rw [Text.wrap64_of_inInt64 (Text.inInt64_iff.mpr (by omega))]
          exact .inl rfl
      · have hnot : ¬(0 < l ∧ 0 ≤ sliceStart n offset ∧ sliceStart n offset < n) := by
          rintro ⟨hpos, hstart, hlt⟩
          exact h ⟨l, rfl, hpos, hstart, hlt, Int.not_le.mp hfits⟩
        rw [maxInt64] at hfits
        omega

theorem slices_sliceList (hlength : ∀ l ∈ length, inInt64 l = true) :
    Slices xs (ParamOps.sliceList xs offset length) offset length := by
  rw [sliceList_eq]
  refine ⟨⟨fun heq h => ?_, fun h => ?_⟩, fun h hshort => between_eq_nil (Int.le_of_lt ((wrappedStop_lt hlength h).2.2 hshort))⟩
  · obtain ⟨hlt, hstop, -⟩ := wrappedStop_lt hlength h
    obtain ⟨l, rfl, hpos, hstart, -, -⟩ := h
    have hshorter := length_between_le xs (sliceStart xs.length offset) (wrappedStop xs.length offset (some l))
    have hlast : sliceStop xs.length offset (some l) ≤ xs.length := by
      simp only [sliceStop, if_neg (Int.not_lt.mpr (Int.le_of_lt hpos))]
      omega
    rw [heq, selected, length_between hstart (Int.le_of_lt hlt) hlast] at hshorter
    omega
  · rw [selected]
    rcases wrappedStop_eq hlength h with heq | hneg | ⟨hwrapped, hstop⟩
    · rw [heq]
    · rw [between_of_neg hneg, between_of_neg hneg]
    · rw [between_eq_nil hwrapped, between_eq_nil hstop]

end Lists

-- A text that is valid UTF-8 is sliced as the list of its characters.
theorem sliceText_ofUnicode (c : String) (offset : Int) (length : Option Int) :
    ParamOps.sliceText (ofUnicode c) offset length =
      ofUnicode (String.ofList (ParamOps.sliceList c.toList offset length)) := by
  have hmap : ParamOps.sliceList (c.toList.map Text.Rune.char) offset length =
      (ParamOps.sliceList c.toList offset length).map Text.Rune.char := by
    unfold ParamOps.sliceList
    rw [List.length_map]
    split
    · rw [← List.map_take, ← List.map_drop]
    · rfl
  rw [ParamOps.sliceText, Text.runes_ofUnicode, hmap, List.flatMap_map, ofUnicode, String.toList_ofList]
  rfl

section Operator

variable {E : Engine} {x : Program.Param} {s t u : State} {v : ParamValue} {offset : Int} {length : Option Int}

-- A slice has what its numbers select in unbounded integers if and only if the sum of its beginning and its length is not
-- too large. The characters of a valid text are sliced like a list, and never is there a place outside of it.
theorem slice_of_numbers (h : Found E x s v t) (hop : x.op = some .slice)
    (hnumbers : sliceNumbers E x.arg x.repl t = .ok (offset, length) u) (hlength : ∀ l ∈ length, inInt64 l = true) :
    let w := valueAfter x.index (lookedUp x s.shell) v t u
    ∃ r, param E x s = .ok r u ∧ r.plural = w.plural ∧ r.isSet = w.isSet ∧
      (w.isPlural = true → Slices (sliceItems x.index x.name w u) r.list offset length) ∧
      (w.isPlural = false → ∀ c, w.text = ofUnicode c →
        ∃ cs, r.text = ofUnicode (String.ofList cs) ∧ Slices c.toList cs offset length) ∧
      ∀ n a b, ParamOps.bounds n offset length = some (a, b) → a ≤ b ∧ b ≤ n := by
  intro w
  refine ⟨_, h.param_slice hop hnumbers, ?_, ?_, fun hplural => ?_, fun hone c hc => ?_, fun n a b => bounds_le⟩
  · unfold sliced
    split <;> rfl
  · unfold sliced
    split <;> rfl
  · rw [sliced, if_pos hplural]
    exact slices_sliceList hlength
  · rw [sliced, hone, if_neg Bool.false_ne_true]
    refine ⟨_, ?_, slices_sliceList hlength⟩
    exact (congrArg (ParamOps.sliceText · offset length) hc).trans (sliceText_ofUnicode c offset length)

end Operator

-- `${@:1:2}` with three parameters.
theorem slice_of_parameters :
    let E := engine { name := "", main := default } true 1 1
    let s : State := { shell := { name := "sh", params := ["a", "b", "c"] } }
    let x : Program.Param := ⟨"@", false, false, none, none, some .slice, some ⟨[.lit "1" false]⟩, some ⟨[.lit "2" false]⟩⟩
    ∃ r, param E x s = .ok r s ∧ r.list = ["a", "b"] := by
  intro E s x
  have hfound : Found E x s { list := ["a", "b", "c"], plural := .all, isSet := true } s :=
    ⟨rfl, rfl, nofun, rfl, .inl rfl⟩
  have hnumbers : sliceNumbers E x.arg x.repl s = .ok (1, some 2) s := rfl
  obtain ⟨r, hr, -, -, hlist, -⟩ := slice_of_numbers hfound rfl hnumbers (by decide)
  refine ⟨r, hr, ?_⟩
  have hfits : ¬Overflows 4 1 (some 2) := by
    rintro ⟨l, hl, -, -, -, hover⟩
    cases hl
    exact absurd hover (by decide)
  exact (hlist rfl).exact_iff.mpr hfits

-- `${v:1:9223372036854775807}`.
theorem large_length_selects_nothing :
    let E := engine { name := "", main := default } true 1 1
    let s : State := { shell := { env := { scope := [("v", { value := "abc" })] } } }
    let x : Program.Param :=
      ⟨"v", false, false, none, none, some .slice, some ⟨[.lit "1" false]⟩, some ⟨[.lit "9223372036854775807" false]⟩⟩
    (match param E x s with
      | .ok r _ => some r.text
      | .error _ _ => none) = some "" ∧
    selected "abc".toList 1 (some 9223372036854775807) = ['b', 'c'] := by
  decide +kernel

end Machine
end ShellScript

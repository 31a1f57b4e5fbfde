import Mathlib.Data.List.Forall2
import Mathlib.Data.Nat.Find
import ShellScript.Proofs.Machine.Parameter
import ShellScript.Proofs.Text.Characters

-- Trimming a value by a pattern. Every byte is tried as the place of the cut, so the cut can lie inside of a character,
-- and what is left is then no valid text any more.
namespace ShellScript
namespace Machine

open Script (ParamOp)
open Text (ofUnicode)

def fromFront (op : ParamOp) : Bool := op == .remSmallPrefix || op == .remLargePrefix

def isGreedy (op : ParamOp) : Bool := op == .remLargePrefix || op == .remLargeSuffix

-- A text as what can be taken away from it and what is then left.
def Divides (op : ParamOp) (s a r : String) : Prop := if fromFront op then s = a ++ r else s = r ++ a

-- One piece is not worse than another one: not shorter, or not longer.
def AtLeast (op : ParamOp) (a b : String) : Prop := if isGreedy op then b.length ≤ a.length else a.length ≤ b.length

-- What is left of a text without the best of the pieces that match, or all of it if none does.
inductive Trimmed (matches_ : String → Bool) (op : ParamOp) (s : String) : String → Prop
  | cut {a r : String} (hdiv : Divides op s a r) (hmatch : matches_ a = true)
      (hbest : ∀ b t, Divides op s b t → matches_ b = true → AtLeast op a b) : Trimmed matches_ op s r
  | whole (hnone : ∀ a r, Divides op s a r → matches_ a = false) : Trimmed matches_ op s s

section Divisions

variable {op : ParamOp} {s a b r t : String}

theorem Divides.length (h : Divides op s a r) : s.length = a.length + r.length := by
  unfold Divides at h
  split at h <;> rw [h, String.length_append]
  omega

theorem exists_between {a r b t : String} (h : a ++ r = b ++ t) (hle : a.length ≤ b.length) :
    ∃ d, b = a ++ d ∧ r = d ++ t := by
  have hlist := congrArg String.toList h
  rw [String.toList_append, String.toList_append] at hlist
  rcases List.append_eq_append_iff.mp hlist with ⟨ds, hb, hr⟩ | ⟨ds, ha, ht⟩
  · exact ⟨String.ofList ds, by rw [← String.toList_inj, hb]; simp, by rw [← String.toList_inj, hr]; simp⟩
  · have hds : ds = [] := by
      rw [← String.length_toList, ← String.length_toList, ha, List.length_append] at hle
      exact List.eq_nil_of_length_eq_zero (by omega)
    subst hds
    refine ⟨"", ?_, ?_⟩
    · rw [String.append_empty, ← String.toList_inj, ha, List.append_nil]
    · rw [String.empty_append, ← String.toList_inj, ht, List.nil_append]

-- Of two pieces, one is a part of the other one.
theorem Divides.extends (h : Divides op s a r) (h' : Divides op s b t) (hle : a.length ≤ b.length) :
    ∃ d, Divides op b a d ∧ Divides op r d t := by
  have hsum := h.length
  have hsum' := h'.length
  unfold Divides at *
  split
  · next hfront =>
    rw [if_pos hfront] at h h'
    exact exists_between (h.symm.trans h') hle
  · next hfront =>
    rw [if_neg hfront] at h h'
    obtain ⟨d, hr, hb⟩ := exists_between (h'.symm.trans h) (by omega)
    exact ⟨d, hb, hr⟩

theorem Divides.eq_of_length (h : Divides op s a r) (h' : Divides op s b t) (hlength : a.length = b.length) :
    a = b ∧ r = t := by
  obtain ⟨d, hb, hr⟩ := h.extends h' (Nat.le_of_eq hlength)
  have hempty : d = "" := by
    have hsum := hb.length
    rw [← String.length_eq_zero_iff]
    omega
  subst hempty
  unfold Divides at hb hr
  split at hb <;> simp_all

theorem atLeast_of_lazy (hop : isGreedy op = false) (h : a.length ≤ b.length) : AtLeast op a b := by
  rwa [AtLeast, hop, if_neg Bool.false_ne_true]

theorem atLeast_of_greedy (hop : isGreedy op = true) (h : b.length ≤ a.length) : AtLeast op a b := by
  rwa [AtLeast, if_pos hop]

theorem AtLeast.antisymm (h : AtLeast op a b) (h' : AtLeast op b a) : a.length = b.length := by
  unfold AtLeast at h h'
  split at h <;> simp_all <;> omega

variable {matches_ : String → Bool}

theorem Trimmed.unique (h : Trimmed matches_ op s r) (h' : Trimmed matches_ op s t) : r = t := by
  cases h with
  | cut hdiv hmatch hbest =>
      cases h' with
      | cut hdiv' hmatch' hbest' =>
          exact (hdiv.eq_of_length hdiv' ((hbest _ _ hdiv' hmatch').antisymm (hbest' _ _ hdiv hmatch))).2
      | whole hnone =>
          rw [hnone _ _ hdiv] at hmatch
          cases hmatch
  | whole hnone =>
      cases h' with
      | cut hdiv' hmatch' =>
          rw [hnone _ _ hdiv'] at hmatch'
          cases hmatch'
      | whole => rfl

theorem exists_trimmed (matches_ : String → Bool) (op : ParamOp) (s : String) : ∃ r, Trimmed matches_ op s r := by
  by_cases hsome : ∃ n a r, Divides op s a r ∧ matches_ a = true ∧ n = if isGreedy op then r.length else a.length
  · classical
    obtain ⟨a, r, hdiv, hmatch, hn⟩ := Nat.find_spec hsome
    refine ⟨r, .cut hdiv hmatch fun b t hdiv' hmatch' => ?_⟩
    have hleast := Nat.find_min' hsome ⟨b, t, hdiv', hmatch', rfl⟩
    have hsum := hdiv.length
    have hsum' := hdiv'.length
    unfold AtLeast
    rw [hn] at hleast
    split at hleast
    · simp_all
      omega
    · simp_all
  · refine ⟨s, .whole fun a r hdiv => Bool.eq_false_iff.mpr fun hmatch => hsome ⟨_, a, r, hdiv, hmatch, rfl⟩⟩

end Divisions

section Bytes

variable {op : ParamOp} {s : String}

-- The first place that is found is the best one.
theorem trimmed_find {matches_ : String → Bool} {places : List Nat} {piece rest : Nat → String}
    (hdiv : ∀ i ∈ places, Divides op s (piece i) (rest i))
    (hall : ∀ a r, Divides op s a r → ∃ i ∈ places, a = piece i)
    (hsorted : places.Pairwise fun i j => AtLeast op (piece i) (piece j)) :
    Trimmed matches_ op s (((places.find? fun i => matches_ (piece i)).map rest).getD s) := by
  cases hfind : places.find? fun i => matches_ (piece i) with
  | none =>
      refine .whole fun a r h => ?_
      obtain ⟨i, hi, rfl⟩ := hall a r h
      exact Bool.eq_false_iff.mpr (List.find?_eq_none.mp hfind i hi)
  | some i =>
      obtain ⟨hmatch, before, after, hplaces, hbefore⟩ := List.find?_eq_some_iff_append.mp hfind
      refine .cut (hdiv i (List.mem_of_find?_eq_some hfind)) hmatch fun b t h hb => ?_
      obtain ⟨j, hj, rfl⟩ := hall b t h
      rw [hplaces] at hj hsorted
      rcases List.mem_append.mp hj with hj | hj
      · have hnot := hbefore j hj
        rw [hb] at hnot
        cases hnot
      rcases List.mem_cons.mp hj with rfl | hj
      · unfold AtLeast
        split <;> exact Nat.le_refl _
      · exact (List.pairwise_cons.mp (List.pairwise_append.mp hsorted).2.1).1 j hj

theorem trimmed_front (hfront : fromFront op = true) {matches_ : String → Bool} {places : List Nat}
    (hplaces : ∀ i, i ∈ places ↔ i ≤ s.toList.length)
    (hsorted : places.Pairwise fun i j => AtLeast op (String.ofList (s.toList.take i)) (String.ofList (s.toList.take j))) :
    Trimmed matches_ op s (((places.find? fun i => matches_ (String.ofList (s.toList.take i))).map fun i =>
      String.ofList (s.toList.drop i)).getD s) := by
  refine trimmed_find (fun i _ => ?_) (fun a r h => ⟨a.length, ?_, ?_⟩) hsorted
  · rw [Divides, if_pos hfront, ← String.ofList_append, List.take_append_drop, String.ofList_toList]
  · rw [hplaces, String.length_toList, h.length]
    exact Nat.le_add_right ..
  · rw [Divides, if_pos hfront] at h
    rw [h, String.toList_append, ← String.length_toList, List.take_left, String.ofList_toList]

theorem trimmed_back (hfront : fromFront op = false) {matches_ : String → Bool} {places : List Nat}
    (hplaces : ∀ i, i ∈ places ↔ i ≤ s.toList.length)
    (hsorted : places.Pairwise fun i j => AtLeast op (String.ofList (s.toList.drop i)) (String.ofList (s.toList.drop j))) :
    Trimmed matches_ op s (((places.find? fun i => matches_ (String.ofList (s.toList.drop i))).map fun i =>
      String.ofList (s.toList.take i)).getD s) := by
  have hback : ¬fromFront op = true := Bool.eq_false_iff.mp hfront
  refine trimmed_find (fun i _ => ?_) (fun a r h => ⟨r.length, ?_, ?_⟩) hsorted
  · rw [Divides, if_neg hback, ← String.ofList_append, List.take_append_drop, String.ofList_toList]
  · rw [hplaces, String.length_toList, h.length]
    exact Nat.le_add_left ..
  · rw [Divides, if_neg hback] at h
    rw [h, String.toList_append, ← String.length_toList, List.drop_left, String.ofList_toList]

-- The code finds the best cut among all bytes.
theorem trimmed_trim (hop : op ∈ trimOps) (p : Pattern) (s : String) : Trimmed p.matches_ op s (ParamOps.trim op p s) := by
  have hplaces (i : Nat) : i ∈ ParamOps.places s.toList ↔ i ≤ s.toList.length := by
    rw [ParamOps.places, List.mem_range, Nat.lt_succ_iff]
  have hreverse (i : Nat) : i ∈ (ParamOps.places s.toList).reverse ↔ i ≤ s.toList.length := by
    rw [List.mem_reverse, hplaces]
  have hsorted : (ParamOps.places s.toList).Pairwise (· < ·) := List.pairwise_lt_range
  simp only [trimOps, List.mem_cons, List.not_mem_nil, or_false] at hop
  rcases hop with rfl | rfl | rfl | rfl
  · simp only [ParamOps.trim, ParamOps.shortestFront?, Option.map_map]
    refine trimmed_front rfl hplaces (hsorted.imp fun hlt => ?_)
    refine atLeast_of_lazy rfl ?_
    rw [String.length_ofList, String.length_ofList, List.length_take, List.length_take]
    omega
  · simp only [ParamOps.trim, ParamOps.longestFront?, Option.map_map]
    refine trimmed_front rfl hreverse (List.pairwise_reverse.mpr (hsorted.imp fun hlt => ?_))
    refine atLeast_of_greedy rfl ?_
    rw [String.length_ofList, String.length_ofList, List.length_take, List.length_take]
    omega
  · simp only [ParamOps.trim, ParamOps.shortestBack?, Option.map_map]
    refine trimmed_back rfl hreverse (List.pairwise_reverse.mpr (hsorted.imp fun hlt => ?_))
    refine atLeast_of_lazy rfl ?_
    rw [String.length_ofList, String.length_ofList, List.length_drop, List.length_drop]
    omega
  · simp only [ParamOps.trim, ParamOps.longestBack?, Option.map_map]
    refine trimmed_back rfl hplaces (hsorted.imp fun hlt => ?_)
    refine atLeast_of_greedy rfl ?_
    rw [String.length_ofList, String.length_ofList, List.length_drop, List.length_drop]
    omega

end Bytes

section Characters

variable {op : ParamOp} {u a b r t x y : String}

theorem Divides.spelled (h : Divides op u a r) : Divides op (ofUnicode u) (ofUnicode a) (ofUnicode r) := by
  unfold Divides at *
  split at h <;> simp [*, Text.ofUnicode_append]

-- Whole characters leave whole characters behind, and are left behind by them.
theorem Divides.of_piece (h : Divides op (ofUnicode u) (ofUnicode a) y) : ∃ r, Divides op u a r ∧ y = ofUnicode r := by
  unfold Divides at *
  split at h
  · obtain ⟨r, hu, hy⟩ := Text.exists_of_front h
    exact ⟨r, by rw [if_pos ‹_›, hu], hy⟩
  · obtain ⟨r, hu, hy⟩ := Text.exists_of_back h
    exact ⟨r, by rw [if_neg ‹_›, hu], hy⟩

theorem Divides.of_rest (h : Divides op (ofUnicode u) x (ofUnicode r)) : ∃ a, Divides op u a r ∧ x = ofUnicode a := by
  unfold Divides at *
  split at h
  · obtain ⟨a, hu, hx⟩ := Text.exists_of_back h
    exact ⟨a, by rw [if_pos ‹_›, hu], hx⟩
  · obtain ⟨a, hu, hx⟩ := Text.exists_of_front h
    exact ⟨a, by rw [if_neg ‹_›, hu], hx⟩

theorem Divides.length_spelled (h : Divides op u a r) :
    (ofUnicode u).length = (ofUnicode a).length + (ofUnicode r).length := h.spelled.length

-- A piece with more characters has more bytes.
theorem Divides.length_le (h : Divides op u a r) (h' : Divides op u b t) (hle : (ofUnicode a).length ≤ (ofUnicode b).length) :
    a.length ≤ b.length := by
  rcases Nat.le_total a.length b.length with hab | hba
  · exact hab
  · obtain ⟨d, hd, -⟩ := h'.extends h hba
    have hbytes := hd.length_spelled
    have hempty : ofUnicode d = ofUnicode "" := String.length_eq_zero_iff.mp (by omega)
    have hlength := hd.length
    rw [Text.ofUnicode_inj hempty, String.length_empty] at hlength
    omega

theorem AtLeast.of_spelled (h : Divides op u a r) (h' : Divides op u b t) (hbest : AtLeast op (ofUnicode a) (ofUnicode b)) :
    AtLeast op a b := by
  unfold AtLeast at *
  split
  · next hgreedy => exact h'.length_le h (by rwa [if_pos hgreedy] at hbest)
  · next hgreedy => exact h.length_le h' (by rwa [if_neg hgreedy] at hbest)

-- A cut inside of a character matches, and is better than all cuts between characters that match.
def CutsCharacter (p : Pattern) (op : ParamOp) (u : String) : Prop :=
  ∃ x y, Divides op (ofUnicode u) x y ∧ p.matches_ x = true ∧ (∀ a r, Divides op u a r → x ≠ ofUnicode a) ∧
    ∀ a r, Divides op u a r → p.matches_ (ofUnicode a) = true → ¬AtLeast op (ofUnicode a) x

variable {p : Pattern}

-- Then what is left is no valid text.
theorem CutsCharacter.not_spelled (h : CutsCharacter p op u) (ht : Trimmed p.matches_ op (ofUnicode u) t) :
    t ≠ ofUnicode r := by
  intro heq
  obtain ⟨x, y, hdiv, hmatch, -, hbetter⟩ := h
  cases ht with
  | cut hdiv' hmatch' hbest =>
      rw [heq] at hdiv'
      obtain ⟨a, ha, rfl⟩ := hdiv'.of_rest
      exact hbetter a r ha hmatch' (hbest x y hdiv hmatch)
  | whole hnone =>
      rw [hnone x y hdiv] at hmatch
      cases hmatch

-- Otherwise it is what is left of the characters.
theorem Trimmed.spelled (h : ¬CutsCharacter p op u) (ht : Trimmed p.matches_ op (ofUnicode u) t)
    (hr : Trimmed (fun a => p.matches_ (ofUnicode a)) op u r) : t = ofUnicode r := by
  cases ht with
  | whole hnone =>
      have hwhole : Trimmed (fun a => p.matches_ (ofUnicode a)) op u u := .whole fun a r hdiv => hnone _ _ hdiv.spelled
      rw [hr.unique hwhole]
  | @cut x _ hdiv hmatch hbest =>
      by_cases hchars : ∃ a r, Divides op u a r ∧ x = ofUnicode a
      · obtain ⟨a, r', ha, rfl⟩ := hchars
        have hcut : Trimmed (fun a => p.matches_ (ofUnicode a)) op u r' :=
          .cut ha hmatch fun b t hb hbmatch => .of_spelled ha hb (hbest _ _ hb.spelled hbmatch)
        rw [hr.unique hcut]
        exact (hdiv.eq_of_length ha.spelled rfl).2
      · refine absurd ⟨x, t, hdiv, hmatch, fun a r ha hx => hchars ⟨a, r, ha, hx⟩, fun a r ha hamatch hbetter => ?_⟩ h
        have hlength := (hbest _ _ ha.spelled hamatch).antisymm hbetter
        exact hchars ⟨a, r, ha, (hdiv.eq_of_length ha.spelled hlength).1⟩

-- Bytes below 128 are characters.
theorem not_cutsCharacter_of_ascii (h : ∀ c ∈ u.toList, c.toNat < 0x80) : ¬CutsCharacter p op u := by
  rintro ⟨x, y, hdiv, -, hinner, -⟩
  rw [Text.ofUnicode_of_ascii h] at hdiv
  have hx : ∀ c ∈ x.toList, c.toNat < 0x80 := by
    intro c hc
    refine h c ?_
    unfold Divides at hdiv
    split at hdiv <;> simp [hdiv, hc]
  exact hinner x y hdiv (Text.ofUnicode_of_ascii hx).symm

-- A pattern that matches nothing but valid texts only matches whole characters.
theorem not_cutsCharacter_of_valid (h : ∀ x, p.matches_ x = true → ∃ a, x = ofUnicode a) : ¬CutsCharacter p op u := by
  rintro ⟨x, y, hdiv, hmatch, hinner, -⟩
  obtain ⟨a, rfl⟩ := h x hmatch
  obtain ⟨r, ha, -⟩ := hdiv.of_piece
  exact hinner a r ha rfl

end Characters

-- What comes of a text that is trimmed: the best of all cuts that match. For valid texts it is that of the cuts between
-- characters, and a valid text again, if and only if no better cut inside of a character matches.
structure Trims (p : Pattern) (op : ParamOp) (s t : String) : Prop where
  bytes : Trimmed p.matches_ op s t
  characters : ∀ u, s = ofUnicode u → ∃ r, Trimmed (fun a => p.matches_ (ofUnicode a)) op u r ∧
    (t = ofUnicode r ↔ ¬CutsCharacter p op u) ∧ ((∃ w, t = ofUnicode w) ↔ ¬CutsCharacter p op u)

theorem trims_trim {op : ParamOp} (hop : op ∈ trimOps) (p : Pattern) (s : String) :
    Trims p op s (ParamOps.trim op p s) := by
  have hbytes := trimmed_trim hop p s
  refine ⟨hbytes, ?_⟩
  rintro u rfl
  obtain ⟨r, hr⟩ := exists_trimmed (fun a => p.matches_ (ofUnicode a)) op u
  refine ⟨r, hr, ⟨fun heq hcut => hcut.not_spelled hbytes heq, fun hcut => Trimmed.spelled hcut hbytes hr⟩,
    fun ⟨w, hw⟩ hcut => hcut.not_spelled hbytes hw, fun hcut => ⟨r, Trimmed.spelled hcut hbytes hr⟩⟩

section Operator

variable {E : Engine} {x : Program.Param} {op : ParamOp} {s t u : State} {v : ParamValue} {pat : String}

-- Each text of a value is trimmed by itself.
theorem trim_of_texts (h : Found E x s v t) (hop : x.op = some op) (hmem : op ∈ trimOps)
    (hpat : patternOpt E x.arg t = .ok pat u) :
    let w := valueAfter x.index (lookedUp x s.shell) v t u
    ∃ r, param E x s = .ok r u ∧ r.plural = w.plural ∧ r.isSet = w.isSet ∧
      List.Forall₂ (Trims (Pattern.read pat) op) w.texts r.texts := by
  intro w
  refine ⟨_, h.param_trim hop hmem hpat, w.plural_map _, w.isSet_map _, ?_⟩
  rw [w.texts_map, List.forall₂_map_right_iff, List.forall₂_same]
  exact fun a _ => trims_trim hmem _ a

end Operator

-- `${@#a}` with two parameters.
theorem trim_of_parameters :
    let E := engine { name := "", main := default } true 1 1
    let s : State := { shell := { params := ["abc", ofUnicode "é"] } }
    let x : Program.Param := ⟨"@", false, false, none, none, some .remSmallPrefix, some ⟨[.lit "a" false]⟩, none⟩
    ∃ r, param E x s = .ok r s ∧
      List.Forall₂ (Trims (Pattern.read "a") .remSmallPrefix) ["abc", ofUnicode "é"] r.texts := by
  intro E s x
  have hfound : Found E x s { list := ["abc", ofUnicode "é"], plural := .all, isSet := true } s :=
    ⟨rfl, rfl, nofun, rfl, .inl rfl⟩
  have hpat : patternOpt E x.arg s = .ok "a" s := rfl
  obtain ⟨r, hr, -, -, htexts⟩ := trim_of_texts hfound rfl (by decide) hpat
  exact ⟨r, hr, htexts⟩

-- `${v#?}` takes away one byte of the two that a character has.
theorem trim_cuts_character :
    let E := engine { name := "", main := default } true 1 1
    let s : State := { shell := { env := { scope := [("v", { value := ofUnicode "é" })] } } }
    let x : Program.Param := ⟨"v", false, false, none, none, some .remSmallPrefix, some ⟨[.lit "?" false]⟩, none⟩
    (match param E x s with
      | .ok r _ => some r.text
      | .error _ _ => none) = some (String.ofList [Char.ofNat 0xA9]) ∧
    ∀ d, String.ofList [Char.ofNat 0xA9] ≠ ofUnicode d := by
  refine ⟨by decide +kernel, fun d h => ?_⟩
  have hrunes := congrArg Text.runes h
  rw [Text.runes_ofUnicode] at hrunes
  have hstray : Text.runes (String.ofList [Char.ofNat 0xA9]) = [.stray (Char.ofNat 0xA9)] := by decide +kernel
  rw [hstray] at hrunes
  obtain ⟨c, -, hc⟩ := List.mem_map.mp (hrunes ▸ List.mem_singleton_self _)
  cases hc

end Machine
end ShellScript

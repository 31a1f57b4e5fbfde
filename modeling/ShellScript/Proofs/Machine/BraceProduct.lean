import Mathlib.Data.List.Basic
import Mathlib.Data.List.Lex
import ShellScript.Proofs.Machine.BraceNumbers

-- Brace expansion as a replacement: the first brace of a word gives way to each of its alternatives in turn, and what
-- comes of it is expanded again. This ends, and gives the products of the alternatives of all parts.
namespace ShellScript
namespace Machine
namespace Brace

open Program (Part Word)

def isBrace : Part → Bool
  | .brace _ _ => true
  | _ => false

-- No part is a brace that has to be expanded. Those inside of double quotes stay.
def Plain (ps : List Part) : Prop := ∀ p ∈ ps, isBrace p = false

section Ranges

def letterText (n : Int) : String := String.ofList (Text.utf8 (letter n))

-- Two letters, not both of them numbers, and a step that is a number. A step that is left out is one.
structure IsLetters (elems : List Word) (from_ to_ : Char) (n : Int) : Prop where
  texts : elems.map wordText = [String.singleton from_, String.singleton to_] ∧ n = 1 ∨
    ∃ s, elems.map wordText = [String.singleton from_, String.singleton to_, s] ∧ Text.int64? s = some n
  other : Text.int64? (String.singleton from_) = none ∨ Text.int64? (String.singleton to_) = none

-- The texts of the numbers or letters that a count comes across, if it ends.
inductive Spans (elems : List Word) : List String → Prop
  | numbers {from_ to_ : String} {a b n : Int} {ns : List Int} (range : IsRange elems from_ to_ a b n)
      (count : Counts b (stepSize n) (a ≤ b) a ns) :
      Spans elems (ns.map (padded (max (widthOf from_) (widthOf to_))))
  | letters {c d : Char} {n : Int} {ns : List Int} (range : IsLetters elems c d n)
      (count : Counts d.toNat (stepSize n) ((c.toNat : Int) ≤ d.toNat) c.toNat ns) : Spans elems (ns.map letterText)

variable {elems : List Word}

-- Numbers that leave room for another step.
def Small (n : Int) : Prop := n.natAbs < 4611686018427387904

instance (n : Int) : Decidable (Small n) := inferInstanceAs (Decidable (_ < _))

theorem small_toNat (c : Char) : Small c.toNat := by
  have hvalid : c.toNat < 0xD800 ∨ 0xDFFF < c.toNat ∧ c.toNat < 0x110000 := c.valid
  unfold Small
  omega

theorem Small.inInt64 {n : Int} (h : Small n) : Text.inInt64 n = true := by
  unfold Small at h
  exact Text.inInt64_iff.mpr (by omega)

theorem sequence?_letters {c d : Char} {n : Int} (h : IsLetters elems c d n) :
    sequence? elems = some ((steps c.toNat d.toNat (stepSize n)).map letterText) := by
  obtain ⟨⟨htexts, rfl⟩ | ⟨s, htexts, hs⟩, hother⟩ := h
  · cases hc : Text.int64? (String.singleton c) <;> cases hd : Text.int64? (String.singleton d) <;>
      simp only [sequence?, htexts, hc, hd, String.toList_singleton, reduceCtorEq, or_self] at hother ⊢ <;> rfl
  · cases hc : Text.int64? (String.singleton c) <;> cases hd : Text.int64? (String.singleton d) <;>
      simp only [sequence?, htexts, hs, Option.bind_some, hc, hd, String.toList_singleton, reduceCtorEq,
        or_self] at hother ⊢ <;> rfl

theorem Spans.sequence?_eq {vs : List String} (h : Spans elems vs) : sequence? elems = some vs := by
  cases h with
  | @numbers from_ to_ a b n ns range count =>
      have hsteps : steps a b (stepSize n) = ns :=
        count.stepsOn_eq ((count.length_lt range.inInt64.1).le.trans (by decide)) []
      rw [Brace.sequence?_eq range, hsteps]
  | @letters c d n ns range count =>
      have hc : Text.inInt64 c.toNat = true := (small_toNat c).inInt64
      have hsteps : steps c.toNat d.toNat (stepSize n) = ns :=
        count.stepsOn_eq ((count.length_lt hc).le.trans (by decide)) []
      rw [sequence?_letters range, hsteps]

theorem inInt64_next {a b k : Int} (ha : Small a) (hb : Small b) (hk : 0 < k) (hsmall : k ≤ 4611686018427387904) :
    Text.inInt64 (a + (further a b k + 1 : Nat) * stride k (a ≤ b)) = true := by
  have hlast := (not_past_iff (a := a) (b := b) hk (further a b k)).mpr (Nat.le_refl _)
  have hsum : ((further a b k + 1 : Nat) : Int) * k = further a b k * k + k := by
    push_cast
    ring
  have hpos : 0 ≤ (further a b k : Int) * k := Int.mul_nonneg (Int.natCast_nonneg _) hk.le
  unfold Small at ha hb
  rw [Text.inInt64_iff]
  by_cases hup : a ≤ b
  · simp only [Past, stride, hup, decide_true, if_true, hsum] at hlast ⊢
    omega
  · simp only [Past, stride, hup, decide_false, Bool.false_eq_true, if_false, Int.mul_neg, hsum] at hlast ⊢
    omega

theorem stepSize_small {n : Int} (h : Small n) : stepSize n ≤ 4611686018427387904 := by
  have hn := h.inInt64
  unfold Small at h
  have hmin : n ≠ Text.minInt64 := by
    have : Text.minInt64 = -9223372036854775808 := rfl
    omega
  rw [stepSize_eq hn hmin, size]
  omega

theorem counts_small {a b n : Int} (ha : Small a) (hb : Small b) (hn : Small n) :
    Counts b (stepSize n) (a ≤ b) a (numbers a b (stepSize n)) := by
  have hnext := inInt64_next ha hb (stepSize_pos n) (stepSize_small hn)
  exact counts_numbers (stepSize_pos n) ha.inInt64 hb.inInt64 hnext

theorem numbers_ne_nil (a b k : Int) : numbers a b k ≠ [] := by
  intro h
  have hlength := congrArg List.length h
  rw [length_numbers] at hlength
  cases hlength

-- The bounds and the step of a range, as far as they are numbers, are small.
def SmallBounds (elems : List Word) : Prop := ∀ e ∈ elems, ∀ n, Text.int64? (wordText e) = some n → Small n

theorem SmallBounds.of_text (h : SmallBounds elems) {s : String} (hs : s ∈ elems.map wordText) {n : Int}
    (hn : Text.int64? s = some n) : Small n := by
  obtain ⟨e, he, rfl⟩ := List.mem_map.mp hs
  exact h e he n hn

theorem small_step {from_ to_ : String} {n : Int} (h : SmallBounds elems)
    (htexts : elems.map wordText = [from_, to_] ∧ n = 1 ∨
      ∃ s, elems.map wordText = [from_, to_, s] ∧ Text.int64? s = some n) : Small n := by
  rcases htexts with ⟨-, rfl⟩ | ⟨s, htexts, hs⟩
  · decide
  · exact h.of_text (by simp [htexts]) hs

theorem exists_spans_numbers {from_ to_ : String} {a b n : Int} (h : SmallBounds elems)
    (range : IsRange elems from_ to_ a b n) : ∃ vs, Spans elems vs ∧ vs ≠ [] := by
  have hmem : from_ ∈ elems.map wordText ∧ to_ ∈ elems.map wordText := by
    rcases range.texts with ⟨htexts, -⟩ | ⟨s, htexts, -⟩ <;> simp [htexts]
  have hcount := counts_small (h.of_text hmem.1 range.first) (h.of_text hmem.2 range.last) (small_step h range.texts)
  exact ⟨_, .numbers range hcount, by simp [numbers_ne_nil]⟩

theorem exists_spans_letters {c d : Char} {n : Int} (h : SmallBounds elems) (range : IsLetters elems c d n) :
    ∃ vs, Spans elems vs ∧ vs ≠ [] :=
  ⟨_, .letters range (counts_small (small_toNat c) (small_toNat d) (small_step h range.texts)), by simp [numbers_ne_nil]⟩

theorem eq_singleton {s : String} {c : Char} (h : s.toList = [c]) : s = String.singleton c :=
  String.toList_inj.mp (by rw [h, String.toList_singleton])

theorem none_or_none {x y : Option Int} (h : ∀ a b, x = some a → y = some b → False) : x = none ∨ y = none := by
  cases x with
  | none => exact .inl rfl
  | some a =>
      cases y with
      | none => exact .inr rfl
      | some b => exact (h a b rfl rfl).elim

theorem exists_spans {vs : List String} (hsmall : SmallBounds elems) (h : sequence? elems = some vs) :
    ∃ vs, Spans elems vs ∧ vs ≠ [] := by
  unfold sequence? at h
  dsimp only at h
  split at h
  · next from_ to_ htexts =>
    split at h
    · next a b ha hb => exact exists_spans_numbers hsmall ⟨.inl ⟨htexts, rfl⟩, ha, hb⟩
    · next hother =>
      split at h
      · next c d hc hd =>
        rw [eq_singleton hc, eq_singleton hd] at htexts hother
        exact exists_spans_letters hsmall ⟨.inl ⟨htexts, rfl⟩, none_or_none hother⟩
      · cases h
  · next from_ to_ s htexts =>
    obtain ⟨n, hs, h⟩ := Option.bind_eq_some_iff.mp h
    split at h
    · next a b ha hb => exact exists_spans_numbers hsmall ⟨.inr ⟨s, htexts, hs⟩, ha, hb⟩
    · next hother =>
      split at h
      · next c d hc hd =>
        rw [eq_singleton hc, eq_singleton hd] at htexts hother
        exact exists_spans_letters hsmall ⟨.inr ⟨s, htexts, hs⟩, none_or_none hother⟩
      · cases h
  · cases h

end Ranges

-- What a brace gives way to, one list of parts for each alternative.
inductive Replaces : Part → List (List Part) → Prop
  | elements {elems : List Word} : Replaces (.brace false elems) (elems.map Word.parts)
  | range {elems : List Word} {vs : List String} (spans : Spans elems vs) :
      Replaces (.brace true elems) (vs.map fun v => [.lit v false])
  | text {elems : List Word} (other : sequence? elems = none) : Replaces (.brace true elems) [[.lit (text true elems) false]]

-- Words are taken from the left. The first brace of one gives way to its alternatives, and the words that come of it are
-- the next to be taken.
inductive Rewrites : List (List Part) → List (List Part) → Prop
  | done : Rewrites [] []
  | plain {ps : List Part} {words out : List (List Part)} (plain : Plain ps) (rest : Rewrites words out) :
      Rewrites (ps :: words) (ps :: out)
  | brace {head tail : List Part} {p : Part} {choices words out : List (List Part)} (plain : Plain head)
      (replaces : Replaces p choices) (rest : Rewrites (choices.map (fun c => head ++ c ++ tail) ++ words) out) :
      Rewrites ((head ++ p :: tail) :: words) out

section Products

-- A number below `n` in front of each list, the first number varying slowest.
def choices (n : Nat) (ps : List (List Nat)) : List (List Nat) := (List.range n).flatMap fun i => ps.map (i :: ·)

theorem pairwise_choices {ps : List (List Nat)} (h : ps.Pairwise (· < ·)) (n : Nat) :
    (choices n ps).Pairwise (· < ·) := by
  rw [choices, List.pairwise_flatMap]
  constructor
  · intro i _
    rw [List.pairwise_map]
    exact h.imp fun h => List.cons_lt_cons_iff.mpr (.inr ⟨rfl, h⟩)
  · refine List.pairwise_lt_range.imp fun {i j} hij a ha b hb => ?_
    obtain ⟨x, -, rfl⟩ := List.mem_map.mp ha
    obtain ⟨y, -, rfl⟩ := List.mem_map.mp hb
    exact List.cons_lt_cons_iff.mpr (.inl hij)

theorem mem_choices {ps : List (List Nat)} {ns : List Nat} (h : ∀ pick, pick ∈ ps ↔ List.Forall₂ (· < ·) pick ns)
    (n : Nat) (pick : List Nat) : pick ∈ choices n ps ↔ List.Forall₂ (· < ·) pick (n :: ns) := by
  rw [choices, List.forall₂_cons_right_iff]
  simp only [List.mem_flatMap, List.mem_range, List.mem_map, h]
  constructor
  · rintro ⟨i, hi, x, hx, rfl⟩
    exact ⟨i, x, hi, hx, rfl⟩
  · rintro ⟨i, x, hi, hx, rfl⟩
    exact ⟨i, hi, x, hx, rfl⟩

-- The chosen alternatives, one after the other.
def chosen (table : List (List (List Part))) (pick : List Nat) : List Part :=
  (List.zipWith (fun alts i => alts.getD i []) table pick).flatten

-- Every choice of one alternative from each entry of a table once, in the lexicographic order of the choices.
def IsProduct (table : List (List (List Part))) (out : List (List Part)) : Prop :=
  ∃ ps : List (List Nat), ps.Pairwise (· < ·) ∧
    (∀ pick, pick ∈ ps ↔ List.Forall₂ (· < ·) pick (table.map List.length)) ∧ out = ps.map (chosen table)

theorem isProduct_nil : IsProduct [] [[]] := ⟨[[]], by simp, by simp, rfl⟩

theorem flatMap_range_getD (l : List (List Part)) (f : List Part → List (List Part)) :
    (List.range l.length).flatMap (fun i => f (l.getD i [])) = l.flatMap f := by
  have hl : (List.range l.length).map (fun i => l.getD i []) = l := by
    refine List.ext_getElem (by simp) fun i hi hi' => ?_
    simp [List.getElem?_eq_getElem hi']
  conv_rhs => rw [← hl, List.flatMap_map]

theorem IsProduct.cons {table : List (List (List Part))} {out : List (List Part)} (h : IsProduct table out)
    (alts : List (List Part)) : IsProduct (alts :: table) (alts.flatMap fun a => out.map (a ++ ·)) := by
  obtain ⟨ps, hsorted, hmem, rfl⟩ := h
  refine ⟨choices alts.length ps, pairwise_choices hsorted _, mem_choices hmem _, ?_⟩
  rw [← flatMap_range_getD, choices, List.map_flatMap]
  simp only [List.map_map]
  rfl

end Products

section Expansion

theorem alternatives_itself {p : Part} (h : isBrace p = false) : alternatives p = [[p]] := by
  cases p with
  | brace sequence elems => cases h
  | _ => rfl

theorem ofElems_eq (elems : List Word) : ofElems elems = (elems.map fun e => expand e.parts).flatten := by
  induction elems with
  | nil => rfl
  | cons e elems ih =>
      obtain ⟨parts⟩ := e
      rw [ofElems, ih, List.map_cons, List.flatten_cons]

theorem expand_cons (p : Part) (ps : List Part) :
    expand (p :: ps) = (alternatives p).flatMap fun a => (expand ps).map (a ++ ·) := rfl

theorem expand_append (ps qs : List Part) :
    expand (ps ++ qs) = (expand ps).flatMap fun a => (expand qs).map (a ++ ·) := by
  induction ps with
  | nil => simp [expand]
  | cons p ps ih =>
      rw [List.cons_append, expand_cons, expand_cons, ih, List.flatMap_assoc]
      refine List.flatMap_congr fun a _ => ?_
      rw [List.map_flatMap, List.flatMap_map]
      refine List.flatMap_congr fun b _ => ?_
      simp only [List.map_map, Function.comp_def, List.append_assoc]

theorem expand_plain {ps : List Part} (h : Plain ps) : expand ps = [ps] := by
  induction ps with
  | nil => rfl
  | cons p ps ih =>
      rw [expand_cons, alternatives_itself (h p (by simp)), ih fun q hq => h q (by simp [hq])]
      rfl

-- A brace in front of parts and behind others is as good as its alternatives in its place.
theorem expand_brace {head : List Part} (h : Plain head) (p : Part) (tail : List Part) :
    expand (head ++ p :: tail) = (alternatives p).flatMap fun a => (expand tail).map fun r => head ++ (a ++ r) := by
  rw [expand_append, expand_plain h, expand_cons]
  simp [List.map_flatMap, Function.comp_def]

theorem expand_choice {head : List Part} (h : Plain head) (choice tail : List Part) :
    expand (head ++ choice ++ tail) =
      (expand choice).flatMap fun a => (expand tail).map fun r => head ++ (a ++ r) := by
  rw [List.append_assoc, expand_append, expand_plain h, expand_append]
  simp [List.map_flatMap, Function.comp_def]

theorem Replaces.alternatives_eq {p : Part} {choices : List (List Part)} (h : Replaces p choices) :
    alternatives p = choices.flatMap expand := by
  cases h with
  | elements => rw [alternatives, ofElems_eq, List.flatMap_map, List.flatMap_def]
  | range spans =>
      rw [alternatives, spans.sequence?_eq, List.flatMap_map]
      exact List.map_eq_flatMap
  | text other =>
      rw [alternatives, other]
      rfl

-- What comes of a replacement are the products.
theorem Rewrites.eq_expand {words out : List (List Part)} (h : Rewrites words out) : out = words.flatMap expand := by
  induction h with
  | done => rfl
  | plain plain _ ih => rw [ih, List.flatMap_cons, expand_plain plain, List.singleton_append]
  | brace plain replaces _ ih =>
      rw [ih, List.flatMap_append, List.flatMap_cons, List.flatMap_map, expand_brace plain, replaces.alternatives_eq,
        List.flatMap_assoc]
      simp only [expand_choice plain]

theorem Rewrites.append {words words' out out' : List (List Part)} (h : Rewrites words out) (h' : Rewrites words' out') :
    Rewrites (words ++ words') (out ++ out') := by
  induction h with
  | done => exact h'
  | plain plain _ ih => exact .plain plain ih
  | brace plain replaces _ ih =>
      rw [List.append_assoc] at ih
      exact .brace plain replaces ih

mutual

theorem plain_of_mem_alternatives (p : Part) : ∀ a ∈ alternatives p, Plain a := by
  intro a ha
  match p with
  | .brace true elems =>
      rw [alternatives] at ha
      split at ha
      · obtain ⟨v, -, rfl⟩ := List.mem_map.mp ha
        exact List.forall_mem_singleton.mpr rfl
      · rw [List.mem_singleton.mp ha]
        exact List.forall_mem_singleton.mpr rfl
  | .brace false elems => exact plain_of_mem_ofElems elems a ha
  | .lit .. | .quoted _ | .param _ | .subst _ | .arith _ | .tilde _ | .embedded _ | .runtimePath .. =>
      rw [alternatives_itself rfl] at ha
      rw [List.mem_singleton.mp ha]
      exact List.forall_mem_singleton.mpr rfl

theorem plain_of_mem_ofElems (elems : List Word) : ∀ a ∈ ofElems elems, Plain a := by
  intro a ha
  match elems with
  | [] => cases ha
  | ⟨parts⟩ :: elems =>
      rcases List.mem_append.mp ha with ha | ha
      · exact plain_of_mem_expand parts a ha
      · exact plain_of_mem_ofElems elems a ha

-- No brace is left.
theorem plain_of_mem_expand (ps : List Part) : ∀ r ∈ expand ps, Plain r := by
  intro r hr
  match ps with
  | [] =>
      rw [List.mem_singleton.mp hr]
      exact nofun
  | p :: ps =>
      obtain ⟨a, ha, hr⟩ := List.mem_flatMap.mp hr
      obtain ⟨b, hb, rfl⟩ := List.mem_map.mp hr
      exact List.forall_mem_append.mpr ⟨plain_of_mem_alternatives p a ha, plain_of_mem_expand ps b hb⟩

end

end Expansion

section Termination

mutual

-- How many braces a replacement can come across in a part.
def weight : Part → Nat
  | .brace true _ => 1
  | .brace false elems => elemsWeight elems + 1
  | _ => 0

def elemsWeight : List Word → Nat
  | [] => 0
  | ⟨parts⟩ :: ws => partsWeight parts + elemsWeight ws

def partsWeight : List Part → Nat
  | [] => 0
  | p :: ps => weight p + partsWeight ps

end

mutual

-- A brace has elements, and the numbers of a range are small, on every level. One that is read has two elements at least.
def Proper : Part → Prop
  | .brace true elems => SmallBounds elems
  | .brace false elems => elems ≠ [] ∧ ProperElems elems
  | _ => True

def ProperElems : List Word → Prop
  | [] => True
  | ⟨parts⟩ :: ws => ProperParts parts ∧ ProperElems ws

def ProperParts : List Part → Prop
  | [] => True
  | p :: ps => Proper p ∧ ProperParts ps

end

theorem partsWeight_append (ps qs : List Part) : partsWeight (ps ++ qs) = partsWeight ps + partsWeight qs := by
  induction ps with
  | nil => simp [partsWeight]
  | cons p ps ih => rw [List.cons_append, partsWeight, partsWeight, ih, Nat.add_assoc]

theorem properParts_append {ps qs : List Part} : ProperParts (ps ++ qs) ↔ ProperParts ps ∧ ProperParts qs := by
  induction ps with
  | nil => simp [ProperParts]
  | cons p ps ih => rw [List.cons_append, ProperParts, ProperParts, ih, and_assoc]

theorem partsWeight_le {elems : List Word} {e : Word} (h : e ∈ elems) : partsWeight e.parts ≤ elemsWeight elems := by
  induction elems with
  | nil => cases h
  | cons e' elems ih =>
      obtain ⟨parts⟩ := e'
      rw [elemsWeight]
      rcases List.mem_cons.mp h with rfl | h
      · exact Nat.le_add_right ..
      · exact (ih h).trans (Nat.le_add_left ..)

theorem properParts_of_mem {elems : List Word} (hproper : ProperElems elems) {e : Word} (h : e ∈ elems) :
    ProperParts e.parts := by
  induction elems with
  | nil => cases h
  | cons e' elems ih =>
      obtain ⟨parts⟩ := e'
      rw [ProperElems] at hproper
      rcases List.mem_cons.mp h with rfl | h
      · exact hproper.1
      · exact ih hproper.2 h

-- A brace gives way to something, and there are fewer braces than before.
theorem exists_replaces {p : Part} (hbrace : isBrace p = true) (hproper : Proper p) :
    ∃ choices, Replaces p choices ∧ choices ≠ [] ∧ ∀ c ∈ choices, partsWeight c < weight p ∧ ProperParts c := by
  cases p with
  | brace sequence elems =>
      cases sequence with
      | false =>
          rw [Proper] at hproper
          refine ⟨_, .elements, by simp [hproper.1], fun c hc => ?_⟩
          obtain ⟨e, he, rfl⟩ := List.mem_map.mp hc
          exact ⟨Nat.lt_succ_of_le (partsWeight_le he), properParts_of_mem hproper.2 he⟩
      | true =>
          rw [Proper] at hproper
          cases hsequence : sequence? elems with
          | none =>
              refine ⟨_, .text hsequence, by simp, fun c hc => ?_⟩
              obtain rfl := List.mem_singleton.mp hc
              exact ⟨Nat.one_pos, trivial, trivial⟩
          | some ts =>
              obtain ⟨vs, hspans, hne⟩ := exists_spans hproper hsequence
              refine ⟨_, .range hspans, by simp [hne], fun c hc => ?_⟩
              obtain ⟨v, -, rfl⟩ := List.mem_map.mp hc
              exact ⟨Nat.one_pos, trivial, trivial⟩
  | _ => cases hbrace

-- The first brace of a word that has one.
theorem exists_first (ps : List Part) :
    Plain ps ∨ ∃ head p tail, ps = head ++ p :: tail ∧ Plain head ∧ isBrace p = true := by
  induction ps with
  | nil => exact .inl nofun
  | cons p ps ih =>
      cases hp : isBrace p with
      | true => exact .inr ⟨[], p, ps, rfl, nofun, hp⟩
      | false =>
          rcases ih with h | ⟨head, q, tail, rfl, hhead, hq⟩
          · exact .inl (List.forall_mem_cons.mpr ⟨hp, h⟩)
          · exact .inr ⟨p :: head, q, tail, rfl, List.forall_mem_cons.mpr ⟨hp, hhead⟩, hq⟩

theorem exists_rewrites_each {words : List (List Part)} (h : ∀ ps ∈ words, ∃ out, Rewrites [ps] out ∧ out ≠ []) :
    ∃ out, Rewrites words out ∧ (words ≠ [] → out ≠ []) := by
  induction words with
  | nil => exact ⟨[], .done, fun h => h⟩
  | cons ps words ih =>
      obtain ⟨out, hout, hne⟩ := h ps (by simp)
      obtain ⟨outs, houts, -⟩ := ih fun ps hps => h ps (by simp [hps])
      exact ⟨out ++ outs, hout.append houts, fun _ => by simp [hne]⟩

theorem exists_rewrites {ps : List Part} (h : ProperParts ps) : ∃ out, Rewrites [ps] out ∧ out ≠ [] := by
  induction hn : partsWeight ps using Nat.strongRecOn generalizing ps with
  | ind n ih =>
      subst hn
      rcases exists_first ps with hplain | ⟨head, p, tail, rfl, hhead, hp⟩
      · exact ⟨[ps], .plain hplain .done, by simp⟩
      · obtain ⟨hproper, hbrace, htail⟩ := properParts_append.mp h
        obtain ⟨choices, hreplaces, hne, hless⟩ := exists_replaces hp hbrace
        have heach : ∀ qs ∈ choices.map fun c => head ++ c ++ tail, ∃ out, Rewrites [qs] out ∧ out ≠ [] := by
          intro qs hqs
          obtain ⟨c, hc, rfl⟩ := List.mem_map.mp hqs
          obtain ⟨hweight, hc⟩ := hless c hc
          refine ih _ ?_ (properParts_append.mpr ⟨properParts_append.mpr ⟨hproper, hc⟩, htail⟩) rfl
          simp only [partsWeight_append, partsWeight]
          omega
        obtain ⟨out, hout, hsome⟩ := exists_rewrites_each heach
        refine ⟨out, .brace hhead hreplaces ?_, hsome (by simp [hne])⟩
        rwa [List.append_nil]

end Termination

mutual

-- The alternatives of a part, in order.
inductive Alternatives : Part → List (List Part) → Prop
  | itself {p : Part} (h : isBrace p = false) : Alternatives p [[p]]
  | elements {elems : List Word} {outs : List (List (List Part))}
      (each : List.Forall₂ (fun e out => Expansions e.parts out) elems outs) : Alternatives (.brace false elems) outs.flatten
  | range {elems : List Word} {vs : List String} (spans : Spans elems vs) :
      Alternatives (.brace true elems) (vs.map fun v => [.lit v false])
  | text {elems : List Word} (other : sequence? elems = none) :
      Alternatives (.brace true elems) [[.lit (text true elems) false]]

-- The products of the alternatives of all parts.
inductive Expansions : List Part → List (List Part) → Prop
  | intro {ps : List Part} {table : List (List (List Part))} {out : List (List Part)}
      (alts : List.Forall₂ Alternatives ps table) (product : IsProduct table out) : Expansions ps out

end

section Specification

theorem isProduct_expand (ps : List Part) : IsProduct (ps.map alternatives) (expand ps) := by
  induction ps with
  | nil => exact isProduct_nil
  | cons p ps ih => exact ih.cons (alternatives p)

mutual

theorem alternatives_spec (p : Part) (h : Proper p) : Alternatives p (alternatives p) := by
  match p with
  | .brace true elems =>
      cases hsequence : sequence? elems with
      | none =>
          rw [alternatives, hsequence]
          exact .text hsequence
      | some ts =>
          obtain ⟨vs, hspans, -⟩ := exists_spans h hsequence
          rw [alternatives, hspans.sequence?_eq]
          exact .range hspans
  | .brace false elems =>
      rw [alternatives, ofElems_eq]
      exact .elements (elements_spec elems h.2)
  | .lit .. | .quoted _ | .param _ | .subst _ | .arith _ | .tilde _ | .embedded _ | .runtimePath .. => exact .itself rfl

theorem elements_spec (elems : List Word) (h : ProperElems elems) :
    List.Forall₂ (fun e out => Expansions e.parts out) elems (elems.map fun e => expand e.parts) := by
  match elems with
  | [] => exact .nil
  | ⟨parts⟩ :: elems => exact .cons (.intro (table_spec parts h.1) (isProduct_expand parts)) (elements_spec elems h.2)

theorem table_spec (ps : List Part) (h : ProperParts ps) : List.Forall₂ Alternatives ps (ps.map alternatives) := by
  match ps with
  | [] => exact .nil
  | p :: ps => exact .cons (alternatives_spec p h.1) (table_spec ps h.2)

end

-- Replacing the braces of a word ends, with at least one word and without braces, and these words are the products of the
-- alternatives of its parts in lexicographic order. They are what a word is expanded to.
theorem replaced_braces_are_products (w : Word) (h : ProperParts w.parts) :
    ∃ out, Rewrites [w.parts] out ∧ (∀ out', Rewrites [w.parts] out' → out' = out) ∧ out ≠ [] ∧
      (∀ r ∈ out, Plain r) ∧ Expansions w.parts out ∧ expand w.parts = out := by
  obtain ⟨out, hout, hne⟩ := exists_rewrites h
  have heq {out' : List (List Part)} (h' : Rewrites [w.parts] out') : out' = expand w.parts := by
    rw [h'.eq_expand, List.flatMap_singleton]
  obtain rfl := heq hout
  exact ⟨_, hout, fun _ => heq, hne, plain_of_mem_expand w.parts,
    .intro (table_spec w.parts h) (isProduct_expand w.parts), rfl⟩

theorem replaced_braces_of_nested :
    let w : Word := ⟨[.brace false [⟨[.lit "a" false]⟩, ⟨[.brace true [⟨[.lit "1" false]⟩, ⟨[.lit "2" false]⟩]]⟩],
      .tilde "x", .brace false [⟨[]⟩, ⟨[.lit "y" false]⟩]]⟩
    let out : List (List Part) := [[.lit "a" false, .tilde "x"], [.lit "a" false, .tilde "x", .lit "y" false],
      [.lit "1" false, .tilde "x"], [.lit "1" false, .tilde "x", .lit "y" false],
      [.lit "2" false, .tilde "x"], [.lit "2" false, .tilde "x", .lit "y" false]]
    ProperParts w.parts ∧ Rewrites [w.parts] out ∧ Expansions w.parts out := by
  intro w out
  have hfirst : Text.int64? "1" = some 1 := by decide +kernel
  have hlast : Text.int64? "2" = some 2 := by decide +kernel
  have htext (v : String) : wordText ⟨[.lit v false]⟩ = v := by simp [wordText, partsText]
  have hsmall : SmallBounds [⟨[.lit "1" false]⟩, ⟨[.lit "2" false]⟩] := by
    intro e he n hn
    rcases List.mem_pair.mp he with rfl | rfl
    · rw [htext, hfirst] at hn
      cases hn
      decide
    · rw [htext, hlast] at hn
      cases hn
      decide
  have hproper : ProperParts w.parts := by simp [w, ProperParts, Proper, ProperElems, hsmall]
  have hrange : IsRange [⟨[.lit "1" false]⟩, ⟨[.lit "2" false]⟩] "1" "2" 1 2 1 :=
    ⟨.inl ⟨by rw [List.map_cons, List.map_cons, htext, htext, List.map_nil], rfl⟩, hfirst, hlast⟩
  have hsequence : sequence? [⟨[.lit "1" false]⟩, ⟨[.lit "2" false]⟩] = some ["1", "2"] := by
    rw [sequence?_eq hrange]
    decide +kernel
  obtain ⟨_, hrewrites, -, -, -, hexpansions, rfl⟩ := replaced_braces_are_products w hproper
  have hout : expand w.parts = out := by simp [w, out, expand, alternatives, ofElems, hsequence]
  rw [hout] at hrewrites hexpansions
  exact ⟨hproper, hrewrites, hexpansions⟩

end Specification

end Brace
end Machine
end ShellScript

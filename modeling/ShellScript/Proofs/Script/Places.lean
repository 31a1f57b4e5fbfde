import Mathlib.Data.List.Chain
import ShellScript.Proofs.Script.Slices
import ShellScript.Proofs.Token.Layout

-- Where the pieces of a text stand in a file. A piece is a text of its own that knows the place of its first character;
-- but some pieces are read from a text that the file does not have as it is.
namespace ShellScript

theorem Construct.ok_of_toOption {close : Construct.Close} {rest : List Char} (h : close.toOption = some rest) :
    close = .ok rest := by
  cases close with
  | ok r =>
      cases h
      rfl
  | error e => cases h

namespace Position

theorem line_step (p : Position) (c : Char) : (p.step c).line = p.line + [c].count '\n' := by
  unfold step
  by_cases hc : c = '\n'
  · simp [hc]
  · simp [hc]

end Position

-- A text with the offsets at which its lines begin. It may be a piece of a larger text, in which its first character
-- stands at `base`.
structure Source where
  text : List Char
  lines : List Nat
  base : Position

namespace Source

-- Where the lines after the first begin, in a text whose first character has the offset `n`.
def furtherLines (n : Nat) : List Char → List Nat
  | [] => []
  | c :: cs => if c == '\n' then (n + 1) :: furtherLines (n + 1) cs else furtherLines (n + 1) cs

-- A text that is given no place begins a file.
def origin (base : Position) : Position := if base.isValid then base else Position.start

def ofText (text : List Char) (base : Position) : Source := ⟨text, 0 :: furtherLines 0 text, origin base⟩

-- The place of the character at an offset: its line is the last one that begins at it or before it, and only the first
-- line begins where the text does.
def posAt (s : Source) (i : Nat) : Position :=
  let line := s.lines.findIdx (fun n => decide (i + 1 ≤ n)) - 1
  let column := i - s.lines.getD line 0 + 1
  { offset := s.base.offset + i, line := s.base.line + line,
    column := if line == 0 then column + s.base.column - 1 else column }

-- The piece between two offsets, as a text of its own that knows its place.
def slice (s : Source) (a b : Nat) : Source := ofText ((s.text.take b).drop a) (s.posAt a)

theorem isValid_origin (base : Position) : (origin base).isValid = true := by
  unfold origin
  split
  · assumption
  · rfl

theorem origin_of_isValid {base : Position} (h : base.isValid = true) : origin base = base := if_pos h

theorem furtherLines_succ (n : Nat) (cs : List Char) :
    furtherLines (n + 1) cs = (furtherLines n cs).map (· + 1) := by
  induction cs generalizing n with
  | nil => rfl
  | cons c cs ih =>
      rw [furtherLines, furtherLines, ih]
      split <;> rfl

theorem lt_of_mem_furtherLines {n m : Nat} {cs : List Char} (h : m ∈ furtherLines n cs) : n < m := by
  induction cs generalizing n with
  | nil => cases h
  | cons c cs ih =>
      rw [furtherLines] at h
      split at h
      · rcases List.mem_cons.mp h with rfl | h
        · omega
        · have := ih h
          omega
      · have := ih h
        omega

-- How many lines begin at an offset or before it, apart from the first.
def linesUpTo (ls : List Nat) (i : Nat) : Nat := ls.findIdx fun n => decide (i + 1 ≤ n)

theorem linesUpTo_map (ls : List Nat) (i : Nat) : linesUpTo (ls.map (· + 1)) (i + 1) = linesUpTo ls i := by
  unfold linesUpTo
  rw [List.findIdx_map]
  congr 1
  funext n
  simp

theorem linesUpTo_zero (ls : List Nat) (i : Nat) : linesUpTo (0 :: ls) i = linesUpTo ls i + 1 := by
  unfold linesUpTo
  rw [List.findIdx_cons]
  rfl

theorem getD_succ {ls : List Nat} {i k : Nat} (h : linesUpTo ls i = k + 1) :
    (ls.map (· + 1)).getD k 0 = ls.getD k 0 + 1 := by
  have hk : k < ls.length := by
    have hle : linesUpTo ls i ≤ ls.length := List.findIdx_le_length
    omega
  simp [List.getD_eq_getElem?_getD, hk]

-- The place in a text whose further lines begin at `ls`.
theorem posAt_eq (text : List Char) (ls : List Nat) (base : Position) (i : Nat) :
    posAt ⟨text, 0 :: ls, base⟩ i =
      ⟨base.offset + i, base.line + linesUpTo ls i,
        match linesUpTo ls i with
        | 0 => base.column + i
        | k + 1 => i - ls.getD k 0 + 1⟩ := by
  have hline : (0 :: ls).findIdx (fun n => decide (i + 1 ≤ n)) - 1 = linesUpTo ls i := by
    change linesUpTo (0 :: ls) i - 1 = _
    rw [linesUpTo_zero, Nat.add_sub_cancel]
  unfold posAt
  dsimp only
  rw [hline]
  congr 1
  cases linesUpTo ls i with
  | zero =>
      simp only [List.getD_cons_zero, beq_self_eq_true, if_true]
      omega
  | succ k => rfl

-- A text begins at its base.
theorem posAt_zero (text : List Char) (base : Position) : (ofText text base).posAt 0 = origin base := by
  have hnone : linesUpTo (furtherLines 0 text) 0 = 0 := by
    cases hlines : furtherLines 0 text with
    | nil => rfl
    | cons m ls =>
        have hm : 0 < m := lt_of_mem_furtherLines (hlines ▸ List.mem_cons_self)
        have hfirst : decide (0 + 1 ≤ m) = true := decide_eq_true hm
        rw [linesUpTo, List.findIdx_cons, hfirst]
        rfl
  rw [ofText, posAt_eq, hnone]
  rfl

-- What follows the first character is a text of its own.
theorem posAt_succ (c : Char) (cs : List Char) {base : Position} (h : base.isValid = true) (i : Nat) :
    (ofText (c :: cs) base).posAt (i + 1) = (ofText cs (base.step c)).posAt i := by
  rw [ofText, ofText, origin_of_isValid h, origin_of_isValid (Position.isValid_step c h), furtherLines]
  by_cases hc : c = '\n'
  · have hstep : base.step c = ⟨base.offset + 1, base.line + 1, 1⟩ := by rw [Position.step, if_pos (by simp [hc])]
    have hlines : linesUpTo (1 :: (furtherLines 0 cs).map (· + 1)) (i + 1) = linesUpTo (furtherLines 0 cs) i + 1 :=
      (linesUpTo_map (0 :: furtherLines 0 cs) i).trans (linesUpTo_zero _ i)
    rw [if_pos (by simp [hc]), furtherLines_succ, posAt_eq, posAt_eq, hstep, hlines]
    dsimp only
    refine Position.mk.injEq .. |>.mpr ⟨by omega, by omega, ?_⟩
    cases hk : linesUpTo (furtherLines 0 cs) i with
    | zero =>
        simp only [List.getD_cons_zero]
        omega
    | succ k =>
        simp only [List.getD_cons_succ, getD_succ hk]
        omega
  · have hstep : base.step c = ⟨base.offset + 1, base.line, base.column + 1⟩ := by
      rw [Position.step, if_neg (by simpa using hc)]
    rw [if_neg (by simpa using hc), furtherLines_succ, posAt_eq, posAt_eq, hstep, linesUpTo_map]
    dsimp only
    refine Position.mk.injEq .. |>.mpr ⟨by omega, rfl, ?_⟩
    cases hk : linesUpTo (furtherLines 0 cs) i with
    | zero =>
        dsimp only
        omega
    | succ k =>
        simp only [getD_succ hk]
        omega

-- The table of the lines finds the place that is reached by going through the text.
theorem posAt_eq_advance {text : List Char} {base : Position} (hbase : base.isValid = true) {i : Nat}
    (hi : i ≤ text.length) : (ofText text base).posAt i = base.advance (text.take i) := by
  induction text generalizing base i with
  | nil =>
      obtain rfl : i = 0 := Nat.le_zero.mp hi
      rw [posAt_zero, origin_of_isValid hbase]
      rfl
  | cons c cs ih =>
      cases i with
      | zero =>
          rw [posAt_zero, origin_of_isValid hbase]
          rfl
      | succ i =>
          rw [posAt_succ c cs hbase, ih (Position.isValid_step c hbase) (Nat.le_of_succ_le_succ hi), List.take_succ_cons]
          rfl

theorem ofText_origin (text : List Char) (base : Position) : ofText text (origin base) = ofText text base := by
  rw [ofText, ofText, origin_of_isValid (isValid_origin base)]

-- The line of a place is told by the newlines before it, also behind the end of the text.
theorem line_posAt (text : List Char) (base : Position) (i : Nat) :
    ((ofText text base).posAt i).line = (origin base).line + (text.take i).count '\n' := by
  have hvalid {base : Position} (hbase : base.isValid = true) :
      ((ofText text base).posAt i).line = base.line + (text.take i).count '\n' := by
    induction text generalizing base i with
    | nil =>
        rw [ofText, furtherLines, posAt_eq, origin_of_isValid hbase, List.take_nil]
        rfl
    | cons c cs ih =>
        cases i with
        | zero =>
            rw [posAt_zero, origin_of_isValid hbase]
            rfl
        | succ i =>
            rw [posAt_succ c cs hbase, ih i (Position.isValid_step c hbase), Position.line_step, Nat.add_assoc,
              ← List.count_append, List.singleton_append, List.take_succ_cons]
  rw [← ofText_origin]
  exact hvalid (isValid_origin base)

-- A piece of a piece of a text, to any depth, that begins at an offset of the whole.
inductive Within (whole : Source) : Nat → Source → Prop where
  | whole : Within whole 0 whole
  | slice {k a b : Nat} {s : Source} (within : Within whole k s) (a_le : a ≤ b) (b_le : b ≤ s.text.length) :
      Within whole (k + a) (s.slice a b)

theorem take_append_slice {cs : List Char} {a b : Nat} (hab : a ≤ b) :
    cs.take a ++ ((cs.take b).drop a ++ cs.drop b) = cs := by
  have hfront : cs.take a = (cs.take b).take a := by rw [List.take_take, Nat.min_eq_left hab]
  rw [hfront, ← List.append_assoc, List.take_append_drop, List.take_append_drop]

-- Such a piece is a part of the text, and its base is where it stands there.
theorem Within.exists_eq {text : List Char} {base : Position} (hbase : base.isValid = true) {k : Nat} {s : Source}
    (h : Within (ofText text base) k s) :
    ∃ front cs back, text = front ++ (cs ++ back) ∧ front.length = k ∧ s = ofText cs (base.advance front) := by
  induction h with
  | whole => exact ⟨[], text, [], (List.append_nil text).symm, rfl, rfl⟩
  | @slice k a b s _ hab hb ih =>
      obtain ⟨front, cs, back, rfl, rfl, rfl⟩ := ih
      change b ≤ cs.length at hb
      have hvalid := Position.isValid_advance front hbase
      refine ⟨front ++ cs.take a, (cs.take b).drop a, cs.drop b ++ back, ?_, ?_, ?_⟩
      · rw [List.append_assoc, ← List.append_assoc _ (cs.drop b), ← List.append_assoc (cs.take a), take_append_slice hab]
      · rw [List.length_append, List.length_take_of_le (Nat.le_trans hab hb)]
      · rw [Source.slice, posAt_eq_advance hvalid (Nat.le_trans hab hb), Position.advance_append]
        rfl

-- Places compose: in a piece of a text, at any depth, an offset has the place that it has in the whole.
theorem posAt_within {text : List Char} {base : Position} {k j : Nat} {s : Source} (h : Within (ofText text base) k s)
    (hj : j ≤ s.text.length) : s.posAt j = (ofText text base).posAt (k + j) := by
  rw [← ofText_origin] at h ⊢
  have hbase := isValid_origin base
  obtain ⟨front, cs, back, rfl, rfl, rfl⟩ := h.exists_eq hbase
  change j ≤ cs.length at hj
  have hk : front.length + j ≤ (front ++ (cs ++ back)).length := by
    simp only [List.length_append]
    omega
  have htake : (front ++ (cs ++ back)).take (front.length + j) = front ++ cs.take j := by
    rw [List.take_length_add_append, List.take_append_of_le_length hj]
  rw [posAt_eq_advance (Position.isValid_advance front hbase) hj, posAt_eq_advance hbase hk, htake,
    Position.advance_append]

-- Characters that a text has, at the place where it has them.
def Holds (s : Source) (p : Position) (cs : List Char) : Prop :=
  ∃ i ≤ s.text.length, cs <+: s.text.drop i ∧ p = s.posAt i

theorem holds_iff {text : List Char} {base p : Position} {cs : List Char} (hbase : base.isValid = true) :
    (ofText text base).Holds p cs ↔ ∃ front back, text = front ++ (cs ++ back) ∧ p = base.advance front := by
  constructor
  · rintro ⟨i, hi, ⟨back, hback⟩, rfl⟩
    refine ⟨text.take i, back, ?_, posAt_eq_advance hbase hi⟩
    rw [hback]
    exact (List.take_append_drop i text).symm
  · rintro ⟨front, back, rfl, rfl⟩
    have hfront : front.length ≤ (front ++ (cs ++ back)).length := by
      rw [List.length_append]
      exact Nat.le_add_right _ _
    refine ⟨front.length, hfront, ⟨back, (List.drop_left).symm⟩, ?_⟩
    rw [posAt_eq_advance hbase hfront, List.take_left]

end Source

-- The operator that announces a here-document; with a dash, tabs are dropped.
def Token.announcer (strip : Bool) : Token.Kind := if strip then .dlessDash else .dless

-- What is read instead of a text, behind a part of it.
inductive Recast : List Char → List Char → List Char → Prop where
  -- the body of a backquoted command, from which backslashes are taken
  | backquoted (inDouble : Bool) (cs : List Char) :
      Recast (Text.backquote :: cs) [Text.backquote]
        (Script.unescapeBackquote inDouble (Script.Read.inside (Construct.closeBackquote 0 cs) cs 1).1)
  -- the body of a here-document, from which tabs are taken, and whose last line always has an end
  | document {front cs body rest : List Char} {doc : Token.HereDoc} {n : Nat} {found : Bool} :
      (Token.announcer doc.strip).text.toList <:+: front →
      Token.Scanner.hereLines doc n [] cs = (body, rest, found) → Recast (front ++ cs) front body.reverse

-- Which texts stand at which places. A part of a text stands where it is found there, and what is read instead of a text
-- stands where the text does.
structure Places where
  Has : Position → List Char → Prop
  slice {p : Position} {front cs back : List Char} : Has p (front ++ (cs ++ back)) → Has (p.advance front) cs
  recast {p : Position} {cs front body : List Char} : Has p cs → Recast cs front body → Has (p.advance front) body

namespace Source

-- What has been read instead of some text that the source has otherwise, and every part of that.
inductive Rewritten (s : Source) : Position → List Char → Prop where
  | first {p : Position} {cs front body : List Char} (holds : s.Holds p cs) (recast : Recast cs front body)
      (differs : ¬front ++ body <+: cs) : Rewritten s (p.advance front) body
  | slice {p : Position} {front cs back : List Char} (whole : Rewritten s p (front ++ (cs ++ back))) :
      Rewritten s (p.advance front) cs
  | again {p : Position} {cs front body : List Char} (text : Rewritten s p cs) (recast : Recast cs front body) :
      Rewritten s (p.advance front) body

section Places

variable {text : List Char} {base : Position}

theorem Holds.slice (hbase : base.isValid = true) {p : Position} {front cs back : List Char}
    (h : (ofText text base).Holds p (front ++ (cs ++ back))) : (ofText text base).Holds (p.advance front) cs := by
  obtain ⟨before, behind, rfl, rfl⟩ := (holds_iff hbase).mp h
  refine (holds_iff hbase).mpr ⟨before ++ front, back ++ behind, ?_, (Position.advance_append _ _ _).symm⟩
  simp only [List.append_assoc]

-- The texts that are read of a text which begins at a place: those that it has, and those that are made from it.
def places (text : List Char) (base : Position) (hbase : base.isValid = true) : Places where
  Has p cs := (ofText text base).Holds p cs ∨ (ofText text base).Rewritten p cs
  slice h := h.imp (Holds.slice hbase) .slice
  recast {p cs front body} h hrecast := by
    rcases h with h | h
    · by_cases hsame : front ++ body <+: cs
      · obtain ⟨back, rfl⟩ := hsame
        rw [List.append_assoc] at h
        exact .inl (h.slice hbase)
      · exact .inr (.first h hrecast hsame)
    · exact .inr (.again h hrecast)

-- Nothing is made from a text without here-documents in which no backslash can be taken from a backquoted command.
theorem not_rewritten (hbase : base.isValid = true) (hback : Text.backquote ∉ text ∨ '\\' ∉ text)
    (hdoc : ¬['<', '<'] <:+: text) {p : Position} {cs : List Char} : ¬(ofText text base).Rewritten p cs := by
  intro h
  induction h with
  | slice _ ih => exact ih
  | again _ _ ih => exact ih
  | @first p cs front body holds recast differs =>
      obtain ⟨before, behind, rfl, -⟩ := (holds_iff hbase).mp holds
      cases recast with
      | backquoted inDouble cs =>
          refine differs ?_
          have hslash : '\\' ∉ before ++ (Text.backquote :: cs ++ behind) := hback.resolve_left (by simp)
          have hcs : '\\' ∉ cs := fun hmem => hslash (by simp [hmem])
          have hbody := Script.Read.inside_front (Construct.closeBackquote 0 cs) cs 1
          rw [Script.Read.unescapeBackquote_of_not_mem inDouble fun hmem => hcs (hbody.subset hmem)]
          exact List.cons_prefix_cons.mpr ⟨rfl, hbody⟩
      | @document _ cs _ _ doc _ _ hsign _ =>
          have hless : ['<', '<'] <:+: (Token.announcer doc.strip).text.toList := by
            cases doc.strip <;> decide
          have hfront : front <:+: before ++ (front ++ cs ++ behind) :=
            ⟨before, cs ++ behind, by simp only [List.append_assoc]⟩
          exact hdoc ((hless.trans hsign).trans hfront)

end Places

end Source

namespace Places

open Script.Read (between between_append)

variable {P : Places} {p : Position} {cs : List Char}

theorem front {back : List Char} (h : P.Has p (cs ++ back)) : P.Has p cs :=
  P.slice (show P.Has p ([] ++ (cs ++ back)) from h)

theorem skip {front : List Char} (h : P.Has p (front ++ cs)) : P.Has (p.advance front) cs := by
  have hwhole : P.Has p (front ++ (cs ++ [])) := by rwa [List.append_nil]
  exact P.slice hwhole

theorem beginning {front : List Char} (h : P.Has p cs) (hfront : front <+: cs) : P.Has p front := by
  obtain ⟨back, rfl⟩ := hfront
  exact P.front h

theorem here (h : P.Has p cs) : P.Has p [] := P.beginning h (List.nil_prefix)

theorem tail {c : Char} (h : P.Has p (c :: cs)) : P.Has (p.step c) cs :=
  P.skip (show P.Has p ([c] ++ cs) from h)

theorem rest {rest : List Char} (h : P.Has p cs) (hrest : rest <:+ cs) : P.Has (p.advance (between cs rest)) rest := by
  rw [← between_append hrest] at h
  exact P.skip h

theorem backquoted (inDouble : Bool) (h : P.Has p (Text.backquote :: cs)) : P.Has (p.step Text.backquote)
    (Script.unescapeBackquote inDouble (Script.Read.inside (Construct.closeBackquote 0 cs) cs 1).1) :=
  P.recast h (.backquoted inDouble cs)

theorem stop (h : P.Has p cs) : P.Has (p.advance cs) [] := by
  have hwhole : P.Has p (cs ++ []) := by rwa [List.append_nil]
  exact P.skip hwhole

-- A text that stands behind an operator.
def Behind (P : Places) (op : Token.Kind) (p : Position) (cs : List Char) : Prop :=
  ∃ start front, P.Has start (front ++ cs) ∧ p = start.advance front ∧ op.text.toList <:+: front

theorem Behind.skip {op : Token.Kind} {front : List Char} (h : P.Behind op p (front ++ cs)) :
    P.Behind op (p.advance front) cs := by
  obtain ⟨start, before, hhas, rfl, hop⟩ := h
  refine ⟨start, before ++ front, ?_, (Position.advance_append _ _ _).symm, hop.trans ⟨[], front, rfl⟩⟩
  rwa [List.append_assoc]

theorem behind_of_has {op : Token.Kind} (h : P.Has p (op.text.toList ++ cs)) :
    P.Behind op (p.advance op.text.toList) cs := ⟨p, _, h, rfl, List.infix_rfl⟩

theorem Behind.document {doc : Token.HereDoc} {body rest : List Char} {n : Nat} {found : Bool}
    (h : P.Behind (Token.announcer doc.strip) p cs)
    (hlines : Token.Scanner.hereLines doc n [] cs = (body, rest, found)) : P.Has p body.reverse := by
  obtain ⟨start, front, hhas, rfl, hop⟩ := h
  exact P.recast hhas (.document hop hlines)

-- What is reported is reported at places of the text.
def Told (P : Places) (ds : Array Diagnostic.OfText) : Prop :=
  ∀ d ∈ ds, ∃ p, P.Has p [] ∧ d.1.line = p.line ∧ d.1.column = p.column

theorem told_empty : P.Told #[] := fun d hd => absurd hd (Array.not_mem_empty d)

theorem Told.push {ds : Array Diagnostic.OfText} {d : Diagnostic.OfText} (h : P.Told ds) (hp : P.Has p [])
    (hd : d.1.line = p.line ∧ d.1.column = p.column) : P.Told (ds.push d) := by
  intro e he
  rcases Array.mem_push.mp he with he | rfl
  · exact h e he
  · exact ⟨p, hp, hd⟩

theorem Told.append {ds es : Array Diagnostic.OfText} (hds : P.Told ds) (hes : P.Told es) : P.Told (ds ++ es) := by
  intro d hd
  rcases Array.mem_append.mp hd with hd | hd
  · exact hds d hd
  · exact hes d hd

end Places

namespace Token

-- The characters that stand at the place of a token.
def standing (t : Token) : List Char := if t.kind = .hereDoc then t.text.toList else t.spelling

-- A sign is the text of its kind, and a number has only digits.
structure Stands (P : Places) (t : Token) : Prop where
  text : P.Has t.pos t.standing
  sign : (t.kind.isOperator || t.kind.isRedirection) = true → t.text = t.kind.text
  number : t.kind = .ioNumber → Text.isNumeral t.text = true

-- A number stands right in front of its redirection.
def Precedes (t u : Token) : Prop :=
  t.kind = .ioNumber → u.kind ≠ .eof → u.pos = t.pos.advance t.text.toList ∧ u.kind ≠ .comment ∧ u.kind ≠ .hereDoc

section Stands

variable {P : Places} {t : Token}

theorem Stands.here (h : t.Stands P) : P.Has t.pos [] := P.here h.text

-- The text of most tokens is what stands there.
theorem Stands.own (h : t.Stands P) (harith : t.kind ≠ .arith) (heof : t.kind ≠ .eof) : P.Has t.pos t.text.toList := by
  have htext := h.text
  obtain ⟨kind, text, pos, keyword, quoted⟩ := t
  cases kind with
  | arith => exact absurd rfl harith
  | eof => exact absurd rfl heof
  | _ => exact htext

theorem Stands.own_word (h : t.Stands P) (hkind : t.kind = .word) : P.Has t.pos t.text.toList :=
  h.own (by simp [hkind]) (by simp [hkind])

theorem Stands.own_sign (h : t.Stands P) (hsign : (t.kind.isOperator || t.kind.isRedirection) = true) :
    P.Has t.pos t.kind.text.toList := by
  rw [← h.sign hsign]
  refine h.own (fun hkind => ?_) fun hkind => ?_
  · rw [hkind] at hsign
    cases hsign
  · rw [hkind] at hsign
    cases hsign

theorem Stands.own_kind (h : t.Stands P) {k : Kind} (hkind : t.kind = k) (hk : (k.isOperator || k.isRedirection) = true) :
    P.Has t.pos k.text.toList := by
  subst hkind
  exact h.own_sign hk

theorem Stands.own_arith (h : t.Stands P) (hkind : t.kind = .arith) :
    P.Has t.pos (['(', '('] ++ (t.text.toList ++ [')', ')'])) := by
  have htext := h.text
  rw [standing, if_neg (by simp [hkind]), spelling, hkind] at htext
  exact htext

-- A number takes as many columns as it has digits.
theorem Stands.advance_number (h : t.Stands P) (hkind : t.kind = .ioNumber) : t.pos.advance t.text.toList =
    ⟨t.pos.offset + t.text.length, t.pos.line, t.pos.column + t.text.length⟩ := by
  have hdigits : ∀ c ∈ t.text.toList, Text.isDigit c = true := by
    have hnumber := h.number hkind
    unfold Text.isNumeral at hnumber
    split at hnumber
    · cases hnumber
    · exact List.all_eq_true.mp hnumber
  rw [← String.length_toList]
  generalize t.text.toList = cs at hdigits
  generalize t.pos = p
  induction cs generalizing p with
  | nil => rfl
  | cons c cs ih =>
      obtain ⟨hc, hcs⟩ := List.forall_mem_cons.mp hdigits
      have hstep : p.step c = ⟨p.offset + 1, p.line, p.column + 1⟩ := by
        refine if_neg fun hnewline => ?_
        rw [beq_iff_eq.mp hnewline] at hc
        cases hc
      change (p.step c).advance cs = _
      rw [ih hcs, hstep, List.length_cons]
      dsimp only
      exact Position.mk.injEq .. |>.mpr ⟨by omega, rfl, by omega⟩

end Stands

namespace Scanner

open Construct (Close)
open Script.Read (between_append)

-- What is left stands at the place that has been reached, behind the operators of the here-documents to come.
structure Placed (P : Places) (s : Scanner) : Prop where
  here : P.Has s.pos s.rest
  told : P.Told s.diags
  wanted : ∀ strip ∈ s.wantDelim, P.Behind (announcer strip) s.pos s.rest
  pending : ∀ doc ∈ s.pending, P.Has doc.word [] ∧ P.Behind (announcer doc.strip) s.pos s.rest

section Moving

variable {P : Places} {s : Scanner} {p : Position}

theorem Placed.move (h : s.Placed P) {front rest : List Char} (hs : s.rest = front ++ rest) :
    ({ s with rest, pos := s.pos.advance front } : Scanner).Placed P := by
  obtain ⟨hhere, htold, hwanted, hpending⟩ := h
  rw [hs] at hhere hwanted hpending
  exact ⟨P.skip hhere, htold, fun strip hstrip => (hwanted strip hstrip).skip,
    fun doc hdoc => ⟨(hpending doc hdoc).1, (hpending doc hdoc).2.skip⟩⟩

theorem Placed.moveTo (h : s.Placed P) {rest : List Char} (hrest : rest <:+ s.rest) : (s.moveTo rest).Placed P :=
  h.move (between_append hrest).symm

theorem Placed.moveBy (h : s.Placed P) (n : Nat) : (s.moveBy n).Placed P := h.move (List.take_append_drop n s.rest).symm

theorem Placed.skip (h : s.Placed P) {c : Char} {cs : List Char} (hs : s.rest = c :: cs) : (s.skip c cs).Placed P :=
  h.move (show s.rest = [c] ++ cs from hs)

theorem Placed.lexicalError (h : s.Placed P) (hp : P.Has p []) (message : String) : (s.lexicalError p message).Placed P :=
  ⟨h.here, h.told.push hp ⟨rfl, rfl⟩, h.wanted, h.pending⟩

theorem Placed.needs (h : s.Placed P) (f : Feature) : (s.needs f s.pos).Placed P := by
  unfold Scanner.needs
  split
  · exact h
  · exact ⟨h.here, h.told.push (P.here h.here) ⟨rfl, rfl⟩, h.wanted, h.pending⟩

theorem Placed.passConstruct (h : s.Placed P) {c : Close} (hc : ∀ rest, c = .ok rest → rest <:+ s.rest) :
    (s.passConstruct c).Placed P := by
  cases c with
  | ok rest => exact h.moveTo (hc rest rfl)
  | error e =>
      have hp : P.Has (s.pos.advance (s.rest.take (s.rest.length - e.left))) [] :=
        P.stop (P.beginning h.here (List.take_prefix _ _))
      exact (h.lexicalError hp _).moveTo List.nil_suffix

-- An operator that announces a here-document stands right in front of what follows it.
theorem Placed.emit {r : Scanner × Token} (h : r.1.Placed P)
    (hop : ∀ strip, r.2.kind = announcer strip → P.Behind (announcer strip) r.1.pos r.1.rest) :
    (Scanner.emit r).Placed P := by
  refine ⟨h.here, h.told, fun strip hstrip => ?_, h.pending⟩
  unfold Scanner.emit after at hstrip
  dsimp only at hstrip
  split at hstrip
  · cases hstrip
    exact hop false ‹_›
  · cases hstrip
    exact hop true ‹_›
  · exact h.wanted strip hstrip

end Moving

section Words

variable {P : Places} {s : Scanner}

-- One step, if there is one.
def Onto (P : Places) {α : Type} (next : Option (α × Bool × Scanner)) : Prop := ∀ r ∈ next, r.2.2.Placed P

section Onto

variable {α : Type} {next next' : Option (α × Bool × Scanner)}

theorem onto_none : Onto P (none : Option (α × Bool × Scanner)) := fun r hr => absurd hr (Option.not_mem_none r)

theorem onto_some {a : α} {q : Bool} (h : s.Placed P) : Onto P (some (a, q, s)) := by
  rintro _ ⟨⟩
  exact h

theorem Onto.ite {c : Prop} [Decidable c] (h : Onto P next) (h' : Onto P next') : Onto P (if c then next else next') := by
  split <;> assumption

end Onto

def Placing (P : Places) {α : Type} (turn : α → Bool → Scanner → Option (α × Bool × Scanner)) : Prop :=
  ∀ a quoted s, s.Placed P → Onto P (turn a quoted s)

theorem placed_pass (h : s.Placed P) {c : Char} {cs : List Char} (hs : s.rest = c :: cs) {r : Close}
    (hr : ∀ rest, r = .ok rest → rest <:+ cs) : (s.passConstruct r).Placed P :=
  h.passConstruct fun rest hrest => hs ▸ (hr rest hrest).trans (List.suffix_cons c cs)

theorem placing_wordTurn : Placing P wordTurn := by
  intro first quoted s h
  unfold wordTurn
  split
  · exact onto_none
  · rename_i c cs hs
    refine .ite (onto_some (placed_pass h hs fun rest hrest => ?_)) ?_
    · split at hrest
      · cases hrest
        exact Construct.closeParens_suffix ‹_›
      · cases hrest
    refine .ite (onto_some (placed_pass h hs fun _ => Construct.closeParens_suffix)) (.ite onto_none ?_)
    refine .ite (onto_some (h.moveBy 2)) ?_
    refine .ite (onto_some (placed_pass h hs fun _ => Construct.closeSingle_suffix)) ?_
    refine .ite (onto_some (placed_pass h hs fun _ => Construct.closeDouble_suffix)) ?_
    refine .ite (onto_some (placed_pass h hs fun _ => Construct.closeBackquote_suffix)) ?_
    refine .ite (onto_some ?_) (onto_some (h.skip hs))
    split
    · exact placed_pass (h.needs _) ((rest_needs _ _).trans hs) fun _ => Construct.closeExpansion_suffix
    · exact placed_pass h hs fun _ => Construct.closeExpansion_suffix

theorem placing_regexTurn : Placing P regexTurn := by
  intro depth quoted s h
  unfold regexTurn
  split
  · exact onto_none
  · rename_i c cs hs
    refine .ite (onto_some (h.moveBy 1)) (.ite (.ite onto_none (onto_some (h.moveBy 1))) (.ite onto_none ?_))
    refine .ite (onto_some (h.moveBy 2)) ?_
    refine .ite (onto_some (placed_pass h hs fun _ => Construct.closeSingle_suffix)) ?_
    refine .ite (onto_some (placed_pass h hs fun _ => Construct.closeDouble_suffix)) ?_
    exact .ite (onto_some (placed_pass h hs fun _ => Construct.closeExpansion_suffix)) (onto_some (h.skip hs))

theorem Placed.endWord (h : s.Placed P) {start : List Char} {p : Position} (hp : P.Has p []) (quoted : Bool) :
    (s.endWord start p quoted).1.Placed P := by
  unfold Scanner.endWord
  extract_lets text word
  split
  · exact h
  · split
    · rename_i strip hstrip
      refine ⟨h.here, h.told, nofun, fun doc hdoc => ?_⟩
      rcases List.mem_append.mp hdoc with hdoc | hdoc
      · exact h.pending doc hdoc
      · obtain rfl := List.mem_singleton.mp hdoc
        exact ⟨hp, h.wanted strip hstrip⟩
    · exact h

theorem Placed.gather {α : Type} {turn : α → Bool → Scanner → Option (α × Bool × Scanner)} (hturn : Placing P turn)
    {start : List Char} {p : Position} (hp : P.Has p []) (n : Nat) {a : α} {quoted : Bool} (h : s.Placed P) :
    (gather turn start p n a quoted s).1.Placed P := by
  induction n generalizing a quoted s with
  | zero => exact h.endWord hp quoted
  | succ n ih =>
      rw [Scanner.gather]
      cases hnext : turn a quoted s with
      | none => exact h.endWord hp quoted
      | some next => exact ih (hturn a quoted s h next hnext)

-- A word is a number only in front of a redirection.
structure EndsWord (r : Scanner × Token) : Prop where
  kind : r.2.kind = .word ∨ r.2.kind = .ioNumber
  number : r.2.kind = .ioNumber →
    Text.isNumeral r.2.text = true ∧ (r.1.rest.head? = some '<' ∨ r.1.rest.head? = some '>')

theorem endsWord_endWord (start : List Char) (p : Position) (quoted : Bool) : EndsWord (s.endWord start p quoted) := by
  unfold Scanner.endWord
  extract_lets text word
  split
  · rename_i h
    simp only [Bool.and_eq_true, Bool.or_eq_true, beq_iff_eq] at h
    exact ⟨.inr rfl, fun _ => ⟨h.1.2, h.2⟩⟩
  · split
    · exact ⟨.inl rfl, nofun⟩
    · exact ⟨.inl rfl, nofun⟩

theorem endsWord_gather {α : Type} (turn : α → Bool → Scanner → Option (α × Bool × Scanner)) (start : List Char)
    (p : Position) (n : Nat) (a : α) (quoted : Bool) : EndsWord (gather turn start p n a quoted s) := by
  induction n generalizing a quoted s with
  | zero => exact endsWord_endWord start p quoted
  | succ n ih =>
      rw [Scanner.gather]
      cases turn a quoted s with
      | none => exact endsWord_endWord start p quoted
      | some next => exact ih _ _

end Words

-- All tokens stand where they say, and a number that is the last one in front of a redirection.
structure Sound (P : Places) (s : Scanner) : Prop where
  placed : s.Placed P
  tokens : ∀ t ∈ s.tokens, t.Stands P
  chain : s.tokens.toList.IsChain Precedes
  last : ∀ t ∈ s.tokens.back?, t.kind = .ioNumber →
    s.pos = t.pos.advance t.text.toList ∧ (s.rest.head? = some '<' ∨ s.rest.head? = some '>')

section Tokens

variable {P : Places} {s s' : Scanner} {t : Token}

theorem Sound.push (h : s.Sound P) (hplaced : s'.Placed P) (htokens : s'.tokens = s.tokens.push t) (ht : t.Stands P)
    (hnext : ∀ l ∈ s.tokens.back?, l.Precedes t)
    (hlast : t.kind = .ioNumber →
      s'.pos = t.pos.advance t.text.toList ∧ (s'.rest.head? = some '<' ∨ s'.rest.head? = some '>')) : s'.Sound P := by
  refine ⟨hplaced, fun u hu => ?_, ?_, fun u hu => ?_⟩
  · rw [htokens] at hu
    rcases Array.mem_push.mp hu with hu | rfl
    · exact h.tokens u hu
    · exact ht
  · rw [htokens, Array.toList_push]
    refine List.isChain_append.mpr ⟨h.chain, List.isChain_singleton t, fun l hl u hu => ?_⟩
    cases hu
    exact hnext l (by simpa using hl)
  · rw [htokens, Array.back?_push] at hu
    cases hu
    exact hlast

-- What comes after a number is no comment.
theorem Sound.precedes (h : s.Sound P) (hpos : t.pos = s.pos) (hdoc : t.kind ≠ .hereDoc)
    (hcomment : t.kind = .comment → s.rest.head? = some '#') : ∀ l ∈ s.tokens.back?, l.Precedes t := by
  intro l hl hnumber _
  obtain ⟨hat, hhead⟩ := h.last l hl hnumber
  refine ⟨hpos.trans hat, fun hkind => ?_, hdoc⟩
  rw [hcomment hkind] at hhead
  rcases hhead with hhead | hhead <;> cases hhead

end Tokens

section Turns

variable {P : Places} {s s' : Scanner}

theorem blanks_of_redirection {cs : List Char} (h : cs.head? = some '<' ∨ cs.head? = some '>') : blanks cs = 0 := by
  rcases h with h | h
  · obtain ⟨rest, rfl⟩ := List.head?_eq_some_iff.mp h
    simp [blanks, Text.isBlank]
  · obtain ⟨rest, rfl⟩ := List.head?_eq_some_iff.mp h
    simp [blanks, Text.isBlank]

theorem Sound.blanks (h : s.Sound P) : (s.moveBy (blanks s.rest)).Sound P := by
  refine ⟨h.placed.moveBy _, h.tokens, h.chain, fun t ht hnumber => ?_⟩
  obtain ⟨hpos, hhead⟩ := h.last t ht hnumber
  rw [blanks_of_redirection hhead]
  exact ⟨hpos, hhead⟩

theorem Sound.needs (h : s.Sound P) (f : Feature) : (s.needs f s.pos).Sound P := by
  have hplaced := h.placed.needs f
  revert hplaced
  unfold Scanner.needs
  split
  · exact fun _ => h
  · exact fun hplaced => ⟨hplaced, h.tokens, h.chain, h.last⟩

theorem Sound.emit {r : Scanner × Token} (h : s.Sound P) (hr : r.1.Placed P) (hreads : s.Reads r)
    (hplain : (r.2.kind.isOperator || r.2.kind.isRedirection) = false)
    (hnumber : r.2.kind = .ioNumber →
      Text.isNumeral r.2.text = true ∧ (r.1.rest.head? = some '<' ∨ r.1.rest.head? = some '>'))
    (hcomment : r.2.kind ≠ .comment) : (emit r).Sound P := by
  have hdoc : r.2.kind ≠ .hereDoc := fun hkind => by
    have hinline := hreads.isInline
    rw [hkind] at hinline
    cases hinline
  have hop (strip : Bool) : r.2.kind ≠ announcer strip := fun hkind => by
    rw [hkind] at hplain
    cases strip <;> cases hplain
  refine h.push (hr.emit fun strip hkind => absurd hkind (hop strip))
    (congrArg (·.push r.2) hreads.tokens) ⟨?_, fun hsign => ?_, fun hkind => (hnumber hkind).1⟩
    (h.precedes hreads.pos hdoc fun hkind => absurd hkind hcomment) fun hkind => ⟨?_, (hnumber hkind).2⟩
  · have hhere := h.placed.here
    rw [hreads.rest] at hhere
    rw [hreads.pos, standing, if_neg hdoc]
    exact P.front hhere
  · cases hplain.symm.trans hsign
  · have hspelling : r.2.spelling = r.2.text.toList := by rw [spelling, hkind]
    rw [hreads.pos, ← hspelling]
    exact hreads.moved

theorem Sound.emit_word {α : Type} {turn : α → Bool → Scanner → Option (α × Bool × Scanner)}
    (hturn : Progressive turn) (hplacing : Placing P turn) (h : s.Sound P) (n : Nat) (a : α) :
    (Scanner.emit (gather turn s.rest s.pos n a false s)).Sound P := by
  have hword := endsWord_gather (s := s) turn s.rest s.pos n a false
  refine h.emit (h.placed.gather hplacing (P.here h.placed.here) n) (gather_reads hturn n a s) ?_ hword.number
    fun hkind => ?_
  · rcases hword.kind with hkind | hkind
    · rw [hkind]
      rfl
    · rw [hkind]
      rfl
  · rcases hword.kind with hkind' | hkind'
    · cases hkind.symm.trans hkind'
    · cases hkind.symm.trans hkind'

theorem standing_take {k : Kind} (harith : k ≠ .arith) (heof : k ≠ .eof) (n : Nat) :
    (s.take k n).2.standing = s.rest.take n := by
  have htext : (s.take k n).2.text.toList = s.rest.take n := String.toList_ofList
  unfold standing spelling
  cases k with
  | arith => exact absurd rfl harith
  | eof => exact absurd rfl heof
  | hereDoc => exact (if_pos rfl).trans htext
  | _ => exact (if_neg nofun).trans htext

theorem Sound.emit_take (h : s.Sound P) {k : Kind}
    (hplain : k ≠ .arith ∧ k ≠ .eof ∧ k ≠ .hereDoc ∧ k ≠ .ioNumber) {n : Nat}
    (hsign : (k.isOperator || k.isRedirection) = true → String.ofList (s.rest.take n) = k.text)
    (hcomment : k = .comment → s.rest.head? = some '#') : (Scanner.emit (s.take k n)).Sound P := by
  obtain ⟨harith, heof, hdoc, hnumber⟩ := hplain
  have hop (strip : Bool) (hkind : k = announcer strip) :
      P.Behind (announcer strip) (s.pos.advance (s.rest.take n)) (s.rest.drop n) := by
    have htaken : s.rest.take n = (announcer strip).text.toList := by
      rw [← hkind, ← hsign (by cases strip <;> subst hkind <;> rfl), String.toList_ofList]
    rw [htaken]
    refine Places.behind_of_has ?_
    rw [← htaken, List.take_append_drop]
    exact h.placed.here
  refine h.push (t := (s.take k n).2) ((h.placed.moveBy n).emit hop) rfl
    ⟨?_, hsign, fun hkind => absurd hkind hnumber⟩ (h.precedes rfl hdoc hcomment) fun hkind => absurd hkind hnumber
  rw [standing_take harith heof]
  exact P.beginning h.placed.here (List.take_prefix n s.rest)

theorem operatorAt_text {cs : List Char} {k : Kind} {n : Nat} {f : Option Feature}
    (h : operatorAt cs = some (k, n, f)) :
    (k ≠ .arith ∧ k ≠ .eof ∧ k ≠ .hereDoc ∧ k ≠ .ioNumber) ∧ k ≠ .comment ∧ String.ofList (cs.take n) = k.text := by
  unfold operatorAt at h
  split at h
  all_goals cases h
  all_goals exact ⟨⟨nofun, nofun, nofun, nofun⟩, nofun, rfl⟩

-- The bodies after a line, in front of which no number stands.
def Lined (P : Places) (s : Scanner) : Prop := s.Sound P ∧ ∀ l ∈ s.tokens.back?, l.kind ≠ .ioNumber

theorem Lined.body (h : Lined P s) {doc : HereDoc} (hword : P.Has doc.word [])
    (hop : P.Behind (announcer doc.strip) s.pos s.rest) :
    Lined P (hereDoc s doc) ∧
      ∀ op, P.Behind op s.pos s.rest → P.Behind op (hereDoc s doc).pos (hereDoc s doc).rest := by
  obtain ⟨hsound, hlast⟩ := h
  unfold Scanner.hereDoc
  generalize hlines : hereLines doc (s.rest.length + 1) [] s.rest = r
  obtain ⟨body, rest, found⟩ := r
  dsimp -zeta only
  extract_lets token moved told
  have hsuffix := hereLines_suffix hlines
  have hmoved : moved.Placed P := hsound.placed.moveTo hsuffix
  have hbehind (op : Kind) (h : P.Behind op s.pos s.rest) : P.Behind op moved.pos moved.rest := by
    rw [← between_append hsuffix] at h
    exact h.skip
  have htold : told.Placed P ∧ told.tokens = s.tokens ∧ told.pos = moved.pos ∧ told.rest = moved.rest := by
    dsimp only [told]
    split
    · exact ⟨hmoved, rfl, rfl, rfl⟩
    · exact ⟨hmoved.lexicalError hword _, rfl, rfl, rfl⟩
  obtain ⟨hplaced, htokens, hpos, hrest⟩ := htold
  have htext : P.Has s.pos token.text.toList := by
    rw [String.toList_ofList]
    exact hop.document hlines
  have hstands : token.Stands P := by
    refine ⟨?_, nofun, nofun⟩
    rw [standing, if_pos rfl]
    exact htext
  refine ⟨⟨hsound.push (t := token) ⟨hplaced.here, hplaced.told, hplaced.wanted, hplaced.pending⟩
    (congrArg (·.push token) htokens) hstands (fun l hl hnumber => absurd hnumber (hlast l hl)) nofun, fun l hl => ?_⟩,
    fun op h => ?_⟩
  · rw [Array.back?_push] at hl
    cases hl
    nofun
  · change P.Behind op told.pos told.rest
    rw [hpos, hrest]
    exact hbehind op h

theorem Lined.bodies {docs : List HereDoc} (h : Lined P s)
    (hdocs : ∀ doc ∈ docs, P.Has doc.word [] ∧ P.Behind (announcer doc.strip) s.pos s.rest) :
    Lined P (docs.foldl hereDoc s) := by
  induction docs generalizing s with
  | nil => exact h
  | cons doc docs ih =>
      obtain ⟨hdoc, hdocs⟩ := List.forall_mem_cons.mp hdocs
      obtain ⟨hbody, hbehind⟩ := h.body hdoc.1 hdoc.2
      exact ih hbody fun doc' hdoc' => ⟨(hdocs doc' hdoc').1, hbehind _ (hdocs doc' hdoc').2⟩

theorem Sound.newline (h : s.Sound P) : (Scanner.hereDocs (Scanner.emit (s.take .newline 1))).Sound P := by
  have hline := h.emit_take (k := .newline) (n := 1) ⟨nofun, nofun, nofun, nofun⟩ nofun nofun
  have hplaced : ({ Scanner.emit (s.take .newline 1) with pending := [] } : Scanner).Placed P :=
    ⟨hline.placed.here, hline.placed.told, hline.placed.wanted, fun _ hdoc => absurd hdoc List.not_mem_nil⟩
  have hlined : Lined P { Scanner.emit (s.take .newline 1) with pending := [] } := by
    refine ⟨⟨hplaced, hline.tokens, hline.chain, hline.last⟩, fun l hl => ?_⟩
    have hl : l ∈ (s.tokens.push (s.take .newline 1).2).back? := hl
    rw [Array.back?_push] at hl
    cases hl
    nofun
  exact (hlined.bodies hline.placed.pending).1

theorem Sound.next? (h : s.Sound P) {n : Nat} (hnext : s.next? n = some s') : s'.Sound P := by
  unfold Scanner.next? at hnext
  dsimp only at hnext
  replace h := h.blanks
  generalize s.moveBy (Scanner.blanks s.rest) = t at h hnext
  split at hnext
  · cases hnext
  rename_i c cs hrest
  split at hnext
  · cases hnext
    exact h.newline
  split at hnext
  · rename_i hsharp
    cases hnext
    refine h.emit_take (k := .comment) ⟨nofun, nofun, nofun, nofun⟩ nofun fun _ => ?_
    rw [hrest, beq_iff_eq.mp hsharp]
    rfl
  split at hnext
  · cases hnext
    have hplain : ({ t with wantRegex := false } : Scanner).Sound P :=
      ⟨⟨h.placed.here, h.placed.told, h.placed.wanted, h.placed.pending⟩, h.tokens, h.chain, h.last⟩
    exact hplain.emit_word progressive_regexTurn placing_regexTurn n 0
  split at hnext
  · cases hnext
    exact (h.needs _).emit_word progressive_wordTurn placing_wordTurn n true
  split at hnext
  · rename_i rest harith
    cases hnext
    have hclose : ∃ cs', t.rest = '(' :: '(' :: cs' ∧ Construct.closeArith t.dialect t.rest = .ok rest := by
      split at harith
      · rename_i hopen
        simp only [Bool.and_eq_true, beq_iff_eq] at hopen
        obtain ⟨⟨⟨rfl, hhead⟩, -⟩, -⟩ := hopen
        obtain ⟨cs', rfl⟩ := List.head?_eq_some_iff.mp hhead
        exact ⟨cs', hrest, Construct.ok_of_toOption harith⟩
      · cases harith
    obtain ⟨cs', hs, hc⟩ := hclose
    have hsuffix : rest <:+ t.rest := by
      rw [hs] at hc ⊢
      exact (Construct.suffix_of_eq _ (Construct.closeArith_ok hc).choose_spec).trans (List.suffix_append ['(', '('] cs')
    exact h.emit (h.placed.moveTo hsuffix) (arith_reads hs hc) rfl nofun nofun
  split at hnext
  · rename_i kind size feature hoperator
    cases hnext
    obtain ⟨hplain, hcomment, htext⟩ := operatorAt_text hoperator
    cases feature with
    | none => exact h.emit_take hplain (fun _ => htext) fun hkind => absurd hkind hcomment
    | some f =>
        refine (h.needs f).emit_take hplain (fun _ => ?_) fun hkind => absurd hkind hcomment
        rw [rest_needs]
        exact htext
  split at hnext
  · cases hnext
    have hillegal : (t.lexicalError t.pos ("illegal character " ++ Text.quotedChar c)).Sound P :=
      ⟨h.placed.lexicalError (P.here h.placed.here) _, h.tokens, h.chain, h.last⟩
    exact hillegal.emit_take (k := .illegal) ⟨nofun, nofun, nofun, nofun⟩ nofun nofun
  · cases hnext
    exact h.emit_word progressive_wordTurn placing_wordTurn n true

theorem Sound.finish (h : s.Sound P) : s.finish.Sound P := by
  have hdelims (docs : List HereDoc) (hdocs : ∀ doc ∈ docs, P.Has doc.word []) (t : Scanner) (ht : t.Placed P) :
      (docs.foldl missingDelim t).Placed P := by
    induction docs generalizing t with
    | nil => exact ht
    | cons doc docs ih =>
        obtain ⟨hdoc, hdocs⟩ := List.forall_mem_cons.mp hdocs
        exact ih hdocs _ (ht.lexicalError hdoc _)
  have hend := hdelims s.pending (fun doc hdoc => (h.placed.pending doc hdoc).1) _ (h.placed.moveTo List.nil_suffix)
  have hplaced : s.finish.Placed P := ⟨hend.here, hend.told, hend.wanted, nofun⟩
  exact h.push hplaced (finish_tokens s) ⟨P.stop h.placed.here, nofun, nofun⟩ (fun _ _ _ heof => absurd rfl heof) nofun

theorem Sound.run (n : Nat) (h : s.Sound P) : (Scanner.run n s).Sound P := by
  induction n generalizing s with
  | zero => exact h.finish
  | succ n ih =>
      rw [Scanner.run]
      cases hnext : s.next? (n + 1) with
      | none => exact h.finish
      | some s' => exact ih (h.next? hnext)

end Turns

end Scanner

-- The tokens of a text stand where they say, and what is wrong with the text is reported there.
theorem scanText_stands {P : Places} (d : Dialect) (file : String) {p : Position} {cs : List Char} (h : P.Has p cs) :
    (∀ t ∈ (scanText d file p cs).1, t.Stands P) ∧ (scanText d file p cs).1.IsChain Precedes ∧
      P.Told (scanText d file p cs).2.toArray := by
  have hplaced : ({ dialect := d, file, rest := cs, pos := p } : Scanner).Placed P :=
    ⟨h, P.told_empty, fun _ hwanted => absurd hwanted (Option.not_mem_none _), fun _ hdoc => absurd hdoc List.not_mem_nil⟩
  have hstart : ({ dialect := d, file, rest := cs, pos := p } : Scanner).Sound P :=
    ⟨hplaced, fun t ht => absurd ht (Array.not_mem_empty t), .nil, fun t ht => absurd ht (Option.not_mem_none t)⟩
  have hrun := hstart.run (cs.length + 1)
  exact ⟨fun t ht => hrun.tokens t (Array.mem_toList_iff.mp ht), hrun.chain, by simpa [scanText] using hrun.placed.told⟩

end Token

end ShellScript

import Mathlib.Data.List.Forall2
import ShellScript.Token.Scan
import ShellScript.Proofs.Text.Characters
import ShellScript.Proofs.Token.Closing

-- How the tokens of a text lie in it: one after the other, with blanks between them, and the bodies of here-documents
-- after the line that announces them.
namespace ShellScript

namespace Position

theorem offset_step (p : Position) (c : Char) : (p.step c).offset = p.offset + 1 := by
  unfold step
  split <;> rfl

theorem offset_advance (p : Position) (cs : List Char) : (p.advance cs).offset = p.offset + cs.length := by
  induction cs generalizing p with
  | nil => rfl
  | cons c cs ih =>
      change ((p.step c).advance cs).offset = _
      rw [ih, offset_step, List.length_cons]
      omega

theorem isValid_step {p : Position} (c : Char) (h : p.isValid = true) : (p.step c).isValid = true := by
  simp only [isValid, decide_eq_true_eq] at h ⊢
  unfold step
  split
  · exact Nat.succ_pos _
  · exact h

theorem isValid_advance {p : Position} (cs : List Char) (h : p.isValid = true) : (p.advance cs).isValid = true := by
  induction cs generalizing p with
  | nil => exact h
  | cons c cs ih => exact ih (isValid_step c h)

-- Every place on a later line is one.
theorem isValid_newline (p : Position) : (p.advance ['\n']).isValid = true :=
  decide_eq_true (Nat.succ_pos _)

end Position

-- Nothing that has been reported is fatal.
def Diagnostic.Harmless (ds : Array OfText) : Prop := ∀ d ∈ ds, d.1.isFatal = false

theorem Diagnostic.harmless_of_push {ds : Array OfText} {d : OfText} (h : Harmless (ds.push d)) :
    Harmless ds ∧ d.1.isFatal = false :=
  ⟨fun e he => h e (Array.mem_push_of_mem d he), h d Array.mem_push_self⟩

namespace Token

open Diagnostic (Harmless harmless_of_push)

-- The characters of a token where it stands. The body of a here-document is not where its token is, and the end has
-- none.
def spelling (t : Token) : List Char :=
  match t.kind with
  | .arith => ['(', '('] ++ (t.text.toList ++ [')', ')'])
  | .hereDoc | .eof => []
  | _ => t.text.toList

-- A token with characters of its own on one line.
def Kind.isInline (k : Kind) : Bool := k != .newline && k != .hereDoc && k != .eof

namespace Scanner

open Construct (Close)

-- What a line has said about here-documents so far: whether the next word is a delimiter, and which bodies follow.
structure Queue where
  want : Option Bool := none
  pending : List HereDoc := []

def HereDoc.ofWord (t : Token) (strip : Bool) : HereDoc :=
  { word := t.pos, delim := String.ofList (unquoteDelim t.text.toList), quoted := t.quoted, strip }

def Queue.after (q : Queue) (t : Token) : Queue :=
  match t.kind with
  | .word =>
    match q.want with
    | some strip => { want := none, pending := q.pending ++ [HereDoc.ofWord t strip] }
    | none => q
  | .dless => { q with want := some false }
  | .dlessDash => { q with want := some true }
  | _ => q

-- The lines of here-documents from a position on, with the tokens for their bodies, up to another position.
inductive Bodies : List HereDoc → Position → List Char → List Token → Position → List Char → Prop where
  | nil {p : Position} {cs : List Char} : Bodies [] p cs [] p cs
  | cons {doc : HereDoc} {docs : List HereDoc} {p q : Position} {lines cs rest body : List Char} {found : Bool}
      {ts : List Token} (lines_eq : hereLines doc ((lines ++ cs).length + 1) [] (lines ++ cs) = (body, cs, found))
      (bodies : Bodies docs (p.advance lines) cs ts q rest) :
      Bodies (doc :: docs) p (lines ++ cs)
        ({ kind := .hereDoc, text := String.ofList body.reverse, pos := p, quoted := doc.quoted } :: ts) q rest

-- The token for the body that was read with an announcement, up to its delimiter.
def HereDoc.ReadAs (doc : HereDoc) (t : Token) : Prop :=
  t.kind = .hereDoc ∧ t.quoted = doc.quoted ∧ t.pos.isValid = true ∧
    ∃ text body rest, hereLines doc (text.length + 1) [] text = (body, rest, true) ∧ t.text = String.ofList body.reverse

-- Every here-document that is announced has its body after the line, and there is no other body.
inductive Delivers : Queue → List Token → Prop where
  | eof {want : Option Bool} {t : Token} (kind : t.kind = .eof) : Delivers ⟨want, []⟩ [t]
  | token {q : Queue} {t : Token} {ts : List Token} (isInline : t.kind.isInline = true) (rest : Delivers (q.after t) ts) :
      Delivers q (t :: ts)
  | newline {q : Queue} {t : Token} {bodies ts : List Token} (kind : t.kind = .newline)
      (docs : List.Forall₂ HereDoc.ReadAs q.pending bodies) (rest : Delivers { q with pending := [] } ts) :
      Delivers q (t :: (bodies ++ ts))

inductive Layout : Queue → Position → List Char → List Token → Prop where
  | eof (q : Queue) (p : Position) : Layout q p [] [{ kind := .eof, text := "", pos := p }]
  | blank {q : Queue} {p : Position} {c : Char} {cs : List Char} {ts : List Token} (blank : Text.isBlank c = true)
      (rest : Layout q (p.advance [c]) cs ts) : Layout q p (c :: cs) ts
  | joined {q : Queue} {p : Position} {cs : List Char} {ts : List Token}
      (rest : Layout q (p.advance ['\\', '\n']) cs ts) : Layout q p ('\\' :: '\n' :: cs) ts
  | token {q : Queue} {p : Position} {t : Token} {cs : List Char} {ts : List Token} (isInline : t.kind.isInline = true)
      (pos : t.pos = p) (rest : Layout (q.after t) (p.advance t.spelling) cs ts) :
      Layout q p (t.spelling ++ cs) (t :: ts)
  | newline {q : Queue} {p p' : Position} {cs rest : List Char} {bodies ts : List Token}
      (docs : Bodies q.pending (p.advance ['\n']) cs bodies p' rest) (rest : Layout { q with pending := [] } p' rest ts) :
      Layout q p ('\n' :: cs) ({ kind := .newline, text := "\n", pos := p } :: (bodies ++ ts))

-- Moving over the text.

def queue (s : Scanner) : Queue := ⟨s.wantDelim, s.pending⟩

-- Only the place in the text and the diagnostics change.
def Moves (s s' : Scanner) : Prop :=
  ∃ taken rest diags, s.rest = taken ++ rest ∧ (Harmless diags → Harmless s.diags) ∧
    s' = { s with rest, pos := s.pos.advance taken, diags }

namespace Moves

variable {s s' s'' : Scanner}

theorem refl (s : Scanner) : s.Moves s := ⟨[], s.rest, s.diags, rfl, id, rfl⟩

theorem trans (h : s.Moves s') (h' : s'.Moves s'') : s.Moves s'' := by
  obtain ⟨taken, rest, diags, hrest, hdiags, rfl⟩ := h
  obtain ⟨taken', rest', diags', hrest', hdiags', rfl⟩ := h'
  refine ⟨taken ++ taken', rest', diags', ?_, hdiags ∘ hdiags', ?_⟩
  · rw [hrest, List.append_assoc]
    exact congrArg (taken ++ ·) hrest'
  · rw [Position.advance_append]

theorem length_le (h : s.Moves s') : s'.rest.length ≤ s.rest.length := by
  obtain ⟨taken, rest, diags, hrest, -, rfl⟩ := h
  rw [hrest, List.length_append]
  exact Nat.le_add_left _ _

theorem queue_eq (h : s.Moves s') : s'.queue = s.queue := by
  obtain ⟨_, _, _, _, _, rfl⟩ := h
  rfl

end Moves

section Moving

variable {s : Scanner}

theorem moves_report (d : Diagnostic.OfText) : s.Moves (s.report d) :=
  ⟨[], s.rest, s.diags.push d, rfl, fun h => (harmless_of_push h).1, rfl⟩

theorem moves_needs (f : Feature) (p : Position) : s.Moves (s.needs f p) := by
  unfold needs
  split
  · exact .refl s
  · exact moves_report _

theorem rest_needs (f : Feature) (p : Position) : (s.needs f p).rest = s.rest := by
  unfold needs
  split <;> rfl

theorem moveTo_eq {taken rest : List Char} (h : s.rest = taken ++ rest) :
    s.moveTo rest = { s with rest, pos := s.pos.advance taken } := by
  rw [moveTo, h, List.length_append, Nat.add_sub_cancel, List.take_left]

theorem moves_moveTo {rest : List Char} (h : rest <:+ s.rest) : s.Moves (s.moveTo rest) := by
  obtain ⟨taken, htaken⟩ := h
  exact ⟨taken, rest, s.diags, htaken.symm, id, moveTo_eq htaken.symm⟩

theorem moves_moveBy (n : Nat) : s.Moves (s.moveBy n) :=
  ⟨s.rest.take n, s.rest.drop n, s.diags, (List.take_append_drop n s.rest).symm, id, rfl⟩

theorem moves_skip {c : Char} {cs : List Char} (h : s.rest = c :: cs) : s.Moves (s.skip c cs) :=
  ⟨[c], cs, s.diags, h, id, rfl⟩

theorem moves_passConstruct {c : Close} (h : ∀ rest, c = .ok rest → rest <:+ s.rest) :
    s.Moves (s.passConstruct c) := by
  cases c with
  | ok rest => exact moves_moveTo (h rest rfl)
  | error e => exact (moves_report _).trans (moves_moveTo (List.nil_suffix))

theorem rest_passConstruct {c : Close} {n : Nat} (h : ∀ rest, c = .ok rest → rest.length ≤ n) :
    (s.passConstruct c).rest.length ≤ n := by
  cases c with
  | ok rest => exact h rest rfl
  | error e => exact Nat.zero_le n

end Moving

-- Words.

section Words

variable {s s' : Scanner} {start : List Char} {p : Position}

-- Onwards by at least one character.
structure Proceeds (s s' : Scanner) : Prop where
  moves : s.Moves s'
  shorter : s'.rest.length < s.rest.length

theorem Moves.proceeds {t : Scanner} (h : s.Moves t) (h' : t.Proceeds s') : s.Proceeds s' :=
  ⟨h.trans h'.moves, Nat.lt_of_lt_of_le h'.shorter h.length_le⟩

theorem proceeds_skip {c : Char} {cs : List Char} (hs : s.rest = c :: cs) : s.Proceeds (s.skip c cs) :=
  ⟨moves_skip hs, by simp [skip, hs]⟩

theorem proceeds_moveBy {c : Char} {cs : List Char} (hs : s.rest = c :: cs) (n : Nat) : s.Proceeds (s.moveBy (n + 1)) := by
  refine ⟨moves_moveBy _, ?_⟩
  rw [moveBy, List.length_drop, hs, List.length_cons]
  omega

theorem proceeds_passConstruct {r : Close} {c : Char} {cs : List Char} (hs : s.rest = c :: cs)
    (h : ∀ rest, r = .ok rest → rest <:+ cs) : s.Proceeds (s.passConstruct r) := by
  refine ⟨moves_passConstruct fun rest hrest => ?_, ?_⟩
  · rw [hs]
    exact (h rest hrest).trans (List.suffix_cons c cs)
  · rw [hs, List.length_cons]
    exact Nat.lt_succ_of_le (rest_passConstruct fun rest hrest => (h rest hrest).length_le)

-- One step, if there is one.
def Onwards {α : Type} (s : Scanner) (next : Option (α × Bool × Scanner)) : Prop :=
  ∀ a q s', next = some (a, q, s') → s.Proceeds s'

namespace Onwards

variable {α : Type} {next next' : Option (α × Bool × Scanner)}

theorem none : s.Onwards (none : Option (α × Bool × Scanner)) := fun _ _ _ h => nomatch h

theorem some {a : α} {q : Bool} (h : s.Proceeds s') : s.Onwards (some (a, q, s')) := by
  intro _ _ _ heq
  cases heq
  exact h

theorem ite {c : Prop} [Decidable c] (h : s.Onwards next) (h' : s.Onwards next') :
    s.Onwards (if c then next else next') := by
  split <;> assumption

end Onwards

-- Every step of a loop takes something.
def Progressive {α : Type} (turn : α → Bool → Scanner → Option (α × Bool × Scanner)) : Prop :=
  ∀ a quoted s, Onwards s (turn a quoted s)

theorem progressive_wordTurn : Progressive wordTurn := by
  intro first quoted s
  unfold wordTurn
  split
  · exact .none
  · rename_i c cs hs
    refine .ite (.some (proceeds_passConstruct hs fun rest h => ?_)) ?_
    · split at h
      · cases h
        exact Construct.closeParens_suffix ‹_›
      · cases h
    refine .ite (.some (proceeds_passConstruct hs fun _ => Construct.closeParens_suffix)) (.ite .none ?_)
    refine .ite (.some (proceeds_moveBy hs 1)) ?_
    refine .ite (.some (proceeds_passConstruct hs fun _ => Construct.closeSingle_suffix)) ?_
    refine .ite (.some (proceeds_passConstruct hs fun _ => Construct.closeDouble_suffix)) ?_
    refine .ite (.some (proceeds_passConstruct hs fun _ => Construct.closeBackquote_suffix)) ?_
    refine .ite (.some ?_) (.some (proceeds_skip hs))
    split
    · exact (moves_needs _ _).proceeds (proceeds_passConstruct ((rest_needs _ _).trans hs)
        fun _ => Construct.closeExpansion_suffix)
    · exact proceeds_passConstruct hs fun _ => Construct.closeExpansion_suffix

theorem progressive_regexTurn : Progressive regexTurn := by
  intro depth quoted s
  unfold regexTurn
  split
  · exact .none
  · rename_i c cs hs
    refine .ite (.some (proceeds_moveBy hs 0)) (.ite (.ite .none (.some (proceeds_moveBy hs 0))) (.ite .none ?_))
    refine .ite (.some (proceeds_moveBy hs 1)) ?_
    refine .ite (.some (proceeds_passConstruct hs fun _ => Construct.closeSingle_suffix)) ?_
    refine .ite (.some (proceeds_passConstruct hs fun _ => Construct.closeDouble_suffix)) ?_
    exact .ite (.some (proceeds_passConstruct hs fun _ => Construct.closeExpansion_suffix)) (.some (proceeds_skip hs))

-- The first character of a word tells that there is one.
theorem wordTurn_ne_none {quoted : Bool} {c : Char} {cs : List Char} (hs : s.rest = c :: cs)
    (hc : Text.isMeta c = false ∨ ((c == '<' || c == '>') && cs.head? == some '(') = true) :
    wordTurn true quoted s ≠ none := by
  have hsome {c : Prop} [Decidable c] {a : Bool × Bool × Scanner} {next : Option (Bool × Bool × Scanner)}
      (h : next ≠ none) : (if c then some a else next) ≠ none := by
    split
    · exact Option.some_ne_none a
    · exact h
  unfold wordTurn
  rw [hs]
  dsimp only
  rcases hc with hc | hc
  · refine hsome (hsome ?_)
    rw [hc]
    exact hsome (hsome (hsome (hsome (hsome (Option.some_ne_none _)))))
  · rw [Bool.true_and, hc]
    exact Option.some_ne_none _

section Gather

variable {α : Type} {turn : α → Bool → Scanner → Option (α × Bool × Scanner)} (hturn : Progressive turn)

include hturn

-- A word is what the steps of its loop pass.
theorem gather_ends (start : List Char) (p : Position) (n : Nat) (a : α) (quoted : Bool) (s : Scanner) :
    ∃ s' q, s.Moves s' ∧ gather turn start p n a quoted s = s'.endWord start p q ∧
      (0 < n → turn a quoted s ≠ none → s'.rest.length < s.rest.length) := by
  induction n generalizing a quoted s with
  | zero => exact ⟨s, quoted, .refl s, rfl, fun h => by omega⟩
  | succ n ih =>
      rw [gather]
      cases h : turn a quoted s with
      | none => exact ⟨s, quoted, .refl s, rfl, fun _ hne => absurd rfl hne⟩
      | some next =>
          obtain ⟨a', quoted', t⟩ := next
          have hnext := hturn a quoted s _ _ _ h
          obtain ⟨s', q, hmoves, heq, -⟩ := ih a' quoted' t
          exact ⟨s', q, hnext.moves.trans hmoves, heq,
            fun _ _ => Nat.lt_of_le_of_lt hmoves.length_le hnext.shorter⟩

-- One step for each character is enough.
theorem gather_bound {n : Nat} (a : α) (quoted : Bool) {s : Scanner} (hn : s.rest.length ≤ n) :
    gather turn start p (n + 1) a quoted s = gather turn start p n a quoted s := by
  induction n generalizing a quoted s with
  | zero =>
      rw [gather, gather]
      cases h : turn a quoted s with
      | none => rfl
      | some next =>
          have hshorter := (hturn a quoted s _ _ _ h).shorter
          omega
  | succ n ih =>
      rw [gather, gather]
      cases h : turn a quoted s with
      | none => rfl
      | some next =>
          obtain ⟨a', q, s'⟩ := next
          have hshorter := (hturn a quoted s _ _ _ h).shorter
          exact ih a' q (by omega)

end Gather

end Words

-- A token and the place behind it, before the token has had an effect on what follows.
structure Reads (s : Scanner) (r : Scanner × Token) : Prop where
  isInline : r.2.kind.isInline = true
  pos : r.2.pos = s.pos
  rest : s.rest = r.2.spelling ++ r.1.rest
  moved : r.1.pos = s.pos.advance r.2.spelling
  tokens : r.1.tokens = s.tokens
  queue : r.1.queue = if r.2.kind = .word then s.queue.after r.2 else s.queue
  wantRegex : r.1.wantRegex = s.wantRegex
  diags : Harmless r.1.diags → Harmless s.diags

section Reading

variable {s s' : Scanner}

theorem endWord_reads (h : s.Moves s') (quoted : Bool) : s.Reads (s'.endWord s.rest s.pos quoted) := by
  obtain ⟨taken, rest, diags, hrest, hdiags, rfl⟩ := h
  have htext : textFrom { s with rest, pos := s.pos.advance taken, diags } s.rest s.pos = String.ofList taken := by
    rw [textFrom, Position.offset_advance, Nat.add_sub_cancel_left, hrest, List.take_left]
  unfold endWord
  rw [htext]
  dsimp only
  split
  · exact ⟨rfl, rfl, by simp [spelling, hrest], by simp [spelling], rfl, rfl, rfl, hdiags⟩
  · split
    · rename_i strip hwant
      refine ⟨rfl, rfl, by simp [spelling, hrest], by simp [spelling], rfl, ?_, rfl, hdiags⟩
      simp only [queue, Queue.after, hwant, if_true]
      rfl
    · rename_i hwant
      refine ⟨rfl, rfl, by simp [spelling, hrest], by simp [spelling], rfl, ?_, rfl, hdiags⟩
      simp only [queue, Queue.after, hwant, if_true]

theorem rest_endWord (start : List Char) (p : Position) (quoted : Bool) :
    (s.endWord start p quoted).1.rest = s.rest := by
  unfold endWord
  dsimp only
  repeat' split
  all_goals rfl

theorem spelling_take {k : Kind} (hinline : k.isInline = true) (harith : k ≠ .arith) (n : Nat) :
    (s.take k n).2.spelling = s.rest.take n := by
  cases k with
  | arith => exact absurd rfl harith
  | hereDoc | eof => cases hinline
  | _ => exact String.toList_ofList

theorem take_reads {k : Kind} (hinline : k.isInline = true) (harith : k ≠ .arith) (hword : k ≠ .word) (n : Nat) :
    s.Reads (s.take k n) := by
  have hspelling := spelling_take (s := s) hinline harith n
  refine ⟨hinline, rfl, ?_, ?_, rfl, ?_, rfl, id⟩
  · rw [hspelling]
    exact (List.take_append_drop n s.rest).symm
  · rw [hspelling]
    rfl
  · exact (if_neg hword).symm

section Gathered

variable {α : Type} {turn : α → Bool → Scanner → Option (α × Bool × Scanner)} (hturn : Progressive turn)

include hturn

theorem gather_reads (n : Nat) (a : α) (s : Scanner) : s.Reads (gather turn s.rest s.pos n a false s) := by
  obtain ⟨s', q, hmoves, heq, -⟩ := gather_ends hturn s.rest s.pos n a false s
  rw [heq]
  exact endWord_reads hmoves q

-- It is empty only where its loop ends at once.
theorem gather_nonempty {n : Nat} (hn : 0 < n) {a : α} (h : turn a false s ≠ none) :
    (gather turn s.rest s.pos n a false s).2.spelling ≠ [] := by
  have hreads := gather_reads hturn n a s
  obtain ⟨s', q, hmoves, heq, hshorter⟩ := gather_ends hturn s.rest s.pos n a false s
  intro hempty
  have hrest : (gather turn s.rest s.pos n a false s).1.rest = s'.rest := by
    rw [heq, rest_endWord]
  have hlen := congrArg List.length hreads.rest
  rw [hempty, hrest, List.nil_append] at hlen
  have := hshorter hn h
  omega

end Gathered

theorem arith_reads {cs rest : List Char} (hs : s.rest = '(' :: '(' :: cs)
    (h : Construct.closeArith s.dialect s.rest = .ok rest) :
    s.Reads (s.moveTo rest,
      { kind := .arith, text := String.ofList ((s.rest.take (s.rest.length - rest.length - 2)).drop 2), pos := s.pos }) := by
  rw [hs] at h
  obtain ⟨inner, hinner⟩ := Construct.closeArith_ok h
  have hrest : s.rest = (['(', '('] ++ (inner ++ [')', ')'])) ++ rest := by
    rw [hs, hinner]
    simp
  have htext : (s.rest.take (s.rest.length - rest.length - 2)).drop 2 = inner := by
    have hlen : s.rest.length - rest.length - 2 = inner.length + 2 := by
      rw [hrest]
      simp only [List.length_append, List.length_cons, List.length_nil]
      omega
    rw [hlen, hrest]
    simp
  rw [htext, moveTo_eq hrest]
  exact ⟨rfl, rfl, by simpa [spelling] using hrest, by simp [spelling], rfl, rfl, rfl, id⟩

end Reading

-- Only the operator `=~` announces a pattern.
theorem after_wantRegex {s : Scanner} {t : Token} (h : (s.after t).wantRegex = true) :
    s.wantRegex = true ∨ t.kind = .word ∧ t.text = "=~" := by
  simp only [after, Bool.or_eq_true, Bool.and_eq_true, beq_iff_eq] at h
  rcases h with h | ⟨⟨hkind, -⟩, htext⟩
  · exact .inl h
  · exact .inr ⟨hkind, htext⟩

-- One token.

-- What is left to do: the text, and a pattern that may be empty.
def left (s : Scanner) : Nat := s.rest.length + if s.wantRegex then 1 else 0

-- The new tokens in front of those to come.
structure Adds (s s' : Scanner) (new : List Token) : Prop where
  tokens : s'.tokens.toList = s.tokens.toList ++ new
  layout : ∀ ts, Layout s'.queue s'.pos s'.rest ts → Layout s.queue s.pos s.rest (new ++ ts)
  diags : Harmless s'.diags → Harmless s.diags
  delivers : Harmless s'.diags → ∀ ts, Delivers s'.queue ts → Delivers s.queue (new ++ ts)

structure Steps (s s' : Scanner) : Prop where
  left : s'.left < s.left
  adds : ∃ new, s.Adds s' new

section Steps

variable {s s' : Scanner}

theorem emit_queue {r : Scanner × Token} (h : s.Reads r) : (emit r).queue = s.queue.after r.2 := by
  have hqueue := h.queue
  have hemit : (emit r).queue = ⟨(r.1.after r.2).wantDelim, r.1.queue.pending⟩ := rfl
  rw [hemit]
  cases hk : r.2.kind with
  | word =>
      rw [hk, if_pos rfl] at hqueue
      rw [← hqueue, Scanner.after, hk]
      rfl
  | dless | dlessDash =>
      rw [hk, if_neg nofun] at hqueue
      rw [← hqueue, Scanner.after, Queue.after, hk]
  | _ =>
      rw [hk, if_neg nofun] at hqueue
      rw [← hqueue, Scanner.after, Queue.after, hk]
      rfl

theorem emit_left {r : Scanner × Token} (h : s.Reads r) :
    (emit r).left < s.left ∨ r.2.spelling = [] ∧ (emit r).left ≤ s.left := by
  have hlen : s.rest.length = r.2.spelling.length + r.1.rest.length := by
    rw [h.rest, List.length_append]
  have hrest : (emit r).left = r.1.rest.length + if (r.1.after r.2).wantRegex then 1 else 0 := by
    rw [left]
    rfl
  rw [hrest, left, hlen]
  by_cases hwant : (r.1.after r.2).wantRegex = true
  · rw [if_pos hwant]
    rcases after_wantRegex hwant with hbefore | ⟨hkind, htext⟩
    · rw [if_pos (h.wantRegex ▸ hbefore)]
      rcases Nat.eq_zero_or_pos r.2.spelling.length with hzero | hpos
      · exact .inr ⟨List.length_eq_zero_iff.mp hzero, by omega⟩
      · exact .inl (by omega)
    · have htwo : r.2.spelling.length = 2 := by
        rw [spelling, hkind, htext]
        rfl
      exact .inl (by omega)
  · rw [if_neg hwant]
    rcases Nat.eq_zero_or_pos r.2.spelling.length with hzero | hpos
    · exact .inr ⟨List.length_eq_zero_iff.mp hzero, by omega⟩
    · exact .inl (by omega)

theorem emit_adds {r : Scanner × Token} (h : s.Reads r) : s.Adds (emit r) [r.2] := by
  refine ⟨?_, fun ts hts => ?_, h.diags, fun _ ts hts => ?_⟩
  · change ((r.1.after r.2).tokens.push r.2).toList = _
    rw [Array.toList_push]
    exact congrArg (·.toList ++ [r.2]) h.tokens
  · have hpos : (emit r).pos = s.pos.advance r.2.spelling := h.moved
    have hrest : (emit r).rest = r.1.rest := rfl
    rw [emit_queue h, hpos, hrest] at hts
    rw [h.rest]
    exact .token h.isInline h.pos hts
  · rw [emit_queue h] at hts
    exact .token h.isInline hts

theorem emit_steps {r : Scanner × Token} (h : s.Reads r) (hne : r.2.spelling ≠ []) : s.Steps (emit r) := by
  refine ⟨?_, _, emit_adds h⟩
  rcases emit_left h with hlt | ⟨hempty, -⟩
  · exact hlt
  · exact absurd hempty hne

-- A pattern that may be empty is read only once.
theorem emit_steps_regex {r : Scanner × Token} (hwant : s.wantRegex = true)
    (h : Reads { s with wantRegex := false } r) : s.Steps (emit r) := by
  have hadds := emit_adds h
  refine ⟨?_, _, hadds.tokens, hadds.layout, hadds.diags, hadds.delivers⟩
  have hless : left { s with wantRegex := false } < s.left := by
    simp [left, hwant]
  rcases emit_left h with hlt | ⟨-, hle⟩
  · exact Nat.lt_trans hlt hless
  · exact Nat.lt_of_le_of_lt hle hless

-- Diagnostics do not count.
theorem Steps.of_report {d : Diagnostic.OfText} (h : (s.report d).Steps s') : s.Steps s' := by
  obtain ⟨hleft, new, htokens, hlayout, hdiags, hdelivers⟩ := h
  exact ⟨hleft, new, htokens, hlayout, fun h => (harmless_of_push (hdiags h)).1, hdelivers⟩

theorem Steps.of_needs {f : Feature} {p : Position} (h : (s.needs f p).Steps s') : s.Steps s' := by
  unfold needs at h
  split at h
  · exact h
  · exact h.of_report

theorem take_steps {k : Kind} (hinline : k.isInline = true) (harith : k ≠ .arith) (hword : k ≠ .word) {n : Nat}
    (hne : s.rest.take n ≠ []) : s.Steps (emit (s.take k n)) := by
  refine emit_steps (take_reads hinline harith hword n) ?_
  rw [spelling_take hinline harith]
  exact hne

theorem word_steps {n : Nat} (hn : 0 < n) {c : Char} {cs : List Char} (hs : s.rest = c :: cs)
    (hc : Text.isMeta c = false ∨ ((c == '<' || c == '>') && cs.head? == some '(') = true) :
    s.Steps (emit (s.word n)) := by
  exact emit_steps (gather_reads progressive_wordTurn n true s) (gather_nonempty progressive_wordTurn hn (wordTurn_ne_none hs hc))

end Steps

-- The bodies of here-documents.

-- A line is the last one, or is added to the body.
theorem hereLines_round (doc : HereDoc) (body : List Char) (c : Char) (cs : List Char) :
    ∃ (stop : Bool) (body' after : List Char), after <:+ c :: cs ∧ after.length < (c :: cs).length ∧
      ∀ n, hereLines doc (n + 1) body (c :: cs) = if stop then (body, after, true) else hereLines doc n body' after := by
  refine ⟨_, _, _, List.drop_suffix ((List.takeWhile (· != '\n') (c :: cs)).length + 1) _, ?_, fun n => rfl⟩
  rw [List.length_drop, List.length_cons]
  omega

theorem hereLines_suffix {doc : HereDoc} {n : Nat} {body rest body' rest' : List Char} {found : Bool}
    (h : hereLines doc n body rest = (body', rest', found)) : rest' <:+ rest := by
  induction n generalizing body rest with
  | zero =>
      cases h
      exact List.suffix_refl _
  | succ n ih =>
      cases rest with
      | nil =>
          cases h
          exact List.suffix_refl _
      | cons c cs =>
          obtain ⟨stop, body₁, after, hsuffix, -, heq⟩ := hereLines_round doc body c cs
          rw [heq] at h
          cases stop with
          | true =>
              cases h
              exact hsuffix
          | false => exact (ih h).trans hsuffix

-- One step for each line and one for the end are enough.
theorem hereLines_bound {doc : HereDoc} {n : Nat} {body rest : List Char} (hn : rest.length < n) :
    hereLines doc (n + 1) body rest = hereLines doc n body rest := by
  induction n generalizing body rest with
  | zero => omega
  | succ n ih =>
      cases rest with
      | nil => rfl
      | cons c cs =>
          obtain ⟨stop, body₁, after, -, hshorter, heq⟩ := hereLines_round doc body c cs
          rw [heq, heq, ih (by omega)]

theorem hereDoc_eq {doc : HereDoc} {s : Scanner} {lines rest body : List Char} {found : Bool}
    (hrest : s.rest = lines ++ rest) (h : hereLines doc (s.rest.length + 1) [] s.rest = (body, rest, found)) :
    ∃ diags, (Harmless diags → Harmless s.diags ∧ found = true) ∧ hereDoc s doc =
      { s with
        rest, diags, pos := s.pos.advance lines
        tokens := s.tokens.push
          { kind := .hereDoc, text := String.ofList body.reverse, pos := s.pos, quoted := doc.quoted } } := by
  unfold hereDoc
  rw [h]
  dsimp only
  rw [moveTo_eq hrest]
  cases found with
  | true => exact ⟨s.diags, fun h => ⟨h, rfl⟩, rfl⟩
  | false =>
      refine ⟨(s.missingDelim doc).diags, fun h => ?_, rfl⟩
      cases (harmless_of_push h).2

theorem hereDocs_eq (docs : List HereDoc) (s : Scanner) :
    ∃ ts rest p diags, docs.foldl hereDoc s = { s with rest, pos := p, tokens := s.tokens ++ ts.toArray, diags } ∧
      Bodies docs s.pos s.rest ts p rest ∧ (Harmless diags → Harmless s.diags) ∧
      (Harmless diags → s.pos.isValid = true → List.Forall₂ HereDoc.ReadAs docs ts) := by
  induction docs generalizing s with
  | nil => exact ⟨[], s.rest, s.pos, s.diags, by simp, .nil, id, fun _ _ => .nil⟩
  | cons doc docs ih =>
      cases hlines : hereLines doc (s.rest.length + 1) [] s.rest with
      | mk body more =>
          obtain ⟨rest, found⟩ := more
          obtain ⟨lines, hrest⟩ := hereLines_suffix hlines
          obtain ⟨diags, hdiags, hdoc⟩ := hereDoc_eq hrest.symm hlines
          obtain ⟨ts, rest', p, diags', hdocs, hbodies, hcalm, hread⟩ := ih (hereDoc s doc)
          rw [hdoc] at hdocs hbodies hcalm hread
          refine ⟨_, rest', p, diags', ?_, hrest ▸ Bodies.cons (hrest.symm ▸ hlines) hbodies,
            fun h => (hdiags (hcalm h)).1, fun h hvalid => .cons ?_ (hread h (Position.isValid_advance _ hvalid))⟩
          · rw [List.foldl_cons, hdoc, hdocs]
            simp
          · exact ⟨rfl, rfl, hvalid, s.rest, body, rest, (hdiags (hcalm h)).2 ▸ hlines, rfl⟩

-- The bodies of one line end before what was left.
theorem Bodies.length_le {docs : List HereDoc} {p q : Position} {cs rest : List Char} {ts : List Token}
    (h : Bodies docs p cs ts q rest) : rest.length ≤ cs.length := by
  induction h with
  | nil => exact Nat.le_refl _
  | cons _ _ ih =>
      rw [List.length_append]
      exact Nat.le_trans ih (Nat.le_add_left _ _)

theorem newline_steps {s : Scanner} {cs : List Char} (hs : s.rest = '\n' :: cs) :
    s.Steps (hereDocs (emit (s.take .newline 1))) := by
  have htoken : (s.take .newline 1).2 = { kind := .newline, text := "\n", pos := s.pos } := by
    rw [take, hs]
    rfl
  generalize he : emit (s.take .newline 1) = e
  have hrest : e.rest = cs := by
    rw [← he]
    exact congrArg (List.drop 1) hs
  have hpos : e.pos = s.pos.advance ['\n'] := by
    rw [← he]
    exact congrArg (fun cs => s.pos.advance (cs.take 1)) hs
  have htokens : e.tokens = s.tokens.push { kind := .newline, text := "\n", pos := s.pos } := by
    rw [← he, ← htoken]
    rfl
  have hqueue : e.queue = s.queue := by
    rw [← he]
    rfl
  have hregex (h : e.wantRegex = true) : s.wantRegex = true := by
    rw [← he] at h
    rcases after_wantRegex h with h | ⟨h, -⟩
    · exact h
    · cases h
  have hdiags : e.diags = s.diags := by
    rw [← he]
    rfl
  obtain ⟨ts, rest, p, diags, heq, hbodies, hcalm, hread⟩ := hereDocs_eq e.pending { e with pending := [] }
  rw [hereDocs, heq]
  refine ⟨?_, { kind := .newline, text := "\n", pos := s.pos } :: ts, ?_, fun us hus => ?_, fun h => hdiags ▸ hcalm h,
    fun h us hus => ?_⟩
  · have hle := hbodies.length_le
    simp only [hrest] at hle
    simp only [left, hs, List.length_cons]
    split
    · rename_i h
      rw [if_pos (hregex h)]
      omega
    · omega
  · simp only [htokens]
    simp
  · rw [hs]
    have hdocs : Bodies s.queue.pending (s.pos.advance ['\n']) cs ts p rest := by
      rw [← hqueue, ← hpos, ← hrest]
      exact hbodies
    have hnext : Layout { s.queue with pending := [] } p rest us := by
      rw [← hqueue]
      exact hus
    exact .newline hdocs hnext
  · have hdocs : List.Forall₂ HereDoc.ReadAs s.queue.pending ts := by
      rw [← hqueue]
      exact hread h (hpos ▸ Position.isValid_newline s.pos)
    have hnext : Delivers { s.queue with pending := [] } us := by
      rw [← hqueue]
      exact hus
    exact .newline rfl hdocs hnext

-- Blanks in front of a token.

theorem layout_blanks {q : Queue} {ts : List Token} (cs : List Char) (p : Position)
    (h : Layout q (p.advance (cs.take (blanks cs))) (cs.drop (blanks cs)) ts) : Layout q p cs ts := by
  fun_induction blanks cs generalizing p with
  | case1 cs ih =>
      refine .joined (ih _ ?_)
      rw [← Position.advance_append]
      exact h
  | case2 c cs _ hblank ih =>
      refine .blank hblank (ih _ ?_)
      rw [← Position.advance_append]
      exact h
  | case3 => exact h
  | case4 => exact h

-- No blank follows.
theorem head_not_blank {cs rest : List Char} {c : Char} (h : cs.drop (blanks cs) = c :: rest) :
    Text.isBlank c = false := by
  fun_induction blanks cs with
  | case1 cs ih => exact ih h
  | case2 c cs _ hblank ih => exact ih h
  | case3 c cs _ hblank =>
      cases h
      simpa using hblank
  | case4 => cases h

theorem blanks_steps {s s' : Scanner} (h : (s.moveBy (blanks s.rest)).Steps s') : s.Steps s' := by
  obtain ⟨hleft, new, htokens, hlayout, hdiags, hdelivers⟩ := h
  refine ⟨Nat.lt_of_lt_of_le hleft ?_, new, htokens, fun ts hts => layout_blanks _ _ (hlayout ts hts), hdiags, hdelivers⟩
  refine Nat.add_le_add_right ?_ _
  rw [moveBy, List.length_drop]
  exact Nat.sub_le _ _

-- What `operatorAt` knows.
theorem operatorAt_some {cs : List Char} {k : Kind} {n : Nat} {f : Option Feature} (h : operatorAt cs = some (k, n, f)) :
    k.isInline = true ∧ k ≠ .arith ∧ k ≠ .word ∧ cs.take n ≠ [] := by
  unfold operatorAt at h
  split at h
  all_goals cases h
  all_goals exact ⟨rfl, nofun, nofun, List.cons_ne_nil _ _⟩

theorem operatorAt_none {c : Char} {cs : List Char} (h : operatorAt (c :: cs) = none) :
    c ≠ ';' ∧ c ≠ '&' ∧ c ≠ '|' ∧ c ≠ '(' ∧ c ≠ ')' ∧ c ≠ '<' ∧ c ≠ '>' := by
  unfold operatorAt at h
  split at h
  all_goals cases h
  rename_i _ _ _ hsemi _ _ _ hamp _ _ hbar hopen hclose _ _ _ _ _ hless _ _ _ hgreat
  exact ⟨(hsemi cs <| · ▸ rfl), (hamp cs <| · ▸ rfl), (hbar cs <| · ▸ rfl), (hopen cs <| · ▸ rfl),
    (hclose cs <| · ▸ rfl), (hless cs <| · ▸ rfl), (hgreat cs <| · ▸ rfl)⟩

theorem operator_steps {s : Scanner} {k : Kind} {n : Nat} {f : Option Feature}
    (h : operatorAt s.rest = some (k, n, f)) :
    s.Steps (emit ((match f with
      | some f => s.needs f s.pos
      | none => s).take k n)) := by
  obtain ⟨hinline, harith, hword, hne⟩ := operatorAt_some h
  cases f with
  | none => exact take_steps hinline harith hword hne
  | some f =>
      refine Steps.of_needs (f := f) (p := s.pos) (take_steps hinline harith hword ?_)
      rw [rest_needs]
      exact hne

theorem next?_steps {n : Nat} {s s' : Scanner} (hn : 0 < n) (h : s.next? n = some s') : s.Steps s' := by
  unfold next? at h
  dsimp only at h
  refine blanks_steps ?_
  have hblank : ∀ c cs, (s.moveBy (blanks s.rest)).rest = c :: cs → Text.isBlank c = false := fun _ _ => head_not_blank
  generalize s.moveBy (blanks s.rest) = t at h hblank ⊢
  split at h
  · cases h
  rename_i c cs hs
  split at h
  · rename_i hc
    cases h
    exact newline_steps (by simpa [beq_iff_eq.mp hc] using hs)
  rename_i hnewline
  split at h
  · rename_i hc
    cases h
    refine take_steps (k := .comment) rfl nofun nofun ?_
    rw [hs, beq_iff_eq.mp hc]
    exact List.cons_ne_nil _ _
  split at h
  · rename_i hwant
    cases h
    exact emit_steps_regex hwant (gather_reads progressive_regexTurn n 0 { t with wantRegex := false })
  split at h
  · rename_i hprocess
    cases h
    exact Steps.of_needs (word_steps hn ((rest_needs _ _).trans hs) (.inr hprocess))
  split at h
  · rename_i rest harith
    cases h
    split at harith
    · rename_i hcond
      obtain ⟨tail, rfl, rfl⟩ : ∃ tail, c = '(' ∧ cs = '(' :: tail := by
        simp only [Bool.and_eq_true, beq_iff_eq, List.head?_eq_some_iff] at hcond
        obtain ⟨⟨⟨hc, tail, hcs⟩, -⟩, -⟩ := hcond
        exact ⟨tail, hc, hcs⟩
      cases hclose : Construct.closeArith t.dialect t.rest with
      | ok r =>
          rw [hclose] at harith
          cases harith
          exact emit_steps (arith_reads hs hclose) (List.cons_ne_nil _ _)
      | error e =>
          rw [hclose] at harith
          cases harith
    · cases harith
  split at h
  · rename_i hop
    cases h
    exact operator_steps hop
  rename_i hop
  split at h
  · cases h
    refine Steps.of_report (take_steps (k := .illegal) rfl nofun nofun ?_)
    change t.rest.take 1 ≠ []
    rw [hs]
    exact List.cons_ne_nil _ _
  · cases h
    refine word_steps hn hs (.inl ?_)
    rw [hs] at hop
    have := operatorAt_none hop
    simp_all [Text.isMeta]

theorem next?_none {n : Nat} {s : Scanner} (h : s.next? n = none) : s.rest.drop (blanks s.rest) = [] := by
  unfold next? at h
  dsimp only at h
  change (s.moveBy (blanks s.rest)).rest = []
  generalize s.moveBy (blanks s.rest) = t at h ⊢
  split at h
  · assumption
  · repeat' split at h
    all_goals cases h

theorem next?_bound {n : Nat} {s : Scanner} (hn : s.rest.length ≤ n) : s.next? (n + 1) = s.next? n := by
  unfold next?
  have hlen : (s.moveBy (blanks s.rest)).rest.length ≤ n := by
    rw [moveBy, List.length_drop]
    omega
  generalize s.moveBy (blanks s.rest) = t at hlen ⊢
  have hregex : regexWord (n + 1) { t with wantRegex := false } = regexWord n { t with wantRegex := false } :=
    gather_bound progressive_regexTurn 0 false hlen
  have hprocess : (t.needs .procSubstitution t.pos).word (n + 1) = (t.needs .procSubstitution t.pos).word n :=
    gather_bound progressive_wordTurn true false ((rest_needs .procSubstitution t.pos).symm ▸ hlen)
  have hword : t.word (n + 1) = t.word n := gather_bound progressive_wordTurn true false hlen
  dsimp only
  rw [hregex, hprocess, hword]

-- All tokens.

theorem finish_tokens (s : Scanner) :
    s.finish.tokens = s.tokens.push { kind := .eof, text := "", pos := s.pos.advance s.rest } := by
  have hdelims (docs : List HereDoc) (t : Scanner) :
      (docs.foldl missingDelim t).tokens = t.tokens ∧ (docs.foldl missingDelim t).pos = t.pos := by
    induction docs generalizing t with
    | nil => exact ⟨rfl, rfl⟩
    | cons doc docs ih => exact ih (t.missingDelim doc)
  obtain ⟨htokens, hpos⟩ := hdelims (s.moveTo []).pending (s.moveTo [])
  unfold finish
  dsimp only
  rw [htokens, hpos, moveTo_eq (List.append_nil s.rest).symm]

-- What is still announced at the end is missing.
theorem finish_diags {s : Scanner} (h : Harmless s.finish.diags) : Harmless s.diags ∧ s.pending = [] := by
  have hmissing (docs : List HereDoc) (t : Scanner) (h : Harmless (docs.foldl missingDelim t).diags) :
      Harmless t.diags ∧ docs = [] := by
    induction docs generalizing t with
    | nil => exact ⟨h, rfl⟩
    | cons doc docs ih => exact nomatch (harmless_of_push (ih (t.missingDelim doc) h).1).2
  exact hmissing s.pending (s.moveTo []) h

theorem run_layout {n : Nat} {s : Scanner} (hn : s.left < n) :
    ∃ ts, (run n s).tokens.toList = s.tokens.toList ++ ts ∧ Layout s.queue s.pos s.rest ts ∧
      (Harmless (run n s).diags → Harmless s.diags ∧ Delivers s.queue ts) := by
  induction n generalizing s with
  | zero => omega
  | succ n ih =>
      rw [run]
      cases hnext : s.next? (n + 1) with
      | none =>
          refine ⟨[{ kind := .eof, text := "", pos := s.pos.advance s.rest }], ?_, layout_blanks _ _ ?_, fun h => ?_⟩
          · dsimp only
            rw [finish_tokens, Array.toList_push]
          · have hdrop := next?_none hnext
            have htake := List.take_append_drop (blanks s.rest) s.rest
            rw [hdrop, List.append_nil] at htake
            rw [hdrop, htake]
            exact .eof _ _
          · obtain ⟨hdiags, hpending⟩ := finish_diags h
            refine ⟨hdiags, ?_⟩
            rw [queue, hpending]
            exact .eof rfl
      | some t =>
          obtain ⟨hleft, new, hadds⟩ := next?_steps (Nat.succ_pos n) hnext
          obtain ⟨ts, hts, hrest, hdelivers⟩ := ih (s := t) (by omega)
          refine ⟨new ++ ts, ?_, hadds.layout ts hrest, fun h => ?_⟩
          · dsimp only
            rw [hts, hadds.tokens, List.append_assoc]
          · obtain ⟨hcalm, hts⟩ := hdelivers h
            exact ⟨hadds.diags hcalm, hadds.delivers hcalm ts hts⟩

theorem run_bound {n : Nat} {s : Scanner} (hn : s.left < n) : run (n + 1) s = run n s := by
  induction n generalizing s with
  | zero => omega
  | succ n ih =>
      have hle : s.rest.length ≤ s.left := Nat.le_add_right _ _
      rw [run, run, next?_bound (by omega)]
      cases hnext : s.next? (n + 1) with
      | none => rfl
      | some t =>
          have hleft := (next?_steps (Nat.succ_pos n) hnext).left
          exact ih (by omega)

end Scanner
end Token
end ShellScript

import ShellScript.Proofs.Script.WordReading
import ShellScript.Script.Read

-- The way of the cursor over the tokens. The body of a here-document comes after the line that announces it; so the cursor
-- counts the bodies that have been announced and are still to be passed.
namespace ShellScript
namespace Script
namespace Read

open Token.Scanner (Queue Layout Delivers announcements bodies)

-- The tokens.

-- Only the last token is the end of the text.
inductive EndsText : List Token → Prop where
  | eof {t : Token} (kind : t.kind = .eof) : EndsText [t]
  | cons {t : Token} {ts : List Token} (kind : t.kind ≠ .eof) (rest : EndsText ts) : EndsText (t :: ts)

theorem EndsText.append {ts us : List Token} (hts : ∀ t ∈ ts, t.kind ≠ .eof) (hus : EndsText us) : EndsText (ts ++ us) := by
  induction ts with
  | nil => exact hus
  | cons t ts ih =>
      obtain ⟨ht, hts⟩ := List.forall_mem_cons.mp hts
      exact .cons ht (ih hts)

theorem endsText_of_layout {q : Queue} {p : Position} {cs : List Char} {ts : List Token} (h : Layout q p cs ts) :
    EndsText ts := by
  obtain ⟨init, e, rfl, hkind, -, hinit⟩ := h.eof_last
  exact .append hinit (.eof hkind)

theorem significant_suffix (n : Nat) (ts : List Token) : (significant n ts).2 <:+ ts := by
  fun_induction significant n ts with
  | case1 => exact List.suffix_refl _
  | case2 _ _ _ _ ih => exact ih.trans (List.suffix_cons _ _)
  | case3 _ _ _ _ ih => exact ih.trans (List.suffix_cons _ _)
  | case4 => exact List.suffix_refl _

theorem EndsText.significant {ts : List Token} (h : EndsText ts) (n : Nat) : EndsText (significant n ts).2 := by
  fun_induction Read.significant n ts with
  | case1 => exact h
  | case2 _ _ _ hkind ih =>
      cases h with
      | eof heof => simp [hkind] at heof
      | cons _ rest => exact ih rest
  | case3 _ _ _ hkind ih =>
      cases h with
      | eof heof => simp [hkind] at heof
      | cons _ rest => exact ih rest
  | case4 => exact h

theorem significant_of_ne {n : Nat} {t : Token} (hcomment : t.kind ≠ .comment) (hdoc : t.kind ≠ .hereDoc) (ts : List Token) :
    significant n (t :: ts) = (n, t :: ts) := by
  unfold significant
  split
  · exact absurd ‹_› hcomment
  · exact absurd ‹_› hdoc
  · rfl

-- Comments say nothing of here-documents.
theorem significant_of_delivers {q : Queue} {ts : List Token} (h : Delivers q ts) (n : Nat) :
    ∃ us, significant n ts = (n, us) ∧ Delivers q us ∧ bodies us = bodies ts ∧
      announcements q.want us = announcements q.want ts := by
  induction ts with
  | nil => cases h
  | cons t ts ih =>
      by_cases hcomment : t.kind = .comment
      · have hafter : ∀ q' : Queue, q'.after t = q' := fun q' => by rw [Queue.after, hcomment]
        have hrest : Delivers q ts := by
          cases h with
          | eof heof => simp [hcomment] at heof
          | token _ rest => rwa [hafter] at rest
          | newline hnewline => simp [hcomment] at hnewline
        obtain ⟨us, hsignificant, hus, hbodies, hannounced⟩ := ih hrest
        refine ⟨us, ?_, hus, ?_, ?_⟩
        · rw [significant, hcomment]
          exact hsignificant
        · rw [Token.Scanner.bodies_cons_of_ne (by simp [hcomment])]
          exact hbodies
        · rw [Token.Scanner.announcements_cons_of_eq fun q' _ => hafter q']
          exact hannounced
      · have hkind := h.not_hereDoc
        exact ⟨t :: ts, significant_of_ne hcomment hkind ts, h, rfl, rfl⟩

-- Each body that is passed is one less to come.
theorem significant_of_hereDoc {ts : List Token} (hts : ∀ t ∈ ts, t.kind = .hereDoc) (n : Nat) (us : List Token) :
    significant n (ts ++ us) = significant (n - ts.length) us := by
  induction ts generalizing n with
  | nil => rfl
  | cons t ts ih =>
      obtain ⟨ht, hts⟩ := List.forall_mem_cons.mp hts
      have hlen : n - (t :: ts).length = n - 1 - ts.length := by
        rw [List.length_cons]
        omega
      rw [List.cons_append, significant, ht, hlen]
      exact ih hts (n - 1)

-- The cursor.

namespace Cursor

def head (c : Cursor) : Token := c.toks.headD endOfText

-- The cursor at the next token.
def passed (c : Cursor) : Cursor := (next.run c).2

-- A cursor on the tokens of a text of some length.
structure Ready (size : Nat) (c : Cursor) : Prop where
  ends : EndsText c.toks
  text_le : ∀ t ∈ c.toks, t.text.toList.length ≤ size

-- The bodies that have not been announced yet.
def coming (c : Cursor) : List Token := (bodies c.toks).drop c.pending

-- The cursor counts the bodies that have been announced. `want` tells whether the next word is a delimiter.
def Aligned (want : Option Bool) (c : Cursor) : Prop :=
  ∃ pending, Delivers ⟨want, pending⟩ c.toks ∧ c.pending = pending.length

section Passing

variable {size : Nat} {c : Cursor} {t u : Token} {ts : List Token}

theorem passed_of_cons (h : c.toks = t :: u :: ts) :
    c.passed = { c with toks := (significant c.pending (u :: ts)).2, pending := (significant c.pending (u :: ts)).1 } := by
  obtain ⟨toks, pending, diags⟩ := c
  obtain rfl : toks = t :: u :: ts := h
  rfl

theorem passed_of_eof (h : c.toks = [t]) : c.passed = c := by
  obtain ⟨toks, pending, diags⟩ := c
  obtain rfl : toks = [t] := h
  rfl

theorem passed_diags (c : Cursor) : c.passed.diags = c.diags := by
  obtain ⟨toks, pending, diags⟩ := c
  rcases toks with _ | ⟨t, _ | ⟨u, ts⟩⟩ <;> rfl

theorem toks_of_eof (hends : EndsText c.toks) (h : c.head.kind = .eof) : c.toks = [c.head] := by
  unfold head at h ⊢
  generalize c.toks = toks at hends h ⊢
  cases hends with
  | eof => rfl
  | cons kind => exact absurd h kind

theorem toks_of_ne_eof (hends : EndsText c.toks) (h : c.head.kind ≠ .eof) : ∃ u ts, c.toks = c.head :: u :: ts := by
  unfold head at h ⊢
  generalize c.toks = toks at hends h ⊢
  cases hends with
  | eof kind => exact absurd kind h
  | cons _ rest =>
      cases rest with
      | eof => exact ⟨_, _, rfl⟩
      | cons => exact ⟨_, _, rfl⟩

-- The cursor stays at the end, and takes a token everywhere else.
theorem Ready.passed (h : c.Ready size) :
    c.passed.Ready size ∧ c.passed.toks.length ≤ c.toks.length ∧
      (c.head.kind ≠ .eof → c.passed.toks.length + 1 ≤ c.toks.length) := by
  by_cases heof : c.head.kind = .eof
  · rw [passed_of_eof (toks_of_eof h.ends heof)]
    exact ⟨h, Nat.le_refl _, fun hne => absurd heof hne⟩
  · obtain ⟨u, ts, htoks⟩ := toks_of_ne_eof h.ends heof
    have hsuffix := significant_suffix c.pending (u :: ts)
    rw [passed_of_cons htoks]
    refine ⟨⟨?_, fun t ht => h.text_le t ?_⟩, ?_⟩
    · have hends := h.ends
      rw [htoks] at hends
      cases hends with
      | cons _ rest => exact rest.significant _
    · rw [htoks]
      exact List.mem_cons_of_mem _ (hsuffix.mem ht)
    · have hlen := hsuffix.length_le
      dsimp only
      rw [htoks, List.length_cons]
      omega

-- A token of the line is passed.
theorem passed_of_inline {q : Queue} (h : Delivers q c.toks) (hinline : c.head.kind.isInline = true)
    (hends : EndsText c.toks) : ∃ us, c.passed = { c with toks := us } ∧ Delivers (q.after c.head) us ∧
      bodies us = bodies c.toks ∧
      announcements q.want c.toks = (Queue.after ⟨q.want, []⟩ c.head).pending ++ announcements (q.after c.head).want us := by
  obtain ⟨u, ts, htoks⟩ := toks_of_ne_eof hends fun heof => by simp [heof, Token.Kind.isInline] at hinline
  rw [htoks] at h
  obtain ⟨us, hsignificant, hus, hbodies, hannounced⟩ := significant_of_delivers (h.of_inline hinline) c.pending
  refine ⟨us, ?_, hus, ?_, ?_⟩
  · rw [passed_of_cons htoks, hsignificant]
  · rw [hbodies, htoks, Token.Scanner.bodies_cons_of_isInline hinline]
  · rw [htoks, announcements, hannounced, q.after_eq]

-- Where a line ends, the bodies of its here-documents are passed as well.
theorem passed_of_newline {q : Queue} (h : Delivers q c.toks) (hkind : c.head.kind = .newline)
    (hends : EndsText c.toks) (hpending : c.pending = q.pending.length) :
    ∃ us bs, c.passed = { c with toks := us, pending := 0 } ∧ Delivers { q with pending := [] } us ∧
      bodies c.toks = bs ++ bodies us ∧ bs.length = c.pending ∧
      announcements q.want us = announcements q.want c.toks := by
  obtain ⟨u, ts, htoks⟩ := toks_of_ne_eof hends fun heof => by simp [heof] at hkind
  rw [htoks] at h
  obtain ⟨bs, rest, hrest, hdocs, hdelivers⟩ := h.of_newline hkind
  have hbs := Token.Scanner.kind_of_readAs hdocs
  have hlen : bs.length = c.pending := by rw [hpending, hdocs.length_eq]
  obtain ⟨us, hsignificant, hus, hbodies, hannounced⟩ := significant_of_delivers hdelivers 0
  refine ⟨us, bs, ?_, hus, ?_, hlen, ?_⟩
  · rw [passed_of_cons htoks, hrest, significant_of_hereDoc hbs, hlen, Nat.sub_self, hsignificant]
  · rw [htoks, hrest, Token.Scanner.bodies_cons_of_ne (by simp [hkind]), Token.Scanner.bodies_append,
      Token.Scanner.bodies_eq_self hbs, hbodies]
  · rw [hannounced, htoks, hrest, Token.Scanner.announcements_cons_of_eq fun q' _ => q'.after_of_newline hkind,
      Token.Scanner.announcements_of_hereDoc hbs]

-- Nothing is announced and no announced body forgotten.
structure Keeps (want want' : Option Bool) (c c' : Cursor) : Prop where
  aligned : Aligned want' c'
  coming : c'.coming = c.coming
  announced : announcements want c.toks = announcements want' c'.toks

-- Most tokens say nothing of here-documents.
def IsPlain (t : Token) : Prop := t.kind ≠ .dless ∧ t.kind ≠ .dlessDash

theorem after_of_isPlain {q : Queue} (hwant : q.want = none) (h : IsPlain t) : q.after t = q := by
  unfold Queue.after
  split
  · rw [hwant]
  · exact absurd ‹_› h.1
  · exact absurd ‹_› h.2
  · rfl

theorem keeps_passed (h : Aligned none c) (hends : EndsText c.toks) (hplain : IsPlain c.head) :
    Keeps none none c c.passed := by
  obtain ⟨pending, hdelivers, hpending⟩ := h
  by_cases heof : c.head.kind = .eof
  · rw [passed_of_eof (toks_of_eof hends heof)]
    exact ⟨⟨pending, hdelivers, hpending⟩, rfl, rfl⟩
  · by_cases hnewline : c.head.kind = .newline
    · obtain ⟨us, bs, hpassed, hus, hbodies, hlen, hannounced⟩ := passed_of_newline hdelivers hnewline hends hpending
      rw [hpassed]
      refine ⟨⟨[], hus, rfl⟩, ?_, hannounced.symm⟩
      rw [coming, coming, hbodies, ← hlen, List.drop_left]
      rfl
    · have hinline : c.head.kind.isInline = true := by
        obtain ⟨u, ts, htoks⟩ := toks_of_ne_eof hends heof
        rw [htoks] at hdelivers
        simp [Token.Kind.isInline, heof, hnewline, hdelivers.not_hereDoc]
      obtain ⟨us, hpassed, hus, hbodies, hannounced⟩ := passed_of_inline hdelivers hinline hends
      rw [after_of_isPlain rfl hplain] at hus hannounced
      rw [hpassed]
      refine ⟨⟨pending, hus, hpending⟩, ?_, ?_⟩
      · rw [coming, coming, hbodies]
      · rw [hannounced, after_of_isPlain rfl hplain]
        rfl

-- The operator of a here-document makes the next word a delimiter.
theorem keeps_passed_dless {strip : Bool} (h : Aligned none c) (hends : EndsText c.toks)
    (hkind : c.head.kind = if strip then .dlessDash else .dless) : Keeps none (some strip) c c.passed := by
  obtain ⟨pending, hdelivers, hpending⟩ := h
  have hafter : ∀ q : Queue, q.after c.head = ⟨some strip, q.pending⟩ := fun q => by
    rw [Queue.after, hkind]
    cases strip <;> rfl
  have hinline : c.head.kind.isInline = true := by
    rw [hkind]
    cases strip <;> rfl
  obtain ⟨us, hpassed, hus, hbodies, hannounced⟩ := passed_of_inline hdelivers hinline hends
  rw [hafter] at hus hannounced
  rw [hpassed]
  refine ⟨⟨pending, hus, hpending⟩, ?_, ?_⟩
  · rw [coming, coming, hbodies]
  · rw [hannounced, hafter]
    rfl

-- The announcements to come and the bodies that have not been announced yet belong together.
theorem Aligned.readAs {want : Option Bool} (h : Aligned want c) :
    List.Forall₂ Token.Scanner.HereDoc.ReadAs (announcements want c.toks) c.coming := by
  obtain ⟨pending, hdelivers, hpending⟩ := h
  have hdrop := List.forall₂_drop pending.length hdelivers.readAs
  rw [List.drop_left] at hdrop
  rw [coming, hpending]
  exact hdrop

-- The delimiter announces a here-document, the first of those whose bodies are still to come.
theorem aligned_passed_delim {strip : Bool} (h : Aligned (some strip) c) (hends : EndsText c.toks)
    (hkind : c.head.kind = .word) :
    ∃ body, ((c.toks.drop 1).filter (·.kind == .hereDoc))[c.pending]? = some body ∧
      Token.Scanner.HereDoc.ReadAs (Token.Scanner.HereDoc.ofWord c.head strip) body ∧
      Aligned none ({ c with pending := c.pending + 1 } : Cursor).passed ∧
      c.coming = body :: ({ c with pending := c.pending + 1 } : Cursor).passed.coming ∧
      announcements (some strip) c.toks = Token.Scanner.HereDoc.ofWord c.head strip ::
        announcements none ({ c with pending := c.pending + 1 } : Cursor).passed.toks := by
  have hread := h.readAs
  obtain ⟨pending, hdelivers, hpending⟩ := h
  have hafter : ∀ q : Queue, q.want = some strip →
      q.after c.head = ⟨none, q.pending ++ [Token.Scanner.HereDoc.ofWord c.head strip]⟩ := fun q hwant => by
    rw [Queue.after, hkind, hwant]
  have hinline : c.head.kind.isInline = true := by
    rw [hkind]
    rfl
  obtain ⟨us, hpassed, hus, hbodies, hannounced⟩ := passed_of_inline (c := { c with pending := c.pending + 1 }) hdelivers
    hinline hends
  change Delivers (Queue.after _ c.head) us at hus
  change bodies us = bodies c.toks at hbodies
  change announcements (some strip) c.toks =
    (Queue.after ⟨some strip, []⟩ c.head).pending ++ announcements (Queue.after _ c.head).want us at hannounced
  rw [hafter _ rfl] at hus
  rw [hafter _ rfl, hafter _ rfl] at hannounced
  rw [hpassed]
  rw [hannounced] at hread
  cases hcoming : c.coming with
  | nil =>
      rw [hcoming] at hread
      cases hread
  | cons body rest =>
      rw [hcoming] at hread
      cases hread with
      | cons hbody _ =>
          rw [coming] at hcoming
          refine ⟨body, ?_, hbody, ⟨_, hus, by simp [hpending]⟩, ?_, hannounced⟩
          · obtain ⟨u, ts, htoks⟩ := toks_of_ne_eof hends fun heof => by simp [hkind] at heof
            have hfront : bodies c.toks = (c.toks.drop 1).filter (·.kind == .hereDoc) := by
              rw [htoks, Token.Scanner.bodies_cons_of_ne (by simp [hkind])]
              rfl
            have hfirst := congrArg (·[0]?) hcoming
            rw [← hfront]
            simpa using hfirst
          · have hrest := congrArg List.tail hcoming
            rw [List.tail_drop, List.tail_cons, ← hbodies] at hrest
            exact congrArg (body :: ·) hrest.symm

end Passing

-- The here-documents that are announced between two cursors, and their bodies.
def Handed (c₀ c : Cursor) (docs : List HereDoc) : Prop :=
  ∃ as ts, announcements none c₀.toks = as ++ announcements none c.toks ∧ c₀.coming = ts ++ c.coming ∧
    List.Forall₂ HereDoc.AnnouncedBy docs as ∧ List.Forall₂ HereDoc.Carries docs ts

namespace Handed

variable {c c' c'' : Cursor} {docs more : List HereDoc}

theorem refl (c : Cursor) : Handed c c [] := ⟨[], [], rfl, rfl, .nil, .nil⟩

theorem trans (h : Handed c c' docs) (h' : Handed c' c'' more) : Handed c c'' (docs ++ more) := by
  obtain ⟨as, ts, has, hts, hannounced, hcarried⟩ := h
  obtain ⟨as', ts', has', hts', hannounced', hcarried'⟩ := h'
  refine ⟨as ++ as', ts ++ ts', ?_, ?_, List.rel_append hannounced hannounced', List.rel_append hcarried hcarried'⟩
  · rw [has, has', List.append_assoc]
  · rw [hts, hts', List.append_assoc]

theorem of_keeps (h : Keeps none none c c') : Handed c c' [] := ⟨[], [], h.announced, h.coming.symm, .nil, .nil⟩

end Handed

end Cursor

end Read
end Script
end ShellScript

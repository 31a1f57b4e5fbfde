import ShellScript.Proofs.Token.Layout

-- Nothing of a text is lost when it is split into tokens: every character belongs to a token, or there is a reason why
-- it does not.
namespace ShellScript
namespace Token

open Scanner (Queue Bodies Layout)

-- A token stands in a text that begins at `base`.
def Occupies (base : Position) (text : List Char) (t : Token) : Prop :=
  ∃ before after, text = before ++ (t.spelling ++ after) ∧ t.pos = base.advance before

-- The offset after its characters.
def stop (t : Token) : Nat := t.pos.offset + t.spelling.length

theorem spelling_newline (p : Position) : spelling { kind := .newline, text := "\n", pos := p } = ['\n'] := by
  simp [spelling]

theorem Occupies.of_append {base : Position} (front : List Char) {text : List Char} {t : Token}
    (h : Occupies (base.advance front) text t) : Occupies base (front ++ text) t := by
  obtain ⟨before, after, htext, hpos⟩ := h
  exact ⟨front ++ before, after, by rw [htext, List.append_assoc], by rw [hpos, Position.advance_append]⟩

theorem Occupies.offset_le {base : Position} {text : List Char} {t : Token} (h : Occupies base text t) :
    base.offset ≤ t.pos.offset := by
  obtain ⟨before, _, -, hpos⟩ := h
  rw [hpos, Position.offset_advance]
  exact Nat.le_add_right _ _

namespace Scanner

-- The queue after a token; the bodies follow the end of a line.
def Queue.next (q : Queue) (t : Token) : Queue :=
  if t.kind = .newline then { q with pending := [] } else q.after t

def Queue.through (q : Queue) (ts : List Token) : Queue := ts.foldl next q

theorem Queue.through_append (q : Queue) (ts us : List Token) : q.through (ts ++ us) = (q.through ts).through us :=
  List.foldl_append

theorem exists_beyond {a b before after : List Char} {c : Char} (h : a ++ b = before ++ c :: after)
    (hle : a.length ≤ before.length) : ∃ more, before = a ++ more ∧ b = more ++ c :: after := by
  obtain ⟨more, rfl⟩ := List.prefix_of_prefix_length_le (List.prefix_append a b) (h ▸ List.prefix_append before _) hle
  exact ⟨more, rfl, by simpa using h⟩

namespace Bodies

variable {docs : List HereDoc} {p p' : Position} {cs rest : List Char} {ts : List Token}

theorem lines (h : Bodies docs p cs ts p' rest) : ∃ lines, cs = lines ++ rest ∧ p' = p.advance lines := by
  induction h with
  | nil => exact ⟨[], rfl, rfl⟩
  | @cons _ _ p _ lines _ _ _ _ _ _ _ ih =>
      obtain ⟨more, hmore, hpos⟩ := ih
      exact ⟨lines ++ more, by rw [hmore, List.append_assoc], by rw [hpos, Position.advance_append]⟩

theorem kind (h : Bodies docs p cs ts p' rest) : ∀ t ∈ ts, t.kind = .hereDoc := by
  induction h with
  | nil => exact List.forall_mem_nil _
  | cons _ _ ih =>
      intro t ht
      rcases List.mem_cons.mp ht with rfl | ht
      · rfl
      · exact ih t ht

theorem occupies (h : Bodies docs p cs ts p' rest) : ∀ t ∈ ts, Occupies p cs t := by
  induction h with
  | nil => exact List.forall_mem_nil _
  | cons _ _ ih =>
      intro t ht
      rcases List.mem_cons.mp ht with rfl | ht
      · exact ⟨[], _, rfl, rfl⟩
      · exact (ih t ht).of_append _

theorem spelling_eq (h : Bodies docs p cs ts p' rest) {t : Token} (ht : t ∈ ts) : t.spelling = [] := by
  rw [spelling, h.kind t ht]

theorem stop_le (h : Bodies docs p cs ts p' rest) : ∀ t ∈ ts, t.stop ≤ p'.offset := by
  induction h with
  | nil => exact List.forall_mem_nil _
  | cons _ hrest ih =>
      intro t ht
      rcases List.mem_cons.mp ht with rfl | ht
      · obtain ⟨lines', -, hpos⟩ := hrest.lines
        rw [hpos, Position.offset_advance, Position.offset_advance]
        exact Nat.le_add_right_of_le (Nat.le_add_right _ _)
      · exact ih t ht

theorem ordered (h : Bodies docs p cs ts p' rest) : ts.Pairwise fun t u => t.stop ≤ u.pos.offset := by
  induction h with
  | nil => exact .nil
  | cons _ hrest ih =>
      refine .cons (fun u hu => ?_) ih
      refine Nat.le_trans ?_ (hrest.occupies u hu).offset_le
      rw [Position.offset_advance]
      exact Nat.le_add_right _ _

theorem through (h : Bodies docs p cs ts p' rest) (q : Queue) : q.through ts = q := by
  induction h with
  | nil => rfl
  | cons _ _ ih => exact ih

end Bodies

-- In the lines of here-documents: they stand between the end of a line and `rest`, their tokens follow that of the end
-- of the line, and the tokens before it have announced them.
def InHereDocs (base : Position) (text : List Char) (toks : List Token) (i : Nat) : Prop :=
  ∃ earlier nl bodies later front cs p rest, toks = earlier ++ nl :: (bodies ++ later) ∧ nl.kind = .newline ∧
    text = front ++ '\n' :: cs ∧ nl.pos = base.advance front ∧
    Bodies (Queue.through {} earlier).pending (nl.pos.advance ['\n']) cs bodies p rest ∧
    front.length < i ∧ i + rest.length < text.length

-- Why a character is where it is.
inductive Covered (base : Position) (text : List Char) (toks : List Token) (before : List Char) (c : Char)
    (after : List Char) : Prop where
  | token (t : Token) (mem : t ∈ toks) (start : t.pos.offset ≤ base.offset + before.length)
      (stop : base.offset + before.length < t.stop)
  | blank (blank : Text.isBlank c = true)
  | backslash (backslash : c = '\\') (newline : after.head? = some '\n')
  | joined (newline : c = '\n') (backslash : before.getLast? = some '\\')
  | hereDoc (lines : InHereDocs base text toks before.length)

namespace Layout

variable {q : Queue} {p : Position} {cs : List Char} {ts : List Token}

theorem occupies (h : Layout q p cs ts) : ∀ t ∈ ts, Occupies p cs t := by
  induction h with
  | eof q p =>
      intro t ht
      rw [List.mem_singleton.mp ht]
      exact ⟨[], [], rfl, rfl⟩
  | @blank _ _ c _ _ _ _ ih => exact fun t ht => (ih t ht).of_append [c]
  | joined _ ih => exact fun t ht => (ih t ht).of_append ['\\', '\n']
  | @token _ p t cs _ _ hpos _ ih =>
      intro u hu
      rcases List.mem_cons.mp hu with rfl | hu
      · exact ⟨[], cs, rfl, hpos⟩
      · exact (ih u hu).of_append _
  | @newline _ p p' cs rest bodies ts docs _ ih =>
      intro u hu
      obtain ⟨lines, hcs, hp'⟩ := docs.lines
      rcases List.mem_cons.mp hu with rfl | hu
      · exact ⟨[], cs, by rw [spelling_newline]; rfl, rfl⟩
      rcases List.mem_append.mp hu with hu | hu
      · exact (docs.occupies u hu).of_append ['\n']
      · have hrest := ih u hu
        rw [hp'] at hrest
        rw [hcs]
        exact (hrest.of_append lines).of_append ['\n']

theorem ordered (h : Layout q p cs ts) : ts.Pairwise fun t u => t.stop ≤ u.pos.offset := by
  induction h with
  | eof => exact .cons (List.forall_mem_nil _) .nil
  | blank _ _ ih => exact ih
  | joined _ ih => exact ih
  | @token _ p t cs _ _ hpos hrest ih =>
      have hstop : t.stop = (p.advance t.spelling).offset := by rw [stop, hpos, Position.offset_advance]
      exact .cons (fun u hu => hstop ▸ (hrest.occupies u hu).offset_le) ih
  | @newline _ p p' cs rest bodies ts docs hrest ih =>
      have hstop : stop { kind := .newline, text := "\n", pos := p } = (p.advance ['\n']).offset := by
        rw [stop, spelling_newline, Position.offset_advance]
      refine .cons (fun u hu => ?_) (List.pairwise_append.mpr ⟨docs.ordered, ih, fun t ht u hu => ?_⟩)
      · rw [hstop]
        rcases List.mem_append.mp hu with hu | hu
        · exact (docs.occupies u hu).offset_le
        · obtain ⟨lines, -, hp'⟩ := docs.lines
          refine Nat.le_trans ?_ (hrest.occupies u hu).offset_le
          rw [hp', Position.offset_advance (p.advance ['\n'])]
          exact Nat.le_add_right _ _
      · exact Nat.le_trans (docs.stop_le t ht) (hrest.occupies u hu).offset_le

theorem eof_last (h : Layout q p cs ts) :
    ∃ (init : List Token) (e : Token), ts = init ++ [e] ∧ e.kind = .eof ∧ e.pos.offset = p.offset + cs.length ∧
      ∀ t ∈ init, t.kind ≠ .eof := by
  induction h with
  | eof q p => exact ⟨[], _, rfl, rfl, rfl, List.forall_mem_nil _⟩
  | blank _ _ ih =>
      obtain ⟨init, e, hts, hkind, hoffset, hinit⟩ := ih
      refine ⟨init, e, hts, hkind, ?_, hinit⟩
      rw [hoffset, Position.offset_advance]
      simp only [List.length_cons, List.length_nil]
      omega
  | joined _ ih =>
      obtain ⟨init, e, hts, hkind, hoffset, hinit⟩ := ih
      refine ⟨init, e, hts, hkind, ?_, hinit⟩
      rw [hoffset, Position.offset_advance]
      simp only [List.length_cons, List.length_nil]
      omega
  | @token _ p t _ _ hinline _ _ ih =>
      obtain ⟨init, e, rfl, hkind, hoffset, hinit⟩ := ih
      refine ⟨t :: init, e, rfl, hkind, ?_, fun u hu => ?_⟩
      · rw [hoffset, Position.offset_advance, List.length_append, Nat.add_assoc]
      · rcases List.mem_cons.mp hu with rfl | hu
        · intro heof
          rw [heof] at hinline
          cases hinline
        · exact hinit u hu
  | @newline _ p p' cs rest bodies ts docs _ ih =>
      obtain ⟨init, e, rfl, hkind, hoffset, hinit⟩ := ih
      obtain ⟨lines, hcs, hp'⟩ := docs.lines
      refine ⟨_ :: (bodies ++ init), e, by rw [List.cons_append, List.append_assoc], hkind, ?_, fun u hu => ?_⟩
      · rw [hoffset, hp', Position.offset_advance, Position.offset_advance, hcs]
        simp only [List.length_cons, List.length_append, List.length_nil]
        omega
      · rcases List.mem_cons.mp hu with rfl | hu
        · nofun
        · rcases List.mem_append.mp hu with hu | hu
          · rw [docs.kind u hu]
            nofun
          · exact hinit u hu

theorem covered (h : Layout q p cs ts) {base : Position} {front : List Char} {earlier : List Token}
    (hq : Queue.through {} earlier = q) (hp : p = base.advance front) {before after : List Char} {c : Char}
    (hcs : cs = before ++ c :: after) : Covered base (front ++ cs) (earlier ++ ts) (front ++ before) c after := by
  induction h generalizing front earlier before with
  | eof => exact absurd hcs.symm (by simp)
  | @blank _ p b cs ts hblank _ ih =>
      cases before with
      | nil =>
          cases hcs
          exact .blank hblank
      | cons _ before =>
          cases hcs
          have hp' : p.advance [b] = base.advance (front ++ [b]) := by rw [hp, Position.advance_append]
          simpa using ih hq hp' rfl
  | @joined _ p cs ts _ ih =>
      match before with
      | [] =>
          cases hcs
          exact .backslash rfl rfl
      | [_] =>
          cases hcs
          exact .joined rfl (by simp)
      | _ :: _ :: before =>
          cases hcs
          have hp' : p.advance ['\\', '\n'] = base.advance (front ++ ['\\', '\n']) := by
            rw [hp, Position.advance_append]
          simpa using ih hq hp' rfl
  | @token q p t cs ts hinline hpos _ ih =>
      by_cases hlt : before.length < t.spelling.length
      · refine .token t (by simp) ?_ ?_
        · rw [hpos, hp, Position.offset_advance, List.length_append]
          omega
        · rw [stop, hpos, hp, Position.offset_advance, List.length_append]
          omega
      · obtain ⟨more, rfl, hrest⟩ := exists_beyond hcs (Nat.le_of_not_lt hlt)
        have hnext : Queue.through {} (earlier ++ [t]) = q.after t := by
          rw [Queue.through_append, hq]
          exact if_neg fun hnewline => by simp [hnewline, Kind.isInline] at hinline
        have hp' : p.advance t.spelling = base.advance (front ++ t.spelling) := by rw [hp, Position.advance_append]
        simpa using ih hnext hp' hrest
  | @newline q p p' cs rest bodies ts docs _ ih =>
      obtain ⟨lines, hlines, hp'⟩ := docs.lines
      cases before with
      | nil =>
          refine .token { kind := .newline, text := "\n", pos := p } (by simp) ?_ ?_
          · exact Nat.le_of_eq (by rw [hp, Position.offset_advance, List.append_nil])
          · rw [stop, spelling_newline, hp, Position.offset_advance, List.append_nil]
            exact Nat.lt_succ_self _
      | cons b before =>
          obtain ⟨rfl, hcs'⟩ := List.cons.inj hcs
          by_cases hlt : before.length < lines.length
          · have hdocs : Bodies (Queue.through {} earlier).pending (p.advance ['\n']) cs bodies p' rest := hq ▸ docs
            refine .hereDoc ⟨earlier, _, bodies, ts, front, cs, p', rest, rfl, rfl, rfl, hp, hdocs, ?_, ?_⟩
            · simp
            · simp only [List.length_append, List.length_cons, hlines]
              omega
          · rw [hlines] at hcs'
            obtain ⟨more, rfl, hrest⟩ := exists_beyond hcs' (Nat.le_of_not_lt hlt)
            have hnext : Queue.through {} (earlier ++ { kind := .newline, text := "\n", pos := p } :: bodies) =
                { q with pending := [] } := by
              rw [Queue.through_append, hq]
              exact docs.through _
            have hp'' : p' = base.advance (front ++ '\n' :: lines) := by
              rw [hp', hp, ← Position.advance_append, ← Position.advance_append]
              rfl
            simpa [hlines] using ih hnext hp'' hrest

end Layout

-- No loop is cut short: more steps than the bounds that the scanner uses change nothing.
structure BoundsSuffice (d : Dialect) : Prop where
  close : ∀ {n : Nat} {f : Construct.Frame} {left : Nat} {prev : Char} {cs : List Char}, 2 * cs.length + 1 ≤ n →
    Construct.close d n f left prev cs = Construct.close d (2 * cs.length + 1) f left prev cs
  expansion : ∀ {n : Nat} {inDouble : Bool} {cs : List Char}, 2 * cs.length + 2 ≤ n →
    Construct.closeDollar d n inDouble cs = Construct.closeExpansion d inDouble cs
  word : ∀ {n : Nat} {start : List Char} {p : Position} {first quoted : Bool} {s : Scanner}, s.rest.length ≤ n →
    gather wordTurn start p n first quoted s = gather wordTurn start p s.rest.length first quoted s
  regex : ∀ {n depth : Nat} {start : List Char} {p : Position} {quoted : Bool} {s : Scanner}, s.rest.length ≤ n →
    gather regexTurn start p n depth quoted s = gather regexTurn start p s.rest.length depth quoted s
  hereDoc : ∀ {n : Nat} {doc : HereDoc} {body rest : List Char}, rest.length + 1 ≤ n →
    hereLines doc n body rest = hereLines doc (rest.length + 1) body rest
  tokens : ∀ {n : Nat} {s : Scanner}, s.left + 1 ≤ n → run n s = run (s.left + 1) s

theorem bounds_suffice (d : Dialect) : BoundsSuffice d where
  close hn := eq_of_bound (f := fun n => Construct.close d n _ _ _ _) (fun m hm => (Construct.close_bound m).1 _ _ _ _ hm) hn
  expansion hn := eq_of_bound (f := fun n => Construct.closeDollar d n _ _) (fun m hm => (Construct.close_bound m).2 _ _ hm) hn
  word hn := eq_of_bound (f := fun n => gather wordTurn _ _ n _ _ _) (fun _ hm => gather_bound progressive_wordTurn _ _ hm) hn
  regex hn :=
    eq_of_bound (f := fun n => gather regexTurn _ _ n _ _ _) (fun _ hm => gather_bound progressive_regexTurn _ _ hm) hn
  hereDoc hn := eq_of_bound (f := fun n => hereLines _ n _ _) (fun _ hm => hereLines_bound hm) hn
  tokens hn := eq_of_bound (f := fun n => run n _) (fun _ hm => run_bound hm) hn

end Scanner

open Scanner (Covered)

-- Every token stands in the text, one after the other, and the last one is the end. Every character has its place.
structure Lossless (base : Position) (text : List Char) (toks : List Token) : Prop where
  occupies : ∀ t ∈ toks, Occupies base text t
  ordered : toks.Pairwise fun t u => t.stop ≤ u.pos.offset
  eof : ∃ (init : List Token) (e : Token), toks = init ++ [e] ∧ e.kind = .eof ∧ e.pos.offset = base.offset + text.length ∧
    ∀ t ∈ init, t.kind ≠ .eof
  covered : ∀ before c after, text = before ++ c :: after → Covered base text toks before c after

theorem Scanner.Layout.lossless {base : Position} {text : List Char} {toks : List Token}
    (h : Layout {} base text toks) : Lossless base text toks := by
  refine ⟨h.occupies, h.ordered, h.eof_last, fun before c after htext => ?_⟩
  have hqueue : Queue.through {} [] = {} := rfl
  have hbase : base = base.advance [] := rfl
  exact h.covered hqueue hbase htext

theorem layout_scanText (d : Dialect) (file : String) (base : Position) (text : List Char) :
    Layout {} base text (scanText d file base text).1 := by
  obtain ⟨ts, htokens, hlayout, -⟩ :=
    Scanner.run_layout (n := text.length + 1) (s := { dialect := d, file, rest := text, pos := base }) (Nat.lt_succ_self _)
  rw [scanText]
  dsimp only
  rw [htokens]
  exact hlayout

-- Splitting a text into tokens comes to an end of its own, and nothing of the text is lost.
theorem scan_lossless (d : Dialect) (file : String) (base : Position) (text : List Char) :
    Scanner.BoundsSuffice d ∧ Lossless base text (scanText d file base text).1 :=
  ⟨Scanner.bounds_suffice d, (layout_scanText d file base text).lossless⟩

end Token
end ShellScript

-- Which bodies of here-documents belong to which announcements, told from the tokens alone; and what of a text can be in
-- its tokens.
namespace ShellScript
namespace Token

open Diagnostic (Harmless)

namespace Scanner

-- What the tokens announce, in order. `want` tells whether the next word is a delimiter.
def announcements : Option Bool → List Token → List HereDoc
  | _, [] => []
  | want, t :: ts =>
    let q := Queue.after ⟨want, []⟩ t
    q.pending ++ announcements q.want ts

def bodies (ts : List Token) : List Token := ts.filter (·.kind == .hereDoc)

@[simp] theorem bodies_nil : bodies [] = [] := rfl

theorem bodies_append (ts us : List Token) : bodies (ts ++ us) = bodies ts ++ bodies us := List.filter_append ..

theorem bodies_cons_of_ne {t : Token} (h : t.kind ≠ .hereDoc) (ts : List Token) : bodies (t :: ts) = bodies ts :=
  List.filter_cons_of_neg (by simpa using h)

theorem bodies_cons_of_isInline {t : Token} (h : t.kind.isInline = true) (ts : List Token) :
    bodies (t :: ts) = bodies ts :=
  bodies_cons_of_ne (fun hkind => by simp [hkind, Kind.isInline] at h) ts

theorem bodies_eq_self {ts : List Token} (h : ∀ t ∈ ts, t.kind = .hereDoc) : bodies ts = ts :=
  List.filter_eq_self.mpr fun t ht => by simp [h t ht]

-- A token adds its own announcement to the queue.
theorem Queue.after_eq (q : Queue) (t : Token) :
    q.after t = ⟨(after ⟨q.want, []⟩ t).want, q.pending ++ (after ⟨q.want, []⟩ t).pending⟩ := by
  unfold after
  cases t.kind with
  | word => cases hwant : q.want <;> simp [← hwant]
  | _ => simp

theorem announcements_cons (q : Queue) (t : Token) (ts : List Token) :
    q.pending ++ announcements q.want (t :: ts) = (q.after t).pending ++ announcements (q.after t).want ts := by
  rw [announcements, q.after_eq, List.append_assoc]

-- Most tokens say nothing of here-documents.
theorem announcements_cons_of_eq {want : Option Bool} {t : Token} (h : ∀ q : Queue, q.want = want → q.after t = q)
    (ts : List Token) : announcements want (t :: ts) = announcements want ts := by
  rw [announcements, h ⟨want, []⟩ rfl]
  rfl

theorem Queue.after_of_hereDoc {t : Token} (h : t.kind = .hereDoc) (q : Queue) : q.after t = q := by
  rw [after, h]

theorem Queue.after_of_newline {t : Token} (h : t.kind = .newline) (q : Queue) : q.after t = q := by
  rw [after, h]

theorem Queue.after_of_eof {t : Token} (h : t.kind = .eof) (q : Queue) : q.after t = q := by
  rw [after, h]

theorem announcements_of_hereDoc {ts : List Token} (h : ∀ t ∈ ts, t.kind = .hereDoc) (want : Option Bool)
    (us : List Token) : announcements want (ts ++ us) = announcements want us := by
  induction ts with
  | nil => rfl
  | cons t ts ih =>
      rw [List.cons_append, announcements_cons_of_eq fun q _ => q.after_of_hereDoc (h t List.mem_cons_self)]
      exact ih fun u hu => h u (List.mem_cons_of_mem t hu)

theorem kind_of_readAs {docs : List HereDoc} {ts : List Token} (h : List.Forall₂ HereDoc.ReadAs docs ts) :
    ∀ t ∈ ts, t.kind = .hereDoc := by
  induction h with
  | nil => exact List.forall_mem_nil _
  | cons hread _ ih => exact List.forall_mem_cons.mpr ⟨hread.1, ih⟩

-- Each body is that of an announcement, one after the other; those that wait come first.
theorem Delivers.readAs {q : Queue} {ts : List Token} (h : Delivers q ts) :
    List.Forall₂ HereDoc.ReadAs (q.pending ++ announcements q.want ts) (bodies ts) := by
  induction h with
  | @eof want t hkind =>
      rw [announcements_cons_of_eq fun q _ => q.after_of_eof hkind, bodies_cons_of_ne (by simp [hkind])]
      exact .nil
  | @token q t ts hinline _ ih =>
      rw [announcements_cons, bodies_cons_of_isInline hinline]
      exact ih
  | @newline q t docs ts hkind hdocs _ ih =>
      rw [announcements_cons_of_eq fun q _ => q.after_of_newline hkind,
        announcements_of_hereDoc (kind_of_readAs hdocs), bodies_cons_of_ne (by simp [hkind]), bodies_append,
        bodies_eq_self (kind_of_readAs hdocs)]
      exact List.rel_append hdocs ih

theorem Delivers.of_inline {q : Queue} {t : Token} {ts : List Token} (h : Delivers q (t :: ts))
    (hinline : t.kind.isInline = true) : Delivers (q.after t) ts := by
  cases h with
  | eof hkind => simp [hkind, Kind.isInline] at hinline
  | token _ rest => exact rest
  | newline hkind => simp [hkind, Kind.isInline] at hinline

theorem Delivers.of_newline {q : Queue} {t : Token} {ts : List Token} (h : Delivers q (t :: ts)) (hkind : t.kind = .newline) :
    ∃ bs us, ts = bs ++ us ∧ List.Forall₂ HereDoc.ReadAs q.pending bs ∧ Delivers { q with pending := [] } us := by
  cases h with
  | eof heof => simp [hkind] at heof
  | token hinline => simp [hkind, Kind.isInline] at hinline
  | newline _ docs rest => exact ⟨_, _, rfl, docs, rest⟩

theorem Delivers.not_hereDoc {q : Queue} {t : Token} {ts : List Token} (h : Delivers q (t :: ts)) : t.kind ≠ .hereDoc := by
  cases h with
  | eof hkind => simp [hkind]
  | token hinline => exact fun hkind => by simp [hkind, Kind.isInline] at hinline
  | newline hkind => simp [hkind]

-- How long the text of a token can be.

-- Only the last line of a text may get an end that it does not have.
theorem hereLines_length {doc : HereDoc} {n : Nat} {body rest body' rest' : List Char} {found : Bool}
    (h : hereLines doc n body rest = (body', rest', found)) :
    body'.length + rest'.length ≤ body.length + rest.length + 1 := by
  induction n generalizing body rest with
  | zero =>
      cases h
      exact Nat.le_succ _
  | succ n ih =>
      cases rest with
      | nil =>
          cases h
          exact Nat.le_succ _
      | cons c cs =>
          unfold hereLines at h
          dsimp only at h
          have hline := (List.takeWhile_prefix (p := (· != '\n')) (l := c :: cs)).length_le
          have hstrip : (if doc.strip = true then
                List.dropWhile (· == '\t') (List.takeWhile (· != '\n') (c :: cs))
              else List.takeWhile (· != '\n') (c :: cs)).length ≤ (List.takeWhile (· != '\n') (c :: cs)).length := by
            split
            · exact (List.dropWhile_suffix _).length_le
            · exact Nat.le_refl _
          generalize List.takeWhile (· != '\n') (c :: cs) = line at h hline hstrip
          generalize (if doc.strip = true then List.dropWhile (· == '\t') line else line) = kept at h hstrip
          by_cases hall : line.length = (c :: cs).length
          · have hdrop : (c :: cs).drop (line.length + 1) = [] := List.drop_eq_nil_of_le (by omega)
            rw [hdrop] at h
            split at h
            · cases h
              simp only [List.length_nil]
              omega
            · cases n with
              | zero =>
                  cases h
                  simp only [List.length_cons, List.length_append, List.length_reverse, List.length_nil] at hall hstrip ⊢
                  omega
              | succ n =>
                  cases h
                  simp only [List.length_cons, List.length_append, List.length_reverse, List.length_nil] at hall hstrip ⊢
                  omega
          · split at h
            · cases h
              simp only [List.length_drop]
              omega
            · have hnext := ih h
              simp only [List.length_cons, List.length_append, List.length_reverse, List.length_drop] at hnext hall hline ⊢
              omega

theorem Bodies.text_length {docs : List HereDoc} {p q : Position} {cs rest : List Char} {ts : List Token}
    (h : Bodies docs p cs ts q rest) : ∀ t ∈ ts, t.text.toList.length ≤ cs.length + 1 := by
  induction h with
  | nil => exact List.forall_mem_nil _
  | cons hlines _ ih =>
      refine List.forall_mem_cons.mpr ⟨?_, fun t ht => ?_⟩
      · have hlen := hereLines_length hlines
        simp only [String.toList_ofList, List.length_reverse, List.length_append, List.length_nil] at hlen ⊢
        omega
      · have hlen := ih t ht
        rw [List.length_append]
        omega

theorem text_length_le_spelling {t : Token} (h : t.kind.isInline = true) : t.text.toList.length ≤ t.spelling.length := by
  rw [spelling]
  cases hkind : t.kind with
  | hereDoc | eof => rw [hkind] at h; cases h
  | arith => simp only [List.length_append, List.length_cons, List.length_nil]; omega
  | _ => exact Nat.le_refl _

-- A token has no more text than there is.
theorem Layout.text_length {q : Queue} {p : Position} {cs : List Char} {ts : List Token} (h : Layout q p cs ts) :
    ∀ t ∈ ts, t.text.toList.length ≤ cs.length := by
  induction h with
  | eof => simp
  | blank _ _ ih => exact fun t ht => Nat.le_succ_of_le (ih t ht)
  | joined _ ih => exact fun t ht => Nat.le_succ_of_le (Nat.le_succ_of_le (ih t ht))
  | @token _ _ t cs _ hinline _ _ ih =>
      have htext := text_length_le_spelling hinline
      refine List.forall_mem_cons.mpr ⟨?_, fun u hu => ?_⟩
      · rw [List.length_append]
        omega
      · have hlen := ih u hu
        rw [List.length_append]
        omega
  | @newline _ _ _ cs _ _ _ docs _ ih =>
      refine List.forall_mem_cons.mpr ⟨by simp, fun t ht => ?_⟩
      rcases List.mem_append.mp ht with ht | ht
      · exact docs.text_length t ht
      · have hlen := ih t ht
        have hrest := docs.length_le
        rw [List.length_cons]
        omega

end Scanner

theorem delivers_scanText {d : Dialect} {file : String} {base : Position} {text : List Char}
    (h : ∀ e ∈ (scanText d file base text).2, e.1.isFatal = false) :
    Scanner.Delivers {} (scanText d file base text).1 := by
  obtain ⟨ts, htokens, -, hdelivers⟩ :=
    Scanner.run_layout (n := text.length + 1) (s := { dialect := d, file, rest := text, pos := base }) (Nat.lt_succ_self _)
  rw [scanText] at h ⊢
  dsimp only at h ⊢
  rw [htokens]
  exact (hdelivers fun e he => h e (Array.mem_toList_iff.mpr he)).2

end Token
end ShellScript

import ShellScript.Proofs.Script.FileReading
import ShellScript.Proofs.Script.WordPlaces

-- Every node of a script that is read stands where it says, and so does what is reported of the script, at any depth of
-- nested texts.
namespace ShellScript
namespace Places

open Script Script.Read

variable {P : Places}

-- Commands.

-- The tokens from a cursor on stand where they say.
structure Points (P : Places) (c : Cursor) : Prop where
  ends : EndsText c.toks
  tokens : ∀ t ∈ c.toks, t.Stands P
  chain : c.toks.IsChain Token.Precedes
  told : P.Told c.diags

section Cursors

variable {c : Cursor}

theorem Points.head (h : P.Points c) : c.head.Stands P := by
  have hends := h.ends
  have htokens := h.tokens
  unfold Cursor.head
  generalize c.toks = toks at hends htokens ⊢
  cases hends with
  | eof | cons => exact htokens _ List.mem_cons_self

theorem Points.reported (h : P.Points c) {ds : Array Diagnostic.OfText} (hds : P.Told ds) :
    P.Points { c with diags := ds } := ⟨h.ends, h.tokens, h.chain, hds⟩

theorem Points.passed (h : P.Points c) : P.Points c.passed := by
  by_cases heof : c.head.kind = .eof
  · rwa [Cursor.passed_of_eof (Cursor.toks_of_eof h.ends heof)]
  · obtain ⟨u, ts, htoks⟩ := Cursor.toks_of_ne_eof h.ends heof
    have hsuffix : (significant c.pending (u :: ts)).2 <:+ c.toks :=
      htoks ▸ (significant_suffix _ _).trans (List.suffix_cons _ _)
    have hends := h.ends
    rw [htoks] at hends
    rw [Cursor.passed_of_cons htoks]
    cases hends with
    | cons _ rest => exact ⟨rest.significant _, fun t ht => h.tokens t (hsuffix.subset ht), h.chain.suffix hsuffix, h.told⟩

-- What is passed after a number stands right behind it.
theorem Points.pos_passed (h : P.Points c) (hnumber : c.head.kind = .ioNumber) (heof : c.passed.head.kind ≠ .eof) :
    c.passed.head.pos = c.head.pos.advance c.head.text.toList := by
  obtain ⟨u, ts, htoks⟩ := Cursor.toks_of_ne_eof h.ends fun heof => nomatch hnumber.symm.trans heof
  have hchain := h.chain
  rw [htoks] at hchain
  have hnext : c.head.Precedes u := (List.isChain_cons_cons.mp hchain).1
  have hu : u.kind ≠ .comment ∧ u.kind ≠ .hereDoc := by
    by_cases hkind : u.kind = .eof
    · simp [hkind]
    · exact (hnext hnumber hkind).2
  have hpassed : c.passed.head = u := by
    rw [Cursor.passed_of_cons htoks, significant_of_ne hu.1 hu.2]
    rfl
  rw [hpassed] at heof ⊢
  exact (hnext hnumber heof).1

end Cursors

-- A reader of commands goes on to such tokens, and its result is like `Q`.
def Scans (P : Places) {α : Type} (m : Scanning α) (c : Cursor) (Q : α → Prop) : Prop :=
  Q (m.run c).1 ∧ P.Points (m.run c).2

namespace Scans

variable {α β : Type} {m n : Scanning α} {f : α → Scanning β} {c : Cursor} {Q : α → Prop} {R : β → Prop}

theorem pure {a : α} (hc : P.Points c) (h : Q a) : P.Scans (Pure.pure a) c Q := ⟨h, hc⟩

theorem absent (hc : P.Points c) : P.Scans (Pure.pure none) c fun r => ∀ a ∈ r, Q a :=
  pure hc fun a ha => absurd ha (Option.not_mem_none a)

theorem bind (hm : P.Scans m c Q) (hf : ∀ a c', P.Points c' → Q a → P.Scans (f a) c' R) : P.Scans (m >>= f) c R :=
  hf _ _ hm.2 hm.1

theorem ite {p : Prop} [Decidable p] (h : p → P.Scans m c Q) (h' : ¬p → P.Scans n c Q) :
    P.Scans (if p then m else n) c Q := by
  split
  · exact h ‹_›
  · exact h' ‹_›

theorem cur {f : Token → Scanning β} (h : P.Scans (f c.head) c R) : P.Scans (Read.cur >>= f) c R := h

theorem next {f : Unit → Scanning β} (h : P.Scans (f ()) c.passed R) : P.Scans (Read.next >>= f) c R := h

theorem left {f : Nat → Scanning β} (hf : ∀ n, P.Scans (f n) c R) : P.Scans (Read.left >>= f) c R := hf _

theorem words {r : Reading α} (hc : P.Points c) (hr : P.Yields r Q) : P.Scans (Read.words r) c Q :=
  ⟨(hr c.diags hc.told).1, hc.reported (hr c.diags hc.told).2⟩

theorem listFor {turn : Scanning (Option α)} (h : ∀ c, P.Points c → P.Scans turn c fun r => ∀ a ∈ r, Q a) (n : Nat)
    (hc : P.Points c) : P.Scans (Read.listFor turn n) c fun as => ∀ a ∈ as, Q a := by
  induction n generalizing c with
  | zero => exact .pure hc nofun
  | succ n ih =>
      refine (h c hc).bind fun r c₁ hc₁ hr => ?_
      cases r with
      | none => exact .pure hc₁ nofun
      | some a => exact (ih hc₁).bind fun as c₂ hc₂ has => .pure hc₂ (List.forall_mem_cons.mpr ⟨hr a rfl, has⟩)

theorem skipNewlines (hc : P.Points c) : P.Scans Read.skipNewlines c fun _ => True := by
  have hturn (c : Cursor) (hc : P.Points c) : P.Scans newline? c fun r => ∀ _ ∈ r, True :=
    .cur (.ite (fun _ => .next (.pure hc.passed fun _ _ => trivial)) fun _ => .absent hc)
  exact ⟨trivial, (listFor hturn (c.toks.length + 1) hc).2⟩

theorem warn {s : Setting} {g : Feature} {p : Position} (hc : P.Points c) (hp : P.Has p []) :
    P.Scans (Read.warn s g p) c fun _ => True := by
  unfold Read.warn Setting.missing?
  split
  · rename_i d hd
    split at hd
    · cases hd
    · cases hd
      exact ⟨trivial, hc.reported (hc.told.push hp ⟨rfl, rfl⟩)⟩
  · exact .pure hc trivial

theorem wordOf {parts : PartsReader} (hparts : P.Reads parts) {t : Token} (hc : P.Points c) (ht : P.Has t.pos t.text.toList) :
    P.Scans (Read.wordOf parts t) c fun w => w.nodes.All (Node.Stands P) :=
  (words hc (hparts.word .unquoted ht)).bind fun _ _ hc₁ hw => .pure hc₁ hw

end Scans

-- The same of a reader that can fail.
def Parses (P : Places) {α : Type} (m : Parse α) (c : Cursor) (Q : α → Prop) : Prop :=
  P.Scans m.run c fun r => ∀ a ∈ r, Q a

namespace Parses

variable {α β : Type} {m n : Parse α} {f : α → Parse β} {c : Cursor} {Q : α → Prop} {R : β → Prop}

theorem pure {a : α} (hc : P.Points c) (h : Q a) : P.Parses (Pure.pure a) c Q := by
  refine ⟨?_, hc⟩
  rintro _ ⟨⟩
  exact h

theorem absent (hc : P.Points c) : P.Parses (Pure.pure none) c fun r => ∀ a ∈ r, Q a :=
  pure hc fun a ha => absurd ha (Option.not_mem_none a)

theorem found {a : α} (hc : P.Points c) (h : Q a) : P.Parses (Pure.pure (some a)) c fun r => ∀ a ∈ r, Q a := by
  refine pure hc ?_
  rintro _ ⟨⟩
  exact h

theorem bind (hm : P.Parses m c Q) (hf : ∀ a c', P.Points c' → Q a → P.Parses (f a) c' R) : P.Parses (m >>= f) c R := by
  unfold Parses
  rw [OptionT.run_bind]
  refine Scans.bind hm fun r c₁ hc₁ hr => ?_
  cases r with
  | none => exact .pure hc₁ nofun
  | some a => exact hf a c₁ hc₁ (hr a rfl)

theorem ite {p : Prop} [Decidable p] (h : p → P.Parses m c Q) (h' : ¬p → P.Parses n c Q) :
    P.Parses (if p then m else n) c Q := by
  split
  · exact h ‹_›
  · exact h' ‹_›

theorem scan {m : Scanning α} (hm : P.Scans m c Q) (hf : ∀ a c', P.Points c' → Q a → P.Parses (f a) c' R) :
    P.Parses (liftM m >>= f) c R := hf _ _ hm.2 hm.1

theorem cur {f : Token → Parse β} (h : P.Parses (f c.head) c R) : P.Parses (liftM Read.cur >>= f) c R := h

theorem left {f : Nat → Parse β} (hf : ∀ n, P.Parses (f n) c R) : P.Parses (liftM Read.left >>= f) c R := hf _

theorem next {f : Unit → Parse β} (h : P.Parses (f ()) c.passed R) : P.Parses (liftM Read.next >>= f) c R := h

theorem newlines {f : Unit → Parse β} (hc : P.Points c) (hf : ∀ c', P.Points c' → P.Parses (f ()) c' R) :
    P.Parses (liftM Read.skipNewlines >>= f) c R := scan (.skipNewlines hc) fun _ c' hc' _ => hf c' hc'

theorem fail {s : Setting} {p : Position} {message : String} (hc : P.Points c) (hp : P.Has p []) :
    P.Parses (Read.fail s p message) c Q := ⟨nofun, hc.reported (hc.told.push hp ⟨rfl, rfl⟩)⟩

-- What comes after a failure does not matter.
theorem stop {s : Setting} {p : Position} {message : String} (hc : P.Points c) (hp : P.Has p []) :
    P.Parses (Read.fail s p message >>= f) c R := ⟨nofun, hc.reported (hc.told.push hp ⟨rfl, rfl⟩)⟩

theorem guard {p : Prop} [Decidable p] {s : Setting} {q : Position} {message : String} {g : β → Parse α}
    (hc : P.Points c) (hq : P.Has q []) (hm : ¬p → P.Parses m c Q) :
    P.Parses (if p then Read.fail s q message >>= g else m) c Q := ite (fun _ => stop hc hq) hm

-- A missing feature is reported without passing a token.
theorem warned {g : Feature} {s : Setting} {p : Position} {f : Unit → Parse β} (hc : P.Points c) (hp : P.Has p [])
    (hf : ∀ c', P.Points c' → c'.head = c.head → P.Parses (f ()) c' R) :
    P.Parses (liftM (Read.warn s g p) >>= f) c R := by
  have hhead : (StateT.run (Read.warn s g p) c).2.head = c.head := by
    unfold Read.warn
    split <;> rfl
  exact hf _ (Scans.warn hc hp).2 hhead

theorem many {turn : Parse (Option α)} (h : ∀ c, P.Points c → P.Parses turn c fun r => ∀ a ∈ r, Q a)
    (hc : P.Points c) : P.Parses (Read.many turn) c fun as => ∀ a ∈ as, Q a := by
  have hloop (n : Nat) (c : Cursor) (hc : P.Points c) : P.Parses (Read.listFor turn n) c fun as => ∀ a ∈ as, Q a := by
    induction n generalizing c with
    | zero => exact .pure hc nofun
    | succ n ih =>
        refine (h c hc).bind fun r c₁ hc₁ hr => ?_
        cases r with
        | none => exact .pure hc₁ nofun
        | some a =>
            exact (ih c₁ hc₁).bind fun as c₂ hc₂ has => .pure hc₂ (List.forall_mem_cons.mpr ⟨hr a rfl, has⟩)
  exact hloop _ c hc

end Parses

-- The readers of commands.

section Commands

variable {s : Setting} {parts : PartsReader} {inner : Inner} {c : Cursor}

structure Inward (P : Places) (inner : Inner) : Prop where
  block : ∀ stop c, P.Points c → P.Scans (inner.block stop) c fun b => b.nodes.All (Node.Stands P)
  command : ∀ c, P.Points c → P.Parses inner.command c fun x => x.nodes.All (Node.Stands P)

theorem has_keyword {word : String} {t : Token} (ht : t.Stands P) (h : isKeyword [word] t = true) :
    P.Has t.pos word.toList := by
  simp only [isKeyword, Bool.and_eq_true, beq_iff_eq, List.contains_cons, List.contains_nil, Bool.or_false] at h
  rw [← h.2]
  exact ht.own_word h.1.1

theorem parses_expect {keyword construct : String} {start : Position} (hc : P.Points c) (hstart : P.Has start []) :
    P.Parses (expect s keyword construct start) c fun _ => True :=
  .cur (.ite (fun _ => .next (.pure hc.passed trivial)) fun _ => .ite (fun _ => .fail hc hstart) fun _ =>
    .fail hc hc.head.here)

-- Redirections.

theorem scans_upcomingDoc (hc : P.Points c) : P.Scans upcomingDoc c fun r => ∀ t ∈ r, t.Stands P ∧ t.kind = .hereDoc := by
  refine ⟨fun t ht => ?_, hc⟩
  have hmem := List.mem_filter.mp (List.mem_of_getElem? ht)
  exact ⟨hc.tokens t (List.mem_of_mem_drop hmem.1), beq_iff_eq.mp hmem.2⟩

theorem scans_hereDoc (hparts : P.Reads parts) (delim : Token) (strip : Bool) (hc : P.Points c) :
    P.Scans (hereDoc parts delim strip) c fun d => AllOf (Node.Stands P) (optDocNodes (some d)) := by
  unfold hereDoc
  extract_lets doc
  have hdoc {pos : Position} {raw : String} {body : Option Word} (hpos : pos.isValid = true → P.Has pos raw.toList)
      (hbody : AllOf (Node.Stands P) (optWordNodes body)) :
      AllOf (Node.Stands P) (optDocNodes (some { doc with pos, raw, body })) :=
    allOf_one (all_mk.mpr ⟨stands_of_marked rfl hpos, hbody⟩)
  refine (scans_upcomingDoc hc).bind fun found c₁ hc₁ hfound => ?_
  refine Scans.bind (Q := fun _ => True) ⟨trivial, hc₁.ends, hc₁.tokens, hc₁.chain, hc₁.told⟩
    fun _ c₂ hc₂ _ => ?_
  cases found with
  | none => exact .pure hc₂ (hdoc (fun hvalid => absurd hvalid not_isValid_default) allOf_nil)
  | some t =>
      obtain ⟨ht, hkind⟩ := hfound t rfl
      have hraw : P.Has t.pos t.text.toList := ht.own (by simp [hkind]) (by simp [hkind])
      refine .ite (fun _ => .pure hc₂ (hdoc (fun _ => hraw) allOf_nil)) fun _ => ?_
      exact (Scans.words hc₂ (hparts.word .hereDoc hraw)).bind fun ps c₃ hc₃ hps =>
        .pure hc₃ (hdoc (fun _ => hraw) (allOf_one hps))

theorem all_redirect {r : Redirect} (hn : P.Has r.pos r.n.toList)
    (hop : P.Has r.opPos (if r.op.isRedirection then r.op.text.toList else [])) (hword : r.word.nodes.All (Node.Stands P))
    (hdoc : AllOf (Node.Stands P) (optDocNodes r.doc)) : r.nodes.All (Node.Stands P) := by
  rw [redirect_nodes_eq]
  refine all_mk.mpr ⟨⟨?_, fun _ => P.here hn⟩, allOf_cons.mpr ⟨hword, hdoc⟩⟩
  exact List.forall_mem_cons.mpr ⟨hn, List.forall_mem_singleton.mpr hop⟩

theorem parses_redirect (hparts : P.Reads parts) (hc : P.Points c) :
    P.Parses (redirect s parts) c fun r => r.nodes.All (Node.Stands P) := by
  refine .cur ?_
  extract_lets n jp
  have hjp (c₁ : Cursor) (hc₁ : P.Points c₁) (hn : c₁.head.kind ≠ .eof → P.Has
      ⟨c₁.head.pos.offset - n.length, c₁.head.pos.line, c₁.head.pos.column - n.length⟩ n.toList) :
      P.Parses (jp ()) c₁ fun r => r.nodes.All (Node.Stands P) := by
    refine .cur (.next (.cur (.guard hc₁.passed hc₁.passed.head.here fun hword => ?_)))
    have hkind : c₁.passed.head.kind = .word := by simpa using hword
    have heof : c₁.head.kind ≠ .eof := by
      intro heof
      rw [Cursor.passed_of_eof (Cursor.toks_of_eof hc₁.ends heof), heof] at hkind
      cases hkind
    have hop : P.Has c₁.head.pos (if c₁.head.kind.isRedirection then c₁.head.kind.text.toList else []) := by
      split
      · rename_i hredirection
        exact hc₁.head.own_sign (by simp [hredirection])
      · exact hc₁.head.here
    refine .scan (.wordOf hparts hc₁.passed (hc₁.passed.head.own_word hkind)) fun word c₂ hc₂ hw => ?_
    have hend (doc : Option HereDoc) (hdoc : AllOf (Node.Stands P) (optDocNodes doc)) (c₃ : Cursor) (hc₃ : P.Points c₃) :
        P.Parses (do next; return ({ opPos := c₁.head.pos, op := c₁.head.kind, n, word, doc } : Redirect)) c₃
          fun r => r.nodes.All (Node.Stands P) :=
      .next (.pure hc₃.passed (all_redirect (hn heof) hop hw hdoc))
    refine .ite (fun _ => ?_) fun _ => .bind (Q := fun doc => AllOf (Node.Stands P) (optDocNodes doc)) (.pure hc₂ allOf_nil)
      fun doc c₃ hc₃ hdoc => hend doc hdoc c₃ hc₃
    refine .bind (Q := fun doc => AllOf (Node.Stands P) (optDocNodes doc)) ?_
      fun doc c₃ hc₃ hdoc => hend doc hdoc c₃ hc₃
    exact .scan (scans_hereDoc hparts _ _ hc₂) fun d c₃ hc₃ hd => .pure hc₃ hd
  refine .ite (fun hnumber => .next (hjp _ hc.passed fun heof => ?_)) fun hnumber => hjp _ hc fun _ => ?_
  · have hkind : c.head.kind = .ioNumber := beq_iff_eq.mp hnumber
    have hn : n = c.head.text := if_pos hnumber
    have hat : (⟨c.passed.head.pos.offset - n.length, c.passed.head.pos.line,
        c.passed.head.pos.column - n.length⟩ : Position) = c.head.pos := by
      rw [hc.pos_passed hkind heof, hc.head.advance_number hkind, hn]
      simp
    rw [hat, hn]
    exact hc.head.own (by simp [hkind]) (by simp [hkind])
  · have hn : n = "" := if_neg hnumber
    rw [hn]
    exact hc.head.here

theorem parses_redirect? (hparts : P.Reads parts) (c : Cursor) (hc : P.Points c) :
    P.Parses (redirect? s parts) c fun r => ∀ r' ∈ r, r'.nodes.All (Node.Stands P) := by
  refine .cur (.ite (fun _ => ?_) fun _ => .absent hc)
  exact (parses_redirect hparts hc).bind fun r c₁ hc₁ hr => .found hc₁ hr

theorem parses_withRedirects (hparts : P.Reads parts) {x : Command} (hx : x.nodes.All (Node.Stands P)) (hc : P.Points c) :
    P.Parses (withRedirects s parts x) c fun x => x.nodes.All (Node.Stands P) := by
  refine (Parses.many (parses_redirect? hparts) hc).bind fun rs c₁ hc₁ hrs => .pure hc₁ ?_
  split
  · exact hx
  · refine Command.all_redirected hx ?_
    rw [redirectNodes_eq]
    exact List.forall_mem_map.mpr hrs

-- The compound commands, of which the reader knows the word that begins them.

theorem parses_elif? (hinner : P.Inward inner) {start : Position} (hstart : P.Has start []) (c : Cursor) (hc : P.Points c) :
    P.Parses (elif? s inner start) c fun r => ∀ e ∈ r, AllOf (Node.Stands P) (elifNodes [e]) := by
  refine .cur (.ite (fun hword => .next ?_) fun _ => .absent hc)
  refine .scan (hinner.block _ _ hc.passed) fun cond c₁ hc₁ hcond => ?_
  refine (parses_expect hc₁ hstart).bind fun _ c₂ hc₂ _ => ?_
  refine .scan (hinner.block _ _ hc₂) fun yes c₃ hc₃ hyes => .found hc₃ ?_
  exact allOf_one (all_mk.mpr ⟨stands_of_mark rfl (has_keyword hc.head hword), allOf_cons.mpr ⟨hcond, allOf_one hyes⟩⟩)

theorem allOf_elifNodes {elifs : List Elif} (h : ∀ e ∈ elifs, AllOf (Node.Stands P) (elifNodes [e])) :
    AllOf (Node.Stands P) (elifNodes elifs) := by
  induction elifs with
  | nil => exact allOf_nil
  | cons e elifs ih =>
      obtain ⟨he, helifs⟩ := List.forall_mem_cons.mp h
      cases e
      exact allOf_cons.mpr ⟨(allOf_cons.mp he).1, ih helifs⟩

theorem parses_ifClause (hinner : P.Inward inner) (hc : P.Points c) (hword : P.Has c.head.pos "if".toList) :
    P.Parses (ifClause s inner) c fun x => x.nodes.All (Node.Stands P) := by
  have hstart := P.here hword
  refine .cur (.next (.scan (hinner.block _ _ hc.passed) fun cond c₁ hc₁ hcond => ?_))
  refine (parses_expect hc₁ hstart).bind fun _ c₂ hc₂ _ => .scan (hinner.block _ _ hc₂) fun yes c₃ hc₃ hyes => ?_
  refine (Parses.many (parses_elif? hinner hstart) hc₃).bind fun elifs c₄ hc₄ helifs => .cur ?_
  extract_lets after
  have hafter (no : Option Block) (hno : AllOf (Node.Stands P) (optBlockNodes no)) (c₅ : Cursor) (hc₅ : P.Points c₅) :
      P.Parses (after no) c₅ fun x => x.nodes.All (Node.Stands P) :=
    (parses_expect hc₅ hstart).bind fun _ c₆ hc₆ _ => .pure hc₆ (all_mk.mpr ⟨stands_of_mark rfl hword,
      allOf_cons.mpr ⟨hcond, allOf_cons.mpr ⟨hyes, allOf_append.mpr ⟨allOf_elifNodes helifs, hno⟩⟩⟩⟩)
  refine .ite (fun _ => .next ?_) fun _ => ?_
  · rw [bind_map_left]
    exact .scan (hinner.block _ _ hc₄.passed) fun b c₅ hc₅ hb => hafter (some b) (allOf_one hb) c₅ hc₅
  · rw [pure_bind]
    exact hafter none allOf_nil c₄ hc₄

theorem parses_loopBody (hinner : P.Inward inner) {construct : String} {start : Position} (hstart : P.Has start [])
    (hc : P.Points c) : P.Parses (loopBody s inner construct start) c fun b => b.nodes.All (Node.Stands P) :=
  (parses_expect hc hstart).bind fun _ _ hc₁ _ => .scan (hinner.block _ _ hc₁) fun _ _ hc₂ hb =>
    (parses_expect hc₂ hstart).bind fun _ _ hc₃ _ => .pure hc₃ hb

theorem parses_whileClause (hinner : P.Inward inner) (hc : P.Points c)
    (hword : P.Has c.head.pos (if c.head.text == "until" then "until".toList else "while".toList)) :
    P.Parses (whileClause s inner) c fun x => x.nodes.All (Node.Stands P) := by
  refine .cur (.next (.scan (hinner.block _ _ hc.passed) fun cond c₁ hc₁ hcond => ?_))
  refine (parses_loopBody hinner (P.here hword) hc₁).bind fun body c₂ hc₂ hbody => .pure hc₂ ?_
  exact all_mk.mpr ⟨stands_of_mark rfl hword, allOf_cons.mpr ⟨hcond, allOf_one hbody⟩⟩

theorem parses_word? (hparts : P.Reads parts) (c : Cursor) (hc : P.Points c) :
    P.Parses (word? parts) c fun r => ∀ w ∈ r, w.nodes.All (Node.Stands P) := by
  refine .cur (.ite (fun hkind => ?_) fun _ => .absent hc)
  refine .scan (.wordOf hparts hc (hc.head.own_word (beq_iff_eq.mp hkind))) fun w c₁ hc₁ hw => ?_
  exact .next (.found hc₁.passed hw)

-- The name of a loop's variable and the words of its list.
def Heads (P : Places) (r : String × Position × Bool × List Word) : Prop :=
  P.Has r.2.1 r.1.toList ∧ AllOf (Node.Stands P) (wordNodes r.2.2.2)

theorem allOf_wordNodes {ws : List Word} (h : ∀ w ∈ ws, w.nodes.All (Node.Stands P)) :
    AllOf (Node.Stands P) (wordNodes ws) := by
  rw [wordNodes_eq]
  exact List.forall_mem_map.mpr h

theorem parses_loopHead (hparts : P.Reads parts) {construct : String} (hc : P.Points c) :
    P.Parses (loopHead s parts construct) c P.Heads := by
  refine .cur (.guard hc hc.head.here fun hname => .next (.newlines hc.passed fun c₁ hc₁ => .cur ?_))
  have hkind : c.head.kind = .word := by
    simp only [Bool.or_eq_true, not_or, bne_iff_ne, Classical.not_not] at hname
    exact hname.1
  have hword := hc.head.own_word hkind
  refine .ite (fun _ => .next ?_) fun _ => ?_
  · refine (Parses.many (parses_word? hparts) hc₁.passed).bind fun items c₂ hc₂ hitems => .cur ?_
    refine .guard hc₂ hc₂.head.here fun _ => .next (.newlines hc₂.passed fun c₃ hc₃ => ?_)
    exact .pure hc₃ ⟨hword, allOf_wordNodes hitems⟩
  · have hdone (c₂ : Cursor) (hc₂ : P.Points c₂) :
        P.Parses (do skipNewlines; return (c.head.text, c.head.pos, false, [])) c₂ P.Heads :=
      .newlines hc₂ fun c₃ hc₃ => .pure hc₃ ⟨hword, allOf_nil⟩
    exact .ite (fun _ => .next (hdone _ hc₁.passed)) fun _ => hdone _ hc₁

-- A command `((...))` holds its text behind the two parentheses.
theorem has_arithStart {t : Token} (ht : t.Stands P) (hkind : t.kind = .arith) : P.Has (arithStart t) t.text.toList :=
  P.slice (ht.own_arith hkind)

theorem parses_lift {α : Type} {m : Scanning α} {Q : α → Prop} (h : P.Scans m c Q) : P.Parses (OptionT.lift m) c Q := by
  refine ⟨?_, h.2⟩
  rintro _ ⟨⟩
  exact h.1

theorem yields_forHeads (hparts : P.Reads parts) (n : Nat) {p : Position} {cs : List Char} (h : P.Has p cs) :
    P.Yields (forHeads s parts n p cs) fun r => ∀ xs ∈ r, ∀ x ∈ xs, AllOf (Node.Stands P) (optArithNodes x) := by
  induction n generalizing p cs with
  | zero =>
      exact .found nofun
  | succ n ih =>
      unfold forHeads
      split
      · rename_i a b hsplit
        have hcs : cs = (a ++ [';']) ++ b := by rw [splitTop?_eq hsplit, List.append_assoc, List.singleton_append]
        subst hcs
        refine (yields_arithText hparts (P.front (P.front h))).bind fun x hx => (ih (P.skip h)).bind fun r hr => .pure ?_
        intro xs hxs
        obtain ⟨ys, hys, rfl⟩ := Option.map_eq_some_iff.mp hxs
        exact List.forall_mem_cons.mpr ⟨hx, hr ys hys⟩
      · refine (yields_arithText hparts h).bind fun x hx => .pure ?_
        split
        · rintro _ ⟨⟩
          exact List.forall_mem_singleton.mpr hx
        · nofun

theorem parses_arithFor (hparts : P.Reads parts) (hinner : P.Inward inner) {start : Position}
    (hstart : P.Has start "for".toList) (hc : P.Points c) (hkind : c.head.kind = .arith) :
    P.Parses (arithFor s parts inner start) c fun x => x.nodes.All (Node.Stands P) := by
  refine .warned hc (P.here hstart) fun c₁ hc₁ hhead => .cur ?_
  rw [hhead]
  refine (parses_lift (.words hc₁ (yields_forHeads hparts 3 (has_arithStart hc.head hkind)))).bind fun r c₂ hc₂ hr => ?_
  split
  · rename_i x y z
    obtain ⟨hx, hyz⟩ := List.forall_mem_cons.mp (hr _ rfl)
    obtain ⟨hy, hz⟩ := List.forall_mem_cons.mp hyz
    replace hz := hz z (List.mem_singleton_self z)
    have hloop (c₃ : Cursor) (hc₃ : P.Points c₃) : P.Parses (do
        skipNewlines
        let body ← loopBody s inner "for" start
        return Command.forArith start x y z body) c₃ fun x => x.nodes.All (Node.Stands P) := by
      refine .newlines hc₃ fun c₄ hc₄ => ?_
      refine (parses_loopBody hinner (P.here hstart) hc₄).bind fun body c₅ hc₅ hbody => .pure hc₅ ?_
      refine all_mk.mpr ⟨stands_of_mark rfl hstart, ?_⟩
      exact allOf_append.mpr ⟨allOf_append.mpr ⟨allOf_append.mpr ⟨hx, hy⟩, hz⟩, allOf_one hbody⟩
    exact .next (.cur (.ite (fun _ => .next (hloop _ hc₂.passed.passed)) fun _ => hloop _ hc₂.passed))
  · exact .fail hc₂ hc.head.here

theorem parses_forClause (hparts : P.Reads parts) (hinner : P.Inward inner) (hc : P.Points c)
    (hword : P.Has c.head.pos "for".toList) : P.Parses (forClause s parts inner) c fun x => x.nodes.All (Node.Stands P) := by
  have hstart := P.here hword
  refine .cur (.next (.cur (.ite (fun hkind => ?_) fun _ => ?_)))
  · exact parses_arithFor hparts hinner hword hc.passed (beq_iff_eq.mp hkind)
  refine (parses_loopHead hparts hc.passed).bind fun r c₁ hc₁ hr => ?_
  obtain ⟨name, namePos, hasIn, items⟩ := r
  refine (parses_loopBody hinner hstart hc₁).bind fun body c₂ hc₂ hbody => .pure hc₂ ?_
  refine all_mk.mpr ⟨⟨?_, fun _ => hstart⟩, ?_⟩
  · exact List.forall_mem_cons.mpr ⟨hword, List.forall_mem_singleton.mpr hr.1⟩
  · exact allOf_append.mpr ⟨hr.2, allOf_one hbody⟩

theorem parses_selectClause (hparts : P.Reads parts) (hinner : P.Inward inner) (hc : P.Points c)
    (hword : P.Has c.head.pos "select".toList) :
    P.Parses (selectClause s parts inner) c fun x => x.nodes.All (Node.Stands P) := by
  have hstart := P.here hword
  refine .cur (.scan (.warn hc hstart) fun _ c₁ hc₁ _ => .next ?_)
  refine (parses_loopHead hparts hc₁.passed).bind fun r c₂ hc₂ hr => ?_
  obtain ⟨name, namePos, hasIn, items⟩ := r
  refine (parses_loopBody hinner hstart hc₂).bind fun body c₃ hc₃ hbody => .pure hc₃ ?_
  refine all_mk.mpr ⟨⟨?_, fun _ => hstart⟩, ?_⟩
  · exact List.forall_mem_cons.mpr ⟨hword, List.forall_mem_singleton.mpr hr.1⟩
  · exact allOf_append.mpr ⟨hr.2, allOf_one hbody⟩

-- Cases.

theorem parses_pattern (hparts : P.Reads parts) (hc : P.Points c) :
    P.Parses (pattern s parts) c fun w => w.nodes.All (Node.Stands P) :=
  .cur (.guard hc hc.head.here fun hkind => .scan (.wordOf hparts hc (hc.head.own_word (by simpa using hkind)))
    fun _ _ hc₁ hw => .next (.pure hc₁.passed hw))

theorem parses_pattern? (hparts : P.Reads parts) (c : Cursor) (hc : P.Points c) :
    P.Parses (pattern? s parts) c fun r => ∀ w ∈ r, w.nodes.All (Node.Stands P) := by
  refine .cur (.ite (fun _ => .next ?_) fun _ => .absent hc)
  exact (parses_pattern hparts hc.passed).bind fun w c₁ hc₁ hw => .found hc₁ hw

theorem all_caseItem {w : Word} {ws : List Word} {body : Block} (term : CaseTerm) (hw : w.nodes.All (Node.Stands P))
    (hws : ∀ w ∈ ws, w.nodes.All (Node.Stands P)) (hbody : body.nodes.All (Node.Stands P)) :
    AllOf (Node.Stands P) (caseNodes [⟨w :: ws, body, term⟩]) :=
  allOf_one (all_mk.mpr ⟨stands_of_pos rfl (Word.stands hw).pos,
    allOf_append.mpr ⟨allOf_cons.mpr ⟨hw, allOf_wordNodes hws⟩, allOf_one hbody⟩⟩)

theorem parses_caseItem (hparts : P.Reads parts) (hinner : P.Inward inner) (hc : P.Points c) :
    P.Parses (caseItem s parts inner) c fun i => AllOf (Node.Stands P) (caseNodes [i]) := by
  refine .cur ?_
  extract_lets jp
  have hjp (c₁ : Cursor) (hc₁ : P.Points c₁) : P.Parses (jp ()) c₁ fun i => AllOf (Node.Stands P) (caseNodes [i]) := by
    refine (parses_pattern hparts hc₁).bind fun w c₂ hc₂ hw => ?_
    refine (Parses.many (parses_pattern? hparts) hc₂).bind fun ws c₃ hc₃ hws => ?_
    refine .cur (.guard hc₃ hc₃.head.here fun _ => .next ?_)
    refine .scan (hinner.block _ _ hc₃.passed) fun body c₄ hc₄ hbody => .cur ?_
    split
    · exact .next (.pure hc₄.passed (all_caseItem _ hw hws hbody))
    · exact .pure hc₄ (all_caseItem _ hw hws hbody)
  exact .ite (fun _ => .next (hjp _ hc.passed)) fun _ => hjp _ hc

theorem parses_caseItem? (hparts : P.Reads parts) (hinner : P.Inward inner) {start : Position} (hstart : P.Has start [])
    (c : Cursor) (hc : P.Points c) :
    P.Parses (caseItem? s parts inner start) c fun r => ∀ i ∈ r, AllOf (Node.Stands P) (caseNodes [i]) := by
  refine .cur (.ite (fun _ => .absent hc) fun _ => .guard hc hstart fun _ => ?_)
  exact (parses_caseItem hparts hinner hc).bind fun i c₁ hc₁ hi => .newlines hc₁ fun c₂ hc₂ => .found hc₂ hi

theorem allOf_caseNodes {items : List CaseItem} (h : ∀ i ∈ items, AllOf (Node.Stands P) (caseNodes [i])) :
    AllOf (Node.Stands P) (caseNodes items) := by
  induction items with
  | nil => exact allOf_nil
  | cons i items ih =>
      obtain ⟨hi, hitems⟩ := List.forall_mem_cons.mp h
      cases i
      exact allOf_cons.mpr ⟨(allOf_cons.mp hi).1, ih hitems⟩

theorem parses_caseClause (hparts : P.Reads parts) (hinner : P.Inward inner) (hc : P.Points c)
    (hword : P.Has c.head.pos "case".toList) :
    P.Parses (caseClause s parts inner) c fun x => x.nodes.All (Node.Stands P) := by
  have hstart := P.here hword
  refine .cur (.next (.cur (.guard hc.passed hc.passed.head.here fun hkind => ?_)))
  refine .scan (.wordOf hparts hc.passed (hc.passed.head.own_word (by simpa using hkind))) fun w c₁ hc₁ hw => .next ?_
  refine .newlines hc₁.passed fun c₂ hc₂ => .cur ?_
  refine .ite (fun _ => .ite (fun _ => .stop hc₂ hstart) fun _ => .stop hc₂ hc₂.head.here) fun _ => .next ?_
  refine .newlines hc₂.passed fun c₃ hc₃ => ?_
  refine (Parses.many (parses_caseItem? hparts hinner hstart) hc₃).bind fun items c₄ hc₄ hitems => ?_
  exact .next (.pure hc₄.passed (all_mk.mpr ⟨stands_of_mark rfl hword, allOf_cons.mpr ⟨hw, allOf_caseNodes hitems⟩⟩))

-- Groups, functions and subshells.

theorem parses_group (hinner : P.Inward inner) (hc : P.Points c) (hword : P.Has c.head.pos ['\x7b']) :
    P.Parses (group s inner) c fun x => x.nodes.All (Node.Stands P) :=
  .cur (.next (.scan (hinner.block _ _ hc.passed) fun _ _ hc₁ hbody => (parses_expect hc₁ (P.here hword)).bind
    fun _ _ hc₂ _ => .pure hc₂ (all_mk.mpr ⟨stands_of_mark rfl hword, allOf_one hbody⟩)))

theorem parses_functionBody (hparts : P.Reads parts) (hinner : P.Inward inner) {pos : Position} {name : String}
    {keyword : Bool} (parens : Bool) (hpos : P.Has pos (if keyword then "function".toList else name.toList))
    (hc : P.Points c) :
    P.Parses (functionBody s parts inner pos name keyword parens) c fun x => x.nodes.All (Node.Stands P) := by
  refine .newlines hc fun c₁ hc₁ => .cur (.guard hc₁ (P.here hpos) fun _ => ?_)
  have hend (body : Command) (hbody : body.nodes.All (Node.Stands P)) (c₂ : Cursor) (hc₂ : P.Points c₂) :
      P.Parses (pure (Command.function pos name keyword parens body)) c₂ fun x => x.nodes.All (Node.Stands P) :=
    .pure hc₂ (all_mk.mpr ⟨stands_of_mark rfl hpos, allOf_one hbody⟩)
  refine .ite (fun hbrace => ?_) fun _ => (hinner.command c₁ hc₁).bind fun x c₂ hc₂ hx => hend x hx c₂ hc₂
  have hopen : P.Has c₁.head.pos ['\x7b'] := by
    simp only [Bool.and_eq_true, beq_iff_eq] at hbrace
    have hword := hc₁.head.own_word hbrace.1.1
    rwa [hbrace.1.2] at hword
  refine (parses_group hinner hc₁ hopen).bind fun x c₂ hc₂ hx => ?_
  exact (parses_withRedirects hparts hx hc₂).bind fun y c₃ hc₃ hy => hend y hy c₃ hc₃

theorem parses_closeFunctionHead (hc : P.Points c) : P.Parses (closeFunctionHead s) c fun _ => True :=
  .next (.cur (.guard hc.passed hc.passed.head.here fun _ => .next (.pure hc.passed.passed trivial)))

theorem parses_functionKeyword (hparts : P.Reads parts) (hinner : P.Inward inner) (hc : P.Points c)
    (hword : P.Has c.head.pos "function".toList) :
    P.Parses (functionKeyword s parts inner) c fun x => x.nodes.All (Node.Stands P) := by
  refine .cur (.scan (.warn hc (P.here hword)) fun _ c₁ hc₁ _ => .next (.cur ?_))
  refine .guard hc₁.passed hc₁.passed.head.here fun _ => .next (.cur (.ite (fun _ => ?_) fun _ => ?_))
  · exact (parses_closeFunctionHead hc₁.passed.passed).bind fun _ c₂ hc₂ _ =>
      parses_functionBody hparts hinner true hword hc₂
  · exact parses_functionBody hparts hinner false hword hc₁.passed.passed

theorem parses_functionParens (hparts : P.Reads parts) (hinner : P.Inward inner) {name : Token}
    (hname : P.Has name.pos name.text.toList) (hc : P.Points c) :
    P.Parses (functionParens s parts inner name) c fun x => x.nodes.All (Node.Stands P) :=
  .guard hc (P.here hname) fun _ => (parses_closeFunctionHead hc).bind fun _ _ hc₁ _ =>
    parses_functionBody hparts hinner true hname hc₁

theorem parses_subshell (hinner : P.Inward inner) (hc : P.Points c) (hword : P.Has c.head.pos ['(']) :
    P.Parses (subshell s inner) c fun x => x.nodes.All (Node.Stands P) :=
  .cur (.next (.scan (hinner.block _ _ hc.passed) fun _ _ hc₁ hbody => .cur (.ite
    (fun _ => .next (.pure hc₁.passed (all_mk.mpr ⟨stands_of_mark rfl hword, allOf_one hbody⟩)))
    fun _ => .ite (fun _ => .fail hc₁ (P.here hword)) fun _ => .fail hc₁ hc₁.head.here)))

theorem parses_arithCommand (hparts : P.Reads parts) (hc : P.Points c) (hkind : c.head.kind = .arith) :
    P.Parses (arithCommand s parts) c fun x => x.nodes.All (Node.Stands P) := by
  refine .cur ((parses_lift (.words hc (yields_arithText hparts (has_arithStart hc.head hkind)))).bind ?_)
  refine fun r c₁ hc₁ hr => .next ?_
  cases r with
  | none => exact .fail hc₁.passed hc.head.here
  | some x => exact .pure hc₁.passed (all_mk.mpr ⟨stands_of_mark rfl (P.front (hc.head.own_arith hkind)), hr⟩)

-- Assignments.

theorem parses_element? (hparts : P.Reads parts) {start : Position} (hstart : P.Has start []) (c : Cursor)
    (hc : P.Points c) : P.Parses (element? s parts start) c fun r => ∀ w ∈ r, w.nodes.All (Node.Stands P) := by
  refine .newlines hc fun c₁ hc₁ => .cur ?_
  split
  · exact .next (.absent hc₁.passed)
  · rename_i hkind
    refine .scan (.wordOf hparts hc₁ (hc₁.head.own_word hkind)) fun w c₂ hc₂ hw => ?_
    exact .next (.found hc₂.passed hw)
  · exact .fail hc₁ hstart
  · exact .fail hc₁ hc₁.head.here

-- The front of an assignment, and the text that is left for its value.
structure Fronts (P : Places) (a : Assignment) (p : Position) (value : List Char) : Prop where
  name : P.Has a.pos a.name.toList
  index : AllOf (Node.Stands P) (optWordNodes a.index)
  bare : a.value = none ∧ a.array = none
  rest : P.Has p value

theorem Fronts.assignment {a b : Assignment} {p : Position} {cs : List Char} (h : P.Fronts a p cs)
    (hb : b.pos = a.pos ∧ b.name = a.name ∧ b.index = a.index) (hvalue : AllOf (Node.Stands P) (optWordNodes b.value))
    (harray : AllOf (Node.Stands P) (optArrayNodes b.array)) : b.nodes.All (Node.Stands P) := by
  obtain ⟨hpos, hname, hindex⟩ := hb
  rw [assignment_nodes_eq, hindex]
  refine all_mk.mpr ⟨stands_of_mark rfl ?_, allOf_append.mpr ⟨allOf_append.mpr ⟨h.index, hvalue⟩, harray⟩⟩
  change P.Has b.pos b.name.toList
  rw [hpos, hname]
  exact h.name

theorem yields_assignHead (hparts : P.Reads parts) {t : Token} (h : P.Has t.pos t.text.toList) :
    P.Yields (assignHead parts t) fun r => ∀ y ∈ r, P.Fronts y.1 y.2.1 y.2.2 := by
  unfold assignHead
  have hspan : t.text.toList = (t.text.toList.span Text.isNameChar).1 ++ (t.text.toList.span Text.isNameChar).2 :=
    (span_append _ _).symm
  generalize t.text.toList.span Text.isNameChar = r at hspan
  obtain ⟨name, rest⟩ := r
  dsimp only at hspan
  rw [hspan] at h
  dsimp -zeta only
  split
  · exact .absent
  · rename_i c cs
    refine .ite (fun _ => .absent) fun _ => ?_
    extract_lets p head
    have hrest : P.Has p rest := P.skip h
    have hhead : ∀ m ∈ head, P.Yields m fun r => AllOf (Node.Stands P) (optWordNodes r.1) ∧ P.Has r.2.1 r.2.2 := by
      dsimp only [head]
      split
      · split
        · rename_i inner _ index after hbracket
          obtain rfl := matchBracket?_eq hbracket
          rintro _ ⟨⟩
          refine (hparts.word .arith (P.front (P.tail hrest))).bind fun ps hps => .pure ⟨allOf_one hps, P.skip ?_⟩
          simpa using hrest
        · nofun
      · rintro _ ⟨⟩
        exact .pure ⟨allOf_nil, hrest⟩
    clear_value head
    cases head with
    | none => exact .absent
    | some m =>
      refine (hhead m rfl).bind fun r hr => ?_
      obtain ⟨index, q, after⟩ := r
      obtain ⟨hindex, hafter⟩ := hr
      dsimp only at hindex hafter ⊢
      have hname : P.Has t.pos (String.ofList (c :: cs)).toList := by
        rw [String.toList_ofList]
        exact P.front h
      split
      · exact .found ⟨hname, hindex, ⟨rfl, rfl⟩, P.tail (P.tail hafter)⟩
      · exact .found ⟨hname, hindex, ⟨rfl, rfl⟩, P.tail hafter⟩
      · exact .absent

theorem parses_assignment? (hparts : P.Reads parts) (hc : P.Points c) (hkind : c.head.kind = .word) :
    P.Parses (assignment? s parts) c fun r => ∀ a ∈ r, a.nodes.All (Node.Stands P) := by
  refine .cur ((parses_lift (.words hc (yields_assignHead hparts (hc.head.own_word hkind)))).bind fun r c₁ hc₁ hr => ?_)
  cases r with
  | none => exact .absent hc₁
  | some y =>
      obtain ⟨a, p, value⟩ := y
      have ha : P.Fronts a p value := hr _ rfl
      have hdone {b : Assignment} (hb : b.nodes.All (Node.Stands P)) (c₂ : Cursor) (hc₂ : P.Points c₂) :
          P.Parses (pure (some b)) c₂ fun r => ∀ a ∈ r, a.nodes.All (Node.Stands P) := .found hc₂ hb
      refine .next (.ite (fun _ => ?_) fun _ => .cur (.ite (fun hopen => ?_) fun _ => ?_))
      · refine (parses_lift (.words hc₁.passed (hparts.word .unquoted ha.rest))).bind
          fun ps c₂ hc₂ hps => hdone ?_ c₂ hc₂
        exact ha.assignment ⟨rfl, rfl, rfl⟩ (allOf_one hps) (by simp [ha.bare.2, optArrayNodes])
      · simp only [Bool.and_eq_true, beq_iff_eq] at hopen
        have hparen : P.Has c₁.passed.head.pos ['('] := hc₁.passed.head.own_kind hopen.1 rfl
        refine .scan (.warn hc₁.passed (P.here hparen)) fun _ c₂ hc₂ _ => .next ?_
        refine (Parses.many (parses_element? hparts (P.here hparen)) hc₂.passed).bind
          fun elems c₃ hc₃ helems => hdone ?_ c₃ hc₃
        refine ha.assignment ⟨rfl, rfl, rfl⟩ (by simp [ha.bare.1, optWordNodes]) ?_
        exact allOf_one (all_mk.mpr ⟨stands_of_mark rfl hparen, allOf_wordNodes helems⟩)
      · refine hdone (ha.assignment ⟨rfl, rfl, rfl⟩ ?_ ?_) _ hc₁.passed
        · simp [ha.bare.1, optWordNodes]
        · simp [ha.bare.2, optArrayNodes]

-- Simple commands, whose pieces are gathered one by one.

-- A word that is one literal text stands where this text does.
theorem has_lit {w : Word} (hw : w.nodes.All (Node.Stands P)) {lit : String} (hlit : w.lit? = some lit) :
    w = Word.empty ∧ lit = "" ∨ P.Has w.pos lit.toList := by
  obtain ⟨ps⟩ := w
  unfold Word.lit? at hlit
  split at hlit
  · rename_i hps
    cases hlit
    exact .inl ⟨congrArg Word.mk hps, rfl⟩
  · rename_i p value hps
    obtain rfl : ps = [.lit p value] := hps
    split at hlit
    · cases hlit
    · cases hlit
      have hpart := (allOf_cons.mp (all_mk.mp hw).2).1
      exact .inr ((WordPart.stands hpart).marks (p, lit.toList) (List.mem_singleton_self _))
  · cases hlit

theorem scans_declareOperands {operands : List (Word × Option Assignment)} {opts : List Word} {assigns : List Assignment}
    (static : Bool) (hc : P.Points c) (hoperands : AllOf (Node.Stands P) (operands.flatMap operandNodes))
    (hopts : AllOf (Node.Stands P) (wordNodes opts)) (hassigns : AllOf (Node.Stands P) (assignNodes assigns)) :
    P.Scans (declareOperands s operands opts assigns static) c fun r =>
      AllOf (Node.Stands P) (wordNodes r.1) ∧ AllOf (Node.Stands P) (assignNodes r.2.1) := by
  induction operands generalizing c opts assigns static with
  | nil => exact .pure hc ⟨(allOf_wordNodes_reverse _).mpr hopts, (allOf_assignNodes_reverse _).mpr hassigns⟩
  | cons o rest ih =>
      obtain ⟨w, a⟩ := o
      rw [List.flatMap_cons, allOf_append] at hoperands
      obtain ⟨ho, hrest⟩ := hoperands
      obtain ⟨hw, ha⟩ := allOf_cons.mp ho
      cases a with
      | some a => exact ih static hc hrest hopts (allOf_cons.mpr ⟨(allOf_cons.mp ha).1, hassigns⟩)
      | none =>
          unfold declareOperands
          split
          · rename_i lit hlit
            refine .ite (fun _ => ?_) fun _ => .ite (fun hname => ?_) fun _ => ih false hc hrest hopts hassigns
            · have hopts' : AllOf (Node.Stands P) (wordNodes (w :: opts)) := allOf_cons.mpr ⟨hw, hopts⟩
              have hopt (c₁ : Cursor) (hc₁ : P.Points c₁) := ih static hc₁ hrest hopts' hassigns
              refine .ite (fun hassoc => ?_) fun _ => hopt c hc
              rcases has_lit hw hlit with ⟨-, rfl⟩ | hhas
              · cases hassoc
              · exact (Scans.warn hc (P.here hhas)).bind fun _ c₁ hc₁ _ => hopt c₁ hc₁
            · rcases has_lit hw hlit with ⟨-, rfl⟩ | hhas
              · cases hname
              · refine ih static hc hrest hopts (allOf_cons.mpr ⟨?_, hassigns⟩)
                exact all_mk.mpr ⟨stands_of_mark rfl hhas, by simp [optWordNodes, optArrayNodes]⟩
          · exact ih false hc hrest hopts hassigns

theorem all_declare {name : Word} {opts : List Word} {assigns : List Assignment} {redirs : List Redirect}
    (hname : name.nodes.All (Node.Stands P))
    (h : AllOf (Node.Stands P) (wordNodes opts ++ assignNodes assigns ++ redirectNodes redirs)) :
    (Command.declare name.pos ((name.lit?).getD "") opts assigns redirs).nodes.All (Node.Stands P) := by
  refine all_mk.mpr ⟨stands_of_marked rfl fun hvalid => ?_, h⟩
  cases hlit : name.lit? with
  | none => exact (Word.stands hname).pos hvalid
  | some lit =>
      rcases has_lit hname hlit with ⟨rfl, -⟩ | hhas
      · exact absurd hvalid not_isValid_default
      · exact hhas

theorem all_simpleParts {sp : SimpleParts} (h : AllOf (Node.Stands P) sp.nodes) :
    (Command.simple sp.assigns.reverse sp.args.reverse sp.redirs.reverse).nodes.All (Node.Stands P) := by
  simp only [SimpleParts.nodes, allOf_append] at h
  refine Command.all_simple ?_
  simp only [allOf_append, allOf_assignNodes_reverse, allOf_wordNodes_reverse]
  exact ⟨h.1.1, h.2⟩

theorem parses_declaration {sp : SimpleParts} (variant : String) (hc : P.Points c)
    (h : AllOf (Node.Stands P) sp.nodes) :
    P.Parses (declaration s sp variant) c fun x => x.nodes.All (Node.Stands P) := by
  simp only [SimpleParts.nodes, allOf_append] at h
  obtain ⟨⟨⟨hassigns, hargs⟩, hoperands⟩, hredirs⟩ := h
  rw [← allOf_operandNodes_reverse] at hoperands
  refine .scan (scans_declareOperands _ hc hoperands allOf_nil allOf_nil) fun r c₁ hc₁ hr => ?_
  obtain ⟨opts, assigns, static⟩ := r
  extract_lets redirs name
  have hname : name.nodes.All (Node.Stands P) := by
    dsimp only [name]
    split
    · rename_i w hw
      rw [wordNodes_eq] at hargs
      exact List.forall_mem_map.mp hargs w (List.mem_of_getLast? hw)
    · exact all_word allOf_nil
  refine .ite (fun _ => .pure hc₁ (all_declare hname (allOf_append.mpr ⟨allOf_append.mpr hr, hredirs⟩))) fun _ => ?_
  split
  · rename_i w a hfind
    have ha := hoperands _ (List.mem_flatMap.mpr
      ⟨_, List.mem_of_find?_eq_some hfind, List.mem_cons_of_mem _ List.mem_cons_self⟩)
    exact .fail hc₁ (P.here ((Assignment.stands ha).marks _ List.mem_cons_self))
  · refine .pure hc₁ (Command.all_simple ?_)
    simp only [wordNodes_append, allOf_append, allOf_assignNodes_reverse, allOf_wordNodes_reverse]
    exact ⟨⟨hassigns, hargs, allOf_operandWords hoperands⟩, hredirs⟩

-- More of the command, or the command.
def Pieces (P : Places) (r : SimpleParts ⊕ Command) : Prop :=
  AllOf (Node.Stands P) (r.elim SimpleParts.nodes fun x => [x.nodes])

theorem parses_simpleTurn (hparts : P.Reads parts) (hinner : P.Inward inner) {sp : SimpleParts} (hc : P.Points c)
    (h : AllOf (Node.Stands P) sp.nodes) : P.Parses (simpleTurn s parts inner sp) c P.Pieces := by
  have hpieces := h
  simp only [SimpleParts.nodes, allOf_append] at hpieces
  obtain ⟨⟨⟨hassigns, hargs⟩, hoperands⟩, hredirs⟩ := hpieces
  refine .cur (.ite (fun _ => ?_) fun _ => .ite (fun hkind => ?_) fun _ => .ite (fun _ => .fail hc hc.head.here) fun _ => ?_)
  · refine (parses_redirect hparts hc).bind fun r c₁ hc₁ hr => .pure hc₁ ?_
    simp [Pieces, SimpleParts.nodes, hassigns, hargs, hoperands, hredirs, redirectNodes, hr]
  · have hword := hc.head.own_word (beq_iff_eq.mp hkind)
    extract_lets isFirst decl after
    have hafter (a : Option Assignment) (c₁ : Cursor) (hc₁ : P.Points c₁)
        (ha : ∀ b ∈ a, b.nodes.All (Node.Stands P)) : P.Parses (after a) c₁ P.Pieces := by
      cases a with
      | some a =>
          have ha := ha a rfl
          refine .ite (fun _ => ?_) fun _ => .pure hc₁ ?_
          · refine .scan (.wordOf hparts hc₁ hword) fun w c₂ hc₂ hw => .pure hc₂ ?_
            simp [Pieces, SimpleParts.nodes, hassigns, hargs, hoperands, hredirs, operandNodes, assignNodes, hw, ha]
          · simp [Pieces, SimpleParts.nodes, hassigns, hargs, hoperands, hredirs, assignNodes, ha]
      | none =>
          refine .scan (.wordOf hparts hc₁ hword) fun w c₂ hc₂ hw => .next ?_
          refine .ite (fun _ => .pure hc₂.passed ?_) fun _ => ?_
          · simp [Pieces, SimpleParts.nodes, hassigns, hargs, hoperands, hredirs, operandNodes, assignNodes, hw]
          · extract_lets go
            have hgo (c₃ : Cursor) (hc₃ : P.Points c₃) : P.Parses (go ()) c₃ P.Pieces := by
              refine .cur (.ite (fun _ => ?_) fun _ => .pure hc₃ ?_)
              · exact (parses_functionParens hparts hinner hword hc₃).bind fun x c₄ hc₄ hx => .pure hc₄ (allOf_one hx)
              · simp [Pieces, SimpleParts.nodes, hassigns, hargs, hoperands, hredirs, wordNodes, hw]
            refine .ite (fun _ => ?_) fun _ => hgo _ hc₂.passed
            exact .scan (.warn hc₂.passed hc.head.here) fun _ c₃ hc₃ _ => hgo c₃ hc₃
    refine .ite (fun _ => ?_) fun _ => hafter none c hc fun b hb => absurd hb (Option.not_mem_none b)
    exact (parses_assignment? hparts hc (beq_iff_eq.mp hkind)).bind hafter
  · split
    · exact (parses_declaration _ hc h).bind fun x c₁ hc₁ hx => .pure hc₁ (allOf_one hx)
    · exact .pure hc (allOf_one (all_simpleParts h))

theorem parses_simpleFor (hparts : P.Reads parts) (hinner : P.Inward inner) (n : Nat) {sp : SimpleParts} (hc : P.Points c)
    (h : AllOf (Node.Stands P) sp.nodes) :
    P.Parses (simpleFor s parts inner n sp) c fun x => x.nodes.All (Node.Stands P) := by
  induction n generalizing c sp with
  | zero => exact .pure hc (all_simpleParts h)
  | succ n ih =>
      refine (parses_simpleTurn hparts hinner hc h).bind fun r c₁ hc₁ hr => ?_
      cases r with
      | inl sp => exact ih hc₁ hr
      | inr x => exact .pure hc₁ (allOf_cons.mp hr).1

-- Tests.

theorem parses_testWords (hparts : P.Reads parts) {first : Token} (hfirst : P.Has first.pos first.text.toList)
    (hc : P.Points c) : P.Parses (testWords s parts first) c fun x => x.nodes.All (Node.Stands P) := by
  refine .next (.cur (.ite (fun hunary => ?_) fun _ => ?_))
  · simp only [Bool.and_eq_true, beq_iff_eq] at hunary
    refine .scan (.wordOf hparts hc.passed (hc.passed.head.own_word hunary.1.1.2)) fun w c₁ hc₁ hw => ?_
    refine .next (.pure hc₁.passed ?_)
    exact TestExpr.all_unary hfirst (TestExpr.all_word hw)
  · refine .scan (.wordOf hparts hc.passed hfirst) fun x c₁ hc₁ hx => ?_
    split
    · exact .pure hc₁ (TestExpr.all_word hx)
    · rename_i op hop
      have hop : P.Has c.passed.head.pos op.toList := by
        have ht := hc.passed.head
        unfold testOperator? at hop
        split at hop
        · rename_i hkind
          cases hop
          exact ht.own_kind hkind rfl
        · rename_i hkind
          cases hop
          exact ht.own_kind hkind rfl
        · rename_i hkind
          split at hop
          · cases hop
            exact ht.own_word hkind
          · cases hop
        · cases hop
      refine .next (.cur (.guard hc₁.passed hc₁.passed.head.here fun hoperand => ?_))
      have hkind : c₁.passed.head.kind = .word := by
        simp only [Bool.or_eq_true, not_or, bne_iff_ne, Classical.not_not] at hoperand
        exact hoperand.1
      refine .scan (.wordOf hparts hc₁.passed (hc₁.passed.head.own_word hkind)) fun y c₂ hc₂ hy => ?_
      refine .next (.pure hc₂.passed ?_)
      exact TestExpr.all_binary hop (TestExpr.all_word hx) (TestExpr.all_word hy)

section Chains

variable {op : Token.Kind} {operand : Parse TestExpr}

theorem parses_testLink? (hop : op.isOperator = true)
    (hoperand : ∀ c, P.Points c → P.Parses operand c fun x => x.nodes.All (Node.Stands P)) (c : Cursor) (hc : P.Points c) :
    P.Parses (testLink? op operand) c fun r => ∀ y ∈ r, P.Has y.1 op.text.toList ∧ y.2.nodes.All (Node.Stands P) := by
  refine .cur (.ite (fun hkind => .next (.newlines hc.passed fun c₁ hc₁ => ?_)) fun _ => .absent hc)
  have hkind : c.head.kind = op := beq_iff_eq.mp hkind
  refine (hoperand c₁ hc₁).bind fun y c₂ hc₂ hy => .found hc₂ ?_
  exact ⟨hc.head.own_kind hkind (by simp [hop]), hy⟩

theorem parses_testChain (hop : op.isOperator = true)
    (hoperand : ∀ c, P.Points c → P.Parses operand c fun x => x.nodes.All (Node.Stands P)) (c : Cursor) (hc : P.Points c) :
    P.Parses (testChain op operand) c fun x => x.nodes.All (Node.Stands P) := by
  refine (hoperand c hc).bind fun x c₁ hc₁ hx => ?_
  refine (Parses.many (parses_testLink? hop hoperand) hc₁).bind fun ys c₂ hc₂ hys => .pure hc₂ ?_
  induction ys generalizing x with
  | nil => exact hx
  | cons y ys ih =>
      obtain ⟨hy, hys⟩ := List.forall_mem_cons.mp hys
      exact ih _ (TestExpr.all_binary hy.1 hx hy.2) hys

end Chains

theorem parses_testOperand (hparts : P.Reads parts) (n : Nat) (c : Cursor) (hc : P.Points c) :
    P.Parses (testOperand s parts n) c fun x => x.nodes.All (Node.Stands P) := by
  induction n generalizing c with
  | zero => exact ⟨nofun, hc⟩
  | succ n ih =>
      refine .cur (.ite (fun hnot => .next ?_) fun _ => .ite (fun hopen => .next ?_) fun _ => ?_)
      · simp only [Bool.and_eq_true, beq_iff_eq] at hnot
        have hword := hc.head.own_word hnot.1.1
        rw [hnot.1.2] at hword
        exact (ih _ hc.passed).bind fun x c₁ hc₁ hx => .pure hc₁ (TestExpr.all_unary hword hx)
      · have hkind : c.head.kind = .lparen := beq_iff_eq.mp hopen
        have hparen : P.Has c.head.pos ['('] := hc.head.own_kind hkind rfl
        refine (parses_testChain rfl (parses_testChain rfl ih) _ hc.passed).bind fun x c₁ hc₁ hx => .cur ?_
        exact .guard hc₁ hc₁.head.here fun _ => .next (.pure hc₁.passed (TestExpr.all_paren hparen hx))
      · refine .ite (fun _ => .fail hc hc.head.here) fun hword => parses_testWords hparts (hc.head.own_word ?_) hc
        simp only [Bool.or_eq_true, not_or, bne_iff_ne, Classical.not_not] at hword
        exact hword.1

theorem parses_testClause (hparts : P.Reads parts) (hc : P.Points c) (hword : P.Has c.head.pos "[[".toList) :
    P.Parses (testClause s parts) c fun x => x.nodes.All (Node.Stands P) := by
  have hstart := P.here hword
  refine .cur (.scan (.warn hc hstart) fun _ c₁ hc₁ _ => .next (.cur (.guard hc₁.passed hstart fun _ => ?_)))
  refine .left fun n => ?_
  have hterm (c : Cursor) (hc : P.Points c) : P.Parses (testChain .and (testOperand s parts n)) c
      fun x => x.nodes.All (Node.Stands P) := parses_testChain rfl (parses_testOperand hparts n) c hc
  refine (parses_testChain rfl hterm _ hc₁.passed).bind fun x c₂ hc₂ hx => ?_
  refine (parses_expect hc₂ hstart).bind fun _ c₃ hc₃ _ => .pure hc₃ ?_
  exact all_mk.mpr ⟨stands_of_mark rfl hword, allOf_one hx⟩

end Commands

-- Whole texts.

section Texts

variable {s : Setting} {parts : PartsReader} {nested : Nested} {inner : Inner} {cmd : Parse Command}

theorem parses_command (hparts : P.Reads parts) (hinner : P.Inward inner) (c : Cursor) (hc : P.Points c) :
    P.Parses (command s parts inner) c fun x => x.nodes.All (Node.Stands P) := by
  have hredirs {m : Parse Command} (hm : P.Parses m c fun x => x.nodes.All (Node.Stands P)) :
      P.Parses (m >>= withRedirects s parts) c fun x => x.nodes.All (Node.Stands P) :=
    hm.bind fun x c₁ hc₁ hx => parses_withRedirects hparts hx hc₁
  refine .cur (.ite (fun hkeyword => ?_) fun _ => .ite (fun hopen => ?_) fun _ => .ite (fun harith => ?_) fun _ =>
    .ite (fun _ => parses_simpleFor hparts hinner _ hc allOf_nil) fun _ => .fail hc hc.head.here)
  · have hword : P.Has c.head.pos c.head.text.toList := by
      simp only [Bool.and_eq_true, beq_iff_eq] at hkeyword
      exact hc.head.own_word hkeyword.1
    split
    · exact hredirs (parses_ifClause hinner hc (by rwa [‹c.head.text = _›] at hword))
    · exact hredirs (parses_whileClause hinner hc (by rwa [‹c.head.text = _›] at hword ⊢))
    · exact hredirs (parses_whileClause hinner hc (by rwa [‹c.head.text = _›] at hword ⊢))
    · exact hredirs (parses_forClause hparts hinner hc (by rwa [‹c.head.text = _›] at hword))
    · exact hredirs (parses_selectClause hparts hinner hc (by rwa [‹c.head.text = _›] at hword))
    · exact hredirs (parses_caseClause hparts hinner hc (by rwa [‹c.head.text = _›] at hword))
    · exact hredirs (parses_functionKeyword hparts hinner hc (by rwa [‹c.head.text = _›] at hword))
    · exact hredirs (parses_group hinner hc (by rwa [‹c.head.text = _›] at hword))
    · exact hredirs (parses_testClause hparts hc (by rwa [‹c.head.text = _›] at hword))
    · exact .stop hc hc.head.here
  · exact hredirs (parses_subshell hinner hc (hc.head.own_kind (beq_iff_eq.mp hopen) rfl))
  · exact hredirs (parses_arithCommand hparts hc (beq_iff_eq.mp harith))

section Lists

variable (hcmd : ∀ c, P.Points c → P.Parses cmd c fun x => x.nodes.All (Node.Stands P))

include hcmd

theorem parses_stage? (c : Cursor) (hc : P.Points c) :
    P.Parses (stage? cmd) c fun r => ∀ y ∈ r, y.2.nodes.All (Node.Stands P) := by
  refine .cur (.ite (fun _ => .next (.newlines hc.passed fun c₁ hc₁ => ?_)) fun _ => .absent hc)
  exact (hcmd c₁ hc₁).bind fun x c₂ hc₂ hx => .found hc₂ hx

theorem parses_pipeline (c : Cursor) (hc : P.Points c) :
    P.Parses (pipeline cmd) c fun x => x.nodes.All (Node.Stands P) := by
  refine .cur ?_
  extract_lets negated after
  have hafter (c₁ : Cursor) (hc₁ : P.Points c₁) : P.Parses (after ()) c₁ fun x => x.nodes.All (Node.Stands P) := by
    refine (hcmd c₁ hc₁).bind fun x c₂ hc₂ hx => ?_
    refine (Parses.many (parses_stage? hcmd) hc₂).bind fun rest c₃ hc₃ hrest => ?_
    refine .ite (fun _ => .pure hc₃ hx) fun _ => .pure hc₃ ?_
    refine Command.all_pipeline (fun hnegated => ?_) (allOf_cons.mpr ⟨hx, ?_⟩)
    · rw [if_pos hnegated]
      exact has_keyword hc.head hnegated
    · rw [commandNodes_eq, List.map_map]
      exact List.forall_mem_map.mpr hrest
  exact .ite (fun _ => .next (hafter _ hc.passed)) fun _ => hafter _ hc

theorem parses_link? (c : Cursor) (hc : P.Points c) :
    P.Parses (link? cmd) c fun r => ∀ y ∈ r, P.Has y.1 y.2.1.text.toList ∧ y.2.2.nodes.All (Node.Stands P) := by
  refine .cur (.ite (fun hkind => .next (.newlines hc.passed fun c₁ hc₁ => ?_)) fun _ => .absent hc)
  refine (parses_pipeline hcmd c₁ hc₁).bind fun x c₂ hc₂ hx => .found hc₂ ⟨?_, hx⟩
  simp only [Bool.or_eq_true, beq_iff_eq] at hkind
  rcases hkind with hkind | hkind
  · have hsign := hc.head.own_kind hkind rfl
    rwa [hkind]
  · have hsign := hc.head.own_kind hkind rfl
    rwa [hkind]

theorem parses_andOr (c : Cursor) (hc : P.Points c) :
    P.Parses (andOr cmd) c fun x => x.nodes.All (Node.Stands P) := by
  refine (parses_pipeline hcmd c hc).bind fun x c₁ hc₁ hx => ?_
  refine (Parses.many (parses_link? hcmd) hc₁).bind fun links c₂ hc₂ hlinks => .pure hc₂ ?_
  induction links generalizing x with
  | nil => exact hx
  | cons link links ih =>
      obtain ⟨hlink, hlinks⟩ := List.forall_mem_cons.mp hlinks
      exact ih _ (Command.all_andOr hlink.1 hx hlink.2) hlinks

omit hcmd in
theorem scans_recover {c : Cursor} (hc : P.Points c) : P.Scans recover c fun _ => True := by
  have hturn (c : Cursor) (hc : P.Points c) : P.Scans skipped? c fun r => ∀ _ ∈ r, True :=
    .cur (.ite (fun _ => .absent hc) fun _ => .ite (fun _ => .next (.absent hc.passed)) fun _ =>
      .ite (fun _ => .absent hc) fun _ => .next (.pure hc.passed fun _ _ => trivial))
  exact ⟨trivial, (Scans.listFor hturn (c.passed.toks.length + 1) hc.passed).2⟩

theorem scans_item? (stop : Token → Bool) (c : Cursor) (hc : P.Points c) :
    P.Scans (item? s cmd stop) c fun r => ∀ x ∈ r, ∀ y ∈ x, y.nodes.All (Node.Stands P) := by
  refine (Scans.skipNewlines hc).bind fun _ c₁ hc₁ _ => .cur (.ite (fun _ => .absent hc₁) fun _ => ?_)
  refine Scans.bind (parses_andOr hcmd c₁ hc₁) fun r c₂ hc₂ hr => ?_
  cases r with
  | none =>
      refine (scans_recover hc₂).bind fun _ c₃ hc₃ _ => .pure hc₃ ?_
      rintro _ ⟨⟩
      nofun
  | some x =>
      have hx : x.nodes.All (Node.Stands P) := hr x rfl
      refine .cur ?_
      extract_lets y after
      have hafter (c₃ : Cursor) (hc₃ : P.Points c₃) :
          P.Scans (after ()) c₃ fun r => ∀ x ∈ r, ∀ y ∈ x, y.nodes.All (Node.Stands P) := by
        refine .pure hc₃ ?_
        rintro _ ⟨⟩ _ ⟨⟩
        dsimp only [y]
        split
        · exact Command.all_background hx
        · exact hx
      refine .ite (fun _ => .next (hafter _ hc₂.passed)) fun _ => .ite (fun _ => hafter _ hc₂) fun _ => ?_
      refine (Scans.words hc₂ (Yields.report hc₂.head.here _)).bind fun _ c₃ hc₃ _ => ?_
      exact (scans_recover hc₃).bind fun _ c₄ hc₄ _ => hafter _ hc₄

theorem scans_block (stop : Token → Bool) (c : Cursor) (hc : P.Points c) :
    P.Scans (block s cmd stop) c fun b => b.nodes.All (Node.Stands P) := by
  refine .cur (Scans.left fun n => ?_)
  refine (Scans.listFor (scans_item? hcmd stop) n hc).bind fun items c₁ hc₁ hitems => .pure hc₁ ?_
  refine all_block (fun _ => hc.head.here) ?_
  rw [commandNodes_eq]
  refine List.forall_mem_map.mpr fun x hx => ?_
  obtain ⟨_, hmem, rfl⟩ := List.mem_filterMap.mp hx
  exact hitems _ hmem x rfl

end Lists

theorem all_noBlock : (default : Block).nodes.All (Node.Stands P) :=
  all_block (fun hvalid => absurd hvalid not_isValid_default) allOf_nil

theorem inward_inner (hparts : P.Reads parts) (n : Nat) : P.Inward (Read.inner s parts n) := by
  induction n with
  | zero => exact ⟨fun _ _ hc => .pure hc all_noBlock, fun _ hc => ⟨nofun, hc⟩⟩
  | succ n ih => exact ⟨scans_block (parses_command hparts ih), parses_command hparts ih⟩

theorem points_startOf (s : Setting) {p : Position} {cs : List Char} (h : P.Has p cs) :
    P.Points (startOf (scanned s p cs).1) := by
  obtain ⟨htokens, hchain, -⟩ := Token.scanText_stands s.dialect s.file h
  have hsuffix := significant_suffix 0 (scanned s p cs).1
  exact ⟨(endsText_of_layout (Token.layout_scanText _ _ _ _)).significant 0, fun t ht => htokens t (hsuffix.subset ht),
    hchain.suffix hsuffix, P.told_empty⟩

theorem blockOf_stands (hparts : P.Reads parts) {c : Cursor} (hc : P.Points c) :
    (blockOf s parts c).1.nodes.All (Node.Stands P) ∧ P.Points (blockOf s parts c).2 :=
  scans_block (parses_command hparts (inward_inner hparts c.toks.length)) (fun _ => false) c hc

-- A text's tree stands where it says, and so does what is wrong with it.
theorem textAt_stands (hparts : P.Reads parts) {p : Position} {cs : List Char} (h : P.Has p cs) :
    (textAt s parts p cs).1.nodes.All (Node.Stands P) ∧ P.Told (textAt s parts p cs).2.toArray := by
  obtain ⟨hblock, hpoints⟩ := blockOf_stands (s := s) hparts (points_startOf s h)
  rw [textAt_eq]
  refine ⟨hblock, fun d hd => ?_⟩
  simp only [List.mem_toArray, mem_settle, List.mem_append] at hd
  rcases hd with hd | hd
  · exact (Token.scanText_stands s.dialect s.file h).2.2 d (List.mem_toArray.mpr hd)
  · exact hpoints.told d (Array.mem_toList_iff.mp hd)

theorem nests_nested (s : Setting) (n : Nat) : P.Nests (Read.nested s n) := by
  induction n with
  | zero => exact ⟨fun _ _ _ _ => .pure allOf_nil, fun _ _ _ => .pure all_noBlock⟩
  | succ n ih =>
      refine ⟨reads_parts ih, fun p cs h ds hds => ?_⟩
      obtain ⟨hblock, htold⟩ := textAt_stands (s := s) (reads_parts (s := s) ih) h
      rw [run_nested_block]
      exact ⟨hblock, hds.append htold⟩

end Texts

end Places

namespace Script

open Read

attribute [local irreducible] textAt

section Files

variable {P : Places} {src : String}

theorem readAs_stands (d : Dialect) (name : String) (h : P.Has Position.start src.toList) :
    (readAs d name src).body.nodes.All (Node.Stands P) ∧ P.Told (readAs d name src).found.toArray := by
  have hparts : P.Reads (parts ⟨d, name⟩ (nested ⟨d, name⟩ (src.toList.length + 1))) :=
    Places.reads_parts (Places.nests_nested _ _)
  exact Places.textAt_stands hparts h

-- A script in a shell that cannot be read is reported at its beginning.
theorem read_stands (dialect : Option Dialect) (name : String) (h : P.Has Position.start src.toList) :
    (read dialect name src).body.nodes.All (Node.Stands P) ∧ P.Told (read dialect name src).found.toArray := by
  unfold read
  split
  · exact readAs_stands _ _ h
  · split
    · exact readAs_stands _ _ h
    · refine ⟨all_block (fun _ => P.here h) allOf_nil, fun d hd => ?_⟩
      obtain rfl := List.mem_singleton.mp (List.mem_toArray.mp hd)
      exact ⟨Position.start, P.here h, rfl, rfl⟩

end Files

open Source (ofText)

-- Places compose at any depth, the newlines before an offset tell its line, and so every node of a script stands where it
-- says, and everything is reported at a place of the script. The exceptions are the texts that the script does not have as
-- they are read: bodies of backquoted commands without their backslashes and of here-documents without their tabs.
theorem places_of_read (text : List Char) (base : Position) (dialect : Option Dialect) (name src : String) :
    (∀ k s, Source.Within (ofText text base) k s →
        ∀ j ≤ s.text.length, s.posAt j = (ofText text base).posAt (k + j)) ∧
      (∀ i, ((ofText text base).posAt i).line = (Source.origin base).line + (text.take i).count '\n') ∧
      let P := Source.places src.toList Position.start rfl
      (∀ n ∈ (read dialect name src).body.nodes.preorder, n.Stands P) ∧
        (∀ d ∈ (read dialect name src).diags, ∃ p, P.Has p [] ∧ d.line = p.line ∧ d.column = p.column) ∧
        ((Text.backquote ∉ src.toList ∨ '\\' ∉ src.toList) → ¬['<', '<'] <:+: src.toList →
          ∀ p cs, P.Has p cs ↔ (ofText src.toList Position.start).Holds p cs) := by
  refine ⟨fun _ _ h _ hj => Source.posAt_within h hj, Source.line_posAt text base, ?_⟩
  intro P
  have hwhole : P.Has Position.start src.toList :=
    .inl ((Source.holds_iff rfl).mpr ⟨[], [], (List.append_nil _).symm, rfl⟩)
  obtain ⟨hnodes, htold⟩ := read_stands dialect name hwhole
  refine ⟨hnodes, fun d hd => ?_, fun hback hdoc p cs => ⟨fun h => ?_, .inl⟩⟩
  · obtain ⟨e, he, rfl⟩ := List.mem_map.mp hd
    exact htold e (List.mem_toArray.mpr he)
  · exact h.resolve_right (Source.not_rewritten rfl hback hdoc)

-- A piece that begins in the middle of a line and goes on to the next one, and a command and an error inside a substitution.
theorem places_of_read_inside :
    let s := ofText ['a', 'b', '\n', 'c', 'd'] Position.start
    let f := ofText "$(\n a; ;)".toList Position.start
    ((s.slice 1 5).slice 1 3).posAt 1 = s.posAt 3 ∧ f.Holds ⟨4, 2, 2⟩ ['a'] ∧
      ∃ p, f.Holds p [] ∧ p.line = 2 ∧ p.column = 5 := by
  intro s f
  obtain ⟨hcompose, -, hnodes, hdiags, hsame⟩ :=
    places_of_read ['a', 'b', '\n', 'c', 'd'] Position.start (some .bash) "t" "$(\n a; ;)"
  have hholds := hsame (.inl (by decide +kernel)) (by decide +kernel)
  refine ⟨?_, ?_, ?_⟩
  · have h : Source.Within s (0 + 1 + 1) ((s.slice 1 5).slice 1 3) :=
      .slice (.slice .whole (by decide) (by decide)) (by decide) (by decide)
    exact hcompose _ _ h 1 (by decide)
  · have hname : ∃ n ∈ (read (some .bash) "t" "$(\n a; ;)").body.nodes.preorder,
        ∃ m ∈ n.marks, m = (⟨4, 2, 2⟩, ['a']) := by decide +kernel
    obtain ⟨n, hn, _, hmark, rfl⟩ := hname
    exact (hholds _ _).mp ((hnodes n hn).marks _ hmark)
  · have herror : ∃ d ∈ (read (some .bash) "t" "$(\n a; ;)").diags, d.line = 2 ∧ d.column = 5 := by decide +kernel
    obtain ⟨d, hd, hline, hcolumn⟩ := herror
    obtain ⟨p, hp, hpline, hpcolumn⟩ := hdiags d hd
    refine ⟨p, (hholds _ _).mp hp, ?_, ?_⟩
    · exact_mod_cast hpline.symm.trans hline
    · exact_mod_cast hpcolumn.symm.trans hcolumn

-- Behind a backslash that is taken from a backquoted command, a place lies too far to the left.
example :
    let src := "`: x\\$; a`"
    (∃ n ∈ (read (some .bash) "t" src).body.nodes.preorder, ∃ m ∈ n.marks, m = (⟨7, 1, 8⟩, ['a'])) ∧
      src.toList[7]? = some ' ' ∧ src.toList[8]? = some 'a' := by
  decide +kernel

end Script
end ShellScript

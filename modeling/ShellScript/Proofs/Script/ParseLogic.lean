import ShellScript.Proofs.Script.CursorPath

-- What a reader of commands leaves behind it: tokens that it has taken, nodes that it has built, and here-documents that it
-- has handed to the redirections that announce them. The rules follow the ways in which readers are put together.
namespace ShellScript
namespace Script
namespace Read

open Cursor (Ready Aligned Handed IsPlain)

-- The here-documents are told apart only if they are followed.
def View.Tracks (v : View) (c : Cursor) : Prop := v.watch = .hereDocs → Aligned none c

-- From one cursor to another at least `n` tokens are taken and the nodes `ts` are built.
structure Leads (v : View) (n : Nat) (c₀ c : Cursor) (ts : List NodeTree) : Prop where
  ready : c.Ready v.size
  taken : c.toks.length + n ≤ c₀.toks.length
  calm : v.Calm c.diags → v.Calm c₀.diags
  followed : v.Calm c.diags → v.Tracks c₀ →
    v.Tracks c ∧ AllOf v.Good ts ∧ (v.watch = .hereDocs → Handed c₀ c (hereDocsOf ts))

-- A reader that fails has reported an error.
structure Failed (v : View) (c₀ c : Cursor) : Prop where
  ready : c.Ready v.size
  taken : c.toks.length ≤ c₀.toks.length
  lost : v.Calm c.diags → v.watch = .shape

section Paths

variable {v : View} {n k : Nat} {c₀ c c' : Cursor} {ts us : List NodeTree}

theorem Leads.start (h : c.Ready v.size) : Leads v 0 c c [] :=
  ⟨h, Nat.le_refl _, id, fun _ htracks => ⟨htracks, allOf_nil, fun _ => .refl c⟩⟩

theorem Leads.trans (h : Leads v n c₀ c ts) (h' : Leads v k c c' us) : Leads v (n + k) c₀ c' (ts ++ us) := by
  refine ⟨h'.ready, ?_, h.calm ∘ h'.calm, fun hcalm htracks => ?_⟩
  · have htaken := h.taken
    have htaken' := h'.taken
    omega
  · obtain ⟨htracks, hts, hdocs⟩ := h.followed (h'.calm hcalm) htracks
    obtain ⟨htracks', hus, hdocs'⟩ := h'.followed hcalm htracks
    refine ⟨htracks', allOf_append.mpr ⟨hts, hus⟩, fun hw => ?_⟩
    rw [hereDocsOf_append]
    exact (hdocs hw).trans (hdocs' hw)

-- The nodes that are built are put below others.
theorem Leads.build (h : Leads v n c₀ c ts) (hk : k ≤ n) (hgood : AllOf v.Good ts → AllOf v.Good us)
    (hdocs : hereDocsOf us = hereDocsOf ts) : Leads v k c₀ c us := by
  refine ⟨h.ready, Nat.le_trans (Nat.add_le_add_left hk _) h.taken, h.calm, fun hcalm htracks => ?_⟩
  obtain ⟨htracks, hts, hhanded⟩ := h.followed hcalm htracks
  refine ⟨htracks, hgood hts, ?_⟩
  rw [hdocs]
  exact hhanded

theorem Leads.length_le (h : Leads v n c₀ c ts) : c.toks.length ≤ c₀.toks.length :=
  Nat.le_of_add_right_le h.taken

theorem Leads.lt (h : Leads v (n + 1) c₀ c ts) : c.toks.length < c₀.toks.length := by
  have htaken := h.taken
  omega

theorem Leads.failed (h : Leads v n c₀ c ts) (h' : Failed v c c') : Failed v c₀ c' :=
  ⟨h'.ready, Nat.le_trans h'.taken h.length_le, h'.lost⟩

-- After a failure nothing is followed but the shape.
theorem Failed.leads (h : Failed v c₀ c) (htaken : c.toks.length + n ≤ c₀.toks.length) : Leads v n c₀ c [] := by
  refine ⟨h.ready, htaken, fun hcalm => ?_, fun hcalm _ => ?_⟩
  · have hw := h.lost hcalm
    unfold View.Calm
    rw [hw]
    trivial
  · have hw := h.lost hcalm
    refine ⟨fun hw' => ?_, allOf_nil, fun hw' => ?_⟩
    · rw [hw] at hw'
      cases hw'
    · rw [hw] at hw'
      cases hw'

-- The token under the cursor is passed.
theorem Leads.pass (h : Leads v n c₀ c ts) {kind : Token.Kind} (hkind : c.head.kind = kind)
    (hplain : (kind != .eof && kind != .dless && kind != .dlessDash) = true) : Leads v (n + 1) c₀ c.passed ts := by
  simp only [Bool.and_eq_true, bne_iff_ne, ← hkind] at hplain
  obtain ⟨⟨heof, hdless⟩, hdash⟩ := hplain
  have hplain : IsPlain c.head := ⟨hdless, hdash⟩
  obtain ⟨hready, -, htaken⟩ := h.ready.passed
  refine ⟨hready, ?_, ?_, ?_⟩
  · have hlen := h.taken
    have hlen' := htaken heof
    omega
  · rw [c.passed_diags]
    exact h.calm
  · rw [c.passed_diags]
    intro hcalm htracks
    obtain ⟨htracks, hts, hdocs⟩ := h.followed hcalm htracks
    refine ⟨fun hw => ?_, hts, fun hw => ?_⟩
    · exact (Cursor.keeps_passed (htracks hw) h.ready.ends hplain).aligned
    · have hkeeps := Cursor.keeps_passed (htracks hw) h.ready.ends hplain
      have hhanded := (hdocs hw).trans (.of_keeps hkeeps)
      rwa [List.append_nil] at hhanded

theorem Leads.pass_or (h : Leads v n c₀ c ts) {k k' : Token.Kind} (hkind : (c.head.kind == k || c.head.kind == k') = true)
    (hplain : (k != .eof && k != .dless && k != .dlessDash) = true)
    (hplain' : (k' != .eof && k' != .dless && k' != .dlessDash) = true) : Leads v (n + 1) c₀ c.passed ts := by
  rcases Bool.or_eq_true_iff.mp hkind with hkind | hkind
  · exact h.pass (beq_iff_eq.mp hkind) hplain
  · exact h.pass (beq_iff_eq.mp hkind) hplain'

theorem Failed.passed (h : Failed v c₀ c) : Failed v c₀ c.passed := by
  obtain ⟨hready, hlen, -⟩ := h.ready.passed
  refine ⟨hready, Nat.le_trans hlen h.taken, ?_⟩
  rw [c.passed_diags]
  exact h.lost

-- Reading words changes nothing but the diagnostics.
theorem Leads.reported (h : Leads v n c₀ c ts) {ds : Array Diagnostic.OfText} {p : Prop}
    (hds : v.Calm ds → v.Calm c.diags ∧ p) (hgood : p → AllOf v.Good us) (hdocs : hereDocsOf us = []) :
    Leads v n c₀ { c with diags := ds } (ts ++ us) := by
  refine ⟨⟨h.ready.ends, h.ready.text_le⟩, h.taken, fun hcalm => h.calm (hds hcalm).1, fun hcalm htracks => ?_⟩
  obtain ⟨hcalm, hp⟩ := hds hcalm
  obtain ⟨htracks, hts, hhanded⟩ := h.followed hcalm htracks
  refine ⟨htracks, allOf_append.mpr ⟨hts, hgood hp⟩, ?_⟩
  rw [hereDocsOf_append, hdocs, List.append_nil]
  exact hhanded

theorem failed_error (hready : c.Ready v.size) (hlen : c.toks.length ≤ c₀.toks.length) (p : Position) (message : String) :
    Failed v c₀ { c with diags := c.diags.push (v.setting.syntaxError p message) } := by
  refine ⟨⟨hready.ends, hready.text_le⟩, hlen, fun hcalm => ?_⟩
  unfold View.Calm at hcalm
  cases hw : v.watch with
  | sameness =>
      rw [hw] at hcalm
      exact hcalm.elim
  | shape => rfl
  | hereDocs =>
      rw [hw] at hcalm
      exact nomatch (Diagnostic.harmless_of_push hcalm).2

end Paths

-- Two runs from a cursor: they are the same, and their result is like `Q`.
def Runs {α : Type} (m m' : Scanning α) (c : Cursor) (Q : α → Cursor → Prop) : Prop :=
  m.run c = m'.run c ∧ Q (m.run c).1 (m.run c).2

namespace Runs

variable {α β : Type} {m m' : Scanning α} {f f' : α → Scanning β} {c : Cursor} {Q Q' : α → Cursor → Prop}
  {R : β → Cursor → Prop}

theorem pure {a : α} (h : Q a c) : Runs (Pure.pure a) (Pure.pure a) c Q := ⟨rfl, h⟩

theorem bind (hm : Runs m m' c Q) (hf : ∀ a c', Q a c' → Runs (f a) (f' a) c' R) : Runs (m >>= f) (m' >>= f') c R := by
  obtain ⟨hsame, hq⟩ := hm
  obtain ⟨hsame', hr⟩ := hf _ _ hq
  refine ⟨?_, hr⟩
  change (f (m.run c).1).run (m.run c).2 = (f' (m'.run c).1).run (m'.run c).2
  rw [← hsame]
  exact hsame'

theorem mono (h : Runs m m' c Q) (hq : ∀ a c', Q a c' → Q' a c') : Runs m m' c Q' := ⟨h.1, hq _ _ h.2⟩

theorem ite {p : Prop} [Decidable p] {n n' : Scanning α} (h : p → Runs m m' c Q) (h' : ¬p → Runs n n' c Q) :
    Runs (if p then m else n) (if p then m' else n') c Q := by
  split
  · exact h ‹_›
  · exact h' ‹_›

theorem cur {f f' : Token → Scanning β} (h : Runs (f c.head) (f' c.head) c R) :
    Runs (Read.cur >>= f) (Read.cur >>= f') c R := h

theorem next {f f' : Unit → Scanning β} (h : Runs (f ()) (f' ()) c.passed R) :
    Runs (Read.next >>= f) (Read.next >>= f') c R := h

theorem left {f f' : Nat → Scanning β} (h : Runs (f (c.toks.length + 1)) (f' (c.toks.length + 1)) c R) :
    Runs (Read.left >>= f) (Read.left >>= f') c R := h

end Runs

-- Two runs of a reader that can fail. What it leaves behind is told from the cursor `c₀` on.
def Parses {α : Type} (v : View) (c₀ : Cursor) (m m' : Parse α) (c : Cursor) (Q : α → Cursor → Prop) : Prop :=
  Runs m.run m'.run c fun r c' => match r with
    | some a => Q a c'
    | none => Failed v c₀ c'

namespace Parses

variable {α β : Type} {v : View} {n k : Nat} {c₀ c : Cursor} {ts : List NodeTree} {m m' : Parse α} {f f' : α → Parse β}
  {Q Q' : α → Cursor → Prop} {R : β → Cursor → Prop}

theorem pure {a : α} (h : Q a c) : Parses v c₀ (Pure.pure a) (Pure.pure a) c Q := ⟨rfl, h⟩

theorem seq (hm : Parses v c₀ m m' c Q) (hf : ∀ a c', Q a c' → Parses v c₀ (f a) (f' a) c' R) :
    Parses v c₀ (m >>= f) (m' >>= f') c R := by
  unfold Parses
  rw [OptionT.run_bind, OptionT.run_bind]
  refine Runs.bind hm fun r c' hr => ?_
  cases r with
  | none => exact .pure hr
  | some a => exact hf a c' hr

theorem mono (h : Parses v c₀ m m' c Q) (hq : ∀ a c', Q a c' → Q' a c') : Parses v c₀ m m' c Q' :=
  Runs.mono h fun r _ hr => match r with
    | some a => hq a _ hr
    | none => hr

-- What is told from a later cursor is told from an earlier one.
theorem since (h : Leads v n c₀ c ts) (hm : Parses v c m m' c Q) : Parses v c₀ m m' c Q :=
  Runs.mono hm fun r _ hr => match r with
    | some _ => hr
    | none => h.failed hr

theorem bind (h : Leads v n c₀ c ts) (hm : Parses v c m m' c Q)
    (hf : ∀ a c', Q a c' → Parses v c₀ (f a) (f' a) c' R) : Parses v c₀ (m >>= f) (m' >>= f') c R :=
  seq (since h hm) hf

theorem ite {p : Prop} [Decidable p] {n n' : Parse α} (h : p → Parses v c₀ m m' c Q)
    (h' : ¬p → Parses v c₀ n n' c Q) : Parses v c₀ (if p then m else n) (if p then m' else n') c Q := by
  split
  · exact h ‹_›
  · exact h' ‹_›

theorem scan {m m' : Scanning α} (hm : Runs m m' c Q) (hf : ∀ a c', Q a c' → Parses v c₀ (f a) (f' a) c' R) :
    Parses v c₀ (liftM m >>= f) (liftM m' >>= f') c R := by
  obtain ⟨hsame, hq⟩ := hm
  obtain ⟨hsame', hr⟩ := hf _ _ hq
  refine ⟨?_, hr⟩
  change ((f (m.run c).1).run.run (m.run c).2) = ((f' (m'.run c).1).run.run (m'.run c).2)
  rw [← hsame]
  exact hsame'

theorem cur {f f' : Token → Parse β} (h : Parses v c₀ (f c.head) (f' c.head) c R) :
    Parses v c₀ (liftM Read.cur >>= f) (liftM Read.cur >>= f') c R := h

theorem next {f f' : Unit → Parse β} (h : Parses v c₀ (f ()) (f' ()) c.passed R) :
    Parses v c₀ (liftM Read.next >>= f) (liftM Read.next >>= f') c R := h

theorem left {f f' : Nat → Parse β} (h : Parses v c₀ (f (c.toks.length + 1)) (f' (c.toks.length + 1)) c R) :
    Parses v c₀ (liftM Read.left >>= f) (liftM Read.left >>= f') c R := h

theorem fail (h : Leads v n c₀ c ts) (p : Position) (message : String) :
    Parses v c₀ (Read.fail v.setting p message) (Read.fail v.setting p message) c Q := ⟨rfl, failed_error h.ready h.length_le p message⟩

-- What comes after a failure does not matter.
theorem stop {g g' : β → Parse α} (h : Leads v n c₀ c ts) (p : Position) (message : String) :
    Parses v c₀ (Read.fail v.setting p message >>= g) (Read.fail v.setting p message >>= g') c Q :=
  ⟨rfl, failed_error h.ready h.length_le p message⟩

theorem guard {p : Prop} [Decidable p] {g g' : β → Parse α} {q : Position} {message : String} (hready : c.Ready v.size)
    (hlen : c.toks.length ≤ c₀.toks.length) (hf : ¬p → Parses v c₀ m m' c Q) :
    Parses v c₀ (if p then Read.fail v.setting q message >>= g else m)
      (if p then Read.fail v.setting q message >>= g' else m') c Q := by
  split
  · exact ⟨rfl, failed_error hready hlen q message⟩
  · exact hf ‹_›

theorem check {p : Prop} [Decidable p] {g g' : β → Parse α} {q : Position} {message : String} (h : Leads v n c₀ c ts)
    (hf : ¬p → Parses v c₀ m m' c Q) :
    Parses v c₀ (if p then Read.fail v.setting q message >>= g else m)
      (if p then Read.fail v.setting q message >>= g' else m') c Q :=
  guard h.ready h.length_le hf

end Parses

-- The nodes of a result stand for what has been read since the cursor `c₀`, and more may be known of it.
def Leaves {α : Type} (v : View) (k : Nat) (c₀ : Cursor) (nodes : α → List NodeTree) (more : α → Cursor → Prop) (a : α)
    (c : Cursor) : Prop :=
  Leads v k c₀ c (nodes a) ∧ more a c

abbrev FindsWith {α : Type} (v : View) (k : Nat) (m m' : Parse α) (c : Cursor) (nodes : α → List NodeTree)
    (more : α → Cursor → Prop) : Prop := Parses v c m m' c (Leaves v k c nodes more)

abbrev Finds {α : Type} (v : View) (k : Nat) (m m' : Parse α) (c : Cursor) (nodes : α → List NodeTree) : Prop :=
  FindsWith v k m m' c nodes fun _ _ => True

-- One turn of a loop: it takes a token when there is a further one, and tells why when there is none.
def Turns {α : Type} (v : View) (c₀ : Cursor) (nodes : α → List NodeTree) (ended : Cursor → Prop) : Option α → Cursor → Prop
  | some a, c => Leads v 1 c₀ c (nodes a)
  | none, c => Leads v 0 c₀ c [] ∧ ended c

section Reading

variable {α β : Type} {v : View} {n k : Nat} {c₀ c : Cursor} {ts : List NodeTree} {nodes : α → List NodeTree}
  {more : α → Cursor → Prop} {R : β → Cursor → Prop}

theorem Runs.find {m m' : Scanning α} {f f' : α → Scanning β} (h : Leads v n c₀ c ts)
    (hm : Runs m m' c (Leaves v k c nodes more))
    (hf : ∀ a c', Leads v (n + k) c₀ c' (ts ++ nodes a) → more a c' → Runs (f a) (f' a) c' R) :
    Runs (m >>= f) (m' >>= f') c R :=
  bind hm fun a c' ha => hf a c' (h.trans ha.1) ha.2

theorem Parses.find {m m' : Parse α} {f f' : α → Parse β} (h : Leads v n c₀ c ts) (hm : FindsWith v k m m' c nodes more)
    (hf : ∀ a c', Leads v (n + k) c₀ c' (ts ++ nodes a) → more a c' → Parses v c₀ (f a) (f' a) c' R) :
    Parses v c₀ (m >>= f) (m' >>= f') c R :=
  bind h hm fun a c' ha => hf a c' (h.trans ha.1) ha.2

theorem Parses.last {m m' : Parse α} {Q : α → Cursor → Prop} (h : Leads v n c₀ c ts) (hm : FindsWith v k m m' c nodes more)
    (hq : ∀ a c', Leads v (n + k) c₀ c' (ts ++ nodes a) → more a c' → Q a c') : Parses v c₀ m m' c Q :=
  .mono (.since h hm) fun a c' ha => hq a c' (h.trans ha.1) ha.2

theorem Parses.scanned {m m' : Scanning α} {f f' : α → Parse β} (h : Leads v n c₀ c ts)
    (hm : Runs m m' c (Leaves v k c nodes more))
    (hf : ∀ a c', Leads v (n + k) c₀ c' (ts ++ nodes a) → more a c' → Parses v c₀ (f a) (f' a) c' R) :
    Parses v c₀ (liftM m >>= f) (liftM m' >>= f') c R :=
  scan hm fun a c' ha => hf a c' (h.trans ha.1) ha.2

-- Only diagnostics are added, and `p` holds if these leave something to be followed.
def Reports (v : View) (c : Cursor) (p : Prop) (c' : Cursor) : Prop :=
  ∃ ds, c' = { c with diags := ds } ∧ (v.Calm ds → v.Calm c.diags ∧ p)

theorem Leads.reports {p : Prop} {c' : Cursor} {us : List NodeTree} (h : Leads v n c₀ c ts) (hc : Reports v c p c')
    (hgood : p → AllOf v.Good us) (hdocs : hereDocsOf us = []) : Leads v n c₀ c' (ts ++ us) := by
  obtain ⟨ds, rfl, hds⟩ := hc
  exact h.reported hds hgood hdocs

-- Words are read without a move of the cursor.
theorem runs_words {r r' : Reading α} {U P : α → Prop} (hr : Reads v r r' U P) :
    Runs (words r) (words r') c fun a c' => U a ∧ Reports v c (P a) c' := by
  obtain ⟨hsame, hu, hp⟩ := hr c.diags
  refine ⟨?_, hu, _, rfl, hp⟩
  change ((r.run c.diags).1, { c with diags := (r.run c.diags).2 }) =
    ((r'.run c.diags).1, { c with diags := (r'.run c.diags).2 })
  rw [hsame]

theorem Cursor.Ready.head_le {size : Nat} (h : c.Ready size) : c.head.text.toList.length ≤ size := by
  have hmem : c.toks ≠ [] := fun hnil => by
    have hends := h.ends
    rw [hnil] at hends
    cases hends
  have hhead : c.head ∈ c.toks := by
    unfold Cursor.head
    cases htoks : c.toks with
    | nil => exact absurd htoks hmem
    | cons t ts => exact List.mem_cons_self
  exact h.text_le _ hhead

-- A word whose text is that of a token.
theorem runs_wordOf {parts parts' : PartsReader} (hparts : PartsReader.Agree v parts parts' v.size) {t : Token}
    (ht : t.text.toList.length ≤ v.size) :
    Runs (wordOf parts t) (wordOf parts' t) c fun w => Reports v c (w.nodes.All v.Good) :=
  (runs_words (hparts _ _ _ ht)).bind fun _ _ h => .pure (by simpa using h.2)

theorem runs_warn {s : Setting} (f : Feature) (p : Position) :
    Runs (warn s f p) (warn s f p) c fun _ => Reports v c True := by
  unfold warn
  cases s.missing? f p with
  | none => exact .pure ⟨c.diags, rfl, fun h => ⟨h, trivial⟩⟩
  | some d => exact ⟨rfl, _, rfl, fun h => ⟨View.calm_of_push h, trivial⟩⟩

-- The readers of words in a reader of commands.

theorem Parses.word {parts parts' : PartsReader} (hparts : PartsReader.Agree v parts parts' v.size) {t : Token}
    {f f' : Word → Parse β} (ht : t.text.toList.length ≤ v.size) (h : Leads v n c₀ c ts)
    (hf : ∀ w ds, Leads v n c₀ { c with diags := ds } (ts ++ [w.nodes]) →
      Parses v c₀ (f w) (f' w) { c with diags := ds } R) :
    Parses v c₀ (liftM (wordOf parts t) >>= f) (liftM (wordOf parts' t) >>= f') c R :=
  .scan (runs_wordOf hparts ht) fun w _ hc => by
    obtain ⟨ds, rfl, -⟩ := id hc
    exact hf w ds (h.reports hc (by simp) (by simp))

theorem Parses.warn {s : Setting} {g : Feature} {p : Position} {f f' : Unit → Parse β} (h : Leads v n c₀ c ts)
    (hf : ∀ ds, Leads v n c₀ { c with diags := ds } ts → Parses v c₀ (f ()) (f' ()) { c with diags := ds } R) :
    Parses v c₀ (liftM (Read.warn s g p) >>= f) (liftM (Read.warn s g p) >>= f') c R :=
  .scan (runs_warn g p) fun _ _ hc => by
    obtain ⟨ds, rfl, -⟩ := id hc
    exact hf ds (by simpa using h.reports hc (fun _ => allOf_nil) rfl)

section Loops

variable {ended : Cursor → Prop}

theorem parses_listFor {turn turn' : Parse (Option α)}
    (h : ∀ c, c.Ready v.size → c.toks.length ≤ k → Parses v c turn turn' c (Turns v c nodes ended)) :
    ∀ n n' c, c.Ready v.size → c.toks.length ≤ k → c.toks.length < n → c.toks.length < n' →
      FindsWith v 0 (listFor turn n) (listFor turn' n') c (fun as => as.flatMap nodes) fun _ => ended
  | n + 1, n' + 1, c, hc, hk, hn, hn' => by
      refine Parses.bind (.start hc) (h c hc hk) fun r c' hr => ?_
      cases r with
      | none => exact .pure hr
      | some a =>
          have htaken := hr.taken
          refine Parses.find hr (parses_listFor h n n' c' hr.ready (by omega) (by omega) (by omega)) fun as c'' h'' hended => ?_
          exact .pure ⟨h''.build (Nat.zero_le _) (by simp) (by simp), hended⟩

theorem runs_listFor {turn turn' : Scanning (Option α)}
    (h : ∀ c, c.Ready v.size → c.toks.length ≤ k → Runs turn turn' c (Turns v c nodes ended)) :
    ∀ n n' c, c.Ready v.size → c.toks.length ≤ k → c.toks.length < n → c.toks.length < n' →
      Runs (listFor turn n) (listFor turn' n') c (Leaves v 0 c (fun as => as.flatMap nodes) fun _ => ended)
  | n + 1, n' + 1, c, hc, hk, hn, hn' => by
      refine Runs.bind (h c hc hk) fun r c' hr => ?_
      cases r with
      | none => exact .pure hr
      | some a =>
          have htaken := hr.taken
          refine Runs.find hr (runs_listFor h n n' c' hr.ready (by omega) (by omega) (by omega)) fun as c'' h'' hended => ?_
          exact .pure ⟨h''.build (Nat.zero_le _) (by simp) (by simp), hended⟩

theorem finds_many {turn turn' : Parse (Option α)} (hc : c.Ready v.size)
    (h : ∀ c', c'.Ready v.size → c'.toks.length ≤ c.toks.length → Parses v c' turn turn' c' (Turns v c' nodes ended)) :
    FindsWith v 0 (many turn) (many turn') c (fun as => as.flatMap nodes) fun _ => ended :=
  parses_listFor h _ _ c hc (Nat.le_refl _) (Nat.lt_succ_self _) (Nat.lt_succ_self _)

end Loops

end Reading

end Read
end Script
end ShellScript

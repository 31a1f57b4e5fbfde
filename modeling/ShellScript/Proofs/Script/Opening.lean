import ShellScript.Proofs.Program.SoleCommand
import ShellScript.Proofs.Script.Writing

-- No command that is read is written with a number sign in front, so a script that is written out gains no comment.
namespace ShellScript
namespace Script

namespace Read

-- What every result of a reader is like.
def Gives {σ α : Type} (Q : α → Prop) (m : StateM σ α) : Prop := ∀ s, Q (m.run s).1

section Gives

variable {σ α β : Type} {P Q : α → Prop} {R : β → Prop} {m n : StateM σ α} {f : α → StateM σ β}

theorem gives_pure {a : α} (h : Q a) : Gives Q (pure a : StateM σ α) := fun _ => h

theorem Gives.bind (h : Gives P m) (hf : ∀ a, P a → Gives R (f a)) : Gives R (m >>= f) :=
  fun s => hf _ (h s) (m.run s).2

-- Nothing needs to be known of what comes before.
theorem gives_bind (hf : ∀ a, Gives R (f a)) : Gives R (m >>= f) := fun s => hf _ (m.run s).2

theorem Gives.ite {c : Prop} [Decidable c] (h : Gives Q m) (h' : Gives Q n) : Gives Q (if c then m else n) := by
  split
  · exact h
  · exact h'

end Gives

-- The first part that has been found is known to begin no comment.
def Gathered.Fronts (g : Gathered) : Prop := ∃ x xs, g.finish = x :: xs ∧ x.Fronts

section Parts

variable {s : Setting} {nested : Nested} {g : Gathered} {c : Char} {cs : List Char}

theorem finish_addPart (g : Gathered) (x : WordPart) : (g.addPart x).finish = g.finish ++ [x] := by
  obtain ⟨out, lit, p⟩ := g
  cases lit <;> simp [Gathered.addPart, Gathered.finish, Gathered.flush]

theorem finish_eq (g : Gathered) :
    g.finish = g.out.reverse ++ if g.lit.isEmpty then [] else [WordPart.lit g.litPos (String.ofList g.lit.reverse)] := by
  unfold Gathered.finish Gathered.flush
  split <;> simp

theorem Gathered.Fronts.addPart (h : g.Fronts) (x : WordPart) : (g.addPart x).Fronts := by
  obtain ⟨y, ys, hg, hy⟩ := h
  exact ⟨y, ys ++ [x], by rw [finish_addPart, hg, List.cons_append], hy⟩

theorem Gathered.Fronts.addLit (h : g.Fronts) (p : Position) (cs : List Char) : (g.addLit p cs).Fronts := by
  obtain ⟨y, ys, hg, hy⟩ := h
  rw [finish_eq] at hg
  rw [Gathered.Fronts, finish_eq]
  cases hout : g.out.reverse with
  | cons z zs =>
      rw [hout] at hg
      obtain ⟨rfl, -⟩ := List.cons.inj hg
      exact ⟨z, _, by rw [Gathered.addLit, hout, List.cons_append], hy⟩
  | nil =>
      rw [hout, List.nil_append] at hg
      cases hlit : g.lit.isEmpty with
      | true => simp [hlit] at hg
      | false =>
          simp only [hlit, Bool.false_eq_true, if_false] at hg
          obtain ⟨rfl, -⟩ := List.cons.inj hg
          have hmore : (cs.reverse ++ g.lit).isEmpty = false := by simp_all
          refine ⟨.lit g.litPos (String.ofList (g.lit.reverse ++ cs)), [], ?_, ?_⟩
          · simp [Gathered.addLit, hout, hlit, hmore]
          · rw [WordPart.Fronts, String.toList_ofList] at hy ⊢
            exact hy.append cs

-- A text is added to parts that begin no comment, or is itself what the word begins with.

theorem fronts_addLit (h : g.Fronts ∨ g = {} ∧ Opening cs) (p : Position) : (g.addLit p cs).Fronts := by
  obtain h | ⟨rfl, hcs⟩ := h
  · exact h.addLit p cs
  · cases cs with
    | nil => cases hcs
    | cons c cs =>
        refine ⟨.lit p (String.ofList (c :: cs)), [], ?_, ?_⟩
        · simp [finish_eq, Gathered.addLit]
        · rw [WordPart.Fronts, String.toList_ofList]
          exact hcs

theorem fronts_addPart {x : WordPart} (h : g.Fronts ∨ g = {}) (hx : x.Fronts) : (g.addPart x).Fronts := by
  obtain h | rfl := h
  · exact h.addPart x
  · exact ⟨x, [], rfl, hx⟩

theorem gives_dollar (mode : Mode) (p : Position) (cs : List Char) :
    Gives (fun r => ∀ y ∈ r, y.1.Fronts) (dollar s nested mode p cs) := by
  have hsome {x : WordPart} (hx : x.Fronts) (rest : List Char) :
      Gives (fun r => ∀ y ∈ r, y.1.Fronts) (pure (some (x, rest)) : Reading (Option (WordPart × List Char))) :=
    gives_pure fun y hy => by cases hy; exact hx
  have hnone : Gives (fun r => ∀ y ∈ r, y.1.Fronts) (pure none : Reading (Option (WordPart × List Char))) :=
    gives_pure nofun
  unfold dollar
  extract_lets p₁
  split
  · extract_lets arith
    cases arith with
    | none => exact gives_bind fun _ => hsome (by trivial) _
    | some text => exact gives_bind fun _ => hsome (by trivial) _
  · exact gives_bind fun _ => hsome (by trivial) _
  · exact .ite (hsome (by trivial) _) (.ite (gives_bind fun _ => hsome (by trivial) _)
      (.ite (hsome (by trivial) _) (.ite (hsome (by trivial) _) hnone)))
  · exact hnone

theorem gives_brace (p : Position) (cs : List Char) :
    Gives (fun r => ∀ y ∈ r, y.1.Fronts) (brace s nested p cs) := by
  have hsome {x : WordPart} (hx : x.Fronts) (rest : List Char) :
      Gives (fun r => ∀ y ∈ r, y.1.Fronts) (pure (some (x, rest)) : Reading (Option (WordPart × List Char))) :=
    gives_pure fun y hy => by cases hy; exact hx
  unfold brace
  extract_lets first
  split
  · split
    · exact hsome (by trivial) _
    · exact gives_pure nofun
  · exact gives_bind fun _ => hsome (by trivial) _
  · exact gives_pure nofun

theorem gives_partAt (mode : Mode) (first : Bool) (p : Position) (h : g.Fronts ∨ g = {} ∧ Opening (c :: cs)) :
    Gives (fun r => r.1.Fronts) (partAt s nested mode first g p c cs) := by
  have hlit (taken : List Char) (htaken : Opening (c :: cs) → Opening taken) (rest : List Char) :
      Gives (fun r => r.1.Fronts) (pure (g.addLit p taken, rest) : Reading (Gathered × List Char)) :=
    gives_pure (fronts_addLit (h.imp id fun h => ⟨h.1, htaken h.2⟩) p)
  have hpart {x : WordPart} (hx : x.Fronts) (rest : List Char) :
      Gives (fun r => r.1.Fronts) (pure (g.addPart x, rest) : Reading (Gathered × List Char)) :=
    gives_pure (fronts_addPart (h.imp id And.left) hx)
  have hplain := hlit [c] id cs
  unfold partAt
  extract_lets plain
  refine .ite (hlit ((c :: cs).take 2) id _) (.ite ?_ (.ite ?_ (.ite ?_ (.ite ?_ (.ite ?_ (.ite ?_ hplain))))))
  · exact hpart (by trivial) _
  · exact gives_bind fun _ => hpart (by trivial) _
  · exact gives_bind fun _ => hpart (by trivial) _
  · refine (gives_dollar mode p cs).bind fun r hr => ?_
    cases r with
    | none => exact hplain
    | some y => exact hpart (hr y rfl) _
  · refine (gives_brace p cs).bind fun r hr => ?_
    cases r with
    | none => exact hplain
    | some y => exact hpart (hr y rfl) _
  · exact gives_bind fun _ => hpart (by trivial) _

theorem gives_partsFrom (mode : Mode) (n : Nat) (first : Bool) (p : Position) (cs : List Char) (h : g.Fronts) :
    Gives (fun xs => ∃ x ys, xs = x :: ys ∧ x.Fronts) (partsFrom s nested mode n first g p cs) := by
  induction n generalizing first g p cs with
  | zero => exact gives_pure h
  | succ n ih =>
      cases cs with
      | nil => exact gives_pure h
      | cons c cs => exact (gives_partAt mode first p (.inl h)).bind fun r hr => ih false _ r.2 hr

-- A word of a text that begins no comment.
theorem gives_parts (mode : Mode) (p : Position) (h : Plain cs) :
    Gives (fun xs => xs = [] ∨ ∃ x ys, xs = x :: ys ∧ x.Fronts) (parts s nested mode p cs) := by
  cases cs with
  | nil => exact gives_pure (.inl rfl)
  | cons c cs =>
      have hopen : Opening (c :: cs) := (opening_or_nil h).resolve_left nofun
      refine (gives_partAt mode true p (.inr ⟨rfl, hopen⟩)).bind fun r hr => ?_
      exact fun ds => .inr (gives_partsFrom mode _ false _ r.2 hr ds)

end Parts

-- What a reader that succeeds gives, and where it leaves the cursor.
def Results {α : Type} (m : Parse α) (c : Cursor) (Q : α → Cursor → Prop) : Prop := ∀ a c', m c = (some a, c') → Q a c'

namespace Results

variable {α β : Type} {m n : Parse α} {f : α → Parse β} {c : Cursor} {P Q : α → Cursor → Prop} {R : β → Cursor → Prop}

theorem pure {a : α} (h : Q a c) : Results (Pure.pure a) c Q := by
  rintro _ _ ⟨⟩
  exact h

theorem bind (h : Results m c P) (hf : ∀ a c', P a c' → Results (f a) c' R) : Results (m >>= f) c R := by
  intro b c' hb
  obtain ⟨a, c₁, hm, hfa⟩ := of_bind_some hb
  exact hf a c₁ (h a c₁ hm) b c' hfa

-- Nothing needs to be known of what comes before.
theorem after (hf : ∀ a c', Results (f a) c' R) : Results (m >>= f) c R :=
  bind (P := fun _ _ => True) (fun _ _ _ => trivial) fun a c' _ => hf a c'

theorem fail (s : Setting) (p : Position) (message : String) : Results (Read.fail s p message) c Q :=
  fun _ _ h => absurd h fail_ne_some

-- What comes after a failure does not matter.
theorem stop (s : Setting) (p : Position) (message : String) : Results (Read.fail s p message >>= f) c R :=
  bind (P := fun _ _ => False) (fail s p message) nofun

theorem ite {p : Prop} [Decidable p] (h : p → Results m c Q) (h' : ¬p → Results n c Q) :
    Results (if p then m else n) c Q := by
  split
  · exact h ‹_›
  · exact h' ‹_›

theorem scan {m : Scanning α} (h : Results (f (m c).1) (m c).2 R) : Results (liftM m >>= f) c R := by
  intro b c' hb
  exact h b c' hb

theorem cur {f : Token → Parse β} (h : Results (f c.head) c R) : Results (liftM Read.cur >>= f) c R := h

theorem next {f : Unit → Parse β} (h : Results (f ()) c.passed R) : Results (liftM Read.next >>= f) c R := h

end Results

-- The compound commands and the definitions with a keyword.

section Keywords

variable {s : Setting} {parts : PartsReader} {inner : Inner} {c : Cursor}

-- A command that begins with a sign or a keyword.
abbrev Keyed (m : Parse Command) : Prop := ∀ c, Results m c fun x _ => x.hasKeyword = true

theorem keyed_ifClause : Keyed (ifClause s inner) := fun _ =>
  .after fun _ _ => .after fun _ _ => .after fun _ _ => .after fun _ _ => .after fun _ _ => .after fun _ _ =>
    .after fun _ _ => .ite (fun _ => .after fun _ _ => .after fun _ _ => .after fun _ _ => .pure rfl)
      fun _ => .after fun _ _ => .after fun _ _ => .pure rfl

theorem keyed_whileClause : Keyed (whileClause s inner) := fun _ =>
  .after fun _ _ => .after fun _ _ => .after fun _ _ => .after fun _ _ => .pure rfl

theorem keyed_forClause : Keyed (forClause s parts inner) := fun _ =>
  .after fun _ _ => .after fun _ _ => .after fun _ _ => .ite
    (fun _ => .after fun _ _ => .after fun _ _ => .after fun heads _ => by
      split
      · exact .after fun _ _ => .after fun _ _ => .ite
          (fun _ => .after fun _ _ => .after fun _ _ => .after fun _ _ => .pure rfl)
          fun _ => .after fun _ _ => .after fun _ _ => .pure rfl
      · exact .fail _ _ _)
    fun _ => .after fun _ _ => .after fun _ _ => .pure rfl

theorem keyed_selectClause : Keyed (selectClause s parts inner) := fun _ =>
  .after fun _ _ => .after fun _ _ => .after fun _ _ => .after fun _ _ => .after fun _ _ => .pure rfl

theorem keyed_caseClause : Keyed (caseClause s parts inner) := fun _ =>
  .after fun _ _ => .after fun _ _ => .after fun _ _ => .ite (fun _ => .stop _ _ _) fun _ =>
    .after fun _ _ => .after fun _ _ => .after fun _ _ => .after fun _ _ =>
      .ite (fun _ => .ite (fun _ => .stop _ _ _) fun _ => .stop _ _ _) fun _ =>
        .after fun _ _ => .after fun _ _ => .after fun _ _ => .after fun _ _ => .pure rfl

theorem keyed_group : Keyed (group s inner) := fun _ =>
  .after fun _ _ => .after fun _ _ => .after fun _ _ => .after fun _ _ => .pure rfl

theorem keyed_testClause : Keyed (testClause s parts) := fun _ =>
  .after fun _ _ => .after fun _ _ => .after fun _ _ => .after fun _ _ => .ite (fun _ => .stop _ _ _) fun _ =>
    .after fun _ _ => .after fun _ _ => .after fun _ _ => .pure rfl

theorem keyed_subshell : Keyed (subshell s inner) := fun _ =>
  .after fun _ _ => .after fun _ _ => .after fun _ _ => .after fun _ _ =>
    .ite (fun _ => .after fun _ _ => .pure rfl) fun _ => .ite (fun _ => .fail _ _ _) fun _ => .fail _ _ _

theorem keyed_arithCommand : Keyed (arithCommand s parts) := fun _ =>
  .after fun _ _ => .after fun x _ => .after fun _ _ => by
    cases x with
    | some x => exact .pure rfl
    | none => exact .fail _ _ _

theorem results_functionBody (pos : Position) (name : String) (keyword parens : Bool) :
    Results (functionBody s parts inner pos name keyword parens) c fun x _ =>
      ∃ body, x = .function pos name keyword parens body := by
  unfold functionBody
  refine .after fun _ _ => .after fun t _ => .ite (fun _ => .stop _ _ _) fun _ => ?_
  exact .ite (fun _ => .after fun _ _ => .after fun body _ => .pure ⟨body, rfl⟩) fun _ => .after fun body _ => .pure ⟨body, rfl⟩

theorem keyed_functionKeyword : Keyed (functionKeyword s parts inner) := by
  have hbody (pos : Position) (name : String) (parens : Bool) (c : Cursor) :
      Results (functionBody s parts inner pos name true parens) c fun x _ => x.hasKeyword = true := by
    rintro x c' h
    obtain ⟨body, rfl⟩ := results_functionBody _ _ _ _ x c' h
    rfl
  exact fun _ => .after fun _ _ => .after fun _ _ => .after fun _ _ => .after fun _ _ => .ite (fun _ => .stop _ _ _) fun _ =>
    .after fun _ _ => .after fun _ _ => .ite (fun _ => .after fun _ _ => hbody _ _ _ _) fun _ => hbody _ _ _ _

end Keywords

-- The words and the numbers of a cursor begin no comments.
def Speaks (t : Token) : Prop := t.kind = .word ∨ t.kind = .ioNumber → Plain t.text.toList

def Sound (c : Cursor) : Prop := ∀ t ∈ c.toks, Speaks t

section Cursors

variable {c : Cursor}

theorem Sound.head (h : Sound c) : Speaks c.head := by
  unfold Cursor.head
  cases htoks : c.toks with
  | nil => exact fun hkind => hkind.elim nofun nofun
  | cons t ts => exact h t (htoks ▸ List.mem_cons_self)

theorem Sound.passed (h : Sound c) : Sound c.passed := by
  cases htoks : c.toks with
  | nil =>
      have hsame : c.passed = c := by
        obtain ⟨toks, pending, diags⟩ := c
        obtain rfl : toks = [] := htoks
        rfl
      rwa [hsame]
  | cons t ts =>
      cases ts with
      | nil => rwa [Cursor.passed_of_eof htoks]
      | cons u ts =>
          rw [Cursor.passed_of_cons htoks]
          exact fun x hx => h x (htoks ▸ List.mem_cons_of_mem t ((significant_suffix _ _).subset hx))

-- A reader that goes on to tokens of the same kind.
def Stays {α : Type} (m : Scanning α) : Prop := ∀ c, Sound c → Sound (m c).2

namespace Stays

variable {α β : Type} {m n : Scanning α} {f : α → Scanning β}

theorem pure (a : α) : Stays (Pure.pure a : Scanning α) := fun _ h => h

theorem bind (h : Stays m) (hf : ∀ a, Stays (f a)) : Stays (m >>= f) := fun c hc => hf _ _ (h c hc)

theorem ite {p : Prop} [Decidable p] (h : Stays m) (h' : Stays n) : Stays (if p then m else n) := by
  split
  · exact h
  · exact h'

theorem cur {f : Token → Scanning β} (hf : ∀ t, Stays (f t)) : Stays (Read.cur >>= f) := fun c hc => hf _ c hc

theorem next : Stays Read.next := fun _ h => h.passed

theorem words (r : Reading α) : Stays (Read.words r) := fun _ h => h

theorem listFor {turn : Scanning (Option α)} (h : Stays turn) (n : Nat) : Stays (Read.listFor turn n) := by
  induction n with
  | zero => exact .pure _
  | succ n ih =>
      refine h.bind fun r => ?_
      cases r with
      | none => exact .pure _
      | some a => exact ih.bind fun _ => .pure _

theorem skipNewlines : Stays Read.skipNewlines := by
  have hturn : Stays newline? := .cur fun t => .ite (next.bind fun _ => .pure _) (.pure _)
  exact fun c hc => listFor hturn (c.toks.length + 1) c hc

theorem warn (s : Setting) (f : Feature) (p : Position) : Stays (Read.warn s f p) := by
  unfold Read.warn
  cases s.missing? f p with
  | none => exact .pure _
  | some d => exact fun _ h => h

end Stays

end Cursors

-- A part that does the job, whatever is read.
theorem Results.stays {α β : Type} {m : Scanning α} {f : α → Parse β} {c : Cursor} {R : β → Cursor → Prop} (h : Stays m)
    (hc : Sound c) (hf : ∀ a c', Sound c' → Results (f a) c' R) : Results (liftM m >>= f) c R :=
  .scan (hf _ _ (h c hc))

section Simple

variable {s : Setting} {nested : Nested} {inner : Inner} {c : Cursor}

theorem writes_word {xs : List WordPart} (h : xs = [] ∨ ∃ x ys, xs = x :: ys ∧ x.Fronts) :
    Writes Plain (Word.print ⟨xs⟩) := by
  obtain rfl | ⟨x, ys, rfl, hx⟩ := h
  · exact fun p => ⟨"", String.append_empty.symm, nofun⟩
  · rw [Word.print]
    have hopen : Opens (x.print false) := (x.writes false).mono fun _ h => h hx
    exact (hopen.seq (appends_parts false ys)).mono fun _ h => h.plain

theorem results_wordOf {t : Token} (ht : Speaks t) (hkind : t.kind = .word) (hc : Sound c) {α : Type} {f : Word → Parse α}
    {R : α → Cursor → Prop} (hf : ∀ w c', Sound c' → Writes Plain w.print → Results (f w) c' R) :
    Results (liftM (wordOf (parts s nested) t) >>= f) c R :=
  .scan (hf _ _ hc (writes_word (gives_parts .unquoted t.pos (ht (.inl hkind)) c.diags)))

theorem stays_hereDoc (ps : PartsReader) (delim : Token) (strip : Bool) : Stays (hereDoc ps delim strip) := by
  unfold hereDoc
  refine .bind (fun _ h => h) fun found => .bind (fun _ h => h) fun _ => ?_
  cases found with
  | none => exact .pure _
  | some t => exact .ite (.pure _) (.bind (.words _) fun _ => .pure _)

theorem results_redirect (hc : Sound c) :
    Results (redirect s (parts s nested)) c fun r c' => Sound c' ∧ Plain r.n.toList := by
  unfold redirect
  refine .cur ?_
  have hn : Plain (if c.head.kind == .ioNumber then c.head.text else "").toList := by
    split
    · rename_i hkind
      exact hc.head (.inr (beq_iff_eq.mp hkind))
    · nofun
  extract_lets n jp
  have hrest (u : Unit) (c' : Cursor) (hc' : Sound c') : Results (jp u) c' fun r c'' => Sound c'' ∧ Plain r.n.toList := by
    refine .cur (.stays .next hc' fun _ c₁ hc₁ => .cur (.ite (fun _ => .stop _ _ _) fun hkind => ?_))
    refine results_wordOf hc₁.head (by simpa using hkind) hc₁ fun w c₂ hc₂ _ => ?_
    have hend (doc : Option HereDoc) (c₃ : Cursor) (hc₃ : Sound c₃) :
        Results (do next; return ({ opPos := c'.head.pos, op := c'.head.kind, n, word := w, doc } : Redirect)) c₃
          fun r c'' => Sound c'' ∧ Plain r.n.toList := .next (.pure ⟨hc₃.passed, hn⟩)
    refine .ite (fun _ => ?_) fun _ => .bind (.pure hc₂) hend
    exact .bind (P := fun _ c₃ => Sound c₃) (.stays (stays_hereDoc _ _ _) hc₂ fun _ _ hc₃ => .pure hc₃) hend
  exact .ite (fun _ => .stays .next hc fun _ c' hc' => hrest () c' hc') fun _ => hrest () c hc

theorem gives_assignHead (ps : PartsReader) (t : Token) :
    Gives (fun r => ∀ a ∈ r, Opening a.1.name.toList) (assignHead ps t) := by
  unfold assignHead
  generalize t.text.toList.span Text.isNameChar = r
  obtain ⟨name, rest⟩ := r
  dsimp -zeta only
  split
  · exact gives_pure nofun
  · rename_i c cs
    extract_lets p head
    clear_value head
    have hname (h : Text.isNameStart c = true) : Opening (String.ofList (c :: cs)).toList := by
      rw [String.toList_ofList]
      have hne : c ≠ '#' := by
        rintro rfl
        exact absurd h (by decide)
      simpa [Opening] using hne
    by_cases hstart : Text.isNameStart c = true
    · rw [if_neg (by simp [hstart])]
      cases head with
      | none => exact gives_pure nofun
      | some head =>
          refine gives_bind fun x => ?_
          dsimp only
          split
          · exact gives_pure fun a ha => by cases ha; exact hname hstart
          · exact gives_pure fun a ha => by cases ha; exact hname hstart
          · exact gives_pure nofun
    · rw [if_pos (by simp [hstart])]
      exact gives_pure nofun

theorem results_many {α : Type} {turn : Parse (Option α)}
    (h : ∀ c, Sound c → Results turn c fun _ c' => Sound c') (hc : Sound c) : Results (many turn) c fun _ c' => Sound c' := by
  have hloop (n : Nat) (c : Cursor) (hc : Sound c) : Results (listFor turn n) c fun _ c' => Sound c' := by
    induction n generalizing c with
    | zero => exact .pure hc
    | succ n ih =>
        refine .bind (h c hc) fun r c₁ hc₁ => ?_
        cases r with
        | none => exact .pure hc₁
        | some a => exact .bind (ih c₁ hc₁) fun _ _ hc₂ => .pure hc₂
  exact .scan (hloop _ c hc)

theorem results_element? (start : Position) (hc : Sound c) :
    Results (element? s (parts s nested) start) c fun _ c' => Sound c' := by
  refine .stays .skipNewlines hc fun _ c₁ hc₁ => .cur ?_
  split
  · exact .next (.pure hc₁.passed)
  · exact .scan (.next (.pure (Sound.passed hc₁)))
  · exact .fail _ _ _
  · exact .fail _ _ _

theorem results_assignment? (hc : Sound c) :
    Results (assignment? s (parts s nested)) c fun r c' => Sound c' ∧ ∀ a ∈ r, Opening a.name.toList := by
  unfold assignment?
  have hhead : Results (OptionT.lift (words (assignHead (parts s nested) c.head))) c fun r c' =>
      Sound c' ∧ ∀ a ∈ r, Opening a.1.name.toList := by
    rintro _ _ ⟨⟩
    exact ⟨hc, gives_assignHead (parts s nested) c.head c.diags⟩
  refine .cur (.bind hhead fun r c₁ h => ?_)
  obtain ⟨hc₁, hname⟩ := h
  cases r with
  | none => exact .pure ⟨hc₁, nofun⟩
  | some found =>
      obtain ⟨a, p, value⟩ := found
      have hdone (b : Assignment) (hb : b.name = a.name) (c' : Cursor) (hc' : Sound c') :
          Results (pure (some b) : Parse (Option Assignment)) c' fun r c' => Sound c' ∧ ∀ a ∈ r, Opening a.name.toList :=
        .pure ⟨hc', fun d hd => by cases hd; exact hb ▸ hname _ rfl⟩
      refine .stays .next hc₁ fun _ c₂ hc₂ => .ite (fun _ => .scan (hdone _ (by rfl) _ hc₂)) fun _ => .cur (.ite (fun _ => ?_) fun _ => ?_)
      · refine .stays (.warn _ _ _) hc₂ fun _ c₃ hc₃ => .stays .next hc₃ fun _ c₄ hc₄ => ?_
        exact .bind (results_many (fun _ => results_element? _) hc₄) fun _ _ hc₅ => hdone _ (by rfl) _ hc₅
      · exact hdone _ (by rfl) _ hc₂

end Simple

section Simple

variable {s : Setting} {nested : Nested} {inner : Inner} {c : Cursor}

-- What has been gathered of a simple command.
structure SimpleParts.Sound (sp : SimpleParts) : Prop where
  assigns : ∀ a ∈ sp.assigns, Opening a.name.toList
  args : ∀ w ∈ sp.args, Writes Plain w.print
  redirs : ∀ r ∈ sp.redirs, Plain r.n.toList
  operands : ∀ o ∈ sp.operands, Writes Plain o.1.print

theorem SimpleParts.Sound.simple {sp : SimpleParts} (h : sp.Sound) :
    Writes Plain (Command.simple sp.assigns.reverse sp.args.reverse sp.redirs.reverse).print :=
  plain_simple (fun a ha => h.assigns a (List.mem_reverse.mp ha)) (fun w hw => h.args w (List.mem_reverse.mp hw))
    fun r hr => h.redirs r (List.mem_reverse.mp hr)

theorem results_declaration {sp : SimpleParts} (h : sp.Sound) (variant : String) :
    Results (declaration s sp variant) c fun x _ => Writes Plain x.print := by
  unfold declaration
  extract_lets operands redirs name
  refine .after fun found _ => ?_
  obtain ⟨opts, assigns, static⟩ := found
  have hname : Writes Plain name.print := by
    dsimp only [name]
    split
    · rename_i w hw
      exact h.args w (List.mem_of_getLast? hw)
    · exact writes_word (.inl rfl)
  have hredirs : ∀ r ∈ redirs, Plain r.n.toList := fun r hr => h.redirs r (List.mem_reverse.mp hr)
  refine .ite (fun _ => .pure (plain_declare (plain_lit? hname) hredirs)) fun _ => ?_
  split
  · exact .fail _ _ _
  · refine .pure (plain_simple (fun a ha => h.assigns a (List.mem_reverse.mp ha)) (fun w hw => ?_) hredirs)
    rcases List.mem_append.mp hw with hw | hw
    · exact h.args w (List.mem_reverse.mp hw)
    · obtain ⟨o, ho, rfl⟩ := List.mem_map.mp hw
      exact h.operands o (List.mem_reverse.mp ho)

theorem results_functionParens {t : Token} (ht : Plain t.text.toList) :
    Results (functionParens s (parts s nested) inner t) c fun x _ => Writes Plain x.print := by
  unfold functionParens
  have hbody (c' : Cursor) : Results (functionBody s (parts s nested) inner t.pos t.text false true) c' fun x _ =>
      Writes Plain x.print := by
    rintro x c'' h
    obtain ⟨body, rfl⟩ := results_functionBody _ _ _ _ x c'' h
    exact plain_function ht
  exact .ite (fun _ => .stop _ _ _) fun _ => .after fun _ _ => hbody _

-- More of the command, or the command.
def GathersPlain (r : SimpleParts ⊕ Command) (c : Cursor) : Prop :=
  match r with
  | .inl sp => Read.Sound c ∧ sp.Sound
  | .inr x => Writes Plain x.print

theorem results_simpleTurn {sp : SimpleParts} (hc : Sound c) (h : sp.Sound) :
    Results (simpleTurn s (parts s nested) inner sp) c GathersPlain := by
  unfold simpleTurn
  refine .cur (.ite (fun _ => ?_) fun _ => .ite (fun hkind => ?_) fun _ => .ite (fun _ => .fail _ _ _) fun _ => ?_)
  · refine .bind (results_redirect hc) fun r c₁ hr => .pure ⟨hr.1, h.assigns, h.args, ?_, h.operands⟩
    exact List.forall_mem_cons.mpr ⟨hr.2, h.redirs⟩
  · have hword : c.head.kind = .word := beq_iff_eq.mp hkind
    have ht : Plain c.head.text.toList := hc.head (.inl hword)
    extract_lets isFirst decl jp
    have hrest (a : Option Assignment) (c₁ : Cursor) (ha : Read.Sound c₁ ∧ ∀ b ∈ a, Opening b.name.toList) :
        Results (jp a) c₁ GathersPlain := by
      obtain ⟨hc₁, ha⟩ := ha
      cases a with
      | some a =>
          refine .ite (fun _ => results_wordOf hc.head hword hc₁ fun w c₂ hc₂ hw => ?_) fun _ => .pure ?_
          · exact .pure ⟨hc₂, h.assigns, h.args, h.redirs, List.forall_mem_cons.mpr ⟨hw, h.operands⟩⟩
          · exact ⟨hc₁, List.forall_mem_cons.mpr ⟨ha a rfl, h.assigns⟩, h.args, h.redirs, h.operands⟩
      | none =>
          refine results_wordOf hc.head hword hc₁ fun w c₂ hc₂ hw => .stays .next hc₂ fun _ c₃ hc₃ => ?_
          refine .ite (fun _ => .pure ?_) fun _ => ?_
          · exact ⟨hc₃, h.assigns, h.args, h.redirs, List.forall_mem_cons.mpr ⟨hw, h.operands⟩⟩
          have hword (decl : Option String) (b : Bool) (c₄ : Cursor) (hc₄ : Read.Sound c₄) : Results (if b = true then do
                let x ← functionParens s (parts s nested) inner c.head
                return Sum.inr x
              else return Sum.inl { sp with args := w :: sp.args, decl }) c₄ GathersPlain := by
            refine .ite (fun _ => .bind (results_functionParens ht) fun x _ hx => .pure hx) fun _ => .pure ?_
            exact ⟨hc₄, h.assigns, List.forall_mem_cons.mpr ⟨hw, h.args⟩, h.redirs, h.operands⟩
          exact .ite (fun _ => .stays (.warn _ _ _) hc₃ fun _ c₄ hc₄ => .cur (hword _ _ _ hc₄)) fun _ => .cur (hword _ _ _ hc₃)
    exact .ite (fun _ => .bind (results_assignment? hc) hrest) fun _ => .bind (.pure ⟨hc, nofun⟩) hrest
  · split
    · exact .bind (results_declaration h _) fun x _ hx => .pure hx
    · exact .pure h.simple

theorem results_simpleFor (n : Nat) {sp : SimpleParts} (hc : Sound c) (h : sp.Sound) :
    Results (simpleFor s (parts s nested) inner n sp) c fun x _ => Writes Plain x.print := by
  induction n generalizing c sp with
  | zero => exact .pure h.simple
  | succ n ih =>
      refine .bind (results_simpleTurn hc h) fun r c₁ hr => ?_
      cases r with
      | inl sp => exact ih hr.1 hr.2
      | inr x => exact .pure hr

theorem results_simpleCommand (hc : Sound c) :
    Results (simpleCommand s (parts s nested) inner) c fun x _ => Writes Plain x.print :=
  .scan (results_simpleFor _ hc ⟨nofun, nofun, nofun, nofun⟩)

end Simple

-- The first item of a text.

section Items

variable {s : Setting} {nested : Nested} {inner : Inner} {c : Cursor}

theorem results_command (hc : Sound c) :
    Results (command s (parts s nested) inner) c fun x _ => Writes Plain x.print := by
  have hredirs {m : Parse Command} (hm : Keyed m) :
      Results (m >>= withRedirects s (parts s nested)) c fun x _ => Writes Plain x.print := by
    refine .bind (hm c) fun x c₁ hx => .after fun rs _ => .pure ?_
    split
    · exact plain_of_hasKeyword hx
    · exact plain_redirected (plain_of_hasKeyword hx)
  refine .cur (.ite (fun _ => ?_) fun _ => .ite (fun _ => hredirs keyed_subshell) fun _ =>
    .ite (fun _ => hredirs keyed_arithCommand) fun _ => .ite (fun _ => results_simpleCommand hc) fun _ => .fail _ _ _)
  split
  · exact hredirs keyed_ifClause
  · exact hredirs keyed_whileClause
  · exact hredirs keyed_whileClause
  · exact hredirs keyed_forClause
  · exact hredirs keyed_selectClause
  · exact hredirs keyed_caseClause
  · exact hredirs keyed_functionKeyword
  · exact hredirs keyed_group
  · exact hredirs keyed_testClause
  · exact .stop _ _ _

theorem results_pipeline {cmd : Parse Command} (hcmd : ∀ c, Sound c → Results cmd c fun x _ => Writes Plain x.print)
    (hc : Sound c) : Results (pipeline cmd) c fun x _ => Writes Plain x.print := by
  unfold pipeline
  refine .cur ?_
  extract_lets negated jp
  have hrest (c₁ : Cursor) (hc₁ : Sound c₁) : Results (jp ()) c₁ fun x _ => Writes Plain x.print := by
    refine .bind (hcmd c₁ hc₁) fun x c₂ hx => .after fun rest _ => .ite (fun _ => .pure hx) fun _ => .pure ?_
    exact plain_pipeline hx
  exact .ite (fun _ => .stays .next hc fun _ c₁ hc₁ => hrest c₁ hc₁) fun _ => hrest c hc

theorem results_andOr {cmd : Parse Command} (hcmd : ∀ c, Sound c → Results cmd c fun x _ => Writes Plain x.print)
    (hc : Sound c) : Results (andOr cmd) c fun x _ => Writes Plain x.print := by
  refine .bind (results_pipeline hcmd hc) fun x c₁ hx => .after fun links _ => .pure ?_
  induction links generalizing x with
  | nil => exact hx
  | cons link links ih => exact ih _ (plain_andOr hx)

end Items

-- What the scanner hands over.

section Tokens

open Token (Scanner)
open Token.Scanner

variable {s s' : Scanner}

theorem speaks_of_reads {r : Scanner × Token} (h : s.Reads r) (hs : Plain s.rest) : Speaks r.2 := by
  intro hkind
  have hspelling : r.2.spelling = r.2.text.toList := by
    rcases hkind with hkind | hkind <;> rw [Token.spelling, hkind]
  have hrest := h.rest
  rw [hspelling] at hrest
  rw [hrest] at hs
  cases htext : r.2.text.toList with
  | nil => simp [Plain]
  | cons c cs => rwa [htext] at hs

theorem operatorAt_kind {cs : List Char} {k : Token.Kind} {n : Nat} {f : Option Feature}
    (h : operatorAt cs = some (k, n, f)) : k ≠ .word ∧ k ≠ .ioNumber := by
  unfold operatorAt at h
  split at h
  all_goals cases h
  all_goals exact ⟨nofun, nofun⟩

theorem silent {t : Token} (hword : t.kind ≠ .word) (hnumber : t.kind ≠ .ioNumber) : Speaks t := by
  rintro (hkind | hkind)
  · exact absurd hkind hword
  · exact absurd hkind hnumber

theorem silent_of_kind {t : Token} (k : Token.Kind) (h : t.kind = k) (hk : k ≠ .word ∧ k ≠ .ioNumber) : Speaks t :=
  silent (h ▸ hk.1) (h ▸ hk.2)

theorem speaks_hereDocs (hs : ∀ t ∈ s.tokens, Speaks t) : ∀ t ∈ (hereDocs s).tokens, Speaks t := by
  obtain ⟨ts, rest, p, diags, heq, hbodies, -⟩ := hereDocs_eq s.pending { s with pending := [] }
  intro t ht
  rw [hereDocs, heq] at ht
  rcases Array.mem_append.mp ht with ht | ht
  · exact hs t ht
  · have hkind := hbodies.kind t (List.mem_toArray.mp ht)
    exact silent (by simp [hkind]) (by simp [hkind])

theorem speaks_next? {n : Nat} (h : s.next? n = some s') (hs : ∀ t ∈ s.tokens, Speaks t) : ∀ t ∈ s'.tokens, Speaks t := by
  unfold next? at h
  dsimp only at h
  change ∀ t ∈ (s.moveBy (blanks s.rest)).tokens, Speaks t at hs
  generalize s.moveBy (blanks s.rest) = t at h hs
  have hemit {r : Scanner × Token} (htokens : r.1.tokens = t.tokens) (hr : Speaks r.2) :
      ∀ u ∈ (emit r).tokens, Speaks u := by
    intro u hu
    have hu : u ∈ r.1.tokens.push r.2 := hu
    rw [htokens] at hu
    rcases Array.mem_push.mp hu with hu | rfl
    · exact hs u hu
    · exact hr
  split at h
  · cases h
  rename_i c cs hrest
  split at h
  · cases h
    exact speaks_hereDocs (hemit rfl (silent_of_kind .newline rfl (by decide)))
  split at h
  · cases h
    exact hemit rfl (silent_of_kind .comment rfl (by decide))
  rename_i hnumber
  have hplain : Plain t.rest := by
    rw [hrest]
    simpa [Plain] using hnumber
  split at h
  · cases h
    have hreads := gather_reads progressive_regexTurn n 0 { t with wantRegex := false }
    exact hemit hreads.tokens (speaks_of_reads hreads hplain)
  split at h
  · cases h
    have hreads := gather_reads progressive_wordTurn n true (t.needs .procSubstitution t.pos)
    refine hemit (hreads.tokens.trans (tokens_needs _ _ _)) (speaks_of_reads hreads ?_)
    rwa [rest_needs]
  split at h
  · cases h
    exact hemit rfl (silent_of_kind .arith rfl (by decide))
  split at h
  · rename_i kind size feature hoperator
    cases h
    obtain ⟨hword, hio⟩ := operatorAt_kind hoperator
    refine hemit ?_ (silent hword hio)
    cases feature
    · rfl
    · exact tokens_needs _ _ _
  split at h
  · cases h
    exact hemit rfl (silent_of_kind .illegal rfl (by decide))
  · cases h
    have hreads := gather_reads progressive_wordTurn n true t
    exact hemit hreads.tokens (speaks_of_reads hreads hplain)

theorem speaks_run {n : Nat} (hs : ∀ t ∈ s.tokens, Speaks t) : ∀ t ∈ (run n s).tokens, Speaks t := by
  have hfinish {s : Scanner} (hs : ∀ t ∈ s.tokens, Speaks t) : ∀ t ∈ s.finish.tokens, Speaks t := by
    intro t ht
    rw [finish_tokens] at ht
    rcases Array.mem_push.mp ht with ht | rfl
    · exact hs t ht
    · exact silent nofun nofun
  induction n generalizing s with
  | zero => exact hfinish hs
  | succ n ih =>
      rw [run]
      cases hnext : s.next? (n + 1) with
      | none => exact hfinish hs
      | some s' => exact ih (speaks_next? hnext hs)

theorem sound_startOf (d : Dialect) (file : String) (p : Position) (cs : List Char) :
    Sound (startOf (Token.scanText d file p cs).1) := by
  intro t ht
  have htokens := (significant_suffix 0 (Token.scanText d file p cs).1).subset ht
  exact speaks_run (by simp) t (Array.mem_toList_iff.mp htokens)

end Tokens

section Texts

variable {s : Setting} {nested : Nested} {c : Cursor}

theorem runs_item_plain {cmd : Parse Command} (hcmd : ∀ c, Sound c → Results cmd c fun x _ => Writes Plain x.print)
    (stop : Token → Bool) (hc : Sound c) :
    Runs (item? s cmd stop) (item? s cmd stop) c fun r _ => ∀ y, r = some (some y) → Writes Plain y.print := by
  refine .bind (Q := fun _ c₁ => Sound c₁) ⟨rfl, Stays.skipNewlines c hc⟩ fun _ c₁ hc₁ => ?_
  refine .cur (.ite (fun _ => .pure nofun) fun _ => ?_)
  refine .bind (Q := fun r _ => ∀ x, r = some x → Writes Plain x.print) ⟨rfl, fun x hx => ?_⟩ fun r c₂ hr => ?_
  · exact results_andOr hcmd hc₁ x _ (Prod.ext hx rfl)
  cases r with
  | none => exact .bind (Q := fun _ _ => True) ⟨rfl, trivial⟩ fun _ _ _ => .pure nofun
  | some x =>
      refine .cur ?_
      extract_lets y jp
      have hy : Writes Plain y.print := by
        dsimp only [y]
        split
        · exact plain_background (hr x rfl)
        · exact hr x rfl
      have hdone (c₃ : Cursor) : Runs (jp ()) (jp ()) c₃ fun r _ => ∀ y, r = some (some y) → Writes Plain y.print :=
        .pure fun _ h => by cases h; exact hy
      have hskip (c₃ : Cursor) {m : Scanning Unit} :
          Runs (m >>= jp) (m >>= jp) c₃ fun r _ => ∀ y, r = some (some y) → Writes Plain y.print :=
        .bind (Q := fun _ _ => True) ⟨rfl, trivial⟩ fun _ c₄ _ => hdone c₄
      refine .ite (fun _ => hskip c₂) fun _ => .ite (fun _ => hdone c₂) fun _ => ?_
      exact .bind (Q := fun _ _ => True) ⟨rfl, trivial⟩ fun _ c₃ _ => hskip c₃

theorem writes_printTop {x : Command} (rest : List Command) (h : Writes Plain x.print) :
    Writes Plain (printTop (x :: rest)) := by
  have hnewline : Opens Printer.newline := by
    intro p
    let docs := String.join (p.docs.map fun d => d.1 ++ d.2 ++ "\n")
    refine ⟨"\n" ++ (docs ++ Text.replicate p.indent "\t"), ?_, opening_text (by rfl) _⟩
    rw [← String.append_assoc, ← String.append_assoc]
    rfl
  have hrest : Appends (printTop rest) := by
    induction rest with
    | nil => exact appends_pure ()
    | cons y ys ih => exact y.appends.seq (appends_newline.seq ih)
  exact plain_seq h (Opens.plain (hnewline.seq hrest))

theorem writes_blockOf {v : View} (hw : v.watch = .hereDocs) {ps : PartsReader} (hps : ps = parts v.setting nested)
    (hparts : PartsReader.Agree v ps ps v.size) (hc : c.Ready v.size) (hsound : Sound c)
    (hcalm : v.Calm (blockOf v.setting ps c).2.diags) : Writes Plain (printTop (blockOf v.setting ps c).1.items) := by
  have hcmd := reader_command hparts (Nat.le_refl c.toks.length) (Nat.le_refl c.toks.length)
  obtain ⟨items, hloop, hitems⟩ : ∃ items,
      listFor (item? v.setting (command v.setting ps (inner v.setting ps c.toks.length)) fun _ => false) (c.toks.length + 1) c =
        (items, (blockOf v.setting ps c).2) ∧ (blockOf v.setting ps c).1.items = items.filterMap id := ⟨_, rfl, rfl⟩
  rw [hitems]
  obtain ⟨rfl, -⟩ | ⟨y, rest, c₁, rfl, -⟩ := items_turn hw hc hcmd (Nat.lt_succ_self _) hloop hcalm
  · exact plain_pure
  · obtain ⟨hnil, -⟩ | ⟨a, rest', c₂, hcons, hturn, -⟩ := of_listFor hloop
    · cases hnil
    · obtain ⟨rfl, rfl⟩ := List.cons.inj hcons
      subst hps
      have hy := (runs_item_plain (fun _ => results_command) (fun _ => false) hsound).result hturn y rfl
      exact writes_printTop _ hy

end Texts

theorem plain_fresh {m : Printing Unit} (h : Writes Plain m) : Plain (Printer.fresh m).toList := by
  obtain ⟨s, hs, hp⟩ := h {}
  rw [Printer.fresh, hs, String.empty_append]
  exact hp

-- The text itself is never run.
attribute [local irreducible] textAt

theorem plain_textAt {s : Setting} {ps : PartsReader} {nested : Nested} {p : Position} {cs : List Char}
    (hps : ps = parts s nested) (hparts : PartsReader.Agree ⟨s, .hereDocs, cs.length⟩ ps ps cs.length)
    (hsound : Diagnostic.Harmless (textAt s ps p cs).2.toArray) : Plain (textAt s ps p cs).1.text.toList := by
  obtain ⟨v, rfl, hw, hv⟩ : ∃ v : View, v.setting = s ∧ v.watch = .hereDocs ∧ v.size = cs.length :=
    ⟨⟨s, .hereDocs, _⟩, rfl, rfl, rfl⟩
  rw [← hw, ← hv] at hparts
  rw [textAt_eq] at hsound ⊢
  have hready : (startOf (scanned v.setting p cs).1).Ready v.size :=
    ready_startOf (Token.layout_scanText _ _ _ _) (Nat.le_of_eq hv.symm)
  have hcalm : v.Calm (blockOf v.setting ps (startOf (scanned v.setting p cs).1)).2.diags := by
    rw [View.Calm, hw]
    refine fun d hd => hsound d ?_
    simp only [List.mem_toArray, mem_settle, List.mem_append, Array.mem_toList_iff]
    exact .inr hd
  exact plain_fresh (writes_blockOf hw hps hparts hready (sound_startOf _ _ _ _) hcalm)

end Read

open Read

attribute [local irreducible] textAt

-- Where nothing of a script is fatal, what is written of its commands does not begin with a comment.
theorem plain_body {dialect : Option Dialect} {name src : String} (h : (read dialect name src).isFatal = false) :
    Plain (read dialect name src).body.text.toList := by
  obtain ⟨d, hd⟩ := exists_readAs h
  rw [hd] at h ⊢
  have hharmless := File.harmless_of_not_fatal h
  obtain ⟨hbody, hfound⟩ := Prod.ext_iff.mp (readAs_eq d name src)
  dsimp only at hbody hfound
  rw [← hfound] at hharmless
  rw [← hbody]
  exact plain_textAt rfl (parts_agree (Nat.le_succ _) (Nat.le_succ _)) hharmless

end Script
end ShellScript

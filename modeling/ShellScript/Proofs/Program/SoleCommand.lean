import ShellScript.Proofs.Program.Operand
import ShellScript.Proofs.Script.FileReading
import ShellScript.Proofs.Token.Idle

-- A text in which one arithmetic command is read, with nothing fatal: how far the command reaches, and what follows it.
namespace ShellScript
namespace Script
namespace Read

section Results

variable {α β : Type} {s : Setting} {parts : PartsReader} {inner : Inner} {cmd : Parse Command} {c c' : Cursor}
  {p : Position} {x : ArithExpr}

-- Both parts of a reader that succeeds do.
theorem of_bind_some {m : Parse α} {f : α → Parse β} {b : β} (h : (m >>= f) c = (some b, c')) :
    ∃ a c₁, m c = (some a, c₁) ∧ f a c₁ = (some b, c') := by
  cases hm : m c with
  | mk r c₁ =>
      cases r with
      | some a => exact ⟨a, c₁, rfl, (bind_some hm f).symm.trans h⟩
      | none =>
          have hnone : (m >>= f) c = (none, c₁) :=
            (congrFun (OptionT.run_bind f) c).trans (bind_of_read (m := m.run) hm _)
          rw [hnone] at h
          cases h

-- A loop without a turn.
theorem of_many_nil {turn : Parse (Option α)} (h : many turn c = (some [], c')) : turn c = (some none, c') := by
  have h : listFor turn (c.toks.length + 1) c = (some [], c') := h
  rw [listFor] at h
  obtain ⟨r, c₁, hturn, h⟩ := of_bind_some h
  cases r with
  | none =>
      cases h
      exact hturn
  | some a =>
      obtain ⟨as, c₂, -, h⟩ := of_bind_some h
      cases h

-- A turn that looks at the token under the cursor, and is not taken there.
theorem of_turn_none {q : Token → Bool} {m : Token → Parse (Option α)} (hm : ∀ t c, m t c ≠ (some none, c'))
    (h : ((liftM cur : Parse Token) >>= fun t => if q t then m t else pure none) c = (some none, c')) : c' = c := by
  rw [cur_bind] at h
  split at h
  · exact absurd h (hm _ _)
  · cases h
    rfl

-- An arithmetic command is the result of no other reader.

theorem arith_of_withRedirects {y : Command} (h : withRedirects s parts y c = (some (.arith p x), c')) :
    y = .arith p x ∧ c' = c := by
  obtain ⟨rs, c₁, hmany, h⟩ := of_bind_some h
  cases rs with
  | nil =>
      cases h
      refine ⟨rfl, of_turn_none (q := isRedirection) (fun t c hsome => ?_) (of_many_nil hmany)⟩
      obtain ⟨r, c₂, -, hsome⟩ := of_bind_some hsome
      cases hsome
  | cons r rs => cases h

-- After a bar or a connective there is a command more.

theorem joined_ne_none {m : Parse α} {f : α → β} :
    (do next; skipNewlines; let y ← m; return some (f y) : Parse (Option β)) c ≠ (some none, c') := by
  intro h
  obtain ⟨_, _, -, h⟩ := of_bind_some h
  obtain ⟨_, _, -, h⟩ := of_bind_some h
  obtain ⟨_, _, -, h⟩ := of_bind_some h
  cases h

theorem stage?_none (h : stage? cmd c = (some none, c')) : c' = c :=
  of_turn_none (q := fun t => t.kind == .pipe || t.kind == .pipeAll) (fun _ _ => joined_ne_none) h

theorem link?_none (h : link? cmd c = (some none, c')) : c' = c :=
  of_turn_none (q := fun t => t.kind == .and || t.kind == .or) (fun _ _ => joined_ne_none) h

theorem isKeyword_of_ne {names : List String} {t : Token} (h : t.kind ≠ .word) : isKeyword names t = false := by
  rw [isKeyword, beq_eq_false_iff_ne.mpr h, Bool.false_and, Bool.false_and]

theorem arith_of_pipeline (hhead : c.head.kind ≠ .word) (h : pipeline cmd c = (some (.arith p x), c')) :
    cmd c = (some (.arith p x), c') := by
  have hplain : isKeyword ["!"] (c.toks.headD endOfText) = false := isKeyword_of_ne hhead
  unfold pipeline at h
  rw [cur_bind] at h
  simp only [hplain, Bool.false_eq_true, if_false] at h
  obtain ⟨first, c₁, hfirst, h⟩ := of_bind_some h
  obtain ⟨rest, c₂, hrest, h⟩ := of_bind_some h
  cases rest with
  | cons y rest => cases h
  | nil =>
      cases h
      rwa [stage?_none (of_many_nil hrest)]

theorem foldl_andOr_ne_arith (links : List (Position × Connective × Command)) (y z : Command)
    (op : Position × Connective) :
    links.foldl (fun x (p, op, y) => Command.andOr p op x y) (.andOr op.1 op.2 y z) ≠ .arith p x := by
  induction links generalizing y z op with
  | nil => nofun
  | cons l links ih => exact ih _ _ (l.1, l.2.1)

theorem arith_of_andOr (hhead : c.head.kind ≠ .word) (h : andOr cmd c = (some (.arith p x), c')) :
    cmd c = (some (.arith p x), c') := by
  obtain ⟨y, c₁, hy, h⟩ := of_bind_some h
  obtain ⟨links, c₂, hlinks, h⟩ := of_bind_some h
  obtain ⟨hresult, rfl⟩ := Prod.mk.inj h
  have hfold := Option.some.inj hresult
  cases links with
  | cons l links => exact absurd hfold (foldl_andOr_ne_arith links _ _ (l.1, l.2.1))
  | nil =>
      obtain rfl : y = .arith p x := hfold
      rw [link?_none (of_many_nil hlinks)]
      exact arith_of_pipeline hhead hy

theorem command_eq {m : Parse Command} {k : Token.Kind} (hk : c.head.kind = k)
    (hm : k = .lparen ∧ m = subshell s inner ∨ k = .arith ∧ m = arithCommand s parts) :
    command s parts inner c = (m >>= withRedirects s parts) c := by
  have hkind : (c.toks.headD endOfText).kind = k := hk
  unfold command
  rw [cur_bind, hkind]
  obtain ⟨rfl, rfl⟩ | ⟨rfl, rfl⟩ := hm <;> rfl

theorem fail_ne_some {q : Position} {message : String} {a : α} : fail s q message c ≠ (some a, c') := by
  intro h
  obtain ⟨_, _, -, h⟩ := of_bind_some h
  cases h

theorem subshell_ne_arith : subshell s inner c ≠ (some (.arith p x), c') := by
  intro h
  obtain ⟨_, _, -, h⟩ := of_bind_some h
  obtain ⟨_, _, -, h⟩ := of_bind_some h
  obtain ⟨_, _, -, h⟩ := of_bind_some h
  obtain ⟨_, _, -, h⟩ := of_bind_some h
  split at h
  · obtain ⟨_, _, -, h⟩ := of_bind_some h
    cases h
  · split at h
    · exact fail_ne_some h
    · exact fail_ne_some h

theorem arith_of_command (hhead : c.head.kind = .lparen ∨ c.head.kind = .arith)
    (h : command s parts inner c = (some (.arith p x), c')) :
    c.head.kind = .arith ∧ arithCommand s parts c = (some (.arith p x), c') := by
  obtain hopen | harith := hhead
  · rw [command_eq hopen (.inl ⟨rfl, rfl⟩)] at h
    obtain ⟨y, c₁, hy, h⟩ := of_bind_some h
    obtain ⟨rfl, rfl⟩ := arith_of_withRedirects h
    exact absurd hy subshell_ne_arith
  · rw [command_eq harith (.inr ⟨rfl, rfl⟩)] at h
    obtain ⟨y, c₁, hy, h⟩ := of_bind_some h
    obtain ⟨rfl, rfl⟩ := arith_of_withRedirects h
    exact ⟨harith, hy⟩

theorem lift_words (r : Reading α) (c : Cursor) :
    (OptionT.lift (words r) : Parse α) c = (some (r.run c.diags).1, { c with diags := (r.run c.diags).2 }) := rfl

-- What an arithmetic command is read from.
theorem of_arithCommand (h : arithCommand s parts c = (some (.arith p x), c')) :
    ∃ ds, (arithText s parts (arithStart c.head) c.head.text.toList).run c.diags = (some x, ds) ∧
      c' = ({ c with diags := ds } : Cursor).passed := by
  unfold arithCommand at h
  rw [cur_bind, bind_some (lift_words _ c)] at h
  change ∃ ds, (arithText s parts (arithStart (c.toks.headD endOfText)) (c.toks.headD endOfText).text.toList).run c.diags =
    (some x, ds) ∧ _
  generalize (arithText s parts (arithStart (c.toks.headD endOfText)) (c.toks.headD endOfText).text.toList).run c.diags = r
    at h ⊢
  obtain ⟨y, ds⟩ := r
  obtain ⟨_, c₂, hnext, h⟩ := of_bind_some h
  cases y with
  | none => exact absurd h fail_ne_some
  | some y =>
      cases h
      cases hnext
      exact ⟨ds, rfl, rfl⟩

end Results

-- What is read of a text in which nothing is fatal.

section Items

variable {v : View} {cmd : Parse Command} {c c' : Cursor} {p : Position} {x : ArithExpr}

-- The ways in which an item is read from a cursor on.
inductive ItemRead (cmd : Parse Command) (c : Cursor) : Option (Option Command) → Cursor → Prop where
  | ended (eof : (skipNewlines.run c).2.head.kind = .eof) : ItemRead cmd c none (skipNewlines.run c).2
  | background {y : Command} {c' : Cursor} : ItemRead cmd c (some (some (.background y))) c'
  | separated {y : Command} {c' : Cursor} (command : andOr cmd (skipNewlines.run c).2 = (some y, c'))
      (separator : c'.head.kind = .semi ∨ c'.head.kind = .newline) : ItemRead cmd c (some (some y)) c'.passed
  | last {y : Command} {c' : Cursor} (command : andOr cmd (skipNewlines.run c).2 = (some y, c'))
      (eof : c'.head.kind = .eof) : ItemRead cmd c (some (some y)) c'

theorem Runs.named {α : Type} {m : Scanning α} {Q : α → Cursor → Prop} (h : Runs m m c Q) :
    Runs m m c fun a c' => m c = (a, c') ∧ Q a c' := ⟨rfl, rfl, h.2⟩

theorem Runs.result {α : Type} {m : Scanning α} {Q : α → Cursor → Prop} {a : α} (h : Runs m m c Q) (hm : m c = (a, c')) :
    Q a c' := by
  have hq : Q (m c).1 (m c).2 := h.2
  rwa [hm] at hq

theorem Failed.not_calm {c₀ : Cursor} (hw : v.watch = .hereDocs) (h : Failed v c₀ c) : ¬v.Calm c.diags := by
  intro hcalm
  have hshape := h.lost hcalm
  rw [hw] at hshape
  cases hshape

-- An item that could not be read has left an error.
theorem runs_itemRead (hw : v.watch = .hereDocs) (hc : c.Ready v.size) (hcmd : Reader v cmd cmd c.toks.length) :
    Runs (item? v.setting cmd fun _ => false) (item? v.setting cmd fun _ => false) c
      fun r c' => v.Calm c'.diags → ItemRead cmd c r c' := by
  refine .bind (runs_skipNewlines hc).named fun _ c₁ h => ?_
  obtain ⟨hskip, hleads, -⟩ := h
  have hc₁ : (skipNewlines.run c).2 = c₁ := congrArg Prod.snd hskip
  refine .cur (.ite (fun hend => .pure fun _ => ?_) fun _ => ?_)
  · rw [← hc₁]
    exact .ended (by simpa [hc₁] using hend)
  refine .bind (finds_andOr hleads.ready (hcmd.mono hleads.length_le)).named fun r c₂ h => ?_
  obtain ⟨hread, hr⟩ := h
  replace hread : andOr cmd (skipNewlines.run c).2 = (r, c₂) := hc₁ ▸ hread
  cases r with
  | none => exact .bind (runs_recover hr) fun _ c₃ h₃ => .pure fun hcalm => absurd hcalm (h₃.1.not_calm hw)
  | some y =>
      refine .cur ?_
      extract_lets y' after
      refine .ite (fun hsep => .next (.pure fun _ => ?_)) fun hsep => .ite (fun heof => .pure fun _ => ?_) fun _ => ?_
      · dsimp only [y']
        split
        · exact .background
        · rename_i hamp
          exact .separated hread (by simpa [hamp] using hsep)
      · have hamp : ¬(c₂.head.kind == .amp) = true := fun hamp => hsep (by simp [hamp])
        dsimp only [y']
        rw [if_neg hamp]
        exact .last hread (by simpa using heof)
      · refine .bind (Q := fun _ c₃ => Failed v c₂ c₃) ⟨rfl, failed_error hr.1.ready (Nat.le_refl _) _ _⟩ fun _ c₃ h₃ => ?_
        exact .bind (runs_recover h₃) fun _ c₄ h₄ => .pure fun hcalm => absurd hcalm (h₄.1.not_calm hw)

theorem of_listFor {α : Type} {turn : Scanning (Option α)} {n : Nat} {as : List α} (h : listFor turn (n + 1) c = (as, c')) :
    (as = [] ∧ turn c = (none, c')) ∨
      ∃ a rest c₁, as = a :: rest ∧ turn c = (some a, c₁) ∧ listFor turn n c₁ = (rest, c') := by
  cases hturn : turn c with
  | mk r c₁ =>
      have hrun := (bind_of_read hturn _).symm.trans h
      cases r with
      | none =>
          cases hrun
          exact .inl ⟨rfl, rfl⟩
      | some a =>
          cases hrun
          exact .inr ⟨a, _, c₁, rfl, rfl, rfl⟩

-- One turn of the loop over the items, and what is left when the items to come are known.
theorem items_turn (hw : v.watch = .hereDocs) (hc : c.Ready v.size) (hcmd : Reader v cmd cmd c.toks.length) {n : Nat}
    (hn : c.toks.length < n + 1) {items : List (Option Command)}
    (h : listFor (item? v.setting cmd fun _ => false) (n + 1) c = (items, c')) (hcalm : v.Calm c'.diags) :
    (items = [] ∧ ItemRead cmd c none c') ∨
      ∃ y rest c₁, items = some y :: rest ∧ ItemRead cmd c (some (some y)) c₁ ∧ c₁.Ready v.size ∧
        v.Calm c₁.diags ∧ c₁.toks.length < c.toks.length ∧
        listFor (item? v.setting cmd fun _ => false) n c₁ = (rest, c') := by
  obtain ⟨rfl, hturn⟩ | ⟨a, rest, c₁, rfl, hturn, hrest⟩ := of_listFor h
  · exact .inl ⟨rfl, (runs_itemRead hw hc hcmd).result hturn hcalm⟩
  · have hleads : Leads v 1 c c₁ _ := (runs_item? (fun _ => false) hc hcmd).result hturn
    have hlt := hleads.lt
    have hloop := (runs_listFor (fun c' hc' hle => runs_item? (fun _ => false) hc' (hcmd.mono hle)) n n c₁ hleads.ready
      (Nat.le_of_lt hlt) (by omega) (by omega)).result hrest
    have hbefore := hloop.1.calm hcalm
    have hread := (runs_itemRead hw hc hcmd).result hturn hbefore
    cases a with
    | none => cases hread
    | some y => exact .inr ⟨y, rest, c₁, rfl, hread, hleads.ready, hbefore, hlt, hrest⟩

-- A block of one item.
theorem reads_of_block (hw : v.watch = .hereDocs) (hc : c.Ready v.size) (hcmd : Reader v cmd cmd c.toks.length) {b : Block}
    {y : Command} (h : block v.setting cmd (fun _ => false) c = (b, c')) (hitems : b.items = [y]) (hcalm : v.Calm c'.diags) :
    ∃ c₁, v.Calm c₁.diags ∧ ItemRead cmd c (some (some y)) c₁ ∧ ItemRead cmd c₁ none c' := by
  obtain ⟨items, hloop, hfilter⟩ : ∃ items,
      listFor (item? v.setting cmd fun _ => false) (c.toks.length + 1) c = (items, c') ∧ items.filterMap id = [y] := by
    cases h
    exact ⟨_, rfl, hitems⟩
  obtain ⟨rfl, -⟩ | ⟨z, rest, c₁, rfl, hread, hc₁, hbefore, hlt, hrest⟩ :=
    items_turn hw hc hcmd (Nat.lt_succ_self _) hloop hcalm
  · cases hfilter
  · obtain ⟨rfl, hnone⟩ := List.cons.inj hfilter
    obtain ⟨k, hk⟩ := Nat.exists_eq_succ_of_ne_zero (Nat.ne_zero_of_lt hlt)
    rw [hk] at hrest
    obtain ⟨rfl, hend⟩ | ⟨z', rest', -, rfl, -⟩ := items_turn hw hc₁ (hcmd.mono (Nat.le_of_lt hlt)) (by omega) hrest hcalm
    · exact ⟨c₁, hbefore, hread, hend⟩
    · cases hnone

end Items

-- The tokens that are passed without a word.

section Quiet

open Token (Quiet Trails)

variable {c c' : Cursor} {ts : List Token} {p : Position} {x : ArithExpr}

theorem significant_split (n : Nat) (ts : List Token) :
    ∃ front, ts = front ++ (significant n ts).2 ∧ ∀ u ∈ front, u.kind = .comment ∨ u.kind = .hereDoc := by
  fun_induction significant n ts with
  | case1 => exact ⟨[], rfl, List.forall_mem_nil _⟩
  | case2 n t ts hkind ih =>
      obtain ⟨front, hts, hfront⟩ := ih
      exact ⟨t :: front, congrArg (t :: ·) hts, List.forall_mem_cons.mpr ⟨.inl hkind, hfront⟩⟩
  | case3 n t ts hkind ih =>
      obtain ⟨front, hts, hfront⟩ := ih
      exact ⟨t :: front, congrArg (t :: ·) hts, List.forall_mem_cons.mpr ⟨.inr hkind, hfront⟩⟩
  | case4 => exact ⟨[], rfl, List.forall_mem_nil _⟩

theorem quiet_of_significant {n : Nat} (h : Quiet (significant n ts).2) : Quiet ts := by
  obtain ⟨front, hts, hfront⟩ := significant_split n ts
  rw [hts]
  refine List.forall_mem_append.mpr ⟨fun t ht => ?_, h⟩
  rcases hfront t ht with hkind | hkind <;> rw [hkind] <;> rfl

-- The tokens behind the one under the cursor.
theorem quiet_tail_of_passed (h : Quiet c.passed.toks) : Quiet c.toks.tail := by
  match htoks : c.toks with
  | [] | [_] => exact List.forall_mem_nil _
  | t :: u :: us =>
      rw [Cursor.passed_of_cons htoks] at h
      exact quiet_of_significant h

theorem quiet_of_passed (hhead : c.head.kind.isQuiet = true) (h : Quiet c.passed.toks) : Quiet c.toks := by
  have htail := quiet_tail_of_passed h
  unfold Cursor.head at hhead
  cases htoks : c.toks with
  | nil => exact List.forall_mem_nil _
  | cons t us =>
      rw [htoks] at hhead htail
      exact List.forall_mem_cons.mpr ⟨hhead, htail⟩

theorem newline?_eq (c : Cursor) : newline? c = if c.head.kind == .newline then (some (), c.passed) else (none, c) := by
  change (if c.head.kind == .newline then next >>= fun _ => pure (some ()) else pure none : Scanning (Option Unit)) c = _
  split <;> rfl

-- Ends of lines are skipped up to a token that is none.
theorem quiet_of_newlines {n : Nat} {us : List Unit} (h : listFor newline? n c = (us, c')) (hquiet : Quiet c'.toks) :
    Quiet c.toks := by
  induction n generalizing c us with
  | zero =>
      cases h
      exact hquiet
  | succ n ih =>
      obtain ⟨-, hturn⟩ | ⟨_, rest, c₁, -, hturn, hrest⟩ := of_listFor h
      · rw [newline?_eq] at hturn
        split at hturn <;> cases hturn
        exact hquiet
      · rw [newline?_eq] at hturn
        split at hturn <;> cases hturn
        rename_i hkind
        exact quiet_of_passed (by rw [beq_iff_eq.mp hkind]; rfl) (ih hrest)

theorem quiet_of_skipNewlines (hends : EndsText (skipNewlines.run c).2.toks)
    (heof : (skipNewlines.run c).2.head.kind = .eof) : Quiet c.toks := by
  refine quiet_of_newlines (n := c.toks.length + 1) (show _ = (_, (skipNewlines.run c).2) from rfl) ?_
  rw [Cursor.toks_of_eof hends heof]
  exact List.forall_mem_singleton.mpr (by rw [heof]; rfl)

theorem skipNewlines_of_ne (h : c.head.kind ≠ .newline) : skipNewlines.run c = ((), c) := by
  have hloop : listFor newline? (c.toks.length + 1) c = ([], c) := by
    have hturn : newline? c = (none, c) := (newline?_eq c).trans (if_neg (by simpa using h))
    exact (bind_of_read hturn _).trans rfl
  exact congrArg (fun r => ((), r.2)) hloop

-- What follows a command that is the only item.
theorem trails_of_itemRead {cmd : Parse Command} {c₁ : Cursor} (hends : EndsText c'.toks) (hhead : c.head.kind ≠ .newline)
    (hitem : ItemRead cmd c (some (some (.arith p x))) c₁) (hend : ItemRead cmd c₁ none c') :
    ∃ c₂, c₂.diags = c₁.diags ∧ andOr cmd c = (some (.arith p x), c₂) ∧
      ∀ n ts, c₂.toks = (significant n ts).2 → Trails ts := by
  have hskip : (skipNewlines.run c).2 = c := congrArg Prod.snd (skipNewlines_of_ne hhead)
  cases hend with
  | ended heof =>
      have hquiet := quiet_of_skipNewlines hends heof
      cases hitem with
      | @separated _ c₂ hread hsep =>
          refine ⟨c₂, c₂.passed_diags.symm, hskip ▸ hread, fun n ts hts => ?_⟩
          rcases hsep with hsemi | hnewline
          · obtain ⟨front, hsplit, hfront⟩ := significant_split n ts
            have hback := quiet_tail_of_passed hquiet
            rw [← hts] at hsplit
            unfold Cursor.head at hsemi
            cases htoks : c₂.toks with
            | nil =>
                rw [htoks] at hsemi
                cases hsemi
            | cons t back =>
                rw [htoks] at hsemi hback hsplit
                exact .inr ⟨front, t, back, hsplit, hfront, hsemi, hback⟩
          · exact .inl (quiet_of_significant (hts ▸ quiet_of_passed (by rw [hnewline]; rfl) hquiet))
      | last hread _ => exact ⟨c₁, rfl, hskip ▸ hread, fun n ts hts => .inl (quiet_of_significant (hts ▸ hquiet))⟩

end Quiet

section Texts

open Token (Trails Unsaid)

variable {s : Setting} {parts : PartsReader} {p q : Position} {x : ArithExpr}

-- A cursor at one or two parentheses from which an arithmetic command is read, and nothing else.
theorem arith_of_blockOf {v : View} (hw : v.watch = .hereDocs) (hparts : PartsReader.Agree v parts parts v.size) {c : Cursor}
    (hc : c.Ready v.size) {t : Token} {ts : List Token} (htoks : c.toks = t :: ts) (ht : t.kind = .lparen ∨ t.kind = .arith)
    (hitems : (blockOf v.setting parts c).1.items = [.arith p x]) (hcalm : v.Calm (blockOf v.setting parts c).2.diags) :
    t.kind = .arith ∧ Trails ts ∧
      ∃ ds, (arithText v.setting parts (arithStart t) t.text.toList).run c.diags = (some x, ds) ∧ v.Calm ds := by
  have hcmd := reader_command hparts (Nat.le_refl c.toks.length) (Nat.le_refl c.toks.length)
  obtain ⟨-, hleads, -⟩ := runs_blockOf hparts hc
  have hhead : c.head = t := by rw [Cursor.head, htoks]; rfl
  rw [← hhead] at ht ⊢
  obtain ⟨c₁, hbefore, hitem, hend⟩ := reads_of_block hw hc hcmd (b := (blockOf v.setting parts c).1) rfl hitems hcalm
  have hne {k : Token.Kind} (hopen : k ≠ .lparen) (harith : k ≠ .arith) : c.head.kind ≠ k := by
    rintro rfl
    exact ht.elim hopen harith
  obtain ⟨c₂, hdiags, hread, htrails⟩ := trails_of_itemRead hleads.ready.ends (hne nofun nofun) hitem hend
  obtain ⟨hkind, harith⟩ := arith_of_command ht (arith_of_andOr (hne nofun nofun) hread)
  obtain ⟨ds, hrun, rfl⟩ := of_arithCommand harith
  refine ⟨hkind, ?_, ds, hrun, ?_⟩
  · obtain ⟨u, us, hus⟩ := Cursor.toks_of_ne_eof hc.ends (by rw [hkind]; nofun)
    obtain ⟨-, rfl⟩ := List.cons.inj (htoks.symm.trans hus)
    refine htrails c.pending _ ?_
    rw [Cursor.passed_of_cons (c := { c with diags := ds }) hus]
  · rw [← hdiags, Cursor.passed_diags] at hbefore
    exact hbefore

theorem arith_of_textAt {cs : List Char} (hd : s.dialect.supports .arithCommand = true)
    (hparts : PartsReader.Agree ⟨s, .hereDocs, ('(' :: '(' :: cs).length⟩ parts parts ('(' :: '(' :: cs).length)
    (hitems : (textAt s parts p ('(' :: '(' :: cs)).1.items = [.arith q x])
    (hsound : Diagnostic.Harmless (textAt s parts p ('(' :: '(' :: cs)).2.toArray) :
    ∃ inside rest ds, cs = inside ++ ')' :: ')' :: rest ∧ Unsaid rest ∧
      (arithText s parts (p.advance ['(', '(']) inside).run #[] = (some x, ds) ∧ Diagnostic.Harmless ds := by
  obtain ⟨v, rfl, hw, hv⟩ : ∃ v : View, v.setting = s ∧ v.watch = .hereDocs ∧ v.size = ('(' :: '(' :: cs).length :=
    ⟨⟨s, .hereDocs, _⟩, rfl, rfl, rfl⟩
  rw [← hw, ← hv] at hparts
  rw [textAt_eq] at hitems hsound
  obtain ⟨t, ts, htoks, ht⟩ := Token.scanText_open hd v.setting.file p cs
  have hstart : (startOf (scanned v.setting p ('(' :: '(' :: cs)).1).toks = t :: ts := by
    change (significant 0 (Token.scanText v.setting.dialect v.setting.file p ('(' :: '(' :: cs)).1).2 = _
    rw [htoks]
    refine congrArg Prod.snd (significant_of_ne ?_ ?_ ts)
    all_goals rcases ht with ht | ⟨ht, -⟩ <;> rw [ht] <;> nofun
  have hready : (startOf (scanned v.setting p ('(' :: '(' :: cs)).1).Ready v.size :=
    ready_startOf (Token.layout_scanText v.setting.dialect v.setting.file p ('(' :: '(' :: cs)) (Nat.le_of_eq hv.symm)
  have hcalm : v.Calm (blockOf v.setting parts (startOf (scanned v.setting p ('(' :: '(' :: cs)).1)).2.diags := by
    rw [View.Calm, hw]
    refine fun d hd => hsound d ?_
    simp only [List.mem_toArray, mem_settle, List.mem_append, Array.mem_toList_iff]
    exact .inr hd
  obtain ⟨hkind, htrails, ds, hrun, hds⟩ :=
    arith_of_blockOf hw hparts hready hstart (ht.imp id And.left) hitems hcalm
  rw [View.Calm, hw] at hds
  obtain hopen | ⟨-, rfl, rest, hcs, hrest⟩ := ht
  · rw [hopen] at hkind
    cases hkind
  · exact ⟨t.text.toList, rest, ds, hcs, hrest htrails, hrun, hds⟩

end Texts

-- The expression that a text is by itself, where it stands behind two parentheses; `none` when it is none.
def expression? (s : Setting) (cs : List Char) : Option ArithExpr :=
  let (x, ds) := (arithText s (parts s (nested s (cs.length + 1))) (Position.start.advance ['(', '(']) cs).run #[]
  if ds.any (·.1.isFatal) then none else x

theorem expression?_of_run {s : Setting} {cs : List Char} {n : Nat} {x : ArithExpr} {ds : Array Diagnostic.OfText}
    (hn : cs.length ≤ n)
    (h : (arithText s (parts s (nested s n)) (Position.start.advance ['(', '(']) cs).run #[] = (some x, ds))
    (hds : Diagnostic.Harmless ds) : expression? s cs = some x := by
  let v : View := ⟨s, .sameness, cs.length⟩
  have hparts : PartsReader.Agree v (parts s (nested s n)) (parts s (nested s (cs.length + 1))) cs.length :=
    parts_agree hn (Nat.le_succ _)
  have hsame := (builds_arithText hparts (Position.start.advance ['(', '(']) cs (Nat.le_refl _) #[]).1
  change (arithText s (parts s (nested s n)) _ cs).run #[] = (arithText s (parts s (nested s (cs.length + 1))) _ cs).run #[]
    at hsame
  rw [h] at hsame
  rw [expression?, ← hsame]
  have hnone : ds.any (·.1.isFatal) = false := Array.any_eq_false'.mpr fun d hd => by simp [hds d hd]
  simp [hnone]

end Read

open Read

attribute [local irreducible] textAt

-- Where nothing of a text between two pairs of parentheses is fatal and one arithmetic command is read, the command ends
-- at two parentheses behind which nothing is said, and it is what the text before them is by itself.
theorem sole_arith {d : Dialect} (hd : d.supports .arithCommand = true) {name text : String} {p : Position} {x : ArithExpr}
    (hsound : (readAs d name ("((" ++ text ++ "))")).isFatal = false)
    (hitems : (readAs d name ("((" ++ text ++ "))")).body.items = [.arith p x]) :
    ∃ cs rest, text.toList ++ [')', ')'] = cs ++ ')' :: ')' :: rest ∧ Token.Unsaid rest ∧
      expression? ⟨d, name⟩ cs = some x := by
  have hsrc : ("((" ++ text ++ "))").toList = '(' :: '(' :: (text.toList ++ [')', ')']) := by simp
  generalize "((" ++ text ++ "))" = src at hsound hitems hsrc
  have hread := readAs_eq d name src
  have hharmless := File.harmless_of_not_fatal hsound
  rw [hsrc] at hread
  obtain ⟨hbody, hfound⟩ := Prod.ext_iff.mp hread
  dsimp only at hbody hfound
  rw [← hbody] at hitems
  rw [← hfound] at hharmless
  obtain ⟨cs, rest, ds, hcs, hrest, hrun, hds⟩ :=
    arith_of_textAt hd (parts_agree (Nat.le_succ _) (Nat.le_succ _)) hitems hharmless
  refine ⟨cs, rest, hcs, hrest, expression?_of_run ?_ hrun hds⟩
  rw [hcs, List.length_cons, List.length_cons, List.length_append]
  omega

end Script
end ShellScript

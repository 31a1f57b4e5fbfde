import ShellScript.Proofs.Script.SimpleReading
import ShellScript.Proofs.Text.Order

-- What the readers of tests, pipelines, lists and blocks do. A reader of commands is a parameter of these: it has only to do
-- well at the cursors that they can reach.
namespace ShellScript
namespace Script
namespace Read

open Cursor (Ready)

-- The nodes below each node, and what is asked of it.
attribute [local simp] View.Good Node.Formed Node.Served TestExpr.nodes Command.nodes Block.nodes wordNodes commandNodes
  NodeTree.hereDocs

section Tests

variable {v : View} {parts parts' : PartsReader} {operand operand' : Parse TestExpr} {c : Cursor}

theorem isPlain_of_testOperator {t : Token} (h : (testOperator? t).isSome = true) :
    (t.kind != .eof && t.kind != .dless && t.kind != .dlessDash) = true := by
  unfold testOperator? at h
  split at h <;> simp_all

theorem kind_of_isOperand {t : Token} (h : ¬(t.kind != .word || atTestEnd t) = true) : t.kind = .word := by
  simp only [Bool.or_eq_true, not_or, bne_iff_ne, Classical.not_not] at h
  exact h.1

theorem finds_testWords (hparts : PartsReader.Agree v parts parts' v.size) (hc : c.Ready v.size) (hkind : c.head.kind = .word) :
    Finds v 1 (testWords v.setting parts c.head) (testWords v.setting parts' c.head) c fun x => [x.nodes] := by
  have h := (Leads.start hc).pass hkind rfl
  refine .next (.cur (.ite (fun hunary => ?_) fun _ => ?_))
  · have hword : c.passed.head.kind = .word := by
      simp only [Bool.and_eq_true, beq_iff_eq] at hunary
      exact hunary.1.1.2
    refine .word hparts h.ready.head_le h fun w ds h₁ => .next (.pure ⟨?_, trivial⟩)
    exact (h₁.pass hword rfl).build (by decide) (by simp) (by simp)
  · refine .word hparts hc.head_le h fun x ds h₁ => ?_
    cases hop : testOperator? c.passed.head with
    | none => exact .pure ⟨h₁.build (by decide) (by simp) (by simp), trivial⟩
    | some op =>
        have h₂ := h₁.pass rfl (isPlain_of_testOperator (t := c.passed.head) (by simp [hop]))
        refine .next (.cur (.check h₂ fun hoperand => .word hparts h₂.ready.head_le h₂ fun y ds h₃ => .next (.pure ⟨?_, trivial⟩)))
        exact (h₃.pass (kind_of_isOperand hoperand) rfl).build (by decide) (by simp) (by simp)

theorem good_chain {op : String} {x : TestExpr} {others : List (Position × TestExpr)} (hx : x.nodes.All v.Good)
    (hothers : AllOf v.Good (others.flatMap fun y => [y.2.nodes])) :
    (others.foldl (fun x y => TestExpr.binary y.1 op x y.2) x).nodes.All v.Good := by
  induction others generalizing x with
  | nil => exact hx
  | cons y others ih =>
      obtain ⟨hy, hothers⟩ := allOf_cons.mp hothers
      exact ih (by simp [hx, hy]) hothers

@[simp] theorem hereDocsOf_tests (others : List (Position × TestExpr)) :
    hereDocsOf (others.flatMap fun y => [y.2.nodes]) = [] := by
  induction others with
  | nil => rfl
  | cons y others ih => simpa using ih

theorem finds_testLink? (op : Token.Kind) (hop : (op != .eof && op != .dless && op != .dlessDash) = true) (hc : c.Ready v.size)
    (hoperand : ∀ c', c'.Ready v.size → c'.toks.length ≤ c.toks.length → Finds v 1 operand operand' c' fun x => [x.nodes]) :
    Parses v c (testLink? op operand) (testLink? op operand') c (Turns v c (fun y => [y.2.nodes]) fun _ => True) := by
  refine .cur (.ite (fun hlink => .next ?_) fun _ => .pure ⟨.start hc, trivial⟩)
  refine .newlines ((Leads.start hc).pass (beq_iff_eq.mp hlink) hop) fun c₁ h₁ => ?_
  exact .find h₁ (hoperand c₁ h₁.ready h₁.length_le) fun y c₂ h₂ _ => .pure (h₂.build (by decide) (by simp) (by simp))

theorem finds_testChain (op : Token.Kind) (hop : (op != .eof && op != .dless && op != .dlessDash) = true) (hc : c.Ready v.size)
    (hoperand : ∀ c', c'.Ready v.size → c'.toks.length ≤ c.toks.length → Finds v 1 operand operand' c' fun x => [x.nodes]) :
    Finds v 1 (testChain op operand) (testChain op operand') c fun x => [x.nodes] := by
  refine .find (.start hc) (hoperand c hc (Nat.le_refl _)) fun x c₁ h₁ _ => ?_
  refine .find h₁ (finds_many h₁.ready fun c' hc' hle => finds_testLink? op hop hc' fun c'' hc'' hle' =>
    hoperand c'' hc'' (Nat.le_trans hle' (Nat.le_trans hle h₁.length_le))) fun others c₂ h₂ _ => .pure ⟨?_, trivial⟩
  refine h₂.build (by decide) (fun hgood => ?_) (by simp)
  obtain ⟨hx, hothers⟩ := allOf_append.mp hgood
  exact allOf_cons.mpr ⟨good_chain (allOf_cons.mp hx).1 hothers, allOf_nil⟩

-- A test inside stands after a token that has been taken, so the bound on the depth is never met.
theorem finds_testOperand (hparts : PartsReader.Agree v parts parts' v.size) : ∀ n n' c, c.Ready v.size → c.toks.length < n →
    c.toks.length < n' →
    Finds v 1 (testOperand v.setting parts n) (testOperand v.setting parts' n') c fun x => [x.nodes]
  | n + 1, n' + 1, c, hc, hn, hn' => by
      refine .cur (.ite (fun hnot => .next ?_) fun _ => .ite (fun hopen => .next ?_) fun _ => .ite (fun _ => ?_) fun hwords => ?_)
      · have hword : c.head.kind = .word := by
          simp only [Bool.and_eq_true, beq_iff_eq] at hnot
          exact hnot.1.1
        have h := (Leads.start hc).pass hword rfl
        have hlt := h.lt
        refine .find h (finds_testOperand hparts n n' _ h.ready (by omega) (by omega)) fun x c₁ h₁ _ => .pure ⟨?_, trivial⟩
        exact h₁.build (by decide) (by simp) (by simp)
      · have h := (Leads.start hc).pass (beq_iff_eq.mp hopen) rfl
        have hlt := h.lt
        have hchain := finds_testChain .or rfl h.ready fun c₁ hc₁ hle => finds_testChain .and rfl hc₁ fun c₂ hc₂ hle' =>
          finds_testOperand hparts n n' c₂ hc₂ (by omega) (by omega)
        refine .find h hchain fun x c₁ h₁ _ => .cur (.check h₁ fun hclose => .next (.pure ⟨?_, trivial⟩))
        have hclose : c₁.head.kind = .rparen := by simpa using hclose
        exact (h₁.pass hclose rfl).build (by decide) (by simp) (by simp)
      · exact .fail (.start hc) _ _
      · exact finds_testWords hparts hc (kind_of_isOperand hwords)

theorem finds_testClause (hparts : PartsReader.Agree v parts parts' v.size) (hc : c.Ready v.size)
    (hkind : c.head.kind = .word) :
    Finds v 1 (testClause v.setting parts) (testClause v.setting parts') c fun x => [x.nodes] := by
  refine .cur (.warn (.start hc) fun ds h => .next (.cur (.check (h.pass hkind rfl) fun _ => ?_)))
  have h₁ := h.pass hkind rfl
  have hchain := finds_testChain .or rfl h₁.ready fun c₂ hc₂ hle => finds_testChain .and rfl hc₂ fun c₃ hc₃ hle' =>
    finds_testOperand hparts _ _ c₃ hc₃ (Nat.lt_succ_of_le (Nat.le_trans hle' hle)) (Nat.lt_succ_of_le (Nat.le_trans hle' hle))
  refine .left (.find h₁ hchain fun x c₂ h₂ _ => .expect h₂ fun c₃ h₃ => .pure ⟨?_, trivial⟩)
  exact h₃.build (by decide) (by simp) (by simp)

end Tests

section Commands

variable {v : View} {parts parts' : PartsReader} {inner inner' : Inner} {cmd cmd' : Parse Command} {n : Nat} {c : Cursor}

theorem finds_command (hparts : PartsReader.Agree v parts parts' v.size) (hc : c.Ready v.size)
    (hinner : Inner.Agree v inner inner' c.toks.length) :
    Finds v 1 (command v.setting parts inner) (command v.setting parts' inner') c fun x => [x.nodes] := by
  have hredirs : ∀ {m m' : Parse Command}, Finds v 1 m m' c (fun x => [x.nodes]) →
      Finds v 1 (m >>= withRedirects v.setting parts) (m' >>= withRedirects v.setting parts') c fun x => [x.nodes] :=
    fun hm => .seq hm fun x c₁ hx => .withRedirects hparts hx.1
  refine .cur (.ite (fun hkey => ?_) fun _ => .ite (fun hopen => ?_) fun _ => .ite (fun harith => ?_) fun _ => .ite (fun _ => ?_)
    fun _ => .fail (.start hc) _ _)
  · have hword : c.head.kind = .word := by
      simp only [Bool.and_eq_true, beq_iff_eq] at hkey
      exact hkey.1
    split
    · exact hredirs (finds_ifClause hc hword hinner)
    · exact hredirs (finds_whileClause hc hword hinner)
    · exact hredirs (finds_whileClause hc hword hinner)
    · exact hredirs (finds_forClause hparts hc hword hinner)
    · exact hredirs (finds_selectClause hparts hc hword hinner)
    · exact hredirs (finds_caseClause hparts hc hword hinner)
    · exact hredirs (finds_functionKeyword hparts hc hword hinner)
    · exact hredirs (finds_group hc hword hinner)
    · exact hredirs (finds_testClause hparts hc hword)
    · exact .stop (.start hc) _ _
  · exact hredirs (finds_subshell hc (beq_iff_eq.mp hopen) hinner)
  · exact hredirs (finds_arithCommand hparts hc (beq_iff_eq.mp harith))
  · exact finds_simpleCommand hparts hc hinner

-- A reader of commands that does well at every cursor with no more than `k` tokens.
def Reader (v : View) (cmd cmd' : Parse Command) (k : Nat) : Prop :=
  ∀ c, c.Ready v.size → c.toks.length ≤ k → Finds v 1 cmd cmd' c fun x => [x.nodes]

theorem Reader.mono {k j : Nat} (h : Reader v cmd cmd' k) (hle : j ≤ k) : Reader v cmd cmd' j :=
  fun c hc hlen => h c hc (Nat.le_trans hlen hle)

theorem finds_stage? (hc : c.Ready v.size) (hcmd : Reader v cmd cmd' c.toks.length) :
    Parses v c (stage? cmd) (stage? cmd') c (Turns v c (fun x => [x.2.nodes]) fun _ => True) := by
  refine .cur (.ite (fun hpipe => .next ?_) fun _ => .pure ⟨.start hc, trivial⟩)
  refine .newlines ((Leads.start hc).pass_or hpipe rfl rfl) fun c₁ h₁ => ?_
  refine .find h₁ (hcmd c₁ h₁.ready h₁.length_le) fun x c₂ h₂ _ => .pure ?_
  exact h₂.build (by decide) (by simp) (by simp)

@[simp] theorem flatMap_commandNodes (cs : List Command) : (cs.flatMap fun x => [x.nodes]) = commandNodes cs := by
  rw [commandNodes_eq, List.map_eq_flatMap]

theorem flatMap_stageNodes (xs : List (Bool × Command)) :
    (xs.flatMap fun x => [x.2.nodes]) = commandNodes (xs.map Prod.snd) := by
  rw [← flatMap_commandNodes, List.flatMap_map]

theorem finds_pipeline (hc : c.Ready v.size) (hcmd : Reader v cmd cmd' c.toks.length) :
    Finds v 1 (pipeline cmd) (pipeline cmd') c fun x => [x.nodes] := by
  refine .cur ?_
  extract_lets negated after after'
  have hafter : ∀ c₁, Leads v 0 c c₁ [] → Parses v c (after ()) (after' ()) c₁
      (Leaves v 1 c (fun x => [x.nodes]) fun _ _ => True) := by
    intro c₁ h
    refine .find h (hcmd c₁ h.ready h.length_le) fun first c₂ h₁ _ => ?_
    refine .find h₁ (finds_many h₁.ready fun c' hc' hle =>
      finds_stage? hc' (hcmd.mono (Nat.le_trans hle h₁.length_le))) fun rest c₃ h₂ _ => ?_
    rw [flatMap_stageNodes] at h₂
    refine .ite (fun hnone => .pure ⟨?_, trivial⟩) fun _ => .pure ⟨?_, trivial⟩
    · obtain rfl : rest = [] := List.isEmpty_iff.mp (Bool.and_eq_true_iff.mp hnone).1
      exact h₂.build (by decide) (by simp) (by simp)
    · exact h₂.build (by decide) (by simp) (by simp)
  refine .ite (fun hnot => .next (hafter _ ?_)) fun _ => hafter c (.start hc)
  exact ((Leads.start hc).pass (kind_of_isKeyword hnot) rfl).build (by decide) id rfl

theorem finds_link? (hc : c.Ready v.size) (hcmd : Reader v cmd cmd' c.toks.length) :
    Parses v c (link? cmd) (link? cmd') c (Turns v c (fun x => [x.2.2.nodes]) fun _ => True) := by
  refine .cur (.ite (fun hlink => .next ?_) fun _ => .pure ⟨.start hc, trivial⟩)
  refine .newlines ((Leads.start hc).pass_or hlink rfl rfl) fun c₁ h₁ => ?_
  refine .find h₁ (finds_pipeline h₁.ready (hcmd.mono h₁.length_le)) fun x c₂ h₂ _ => .pure ?_
  exact h₂.build (by decide) (by simp) (by simp)

theorem good_andOr {x : Command} {links : List (Position × Connective × Command)} (hx : x.nodes.All v.Good)
    (hlinks : AllOf v.Good (links.flatMap fun y => [y.2.2.nodes])) :
    (links.foldl (fun x y => Command.andOr y.1 y.2.1 x y.2.2) x).nodes.All v.Good := by
  induction links generalizing x with
  | nil => exact hx
  | cons y links ih =>
      obtain ⟨hy, hlinks⟩ := allOf_cons.mp hlinks
      exact ih (by simp [hx, hy]) hlinks

-- The here-documents of a chain are those of its links.
theorem hereDocs_andOr (x : Command) (links : List (Position × Connective × Command)) :
    (links.foldl (fun x y => Command.andOr y.1 y.2.1 x y.2.2) x).nodes.hereDocs =
      x.nodes.hereDocs ++ hereDocsOf (links.flatMap fun y => [y.2.2.nodes]) := by
  induction links generalizing x with
  | nil => simp
  | cons y links ih => simp [ih]

theorem finds_andOr (hc : c.Ready v.size) (hcmd : Reader v cmd cmd' c.toks.length) :
    Finds v 1 (andOr cmd) (andOr cmd') c fun x => [x.nodes] := by
  refine .find (.start hc) (finds_pipeline hc hcmd) fun x c₁ h₁ _ => ?_
  refine .find h₁ (finds_many h₁.ready fun c' hc' hle =>
    finds_link? hc' (hcmd.mono (Nat.le_trans hle h₁.length_le))) fun links c₂ h₂ _ => .pure ⟨?_, trivial⟩
  refine h₂.build (by decide) (fun hgood => ?_) ?_
  · obtain ⟨hx, hlinks⟩ := allOf_append.mp hgood
    exact allOf_cons.mpr ⟨good_andOr (allOf_cons.mp hx).1 hlinks, allOf_nil⟩
  · have hdocs := hereDocs_andOr x links
    simp [hdocs]

end Commands

section Blocks

variable {v : View} {cmd cmd' : Parse Command} {c₀ c : Cursor}

-- What is skipped after an error.

theorem runs_skipped? (h : Failed v c₀ c) :
    Runs skipped? skipped? c fun _ c' => Failed v c₀ c' ∧ c'.toks.length ≤ c.toks.length := by
  have hpassed : Failed v c₀ c.passed ∧ c.passed.toks.length ≤ c.toks.length := ⟨h.passed, h.ready.passed.2.1⟩
  refine .cur (.ite (fun _ => .pure ⟨h, Nat.le_refl _⟩) fun _ => .ite (fun _ => .next (.pure hpassed)) fun _ => ?_)
  exact .ite (fun _ => .pure ⟨h, Nat.le_refl _⟩) fun _ => .next (.pure hpassed)

theorem runs_skipping (n : Nat) (h : Failed v c₀ c) :
    Runs (listFor skipped? n) (listFor skipped? n) c fun _ c' => Failed v c₀ c' ∧ c'.toks.length ≤ c.toks.length := by
  induction n generalizing c with
  | zero => exact .pure ⟨h, Nat.le_refl _⟩
  | succ n ih =>
      refine .bind (runs_skipped? h) fun r c₁ h₁ => ?_
      cases r with
      | none => exact .pure h₁
      | some _ => exact .bind (ih h₁.1) fun _ c₂ h₂ => .pure ⟨h₂.1, Nat.le_trans h₂.2 h₁.2⟩

theorem runs_recover (h : Failed v c₀ c) :
    Runs recover recover c fun _ c' => Failed v c₀ c' ∧ c'.toks.length ≤ c.passed.toks.length := by
  have hloop := runs_skipping (c.passed.toks.length + 1) h.passed
  exact .next (.left ⟨rfl, hloop.2.1, hloop.2.2⟩)

-- A command that could not be read has taken a token at the latest when it is skipped.
theorem Failed.passed_lt (h : Failed v c₀ c) (hready : c₀.Ready v.size) (hne : c₀.head.kind ≠ .eof) :
    c.passed.toks.length + 1 ≤ c₀.toks.length := by
  by_cases heof : c.head.kind = .eof
  · obtain ⟨u, ts, htoks⟩ := Cursor.toks_of_ne_eof hready.ends hne
    have hlast := Cursor.toks_of_eof h.ready.ends heof
    rw [Cursor.passed_of_eof hlast, hlast, htoks]
    simp
  · exact Nat.le_trans (h.ready.passed.2.2 heof) h.taken

theorem runs_item? (stop : Token → Bool) (hc : c.Ready v.size) (hcmd : Reader v cmd cmd' c.toks.length) :
    Runs (item? v.setting cmd stop) (item? v.setting cmd' stop) c
      (Turns v c (fun x => (x.map Command.nodes).toList) fun c' => c'.head.kind = .eof ∨ stop c'.head = true) := by
  refine .find (.start hc) (runs_skipNewlines hc) fun _ c₁ h _ => .cur (.ite (fun hend => .pure ⟨h, by simpa using hend⟩) ?_)
  intro hgo
  have hne : c₁.head.kind ≠ .eof := fun heof => hgo (by simp [heof])
  refine .bind (finds_andOr h.ready (hcmd.mono h.length_le)) fun r c₂ hr => ?_
  cases r with
  | none =>
      refine .bind (runs_recover hr) fun _ c₃ h₃ => .pure ?_
      exact h.trans (h₃.1.leads (Nat.le_trans (Nat.add_le_add_right h₃.2 1) (hr.passed_lt h.ready hne)))
  | some x =>
      refine .cur ?_
      extract_lets x' after
      have h₂ : Leads v 1 c c₂ [x'.nodes] := by
        refine (h.trans hr.1).build (by decide) ?_ ?_
        · dsimp only [x']
          split <;> simp
        · dsimp only [x']
          split <;> simp
      have hafter : ∀ c₃, Leads v 1 c c₃ [x'.nodes] → Runs (after ()) (after ()) c₃
          (Turns v c (fun x => (x.map Command.nodes).toList) fun c' => c'.head.kind = .eof ∨ stop c'.head = true) :=
        fun c₃ h₃ => .pure h₃
      refine .ite (fun hsep => .next (hafter _ ?_)) fun _ => .ite (fun _ => hafter c₂ h₂) fun _ => ?_
      · have hpassed : Leads v 2 c c₂.passed [x'.nodes] := by
          rcases Bool.or_eq_true_iff.mp hsep with hsep | hsep
          · exact h₂.pass_or hsep rfl rfl
          · exact h₂.pass (beq_iff_eq.mp hsep) rfl
        exact hpassed.build (by decide) id rfl
      · refine .bind (Q := fun _ c₃ => Failed v c₂ c₃) ⟨rfl, failed_error h₂.ready (Nat.le_refl _) _ _⟩ fun _ c₃ h₃ => ?_
        refine .bind (runs_recover h₃) fun _ c₄ h₄ => hafter c₄ ?_
        exact (h₂.trans (h₄.1.leads (n := 0) h₄.1.taken)).build (Nat.le_refl _) (by simp) (by simp)

theorem flatMap_itemNodes (items : List (Option Command)) :
    (items.flatMap fun x => (x.map Command.nodes).toList) = commandNodes (items.filterMap id) := by
  induction items with
  | nil => rfl
  | cons x items ih => cases x <;> simp [ih]

theorem runs_block (stop : Token → Bool) (hc : c.Ready v.size) (hcmd : Reader v cmd cmd' c.toks.length) :
    Runs (block v.setting cmd stop) (block v.setting cmd' stop) c
      (Leaves v 0 c (fun b => [b.nodes]) fun _ c' => c'.head.kind = .eof ∨ stop c'.head = true) := by
  refine .cur (.left (.find (.start hc) (runs_listFor (fun c' hc' hle => runs_item? stop hc' (hcmd.mono hle)) _ _ c hc
    (Nat.le_refl _) (Nat.lt_succ_self _) (Nat.lt_succ_self _)) fun items c₁ h hend => .pure ⟨?_, hend⟩))
  rw [flatMap_itemNodes] at h
  exact h.build (Nat.le_refl _) (by simp) (by simp)

end Blocks

end Read
end Script
end ShellScript

-- Whole texts. What is nested in a text is shorter, so every depth of readers that is large enough gives the same.
namespace ShellScript
namespace Script
namespace Read

open Cursor (Ready Aligned Handed)
open Token.Scanner (announcements bodies)

section Texts

variable {v : View} {parts parts' : PartsReader}

-- A command inside has fewer tokens.
theorem inner_agree (hparts : PartsReader.Agree v parts parts' v.size) {n n' k : Nat} (hn : k ≤ n) (hn' : k ≤ n') :
    Inner.Agree v (inner v.setting parts n) (inner v.setting parts' n') k := by
  induction n generalizing n' k with
  | zero => exact ⟨fun _ _ _ hlt => by omega, fun _ _ hlt => by omega⟩
  | succ n ih =>
      cases n' with
      | zero => exact ⟨fun _ _ _ hlt => by omega, fun _ _ hlt => by omega⟩
      | succ n' =>
          have hcommand : ∀ j, j < k → Reader v (command v.setting parts (inner v.setting parts n))
              (command v.setting parts' (inner v.setting parts' n')) j := fun j hj c hc hle =>
            finds_command hparts hc (ih (by omega) (by omega))
          refine ⟨fun stop c hc hlt => ?_, fun c hc hlt => hcommand _ hlt c hc (Nat.le_refl _)⟩
          exact (runs_block stop hc (hcommand _ hlt)).mono fun _ _ h => ⟨h.1, trivial⟩

theorem mem_settle {d : Diagnostic.OfText} {ds : List Diagnostic.OfText} : d ∈ settle ds ↔ d ∈ ds := by
  rw [settle, Text.mem_compact, List.mem_mergeSort]

-- Where the cursor starts.
def startOf (toks : List Token) : Cursor := { toks := (significant 0 toks).2 }

theorem ready_startOf {size : Nat} {q : Token.Scanner.Queue} {p : Position} {cs : List Char} {toks : List Token}
    (h : Token.Scanner.Layout q p cs toks) (hsize : cs.length ≤ size) : (startOf toks).Ready size where
  ends := (endsText_of_layout h).significant 0
  text_le t ht := Nat.le_trans (h.text_length t ((significant_suffix 0 toks).mem ht)) hsize

-- At the end of the text every body has been announced.
theorem delivered_of_handed {toks : List Token} {c : Cursor} {docs : List HereDoc} (htoks : Token.Scanner.Delivers {} toks)
    (hends : EndsText c.toks) (heof : c.head.kind = .eof) (h : Handed (startOf toks) c docs) : Delivered docs toks := by
  obtain ⟨as, ts, has, hts, hannounced, hcarried⟩ := h
  obtain ⟨us, hus, -, hbodies, hannouncements⟩ := significant_of_delivers htoks 0
  have hlast := Cursor.toks_of_eof hends heof
  have hnone : announcements none c.toks = [] := by
    rw [hlast, announcements, Token.Scanner.Queue.after_of_eof heof]
    rfl
  have hcoming : c.coming = [] := by
    rw [Cursor.coming, hlast, Token.Scanner.bodies_cons_of_ne (by simp [heof]), Token.Scanner.bodies_nil, List.drop_nil]
  have hstart : (startOf toks).toks = us := by rw [startOf, hus]
  have hall : as = announcements none toks := by
    rw [hstart, hnone, List.append_nil] at has
    exact has.symm.trans hannouncements
  have hevery : ts = bodies toks := by
    rw [hcoming, List.append_nil, Cursor.coming, hstart, hbodies] at hts
    exact hts.symm
  exact ⟨htoks.readAs, hall ▸ hannounced, hevery ▸ hcarried⟩

theorem reader_command (hparts : PartsReader.Agree v parts parts' v.size) {n n' k : Nat} (hn : k ≤ n) (hn' : k ≤ n') :
    Reader v (command v.setting parts (inner v.setting parts n)) (command v.setting parts' (inner v.setting parts' n')) k :=
  fun _ hc hle => finds_command hparts hc (inner_agree hparts (Nat.le_trans hle hn) (Nat.le_trans hle hn'))

-- What is read of a text and of the cursor's way over it.
def scanned (s : Setting) (p : Position) (cs : List Char) : List Token × List Diagnostic.OfText :=
  Token.scanText s.dialect s.file p cs

def blockOf (s : Setting) (parts : PartsReader) (c : Cursor) : Block × Cursor :=
  (block s (command s parts (inner s parts c.toks.length)) fun _ => false).run c

theorem textAt_eq (s : Setting) (parts : PartsReader) (p : Position) (cs : List Char) :
    textAt s parts p cs = ((blockOf s parts (startOf (scanned s p cs).1)).1,
      settle ((scanned s p cs).2 ++ (blockOf s parts (startOf (scanned s p cs).1)).2.diags.toList)) := by
  unfold textAt scanned
  generalize Token.scanText s.dialect s.file p cs = r
  rfl

-- The text itself is never run.
attribute [local irreducible] textAt

theorem runs_blockOf (hparts : PartsReader.Agree v parts parts' v.size) {c : Cursor} (hc : c.Ready v.size) :
    blockOf v.setting parts c = blockOf v.setting parts' c ∧
      Leads v 0 c (blockOf v.setting parts c).2 [(blockOf v.setting parts c).1.nodes] ∧
      (blockOf v.setting parts c).2.head.kind = .eof := by
  have hcommand := reader_command hparts (Nat.le_refl c.toks.length) (Nat.le_refl c.toks.length)
  obtain ⟨hsame, hleads, heof⟩ := runs_block (fun _ => false) hc hcommand
  exact ⟨hsame, hleads, heof.resolve_right Bool.false_ne_true⟩

theorem tracks_startOf {p : Position} {cs : List Char} (h : v.Calm (scanned v.setting p cs).2.toArray) :
    v.watch = .hereDocs → Token.Scanner.Delivers {} (scanned v.setting p cs).1 ∧
      Aligned none (startOf (scanned v.setting p cs).1) := by
  intro hw
  unfold View.Calm at h
  rw [hw] at h
  have hdelivers : Token.Scanner.Delivers {} (scanned v.setting p cs).1 :=
    Token.delivers_scanText fun d hd => h d (List.mem_toArray.mpr hd)
  obtain ⟨us, hus, hrest, -⟩ := significant_of_delivers hdelivers 0
  refine ⟨hdelivers, [], ?_, rfl⟩
  rw [startOf, hus]
  exact hrest

-- A text that is read with readers that agree on all pieces of it.
theorem textAt_agree (p : Position) {cs : List Char} (hsize : cs.length ≤ v.size)
    (hparts : PartsReader.Agree v parts parts' v.size) :
    textAt v.setting parts p cs = textAt v.setting parts' p cs ∧
      (v.Calm (textAt v.setting parts p cs).2.toArray → (textAt v.setting parts p cs).1.nodes.All v.Good ∧
        (v.watch = .hereDocs → Delivered (textAt v.setting parts p cs).1.nodes.hereDocs (scanned v.setting p cs).1)) := by
  have hready : (startOf (scanned v.setting p cs).1).Ready v.size := ready_startOf (Token.layout_scanText _ _ _ _) hsize
  obtain ⟨hsame, hleads, heof⟩ := runs_blockOf hparts hready
  rw [textAt_eq, textAt_eq, ← hsame]
  refine ⟨rfl, fun hcalm => ?_⟩
  have hlexical : v.Calm (scanned v.setting p cs).2.toArray := View.calm_of_subset (fun d hd => by
    simp only [List.mem_toArray, mem_settle, List.mem_append] at hd ⊢
    exact .inl hd) hcalm
  have hdiags : v.Calm (blockOf v.setting parts (startOf (scanned v.setting p cs).1)).2.diags :=
    View.calm_of_subset (fun d hd => by
      simp only [List.mem_toArray, mem_settle, List.mem_append, Array.mem_toList_iff]
      exact .inr hd) hcalm
  have htracks := tracks_startOf hlexical
  obtain ⟨-, hgood, hhanded⟩ := hleads.followed hdiags fun hw => (htracks hw).2
  refine ⟨(allOf_cons.mp hgood).1, fun hw => delivered_of_handed (htracks hw).1 hleads.ready.ends heof ?_⟩
  simpa using hhanded hw

theorem run_nested_block (s : Setting) (n : Nat) (p : Position) (cs : List Char) (ds : Array Diagnostic.OfText) :
    ((nested s (n + 1)).block p cs).run ds = ((textAt s (Read.parts s (nested s n)) p cs).1,
      ds ++ (textAt s (Read.parts s (nested s n)) p cs).2.toArray) := rfl

-- A text inside is shorter.
theorem nested_agree {n n' k : Nat} (hn : k ≤ n) (hn' : k ≤ n') :
    Nested.Agree v (nested v.setting n) (nested v.setting n') k := by
  induction n generalizing n' k with
  | zero => exact ⟨fun _ _ _ hlt => by omega, fun _ _ hlt => by omega⟩
  | succ n ih =>
      cases n' with
      | zero => exact ⟨fun _ _ _ hlt => by omega, fun _ _ hlt => by omega⟩
      | succ n' =>
          have hparts : ∀ cs : List Char, cs.length < k → PartsReader.Agree v (Read.parts v.setting (nested v.setting n))
              (Read.parts v.setting (nested v.setting n')) cs.length := fun cs hlt => builds_parts (ih (by omega) (by omega))
          refine ⟨fun mode p cs hlt => hparts cs hlt mode p cs (Nat.le_refl _), fun p cs hlt ds => ?_⟩
          obtain ⟨hsame, hblock⟩ := textAt_agree (v := { v with size := cs.length }) p (Nat.le_refl _) (hparts cs hlt)
          rw [run_nested_block, run_nested_block, ← hsame]
          refine ⟨rfl, trivial, fun hcalm => ?_⟩
          have hinside := hblock (View.calm_of_subset (fun d hd => Array.mem_append.mpr (.inr hd)) hcalm)
          refine ⟨View.calm_of_subset (fun d hd => Array.mem_append.mpr (.inl hd)) hcalm, hinside.1, fun hw => ?_⟩
          exact ⟨n, p, cs, rfl, hinside.2 hw⟩

-- The readers of a text with everything that is nested in it.
theorem parts_agree {n n' k : Nat} (hn : k ≤ n) (hn' : k ≤ n') :
    PartsReader.Agree v (Read.parts v.setting (nested v.setting n)) (Read.parts v.setting (nested v.setting n')) k :=
  builds_parts (nested_agree hn hn')

end Texts

end Read

section Files

open Read

attribute [local irreducible] textAt

theorem readAs_eq (d : Dialect) (name src : String) :
    textAt ⟨d, name⟩ (parts ⟨d, name⟩ (nested ⟨d, name⟩ (src.toList.length + 1))) Position.start src.toList =
      ((readAs d name src).body, (readAs d name src).found) := rfl

-- A script is read the same at every depth that is large enough.
theorem readAs_of_lt {d : Dialect} {name src : String} {n : Nat} (hn : src.toList.length < n) :
    textAt ⟨d, name⟩ (parts ⟨d, name⟩ (nested ⟨d, name⟩ n)) Position.start src.toList =
      ((readAs d name src).body, (readAs d name src).found) := by
  rw [← readAs_eq]
  let v : View := ⟨⟨d, name⟩, .sameness, src.toList.length⟩
  exact (textAt_agree (v := v) _ (Nat.le_refl _) (parts_agree (Nat.le_of_lt hn) (Nat.le_succ _))).1

theorem formed_readAs (d : Dialect) (name src : String) : (readAs d name src).body.nodes.Formed := by
  let v : View := ⟨⟨d, name⟩, .shape, src.toList.length⟩
  have hparts : PartsReader.Agree v _ _ v.size := parts_agree (Nat.le_succ _) (Nat.le_succ _)
  have hread := (textAt_agree Position.start (Nat.le_refl _) hparts).2 trivial
  rw [readAs_eq] at hread
  exact fun n hn => (hread.1 n hn).1

-- Every tree that is read is well formed.
theorem formed_read (d : Option Dialect) (name src : String) : (read d name src).body.nodes.Formed := by
  unfold read
  split
  · exact formed_readAs _ name src
  · split
    · exact formed_readAs _ name src
    · simp [NodeTree.Formed, Block.nodes, commandNodes, NodeTree.preorder, preorderAll, Node.Formed]

end Files

end Script

-- Here-documents reach their redirections. The lexer reads a body where the line ends that announces it, and by then the
-- readers have passed the announcement: each keeps a queue of its own.
namespace Script

open Read

attribute [local irreducible] textAt

theorem File.harmless_of_not_fatal {f : File} (h : f.isFatal = false) : Diagnostic.Harmless f.found.toArray := by
  intro d hd
  rw [File.isFatal, Diagnostic.anyFatal, File.diags, List.any_eq_false] at h
  exact Bool.eq_false_iff.mpr (h d.1 (List.mem_map_of_mem (List.mem_toArray.mp hd)))

theorem readAs_delivered {d : Dialect} {name src : String} (h : (readAs d name src).isFatal = false) :
    Delivered (readAs d name src).body.nodes.hereDocs (Token.scanText d name Position.start src.toList).1 ∧
      ∀ n ∈ (readAs d name src).body.nodes.preorder, n.Formed ∧ n.Served ⟨d, name⟩ := by
  let v : View := ⟨⟨d, name⟩, .hereDocs, src.toList.length⟩
  have hparts : PartsReader.Agree v _ _ v.size := parts_agree (Nat.le_succ _) (Nat.le_succ _)
  have hread := (textAt_agree Position.start (Nat.le_refl _) hparts).2
  rw [readAs_eq] at hread
  obtain ⟨hgood, hdelivered⟩ := hread (File.harmless_of_not_fatal h)
  exact ⟨hdelivered rfl, fun n hn => ⟨(hgood n hn).1, (hgood n hn).2 rfl⟩⟩

-- A script in a shell that cannot be read is refused.
theorem exists_readAs {dialect : Option Dialect} {name src : String} (h : (read dialect name src).isFatal = false) :
    ∃ d, read dialect name src = readAs d name src := by
  unfold read at h ⊢
  cases dialect with
  | some d => exact ⟨d, rfl⟩
  | none =>
      cases hdetect : Dialect.detect name src with
      | ok d => exact ⟨d.getD .bash, rfl⟩
      | error e =>
          rw [hdetect] at h
          cases h

-- Where nothing that is wrong with a script is fatal, every redirection that announces a here-document has one that begins
-- somewhere in the text; and the here-documents of the script, in their order, are the announcements and the bodies that
-- the lexer found, one by one and none left over. The same holds of the text of each substitution.
theorem hereDocs_delivered (dialect : Option Dialect) (name src : String) (h : (read dialect name src).isFatal = false) :
    Delivered (read dialect name src).body.nodes.hereDocs
        (Token.scanText (read dialect name src).dialect name Position.start src.toList).1 ∧
      (∀ r, .redirect r ∈ (read dialect name src).body.nodes.preorder → (r.op = .dless ∨ r.op = .dlessDash) →
        ∃ doc, r.doc = some doc ∧ doc.pos.isValid = true) ∧
      (∀ p b quoted, .part (.command p b quoted) ∈ (read dialect name src).body.nodes.preorder →
        b.Served ⟨(read dialect name src).dialect, name⟩) ∧
      ∀ p out b, .part (.process p out b) ∈ (read dialect name src).body.nodes.preorder →
        b.Served ⟨(read dialect name src).dialect, name⟩ := by
  obtain ⟨d, hd⟩ := exists_readAs h
  rw [hd] at h ⊢
  obtain ⟨hdelivered, hnodes⟩ := readAs_delivered h
  refine ⟨hdelivered, fun r hr hop => ?_, fun p b quoted hb => (hnodes _ hb).2, fun p out b hb => (hnodes _ hb).2⟩
  obtain ⟨hformed, hserved⟩ := hnodes _ hr
  have hsome : r.doc.isSome = true := by
    rw [show r.doc.isSome = (r.op == .dless || r.op == .dlessDash) from hformed]
    simpa using hop
  obtain ⟨doc, hdoc⟩ := Option.isSome_iff_exists.mp hsome
  exact ⟨doc, hdoc, hserved doc hdoc⟩

-- Two here-documents of one line, of which the second is quoted and indented.
def oneLine : String := "cat <<A 3<<-'B'\na\nA\n\tb\n\tB\n"

theorem hereDocs_of_one_line :
    (read (some .bash) "t" oneLine).isFatal = false ∧
    (read (some .bash) "t" oneLine).body.nodes.hereDocs.map (·.raw) = ["a\n", "b\n"] ∧
    Delivered (read (some .bash) "t" oneLine).body.nodes.hereDocs
      (Token.scanText .bash "t" Position.start oneLine.toList).1 := by
  have hcalm : (read (some .bash) "t" oneLine).isFatal = false := by decide +kernel
  exact ⟨hcalm, by decide +kernel, (hereDocs_delivered (some .bash) "t" oneLine hcalm).1⟩

end Script
end ShellScript

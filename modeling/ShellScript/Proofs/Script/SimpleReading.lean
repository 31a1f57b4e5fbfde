import ShellScript.Proofs.Script.CommandReading

-- What the reader of simple commands does. It gathers the pieces of a command one by one, and tells only at the end of the
-- command what they are; until then their nodes are those of the tokens that have been taken.
namespace ShellScript
namespace Script
namespace Read

open Cursor (Ready)

-- The nodes below each node, and what is asked of it.
attribute [local simp] View.Good Node.Formed Node.Served Command.nodes wordNodes assignNodes redirectNodes optWordNodes
  optArrayNodes NodeTree.hereDocs

section Lists

variable {p : Node → Prop}

@[simp] theorem wordNodes_append (ws us : List Word) : wordNodes (ws ++ us) = wordNodes ws ++ wordNodes us := by
  simp [wordNodes_eq]

@[simp] theorem redirectNodes_append (rs qs : List Redirect) :
    redirectNodes (rs ++ qs) = redirectNodes rs ++ redirectNodes qs := by
  simp [redirectNodes_eq]

@[simp] theorem allOf_wordNodes_reverse (ws : List Word) : AllOf p (wordNodes ws.reverse) ↔ AllOf p (wordNodes ws) := by
  simp [wordNodes_eq]

@[simp] theorem allOf_assignNodes_reverse (as : List Assignment) :
    AllOf p (assignNodes as.reverse) ↔ AllOf p (assignNodes as) := by
  simp [assignNodes_eq]

@[simp] theorem hereDocsOf_optWordNodes (w : Option Word) : hereDocsOf (optWordNodes w) = [] := by
  cases w with
  | none => rfl
  | some w => exact hereDocsOf_eq_nil (List.forall_mem_singleton.mpr (hereDocs_word w))

end Lists

section Assignments

variable {v : View} {parts parts' : PartsReader} {c : Cursor}

theorem finds_element? (hparts : PartsReader.Agree v parts parts' v.size) (start : Position) (hc : c.Ready v.size) :
    Parses v c (element? v.setting parts start) (element? v.setting parts' start) c
      (Turns v c (fun w => [w.nodes]) fun _ => True) := by
  refine .newlines (.start hc) fun c₁ h => .cur ?_
  split
  · exact .next (.pure ⟨(h.pass ‹_› rfl).build (Nat.zero_le _) id rfl, trivial⟩)
  · exact .word hparts h.ready.head_le h fun w ds h₁ => .next (.pure (h₁.pass ‹_› rfl))
  · exact .fail h _ _
  · exact .fail h _ _

-- The head of an assignment, before what follows the operator has been read.
structure IsHead (t : Token) (a : Assignment) (value : List Char) : Prop where
  named : a.naked = false
  bare : a.value = none ∧ a.array = none
  suffix : value <:+ t.text.toList

theorem reads_assignHead {k : Nat} (hparts : PartsReader.Agree v parts parts' k) (t : Token)
    (ht : t.text.toList.length ≤ k) :
    Reads v (assignHead parts t) (assignHead parts' t) (fun r => ∀ a p value, r = some (a, p, value) → IsHead t a value)
      fun r => ∀ a p value, r = some (a, p, value) → AllOf v.Good (optWordNodes a.index) := by
  unfold assignHead
  have hrest := List.dropWhile_suffix (l := t.text.toList) Text.isNameChar
  rw [List.span_eq_takeWhile_dropWhile]
  generalize t.text.toList.dropWhile Text.isNameChar = rest at hrest ⊢
  dsimp -zeta only
  split
  · exact .pure nofun nofun
  · refine .ite (.pure nofun nofun) ?_
    extract_lets p head head'
    have hheads : (head = none ∧ head' = none) ∨ ∃ m m', head = some m ∧ head' = some m' ∧
        Reads v m m' (fun r => r.2.2 <:+ t.text.toList) fun r => AllOf v.Good (optWordNodes r.1) := by
      dsimp only [head, head']
      split
      · rename_i inside
        cases hbracket : matchBracket? inside with
        | none => exact .inl ⟨rfl, rfl⟩
        | some found =>
            have hfound := matchBracket?_eq hbracket
            have hlen := hrest.length_le
            rw [hfound, List.length_cons, List.length_append] at hlen
            refine .inr ⟨_, _, rfl, rfl, (hparts _ _ found.1 (by omega)).bind fun ps _ => .pure ?_ fun hps => ?_⟩
            · have hafter : found.2 <:+ inside := Construct.suffix_of_eq [']'] hfound
              exact (hafter.trans (List.suffix_cons _ _)).trans hrest
            · simpa using hps
      · exact .inr ⟨_, _, rfl, rfl, .pure hrest allOf_nil⟩
    clear_value head head'
    obtain ⟨rfl, rfl⟩ | ⟨m, m', rfl, rfl, hm⟩ := hheads
    · exact .pure nofun nofun
    · refine hm.bind fun r hr => ?_
      dsimp only
      split
      · rename_i value hvalue
        rw [hvalue] at hr
        refine .pure ?_ ?_
        · rintro _ _ _ ⟨⟩
          exact ⟨rfl, ⟨rfl, rfl⟩, ((List.suffix_cons _ _).trans (List.suffix_cons _ _)).trans hr⟩
        · rintro hindex _ _ _ ⟨⟩
          exact hindex
      · rename_i value hvalue
        rw [hvalue] at hr
        refine .pure ?_ ?_
        · rintro _ _ _ ⟨⟩
          exact ⟨rfl, ⟨rfl, rfl⟩, (List.suffix_cons _ _).trans hr⟩
        · rintro hindex _ _ _ ⟨⟩
          exact hindex
      · exact .pure nofun fun _ => nofun

theorem finds_assignment? (hparts : PartsReader.Agree v parts parts' v.size) (hc : c.Ready v.size)
    (hkind : c.head.kind = .word) :
    Parses v c (assignment? v.setting parts) (assignment? v.setting parts') c
      (Turns v c (fun a => [a.nodes]) fun c' => c'.head = c.head) := by
  have ht := hc.head_le
  refine .cur (.scan (runs_words (reads_assignHead hparts c.head ht)) fun r c₁ hr => ?_)
  have hhead : c₁.head = c.head := by
    obtain ⟨ds, rfl, -⟩ := hr.2
    rfl
  cases r with
  | none => exact .pure ⟨(Leads.start hc).reports hr.2 (fun _ => allOf_nil) rfl, hhead⟩
  | some r =>
      obtain ⟨a, p, value⟩ := r
      obtain ⟨hnamed, ⟨hvalue, harray⟩, hsuffix⟩ := hr.1 a p value rfl
      have h := (Leads.start hc).reports hr.2 (fun hindex => hindex a p value rfl) (by cases a.index <;> simp)
      have h₁ := h.pass (hhead ▸ hkind) rfl
      refine .next (.ite (fun _ => ?_) fun _ => .cur (.ite (fun hopen => ?_) fun _ => .pure ?_))
      · refine .scan (runs_words (hparts _ _ _ (Nat.le_trans hsuffix.length_le ht))) fun ps c₂ hps => .pure ?_
        have h₂ : Leads v 1 c c₂ (optWordNodes a.index ++ [(Word.mk ps).nodes]) := h₁.reports hps.2 (by simp) (by simp)
        exact h₂.build (Nat.le_refl _) (by simp [assignment_nodes_eq, hnamed, harray]) (by simp)
      · refine .warn h₁ fun ds h₂ => .next ?_
        have h₃ := h₂.pass (beq_iff_eq.mp (Bool.and_eq_true_iff.mp hopen).1) rfl
        refine .find h₃ (finds_many h₃.ready fun c' hc' _ => finds_element? hparts _ hc') fun elems c₄ h₄ _ => .pure ?_
        exact h₄.build (by decide) (by simp [assignment_nodes_eq, hnamed, hvalue]) (by simp)
      · exact h₁.build (by decide) (by simp [assignment_nodes_eq, hnamed, hvalue, harray]) (by simp)

end Assignments

-- The pieces of a command.

-- An operand of a declaring command is kept as a word and as the assignment that it may be.
def operandNodes (o : Word × Option Assignment) : List NodeTree := o.1.nodes :: assignNodes o.2.toList

def SimpleParts.nodes (sp : SimpleParts) : List NodeTree :=
  assignNodes sp.assigns ++ wordNodes sp.args ++ sp.operands.flatMap operandNodes ++ redirectNodes sp.redirs.reverse

@[simp] theorem hereDocsOf_operandNodes (o : Word × Option Assignment) : hereDocsOf (operandNodes o) = [] := by
  simp [operandNodes]

@[simp] theorem hereDocsOf_operands (os : List (Word × Option Assignment)) : hereDocsOf (os.flatMap operandNodes) = [] := by
  induction os with
  | nil => rfl
  | cons o os ih => rw [List.flatMap_cons, hereDocsOf_append, hereDocsOf_operandNodes, ih, List.append_nil]

@[simp] theorem hereDocsOf_parts (sp : SimpleParts) :
    hereDocsOf sp.nodes = hereDocsOf (redirectNodes sp.redirs.reverse) := by
  simp [SimpleParts.nodes]

section Simple

variable {v : View} {parts parts' : PartsReader} {inner inner' : Inner} {n : Nat} {c₀ c : Cursor} {ts : List NodeTree}

theorem allOf_operandNodes_reverse {p : Node → Prop} (os : List (Word × Option Assignment)) :
    AllOf p (os.reverse.flatMap operandNodes) ↔ AllOf p (os.flatMap operandNodes) := by
  simp [AllOf]

theorem allOf_operandWords {p : Node → Prop} {os : List (Word × Option Assignment)} (h : AllOf p (os.flatMap operandNodes)) :
    AllOf p (wordNodes (os.map Prod.fst)) := by
  rw [wordNodes_eq]
  refine fun t ht => ?_
  obtain ⟨w, hw, rfl⟩ := List.mem_map.mp ht
  obtain ⟨o, ho, rfl⟩ := List.mem_map.mp hw
  exact h _ (List.mem_flatMap.mpr ⟨o, ho, List.mem_cons_self⟩)

-- Each operand is an option, a name or an assignment; one that is none of these is not known before the command runs.
theorem runs_declareOperands : ∀ operands opts assigns static c,
    Leads v n c₀ c (ts ++ (operands.flatMap operandNodes ++ wordNodes opts ++ assignNodes assigns)) →
    Runs (declareOperands v.setting operands opts assigns static) (declareOperands v.setting operands opts assigns static) c
      fun r c' => Leads v n c₀ c' (ts ++ (wordNodes r.1 ++ assignNodes r.2.1))
  | [], opts, assigns, static, c, h => .pure (h.build (Nat.le_refl _) (by simp) (by simp))
  | (w, some a) :: rest, opts, assigns, static, c, h => by
      refine runs_declareOperands rest opts (a :: assigns) static c (h.build (Nat.le_refl _) ?_ (by simp))
      simp only [List.flatMap_cons, operandNodes, assignNodes, Option.toList, allOf_append, allOf_cons]
      tauto
  | (w, none) :: rest, opts, assigns, static, c, h => by
      have hdrop : Leads v n c₀ c (ts ++ (rest.flatMap operandNodes ++ wordNodes opts ++ assignNodes assigns)) := by
        refine h.build (Nat.le_refl _) ?_ (by simp)
        simp only [List.flatMap_cons, operandNodes, assignNodes, Option.toList, allOf_append, allOf_cons]
        tauto
      have hopt : Leads v n c₀ c (ts ++ (rest.flatMap operandNodes ++ wordNodes (w :: opts) ++ assignNodes assigns)) := by
        refine h.build (Nat.le_refl _) ?_ (by simp)
        simp only [List.flatMap_cons, operandNodes, wordNodes, assignNodes, Option.toList, allOf_append, allOf_cons]
        tauto
      unfold declareOperands
      split
      · refine .ite (fun _ => ?_) fun _ => .ite (fun _ => ?_) fun _ => runs_declareOperands rest opts assigns false c hdrop
        · refine .ite (fun _ => ?_) fun _ => runs_declareOperands rest (w :: opts) assigns static c hopt
          refine .bind (runs_warn (v := v) _ _) fun _ c' hc' => runs_declareOperands rest (w :: opts) assigns static c' ?_
          simpa using hopt.reports hc' (fun _ => allOf_nil) rfl
        · refine runs_declareOperands rest opts (_ :: assigns) static c (hdrop.build (Nat.le_refl _) ?_ (by simp))
          simp [assignment_nodes_eq]
      · exact runs_declareOperands rest opts assigns false c hdrop

theorem parses_declaration {sp : SimpleParts} (variant : String) (h : Leads v n c₀ c sp.nodes) :
    Parses v c₀ (declaration v.setting sp variant) (declaration v.setting sp variant) c
      (Leaves v n c₀ (fun x => [x.nodes]) fun _ _ => True) := by
  have hstart : Leads v n c₀ c (sp.nodes ++ (sp.operands.reverse.flatMap operandNodes ++ wordNodes [] ++ assignNodes [])) := by
    refine h.build (Nat.le_refl _) ?_ (by simp)
    simp only [SimpleParts.nodes, allOf_append, allOf_operandNodes_reverse]
    simp
    tauto
  refine .scan (runs_declareOperands _ _ _ _ c hstart) fun r c₁ h₁ => ?_
  obtain ⟨opts, assigns, static⟩ := r
  extract_lets redirs name
  refine .ite (fun _ => .pure ⟨?_, trivial⟩) fun _ => ?_
  · refine h₁.build (Nat.le_refl _) ?_ (by simp [redirs])
    simp [SimpleParts.nodes, redirs]
    tauto
  · have h₂ : Leads v n c₀ c₁ sp.nodes := h₁.build (Nat.le_refl _) (fun h => (allOf_append.mp h).1) (by simp)
    split
    · exact .fail h₂ _ _
    · refine .pure ⟨h₂.build (Nat.le_refl _) ?_ (by simp [redirs]), trivial⟩
      simp only [SimpleParts.nodes, allOf_append]
      rintro ⟨⟨⟨hassigns, hargs⟩, hoperands⟩, hredirs⟩
      simp [redirs, hassigns, hargs, allOf_operandWords hoperands, hredirs]

-- After one more piece the command either goes on, with that piece, or is complete.
def Gathers (v : View) (n : Nat) (c₀ : Cursor) : SimpleParts ⊕ Command → Cursor → Prop
  | .inl sp, c => Leads v (n + 1) c₀ c sp.nodes
  | .inr cmd, c => Leads v 1 c₀ c [cmd.nodes]

theorem parses_simpleTurn (hparts : PartsReader.Agree v parts parts' v.size) {sp : SimpleParts} (h : Leads v n c₀ c sp.nodes)
    (hstarted : n = 0 → sp = {}) (hinner : Inner.Agree v inner inner' c.toks.length) :
    Parses v c₀ (simpleTurn v.setting parts inner sp) (simpleTurn v.setting parts' inner' sp) c (Gathers v n c₀) := by
  have hc := h.ready
  refine .cur (.ite (fun _ => ?_) fun _ => .ite (fun hword => ?_) fun _ => .ite (fun _ => .fail h _ _) fun hsome => ?_)
  · refine .find h (finds_redirect hparts hc) fun r c₁ h₁ _ => .pure (h₁.build (Nat.le_refl _) ?_ (by simp))
    simp [SimpleParts.nodes]
  · replace hword := beq_iff_eq.mp hword
    extract_lets isFirst decl after after'
    have hafter : ∀ a c₁, Turns v c (fun a => [a.nodes]) (fun c' => c'.head = c.head) a c₁ →
        Parses v c (after a) (after' a) c₁ (Gathers v n c₀) := by
      intro a c₁ ha
      cases a with
      | some a =>
          have h₁ : Leads v 1 c c₁ [a.nodes] := ha
          refine .ite (fun _ => .word hparts hc.head_le h₁ fun w ds h₂ => .pure ?_) fun _ => .pure ?_
          · refine (h.trans h₂).build (Nat.le_refl _) ?_ (by simp)
            simp [SimpleParts.nodes, operandNodes]
            tauto
          · refine (h.trans h₁).build (Nat.le_refl _) ?_ (by simp)
            simp [SimpleParts.nodes]
            tauto
      | none =>
          obtain ⟨h₁, hhead⟩ := ha
          refine .word hparts hc.head_le h₁ fun w ds h₂ => .next ?_
          have h₃ : Leads v 1 c _ [w.nodes] := h₂.pass (hhead ▸ hword) rfl
          refine .ite (fun _ => .pure ?_) fun _ => ?_
          · refine (h.trans h₃).build (Nat.le_refl _) ?_ (by simp)
            simp [SimpleParts.nodes, operandNodes]
            tauto
          · extract_lets go go'
            have hgo : ∀ c₂, Leads v 1 c c₂ [w.nodes] → Parses v c (go ()) (go' ()) c₂ (Gathers v n c₀) := by
              intro c₂ h₄
              refine .cur (.ite (fun hopen => ?_) fun _ => .pure ?_)
              · simp only [Bool.and_eq_true, List.isEmpty_iff, beq_iff_eq] at hopen
                have hhead : Leads v 1 c c₂ [] := h₄.build (Nat.le_refl _) (fun _ => allOf_nil) (by simp)
                refine .seq (finds_functionParens hparts c.head hhead hopen.2 hinner) fun cmd c₃ h₅ => .pure ?_
                exact (h.trans h₅.1).build (Nat.le_add_left _ _) (by simp) (by simp [hopen.1.2])
              · refine (h.trans h₄).build (Nat.le_refl _) ?_ (by simp)
                simp [SimpleParts.nodes]
                tauto
            exact .ite (fun _ => .warn h₃ fun ds h₄ => hgo _ h₄) fun _ => hgo _ h₃
    refine .since h (.ite (fun _ => .seq (finds_assignment? hparts hc hword) fun a c₁ ha => hafter a c₁ ha) fun _ => ?_)
    exact hafter none c ⟨.start hc, rfl⟩
  · have hn : 1 ≤ n := by
      refine Nat.pos_of_ne_zero fun hn => ?_
      obtain rfl := hstarted hn
      exact hsome rfl
    split
    · exact .seq (parses_declaration _ h) fun cmd c₁ h₁ => .pure (h₁.1.build hn id rfl)
    · refine .pure (h.build hn ?_ ?_)
      · simp [SimpleParts.nodes]
        tauto
      · simp

-- Every turn takes a token, so the bound on the turns is never met.
theorem parses_simpleFor (hparts : PartsReader.Agree v parts parts' v.size) (hinner : Inner.Agree v inner inner' c₀.toks.length)
    {sp : SimpleParts} {m m' : Nat} (h : Leads v n c₀ c sp.nodes) (hstarted : n = 0 → sp = {})
    (hm : c₀.toks.length < n + m) (hm' : c₀.toks.length < n + m') :
    Parses v c₀ (simpleFor v.setting parts inner m sp) (simpleFor v.setting parts' inner' m' sp) c
      (Leaves v 1 c₀ (fun x => [x.nodes]) fun _ _ => True) := by
  induction m generalizing n sp c m' with
  | zero =>
      have htaken := h.taken
      omega
  | succ m ih =>
      cases m' with
      | zero =>
          have htaken := h.taken
          omega
      | succ m' =>
          refine .seq (parses_simpleTurn hparts h hstarted (hinner.mono h.length_le)) fun r c₁ hr => ?_
          cases r with
          | inl sp => exact ih hr nofun (by omega) (by omega)
          | inr cmd => exact .pure ⟨hr, trivial⟩

theorem finds_simpleCommand (hparts : PartsReader.Agree v parts parts' v.size) (hc : c.Ready v.size)
    (hinner : Inner.Agree v inner inner' c.toks.length) :
    Finds v 1 (simpleCommand v.setting parts inner) (simpleCommand v.setting parts' inner') c fun x => [x.nodes] := by
  have h : Leads v 0 c c ({} : SimpleParts).nodes := .start hc
  exact parses_simpleFor hparts hinner h (fun _ => rfl) (Nat.lt_of_lt_of_le (Nat.lt_succ_self _) (Nat.le_add_left _ _))
    (Nat.lt_of_lt_of_le (Nat.lt_succ_self _) (Nat.le_add_left _ _))

end Simple

end Read
end Script
end ShellScript

import ShellScript.Proofs.Script.ParseLogic

-- What the readers of commands do. A reader is given readers of the words in it and of the commands inside, and agrees with
-- another one that is given readers that agree with these; a command inside has fewer tokens.
namespace ShellScript
namespace Script
namespace Read

open Cursor (Ready Aligned Handed)

-- The nodes below each node, and what is asked of it.
attribute [local simp] View.Good Node.Formed Node.Served TestExpr.nodes Redirect.nodes Command.nodes Block.nodes wordNodes
  assignNodes redirectNodes commandNodes elifNodes caseNodes partNodes optWordNodes optArithNodes optArrayNodes optDocNodes
  optBlockNodes NodeTree.hereDocs

theorem kind_of_isKeyword {names : List String} {t : Token} (h : isKeyword names t = true) : t.kind = .word := by
  simp only [isKeyword, Bool.and_eq_true, beq_iff_eq] at h
  exact h.1.1

section Steps

variable {v : View} {n : Nat} {c₀ c : Cursor} {ts : List NodeTree}

theorem runs_newline? (hc : c.Ready v.size) :
    Runs newline? newline? c (Turns v c (fun _ => []) fun c' => c'.head.kind ≠ .newline) := by
  refine .cur (.ite (fun h => .next (.pure ?_)) fun h => .pure ⟨.start hc, by simpa using h⟩)
  exact (Leads.start hc).pass (beq_iff_eq.mp h) rfl

theorem runs_skipNewlines (hc : c.Ready v.size) :
    Runs skipNewlines skipNewlines c (Leaves v 0 c (fun _ => []) fun _ c' => c'.head.kind ≠ .newline) := by
  have hloop := runs_listFor (fun c' hc' _ => runs_newline? hc') (c.toks.length + 1) (c.toks.length + 1) c hc (Nat.le_refl _)
    (Nat.lt_succ_self _) (Nat.lt_succ_self _)
  refine ⟨rfl, hloop.2.1.build (Nat.le_refl _) (fun _ => allOf_nil) ?_, hloop.2.2⟩
  exact (congrArg hereDocsOf (List.flatMap_eq_nil_iff.mpr fun _ _ => rfl)).symm

theorem finds_expect (keyword construct : String) (start : Position) (hc : c.Ready v.size) :
    Finds v 1 (expect v.setting keyword construct start) (expect v.setting keyword construct start) c fun _ => [] := by
  have h := Leads.start hc
  refine .cur (.ite (fun hword => .next (.pure ⟨?_, trivial⟩)) fun _ => .ite (fun _ => .fail h _ _) fun _ => .fail h _ _)
  exact h.pass (kind_of_isKeyword hword) rfl

-- Any way of skipping newlines and passing a keyword.

theorem Parses.newlines {β : Type} {f f' : Unit → Parse β} {R : β → Cursor → Prop} (h : Leads v n c₀ c ts)
    (hf : ∀ c', Leads v n c₀ c' ts → Parses v c₀ (f ()) (f' ()) c' R) :
    Parses v c₀ (liftM skipNewlines >>= f) (liftM skipNewlines >>= f') c R :=
  .scanned h (runs_skipNewlines h.ready) fun _ c' h' _ => hf c' (h'.build (Nat.le_refl _) (by simp) (by simp))

end Steps

section Redirections

variable {v : View} {parts parts' : PartsReader} {n : Nat} {c₀ c : Cursor} {ts : List NodeTree}

-- What a here-document says of its delimiter, and of the body that is to come, if there is one.
structure IsDoc (delim : Token) (strip : Bool) (body : Option Token) (d : HereDoc) : Prop where
  announced : d.AnnouncedBy (Token.Scanner.HereDoc.ofWord delim strip)
  carries : ∀ t, body = some t → d.Carries t

theorem runs_hereDoc (hparts : PartsReader.Agree v parts parts' v.size) (delim : Token) (strip : Bool)
    (hc : c.Ready v.size) :
    Runs (hereDoc parts delim strip) (hereDoc parts' delim strip) c fun d c' =>
      IsDoc delim strip ((c.toks.drop 1).filter (·.kind == .hereDoc))[c.pending]? d ∧
        Reports v { c with pending := c.pending + 1 } (AllOf v.Good (optDocNodes (some d))) c' := by
  have hdone : ∀ (d : HereDoc) (body : Option Token), IsDoc delim strip body d → AllOf v.Good (optDocNodes (some d)) →
      Runs (pure d) (pure d) { c with pending := c.pending + 1 } fun d c' => IsDoc delim strip body d ∧
        Reports v { c with pending := c.pending + 1 } (AllOf v.Good (optDocNodes (some d))) c' :=
    fun d body hdoc hd => .pure ⟨hdoc, _, rfl, fun hcalm => ⟨hcalm, hd⟩⟩
  unfold hereDoc
  extract_lets doc
  refine Runs.bind (Q := fun found c' => found = ((c.toks.drop 1).filter (·.kind == .hereDoc))[c.pending]? ∧ c' = c)
    ⟨rfl, rfl, rfl⟩ fun found c' h => ?_
  obtain ⟨hfound, rfl⟩ := h
  refine Runs.bind (Q := fun _ c₁ => c₁ = { c' with pending := c'.pending + 1 }) ⟨rfl, rfl⟩ fun _ c₁ h => ?_
  obtain rfl := h
  rw [← hfound]
  cases found with
  | none => exact hdone _ _ ⟨⟨rfl, rfl, rfl⟩, fun _ h => nomatch h⟩ (by simp [doc])
  | some t =>
      have ht : t ∈ c'.toks := List.mem_of_mem_drop (List.mem_filter.mp (List.mem_of_getElem? hfound.symm)).1
      have hcarries : ∀ u, some t = some u → t.text = u.text ∧ t.pos = u.pos := by
        rintro _ ⟨⟩
        exact ⟨rfl, rfl⟩
      refine .ite (fun _ => hdone _ _ ⟨⟨rfl, rfl, rfl⟩, hcarries⟩ (by simp [doc])) fun hquoted => ?_
      refine (runs_words (hparts .hereDoc t.pos t.text.toList (hc.text_le t ht))).bind fun ps c₂ h => ?_
      obtain ⟨-, ds, rfl, hds⟩ := h
      refine .pure ⟨⟨⟨rfl, rfl, rfl⟩, hcarries⟩, ds, rfl, fun hcalm => ⟨(hds hcalm).1, ?_⟩⟩
      have hplain : doc.quoted = false := by simpa using hquoted
      have hps := (hds hcalm).2
      simp [hplain, hps]

-- The operator of a here-document, with its delimiter: the body that is found is the one that was read with it.
theorem leads_doc {c₁ c₂ : Cursor} {strip : Bool} {word : Word} {d : HereDoc} {r : Redirect} (h : Leads v n c₀ c ts)
    (hkind : c.head.kind = if strip then .dlessDash else .dless) (hword : c.passed.head.kind = .word)
    (hc₁ : Reports v c.passed (word.nodes.All v.Good) c₁)
    (hd : IsDoc c.passed.head strip ((c.passed.toks.drop 1).filter (·.kind == .hereDoc))[c.passed.pending]? d)
    (hc₂ : Reports v { c₁ with pending := c₁.pending + 1 } (AllOf v.Good (optDocNodes (some d))) c₂)
    (hr : r.word = word ∧ r.doc = some d ∧ r.op = if strip then .dlessDash else .dless) :
    Leads v (n + 2) c₀ c₂.passed (ts ++ [r.nodes]) := by
  obtain ⟨ds₁, rfl, hds₁⟩ := hc₁
  obtain ⟨ds₂, rfl, hds₂⟩ := hc₂
  obtain ⟨hready, -, htaken⟩ := h.ready.passed
  have hready₁ : Ready v.size { c.passed with pending := c.passed.pending + 1, diags := ds₂ } :=
    ⟨hready.ends, hready.text_le⟩
  obtain ⟨hready₂, -, htaken₂⟩ := hready₁.passed
  have hcalm : v.Calm ds₂ → (v.Calm c.diags ∧ word.nodes.All v.Good) ∧ AllOf v.Good (optDocNodes (some d)) := by
    intro hcalm
    rw [← c.passed_diags]
    exact ⟨hds₁ (hds₂ hcalm).1, (hds₂ hcalm).2⟩
  refine ⟨hready₂, ?_, ?_, ?_⟩
  · have hlen := h.taken
    have hlen₁ := htaken fun heof => by cases strip <;> simp [heof] at hkind
    have hlen₂ := htaken₂ fun heof => absurd (hword.symm.trans heof) nofun
    dsimp only at hlen₂ ⊢
    omega
  · rw [Cursor.passed_diags]
    exact fun hds => h.calm (hcalm hds).1.1
  · rw [Cursor.passed_diags]
    intro hds htracks
    obtain ⟨⟨hbefore, hword'⟩, hnodes⟩ := hcalm hds
    obtain ⟨htracks, hts, hdocs⟩ := h.followed hbefore htracks
    obtain ⟨rfl, hdoc, hop⟩ := hr
    have hfound : v.watch = .hereDocs → d.pos.isValid = true ∧
        Aligned none ({ c.passed with pending := c.passed.pending + 1, diags := ds₂ } : Cursor).passed ∧
        Handed c ({ c.passed with pending := c.passed.pending + 1, diags := ds₂ } : Cursor).passed [d] := by
      intro hw
      have hkeeps := Cursor.keeps_passed_dless (htracks hw) h.ready.ends hkind
      obtain ⟨body, hbody, hread, haligned, hcoming, hannounced⟩ :=
        Cursor.aligned_passed_delim (c := { c.passed with diags := ds₂ }) hkeeps.aligned hready.ends hword
      have hcarries := hd.carries body hbody
      refine ⟨hcarries.2 ▸ hread.2.2.1, haligned, [_], [body], ?_, ?_, .cons hd.announced .nil, .cons hcarries .nil⟩
      · exact hkeeps.announced.trans hannounced
      · exact hkeeps.coming.symm.trans hcoming
    refine ⟨fun hw => (hfound hw).2.1, ?_, fun hw => ?_⟩
    · have hformed : (Node.redirect r).Formed := by
        rw [Node.Formed, hdoc, hop]
        cases strip <;> rfl
      have hserved : v.watch = .hereDocs → (Node.redirect r).Served v.setting := by
        intro hw d' hd'
        obtain rfl := Option.some.inj (hdoc.symm.trans hd')
        exact (hfound hw).1
      rw [redirect_nodes_eq, allOf_append, allOf_cons, all_mk, allOf_cons, hdoc]
      exact ⟨hts, ⟨⟨hformed, hserved⟩, hword', hnodes⟩, allOf_nil⟩
    · have hhanded := (hdocs hw).trans (hfound hw).2.2
      rw [hereDocsOf_append, hereDocsOf_cons, hereDocs_redirect, hdoc]
      exact hhanded

theorem finds_redirect (hparts : PartsReader.Agree v parts parts' v.size) (hc : c.Ready v.size) :
    Finds v 1 (redirect v.setting parts) (redirect v.setting parts') c fun r => [r.nodes] := by
  have hstart := Leads.start hc
  refine .cur ?_
  extract_lets n jp jp'
  have hjp : ∀ c₁, Leads v 0 c c₁ [] → Parses v c (jp ()) (jp' ()) c₁ (Leaves v 1 c (fun r => [r.nodes]) fun _ _ => True) := by
    intro c₁ h
    obtain ⟨hready, hlen, -⟩ := h.ready.passed
    refine .cur (.next (.cur (.guard hready (Nat.le_trans hlen h.length_le) fun hword => ?_)))
    replace hword : c₁.passed.head.kind = .word := by simpa using hword
    refine .scan (runs_wordOf hparts hready.head_le) fun word c₂ hc₂ => ?_
    obtain ⟨ds, rfl, -⟩ := id hc₂
    extract_lets after
    refine .ite (fun hop => ?_) fun hop => ?_
    · have hkind : c₁.head.kind = if c₁.head.kind == .dlessDash then .dlessDash else .dless := by
        cases hdash : c₁.head.kind == .dlessDash with
        | true => exact beq_iff_eq.mp hdash
        | false => simpa [hdash] using hop
      rw [bind_map_left, bind_map_left]
      refine .scan (runs_hereDoc hparts _ _ ⟨hready.ends, hready.text_le⟩) fun d c₃ hd => .next (.pure ⟨?_, trivial⟩)
      have hpath := leads_doc (r := ⟨c₁.head.pos, c₁.head.kind, n, word, some d⟩) h hkind hword hc₂ hd.1 hd.2 ⟨rfl, rfl, hkind⟩
      exact hpath.build (by decide) id rfl
    · have heof : c₁.head.kind ≠ .eof := by
        intro heof
        rw [Cursor.passed_of_eof (Cursor.toks_of_eof h.ready.ends heof), heof] at hword
        cases hword
      have hplain : (c₁.head.kind != .eof && c₁.head.kind != .dless && c₁.head.kind != .dlessDash) = true := by
        simp only [Bool.or_eq_true, beq_iff_eq, not_or] at hop
        simp [heof, hop]
      have hread : Leads v 1 c { c₁.passed with diags := ds } [word.nodes] :=
        (h.pass rfl hplain).reports hc₂ (by simp) (by simp)
      have hpath := hread.pass hword rfl
      rw [pure_bind]
      refine .next (.pure ⟨hpath.build (by decide) (fun hw => ?_) (by simp), trivial⟩)
      have hformed : false = (c₁.head.kind == .dless || c₁.head.kind == .dlessDash) := (Bool.eq_false_iff.mpr hop).symm
      simpa [hformed] using hw
  refine .ite (fun hio => .next (hjp _ ?_)) fun _ => hjp _ hstart
  exact (hstart.pass (beq_iff_eq.mp hio) rfl).build (Nat.zero_le _) id rfl

end Redirections

end Read
end Script
end ShellScript

-- What the readers of compound commands do.
namespace ShellScript
namespace Script
namespace Read

open Cursor (Ready Aligned Handed)

-- The nodes below each node, and what is asked of it.
attribute [local simp] View.Good Node.Formed Node.Served TestExpr.nodes Redirect.nodes Command.nodes wordNodes
  assignNodes redirectNodes commandNodes elifNodes caseNodes partNodes optWordNodes optArithNodes optArrayNodes optDocNodes
  optBlockNodes NodeTree.hereDocs

-- Readers of commands inside that agree on fewer tokens.
structure Inner.Agree (v : View) (inner inner' : Inner) (k : Nat) : Prop where
  block : ∀ stop c, c.Ready v.size → c.toks.length < k →
    Runs (inner.block stop) (inner'.block stop) c (Leaves v 0 c (fun b => [b.nodes]) fun _ _ => True)
  command : ∀ c, c.Ready v.size → c.toks.length < k → Finds v 1 inner.command inner'.command c fun x => [x.nodes]

theorem Inner.Agree.mono {v : View} {inner inner' : Inner} {k j : Nat} (h : Inner.Agree v inner inner' k) (hle : j ≤ k) :
    Inner.Agree v inner inner' j :=
  ⟨fun stop c hc hlt => h.block stop c hc (Nat.lt_of_lt_of_le hlt hle),
    fun c hc hlt => h.command c hc (Nat.lt_of_lt_of_le hlt hle)⟩

-- The nodes of what loops have gathered.

@[simp] theorem flatMap_wordNodes (ws : List Word) : (ws.flatMap fun w => [w.nodes]) = wordNodes ws := by
  rw [wordNodes_eq, List.map_eq_flatMap]

@[simp] theorem flatMap_redirectNodes (rs : List Redirect) : (rs.flatMap fun r => [r.nodes]) = redirectNodes rs := by
  rw [redirectNodes_eq, List.map_eq_flatMap]

@[simp] theorem flatMap_elifNodes : ∀ es : List Elif, (es.flatMap fun e => elifNodes [e]) = elifNodes es
  | [] => rfl
  | ⟨_, _, _⟩ :: es => congrArg (List.cons _) (flatMap_elifNodes es)

@[simp] theorem flatMap_caseNodes : ∀ is : List CaseItem, (is.flatMap fun i => caseNodes [i]) = caseNodes is
  | [] => rfl
  | ⟨_, _, _⟩ :: is => congrArg (List.cons _) (flatMap_caseNodes is)

section Clauses

variable {v : View} {parts parts' : PartsReader} {inner inner' : Inner} {n : Nat} {c₀ c : Cursor} {ts : List NodeTree}

theorem finds_redirect? (hparts : PartsReader.Agree v parts parts' v.size) (hc : c.Ready v.size) :
    Parses v c (redirect? v.setting parts) (redirect? v.setting parts') c (Turns v c (fun r => [r.nodes]) fun _ => True) :=
  .cur (.ite (fun _ => .find (.start hc) (finds_redirect hparts hc) fun _ _ h _ => .pure h) fun _ => .pure ⟨.start hc, trivial⟩)

theorem Parses.withRedirects {cmd : Command} (hparts : PartsReader.Agree v parts parts' v.size)
    (h : Leads v n c₀ c [cmd.nodes]) :
    Parses v c₀ (withRedirects v.setting parts cmd) (withRedirects v.setting parts' cmd) c
      (Leaves v n c₀ (fun x => [x.nodes]) fun _ _ => True) := by
  refine .find h (finds_many h.ready fun c' hc' _ => finds_redirect? hparts hc') fun rs c' h' _ => ?_
  cases rs with
  | nil => exact .pure ⟨h'.build (Nat.le_refl _) (by simp) (by simp), trivial⟩
  | cons r rs => exact .pure ⟨h'.build (Nat.le_refl _) (by simp) (by simp), trivial⟩

-- A keyword is passed.
theorem Parses.expect {β : Type} {f f' : Unit → Parse β} {R : β → Cursor → Prop} {keyword construct : String} {start : Position}
    (h : Leads v n c₀ c ts) (hf : ∀ c', Leads v (n + 1) c₀ c' ts → Parses v c₀ (f ()) (f' ()) c' R) :
    Parses v c₀ (Read.expect v.setting keyword construct start >>= f)
      (Read.expect v.setting keyword construct start >>= f') c R :=
  .find h (finds_expect keyword construct start h.ready) fun _ c' h' _ => hf c' (h'.build (Nat.le_refl _) (by simp) (by simp))

-- A block inside is read.
theorem Parses.block {β : Type} {f f' : Block → Parse β} {R : β → Cursor → Prop} {stop : Token → Bool}
    (hinner : Inner.Agree v inner inner' c₀.toks.length) (h : Leads v (n + 1) c₀ c ts)
    (hf : ∀ b c', Leads v (n + 1) c₀ c' (ts ++ [b.nodes]) → Parses v c₀ (f b) (f' b) c' R) :
    Parses v c₀ (liftM (inner.block stop) >>= f) (liftM (inner'.block stop) >>= f') c R :=
  .scanned h (hinner.block stop c h.ready h.lt) fun b c' h' _ => hf b c' h'

theorem finds_loopBody (construct : String) (start : Position) (hc : c.Ready v.size)
    (hinner : Inner.Agree v inner inner' c.toks.length) :
    Finds v 2 (loopBody v.setting inner construct start) (loopBody v.setting inner' construct start) c fun b => [b.nodes] := by
  refine .expect (.start hc) fun c₁ h₁ => .block hinner h₁ fun b c₂ h₂ => .expect h₂ fun c₃ h₃ => .pure ⟨?_, trivial⟩
  exact h₃

theorem finds_elif? (start : Position) (hc : c.Ready v.size) (hinner : Inner.Agree v inner inner' c.toks.length) :
    Parses v c (elif? v.setting inner start) (elif? v.setting inner' start) c
      (Turns v c (fun e => elifNodes [e]) fun _ => True) := by
  refine .cur (.ite (fun hkey => .next ?_) fun _ => .pure ⟨.start hc, trivial⟩)
  have h := (Leads.start hc).pass (kind_of_isKeyword hkey) rfl
  refine .block hinner h fun cond c₁ h₁ => .expect h₁ fun c₂ h₂ => .block hinner h₂ fun yes c₃ h₃ => .pure ?_
  exact h₃.build (by decide) (by simp) (by simp)

theorem finds_ifClause (hc : c.Ready v.size) (hkind : c.head.kind = .word) (hinner : Inner.Agree v inner inner' c.toks.length) :
    Finds v 1 (ifClause v.setting inner) (ifClause v.setting inner') c fun x => [x.nodes] := by
  refine .cur (.next ?_)
  have h := (Leads.start hc).pass hkind rfl
  refine .block hinner h fun cond c₁ h₁ => .expect h₁ fun c₂ h₂ => .block hinner h₂ fun yes c₃ h₃ => ?_
  refine .find h₃ (finds_many h₃.ready fun c' hc' hle =>
    finds_elif? _ hc' (hinner.mono (Nat.le_trans hle h₃.length_le))) fun elifs c₄ h₄ _ => ?_
  refine .cur ?_
  extract_lets after
  have hafter : ∀ no c₅, Leads v 1 c c₅ (cond.nodes :: yes.nodes :: elifNodes elifs ++ optBlockNodes no) →
      Parses v c (after no) (after no) c₅ (Leaves v 1 c (fun x => [x.nodes]) fun _ _ => True) := fun no c₅ h =>
    .expect h fun c₆ h₆ => .pure ⟨h₆.build (by decide) (by simp) (by simp), trivial⟩
  refine .ite (fun hkey => .next ?_) fun _ => ?_
  · rw [bind_map_left, bind_map_left]
    refine .block hinner (h₄.pass (kind_of_isKeyword hkey) rfl) fun b c₅ h₅ => hafter _ _ ?_
    exact h₅.build (by decide) (by simp) (by simp)
  · rw [pure_bind]
    exact hafter none c₄ (h₄.build (by decide) (by simp) (by simp))

theorem finds_whileClause (hc : c.Ready v.size) (hkind : c.head.kind = .word)
    (hinner : Inner.Agree v inner inner' c.toks.length) :
    Finds v 1 (whileClause v.setting inner) (whileClause v.setting inner') c fun x => [x.nodes] := by
  have h := (Leads.start hc).pass hkind rfl
  refine .cur (.next (.block hinner h fun cond c₁ h₁ => ?_))
  refine .find h₁ (finds_loopBody _ _ h₁.ready (hinner.mono h₁.length_le)) fun body c₂ h₂ _ => .pure ⟨?_, trivial⟩
  exact h₂.build (by decide) (by simp) (by simp)

theorem finds_group (hc : c.Ready v.size) (hkind : c.head.kind = .word) (hinner : Inner.Agree v inner inner' c.toks.length) :
    Finds v 1 (group v.setting inner) (group v.setting inner') c fun x => [x.nodes] := by
  have h := (Leads.start hc).pass hkind rfl
  refine .cur (.next (.block hinner h fun body c₁ h₁ => .expect h₁ fun c₂ h₂ => .pure ⟨?_, trivial⟩))
  exact h₂.build (by decide) (by simp) (by simp)

theorem finds_subshell (hc : c.Ready v.size) (hkind : c.head.kind = .lparen)
    (hinner : Inner.Agree v inner inner' c.toks.length) :
    Finds v 1 (subshell v.setting inner) (subshell v.setting inner') c fun x => [x.nodes] := by
  have h := (Leads.start hc).pass hkind rfl
  refine .cur (.next (.block hinner h fun body c₁ h₁ => .cur ?_))
  refine .ite (fun hclose => .next (.pure ⟨?_, trivial⟩)) fun _ => .ite (fun _ => .fail h₁ _ _) fun _ => .fail h₁ _ _
  exact (h₁.pass (beq_iff_eq.mp hclose) rfl).build (by decide) (by simp) (by simp)

-- Words.

theorem finds_word? (hparts : PartsReader.Agree v parts parts' v.size) (hc : c.Ready v.size) :
    Parses v c (word? parts) (word? parts') c (Turns v c (fun w => [w.nodes]) fun _ => True) := by
  refine .cur (.ite (fun hword => ?_) fun _ => .pure ⟨.start hc, trivial⟩)
  refine .word hparts hc.head_le (.start hc) fun w ds h => .next (.pure ?_)
  exact h.pass (beq_iff_eq.mp hword) rfl

-- Without a list there are no words.
theorem finds_loopHead (hparts : PartsReader.Agree v parts parts' v.size) (construct : String) (hc : c.Ready v.size) :
    FindsWith v 1 (loopHead v.setting parts construct) (loopHead v.setting parts' construct) c (fun r => wordNodes r.2.2.2)
      fun r _ => r.2.2.1 = false → r.2.2.2 = [] := by
  refine .cur (.check (.start hc) fun hname => .next ?_)
  have hword : c.head.kind = .word := by
    simp only [Bool.or_eq_true, not_or, bne_iff_ne, Classical.not_not] at hname
    exact hname.1
  refine .newlines ((Leads.start hc).pass hword rfl) fun c₁ h₁ => .cur (.ite (fun hin => .next ?_) fun _ => ?_)
  · have hin : c₁.head.kind = .word := by
      simp only [Bool.and_eq_true, beq_iff_eq] at hin
      exact hin.1
    have h₂ := h₁.pass hin rfl
    refine .find h₂ (finds_many h₂.ready fun c' hc' _ => finds_word? hparts hc') fun items c₃ h₃ _ => ?_
    refine .cur (.check h₃ fun hsep => .next ?_)
    have h₄ : Leads v 1 c c₃.passed (wordNodes items) := by
      have hsep : c₃.head.kind = .semi ∨ c₃.head.kind = .newline := by
        simp only [Bool.and_eq_true, not_and_or, bne_iff_ne, Classical.not_not] at hsep
        exact hsep
      rcases hsep with hsemi | hnewline
      · exact (h₃.pass hsemi rfl).build (by decide) (by simp) (by simp)
      · exact (h₃.pass hnewline rfl).build (by decide) (by simp) (by simp)
    exact .newlines h₄ fun c₅ h₅ => .pure ⟨h₅, nofun⟩
  · extract_lets after
    have hafter : ∀ c₂, Leads v 1 c c₂ [] → Parses v c (after ()) (after ()) c₂ (Leaves v 1 c (fun r => wordNodes r.2.2.2)
        fun r _ => r.2.2.1 = false → r.2.2.2 = []) := fun c₂ h =>
      .newlines h fun c₃ h₃ => .pure ⟨h₃, fun _ => rfl⟩
    refine .ite (fun hsemi => .next (hafter _ ?_)) fun _ => hafter _ h₁
    exact (h₁.pass (beq_iff_eq.mp hsemi) rfl).build (by decide) id rfl

-- Loops.

theorem builds_forHeads (hparts : PartsReader.Agree v parts parts' v.size) : ∀ n p cs, cs.length ≤ v.size →
    Builds v (forHeads v.setting parts n p cs) (forHeads v.setting parts' n p cs) fun r =>
      ∀ xs, r = some xs → AllOf v.Good (xs.flatMap optArithNodes)
  | 0, _, _, _ => .pure trivial fun _ h => by
      obtain rfl := Option.some.inj h
      exact allOf_nil
  | n + 1, p, cs, hcs => by
      unfold forHeads
      split
      · rename_i a b hsplit
        have hlen := congrArg List.length (splitTop?_eq hsplit)
        rw [List.length_append, List.length_cons] at hlen
        refine (builds_arithText hparts _ a (by omega)).bind fun x _ =>
          (builds_forHeads hparts n _ b (by omega)).bind fun rest _ => .pure trivial ?_
        intro hrest hx xs hxs
        obtain ⟨ys, hys, rfl⟩ := Option.map_eq_some_iff.mp hxs
        rw [List.flatMap_cons, allOf_append]
        exact ⟨hx, hrest ys hys⟩
      · refine (builds_arithText hparts _ cs hcs).bind fun x _ => .pure trivial fun hx xs hxs => ?_
        split at hxs
        · obtain rfl := Option.some.inj hxs
          simpa using hx
        · cases hxs

theorem finds_arithFor (hparts : PartsReader.Agree v parts parts' v.size) (start : Position) (hc : c.Ready v.size)
    (hkind : c.head.kind = .arith) (hinner : Inner.Agree v inner inner' c.toks.length) :
    Finds v 1 (arithFor v.setting parts inner start) (arithFor v.setting parts' inner' start) c fun x => [x.nodes] := by
  refine .warn (.start hc) fun ds h => .cur ?_
  refine .scan (runs_words (builds_forHeads hparts 3 _ _ h.ready.head_le)) fun r c₁ hr => ?_
  have hhead : c₁.head.kind = .arith := by
    obtain ⟨ds', rfl, -⟩ := hr.2
    exact hkind
  split
  · rename_i x y z
    have h₁ : Leads v 0 c c₁ (optArithNodes x ++ optArithNodes y ++ optArithNodes z) := by
      have hxyz := h.reports hr.2 (fun hgood => hgood [x, y, z] rfl) (by simp)
      simpa using hxyz
    refine .next (.cur ?_)
    extract_lets after after'
    have hafter : ∀ c₂, Leads v 1 c c₂ (optArithNodes x ++ optArithNodes y ++ optArithNodes z) →
        Parses v c (after ()) (after' ()) c₂ (Leaves v 1 c (fun x => [x.nodes]) fun _ _ => True) := fun c₂ h₂ => by
      refine .newlines h₂ fun c₃ h₃ => ?_
      refine .find h₃ (finds_loopBody _ _ h₃.ready (hinner.mono h₃.length_le)) fun body c₄ h₄ _ => .pure ⟨?_, trivial⟩
      exact h₄.build (by decide) (by simp) (by simp)
    have h₂ := h₁.pass hhead rfl
    refine .ite (fun hsemi => .next (hafter _ ?_)) fun _ => hafter _ h₂
    exact (h₂.pass (beq_iff_eq.mp hsemi) rfl).build (by decide) id rfl
  · exact .fail (h.reports hr.2 (fun _ => allOf_nil) rfl) _ _

theorem finds_forClause (hparts : PartsReader.Agree v parts parts' v.size) (hc : c.Ready v.size) (hkind : c.head.kind = .word)
    (hinner : Inner.Agree v inner inner' c.toks.length) :
    Finds v 1 (forClause v.setting parts inner) (forClause v.setting parts' inner') c fun x => [x.nodes] := by
  have h := (Leads.start hc).pass hkind rfl
  have hinner' := hinner.mono h.length_le
  refine .cur (.next (.cur (.ite (fun harith => ?_) fun _ => ?_)))
  · refine .last h (finds_arithFor hparts _ h.ready (beq_iff_eq.mp harith) hinner') fun x c₁ h₁ _ => ⟨?_, trivial⟩
    exact h₁.build (by decide) (by simp) (by simp)
  · refine .find h (finds_loopHead hparts "for" h.ready) fun r c₁ h₁ hitems => ?_
    obtain ⟨name, namePos, hasIn, items⟩ := r
    refine .find h₁ (finds_loopBody _ _ h₁.ready (hinner.mono h₁.length_le)) fun body c₂ h₂ _ => .pure ⟨?_, trivial⟩
    exact h₂.build (by decide) (by simpa using fun h h' => ⟨hitems, h, h'⟩) (by simp)

theorem finds_selectClause (hparts : PartsReader.Agree v parts parts' v.size) (hc : c.Ready v.size)
    (hkind : c.head.kind = .word) (hinner : Inner.Agree v inner inner' c.toks.length) :
    Finds v 1 (selectClause v.setting parts inner) (selectClause v.setting parts' inner') c fun x => [x.nodes] := by
  refine .cur (.warn (.start hc) fun ds h => .next ?_)
  have h₀ := h.pass hkind rfl
  refine .find h₀ (finds_loopHead hparts "select" h₀.ready) fun r c₁ h₁ hitems => ?_
  obtain ⟨name, namePos, hasIn, items⟩ := r
  refine .find h₁ (finds_loopBody _ _ h₁.ready (hinner.mono h₁.length_le)) fun body c₂ h₂ _ => .pure ⟨?_, trivial⟩
  exact h₂.build (by decide) (by simpa using fun h h' => ⟨hitems, h, h'⟩) (by simp)

-- Cases.

theorem finds_pattern (hparts : PartsReader.Agree v parts parts' v.size) (hc : c.Ready v.size) :
    Finds v 1 (pattern v.setting parts) (pattern v.setting parts') c fun w => [w.nodes] := by
  refine .cur (.check (.start hc) fun hword => .word hparts hc.head_le (.start hc) fun w ds h => .next (.pure ⟨?_, trivial⟩))
  have hword : c.head.kind = .word := by simpa using hword
  exact h.pass hword rfl

theorem finds_pattern? (hparts : PartsReader.Agree v parts parts' v.size) (hc : c.Ready v.size) :
    Parses v c (pattern? v.setting parts) (pattern? v.setting parts') c (Turns v c (fun w => [w.nodes]) fun _ => True) := by
  refine .cur (.ite (fun hpipe => .next ?_) fun _ => .pure ⟨.start hc, trivial⟩)
  have h := (Leads.start hc).pass (beq_iff_eq.mp hpipe) rfl
  exact .find h (finds_pattern hparts h.ready) fun w c₁ h₁ _ => .pure (h₁.build (by decide) (by simp) (by simp))

theorem isPlain_of_caseTerm {t : Token} (h : (caseTerm? t).isSome = true) :
    (t.kind != .eof && t.kind != .dless && t.kind != .dlessDash) = true := by
  unfold caseTerm? at h
  split at h <;> simp_all

theorem finds_caseItem (hparts : PartsReader.Agree v parts parts' v.size) (hc : c.Ready v.size)
    (hinner : Inner.Agree v inner inner' c.toks.length) :
    Finds v 1 (caseItem v.setting parts inner) (caseItem v.setting parts' inner') c fun i => caseNodes [i] := by
  refine .cur ?_
  extract_lets after after'
  have hafter : ∀ c₁, Leads v 0 c c₁ [] → Parses v c (after ()) (after' ()) c₁
      (Leaves v 1 c (fun i => caseNodes [i]) fun _ _ => True) := by
    intro c₁ h
    refine .find h (finds_pattern hparts h.ready) fun first c₂ h₂ _ => ?_
    refine .find h₂ (finds_many h₂.ready fun c' hc' _ => finds_pattern? hparts hc') fun others c₃ h₃ _ => ?_
    refine .cur (.check h₃ fun hclose => .next ?_)
    have hclose : c₃.head.kind = .rparen := by simpa using hclose
    refine .block hinner (h₃.pass hclose rfl) fun body c₅ h₅ => .cur ?_
    cases hterm : caseTerm? c₅.head with
    | none => exact .pure ⟨h₅.build (by decide) (by simp) (by simp), trivial⟩
    | some term =>
        have hpass := h₅.pass rfl (isPlain_of_caseTerm (by simp [hterm]))
        exact .next (.pure ⟨hpass.build (by decide) (by simp) (by simp), trivial⟩)
  refine .ite (fun hopen => .next (hafter _ ?_)) fun _ => hafter _ (.start hc)
  exact ((Leads.start hc).pass (beq_iff_eq.mp hopen) rfl).build (by decide) id rfl

theorem finds_caseItem? (hparts : PartsReader.Agree v parts parts' v.size) (start : Position) (hc : c.Ready v.size)
    (hinner : Inner.Agree v inner inner' c.toks.length) :
    Parses v c (caseItem? v.setting parts inner start) (caseItem? v.setting parts' inner' start) c
      (Turns v c (fun i => caseNodes [i]) fun c' => c'.head.kind = .word) := by
  refine .cur (.ite (fun hesac => .pure ⟨.start hc, kind_of_isKeyword hesac⟩) fun _ => .check (.start hc) fun _ => ?_)
  refine .find (.start hc) (finds_caseItem hparts hc hinner) fun item c₁ h₁ _ => .newlines h₁ fun c₂ h₂ => .pure ?_
  exact h₂

theorem finds_caseClause (hparts : PartsReader.Agree v parts parts' v.size) (hc : c.Ready v.size) (hkind : c.head.kind = .word)
    (hinner : Inner.Agree v inner inner' c.toks.length) :
    Finds v 1 (caseClause v.setting parts inner) (caseClause v.setting parts' inner') c fun x => [x.nodes] := by
  have h := (Leads.start hc).pass hkind rfl
  refine .cur (.next (.cur (.check h fun hword => .word hparts h.ready.head_le h fun word ds h₁ => .next ?_)))
  have hword : c.passed.head.kind = .word := by simpa using hword
  refine .newlines (h₁.pass hword rfl) fun c₃ h₃ => .cur ?_
  extract_lets after after'
  refine .ite (fun _ => .ite (fun _ => .stop h₃ _ _) fun _ => .stop h₃ _ _) fun hin => .next ?_
  have hin : c₃.head.kind = .word := by
    simp only [Bool.or_eq_true, not_or, bne_iff_ne, Classical.not_not] at hin
    exact hin.1
  refine .newlines (h₃.pass hin rfl) fun c₄ h₄ => ?_
  refine .find h₄ (finds_many h₄.ready fun c' hc' hle =>
    finds_caseItem? hparts _ hc' (hinner.mono (Nat.le_trans hle h₄.length_le))) fun items c₅ h₅ hesac => ?_
  refine .next (.pure ⟨(h₅.pass hesac rfl).build (by decide) (by simp) (by simp), trivial⟩)

-- Functions.

theorem Parses.closeFunctionHead {β : Type} {f f' : Unit → Parse β} {R : β → Cursor → Prop} (h : Leads v n c₀ c ts)
    (hkind : c.head.kind = .lparen) (hf : ∀ c', Leads v (n + 2) c₀ c' ts → Parses v c₀ (f ()) (f' ()) c' R) :
    Parses v c₀ (Read.closeFunctionHead v.setting >>= f) (Read.closeFunctionHead v.setting >>= f') c R := by
  have hhead : Finds v 2 (Read.closeFunctionHead v.setting) (Read.closeFunctionHead v.setting) c fun _ => [] := by
    have h₁ := (Leads.start h.ready).pass hkind rfl
    refine .next (.cur (.check h₁ fun hclose => .next (.pure ⟨?_, trivial⟩)))
    have hclose : c.passed.head.kind = .rparen := by simpa using hclose
    exact h₁.pass hclose rfl
  exact .find h hhead fun _ c' h' _ => hf c' (h'.build (Nat.le_refl _) (by simp) (by simp))

theorem finds_functionBody (hparts : PartsReader.Agree v parts parts' v.size) (pos : Position) (name : String)
    (keyword parens : Bool) (h : Leads v (n + 1) c₀ c []) (hinner : Inner.Agree v inner inner' c₀.toks.length) :
    Parses v c₀ (functionBody v.setting parts inner pos name keyword parens)
      (functionBody v.setting parts' inner' pos name keyword parens) c
      (Leaves v 1 c₀ (fun x => [x.nodes]) fun _ _ => True) := by
  refine .newlines h fun c₁ h₁ => .cur (.check h₁ fun _ => ?_)
  extract_lets after
  have hafter : ∀ body c₂, Leads v 1 c₀ c₂ [body.nodes] → Parses v c₀ (after body) (after body) c₂
      (Leaves v 1 c₀ (fun x => [x.nodes]) fun _ _ => True) := fun body c₂ h₂ =>
    .pure ⟨h₂.build (by decide) (by simp) (by simp), trivial⟩
  have hinner₁ := hinner.mono h₁.length_le
  refine .ite (fun hbrace => ?_) fun _ => ?_
  · have hword : c₁.head.kind = .word := by
      simp only [Bool.and_eq_true, beq_iff_eq] at hbrace
      exact hbrace.1.1
    refine .find h₁ (finds_group h₁.ready hword hinner₁) fun g c₂ h₂ _ => ?_
    have hgroup : Leads v (n + 1) c₀ c₂ [g.nodes] := h₂.build (Nat.le_add_right _ _) (by simp) (by simp)
    refine .seq (.withRedirects hparts hgroup) fun body c₃ h₃ => hafter body c₃ ?_
    exact h₃.1.build (Nat.le_add_left _ _) id rfl
  · refine .find h₁ (hinner.command c₁ h₁.ready h₁.lt) fun body c₂ h₂ _ => hafter body c₂ ?_
    exact h₂.build (Nat.le_add_left _ _) (by simp) (by simp)

theorem finds_functionKeyword (hparts : PartsReader.Agree v parts parts' v.size) (hc : c.Ready v.size)
    (hkind : c.head.kind = .word) (hinner : Inner.Agree v inner inner' c.toks.length) :
    Finds v 1 (functionKeyword v.setting parts inner) (functionKeyword v.setting parts' inner') c fun x => [x.nodes] := by
  refine .cur (.warn (.start hc) fun ds h => .next (.cur ?_))
  have h₁ := h.pass hkind rfl
  refine .check h₁ fun hword => .next (.cur ?_)
  have h₂ := h₁.pass (by simpa using hword) rfl
  refine .ite (fun hopen => ?_) fun _ => finds_functionBody hparts _ _ true false h₂ hinner
  exact .closeFunctionHead h₂ (beq_iff_eq.mp hopen) fun c₃ h₃ => finds_functionBody hparts _ _ true true h₃ hinner

theorem finds_functionParens (hparts : PartsReader.Agree v parts parts' v.size) (name : Token) (h : Leads v (n + 1) c₀ c [])
    (hkind : c.head.kind = .lparen) (hinner : Inner.Agree v inner inner' c₀.toks.length) :
    Parses v c₀ (functionParens v.setting parts inner name) (functionParens v.setting parts' inner' name) c
      (Leaves v 1 c₀ (fun x => [x.nodes]) fun _ _ => True) :=
  .check h fun _ => .closeFunctionHead h hkind fun _ h₁ => finds_functionBody hparts _ _ false true h₁ hinner

-- Arithmetic.

theorem finds_arithCommand (hparts : PartsReader.Agree v parts parts' v.size) (hc : c.Ready v.size)
    (hkind : c.head.kind = .arith) :
    Finds v 1 (arithCommand v.setting parts) (arithCommand v.setting parts') c fun x => [x.nodes] := by
  refine .cur (.scan (runs_words (builds_arithText hparts _ _ hc.head_le)) fun x c₁ hx => .next ?_)
  have h : Leads v 0 c c₁ (optArithNodes x) := (Leads.start hc).reports hx.2 id (by simp)
  have hhead : c₁.head.kind = .arith := by
    obtain ⟨ds, rfl, -⟩ := hx.2
    exact hkind
  have h₁ := h.pass hhead rfl
  cases x with
  | none => exact .fail h₁ _ _
  | some x => exact .pure ⟨h₁.build (by decide) (by simp) (by simp), trivial⟩

end Clauses

end Read
end Script
end ShellScript

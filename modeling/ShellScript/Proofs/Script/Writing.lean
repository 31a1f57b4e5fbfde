import ShellScript.Proofs.Script.Alike
import ShellScript.Script.Print

-- What the printers write stands behind what has been written before, and no command that has a word or a sign of its own
-- in front is written with a number sign there.
namespace ShellScript
namespace Script

-- What is written is put behind what has been written before, and `P` is true of it.
def Writes {α : Type} (P : List Char → Prop) (m : Printing α) : Prop :=
  ∀ p, ∃ s : String, (m.run p).2.out = p.out ++ s ∧ P s.toList

abbrev Appends {α : Type} (m : Printing α) : Prop := Writes (fun _ => True) m

-- No comment begins there.
def Plain (cs : List Char) : Prop := cs.head? ≠ some '#'

-- There is a character, and no comment begins with it.
def Opening (cs : List Char) : Prop := cs.head?.any (· != '#') = true

theorem Opening.plain {cs : List Char} (h : Opening cs) : Plain cs := by
  cases cs with
  | nil => cases h
  | cons c cs => simpa [Plain, Opening] using h

theorem Opening.append {cs : List Char} (h : Opening cs) (cs' : List Char) : Opening (cs ++ cs') := by
  cases cs with
  | nil => cases h
  | cons c cs => exact h

theorem opening_or_nil {cs : List Char} (h : Plain cs) : cs = [] ∨ Opening cs := by
  cases cs with
  | nil => exact .inl rfl
  | cons c cs => exact .inr (by simpa [Plain, Opening] using h)

theorem opening_text {s : String} (h : Opening s.toList) (t : String) : Opening (s ++ t).toList := by
  rw [String.toList_append]
  exact h.append _

theorem Plain.append {cs cs' : List Char} (h : Plain cs) (h' : Plain cs') : Plain (cs ++ cs') := by
  obtain rfl | hopen := opening_or_nil h
  · exact h'
  · exact (hopen.append cs').plain

section Rules

variable {α β : Type} {P Q : List Char → Prop} {m n : Printing α} {f : α → Printing β}

theorem Writes.mono (h : Writes P m) (hpq : ∀ cs, P cs → Q cs) : Writes Q m := by
  intro p
  obtain ⟨s, hs, hp⟩ := h p
  exact ⟨s, hs, hpq _ hp⟩

theorem Writes.appends (h : Writes P m) : Appends m := h.mono fun _ _ => trivial

theorem Writes.bind {R : List Char → Prop} (h : Writes P m) (hf : ∀ a, Writes Q (f a))
    (hpq : ∀ cs cs', P cs → Q cs' → R (cs ++ cs')) : Writes R (m >>= f) := by
  intro p
  obtain ⟨s, hs, hp⟩ := h p
  obtain ⟨s', hs', hq⟩ := hf (m.run p).1 (m.run p).2
  refine ⟨s ++ s', ?_, ?_⟩
  · rw [← String.append_assoc, ← hs]
    exact hs'
  · rw [String.toList_append]
    exact hpq _ _ hp hq

theorem writes_str (s : String) (h : P s.toList) : Writes P (Printer.str s) := fun _ => ⟨s, rfl, h⟩

theorem Writes.ite {c : Prop} [Decidable c] (h : Writes P m) (h' : Writes P n) : Writes P (if c then m else n) := by
  split
  · exact h
  · exact h'

theorem appends_pure (a : α) : Appends (pure a : Printing α) := fun _ => ⟨"", String.append_empty.symm, trivial⟩

theorem appends_str (s : String) : Appends (Printer.str s) := writes_str s trivial

theorem Appends.bind (h : Appends m) (hf : ∀ a, Appends (f a)) : Appends (m >>= f) :=
  Writes.bind h hf fun _ _ _ _ => trivial

theorem Appends.seq {m' : Printing β} (h : Appends m) (h' : Appends m') : Appends (m >>= fun _ => m') := h.bind fun _ => h'

theorem Appends.ite {c : Prop} [Decidable c] (h : Appends m) (h' : Appends n) : Appends (if c then m else n) :=
  Writes.ite h h'

theorem appends_modify {f : Printer → Printer} (h : ∀ p, (f p).out = p.out) : Appends (modify f : Printing Unit) := by
  intro p
  refine ⟨"", ?_, trivial⟩
  rw [String.append_empty]
  exact h p

theorem appends_isInline : Appends Printer.isInline := fun _ => ⟨"", String.append_empty.symm, trivial⟩

theorem appends_newline : Appends Printer.newline :=
  fun _ => ⟨_, String.append_assoc.trans (String.append_assoc.trans rfl), trivial⟩

theorem Appends.indented {x : Printing Unit} (h : Appends x) : Appends (Printer.indented x) :=
  .seq (appends_modify (f := fun p => { p with indent := p.indent + 1 }) fun _ => rfl) (h.seq (appends_modify fun _ => rfl))

theorem Appends.inlined {x : Printing Unit} (h : Appends x) : Appends (Printer.inlined x) :=
  .seq (appends_modify (f := fun p => { p with inline := p.inline + 1 }) fun _ => rfl) (h.seq (appends_modify fun _ => rfl))

theorem Appends.outOfLine {x : Printing Unit} (h : Appends x) : Appends (Printer.outOfLine x) :=
  fun p => h { p with inline := 0, docs := [] }

-- What may be written in front of something else.
theorem Appends.unless {c : Bool} {m' : Printing β} (s : String) (h : Appends m') :
    Appends (if c then m' else Printer.str s >>= fun _ => m') := h.ite ((appends_str s).seq h)

abbrev Opens {α : Type} (m : Printing α) : Prop := Writes Opening m

theorem Opens.seq {m' : Printing β} (h : Opens m) (h' : Appends m') : Opens (m >>= fun _ => m') :=
  Writes.bind h (fun _ => h') fun _ cs' hopen _ => hopen.append cs'

theorem Opens.ite {c : Prop} [Decidable c] (h : Opens m) (h' : Opens n) : Opens (if c then m else n) := Writes.ite h h'

theorem opens_str {s : String} (h : Opening s.toList) : Opens (Printer.str s) := writes_str s h

theorem opens_isInline {f : Bool → Printing Unit} (h : ∀ inline, Opens (f inline)) : Opens (Printer.isInline >>= f) :=
  fun p => h (p.inline > 0) p

theorem Writes.seq {c : Prop} {m' : Printing β} (h : Writes (fun cs => c → Opening cs) m) (h' : Appends m') :
    Writes (fun cs => c → Opening cs) (m >>= fun _ => m') :=
  h.bind (fun _ => h') fun _ cs' hopen _ hc => (hopen hc).append cs'

theorem Opens.when {c : Prop} (h : Opens m) : Writes (fun cs => c → Opening cs) m := h.mono fun _ h _ => h

theorem Appends.bare (h : Appends m) : Writes (fun cs => false = true → Opening cs) m := h.mono fun _ _ => nofun

end Rules

-- A part of which the first character is known to begin no comment.
def WordPart.Fronts : WordPart → Prop
  | .lit _ s => Opening s.toList
  | _ => True

-- A command that is written with a sign or a keyword of its own in front.
def Command.hasKeyword : Command → Bool
  | .pipeline _ negated _ _ => negated
  | .function _ _ keyword _ _ => keyword
  | .simple _ _ _ | .declare _ _ _ _ _ | .andOr _ _ _ _ | .background _ | .redirected _ _ => false
  | _ => true

-- Every printer appends.
mutual

theorem Word.appends : ∀ w : Word, Appends w.print
  | ⟨parts⟩ => by
    rw [Word.print]
    exact appends_parts false parts

theorem appends_optWord : ∀ w : Option Word, Appends (printOptWord w)
  | none => appends_pure ()
  | some w => w.appends

theorem appends_spaced : ∀ ws : List Word, Appends (printSpaced ws)
  | [] => appends_pure ()
  | w :: ws => (appends_str " ").seq (w.appends.seq (appends_spaced ws))

theorem appends_joined (sep : String) : ∀ (first : Bool) (ws : List Word), Appends (printJoined sep first ws)
  | _, [] => appends_pure ()
  | _, w :: ws => .unless sep (w.appends.seq (appends_joined sep false ws))

theorem appends_parts (inDouble : Bool) : ∀ ps : List WordPart, Appends (printParts inDouble ps)
  | [] => appends_pure ()
  | p :: ps => (p.writes inDouble).appends.seq (appends_parts inDouble ps)

theorem WordPart.writes (inDouble : Bool) : ∀ x : WordPart, Writes (fun cs => x.Fronts → Opening cs) (x.print inDouble)
  | .lit _ s => writes_str s id
  | .single _ dollar _ => (opens_str (opening_text (opening_text (by cases dollar <;> rfl) _) _)).when
  | .double _ dollar ps =>
    (Opens.seq (opens_str (by cases dollar <;> rfl)) ((appends_parts true ps).seq (appends_str _))).when
  | .param _ x => x.opens.when
  | .command _ body backquote =>
    (Opens.ite (opens_str (by rw [String.toList_ofList]; rfl))
      (Opens.seq (opens_str (by rfl)) (body.appends_sub.seq (appends_str _)))).when
  | .arith _ x => (Opens.seq (opens_str (by rfl)) ((appends_optArith x).seq (appends_str _))).when
  | .brace _ _ ws => (Opens.seq (opens_str (by rfl)) ((appends_joined _ true ws).seq (appends_str _))).when
  | .process _ write body =>
    (Opens.seq (opens_str (by cases write <;> rfl)) (body.appends_sub.seq (appends_str _))).when

theorem ParamExp.opens : ∀ x : ParamExp, Opens x.print
  | ⟨short, name, length, indirect, names, index, op, arg, repl⟩ => by
    have hop : Appends (match op with
        | none => pure ()
        | some op => do
          Printer.str op.text
          printOptWord arg
          printRepl (if op == .slice then ":" else "/") repl) := by
      cases op with
      | none => exact appends_pure ()
      | some op => exact (appends_str _).seq ((appends_optWord arg).seq (appends_repl _ repl))
    have hnames : Appends (match names with
        | some c => Printer.str (String.ofList [c])
        | none => pure ()) := by
      cases names with
      | none => exact appends_pure ()
      | some c => exact appends_str _
    have hbraced := Opens.seq
      (opens_str (s := "$\x7b" ++ (if length then "#" else if indirect then "!" else "") ++ name)
        (opening_text (opening_text (by rfl) _) _))
      (hnames.seq ((appends_index index).seq (hop.seq (appends_str "\x7d"))))
    rw [ParamExp.print]
    exact Opens.ite (opens_str (opening_text (by rfl) _)) (by cases names <;> cases op <;> exact hbraced)

theorem appends_index : ∀ w : Option Word, Appends (printIndex w)
  | none => appends_pure ()
  | some w => (appends_str _).seq (w.appends.seq (appends_str _))

theorem appends_repl (sep : String) : ∀ w : Option Word, Appends (printRepl sep w)
  | none => appends_pure ()
  | some w => (appends_str sep).seq w.appends

theorem ArithExpr.appends : ∀ x : ArithExpr, Appends x.print
  | .word w => w.appends
  | .binary _ _ x y => x.appends.seq ((appends_str _).seq y.appends)
  | .unary _ op post x => by
    have hx := x.appends
    cases post with
    | true => exact hx.seq (appends_str _)
    | false =>
      rw [ArithExpr.print_unary]
      refine (appends_str _).seq ?_
      cases x.sign? with
      | none => exact hx
      | some inner => exact ((appends_str _).seq hx).ite hx
  | .paren _ x => (appends_str _).seq (x.appends.seq (appends_str _))
  | .ternary c x y =>
    c.appends.seq ((appends_str _).seq (x.appends.seq ((appends_str _).seq (appends_optArith y))))

theorem appends_optArith : ∀ x : Option ArithExpr, Appends (printOptArith x)
  | none => appends_pure ()
  | some x => x.appends

theorem TestExpr.appends : ∀ x : TestExpr, Appends x.print
  | .word w => w.appends
  | .binary _ _ x y => x.appends.seq ((appends_str _).seq y.appends)
  | .unary _ _ x => (appends_str _).seq x.appends
  | .paren _ x => (appends_str _).seq (x.appends.seq (appends_str _))

theorem Assignment.writes : ∀ a : Assignment, Writes (fun cs => Opening a.name.toList → Opening cs) a.print
  | ⟨_, _, index, _, _, value, none⟩ =>
    Writes.seq (writes_str _ id) ((appends_index index).seq
      ((appends_pure ()).ite ((appends_str _).seq (appends_optWord value))))
  | ⟨_, _, index, _, _, _, some ⟨_, elems⟩⟩ =>
    Writes.seq (writes_str _ id) ((appends_index index).seq ((appends_pure ()).ite
      ((appends_str _).seq ((appends_str _).seq ((appends_joined " " true elems).seq (appends_str _))))))

theorem appends_assigns : ∀ (first : Bool) (as : List Assignment), Appends (printAssigns first as)
  | _, [] => appends_pure ()
  | _, a :: as => .unless " " (a.writes.appends.seq (appends_assigns false as))

theorem Redirect.writes : ∀ r : Redirect, Writes (fun cs => Opening (r.n ++ r.op.text).toList → Opening cs) r.print
  | ⟨_, _, _, word, none⟩ => Writes.seq (writes_str _ id) (word.appends.seq (appends_pure ()))
  | ⟨_, _, _, word, some ⟨_, _, _, _, _, _⟩⟩ =>
    Writes.seq (writes_str _ id) (word.appends.seq (appends_modify fun _ => rfl))

theorem appends_redirects : ∀ (first : Bool) (rs : List Redirect), Appends (printRedirects first rs)
  | _, [] => appends_pure ()
  | _, r :: rs => .unless " " (r.writes.appends.seq (appends_redirects false rs))

theorem appends_inline : ∀ cs : List Command, Appends (printInline cs)
  | [] => appends_pure ()
  | [c] => c.writes.appends
  | c :: d :: cs => c.writes.appends.seq ((appends_str _).seq (appends_inline (d :: cs)))

theorem appends_lines : ∀ cs : List Command, Appends (printLines cs)
  | [] => appends_pure ()
  | c :: cs => appends_newline.seq (c.writes.appends.seq (appends_lines cs))

theorem Block.appends_inlineList : ∀ b : Block, Appends b.printInlineList
  | ⟨_, items⟩ => (appends_inline items).inlined

theorem Block.appends_body : ∀ b : Block, Appends b.printBody
  | ⟨_, items⟩ => by
    have hitems := appends_inline items
    have hlast : Appends (match items.getLast? with
        | some c => do
          Printer.inlined (printInline items)
          Printer.str (separator c)
        | none => pure ()) := by
      cases items.getLast? with
      | none => exact appends_pure ()
      | some c => exact hitems.inlined.seq (appends_str _)
    rw [Block.printBody]
    exact appends_isInline.bind fun _ =>
      ((appends_str " ").seq hlast).ite ((appends_lines items).indented.seq appends_newline)

theorem Block.appends_sub : ∀ b : Block, Appends b.printSub
  | ⟨_, items⟩ => by
    rw [Block.printSub]
    exact (appends_pure ()).ite (((appends_lines items).seq appends_newline).outOfLine.ite (appends_str _))

theorem appends_elifs : ∀ es : List Elif, Appends (printElifs es)
  | [] => appends_pure ()
  | ⟨_, cond, yes⟩ :: es =>
    (appends_str _).seq (cond.appends_inlineList.seq ((appends_str _).seq (yes.appends_body.seq (appends_elifs es))))

theorem appends_optElse : ∀ b : Option Block, Appends (printOptElse b)
  | none => appends_pure ()
  | some b => (appends_str _).seq b.appends_body

theorem appends_casesInline : ∀ is : List CaseItem, Appends (printCasesInline is)
  | [] => appends_pure ()
  | ⟨patterns, ⟨_, items⟩, term⟩ :: is => by
    have hrest := (appends_str (" " ++ term.text)).seq (appends_casesInline is)
    rw [printCasesInline]
    exact (appends_str _).seq ((appends_joined " | " true patterns).seq ((appends_str _).seq
      (hrest.ite ((appends_str _).seq ((appends_inline items).inlined.seq hrest)))))

theorem appends_cases : ∀ is : List CaseItem, Appends (printCases is)
  | [] => appends_pure ()
  | ⟨patterns, ⟨_, items⟩, term⟩ :: is => by
    have hbody := ((appends_lines items).seq (appends_newline.seq (appends_str term.text))).indented
    rw [printCases]
    exact appends_newline.seq ((appends_joined " | " true patterns).seq ((appends_str _).seq
      (hbody.seq (appends_cases is))))

theorem appends_stages : ∀ (cs : List Command) (es : List Bool), Appends (printStages cs es)
  | [], _ => appends_pure ()
  | [c], _ => c.writes.appends
  | c :: d :: cs, es => c.writes.appends.seq ((appends_str _).seq (appends_stages (d :: cs) (es.drop 1)))

theorem Command.writes : ∀ c : Command, Writes (fun cs => c.hasKeyword = true → Opening cs) c.print
  | .simple assigns args redirs =>
    ((appends_assigns true assigns).seq ((appends_joined " " _ args).seq (appends_redirects _ redirs))).bare
  | .declare _ _ opts assigns redirs =>
    ((appends_str _).seq ((appends_spaced opts).seq
      ((appends_assigns false assigns).seq (appends_redirects false redirs)))).bare
  | .andOr _ _ x y => (x.writes.appends.seq ((appends_str _).seq y.writes.appends)).bare
  | .pipeline _ false cmds stderr => (appends_stages cmds stderr).bare
  | .pipeline _ true cmds stderr => (Opens.seq (opens_str (by rfl)) (appends_stages cmds stderr)).when
  | .background x => (x.writes.appends.seq (appends_str _)).bare
  | .ifThen _ cond yes elifs no =>
    (Opens.seq (opens_str (by rfl)) (cond.appends_inlineList.seq ((appends_str _).seq (yes.appends_body.seq
      ((appends_elifs elifs).seq ((appends_optElse no).seq (appends_str _))))))).when
  | .loop _ untilTrue cond body =>
    (Opens.seq (opens_str (by cases untilTrue <;> rfl)) (cond.appends_inlineList.seq ((appends_str _).seq
      (body.appends_body.seq (appends_str _))))).when
  | .forIn _ _ _ _ items body =>
    have hbody := (appends_str "; do").seq (body.appends_body.seq (appends_str "done"))
    (Opens.seq (opens_str (opening_text (by rfl) _))
      (.ite ((appends_str _).seq ((appends_spaced items).seq hbody)) hbody)).when
  | .select _ _ _ _ items body =>
    have hbody := (appends_str "; do").seq (body.appends_body.seq (appends_str "done"))
    (Opens.seq (opens_str (opening_text (by rfl) _))
      (.ite ((appends_str _).seq ((appends_spaced items).seq hbody)) hbody)).when
  | .forArith _ x y z body =>
    (Opens.seq (opens_str (by rfl)) ((appends_optArith x).seq ((appends_str _).seq ((appends_optArith y).seq
      ((appends_str _).seq ((appends_optArith z).seq ((appends_str _).seq
        (body.appends_body.seq (appends_str _))))))))).when
  | .caseOf _ word items =>
    (Opens.seq (opens_str (by rfl)) (word.appends.seq ((appends_str _).seq (appends_isInline.bind fun _ =>
      ((appends_casesInline items).seq (appends_str _)).ite
        ((appends_cases items).indented.seq (appends_newline.seq (appends_str _))))))).when
  | .function _ _ false _ body => ((appends_str _).seq body.writes.appends).bare
  | .function _ _ true _ body =>
    (Opens.seq (opens_str (opening_text (opening_text (opening_text (by rfl) _) _) _)) body.writes.appends).when
  | .subshell _ body =>
    (opens_isInline fun _ => Opens.ite (Opens.seq (opens_str (by rfl)) (body.appends_inlineList.seq (appends_str _)))
      (Opens.seq (opens_str (by rfl)) (body.appends_body.seq (appends_str _)))).when
  | .group _ body => (Opens.seq (opens_str (by rfl)) (body.appends_body.seq (appends_str _))).when
  | .arith _ x => (Opens.seq (opens_str (by rfl)) (x.appends.seq (appends_str _))).when
  | .test _ x => (Opens.seq (opens_str (by rfl)) (x.appends.seq (appends_str _))).when
  | .redirected x redirs => (x.writes.appends.seq (appends_redirects false redirs)).bare

end

theorem Command.appends (c : Command) : Appends c.print := c.writes.appends


-- Commands whose first word is written without a comment in front.

section Written

variable {α β : Type} {m : Printing α} {m' : Printing β} {x : Command} {assigns : List Assignment} {args : List Word}
  {redirs : List Redirect}

theorem plain_seq (h : Writes Plain m) (h' : Writes Plain m') : Writes Plain (m >>= fun _ => m') :=
  Writes.bind h (fun _ => h') fun _ _ => Plain.append

theorem plain_pure : Writes Plain (pure () : Printing Unit) := fun _ => ⟨"", String.append_empty.symm, nofun⟩

theorem Opens.plain (h : Opens m) : Writes Plain m := h.mono fun _ h => h.plain

theorem plain_joined (first : Bool) (h : ∀ w ∈ args, Writes Plain w.print) : Writes Plain (printJoined " " first args) := by
  induction args generalizing first with
  | nil => exact plain_pure
  | cons w ws ih =>
      obtain ⟨hw, hws⟩ := List.forall_mem_cons.mp h
      have hrest := plain_seq hw (ih false hws)
      exact Writes.ite hrest (plain_seq (Opens.plain (opens_str (by rfl))) hrest)

theorem plain_redirects (first : Bool) (h : ∀ r ∈ redirs, Plain r.n.toList) : Writes Plain (printRedirects first redirs) := by
  cases redirs with
  | nil => exact plain_pure
  | cons r rs =>
      have hr : Opens r.print := by
        refine r.writes.mono fun _ h' => h' ?_
        rw [String.toList_append]
        obtain hnil | hopen := opening_or_nil (h r List.mem_cons_self)
        · rw [hnil, List.nil_append]
          cases r.op <;> rfl
        · exact hopen.append _
      have hrest := hr.seq (appends_redirects false rs)
      exact Writes.ite (Opens.plain hrest) (Opens.plain (Opens.seq (opens_str (by rfl)) (Writes.appends hrest)))

theorem plain_simple (hassigns : ∀ a ∈ assigns, Opening a.name.toList) (hargs : ∀ w ∈ args, Writes Plain w.print)
    (hredirs : ∀ r ∈ redirs, Plain r.n.toList) : Writes Plain (Command.simple assigns args redirs).print := by
  have hrest := plain_seq (plain_joined assigns.isEmpty hargs) (plain_redirects (assigns.isEmpty && args.isEmpty) hredirs)
  rw [Command.print]
  refine plain_seq ?_ hrest
  cases assigns with
  | nil => exact plain_pure
  | cons a as =>
      have ha : Opens a.print := a.writes.mono fun _ h => h (hassigns a List.mem_cons_self)
      exact (ha.seq (appends_assigns false as)).plain

theorem plain_declare {p : Position} {variant : String} {opts : List Word} (h : Plain variant.toList)
    (hredirs : ∀ r ∈ redirs, Plain r.n.toList) : Writes Plain (Command.declare p variant opts assigns redirs).print := by
  have hopts : Writes Plain (printSpaced opts) := by
    cases opts with
    | nil => exact plain_pure
    | cons w ws => exact (Opens.seq (opens_str (by rfl)) (w.appends.seq (appends_spaced ws))).plain
  have hassigns : Writes Plain (printAssigns false assigns) := by
    cases assigns with
    | nil => exact plain_pure
    | cons a as => exact (Opens.seq (opens_str (by rfl)) (a.writes.appends.seq (appends_assigns false as))).plain
  rw [Command.print]
  exact plain_seq (writes_str _ h) (plain_seq hopts (plain_seq hassigns (plain_redirects false hredirs)))

theorem plain_lit? {w : Word} (h : Writes Plain w.print) : Plain ((w.lit?).getD "").toList := by
  obtain ⟨ps⟩ := w
  unfold Word.lit?
  split
  · nofun
  · rename_i p s hps
    obtain rfl : ps = [.lit p s] := hps
    obtain ⟨t, hout, ht⟩ := h {}
    have htext : "" ++ s = "" ++ t := hout
    rw [String.empty_append, String.empty_append] at htext
    split
    · nofun
    · exact htext ▸ ht
  · nofun

theorem plain_function {p : Position} {name : String} {parens : Bool} {body : Command} (h : Plain name.toList) :
    Writes Plain (Command.function p name false parens body).print := by
  have hfront : Plain ("" ++ name ++ (if parens || !false then "()" else "") ++ " ").toList := by
    rw [String.empty_append, String.append_assoc, String.toList_append]
    refine h.append ?_
    cases parens <;> nofun
  -- something follows the name, if only a blank
  obtain hnil | hopen := opening_or_nil hfront
  · simp at hnil
  · exact Opens.plain (Opens.seq (opens_str hopen) body.appends)

theorem plain_of_hasKeyword (h : x.hasKeyword = true) : Writes Plain x.print :=
  Opens.plain (x.writes.mono fun _ h' => h' h)

-- What comes before a blank.

theorem plain_before {s : String} (h : Writes Plain m) (hs : Opening s.toList) (h' : Appends m') :
    Writes Plain (m >>= fun _ => Printer.str s >>= fun _ => m') :=
  plain_seq h (Opens.plain (Opens.seq (opens_str hs) h'))

theorem plain_andOr {p : Position} {op : Connective} {y : Command} (h : Writes Plain x.print) :
    Writes Plain (Command.andOr p op x y).print := by
  rw [Command.print]
  exact plain_before h (by cases op <;> rfl) y.appends

theorem plain_background (h : Writes Plain x.print) : Writes Plain (Command.background x).print := by
  rw [Command.print]
  exact plain_seq h (Opens.plain (opens_str (by rfl)))

theorem plain_redirected (h : Writes Plain x.print) : Writes Plain (Command.redirected x redirs).print := by
  rw [Command.print]
  refine plain_seq h ?_
  cases redirs with
  | nil => exact plain_pure
  | cons r rs => exact Opens.plain (Opens.seq (opens_str (by rfl)) (r.writes.appends.seq (appends_redirects false rs)))

theorem plain_pipeline {p : Position} {negated : Bool} {rest : List Command} {stderr : List Bool}
    (h : Writes Plain x.print) : Writes Plain (Command.pipeline p negated (x :: rest) stderr).print := by
  cases negated with
  | true => exact plain_of_hasKeyword rfl
  | false =>
      have hstages : Writes Plain (printStages (x :: rest) stderr) := by
        cases rest with
        | nil => exact h
        | cons y ys => exact plain_before h (by split <;> rfl) (appends_stages (y :: ys) _)
      exact hstages

end Written

end Script
end ShellScript

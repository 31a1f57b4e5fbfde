import ShellScript.Proofs.Script.Places
import ShellScript.Proofs.Script.Shape

-- The places that the nodes of a tree name, and those that the readers of words give them: the signs, names and literal
-- texts of a word and of an arithmetic expression stand where the nodes say.
namespace ShellScript

namespace Script

-- The places that a node names, each with what stands there. A block that has been left out names none, and neither does
-- a here-document whose body is not found.

def marked (p : Position) (cs : List Char) : List (Position × List Char) := if p.isValid then [(p, cs)] else []

def WordPart.marks : WordPart → List (Position × List Char)
  | .lit p value => [(p, value.toList)]
  | .single p dollar value => [(p, (if dollar then ['$', '\''] else ['\'']) ++ value.toList)]
  | .double p dollar _ => [(p, if dollar then ['$', '"'] else ['"'])]
  | .param p x => [(p, if x.short then '$' :: x.name.toList else ['$', '\x7b'])]
  | .command p _ backquote => [(p, if backquote then [Text.backquote] else ['$', '('])]
  | .arith p _ => [(p, ['$', '(', '('])]
  | .brace p _ _ => [(p, ['\x7b'])]
  | .process p write _ => [(p, [if write then '>' else '<', '('])]

def ArithExpr.marks : ArithExpr → List (Position × List Char)
  | .binary p op _ _ | .unary p op _ _ => [(p, op.text.toList)]
  | .paren p _ => [(p, ['('])]
  | .word _ | .ternary _ _ _ => []

def TestExpr.marks : TestExpr → List (Position × List Char)
  | .binary p op _ _ | .unary p op _ => [(p, op.toList)]
  | .paren p _ => [(p, ['('])]
  | .word _ => []

def Command.marks : Command → List (Position × List Char)
  | .andOr p op _ _ => [(p, op.text.toList)]
  | .pipeline bang negated _ _ => if negated then [(bang, ['!'])] else []
  | .declare p variant _ _ _ => marked p variant.toList
  | .ifThen p _ _ _ _ => [(p, "if".toList)]
  | .loop p untilTrue _ _ => [(p, if untilTrue then "until".toList else "while".toList)]
  | .forIn p name namePos _ _ _ => [(p, "for".toList), (namePos, name.toList)]
  | .forArith p _ _ _ _ => [(p, "for".toList)]
  | .select p name namePos _ _ _ => [(p, "select".toList), (namePos, name.toList)]
  | .caseOf p _ _ => [(p, "case".toList)]
  | .function p name keyword _ _ => [(p, if keyword then "function".toList else name.toList)]
  | .subshell p _ => [(p, ['('])]
  | .group p _ => [(p, ['\x7b'])]
  | .arith p _ => [(p, ['(', '('])]
  | .test p _ => [(p, ['[', '['])]
  | .background _ | .simple _ _ _ | .redirected _ _ => []

def Node.marks : Node → List (Position × List Char)
  | .block b => marked b.start []
  | .command c => c.marks
  | .elif e => [(e.pos, "elif".toList)]
  | .redirect r => [(r.pos, r.n.toList), (r.opPos, if r.op.isRedirection then r.op.text.toList else [])]
  | .hereDoc d => marked d.pos d.raw.toList
  | .assignment a => [(a.pos, a.name.toList)]
  | .array x => [(x.pos, ['('])]
  | .part p => p.marks
  | .arith x => x.marks
  | .test x => x.marks
  | .caseItem _ | .word _ => []

-- Everything that a node names stands where it says, and so does the node itself.
structure Node.Stands (P : Places) (n : Node) : Prop where
  marks : ∀ m ∈ n.marks, P.Has m.1 m.2
  pos : n.pos.isValid = true → P.Has n.pos []

section Nodes

variable {P : Places} {n : Node} {p : Position} {cs : List Char}

theorem forall_mem_marked : (∀ m ∈ marked p cs, P.Has m.1 m.2) ↔ (p.isValid = true → P.Has p cs) := by
  unfold marked
  split <;> simp_all

-- A node that names just its own place.
theorem stands_of_mark (hn : n.marks = [(n.pos, cs)]) (h : P.Has n.pos cs) : n.Stands P := by
  refine ⟨fun m hm => ?_, fun _ => P.here h⟩
  rw [hn] at hm
  obtain rfl := List.mem_singleton.mp hm
  exact h

-- A node that stands where its first child does.
theorem stands_of_pos (hn : n.marks = []) (h : n.pos.isValid = true → P.Has n.pos []) : n.Stands P :=
  ⟨fun _ hm => absurd (hn ▸ hm) List.not_mem_nil, h⟩

theorem stands_of_marked (hn : n.marks = marked n.pos cs) (h : n.pos.isValid = true → P.Has n.pos cs) : n.Stands P :=
  ⟨by rw [hn]; exact forall_mem_marked.mpr h, fun hvalid => P.here (h hvalid)⟩

-- The node at the top of a tree.

theorem Word.stands {w : Word} (h : w.nodes.All (Node.Stands P)) : (Node.word w).Stands P := by
  cases w
  exact (all_mk.mp h).1

theorem WordPart.stands {x : WordPart} (h : x.nodes.All (Node.Stands P)) : (Node.part x).Stands P := by
  cases x <;> exact (all_mk.mp h).1

theorem ArithExpr.stands {x : ArithExpr} (h : x.nodes.All (Node.Stands P)) : (Node.arith x).Stands P := by
  cases x <;> exact (all_mk.mp h).1

theorem TestExpr.stands {x : TestExpr} (h : x.nodes.All (Node.Stands P)) : (Node.test x).Stands P := by
  cases x <;> exact (all_mk.mp h).1

theorem Assignment.stands {a : Assignment} (h : a.nodes.All (Node.Stands P)) : (Node.assignment a).Stands P := by
  cases a
  exact (all_mk.mp h).1

theorem Redirect.stands {r : Redirect} (h : r.nodes.All (Node.Stands P)) : (Node.redirect r).Stands P := by
  cases r
  exact (all_mk.mp h).1

theorem Command.stands {x : Command} (h : x.nodes.All (Node.Stands P)) : (Node.command x).Stands P := by
  cases x <;> exact (all_mk.mp h).1

-- The trees whose place is that of what they begin with.

theorem not_isValid_default : ({} : Position).isValid ≠ true := by decide

theorem all_word {ps : List WordPart} (h : AllOf (Node.Stands P) (partNodes ps)) :
    (Word.nodes ⟨ps⟩).All (Node.Stands P) := by
  refine all_mk.mpr ⟨stands_of_pos rfl ?_, h⟩
  cases ps with
  | nil => exact fun hvalid => absurd hvalid not_isValid_default
  | cons x xs => exact (WordPart.stands (allOf_cons.mp h).1).pos

theorem all_block {start : Position} {items : List Command} (hstart : start.isValid = true → P.Has start [])
    (h : AllOf (Node.Stands P) (commandNodes items)) : (Block.nodes ⟨start, items⟩).All (Node.Stands P) := by
  refine all_mk.mpr ⟨⟨forall_mem_marked.mpr hstart, ?_⟩, h⟩
  cases items with
  | nil => exact hstart
  | cons x xs => exact (Command.stands (allOf_cons.mp h).1).pos

theorem earliest_eq (p q : Position) : earliest p q = p ∨ earliest p q = q := by
  unfold earliest
  split
  · exact .inr rfl
  · exact .inl rfl

-- A simple command stands where one of its parts does.
theorem pos_simple {assigns : List Assignment} {args : List Word} {redirs : List Redirect}
    (h : AllOf (Node.Stands P) (assignNodes assigns ++ wordNodes args ++ redirectNodes redirs)) :
    let q := Command.simplePos assigns args redirs
    q.isValid = true → P.Has q [] := by
  have hearliest {p q : Position} (hp : p.isValid = true → P.Has p []) (hq : q.isValid = true → P.Has q []) :
      (earliest p q).isValid = true → P.Has (earliest p q) [] := by
    rcases earliest_eq p q with h | h
    · rwa [h]
    · rwa [h]
  have hfold {α : Type} (f : α → Position) (xs : List α) (hxs : ∀ x ∈ xs, (f x).isValid = true → P.Has (f x) [])
      (p : Position) (hp : p.isValid = true → P.Has p []) :
      (xs.foldl (fun p x => earliest p (f x)) p).isValid = true → P.Has (xs.foldl (fun p x => earliest p (f x)) p) [] := by
    induction xs generalizing p with
    | nil => exact hp
    | cons x xs ih =>
        obtain ⟨hx, hxs⟩ := List.forall_mem_cons.mp hxs
        exact ih hxs _ (hearliest hp hx)
  rw [assignNodes_eq, wordNodes_eq, redirectNodes_eq, allOf_append, allOf_append] at h
  obtain ⟨⟨hassigns, hargs⟩, hredirs⟩ := h
  replace hassigns := List.forall_mem_map.mp hassigns
  replace hargs := List.forall_mem_map.mp hargs
  replace hredirs := List.forall_mem_map.mp hredirs
  have hfirst := hfold Assignment.pos assigns (fun a ha => (Assignment.stands (hassigns a ha)).pos) {}
    fun hvalid => absurd hvalid not_isValid_default
  refine hfold Redirect.pos redirs (fun r hr => (Redirect.stands (hredirs r hr)).pos) _ ?_
  cases args with
  | nil => exact hfirst
  | cons w ws => exact hearliest hfirst (Word.stands (hargs w List.mem_cons_self)).pos

theorem allOf_one {t : NodeTree} (h : t.All (Node.Stands P)) : AllOf (Node.Stands P) [t] := allOf_cons.mpr ⟨h, allOf_nil⟩

namespace ArithExpr

variable {x y : ArithExpr} {op : ArithOp}

theorem all_word {w : Word} (h : w.nodes.All (Node.Stands P)) : (ArithExpr.word w).nodes.All (Node.Stands P) :=
  all_mk.mpr ⟨stands_of_pos rfl (Word.stands h).pos, allOf_one h⟩

theorem all_binary (hop : P.Has p op.text.toList) (hx : x.nodes.All (Node.Stands P)) (hy : y.nodes.All (Node.Stands P)) :
    (ArithExpr.binary p op x y).nodes.All (Node.Stands P) :=
  all_mk.mpr ⟨⟨List.forall_mem_singleton.mpr hop, (ArithExpr.stands hx).pos⟩, allOf_cons.mpr ⟨hx, allOf_one hy⟩⟩

theorem all_unary {post : Bool} (hop : P.Has p op.text.toList) (hx : x.nodes.All (Node.Stands P)) :
    (ArithExpr.unary p op post x).nodes.All (Node.Stands P) := by
  refine all_mk.mpr ⟨⟨List.forall_mem_singleton.mpr hop, ?_⟩, allOf_one hx⟩
  cases post with
  | true => exact (ArithExpr.stands hx).pos
  | false => exact fun _ => P.here hop

theorem all_paren (hp : P.Has p ['(']) (hx : x.nodes.All (Node.Stands P)) :
    (ArithExpr.paren p x).nodes.All (Node.Stands P) :=
  all_mk.mpr ⟨stands_of_mark rfl hp, allOf_one hx⟩

theorem all_ternary {no : Option ArithExpr} (hx : x.nodes.All (Node.Stands P)) (hy : y.nodes.All (Node.Stands P))
    (hno : AllOf (Node.Stands P) (optArithNodes no)) : (ArithExpr.ternary x y no).nodes.All (Node.Stands P) :=
  all_mk.mpr ⟨stands_of_pos rfl (ArithExpr.stands hx).pos, allOf_cons.mpr ⟨hx, allOf_cons.mpr ⟨hy, hno⟩⟩⟩

end ArithExpr

namespace TestExpr

variable {x y : TestExpr} {op : String}

theorem all_word {w : Word} (h : w.nodes.All (Node.Stands P)) : (TestExpr.word w).nodes.All (Node.Stands P) :=
  all_mk.mpr ⟨stands_of_pos rfl (Word.stands h).pos, allOf_one h⟩

theorem all_binary (hop : P.Has p op.toList) (hx : x.nodes.All (Node.Stands P)) (hy : y.nodes.All (Node.Stands P)) :
    (TestExpr.binary p op x y).nodes.All (Node.Stands P) :=
  all_mk.mpr ⟨⟨List.forall_mem_singleton.mpr hop, (TestExpr.stands hx).pos⟩, allOf_cons.mpr ⟨hx, allOf_one hy⟩⟩

theorem all_unary (hop : P.Has p op.toList) (hx : x.nodes.All (Node.Stands P)) :
    (TestExpr.unary p op x).nodes.All (Node.Stands P) :=
  all_mk.mpr ⟨stands_of_mark rfl hop, allOf_one hx⟩

theorem all_paren (hp : P.Has p ['(']) (hx : x.nodes.All (Node.Stands P)) :
    (TestExpr.paren p x).nodes.All (Node.Stands P) :=
  all_mk.mpr ⟨stands_of_mark rfl hp, allOf_one hx⟩

end TestExpr

namespace Command

variable {x y : Command}

theorem all_andOr {op : Connective} (hop : P.Has p op.text.toList) (hx : x.nodes.All (Node.Stands P))
    (hy : y.nodes.All (Node.Stands P)) : (Command.andOr p op x y).nodes.All (Node.Stands P) :=
  all_mk.mpr ⟨⟨List.forall_mem_singleton.mpr hop, (Command.stands hx).pos⟩, allOf_cons.mpr ⟨hx, allOf_one hy⟩⟩

theorem all_pipeline {negated : Bool} {cmds : List Command} {stderr : List Bool} (hp : negated = true → P.Has p ['!'])
    (h : AllOf (Node.Stands P) (commandNodes cmds)) :
    (Command.pipeline p negated cmds stderr).nodes.All (Node.Stands P) := by
  cases negated with
  | true =>
      have hpos : (Node.command (.pipeline p true cmds stderr)).pos = p := by cases cmds <;> rfl
      refine all_mk.mpr ⟨⟨List.forall_mem_singleton.mpr (hp rfl), fun _ => ?_⟩, h⟩
      rw [hpos]
      exact P.here (hp rfl)
  | false =>
      refine all_mk.mpr ⟨stands_of_pos rfl ?_, h⟩
      cases cmds with
      | nil => exact fun hvalid => absurd hvalid not_isValid_default
      | cons x xs => exact (Command.stands (allOf_cons.mp h).1).pos

theorem all_background (hx : x.nodes.All (Node.Stands P)) : (Command.background x).nodes.All (Node.Stands P) :=
  all_mk.mpr ⟨stands_of_pos rfl (Command.stands hx).pos, allOf_one hx⟩

theorem all_redirected {rs : List Redirect} (hx : x.nodes.All (Node.Stands P))
    (hrs : AllOf (Node.Stands P) (redirectNodes rs)) : (Command.redirected x rs).nodes.All (Node.Stands P) :=
  all_mk.mpr ⟨stands_of_pos rfl (Command.stands hx).pos, allOf_cons.mpr ⟨hx, hrs⟩⟩

theorem all_simple {assigns : List Assignment} {args : List Word} {redirs : List Redirect}
    (h : AllOf (Node.Stands P) (assignNodes assigns ++ wordNodes args ++ redirectNodes redirs)) :
    (Command.simple assigns args redirs).nodes.All (Node.Stands P) :=
  all_mk.mpr ⟨stands_of_pos rfl (pos_simple h), h⟩

end Command

end Nodes

end Script
namespace Places

open Script Script.Read

variable {P : Places}

-- A reader of words reports only at places of the text, and its result is like `Q`.
def Yields (P : Places) {α : Type} (m : Reading α) (Q : α → Prop) : Prop :=
  ∀ ds, P.Told ds → Q (m.run ds).1 ∧ P.Told (m.run ds).2

namespace Yields

variable {α β : Type} {m n : Reading α} {f : α → Reading β} {Q Q' : α → Prop} {R : β → Prop}

theorem pure {a : α} (h : Q a) : P.Yields (Pure.pure a) Q := fun _ hds => ⟨h, hds⟩

theorem absent : P.Yields (Pure.pure none) fun r => ∀ a ∈ r, Q a := pure fun a ha => absurd ha (Option.not_mem_none a)

theorem found {a : α} (h : Q a) : P.Yields (Pure.pure (some a)) fun r => ∀ a ∈ r, Q a := by
  refine pure ?_
  rintro _ ⟨⟩
  exact h

theorem bind (hm : P.Yields m Q) (hf : ∀ a, Q a → P.Yields (f a) R) : P.Yields (m >>= f) R := fun ds hds =>
  hf _ (hm ds hds).1 _ (hm ds hds).2

theorem mono (h : P.Yields m Q) (hq : ∀ a, Q a → Q' a) : P.Yields m Q' := fun ds hds =>
  ⟨hq _ (h ds hds).1, (h ds hds).2⟩

theorem ite {c : Prop} [Decidable c] (h : c → P.Yields m Q) (h' : ¬c → P.Yields n Q) :
    P.Yields (if c then m else n) Q := by
  split
  · exact h ‹_›
  · exact h' ‹_›

theorem report {s : Setting} {p : Position} (hp : P.Has p []) (message : String) :
    P.Yields (s.report p message) fun _ => True :=
  fun _ hds => ⟨trivial, hds.push hp ⟨rfl, rfl⟩⟩

end Yields

-- What a reader of the parts of a word gives.
def Reads (P : Places) (parts : PartsReader) : Prop :=
  ∀ mode p cs, P.Has p cs → P.Yields (parts mode p cs) fun ps => AllOf (Node.Stands P) (partNodes ps)

theorem Reads.word {parts : PartsReader} (h : P.Reads parts) (mode : Mode) {p : Position} {cs : List Char}
    (hp : P.Has p cs) : P.Yields (parts mode p cs) fun ps => (Word.nodes ⟨ps⟩).All (Node.Stands P) :=
  (h mode p cs hp).mono fun _ => all_word

-- Arithmetic.

section Arithmetic

variable {s : Setting} {parts : PartsReader}

-- A token of an arithmetic text stands where it says.
def Lies (P : Places) : ArithToken → Prop
  | .op op p => P.Has p op.text.toList
  | .lparen p => P.Has p ['(']
  | .rparen p => P.Has p [')']
  | .operand w p => P.Has p [] ∧ w.nodes.All (Node.Stands P)

theorem Lies.here {t : ArithToken} (h : P.Lies t) : P.Has t.pos [] := by
  cases t with
  | op | lparen | rparen => exact P.here h
  | operand => exact h.1

theorem yields_arithToken (hparts : P.Reads parts) {p : Position} {c : Char} {cs : List Char} (h : P.Has p (c :: cs)) :
    P.Yields (arithToken s parts p c cs) fun r => (∀ t ∈ r.1, P.Lies t) ∧ r.2 <:+ c :: cs := by
  have hnext : cs <:+ c :: cs := List.suffix_cons c cs
  have hsign (d : Char) (hd : (c == d) = true) : P.Has p [d] :=
    P.beginning h (beq_iff_eq.mp hd ▸ List.prefix_append [c] cs)
  have hnone : ∀ t ∈ (none : Option ArithToken), P.Lies t := fun _ h => nomatch h
  unfold arithToken
  refine .ite (fun _ => .pure ⟨hnone, hnext⟩) fun _ =>
    .ite (fun _ => .pure ⟨hnone, (List.drop_suffix 1 cs).trans hnext⟩) fun _ =>
    .ite (fun hopen => .pure ⟨?_, hnext⟩) fun _ => .ite (fun hclose => .pure ⟨?_, hnext⟩) fun _ => ?_
  · rintro _ ⟨⟩
    exact hsign '(' hopen
  · rintro _ ⟨⟩
    exact hsign ')' hclose
  split
  · rename_i op hop
    refine .pure ⟨?_, List.drop_suffix _ _⟩
    rintro _ ⟨⟩
    exact P.beginning h ⟨_, arithOpAt_eq hop⟩
  · extract_lets rest taken
    refine .ite (fun _ => (Yields.report (P.here h) _).bind fun _ _ => .pure ⟨hnone, hnext⟩) fun _ => ?_
    refine (hparts.word .arith (P.beginning h (List.take_prefix _ _))).bind fun ps hps =>
      .pure ⟨?_, operandRest_suffix _ _⟩
    rintro _ ⟨⟩
    exact ⟨P.here h, hps⟩

theorem yields_arithTokens (hparts : P.Reads parts) (n : Nat) {p : Position} {cs : List Char} (h : P.Has p cs) :
    P.Yields (arithTokens s parts n p cs) fun ts => ∀ t ∈ ts, P.Lies t := by
  induction n generalizing p cs with
  | zero => exact .pure (List.forall_mem_nil _)
  | succ n ih =>
      cases cs with
      | nil => exact .pure (List.forall_mem_nil _)
      | cons c cs =>
          refine (yields_arithToken hparts h).bind fun r hr => (ih (P.rest h hr.2)).bind fun ts hts => .pure ?_
          intro t ht
          rcases List.mem_append.mp ht with ht | ht
          · exact hr.1 t (Option.mem_toList.mp ht)
          · exact hts t ht

-- A reader of arithmetic takes tokens that stand where they say.
def Computes (P : Places) {α : Type} (m : ArithReading α) (Q : α → Prop) : Prop :=
  ∀ toks, (∀ t ∈ toks, P.Lies t) → P.Yields (m.run toks) fun r => Q r.1 ∧ ∀ t ∈ r.2, P.Lies t

namespace Computes

variable {α β : Type} {m n : ArithReading α} {f : α → ArithReading β} {Q : α → Prop} {R : β → Prop}

theorem pure {a : α} (h : Q a) : P.Computes (Pure.pure a) Q := fun _ htoks => .pure ⟨h, htoks⟩

theorem absent : P.Computes (Pure.pure none) fun r => ∀ a ∈ r, Q a := pure fun a ha => absurd ha (Option.not_mem_none a)

theorem found {a : α} (h : Q a) : P.Computes (Pure.pure (some a)) fun r => ∀ a ∈ r, Q a := by
  refine pure ?_
  rintro _ ⟨⟩
  exact h

theorem bind (hm : P.Computes m Q) (hf : ∀ a, Q a → P.Computes (f a) R) : P.Computes (m >>= f) R := fun toks htoks =>
  (hm toks htoks).bind fun r hr => hf r.1 hr.1 r.2 hr.2

theorem ite {c : Prop} [Decidable c] (h : c → P.Computes m Q) (h' : ¬c → P.Computes n Q) :
    P.Computes (if c then m else n) Q := by
  split
  · exact h ‹_›
  · exact h' ‹_›

theorem get {f : List ArithToken → ArithReading β} (hf : ∀ toks, (∀ t ∈ toks, P.Lies t) → P.Computes (f toks) R) :
    P.Computes (MonadState.get >>= f) R := fun toks htoks => hf toks htoks toks htoks

theorem set {toks : List ArithToken} {f : PUnit → ArithReading β} (htoks : ∀ t ∈ toks, P.Lies t)
    (hf : P.Computes (f ⟨⟩) R) : P.Computes (MonadStateOf.set toks >>= f) R := fun _ _ => hf toks htoks

theorem report {stop : Position} {t : Option ArithToken} {f : Unit → ArithReading β} {message : String}
    (hstop : P.Has stop []) (ht : ∀ u ∈ t, P.Lies u) (hf : P.Computes (f ()) R) :
    P.Computes (arithReport s stop t message >>= f) R := fun toks htoks => by
  have hp : P.Has ((t.map ArithToken.pos).getD stop) [] := by
    cases t with
    | none => exact hstop
    | some t => exact (ht t rfl).here
  exact (Yields.report hp message).bind fun _ _ => hf toks htoks

theorem listFor {turn : ArithReading (Option α)} (h : P.Computes turn fun r => ∀ a ∈ r, Q a) (n : Nat) :
    P.Computes (Read.listFor turn n) fun as => ∀ a ∈ as, Q a := by
  induction n with
  | zero => exact .pure nofun
  | succ n ih =>
      refine h.bind fun r hr => ?_
      cases r with
      | none => exact .pure nofun
      | some a => exact ih.bind fun as has => .pure (List.forall_mem_cons.mpr ⟨hr a rfl, has⟩)

end Computes

theorem computes_sign? : P.Computes sign? fun r => ∀ y ∈ r, P.Has y.2 y.1.text.toList := by
  refine .get fun toks htoks => ?_
  split
  · obtain ⟨hop, hrest⟩ := List.forall_mem_cons.mp htoks
    exact .ite (fun _ => .set hrest (.found hop)) fun _ => .absent
  · exact .absent

theorem computes_step? : P.Computes step? fun r => ∀ y ∈ r, P.Has y.2 y.1.text.toList := by
  refine .get fun toks htoks => ?_
  split
  · obtain ⟨hop, hrest⟩ := List.forall_mem_cons.mp htoks
    exact .set hrest (.found hop)
  · obtain ⟨hop, hrest⟩ := List.forall_mem_cons.mp htoks
    exact .set hrest (.found hop)
  · exact .absent

-- Expressions, given what the readers of the expressions inside give.

variable {stop : Position} {expr : Nat → ArithReading ArithExpr}

theorem all_noOperand : noOperand.nodes.All (Node.Stands P) := ArithExpr.all_word (all_word allOf_nil)

theorem computes_arithPrimary (hstop : P.Has stop [])
    (hexpr : ∀ least, P.Computes (expr least) fun x => x.nodes.All (Node.Stands P)) :
    P.Computes (arithPrimary s stop expr) fun x => x.nodes.All (Node.Stands P) := by
  refine .get fun toks htoks => ?_
  split
  · exact .report hstop (fun _ h => nomatch h) (.pure all_noOperand)
  · obtain ⟨hopen, hrest⟩ := List.forall_mem_cons.mp htoks
    refine .set hrest ((hexpr 0).bind fun x hx => .get fun toks htoks => ?_)
    split
    · exact .set (List.forall_mem_cons.mp htoks).2 (.pure (ArithExpr.all_paren hopen hx))
    · exact .report hstop (fun t ht => htoks t (List.mem_of_mem_head? ht)) (.pure (ArithExpr.all_paren hopen hx))
  · obtain ⟨hw, hrest⟩ := List.forall_mem_cons.mp htoks
    exact .set hrest (.pure (ArithExpr.all_word hw.2))
  · obtain ⟨ht, hrest⟩ := List.forall_mem_cons.mp htoks
    refine .report hstop ?_ (.set hrest (.pure all_noOperand))
    rintro _ ⟨⟩
    exact ht

theorem all_unaries {post : Bool} {signs : List (ArithOp × Position)} (hsigns : ∀ y ∈ signs, P.Has y.2 y.1.text.toList)
    {x : ArithExpr} (hx : x.nodes.All (Node.Stands P)) :
    (signs.foldr (fun y x => ArithExpr.unary y.2 y.1 post x) x).nodes.All (Node.Stands P) := by
  induction signs with
  | nil => exact hx
  | cons y signs ih =>
      obtain ⟨hy, hsigns⟩ := List.forall_mem_cons.mp hsigns
      exact ArithExpr.all_unary hy (ih hsigns)

theorem computes_arithOperand (hstop : P.Has stop [])
    (hexpr : ∀ least, P.Computes (expr least) fun x => x.nodes.All (Node.Stands P)) :
    P.Computes (arithOperand s stop expr) fun x => x.nodes.All (Node.Stands P) := by
  refine .get fun toks _ => (Computes.listFor computes_sign? _).bind fun signs hsigns =>
    (computes_arithPrimary hstop hexpr).bind fun x hx => .get fun toks' _ =>
      (Computes.listFor computes_step? _).bind fun steps hsteps => .pure (all_unaries hsigns ?_)
  rw [← List.foldr_reverse]
  exact all_unaries (fun y hy => hsteps y (List.mem_reverse.mp hy)) hx

-- An operand, on the left or on the right.
def Sided (P : Places) (r : ArithExpr ⊕ ArithExpr) : Prop := (r.elim id id).nodes.All (Node.Stands P)

theorem computes_arithTurn (hstop : P.Has stop [])
    (hexpr : ∀ least, P.Computes (expr least) fun x => x.nodes.All (Node.Stands P)) (least : Nat) {x : ArithExpr}
    (hx : x.nodes.All (Node.Stands P)) : P.Computes (arithTurn s stop expr least x) P.Sided := by
  refine .get fun toks htoks => ?_
  split
  · obtain ⟨hop, hrest⟩ := List.forall_mem_cons.mp htoks
    extract_lets prec
    refine .ite (fun _ => .pure hx) fun _ => .set hrest (.ite (fun _ => ?_) fun _ => ?_)
    · refine (hexpr _).bind fun yes hyes => .get fun toks htoks => ?_
      split
      · exact .set (List.forall_mem_cons.mp htoks).2 ((hexpr _).bind fun no hno =>
          .pure (ArithExpr.all_ternary hx hyes (allOf_one hno)))
      · exact .report hstop (fun t ht => htoks t (List.mem_of_mem_head? ht))
          (.pure (ArithExpr.all_ternary hx hyes allOf_nil))
    · exact (hexpr _).bind fun y hy => .pure (ArithExpr.all_binary hop hx hy)
  · exact .pure hx

theorem computes_arithTail (hstop : P.Has stop [])
    (hexpr : ∀ least, P.Computes (expr least) fun x => x.nodes.All (Node.Stands P)) (least n : Nat) {x : ArithExpr}
    (hx : x.nodes.All (Node.Stands P)) :
    P.Computes (arithTail s stop expr least n x) fun x => x.nodes.All (Node.Stands P) := by
  induction n generalizing x with
  | zero => exact .pure hx
  | succ n ih =>
      refine (computes_arithTurn hstop hexpr least hx).bind fun r hr => ?_
      cases r with
      | inl y => exact ih hr
      | inr y => exact .pure hr

theorem computes_arithExpr (hstop : P.Has stop []) (n least : Nat) :
    P.Computes (arithExpr s stop n least) fun x => x.nodes.All (Node.Stands P) := by
  induction n generalizing least with
  | zero => exact .pure all_noOperand
  | succ n ih =>
      exact (computes_arithOperand hstop ih).bind fun x hx => .get fun _ _ => computes_arithTail hstop ih least _ hx

theorem yields_arithText (hparts : P.Reads parts) {p : Position} {cs : List Char} (h : P.Has p cs) :
    P.Yields (arithText s parts p cs) fun r => AllOf (Node.Stands P) (optArithNodes r) := by
  refine (yields_arithTokens hparts _ h).bind fun toks htoks => .ite (fun _ => .pure allOf_nil) fun _ => ?_
  refine (computes_arithExpr (P.stop h) _ 0 toks htoks).bind fun r hr => ?_
  obtain ⟨x, rest⟩ := r
  have hx : AllOf (Node.Stands P) (optArithNodes (some x)) := allOf_one hr.1
  cases rest with
  | nil => exact .pure hx
  | cons t rest => exact (Yields.report (hr.2 t List.mem_cons_self).here _).bind fun _ _ => .pure hx

end Arithmetic

-- The parts of a word.

section Words

variable {s : Setting} {parts : PartsReader} {p : Position} {cs : List Char}

theorem between_left (taken rest : List Char) : between (taken ++ rest) rest = taken := by
  rw [between, List.length_append, Nat.add_sub_cancel, List.take_left]

-- Parts are found one after the other, and a literal text that is not closed yet stands right before what follows.
structure Gathers (P : Places) (g : Gathered) (p : Position) (cs : List Char) : Prop where
  out : AllOf (Node.Stands P) (partNodes g.out)
  lit : g.lit ≠ [] → P.Has g.litPos (g.lit.reverse ++ cs) ∧ p = g.litPos.advance g.lit.reverse

section Gathering

variable {g : Gathered}

theorem Gathers.addLit {taken rest : List Char} (h : P.Gathers g p (taken ++ rest)) (hp : P.Has p (taken ++ rest)) :
    P.Gathers (g.addLit p taken) (p.advance taken) rest := by
  refine ⟨h.out, fun _ => ?_⟩
  cases hlit : g.lit with
  | nil => simpa [Gathered.addLit, hlit] using hp
  | cons c cs =>
      obtain ⟨hhas, hat⟩ := h.lit (by simp [hlit])
      rw [hlit] at hhas hat
      have hadvance : p.advance taken = g.litPos.advance ((c :: cs).reverse ++ taken) := by
        rw [Position.advance_append, ← hat]
      simpa [Gathered.addLit, hlit] using ⟨by simpa using hhas, by simpa using hadvance⟩

theorem Gathers.flush (h : P.Gathers g p cs) : AllOf (Node.Stands P) (partNodes g.flush.out) := by
  unfold Gathered.flush
  split
  · exact h.out
  · rename_i hlit
    obtain ⟨hhas, -⟩ := h.lit (by simpa using hlit)
    refine allOf_cons.mpr ⟨all_mk.mpr ⟨stands_of_mark rfl ?_, allOf_nil⟩, h.out⟩
    rw [String.toList_ofList]
    exact P.front hhas

theorem lit_flush (g : Gathered) : g.flush.lit = [] := by
  unfold Gathered.flush
  split
  · simpa using ‹g.lit.isEmpty = true›
  · rfl

theorem Gathers.addPart (h : P.Gathers g p cs) {x : WordPart} (hx : x.nodes.All (Node.Stands P)) (q : Position)
    (rest : List Char) : P.Gathers (g.addPart x) q rest :=
  ⟨allOf_cons.mpr ⟨hx, h.flush⟩, fun hlit => absurd (lit_flush g) hlit⟩

theorem Gathers.finish (h : P.Gathers g p cs) : AllOf (Node.Stands P) (partNodes g.finish) := by
  rw [Gathered.finish, partNodes_eq, List.map_reverse, allOf_reverse, ← partNodes_eq]
  exact h.flush

end Gathering

-- The argument of an operator and what stands behind its separator.
def Argued (P : Places) (r : Word × Option Word) : Prop :=
  r.1.nodes.All (Node.Stands P) ∧ AllOf (Node.Stands P) (optWordNodes r.2)

theorem yields_paramArgs (hparts : P.Reads parts) (op : ParamOp) (h : P.Has p cs) :
    P.Yields (paramArgs s parts op p cs) P.Argued := by
  have hone (mode : Mode) : P.Yields (do let ps ← parts mode p cs; return ((⟨ps⟩ : Word), none)) P.Argued :=
    (hparts.word mode h).bind fun ps hps => .pure ⟨hps, allOf_nil⟩
  unfold paramArgs
  extract_lets two
  have htwo (mode : Mode) (sep : Char) : P.Yields (two mode sep) P.Argued := by
    dsimp only [two]
    split
    · rename_i a b hsplit
      have hcs : cs = (a ++ [sep]) ++ b := by rw [splitTop?_eq hsplit, List.append_assoc, List.singleton_append]
      subst hcs
      refine (hparts.word mode (P.front (P.front h))).bind fun x hx => ?_
      exact (hparts.word mode (P.skip h)).bind fun y hy => .pure ⟨hx, allOf_one hy⟩
    · exact hone mode
  split
  · exact htwo _ _
  · exact htwo _ _
  · exact htwo _ _
  · exact htwo _ _
  · exact htwo _ _
  · exact hone _

-- What stands between the braces of a parameter expansion.
def Braced (P : Places) (x : ParamExp) : Prop := AllOf (Node.Stands P) (paramNodes x) ∧ x.short = false

theorem braced_iff {x : ParamExp} : P.Braced x ↔ AllOf (Node.Stands P) (optWordNodes x.index) ∧
    AllOf (Node.Stands P) (optWordNodes x.arg) ∧ AllOf (Node.Stands P) (optWordNodes x.repl) ∧ x.short = false := by
  rw [Braced, paramNodes_eq, allOf_append, allOf_append, and_assoc, and_assoc]

theorem braced_name (name : String) (length indirect : Bool) : P.Braced (ParamExp.braced name length indirect) :=
  ⟨by simp [ParamExp.braced, ParamExp.ofName, paramNodes, optWordNodes], rfl⟩

theorem yields_paramExp (hparts : P.Reads parts) {sign : Position} (hsign : P.Has sign []) (h : P.Has p cs) :
    P.Yields (paramExp s parts sign p cs) P.Braced := by
  unfold paramExp
  generalize hmarks : paramMarks cs = marks
  obtain ⟨length, indirect, named⟩ := marks
  have hnamed : named <:+ cs := by
    have hsuffix := paramMarks_suffix cs
    rwa [hmarks] at hsuffix
  dsimp -zeta only
  extract_lets p₁ jp
  -- the operator, behind the name and the index
  have hjp {x : ParamExp} {q : Position} {rest : List Char} (hx : P.Braced x) (hp : P.Has q rest) :
      P.Yields (jp (x, q, rest)) P.Braced := by
    refine .ite (fun _ => .pure hx) fun _ =>
      .ite (fun _ => (Yields.report (P.here hp) _).bind fun _ _ => .pure hx) fun _ => ?_
    split
    · exact (Yields.report (P.here hp) _).bind fun _ _ => .pure hx
    · rename_i op _
      extract_lets k
      rw [← List.take_append_drop k rest] at hp
      refine (yields_paramArgs hparts op (P.skip hp)).bind fun args hargs => .pure (braced_iff.mpr ?_)
      exact ⟨(braced_iff.mp hx).1, allOf_one hargs.1, hargs.2, hx.2⟩
  have hp₁ : P.Has p₁ named := P.rest h hnamed
  split
  · exact (Yields.report hsign _).bind fun _ _ => .pure (braced_name _ _ _)
  · rename_i name rest hname
    obtain rfl := paramName?_eq hname
    extract_lets x p₂ isWordName
    have hx : P.Braced x := braced_name _ _ _
    have hp₂ : P.Has p₂ rest := P.skip hp₁
    have hbare : P.Yields (do let r ← pure (x, p₂, rest); jp r) P.Braced := by
      rw [pure_bind]
      exact hjp hx hp₂
    refine .ite (fun _ => .pure hx) fun _ => ?_
    split
    · split
      · rename_i inner _ index after hbracket
        obtain rfl := matchBracket?_eq hbracket
        have hafter : P.Has (p₂.advance ('[' :: index ++ [']'])) after := by
          refine P.skip ?_
          simpa using hp₂
        refine (hparts.word .arith (P.front (P.tail hp₂))).bind fun ps hps => ?_
        rw [pure_bind]
        exact hjp (braced_iff.mpr ⟨allOf_one hps, (braced_iff.mp hx).2⟩) hafter
      · exact hbare
    · exact hbare

-- What a dollar sign or a brace begins, and what follows it.
def Begins (P : Places) (cs : List Char) (r : Option (WordPart × List Char)) : Prop :=
  ∀ y ∈ r, y.1.nodes.All (Node.Stands P) ∧ y.2 <:+ cs

theorem begins_none : P.Begins cs none := fun y hy => absurd hy (Option.not_mem_none y)

theorem begins_some {x : WordPart} {rest : List Char} (hx : x.nodes.All (Node.Stands P)) (hrest : rest <:+ cs) :
    P.Begins cs (some (x, rest)) := by
  rintro _ ⟨⟩
  exact ⟨hx, hrest⟩

structure Nests (P : Places) (nested : Nested) : Prop where
  parts : P.Reads nested.parts
  block : ∀ p cs, P.Has p cs → P.Yields (nested.block p cs) fun b => b.nodes.All (Node.Stands P)

variable {nested : Nested}

theorem yields_dollar (hnested : P.Nests nested) (mode : Mode) (h : P.Has p ('$' :: cs)) :
    P.Yields (dollar s nested mode p cs) (P.Begins cs) := by
  have hsign {front : List Char} (hfront : front <+: cs) : P.Has p ('$' :: front) :=
    P.beginning h (List.cons_prefix_cons.mpr ⟨rfl, hfront⟩)
  have hafter : P.Has (p.step '$') cs := P.tail h
  unfold dollar
  extract_lets p₁
  split
  · rename_i rest
    extract_lets arith
    cases harith : arith with
    | some found =>
        obtain ⟨inner, after⟩ := found
        obtain ⟨rfl, hclose⟩ : rest = '(' :: inner ∧ Construct.closeArith s.dialect ('(' :: rest) = .ok after := by
          dsimp only [arith] at harith
          split at harith
          · obtain ⟨r, hr, heq⟩ := Option.map_eq_some_iff.mp harith
            cases heq
            exact ⟨rfl, Construct.ok_of_toOption hr⟩
          · cases harith
        have hinner := P.beginning (P.tail (P.tail hafter)) (List.take_prefix (inner.length - after.length - 2) inner)
        refine (yields_arithText hnested.parts hinner).bind fun x hx => .pure (begins_some ?_ ?_)
        · exact all_mk.mpr ⟨stands_of_mark rfl (hsign (List.prefix_append ['(', '('] inner)), hx⟩
        · exact (arith_rest_suffix hclose).trans (List.suffix_append ['(', '('] inner)
    | none =>
        have hinner := P.beginning (P.tail hafter) (inside_front (Construct.closeParens s.dialect ('(' :: rest)) rest 1)
        refine (hnested.block _ _ hinner).bind fun b hb => .pure (begins_some ?_ ?_)
        · exact all_mk.mpr ⟨stands_of_mark rfl (hsign (List.prefix_append ['('] rest)), by simpa using hb⟩
        · exact (inside_suffix (closes_parens s.dialect rest)).trans (List.suffix_cons _ _)
  · rename_i rest
    have hinner := P.beginning (P.tail hafter)
      (inside_front (Construct.closeExpansion s.dialect false ('\x7b' :: rest)) rest 1)
    refine (yields_paramExp hnested.parts (P.here h) hinner).bind fun x hx => .pure (begins_some ?_ ?_)
    · have hmarks : (Node.part (.param p x)).marks = [(p, ['$', '\x7b'])] := by simp [Node.marks, WordPart.marks, hx.2]
      exact all_mk.mpr ⟨stands_of_mark hmarks (hsign (List.prefix_append ['\x7b'] rest)), hx.1⟩
    · exact (inside_suffix (closes_param s.dialect rest)).trans (List.suffix_cons _ _)
  · rename_i c rest _ _
    have hnext : rest <:+ c :: rest := List.suffix_cons c rest
    refine .ite (fun hansi => ?_) fun _ => .ite (fun hdouble => ?_) fun _ => .ite (fun _ => ?_) fun _ =>
      .ite (fun _ => ?_) fun _ => .pure begins_none
    · obtain rfl : c = '\'' := by
        simp only [Bool.and_eq_true, beq_iff_eq] at hansi
        exact hansi.1.1
      refine .pure (begins_some (all_mk.mpr ⟨stands_of_mark rfl ?_, allOf_nil⟩)
        ((inside_suffix (closes_ansi 0 rest)).trans hnext))
      rw [String.toList_ofList]
      exact hsign (List.cons_prefix_cons.mpr ⟨rfl, inside_front _ _ _⟩)
    · obtain rfl : c = '"' := by
        simp only [Bool.and_eq_true, beq_iff_eq] at hdouble
        exact hdouble.1
      have hinner := P.beginning (P.tail hafter) (inside_front (Construct.closeDouble s.dialect rest) rest 1)
      refine (hnested.parts _ _ _ hinner).bind fun ps hps => .pure (begins_some (all_mk.mpr ⟨stands_of_mark rfl ?_, hps⟩)
        ((inside_suffix (closes_double s.dialect rest)).trans hnext))
      exact hsign (List.prefix_append ['"'] rest)
    · have hspan := span_append (c :: rest) Text.isNameChar
      refine .pure (begins_some (all_mk.mpr ⟨stands_of_mark rfl ?_, ?_⟩) ⟨_, hspan⟩)
      · simp only [ParamExp.ofName, if_true, String.toList_ofList]
        exact hsign ⟨_, hspan⟩
      · simp [ParamExp.ofName, paramNodes, optWordNodes]
    · refine .pure (begins_some (all_mk.mpr ⟨stands_of_mark rfl ?_, ?_⟩) hnext)
      · simp only [ParamExp.ofName, if_true, String.toList_ofList]
        exact hsign (List.prefix_append [c] rest)
      · simp [ParamExp.ofName, paramNodes, optWordNodes]
  · exact .pure begins_none

theorem intercalate_tail {sep e : List Char} {es : List (List Char)} {rest : List Char}
    (h : P.Has p (sep.intercalate (e :: es) ++ rest)) :
    P.Has p e ∧ (es ≠ [] → P.Has (p.advance (e ++ sep)) (sep.intercalate es ++ rest)) := by
  cases es with
  | nil =>
      rw [List.intercalate_singleton] at h
      exact ⟨P.front h, fun hne => absurd rfl hne⟩
  | cons e' es =>
      rw [List.intercalate_cons_cons, List.append_assoc, List.append_assoc] at h
      refine ⟨P.front h, fun _ => P.skip ?_⟩
      rwa [List.append_assoc]

theorem all_sequenceWords {es : List (List Char)} {rest : List Char}
    (h : P.Has p (['.', '.'].intercalate es ++ rest)) : AllOf (Node.Stands P) (wordNodes (sequenceWords p es)) := by
  induction es generalizing p with
  | nil => exact allOf_nil
  | cons e es ih =>
      obtain ⟨he, hes⟩ := intercalate_tail h
      have hword : (Word.nodes ⟨[.lit p (String.ofList e)]⟩).All (Node.Stands P) := by
        refine all_word (allOf_cons.mpr ⟨all_mk.mpr ⟨stands_of_mark rfl ?_, allOf_nil⟩, allOf_nil⟩)
        rwa [String.toList_ofList]
      refine allOf_cons.mpr ⟨hword, ?_⟩
      cases es with
      | nil => exact allOf_nil
      | cons e' es => exact ih (hes (List.cons_ne_nil _ _))

theorem yields_braceWords (hparts : P.Reads parts) {es : List (List Char)} {rest : List Char}
    (h : P.Has p ([','].intercalate es ++ rest)) :
    P.Yields (braceWords parts p es) fun ws => AllOf (Node.Stands P) (wordNodes ws) := by
  induction es generalizing p with
  | nil => exact .pure allOf_nil
  | cons e es ih =>
      obtain ⟨he, hes⟩ := intercalate_tail h
      refine (hparts.word _ he).bind fun ps hps => ?_
      cases es with
      | nil => exact (Yields.pure (Q := fun ws => ws = []) rfl).bind fun ws hws => .pure (hws ▸ allOf_one hps)
      | cons e' es => exact (ih (hes (List.cons_ne_nil _ _))).bind fun ws hws => .pure (allOf_cons.mpr ⟨hps, hws⟩)

theorem yields_brace (hnested : P.Nests nested) (h : P.Has p ('\x7b' :: cs)) :
    P.Yields (brace s nested p cs) (P.Begins cs) := by
  have hafter : P.Has (p.step '\x7b') cs := P.tail h
  have hsign : P.Has p ['\x7b'] := P.beginning h (List.prefix_append ['\x7b'] cs)
  have hsuffix {pieces : List (List Char)} {after : List Char} (hlist : braceList? s.dialect cs = some (pieces, after)) :
      after <:+ cs := Construct.suffix_of_eq ['\x7d'] (braceList?_eq hlist)
  unfold brace
  extract_lets first
  split
  · rename_i text after hlist
    split
    · rename_i es hsequence
      have htext : cs = ['.', '.'].intercalate es ++ '\x7d' :: after := by
        rw [← sequence?_eq hsequence]
        simpa using braceList?_eq hlist
      have hpieces : P.Has first (['.', '.'].intercalate es ++ '\x7d' :: after) := htext ▸ hafter
      exact .pure (begins_some (all_mk.mpr ⟨stands_of_mark rfl hsign, all_sequenceWords hpieces⟩) (hsuffix hlist))
    · exact .pure begins_none
  · rename_i pieces after _ hlist
    have hpieces : P.Has first ([','].intercalate pieces ++ '\x7d' :: after) := braceList?_eq hlist ▸ hafter
    exact (yields_braceWords hnested.parts hpieces).bind fun ws hws =>
      .pure (begins_some (all_mk.mpr ⟨stands_of_mark rfl hsign, hws⟩) (hsuffix hlist))
  · exact .pure begins_none

theorem yields_partAt (hnested : P.Nests nested) (mode : Mode) (first : Bool) {g : Gathered} {c : Char}
    (hg : P.Gathers g p (c :: cs)) (h : P.Has p (c :: cs)) :
    P.Yields (partAt s nested mode first g p c cs) fun r =>
      r.2 <:+ c :: cs ∧ P.Gathers r.1 (p.advance (between (c :: cs) r.2)) r.2 := by
  have hlit {taken rest : List Char} (hcs : c :: cs = taken ++ rest) : rest <:+ c :: cs ∧
      P.Gathers (g.addLit p taken) (p.advance (between (c :: cs) rest)) rest := by
    rw [hcs] at hg h ⊢
    rw [between_left]
    exact ⟨List.suffix_append _ _, hg.addLit h⟩
  have hpart {x : WordPart} {rest : List Char} (hx : x.nodes.All (Node.Stands P)) (hrest : rest <:+ cs) :
      rest <:+ c :: cs ∧ P.Gathers (g.addPart x) (p.advance (between (c :: cs) rest)) rest :=
    ⟨hrest.trans (List.suffix_cons c cs), hg.addPart hx _ _⟩
  have hplain := hlit (show c :: cs = [c] ++ cs from rfl)
  have hafter : P.Has (p.step c) cs := P.tail h
  unfold partAt
  extract_lets plain
  refine .ite (fun _ => .pure (hlit ?_)) fun _ => .ite (fun hsingle => ?_) fun _ => .ite (fun hdouble => ?_) fun _ =>
    .ite (fun hback => ?_) fun _ => .ite (fun hdollar => ?_) fun _ => .ite (fun hbrace => ?_) fun _ =>
    .ite (fun hprocess => ?_) fun _ => .pure hplain
  · cases cs <;> rfl
  · obtain rfl : c = '\'' := by
      simp only [Bool.and_eq_true, beq_iff_eq] at hsingle
      exact hsingle.1
    refine .pure (hpart (all_mk.mpr ⟨stands_of_mark rfl ?_, allOf_nil⟩) (inside_suffix (closes_single 0 cs)))
    rw [String.toList_ofList]
    exact P.beginning h (List.cons_prefix_cons.mpr ⟨rfl, inside_front _ _ _⟩)
  · obtain rfl : c = '"' := by
      simp only [Bool.and_eq_true, beq_iff_eq] at hdouble
      exact hdouble.1
    refine (hnested.parts _ _ _ (P.beginning hafter (inside_front (Construct.closeDouble s.dialect cs) cs 1))).bind
      fun ps hps => .pure (hpart (all_mk.mpr ⟨stands_of_mark rfl ?_, hps⟩) (inside_suffix (closes_double s.dialect cs)))
    exact P.beginning h (List.prefix_append ['"'] cs)
  · obtain rfl : c = Text.backquote := beq_iff_eq.mp hback
    refine (hnested.block _ _ (P.backquoted (mode == .double) h)).bind
      fun b hb => .pure (hpart (all_mk.mpr ⟨stands_of_mark rfl ?_, by simpa using hb⟩)
        (inside_suffix (closes_backquote 0 cs)))
    exact P.beginning h (List.prefix_append [Text.backquote] cs)
  · obtain rfl : c = '$' := beq_iff_eq.mp hdollar
    refine (yields_dollar hnested mode h).bind fun r hr => ?_
    cases r with
    | none => exact .pure hplain
    | some y => exact .pure (hpart (hr y rfl).1 (hr y rfl).2)
  · obtain rfl : c = '\x7b' := by
      simp only [Bool.and_eq_true, beq_iff_eq] at hbrace
      exact hbrace.1.1
    refine (yields_brace hnested h).bind fun r hr => ?_
    cases r with
    | none => exact .pure hplain
    | some y => exact .pure (hpart (hr y rfl).1 (hr y rfl).2)
  · simp only [Bool.and_eq_true, Bool.or_eq_true, beq_iff_eq] at hprocess
    obtain ⟨⟨⟨hc, -⟩, -⟩, hhead⟩ := hprocess
    obtain ⟨inner, rfl⟩ := List.head?_eq_some_iff.mp hhead
    have hinner := P.beginning (P.tail hafter) (inside_front (Construct.closeParens s.dialect ('(' :: inner)) inner 1)
    refine (hnested.block _ _ hinner).bind
      fun b hb => .pure (hpart (all_mk.mpr ⟨stands_of_mark rfl ?_, by simpa using hb⟩)
        ((inside_suffix (closes_parens s.dialect inner)).trans (List.suffix_cons _ _)))
    rcases hc with rfl | rfl
    · exact P.beginning h (List.prefix_append ['<', '('] inner)
    · exact P.beginning h (List.prefix_append ['>', '('] inner)

theorem yields_partsFrom (hnested : P.Nests nested) (mode : Mode) (n : Nat) (first : Bool) {g : Gathered}
    (hg : P.Gathers g p cs) (h : P.Has p cs) :
    P.Yields (partsFrom s nested mode n first g p cs) fun ps => AllOf (Node.Stands P) (partNodes ps) := by
  induction n generalizing first g p cs with
  | zero => exact .pure hg.finish
  | succ n ih =>
      cases cs with
      | nil => exact .pure hg.finish
      | cons c cs =>
          exact (yields_partAt hnested mode first hg h).bind fun r hr => ih false hr.2 (P.rest h hr.1)

theorem reads_parts (hnested : P.Nests nested) : P.Reads (Read.parts s nested) := fun mode _ _ h =>
  yields_partsFrom (g := {}) hnested mode _ true ⟨allOf_nil, fun hlit => absurd rfl hlit⟩ h

end Words

end Places
end ShellScript

import ShellScript.Script.Print
import Mathlib.Data.List.Forall2

-- Trees that are written in the same way. What a tree is written like follows from what its parts are written like, but
-- for three things that the text around a part looks at: here-documents, signs and `&`.
namespace ShellScript
namespace Script

-- Trees that are written in the same way and that announce here-documents alike.

def announces : NodeTree → Bool := NodeTree.any Node.isHereDoc

def announcesAny : List NodeTree → Bool := anyOf Node.isHereDoc

@[simp] theorem announces_mk (n : Node) (ts : List NodeTree) :
    announces (.mk n ts) = (n.isHereDoc || announcesAny ts) := rfl

@[simp] theorem announcesAny_nil : announcesAny [] = false := rfl

@[simp] theorem announcesAny_cons (t : NodeTree) (ts : List NodeTree) :
    announcesAny (t :: ts) = (announces t || announcesAny ts) := rfl

@[simp] theorem announcesAny_append (ts us : List NodeTree) :
    announcesAny (ts ++ us) = (announcesAny ts || announcesAny us) := by
  induction ts with
  | nil => rfl
  | cons t ts ih => simp [ih, Bool.or_assoc]

structure Alike (p q : Printing Unit) (s t : NodeTree) : Prop where
  print : p = q
  docs : announces s = announces t

def Word.Alike (x y : Word) : Prop := Script.Alike x.print y.print x.nodes y.nodes

def WordPart.Alike (x y : WordPart) : Prop :=
  ∀ inDouble, Script.Alike (x.print inDouble) (y.print inDouble) x.nodes y.nodes

def TestExpr.Alike (x y : TestExpr) : Prop := Script.Alike x.print y.print x.nodes y.nodes

def Assignment.Alike (x y : Assignment) : Prop := Script.Alike x.print y.print x.nodes y.nodes

def Redirect.Alike (x y : Redirect) : Prop := Script.Alike x.print y.print x.nodes y.nodes

-- What a sign before an operand must look out for.
def ArithExpr.sign? : ArithExpr → Option ArithOp
  | .unary _ op false _ => some op
  | _ => none

theorem ArithExpr.print_unary (p : Position) (op : ArithOp) (x : ArithExpr) :
    (ArithExpr.unary p op false x).print = (do
      Printer.str op.text
      match x.sign? with
      | some inner => if op.isSign && inner.isSign then Printer.str " "
      | none => pure ()
      x.print) := by
  rw [ArithExpr.print]
  cases x with
  | unary _ inner post _ => cases post <;> rfl
  | _ => rfl

structure ArithExpr.Alike (x y : ArithExpr) : Prop extends Script.Alike x.print y.print x.nodes y.nodes where
  sign : x.sign? = y.sign?

structure Command.Alike (x y : Command) : Prop extends Script.Alike x.print y.print x.nodes y.nodes where
  ampersand : x.isBackground = y.isBackground

-- Blocks are written in several ways.
structure Block.Alike (x y : Block) : Prop where
  inline : x.printInlineList = y.printInlineList
  body : x.printBody = y.printBody
  sub : x.printSub = y.printSub
  docs : announces x.nodes = announces y.nodes

-- Lists of such trees.

section Lists

open List (Forall₂)

theorem alike_parts {ps qs : List WordPart} (h : Forall₂ WordPart.Alike ps qs) :
    (∀ inDouble, printParts inDouble ps = printParts inDouble qs) ∧
      announcesAny (partNodes ps) = announcesAny (partNodes qs) := by
  induction h with
  | nil => exact ⟨fun _ => rfl, rfl⟩
  | cons hp _ ih =>
      refine ⟨fun inDouble => ?_, ?_⟩
      · rw [printParts, printParts, (hp inDouble).print, ih.1]
      · simp [partNodes, (hp true).docs, ih.2]

section Words

variable {ws vs : List Word}

theorem printSpaced_alike (h : Forall₂ Word.Alike ws vs) : printSpaced ws = printSpaced vs := by
  induction h with
  | nil => rfl
  | cons hw _ ih => rw [printSpaced, printSpaced, hw.print, ih]

theorem printJoined_alike (h : Forall₂ Word.Alike ws vs) (sep : String) (first : Bool) :
    printJoined sep first ws = printJoined sep first vs := by
  induction h generalizing first with
  | nil => rfl
  | cons hw _ ih => rw [printJoined, printJoined, hw.print, ih]

theorem wordNodes_alike (h : Forall₂ Word.Alike ws vs) :
    announcesAny (wordNodes ws) = announcesAny (wordNodes vs) := by
  induction h with
  | nil => rfl
  | cons hw _ ih => simp [wordNodes, hw.docs, ih]

end Words

theorem alike_assigns {as bs : List Assignment} (h : Forall₂ Assignment.Alike as bs) :
    (∀ first, printAssigns first as = printAssigns first bs) ∧
      announcesAny (assignNodes as) = announcesAny (assignNodes bs) := by
  induction h with
  | nil => exact ⟨fun _ => rfl, rfl⟩
  | cons ha _ ih =>
      refine ⟨fun first => ?_, ?_⟩
      · rw [printAssigns, printAssigns, ha.print, ih.1]
      · simp [assignNodes, ha.docs, ih.2]

theorem alike_redirects {rs qs : List Redirect} (h : Forall₂ Redirect.Alike rs qs) :
    (∀ first, printRedirects first rs = printRedirects first qs) ∧
      announcesAny (redirectNodes rs) = announcesAny (redirectNodes qs) := by
  induction h with
  | nil => exact ⟨fun _ => rfl, rfl⟩
  | cons hr _ ih =>
      refine ⟨fun first => ?_, ?_⟩
      · rw [printRedirects, printRedirects, hr.print, ih.1]
      · simp [redirectNodes, hr.docs, ih.2]

theorem isEmpty_alike {α : Type} {R : α → α → Prop} {xs ys : List α} (h : Forall₂ R xs ys) :
    xs.isEmpty = ys.isEmpty := by
  cases h <;> rfl

section Commands

variable {cs ds : List Command}

theorem printInline_alike (h : Forall₂ Command.Alike cs ds) : printInline cs = printInline ds := by
  induction h with
  | nil => rfl
  | cons hc hcs ih =>
      cases hcs with
      | nil => exact hc.print
      | cons hc' hcs => simp only [printInline, hc.print, ih, separator, hc.ampersand]

theorem printLines_alike (h : Forall₂ Command.Alike cs ds) : printLines cs = printLines ds := by
  induction h with
  | nil => rfl
  | cons hc _ ih => rw [printLines, printLines, hc.print, ih]

theorem printStages_alike (h : Forall₂ Command.Alike cs ds) (es : List Bool) : printStages cs es = printStages ds es := by
  induction h generalizing es with
  | nil => rfl
  | cons hc hcs ih =>
      cases hcs with
      | nil => exact hc.print
      | cons hc' hcs => simp only [printStages, hc.print, ih]

theorem printTop_alike (h : Forall₂ Command.Alike cs ds) : printTop cs = printTop ds := by
  induction h with
  | nil => rfl
  | cons hc _ ih => rw [printTop, printTop, hc.print, ih]

theorem commandNodes_alike (h : Forall₂ Command.Alike cs ds) :
    announcesAny (commandNodes cs) = announcesAny (commandNodes ds) := by
  induction h with
  | nil => rfl
  | cons hc _ ih => simp [commandNodes, hc.docs, ih]

theorem separator_alike (h : Forall₂ Command.Alike cs ds) :
    cs.getLast?.map separator = ds.getLast?.map separator := by
  induction h with
  | nil => rfl
  | cons hc hcs ih =>
      cases hcs with
      | nil => simp [separator, hc.ampersand]
      | cons hc' hcs => simpa [List.getLast?_cons_cons] using ih

theorem alike_block (h : Forall₂ Command.Alike cs ds) (p q : Position) : Block.Alike ⟨p, cs⟩ ⟨q, ds⟩ := by
  have hdocs : announces (Block.mk p cs).nodes = announces (Block.mk q ds).nodes := by
    simp [Block.nodes, commandNodes_alike h, Node.isHereDoc]
  refine ⟨?_, ?_, ?_, hdocs⟩
  · rw [Block.printInlineList, Block.printInlineList, printInline_alike h]
  · rw [Block.printBody, Block.printBody, printInline_alike h, printLines_alike h]
    have hlast := separator_alike h
    cases hc : cs.getLast? with
    | none =>
        cases hd : ds.getLast? with
        | none => rfl
        | some d => simp [hc, hd] at hlast
    | some c =>
        cases hd : ds.getLast? with
        | none => simp [hc, hd] at hlast
        | some d =>
            have hsep : separator c = separator d := by simpa [hc, hd] using hlast
            simp only [hsep]
  · have hhas : (Block.mk p cs).hasHereDoc = (Block.mk q ds).hasHereDoc := hdocs
    rw [Block.printSub, Block.printSub, hhas, printInline_alike h, printLines_alike h, isEmpty_alike h]

end Commands

theorem alike_optWord {x y : Option Word} (h : Option.Rel Word.Alike x y) :
    printOptWord x = printOptWord y ∧ printIndex x = printIndex y ∧ (∀ sep, printRepl sep x = printRepl sep y) ∧
      announcesAny (optWordNodes x) = announcesAny (optWordNodes y) := by
  cases h with
  | none => exact ⟨rfl, rfl, fun _ => rfl, rfl⟩
  | some h => simp [printOptWord, printIndex, printRepl, optWordNodes, h.print, h.docs]

theorem alike_optArith {x y : Option ArithExpr} (h : Option.Rel ArithExpr.Alike x y) :
    printOptArith x = printOptArith y ∧ announcesAny (optArithNodes x) = announcesAny (optArithNodes y) := by
  cases h with
  | none => exact ⟨rfl, rfl⟩
  | some h => simp [printOptArith, optArithNodes, h.print, h.docs]

theorem alike_optElse {x y : Option Block} (h : Option.Rel Block.Alike x y) :
    printOptElse x = printOptElse y ∧ announcesAny (optBlockNodes x) = announcesAny (optBlockNodes y) := by
  cases h with
  | none => exact ⟨rfl, rfl⟩
  | some h => simp [printOptElse, optBlockNodes, h.body, h.docs]

theorem alike_elifs {es fs : List Elif} (h : Forall₂ (fun e f => e.cond.Alike f.cond ∧ e.yes.Alike f.yes) es fs) :
    printElifs es = printElifs fs ∧ announcesAny (elifNodes es) = announcesAny (elifNodes fs) := by
  induction h with
  | nil => exact ⟨rfl, rfl⟩
  | @cons e f _ _ he _ ih =>
      obtain ⟨p, cond, yes⟩ := e
      obtain ⟨q, cond', yes'⟩ := f
      obtain ⟨hcond, hyes⟩ := he
      dsimp only at hcond hyes
      refine ⟨?_, ?_⟩
      · rw [printElifs, printElifs, hcond.inline, hyes.body, ih.1]
      · simp [elifNodes, Node.isHereDoc, hcond.docs, hyes.docs, ih.2]

-- The arms of a `case`.
structure CaseItem.Alike (x y : CaseItem) : Prop where
  patterns : Forall₂ Word.Alike x.patterns y.patterns
  body : Forall₂ Command.Alike x.body.items y.body.items
  term : x.term.text = y.term.text

theorem alike_cases {is js : List CaseItem} (h : Forall₂ CaseItem.Alike is js) :
    printCases is = printCases js ∧ printCasesInline is = printCasesInline js ∧
      announcesAny (caseNodes is) = announcesAny (caseNodes js) := by
  induction h with
  | nil => exact ⟨rfl, rfl, rfl⟩
  | @cons i j _ _ hi _ ih =>
      obtain ⟨patterns, ⟨p, items⟩, term⟩ := i
      obtain ⟨patterns', ⟨q, items'⟩, term'⟩ := j
      obtain ⟨hpatterns, hbody, hterm⟩ := hi
      dsimp only at hpatterns hbody hterm
      have hjoined := printJoined_alike hpatterns " | " true
      refine ⟨?_, ?_, ?_⟩
      · rw [printCases, printCases, hjoined, printLines_alike hbody, hterm, ih.1]
      · rw [printCasesInline, printCasesInline, hjoined, printInline_alike hbody, isEmpty_alike hbody, hterm, ih.2.1]
      · simp [caseNodes, Node.isHereDoc, wordNodes_alike hpatterns, (alike_block hbody p q).docs, ih.2.2]

end Lists

-- One lemma for each way to build a tree.

theorem Word.Alike.mk {ps qs : List WordPart} (h : List.Forall₂ WordPart.Alike ps qs) : Word.Alike ⟨ps⟩ ⟨qs⟩ := by
  obtain ⟨hprint, hdocs⟩ := alike_parts h
  refine ⟨?_, ?_⟩
  · rw [Word.print, Word.print, hprint]
  · simp [Word.nodes, Node.isHereDoc, hdocs]

section Operands

open List (Forall₂)

variable {p q : Position} {b b' cond cond' : Block} {ws vs : List Word} {rs qs : List Redirect}

attribute [local simp] Node.isHereDoc WordPart.nodes ArithExpr.nodes TestExpr.nodes Assignment.nodes Redirect.nodes
  Command.nodes WordPart.print ArithExpr.print TestExpr.print Command.print

namespace WordPart.Alike

theorem lit (s : String) : WordPart.Alike (.lit p s) (.lit q s) := fun _ => ⟨rfl, rfl⟩

theorem single (dollar : Bool) (s : String) : WordPart.Alike (.single p dollar s) (.single q dollar s) :=
  fun _ => ⟨rfl, rfl⟩

theorem double (dollar : Bool) {ps qs : List WordPart} (h : Forall₂ WordPart.Alike ps qs) :
    WordPart.Alike (.double p dollar ps) (.double q dollar qs) := by
  obtain ⟨hprint, hdocs⟩ := alike_parts h
  refine fun _ => ⟨?_, ?_⟩
  · simp [hprint]
  · simp [hdocs]

theorem param {x y : ParamExp} (hprint : x.print = y.print)
    (hdocs : announcesAny (paramNodes x) = announcesAny (paramNodes y)) :
    WordPart.Alike (.param p x) (.param q y) := by
  refine fun _ => ⟨?_, ?_⟩
  · simp [hprint]
  · simp [hdocs]

theorem command (h : b.Alike b') (backquote : Bool) :
    WordPart.Alike (.command p b backquote) (.command q b' backquote) := by
  refine fun _ => ⟨?_, ?_⟩
  · simp [h.sub]
  · simp [h.docs]

theorem arith {x y : Option ArithExpr} (h : Option.Rel ArithExpr.Alike x y) :
    WordPart.Alike (.arith p x) (.arith q y) := by
  obtain ⟨hprint, hdocs⟩ := alike_optArith h
  refine fun _ => ⟨?_, ?_⟩
  · simp [hprint]
  · simp [hdocs]

theorem brace (sequence : Bool) (h : Forall₂ Word.Alike ws vs) :
    WordPart.Alike (.brace p sequence ws) (.brace q sequence vs) := by
  refine fun _ => ⟨?_, ?_⟩
  · simp [printJoined_alike h]
  · simp [wordNodes_alike h]

theorem process (write : Bool) (h : b.Alike b') : WordPart.Alike (.process p write b) (.process q write b') := by
  refine fun _ => ⟨?_, ?_⟩
  · simp [h.sub]
  · simp [h.docs]

end WordPart.Alike

namespace ArithExpr.Alike

variable {x x' y y' : ArithExpr}

theorem word {w v : Word} (h : w.Alike v) : ArithExpr.Alike (.word w) (.word v) := by
  refine ⟨⟨?_, ?_⟩, rfl⟩
  · simp [h.print]
  · simp [h.docs]

theorem binary (op : ArithOp) (hx : x.Alike x') (hy : y.Alike y') :
    ArithExpr.Alike (.binary p op x y) (.binary q op x' y') := by
  refine ⟨⟨?_, ?_⟩, rfl⟩
  · simp [hx.print, hy.print]
  · simp [hx.docs, hy.docs]

theorem unary (op : ArithOp) (post : Bool) (h : x.Alike y) :
    ArithExpr.Alike (.unary p op post x) (.unary q op post y) := by
  have hdocs : announces (ArithExpr.nodes (.unary p op post x)) = announces (ArithExpr.nodes (.unary q op post y)) := by
    simp [h.docs]
  cases post with
  | true => exact ⟨⟨by simp only [ArithExpr.print, h.print, if_true], hdocs⟩, rfl⟩
  | false => exact ⟨⟨by rw [ArithExpr.print_unary, ArithExpr.print_unary, h.print, h.sign], hdocs⟩, rfl⟩

theorem paren (h : x.Alike y) : ArithExpr.Alike (.paren p x) (.paren q y) := by
  refine ⟨⟨?_, ?_⟩, rfl⟩
  · simp [h.print]
  · simp [h.docs]

theorem ternary {c c' : ArithExpr} {no no' : Option ArithExpr} (hc : c.Alike c') (h : x.Alike y)
    (hno : Option.Rel ArithExpr.Alike no no') : ArithExpr.Alike (.ternary c x no) (.ternary c' y no') := by
  obtain ⟨hprint, hdocs⟩ := alike_optArith hno
  refine ⟨⟨?_, ?_⟩, rfl⟩
  · simp [hc.print, h.print, hprint]
  · simp [hc.docs, h.docs, hdocs]

end ArithExpr.Alike

namespace TestExpr.Alike

variable {x x' y y' : TestExpr}

theorem word {w v : Word} (h : w.Alike v) : TestExpr.Alike (.word w) (.word v) := by
  refine ⟨?_, ?_⟩
  · simp [h.print]
  · simp [h.docs]

theorem binary (op : String) (hx : x.Alike x') (hy : y.Alike y') :
    TestExpr.Alike (.binary p op x y) (.binary q op x' y') := by
  refine ⟨?_, ?_⟩
  · simp [hx.print, hy.print]
  · simp [hx.docs, hy.docs]

theorem unary (op : String) (h : x.Alike y) : TestExpr.Alike (.unary p op x) (.unary q op y) := by
  refine ⟨?_, ?_⟩
  · simp [h.print]
  · simp [h.docs]

theorem paren (h : x.Alike y) : TestExpr.Alike (.paren p x) (.paren q y) := by
  refine ⟨?_, ?_⟩
  · simp [h.print]
  · simp [h.docs]

end TestExpr.Alike

theorem Assignment.Alike.mk (name : String) (append naked : Bool) {index index' value value' : Option Word}
    {array array' : Option ArrayExpr} (hindex : Option.Rel Word.Alike index index')
    (hvalue : Option.Rel Word.Alike value value')
    (harray : Option.Rel (fun a b => Forall₂ Word.Alike a.elems b.elems) array array') :
    Assignment.Alike ⟨p, name, index, append, naked, value, array⟩ ⟨q, name, index', append, naked, value', array'⟩ := by
  have hindex := alike_optWord hindex
  have hvalue := alike_optWord hvalue
  cases harray with
  | none =>
      refine ⟨?_, ?_⟩
      · simp only [Assignment.print, hindex.2.1, hvalue.1]
      · simp [hindex.2.2.2, hvalue.2.2.2]
  | @some a b helems =>
      obtain ⟨_, elems⟩ := a
      obtain ⟨_, elems'⟩ := b
      refine ⟨?_, ?_⟩
      · simp only [Assignment.print, hindex.2.1, printJoined_alike helems]
      · simp [optArrayNodes, hindex.2.2.2, hvalue.2.2.2, wordNodes_alike helems]

-- Of a here-document only its lines and its delimiter are written.
theorem Redirect.Alike.mk {op op' : Token.Kind} (hop : op.text = op'.text) (n : String) {w v : Word} (hw : w.Alike v)
    {doc doc' : Option HereDoc} (hdoc : Option.Rel (fun d e => d.raw = e.raw ∧ d.delim = e.delim) doc doc') :
    Redirect.Alike ⟨p, op, n, w, doc⟩ ⟨q, op', n, v, doc'⟩ := by
  cases hdoc with
  | none =>
      refine ⟨?_, ?_⟩
      · simp only [Redirect.print, hop, hw.print]
      · simp [optDocNodes, hw.docs]
  | @some d e hdoc =>
      obtain ⟨_, delim, _, _, raw, _⟩ := d
      obtain ⟨_, delim', _, _, raw', _⟩ := e
      obtain ⟨hraw, hdelim⟩ := hdoc
      dsimp only at hraw hdelim
      refine ⟨?_, ?_⟩
      · simp only [Redirect.print, hop, hw.print, hraw, hdelim]
      · simp [optDocNodes]

namespace Command.Alike

variable {x x' y y' : Command} {as bs : List Assignment}

theorem andOr {op op' : Connective} (hop : op.text = op'.text) (hx : x.Alike x') (hy : y.Alike y') :
    Command.Alike (.andOr p op x y) (.andOr q op' x' y') := by
  refine ⟨⟨?_, ?_⟩, rfl⟩
  · simp [hop, hx.print, hy.print]
  · simp [hx.docs, hy.docs]

theorem pipeline (negated : Bool) {cs ds : List Command} (h : Forall₂ Command.Alike cs ds) (es : List Bool) :
    Command.Alike (.pipeline p negated cs es) (.pipeline q negated ds es) := by
  refine ⟨⟨?_, ?_⟩, rfl⟩
  · simp [printStages_alike h]
  · simp [commandNodes_alike h]

theorem background (h : x.Alike y) : Command.Alike (.background x) (.background y) := by
  refine ⟨⟨?_, ?_⟩, rfl⟩
  · simp [h.print]
  · simp [h.docs]

theorem simple (has : Forall₂ Assignment.Alike as bs) (hws : Forall₂ Word.Alike ws vs)
    (hrs : Forall₂ Redirect.Alike rs qs) : Command.Alike (.simple as ws rs) (.simple bs vs qs) := by
  obtain ⟨hassigns, hdocs⟩ := alike_assigns has
  obtain ⟨hredirects, hdocs'⟩ := alike_redirects hrs
  refine ⟨⟨?_, ?_⟩, rfl⟩
  · simp [hassigns, printJoined_alike hws, hredirects, isEmpty_alike has, isEmpty_alike hws]
  · simp [hdocs, wordNodes_alike hws, hdocs']

theorem declare (variant : String) (hws : Forall₂ Word.Alike ws vs) (has : Forall₂ Assignment.Alike as bs)
    (hrs : Forall₂ Redirect.Alike rs qs) :
    Command.Alike (.declare p variant ws as rs) (.declare q variant vs bs qs) := by
  obtain ⟨hassigns, hdocs⟩ := alike_assigns has
  obtain ⟨hredirects, hdocs'⟩ := alike_redirects hrs
  refine ⟨⟨?_, ?_⟩, rfl⟩
  · simp [printSpaced_alike hws, hassigns, hredirects]
  · simp [wordNodes_alike hws, hdocs, hdocs']

theorem ifThen (hcond : cond.Alike cond') (h : b.Alike b') {es fs : List Elif}
    (hes : Forall₂ (fun e f => e.cond.Alike f.cond ∧ e.yes.Alike f.yes) es fs) {no no' : Option Block}
    (hno : Option.Rel Block.Alike no no') : Command.Alike (.ifThen p cond b es no) (.ifThen q cond' b' fs no') := by
  obtain ⟨helifs, hdocs⟩ := alike_elifs hes
  obtain ⟨helse, hdocs'⟩ := alike_optElse hno
  refine ⟨⟨?_, ?_⟩, rfl⟩
  · simp [hcond.inline, h.body, helifs, helse]
  · simp [hcond.docs, h.docs, hdocs, hdocs']

theorem loop (untilTrue : Bool) (hcond : cond.Alike cond') (h : b.Alike b') :
    Command.Alike (.loop p untilTrue cond b) (.loop q untilTrue cond' b') := by
  refine ⟨⟨?_, ?_⟩, rfl⟩
  · simp [hcond.inline, h.body]
  · simp [hcond.docs, h.docs]

theorem forIn (name : String) (hasIn : Bool) {p' q' : Position} (hws : Forall₂ Word.Alike ws vs) (h : b.Alike b') :
    Command.Alike (.forIn p name p' hasIn ws b) (.forIn q name q' hasIn vs b') := by
  refine ⟨⟨?_, ?_⟩, rfl⟩
  · simp [printSpaced_alike hws, h.body]
  · simp [wordNodes_alike hws, h.docs]

theorem select (name : String) (hasIn : Bool) {p' q' : Position} (hws : Forall₂ Word.Alike ws vs) (h : b.Alike b') :
    Command.Alike (.select p name p' hasIn ws b) (.select q name q' hasIn vs b') := by
  refine ⟨⟨?_, ?_⟩, rfl⟩
  · simp [printSpaced_alike hws, h.body]
  · simp [wordNodes_alike hws, h.docs]

theorem forArith {x₁ x₂ x₃ y₁ y₂ y₃ : Option ArithExpr} (h₁ : Option.Rel ArithExpr.Alike x₁ y₁)
    (h₂ : Option.Rel ArithExpr.Alike x₂ y₂) (h₃ : Option.Rel ArithExpr.Alike x₃ y₃) (h : b.Alike b') :
    Command.Alike (.forArith p x₁ x₂ x₃ b) (.forArith q y₁ y₂ y₃ b') := by
  have h₁ := alike_optArith h₁
  have h₂ := alike_optArith h₂
  have h₃ := alike_optArith h₃
  refine ⟨⟨?_, ?_⟩, rfl⟩
  · simp [h₁.1, h₂.1, h₃.1, h.body]
  · simp [h₁.2, h₂.2, h₃.2, h.docs]

theorem caseOf {w v : Word} (hw : w.Alike v) {is js : List CaseItem} (h : Forall₂ CaseItem.Alike is js) :
    Command.Alike (.caseOf p w is) (.caseOf q v js) := by
  obtain ⟨hcases, hinline, hdocs⟩ := alike_cases h
  refine ⟨⟨?_, ?_⟩, rfl⟩
  · simp [hw.print, hcases, hinline]
  · simp [hw.docs, hdocs]

theorem function (name : String) (keyword parens : Bool) (h : x.Alike y) :
    Command.Alike (.function p name keyword parens x) (.function q name keyword parens y) := by
  refine ⟨⟨?_, ?_⟩, rfl⟩
  · simp [h.print]
  · simp [h.docs]

theorem subshell (h : b.Alike b') : Command.Alike (.subshell p b) (.subshell q b') := by
  refine ⟨⟨?_, ?_⟩, rfl⟩
  · simp [h.inline, h.body]
  · simp [h.docs]

theorem group (h : b.Alike b') : Command.Alike (.group p b) (.group q b') := by
  refine ⟨⟨?_, ?_⟩, rfl⟩
  · simp [h.body]
  · simp [h.docs]

theorem arith {x y : ArithExpr} (h : x.Alike y) : Command.Alike (.arith p x) (.arith q y) := by
  refine ⟨⟨?_, ?_⟩, rfl⟩
  · simp [h.print]
  · simp [h.docs]

theorem test {x y : TestExpr} (h : x.Alike y) : Command.Alike (.test p x) (.test q y) := by
  refine ⟨⟨?_, ?_⟩, rfl⟩
  · simp [h.print]
  · simp [h.docs]

theorem redirected (h : x.Alike y) (hrs : Forall₂ Redirect.Alike rs qs) :
    Command.Alike (.redirected x rs) (.redirected y qs) := by
  obtain ⟨hredirects, hdocs⟩ := alike_redirects hrs
  refine ⟨⟨?_, ?_⟩, rfl⟩
  · simp [h.print, hredirects]
  · simp [h.docs, hdocs]

end Command.Alike

end Operands

end Script
end ShellScript

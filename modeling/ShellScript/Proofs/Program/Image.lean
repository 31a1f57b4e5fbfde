import Mathlib.Data.List.Forall2
import ShellScript.Program.OfScript

-- What becomes of a script: each part of its tree has one image in a program. The relations say what stands where in the
-- two trees and nothing about how the one is made from the other. There is none for process substitution, which a
-- program cannot have.
namespace ShellScript
namespace Program

-- The characters of literal text, each with whether a backslash quotes it. An escaped newline is none.
def marked : List Char → List (Char × Bool)
  | [] => []
  | '\\' :: '\n' :: cs => marked cs
  | '\\' :: c :: cs => (c, true) :: marked cs
  | c :: cs => (c, false) :: marked cs

-- Literal parts that hold these characters between them.
inductive Carries : List Part → List (Char × Bool) → Prop where
  | nil : Carries [] []
  | lit {text : String} {quoted : Bool} {ps : List Part} {cs : List (Char × Bool)} (h : Carries ps cs) :
      Carries (.lit text quoted :: ps) (text.toList.map (·, quoted) ++ cs)

-- Unquoted text is one part, unless it has backslashes to split it at.
inductive LitImage : String → List Part → Prop where
  | whole {s : String} (h : '\\' ∉ s.toList) : LitImage s [.lit s false]
  | split {s : String} {ps : List Part} (hescape : '\\' ∈ s.toList) (h : Carries ps (marked s.toList)) : LitImage s ps

-- The rest of a literal that gave up its beginning; nothing is left of one that was all beginning.
inductive RestImage : String → List Part → Prop where
  | none : RestImage "" []
  | some {s : String} {ps : List Part} (h : LitImage s ps) : RestImage s ps

-- A tilde that begins a word, the login name after it, and what follows the two.
structure TildePrefix (s user rest : String) : Prop where
  text : s.toList = '~' :: user.toList ++ rest.toList
  login : ∀ c ∈ user.toList, isUserChar c = true
  slash : rest.toList = [] ∨ rest.toList.head? = some '/'

-- The expression that a text stands for between double parentheses.
def Reads (file text : String) (e : Script.ArithExpr) : Prop :=
  (Script.readAs .bash file ("((" ++ text ++ "))")).isFatal = false ∧
    ∃ p, (Script.readAs .bash file ("((" ++ text ++ "))")).body.items = [.arith p e]

-- The builtin that a command with these words runs, if that is known.
def boundTo (args : List Script.Word) : Option Builtin := (args.head?.bind Script.Word.value?).bind Builtin.ofName?

def placeOf (p : Position) : Place := ⟨p.line, p.column⟩

mutual

inductive PartImage (file : String) : Quoting → Script.WordPart → List Part → Prop where
  | lit {p : Position} {s : String} {ps : List Part} (h : LitImage s ps) : PartImage file .none (.lit p s) ps
  | inDouble {p : Position} {s : String} : PartImage file .double (.lit p s) [.lit (Script.unescapeDouble s) true]
  | inDocument {p : Position} {s : String} :
      PartImage file .hereDoc (.lit p s) [.lit (String.ofList (unescapeHereDoc s.toList)) true]
  | single {q : Quoting} {p : Position} {s : String} : PartImage file q (.single p false s) [.lit s true]
  | dollarSingle {q : Quoting} {p : Position} {s : String} :
      PartImage file q (.single p true s) [.lit (Script.unescapeAnsi s) true]
  | double {q : Quoting} {p : Position} {dollar : Bool} {ps : List Script.WordPart} {xs : List Part}
      (h : PartsImage file .double ps xs) : PartImage file q (.double p dollar ps) [.quoted xs]
  | param {q : Quoting} {p : Position} {x : Script.ParamExp} {y : Param} (h : ParamImage file x y) :
      PartImage file q (.param p x) [.param y]
  | command {q : Quoting} {p : Position} {body : Script.Block} {backquote : Bool} {b : Block}
      (h : BlockImage file body b) : PartImage file q (.command p body backquote) [.subst b]
  | arith {q : Quoting} {p : Position} {x : Option Script.ArithExpr} {y : Option Arith}
      (h : Option.Rel (ArithImage file) x y) : PartImage file q (.arith p x) [.arith y]
  | brace {q : Quoting} {p : Position} {sequence : Bool} {ws : List Script.Word} {xs : List Word}
      (h : List.Forall₂ (PlainImage file) ws xs) : PartImage file q (.brace p sequence ws) [.brace sequence xs]

inductive PartsImage (file : String) : Quoting → List Script.WordPart → List Part → Prop where
  | nil {q : Quoting} : PartsImage file q [] []
  | cons {q : Quoting} {p : Script.WordPart} {ps : List Script.WordPart} {xs ys : List Part}
      (h : PartImage file q p xs) (hs : PartsImage file q ps ys) : PartsImage file q (p :: ps) (xs ++ ys)

-- A word in which a tilde has no meaning.
inductive PlainImage (file : String) : Script.Word → Word → Prop where
  | mk {ps : List Script.WordPart} {xs : List Part} (h : PartsImage file .none ps xs) : PlainImage file ⟨ps⟩ ⟨xs⟩

inductive WordImage (file : String) : Script.Word → Word → Prop where
  | plain {w : Script.Word} {x : Word}
      (hplain : ∀ p s user rest, w.parts.head? = some (.lit p s) → ¬TildePrefix s user rest) (h : PlainImage file w x) :
      WordImage file w x
  | tilde {p : Position} {s user rest : String} {ps : List Script.WordPart} {xs ys : List Part}
      (htilde : TildePrefix s user rest) (hrest : RestImage rest xs) (h : PartsImage file .none ps ys) :
      WordImage file ⟨.lit p s :: ps⟩ ⟨.tilde user :: xs ++ ys⟩

inductive ParamImage (file : String) : Script.ParamExp → Param → Prop where
  | mk {short length indirect : Bool} {name : String} {names : Option Char} {op : Option Script.ParamOp}
      {index arg repl : Option Script.Word} {i a r : Option Word} (hi : Option.Rel (PlainImage file) index i)
      (ha : Option.Rel (WordImage file) arg a) (hr : Option.Rel (WordImage file) repl r) :
      ParamImage file ⟨short, name, length, indirect, names, index, op, arg, repl⟩
        ⟨name, length, indirect, names, i, op, a, r⟩

inductive ArithImage (file : String) : Script.ArithExpr → Arith → Prop where
  | num {p : Position} {s : String} (h : (s.toList.head?.any Text.isDigit) = true) :
      ArithImage file (.word ⟨[.lit p s]⟩) (.num s)
  | var {p : Position} {s : String} (h : Text.isName s = true) : ArithImage file (.word ⟨[.lit p s]⟩) (.var s none)
  -- an element whose index is written out
  | indexed {p : Position} {name text : String} {e : Script.ArithExpr} {x : Arith} (hname : Text.isName name = true)
      (hreads : Reads file text e) (h : ArithImage file e x) :
      ArithImage file (.word ⟨[.lit p (name ++ "[" ++ text ++ "]")]⟩) (.var name (some x))
  -- an element whose index has expansions
  | element {p q : Position} {name first last : String} {ps : List Script.WordPart} {xs ys zs : List Part}
      (hname : Text.isName name = true) (hfirst : RestImage first xs) (h : PartsImage file .none ps ys)
      (hlast : RestImage last zs) :
      ArithImage file (.word ⟨.lit p (name ++ "[" ++ first) :: ps ++ [Script.WordPart.lit q (last ++ "]")]⟩)
        (.var name (some (.word ⟨xs ++ ys ++ zs⟩)))
  -- any other operand, and an element whose written index is no expression
  | word {w : Script.Word} {x : Word} (hlit : arithLit? w = none)
      (helement : element? w = none ∨ ∃ p s, w.parts = [.lit p s]) (h : WordImage file w x) :
      ArithImage file (.word w) (.word x)
  | binary {p : Position} {op : Script.ArithOp} {x y : Script.ArithExpr} {a b : Arith} (hx : ArithImage file x a)
      (hy : ArithImage file y b) : ArithImage file (.binary p op x y) (.binary op a b)
  | unary {p : Position} {op : Script.ArithOp} {post : Bool} {x : Script.ArithExpr} {a : Arith}
      (hx : ArithImage file x a) : ArithImage file (.unary p op post x) (.unary op post a)
  | paren {p : Position} {x : Script.ArithExpr} {a : Arith} (hx : ArithImage file x a) : ArithImage file (.paren p x) a
  | ternary {c x : Script.ArithExpr} {y : Option Script.ArithExpr} {a b : Arith} {d : Option Arith}
      (hc : ArithImage file c a) (hx : ArithImage file x b) (hy : Option.Rel (ArithImage file) y d) :
      ArithImage file (.ternary c x y) (.ternary a b d)

inductive TestImage (file : String) : Script.TestExpr → Test → Prop where
  | word {w : Script.Word} {x : Word} (h : WordImage file w x) : TestImage file (.word w) (.word x)
  | paren {p : Position} {x : Script.TestExpr} {a : Test} (h : TestImage file x a) : TestImage file (.paren p x) a
  | unary {p : Position} {op : String} {x : Script.TestExpr} {a : Test} (h : TestImage file x a) :
      TestImage file (.unary p op x) (.unary op a)
  | binary {p : Position} {op : String} {x y : Script.TestExpr} {a b : Test} (hx : TestImage file x a)
      (hy : TestImage file y b) : TestImage file (.binary p op x y) (.binary op a b)

inductive AssignImage (file : String) : Script.Assignment → Assign → Prop where
  | array {p q : Position} {name : String} {index : Option Script.Word} {i : Option Word} {append naked : Bool}
      {value : Option Script.Word} {elems : List Script.Word} {xs : List Word} (hi : Option.Rel (WordImage file) index i)
      (h : List.Forall₂ (WordImage file) elems xs) :
      AssignImage file ⟨p, name, index, append, naked, value, some ⟨q, elems⟩⟩ ⟨name, i, append, none, some xs⟩
  | naked {p : Position} {name : String} {index : Option Script.Word} {i : Option Word} {append : Bool}
      {value : Option Script.Word} (hi : Option.Rel (WordImage file) index i) :
      AssignImage file ⟨p, name, index, append, true, value, none⟩ ⟨name, i, append, none, none⟩
  -- an assignment of nothing differs from a name alone
  | empty {p : Position} {name : String} {index : Option Script.Word} {i : Option Word} {append : Bool}
      {value : Option Script.Word} (hi : Option.Rel (WordImage file) index i) (hvalue : ∀ w ∈ value, w.parts = []) :
      AssignImage file ⟨p, name, index, append, false, value, none⟩ ⟨name, i, append, some ⟨[.lit "" true]⟩, none⟩
  | value {p : Position} {name : String} {index : Option Script.Word} {i : Option Word} {append : Bool}
      {w : Script.Word} {x : Word} (hi : Option.Rel (WordImage file) index i) (h : WordImage file w x) :
      AssignImage file ⟨p, name, index, append, false, some w, none⟩ ⟨name, i, append, some x, none⟩

-- The text of a here-document.
inductive DocImage (file : String) : Script.HereDoc → Word → Prop where
  | quoted {p : Position} {delim raw : String} {strip : Bool} {body : Option Script.Word} :
      DocImage file ⟨p, delim, true, strip, raw, body⟩ ⟨[.lit raw true]⟩
  | body {p : Position} {delim raw : String} {strip : Bool} {ps : List Script.WordPart} {xs : List Part}
      (h : PartsImage file .hereDoc ps xs) : DocImage file ⟨p, delim, false, strip, raw, some ⟨ps⟩⟩ ⟨xs⟩
  | empty {p : Position} {delim raw : String} {strip : Bool} :
      DocImage file ⟨p, delim, false, strip, raw, none⟩ ⟨[]⟩

inductive RedirImage (file : String) : Script.Redirect → Redir → Prop where
  | target {p : Position} {op : Token.Kind} {n : String} {w : Script.Word} {fd : Option Nat} {o : RedirOp} {x : Word}
      (hfd : descriptor? n = some fd) (hop : redirOp? op = some o) (h : WordImage file w x) :
      RedirImage file ⟨p, op, n, w, none⟩ ⟨fd, o, x⟩
  | document {p : Position} {op : Token.Kind} {n : String} {w : Script.Word} {doc : Script.HereDoc} {fd : Option Nat}
      {o : RedirOp} {x : Word} (hfd : descriptor? n = some fd) (hop : redirOp? op = some o) (h : DocImage file doc x) :
      RedirImage file ⟨p, op, n, w, some doc⟩ ⟨fd, o, x⟩

inductive BlockImage (file : String) : Script.Block → Block → Prop where
  | mk {p : Position} {items : List Script.Command} {stmts : List Stmt}
      (h : List.Forall₂ (StmtImage file) items stmts) : BlockImage file ⟨p, items⟩ ⟨file, stmts⟩

-- Each further branch stands alone in the other branch of the one before.
inductive ElseImage (file : String) : List Script.Elif → Option Script.Block → Option Block → Prop where
  | last {no : Option Script.Block} {b : Option Block} (h : Option.Rel (BlockImage file) no b) : ElseImage file [] no b
  | elif {p : Position} {cond yes : Script.Block} {es : List Script.Elif} {no : Option Script.Block} {c y : Block}
      {rest : Option Block} (hc : BlockImage file cond c) (hy : BlockImage file yes y) (h : ElseImage file es no rest) :
      ElseImage file (⟨p, cond, yes⟩ :: es) no (some ⟨file, [.ifThen c y rest]⟩)

inductive ArmImage (file : String) : Script.CaseItem → CaseArm → Prop where
  | mk {patterns : List Script.Word} {body : Script.Block} {term : Script.CaseTerm} {ps : List Word} {b : Block}
      (hp : List.Forall₂ (WordImage file) patterns ps) (hb : BlockImage file body b) :
      ArmImage file ⟨patterns, body, term⟩ ⟨ps, b, term⟩

inductive StmtImage (file : String) : Script.Command → Stmt → Prop where
  | andOr {p : Position} {op : Script.Connective} {x y : Script.Command} {a b : Stmt} (hx : StmtImage file x a)
      (hy : StmtImage file y b) : StmtImage file (.andOr p op x y) (.andOr op a b)
  | pipeline {p : Position} {negated : Bool} {cmds : List Script.Command} {stages : List Stmt} {stderr : List Bool}
      (h : List.Forall₂ (StmtImage file) cmds stages) :
      StmtImage file (.pipeline p negated cmds stderr) (.pipeline negated stages stderr)
  | background {x : Script.Command} {a : Stmt} (h : StmtImage file x a) : StmtImage file (.background x) (.background a)
  | simple {assigns : List Script.Assignment} {args : List Script.Word} {redirs : List Script.Redirect}
      {as : List Assign} {ws : List Word} {rs : List Redir} (ha : List.Forall₂ (AssignImage file) assigns as)
      (hw : List.Forall₂ (WordImage file) args ws) (hr : List.Forall₂ (RedirImage file) redirs rs) :
      StmtImage file (.simple assigns args redirs)
        (.call (placeOf (Script.Command.simplePos assigns args redirs)) as ws rs (boundTo args) none)
  | declare {p : Position} {variant : String} {b : Builtin} {opts : List Script.Word}
      {assigns : List Script.Assignment} {redirs : List Script.Redirect} {os : List Word} {as : List Assign}
      {rs : List Redir} (hb : declaration? variant = some b) (ho : List.Forall₂ (WordImage file) opts os)
      (ha : List.Forall₂ (AssignImage file) assigns as) (hr : List.Forall₂ (RedirImage file) redirs rs) :
      StmtImage file (.declare p variant opts assigns redirs) (.decl (placeOf p) b os as rs)
  | ifThen {p : Position} {cond yes : Script.Block} {elifs : List Script.Elif} {no : Option Script.Block} {c y : Block}
      {n : Option Block} (hc : BlockImage file cond c) (hy : BlockImage file yes y) (hn : ElseImage file elifs no n) :
      StmtImage file (.ifThen p cond yes elifs no) (.ifThen c y n)
  | loop {p : Position} {untilTrue : Bool} {cond body : Script.Block} {c b : Block} (hc : BlockImage file cond c)
      (hb : BlockImage file body b) : StmtImage file (.loop p untilTrue cond body) (.loop untilTrue c b)
  | forIn {p q : Position} {name : String} {hasIn : Bool} {items : List Script.Word} {body : Script.Block}
      {ws : List Word} {b : Block} (hw : List.Forall₂ (WordImage file) items ws) (hb : BlockImage file body b) :
      StmtImage file (.forIn p name q hasIn items body) (.forIn name (!hasIn) ws b)
  | forArith {p : Position} {x y z : Option Script.ArithExpr} {body : Script.Block} {a b c : Option Arith} {d : Block}
      (hx : Option.Rel (ArithImage file) x a) (hy : Option.Rel (ArithImage file) y b)
      (hz : Option.Rel (ArithImage file) z c) (hd : BlockImage file body d) :
      StmtImage file (.forArith p x y z body) (.forArith a b c d)
  | select {p q : Position} {name : String} {hasIn : Bool} {items : List Script.Word} {body : Script.Block}
      {ws : List Word} {b : Block} (hw : List.Forall₂ (WordImage file) items ws) (hb : BlockImage file body b) :
      StmtImage file (.select p name q hasIn items body) (.select name (!hasIn) ws b)
  | caseOf {p : Position} {word : Script.Word} {items : List Script.CaseItem} {w : Word} {arms : List CaseArm}
      (hw : WordImage file word w) (h : List.Forall₂ (ArmImage file) items arms) :
      StmtImage file (.caseOf p word items) (.caseOf w arms)
  | function {p : Position} {name : String} {keyword parens : Bool} {body : Script.Command} {b : Stmt}
      (h : StmtImage file body b) : StmtImage file (.function p name keyword parens body) (.function name b)
  | subshell {p : Position} {body : Script.Block} {b : Block} (h : BlockImage file body b) :
      StmtImage file (.subshell p body) (.subshell b)
  | group {p : Position} {body : Script.Block} {b : Block} (h : BlockImage file body b) :
      StmtImage file (.group p body) (.group b)
  | arith {p : Position} {x : Script.ArithExpr} {a : Arith} (h : ArithImage file x a) :
      StmtImage file (.arith p x) (.arith a)
  | test {p : Position} {x : Script.TestExpr} {a : Test} (h : TestImage file x a) : StmtImage file (.test p x) (.test a)
  | redirected {x : Script.Command} {redirs : List Script.Redirect} {a : Stmt} {rs : List Redir}
      (h : StmtImage file x a) (hr : List.Forall₂ (RedirImage file) redirs rs) :
      StmtImage file (.redirected x redirs) (.redirected a rs)

end

end Program
end ShellScript

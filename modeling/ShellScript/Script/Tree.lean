import ShellScript.Token

-- The tree of a script.
namespace ShellScript
namespace Script

-- The operator of a parameter expansion.
inductive ParamOp where
  | default
  | defaultUnset
  | assign
  | assignUnset
  | error
  | errorUnset
  | alt
  | altUnset
  | remSmallPrefix
  | remLargePrefix
  | remSmallSuffix
  | remLargeSuffix
  | replace
  | replaceAll
  | replacePrefix
  | replaceSuffix
  | upperFirst
  | upperAll
  | lowerFirst
  | lowerAll
  | slice
deriving Repr, DecidableEq, Inhabited

namespace ParamOp

def text : ParamOp → String
  | .default => ":-"
  | .defaultUnset => "-"
  | .assign => ":="
  | .assignUnset => "="
  | .error => ":?"
  | .errorUnset => "?"
  | .alt => ":+"
  | .altUnset => "+"
  | .remSmallPrefix => "#"
  | .remLargePrefix => "##"
  | .remSmallSuffix => "%"
  | .remLargeSuffix => "%%"
  | .replace => "/"
  | .replaceAll => "//"
  | .replacePrefix => "/#"
  | .replaceSuffix => "/%"
  | .upperFirst => "^"
  | .upperAll => "^^"
  | .lowerFirst => ","
  | .lowerAll => ",,"
  | .slice => ":"

-- Two characters before one, so that the first that fits is the longest.
def longestFirst : List ParamOp :=
  [.remLargePrefix, .remLargeSuffix, .replaceAll, .replacePrefix, .replaceSuffix, .upperAll, .lowerAll, .default,
    .assign, .error, .alt, .defaultUnset, .assignUnset, .errorUnset, .altUnset, .remSmallPrefix,
    .remSmallSuffix, .replace, .upperFirst, .lowerFirst, .slice]

end ParamOp

inductive ArithOp where
  | add
  | sub
  | mul
  | quo
  | rem
  | pow
  | shl
  | shr
  | and
  | or
  | xor
  | land
  | lor
  | eql
  | neq
  | lss
  | leq
  | gtr
  | geq
  | not
  | bitNot
  | inc
  | dec
  | assign
  | addAssign
  | subAssign
  | mulAssign
  | quoAssign
  | remAssign
  | shlAssign
  | shrAssign
  | andAssign
  | orAssign
  | xorAssign
  | comma
  | quest
  | colon
deriving Repr, DecidableEq, Inhabited

namespace ArithOp

def text : ArithOp → String
  | .add => "+"
  | .sub => "-"
  | .mul => "*"
  | .quo => "/"
  | .rem => "%"
  | .pow => "**"
  | .shl => "<<"
  | .shr => ">>"
  | .and => "&"
  | .or => "|"
  | .xor => "^"
  | .land => "&&"
  | .lor => "||"
  | .eql => "=="
  | .neq => "!="
  | .lss => "<"
  | .leq => "<="
  | .gtr => ">"
  | .geq => ">="
  | .not => "!"
  | .bitNot => "~"
  | .inc => "++"
  | .dec => "--"
  | .assign => "="
  | .addAssign => "+="
  | .subAssign => "-="
  | .mulAssign => "*="
  | .quoAssign => "/="
  | .remAssign => "%="
  | .shlAssign => "<<="
  | .shrAssign => ">>="
  | .andAssign => "&="
  | .orAssign => "|="
  | .xorAssign => "^="
  | .comma => ","
  | .quest => "?"
  | .colon => ":"

def longestFirst : List ArithOp :=
  [.shlAssign, .shrAssign, .pow, .shl, .shr, .land, .lor, .eql, .neq, .leq, .geq, .inc, .dec, .addAssign,
    .subAssign, .mulAssign, .quoAssign, .remAssign, .andAssign, .orAssign, .xorAssign, .add, .sub, .mul, .quo,
    .rem, .and, .or, .xor, .lss, .gtr, .not, .bitNot, .assign, .comma, .quest, .colon]

-- Whether the operator stores into its left operand.
def isAssign : ArithOp → Bool
  | .assign | .addAssign | .subAssign | .mulAssign | .quoAssign | .remAssign | .shlAssign | .shrAssign
  | .andAssign | .orAssign | .xorAssign => true
  | _ => false

-- How tightly a binary operator binds; 0 for one that is not binary.
def precedence (op : ArithOp) : Nat :=
  if op.isAssign then 2
  else match op with
    | .comma => 1
    | .quest => 3
    | .lor => 4
    | .land => 5
    | .or => 6
    | .xor => 7
    | .and => 8
    | .eql | .neq => 9
    | .lss | .leq | .gtr | .geq => 10
    | .shl | .shr => 11
    | .add | .sub => 12
    | .mul | .quo | .rem => 13
    | .pow => 14
    | _ => 0

def isSign : ArithOp → Bool
  | .add | .sub | .inc | .dec => true
  | _ => false

end ArithOp

inductive Connective where
  | and
  | or
deriving Repr, DecidableEq, Inhabited

def Connective.text : Connective → String
  | .and => "&&"
  | .or => "||"

-- How an arm of a `case` ends: with no further arm, with the next body, or with the next test.
inductive CaseTerm where
  | stop
  | fallThrough
  | testNext
deriving Repr, DecidableEq, Inhabited

def CaseTerm.text : CaseTerm → String
  | .stop => ";;"
  | .fallThrough => ";&"
  | .testNext => ";;&"

mutual

structure Word where
  parts : List WordPart

inductive WordPart where
  -- literal text with its backslashes in place
  | lit (pos : Position) (value : String)
  -- `'...'`, or `$'...'` when `dollar`; the raw text between the quotes
  | single (pos : Position) (dollar : Bool) (value : String)
  | double (pos : Position) (dollar : Bool) (parts : List WordPart)
  | param (pos : Position) (x : ParamExp)
  | command (pos : Position) (body : Block) (backquote : Bool)
  -- `$((...))`, which may be empty
  | arith (pos : Position) (x : Option ArithExpr)
  -- braces with commas, or with two dots when `sequence`
  | brace (pos : Position) (sequence : Bool) (elems : List Word)
  -- `<(...)`, or `>(...)` when `write`
  | process (pos : Position) (write : Bool) (body : Block)

structure ParamExp where
  -- `$name` without braces
  short : Bool
  name : String
  -- `#` before the name
  length : Bool
  -- `!` before the name
  indirect : Bool
  -- the `*` or `@` that asks for all names with a beginning
  names : Option Char
  index : Option Word
  op : Option ParamOp
  -- the operator's argument; for a slice the offset
  arg : Option Word
  -- the replacement; for a slice the length
  repl : Option Word

inductive ArithExpr where
  | word (w : Word)
  | binary (opPos : Position) (op : ArithOp) (x y : ArithExpr)
  | unary (opPos : Position) (op : ArithOp) (post : Bool) (x : ArithExpr)
  | paren (pos : Position) (x : ArithExpr)
  -- the last operand is missing only after a reported error
  | ternary (cond yes : ArithExpr) (no : Option ArithExpr)

inductive TestExpr where
  | word (w : Word)
  | binary (opPos : Position) (op : String) (x y : TestExpr)
  | unary (opPos : Position) (op : String) (x : TestExpr)
  | paren (pos : Position) (x : TestExpr)

structure ArrayExpr where
  pos : Position
  elems : List Word

structure Assignment where
  pos : Position
  name : String
  index : Option Word
  append : Bool
  -- a name alone in a declaration
  naked : Bool
  value : Option Word
  array : Option ArrayExpr

structure HereDoc where
  pos : Position
  delim : String
  quoted : Bool
  stripTabs : Bool
  raw : String
  -- the expansions of a body whose delimiter was not quoted
  body : Option Word

structure Redirect where
  opPos : Position
  op : Token.Kind
  -- the descriptor, when it is written out
  n : String
  word : Word
  doc : Option HereDoc

structure Block where
  start : Position
  items : List Command

inductive Command where
  | andOr (opPos : Position) (op : Connective) (x y : Command)
  -- `stderr` says for each bar whether it is `|&`
  | pipeline (bang : Position) (negated : Bool) (cmds : List Command) (stderr : List Bool)
  | background (x : Command)
  | simple (assigns : List Assignment) (args : List Word) (redirs : List Redirect)
  | declare (pos : Position) (variant : String) (opts : List Word) (assigns : List Assignment)
      (redirs : List Redirect)
  | ifThen (pos : Position) (cond yes : Block) (elifs : List Elif) (no : Option Block)
  | loop (pos : Position) (untilTrue : Bool) (cond body : Block)
  | forIn (pos : Position) (name : String) (namePos : Position) (hasIn : Bool) (items : List Word) (body : Block)
  | forArith (pos : Position) (start cond post : Option ArithExpr) (body : Block)
  | select (pos : Position) (name : String) (namePos : Position) (hasIn : Bool) (items : List Word) (body : Block)
  | caseOf (pos : Position) (word : Word) (items : List CaseItem)
  | function (pos : Position) (name : String) (keyword : Bool) (parens : Bool) (body : Command)
  | subshell (pos : Position) (body : Block)
  | group (pos : Position) (body : Block)
  | arith (pos : Position) (x : ArithExpr)
  | test (pos : Position) (x : TestExpr)
  -- redirections of a compound command
  | redirected (x : Command) (redirs : List Redirect)

structure Elif where
  pos : Position
  cond : Block
  yes : Block

structure CaseItem where
  patterns : List Word
  body : Block
  term : CaseTerm

end

instance : Inhabited Word := ⟨⟨[]⟩⟩
instance : Inhabited WordPart := ⟨.lit {} ""⟩
instance : Inhabited Block := ⟨⟨{}, []⟩⟩
instance : Inhabited ArithExpr := ⟨.word ⟨[]⟩⟩
instance : Inhabited TestExpr := ⟨.word ⟨[]⟩⟩
instance : Inhabited Command := ⟨.simple [] [] []⟩
instance : Inhabited Redirect := ⟨⟨{}, .less, "", ⟨[]⟩, none⟩⟩
instance : Inhabited Assignment := ⟨⟨{}, "", none, false, false, none, none⟩⟩

namespace WordPart

def pos : WordPart → Position
  | .lit p _ | .single p _ _ | .double p _ _ | .param p _ | .command p _ _ | .arith p _ | .brace p _ _
  | .process p _ _ => p

end WordPart

namespace Word

def empty : Word := ⟨[]⟩

def pos (w : Word) : Position :=
  match w.parts with
  | [] => {}
  | p :: _ => p.pos

-- The text of a word that is one unquoted literal without escapes and pattern characters; an empty word
-- counts as such.
def lit? (w : Word) : Option String :=
  match w.parts with
  | [] => some ""
  | [.lit _ s] => if s.toList.any (fun c => c == '\\' || c == '*' || c == '?' || c == '[') then none else some s
  | _ => none

end Word

namespace ParamExp

-- `$name`
def ofName (name : String) : ParamExp :=
  { short := true, name, length := false, indirect := false, names := none, index := none, op := none,
    arg := none, repl := none }

-- `name` between braces, with nothing else yet.
def braced (name : String) (length indirect : Bool) : ParamExp :=
  { ofName name with short := false, length, indirect }

end ParamExp

namespace ArithExpr

def pos : ArithExpr → Position
  | .word w => w.pos
  | .binary _ _ x _ => x.pos
  | .unary p _ post x => if post then x.pos else p
  | .paren p _ => p
  | .ternary c _ _ => c.pos

end ArithExpr

namespace TestExpr

def pos : TestExpr → Position
  | .word w => w.pos
  | .binary _ _ x _ => x.pos
  | .unary p _ _ => p
  | .paren p _ => p

end TestExpr

namespace Redirect

-- A descriptor stands right before the operator.
def pos (r : Redirect) : Position :=
  ⟨r.opPos.offset - r.n.length, r.opPos.line, r.opPos.column - r.n.length⟩

end Redirect

namespace CaseItem

def pos (i : CaseItem) : Position :=
  match i.patterns with
  | [] => {}
  | w :: _ => w.pos

end CaseItem

-- The earlier of two positions; an invalid one is no candidate.
def earliest (p q : Position) : Position :=
  if !p.isValid || (q.isValid && p.offset > q.offset) then q else p

namespace Command

def simplePos (assigns : List Assignment) (args : List Word) (redirs : List Redirect) : Position :=
  let p := assigns.foldl (fun p a => earliest p a.pos) {}
  let p := match args with
    | [] => p
    | w :: _ => earliest p w.pos
  redirs.foldl (fun p r => earliest p r.pos) p

def pos : Command → Position
  | .andOr _ _ x _ => x.pos
  | .pipeline bang negated cmds _ =>
    if negated then bang
    else match cmds with
      | [] => {}
      | c :: _ => c.pos
  | .background x => x.pos
  | .simple assigns args redirs => simplePos assigns args redirs
  | .declare p _ _ _ _ | .ifThen p _ _ _ _ | .loop p _ _ _ | .forIn p _ _ _ _ _ | .forArith p _ _ _ _
  | .select p _ _ _ _ _ | .caseOf p _ _ | .function p _ _ _ _ | .subshell p _ | .group p _ | .arith p _
  | .test p _ => p
  | .redirected x _ => x.pos

end Command

namespace Block

def pos (b : Block) : Position :=
  match b.items with
  | [] => b.start
  | c :: _ => c.pos

end Block

end Script
end ShellScript

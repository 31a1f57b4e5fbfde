import ShellScript.Program.Builtin
import ShellScript.Script.Tree

-- The program that a script stands for: quoting is resolved, commands are bound, and positions are kept only
-- where a message may need them.
namespace ShellScript
namespace Program

-- A line and a column.
structure Place where
  line : Nat := 0
  column : Nat := 0
deriving Repr, DecidableEq, Inhabited

inductive RedirOp where
  | input
  | output
  | append
  | dupIn
  | dupOut
  | readWrite
  | clobber
  | hereDoc
  | hereString
  | all
  | allAppend
deriving Repr, DecidableEq, Inhabited

-- The shell options in effect when the program starts.
structure Options where
  errexit : Bool := false
  nounset : Bool := false
  pipefail : Bool := false
  xtrace : Bool := false
  noglob : Bool := false
deriving Repr, DecidableEq, Inhabited

mutual

structure Word where
  parts : List Part

inductive Part where
  -- quoted text takes no part in pattern matching
  | lit (text : String) (quoted : Bool)
  -- double quotes: expansions are neither split nor matched against files
  | quoted (parts : List Part)
  | param (x : Param)
  | subst (body : Block)
  | arith (x : Option Arith)
  | brace (sequence : Bool) (elems : List Word)
  | tilde (user : String)
  -- a file whose content belongs to the program
  | embedded (key : String)
  -- a file found when the program runs; `expr` is the text that named it
  | runtimePath (word : Word) (expr : String)

structure Param where
  name : String
  length : Bool
  indirect : Bool
  names : Option Char
  index : Option Word
  op : Option Script.ParamOp
  arg : Option Word
  repl : Option Word

inductive Arith where
  | num (text : String)
  | var (name : String) (index : Option Arith)
  -- an expansion whose value is evaluated as an expression
  | word (w : Word)
  | binary (op : Script.ArithOp) (x y : Arith)
  | unary (op : Script.ArithOp) (post : Bool) (x : Arith)
  | ternary (cond yes : Arith) (no : Option Arith)

inductive Test where
  | word (w : Word)
  | unary (op : String) (x : Test)
  | binary (op : String) (x y : Test)

structure Assign where
  name : String
  index : Option Word
  append : Bool
  value : Option Word
  array : Option (List Word)

structure Redir where
  -- the descriptor, when it is written out
  n : Option Nat
  op : RedirOp
  word : Word

structure Block where
  file : String
  stmts : List Stmt

inductive Stmt where
  | call (pos : Place) (assigns : List Assign) (args : List Word) (redirs : List Redir)
      (builtin : Option Builtin) (external : Option Nat)
  | decl (pos : Place) (variant : Builtin) (opts : List Word) (assigns : List Assign) (redirs : List Redir)
  | andOr (op : Script.Connective) (x y : Stmt)
  | pipeline (negated : Bool) (stages : List Stmt) (stderr : List Bool)
  | background (x : Stmt)
  | ifThen (cond yes : Block) (no : Option Block)
  | loop (untilTrue : Bool) (cond body : Block)
  | forIn (name : String) (inParams : Bool) (items : List Word) (body : Block)
  | forArith (start cond post : Option Arith) (body : Block)
  | select (name : String) (inParams : Bool) (items : List Word) (body : Block)
  | caseOf (word : Word) (arms : List CaseArm)
  | function (name : String) (body : Stmt)
  | subshell (body : Block)
  | group (body : Block)
  | arith (x : Arith)
  | test (x : Test)
  | redirected (x : Stmt) (redirs : List Redir)
  -- a file compiled into the program
  | source (pos : Place) (unit : String) (args : List Word) (redirs : List Redir)

structure CaseArm where
  patterns : List Word
  body : Block
  term : Script.CaseTerm

end

instance : Inhabited Word := ⟨⟨[]⟩⟩
instance : Inhabited Block := ⟨⟨"", []⟩⟩
instance : Inhabited Arith := ⟨.num ""⟩
instance : Inhabited Test := ⟨.word ⟨[]⟩⟩
instance : Inhabited Stmt := ⟨.group default⟩

end Program

-- A program that the script runs and that is neither a builtin nor a function.
structure External where
  name : String
  -- its content is one of the program's embedded files, under `path`
  bundle : Bool := false
  path : String := ""
  line : Nat := 0
  unit : String := ""
deriving Repr, DecidableEq, Inhabited

-- What is known about the script behind a program.
structure Origin where
  shebang : String := ""
  version : String := ""
  author : String := ""
  description : String := ""
  dependencies : List String := []
  terminal : String := ""
  features : List String := []
  generator : String := ""
deriving Repr, DecidableEq, Inhabited

structure Program where
  name : String
  dialect : String := ""
  main : Program.Block
  -- the files that it sources, by path, sorted
  units : List (String × Program.Block) := []
  -- the contents that belong to it, by path, sorted
  embeds : List (String × String) := []
  externals : List External := []
  origin : Origin := {}
  options : Program.Options := {}

end ShellScript

import ShellScript.Datum
import ShellScript.Program.Tree

-- Describing programs.
namespace ShellScript
namespace Program

open Datum

def Place.fields (p : Place) : List (String × Datum) :=
  if p == {} then []
  else [("Pos", .record "Pos" (intField "Line" p.line ++ intField "Col" p.column))]

def RedirOp.number : RedirOp → Nat
  | .input => 0
  | .output => 1
  | .append => 2
  | .dupIn => 3
  | .dupOut => 4
  | .readWrite => 5
  | .clobber => 6
  | .hereDoc => 7
  | .hereString => 8
  | .all => 9
  | .allAppend => 10

def termNumber : Script.CaseTerm → Nat
  | .stop => 0
  | .fallThrough => 1
  | .testNext => 2

def Options.describe (o : Options) : Datum :=
  .record "Options"
    (boolField "Errexit" o.errexit ++ boolField "Nounset" o.nounset ++ boolField "Pipefail" o.pipefail
      ++ boolField "Xtrace" o.xtrace ++ boolField "Noglob" o.noglob)

mutual

-- A word that has been read part by part has a list of parts even when it is empty; `keep` says so.
def Word.describe (keep : Bool) : Word → Datum
  | ⟨ps⟩ => .record "Word" (if keep then [("Parts", .list (describeParts ps))] else listField "Parts" (describeParts ps))

def describeOptWord (keep : Bool) : Option Word → Option Datum
  | none => none
  | some w => some (w.describe keep)

def describeWords (keep : Bool) : List Word → List Datum
  | [] => []
  | w :: ws => w.describe keep :: describeWords keep ws

def describeParts : List Part → List Datum
  | [] => []
  | p :: ps => p.describe :: describeParts ps

def Part.describe : Part → Datum
  | .lit s quoted => .record "Lit" (textField "Text" s ++ boolField "Quoted" quoted)
  | .quoted ps => .record "Quoted" [("Parts", .list (describeParts ps))]
  | .param x => x.describe
  | .subst body => .record "Subst" [("Body", body.describe)]
  | .arith x => .record "Arith" (optField "X" (describeOptArith x))
  | .brace sequence elems =>
    .record "Brace" (boolField "Seq" sequence ++ [("Elems", .list (describeWords true elems))])
  | .tilde user => .record "Tilde" (textField "User" user)
  | .embedded key => .record "EmbedPath" (textField "Key" key)
  | .runtimePath word expr => .record "RuntimePath" (("Word", word.describe false) :: textField "Expr" expr)

def Param.describe : Param → Datum
  | ⟨name, length, indirect, names, index, op, arg, repl⟩ =>
    .record "Param"
      (textField "Name" name ++ boolField "Length" length ++ boolField "Indirect" indirect
        ++ optField "Names" (names.map fun c => .text (String.ofList [c]))
        ++ optField "Index" (describeOptWord true index) ++ optField "Op" (op.map fun o => .symbol o.text)
        ++ optField "Arg" (describeOptWord false arg) ++ optField "Repl" (describeOptWord false repl))

def Arith.describe : Arith → Datum
  | .num s => .record "ArithNum" (textField "Text" s)
  | .var name index => .record "ArithVar" (textField "Name" name ++ optField "Index" (describeIndex index))
  | .word w => .record "ArithWord" [("Word", w.describe false)]
  | .binary op x y => .record "ArithBinary" [("Op", .symbol op.text), ("X", x.describe), ("Y", y.describe)]
  | .unary op post x =>
    .record "ArithUnary" (("Op", .symbol op.text) :: boolField "Post" post ++ [("X", x.describe)])
  | .ternary c x y =>
    .record "ArithTernary"
      (("Cond", c.describe) :: ("Then", x.describe) :: optField "Else" (describeOptArith y))

-- An index that is read part by part.
def describeIndex : Option Arith → Option Datum
  | none => none
  | some (.word w) => some (.record "ArithWord" [("Word", w.describe true)])
  | some x => some x.describe

def describeOptArith : Option Arith → Option Datum
  | none => none
  | some x => some x.describe

def Test.describe : Test → Datum
  | .word w => .record "TestWord" [("Word", w.describe false)]
  | .unary op x => .record "TestUnary" (textField "Op" op ++ [("X", x.describe)])
  | .binary op x y => .record "TestBinary" (textField "Op" op ++ [("X", x.describe), ("Y", y.describe)])

def Assign.describe : Assign → Datum
  | ⟨name, index, append, value, array⟩ =>
    .record "Assign"
      (textField "Name" name ++ optField "Index" (describeOptWord false index) ++ boolField "Append" append
        ++ optField "Value" (describeOptWord false value) ++ describeArray array)

def describeArray : Option (List Word) → List (String × Datum)
  | none => []
  | some ws => ("IsArray", .bool true) :: listField "Array" (describeWords false ws)

def describeAssigns : List Assign → List Datum
  | [] => []
  | a :: as => a.describe :: describeAssigns as

def describeRedirs : List Redir → List Datum
  | [] => []
  | ⟨n, op, word⟩ :: rs =>
    .record "Redir"
      (intField "N" (match n with
          | some k => (k : Int)
          | none => -1)
        ++ intField "Op" op.number ++ [("Word", word.describe (op == .hereDoc))])
      :: describeRedirs rs

def Block.describe : Block → Datum
  | ⟨file, stmts⟩ => .record "Block" (textField "File" file ++ [("Stmts", .list (describeStmts stmts))])

def describeOptBlock : Option Block → Option Datum
  | none => none
  | some b => some b.describe

def describeStmts : List Stmt → List Datum
  | [] => []
  | s :: ss => s.describe :: describeStmts ss

def describeArms : List CaseArm → List Datum
  | [] => []
  | ⟨patterns, body, term⟩ :: arms =>
    .record "CaseArm"
      (listField "Patterns" (describeWords false patterns) ++ [("Body", body.describe)]
        ++ intField "Term" (termNumber term))
      :: describeArms arms

def Stmt.describe : Stmt → Datum
  | .call pos assigns args redirs builtin external =>
    .record "Call"
      (pos.fields ++ listField "Assigns" (describeAssigns assigns) ++ listField "Args" (describeWords false args)
        ++ listField "Redirs" (describeRedirs redirs)
        ++ optField "Builtin" (builtin.map fun b => .symbol b.name)
        ++ intField "External" (match external with
          | some i => (i : Int)
          | none => -1))
  | .decl pos variant opts assigns redirs =>
    .record "Decl"
      (pos.fields ++ [("Variant", .symbol variant.name)] ++ listField "Opts" (describeWords false opts)
        ++ listField "Assigns" (describeAssigns assigns) ++ listField "Redirs" (describeRedirs redirs))
  | .andOr op x y => .record "AndOr" (boolField "Or" (op == .or) ++ [("X", x.describe), ("Y", y.describe)])
  | .pipeline negated stages stderr =>
    .record "Pipeline"
      (boolField "Negated" negated ++ listField "Stages" (describeStmts stages)
        ++ listField "Stderr" (stderr.map .bool))
  | .background x => .record "Background" [("X", x.describe)]
  | .ifThen cond yes no =>
    .record "If" (("Cond", cond.describe) :: ("Then", yes.describe) :: optField "Else" (describeOptBlock no))
  | .loop untilTrue cond body =>
    .record "While" (boolField "Until" untilTrue ++ [("Cond", cond.describe), ("Body", body.describe)])
  | .forIn name inParams items body =>
    .record "For"
      (textField "Name" name ++ boolField "InParams" inParams ++ listField "Items" (describeWords false items)
        ++ [("Body", body.describe)])
  | .forArith x y z body =>
    .record "ArithFor"
      (optField "Init" (describeOptArith x) ++ optField "Cond" (describeOptArith y)
        ++ optField "Post" (describeOptArith z) ++ [("Body", body.describe)])
  | .select name inParams items body =>
    .record "Select"
      (textField "Name" name ++ boolField "InParams" inParams ++ listField "Items" (describeWords false items)
        ++ [("Body", body.describe)])
  | .caseOf word arms => .record "Case" [("Word", word.describe false), ("Arms", .list (describeArms arms))]
  | .function name body => .record "FuncDef" (textField "Name" name ++ [("Body", body.describe)])
  | .subshell body => .record "Subshell" [("Body", body.describe)]
  | .group body => .record "Group" [("Body", body.describe)]
  | .arith x => .record "ArithCmd" [("X", x.describe)]
  | .test x => .record "Test" [("X", x.describe)]
  | .redirected x redirs =>
    .record "Redirected" (("X", x.describe) :: listField "Redirs" (describeRedirs redirs))
  | .source pos unit args redirs =>
    .record "Source"
      (pos.fields ++ textField "Unit" unit ++ [("Args", .list (describeWords false args))]
        ++ listField "Redirs" (describeRedirs redirs))

end

end Program

open Datum

def External.describe (e : External) : Datum :=
  .record "External"
    (textField "Name" e.name ++ boolField "Bundle" e.bundle ++ textField "Path" e.path ++ intField "Line" e.line
      ++ textField "Unit" e.unit)

def Origin.describe (o : Origin) : Datum :=
  .record "Meta"
    (textField "Shebang" o.shebang ++ textField "Version" o.version ++ textField "Author" o.author
      ++ textField "Description" o.description ++ listField "Dependencies" (o.dependencies.map .text)
      ++ textField "Terminal" o.terminal ++ listField "Features" (o.features.map .text)
      ++ textField "Generator" o.generator)

def Program.describe (p : Program) : Datum :=
  .record "Program"
    (textField "Name" p.name ++ textField "Dialect" p.dialect ++ [("Main", p.main.describe)]
      ++ [("Units", .table (p.units.map fun u => (u.1, u.2.describe))),
        ("Embeds", .table (p.embeds.map fun e => (e.1, .text e.2)))]
      ++ listField "Externals" (p.externals.map External.describe)
      ++ (if p.origin == {} then [] else [("Meta", p.origin.describe)])
      ++ (if p.options == {} then [] else [("Options", p.options.describe)]))

end ShellScript

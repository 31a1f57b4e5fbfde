import ShellScript.Datum
import ShellScript.Script.Read

-- Describing a tree without its positions, so that two texts that mean the same have the same outline.
namespace ShellScript
namespace Script

open Datum

mutual

def Word.describe : Word → Datum
  | ⟨parts⟩ => .record "Word" (listField "Parts" (describeParts parts))

def Word.describe? : Option Word → Option Datum
  | none => none
  | some w => some w.describe

def describeWords : List Word → List Datum
  | [] => []
  | w :: ws => w.describe :: describeWords ws

def WordPart.describe : WordPart → Datum
  | .lit _ s => .record "Lit" (textField "Value" s)
  | .single _ dollar s => .record "SglQuoted" (boolField "Dollar" dollar ++ textField "Value" s)
  | .double _ dollar ps =>
    .record "DblQuoted" (boolField "Dollar" dollar ++ listField "Parts" (describeParts ps))
  | .param _ x => x.describe
  | .command _ body backquote =>
    .record "CmdSubst" (("Body", body.describe) :: boolField "Backquote" backquote)
  | .arith _ x => .record "ArithExp" (optField "X" (ArithExpr.describe? x))
  | .brace _ sequence ws =>
    .record "BraceExp" (boolField "Sequence" sequence ++ listField "Elems" (describeWords ws))
  | .process _ write body =>
    .record "ProcSubst" [("Op", .symbol (if write then ">" else "<")), ("Body", body.describe)]

def describeParts : List WordPart → List Datum
  | [] => []
  | p :: ps => p.describe :: describeParts ps

def ParamExp.describe : ParamExp → Datum
  | ⟨short, name, length, indirect, names, index, op, arg, repl⟩ =>
    .record "ParamExp"
      (boolField "Short" short ++ textField "Name" name ++ boolField "Length" length
        ++ boolField "Indirect" indirect ++ optField "Names" (names.map fun c => .int c.toNat)
        ++ optField "Index" (Word.describe? index) ++ optField "Op" (op.map fun o => .symbol o.text)
        ++ optField "Arg" (Word.describe? arg) ++ optField "Repl" (Word.describe? repl))

def ArithExpr.describe : ArithExpr → Datum
  | .word w => .record "ArithWord" [("Word", w.describe)]
  | .binary _ op x y =>
    .record "ArithBinary" [("Op", .symbol op.text), ("X", x.describe), ("Y", y.describe)]
  | .unary _ op post x =>
    .record "ArithUnary" (("Op", .symbol op.text) :: boolField "Post" post ++ [("X", x.describe)])
  | .paren _ x => .record "ArithParen" [("X", x.describe)]
  | .ternary c x y =>
    .record "ArithTernary"
      (("Cond", c.describe) :: ("Then", x.describe) :: optField "Else" (ArithExpr.describe? y))

def ArithExpr.describe? : Option ArithExpr → Option Datum
  | none => none
  | some x => some x.describe

def TestExpr.describe : TestExpr → Datum
  | .word w => .record "TestWord" [("Word", w.describe)]
  | .binary _ op x y => .record "TestBinary" (textField "Op" op ++ [("X", x.describe), ("Y", y.describe)])
  | .unary _ op x => .record "TestUnary" (textField "Op" op ++ [("X", x.describe)])
  | .paren _ x => .record "TestParen" [("X", x.describe)]

def ArrayExpr.describe? : Option ArrayExpr → Option Datum
  | none => none
  | some ⟨_, elems⟩ => some (.record "ArrayExpr" (listField "Elems" (describeWords elems)))

def Assignment.describe : Assignment → Datum
  | ⟨_, name, index, append, naked, value, array⟩ =>
    .record "Assignment"
      (textField "Name" name ++ optField "Index" (Word.describe? index) ++ boolField "Append" append
        ++ boolField "Naked" naked ++ optField "Value" (Word.describe? value)
        ++ optField "Array" (ArrayExpr.describe? array))

def describeAssigns : List Assignment → List Datum
  | [] => []
  | a :: as => a.describe :: describeAssigns as

def HereDoc.describe? : Option HereDoc → Option Datum
  | none => none
  | some ⟨_, delim, quoted, strip, raw, body⟩ =>
    some (.record "HereDoc"
      (textField "Delim" delim ++ boolField "Quoted" quoted ++ boolField "StripTabs" strip
        ++ textField "Raw" raw ++ optField "Body" (Word.describe? body)))

def Redirect.describe : Redirect → Datum
  | ⟨_, op, n, word, doc⟩ =>
    .record "Redirect"
      (("Op", .symbol op.text) :: textField "N" n ++ [("Word", word.describe)]
        ++ optField "Hdoc" (HereDoc.describe? doc))

def describeRedirects : List Redirect → List Datum
  | [] => []
  | r :: rs => r.describe :: describeRedirects rs

def Block.describe : Block → Datum
  | ⟨_, items⟩ => .record "List" (listField "Items" (describeCommands items))

def Block.describe? : Option Block → Option Datum
  | none => none
  | some b => some b.describe

def describeCommands : List Command → List Datum
  | [] => []
  | c :: cs => c.describe :: describeCommands cs

def Elif.describe : Elif → Datum
  | ⟨_, cond, yes⟩ => .record "Elif" [("Cond", cond.describe), ("Then", yes.describe)]

def describeElifs : List Elif → List Datum
  | [] => []
  | e :: es => e.describe :: describeElifs es

def CaseItem.describe : CaseItem → Datum
  | ⟨patterns, body, term⟩ =>
    .record "CaseItem"
      (listField "Patterns" (describeWords patterns) ++ [("Body", body.describe), ("Term", .symbol term.text)])

def describeCases : List CaseItem → List Datum
  | [] => []
  | i :: is => i.describe :: describeCases is

def Command.describe : Command → Datum
  | .andOr _ op x y => .record "AndOr" [("Op", .symbol op.text), ("X", x.describe), ("Y", y.describe)]
  | .pipeline _ negated cmds stderr =>
    .record "Pipeline"
      (boolField "Negated" negated ++ listField "Cmds" (describeCommands cmds)
        ++ listField "Stderr" (stderr.map .bool))
  | .background x => .record "Background" [("X", x.describe)]
  | .simple assigns args redirs =>
    .record "SimpleCommand"
      (listField "Assigns" (describeAssigns assigns) ++ listField "Args" (describeWords args)
        ++ listField "Redirs" (describeRedirects redirs))
  | .declare _ variant opts assigns redirs =>
    .record "DeclClause"
      (textField "Variant" variant ++ listField "Opts" (describeWords opts)
        ++ listField "Assigns" (describeAssigns assigns) ++ listField "Redirs" (describeRedirects redirs))
  | .ifThen _ cond yes elifs no =>
    .record "IfClause"
      (("Cond", cond.describe) :: ("Then", yes.describe) :: listField "Elifs" (describeElifs elifs)
        ++ optField "Else" (Block.describe? no))
  | .loop _ untilTrue cond body =>
    .record "WhileClause" (boolField "Until" untilTrue ++ [("Cond", cond.describe), ("Body", body.describe)])
  | .forIn _ name _ hasIn items body =>
    .record "ForClause"
      (textField "Name" name ++ boolField "In" hasIn ++ listField "Items" (describeWords items)
        ++ [("Body", body.describe)])
  | .forArith _ start cond post body =>
    .record "ArithForClause"
      (optField "Init" (ArithExpr.describe? start) ++ optField "Cond" (ArithExpr.describe? cond)
        ++ optField "Post" (ArithExpr.describe? post) ++ [("Body", body.describe)])
  | .select _ name _ hasIn items body =>
    .record "SelectClause"
      (textField "Name" name ++ boolField "In" hasIn ++ listField "Items" (describeWords items)
        ++ [("Body", body.describe)])
  | .caseOf _ word items =>
    .record "CaseClause" (("Word", word.describe) :: listField "Items" (describeCases items))
  | .function _ name keyword parens body =>
    .record "FuncDecl"
      (textField "Name" name ++ boolField "Keyword" keyword ++ boolField "Parens" parens
        ++ [("Body", body.describe)])
  | .subshell _ body => .record "Subshell" [("Body", body.describe)]
  | .group _ body => .record "Group" [("Body", body.describe)]
  | .arith _ x => .record "ArithCmd" [("X", x.describe)]
  | .test _ x => .record "TestClause" [("X", x.describe)]
  | .redirected x redirs =>
    .record "Redirected" (("X", x.describe) :: listField "Redirs" (describeRedirects redirs))

end

def Header.describe (h : Header) : Datum :=
  .record "Metadata"
    (textField "Shebang" h.shebang ++ textField "Version" h.version ++ textField "Author" h.author
      ++ textField "Description" h.description ++ listField "Dependencies" (h.dependencies.map .text)
      ++ (if h.others.isEmpty then [] else [("Headers", .table (h.others.map fun t => (t.1, .text t.2)))]))

def File.describe (f : File) : Datum :=
  .record "File"
    (textField "Name" f.name ++ (if f.dialect == .bash then [] else [("Dialect", .symbol f.dialect.name)])
      ++ [("Body", f.body.describe), ("Meta", f.header.describe)])

def Block.outline (b : Block) : String := Datum.outline 0 b.describe

def File.outline (f : File) : String := Datum.outline 0 f.describe

end Script
end ShellScript

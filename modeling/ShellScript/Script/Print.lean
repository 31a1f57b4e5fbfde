import ShellScript.Script.Word
import ShellScript.Script.Node
import ShellScript.Script.Read

-- Writing a tree as text: one command per line, bodies indented by tabs. Inside substitutions and conditions
-- everything stands on one line.
namespace ShellScript
namespace Script

structure Printer where
  out : String := ""
  indent : Nat := 0
  -- how many one-line lists surround the current point
  inline : Nat := 0
  -- here-documents whose bodies follow the current line
  docs : List (String × String) := []

abbrev Printing := StateM Printer

namespace Printer

def str (s : String) : Printing Unit := modify fun p => { p with out := p.out ++ s }

-- Ends the line, writes the bodies of its here-documents, and indents the next line.
def newline : Printing Unit := modify fun p =>
  let docs := p.docs.map fun d => d.1 ++ d.2 ++ "\n"
  { p with out := p.out ++ "\n" ++ String.join docs ++ Text.replicate p.indent "\t", docs := [] }

def indented (x : Printing Unit) : Printing Unit := do
  modify fun p => { p with indent := p.indent + 1 }
  x
  modify fun p => { p with indent := p.indent - 1 }

def inlined (x : Printing Unit) : Printing Unit := do
  modify fun p => { p with inline := p.inline + 1 }
  x
  modify fun p => { p with inline := p.inline - 1 }

def isInline : Printing Bool := return (← get).inline > 0

-- What a printer writes from a fresh start.
def fresh (x : Printing Unit) : String := (x.run {}).2.out

-- Writes real lines inside whatever surrounds them.
def outOfLine (x : Printing Unit) : Printing Unit := do
  let saved ← get
  set { saved with inline := 0, docs := [] }
  x
  modify fun p => { saved with out := p.out }

end Printer

open Printer

def Command.isBackground : Command → Bool
  | .background _ => true
  | _ => false

-- The separator after a command on the same line.
def separator (c : Command) : String := if c.isBackground then " " else "; "

mutual

def Word.print : Word → Printing Unit
  | ⟨parts⟩ => printParts false parts

def printOptWord : Option Word → Printing Unit
  | none => pure ()
  | some w => w.print

-- Words, each after a space.
def printSpaced : List Word → Printing Unit
  | [] => pure ()
  | w :: ws => do
    str " "
    w.print
    printSpaced ws

-- Words with a separator before all but the first.
def printJoined (sep : String) (first : Bool) : List Word → Printing Unit
  | [] => pure ()
  | w :: ws => do
    unless first do str sep
    w.print
    printJoined sep false ws

def printParts (inDouble : Bool) : List WordPart → Printing Unit
  | [] => pure ()
  | p :: ps => do
    p.print inDouble
    printParts inDouble ps

def WordPart.print (inDouble : Bool) : WordPart → Printing Unit
  | .lit _ s => str s
  | .single _ dollar s => str ((if dollar then "$" else "") ++ "'" ++ s ++ "'")
  | .double _ dollar ps => do
    str (if dollar then "$\"" else "\"")
    printParts true ps
    str "\""
  | .param _ x => x.print
  | .command _ body backquote =>
    if backquote then
      let inner := fresh body.printSub
      str (String.ofList (Text.backquote :: escapeBackquote inDouble inner.toList ++ [Text.backquote]))
    else do
      str "$("
      body.printSub
      str ")"
  | .arith _ x => do
    str "$(("
    printOptArith x
    str "))"
  | .brace _ sequence ws => do
    str "\x7b"
    printJoined (if sequence then ".." else ",") true ws
    str "\x7d"
  | .process _ write body => do
    str (if write then ">(" else "<(")
    body.printSub
    str ")"

def ParamExp.print : ParamExp → Printing Unit
  | ⟨short, name, length, indirect, names, index, op, arg, repl⟩ =>
    if short then str ("$" ++ name)
    else do
      str ("$\x7b" ++ (if length then "#" else if indirect then "!" else "") ++ name)
      match names with
      | some c => str (String.ofList [c])
      | none => pure ()
      printIndex index
      match op with
      | none => pure ()
      | some op => do
        str op.text
        printOptWord arg
        printRepl (if op == .slice then ":" else "/") repl
      str "\x7d"

def printIndex : Option Word → Printing Unit
  | none => pure ()
  | some w => do
    str "["
    w.print
    str "]"

def printRepl (sep : String) : Option Word → Printing Unit
  | none => pure ()
  | some w => do
    str sep
    w.print

def ArithExpr.print : ArithExpr → Printing Unit
  | .word w => w.print
  | .binary _ op x y => do
    x.print
    str (if op == .comma then ", " else " " ++ op.text ++ " ")
    y.print
  | .unary _ op post x =>
    if post then do
      x.print
      str op.text
    else do
      str op.text
      -- two signs must not run together
      match x with
      | .unary _ inner false _ => if op.isSign && inner.isSign then str " "
      | _ => pure ()
      x.print
  | .paren _ x => do
    str "("
    x.print
    str ")"
  | .ternary c x y => do
    c.print
    str " ? "
    x.print
    str " : "
    printOptArith y

def printOptArith : Option ArithExpr → Printing Unit
  | none => pure ()
  | some x => x.print

def TestExpr.print : TestExpr → Printing Unit
  | .word w => w.print
  | .binary _ op x y => do
    x.print
    str (" " ++ op ++ " ")
    y.print
  | .unary _ op x => do
    str (op ++ " ")
    x.print
  | .paren _ x => do
    str "( "
    x.print
    str " )"

def Assignment.print : Assignment → Printing Unit
  | ⟨_, name, index, append, naked, value, array⟩ => do
    str name
    printIndex index
    unless naked do
      str (if append then "+=" else "=")
      match array with
      | some ⟨_, elems⟩ => do
        str "("
        printJoined " " true elems
        str ")"
      | none => printOptWord value

-- Assignments with a space before all but the first.
def printAssigns (first : Bool) : List Assignment → Printing Unit
  | [] => pure ()
  | a :: as => do
    unless first do str " "
    a.print
    printAssigns false as

def Redirect.print : Redirect → Printing Unit
  | ⟨_, op, n, word, doc⟩ => do
    str (n ++ op.text)
    word.print
    match doc with
    | some ⟨_, delim, _, _, raw, _⟩ => modify fun p => { p with docs := p.docs ++ [(raw, delim)] }
    | none => pure ()

def printRedirects (first : Bool) : List Redirect → Printing Unit
  | [] => pure ()
  | r :: rs => do
    unless first do str " "
    r.print
    printRedirects false rs

-- The commands of a one-line list.
def printInline : List Command → Printing Unit
  | [] => pure ()
  | [c] => c.print
  | c :: cs => do
    c.print
    str (separator c)
    printInline cs

-- Commands, each on a new line.
def printLines : List Command → Printing Unit
  | [] => pure ()
  | c :: cs => do
    newline
    c.print
    printLines cs

def Block.printInlineList : Block → Printing Unit
  | ⟨_, items⟩ => inlined (printInline items)

-- The body of a compound command: indented lines, or on one line with a separator at the end.
def Block.printBody : Block → Printing Unit
  | ⟨_, items⟩ => do
    if ← isInline then
      str " "
      match items.getLast? with
      | some c => do
        inlined (printInline items)
        str (separator c)
      | none => pure ()
    else
      indented (printLines items)
      newline

-- The body of a substitution. One with here-documents needs real lines; a subshell at its front must not
-- touch the opening parenthesis.
def Block.printSub : Block → Printing Unit
  | ⟨start, items⟩ =>
    if items.isEmpty then pure ()
    else if (Block.mk start items).hasHereDoc then
      outOfLine do
        printLines items
        newline
    else
      let s := fresh (inlined (printInline items))
      str (if Text.hasPrefix s "(" then " " ++ s else s)

def printElifs : List Elif → Printing Unit
  | [] => pure ()
  | ⟨_, cond, yes⟩ :: es => do
    str "elif "
    cond.printInlineList
    str "; then"
    yes.printBody
    printElifs es

def printOptElse : Option Block → Printing Unit
  | none => pure ()
  | some b => do
    str "else"
    b.printBody

def printCasesInline : List CaseItem → Printing Unit
  | [] => pure ()
  | ⟨patterns, ⟨_, items⟩, term⟩ :: is => do
    str " "
    printJoined " | " true patterns
    str ")"
    unless items.isEmpty do
      str " "
      inlined (printInline items)
    str (" " ++ term.text)
    printCasesInline is

def printCases : List CaseItem → Printing Unit
  | [] => pure ()
  | ⟨patterns, ⟨_, items⟩, term⟩ :: is => do
    newline
    printJoined " | " true patterns
    str ")"
    indented do
      printLines items
      newline
      str term.text
    printCases is

def printStages : List Command → List Bool → Printing Unit
  | [], _ => pure ()
  | [c], _ => c.print
  | c :: cs, es => do
    c.print
    str (if es.headD false then " |& " else " | ")
    printStages cs (es.drop 1)

def Command.print : Command → Printing Unit
  | .simple assigns args redirs => do
    printAssigns true assigns
    printJoined " " assigns.isEmpty args
    printRedirects (assigns.isEmpty && args.isEmpty) redirs
  | .declare _ variant opts assigns redirs => do
    str variant
    printSpaced opts
    printAssigns false assigns
    printRedirects false redirs
  | .andOr _ op x y => do
    x.print
    str (" " ++ op.text ++ " ")
    y.print
  | .pipeline _ negated cmds stderr => do
    if negated then str "! "
    printStages cmds stderr
  | .background x => do
    x.print
    str " &"
  | .ifThen _ cond yes elifs no => do
    str "if "
    cond.printInlineList
    str "; then"
    yes.printBody
    printElifs elifs
    printOptElse no
    str "fi"
  | .loop _ untilTrue cond body => do
    str (if untilTrue then "until " else "while ")
    cond.printInlineList
    str "; do"
    body.printBody
    str "done"
  | .forIn _ name _ hasIn items body => do
    str ("for " ++ name)
    if hasIn then
      str " in"
      printSpaced items
    str "; do"
    body.printBody
    str "done"
  | .select _ name _ hasIn items body => do
    str ("select " ++ name)
    if hasIn then
      str " in"
      printSpaced items
    str "; do"
    body.printBody
    str "done"
  | .forArith _ x y z body => do
    str "for (("
    printOptArith x
    str "; "
    printOptArith y
    str "; "
    printOptArith z
    str ")); do"
    body.printBody
    str "done"
  | .caseOf _ word items => do
    str "case "
    word.print
    str " in"
    if ← isInline then
      printCasesInline items
      str " esac"
    else
      indented (printCases items)
      newline
      str "esac"
  | .function _ name keyword parens body => do
    str ((if keyword then "function " else "") ++ name ++ (if parens || !keyword then "()" else "") ++ " ")
    body.print
  | .subshell _ body => do
    if ← isInline then
      str "( "
      body.printInlineList
      str " )"
    else
      str "("
      body.printBody
      str ")"
  | .group _ body => do
    str "\x7b"
    body.printBody
    str "\x7d"
  | .arith _ x => do
    str "(("
    x.print
    str "))"
  | .test _ x => do
    str "[[ "
    x.print
    str " ]]"
  | .redirected x redirs => do
    x.print
    printRedirects false redirs

end

-- The commands of a script, one per line.
def printTop : List Command → Printing Unit
  | [] => pure ()
  | c :: cs => do
    c.print
    newline
    printTop cs

def Block.text (b : Block) : String := fresh (printTop b.items)

def Word.text (w : Word) : String := fresh w.print

-- A tag's line; a tag without a value is left out.
def tagLine (tag : String × String) : String :=
  if tag.2.isEmpty then "" else "# @" ++ tag.1 ++ ": " ++ tag.2 ++ "\n"

-- A dependency that the splitter would not read back is put between single quotes.
def quoteDependency (d : String) : String :=
  if d.toList.any (fun c => c == ' ' || c == '\t' || c == '\'' || c == '"' || c == '\\') then
    "'" ++ Text.replaceChar '\'' ['\'', '\\', '\'', '\''] d ++ "'"
  else d

def Header.text (h : Header) : String :=
  let tags :=
    [("Version", h.version), ("Author", h.author), ("Description", h.description)]
      ++ (h.dependencies.map fun d => ("Dependency", quoteDependency d)) ++ h.others
  let lines := (if h.shebang.isEmpty then "" else h.shebang ++ "\n") ++ String.join (tags.map tagLine)
  if lines.isEmpty then "" else lines ++ "\n"

def File.text (f : File) : String := f.header.text ++ f.body.text

-- The text of a single node; nodes that cannot stand alone have none.
def Node.text : Node → String
  | .block b => b.text
  | .command c => fresh do
    c.print
    newline
  | .word w => w.text
  | .part p => fresh (p.print false)
  | .arith x => fresh x.print
  | .test x => fresh x.print
  | .redirect r => fresh do
    r.print
    newline
  | .assignment a => fresh a.print
  | .elif _ | .caseItem _ | .hereDoc _ | .array _ => ""

end Script
end ShellScript

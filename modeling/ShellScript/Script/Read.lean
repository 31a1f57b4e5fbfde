import ShellScript.Script.Read.Command
import ShellScript.Text.Quoted

-- Reading a whole script.
namespace ShellScript
namespace Script
namespace Read

-- The expression of a `[[ ... ]]` command.

def testUnaryOps : List String :=
  ["-a", "-b", "-c", "-d", "-e", "-f", "-g", "-h", "-k", "-p", "-r", "-s", "-t", "-u", "-w", "-x", "-G", "-L",
    "-N", "-O", "-S", "-z", "-n", "-v", "-o", "-R"]

-- Those that are words; `<` and `>` are operators of their own.
def testBinaryOps : List String :=
  ["==", "=", "!=", "=~", "-eq", "-ne", "-lt", "-le", "-gt", "-ge", "-nt", "-ot", "-ef"]

def atTestEnd (t : Token) : Bool := t.kind == .eof || isKeyword ["]]"] t

-- The word that can be an operator between two operands.
def testOperator? (t : Token) : Option String :=
  match t.kind with
  | .less => some "<"
  | .great => some ">"
  | .word => if !t.quoted && testBinaryOps.contains t.text then some t.text else none
  | _ => none

-- A test that begins with a word: a unary operator with its operand, a comparison, or the word alone.
def testWords (s : Setting) (parts : PartsReader) (first : Token) : Parse TestExpr := do
  next
  let t ← cur
  if !first.quoted && testUnaryOps.contains first.text && t.kind == .word && !atTestEnd t
      && !testBinaryOps.contains t.text then
    let w ← wordOf parts t
    next
    return .unary first.pos first.text (.word w)
  let x ← wordOf parts first
  match testOperator? t with
  | none => return .word x
  | some op =>
    next
    let u ← cur
    if u.kind != .word || atTestEnd u then
      fail s u.pos ("expected an operand after " ++ Text.quoted op ++ ", found " ++ describe u)
    let y ← wordOf parts u
    next
    return .binary t.pos op (.word x) (.word y)

-- A further operand after an operator.
def testLink? (op : Token.Kind) (operand : Parse TestExpr) : Parse (Option (Position × TestExpr)) := do
  let t ← cur
  if t.kind == op then
    next
    skipNewlines
    let y ← operand
    return some (t.pos, y)
  else return none

-- Operands with an operator between any two. They group to the left.
def testChain (op : Token.Kind) (operand : Parse TestExpr) : Parse TestExpr := do
  let x ← operand
  let others ← many (testLink? op operand)
  return others.foldl (fun x (p, y) => .binary p op.text x y) x

-- A test without `&&` and `||` outside parentheses; it has tests inside down to a depth of `n`.
def testOperand (s : Setting) (parts : PartsReader) : Nat → Parse TestExpr
  | 0 => failure
  | n + 1 => do
    let t ← cur
    if t.kind == .word && t.text == "!" && !t.quoted then
      next
      let x ← testOperand s parts n
      return .unary t.pos "!" x
    else if t.kind == .lparen then
      next
      let x ← testChain .or (testChain .and (testOperand s parts n))
      let u ← cur
      if u.kind != .rparen then fail s u.pos ("expected \")\" in [[ expression, found " ++ describe u)
      next
      return .paren t.pos x
    else if t.kind != .word || atTestEnd t then
      fail s t.pos ("unexpected " ++ describe t ++ " in [[ expression")
    else testWords s parts t

def testClause (s : Setting) (parts : PartsReader) : Parse Command := do
  let start := (← cur).pos
  warn s .extendedTest start
  next
  if atTestEnd (← cur) then fail s start "empty [[ expression"
  let x ← testChain .or (testChain .and (testOperand s parts (← left)))
  expect s "]]" "[[" start
  return .test start x

-- Commands.

def command (s : Setting) (parts : PartsReader) (inner : Inner) : Parse Command := do
  let t ← cur
  if t.kind == .word && t.keyword then
    let cmd ← match t.text with
      | "if" => ifClause s inner
      | "while" => whileClause s inner
      | "until" => whileClause s inner
      | "for" => forClause s parts inner
      | "select" => selectClause s parts inner
      | "case" => caseClause s parts inner
      | "function" => functionKeyword s parts inner
      | "\x7b" => group s inner
      | "[[" => testClause s parts
      | _ => fail s t.pos ("unexpected keyword " ++ Text.quoted t.text)
    withRedirects s parts cmd
  else if t.kind == .lparen then withRedirects s parts (← subshell s inner)
  else if t.kind == .arith then withRedirects s parts (← arithCommand s parts)
  else if t.kind == .word || isRedirection t then simpleCommand s parts inner
  else fail s t.pos ("unexpected " ++ describe t)

-- A further stage after a bar, and whether the bar is `|&`.
def stage? (cmd : Parse Command) : Parse (Option (Bool × Command)) := do
  let t ← cur
  if t.kind == .pipe || t.kind == .pipeAll then
    next
    skipNewlines
    let c ← cmd
    return some (t.kind == .pipeAll, c)
  else return none

-- A single command that is not negated is no pipeline.
def pipeline (cmd : Parse Command) : Parse Command := do
  let t ← cur
  let negated := isKeyword ["!"] t
  if negated then next
  let first ← cmd
  let rest ← many (stage? cmd)
  if rest.isEmpty && !negated then return first
  return .pipeline (if negated then t.pos else {}) negated (first :: rest.map Prod.snd) (rest.map Prod.fst)

-- A further pipeline after `&&` or `||`.
def link? (cmd : Parse Command) : Parse (Option (Position × Connective × Command)) := do
  let t ← cur
  if t.kind == .and || t.kind == .or then
    next
    skipNewlines
    let y ← pipeline cmd
    return some (t.pos, if t.kind == .and then .and else .or, y)
  else return none

-- Chains group to the left.
def andOr (cmd : Parse Command) : Parse Command := do
  let x ← pipeline cmd
  let links ← many (link? cmd)
  return links.foldl (fun x (p, op, y) => .andOr p op x y) x

-- The next command, if its text is in order; `none` at the end of the text or at a token that `stop` accepts.
def item? (s : Setting) (cmd : Parse Command) (stop : Token → Bool) : Scanning (Option (Option Command)) := do
  skipNewlines
  let t ← cur
  if t.kind == .eof || stop t then return none
  match ← (andOr cmd).run with
  | none =>
    recover
    return some none
  | some x =>
    let t ← cur
    let x := if t.kind == .amp then Command.background x else x
    if t.kind == .amp || t.kind == .semi || t.kind == .newline then next
    else if t.kind == .eof || stop t then pure ()
    else
      words (s.report t.pos ("unexpected " ++ describe t))
      recover
    return some (some x)

-- The commands up to the end of the text or a token that `stop` accepts.
def block (s : Setting) (cmd : Parse Command) (stop : Token → Bool) : Scanning Block := do
  let start := (← cur).pos
  let items ← listFor (item? s cmd stop) (← left)
  return { start, items := items.filterMap id }

-- The readers at a nesting depth of at most `n` commands.
def inner (s : Setting) (parts : PartsReader) : Nat → Inner
  | 0 => { block := fun _ => return default, command := failure }
  | n + 1 =>
    { block := fun stop => block s (command s parts (inner s parts n)) stop
      command := command s parts (inner s parts n) }

def settle (ds : List Diagnostic.OfText) : List Diagnostic.OfText :=
  Text.compact (ds.mergeSort fun a b => Diagnostic.order a.1 b.1 != .gt)

-- Every command of a text that begins at `p`, and what is wrong with the text, in order.
def textAt (s : Setting) (parts : PartsReader) (p : Position) (cs : List Char) :
    Block × List Diagnostic.OfText :=
  let (toks, lexical) := Token.scanText s.dialect s.file p cs
  let (_, toks) := significant 0 toks
  let (b, c) := ((inner s parts (toks.length + 1)).block fun _ => false).run { toks }
  (b, settle (lexical ++ c.diags.toList))

-- The readers of nested text at a depth of at most `n`.
def nested (s : Setting) : Nat → Nested
  | 0 => { parts := fun _ _ _ => pure [], block := fun _ _ => pure default }
  | n + 1 =>
    { parts := fun mode p cs => parts s (nested s n) mode p cs
      block := fun p cs => do
        let (b, ds) := textAt s (parts s (nested s n)) p cs
        modify (· ++ ds.toArray)
        return b }

end Read

-- The header of a script: its interpreter line and the `@Key: value` tags of the comments before its first
-- command.
structure Header where
  shebang : String := ""
  version : String := ""
  author : String := ""
  description : String := ""
  dependencies : List String := []
  -- all other tags, by key
  others : List (String × String) := []
deriving Repr, DecidableEq, Inhabited

namespace Header

-- Keys stay sorted; a later value replaces an earlier one.
def insertTag (key value : String) : List (String × String) → List (String × String)
  | [] => [(key, value)]
  | (k, v) :: rest =>
    match Text.compare key k with
    | .lt => (key, value) :: (k, v) :: rest
    | .eq => (key, value) :: rest
    | .gt => (k, v) :: insertTag key value rest

def addTag (h : Header) (comment : String) : Header :=
  match comment.toList with
  | '@' :: rest =>
    match Text.cut? ':' (String.ofList rest) with
    | none => h
    | some (key, value) =>
      let key := Text.trim key
      let value := Text.trim value
      if key == "Version" then { h with version := value }
      else if key == "Author" then { h with author := value }
      else if key == "Description" then { h with description := value }
      else if key == "Dependency" then
        let names := match Text.shellWords value with
          | .ok ws => ws
          | .error _ => Text.fields value
        { h with dependencies := h.dependencies ++ names }
      else if key.isEmpty then h
      else { h with others := insertTag key value h.others }
  | _ => h

def ofLines : Bool → Header → List String → Header
  | _, h, [] => h
  | first, h, line :: lines =>
    let line := Text.trim line
    if first && Text.hasPrefix line "#!" then ofLines false { h with shebang := line } lines
    else if line.isEmpty then ofLines false h lines
    else if Text.hasPrefix line "#" then
      ofLines false (h.addTag (Text.trim (Text.trimLeftChars (· == '#') line))) lines
    else h

def ofSource (src : String) : Header := ofLines true {} (Text.splitAt '\n' src)

end Header

-- A script that has been read.
structure File where
  name : String
  dialect : Dialect
  body : Block
  header : Header
  found : List Diagnostic.OfText

namespace File

-- What is wrong with the script.
def diags (f : File) : List Diagnostic := f.found.map Subtype.val

def isFatal (f : File) : Bool := Diagnostic.anyFatal f.diags

end File

open Read in
-- Reads a text whose dialect is known. Nested text is always shorter, so the length bounds the depth.
def readAs (d : Dialect) (name src : String) : File :=
  let s : Setting := { dialect := d, file := name }
  let cs := src.toList
  let (body, found) := textAt s (parts s (nested s (cs.length + 1))) Position.start cs
  { name, dialect := d, body, header := Header.ofSource src, found }

-- The diagnostic for a script in a shell that cannot be read.
def unsupportedDialect (name : String) (e : Dialect.Unsupported) : Diagnostic.OfText :=
  ⟨{ Diagnostic.ofKind .unsupportedFeature name 1 1 e.message with
     hint := match e.suggestion with
       | some s => "did you mean " ++ s ++ "?"
       | none => "" }, rfl⟩

-- Reads a text in the given dialect, or else in the one that it or its name asks for.
def read (dialect : Option Dialect) (name src : String) : File :=
  match dialect with
  | some d => readAs d name src
  | none =>
    match Dialect.detect name src with
    | .ok d => readAs (d.getD .bash) name src
    | .error e =>
      { name, dialect := .bash, body := { start := Position.start, items := [] }, header := Header.ofSource src,
        found := [unsupportedDialect name e] }

end Script
end ShellScript

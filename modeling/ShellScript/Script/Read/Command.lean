import ShellScript.Script.Read.Word
import ShellScript.Script.Word
import ShellScript.Token.Scan

-- Reading commands from tokens. A reader that fails has reported why and leaves the tokens where it stopped.
namespace ShellScript
namespace Script
namespace Read

structure Cursor where
  -- the token under the cursor and those after it; the last is the end of the text
  toks : List Token
  -- here-documents whose bodies have not been passed yet
  pending : Nat := 0
  diags : Array Diagnostic.OfText := #[]

abbrev Scanning := StateM Cursor

abbrev Parse := OptionT Scanning

-- Drops comments and here-document bodies in front of the next token.
def significant : Nat → List Token → Nat × List Token
  | pending, [] => (pending, [])
  | pending, t :: ts =>
    match t.kind with
    | .comment => significant pending ts
    | .hereDoc => significant (pending - 1) ts
    | _ => (pending, t :: ts)

def endOfText : Token := { kind := .eof, text := "", pos := {} }

def cur : Scanning Token := return (← get).toks.headD endOfText

-- At the end of the text the cursor stays.
def next : Scanning Unit := modify fun c =>
  match c.toks with
  | _ :: t :: ts =>
    let (pending, toks) := significant c.pending (t :: ts)
    { c with toks, pending }
  | _ => c

-- Runs a reader of words.
def words {α : Type} (r : Reading α) : Scanning α := modifyGet fun c =>
  let (a, diags) := r.run c.diags
  (a, { c with diags })

-- A token as messages name it.
def describe (t : Token) : String :=
  match t.kind with
  | .word | .comment | .ioNumber | .illegal | .hereDoc | .arith =>
    t.kind.text ++ "(" ++ Text.quoted t.text ++ ")"
  | k => k.text

def fail {α : Type} (s : Setting) (p : Position) (message : String) : Parse α := do
  words (s.report p message)
  failure

def warn (s : Setting) (f : Feature) (p : Position) : Scanning Unit :=
  match s.missing? f p with
  | some d => modify fun c => { c with diags := c.diags.push d }
  | none => pure ()

def isKeyword (names : List String) (t : Token) : Bool :=
  t.kind == .word && t.keyword && names.contains t.text

-- A bound on the number of turns that each take a token.
def left : Scanning Nat := return (← get).toks.length + 1

def newline? : Scanning (Option Unit) := do
  if (← cur).kind == .newline then
    next
    return some ()
  else return none

def skipNewlines : Scanning Unit := do discard (listFor newline? (← left))

-- The results of turns up to the first that gives none.
def many {α : Type} (turn : Parse (Option α)) : Parse (List α) := do listFor turn (← left)

-- Passes the keyword that closes or continues the construct begun at `start`.
def expect (s : Setting) (keyword construct : String) (start : Position) : Parse Unit := do
  let t ← cur
  if isKeyword [keyword] t then next
  else if t.kind == .eof then
    fail s start ("unterminated " ++ construct ++ " (missing " ++ Text.quoted keyword ++ ")")
  else
    fail s t.pos ("expected " ++ Text.quoted keyword ++ " in " ++ construct ++ ", found " ++ describe t)

-- One more token to be skipped after an error.
def skipped? : Scanning (Option Unit) := do
  let t ← cur
  if t.kind == .eof then return none
  else if t.kind == .semi || t.kind == .newline || t.kind == .amp then
    next
    return none
  else if isKeyword ["then", "do", "done", "fi", "elif", "else", "esac", "\x7d"] t then return none
  else
    next
    return some ()

-- After an error: skips to the next separator or block keyword.
def recover : Scanning Unit := do
  next
  discard (listFor skipped? (← left))

-- The readers of commands inside a command; each such command has fewer tokens left.
structure Inner where
  block : (Token → Bool) → Scanning Block
  command : Parse Command

def wordOf (parts : PartsReader) (t : Token) : Scanning Word := do
  return ⟨← words (parts .unquoted t.pos t.text.toList)⟩

def isRedirection (t : Token) : Bool := t.kind == .ioNumber || t.kind.isRedirection

-- The body that the lines to come hold for a here-document announced now: earlier ones are served first.
def upcomingDoc : Scanning (Option Token) := do
  let c ← get
  return ((c.toks.drop 1).filter (·.kind == .hereDoc))[c.pending]?

def hereDoc (parts : PartsReader) (delim : Token) (strip : Bool) : Scanning HereDoc := do
  let doc : HereDoc :=
    { pos := {}, delim := String.ofList (Token.Scanner.unquoteDelim delim.text.toList), quoted := delim.quoted,
      stripTabs := strip, raw := "", body := none }
  let found ← upcomingDoc
  modify fun c => { c with pending := c.pending + 1 }
  match found with
  | none => return doc
  | some t =>
    let doc := { doc with pos := t.pos, raw := t.text }
    if doc.quoted then return doc
    return { doc with body := some ⟨← words (parts .hereDoc t.pos t.text.toList)⟩ }

def redirect (s : Setting) (parts : PartsReader) : Parse Redirect := do
  let first ← cur
  let n := if first.kind == .ioNumber then first.text else ""
  if first.kind == .ioNumber then next
  let op ← cur
  next
  let t ← cur
  if t.kind != .word then
    fail s t.pos ("expected a word after " ++ op.kind.text ++ ", found " ++ describe t)
  let word ← wordOf parts t
  let doc ←
    if op.kind == .dless || op.kind == .dlessDash then some <$> hereDoc parts t (op.kind == .dlessDash)
    else pure none
  next
  return { opPos := op.pos, op := op.kind, n, word, doc }

def redirect? (s : Setting) (parts : PartsReader) : Parse (Option Redirect) := do
  if isRedirection (← cur) then return some (← redirect s parts) else return none

-- The redirections after a compound command.
def withRedirects (s : Setting) (parts : PartsReader) (cmd : Command) : Parse Command := do
  let rs ← many (redirect? s parts)
  return if rs.isEmpty then cmd else .redirected cmd rs

def elif? (s : Setting) (inner : Inner) (start : Position) : Parse (Option Elif) := do
  let t ← cur
  if isKeyword ["elif"] t then
    next
    let cond ← inner.block (isKeyword ["then"])
    expect s "then" "if" start
    let yes ← inner.block (isKeyword ["elif", "else", "fi"])
    return some { pos := t.pos, cond, yes }
  else return none

def ifClause (s : Setting) (inner : Inner) : Parse Command := do
  let start := (← cur).pos
  next
  let cond ← inner.block (isKeyword ["then"])
  expect s "then" "if" start
  let yes ← inner.block (isKeyword ["elif", "else", "fi"])
  let elifs ← many (elif? s inner start)
  let no ←
    if isKeyword ["else"] (← cur) then do
      next
      some <$> inner.block (isKeyword ["fi"])
    else pure none
  expect s "fi" "if" start
  return .ifThen start cond yes elifs no

def loopBody (s : Setting) (inner : Inner) (construct : String) (start : Position) : Parse Block := do
  expect s "do" construct start
  let body ← inner.block (isKeyword ["done"])
  expect s "done" construct start
  return body

def whileClause (s : Setting) (inner : Inner) : Parse Command := do
  let t ← cur
  next
  let cond ← inner.block (isKeyword ["do"])
  let body ← loopBody s inner t.text t.pos
  return .loop t.pos (t.text == "until") cond body

def word? (parts : PartsReader) : Parse (Option Word) := do
  let t ← cur
  if t.kind == .word then
    let w ← wordOf parts t
    next
    return some w
  else return none

-- `name [in words...]` and the separator after it.
def loopHead (s : Setting) (parts : PartsReader) (construct : String) :
    Parse (String × Position × Bool × List Word) := do
  let t ← cur
  if t.kind != .word || !Text.isName t.text then
    fail s t.pos ("expected a variable name after " ++ Text.quoted construct ++ ", found " ++ describe t)
  next
  skipNewlines
  let u ← cur
  if u.kind == .word && u.text == "in" then
    next
    let items ← many (word? parts)
    let sep ← cur
    if sep.kind != .semi && sep.kind != .newline then
      fail s sep.pos ("unexpected " ++ describe sep ++ " in " ++ construct ++ " word list")
    next
    skipNewlines
    return (t.text, t.pos, true, items)
  else
    if u.kind == .semi then next
    skipNewlines
    return (t.text, t.pos, false, [])

-- The text of a `((...))` command begins two characters after the token.
def arithStart (t : Token) : Position := ⟨t.pos.offset + 2, t.pos.line, t.pos.column + 2⟩

-- The expressions of an arithmetic loop's head; `none` when there are too few. What follows the last is
-- ignored.
def forHeads (s : Setting) (parts : PartsReader) :
    Nat → Position → List Char → Reading (Option (List (Option ArithExpr)))
  | 0, _, _ => pure (some [])
  | n + 1, p, cs => do
    match splitTop? s.dialect ';' cs with
    | some (a, b) =>
      let x ← arithText s parts p a
      let rest ← forHeads s parts n (p.advance (a ++ [';'])) b
      return rest.map (x :: ·)
    | none =>
      let x ← arithText s parts p cs
      return if n == 0 then some [x] else none

def arithFor (s : Setting) (parts : PartsReader) (inner : Inner) (start : Position) : Parse Command := do
  warn s .arithFor start
  let t ← cur
  match ← OptionT.lift (words (forHeads s parts 3 (arithStart t) t.text.toList)) with
  | some [x, y, z] =>
    next
    if (← cur).kind == .semi then next
    skipNewlines
    let body ← loopBody s inner "for" start
    return .forArith start x y z body
  | _ => fail s t.pos "arithmetic for loop needs three expressions"

def forClause (s : Setting) (parts : PartsReader) (inner : Inner) : Parse Command := do
  let start := (← cur).pos
  next
  if (← cur).kind == .arith then arithFor s parts inner start
  else
    let (name, namePos, hasIn, items) ← loopHead s parts "for"
    let body ← loopBody s inner "for" start
    return .forIn start name namePos hasIn items body

def selectClause (s : Setting) (parts : PartsReader) (inner : Inner) : Parse Command := do
  let start := (← cur).pos
  warn s .selectLoop start
  next
  let (name, namePos, hasIn, items) ← loopHead s parts "select"
  let body ← loopBody s inner "select" start
  return .select start name namePos hasIn items body

def caseTerm? (t : Token) : Option CaseTerm :=
  match t.kind with
  | .dsemi => some .stop
  | .semiAmp => some .fallThrough
  | .dsemiAmp => some .testNext
  | _ => none

def pattern (s : Setting) (parts : PartsReader) : Parse Word := do
  let t ← cur
  if t.kind != .word then fail s t.pos ("expected a case pattern, found " ++ describe t)
  let w ← wordOf parts t
  next
  return w

-- A further pattern after a bar.
def pattern? (s : Setting) (parts : PartsReader) : Parse (Option Word) := do
  if (← cur).kind == .pipe then
    next
    return some (← pattern s parts)
  else return none

def caseItem (s : Setting) (parts : PartsReader) (inner : Inner) : Parse CaseItem := do
  if (← cur).kind == .lparen then next
  let first ← pattern s parts
  let others ← many (pattern? s parts)
  let patterns := first :: others
  let t ← cur
  if t.kind != .rparen then fail s t.pos ("expected \")\" after case pattern, found " ++ describe t)
  next
  let body ← inner.block fun t => (caseTerm? t).isSome || isKeyword ["esac"] t
  match caseTerm? (← cur) with
  | some term =>
    next
    return { patterns, body, term }
  | none => return { patterns, body, term := .stop }

def caseItem? (s : Setting) (parts : PartsReader) (inner : Inner) (start : Position) : Parse (Option CaseItem) := do
  let t ← cur
  if isKeyword ["esac"] t then return none
  if t.kind == .eof then fail s start "unterminated case (missing \"esac\")"
  let item ← caseItem s parts inner
  skipNewlines
  return some item

def caseClause (s : Setting) (parts : PartsReader) (inner : Inner) : Parse Command := do
  let start := (← cur).pos
  next
  let t ← cur
  if t.kind != .word then fail s t.pos ("expected a word after \"case\", found " ++ describe t)
  let word ← wordOf parts t
  next
  skipNewlines
  let u ← cur
  if u.kind != .word || u.text != "in" then
    if u.kind == .eof then fail s start "unterminated case (missing \"in\")"
    else fail s u.pos ("expected \"in\" in case, found " ++ describe u)
  next
  skipNewlines
  let items ← many (caseItem? s parts inner start)
  next
  return .caseOf start word items

def group (s : Setting) (inner : Inner) : Parse Command := do
  let start := (← cur).pos
  next
  let body ← inner.block (isKeyword ["\x7d"])
  expect s "\x7d" "group" start
  return .group start body

def functionBody (s : Setting) (parts : PartsReader) (inner : Inner) (pos : Position) (name : String)
    (keyword parens : Bool) : Parse Command := do
  skipNewlines
  let t ← cur
  if t.kind == .eof then fail s pos ("unterminated function " ++ Text.quoted name ++ " (missing body)")
  -- a brace after `function name` does not stand where a command begins
  let body ←
    if t.kind == .word && t.text == "\x7b" && !t.quoted then do withRedirects s parts (← group s inner)
    else inner.command
  return .function pos name keyword parens body

def closeFunctionHead (s : Setting) : Parse Unit := do
  next
  let t ← cur
  if t.kind != .rparen then fail s t.pos ("expected \")\" in function definition, found " ++ describe t)
  next

def functionKeyword (s : Setting) (parts : PartsReader) (inner : Inner) : Parse Command := do
  let start := (← cur).pos
  warn s .functionKeyword start
  next
  let t ← cur
  if t.kind != .word then fail s t.pos ("expected a function name, found " ++ describe t)
  next
  if (← cur).kind == .lparen then
    closeFunctionHead s
    functionBody s parts inner start t.text true true
  else functionBody s parts inner start t.text true false

def functionParens (s : Setting) (parts : PartsReader) (inner : Inner) (name : Token) : Parse Command := do
  if name.quoted || name.text.toList.any (fun c => c == '$' || c == Text.backquote) then
    fail s name.pos ("invalid function name " ++ Text.quoted name.text)
  closeFunctionHead s
  functionBody s parts inner name.pos name.text false true

def subshell (s : Setting) (inner : Inner) : Parse Command := do
  let start := (← cur).pos
  next
  let body ← inner.block (·.kind == .rparen)
  let t ← cur
  if t.kind == .rparen then
    next
    return .subshell start body
  else if t.kind == .eof then fail s start "unterminated subshell (missing \")\")"
  else fail s t.pos ("expected \")\", found " ++ describe t)

def arithCommand (s : Setting) (parts : PartsReader) : Parse Command := do
  let t ← cur
  let x ← OptionT.lift (words (arithText s parts (arithStart t) t.text.toList))
  next
  match x with
  | some x => return .arith t.pos x
  | none => fail s t.pos "empty arithmetic command"

def element? (s : Setting) (parts : PartsReader) (start : Position) : Parse (Option Word) := do
  skipNewlines
  let t ← cur
  match t.kind with
  | .rparen =>
    next
    return none
  | .word =>
    let w ← wordOf parts t
    next
    return some w
  | .eof => fail s start "unterminated array (missing \")\")"
  | _ => fail s t.pos ("unexpected " ++ describe t ++ " in array")

-- The name, the subscript and the operator at the front of an assignment, and its value's text. A subscript
-- is read even when no operator follows it.
def assignHead (parts : PartsReader) (t : Token) :
    Reading (Option (Assignment × Position × List Char)) := do
  let (name, rest) := t.text.toList.span Text.isNameChar
  match name with
  | [] => return none
  | c :: _ =>
    if !Text.isNameStart c then return none
    let p := t.pos.advance name
    let head : Option (Reading (Option Word × Position × List Char)) :=
      match rest with
      | '[' :: inner =>
        match matchBracket? inner with
        | some (index, after) => some do
          let ps ← parts .arith (p.step '[') index
          return (some ⟨ps⟩, p.advance ('[' :: index ++ [']']), after)
        | none => none
      | _ => some (pure (none, p, rest))
    match head with
    | none => return none
    | some head =>
      let (index, p, rest) ← head
      let a : Assignment :=
        { pos := t.pos, name := String.ofList name, index, append := false, naked := false, value := none,
          array := none }
      match rest with
      | '+' :: '=' :: value => return some ({ a with append := true }, p.advance ['+', '='], value)
      | '=' :: value => return some (a, p.step '=', value)
      | _ => return none

-- The word under the cursor as an assignment; `none` when it is something else.
def assignment? (s : Setting) (parts : PartsReader) : Parse (Option Assignment) := do
  let t ← cur
  match ← OptionT.lift (words (assignHead parts t)) with
  | none => return none
  | some (a, p, value) =>
    next
    if !value.isEmpty then
      let ps : List WordPart ← OptionT.lift (words (parts .unquoted p value))
      return some { a with value := some ⟨ps⟩ }
    let u ← cur
    if u.kind == .lparen && u.pos.offset == t.pos.offset + t.text.length then
      warn s .arrays u.pos
      next
      let elems ← many (element? s parts u.pos)
      return some { a with array := some { pos := u.pos, elems } }
    return some a

-- The commands that declare variables.
def declarations : List String := ["export", "local", "readonly", "declare", "typeset"]

-- What has been read of a simple command, last first.
structure SimpleParts where
  assigns : List Assignment := []
  args : List Word := []
  redirs : List Redirect := []
  -- the declaring command, once it has been seen, and its operands
  decl : Option String := none
  operands : List (Word × Option Assignment) := []

-- Options come before all names.
def declareOperands (s : Setting) :
    List (Word × Option Assignment) → List Word → List Assignment → Bool → Scanning (List Word × List Assignment × Bool)
  | [], opts, assigns, static => return (opts.reverse, assigns.reverse, static)
  | (_, some a) :: rest, opts, assigns, static => declareOperands s rest opts (a :: assigns) static
  | (w, none) :: rest, opts, assigns, static => do
    match w.lit? with
    | some lit =>
      if (Text.hasPrefix lit "-" || Text.hasPrefix lit "+") && assigns.isEmpty then
        if lit.toList.contains 'A' then warn s .assocArrays w.pos
        declareOperands s rest (w :: opts) assigns static
      else if Text.isName lit then
        let a : Assignment :=
          { pos := w.pos, name := lit, index := none, append := false, naked := true, value := none, array := none }
        declareOperands s rest opts (a :: assigns) static
      else declareOperands s rest opts assigns false
    | none => declareOperands s rest opts assigns false

-- A declaration whose operands are only known when it runs stays an ordinary command.
def declaration (s : Setting) (sp : SimpleParts) (variant : String) : Parse Command := do
  let operands := sp.operands.reverse
  let (opts, assigns, static) ← declareOperands s operands [] [] sp.assigns.isEmpty
  let redirs := sp.redirs.reverse
  let name := match sp.args.getLast? with
    | some w => w
    | none => Word.empty
  if static then return .declare name.pos ((name.lit?).getD "") opts assigns redirs
  match operands.find? fun o => (o.2.bind (·.array)).isSome with
  | some (_, some a) =>
    fail s a.pos ("array assignment mixed with dynamic " ++ (name.lit?).getD variant ++ " operands")
  | _ => return .simple sp.assigns.reverse (sp.args.reverse ++ operands.map Prod.fst) redirs

-- One more piece of a simple command on the left, or the whole command on the right.
def simpleTurn (s : Setting) (parts : PartsReader) (inner : Inner) (sp : SimpleParts) : Parse (SimpleParts ⊕ Command) := do
  let t ← cur
  if isRedirection t then
    let r ← redirect s parts
    return .inl { sp with redirs := r :: sp.redirs }
  else if t.kind == .word then
    let a ← if sp.args.isEmpty || sp.decl.isSome then assignment? s parts else pure none
    match a with
    | some a =>
      if sp.decl.isSome then
        let w ← wordOf parts t
        return .inl { sp with operands := (w, some a) :: sp.operands }
      else return .inl { sp with assigns := a :: sp.assigns }
    | none =>
      let w ← wordOf parts t
      next
      if sp.decl.isSome then return .inl { sp with operands := (w, none) :: sp.operands }
      else
        let isFirst := sp.args.isEmpty
        let decl := if isFirst && !t.quoted && declarations.contains t.text then some t.text else none
        if decl == some "local" then warn s .localKeyword t.pos
        if isFirst && sp.assigns.isEmpty && sp.redirs.isEmpty && (← cur).kind == .lparen then
          return .inr (← functionParens s parts inner t)
        else return .inl { sp with args := w :: sp.args, decl }
  else if sp.args.isEmpty && sp.assigns.isEmpty && sp.redirs.isEmpty then
    fail s t.pos ("unexpected " ++ describe t)
  else match sp.decl with
    | some variant => return .inr (← declaration s sp variant)
    | none => return .inr (.simple sp.assigns.reverse sp.args.reverse sp.redirs.reverse)

def simpleFor (s : Setting) (parts : PartsReader) (inner : Inner) : Nat → SimpleParts → Parse Command
  | 0, sp => return .simple sp.assigns.reverse sp.args.reverse sp.redirs.reverse
  | n + 1, sp => do
    match ← simpleTurn s parts inner sp with
    | .inl sp => simpleFor s parts inner n sp
    | .inr c => return c

def simpleCommand (s : Setting) (parts : PartsReader) (inner : Inner) : Parse Command := do
  simpleFor s parts inner (← left) {}

end Read
end Script
end ShellScript

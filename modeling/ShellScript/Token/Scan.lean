import ShellScript.Diagnostic
import ShellScript.Token
import ShellScript.Token.Construct

-- Splitting a script into tokens.
namespace ShellScript
namespace Token

-- A here-document that a line has announced and whose body follows the line.
structure HereDoc where
  word : Position
  delim : String
  quoted : Bool
  -- leading tabs of the body's lines are dropped
  strip : Bool
deriving Repr

structure Scanner where
  dialect : Dialect
  file : String
  rest : List Char
  pos : Position
  -- the next word stands where a command may begin
  cmdStart : Bool := true
  afterFor : Bool := false
  -- the next word is a here-document's delimiter; the flag says whether tabs are dropped
  wantDelim : Option Bool := none
  inTest : Bool := false
  -- the next word is the right side of `=~`
  wantRegex : Bool := false
  pending : List HereDoc := []
  tokens : Array Token := #[]
  diags : Array Diagnostic.OfText := #[]

namespace Scanner

def report (s : Scanner) (d : Diagnostic.OfText) : Scanner := { s with diags := s.diags.push d }

def lexicalError (s : Scanner) (p : Position) (message : String) : Scanner :=
  s.report ⟨Diagnostic.at_ .lexical s.file p message, rfl⟩

-- Warns where the text uses what its dialect does not have.
def needs (s : Scanner) (f : Feature) (p : Position) : Scanner :=
  if s.dialect.supports f then s
  else s.report
    ⟨{ severity := .warning, kind := .unsupportedFeature,
       message := f.name ++ " is not part of the " ++ s.dialect.name ++ " dialect",
       file := s.file, line := p.line, column := p.column }, rfl⟩

-- Moves on to `rest`, which ends the text that is still to be read.
def moveTo (s : Scanner) (rest : List Char) : Scanner :=
  { s with rest, pos := s.pos.advance (s.rest.take (s.rest.length - rest.length)) }

-- Moves past so many characters.
def moveBy (s : Scanner) (n : Nat) : Scanner := { s with rest := s.rest.drop n, pos := s.pos.advance (s.rest.take n) }

-- Moves past the first character.
def skip (s : Scanner) (c : Char) (rest : List Char) : Scanner := { s with rest, pos := s.pos.step c }

-- The text between an earlier point and here.
def textFrom (s : Scanner) (start : List Char) (startPos : Position) : String :=
  String.ofList (start.take (s.pos.offset - startPos.offset))

def unterminated (s : Scanner) (e : Construct.Unclosed) : Scanner :=
  s.lexicalError (s.pos.advance (s.rest.take (s.rest.length - e.left)))
    ("unterminated " ++ e.construct.describe)

-- Moves past a construct; one that is left open takes the rest of the text.
def passConstruct (s : Scanner) (c : Construct.Close) : Scanner :=
  match c with
  | .ok rest => s.moveTo rest
  | .error e => (s.unterminated e).moveTo []

-- How many characters blanks and joined lines take.
def blanks : List Char → Nat
  | '\\' :: '\n' :: cs => blanks cs + 2
  | c :: cs => if Text.isBlank c then blanks cs + 1 else 0
  | [] => 0

-- Longest first.
def operatorAt : List Char → Option (Kind × Nat × Option Feature)
  | ';' :: ';' :: '&' :: _ => some (.dsemiAmp, 3, some .caseFallthrough)
  | ';' :: ';' :: _ => some (.dsemi, 2, none)
  | ';' :: '&' :: _ => some (.semiAmp, 2, some .caseFallthrough)
  | ';' :: _ => some (.semi, 1, none)
  | '&' :: '&' :: _ => some (.and, 2, none)
  | '&' :: '>' :: '>' :: _ => some (.andDgreat, 3, some .ampRedirect)
  | '&' :: '>' :: _ => some (.andGreat, 2, some .ampRedirect)
  | '&' :: _ => some (.amp, 1, none)
  | '|' :: '|' :: _ => some (.or, 2, none)
  | '|' :: '&' :: _ => some (.pipeAll, 2, some .pipeAll)
  | '|' :: _ => some (.pipe, 1, none)
  | '(' :: _ => some (.lparen, 1, none)
  | ')' :: _ => some (.rparen, 1, none)
  | '<' :: '<' :: '<' :: _ => some (.tless, 3, some .hereString)
  | '<' :: '<' :: '-' :: _ => some (.dlessDash, 3, none)
  | '<' :: '<' :: _ => some (.dless, 2, none)
  | '<' :: '&' :: _ => some (.lessAnd, 2, none)
  | '<' :: '>' :: _ => some (.lessGreat, 2, none)
  | '<' :: _ => some (.less, 1, none)
  | '>' :: '>' :: _ => some (.dgreat, 2, none)
  | '>' :: '&' :: _ => some (.greatAnd, 2, none)
  | '>' :: '|' :: _ => some (.clobber, 2, none)
  | '>' :: _ => some (.great, 1, none)
  | _ => none

-- A here-document's delimiter without its quoting.
def unquoteDelim : List Char → List Char
  | [] => []
  | '\'' :: cs => unquoteDelim cs
  | '"' :: cs => unquoteDelim cs
  | '\\' :: c :: cs => c :: unquoteDelim cs
  | ['\\'] => []
  | '$' :: '\'' :: cs => unquoteDelim ('\'' :: cs)
  | '$' :: '"' :: cs => unquoteDelim ('"' :: cs)
  | c :: cs => c :: unquoteDelim cs

-- The word read since `start` as a token: a descriptor number before a redirection, a here-document's
-- delimiter, or a word.
def endWord (s : Scanner) (start : List Char) (startPos : Position) (quoted : Bool) : Scanner × Token :=
  let text := s.textFrom start startPos
  let word : Token := { kind := .word, text, pos := startPos, quoted }
  if !quoted && Text.isNumeral text && (s.rest.head? == some '<' || s.rest.head? == some '>') then
    (s, { word with kind := .ioNumber })
  else match s.wantDelim with
    | some strip =>
      let doc : HereDoc := { word := startPos, delim := String.ofList (unquoteDelim text.toList), quoted, strip }
      ({ s with wantDelim := none, pending := s.pending ++ [doc] }, word)
    | none =>
      let keyword := !quoted && isReserved text &&
        (if s.cmdStart then text != "]]" else s.inTest && text == "]]")
      (s, { word with keyword })

-- An extended pattern such as `@(a|b)` begins here.
def opensPattern (d : Dialect) (c : Char) (next : Option Char) : Bool :=
  (c == '?' || c == '*' || c == '+' || c == '@' || c == '!') && next == some '(' && d.supports .arrays

-- The rest of a word in steps, which carry a state of their own and tell whether the word has some quoting.
def gather {α : Type} (turn : α → Bool → Scanner → Option (α × Bool × Scanner)) (start : List Char)
    (startPos : Position) : Nat → α → Bool → Scanner → Scanner × Token
  | 0, _, quoted, s => s.endWord start startPos quoted
  | n + 1, a, quoted, s =>
    match turn a quoted s with
    | none => s.endWord start startPos quoted
    | some (a, quoted, s) => gather turn start startPos n a quoted s

-- Only the first characters of a word may open a process substitution.
def wordTurn (first quoted : Bool) (s : Scanner) : Option (Bool × Bool × Scanner) :=
  match s.rest with
  | [] => none
  | c :: cs =>
    let next := cs.head?
    if first && (c == '<' || c == '>') && next == some '(' then
      let close := match Construct.closeParens s.dialect cs with
        | .ok rest => .ok rest
        | .error _ => .error ⟨.processSubstitution, s.rest.length⟩
      some (false, quoted, s.passConstruct close)
    else if opensPattern s.dialect c next then
      some (false, quoted, s.passConstruct (Construct.closeParens s.dialect cs))
    else if Text.isMeta c then none
    else if c == '\\' then some (false, true, s.moveBy 2)
    else if c == '\'' then some (false, true, s.passConstruct (Construct.closeSingle s.rest.length cs))
    else if c == '"' then some (false, true, s.passConstruct (Construct.closeDouble s.dialect cs))
    else if c == Text.backquote then some (false, quoted, s.passConstruct (Construct.closeBackquote s.rest.length cs))
    else if c == '$' then
      let s := if next == some '\'' then s.needs .ansiQuote s.pos else s
      some (false, quoted || next == some '\'' || next == some '"',
        s.passConstruct (Construct.closeExpansion s.dialect false cs))
    else some (false, quoted, s.skip c cs)

-- A word of at most `n` characters.
def word (n : Nat) (s : Scanner) : Scanner × Token := gather wordTurn s.rest s.pos n true false s

-- The right side of `=~`: parentheses and bars belong to the pattern, and inside parentheses so do blanks.
def regexTurn (depth : Nat) (quoted : Bool) (s : Scanner) : Option (Nat × Bool × Scanner) :=
  match s.rest with
  | [] => none
  | c :: cs =>
    if c == '(' then some (depth + 1, quoted, s.moveBy 1)
    else if c == ')' then if depth == 0 then none else some (depth - 1, quoted, s.moveBy 1)
    else if depth == 0 && (Text.isBlank c || c == '\n') then none
    else if c == '\\' then some (depth, true, s.moveBy 2)
    else if c == '\'' then some (depth, true, s.passConstruct (Construct.closeSingle s.rest.length cs))
    else if c == '"' then some (depth, true, s.passConstruct (Construct.closeDouble s.dialect cs))
    else if c == '$' then some (depth, quoted, s.passConstruct (Construct.closeExpansion s.dialect false cs))
    else some (depth, quoted, s.skip c cs)

def regexWord (n : Nat) (s : Scanner) : Scanner × Token := gather regexTurn s.rest s.pos n 0 false s

-- The lines of a here-document up to its delimiter, and whether the delimiter was there. The body is
-- gathered in reverse.
def hereLines (doc : HereDoc) : Nat → List Char → List Char → List Char × List Char × Bool
  | 0, body, rest => (body, rest, false)
  | _ + 1, body, [] => (body, [], false)
  | n + 1, body, rest =>
    let line := rest.takeWhile (· != '\n')
    let after := rest.drop (line.length + 1)
    let line := if doc.strip then line.dropWhile (· == '\t') else line
    if Text.withoutSuffix (String.ofList line) "\r" == doc.delim then (body, after, true)
    else hereLines doc n ('\n' :: (line.reverse ++ body)) after

def missingDelim (s : Scanner) (doc : HereDoc) : Scanner :=
  s.lexicalError doc.word ("unterminated here-document (wanted " ++ Text.quoted doc.delim ++ ")")

def hereDoc (s : Scanner) (doc : HereDoc) : Scanner :=
  let (body, rest, found) := hereLines doc (s.rest.length + 1) [] s.rest
  let token : Token :=
    { kind := .hereDoc, text := String.ofList body.reverse, pos := s.pos, quoted := doc.quoted }
  let s := s.moveTo rest
  let s := if found then s else s.missingDelim doc
  { s with tokens := s.tokens.push token }

-- The bodies announced on the line that has just ended.
def hereDocs (s : Scanner) : Scanner := s.pending.foldl hereDoc { s with pending := [] }

-- How a token changes what the next one may be.
def after (s : Scanner) (t : Token) : Scanner :=
  let isWord := t.kind == .word
  let isComment := t.kind == .comment
  { s with
    cmdStart :=
      if isWord then t.keyword && opensCommand t.text
      else if t.kind == .newline || t.kind.isOperator then !s.inTest
      else isComment && s.cmdStart
    afterFor := if isWord then t.keyword && t.text == "for" else isComment && s.afterFor
    inTest :=
      if isWord && t.keyword && t.text == "[[" then true
      else if isWord && t.text == "]]" then false
      else s.inTest
    wantRegex := s.wantRegex || (isWord && s.inTest && t.text == "=~")
    wantDelim :=
      match t.kind with
      | .dless => some false
      | .dlessDash => some true
      | _ => s.wantDelim }

def emit (r : Scanner × Token) : Scanner :=
  let s := r.1.after r.2
  { s with tokens := s.tokens.push r.2 }

-- Takes `n` characters as a token.
def take (s : Scanner) (kind : Kind) (n : Nat) : Scanner × Token :=
  let t : Token := { kind, text := String.ofList (s.rest.take n), pos := s.pos }
  (s.moveBy n, t)

-- Reads one token after blanks; `none` at the end of the text, of which at most `n` characters are left.
def next? (n : Nat) (s : Scanner) : Option Scanner :=
  let s := s.moveBy (blanks s.rest)
  match s.rest with
  | [] => none
  | c :: cs =>
    if c == '\n' then
      let r := s.take .newline 1
      some (hereDocs (emit r))
    else if c == '#' then
      some (emit (s.take .comment (s.rest.takeWhile (· != '\n')).length))
    else if s.wantRegex then some (emit ({ s with wantRegex := false }.regexWord n))
    else if (c == '<' || c == '>') && cs.head? == some '(' then some (emit ((s.needs .procSubstitution s.pos).word n))
    else
      let arith : Option (List Char) :=
        if c == '(' && cs.head? == some '(' && (s.cmdStart || s.afterFor) && s.dialect.supports .arithCommand then
          (Construct.closeArith s.dialect s.rest).toOption
        else none
      match arith with
      | some rest =>
        let inside := (s.rest.take (s.rest.length - rest.length - 2)).drop 2
        some (emit (s.moveTo rest, { kind := .arith, text := String.ofList inside, pos := s.pos }))
      | none =>
        match operatorAt s.rest with
        | some (kind, size, feature) =>
          let s := match feature with
            | some f => s.needs f s.pos
            | none => s
          some (emit (s.take kind size))
        | none =>
          if c.toNat < 0x20 || c.toNat == 0x7F then
            let s := s.lexicalError s.pos ("illegal character " ++ Text.quotedChar c)
            some (emit (s.take .illegal 1))
          else some (emit (s.word n))

def finish (s : Scanner) : Scanner :=
  let s := s.moveTo []
  let s := s.pending.foldl missingDelim s
  { s with pending := [], tokens := s.tokens.push { kind := .eof, text := "", pos := s.pos } }

-- Every token takes at least one character.
def run : Nat → Scanner → Scanner
  | 0, s => s.finish
  | n + 1, s =>
    match s.next? (n + 1) with
    | some s => run n s
    | none => s.finish

end Scanner

-- The tokens of a text that begins at `base`, the last of them `eof`, and what is wrong with it.
def scanText (d : Dialect) (file : String) (base : Position) (text : List Char) :
    List Token × List Diagnostic.OfText :=
  let s := Scanner.run (text.length + 1) { dialect := d, file, rest := text, pos := base }
  (s.tokens.toList, s.diags.toList)

def scan (d : Dialect) (file : String) (base : Position) (text : List Char) : List Token × List Diagnostic :=
  let (toks, found) := scanText d file base text
  (toks, found.map Subtype.val)

end Token
end ShellScript

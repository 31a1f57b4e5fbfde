import ShellScript.Diagnostic
import ShellScript.Dialect
import ShellScript.Script.Tree
import ShellScript.Token.Construct

-- What all readers share, and how they cut a text.
namespace ShellScript
namespace Script
namespace Read

-- What all readers share: the script's name and dialect, and the diagnostics gathered so far.

structure Setting where
  dialect : Dialect
  file : String

abbrev Reading := StateM (Array Diagnostic.OfText)

def Setting.syntaxError (s : Setting) (p : Position) (message : String) : Diagnostic.OfText :=
  ⟨Diagnostic.at_ .parse s.file p message, rfl⟩

def Setting.report (s : Setting) (p : Position) (message : String) : Reading Unit :=
  modify (·.push (s.syntaxError p message))

-- The warning about something that the dialect does not have.
def Setting.missing? (s : Setting) (f : Feature) (p : Position) : Option Diagnostic.OfText :=
  if s.dialect.supports f then none
  else some
    ⟨{ severity := .warning, kind := .unsupportedFeature,
       message := f.name ++ " is not part of the " ++ s.dialect.name ++ " dialect",
       file := s.file, line := p.line, column := p.column }, rfl⟩

-- The results of turns up to the first that gives none, at most `n` of them.
def listFor {m : Type → Type} [Monad m] {α : Type} (turn : m (Option α)) : Nat → m (List α)
  | 0 => pure []
  | n + 1 => do
    match ← turn with
    | some a => return a :: (← listFor turn n)
    | none => return []

-- What surrounds a piece of a word.
inductive Mode where
  | unquoted
  | double
  | hereDoc
  | paramArg
  | arith
deriving Repr, DecidableEq

-- Whether single and double quotes are special.
def Mode.quotes : Mode → Bool
  | .unquoted | .paramArg | .arith => true
  | .double | .hereDoc => false

abbrev PartsReader := Mode → Position → List Char → Reading (List WordPart)

-- The readers of what is nested in a piece of text: every nested piece is shorter, so they go one level
-- down.
structure Nested where
  parts : PartsReader
  block : Position → List Char → Reading Block

-- Cutting a text at a separator that is neither quoted nor nested in an expansion.

-- The inside of a construct whose last `delim` characters close it, and what follows. A construct left open
-- takes everything.
def inside (close : Construct.Close) (cs : List Char) (delim : Nat) : List Char × List Char :=
  match close with
  | .ok rest => (cs.take (cs.length - rest.length - delim), rest)
  | .error _ => (cs, [])

-- What follows the construct, escape or character at the front.
def passOne (d : Dialect) : List Char → List Char
  | [] => []
  | c :: cs =>
    if c == '\\' then cs.drop 1
    else if c == '\'' then (Construct.closeSingle 0 cs).toOption.getD []
    else if c == '"' then (Construct.closeDouble d cs).toOption.getD []
    else if c == Text.backquote then (Construct.closeBackquote 0 cs).toOption.getD []
    else if c == '$' then (Construct.closeExpansion d false cs).toOption.getD []
    else cs

-- The characters taken between two points of one text.
def between (start rest : List Char) : List Char := start.take (start.length - rest.length)

-- The text before and after the first `sep` at the top level.
def splitTop (d : Dialect) (sep : Char) : Nat → List Char → List Char → Option (List Char × List Char)
  | 0, _, _ => none
  | _ + 1, _, [] => none
  | n + 1, front, c :: cs =>
    if c == sep then some (front.reverse, cs)
    else
      let rest := passOne d (c :: cs)
      splitTop d sep n ((between (c :: cs) rest).reverse ++ front) rest

def splitTop? (d : Dialect) (sep : Char) (cs : List Char) : Option (List Char × List Char) :=
  splitTop d sep (cs.length + 1) [] cs

-- After an opening bracket: the text up to the one that closes it, and what follows.
def matchBracket : Nat → List Char → List Char → Option (List Char × List Char)
  | _, _, [] => none
  | _, _, ['\\'] => none
  | depth, front, '\\' :: c :: cs => matchBracket depth (c :: '\\' :: front) cs
  | depth, front, c :: cs =>
    if c == '[' then matchBracket (depth + 1) (c :: front) cs
    else if c == ']' then
      match depth with
      | 0 => some (front.reverse, cs)
      | depth + 1 => matchBracket depth (c :: front) cs
    else matchBracket depth (c :: front) cs

def matchBracket? (cs : List Char) : Option (List Char × List Char) := matchBracket 0 [] cs

-- After an opening brace: the pieces between the commas of this level, and what follows the closing brace. A
-- character that ends a word ends the search. `open_` counts the braces open inside.
def braceList (d : Dialect) :
    Nat → Nat → List Char → List (List Char) → List Char → Option (List (List Char) × List Char)
  | 0, _, _, _, _ => none
  | _ + 1, _, _, _, [] => none
  | n + 1, open_, cur, done, c :: cs =>
    if c == '\x7b' then braceList d n (open_ + 1) (c :: cur) done cs
    else if c == '\x7d' then
      match open_ with
      | 0 => some ((cur.reverse :: done).reverse, cs)
      | k + 1 => braceList d n k (c :: cur) done cs
    else if c == ',' && open_ == 0 then braceList d n open_ [] (cur.reverse :: done) cs
    else if Text.isMeta c then none
    else
      let rest := passOne d (c :: cs)
      braceList d n open_ ((between (c :: cs) rest).reverse ++ cur) done rest

def braceList? (d : Dialect) (cs : List Char) : Option (List (List Char) × List Char) :=
  braceList d (cs.length + 1) 0 [] [] cs

-- The pieces between the occurrences of two dots.
def splitDots : List Char → List (List Char)
  | '.' :: '.' :: cs => [] :: splitDots cs
  | c :: cs =>
    match splitDots cs with
    | [] => [[c]]
    | p :: ps => (c :: p) :: ps
  | [] => [[]]

def isInteger : List Char → Bool
  | '-' :: c :: cs => (c :: cs).all Text.isDigit
  | c :: cs => (c :: cs).all Text.isDigit
  | [] => false

def isLetter : List Char → Bool
  | [c] => Text.isLower c || Text.isUpper c
  | _ => false

-- `from..to` or `from..to..step` between integers or single letters.
def sequence? (cs : List Char) : Option (List (List Char)) :=
  match splitDots cs with
  | [a, b] => if (isInteger a || isLetter a) && (isInteger b || isLetter b) then some [a, b] else none
  | [a, b, s] =>
    if (isInteger a || isLetter a) && (isInteger b || isLetter b) && isInteger s then some [a, b, s] else none
  | _ => none

end Read
end Script
end ShellScript

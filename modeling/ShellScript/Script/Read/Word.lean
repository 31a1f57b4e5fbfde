import ShellScript.Script.Word
import ShellScript.Script.Read.Arith

-- Reading the parts of a word.
namespace ShellScript
namespace Script
namespace Read

-- The parts found so far, last first, and the literal text not yet closed.
structure Gathered where
  out : List WordPart := []
  lit : List Char := []
  litPos : Position := {}

namespace Gathered

def addLit (g : Gathered) (p : Position) (cs : List Char) : Gathered :=
  { g with lit := cs.reverse ++ g.lit, litPos := if g.lit.isEmpty then p else g.litPos }

def flush (g : Gathered) : Gathered :=
  if g.lit.isEmpty then g
  else { out := .lit g.litPos (String.ofList g.lit.reverse) :: g.out, lit := [] }

def addPart (g : Gathered) (part : WordPart) : Gathered :=
  let g := g.flush
  { g with out := part :: g.out }

def finish (g : Gathered) : List WordPart := g.flush.out.reverse

end Gathered

-- The name of a braced parameter expansion and what follows it.
def paramName? : List Char → Option (List Char × List Char)
  | [] => none
  | c :: cs =>
    if Text.isNameStart c then some ((c :: cs).span Text.isNameChar)
    else if Text.isDigit c then some ((c :: cs).span Text.isDigit)
    else if isSpecialParam c then some ([c], cs)
    else none

-- The marks before the name: a length or an indirection.
def paramMarks : List Char → Bool × Bool × List Char
  | '#' :: c :: cs =>
    if ['\x7d', ':', '=', '-', '+', '?', '%', '/'].contains c then (false, false, '#' :: c :: cs)
    else (true, false, c :: cs)
  | '!' :: c :: cs => (false, true, c :: cs)
  | cs => (false, false, cs)

-- The operator's arguments.
def paramArgs (s : Setting) (parts : PartsReader) (op : ParamOp) (p : Position) (cs : List Char) :
    Reading (Word × Option Word) := do
  let two (mode : Mode) (sep : Char) : Reading (Word × Option Word) := do
    match splitTop? s.dialect sep cs with
    | some (a, b) =>
      let x ← parts mode p a
      let y ← parts mode (p.advance (a ++ [sep])) b
      return (⟨x⟩, some ⟨y⟩)
    | none => return (⟨← parts mode p cs⟩, none)
  match op with
  | .slice => two .arith ':'
  | .replace | .replaceAll | .replacePrefix | .replaceSuffix => two .paramArg '/'
  | _ => return (⟨← parts .paramArg p cs⟩, none)

-- What stands between the braces of a parameter expansion; `dollar` is where the expansion begins and `p`
-- where `cs` does.
def paramExp (s : Setting) (parts : PartsReader) (dollar p : Position) (cs : List Char) :
    Reading ParamExp := do
  let (length, indirect, named) := paramMarks cs
  let p := p.advance (between cs named)
  match paramName? named with
  | none =>
    s.report dollar "bad substitution"
    return ParamExp.braced "" length indirect
  | some (name, rest) =>
    let x := ParamExp.braced (String.ofList name) length indirect
    let p := p.advance name
    let isWordName := match name with
      | c :: _ => Text.isNameStart c
      | [] => false
    if indirect && isWordName && (rest == ['*'] || rest == ['@']) then return { x with names := rest.head? }
    let (x, p, rest) ← match rest with
      | '[' :: inner =>
        match matchBracket? inner with
        | some (index, after) => do
          let ps ← parts .arith (p.step '[') index
          pure ({ x with index := some ⟨ps⟩ }, p.advance ('[' :: index ++ [']']), after)
        | none => pure (x, p, rest)
      | _ => pure (x, p, rest)
    if rest.isEmpty then return x
    if length then
      s.report p "bad substitution"
      return x
    match ParamOp.longestFirst.find? fun op => op.text.toList.isPrefixOf rest with
    | none =>
      s.report p "bad substitution"
      return x
    | some op =>
      let k := op.text.length
      let (arg, repl) ← paramArgs s parts op (p.advance (rest.take k)) (rest.drop k)
      return { x with op := some op, arg := some arg, repl }

-- An expansion after the dollar sign at `p`; `none` when the sign is literal.
def dollar (s : Setting) (nested : Nested) (mode : Mode) (p : Position) (cs : List Char) :
    Reading (Option (WordPart × List Char)) := do
  let p₁ := p.step '$'
  match cs with
  | '(' :: rest =>
    let arith := match rest with
      | '(' :: inner => (Construct.closeArith s.dialect cs).toOption.map fun after => (inner, after)
      | _ => none
    match arith with
    | some (inner, after) =>
      let text := inner.take (inner.length - after.length - 2)
      let x ← arithText s nested.parts ((p₁.step '(').step '(') text
      return some (.arith p x, after)
    | none =>
      let (body, after) := inside (Construct.closeParens s.dialect cs) rest 1
      let b ← nested.block (p₁.step '(') body
      return some (.command p b false, after)
  | '\x7b' :: rest =>
    let (inner, after) := inside (Construct.closeExpansion s.dialect false cs) rest 1
    let x ← paramExp s nested.parts p (p₁.step '\x7b') inner
    return some (.param p x, after)
  | c :: rest =>
    if c == '\'' && (mode == .unquoted || mode == .paramArg) && s.dialect.supports .ansiQuote then
      let (inner, after) := inside (Construct.closeAnsi 0 rest) rest 1
      return some (.single p true (String.ofList inner), after)
    else if c == '"' && (mode == .unquoted || mode == .paramArg) then
      let (inner, after) := inside (Construct.closeDouble s.dialect rest) rest 1
      let ps ← nested.parts .double (p₁.step '"') inner
      return some (.double p true ps, after)
    else if Text.isNameStart c then
      let (name, after) := cs.span Text.isNameChar
      return some (.param p (ParamExp.ofName (String.ofList name)), after)
    else if Text.isDigit c || isSpecialParam c then
      return some (.param p (ParamExp.ofName (String.ofList [c])), rest)
    else return none
  | [] => return none

-- The elements of a sequence, two dots apart.
def sequenceWords : Position → List (List Char) → List Word
  | _, [] => []
  | p, e :: es => ⟨[.lit p (String.ofList e)]⟩ :: sequenceWords (p.advance (e ++ ['.', '.'])) es

-- The elements of a brace list, a comma apart.
def braceWords (parts : PartsReader) : Position → List (List Char) → Reading (List Word)
  | _, [] => pure []
  | p, e :: es => do
    let ps ← parts .unquoted p e
    return ⟨ps⟩ :: (← braceWords parts (p.advance (e ++ [','])) es)

-- Braces at `p`, given what follows the opening one; `none` when they are literal.
def brace (s : Setting) (nested : Nested) (p : Position) (cs : List Char) :
    Reading (Option (WordPart × List Char)) := do
  let first := p.step '\x7b'
  match braceList? s.dialect cs with
  | some ([text], after) =>
    match sequence? text with
    | some es => return some (.brace p true (sequenceWords first es), after)
    | none => return none
  | some (pieces, after) =>
    let ws ← braceWords nested.parts first pieces
    return some (.brace p false ws, after)
  | none => return none

-- The character `c` at `p` with what belongs to it, added to the parts before, and what follows. Only at the very
-- beginning of a text can there be a process substitution.
def partAt (s : Setting) (nested : Nested) (mode : Mode) (first : Bool) (g : Gathered) (p : Position) (c : Char)
    (cs : List Char) : Reading (Gathered × List Char) := do
  let plain := (g.addLit p [c], cs)
  if c == '\\' then return (g.addLit p ((c :: cs).take 2), cs.drop 1)
  else if c == '\'' && mode.quotes then
    let (inner, rest) := inside (Construct.closeSingle 0 cs) cs 1
    return (g.addPart (.single p false (String.ofList inner)), rest)
  else if c == '"' && mode.quotes then
    let (inner, rest) := inside (Construct.closeDouble s.dialect cs) cs 1
    let ps ← nested.parts .double (p.step c) inner
    return (g.addPart (.double p false ps), rest)
  else if c == Text.backquote then
    let (inner, rest) := inside (Construct.closeBackquote 0 cs) cs 1
    let b ← nested.block (p.step c) (unescapeBackquote (mode == .double) inner)
    return (g.addPart (.command p b true), rest)
  else if c == '$' then
    match ← dollar s nested mode p cs with
    | some (part, rest) => return (g.addPart part, rest)
    | none => return plain
  else if c == '\x7b' && mode == .unquoted && s.dialect.supports .braceExpansion then
    match ← brace s nested p cs with
    | some (part, rest) => return (g.addPart part, rest)
    | none => return plain
  else if (c == '<' || c == '>') && first && mode == .unquoted && cs.head? == some '(' then
    let (inner, rest) := inside (Construct.closeParens s.dialect cs) (cs.drop 1) 1
    let b ← nested.block ((p.step c).step '(') inner
    return (g.addPart (.process p (c == '>') b), rest)
  else return plain

-- The parts of the text `cs` at `p`, after others.
def partsFrom (s : Setting) (nested : Nested) (mode : Mode) :
    Nat → Bool → Gathered → Position → List Char → Reading (List WordPart)
  | 0, _, g, _, _ => pure g.finish
  | _ + 1, _, g, _, [] => pure g.finish
  | n + 1, first, g, p, c :: cs => do
    let (g, rest) ← partAt s nested mode first g p c cs
    partsFrom s nested mode n false g (p.advance (between (c :: cs) rest)) rest

def parts (s : Setting) (nested : Nested) : PartsReader := fun mode p cs =>
  partsFrom s nested mode (cs.length + 1) true {} p cs

end Read
end Script
end ShellScript

import ShellScript.Text.Rune
import ShellScript.Text.Category

-- The tokens of a rule's condition. A condition is read character by character, while the texts and names in it
-- are bytes.
namespace ShellScript
namespace Dependency
namespace Condition

inductive Token where
  -- a number as it is written
  | number (s : String)
  | text (s : String)
  | name (s : String)
  -- an operator, a word that acts as one, or a bracket
  | op (s : String)
deriving Repr, DecidableEq

def wordOperators : List String :=
  ["not", "in", "or", "and", "matches", "contains", "startsWith", "endsWith", "let", "if", "else"]

def isWordChar (c : Char) : Bool := c == '_' || c == '$' || Text.isLetterChar c || Text.isDigitChar c

def bytesOf (cs : List Char) : String := String.ofList (cs.flatMap Text.utf8)

-- A number of 32 bits as bytes. A negative one counts as its lowest byte, which is how numbers above the last
-- character that fill all bits end.
def escapedBytes? (v : Nat) : Option (List Char) :=
  if v ≥ 2147483648 then some [Char.ofNat (v % 256)]
  else if v > 0x10FFFF then none
  else some (Text.utf8 (if v.isValidChar then Char.ofNat v else Text.replacement))

def hexEscape? (n : Nat) (cs : List Char) : Option (List Char × List Char) := do
  let ds ← (cs.take n).mapM Text.hexValue?
  if ds.length != n then none
  return (← escapedBytes? (ds.foldl (fun v d => v * 16 + d) 0), cs.drop n)

def octalEscape? (cs : List Char) : Option (List Char × List Char) := do
  match ← (cs.take 3).mapM Text.octalValue? with
  | [x, y, z] => if x ≤ 3 then return (Text.utf8 (Char.ofNat (x * 64 + y * 8 + z)), cs.drop 3) else none
  | _ => none

-- The bytes for what follows a backslash, and the rest. Of the quotes only the one around the text may be
-- escaped.
def escape? (quote : Char) : List Char → Option (List Char × List Char)
  | [] => none
  | c :: cs =>
    match c with
    | 'a' => some (['\x07'], cs)
    | 'b' => some (['\x08'], cs)
    | 'f' => some (['\x0c'], cs)
    | 'n' => some (['\n'], cs)
    | 'r' => some (['\r'], cs)
    | 't' => some (['\t'], cs)
    | 'v' => some (['\x0b'], cs)
    | '\\' => some (['\\'], cs)
    | 'x' => hexEscape? 2 cs
    | 'u' => hexEscape? 4 cs
    | 'U' => hexEscape? 8 cs
    | _ => if c == quote then some ([c], cs) else octalEscape? (c :: cs)

-- The text up to the closing quote. A carriage return in it is a newline.
def quotedText : Nat → Char → List Char → List Char → Option (String × List Char)
  | 0, _, _, _ => none
  | _, _, _, [] => none
  | fuel + 1, quote, acc, c :: cs =>
    if c == quote then some (String.ofList acc.reverse, cs)
    else if c == '\n' then none
    else if c == '\\' then
      match escape? quote cs with
      | some (bytes, rest) => quotedText fuel quote (bytes.reverse ++ acc) rest
      | none => none
    else quotedText fuel quote ((Text.utf8 (if c == '\r' then '\n' else c)).reverse ++ acc) cs

-- The text up to a backquote; two of them stand for one.
def rawText : List Char → List Char → Option (String × List Char)
  | _, [] => none
  | acc, '\x60' :: '\x60' :: cs => rawText ('\x60' :: acc) cs
  | acc, '\x60' :: cs => some (bytesOf acc.reverse, cs)
  | acc, c :: cs => rawText (c :: acc) cs

def isDecimalDigit (c : Char) : Bool := Text.isDigit c || c == '_'

-- The mark of a base, and the digits that may follow.
def baseMark : List Char → List Char × (Char → Bool) × List Char
  | '0' :: c :: cs =>
    if c == 'x' || c == 'X' then (['0', c], fun d => (Text.hexValue? d).isSome || d == '_', cs)
    else if c == 'o' || c == 'O' then (['0', c], fun d => (Text.octalValue? d).isSome || d == '_', cs)
    else if c == 'b' || c == 'B' then (['0', c], fun d => d == '0' || d == '1' || d == '_', cs)
    else ([], isDecimalDigit, '0' :: c :: cs)
  | cs => ([], isDecimalDigit, cs)

-- A fraction and what follows it.
def fractionPart (digit : Char → Bool) : List Char → List Char × List Char
  | '.' :: cs => ('.' :: cs.takeWhile digit, cs.dropWhile digit)
  | cs => ([], cs)

def exponentPart (digit : Char → Bool) : List Char → List Char × List Char
  | e :: cs =>
    if e == 'e' || e == 'E' then
      match cs with
      | s :: rest =>
        if s == '+' || s == '-' then (e :: s :: rest.takeWhile digit, rest.dropWhile digit)
        else (e :: cs.takeWhile digit, cs.dropWhile digit)
      | [] => ([e], [])
    else ([], e :: cs)
  | [] => ([], [])

-- A number as it is written. Two points after it make a range, not a fraction, and no letter may follow it.
def number? (cs : List Char) : Option (List Char × List Char) :=
  let (mark, digit, cs) := baseMark cs
  let whole := mark ++ cs.takeWhile digit
  let rest := cs.dropWhile digit
  if rest.take 2 == ['.', '.'] then some (whole, rest)
  else
    let (frac, rest) := fractionPart digit rest
    let (exp, rest) := exponentPart digit rest
    if (rest.head?.map isWordChar).getD false then none else some (whole ++ frac ++ exp, rest)

def skipBlock : List Char → Option (List Char)
  | '*' :: '/' :: r => some r
  | _ :: r => skipBlock r
  | [] => none

def isOneOf (s : String) (c : Char) : Bool := s.toList.contains c

-- The tokens that the text begins with, and the rest: none of them after blanks and comments, and two when a name
-- follows the mark of an element at once.
def next? (cs : List Char) : Option (List Token × List Char) :=
  let op (n : Nat) : Option (List Token × List Char) := some ([.op (bytesOf (cs.take n))], cs.drop n)
  match cs with
  | [] => none
  | '/' :: '/' :: r => some ([], r.dropWhile (· != '\n'))
  | '/' :: '*' :: r => (skipBlock r).map ([], ·)
  | c :: r =>
    let follows (s : String) : Bool := (r.head?.map (isOneOf s)).getD false
    if Text.isSpace c then some ([], r)
    else if c == '\'' || c == '"' then (quotedText (r.length + 1) c [] r).map fun x => ([.text x.1], x.2)
    else if c == '\x60' then (rawText [] r).map fun x => ([.text x.1], x.2)
    else if Text.isDigit c then (number? cs).map fun x => ([.number (String.ofList x.1)], x.2)
    else if c == '?' then op (if follows ".?" then 2 else 1)
    else if c == '/' then op 1
    else if c == '#' then
      if follows "#" then op 2
      else
        let word := r.takeWhile isWordChar
        some (.op "#" :: (if word.isEmpty then [] else [.name (bytesOf word)]), r.dropWhile isWordChar)
    else if c == '|' then op (if follows "|" then 2 else 1)
    else if c == ':' then op (if follows ":" then 2 else 1)
    else if isOneOf "([\x7b)]\x7d,;%+-^" c then op 1
    else if isOneOf "&!=*<>" c then op (if follows "&=*" then 2 else 1)
    else if c == '.' then
      if follows "0123456789" then (number? r).map fun x => ([.number (String.ofList ('.' :: x.1))], x.2)
      else op (if follows "." then 2 else 1)
    else if isWordChar c then
      let word := bytesOf (cs.takeWhile isWordChar)
      some ([if wordOperators.contains word then .op word else .name word], cs.dropWhile isWordChar)
    else none

def tokensFrom : Nat → List Char → Option (List Token)
  | 0, _ => none
  | _, [] => some []
  | fuel + 1, c :: cs =>
    match next? (c :: cs) with
    | none => none
    | some (ts, rest) => (tokensFrom fuel rest).map (ts ++ ·)

-- The tokens of a condition; none if it holds a character or a quote that no token has.
def tokens? (s : String) : Option (List Token) :=
  let cs := (Text.runes s).map Text.Rune.value
  tokensFrom (cs.length + 1) cs

end Condition
end Dependency
end ShellScript

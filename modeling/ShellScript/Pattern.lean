import ShellScript.Regex.Match

-- Shell patterns: `*`, `?` and bracket expressions, matched against a whole text.
namespace ShellScript

-- A pattern ready to match, with the most characters that it can match. One that is malformed matches only
-- itself.
inductive Pattern where
  | compiled (m : Regex.Matcher) (maxLength : Option Nat)
  | itself (text : String)
deriving Inhabited

namespace Pattern

-- A whole class such as `[[:alpha:]]`, given what follows the first bracket: the text after it.
inductive WholeClass where
  | none_
  | malformed
  | found (text rest : List Char)

def cutClass : List Char → List Char → Option (List Char × List Char)
  | _, [] => none
  | acc, ':' :: ']' :: ']' :: cs => some (acc.reverse, cs)
  | acc, c :: cs => cutClass (c :: acc) cs

def wholeClass : List Char → WholeClass
  | '[' :: '.' :: _ => .malformed
  | '[' :: '=' :: _ => .malformed
  | '[' :: ':' :: cs =>
    match cutClass [] cs with
    | none => .malformed
    | some (name, rest) =>
      if (Regex.CharClass.named? (String.ofList name)).isSome then
        .found ('[' :: ':' :: name ++ [':', ']', ']']) rest
      else .malformed
  | _ => .none_

-- The inside of a bracket expression up to its closing bracket, as a regular expression writes it. `last` is
-- the character before the next one.
def bracketBody : Char → List Char → Option (List Char × List Char)
  | _, [] => none
  | last, c :: cs =>
    match c with
    | '\x00' => none
    | ']' => some ([']'], cs)
    | '\\' =>
      match cs with
      | [] => none
      | d :: cs => (bracketBody d cs).map fun (a, b) => ('\\' :: d :: a, b)
    | '-' =>
      let end_ := cs.headD '\x00'
      if end_ != ']' && end_ < last then none else (bracketBody c cs).map fun (a, b) => (c :: a, b)
    | _ => (bracketBody c cs).map fun (a, b) => (c :: a, b)

def bracketStart (last : Char) (cs : List Char) : Option (List Char × List Char) :=
  match cs with
  | ']' :: cs =>
    match cs with
    | [] => none
    | _ => (bracketBody ']' cs).map fun (a, b) => (']' :: a, b)
  | _ => bracketBody last cs

-- A bracket expression, given what follows the opening bracket.
def bracketExpr (cs : List Char) : Option (List Char × List Char) :=
  match cs with
  | c :: rest =>
    if c == '!' || c == '^' then (bracketStart c rest).map fun (a, b) => ('[' :: '^' :: a, b)
    else (bracketStart '[' cs).map fun (a, b) => ('[' :: a, b)
  | [] => none

-- A character that stands for itself. A byte of a longer character is passed on as it is.
def literal (c : Char) : List Char := (Regex.quoteMeta (String.ofList (Text.utf8 c))).toList

-- The regular expression with the pattern's meaning.
def regexText : Nat → List Char → Option (List Char)
  | 0, _ => none
  | _ + 1, [] => some []
  | n + 1, c :: cs =>
    match c with
    | '\x00' => some []
    | '*' => (regexText n cs).map (['.', '*'] ++ ·)
    | '?' => (regexText n cs).map ('.' :: ·)
    | '\\' =>
      match cs with
      | [] => none
      | d :: cs => if d == '\x00' then none else (regexText n cs).map (literal d ++ ·)
    | '[' =>
      match wholeClass cs with
      | .malformed => none
      | .found text rest => (regexText n rest).map ('[' :: text ++ ·)
      | .none_ =>
        match bracketExpr cs with
        | none => none
        | some (text, rest) => (regexText n rest).map (text ++ ·)
    | _ => if c.toNat > 0x80 then (regexText n cs).map (c :: ·) else (regexText n cs).map (literal c ++ ·)

-- Patterns are made regular expressions of, by a library that is followed here.
def read (pat : String) : Pattern :=
  let regex? := do
    let cs ← regexText (pat.length + 1) pat.toList
    let (x, groups) ← Regex.read? ("(?s)^" ++ String.ofList cs ++ "$")
    some (.compiled (Regex.matcher x groups) x.maxLength?)
  match regex? with
  | some p => p
  | none => .itself pat

-- A stray byte counts as the replacement character.
def sameValues (s t : String) : Bool := (Text.runes s).map Text.Rune.value == (Text.runes t).map Text.Rune.value

def matches_ (p : Pattern) (s : String) : Bool :=
  match p with
  | .compiled m _ => m.matchesAt s
  | .itself text => sameValues s text

-- How many bytes a matching text can have at most; a character has up to four.
def maxBytes? : Pattern → Option Nat
  | .compiled _ n => n.map (4 * ·)
  | .itself text => some text.length

def isMeta (c : Char) : Bool := c == '*' || c == '?' || c == '['

-- Whether a text has a character with a meaning in patterns.
def hasMeta : List Char → Bool
  | [] => false
  | ['\\'] => false
  | '\\' :: _ :: cs => hasMeta cs
  | c :: cs => isMeta c || hasMeta cs

-- A pattern that matches only the given text. Where a character needs a backslash, stray bytes of the text become
-- replacement characters.
def quoteMeta (s : String) : String :=
  if s.toList.any fun c => isMeta c || c == '\\' then
    String.ofList ((Text.runes s).flatMap fun r =>
      let c := r.value
      if isMeta c || c == '\\' then ['\\', c] else Text.utf8 c)
  else s

end Pattern
end ShellScript

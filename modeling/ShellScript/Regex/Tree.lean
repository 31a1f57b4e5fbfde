import ShellScript.Text.CaseMap
import ShellScript.Text.Category
import ShellScript.Text.WritingSystem

-- Regular expressions and the sets of characters in them.
namespace ShellScript

-- Sets of characters, as bracket expressions write them.

namespace Regex

open Text (CodeRange)

-- Ranges in increasing order with gaps between them. Code points that are no characters may be among them.
structure CharSet where
  ranges : List CodeRange
deriving Repr, DecidableEq, Inhabited

namespace CharSet

def contains (s : CharSet) (c : Char) : Bool := CodeRange.anyContains s.ranges c.toNat

def ofRanges (rs : List CodeRange) : CharSet := ⟨CodeRange.normal rs⟩

-- With `fold` a set has every character that differs from one of its own only in case.
def folded (fold : Bool) (rs : List CodeRange) : List CodeRange := if fold then CodeRange.closed rs else rs

def complementIf (negated : Bool) (rs : List CodeRange) : List CodeRange :=
  if negated then CodeRange.complement rs else rs

-- One character, or its group of characters that differ only in case.
def single (fold : Bool) (n : Nat) : CharSet :=
  if fold then ofRanges ((Text.foldGroup n).map CodeRange.single) else ⟨[CodeRange.single n]⟩

def isSingle (s : CharSet) : Bool :=
  match s.ranges with
  | [r] => r.low == r.high
  | _ => false

end CharSet

namespace CharClass

def digits : List CodeRange := [CodeRange.ofChars '0' '9']

def lowers : List CodeRange := [CodeRange.ofChars 'a' 'z']

def uppers : List CodeRange := [CodeRange.ofChars 'A' 'Z']

-- The ranges of a class with a name, all of them ASCII.
def named? : String → Option (List CodeRange)
  | "alnum" => some (digits ++ uppers ++ lowers)
  | "alpha" => some (uppers ++ lowers)
  | "ascii" => some [⟨0, 0x7F⟩]
  | "blank" => some [⟨9, 9⟩, ⟨32, 32⟩]
  | "cntrl" => some [⟨0, 0x1F⟩, ⟨0x7F, 0x7F⟩]
  | "digit" => some digits
  | "graph" => some [CodeRange.ofChars '!' '~']
  | "lower" => some lowers
  | "print" => some [CodeRange.ofChars ' ' '~']
  | "punct" => some [CodeRange.ofChars '!' '/', CodeRange.ofChars ':' '@', CodeRange.ofChars '[' '\x60',
      CodeRange.ofChars '\x7b' '~']
  | "space" => some [⟨9, 13⟩, ⟨32, 32⟩]
  | "upper" => some uppers
  | "word" => some (digits ++ uppers ++ lowers ++ [CodeRange.ofChars '_' '_'])
  | "xdigit" => some (digits ++ [CodeRange.ofChars 'A' 'F', CodeRange.ofChars 'a' 'f'])
  | _ => none

-- The class that a letter after a backslash stands for, and whether its complement is meant.
def ofLetter? : Char → Option (Bool × List CodeRange)
  | 'd' => some (false, digits)
  | 'D' => some (true, digits)
  | 's' => some (false, [⟨9, 10⟩, ⟨12, 13⟩, ⟨32, 32⟩])
  | 'S' => some (true, [⟨9, 10⟩, ⟨12, 13⟩, ⟨32, 32⟩])
  | 'w' => (named? "word").map (false, ·)
  | 'W' => (named? "word").map (true, ·)
  | _ => none

-- Names of properties are compared without regard to case, blanks, hyphens and underscores.
def plainName (s : String) : String :=
  String.ofList ((s.toList.filter fun c => !(c == '_' || c == '-' || c == ' ')).map Char.toLower)

def plainEqual (s t : String) : Bool := plainName s == plainName t

def categoryKeys : List String :=
  ["L", "M", "N", "P", "S", "Z", "C", "LC", "Cn"] ++ Text.categoryLines.map (·.1)

-- The characters with a property: a category, by its letters or in full, or a writing system.
def property? (name : String) : Option (List CodeRange) :=
  if plainEqual name "any" then some [CodeRange.full]
  else if plainEqual name "assigned" then some (CodeRange.complement Text.unassigned)
  else if plainEqual name "ascii" then some [⟨0, 0x7F⟩]
  else match categoryKeys.find? (plainEqual name) with
    | some key => Text.category? key
    | none =>
      match Text.writingSystemLines.find? fun w => plainEqual name w.1 with
      | some w => some (CodeRange.ofLines w.2)
      | none =>
        match Text.categoryNames.find? fun c => plainEqual name c.1 with
        | some c => Text.category? c.2
        | none => none

end CharClass

def isWordChar (c : Char) : Bool := Text.isNameChar c

end Regex

-- Regular expressions as trees.

namespace Regex

inductive Assertion where
  | textStart
  | textEnd
  | lineStart
  | lineEnd
  | boundary
  | noBoundary
deriving Repr, DecidableEq, Inhabited

end Regex

inductive Regex where
  | empty
  | set (s : Regex.CharSet)
  | assert (a : Regex.Assertion)
  | cat (x y : Regex)
  -- tries `x` first
  | alt (x y : Regex)
  -- from `min` up to `max` times; `greedy` prefers more
  | times (x : Regex) (min : Nat) (max : Option Nat) (greedy : Bool)
  -- what it matches is remembered under a number
  | group (n : Nat) (x : Regex)
deriving Repr, DecidableEq, Inhabited

namespace Regex

-- Matches every character.
def any : Regex := .set ⟨[Text.CodeRange.full]⟩

def anyButNewline : Regex := .set ⟨Text.CodeRange.complement [Text.CodeRange.single 10]⟩

def char (fold : Bool) (n : Nat) : Regex := .set (.single fold n)

-- Whether it can match the empty text.
def nullable : Regex → Bool
  | .empty => true
  | .set _ => false
  | .assert _ => true
  | .cat x y => x.nullable && y.nullable
  | .alt x y => x.nullable || y.nullable
  | .times x min _ _ => min == 0 || x.nullable
  | .group _ x => x.nullable

-- How many characters it can match at most; nothing when there is no limit.
def maxLength? : Regex → Option Nat
  | .empty => some 0
  | .set _ => some 1
  | .assert _ => some 0
  | .cat x y => do return (← x.maxLength?) + (← y.maxLength?)
  | .alt x y => do return max (← x.maxLength?) (← y.maxLength?)
  | .times x _ max _ => do return (← x.maxLength?) * (← max)
  | .group _ x => x.maxLength?

-- Whether repetitions inside of each other ask for no more than `n` copies.
def repeatsWithin (n : Nat) : Regex → Bool
  | .empty => true
  | .set _ => true
  | .assert _ => true
  | .cat x y => x.repeatsWithin n && y.repeatsWithin n
  | .alt x y => x.repeatsWithin n && y.repeatsWithin n
  | .times x min max _ =>
    let copies := max.getD min
    if max == some 0 then true
    else if copies > n then false
    else x.repeatsWithin (if copies == 0 then n else n / copies)
  | .group _ x => x.repeatsWithin n

-- Whether it is a row of single characters.
def isPlainText : Regex → Bool
  | .set s => s.isSingle
  | .cat x y => x.isPlainText && y.isPlainText
  | _ => false

-- Whether it is a choice between sets of characters.
def isSetChoice : Regex → Bool
  | .set _ => true
  | .alt x y => x.isSetChoice && y.isSetChoice
  | _ => false

-- How deep it is. A row counts once however long it is, and so does a choice; `inRow` and `inChoice` say that it
-- stands in one already.
def depth : Bool → Bool → Regex → Nat
  | _, _, .empty => 1
  | _, _, .set _ => 1
  | _, _, .assert _ => 1
  | inRow, _, .cat x y =>
    if inRow then max (x.depth true false) (y.depth true false)
    else if x.isPlainText && y.isPlainText then 1
    else max (x.depth true false) (y.depth true false) + 1
  | _, inChoice, .alt x y =>
    if inChoice then max (x.depth false true) (y.depth false true)
    else if x.isSetChoice && y.isSetChoice then 1
    else max (x.depth false true) (y.depth false true) + 1
  | _, _, .times x _ _ _ => x.depth false false + 1
  | _, _, .group _ x => x.depth false false + 1

end Regex

end ShellScript

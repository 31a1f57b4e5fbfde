import ShellScript.Number.Written
import ShellScript.Text.Byte
import ShellScript.Text.Quoted
import ShellScript.Yaml.Tree

-- Writing documents.
namespace ShellScript
namespace Yaml

-- Dates and times of day. A text that has one of their forms is written in quotes, because other readers
-- would take it for a moment in time.

-- A reader of the front of a text.
abbrev Front (α : Type) := List Char → Option (α × List Char)

def digit? : Front Nat
  | c :: cs => if Text.isDigit c then some (c.toNat - '0'.toNat, cs) else none
  | [] => none

-- Exactly so many digits, after those of which `value` has been made.
def digitsFrom? (value : Nat) : Nat → Front Nat
  | 0, cs => some (value, cs)
  | n + 1, cs => (digit? cs).bind fun (d, cs) => digitsFrom? (value * 10 + d) n cs

-- One digit, or two when there are two.
def shortNumber? (cs : List Char) : Option (Nat × List Char) :=
  match digitsFrom? 0 2 cs with
  | some r => some r
  | none => digit? cs

def char? (c : Char) : Front Unit
  | x :: cs => if x == c then some ((), cs) else none
  | [] => none

def isLeapYear (y : Nat) : Bool := y % 4 == 0 && (y % 100 != 0 || y % 400 == 0)

def daysIn (year month : Nat) : Nat :=
  if month == 2 then if isLeapYear year then 29 else 28
  else if [4, 6, 9, 11].contains month then 30
  else 31

-- `2006-01-02`
def date? (cs : List Char) : Option (List Char) := do
  let (year, cs) ← digitsFrom? 0 4 cs
  let (_, cs) ← char? '-' cs
  let (month, cs) ← digitsFrom? 0 2 cs
  let (_, cs) ← char? '-' cs
  let (day, cs) ← digitsFrom? 0 2 cs
  if 1 ≤ month && month ≤ 12 && 1 ≤ day && day ≤ daysIn year month then some cs else none

-- A point or a comma with digits behind it, which may be missing.
def dropFraction : List Char → List Char
  | c :: d :: cs =>
    if (c == '.' || c == ',') && Text.isDigit d then cs.dropWhile Text.isDigit else c :: d :: cs
  | cs => cs

-- `15:04:05`
def clock? (cs : List Char) : Option (List Char) := do
  let (hour, cs) ← shortNumber? cs
  let (_, cs) ← char? ':' cs
  let (minute, cs) ← digitsFrom? 0 2 cs
  let (_, cs) ← char? ':' cs
  let (second, cs) ← digitsFrom? 0 2 cs
  if hour < 24 && minute < 60 && second < 60 then some (dropFraction cs) else none

-- `Z` or the distance from it, such as `+01:30`.
def zone? : List Char → Option (List Char)
  | 'Z' :: cs => some cs
  | c :: cs => do
    if c != '+' && c != '-' then none
    let (hour, cs) ← digitsFrom? 0 2 cs
    let (_, cs) ← char? ':' cs
    let (minute, cs) ← digitsFrom? 0 2 cs
    if hour ≤ 24 && minute < 60 then some cs else none
  | [] => none

-- An hour and a minute alone.
def hourMinute? (cs : List Char) : Option (List Char) := do
  let (hour, cs) ← shortNumber? cs
  let (_, cs) ← char? ':' cs
  let (minute, cs) ← shortNumber? cs
  if hour < 24 && minute < 60 then some cs else none

-- What may stand behind a date: nothing, a clock after blanks, or a clock with a zone.
def afterDate : List Char → Bool
  | [] => true
  | ' ' :: cs => clock? (cs.dropWhile (· == ' ')) == some []
  | c :: cs => (c == 'T' || c == 't') && (clock? cs).bind zone? == some []

def isTimestamp (s : String) : Bool :=
  ((date? s.toList).map afterDate).getD false || hourMinute? s.toList == some []

-- Documents in block style: two columns for each level, lists in line with the key that they belong to.

def isReserved (s : String) : Bool :=
  (nullWords ++ trueWords ++ falseWords ++ switchWords ++ infinityWords ++ infinityWords.map ("-" ++ ·)
    ++ nanWords).contains s

-- Whether a blank follows a colon or a hyphen somewhere, or a character is not plain anywhere.
def hasMark : List Char → Bool
  | [] => false
  | '#' :: _ => true
  | '\\' :: _ => true
  | c :: rest => ((c == ':' || c == '-') && rest.head? == some ' ') || hasMark rest

-- Whether text has to stand in quotes to be read back as text.
def needsQuotes (s : String) : Bool :=
  s == "-" || isReserved s || (number? s).isSome || isTimestamp s || hasMark s.toList
    || (match s.toList with
      | [] => true
      | c :: _ => "*&[\x7b\x7d],!|>%'\"@ ".toList.contains c || c == Text.backquote)
    || Text.hasSuffix s ":" || Text.hasSuffix s " "

-- Text on one line.
def scalar (s : String) : String := if needsQuotes s then Text.quoted s else s

-- Text of several lines stands as it is below a mark that says how its end is meant: without a line break,
-- with one, or with all of them.
def literal? (s : String) : Option (String × List String) :=
  if needsQuotes s || !s.toList.contains '\n' then none
  else
    let lines := Text.splitAt '\n' s
    if Text.hasSuffix s "\n\n" then some ("|+", lines.dropLast)
    else if Text.hasSuffix s "\n" then some ("|", lines.dropLast)
    else some ("|-", lines)

def indented (lines : List String) : List String := lines.map ("  " ++ ·)

-- Puts the first of some lines behind a mark of two columns and the others below it.
def hung (mark : String) : List String → List String
  | [] => []
  | first :: rest => (mark ++ first) :: indented rest

-- What follows a mark such as a key: the rest of its line, and the lines below.
def textLines (mark s : String) : List String :=
  match literal? s with
  | some (style, lines) => (mark ++ style) :: indented lines
  | none => [mark ++ scalar s]

mutual

def lines : Yaml → List String
  | .null => ["null"]
  | .bool b => [if b then "true" else "false"]
  | .int n => [toString n]
  | .float x => [x.text .general 'e' none]
  | .text s => textLines "" s
  | .remarked s remark => [scalar s ++ " #" ++ remark]
  | .list [] => ["[]"]
  | .list items => itemLines items
  | .map [] => ["\x7b\x7d"]
  | .map fields => fieldLines fields

def itemLines : List Yaml → List String
  | [] => []
  | .text s :: rest => textLines "- " s ++ itemLines rest
  | item :: rest => hung "- " (lines item) ++ itemLines rest

def fieldLines : List (String × Yaml) → List String
  | [] => []
  | (key, value) :: rest =>
    (match value with
      | .map (_ :: _) => (scalar key ++ ":") :: indented (lines value)
      | .list (_ :: _) => (scalar key ++ ":") :: lines value
      | .text s => textLines (scalar key ++ ": ") s
      | _ => (lines value).map (scalar key ++ ": " ++ ·)) ++ fieldLines rest

end

-- The whole document.
def render (y : Yaml) : String := String.join ((lines y).map (· ++ "\n"))

end Yaml
end ShellScript

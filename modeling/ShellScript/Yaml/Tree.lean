import ShellScript.Number.Binary64
import ShellScript.Text.Integer
import ShellScript.Text.Rune

-- YAML documents and the scalars in them.
namespace ShellScript

inductive Yaml where
  | null
  | bool (b : Bool)
  | int (n : Int)
  | float (x : Binary64)
  | text (s : String)
  -- text with a remark at the end of its line
  | remarked (s remark : String)
  | list (items : List Yaml)
  | map (fields : List (String × Yaml))

namespace Yaml

instance : Inhabited Yaml := ⟨.null⟩

def nullWords : List String := ["null", "Null", "NULL", "~"]

def trueWords : List String := ["true", "True", "TRUE"]

def falseWords : List String := ["false", "False", "FALSE"]

def infinityWords : List String := [".inf", ".Inf", ".INF"]

def nanWords : List String := [".nan", ".NaN", ".NAN"]

-- Words that some readers take for a truth value. They are text here but are written in quotes.
def switchWords : List String :=
  ["y", "Y", "yes", "Yes", "YES", "n", "N", "no", "No", "NO", "on", "On", "ON", "off", "Off", "OFF"]

-- An integer in a base, which has to fit into 64 bits.
def integer? (base : Nat) (negative : Bool) (cs : List Char) : Option Yaml :=
  if cs.isEmpty then none
  else (Text.natOfDigits? base 0 cs).bind fun n =>
    if negative then if n ≤ 9223372036854775808 then some (.int (-(n : Int))) else none
    else if n ≤ Text.maxUInt64 then some (.int n) else none

-- The number that a plain scalar stands for. Underscores may divide its digits, a point makes it a fraction,
-- and a leading zero makes it octal.
def number? (s : String) : Option Yaml :=
  if s.isEmpty || Text.hasPrefix s "_" then none
  else
    let points := s.toList.countP (· == '.')
    let negative := Text.hasPrefix s "-"
    let digits := (Text.withoutPrefix (Text.withoutPrefix s "+") "-").toList.filter (· != '_')
    if points > 1 then none
    else match digits with
      | '0' :: 'x' :: ds => integer? 16 negative ds
      | '0' :: 'o' :: ds => integer? 8 negative ds
      | '0' :: 'b' :: ds => integer? 2 negative ds
      | _ =>
        if points == 1 then
          let t := (if negative then "-" else "") ++ String.ofList digits
          ((Binary64.read? t).filter fun x => !x.isInfinite).map .float
        else match digits with
          | '0' :: d :: ds => integer? 8 negative (d :: ds)
          | ds => integer? 10 negative ds

-- The value of a scalar that stands without quotes.
def ofPlain (s : String) : Yaml :=
  if s.isEmpty || nullWords.contains s then .null
  else if trueWords.contains s then .bool true
  else if falseWords.contains s then .bool false
  else if infinityWords.contains s then .float (.infinite false)
  else if infinityWords.contains (Text.withoutPrefix s "-") then .float (.infinite true)
  else if nanWords.contains s then .float .nan
  else (number? s).getD (.text s)

def texts (xs : List String) : Yaml := .list (xs.map .text)

-- Fields that are left out when they say nothing.

def textField (key s : String) : List (String × Yaml) := if s.isEmpty then [] else [(key, .text s)]

def boolField (key : String) (b : Bool) : List (String × Yaml) := if b then [(key, .bool true)] else []

def intField (key : String) (n : Int) : List (String × Yaml) := if n == 0 then [] else [(key, .int n)]

def listField (key : String) (items : List Yaml) : List (String × Yaml) :=
  if items.isEmpty then [] else [(key, .list items)]

-- The value under a key.
def get? (key : String) : Yaml → Option Yaml
  | .map fields => fields.lookup key
  | _ => none

-- Reading the scalars of a document, which are plain, quoted, or blocks of lines.

-- A place in a document: what is left of it, the column, counted from 0, and the values that have been named so far.
structure Cursor where
  rest : List Char
  column : Nat
  named : List (String × Yaml) := []

namespace Cursor

def columnAfter (column : Nat) (passed : List Char) : Nat :=
  passed.foldl (fun n c => if c == '\n' then 0 else n + 1) column

-- The place where only `rest` is left.
def moveTo (c : Cursor) (rest : List Char) : Cursor :=
  { c with rest, column := columnAfter c.column (c.rest.take (c.rest.length - rest.length)) }

def name (c : Cursor) (s : String) (y : Yaml) : Cursor := { c with named := (s, y) :: c.named }

end Cursor

def isGap (c : Char) : Bool := c == ' ' || c == '\t' || c == '\r'

-- Blanks and line breaks count as the end of a mark, and so does the end of the document.
def endsMark : List Char → Bool
  | [] => true
  | c :: _ => isGap c || c == '\n'

-- Passes blanks, line breaks and comments.
def skipGap (cs : List Char) : List Char := go false cs
where
  go (inComment : Bool) : List Char → List Char
    | [] => []
    | c :: cs =>
      if c == '\n' then go false cs
      else if inComment then go true cs
      else if isGap c then go false cs
      else if c == '#' then go true cs
      else c :: cs

-- Passes blanks within a line.
def skipBlanks (cs : List Char) : List Char := cs.dropWhile isGap

-- Whether nothing but a comment is left of a line.
def atLineEnd (cs : List Char) : Bool :=
  match skipBlanks cs with
  | [] => true
  | c :: _ => c == '\n' || c == '#'

def isFlowMark (c : Char) : Bool := c == ',' || c == '[' || c == ']' || c == '\x7b' || c == '\x7d'

-- A plain scalar to the end of its line, to a comment, or to the colon behind a key; inside brackets also to the
-- next of their marks.
def plainSpan (flow : Bool) : List Char → List Char × List Char
  | [] => ([], [])
  | c :: cs =>
    let stops := c == '\n' || (flow && isFlowMark c)
      || (c == ':' && (endsMark cs || (flow && (cs.head?.map isFlowMark).getD false)))
      || (isGap c && (skipBlanks cs).head? == some '#' && cs.head? != some '\n')
    if stops then ([], c :: cs)
    else
      let (span, rest) := plainSpan flow cs
      (c :: span, rest)

def dropBlanksBack (cs : List Char) : List Char := (cs.reverse.dropWhile isGap).reverse

-- A line break inside a scalar is a space, unless empty lines follow: those are kept.
def folded (cs : List Char) : List Char × List Char :=
  let gap := cs.takeWhile fun c => isGap c || c == '\n'
  let breaks := gap.countP (· == '\n')
  (if breaks ≤ 1 then [' '] else List.replicate (breaks - 1) '\n', cs.drop gap.length)

-- The value of so many hexadecimal digits.
def hexDigits? : Nat → Nat → List Char → Option (Nat × List Char)
  | 0, v, cs => some (v, cs)
  | n + 1, v, c :: cs => (Text.hexValue? c).bind fun d => hexDigits? n (v * 16 + d) cs
  | _ + 1, _, [] => none

-- What a character means after a backslash.
def escape? (c : Char) (cs : List Char) : Option (List Char × List Char) :=
  let char (n : Nat) : Option (List Char × List Char) := some (Text.utf8 (Char.ofNat n), cs)
  let coded (digits : Nat) : Option (List Char × List Char) :=
    (hexDigits? digits 0 cs).map fun (v, cs) => (Text.utf8 (Char.ofNat v), cs)
  match c with
  | '0' => char 0
  | 'a' => char 7
  | 'b' => char 8
  | 't' => char 9
  | 'n' => char 10
  | 'v' => char 11
  | 'f' => char 12
  | 'r' => char 13
  | 'e' => char 27
  | ' ' => char 32
  | '"' => char 34
  | '/' => char 47
  | '\\' => char 92
  | 'N' => char 0x85
  | '_' => char 0xA0
  | 'L' => char 0x2028
  | 'P' => char 0x2029
  | 'x' => coded 2
  | 'u' => coded 4
  | 'U' => coded 8
  | '\n' => some ([], skipBlanks cs)
  | _ => none

-- The inside of double quotes, and what follows the closing one.
def doubleQuoted? : Nat → List Char → List Char → Option (List Char × List Char)
  | 0, _, _ => none
  | _ + 1, _, [] => none
  | n + 1, done, c :: cs =>
    if c == '"' then some (done, cs)
    else if c == '\n' then
      let (fold, cs) := folded (c :: cs)
      doubleQuoted? n (dropBlanksBack done ++ fold) cs
    else if c == '\\' then
      match cs with
      | [] => none
      | d :: cs => (escape? d cs).bind fun (out, cs) => doubleQuoted? n (done ++ out) cs
    else doubleQuoted? n (done ++ [c]) cs

-- The inside of single quotes, where a quote is written twice.
def singleQuoted? : Nat → List Char → List Char → Option (List Char × List Char)
  | 0, _, _ => none
  | _ + 1, _, [] => none
  | n + 1, done, c :: cs =>
    if c == '\'' then
      match cs with
      | '\'' :: cs => singleQuoted? n (done ++ ['\'']) cs
      | _ => some (done, cs)
    else if c == '\n' then
      let (fold, cs) := folded (c :: cs)
      singleQuoted? n (dropBlanksBack done ++ fold) cs
    else singleQuoted? n (done ++ [c]) cs

-- How the line breaks at the end of a block are treated.
inductive Chomp where
  | strip
  | clip
  | keep
deriving Repr, DecidableEq

-- The lines of a block: those that are indented at least so far, and empty ones.
def blockLines (indent : Nat) : List (List Char) → List (List Char) × List (List Char)
  | [] => ([], [])
  | l :: ls =>
    if l.all isGap && (l.length < indent || !ls.isEmpty) then
      let (taken, rest) := blockLines indent ls
      (l.drop indent :: taken, rest)
    else if (l.take indent).all (· == ' ') && indent ≤ l.length then
      let (taken, rest) := blockLines indent ls
      (l.drop indent :: taken, rest)
    else ([], l :: ls)

-- Joins the lines of a folded block.
def foldLines : List (List Char) → List Char
  | [] => []
  | [l] => l
  | l :: m :: rest =>
    let more (x : List Char) : Bool := (x.head?.map isGap).getD false
    if l.isEmpty then '\n' :: foldLines (m :: rest)
    else if m.isEmpty then l ++ foldLines (m :: rest)
    else if more l || more m then l ++ ['\n'] ++ foldLines (m :: rest)
    else l ++ [' '] ++ foldLines (m :: rest)

-- A block scalar of a parent at a column; `fold` joins its lines. The text begins behind the first mark.
def block? (fold : Bool) (parent : Int) (cs : List Char) : Option (String × List Char) :=
  let header := cs.takeWhile fun c => c == '+' || c == '-' || Text.isDigit c
  let cs := cs.drop header.length
  if !atLineEnd cs then none
  else
    let chomp : Chomp := if header.contains '-' then .strip else if header.contains '+' then .keep else .clip
    let given := ((header.find? Text.isDigit).map fun c => c.toNat - '0'.toNat)
    let lines := Text.splitList '\n' ((cs.dropWhile (· != '\n')).drop 1)
    let first := (lines.find? fun l => !l.all isGap).getD []
    let indent : Int := match given with
      | some n => max parent 0 + n
      | none => (first.takeWhile (· == ' ')).length
    if indent ≤ parent then some ("", (Text.joinWith "\n" (lines.map String.ofList)).toList)
    else
      let (taken, rest) := blockLines indent.toNat lines
      let body := (taken.reverse.dropWhile List.isEmpty).reverse
      let tail := taken.length - body.length
      let text := if fold then foldLines body else (Text.joinWith "\n" (body.map String.ofList)).toList
      let ending : List Char := match chomp with
        | .strip => []
        | .clip => if body.isEmpty then [] else ['\n']
        | .keep => List.replicate (tail + if rest.isEmpty then 0 else 1) '\n'
      some (String.ofList (text ++ ending), '\n' :: (Text.joinWith "\n" (rest.map String.ofList)).toList)

end Yaml
end ShellScript

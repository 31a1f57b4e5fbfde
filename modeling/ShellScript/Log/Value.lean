import ShellScript.Number.Written
import ShellScript.Number.Binary64
import ShellScript.Text.Rune
import ShellScript.Text.Notation
import ShellScript.Text.Quoted

-- What a log entry tells, and how each thing is written.
namespace ShellScript
namespace Log

-- Data of no fixed shape.
inductive Item where
  | null
  | bool (b : Bool)
  | number (x : Binary64)
  | text (s : String)
  | list (items : List Item)
  -- by key
  | table (fields : List (String × Item))
deriving Repr, Inhabited

inductive Value where
  | text (s : String)
  | int (n : Int)
  | float (x : Binary64)
  | bool (b : Bool)
  -- in billionths of a second
  | duration (ns : Int)
  | error (message : String)
  | item (x : Item)
  | group (fields : List (String × Value))
deriving Repr, Inhabited

abbrev Field := String × Value

def boolText (b : Bool) : String := if b then "true" else "false"

def floatText (x : Binary64) : String := x.text .general 'e' none

mutual

-- An item as words.
def Item.plain : Item → String
  | .null => "<nil>"
  | .bool b => boolText b
  | .number x => floatText x
  | .text s => s
  | .list items => "[" ++ Text.joinWith " " (plainItems items) ++ "]"
  | .table fields => "map[" ++ Text.joinWith " " (plainFields fields) ++ "]"

def plainItems : List Item → List String
  | [] => []
  | x :: xs => x.plain :: plainItems xs

def plainFields : List (String × Item) → List String
  | [] => []
  | (k, x) :: xs => (k ++ ":" ++ x.plain) :: plainFields xs

end

-- The number as JSON has it: with an exponent only when it is very small or very large.
def jsonNumber (x : Binary64) : String :=
  let size := if x.isNegative then x.neg else x
  let tiny := size.order? ((Binary64.read? "1e-6").getD .zero) == some .lt
  let huge := size.order? ((Binary64.read? "1e21").getD .zero) != some .lt
  if !x.isZero && (tiny || huge) then
    let s := x.text .exponent 'e' none
    -- an exponent of one digit is not padded
    match s.toList.reverse with
    | d :: '0' :: sign :: 'e' :: rest => String.ofList (rest.reverse ++ ['e', sign, d])
    | _ => s
  else x.text .fixed 'e' none

-- The characters of a JSON string. `short` gives backspace and form feed letters of their own, `html` keeps
-- markup out.
def jsonRune (short html : Bool) : Text.Rune → List Char
  | .stray _ => "\\ufffd".toList
  | .char c =>
    let hex4 : List Char := '\\' :: 'u' :: Text.hex 4 c.toNat
    if c == '"' || c == '\\' then ['\\', c]
    else if c == '\n' then ['\\', 'n']
    else if c == '\r' then ['\\', 'r']
    else if c == '\t' then ['\\', 't']
    else if short && c == '\x08' then ['\\', 'b']
    else if short && c == '\x0c' then ['\\', 'f']
    else if c.toNat < 0x20 || c.toNat == 0x2028 || c.toNat == 0x2029 then hex4
    else if html && (c == '<' || c == '>' || c == '&') then hex4
    else Text.utf8 c

def jsonText (short html : Bool) (s : String) : String :=
  String.ofList ('"' :: (Text.runes s).flatMap (jsonRune short html) ++ ['"'])

mutual

def Item.json (html : Bool) : Item → String
  | .null => "null"
  | .bool b => boolText b
  | .number x => jsonNumber x
  | .text s => jsonText true html s
  | .list items => "[" ++ Text.joinWith "," (jsonItems html items) ++ "]"
  | .table fields => "\x7b" ++ Text.joinWith "," (jsonFields html fields) ++ "\x7d"

def jsonItems (html : Bool) : List Item → List String
  | [] => []
  | x :: xs => x.json html :: jsonItems html xs

def jsonFields (html : Bool) : List (String × Item) → List String
  | [] => []
  | (k, x) :: xs => (jsonText true html k ++ ":" ++ x.json html) :: jsonFields html xs

end

mutual

-- A value as words.
def Value.plain : Value → String
  | .text s => s
  | .int n => toString n
  | .float x => floatText x
  | .bool b => boolText b
  | .duration ns => Text.duration ns
  | .error s => s
  | .item x => x.plain
  | .group fields => "[" ++ Text.joinWith " " (plainGroup fields) ++ "]"

def plainGroup : List (String × Value) → List String
  | [] => []
  | (k, v) :: fs => (k ++ "=" ++ v.plain) :: plainGroup fs

end

namespace Value

def null : Value := .item .null

def isGroup : Value → Bool
  | .group _ => true
  | _ => false

def isEmptyGroup : Value → Bool
  | .group [] => true
  | _ => false

def isNull : Value → Bool
  | .item .null => true
  | _ => false

end Value

namespace Field

def plain (f : Field) : String := f.1 ++ "=" ++ f.2.plain

-- A field without key and value says nothing.
def isEmpty (f : Field) : Bool := f.1.isEmpty && f.2.isNull

end Field
end Log
end ShellScript

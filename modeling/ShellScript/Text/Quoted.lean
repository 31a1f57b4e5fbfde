import ShellScript.Text.Category
import ShellScript.Text.Rune

-- Texts between quotes, and reading them back.
namespace ShellScript.Text

-- Texts shown in messages: between double quotes, with every byte that is not part of a printable
-- character written as an escape.

-- The letter after the backslash for a control character that has one.
def escapeLetter? (c : Char) : Option Char :=
  match c.toNat with
  | 7 => some 'a'
  | 8 => some 'b'
  | 9 => some 't'
  | 10 => some 'n'
  | 11 => some 'v'
  | 12 => some 'f'
  | 13 => some 'r'
  | _ => none

def Rune.escaped (quote : Char) : Rune → List Char
  | .stray b => '\\' :: 'x' :: hex 2 b.toNat
  | .char c =>
    if c == quote || c == '\\' then ['\\', c]
    else if isPrintable c then utf8 c
    else match escapeLetter? c with
      | some l => ['\\', l]
      | none =>
        if c.toNat < 0x80 then '\\' :: 'x' :: hex 2 c.toNat
        else if c.toNat < 0x10000 then '\\' :: 'u' :: hex 4 c.toNat
        else '\\' :: 'U' :: hex 8 c.toNat

def quotedWith (quote : Char) (s : String) : String :=
  String.ofList (quote :: (runes s).flatMap (Rune.escaped quote) ++ [quote])

def quoted (s : String) : String := quotedWith '"' s

-- A byte read as the character with its number, between single quotes.
def quotedChar (c : Char) : String := String.ofList ('\'' :: Rune.escaped '\'' (.char c) ++ ['\''])

-- Texts written so that the shell reads them back unchanged.

-- Characters that mean something to the shell when they are not quoted.
def isShellChar (c : Char) : Bool :=
  ";\"'()$|&><\x60 \t\r\n\\#\x7b~*?[=".toList.contains c

def isReserved (s : String) : Bool :=
  ["!", "[[", "]]", "case", "coproc", "do", "done", "elif", "else", "esac", "fi", "for", "function", "if", "in",
    "select", "then", "time", "until", "while", "\x7b", "\x7d"].contains s

-- The replacement character is what a broken text shows, so it does not count as printable.
def Rune.isPrintable : Rune → Bool
  | .char c => Text.isPrintable c && c != replacement
  | .stray _ => false

-- A character between `$'` and `'`.
def Rune.dollarEscaped : Rune → List Char
  | .stray b => '\\' :: 'x' :: hex 2 b.toNat
  | .char c =>
    if c == '\'' || c == '\\' then ['\\', c]
    else if (Rune.char c).isPrintable then utf8 c
    else match escapeLetter? c with
      | some l => ['\\', l]
      | none =>
        if c.toNat < 0x80 then '\\' :: 'x' :: hex 2 c.toNat
        else if c.toNat < 0x10000 then '\\' :: 'u' :: hex 4 c.toNat
        else '\\' :: 'U' :: hex 8 c.toNat

def doubleEscaped (c : Char) : List Char :=
  if c == '"' || c == '\\' || c == backquote || c == '$' then ['\\', c] else [c]

-- Unchanged when that is safe; otherwise in the plainest kind of quotes that can hold the text. The program leaves this
-- to a library, which is followed here.
def shellQuoted (s : String) : String :=
  let cs := s.toList
  if cs.isEmpty then "''"
  else if cs.contains '\x00' then quoted s
  else if !(runes s).all Rune.isPrintable then
    String.ofList ('$' :: '\'' :: (runes s).flatMap Rune.dollarEscaped ++ ['\''])
  else if !cs.any isShellChar && !isReserved s then s
  else if !cs.contains '\'' then "'" ++ s ++ "'"
  else String.ofList ('"' :: cs.flatMap doubleEscaped ++ ['"'])

-- Splitting a line into words the way interpreter lines and dependency headers are split: blanks separate,
-- single quotes keep everything, double quotes keep all but a backslash before a quote or a backslash,
-- and a backslash outside quotes keeps the next character. A word without characters is dropped.

inductive SplitError where
  | unclosedQuote
  | danglingEscape
deriving Repr, DecidableEq, Inhabited

-- What the splitter is inside of.
inductive SplitState where
  | plain
  | single
  | double
  | escape (back : Bool)
deriving Repr, DecidableEq

def pushWord (cur : List Rune) (words : List (List Rune)) : List (List Rune) :=
  if cur.isEmpty then words else cur.reverse :: words

def splitRunes : SplitState → List Rune → List (List Rune) → List Rune → Except SplitError (List (List Rune))
  | .plain, cur, words, [] => .ok (pushWord cur words).reverse
  | .single, _, _, [] => .error .unclosedQuote
  | .double, _, _, [] => .error .unclosedQuote
  | .escape _, _, _, [] => .error .danglingEscape
  | .plain, cur, words, r :: rs =>
    if r.isSpace then splitRunes .plain [] (pushWord cur words) rs
    else if r.value == '\'' then splitRunes .single cur words rs
    else if r.value == '"' then splitRunes .double cur words rs
    else if r.value == '\\' then splitRunes (.escape false) cur words rs
    else splitRunes .plain (.char r.value :: cur) words rs
  | .single, cur, words, r :: rs =>
    if r.value == '\'' then splitRunes .plain cur words rs
    else splitRunes .single (.char r.value :: cur) words rs
  | .double, cur, words, r :: rs =>
    if r.value == '"' then splitRunes .plain cur words rs
    else if r.value == '\\' then splitRunes (.escape true) cur words rs
    else splitRunes .double (.char r.value :: cur) words rs
  | .escape false, cur, words, r :: rs => splitRunes .plain (.char r.value :: cur) words rs
  | .escape true, cur, words, r :: rs =>
    if r.value == '"' || r.value == '\\' then splitRunes .double (.char r.value :: cur) words rs
    else splitRunes .double (.char r.value :: .char '\\' :: cur) words rs

-- The words that a shell would see, as the library finds them to which the program leaves this.
def shellWords (s : String) : Except SplitError (List String) :=
  (splitRunes .plain [] [] (runes s)).map fun ws => ws.map ofRunes

end ShellScript.Text

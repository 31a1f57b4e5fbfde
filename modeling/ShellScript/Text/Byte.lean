-- A text is a `String` whose characters are bytes: every character has a number below 256.
-- Scripts, file contents and variable values are all kept this way, so offsets and columns count bytes
-- and invalid UTF-8 survives untouched.
namespace ShellScript.Text

def isBlank (c : Char) : Bool := c == ' ' || c == '\t' || c == '\r'

-- The characters that end an unquoted word.
def isMeta (c : Char) : Bool :=
  isBlank c || c == '\n' || c == ';' || c == '&' || c == '|' || c == '<' || c == '>' || c == '(' || c == ')'

def isDigit (c : Char) : Bool := '0' ≤ c && c ≤ '9'

def isLower (c : Char) : Bool := 'a' ≤ c && c ≤ 'z'

def isUpper (c : Char) : Bool := 'A' ≤ c && c ≤ 'Z'

def isNameStart (c : Char) : Bool := c == '_' || isLower c || isUpper c

def isNameChar (c : Char) : Bool := isNameStart c || isDigit c

-- A variable name: a letter or an underscore, then letters, digits and underscores.
def isName (s : String) : Bool :=
  match s.toList with
  | [] => false
  | c :: cs => isNameStart c && cs.all isNameChar

-- One or more decimal digits and nothing else.
def isNumeral (s : String) : Bool :=
  match s.toList with
  | [] => false
  | cs => cs.all isDigit

def backquote : Char := '\x60'

-- The value of a hexadecimal digit.
def hexValue? (c : Char) : Option Nat :=
  if isDigit c then some (c.toNat - '0'.toNat)
  else if 'a' ≤ c && c ≤ 'f' then some (c.toNat - 'a'.toNat + 10)
  else if 'A' ≤ c && c ≤ 'F' then some (c.toNat - 'A'.toNat + 10)
  else none

def octalValue? (c : Char) : Option Nat :=
  if '0' ≤ c && c ≤ '7' then some (c.toNat - '0'.toNat) else none

def hexDigit (n : Nat) : Char :=
  if n % 16 < 10 then Char.ofNat ('0'.toNat + n % 16) else Char.ofNat ('a'.toNat + (n % 16 - 10))

-- The lowest `width` hexadecimal digits of a number, most significant first.
def hex : Nat → Nat → List Char
  | 0, _ => []
  | width + 1, n => hex width (n / 16) ++ [hexDigit n]

def joinWith (sep : String) (parts : List String) : String := String.intercalate sep parts

def hasPrefix (s p : String) : Bool := p.toList.isPrefixOf s.toList

def hasSuffix (s p : String) : Bool := p.toList.isSuffixOf s.toList

def dropFront (n : Nat) (s : String) : String := String.ofList (s.toList.drop n)

def dropBack (n : Nat) (s : String) : String := String.ofList (s.toList.take (s.toList.length - n))

def takeFront (n : Nat) (s : String) : String := String.ofList (s.toList.take n)

-- Without the given beginning, or unchanged when it does not begin so.
def withoutPrefix (s p : String) : String := if hasPrefix s p then dropFront p.toList.length s else s

def withoutSuffix (s p : String) : String := if hasSuffix s p then dropBack p.toList.length s else s

def containsList (needle : List Char) : List Char → Bool
  | [] => needle.isEmpty
  | c :: cs => needle.isPrefixOf (c :: cs) || containsList needle cs

def containsText (s needle : String) : Bool := containsList needle.toList s.toList

-- The text before and after the first `c`, when there is one.
def cut? (c : Char) (s : String) : Option (String × String) :=
  let front := s.toList.takeWhile (· != c)
  match s.toList.drop front.length with
  | [] => none
  | _ :: back => some (String.ofList front, String.ofList back)

def splitList (c : Char) : List Char → List (List Char)
  | [] => [[]]
  | x :: xs =>
    let rest := splitList c xs
    if x == c then [] :: rest
    else match rest with
      | [] => [[x]]
      | r :: rs => (x :: r) :: rs

-- The pieces between the occurrences of `c`; always at least one.
def splitAt (c : Char) (s : String) : List String := (splitList c s.toList).map String.ofList

def replaceChar (c : Char) (by_ : List Char) (s : String) : String :=
  String.ofList (s.toList.flatMap fun x => if x == c then by_ else [x])

def replicate (n : Nat) (s : String) : String := String.join (List.replicate n s)

def padRight (width : Nat) (s : String) : String :=
  s ++ String.ofList (List.replicate (width - s.length) ' ')

def padLeft (width : Nat) (s : String) : String :=
  String.ofList (List.replicate (width - s.length) ' ') ++ s

-- Byte order.
def compareList : List Char → List Char → Ordering
  | [], [] => .eq
  | [], _ :: _ => .lt
  | _ :: _, [] => .gt
  | a :: as, b :: bs => if a < b then .lt else if b < a then .gt else compareList as bs

def compare (a b : String) : Ordering := compareList a.toList b.toList

def le (a b : String) : Bool := compare a b != .gt

def sort (xs : List String) : List String := xs.mergeSort le

-- Drops a value equal to the one before it.
def compact {α : Type} [BEq α] : List α → List α
  | [] => []
  | x :: xs =>
    match compact xs with
    | [] => [x]
    | y :: ys => if x == y then x :: ys else x :: y :: ys

end ShellScript.Text

import ShellScript.Text.Byte

-- Reading whole numbers.
namespace ShellScript.Text

def maxInt64 : Int := 9223372036854775807

def minInt64 : Int := -9223372036854775808

def inInt64 (n : Int) : Bool := minInt64 ≤ n && n ≤ maxInt64

-- The value of a digit in bases up to 36.
def digitValue? (c : Char) : Option Nat :=
  if isDigit c then some (c.toNat - '0'.toNat)
  else if isLower c then some (c.toNat - 'a'.toNat + 10)
  else if isUpper c then some (c.toNat - 'A'.toNat + 10)
  else none

-- The value of a list of digits, all of them below the base.
def natOfDigits? (base : Nat) : Nat → List Char → Option Nat
  | v, [] => some v
  | v, c :: cs =>
    match digitValue? c with
    | some d => if d < base then natOfDigits? base (v * base + d) cs else none
    | none => none

-- A sign and what follows it.
def splitSign : List Char → Bool × List Char
  | '-' :: cs => (true, cs)
  | '+' :: cs => (false, cs)
  | cs => (false, cs)

-- A number in a base with an optional sign, however large.
def intOfDigits? (base : Nat) (s : String) : Option Int :=
  match splitSign s.toList with
  | (_, []) => none
  | (neg, cs) => (natOfDigits? base 0 cs).map fun n => if neg then -(n : Int) else n

-- A decimal number with an optional sign that fits into 64 bits.
def int64? (s : String) : Option Int := (intOfDigits? 10 s).filter inInt64

-- What comes of reading a number of limited size. One that is too large is the nearest that is not.
inductive Numeral where
  | ok (n : Int)
  | tooLarge (nearest : Int)
  | malformed
deriving Repr, DecidableEq, Inhabited

def Numeral.toOption : Numeral → Option Int
  | .ok n => some n
  | _ => none

-- What stands for a number where nobody complains about it.
def Numeral.nearest : Numeral → Int
  | .ok n => n
  | .tooLarge n => n
  | .malformed => 0

-- Digits up to a limit. Digits after the one that passes the limit are not looked at.
def limited (base limit : Nat) (underscores : Bool) : Nat → List Char → Option (Nat × Bool)
  | v, [] => some (v, true)
  | v, c :: cs =>
    if underscores && c == '_' then limited base limit underscores v cs
    else match digitValue? c with
      | some d =>
        if d ≥ base then none
        else if v * base + d > limit then some (limit, false)
        else limited base limit underscores (v * base + d) cs
      | none => none

-- The last thing seen while underscores are checked.
inductive Seen where
  | start
  | digit
  | underscore
  | other
deriving DecidableEq

def underscoresFrom (hex : Bool) : Seen → List Char → Bool
  | seen, [] => seen != .underscore
  | seen, c :: cs =>
    if isDigit c || (hex && (hexValue? c).isSome) then underscoresFrom hex .digit cs
    else if c == '_' then seen == .digit && underscoresFrom hex .underscore cs
    else seen != .underscore && underscoresFrom hex .other cs

-- An underscore stands only between digits, or between a base mark and a digit.
def underscoresOk (cs : List Char) : Bool :=
  match (splitSign cs).2 with
  | '0' :: b :: rest =>
    let b := b.toLower
    if b == 'b' || b == 'o' || b == 'x' then underscoresFrom (b == 'x') .digit rest
    else underscoresFrom false .start ('0' :: b :: rest)
  | cs => underscoresFrom false .start cs

-- The base that a number's beginning names, and its digits.
def baseMark : List Char → Nat × List Char
  | '0' :: b :: c :: cs =>
    let mark := b.toLower
    if mark == 'b' then (2, c :: cs)
    else if mark == 'o' then (8, c :: cs)
    else if mark == 'x' then (16, c :: cs)
    else (8, b :: c :: cs)
  | '0' :: cs => (8, cs)
  | cs => (10, cs)

def maxUInt64 : Nat := 18446744073709551615

-- A number without a sign; base 0 means that the number names its base and may have underscores.
def uint64 (base : Nat) (cs : List Char) : Option (Nat × Bool) :=
  if cs.isEmpty then none
  else if base == 0 then
    let (b, ds) := baseMark cs
    match limited b maxUInt64 true 0 ds with
    | some (v, true) => if cs.contains '_' && !underscoresOk cs then none else some (v, true)
    | r => r
  else limited base maxUInt64 false 0 cs

-- A number of 64 bits with an optional sign.
def int64 (base : Nat) (s : String) : Numeral :=
  let (neg, cs) := splitSign s.toList
  match uint64 base cs with
  | none => .malformed
  | some (v, _) =>
    if neg then (if (v : Int) > -minInt64 then .tooLarge minInt64 else .ok (-(v : Int)))
    else if (v : Int) > maxInt64 then .tooLarge maxInt64 else .ok v

-- The number of 64 bits that is congruent to `n`.
def wrap64 (n : Int) : Int := Int.bmod n 18446744073709551616

end ShellScript.Text

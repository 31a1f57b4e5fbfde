import ShellScript.Text.CaseMap
import ShellScript.Text.Integer

-- Floating-point numbers and arithmetic on them.
namespace ShellScript

-- Floating-point numbers with 53 bits: what they are, and which of them a written number means.

inductive Binary64 where
  -- plus or minus `mantissa * 2 ^ exponent`
  | finite (negative : Bool) (mantissa : Nat) (exponent : Int)
  | infinite (negative : Bool)
  | nan
deriving Repr, DecidableEq, Inhabited

namespace Binary64

def zero : Binary64 := .finite false 0 0

-- A quotient rounded to the nearest whole number; a half goes to the even neighbour.
def roundDiv (num den : Nat) : Nat :=
  let q := num / den
  let r := num % den
  if 2 * r > den || (2 * r == den && q % 2 == 1) then q + 1 else q

-- `num / den * 2 ^ shift`, rounded.
def scaleDiv (num den : Nat) (shift : Int) : Nat :=
  if shift ≥ 0 then roundDiv (num * Nat.pow 2 shift.toNat) den else roundDiv num (den * Nat.pow 2 (-shift).toNat)

def minExponent : Int := -1074

def maxExponent : Int := 971

-- The exponent that gives a quotient 53 bits, or the least one there is.
def exponentFor (num den : Nat) : Int :=
  let guess : Int := (Nat.log2 num : Int) - Nat.log2 den - 53
  let fits (e : Int) : Bool :=
    if e ≥ 0 then num < den * Nat.pow 2 (53 + e.toNat) else num * Nat.pow 2 (-e).toNat < den * Nat.pow 2 53
  let e := if fits guess then guess else if fits (guess + 1) then guess + 1 else guess + 2
  max e minExponent

-- The number nearest to a quotient. `den` is not zero.
def ofRatio (negative : Bool) (num den : Nat) : Binary64 :=
  if num == 0 then .finite negative 0 0
  else
    let e := exponentFor num den
    let m := scaleDiv num den (-e)
    let (m, e) := if m == Nat.pow 2 53 then (Nat.pow 2 52, e + 1) else (m, e)
    if e > maxExponent then .infinite negative else .finite negative m e

-- The number nearest to `digits * 10 ^ exp`. Exponents far out of range are not worked out.
def ofDecimal (negative : Bool) (digits : Nat) (exp : Int) : Binary64 :=
  let length := (Nat.toDigits 10 digits).length
  if digits == 0 then .finite negative 0 0
  else if exp + length > 400 then .infinite negative
  else if exp + length < -400 then .finite negative 0 0
  else if exp ≥ 0 then ofRatio negative (digits * Nat.pow 10 exp.toNat) 1
  else ofRatio negative digits (Nat.pow 10 (-exp).toNat)

def ofInt (n : Int) : Binary64 := ofRatio (n < 0) n.natAbs 1

-- Digits with at most one point among them: their value, how many there were, and how many after the point.
structure Digits where
  value : Nat := 0
  count : Nat := 0
  fraction : Nat := 0
  point : Bool := false

def readDigits (base : Nat) : Digits → List Char → Digits × List Char
  | d, [] => (d, [])
  | d, c :: cs =>
    if c == '_' then readDigits base d cs
    else if c == '.' && !d.point then readDigits base { d with point := true } cs
    else match Text.digitValue? c with
      | some v =>
        if v < base then
          readDigits base { d with value := d.value * base + v, count := d.count + 1,
                                   fraction := if d.point then d.fraction + 1 else d.fraction } cs
        else (d, c :: cs)
      | none => (d, c :: cs)

-- An exponent; beyond five digits more make no difference.
def readExponent? (cs : List Char) : Option Int :=
  let (neg, cs) := Text.splitSign cs
  match cs with
  | c :: _ =>
    if !Text.isDigit c || !cs.all (fun c => Text.isDigit c || c == '_') then none
    else
      let ds := cs.filter (· != '_')
      let v := ds.foldl (fun (v : Nat) c => if v < 10000 then v * 10 + (c.toNat - '0'.toNat) else v) 0
      some (if neg then -(v : Int) else v)
  | [] => none

def special? (s : String) : Option Binary64 :=
  match s.map Char.toLower with
  | "inf" | "+inf" | "infinity" | "+infinity" => some (.infinite false)
  | "-inf" | "-infinity" => some (.infinite true)
  | "nan" => some .nan
  | _ => none

-- A number with an optional sign, point and exponent. After `0x` the digits are hexadecimal, and a binary
-- exponent must follow.
def read? (s : String) : Option Binary64 :=
  match special? s with
  | some x => some x
  | none =>
    let all := s.toList
    if all.contains '_' && !Text.underscoresOk all then none
    else
      let (neg, cs) := Text.splitSign all
      let (hex, cs) := match cs with
        | '0' :: 'x' :: cs => (true, cs)
        | '0' :: 'X' :: cs => (true, cs)
        | cs => (false, cs)
      let (d, rest) := readDigits (if hex then 16 else 10) {} cs
      if d.count == 0 then none
      else match rest with
        | [] => if hex then none else some (ofDecimal neg d.value (-(d.fraction : Int)))
        | c :: rest =>
          if hex then
            if c.toLower != 'p' then none
            else (readExponent? rest).map fun (e : Int) =>
              let e := e - 4 * d.fraction
              if d.value == 0 then .finite neg 0 0
              else if e > 5000 then .infinite neg
              else if e < -20000 then .finite neg 0 0
              else if e ≥ 0 then ofRatio neg (d.value * Nat.pow 2 e.toNat) 1
              else ofRatio neg d.value (Nat.pow 2 (-e).toNat)
          else if c.toLower != 'e' then none
          else (readExponent? rest).map fun (e : Int) => ofDecimal neg d.value (e - d.fraction)

def isInfinite : Binary64 → Bool
  | .infinite _ => true
  | _ => false

-- Whether a written number that is not itself an infinity is too large.
def overflows (s : String) : Bool := (special? s).isNone && ((read? s).map isInfinite).getD false

end Binary64

-- Arithmetic on floating-point numbers: the exact result, rounded once.

namespace Binary64

-- A finite number as a quotient.
def quotient? : Binary64 → Option (Int × Nat)
  | .finite negative m e =>
    let n : Int := if negative then -(m : Int) else m
    some (if e ≥ 0 then (n * Int.pow 2 e.toNat, 1) else (n, Nat.pow 2 (-e).toNat))
  | _ => none

def ofQuotient (num : Int) (den : Nat) : Binary64 := ofRatio (num < 0) num.natAbs den

def isNegative : Binary64 → Bool
  | .finite n _ _ => n
  | .infinite n => n
  | .nan => false

def neg : Binary64 → Binary64
  | .finite n m e => .finite (!n) m e
  | .infinite n => .infinite (!n)
  | .nan => .nan

def add (x y : Binary64) : Binary64 :=
  match x.quotient?, y.quotient? with
  | some (a, b), some (c, d) => ofQuotient (a * d + c * b) (b * d)
  | some _, none => y
  | none, some _ => x
  | none, none => if x == y then x else .nan

def sub (x y : Binary64) : Binary64 := x.add y.neg

def isZero : Binary64 → Bool
  | .finite _ m _ => m == 0
  | _ => false

def mul (x y : Binary64) : Binary64 :=
  match x.quotient?, y.quotient? with
  | some (a, b), some (c, d) => ofRatio (x.isNegative != y.isNegative) (a * c).natAbs (b * d)
  | _, _ =>
    if x == .nan || y == .nan || x.isZero || y.isZero then .nan
    else .infinite (x.isNegative != y.isNegative)

def div (x y : Binary64) : Binary64 :=
  let negative := x.isNegative != y.isNegative
  match x.quotient?, y.quotient? with
  | some (a, b), some (c, d) =>
    if c == 0 then if a == 0 then .nan else .infinite negative
    else ofRatio negative (a.natAbs * d) (b * c.natAbs)
  | some _, none => if y == .nan then .nan else .finite negative 0 0
  | none, some _ => if x == .nan then .nan else .infinite negative
  | none, none => .nan

-- How two numbers compare; nothing compares with what is no number.
def order? (x y : Binary64) : Option Ordering :=
  match x.quotient?, y.quotient? with
  | some (a, b), some (c, d) => some (compare (a * d) (c * b))
  | _, _ =>
    if x == .nan || y == .nan then none
    else if x == y then some .eq
    else match x, y with
      | .infinite n, _ => some (if n then .lt else .gt)
      | _, .infinite n => some (if n then .gt else .lt)
      | _, _ => none

end Binary64

end ShellScript

import ShellScript.Number.Binary64

-- Floating-point numbers as text.
namespace ShellScript
namespace Binary64

-- Decimal digits, most significant first, and where the point stands: before digit number `point`.
structure Decimal where
  digits : List Nat
  point : Int
deriving Repr, DecidableEq, Inhabited

def digitsOf (n : Nat) : List Nat := (Nat.toDigits 10 n).map fun c => c.toNat - '0'.toNat

-- The value as a quotient.
def ratio (mantissa : Nat) (exponent : Int) : Nat × Nat :=
  if exponent ≥ 0 then (mantissa * Nat.pow 2 exponent.toNat, 1) else (mantissa, Nat.pow 2 (-exponent).toNat)

-- `num / den * 10 ^ shift`, made whole by `div`.
def decimalDiv (div : Nat → Nat → Nat) (num den : Nat) (shift : Int) : Nat :=
  if shift ≥ 0 then div (num * Nat.pow 10 shift.toNat) den else div num (den * Nat.pow 10 (-shift).toNat)

-- The `k` with `10 ^ (k - 1) ≤ num / den < 10 ^ k`, searched for from a guess that is not too large.
def pointFrom (num den : Nat) : Nat → Int → Int
  | 0, k => k
  | n + 1, k =>
    let below := if k ≥ 0 then num < den * Nat.pow 10 k.toNat else num * Nat.pow 10 (-k).toNat < den
    if below then k else pointFrom num den n (k + 1)

def pointOf (num den : Nat) : Int :=
  let bits : Int := (Nat.log2 num : Int) - Nat.log2 den
  pointFrom num den 5 (bits * 30103 / 100000 - 1)

def dropZeros (ds : List Nat) : List Nat := (ds.reverse.dropWhile (· == 0)).reverse

-- The decimal with `n` digits that `div` picks next to the value; trailing zeros are dropped.
def withDigits (div : Nat → Nat → Nat) (n : Nat) (num den : Nat) : Decimal :=
  if num == 0 then ⟨[], 0⟩
  else
    let k := pointOf num den
    let d := decimalDiv div num den (n - k)
    if d == 0 then ⟨[], 0⟩
    else
      let ds := digitsOf d
      ⟨dropZeros ds, k + (ds.length : Int) - n⟩

-- The nearest decimal with `n` digits.
def rounded (n : Nat) (num den : Nat) : Decimal := withDigits roundDiv n num den

-- The least decimal with `n` digits that is not below the value.
def above (n : Nat) (num den : Nat) : Decimal := withDigits (fun a b => (a + b - 1) / b) n num den

def Decimal.value (d : Decimal) : Nat := d.digits.foldl (fun v x => v * 10 + x) 0

def Decimal.toBinary (d : Decimal) : Binary64 :=
  ofDecimal false d.value (d.point - d.digits.length)

-- The fewest digits that read back as the same number, and of those the nearest. Below a power of two the
-- numbers lie closer together than above it, so that only the decimal above may read back.
def shortestFrom (m : Nat) (e : Int) : Nat → Nat → Decimal
  | 0, n => rounded n (ratio m e).1 (ratio m e).2
  | fuel + 1, n =>
    let (a, b) := ratio m e
    let readsBack (d : Decimal) : Bool := d.toBinary == ofRatio false a b
    if readsBack (rounded n a b) then rounded n a b
    else if readsBack (above n a b) then above n a b
    else shortestFrom m e fuel (n + 1)

def shortest (m : Nat) (e : Int) : Decimal := if m == 0 then ⟨[], 0⟩ else shortestFrom m e 16 1

def digitText (ds : List Nat) : String := String.ofList (ds.map fun d => Char.ofNat ('0'.toNat + d))

-- `n` digits from position `i` on; positions outside the digits hold zeros.
def digitsAt (ds : List Nat) (i : Int) : Nat → List Nat
  | 0 => []
  | n + 1 => (if i < 0 then 0 else ds.getD i.toNat 0) :: digitsAt ds (i + 1) n

-- `d.ddde±dd` with `prec` digits after the point.
def scientific (mark : Char) (d : Decimal) (prec : Int) : String :=
  let first := digitText (digitsAt d.digits 0 1)
  let frac := if prec > 0 then "." ++ digitText (digitsAt d.digits 1 prec.toNat) else ""
  let exp : Int := if d.digits.isEmpty then 0 else d.point - 1
  let digits := toString exp.natAbs
  first ++ frac ++ String.ofList [mark, if exp < 0 then '-' else '+']
    ++ (if digits.length < 2 then "0" ++ digits else digits)

-- `ddd.ddd` with `prec` digits after the point.
def positional (d : Decimal) (prec : Nat) : String :=
  let whole := if d.point > 0 then digitText (digitsAt d.digits 0 d.point.toNat) else "0"
  whole ++ (if prec > 0 then "." ++ digitText (digitsAt d.digits d.point prec) else "")

-- How a number is written: with an exponent, with a fixed number of places, or whichever suits it.
inductive Style where
  | exponent
  | fixed
  | general
deriving Repr, DecidableEq

-- In general style numbers below 10⁻⁴ or beyond the precision take an exponent.
def general (mark : Char) (d : Decimal) (prec : Option Nat) : String :=
  let nd : Int := d.digits.length
  let p : Int := match prec with
    | some p => p
    | none => nd
  let limit : Int := match prec with
    | none => 6
    | some p => if (p : Int) > nd && nd ≥ d.point then nd else p
  let exp := d.point - 1
  if exp < -4 || exp ≥ limit then scientific mark d ((if p > nd then nd else p) - 1)
  else
    let p := if p > d.point then nd else p
    positional d (max (p - d.point) 0).toNat

-- The digits of a number that is neither infinite nor a NaN, without a sign.
def unsigned (style : Style) (mark : Char) (prec : Option Nat) (m : Nat) (e : Int) : String :=
  let (a, b) := ratio m e
  match style, prec with
  | .exponent, some p => scientific mark (rounded (p + 1) a b) p
  | .exponent, none => let d := shortest m e; scientific mark d (max ((d.digits.length : Int) - 1) 0)
  | .fixed, some p =>
    let v := decimalDiv roundDiv a b p
    let ds := if v == 0 then [] else digitsOf v
    positional ⟨ds, (ds.length : Int) - p⟩ p
  | .fixed, none => let d := shortest m e; positional d (max ((d.digits.length : Int) - d.point) 0).toNat
  | .general, some p => let p := if p == 0 then 1 else p; general mark (rounded p a b) (some p)
  | .general, none => general mark (shortest m e) none

-- The text with its sign; a plus sign only in front of infinity.
def text (style : Style) (mark : Char) (prec : Option Nat) : Binary64 → String
  | .nan => "NaN"
  | .infinite neg => if neg then "-Inf" else "+Inf"
  | .finite neg m e => (if neg then "-" else "") ++ unsigned style mark prec m e

end Binary64
end ShellScript

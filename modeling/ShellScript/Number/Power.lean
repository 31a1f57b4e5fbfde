import ShellScript.Number.Binary64

-- Powers and roots of floating-point numbers.
namespace ShellScript
namespace Binary64

def one : Binary64 := ofInt 1

def abs : Binary64 → Binary64
  | .finite _ m e => .finite false m e
  | .infinite _ => .infinite false
  | .nan => .nan

def lessThan (x y : Binary64) : Bool := x.order? y == some .lt

def sameAs (x y : Binary64) : Bool := x.order? y == some .eq

-- Rounds a number of any size to a floating-point number.
def scaled (negative : Bool) (m : Nat) (e : Int) : Binary64 :=
  if m == 0 then .finite negative 0 0
  else if e > 5000 then .infinite negative
  else if e < -20000 then .finite negative 0 0
  else if e ≥ 0 then ofRatio negative (m * Nat.pow 2 e.toNat) 1
  else ofRatio negative m (Nat.pow 2 (-e).toNat)

-- The whole number whose square is the largest one not above `n`, searched for by halving.
def natSqrt (n : Nat) : Nat → Nat → Nat → Nat
  | 0, low, _ => low
  | fuel + 1, low, high =>
    if high ≤ low + 1 then low
    else
      let mid := (low + high) / 2
      if mid * mid ≤ n then natSqrt n fuel mid high else natSqrt n fuel low mid

-- The root to more than twice the bits that are kept; a bit below them says whether anything is left over.
def sqrt : Binary64 → Binary64
  | .nan => .nan
  | .infinite negative => if negative then .nan else .infinite false
  | .finite negative m e =>
    if m == 0 then .finite negative 0 0
    else if negative then .nan
    else
      let (m, e) := if e % 2 == 0 then (m, e) else (2 * m, e - 1)
      let n := m * Nat.pow 2 240
      let r := natSqrt n 400 0 (Nat.pow 2 200)
      scaled false (2 * r + (if r * r == n then 0 else 1)) (e / 2 - 121)

-- Fixed-point numbers with this many bits after the point.
def fixedBits : Nat := 200

def fixedMul (a b : Int) : Int := a * b / Int.pow 2 fixedBits

-- `z + z ^ 3 / 3 + z ^ 5 / 5 + …`, from the term number `k` on.
def arctanhFrom (square : Int) : Nat → Nat → Int → Int
  | 0, _, _ => 0
  | n + 1, k, power => power / k + arctanhFrom square n (k + 2) (fixedMul power square)

def arctanh (z : Int) : Int := arctanhFrom (fixedMul z z) 120 1 z

def fixedLn2 : Int := 2 * arctanh (Int.pow 2 fixedBits / 3)

-- `1 + r + r ^ 2 / 2 + …`, from the term number `k` on.
def expFrom (r : Int) : Nat → Nat → Int → Int
  | 0, _, _ => 0
  | n + 1, k, term => term + expFrom r n (k + 1) (fixedMul term r / (k + 1))

def toFixed (x : Binary64) : Int :=
  match x.quotient? with
  | some (a, b) => a * Int.pow 2 fixedBits / b
  | none => 0

-- The natural logarithm of a positive number.
def log : Binary64 → Binary64
  | .finite _ m e =>
    let bits := Nat.log2 m
    let f : Int := (m : Int) * Int.pow 2 fixedBits / Int.pow 2 bits
    let unit : Int := Int.pow 2 fixedBits
    let z := (f - unit) * unit / (f + unit)
    let l := ((bits : Int) + e) * fixedLn2 + 2 * arctanh z
    scaled (l < 0) l.natAbs (-(fixedBits : Int))
  | x => x

def exp : Binary64 → Binary64
  | .nan => .nan
  | .infinite negative => if negative then zero else .infinite false
  | x =>
    let r := toFixed x
    if r > 1000 * Int.pow 2 fixedBits then .infinite false
    else if r < -1000 * Int.pow 2 fixedBits then zero
    else
      let k := r / fixedLn2
      scaled false (expFrom (r - k * fixedLn2) 80 0 (Int.pow 2 fixedBits)).natAbs (k - fixedBits)

-- The whole part of a number's size.
def wholeSize (x : Binary64) : Nat :=
  match x.quotient? with
  | some (a, b) => a.natAbs / b
  | none => 0

def isOddWhole (x : Binary64) : Bool :=
  match x.quotient? with
  | some (a, b) => a.natAbs % b == 0 && a.natAbs / b % 2 == 1
  | none => false

-- A positive mantissa from a half up to one, and the exponent that goes with it.
def split : Binary64 → Binary64 × Int
  | .finite negative m e =>
    if m == 0 then (.finite negative 0 0, 0)
    else
      let bits : Int := Nat.log2 m + 1
      (scaled negative m (-bits), e + bits)
  | x => (x, 0)

-- Squares once for each bit of the exponent; the mantissa stays near one.
def powLoop : Nat → Nat → Binary64 → Int → Binary64 → Int → Binary64 × Int
  | 0, _, a, ae, _, _ => (a, ae)
  | fuel + 1, i, a, ae, x, xe =>
    if i == 0 then (a, ae)
    else if xe < -4096 || 4096 < xe then (a, ae + xe)
    else
      let (a, ae) := if i % 2 == 1 then (a.mul x, ae + xe) else (a, ae)
      let square := x.mul x
      let (square, xe) :=
        if square.lessThan (ofRatio false 1 2) then (square.add square, 2 * xe - 1) else (square, 2 * xe)
      powLoop fuel (i / 2) a ae square xe

-- Multiplies by a power of two.
def shifted (x : Binary64) (k : Int) : Binary64 :=
  match x with
  | .finite negative m e => scaled negative m (e + k)
  | x => x

def powFinite (x y : Binary64) : Binary64 :=
  let yi := y.abs.wholeSize
  let yf := y.abs.sub (ofInt yi)
  let up := (ofRatio false 1 2).lessThan yf
  let (yi, yf') := if up then (yi + 1, yf.sub one) else (yi, yf)
  let a := if yf.isZero then one else exp (yf'.mul (log x))
  let (m, e) := x.split
  let (a, ae) := powLoop 70 yi a 0 m e
  if y.isNegative then (one.div a).shifted (-ae) else a.shifted ae

def pow (x y : Binary64) : Binary64 :=
  let half := ofRatio false 1 2
  if y.isZero || x.sameAs one then one
  else if y.sameAs one then x
  else if x == .nan || y == .nan then .nan
  else if x.isZero then
    let kept := x.isNegative && y.isOddWhole
    if y.isNegative then .infinite kept else .finite kept 0 0
  else if y.isInfinite then
    if x.sameAs one.neg then one
    else if x.abs.lessThan one == !y.isNegative then zero else .infinite false
  else if x.isInfinite then
    let kept := x.isNegative && y.isOddWhole
    if y.isNegative then .finite kept 0 0 else .infinite kept
  else if y.sameAs half then x.sqrt
  else if y.sameAs half.neg then one.div x.sqrt
  else if x.isNegative && !(y.sub (ofInt y.abs.wholeSize)).isZero && !(y.add (ofInt y.abs.wholeSize)).isZero then .nan
  else if y.abs.wholeSize ≥ Nat.pow 2 63 then
    if x.sameAs one.neg then one
    else if x.abs.lessThan one == !y.isNegative then zero else .infinite false
  else powFinite x y

-- The nearest whole number towards zero, wrapped to 64 bits' least number when there is none.
def toInt64 (x : Binary64) : Int :=
  match x.quotient? with
  | some (a, b) => if Text.inInt64 (a.tdiv b) then a.tdiv b else Text.minInt64
  | none => Text.minInt64

def floor (x : Binary64) : Binary64 :=
  match x.quotient? with
  | some (a, b) => if x.isZero then x else ofRatio x.isNegative (a.fdiv b).natAbs 1
  | none => x

def ceil (x : Binary64) : Binary64 := (floor x.neg).neg

-- The nearest whole number; a half goes away from zero.
def round (x : Binary64) : Binary64 :=
  match x.quotient? with
  | some (a, b) => ofRatio x.isNegative ((2 * a.natAbs + b) / (2 * b)) 1
  | none => x

end Binary64
end ShellScript

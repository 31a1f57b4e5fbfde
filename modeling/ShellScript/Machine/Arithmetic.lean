import ShellScript.Machine.Failure
import ShellScript.Script.Tree
import ShellScript.Text.Rune
import ShellScript.Text.Integer

-- Whole numbers of 64 bits that wrap around.
namespace ShellScript
namespace Machine
namespace Arithmetic

def issue {α : Type} (text : String) : Except Failure α := .error (.withDetail .arith text)

def ofBool (b : Bool) : Int := if b then 1 else 0

def bits (f : BitVec 64 → BitVec 64 → BitVec 64) (l r : Int) : Int :=
  (f (BitVec.ofInt 64 l) (BitVec.ofInt 64 r)).toInt

-- A power, by squaring.
def power : Nat → Int → Nat → Int → Int
  | 0, _, _, acc => acc
  | n + 1, base, e, acc =>
    if e == 0 then acc
    else power n (Text.wrap64 (base * base)) (e / 2) (if e % 2 == 1 then Text.wrap64 (acc * base) else acc)

-- The operator that an assignment such as `+=` applies.
def ofAssign? : Script.ArithOp → Option Script.ArithOp
  | .addAssign => some .add
  | .subAssign => some .sub
  | .mulAssign => some .mul
  | .quoAssign => some .quo
  | .remAssign => some .rem
  | .shlAssign => some .shl
  | .shrAssign => some .shr
  | .andAssign => some .and
  | .orAssign => some .or
  | .xorAssign => some .xor
  | _ => none

def isAssign (op : Script.ArithOp) : Bool := op == .assign || (ofAssign? op).isSome

def binary (op : Script.ArithOp) (l r : Int) : Except Failure Int :=
  match op with
  | .add => .ok (Text.wrap64 (l + r))
  | .sub => .ok (Text.wrap64 (l - r))
  | .mul => .ok (Text.wrap64 (l * r))
  | .quo => if r == 0 then issue "division by 0" else .ok (Text.wrap64 (l.tdiv r))
  | .rem => if r == 0 then issue "division by 0" else .ok (l.tmod r)
  | .pow => if r < 0 then issue "exponent less than 0" else .ok (power 64 l r.toNat 1)
  | .shl => .ok (Text.wrap64 (l * Int.pow 2 (r % 64).toNat))
  | .shr => .ok (l >>> (r % 64).toNat)
  | .and => .ok (bits (· &&& ·) l r)
  | .or => .ok (bits (· ||| ·) l r)
  | .xor => .ok (bits (· ^^^ ·) l r)
  | .eql => .ok (ofBool (l == r))
  | .neq => .ok (ofBool (l != r))
  | .lss => .ok (ofBool (l < r))
  | .leq => .ok (ofBool (l ≤ r))
  | .gtr => .ok (ofBool (l > r))
  | .geq => .ok (ofBool (l ≥ r))
  | _ => .error (.withDetail .arith op.text)

def unary (op : Script.ArithOp) (n : Int) : Except Failure Int :=
  match op with
  | .add => .ok n
  | .sub => .ok (Text.wrap64 (-n))
  | .not => .ok (ofBool (n == 0))
  | .bitNot => .ok (-n - 1)
  | _ => .error (.withDetail .arith op.text)

-- Begins like a number.
def isNumber (s : String) : Bool :=
  match (Text.splitSign s.toList).2 with
  | c :: _ => Text.isDigit c
  | [] => false

-- The digits beyond 36 are capital letters, `@` and `_`.
def wideDigit? (c : Char) : Option Nat :=
  if Text.isDigit c then some (c.toNat - '0'.toNat)
  else if Text.isLower c then some (c.toNat - 'a'.toNat + 10)
  else if Text.isUpper c then some (c.toNat - 'A'.toNat + 36)
  else if c == '@' then some 62
  else if c == '_' then some 63
  else none

def wideDigits (base : Nat) : Int → List Char → Option Int
  | v, [] => some v
  | v, c :: cs =>
    match wideDigit? c with
    | some d => if d < base then wideDigits base (Text.wrap64 (v * base + d)) cs else none
    | none => none

def inBase (base : Nat) (digits : String) : Option Int :=
  if base ≤ 36 then (Text.int64 base digits).toOption else wideDigits base 0 digits.toList

def malformed {α : Type} (text what : String) : Except Failure α :=
  .error { cause := .arith, details := [text, what] }

-- Decimal, octal after `0`, hexadecimal after `0x`, or `base#digits`.
def number (text : String) : Except Failure Int :=
  let (neg, cs) := Text.splitSign (Text.trim text).toList
  let s := String.ofList cs
  let value? : Except Failure (Option Int) :=
    match Text.cut? '#' s with
    | some (b, digits) =>
      match Text.int64? b with
      | some base => if base < 2 || base > 64 then malformed text "invalid base" else .ok (inBase base.toNat digits)
      | none => malformed text "invalid base"
    | none => .ok (Text.int64 0 s).toOption
  match value? with
  | .error f => .error f
  | .ok none => malformed text "value too great for base"
  | .ok (some n) => .ok (if neg then Text.wrap64 (-n) else n)

end Arithmetic
end Machine
end ShellScript

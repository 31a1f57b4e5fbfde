import ShellScript.Text.Integer

-- Sets of code points, as unions of ranges.
namespace ShellScript.Text

structure CodeRange where
  low : Nat
  high : Nat
deriving Repr, DecidableEq, Inhabited

def maxCodePoint : Nat := 0x10FFFF

namespace CodeRange

def contains (r : CodeRange) (n : Nat) : Bool := r.low ≤ n && n ≤ r.high

def single (n : Nat) : CodeRange := ⟨n, n⟩

def ofChars (low high : Char) : CodeRange := ⟨low.toNat, high.toNat⟩

def full : CodeRange := ⟨0, maxCodePoint⟩

-- Whether one of the ranges contains it.
def anyContains (rs : List CodeRange) (n : Nat) : Bool := rs.any (·.contains n)

-- Puts ranges together that overlap or touch, given that they come by increasing low ends.
def merge : List CodeRange → List CodeRange
  | [] => []
  | [r] => [r]
  | r :: s :: rs =>
    if s.low ≤ r.high + 1 then merge (⟨r.low, max r.high s.high⟩ :: rs) else r :: merge (s :: rs)
termination_by rs => rs.length

-- The same set as ranges in increasing order with gaps between them.
def normal (rs : List CodeRange) : List CodeRange := merge (rs.mergeSort fun a b => a.low ≤ b.low)

-- What lies outside of ranges in increasing order with gaps between them, from `from_` on.
def gaps : Nat → List CodeRange → List CodeRange
  | from_, [] => if from_ ≤ maxCodePoint then [⟨from_, maxCodePoint⟩] else []
  | from_, r :: rs => if from_ < r.low then ⟨from_, r.low - 1⟩ :: gaps (r.high + 1) rs else gaps (r.high + 1) rs

def complement (rs : List CodeRange) : List CodeRange := gaps 0 (normal rs)

def hexNumber (s : String) : Nat := (natOfDigits? 16 0 s.toList).getD 0

-- One item of a table: `B5`, `41-5A`, or `100-136/2` for every second one from the first to the last.
def ofItem (item : String) : List CodeRange :=
  match item.splitOn "/" with
  | [ends, _] =>
    match ends.splitOn "-" with
    | [low, high] =>
      let low := hexNumber low
      (List.range ((hexNumber high - low) / 2 + 1)).map fun i => single (low + 2 * i)
    | _ => []
  | _ =>
    match item.splitOn "-" with
    | [low, high] => [⟨hexNumber low, hexNumber high⟩]
    | _ => [single (hexNumber item)]

-- The set that lines of items stand for.
def ofLines (lines : List String) : List CodeRange := lines.flatMap fun line => (line.splitOn " ").flatMap ofItem

end CodeRange

end ShellScript.Text

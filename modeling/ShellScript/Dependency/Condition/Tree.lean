import ShellScript.Number.Binary64

-- Conditions as trees.
namespace ShellScript
namespace Dependency
namespace Condition

inductive UnaryOp where
  | not
  | minus
  | plus
deriving Repr, DecidableEq, Inhabited

inductive BinaryOp where
  | or
  | and
  | equal
  | unequal
  -- as `equal` and `unequal`, for operands that must both be whole numbers or both be texts
  | equalInts
  | unequalInts
  | equalTexts
  | unequalTexts
  | less
  | greater
  | atLeast
  | atMost
  | within
  | matches_
  | contains
  | startsWith
  | endsWith
  | range
  | add
  | sub
  | mul
  | div
  | mod
  | pow
  -- the second operand in place of a first one that is nothing
  | orElse
deriving Repr, DecidableEq, Inhabited

-- What goes through the elements of a list.
inductive Walk where
  | all
  | none_
  | any
  | one
  | filter
  | map
  | count
  | sum
  | find
  | findIndex
  | findLast
  | findLastIndex
  | groupBy
  | sortBy
  | reduce
  -- as `find` and `findLast`, but there must be such an element
  | findSure
  | findLastSure
deriving Repr, DecidableEq, Inhabited

inductive Expr where
  | null
  | bool (b : Bool)
  | int (n : Int)
  | float (x : Binary64)
  | text (s : String)
  | name (s : String)
  -- the element that a walk has come to, its place or what has been gathered so far
  | element
  | index
  | gathered
  | unknownMark
  | list (es : List Expr)
  | table (entries : List (Expr × Expr))
  | unary (op : UnaryOp) (x : Expr)
  | binary (op : BinaryOp) (x y : Expr)
  | choose (cond yes no : Expr)
  -- an optional member of nothing makes the chain around it nothing
  | member (x key : Expr) (optional : Bool)
  | chain (x : Expr)
  | slice (x : Expr) (from_ to_ : Option Expr)
  | call (fn : String) (args : List Expr)
  | method (x : Expr) (name : String) (optional : Bool) (args : List Expr)
  -- `body` is worked out for each element; `extra` is an order or a first value
  | walk (w : Walk) (xs : Expr) (body extra : Option Expr)
  | bind (name : String) (value rest : Expr)
  | seq (es : List Expr)
  -- whether a whole number or a text is one of those given
  | amongInts (x : Expr) (ns : List Int)
  | amongTexts (x : Expr) (ts : List String)
deriving Repr, Inhabited

namespace BinaryOp

def ofText? : String → Option BinaryOp
  | "or" | "||" => some .or
  | "and" | "&&" => some .and
  | "==" => some .equal
  | "!=" => some .unequal
  | "<" => some .less
  | ">" => some .greater
  | ">=" => some .atLeast
  | "<=" => some .atMost
  | "in" => some .within
  | "matches" => some .matches_
  | "contains" => some .contains
  | "startsWith" => some .startsWith
  | "endsWith" => some .endsWith
  | ".." => some .range
  | "+" => some .add
  | "-" => some .sub
  | "*" => some .mul
  | "/" => some .div
  | "%" => some .mod
  | "**" | "^" => some .pow
  | "??" => some .orElse
  | _ => none

-- How tightly an operator binds.
def level : BinaryOp → Nat
  | .or => 10
  | .and => 15
  | .range => 25
  | .add | .sub => 30
  | .mul | .div | .mod => 60
  | .pow => 100
  | .orElse => 500
  | _ => 20

def groupsRight (op : BinaryOp) : Bool := op == .pow

def isComparison (op : BinaryOp) : Bool := op == .less || op == .greater || op == .atLeast || op == .atMost

-- The operators that `not` may stand before.
def takesNot (op : BinaryOp) : Bool :=
  op == .within || op == .matches_ || op == .contains || op == .startsWith || op == .endsWith

end BinaryOp

def UnaryOp.ofText? : String → Option UnaryOp
  | "not" | "!" => some .not
  | "-" => some .minus
  | "+" => some .plus
  | _ => none

def UnaryOp.level : UnaryOp → Nat
  | .not => 50
  | _ => 90

-- Whether a walk takes a body, and whether it can do without; whether it may have something extra.
inductive Need where
  | needed
  | optional
  | refused
deriving Repr, DecidableEq

namespace Walk

def ofName? : String → Option Walk
  | "all" => some .all
  | "none" => some .none_
  | "any" => some .any
  | "one" => some .one
  | "filter" => some .filter
  | "map" => some .map
  | "count" => some .count
  | "sum" => some .sum
  | "find" => some .find
  | "findIndex" => some .findIndex
  | "findLast" => some .findLast
  | "findLastIndex" => some .findLastIndex
  | "groupBy" => some .groupBy
  | "sortBy" => some .sortBy
  | "reduce" => some .reduce
  | _ => none

def body (w : Walk) : Need := if w == .count || w == .sum then .optional else .needed

def extra (w : Walk) : Need := if w == .sortBy || w == .reduce then .optional else .refused

end Walk

end Condition
end Dependency
end ShellScript

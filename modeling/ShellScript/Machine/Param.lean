import ShellScript.Machine.Failure
import ShellScript.Pattern
import ShellScript.Script.Tree

-- What a parameter expansion yields, and the operators that change it.
namespace ShellScript
namespace Machine

-- Lists are all parameters or all elements, separately or, for `star`, joined.
inductive Plural where
  | one
  | all
  | star
deriving Repr, DecidableEq, Inhabited

structure ParamValue where
  text : String := ""
  list : List String := []
  plural : Plural := .one
  isSet : Bool := false
deriving Repr, Inhabited

namespace ParamValue

def ofText (s : String) : ParamValue := { text := s, isSet := true }

def unset : ParamValue := {}

def isPlural (v : ParamValue) : Bool := v.plural != .one

def isEmpty (v : ParamValue) : Bool :=
  if v.isPlural then v.list.isEmpty || v.list == [""] else v.text.isEmpty

def map (f : String → String) (v : ParamValue) : ParamValue :=
  if v.isPlural then { v with list := v.list.map f } else { v with text := f v.text }

end ParamValue

namespace ParamOps

-- The first of some places such that what stands before it matches.
def frontAt? (p : Pattern) (cs : List Char) (places : List Nat) : Option Nat :=
  places.find? fun i => p.matches_ (String.ofList (cs.take i))

-- The first of some places such that what stands after it matches.
def backAt? (p : Pattern) (cs : List Char) (places : List Nat) : Option Nat :=
  places.find? fun i => p.matches_ (String.ofList (cs.drop i))

-- Where a text can be cut, from the left to the right.
def places (cs : List Char) : List Nat := List.range (cs.length + 1)

-- The text before a place and after it.
def cutAt (cs : List Char) (i : Nat) : String × String := (String.ofList (cs.take i), String.ofList (cs.drop i))

-- The longest front that matches and the rest.
def longestFront? (p : Pattern) (s : String) : Option (String × String) :=
  (frontAt? p s.toList (places s.toList).reverse).map (cutAt s.toList)

-- The longest back that matches after what stands before it.
def longestBack? (p : Pattern) (s : String) : Option (String × String) :=
  (backAt? p s.toList (places s.toList)).map (cutAt s.toList)

def shortestFront? (p : Pattern) (s : String) : Option (String × String) :=
  (frontAt? p s.toList (places s.toList)).map (cutAt s.toList)

def shortestBack? (p : Pattern) (s : String) : Option (String × String) :=
  (backAt? p s.toList (places s.toList).reverse).map (cutAt s.toList)

def trim (op : Script.ParamOp) (p : Pattern) (s : String) : String :=
  match op with
  | .remSmallPrefix => ((shortestFront? p s).map Prod.snd).getD s
  | .remLargePrefix => ((longestFront? p s).map Prod.snd).getD s
  | .remSmallSuffix => ((shortestBack? p s).map Prod.fst).getD s
  | .remLargeSuffix => ((longestBack? p s).map Prod.fst).getD s
  | _ => s

-- The most bytes of a text that can match, since nothing longer than the pattern allows does.
def reach (p : Pattern) (cs : List Char) : Nat :=
  match p.maxBytes? with
  | some n => (cs.take n).length
  | none => cs.length

-- The longest front that is not empty and matches: its length.
def matchLength? (p : Pattern) (cs : List Char) : Option Nat :=
  frontAt? p cs ((List.range (reach p cs + 1)).drop 1).reverse

-- Replaces matches from left to right, all of them or just the first. `skip` characters belong to a match or a
-- longer character.
def replaceFrom (p : Pattern) (repl : List Char) (every : Bool) : Nat → List Char → List Char
  | _, [] => []
  | skip + 1, _ :: cs => replaceFrom p repl every skip cs
  | 0, c :: cs =>
    match matchLength? p (c :: cs) with
    | some n => if every then repl ++ replaceFrom p repl every (n - 1) cs else repl ++ (c :: cs).drop n
    | none =>
      let size := (Text.leading c cs).2
      (c :: cs.take size) ++ replaceFrom p repl every size cs

def replace (op : Script.ParamOp) (pat repl s : String) : String :=
  if pat.isEmpty then s
  else
    let p := Pattern.read pat
    match op with
    | .replacePrefix =>
      match longestFront? p s with
      | some (_, back) => repl ++ back
      | none => s
    | .replaceSuffix =>
      match longestBack? p s with
      | some (front, _) => front ++ repl
      | none => s
    | _ => String.ofList (replaceFrom p repl.toList (op == .replaceAll) 0 s.toList)

-- Changes the case of the first or of every character that matches.
def changeCase (op : Script.ParamOp) (p : Pattern) (s : String) : String :=
  let upper := op == .upperFirst || op == .upperAll
  let every := op == .upperAll || op == .lowerAll
  let change (r : Text.Rune) : List Char :=
    let c := r.value
    let c := if p.matches_ (String.ofList (Text.utf8 c)) then (if upper then Text.toUpper c else Text.toLower c) else c
    Text.utf8 c
  match Text.runes s with
  | [] => ""
  | r :: rs => String.ofList (change r ++ rs.flatMap fun r => if every then change r else Text.utf8 r.value)

-- The part of `n` things that an offset and a length select; negative ones count from the end.
def bounds (n : Nat) (offset : Int) (length : Option Int) : Option (Nat × Nat) :=
  let start := if offset < 0 then offset + n else offset
  if start < 0 || start > n then none
  else
    let stop : Int := match length with
      | none => n
      | some l => if l < 0 then n + l else min (Text.wrap64 (start + l)) n
    if stop < start then none else some (start.toNat, stop.toNat)

def sliceList {α : Type} (xs : List α) (offset : Int) (length : Option Int) : List α :=
  match bounds xs.length offset length with
  | some (a, b) => (xs.take b).drop a
  | none => []

def sliceText (s : String) (offset : Int) (length : Option Int) : String :=
  String.ofList ((sliceList (Text.runes s) offset length).flatMap fun r => Text.utf8 r.value)

end ParamOps
end Machine
end ShellScript

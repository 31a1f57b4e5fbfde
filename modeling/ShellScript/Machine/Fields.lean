import ShellScript.Pattern
import ShellScript.Program.Tree
import ShellScript.Text.Integer

-- The fields that a word expands to.
namespace ShellScript
namespace Machine

-- A piece of a field. Quoted text takes no part in pattern matching.
structure Fragment where
  text : String
  quoted : Bool
deriving Repr, DecidableEq, Inhabited

-- How unquoted expansions are treated: split at the characters of `separators`, unless they are joined.
structure Splitting where
  separators : String
  joined : Bool
deriving Repr, Inhabited

-- Finished fields and the pieces of the current one, the last one first each. A field is `opened` once it
-- exists, even if it is empty.
structure Fields where
  done : List (List Fragment) := []
  current : List Fragment := []
  opened : Bool := false
deriving Repr, Inhabited

namespace Fields

def flush (f : Fields) : Fields := { done := f.current.reverse :: f.done }

def add (f : Fields) (text : String) (quoted : Bool) : Fields :=
  { f with current := ⟨text, quoted⟩ :: f.current, opened := true }

def finish (f : Fields) : List (List Fragment) :=
  (if f.opened || !f.current.isEmpty then f.flush else f).done.reverse

-- Where the splitting of a text is.
inductive Place where
  | word (chars : List Char)
  -- in blank separators
  | blank
  -- after a separator that is not blank
  | hard

def addWord (f : Fields) (chars : List Char) : Fields :=
  if chars.isEmpty then f else f.add (String.ofList chars.reverse) false

def isBlank (c : Char) : Bool := c == ' ' || c == '\t' || c == '\n'

-- Runs of blank separators divide fields; every other separator ends exactly one field, possibly an empty one.
def splitFrom (separators : List Char) : Place → Fields → List Char → Fields
  | .word cs, f, [] => f.addWord cs
  | .blank, f, [] => if f.opened then f.flush else f
  | .hard, f, [] => f
  | .word cs, f, c :: rest =>
    if !separators.contains c then splitFrom separators (.word (c :: cs)) f rest
    else
      let f := f.addWord cs
      if isBlank c then splitFrom separators .blank f rest else splitFrom separators .hard f.flush rest
  | .blank, f, c :: rest =>
    if !separators.contains c then splitFrom separators (.word [c]) (if f.opened then f.flush else f) rest
    else if isBlank c then splitFrom separators .blank f rest
    else splitFrom separators .hard f.flush rest
  | .hard, f, c :: rest =>
    if !separators.contains c then splitFrom separators (.word [c]) f rest
    else if isBlank c then splitFrom separators .hard f rest
    else splitFrom separators .hard f.flush rest

-- Adds the result of an unquoted expansion.
def split (f : Fields) (m : Splitting) (v : String) : Fields :=
  if m.joined || m.separators.isEmpty then (if v.isEmpty then f else f.add v false)
  else splitFrom m.separators.toList (.word []) f v.toList

def addValue (m : Splitting) (quoted : Bool) (f : Fields) (v : String) : Fields :=
  if quoted then f.add v true else f.split m v

-- Adds several values, each one a field of its own.
def addValues (f : Fields) (m : Splitting) (quoted : Bool) (vs : List String) : Fields :=
  if m.joined then f.add (Text.joinWith " " vs) quoted
  else match vs with
    | [] => f
    | v :: vs => vs.foldl (fun f v => addValue m quoted f.flush v) (addValue m quoted f v)

end Fields

namespace Fragment

def plain (fs : List Fragment) : String := String.join (fs.map (·.text))

-- A pattern in which quoted text stands for itself.
def pattern (fs : List Fragment) : String :=
  String.join (fs.map fun f => if f.quoted then Pattern.quoteMeta f.text else f.text)

def regex (fs : List Fragment) : String :=
  String.join (fs.map fun f => if f.quoted then Regex.quoteMeta f.text else f.text)

def hasMeta (fs : List Fragment) : Bool := fs.any fun f => !f.quoted && Pattern.hasMeta f.text.toList

end Fragment

-- Brace expansion.
namespace Brace

open Program

mutual

-- The literal text of a word, without its expansions.
def wordText : Word → String
  | ⟨parts⟩ => partsText parts

def partsText : List Part → String
  | [] => ""
  | .lit text _ :: ps => text ++ partsText ps
  | .quoted parts :: ps => partsText parts ++ partsText ps
  | _ :: ps => partsText ps

end

def text (sequence : Bool) (elems : List Word) : String :=
  "\x7b" ++ Text.joinWith (if sequence then ".." else ",") (elems.map wordText) ++ "\x7d"

-- A number with leading zeros up to a width, which counts the sign.
def padded (width : Nat) (n : Int) : String :=
  let digits := toString n.natAbs
  let zeros := width - digits.length - (if n < 0 then 1 else 0)
  (if n < 0 then "-" else "") ++ String.ofList (List.replicate zeros '0') ++ digits

def widthOf (s : String) : Nat :=
  match (Text.withoutPrefix s "-").toList with
  | '0' :: _ :: _ => s.length
  | _ => 0

-- The numbers from `n` on that do not pass `to`, added to those in `done`, the last of which comes first. Numbers
-- have 64 bits, so a large step can come back from the other end.
def stepsOn (to_ step : Int) (up : Bool) : Nat → List Int → Int → List Int
  | 0, done, _ => done.reverse
  | fuel + 1, done, n =>
    if (if up then n ≤ to_ else to_ ≤ n) then
      stepsOn to_ step up fuel (n :: done) (Text.wrap64 (if up then n + step else n - step))
    else done.reverse

-- There are no more than `2 ^ 64` numbers to come across: a longer list stands for a count without an end.
def steps (from_ to_ step : Int) : List Int := stepsOn to_ step (from_ ≤ to_) 18446744073709551617 [] from_

-- The size of a step. Zero counts as one, and so does the least number, which has no counterpart.
def stepSize (n : Int) : Int := max (Text.wrap64 n.natAbs) 1

-- The character with a number, of which the low 32 bits count.
def letter (n : Int) : Char :=
  let k := Int.bmod n 4294967296
  if 0 ≤ k && k.toNat.isValidChar then Char.ofNat k.toNat else Text.replacement

-- `{from..to}` and `{from..to..step}` over numbers or single letters.
def sequence? (elems : List Word) : Option (List String) :=
  let between (from_ to_ : String) (step : Int) : Option (List String) :=
    match Text.int64? from_, Text.int64? to_ with
    | some a, some b =>
      let width := max (widthOf from_) (widthOf to_)
      some ((steps a b step).map fun n => if width > 0 then padded width n else toString n)
    | _, _ =>
      match from_.toList, to_.toList with
      | [a], [b] => some ((steps a.toNat b.toNat step).map fun n => String.ofList (Text.utf8 (letter n)))
      | _, _ => none
  match elems.map wordText with
  | [a, b] => between a b 1
  | [a, b, s] => (Text.int64? s).bind fun n => between a b (stepSize n)
  | _ => none

mutual

def alternatives : Part → List (List Part)
  | .brace true elems =>
    match sequence? elems with
    | some vs => vs.map fun v => [.lit v false]
    | none => [[.lit (text true elems) false]]
  | .brace false elems => ofElems elems
  | p => [[p]]

def ofElems : List Word → List (List Part)
  | [] => []
  | ⟨parts⟩ :: ws => expand parts ++ ofElems ws

-- One list of parts for each choice, the last choice varying fastest. To replace one brace after the other by its
-- alternatives leads to the same words.
def expand : List Part → List (List Part)
  | [] => [[]]
  | p :: ps =>
    let rest := expand ps
    (alternatives p).flatMap fun a => rest.map fun r => a ++ r

end

end Brace

-- A word that is just the list of all values: without values it is no field at all.
def isValueList : List Program.Part → Bool
  | [.param x] =>
    x.names == some '@' ||
      (!x.length && !x.indirect && x.op.isNone &&
        (x.name == "@" || match x.index with
          | some ⟨[.lit "@" _]⟩ => true
          | _ => false))
  | _ => false

end Machine
end ShellScript

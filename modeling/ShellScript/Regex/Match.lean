import ShellScript.Regex.Read

-- Matching a text. A regular expression becomes a list of instructions, and a walk over pairs of an
-- instruction and a position prefers the first choice wherever there are two. No pair is tried twice, since a
-- second try would end as the first one did.
namespace ShellScript
namespace Regex

inductive Instr where
  | step (s : CharSet) (next : Nat)
  | assert (a : Assertion) (next : Nat)
  | split (first second : Nat)
  | save (slot : Nat) (next : Nat)
  | accept
deriving Repr, DecidableEq, Inhabited

-- The instructions of a piece that is put at an address; what follows it comes right after them.
abbrev Code := Nat → List Instr

namespace Code

def seq (x y : Code) : Code := fun at_ =>
  let a := x at_
  a ++ y (at_ + a.length)

-- `x` or nothing; `greedy` tries `x` first.
def optional (greedy : Bool) (x : Code) : Code := fun at_ =>
  let a := x (at_ + 1)
  let stop := at_ + 1 + a.length
  (if greedy then .split (at_ + 1) stop else .split stop (at_ + 1)) :: a

def plus (greedy : Bool) (x : Code) : Code := fun at_ =>
  let a := x at_
  let stop := at_ + a.length + 1
  a ++ [if greedy then .split at_ stop else .split stop at_]

def star (greedy nullable : Bool) (x : Code) : Code :=
  if nullable then optional greedy (plus greedy x)
  else fun at_ =>
    let a := x (at_ + 1)
    let stop := at_ + a.length + 2
    (if greedy then .split (at_ + 1) stop else .split stop (at_ + 1)) :: a ++ [.split at_ at_]

def copies : Nat → Code → Code
  | 0, _ => fun _ => []
  | n + 1, x => seq x (copies n x)

-- Up to `n` times, each time only after the one before.
def upTo (greedy : Bool) : Nat → Code → Code
  | 0, _ => fun _ => []
  | n + 1, x => optional greedy (seq x (upTo greedy n x))

end Code

def code : Regex → Code
  | .empty => fun _ => []
  | .set s => fun at_ => [.step s (at_ + 1)]
  | .assert a => fun at_ => [.assert a (at_ + 1)]
  | .cat x y => (code x).seq (code y)
  | .alt x y => fun at_ =>
    let a := code x (at_ + 1)
    let other := at_ + 1 + a.length + 1
    let b := code y other
    .split (at_ + 1) other :: a ++ (.split (other + b.length) (other + b.length) :: b)
  | .times x min max greedy =>
    match max with
    | some m => (Code.copies min (code x)).seq (Code.upTo greedy (m - min) (code x))
    | none =>
      match min with
      | 0 => Code.star greedy x.nullable (code x)
      | k + 1 => (Code.copies k (code x)).seq (Code.plus greedy (code x))
  | .group n x => fun at_ =>
    let a := code x (at_ + 1)
    .save (2 * n) (at_ + 1) :: a ++ [.save (2 * n + 1) (at_ + a.length + 2)]

-- A regular expression ready to match: its instructions end in `accept`.
structure Matcher where
  instrs : Array Instr
  groups : Nat
deriving Inhabited

def matcher (x : Regex) (groups : Nat) : Matcher := { instrs := (code x 0 ++ [Instr.accept]).toArray, groups }

namespace Matcher

-- A place to go on from: the instruction, the position, and where groups began and ended.
structure Pending where
  pc : Nat
  pos : Nat
  slots : List (Nat × Nat)

def isWordAt (text : Array Text.Rune) (i : Nat) : Bool :=
  match text[i]? with
  | some r => isWordChar r.value
  | none => false

def holds (text : Array Text.Rune) (pos : Nat) : Assertion → Bool
  | .textStart => pos == 0
  | .textEnd => pos == text.size
  | .lineStart => pos == 0 || (text[pos - 1]?.map Text.Rune.value) == some '\n'
  | .lineEnd => pos == text.size || (text[pos]?.map Text.Rune.value) == some '\n'
  | .boundary => (pos != 0 && isWordAt text (pos - 1)) != isWordAt text pos
  | .noBoundary => (pos != 0 && isWordAt text (pos - 1)) == isWordAt text pos

-- Works off the pending places; gives the end and the slots of the first match.
def walk (m : Matcher) (text : Array Text.Rune) :
    Nat → Array Bool → List Pending → Option Pending × Array Bool
  | 0, tried, _ => (none, tried)
  | _ + 1, tried, [] => (none, tried)
  | n + 1, tried, p :: rest =>
    let key := p.pc * (text.size + 1) + p.pos
    if tried.getD key true then walk m text n tried rest
    else
      let tried := tried.setIfInBounds key true
      match m.instrs[p.pc]? with
      | none => walk m text n tried rest
      | some .accept => (some p, tried)
      | some (.split a b) => walk m text n tried ({ p with pc := a } :: { p with pc := b } :: rest)
      | some (.save slot next) =>
        walk m text n tried ({ p with pc := next, slots := (slot, p.pos) :: p.slots } :: rest)
      | some (.assert a next) =>
        if holds text p.pos a then walk m text n tried ({ p with pc := next } :: rest)
        else walk m text n tried rest
      | some (.step s next) =>
        match text[p.pos]? with
        | some r =>
          if s.contains r.value then walk m text n tried ({ p with pc := next, pos := p.pos + 1 } :: rest)
          else walk m text n tried rest
        | none => walk m text n tried rest

def states (m : Matcher) (text : Array Text.Rune) : Nat := m.instrs.size * (text.size + 1)

-- Tries the starting positions from left to right.
def search (m : Matcher) (text : Array Text.Rune) : Nat → Nat → Array Bool → Option (Nat × Pending)
  | 0, _, _ => none
  | n + 1, start, tried =>
    match walk m text (2 * m.states text + 2) tried [{ pc := 0, pos := start, slots := [] }] with
    | (some p, _) => some (start, p)
    | (none, tried) => search m text n (start + 1) tried

def slice (text : Array Text.Rune) (from_ to_ : Nat) : String := Text.ofRunes (text.extract from_ to_).toList

-- What the whole expression and each of its groups match; a group that takes no part is empty.
def find? (m : Matcher) (s : String) : Option (List String) :=
  let text := (Text.runes s).toArray
  match m.search text (text.size + 1) 0 (Array.replicate (m.states text) false) with
  | none => none
  | some (start, p) =>
    some (slice text start p.pos :: (List.range m.groups).map fun i =>
      match p.slots.lookup (2 * (i + 1)), p.slots.lookup (2 * (i + 1) + 1) with
      | some a, some b => slice text a b
      | _, _ => "")

-- Whether it matches from the beginning on.
def matchesAt (m : Matcher) (s : String) : Bool :=
  let text := (Text.runes s).toArray
  ((walk m text (2 * m.states text + 2) (Array.replicate (m.states text) false)
    [{ pc := 0, pos := 0, slots := [] }]).1).isSome

end Matcher

-- What stands for itself in a regular expression.
def quoteMeta (s : String) : String :=
  String.ofList (s.toList.flatMap fun c =>
    if "\\.+*?()|[]\x7b\x7d^$".toList.contains c then ['\\', c] else [c])

end Regex
end ShellScript

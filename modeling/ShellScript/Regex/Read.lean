import ShellScript.Regex.Tree
import ShellScript.Text.Integer

-- Reading the text of a regular expression. There is one reason to fail: the text is none.
namespace ShellScript
namespace Regex

structure Flags where
  -- ignore case
  fold : Bool := false
  -- `^` and `$` match at line ends too
  multiLine : Bool := false
  -- `.` matches a newline
  dotAll : Bool := false
  -- repetitions prefer less
  ungreedy : Bool := false
deriving Repr, DecidableEq, Inhabited

structure Scan where
  rest : List Char
  flags : Flags := {}
  groups : Nat := 0
deriving Inhabited

abbrev Reading := StateT Scan Option

namespace Reading

def fail {α : Type} : Reading α := fun _ => none

def peek : Reading (List Char) := return (← get).rest

def advance (n : Nat) : Reading Unit := modify fun s => { s with rest := s.rest.drop n }

def skipTo (rest : List Char) : Reading Unit := modify fun s => { s with rest }

end Reading

open Reading

def octalTail : Nat → Nat → List Char → Nat × List Char
  | 0, v, cs => (v, cs)
  | n + 1, v, c :: cs =>
    match Text.octalValue? c with
    | some d => octalTail n (v * 8 + d) cs
    | none => (v, c :: cs)
  | _ + 1, v, [] => (v, [])

-- One or more hexadecimal digits up to a closing brace.
def bracedHex : Nat → Bool → List Char → Option (Nat × List Char)
  | _, _, [] => none
  | v, some_, c :: cs =>
    if c == '\x7d' then (if some_ then some (v, cs) else none)
    else match Text.hexValue? c with
      | some d => if v * 16 + d > 0x10FFFF then none else bracedHex (v * 16 + d) true cs
      | none => none

-- The code point that an escape stands for, given what follows the backslash.
def escape? : List Char → Option (Nat × List Char)
  | [] => none
  | c :: cs =>
    match c with
    | 'a' => some (7, cs)
    | 'f' => some (12, cs)
    | 'n' => some (10, cs)
    | 'r' => some (13, cs)
    | 't' => some (9, cs)
    | 'v' => some (11, cs)
    | 'x' =>
      match cs with
      | '\x7b' :: cs => bracedHex 0 false cs
      | a :: b :: cs =>
        match Text.hexValue? a, Text.hexValue? b with
        | some x, some y => some (x * 16 + y, cs)
        | _, _ => none
      | _ => none
    | _ =>
      match Text.octalValue? c with
      | some d => if c == '0' || ((cs.head?.bind Text.octalValue?).isSome) then some (octalTail 2 d cs) else none
      | none =>
        if c.toNat < 0x80 && !Text.isDigit c && !Text.isLower c && !Text.isUpper c then some (c.toNat, cs) else none

-- A class as part of a set: its case is ignored before the complement is taken.
def classRanges (fold negated : Bool) (rs : List Text.CodeRange) : List Text.CodeRange :=
  CharSet.complementIf negated (CharSet.folded fold rs)

-- What an item of a bracket expression may be besides characters: no class at all, a class that does not exist,
-- or a class and the text after it.
inductive ClassItem where
  | none_
  | unknown
  | found (rs : List Text.CodeRange) (rest : List Char)

def cutNamed : List Char → List Char → Option (List Char × List Char)
  | _, [] => none
  | acc, ':' :: ']' :: cs => some (acc.reverse, cs)
  | acc, c :: cs => cutNamed (c :: acc) cs

def leadingCaret : List Char → Bool × List Char
  | '^' :: cs => (true, cs)
  | cs => (false, cs)

-- `[:name:]` or `[:^name:]`, given what follows the first colon. No closing mark makes it no class at all.
def namedClass (fold : Bool) (cs : List Char) : ClassItem :=
  match cutNamed [] cs with
  | none => .none_
  | some (name, rest) =>
    let (negated, name) := leadingCaret name
    match CharClass.named? (String.ofList name) with
    | some rs => .found (classRanges fold negated rs) rest
    | none => .unknown

def propertyNamed (fold negated : Bool) (name rest : List Char) : ClassItem :=
  let (flipped, name) := leadingCaret name
  match CharClass.property? (String.ofList name) with
  | some rs => .found (classRanges fold (negated != flipped) rs) rest
  | none => .unknown

-- What follows `\p` or, for the complement, `\P`: a letter or a name in braces.
def propertyClass (fold negated : Bool) : List Char → ClassItem
  | [] => .unknown
  | '\x7b' :: cs =>
    let name := cs.takeWhile (· != '\x7d')
    if name.length == cs.length then .unknown else propertyNamed fold negated name (cs.drop (name.length + 1))
  | c :: cs => propertyNamed fold negated [c] cs

-- The class that a backslash begins, given what follows it.
def escapedClass (fold : Bool) : List Char → ClassItem
  | [] => .none_
  | 'p' :: cs => propertyClass fold false cs
  | 'P' :: cs => propertyClass fold true cs
  | c :: cs =>
    match CharClass.ofLetter? c with
    | some (negated, rs) => .found (classRanges fold negated rs) cs
    | none => .none_

def classItem (fold : Bool) : List Char → ClassItem
  | '[' :: ':' :: cs => namedClass fold cs
  | '\\' :: cs => escapedClass fold cs
  | _ => .none_

def classChar? : List Char → Option (Nat × List Char)
  | [] => none
  | '\\' :: cs => escape? cs
  | c :: cs => some (c.toNat, cs)

-- A character, or a range of them.
def classSpan? (cs : List Char) : Option (Text.CodeRange × List Char) :=
  match classChar? cs with
  | none => none
  | some (low, rest) =>
    match rest with
    | '-' :: c :: more =>
      if c == ']' then some (⟨low, low⟩, rest)
      else match classChar? (c :: more) with
        | some (high, rest) => if high < low then none else some (⟨low, high⟩, rest)
        | none => none
    | _ => some (⟨low, low⟩, rest)

-- The items of a bracket expression up to its closing bracket, which may be the first item itself.
def classItems (fold : Bool) : Nat → Bool → List Text.CodeRange → List Char →
    Option (List Text.CodeRange × List Char)
  | 0, _, _, _ => none
  | n + 1, first, acc, cs =>
    if cs.head? == some ']' && !first then some (acc, cs.tail)
    else match classItem fold cs with
      | .unknown => none
      | .found rs rest => classItems fold n false (rs ++ acc) rest
      | .none_ =>
        match classSpan? cs with
        | none => none
        | some (r, rest) => classItems fold n false (CharSet.folded fold [r] ++ acc) rest

-- A bracket expression, given what follows the opening bracket.
def bracket? (fold : Bool) (cs : List Char) : Option (CharSet × List Char) :=
  let (negated, cs) := leadingCaret cs
  (classItems fold (cs.length + 1) true [] cs).map fun (rs, rest) =>
    (.ofRanges (CharSet.complementIf negated rs), rest)

-- A count: no leading zero, and too large when it has more than eight digits.
def count? (cs : List Char) : Option (Nat × List Char) :=
  let ds := cs.takeWhile Text.isDigit
  match ds with
  | [] => none
  | '0' :: _ :: _ => none
  | _ => (Text.natOfDigits? 10 0 ds).map fun n => (n, cs.drop ds.length)

-- `n}`, `n,}` or `n,m}`.
def bounds? (cs : List Char) : Option (Nat × Option Nat × List Char) :=
  match count? cs with
  | none => none
  | some (n, '\x7d' :: rest) => some (n, some n, rest)
  | some (n, ',' :: '\x7d' :: rest) => some (n, none, rest)
  | some (n, ',' :: rest) =>
    match count? rest with
    | some (m, '\x7d' :: rest) => some (n, some m, rest)
    | _ => none
  | _ => none

def maxRepeat : Nat := 1000

def catAll : List Regex → Regex
  | [] => .empty
  | [x] => x
  | x :: y :: xs => .cat x (catAll (y :: xs))

-- The letters of a flag group up to `:` or `)`. Says whether a group opens.
def readFlags : Flags → Bool → Bool → List Char → Option (Flags × Bool × List Char)
  | _, _, _, [] => none
  | f, on, seen, c :: cs =>
    match c with
    | 'i' => readFlags { f with fold := on } on true cs
    | 'm' => readFlags { f with multiLine := on } on true cs
    | 's' => readFlags { f with dotAll := on } on true cs
    | 'U' => readFlags { f with ungreedy := on } on true cs
    | '-' => if on then readFlags f false false cs else none
    | ':' => if on || seen then some (f, true, cs) else none
    | ')' => if on || seen then some (f, false, cs) else none
    | _ => none

def literalText : List Char → List Char × List Char
  | [] => ([], [])
  | '\\' :: 'E' :: cs => ([], cs)
  | c :: cs =>
    let (a, b) := literalText cs
    (c :: a, b)

mutual

-- Alternatives up to the end or to a closing parenthesis.
def alternatives : Nat → Reading Regex
  | 0 => fail
  | n + 1 => do
    let x ← sequence n false []
    match ← peek with
    | '|' :: _ =>
      advance 1
      return .alt x (← alternatives n)
    | _ => return x

-- What stands in a row; the last item comes first in `done`. `repeated` says that a repetition has just been
-- applied: another one may not follow.
def sequence : Nat → Bool → List Regex → Reading Regex
  | 0, _, _ => fail
  | n + 1, repeated, done => do
    match ← peek with
    | [] => return catAll done.reverse
    | '|' :: _ => return catAll done.reverse
    | ')' :: _ => return catAll done.reverse
    | '*' :: cs => repeatLast n repeated 0 none done cs
    | '+' :: cs => repeatLast n repeated 1 none done cs
    | '?' :: cs => repeatLast n repeated 0 (some 1) done cs
    | '\x7b' :: cs =>
      match bounds? cs with
      | none =>
        advance 1
        sequence n false (.char (← get).flags.fold 0x7B :: done)
      | some (min, max, rest) =>
        if min > maxRepeat || (max.getD 0) > maxRepeat || (max.getD min) < min then fail
        else repeatLast n repeated min max done rest
    | '(' :: '?' :: cs => flagGroup n done cs
    | '(' :: cs =>
      skipTo cs
      let k := (← get).groups + 1
      modify fun s => { s with groups := k }
      sequence n false (.group k (← grouped n) :: done)
    | '[' :: cs =>
      match bracket? (← get).flags.fold cs with
      | none => fail
      | some (k, rest) =>
        skipTo rest
        sequence n false (.set k :: done)
    | '.' :: cs =>
      skipTo cs
      sequence n false ((if (← get).flags.dotAll then any else anyButNewline) :: done)
    | '^' :: cs =>
      skipTo cs
      sequence n false (.assert (if (← get).flags.multiLine then .lineStart else .textStart) :: done)
    | '$' :: cs =>
      skipTo cs
      sequence n false (.assert (if (← get).flags.multiLine then .lineEnd else .textEnd) :: done)
    | '\\' :: cs => escaped n done cs
    | c :: cs =>
      skipTo cs
      sequence n false (.char (← get).flags.fold c.toNat :: done)

def repeatLast : Nat → Bool → Nat → Option Nat → List Regex → List Char → Reading Regex
  | 0, _, _, _, _, _ => fail
  | n + 1, repeated, min, max, done, rest => do
    let ungreedy := (← get).flags.ungreedy
    let (lazy, rest) := match rest with
      | '?' :: rest => (true, rest)
      | rest => (false, rest)
    match done with
    | [] => fail
    | x :: done =>
      let y : Regex := .times x min max (lazy == ungreedy)
      -- a count multiplies the counts inside of it
      if repeated || ((min ≥ 2 || max.getD 0 ≥ 2) && !y.repeatsWithin maxRepeat) then fail
      else
        skipTo rest
        sequence n true (y :: done)

-- A group's inside and its closing parenthesis; the flags outside are what they were.
def grouped : Nat → Reading Regex
  | 0 => fail
  | n + 1 => do
    let flags := (← get).flags
    let x ← alternatives n
    match ← peek with
    | ')' :: cs =>
      modify fun s => { s with rest := cs, flags }
      return x
    | _ => fail

-- What begins with `(?`.
def flagGroup : Nat → List Regex → List Char → Reading Regex
  | 0, _, _ => fail
  | n + 1, done, cs => do
    let name? : Option (List Char) := match cs with
      | 'P' :: '<' :: cs => some cs
      | '<' :: cs => some cs
      | _ => none
    match name? with
    | some cs =>
      let name := cs.takeWhile (· != '>')
      if name.length == cs.length || name.isEmpty || !name.all isWordChar then fail
      else
        let k := (← get).groups + 1
        modify fun s => { s with rest := cs.drop (name.length + 1), groups := k }
        sequence n false (.group k (← grouped n) :: done)
    | none =>
      let flags := (← get).flags
      match readFlags flags true false cs with
      | none => fail
      | some (inner, opens, rest) =>
        modify fun s => { s with rest, flags := inner }
        if opens then
          let x ← grouped n
          modify fun s => { s with flags }
          sequence n false (x :: done)
        else sequence n false done

-- What begins with a backslash.
def escaped : Nat → List Regex → List Char → Reading Regex
  | 0, _, _ => fail
  | n + 1, done, cs => do
    let fold := (← get).flags.fold
    let one (x : Regex) : Reading Regex := do
      skipTo (cs.drop 1)
      sequence n false (x :: done)
    match cs with
    | 'A' :: _ => one (.assert .textStart)
    | 'z' :: _ => one (.assert .textEnd)
    | 'b' :: _ => one (.assert .boundary)
    | 'B' :: _ => one (.assert .noBoundary)
    | 'Q' :: cs =>
      let (lit, rest) := literalText cs
      skipTo rest
      sequence n false ((lit.map fun c => char fold c.toNat).reverse ++ done)
    | _ =>
      match escapedClass fold cs with
      | .unknown => fail
      | .found rs rest =>
        skipTo rest
        sequence n false (.set (.ofRanges rs) :: done)
      | .none_ =>
        match escape? cs with
        | none => fail
        | some (c, rest) =>
          skipTo rest
          sequence n false (char fold c :: done)

end

def maxDepth : Nat := 1000

-- The regular expression that a text of bytes writes, and the number of its groups.
def read? (s : String) : Option (Regex × Nat) := do
  let text ← Text.toUnicode? s
  let cs := text.toList
  let (x, scan) ← (alternatives (3 * cs.length + 3)).run { rest := cs }
  if scan.rest.isEmpty && x.depth false false ≤ maxDepth then some (x, scan.groups) else none

end Regex
end ShellScript

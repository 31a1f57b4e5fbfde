import ShellScript.Text.CaseMap
import ShellScript.Text.Category

-- Ranks candidate names by how well they match a pattern that spells some of their characters in order.
namespace ShellScript.Text

-- A character of a candidate with the offset of its first byte.
structure Placed where
  char : Char
  offset : Nat
deriving Repr

def place : Nat → List Rune → List Placed
  | _, [] => []
  | at_, r :: rs => ⟨r.value, at_⟩ :: place (at_ + r.bytes.length) rs

def sameLetter (a b : Char) : Bool := foldCase a == foldCase b

structure RankState where
  pattern : List Char
  best : Int := -1
  bestAt : Int := -1
  adjacent : Int := 0
  -- the offsets matched so far, last first
  hits : List Int := []
  total : Int := 0

def isWordBreak (c : Char) : Bool :=
  c == '/' || c == '-' || c == '_' || c == ' ' || c == '.' || c == '\\'

-- The score of a hit at `cur`, and the bonus for standing next to the hit before it.
def hitScore (st : RankState) (last : Option Placed) (cur : Placed) : Int × Int :=
  let start : Int := if cur.offset == 0 then 10 else 0
  let camel : Int := match last with
    | some l => if isLowerChar l.char && isUpperChar cur.char then 20 else 0
    | none => 0
  let brk : Int := match last with
    | some l => if cur.offset != 0 && isWordBreak l.char then 20 else 0
    | none => 0
  let lastAt : Int := match last with
    | some l => l.offset
    | none => 0
  let bonus : Int := match st.hits with
    | [] => 0
    | h :: _ => if h == lastAt then 2 * st.adjacent + 5 else 0
  (start + camel + brk + bonus, bonus)

def scoreStep (st : RankState) (last : Option Placed) (cur : Placed) (next : Option Placed) : RankState :=
  match st.pattern with
  | [] => st
  | p :: ps =>
    let st :=
      if sameLetter cur.char p then
        let (score, bonus) := hitScore st last cur
        let st := { st with adjacent := st.adjacent + bonus }
        if score > st.best then { st with best := score, bestAt := cur.offset } else st
      else st
    let nextWanted := ps.headD '\x00'
    let close := match next with
      | none => true
      | some n => sameLetter n.char nextWanted
    if close && st.bestAt > -1 then
      let best := if st.hits.isEmpty then st.best + max (-5 * st.bestAt) (-15) else st.best
      { st with pattern := ps, total := st.total + best, hits := st.bestAt :: st.hits, best := -1 }
    else st

def scoreAll : RankState → Option Placed → List Placed → RankState
  | st, _, [] => st
  | st, last, c :: cs => scoreAll (scoreStep st last c cs.head?) (some c) cs

-- The score of a candidate that contains the pattern.
def score? (pattern candidate : String) : Option Int :=
  let wanted := (runes pattern).map Rune.value
  let st := scoreAll { pattern := wanted } none (place 0 (runes candidate))
  if st.hits.length == wanted.length then
    some (st.total - (candidate.length - st.hits.length))
  else none

-- The best candidate; of two with equal scores the later one.
def bestMatch? (pattern : String) (candidates : List String) : Option String :=
  if pattern.isEmpty then none
  else
    let scored := candidates.filterMap fun c => (score? pattern c).map (c, ·)
    (scored.foldl (fun (acc : Option (String × Int)) x =>
      match acc with
      | none => some x
      | some a => if x.2 ≥ a.2 then some x else some a) none).map Prod.fst

end ShellScript.Text

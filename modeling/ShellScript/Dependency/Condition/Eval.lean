import ShellScript.Dependency.Condition.Check
import ShellScript.Dependency.Condition.Function
import ShellScript.Dependency.Condition.Read
import ShellScript.Regex.Match

-- What a condition says of a subject.
namespace ShellScript
namespace Dependency
namespace Condition

-- Why an expression has no value: it failed, or an optional member was asked of nothing.
inductive Stop where
  | failed
  | broken

-- Work takes room; the state is how much has been used.
abbrev Work (α : Type) := StateT Nat (Except Stop) α

def maxRoom : Nat := 1000000

def fail {α : Type} : Work α := throw .failed

def given {α : Type} : Option α → Work α
  | some x => return x
  | none => fail

def grow (n : Nat) : Work Unit := do
  modify (· + n)
  if (← get) ≥ maxRoom then fail

def intArith? (op : BinaryOp) (a b : Int) : Option Value :=
  match op with
  | .add => some (.ofInt (Text.wrap64 (a + b)))
  | .sub => some (.ofInt (Text.wrap64 (a - b)))
  | .mul => some (.ofInt (Text.wrap64 (a * b)))
  | .mod => if b == 0 then none else some (.ofInt (Text.wrap64 (a.tmod b)))
  | .div => some (.float ((Binary64.ofInt a).div (Binary64.ofInt b)))
  | .pow => some (.float ((Binary64.ofInt a).pow (Binary64.ofInt b)))
  | _ => none

def floatArith? (op : BinaryOp) (a b : Binary64) : Option Value :=
  match op with
  | .add => some (.float (a.add b))
  | .sub => some (.float (a.sub b))
  | .mul => some (.float (a.mul b))
  | .div => some (.float (a.div b))
  | .pow => some (.float (a.pow b))
  | _ => none

-- A length of time times a number. A float is cut off after the multiplication.
def timesDuration? (d : Int) : Value → Option Value
  | .int _ n => some (.duration (Text.wrap64 (d * n)))
  | .float x => some (.duration ((Binary64.ofInt d).mul x).toInt64)
  | _ => none

def moved (t : Moment) (d : Int) : Value := .time { t with nanos := t.nanos + d }

-- The time between two moments; what is too long to say is cut off.
def between (a b : Moment) : Value := .duration (max Text.minInt64 (min Text.maxInt64 (a.nanos - b.nanos)))

def arith? (op : BinaryOp) (a b : Value) : Option Value :=
  match op, a, b with
  | op, .int _ x, .int _ y => intArith? op x y
  | .add, .text x, .text y => some (.text (x ++ y))
  | .add, .duration x, .duration y => some (.duration (Text.wrap64 (x + y)))
  | .sub, .duration x, .duration y => some (.duration (Text.wrap64 (x - y)))
  | .mul, .duration x, .duration y => some (.duration (Text.wrap64 (x * y)))
  | .mul, .duration x, y => timesDuration? x y
  | .mul, x, .duration y => timesDuration? y x
  | .add, .time x, .duration y => some (moved x y)
  | .add, .duration x, .time y => some (moved y x)
  | .sub, .time x, .duration y => some (moved x (-y))
  | .sub, .time x, .time y => some (between x y)
  | op, a, b => do floatArith? op (← a.float?) (← b.float?)

def ordered? (op : BinaryOp) (a b : Value) : Option Value := do
  let o ← a.order? b
  return .bool (match op with
    | .less => o == some .lt
    | .greater => o == some .gt
    | .atMost => o == some .lt || o == some .eq
    | _ => o == some .gt || o == some .eq)

def within? (a b : Value) : Option Value :=
  match b with
  | .null => some (.bool false)
  | .usage _ => a.text?.map fun k => .bool (usageNames.contains k)
  | .subject _ => a.text?.map fun k => .bool (subjectNames.contains k)
  | .table es =>
    match a with
    | .text k => some (.bool (es.lookup k).isSome)
    | .null => some (.bool (es.lookup "").isSome)
    | _ => none
  | .groups es => if a.isKey then some (.bool (es.any fun e => e.1.exact a)) else none
  | b => do
    let (_, vs) ← b.items?
    return .bool (vs.any (·.same a))

def matchesRegex? (s p : String) : Option Bool :=
  (Regex.read? p).map fun (x, groups) => ((Regex.matcher x groups).find? s).isSome

-- A test of two texts; it does not hold of nothing.
def textTest? (op : BinaryOp) (a b : Value) : Option Value :=
  if a.isNothing || b.isNothing then some (.bool false)
  else do
    let s ← a.text?
    let t ← b.text?
    match op with
    | .contains => return .bool (Text.containsText s t)
    | .startsWith => return .bool (Text.hasPrefix s t)
    | .endsWith => return .bool (Text.hasSuffix s t)
    | _ => (matchesRegex? s t).map .bool

def sameInts? : Value → Value → Option Bool
  | .int .int a, .int .int b => some (a == b)
  | _, _ => none

def sameTexts? : Value → Value → Option Bool
  | .text a, .text b => some (a == b)
  | _, _ => none

def binary? (op : BinaryOp) (a b : Value) : Option Value :=
  match op with
  | .equal => some (.bool (a.same b))
  | .unequal => some (.bool !(a.same b))
  | .equalInts => (sameInts? a b).map .bool
  | .unequalInts => (sameInts? a b).map fun r => .bool !r
  | .equalTexts => (sameTexts? a b).map .bool
  | .unequalTexts => (sameTexts? a b).map fun r => .bool !r
  | .less | .greater | .atLeast | .atMost => ordered? op a b
  | .within => within? a b
  | .contains | .startsWith | .endsWith | .matches_ => textTest? op a b
  | _ => arith? op a b

def unary? (op : UnaryOp) (v : Value) : Option Value :=
  match op, v with
  | .not, .bool b => some (.bool !b)
  | .minus, .int .byte n => some (.int .byte ((-n).emod 256))
  | .minus, .int k n => some (.int k (Text.wrap64 (-n)))
  | .minus, .float x => some (.float x.neg)
  | .plus, v => some v
  | _, _ => none

-- The whole numbers from one to another. Bounds that are written out make a list in advance, which takes no room.
def range (written : Bool) (a b : Value) : Work Value := do
  let x ← given a.int?
  let y ← given b.int?
  let size := (y - x + 1).toNat
  if !(written && size ≤ maxRoom) then grow size
  return .list .int ((List.range size).map fun (i : Nat) => .ofInt (x + i))

def slice? (v : Value) (from_ to_ : Option Value) : Option Value := do
  let a ← match from_ with
    | some w => w.int?
    | none => some 0
  let cut {α : Type} (xs : List α) : Option (List α) := do
    let b ← match to_ with
      | some w => w.int?
      | none => some (xs.length : Int)
    return sliceOf xs a b
  match v with
  | .text s => return .text (String.ofList (← cut s.toList))
  | .list k vs => return .list k (← cut vs)
  | .noList k => do
    let _ ← cut ([] : List Unit)
    return .noList k
  | _ => none

-- What a walk goes through.
def elements? : Value → Option (List Value)
  | .text s => some (s.toList.map fun c => .int .byte c.toNat)
  | .table [] | .groups [] => some []
  | v => v.items?.map (·.2)

-- The first element of which a test holds.
def search (test : Nat → Value → Work Bool) : List (Value × Nat) → Work (Option (Value × Nat))
  | [] => return none
  | (v, i) :: rest => do
    if ← test i v then return some (v, i) else search test rest

def keep (test : Nat → Value → Work Bool) (kept : List (Value × Nat)) : List (Value × Nat) → Work (List (Value × Nat))
  | [] => return kept.reverse
  | (v, i) :: rest => do
    if ← test i v then keep test ((v, i) :: kept) rest else keep test kept rest

def each (f : Nat → Value → Work Value) (done : List Value) : List (Value × Nat) → Work (List Value)
  | [] => return done.reverse
  | (v, i) :: rest => do
    let w ← f i v
    each f (w :: done) rest

def gatherAll (f : Value → Nat → Value → Work Value) (acc : Value) : List (Value × Nat) → Work Value
  | [] => return acc
  | (v, i) :: rest => do
    let w ← f acc i v
    gatherAll f w rest

-- Puts a value behind the others of its group. Groups are kept in the order of their keys.
def addToGroup (k v : Value) : List (Value × Value) → List (Value × Value)
  | [] => [(k, .list .any [v])]
  | (l, g) :: es =>
    if l.exact k then
      (l, match g with
        | .list kind vs => .list kind (vs ++ [v])
        | g => g) :: es
    else if before k l then (k, .list .any [v]) :: (l, g) :: es
    else (l, g) :: addToGroup k v es
where
  before : Value → Value → Bool
    | .null, _ => true
    | .bool a, .bool b => !a && b
    | a, b => a.less? b == some true

-- What the body and the extra argument of a walk say, given what has been gathered, a place and its element.
structure Steps where
  body : Value → Nat → Value → Work Value
  extra : Nat → Option Value → Work (Option Value)

namespace Steps

def test (s : Steps) (i : Nat) (v : Value) : Work Bool := do given (← s.body .null i v).bool?

-- An element, or what the extra argument makes of it.
def shown (s : Steps) (i : Nat) (v : Value) : Work Value := do return (← s.extra i (some v)).getD v

def shownOr (s : Steps) (other : Work Value) : Option (Value × Nat) → Work Value
  | some (v, i) => s.shown i v
  | none => other

def gather (s : Steps) (w : Walk) (vs : List Value) : Work Value := do
  let items := vs.zipIdx
  let opposite (i : Nat) (v : Value) : Work Bool := do return !(← s.test i v)
  match w with
  | .all => return .bool (← search opposite items).isNone
  | .none_ => return .bool (← search s.test items).isNone
  | .any => return .bool (← search s.test items).isSome
  | .one => return .bool ((← keep s.test [] items).length == 1)
  | .count => return .ofInt (← keep s.test [] items).length
  | .filter => do
    let kept ← keep s.test [] items
    let shown ← each s.shown [] kept
    grow shown.length
    return .list .any shown
  | .map => do
    let mapped ← each (s.body .null) [] items
    grow mapped.length
    return .list .any mapped
  | .find => s.shownOr (return .null) (← search s.test items)
  | .findLast => s.shownOr (return .null) (← search s.test items.reverse)
  | .findSure => s.shownOr fail (← search s.test items)
  | .findLastSure => s.shownOr fail (← search s.test items.reverse)
  | .findIndex => return ((← search s.test items).map fun x => .ofInt x.2).getD .null
  | .findLastIndex => return ((← search s.test items.reverse).map fun x => .ofInt x.2).getD .null
  | .sum => gatherAll (fun acc i v => do given (arith? .add (← s.body .null i v) acc)) (.ofInt 0) items
  | .groupBy => do
    let keys ← each (s.body .null) [] items
    if keys.all Value.isKey then return .groups ((keys.zip vs).foldl (fun es e => addToGroup e.1 e.2 es) [])
    else fail
  | .sortBy => do
    let order ← s.extra 0 vs.head?
    let desc ← given (descending? (order.getD (.text "asc")))
    let keys ← each (s.body .null) [] items
    let sorted ← given (sorted? desc Prod.fst (keys.zip vs))
    grow sorted.length
    return .list .any (sorted.map (·.2))
  | .reduce => do
    match ← s.extra 0 vs.head? with
    | some start => gatherAll s.body start items
    | none =>
      match items with
      | (first, _) :: rest => gatherAll s.body first rest
      | [] => fail

end Steps

-- What an expression can see.
structure Env where
  subject : Subject
  vars : List (String × Value) := []
  element : Option Value := none
  index : Nat := 0
  gathered : Value := .null

def nameValue? (env : Env) (s : String) : Option Value :=
  match env.vars.lookup s with
  | some v => some v
  | none => if s == "$env" then some (.subject env.subject) else subjectValue? env.subject s

def callValue? : Value → List Value → Option Value
  | .func r, [] => some r
  | _, _ => none

def memberOf (optional : Bool) (v : Value) : Work Unit := if optional && v.isNothing then throw .broken else return ()

-- Of entries with one key the first one counts.
def tableOf? : List (Value × Value) → Option (List (String × Value))
  | [] => some []
  | (k, v) :: es => do return setEntry (← k.text?) v (← tableOf? es)

def isWritten : Expr → Bool
  | .int _ => true
  | _ => false

mutual

def eval (env : Env) : Expr → Work Value
  | .null => return .null
  | .bool b => return .bool b
  | .int n => return .ofInt n
  | .float x => return .float x
  | .text t => return .text t
  | .name s => given (nameValue? env s)
  | .element => given env.element
  | .index => return .ofInt env.index
  | .gathered => return env.gathered
  | .unknownMark => fail
  | .list es => do
    let vs ← evalAll env es
    -- a list that is written out is made in advance
    if es.isEmpty || !es.all isLiteral then grow vs.length
    return .list .any vs
  | .table entries => do
    let es ← evalEntries env entries
    grow es.length
    return .table (← given (tableOf? es))
  | .unary op x => do given (unary? op (← eval env x))
  | .binary op x y => do
    let a ← eval env x
    match op with
    | .and =>
      if ← given a.bool? then eval env y else return a
    | .or =>
      if ← given a.bool? then return a else eval env y
    | .orElse => if a.isNothing then eval env y else return a
    | .range => range (isWritten x && isWritten y) a (← eval env y)
    | _ => given (binary? op a (← eval env y))
  | .choose cond yes no => do
    if ← given (← eval env cond).bool? then eval env yes else eval env no
  | .member x key optional => do
    let v ← eval env x
    memberOf optional v
    given (member? v (← eval env key))
  | .chain x =>
    tryCatch (do
      let v ← eval env x
      return if v.isNothing then .null else v)
      fun stop => match stop with
        | .broken => return .null
        | .failed => fail
  | .slice x a b => do
    let v ← eval env x
    let to_ ← evalOpt env b
    let from_ ← evalOpt env a
    given (slice? v from_ to_)
  | .call fn args => do
    let vs ← evalAll env args
    if isFunction fn then
      let (v, room) ← given (call? fn vs)
      grow room
      return v
    else given (callValue? (← given (nameValue? env fn)) vs)
  | .method x name optional args => do
    let vs ← evalAll env args
    let v ← eval env x
    memberOf optional v
    given (callValue? (← given (member? v (.text name))) vs)
  | .walk w xs body extra => do
    let vs ← given (elements? (← eval env xs))
    let at_ (acc : Value) (i : Nat) (v : Option Value) : Env :=
      { env with element := v, index := i, gathered := acc }
    let steps : Steps :=
      { body := fun acc i v => do return (← evalOpt (at_ acc i (some v)) body).getD v
        extra := fun i v => evalOpt (at_ .null i v) extra }
    steps.gather w vs
  | .bind name value rest => do
    let v ← eval env value
    eval { env with vars := (name, v) :: env.vars } rest
  | .seq es => do
    let vs ← evalAll env es
    given vs.getLast?
  | .amongInts x ns => do
    match ← eval env x with
    | .int .int n => return .bool (ns.contains n)
    | .null => return .bool (ns.contains 0)
    | _ => fail
  | .amongTexts x ts => do
    match ← eval env x with
    | .text t => return .bool (ts.contains t)
    | .null => return .bool (ts.contains "")
    | _ => fail

def evalAll (env : Env) : List Expr → Work (List Value)
  | [] => return []
  | e :: es => do
    let v ← eval env e
    return v :: (← evalAll env es)

def evalOpt (env : Env) : Option Expr → Work (Option Value)
  | none => return none
  | some e => do
    let v ← eval env e
    return some v

def evalEntries (env : Env) : List (Expr × Expr) → Work (List (Value × Value))
  | [] => return []
  | (k, e) :: es => do
    let key ← eval env k
    let v ← eval env e
    return (key, v) :: (← evalEntries env es)

end

-- Whether an expression is true of a subject. One that fails is not.
def Expr.holds (e : Expr) (s : Subject) : Bool :=
  match (eval { subject := s } e).run 0 with
  | .ok (.bool b, _) => b
  | _ => false

-- The predicate that a condition writes; none if it is not well formed or is neither true nor false.
def predicate? (when : String) : Option (Subject → Bool) := do
  let (t, e) ← check? {} (← read? when)
  if t.isBool || t.isAny then some e.holds else none

end Condition
end Dependency
end ShellScript

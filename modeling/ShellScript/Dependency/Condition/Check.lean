import ShellScript.Dependency.Condition.Type
import ShellScript.Number.Power
import ShellScript.Regex.Read

-- Which conditions make sense: every name is known, operands fit their operators, and the whole is true or false.
-- Checking also works out what is already settled and puts simpler forms in place of some others.
namespace ShellScript
namespace Dependency
namespace Condition

def isLiteral : Expr → Bool
  | .int _ | .float _ | .text _ | .bool _ => true
  | _ => false

def intLiteral? : Expr → Option Int
  | .int n => some n
  | _ => none

def textLiteral? : Expr → Option String
  | .text s => some s
  | _ => none

def floatLiteral? : Expr → Option Binary64
  | .int n => some (Binary64.ofInt n)
  | .float x => some x
  | _ => none

def foldUnary (op : UnaryOp) (x : Expr) : Expr :=
  match op, x with
  | .not, .bool b => .bool (!b)
  | .minus, .int n => .int (Text.wrap64 (-n))
  | .minus, .float y => .float y.neg
  | .plus, .int n => .int n
  | .plus, .float y => .float y
  | op, x => .unary op x

-- Two whole numbers that are written out. A remainder by zero is refused at once.
def foldInts (op : BinaryOp) (a b : Int) : Option Expr :=
  let floats (f : Binary64 → Binary64 → Binary64) : Expr := .float (f (Binary64.ofInt a) (Binary64.ofInt b))
  match op with
  | .add => some (.int (Text.wrap64 (a + b)))
  | .sub => some (.int (Text.wrap64 (a - b)))
  | .mul => some (.int (Text.wrap64 (a * b)))
  | .mod => if b == 0 then none else some (.int (Text.wrap64 (a.tmod b)))
  | .div => some (floats Binary64.div)
  | .pow => some (floats Binary64.pow)
  | .equal => some (.bool (a == b))
  | .equalInts => some (.bool (a == b))
  | _ => some (.binary op (.int a) (.int b))

def foldFloats (op : BinaryOp) (x y : Expr) (a b : Binary64) : Expr :=
  match op with
  | .add => .float (a.add b)
  | .sub => .float (a.sub b)
  | .mul => .float (a.mul b)
  | .div => .float (a.div b)
  | .pow => .float (a.pow b)
  | _ => .binary op x y

def foldBools (op : BinaryOp) (x y : Expr) : Expr :=
  match op, x, y with
  | .and, .bool true, y => y
  | .and, x, .bool true => x
  | .and, .bool false, _ | .and, _, .bool false => .bool false
  | .or, .bool false, y => y
  | .or, x, .bool false => x
  | .or, .bool true, _ | .or, _, .bool true => .bool true
  | .equal, .bool a, .bool b => .bool (a == b)
  | op, x, y => .binary op x y

-- Works out an operator on operands that are written out; none if that cannot be done.
def foldBinary? (op : BinaryOp) (x y : Expr) : Option Expr :=
  match x, y with
  | .int a, .int b => foldInts op a b
  | .text a, .text b =>
    match op with
    | .add => some (.text (a ++ b))
    | .equal | .equalTexts => some (.bool (a == b))
    | _ => some (.binary op x y)
  | _, _ =>
    match floatLiteral? x, floatLiteral? y with
    | some a, some b => some (foldFloats op x y a b)
    | _, _ => some (foldBools op x y)

-- The test for equality that goes with the types of the operands.
def exactOp (op : BinaryOp) (a b : Ty) : BinaryOp :=
  match op with
  | .equal => if a == .int && b == .int then .equalInts else if a.isText && b.isText then .equalTexts else op
  | .unequal => if a == .int && b == .int then .unequalInts else if a.isText && b.isText then .unequalTexts else op
  | op => op

-- `in` for a list or a range that is written out. `source` is the list before anything in it was worked out.
def foldWithin (t : Ty) (x source y : Expr) : Expr :=
  let plain : Expr := match y with
    | .binary .range (.int a) (.int b) =>
      if t == .int then .binary .and (.binary .atLeast x (.int a)) (.binary .atMost x (.int b))
      else .binary .within x y
    | _ => .binary .within x y
  match source with
  | .list (e :: es) =>
    match (e :: es).mapM intLiteral?, (e :: es).mapM textLiteral? with
    | some ns, _ => if t == .int then .amongInts x ns else plain
    | none, some ts => .amongTexts x ts
    | none, none => plain
  | _ => plain

def sumOf : List Expr → Expr
  | [] => .int 0
  | [e] => e
  | e :: es => .binary .add e (sumOf es)

-- Walks that follow each other are done in one go where that is possible.
def foldWalk (w : Walk) (xs : Expr) (body extra : Option Expr) : Expr :=
  match w, xs, body with
  | .map, .walk .filter ys p none, some f => .walk .filter ys p (some f)
  | .sum, .list (e :: f :: es), none =>
    if (e :: f :: es).all isLiteral then .walk w xs body extra else sumOf (e :: f :: es)
  | _, _, _ => .walk w xs body extra

def foldCall (fn : String) (args : List Expr) : Expr :=
  match fn, args with
  | "len", [.walk .filter xs p _] => .walk .count xs p none
  | "first", [.walk .filter xs p f] => .walk .find xs p f
  | "last", [.walk .filter xs p f] => .walk .findLast xs p f
  | _, _ => .call fn args

def foldMember (x key : Expr) (optional : Bool) : Expr :=
  match x, key, optional with
  | .walk .filter xs p f, .int 0, false => .walk .findSure xs p f
  | .walk .filter xs p f, .int (-1), false => .walk .findLastSure xs p f
  | _, _, _ => .member x key optional

-- The walk that an expression is in the body of.
structure Scope where
  elem : Ty
  hasIndex : Bool
  hasGathered : Bool

structure Context where
  vars : List (String × Ty) := []
  scope : Option Scope := none

def nameType? (c : Context) (s : String) : Option Ty :=
  match c.vars.lookup s with
  | some t => some t
  | none =>
    if s == "$env" then some .any
    else match subjectField? s with
      | some t => some t
      | none => if isFunction s then some (.func .any) else none

-- Names that are taken cannot be bound again.
def canBind (c : Context) (s : String) : Bool :=
  (subjectField? s).isNone && !isFunction s && (c.vars.lookup s).isNone

def isSubject : Expr → Bool
  | .name s => s == "$env"
  | _ => false

-- A member of the whole subject. One that is optional need not exist.
def subjectMember? (key : Expr) (optional : Bool) : Option Ty :=
  match key with
  | .text s => match subjectField? s with
    | some t => some t
    | none => if optional then some .any else none
  | _ => some .any

def elemType? : Ty → Option Ty
  | .list _ elem => some elem
  | .any => some .any
  | _ => none

def listType (ts : List Ty) : Ty :=
  match ts.getLast? with
  | none => .listAny
  | some t => .list .any (if ts.all t.alike then t else .any)

-- What calling a value without arguments gives.
def resultType? (t : Ty) (args : Nat) : Option Ty :=
  match t with
  | .any => some .any
  | .func r => if args == 0 || r.isAny then some r else none
  | _ => none

mutual

-- The type of an expression and its simpler form; none if it makes no sense.
def check? (c : Context) : Expr → Option (Ty × Expr)
  | .null => some (.null, .null)
  | .bool b => some (.bool, .bool b)
  | .int n => some (.int, .int n)
  | .float x => some (.float, .float x)
  | .text s => some (.text, .text s)
  | .name s => (nameType? c s).map (·, .name s)
  | .element => c.scope.map (·.elem, .element)
  | .index => do
    let s ← c.scope
    if s.hasIndex then some (.int, .index) else none
  | .gathered => do
    let s ← c.scope
    if s.hasGathered then some (.any, .gathered) else none
  | .unknownMark => none
  | .list es => do
    let (ts, es) ← checkAll? c es
    return (listType ts, .list es)
  | .table entries => do return (.table, .table (← checkEntries? c entries))
  | .unary op x => do
    let (t, x) ← check? c x
    return (← unaryType? op t, foldUnary op x)
  | .binary op source y => do
    let (a, x) ← check? c source
    let (b, z) ← check? c y
    let t ← binaryType? op a b
    if op == .within then return (t, foldWithin a x y z)
    let e ← foldBinary? (exactOp op a b) x z
    match e with
    | .binary .matches_ _ (.text p) => if (Regex.read? p).isNone then none else return (t, e)
    | _ => return (t, e)
  | .choose cond yes no => do
    let (t, cond) ← check? c cond
    let (a, yes) ← check? c yes
    let (b, no) ← check? c no
    if t.isBool || t.isAny then return (a.oneOf b, .choose cond yes no) else none
  | .member x key optional =>
    if isSubject x then (subjectMember? key optional).map (·, .member x key optional)
    else do
      let (t, x) ← check? c x
      let (k, folded) ← check? c key
      return (← memberType? t k (textLiteral? key), foldMember x folded optional)
  | .chain x => do
    let (t, x) ← check? c x
    return (t, .chain x)
  | .slice x a b => do
    let (t, x) ← check? c x
    -- nothing is known about the bounds of something unknown
    if t.isAny then return (.any, .slice x a b)
    let (ta, a) ← checkOpt? c a
    let (tb, b) ← checkOpt? c b
    let whole (t : Option Ty) : Bool := (t.map fun t => t.isInt || t.isAny).getD true
    if (t.isText || t.isList) && whole ta && whole tb then return (t, .slice x a b) else none
  | .call fn args =>
    if !isFunction fn then do
      let t ← nameType? c fn
      return (← resultType? t args.length, .call fn args)
    else do
      let (ts, es) ← checkAll? c args
      let t ← match fn, args, ts with
        | "get", [x, key], [t, k] =>
          if isSubject x then some ((subjectMember? key true).getD .any) else getType? t k
        | "get", _, _ => none
        | _, _, _ => callType? fn ts
      return (t, foldCall fn es)
  | .method x name optional args => do
    let (t, x) ← check? c x
    let t ← if isSubject x then subjectMember? (.text name) optional else memberType? t .text (some name)
    return (← resultType? t args.length, .method x name optional args)
  | .walk w xs body extra => do
    let (t, xs) ← check? c xs
    let elem ← elemType? t
    let inner : Context := { c with scope := some ⟨elem, w == .map || w == .reduce, w == .reduce⟩ }
    let (tb, body) ← checkOpt? inner body
    let (_, extra) ← checkOpt? c extra
    return (← walkType? w t elem tb, foldWalk w xs body extra)
  | .bind name value rest => do
    if !canBind c name then none
    let (t, value) ← check? c value
    let (u, rest) ← check? { c with vars := (name, t) :: c.vars } rest
    return (u, .bind name value rest)
  | .seq es => do
    let (ts, es) ← checkAll? c es
    return (ts.getLast?.getD .any, .seq es)
  | .amongInts _ _ | .amongTexts _ _ => none

def checkAll? (c : Context) : List Expr → Option (List Ty × List Expr)
  | [] => some ([], [])
  | e :: es => do
    let (t, e) ← check? c e
    let (ts, es) ← checkAll? c es
    return (t :: ts, e :: es)

def checkOpt? (c : Context) : Option Expr → Option (Option Ty × Option Expr)
  | none => some (none, none)
  | some e => do
    let (t, e) ← check? c e
    return (some t, some e)

def checkEntries? (c : Context) : List (Expr × Expr) → Option (List (Expr × Expr))
  | [] => some []
  | (k, e) :: es => do
    let (_, k) ← check? c k
    let (_, e) ← check? c e
    return (k, e) :: (← checkEntries? c es)

end

end Condition
end Dependency
end ShellScript

import ShellScript.Dependency.Condition.Tree

-- The types of expressions and of the functions in them.
namespace ShellScript
namespace Dependency
namespace Condition

-- What the elements of a list are kept as; `pair` is for a key with its value.
inductive ListKind where
  | any
  | text
  | int
  | float
  | pair
deriving Repr, DecidableEq, Inhabited

inductive Ty where
  -- of no type known in advance
  | any
  | null
  | bool
  | int
  | int64
  | float
  | text
  | duration
  | time
  -- `elem` may know more about the elements than the list itself
  | list (kind : ListKind) (elem : Ty)
  -- from texts to anything
  | table
  -- from anything to lists
  | groups
  | usage
  | func (result : Ty)
deriving Repr, DecidableEq, Inhabited

namespace Ty

def listAny : Ty := .list .any .any

def isAny (t : Ty) : Bool := t == .any

def isBool (t : Ty) : Bool := t == .bool

def isText (t : Ty) : Bool := t == .text

def isInt (t : Ty) : Bool := t == .int || t == .int64

def isNumber (t : Ty) : Bool := t.isInt || t == .float

def isDuration (t : Ty) : Bool := t == .duration

def isTime (t : Ty) : Bool := t == .time

def isList : Ty → Bool
  | .list _ _ => true
  | _ => false

def isTable (t : Ty) : Bool := t == .table || t == .groups

-- What an element is taken for when only the kind of its list counts.
def ofKind : ListKind → Ty
  | .text => .text
  | .int => .int
  | .float => .float
  | _ => .any

-- Whether two types are alike in the way their values are kept.
def alike : Ty → Ty → Bool
  | .int64, .duration | .duration, .int64 => true
  | .usage, .time | .time, .usage => true
  | .table, .groups | .groups, .table => true
  | .list _ _, .list _ _ => true
  | .func _, .func _ => true
  | a, b => a == b

-- Whether two types are one, apart from what is known about elements.
def sameType : Ty → Ty → Bool
  | .list a _, .list b _ => a == b
  | .any, _ | .null, _ => false
  | a, b => a == b

def comparable (a b : Ty) : Bool :=
  a.isAny || b.isAny || a == .null || b == .null || a.alike b || (a.isNumber && b.isNumber)

-- The type of two numbers together.
def wider (a b : Ty) : Ty := if a == .float || b == .float then .float else .int

-- Whether both operands may be of a type that is wanted, when at least one is of no known type.
def either (want : Ty → Bool) (a b : Ty) : Bool := (a.isAny && (b.isAny || want b)) || (b.isAny && want a)

def both (want : Ty → Bool) (a b : Ty) : Bool := want a && want b

-- The type of one of two things, of which nothing can be nothing.
def oneOf (a b : Ty) : Ty :=
  if a == .null then b else if b == .null then a else if a.sameType b then a else .any

end Ty

def subjectField? : String → Option Ty
  | "path" | "base" | "ext" | "dir" => some .text
  | "local" | "exists" => some .bool
  | "size" => some .int64
  | "usage" => some .usage
  | _ => none

def usageField? : String → Option Ty
  | "reads" | "writes" | "appends" => some .int
  | "in_loop" | "in_condition" | "guarded" | "monitored" | "sourced" | "executed" => some .bool
  | "commands" => some (.list .text .text)
  | _ => none

def usageMethod? : String → Option Ty
  | "Pattern" => some .text
  | "Modified" => some .bool
  | _ => none

def durationMethod? : String → Option Ty
  | "Hours" | "Minutes" | "Seconds" => some .float
  | "Milliseconds" | "Microseconds" | "Nanoseconds" => some .int64
  | "Abs" => some .duration
  | "String" => some .text
  | _ => none

def timeMethod? : String → Option Ty
  | "Year" | "Day" | "Hour" | "Minute" | "Second" | "Nanosecond" | "YearDay" => some .int
  | "Unix" | "UnixMilli" | "UnixMicro" | "UnixNano" => some .int64
  | _ => none

def methodOf? (t : Ty) (name : String) : Option Ty :=
  match t with
  | .usage => usageMethod? name
  | .duration => durationMethod? name
  | .time => timeMethod? name
  | _ => none

-- What an argument has to be.
inductive Param where
  | anything
  | text
  | int
  | list (kind : ListKind)
deriving Repr, DecidableEq

def Param.takes (p : Param) (t : Ty) : Bool :=
  t.isAny || match p with
    | .anything => true
    | .text => t.isText
    | .int => t.isInt
    | .list k => match t with
      | .list l _ => k == l
      | _ => false

-- The ways to call a function whose arguments have fixed types.
def signatures? : String → Option (List (List Param × Ty))
  | "type" | "string" | "toJSON" => some [([.anything], .text)]
  | "trim" | "trimPrefix" | "trimSuffix" => some [([.text], .text), ([.text, .text], .text)]
  | "upper" | "lower" | "toBase64" | "fromBase64" => some [([.text], .text)]
  | "split" | "splitAfter" =>
    some [([.text, .text], .list .text .text), ([.text, .text, .int], .list .text .text)]
  | "replace" => some [([.text, .text, .text], .text), ([.text, .text, .text, .int], .text)]
  | "repeat" => some [([.text, .int], .text)]
  | "join" =>
    some [([.list .any], .text), ([.list .any, .text], .text), ([.list .text], .text), ([.list .text, .text], .text)]
  | "indexOf" | "lastIndexOf" => some [([.text, .text], .int)]
  | "hasPrefix" | "hasSuffix" => some [([.text, .text], .bool)]
  | "fromJSON" => some [([.text], .any)]
  | "duration" => some [([.text], .duration)]
  | "now" => some [([], .time)]
  | "date" => some [([.text], .time), ([.text, .text], .time), ([.text, .text, .text], .time)]
  | "sort" =>
    some ([ListKind.any, .text, .int, .float].flatMap fun k =>
      [([.list k], Ty.listAny), ([.list k, .text], Ty.listAny)])
  | "bitand" | "bitor" | "bitxor" | "bitnand" | "bitshl" | "bitshr" | "bitushr" => some [([.int, .int], .int)]
  | "bitnot" => some [([.int], .int)]
  | _ => none

def takesAll : List Param → List Ty → Bool
  | [], [] => true
  | p :: ps, t :: ts => p.takes t && takesAll ps ts
  | _, _ => false

-- The type of a collection of numbers, or of the first of some numbers.
def aggregateType? (args : List Ty) : Option Ty :=
  match args with
  | [] => none
  | first :: _ => go first args
where
  go (first : Ty) : List Ty → Option Ty
    | [] => some first
    | t :: ts => if t.isAny || t.isList then some .any else if t.isNumber || t == .duration then go first ts else none

-- Functions that take several types.
def openCallType? (fn : String) (args : List Ty) : Option Ty :=
  let listOnly (t result : Ty) : Option Ty := if t.isAny || t.isList then some result else none
  match fn, args with
  | "len", [t] => if t.isAny || t.isText || t.isList || t.isTable then some .int else none
  | "abs", [t] => if t.isAny || t.isNumber || t == .duration then some t else none
  | "ceil", [t] | "floor", [t] | "round", [t] =>
    if t.isAny || t.isNumber || t == .duration then some .float else none
  | "int", [t] => if t.isAny || t.isNumber || t == .duration || t.isText then some .int else none
  | "float", [t] => if t.isAny || t.isNumber || t == .duration || t.isText then some .float else none
  | "max", ts | "min", ts | "mean", ts | "median", ts => aggregateType? ts
  | "first", [t] | "last", [t] =>
    match t with
    | .list k _ => some (.ofKind k)
    | .any => some .any
    | _ => none
  | "take", [t, n] => if (t.isAny || t.isList) && (n.isAny || n.isInt || n == .duration) then some t else none
  | "keys", [t] | "values", [t] | "toPairs", [t] => if t.isAny || t.isTable then some .listAny else none
  | "fromPairs", [t] => listOnly t .table
  | "reverse", [t] | "uniq", [t] | "flatten", [t] => listOnly t .listAny
  | "concat", t :: ts => if (t :: ts).all fun t => t.isAny || t.isList then some .listAny else none
  | _, _ => none

def openFunctions : List String :=
  ["len", "abs", "ceil", "floor", "round", "int", "float", "max", "min", "mean", "median", "first", "last", "take",
    "keys", "values", "toPairs", "fromPairs", "reverse", "uniq", "flatten", "concat", "get", "timezone"]

def isFunction (name : String) : Bool :=
  (Walk.ofName? name).isSome || (signatures? name).isSome || openFunctions.contains name

def callType? (fn : String) (args : List Ty) : Option Ty :=
  match signatures? fn with
  | some ways => (ways.find? fun way => takesAll way.1 args).map (·.2)
  | none => openCallType? fn args

def unaryType? (op : UnaryOp) (t : Ty) : Option Ty :=
  match op with
  | .not => if t.isBool || t.isAny then some .bool else none
  | _ => if t.isNumber || t.isAny then some t else none

def isOrdered (t : Ty) : Bool := t.isNumber || t.isText || t.isTime || t.isDuration

def addType? (a b : Ty) : Option Ty :=
  if a.isNumber && b.isNumber then some (a.wider b)
  else if a.isText && b.isText then some .text
  else if (a.isTime && b.isDuration) || (a.isDuration && b.isTime) then some .time
  else if a.isDuration && b.isDuration then some .duration
  else if a.either isOrdered b then some .any
  else none

def subType? (a b : Ty) : Option Ty :=
  if a.isNumber && b.isNumber then some (a.wider b)
  else if a.isTime && b.isTime then some .duration
  else if a.isTime && b.isDuration then some .time
  else if a.isDuration && b.isDuration then some .duration
  else if a.either (fun t => t.isNumber || t.isTime || t.isDuration) b then some .any
  else none

def mulType? (a b : Ty) : Option Ty :=
  let timed (t : Ty) : Bool := t.isNumber || t.isDuration
  if a.isNumber && b.isNumber then some (a.wider b)
  else if timed a && timed b then some .duration
  else if a.either timed b then some .any
  else none

def withinType? (a b : Ty) : Option Ty :=
  match b with
  | .usage | .time => if a.isText || a.isAny then some .bool else none
  | .table => if a.isText || a.isAny then some .bool else none
  | .groups => some .bool
  | .list _ elem => if a.comparable elem then some .bool else none
  | .text => if a.isAny then some .bool else none
  | .any => some .bool
  | _ => none

def binaryType? (op : BinaryOp) (a b : Ty) : Option Ty :=
  let fits (want : Ty → Bool) (result : Ty) : Option Ty :=
    if a.both want b || a.either want b then some result else none
  match op with
  | .or | .and => fits Ty.isBool .bool
  | .less | .greater | .atLeast | .atMost =>
    if a.both Ty.isNumber b || a.both Ty.isText b || a.both Ty.isTime b || a.both Ty.isDuration b ||
        a.either isOrdered b then some .bool
    else none
  | .within => withinType? a b
  | .matches_ | .contains | .startsWith | .endsWith => fits Ty.isText .bool
  | .range => fits Ty.isInt (.list .int .int)
  | .add => addType? a b
  | .sub => subType? a b
  | .mul => mulType? a b
  | .div | .pow => fits Ty.isNumber .float
  | .mod => fits Ty.isInt .int
  | .orElse => some (a.oneOf b)
  | _ => if a.comparable b then some .bool else none

-- A member of a value; `name` is the key if it is written out.
def memberType? (x key : Ty) (name : Option String) : Option Ty :=
  if x.isAny then some .any
  else match name.bind (methodOf? x) with
    | some t => some (.func t)
    | none =>
      match x with
      | .table => if key.isText || key.isAny then some .any else none
      | .groups => some .listAny
      | .list _ elem => if key.isInt || key.isAny then some elem else none
      | .usage => name.bind usageField?
      | _ => none

def getType? (x key : Ty) : Option Ty :=
  match x with
  | .any => some .any
  | .list _ elem => if key.isInt || key.isAny then some elem else none
  | .table => if key.isText || key.isAny then some .any else none
  | .groups => some .listAny
  | _ => none

-- The type that a walk gives, from those of the collection, of its elements and of the body.
def walkType? (w : Walk) (xs elem : Ty) (body : Option Ty) : Option Ty :=
  let test : Bool := match body with
    | some b => b.isBool || b.isAny
    | none => true
  if body == some .null then none
  else match w with
    | .all | .none_ | .any | .one => if test then some .bool else none
    | .filter => if test then some (.list .any elem) else none
    | .find | .findLast | .findSure | .findLastSure => if test then some elem else none
    | .count | .findIndex | .findLastIndex => if test then some .int else none
    | .map => some (.list .any (body.getD .any))
    | .sum => some (body.getD elem)
    | .reduce => some (body.getD .any)
    | .groupBy => some .groups
    | .sortBy => some (if xs.isAny then .listAny else xs)

end Condition
end Dependency
end ShellScript

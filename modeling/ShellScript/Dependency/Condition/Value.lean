import ShellScript.Dependency.Condition.Type
import ShellScript.Dependency.Graph
import ShellScript.Log.Value
import ShellScript.Number.Power

-- The values of expressions.
namespace ShellScript
namespace Dependency
namespace Condition

-- Whole numbers that look the same can differ in kind.
inductive IntKind where
  | int
  | int64
  | byte
deriving Repr, DecidableEq, Inhabited

-- A moment, in billionths of a second since the year 1970, and how far its clock is ahead, in seconds.
structure Moment where
  nanos : Int
  ahead : Int := 0
deriving Repr, DecidableEq, Inhabited

inductive Value where
  | null
  | bool (b : Bool)
  | int (kind : IntKind) (n : Int)
  | float (x : Binary64)
  | text (s : String)
  | list (kind : ListKind) (vs : List Value)
  -- a list that was never made
  | noList (kind : ListKind)
  | table (entries : List (String × Value))
  | groups (entries : List (Value × Value))
  | duration (ns : Int)
  | time (t : Moment)
  | usage (u : Usage)
  | subject (s : Subject)
  -- something to call, with what it gives
  | func (result : Value)
deriving Inhabited

namespace Value

def ofInt (n : Int) : Value := .int .int n

def ofTexts (xs : List String) : Value := .list .text (xs.map .text)

def commands (u : Usage) : Value := if u.commands.isEmpty then .noList .text else .ofTexts u.commands

def items? : Value → Option (ListKind × List Value)
  | .list k vs => some (k, vs)
  | .noList k => some (k, [])
  | _ => none

-- Nothing, or a list that was never made.
def isNothing : Value → Bool
  | .null | .noList _ => true
  | _ => false

def float? : Value → Option Binary64
  | .int _ n => some (Binary64.ofInt n)
  | .float x => some x
  | _ => none

-- A whole number, also from a float or from digits.
def int? : Value → Option Int
  | .int _ n => some n
  | .float x => some x.toInt64
  | .text s => Text.int64? s
  | _ => none

def bool? : Value → Option Bool
  | .bool b => some b
  | _ => none

def text? : Value → Option String
  | .text s => some s
  | _ => none

-- The order of two numbers, texts, moments or lengths of time; none if they cannot be compared. Two floats can have
-- no order.
def order? : Value → Value → Option (Option Ordering)
  | .text a, .text b => some (some (Text.compare a b))
  | .int _ a, .int _ b => some (some (compare a b))
  | .duration a, .duration b => some (some (compare a b))
  | .time a, .time b => some (some (compare a.nanos b.nanos))
  | a, b =>
    match a.float?, b.float? with
    | some x, some y => some (x.order? y)
    | _, _ => none

def less? (a b : Value) : Option Bool := (a.order? b).map (· == some .lt)

mutual

-- Whether two values are the same in every respect.
def exact : Value → Value → Bool
  | .null, .null => true
  | .bool a, .bool b => a == b
  | .int k a, .int l b => k == l && a == b
  | .float a, .float b => a.sameAs b
  | .text a, .text b => a == b
  | .list k as, .list l bs => k == l && exactAll as bs
  | .noList k, .noList l => k == l
  | .table as, .table bs => exactEntries as bs
  | .groups as, .groups bs => exactGroups as bs
  | .duration a, .duration b => a == b
  | .time a, .time b => a == b
  | .usage a, .usage b => a == b
  | .subject a, .subject b => a == b
  | _, _ => false

def exactAll : List Value → List Value → Bool
  | [], [] => true
  | a :: as, b :: bs => exact a b && exactAll as bs
  | _, _ => false

-- Entries are kept in the order of their keys.
def exactEntries : List (String × Value) → List (String × Value) → Bool
  | [], [] => true
  | (k, a) :: as, (l, b) :: bs => k == l && exact a b && exactEntries as bs
  | _, _ => false

def exactGroups : List (Value × Value) → List (Value × Value) → Bool
  | [], [] => true
  | (k, a) :: as, (l, b) :: bs => exact k l && exact a b && exactGroups as bs
  | _, _ => false

end

-- Lists whose elements are compared one by one.
def listsMatch (k l : ListKind) : Bool := k != .pair && l != .pair && (k == l || k == .any || l == .any)

mutual

-- Numbers are equal by value, whatever their kind, also inside lists. What is missing equals what is missing.
def same : Value → Value → Bool
  | .int _ a, .int _ b => a == b
  | .int _ a, .float b => (Binary64.ofInt a).sameAs b
  | .float a, .int _ b => a.sameAs (Binary64.ofInt b)
  | .float a, .float b => a.sameAs b
  | .time a, .time b => a.nanos == b.nanos
  | .list k as, .list l bs => if listsMatch k l then sameAll as bs else exact (.list k as) (.list l bs)
  | .list k as, .noList l => listsMatch k l && as.isEmpty
  | .noList k, .list l bs => listsMatch k l && bs.isEmpty
  | .null, .noList _ | .noList _, .null | .noList _, .noList _ => true
  | a, b => exact a b

def sameAll : List Value → List Value → Bool
  | [], [] => true
  | a :: as, b :: bs => same a b && sameAll as bs
  | _, _ => false

end

-- Whether a value can be a key.
def isKey : Value → Bool
  | .list .pair _ => true
  | .list _ _ | .noList _ | .table _ | .groups _ | .usage _ | .subject _ | .func _ => false
  | _ => true

end Value

def usageValue? (u : Usage) : String → Option Value
  | "reads" | "Reads" => some (.ofInt u.reads)
  | "writes" | "Writes" => some (.ofInt u.writes)
  | "appends" | "Appends" => some (.ofInt u.appends)
  | "in_loop" | "InLoop" => some (.bool u.inLoop)
  | "in_condition" | "InCondition" => some (.bool u.inCondition)
  | "guarded" | "Guarded" => some (.bool u.guarded)
  | "monitored" | "Monitored" => some (.bool u.monitored)
  | "sourced" | "Sourced" => some (.bool u.sourced)
  | "executed" | "Executed" => some (.bool u.executed)
  | "commands" | "Commands" => some (.commands u)
  | "Pattern" => some (.func (.text u.pattern))
  | "Modified" => some (.func (.bool u.isModified))
  | _ => none

-- The names under which `in` finds what a usage tells, in the order in which it is written.
def usageNames : List String :=
  ["Reads", "Writes", "Appends", "InLoop", "InCondition", "Guarded", "Monitored", "Sourced", "Executed", "Commands"]

def subjectValue? (s : Subject) : String → Option Value
  | "path" | "Path" => some (.text s.path)
  | "base" | "Base" => some (.text s.base)
  | "ext" | "Ext" => some (.text s.ext)
  | "dir" | "Dir" => some (.text s.dir)
  | "local" | "Local" => some (.bool s.local_)
  | "exists" | "Exists" => some (.bool s.exists_)
  | "size" | "Size" => some (.int .int64 s.size)
  | "usage" | "Usage" => some (.usage s.usage)
  | _ => none

def subjectNames : List String := ["Path", "Base", "Ext", "Dir", "Local", "Exists", "Size", "Usage"]

def usageEntries (u : Usage) : List (String × Value) := usageNames.map fun n => (n, (usageValue? u n).getD .null)

def subjectEntries (s : Subject) : List (String × Value) :=
  subjectNames.map fun n => (n, (subjectValue? s n).getD .null)

def usageText (u : Usage) : String :=
  Text.joinWith " " ([toString u.reads, toString u.writes, toString u.appends] ++
    [u.inLoop, u.inCondition, u.guarded, u.monitored, u.sourced, u.executed].map Log.boolText ++
    ["[" ++ Text.joinWith " " u.commands ++ "]"])

def subjectText (s : Subject) : String :=
  Text.joinWith " " [s.path, s.base, s.ext, s.dir, Log.boolText s.local_, Log.boolText s.exists_, toString s.size,
    "\x7b" ++ usageText s.usage ++ "\x7d"]

mutual

-- A value as words.
def Value.plain : Value → String
  | .null => "<nil>"
  | .bool b => Log.boolText b
  | .int _ n => toString n
  | .float x => Log.floatText x
  | .text s => s
  | .list _ vs => "[" ++ Text.joinWith " " (plainAll vs) ++ "]"
  | .noList _ => "[]"
  | .table es => "map[" ++ Text.joinWith " " (plainEntries es) ++ "]"
  | .groups es => "map[" ++ Text.joinWith " " (plainGroups es) ++ "]"
  | .duration ns => Text.duration ns
  | .time _ => ""
  | .usage u => "\x7b" ++ usageText u ++ "\x7d"
  | .subject s => "\x7b" ++ subjectText s ++ "\x7d"
  | .func _ => ""

def plainAll : List Value → List String
  | [] => []
  | v :: vs => v.plain :: plainAll vs

def plainEntries : List (String × Value) → List String
  | [] => []
  | (k, v) :: es => (k ++ ":" ++ v.plain) :: plainEntries es

def plainGroups : List (Value × Value) → List String
  | [] => []
  | (k, v) :: es => (k.plain ++ ":" ++ v.plain) :: plainGroups es

end

end Condition
end Dependency
end ShellScript

import ShellScript.Machine.Failure
import ShellScript.Text.Byte

-- Variables in a chain of scopes. Look-up is dynamic: a function sees the variables of its callers.
namespace ShellScript
namespace Machine

-- Values under names, in the order in which the names were first used.
abbrev Table (α : Type) := List (String × α)

namespace Table

variable {α : Type}

def insert (name : String) (v : α) : Table α → Table α
  | [] => [(name, v)]
  | (k, w) :: rest => if k == name then (name, v) :: rest else (k, w) :: insert name v rest

def erase (name : String) (t : Table α) : Table α := t.filter fun e => e.1 != name

def has (name : String) (t : Table α) : Bool := (t.lookup name).isSome

def sortedNames (t : Table α) : List String := Text.sort (t.map Prod.fst)

end Table

structure Var where
  value : String := ""
  -- the elements of an array
  list : List String := []
  array : Bool := false
  exported : Bool := false
  readOnly : Bool := false
  integer : Bool := false
deriving Repr, DecidableEq, Inhabited

namespace Var

-- The value as one text: of an array its first element.
def text (v : Var) : String := if v.array then v.list.headD "" else v.value

-- The value as elements.
def values (v : Var) : List String := if v.array then v.list else [v.value]

end Var

abbrev Scope := Table Var

-- The innermost scope first; the last one holds the globals.
structure Env where
  scope : Scope := []
  outer : List Scope := []
deriving Repr, Inhabited

namespace Env

def all (e : Env) : List Scope := e.scope :: e.outer

def push (e : Env) : Env := { scope := [], outer := e.all }

def pop (e : Env) : Env :=
  match e.outer with
  | [] => e
  | s :: ss => { scope := s, outer := ss }

def isGlobal (e : Env) : Bool := e.outer.isEmpty

def depth (e : Env) : Nat := e.outer.length

def findIn (name : String) : List Scope → Option Var
  | [] => none
  | s :: ss =>
    match s.lookup name with
    | some v => some v
    | none => findIn name ss

def get? (e : Env) (name : String) : Option Var := findIn name e.all

def value? (e : Env) (name : String) : Option String := (e.get? name).map Var.text

def ofScopes : List Scope → Env
  | [] => {}
  | s :: ss => { scope := s, outer := ss }

-- Replaces the variable in the innermost scope that has it; in the globals when none has.
def putIn (name : String) (v : Var) : List Scope → List Scope
  | [] => []
  | [s] => [Table.insert name v s]
  | s :: ss => if (s.lookup name).isSome then Table.insert name v s :: ss else s :: putIn name v ss

def put (e : Env) (name : String) (v : Var) : Env := ofScopes (putIn name v e.all)

def eraseIn (name : String) : List Scope → List Scope
  | [] => []
  | s :: ss => if (s.lookup name).isSome then Table.erase name s :: ss else s :: eraseIn name ss

-- Entries of the form `NAME=VALUE` become exported globals.
def ofEntries (entries : List String) : Env :=
  entries.foldl (fun e kv =>
    match Text.cut? '=' kv with
    | some (k, v) => if Text.isName k then { e with scope := Table.insert k { value := v, exported := true } e.scope } else e
    | none => e) {}

def set (e : Env) (name value : String) : Except Failure Env :=
  match e.get? name with
  | none => .ok (e.put name { value })
  | some v =>
    if v.readOnly then .error (.readOnly name)
    else .ok (e.put name { v with value, list := [], array := false })

def setAt : Nat → String → List String → List String
  | 0, x, [] => [x]
  | 0, x, _ :: ys => x :: ys
  | n + 1, x, [] => "" :: setAt n x []
  | n + 1, x, y :: ys => y :: setAt n x ys

-- Sets an element, filling up with empty ones; a negative index counts from the end.
def setIndex (e : Env) (name : String) (i : Int) (value : String) : Env × Option Failure :=
  let e := if (e.get? name).isSome then e else e.put name { array := true }
  let v := (e.get? name).getD {}
  if v.readOnly then (e, some (.readOnly name))
  else
    let v := if v.array then v else { v with array := true, list := [v.value], value := "" }
    let i := if i < 0 then i + v.list.length else i
    if i < 0 then (e.put name v, some (.badIndex name i))
    else (e.put name { v with list := setAt i.toNat value v.list }, none)

def setArray (e : Env) (name : String) (values : List String) : Env × Option Failure :=
  let e := if (e.get? name).isSome then e else e.put name {}
  let v := (e.get? name).getD {}
  if v.readOnly then (e, some (.readOnly name))
  else (e.put name { v with array := true, list := values, value := "" }, none)

-- Makes sure that the innermost scope has the variable. A new one is exported when the one it hides is.
def declareLocal (e : Env) (name : String) : Env :=
  if (e.scope.lookup name).isSome then e
  else
    let exported := ((e.get? name).map (·.exported)).getD false
    { e with scope := Table.insert name { exported } e.scope }

def putLocal (e : Env) (name : String) (v : Var) : Env := { e with scope := Table.insert name v e.scope }

-- Makes sure that the variable exists.
def declare (e : Env) (name : String) : Env :=
  if (e.get? name).isSome then e else e.put name {}

def unset (e : Env) (name : String) : Except Failure Env :=
  match e.get? name with
  | none => .ok e
  | some v => if v.readOnly then .error (.readOnly name) else .ok (ofScopes (eraseIn name e.all))

def setExport (e : Env) (name : String) (on : Bool) : Env :=
  let e := e.declare name
  e.put name { (e.get? name).getD {} with exported := on }

def names (e : Env) : List String := Text.compact (Text.sort (e.all.flatMap fun s => s.map Prod.fst))

def insertEntry (k v : String) : List (String × String) → List (String × String)
  | [] => [(k, v)]
  | (k', v') :: rest =>
    match Text.compare k k' with
    | .lt => (k, v) :: (k', v') :: rest
    | .eq => (k, v) :: rest
    | .gt => (k', v') :: insertEntry k v rest

-- The exported variables as sorted `NAME=VALUE` entries, with further entries on top.
def environ (e : Env) (assigns : List String) : List String :=
  let own := e.names.filterMap fun k =>
    match e.get? k with
    | some v => if v.exported then some (k, v.text) else none
    | none => none
  let all := assigns.foldl (fun m kv =>
    match Text.cut? '=' kv with
    | some (k, v) => insertEntry k v m
    | none => m) own
  all.map fun x => x.1 ++ "=" ++ x.2

end Env

end Machine
end ShellScript

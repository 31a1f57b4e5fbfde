import ShellScript.Script.Node
import ShellScript.Script.Word

-- The variables and functions of a script. Globals and functions belong to the script; each function's body
-- has a scope of its own for what it declares.
namespace ShellScript
namespace Script

inductive Binding where
  | global
  | localTo
  | exported
deriving Repr, DecidableEq, Inhabited

def Binding.name : Binding → String
  | .global => "global"
  | .localTo => "local"
  | .exported => "exported"

structure Variable where
  name : String
  binding : Binding
  readOnly : Bool := false
  pos : Position
deriving Repr, Inhabited

-- A function, with the positional parameters that its body mentions, in order.
structure FunctionInfo where
  name : String
  pos : Position
  params : List String := []
deriving Repr, Inhabited

structure Scope where
  -- the number of the surrounding scope and the function whose body this is; absent for the script's own
  owner : Option (Nat × FunctionInfo) := none
  vars : List Variable := []
deriving Repr, Inhabited

-- Scopes are numbered in the order in which they are met, the script's own being 0.
structure Symbols where
  scopes : Array Scope := #[{}]
  -- for each function name the scope of its last definition, sorted by name
  funcs : List (String × Nat) := []
deriving Repr, Inhabited

namespace Symbols

def scope (t : Symbols) (i : Nat) : Scope := t.scopes[i]?.getD {}

def find? (t : Symbols) (i : Nat) (name : String) : Option Variable :=
  (t.scope i).vars.find? (·.name == name)

-- The scope in which a name is declared, seen from scope `i`: its own, or one around it. A scope's number is
-- greater than that of the scope around it.
def lookupFrom (t : Symbols) (name : String) : Nat → Nat → Option Nat
  | 0, _ => none
  | n + 1, i =>
    if (t.find? i name).isSome then some i
    else match (t.scope i).owner with
      | some (parent, _) => t.lookupFrom name n parent
      | none => none

def lookup? (t : Symbols) (i : Nat) (name : String) : Option Nat := t.lookupFrom name (t.scopes.size + 1) i

def modifyScope (t : Symbols) (i : Nat) (f : Scope → Scope) : Symbols :=
  { t with scopes := t.scopes.modify i f }

def modifyVar (t : Symbols) (i : Nat) (name : String) (f : Variable → Variable) : Symbols :=
  t.modifyScope i fun s => { s with vars := s.vars.map fun v => if v.name == name then f v else v }

-- The first declaration's position stays; an export upgrades the variable.
def declare (t : Symbols) (i : Nat) (name : String) (b : Binding) (p : Position) : Symbols :=
  match t.find? i name with
  | some _ => if b == .exported then t.modifyVar i name fun v => { v with binding := .exported } else t
  | none => t.modifyScope i fun s => { s with vars := s.vars ++ [{ name, binding := b, pos := p }] }

-- An assignment declares a global unless the name is already known.
def assign (t : Symbols) (i : Nat) (name : String) (p : Position) : Symbols :=
  match t.lookup? i name with
  | some _ => t
  | none => t.declare 0 name .global p

def insertFunc (name : String) (i : Nat) : List (String × Nat) → List (String × Nat)
  | [] => [(name, i)]
  | (k, v) :: rest =>
    match Text.compare name k with
    | .lt => (name, i) :: (k, v) :: rest
    | .eq => (name, i) :: rest
    | .gt => (k, v) :: insertFunc name i rest

-- A new scope for a function's body.
def enter (t : Symbols) (i : Nat) (name : String) (p : Position) : Symbols × Nat :=
  let j := t.scopes.size
  ({ scopes := t.scopes.push { owner := some (i, { name, pos := p }) }, funcs := insertFunc name j t.funcs }, j)

-- The number of a positional parameter.
def positional? (name : String) : Option Nat :=
  if Text.isNumeral name then
    let n := name.toList.foldl (fun n c => n * 10 + (c.toNat - '0'.toNat)) 0
    if n ≤ 9223372036854775807 then some n else none
  else none

def isPositional (name : String) : Bool :=
  name == "@" || name == "*" || name == "#" || (match positional? name with
    | some n => n > 0
    | none => false)

-- Numbers first, in their order.
def positionalLe (a b : String) : Bool :=
  match positional? a, positional? b with
  | some m, some n => m ≤ n
  | some _, none => true
  | none, some _ => false
  | none, none => Text.le a b

def addParam (f : FunctionInfo) (name : String) : FunctionInfo :=
  if f.params.contains name then f
  else { f with params := (f.params ++ [name]).mergeSort positionalLe }

-- A mention of a positional parameter counts for the function whose body it stands in.
def mention (i : Nat) (t : Symbols) (n : Node) : Symbols :=
  match n with
  | .part (.param _ x) =>
    if isPositional x.name then
      t.modifyScope i fun s => { s with owner := s.owner.map fun (p, f) => (p, addParam f x.name) }
    else t
  | _ => t

-- The letters of the options of a declaration.
def optionLetters (opts : List Word) : List Char :=
  opts.flatMap fun w =>
    match w.lit? with
    | some s =>
      match s.toList with
      | '-' :: cs => cs
      | _ => []
    | none => []

def declareAll (t : Symbols) (i : Nat) (variant : String) (opts : List Word) (assigns : List Assignment) :
    Symbols :=
  let letters := optionLetters opts
  let exported := variant == "export" || letters.contains 'x'
  let readOnly := variant == "readonly" || letters.contains 'r'
  let inFunction := (t.scope i).owner.isSome
  let isLocal := variant == "local"
    || ((variant == "declare" || variant == "typeset") && inFunction && !letters.contains 'g')
  assigns.foldl (fun t a =>
    let (t, j) :=
      if isLocal then
        let t := t.declare i a.name .localTo a.pos
        (if exported then t.modifyVar i a.name fun v => { v with binding := .exported } else t, i)
      else
        match t.lookup? i a.name with
        | some j =>
          if variant == "export" || variant == "readonly" then
            (if exported then t.modifyVar j a.name fun v => { v with binding := .exported } else t, j)
          else (t.declare 0 a.name (if exported then .exported else .global) a.pos, 0)
        | none => (t.declare 0 a.name (if exported then .exported else .global) a.pos, 0)
    if readOnly then t.modifyVar j a.name fun v => { v with readOnly := true } else t) t

-- The variables that `read` fills. Some of its options take the next word.
def readTargets : List Word → List (String × Position)
  | [] => []
  | w :: ws =>
    match w.lit? with
    | none => readTargets ws
    | some lit =>
      if lit == "-a" then
        match ws with
        | [] => []
        | a :: ws =>
          match a.lit? with
          | some name => if Text.isName name then (name, a.pos) :: readTargets ws else readTargets ws
          | none => readTargets ws
      else if ["-p", "-d", "-t", "-n", "-u"].contains lit then
        match ws with
        | [] => []
        | _ :: ws => readTargets ws
      else if Text.hasPrefix lit "-" then readTargets ws
      else if Text.isName lit then (lit, w.pos) :: readTargets ws
      else readTargets ws

-- The variables that the command fills when it is `read` or `getopts`.
def targets : List Word → List (String × Position)
  | [] => []
  | w :: args =>
    match w.lit? with
    | some "read" => readTargets args
    | some "getopts" =>
      match args with
      | _ :: name :: _ =>
        match name.lit? with
        | some lit => if !Text.hasPrefix lit "-" && Text.isName lit then [(lit, name.pos)] else []
        | none => []
      | _ => []
    | _ => []

def assignAll (t : Symbols) (i : Nat) (names : List (String × Position)) : Symbols :=
  names.foldl (fun t n => t.assign i n.1 n.2) t

-- The variable that an arithmetic assignment stores into.
def arithTarget? : ArithExpr → Option (String × Position)
  | .binary _ op (.word w) _ =>
    if op.isAssign then
      match w.lit? with
      | some name => if Text.isName name then some (name, w.pos) else none
      | none => none
    else none
  | _ => none

mutual

def collect (i : Nat) : NodeTree → Symbols → Symbols
  | .mk n children, t =>
    match n with
    | .command (.function p name _ _ _) =>
      let (t, j) := t.enter i name p
      collectAll j children t
    | .command (.declare _ variant opts assigns _) =>
      let t := t.declareAll i variant opts assigns
      (assigns.flatMap fun a => a.nodes.preorder).foldl (mention i) t
    | .command (.simple assigns args _) =>
      let t := t.assignAll i (assigns.map fun a => (a.name, a.pos))
      collectAll i children (t.assignAll i (targets args))
    | .command (.forIn _ name namePos _ _ _) => collectAll i children (t.assign i name namePos)
    | .command (.select _ name namePos _ _ _) => collectAll i children (t.assign i name namePos)
    | .arith x => collectAll i children (t.assignAll i (arithTarget? x).toList)
    | n => collectAll i children (mention i t n)

def collectAll (i : Nat) : List NodeTree → Symbols → Symbols
  | [], t => t
  | n :: ns, t => collectAll i ns (collect i n t)

end

-- The variables and functions of a block that stands at the top of a script.
def ofBlock (b : Block) : Symbols := collect 0 b.nodes {}

-- The scopes right inside scope `i`, in order.
def childrenOf (t : Symbols) (i : Nat) : List Nat :=
  (List.range t.scopes.size).filter fun j =>
    match (t.scope j).owner with
    | some (p, _) => p == i
    | none => false

-- The scope reached by always going into the last one.
def innermostFrom (t : Symbols) : Nat → Nat → Nat
  | 0, i => i
  | n + 1, i =>
    match (t.childrenOf i).getLast? with
    | some j => t.innermostFrom n j
    | none => i

def innermost (t : Symbols) : Nat := t.innermostFrom t.scopes.size 0

def sortedVars (s : Scope) : List Variable := s.vars.mergeSort fun a b => Text.le a.name b.name

def functions (t : Symbols) : List FunctionInfo :=
  t.funcs.filterMap fun (_, i) => (t.scope i).owner.map Prod.snd

def findFunction? (t : Symbols) (name : String) : Option FunctionInfo :=
  (t.funcs.lookup name).bind fun i => (t.scope i).owner.map Prod.snd

end Symbols
end Script
end ShellScript

import ShellScript.Machine.Expand
import ShellScript.Text.Quoted

-- Assignments and declarations of variables.
namespace ShellScript
namespace Machine

open Program (Word Assign)
open Run

-- The variable that an assignment is about, made if need be: in the innermost scope when it is local.
def target (local_ : Bool) (name : String) : Run Var := do
  modifyShell fun s => { s with env := if local_ then s.env.declareLocal name else s.env.declare name }
  return ((← shell).env.get? name).getD {}

def putVar (name : String) (v : Var) : Run Unit := modifyShell fun s => { s with env := s.env.put name v }

def modifyVar (name : String) (f : Var → Var) : Run Unit :=
  modifyShell fun s => { s with env := s.env.put name (f ((s.env.get? name).getD {})) }

def assignArray (E : Engine) (name : String) (append local_ : Bool) (words : List Word) : Run Unit := do
  let values ← fields E words
  let v ← target local_ name
  if v.readOnly then fail (.ofText .readOnly name)
  let values := if append && v.array then v.list ++ values else values
  putVar name { v with array := true, list := values, value := "" }

def assignIndexed (E : Engine) (name value : String) (append local_ : Bool) (index : Word) : Run Unit := do
  let i ← textValue E 0 (← literal E index)
  let v ← target local_ name
  let old := if append && 0 ≤ i then (v.values[i.toNat]?).getD "" else ""
  setIndex name i (old ++ value)

-- What cannot be evaluated counts as zero.
def orZero (x : Run Int) : Run Int :=
  tryCatch x fun
    | .fail _ => pure 0
    | e => throw e

def assignPlain (E : Engine) (name value : String) (append local_ : Bool) : Run Unit := do
  let v ← target local_ name
  if v.readOnly then fail (.ofText .readOnly name)
  let value ←
    if v.integer then do
      let n ← textValue E 0 value
      let old ← if append then do
          let s ← shell
          let text := ((s.env.get? name).getD {}).text
          orZero (textValue E 0 text)
        else pure 0
      pure (toString (Text.wrap64 (n + old)))
    else if append then pure (v.text ++ value)
    else pure value
  modifyVar name fun v =>
    if v.array then { v with list := value :: v.list.drop 1 } else { v with value }

def assign (E : Engine) (a : Assign) (local_ : Bool) : Run Unit :=
  match a.array with
  | some words => assignArray E a.name a.append local_ words
  | none => do
    let value ← literalOpt E a.value
    match a.index with
    | some index => assignIndexed E a.name value a.append local_ index
    | none => assignPlain E a.name value a.append local_

def assignAll (E : Engine) : List Assign → Run Unit
  | [] => return
  | a :: as => do
    assign E a false
    assignAll E as

-- The attributes that a declaration sets or clears.
structure DeclFlags where
  export_ : Bool := false
  unexport : Bool := false
  readOnly : Bool := false
  integer : Bool := false
  uninteger : Bool := false
  array : Bool := false
  print : Bool := false
  functions : Bool := false
  functionNames : Bool := false
  global : Bool := false
deriving Repr, Inhabited

namespace DeclFlags

def setLetter (variant : Builtin) (on : Bool) (f : DeclFlags) (c : Char) : Option DeclFlags :=
  match c with
  | 'x' => some { f with export_ := on, unexport := !on }
  | 'n' => if variant == .export_ then some { f with export_ := false, unexport := true } else none
  | 'r' => some { f with readOnly := f.readOnly || on }
  | 'i' => some { f with integer := on, uninteger := !on }
  | 'a' => some { f with array := on }
  | 'p' => some { f with print := true }
  | 'f' => some { f with functions := true }
  | 'F' => some { f with functions := true, functionNames := true }
  | 'g' => some { f with global := true }
  | _ => none

def setLetters (variant : Builtin) (sign : Char) : DeclFlags → List Text.Rune → Except String DeclFlags
  | f, [] => .ok f
  | f, r :: rs =>
    match setLetter variant (sign == '-') f r.value with
    | some f => setLetters variant sign f rs
    | none => .error (String.ofList (sign :: Text.utf8 r.value) ++ ": invalid option")

def readFrom (variant : Builtin) : DeclFlags → List String → Except String (DeclFlags × List String)
  | f, [] => .ok (f, [])
  | f, w :: ws =>
    if w == "--" then .ok (f, ws)
    else match w.toList with
      | sign :: c :: cs =>
        if sign == '-' || sign == '+' then
          match setLetters variant sign f (Text.runesOf (c :: cs)) with
          | .ok f => readFrom variant f ws
          | .error e => .error e
        else .ok (f, w :: ws)
      | _ => .ok (f, w :: ws)

-- The options in front, and the operands.
def read (variant : Builtin) (words : List String) : Except String (DeclFlags × List String) :=
  readFrom variant { export_ := variant == .export_, readOnly := variant == .readonly } words

end DeclFlags

def literalWord (text : String) : Word := ⟨[.lit text true]⟩

-- An operand `name=value` as an assignment.
def operand (arg : String) : Assign :=
  match Text.cut? '=' arg with
  | none => { name := arg, index := none, append := false, value := none, array := none }
  | some (name, value) =>
    let append := Text.hasSuffix name "+"
    let name := Text.withoutSuffix name "+"
    let plain : Assign := { name, index := none, append, value := some (literalWord value), array := none }
    match Text.cut? '[' name with
    | some (base, rest) =>
      if !base.isEmpty && Text.hasSuffix name "]" then
        { plain with name := base, index := some (literalWord (Text.dropBack 1 rest)) }
      else plain
    | none => plain

def attributes (v : Var) : String :=
  let letters := (if v.array then "a" else "") ++ (if v.integer then "i" else "")
    ++ (if v.readOnly then "r" else "") ++ (if v.exported then "x" else "")
  if letters.isEmpty then "--" else "-" ++ letters

def elementTexts : Nat → List String → List String
  | _, [] => []
  | i, v :: vs => ("[" ++ toString i ++ "]=" ++ Text.shellQuoted v) :: elementTexts (i + 1) vs

-- The command that declares a variable as it is.
def declaration (name : String) (v : Var) : String :=
  "declare " ++ attributes v ++ " " ++ name ++ "=" ++
    if v.array then "(" ++ Text.joinWith " " (elementTexts 0 v.list) ++ ")" else Text.shellQuoted v.value

def printNamed (command : String) : List Assign → Run Unit
  | [] => return
  | a :: as => do
    match (← shell).env.get? a.name with
    | some v => printLine (declaration a.name v)
    | none => complainWith 1 (command ++ ": " ++ a.name ++ ": not found")
    printNamed command as

def isListed (variant : Builtin) (f : DeclFlags) (v : Var) : Bool :=
  (variant != .export_ || v.exported) && (variant != .readonly || v.readOnly) && (!f.export_ || v.exported)
    && (!f.readOnly || v.readOnly) && (!f.integer || v.integer) && (!f.array || v.array)

def printListed (variant : Builtin) (f : DeclFlags) : List String → Run Unit
  | [] => return
  | n :: ns => do
    match (← shell).env.get? n with
    | some v => if isListed variant f v then printLine (declaration n v)
    | none => pure ()
    printListed variant f ns

def showFunctions (command : String) (shown : Bool) : List String → Run Unit
  | [] => return
  | n :: ns => do
    if !(← shell).functions.has n then complainWith 1 (command ++ ": " ++ n ++ ": not a function")
    else if shown then printLine ("declare -f " ++ n)
    showFunctions command shown ns

def declareOne (E : Engine) (command : String) (f : DeclFlags) (local_ : Bool) (a : Assign) : Run Unit := do
  if !Text.isName a.name then
    complainWith 1 (command ++ ": \x60" ++ a.name ++ "': not a valid identifier")
  else
    let v ← target local_ a.name
    let v := if f.integer then { v with integer := true } else if f.uninteger then { v with integer := false } else v
    let v :=
      if f.array && !v.array then
        { v with array := true, value := "",
                 list := if a.value.isNone && a.array.isNone then [] else [v.value] }
      else v
    putVar a.name v
    let attributes : Run Unit := modifyVar a.name fun v =>
      let v := if f.export_ then { v with exported := true } else if f.unexport then { v with exported := false } else v
      if f.readOnly then { v with readOnly := true } else v
    if a.value.isSome || a.array.isSome || a.index.isSome then
      fun s =>
        match assign E a local_ s with
        | .ok _ s => attributes s
        | .error (.fail g) s =>
          if g.cause == .readOnly then complainWith 1 (a.name ++ ": readonly variable") s else .error (.fail g) s
        | .error e s => .error e s
    else attributes

def declareAll (E : Engine) (command : String) (f : DeclFlags) (local_ : Bool) : List Assign → Run Unit
  | [] => return
  | a :: as => do
    declareOne E command f local_ a
    declareAll E command f local_ as

def declare (E : Engine) (variant : Builtin) (f : DeclFlags) (assigns : List Assign) : Run Unit := do
  let s ← shell
  if variant == .local_ && s.calls == 0 then complainWith 1 "local: can only be used in a function"
  else
    setStatus 0
    if f.functions then
      let names := if assigns.isEmpty then s.functions.sortedNames else assigns.map (·.name)
      showFunctions variant.name (f.print || f.functionNames || assigns.isEmpty) names
    else if assigns.isEmpty then printListed variant f s.env.names
    else if f.print then printNamed variant.name assigns
    else
      let local_ := variant == .local_ ||
        ((variant == .declare || variant == .typeset) && s.calls > 0 && !f.global)
      declareAll E variant.name f local_ assigns

-- A declaration as a statement, whose assignments are known already.
def declareWords (E : Engine) (variant : Builtin) (opts : List Word) (assigns : List Assign) : Run Unit := do
  match DeclFlags.read variant (← fields E opts) with
  | .error e => usage variant.name e
  | .ok (f, rest) => declare E variant f (rest.map operand ++ assigns)

-- A declaration whose command was found only at run time.
def declareArgs (E : Engine) (variant : Builtin) (name : String) (args : List String) : Run Unit :=
  match DeclFlags.read variant args with
  | .error e => usage name e
  | .ok (f, rest) => declare E variant f (rest.map operand)

end Machine
end ShellScript

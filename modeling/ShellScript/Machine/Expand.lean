import ShellScript.Machine.Arithmetic
import ShellScript.Machine.Fields
import ShellScript.Machine.FileSystem
import ShellScript.Machine.Param
import ShellScript.Machine.State
import ShellScript.Program.OfScript

-- Expansion of words and evaluation of arithmetic.
namespace ShellScript
namespace Machine

open Program (Word Part Param Arith Stmt Block)

-- What running a statement needs from one level further down. The program stays the same throughout.
structure Engine where
  program : Program
  -- whether text that comes up at run time can be compiled
  compiles : Bool
  -- how often a loop may go round
  rounds : Nat
  stmt : Stmt → Run Unit
  -- what happens between the statements of a list
  between : Run Unit := pure ()
  builtin : Builtin → List String → Run Unit
  -- evaluates an expression that another one's value led to, the given number of values deep
  eval : Nat → Arith → Run Int

open Run

def ofExcept {α : Type} : Except Failure α → Run α
  | .ok a => return a
  | .error f => fail f

def separators : Run String := return ((← shell).env.value? "IFS").getD " \t\n"

def unbound {α : Type} (name : String) : Run α := fail (.ofText .unbound name)

-- Runs a block in a subshell and gives its output without trailing newlines.
def capture (E : Engine) (body : Block) : Run String := do
  let start := (← world).channels.size
  let out ← newChannel (.sink "" false)
  let status ← inSubshell (fun s => { s with streams := { s.streams with output := out } })
    (code (E.stmt (.group body)))
  setStatus status
  let text := match (← world).channels[start]? with
    | some (.sink text _) => text
    | _ => ""
  modifyWorld fun w => { w with channels := w.channels.extract 0 start }
  return Text.trimRightChars (· == '\n') text

def home (user : String) : Run String := do
  if user.isEmpty then valueOf "HOME" else return ((← world).host.homes user).getD ("~" ++ user)

-- The directory under which embedded files appear.
def placeRoot : String := "/tmp/embedded"

-- The path of the copy of an embedded file that is made for `id` on its first use. `rel` makes a name of its number.
def materialize (p : Program) (id key : String) (rel : Nat → String) : Run String := do
  if (p.embeds.lookup key).isNone then
    fail { cause := .redirect, details := [key, "not embedded"] }
  let placed := (← world).placed
  let i := match placed.idxOf? id with
    | some i => i
    | none => placed.length
  modifyWorld fun w => { w with placed := if w.placed.contains id then w.placed else w.placed ++ [id] }
  return Path.join [placeRoot, rel i]

-- The path of an embedded file.
def place (p : Program) (key : String) : Run String :=
  materialize p key key fun i => Path.join [toString i, Path.base key]

def compileArith (E : Engine) (text : String) : Run Arith :=
  if !E.compiles then fail { cause := .arith, text := some Cause.noCompiler.text, details := [text] }
  else match Program.compile "arith" ("((" ++ text ++ "))") with
    | .error e => fail { cause := .arith, text := some e.message, details := [text, "arith"] }
    | .ok b =>
      match b.stmts with
      | [.arith x] => return x
      | _ => fail { cause := .arith, details := [text, "syntax error"] }

-- The number that a value stands for: a number, the name of a variable, or an expression.
def textValue (E : Engine) (depth : Nat) (v : String) : Run Int :=
  let v := Text.trim v
  if v.isEmpty then return 0
  else if Arithmetic.isNumber v then ofExcept (Arithmetic.number v)
  else if Text.isName v then E.eval depth (.var v none)
  else do E.eval depth (← compileArith E v)

def nth? (vs : List String) (i : Int) : Option String :=
  let i := if i < 0 then i + vs.length else i
  if i < 0 then none else vs[i.toNat]?

def optionLetters (o : Program.Options) : String :=
  (if o.errexit then "e" else "") ++ (if o.noglob then "f" else "") ++ (if o.nounset then "u" else "")
    ++ (if o.xtrace then "x" else "")

-- A parameter that is no variable.
def special? (s : Shell) (name : String) : Option ParamValue :=
  match name with
  | "@" => some { list := s.params, plural := .all, isSet := true }
  | "*" => some { list := s.params, plural := .star, isSet := true }
  | "#" => some (.ofText (toString s.params.length))
  | "?" => some (.ofText (toString s.status))
  | "$" => some (.ofText (toString s.told.process))
  | "!" => some (if s.lastBackground == 0 then .unset else .ofText (toString s.lastBackground))
  | "-" => some (.ofText (optionLetters s.options))
  | "0" => some (.ofText s.name)
  | "RANDOM" => some (.ofText (toString s.told.random))
  | "SECONDS" => some (.ofText (toString s.told.seconds))
  | _ =>
    (Text.int64? name).map fun (n : Int) =>
      if n < 1 then .unset
      else match s.params[n.toNat - 1]? with
        | some v => .ofText v
        | none => .unset

def isSpecialName (name : String) : Bool :=
  ["@", "*", "#", "?", "$", "!", "-", "0"].contains name || (Text.int64? name).isSome

-- A variable as a whole. An array without elements counts as unset.
def wholeValue (v : Option Var) : ParamValue :=
  match v with
  | none => .unset
  | some v => if v.array && v.list.isEmpty then .unset else .ofText v.text

def allElements (v : Option Var) (plural : Plural) : ParamValue :=
  match v with
  | none => { plural }
  | some v => { list := v.values, plural, isSet := true }

-- The elements of an array as they are by now: those assigned since it was looked up show, unless the array
-- itself has been replaced. An array that has grown is taken for another one; that it may share its elements with the
-- one that was looked up, if there was room for the new ones behind these, is left out.
def refreshed (env : Env) (name : String) (v : ParamValue) : ParamValue :=
  match env.get? name with
  | some w => if w.array && w.list.length == v.list.length then { v with list := w.list } else v
  | none => v

-- Adds a parameter's value to the fields.
def addParam (m : Splitting) (quoted : Bool) (v : ParamValue) (f : Fields) : Fields :=
  match v.plural with
  | .all => f.addValues m quoted v.list
  | .star =>
    if quoted then f.add (Text.joinWith (Text.takeFront 1 m.separators) v.list) true
    else f.addValues m false v.list
  | .one => Fields.addValue m quoted f v.text

mutual

def expandParts (E : Engine) (m : Splitting) (quoted : Bool) : List Part → Fields → Run Fields
  | [], f => return f
  | p :: ps, f => do expandParts E m quoted ps (← expandPart E m quoted p f)

def expandPart (E : Engine) (m : Splitting) (quoted : Bool) : Part → Fields → Run Fields
  | .lit text q, f => return f.add text (quoted || q)
  | .quoted parts, f =>
    expandParts E m true parts (if isValueList parts then f else { f with opened := true })
  | .param x, f => return addParam m quoted (← param E x) f
  | .subst body, f => return Fields.addValue m quoted f (← capture E body)
  | .arith none, f => return f.add "0" quoted
  | .arith (some x), f => return f.add (toString (← arith E 0 x)) quoted
  | .brace sequence elems, f => return f.add (Brace.text sequence elems) quoted
  | .tilde user, f => return f.add (← home user) true
  | .embedded key, f => return f.add (← place E.program key) true
  | .runtimePath ⟨parts⟩ _, f => expandParts E m quoted parts f

-- The pieces of a word that is neither split nor matched against files.
def fragments (E : Engine) : Word → Run (List Fragment)
  | ⟨parts⟩ => do
    let m := { separators := ← separators, joined := true }
    return (← expandParts E m false parts {}).finish.flatten

def literal (E : Engine) : Word → Run String
  | ⟨parts⟩ => do
    let m := { separators := ← separators, joined := true }
    return Fragment.plain (← expandParts E m false parts {}).finish.flatten

def literalOpt (E : Engine) : Option Word → Run String
  | none => return ""
  | some w => literal E w

def patternOpt (E : Engine) : Option Word → Run String
  | none => return ""
  | some ⟨parts⟩ => do
    let m := { separators := ← separators, joined := true }
    return Fragment.pattern (← expandParts E m false parts {}).finish.flatten

-- A variable, a special parameter or an element.
def lookup (E : Engine) (name : String) : Option Word → Run ParamValue
  | none => do
    let s ← shell
    return (special? s name).getD (wholeValue (s.env.get? name))
  | some w => do
    let s ← shell
    match special? s name with
    | some v => return v
    | none =>
      -- A variable that the index itself creates does not count, but what the index assigns to it does.
      let known := (s.env.get? name).isSome
      let current : Run (Option Var) := do return ((← shell).env.get? name).filter fun _ => known
      let index ← literal E w
      if index == "@" then return allElements (← current) .all
      else if index == "*" then return allElements (← current) .star
      else
        let i ← textValue E 0 index
        return (((← current).bind fun v => nth? v.values i).map ParamValue.ofText).getD .unset

-- Assigns a variable or an element.
def assignElement (E : Engine) (name value : String) : Option Word → Run Unit
  | none => setVar name value
  | some w => do
    let i ← textValue E 0 (← literal E w)
    setIndex name i value

def param (E : Engine) : Param → Run ParamValue
  | ⟨name, length, indirect, names, index, op, arg, repl⟩ => do
    let env := (← shell).env
    match names with
    | some mark =>
      let list := env.names.filter fun n => Text.hasPrefix n name
      return { list, plural := if mark == '@' then .all else .star, isSet := true }
    | none =>
      let ref := (env.value? name).getD ""
      if indirect && !length && !Text.isName ref && !isSpecialName ref then
        fail (.ofText .badSubst ("$\x7b!" ++ name ++ "\x7d"))
      let target := if indirect && !length then ref else name
      let v ← lookup E target index
      let strict := (← shell).options.nounset
      if length then
        if v.isPlural then return .ofText (toString v.list.length)
        if !v.isSet && strict then unbound target
        return .ofText (toString (Text.runeCount v.text))
      match op with
      | none =>
        if !v.isSet && strict && target != "@" && target != "*" then unbound target
        return v
      | some op =>
        let missing := !v.isSet || v.isEmpty
        match op with
        | .default => if missing then return .ofText (← literalOpt E arg) else return v
        | .defaultUnset => if !v.isSet then return .ofText (← literalOpt E arg) else return v
        | .alt => if missing then return .ofText "" else return .ofText (← literalOpt E arg)
        | .altUnset => if !v.isSet then return .ofText "" else return .ofText (← literalOpt E arg)
        | .assign | .assignUnset =>
          if op == .assign && missing || !v.isSet then
            let value ← literalOpt E arg
            if !Text.isName target then
              fail (.ofText .badSubst ("$" ++ target ++ ": cannot assign in this way"))
            assignElement E target value index
            return .ofText value
          else return v
        | .error | .errorUnset =>
          if op == .error && missing || !v.isSet then
            let text ← literalOpt E arg
            fail (.ofText .unbound
              (target ++ ": " ++ if text.isEmpty then "parameter null or not set" else text))
          else return v
        | _ =>
          if !v.isSet && strict then unbound target
          let shared := v.isPlural && index.isSome && (((← shell).env.get? target).map (·.array)).getD false
          let latest : Run ParamValue := if shared then return refreshed (← shell).env target v else return v
          match op with
          | .remSmallPrefix | .remLargePrefix | .remSmallSuffix | .remLargeSuffix =>
            let p := Pattern.read (← patternOpt E arg)
            return (← latest).map (ParamOps.trim op p)
          | .replace | .replaceAll | .replacePrefix | .replaceSuffix =>
            let pat ← patternOpt E arg
            let text ← literalOpt E repl
            return (← latest).map (ParamOps.replace op pat text)
          | .upperFirst | .upperAll | .lowerFirst | .lowerAll =>
            let pat ← if arg.isNone then pure "?" else patternOpt E arg
            return (← latest).map (ParamOps.changeCase op (Pattern.read pat))
          | _ =>
            let offset ← textValue E 0 (← literalOpt E arg)
            let text ← literalOpt E repl
            let limit ← if repl.isNone then pure none else pure (some (← textValue E 0 text))
            let v ← latest
            if v.isPlural then
              let self := (← shell).name
              let list := if index.isNone && (name == "@" || name == "*") then self :: v.list else v.list
              return { v with list := ParamOps.sliceList list offset limit }
            else return { v with text := ParamOps.sliceText v.text offset limit }

-- The text of a variable or an element, as arithmetic sees it.
def arithText (E : Engine) (name : String) : Option Arith → Run String
  | none => do
    let s ← shell
    match s.env.value? name with
    | some v => return v
    | none => if s.options.nounset then unbound name else return ""
  | some x => do
    let i ← arith E 0 x
    return (((← shell).env.get? name).bind fun v => nth? v.values i).getD ""

def arithAssign (E : Engine) (name : String) (n : Int) : Option Arith → Run Unit
  | none => setVar name (toString n)
  | some x => do
    let i ← arith E 0 x
    setIndex name i (toString n)

def arith (E : Engine) (depth : Nat) : Arith → Run Int
  | .num text => ofExcept (Arithmetic.number text)
  | .var name index => do textValue E (depth + 1) (← arithText E name index)
  | .word w => do textValue E (depth + 1) (← literal E w)
  | .ternary cond yes no => do
    if (← arith E depth cond) != 0 then arith E depth yes
    else match no with
      | some no => arith E depth no
      | none => return 0
  | .unary op post x => do
    if op == .inc || op == .dec then
      match x with
      | .var name index =>
        let old ← textValue E (depth + 1) (← arithText E name index)
        let n := Text.wrap64 (if op == .inc then old + 1 else old - 1)
        arithAssign E name n index
        return if post then old else n
      | _ => fail (.withDetail .arith "assignment to non-variable")
    else ofExcept (Arithmetic.unary op (← arith E depth x))
  | .binary op x y => do
    if op == .land || op == .lor then
      let l ← arith E depth x
      if (op == .land) == (l == 0) then return Arithmetic.ofBool (l != 0)
      else return Arithmetic.ofBool ((← arith E depth y) != 0)
    else if op == .comma then
      let _ ← arith E depth x
      arith E depth y
    else if Arithmetic.isAssign op then
      match x with
      | .var name index =>
        let r ← arith E depth y
        let r ← match Arithmetic.ofAssign? op with
          | some op => do
            let l ← textValue E (depth + 1) (← arithText E name index)
            ofExcept (Arithmetic.binary op l r)
          | none => pure r
        arithAssign E name r index
        return r
      | _ => fail (.withDetail .arith "assignment to non-variable")
    else
      let l ← arith E depth x
      let r ← arith E depth y
      ofExcept (Arithmetic.binary op l r)

end

-- A value may lead to another one only so often.
def maxArithDepth : Nat := 32

def arithAt (E : Engine) (depth : Nat) (x : Arith) : Run Int :=
  if depth > maxArithDepth then fail (.withDetail .arith "expression recursion level exceeded")
  else arith E depth x

def arithOpt (E : Engine) : Option Arith → Run Int
  | none => return 0
  | some x => arith E 0 x

def patternOf (E : Engine) (w : Word) : Run String := patternOpt E (some w)

-- Replaces a field by the names of the files that match it, if there are any.
def matchFiles (f : List Fragment) : Run (List String) := do
  let text := Fragment.plain f
  let s ← shell
  if !Fragment.hasMeta f || s.options.noglob then return [text]
  let pat := Fragment.pattern f
  let rooted := Path.isAbs pat
  let found := Glob.search (← world).files (if rooted then pat else Path.join [s.dir, pat])
  let hidden := Text.hasPrefix (Path.base pat) "."
  let shown := found.filter fun p => hidden || !Text.hasPrefix (Path.base p) "."
  let names := shown.map fun p => if rooted then p else Path.relative s.dir p
  return if names.isEmpty then [text] else Text.sort names

def matchAll : List (List Fragment) → Run (List String)
  | [] => return []
  | f :: fs => return (← matchFiles f) ++ (← matchAll fs)

def expandChoices (E : Engine) : List (List Part) → Run (List String)
  | [] => return []
  | parts :: rest => do
    let m := { separators := ← separators, joined := false }
    let here ← matchAll (← expandParts E m false parts {}).finish
    return here ++ (← expandChoices E rest)

-- The arguments that words stand for.
def fields (E : Engine) : List Word → Run (List String)
  | [] => return []
  | w :: ws => do
    let here ← expandChoices E (Brace.expand w.parts)
    return here ++ (← fields E ws)

end Machine
end ShellScript

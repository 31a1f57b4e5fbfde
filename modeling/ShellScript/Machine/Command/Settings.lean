import ShellScript.Machine.Command.Output
import ShellScript.Machine.Test

-- Commands that change how the shell behaves.
namespace ShellScript
namespace Machine
namespace Command

open Run

def unsetEach (functions : Bool) : List String → Run Unit
  | [] => return
  | n :: ns => do
    if functions then modifyShell fun s => { s with functions := s.functions.erase n }
    else match (← shell).env.unset n with
      | .ok env => setEnv env
      | .error _ => complainWith 1 ("unset: " ++ n ++ ": cannot unset: readonly variable")
    unsetEach functions ns

def unset (name : String) (args : List String) : Run Unit :=
  withFlags [('f', .switch), ('v', .switch)] name args fun f => do
    setStatus 0
    unsetEach (f.on 'f') f.operands

def shift (args : List String) : Run Unit := do
  let count? : Option Nat := match args with
    | [] => some 1
    | a :: _ => (Text.int64? a).bind fun n => if n < 0 then none else some n.toNat
  match count? with
  | none => complainWith 1 ("shift: " ++ args.headD "" ++ ": numeric argument required")
  | some n =>
    if n > (← shell).params.length then setStatus 1
    else
      modifyShell fun s => { s with params := s.params.drop n }
      setStatus 0

def setOption? (o : Program.Options) (name : String) (on : Bool) : Option Program.Options :=
  match name with
  | "errexit" | "e" => some { o with errexit := on }
  | "nounset" | "u" => some { o with nounset := on }
  | "pipefail" => some { o with pipefail := on }
  | "xtrace" | "x" => some { o with xtrace := on }
  | "noglob" | "f" => some { o with noglob := on }
  | _ => none

def optionNames : List String := ["errexit", "noglob", "nounset", "pipefail", "xtrace"]

-- As a table, or as commands that set them.
def optionLine (o : Program.Options) (table : Bool) (name : String) : String :=
  let on := (Test.option? o name).getD false
  if table then Text.padRight 15 name ++ "\t" ++ (if on then "on" else "off") ++ "\n"
  else "set " ++ (if on then "-" else "+") ++ "o " ++ name ++ "\n"

def printOptions (table : Bool) : Run Unit := do
  let o := (← shell).options
  print (String.join (optionNames.map (optionLine o table)))

-- The letters of one argument of `set`. Gives the arguments left, or nothing when the command ends here.
def setLetters (sign : Char) : List Text.Rune → List String → Run (Option (List String))
  | [], args => return some args
  | r :: rs, args => do
    let on := sign == '-'
    let o := (← shell).options
    if r == .char 'o' then
      match args with
      | [] =>
        printOptions on
        return none
      | a :: args =>
        match setOption? o a on with
        | some o =>
          modifyShell fun s => { s with options := o }
          setLetters sign rs args
        | none =>
          usage "set" (a ++ ": invalid option name")
          return none
    else
      match setOption? o (String.ofList (Text.utf8 r.value)) on with
      | some o =>
        modifyShell fun s => { s with options := o }
        setLetters sign rs args
      | none =>
        usage "set" (String.ofList (sign :: Text.utf8 r.value) ++ ": invalid option")
        return none

def setParams (args : List String) : Run Unit := modifyShell fun s => { s with params := args }

def setUnlessEmpty (args : List String) : Run Unit := if args.isEmpty then return else setParams args

def setFrom : Nat → List String → Run Unit
  | 0, _ => return
  | _ + 1, [] => return
  | n + 1, a :: args =>
    if a == "--" then setParams args
    else if a == "-" || a == "+" then setUnlessEmpty args
    else match a.toList with
      | sign :: c :: cs =>
        if sign == '-' || sign == '+' then do
          match ← setLetters sign (Text.runesOf (c :: cs)) args with
          | some args => setFrom n args
          | none => return
        else setParams (a :: args)
      | _ => setParams (a :: args)

def printVars : List String → Run Unit
  | [] => return
  | n :: ns => do
    printLine (n ++ "=" ++ Text.shellQuoted (← valueOf n))
    printVars ns

def set (args : List String) : Run Unit := do
  setStatus 0
  if args.isEmpty then printVars (← shell).env.names else setFrom (args.length + 1) args

-- The signals that have names.
def signals : List (String × Nat) :=
  [("ALRM", 14), ("HUP", 1), ("INT", 2), ("KILL", 9), ("QUIT", 3), ("TERM", 15)]

-- The name behind a signal's name or number; `EXIT` and `ERR` are events of the shell itself.
def signalName? (s : String) : Option String :=
  let s := Text.withoutPrefix (Text.upper s) "SIG"
  if s == "EXIT" || s == "ERR" then some s
  else if s == "0" then some "EXIT"
  else if signals.any (·.1 == s) then some s
  else (Text.int64? (Text.trim s)).bind fun n =>
    (signals.find? fun x => n > 0 && (x.2 : Int) == n).map Prod.fst

def trapEach (action : String) : List String → Run Unit
  | [] => return
  | sig :: sigs => do
    match signalName? sig with
    | none => complainWith 1 ("trap: " ++ sig ++ ": invalid signal specification")
    | some name =>
      modifyShell fun s =>
        { s with traps := if action == "-" then s.traps.erase name else s.traps.insert name action }
    trapEach action sigs

def printTraps (traps : Table String) : List String → Run Unit
  | [] => return
  | n :: ns => do
    printLine ("trap -- " ++ Text.shellQuoted ((traps.lookup n).getD "") ++ " " ++ n)
    printTraps traps ns

def trap (args : List String) : Run Unit := do
  setStatus 0
  match args with
  | "-l" :: _ => print (String.join (signals.map fun x => toString x.2 ++ ") SIG" ++ x.1 ++ "\n"))
  | [] | "-p" :: _ =>
    let traps := (← shell).traps
    printTraps traps traps.sortedNames
  | _ =>
    let args := match args with
      | "--" :: args => args
      | args => args
    match args with
    -- the action is read although `--` was the last argument
    | [] => throw (.stopped .crash)
    -- a lone signal, or a number first, resets
    | [sig] => trapEach "-" [sig]
    | action :: sigs =>
      if (Text.int64? action).isSome then trapEach "-" (action :: sigs) else trapEach action sigs

def octal (n : Nat) : String := String.ofList (Nat.toDigits 8 n)

def symbolicMask (mask : Nat) : String :=
  let part (who : String) (shift : Nat) : String :=
    let bits := ((0o777 ^^^ mask) >>> shift) % 8
    who ++ "=" ++ (if bits &&& 4 != 0 then "r" else "") ++ (if bits &&& 2 != 0 then "w" else "")
      ++ (if bits &&& 1 != 0 then "x" else "")
  part "u" 6 ++ "," ++ part "g" 3 ++ "," ++ part "o" 0

def umask (name : String) (args : List String) : Run Unit :=
  withFlags [('S', .switch)] name args fun f => do
    setStatus 0
    match f.operands with
    | [] =>
      let mask := (← world).mask
      if f.on 'S' then printLine (symbolicMask mask)
      else printLine (String.ofList (List.replicate (4 - (octal mask).length) '0') ++ octal mask)
    | a :: _ =>
      match Text.uint64 8 a.toList with
      | some (n, true) =>
        if n > 0o777 then complainWith 1 ("umask: " ++ a ++ ": octal number out of range")
        else modifyWorld fun w => { w with mask := n }
      | _ => complainWith 1 ("umask: " ++ a ++ ": octal number out of range")

def printAlias (name value : String) : Run Unit := printLine ("alias " ++ name ++ "=" ++ Text.shellQuoted value)

def aliasEach : List String → Run Unit
  | [] => return
  | a :: as => do
    match Text.cut? '=' a with
    | some (name, value) => modifyShell fun s => { s with aliases := s.aliases.insert name value }
    | none =>
      match (← shell).aliases.lookup a with
      | some value => printAlias a value
      | none => complainWith 1 ("alias: " ++ a ++ ": not found")
    aliasEach as

def printAliases (aliases : Table String) : List String → Run Unit
  | [] => return
  | n :: ns => do
    printAlias n ((aliases.lookup n).getD "")
    printAliases aliases ns

def alias_ (args : List String) : Run Unit := do
  setStatus 0
  if args.isEmpty || args == ["-p"] then
    let aliases := (← shell).aliases
    printAliases aliases aliases.sortedNames
  else aliasEach args

def unaliasEach : List String → Run Unit
  | [] => return
  | n :: ns => do
    if n == "-a" then modifyShell fun s => { s with aliases := [] }
    else if (← shell).aliases.has n then modifyShell fun s => { s with aliases := s.aliases.erase n }
    else complainWith 1 ("unalias: " ++ n ++ ": not found")
    unaliasEach ns

def unalias (args : List String) : Run Unit := do
  setStatus 0
  unaliasEach args

end Command
end Machine
end ShellScript

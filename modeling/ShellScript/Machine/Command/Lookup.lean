import ShellScript.Machine.Command.Output
import ShellScript.Machine.Expand

-- What a command name stands for.
namespace ShellScript
namespace Machine
namespace Command

open Run

inductive Meaning where
  | alias (text : String)
  | function
  | builtin
  | file (path : String)
deriving Repr, DecidableEq

def Meaning.word : Meaning → String
  | .alias _ => "alias"
  | .function => "function"
  | .builtin => "builtin"
  | .file _ => "file"

-- What it amounts to: an alias its text, a file its path, all else the name itself.
def Meaning.target (name : String) : Meaning → String
  | .alias text => text
  | .file path => path
  | _ => name

-- The embedded file that is the program of that name.
def bundled? (p : Program) (name : String) : Option String :=
  ((p.externals.find? (·.name == name)).filter (·.bundle)).map (·.path)

-- Where a program may be: in the directories of `PATH`.
def searchPath (s : Shell) (name : String) : List String :=
  let path := (s.env.value? "PATH").getD ""
  let dirs := if path.isEmpty then [] else Text.splitAt ':' path
  dirs.map fun d => Path.join [Path.resolve s.dir (if d.isEmpty then "." else d), name]

-- The program behind a name: a path, a program that comes with this one, or what is found first.
def lookPath? (p : Program) (name : String) : Run (Option String) := do
  let s ← shell
  let w ← world
  if name.toList.contains '/' then return (some (Path.resolve s.dir name)).filter w.host.executable
  match bundled? p name with
  | some key =>
    if (p.embeds.lookup key).isNone then return none
    return some (← materialize p ("bin\x00" ++ name) key fun _ => Path.join ["bin", name])
  | none =>
    match (w.hash.lookup name).filter w.host.executable with
    | some path => return some path
    | none =>
      match (searchPath s name).find? w.host.executable with
      | some path =>
        modifyWorld fun w => { w with hash := w.hash.insert name path }
        return some path
      | none => return none

def meaning? (p : Program) (name : String) : Run (Option Meaning) := do
  let s ← shell
  match s.aliases.lookup name with
  | some text => return some (.alias text)
  | none =>
    if s.functions.has name then return some .function
    else if (Builtin.ofName? name).isSome then return some .builtin
    else return (← lookPath? p name).map .file

def typeLine (name : String) : Meaning → String
  | .alias text => name ++ " is aliased to \x60" ++ text ++ "'"
  | .function => name ++ " is a function"
  | .builtin => name ++ " is a shell builtin"
  | .file path => name ++ " is " ++ path

def typeEach (p : Program) (short paths : Bool) : List String → Run Unit
  | [] => return
  | n :: ns => do
    match ← meaning? p n with
    | none =>
      if !short && !paths then complain ("type: " ++ n ++ ": not found")
      setStatus 1
    | some m =>
      if short then printLine m.word
      else if paths then
        match m with
        | .file path => printLine path
        | _ => pure ()
      else printLine (typeLine n m)
    typeEach p short paths ns

def type (E : Engine) (name : String) (args : List String) : Run Unit :=
  withFlags [('t', .switch), ('p', .switch), ('a', .switch)] name args fun f => do
    setStatus 0
    typeEach E.program (f.on 't') (f.on 'p') f.operands

def describeEach (p : Program) (long : Bool) : List String → Run Unit
  | [] => return
  | n :: ns => do
    match ← meaning? p n with
    | none =>
      if long then complain ("command: " ++ n ++ ": not found")
      setStatus 1
    | some m =>
      if long then printLine (n ++ " is " ++ m.target n)
      else match m with
        | .alias text => printLine ("alias " ++ n ++ "=" ++ Text.shellQuoted text)
        | _ => printLine (m.target n)
    describeEach p long ns

def hashEach (p : Program) : List String → Run Unit
  | [] => return
  | n :: ns => do
    if (Builtin.ofName? n).isNone then
      if (← lookPath? p n).isNone then complainWith 1 ("hash: " ++ n ++ ": not found")
    hashEach p ns

def printHashed (table : Table String) : List String → Run Unit
  | [] => return
  | n :: ns => do
    printLine (n ++ "\t" ++ (table.lookup n).getD "")
    printHashed table ns

def hash (E : Engine) (name : String) (args : List String) : Run Unit :=
  withFlags [('r', .switch)] name args fun f => do
    setStatus 0
    if f.on 'r' then modifyWorld fun w => { w with hash := [] }
    if f.operands.isEmpty && !f.on 'r' then
      let table := (← world).hash
      printHashed table table.sortedNames
    else hashEach E.program f.operands

def helpEach : List String → Run Unit
  | [] => return
  | n :: ns => do
    if (Builtin.ofName? n).isSome then printLine (n ++ ": shell builtin")
    else complainWith 1 ("help: no help topics match \x60" ++ n ++ "'")
    helpEach ns

def rowsOfSix : Nat → List String → List String
  | 0, _ => []
  | _ + 1, [] => []
  | n + 1, names => (Text.joinWith "  " (names.take 6) ++ "\n") :: rowsOfSix n (names.drop 6)

def help (args : List String) : Run Unit := do
  setStatus 0
  if args.isEmpty then
    print ((← shell).name ++ ": these commands are built in:\n\n")
    print (String.join (rowsOfSix Builtin.names.length Builtin.names))
  else helpEach args

end Command

open Command Run

-- The search path of a program outside: the bundled programs come first once there are some.
def programPath : Run String := do
  let w ← world
  let path ← valueOf "PATH"
  return if w.placed.isEmpty then path else w.host.inFront (Path.join [placeRoot, "bin"]) path

def writeEach (streams : Streams) : List (Bool × String) → Run Unit
  | [] => return
  | (error, text) :: rest => do
    write (if error then streams.error else streams.output) text
    writeEach streams rest

-- Runs a program outside the shell, with variables of its own.
def runExternal (p : Program) (assigns : List (String × String)) (name : String) (args : List String) : Run Unit := do
  match ← lookPath? p name with
  | none => complainWith 127 (name ++ ": command not found")
  | some path =>
    let s ← shell
    let w ← world
    let environ := s.env.environ (assigns.map (fun x => x.1 ++ "=" ++ x.2) ++ ["PATH=" ++ (← programPath)])
    let input ← remaining s.streams.input
    let done := w.host.run { path, args := name :: args, environ, dir := s.dir, input, files := w.files }
    modifyWorld fun w => { w with files := done.files }
    consume s.streams.input done.read
    writeEach s.streams done.written
    match done.ending with
    | .exited code => setStatus code
    | .signaled n => setStatus (128 + n)
    | .failed text => complainWith 126 (name ++ ": " ++ text)

end Machine
end ShellScript

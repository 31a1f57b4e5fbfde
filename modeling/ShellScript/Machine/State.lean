import ShellScript.Machine.FileSystem
import ShellScript.Machine.Variable
import ShellScript.Program.Tree

-- The state of a running shell, split into what a subshell shares with its parent and what it copies.
namespace ShellScript
namespace Machine

-- Where a stream reads from or writes to.
inductive Channel where
  -- text to be read. `dual` channels may be opened for the other direction too, but then nothing happens.
  | source (rest : List Char) (dual : Bool)
  | sink (text : String) (dual : Bool)
  | file (path : String) (offset : Nat) (readOnly : Bool)
deriving Inhabited

inductive Stream where
  -- reads as empty and forgets what is written
  | null
  -- forgets what is written
  | discard
  | channel (i : Nat)
deriving Repr, DecidableEq, Inhabited

structure Streams where
  input : Stream := .null
  output : Stream := .discard
  error : Stream := .discard
deriving Repr, DecidableEq, Inhabited

-- The signals that a shell can be told to react to.
inductive TrapSignal where
  | hup
  | int
  | quit
  | term
  | alrm
deriving Repr, DecidableEq, Inhabited

def TrapSignal.name : TrapSignal → String
  | .hup => "HUP"
  | .int => "INT"
  | .quit => "QUIT"
  | .term => "TERM"
  | .alrm => "ALRM"

-- A statement that ran in the background.
structure Job where
  id : Nat
  status : Int
deriving Repr, DecidableEq, Inhabited

-- What a program outside the shell is started with.
structure Start where
  path : String
  args : List String
  environ : List String
  dir : String
  -- what is left to read
  input : List Char
  files : FileSystem

-- How it ended.
inductive Ending where
  | exited (code : Int)
  | signaled (n : Nat)
  -- it could not be run
  | failed (text : String)
deriving Repr, DecidableEq, Inhabited

-- What it has done until then.
structure Executed where
  -- how much of the input it has read
  read : Nat := 0
  -- what it has written, to the error stream where it says so
  written : List (Bool × String) := []
  files : FileSystem
  ending : Ending

-- The system that a shell runs on.
structure Host where
  -- a file that can be run
  executable : String → Bool := fun _ => false
  run : Start → Executed := fun start => { files := start.files, ending := .failed "no such file or directory" }
  -- the search path with a directory put in front of it
  inFront : String → String → String := fun dir paths => dir ++ ":" ++ paths
  -- the home directories of its users
  homes : String → Option String := fun _ => none
deriving Inhabited

structure World where
  host : Host := {}
  files : FileSystem := {}
  channels : Array Channel := #[]
  jobs : List Job := []
  lastJob : Nat := 0
  -- the permissions that new files do not get
  mask : Nat := 0o022
  -- the embedded files and the bundled programs that have got a path
  placed : List String := []
  -- where programs were found
  hash : Table String := []
  -- what each of the next looks for a signal will find
  arrivals : List (Option TrapSignal) := []
deriving Inhabited

-- What a shell is told by the system when it asks. These stay as they are here while a program runs.
structure Told where
  process : Nat := 1
  random : Nat := 0
  seconds : Nat := 0
deriving Repr, DecidableEq, Inhabited

structure Shell where
  env : Env := {}
  functions : Table Program.Stmt := []
  aliases : Table String := []
  traps : Table String := []
  name : String := ""
  params : List String := []
  dir : String := "/"
  -- the directory stack below the current directory
  dirs : List String := []
  options : Program.Options := {}
  status : Int := 0
  lastBackground : Nat := 0
  -- positive while a condition runs, whose failure ends nothing
  conditions : Nat := 0
  -- nested sourced files, function calls and loops
  sources : Nat := 0
  calls : Nat := 0
  loops : Nat := 0
  -- where `getopts` is within an argument
  optionPos : Nat := 0
  -- a subshell, which leaves signals to its parent
  sub : Bool := false
  told : Told := {}
  streams : Streams := {}
deriving Inhabited

structure State where
  world : World := {}
  shell : Shell := {}
deriving Inhabited

-- A computation changes the state also when it is left early.
abbrev Run := EStateM Signal State

namespace Run

def fail {α : Type} (f : Failure) : Run α := throw (.fail f)

def shell : Run Shell := return (← get).shell

def world : Run World := return (← get).world

def modifyShell (f : Shell → Shell) : Run Unit := modify fun s => { s with shell := f s.shell }

def modifyWorld (f : World → World) : Run Unit := modify fun s => { s with world := f s.world }

def setStatus (n : Int) : Run Unit := modifyShell fun s => { s with status := n }

def setEnv (env : Env) : Run Unit := modifyShell fun s => { s with env }

-- Runs `body` and then changes the state, however `body` ended.
def ensuring {α : Type} (body : Run α) (after : State → State) : Run α := fun s =>
  match body s with
  | .ok a s => .ok a (after s)
  | .error e s => .error e (after s)

-- Runs `body` with a changed shell; `restore` gets the shell as it was and the shell as `body` left it.
def within {α : Type} (change : Shell → Shell) (restore : Shell → Shell → Shell) (body : Run α) : Run α := do
  let before ← shell
  modifyShell change
  ensuring body fun s => { s with shell := restore before s.shell }

def setVar (name value : String) : Run Unit := do
  match (← shell).env.set name value with
  | .ok env => setEnv env
  | .error f => fail f

-- As `setVar`, but a variable that is read-only just stays as it is.
def trySetVar (name value : String) : Run Unit := do
  match (← shell).env.set name value with
  | .ok env => setEnv env
  | .error _ => return

def setIndex (name : String) (i : Int) (value : String) : Run Unit := do
  let (env, failure) := (← shell).env.setIndex name i value
  setEnv env
  match failure with
  | some f => fail f
  | none => return

def setArray (name : String) (values : List String) : Run Unit := do
  let (env, failure) := (← shell).env.setArray name values
  setEnv env
  match failure with
  | some f => fail f
  | none => return

def valueOf (name : String) : Run String := return ((← shell).env.value? name).getD ""

def newChannel (c : Channel) : Run Stream := do
  let i := (← world).channels.size
  modifyWorld fun w => { w with channels := w.channels.push c }
  return .channel i

def write (to_ : Stream) (text : String) : Run Unit :=
  match to_ with
  | .channel i => modifyWorld fun w =>
    match w.channels[i]? with
    | some (.sink old dual) =>
      let channels := w.channels.setIfInBounds i (.sink "" dual)
      { w with channels := channels.setIfInBounds i (.sink (old ++ text) dual) }
    | some (.file path offset false) =>
      { w with
        files := w.files.writeAt path offset text
        channels := w.channels.setIfInBounds i (.file path (offset + text.length) false) }
    | _ => w
  | _ => return

def print (text : String) : Run Unit := do write (← shell).streams.output text

def printLine (text : String) : Run Unit := print (text ++ "\n")

-- A message on the error stream, after the shell's name.
def complain (text : String) : Run Unit := do
  let s ← shell
  write s.streams.error (s.name ++ ": " ++ text ++ "\n")

-- Complains and sets the status.
def complainWith (status : Int) (text : String) : Run Unit := do
  complain text
  setStatus status

-- A wrong use of a command.
def usage (name text : String) : Run Unit := complainWith 2 (name ++ ": " ++ text)

-- What is left to read, and the effect of reading `n` characters of it.
def remaining (from_ : Stream) : Run (List Char) := do
  let w ← world
  match from_ with
  | .channel i =>
    match w.channels[i]? with
    | some (.source rest _) => return rest
    | some (.file path offset _) =>
      return (((w.files.find? path).map (·.data)).getD "").toList.drop offset
    | _ => return []
  | _ => return []

def consume (from_ : Stream) (n : Nat) : Run Unit :=
  match from_ with
  | .channel i => modifyWorld fun w =>
    match w.channels[i]? with
    | some (.source rest dual) => { w with channels := w.channels.setIfInBounds i (.source (rest.drop n) dual) }
    | some (.file path offset ro) => { w with channels := w.channels.setIfInBounds i (.file path (offset + n) ro) }
    | _ => w
  | _ => return

-- Reads up to a delimiter, which is dropped; says whether the end came first.
def readLine (from_ : Stream) (delim : Char) : Run (String × Bool) := do
  let rest ← remaining from_
  let line := rest.takeWhile (· != delim)
  let ended := line.length == rest.length
  consume from_ (if ended then line.length else line.length + 1)
  return (String.ofList line, ended)

-- Reads at most `n` characters, and not beyond a delimiter.
def readChars (from_ : Stream) (n : Nat) (delim : Char) : Run (String × Bool) := do
  let rest ← remaining from_
  let line := (rest.take n).takeWhile (· != delim)
  if line.length == n then
    consume from_ n
    return (String.ofList line, false)
  else
    let ended := line.length == rest.length
    consume from_ (if ended then line.length else line.length + 1)
    return (String.ofList line, ended)

-- Looks for a signal that has arrived.
def nextSignal : Run (Option TrapSignal) := do
  match (← world).arrivals with
  | [] => return none
  | found :: later =>
    modifyWorld fun w => { w with arrivals := later }
    return found

-- The status that a computation ends with. A failure is reported.
def code (body : Run Unit) : Run Int := fun s =>
  match body s with
  | .ok _ s => .ok s.shell.status s
  | .error (.exit c) s => .ok c s
  | .error (.return_ c) s => .ok c s
  | .error (.loop _ _) s => .ok s.shell.status s
  | .error (.fail f) s => (do complain f.report; return 1 : Run Int) s
  | .error (.stopped why) s => .error (.stopped why) s

-- A copy of a shell: only traps that ignore a signal stay.
def forked (s : Shell) : Shell := { s with traps := s.traps.filter fun t => t.2.isEmpty, sub := true }

-- Runs `body` in a subshell.
def inSubshell {α : Type} (change : Shell → Shell) (body : Run α) : Run α :=
  within (fun s => change (forked s)) (fun before _ => before) body

end Run
end Machine
end ShellScript

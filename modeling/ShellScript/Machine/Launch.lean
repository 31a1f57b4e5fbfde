import ShellScript.Machine.Step

-- Starting a shell and running programs in it.
namespace ShellScript
namespace Machine

open Program (Block)
open Run

-- What a shell starts with.
structure Setup where
  name : String := ""
  args : List String := []
  input : String := ""
  -- entries of the form `NAME=VALUE`
  environ : List String := []
  dir : String := "/"
  files : FileSystem := {}
  options : Program.Options := {}
  compiles : Bool := true
  limits : Limits := {}

def defaultPath : String := "/usr/local/bin:/usr/local/sbin:/usr/bin:/usr/sbin:/bin:/sbin:."

def setDefault (env : Env) (name value : String) : Env :=
  if (env.get? name).isSome then env else (env.set name value).toOption.getD env

-- The state before the first command. Channel 0 is the input, 1 the output and 2 the error stream.
def Setup.state (s : Setup) : State :=
  let env := Env.ofEntries s.environ
  let env := (env.set "PWD" s.dir).toOption.getD env
  let env := setDefault env "IFS" " \t\n"
  let env := setDefault env "PATH" defaultPath
  let env := setDefault env "PS3" "#? "
  let env := (env.set "OPTIND" "1").toOption.getD env
  { world := {
      files := s.files
      channels := #[.source s.input.toList false, .sink "" false, .sink "" false] }
    shell := {
      env, name := s.name, params := s.args, dir := s.dir, options := s.options
      streams := { input := .channel 0, output := .channel 1, error := .channel 2 } } }

def State.written (s : State) (i : Nat) : String :=
  match s.world.channels[i]? with
  | some (.sink text _) => text
  | _ => ""

def State.output (s : State) : String := s.written 1

def State.errors (s : State) : String := s.written 2

-- Forgets what was written so far.
def State.clearOutput (s : State) : State :=
  let channels := (s.world.channels.setIfInBounds 1 (.sink "" false)).setIfInBounds 2 (.sink "" false)
  { s with world := { s.world with channels } }

-- Runs a program to its end, traps included: its status and the state it leaves, or what stopped it.
def runProgram (p : Program) (s : Setup) : Except Stop (Int × State) :=
  let E := alertEngine p s.compiles s.limits.rounds s.limits.depth
  let body : Run Int := do
    let c ← code (runBlock E p.main)
    finish E c
  match body s.state with
  | .ok c state => .ok (c, state)
  | .error (.stopped why) _ => .error why
  -- no other signal comes out of `finish`
  | .error _ _ => .error .bound

-- How a block that was run in a shell ended.
inductive BlockEnd where
  | done
  -- the shell was asked to end
  | exit (code : Int)
  | fail (f : Failure)
  -- `return`, `break` or `continue` outside of where they belong
  | stray (text : String)
  | stopped (why : Stop)
deriving Repr

-- Runs a block in a shell as it is.
def runIn (p : Program) (limits : Limits) (compiles : Bool) (b : Block) (s : State) : BlockEnd × State :=
  let E := alertEngine p compiles limits.rounds limits.depth
  match runBlock E b s with
  | .ok _ s => (.done, s)
  | .error (.exit c) s => (.exit c, s)
  | .error (.fail f) s => (.fail f, s)
  | .error (.return_ c) s => (.stray ("return " ++ toString c), s)
  | .error (.loop n next) s => (.stray ((if next then "continue " else "break ") ++ toString n), s)
  | .error (.stopped why) s => (.stopped why, s)

end Machine
end ShellScript

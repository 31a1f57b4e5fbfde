import ShellScript.Project.Generate

-- Commands work on files and on three streams, and may fail after they have done a part of their work.
namespace ShellScript
namespace Tool

inductive WriteFault where
  | file (e : Machine.FileError)
  -- the file is there already and was not to be replaced
  | exists_
deriving Repr, DecidableEq

def WriteFault.message : WriteFault → String
  | .file e => e.message
  | .exists_ => "file exists (use --force to overwrite)"

-- What is wrong with a file that answers requests.
inductive AnswersFault where
  | file (e : Machine.FileError)
  | malformed
  | invalid (faults : List String)
deriving Repr, DecidableEq

def AnswersFault.message : AnswersFault → String
  | .file e => e.message
  | .malformed => "malformed document"
  | .invalid faults => Text.joinWith "\n" faults

inductive Failure where
  -- a script ended with a status other than zero
  | exitStatus (code : Int)
  -- a script read an argument that is not there, which ends the tool as well
  | crash
  | settings
  | answers (e : AnswersFault)
  -- the settings could not be written; without a cause, no file was named
  | writeSettings (cause : Option WriteFault)
  | dialect (e : Dialect.Unsupported)
  | output (cause : WriteFault)
  | resolution (f : Dependency.Failure)
  | generation (e : Project.GenerateError)
  -- a script cannot be read
  | script (diags : List Diagnostic)
  | warnings (path : String) (count : Nat)
  -- some of several scripts failed
  | several (causes : List Failure)

namespace Failure

mutual

def message : Failure → String
  | .exitStatus code => "exit status " ++ toString code
  | .crash => "index out of range"
  | .settings => "load configuration"
  | .answers e => "load decisions: " ++ e.message
  | .writeSettings none => "write configuration file"
  | .writeSettings (some cause) => "write configuration file: " ++ cause.message
  | .dialect e => "unsupported dialect: " ++ e.message
  | .output cause => "write output: " ++ cause.message
  | .resolution f => "script has errors: " ++ f.message
  | .generation e => "script has errors: " ++ e.message
  | .script diags => "script has errors: " ++ Diagnostic.textAll diags
  | .warnings path count => path ++ ": " ++ toString count ++ " warnings"
  | .several causes => "script has errors: " ++ Text.joinWith "\n" (messages causes)

def messages : List Failure → List String
  | [] => []
  | f :: fs => f.message :: messages fs

end

end Failure

structure Desk where
  files : Machine.FileSystem := {}
  -- what is left to read
  input : String := ""
  out : String := ""
  err : String := ""
  -- the environment in which scripts run, as `NAME=VALUE`, and the directory in which they start
  environ : List String := []
  dir : String := "/"

abbrev Command := ExceptT Failure (StateM Desk)

namespace Command

-- Runs a command: why it failed, if it did, and what it left behind.
def perform (c : Command Unit) (d : Desk) : Option Failure × Desk :=
  match (ExceptT.run c).run d with
  | (.ok _, d) => (none, d)
  | (.error f, d) => (some f, d)

def print (s : String) : Command Unit := modify fun d => { d with out := d.out ++ s }

def complain (s : String) : Command Unit := modify fun d => { d with err := d.err ++ s }

def files : Command Machine.FileSystem := return (← get).files

-- Everything that is left of the input; there is nothing more after it.
def readInput : Command String := do
  let s := (← get).input
  modify fun d => { d with input := "" }
  return s

-- Changes the files, which is refused when they are sealed.
def change (failure : WriteFault → Failure) (f : Machine.FileSystem → Machine.FileSystem) : Command Unit := do
  let fs ← files
  if fs.sealed then throw (failure (.file .notPermitted))
  else modify fun d => { d with files := f fs }

-- What became of a part of a command that may fail.
def outcome {α : Type} (c : Command α) : Command (Except Failure α) := tryCatch (Except.ok <$> c) (pure ∘ Except.error)

end Command

end Tool
end ShellScript

import ShellScript.Tool.Check
import ShellScript.Tool.Configure
import ShellScript.Tool.Convert
import ShellScript.Tool.Features
import ShellScript.Tool.Format
import ShellScript.Tool.Listing
import ShellScript.Tool.Run

-- What the words of a command line ask for.
namespace ShellScript
namespace Tool

-- The flags and the operands of a command. Of a flag that is given twice the last value holds.
structure Arguments where
  switches : List String := []
  values : List (String × String) := []
  operands : List String := []
deriving Repr

inductive UsageError where
  | unknownCommand (name : String)
  | unknownFlag (name : String)
  | missingValue (name : String)
deriving Repr, DecidableEq

def UsageError.message : UsageError → String
  | .unknownCommand name => if name.isEmpty then "expected a command" else "unexpected argument " ++ name
  | .unknownFlag name => "unknown flag " ++ name
  | .missingValue name => "expected a value for " ++ name

-- The flags that a command knows: those that stand alone and those that take a value. Each has a long name and
-- may have a short one.
structure FlagTable where
  switches : List (String × String)
  values : List (String × String)

namespace Arguments

def has (a : Arguments) (name : String) : Bool := a.switches.contains name

def value (a : Arguments) (name : String) : String := (a.values.lookup name).getD ""

-- The long name of a flag that may be written short.
def longName? (names : List (String × String)) (flag : String) : Option String :=
  (names.find? fun n => flag == "--" ++ n.1 || (!n.2.isEmpty && flag == "-" ++ n.2)).map Prod.fst

-- A word adds to what has been read, and may leave the next word to be the value of a flag.
def step (t : FlagTable) (a : Arguments) (w : String) : Except UsageError (Arguments × Option String) :=
  let (flag, attached) := match Text.cut? '=' w with
    | some (f, v) => (f, some v)
    | none => (w, none)
  match longName? t.switches flag, longName? t.values flag, attached with
  | some n, _, none => .ok ({ a with switches := n :: a.switches }, none)
  | _, some n, some v => .ok ({ a with values := (n, v) :: a.values }, none)
  | _, some n, none => .ok (a, some n)
  | _, _, _ => .error (.unknownFlag flag)

-- A lone hyphen is an operand. After two hyphens everything is.
def read (t : FlagTable) (a : Arguments) : Option String → List String → Except UsageError Arguments
  | none, [] => .ok a
  | some flag, [] => .error (.missingValue flag)
  | some flag, w :: rest => read t { a with values := (flag, w) :: a.values } none rest
  | none, w :: rest =>
    if w == "--" then .ok { a with operands := a.operands ++ rest }
    else if w == "-" || !Text.hasPrefix w "-" then read t { a with operands := a.operands ++ [w] } none rest
    else match step t a w with
      | .ok (a, pending) => read t a pending rest
      | .error e => .error e

end Arguments

def pipelineFlags : FlagTable where
  switches := [("quiet", "q")]
  values := [("decisions", "d"), ("dialect", "")]

def FlagTable.with_ (t : FlagTable) (switches values : List (String × String)) : FlagTable :=
  ⟨t.switches ++ switches, t.values ++ values⟩

def pipelineOf (settings : Settings) (a : Arguments) : Pipeline :=
  { settings, decisions := a.value "decisions", dialect := a.value "dialect", quiet := a.has "quiet" }

-- The command that a line asks for.
def commandOf (settings : Settings) : List String → Except UsageError (Command Unit)
  | "fmt" :: args => do
    let a ← Arguments.read ⟨[("write", "w"), ("dump", "")], [("dialect", "")]⟩ {} none args
    let f : Format := { write := a.has "write", dump := a.has "dump", dialect := a.value "dialect" }
    return f.sources (if a.operands.isEmpty then [Format.inputName] else a.operands)
  | "check" :: args => do
    let a ← Arguments.read (pipelineFlags.with_ [("strict", "")] []) {} none args
    return Check.scripts (pipelineOf settings a) (a.has "strict") a.operands
  | "deps" :: args => do
    let a ← Arguments.read (pipelineFlags.with_ [] [("format", "F")]) {} none args
    return listDependencies (pipelineOf settings a) (a.value "format" == "yaml") (a.operands.headD "")
  | "features" :: args => do
    let a ← Arguments.read ⟨[], []⟩ {} none args
    return Features.show_ a.operands
  | "convert" :: args => do
    let a ← Arguments.read
      (pipelineFlags.with_ [("dry-run", "n"), ("force", "f")] [("output", "o"), ("requests", "")]) {} none args
    let c : Convert :=
      { pipeline := pipelineOf settings a, output := a.value "output", dryRun := a.has "dry-run"
        requests := a.value "requests", force := a.has "force" }
    return c.script (a.operands.headD "")
  | "run" :: args => do
    -- what follows the script belongs to it
    let own := args.takeWhile (Text.hasPrefix · "-")
    let a ← Arguments.read pipelineFlags {} none own
    let rest := args.drop own.length
    return runScript (pipelineOf settings a) (rest.headD "") (rest.drop 1)
  | "init" :: args => do
    let a ← Arguments.read ⟨[("force", "f")], [("output", "o")]⟩ {} none args
    return writeSettings settings (a.value "output") (a.has "force")
  | name :: _ => .error (.unknownCommand name)
  | [] => .error (.unknownCommand "")

end Tool
end ShellScript

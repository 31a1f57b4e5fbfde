import ShellScript.Dependency.Rule
import ShellScript.Tool.Command
import ShellScript.Tool.Settings

-- What the subcommands have in common: answers to requests, and the way from a script to a program.
namespace ShellScript
namespace Tool

-- Files that answer the requests of a resolution.

namespace Answers

open Dependency (Decision Request)

def requestKinds : List String := ["classify", "path", "binary"]

def fault (i : Nat) (field rule : String) : String :=
  "Key: 'decisionFile.decisions[" ++ toString i ++ "]." ++ field ++ "' Error:Field validation for '" ++ field
    ++ "' failed on the '" ++ rule ++ "' tag"

def required (i : Nat) (field value : String) : List String :=
  if value.isEmpty then [fault i field "required"] else []

-- Every part of a decision is needed, and its kind is one of those that requests have.
def faultsOf (d : Decision) (i : Nat) : List String :=
  (if d.kind.isEmpty || requestKinds.contains d.kind then required i "kind" d.kind else [fault i "kind" "oneof"])
    ++ required i "subject" d.subject ++ required i "choice" d.choice

def decision? (d : Decision) (y : Yaml) : Option Decision := do
  return { kind := ← Decode.field? y "kind" d.kind Decode.text?
           subject := ← Decode.field? y "subject" d.subject Decode.text?
           choice := ← Decode.field? y "choice" d.choice Decode.text? }

def decisions? : Yaml → Option (List Decision) :=
  Decode.section? [] [] fun d y => Decode.field? y "decisions" d (Decode.list? (Decode.section? {} {} decision?))

-- The decisions of a file's content.
def read (content : String) : Except AnswersFault (List Decision) :=
  match (Yaml.read? content).bind decisions? with
  | none => .error .malformed
  | some ds =>
    match (ds.zipIdx.map fun (d, i) => faultsOf d i).flatten with
    | [] => .ok ds
    | faults => .error (.invalid faults)

-- Without a path there are no decisions.
def load (fs : Machine.FileSystem) (path : String) : Except AnswersFault (List Decision) :=
  if path.isEmpty then .ok []
  else match fs.read? path with
    | .error e => .error (.file e)
    | .ok content => read content

def choiceRemark (r : Request) : String :=
  " one of: " ++ Text.joinWith ", " r.options ++ (if r.reason.isEmpty then "" else " (" ++ r.reason ++ ")")

-- Requests as a file that answers each of them with its default. A remark on every choice tells the others, so
-- that the file can be edited and used.
def template (rs : List Request) : String :=
  let answer (r : Request) : Yaml :=
    .map [("kind", .text r.kind), ("subject", .text r.subject), ("choice", .remarked r.default (choiceRemark r))]
  (Yaml.map [("decisions", .list (rs.map answer))]).render

end Answers

-- From a script to its resolution and on to a program, with a report of what was noticed on the way.

open Dependency (Resolution)

structure Pipeline where
  settings : Settings := {}
  -- a file that answers requests
  decisions : String := ""
  dialect : String := ""
  -- report errors only
  quiet : Bool := false

namespace Pipeline

open Command

def report (p : Pipeline) (diags : List Diagnostic) : Command Unit :=
  complain (Diagnostic.renderAll (if p.quiet then Diagnostic.atLeast .error diags else diags))

-- The dialect that a name stands for; none when it is left open.
def namedDialect (name : String) : Except Failure (Option Dialect) :=
  if name.isEmpty then .ok none
  else match Dialect.ofName name with
    | .ok d => .ok (some d)
    | .error e => .error (.dialect e)

-- Resolves a script. The resolution may have failed.
def attempt (p : Pipeline) (script : String) : Command Resolution := do
  let path := if p.decisions.isEmpty then p.settings.generate.decisions else p.decisions
  let fs ← files
  match Answers.load fs path with
  | .error e => throw (.answers e)
  | .ok decisions =>
    match namedDialect p.dialect with
    | .error f => throw f
    | .ok dialect =>
      let r := Dependency.resolve { files := fs, config := p.settings.resolve, decisions, dialect } script
      p.report r.diags
      return r

def resolve (p : Pipeline) (script : String) : Command Resolution := do
  let r ← p.attempt script
  match r.failure with
  | some f => throw (.resolution f)
  | none => return r

-- The program of a resolution and everything that was noticed about the script.
def generateFrom (p : Pipeline) (r : Resolution) : Command (Program × List Diagnostic) := do
  match r.failure with
  | some f => throw (.resolution f)
  | none =>
    match Project.generate r (← files) "" p.settings.generate.options with
    | .error e =>
      p.report e.diags
      throw (.generation e)
    | .ok (program, diags) =>
      p.report diags
      return (program, r.diags ++ diags)

def generate (p : Pipeline) (script : String) : Command (Program × List Diagnostic) := do
  p.generateFrom (← p.attempt script)

end Pipeline

end Tool
end ShellScript

import ShellScript.Tool.Pipeline

-- Lists what a script depends on.
namespace ShellScript
namespace Dependency

def Usage.yaml (u : Usage) : Yaml :=
  .map (Yaml.intField "reads" u.reads ++ Yaml.intField "writes" u.writes ++ Yaml.intField "appends" u.appends
    ++ Yaml.boolField "in_loop" u.inLoop ++ Yaml.boolField "in_condition" u.inCondition
    ++ Yaml.boolField "guarded" u.guarded ++ Yaml.boolField "monitored" u.monitored
    ++ Yaml.boolField "sourced" u.sourced ++ Yaml.boolField "executed" u.executed
    ++ Yaml.listField "commands" (u.commands.map .text))

def Edge.yaml (e : Edge) : Yaml :=
  .map ([("from", .text e.from_), ("line", .int e.line), ("column", .int e.column)]
    ++ Yaml.boolField "sourced" e.sourced)

def Node.yaml (n : Node) : Yaml :=
  .map ([("path", .text n.path), ("kind", .text n.kind.name), ("class", .text n.class_.name)]
    ++ Yaml.textField "rule" n.rule ++ [("choice", .text n.choice.name)] ++ Yaml.textField "expr" n.expr
    ++ Yaml.listField "paths" (n.paths.map .text) ++ Yaml.boolField "exists" n.exists_
    ++ Yaml.intField "size" n.size ++ Yaml.boolField "bundle" n.bundle ++ Yaml.textField "bundle_path" n.bundlePath
    ++ [("usage", n.usage.yaml), ("edges", .list (n.edges.map Edge.yaml))])

def Terminal.yaml (t : Terminal) : Yaml :=
  .map ([("requirement", .text t.requirement.name)] ++ Yaml.listField "features" (t.features.map .text)
    ++ Yaml.listField "commands" (t.commands.map .text))

def Request.yaml (r : Request) : Yaml :=
  .map ([("kind", .text r.kind), ("subject", .text r.subject), ("options", .texts r.options),
    ("default", .text r.default)] ++ Yaml.textField "reason" r.reason)

namespace Resolution

def nodes (r : Resolution) : List Node := (r.graph.map Graph.sorted).getD []

def yaml (r : Resolution) : Yaml :=
  .map ([("root", .text r.root), ("units", .texts r.order), ("terminal", r.terminal.yaml),
    ("nodes", .list (r.nodes.map Node.yaml))] ++ Yaml.listField "requests" (r.requests.map Request.yaml))

-- A node on a line, and below it the places that refer to it.
def nodeText (n : Node) : String :=
  Text.padRight 16 n.kind.name ++ " " ++ Text.padRight 7 n.choice.name ++ " " ++ n.path
    ++ (if n.expr.isEmpty || n.expr == n.path then "" else " [" ++ n.expr ++ "]")
    ++ (if n.kind == .localFile then " " ++ n.usage.pattern else "")
    ++ (if n.rule.isEmpty then "" else " (" ++ n.rule ++ ")")
    ++ (if n.bundle then " bundled from " ++ n.bundlePath else "") ++ "\n"
    ++ String.join ((n.edges.filter fun e => !e.from_.isEmpty).map fun e =>
      "    " ++ e.from_ ++ ":" ++ toString e.line ++ ":" ++ toString e.column ++ "\n")

def requestText (r : Request) : String :=
  "? " ++ r.kind ++ " " ++ r.subject ++ ": " ++ r.reason ++ " (default " ++ r.default ++ ")\n"

def listing (r : Resolution) : String :=
  r.root ++ " (terminal: " ++ r.terminal.requirement.name ++ ")\n" ++ String.join (r.nodes.map nodeText)
    ++ String.join (r.requests.map requestText)

end Resolution
end Dependency

namespace Tool

-- Prints the dependencies of a script for people, or as a document when `asYaml` is set.
def listDependencies (p : Pipeline) (asYaml : Bool) (script : String) : Command Unit := do
  let r ← p.resolve script
  Command.print (if asYaml then r.yaml.render else r.listing)

end Tool
end ShellScript

import ShellScript.Dependency.Resolve
import ShellScript.Program.OfScript
import ShellScript.Project.Identity

-- Makes a resolved script into one program, together with the files that travel inside it.
namespace ShellScript
namespace Project

open Dependency

inductive GenerateError where
  | noResolution
  -- the resolution found something fatal
  | resolution (diags : List Diagnostic)
  -- a part of the script has no counterpart in a program
  | script (diags : List Diagnostic)

namespace GenerateError

def message : GenerateError → String
  | .noResolution => "generate: no resolution"
  | .resolution ds => "generate: " ++ Diagnostic.textAll ds
  | .script ds => "generate: " ++ Diagnostic.textAll ds

-- What was found while the program was made.
def diags : GenerateError → List Diagnostic
  | .script ds => ds
  | _ => []

end GenerateError

-- Whether a file's content is taken along. Scripts that are only sourced are compiled instead.
def isEmbedded (files : Machine.FileSystem) (root : String) (n : Node) : Bool :=
  n.kind == .localFile && n.choice == .embed && n.expr.isEmpty && n.exists_ && n.path != root
    && !n.usage.isModified && !(n.usage.sourced && n.usage.reads == 0)
    && ((files.find? n.path).map (!·.isDir)).getD false

-- Whether a sourced file is compiled into the program.
def isCompiled (r : Resolution) (n : Node) : Bool :=
  n.isUnit && n.choice == .embed && n.expr.isEmpty && (r.units.lookup n.path).isSome

-- The file that travels along for a dependency, if it can be read.
def capture? (files : Machine.FileSystem) (root : String) (n : Node) : Option String :=
  match n.kind with
  | .localFile => if isEmbedded files root n then some n.path else none
  | .externalBinary => if n.bundle then some n.bundlePath else none
  | .networkResource => none

-- What is said when the file cannot be read.
def lossText (n : Node) (reason : String) : String :=
  match n.kind with
  | .externalBinary => "cannot bundle " ++ n.path ++ ": " ++ reason ++ "; it runs from PATH"
  | _ => "cannot embed " ++ n.path ++ ": " ++ reason ++ "; it is read at run time"

def loss? (files : Machine.FileSystem) (root : String) (n : Node) : Option Diagnostic := do
  match files.read? (← capture? files root n) with
  | .ok _ => none
  | .error e =>
    let edge := n.firstEdge
    some (Diagnostic.ofKind .missingReference edge.from_ edge.line edge.column (lossText n e.message))

def isReadable (files : Machine.FileSystem) (path : String) : Bool := (files.read? path).toOption.isSome

-- A program whose file cannot be read is run from where the system has it.
def externalOf (files : Machine.FileSystem) (n : Node) : External :=
  let e := n.firstEdge
  let bundle := n.bundle && isReadable files n.bundlePath
  { name := n.path, bundle, path := if bundle then n.bundlePath else "", line := e.line.toNat, unit := e.from_ }

-- The programs that are run, in the order in which calls are bound to them.
def externalsOf (files : Machine.FileSystem) (nodes : List Node) : List External :=
  (nodes.filter (·.kind == .externalBinary)).map (externalOf files)

-- The contents that the program takes along, by path.
def embedsOf (files : Machine.FileSystem) (root : String) (nodes : List Node) : List (String × String) :=
  (Text.compact (Text.sort (nodes.filterMap (capture? files root)))).filterMap fun p =>
    (files.read? p).toOption.map (p, ·)

-- The reference that a word of a file makes; of several the last.
def referenceAt? (r : Resolution) (unit : String) (w : Script.Word) : Option Reference :=
  r.refs.reverse.find? fun x => x.unit == unit && x.pos.offset == w.pos.offset && x.expr == w.text

-- What one file of the script is bound to.
def planFor (r : Resolution) (g : Graph) (embeds : List (String × String)) (units : List String)
    (externals : List External) (file : String) : Program.Plan :=
  let node? (w : Script.Word) : Option (Reference × Node) := do
    let x ← referenceAt? r file w
    let n ← g.find? .localFile x.key
    return (x, n)
  { file
    external := fun name => externals.findIdx? (·.name == name)
    path := fun w => (node? w).map fun (x, n) =>
      if x.isStatic && !x.usage.sourced && !x.usage.isModified && n.choice == .embed
          && (embeds.lookup n.path).isSome then .embedded n.path
      else .runtime (if x.dynamic || n.class_ == .contextDependent then x.expr else "")
    unit := fun w => (node? w).bind fun (x, n) =>
      if x.isStatic && x.usage.sourced && units.contains n.path then some n.path else none }

-- The files that are compiled, the script first.
def compiledPaths (r : Resolution) (nodes : List Node) : List String :=
  r.root :: (nodes.filter (isCompiled r)).map (·.path)

-- A file compiled into a program, with what was noticed in it.
def lowerUnit (r : Resolution) (g : Graph) (files : Machine.FileSystem) (u : String × Script.File) :
    Program.Block × List Diagnostic :=
  let nodes := g.sorted
  let plan := planFor r g (embedsOf files r.root nodes) (compiledPaths r nodes) (externalsOf files nodes) u.1
  Program.lowerScript plan (((files.read? u.1).toOption.getD "").length + 1) u.2.body

def lowerUnits (r : Resolution) (g : Graph) (files : Machine.FileSystem) :
    List (String × Program.Block × List Diagnostic) :=
  (r.units.filter fun u => (compiledPaths r g.sorted).contains u.1).map fun u => (u.1, lowerUnit r g files u)

def programName (root : String) : String := Text.withoutSuffix (Path.base root) (Path.ext (Path.base root))

def originOf (r : Resolution) (root : Script.File) : Origin where
  shebang := root.header.shebang
  version := root.header.version
  author := root.header.author
  description := root.header.description
  dependencies := root.header.dependencies
  terminal := r.terminal.requirement.name
  features := r.terminal.features
  generator := toolName ++ " " ++ toolVersion

-- The program of a resolution and what was noticed while it was made. A name may be given; options hold in
-- addition to those of the interpreter line.
def generate (r : Resolution) (files : Machine.FileSystem) (name : String) (options : Program.Options) :
    Except GenerateError (Program × List Diagnostic) :=
  match r.graph, r.units.lookup r.root with
  | none, _ => .error .noResolution
  | some _, none => .error (.resolution r.diags)
  | some g, some root =>
    if r.isFatal then .error (.resolution r.diags)
    else
      let lowered := lowerUnits r g files
      let lost := g.sorted.filterMap (loss? files r.root)
      let diags := Diagnostic.sort (lost ++ lowered.flatMap fun x => x.2.2)
      if Diagnostic.anyFatal diags then .error (.script diags)
      else
        let blocks := lowered.map fun x => (x.1, x.2.1)
        let sourced := (blocks.filter (·.1 != r.root)).mergeSort fun a b => Text.le a.1 b.1
        .ok ({ name := if name.isEmpty then programName r.root else name
               dialect := root.dialect.name
               main := (blocks.lookup r.root).getD default
               units := sourced
               embeds := embedsOf files r.root g.sorted
               externals := externalsOf files g.sorted
               origin := originOf r root
               options := Program.Options.ofShebang options root.header.shebang }, diags)

end Project
end ShellScript

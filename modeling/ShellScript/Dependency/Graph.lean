import ShellScript.Path
import ShellScript.Text.Byte
import ShellScript.Text.CaseMap
import ShellScript.Text.Quoted

-- Dependencies: of what kind they are, what is known of them, and which places refer to them.
namespace ShellScript
namespace Dependency

-- What a dependency is, how it is classified, and the groups in which classification rules come.

-- The name at a number, or the type's name with the number.
def enumName (names : List String) (type : String) (n : Int) : String :=
  let at_ := if n < 0 then none else names[n.toNat]?
  at_.getD (type ++ "(" ++ toString n ++ ")")

inductive Kind where
  | localFile
  | externalBinary
  | networkResource
deriving Repr, DecidableEq, Inhabited

namespace Kind

def all : List Kind := [.localFile, .externalBinary, .networkResource]

def rank : Kind → Nat
  | .localFile => 0
  | .externalBinary => 1
  | .networkResource => 2

def name : Kind → String
  | .localFile => "local-file"
  | .externalBinary => "external-binary"
  | .networkResource => "network-resource"

def ofName? (s : String) : Option Kind := all.find? (·.name == s)

end Kind

-- Whether a file travels inside the program or is read where the program runs.
inductive Class where
  | unresolved
  | embed
  | runtime
  | contextDependent
deriving Repr, DecidableEq, Inhabited

namespace Class

def all : List Class := [.unresolved, .embed, .runtime, .contextDependent]

def name : Class → String
  | .unresolved => "unresolved"
  | .embed => "embed"
  | .runtime => "runtime"
  | .contextDependent => "context-dependent"

def ofName? (s : String) : Option Class := all.find? fun c => Text.equalFold c.name s

def nameAt (n : Int) : String := enumName (all.map name) "Class" n

end Class

inductive Category where
  | system
  | sensitive
  | size
  | static
  | context
deriving Repr, DecidableEq, Inhabited

namespace Category

-- In the order of precedence that holds unless a configuration says otherwise.
def all : List Category := [.system, .sensitive, .size, .static, .context]

def name : Category → String
  | .system => "system"
  | .sensitive => "sensitive"
  | .size => "size"
  | .static => "static"
  | .context => "context"

def ofName? (s : String) : Option Category := all.find? fun c => Text.equalFold c.name s

def nameAt (n : Int) : String := enumName (all.map name) "Category" n

-- All categories: those listed first, each where it is first named, then the others in their usual order.
def ordered (listed : List Category) : List Category := (listed ++ all).eraseDups

-- A category's place among all of them.
def rank (listed : List Category) (c : Category) : Nat := (ordered listed).idxOf c

end Category

inductive NameError where
  | cls (name : String)
  | category (name : String)
deriving Repr, DecidableEq

def NameError.message : NameError → String
  | .cls s => "unknown class " ++ Text.quoted s
  | .category s => "unknown category " ++ Text.quoted s

-- What classification rules look at: a path and how a script touches it.

structure Usage where
  reads : Int := 0
  writes : Int := 0
  appends : Int := 0
  inLoop : Bool := false
  inCondition : Bool := false
  -- tested for before use
  guarded : Bool := false
  -- watched for changes
  monitored : Bool := false
  sourced : Bool := false
  executed : Bool := false
  -- the commands that name the path
  commands : List String := []
deriving Repr, DecidableEq, Inhabited

namespace Usage

-- The new names are added one by one, so that one listed twice is kept once.
def addCommand (have_ : List String) (c : String) : List String := if have_.contains c then have_ else have_ ++ [c]

-- Both usages together.
def merge (u v : Usage) : Usage where
  reads := u.reads + v.reads
  writes := u.writes + v.writes
  appends := u.appends + v.appends
  inLoop := u.inLoop || v.inLoop
  inCondition := u.inCondition || v.inCondition
  guarded := u.guarded || v.guarded
  monitored := u.monitored || v.monitored
  sourced := u.sourced || v.sourced
  executed := u.executed || v.executed
  commands := Text.sort (v.commands.foldl addCommand u.commands)

def isModified (u : Usage) : Bool := u.writes > 0 || u.appends > 0

-- The name of the access that matters most.
def pattern (u : Usage) : String :=
  if u.monitored then "monitor"
  else if u.sourced then "source"
  else if u.reads > 0 && u.isModified then "read-write"
  else if u.appends > 0 && u.writes == 0 then "append"
  else if u.writes > 0 then "write-only"
  else if u.reads > 0 then "read-only"
  else "unknown"

end Usage

-- Whether a path is a directory or lies below it.
def within (dir p : String) : Bool :=
  if dir.isEmpty then false
  else if dir == "/" then Text.hasPrefix p "/"
  else p == dir || Text.hasPrefix p (dir ++ "/")

structure Subject where
  path : String
  base : String
  -- with its dot, in lower case
  ext : String
  dir : String
  -- below the directory of the first script
  local_ : Bool
  exists_ : Bool
  size : Int
  usage : Usage
deriving Repr, DecidableEq

def Subject.of (path scriptDir : String) (exists_ : Bool) (size : Int) (usage : Usage) : Subject where
  path
  base := Path.base path
  ext := Text.lower (Path.ext path)
  dir := Path.dir path
  local_ := within scriptDir path
  exists_
  size
  usage

-- The dependencies of a program, each with the places that refer to it.

-- A place that refers to a dependency.
structure Edge where
  from_ : String := ""
  line : Int := 0
  column : Int := 0
  sourced : Bool := false
deriving Repr, DecidableEq, Inhabited

def Edge.order (a b : Edge) : Ordering :=
  (Text.compare a.from_ b.from_).then ((compare a.line b.line).then (compare a.column b.column))

structure Node where
  kind : Kind
  -- a path, a command name or a resource's address
  path : String
  class_ : Class := .unresolved
  -- the rule that decided the class
  rule : String := ""
  -- what is done in the end
  choice : Class := .unresolved
  -- the text of a path that only a run can compute
  expr : String := ""
  paths : List String := []
  exists_ : Bool := false
  size : Int := 0
  bundle : Bool := false
  bundlePath : String := ""
  usage : Usage := {}
  edges : List Edge := []
deriving Repr, DecidableEq

namespace Node

-- Whether the dependency is a script that is followed.
def isUnit (n : Node) : Bool := n.kind == .localFile && n.usage.sourced

-- The first place in the order of files and lines; of several in one line the one found first.
def firstEdge (n : Node) : Edge :=
  let before (a b : Edge) : Bool := (Text.compare a.from_ b.from_).then (compare a.line b.line) == .lt
  match n.edges with
  | [] => {}
  | e :: es => es.foldl (fun best e => if before e best then e else best) e

def le (a b : Node) : Bool := (compare a.kind.rank b.kind.rank).then (Text.compare a.path b.path) != .gt

end Node

structure Graph where
  -- in the order in which they were first referred to; no two agree in kind and path
  nodes : List Node := []
  frozen : Bool := false
deriving Repr

namespace Graph

def find? (g : Graph) (kind : Kind) (path : String) : Option Node :=
  g.nodes.find? fun n => n.kind == kind && n.path == path

-- A node after one more reference to it. A reference without a place only adds to the usage.
def refer (u : Usage) (e : Edge) (n : Node) : Node :=
  { n with
    usage := n.usage.merge u
    edges := if e.from_.isEmpty || n.edges.contains e then n.edges else n.edges ++ [e] }

def update (kind : Kind) (path : String) (f : Node → Node) : List Node → List Node
  | [] => [f { kind, path }]
  | n :: ns => if n.kind == kind && n.path == path then f n :: ns else n :: update kind path f ns

-- Changes the node of a kind and path, which is new if there was none.
def modify (g : Graph) (kind : Kind) (path : String) (f : Node → Node) : Graph :=
  { g with nodes := update kind path f g.nodes }

def frozenMessage : String := "graph is frozen"

-- Adds a reference; refused once the graph is frozen.
def add? (g : Graph) (kind : Kind) (path : String) (u : Usage) (e : Edge) : Option Graph :=
  if g.frozen then none else some (g.modify kind path (refer u e))

-- By kind, then by path.
def sorted (g : Graph) : List Node := g.nodes.mergeSort Node.le

def size (g : Graph) : Nat := g.nodes.length

-- Puts the places of every node in order and lets nothing be added any more.
def freeze (g : Graph) : Graph where
  nodes := g.nodes.map fun n => { n with edges := n.edges.mergeSort fun a b => a.order b != .gt }
  frozen := true

end Graph

end Dependency
end ShellScript

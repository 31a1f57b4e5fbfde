import ShellScript.Dependency.Rule
import ShellScript.Dependency.Graph
import ShellScript.Dependency.ParseCache
import ShellScript.Dependency.Reference
import ShellScript.Dependency.Terminal
import ShellScript.Machine.FileSystem
import ShellScript.Script.Symbols
import ShellScript.Text.Ranking

-- Follows a script through the files that it sources and decides what becomes of everything it needs.
namespace ShellScript
namespace Dependency

-- Why a script cannot be made into a program.
inductive Failure where
  | rule
  | cycle (d : Diagnostic)
  | depth (d : Diagnostic)
  | unit (ds : List Diagnostic)
  | root (d : Diagnostic)
deriving Repr

def Failure.message : Failure → String
  | .rule => "resolve: invalid classification rule"
  | .cycle d => "dependency cycle: " ++ d.text
  | .depth d => "maximum source depth exceeded: " ++ d.text
  | .unit ds => "unit has fatal diagnostics: " ++ Diagnostic.textAll ds
  | .root d => "cannot read script: " ++ d.text

structure Resolution where
  root : String := ""
  -- absent when the rules could not be read
  graph : Option Graph := none
  refs : List Reference := []
  requests : List Request := []
  diags : List Diagnostic := []
  terminal : Terminal := {}
  -- every file that was read, by path
  units : List (String × Script.File) := []
  -- the paths of these files, in the order in which they were entered
  order : List String := []
  -- the first thing that went wrong
  failure : Option Failure := none

namespace Resolution

def isFatal (r : Resolution) : Bool := Diagnostic.anyFatal r.diags

end Resolution

-- What a resolution starts from.
structure Inquiry where
  files : Machine.FileSystem
  config : Config := {}
  decisions : List Decision := []
  dialect : Option Dialect := none
  -- what a path without dots becomes when symbolic links are followed; how depends on the system
  follow : String → String := id

-- The path under which a file is known.
def Inquiry.canonical (q : Inquiry) (path : String) : String :=
  if q.config.followSymlinks then q.follow (Path.clean path) else Path.clean path

namespace Resolve

-- A file on the way from the first one is open; one that was left is closed.
inductive Mark where
  | opened
  | closed
deriving DecidableEq

structure State where
  graph : Graph := {}
  refs : List Reference := []
  requests : List Request := []
  diags : List Diagnostic := []
  units : List (String × Script.File) := []
  order : List String := []
  failure : Option Failure := none
  marks : List (String × Mark) := []
  cache : ParseCache := {}
  -- functions that some file defines
  functions : List String := []
  -- commands with the file and the place of each
  commands : List (String × String × Position) := []
  cycles : List (List String) := []

abbrev Resolving := StateM State

def report (d : Diagnostic) : Resolving Unit := modify fun s => { s with diags := s.diags ++ [d] }

-- Only the first failure counts.
def fail (f : Failure) : Resolving Unit := modify fun s => { s with failure := s.failure.orElse fun _ => some f }

def refer (kind : Kind) (path : String) (u : Usage) (e : Edge) : Resolving Unit :=
  modify fun s => { s with graph := s.graph.modify kind path (Graph.refer u e) }

def change (kind : Kind) (path : String) (f : Node → Node) : Resolving Unit :=
  modify fun s => { s with graph := s.graph.modify kind path f }

def mark (path : String) (m : Mark) : Resolving Unit :=
  modify fun s => { s with marks := (path, m) :: s.marks }

def glob (q : Inquiry) (pattern : String) : List String :=
  Text.compact (Text.sort ((Machine.Glob.search q.files pattern).map q.canonical))

def chainText (chain : List String) : String := Text.joinWith " -> " chain

def reportCycle (chain : List String) (from_ : Edge) : Resolving Unit := do
  if (← get).cycles.contains chain then pure ()
  else
    let d := Diagnostic.ofKind .dependencyCycle from_.from_ from_.line from_.column
      ("source cycle: " ++ chainText chain)
    modify fun s => { s with cycles := chain :: s.cycles }
    report d
    fail (.cycle d)

def reportUnreadable (path reason : String) (first : Bool) (from_ : Edge) : Resolving Unit := do
  if first then
    let d := { Diagnostic.ofKind .missingReference path 0 0 ("script " ++ reason) with severity := .error }
    report d
    fail (.root d)
  else
    report (Diagnostic.ofKind .missingReference from_.from_ from_.line from_.column
      ("sourced file " ++ path ++ " " ++ reason))

-- Records a reference and returns the files that it sources.
def addReference (q : Inquiry) (unit : String) (r : Reference) : Resolving (List (String × Edge)) := do
  let r := { r with paths := r.paths.map q.canonical }
  modify fun s => { s with refs := s.refs ++ [r] }
  let edge : Edge := ⟨unit, r.pos.line, r.pos.column, r.usage.sourced⟩
  refer .localFile r.key r.usage edge
  if r.isStatic then return if r.usage.sourced then r.paths.map (·, edge) else []
  else
    change .localFile r.key fun n => { n with expr := r.expr, paths := Terminal.union n.paths r.paths }
    -- the files that a pattern matches are followed, so that they are known
    if r.usage.sourced then
      r.paths.forM fun p => refer .localFile p r.usage edge
      return r.paths.map (·, edge)
    else return []

def addReferences (q : Inquiry) (unit : String) : List Reference → Resolving (List (String × Edge))
  | [] => pure []
  | r :: rs => do return (← addReference q unit r) ++ (← addReferences q unit rs)

-- Records what a file refers to and returns the files that it sources.
def scan (q : Inquiry) (unit : String) (f : Script.File) : Resolving (List (String × Edge)) := do
  let found := collect { unit, glob := glob q } f.body
  let children ← addReferences q unit found.refs
  found.addresses.forM fun (a, p) => refer .networkResource a { reads := 1 } { from_ := unit, line := p.line, column := p.column }
  let commands := found.commands.map fun (n, p) => (n, unit, p)
  let declared := f.header.dependencies.map fun n => (n, unit, ({ line := 0, column := 0, offset := 0 } : Position))
  let functions := (Script.Symbols.ofBlock f.body).functions.map (·.name)
  modify fun s => { s with
    commands := s.commands ++ commands ++ declared
    functions := s.functions ++ functions }
  return children

-- The text of a script, or why there is none.
def scriptAt (fs : Machine.FileSystem) (path : String) : Except String String :=
  match fs.find? path with
  | none => .error ((fs.hidden.lookup (Machine.FileSystem.normalize path)).getD "not found")
  | some e =>
    if e.isDir then .error "is a directory"
    else match e.fault with
      | none => .ok e.data
      | some (.opening m) => .error m
      | some (.reading m) => .error ("resolve: " ++ m)

def load (q : Inquiry) (path src : String) : Resolving Script.File := do
  let (f, _, cache) := (← get).cache.read q.dialect path src
  modify fun s => { s with cache }
  return f

-- Records a file that was read and returns the files that it sources.
def addUnit (q : Inquiry) (path : String) (f : Script.File) : Resolving (List (String × Edge)) := do
  modify fun s => { s with units := s.units ++ [(path, f)], order := s.order ++ [path], diags := s.diags ++ f.diags }
  if f.isFatal then
    fail (.unit f.diags)
    return []
  else scan q path f

-- What is done with a file once it is known to be new: the files that it sources.
def enter (q : Inquiry) (path : String) (chain : List String) (from_ : Edge) : Resolving (List (String × Edge)) := do
  if (chain.length : Int) > q.config.maxDepth then
    let d := Diagnostic.ofKind .depthExceeded from_.from_ from_.line from_.column
      ("source depth exceeds " ++ toString q.config.maxDepth ++ ": " ++ chainText (chain ++ [path]))
    report d
    fail (.depth d)
    return []
  else match scriptAt q.files path with
    | .error reason =>
      reportUnreadable path reason chain.isEmpty from_
      return []
    | .ok data => addUnit q path (← load q path data)

-- Follows a file that the files of `chain` lead to. A chain is never longer than the depth that is allowed by more
-- than one file, so the depth serves as fuel.
def visit (q : Inquiry) : Nat → String → List String → Edge → Resolving Unit
  | 0, _, _, _ => pure ()
  | fuel + 1, path, chain, from_ => do
    match (← get).marks.lookup path with
    | some .opened => reportCycle (chain.dropWhile (· != path) ++ [path]) from_
    | some .closed => pure ()
    | none =>
      mark path .opened
      let children ← enter q path chain from_
      children.forM fun c => visit q fuel c.1 (chain ++ [path]) c.2
      mark path .closed

-- A builtin that a command name may be meant for.
def suggestion? (name : String) : Option String :=
  if name.length < 4 || name.toList.contains '/' then none
  else Text.bestMatch? name (Builtin.names.filter fun b => name.length < b.length && b.length ≤ name.length + 2)

-- A node for every program that is run and is not a function.
def addBinaries : List (String × String × Position) → Resolving Unit
  | [] => pure ()
  | (name, unit, p) :: rest => do
    let s ← get
    if s.functions.contains name then addBinaries rest
    else
      let isNew := (s.graph.find? .externalBinary name).isNone
      refer .externalBinary name { executed := true } { from_ := unit, line := p.line, column := p.column }
      if isNew then
        change .externalBinary name fun n => { n with rule := "external" }
        match suggestion? name with
        | some hint =>
          if p.line > 0 then
            report { Diagnostic.at_ .notice unit p (name ++ " is not a builtin and runs as an external program")
              with hint := "did you mean " ++ hint ++ "?" }
        | none => pure ()
      addBinaries rest

-- Asks a question and returns what its answer means.
def decide (q : Inquiry) (n : Node) (r : Request) : Resolving Class := do
  modify fun s => { s with requests := s.requests ++ [r] }
  let (choice, refused) := r.answer q.decisions
  match refused with
  | some d =>
    let e := n.firstEdge
    report { Diagnostic.ofKind .notice e.from_ e.line e.column
        ("decision " ++ Text.quoted d.choice ++ " for " ++ r.kind ++ " " ++ r.subject ++ " is not one of "
          ++ Text.joinWith ", " r.options ++ "; using " ++ Text.quoted r.default)
      with severity := .warning }
  | none => pure ()
  return if choice == "embed" || choice == "bundle" then .embed else .runtime

def settleFile (q : Inquiry) (c : Classifier) (rootDir : String) (n : Node) : Resolving Node := do
  if !n.expr.isEmpty then
    let choice ← decide q n
      { kind := "path", subject := n.expr, options := ["runtime"], default := "runtime"
        reason := "path depends on values known only at run time" }
    return { n with class_ := .contextDependent, rule := "dynamic", choice }
  else
    let n := match q.files.find? n.path with
      | some e => { n with exists_ := true, size := if e.isDir then 0 else e.data.length }
      | none => n
    let v := c.classify (Subject.of n.path rootDir n.exists_ n.size n.usage)
    let n := { n with class_ := v.class_, rule := v.rule }
    if v.class_ == .embed || v.class_ == .runtime then return { n with choice := v.class_ }
    else
      let e := n.firstEdge
      report (Diagnostic.ofKind .classificationAmbiguity e.from_ e.line e.column
        ("no rule classifies " ++ n.path ++ "; defaulting to runtime"))
      let choice ← decide q n
        { kind := "classify", subject := n.path, options := ["embed", "runtime"], default := "runtime"
          reason := "no classification rule matched" }
      return { n with choice }

-- The file that would travel along for a program.
def bundleFile? (q : Inquiry) (rootDir name : String) : Option String :=
  let isFile (p : String) : Bool := ((q.files.find? p).map (!·.isDir)).getD false
  if Path.isAbs name then if isFile name && within rootDir name then some name else none
  else ((q.config.bundleDirs.map fun d => Path.join [d, name]).find? isFile).map q.canonical

def settleBinary (q : Inquiry) (rootDir : String) (n : Node) : Resolving Node := do
  if q.config.systemBinaries.contains n.path then
    return { n with class_ := .runtime, rule := "system-binary", choice := .runtime }
  else
    let bundlePath := (bundleFile? q rootDir n.path).getD ""
    let n := { n with class_ := .unresolved, bundlePath }
    let choice ← decide q n
      { kind := "binary", subject := n.path, options := ["bundle", "system"]
        default := if bundlePath.isEmpty then "system" else "bundle", reason := "external program" }
    if choice == .embed && bundlePath.isEmpty then
      let e := n.firstEdge
      report (Diagnostic.ofKind .missingReference e.from_ e.line e.column
        ("cannot bundle " ++ n.path ++ ": not found in bundle directories"))
      return { n with choice := .runtime, bundle := false }
    else return { n with choice, bundle := choice == .embed }

def settle (q : Inquiry) (c : Classifier) (rootDir : String) (n : Node) : Resolving Node :=
  match n.kind with
  | .localFile => if n.rule == "entry" then pure n else settleFile q c rootDir n
  | .externalBinary => settleBinary q rootDir n
  | .networkResource => pure { n with class_ := .runtime, rule := "network", choice := .runtime }

def settleAll (q : Inquiry) (c : Classifier) (rootDir : String) : List Node → Resolving (List Node)
  | [] => pure []
  | n :: ns => do
    let n ← settle q c rootDir n
    return n :: (← settleAll q c rootDir ns)

-- Every node classified, the first script before all others.
def classify (q : Inquiry) (c : Classifier) (root : String) : Resolving Unit := do
  refer .localFile root { sourced := true } {}
  change .localFile root fun n => { n with class_ := .embed, rule := "entry", choice := .embed, exists_ := true }
  let nodes ← settleAll q c (Path.dir root) (← get).graph.sorted
  modify fun s => { s with graph := { s.graph with nodes } }

-- What is left to do when the files are known.
def conclude (q : Inquiry) (c : Classifier) (root : String) : Resolving Unit := do
  addBinaries (← get).commands
  classify q c root

def State.resolution (s : State) (root : String) : Resolution :=
  { root
    graph := some s.graph.freeze
    refs := s.refs
    requests := Request.sort s.requests
    diags := Diagnostic.sort s.diags
    terminal := s.units.foldl (fun t u => t.merge (Terminal.ofBlock u.2.body)) {}
    units := s.units
    order := s.order
    failure := s.failure }

end Resolve

-- The resolution of the script at a path.
def resolve (q : Inquiry) (root : String) : Resolution :=
  let q := { q with config := q.config.settled }
  match Classifier.ofConfig? q.config with
  | none => { failure := some .rule }
  | some c =>
    let root := q.canonical (Path.resolve "/" root)
    let run : Resolve.Resolving Unit := do
      Resolve.visit q (q.config.maxDepth.toNat + 2) root [] {}
      Resolve.conclude q c root
    (run.run {}).2.resolution root

end Dependency
end ShellScript

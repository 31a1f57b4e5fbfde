import ShellScript.Dependency.Condition.Eval
import ShellScript.Dependency.Graph

-- Rules that decide which files a program carries inside it, and the questions that they leave open.
namespace ShellScript
namespace Dependency

-- Questions that the analysis of a script leaves open, and the answers given to them in advance.

structure Request where
  -- `classify`, `path` or `binary`
  kind : String
  subject : String
  options : List String := []
  -- what holds unless a decision says otherwise
  default : String := ""
  reason : String := ""
deriving Repr, DecidableEq, Inhabited

structure Decision where
  kind : String := ""
  subject : String := ""
  choice : String := ""
deriving Repr, DecidableEq, Inhabited

namespace Decision

-- The last decision on a question.
def find? (ds : List Decision) (kind subject : String) : Option Decision :=
  ds.reverse.find? fun d => d.kind == kind && d.subject == subject

-- Every question answered by its default.
def defaults (rs : List Request) : List Decision := rs.map fun r => ⟨r.kind, r.subject, r.default⟩

end Decision

namespace Request

-- The choice that holds, and the decision that was refused because it is not among the options.
def answer (ds : List Decision) (r : Request) : String × Option Decision :=
  match Decision.find? ds r.kind r.subject with
  | none => (r.default, none)
  | some d => if r.options.contains d.choice then (d.choice, none) else (r.default, some d)

def sort (rs : List Request) : List Request :=
  rs.mergeSort fun a b => (Text.compare a.kind b.kind).then (Text.compare a.subject b.subject) != .gt

end Request

-- A rule that a configuration adds.
structure RuleSpec where
  name : String := ""
  category : Category := .system
  when : String := ""
  class_ : Class := .unresolved
deriving Repr, DecidableEq, Inhabited

structure Config where
  -- how long a chain of sourced files may be
  maxDepth : Int := 15
  followSymlinks : Bool := true
  -- where programs are looked for that can travel along
  bundleDirs : List String := []
  -- programs that are always there
  systemBinaries : List String := []
  maxEmbedSize : Int := 52428800
  smallDataSize : Int := 1048576
  precedence : List Category := Category.all
  -- a rule for embedding gives way to any later rule against it
  failClosed : Bool := true
  rules : List RuleSpec := []
  parallel : Int := 4
deriving Repr, DecidableEq, Inhabited

-- Limits that are not positive count as unset.
def Config.settled (c : Config) : Config :=
  { c with
    maxDepth := if c.maxDepth ≤ 0 then 15 else c.maxDepth
    maxEmbedSize := if c.maxEmbedSize ≤ 0 then 52428800 else c.maxEmbedSize
    smallDataSize := if c.smallDataSize ≤ 0 then 1048576 else c.smallDataSize }

structure Rule where
  name : String
  category : Category
  class_ : Class
  applies : Subject → Bool

def RuleSpec.compile? (r : RuleSpec) : Option Rule :=
  if r.class_ != .embed && r.class_ != .runtime then none
  else (Condition.predicate? r.when).map fun applies => { name := r.name, category := r.category, class_ := r.class_, applies }

namespace Rule

def endsWithAny (s : String) (exts : List String) : Bool := exts.any (Text.hasSuffix s)

def startsWithAny (s : String) (starts : List String) : Bool := starts.any (Text.hasPrefix s)

def systemDirs : List String := ["/proc/", "/sys/", "/dev/", "/tmp/", "/var/log/", "/run/"]

def cacheDirs : List String := [".cache/", "/cache/", ".local/tmp/"]

def processExts : List String := [".pid", ".lock", ".sock"]

def sensitiveExts : List String := [".key", ".pem", ".password", ".secret", ".token", ".credentials"]

def configExts : List String := [".conf", ".config", ".cfg", ".ini", ".toml", ".yaml", ".yml", ".json"]

def docNames : List String := ["README", "LICENSE", "COPYING", "AUTHORS", "CHANGELOG", "TODO", "INSTALL"]

def dataExts : List String := [".json", ".yaml", ".yml", ".toml", ".xml", ".csv", ".tsv"]

-- The rules that hold without a configuration's own.
def builtIn (c : Config) : List Rule :=
  [⟨"system-path", .system, .runtime, fun s => startsWithAny s.path systemDirs⟩,
    ⟨"cache-path", .system, .runtime, fun s => cacheDirs.any (Text.containsText s.path)⟩,
    ⟨"process-file", .system, .runtime, fun s => endsWithAny s.path processExts⟩,
    ⟨"written", .system, .runtime, fun s => s.usage.isModified⟩,
    ⟨"monitored", .system, .runtime, fun s => s.usage.monitored⟩,
    ⟨"missing", .system, .runtime, fun s => !s.exists_⟩,
    ⟨"sensitive", .sensitive, .runtime, fun s => endsWithAny s.path sensitiveExts⟩,
    ⟨"oversize", .size, .runtime, fun s => s.size > c.maxEmbedSize⟩,
    ⟨"local-config", .static, .embed, fun s => s.local_ && endsWithAny s.path configExts⟩,
    ⟨"documentation", .static, .embed, fun s => startsWithAny s.base docNames⟩,
    ⟨"small-data", .static, .embed, fun s => endsWithAny s.path dataExts && s.size < c.smallDataSize⟩,
    ⟨"markdown", .static, .embed, fun s => s.ext == ".md"⟩,
    ⟨"template", .static, .embed, fun s =>
      Text.containsText (Text.lower s.base) "template" || s.ext == ".tmpl" || s.ext == ".tpl"⟩,
    ⟨"local-source", .static, .embed, fun s => s.usage.sourced && s.local_⟩,
    ⟨"system-config", .context, .runtime, fun s => Text.hasPrefix s.path "/etc/" && !s.local_⟩,
    ⟨"existence-guarded", .context, .runtime, fun s => s.usage.guarded⟩,
    ⟨"read-in-loop", .context, .runtime, fun s => s.usage.inLoop && s.usage.reads > 0⟩]

end Rule

structure Verdict where
  class_ : Class
  -- the rule that decided; empty when none applies
  rule : String := ""
  -- the rule for embedding that had to give way
  overruled : String := ""
deriving Repr, DecidableEq

structure Classifier where
  rules : List Rule
  failClosed : Bool

namespace Classifier

-- The rules in the order of their categories; in one category a configuration's own come first.
def arrange (c : Config) (own : List Rule) : Classifier :=
  let rank := Category.rank c.precedence
  { rules := (own ++ Rule.builtIn c).mergeSort fun a b => rank a.category ≤ rank b.category
    failClosed := c.failClosed }

-- None if one of a configuration's own rules is no rule.
def ofConfig? (c : Config) : Option Classifier := (c.rules.mapM RuleSpec.compile?).map (arrange c)

def classifyBy (failClosed : Bool) (s : Subject) : List Rule → Verdict
  | [] => { class_ := .unresolved }
  | r :: rs =>
    if !r.applies s then classifyBy failClosed s rs
    else if r.class_ != .embed || !failClosed then { class_ := r.class_, rule := r.name }
    else match rs.find? fun l => l.class_ == .runtime && l.applies s with
      | some l => { class_ := .runtime, rule := l.name, overruled := r.name }
      | none => { class_ := r.class_, rule := r.name }

-- The verdict of the first rule that applies.
def classify (c : Classifier) (s : Subject) : Verdict := classifyBy c.failClosed s c.rules

end Classifier
end Dependency
end ShellScript

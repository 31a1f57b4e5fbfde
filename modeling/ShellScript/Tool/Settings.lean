import ShellScript.Dependency.Rule
import ShellScript.Machine.FileSystem
import ShellScript.Project.Package
import ShellScript.Yaml.Read

-- The settings that a configuration file holds.
namespace ShellScript
namespace Tool

open Dependency (Category Config RuleSpec)

-- How programs are made.
structure Making where
  -- how many files are worked on at once; it has no influence on the result
  parallel : Int := 2
  options : Program.Options := {}
  -- the file that answers requests when no other is named
  decisions : String := ""
deriving Repr, DecidableEq

structure Settings where
  resolve : Config := {}
  generate : Making := {}
deriving Repr, DecidableEq

namespace Decode

-- What a value of a document means where a certain type is wanted. Null is the empty value of every type.

def text? : Yaml → Option String
  | .null => some ""
  | .bool b => some (if b then "true" else "false")
  | .int n => some (toString n)
  | .float x => some (x.text .general 'e' none)
  | .text s => some s
  | .remarked s _ => some s
  | _ => none

-- The whole part of a number, rounded towards zero.
def whole? (x : Binary64) : Option Int := x.quotient?.map fun (n, d) => n.tdiv d

def int? : Yaml → Option Int
  | .null => some 0
  | .int n => if Text.inInt64 n then some n else none
  | .float x => (whole? x).filter Text.inInt64
  | .text s => ((Binary64.read? s).bind whole?).filter fun n => 0 ≤ n && Text.inInt64 n
  | _ => none

def bool? : Yaml → Option Bool
  | .null => some false
  | .bool b => some b
  | _ => none

def list? {α : Type} (item : Yaml → Option α) : Yaml → Option (List α)
  | .null => some []
  | .list items => items.mapM item
  | _ => none

def category? : Yaml → Option Category
  | .null => some .system
  | y => (text? y).bind Category.ofName?

def class? : Yaml → Option Dependency.Class
  | .null => some .unresolved
  | y => (text? y).bind Dependency.Class.ofName?

-- A field keeps its default when its key is missing.
def field? {α : Type} (y : Yaml) (key : String) (default : α) (read : Yaml → Option α) : Option α :=
  match y.get? key with
  | none => some default
  | some v => read v

-- A section is a map; where one is null nothing in it has a default.
def section? {α : Type} (empty default : α) (read : α → Yaml → Option α) : Yaml → Option α
  | .null => some empty
  | .map fields => read default (.map fields)
  | _ => none

def rule? (d : RuleSpec) (y : Yaml) : Option RuleSpec := do
  return { name := ← field? y "name" d.name text?, category := ← field? y "category" d.category category?
           when := ← field? y "when" d.when text?, class_ := ← field? y "class" d.class_ class? }

def config? (d : Config) (y : Yaml) : Option Config := do
  return { maxDepth := ← field? y "max_depth" d.maxDepth int?
           followSymlinks := ← field? y "follow_symlinks" d.followSymlinks bool?
           bundleDirs := ← field? y "bundle_dirs" d.bundleDirs (list? text?)
           systemBinaries := ← field? y "system_binaries" d.systemBinaries (list? text?)
           maxEmbedSize := ← field? y "max_embed_size" d.maxEmbedSize int?
           smallDataSize := ← field? y "small_data_size" d.smallDataSize int?
           precedence := ← field? y "precedence" d.precedence (list? category?)
           failClosed := ← field? y "fail_closed" d.failClosed bool?
           rules := ← field? y "rules" d.rules (list? (section? {} {} rule?))
           parallel := ← field? y "parallel" d.parallel int? }

def options? (d : Program.Options) (y : Yaml) : Option Program.Options := do
  return { errexit := ← field? y "errexit" d.errexit bool?, nounset := ← field? y "nounset" d.nounset bool?
           pipefail := ← field? y "pipefail" d.pipefail bool?, xtrace := ← field? y "xtrace" d.xtrace bool?
           noglob := ← field? y "noglob" d.noglob bool? }

def making? (d : Making) (y : Yaml) : Option Making := do
  return { parallel := ← field? y "parallel" d.parallel int?
           options := ← field? y "options" d.options (section? {} d.options options?)
           decisions := ← field? y "decisions" d.decisions text? }

def emptyConfig : Config :=
  { maxDepth := 0, followSymlinks := false, maxEmbedSize := 0, smallDataSize := 0, precedence := []
    failClosed := false, parallel := 0 }

def settings? (d : Settings) (y : Yaml) : Option Settings := do
  return { resolve := ← field? y "resolve" d.resolve (section? emptyConfig d.resolve config?)
           generate := ← field? y "generate" d.generate (section? { parallel := 0 } d.generate making?) }

end Decode

namespace Settings

def isValidRule (r : RuleSpec) : Bool := !r.name.isEmpty && !r.when.isEmpty

-- Limits are not negative, lists hold no empty names, and no category is ranked twice.
def isValid (s : Settings) : Bool :=
  let c := s.resolve
  1 ≤ c.maxDepth && c.maxDepth ≤ 1024 && c.bundleDirs.all (!·.isEmpty) && c.systemBinaries.all (!·.isEmpty)
    && 0 ≤ c.maxEmbedSize && 0 ≤ c.smallDataSize && decide c.precedence.Nodup && c.rules.all isValidRule
    && 0 ≤ c.parallel && 0 ≤ s.generate.parallel

-- The settings of a file's content, over the defaults.
def read? (content : String) : Option Settings := do
  let y ← Yaml.read? content
  let s ← Decode.section? {} {} Decode.settings? y
  if s.isValid then some s else none

-- A file that is missing stands for the defaults.
def load? (fs : Machine.FileSystem) (path : String) : Option Settings :=
  match fs.read? path with
  | .ok content => read? content
  | .error _ => some {}

def ruleYaml (r : RuleSpec) : Yaml :=
  .map [("name", .text r.name), ("category", .text r.category.name), ("when", .text r.when), ("class", .text r.class_.name)]

def configYaml (c : Config) : Yaml :=
  .map [("max_depth", .int c.maxDepth), ("follow_symlinks", .bool c.followSymlinks),
    ("bundle_dirs", .texts c.bundleDirs), ("system_binaries", .texts c.systemBinaries),
    ("max_embed_size", .int c.maxEmbedSize), ("small_data_size", .int c.smallDataSize),
    ("precedence", .texts (c.precedence.map (·.name))), ("fail_closed", .bool c.failClosed),
    ("rules", .list (c.rules.map ruleYaml)), ("parallel", .int c.parallel)]

def yaml (s : Settings) : Yaml :=
  .map [("resolve", configYaml s.resolve),
    ("generate", .map [("parallel", .int s.generate.parallel), ("options", s.generate.options.yaml),
      ("decisions", .text s.generate.decisions)])]

end Settings
end Tool
end ShellScript

import ShellScript.Position
import ShellScript.Text.CaseMap
import ShellScript.Text.Quoted

namespace ShellScript

namespace Diagnostic

inductive Severity where
  | info
  | warning
  | error
deriving Repr, DecidableEq, Inhabited

namespace Severity

def all : List Severity := [.info, .warning, .error]

def rank : Severity → Nat
  | .info => 0
  | .warning => 1
  | .error => 2

def name : Severity → String
  | .info => "info"
  | .warning => "warning"
  | .error => "error"

def ofName? (s : String) : Option Severity := all.find? fun v => Text.equalFold v.name s

-- The name that stands for a number, also for one that numbers no severity.
def nameAt (n : Int) : String :=
  match (if n < 0 then none else all[n.toNat]?) with
  | some s => s.name
  | none => "severity(" ++ toString n ++ ")"

end Severity

-- What went wrong.
inductive Kind where
  | lexical
  | parse
  | unsupportedFeature
  | dependencyCycle
  | depthExceeded
  | missingReference
  | classificationAmbiguity
  | generation
  | notice
deriving Repr, DecidableEq, Inhabited

namespace Kind

def all : List Kind :=
  [.lexical, .parse, .unsupportedFeature, .dependencyCycle, .depthExceeded, .missingReference,
    .classificationAmbiguity, .generation, .notice]

def name : Kind → String
  | .lexical => "LexicalError"
  | .parse => "ParseError"
  | .unsupportedFeature => "UnsupportedFeature"
  | .dependencyCycle => "DependencyCycle"
  | .depthExceeded => "DepthExceeded"
  | .missingReference => "MissingReference"
  | .classificationAmbiguity => "ClassificationAmbiguity"
  | .generation => "GenerationError"
  | .notice => "Notice"

def ofName? (s : String) : Option Kind := all.find? fun k => Text.equalFold k.name s

def nameAt (n : Int) : String :=
  match (if n < 0 then none else all[n.toNat]?) with
  | some k => k.name
  | none => "Kind(" ++ toString n ++ ")"

-- Whether a text can give rise to it by itself. The other kinds are about the files around a script.
def isOfText : Kind → Bool
  | .lexical | .parse | .unsupportedFeature => true
  | _ => false

-- The severity that a diagnostic of this kind has unless something else is said.
def severity : Kind → Severity
  | .missingReference => .warning
  | .classificationAmbiguity => .warning
  | .notice => .info
  | _ => .error

end Kind

-- A name that is not one of the names of a severity or a kind.
inductive NameError where
  | severity (name : String)
  | kind (name : String)
deriving Repr, DecidableEq

def NameError.message : NameError → String
  | .severity n => "unknown severity " ++ Text.quoted n
  | .kind n => "unknown diagnostic kind " ++ Text.quoted n

end Diagnostic

-- An error, a warning or a note about a place in a file. Line and column 0 mean that they are unknown.
structure Diagnostic where
  severity : Diagnostic.Severity
  kind : Diagnostic.Kind
  message : String
  file : String := ""
  line : Int := 0
  column : Int := 0
  hint : String := ""
deriving Repr, DecidableEq, Inhabited

namespace Diagnostic

def ofKind (kind : Kind) (file : String) (line column : Int) (message : String) : Diagnostic :=
  { severity := kind.severity, kind, message, file, line, column }

def at_ (kind : Kind) (file : String) (p : Position) (message : String) : Diagnostic :=
  ofKind kind file p.line p.column message

-- What a reader can find wrong with a text.
abbrev OfText := { d : Diagnostic // d.kind.isOfText = true }

def isFatal (d : Diagnostic) : Bool := d.severity == .error

-- `file:line:column` without the parts that are unknown.
def position (d : Diagnostic) : String :=
  if d.line > 0 then
    (if d.file.isEmpty then "" else d.file ++ ":") ++ toString d.line
      ++ (if d.column > 0 then ":" ++ toString d.column else "")
  else d.file

def text (d : Diagnostic) : String :=
  (if d.position.isEmpty then "" else d.position ++ ": ")
    ++ d.severity.name ++ ": " ++ d.kind.name ++ ": " ++ d.message
    ++ (if d.hint.isEmpty then "" else " (" ++ d.hint ++ ")")

-- The line that a report shows.
def rendered (d : Diagnostic) : String :=
  (if d.position.isEmpty then "" else d.position ++ ": ")
    ++ d.severity.name ++ " [" ++ d.kind.name ++ "] " ++ d.message
    ++ (if d.hint.isEmpty then "" else " (" ++ d.hint ++ ")") ++ "\n"

-- The fields of a log entry about the diagnostic.
def logFields (d : Diagnostic) : List (String × String) :=
  [("severity", d.severity.name), ("kind", d.kind.name), ("message", d.message)]
    ++ (if d.position.isEmpty then [] else [("pos", d.position)])
    ++ (if d.hint.isEmpty then [] else [("hint", d.hint)])

-- By file, line and column; of two at one place the graver comes first.
def order (a b : Diagnostic) : Ordering :=
  (Text.compare a.file b.file).then
    ((compare a.line b.line).then
      ((compare a.column b.column).then (compare b.severity.rank a.severity.rank)))

def sort (ds : List Diagnostic) : List Diagnostic := ds.mergeSort fun a b => order a b != .gt

def anyFatal (ds : List Diagnostic) : Bool := ds.any isFatal

def count (k : Kind) (ds : List Diagnostic) : Nat := ds.countP (·.kind == k)

-- Those at least as grave as `s`.
def atLeast (s : Severity) (ds : List Diagnostic) : List Diagnostic :=
  ds.filter fun d => s.rank ≤ d.severity.rank

def textAll : List Diagnostic → String
  | [] => "no diagnostics"
  | ds => Text.joinWith "\n" (ds.map text)

def renderAll (ds : List Diagnostic) : String := String.join (ds.map rendered)

end Diagnostic
end ShellScript

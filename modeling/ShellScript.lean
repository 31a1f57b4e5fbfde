import ShellScript.Datum
import ShellScript.Dependency.Condition.Check
import ShellScript.Dependency.Condition.Clock
import ShellScript.Dependency.Condition.Eval
import ShellScript.Dependency.Condition.Function
import ShellScript.Dependency.Condition.Json
import ShellScript.Dependency.Condition.Read
import ShellScript.Dependency.Condition.Token
import ShellScript.Dependency.Condition.Tree
import ShellScript.Dependency.Condition.Type
import ShellScript.Dependency.Condition.Value
import ShellScript.Dependency.Rule
import ShellScript.Dependency.Graph
import ShellScript.Dependency.ParseCache
import ShellScript.Dependency.Reference
import ShellScript.Dependency.Resolve
import ShellScript.Dependency.Terminal
import ShellScript.Diagnostic
import ShellScript.Dialect
import ShellScript.Log.Fault
import ShellScript.Log.Write
import ShellScript.Log.Value
import ShellScript.Machine.Arithmetic
import ShellScript.Machine.Command.Directory
import ShellScript.Machine.Command.Input
import ShellScript.Machine.Command.Job
import ShellScript.Machine.Command.Lookup
import ShellScript.Machine.Command.Output
import ShellScript.Machine.Command.Settings
import ShellScript.Machine.Declare
import ShellScript.Machine.Expand
import ShellScript.Machine.Failure
import ShellScript.Machine.Fields
import ShellScript.Machine.FileSystem
import ShellScript.Machine.Format
import ShellScript.Machine.Launch
import ShellScript.Machine.Param
import ShellScript.Machine.Redirect
import ShellScript.Machine.State
import ShellScript.Machine.Step
import ShellScript.Machine.Variable
import ShellScript.Machine.Test
import ShellScript.Main
import ShellScript.Number.Binary64
import ShellScript.Number.Power
import ShellScript.Number.Written
import ShellScript.Path
import ShellScript.Pattern
import ShellScript.Position
import ShellScript.Program.Builtin
import ShellScript.Program.OfScript
import ShellScript.Program.Outline
import ShellScript.Program.Tree
import ShellScript.Project.Generate
import ShellScript.Project.Identity
import ShellScript.Project.Package
import ShellScript.Regex.Tree
import ShellScript.Regex.Match
import ShellScript.Regex.Read
import ShellScript.Script.Node
import ShellScript.Script.Outline
import ShellScript.Script.Print
import ShellScript.Script.Read
import ShellScript.Script.Read.Arith
import ShellScript.Script.Read.Command
import ShellScript.Script.Read.Setting
import ShellScript.Script.Read.Word
import ShellScript.Script.Symbols
import ShellScript.Script.Tree
import ShellScript.Script.Word
import ShellScript.Text.Notation
import ShellScript.Text.Rune
import ShellScript.Text.Byte
import ShellScript.Text.CaseMap
import ShellScript.Text.Category
import ShellScript.Text.CodeRange
import ShellScript.Text.Integer
import ShellScript.Text.Quoted
import ShellScript.Text.Ranking
import ShellScript.Text.WritingSystem
import ShellScript.Token
import ShellScript.Token.Construct
import ShellScript.Token.Scan
import ShellScript.Tool.Pipeline
import ShellScript.Tool.Arguments
import ShellScript.Tool.Command
import ShellScript.Tool.Listing
import ShellScript.Tool.Check
import ShellScript.Tool.Configure
import ShellScript.Tool.Convert
import ShellScript.Tool.Features
import ShellScript.Tool.Format
import ShellScript.Tool.Run
import ShellScript.Tool.Settings
import ShellScript.Yaml.Read
import ShellScript.Yaml.Tree
import ShellScript.Yaml.Write
import ShellScript.Proofs.Machine.Env
import ShellScript.Proofs.Machine.Plain
import ShellScript.Proofs.Machine.Command
import ShellScript.Proofs.Machine.Congruence
import ShellScript.Proofs.Machine.Expansion
import ShellScript.Proofs.Machine.Discipline
import ShellScript.Proofs.Machine.Statement
import ShellScript.Proofs.Machine.Engine
import ShellScript.Proofs.Machine.Promise
import ShellScript.Proofs.Machine.ControlFlow
import ShellScript.Proofs.Machine.ReadOnly
import ShellScript.Proofs.Machine.Isolation
import ShellScript.Proofs.Machine.SubshellForms
import ShellScript.Proofs.Machine.Crash
import ShellScript.Proofs.Token.Lossless
import ShellScript.Proofs.Machine.Settled
import ShellScript.Proofs.Machine.Errexit
import ShellScript.Proofs.Machine.Spelling
import ShellScript.Proofs.Dependency.ValueFlow
import ShellScript.Proofs.Script.Alike
import ShellScript.Proofs.Script.RoundTrip
import ShellScript.Proofs.Dependency.CachedParse
import ShellScript.Proofs.Dependency.Walk
import ShellScript.Proofs.Dependency.UnitGraph
import ShellScript.Proofs.Dependency.DepthLimit
import ShellScript.Proofs.Program.Image
import ShellScript.Proofs.Program.Lowering
import ShellScript.Proofs.Script.FileReading
import ShellScript.Proofs.Script.Progress
import ShellScript.Proofs.Dependency.Classification
import ShellScript.Proofs.Dependency.Collection
import ShellScript.Proofs.Dependency.NodeGraph
import ShellScript.Proofs.Program.Links
import ShellScript.Proofs.Project.Closure
import ShellScript.Proofs.Dependency.DiscoveryOrder
import ShellScript.Proofs.Machine.RefusedWrite
import ShellScript.Proofs.Machine.Shadowing
import ShellScript.Proofs.Dependency.DefaultAnswer
import ShellScript.Proofs.Machine.OptionWord
import ShellScript.Proofs.Program.Operand
import ShellScript.Proofs.Text.Numeral
import ShellScript.Proofs.Machine.ArithShortCut
import ShellScript.Proofs.Machine.ArithRank
import ShellScript.Proofs.Machine.ArithDepth
import ShellScript.Proofs.Machine.Reentry
import ShellScript.Proofs.Machine.Subscript
import ShellScript.Proofs.Machine.LastStatus
import ShellScript.Proofs.Token.Idle
import ShellScript.Proofs.Program.SoleCommand
import ShellScript.Proofs.Machine.ArithCode
import ShellScript.Proofs.Machine.FieldSplitting
import ShellScript.Proofs.Machine.LineReading
import ShellScript.Proofs.Machine.FileNames
import ShellScript.Proofs.Machine.BraceNumbers
import ShellScript.Proofs.Text.Characters
import ShellScript.Proofs.Machine.Parameter
import ShellScript.Proofs.Machine.Slice
import ShellScript.Proofs.Machine.PatternTrim
import ShellScript.Proofs.Machine.CaseConversion
import ShellScript.Proofs.Machine.BraceProduct
import ShellScript.Proofs.Machine.CaseSelection
import ShellScript.Proofs.Machine.ScriptOptions
import ShellScript.Proofs.Script.ArithPrecedence
import ShellScript.Proofs.Machine.FailedRedirection
import ShellScript.Proofs.Machine.DirectoryStack
import ShellScript.Proofs.Machine.OptionChanges
import ShellScript.Proofs.Machine.OptionPosition
import ShellScript.Proofs.Script.HeaderReading
import ShellScript.Proofs.Machine.Redeclaration
import ShellScript.Proofs.Machine.FormatReuse
import ShellScript.Proofs.Machine.TestExpression
import ShellScript.Proofs.Token.ConstructEnds
import ShellScript.Proofs.Machine.NumberText
import ShellScript.Proofs.Log.PrettyJson
import ShellScript.Proofs.Script.CommandPlaces



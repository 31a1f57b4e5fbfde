import ShellScript.Script.Outline
import ShellScript.Script.Print
import ShellScript.Tool.Pipeline

-- Prints scripts in one canonical form.
namespace ShellScript
namespace Tool

structure Format where
  -- change the files instead of printing
  write : Bool := false
  -- print the tree of a script instead of its text
  dump : Bool := false
  dialect : String := ""

namespace Format

open Command

-- The name that stands for the input stream.
def inputName : String := "-"

def readSource (source : String) : Command String := do
  if source == inputName then readInput
  else match (← files).read? source with
    | .ok s => return s
    | .error e => throw (.output (.file e))

-- A file is written only if its text changes.
def source (f : Format) (dialect : Option Dialect) (name : String) : Command Unit := do
  let text ← readSource name
  let file := Script.read dialect name text
  complain (Diagnostic.renderAll file.diags)
  if file.isFatal then throw (.script file.diags)
  else
    let result := if f.dump then file.outline else file.text
    if !f.write || name == inputName || f.dump then print result
    else if result == text then pure ()
    else change .output fun fs => fs.writeFile name result 0o644

def each (f : Format) (dialect : Option Dialect) : List String → Command Unit
  | [] => pure ()
  | s :: rest => do
    f.source dialect s
    f.each dialect rest

-- Stops at the first script that cannot be formatted.
def sources (f : Format) (names : List String) : Command Unit :=
  match Pipeline.namedDialect f.dialect with
  | .ok dialect => f.each dialect names
  | .error e => throw e

end Format
end Tool
end ShellScript

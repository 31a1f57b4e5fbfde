import ShellScript.Project.Package
import ShellScript.Tool.Pipeline

-- Makes a package out of a script.
namespace ShellScript
namespace Tool

structure Convert where
  pipeline : Pipeline := {}
  -- the directory of the package; when it is left open, one named after the script
  output : String := ""
  -- print the manifest instead of writing the package
  dryRun : Bool := false
  -- a file for the requests that the script raises
  requests : String := ""
  -- replace files that are there already
  force : Bool := false

namespace Convert

open Command

def outputDir (output script : String) : String :=
  if output.isEmpty then Path.join ["build", Project.programName script] else output

-- Writes files beneath a directory. Nothing is written when one of them would have to be replaced and may not be.
def writeFiles (dir : String) (contents : List (String × String)) (force : Bool) : Command Unit := do
  let fs ← files
  if !force && contents.any (fun f => (fs.find? (Path.join [dir, f.1])).isSome) then throw (.output .exists_)
  else change .output fun fs =>
    contents.foldl (fun fs f => fs.writeFile (Path.join [dir, f.1]) f.2 0o644) (fs.mkdirAll dir 0o755)

def writeRequests (path : String) (rs : List Dependency.Request) : Command Unit :=
  if path.isEmpty then pure ()
  else change .output fun fs => (fs.create path 0).writeFile path (Answers.template rs) 0

-- The requests are written even when no program can be made.
def script (c : Convert) (path : String) : Command Unit := do
  let r ← c.pipeline.attempt path
  let made ← outcome (c.pipeline.generateFrom r)
  writeRequests c.requests r.requests
  match made with
  | .error f => throw f
  | .ok (program, _) =>
    if c.dryRun then print program.manifest.render
    else writeFiles (outputDir c.output path) (Project.packageFiles program) c.force

end Convert
end Tool
end ShellScript

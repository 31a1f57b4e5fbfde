import ShellScript.Machine.Launch
import ShellScript.Tool.Pipeline

-- Runs a script as the program that would be made of it.
namespace ShellScript
namespace Tool

-- The status of a run that was given up because it took too many steps.
def exhaustedStatus : Int := 124

open Command in
-- A script that ends with a status other than zero makes the command fail with it.
def runScript (p : Pipeline) (script : String) (args : List String) : Command Unit := do
  let (program, _) ← p.generate script
  let d ← get
  let setup : Machine.Setup :=
    { name := script, args, input := d.input, environ := d.environ, dir := d.dir, files := d.files
      options := program.options }
  match Machine.runProgram program setup with
  | .error .bound => throw (.exitStatus exhaustedStatus)
  | .error .crash => throw .crash
  | .ok (status, s) =>
    print s.output
    complain s.errors
    modify fun d => { d with files := s.world.files }
    if status == 0 then pure () else throw (.exitStatus status)

end Tool
end ShellScript

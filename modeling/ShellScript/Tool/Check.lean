import ShellScript.Tool.Pipeline

-- Checks scripts without writing anything.
namespace ShellScript
namespace Tool
namespace Check

open Command

-- A script is in order when a program can be made of it; strictly, only without a warning.
def script (p : Pipeline) (strict : Bool) (path : String) : Command Unit := do
  let (_, diags) ← p.generate path
  let warnings := (Diagnostic.atLeast .warning diags).length
  if strict && warnings > 0 then throw (.warnings path warnings)
  else if p.quiet then pure ()
  else print (path ++ ": ok\n")

-- Every script is checked, whatever became of those before it.
def failures (p : Pipeline) (strict : Bool) : List String → Command (List Failure)
  | [] => pure []
  | path :: rest => do
    match ← outcome (script p strict path) with
    | .ok _ => failures p strict rest
    | .error f => return f :: (← failures p strict rest)

def scripts (p : Pipeline) (strict : Bool) (paths : List String) : Command Unit := do
  match ← failures p strict paths with
  | [] => pure ()
  | failed => throw (.several failed)

end Check
end Tool
end ShellScript

import ShellScript.Tool.Command
import ShellScript.Tool.Settings

-- Writes a configuration file.
namespace ShellScript
namespace Tool

open Command in
-- The file holds the settings in force. One that is there already is only replaced when that is forced.
def writeSettings (s : Settings) (path : String) (force : Bool) : Command Unit := do
  if path.isEmpty then throw (.writeSettings none)
  else
    let fs ← files
    if (fs.find? path).isSome && !force then throw (.writeSettings (some .exists_))
    else change (.writeSettings ∘ some) fun fs =>
      (fs.mkdirAll (Path.dir path) 0o700).writeFile path s.yaml.render 0o600

end Tool
end ShellScript

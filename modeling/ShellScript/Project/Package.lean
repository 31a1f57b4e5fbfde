import ShellScript.Program.Outline
import ShellScript.Program.Tree
import ShellScript.Project.Generate
import ShellScript.Yaml.Write

-- What a program consists of, for people and for tools that build it.
namespace ShellScript

namespace Program

def Options.yaml (o : Options) : Yaml :=
  .map (Yaml.boolField "errexit" o.errexit ++ Yaml.boolField "nounset" o.nounset
    ++ Yaml.boolField "pipefail" o.pipefail ++ Yaml.boolField "xtrace" o.xtrace ++ Yaml.boolField "noglob" o.noglob)

end Program

def Origin.yaml (o : Origin) : Yaml :=
  .map (Yaml.textField "shebang" o.shebang ++ Yaml.textField "version" o.version ++ Yaml.textField "author" o.author
    ++ Yaml.textField "description" o.description ++ Yaml.listField "dependencies" (o.dependencies.map .text)
    ++ Yaml.textField "terminal" o.terminal ++ Yaml.listField "features" (o.features.map .text)
    ++ Yaml.textField "generator" o.generator)

def External.yaml (e : External) : Yaml :=
  .map ([("name", .text e.name)] ++ Yaml.boolField "bundle" e.bundle ++ Yaml.textField "path" e.path
    ++ Yaml.intField "line" e.line ++ Yaml.textField "unit" e.unit)

-- Of a file that travels inside the program only the size is told.
def Program.manifest (p : Program) : Yaml :=
  .map ([("name", .text p.name), ("dialect", .text p.dialect), ("meta", p.origin.yaml), ("options", p.options.yaml)]
    ++ Yaml.listField "units" (p.units.map fun u => .text u.1)
    ++ (if p.embeds.isEmpty then [] else [("embeds", .map (p.embeds.map fun e => (e.1, .int e.2.length)))])
    ++ Yaml.listField "externals" (p.externals.map External.yaml))

end ShellScript

-- The files of a package that builds into the program.
namespace ShellScript
namespace Project

def programFile : String := "program.bin"

def moduleText (p : Program) : String :=
  "module " ++ p.name ++ "\n\ngo 1.25\n\nrequire " ++ modulePath ++ " v" ++ toolVersion ++ "\n"

-- The description stands as a comment of its own above the package clause.
def mainText (p : Program) : String :=
  let generator := if p.origin.generator.isEmpty then toolName else p.origin.generator
  let description := if p.origin.description.isEmpty then "" else "\n// " ++ p.origin.description ++ "\n"
  "// Code generated by " ++ generator ++ " from " ++ p.name ++ ". DO NOT EDIT.\n" ++ description
    ++ "\npackage main\n\nimport (\n\t_ \"embed\"\n\n\t\"" ++ modulePath ++ "/lower\"\n\t\"" ++ modulePath
    ++ "/shell\"\n)\n\n//go:embed " ++ programFile ++ "\nvar program []byte\n\nfunc main() \x7b\n"
    ++ "\tprog, err := shell.Load(program)\n\tif err != nil \x7b\n\t\tpanic(err)\n\t\x7d\n\n"
    ++ "\tshell.Main(prog, shell.WithCompiler(lower.Compile))\n\x7d\n"

-- By name, sorted.
def packageFiles (p : Program) : List (String × String) :=
  [("go.mod", moduleText p), ("main.go", mainText p), ("manifest.yaml", p.manifest.render),
    (programFile, p.describe.outline 0)]

end Project
end ShellScript

import ShellScript.Tool.Arguments

-- The command line: the files below the current directory are read, a command works on them in memory, and what
-- it changed is written back.
namespace ShellScript
namespace Main

def textOfBytes (b : ByteArray) : String := String.ofList (b.toList.map fun x => Char.ofNat x.toNat)

def bytesOfText (s : String) : ByteArray := ⟨(s.toList.map fun c => c.toNat.toUInt8).toArray⟩

-- How far below the current directory files are looked for.
def maxDepth : Nat := 16

-- Adds what a directory holds. What cannot be read is left out.
def loadEntries : Nat → List IO.FS.DirEntry → Machine.FileSystem → IO Machine.FileSystem
  | 0, _, fs => pure fs
  | _ + 1, [], fs => pure fs
  | n + 1, entries, fs => entries.foldlM (fun fs e => do
    let path := Text.ofUnicode e.path.toString
    if ← e.path.isDir then
      let below ← tryCatch e.path.readDir fun _ => pure #[]
      loadEntries n below.toList (fs.mkdirAll path 0o755)
    else
      tryCatch (do return fs.writeFile path (textOfBytes (← IO.FS.readBinFile e.path)) 0o644) fun _ => pure fs) fs

-- Writes the files that differ from what they were.
def store (before after : Machine.FileSystem) : IO Unit :=
  after.entries.forM fun (path, e) => do
    let name := (Text.toUnicode? path).getD path
    if (before.find? path).map (·.data) == some e.data then pure ()
    else if e.isDir then IO.FS.createDirAll name
    else IO.FS.writeBinFile name (bytesOfText e.data)

def readAll (input : IO.FS.Stream) : Nat → ByteArray → IO ByteArray
  | 0, got => pure got
  | n + 1, got => do
    let more ← input.read 65536
    if more.isEmpty then pure got else readAll input n (got ++ more)

-- The bound on the blocks of input that are read.
def maxBlocks : Nat := 65536

-- Only these commands look at the input.
def readsInput : List String → Bool
  | name :: _ => name == "fmt" || name == "run"
  | [] => false

def status : Tool.Failure → UInt8
  | .exitStatus code => (code % 256).toNat.toUInt8
  | _ => 1

def environNames : List String := ["HOME", "PATH", "USER", "LANG", "TERM"]

def perform (args : List String) : IO UInt8 := do
  let cwd ← IO.currentDir
  let dir := Text.ofUnicode cwd.toString
  let files ← loadEntries maxDepth (← cwd.readDir).toList (({} : Machine.FileSystem).mkdirAll dir 0o755)
  let environ ← environNames.filterMapM fun n => do return (← IO.getEnv n).map fun v => Text.ofUnicode (n ++ "=" ++ v)
  let input ← if readsInput args then readAll (← IO.getStdin) maxBlocks .empty else pure .empty
  match Tool.commandOf {} (args.map Text.ofUnicode) with
  | .error e =>
    (← IO.getStderr).write (bytesOfText (Project.toolName ++ ": " ++ e.message ++ "\n"))
    return 80
  | .ok c =>
    let (failed, d) := c.perform { files, input := textOfBytes input, environ, dir }
    (← IO.getStdout).write (bytesOfText d.out)
    (← IO.getStderr).write (bytesOfText d.err)
    store files d.files
    match failed with
    | none => return 0
    | some f =>
      (← IO.getStderr).write (bytesOfText (Project.toolName ++ ": " ++ f.message ++ "\n"))
      return status f

end Main
end ShellScript

def main (args : List String) : IO UInt32 := do
  return (← ShellScript.Main.perform args).toUInt32

import ShellScript.Machine.Command.Output

-- The working directory and the stack of directories.
namespace ShellScript
namespace Machine
namespace Command

open Run

def changeDir (dir : String) : Run (Option String) := do
  let s ← shell
  let p := Path.clean (Path.resolve s.dir dir)
  match (← world).files.find? p with
  | none => return some "no such file or directory"
  | some e =>
    if !e.isDir then return some "not a directory"
    else
      trySetVar "OLDPWD" s.dir
      modifyShell fun s => { s with dir := p }
      match (← shell).env.set "PWD" p with
      | .ok env =>
        setEnv env
        return none
      | .error f => return some f.message

def enter (command dir : String) (then_ : Run Unit) : Run Unit := do
  match ← changeDir dir with
  | some e => complainWith 1 (command ++ ": " ++ dir ++ ": " ++ e)
  | none => then_

def cd (name : String) (args : List String) : Run Unit :=
  withFlags [('L', .switch), ('P', .switch)] name args fun f => do
    let go (dir : String) : Run Unit :=
      if dir == "-" then do
        enter "cd" (← valueOf "OLDPWD") (do printLine (← shell).dir; setStatus 0)
      else enter "cd" dir (setStatus 0)
    match f.operands with
    | [] => go (← valueOf "HOME")
    | [dir] => go dir
    | _ => complainWith 1 "cd: too many arguments"

def pwd (name : String) (args : List String) : Run Unit :=
  withFlags [('L', .switch), ('P', .switch)] name args fun _ => do
    printLine (← shell).dir
    setStatus 0

def abbreviate (home dir : String) : String :=
  if !home.isEmpty && Text.hasPrefix dir home then "~" ++ Text.withoutPrefix dir home else dir

def numbered : Nat → List String → List String
  | _, [] => []
  | i, d :: ds => (Text.padLeft 2 (toString i) ++ "  " ++ d ++ "\n") :: numbered (i + 1) ds

def dirs (name : String) (args : List String) : Run Unit :=
  withFlags [('c', .switch), ('p', .switch), ('v', .switch)] name args fun f => do
    if f.on 'c' then
      modifyShell fun s => { s with dirs := [] }
      setStatus 0
    else
      let s ← shell
      let shown := (s.dir :: s.dirs).map (abbreviate (← valueOf "HOME"))
      if f.on 'v' then print (String.join (numbered 0 shown))
      else if f.on 'p' then print (String.join (shown.map (· ++ "\n")))
      else printLine (Text.joinWith " " shown)
      setStatus 0

def pushd (name : String) (args : List String) : Run Unit := do
  let s ← shell
  match args with
  | [] =>
    match s.dirs with
    | [] => complainWith 1 "pushd: no other directory"
    | top :: rest =>
      modifyShell fun s => { s with dirs := s.dir :: rest }
      enter "pushd" top (dirs name [])
  | dir :: _ =>
    enter "pushd" dir do
      modifyShell fun t => { t with dirs := s.dir :: t.dirs }
      dirs name []

def popd (name : String) : Run Unit := do
  match (← shell).dirs with
  | [] => complainWith 1 "popd: directory stack empty"
  | top :: rest =>
    modifyShell fun s => { s with dirs := rest }
    enter "popd" top (dirs name [])

end Command
end Machine
end ShellScript

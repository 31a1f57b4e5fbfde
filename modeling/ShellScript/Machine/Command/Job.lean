import ShellScript.Machine.Command.Settings

-- Statements that ran in the background. They run when they are started, so a job is always finished.
namespace ShellScript
namespace Machine
namespace Command

open Run

-- A job by its number, or counted from the last one.
def findJob? (jobs : List Job) (spec : String) : Option Job :=
  if spec == "%%" || spec == "%+" || spec == "%" then jobs.getLast?
  else if spec == "%-" then (if jobs.length < 2 then none else jobs[jobs.length - 2]?)
  else
    let id := (Text.int64? (Text.trim (Text.withoutPrefix spec "%"))).getD 0
    jobs.find? fun j => (j.id : Int) == id

def forget (j : Job) : Run Unit := modifyWorld fun w => { w with jobs := w.jobs.filter fun o => o.id != j.id }

def waitEach : List String → Run Unit
  | [] => return
  | spec :: specs => do
    match findJob? (← world).jobs spec with
    | none => complainWith 127 ("wait: " ++ spec ++ ": no such job")
    | some j =>
      forget j
      setStatus j.status
    waitEach specs

def wait (args : List String) : Run Unit := do
  setStatus 0
  if args.isEmpty then modifyWorld fun w => { w with jobs := [] } else waitEach args

def jobLines (ids : Bool) (count : Nat) : Nat → List Job → List String
  | _, [] => []
  | i, j :: js =>
    let mark := if i + 1 == count then "+" else if i + 2 == count then "-" else " "
    (if ids then toString j.id ++ "\n" else "[" ++ toString j.id ++ "]" ++ mark ++ "  Done\n")
      :: jobLines ids count (i + 1) js

def jobs (name : String) (args : List String) : Run Unit :=
  withFlags [('p', .switch), ('l', .switch)] name args fun f => do
    let js := (← world).jobs
    print (String.join (jobLines (f.on 'p') js.length 0 js))
    setStatus 0

def foreground (waits : Bool) (name : String) (args : List String) : Run Unit := do
  let spec := args.headD "%%"
  match findJob? (← world).jobs spec with
  | none => complainWith 1 (name ++ ": " ++ spec ++ ": no such job")
  | some j =>
    if waits then
      forget j
      setStatus j.status
    else setStatus 0

-- Why no process gets a signal: there is none with that number, and zero and minus one name none at all.
def noProcess (n : Int) : String :=
  if n == 0 then "os: process not initialized"
  else if n == -1 then "os: process already released"
  else "os: process already finished"

def killEach : List String → Run Unit
  | [] => return
  | t :: ts => do
    let isJob := Text.hasPrefix t "%" && (findJob? (← world).jobs t).isSome
    if !isJob then
      match Text.int64? t with
      | none => complainWith 1 ("kill: " ++ t ++ ": arguments must be process or job IDs")
      | some n => complainWith 1 ("kill: (" ++ toString n ++ ") - " ++ noProcess n)
    killEach ts

def killTargets : List String → Run Unit
  | [] => usage "kill" "usage: kill [-s sigspec | -sigspec] pid | jobspec ..."
  | ts => do
    setStatus 0
    killEach ts

def killWith (spec : String) (args : List String) : Run Unit :=
  match signalName? spec with
  | none | some "EXIT" | some "ERR" => usage "kill" (spec ++ ": invalid signal specification")
  | _ => killTargets args

def kill (args : List String) : Run Unit :=
  match args with
  | [] => killTargets []
  | a :: rest =>
    if a == "-l" then do
      print (String.join (signals.map fun x => x.1 ++ "\n"))
      setStatus 0
    else if Text.hasPrefix a "-" && a != "-" then
      let spec := Text.dropFront 1 a
      if spec == "s" || spec == "n" then
        match rest with
        | [] => usage "kill" "option requires an argument"
        | spec :: rest => killWith spec rest
      else killWith spec rest
    else killTargets args

end Command
end Machine
end ShellScript

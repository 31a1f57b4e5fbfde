import ShellScript.Machine.Expand

-- Redirections of the three standard streams.
namespace ShellScript
namespace Machine

open Program (Word Redir RedirOp)
open Run

def canRead (w : World) : Stream → Bool
  | .null => true
  | .discard => false
  | .channel i =>
    match w.channels[i]? with
    | some (.sink _ dual) => dual
    | _ => true

def canWrite (w : World) : Stream → Bool
  | .null => true
  | .discard => true
  | .channel i =>
    match w.channels[i]? with
    | some (.source _ dual) => dual
    | _ => true

def redirectFailure {α : Type} (text : String) : Run α := fail (.ofText .redirect text)

def setStreams (f : Streams → Streams) : Run Unit := modifyShell fun s => { s with streams := f s.streams }

-- Puts a stream under a descriptor, if it can be used in that direction.
def setDescriptor (fd : Nat) (stream : Stream) : Run Unit := do
  let w ← world
  match fd with
  | 0 =>
    if canRead w stream then setStreams fun s => { s with input := stream }
    else redirectFailure "0: not readable"
  | 1 =>
    if canWrite w stream then setStreams fun s => { s with output := stream }
    else redirectFailure "1: not writable"
  | _ =>
    if canWrite w stream then setStreams fun s => { s with error := stream }
    else redirectFailure (toString fd ++ ": not writable")

def defaultDescriptor : RedirOp → Nat
  | .input | .dupIn | .readWrite | .hereDoc | .hereString => 0
  | _ => 1

-- The files that the shell handles itself.
def device? (s : Streams) : String → Option Stream
  | "/dev/null" => some .null
  | "/dev/stdin" | "/dev/fd/0" => some s.input
  | "/dev/stdout" | "/dev/fd/1" => some s.output
  | "/dev/stderr" | "/dev/fd/2" => some s.error
  | _ => none

def access : RedirOp → FileSystem.Access
  | .output | .clobber | .all => .truncate
  | .append | .allAppend => .append
  | .readWrite => .readWrite
  | _ => .read

def isBoth (op : RedirOp) : Bool := op == .all || op == .allAppend

def openFile (E : Engine) (fd : Nat) (op : RedirOp) (word : Word) : Run Unit := do
  let name ← literal E word
  let s ← shell
  match device? s.streams name with
  | some stream =>
    if isBoth op && canWrite (← world) stream then setDescriptor 2 stream
    setDescriptor fd stream
  | none =>
    let w ← world
    match w.files.open_ (Path.resolve s.dir name) (access op) (0o666 &&& (0o777 ^^^ w.mask)) with
    | .error e => fail { cause := .redirect, text := some e.message, details := [name] }
    | .ok (files, path, offset) =>
      modifyWorld fun w => { w with files }
      let stream ← newChannel (.file path offset (access op == .read))
      if isBoth op then setStreams fun s => { s with output := stream, error := stream }
      else setDescriptor fd stream

def duplicate (E : Engine) (fd : Nat) (op : RedirOp) (word : Word) : Run Unit := do
  let target ← literal E word
  if target == "-" then setDescriptor fd (if fd == 0 then .null else .discard)
  else match Text.int64? target with
    | none =>
      if op == .dupOut && fd == 1 then openFile E 1 .all word
      else redirectFailure (target ++ ": ambiguous redirect")
    | some n =>
      let s := (← shell).streams
      if n == 0 then setDescriptor fd s.input
      else if n == 1 then setDescriptor fd s.output
      else if n == 2 then setDescriptor fd s.error
      else redirectFailure (target ++ ": bad file descriptor")

def applyRedir (E : Engine) (r : Redir) : Run Unit := do
  let fd := r.n.getD (defaultDescriptor r.op)
  if fd > 2 then
    fail { cause := .redirect, text := some (toString fd ++ ": unsupported file descriptor"),
           details := [toString fd] }
  match r.op with
  | .hereDoc => do setDescriptor fd (← newChannel (.source (← literal E r.word).toList false))
  | .hereString => do setDescriptor fd (← newChannel (.source ((← literal E r.word) ++ "\n").toList false))
  | .dupIn | .dupOut => duplicate E fd r.op r.word
  | .input =>
    match r.word.parts with
    | [.embedded key] =>
      match E.program.embeds.lookup key with
      | some data => do setDescriptor fd (← newChannel (.source data.toList false))
      | none => redirectFailure (key ++ ": not embedded")
    | _ => openFile E fd r.op r.word
  | _ => openFile E fd r.op r.word

def applyRedirs (E : Engine) : List Redir → Run Unit
  | [] => return
  | r :: rs => do
    applyRedir E r
    applyRedirs E rs

-- Applies redirections; one that fails is reported and fails the command.
def tryRedirs (E : Engine) (rs : List Redir) (body : Run Unit) : Run Unit := fun s =>
  match applyRedirs E rs s with
  | .ok _ s => body s
  | .error (.fail f) s => if f.cause == .redirect then complainWith 1 f.report s else .error (.fail f) s
  | .error e s => .error e s

-- Runs `body` with redirections that end with it.
def redirected (E : Engine) (rs : List Redir) (body : Run Unit) : Run Unit :=
  if rs.isEmpty then body
  else do
    let saved := (← shell).streams
    ensuring (tryRedirs E rs body) fun s => { s with shell := { s.shell with streams := saved } }

end Machine
end ShellScript

import ShellScript.Path
import ShellScript.Text.Rune

-- Files and directories in memory, and the names among them that match a pattern.
namespace ShellScript
namespace Machine

-- Why a file that is there cannot be read: it cannot be opened, or reading fails later on. With what the system says.
inductive Fault where
  | opening (message : String)
  | reading (message : String)
deriving Repr, DecidableEq

structure Entry where
  -- may have entries below it
  isDir : Bool
  data : String := ""
  mode : Nat
  -- made as a file, and still one by its mode; it became a directory when something was put below it
  fromFile : Bool := false
  fault : Option Fault := none
deriving Repr, DecidableEq, Inhabited

structure FileSystem where
  -- by path
  entries : List (String × Entry) := [("/", { isDir := true, mode := 0o755 })]
  -- refuses every write
  sealed : Bool := false
  -- makes the directories that are missing above a file that is written
  makesParents : Bool := true
  -- paths that cannot even be looked at, each with what the system says
  hidden : List (String × String) := []
deriving Repr, Inhabited

inductive FileError where
  | notExist (path : String)
  | notPermitted
  | exists_ (op path : String)
  | fault (f : Fault)
deriving Repr, DecidableEq

def FileError.message : FileError → String
  | .notExist p => "open " ++ p ++ ": file does not exist"
  | .notPermitted => "operation not permitted"
  | .exists_ op p => op ++ " " ++ p ++ ": file already exists"
  | .fault (.opening m) => m
  | .fault (.reading m) => m

namespace FileSystem

-- A path that goes nowhere is the root. Other paths are names: one that does not begin at the root is never the
-- same as one that does.
def normalize (p : String) : String :=
  let c := Path.clean p
  if c == "." || c == ".." then "/" else c

def find? (fs : FileSystem) (p : String) : Option Entry := fs.entries.lookup (normalize p)

def putEntry (p : String) (e : Entry) : List (String × Entry) → List (String × Entry)
  | [] => [(p, e)]
  | (k, v) :: rest => if k == p then (p, e) :: rest else (k, v) :: putEntry p e rest

def put (fs : FileSystem) (p : String) (e : Entry) : FileSystem := { fs with entries := putEntry p e fs.entries }

-- The directories above a path, nearest first.
def parents : Nat → String → List String
  | 0, _ => []
  | n + 1, p => if p == "/" then [] else Path.dir p :: parents n (Path.dir p)

-- Makes sure that everything above a path is a directory.
def addParents (fs : FileSystem) (p : String) (mode : Nat) : FileSystem :=
  (parents (p.length + 1) p).foldl (fun fs d =>
    match fs.find? d with
    | some e => if e.isDir then fs else fs.put d { e with isDir := true, fromFile := true }
    | none => fs.put d { isDir := true, mode }) fs

-- An empty file, in place of whatever was there.
def create (fs : FileSystem) (p : String) (mode : Nat) : FileSystem :=
  let p := normalize p
  (fs.addParents p 0).put p { isDir := false, mode }

def mkdirAll (fs : FileSystem) (p : String) (mode : Nat) : FileSystem :=
  let p := normalize p
  match fs.find? p with
  | some _ => fs
  | none => (fs.addParents p mode).put p { isDir := true, mode }

def writeFile (fs : FileSystem) (p data : String) (mode : Nat) : FileSystem :=
  let p := normalize p
  match fs.find? p with
  | some e => fs.put p { e with data }
  | none => (fs.create p mode).put p { isDir := false, data, mode }

def read? (fs : FileSystem) (p : String) : Except FileError String :=
  match fs.find? p with
  | none => .error (.notExist (normalize p))
  | some e =>
    match e.fault with
    | none => .ok e.data
    | some f => .error (.fault f)

-- The names in a directory, sorted. What has no directory is in the root.
def list (fs : FileSystem) (p : String) : List String :=
  let p := normalize p
  Text.sort ((fs.entries.filter fun e => e.1 != "/" && normalize (Path.dir e.1) == p).map fun e => Path.base e.1)

def isDir (fs : FileSystem) (p : String) : Bool := ((fs.find? p).map (·.isDir)).getD false

-- Adds files and, under paths that end in a slash, directories.
def populate (fs : FileSystem) (files : List (String × String)) : FileSystem :=
  files.foldl (fun fs f =>
    if Text.hasSuffix f.1 "/" then fs.mkdirAll f.1 0o755 else fs.writeFile f.1 f.2 0o644) fs

-- How a file is opened.
inductive Access where
  | read
  | truncate
  | append
  | readWrite
deriving Repr, DecidableEq

-- Opens a file, which is created when it may be written; gives its path, the offset to begin at, and the files
-- as they then are.
def open_ (fs : FileSystem) (p : String) (a : Access) (mode : Nat) :
    Except FileError (FileSystem × String × Nat) :=
  let p := normalize p
  if fs.sealed && a != .read then .error .notPermitted
  else match fs.find? p with
    | none =>
      if a == .read then .error (.notExist p)
      else if fs.makesParents || fs.isDir (Path.dir p) then .ok (fs.create p mode, p, 0)
      else .error (.notExist p)
    | some e =>
      match a, e.fault with
      | .truncate, _ => .ok (fs.put p { e with data := "" }, p, 0)
      | .append, _ => .ok (fs, p, e.data.length)
      | _, some (.opening m) => .error (.fault (.opening m))
      | _, _ => .ok (fs, p, 0)

-- Writes at an offset; a gap is filled with zero bytes.
def writeAt (fs : FileSystem) (p : String) (offset : Nat) (s : String) : FileSystem :=
  match fs.find? p with
  | none => fs
  | some e =>
    let old := e.data.toList
    let front := old.take offset ++ List.replicate (offset - old.length) '\x00'
    fs.put (normalize p) { e with data := String.ofList (front ++ s.toList ++ old.drop (offset + s.length)) }

end FileSystem

-- File names that match a pattern, component by component. Unlike in other patterns a bracket expression is
-- negated by `^` only.
namespace Glob

inductive Item where
  | char (c : Char)
  | any
  | star
  | set (negated : Bool) (ranges : List (Nat × Nat))
deriving Repr, DecidableEq, Inhabited

-- A character of a bracket expression; more must follow it.
def setChar? : List Char → Option (Nat × List Char)
  | [] => none
  | c :: cs =>
    if c == '-' || c == ']' then none
    else
      let cs' := if c == '\\' then cs else c :: cs
      match Text.uncons? cs' with
      | some (.char r, rest) => if rest.isEmpty then none else some (r.toNat, rest)
      | _ => none

def setRanges : Nat → List (Nat × Nat) → List Char → Option (List (Nat × Nat) × List Char)
  | 0, _, _ => none
  | n + 1, acc, cs =>
    match acc, cs with
    | _ :: _, ']' :: rest => some (acc, rest)
    | _, _ =>
      match setChar? cs with
      | none => none
      | some (low, '-' :: rest) =>
        match setChar? rest with
        | some (high, rest) => setRanges n ((low, high) :: acc) rest
        | none => none
      | some (low, rest) => setRanges n ((low, low) :: acc) rest

def readItems : Nat → List Char → Option (List Item)
  | 0, _ => none
  | _ + 1, [] => some []
  | n + 1, c :: cs =>
    match c with
    | '*' => (readItems n cs).map (.star :: ·)
    | '?' => (readItems n cs).map (.any :: ·)
    | '\\' =>
      match cs with
      | [] => none
      | d :: cs => (readItems n cs).map (.char d :: ·)
    | '[' =>
      let (negated, cs) := match cs with
        | '^' :: cs => (true, cs)
        | cs => (false, cs)
      match setRanges (cs.length + 1) [] cs with
      | none => none
      | some (ranges, rest) => (readItems n rest).map (.set negated ranges :: ·)
    | _ => (readItems n cs).map (.char c :: ·)

def suffixes : List Char → List (List Char)
  | [] => [[]]
  | c :: cs => (c :: cs) :: suffixes cs

def matchItems : List Item → List Char → Bool
  | [], cs => cs.isEmpty
  | .char c :: items, cs =>
    match cs with
    | d :: cs => c == d && matchItems items cs
    | [] => false
  | .any :: items, cs =>
    match Text.uncons? cs with
    | some (r, rest) => r != .char '/' && matchItems items rest
    | none => false
  | .set negated ranges :: items, cs =>
    match Text.uncons? cs with
    | some (r, rest) =>
      let v := r.value.toNat
      (ranges.any fun x => x.1 ≤ v && v ≤ x.2) != negated && matchItems items rest
    | none => false
  | .star :: items, cs => (suffixes cs).any fun rest => matchItems items rest

def hasMeta (s : String) : Bool := s.toList.any fun c => c == '*' || c == '?' || c == '['

-- The files of one directory.
def inDir (fs : FileSystem) (dir pattern : String) : Option (List String) :=
  if !fs.isDir dir then some []
  else
    let names := fs.list dir
    if names.isEmpty then some []
    else match readItems (pattern.length + 1) pattern.toList with
      | none => none
      | some items => some ((names.filter fun n => matchItems items n.toList).map fun n => Path.join [dir, n])

-- The files that match; nothing when the pattern is malformed.
def find : Nat → FileSystem → String → Option (List String)
  | 0, _, _ => none
  | n + 1, fs, pattern =>
    if !hasMeta pattern then some (if (fs.find? pattern).isSome then [pattern] else [])
    else
      let back := pattern.toList.reverse.takeWhile (· != '/')
      let file := String.ofList back.reverse
      let dir := String.ofList (pattern.toList.take (pattern.toList.length - back.length))
      if dir == pattern then none
      else
        let dir := if dir.isEmpty then "." else if dir == "/" then dir else Text.dropBack 1 dir
        if !hasMeta dir then inDir fs dir file
        else match find n fs dir with
          | none => none
          | some dirs => (dirs.mapM fun d => inDir fs d file).map List.flatten

def search (fs : FileSystem) (pattern : String) : List String := (find (pattern.length + 1) fs pattern).getD []

end Glob
end Machine
end ShellScript

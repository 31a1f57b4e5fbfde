import ShellScript.Machine.Format
import ShellScript.Machine.State
import ShellScript.Text.Integer
import ShellScript.Text.Rune

-- Commands that write, and the option letters of all commands.
namespace ShellScript
namespace Machine

-- The option letters of a command, read as by the library that the program uses for them.

inductive FlagKind where
  | switch
  -- takes a value, in the same argument or the next one
  | value
  -- takes a number
  | number
deriving Repr, DecidableEq, Inhabited

inductive FlagError where
  | unknown (letter : String)
  | missing (letter : String)
  | notNumber (value : String)
  | outOfRange (value : String)
deriving Repr, DecidableEq

def FlagError.message : FlagError → String
  | .unknown c => "unknown option: -" ++ c
  | .missing c => "missing parameter for -" ++ c
  | .notNumber v => "not a valid number: " ++ v
  | .outOfRange v => "value out of range: " ++ v

-- The letters given, the last one first, each with its value; then the operands.
structure Flags where
  given : List (Char × String) := []
  operands : List String := []
deriving Repr, Inhabited

namespace Flags

def on (f : Flags) (c : Char) : Bool := (f.given.lookup c).isSome

def value? (f : Flags) (c : Char) : Option String := f.given.lookup c

def checkNumber (v : String) : Except FlagError Unit :=
  match Text.int64 0 v with
  | .ok _ => .ok ()
  | .tooLarge _ => .error (.outOfRange v)
  | .malformed => .error (.notNumber v)

-- The letters of one argument. Gives the options so far and the arguments left; a letter with a value takes
-- the rest of the argument.
def readLetters (known : List (Char × FlagKind)) (given : List (Char × String)) (args : List String) :
    List Text.Rune → Except FlagError (List (Char × String) × List String)
  | [] => .ok (given, args)
  | r :: rs =>
    let letter := String.ofList r.bytes
    match (match r with
      | .char c => (known.lookup c).map fun k => (c, k)
      | .stray _ => none) with
    | none => .error (.unknown (String.ofList (Text.utf8 r.value)))
    | some (c, .switch) => readLetters known ((c, "") :: given) args rs
    | some (c, kind) =>
      let attached := Text.ofRunes rs
      match (if attached.isEmpty then
          match args with
          | [] => none
          | a :: args => some (a, args)
        else some (attached, args)) with
      | none => .error (.missing letter)
      | some (v, args) =>
        if kind == .number then (checkNumber v).map fun _ => ((c, v) :: given, args)
        else .ok ((c, v) :: given, args)

def readFrom (known : List (Char × FlagKind)) :
    Nat → List (Char × String) → List String → Except FlagError Flags
  | 0, given, args => .ok { given, operands := args }
  | _ + 1, given, [] => .ok { given }
  | n + 1, given, a :: args =>
    if a == "-" || !Text.hasPrefix a "-" then .ok { given, operands := a :: args }
    else if a == "--" then .ok { given, operands := args }
    else match readLetters known given args (Text.runes (Text.dropFront 1 a)) with
      | .ok (given, args) => readFrom known n given args
      | .error e => .error e

-- Reads options up to the first argument that is none, or up to `--`, which is dropped.
def read (known : List (Char × FlagKind)) (args : List String) : Except FlagError Flags :=
  readFrom known (args.length + 1) [] args

end Flags

namespace Command

open Run

-- Reads a command's options; wrong ones are reported.
def withFlags (known : List (Char × FlagKind)) (name : String) (args : List String) (body : Flags → Run Unit) :
    Run Unit :=
  match Flags.read known args with
  | .error e => usage name e.message
  | .ok f => body f

structure EchoFlags where
  newline : Bool := true
  escapes : Bool := false

def echoLetter (f : EchoFlags) (c : Char) : EchoFlags :=
  match c with
  | 'n' => { f with newline := false }
  | 'e' => { f with escapes := true }
  | _ => { f with escapes := false }

-- An argument counts as options only if all of its letters do.
def echoFlags : EchoFlags → List String → EchoFlags × List String
  | f, [] => (f, [])
  | f, a :: args =>
    match a.toList with
    | '-' :: c :: cs =>
      if (c :: cs).all (['n', 'e', 'E'].contains ·) then echoFlags ((c :: cs).foldl echoLetter f) args
      else (f, a :: args)
    | _ => (f, a :: args)

def echo (args : List String) : Run Unit := do
  let (f, args) := echoFlags {} args
  let text := Text.joinWith " " args
  let (text, stop) := if f.escapes then Escapes.resolve true text else (text, false)
  print (if f.newline && !stop then text ++ "\n" else text)
  setStatus 0

def complainAll : List String → Run Unit
  | [] => return
  | m :: ms => do
    complain m
    complainAll ms

def printf (args : List String) : Run Unit := do
  let (dest, args) := match args with
    | "-v" :: dest :: args => (dest, args)
    | args => ("", args)
  let args := match args with
    | "--" :: args => args
    | args => args
  match args with
  | [] => usage "printf" "usage: printf [-v var] format [arguments]"
  | format :: args =>
    let p := Printing.run format args
    complainAll (p.errors.map ("printf: " ++ ·))
    setStatus (if p.failed || !p.errors.isEmpty then 1 else 0)
    if dest.isEmpty then print p.text else setVar dest p.text

end Command
end Machine
end ShellScript

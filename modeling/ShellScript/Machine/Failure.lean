import ShellScript.Text.Byte

namespace ShellScript
namespace Machine

-- What can go wrong while a program runs.
inductive Cause where
  | program
  | readOnly
  | unbound
  | arith
  | badSubst
  | redirect
  | noCompiler
  | notFound
  | testForm
deriving Repr, DecidableEq, Inhabited

def Cause.text : Cause → String
  | .program => "invalid program"
  | .readOnly => "readonly variable"
  | .unbound => "unbound variable"
  | .arith => "arithmetic error"
  | .badSubst => "bad substitution"
  | .redirect => "redirection failed"
  | .noCompiler => "no compiler for runtime code"
  | .notFound => "command not found"
  | .testForm => ""

-- A failure: its cause, the text of what lies behind it, and details that only a report shows.
structure Failure where
  cause : Cause
  text : Option String := none
  details : List String := []
deriving Repr, DecidableEq, Inhabited

namespace Failure

def message (f : Failure) : String :=
  match f.text with
  | none => f.cause.text
  | some t => if f.cause.text.isEmpty then t else f.cause.text ++ ": " ++ t

-- The line that the shell prints about it.
def report (f : Failure) : String := Text.joinWith ": " (f.message :: f.details)

def readOnly (name : String) : Failure := { cause := .readOnly, details := [name] }

def badIndex (name : String) (i : Int) : Failure := { cause := .badSubst, details := [name, toString i] }

def ofText (cause : Cause) (text : String) : Failure := { cause, text := some text }

def withDetail (cause : Cause) (detail : String) : Failure := { cause, details := [detail] }

-- Only the command that raised it fails; the script goes on.
def isRecoverable (f : Failure) : Bool :=
  f.cause == .arith || f.cause == .readOnly || f.cause == .badSubst

end Failure

-- What ends a run as a whole: nothing that stands after it runs, and no trap.
inductive Stop where
  -- the bound on the number of steps was reached
  | bound
  -- an argument was read where there is none
  | crash
deriving Repr, DecidableEq, Inhabited

-- Why a statement was left before its end.
inductive Signal where
  | exit (code : Int)
  | return_ (code : Int)
  -- `break`, or `continue` when `next`, through `n` loops
  | loop (n : Nat) (next : Bool)
  | fail (f : Failure)
  | stopped (why : Stop)
deriving Repr, DecidableEq, Inhabited

end Machine
end ShellScript

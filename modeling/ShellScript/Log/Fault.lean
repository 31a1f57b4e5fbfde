import ShellScript.Log.Value

-- Errors that remember which error they were made from and carry fields for the log.
namespace ShellScript
namespace Log

inductive Fault where
  -- an error of which only the text is known
  | plain (text : String)
  -- `kind` is what an error shares with all that are made from it
  | made (kind : Nat) (message : String) (cause : Option Fault) (fields : List Field)

namespace Fault

-- The message, then the cause.
def text : Fault → String
  | .plain s => s
  | .made _ m none _ => m
  | .made _ m (some c) _ => if m.isEmpty then c.text else m ++ ": " ++ c.text

-- Whether the fault or one that it comes from is of a kind.
def isOf (kind : Nat) : Fault → Bool
  | .plain _ => false
  | .made k _ none _ => k == kind
  | .made k _ (some c) _ => k == kind || c.isOf kind

def fields : Fault → List Field
  | .plain _ => []
  | .made _ _ _ fs => fs

-- Another cause for the same kind of fault.
def wrap (f : Fault) (cause : Fault) : Fault :=
  match f with
  | .plain s => .plain s
  | .made k m _ fs => .made k m (some cause) fs

def withFields (f : Fault) (more : List Field) : Fault :=
  match f with
  | .plain s => .plain s
  | .made k m c fs => .made k m c (fs ++ more)

-- The fields of a log entry about the fault.
def logFields : Fault → List Field
  | .plain _ => []
  | .made _ m c fs =>
    (if m.isEmpty then [] else [("error", .text m)])
      ++ (match c with
        | some c => [("cause", .text c.text)]
        | none => []) ++ fs

end Fault
end Log
end ShellScript

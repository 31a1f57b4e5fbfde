import ShellScript.Text.Quoted

namespace ShellScript

-- A plain description of a value: what a tree looks like from outside.
inductive Datum where
  | null
  | bool (b : Bool)
  | int (n : Int)
  | text (s : String)
  -- a name that stands for itself, such as an operator
  | symbol (s : String)
  | list (items : List Datum)
  -- a record has a name and only those fields that say something
  | record (name : String) (fields : List (String × Datum))
  | table (entries : List (String × Datum))
deriving Inhabited

namespace Datum

def textField (name s : String) : List (String × Datum) := if s.isEmpty then [] else [(name, .text s)]

def boolField (name : String) (b : Bool) : List (String × Datum) := if b then [(name, .bool true)] else []

def intField (name : String) (n : Int) : List (String × Datum) := if n == 0 then [] else [(name, .int n)]

def listField (name : String) (xs : List Datum) : List (String × Datum) :=
  if xs.isEmpty then [] else [(name, .list xs)]

def optField (name : String) : Option Datum → List (String × Datum)
  | none => []
  | some d => [(name, d)]

def texts (xs : List String) : Datum := .list (xs.map .text)

-- The text of a value that fits on a line.
def scalar : Datum → String
  | .null => "nil"
  | .bool b => if b then "true" else "false"
  | .int n => toString n
  | .text s => Text.quoted s
  | .symbol s => s
  | _ => ""

-- What stands for itself in a table.
def plain : Datum → String
  | .text s => s
  | d => d.scalar

def line (depth : Nat) (s : String) : String := Text.replicate depth "  " ++ s ++ "\n"

mutual

-- An indented outline: a record's name, then its fields two columns further in.
def outline (depth : Nat) : Datum → String
  | .list items => outlineItems depth items
  | .record name fields => line depth name ++ outlineFields (depth + 1) fields
  | .table entries => outlineEntries depth entries
  | d => line depth d.scalar

def outlineItems (depth : Nat) : List Datum → String
  | [] => ""
  | d :: ds => outline depth d ++ outlineItems depth ds

def outlineFields (depth : Nat) : List (String × Datum) → String
  | [] => ""
  | (name, .list items) :: rest =>
    line depth (name ++ ":") ++ outlineItems (depth + 1) items ++ outlineFields depth rest
  | (name, .record n fields) :: rest =>
    line depth (name ++ ":") ++ line (depth + 1) n ++ outlineFields (depth + 2) fields ++ outlineFields depth rest
  | (name, .table entries) :: rest =>
    line depth (name ++ ":") ++ outlineEntries (depth + 1) entries ++ outlineFields depth rest
  | (name, d) :: rest => line depth (name ++ ": " ++ d.scalar) ++ outlineFields depth rest

def outlineEntries (depth : Nat) : List (String × Datum) → String
  | [] => ""
  | (name, d) :: rest => line depth (name ++ ": " ++ d.plain) ++ outlineEntries depth rest

end

end Datum
end ShellScript

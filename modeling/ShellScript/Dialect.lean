import ShellScript.Text.Rune
import ShellScript.Text.Quoted
import ShellScript.Text.Ranking

namespace ShellScript

-- The shell whose grammar a script follows.
inductive Dialect where
  | bash
  | posix
  | dash
  | ksh
  | zsh
deriving Repr, DecidableEq, Inhabited

-- A part of the grammar that only some dialects have.
inductive Feature where
  | arrays
  | assocArrays
  | procSubstitution
  | extendedTest
  | functionKeyword
  | localKeyword
  | selectLoop
  | pipeAll
  | ampRedirect
  | hereString
  | ansiQuote
  | arithCommand
  | arithFor
  | braceExpansion
  | caseFallthrough
deriving Repr, DecidableEq, Inhabited

namespace Feature

def all : List Feature :=
  [.arrays, .assocArrays, .procSubstitution, .extendedTest, .functionKeyword, .localKeyword, .selectLoop,
    .pipeAll, .ampRedirect, .hereString, .ansiQuote, .arithCommand, .arithFor, .braceExpansion,
    .caseFallthrough]

def name : Feature → String
  | .arrays => "arrays"
  | .assocArrays => "associative-arrays"
  | .procSubstitution => "process-substitution"
  | .extendedTest => "extended-test"
  | .functionKeyword => "function-keyword"
  | .localKeyword => "local-keyword"
  | .selectLoop => "select-loop"
  | .pipeAll => "pipe-stderr"
  | .ampRedirect => "amp-redirect"
  | .hereString => "here-string"
  | .ansiQuote => "ansi-c-quote"
  | .arithCommand => "arith-command"
  | .arithFor => "arith-for"
  | .braceExpansion => "brace-expansion"
  | .caseFallthrough => "case-fallthrough"

def nameAt (n : Int) : String :=
  match (if n < 0 then none else all[n.toNat]?) with
  | some f => f.name
  | none => "Feature(" ++ toString n ++ ")"

end Feature

namespace Dialect

def all : List Dialect := [.bash, .posix, .dash, .ksh, .zsh]

def name : Dialect → String
  | .bash => "bash"
  | .posix => "posix"
  | .dash => "dash"
  | .ksh => "ksh"
  | .zsh => "zsh"

def nameAt (n : Int) : String :=
  match (if n < 0 then none else all[n.toNat]?) with
  | some d => d.name
  | none => "Dialect(" ++ toString n ++ ")"

-- Every accepted spelling, in byte order.
def aliases : List (String × Dialect) :=
  [("ash", .dash), ("bash", .bash), ("dash", .dash), ("ksh", .ksh), ("ksh93", .ksh), ("mksh", .ksh),
    ("posix", .posix), ("sh", .posix), ("zsh", .zsh)]

-- Shells whose grammar is of another kind altogether.
def rejected : List String := ["fish", "csh", "tcsh", "pwsh", "powershell"]

def supports : Dialect → Feature → Bool
  | .bash, _ => true
  | .zsh, _ => true
  | .posix, _ => false
  | .dash, f => f == .localKeyword
  | .ksh, f => !(f == .pipeAll || f == .ampRedirect || f == .localKeyword)

def features (d : Dialect) : List Feature := Feature.all.filter d.supports

-- A shell that cannot be read, with the closest name that could.
structure Unsupported where
  name : String
  suggestion : Option String := none
deriving Repr, DecidableEq

def Unsupported.message (e : Unsupported) : String :=
  "unsupported shell dialect " ++ Text.quoted e.name
    ++ match e.suggestion with
      | some s => " (did you mean " ++ Text.quoted s ++ "?)"
      | none => ""

def ofName (s : String) : Except Unsupported Dialect :=
  let key := Text.lower (Text.trim s)
  match aliases.lookup key with
  | some d => .ok d
  | none =>
    if rejected.contains key then .error { name := s }
    else .error { name := s, suggestion := Text.bestMatch? key (aliases.map Prod.fst) }

-- The last component of a path.
def baseName (path : String) : String :=
  if path.isEmpty then "."
  else match (path.toList.reverse.dropWhile (· == '/')) with
    | [] => "/"
    | cs => String.ofList (cs.takeWhile (· != '/')).reverse

-- The text after the last dot of the last component.
def extension (path : String) : String :=
  let back := path.toList.reverse.takeWhile (· != '/')
  let ext := back.takeWhile (· != '.')
  if ext.length == back.length then "" else String.ofList ext.reverse

-- How much of a first line is looked at.
def maxInterpreterLine : Nat := 4096

-- The interpreter that a first line beginning with `#!` names. `env` stands for the first word after it
-- that is neither a flag nor an assignment.
def interpreter (src : String) : String :=
  match src.toList with
  | '#' :: '!' :: rest =>
    match Text.fields (String.ofList ((rest.take maxInterpreterLine).takeWhile (· != '\n'))) with
    | [] => ""
    | f :: fs =>
      if baseName f == "env" then
        match fs.find? fun w => !(Text.hasPrefix w "-" || w.toList.contains '=') with
        | some w => baseName w
        | none => ""
      else baseName f
  | _ => ""

-- The dialect that a script's first line or else its file name asks for, if any.
def detect (name src : String) : Except Unsupported (Option Dialect) :=
  let interp := interpreter src
  match aliases.lookup interp with
  | some d => .ok (some d)
  | none =>
    if rejected.contains interp then .error { name := interp }
    else
      let ext := extension name
      if ext == "bash" || ext == "sh" then .ok (some .bash)
      else if ext == "zsh" then .ok (some .zsh)
      else if ext == "dash" then .ok (some .dash)
      else if ext == "ksh" then .ok (some .ksh)
      else if ["fish", "csh", "tcsh", "ps1", "psm1", "psd1"].contains ext then .error { name := ext }
      else .ok none

end Dialect
end ShellScript

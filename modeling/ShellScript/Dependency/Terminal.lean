import ShellScript.Script.Node
import ShellScript.Script.Read
import ShellScript.Script.Word

-- What a script needs of a terminal.
namespace ShellScript
namespace Dependency

inductive Requirement where
  | none
  | features
  | interactive
  | fullscreen
deriving Repr, DecidableEq, Inhabited

namespace Requirement

def rank : Requirement → Nat
  | .none => 0
  | .features => 1
  | .interactive => 2
  | .fullscreen => 3

def name : Requirement → String
  | .none => "none"
  | .features => "features"
  | .interactive => "interactive"
  | .fullscreen => "fullscreen"

def max (a b : Requirement) : Requirement := if a.rank < b.rank then b else a

end Requirement

structure Terminal where
  requirement : Requirement := .none
  features : List String := []
  commands : List String := []
deriving Repr, DecidableEq

namespace Terminal

def isHeadless (t : Terminal) : Bool := t.requirement == .none

-- Whether the program reads from its user.
def isInteractive (t : Terminal) : Bool := t.requirement.rank ≥ Requirement.interactive.rank

def union (a b : List String) : List String := Text.compact (Text.sort (a ++ b))

def merge (a b : Terminal) : Terminal where
  requirement := a.requirement.max b.requirement
  features := union a.features b.features
  commands := union a.commands b.commands

-- The need for a list of features.
def requirementOf (features : List String) : Requirement :=
  let any (fs : List String) : Bool := fs.any features.contains
  if any ["fullscreen", "alternate-screen"] then .fullscreen
  else if any ["input", "menu", "password", "live-output"] then .interactive
  else if features.isEmpty then .none
  else .features

def hasShortFlag (c : Char) (args : List String) : Bool :=
  args.any fun a => match a.toList with
    | '-' :: d :: rest => d != '-' && (d :: rest).contains c
    | _ => false

-- Features and command names that one command brings with it.
def ofCommand (name : String) (args : List String) : List String × List String :=
  if name == "read" then ("input" :: (if hasShortFlag 's' args then ["password"] else []), [name])
  else if name == "tput" then
    (["cursor", "color"] ++ (match args with
      | a :: _ =>
        if a == "cols" || a == "lines" then ["size"]
        else if a == "smcup" || a == "rmcup" then ["alternate-screen"] else []
      | [] => []), [])
  else if name == "clear" || name == "reset" then (["cursor"], [])
  else if name == "stty" then ("raw-mode" :: (if args.contains "-echo" then ["password"] else []), [])
  else if ["dialog", "whiptail", "zenity", "vim", "vi", "nano", "emacs", "less", "more", "top", "htop"].contains name then
    (["fullscreen"], [name])
  else if name == "pv" || name == "progress" then (["progress"], [])
  else if name == "lolcat" then (["color"], [])
  else if name == "watch" then (["live-output"], [name])
  else if name == "tail" && (args.contains "-f" || args.contains "-F") then (["live-output"], ["tail -f"])
  else ([], [])

def ofText (s : String) : List String :=
  if ["\x1b[", "\\033[", "\\e[", "\\x1b["].any (Text.containsText s) then
    "color" :: (if Text.containsText s "?1049h" || Text.containsText s "?1049l" then ["alternate-screen"] else [])
  else []

def ofNode : Script.Node → List String × List String
  | .command (.simple _ (name :: args) _) =>
    match name.lit? with
    | some n => ofCommand n (args.filterMap Script.Word.value?)
    | none => ([], [])
  | .command (.select _ _ _ _ _ _) => (["menu"], ["select"])
  | .part (.lit _ s) => (ofText s, [])
  | .part (.single _ _ s) => (ofText s, [])
  | .part (.param _ x) => (if x.name == "COLUMNS" || x.name == "LINES" then ["size"] else [], [])
  | _ => ([], [])

def ofBlock (b : Script.Block) : Terminal :=
  let found := b.nodes.preorder.map ofNode
  let features := union (found.flatMap Prod.fst) []
  { requirement := requirementOf features, features, commands := union (found.flatMap Prod.snd) [] }

end Terminal
end Dependency
end ShellScript

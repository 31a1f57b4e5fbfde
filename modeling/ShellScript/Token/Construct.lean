import ShellScript.Dialect

-- Finding where a quotation or an expansion ends. Each construct counts only its own delimiters and steps
-- over the constructs nested in it, so the depths of different kinds never mix.
namespace ShellScript

inductive Construct where
  | singleQuote
  | ansiQuote
  | doubleQuote
  | backquote
  | commandSubstitution
  | processSubstitution
  | parenthesis
  | arithmetic
  | parameter
deriving Repr, DecidableEq, Inhabited

namespace Construct

def describe : Construct → String
  | .singleQuote => "single quote"
  | .ansiQuote => "ANSI-C quote"
  | .doubleQuote => "double quote"
  | .backquote => "backquote"
  | .commandSubstitution => "command substitution"
  | .processSubstitution => "process substitution"
  | .parenthesis => "parenthesis"
  | .arithmetic => "arithmetic expansion"
  | .parameter => "parameter expansion"

-- A construct that the text leaves open, and how many characters stand from its beginning to the end of
-- the text.
structure Unclosed where
  construct : Construct
  left : Nat
deriving Repr, DecidableEq

-- What follows the construct.
abbrev Close := Except Unclosed (List Char)

-- After the opening quote.
def closeSingle (left : Nat) : List Char → Close
  | [] => .error ⟨.singleQuote, left⟩
  | c :: cs => if c == '\'' then .ok cs else closeSingle left cs

-- Up to an unescaped `stop`.
def closeEscaped (construct : Construct) (stop : Char) (left : Nat) : List Char → Close
  | [] => .error ⟨construct, left⟩
  | '\\' :: _ :: cs => closeEscaped construct stop left cs
  | c :: cs => if c == stop then .ok cs else closeEscaped construct stop left cs

def closeBackquote (left : Nat) (cs : List Char) : Close := closeEscaped .backquote Text.backquote left cs

def closeAnsi (left : Nat) (cs : List Char) : Close := closeEscaped .ansiQuote '\'' left cs

-- The construct whose end is looked for, with the depth of its own delimiters.
inductive Frame where
  | double
  | parens (depth : Nat)
  | arith (depth : Nat)
  | param (depth : Nat)
deriving Repr, DecidableEq

def Frame.construct : Frame → Construct
  | .double => .doubleQuote
  | .parens _ => .parenthesis
  | .arith _ => .arithmetic
  | .param _ => .parameter

-- What an ordinary character does to the frame: it ends it, leaves it open with a new depth, begins a
-- comment that runs to the end of the line, or shows that the text is not of this form.
inductive Step where
  | done
  | go (frame : Frame)
  | comment
  | refuse

-- `prev` is the character before `c`; only there can a comment be told from a word.
def Frame.step (prev c : Char) (next : Option Char) : Frame → Step
  | .double => if c == '"' then .done else .go .double
  | .parens n =>
    if c == '(' then .go (.parens (n + 1))
    else if c == ')' then if n == 1 then .done else .go (.parens (n - 1))
    else if c == '#' && (Text.isBlank prev || prev == '\n' || prev == ';') then .comment
    else .go (.parens n)
  | .arith n =>
    if c == '(' then .go (.arith (n + 1))
    else if c == ')' then
      if n == 2 then if next == some ')' then .done else .refuse
      else .go (.arith (n - 1))
    else .go (.arith n)
  | .param n =>
    if c == '\x7b' then .go (.param (n + 1))
    else if c == '\x7d' then if n == 1 then .done else .go (.param (n - 1))
    else .go (.param n)

-- How many characters the last step of a frame takes beyond its first.
def Frame.tail : Frame → Nat
  | .arith _ => 1
  | _ => 0

-- One step through a frame: the text after the frame, or where the next step begins.
inductive Turn where
  | done (rest : List Char)
  | on (frame : Frame) (prev : Char) (rest : List Char)

-- On after a nested construct.
def Turn.past (f : Frame) (c : Char) : Close → Except Unclosed Turn
  | .ok rest => .ok (.on f c rest)
  | .error e => .error e

-- The closers of double quotes and of what a dollar sign begins are given.
def turn (double dollar : List Char → Close) (f : Frame) (left : Nat) (prev c : Char) (cs : List Char) :
    Except Unclosed Turn :=
  if c == '\\' then
    match cs with
    | [] => .error ⟨f.construct, left⟩
    | e :: cs => .ok (.on f e cs)
  else if c == Text.backquote then Turn.past f c (closeBackquote (cs.length + 1) cs)
  else if c == '$' then Turn.past f c (dollar cs)
  else if c == '\'' && f != .double then Turn.past f c (closeSingle (cs.length + 1) cs)
  else if c == '"' && f != .double then Turn.past f c (double cs)
  else match f.step prev c cs.head? with
    | .done => .ok (.done (cs.drop f.tail))
    | .go f => .ok (.on f c cs)
    | .comment => .ok (.on f '#' (cs.dropWhile (· != '\n')))
    | .refuse => .error ⟨f.construct, left⟩

mutual

-- The text after the frame that was entered `left` characters before the end. Each step takes at least one
-- character, and a dollar sign costs one step more, so twice the length of the text bounds the number of steps.
def close (d : Dialect) : Nat → Frame → Nat → Char → List Char → Close
  | 0, f, left, _, _ => .error ⟨f.construct, left⟩
  | _ + 1, f, left, _, [] => .error ⟨f.construct, left⟩
  | n + 1, f, left, prev, c :: cs =>
    match turn (fun cs => close d n .double (cs.length + 1) c cs) (closeDollar d n (f == .double)) f left prev c cs with
    | .ok (.done rest) => .ok rest
    | .ok (.on f prev rest) => close d n f left prev rest
    | .error e => .error e

-- After a dollar sign. A name after it is ordinary text. `$((` that cannot be read as arithmetic is a
-- command substitution that begins with a subshell.
def closeDollar (d : Dialect) : Nat → Bool → List Char → Close
  | 0, _, cs => .ok cs
  | n + 1, inDouble, cs =>
    let left := cs.length + 1
    match cs with
    | '(' :: rest =>
      let arith : Option (List Char) := match rest with
        | '(' :: _ =>
          match close d n (.arith 0) left '$' cs with
          | .ok r => some r
          | .error _ => none
        | _ => none
      match arith with
      | some r => .ok r
      | none =>
        match close d n (.parens 0) (left - 1) '$' cs with
        | .ok r => .ok r
        | .error _ => .error ⟨.commandSubstitution, left⟩
    | '\x7b' :: _ => close d n (.param 0) left '$' cs
    | '\'' :: rest => if !inDouble && d.supports .ansiQuote then closeAnsi left rest else .ok cs
    | '"' :: rest => if !inDouble then close d n .double (left - 1) '"' rest else .ok cs
    | _ => .ok cs

end

-- After an opening double quote.
def closeDouble (d : Dialect) (cs : List Char) : Close := close d (2 * cs.length + 1) .double (cs.length + 1) '"' cs

-- From an opening parenthesis.
def closeParens (d : Dialect) (cs : List Char) : Close := close d (2 * cs.length + 1) (.parens 0) cs.length '(' cs

-- From the first of two opening parentheses.
def closeArith (d : Dialect) (cs : List Char) : Close := close d (2 * cs.length + 1) (.arith 0) cs.length '(' cs

-- After a dollar sign.
def closeExpansion (d : Dialect) (inDouble : Bool) (cs : List Char) : Close :=
  closeDollar d (2 * cs.length + 2) inDouble cs

end Construct
end ShellScript

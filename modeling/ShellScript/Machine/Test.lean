import ShellScript.Machine.Expand

-- Conditional expressions, as commands and as `[[ ]]`.
namespace ShellScript
namespace Machine

open Program (Word)

namespace Test

def isUnary (op : String) : Bool :=
  ["-a", "-b", "-c", "-d", "-e", "-f", "-g", "-h", "-k", "-L", "-n", "-N", "-o", "-O", "-G", "-p", "-r", "-s",
    "-S", "-t", "-u", "-v", "-w", "-x", "-z"].contains op

def isBinary (op : String) : Bool :=
  ["=", "==", "!=", "<", ">", "-eq", "-ne", "-lt", "-le", "-gt", "-ge", "-nt", "-ot", "-ef"].contains op

def isNumeric (op : String) : Bool := ["-eq", "-ne", "-lt", "-le", "-gt", "-ge"].contains op

def compareInts (op : String) (a b : Int) : Bool :=
  match op with
  | "-eq" => a == b
  | "-ne" => a != b
  | "-lt" => a < b
  | "-le" => a ≤ b
  | "-gt" => a > b
  | "-ge" => a ≥ b
  | _ => false

-- An option of the shell by its name or letter.
def option? (o : Program.Options) (name : String) : Option Bool :=
  match name with
  | "errexit" | "e" => some o.errexit
  | "nounset" | "u" => some o.nounset
  | "pipefail" => some o.pipefail
  | "xtrace" | "x" => some o.xtrace
  | "noglob" | "f" => some o.noglob
  | _ => none

def stat (s : State) (path : String) : Option Entry := s.world.files.find? (Path.resolve s.shell.dir path)

def malformed {α : Type} : Except String α := .error "syntax error"

-- There are no links, devices, pipes or sockets, and no stream is a terminal.
def unary (s : State) (op x : String) : Except String Bool :=
  let file (p : Entry → Bool) : Except String Bool := .ok (((stat s x).map p).getD false)
  let allows (bits : Nat) (e : Entry) : Bool := e.mode &&& bits != 0
  match op with
  | "-z" => .ok x.isEmpty
  | "-n" => .ok !x.isEmpty
  | "-a" | "-e" | "-O" | "-G" | "-N" => file fun _ => true
  | "-f" => file fun e => !e.isDir || e.fromFile
  | "-d" => file fun e => e.isDir && !e.fromFile
  | "-r" => file (allows 0o444)
  | "-w" => file (allows 0o222)
  | "-x" => file (allows 0o111)
  | "-s" => file fun e => e.isDir || !e.data.isEmpty
  | "-v" => .ok (s.shell.env.get? x).isSome
  | "-o" => .ok ((option? s.shell.options x).getD false)
  | "-b" | "-c" | "-p" | "-S" | "-g" | "-u" | "-k" | "-h" | "-L" | "-t" => .ok false
  | _ => malformed

def number (x : String) : Except String Int :=
  match Text.int64? (Text.trim x) with
  | some n => .ok n
  | none => .error (x ++ ": integer expression expected")

-- Files have no times here: of two that exist none is newer.
def binary (s : State) (op x y : String) : Except String Bool :=
  if isNumeric op then
    match number x, number y with
    | .ok a, .ok b => .ok (compareInts op a b)
    | .error e, _ => .error e
    | _, .error e => .error e
  else match op with
    | "=" | "==" => .ok (x == y)
    | "!=" => .ok (x != y)
    | "<" => .ok (Text.compare x y == .lt)
    | ">" => .ok (Text.compare x y == .gt)
    | "-nt" => .ok ((stat s x).isSome && (stat s y).isNone)
    | "-ot" => .ok ((stat s y).isSome && (stat s x).isNone)
    | "-ef" => .ok false
    | _ => malformed

mutual

def disjunction (s : State) : Nat → List String → Except String (Bool × List String)
  | 0, _ => malformed
  | n + 1, args => do
    let (l, rest) ← conjunction s n args
    match rest with
    | "-o" :: rest =>
      let (r, rest) ← disjunction s n rest
      return (l || r, rest)
    | _ => return (l, rest)

def conjunction (s : State) : Nat → List String → Except String (Bool × List String)
  | 0, _ => malformed
  | n + 1, args => do
    let (l, rest) ← negation s n args
    match rest with
    | "-a" :: rest =>
      let (r, rest) ← conjunction s n rest
      return (l && r, rest)
    | _ => return (l, rest)

def negation (s : State) : Nat → List String → Except String (Bool × List String)
  | 0, _ => malformed
  | n + 1, args =>
    match args with
    | "!" :: rest => (negation s n rest).map fun (b, rest) => (!b, rest)
    | _ => primary s n args

def primary (s : State) : Nat → List String → Except String (Bool × List String)
  | 0, _ => malformed
  | n + 1, args =>
    match args with
    | [] => .error "argument expected"
    | "(" :: rest => do
      let (b, rest) ← disjunction s n rest
      match rest with
      | ")" :: rest => return (b, rest)
      | _ => .error "')' expected"
    | a :: rest =>
      match rest with
      | op :: y :: more =>
        if isBinary op then (binary s op a y).map fun b => (b, more)
        else if isUnary a then (unary s a op).map fun b => (b, y :: more)
        else .ok (!a.isEmpty, rest)
      | [x] => if isUnary a then (unary s a x).map fun b => (b, []) else .ok (!a.isEmpty, rest)
      | [] => .ok (!a.isEmpty, [])

end

-- `-a` binds tighter than `-o`, and all arguments have to be used.
def long (s : State) (args : List String) : Except String Bool := do
  let (b, rest) ← disjunction s (4 * args.length + 4) args
  match rest with
  | [] => return b
  | a :: _ => .error (a ++ ": unexpected argument")

def two (s : State) (a b : String) : Except String Bool :=
  if a == "!" then .ok b.isEmpty
  else if isUnary a then unary s a b
  else .error (a ++ ": unary operator expected")

def three (s : State) (a b c : String) : Except String Bool :=
  if isBinary b then binary s b a c
  else if b == "-a" then .ok (!a.isEmpty && !c.isEmpty)
  else if b == "-o" then .ok (!a.isEmpty || !c.isEmpty)
  else if a == "!" then (two s b c).map (!·)
  else if a == "(" && c == ")" then .ok !b.isEmpty
  else .error (b ++ ": binary operator expected")

-- Up to four arguments are told apart by their number, so that any text can be an operand.
def ofArgs (s : State) : List String → Except String Bool
  | [] => .ok false
  | [a] => .ok !a.isEmpty
  | [a, b] => two s a b
  | [a, b, c] => three s a b c
  | [a, b, c, d] =>
    if a == "!" then (three s b c d).map (!·)
    else if a == "(" && d == ")" then two s b c
    else long s [a, b, c, d]
  | args => long s args

end Test

open Run

def testFailure {α : Type} (text : String) : Run α := fail (.ofText .testForm text)

def ofTest (x : Except String Bool) : Run Bool :=
  match x with
  | .ok b => return b
  | .error e => testFailure e

-- Matches a text against a regular expression and keeps what its groups matched.
def matchRegex (E : Engine) (text : String) (w : Word) : Run Bool := do
  match Regex.read? (Fragment.regex (← fragments E w)) with
  | none => testFailure "syntax error"
  | some (x, groups) =>
    match (Regex.matcher x groups).find? text with
    | none =>
      let (env, _) := (← shell).env.setArray "BASH_REMATCH" []
      setEnv env
      return false
    | some found =>
      setArray "BASH_REMATCH" found
      return true

def compareWords (E : Engine) (op : String) (x y : Word) : Run Bool := do
  let l ← literal E x
  if op == "==" || op == "=" || op == "!=" then
    return (Pattern.read (← patternOf E y)).matches_ l == (op != "!=")
  else if op == "=~" then matchRegex E l y
  else if Test.isNumeric op then
    let a ← textValue E 0 l
    let b ← textValue E 0 (← literal E y)
    return Test.compareInts op a b
  else
    let r ← literal E y
    ofTest (Test.binary (← get) op l r)

-- The operands are neither split nor matched against files.
def condition (E : Engine) : Program.Test → Run Bool
  | .word w => return !(← literal E w).isEmpty
  | .unary op x => do
    if op == "!" then return !(← condition E x)
    else match x with
      | .word w =>
        let v ← literal E w
        ofTest (Test.unary (← get) op v)
      | _ => testFailure "syntax error"
  | .binary op x y => do
    if op == "&&" || op == "-a" then
      if ← condition E x then condition E y else return false
    else if op == "||" || op == "-o" then
      if ← condition E x then return true else condition E y
    else match x, y with
      | .word l, .word r => compareWords E op l r
      | _, _ => testFailure "syntax error"

end Machine
end ShellScript

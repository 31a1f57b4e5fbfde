import ShellScript.Machine.Command.Output
import ShellScript.Machine.Fields

-- Commands that read: lines of input and the options of a script.
namespace ShellScript
namespace Machine
namespace Command

open Run

-- Drops the backslashes in front of characters.
def unbackslash : List Char → List Char
  | [] => []
  | ['\\'] => ['\\']
  | '\\' :: c :: cs => c :: unbackslash cs
  | c :: cs => c :: unbackslash cs

def trimBlanks (isBlank : Char → Bool) (cs : List Char) : List Char :=
  ((cs.dropWhile isBlank).reverse.dropWhile isBlank).reverse

-- The fields of a line, at most `limit` of them when there is one; the last one takes the rest.
def splitFields (isSep isBlank : Char → Bool) (limit : Option Nat) : Nat → Nat → List Char → List String
  | 0, _, _ => []
  | n + 1, count, cs =>
    if cs.isEmpty then []
    else if limit.any (count + 1 == ·) then [String.ofList cs]
    else
      let front := cs.takeWhile fun c => !isSep c
      let rest := (cs.drop front.length).dropWhile isBlank
      let rest := match rest with
        | c :: more => if isSep c && !isBlank c then more.dropWhile isBlank else rest
        | [] => []
      String.ofList front :: splitFields isSep isBlank limit n (count + 1) rest

def splitLine (separators : String) (limit : Option Nat) (line : String) : List String :=
  let isSep (c : Char) := separators.toList.contains c
  let isBlank (c : Char) := isSep c && Fields.isBlank c
  let cs := trimBlanks isBlank line.toList
  splitFields isSep isBlank limit (cs.length + 1) 0 cs

-- A line that ends in a backslash goes on in the next one.
def continueLine (from_ : Stream) (delim : Char) : Nat → String → Bool → Run (String × Bool)
  | 0, line, ended => return (line, ended)
  | n + 1, line, ended => do
    if Text.hasSuffix line "\\" && !ended then
      let (more, ended) ← readLine from_ delim
      continueLine from_ delim n (Text.dropBack 1 line ++ more) ended
    else return (line, ended)

def setAll (values : List String) : List String → Run Unit
  | [] => return
  | n :: ns => do
    setVar n (values.headD "")
    setAll (values.drop 1) ns

def readFlags : List (Char × FlagKind) :=
  [('r', .switch), ('p', .value), ('d', .value), ('n', .number), ('a', .value), ('s', .switch), ('t', .value)]

-- Shows a text before a line is read.
def prompt (text : String) : Run Unit := do
  if text.isEmpty then return
  write (← shell).streams.error text

def read (name : String) (args : List String) : Run Unit :=
  withFlags readFlags name args fun f => do
    prompt ((f.value? 'p').getD "")
    let s ← shell
    let delim := (((f.value? 'd').getD "\n").toList).headD '\x00'
    let count := (((f.value? 'n').map (Text.int64 0)).bind Text.Numeral.toOption).getD 0
    let raw := f.on 'r'
    let (line, ended) ←
      if count > 0 then readChars s.streams.input count.toNat delim
      else do
        let left := (← remaining s.streams.input).length
        let (line, ended) ← readLine s.streams.input delim
        if raw then pure (line, ended) else continueLine s.streams.input delim (left + 1) line ended
    let line := if raw then line else String.ofList (unbackslash line.toList)
    setStatus (if ended then 1 else 0)
    let separators := ((← shell).env.value? "IFS").getD " \t\n"
    match f.value? 'a' with
    | some array =>
      if array.isEmpty then finish line separators f.operands else setArray array (splitLine separators none line)
    | none => finish line separators f.operands
where
  finish (line separators : String) : List String → Run Unit
    | [] => setVar "REPLY" line
    | names => setAll (splitLine separators (some names.length) line) names

def tryUnset (name : String) : Run Unit := do
  match (← shell).env.unset name with
  | .ok env => setEnv env
  | .error _ => return

def charText (c : Char) : String := String.ofList (Text.utf8 c)

-- No more options: the next argument is the first operand.
def optionsEnd (name : String) (index : Nat) : Run Unit := do
  modifyShell fun s => { s with optionPos := 0 }
  setStatus 1
  tryUnset "OPTARG"
  setVar "OPTIND" (toString index)
  setVar name "?"

-- Sets the position after a letter: in the same argument, or at the next one.
def afterLetter (arg : String) (pos index : Nat) : Run Nat := do
  if pos ≥ arg.length then
    modifyShell fun s => { s with optionPos := 0 }
    return index + 1
  else
    modifyShell fun s => { s with optionPos := pos }
    return index

-- The letter at a position of an argument.
def optionAt (letters : List Char) (silent : Bool) (name : String) (params : List String) (arg : String)
    (c : Char) (pos index : Nat) : Run Unit := do
  setStatus 0
  let after := letters.dropWhile (· != c)
  if after.isEmpty || c == ':' then
    let index ← afterLetter arg pos index
    if silent then trySetVar "OPTARG" (charText c)
    else
      complain ("illegal option -- " ++ charText c)
      tryUnset "OPTARG"
    trySetVar "OPTIND" (toString index)
    setVar name "?"
  else if after.drop 1 |>.head? |>.any (· == ':') then
    let value? : Option (String × Nat) :=
      if pos < arg.length then some (Text.dropFront pos arg, index + 1)
      else (params[index]?).map fun v => (v, index + 2)
    modifyShell fun s => { s with optionPos := 0 }
    match value? with
    | some (value, index) =>
      setVar "OPTARG" value
      setVar "OPTIND" (toString index)
      setVar name (charText c)
    | none =>
      trySetVar "OPTIND" (toString (index + 1))
      if silent then
        trySetVar "OPTARG" (charText c)
        setVar name ":"
      else
        complain ("option requires an argument -- " ++ charText c)
        tryUnset "OPTARG"
        setVar name "?"
  else
    let index ← afterLetter arg pos index
    tryUnset "OPTARG"
    setVar "OPTIND" (toString index)
    setVar name (charText c)

def getopts (args : List String) : Run Unit := do
  match args with
  | letters :: name :: rest =>
    let s ← shell
    let params := if rest.isEmpty then s.params else rest
    let silent := Text.hasPrefix letters ":"
    let letters := (Text.withoutPrefix letters ":").toList
    let given := (Text.int64 10 (Text.trim (← valueOf "OPTIND"))).nearest
    let index := if given < 1 then 1 else given.toNat
    match params[index - 1]? with
    | none => optionsEnd name index
    | some arg =>
      let pos := s.optionPos
      if pos == 0 && arg == "--" then optionsEnd name (index + 1)
      else if pos == 0 && (arg.length < 2 || !Text.hasPrefix arg "-") then optionsEnd name index
      else
        let pos := if pos == 0 then 1 else pos
        match arg.toList[pos]? with
        -- the position was left by a longer argument
        | none => throw (.stopped .crash)
        | some c =>
          modifyShell fun s => { s with optionPos := pos + 1 }
          optionAt letters silent name params arg c (pos + 1) index
  | _ => usage "getopts" "usage: getopts optstring name [arg ...]"

end Command
end Machine
end ShellScript

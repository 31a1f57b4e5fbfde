import ShellScript.Dependency.Condition.Value

-- Values as JSON, and back.
namespace ShellScript
namespace Dependency
namespace Condition

def indent (depth : Nat) : String := "\n" ++ Text.replicate depth "  "

-- Parts between brackets, each on a line of its own.
def bracketed (opening closing : String) (depth : Nat) (parts : List String) : String :=
  if parts.isEmpty then opening ++ closing
  else opening ++ indent (depth + 1) ++ Text.joinWith ("," ++ indent (depth + 1)) parts ++ indent depth ++ closing

def keyed (k v : String) : String := Log.jsonText true true k ++ ": " ++ v

def usageJson (depth : Nat) (u : Usage) : String :=
  let flag (k : String) (b : Bool) : String := keyed k (Log.boolText b)
  let commands := if u.commands.isEmpty then "null"
    else bracketed "[" "]" (depth + 1) (u.commands.map (Log.jsonText true true))
  bracketed "\x7b" "\x7d" depth
    [keyed "Reads" (toString u.reads), keyed "Writes" (toString u.writes), keyed "Appends" (toString u.appends),
      flag "InLoop" u.inLoop, flag "InCondition" u.inCondition, flag "Guarded" u.guarded,
      flag "Monitored" u.monitored, flag "Sourced" u.sourced, flag "Executed" u.executed, keyed "Commands" commands]

def subjectJson (depth : Nat) (s : Subject) : String :=
  let word (k t : String) : String := keyed k (Log.jsonText true true t)
  bracketed "\x7b" "\x7d" depth
    [word "Path" s.path, word "Base" s.base, word "Ext" s.ext, word "Dir" s.dir,
      keyed "Local" (Log.boolText s.local_), keyed "Exists" (Log.boolText s.exists_), keyed "Size" (toString s.size),
      keyed "Usage" (usageJson (depth + 1) s.usage)]

mutual

-- A value as JSON; none if it holds something that JSON cannot say.
def Value.json? (depth : Nat) : Value → Option String
  | .null | .noList _ => some "null"
  | .bool b => some (Log.boolText b)
  | .int _ n => some (toString n)
  | .float x => match x with
    | .finite _ _ _ => some (Log.jsonNumber x)
    | _ => none
  | .text s => some (Log.jsonText true true s)
  | .list _ vs => (jsonAll? (depth + 1) vs).map (bracketed "[" "]" depth)
  | .table es => (jsonEntries? (depth + 1) es).map (bracketed "\x7b" "\x7d" depth)
  | .duration ns => some (toString ns)
  | .usage u => some (usageJson depth u)
  | .subject s => some (subjectJson depth s)
  | .groups _ | .time _ | .func _ => none

def jsonAll? (depth : Nat) : List Value → Option (List String)
  | [] => some []
  | v :: vs => do return (← v.json? depth) :: (← jsonAll? depth vs)

def jsonEntries? (depth : Nat) : List (String × Value) → Option (List String)
  | [] => some []
  | (k, v) :: es => do return keyed k (← v.json? depth) :: (← jsonEntries? depth es)

end

-- Puts an entry in its place by key, over one that is there.
def setEntry (k : String) (v : Value) : List (String × Value) → List (String × Value)
  | [] => [(k, v)]
  | (l, w) :: es =>
    match Text.compare k l with
    | .lt => (k, v) :: (l, w) :: es
    | .eq => (k, v) :: es
    | .gt => (l, w) :: setEntry k v es

def isJsonBlank (c : Char) : Bool := c == ' ' || c == '\t' || c == '\r' || c == '\n'

def skipBlanks (cs : List Char) : List Char := cs.dropWhile isJsonBlank

def hex4? (cs : List Char) : Option (Nat × List Char) := do
  let ds ← (cs.take 4).mapM Text.hexValue?
  if ds.length == 4 then some (ds.foldl (fun v d => v * 16 + d) 0, cs.drop 4) else none

-- The character of an escape with four digits; two that make one character together are read together.
def codeEscape? (cs : List Char) : Option (Char × List Char) := do
  let (n, rest) ← hex4? cs
  if 0xD800 ≤ n && n < 0xDC00 then
    match rest with
    | '\\' :: 'u' :: more =>
      match hex4? more with
      | some (m, rest') =>
        if 0xDC00 ≤ m && m < 0xE000 then
          return (Char.ofNat (0x10000 + (n - 0xD800) * 1024 + (m - 0xDC00)), rest')
        else return (Text.replacement, rest)
      | none => none
    | _ => return (Text.replacement, rest)
  else if 0xDC00 ≤ n && n < 0xE000 then return (Text.replacement, rest)
  else return (Char.ofNat n, rest)

-- The text up to the closing quote.
def jsonTextFrom? : Nat → List Char → List Char → Option (String × List Char)
  | 0, _, _ => none
  | _, _, [] => none
  | fuel + 1, acc, c :: cs =>
    let simple (d : Char) (rest : List Char) := jsonTextFrom? fuel (d :: acc) rest
    if c == '"' then
      some (String.ofList ((Text.runesOf acc.reverse).flatMap fun r => Text.utf8 r.value), cs)
    else if c.toNat < 0x20 then none
    else if c != '\\' then simple c cs
    else match cs with
      | 'b' :: r => simple '\x08' r
      | 'f' :: r => simple '\x0c' r
      | 'n' :: r => simple '\n' r
      | 'r' :: r => simple '\r' r
      | 't' :: r => simple '\t' r
      | '"' :: r => simple '"' r
      | '\\' :: r => simple '\\' r
      | '/' :: r => simple '/' r
      | 'u' :: r =>
        match codeEscape? r with
        | some (d, rest) => jsonTextFrom? fuel ((Text.utf8 d).reverse ++ acc) rest
        | none => none
      | _ => none

-- The digits of a number: at least one.
def digits? (cs : List Char) : Option (List Char × List Char) :=
  let ds := cs.takeWhile Text.isDigit
  if ds.isEmpty then none else some (ds, cs.dropWhile Text.isDigit)

def wholePart? : List Char → Option (List Char × List Char)
  | '0' :: cs => some (['0'], cs)
  | cs => digits? cs

def jsonNumber? (cs : List Char) : Option (Value × List Char) := do
  let (sign, cs) := match cs with
    | '-' :: r => (['-'], r)
    | r => ([], r)
  let (whole, cs) ← wholePart? cs
  let (frac, cs) ← match cs with
    | '.' :: r => (digits? r).map fun (ds, r) => ('.' :: ds, r)
    | r => some ([], r)
  let (exp, cs) ← match cs with
    | e :: r =>
      if e == 'e' || e == 'E' then
        match r with
        | s :: r' =>
          if s == '+' || s == '-' then (digits? r').map fun (ds, r) => (e :: s :: ds, r)
          else (digits? r).map fun (ds, r) => (e :: ds, r)
        | [] => none
      else some ([], e :: r)
    | [] => some ([], [])
  let s := String.ofList (sign ++ whole ++ frac ++ exp)
  if Binary64.overflows s then none
  return (.float (← Binary64.read? s), cs)

mutual

def jsonValue? : Nat → List Char → Option (Value × List Char)
  | 0, _ => none
  | fuel + 1, cs =>
    match skipBlanks cs with
    | 'n' :: 'u' :: 'l' :: 'l' :: r => some (.null, r)
    | 't' :: 'r' :: 'u' :: 'e' :: r => some (.bool true, r)
    | 'f' :: 'a' :: 'l' :: 's' :: 'e' :: r => some (.bool false, r)
    | '"' :: r => (jsonTextFrom? (r.length + 1) [] r).map fun (s, r) => (.text s, r)
    | '[' :: r =>
      match skipBlanks r with
      | ']' :: r => some (.list .any [], r)
      | r => (jsonItems? fuel r).map fun (vs, r) => (.list .any vs, r)
    | '\x7b' :: r =>
      match skipBlanks r with
      | '\x7d' :: r => some (.table [], r)
      | r => (jsonMembers? fuel [] r).map fun (es, r) => (.table es, r)
    | r => jsonNumber? r

def jsonItems? : Nat → List Char → Option (List Value × List Char)
  | 0, _ => none
  | fuel + 1, cs => do
    let (v, r) ← jsonValue? fuel cs
    match skipBlanks r with
    | ',' :: r => do
      let (vs, r) ← jsonItems? fuel r
      return (v :: vs, r)
    | ']' :: r => return ([v], r)
    | _ => none

-- Of entries with one key the last one counts.
def jsonMembers? : Nat → List (String × Value) → List Char → Option (List (String × Value) × List Char)
  | 0, _, _ => none
  | fuel + 1, es, cs => do
    match skipBlanks cs with
    | '"' :: r =>
      let (k, r) ← jsonTextFrom? (r.length + 1) [] r
      match skipBlanks r with
      | ':' :: r =>
        let (v, r) ← jsonValue? fuel r
        match skipBlanks r with
        | ',' :: r => jsonMembers? fuel (setEntry k v es) r
        | '\x7d' :: r => return (setEntry k v es, r)
        | _ => none
      | _ => none
    | _ => none

end

def Value.ofJson? (s : String) : Option Value := do
  let cs := s.toList
  let (v, rest) ← jsonValue? (2 * cs.length + 2) cs
  if (skipBlanks rest).isEmpty then some v else none

end Condition
end Dependency
end ShellScript

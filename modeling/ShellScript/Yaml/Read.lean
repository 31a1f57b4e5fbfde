import ShellScript.Number.Written
import ShellScript.Yaml.Tree

-- Reading a document. What is nested deeper than the text is long cannot occur, so its length bounds the work.
namespace ShellScript
namespace Yaml
namespace Read

-- What a reader found and where it stopped.
abbrev Found := Option (Yaml × Cursor)

-- A scalar on one line that may turn out to be a key.
inductive Piece where
  | plain (s : String)
  | quoted (s : String)

def Piece.text : Piece → String
  | .plain s => s
  | .quoted s => s

def Piece.value : Piece → Yaml
  | .plain s => ofPlain s
  | .quoted s => .text s

-- Characters that no plain scalar begins with, because they mean something of their own.
def isIndicator (c : Char) : Bool :=
  isFlowMark c || "&*!|>%@#?".toList.contains c || c == Text.backquote

def piece? (flow : Bool) (c : Cursor) : Option (Piece × Cursor) :=
  let n := c.rest.length + 1
  match c.rest with
  | '"' :: cs => (doubleQuoted? n [] cs).map fun (s, rest) => (.quoted (String.ofList s), c.moveTo rest)
  | '\'' :: cs => (singleQuoted? n [] cs).map fun (s, rest) => (.quoted (String.ofList s), c.moveTo rest)
  | d :: _ =>
    if isIndicator d then none
    else
      let (s, rest) := plainSpan flow c.rest
      some (.plain (String.ofList (dropBlanksBack s)), c.moveTo rest)
  | [] => none

-- The place behind the colon of a key.
def colon? (flow : Bool) (c : Cursor) : Option Cursor :=
  match skipBlanks c.rest with
  | ':' :: cs => if flow || endsMark cs then some (c.moveTo cs) else none
  | _ => none

def gap (c : Cursor) : Cursor := c.moveTo (skipGap c.rest)

def tabsIn : List Char → Bool
  | '\n' :: '\t' :: _ => true
  | _ :: cs => tabsIn cs
  | [] => false

-- As `gap`, outside of brackets, where no line may be indented with a tab.
def lineGap? (c : Cursor) : Option Cursor :=
  let next := gap c
  if tabsIn (c.rest.take (c.rest.length - next.rest.length)) then none else some next

-- A word behind a mark such as `&`, and the place behind it.
def word (flow : Bool) (c : Cursor) : String × Cursor :=
  let cs := c.rest.drop 1
  let w := cs.takeWhile fun d => !isGap d && d != '\n' && !(flow && isFlowMark d)
  (String.ofList w, c.moveTo (cs.drop w.length))

def writtenText : Yaml → Option String
  | .null => some ""
  | .bool b => some (if b then "true" else "false")
  | .int n => some (toString n)
  | .float x => some (x.text .general 'e' none)
  | .text s => some s
  | _ => none

-- A tag for text makes text of any scalar, and one for another kind of scalar reads text anew.
def tagged (tag : String) (y : Yaml) : Yaml :=
  match tag, y with
  | "!str", y => ((writtenText y).map .text).getD y
  | "!int", .text s | "!float", .text s | "!bool", .text s => ofPlain s
  | "!null", _ => .null
  | _, y => y

-- Adds the fields of a map to others; none if a key is there already.
def join? (done : List (String × Yaml)) (fields : List (String × Yaml)) : Option (List (String × Yaml)) :=
  fields.foldlM (fun done f => if (done.lookup f.1).isSome then none else some (done ++ [f])) done

-- Adds a field. The key `<<` stands for the fields of the map, or of all the maps, behind it.
def addField? (done : List (String × Yaml)) (key : Piece) (value : Yaml) : Option (List (String × Yaml)) :=
  match key, value with
  | .plain "<<", .map fields => join? done fields
  | .plain "<<", .list items => items.foldlM (fun done y => match y with
      | .map fields => join? done fields
      | _ => none) done
  | .plain "<<", _ => none
  | key, value => join? done [(key.text, value)]

-- Whether an item of a list begins here.
def atItem (c : Cursor) : Bool :=
  match c.rest with
  | '-' :: cs => endsMark cs
  | _ => false

-- Whether the document ends here: at the end of the text, or where a line marks its end or the next document.
def atEnd (c : Cursor) : Bool :=
  c.rest.isEmpty || (c.column == 0 &&
    (let mark := c.rest.take 3
    (mark == ['-', '-', '-'] || mark == ['.', '.', '.']) && endsMark (c.rest.drop 3)))

-- The further lines of a plain scalar, which are indented more than its parent.
def continuation? : Nat → Int → String → Cursor → Option (String × Cursor)
  | 0, _, s, c => some (s, c)
  | n + 1, parent, s, c =>
    match skipBlanks c.rest with
    | '\n' :: cs =>
      let (fold, rest) := folded ('\n' :: cs)
      let next := c.moveTo rest
      if atEnd next || rest.head? == some '#' || (next.column : Int) ≤ parent then some (s, c)
      else
        let (more, rest) := plainSpan false rest
        if rest.head? == some ':' then none
        else continuation? n parent (s ++ String.ofList (fold ++ dropBlanksBack more)) (next.moveTo rest)
    | _ => some (s, c)

mutual

-- A value inside brackets.
def flow : Nat → Cursor → Found
  | 0, _ => none
  | n + 1, c =>
    match c.rest with
    | '[' :: cs => flowItems n [] (gap (c.moveTo cs))
    | '\x7b' :: cs => flowFields n [] (gap (c.moveTo cs))
    | '&' :: _ => do
      let (s, c) := word true c
      let (y, c) ← flow n (gap c)
      return (y, c.name s y)
    | '*' :: _ => do
      let (s, c) := word true c
      return (← c.named.lookup s, c)
    | '!' :: _ => do
      let (s, c) := word true c
      let (y, c) ← flow n (gap c)
      return (tagged s y, c)
    | _ => (piece? true c).map fun (p, c) => (p.value, c)

def flowItems : Nat → List Yaml → Cursor → Found
  | 0, _, _ => none
  | n + 1, done, c =>
    match c.rest with
    | ']' :: cs => some (.list done, c.moveTo cs)
    | _ => do
      let (item, c) ← flow n c
      let c := gap c
      match c.rest with
      | ',' :: cs => flowItems n (done ++ [item]) (gap (c.moveTo cs))
      | ']' :: cs => some (.list (done ++ [item]), c.moveTo cs)
      | _ => none

def flowFields : Nat → List (String × Yaml) → Cursor → Found
  | 0, _, _ => none
  | n + 1, done, c =>
    match c.rest with
    | '\x7d' :: cs => some (.map done, c.moveTo cs)
    | _ => do
      let (key, c) ← piece? true c
      let (value, c) ← match colon? true (gap c) with
        | none => some (.null, c)
        | some c =>
          let c := gap c
          match c.rest with
          | ',' :: _ => some (.null, c)
          | '\x7d' :: _ => some (.null, c)
          | _ => flow n c
      let c := gap c
      let done ← addField? done key value
      match c.rest with
      | ',' :: cs => flowFields n done (gap (c.moveTo cs))
      | '\x7d' :: cs => some (.map done, c.moveTo cs)
      | _ => none

end

mutual

-- A value of a parent at a column. Only at the start of a line or of an item may keys and items begin.
def node : Nat → Bool → Int → Cursor → Found
  | 0, _, _, _ => none
  | n + 1, fresh, parent, c =>
    match c.rest with
    | [] => some (.null, c)
    | '[' :: _ => flow n c
    | '\x7b' :: _ => flow n c
    | '|' :: cs => (block? false parent cs).map fun (s, rest) => (.text s, { c with rest, column := 0 })
    | '>' :: cs => (block? true parent cs).map fun (s, rest) => (.text s, { c with rest, column := 0 })
    | '&' :: _ => do
      let (s, c) := word false c
      let (y, c) ← marked n fresh parent c
      return (y, c.name s y)
    | '!' :: _ => do
      let (s, c) := word false c
      let (y, c) ← marked n fresh parent c
      return (tagged s y, c)
    | '*' :: _ => do
      let (s, c) := word false c
      return (← c.named.lookup s, c)
    | _ =>
      if atItem c then if fresh then items n c.column [] c else none
      else do
        let (p, after) ← piece? false c
        if (colon? false after).isSome then if fresh then fields n c.column [] c else none
        else match p with
          | .quoted s => some (.text s, after)
          | .plain s => (continuation? n parent s after).map fun (s, c) => (ofPlain s, c)

-- A value behind a name or a tag, on the same line or below.
def marked : Nat → Bool → Int → Cursor → Found
  | 0, _, _, _ => none
  | n + 1, fresh, parent, c =>
    if atLineEnd c.rest then do
      let next ← lineGap? c
      if next.rest.isEmpty then some (.null, next)
      else if parent < next.column then node n true parent next
      else if parent == next.column && atItem next then items n next.column [] next
      else some (.null, c)
    else node n fresh parent (c.moveTo (skipBlanks c.rest))

-- The items of a list at a column.
def items : Nat → Nat → List Yaml → Cursor → Found
  | 0, _, _, _ => none
  | n + 1, column, done, c => do
    let c := c.moveTo (c.rest.drop 1)
    let (item, c) ←
      if atLineEnd c.rest then do
        let next ← lineGap? c
        if column < next.column && !next.rest.isEmpty then node n true column next else some (.null, c)
      else node n true column (c.moveTo (skipBlanks c.rest))
    let c ← lineGap? c
    let done := done ++ [item]
    if atEnd c || c.column < column then some (.list done, c)
    else if column < c.column then none
    else if atItem c then items n column done c
    else some (.list done, c)

-- The fields of a map at a column.
def fields : Nat → Nat → List (String × Yaml) → Cursor → Found
  | 0, _, _, _ => none
  | n + 1, column, done, c => do
    let (key, c) ← piece? false c
    let c ← colon? false c
    let (value, c) ←
      if atLineEnd c.rest then do
        let next ← lineGap? c
        if next.rest.isEmpty then some (.null, next)
        else if column < next.column then node n true column next
        else if column == next.column && atItem next then items n column [] next
        else some (.null, next)
      else node n false column (c.moveTo (skipBlanks c.rest))
    let c ← lineGap? c
    let done ← addField? done key value
    if atEnd c || c.column < column then some (.map done, c)
    else if c.column == column then fields n column done c
    else none

end

end Read

-- Passes the lines before the first document that tell about the text itself.
def skipDirectives (cs : List Char) : List Char :=
  if (Text.splitList '\n' cs).any fun l => l.take 3 == ['-', '-', '-'] then
    (((Text.splitList '\n' cs).dropWhile fun l => l.head? == some '%').intersperse ['\n']).flatten
  else cs

-- The first document of a text, or nothing when it is malformed. An empty text is the null document.
def read? (s : String) : Option Yaml := do
  let start := Read.gap { rest := skipDirectives s.toList, column := 0 }
  let start := match start.rest with
    | '-' :: '-' :: '-' :: cs => if endsMark cs then Read.gap (start.moveTo cs) else start
    | _ => start
  if Read.atEnd start then return .null
  let (y, c) ← Read.node (2 * s.length + 2) true (-1) start
  if Read.atEnd (Read.gap c) then some y else none

end Yaml
end ShellScript

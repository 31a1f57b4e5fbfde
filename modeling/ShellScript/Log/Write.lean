import ShellScript.Log.Value
import ShellScript.Text.CaseMap
import ShellScript.Text.Integer
import ShellScript.Text.Rune

-- Log entries: how grave they are, and what is written of them.
namespace ShellScript
namespace Log

-- How grave a log entry is, and in which format entries are written.

structure Level where
  value : Int
deriving Repr, DecidableEq, Inhabited

namespace Level

def trace : Level := ⟨-8⟩
def debug : Level := ⟨-4⟩
def info : Level := ⟨0⟩
def warn : Level := ⟨4⟩
def error : Level := ⟨8⟩

-- The distance from a named level, with its sign.
def relative (base : String) (n : Int) : String :=
  if n == 0 then base else base ++ (if n < 0 then "" else "+") ++ toString n

-- The five levels have names of their own; others are told by their distance from the named one below.
def name (l : Level) : String :=
  if l == trace then "trace"
  else if l == debug then "debug"
  else if l == info then "info"
  else if l == warn then "warn"
  else if l == error then "error"
  else if l.value < 0 then relative "DEBUG" (l.value + 4)
  else if l.value < 4 then relative "INFO" l.value
  else if l.value < 8 then relative "WARN" (l.value - 4)
  else relative "ERROR" (l.value - 8)

def label (l : Level) : String := Text.upper l.name

-- A name with an optional distance. Anything else is the usual level.
def ofText (s : String) : Level :=
  let s := Text.trim s
  if Text.equalFold s "trace" then trace
  else
    let isSign (c : Char) : Bool := c == '+' || c == '-'
    let start := String.ofList (s.toList.takeWhile (!isSign ·))
    let rest := String.ofList (s.toList.dropWhile (!isSign ·))
    let offset := if rest.isEmpty then some 0 else Text.int64? rest
    let base := match Text.upper start with
      | "DEBUG" => some debug
      | "INFO" => some info
      | "WARN" => some warn
      | "ERROR" => some error
      | _ => none
    match base, offset with
    | some b, some n => ⟨Text.wrap64 (b.value + n)⟩
    | _, _ => info

end Level

inductive Format where
  | text
  | json
deriving Repr, DecidableEq, Inhabited

namespace Format

def name : Format → String
  | .text => "text"
  | .json => "json"

def ofText (s : String) : Format := if Text.lower (Text.trim s) == "json" then .json else .text

def nameAt (n : Int) : String := if n == 0 then "text" else if n == 1 then "json" else "unknown"

end Format

-- Log entries as text: a line of `key=value` or a JSON object, each in a plain and a spacious style.

structure Entry where
  level : Level
  message : String
  fields : List Field := []

-- What an entry tells does not depend on the place in the code that it comes from, which is never written here. A stamp
-- stands for itself: layouts that name something of the time are left out.
structure Logger where
  level : Level := .info
  format : Format := .text
  -- the spacious style
  pretty : Bool := true
  -- text that stands where the time would
  stamp : String := ""
  -- fields of every entry
  with_ : List Field := []
  -- the group that an entry's own fields are in
  group : String := ""

-- The stamp for a time layout that names nothing of the time: the layout itself. `none` or blank space means no
-- stamp.
def stampOf (layout : String) : String :=
  let key := (Text.lower layout).toList.filter fun c => Text.isLower c || Text.isDigit c
  if String.ofList key == "none" || (Text.trim layout).isEmpty then "" else layout

-- Whether a text in a plain line needs quotes.
def needsQuotes (s : String) : Bool :=
  s.isEmpty || (Text.runes s).any fun r => match r with
    | .stray _ => true
    | .char c =>
      if c.toNat < 0x80 then c == ' ' || c == '=' || c == '"' || c.toNat < 0x20
      else c == Text.replacement || Text.isSpace c || !Text.isPrintable c

def bare (s : String) : String := if needsQuotes s then Text.quoted s else s

-- A key behind its group.
def groupedKey (before key : String) : String :=
  if before.isEmpty then bare key
  else if needsQuotes before || needsQuotes key then Text.quoted (before ++ key)
  else before ++ key

-- A plain entry in the making.
structure Line where
  json : Bool
  out : String := ""
  -- what comes before the next key
  sep : String := ""
  -- the groups that a line's keys are in, each with a dot
  before : String := ""

namespace Line

def key (l : Line) (k : String) : Line :=
  if l.json then { l with out := l.out ++ l.sep ++ jsonText false false k ++ ":", sep := "," }
  else { l with out := l.out ++ l.sep ++ groupedKey l.before k ++ "=", sep := " " }

def openGroup (l : Line) (name : String) : Line :=
  if l.json then { l.key name with out := (l.key name).out ++ "\x7b", sep := "" }
  else { l with before := l.before ++ name ++ "." }

def closeGroup (l : Line) (name : String) : Line :=
  if l.json then { l with out := l.out ++ "\x7d", sep := "," }
  else { l with before := Text.dropBack (name.length + 1) l.before }

def value (l : Line) (v : Value) : Line :=
  let s := if l.json then
      match v with
      | .text s | .error s => jsonText false false s
      | .int n | .duration n => toString n
      | .float x => jsonNumber x
      | .bool b => boolText b
      | .item x => x.json false
      | .group _ => ""
    else match v with
      | .text s | .error s => bare s
      | .item x => bare x.plain
      | _ => v.plain
  { l with out := l.out ++ s }

mutual

-- The line with a field, and whether the field left anything. A group without a name does not show; one that
-- turns out empty is taken back, but not the separator before it.
def field (l : Line) : String → Value → Line × Bool
  | name, .group fs =>
    if fs.isEmpty then (l, true)
    else
      let opened := if name.isEmpty then l else l.openGroup name
      match fields opened fs with
      | (done, true) => (if name.isEmpty then done else done.closeGroup name, true)
      | (done, false) => ({ done with out := l.out }, false)
  | name, v => if Field.isEmpty (name, v) then (l, false) else ((l.key name).value v, true)

def fields (l : Line) : List (String × Value) → Line × Bool
  | [] => (l, false)
  | (name, v) :: fs =>
    let (l, a) := field l name v
    let (l, b) := fields l fs
    (l, a || b)

end

-- Appends fields that were written on their own, unless they left nothing.
def append (l : Line) : Line × Bool → Line
  | (_, false) => l
  | (more, true) =>
    if more.out.isEmpty then { l with before := more.before }
    else { l with out := l.out ++ l.sep ++ more.out, before := more.before }

end Line

-- An entry in the plain style. Groups without any field are left out.
def plainEntry (lg : Logger) (e : Entry) : String :=
  let json := lg.format == .json
  let start : Line := { json, out := if json then "\x7b" else "" }
  let heads : List Field := (if lg.stamp.isEmpty then [] else [("time", .text lg.stamp)])
    ++ [("level", .text e.level.label), ("msg", .text e.message)]
  let l := (start.fields heads).1
  let l := l.append (({ json } : Line).fields lg.with_)
  let own := e.fields.filter fun f => !f.2.isEmptyGroup
  let l :=
    if own.isEmpty then l
    else
      let opened := if lg.group.isEmpty then l else l.openGroup lg.group
      match opened.fields own with
      | (done, true) => if lg.group.isEmpty || !json then done else { done with out := done.out ++ "\x7d" }
      | (_, false) => l
  l.out ++ (if json then "\x7d" else "") ++ "\n"

-- A carriage return before a line's end belongs to it.
def joinReturns : List Char → List Char
  | [] => []
  | '\r' :: '\n' :: cs => '\n' :: joinReturns cs
  | c :: cs => c :: joinReturns cs

-- Text laid out as a block: tabs are four blanks, and all lines are as wide as the widest one.
def blockText (s : String) : String :=
  let s := String.ofList (joinReturns (Text.replaceChar '\t' [' ', ' ', ' ', ' '] s).toList)
  match Text.splitAt '\n' s with
  | [_] => s
  | lines =>
    let width := lines.foldl (fun w l => max w (Text.runeCount l)) 0
    Text.joinWith "\n" (lines.map fun l => l ++ Text.replicate (width - Text.runeCount l) " ")

def prettyText : Value → String
  | .bool b => boolText b
  | .int n => toString n
  | .float x => floatText x
  | .duration ns => Text.duration ns
  | .item .null => "<nil>"
  | v =>
    let s := v.plain
    blockText (if s.toList.any fun c => c == ' ' || c == '\t' || c == '\n' || c == '"' || c == '=' then Text.quoted s else s)

mutual

-- The fields of a spacious line, each with a blank before it.
def prettyField (before : String) : String → Value → String
  | name, .group fs => prettyFields (if name.isEmpty then before else before ++ name ++ ".") fs
  | name, v => if Field.isEmpty (name, v) then "" else " " ++ blockText (before ++ name ++ "=") ++ prettyText v

def prettyFields (before : String) : List (String × Value) → String
  | [] => ""
  | (name, v) :: fs => prettyField before name v ++ prettyFields before fs

end

def prettyLine (lg : Logger) (e : Entry) : String :=
  let own := e.fields.filter fun f => !f.2.isEmptyGroup
  (if lg.stamp.isEmpty then "" else blockText lg.stamp ++ " ") ++ Text.padRight 5 e.level.label ++ " " ++ e.message
    ++ prettyFields "" lg.with_
    ++ prettyFields (if lg.group.isEmpty then "" else lg.group ++ ".") own ++ "\n"

def prettyJsonValue : Value → String
  | .bool b => boolText b
  | .int n => toString n
  | .float x => floatText x
  | .item x => blockText (x.json true)
  | v => blockText (Text.quoted v.plain)

mutual

def prettyMember (depth : Nat) : String → Value → String
  | name, .group fs => blockText (Text.quoted name) ++ ": " ++ prettyObject (depth + 1) fs
  | name, v => blockText (Text.quoted name) ++ ": " ++ prettyJsonValue v
termination_by _ v => (sizeOf v, 0)

-- Every member stands on a line of its own.
def prettyObject (depth : Nat) : List (String × Value) → String
  | fs => "\x7b" ++ prettyMembers depth true fs ++ "\n" ++ Text.replicate (depth - 1) "  " ++ "\x7d"
termination_by fs => (sizeOf fs, 1)

def prettyMembers (depth : Nat) (first : Bool) : List (String × Value) → String
  | [] => ""
  | (name, v) :: fs =>
    if Field.isEmpty (name, v) then prettyMembers depth first fs
    else (if first then "" else ",") ++ "\n" ++ Text.replicate depth "  " ++ prettyMember depth name v
      ++ prettyMembers depth false fs
termination_by fs => (sizeOf fs, 0)

end

def prettyJson (lg : Logger) (e : Entry) : String :=
  let own := e.fields.filter fun f => !f.2.isEmptyGroup
  prettyObject 1 ((if lg.stamp.isEmpty then [] else [("time", Value.text lg.stamp)])
    ++ [("level", Value.text e.level.label), ("msg", Value.text e.message)] ++ lg.with_ ++ own) ++ "\n"

-- What an entry writes; nothing when it is not grave enough.
def Logger.write (lg : Logger) (e : Entry) : String :=
  if e.level.value < lg.level.value then ""
  else if !lg.pretty then plainEntry lg e
  else match lg.format with
    | .text => prettyLine lg e
    | .json => prettyJson lg e

end Log
end ShellScript

import ShellScript.Script.Tree
import ShellScript.Text.Rune

-- Backslashes in literal text and what they stand for in each kind of quotation, and what can be said about a word without
-- running anything.
namespace ShellScript
namespace Script

-- Outside quotes a backslash keeps the next character and disappears; before a newline both disappear.
def unescapeList : List Char → List Char
  | '\\' :: '\n' :: cs => unescapeList cs
  | '\\' :: c :: cs => c :: unescapeList cs
  | c :: cs => c :: unescapeList cs
  | [] => []

-- Text without backslashes stays as it is.
theorem unescapeList_append {cs : List Char} (h : '\\' ∉ cs) (ds : List Char) :
    unescapeList (cs ++ ds) = cs ++ unescapeList ds := by
  induction cs with
  | nil => rfl
  | cons c cs ih =>
      rw [List.mem_cons, not_or] at h
      rw [List.cons_append, unescapeList, ih h.2, List.cons_append]
      · rintro _ rfl
        exact absurd rfl h.1
      · rintro _ _ rfl
        exact absurd rfl h.1

def unescape (s : String) : String := String.ofList (unescapeList s.toList)

-- Inside double quotes a backslash is special only before a dollar sign, a backquote, a double quote, a
-- backslash or a newline.
def unescapeDoubleList : List Char → List Char
  | '\\' :: '\n' :: cs => unescapeDoubleList cs
  | '\\' :: c :: cs =>
    if c == '$' || c == Text.backquote || c == '"' || c == '\\' then c :: unescapeDoubleList cs
    else '\\' :: unescapeDoubleList (c :: cs)
  | c :: cs => c :: unescapeDoubleList cs
  | [] => []

def unescapeDouble (s : String) : String := String.ofList (unescapeDoubleList s.toList)

-- At most `n` leading digits of a base, their value, and what follows them.
def digits (value? : Char → Option Nat) (base : Nat) : Nat → List Char → Nat × Nat × List Char
  | 0, cs => (0, 0, cs)
  | n + 1, cs => go (n + 1) 0 0 cs
where
  go : Nat → Nat → Nat → List Char → Nat × Nat × List Char
    | 0, count, v, cs => (count, v, cs)
    | _ + 1, count, v, [] => (count, v, [])
    | n + 1, count, v, c :: cs =>
      match value? c with
      | some d => go n (count + 1) (v * base + d) cs
      | none => (count, v, c :: cs)

-- The bytes of the character with a number; a number without a character gives the replacement character.
def charBytes (n : Nat) : List Char := Text.utf8 (if n.isValidChar then Char.ofNat n else Text.replacement)

-- The control character that a letter after a backslash stands for.
def controlOf? : Char → Option Char
  | 'a' => some '\x07'
  | 'b' => some '\x08'
  | 'e' => some '\x1b'
  | 'E' => some '\x1b'
  | 'f' => some '\x0c'
  | 'n' => some '\n'
  | 'r' => some '\r'
  | 't' => some '\t'
  | 'v' => some '\x0b'
  | _ => none

-- The escapes of `$'...'`.
def unescapeAnsiList : Nat → List Char → List Char
  | 0, cs => cs
  | _ + 1, [] => []
  | n + 1, '\\' :: c :: cs =>
    match controlOf? c with
    | some k => k :: unescapeAnsiList n cs
    | none =>
      if c == '\\' || c == '\'' || c == '"' || c == '?' then c :: unescapeAnsiList n cs
      else if c == 'c' then
        match cs with
        | [] => []
        | k :: cs => Char.ofNat (k.toNat % 32) :: unescapeAnsiList n cs
      else if c == 'x' || c == 'u' || c == 'U' then
        let width := if c == 'x' then 2 else if c == 'u' then 4 else 8
        match digits Text.hexValue? 16 width cs with
        | (0, _, _) => '\\' :: c :: unescapeAnsiList n cs
        | (_, v, rest) => (if c == 'x' then [Char.ofNat v] else charBytes v) ++ unescapeAnsiList n rest
      else
        match digits Text.octalValue? 8 3 (c :: cs) with
        | (0, _, _) => '\\' :: c :: unescapeAnsiList n cs
        | (_, v, rest) => Char.ofNat (min v 255) :: unescapeAnsiList n rest
  | n + 1, c :: cs => c :: unescapeAnsiList n cs

-- The result is valid UTF-8: stray bytes are replaced.
def unescapeAnsi (s : String) : String :=
  Text.toValid (String.ofList (unescapeAnsiList (s.toList.length + 1) s.toList))

-- The backslashes that protect characters inside a backquoted command.
def unescapeBackquote (inDouble : Bool) : List Char → List Char
  | '\\' :: c :: cs =>
    if c == '\\' || c == Text.backquote || c == '$' || (inDouble && c == '"') then
      c :: unescapeBackquote inDouble cs
    else '\\' :: unescapeBackquote inDouble (c :: cs)
  | c :: cs => c :: unescapeBackquote inDouble cs
  | [] => []

-- A backquoted command as it is written.
def escapeBackquote (inDouble : Bool) (cs : List Char) : List Char :=
  cs.flatMap fun c =>
    if c == '\\' || c == Text.backquote || (inDouble && c == '"') then ['\\', c] else [c]

-- Words without expansions.

mutual

-- The text that a part without expansions stands for.
def WordPart.value? (quoted : Bool) : WordPart → Option String
  | .lit _ s => some (if quoted then unescapeDouble s else unescape s)
  | .single _ dollar s => some (if dollar then unescapeAnsi s else s)
  | .double _ _ ps => partsValue? true ps
  | _ => none

def partsValue? (quoted : Bool) : List WordPart → Option String
  | [] => some ""
  | p :: ps =>
    match p.value? quoted, partsValue? quoted ps with
    | some a, some b => some (a ++ b)
    | _, _ => none

end

mutual

def WordPart.isStatic : WordPart → Bool
  | .lit _ _ => true
  | .single _ _ _ => true
  | .double _ _ ps => staticParts ps
  | .brace _ _ ws => staticWords ws
  | _ => false

def staticParts : List WordPart → Bool
  | [] => true
  | p :: ps => p.isStatic && staticParts ps

def Word.isStatic : Word → Bool
  | ⟨ps⟩ => staticParts ps

def staticWords : List Word → Bool
  | [] => true
  | w :: ws => w.isStatic && staticWords ws

end

-- An unescaped pattern character.
def hasPatternChar : List Char → Bool
  | '\\' :: _ :: cs => hasPatternChar cs
  | c :: cs => c == '*' || c == '?' || c == '[' || hasPatternChar cs
  | [] => false

def WordPart.isPattern : WordPart → Bool
  | .lit _ s => hasPatternChar s.toList
  | _ => false

namespace Word

-- The text of a word that has neither expansions nor braces, without its quoting.
def value? (w : Word) : Option String := partsValue? false w.parts

-- Whether its unquoted text has an unescaped pattern character.
def hasGlob (w : Word) : Bool := w.parts.any WordPart.isPattern

end Word

end Script
end ShellScript

import ShellScript.Number.Written
import ShellScript.Script.Word
import ShellScript.Text.Rune
import ShellScript.Text.Quoted

-- Formatting values under a specification such as `%-8.3f`, and the formats of `printf`.
namespace ShellScript
namespace Machine

-- A value together with the name of its type, which only a misuse shows.
inductive FormatValue where
  | text (s : String)
  | char (c : Char)
  | int (n : Int)
  | nat (n : Nat)
  | float (x : Binary64)
deriving Repr, Inhabited

def FormatValue.typeName : FormatValue → String
  | .text _ => "string"
  | .char _ => "int32"
  | .int _ => "int64"
  | .nat _ => "uint64"
  | .float _ => "float64"

structure FormatSpec where
  sharp : Bool := false
  zero : Bool := false
  plus : Bool := false
  minus : Bool := false
  space : Bool := false
  width : Option Nat := none
  prec : Option Nat := none
deriving Repr, Inhabited

namespace FormatSpec

-- Fills up to the width, on the right or on the left; only the left side may have zeros.
def pad (f : FormatSpec) (s : String) : String :=
  let n := (f.width.getD 0) - Text.runeCount s
  let fill := String.ofList (List.replicate n (if f.zero && !f.minus then '0' else ' '))
  if f.minus then s ++ fill else fill ++ s

def truncate (f : FormatSpec) (s : String) : String :=
  match f.prec with
  | none => s
  | some n => Text.ofRunes ((Text.runes s).take n)

def integer (f : FormatSpec) (base : Nat) (upper : Bool) (negative : Bool) (n : Nat) : String :=
  if f.prec == some 0 && n == 0 then { f with zero := false }.pad ""
  else
    let least := match f.prec with
      | some p => p
      | none =>
        if f.zero && !f.minus then (f.width.getD 0) - (if negative || f.plus || f.space then 1 else 0) else 0
    let digits := (Nat.toDigits base n).map fun c => if upper then c.toUpper else c
    let digits := List.replicate (least - digits.length) '0' ++ digits
    let digits :=
      if !f.sharp then digits
      else if base == 8 then (if digits.head? == some '0' then digits else '0' :: digits)
      else if base == 16 then '0' :: (if upper then 'X' else 'x') :: digits
      else digits
    let sign := if negative then ['-'] else if f.plus then ['+'] else if f.space then [' '] else []
    { f with zero := false }.pad (String.ofList (sign ++ digits))

def isDigitOrPoint (c : Char) : Bool := Text.isDigit c || c == '.'

-- A point is always shown, and in general style trailing zeros up to the precision.
def sharpened (style : Binary64.Style) (prec : Option Nat) (s : String) : String :=
  let body := s.toList.takeWhile isDigitOrPoint
  let tail := s.toList.drop body.length
  let significant := (body.filter (· != '.')).dropWhile (· == '0')
  let wanted : Int := if style == .general then ((prec.getD 6 : Nat) : Int) else 0
  let hasPoint := body.contains '.'
  let left := wanted - significant.length - (if !hasPoint && body == ['0'] then 1 else 0)
  String.ofList (body ++ (if hasPoint then [] else ['.']) ++ List.replicate left.toNat '0' ++ tail)

def float (f : FormatSpec) (style : Binary64.Style) (upper : Bool) (x : Binary64) : String :=
  let prec := match f.prec, style with
    | some p, _ => some p
    | none, .general => none
    | none, _ => some 6
  let mark := if upper then 'E' else 'e'
  let sign (negative : Bool) := if negative then "-" else if f.plus then "+" else if f.space then " " else ""
  match x with
  | .nan => { f with zero := false }.pad ((if f.plus then "+" else if f.space then " " else "") ++ "NaN")
  | .infinite negative =>
    { f with zero := false }.pad ((if negative then "-" else if f.space && !f.plus then " " else "+") ++ "Inf")
  | .finite negative m e =>
    let digits := Binary64.unsigned style mark prec m e
    let digits := if f.sharp then sharpened style prec digits else digits
    let s := sign negative
    if s != "" && f.zero && !f.minus then
      s ++ { f with width := f.width.map (· - 1) }.pad digits
    else f.pad (s ++ digits)

-- The value in its default form.
def plain (f : FormatSpec) : FormatValue → String
  | .text s => f.pad (f.truncate s)
  | .char c => f.integer 10 false false c.toNat
  | .int n => f.integer 10 false (n < 0) n.natAbs
  | .nat n => f.integer 10 false false n
  | .float x => f.float .general false x

-- What stands in place of a value whose letter makes no sense for it.
def misfit (f : FormatSpec) (verb : Char) (v : FormatValue) : String :=
  "%!" ++ String.ofList (Text.utf8 verb) ++ "(" ++ v.typeName ++ "=" ++ f.plain v ++ ")"

def value (f : FormatSpec) (verb : Char) (v : FormatValue) : String :=
  match v, verb with
  | .text s, 's' => f.pad (f.truncate s)
  | .char c, 'c' => f.pad (String.ofList (Text.utf8 c))
  | .int n, 'd' => f.integer 10 false (n < 0) n.natAbs
  | .nat n, 'd' => f.integer 10 false false n
  | .nat n, 'o' => f.integer 8 false false n
  | .nat n, 'x' => f.integer 16 false false n
  | .nat n, 'X' => f.integer 16 true false n
  | .float x, 'e' => f.float .exponent false x
  | .float x, 'E' => f.float .exponent true x
  | .float x, 'f' => f.float .fixed false x
  | .float x, 'g' => f.float .general false x
  | .float x, 'G' => f.float .general true x
  | _, _ => f.misfit verb v

def readFlags : FormatSpec → List Char → FormatSpec × List Char
  | f, c :: cs =>
    match c with
    | '#' => readFlags { f with sharp := true } cs
    | '0' => readFlags { f with zero := true } cs
    | '+' => readFlags { f with plus := true } cs
    | '-' => readFlags { f with minus := true } cs
    | ' ' => readFlags { f with space := true } cs
    | _ => (f, c :: cs)
  | f, [] => (f, [])

-- No digit may follow a number larger than this.
def maxLead : Nat := 1000000

-- A number, if one stands here. One that is too large swallows the whole specification.
def readNumber (cs : List Char) : Option Nat × List Char :=
  let ds := cs.takeWhile Text.isDigit
  if ds.isEmpty then (none, cs)
  else match Text.natOfDigits? 10 0 ds with
    | some n => if n / 10 > maxLead then (none, []) else (some n, cs.drop ds.length)
    | none => (none, [])

-- Formats a value under a specification, given without its percent sign. What follows the letter is copied.
def format (spec : String) (v : FormatValue) : String :=
  let (f, cs) := readFlags {} spec.toList
  let (width, cs) := readNumber cs
  let f := { f with width }
  let (f, cs) := match cs with
    | '.' :: cs =>
      let (prec, cs) := readNumber cs
      ({ f with prec := some (prec.getD 0) }, cs)
    | cs => (f, cs)
  match cs with
  | [] => "%!(NOVERB)%!(EXTRA " ++ v.typeName ++ "=" ++ ({} : FormatSpec).plain v ++ ")"
  | verb :: rest => f.value verb v ++ String.ofList rest

end FormatSpec

-- The escapes of `printf` formats and of `echo -e`; the latter writes octal numbers as `\0nnn`.
namespace Escapes

def numeric (value? : Char → Option Nat) (base width : Nat) (bytes : Bool) (lead : List Char) (cs : List Char) :
    List Char × List Char :=
  let ds := (cs.take width).takeWhile fun c => (value? c).isSome
  let rest := cs.drop ds.length
  if ds.isEmpty then (if base == 8 then ['\x00'] else lead, rest)
  else
    let n := ds.foldl (fun n c => n * base + (value? c).getD 0) 0
    if bytes then ([Char.ofNat (n % 256)], rest) else (Script.charBytes n, rest)

-- The text of an escape and what is left, given what follows the backslash. Nothing means: stop here.
def decode (echo : Bool) : List Char → Option (List Char × List Char)
  | [] => some (['\\'], [])
  | c :: cs =>
    match c with
    | 'a' => some (['\x07'], cs)
    | 'b' => some (['\x08'], cs)
    | 'c' => none
    | 'e' => some (['\x1b'], cs)
    | 'E' => some (['\x1b'], cs)
    | 'f' => some (['\x0c'], cs)
    | 'n' => some (['\n'], cs)
    | 'r' => some (['\r'], cs)
    | 't' => some (['\t'], cs)
    | 'v' => some (['\x0b'], cs)
    | '\\' => some (['\\'], cs)
    | 'x' => some (numeric Text.hexValue? 16 2 true ['\\', c] cs)
    | 'u' => some (numeric Text.hexValue? 16 4 false ['\\', c] cs)
    | 'U' => some (numeric Text.hexValue? 16 8 false ['\\', c] cs)
    | _ =>
      if (c == '"' || c == '\'') && !echo then some ([c], cs)
      else if (Text.octalValue? c).isSome then
        if !echo then some (numeric Text.octalValue? 8 3 true [] (c :: cs))
        else if c == '0' then some (numeric Text.octalValue? 8 3 true [] cs)
        else some (['\\', c], cs)
      else some (['\\', c], cs)

def decodeAll (echo : Bool) : Nat → List Char → List Char × Bool
  | 0, _ => ([], false)
  | _ + 1, [] => ([], false)
  | n + 1, c :: cs =>
    if c != '\\' then
      let (a, stop) := decodeAll echo n cs
      (c :: a, stop)
    else match decode echo cs with
      | none => ([], true)
      | some (text, rest) =>
        let (a, stop) := decodeAll echo n rest
        (text ++ a, stop)

-- The text with its escapes resolved, and whether output stops there.
def resolve (echo : Bool) (s : String) : String × Bool :=
  let (cs, stop) := decodeAll echo (s.length + 1) s.toList
  (String.ofList cs, stop)

end Escapes

-- One use of `printf`: what is written, the arguments not used yet and how many have been, and complaints.
structure Printing where
  out : List String := []
  args : List String := []
  used : Nat := 0
  errors : List String := []
  failed : Bool := false
deriving Inhabited

namespace Printing

def add (p : Printing) (s : String) : Printing := { p with out := s :: p.out }

def next (p : Printing) : String × Printing :=
  match p.args with
  | [] => ("", p)
  | a :: args => (a, { p with args, used := p.used + 1 })

def complain (p : Printing) (s : String) : Printing := { p with errors := p.errors ++ [s] }

-- A character after a quote stands for its number.
def charCode? (a : String) : Option Nat :=
  match a.toList with
  | q :: c :: cs => if q == '\'' || q == '"' then some (Text.leading c cs).1.value.toNat else none
  | _ => none

def integer (p : Printing) (a : String) : Int × Printing :=
  match charCode? a with
  | some n => (n, p)
  | none =>
    let a := Text.trim a
    if a.isEmpty then (0, p)
    else match Text.int64 0 a with
      | .ok n => (n, p)
      | .tooLarge n =>
        match Text.uint64 0 a.toList with
        | some (u, true) => (Text.wrap64 u, p)
        | _ => (n, p.complain (a ++ ": invalid number"))
      | .malformed => (0, p.complain (a ++ ": invalid number"))

def float (p : Printing) (a : String) : Binary64 × Printing :=
  match charCode? a with
  | some n => (.ofInt n, p)
  | none =>
    let a := Text.trim a
    if a.isEmpty then (.zero, p)
    else match Binary64.read? a with
      | some x => (x, if Binary64.overflows a then p.complain (a ++ ": invalid number") else p)
      | none => (.zero, p.complain (a ++ ": invalid number"))

-- A width or precision taken from the arguments.
def star (p : Printing) : String × Printing :=
  let (a, p) := p.next
  match Text.int64 10 (Text.trim a) with
  | .ok n => (toString n, p)
  | .tooLarge n => (toString n, p.complain (a ++ ": invalid number"))
  | .malformed => ("0", if a.isEmpty then p else p.complain (a ++ ": invalid number"))

-- A number or a star.
def number (p : Printing) (cs : List Char) : String × Printing × List Char :=
  match cs with
  | '*' :: cs =>
    let (n, p) := p.star
    (n, p, cs)
  | _ =>
    let ds := cs.takeWhile Text.isDigit
    (String.ofList ds, p, cs.drop ds.length)

def asNat (n : Int) : Nat := (n % 18446744073709551616).toNat

-- The letter of a conversion. Says whether to go on.
def convert (p : Printing) (spec : String) (verb : Char) : Printing × Bool :=
  let (arg, p) := p.next
  match verb with
  | 's' => (p.add (FormatSpec.format (spec ++ "s") (.text arg)), true)
  | 'q' => (p.add (FormatSpec.format (spec ++ "s") (.text (Text.shellQuoted arg))), true)
  | 'b' =>
    let (text, stop) := Escapes.resolve true arg
    (p.add (FormatSpec.format (spec ++ "s") (.text text)), !stop)
  | 'c' =>
    match Text.uncons? arg.toList with
    | some (r, _) => (p.add (FormatSpec.format (spec ++ "c") (.char r.value)), true)
    | none => (p, true)
  | 'd' | 'i' =>
    let (n, p) := p.integer arg
    (p.add (FormatSpec.format (spec ++ "d") (.int n)), true)
  | 'u' =>
    let (n, p) := p.integer arg
    (p.add (FormatSpec.format (spec ++ "d") (.nat (asNat n))), true)
  | 'o' | 'x' | 'X' =>
    let (n, p) := p.integer arg
    (p.add (FormatSpec.format (spec.push verb) (.nat (asNat n))), true)
  | 'e' | 'E' | 'f' | 'g' | 'G' =>
    let (x, p) := p.float arg
    (p.add (FormatSpec.format (spec.push verb) (.float x)), true)
  | 'F' =>
    let (x, p) := p.float arg
    (p.add (FormatSpec.format (spec ++ "f") (.float x)), true)
  | _ =>
    let shown := String.ofList (Text.utf8 verb)
    ({ p.complain ("\x60" ++ shown ++ "': invalid format character") with failed := true }, false)

-- A conversion, given what follows its percent sign. Gives what is left of the format, if output goes on.
def directive (p : Printing) (cs : List Char) : Printing × Option (List Char) :=
  match cs with
  | '%' :: rest => (p.add "%", some rest)
  | _ =>
    let flags := cs.takeWhile ("-+ #0'".toList.contains ·)
    let (width, p, rest) := p.number (cs.drop flags.length)
    let (prec, p, rest) := match rest with
      | '.' :: rest =>
        let (n, p, rest) := p.number rest
        ("." ++ n, p, rest)
      | rest => ("", p, rest)
    let rest := rest.dropWhile ("hlLjzt".toList.contains ·)
    match rest with
    | [] =>
      ({ p.complain ("\x60%" ++ String.ofList cs ++ "': missing format character") with failed := true }, none)
    | verb :: rest =>
      let spec := String.ofList (flags.filter (· != '\'')) ++ width ++ prec
      let (p, goOn) := p.convert spec verb
      (p, if goOn then some rest else none)

-- One pass over the format. Says whether output goes on.
def pass : Nat → Printing → List Char → Printing × Bool
  | 0, p, _ => (p, true)
  | _ + 1, p, [] => (p, true)
  | n + 1, p, c :: cs =>
    if c == '\\' then
      match Escapes.decode false cs with
      | none => (p, false)
      | some (text, rest) => pass n (p.add (String.ofList text)) rest
    else if c == '%' then
      match p.directive cs with
      | (p, some rest) => pass n p rest
      | (p, none) => (p, false)
    else pass n (p.add (String.singleton c)) cs

-- Repeats the format while it uses up arguments.
def passes (format : String) : Nat → Printing → Printing
  | 0, p => p
  | n + 1, p =>
    let before := p.used
    let (p, goOn) := pass (format.length + 1) p format.toList
    if !goOn || p.args.isEmpty || p.used == before then p else passes format n p

def run (format : String) (args : List String) : Printing := passes format (args.length + 1) { args }

def text (p : Printing) : String := String.join p.out.reverse

end Printing
end Machine
end ShellScript

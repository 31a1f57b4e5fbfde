import ShellScript.Dependency.Condition.Clock
import ShellScript.Dependency.Condition.Json
import ShellScript.Project.Identity
import ShellScript.Text.Notation
import ShellScript.Text.Rune

-- The functions that a condition can call.
namespace ShellScript
namespace Dependency
namespace Condition

-- The place of an index; one from the end is negative.
def placeOf? (size : Nat) (i : Int) : Option Nat :=
  let i := if i < 0 then i + size else i
  if i < 0 || i ≥ size then none else some i.toNat

def byteAt? (s : String) (i : Int) : Option Value := do
  let n ← placeOf? s.length i
  let c ← s.toList[n]?
  return .int .byte c.toNat

def entryOf (es : List (String × Value)) (k : String) : Value := (es.lookup k).getD .null

def groupOf (es : List (Value × Value)) (k : Value) : Value :=
  ((es.find? fun e => e.1.exact k).map (·.2)).getD (.noList .any)

-- A member of a value. An entry that is not there is nothing, but an element or a field that is not there is a
-- failure.
def member? (v key : Value) : Option Value :=
  match v, key with
  | .usage u, .text k => usageValue? u k
  | .subject s, .text k => subjectValue? s k
  | .duration n, .text k => (durationMember? n k).map .func
  | .time t, .text k => (t.member? k).map .func
  | .table es, .text k => some (entryOf es k)
  | .table es, .null => some (entryOf es "")
  | .groups es, k => if k.isKey then some (groupOf es k) else none
  | .text s, k => do byteAt? s (← k.int?)
  | v, k => do
    let (_, vs) ← v.items?
    vs[← placeOf? vs.length (← k.int?)]?

-- As `member?`, but what is not there is nothing.
def get? (v key : Value) : Option Value :=
  match v, key with
  | .null, _ => some .null
  | .usage _, .text _ | .subject _, .text _ => some ((member? v key).getD .null)
  | .duration _, _ | .time _, .text _ => some ((member? v key).getD .null)
  | .table es, .text k => some (entryOf es k)
  | .table es, .null => some (entryOf es "")
  | .groups es, k =>
    if k.isKey then some (((es.find? fun e => e.1.exact k).map (·.2)).getD .null) else none
  | .text s, k => do return (byteAt? s (← k.int?)).getD .null
  | .bool _, _ | .int _ _, _ | .float _, _ | .func _, _ => some .null
  | v, k => do
    let (_, vs) ← v.items?
    let i ← k.int?
    return ((placeOf? vs.length i).bind (vs[·]?)).getD .null

-- The part of a list between two bounds, which are brought inside it first.
def sliceOf {α : Type} (xs : List α) (from_ to_ : Int) : List α :=
  let n : Int := xs.length
  let fit (i : Int) : Int := max 0 (if i < 0 then i + n else i)
  let b := min n (fit to_)
  let a := min b (fit from_)
  (xs.drop a.toNat).take (b - a).toNat

-- The first place of a text in another one.
def indexIn (needle : List Char) : Nat → List Char → Option Nat
  | i, [] => if needle.isEmpty then some i else none
  | i, c :: cs => if needle.isPrefixOf (c :: cs) then some i else indexIn needle (i + 1) cs

def index (s t : String) : Int := ((indexIn t.toList 0 s.toList).map Int.ofNat).getD (-1)

def lastIndex (s t : String) : Int :=
  match indexIn t.toList.reverse 0 s.toList.reverse with
  | some i => (s.length : Int) - i - t.length
  | none => -1

-- The parts between separators, of which `cuts` are used at most; with `keep` a separator stays with the part before
-- it.
def parts (sep : List Char) (keep : Bool) : Nat → Nat → List Char → List Char → List String
  | _, _, acc, [] => [String.ofList acc.reverse]
  | 0, _, acc, cs => [String.ofList (acc.reverse ++ cs)]
  | _, 0, acc, cs => [String.ofList (acc.reverse ++ cs)]
  | fuel + 1, cuts + 1, acc, c :: cs =>
    if sep.isPrefixOf (c :: cs) then
      String.ofList (acc.reverse ++ (if keep then sep else [])) ::
        parts sep keep fuel cuts [] ((c :: cs).drop sep.length)
    else parts sep keep fuel (cuts + 1) (c :: acc) cs

-- The first characters one by one, and the rest as the last part.
def characters (n : Nat) (s : String) : List String :=
  let rs := (Text.runes s).map fun r => String.ofList r.bytes
  if n ≥ rs.length then rs
  else if n == 0 then []
  else rs.take (n - 1) ++ [String.join (rs.drop (n - 1))]

-- A text in at most `limit` parts; a negative limit is none.
def split (s sep : String) (keep : Bool) (limit : Int) : Value :=
  if limit == 0 then .noList .text
  else
    let n := if limit < 0 then s.length + 1 else limit.toNat
    if sep.isEmpty then .ofTexts (characters n s)
    else .ofTexts (parts sep.toList keep (s.length + 1) (n - 1) [] s.toList)

-- Puts a text before each of the first characters, and behind all of them if there are fewer.
def insertBetween (t : String) (n : Nat) (s : String) : String :=
  let rs := (Text.runes s).map fun r => String.ofList r.bytes
  let front := (rs.take n).map (t ++ ·)
  String.join front ++ (if n > rs.length then t else String.join (rs.drop n))

def replace (s old new : String) (limit : Int) : String :=
  let n := if limit < 0 then s.length + 1 else limit.toNat
  if old.isEmpty then insertBetween new n s
  else Text.joinWith new (parts old.toList false (s.length + 1) n [] s.toList)

def trimSet (s set : String) : String :=
  let cut := (Text.runes set).map Text.Rune.value
  let inSet (r : Text.Rune) : Bool := cut.contains r.value
  let rs := (Text.runes s).dropWhile inSet
  Text.ofRunes (rs.reverse.dropWhile inSet).reverse

def texts? (vs : List Value) : Option (List String) := vs.mapM Value.text?

-- Values in ascending order; none if some cannot be compared.
def sorted? {α : Type} (descending : Bool) (key : α → Value) (vs : List α) : Option (List α) :=
  match vs with
  | [] => some []
  | [v] => some [v]
  | first :: rest =>
    if rest.all fun v => ((key first).order? (key v)).isSome then
      some (vs.mergeSort fun a b =>
        !(if descending then (key a).less? (key b) == some true else (key b).less? (key a) == some true))
    else none

def descending? : Value → Option Bool
  | .text "asc" => some false
  | .text "desc" => some true
  | _ => none

mutual

-- The numbers among the arguments, also those in lists; none if there is anything else.
def numbers? : Value → Option (List Value)
  | .int k n => some [.int k n]
  | .float x => some [.float x]
  | .list _ vs => numbersAll? vs
  | .noList _ => some []
  | _ => none

def numbersAll? : List Value → Option (List Value)
  | [] => some []
  | v :: vs => do return (← numbers? v) ++ (← numbersAll? vs)

end

-- Every element has to hold a number.
def extreme? (better : Value → Value → Bool) (args : List Value) : Option Value :=
  let pick (m : Option Value) (v : Value) : Option Value :=
    match m with
    | none => some v
    | some m => if better v m then some v else some m
  match args with
  | [.null] | [.text _] | [.bool _] | [.table _] | [.groups _] | [.usage _] | [.subject _] | [.duration _] | [.time _]
  | [.func _] => args.head?
  | _ => do
    let ns ← numbersAll? args
    let filled := args.all fun v => match v with
      | .list _ vs => vs.all fun w => match w with
        | .list _ [] | .noList _ => false
        | _ => true
      | _ => true
    if filled then return (ns.foldl pick none).getD .null else none

def total (ns : List Binary64) : Binary64 := ns.foldl Binary64.add .zero

def mean? (args : List Value) : Option Value := do
  let ns := (← numbersAll? args).filterMap Value.float?
  return .float (if ns.isEmpty then .zero else (total ns).div (Binary64.ofInt ns.length))

def median? (args : List Value) : Option Value := do
  let ns := (← numbersAll? args).filterMap Value.float?
  let ns := ns.mergeSort fun a b => !b.lessThan a
  let half := ns.length / 2
  let at_ (i : Nat) : Binary64 := ns.getD i .zero
  return .float (if ns.isEmpty then .zero
    else if ns.length % 2 == 1 then at_ half
    else ((at_ (half - 1)).add (at_ half)).div (Binary64.ofInt 2))

def typeName : Value → String
  | .null => "nil"
  | .bool _ => "bool"
  | .int .byte _ => "uint"
  | .int _ _ => "int"
  | .float _ => "float"
  | .text _ => "string"
  | .list _ _ | .noList _ => "array"
  | .table _ | .groups _ => "map"
  | .duration _ => "time.Duration"
  | .time _ => "time.Time"
  | .usage _ => Project.modulePath ++ "/resolve.Usage"
  | .subject _ => Project.modulePath ++ "/resolve.Subject"
  | .func _ => "func"

mutual

-- All that is in a list and in the lists in it.
def flat : List Value → List Value
  | [] => []
  | v :: vs => flatOne v ++ flat vs

def flatOne : Value → List Value
  | .list _ vs => flat vs
  | .noList _ => []
  | v => [v]

end

def distinct (vs : List Value) : List Value :=
  (vs.foldl (fun (seen : List Value) v => if seen.any fun s => v.same s then seen else v :: seen) []).reverse

def bits (n : Int) : Nat := (n.emod 18446744073709551616).toNat

def ofBits (n : Nat) : Value := .ofInt (Text.wrap64 n)

def bitwise? (fn : String) (a b : Int) : Option Value :=
  let x := bits a
  let y := bits b
  match fn with
  | "bitand" => some (ofBits (x &&& y))
  | "bitor" => some (ofBits (x ||| y))
  | "bitxor" => some (ofBits (x ^^^ y))
  | "bitnand" => some (ofBits (x &&& bits (-1 - b)))
  | "bitshl" => if b < 0 then none else some (if b ≥ 64 then .ofInt 0 else ofBits (x <<< b.toNat))
  | "bitshr" => if b < 0 then none else some (.ofInt (a >>> (min b 64).toNat))
  | "bitushr" => if b < 0 then none else some (ofBits (x >>> (min b 64).toNat))
  | _ => none

def rounded? (f : Binary64 → Binary64) (v : Value) : Option Value :=
  match v with
  | .float x => some (.float (f x))
  | .int _ n => some (.float (Binary64.ofInt n))
  | _ => none

def toInt? : Value → Option Value
  | .int _ n => some (.ofInt n)
  | .float x => some (.ofInt x.toInt64)
  | .text s => (Text.int64? s).map .ofInt
  | .duration n => some (.ofInt n)
  | _ => none

def toFloat? : Value → Option Value
  | .int _ n => some (.float (Binary64.ofInt n))
  | .float x => some (.float x)
  | .text s => if Binary64.overflows s then none else (Binary64.read? s).map .float
  | .duration n => some (.float (Binary64.ofInt n))
  | _ => none

def pairs? (vs : List Value) : Option (List (String × Value)) :=
  vs.foldlM (fun es v =>
    match v.items? with
    | some (_, [.text k, w]) => some (setEntry k w es)
    | _ => none) []

def length? : Value → Option Nat
  | .text s => some (Text.runeCount s)
  | .table es => some es.length
  | .groups es => some es.length
  | v => v.items?.map (·.2.length)

def keysOf? : Value → Option (List Value)
  | .table es => some (es.map fun e => .text e.1)
  | .groups es => some (es.map (·.1))
  | _ => none

def valuesOf? : Value → Option (List Value)
  | .table es => some (es.map (·.2))
  | .groups es => some (es.map (·.2))
  | _ => none

-- Texts.
def textCall? (fn : String) (args : List Value) : Option Value :=
  match fn, args with
  | "upper", [.text s] => some (.text (Text.upper s))
  | "lower", [.text s] => some (.text (Text.lower s))
  | "trim", [.text s] => some (.text (Text.trim s))
  | "trim", [.text s, .text t] => some (.text (trimSet s t))
  | "trimPrefix", [.text s] => some (.text (Text.withoutPrefix s " "))
  | "trimPrefix", [.text s, .text t] => some (.text (Text.withoutPrefix s t))
  | "trimSuffix", [.text s] => some (.text (Text.withoutSuffix s " "))
  | "trimSuffix", [.text s, .text t] => some (.text (Text.withoutSuffix s t))
  | "hasPrefix", [.text s, .text t] => some (.bool (Text.hasPrefix s t))
  | "hasSuffix", [.text s, .text t] => some (.bool (Text.hasSuffix s t))
  | "indexOf", [.text s, .text t] => some (.ofInt (index s t))
  | "lastIndexOf", [.text s, .text t] => some (.ofInt (lastIndex s t))
  | "split", [.text s, .text t] => some (split s t false (-1))
  | "split", [.text s, .text t, n] => n.int?.map (split s t false)
  | "splitAfter", [.text s, .text t] => some (split s t true (-1))
  | "splitAfter", [.text s, .text t, n] => n.int?.map (split s t true)
  | "replace", [.text s, .text t, .text u] => some (.text (replace s t u (-1)))
  | "replace", [.text s, .text t, .text u, n] => n.int?.map fun n => .text (replace s t u n)
  | "join", v :: sep => do
    let t ← match sep with
      | [] => some ""
      | [.text t] => some t
      | _ => none
    let (k, vs) ← v.items?
    if k == .any || k == .text then return .text (Text.joinWith t (← texts? vs)) else none
  | "string", [v] => some (.text v.plain)
  | "type", [v] => some (.text (typeName v))
  | "toJSON", [v] => (v.json? 0).map .text
  | "fromJSON", [.text s] => Value.ofJson? s
  | "toBase64", [.text s] => some (.text (Text.base64 s))
  | "fromBase64", [.text s] => (Text.ofBase64? s).map .text
  | "duration", [.text s] => (duration? s).map .duration
  | "date", [.text s] => (Moment.read? s).map .time
  | _, _ => none

-- Numbers.
def numberCall? (fn : String) (args : List Value) : Option Value :=
  match fn, args with
  | "abs", [.int k n] => some (.int k (if n < 0 then Text.wrap64 (-n) else n))
  | "abs", [.float x] => some (.float (if x.lessThan .zero then x.neg else x))
  | "ceil", [v] => rounded? Binary64.ceil v
  | "floor", [v] => rounded? Binary64.floor v
  | "round", [v] => rounded? Binary64.round v
  | "int", [v] => toInt? v
  | "float", [v] => toFloat? v
  | "max", vs => extreme? (fun v m => m.less? v == some true) vs
  | "min", vs => extreme? (fun v m => v.less? m == some true) vs
  | "mean", vs => mean? vs
  | "median", vs => median? vs
  | "bitnot", [.int _ n] => some (.ofInt (-1 - n))
  | fn, [.int _ a, .int _ b] => bitwise? fn a b
  | _, _ => none

-- Lists and tables, each with the room that the result takes.
def listCall? (fn : String) (args : List Value) : Option (Value × Nat) :=
  let free (v : Value) : Value × Nat := (v, 0)
  let sized (vs : List Value) : Value × Nat := (.list .any vs, vs.length)
  match fn, args with
  | "len", [v] => (length? v).map fun n => free (.ofInt n)
  | "first", [v] => some (free ((member? v (.ofInt 0)).getD .null))
  | "last", [v] => some (free ((member? v (.ofInt (-1))).getD .null))
  | "get", [v, k] => (get? v k).map free
  | "take", [.list k vs, .int _ n] => if n < 0 then none else some (free (.list k (vs.take n.toNat)))
  | "take", [.noList k, .int _ n] => if n < 0 then none else some (free (.noList k))
  | "keys", [v] => (keysOf? v).map fun ks => free (.list .any ks)
  | "values", [v] => (valuesOf? v).map fun vs => free (.list .any vs)
  | "toPairs", [v] => do
    let ks ← keysOf? v
    let vs ← valuesOf? v
    return free (.list .any ((ks.zip vs).map fun e => .list .pair [e.1, e.2]))
  | "fromPairs", [v] => do
    let (_, vs) ← v.items?
    return free (.table (← pairs? vs))
  | "reverse", [v] => v.items?.map fun (_, vs) => sized vs.reverse
  | "uniq", [v] => v.items?.map fun (_, vs) => free (.list .any (distinct vs))
  | "flatten", [v] => v.items?.map fun (_, vs) => sized (flat vs)
  | "concat", vs => do
    let all ← vs.mapM Value.items?
    let items := all.flatMap (·.2)
    return if items.isEmpty then free (.noList .any) else sized items
  | "sort", v :: order => do
    let desc ← match order with
      | [] => some false
      | [o] => descending? o
      | _ => none
    match v.items? with
    | some (_, vs) => return sized (← sorted? desc id vs)
    | none => return free (.noList .any)
  | "repeat", [.text s, n] => do
    let n ← n.int?
    if n < 0 || n > 1000000 || s.length * n.toNat ≥ 1000000 then none
    return (.text (Text.replicate n.toNat s), s.length * n.toNat)
  | _, _ => none

-- The result of a call, and the room that it takes.
def call? (fn : String) (args : List Value) : Option (Value × Nat) :=
  match listCall? fn args with
  | some r => some r
  | none =>
    match textCall? fn args with
    | some v => some (v, 0)
    | none => (numberCall? fn args).map (·, 0)

end Condition
end Dependency
end ShellScript

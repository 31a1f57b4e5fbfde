import ShellScript.Dependency.Condition.Value
import ShellScript.Yaml.Write

-- Lengths of time and moments, read from texts.
namespace ShellScript
namespace Dependency
namespace Condition

-- A unit of time in billionths of a second.
def unit? : List Char → Option Nat
  | ['n', 's'] => some 1
  | ['u', 's'] | ['\xc2', '\xb5', 's'] | ['\xce', '\xbc', 's'] => some 1000
  | ['m', 's'] => some 1000000
  | ['s'] => some 1000000000
  | ['m'] => some 60000000000
  | ['h'] => some 3600000000000
  | _ => none

def digitsValue (cs : List Char) : Nat := cs.foldl (fun v c => v * 10 + (c.toNat - '0'.toNat)) 0

def maxSpan : Nat := Nat.pow 2 63

-- The digits of a fraction, of which only as many count as fit a number.
def fractionDigits (cs : List Char) : Nat × Nat :=
  cs.foldl (fun (v, n) c =>
    let w := v * 10 + (c.toNat - '0'.toNat)
    if v > (maxSpan - 1) / 10 || w > maxSpan then (v, n) else (w, n + 1)) (0, 0)

-- A number with its unit, and the rest.
def span? (cs : List Char) : Option (Nat × List Char) := do
  let whole := cs.takeWhile Text.isDigit
  let rest := cs.dropWhile Text.isDigit
  let (frac, rest) := match rest with
    | '.' :: r => (r.takeWhile Text.isDigit, r.dropWhile Text.isDigit)
    | r => ([], r)
  if whole.isEmpty && frac.isEmpty then none
  let inUnit (c : Char) : Bool := c != '.' && !Text.isDigit c
  let u ← unit? (rest.takeWhile inUnit)
  let v := digitsValue whole * u
  if v > maxSpan then none
  let (f, places) := fractionDigits frac
  let part := (Binary64.ofInt f).mul ((Binary64.ofInt u).div (Binary64.ofInt (Int.pow 10 places)))
  let v := v + part.toInt64.toNat
  if v > maxSpan then none
  return (v, rest.dropWhile inUnit)

def spans? : Nat → Nat → List Char → Option Nat
  | _, total, [] => some total
  | 0, _, _ => none
  | fuel + 1, total, cs => do
    let (v, rest) ← span? cs
    if total + v > maxSpan then none
    spans? fuel (total + v) rest

-- A length of time such as `1h30m` or `-1.5s`.
def duration? (s : String) : Option Int := do
  let (negative, cs) := Text.splitSign s.toList
  if cs == ['0'] then return 0
  if cs.isEmpty then none
  let n ← spans? cs.length 0 cs
  if negative then return -(n : Int)
  if n ≥ maxSpan then none
  return (n : Int)

def billion : Int := 1000000000

-- The number of days from the first day of 1970 to a date.
def daysTo (year month day : Int) : Int :=
  let y := if month ≤ 2 then year - 1 else year
  let era := y.fdiv 400
  let ofEra := y - era * 400
  let ofYear := (153 * (month + (if month > 2 then -3 else 9)) + 2) / 5 + day - 1
  era * 146097 + (ofEra * 365 + ofEra / 4 - ofEra / 100 + ofYear) - 719468

-- The year, month and day so many days after the first day of 1970.
def dateOf (days : Int) : Int × Int × Int :=
  let z := days + 719468
  let era := z.fdiv 146097
  let ofEra := z - era * 146097
  let y := (ofEra - ofEra / 1460 + ofEra / 36524 - ofEra / 146096) / 365
  let ofYear := ofEra - (365 * y + y / 4 - y / 100)
  let mp := (5 * ofYear + 2) / 153
  let month := if mp < 10 then mp + 3 else mp - 9
  (y + era * 400 + (if month ≤ 2 then 1 else 0), month, ofYear - (153 * mp + 2) / 5 + 1)

def Moment.ofParts (year month day seconds nanos ahead : Int) : Moment :=
  { nanos := (daysTo year month day * 86400 + seconds - ahead) * billion + nanos, ahead }

-- `2006-01-02`
def datePart? (cs : List Char) : Option ((Nat × Nat × Nat) × List Char) := do
  let (year, cs) ← Yaml.digitsFrom? 0 4 cs
  let (_, cs) ← Yaml.char? '-' cs
  let (month, cs) ← Yaml.digitsFrom? 0 2 cs
  let (_, cs) ← Yaml.char? '-' cs
  let (day, cs) ← Yaml.digitsFrom? 0 2 cs
  if 1 ≤ month && month ≤ 12 && 1 ≤ day && day ≤ Yaml.daysIn year month then some ((year, month, day), cs) else none

-- A fraction of a second in billionths.
def secondFraction : List Char → Nat × List Char
  | c :: d :: cs =>
    if (c == '.' || c == ',') && Text.isDigit d then
      let ds := (d :: cs).takeWhile Text.isDigit
      (digitsValue ((ds ++ List.replicate 9 '0').take 9), (d :: cs).dropWhile Text.isDigit)
    else (0, c :: d :: cs)
  | cs => (0, cs)

-- `15:04:05`, as seconds and billionths of them.
def clockPart? (cs : List Char) : Option ((Nat × Nat) × List Char) := do
  let (hour, cs) ← Yaml.shortNumber? cs
  let (_, cs) ← Yaml.char? ':' cs
  let (minute, cs) ← Yaml.digitsFrom? 0 2 cs
  let (_, cs) ← Yaml.char? ':' cs
  let (second, cs) ← Yaml.digitsFrom? 0 2 cs
  if hour < 24 && minute < 60 && second < 60 then
    let (nanos, cs) := secondFraction cs
    some ((hour * 3600 + minute * 60 + second, nanos), cs)
  else none

def zonePart? : List Char → Option Int
  | ['Z'] => some 0
  | c :: cs => do
    if c != '+' && c != '-' then none
    let (hour, cs) ← Yaml.digitsFrom? 0 2 cs
    let (_, cs) ← Yaml.char? ':' cs
    let (minute, cs) ← Yaml.digitsFrom? 0 2 cs
    if hour ≤ 24 && minute < 60 && cs.isEmpty then
      let n : Int := hour * 3600 + minute * 60
      some (if c == '-' then -n else n)
    else none
  | [] => none

-- A date, a time of day, or both.
def Moment.read? (s : String) : Option Moment :=
  match datePart? s.toList with
  | none => do
    let ((seconds, nanos), rest) ← clockPart? s.toList
    if rest.isEmpty then some (.ofParts 0 1 1 seconds nanos 0) else none
  | some ((year, month, day), rest) =>
    match rest with
    | [] => some (.ofParts year month day 0 0 0)
    | ' ' :: rest => do
      let ((seconds, nanos), rest) ← clockPart? rest
      if rest.isEmpty then some (.ofParts year month day seconds nanos 0) else none
    | 'T' :: rest => do
      let ((seconds, nanos), rest) ← clockPart? rest
      let ahead ← zonePart? rest
      some (.ofParts year month day seconds nanos ahead)
    | _ => none

def Moment.member? (t : Moment) (name : String) : Option Value :=
  let seconds := t.nanos.fdiv billion + t.ahead
  let days := seconds.fdiv 86400
  let ofDay := seconds - days * 86400
  let (year, month, day) := dateOf days
  match name with
  | "Year" => some (.ofInt year)
  | "Day" => some (.ofInt day)
  | "YearDay" => some (.ofInt (daysTo year month day - daysTo year 1 1 + 1))
  | "Hour" => some (.ofInt (ofDay / 3600))
  | "Minute" => some (.ofInt (ofDay / 60 % 60))
  | "Second" => some (.ofInt (ofDay % 60))
  | "Nanosecond" => some (.ofInt (t.nanos - t.nanos.fdiv billion * billion))
  | "Unix" => some (.int .int64 (t.nanos.fdiv billion))
  | "UnixMilli" => some (.int .int64 (t.nanos.fdiv 1000000))
  | "UnixMicro" => some (.int .int64 (t.nanos.fdiv 1000))
  | "UnixNano" => some (.int .int64 (Text.wrap64 t.nanos))
  | _ => none

-- A length of time in a larger unit: the whole part and the rest are turned into floats on their own.
def inUnits (ns per : Int) : Value :=
  .float ((Binary64.ofInt (ns.tdiv per)).add ((Binary64.ofInt (ns.tmod per)).div (Binary64.ofInt per)))

def durationMember? (ns : Int) : String → Option Value
  | "Hours" => some (inUnits ns (3600 * billion))
  | "Minutes" => some (inUnits ns (60 * billion))
  | "Seconds" => some (inUnits ns billion)
  | "Milliseconds" => some (.int .int64 (ns.tdiv 1000000))
  | "Microseconds" => some (.int .int64 (ns.tdiv 1000))
  | "Nanoseconds" => some (.int .int64 ns)
  | "Abs" => some (.duration (if ns == Text.minInt64 then Text.maxInt64 else ns.natAbs))
  | "String" => some (.text (Text.duration ns))
  | _ => none

end Condition
end Dependency
end ShellScript

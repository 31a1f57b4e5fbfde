import ShellScript.Text.Byte

-- Bytes and lengths of time in writing.
namespace ShellScript.Text

-- Bytes as letters, six bits each.

def base64Letters : List Char := "ABCDEFGHIJKLMNOPQRSTUVWXYZabcdefghijklmnopqrstuvwxyz0123456789+/".toList

def base64Letter (n : Nat) : Char := base64Letters.getD (n % 64) 'A'

def base64Value? (c : Char) : Option Nat := base64Letters.idxOf? c

def base64List : List Char → List Char
  | [] => []
  | [a] => [base64Letter (a.toNat / 4), base64Letter (a.toNat * 16), '=', '=']
  | [a, b] =>
    let n := a.toNat * 256 + b.toNat
    [base64Letter (n / 1024), base64Letter (n / 16), base64Letter (n * 4), '=']
  | a :: b :: c :: rest =>
    let n := a.toNat * 65536 + b.toNat * 256 + c.toNat
    [base64Letter (n / 262144), base64Letter (n / 4096), base64Letter (n / 64), base64Letter n] ++ base64List rest

def base64 (s : String) : String := String.ofList (base64List s.toList)

def byteOf (n : Nat) : Char := Char.ofNat (n % 256)

-- Groups of four letters; the last one may end in one or two equals signs.
def base64Bytes? : List Char → Option (List Char)
  | [] => some []
  | [a, b, '=', '='] => do
    let n := (← base64Value? a) * 64 + (← base64Value? b)
    return [byteOf (n / 16)]
  | [a, b, c, '='] => do
    let n := ((← base64Value? a) * 64 + (← base64Value? b)) * 64 + (← base64Value? c)
    return [byteOf (n / 1024), byteOf (n / 4)]
  | a :: b :: c :: d :: rest => do
    let n := (((← base64Value? a) * 64 + (← base64Value? b)) * 64 + (← base64Value? c)) * 64 + (← base64Value? d)
    return byteOf (n / 65536) :: byteOf (n / 256) :: byteOf n :: (← base64Bytes? rest)
  | _ => none

-- Line ends between the letters do not count.
def ofBase64? (s : String) : Option String :=
  (base64Bytes? (s.toList.filter fun c => c != '\n' && c != '\r')).map String.ofList

-- Lengths of time, in billionths of a second, as text.

-- `n / 10 ^ places` without trailing zeros.
def decimalFraction (n places : Nat) : String :=
  let frac := padLeftWith '0' places (toString (n % Nat.pow 10 places))
  let kept := (frac.toList.reverse.dropWhile (· == '0')).reverse
  toString (n / Nat.pow 10 places) ++ (if kept.isEmpty then "" else "." ++ String.ofList kept)
where
  padLeftWith (c : Char) (width : Nat) (s : String) : String :=
    String.ofList (List.replicate (width - s.length) c) ++ s

-- Below a second one unit is enough; from a second on hours, minutes and seconds are told apart.
def duration (ns : Int) : String :=
  let n := ns.natAbs
  let sign := if ns < 0 then "-" else ""
  if n == 0 then "0s"
  else if n < 1000 then sign ++ toString n ++ "ns"
  else if n < 1000000 then sign ++ decimalFraction n 3 ++ "\xc2\xb5s"
  else if n < 1000000000 then sign ++ decimalFraction n 6 ++ "ms"
  else
    let whole := n / 1000000000
    let seconds := decimalFraction (whole % 60 * 1000000000 + n % 1000000000) 9 ++ "s"
    if whole < 60 then sign ++ seconds
    else if whole < 3600 then sign ++ toString (whole / 60) ++ "m" ++ seconds
    else sign ++ toString (whole / 3600) ++ "h" ++ toString (whole / 60 % 60) ++ "m" ++ seconds

end ShellScript.Text

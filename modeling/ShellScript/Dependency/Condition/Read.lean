import ShellScript.Dependency.Condition.Token
import ShellScript.Dependency.Condition.Tree

-- From the tokens of a condition to its tree.
namespace ShellScript
namespace Dependency
namespace Condition

-- What is left to read, and how many nodes have been made.
structure Unread where
  tokens : List Token
  nodes : Nat := 0

abbrev Reader (α : Type) := StateT Unread Option α

-- A condition with more nodes than this is refused.
def maxNodes : Nat := 10000

def peek : Reader (Option Token) := do return (← get).tokens.head?

def skip : Reader Unit := modify fun u => { u with tokens := u.tokens.tail }

def atOp (s : String) : Reader Bool := do return (← peek) == some (.op s)

def expect (s : String) : Reader Unit := do
  if ← atOp s then skip else failure

def expectName : Reader String := do
  match ← peek with
  | some (.name s) => skip; return s
  | _ => failure

-- Hands on an expression for which so many nodes were made.
def made (n : Nat) (e : Expr) : Reader Expr := do
  modify fun u => { u with nodes := u.nodes + n }
  if (← get).nodes > maxNodes then failure else return e

def intExpr? (base : Nat) (s : String) : Option Expr := (Text.int64 base s).toOption.map .int

-- A number as it is written. Only a number with a point or an exponent is a float.
def numberExpr? (written : String) : Option Expr :=
  let s := String.ofList (written.toList.filter (· != '_'))
  let lower := s.map Char.toLower
  if Text.hasPrefix lower "0x" then intExpr? 0 s
  else if lower.toList.contains '.' || lower.toList.contains 'e' then
    if Binary64.overflows s then none else (Binary64.read? s).map .float
  else if Text.hasPrefix lower "0b" || Text.hasPrefix lower "0o" then intExpr? 0 s
  else intExpr? 10 s

-- Words that act as operators may still name a member.
def memberName? : Token → Option String
  | .name s => some s
  | .op s => if wordOperators.contains s then some s else none
  | _ => none

def mark : String → Expr
  | "" => .element
  | "index" => .index
  | "acc" => .gathered
  | _ => .unknownMark

-- The operator that comes next, and whether `not` stands before it.
inductive NextOp where
  | pipe
  | binary (op : BinaryOp) (negated : Bool)
  -- `not` with nothing behind it that it could belong to
  | wrong
  | done

def nextOp (level : Nat) : List Token → NextOp
  | .op "not" :: .op s :: _ =>
    match BinaryOp.ofText? s with
    | some op => if !op.takesNot then .wrong else if op.level < level then .done else .binary op true
    | none => .wrong
  | .op "not" :: _ => .wrong
  | .op "|" :: _ => if level == 0 then .pipe else .done
  | .op s :: _ =>
    match BinaryOp.ofText? s with
    | some op => if op.level < level then .done else .binary op false
    | none => .done
  | _ => .done

-- `x.name` inside a chain of optional members stays inside it.
def unchained : Expr → Expr × Bool
  | .chain x => (x, true)
  | x => (x, false)

mutual

-- Expressions one after the other. A semicolon at the very end is allowed.
def readSeq : Nat → Bool → Reader Expr
  | 0, _ => failure
  | fuel + 1, walking => do
    let first ← readExpr fuel walking 0
    match ← readSeqRest fuel walking with
    | [] => return first
    | rest => made 1 (.seq (first :: rest))

def readSeqRest : Nat → Bool → Reader (List Expr)
  | 0, _ => failure
  | fuel + 1, walking => do
    if ← atOp ";" then
      skip
      if (← peek).isNone then return []
      else
        let e ← readExpr fuel walking 0
        return e :: (← readSeqRest fuel walking)
    else return []

-- An expression whose operators bind at least as tightly as `level`. `walking` says that it belongs to the body
-- of a walk.
def readExpr : Nat → Bool → Nat → Reader Expr
  | 0, _, _ => failure
  | fuel + 1, walking, level => do
    if level == 0 && (← atOp "let") then
      skip
      let name ← expectName
      expect "="
      let value ← readExpr fuel walking 0
      expect ";"
      let rest ← readSeq fuel walking
      made 1 (.bind name value rest)
    else if level == 0 && (← atOp "if") then readIf fuel walking
    else
      let x ← readPrimary fuel walking
      let x ← readOperators fuel walking level false x
      if level == 0 then readChoice fuel walking x else return x

def readIf : Nat → Bool → Reader Expr
  | 0, _ => failure
  | fuel + 1, walking => do
    expect "if"
    let cond ← readExpr fuel walking 0
    let yes ← readBlock fuel walking
    expect "else"
    let no ← if ← atOp "if" then readIf fuel walking else readBlock fuel walking
    made 1 (.choose cond yes no)

def readBlock : Nat → Bool → Reader Expr
  | 0, _ => failure
  | fuel + 1, walking => do
    expect "\x7b"
    let e ← readSeq fuel walking
    expect "\x7d"
    return e

-- The operators behind `x`. After `??` no other operator may follow without brackets.
def readOperators : Nat → Bool → Nat → Bool → Expr → Reader Expr
  | 0, _, _, _, _ => failure
  | fuel + 1, walking, level, afterElse, x => do
    match nextOp level (← get).tokens with
    | .done => return x
    | .wrong => failure
    | .pipe =>
      skip
      let fn ← expectName
      let y ← readCall fuel walking fn [x]
      readOperators fuel walking level false y
    | .binary op negated =>
      if negated then skip
      skip
      if afterElse && op != .orElse then failure
      if op.isComparison then
        let y ← readComparison fuel walking op x
        readOperators fuel walking level false y
      else
        let y ← readExpr fuel walking (if op.groupsRight then op.level else op.level + 1)
        let z ← made 1 (.binary op x y)
        let z ← if negated then made 1 (.unary .not z) else pure z
        readOperators fuel walking level (op == .orElse) z

-- `a < b < c` stands for `a < b && b < c`.
def readComparison : Nat → Bool → BinaryOp → Expr → Reader Expr
  | 0, _, _, _ => failure
  | fuel + 1, walking, op, x => do
    let y ← readExpr fuel walking (op.level + 1)
    let z ← made 1 (.binary op x y)
    readMoreComparisons fuel walking z y

def readMoreComparisons : Nat → Bool → Expr → Expr → Reader Expr
  | 0, _, _, _ => failure
  | fuel + 1, walking, whole, x => do
    match nextOp 0 (← get).tokens with
    | .binary op false =>
      if op.isComparison then
        skip
        let y ← readExpr fuel walking (op.level + 1)
        let z ← made 2 (.binary .and whole (.binary op x y))
        readMoreComparisons fuel walking z y
      else return whole
    | _ => return whole

-- `a ? b : c`, or `a ?: c` for `a ? a : c`.
def readChoice : Nat → Bool → Expr → Reader Expr
  | 0, _, _ => failure
  | fuel + 1, walking, cond => do
    if ← atOp "?" then
      skip
      if ← atOp ":" then
        skip
        let no ← readExpr fuel walking 0
        readChoice fuel walking (← made 1 (.choose cond cond no))
      else
        let yes ← readExpr fuel walking 0
        expect ":"
        let no ← readExpr fuel walking 0
        readChoice fuel walking (← made 1 (.choose cond yes no))
    else return cond

def readPrimary : Nat → Bool → Reader Expr
  | 0, _ => failure
  | fuel + 1, walking => do
    match ← peek with
    | none => failure
    | some (.number s) =>
      skip
      match numberExpr? s with
      | some e => made 1 e
      | none => failure
    | some (.text s) =>
      skip
      readPostfix fuel walking (← made 1 (.text s))
    | some (.name s) =>
      skip
      match s with
      | "true" => readPostfix fuel walking (← made 1 (.bool true))
      | "false" => readPostfix fuel walking (← made 1 (.bool false))
      | "nil" => readPostfix fuel walking (← made 1 .null)
      | _ =>
        if ← atOp "(" then readPostfix fuel walking (← readCall fuel walking s [])
        else readPostfix fuel walking (← made 1 (.name s))
    | some (.op s) =>
      match UnaryOp.ofText? s with
      | some op =>
        skip
        let x ← readExpr fuel walking op.level
        readPostfix fuel walking (← made 1 (.unary op x))
      | none =>
        match s with
        | "(" =>
          skip
          let e ← readSeq fuel walking
          expect ")"
          readPostfix fuel walking e
        | "#" =>
          if !walking then failure
          skip
          let name ← match ← peek with
            | some (.name n) => skip; pure n
            | _ => pure ""
          readPostfix fuel walking (← made 1 (mark name))
        | "." => if walking then readPostfix fuel walking (← made 1 .element) else failure
        | "::" =>
          skip
          let fn ← expectName
          readPostfix fuel walking (← readCall fuel walking fn [])
        | "[" =>
          skip
          let es ← readItems fuel walking true
          readPostfix fuel walking (← made 1 (.list es))
        | "\x7b" =>
          skip
          let es ← readEntries fuel walking true
          readPostfix fuel walking (← made 1 (.table es))
        | _ => failure

-- The elements of a list up to its bracket; the last one may have a comma behind it.
def readItems : Nat → Bool → Bool → Reader (List Expr)
  | 0, _, _ => failure
  | fuel + 1, walking, first => do
    if ← atOp "]" then
      skip
      return []
    else
      if !first then expect ","
      if !first && (← atOp "]") then
        skip
        return []
      else
        let e ← readExpr fuel walking 0
        return e :: (← readItems fuel walking false)

def readEntries : Nat → Bool → Bool → Reader (List (Expr × Expr))
  | 0, _, _ => failure
  | fuel + 1, walking, first => do
    if ← atOp "\x7d" then
      skip
      return []
    else
      if !first then expect ","
      if !first && (← atOp "\x7d") then
        skip
        return []
      else
        let key ← readKey fuel walking
        expect ":"
        let value ← readExpr fuel walking 0
        return (key, ← made 1 value) :: (← readEntries fuel walking false)

-- Numbers, texts and names stand for themselves; anything else needs brackets.
def readKey : Nat → Bool → Reader Expr
  | 0, _ => failure
  | fuel + 1, walking => do
    match ← peek with
    | some (.number s) | some (.text s) | some (.name s) =>
      skip
      made 1 (.text s)
    | some (.op "(") => readExpr fuel walking 0
    | _ => failure

-- A call of `fn`; what is piped into it comes first.
def readCall : Nat → Bool → String → List Expr → Reader Expr
  | 0, _, _, _ => failure
  | fuel + 1, walking, fn, piped => do
    expect "("
    match Walk.ofName? fn with
    | some w =>
      let xs ← match piped with
        | x :: _ => pure x
        | [] => readExpr fuel walking 0
      let noBody := w.body == .optional && (← atOp ")")
      let body ← if noBody then pure none else do
        if piped.isEmpty then expect ","
        let b ← readBody fuel
        pure (some (← made 1 b))
      let noExtra := w.extra == .refused || (← atOp ")")
      let extra ← if noExtra then pure none else do
        expect ","
        let e ← readExpr fuel walking 0
        pure (some e)
      if ← atOp "," then skip
      expect ")"
      made 1 (.walk w xs body extra)
    | none =>
      let args ← readArgs fuel walking true
      made 1 (.call fn (piped ++ args))

-- The arguments up to the bracket; the last one may have a comma behind it.
def readArgs : Nat → Bool → Bool → Reader (List Expr)
  | 0, _, _ => failure
  | fuel + 1, walking, first => do
    if ← atOp ")" then
      skip
      return []
    else
      if !first then expect ","
      if !first && (← atOp ")") then
        skip
        return []
      else
        let e ← readExpr fuel walking 0
        return e :: (← readArgs fuel walking false)

-- The body of a walk. Only in braces may it be more than one expression.
def readBody : Nat → Reader Expr
  | 0 => failure
  | fuel + 1 => do
    if ← atOp "\x7b" then readBlock fuel true
    else
      let e ← readExpr fuel true 0
      if ← atOp ";" then failure else return e

-- Members, indices and slices behind `x`.
def readPostfix : Nat → Bool → Expr → Reader Expr
  | 0, _, _ => failure
  | fuel + 1, walking, x => do
    match (← get).tokens with
    | .op "?." :: .op "[" :: _ =>
      skip
      skip
      readPostfix fuel walking (← readIndex fuel walking true x)
    | .op "[" :: _ =>
      skip
      readPostfix fuel walking (← readIndex fuel walking false x)
    | .op "." :: t :: _ => readPostfix fuel walking (← readMember fuel walking false t x)
    | .op "?." :: t :: _ => readPostfix fuel walking (← readMember fuel walking true t x)
    | .op "." :: [] | .op "?." :: [] => failure
    | _ => return x

def readMember : Nat → Bool → Bool → Token → Expr → Reader Expr
  | 0, _, _, _, _ => failure
  | fuel + 1, walking, optional, t, x => do
    skip
    skip
    match memberName? t with
    | none => failure
    | some name =>
      let (x, chained) := unchained x
      let e ← if ← atOp "(" then do
          skip
          let args ← readArgs fuel walking true
          made 3 (.method x name optional args)
        else made 2 (.member x (.text name) optional)
      if chained || optional then made 1 (.chain e) else return e

-- What stands between square brackets, after the opening one.
def readIndex : Nat → Bool → Bool → Expr → Reader Expr
  | 0, _, _, _ => failure
  | fuel + 1, walking, optional, x => do
    let from_ ← if ← atOp ":" then pure none else do
      let e ← readExpr fuel walking 0
      pure (some e)
    if ← atOp ":" then
      skip
      let to_ ← if ← atOp "]" then pure none else do
        let e ← readExpr fuel walking 0
        pure (some e)
      expect "]"
      made 1 (.slice x from_ to_)
    else
      match from_ with
      | none => failure
      | some key =>
        expect "]"
        let e ← made 1 (.member x key optional)
        if optional then made 1 (.chain e) else return e

end

-- The tree of a condition; none if it is not well formed.
def read? (when : String) : Option Expr := do
  let tokens ← tokens? when
  -- no token is looked at by more nested calls than this
  let (e, rest) ← (readSeq (16 * (tokens.length + 2)) false).run { tokens }
  if rest.tokens.isEmpty then some e else none

end Condition
end Dependency
end ShellScript

import ShellScript.Script.Read.Setting

-- Reading arithmetic: a text is split into operators, parentheses and operands, which are then combined by
-- precedence.
namespace ShellScript
namespace Script
namespace Read

inductive ArithToken where
  | op (op : ArithOp) (pos : Position)
  | lparen (pos : Position)
  | rparen (pos : Position)
  | operand (w : Word) (pos : Position)

namespace ArithToken

def pos : ArithToken → Position
  | .op _ p | .lparen p | .rparen p | .operand _ p => p

def text : ArithToken → String
  | .op o _ => o.text
  | .lparen _ => "("
  | .rparen _ => ")"
  | .operand _ _ => ""

end ArithToken

def arithOpAt (cs : List Char) : Option ArithOp :=
  ArithOp.longestFirst.find? fun op => op.text.toList.isPrefixOf cs

def isSpecialParam (c : Char) : Bool :=
  c == '@' || c == '*' || c == '#' || c == '?' || c == '-' || c == '$' || c == '!'

-- After the name that follows a bare dollar sign.
def passName : List Char → List Char
  | [] => []
  | c :: cs => if Text.isDigit c || isSpecialParam c then cs else (c :: cs).dropWhile Text.isNameChar

-- What follows one character of an operand, or one construct; `none` when the operand ends before it.
def passOperand (d : Dialect) (c : Char) (cs : List Char) : Option (List Char) :=
  if c == '$' then
    let rest := passOne d (c :: cs)
    some (if rest.length == cs.length then passName rest else rest)
  else if c == Text.backquote || c == '"' || c == '\'' || c == '\\' then some (passOne d (c :: cs))
  else if c == '[' then
    match matchBracket? cs with
    | some (_, rest) => some rest
    | none => some cs
  else if Text.isNameChar c || c == '#' || c == '@' || c == '.' then some cs
  else none

-- What follows an operand: names, numbers, expansions, quotations and subscripts in any succession.
def operandRest (d : Dialect) : Nat → List Char → List Char
  | 0, cs => cs
  | _ + 1, [] => []
  | n + 1, c :: cs =>
    match passOperand d c cs with
    | some rest => operandRest d n rest
    | none => c :: cs

-- The token that begins with a character, if it belongs to one, and what follows it.
def arithToken (s : Setting) (parts : PartsReader) (p : Position) (c : Char) (cs : List Char) :
    Reading (Option ArithToken × List Char) := do
  if Text.isBlank c || c == '\n' then return (none, cs)
  else if c == '\\' && cs.head? == some '\n' then return (none, cs.drop 1)
  else if c == '(' then return (some (.lparen p), cs)
  else if c == ')' then return (some (.rparen p), cs)
  else match arithOpAt (c :: cs) with
    | some op => return (some (.op op p), (c :: cs).drop op.text.length)
    | none =>
      let rest := operandRest s.dialect (cs.length + 2) (c :: cs)
      let taken := between (c :: cs) rest
      if taken.isEmpty then
        s.report p ("unexpected " ++ Text.quotedChar c ++ " in arithmetic expression")
        return (none, cs)
      else
        let ps ← parts .arith p taken
        return (some (.operand ⟨ps⟩ p), rest)

def arithTokens (s : Setting) (parts : PartsReader) : Nat → Position → List Char → Reading (List ArithToken)
  | 0, _, _ => pure []
  | _ + 1, _, [] => pure []
  | n + 1, p, c :: cs => do
    let (t, rest) ← arithToken s parts p c cs
    return t.toList ++ (← arithTokens s parts n (p.advance (between (c :: cs) rest)) rest)

abbrev ArithReading := StateT (List ArithToken) Reading

-- Reports at the token, or at the end of the text when there is none.
def arithReport (s : Setting) (stop : Position) (t : Option ArithToken) (message : String) : ArithReading Unit :=
  liftM (m := Reading) (s.report ((t.map ArithToken.pos).getD stop) message)

def noOperand : ArithExpr := .word Word.empty

def isUnaryOp : ArithOp → Bool
  | .not | .bitNot | .add | .sub | .inc | .dec => true
  | _ => false

-- A sign before an operand.
def sign? : ArithReading (Option (ArithOp × Position)) := do
  match ← get with
  | .op op p :: rest =>
    if isUnaryOp op then
      set rest
      return some (op, p)
    else return none
  | _ => return none

-- An increment or decrement after an operand.
def step? : ArithReading (Option (ArithOp × Position)) := do
  match ← get with
  | .op .inc p :: rest =>
    set rest
    return some (.inc, p)
  | .op .dec p :: rest =>
    set rest
    return some (.dec, p)
  | _ => return none

-- An operand without signs, or a parenthesised expression. The expressions inside others are read by `expr`, given the
-- precedence that their operators have to exceed.
def arithPrimary (s : Setting) (stop : Position) (expr : Nat → ArithReading ArithExpr) : ArithReading ArithExpr := do
  match ← get with
  | [] =>
    arithReport s stop none "missing operand in arithmetic expression"
    return noOperand
  | .lparen p :: rest =>
    set rest
    let x ← expr 0
    match ← get with
    | .rparen _ :: rest => set rest
    | toks => arithReport s stop toks.head? "expected ')' in arithmetic expression"
    return .paren p x
  | .operand w _ :: rest =>
    set rest
    return .word w
  | t :: rest =>
    arithReport s stop (some t) ("unexpected " ++ Text.quoted t.text ++ " in arithmetic expression")
    set rest
    return noOperand

def arithOperand (s : Setting) (stop : Position) (expr : Nat → ArithReading ArithExpr) : ArithReading ArithExpr := do
  let signs ← listFor sign? ((← get).length + 1)
  let x ← arithPrimary s stop expr
  let steps ← listFor step? ((← get).length + 1)
  let x := steps.foldl (fun x (op, p) => .unary p op true x) x
  return signs.foldr (fun (op, p) x => .unary p op false x) x

-- The operator after a left operand, if it binds tighter than `least`, with its right operand. Left is an operand for a
-- further operator, right one that ends here.
def arithTurn (s : Setting) (stop : Position) (expr : Nat → ArithReading ArithExpr) (least : Nat) (x : ArithExpr) :
    ArithReading (ArithExpr ⊕ ArithExpr) := do
  match ← get with
  | .op op p :: rest =>
    let prec := op.precedence
    if prec == 0 || prec ≤ least then return .inr x
    set rest
    if op == .quest then
      let yes ← expr ArithOp.comma.precedence
      match ← get with
      | .op .colon _ :: rest =>
        set rest
        let no ← expr (prec - 1)
        return .inl (.ternary x yes (some no))
      | toks =>
        arithReport s stop toks.head? "expected ':' in conditional expression"
        return .inr (.ternary x yes none)
    else
      -- assignments and powers group to the right
      let y ← expr (if op.isAssign || op == .pow then prec - 1 else prec)
      return .inl (.binary p op x y)
  | _ => return .inr x

def arithTail (s : Setting) (stop : Position) (expr : Nat → ArithReading ArithExpr) (least : Nat) :
    Nat → ArithExpr → ArithReading ArithExpr
  | 0, x => pure x
  | n + 1, x => do
    match ← arithTurn s stop expr least x with
    | .inl x => arithTail s stop expr least n x
    | .inr x => return x

-- An expression whose operators bind tighter than `least`; it has expressions inside down to a depth of `n`.
def arithExpr (s : Setting) (stop : Position) : Nat → Nat → ArithReading ArithExpr
  | 0, _ => pure noOperand
  | n + 1, least => do
    let x ← arithOperand s stop (arithExpr s stop n)
    arithTail s stop (arithExpr s stop n) least ((← get).length + 1) x

-- An arithmetic text; `none` when it is blank.
def arithText (s : Setting) (parts : PartsReader) (p : Position) (cs : List Char) :
    Reading (Option ArithExpr) := do
  let toks ← arithTokens s parts (cs.length + 1) p cs
  if toks.isEmpty then return none
  let (x, rest) ← (arithExpr s (p.advance cs) (toks.length + 1) 0).run toks
  match rest with
  | [] => pure ()
  | t :: _ => s.report t.pos "syntax error in arithmetic expression"
  return some x

end Read
end Script
end ShellScript

import ShellScript.Program.Tree
import ShellScript.Script.Read
import ShellScript.Text.Integer

-- Turning a script into a program.
namespace ShellScript
namespace Program

-- How a word that names a file is bound: to content that belongs to the program, or to whatever file is there
-- when the program runs.
inductive PathUse where
  | embedded (key : String)
  | runtime (expr : String)

-- What is known about the files and programs that a script mentions.
structure Plan where
  -- the script's own path
  file : String
  external : String → Option Nat := fun _ => none
  path : Script.Word → Option PathUse := fun _ => none
  -- the compiled file that the operand of `source` names
  unit : Script.Word → Option String := fun _ => none

abbrev Lowering := StateM (Array Diagnostic)

-- Reads the text of an array index that is written out in full.
abbrev IndexReader := Position → String → Lowering (Option Arith)

namespace Plan

def report (u : Plan) (kind : Diagnostic.Kind) (p : Position) (message : String) : Lowering Unit :=
  modify (·.push (Diagnostic.at_ kind u.file p message))

def warn (u : Plan) (p : Position) (message : String) : Lowering Unit :=
  modify (·.push { Diagnostic.at_ .notice u.file p message with severity := .warning })

-- The plan for text that is read anew: its words are not among those that the plan knows.
def unbound (u : Plan) : Plan := { u with path := fun _ => none, unit := fun _ => none }

end Plan

-- Literal text split at its backslashes: an escaped character is quoted, an escaped newline disappears.
def litPartsFrom : List Char → List Char → List Part
  | [], [] => []
  | cur, [] => [.lit (String.ofList cur.reverse) false]
  | cur, '\\' :: '\n' :: cs => litPartsFrom cur cs
  | cur, '\\' :: c :: cs =>
    let rest := Part.lit (String.ofList [c]) true :: litPartsFrom [] cs
    if cur.isEmpty then rest else .lit (String.ofList cur.reverse) false :: rest
  | cur, c :: cs => litPartsFrom (c :: cur) cs

-- Text without backslashes stays in one piece.
theorem litPartsFrom_of_plain (cur cs : List Char) (h : '\\' ∉ cs) (hne : cur ≠ [] ∨ cs ≠ []) :
    litPartsFrom cur cs = [.lit (String.ofList (cur.reverse ++ cs)) false] := by
  fun_induction litPartsFrom cur cs with
  | case1 => simp at hne
  | case2 => simp
  | case3 => simp at h
  | case4 => simp at h
  | case5 => simp at h
  | case6 cur c cs _ _ ih =>
      rw [ih (fun hmem => h (List.mem_cons_of_mem _ hmem)) (.inl (by simp))]
      simp

def litParts (s : String) : List Part := if s.isEmpty then [.lit "" false] else litPartsFrom [] s.toList

-- The escapes of an unquoted here-document.
def unescapeHereDoc : List Char → List Char
  | '\\' :: '\n' :: cs => unescapeHereDoc cs
  | '\\' :: c :: cs =>
    if c == '$' || c == Text.backquote || c == '\\' then c :: unescapeHereDoc cs
    else '\\' :: unescapeHereDoc (c :: cs)
  | c :: cs => c :: unescapeHereDoc cs
  | [] => []

def isUserChar (c : Char) : Bool := Text.isNameChar c || c == '-' || c == '.'

-- The login name after a leading tilde and what follows it; `none` when the tilde is plain text.
def tilde? (s : String) : Option (String × String) :=
  match s.toList with
  | '~' :: cs =>
    let user := cs.takeWhile (· != '/')
    if user.all isUserChar then some (String.ofList user, String.ofList (cs.drop user.length)) else none
  | _ => none

-- What surrounds the parts of a word.
inductive Quoting where
  | none
  | double
  | hereDoc
deriving DecidableEq

def litOf (q : Quoting) (s : String) : List Part :=
  match q with
  | .double => [.lit (Script.unescapeDouble s) true]
  | .hereDoc => [.lit (String.ofList (unescapeHereDoc s.toList)) true]
  | .none => litParts s

-- `name[` at the front of an array element, and the literal text after the bracket.
def elementName? (s : String) : Option (String × String) :=
  match Text.cut? '[' s with
  | some (name, rest) => if Text.isName name then some (name, rest) else none
  | none => none

def arithLit? (w : Script.Word) : Option Arith :=
  match w.lit? with
  | some s =>
    match s.toList with
    | [] => none
    | c :: _ => if Text.isDigit c then some (.num s) else if Text.isName s then some (.var s none) else none
  | none => none

def dropLast {α : Type} : List α → List α
  | [] => []
  | [_] => []
  | x :: xs => x :: dropLast xs

-- The name, the text after the bracket and the text before the closing one, when the word is an array element.
def element? (w : Script.Word) : Option (String × String × String) :=
  match w.parts.head?, w.parts.getLast? with
  | some (.lit _ first), some (.lit _ last) =>
    if Text.hasSuffix last "]" then
      (elementName? first).map fun (name, rest) => (name, rest, Text.dropBack 1 last)
    else none
  | _, _ => none

def litUnlessEmpty (s : String) : List Part := if s.isEmpty then [] else litParts s

-- The parts of a word, given what each became; a leading tilde is an expansion.
def withTilde (ps : List Script.WordPart) (each : List (List Part)) : List Part :=
  match ps with
  | .lit _ s :: _ =>
    match tilde? s with
    | some (user, tail) => .tilde user :: litUnlessEmpty tail ++ (each.drop 1).flatten
    | none => each.flatten
  | _ => each.flatten

-- Puts a word in the place that the plan has for the file it names.
def bindPath (u : Plan) (w : Script.Word) (x : Word) : Word :=
  match u.path w with
  | none => x
  | some (.embedded key) => ⟨[.embedded key]⟩
  | some (.runtime expr) => ⟨[.runtimePath x expr]⟩

-- The descriptor before a redirection; the outer `none` stands for one that is too large.
def descriptor? (n : String) : Option (Option Nat) :=
  if n.isEmpty then some none else (Text.int64? n).map fun k => some k.toNat

def redirOp? : Token.Kind → Option RedirOp
  | .less => some .input
  | .great => some .output
  | .dgreat => some .append
  | .lessAnd => some .dupIn
  | .greatAnd => some .dupOut
  | .lessGreat => some .readWrite
  | .clobber => some .clobber
  | .dless => some .hereDoc
  | .dlessDash => some .hereDoc
  | .tless => some .hereString
  | .andGreat => some .all
  | .andDgreat => some .allAppend
  | _ => none

-- Warns about fixed code that does not parse.
def checkCode (u : Plan) (p : Position) (what code : String) : Lowering Unit :=
  match (Script.readAs .bash what code).diags.find? Diagnostic.isFatal with
  | some d => u.warn p (what ++ ": code does not parse: " ++ d.message)
  | none => pure ()

-- Words with fixed values, joined by spaces.
def staticText? (ws : List Script.Word) : Option String :=
  (ws.mapM Script.Word.value?).map (Text.joinWith " ")

def isInteger (s : String) : Bool := (Text.int64? (Text.trim s)).isSome

def checkTrap (u : Plan) (args : List Script.Word) : Lowering Unit :=
  match args with
  | w :: _ :: _ =>
    match w.value? with
    | some handler =>
      if handler.isEmpty || isInteger handler || Text.hasPrefix handler "-" then pure ()
      else checkCode u w.pos "trap" handler
    | none => pure ()
  | _ => pure ()

def checkLet (u : Plan) (args : List Script.Word) : Lowering Unit :=
  args.forM fun w =>
    match w.value? with
    | some text =>
      if (Script.readAs .bash u.file ("((" ++ text ++ "))")).isFatal then
        u.warn w.pos ("let: " ++ Text.quoted text ++ " is not a valid expression")
      else pure ()
    | none => pure ()

-- A number where a builtin expects one.
def checkNumber (u : Plan) (b : Builtin) (args : List Script.Word) (ok : String → Bool) (what : String) :
    Lowering Unit :=
  match args with
  | w :: _ =>
    match w.value? with
    | some v => if ok v then pure () else u.warn w.pos (b.name ++ ": " ++ v ++ ": " ++ what)
    | none => pure ()
  | [] => pure ()

def isLoopCount (v : String) : Bool :=
  match Text.int64? v with
  | some n => n ≥ 1
  | none => false

-- Checks what can be known about the operands of a builtin before it runs.
def checkBuiltin (u : Plan) (p : Position) (b : Builtin) (name : Script.Word) (args : List Script.Word) :
    Lowering Unit :=
  match b with
  | .eval =>
    match staticText? args with
    | some text => if text.isEmpty then pure () else checkCode u p "eval" text
    | none => pure ()
  | .trap => checkTrap u args
  | .let_ => checkLet u args
  | .exit | .return_ | .shift => checkNumber u b args isInteger "numeric argument required"
  | .break_ | .continue_ => checkNumber u b args isLoopCount "loop count out of range"
  | .bracket =>
    if (args.getLast?.getD name).value? == some "]" then pure () else u.warn p "[: missing `]'"
  | .printf =>
    let args := match args with
      | w :: _ :: rest => if w.value? == some "-v" then rest else args
      | _ => args
    if args.isEmpty then u.warn p "printf: missing format" else pure ()
  | .alias =>
    if args.isEmpty then pure ()
    else u.report .notice p "aliases are recorded but not expanded in the converted program"
  | _ => pure ()

-- The builtin that declares variables under this name.
def declaration? (name : String) : Option Builtin :=
  match Builtin.ofName? name with
  | some b => if b.isDecl then some b else none
  | none => none

-- A command whose name is known in advance is bound to a builtin or to a program that the plan knows.
def lowerCall (u : Plan) (p : Position) (args : List Script.Word) (assigns : List Assign) (words : List Word)
    (redirs : List Redir) : Lowering Stmt := do
  let place : Place := ⟨p.line, p.column⟩
  let call (b : Option Builtin) (e : Option Nat) : Stmt := .call place assigns words redirs b e
  match args with
  | [] => return call none none
  | w :: rest =>
    match w.value? with
    | none => return call none none
    | some name =>
      match Builtin.ofName? name with
      | none => return call none (u.external name)
      | some b =>
        checkBuiltin u p b w rest
        let unit? := match rest with
          | operand :: _ => if b.isSource && assigns.isEmpty then u.unit operand else none
          | [] => none
        match unit? with
        | some unit => return .source place unit (words.drop 2) redirs
        | none => return call (some b) none

mutual

-- One list of parts for each part of the word.
def lowerEach (u : Plan) (index : IndexReader) (q : Quoting) : List Script.WordPart → Lowering (List (List Part))
  | [] => return []
  | p :: ps => do
    let x ← lowerPart u index q p
    return x :: (← lowerEach u index q ps)

def lowerPart (u : Plan) (index : IndexReader) (q : Quoting) : Script.WordPart → Lowering (List Part)
  | .lit _ s => return litOf q s
  | .single _ dollar s => return [.lit (if dollar then Script.unescapeAnsi s else s) true]
  | .double _ _ ps => do return [.quoted (← lowerEach u index .double ps).flatten]
  | .param _ x => do return [.param (← lowerParam u index x)]
  | .command _ body _ => do return [.subst (← lowerBlock u index body)]
  | .arith _ x => do return [.arith (← lowerOptArith u index x)]
  | .brace _ sequence ws => do return [.brace sequence (← lowerElems u index ws)]
  | .process p write _ => do
    u.report .unsupportedFeature p
      ("process substitution " ++ (if write then ">" else "<") ++ "(...) is not supported")
    return []

-- The elements of a brace expansion.
def lowerElems (u : Plan) (index : IndexReader) : List Script.Word → Lowering (List Word)
  | [] => return []
  | ⟨ps⟩ :: ws => do
    let w : Word := ⟨(← lowerEach u index .none ps).flatten⟩
    return w :: (← lowerElems u index ws)

-- A word as such.
def lowerPlain (u : Plan) (index : IndexReader) : Script.Word → Lowering Word
  | ⟨ps⟩ => do return ⟨withTilde ps (← lowerEach u index .none ps)⟩

def lowerOptPlain (u : Plan) (index : IndexReader) : Option Script.Word → Lowering (Option Word)
  | none => return none
  | some w => do return some (← lowerPlain u index w)

def lowerParam (u : Plan) (index : IndexReader) : Script.ParamExp → Lowering Param
  | ⟨_, name, length, indirect, names, idx, op, arg, repl⟩ => do
    let i ← lowerIndex u index idx
    let a ← lowerOptPlain u index arg
    let r ← lowerOptPlain u index repl
    return { name, length, indirect, names, index := i, op, arg := a, repl := r }

-- A subscript is no file name and has no tilde.
def lowerIndex (u : Plan) (index : IndexReader) : Option Script.Word → Lowering (Option Word)
  | none => return none
  | some ⟨ps⟩ => do return some ⟨(← lowerEach u index .none ps).flatten⟩

def lowerArith (u : Plan) (index : IndexReader) : Script.ArithExpr → Lowering Arith
  | .word w => do
    match arithLit? w with
    | some x => return x
    | none =>
      match element? w with
      | some (name, rest, tail) =>
        if w.parts.length == 1 then
          match ← index w.pos (Text.dropBack 1 rest) with
          | some x => return .var name (some x)
          | none => return .word (← lowerPlain u index w)
        else
          let each ← lowerElement u index w
          let inner := litUnlessEmpty rest ++ (dropLast (each.drop 1)).flatten ++ litUnlessEmpty tail
          return .var name (some (.word ⟨inner⟩))
      | none => return .word (← lowerPlain u index w)
  | .binary _ op x y => do
    let a ← lowerArith u index x
    let b ← lowerArith u index y
    return .binary op a b
  | .unary _ op post x => do return .unary op post (← lowerArith u index x)
  | .paren _ x => lowerArith u index x
  | .ternary c x y => do
    let a ← lowerArith u index c
    let b ← lowerArith u index x
    let d ← lowerOptArith u index y
    return .ternary a b d

-- The parts of an array element with an index that is only known when the program runs.
def lowerElement (u : Plan) (index : IndexReader) : Script.Word → Lowering (List (List Part))
  | ⟨ps⟩ => lowerEach u index .none ps

def lowerOptArith (u : Plan) (index : IndexReader) : Option Script.ArithExpr → Lowering (Option Arith)
  | none => return none
  | some x => do return some (← lowerArith u index x)

-- A word where a file may be named.
def lowerWord (u : Plan) (index : IndexReader) : Script.Word → Lowering Word
  | ⟨ps⟩ => do return bindPath u ⟨ps⟩ ⟨withTilde ps (← lowerEach u index .none ps)⟩

def lowerWords (u : Plan) (index : IndexReader) : List Script.Word → Lowering (List Word)
  | [] => return []
  | w :: ws => do
    let x ← lowerWord u index w
    return x :: (← lowerWords u index ws)

-- The words of a command line. The first one names the command, which is never a file that the plan knows.
def lowerLine (u : Plan) (index : IndexReader) : List Script.Word → Lowering (List Word)
  | [] => return []
  | w :: ws => do
    let x ← lowerPlain u index w
    return x :: (← lowerWords u index ws)

def lowerTest (u : Plan) (index : IndexReader) : Script.TestExpr → Lowering Test
  | .word w => do return .word (← lowerWord u index w)
  | .paren _ x => lowerTest u index x
  | .unary _ op x => do return .unary op (← lowerTest u index x)
  | .binary _ op x y => do
    let a ← lowerTest u index x
    let b ← lowerTest u index y
    return .binary op a b

-- An empty value is a quoted empty text, which differs from a name alone.
def lowerValue (u : Plan) (index : IndexReader) (naked : Bool) : Option Script.Word → Lowering (Option Word)
  | none => return if naked then none else some ⟨[.lit "" true]⟩
  | some w => do
    let x ← lowerWord u index w
    return if naked then none else if w.parts.isEmpty then some ⟨[.lit "" true]⟩ else some x

def lowerAssign (u : Plan) (index : IndexReader) : Script.Assignment → Lowering Assign
  | ⟨_, name, idx, append, naked, value, array⟩ => do
    let i ← lowerOptPlain u index idx
    match array with
    | some ⟨_, elems⟩ => do
      let xs ← lowerWords u index elems
      return { name, index := i, append, value := none, array := some xs }
    | none => do
      let v ← lowerValue u index naked value
      return { name, index := i, append, value := v, array := none }

def lowerAssigns (u : Plan) (index : IndexReader) : List Script.Assignment → Lowering (List Assign)
  | [] => return []
  | a :: as => do
    let x ← lowerAssign u index a
    return x :: (← lowerAssigns u index as)

-- The text of a here-document.
def lowerDoc (u : Plan) (index : IndexReader) : Option Script.HereDoc → Lowering (Option Word)
  | none => return none
  | some ⟨_, _, quoted, _, raw, body⟩ => do
    if quoted then return some ⟨[.lit raw true]⟩
    else match body with
      | some ⟨ps⟩ => do return some ⟨(← lowerEach u index .hereDoc ps).flatten⟩
      | none => return some ⟨[]⟩

def lowerRedirects (u : Plan) (index : IndexReader) : List Script.Redirect → Lowering (List Redir)
  | [] => return []
  | ⟨opPos, op, n, word, doc⟩ :: rs => do
    let pos := Script.Redirect.pos ⟨opPos, op, n, word, doc⟩
    match descriptor? n, redirOp? op with
    | none, _ =>
      u.report .generation pos ("invalid file descriptor " ++ Text.quoted n)
      lowerRedirects u index rs
    | some fd, some op =>
      let target ← match ← lowerDoc u index doc with
        | some text => pure text
        | none => lowerWord u index word
      return { n := fd, op, word := target } :: (← lowerRedirects u index rs)
    | some _, none =>
      u.report .unsupportedFeature pos ("redirection operator " ++ op.text)
      lowerRedirects u index rs

def lowerBlock (u : Plan) (index : IndexReader) : Script.Block → Lowering Block
  | ⟨_, items⟩ => do return ⟨u.file, ← lowerCommands u index items⟩

def lowerOptBlock (u : Plan) (index : IndexReader) : Option Script.Block → Lowering (Option Block)
  | none => return none
  | some b => do return some (← lowerBlock u index b)

def lowerCommands (u : Plan) (index : IndexReader) : List Script.Command → Lowering (List Stmt)
  | [] => return []
  | c :: cs => do
    let x ← lowerCommand u index c
    return x :: (← lowerCommands u index cs)

-- Each further branch stands alone in the other branch of the one before.
def lowerElifs (u : Plan) (index : IndexReader) (no : Lowering (Option Block)) :
    List Script.Elif → Lowering (Option Block)
  | [] => no
  | ⟨_, cond, yes⟩ :: es => do
    let c ← lowerBlock u index cond
    let y ← lowerBlock u index yes
    let rest ← lowerElifs u index no es
    return some ⟨u.file, [.ifThen c y rest]⟩

def lowerArms (u : Plan) (index : IndexReader) : List Script.CaseItem → Lowering (List CaseArm)
  | [] => return []
  | ⟨patterns, body, term⟩ :: is => do
    let ps ← lowerWords u index patterns
    let b ← lowerBlock u index body
    return { patterns := ps, body := b, term } :: (← lowerArms u index is)

def lowerCommand (u : Plan) (index : IndexReader) : Script.Command → Lowering Stmt
  | .andOr _ op x y => do
    let a ← lowerCommand u index x
    let b ← lowerCommand u index y
    return .andOr op a b
  | .pipeline _ negated cmds stderr => do return .pipeline negated (← lowerCommands u index cmds) stderr
  | .background x => do return .background (← lowerCommand u index x)
  | .simple assigns args redirs => do
    let pos := Script.Command.simplePos assigns args redirs
    let as ← lowerAssigns u index assigns
    let ws ← lowerLine u index args
    let rs ← lowerRedirects u index redirs
    lowerCall u pos args as ws rs
  | .declare p variant opts assigns redirs => do
    match declaration? variant with
    | none =>
      u.report .generation p (variant ++ " is not a declaration builtin")
      return default
    | some b =>
      let os ← lowerWords u index opts
      let as ← lowerAssigns u index assigns
      let rs ← lowerRedirects u index redirs
      return .decl ⟨p.line, p.column⟩ b os as rs
  | .ifThen _ cond yes elifs no => do
    let c ← lowerBlock u index cond
    let y ← lowerBlock u index yes
    let n ← lowerElifs u index (lowerOptBlock u index no) elifs
    return .ifThen c y n
  | .loop _ untilTrue cond body => do
    let c ← lowerBlock u index cond
    let b ← lowerBlock u index body
    return .loop untilTrue c b
  | .forIn _ name _ hasIn items body => do
    let ws ← lowerWords u index items
    let b ← lowerBlock u index body
    return .forIn name (!hasIn) ws b
  | .forArith _ x y z body => do
    let a ← lowerOptArith u index x
    let b ← lowerOptArith u index y
    let c ← lowerOptArith u index z
    let d ← lowerBlock u index body
    return .forArith a b c d
  | .select _ name _ hasIn items body => do
    let ws ← lowerWords u index items
    let b ← lowerBlock u index body
    return .select name (!hasIn) ws b
  | .caseOf _ word items => do
    let w ← lowerWord u index word
    return .caseOf w (← lowerArms u index items)
  | .function _ name _ _ body => do return .function name (← lowerCommand u index body)
  | .subshell _ body => do return .subshell (← lowerBlock u index body)
  | .group _ body => do return .group (← lowerBlock u index body)
  | .arith _ x => do return .arith (← lowerArith u index x)
  | .test _ x => do return .test (← lowerTest u index x)
  | .redirected x redirs => do
    let a ← lowerCommand u index x
    return .redirected a (← lowerRedirects u index redirs)

end

-- The one expression that a text between double parentheses has to be.
def onlyExpr? (f : Script.File) : Option Script.ArithExpr :=
  if f.isFatal then none
  else match f.body.items with
    | [.arith _ x] => some x
    | _ => none

-- The index of an array element that is written out: an expression of its own. Every index is shorter than
-- the text around it.
def indexAt (u : Plan) : Nat → IndexReader
  | 0, _, _ => return none
  | n + 1, _, text =>
    lowerOptArith u.unbound (indexAt u n) (onlyExpr? (Script.readAs .bash u.file ("((" ++ text ++ "))")))

-- An index is at most as long as the script, whose length bounds how deep indices nest.
def lowerScript (u : Plan) (depth : Nat) (b : Script.Block) : Block × List Diagnostic :=
  let (x, diags) := (lowerBlock u (indexAt u depth) b).run #[]
  (x, diags.toList)

-- Code that cannot be turned into a program, with everything that is wrong with it.
structure CompileError where
  diags : List Diagnostic

def CompileError.message (e : CompileError) : String := "compile: " ++ Diagnostic.textAll e.diags

-- Code on its own. A name with a slash is a file, whose dialect is looked for; anything else is bash.
def readCode (name src : String) : Script.File :=
  if name.toList.contains '/' then Script.read none name src else Script.readAs .bash name src

def compile (name src : String) : Except CompileError Block :=
  let f := readCode name src
  if f.isFatal then .error ⟨f.diags⟩
  else
    let (b, diags) := lowerScript { file := name } (src.length + 1) f.body
    if Diagnostic.anyFatal diags then .error ⟨diags⟩ else .ok b

-- The options that the flags of an interpreter line set.
def Options.setLetter (o : Options) (c : Char) : Options :=
  match c with
  | 'e' => { o with errexit := true }
  | 'u' => { o with nounset := true }
  | 'x' => { o with xtrace := true }
  | 'f' => { o with noglob := true }
  | _ => o

def Options.setName (o : Options) (name : String) : Options :=
  match name with
  | "errexit" => { o with errexit := true }
  | "nounset" => { o with nounset := true }
  | "pipefail" => { o with pipefail := true }
  | "xtrace" => { o with xtrace := true }
  | "noglob" => { o with noglob := true }
  | _ => o

def Options.setFlags (o : Options) : List String → Options
  | [] => o
  | "-o" :: name :: rest => (o.setName name).setFlags rest
  | w :: rest =>
    let o := match w.toList with
      | '-' :: c :: cs => if c == '-' then o else (c :: cs).foldl Options.setLetter o
      | _ => o
    o.setFlags rest

def Options.ofShebang (o : Options) (line : String) : Options :=
  match Text.shellWords (Text.withoutPrefix line "#!") with
  | .ok (_ :: flags) => o.setFlags flags
  | _ => o

end Program
end ShellScript

import ShellScript.Dependency.Graph
import ShellScript.Path
import ShellScript.Program.Builtin
import ShellScript.Script.Print
import ShellScript.Script.Word

-- The files, programs and addresses that a script refers to, found without running it.
namespace ShellScript
namespace Dependency

open Script

-- A word that names a file.
structure Reference where
  unit : String
  -- the word as it is written
  expr : String
  pos : Position
  -- the files it names, as far as they are known
  paths : List String := []
  -- what it names depends on a run
  dynamic : Bool := false
  usage : Usage := {}
deriving Repr, DecidableEq, Inhabited

namespace Reference

def isStatic (r : Reference) : Bool := !r.dynamic && r.paths.length == 1

-- The name under which the dependency is known.
def key (r : Reference) : String := if r.isStatic then r.paths.headD "" else r.expr

end Reference

def isAddressChar (c : Char) : Bool :=
  !(Text.isBlank c || c == '\n' || c == '\x0c' || c == '<' || c == '>' || c == '"' || c == '\'' || c == '\x7b'
    || c == '\x7d' || c == '|' || c == '\\' || c == '^' || c == Text.backquote || c == '[' || c == ']')

-- The address at the beginning of a text.
def addressAt? (cs : List Char) : Option (List Char) :=
  let from_ (start : String) : Option (List Char) :=
    if start.toList.isPrefixOf cs then
      match (cs.drop start.length).takeWhile isAddressChar with
      | [] => none
      | host => some (start.toList ++ host)
    else none
  (from_ "http://").orElse fun _ => from_ "https://"

-- The addresses in a text; those that begin inside another one are not counted.
def addressesFrom : Nat → List Char → List String
  | _, [] => []
  | skip + 1, _ :: cs => addressesFrom skip cs
  | 0, c :: cs =>
    match addressAt? (c :: cs) with
    | some a => String.ofList a :: addressesFrom (a.length - 1) cs
    | none => addressesFrom 0 cs

def addresses (s : String) : List String := addressesFrom 0 s.toList

def hasAddress (s : String) : Bool := !(addresses s).isEmpty

-- Where a command stands.
structure Place where
  inLoop : Bool := false
  inCondition : Bool := false

structure Found where
  -- variables whose value is known
  vars : List (String × String) := []
  -- all lists have the last find first
  refs : List Reference := []
  commands : List (String × Position) := []
  addresses : List (String × Position) := []
  -- files that are tested for
  guards : List String := []

abbrev Collecting := StateM Found

-- The script that is looked at.
structure Origin where
  unit : String
  glob : String → List String

def Origin.absolute (o : Origin) (p : String) : String :=
  if Path.isAbs p then Path.clean p else Path.join [Path.dir o.unit, p]

def forget (name : String) : Collecting Unit := modify fun f => { f with vars := f.vars.filter (·.1 != name) }

-- Text with its escapes removed, but for those of pattern characters.
def unescapeKeepGlob : List Char → List Char
  | '\\' :: '\n' :: cs => unescapeKeepGlob cs
  | '\\' :: c :: cs =>
    if c == '*' || c == '?' || c == '[' || c == '\\' then '\\' :: c :: unescapeKeepGlob cs
    else c :: unescapeKeepGlob cs
  | c :: cs => c :: unescapeKeepGlob cs
  | [] => []

mutual

def literalPart? (vars : List (String × String)) (quoted glob : Bool) : WordPart → Option String
  | .lit _ s =>
    some (if quoted then unescapeDouble s
      else if glob then String.ofList (unescapeKeepGlob s.toList)
      else unescape s)
  | .single _ dollar s => some (if dollar then unescapeAnsi s else s)
  | .double _ _ ps => literalParts? vars true glob ps
  | .param _ x =>
    if x.op.isSome || x.length || x.indirect || x.index.isSome then none else vars.lookup x.name
  | _ => none

def literalParts? (vars : List (String × String)) (quoted glob : Bool) : List WordPart → Option String
  | [] => some ""
  | p :: ps => do return (← literalPart? vars quoted glob p) ++ (← literalParts? vars quoted glob ps)

end

-- What is known about the value of a word.
inductive Literal where
  | static (s : String)
  | glob (pattern : String)
  | dynamic

def literal (vars : List (String × String)) (w : Word) : Literal :=
  match literalParts? vars false w.hasGlob w.parts with
  | none => .dynamic
  | some s =>
    if Text.hasPrefix s "~" then .dynamic
    else if w.hasGlob then .glob s else .static s

def newReference (o : Origin) (at_ : Place) (w : Word) (u : Usage) (cmd : String) : Reference where
  unit := o.unit
  expr := w.text
  pos := w.pos
  usage := { u with
    inLoop := u.inLoop || at_.inLoop
    inCondition := u.inCondition || at_.inCondition
    commands := if cmd.isEmpty then u.commands else [cmd] }

def push (r : Reference) : Collecting Unit := modify fun f => { f with refs := r :: f.refs }

-- Records the file that a word names.
def refer (o : Origin) (at_ : Place) (u : Usage) (cmd : String) (w : Word) : Collecting Unit := do
  let r := newReference o at_ w u cmd
  match literal (← get).vars w with
  | .static s => if s.isEmpty then pure () else push { r with paths := [o.absolute s] }
  | .glob p => push { r with dynamic := true, paths := o.glob (o.absolute p) }
  | .dynamic => push { r with dynamic := true }

def referText (o : Origin) (at_ : Place) (u : Usage) (cmd : String) (w : Word) (s : String) : Collecting Unit :=
  push { newReference o at_ w u cmd with paths := [o.absolute s] }

def referAll (o : Origin) (at_ : Place) (u : Usage) (cmd : String) (ws : List Word) : Collecting Unit :=
  ws.forM (refer o at_ u cmd)

-- The operands that can be files.
def referFiles (o : Origin) (at_ : Place) (u : Usage) (cmd : String) (ws : List Word) : Collecting Unit :=
  referAll o at_ u cmd (ws.filter fun w => match w.value? with
    | some s => !(s == "-" || s == "." || hasAddress s)
    | none => true)

def guard (o : Origin) (w : Word) : Collecting Unit := do
  match literal (← get).vars w with
  | .static s => if s.isEmpty then pure () else modify fun f => { f with guards := o.absolute s :: f.guards }
  | _ => pure ()

def isFileTest (op : String) : Bool :=
  ["-e", "-a", "-f", "-d", "-r", "-w", "-x", "-s", "-L", "-h", "-b", "-c", "-p", "-S"].contains op

-- Commands whose operands are files.
def readers : List String :=
  ["cat", "less", "more", "head", "tail", "wc", "sort", "uniq", "cut", "md5sum", "sha1sum", "sha256sum", "diff",
    "cmp", "base64", "xxd", "od", "strings", "file", "stat", "nl", "tac", "paste", "column"]

-- Commands whose first operand is a pattern or a program.
def patternCommands : List String := ["grep", "egrep", "fgrep", "sed", "awk", "jq"]

def monitors : List String := ["inotifywait", "inotifywatch", "fswatch", "watch"]

def writers : List String := ["rm", "unlink", "touch", "truncate", "mkdir", "rmdir", "shred"]

def modeCommands : List String := ["chmod", "chown", "chgrp"]

def copiers : List String := ["cp", "mv", "install", "ln", "rsync"]

-- Commands that run the command after them.
def wrappers : List String := ["command", "exec", "nohup", "sudo", "env", "time", "nice", "xargs", "timeout"]

def isOption (s : String) : Bool := Text.hasPrefix s "-" && s != "-"

-- A command line without its options; after `--` everything is an operand.
def operandsOf : Bool → List Word → List Word
  | _, [] => []
  | true, ws => ws
  | false, w :: ws =>
    match w.value? with
    | some s =>
      if s == "--" then operandsOf true ws
      else if isOption s then operandsOf false ws
      else w :: operandsOf false ws
    | none => w :: operandsOf false ws

-- Whether one of the flags is given, alone or among other short ones.
def hasFlag (flags : List String) (args : List Word) : Bool :=
  args.any fun w => match w.value? with
    | some s =>
      flags.contains s || match s.toList with
        | '-' :: c :: d :: rest =>
          c != '-' && flags.any fun f => match f.toList with
            | ['-', l] => (c :: d :: rest).contains l
            | _ => false
        | _ => false
    | none => false

-- Whether a word has the shape of a path.
def looksLikePath (w : Word) : Bool :=
  let start := w.value?.orElse fun _ => match w.parts with
    | .lit _ s :: _ => some (unescape s)
    | .single _ _ s :: _ => some s
    | _ => none
  match start with
  | some s => !hasAddress s && ["/", "./", "../", "~/"].any (Text.hasPrefix s)
  | none => false

-- What follows the options of a command that runs another one.
def wrapped (name : String) : List Word → List Word
  | [] => []
  | w :: ws =>
    match w.value? with
    | none => w :: ws
    | some s =>
      if s == "--" then ws
      else if Text.hasPrefix s "-" then wrapped name ws
      else if name == "env" && s.toList.contains '=' then wrapped name ws
      else if (name == "timeout" || name == "nice") && Text.isNumeral (Text.withoutSuffix s "s") then wrapped name ws
      else w :: ws

-- A command that is run.
def invoke (o : Origin) (name : String) (p : Position) : Collecting Unit :=
  let add (n : String) : Collecting Unit := modify fun f => { f with commands := (n, p) :: f.commands }
  if Token.isReserved name then pure ()
  else if name.toList.contains '/' then add (o.absolute name)
  else if (Builtin.ofName? name).isSome then pure ()
  else add name

-- The operands of a command with a pattern, and whether the pattern is given by an option. Files that options
-- name are recorded.
def patternOperands (o : Origin) (at_ : Place) (name : String) : List Word → Collecting (List Word × Bool)
  | [] => pure ([], false)
  | w :: ws => do
    let s := w.value?.getD ""
    if s == "-e" || s == "--regexp" || s == "--expression" then
      match ws with
      | [] => pure ([], true)
      | _ :: rest => return ((← patternOperands o at_ name rest).1, true)
    else if s == "-f" || s == "--file" then
      match ws with
      | [] => pure ([], true)
      | v :: rest =>
        refer o at_ { reads := 1 } name v
        return ((← patternOperands o at_ name rest).1, true)
    else if isOption s then patternOperands o at_ name ws
    else
      let (files, given) ← patternOperands o at_ name ws
      pure (w :: files, given)

-- The files that a download goes to.
def downloads (o : Origin) (at_ : Place) (name : String) : List Word → Collecting Unit
  | w :: v :: ws => do
    let s := w.value?.getD ""
    if s == (if name == "wget" then "-O" else "-o") || s == "--output" || s == "--output-document" then
      if v.value?.getD "" != "-" then refer o at_ { writes := 1 } name v
      downloads o at_ name ws
    else downloads o at_ name (v :: ws)
  | _ => pure ()

def guards (o : Origin) : List Word → Collecting Unit
  | w :: v :: ws => do
    if (w.lit?.map isFileTest).getD false then guard o v
    guards o (v :: ws)
  | _ => pure ()

-- What a command does with its operands.
def operands (o : Origin) (at_ : Place) (name : String) (args : List Word) : Collecting Unit := do
  let b := Builtin.ofName? name
  let files (u : Usage) (ws : List Word) : Collecting Unit := referFiles o at_ u name ws
  let plain := operandsOf false args
  if (b.map Builtin.isSource).getD false then
    referAll o at_ { reads := 1, sourced := true } name (args.take 1)
  else if b == some .test || b == some .bracket then guards o args
  else if b == some .read || b == some .getopts then
    args.forM fun w => match w.lit? with
      | some s => if Text.isName s then forget s else pure ()
      | none => pure ()
  else if readers.contains name then
    files { reads := 1, monitored := name == "tail" && hasFlag ["-f", "-F", "--follow"] args } plain
  else if patternCommands.contains name then
    let inPlace := name == "sed" && hasFlag ["-i", "--in-place"] args
    let (ws, given) ← patternOperands o at_ name args
    files { reads := 1, writes := if inPlace then 1 else 0 } (if given then ws else ws.drop 1)
  else if monitors.contains name then
    referAll o at_ { monitored := true } name (plain.filter fun w => name != "watch" || looksLikePath w)
  else if writers.contains name then files { writes := 1 } plain
  else if modeCommands.contains name then files { writes := 1 } (plain.drop 1)
  else if name == "tee" then
    files (if hasFlag ["-a", "--append"] args then { appends := 1 } else { writes := 1 }) plain
  else if copiers.contains name then
    if plain.length < 2 then pure ()
    else
      files { reads := 1, writes := if name == "mv" then 1 else 0 } plain.dropLast
      files { writes := 1 } (plain.drop (plain.length - 1))
  else if name == "dd" then
    args.forM fun w =>
      let s := w.value?.getD ""
      if Text.hasPrefix s "if=" then referText o at_ { reads := 1 } name w (Text.dropFront 3 s)
      else if Text.hasPrefix s "of=" then referText o at_ { writes := 1 } name w (Text.dropFront 3 s)
      else pure ()
  else if name == "curl" || name == "wget" then downloads o at_ name args
  else referAll o at_ { reads := 1 } name (args.filter looksLikePath)

-- The command that a line runs, and the commands that it runs in turn.
def commandLine (o : Origin) (at_ : Place) : Nat → List Word → Collecting Unit
  | 0, _ | _, [] => pure ()
  | fuel + 1, w :: ws => do
    match literal (← get).vars w with
    | .static name =>
      if name.isEmpty then pure ()
      else
        invoke o name w.pos
        if wrappers.contains name then commandLine o at_ fuel (wrapped name ws)
        else operands o at_ name ws
    | _ => pure ()

-- What a redirection does to its target.
def redirectUsage? (op : Token.Kind) (target : Word) : Option Usage :=
  match op with
  | .less => some { reads := 1 }
  | .great | .clobber | .andGreat => some { writes := 1 }
  | .dgreat | .andDgreat => some { appends := 1 }
  | .lessGreat => some { reads := 1, writes := 1 }
  | .lessAnd | .greatAnd =>
    match target.lit? with
    | some s => if s == "-" || Text.isNumeral s then none else some { writes := 1 }
    | none => some { writes := 1 }
  | _ => none

-- The variable after an assignment of a value that may be known.
def setVariable (a : Assignment) (v : Word) : Collecting Unit := do
  let vars := (← get).vars
  match literal vars v with
  | .static s =>
    let before := if a.append then (vars.lookup a.name).getD "" else ""
    forget a.name
    modify fun f => { f with vars := (a.name, before ++ s) :: f.vars }
  | _ => forget a.name

def scanText (p : Position) (s : String) : Collecting Unit :=
  modify fun f => { f with addresses := ((addresses s).map (·, p)).reverse ++ f.addresses }

def targetName? : ArithExpr → Option String
  | .word w => w.lit?
  | _ => none

mutual

-- Looks into a part for commands and addresses. Inside a command's arithmetic (`counting`) assignments are followed
-- and texts are not read.
def part (o : Origin) (at_ : Place) (counting : Bool) : WordPart → Collecting Unit
  | .lit p s => if counting then pure () else scanText p s
  | .single p _ s => if counting then pure () else scanText p s
  | .double _ _ ps => parts o at_ counting ps
  | .param _ ⟨_, _, _, _, _, index, _, arg, repl⟩ => do
    optWord o at_ counting index
    optWord o at_ counting arg
    optWord o at_ counting repl
  | .command _ body _ => block o at_ body
  | .arith _ x => optArith o at_ counting x
  | .brace _ _ ws => words o at_ counting ws
  | .process _ _ body => block o at_ body

def parts (o : Origin) (at_ : Place) (counting : Bool) : List WordPart → Collecting Unit
  | [] => pure ()
  | p :: ps => do
    part o at_ counting p
    parts o at_ counting ps

def word (o : Origin) (at_ : Place) (counting : Bool) : Word → Collecting Unit
  | ⟨ps⟩ => parts o at_ counting ps

def optWord (o : Origin) (at_ : Place) (counting : Bool) : Option Word → Collecting Unit
  | none => pure ()
  | some w => word o at_ counting w

def words (o : Origin) (at_ : Place) (counting : Bool) : List Word → Collecting Unit
  | [] => pure ()
  | w :: ws => do
    word o at_ counting w
    words o at_ counting ws

def arith (o : Origin) (at_ : Place) (counting : Bool) : ArithExpr → Collecting Unit
  | .word w => word o at_ counting w
  | .binary _ op x y => do
    match targetName? x with
    | some name => if counting && op.isAssign then forget name else pure ()
    | none => pure ()
    arith o at_ counting x
    arith o at_ counting y
  | .unary _ _ _ x => arith o at_ counting x
  | .paren _ x => arith o at_ counting x
  | .ternary c x y => do
    arith o at_ counting c
    arith o at_ counting x
    optArith o at_ counting y

def optArith (o : Origin) (at_ : Place) (counting : Bool) : Option ArithExpr → Collecting Unit
  | none => pure ()
  | some x => arith o at_ counting x

def test (o : Origin) (at_ : Place) : TestExpr → Collecting Unit
  | .word w => word o at_ false w
  | .binary _ _ x y => do
    test o at_ x
    test o at_ y
  | .unary _ op x => do
    match x with
    | .word w => if isFileTest op then guard o w else pure ()
    | _ => pure ()
    test o at_ x
  | .paren _ x => test o at_ x

def optArray (o : Origin) (at_ : Place) : Option ArrayExpr → Collecting Unit
  | none => pure ()
  | some ⟨_, elems⟩ => words o at_ false elems

def assign (o : Origin) (at_ : Place) : Assignment → Collecting Unit
  | ⟨p, name, index, append, naked, value, array⟩ => do
    optWord o at_ false value
    optWord o at_ false index
    optArray o at_ array
    if naked then pure ()
    else match value, index, array with
      | some v, none, none => setVariable ⟨p, name, index, append, naked, value, array⟩ v
      | _, _, _ => forget name

def assigns (o : Origin) (at_ : Place) : List Assignment → Collecting Unit
  | [] => pure ()
  | a :: as => do
    assign o at_ a
    assigns o at_ as

-- Assignments that hold for one command only.
def values (o : Origin) (at_ : Place) : List Assignment → Collecting Unit
  | [] => pure ()
  | ⟨_, _, _, _, _, value, _⟩ :: as => do
    optWord o at_ false value
    values o at_ as

def redirects (o : Origin) (at_ : Place) : List Redirect → Collecting Unit
  | [] => pure ()
  | ⟨_, op, _, target, doc⟩ :: rs => do
    match doc with
    | some ⟨_, _, _, _, _, body⟩ => optWord o at_ false body
    | none =>
      word o at_ false target
      match redirectUsage? op target with
      | some u => refer o at_ u "" target
      | none => pure ()
    redirects o at_ rs

-- The words that a loop runs over.
def loopItems (o : Origin) (at_ : Place) : List Word → Collecting Unit
  | [] => pure ()
  | w :: ws => do
    word o at_ false w
    if looksLikePath w then refer o at_ { reads := 1 } "for" w
    loopItems o at_ ws

def block (o : Origin) (at_ : Place) : Block → Collecting Unit
  | ⟨_, items⟩ => commands o at_ items

def optBlock (o : Origin) (at_ : Place) : Option Block → Collecting Unit
  | none => pure ()
  | some b => block o at_ b

def commands (o : Origin) (at_ : Place) : List Command → Collecting Unit
  | [] => pure ()
  | c :: cs => do
    command o at_ c
    commands o at_ cs

def elifs (o : Origin) (at_ : Place) : List Elif → Collecting Unit
  | [] => pure ()
  | ⟨_, cond, yes⟩ :: es => do
    block o { at_ with inCondition := true } cond
    block o at_ yes
    elifs o at_ es

def caseItems (o : Origin) (at_ : Place) : List CaseItem → Collecting Unit
  | [] => pure ()
  | ⟨_, body, _⟩ :: is => do
    block o at_ body
    caseItems o at_ is

def command (o : Origin) (at_ : Place) : Command → Collecting Unit
  | .andOr _ _ x y => do
    command o { at_ with inCondition := true } x
    command o at_ y
  | .pipeline _ _ cmds _ => commands o at_ cmds
  | .background x => command o at_ x
  | .simple as args redirs => do
    if args.isEmpty then assigns o at_ as else values o at_ as
    words o at_ false args
    redirects o at_ redirs
    commandLine o at_ args.length args
  | .declare _ _ opts as redirs => do
    words o at_ false opts
    assigns o at_ as
    redirects o at_ redirs
  | .ifThen _ cond yes es no => do
    block o { at_ with inCondition := true } cond
    block o at_ yes
    elifs o at_ es
    optBlock o at_ no
  | .loop _ _ cond body => do
    block o { inLoop := true, inCondition := true } cond
    block o { at_ with inLoop := true } body
  | .forIn _ name _ _ items body => do
    loopItems o at_ items
    forget name
    block o { at_ with inLoop := true } body
  | .select _ name _ _ items body => do
    loopItems o at_ items
    forget name
    block o { at_ with inLoop := true } body
  | .forArith _ x y z body => do
    optArith o at_ true x
    optArith o at_ true y
    optArith o at_ true z
    block o { at_ with inLoop := true } body
  | .caseOf _ w items => do
    word o at_ false w
    caseItems o at_ items
  | .function _ _ _ _ body => command o at_ body
  | .subshell _ body => block o at_ body
  | .group _ body => block o at_ body
  | .arith _ x => arith o at_ true x
  | .test _ x => test o at_ x
  | .redirected x redirs => do
    command o at_ x
    redirects o at_ redirs

end

-- All that a script refers to, in the order in which it is found.
def collect (o : Origin) (body : Block) : Found :=
  let f := ((block o {} body).run {}).2
  let mark (r : Reference) : Reference :=
    if r.paths.any f.guards.contains then { r with usage := { r.usage with guarded := true } } else r
  { f with refs := (f.refs.map mark).reverse, commands := f.commands.reverse, addresses := f.addresses.reverse }

end Dependency
end ShellScript

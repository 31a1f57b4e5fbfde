import ShellScript.Machine.Command.Directory
import ShellScript.Machine.Command.Input
import ShellScript.Machine.Command.Job
import ShellScript.Machine.Command.Lookup
import ShellScript.Machine.Declare
import ShellScript.Machine.Redirect
import ShellScript.Machine.Test

-- One step down into a program: what each statement and each command does, given an engine for the statements
-- inside.
namespace ShellScript
namespace Machine

open Program (Word Assign Redir Stmt Block CaseArm)
open Run

-- Compiles a text and runs it in the current shell.
def evalText (E : Engine) (name src : String) : Run Unit :=
  if (Text.trim src).isEmpty then setStatus 0
  else if !E.compiles then fail (.withDetail .noCompiler name)
  else match Program.compile name src with
    | .error e => complainWith 2 (name ++ ": " ++ e.message)
    | .ok b => do
      setStatus 0
      E.stmt (.group b)

-- Runs a trap's text. The status stays, and only `exit` has an effect on what follows.
def runTrap (E : Engine) (text : String) : Run Unit := do
  let status := (← shell).status
  let body := within (fun s => { s with conditions := s.conditions + 1 })
    (fun before s => { s with conditions := before.conditions }) (evalText E "trap" text)
  fun s =>
    match body s with
    | .ok _ s => setStatus status s
    | .error (.fail f) s => (do complain f.report; setStatus status : Run Unit) s
    | .error (.return_ _) s => setStatus status s
    | .error (.loop _ _) s => setStatus status s
    | .error e s => .error e s

-- What follows a command that failed: the trap for it, and the end of the shell if it shall stop there.
def afterCommand (E : Engine) : Run Unit := do
  let s ← shell
  if s.status == 0 || s.conditions > 0 then return
  match s.traps.lookup "ERR" with
  | some text => if !text.isEmpty then runTrap E text
  | none => pure ()
  setStatus s.status
  if (← shell).options.errexit then throw (.exit s.status)

def checked (E : Engine) (body : Run Unit) : Run Unit := do
  body
  afterCommand E

-- A failure that ends only the command that raised it is reported, and the next one runs.
def recovering (E : Engine) (body : Run Unit) : Run Unit := fun s =>
  match body s with
  | .error (.fail f) s =>
    if f.isRecoverable then (do complainWith 1 f.report; afterCommand E : Run Unit) s else .error (.fail f) s
  | r => r

def runStmts (E : Engine) : List Stmt → Run Unit
  | [] => return
  | st :: rest => do
    recovering E (E.stmt st)
    E.between
    runStmts E rest

def runBlock (E : Engine) (b : Block) : Run Unit := runStmts E b.stmts

-- Runs the traps of the signals that have arrived, `n` at most.
def runArrived (E : Engine) : Nat → Run Unit
  | 0 => return
  | n + 1 => do
    match ← nextSignal with
    | none => return
    | some signal =>
      let text := ((← shell).traps.lookup signal.name).getD ""
      if !text.isEmpty then runTrap E text
      runArrived E n

def runSignals (E : Engine) : Run Unit := do
  if (← shell).sub then return
  runArrived E (← world).arrivals.length

-- Runs something whose failure is an answer.
def asCondition (body : Run Unit) : Run Unit :=
  within (fun s => { s with conditions := s.conditions + 1 })
    (fun before s => { s with conditions := before.conditions }) body

-- Runs the trap for the end of a shell that ends with `status`.
def finish (E : Engine) (status : Int) : Run Int := do
  match (← shell).traps.lookup "EXIT" with
  | none => return status
  | some text =>
    if text.isEmpty then return status
    modifyShell fun s => { s with traps := s.traps.erase "EXIT", status }
    fun s =>
      match evalText E "trap" text s with
      | .ok _ s => .ok status s
      | .error (.exit c) s => .ok c s
      | .error (.stopped why) s => .error (.stopped why) s
      | .error _ s => .ok status s

-- A sourced file: `return` leaves it.
def runUnit (E : Engine) (b : Block) : Run Unit :=
  within (fun s => { s with sources := s.sources + 1, status := 0 })
    (fun before s => { s with sources := before.sources })
    fun s =>
      match E.stmt (.group b) s with
      | .error (.return_ c) s => setStatus c s
      | r => r

def withParams (params : List String) (body : Run Unit) : Run Unit :=
  within (fun s => { s with params }) (fun before s => { s with params := before.params }) body

def maxCalls : Nat := 1000

def callFunction (E : Engine) (body : Stmt) (name : String) (args : List String) : Run Unit := do
  if (← shell).calls ≥ maxCalls then
    fail (.ofText .program (name ++ ": maximum function nesting level exceeded"))
  within
    (fun s => { s with params := args, loops := 0, env := s.env.push, calls := s.calls + 1 })
    (fun before s => { s with params := before.params, loops := before.loops, env := s.env.pop, calls := before.calls })
    fun s =>
      match E.stmt body s with
      | .error (.return_ c) s => setStatus c s
      | r => r

-- Runs a function, a builtin or an external program.
def dispatchPlain (E : Engine) (name : String) (args : List String) : Run Unit := do
  let builtin := Builtin.ofName? name
  match (← shell).functions.lookup name with
  | some body => if (builtin.map Builtin.isSpecial).getD false then runBuiltin builtin else callFunction E body name args
  | none => runBuiltin builtin
where
  runBuiltin : Option Builtin → Run Unit
    | some b => E.builtin b (name :: args)
    | none => runExternal E.program [] name args

namespace Command

def exit (args : List String) : Run Unit := do
  match args with
  | [] => throw (.exit ((← shell).status % 256))
  | a :: _ =>
    match Text.int64? a with
    | some n => throw (.exit (n % 256))
    | none =>
      complain ("exit: " ++ a ++ ": numeric argument required")
      throw (.exit 2)

def return_ (args : List String) : Run Unit := do
  let s ← shell
  if s.calls == 0 && s.sources == 0 then
    complainWith 1 "return: can only \x60return' from a function or sourced script"
  else match args with
    | [] => throw (.return_ (s.status % 256))
    | a :: _ =>
      match Text.int64? a with
      | some n => throw (.return_ (n % 256))
      | none =>
        complain ("return: " ++ a ++ ": numeric argument required")
        throw (.return_ 2)

-- `break` and `continue`.
def leaveLoop (name : String) (next : Bool) (args : List String) : Run Unit := do
  let count? : Option Nat := match args with
    | [] => some 1
    | a :: _ => (Text.int64? a).bind fun n => if n < 1 then none else some n.toNat
  match count? with
  | none => complainWith 1 (name ++ ": " ++ args.headD "" ++ ": loop count out of range")
  | some n =>
    let loops := (← shell).loops
    if loops == 0 then
      complainWith 0 (name ++ ": only meaningful in a \x60for', \x60while', or \x60until' loop")
    else
      setStatus 0
      throw (.loop (min n loops) next)

-- A file named at run time: by its path, or in the directories of `PATH` and then here.
def sourceCandidates (s : Shell) (file : String) : List String :=
  if file.toList.contains '/' then [Path.resolve s.dir file]
  else
    let path := (s.env.value? "PATH").getD ""
    let dirs := if path.isEmpty then [] else Text.splitAt ':' path
    dirs.map (fun d => Path.join [Path.resolve s.dir d, file]) ++ [Path.resolve s.dir file]

def sourceFound (E : Engine) (name file : String) (candidates : List String) : Run Unit := do
  match candidates.findSome? fun p => E.program.units.lookup p with
  | some b => runUnit E b
  | none =>
    let files := (← world).files
    match candidates.findSome? fun p => (files.read? p).toOption.map fun data => (p, data) with
    | none => complainWith 1 (name ++ ": " ++ file ++ ": no such file or directory")
    | some (p, data) =>
      if !E.compiles then fail (.ofText .noCompiler file)
      else match Program.compile p data with
        | .error e => complainWith 2 (file ++ ": " ++ e.message)
        | .ok b => runUnit E b

def source (E : Engine) (name : String) (args : List String) : Run Unit := do
  match args with
  | [] => usage name "filename argument required"
  | file :: rest =>
    let candidates := sourceCandidates (← shell) file
    if rest.isEmpty then sourceFound E name file candidates
    else withParams rest (sourceFound E name file candidates)

def exec (E : Engine) (args : List String) : Run Unit := do
  match args with
  | [] => setStatus 0
  | name :: args =>
    dispatchPlain E name args
    throw (.exit (← shell).status)

def letEach (E : Engine) : Int → List String → Run Int
  | n, [] => return n
  | _, a :: as => do letEach E (← textValue E 0 a) as

def let_ (E : Engine) (args : List String) : Run Unit := do
  if args.isEmpty then usage "let" "expression expected"
  else
    let n ← letEach E 0 args
    setStatus (if n == 0 then 1 else 0)

def test (name : String) (args : List String) : Run Unit := do
  let inside? : Option (List String) :=
    if name != "[" then some args
    else if args.getLast? == some "]" then some args.dropLast
    else none
  match inside? with
  | none => usage name "missing \x60]'"
  | some args =>
    match Test.ofArgs (← get) args with
    | .error e => usage name e
    | .ok b => setStatus (if b then 0 else 1)

-- Runs a builtin or an external program, never a function, or says what a name stands for.
def command (E : Engine) (name : String) (args : List String) : Run Unit :=
  withFlags [('p', .switch), ('v', .switch), ('V', .switch)] name args fun f => do
    match f.operands with
    | [] => setStatus 0
    | cmd :: rest =>
      if f.on 'v' || f.on 'V' then
        setStatus 0
        describeEach E.program (f.on 'V') (cmd :: rest)
      else match Builtin.ofName? cmd with
        | some b => E.builtin b (cmd :: rest)
        | none => runExternal E.program [] cmd rest

end Command

open Command in
-- A builtin; `name` is what it was called by.
def runBuiltin (E : Engine) (b : Builtin) (name : String) (args : List String) : Run Unit :=
  match b with
  | .colon | .true_ => setStatus 0
  | .false_ => setStatus 1
  | .echo => echo args
  | .printf => printf args
  | .cd => cd name args
  | .pwd => pwd name args
  | .pushd => pushd name args
  | .popd => popd name
  | .dirs => dirs name args
  | .export_ | .local_ | .readonly | .declare | .typeset => declareArgs E b name args
  | .unset => unset name args
  | .read => read name args
  | .test | .bracket => Command.test name args
  | .exit => exit args
  | .return_ => return_ args
  | .break_ => leaveLoop name false args
  | .continue_ => leaveLoop name true args
  | .shift => shift args
  | .set => set args
  | .source | .dot => source E name args
  | .eval => evalText E "eval" (Text.joinWith " " args)
  | .exec => exec E args
  | .trap => trap args
  | .wait => wait args
  | .jobs => jobs name args
  | .fg => foreground true name args
  | .bg => foreground false name args
  | .kill => kill args
  | .let_ => let_ E args
  | .getopts => getopts args
  | .type => type E name args
  | .command => command E name args
  | .umask => umask name args
  | .times => do
    print "0m0.000s 0m0.000s\n0m0.000s 0m0.000s\n"
    setStatus 0
  | .alias => alias_ args
  | .unalias => unalias args
  | .hash => hash E name args
  | .help => help args

def literals (E : Engine) : List Assign → Run (List (String × String))
  | [] => return []
  | a :: as => do
    let v ← literalOpt E a.value
    return (a.name, v) :: (← literals E as)

-- Runs `body` with assignments that end with it.
def prefixed (E : Engine) (assigns : List Assign) (body : Run Unit) : Run Unit :=
  if assigns.isEmpty then body
  else do
    let values ← literals E assigns
    let bind (env : Env) : Env := values.foldl (fun env x =>
      let env := env.declareLocal x.1
      env.put x.1 { (env.get? x.1).getD {} with value := x.2, exported := true }) env
    within (fun s => { s with env := bind s.env.push }) (fun _ s => { s with env := s.env.pop }) body

-- Runs a function, a builtin or an external program with assignments in front of it.
def dispatch (E : Engine) (assigns : List Assign) (name : String) (args : List String) : Run Unit := do
  let builtin := Builtin.ofName? name
  let special := (builtin.map Builtin.isSpecial).getD false
  match (← shell).functions.lookup name with
  | some body => if special then asBuiltin builtin else prefixed E assigns (callFunction E body name args)
  | none => asBuiltin builtin
where
  asBuiltin : Option Builtin → Run Unit
    | some b =>
      if b.isSpecial then do
        assignAll E assigns
        runBuiltin E b name args
      else prefixed E assigns (runBuiltin E b name args)
    | none => do runExternal E.program (← literals E assigns) name args

-- Shows a command before it runs.
def trace (args : List String) : Run Unit := do
  let s ← shell
  let mark := (s.env.value? "PS4").getD "+ "
  write s.streams.error (mark ++ Text.joinWith " " (args.map Text.shellQuoted) ++ "\n")

def call (E : Engine) (assigns : List Assign) (words : List Word) (redirs : List Redir) : Run Unit := do
  match ← fields E words with
  | [] => redirected E redirs do
    setStatus 0
    assignAll E assigns
  | name :: args =>
    if (← shell).options.xtrace then trace (name :: args)
    if name == "exec" && args.isEmpty then tryRedirs E redirs (setStatus 0)
    else redirected E redirs (dispatch E assigns name args)

-- The stages of a pipeline, each in a subshell that reads what the one before it wrote. Gives their statuses. A stage
-- begins when the one before it has ended, so one that never ends keeps the others from running at all.
def runStages (E : Engine) (input : Option Stream) : List Stmt → List Bool → Run (List Int)
  | [], _ => return []
  | [last], _ => do
    let c ← inSubshell (fun s => { s with streams := { s.streams with input := input.getD s.streams.input } })
      (code (E.stmt last))
    return [c]
  | st :: rest, both => do
    let i := (← world).channels.size
    let out ← newChannel (.sink "" true)
    let c ← inSubshell
      (fun s => { s with streams := { input := input.getD s.streams.input, output := out,
                                      error := if both.headD false then out else s.streams.error } })
      (code (E.stmt st))
    let text := match (← world).channels[i]? with
      | some (.sink text _) => text
      | _ => ""
    let next ← newChannel (.source text.toList true)
    return c :: (← runStages E (some next) rest (both.drop 1))

-- The status of the last stage, or of the first one that failed.
def pipeStatus (firstFailure : Bool) (codes : List Int) : Int :=
  let last := codes.getLastD 0
  if firstFailure then (codes.find? (· != 0)).getD last else last

def runPipeline (E : Engine) (stages : List Stmt) (both : List Bool) : Run Unit := do
  let codes ← runStages E none stages both
  setStatus (pipeStatus (← shell).options.pipefail codes)
  let (env, _) := (← shell).env.setArray "PIPESTATUS" (codes.map toString)
  setEnv env

def negate : Run Unit := modifyShell fun s => { s with status := if s.status == 0 then 1 else 0 }

def pipeline (E : Engine) (negated : Bool) (stages : List Stmt) (both : List Bool) : Run Unit :=
  match stages, negated with
  | [st], true => do
    asCondition (E.stmt st)
    negate
  | [st], false => E.stmt st
  | _, true => do
    runPipeline E stages both
    negate
  | _, false => checked E (runPipeline E stages both)

-- What runs in the background has ended when the shell goes on: nothing is interleaved with it, and a loop in it that
-- never ends is never left.
def background (E : Engine) (x : Stmt) : Run Unit := do
  let id := (← world).lastJob + 1
  modifyWorld fun w => { w with lastJob := id, jobs := w.jobs ++ [{ id, status := 0 }] }
  let status ← inSubshell (fun s => { s with streams := { s.streams with input := .null } }) (code (E.stmt x))
  modifyWorld fun w => { w with jobs := w.jobs.map fun j => if j.id == id then { j with status } else j }
  modifyShell fun s => { s with lastBackground := id, status := 0 }

-- Runs a loop's body once; says whether the loop ends.
def loopBody (E : Engine) (body : Block) : Run Bool := fun s =>
  match runBlock E body s with
  | .ok _ s => .ok false s
  | .error (.loop n next) s => if n > 1 then .error (.loop (n - 1) next) s else .ok (!next) s
  | .error e s => .error e s

def inLoop (body : Run Unit) : Run Unit :=
  within (fun s => { s with loops := s.loops + 1 }) (fun before s => { s with loops := before.loops }) body

def whileLoop (E : Engine) (untilTrue : Bool) (cond body : Block) : Nat → Int → Run Unit
  | 0, _ => throw (.stopped .bound)
  | n + 1, status => do
    asCondition (runBlock E cond)
    if ((← shell).status == 0) == untilTrue then setStatus status
    else
      let done ← loopBody E body
      if done then return else whileLoop E untilTrue cond body n (← shell).status

def forLoop (E : Engine) (name : String) (body : Block) : List String → Run Unit
  | [] => return
  | item :: items => do
    setVar name item
    let done ← loopBody E body
    if done then return else forLoop E name body items

def arithLoop (E : Engine) (cond post : Option Program.Arith) (body : Block) : Nat → Run Unit
  | 0 => throw (.stopped .bound)
  | n + 1 => do
    let goOn ← match cond with
      | none => pure true
      | some x => do pure ((← arith E 0 x) != 0)
    if !goOn then return
    let done ← loopBody E body
    if done then return
    let _ ← arithOpt E post
    arithLoop E cond post body n

def menu : Nat → List String → String
  | _, [] => ""
  | i, item :: items => toString i ++ ") " ++ item ++ "\n" ++ menu (i + 1) items

-- The item that a number stands for.
def chosen (items : List String) (text : String) : String :=
  match Text.int64? text with
  | some i => if i < 1 then "" else (items[i.toNat - 1]?).getD ""
  | none => ""

def selectLoop (E : Engine) (name : String) (items : List String) (body : Block) : Nat → Run Unit
  | 0 => throw (.stopped .bound)
  | n + 1 => do
    let s ← shell
    write s.streams.error (← valueOf "PS3")
    let (line, ended) ← readLine s.streams.input '\n'
    if ended && line.isEmpty then
      write s.streams.error "\n"
      setStatus 1
    else
      setVar "REPLY" line
      let text := Text.trim line
      if text.isEmpty then
        write s.streams.error (menu 1 items)
        selectLoop E name items body n
      else
        setVar name (chosen items text)
        let done ← loopBody E body
        if done then return else selectLoop E name items body n

def loopItems (E : Engine) (inParams : Bool) (items : List Word) : Run (List String) := do
  if inParams then return (← shell).params else fields E items

def matchesAny (E : Engine) (word : String) : List Word → Run Bool
  | [] => return false
  | w :: ws => do
    if (Pattern.read (← patternOf E w)).matches_ word then return true else matchesAny E word ws

-- The arms of a case; the first one runs in any case when the arm before fell through to it.
def caseArms (E : Engine) (word : String) (fall : Bool) : List CaseArm → Run Unit
  | [] => return
  | arm :: rest => do
    let hit ← if fall then pure true else matchesAny E word arm.patterns
    if hit then
      runBlock E arm.body
      match arm.term with
      | .stop => return
      | .fallThrough => caseArms E word true rest
      | .testNext => caseArms E word false rest
    else caseArms E word false rest

def runTest (E : Engine) (x : Program.Test) : Run Unit := fun s =>
  match condition E x s with
  | .ok b s => setStatus (if b then 0 else 1) s
  | .error (.fail f) s =>
    if f.cause == .testForm then complainWith 2 ("conditional expression: " ++ f.message) s else .error (.fail f) s
  | .error e s => .error e s

def sourceUnit (E : Engine) (unit : String) (args : List Word) : Run Unit := do
  match E.program.units.lookup unit with
  | none => complainWith 1 (unit ++ ": no such file or directory")
  | some b =>
    if args.isEmpty then runUnit E b
    else withParams (← fields E args) (runUnit E b)

def runStmt (E : Engine) : Stmt → Run Unit
  | .call _ assigns args redirs _ _ => checked E (call E assigns args redirs)
  | .decl _ variant opts assigns redirs =>
    checked E (redirected E redirs (declareWords E variant opts assigns))
  | .andOr op x y => do
    asCondition (E.stmt x)
    if ((← shell).status == 0) == (op == .or) then return else E.stmt y
  | .pipeline negated stages both => pipeline E negated stages both
  | .background x => background E x
  | .ifThen cond yes no => do
    asCondition (runBlock E cond)
    if (← shell).status == 0 then runBlock E yes
    else match no with
      | some b => runBlock E b
      | none => setStatus 0
  | .loop untilTrue cond body => inLoop (whileLoop E untilTrue cond body E.rounds 0)
  | .forIn name inParams items body => do
    let items ← loopItems E inParams items
    inLoop do
      setStatus 0
      forLoop E name body items
  | .forArith start cond post body => do
    let _ ← arithOpt E start
    inLoop do
      setStatus 0
      arithLoop E cond post body E.rounds
  | .select name inParams items body => do
    let items ← loopItems E inParams items
    inLoop do
      write (← shell).streams.error (menu 1 items)
      selectLoop E name items body E.rounds
  | .caseOf word arms => do
    let text ← literal E word
    setStatus 0
    caseArms E text false arms
  | .function name body => modifyShell fun s => { s with functions := s.functions.insert name body, status := 0 }
  | .subshell body => checked E do
    let status ← inSubshell id do
      let c ← code (runBlock E body)
      finish E c
    setStatus status
  | .group body => runBlock E body
  | .arith x => checked E do
    let n ← arith E 0 x
    setStatus (if n == 0 then 1 else 0)
  | .test x => checked E (runTest E x)
  | .redirected x redirs => redirected E redirs (E.stmt x)
  | .source _ unit args redirs => checked E (redirected E redirs (sourceUnit E unit args))

-- The bounds under which a program runs.
structure Limits where
  -- nested statements
  depth : Nat := 100000
  -- rounds of one loop
  rounds : Nat := 100000000

-- An engine that goes down at most `depth` levels, for a shell to which no signal comes.
def engine (program : Program) (compiles : Bool) (rounds : Nat) : Nat → Engine
  | 0 =>
    { program, compiles, rounds
      stmt := fun _ => throw (.stopped .bound)
      builtin := fun _ _ => throw (.stopped .bound)
      eval := fun _ _ => throw (.stopped .bound) }
  | n + 1 =>
    { program, compiles, rounds
      stmt := fun st => runStmt (engine program compiles rounds n) st
      builtin := fun b args => runBuiltin (engine program compiles rounds n) b (args.headD "") (args.drop 1)
      eval := fun depth x => arithAt (engine program compiles rounds n) depth x }

-- The engine of a shell that runs the traps of the signals that come to it.
def alertEngine (program : Program) (compiles : Bool) (rounds : Nat) : Nat → Engine
  | 0 => engine program compiles rounds 0
  | n + 1 =>
    let E := alertEngine program compiles rounds n
    { program, compiles, rounds
      stmt := runStmt E
      between := runSignals E
      builtin := fun b args => runBuiltin E b (args.headD "") (args.drop 1)
      eval := arithAt E }

end Machine
end ShellScript

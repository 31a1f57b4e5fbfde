import ShellScript.Proofs.Machine.Expansion

-- Four congruences that hold together: for expansions, for statements, for what happens inside a loop once a signal
-- has been counted against it, and for what happens inside a subshell. Every construct that changes the shell around
-- its body has a rule.
namespace ShellScript
namespace Machine

open Program (Word Part Param Arith Stmt Block Assign Redir CaseArm)
open Run

-- `return` ends here.
def catchReturn (m : Run Unit) : Run Unit := fun s =>
  match m s with
  | .error (.return_ c) s => setStatus c s
  | r => r

def inUnit (m : Run Unit) : Run Unit :=
  within (fun s => { s with sources := s.sources + 1, status := 0 })
    (fun before s => { s with sources := before.sources }) (catchReturn m)

def inCall (args : List String) (m : Run Unit) : Run Unit :=
  within
    (fun s => { s with params := args, loops := 0, env := s.env.push, calls := s.calls + 1 })
    (fun before s => { s with params := before.params, loops := before.loops, env := s.env.pop, calls := before.calls })
    (catchReturn m)

def inScope (bind : Env → Env) (m : Run Unit) : Run Unit :=
  within (fun s => { s with env := bind s.env.push }) (fun _ s => { s with env := s.env.pop }) m

-- The variables that stand in front of a command, in a scope of their own.
def withValues (values : List (String × String)) (env : Env) : Env :=
  values.foldl (fun env x =>
    let env := env.declareLocal x.1
    env.put x.1 { (env.get? x.1).getD {} with value := x.2, exported := true }) env

theorem depth_withValues (values : List (String × String)) (env : Env) :
    (withValues values env).depth = env.depth := by
  induction values generalizing env with
  | nil => rfl
  | cons x xs ih =>
      rw [withValues, List.foldl_cons]
      exact (ih _).trans (by simp)

def withStreams {α : Type} (change : Streams → Streams) (m : Run α) : Run α :=
  inSubshell (fun s => { s with streams := change s.streams }) m

-- One round of a loop: says whether the loop ends, or passes on what is meant for a loop further out.
def turn (m : Run Unit) : Run Bool := fun s =>
  match m s with
  | .ok _ s => .ok false s
  | .error (.loop n next) s => if n > 1 then .error (.loop (n - 1) next) s else .ok (!next) s
  | .error e s => .error e s

theorem runUnit_eq (E : Engine) (b : Block) : runUnit E b = inUnit (E.stmt (.group b)) := rfl

theorem within_apply {α : Type} (change : Shell → Shell) (restore : Shell → Shell → Shell) (m : Run α) (s : State) :
    within change restore m s =
      ensuring m (fun t => { t with shell := restore s.shell t.shell }) { s with shell := change s.shell } := rfl

theorem withStreams_eq {α : Type} (change : Streams → Streams) (m : Run α) : withStreams change m =
    within (fun s => { forked s with streams := change s.streams }) (fun before _ => before) m := rfl

theorem loopBody_eq (E : Engine) (body : Block) : loopBody E body = turn (runBlock E body) := rfl

-- Redirections, where one that fails is answered.

def tryRedirsOr (onFail : Failure → Run Unit) (E : Engine) (rs : List Redir) (body : Run Unit) : Run Unit := fun s =>
  match applyRedirs E rs s with
  | .ok _ s => body s
  | .error (.fail f) s => if f.cause == .redirect then onFail f s else .error (.fail f) s
  | .error e s => .error e s

def redirectedOr (onFail : Failure → Run Unit) (E : Engine) (rs : List Redir) (body : Run Unit) : Run Unit :=
  if rs.isEmpty then body
  else do
    let saved := (← shell).streams
    ensuring (tryRedirsOr onFail E rs body) fun s => { s with shell := { s.shell with streams := saved } }

theorem tryRedirs_eq : tryRedirs = tryRedirsOr fun f => complainWith 1 f.report := rfl

theorem redirected_eq : redirected = redirectedOr fun f => complainWith 1 f.report := rfl

-- A function, a builtin that `run` stands for, or an external program.
def dispatchBy (run : Builtin → String → List String → Run Unit) (E : Engine) (assigns : List Assign) (name : String)
    (args : List String) : Run Unit := do
  let builtin := Builtin.ofName? name
  let special := (builtin.map Builtin.isSpecial).getD false
  match (← shell).functions.lookup name with
  | some body => if special then asBuiltin builtin else prefixed E assigns (callFunction E body name args)
  | none => asBuiltin builtin
where
  asBuiltin : Option Builtin → Run Unit
    | some b =>
      if b.isSpecial then do
        assignAll E assigns
        run b name args
      else prefixed E assigns (run b name args)
    | none => do runExternal E.program (← literals E assigns) name args

-- A plain command, where `bare` stands for an `exec` that names no command.
def callBy (run : Builtin → String → List String → Run Unit) (E : Engine) (bare : Run Unit) (assigns : List Assign)
    (words : List Word) (redirs : List Redir) : Run Unit := do
  match ← fields E words with
  | [] => redirected E redirs do
    setStatus 0
    assignAll E assigns
  | name :: args =>
    if (← shell).options.xtrace then trace (name :: args)
    if name == "exec" && args.isEmpty then bare
    else redirected E redirs (dispatchBy run E assigns name args)

def callOr (E : Engine) (bare : Run Unit) (assigns : List Assign) (words : List Word) (redirs : List Redir) :
    Run Unit := do
  match ← fields E words with
  | [] => redirected E redirs do
    setStatus 0
    assignAll E assigns
  | name :: args =>
    if (← shell).options.xtrace then trace (name :: args)
    if name == "exec" && args.isEmpty then bare
    else redirected E redirs (dispatch E assigns name args)

theorem dispatch_eq (E : Engine) : dispatch E = dispatchBy (runBuiltin E) E := by
  have hbuiltin (assigns : List Assign) (name : String) (args : List String) :
      dispatch.asBuiltin E assigns name args = dispatchBy.asBuiltin (runBuiltin E) E assigns name args := by
    funext b
    cases b <;> rfl
  funext assigns name args
  rw [dispatch, hbuiltin]
  rfl

theorem callOr_eq (E : Engine) : callOr E = callBy (runBuiltin E) E := by
  funext bare assigns words redirs
  rw [callOr, callBy, dispatch_eq]

-- A loop that asks `check` before every round.
def whileOn (check : Run Unit) (round : Run Bool) (untilTrue : Bool) : Nat → Int → Run Unit
  | 0, _ => throw (.stopped .bound)
  | n + 1, status => do
    check
    if ((← shell).status == 0) == untilTrue then setStatus status
    else
      let done ← round
      if done then return else whileOn check round untilTrue n (← shell).status

theorem whileLoop_eq (E : Engine) (untilTrue : Bool) (cond body : Block) (n : Nat) (status : Int) :
    whileLoop E untilTrue cond body n status =
      whileOn (asCondition (runBlock E cond)) (loopBody E body) untilTrue n status := by
  induction n generalizing status with
  | zero => rfl
  | succ n ih => simp only [whileLoop, whileOn, ih]

theorem code_eq (m : Run Unit) : code m = handled m (fun _ => return (← shell).status) fun
    | .exit c => pure c
    | .return_ c => pure c
    | .loop _ _ => return (← shell).status
    | .fail f => do complain f.report; return 1
    | .stopped why => throw (.stopped why) := by
  refine eq_handled (fun s u t hm => ?_) fun s e t hm => ?_
  · simp only [code, hm]
    rfl
  · cases e <;> simp only [code, hm] <;> rfl

-- Commands that end in a signal.

namespace Congruence

variable {C : Congruence}

theorem return_ (hthrow : ∀ c, C.rel (throw (.return_ c) : Run Unit) (throw (.return_ c))) (args : List String) :
    C.rel (Command.return_ args) (Command.return_ args) := by
  refine C.shell fun s => C.ite (C.plain (plain_complainWith _ _)) ?_
  cases args with
  | nil => exact hthrow _
  | cons a args =>
      dsimp only
      cases Text.int64? a with
      | some n => exact hthrow _
      | none => exact C.bind (C.plain (plain_complain _)) fun _ => hthrow 2

theorem leaveLoop (name : String) {next : Bool} (hthrow : ∀ n, C.rel
      (setStatus 0 >>= fun _ => (throw (.loop n next) : Run Unit)) (setStatus 0 >>= fun _ => throw (.loop n next)))
    (args : List String) : C.rel (Command.leaveLoop name next args) (Command.leaveLoop name next args) := by
  unfold Command.leaveLoop
  dsimp only
  split
  · exact C.plain (plain_complainWith _ _)
  · exact C.shell fun s => C.ite (C.plain (plain_complainWith _ _)) (hthrow _)

end Congruence

structure Discipline where
  quiet : Congruence
  flow : Congruence
  loop : Congruence
  inner : Congruence
  flow_of_quiet : ∀ {α : Type} {m m' : Run α}, quiet.rel m m' → flow.rel m m'
  loop_of_quiet : ∀ {α : Type} {m m' : Run α}, quiet.rel m m' → loop.rel m m'
  loose : ∀ {m : Run Unit}, Loose m → flow.rel m m
  exit : ∀ c : Int, flow.rel (throw (.exit c) : Run Unit) (throw (.exit c))
  return_ : ∀ args, flow.rel (Command.return_ args) (Command.return_ args)
  leaveLoop : ∀ name next args, flow.rel (Command.leaveLoop name next args) (Command.leaveLoop name next args)
  -- whatever a statement ends with, the rest goes on
  absorb : ∀ {α β : Type} {m m' : Run α} {k k' : α → Run β} {h h' : Signal → Run β}, flow.rel m m' →
    (∀ a, inner.rel (k a) (k' a)) → (∀ e, (∀ why, e ≠ .stopped why) → inner.rel (h e) (h' e)) →
    (∀ why, h (.stopped why) = throw (.stopped why)) → (∀ why, h' (.stopped why) = throw (.stopped why)) →
    inner.rel (handled m k h) (handled m' k' h')
  condition : ∀ {m m' : Run Unit}, flow.rel m m' → flow.rel (asCondition m) (asCondition m')
  unit : ∀ {m m' : Run Unit}, flow.rel m m' → flow.rel (inUnit m) (inUnit m')
  call : ∀ (args : List String) {m m' : Run Unit}, flow.rel m m' → flow.rel (inCall args m) (inCall args m')
  params : ∀ (args : List String) {m m' : Run Unit}, flow.rel m m' →
    flow.rel (withParams args m) (withParams args m')
  scope : ∀ (values : List (String × String)) {m m' : Run Unit}, flow.rel m m' →
    flow.rel (inScope (withValues values) m) (inScope (withValues values) m')
  write : ∀ local_ name {m m' : Var → Run String}, (∀ v, quiet.rel (m v) (m' v)) →
    quiet.rel (writing local_ name m) (writing local_ name m')
  subshell : ∀ {α : Type} (change : Streams → Streams) {m m' : Run α}, inner.rel m m' →
    quiet.rel (withStreams change m) (withStreams change m')
  inLoop : ∀ {m m' : Run Unit}, loop.rel m m' → flow.rel (inLoop m) (inLoop m')
  turn : ∀ {m m' : Run Unit}, flow.rel m m' → loop.rel (turn m) (turn m')
  redirectedOr : ∀ {E E' : Engine} {m m' : Run Unit} {onFail onFail' : Failure → Run Unit}, quiet.Expands E E' →
    ∀ rs : List Redir, (∀ f, flow.rel (onFail f) (onFail' f)) → flow.rel m m' →
    flow.rel (redirectedOr onFail E rs m) (redirectedOr onFail' E' rs m')

namespace Discipline

variable (D : Discipline) {E E' : Engine}

-- What some commands do and not every discipline allows: to choose the permissions that new files do not get, and to
-- crash.
structure Admits : Prop where
  mask : ∀ mask, D.flow.rel (modifyWorld fun w => { w with mask }) (modifyWorld fun w => { w with mask })
  crash : D.flow.rel (throw (.stopped .crash) : Run Unit) (throw (.stopped .crash))

-- What a step takes from the engine below it.
structure Follows (E E' : Engine) : Prop where
  program : E'.program = E.program
  compiles : E'.compiles = E.compiles
  rounds : E'.rounds = E.rounds
  stmt : ∀ st, D.flow.rel (E.stmt st) (E'.stmt st)
  between : D.flow.rel E.between E'.between
  builtin : ∀ b args, D.flow.rel (E.builtin b args) (E'.builtin b args)
  eval : ∀ depth x, D.quiet.rel (E.eval depth x) (E'.eval depth x)

theorem plain {α : Type} {m : Run α} (h : Plain m) : D.flow.rel m m := D.flow.plain h

theorem redirected (h : D.quiet.Expands E E') (rs : List Redir) {m m' : Run Unit} (hm : D.flow.rel m m') :
    D.flow.rel (redirected E rs m) (redirected E' rs m') := by
  rw [redirected_eq]
  exact D.redirectedOr h rs (fun _ => D.plain (plain_complainWith _ _)) hm

theorem code {m m' : Run Unit} (h : D.flow.rel m m') : D.inner.rel (code m) (code m') := by
  rw [code_eq, code_eq]
  refine D.absorb h (fun _ => D.inner.plain (by simp)) (fun e he => ?_) (fun _ => rfl) fun _ => rfl
  cases e with
  | stopped why => exact absurd rfl (he why)
  | _ => exact D.inner.plain (by simp)

theorem capture (h : D.Follows E E') (b : Block) : D.quiet.rel (capture E b) (capture E' b) := by
  refine D.quiet.world fun w => D.quiet.bind (D.quiet.plain (plain_newChannel _)) fun out => ?_
  refine D.quiet.bind (D.subshell (fun s => { s with output := out }) (D.code (h.stmt (.group b)))) fun c => ?_
  refine D.quiet.plain ((plain_setStatus c).bind fun _ => plain_world.bind fun v => ?_)
  exact Plain.bind (plain_modifyWorld fun _ => rfl) fun _ => plain_pure _

theorem Follows.expands {D : Discipline} (h : D.Follows E E') : D.quiet.Expands E E' :=
  ⟨h.program, h.compiles, fun b => D.capture h b, h.eval, D.write⟩

end Discipline
end Machine
end ShellScript

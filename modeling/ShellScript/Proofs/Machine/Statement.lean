import ShellScript.Proofs.Machine.Discipline

-- Statements respect every discipline: what two engines do with a statement is related if what they do one level
-- further down is. `while` loops and plain commands are left to the caller where a discipline treats them apart.
namespace ShellScript
namespace Machine

open Program (Word Part Param Arith Stmt Block Assign Redir CaseArm)
open Run

theorem plain_printNamed (command : String) (as : List Assign) : Plain (printNamed command as) := by
  induction as with
  | nil => exact plain_pure ()
  | cons a as ih =>
      refine plain_shell.bind fun s => ?_
      split <;> simp [ih]

theorem plain_printListed (variant : Builtin) (f : DeclFlags) (ns : List String) :
    Plain (printListed variant f ns) := by
  induction ns with
  | nil => exact plain_pure ()
  | cons n ns ih =>
      refine plain_shell.bind fun s => ?_
      split
      · dsimp only
        split <;> simp [ih]
      · simp [ih]

theorem plain_showFunctions (command : String) (shown : Bool) (ns : List String) :
    Plain (showFunctions command shown ns) := by
  induction ns with
  | nil => exact plain_pure ()
  | cons n ns ih =>
      refine plain_shell.bind fun s => ?_
      dsimp only
      split
      · simp [ih]
      · split <;> simp [ih]

theorem mild_ofTest (x : Except String Bool) : Mild (ofTest x) := by
  cases x with
  | ok b => exact mild_pure b
  | error e => exact mild_fail _

-- Before a match nothing is kept of an earlier one, even where that cannot be written.
theorem mild_clearMatch : Mild (do
    let (env, _) := (← shell).env.setArray "BASH_REMATCH" []
    setEnv env
    return false) := by
  refine ⟨Plain.ofShell fun s => ?_, steady_shell.bind fun s => (steady_setEnv _).bind fun _ => steady_pure _⟩
  exact Stays.bind (.withEnv s (Env.respects_setArray ..)) fun _ t _ => .refl t

-- What a declaration makes of a variable before it assigns to it.
def prepared (f : DeclFlags) (a : Assign) (v : Var) : Var :=
  let v := if f.integer then { v with integer := true } else if f.uninteger then { v with integer := false } else v
  if f.array && !v.array then
    { v with array := true, value := "", list := if a.value.isNone && a.array.isNone then [] else [v.value] }
  else v

-- The flags that it sets last.
def flagged (f : DeclFlags) (v : Var) : Var :=
  let v := if f.export_ then { v with exported := true } else if f.unexport then { v with exported := false } else v
  if f.readOnly then { v with readOnly := true } else v

-- The flag for variables that are read-only is not looked at here, so that a text can become an array.
theorem fixed_prepared (f : DeclFlags) (a : Assign) {v : Var} (h : v.readOnly = true) : v.Fixed (prepared f a v) := by
  have hnumber (b : Bool) : v.Fixed { v with integer := b } := ⟨h, .inl ⟨rfl, rfl, rfl⟩⟩
  have harray {w : Var} (hw : v.Fixed w) : v.Fixed (if f.array && !w.array then
      { w with array := true, value := "", list := if a.value.isNone && a.array.isNone then [] else [w.value] }
    else w) := by
    refine hw.trans ?_
    split
    · rename_i htext
      have htext : w.array = false := by simpa using (Bool.and_eq_true_iff.mp htext).2
      refine ⟨hw.readOnly, .inr ⟨htext, rfl, rfl, ?_⟩⟩
      dsimp only
      split
      · exact .inl rfl
      · exact .inr rfl
    · exact .refl hw.readOnly
  refine harray ?_
  split
  · exact hnumber true
  · split
    · exact hnumber false
    · exact .refl h

theorem fixed_flagged (f : DeclFlags) {v : Var} (h : v.readOnly = true) : v.Fixed (flagged f v) := by
  unfold flagged
  dsimp only
  repeat' split
  all_goals exact ⟨by first | rfl | exact h, .inl ⟨rfl, rfl, rfl⟩⟩

theorem loose_modifyVar (name : String) {f : Var → Var} (hf : ∀ v : Var, v.readOnly = true → v.Fixed (f v)) :
    Loose (modifyVar name f) := by
  intro s
  refine State.Undisturbed.withEnv s (Env.protects_put fun u hu hro => ?_)
  rw [hu]
  exact hf u hro

theorem loose_prepare (f : DeclFlags) (local_ : Bool) (a : Assign) :
    Loose (target local_ a.name >>= fun v => putVar a.name (prepared f a v)) := by
  intro s
  refine Stays.bind ((plain_target local_ a.name).loose s) fun v t ht => ?_
  obtain ⟨w, hw, hget⟩ := target_eq local_ a.name s
  cases hw.symm.trans ht
  refine State.Undisturbed.withEnv _ (Env.protects_put fun u hu hro => ?_)
  cases hget.symm.trans hu
  exact fixed_prepared f a hro

-- What follows once the variable is there.
def declareRest (E : Engine) (f : DeclFlags) (local_ : Bool) (a : Assign) : Run Unit :=
  if a.value.isSome || a.array.isSome || a.index.isSome then
    fun s =>
      match assign E a local_ s with
      | .ok _ s => modifyVar a.name (flagged f) s
      | .error (.fail g) s =>
        if g.cause == .readOnly then complainWith 1 (a.name ++ ": readonly variable") s else .error (.fail g) s
      | .error e s => .error e s
  else modifyVar a.name (flagged f)

theorem declareOne_eq (E : Engine) (command : String) (f : DeclFlags) (local_ : Bool) (a : Assign) :
    declareOne E command f local_ a =
      if !Text.isName a.name then complainWith 1 (command ++ ": \x60" ++ a.name ++ "': not a valid identifier")
      else (target local_ a.name >>= fun v => putVar a.name (prepared f a v)) >>= fun _ =>
        declareRest E f local_ a := by
  rw [bind_assoc]
  rfl

namespace Agreement

variable {C : Agreement} {E E' : Engine}

-- Conditions.

theorem matchRegex (h : C.Expands E E') (text : String) (w : Word) :
    C.rel (matchRegex E text w) (matchRegex E' text w) := by
  refine C.bind (fragments h w) fun fs => ?_
  split
  · exact C.mild (mild_fail _)
  · split
    · exact C.mild mild_clearMatch
    · exact C.bind (C.mild (mild_setArray _ _)) fun _ => C.pure true

theorem compareWords (h : C.Expands E E') (op : String) (x y : Word) :
    C.rel (compareWords E op x y) (compareWords E' op x y) := by
  refine C.bind (literal h x) fun l => C.ite (C.bind (patternOf h y) fun p => C.pure _) ?_
  refine C.ite (matchRegex h l y) (C.ite ?_ ?_)
  · refine C.bind (textValue h 0 l) fun a => C.bind (literal h y) fun r => ?_
    exact C.bind (textValue h 0 r) fun b => C.pure _
  · exact C.bind (literal h y) fun r => C.bind (C.mild mild_get) fun s => C.mild (mild_ofTest _)

theorem condition (h : C.Expands E E') : ∀ x : Program.Test, C.rel (condition E x) (condition E' x)
  | .word w => C.bind (literal h w) fun v => C.pure _
  | .unary op x => by
      unfold Machine.condition
      refine C.ite (C.bind (condition h x) fun b => C.pure _) ?_
      split
      · exact C.bind (literal h _) fun v => C.bind (C.mild mild_get) fun s => C.mild (mild_ofTest _)
      · exact C.mild (mild_fail _)
  | .binary op x y => by
      unfold Machine.condition
      refine C.ite (C.bind (condition h x) fun b => C.ite (condition h y) (C.pure false)) ?_
      refine C.ite (C.bind (condition h x) fun b => C.ite (C.pure true) (condition h y)) ?_
      split
      · exact compareWords h op _ _
      · exact C.mild (mild_fail _)

-- Redirections, where streams may be replaced.

section Redirections

variable (hset : ∀ change, C.rel (setStreams change) (setStreams change))

include hset

theorem setDescriptor (fd : Nat) (stream : Stream) : C.rel (setDescriptor fd stream) (setDescriptor fd stream) := by
  refine C.world fun w => ?_
  split
  · exact C.ite (hset _) (C.mild (mild_fail _))
  · exact C.ite (hset _) (C.mild (mild_fail _))
  · exact C.ite (hset _) (C.mild (mild_fail _))

theorem openFile (h : C.Expands E E') (fd : Nat) (op : Program.RedirOp) (word : Word) :
    C.rel (openFile E fd op word) (openFile E' fd op word) := by
  refine C.bind (literal h word) fun name => C.shell fun s => ?_
  split
  · refine C.world fun w => ?_
    exact C.ite (C.bind (setDescriptor hset _ _) fun _ => setDescriptor hset _ _) (setDescriptor hset _ _)
  · refine C.world fun w => ?_
    split
    · exact C.mild (mild_fail _)
    · refine C.bind (C.mild (mild_modifyWorld fun _ => rfl)) fun _ => ?_
      refine C.bind (C.mild (mild_newChannel _)) fun stream => ?_
      exact C.ite (hset _) (setDescriptor hset _ _)

theorem duplicate (h : C.Expands E E') (fd : Nat) (op : Program.RedirOp) (word : Word) :
    C.rel (duplicate E fd op word) (duplicate E' fd op word) := by
  refine C.bind (literal h word) fun target => C.ite (setDescriptor hset _ _) ?_
  split
  · exact C.ite (openFile hset h _ _ _) (C.mild (mild_fail _))
  · refine C.shell fun s => C.ite (setDescriptor hset _ _) (C.ite (setDescriptor hset _ _) ?_)
    exact C.ite (setDescriptor hset _ _) (C.mild (mild_fail _))

theorem applyRedir (h : C.Expands E E') (r : Redir) : C.rel (applyRedir E r) (applyRedir E' r) := by
  unfold Machine.applyRedir
  refine C.guard (mild_fail _) fun _ => ?_
  have hsource : ∀ text : String, C.rel (newChannel (.source text.toList false) >>= fun stream =>
      Machine.setDescriptor (r.n.getD (defaultDescriptor r.op)) stream) _ := fun text =>
    C.bind (C.mild (mild_newChannel _)) fun stream => setDescriptor hset _ stream
  split
  · exact C.bind (literal h r.word) fun text => hsource text
  · exact C.bind (literal h r.word) fun text => hsource (text ++ "\n")
  · exact duplicate hset h _ _ _
  · exact duplicate hset h _ _ _
  · split
    · rw [h.program]
      split
      · exact hsource _
      · exact C.mild (mild_fail _)
    · exact openFile hset h _ _ _
  · exact openFile hset h _ _ _

theorem applyRedirs (h : C.Expands E E') (rs : List Redir) : C.rel (applyRedirs E rs) (applyRedirs E' rs) := by
  induction rs with
  | nil => exact C.pure ()
  | cons r rs ih => exact C.bind (applyRedir hset h r) fun _ => ih

end Redirections

section Answered

variable {onFail onFail' : Failure → Run Unit} (hfail : ∀ f, C.rel (onFail f) (onFail' f)) {rs : List Redir}
  (happly : C.rel (Machine.applyRedirs E rs) (Machine.applyRedirs E' rs)) {m m' : Run Unit} (hm : C.rel m m')

include hfail happly hm

theorem tryRedirsOr : C.rel (tryRedirsOr onFail E rs m) (tryRedirsOr onFail' E' rs m') := by
  refine C.handleFail happly (fun _ => hm) fun f => ?_
  by_cases hf : (f.cause == .redirect) = true
  · simp only [hf, if_true]
    exact .inr ⟨fun _ => Signal.noConfusion, hfail f⟩
  · simp only [hf]
    exact .inl ⟨rfl, rfl⟩

-- The streams come back in any case.
theorem redirectedOr (hensure : ∀ (streams : Streams) {m m' : Run Unit}, C.rel m m' →
      C.rel (ensuring m fun s => { s with shell := { s.shell with streams } })
        (ensuring m' fun s => { s with shell := { s.shell with streams } })) :
    C.rel (redirectedOr onFail E rs m) (redirectedOr onFail' E' rs m') :=
  C.ite hm (C.shell fun s => hensure s.streams (tryRedirsOr hfail happly hm))

end Answered

end Agreement

theorem Congruence.tryRedirs {C : Congruence} {E E' : Engine} {rs : List Redir}
    (happly : C.rel (Machine.applyRedirs E rs) (Machine.applyRedirs E' rs))
    {m m' : Run Unit} (hm : C.rel m m') : C.rel (tryRedirs E rs m) (tryRedirs E' rs m') := by
  rw [tryRedirs_eq]
  exact Agreement.tryRedirsOr (fun _ => C.plain (plain_complainWith _ _)) happly hm

-- How the signals that leave a body are answered.

theorem runTrap_eq (E : Engine) (text : String) : runTrap E text = (do
    let status := (← shell).status
    handled (asCondition (evalText E "trap" text)) (fun _ => setStatus status) fun
      | .fail f => do complain f.report; setStatus status
      | .return_ _ => setStatus status
      | .loop _ _ => setStatus status
      | e => throw e) := by
  refine congrArg (shell >>= ·) (funext fun s => ?_)
  dsimp only
  refine eq_handled (fun s u t hm => ?_) fun s e t hm => ?_
  · simp only [asCondition] at hm
    simp only [hm]
  · simp only [asCondition] at hm
    cases e <;> simp only [hm] <;> rfl

theorem recovering_eq (E : Engine) (body : Run Unit) : recovering E body = handled body pure fun
    | .fail f => if f.isRecoverable then do complainWith 1 f.report; afterCommand E else throw (.fail f)
    | e => throw e := by
  refine eq_handled (fun s u t hm => ?_) fun s e t hm => ?_
  · simp only [recovering, hm]
    rfl
  · cases e with
    | fail f =>
        simp only [recovering, hm]
        split <;> rfl
    | _ =>
        simp only [recovering, hm]
        rfl

theorem runTest_eq (E : Engine) (x : Program.Test) : runTest E x = handled (condition E x)
    (fun b => setStatus (if b then 0 else 1)) fun
    | .fail f =>
      if f.cause == .testForm then complainWith 2 ("conditional expression: " ++ f.message) else throw (.fail f)
    | e => throw e := by
  refine eq_handled (fun s u t hm => ?_) fun s e t hm => ?_
  · simp only [runTest, hm]
  · cases e with
    | fail f =>
        simp only [runTest, hm]
        split <;> rfl
    | _ =>
        simp only [runTest, hm]
        rfl

theorem finish_eq (E : Engine) (status : Int) : finish E status = (do
    match (← shell).traps.lookup "EXIT" with
    | none => return status
    | some text =>
      if text.isEmpty then return status
      modifyShell fun s => { s with traps := s.traps.erase "EXIT", status }
      handled (evalText E "trap" text) (fun _ => pure status) fun
        | .exit c => pure c
        | .stopped why => throw (.stopped why)
        | _ => pure status) := by
  refine congrArg (shell >>= ·) (funext fun s => ?_)
  generalize s.traps.lookup "EXIT" = trap
  cases trap with
  | none => rfl
  | some text =>
      refine congrArg (ite _ _) (congrArg (modifyShell _ >>= ·) (funext fun u => ?_))
      refine eq_handled (fun s u t hm => ?_) fun s e t hm => ?_
      · simp only [hm]
        rfl
      · cases e <;> simp only [hm] <;> rfl

-- Where no signal comes, nothing happens between two statements.
theorem runStmts_cons (program : Program) (compiles : Bool) (rounds n : Nat) (st : Stmt) (rest : List Stmt) :
    let E := engine program compiles rounds n
    runStmts E (st :: rest) = recovering E (E.stmt st) >>= fun _ => runStmts E rest := by
  cases n <;> rfl

-- `while` loops and plain commands.
def isApart : Stmt → Bool
  | .call .. | .loop .. => true
  | _ => false

namespace Discipline

variable {D : Discipline} {E E' : Engine}

theorem evalText (h : D.Follows E E') (name src : String) :
    D.flow.rel (evalText E name src) (evalText E' name src) := by
  unfold Machine.evalText
  rw [h.compiles]
  refine D.flow.ite (D.plain (plain_setStatus 0)) (D.flow.ite (D.plain (plain_fail _)) ?_)
  split
  · exact D.plain (plain_complainWith _ _)
  · exact D.flow.bind (D.plain (plain_setStatus 0)) fun _ => h.stmt _

theorem runTrap (h : D.Follows E E') (text : String) : D.flow.rel (runTrap E text) (runTrap E' text) := by
  rw [runTrap_eq, runTrap_eq]
  refine D.flow.shell fun s => D.flow.handle (D.condition (evalText h "trap" text))
    (fun _ => D.plain (plain_setStatus _)) fun e => ?_
  cases e with
  | fail f => exact .inr ⟨fun _ => Signal.noConfusion, D.plain (by simp)⟩
  | return_ c => exact .inr ⟨fun _ => Signal.noConfusion, D.plain (plain_setStatus _)⟩
  | loop n next => exact .inr ⟨fun _ => Signal.noConfusion, D.plain (plain_setStatus _)⟩
  | exit c => exact .inl ⟨rfl, rfl⟩
  | stopped why => exact .inl ⟨rfl, rfl⟩

theorem afterCommand (h : D.Follows E E') : D.flow.rel (afterCommand E) (afterCommand E') := by
  refine D.flow.shell fun s => D.flow.ite (D.flow.pure ()) ?_
  have hrest : D.flow.rel
      (do setStatus s.status; if (← shell).options.errexit then throw (.exit s.status))
      (do setStatus s.status; if (← shell).options.errexit then throw (.exit s.status)) :=
    D.flow.bind (D.plain (plain_setStatus _)) fun _ => D.flow.shell fun t => D.flow.ite (D.exit _) (D.flow.pure ())
  split
  · exact D.flow.ite (D.flow.bind (runTrap h _) fun _ => hrest) hrest
  · exact hrest

theorem checked (h : D.Follows E E') {m m' : Run Unit} (hm : D.flow.rel m m') :
    D.flow.rel (checked E m) (checked E' m') :=
  D.flow.bind hm fun _ => afterCommand h

theorem recovering (h : D.Follows E E') {m m' : Run Unit} (hm : D.flow.rel m m') :
    D.flow.rel (recovering E m) (recovering E' m') := by
  rw [recovering_eq, recovering_eq]
  refine D.flow.handle hm (fun _ => D.flow.pure _) fun e => ?_
  cases e with
  | fail f =>
      by_cases hf : f.isRecoverable = true
      · simp only [hf, if_true]
        exact .inr ⟨fun _ => Signal.noConfusion, D.flow.bind (D.plain (plain_complainWith _ _)) fun _ => afterCommand h⟩
      · simp only [hf]
        exact .inl ⟨rfl, rfl⟩
  | _ => exact .inl ⟨rfl, rfl⟩

theorem runStmts (h : D.Follows E E') (sts : List Stmt) : D.flow.rel (runStmts E sts) (runStmts E' sts) := by
  induction sts with
  | nil => exact D.flow.pure ()
  | cons st sts ih => exact D.flow.bind (recovering h (h.stmt st)) fun _ => D.flow.bind h.between fun _ => ih

theorem runBlock (h : D.Follows E E') (b : Block) : D.flow.rel (runBlock E b) (runBlock E' b) := runStmts h b.stmts

theorem runArrived (h : D.Follows E E') (n : Nat) : D.flow.rel (runArrived E n) (runArrived E' n) := by
  induction n with
  | zero => exact D.flow.pure ()
  | succ n ih =>
      refine D.flow.bind (D.plain plain_nextSignal) fun signal => ?_
      cases signal with
      | none => exact D.flow.pure ()
      | some signal =>
          refine D.flow.shell fun s => ?_
          exact D.flow.ite (D.flow.bind (runTrap h _) fun _ => ih) ih

theorem runSignals (h : D.Follows E E') : D.flow.rel (runSignals E) (runSignals E') :=
  D.flow.shell fun _ => D.flow.ite (D.flow.pure ()) (D.flow.world fun _ => runArrived h _)

theorem finish (h : D.Follows E E') (status : Int) : D.inner.rel (finish E status) (finish E' status) := by
  rw [finish_eq, finish_eq]
  refine D.inner.shell fun _ => ?_
  split
  · exact D.inner.pure status
  · refine D.inner.ite (D.inner.pure status) ?_
    refine D.inner.bind (D.inner.plain (Plain.modifyShell fun _ => ⟨rfl, rfl⟩)) fun _ => ?_
    refine D.absorb (evalText h "trap" _) (fun _ => D.inner.pure status) (fun e he => ?_) (fun _ => rfl) fun _ => rfl
    cases e with
    | stopped why => exact absurd rfl (he why)
    | _ => exact D.inner.pure _

theorem callFunction (h : D.Follows E E') (body : Stmt) (name : String) (args : List String) :
    D.flow.rel (callFunction E body name args) (callFunction E' body name args) :=
  D.flow.shell fun _ => D.flow.guard (plain_fail _) fun _ => D.call args (h.stmt body)

-- Declarations.

theorem declareOne (h : D.Follows E E') (command : String) (f : DeclFlags) (local_ : Bool) (a : Assign) :
    D.flow.rel (declareOne E command f local_ a) (declareOne E' command f local_ a) := by
  rw [declareOne_eq, declareOne_eq]
  refine D.flow.ite (D.plain (plain_complainWith _ _)) (D.flow.bind (D.loose (loose_prepare f local_ a)) fun _ => ?_)
  have hflag : D.flow.rel (modifyVar a.name (flagged f)) (modifyVar a.name (flagged f)) :=
    D.loose (loose_modifyVar a.name fun _ hv => fixed_flagged f hv)
  refine D.flow.ite ?_ hflag
  refine D.flow.handleFail (D.flow_of_quiet (Agreement.assign h.expands a local_)) (fun _ => hflag) fun g => ?_
  by_cases hg : (g.cause == .readOnly) = true
  · simp only [hg, if_true]
    exact .inr ⟨fun _ => Signal.noConfusion, D.plain (plain_complainWith _ _)⟩
  · simp only [hg]
    exact .inl ⟨rfl, rfl⟩

theorem declareAll (h : D.Follows E E') (command : String) (f : DeclFlags) (local_ : Bool) (as : List Assign) :
    D.flow.rel (declareAll E command f local_ as) (declareAll E' command f local_ as) := by
  induction as with
  | nil => exact D.flow.pure ()
  | cons a as ih => exact D.flow.bind (declareOne h command f local_ a) fun _ => ih

theorem declare (h : D.Follows E E') (variant : Builtin) (f : DeclFlags) (assigns : List Assign) :
    D.flow.rel (declare E variant f assigns) (declare E' variant f assigns) := by
  refine D.flow.shell fun s => D.flow.ite (D.plain (plain_complainWith _ _)) ?_
  refine D.flow.bind (D.plain (plain_setStatus 0)) fun _ => ?_
  refine D.flow.ite (D.plain (plain_showFunctions _ _ _)) (D.flow.ite (D.plain (plain_printListed _ _ _)) ?_)
  exact D.flow.ite (D.plain (plain_printNamed _ _)) (declareAll h _ _ _ _)

theorem declareWords (h : D.Follows E E') (variant : Builtin) (opts : List Word) (assigns : List Assign) :
    D.flow.rel (declareWords E variant opts assigns) (declareWords E' variant opts assigns) := by
  refine D.flow.bind (D.flow_of_quiet (Agreement.fields h.expands opts)) fun words => ?_
  split
  · exact D.plain (plain_usage _ _)
  · exact declare h _ _ _

theorem declareArgs (h : D.Follows E E') (variant : Builtin) (name : String) (args : List String) :
    D.flow.rel (declareArgs E variant name args) (declareArgs E' variant name args) := by
  unfold Machine.declareArgs
  split
  · exact D.plain (plain_usage _ _)
  · exact declare h _ _ _

-- Commands.

theorem runExternal (h : D.Follows E E') (assigns : List (String × String)) (name : String) (args : List String) :
    D.flow.rel (runExternal E.program assigns name args) (runExternal E'.program assigns name args) := by
  rw [h.program]
  exact D.plain (plain_runExternal _ _ _ _)

theorem dispatchPlain (h : D.Follows E E') (name : String) (args : List String) :
    D.flow.rel (dispatchPlain E name args) (dispatchPlain E' name args) := by
  have hbuiltin : ∀ b,
      D.flow.rel (dispatchPlain.runBuiltin E name args b) (dispatchPlain.runBuiltin E' name args b) := by
    intro b
    cases b with
    | none => exact runExternal h [] name args
    | some b => exact h.builtin b _
  refine D.flow.shell fun s => ?_
  split
  · exact D.flow.ite (hbuiltin _) (callFunction h _ name args)
  · exact hbuiltin _

theorem exit_ (args : List String) : D.flow.rel (Command.exit args) (Command.exit args) := by
  unfold Command.exit
  split
  · exact D.flow.shell fun s => D.exit _
  · split
    · exact D.exit _
    · exact D.flow.bind (D.plain (plain_complain _)) fun _ => D.exit _

theorem runUnit (h : D.Follows E E') (b : Block) : D.flow.rel (runUnit E b) (runUnit E' b) := by
  rw [runUnit_eq, runUnit_eq]
  exact D.unit (h.stmt _)

theorem sourceFound (h : D.Follows E E') (name file : String) (candidates : List String) :
    D.flow.rel (Command.sourceFound E name file candidates) (Command.sourceFound E' name file candidates) := by
  unfold Command.sourceFound
  rw [h.program, h.compiles]
  split
  · exact runUnit h _
  · refine D.flow.world fun w => ?_
    dsimp only
    split
    · exact D.plain (plain_complainWith _ _)
    · refine D.flow.ite (D.plain (plain_fail _)) ?_
      split
      · exact D.plain (plain_complainWith _ _)
      · exact runUnit h _

theorem source (h : D.Follows E E') (name : String) (args : List String) :
    D.flow.rel (Command.source E name args) (Command.source E' name args) := by
  cases args with
  | nil => exact D.plain (plain_usage _ _)
  | cons file rest =>
      refine D.flow.shell fun s => D.flow.ite (sourceFound h _ _ _) ?_
      exact D.params rest (sourceFound h _ _ _)

theorem exec (h : D.Follows E E') (args : List String) :
    D.flow.rel (Command.exec E args) (Command.exec E' args) := by
  cases args with
  | nil => exact D.plain (plain_setStatus 0)
  | cons name args => exact D.flow.bind (dispatchPlain h name args) fun _ => D.flow.shell fun s => D.exit _

-- What stands behind the options of a command.
theorem withFlags (known : List (Char × FlagKind)) (name : String) (args : List String)
    {body body' : Flags → Run Unit} (h : ∀ f, D.flow.rel (body f) (body' f)) :
    D.flow.rel (Command.withFlags known name args body) (Command.withFlags known name args body') := by
  unfold Command.withFlags
  split
  · exact D.plain (plain_usage _ _)
  · exact h _

theorem command (h : D.Follows E E') (name : String) (args : List String) :
    D.flow.rel (Command.command E name args) (Command.command E' name args) := by
  refine withFlags _ _ _ fun f => ?_
  split
  · exact D.plain (plain_setStatus 0)
  · refine D.flow.ite ?_ ?_
    · refine D.flow.bind (D.plain (plain_setStatus 0)) fun _ => ?_
      rw [h.program]
      exact D.plain (Command.plain_describeEach _ _ _)
    · split
      · exact h.builtin _ _
      · exact runExternal h [] _ _

-- All that `umask` needs is that the mask may be set.
theorem umask (hmask : ∀ mask, D.flow.rel (modifyWorld fun w => { w with mask }) (modifyWorld fun w => { w with mask }))
    (name : String) (args : List String) :
    D.flow.rel (Command.umask name args) (Command.umask name args) := by
  refine withFlags _ _ _ fun f => D.flow.bind (D.plain (plain_setStatus 0)) fun _ => ?_
  split
  · exact D.flow.world fun w => D.flow.ite (D.plain (plain_printLine _)) (D.plain (plain_printLine _))
  · split
    · exact D.flow.ite (D.plain (plain_complainWith _ _)) (hmask _)
    · exact D.plain (plain_complainWith _ _)

theorem trap (hcrash : D.flow.rel (throw (.stopped .crash) : Run Unit) (throw (.stopped .crash)))
    (args : List String) : D.flow.rel (Command.trap args) (Command.trap args) := by
  by_cases hargs : args = ["--"]
  · subst hargs
    exact D.flow.bind (D.plain (plain_setStatus 0)) fun _ => hcrash
  · exact D.plain (Command.plain_trap hargs)

theorem getopts (hcrash : D.flow.rel (throw (.stopped .crash) : Run Unit) (throw (.stopped .crash)))
    (args : List String) : D.flow.rel (Command.getopts args) (Command.getopts args) := by
  have hend : ∀ name index, D.flow.rel (Command.optionsEnd name index) (Command.optionsEnd name index) :=
    fun name index => D.loose (Command.loose_optionsEnd name index)
  unfold Command.getopts
  split
  · refine D.flow.shell fun s => D.flow.bind (D.plain (plain_valueOf _)) fun v => ?_
    dsimp only
    split
    · exact hend _ _
    · refine D.flow.ite (hend _ _) (D.flow.ite (hend _ _) ?_)
      split
      · exact hcrash
      · exact D.flow.bind (D.plain (Command.plain_setOptionPos _)) fun _ => D.loose (Command.loose_optionAt _ _ _ _ _ _ _ _)
  · exact D.plain (plain_usage _ _)

theorem runBuiltin (h : D.Follows E E') (b : Builtin) (name : String) (args : List String)
    (humask : b = .umask → D.flow.rel (Command.umask name args) (Command.umask name args))
    (hcrash : b = .trap ∨ b = .getopts → D.flow.rel (throw (.stopped .crash) : Run Unit) (throw (.stopped .crash))) :
    D.flow.rel (runBuiltin E b name args) (runBuiltin E' b name args) := by
  cases b with
  | umask => exact humask rfl
  | export_ | local_ | readonly | declare | typeset => exact declareArgs h _ name args
  | set => exact D.loose (Command.loose_set args)
  | shift => exact D.loose (Command.loose_shift args)
  | unset => exact D.loose (Command.loose_unset name args)
  | trap => exact trap (hcrash (.inl rfl)) args
  | getopts => exact getopts (hcrash (.inr rfl)) args
  | exit => exact exit_ args
  | return_ => exact D.return_ args
  | break_ => exact D.leaveLoop name false args
  | continue_ => exact D.leaveLoop name true args
  | source | dot => exact source h name args
  | eval => exact evalText h "eval" _
  | exec => exact exec h args
  | let_ => exact D.flow_of_quiet (Congruence.let_ h.expands args)
  | command => exact command h name args
  | type =>
      refine withFlags _ _ _ fun f => D.flow.bind (D.plain (plain_setStatus 0)) fun _ => ?_
      rw [h.program]
      exact D.plain (Command.plain_typeEach _ _ _ _)
  | hash =>
      have hsame : Command.hash E' name args = Command.hash E name args := by rw [Command.hash, Command.hash, h.program]
      change D.flow.rel (Command.hash E name args) (Command.hash E' name args)
      exact hsame.symm ▸ D.plain (Command.plain_hash E name args)
  | _ => exact D.plain (by simp [Machine.runBuiltin])

theorem Admits.runBuiltin {D : Discipline} (hadmits : D.Admits) (h : D.Follows E E') (b : Builtin) (name : String)
    (args : List String) : D.flow.rel (Machine.runBuiltin E b name args) (Machine.runBuiltin E' b name args) :=
  Discipline.runBuiltin h b name args (fun _ => umask hadmits.mask name args) fun _ => hadmits.crash

theorem prefixed (h : D.Follows E E') (assigns : List Assign) {m m' : Run Unit} (hm : D.flow.rel m m') :
    D.flow.rel (prefixed E assigns m) (prefixed E' assigns m') := by
  refine D.flow.ite hm (D.flow.bind (D.flow_of_quiet (Agreement.literals h.expands assigns)) fun values => ?_)
  exact D.scope values hm

section Calls

variable {run run' : Builtin → String → List String → Run Unit}

theorem dispatchBy (h : D.Follows E E') (hrun : ∀ b name args, D.flow.rel (run b name args) (run' b name args))
    (assigns : List Assign) (name : String) (args : List String) :
    D.flow.rel (dispatchBy run E assigns name args) (dispatchBy run' E' assigns name args) := by
  have hbuiltin : ∀ b, D.flow.rel (dispatchBy.asBuiltin run E assigns name args b)
      (dispatchBy.asBuiltin run' E' assigns name args b) := by
    intro b
    cases b with
    | none =>
        refine D.flow.bind (D.flow_of_quiet (Agreement.literals h.expands assigns)) fun values => ?_
        exact runExternal h values name args
    | some b =>
        refine D.flow.ite ?_ (prefixed h assigns (hrun b name args))
        exact D.flow.bind (D.flow_of_quiet (Agreement.assignAll h.expands assigns)) fun _ => hrun b name args
  refine D.flow.shell fun s => ?_
  split
  · exact D.flow.ite (hbuiltin _) (prefixed h assigns (callFunction h _ name args))
  · exact hbuiltin _

theorem callBy (h : D.Follows E E') (hrun : ∀ b name args, D.flow.rel (run b name args) (run' b name args))
    {bare bare' : Run Unit} (hbare : D.flow.rel bare bare') (assigns : List Assign) (words : List Word)
    (redirs : List Redir) :
    D.flow.rel (callBy run E bare assigns words redirs) (callBy run' E' bare' assigns words redirs) := by
  refine D.flow.bind (D.flow_of_quiet (Agreement.fields h.expands words)) fun fs => ?_
  cases fs with
  | nil =>
      refine D.redirected h.expands redirs (D.flow.bind (D.plain (plain_setStatus 0)) fun _ => ?_)
      exact D.flow_of_quiet (Agreement.assignAll h.expands assigns)
  | cons name args =>
      refine D.flow.shell fun s => D.flow.guard (plain_trace _) fun _ => D.flow.ite hbare ?_
      exact D.redirected h.expands redirs (dispatchBy h hrun assigns name args)

end Calls

theorem callOr (h : D.Follows E E') (hadmits : D.Admits) {bare bare' : Run Unit} (hbare : D.flow.rel bare bare')
    (assigns : List Assign) (words : List Word) (redirs : List Redir) :
    D.flow.rel (callOr E bare assigns words redirs) (callOr E' bare' assigns words redirs) := by
  rw [callOr_eq, callOr_eq]
  exact callBy h (hadmits.runBuiltin h) hbare assigns words redirs

-- Pipelines and jobs.

theorem subshell_code (h : D.Follows E E') (change : Streams → Streams) (st : Stmt) :
    D.quiet.rel (withStreams change (Run.code (E.stmt st))) (withStreams change (Run.code (E'.stmt st))) :=
  D.subshell change (D.code (h.stmt st))

theorem runStages (h : D.Follows E E') (input : Option Stream) (stages : List Stmt) (both : List Bool) :
    D.quiet.rel (runStages E input stages both) (runStages E' input stages both) := by
  induction stages generalizing input both with
  | nil => exact D.quiet.pure []
  | cons st rest ih =>
      cases rest with
      | nil =>
          refine D.quiet.bind (subshell_code h (fun s => { s with input := input.getD s.input }) st) fun c => ?_
          exact D.quiet.pure [c]
      | cons next rest =>
          refine D.quiet.world fun w => D.quiet.bind (D.quiet.plain (plain_newChannel _)) fun out => ?_
          refine D.quiet.bind (subshell_code h (fun s =>
            { input := input.getD s.input, output := out, error := if both.headD false then out else s.error }) st)
            fun c => ?_
          refine D.quiet.world fun w => D.quiet.bind (D.quiet.plain (plain_newChannel _)) fun src => ?_
          exact D.quiet.bind (ih (some src) (both.drop 1)) fun cs => D.quiet.pure (c :: cs)

theorem runPipeline (h : D.Follows E E') (stages : List Stmt) (both : List Bool) :
    D.quiet.rel (runPipeline E stages both) (runPipeline E' stages both) := by
  refine D.quiet.bind (runStages h none stages both) fun codes => D.quiet.plain ?_
  refine plain_shell.bind fun s => (plain_setStatus _).bind fun _ => Plain.ofShell fun t => ?_
  exact .withEnv t (Env.respects_setArray ..)

theorem pipeline (h : D.Follows E E') (negated : Bool) (stages : List Stmt) (both : List Bool) :
    D.flow.rel (pipeline E negated stages both) (pipeline E' negated stages both) := by
  have hrun := D.flow_of_quiet (runPipeline h stages both)
  unfold Machine.pipeline
  split
  · exact D.flow.bind (D.condition (h.stmt _)) fun _ => D.plain plain_negate
  · exact h.stmt _
  · exact D.flow.bind hrun fun _ => D.plain plain_negate
  · exact checked h hrun

theorem background (h : D.Follows E E') (st : Stmt) : D.quiet.rel (background E st) (background E' st) := by
  refine D.quiet.world fun w => D.quiet.bind (D.quiet.plain (plain_modifyWorld fun _ => rfl)) fun _ => ?_
  refine D.quiet.bind (subshell_code h (fun s => { s with input := Stream.null }) st) fun status => D.quiet.plain ?_
  exact Plain.bind (plain_modifyWorld fun _ => rfl) fun _ => Plain.modifyShell fun _ => ⟨rfl, rfl⟩

-- Loops.

theorem loopBody (h : D.Follows E E') (body : Block) : D.loop.rel (loopBody E body) (loopBody E' body) := by
  rw [loopBody_eq, loopBody_eq]
  exact D.turn (runBlock h body)

theorem whileOn {check check' : Run Unit} {round round' : Run Bool} (hcheck : D.loop.rel check check')
    (hround : D.loop.rel round round') (untilTrue : Bool) (n : Nat) (status : Int) :
    D.loop.rel (whileOn check round untilTrue n status) (whileOn check' round' untilTrue n status) := by
  induction n generalizing status with
  | zero => exact D.loop.exhausted
  | succ n ih =>
      refine D.loop.bind hcheck fun _ => D.loop.shell fun s => D.loop.ite (D.loop.plain (plain_setStatus _)) ?_
      refine D.loop.bind hround fun done => D.loop.ite (D.loop.pure ()) ?_
      exact D.loop.shell fun t => ih t.status

theorem forLoop (h : D.Follows E E') (name : String) (body : Block) (items : List String) :
    D.loop.rel (forLoop E name body items) (forLoop E' name body items) := by
  induction items with
  | nil => exact D.loop.pure ()
  | cons item items ih =>
      refine D.loop.bind (D.loop.plain (plain_setVar name item)) fun _ => ?_
      exact D.loop.bind (loopBody h body) fun done => D.loop.ite (D.loop.pure ()) ih

theorem arithLoop (h : D.Follows E E') (cond post : Option Arith) (body : Block) (n : Nat) :
    D.loop.rel (arithLoop E cond post body n) (arithLoop E' cond post body n) := by
  induction n with
  | zero => exact D.loop.exhausted
  | succ n ih =>
      have hgoOn : ∀ goOn : Bool, D.loop.rel
          (if !goOn then (pure () : Run Unit) else Machine.loopBody E body >>= fun done =>
            if done then pure () else arithOpt E post >>= fun _ => Machine.arithLoop E cond post body n)
          (if !goOn then (pure () : Run Unit) else Machine.loopBody E' body >>= fun done =>
            if done then pure () else arithOpt E' post >>= fun _ => Machine.arithLoop E' cond post body n) := by
        intro goOn
        refine D.loop.ite (D.loop.pure ()) (D.loop.bind (loopBody h body) fun done => D.loop.ite (D.loop.pure ()) ?_)
        exact D.loop.bind (D.loop_of_quiet (Agreement.arithOpt h.expands post)) fun _ => ih
      unfold Machine.arithLoop
      cases cond with
      | none => exact hgoOn true
      | some x =>
          exact D.loop.bind (D.loop_of_quiet (Agreement.arith h.expands 0 x)) fun v => hgoOn (v != 0)

theorem selectLoop (h : D.Follows E E') (name : String) (items : List String) (body : Block) (n : Nat) :
    D.loop.rel (selectLoop E name items body n) (selectLoop E' name items body n) := by
  induction n with
  | zero => exact D.loop.exhausted
  | succ n ih =>
      refine D.loop.shell fun s => D.loop.bind (D.loop.plain (plain_valueOf _)) fun ask => ?_
      refine D.loop.bind (D.loop.plain (plain_write _ _)) fun _ => ?_
      refine D.loop.bind (D.loop.plain (plain_readLine _ _)) fun (line, ended) => ?_
      refine D.loop.ite (D.loop.plain (by simp)) ?_
      refine D.loop.bind (D.loop.plain (plain_setVar _ _)) fun _ => D.loop.ite ?_ ?_
      · exact D.loop.bind (D.loop.plain (plain_write _ _)) fun _ => ih
      · refine D.loop.bind (D.loop.plain (plain_setVar _ _)) fun _ => ?_
        exact D.loop.bind (loopBody h body) fun done => D.loop.ite (D.loop.pure ()) ih

-- Statements.

-- The arm that is taken; how the list ends decides whether the next one runs or is tested.
theorem caseArm (h : D.Follows E E') (arm : CaseArm) {next next' : Bool → Run Unit}
    (hnext : ∀ fall, D.flow.rel (next fall) (next' fall)) :
    D.flow.rel
      (Machine.runBlock E arm.body >>= fun _ => match arm.term with
        | .stop => pure ()
        | .fallThrough => next true
        | .testNext => next false)
      (Machine.runBlock E' arm.body >>= fun _ => match arm.term with
        | .stop => pure ()
        | .fallThrough => next' true
        | .testNext => next' false) := by
  refine D.flow.bind (runBlock h arm.body) fun _ => ?_
  cases arm.term with
  | stop => exact D.flow.pure ()
  | fallThrough => exact hnext true
  | testNext => exact hnext false

theorem caseArms (h : D.Follows E E') (word : String) (fall : Bool) (arms : List CaseArm) :
    D.flow.rel (caseArms E word fall arms) (caseArms E' word fall arms) := by
  induction arms generalizing fall with
  | nil => exact D.flow.pure ()
  | cons arm rest ih =>
      have harm := caseArm h arm ih
      cases fall with
      | true => exact harm
      | false =>
          refine D.flow.bind (D.flow_of_quiet (Agreement.matchesAny h.expands word arm.patterns)) fun hit => ?_
          exact D.flow.ite harm (ih false)

theorem runTest (h : D.Follows E E') (x : Program.Test) : D.quiet.rel (runTest E x) (runTest E' x) := by
  rw [runTest_eq, runTest_eq]
  refine D.quiet.handle (Agreement.condition h.expands x) (fun _ => D.quiet.plain (plain_setStatus _)) fun e => ?_
  cases e with
  | fail f =>
      by_cases hf : (f.cause == .testForm) = true
      · simp only [hf, if_true]
        exact .inr ⟨fun _ => Signal.noConfusion, D.quiet.plain (plain_complainWith _ _)⟩
      · simp only [hf]
        exact .inl ⟨rfl, rfl⟩
  | _ => exact .inl ⟨rfl, rfl⟩

theorem sourceUnit (h : D.Follows E E') (unit : String) (args : List Word) :
    D.flow.rel (sourceUnit E unit args) (sourceUnit E' unit args) := by
  unfold Machine.sourceUnit
  rw [h.program]
  split
  · exact D.plain (plain_complainWith _ _)
  · refine D.flow.ite (runUnit h _) ?_
    exact D.flow.bind (D.flow_of_quiet (Agreement.fields h.expands args)) fun fs => D.params fs (runUnit h _)

-- All statements but those that a discipline may treat apart.
theorem runStmt (h : D.Follows E E') {st : Stmt} (hst : isApart st = false) :
    D.flow.rel (runStmt E st) (runStmt E' st) := by
  have hq {α : Type} {m m' : Run α} : D.quiet.rel m m' → D.flow.rel m m' := D.flow_of_quiet
  cases st with
  | call | loop => exact absurd hst (by simp [isApart])
  | decl at_ variant opts assigns redirs =>
      exact checked h (D.redirected h.expands redirs (declareWords h _ _ _))
  | andOr op x y =>
      refine D.flow.bind (D.condition (h.stmt x)) fun _ => D.flow.shell fun s => ?_
      exact D.flow.ite (D.flow.pure ()) (h.stmt y)
  | pipeline negated stages both => exact pipeline h negated stages both
  | background x => exact hq (background h x)
  | ifThen cond yes no =>
      refine D.flow.bind (D.condition (runBlock h cond)) fun _ => D.flow.shell fun s => ?_
      refine D.flow.ite (runBlock h yes) ?_
      cases no with
      | none => exact D.plain (plain_setStatus 0)
      | some b => exact runBlock h b
  | forIn name inParams items body =>
      refine D.flow.bind (hq (Agreement.loopItems h.expands inParams items)) fun xs => D.inLoop ?_
      exact D.loop.bind (D.loop.plain (plain_setStatus 0)) fun _ => forLoop h name body xs
  | forArith start cond post body =>
      refine D.flow.bind (hq (Agreement.arithOpt h.expands start)) fun _ => D.inLoop ?_
      refine D.loop.bind (D.loop.plain (plain_setStatus 0)) fun _ => ?_
      rw [h.rounds]
      exact arithLoop h cond post body _
  | select name inParams items body =>
      refine D.flow.bind (hq (Agreement.loopItems h.expands inParams items)) fun xs => D.inLoop ?_
      refine D.loop.shell fun s => D.loop.bind (D.loop.plain (plain_write _ _)) fun _ => ?_
      rw [h.rounds]
      exact selectLoop h name xs body _
  | caseOf word arms =>
      refine D.flow.bind (hq (Agreement.literal h.expands word)) fun text => ?_
      exact D.flow.bind (D.plain (plain_setStatus 0)) fun _ => caseArms h text false arms
  | function name body =>
      unfold Machine.runStmt
      exact D.plain (Plain.modifyShell fun _ => ⟨rfl, rfl⟩)
  | subshell body =>
      refine checked h (hq (D.quiet.bind ?_ fun status => D.quiet.plain (plain_setStatus status)))
      exact D.subshell id (D.inner.bind (D.code (runBlock h body)) fun c => finish h c)
  | group body => exact runBlock h body
  | arith x =>
      refine checked h (hq (D.quiet.bind (Agreement.arith h.expands 0 x) fun n => ?_))
      exact D.quiet.plain (plain_setStatus _)
  | test x => exact checked h (hq (runTest h x))
  | redirected x redirs => exact D.redirected h.expands redirs (h.stmt x)
  | source at_ unit args redirs => exact checked h (D.redirected h.expands redirs (sourceUnit h unit args))

end Discipline
end Machine
end ShellScript

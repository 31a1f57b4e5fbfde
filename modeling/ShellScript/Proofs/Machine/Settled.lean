import ShellScript.Proofs.Machine.ControlFlow

-- The engine that gives up where a failure is passed over: what a compound command does besides running commands is
-- not followed by a check of its own. Up to there it is the real one, and it is as well-behaved.
namespace ShellScript
namespace Machine

open Program (Arith Stmt Block CaseArm)
open Run

-- Gives up if the shell should have ended.
def settle : Run Unit := do
  let s ← shell
  if s.options.errexit && s.conditions == 0 && s.status != 0 then throw (.stopped .bound)

-- An expansion whose command substitutions do not fail.
def heed {α : Type} (m : Run α) : Run α := do
  let before ← shell
  let a ← m
  let after ← shell
  if after.status == before.status then return a
  else do
    settle
    return a

-- A list with nothing in it leaves what was there.
def settledBlock (E : Engine) (b : Block) : Run Unit := if b.stmts.isEmpty then settle else runBlock E b

-- The status of the last round is taken for the whole loop, unless `errexit` was off then or the round is empty.
def settledWhile (check : Run Unit) (round : Run Bool) (untilTrue blank : Bool) : Nat → Int → Bool → Run Unit
  | 0, _, _ => throw (.stopped .bound)
  | n + 1, status, stale => do
    check
    if ((← shell).status == 0) == untilTrue then
      setStatus status
      if stale then settle
    else
      let done ← round
      if done then return
      else
        let s ← shell
        settledWhile check round untilTrue blank n s.status (blank || !s.options.errexit)

def settledArith (E : Engine) (cond post : Option Arith) (body : Block) : Nat → Run Unit
  | 0 => throw (.stopped .bound)
  | n + 1 => do
    let goOn ← match cond with
      | none => pure true
      | some x => do pure ((← heed (arith E 0 x)) != 0)
    if !goOn then return
    let done ← loopBody E body
    if done then return
    let _ ← heed (arithOpt E post)
    settledArith E cond post body n

-- A choice that is asked for when the input has ended.
def settledSelect (E : Engine) (name : String) (items : List String) (body : Block) : Nat → Run Unit
  | 0 => throw (.stopped .bound)
  | n + 1 => do
    let s ← shell
    write s.streams.error (← valueOf "PS3")
    let (line, ended) ← readLine s.streams.input '\n'
    if ended && line.isEmpty then
      write s.streams.error "\n"
      setStatus 1
      settle
    else
      setVar "REPLY" line
      let text := Text.trim line
      if text.isEmpty then
        write s.streams.error (menu 1 items)
        settledSelect E name items body n
      else
        setVar name (chosen items text)
        let done ← loopBody E body
        if done then return else settledSelect E name items body n

def settledArms (E : Engine) (word : String) (fall : Bool) : List CaseArm → Run Unit
  | [] => return
  | arm :: rest => do
    let hit ← if fall then pure true else heed (matchesAny E word arm.patterns)
    if hit then
      runBlock E arm.body
      match arm.term with
      | .stop => return
      | .fallThrough => settledArms E word true rest
      | .testNext => settledArms E word false rest
    else settledArms E word false rest

-- A trap keeps the status; it may turn `errexit` on after a command that has failed without.
def settledSignals (E : Engine) : Run Unit := do
  let before ← shell
  runSignals E
  if before.options.errexit then return else settle

def Layer.settled : Layer where
  stmt E
    | .ifThen cond yes (some no) => do
      asCondition (runBlock E cond)
      if (← shell).status == 0 then runBlock E yes else settledBlock E no
    | .loop untilTrue cond body =>
      let check := asCondition (runBlock E cond)
      inLoop (settledWhile check (loopBody E body) untilTrue body.stmts.isEmpty E.rounds 0 false)
    | .forArith start cond post body => do
      let _ ← arithOpt E start
      inLoop do
        setStatus 0
        settledArith E cond post body E.rounds
    | .select name inParams items body => do
      let items ← loopItems E inParams items
      inLoop do
        write (← shell).streams.error (menu 1 items)
        settledSelect E name items body E.rounds
    | .caseOf word arms => do
      let text ← literal E word
      setStatus 0
      settledArms E text false arms
    | .group body => settledBlock E body
    | .redirected x redirs =>
      redirectedOr (fun f => do complainWith 1 f.report; settle) E redirs (E.stmt x)
    | st => runStmt E st
  builtin := runBuiltin
  between := settledSignals

-- It is as well-behaved as the real one.

-- What comes after is as good as nothing.
theorem Congruence.followed {C : Congruence} {m m' last : Run Unit} (hm : C.rel m m')
    (hlast : C.rel last (Pure.pure ())) : C.rel (m >>= fun _ => last) m' := by
  have h := C.bind hm fun _ => hlast
  rw [bind_pure_unit] at h
  exact h

theorem Congruence.heed {C : Congruence} (hsettle : C.rel settle (Pure.pure ())) {α : Type} {m m' : Run α}
    (hm : C.rel m m') : C.rel (heed m) m' := by
  have heq : m' = Run.shell >>= fun before => m' >>= fun a => Run.shell >>= fun after =>
      if after.status == before.status then Pure.pure a else Pure.pure () >>= fun _ => Pure.pure a := by
    funext s
    rw [shell_bind]
    cases hr : m' s with
    | ok a t =>
        rw [bind_of_ok hr, shell_bind]
        split <;> rfl
    | error e t => rw [bind_of_error hr]
  rw [heq]
  refine C.shell fun before => C.bind hm fun a => C.shell fun after => C.ite (C.pure a) ?_
  exact C.bind hsettle fun _ => C.pure a

namespace Discipline

variable {D : Discipline} {E E' : Engine} (hsettle : D.quiet.rel settle (pure ()))

include hsettle

theorem settledBlock (h : D.Follows E E') (b : Block) : D.flow.rel (settledBlock E b) (Machine.runBlock E' b) := by
  unfold Machine.settledBlock
  split
  · rename_i hempty
    rw [Machine.runBlock, List.isEmpty_iff.mp hempty]
    exact D.flow_of_quiet hsettle
  · exact runBlock h b

theorem settledWhile {check check' : Run Unit} {round round' : Run Bool} (hcheck : D.loop.rel check check')
    (hround : D.loop.rel round round') (untilTrue blank : Bool) (n : Nat) (status : Int) (stale : Bool) :
    D.loop.rel (settledWhile check round untilTrue blank n status stale)
      (Machine.whileOn check' round' untilTrue n status) := by
  induction n generalizing status stale with
  | zero => exact D.loop.exhausted
  | succ n ih =>
      refine D.loop.bind hcheck fun _ => D.loop.shell fun s => D.loop.ite ?_ ?_
      · refine Congruence.followed (D.loop.plain (plain_setStatus status)) ?_
        cases stale with
        | true => exact D.loop_of_quiet hsettle
        | false => exact D.loop.pure ()
      · refine D.loop.bind hround fun done => D.loop.ite (D.loop.pure ()) ?_
        exact D.loop.shell fun t => ih t.status _

theorem settledArith (h : D.Follows E E') (cond post : Option Arith) (body : Block) (n : Nat) :
    D.loop.rel (settledArith E cond post body n) (Machine.arithLoop E' cond post body n) := by
  induction n with
  | zero => exact D.loop.exhausted
  | succ n ih =>
      have hheed {α : Type} {m m' : Run α} (hm : D.quiet.rel m m') : D.loop.rel (heed m) m' :=
        D.loop_of_quiet (Congruence.heed hsettle hm)
      have hgoOn : ∀ goOn : Bool, D.loop.rel
          (if !goOn then (pure () : Run Unit) else Machine.loopBody E body >>= fun done =>
            if done then pure () else heed (arithOpt E post) >>= fun _ => Machine.settledArith E cond post body n)
          (if !goOn then (pure () : Run Unit) else Machine.loopBody E' body >>= fun done =>
            if done then pure () else arithOpt E' post >>= fun _ => Machine.arithLoop E' cond post body n) := by
        intro goOn
        refine D.loop.ite (D.loop.pure ()) (D.loop.bind (loopBody h body) fun done => D.loop.ite (D.loop.pure ()) ?_)
        exact D.loop.bind (hheed (Agreement.arithOpt h.expands post)) fun _ => ih
      unfold Machine.settledArith Machine.arithLoop
      cases cond with
      | none => exact hgoOn true
      | some x => exact D.loop.bind (hheed (Agreement.arith h.expands 0 x)) fun v => hgoOn (v != 0)

theorem settledSelect (h : D.Follows E E') (name : String) (items : List String) (body : Block) (n : Nat) :
    D.loop.rel (settledSelect E name items body n) (Machine.selectLoop E' name items body n) := by
  induction n with
  | zero => exact D.loop.exhausted
  | succ n ih =>
      refine D.loop.shell fun s => D.loop.bind (D.loop.plain (plain_valueOf _)) fun ask => ?_
      refine D.loop.bind (D.loop.plain (plain_write _ _)) fun _ => ?_
      refine D.loop.bind (D.loop.plain (plain_readLine _ _)) fun (line, ended) => D.loop.ite ?_ ?_
      · refine D.loop.bind (D.loop.plain (plain_write _ _)) fun _ => ?_
        exact Congruence.followed (D.loop.plain (plain_setStatus 1)) (D.loop_of_quiet hsettle)
      · refine D.loop.bind (D.loop.plain (plain_setVar _ _)) fun _ => D.loop.ite ?_ ?_
        · exact D.loop.bind (D.loop.plain (plain_write _ _)) fun _ => ih
        · refine D.loop.bind (D.loop.plain (plain_setVar _ _)) fun _ => ?_
          exact D.loop.bind (loopBody h body) fun done => D.loop.ite (D.loop.pure ()) ih

theorem settledSignals (h : D.Follows E E') : D.flow.rel (settledSignals E) (Machine.runSignals E') := by
  have hlast (before : Shell) :
      D.flow.rel (if before.options.errexit then (pure () : Run Unit) else settle) (pure ()) := by
    split
    · exact D.flow.pure ()
    · exact D.flow_of_quiet hsettle
  have hlook : Machine.runSignals E' = shell >>= fun _ => Machine.runSignals E' := rfl
  rw [hlook]
  exact D.flow.shell fun before => Congruence.followed (runSignals h) (hlast before)

theorem settledArms (h : D.Follows E E') (word : String) (fall : Bool) (arms : List CaseArm) :
    D.flow.rel (settledArms E word fall arms) (Machine.caseArms E' word fall arms) := by
  induction arms generalizing fall with
  | nil => exact D.flow.pure ()
  | cons arm rest ih =>
      have harm := caseArm h arm ih
      cases fall with
      | true => exact harm
      | false =>
          have hmatches := Congruence.heed hsettle (Agreement.matchesAny h.expands word arm.patterns)
          exact D.flow.bind (D.flow_of_quiet hmatches) fun hit => D.flow.ite harm (ih false)

-- Where the real statements agree, so do these.
theorem settledStmt (h : D.Follows E E') (hreal : ∀ st, D.flow.rel (Machine.runStmt E st) (Machine.runStmt E' st))
    (hcheck : ∀ cond, D.loop.rel (asCondition (Machine.runBlock E cond)) (asCondition (Machine.runBlock E' cond)))
    (st : Stmt) : D.flow.rel (Layer.settled.stmt E st) (Machine.runStmt E' st) := by
  have hsettleFlow : D.flow.rel settle (pure ()) := D.flow_of_quiet hsettle
  have hst := hreal st
  cases st with
  | ifThen cond yes no =>
      cases no with
      | none => exact hst
      | some no =>
          refine D.flow.bind (D.condition (runBlock h cond)) fun _ => D.flow.shell fun s => ?_
          exact D.flow.ite (runBlock h yes) (settledBlock hsettle h no)
  | loop untilTrue cond body =>
      rw [Machine.runStmt, whileLoop_eq, h.rounds]
      exact D.inLoop (settledWhile hsettle (hcheck cond) (loopBody h body) untilTrue _ _ 0 false)
  | forArith start cond post body =>
      rw [Machine.runStmt, h.rounds]
      refine D.flow.bind (D.flow_of_quiet (Agreement.arithOpt h.expands start)) fun _ => D.inLoop ?_
      exact D.loop.bind (D.loop.plain (plain_setStatus 0)) fun _ => settledArith hsettle h cond post body _
  | select name inParams items body =>
      rw [Machine.runStmt, h.rounds]
      refine D.flow.bind (D.flow_of_quiet (Agreement.loopItems h.expands inParams items)) fun xs => D.inLoop ?_
      refine D.loop.shell fun s => D.loop.bind (D.loop.plain (plain_write _ _)) fun _ => ?_
      exact settledSelect hsettle h name xs body _
  | caseOf word arms =>
      refine D.flow.bind (D.flow_of_quiet (Agreement.literal h.expands word)) fun text => ?_
      exact D.flow.bind (D.plain (plain_setStatus 0)) fun _ => settledArms hsettle h text false arms
  | group body => exact settledBlock hsettle h body
  | redirected x redirs =>
      refine D.redirectedOr h.expands redirs (fun f => ?_) (h.stmt x)
      exact Congruence.followed (D.plain (plain_complainWith 1 f.report)) hsettleFlow
  | _ => exact hst

end Discipline

theorem settled_follows {D : Discipline} (hsettle : D.quiet.rel settle (pure ())) (hadmits : D.Admits)
    (hbare : ∀ {E E' : Engine}, D.Follows E E' → ∀ redirs,
      D.flow.rel (tryRedirs E redirs (setStatus 0)) (tryRedirs E' redirs (setStatus 0)))
    (hcheck : ∀ {E E' : Engine}, D.Follows E E' → ∀ cond,
      D.loop.rel (asCondition (runBlock E cond)) (asCondition (runBlock E' cond)))
    (program : Program) (compiles : Bool) (rounds n : Nat) :
    D.Follows (Layer.settled.engine program compiles rounds n) (alertEngine program compiles rounds n) := by
  rw [← Layer.engine_alert]
  refine Discipline.layered (fun h st => ?_) (fun h b name args => ?_) (fun h => ?_) program compiles rounds n
  · refine Discipline.settledStmt hsettle h (fun st => ?_) (hcheck h) st
    rw [← Variant.run_real, ← Variant.run_real]
    exact Discipline.run h hadmits (hbare h) (hcheck h) st
  · exact hadmits.runBuiltin h b name args
  · exact Discipline.settledSignals hsettle h

theorem Congruence.settle (C : Congruence) : C.rel settle settle :=
  C.shell fun _ => C.ite C.exhausted (C.pure ())

theorem settle_approximates : Approximates settle (pure ()) := by
  intro s
  unfold settle
  rw [shell_bind]
  split
  · exact .inl ⟨s, rfl⟩
  · exact .inr rfl

-- Up to where it gives up it is the real engine.
theorem settled_approximation (program : Program) (compiles : Bool) (rounds n : Nat) :
    Discipline.approximation.Follows (Layer.settled.engine program compiles rounds n)
      (alertEngine program compiles rounds n) :=
  settled_follows settle_approximates Discipline.admits_approximation
    (fun h redirs => Congruence.tryRedirs (C := .approximation) (.applyRedirs h.expands redirs) (.refl _))
    (fun h cond => Discipline.approximation.condition (Discipline.runBlock h cond)) program compiles rounds n

theorem settled_promise (program : Program) (compiles : Bool) (rounds n : Nat) :
    (Discipline.promise ⟨False, False⟩).Follows (Layer.settled.engine program compiles rounds n)
      (alertEngine program compiles rounds n) := by
  refine settled_follows (Congruence.settle (Promise.congruence _ .quiet)) (Discipline.admits_promise _)
    (fun h redirs => ?_) (fun h cond => ?_) program compiles rounds n
  · exact Promise.kept_tryRedirs h.expands id redirs (Promise.Kept.of_plain (plain_setStatus 0))
  · exact Promise.kept_check id h cond

theorem settled_loopExit (program : Program) (compiles : Bool) (rounds n : Nat) :
    Discipline.loopExit.Follows (Layer.settled.engine program compiles rounds n)
      (alertEngine program compiles rounds n) := by
  refine settled_follows (Congruence.settle .loopFree) Discipline.admits_loopExit
    (fun h redirs => ?_) (fun h cond => ?_) program compiles rounds n
  · exact Congruence.tryRedirs (C := .loopExit) (loopExit_applyRedirs h.expands redirs)
      (Congruence.plain _ (plain_setStatus 0))
  · exact Discipline.loopExit.condition (Discipline.runBlock h cond)

end Machine
end ShellScript

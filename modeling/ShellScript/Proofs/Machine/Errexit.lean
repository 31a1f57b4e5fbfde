import ShellScript.Proofs.Machine.Settled

-- Where a failing command ends the shell. The check for it is made after each command by itself; what a compound
-- command does besides running commands is not checked, and these are the only failures that are passed over.
namespace ShellScript
namespace Machine

open Program (Word Arith Stmt Block Redir CaseArm)
open Run

-- No `&&` or `||` list and no negated pipeline is among the statements that run in the shell itself. Conditions,
-- functions and subshells do not count.
inductive Direct : Stmt → Prop
  | call {pos assigns args redirs builtin external} : Direct (.call pos assigns args redirs builtin external)
  | decl {pos variant opts assigns redirs} : Direct (.decl pos variant opts assigns redirs)
  | alone {st both} : Direct st → Direct (.pipeline false [st] both)
  | stages {stages both} : stages.length ≠ 1 → Direct (.pipeline false stages both)
  | background {x} : Direct (.background x)
  | ifThen {cond yes no} : (∀ st ∈ yes.stmts, Direct st) → (∀ b ∈ no, ∀ st ∈ b.stmts, Direct st) →
      Direct (.ifThen cond yes no)
  | loop {untilTrue cond body} : (∀ st ∈ body.stmts, Direct st) → Direct (.loop untilTrue cond body)
  | forIn {name inParams items body} : (∀ st ∈ body.stmts, Direct st) → Direct (.forIn name inParams items body)
  | forArith {start cond post body} : (∀ st ∈ body.stmts, Direct st) → Direct (.forArith start cond post body)
  | select {name inParams items body} : (∀ st ∈ body.stmts, Direct st) → Direct (.select name inParams items body)
  | caseOf {word arms} : (∀ arm ∈ arms, ∀ st ∈ arm.body.stmts, Direct st) → Direct (.caseOf word arms)
  | function {name body} : Direct (.function name body)
  | subshell {body} : Direct (.subshell body)
  | group {body} : (∀ st ∈ body.stmts, Direct st) → Direct (.group body)
  | arith {x} : Direct (.arith x)
  | test {x} : Direct (.test x)
  | redirected {x redirs} : Direct x → Direct (.redirected x redirs)
  | source {pos unit args redirs} : Direct (.source pos unit args redirs)

-- What holds of the shell after a computation that is not left by a signal.
def Leads {α : Type} (pre : Shell → Prop) (m : Run α) (post : α → Shell → Prop) : Prop :=
  ∀ s a t, pre s.shell → m s = .ok a t → post a t.shell

namespace Shell

-- No condition runs.
def Free (s : Shell) : Prop := s.conditions = 0

-- And the shell need not end.
structure Calm (s : Shell) : Prop where
  free : s.Free
  settled : s.options.errexit = true → s.status = 0

end Shell

open Shell (Free Calm)

section Leads

variable {α β : Type} {pre : Shell → Prop} {m : Run α}

theorem Leads.bind {mid : α → Shell → Prop} {k : α → Run β} {post : β → Shell → Prop} (hm : Leads pre m mid)
    (hk : ∀ a, Leads (mid a) (k a) post) : Leads pre (m >>= k) post := by
  intro s b u hs hu
  cases hr : m s with
  | ok a t => exact hk a t b u (hm s a t hs hr) ((bind_of_ok hr k).symm.trans hu)
  | error e t => cases (bind_of_error hr k).symm.trans hu

-- What comes before does not matter.
theorem Leads.last {k : α → Run β} {post : β → Shell → Prop} (hk : ∀ a, Leads (fun _ => True) (k a) post) :
    Leads pre (m >>= k) post :=
  Leads.bind (fun _ _ _ _ _ => trivial) hk

theorem Leads.ite {c : Prop} [Decidable c] {m' : Run α} {post : α → Shell → Prop} (hm : Leads pre m post)
    (hm' : Leads pre m' post) : Leads pre (if c then m else m') post := by
  split <;> assumption

theorem Leads.mono {pre' : Shell → Prop} {post : α → Shell → Prop} (hpre : ∀ s, pre' s → pre s)
    (hm : Leads pre m post) : Leads pre' m post :=
  fun s a t hs => hm s a t (hpre s.shell hs)

theorem Leads.ensuring {post : Shell → Prop} {after : State → State} (hafter : ∀ t, post t.shell → post (after t).shell)
    (hm : Leads pre m fun _ => post) : Leads pre (ensuring m after) fun _ => post := by
  intro s a t hs ht
  rw [Run.ensuring] at ht
  cases hr : m s with
  | error e u =>
      rw [hr] at ht
      cases ht
  | ok b u =>
      rw [hr] at ht
      cases ht
      exact hafter u (hm s _ u hs hr)

theorem leads_pure (a : α) : Leads pre (pure a : Run α) fun _ => pre := fun s b t hs ht => by
  cases ht
  exact hs

theorem leads_exhausted {post : α → Shell → Prop} : Leads pre (throw (.stopped .bound)) post := fun s a t _ ht => by
  cases ht

theorem leads_shell : Leads pre shell fun a s => a = s ∧ pre s := fun s a t hs ht => by
  cases ht
  exact ⟨rfl, hs⟩

theorem Promise.Kept.leads {p : Promise} {l : Level} (h : ∀ s, p.Kept l s (m s)) : Leads Free m fun _ => Free := by
  intro s a t hs ht
  have hkept := h s
  rw [ht] at hkept
  exact (Promise.Keeps.conditions hkept).trans hs

theorem Plain.leads (h : Plain m) : Leads Free m fun _ => Free :=
  Promise.Kept.leads (p := ⟨False, False⟩) (l := .flow) (Promise.Kept.of_plain h)

theorem leads_settle : Leads Free settle fun _ => Calm := by
  intro s a t hs ht
  unfold settle at ht
  rw [shell_bind] at ht
  split at ht
  · cases ht
  · rename_i hcond
    cases ht
    refine ⟨hs, fun herrexit => ?_⟩
    rw [Free] at hs
    simpa [herrexit, hs] using hcond

-- A failure that is new is noticed, and an old one cannot matter: an expansion does not change the options.
theorem leads_heed {p : Promise} (h : ∀ s, p.Kept .quiet s (m s)) : Leads Calm (heed m) fun _ => Calm := by
  intro s a t hs ht
  unfold heed at ht
  rw [shell_bind] at ht
  cases hr : m s with
  | error e u => cases (bind_of_error hr _).symm.trans ht
  | ok b u =>
      have hkeeps := h s
      rw [hr] at hkeeps
      have hfree : u.shell.Free := (Promise.Keeps.conditions hkeeps).trans hs.free
      rw [bind_of_ok hr, shell_bind] at ht
      split at ht
      · rename_i hsame
        cases ht
        refine ⟨hfree, fun herrexit => ?_⟩
        rw [(Promise.Keeps.settings hkeeps rfl).2] at herrexit
        rw [eq_of_beq hsame]
        exact hs.settled herrexit
      · exact (leads_settle.bind fun _ => leads_pure b) u a t hfree ht

theorem leads_setStatus_zero : Leads Free (setStatus 0) fun _ => Calm := by
  intro s a t hs ht
  cases ht
  exact ⟨hs, fun _ => rfl⟩

end Leads

-- A check that lets a failure pass finds that `errexit` is off.
theorem leads_afterCommand {E : Engine} {p : Promise} (h : ∀ s, p.Kept .flow s (afterCommand E s)) :
    Leads Free (afterCommand E) fun _ => Calm := by
  intro s a t hs ht
  refine ⟨Promise.Kept.leads h s a t hs ht, fun herrexit => ?_⟩
  have hrest (c : Int) : Leads (fun _ => True)
      (do setStatus c; if (← shell).options.errexit then throw (.exit c) : Run Unit)
      fun _ u => u.options.errexit = false := by
    refine Leads.last fun _ u b v _ hv => ?_
    rw [shell_bind] at hv
    split at hv
    · cases hv
    · rename_i hoff
      cases hv
      exact Bool.not_eq_true _ ▸ hoff
  unfold afterCommand at ht
  rw [shell_bind] at ht
  split at ht
  · rename_i hpass
    cases ht
    rw [Free] at hs
    simpa [hs] using hpass
  · have hoff : t.shell.options.errexit = false := by
      cases htrap : s.shell.traps.lookup "ERR" with
      | none =>
          rw [htrap] at ht
          exact hrest s.shell.status s a t trivial ht
      | some text =>
          rw [htrap] at ht
          exact Leads.ite (.last fun _ => hrest s.shell.status) (hrest s.shell.status) s a t trivial ht
    rw [hoff] at herrexit
    cases herrexit

-- The counters at the end tell what they were at the check.
theorem leads_checked {E : Engine} {p : Promise} {m : Run Unit} (hafter : ∀ s, p.Kept .flow s (afterCommand E s))
    (h : ∀ s, p.Kept .flow s (checked E m s)) : Leads Free (checked E m) fun _ => Calm := by
  intro s a u hs hu
  have hkept := h s
  rw [hu] at hkept
  unfold checked at hu
  cases hr : m s with
  | error e t => cases (bind_of_error hr _).symm.trans hu
  | ok b t =>
      rw [bind_of_ok hr] at hu
      have hlast := hafter t
      rw [hu] at hlast
      have hfree : t.shell.Free := by
        rw [Free, ← Promise.Keeps.conditions hlast, Promise.Keeps.conditions hkept]
        exact hs
      exact leads_afterCommand hafter t a u hfree hu

theorem leads_setVar (name value : String) : Leads Calm (setVar name value) fun _ => Calm := by
  intro s a t hs ht
  unfold setVar at ht
  rw [shell_bind] at ht
  cases henv : s.shell.env.set name value with
  | ok env =>
      rw [henv] at ht
      cases ht
      exact ⟨hs.free, hs.settled⟩
  | error f =>
      rw [henv] at ht
      cases ht

-- A trap leaves the status as it was.
theorem leads_runTrap (E : Engine) (text : String) (k : Int) :
    Leads (·.status = k) (runTrap E text) fun _ s => s.status = k := by
  intro s a t hs ht
  rw [runTrap_eq, shell_bind] at ht
  cases hr : asCondition (evalText E "trap" text) s with
  | ok b u =>
      rw [handled_of_ok hr] at ht
      cases ht
      exact hs
  | error e u =>
      rw [handled_of_error hr] at ht
      cases e with
      | fail f =>
          dsimp only at ht
          rw [bind_of_ok (complain_eq f.report u)] at ht
          cases ht
          exact hs
      | return_ | loop =>
          cases ht
          exact hs
      | exit | stopped => cases ht

theorem leads_runSignals (E : Engine) (k : Int) :
    Leads (·.status = k) (runSignals E) fun _ s => s.status = k := by
  have harrived (n : Nat) : Leads (·.status = k) (runArrived E n) fun _ s => s.status = k := by
    induction n with
    | zero => exact leads_pure ()
    | succ n ih =>
        have hnext : Leads (·.status = k) nextSignal fun _ s => s.status = k := fun s a t hs ht =>
          (steady_nextSignal.ok ht).trans hs
        refine hnext.bind fun signal => ?_
        cases signal with
        | none => exact leads_pure ()
        | some signal =>
            refine (leads_shell.mono fun _ hs => hs).bind fun s => Leads.mono (fun _ hs => hs.2) ?_
            exact Leads.ite ((leads_runTrap E _ k).bind fun _ => ih) ih
  refine leads_shell.bind fun s => Leads.mono (fun _ hs => hs.2) (Leads.ite (leads_pure ()) ?_)
  exact fun s a t hs ht => harrived s.world.arrivals.length s a t hs ((world_bind _ s).symm.trans ht)

section Lists

variable {E E' : Engine} (hpromise : (Discipline.promise ⟨False, False⟩).Follows E E')

include hpromise

theorem leads_settledSignals : Leads Calm (settledSignals E) fun _ => Calm := by
  have hsignals : Leads Free (runSignals E) fun _ => Free :=
    Promise.Kept.leads (Discipline.runSignals hpromise)
  refine leads_shell.bind fun before s a t hs ht => ?_
  obtain ⟨rfl, hcalm⟩ := hs
  cases hr : runSignals E s with
  | error e u => cases (bind_of_error hr _).symm.trans ht
  | ok b u =>
      rw [bind_of_ok hr] at ht
      have hfree := hsignals s b u hcalm.free hr
      have hstatus := leads_runSignals E _ s b u rfl hr
      split at ht
      · rename_i herrexit
        cases ht
        exact ⟨hfree, fun _ => hstatus.trans (hcalm.settled herrexit)⟩
      · exact leads_settle u a t hfree ht

variable (hlaw : ∀ st, Direct st → Leads Free (E.stmt st) fun _ => Calm)

include hlaw

theorem leads_recovering {st : Stmt} (hst : Direct st) : Leads Free (recovering E (E.stmt st)) fun _ => Calm := by
  intro s a u hs hu
  unfold recovering at hu
  cases hr : E.stmt st s with
  | ok b t =>
      rw [hr] at hu
      cases hu
      exact hlaw st hst s _ _ hs hr
  | error e t =>
      have hkept := hpromise.stmt st s
      rw [hr] at hu hkept
      have hfree : t.shell.Free := (Promise.Keeps.conditions hkept.1).trans hs
      cases e with
      | fail f =>
          dsimp only at hu
          split at hu
          · have hreport := (plain_complainWith 1 f.report).leads
            exact (hreport.bind fun _ => leads_afterCommand (Discipline.afterCommand hpromise)) t a u hfree hu
          · cases hu
      | _ => cases hu

variable (hbetween : Leads Calm E.between fun _ => Calm)

include hbetween

theorem leads_runStmts {sts : List Stmt} (hsts : ∀ st ∈ sts, Direct st) :
    Leads Calm (runStmts E sts) fun _ => Calm := by
  induction sts with
  | nil => exact leads_pure ()
  | cons st sts ih =>
      have hfirst := leads_recovering hpromise hlaw (hsts st List.mem_cons_self)
      refine (hfirst.mono fun s hs => hs.free).bind fun _ => hbetween.bind fun _ => ?_
      exact ih fun x hx => hsts x (List.mem_cons_of_mem st hx)

-- A list that is not empty forgets what was before.
theorem leads_runBlock {b : Block} (hb : ∀ st ∈ b.stmts, Direct st) (hne : b.stmts ≠ []) :
    Leads Free (runBlock E b) fun _ => Calm := by
  unfold runBlock
  cases hsts : b.stmts with
  | nil => exact absurd hsts hne
  | cons st sts =>
      rw [hsts] at hb
      refine (leads_recovering hpromise hlaw (hb st List.mem_cons_self)).bind fun _ => hbetween.bind fun _ => ?_
      exact leads_runStmts hpromise hlaw hbetween fun x hx => hb x (List.mem_cons_of_mem st hx)

theorem leads_settledBlock {b : Block} (hb : ∀ st ∈ b.stmts, Direct st) :
    Leads Free (settledBlock E b) fun _ => Calm := by
  unfold settledBlock
  split
  · exact leads_settle
  · rename_i hne
    exact leads_runBlock hpromise hlaw hbetween hb (by simpa using hne)

variable (hexit : Discipline.loopExit.Follows E E')

include hexit

omit hlaw hbetween in
-- A round that `break` or `continue` ends has succeeded.
theorem leads_loopBody {pre : Shell → Prop} (hpre : ∀ s, pre s → s.Free) {body : Block}
    (hbody : Leads pre (runBlock E body) fun _ => Calm) : Leads pre (loopBody E body) fun _ => Calm := by
  intro s done t hs ht
  unfold loopBody at ht
  cases hr : runBlock E body s with
  | ok a u =>
      rw [hr] at ht
      cases ht
      exact hbody s a _ hs hr
  | error e u =>
      rw [hr] at ht
      cases e with
      | loop n next =>
          dsimp only at ht
          split at ht
          · cases ht
          · cases ht
            have hkept := Discipline.runBlock hpromise body s
            rw [hr] at hkept
            have hstatus := Discipline.runBlock hexit body s n next _ hr
            exact ⟨(Promise.Keeps.conditions hkept.1).trans (hpre _ hs), fun _ => hstatus⟩
      | _ => cases ht

theorem leads_forLoop (name : String) {body : Block} (hbody : ∀ st ∈ body.stmts, Direct st) (items : List String) :
    Leads Calm (forLoop E name body items) fun _ => Calm := by
  induction items with
  | nil => exact leads_pure ()
  | cons item items ih =>
      refine (leads_setVar name item).bind fun _ => ?_
      refine (leads_loopBody hpromise hexit (fun s hs => hs.free) (leads_runStmts hpromise hlaw hbetween hbody)).bind
        fun done => ?_
      exact Leads.ite (leads_pure ()) ih

theorem leads_settledArith (cond post : Option Arith) {body : Block} (hbody : ∀ st ∈ body.stmts, Direct st) (n : Nat) :
    Leads Calm (settledArith E cond post body n) fun _ => Calm := by
  induction n with
  | zero => exact leads_exhausted
  | succ n ih =>
      have hround := leads_loopBody hpromise hexit (fun s hs => hs.free) (leads_runStmts hpromise hlaw hbetween hbody)
      have hpost := leads_heed (Agreement.arithOpt hpromise.expands post)
      have hgoOn (goOn : Bool) := Leads.ite (c := !goOn) (leads_pure ()) <|
        hround.bind fun done => Leads.ite (c := done) (leads_pure ()) <| hpost.bind fun _ => ih
      unfold settledArith
      cases cond with
      | none => exact hgoOn true
      | some x => exact (leads_heed (Agreement.arith hpromise.expands 0 x)).bind fun v => hgoOn (v != 0)

-- A round that is empty leaves the status of the condition.
theorem leads_round {body : Block} (hbody : ∀ st ∈ body.stmts, Direct st) :
    Leads Free (loopBody E body) fun done s =>
      s.Free ∧ ((done = true ∨ body.stmts.isEmpty = false) → s.Calm) := by
  by_cases hempty : body.stmts = []
  · intro s done t hs ht
    rw [loopBody, runBlock, hempty] at ht
    cases ht
    exact ⟨hs, by simp [hempty]⟩
  · have hblock := leads_runBlock hpromise hlaw hbetween hbody hempty
    intro s done t hs ht
    have hcalm := leads_loopBody hpromise hexit (fun s hs => hs) hblock s done t hs ht
    exact ⟨hcalm.free, fun _ => hcalm⟩

-- What a round ends with is the status of the loop. It is fine if `errexit` was on then, and looked at in the end else.
theorem leads_settledWhile {cond body : Block} (hbody : ∀ st ∈ body.stmts, Direct st) (untilTrue : Bool) (n : Nat)
    {status : Int} {stale : Bool} (hstatus : stale = true ∨ status = 0) :
    Leads Free
      (settledWhile (asCondition (runBlock E cond)) (loopBody E body) untilTrue body.stmts.isEmpty n status stale)
      fun _ => Calm := by
  have hcheck : Leads Free (asCondition (runBlock E cond)) fun _ => Free :=
    Promise.Kept.leads (Promise.kept_condition (Discipline.runBlock hpromise cond))
  have hround := leads_round hpromise hlaw hbetween hexit hbody
  induction n generalizing status stale with
  | zero => exact leads_exhausted
  | succ n ih =>
      refine hcheck.bind fun _ => leads_shell.bind fun s => Leads.ite ?_ ?_
      · refine Leads.mono (fun _ hs => hs.2) ?_
        cases stale with
        | true => exact (plain_setStatus status).leads.bind fun _ => leads_settle
        | false =>
            rw [hstatus.resolve_left Bool.false_ne_true]
            exact leads_setStatus_zero.bind fun _ => leads_pure ()
      · refine (hround.mono fun s hs => hs.2).bind fun done => ?_
        cases done with
        | true => exact (leads_pure ()).mono fun s hs => hs.2 (.inl rfl)
        | false =>
            refine leads_shell.bind fun s u a t hu ht => ?_
            obtain ⟨rfl, hfree, hcalm⟩ := hu
            refine ih ?_ u a t hfree ht
            cases hempty : body.stmts.isEmpty with
            | true => exact .inl rfl
            | false =>
                cases herrexit : u.shell.options.errexit with
                | true => exact .inr ((hcalm (.inr hempty)).settled herrexit)
                | false => exact .inl rfl

-- The rounds end with one that ends the loop; the end of the input is looked at.
theorem leads_settledSelect (name : String) (items : List String) {body : Block} (hbody : ∀ st ∈ body.stmts, Direct st)
    (n : Nat) : Leads Free (settledSelect E name items body n) fun _ => Calm := by
  have hround := leads_round hpromise hlaw hbetween hexit hbody
  induction n with
  | zero => exact leads_exhausted
  | succ n ih =>
      refine leads_shell.bind fun s => Leads.mono (fun _ hs => hs.2) ?_
      refine (plain_valueOf "PS3").leads.bind fun ask => (plain_write _ _).leads.bind fun _ => ?_
      refine (plain_readLine _ _).leads.bind fun (line, ended) => Leads.ite ?_ ?_
      · exact (plain_write _ _).leads.bind fun _ => (plain_setStatus 1).leads.bind fun _ => leads_settle
      · refine (plain_setVar _ _).leads.bind fun _ => Leads.ite ((plain_write _ _).leads.bind fun _ => ih) ?_
        refine (plain_setVar _ _).leads.bind fun _ => hround.bind fun done => ?_
        cases done with
        | true => exact (leads_pure ()).mono fun s hs => hs.2 (.inl rfl)
        | false => exact ih.mono fun s hs => hs.1

omit hexit in
theorem leads_caseArm {arm : CaseArm} (harm : ∀ st ∈ arm.body.stmts, Direct st) {next : Bool → Run Unit}
    (hnext : ∀ fall, Leads Calm (next fall) fun _ => Calm) :
    Leads Calm (runBlock E arm.body >>= fun _ => match arm.term with
      | .stop => pure ()
      | .fallThrough => next true
      | .testNext => next false) fun _ => Calm := by
  refine (leads_runStmts hpromise hlaw hbetween harm).bind fun _ => ?_
  cases arm.term with
  | stop => exact leads_pure ()
  | fallThrough => exact hnext true
  | testNext => exact hnext false

omit hexit in
theorem leads_settledArms (word : String) (fall : Bool) {arms : List CaseArm}
    (harms : ∀ arm ∈ arms, ∀ st ∈ arm.body.stmts, Direct st) :
    Leads Calm (settledArms E word fall arms) fun _ => Calm := by
  induction arms generalizing fall with
  | nil => exact leads_pure ()
  | cons arm rest ih =>
      have hrest (fall : Bool) := ih fall fun x hx => harms x (List.mem_cons_of_mem arm hx)
      have harm := leads_caseArm hpromise hlaw hbetween (harms arm List.mem_cons_self) hrest
      cases fall with
      | true => exact harm
      | false =>
          refine (leads_heed (Agreement.matchesAny hpromise.expands word arm.patterns)).bind fun hit => ?_
          exact Leads.ite harm (hrest false)

omit hpromise hlaw hbetween hexit in
theorem leads_inLoop {m : Run Unit} (hm : Leads Free m fun _ => Calm) : Leads Free (inLoop m) fun _ => Calm := by
  intro s
  exact Leads.ensuring (fun t ht => ⟨ht.free, ht.settled⟩) hm
    { s with shell := { s.shell with loops := s.shell.loops + 1 } }

omit hexit hlaw hbetween in
-- A redirection that cannot be applied is a failure that nothing checks.
theorem leads_redirected {m : Run Unit} (hm : Leads Free m fun _ => Calm) (redirs : List Redir) :
    Leads Free (redirectedOr (fun f => do complainWith 1 f.report; settle) E redirs m) fun _ => Calm := by
  have htry : Leads Free (tryRedirsOr (fun f => do complainWith 1 f.report; settle) E redirs m) fun _ => Calm := by
    intro s a t hs ht
    have hkept := Promise.kept_applyRedirs hpromise.expands id redirs s
    unfold tryRedirsOr at ht
    cases hr : applyRedirs E redirs s with
    | ok b u =>
        rw [hr] at ht hkept
        exact hm u a t ((Promise.Keeps.conditions hkept).trans hs) ht
    | error e u =>
        rw [hr] at ht hkept
        have hfree : u.shell.Free := (Promise.Keeps.conditions hkept.1).trans hs
        cases e with
        | fail f =>
            dsimp only at ht
            split at ht
            · exact ((plain_complainWith 1 f.report).leads.bind fun _ => leads_settle) u a t hfree ht
            · cases ht
        | _ => cases ht
  unfold redirectedOr
  refine Leads.ite hm (leads_shell.bind fun saved => ?_)
  exact Leads.ensuring (fun t ht => ⟨ht.free, ht.settled⟩) (htry.mono fun _ hs => hs.2)

-- One level up: every kind of statement ends with a check, in a list that does, or with success.
theorem leads_settledStmt (hkept : ∀ st s, (⟨False, False⟩ : Promise).Kept .flow s (Layer.settled.stmt E st s))
    {st : Stmt} (hst : Direct st) : Leads Free (Layer.settled.stmt E st) fun _ => Calm := by
  have hafter := Discipline.afterCommand hpromise
  have hquiet {α : Type} {m m' : Run α} (hm : (Discipline.promise ⟨False, False⟩).quiet.rel m m') :
      Leads Free m fun _ => Free := Promise.Kept.leads hm
  -- what ends with a status of zero
  have hzero {st : Stmt} (h : Leads Free (Layer.settled.stmt E st) fun _ s => s.status = 0) :
      Leads Free (Layer.settled.stmt E st) fun _ => Calm := fun s a t hs ht =>
    ⟨Promise.Kept.leads (hkept st) s a t hs ht, fun _ => h s a t hs ht⟩
  have hchecked {st : Stmt} {m : Run Unit} (heq : Layer.settled.stmt E st = checked E m) :
      Leads Free (Layer.settled.stmt E st) fun _ => Calm := by
    have hk := hkept st
    rw [heq] at hk ⊢
    exact leads_checked hafter hk
  cases hst with
  | call | decl | subshell | arith | test | source => exact hchecked rfl
  | alone hst => exact hlaw _ hst
  | @stages stages both hstages =>
      refine hchecked (m := runPipeline E stages both) ?_
      change pipeline E false stages both = _
      unfold pipeline
      split
      · exact absurd rfl hstages
      · exact absurd rfl hstages
      · rename_i hfalse
        cases hfalse
      · rfl
  | background =>
      refine hzero (.last fun _ => .last fun _ => .last fun _ => .last fun _ s a t _ ht => ?_)
      cases ht
      rfl
  | function =>
      refine hzero fun s a t _ ht => ?_
      cases ht
      rfl
  | @ifThen cond yes no hyes hno =>
      have hcond := Promise.Kept.leads (Promise.kept_condition (Discipline.runBlock hpromise cond))
      have hsplit {no : Run Unit} (hno : Leads Free no fun _ => Calm) : Leads Free (do
          asCondition (runBlock E cond)
          if (← shell).status == 0 then runBlock E yes else no) fun _ => Calm := by
        refine hcond.bind fun _ => leads_shell.bind fun s => ?_
        split
        · rename_i hstatus
          refine (leads_runStmts hpromise hlaw hbetween hyes).mono fun u hu => ⟨hu.2, fun _ => ?_⟩
          rw [← hu.1]
          exact eq_of_beq hstatus
        · exact hno.mono fun u hu => hu.2
      cases no with
      | none => exact hsplit leads_setStatus_zero
      | some b => exact hsplit (leads_settledBlock hpromise hlaw hbetween (hno b rfl))
  | @loop untilTrue cond body hbody =>
      exact leads_inLoop (leads_settledWhile hpromise hlaw hbetween hexit hbody untilTrue _ (.inr rfl))
  | @forIn name inParams items body hbody =>
      refine (hquiet (Agreement.loopItems hpromise.expands inParams items)).bind fun xs => leads_inLoop ?_
      exact leads_setStatus_zero.bind fun _ => leads_forLoop hpromise hlaw hbetween hexit name hbody xs
  | @forArith start cond post body hbody =>
      refine (hquiet (Agreement.arithOpt hpromise.expands start)).bind fun _ => leads_inLoop ?_
      exact leads_setStatus_zero.bind fun _ => leads_settledArith hpromise hlaw hbetween hexit cond post hbody _
  | @select name inParams items body hbody =>
      refine (hquiet (Agreement.loopItems hpromise.expands inParams items)).bind fun xs => leads_inLoop ?_
      refine leads_shell.bind fun s => Leads.mono (fun _ hs => hs.2) ((plain_write _ _).leads.bind fun _ => ?_)
      exact leads_settledSelect hpromise hlaw hbetween hexit name xs hbody _
  | @caseOf word arms harms =>
      refine (hquiet (Agreement.literal hpromise.expands word)).bind fun text => ?_
      exact leads_setStatus_zero.bind fun _ => leads_settledArms hpromise hlaw hbetween text false harms
  | group hbody => exact leads_settledBlock hpromise hlaw hbetween hbody
  | redirected hst => exact leads_redirected hpromise (hlaw _ hst) _

end Lists

theorem settled_between (program : Program) (compiles : Bool) (rounds n : Nat) :
    Leads Calm (Layer.settled.engine program compiles rounds n).between fun _ => Calm := by
  cases n with
  | zero => exact leads_pure ()
  | succ n => exact leads_settledSignals (settled_promise program compiles rounds n)

theorem settled_leads (program : Program) (compiles : Bool) (rounds n : Nat) {st : Stmt} (hst : Direct st) :
    Leads Free ((Layer.settled.engine program compiles rounds n).stmt st) fun _ => Calm := by
  induction n generalizing st with
  | zero => exact leads_exhausted
  | succ n ih =>
      have hkept := (settled_promise program compiles rounds (n + 1)).stmt
      have hpromise := settled_promise program compiles rounds n
      exact leads_settledStmt hpromise (fun _ => ih) (settled_between program compiles rounds n)
        (settled_loopExit program compiles rounds n) hkept hst

-- With `errexit` on, a statement that ends without a signal has succeeded, whatever traps there are and whatever signals
-- come, unless on the way one of these failures was passed over: a redirection of a compound command, a substitution in a
-- pattern or in the head of an arithmetic loop, the end of the input of a `select`, the status of a `while` loop whose
-- last round was empty or ran without `errexit`, a status from before an empty list, or one from before the trap of a
-- signal that turned `errexit` on. The other engine gives up just there.
theorem stmt_heeds_errexit (program : Program) (compiles : Bool) (rounds depth : Nat) (st : Stmt) (hst : Direct st)
    (s t : State) (hfree : s.shell.conditions = 0)
    (hrun : (alertEngine program compiles rounds depth).stmt st s = .ok () t)
    (herrexit : t.shell.options.errexit = true) :
    t.shell.status = 0 ∨ givesUp ((Layer.settled.engine program compiles rounds depth).stmt st s) = true := by
  rcases (settled_approximation program compiles rounds depth).stmt st s with ⟨u, hu⟩ | heq
  · exact .inr (congrArg givesUp hu)
  · have hcalm := settled_leads program compiles rounds depth hst s () t hfree (heq.trans hrun)
    exact .inl (hcalm.settled herrexit)

theorem eq_ok_of_signalOf {r : EStateM.Result Signal State Unit} (h : signalOf r = none) : r = .ok () (stateOf r) := by
  cases r with
  | ok u t => rfl
  | error e t => cases h

-- `{ :; } > /f`.
theorem group_heeds_errexit :
    let program : Program := { name := "", main := default }
    let colon : Stmt := .call {} [] [⟨[.lit ":" false]⟩] [] none none
    let st : Stmt := .redirected (.group ⟨"", [colon]⟩) [⟨none, .output, ⟨[.lit "/f" false]⟩⟩]
    let s : State := { shell := { options := { errexit := true } } }
    (stateOf ((alertEngine program false 1 6).stmt st s)).shell.status = 0 := by
  intro program colon st s
  have hst : Direct st := .redirected (.group fun x hx => List.mem_singleton.mp hx ▸ .call)
  have hrun := eq_ok_of_signalOf (r := (alertEngine program false 1 6).stmt st s) (by decide +kernel)
  exact (stmt_heeds_errexit program false 1 6 st hst s _ rfl hrun (by decide +kernel)).resolve_right (by decide +kernel)

-- `{ set +e; false; }`, where at last a signal comes whose trap is `set -e`.
example :
    let program : Program := { name := "", main := default }
    let call (words : List String) : Stmt := .call {} [] (words.map fun w => ⟨[.lit w false]⟩) [] none none
    let st : Stmt := .group ⟨"", [call ["set", "+e"], call ["false"]]⟩
    let s : State :=
      { world := { arrivals := [none, some .term] }
        shell := { options := { errexit := true }, traps := [("TERM", "set -e")] } }
    let r := (alertEngine program true 1 7).stmt st s
    signalOf r = none ∧ (stateOf r).shell.options.errexit = true ∧ (stateOf r).shell.status = 1 ∧
      givesUp ((Layer.settled.engine program true 1 7).stmt st s) = true := by
  decide +kernel

-- `{ :; } < /f`, where there is no such file.
theorem failed_redirection_passes :
    let program : Program := { name := "", main := default }
    let colon : Stmt := .call {} [] [⟨[.lit ":" false]⟩] [] none none
    let st : Stmt := .redirected (.group ⟨"", [colon]⟩) [⟨none, .input, ⟨[.lit "/f" false]⟩⟩]
    let s : State := { shell := { options := { errexit := true } } }
    let r := (alertEngine program false 1 6).stmt st s
    Direct st ∧ s.shell.conditions = 0 ∧ signalOf r = none ∧ (stateOf r).shell.options.errexit = true ∧
      (stateOf r).shell.status = 1 :=
  ⟨.redirected (.group fun x hx => List.mem_singleton.mp hx ▸ .call), by decide +kernel⟩

end Machine
end ShellScript

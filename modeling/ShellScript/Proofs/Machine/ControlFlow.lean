import ShellScript.Proofs.Machine.ReadOnly

-- However a statement ends, everything that was opened on the way is closed again.
namespace ShellScript
namespace Machine

open Program (Stmt Word)
open Run

-- The engine that gives up at an `exec` without a command.
def Variant.noExec : Variant where
  bare _ _ := throw (.stopped .bound)
  check := Variant.real.check

-- What surrounds a statement is there after it, too. A scope is known by what is read-only in it.
structure Shell.Restored (s t : Shell) : Prop where
  scopes : s.env.Protects t.env
  depth : t.env.depth = s.env.depth
  conditions : t.conditions = s.conditions
  loops : t.loops = s.loops
  calls : t.calls = s.calls
  sources : t.sources = s.sources

namespace Promise

variable {p : Promise} {l : Level} {α β : Type}

theorem Kept.keeps {s : State} {r : EStateM.Result Signal State α} (h : p.Kept l s r) :
    p.Keeps l s.shell (stateOf r).shell := by
  cases r with
  | ok a t => exact h
  | error e t => exact h.1

theorem Keeps.restored {s t : Shell} (h : p.Keeps l s t) (hscopes : s.env.Protects t.env) : s.Restored t :=
  ⟨hscopes, h.depth, h.conditions, h.loops, h.calls, h.sources⟩

end Promise

-- What the engines promise.

-- The `while` loops of the real engine: a condition counts as a body does.
theorem Promise.kept_check {p : Promise} (hp : ¬p.contained) {E E' : Engine} (h : (Discipline.promise p).Follows E E')
    (cond : Program.Block) (s : State) : p.Kept .loop s (Variant.real.check E cond s) :=
  Kept.loop_of_flow hp (kept_condition (Discipline.runBlock h cond) s)

theorem engine_promise (program : Program) (compiles : Bool) (rounds depth : Nat) :
    (Discipline.promise ⟨False, False⟩).Follows (engine program compiles rounds depth)
      (engine program compiles rounds depth) := by
  rw [← Variant.engine_real]
  refine Discipline.follows (Discipline.admits_promise _) (fun h redirs => ?_) (fun h cond => ?_)
    program compiles rounds depth
  · exact Promise.kept_tryRedirs h.expands id redirs (Promise.Kept.of_plain (plain_setStatus 0))
  · exact Promise.kept_check id h cond

theorem noExec_promise (program : Program) (compiles : Bool) (rounds depth : Nat) :
    (Discipline.promise ⟨True, False⟩).Follows (Variant.noExec.engine program compiles rounds depth)
      (Variant.noExec.engine program compiles rounds depth) := by
  refine Discipline.follows (Discipline.admits_promise _) (fun h redirs => ?_) (fun h cond => ?_)
    program compiles rounds depth
  · exact Agreement.exhausted _
  · exact Promise.kept_check id h cond

-- Up to where it gives up, the engine without bare `exec` is the real one.
theorem noExec_approximates (program : Program) (compiles : Bool) (rounds depth : Nat) (st : Stmt) :
    Approximates ((Variant.noExec.engine program compiles rounds depth).stmt st)
      ((engine program compiles rounds depth).stmt st) := by
  have hfollows : Discipline.approximation.Follows (Variant.noExec.engine program compiles rounds depth)
      (Variant.real.engine program compiles rounds depth) := by
    refine Discipline.follows Discipline.admits_approximation (fun _ redirs => ?_) (fun h cond => ?_)
      program compiles rounds depth
    · exact .giveUp _
    · exact Discipline.approximation.condition (Discipline.runBlock h cond)
  rw [Variant.engine_real] at hfollows
  exact hfollows.stmt st

-- Parameters.

def KeepsParams {α : Type} (m : Run α) : Prop := ∀ s, (stateOf (m s)).shell.params = s.shell.params

namespace KeepsParams

variable {α β : Type} {m : Run α}

theorem bind {k : α → Run β} (hm : KeepsParams m) (hk : ∀ a, KeepsParams (k a)) : KeepsParams (m >>= k) := by
  intro s
  have hs := hm s
  cases hr : m s with
  | ok a t =>
      rw [hr] at hs
      rw [bind_of_ok hr, hk a t]
      exact hs
  | error e t =>
      rw [hr] at hs
      rw [bind_of_error hr]
      exact hs

theorem of_quiet {p : Promise} (h : ∀ s, p.Kept .quiet s (m s)) : KeepsParams m := fun s => ((h s).keeps.settings rfl).1

theorem of_plain (h : Plain m) : KeepsParams m := of_quiet (p := ⟨False, False⟩) (Promise.Kept.of_plain h)

theorem within (change : Shell → Shell) {restore : Shell → Shell → Shell}
    (hrestore : ∀ s t, (restore s t).params = s.params) : KeepsParams (within change restore m) := by
  intro s
  rw [within_apply, Run.ensuring]
  cases m { s with shell := change s.shell } with
  | ok a t => exact hrestore s.shell t.shell
  | error e t => exact hrestore s.shell t.shell

end KeepsParams

theorem keepsParams_callFunction (E : Engine) (body : Stmt) (name : String) (args : List String) :
    KeepsParams (callFunction E body name args) := by
  have hcall (u : Unit) : KeepsParams (inCall args (E.stmt body)) := KeepsParams.within _ fun _ _ => rfl
  refine (KeepsParams.of_plain plain_shell).bind fun s => ?_
  dsimp only
  split
  · exact (KeepsParams.of_plain (plain_fail _)).bind hcall
  · exact hcall ()

theorem keepsParams_source (E : Engine) (name file : String) {args : List String} (hargs : args ≠ []) :
    KeepsParams (Command.source E name (file :: args)) := by
  refine (KeepsParams.of_plain plain_shell).bind fun s => ?_
  rw [if_neg (by simpa using hargs)]
  exact KeepsParams.within _ fun _ _ => rfl

theorem keepsParams_sourceUnit (program : Program) (compiles : Bool) (rounds depth : Nat) (unit : String)
    {args : List Word} (hargs : args ≠ []) :
    KeepsParams (sourceUnit (engine program compiles rounds depth) unit args) := by
  unfold sourceUnit
  split
  · exact .of_plain (plain_complainWith _ _)
  · rw [if_neg (by simpa using hargs)]
    refine KeepsParams.bind ?_ fun fs => KeepsParams.within _ fun _ _ => rfl
    exact .of_quiet (Agreement.fields (engine_promise program compiles rounds depth).expands args)

-- No `exec` without a command is reached: the engine that gives up there takes the same way to the same end.
def ExecFree (program : Program) (compiles : Bool) (rounds depth : Nat) (st : Stmt) (s : State) : Prop :=
  (Variant.noExec.engine program compiles rounds depth).stmt st s = (engine program compiles rounds depth).stmt st s

-- One run of that engine tells.
theorem ExecFree.of_run {program : Program} {compiles : Bool} {rounds depth : Nat} {st : Stmt} {s : State}
    (h : givesUp ((Variant.noExec.engine program compiles rounds depth).stmt st s) = false) :
    ExecFree program compiles rounds depth st s := by
  rcases noExec_approximates program compiles rounds depth st s with ⟨t, ht⟩ | heq
  · rw [ht] at h
    exact absurd h (by simp [givesUp])
  · exact heq

-- Scopes.

-- A shell in the scope of a function.
def State.called (s : State) (args : List String) : State :=
  { s with shell := { s.shell with params := args, loops := 0, env := s.shell.env.push, calls := s.shell.calls + 1 } }

-- A shell in the scope of the variables in front of a command.
def State.prefixed (s : State) (values : List (String × String)) : State :=
  { s with shell := { s.shell with env := withValues values s.shell.env.push } }

-- What can stand behind such variables.
inductive Prefixable (E : Engine) : Run Unit → Prop
  | function (body : Stmt) (name : String) (args : List String) : Prefixable E (callFunction E body name args)
  | builtin (b : Builtin) (name : String) (args : List String) : Prefixable E (runBuiltin E b name args)

theorem Env.Protects.all_pop {scope : Scope} {e e' : Env} (h : Env.Protects ⟨scope, e.all⟩ e') :
    e'.pop.all = e'.outer := by
  obtain ⟨t, ts⟩ := e'
  cases h with
  | cons _ hrest =>
      cases ts with
      | nil => cases hrest
      | cons u us => rfl

theorem env_catchReturn (m : Run Unit) (s : State) :
    (stateOf (catchReturn m s)).shell.env = (stateOf (m s)).shell.env := by
  unfold catchReturn
  cases m s with
  | ok a t => rfl
  | error e t => cases e <;> rfl

-- When a scope is left, the ones under it are what they were made meanwhile.
theorem all_within {m : Run Unit} {s : State} {change : Shell → Shell} {restore : Shell → Shell → Shell}
    (hopen : ∃ scope, (change s.shell).env = ⟨scope, s.shell.env.all⟩)
    (hrestore : ∀ s t, (restore s t).env = t.env.pop)
    (hm : (change s.shell).env.Protects (stateOf (m { s with shell := change s.shell })).shell.env) :
    (stateOf (within change restore m s)).shell.env.all =
      (stateOf (m { s with shell := change s.shell })).shell.env.outer := by
  obtain ⟨scope, hscope⟩ := hopen
  rw [hscope] at hm
  rw [within_apply, ensuring]
  cases hr : m { s with shell := change s.shell } <;>
    · rw [hr] at hm
      exact (congrArg Env.all (hrestore _ _)).trans hm.all_pop

section Scopes

variable {E : Engine} (h : (Discipline.guarded False).Follows E E)

include h

theorem all_callFunction {s : State} (hcalls : s.shell.calls < maxCalls) (body : Stmt) (name : String)
    (args : List String) : (stateOf (callFunction E body name args s)).shell.env.all =
      (stateOf (E.stmt body (s.called args))).shell.env.outer := by
  have heq : callFunction E body name args s = inCall args (E.stmt body) s := by
    rw [callFunction, shell_bind]
    simp only [ge_iff_le, Nat.not_le.mpr hcalls, if_false]
    rfl
  rw [heq, inCall, all_within ⟨[], rfl⟩ (fun _ _ => rfl), env_catchReturn]
  · rfl
  · rw [env_catchReturn]
    exact (h.stmt body (s.called args)).env

theorem Prefixable.protects {m : Run Unit} (hm : Prefixable E m) (s : State) :
    s.shell.env.Protects (stateOf (m s)).shell.env := by
  cases hm with
  | function body name args => exact (Discipline.callFunction h body name args s).env
  | builtin b name args => exact (Discipline.admits_guarded.runBuiltin h b name args s).env

theorem all_prefixed {assigns : List Program.Assign} (hassigns : assigns ≠ []) {s t : State}
    {values : List (String × String)} (hvalues : literals E assigns s = .ok values t) {m : Run Unit}
    (hm : Prefixable E m) : (stateOf (prefixed E assigns m s)).shell.env.all =
      (stateOf (m (t.prefixed values))).shell.env.outer := by
  have heq : prefixed E assigns m s = inScope (withValues values) m t := by
    rw [prefixed, if_neg (by simpa using hassigns), bind_of_ok hvalues]
    rfl
  rw [heq, inScope, all_within (withValues_push values t.shell.env) fun _ _ => rfl]
  · rfl
  · exact hm.protects h (t.prefixed values)

end Scopes

-- However a statement ends, what surrounds it is restored, streams included unless an `exec` changes them for good. The
-- parameters are restored by what replaces them. A function and the variables in front of a command have a scope of
-- their own; when that is left, the scopes are those under it, just as they were made meanwhile.
theorem stmt_restores (program : Program) (compiles : Bool) (rounds depth : Nat) (st : Stmt) (s : State) :
    let E := engine program compiles rounds depth
    let t := stateOf (E.stmt st s)
    s.shell.Restored t.shell ∧
    (ExecFree program compiles rounds depth st s → t.shell.streams = s.shell.streams) ∧
    (∀ body name args, (stateOf (callFunction E body name args s)).shell.params = s.shell.params) ∧
    (∀ unit args, args ≠ [] → (stateOf (sourceUnit E unit args s)).shell.params = s.shell.params) ∧
    (∀ name file args, args ≠ [] → (stateOf (Command.source E name (file :: args) s)).shell.params = s.shell.params) ∧
    (∀ body name args, s.shell.calls < maxCalls → (stateOf (callFunction E body name args s)).shell.env.all =
      (stateOf (E.stmt body (s.called args))).shell.env.outer) ∧
    (∀ assigns values u m, assigns ≠ [] → literals E assigns s = .ok values u → Prefixable E m →
      (stateOf (prefixed E assigns m s)).shell.env.all = (stateOf (m (u.prefixed values))).shell.env.outer) := by
  intro E t
  have hguarded := engine_guarded program compiles rounds depth
  refine ⟨?_, fun hfree => ?_, fun body name args => ?_, fun unit args hargs => ?_, fun name file args hargs => ?_,
    fun body name args hcalls => ?_, fun assigns values u m hassigns hvalues hm => ?_⟩
  · have hkeeps := ((engine_promise program compiles rounds depth).stmt st s).keeps
    exact hkeeps.restored (hguarded.stmt st s).env
  · have hkeeps := ((noExec_promise program compiles rounds depth).stmt st s).keeps
    rw [hfree] at hkeeps
    exact hkeeps.streams trivial
  · exact keepsParams_callFunction E body name args s
  · exact keepsParams_sourceUnit program compiles rounds depth unit hargs s
  · exact keepsParams_source E name file hargs s
  · exact all_callFunction hguarded hcalls body name args
  · exact all_prefixed hguarded hassigns hvalues hm

-- A command whose output goes to a file, and a function that writes a variable of its caller.
theorem stmt_restores_redirected :
    let program : Program := { name := "", main := default }
    let E := engine program false 1 5
    let st : Stmt := .call {} [] [⟨[.lit ":" false]⟩] [⟨none, .output, ⟨[.lit "/f" false]⟩⟩] none none
    let body : Stmt := .call {} [⟨"x", none, false, some ⟨[.lit "2" false]⟩, none⟩] [] [] none none
    let s : State := { shell := { env := ⟨[("x", { value := "1" })], [[("y", {})]]⟩ } }
    (stateOf (E.stmt st {})).shell.streams = {} ∧
      (stateOf (callFunction E body "f" [] s)).shell.env.all = [[("x", { value := "2" })], [("y", {})]] := by
  intro program E st body s
  refine ⟨(stmt_restores program false 1 5 st {}).2.1 (.of_run (by decide +kernel)), ?_⟩
  obtain ⟨-, -, -, -, -, hcall, -⟩ := stmt_restores program false 1 5 st s
  exact (hcall body "f" [] (by decide)).trans (by decide +kernel)

end Machine
end ShellScript

-- Where `break`, `continue` and `return` may go. A loop takes its share of a signal that leaves its body, but not of
-- one that leaves its condition: that is the only way out of all loops.
namespace ShellScript
namespace Machine

open Program (Stmt Block)
open Run

-- A signal that counts fewer loops than there are, or the end.
def Signal.below (loops : Nat) : Signal → Signal
  | .loop n next => if n < loops then .loop n next else .stopped .bound
  | e => e

-- Gives up where a signal counts all loops around, the innermost one included.
def strict {α : Type} (m : Run α) : Run α := fun s =>
  match m s with
  | .ok a t => .ok a t
  | .error e t => .error (e.below s.shell.loops) t

-- The engine that gives up where the condition of a `while` loop is left in such a way.
def Variant.watched : Variant where
  bare := Variant.real.bare
  check E cond := strict (Variant.real.check E cond)

-- A signal that ends at least one loop and no more than there are, or a function or a sourced file.
def Signal.Contained (s : Shell) : Signal → Prop
  | .loop n _ => 1 ≤ n ∧ n ≤ s.loops
  | .return_ _ => 0 < s.calls + s.sources
  | _ => True

instance (s : Shell) : (e : Signal) → Decidable (e.Contained s)
  | .loop n _ => inferInstanceAs (Decidable (1 ≤ n ∧ n ≤ s.loops))
  | .return_ _ => inferInstanceAs (Decidable (0 < s.calls + s.sources))
  | .exit _ => .isTrue trivial
  | .fail _ => .isTrue trivial
  | .stopped _ => .isTrue trivial

-- Gives up where a signal is not contained.
def audit (m : Run Unit) : Run Unit := fun s =>
  match m s with
  | .ok a t => .ok a t
  | .error e t => .error (if e.Contained s.shell then e else .stopped .bound) t

-- The engine that does so after every statement.
def auditedEngine (program : Program) (compiles : Bool) (rounds : Nat) : Nat → Engine
  | 0 => engine program compiles rounds 0
  | n + 1 =>
    let E := auditedEngine program compiles rounds n
    { Variant.real.above E with stmt := fun st => audit (runStmt E st) }

-- Giving up in a condition is giving up in the loop.

section Strict

variable {α β : Type} {m : Run α}

theorem strict_of_ok {s t : State} {a : α} (h : m s = .ok a t) : strict m s = .ok a t := by
  rw [strict, h]

theorem strict_of_error {s t : State} {e : Signal} (h : m s = .error e t) :
    strict m s = .error (e.below s.shell.loops) t := by
  rw [strict, h]

theorem strict_eq_self (h : ∀ s, (⟨False, True⟩ : Promise).Kept .loop s (m s)) : strict m = m := by
  funext s
  have hs := h s
  cases hr : m s with
  | ok a t => rw [strict_of_ok hr]
  | error e t =>
      rw [hr] at hs
      rw [strict_of_error hr]
      cases e with
      | loop n next =>
          have hn : n < s.shell.loops := hs.2.2 trivial
          rw [Signal.below, if_pos hn]
      | _ => rfl

theorem strict_plain (h : Plain m) : strict m = m := strict_eq_self (Promise.Kept.of_plain h)

theorem strict_bind {k : α → Run β} {p : Promise} {l : Level} (hm : ∀ s, p.Kept l s (m s)) :
    strict (m >>= k) = strict m >>= fun a => strict (k a) := by
  funext s
  have hs := hm s
  cases hr : m s with
  | ok a t =>
      rw [hr] at hs
      have hloops : t.shell.loops = s.shell.loops := Promise.Keeps.loops hs
      rw [bind_of_ok (strict_of_ok hr), strict, strict, bind_of_ok hr, hloops]
  | error e t => rw [bind_of_error (strict_of_error hr), strict_of_error (bind_of_error hr k)]

-- The rounds are held to this already, so that only the conditions are left.
theorem strict_whileOn {check : Run Unit} {round : Run Bool}
    (hcheck : ∀ s, (⟨False, True⟩ : Promise).Kept .flow s (check s))
    (hround : ∀ s, (⟨False, True⟩ : Promise).Kept .loop s (round s)) (untilTrue : Bool) (n : Nat) (status : Int) :
    strict (whileOn check round untilTrue n status) = whileOn (strict check) round untilTrue n status := by
  have hshell {β : Type} (k : Shell → Run β) : strict (shell >>= k) = shell >>= fun s => strict (k s) := by
    rw [strict_bind (p := ⟨False, True⟩) (l := .loop) (Promise.Kept.of_plain plain_shell), strict_plain plain_shell]
  induction n generalizing status with
  | zero => rfl
  | succ n ih =>
      rw [whileOn, whileOn, strict_bind hcheck]
      congr 1
      funext _
      rw [hshell]
      congr 1
      funext s
      split
      · exact strict_plain (plain_setStatus status)
      · rw [strict_bind hround, strict_eq_self hround]
        congr 1
        funext done
        split
        · exact strict_plain (plain_pure ())
        · rw [hshell]
          congr 1
          funext t
          exact ih t.status

end Strict

-- Auditing.

theorem audit_eq_self {m : Run Unit} (h : ∀ s, (⟨False, True⟩ : Promise).Kept .flow s (m s)) : audit m = m := by
  funext s
  have hs := h s
  unfold audit
  cases hr : m s with
  | ok a t => rfl
  | error e t =>
      rw [hr] at hs
      have hcontained : e.Contained s.shell := by
        cases e with
        | loop n next => exact ⟨hs.2.1, hs.2.2 trivial⟩
        | return_ c => exact hs.2
        | _ => trivial
      simp only [hcontained, if_true]

-- A signal is too much outside of a loop just when it counts all loops inside of it.
theorem audit_inLoop {m : Run Unit} (h : ∀ s, (⟨False, False⟩ : Promise).Kept .loop s (m s)) :
    audit (inLoop m) = inLoop (strict m) := by
  funext s
  have hs := h { s with shell := { s.shell with loops := s.shell.loops + 1 } }
  have heq : ∀ m : Run Unit, inLoop m s = ensuring m
    (fun t => { t with shell := { t.shell with loops := s.shell.loops } })
    { s with shell := { s.shell with loops := s.shell.loops + 1 } } := fun _ => rfl
  rw [audit, heq, heq, ensuring, ensuring, strict]
  cases hr : m { s with shell := { s.shell with loops := s.shell.loops + 1 } } with
  | ok a t => rfl
  | error e t =>
      rw [hr] at hs
      cases e with
      | loop n next =>
          have hone : 1 ≤ n := hs.2.1
          simp only [Signal.Contained, Signal.below, hone, true_and, Nat.lt_succ_iff]
      | return_ c =>
          have hin : 0 < s.shell.calls + s.shell.sources := hs.2
          simp only [Signal.Contained, Signal.below, hin, if_true]
      | exit c => rfl
      | fail f => rfl
      | stopped why => rfl

theorem Promise.Kept.forgetCounts {α : Type} {l : Level} {s : State} {r : EStateM.Result Signal State α}
    (h : (⟨False, True⟩ : Promise).Kept l s r) : (⟨False, False⟩ : Promise).Kept l s r := by
  cases r with
  | ok a t => exact { h with }
  | error e t =>
      refine ⟨{ h.1 with }, ?_⟩
      have he := h.2
      cases l <;> cases e <;> first | exact he | exact ⟨he.1, False.elim⟩

theorem kept_strict {m : Run Unit} (hm : ∀ s, (⟨False, True⟩ : Promise).Kept .flow s (m s)) (s : State) :
    (⟨False, True⟩ : Promise).Kept .loop s (strict m s) := by
  have hs := hm s
  cases hr : m s with
  | ok a t =>
      rw [hr] at hs
      rw [strict_of_ok hr]
      exact { hs with settings := nofun }
  | error e t =>
      rw [hr] at hs
      rw [strict_of_error hr]
      refine ⟨{ hs.1 with settings := nofun }, ?_⟩
      cases e with
      | loop n next =>
          by_cases hn : n < s.shell.loops
          · rw [Signal.below, if_pos hn]
            exact ⟨hs.2.1, fun _ => hn⟩
          · rw [Signal.below, if_neg hn]
            trivial
      | _ => exact hs.2

-- With this, nothing gets out.
theorem watched_promise (program : Program) (compiles : Bool) (rounds depth : Nat) :
    (Discipline.promise ⟨False, True⟩).Follows (Variant.watched.engine program compiles rounds depth)
      (Variant.watched.engine program compiles rounds depth) := by
  refine Discipline.follows (Discipline.admits_promise _) (fun h redirs => ?_) (fun h cond => ?_)
    program compiles rounds depth
  · exact Promise.kept_tryRedirs h.expands id redirs (Promise.Kept.of_plain (plain_setStatus 0))
  · exact kept_strict (Promise.kept_condition (Discipline.runBlock h cond))

theorem strict_approximates {m m' : Run Unit} (hm : Approximates m m') : Approximates (strict m) m' := by
  intro s
  rcases hm s with ⟨t, ht⟩ | heq
  · exact .inl ⟨t, strict_of_error ht⟩
  · rw [← heq]
    cases hr : m s with
    | ok a t => exact .inr (strict_of_ok hr)
    | error e t =>
        rw [strict_of_error hr]
        cases e with
        | loop n next =>
            by_cases hn : n < s.shell.loops
            · rw [Signal.below, if_pos hn]
              exact .inr rfl
            · rw [Signal.below, if_neg hn]
              exact .inl ⟨t, rfl⟩
        | _ => exact .inr rfl

theorem watched_approximates (program : Program) (compiles : Bool) (rounds depth : Nat) (st : Stmt) :
    Approximates ((Variant.watched.engine program compiles rounds depth).stmt st)
      ((engine program compiles rounds depth).stmt st) := by
  have hfollows : Discipline.approximation.Follows (Variant.watched.engine program compiles rounds depth)
      (Variant.real.engine program compiles rounds depth) := by
    refine Discipline.follows Discipline.admits_approximation (fun h redirs => ?_) (fun h cond => ?_)
      program compiles rounds depth
    · exact Congruence.tryRedirs (C := .approximation) (.applyRedirs h.expands redirs) (.refl _)
    · exact strict_approximates (Discipline.approximation.condition (Discipline.runBlock h cond))
  rw [Variant.engine_real] at hfollows
  exact hfollows.stmt st

-- Looking at the conditions of `while` loops finds exactly what looking at every statement does.
theorem audit_runStmt {E : Engine} (h : (Discipline.promise ⟨False, True⟩).Follows E E) (st : Stmt) :
    audit (runStmt E st) = Variant.watched.run E st := by
  have hbare (redirs : List Program.Redir) (s : State) :
      (⟨False, True⟩ : Promise).Kept .flow s (Variant.watched.bare E redirs s) :=
    Promise.kept_tryRedirs h.expands id redirs (Promise.Kept.of_plain (plain_setStatus 0)) s
  have hcond (cond : Block) (s : State) :
      (⟨False, True⟩ : Promise).Kept .flow s (asCondition (runBlock E cond) s) :=
    Promise.kept_condition (Discipline.runBlock h cond) s
  have hrun : (Discipline.promise ⟨False, True⟩).flow.rel (Variant.watched.run E st) (Variant.watched.run E st) :=
    Discipline.run h (Discipline.admits_promise _) hbare (fun cond => kept_strict (hcond cond)) st
  cases st with
  | loop untilTrue cond body =>
      have hround := Discipline.loopBody h body
      have hwhile : (Discipline.promise ⟨False, False⟩).loop.rel
          (whileOn (asCondition (runBlock E cond)) (loopBody E body) untilTrue E.rounds 0)
          (whileOn (asCondition (runBlock E cond)) (loopBody E body) untilTrue E.rounds 0) := by
        refine Discipline.whileOn (fun s => ?_) (fun s => ?_) untilTrue _ 0
        · exact (hcond cond s).forgetCounts.loop_of_flow id
        · exact (hround s).forgetCounts
      rw [runStmt, whileLoop_eq, audit_inLoop hwhile, strict_whileOn (hcond cond) hround]
      rfl
  | _ => exact audit_eq_self hrun

theorem auditedEngine_eq (program : Program) (compiles : Bool) (rounds depth : Nat) :
    auditedEngine program compiles rounds depth = Variant.watched.engine program compiles rounds depth := by
  induction depth with
  | zero => rfl
  | succ n ih =>
      rw [auditedEngine, ih, Variant.engine, Variant.above, Variant.above]
      rw [funext (audit_runStmt (watched_promise program compiles rounds n))]

-- A `break` or `continue` ends at least one loop, and a `return` has something to return from. No more loops are ended
-- than there are, unless the condition of a `while` loop was left by a signal that counts all of them; and that is the
-- exact reason: an audit of every statement stops just there.
theorem stmt_contained (program : Program) (compiles : Bool) (rounds depth : Nat) :
    let E := engine program compiles rounds depth
    let W := Variant.watched.engine program compiles rounds depth
    auditedEngine program compiles rounds depth = W ∧
    ∀ st s,
      (∀ n next t, E.stmt st s = .error (.loop n next) t → 1 ≤ n ∧ (n ≤ s.shell.loops ∨ givesUp (W.stmt st s) = true)) ∧
      (∀ c t, E.stmt st s = .error (.return_ c) t → 0 < s.shell.calls + s.shell.sources) ∧
      (s.shell.loops = 0 → s.shell.calls = 0 → s.shell.sources = 0 → givesUp (W.stmt st s) = false →
        (∃ t, E.stmt st s = .ok () t ∧ ∀ rest, runStmts E (st :: rest) s = runStmts E rest t) ∨
        (∃ c t, E.stmt st s = .error (.exit c) t) ∨ ∃ f t, E.stmt st s = .error (.fail f) t) := by
  intro E W
  refine ⟨auditedEngine_eq program compiles rounds depth, fun st s => ?_⟩
  have hkept := (engine_promise program compiles rounds depth).stmt st s
  have hloop (n : Nat) (next : Bool) (t : State) (hr : E.stmt st s = .error (.loop n next) t) :
      1 ≤ n ∧ (n ≤ s.shell.loops ∨ givesUp (W.stmt st s) = true) := by
    refine ⟨?_, ?_⟩
    · rw [hr] at hkept
      exact hkept.2.1
    · rcases watched_approximates program compiles rounds depth st s with ⟨u, hu⟩ | heq
      · exact .inr (congrArg givesUp hu)
      · have hwatched := (watched_promise program compiles rounds depth).stmt st s
        rw [heq, hr] at hwatched
        exact .inl (hwatched.2.2 trivial)
  have hreturn (c : Int) (t : State) (hr : E.stmt st s = .error (.return_ c) t) :
      0 < s.shell.calls + s.shell.sources := by
    rw [hr] at hkept
    exact hkept.2
  refine ⟨hloop, hreturn, fun hloops hcalls hsources hends => ?_⟩
  cases hr : E.stmt st s with
  | ok a t =>
      have hrecover : recovering E (E.stmt st) s = .ok () t := by rw [recovering, hr]
      refine .inl ⟨t, rfl, fun rest => ?_⟩
      rw [runStmts_cons]
      exact bind_of_ok hrecover fun _ => runStmts E rest
  | error e t =>
      cases e with
      | exit c => exact .inr (.inl ⟨c, t, rfl⟩)
      | fail f => exact .inr (.inr ⟨f, t, rfl⟩)
      | return_ c =>
          have hin := hreturn c t hr
          omega
      | loop n next =>
          obtain ⟨hone, hle | hup⟩ := hloop n next t hr
          · omega
          · rw [hends] at hup
            cases hup
      | stopped why =>
          rcases watched_approximates program compiles rounds depth st s with ⟨u, hu⟩ | heq
          · rw [hu] at hends
            cases hends
          · rw [heq, hr] at hends
            cases hends

def signalOf {α : Type} : EStateM.Result Signal State α → Option Signal
  | .ok _ _ => none
  | .error e _ => some e

-- `while break; do :; done` outside of every loop.
theorem while_break_escapes :
    let program : Program := { name := "", main := default }
    let cond : Stmt := .call {} [] [⟨[.lit "break" false]⟩] [] none none
    let body : Stmt := .call {} [] [⟨[.lit ":" false]⟩] [] none none
    signalOf ((engine program false 1 5).stmt (.loop false ⟨"", [cond]⟩ ⟨"", [body]⟩) {}) = some (.loop 1 false) ∧
      ¬(Signal.loop 1 false).Contained {} := by
  decide +kernel

end Machine
end ShellScript

-- `break` and `continue` leave everything on their way to the loop with the status that they have set.
namespace ShellScript
namespace Machine

open Program (Stmt Block Redir)
open Run

-- The state in which a computation is left by `break` or `continue`.
def LeavesLoop (ok : State → Prop) {α : Type} (m : Run α) : Prop :=
  ∀ s n next t, m s = .error (.loop n next) t → ok t

namespace LeavesLoop

variable {ok : State → Prop} {α β : Type} {m : Run α}

theorem mono {ok' : State → Prop} (hok : ∀ t, ok t → ok' t) (hm : LeavesLoop ok m) : LeavesLoop ok' m :=
  fun s n next t ht => hok t (hm s n next t ht)

theorem of_stays {rel : State → State → Prop} (h : ∀ s, Stays rel s (m s)) : LeavesLoop ok m := by
  intro s n next t ht
  have hs := h s
  rw [ht] at hs
  exact hs.elim

theorem throw {e : Signal} (he : ∀ n next, e ≠ .loop n next) : LeavesLoop ok (throw e : Run α) := by
  intro s n next t ht
  cases ht
  exact absurd rfl (he n next)

theorem handled {k : α → Run β} {h : Signal → Run β} (hk : ∀ a, LeavesLoop ok (k a))
    (hh : ∀ s e t, m s = .error e t → ∀ n next u, h e t = .error (.loop n next) u → ok u) :
    LeavesLoop ok (handled m k h) := by
  intro s n next t ht
  cases hr : m s with
  | ok a u => exact hk a u n next t ((handled_of_ok hr k h).symm.trans ht)
  | error e u => exact hh s e u hr n next t ((handled_of_error hr k h).symm.trans ht)

theorem bind {k : α → Run β} (hm : LeavesLoop ok m) (hk : ∀ a, LeavesLoop ok (k a)) : LeavesLoop ok (m >>= k) := by
  intro s n next t ht
  cases hr : m s with
  | ok a u => exact hk a u n next t ((bind_of_ok hr k).symm.trans ht)
  | error e u =>
      cases (bind_of_error hr k).symm.trans ht
      exact hm s n next _ hr

theorem ensuring {after : State → State} (hafter : ∀ t, ok t → ok (after t)) (hm : LeavesLoop ok m) :
    LeavesLoop ok (ensuring m after) := by
  intro s n next t ht
  rw [Run.ensuring] at ht
  cases hr : m s with
  | ok a u =>
      rw [hr] at ht
      cases ht
  | error e u =>
      rw [hr] at ht
      cases ht
      exact hafter u (hm s n next u hr)

theorem within {change : Shell → Shell} {restore : Shell → Shell → Shell}
    (hrestore : ∀ s t, ok t → ok { t with shell := restore s t.shell }) (hm : LeavesLoop ok m) :
    LeavesLoop ok (within change restore m) := by
  intro s
  exact ensuring (fun t => hrestore s.shell t) hm { s with shell := change s.shell }

-- Only the computation on the left is looked at.
def congruence (ok : State → Prop) : Congruence where
  rel m _ := LeavesLoop ok m
  plain hm := of_stays hm
  exhausted := .throw nofun
  bind := bind
  handle hm hk hh := by
    refine handled hk fun s e t ht n next u hu => ?_
    rcases hh e with ⟨heq, -⟩ | ⟨-, h⟩
    · rw [heq] at hu
      cases hu
      exact hm s n next _ ht
    · exact h t n next u hu

end LeavesLoop

def State.Succeeded (t : State) : Prop := t.shell.status = 0

-- An expansion and a subshell are left in no such way, a statement with success.
def Congruence.loopFree : Congruence := LeavesLoop.congruence fun _ => False

def Congruence.loopExit : Congruence := LeavesLoop.congruence State.Succeeded

section Brackets

open State (Succeeded)

variable {m : Run Unit}

theorem LeavesLoop.catchReturn (hm : LeavesLoop Succeeded m) : LeavesLoop Succeeded (catchReturn m) := by
  intro s n next t ht
  unfold Machine.catchReturn at ht
  cases hr : m s with
  | ok a u =>
      rw [hr] at ht
      cases ht
  | error e u =>
      rw [hr] at ht
      cases e with
      | loop n' next' =>
          cases ht
          exact hm s n next t hr
      | _ => cases ht

theorem LeavesLoop.turn (hm : LeavesLoop Succeeded m) : LeavesLoop Succeeded (turn m) := by
  intro s n next t ht
  unfold Machine.turn at ht
  cases hr : m s with
  | ok a u =>
      rw [hr] at ht
      cases ht
  | error e u =>
      rw [hr] at ht
      cases e with
      | loop n' next' =>
          dsimp only at ht
          split at ht
          · cases ht
            exact hm s n' next _ hr
          · cases ht
      | _ => cases ht

-- They have succeeded.
theorem loopExit_throw (n : Nat) (next : Bool) :
    LeavesLoop Succeeded (setStatus 0 >>= fun _ => (throw (.loop n next) : Run Unit)) := by
  intro s n' next' t ht
  rw [setStatus_bind] at ht
  cases ht
  rfl

theorem loopFree_setStreams (change : Streams → Streams) :
    Congruence.loopFree.rel (setStreams change) (setStreams change) := fun _ _ _ _ ht => nomatch ht

theorem loopExit_applyRedirs {E E' : Engine} (h : Congruence.loopFree.Expands E E') (rs : List Redir) :
    Congruence.loopExit.rel (applyRedirs E rs) (applyRedirs E' rs) :=
  LeavesLoop.mono (fun _ => False.elim) (Agreement.applyRedirs loopFree_setStreams h rs)

end Brackets

def Discipline.loopExit : Discipline where
  quiet := .loopFree
  flow := .loopExit
  loop := .loopExit
  inner := .loopFree
  flow_of_quiet h := LeavesLoop.mono (fun _ => False.elim) h
  loop_of_quiet h := LeavesLoop.mono (fun _ => False.elim) h
  loose h := .of_stays h
  exit _ := .throw nofun
  return_ := Congruence.return_ (C := .loopExit) fun _ => .throw nofun
  leaveLoop name next := Congruence.leaveLoop (C := .loopExit) name fun n => loopExit_throw n next
  absorb hm hk hh hstopped _ := by
    refine LeavesLoop.handled hk fun s e t _ n next u hu => ?_
    rcases e.stopped_or with ⟨why, rfl⟩ | he
    · rw [hstopped] at hu
      cases hu
    · exact hh e he t n next u hu
  condition h := LeavesLoop.within (fun _ _ ht => ht) h
  unit h := LeavesLoop.within (fun _ _ ht => ht) (LeavesLoop.catchReturn h)
  call _ _ _ h := LeavesLoop.within (fun _ _ ht => ht) (LeavesLoop.catchReturn h)
  params _ _ _ h := LeavesLoop.within (fun _ _ ht => ht) h
  scope _ _ _ h := LeavesLoop.within (fun _ _ ht => ht) h
  write := Agreement.writing fun _ _ _ _ _ _ ht => nomatch ht
  subshell change _ _ h := by
    rw [withStreams_eq]
    exact LeavesLoop.within (fun _ _ => id) h
  inLoop h := LeavesLoop.within (fun _ _ ht => ht) h
  turn h := LeavesLoop.turn h
  redirectedOr h rs hfail hm :=
    Agreement.redirectedOr (C := Congruence.loopExit.toAgreement) hfail (loopExit_applyRedirs h rs) hm
      fun _ _ _ h => LeavesLoop.ensuring (fun _ ht => ht) h

theorem Discipline.admits_loopExit : Discipline.loopExit.Admits where
  mask _ _ _ _ _ ht := nomatch ht
  crash := .throw nofun

end Machine
end ShellScript

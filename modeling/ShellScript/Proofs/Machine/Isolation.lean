import ShellScript.Proofs.Machine.ReadOnly

-- What a subshell leaves behind in the shell around it: a status, and after a pipeline the statuses of its stages. The
-- mask for new files belongs to no shell: a `umask` in a subshell is the only way in which one shell changes another.
namespace ShellScript
namespace Machine

open Program (Stmt Block Redir Assign Word)
open Run

namespace State

-- Nothing but the status of the shell is new.
def Isolated (s t : State) : Prop := t.shell = { s.shell with status := t.shell.status }

-- Nothing but the status is new, and the variable with the statuses of a pipeline.
structure PipeIsolated (s t : State) : Prop where
  shell : t.shell = { s.shell with status := t.shell.status, env := t.shell.env }
  env : t.shell.env = s.shell.env ∨ ∃ codes, t.shell.env = (s.shell.env.setArray "PIPESTATUS" codes).1
  others : ∀ name, name ≠ "PIPESTATUS" → t.shell.env.get? name = s.shell.env.get? name

theorem Isolated.refl (s : State) : s.Isolated s := rfl

theorem Isolated.trans {s t u : State} (h : s.Isolated t) (h' : t.Isolated u) : s.Isolated u := by
  rw [Isolated, h', h]

instance : Trans Isolated Isolated Isolated := ⟨Isolated.trans⟩

theorem Isolated.env {s t : State} (h : s.Isolated t) : t.shell.env = s.shell.env :=
  (congrArg Shell.env h :)

theorem Isolated.traps {s t : State} (h : s.Isolated t) : t.shell.traps = s.shell.traps :=
  (congrArg Shell.traps h :)

end State

theorem Env.get?_setArray_of_ne (e : Env) {name n : String} (values : List String) (hn : n ≠ name) :
    (e.setArray name values).1.get? n = e.get? n := by
  have hthere : (if (e.get? name).isSome then e else e.put name {}).get? n = e.get? n := by
    split
    · rfl
    · rw [get?_put, if_neg hn]
  unfold setArray
  dsimp only
  generalize (if (e.get? name).isSome then e else e.put name {}) = e' at hthere ⊢
  split
  · exact hthere
  · rw [get?_put, if_neg hn, hthere]

namespace State

theorem PipeIsolated.of_shell {s t : State} (status : Int) (codes : List String)
    (h : t.shell = { s.shell with status, env := (s.shell.env.setArray "PIPESTATUS" codes).1 }) :
    s.PipeIsolated t := by
  refine ⟨?_, .inr ⟨codes, ?_⟩, fun name hname => ?_⟩
  · rw [h]
  · rw [h]
  · rw [h]
    exact Env.get?_setArray_of_ne _ _ hname

theorem Isolated.pipe {s t : State} (h : s.Isolated t) : s.PipeIsolated t := by
  refine ⟨?_, .inl h.env, fun name _ => ?_⟩
  · rw [h.env]
    exact h
  · rw [h.env]

-- A status more makes no difference.
theorem PipeIsolated.trans {s t u : State} (h : s.PipeIsolated t) (h' : t.Isolated u) : s.PipeIsolated u := by
  obtain ⟨hshell, henv, hothers⟩ := h
  rw [← h'.env] at henv hothers
  refine ⟨?_, henv, hothers⟩
  rw [h'.env]
  rw [Isolated, hshell] at h'
  exact h'

end State

-- Subshells.

section Isolated

open State (Isolated PipeIsolated)

variable {α β : Type}

theorem Reaches.isolated_bind {m : Run α} {k : α → Run β} (hm : Reaches Isolated m)
    (hk : ∀ a, Reaches Isolated (k a)) : Reaches Isolated (m >>= k) :=
  hm.bind .refl hk

theorem isolated_inSubshell (change : Shell → Shell) (m : Run α) : Reaches Isolated (inSubshell change m) := by
  have hm : Reaches (fun _ _ => True) m := fun _ => trivial
  exact hm.within fun _ _ _ => rfl

theorem isolated_setStatus (c : Int) : Reaches Isolated (setStatus c) := fun _ => rfl

theorem isolated_world : Reaches Isolated world := fun _ => rfl

theorem isolated_newChannel (c : Channel) : Reaches Isolated (newChannel c) := fun _ => rfl

theorem isolated_capture (E : Engine) (body : Block) : Reaches Isolated (capture E body) := by
  refine isolated_world.isolated_bind fun w => (isolated_newChannel _).isolated_bind fun out => ?_
  refine (isolated_inSubshell _ _).isolated_bind fun c => (isolated_setStatus c).isolated_bind fun _ => ?_
  exact isolated_world.isolated_bind fun v _ => rfl

theorem isolated_runStages (E : Engine) (input : Option Stream) (stages : List Stmt) (both : List Bool) :
    Reaches Isolated (runStages E input stages both) := by
  induction stages generalizing input both with
  | nil => exact .refl
  | cons st rest ih =>
      cases rest with
      | nil => exact (isolated_inSubshell _ _).isolated_bind fun c _ => rfl
      | cons next rest =>
          refine isolated_world.isolated_bind fun w => (isolated_newChannel _).isolated_bind fun out => ?_
          refine (isolated_inSubshell _ _).isolated_bind fun c => isolated_world.isolated_bind fun w => ?_
          refine (isolated_newChannel _).isolated_bind fun src => ?_
          exact (ih (some src) (both.drop 1)).isolated_bind fun cs _ => rfl

theorem isolated_runPipeline (E : Engine) (stages : List Stmt) (both : List Bool) :
    Reaches PipeIsolated (runPipeline E stages both) := by
  intro s
  have hs := isolated_runStages E none stages both s
  unfold runPipeline
  cases hr : runStages E none stages both s with
  | error e t =>
      rw [hr] at hs
      rw [bind_of_error hr]
      exact hs.pipe
  | ok codes t =>
      rw [hr] at hs
      rw [bind_of_ok hr]
      refine .of_shell (pipeStatus t.shell.options.pipefail codes) (codes.map toString) ?_
      obtain ⟨w, shell⟩ := t
      change shell = _ at hs
      rw [hs]
      rfl

theorem isolated_negate : Reaches Isolated negate := fun _ => rfl

end Isolated

-- Whether anything runs when a command fails.
def Shell.Untrapped (s : Shell) : Prop := (s.traps.lookup "ERR").getD "" = ""

-- Then a command that failed ends the shell or nothing.
theorem afterCommand_untrapped {E : Engine} {t : State} (h : t.shell.Untrapped) :
    afterCommand E t = .ok () t ∨ afterCommand E t = .error (.exit t.shell.status) t := by
  unfold afterCommand
  rw [shell_bind]
  split
  · exact .inl rfl
  · have hrest {r : EStateM.Result Signal State Unit} (hr : r = (do
          setStatus t.shell.status
          if (← shell).options.errexit then throw (.exit t.shell.status) : Run Unit) t) :
        r = .ok () t ∨ r = .error (.exit t.shell.status) t := by
      rw [setStatus_bind, shell_bind] at hr
      split at hr
      · exact .inr hr
      · exact .inl hr
    rw [Shell.Untrapped] at h
    cases htrap : t.shell.traps.lookup "ERR" with
    | none => exact hrest rfl
    | some text =>
        rw [htrap] at h
        cases h
        exact hrest rfl

-- A statement that leaves the shell in a state of a kind; only the trap for failures may still run in it.
structure Leaves (kind : State → State → Prop) (E : Engine) (s : State)
    (r : EStateM.Result Signal State Unit) : Prop where
  ends : ∃ t, kind s t ∧ (r = .ok () t ∨ (∃ e, r = .error e t) ∨ r = afterCommand E t)
  untrapped : s.shell.Untrapped → kind s (stateOf r)

theorem Leaves.of_reaches {kind : State → State → Prop} {E : Engine} {m : Run Unit} (hm : Reaches kind m) (s : State) :
    Leaves kind E s (m s) := by
  refine ⟨⟨stateOf (m s), hm s, ?_⟩, fun _ => hm s⟩
  cases m s with
  | ok u t => exact .inl rfl
  | error e t => exact .inr (.inl ⟨e, rfl⟩)

theorem Leaves.checked {kind : State → State → Prop} {E : Engine} {m : Run Unit} (hm : Reaches kind m)
    (htraps : ∀ s t, kind s t → t.shell.traps = s.shell.traps) (s : State) : Leaves kind E s (checked E m s) := by
  have hs := hm s
  unfold Machine.checked
  cases hr : m s with
  | ok u t =>
      rw [hr] at hs
      rw [bind_of_ok hr]
      refine ⟨⟨t, hs, .inr (.inr rfl)⟩, fun huntrapped => ?_⟩
      rw [Shell.Untrapped, ← htraps s t hs] at huntrapped
      rcases afterCommand_untrapped (E := E) huntrapped with heq | heq
      · rw [heq]
        exact hs
      · rw [heq]
        exact hs
  | error e t =>
      rw [hr] at hs
      rw [bind_of_error hr]
      exact ⟨⟨t, hs, .inr (.inl ⟨e, rfl⟩)⟩, fun _ => hs⟩

theorem leaves_subshell (E : Engine) (body : Block) (s : State) :
    Leaves State.Isolated E s (runStmt E (.subshell body) s) := by
  refine Leaves.checked ?_ (fun _ _ => State.Isolated.traps) s
  exact (isolated_inSubshell _ _).isolated_bind fun c => isolated_setStatus c

theorem leaves_pipeline (E : Engine) (negated : Bool) {stages : List Stmt} (hstages : stages.length ≠ 1)
    (both : List Bool) (s : State) :
    Leaves State.PipeIsolated E s (runStmt E (.pipeline negated stages both) s) := by
  have hrun := isolated_runPipeline E stages both
  have hlist : ∀ st, stages ≠ [st] := fun st hst => hstages (congrArg List.length hst)
  change Leaves State.PipeIsolated E s (pipeline E negated stages both s)
  unfold pipeline
  split
  · exact absurd rfl (hlist _)
  · exact absurd rfl (hlist _)
  · refine Leaves.of_reaches (fun t => ?_) s
    have ht := hrun t
    cases hr : runPipeline E stages both t with
    | ok u v =>
        rw [hr] at ht
        rw [bind_of_ok hr]
        exact ht.trans (isolated_negate v)
    | error e v =>
        rw [hr] at ht
        rw [bind_of_error hr]
        exact ht
  · exact Leaves.checked hrun (fun _ _ h => (congrArg Shell.traps h.shell :)) s

-- The mask.

-- Gives up where the mask is not left alone.
def steady (m : Run Unit) : Run Unit := fun s =>
  if (stateOf (m s)).world.mask = s.world.mask then m s else .error (.stopped .bound) s

-- The engine that does so at every `umask`.
def Layer.steady : Layer where
  stmt E
    | .call _ assigns words redirs _ _ =>
      checked E (callBy (run E) E (tryRedirs E redirs (setStatus 0)) assigns words redirs)
    | st => runStmt E st
  builtin := run
where
  run (E : Engine) (b : Builtin) (name : String) (args : List String) : Run Unit :=
    if b = .umask then Machine.steady (runBuiltin E b name args) else runBuiltin E b name args

theorem Layer.steady_eq : Layer.steady = .running Layer.steady.run := by
  have hstmt : Layer.steady.stmt = (Layer.running Layer.steady.run).stmt := by
    funext E st
    cases st <;> rfl
  exact congrArg (fun stmt => { stmt, builtin := Layer.steady.run : Layer }) hstmt

theorem steady_approximates {m m' : Run Unit} (hm : Approximates m m') : Approximates (steady m) m' := by
  intro s
  unfold steady
  split
  · exact hm s
  · exact .inl ⟨s, rfl⟩

namespace Discipline

variable {D : Discipline} {E E' : Engine}

section Steady

variable (humask : ∀ name args, D.flow.rel (steady (Command.umask name args)) (Command.umask name args))
  (hcrash : D.flow.rel (throw (.stopped .crash) : Run Unit) (throw (.stopped .crash)))

include humask hcrash

theorem steady_run (h : D.Follows E E') (b : Builtin) (name : String) (args : List String) :
    D.flow.rel (Layer.steady.run E b name args) (Machine.runBuiltin E' b name args) := by
  unfold Layer.steady.run
  split
  · rename_i hb
    subst hb
    exact humask name args
  · rename_i hb
    exact runBuiltin h b name args (fun h => absurd h hb) fun _ => hcrash

theorem steady_follows (hloop : ∀ {m m' : Run Unit}, D.flow.rel m m' → D.loop.rel m m')
    (hbare : ∀ {E E' : Engine}, D.Follows E E' → ∀ redirs,
      D.flow.rel (tryRedirs E redirs (setStatus 0)) (tryRedirs E' redirs (setStatus 0)))
    (program : Program) (compiles : Bool) (rounds n : Nat) :
    D.Follows (Layer.steady.engine program compiles rounds n) (engine program compiles rounds n) := by
  rw [← Layer.engine_real, ← Layer.running_real, Layer.steady_eq]
  exact running_follows (steady_run humask hcrash) hloop hbare program compiles rounds n

end Steady

end Discipline

theorem guarded_steady (name : String) (args : List String) :
    Reaches (State.Guarded Env.Protects True) (steady (Command.umask name args)) := by
  intro s
  have hs : s.Guarded Env.Protects False (stateOf (Command.umask name args s)) :=
    Discipline.umask Discipline.admits_guarded.mask name args s
  unfold steady
  split
  · rename_i hmask
    exact { hs with mask := fun _ => hmask }
  · exact (State.Unmoved.refl s).guarded.protects

-- The engine that gives up at a `umask` leaves the mask alone, and up to there it is the real one.
theorem steady_guarded (program : Program) (compiles : Bool) (rounds n : Nat) :
    (Discipline.guarded True).Follows (Layer.steady.engine program compiles rounds n)
      (engine program compiles rounds n) :=
  Discipline.steady_follows guarded_steady (Guarded.throw _) (fun h => h)
    (fun h redirs => Guarded.tryRedirs h.expands redirs (Congruence.plain _ (plain_setStatus 0)))
    program compiles rounds n

theorem steady_approximation (program : Program) (compiles : Bool) (rounds n : Nat) :
    Discipline.approximation.Follows (Layer.steady.engine program compiles rounds n)
      (engine program compiles rounds n) :=
  Discipline.steady_follows (fun _ _ => steady_approximates (.refl _)) (Approximates.refl _) (fun h => h)
    (fun h redirs => Congruence.tryRedirs (C := .approximation) (.applyRedirs h.expands redirs) (.refl _))
    program compiles rounds n

theorem mask_of_approximates {α : Type} {m m' : Run α} {env : Env → Env → Prop} (happrox : Approximates m m')
    (hm : Reaches (State.Guarded env True) m) (s : State) :
    (stateOf (m' s)).world.mask = s.world.mask ∨ givesUp (m s) = true := by
  rcases happrox s with ⟨t, ht⟩ | heq
  · exact .inr (congrArg givesUp ht)
  · rw [← heq]
    exact .inl ((hm s).mask trivial)

-- A command substitution leaves nothing but a status. So do a subshell and a pipeline of several stages, the latter
-- besides the statuses of its stages, but for the trap that runs when they fail. The mask is left alone, too, unless a
-- `umask` changes it.
theorem subshells_isolate (program : Program) (compiles : Bool) (rounds n : Nat) (s : State) :
    let E := engine program compiles rounds n
    let W := Layer.steady.engine program compiles rounds n
    (∀ body, s.Isolated (stateOf (capture E body s)) ∧
      ((stateOf (capture E body s)).world.mask = s.world.mask ∨ givesUp (capture W body s) = true)) ∧
    (∀ body, Leaves State.Isolated E s (runStmt E (.subshell body) s)) ∧
    (∀ negated stages both, stages.length ≠ 1 →
      Leaves State.PipeIsolated E s (runStmt E (.pipeline negated stages both) s)) ∧
    (∀ st, (stateOf (runStmt E st s)).world.mask = s.world.mask ∨ givesUp (Layer.steady.stmt W st s) = true) := by
  intro E W
  have hguarded := steady_guarded program compiles rounds n
  have happrox := steady_approximation program compiles rounds n
  refine ⟨fun body => ⟨isolated_capture E body s, ?_⟩, fun body => leaves_subshell E body s,
    fun negated stages both hstages => leaves_pipeline E negated hstages both s, fun st => ?_⟩
  · exact mask_of_approximates (Discipline.capture _ happrox body) (Discipline.capture _ hguarded body) s
  · have hguarded' := steady_guarded program compiles rounds (n + 1)
    have happrox' := steady_approximation program compiles rounds (n + 1)
    exact mask_of_approximates (happrox'.stmt st) (hguarded'.stmt st) s

-- `: | :` in a fresh shell.
theorem pipeline_isolates :
    let program : Program := { name := "", main := default }
    let st : Stmt := .call {} [] [⟨[.lit ":" false]⟩] [] none none
    State.PipeIsolated {} (stateOf (runStmt (engine program false 1 5) (.pipeline false [st, st] []) {})) :=
  ((subshells_isolate _ false 1 5 {}).2.2.1 false _ [] (by decide)).untrapped rfl

-- `(umask 077)`.
theorem umask_in_subshell_stays :
    let program : Program := { name := "", main := default }
    let st : Stmt := .call {} [] [⟨[.lit "umask" false]⟩, ⟨[.lit "077" false]⟩] [] none none
    let s : State := {}
    s.world.mask = 0o022 ∧
      (stateOf (runStmt (engine program false 1 5) (.subshell ⟨"", [st]⟩) s)).world.mask = 0o077 := by
  decide +kernel

end Machine
end ShellScript

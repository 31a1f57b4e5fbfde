import ShellScript.Proofs.Machine.ControlFlow
import ShellScript.Proofs.Machine.ReadOnly

-- Redirections of which one fails. Those of a command are undone, whichever of them it was; those of an `exec` that names
-- no command stay in force as far as they got. What they stand with is not run in either case.
namespace ShellScript
namespace Machine

open Program (Block Word Redir RedirOp Stmt)
open Run

-- Expansions leave the streams alone: what they run they run in subshells.

def State.SameStreams (s t : State) : Prop := t.shell.streams = s.shell.streams

instance : Trans State.SameStreams State.SameStreams State.SameStreams := ⟨fun h h' => Eq.trans h' h⟩

def Congruence.sameStreams : Congruence :=
  Reaches.congruence State.SameStreams fun _ _ h => congrArg Place.streams h.place

namespace Congruence.sameStreams

theorem writing (local_ : Bool) (name : String) {m m' : Var → Run String}
    (hm : ∀ v, Congruence.sameStreams.rel (m v) (m' v)) :
    Congruence.sameStreams.rel (writing local_ name m) (Machine.writing local_ name m') :=
  Agreement.writing (fun _ _ _ => rfl) local_ name hm

theorem inSubshell {α : Type} (change : Shell → Shell) (m : Run α) :
    Congruence.sameStreams.rel (inSubshell change m) (Run.inSubshell change m) := by
  intro s
  rw [Run.inSubshell, within_apply, ensuring]
  split <;> rfl

theorem capture (E : Engine) (b : Block) : Congruence.sameStreams.rel (capture E b) (Machine.capture E b) := by
  refine Agreement.world _ fun w => Agreement.bind _ (Congruence.plain _ (plain_newChannel _)) fun out => ?_
  refine Agreement.bind _ (inSubshell _ _) fun c => Congruence.plain _ ?_
  refine (plain_setStatus c).bind fun _ => plain_world.bind fun v => ?_
  exact Plain.bind (plain_modifyWorld fun _ => rfl) fun _ => plain_pure _

theorem expands (program : Program) (compiles : Bool) (rounds depth : Nat) :
    Congruence.sameStreams.Expands (engine program compiles rounds depth) (engine program compiles rounds depth) := by
  induction depth with
  | zero => exact ⟨rfl, rfl, capture _, fun _ _ => Agreement.exhausted _, writing⟩
  | succ n ih => exact ⟨rfl, rfl, capture _, Agreement.arithAt ih, writing⟩

end Congruence.sameStreams

-- Where it is left by a signal, the streams are what they were.
def FailsUndone {α : Type} (m : Run α) : Prop := ∀ s e t, m s = .error e t → s.SameStreams t

namespace FailsUndone

variable {α β : Type} {m : Run α}

theorem of_reaches (h : Reaches State.SameStreams m) : FailsUndone m := by
  intro s e t ht
  have hs := h s
  rwa [ht] at hs

theorem of_plain (h : Plain m) : FailsUndone m := of_reaches (Congruence.sameStreams.plain h)

theorem bind {k : α → Run β} (hm : Reaches State.SameStreams m) (hk : ∀ a, FailsUndone (k a)) : FailsUndone (m >>= k) := by
  intro s e u hu
  have hs := hm s
  cases hr : m s with
  | ok a t =>
      rw [hr] at hs
      exact (hk a t e u ((bind_of_ok hr k).symm.trans hu)).trans hs
  | error e' t =>
      rw [hr] at hs
      cases (bind_of_error hr k).symm.trans hu
      exact hs

theorem plain_bind {k : α → Run β} (hm : Plain m) (hk : ∀ a, FailsUndone (k a)) : FailsUndone (m >>= k) :=
  bind (Congruence.sameStreams.plain hm) hk

theorem ite {c : Prop} [Decidable c] {m' : Run α} (h : FailsUndone m) (h' : FailsUndone m') :
    FailsUndone (if c then m else m') := by
  split <;> assumption

-- A check in front of the rest.
theorem guard {c : Prop} [Decidable c] {x : Run Unit} (hx : Plain x) {k : Unit → Run α} (hk : ∀ u, FailsUndone (k u)) :
    FailsUndone (if c then x >>= k else k ()) :=
  ite (plain_bind hx hk) (hk ())

theorem setStreams (change : Streams → Streams) : FailsUndone (setStreams change) := by
  intro s e t ht
  cases ht

theorem setDescriptor (fd : Nat) (stream : Stream) : FailsUndone (setDescriptor fd stream) := by
  refine plain_bind plain_world fun w => ?_
  split
  all_goals exact ite (setStreams _) (of_plain (plain_fail _))

end FailsUndone

-- A stream that can be written to is accepted for output.
theorem setDescriptor_of_canWrite {fd : Nat} (hfd : fd ≠ 0) {stream : Stream} {s : State}
    (h : canWrite s.world stream = true) : ∃ t, setDescriptor fd stream s = .ok () t ∧ t.world = s.world := by
  rw [setDescriptor, world_bind]
  split
  · exact absurd rfl hfd
  · rw [if_pos h]
    exact ⟨_, rfl, rfl⟩
  · rw [if_pos h]
    exact ⟨_, rfl, rfl⟩

namespace FailsUndone

variable {E : Engine} (h : Congruence.sameStreams.Expands E E)

include h

theorem openFile {fd : Nat} {op : RedirOp} (hfd : isBoth op = true → fd ≠ 0) (word : Word) :
    FailsUndone (openFile E fd op word) := by
  refine bind (Agreement.literal h word) fun name => plain_bind plain_shell fun s => ?_
  split
  · rename_i stream hdevice
    intro t e u hu
    rw [world_bind] at hu
    by_cases hboth : (isBoth op && canWrite t.world stream) = true
    · -- both are set, and neither can fail
      obtain ⟨hop, hwrite⟩ := Bool.and_eq_true_iff.mp hboth
      obtain ⟨v, hv, hworld⟩ := setDescriptor_of_canWrite (show 2 ≠ 0 by decide) hwrite
      obtain ⟨x, hx, -⟩ := setDescriptor_of_canWrite (s := v) (hfd hop) (hworld ▸ hwrite)
      simp only [hboth, if_true] at hu
      rw [bind_of_ok hv, hx] at hu
      cases hu
    · simp only [hboth] at hu
      exact setDescriptor fd stream t e u hu
  · refine plain_bind plain_world fun w => ?_
    split
    · exact of_plain (plain_fail _)
    · refine plain_bind (plain_modifyWorld fun _ => rfl) fun _ => plain_bind (plain_newChannel _) fun stream => ?_
      exact ite (setStreams _) (setDescriptor _ _)

theorem duplicate (fd : Nat) (op : RedirOp) (word : Word) : FailsUndone (duplicate E fd op word) := by
  refine bind (Agreement.literal h word) fun target => ite (setDescriptor _ _) ?_
  split
  · refine ite ?_ (of_plain (plain_fail _))
    exact openFile h (fun _ => by decide) word
  · refine plain_bind plain_shell fun s => ?_
    exact ite (setDescriptor _ _) (ite (setDescriptor _ _) (ite (setDescriptor _ _) (of_plain (plain_fail _))))

end FailsUndone

-- An operator for both output streams is read with no number in front of it; here it is enough that this is not the
-- number of the input.
def OutputOnly (r : Redir) : Prop := isBoth r.op = true → r.n ≠ some 0

theorem OutputOnly.descriptor_ne {r : Redir} (h : OutputOnly r) (hboth : isBoth r.op = true) :
    r.n.getD (defaultDescriptor r.op) ≠ 0 := by
  obtain ⟨n, op, word⟩ := r
  cases n with
  | some k => exact fun hk => h hboth (congrArg some hk)
  | none =>
      cases op with
      | all | allAppend => exact Nat.one_ne_zero
      | _ => cases hboth

theorem FailsUndone.applyRedir {E : Engine} (h : Congruence.sameStreams.Expands E E) {r : Redir} (hr : OutputOnly r) :
    FailsUndone (applyRedir E r) := by
  have hsource : ∀ text : String, FailsUndone (newChannel (.source text.toList false) >>= fun stream =>
      Machine.setDescriptor (r.n.getD (defaultDescriptor r.op)) stream) :=
    fun text => plain_bind (plain_newChannel _) fun stream => setDescriptor _ _
  unfold Machine.applyRedir
  refine guard (plain_fail _) fun _ => ?_
  split
  · exact bind (Agreement.literal h r.word) fun text => hsource text
  · exact bind (Agreement.literal h r.word) fun text => hsource (text ++ "\n")
  · exact duplicate h _ _ _
  · exact duplicate h _ _ _
  · split
    · split
      · exact hsource _
      · exact of_plain (plain_fail _)
    · exact openFile h hr.descriptor_ne _
  · exact openFile h hr.descriptor_ne _

-- The redirections in front of the one that fails have been applied.
theorem applyRedirs_error {E : Engine} {rs : List Redir} {s v : State} {e : Signal}
    (h : applyRedirs E rs s = .error e v) : ∃ front r back u,
      rs = front ++ r :: back ∧ applyRedirs E front s = .ok () u ∧ applyRedir E r u = .error e v := by
  induction rs generalizing s with
  | nil => cases h
  | cons r rs ih =>
      rw [applyRedirs] at h
      cases hr : applyRedir E r s with
      | error e' t =>
          cases (bind_of_error hr _).symm.trans h
          exact ⟨[], r, rs, s, rfl, rfl, hr⟩
      | ok a t =>
          obtain ⟨front, x, back, u, rfl, hfront, hx⟩ := ih ((bind_of_ok hr _).symm.trans h)
          exact ⟨r :: front, x, back, u, rfl, (bind_of_ok hr _).trans hfront, hx⟩

-- How a statement ends that stands with redirections of which one fails: it has failed itself, or the signal passes.
inductive RedirsRefused (e : Signal) : EStateM.Result Signal State Unit → Prop
  | reported {f : Failure} {t : State} (signal : e = .fail f) (cause : f.cause = .redirect) (status : t.shell.status = 1) :
      RedirsRefused e (.ok () t)
  | passed {t : State} : RedirsRefused e (.error e t)

theorem tryRedirs_error {E : Engine} {rs : List Redir} {s v : State} {e : Signal} (h : applyRedirs E rs s = .error e v) :
    ∃ r, (∀ body, tryRedirs E rs body s = r) ∧ RedirsRefused e r ∧ v.SameStreams (stateOf r) := by
  by_cases hfail : ∃ f, e = .fail f ∧ f.cause = .redirect
  · obtain ⟨f, rfl, hcause⟩ := hfail
    have hreport : ∀ body, tryRedirs E rs body s = complainWith 1 f.report v := by
      intro body
      simp [tryRedirs, h, hcause]
    exact ⟨_, fun body => (hreport body).trans (complainWith_eq ..), .reported rfl hcause rfl, rfl⟩
  · refine ⟨.error e v, fun body => ?_, .passed, rfl⟩
    simp only [tryRedirs, h]
    cases e with
    | fail f => simp [show f.cause ≠ .redirect from fun hcause => hfail ⟨f, rfl, hcause⟩]
    | _ => rfl

theorem redirected_error {E : Engine} {rs : List Redir} {s v : State} {e : Signal} (h : applyRedirs E rs s = .error e v) :
    ∃ r, (∀ body, redirected E rs body s = r) ∧ RedirsRefused e r ∧ s.SameStreams (stateOf r) := by
  obtain ⟨r, hrun, hrefused, -⟩ := tryRedirs_error h
  have hsome : ¬rs.isEmpty = true := by
    intro hempty
    rw [List.isEmpty_iff.mp hempty] at h
    cases h
  have hrestored : ∀ body, redirected E rs body s =
      ensuring (fun _ => r) (fun t => { t with shell := { t.shell with streams := s.shell.streams } }) s := by
    intro body
    rw [redirected, if_neg hsome, shell_bind]
    simp only [ensuring, hrun]
  cases hrefused with
  | reported signal cause status => exact ⟨_, hrestored, .reported signal cause status, rfl⟩
  | passed => exact ⟨_, hrestored, .passed, rfl⟩

-- Whichever of its redirections fails, for whatever reason and after whatever the others have done: a command is not run,
-- and its streams are those from before. Nor is anything run after the redirections of an `exec` without a command, but
-- there the streams are those that the redirections in front of the failed one have made of them.
theorem failed_redirection (program : Program) (compiles : Bool) (rounds depth : Nat) (rs : List Redir) (s v : State)
    (e : Signal) (h : applyRedirs (engine program compiles rounds depth) rs s = .error e v) :
    let E := engine program compiles rounds depth
    (∃ r, (∀ body, redirected E rs body s = r) ∧ RedirsRefused e r ∧ (stateOf r).shell.streams = s.shell.streams) ∧
    ∃ r, (∀ body, tryRedirs E rs body s = r) ∧ RedirsRefused e r ∧
      ∃ front x back u, rs = front ++ x :: back ∧ applyRedirs E front s = .ok () u ∧ applyRedir E x u = .error e v ∧
        (OutputOnly x → (stateOf r).shell.streams = u.shell.streams) := by
  intro E
  refine ⟨redirected_error h, ?_⟩
  obtain ⟨r, hrun, hrefused, hsame⟩ := tryRedirs_error h
  obtain ⟨front, x, back, u, hrs, hfront, hx⟩ := applyRedirs_error h
  refine ⟨r, hrun, hrefused, front, x, back, u, hrs, hfront, hx, fun honly => ?_⟩
  exact hsame.trans (FailsUndone.applyRedir (Congruence.sameStreams.expands ..) honly u e v hx)

-- `> /f < /none`, where there is no such file.
theorem failed_redirection_of_missing_file :
    let E := engine { name := "", main := default } false 1 5
    let rs : List Redir := [⟨none, .output, ⟨[.lit "/f" false]⟩⟩, ⟨none, .input, ⟨[.lit "/none" false]⟩⟩]
    (∃ e v, applyRedirs E rs {} = .error e v) ∧
    (∃ r, (∀ body, redirected E rs body {} = r) ∧ (stateOf r).shell.streams = {}) ∧
    ∃ r front u, (∀ body, tryRedirs E rs body {} = r) ∧ applyRedirs E front {} = .ok () u ∧
      (stateOf r).shell.streams = u.shell.streams := by
  intro E rs
  have hfails : ∃ e v, applyRedirs E rs {} = .error e v := by
    cases hr : applyRedirs E rs {} with
    | error e v => exact ⟨e, v, rfl⟩
    | ok a t =>
        have hsignal : signalOf (applyRedirs E rs {}) ≠ none := by decide +kernel
        exact absurd (congrArg signalOf hr) hsignal
  obtain ⟨e, v, h⟩ := hfails
  obtain ⟨⟨r, hrun, -, hstreams⟩, r', hrun', -, front, x, back, u, hrs, hfront, -, hsame⟩ :=
    failed_redirection { name := "", main := default } false 1 5 rs {} v e h
  have honly : OutputOnly x := by
    have hx : x ∈ rs := hrs ▸ List.mem_append_right front List.mem_cons_self
    simp only [rs, List.mem_cons, List.not_mem_nil, or_false] at hx
    rcases hx with rfl | rfl <;> exact nofun
  exact ⟨⟨e, v, h⟩, ⟨r, hrun, hstreams⟩, r', front, u, hrun', hfront, hsame honly⟩

-- `exec > /f < /none`.
theorem exec_keeps_output_redirected :
    let program : Program := { name := "", main := default }
    let st : Stmt := .call {} [] [⟨[.lit "exec" false]⟩]
      [⟨none, .output, ⟨[.lit "/f" false]⟩⟩, ⟨none, .input, ⟨[.lit "/none" false]⟩⟩] none none
    let t := stateOf ((engine program false 1 5).stmt st {})
    t.shell.status = 1 ∧ t.shell.streams ≠ {} := by
  decide +kernel

end Machine
end ShellScript

import ShellScript.Proofs.Machine.ControlFlow
import ShellScript.Proofs.Machine.OptionChanges
import ShellScript.Proofs.Machine.ScriptOptions

-- Between two calls of `getopts` the position within a word is kept, and the word is not: the next call reads at that
-- position in whatever word `OPTIND` names by then. So a call reads behind the end of its word exactly when the one before
-- it has left a longer word halfway.
namespace ShellScript
namespace Machine

open Run
open OptionLetters (ofText wordsOf placeOf callAt getopts_eq)

section Positions

variable {α β : Type}

-- Nothing but a failure has left it, and the position is then of the kind.
def LeavesPos (P : Nat → Prop) : EStateM.Result Signal State α → Prop
  | .ok _ t => P t.shell.optionPos
  | .error (.fail _) t => P t.shell.optionPos
  | .error _ _ => False

def KeepsPos (m : Run α) : Prop := ∀ s, LeavesPos (· = s.shell.optionPos) (m s)

variable {m : Run α} {k : α → Run β} {P : Nat → Prop} {s : State}

theorem LeavesPos.mono {Q : Nat → Prop} {r : EStateM.Result Signal State α} (h : LeavesPos P r) (hP : ∀ p, P p → Q p) :
    LeavesPos Q r := by
  cases r with
  | ok a t => exact hP _ h
  | error e t =>
      cases e with
      | fail f => exact hP _ h
      | _ => exact h

theorem KeepsPos.leavesPos (hm : KeepsPos m) (hs : P s.shell.optionPos) : LeavesPos P (m s) := by
  refine (hm s).mono ?_
  rintro p rfl
  exact hs

theorem LeavesPos.bind (hm : LeavesPos P (m s)) (hk : ∀ a, KeepsPos (k a)) : LeavesPos P ((m >>= k) s) := by
  cases hr : m s with
  | ok a t =>
      rw [hr] at hm
      rw [bind_of_ok hr]
      exact (hk a).leavesPos hm
  | error e t =>
      rw [hr] at hm
      rw [bind_of_error hr]
      cases e with
      | fail f => exact hm
      | _ => exact hm

theorem KeepsPos.bind (hm : KeepsPos m) (hk : ∀ a, KeepsPos (k a)) : KeepsPos (m >>= k) := fun s => (hm s).bind hk

theorem keepsPos_setVar (name value : String) : KeepsPos (setVar name value) := by
  intro s
  rw [setVar, shell_bind]
  cases s.shell.env.set name value <;> exact rfl

theorem keepsPos_trySetVar (name value : String) : KeepsPos (trySetVar name value) := by
  intro s
  rw [trySetVar, shell_bind]
  cases s.shell.env.set name value <;> exact rfl

theorem keepsPos_tryUnset (name : String) : KeepsPos (Command.tryUnset name) := by
  intro s
  rw [Command.tryUnset, shell_bind]
  cases s.shell.env.unset name <;> exact rfl

theorem keepsPos_complain (text : String) : KeepsPos (complain text) := by
  intro s
  rw [complain_eq]
  exact rfl

theorem keepsPos_complainWith (status : Int) (text : String) : KeepsPos (complainWith status text) := by
  intro s
  rw [complainWith_eq]
  exact rfl

theorem keepsPos_shift (args : List String) : KeepsPos (Command.shift args) := by
  unfold Command.shift
  dsimp only
  split
  · exact keepsPos_complainWith _ _
  · intro s
    rw [shell_bind]
    split <;> exact rfl

theorem keepsPos_set (args : List String) : KeepsPos (Command.set args) := by
  intro s
  obtain ⟨xs, e, h⟩ := Asks.exists_asks args '-' []
  obtain ⟨t, hrun, hshell, -⟩ := set_run h s
  have hpos := congrArg Shell.optionPos hshell
  rw [hrun]
  exact hpos

end Positions

-- What a call finds: the word that `OPTIND` names, and the position.
structure Look where
  word? : Option String
  pos : Nat
deriving DecidableEq

def lookAt (rest : List String) (s : State) : Look := ⟨(wordsOf rest s)[placeOf s]?, s.shell.optionPos⟩

namespace Look

-- There is no such position in the word.
def Beyond (l : Look) : Prop := l.pos ≠ 0 ∧ ∃ w, l.word? = some w ∧ w.length ≤ l.pos

-- The call goes on at a word that is still to be begun, or after the letter that it has read; the first one stands after
-- the dash.
def Leaves (l : Look) (pos : Nat) : Prop := pos = 0 ∨ ∃ w, l.word? = some w ∧ pos = max l.pos 1 + 1 ∧ pos < w.length

-- A word was left halfway, and the next one ends before.
def CutShort (l l' : Look) : Prop :=
  ∃ w w', l.word? = some w ∧ l'.word? = some w' ∧ l'.pos = max l.pos 1 + 1 ∧ w'.length ≤ l'.pos ∧ l'.pos < w.length

end Look

section Calls

variable {letters name w : String} {rest words : List String} {s : State} {p i : Nat} {c : Char}

theorem afterLetter_leaves (w : String) (p i : Nat) (s : State) :
    LeavesPos (fun q => q = 0 ∨ q = p ∧ p < w.length) (Command.afterLetter w p i s) := by
  unfold Command.afterLetter
  split
  · exact .inl rfl
  · exact .inr ⟨rfl, not_le.mp ‹_›⟩

theorem optionsEnd_leaves (name : String) (i : Nat) (s : State) : LeavesPos (· = 0) (Command.optionsEnd name i s) := by
  unfold Command.optionsEnd
  rw [modifyShell_bind, setStatus_bind]
  exact ((keepsPos_tryUnset _).bind fun _ => (keepsPos_setVar _ _).bind fun _ => keepsPos_setVar _ _).leavesPos rfl

theorem optionAt_leaves (cs : List Char) (silent : Bool) (name : String) (words : List String) (w : String) (c : Char)
    (p i : Nat) (s : State) : LeavesPos (fun q => q = 0 ∨ q = p ∧ p < w.length)
      (Command.optionAt cs silent name words w c p i s) := by
  have hset (n v : String) : KeepsPos (setVar n v) := keepsPos_setVar n v
  have htry (n v : String) : KeepsPos (trySetVar n v) := keepsPos_trySetVar n v
  have hunset : KeepsPos (Command.tryUnset "OPTARG") := keepsPos_tryUnset _
  unfold Command.optionAt
  rw [setStatus_bind]
  dsimp only
  split
  · refine (afterLetter_leaves ..).bind fun j => ?_
    split
    · exact (htry _ _).bind fun _ => (htry _ _).bind fun _ => hset _ _
    · exact (keepsPos_complain _).bind fun _ => hunset.bind fun _ => (htry _ _).bind fun _ => hset _ _
  · split
    · rw [modifyShell_bind]
      refine KeepsPos.leavesPos ?_ (.inl rfl)
      split
      · exact (hset _ _).bind fun _ => (hset _ _).bind fun _ => hset _ _
      · refine (htry _ _).bind fun _ => ?_
        split
        · exact (htry _ _).bind fun _ => hset _ _
        · exact (keepsPos_complain _).bind fun _ => hunset.bind fun _ => hset _ _
    · exact (afterLetter_leaves ..).bind fun j => hunset.bind fun _ => (hset _ _).bind fun _ => hset _ _

theorem beyond_iff_of_word (h : (lookAt rest s).word? = some w) :
    (lookAt rest s).Beyond ↔ s.shell.optionPos ≠ 0 ∧ w.length ≤ s.shell.optionPos := by
  rw [Look.Beyond, h]
  refine and_congr_right fun _ => ⟨?_, fun hshort => ⟨w, rfl, hshort⟩⟩
  rintro ⟨w', hw', hshort⟩
  cases hw'
  exact hshort

theorem getopts_look (letters name : String) (rest : List String) (s : State) :
    ((lookAt rest s).Beyond → Command.getopts (letters :: name :: rest) s = .error (.stopped .crash) s) ∧
    (¬(lookAt rest s).Beyond → LeavesPos (lookAt rest s).Leaves (Command.getopts (letters :: name :: rest) s)) := by
  have hend (i : Nat) : LeavesPos (lookAt rest s).Leaves (Command.optionsEnd name i s) :=
    (optionsEnd_leaves name i s).mono fun p hp => .inl hp
  have hbegin {b : Bool} (h : (s.shell.optionPos == 0 && b) = true) : ¬(lookAt rest s).Beyond :=
    fun hbeyond => hbeyond.1 (beq_iff_eq.mp (Bool.and_eq_true_iff.mp h).1)
  rw [getopts_eq, callAt]
  cases hword : (wordsOf rest s)[placeOf s]? with
  | none =>
      refine ⟨?_, fun _ => hend _⟩
      rintro ⟨-, w, hw, -⟩
      cases hword.symm.trans hw
  | some w =>
      dsimp only
      split
      · rename_i h
        exact ⟨fun hbeyond => absurd hbeyond (hbegin h), fun _ => hend _⟩
      · split
        · rename_i h
          exact ⟨fun hbeyond => absurd hbeyond (hbegin h), fun _ => hend _⟩
        · -- a letter of the word is read, if there is one at the position
          rename_i hother
          have hplace : (if (s.shell.optionPos == 0) = true then 1 else s.shell.optionPos) = max s.shell.optionPos 1 := by
            cases s.shell.optionPos with
            | zero => rfl
            | succ p => exact (max_eq_left (Nat.le_add_left 1 p)).symm
          rw [hplace, beyond_iff_of_word hword]
          cases hletter : w.toList[max s.shell.optionPos 1]? with
          | none =>
              have hshort := List.getElem?_eq_none_iff.mp hletter
              rw [String.length_toList] at hshort
              have hpos : s.shell.optionPos ≠ 0 := by
                intro hzero
                simp only [hzero, beq_self_eq_true, Bool.true_and, Bool.or_eq_true, decide_eq_true_eq, not_or] at hother
                omega
              exact ⟨fun _ => rfl, fun h => absurd ⟨hpos, by omega⟩ h⟩
          | some c =>
              obtain ⟨hlong, -⟩ := List.getElem?_eq_some_iff.mp hletter
              rw [String.length_toList] at hlong
              refine ⟨fun hbeyond => absurd hbeyond.2 (by omega), fun _ => ?_⟩
              change LeavesPos _ ((modifyShell _ >>= fun _ => Command.optionAt _ _ _ _ _ _ _ _) s)
              rw [modifyShell_bind]
              refine (optionAt_leaves ..).mono ?_
              rintro p (hp | ⟨hp, hlong⟩)
              · exact .inl hp
              · exact .inr ⟨w, hword, hp, hp ▸ hlong⟩

end Calls

-- What a script does that calls `getopts`; its functions do such things as well.
inductive Act where
  | getopts (args : List String)
  | assign (name value : String)
  | shift (args : List String)
  | set (args : List String)
  | call (args : List String) (body : List Act)

-- A failure is reported, and the script goes on.
def reporting (body : Run Unit) : Run Unit := fun s =>
  match body s with
  | .error (.fail f) t => complainWith 1 f.report t
  | r => r

-- Where the body of a function runs.
def inFunction (args : List String) (s : State) : State :=
  { s with shell := { s.shell with params := args, loops := 0, env := s.shell.env.push, calls := s.shell.calls + 1 } }

namespace Act

mutual

def run (E : Engine) : Act → Run Unit
  | getopts args => runBuiltin E .getopts "getopts" args
  | assign name value => setVar name value
  | shift args => runBuiltin E .shift "shift" args
  | set args => runBuiltin E .set "set" args
  | call args body => callFunction { E with stmt := fun _ => runAll E body } default "f" args

def runAll (E : Engine) : List Act → Run Unit
  | [] => return
  | a :: as => do
    reporting (a.run E)
    runAll E as

end

mutual

-- What the calls find, in the order in which they are made.
def looks (E : Engine) : Act → State → List Look
  | getopts (_ :: _ :: rest), s => [lookAt rest s]
  | call args body, s => if s.shell.calls ≥ maxCalls then [] else looksAll E body (inFunction args s)
  | _, _ => []

def looksAll (E : Engine) : List Act → State → List Look
  | [], _ => []
  | a :: as, s => a.looks E s ++
    match reporting (a.run E) s with
    | .ok _ t => looksAll E as t
    | .error _ _ => []

end

end Act

-- Where the next call may go on, when the last one before it found `prev`.
def Continues (prev : Option Look) (pos : Nat) : Prop :=
  match prev with
  | none => pos = 0
  | some l => l.Leaves pos

-- A run in which the calls find these things ends so. It is left at the first call whose position is behind its word.
inductive LooksEnd : Option Look → List Look → EStateM.Result Signal State Unit → Prop
  | ended {prev : Option Look} {t : State} (h : Continues prev t.shell.optionPos) : LooksEnd prev [] (.ok () t)
  | crashed {prev : Option Look} {l : Look} {t : State} (h : Continues prev l.pos) (hl : l.Beyond) :
      LooksEnd prev [l] (.error (.stopped .crash) t)
  | looked {prev : Option Look} {l : Look} {ls : List Look} {r : EStateM.Result Signal State Unit}
      (h : Continues prev l.pos) (hl : ¬l.Beyond) (rest : LooksEnd (some l) ls r) : LooksEnd prev (l :: ls) r

namespace LooksEnd

variable {prev : Option Look} {l : Look} {ls ls' : List Look} {r r' : EStateM.Result Signal State Unit} {t : State}

theorem append (h : LooksEnd prev ls (.ok () t))
    (h' : ∀ prev, Continues prev t.shell.optionPos → LooksEnd prev ls' r') : LooksEnd prev (ls ++ ls') r' := by
  generalize hr : EStateM.Result.ok () t = r at h
  induction h with
  | ended hpos =>
      cases hr
      exact h' _ hpos
  | crashed => cases hr
  | looked hpos hl rest ih => exact .looked hpos hl (ih hr)

theorem ok_or_crash (h : LooksEnd prev ls r) : (∃ t, r = .ok () t) ∨ ∃ t, r = .error (.stopped .crash) t := by
  induction h with
  | ended => exact .inl ⟨_, rfl⟩
  | crashed => exact .inr ⟨_, rfl⟩
  | looked _ _ _ ih => exact ih

-- Other things than the position do not matter.
theorem congr (h : LooksEnd prev ls r) (hok : ∀ t, r = .ok () t → ∃ u, r' = .ok () u ∧ u.shell.optionPos = t.shell.optionPos)
    (hcrash : ∀ t, r = .error (.stopped .crash) t → ∃ u, r' = .error (.stopped .crash) u) : LooksEnd prev ls r' := by
  induction h with
  | ended hpos =>
      obtain ⟨u, rfl, hu⟩ := hok _ rfl
      exact .ended (hu ▸ hpos)
  | crashed hpos hl =>
      obtain ⟨u, rfl⟩ := hcrash _ rfl
      exact .crashed hpos hl
  | looked hpos hl rest ih => exact .looked hpos hl (ih hok hcrash)

theorem beyond_iff (h : Continues prev l.pos) : l.Beyond ↔ ∃ l₀, prev = some l₀ ∧ l₀.CutShort l := by
  constructor
  · rintro ⟨hpos, w', hw', hshort⟩
    cases prev with
    | none => exact absurd h hpos
    | some l₀ =>
        obtain hzero | ⟨w, hw, hnext, hlong⟩ := h
        · exact absurd hzero hpos
        · exact ⟨l₀, rfl, w, w', hw, hw', hnext, hshort, hlong⟩
  · rintro ⟨l₀, -, w, w', hw, hw', hnext, hshort, hlong⟩
    exact ⟨by omega, w', hw', hshort⟩

theorem isChain_toList_append {R : Look → Look → Prop} :
    (prev.toList ++ l :: ls).IsChain R ↔ (∀ l₀, prev = some l₀ → R l₀ l) ∧ (l :: ls).IsChain R := by
  cases prev with
  | none => simp
  | some l₀ => simp [List.isChain_cons_cons]

theorem isChain_leaves (h : LooksEnd prev ls r) : (prev.toList ++ ls).IsChain fun l l' => l.Leaves l'.pos := by
  induction h with
  | @ended prev => cases prev <;> simp
  | crashed hpos =>
      refine isChain_toList_append.mpr ⟨?_, .singleton _⟩
      rintro l₀ rfl
      exact hpos
  | looked hpos _ _ ih =>
      refine isChain_toList_append.mpr ⟨?_, ih⟩
      rintro l₀ rfl
      exact hpos

theorem ok_iff (h : LooksEnd prev ls r) :
    (∃ t, r = .ok () t) ↔ (prev.toList ++ ls).IsChain fun l l' => ¬l.CutShort l' := by
  induction h with
  | @ended prev => cases prev <;> simp
  | crashed hpos hl =>
      obtain ⟨l₀, rfl, hcut⟩ := (beyond_iff hpos).mp hl
      simp [List.isChain_cons_cons, hcut]
  | looked hpos hl rest ih =>
      rw [ih, isChain_toList_append]
      exact (and_iff_right fun l₀ hprev hcut => hl ((beyond_iff hpos).mpr ⟨l₀, hprev, hcut⟩)).symm

end LooksEnd

section Runs

variable {E : Engine} {prev : Option Look} {s : State}

theorem reporting_of_leavesPos {P : Nat → Prop} {m : Run Unit} (h : LeavesPos P (m s)) :
    ∃ t, reporting m s = .ok () t ∧ P t.shell.optionPos := by
  unfold reporting
  cases hr : m s with
  | ok a t =>
      rw [hr] at h
      exact ⟨t, rfl, h⟩
  | error e t =>
      rw [hr] at h
      cases e with
      | fail f => exact ⟨_, complainWith_eq .., h⟩
      | _ => exact h.elim

theorem ends_of_keepsPos {m : Run Unit} (hm : KeepsPos m) (h : Continues prev s.shell.optionPos) :
    LooksEnd prev [] (reporting m s) := by
  obtain ⟨t, hrun, hpos⟩ := reporting_of_leavesPos (hm s)
  rw [hrun]
  exact .ended (hpos ▸ h)

theorem ends_getopts (letters name : String) (rest : List String) (h : Continues prev s.shell.optionPos) :
    LooksEnd prev [lookAt rest s] (reporting (Command.getopts (letters :: name :: rest)) s) := by
  obtain ⟨hcrash, hleaves⟩ := getopts_look letters name rest s
  by_cases hbeyond : (lookAt rest s).Beyond
  · rw [reporting, hcrash hbeyond]
    exact .crashed h hbeyond
  · obtain ⟨t, hrun, hpos⟩ := reporting_of_leavesPos (hleaves hbeyond)
    rw [hrun]
    exact .looked h hbeyond (.ended hpos)

-- A function call is refused where the calls are nested too deeply.
theorem callFunction_eq (body : Program.Stmt) (name : String) (args : List String) :
    callFunction E body name args s =
      if s.shell.calls ≥ maxCalls then
        fail (.ofText .program (name ++ ": maximum function nesting level exceeded")) s
      else inCall args (E.stmt body) s := by
  unfold callFunction
  rw [shell_bind]
  split <;> rfl

theorem ends_inCall {m : Run Unit} {args : List String} {ls : List Look} (h : LooksEnd prev ls (m (inFunction args s))) :
    LooksEnd prev ls (reporting (inCall args m) s) := by
  refine h.congr (fun t ht => ?_) fun t ht => ?_
  all_goals
    rw [inFunction] at ht
    simp only [reporting, inCall, within_apply, ensuring, catchReturn, ht]
  · exact ⟨_, rfl, rfl⟩
  · exact ⟨_, rfl⟩

end Runs

namespace Act

mutual

theorem ends (E : Engine) (a : Act) {prev : Option Look} {s : State} (h : Continues prev s.shell.optionPos) :
    LooksEnd prev (a.looks E s) (reporting (a.run E) s) := by
  cases a with
  | getopts args =>
      rcases args with _ | ⟨letters, _ | ⟨name, rest⟩⟩
      · exact ends_of_keepsPos (keepsPos_complainWith _ _) h
      · exact ends_of_keepsPos (keepsPos_complainWith _ _) h
      · exact ends_getopts letters name rest h
  | assign name value => exact ends_of_keepsPos (keepsPos_setVar name value) h
  | shift args => exact ends_of_keepsPos (keepsPos_shift args) h
  | set args => exact ends_of_keepsPos (keepsPos_set args) h
  | call args body =>
      rw [looks, run, reporting, callFunction_eq]
      split
      · exact ends_of_keepsPos (m := fail _) (fun _ => rfl) h
      · exact ends_inCall (endsAll E body h)

theorem endsAll (E : Engine) (as : List Act) {prev : Option Look} {s : State} (h : Continues prev s.shell.optionPos) :
    LooksEnd prev (looksAll E as s) (runAll E as s) := by
  cases as with
  | nil => exact .ended h
  | cons a as =>
      have hfirst := ends E a h
      rw [looksAll, runAll]
      cases hrun : reporting (a.run E) s with
      | ok u t =>
          rw [hrun] at hfirst
          rw [bind_of_ok hrun]
          exact hfirst.append fun prev hpos => endsAll E as hpos
      | error e t =>
          rw [hrun] at hfirst
          rw [bind_of_error hrun, List.append_nil]
          exact hfirst

end

-- Whatever a script does, and in whatever functions: each call goes on at a position that the one before it has left. The
-- script is never left by anything but a position behind the end of a word, and so it is exactly where two calls in a row
-- find a word that is left halfway and then one that ends before that.
theorem getopts_position (E : Engine) (as : List Act) (s : State) (hpos : s.shell.optionPos = 0) :
    ((∃ t, runAll E as s = .ok () t) ∨ ∃ t, runAll E as s = .error (.stopped .crash) t) ∧
      ((looksAll E as s).IsChain fun l l' => l.Leaves l'.pos) ∧
      ((∃ t, runAll E as s = .ok () t) ↔ (looksAll E as s).IsChain fun l l' => ¬l.CutShort l') := by
  have h : LooksEnd none (looksAll E as s) (runAll E as s) := endsAll E as hpos
  exact ⟨h.ok_or_crash, h.isChain_leaves, h.ok_iff⟩

-- `getopts ab x -ab; shift 0; getopts ab x -ab`.
theorem getopts_position_of_cluster :
    let E := engine { name := "", main := default } false 1 5
    let as := [getopts ["ab", "x", "-ab"], shift ["0"], getopts ["ab", "x", "-ab"]]
    ∃ t, runAll E as {} = .ok () t := by
  intro E as
  obtain ⟨-, -, hok⟩ := getopts_position E as {} rfl
  have hlooks : looksAll E as {} = [⟨some "-ab", 0⟩, ⟨some "-ab", 2⟩] := by decide +kernel
  rw [hok, hlooks]
  refine List.isChain_cons_cons.mpr ⟨?_, .singleton _⟩
  rintro ⟨w, w', -, hw', -, hshort, -⟩
  cases hw'
  exact absurd hshort (by decide)

-- `getopts ab x -ab; getopts ab x -a`.
theorem getopts_reads_behind_word :
    let E := engine { name := "", main := default } false 1 5
    signalOf (runAll E [getopts ["ab", "x", "-ab"], getopts ["ab", "x", "-a"]] {}) = some (.stopped .crash) := by
  decide +kernel

end Act
end Machine
end ShellScript

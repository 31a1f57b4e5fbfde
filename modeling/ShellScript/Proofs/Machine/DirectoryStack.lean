import ShellScript.Proofs.Machine.ControlFlow
import ShellScript.Proofs.Text.Paths

-- `cd`, `pushd` and `popd` in a row. Where the variables for the two directories can be written, a command goes the whole
-- way or none of it, but for one case: one that goes to a directory of the stack changes the stack before it finds out
-- that it cannot go there.
namespace ShellScript
namespace Machine

open Run

-- What is written makes no directory and takes none away.

namespace FileSystem

theorem putEntry_eq (p : String) (e : Entry) (l : List (String × Entry)) : putEntry p e l = Table.insert p e l := by
  induction l with
  | nil => rfl
  | cons x l ih => simp [putEntry, Table.insert, ih]

theorem isDir_writeAt (fs : FileSystem) (p : String) (offset : Nat) (s : String) :
    (fs.writeAt p offset s).isDir = fs.isDir := by
  funext q
  unfold writeAt
  cases hp : fs.find? p with
  | none => rfl
  | some e =>
      rw [find?] at hp
      simp only [isDir, find?, put, putEntry_eq, Table.lookup_insert]
      split
      · rw [‹normalize q = normalize p›, hp]
        rfl
      · rfl

end FileSystem

theorem World.isDir_receive (w : World) (to_ : Stream) (text : String) :
    (w.receive to_ text).files.isDir = w.files.isDir := by
  cases to_ with
  | null | discard => rfl
  | channel i =>
      have hmodify (f : World → World) (s : State) : modifyWorld f s = .ok () { s with world := f s.world } := rfl
      simp only [receive, write, hmodify]
      split
      · rfl
      · exact FileSystem.isDir_writeAt ..
      · rfl

-- Where a directory is that is asked for, and the shell once it is there.
def Shell.destination (s : Shell) (d : String) : String := Path.clean (Path.resolve s.dir d)

def Shell.entered (s : Shell) (d : String) : Shell :=
  { s with
    dir := s.destination d
    env := (s.env.assign "OLDPWD" s.dir).assign "PWD" (s.destination d) }

def State.CanEnter (s : State) (d : String) : Prop := s.world.files.isDir (s.shell.destination d) = true

-- The variables for the directories are not read-only.
structure Shell.Movable (s : Shell) : Prop where
  pwd : ∀ v, s.env.get? "PWD" = some v → v.readOnly = false
  oldpwd : ∀ v, s.env.get? "OLDPWD" = some v → v.readOnly = false

theorem Shell.Movable.entered {s : Shell} (h : s.Movable) (d : String) : (s.entered d).Movable :=
  ⟨Env.not_readOnly_assign (Env.not_readOnly_assign h.pwd), Env.not_readOnly_assign (Env.not_readOnly_assign h.oldpwd)⟩

section Entering

variable {s : State} {d : String}

theorem State.canEnter_iff : s.CanEnter d ↔ ∃ e, s.world.files.find? (s.shell.destination d) = some e ∧ e.isDir = true := by
  rw [CanEnter, FileSystem.isDir]
  cases s.world.files.find? (s.shell.destination d) <;> simp

theorem changeDir_of_canEnter (hvars : s.shell.Movable) (h : s.CanEnter d) :
    Command.changeDir d s = .ok none { s with shell := s.shell.entered d } := by
  obtain ⟨e, hfind, hdir⟩ := State.canEnter_iff.mp h
  rw [Shell.destination] at hfind
  have hpwd : ∀ v, (s.shell.env.assign "OLDPWD" s.shell.dir).get? "PWD" = some v → v.readOnly = false :=
    Env.not_readOnly_assign hvars.pwd
  rw [Command.changeDir, shell_bind, world_bind]
  simp only [hfind, hdir, Bool.not_true, Bool.false_eq_true, if_false]
  rw [bind_of_ok (trySetVar_eq hvars.oldpwd _), modifyShell_bind, shell_bind]
  simp only [Env.set_eq hpwd]
  rfl

theorem changeDir_of_not_canEnter (h : ¬s.CanEnter d) : ∃ text, Command.changeDir d s = .ok (some text) s := by
  rw [State.canEnter_iff, Shell.destination] at h
  rw [Command.changeDir, shell_bind, world_bind]
  cases hfind : s.world.files.find? (Path.clean (Path.resolve s.shell.dir d)) with
  | none => exact ⟨_, rfl⟩
  | some e =>
      cases hdir : e.isDir with
      | true => exact absurd ⟨e, hfind, hdir⟩ h
      | false =>
          simp only [hdir]
          exact ⟨_, rfl⟩

theorem enter_of_canEnter (command : String) (then_ : Run Unit) (hvars : s.shell.Movable) (h : s.CanEnter d) :
    Command.enter command d then_ s = then_ { s with shell := s.shell.entered d } :=
  bind_of_ok (changeDir_of_canEnter hvars h) _

theorem enter_of_not_canEnter (command : String) (then_ : Run Unit) (h : ¬s.CanEnter d) :
    ∃ text, Command.enter command d then_ s = complainWith 1 text s := by
  obtain ⟨text, hrun⟩ := changeDir_of_not_canEnter h
  exact ⟨_, bind_of_ok hrun _⟩

end Entering

inductive DirCommand where
  | cd (args : List String)
  | pushd (args : List String)
  | popd (args : List String)

namespace DirCommand

def run (E : Engine) : DirCommand → Run Unit
  | cd args => runBuiltin E .cd "cd" args
  | pushd args => runBuiltin E .pushd "pushd" args
  | popd args => runBuiltin E .popd "popd" args

def runAll (E : Engine) : List DirCommand → Run Unit
  | [] => return
  | c :: cs => do
    c.run E
    runAll E cs

-- The directory that comes off the stack, and the stack without it.
def taken? (c : DirCommand) (s : Shell) : Option (String × List String) :=
  match c, s.dirs with
  | pushd [], top :: rest => some (top, s.dir :: rest)
  | popd _, top :: rest => some (top, rest)
  | _, _ => none

-- What a command makes of the shell.
inductive Makes (c : DirCommand) (s : State) : Shell → Prop
  -- it goes nowhere
  | refused (status : Int) (none_taken : c.taken? s.shell = none) (failed : status ≠ 0) : Makes c s { s.shell with status }
  | entered (d : String) (below : List String) (none_taken : c.taken? s.shell = none) (can : s.CanEnter d)
      (kept : below = s.shell.dirs ∨ below = s.shell.dir :: s.shell.dirs) :
      Makes c s { s.shell.entered d with dirs := below, status := 0 }
  | rotated (d : String) (below : List String) (taken : c.taken? s.shell = some (d, below)) (can : s.CanEnter d) :
      Makes c s { s.shell.entered d with dirs := below, status := 0 }
  -- the stack is another one, and that is all
  | stuck (d : String) (below : List String) (taken : c.taken? s.shell = some (d, below)) (cannot : ¬s.CanEnter d) :
      Makes c s { s.shell with dirs := below, status := 1 }

-- The state after a command, where the directories are those that were there.
def Leaves (c : DirCommand) (s t : State) : Prop := c.Makes s t.shell ∧ t.world.files.isDir = s.world.files.isDir

section Runs

variable {E : Engine} {s : State}

-- What follows once the directory is entered: the stack is set, something may be shown, and the status is good.
def Finishes (below : List String) (m : Run Unit) (s : State) : Prop :=
  ∃ t, m s = .ok () t ∧ t.shell = { s.shell with dirs := below, status := 0 } ∧ t.world.files.isDir = s.world.files.isDir

theorem finishes_setStatus (s : State) : Finishes s.shell.dirs (setStatus 0) s := ⟨_, rfl, rfl, rfl⟩

theorem finishes_print (text : String) (s : State) : Finishes s.shell.dirs (print text >>= fun _ => setStatus 0) s :=
  ⟨_, bind_of_ok (print_eq text s) _, rfl, World.isDir_receive ..⟩

theorem finishes_read {α : Type} {m : Run α} {a : α} {k : α → Run Unit} {below : List String} (hm : m s = .ok a s)
    (h : Finishes below (k a) s) : Finishes below (m >>= k) s := by
  obtain ⟨t, hrun, hrest⟩ := h
  exact ⟨t, (bind_of_ok hm k).trans hrun, hrest⟩

theorem finishes_push (dir : String) {below : List String} {k : Run Unit}
    (h : Finishes below k { s with shell := { s.shell with dirs := dir :: s.shell.dirs } }) :
    Finishes below (modifyShell (fun t => { t with dirs := dir :: t.dirs }) >>= fun _ => k) s := by
  obtain ⟨t, hrun, hshell, hfiles⟩ := h
  exact ⟨t, (modifyShell_bind _ _ _).trans hrun, hshell, hfiles⟩

theorem finishes_dirs (name : String) (s : State) : Finishes s.shell.dirs (Command.dirs name []) s := by
  have hread : Flags.read [('c', .switch), ('p', .switch), ('v', .switch)] [] = .ok {} := rfl
  have hon (l : Char) : Flags.on {} l = false := rfl
  rw [Command.dirs, Command.withFlags, hread]
  simp only [hon, Bool.false_eq_true, if_false]
  exact finishes_read (m := shell) rfl (finishes_read (m := valueOf "HOME") rfl (finishes_print _ s))

variable {c : DirCommand} {d : String} {below : List String}

theorem leaves_complain {status : Int} (text : String) (hstatus : status ≠ 0) (h : c.taken? s.shell = none) :
    ∃ t, complainWith status text s = .ok () t ∧ c.Leaves s t :=
  ⟨_, complainWith_eq .., .refused status h hstatus, World.isDir_receive ..⟩

theorem leaves_enter {command : String} {then_ : Run Unit} (hvars : s.shell.Movable) (hnone : c.taken? s.shell = none)
    (hbelow : below = s.shell.dirs ∨ below = s.shell.dir :: s.shell.dirs)
    (hthen : Finishes below then_ { s with shell := s.shell.entered d }) :
    ∃ t, Command.enter command d then_ s = .ok () t ∧ c.Leaves s t := by
  by_cases hcan : s.CanEnter d
  · obtain ⟨t, hrun, hshell, hfiles⟩ := hthen
    refine ⟨t, (enter_of_canEnter command then_ hvars hcan).trans hrun, ?_, hfiles⟩
    rw [hshell]
    exact .entered d below hnone hcan hbelow
  · obtain ⟨text, hrun⟩ := enter_of_not_canEnter command then_ hcan
    obtain ⟨t, hcomplain, hleaves⟩ := leaves_complain text Int.one_ne_zero hnone
    exact ⟨t, hrun.trans hcomplain, hleaves⟩

-- The directory comes off the stack, which is set before.
theorem leaves_rotate {command : String} (name : String) (hvars : s.shell.Movable)
    (htaken : c.taken? s.shell = some (d, below)) :
    ∃ t, Command.enter command d (Command.dirs name []) { s with shell := { s.shell with dirs := below } } = .ok () t ∧
      c.Leaves s t := by
  generalize hu : ({ s with shell := { s.shell with dirs := below } } : State) = u
  have hvars' : u.shell.Movable := hu ▸ ⟨hvars.pwd, hvars.oldpwd⟩
  by_cases hcan : u.CanEnter d
  · obtain ⟨t, hrun, hshell, hfiles⟩ := finishes_dirs name { u with shell := u.shell.entered d }
    refine ⟨t, (enter_of_canEnter command _ hvars' hcan).trans hrun, ?_, hfiles.trans (hu ▸ rfl)⟩
    subst hu
    rw [hshell]
    exact .rotated d below htaken hcan
  · obtain ⟨text, hrun⟩ := enter_of_not_canEnter command (Command.dirs name []) hcan
    refine ⟨_, hrun.trans (complainWith_eq ..), ?_, (World.isDir_receive ..).trans (hu ▸ rfl)⟩
    subst hu
    exact .stuck d below htaken hcan

theorem cd_leaves (hvars : s.shell.Movable) (args : List String) :
    ∃ t, run E (cd args) s = .ok () t ∧ (cd args).Leaves s t := by
  have hgo (d : String) : ∃ t, (if (d == "-") = true then
      valueOf "OLDPWD" >>= fun old => Command.enter "cd" old (shell >>= fun s => printLine s.dir >>= fun _ => setStatus 0)
    else Command.enter "cd" d (setStatus 0)) s = .ok () t ∧ (cd args).Leaves s t := by
    split
    · rw [bind_of_ok (m := valueOf "OLDPWD") rfl]
      exact leaves_enter hvars rfl (.inl rfl) (finishes_read (m := shell) rfl (finishes_print _ _))
    · exact leaves_enter hvars rfl (.inl rfl) (finishes_setStatus _)
  rw [run, runBuiltin, Command.cd, Command.withFlags]
  cases Flags.read [('L', .switch), ('P', .switch)] args with
  | error e => exact leaves_complain _ (by decide) rfl
  | ok f =>
      dsimp only
      rcases f.operands with _ | ⟨d, _ | ⟨_, _⟩⟩
      · exact hgo _
      · exact hgo d
      · exact leaves_complain _ (by decide) rfl

theorem pushd_leaves (hvars : s.shell.Movable) (args : List String) :
    ∃ t, run E (pushd args) s = .ok () t ∧ (pushd args).Leaves s t := by
  rw [run, runBuiltin, Command.pushd, shell_bind]
  cases args with
  | cons d rest => exact leaves_enter hvars rfl (.inr rfl) (finishes_push _ (finishes_dirs "pushd" _))
  | nil =>
      cases hdirs : s.shell.dirs with
      | nil => exact leaves_complain _ (by decide) (by simp [taken?, hdirs])
      | cons top rest => exact leaves_rotate _ hvars (by simp [taken?, hdirs])

theorem popd_leaves (hvars : s.shell.Movable) (args : List String) :
    ∃ t, run E (popd args) s = .ok () t ∧ (popd args).Leaves s t := by
  rw [run, runBuiltin, Command.popd, shell_bind]
  cases hdirs : s.shell.dirs with
  | nil => exact leaves_complain _ (by decide) (by simp [taken?, hdirs])
  | cons top rest => exact leaves_rotate _ hvars (by simp [taken?, hdirs])

theorem run_leaves (c : DirCommand) (hvars : s.shell.Movable) : ∃ t, c.run E s = .ok () t ∧ c.Leaves s t := by
  cases c with
  | cd args => exact cd_leaves hvars args
  | pushd args => exact pushd_leaves hvars args
  | popd args => exact popd_leaves hvars args

end Runs

-- A command that has failed has changed nothing, and one that has not is where the variables say.
structure AllOrNothing (s t : Shell) : Prop where
  failed : t.status ≠ 0 → t.dir = s.dir ∧ t.dirs = s.dirs ∧ t.env = s.env
  succeeded : t.status = 0 → t.env.value? "PWD" = some t.dir ∧ t.env.value? "OLDPWD" = some s.dir

theorem value?_entered (s : Shell) (d : String) :
    (s.entered d).env.value? "PWD" = some (s.destination d) ∧ (s.entered d).env.value? "OLDPWD" = some s.dir := by
  refine ⟨Env.value?_assign.trans (if_pos rfl), Env.value?_assign.trans ?_⟩
  rw [if_neg (by decide)]
  exact Env.value?_assign.trans (if_pos rfl)

-- The working directories and those of the stack that have a path from the root are still there.
def Standing (s : State) (p : String) : Prop := Path.isAbs p = true → Path.clean p = p ∧ s.world.files.isDir p = true

def Grounded (s : State) : Prop := ∀ p ∈ s.shell.dir :: s.shell.dirs, Standing s p

section Steps

variable {c : DirCommand} {s t : State} {shell : Shell} {d : String} {below : List String}

theorem of_taken (h : c.taken? s.shell = some (d, below)) :
    d ∈ s.shell.dirs ∧ ∀ p ∈ below, p ∈ s.shell.dir :: s.shell.dirs := by
  unfold taken? at h
  split at h
  · rename_i top rest hdirs
    cases h
    rw [hdirs]
    refine ⟨List.mem_cons_self, fun p hp => ?_⟩
    exact (List.mem_cons.mp hp).elim (· ▸ List.mem_cons_self) fun hp => List.mem_cons_of_mem _ (List.mem_cons_of_mem _ hp)
  · rename_i top rest hdirs
    cases h
    rw [hdirs]
    exact ⟨List.mem_cons_self, fun p hp => List.mem_cons_of_mem _ (List.mem_cons_of_mem _ hp)⟩
  · cases h

theorem Makes.allOrNothing (h : c.Makes s shell) (hcan : ∀ d below, c.taken? s.shell = some (d, below) → s.CanEnter d) :
    AllOrNothing s.shell shell := by
  cases h with
  | refused status hnone hfailed => exact ⟨fun _ => ⟨rfl, rfl, rfl⟩, fun hzero => absurd hzero hfailed⟩
  | entered d below | rotated d below => exact ⟨fun hfailed => absurd rfl hfailed, fun _ => value?_entered s.shell d⟩
  | stuck d below htaken hcannot => exact absurd (hcan d below htaken) hcannot

theorem Makes.eq_of_stuck (h : c.Makes s shell) (htaken : c.taken? s.shell = some (d, below)) (hcannot : ¬s.CanEnter d) :
    shell = { s.shell with dirs := below, status := 1 } := by
  cases h with
  | refused status hnone => cases hnone.symm.trans htaken
  | entered d below hnone => cases hnone.symm.trans htaken
  | rotated d below htaken' hcan =>
      cases htaken'.symm.trans htaken
      exact absurd hcan hcannot
  | stuck d below htaken' =>
      cases htaken'.symm.trans htaken
      rfl

theorem Makes.movable (h : c.Makes s shell) (hvars : s.shell.Movable) : shell.Movable := by
  cases h with
  | refused | stuck => exact ⟨hvars.pwd, hvars.oldpwd⟩
  | entered d | rotated d => exact ⟨(hvars.entered d).pwd, (hvars.entered d).oldpwd⟩

theorem standing_destination (h : s.CanEnter d) : Standing s (s.shell.destination d) := by
  intro habs
  rw [Shell.destination, Path.isAbs_clean] at habs
  exact ⟨Path.clean_clean habs, h⟩

theorem Makes.standing (h : c.Makes s shell) (hs : Grounded s) : ∀ p ∈ shell.dir :: shell.dirs, Standing s p := by
  intro p hp
  cases h with
  | refused => exact hs p hp
  | entered d below hnone hcan hkept =>
      rcases List.mem_cons.mp hp with rfl | hp
      · exact standing_destination hcan
      · rcases hkept with rfl | rfl
        · exact hs p (List.mem_cons_of_mem _ hp)
        · exact hs p hp
  | rotated d below htaken hcan =>
      rcases List.mem_cons.mp hp with rfl | hp
      · exact standing_destination hcan
      · exact hs p ((of_taken htaken).2 p hp)
  | stuck d below htaken =>
      rcases List.mem_cons.mp hp with rfl | hp
      · exact hs _ List.mem_cons_self
      · exact hs p ((of_taken htaken).2 p hp)

theorem Leaves.grounded (h : c.Leaves s t) (hs : Grounded s) : Grounded t := by
  intro p hp habs
  rw [h.2]
  exact h.1.standing hs p hp habs

theorem Grounded.canEnter (hs : Grounded s) (htaken : c.taken? s.shell = some (d, below)) (habs : Path.isAbs d = true) :
    s.CanEnter d := by
  obtain ⟨hclean, hdir⟩ := hs d (List.mem_cons_of_mem _ (of_taken htaken).1) habs
  have hdestination : s.shell.destination d = d := by
    rw [Shell.destination, Path.resolve, habs, Bool.or_true, if_pos rfl, hclean]
  rw [State.CanEnter, hdestination, hdir]

end Steps

theorem runAll_leaves (E : Engine) (cs : List DirCommand) {s : State} (hvars : s.shell.Movable) :
    ∃ u, runAll E cs s = .ok () u ∧ u.shell.Movable ∧ (Grounded s → Grounded u) := by
  induction cs generalizing s with
  | nil => exact ⟨s, rfl, hvars, id⟩
  | cons c cs ih =>
      obtain ⟨t, hrun, hleaves⟩ := run_leaves (E := E) c hvars
      obtain ⟨u, hrest, hmovable, hgrounded⟩ := ih (hleaves.1.movable hvars)
      exact ⟨u, (bind_of_ok hrun _).trans hrest, hmovable, hgrounded ∘ hleaves.grounded⟩

-- Whatever the commands in front of it were: a command that does not take its directory from the stack goes the whole way
-- or none of it, and so does one that can go where it is to go. Otherwise the stack has changed and nothing else. This does
-- not happen to a path from the root unless the stack was wrong from the beginning.
theorem directories_all_or_nothing (E : Engine) (s : State) (hvars : s.shell.Movable) (front : List DirCommand)
    (c : DirCommand) : ∃ u t, runAll E front s = .ok () u ∧ c.run E u = .ok () t ∧
      ((∀ d below, c.taken? u.shell = some (d, below) → u.CanEnter d) → AllOrNothing u.shell t.shell) ∧
      (∀ d below, c.taken? u.shell = some (d, below) → ¬u.CanEnter d →
        t.shell = { u.shell with dirs := below, status := 1 }) ∧
      (Grounded s → (∀ d below, c.taken? u.shell = some (d, below) → Path.isAbs d = true) →
        AllOrNothing u.shell t.shell) := by
  obtain ⟨u, hfront, hmovable, hgrounded⟩ := runAll_leaves E front hvars
  obtain ⟨t, hrun, hleaves⟩ := run_leaves (E := E) c hmovable
  refine ⟨u, t, hfront, hrun, hleaves.1.allOrNothing, fun d below => hleaves.1.eq_of_stuck, fun hs habs => ?_⟩
  exact hleaves.1.allOrNothing fun d below htaken => (hgrounded hs).canEnter htaken (habs d below htaken)

-- `pushd /; popd`.
theorem pushd_popd_all_or_nothing :
    let E := engine { name := "", main := default } false 1 5
    ∃ u t, runAll E [pushd ["/"]] {} = .ok () u ∧ (popd []).run E u = .ok () t ∧ AllOrNothing u.shell t.shell := by
  intro E
  have hvars : Shell.Movable {} := ⟨nofun, nofun⟩
  have hgrounded : Grounded {} := by
    intro p hp habs
    obtain rfl := List.mem_singleton.mp hp
    decide
  obtain ⟨u, t, hfront, hrun, -, -, hall⟩ := directories_all_or_nothing E {} hvars [pushd ["/"]] (popd [])
  refine ⟨u, t, hfront, hrun, hall hgrounded fun d below htaken => ?_⟩
  have hstack : (popd []).taken? (stateOf (runAll E [pushd ["/"]] {})).shell = some ("/", []) := by decide +kernel
  rw [hfront] at hstack
  cases hstack.symm.trans htaken
  decide

-- With `PWD` read-only the directory is another one when that is found out.
theorem cd_fails_in_new_directory :
    let E := engine { name := "", main := default } false 1 5
    let s : State := { shell := { dir := "/home", env := { scope := [("PWD", { value := "/home", readOnly := true })] } } }
    let t := stateOf ((cd ["/"]).run E s)
    t.shell.status = 1 ∧ t.shell.dir ≠ s.shell.dir := by
  decide +kernel

end DirCommand
end Machine
end ShellScript

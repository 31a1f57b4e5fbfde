import ShellScript.Proofs.Machine.Plain

-- The commands that run nothing else: whatever their arguments, they stay in their place. Those that take variables
-- away or replace the parameters are loose.
namespace ShellScript
namespace Machine
namespace Command

open Run

@[simp] theorem plain_withFlags (known : List (Char × FlagKind)) (name : String) (args : List String)
    {body : Flags → Run Unit} (h : ∀ f, Plain (body f)) : Plain (withFlags known name args body) := by
  unfold withFlags
  split
  · simp
  · exact h _

-- Output.

@[simp] theorem plain_echo (args : List String) : Plain (echo args) := by
  simp [echo]

@[simp] theorem plain_complainAll (ms : List String) : Plain (complainAll ms) := by
  induction ms with
  | nil => simp [complainAll]
  | cons m ms ih => simp [complainAll, ih]

@[simp] theorem plain_printf (args : List String) : Plain (printf args) := by
  unfold printf
  dsimp only
  split
  · simp
  · refine (plain_complainAll _).bind fun _ => (plain_setStatus _).bind fun _ => ?_
    split <;> simp

-- Directories.

@[simp] theorem plain_changeDir (dir : String) : Plain (changeDir dir) := by
  refine plain_shell.bind fun s => plain_world.bind fun w => ?_
  split
  · simp
  · split
    · simp
    · refine (plain_trySetVar _ _).bind fun _ => ?_
      refine Plain.bind (Plain.modifyShell fun _ => ⟨rfl, rfl⟩) fun _ => ?_
      refine Plain.ofShell fun t => ?_
      cases h : t.shell.env.set "PWD" (Path.clean (Path.resolve s.dir dir)) with
      | ok env =>
          exact Stays.bind (.withEnv t (Env.respects_set h)) fun _ u _ => .refl u
      | error f => exact .refl t

theorem plain_enter (command dir : String) {then_ : Run Unit} (h : Plain then_) : Plain (enter command dir then_) := by
  refine (plain_changeDir dir).bind fun r => ?_
  cases r with
  | some e => simp
  | none => exact h

@[simp] theorem plain_cd (name : String) (args : List String) : Plain (cd name args) := by
  refine plain_withFlags _ _ _ fun f => ?_
  have hgo : ∀ dir, Plain (if (dir == "-") = true then do
      enter "cd" (← valueOf "OLDPWD") (do printLine (← shell).dir; setStatus 0)
      else enter "cd" dir (setStatus 0)) := by
    intro dir
    split
    · exact (plain_valueOf _).bind fun _ => plain_enter _ _ (by simp)
    · exact plain_enter _ _ (by simp)
  dsimp only
  split
  · exact (plain_valueOf _).bind fun _ => hgo _
  · exact hgo _
  · simp

@[simp] theorem plain_pwd (name : String) (args : List String) : Plain (pwd name args) :=
  plain_withFlags _ _ _ fun _ => by simp

@[simp] theorem plain_dirs (name : String) (args : List String) : Plain (dirs name args) := by
  refine plain_withFlags _ _ _ fun f => ?_
  split
  · exact Plain.bind (Plain.modifyShell fun _ => ⟨rfl, rfl⟩) fun _ => plain_setStatus 0
  · refine plain_shell.bind fun s => (plain_valueOf _).bind fun home => ?_
    dsimp only
    split
    · simp
    · split <;> simp

@[simp] theorem plain_pushd (name : String) (args : List String) : Plain (pushd name args) := by
  refine plain_shell.bind fun s => ?_
  split
  · split
    · simp
    · refine Plain.bind (Plain.modifyShell fun _ => ⟨rfl, rfl⟩) fun _ => ?_
      exact plain_enter _ _ (plain_dirs _ _)
  · refine plain_enter _ _ ?_
    exact Plain.bind (Plain.modifyShell fun _ => ⟨rfl, rfl⟩) fun _ => plain_dirs _ _

@[simp] theorem plain_popd (name : String) : Plain (popd name) := by
  refine plain_shell.bind fun s => ?_
  split
  · simp
  · refine Plain.bind (Plain.modifyShell fun _ => ⟨rfl, rfl⟩) fun _ => ?_
    exact plain_enter _ _ (plain_dirs _ _)

-- Input.

@[simp] theorem plain_continueLine (from_ : Stream) (delim : Char) (n : Nat) (line : String) (ended : Bool) :
    Plain (continueLine from_ delim n line ended) := by
  induction n generalizing line ended with
  | zero => simp [continueLine]
  | succ n ih =>
      unfold continueLine
      split
      · exact (plain_readLine _ _).bind fun _ => ih _ _
      · simp

@[simp] theorem plain_setAll (values names : List String) : Plain (setAll values names) := by
  induction names generalizing values with
  | nil => simp [setAll]
  | cons n ns ih => exact (plain_setVar _ _).bind fun _ => ih _

theorem plain_read_finish (line separators : String) (names : List String) :
    Plain (read.finish line separators names) := by
  unfold read.finish
  split <;> simp

-- What follows a line, however it was read.
theorem plain_read_store (f : Flags) (line : String) (ended : Bool) :
    Plain (setStatus (if ended then 1 else 0) >>= fun _ => shell >>= fun t => match f.value? 'a' with
      | some array =>
        if array.isEmpty then read.finish line ((t.env.value? "IFS").getD " \t\n") f.operands
        else setArray array (splitLine ((t.env.value? "IFS").getD " \t\n") none line)
      | none => read.finish line ((t.env.value? "IFS").getD " \t\n") f.operands) := by
  refine (plain_setStatus _).bind fun _ => plain_shell.bind fun t => ?_
  split
  · split
    · exact plain_read_finish _ _ _
    · simp
  · exact plain_read_finish _ _ _

theorem plain_prompt (text : String) : Plain (prompt text) := by
  unfold prompt
  split <;> simp

@[simp] theorem plain_read (name : String) (args : List String) : Plain (read name args) := by
  refine plain_withFlags _ _ _ fun f => (plain_prompt _).bind fun _ => plain_shell.bind fun s => ?_
  dsimp only
  split
  · exact (plain_readChars _ _ _).bind fun r => plain_read_store f _ r.2
  · refine (plain_remaining _).bind fun rest => (plain_readLine _ _).bind fun r => ?_
    split
    · exact (plain_pure _).bind fun r => plain_read_store f _ r.2
    · exact (plain_continueLine _ _ _ _ _).bind fun r => plain_read_store f _ r.2

theorem loose_tryUnset (name : String) : Loose (tryUnset name) := by
  refine Loose.ofShell fun s => ?_
  cases h : s.shell.env.unset name with
  | ok env => exact .withEnv s (Env.protects_unset h)
  | error f => exact (State.Unmoved.refl s).undisturbed

theorem plain_setOptionPos (n : Nat) : Plain (modifyShell fun s => { s with optionPos := n }) :=
  Plain.modifyShell fun _ => ⟨rfl, rfl⟩

theorem loose_optionsEnd (name : String) (index : Nat) : Loose (optionsEnd name index) := by
  refine (plain_setOptionPos 0).loose.bind fun _ => (plain_setStatus 1).loose.bind fun _ => ?_
  exact (loose_tryUnset _).bind fun _ => Plain.loose (by simp)

@[simp] theorem plain_afterLetter (arg : String) (pos index : Nat) : Plain (afterLetter arg pos index) := by
  unfold afterLetter
  split
  · exact (plain_setOptionPos 0).bind fun _ => plain_pure _
  · exact (plain_setOptionPos pos).bind fun _ => plain_pure _

theorem loose_optionAt (letters : List Char) (silent : Bool) (name : String) (params : List String)
    (arg : String) (c : Char) (pos index : Nat) : Loose (optionAt letters silent name params arg c pos index) := by
  refine (plain_setStatus 0).loose.bind fun _ => ?_
  dsimp only
  split
  · refine (plain_afterLetter _ _ _).loose.bind fun _ => ?_
    split
    · exact Plain.loose (by simp)
    · exact (plain_complain _).loose.bind fun _ => (loose_tryUnset _).bind fun _ => Plain.loose (by simp)
  · split
    · refine (plain_setOptionPos 0).loose.bind fun _ => ?_
      split
      · exact Plain.loose (by simp)
      · refine (plain_trySetVar _ _).loose.bind fun _ => ?_
        split
        · exact Plain.loose (by simp)
        · exact (plain_complain _).loose.bind fun _ => (loose_tryUnset _).bind fun _ => Plain.loose (by simp)
    · refine (plain_afterLetter _ _ _).loose.bind fun _ => ?_
      exact (loose_tryUnset _).bind fun _ => Plain.loose (by simp)

-- Jobs.

@[simp] theorem plain_forget (j : Job) : Plain (forget j) := plain_modifyWorld fun _ => rfl

@[simp] theorem plain_waitEach (specs : List String) : Plain (waitEach specs) := by
  induction specs with
  | nil => simp [waitEach]
  | cons spec specs ih =>
      refine plain_world.bind fun w => ?_
      split <;> simp [ih]

@[simp] theorem plain_wait (args : List String) : Plain (wait args) := by
  refine (plain_setStatus 0).bind fun _ => ?_
  split <;> simp

@[simp] theorem plain_jobs (name : String) (args : List String) : Plain (jobs name args) :=
  plain_withFlags _ _ _ fun _ => by simp

@[simp] theorem plain_foreground (waits : Bool) (name : String) (args : List String) :
    Plain (foreground waits name args) := by
  refine plain_world.bind fun w => ?_
  split
  · simp
  · split <;> simp

@[simp] theorem plain_killEach (ts : List String) : Plain (killEach ts) := by
  induction ts with
  | nil => simp [killEach]
  | cons t ts ih =>
      refine plain_world.bind fun w => ?_
      dsimp only
      split
      · split <;> simp [ih]
      · exact ih

@[simp] theorem plain_killTargets (ts : List String) : Plain (killTargets ts) := by
  unfold killTargets
  split <;> simp

@[simp] theorem plain_killWith (spec : String) (args : List String) : Plain (killWith spec args) := by
  unfold killWith
  split <;> simp

@[simp] theorem plain_kill (args : List String) : Plain (kill args) := by
  unfold kill
  split
  · simp
  · split
    · simp
    · split
      · dsimp only
        split
        · split <;> simp
        · simp
      · simp

-- Names.

@[simp] theorem plain_materialize (p : Program) (id key : String) (rel : Nat → String) :
    Plain (materialize p id key rel) := by
  unfold materialize
  refine plain_ite ((plain_fail _).bind fun _ => ?_) ?_
  · exact plain_world.bind fun w => Plain.bind (plain_modifyWorld fun _ => rfl) fun _ => plain_pure _
  · exact plain_world.bind fun w => Plain.bind (plain_modifyWorld fun _ => rfl) fun _ => plain_pure _

@[simp] theorem plain_lookPath (p : Program) (name : String) : Plain (lookPath? p name) := by
  refine plain_shell.bind fun s => plain_world.bind fun w => ?_
  split
  · exact plain_pure _
  · split
    · split
      · exact plain_pure _
      · exact (plain_materialize _ _ _ _).bind fun path => plain_pure _
    · split
      · exact plain_pure _
      · split
        · exact Plain.bind (plain_modifyWorld fun _ => rfl) fun _ => plain_pure _
        · exact plain_pure _

@[simp] theorem plain_meaning (p : Program) (name : String) : Plain (meaning? p name) := by
  refine plain_shell.bind fun s => ?_
  split
  · exact plain_pure _
  · refine plain_ite (plain_pure _) (plain_ite (plain_pure _) ?_)
    exact (plain_lookPath p name).bind fun path => plain_pure _

@[simp] theorem plain_typeEach (p : Program) (short paths : Bool) (ns : List String) :
    Plain (typeEach p short paths ns) := by
  induction ns with
  | nil => simp [typeEach]
  | cons n ns ih =>
      refine (plain_meaning p n).bind fun m => ?_
      split
      · dsimp only
        split <;> simp [ih]
      · split
        · simp [ih]
        · split
          · split <;> simp [ih]
          · simp [ih]

@[simp] theorem plain_describeEach (p : Program) (long : Bool) (ns : List String) :
    Plain (describeEach p long ns) := by
  induction ns with
  | nil => simp [describeEach]
  | cons n ns ih =>
      refine (plain_meaning p n).bind fun m => ?_
      split
      · dsimp only
        split <;> simp [ih]
      · split
        · simp [ih]
        · split <;> simp [ih]

@[simp] theorem plain_hashEach (p : Program) (ns : List String) : Plain (hashEach p ns) := by
  induction ns with
  | nil => simp [hashEach]
  | cons n ns ih =>
      unfold hashEach
      split
      · refine (plain_lookPath p n).bind fun path => ?_
        dsimp only
        split <;> simp [ih]
      · exact ih

@[simp] theorem plain_printHashed (table : Table String) (ns : List String) : Plain (printHashed table ns) := by
  induction ns with
  | nil => simp [printHashed]
  | cons n ns ih => simp [printHashed, ih]

@[simp] theorem plain_hash (E : Engine) (name : String) (args : List String) : Plain (hash E name args) := by
  refine plain_withFlags _ _ _ fun f => (plain_setStatus 0).bind fun _ => ?_
  have hrest : Plain (if f.operands.isEmpty && !f.on 'r' then do
      let table := (← world).hash
      printHashed table table.sortedNames
    else hashEach E.program f.operands) :=
    plain_ite (plain_world.bind fun w => plain_printHashed _ _) (plain_hashEach _ _)
  exact plain_ite (Plain.bind (plain_modifyWorld fun _ => rfl) fun _ => hrest) hrest

@[simp] theorem plain_helpEach (ns : List String) : Plain (helpEach ns) := by
  induction ns with
  | nil => simp [helpEach]
  | cons n ns ih =>
      unfold helpEach
      split <;> simp [ih]

@[simp] theorem plain_help (args : List String) : Plain (help args) := by
  refine (plain_setStatus 0).bind fun _ => ?_
  split <;> simp

-- Settings.

theorem loose_withFlags (known : List (Char × FlagKind)) (name : String) (args : List String)
    {body : Flags → Run Unit} (h : ∀ f, Loose (body f)) : Loose (withFlags known name args body) := by
  unfold withFlags
  split
  · exact (plain_usage _ _).loose
  · exact h _

theorem loose_unsetEach (functions : Bool) (ns : List String) : Loose (unsetEach functions ns) := by
  induction ns with
  | nil => exact (plain_pure ()).loose
  | cons n ns ih =>
      unfold unsetEach
      dsimp only
      split
      · exact Loose.bind (.modifyShell fun _ => ⟨rfl, rfl⟩) fun _ => ih
      · refine Loose.ofShell fun s => ?_
        cases h : s.shell.env.unset n with
        | ok env => exact Stays.bind (.withEnv s (Env.protects_unset h)) fun _ t _ => ih t
        | error f => exact Stays.bind ((plain_complainWith _ _).loose s) fun _ t _ => ih t

theorem loose_unset (name : String) (args : List String) : Loose (unset name args) :=
  loose_withFlags _ _ _ fun _ => (plain_setStatus 0).loose.bind fun _ => loose_unsetEach _ _

theorem loose_setParams (args : List String) : Loose (setParams args) := .modifyShell fun _ => ⟨rfl, rfl⟩

theorem loose_shift (args : List String) : Loose (shift args) := by
  unfold shift
  dsimp only
  split
  · exact (plain_complainWith _ _).loose
  · refine plain_shell.loose.bind fun s => ?_
    split
    · exact (plain_setStatus 1).loose
    · exact Loose.bind (.modifyShell fun _ => ⟨rfl, rfl⟩) fun _ => (plain_setStatus 0).loose

@[simp] theorem plain_printOptions (table : Bool) : Plain (printOptions table) := by
  simp [printOptions]

theorem loose_setOptions (o : Program.Options) : Loose (modifyShell fun s => { s with options := o }) :=
  Loose.modifyShell fun _ => ⟨rfl, rfl⟩

theorem loose_setLetters (sign : Char) (rs : List Text.Rune) (args : List String) :
    Loose (setLetters sign rs args) := by
  induction rs generalizing args with
  | nil => exact (plain_pure _).loose
  | cons r rs ih =>
      unfold setLetters
      dsimp only
      refine plain_shell.loose.bind fun s => ?_
      split
      · split
        · exact Plain.loose (by simp)
        · split
          · exact (loose_setOptions _).bind fun _ => ih _
          · exact Plain.loose (by simp)
      · split
        · exact (loose_setOptions _).bind fun _ => ih _
        · exact Plain.loose (by simp)

theorem loose_setUnlessEmpty (args : List String) : Loose (setUnlessEmpty args) := by
  unfold setUnlessEmpty
  split
  · exact (plain_pure ()).loose
  · exact loose_setParams args

theorem loose_setFrom (n : Nat) (args : List String) : Loose (setFrom n args) := by
  induction n generalizing args with
  | zero => exact (plain_pure ()).loose
  | succ n ih =>
      cases args with
      | nil => exact (plain_pure ()).loose
      | cons a args =>
          unfold setFrom
          split
          · exact loose_setParams _
          · split
            · exact loose_setUnlessEmpty _
            · split
              · split
                · refine (loose_setLetters _ _ _).bind fun r => ?_
                  cases r with
                  | some args => exact ih args
                  | none => exact (plain_pure ()).loose
                · exact loose_setParams _
              · exact loose_setParams _

@[simp] theorem plain_printVars (ns : List String) : Plain (printVars ns) := by
  induction ns with
  | nil => simp [printVars]
  | cons n ns ih => simp [printVars, ih]

theorem loose_set (args : List String) : Loose (set args) := by
  refine (plain_setStatus 0).loose.bind fun _ => ?_
  split
  · exact Plain.loose (by simp)
  · exact loose_setFrom _ _

seal signalName? in
@[simp] theorem plain_trapEach (action : String) (sigs : List String) : Plain (trapEach action sigs) := by
  induction sigs with
  | nil => exact plain_pure ()
  | cons sig sigs ih =>
      unfold trapEach
      split
      · exact (plain_complainWith _ _).bind fun _ => ih
      · exact Plain.bind (Plain.modifyShell fun _ => ⟨rfl, rfl⟩) fun _ => ih

@[simp] theorem plain_printTraps (traps : Table String) (ns : List String) : Plain (printTraps traps ns) := by
  induction ns with
  | nil => simp [printTraps]
  | cons n ns ih => simp [printTraps, ih]

-- But for one list of arguments, `trap` has all that it reads.
theorem plain_trap {args : List String} (h : args ≠ ["--"]) : Plain (trap args) := by
  refine (plain_setStatus 0).bind fun _ => ?_
  split
  · simp
  · simp
  · simp
  · rename_i hflag hnil _
    dsimp only
    split
    · rename_i hargs
      split at hargs
      · exact absurd (congrArg (List.cons "--") hargs) h
      · exact absurd hargs hnil
    · simp
    · split <;> simp

@[simp] theorem plain_printAlias (name value : String) : Plain (printAlias name value) := plain_printLine _

@[simp] theorem plain_aliasEach (as : List String) : Plain (aliasEach as) := by
  induction as with
  | nil => simp [aliasEach]
  | cons a as ih =>
      unfold aliasEach
      split
      · exact Plain.bind (Plain.modifyShell fun _ => ⟨rfl, rfl⟩) fun _ => ih
      · refine plain_shell.bind fun s => ?_
        split <;> simp [ih]

@[simp] theorem plain_printAliases (aliases : Table String) (ns : List String) :
    Plain (printAliases aliases ns) := by
  induction ns with
  | nil => simp [printAliases]
  | cons n ns ih => simp [printAliases, ih]

@[simp] theorem plain_alias (args : List String) : Plain (alias_ args) := by
  refine (plain_setStatus 0).bind fun _ => ?_
  split <;> simp

@[simp] theorem plain_unaliasEach (ns : List String) : Plain (unaliasEach ns) := by
  induction ns with
  | nil => simp [unaliasEach]
  | cons n ns ih =>
      unfold unaliasEach
      dsimp only
      split
      · exact Plain.bind (Plain.modifyShell fun _ => ⟨rfl, rfl⟩) fun _ => ih
      · refine plain_shell.bind fun s => ?_
        split
        · exact Plain.bind (Plain.modifyShell fun _ => ⟨rfl, rfl⟩) fun _ => ih
        · simp [ih]

@[simp] theorem plain_unalias (args : List String) : Plain (unalias args) := by
  simp [unalias]

@[simp] theorem plain_test (name : String) (args : List String) : Plain (test name args) := by
  unfold test
  dsimp only
  split
  · simp
  · refine plain_get.bind fun s => ?_
    split <;> simp

end Command

theorem plain_programPath : Plain programPath :=
  plain_world.bind fun _ => (plain_valueOf "PATH").bind fun _ => plain_pure _

theorem plain_writeEach (streams : Streams) (texts : List (Bool × String)) : Plain (writeEach streams texts) := by
  induction texts with
  | nil => exact plain_pure ()
  | cons x rest ih => exact (plain_write _ _).bind fun _ => ih

-- Whatever a program does outside, the shell stays where it is.
@[simp] theorem plain_runExternal (p : Program) (assigns : List (String × String)) (name : String)
    (args : List String) : Plain (runExternal p assigns name args) := by
  refine (Command.plain_lookPath p name).bind fun path => ?_
  split
  · exact plain_complainWith _ _
  · refine plain_shell.bind fun s => plain_world.bind fun w => plain_programPath.bind fun search => ?_
    refine (plain_remaining _).bind fun input => Plain.bind (plain_modifyWorld fun _ => rfl) fun _ => ?_
    refine (plain_consume _ _).bind fun _ => (plain_writeEach _ _).bind fun _ => ?_
    split
    · exact plain_setStatus _
    · exact plain_setStatus _
    · exact plain_complainWith _ _

@[simp] theorem plain_trace (args : List String) : Plain (trace args) := by
  simp [trace]

@[simp] theorem plain_negate : Plain negate := Plain.modifyShell fun _ => ⟨rfl, rfl⟩

end Machine
end ShellScript

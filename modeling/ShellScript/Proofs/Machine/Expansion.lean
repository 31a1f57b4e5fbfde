import ShellScript.Proofs.Machine.Congruence

-- Expanding words and evaluating arithmetic respects every agreement: what two engines do with a word is related
-- if what they do with substitutions and with nested expressions is.
namespace ShellScript
namespace Machine

open Program (Word Part Param Arith Stmt Block Assign)
open Run

theorem mild_ofExcept {α : Type} (x : Except Failure α) : Mild (ofExcept x) := by
  cases x with
  | ok a => exact mild_pure a
  | error f => exact mild_fail f

theorem mild_unbound {α : Type} (name : String) : Mild (unbound name : Run α) := mild_fail _

theorem mild_separators : Mild separators := by
  simp [separators]

theorem mild_home (user : String) : Mild (home user) := by
  unfold home
  split
  · simp
  · exact mild_world.bind fun w => mild_pure _

theorem mild_matchFiles (f : List Fragment) : Mild (matchFiles f) := by
  refine mild_shell.bind fun s => ?_
  split
  · simp
  · exact mild_world.bind fun w => mild_pure _

theorem mild_matchAll (fs : List (List Fragment)) : Mild (matchAll fs) := by
  induction fs with
  | nil => exact mild_pure []
  | cons f fs ih => exact (mild_matchFiles f).bind fun _ => ih.bind fun _ => mild_pure _

theorem plain_target (local_ : Bool) (name : String) : Plain (target local_ name) := by
  refine Plain.bind (Plain.modifyEnv fun s => ?_) fun _ => by simp
  split
  · exact s.env.respects_declareLocal name
  · exact s.env.respects_declare name

theorem mild_target (local_ : Bool) (name : String) : Mild (target local_ name) := by
  refine ⟨plain_target local_ name, Steady.bind (steady_modifyShell fun _ => rfl) fun _ => ?_⟩
  exact steady_shell.bind fun _ => steady_pure _

theorem steady_putVar (name : String) (v : Var) : Steady (putVar name v) := steady_modifyShell fun _ => rfl

theorem steady_modifyVar (name : String) (f : Var → Var) : Steady (modifyVar name f) := steady_modifyShell fun _ => rfl

-- The variable that was made ready is the one that is there now.
theorem target_eq (local_ : Bool) (name : String) (s : State) : ∃ v, target local_ name s =
    .ok v { s with shell := { s.shell with
      env := if local_ then s.shell.env.declareLocal name else s.shell.env.declare name } } ∧
    (if local_ then s.shell.env.declareLocal name else s.shell.env.declare name).get? name = some v := by
  have hthere : ∃ v, (if local_ then s.shell.env.declareLocal name else s.shell.env.declare name).get? name =
      some v := by
    cases local_ with
    | true => exact ⟨_, (Env.get?_declareLocal ..).trans (if_pos rfl)⟩
    | false => exact ⟨_, (Env.get?_declare ..).trans (if_pos rfl)⟩
  obtain ⟨v, hv⟩ := hthere
  refine ⟨v, ?_, hv⟩
  exact congrArg (fun o : Option Var => EStateM.Result.ok (o.getD {}) _) hv

-- A variable is written only after its flag has been looked at.
theorem plain_putTarget (local_ : Bool) (name : String) (f : Var → Var) (hf : ∀ v, (f v).readOnly = v.readOnly) :
    Plain (do
      let v ← target local_ name
      if v.readOnly then fail (.ofText .readOnly name)
      putVar name (f v)) := by
  intro s
  refine Stays.bind (plain_target local_ name s) fun v t ht => ?_
  obtain ⟨w, hw, hget⟩ := target_eq local_ name s
  cases hw.symm.trans ht
  generalize (if local_ = true then _ else _ : Env) = env at hget ⊢
  split
  · exact State.Unmoved.refl _
  · rename_i hro
    rw [Bool.not_eq_true] at hro
    refine State.Unmoved.withEnv _ (Env.respects_put ?_ ((hf v).trans hro))
    rw [hget]
    exact hro

theorem mild_putTarget (local_ : Bool) (name : String) (f : Var → Var) (hf : ∀ v, (f v).readOnly = v.readOnly) :
    Mild (do
      let v ← target local_ name
      if v.readOnly then fail (.ofText .readOnly name)
      putVar name (f v)) := by
  refine ⟨plain_putTarget local_ name f hf, (mild_target local_ name).steady.bind fun v => ?_⟩
  split
  · exact (steady_throw _).bind fun _ => steady_putVar _ _
  · exact steady_putVar _ _

-- The text that an assignment gives to a variable: of a number its sum, else what is appended to it.
def textFor (E : Engine) (name value : String) (append : Bool) (v : Var) : Run String := do
  if v.integer then
    let n ← textValue E 0 value
    let old ← if append then do
        let s ← shell
        orZero (textValue E 0 ((s.env.get? name).getD {}).text)
      else pure 0
    return toString (Text.wrap64 (n + old))
  else return if append then v.text ++ value else value

theorem assignPlain_eq (E : Engine) (name value : String) (append local_ : Bool) :
    assignPlain E name value append local_ = writing local_ name (textFor E name value append) := by
  refine congrArg (target local_ name >>= ·) (funext fun v => ?_)
  cases hinteger : v.integer <;> cases append
  all_goals
    simp only [textFor, hinteger, Bool.false_eq_true, if_false, if_true, bind_assoc, pure_bind]
    rfl

namespace Agreement

variable {C : Agreement} {E E' : Engine}

-- Where variables may be changed at any time, there is nothing more to an assignment.
theorem writing (hmodify : ∀ name f, C.rel (modifyVar name f) (modifyVar name f)) (local_ : Bool) (name : String)
    {m m' : Var → Run String} (hm : ∀ v, C.rel (m v) (m' v)) :
    C.rel (writing local_ name m) (Machine.writing local_ name m') := by
  refine C.bind (C.mild (mild_target local_ name)) fun v => C.guard (mild_fail _) fun _ => ?_
  exact C.bind (hm v) fun value => hmodify name _

theorem place (h : C.Expands E E') (key : String) : C.rel (place E.program key) (place E'.program key) := by
  rw [h.program]
  refine C.mild ⟨Command.plain_materialize _ _ _ _, ?_⟩
  unfold Machine.place materialize
  dsimp only
  split
  · refine (steady_throw _).bind fun _ => steady_world.bind fun w => ?_
    exact (steady_modifyWorld _).bind fun _ => steady_pure _
  · exact steady_world.bind fun w => (steady_modifyWorld _).bind fun _ => steady_pure _

theorem compileArith (h : C.Expands E E') (text : String) :
    C.rel (compileArith E text) (compileArith E' text) := by
  unfold Machine.compileArith
  rw [h.compiles]
  refine C.mild ?_
  split
  · simp
  · split
    · simp
    · split <;> simp

theorem textValue (h : C.Expands E E') (depth : Nat) (v : String) :
    C.rel (textValue E depth v) (textValue E' depth v) := by
  unfold Machine.textValue
  dsimp only
  split
  · exact C.pure 0
  · split
    · exact C.mild (mild_ofExcept _)
    · split
      · exact h.eval depth _
      · exact C.bind (compileArith h _) fun x => h.eval depth x

mutual

theorem expandParts (h : C.Expands E E') (m : Splitting) (quoted : Bool) :
    ∀ (ps : List Part) (f : Fields), C.rel (expandParts E m quoted ps f) (expandParts E' m quoted ps f)
  | [], f => C.pure f
  | p :: ps, f => C.bind (expandPart h m quoted p f) fun f => expandParts h m quoted ps f
termination_by ps _ => sizeOf ps

theorem expandPart (h : C.Expands E E') (m : Splitting) (quoted : Bool) :
    ∀ (p : Part) (f : Fields), C.rel (expandPart E m quoted p f) (expandPart E' m quoted p f)
  | .lit text q, f => C.pure _
  | .quoted parts, f => expandParts h m true parts _
  | .param x, f => C.bind (param h x) fun v => C.pure _
  | .subst body, f => C.bind (h.capture body) fun text => C.pure _
  | .arith none, f => C.pure _
  | .arith (some x), f => C.bind (arith h 0 x) fun n => C.pure _
  | .brace sequence elems, f => C.pure _
  | .tilde user, f => C.bind (C.mild (mild_home user)) fun dir => C.pure _
  | .embedded key, f => C.bind (place h key) fun path => C.pure _
  | .runtimePath ⟨parts⟩ _, f => expandParts h m quoted parts f
termination_by p _ => sizeOf p
decreasing_by all_goals simp_wf <;> omega

theorem literal (h : C.Expands E E') : ∀ w : Word, C.rel (literal E w) (literal E' w)
  | ⟨parts⟩ => C.bind (C.mild mild_separators) fun ifs =>
      C.bind (expandParts h _ false parts {}) fun f => C.pure _
termination_by x => sizeOf x

theorem literalOpt (h : C.Expands E E') : ∀ w : Option Word, C.rel (literalOpt E w) (literalOpt E' w)
  | none => C.pure ""
  | some w => literal h w
termination_by x => sizeOf x

theorem patternOpt (h : C.Expands E E') : ∀ w : Option Word, C.rel (patternOpt E w) (patternOpt E' w)
  | none => C.pure ""
  | some ⟨parts⟩ => C.bind (C.mild mild_separators) fun ifs =>
      C.bind (expandParts h _ false parts {}) fun f => C.pure _
termination_by x => sizeOf x

theorem lookup (h : C.Expands E E') (name : String) :
    ∀ w : Option Word, C.rel (lookup E name w) (lookup E' name w)
  | none => C.shell fun s => C.pure _
  | some w => by
      simp only [Machine.lookup]
      refine C.shell fun s => ?_
      split
      · exact C.pure _
      · refine C.bind (literal h w) fun index => ?_
        split
        · exact C.mild (by simp)
        · split
          · exact C.mild (by simp)
          · exact C.bind (textValue h 0 index) fun i => C.mild (by simp)
termination_by x => sizeOf x

theorem assignElement (h : C.Expands E E') (name value : String) :
    ∀ w : Option Word, C.rel (assignElement E name value w) (assignElement E' name value w)
  | none => C.mild (mild_setVar name value)
  | some w => C.bind (literal h w) fun index => C.bind (textValue h 0 index) fun i =>
      C.mild (mild_setIndex name i value)
termination_by x => sizeOf x

theorem param (h : C.Expands E E') : ∀ x : Param, C.rel (param E x) (param E' x)
  | ⟨name, length, indirect, names, index, op, arg, repl⟩ => by
      unfold Machine.param
      have harg := literalOpt h arg
      have hrepl := literalOpt h repl
      have hpattern := patternOpt h arg
      refine C.shell fun s => ?_
      split
      · exact C.pure _
      · refine C.guard (mild_fail _) fun _ => C.bind (lookup h _ index) fun v => C.shell fun t => ?_
        refine C.ite (C.ite (C.pure _) (C.guard (mild_unbound _) fun _ => C.pure _)) ?_
        split
        · exact C.guard (mild_unbound _) fun _ => C.pure v
        · dsimp only
          split
          · exact C.ite (C.bind harg fun _ => C.pure _) (C.pure v)
          · exact C.ite (C.bind harg fun _ => C.pure _) (C.pure v)
          · exact C.ite (C.pure _) (C.bind harg fun _ => C.pure _)
          · exact C.ite (C.pure _) (C.bind harg fun _ => C.pure _)
          · refine C.ite (C.bind harg fun value => ?_) (C.pure v)
            exact C.guard (mild_fail _) fun _ => C.bind (assignElement h _ _ index) fun _ => C.pure _
          · refine C.ite (C.bind harg fun value => ?_) (C.pure v)
            exact C.guard (mild_fail _) fun _ => C.bind (assignElement h _ _ index) fun _ => C.pure _
          · exact C.ite (C.bind harg fun text => C.mild (mild_fail _)) (C.pure v)
          · exact C.ite (C.bind harg fun text => C.mild (mild_fail _)) (C.pure v)
          · refine C.guard (mild_unbound _) fun _ => C.shell fun u => ?_
            have hlatest : ∀ {c : Prop} [Decidable c] (target : String), C.rel
                (if c then Run.shell >>= fun w => Pure.pure (refreshed w.env target v) else Pure.pure v)
                (if c then Run.shell >>= fun w => Pure.pure (refreshed w.env target v) else Pure.pure v) :=
              fun _ => C.ite (C.shell fun _ => C.pure _) (C.pure v)
            split
            iterate 4 · exact C.bind hpattern fun _ => C.bind (hlatest _) fun _ => C.pure _
            iterate 4 · exact C.bind hpattern fun _ => C.bind hrepl fun _ => C.bind (hlatest _) fun _ => C.pure _
            iterate 4
              · refine C.ite (C.bind (C.pure "?") fun _ => ?_) (C.bind hpattern fun _ => ?_)
                · exact C.bind (hlatest _) fun _ => C.pure _
                · exact C.bind (hlatest _) fun _ => C.pure _
            refine C.bind harg fun text => C.bind (textValue h 0 text) fun offset => C.bind hrepl fun text => ?_
            refine C.ite (C.bind (C.pure none) fun limit => ?_)
              (C.bind (textValue h 0 text) fun n => C.bind (C.pure (some n)) fun limit => ?_)
            · exact C.bind (hlatest _) fun v => C.ite (C.shell fun _ => C.pure _) (C.pure _)
            · exact C.bind (hlatest _) fun v => C.ite (C.shell fun _ => C.pure _) (C.pure _)
termination_by x => sizeOf x
decreasing_by all_goals simp_wf <;> omega

theorem arithText (h : C.Expands E E') (name : String) :
    ∀ x : Option Arith, C.rel (arithText E name x) (arithText E' name x)
  | none => C.mild (by
      refine mild_shell.bind fun s => ?_
      split
      · simp
      · split
        · exact mild_unbound name
        · simp)
  | some x => C.bind (arith h 0 x) fun i => C.mild (by simp)
termination_by x => sizeOf x

theorem arithAssign (h : C.Expands E E') (name : String) (n : Int) :
    ∀ x : Option Arith, C.rel (arithAssign E name n x) (arithAssign E' name n x)
  | none => C.mild (mild_setVar name _)
  | some x => C.bind (arith h 0 x) fun i => C.mild (mild_setIndex name i _)
termination_by x => sizeOf x

theorem arith (h : C.Expands E E') (depth : Nat) : ∀ x : Arith, C.rel (arith E depth x) (arith E' depth x)
  | .num text => C.mild (mild_ofExcept _)
  | .var name index => C.bind (arithText h name index) fun v => textValue h (depth + 1) v
  | .word w => C.bind (literal h w) fun v => textValue h (depth + 1) v
  | .ternary cond yes no => by
      unfold Machine.arith
      refine C.bind (arith h depth cond) fun n => ?_
      split
      · exact arith h depth yes
      · split
        · exact arith h depth _
        · exact C.pure 0
  | .unary op post x => by
      unfold Machine.arith
      split
      · split
        · refine C.bind (arithText h _ _) fun v => C.bind (textValue h (depth + 1) v) fun old => ?_
          exact C.bind (arithAssign h _ _ _) fun _ => C.pure _
        · exact C.mild (mild_fail _)
      · exact C.bind (arith h depth x) fun n => C.mild (mild_ofExcept _)
  | .binary op x y => by
      unfold Machine.arith
      split
      · refine C.bind (arith h depth x) fun l => ?_
        split
        · exact C.pure _
        · exact C.bind (arith h depth y) fun r => C.pure _
      · split
        · exact C.bind (arith h depth x) fun _ => arith h depth y
        · split
          · split
            · refine C.bind (arith h depth y) fun r => ?_
              split
              · refine C.bind (arithText h _ _) fun v => C.bind (textValue h (depth + 1) v) fun l => ?_
                refine C.bind (C.mild (mild_ofExcept _)) fun r => ?_
                exact C.bind (arithAssign h _ _ _) fun _ => C.pure r
              · exact C.bind (C.pure r) fun r => C.bind (arithAssign h _ _ _) fun _ => C.pure r
            · exact C.mild (mild_fail _)
          · refine C.bind (arith h depth x) fun l => C.bind (arith h depth y) fun r => ?_
            exact C.mild (mild_ofExcept _)
termination_by x => sizeOf x
decreasing_by
  all_goals
    subst_vars
    simp_wf <;> omega

end

theorem arithAt (h : C.Expands E E') (depth : Nat) (x : Arith) :
    C.rel (arithAt E depth x) (arithAt E' depth x) :=
  C.ite (C.mild (mild_fail _)) (arith h depth x)

theorem arithOpt (h : C.Expands E E') (x : Option Arith) : C.rel (arithOpt E x) (arithOpt E' x) := by
  cases x with
  | none => exact C.pure 0
  | some x => exact arith h 0 x

theorem fragments (h : C.Expands E E') (w : Word) : C.rel (fragments E w) (fragments E' w) := by
  obtain ⟨parts⟩ := w
  exact C.bind (C.mild mild_separators) fun ifs => C.bind (expandParts h _ false parts {}) fun f => C.pure _

theorem patternOf (h : C.Expands E E') (w : Word) : C.rel (patternOf E w) (patternOf E' w) := patternOpt h (some w)

theorem expandChoices (h : C.Expands E E') (choices : List (List Part)) :
    C.rel (expandChoices E choices) (expandChoices E' choices) := by
  induction choices with
  | nil => exact C.pure []
  | cons parts rest ih =>
      refine C.bind (C.mild mild_separators) fun ifs => C.bind (expandParts h _ false parts {}) fun f => ?_
      exact C.bind (C.mild (mild_matchAll _)) fun here => C.bind ih fun more => C.pure _

theorem fields (h : C.Expands E E') (ws : List Word) : C.rel (fields E ws) (fields E' ws) := by
  induction ws with
  | nil => exact C.pure []
  | cons w ws ih => exact C.bind (expandChoices h _) fun here => C.bind ih fun more => C.pure _

theorem literals (h : C.Expands E E') (as : List Assign) : C.rel (literals E as) (literals E' as) := by
  induction as with
  | nil => exact C.pure []
  | cons a as ih => exact C.bind (literalOpt h a.value) fun v => C.bind ih fun more => C.pure _

theorem letEach (h : C.Expands E E') (n : Int) (args : List String) :
    C.rel (Command.letEach E n args) (Command.letEach E' n args) := by
  induction args generalizing n with
  | nil => exact C.pure n
  | cons a as ih => exact C.bind (textValue h 0 a) fun n => ih n

theorem loopItems (h : C.Expands E E') (inParams : Bool) (items : List Word) :
    C.rel (loopItems E inParams items) (loopItems E' inParams items) :=
  C.ite (C.shell fun s => C.pure s.params) (fields h items)

theorem matchesAny (h : C.Expands E E') (word : String) (ws : List Word) :
    C.rel (matchesAny E word ws) (matchesAny E' word ws) := by
  induction ws with
  | nil => exact C.pure false
  | cons w ws ih => exact C.bind (patternOf h w) fun p => C.ite (C.pure true) ih

-- Assignments.

theorem assignArray (h : C.Expands E E') (name : String) (append local_ : Bool) (words : List Word) :
    C.rel (assignArray E name append local_ words) (assignArray E' name append local_ words) := by
  refine C.bind (fields h words) fun values => C.mild ?_
  exact mild_putTarget local_ name (fun v =>
    { v with array := true, list := if append && v.array then v.list ++ values else values, value := "" }) fun _ => rfl

theorem assignIndexed (h : C.Expands E E') (name value : String) (append local_ : Bool) (index : Word) :
    C.rel (assignIndexed E name value append local_ index) (assignIndexed E' name value append local_ index) := by
  refine C.bind (literal h index) fun text => C.bind (textValue h 0 text) fun i => ?_
  exact C.bind (C.mild (mild_target local_ name)) fun v => C.mild (mild_setIndex _ _ _)

-- The number that a variable holds so far; one that cannot be read counts as zero.
theorem oldValue (h : C.Expands E E') (text : String) :
    C.rel (orZero (Machine.textValue E 0 text)) (orZero (Machine.textValue E' 0 text)) := by
  rw [orZero, orZero, tryCatch_eq_handled, tryCatch_eq_handled]
  refine C.handle (textValue h 0 text) (fun n => C.pure n) fun e => ?_
  cases e with
  | fail f => exact .inr ⟨fun _ => Signal.noConfusion, C.pure 0⟩
  | _ => exact .inl ⟨rfl, rfl⟩

theorem assignPlain (h : C.Expands E E') (name value : String) (append local_ : Bool) :
    C.rel (assignPlain E name value append local_) (assignPlain E' name value append local_) := by
  rw [assignPlain_eq, assignPlain_eq]
  refine h.write local_ name fun v => ?_
  unfold textFor
  refine C.ite (C.bind (textValue h 0 value) fun n => ?_) (C.pure _)
  refine C.ite (C.shell fun s => C.bind (oldValue h _) fun old => ?_) (C.bind (C.pure 0) fun old => ?_)
  · exact C.pure _
  · exact C.pure _

theorem assign (h : C.Expands E E') (a : Assign) (local_ : Bool) :
    C.rel (assign E a local_) (assign E' a local_) := by
  unfold Machine.assign
  split
  · exact assignArray h a.name a.append local_ _
  · refine C.bind (literalOpt h a.value) fun value => ?_
    split
    · exact assignIndexed h a.name value a.append local_ _
    · exact assignPlain h a.name value a.append local_

theorem assignAll (h : C.Expands E E') (as : List Assign) : C.rel (assignAll E as) (assignAll E' as) := by
  induction as with
  | nil => exact C.pure ()
  | cons a as ih => exact C.bind (assign h a false) fun _ => ih

end Agreement

theorem Congruence.let_ {C : Congruence} {E E' : Engine} (h : C.Expands E E') (args : List String) :
    C.rel (Command.let_ E args) (Command.let_ E' args) :=
  C.ite (C.plain (plain_usage _ _)) (C.bind (Agreement.letEach h 0 args) fun _ => C.plain (plain_setStatus _))

end Machine
end ShellScript

import ShellScript.Proofs.Dependency.KnownValue
import ShellScript.Proofs.Machine.FieldSplitting
import ShellScript.Proofs.Machine.SubshellForms

-- Known values across commands: which of them are still right when branches, loops and subshells are run as they stand,
-- and not one after the other as the script is looked through.
namespace ShellScript
namespace Dependency

open Script (WordPart ParamExp Command Assignment)
open Machine (Run Engine State Shell Signal Splitting Fields Channel Stream World Env Var engine)
open Machine.Run (bind_of_ok bind_of_error shell_bind)
open Program (Plan IndexReader Part Stmt lowerCommand lowerCommands lowerPart lowerEach)

-- All that is known in one place is known in the other.
def Below (vars vars' : List (String × String)) : Prop := ∀ n t, vars.lookup n = some t → vars'.lookup n = some t

theorem Right.mono {vars vars' : List (String × String)} {s : Shell} (h : Right vars' s) (hbelow : Below vars vars') :
    Right vars s := fun n t hn => h n t (hbelow n t hn)

-- A shell whose variables have the known values, and in which nothing runs that the script does not name. It has the
-- variables of one scope, and those called `names` hold texts.
structure Calm (names : List String) (vars : List (String × String)) (s : Shell) : Prop where
  right : Right vars s
  texts : ∀ a ∈ names, ∀ v, s.env.get? a = some v → IsText v
  depth : s.env.depth = 0
  untrapped : s.Untrapped
  functions : s.functions = []

section Calm

variable {names : List String} {vars vars' : List (String × String)} {s t : Shell}

theorem Calm.mono (h : Calm names vars' s) (hbelow : Below vars vars') : Calm names vars s :=
  { h with right := h.right.mono hbelow }

-- Only these three fields count.
theorem Calm.of_same (h : Calm names vars s) (henv : t.env = s.env) (htraps : t.traps = s.traps)
    (hfunctions : t.functions = s.functions) : Calm names vars t where
  right := by
    unfold Right
    rw [henv]
    exact h.right
  texts := by
    rw [henv]
    exact h.texts
  depth := by rw [henv, h.depth]
  untrapped := by
    unfold Shell.Untrapped
    rw [htraps]
    exact h.untrapped
  functions := hfunctions.trans h.functions

-- A variable of which nothing is known may get any value that is a text.
theorem Calm.withEnv (h : Calm names vars s) {name : String} {env : Env} (hdepth : env.depth = s.env.depth)
    (hname : vars.lookup name = none) (hothers : ∀ n, n ≠ name → env.get? n = s.env.get? n)
    (htext : name ∈ names → ∀ v, env.get? name = some v → IsText v) :
    Calm names vars { s with env } where
  right n t hn := by
    have hne : n ≠ name := by
      rintro rfl
      exact absurd hn (by simp [hname])
    rw [hothers n hne]
    exact h.right n t hn
  texts a ha v hv := by
    by_cases hne : a = name
    · subst hne
      exact htext ha v hv
    · rw [hothers a hne] at hv
      exact h.texts a ha v hv
  depth := hdepth.trans h.depth
  untrapped := h.untrapped
  functions := h.functions

end Calm

-- Runs.

-- What a computation comes to: the shell it ends in, also by a failure that the commands after it outlive, and by no
-- `break` or `continue`.
def Comes {α : Type} (Q : α → Shell → Prop) (R : Shell → Prop) : EStateM.Result Signal State α → Prop
  | .ok a t => Q a t.shell
  | .error (.fail f) t => f.isRecoverable = true → R t.shell
  | .error (.loop _ _) _ => False
  | .error _ _ => True

def Ensures {α : Type} (P : Shell → Prop) (m : Run α) (Q : α → Shell → Prop) (R : Shell → Prop) : Prop :=
  ∀ s : State, P s.shell → Comes Q R (m s)

section Ensures

variable {α β : Type} {P P' R R' : Shell → Prop} {Q Q' : α → Shell → Prop} {m : Run α}

theorem Comes.mono {r : EStateM.Result Signal State α} (h : Comes Q R r) (hQ : ∀ a s, Q a s → Q' a s)
    (hR : ∀ s, R s → R' s) : Comes Q' R' r := by
  cases r with
  | ok a t => exact hQ a t.shell h
  | error e t =>
      cases e with
      | fail f => exact fun hf => hR t.shell (h hf)
      | loop n next => exact h
      | _ => trivial

theorem Ensures.mono (h : Ensures P m Q R) (hP : ∀ s, P' s → P s) (hQ : ∀ a s, Q a s → Q' a s)
    (hR : ∀ s, R s → R' s) : Ensures P' m Q' R' := fun s hs => (h s (hP s.shell hs)).mono hQ hR

theorem Ensures.bind {Q' : β → Shell → Prop} {k : α → Run β} (hm : Ensures P m Q R)
    (hk : ∀ a, Ensures (Q a) (k a) Q' R) : Ensures P (m >>= k) Q' R := by
  intro s hs
  have hr := hm s hs
  cases h : m s with
  | ok a t =>
      rw [h] at hr
      rw [bind_of_ok h]
      exact hk a t hr
  | error e t =>
      rw [h] at hr
      rw [bind_of_error h]
      cases e with
      | fail f => exact hr
      | loop n next => exact hr
      | _ => trivial

theorem ensures_pure (a : α) (h : ∀ s, P s → Q a s) : Ensures P (pure a) Q R := fun s hs => h s.shell hs

-- What a bracket around a computation makes of it.
theorem Ensures.within {change : Shell → Shell} {restore : Shell → Shell → Shell} (hm : Ensures P' m Q' R')
    (hin : ∀ s, P s → P' (change s)) (hout : ∀ s a t, P s → Q' a t → Q a (restore s t))
    (hfail : ∀ s t, P s → R' t → R (restore s t)) : Ensures P (Machine.Run.within change restore m) Q R := by
  intro s hs
  have hr := hm { s with shell := change s.shell } (hin s.shell hs)
  rw [Machine.within_apply, Machine.Run.ensuring]
  cases h : m { s with shell := change s.shell } with
  | ok a t =>
      rw [h] at hr
      exact hout s.shell a t.shell hs hr
  | error e t =>
      rw [h] at hr
      cases e with
      | fail f => exact fun hf => hfail s.shell t.shell hs (hr hf)
      | loop n next => exact hr
      | _ => trivial

end Ensures

-- What a command makes of the known values.
abbrev Transfers (names : List String) (vars vars' : List (String × String)) (m : Run Unit) : Prop :=
  Ensures (Calm names vars) m (fun _ => Calm names vars') (Calm names vars')

-- What a list of commands makes of them. Nothing that ends only one of the commands leaves it.
abbrev TransfersAll (names : List String) (vars vars' : List (String × String)) (m : Run Unit) : Prop :=
  Ensures (Calm names vars) m (fun _ => Calm names vars') fun _ => False

-- Computations that leave the known values right, whatever they are and however they end.
def Spares (names : List String) (vars : List (String × String)) {α : Type} (m : Run α) : Prop :=
  Ensures (Calm names vars) m (fun _ => Calm names vars) (Calm names vars)

section Spares

variable {α β : Type} {names : List String} {vars : List (String × String)} {m : Run α} {E : Engine}

@[simp] theorem Spares.bind {k : α → Run β} (hm : Spares names vars m) (hk : ∀ a, Spares names vars (k a)) :
    Spares names vars (m >>= k) := Ensures.bind hm hk

@[simp] theorem spares_pure (a : α) : Spares names vars (pure a : Run α) := ensures_pure a fun _ h => h

@[simp] theorem Spares.map (f : α → β) (hm : Spares names vars m) : Spares names vars (f <$> m) := by
  rw [← bind_pure_comp]
  exact hm.bind fun a => spares_pure (f a)

@[simp] theorem spares_fail (f : Machine.Failure) : Spares names vars (Machine.Run.fail f : Run α) := fun _ h _ => h

@[simp] theorem spares_get : Spares names vars (get : Run State) := fun _ h => h

@[simp] theorem spares_shell : Spares names vars Machine.Run.shell := fun _ h => h

@[simp] theorem spares_world : Spares names vars Machine.Run.world := fun _ h => h

@[simp] theorem spares_modifyWorld (f : World → World) : Spares names vars (Machine.Run.modifyWorld f) := fun _ h => h

@[simp] theorem spares_setStatus (n : Int) : Spares names vars (Machine.Run.setStatus n) :=
  fun _ h => h.of_same rfl rfl rfl

@[simp] theorem spares_ite {c : Prop} [Decidable c] {m' : Run α} (h : Spares names vars m) (h' : Spares names vars m') :
    Spares names vars (if c then m else m') := by
  split <;> assumption

@[simp] theorem spares_write (to_ : Stream) (text : String) : Spares names vars (Machine.Run.write to_ text) := by
  cases to_ with
  | channel i => exact fun _ h => h
  | _ => exact spares_pure ()

@[simp] theorem spares_print (text : String) : Spares names vars (Machine.Run.print text) := by
  simp [Machine.Run.print]

@[simp] theorem spares_complain (text : String) : Spares names vars (Machine.Run.complain text) := by
  simp [Machine.Run.complain]

@[simp] theorem spares_complainWith (status : Int) (text : String) :
    Spares names vars (Machine.Run.complainWith status text) := by
  simp [Machine.Run.complainWith]

@[simp] theorem spares_newChannel (c : Channel) : Spares names vars (Machine.Run.newChannel c) := by
  simp [Machine.Run.newChannel]

@[simp] theorem spares_remaining (from_ : Stream) : Spares names vars (Machine.Run.remaining from_) := by
  unfold Machine.Run.remaining
  refine spares_world.bind fun w => ?_
  cases from_ with
  | channel i => dsimp only; split <;> exact spares_pure _
  | _ => exact spares_pure _

@[simp] theorem spares_consume (from_ : Stream) (n : Nat) : Spares names vars (Machine.Run.consume from_ n) := by
  cases from_ with
  | channel i => exact fun _ h => h
  | _ => exact spares_pure ()

@[simp] theorem spares_valueOf (name : String) : Spares names vars (Machine.Run.valueOf name) := by
  simp [Machine.Run.valueOf]

theorem spares_setVar {name : String} (hname : vars.lookup name = none) (value : String) :
    Spares names vars (Machine.Run.setVar name value) := by
  intro s hs
  have hkept (v : Var) (hv : name ∈ names → IsText v) :
      Calm names vars { s.shell with env := s.shell.env.put name v } := by
    refine hs.withEnv (Env.depth_put ..) hname (fun n hn => by rw [Env.get?_put, if_neg hn]) fun hmem w hw => ?_
    rw [Env.get?_put, if_pos rfl] at hw
    exact Option.some.inj hw ▸ hv hmem
  unfold Machine.Run.setVar
  rw [shell_bind]
  unfold Env.set
  cases hv : s.shell.env.get? name with
  | none => exact hkept { value } fun _ => ⟨rfl, rfl, rfl⟩
  | some v =>
      dsimp only
      split
      · exact fun _ => hs
      · refine hkept _ fun hmem => ?_
        obtain ⟨-, hinteger, hreadOnly⟩ := hs.texts name hmem v hv
        exact ⟨rfl, hinteger, hreadOnly⟩

-- A subshell gives back the shell around it.

theorem spares_inSubshell (change : Shell → Shell) (hm : Machine.Closed m) :
    Spares names vars (Machine.Run.inSubshell change m) := by
  have hends : Ensures (fun _ => True) m (fun _ _ => True) fun _ => True := by
    intro s _
    cases h : m s with
    | ok a t => trivial
    | error e t =>
        obtain ⟨why, rfl⟩ := hm s e t h
        trivial
  exact hends.within (fun _ _ => trivial) (fun _ _ _ hs _ => hs) fun _ _ hs _ => hs

@[simp] theorem spares_capture (body : Program.Block) : Spares names vars (Machine.capture E body) := by
  refine spares_world.bind fun w => (spares_newChannel _).bind fun out => ?_
  refine (spares_inSubshell _ (Machine.closed_code _)).bind fun c => (spares_setStatus c).bind fun _ => ?_
  exact spares_world.bind fun v => (spares_modifyWorld _).bind fun _ => spares_pure _

theorem spares_home (user : String) : Spares names vars (Machine.home user) := by
  unfold Machine.home
  split
  · exact spares_valueOf _
  · exact spares_world.bind fun w => spares_pure _

theorem spares_materialize (p : Program) (id key : String) (rel : Nat → String) :
    Spares names vars (Machine.materialize p id key rel) := by
  unfold Machine.materialize
  refine spares_ite ((spares_fail _).bind fun _ => ?_) ?_
  · exact spares_world.bind fun w => (spares_modifyWorld _).bind fun _ => spares_pure _
  · exact spares_world.bind fun w => (spares_modifyWorld _).bind fun _ => spares_pure _

theorem spares_matchFiles (f : List Machine.Fragment) : Spares names vars (Machine.matchFiles f) := by
  refine spares_shell.bind fun s => ?_
  split
  · exact spares_pure _
  · exact spares_world.bind fun w => spares_pure _

end Spares

-- Words.

-- A part of a word that is only looked up, or that runs apart.
inductive CalmPart : Part → Prop where
  | lit (s : String) (quoted : Bool) : CalmPart (.lit s quoted)
  | quoted {ps : List Part} : (∀ p ∈ ps, CalmPart p) → CalmPart (.quoted ps)
  | param (x : ParamExp) (arg repl : Option Program.Word) :
      CalmPart (.param ⟨x.name, false, false, x.names, none, none, arg, repl⟩)
  | subst (body : Program.Block) : CalmPart (.subst body)
  | tilde (user : String) : CalmPart (.tilde user)
  | embedded (key : String) : CalmPart (.embedded key)
  | runtimePath {ps : List Part} (expr : String) : (∀ p ∈ ps, CalmPart p) → CalmPart (.runtimePath ⟨ps⟩ expr)

section Words

variable {names : List String} {vars : List (String × String)} {E : Engine} {ps : List Part}

theorem spares_expandParts (h : ∀ p ∈ ps, ∀ m quoted f, Spares names vars (Machine.expandPart E m quoted p f))
    (m : Splitting) (quoted : Bool) (f : Fields) : Spares names vars (Machine.expandParts E m quoted ps f) := by
  induction ps generalizing f with
  | nil => exact spares_pure f
  | cons p ps ih =>
      rw [Machine.expandParts]
      exact (h p List.mem_cons_self m quoted f).bind (ih fun q hq => h q (List.mem_cons_of_mem _ hq))

theorem spares_expandPart {p : Part} (h : CalmPart p) : ∀ m quoted f,
    Spares names vars (Machine.expandPart E m quoted p f) := by
  induction h with
  | lit s q =>
      intro m quoted f
      exact spares_pure _
  | quoted _ ih =>
      intro m quoted f
      rw [Machine.expandPart]
      exact spares_expandParts ih m true _
  | param x arg repl =>
      intro m quoted f
      rw [Machine.expandPart]
      refine Spares.bind (fun s hs => ?_) fun v => spares_pure _
      rw [Machine.param_plain]
      split
      · exact hs
      · exact fun _ => hs
  | subst body =>
      intro m quoted f
      rw [Machine.expandPart]
      exact (spares_capture body).bind fun t => spares_pure _
  | tilde user =>
      intro m quoted f
      rw [Machine.expandPart]
      exact (spares_home user).bind fun dir => spares_pure _
  | embedded key =>
      intro m quoted f
      rw [Machine.expandPart]
      exact (spares_materialize _ _ _ _).bind fun path => spares_pure _
  | runtimePath expr _ ih =>
      intro m quoted f
      rw [Machine.expandPart]
      exact spares_expandParts ih m quoted f

theorem expand_calm (h : ∀ p ∈ ps, CalmPart p) : Machine.Brace.expand ps = [ps] := by
  induction ps with
  | nil => rfl
  | cons p ps ih =>
      have hp : Machine.Brace.alternatives p = [[p]] := by cases h p List.mem_cons_self <;> rfl
      rw [Machine.Brace.expand, hp, ih fun q hq => h q (List.mem_cons_of_mem _ hq)]
      rfl

theorem spares_matchAll (fs : List (List Machine.Fragment)) : Spares names vars (Machine.matchAll fs) := by
  induction fs with
  | nil => exact spares_pure _
  | cons f fs ih => exact (spares_matchFiles f).bind fun here => ih.bind fun more => spares_pure _

theorem spares_separators : Spares names vars Machine.separators := by
  simp [Machine.separators]

-- A word that is not split.
theorem spares_literal {w : Program.Word} (h : ∀ p ∈ w.parts, CalmPart p) :
    Spares names vars (Machine.literal E w) := by
  obtain ⟨ps⟩ := w
  rw [Machine.literal]
  refine spares_separators.bind fun separators => ?_
  exact (spares_expandParts (fun p hp => spares_expandPart (h p hp)) _ _ _).bind fun f => spares_pure _

theorem spares_patternOf {w : Program.Word} (h : ∀ p ∈ w.parts, CalmPart p) :
    Spares names vars (Machine.patternOf E w) := by
  obtain ⟨ps⟩ := w
  rw [Machine.patternOf, Machine.patternOpt]
  refine spares_separators.bind fun separators => ?_
  exact (spares_expandParts (fun p hp => spares_expandPart (h p hp)) _ _ _).bind fun f => spares_pure _

theorem spares_fields {ws : List Program.Word} (h : ∀ w ∈ ws, ∀ p ∈ w.parts, CalmPart p) :
    Spares names vars (Machine.fields E ws) := by
  induction ws with
  | nil => exact spares_pure _
  | cons w ws ih =>
      have hw := h w List.mem_cons_self
      have hparts (m : Splitting) (f : Fields) : Spares names vars (Machine.expandParts E m false w.parts f) :=
        spares_expandParts (fun p hp => spares_expandPart (hw p hp)) m false f
      have hchoices : Spares names vars (Machine.expandChoices E [w.parts]) :=
        spares_separators.bind fun separators => (hparts _ _).bind fun f =>
          (spares_matchAll _).bind fun here => (spares_pure _).bind fun more => spares_pure _
      rw [Machine.fields, expand_calm hw]
      exact hchoices.bind fun here => (ih fun w hw => h w (List.mem_cons_of_mem _ hw)).bind fun more => spares_pure _

end Words

-- The words of a script that become such ones.

mutual

def isCalmPart : WordPart → Bool
  | .lit .. => true
  | .single .. => true
  | .double _ _ ps => areCalm ps
  | .param _ x => x.op.isNone && !x.length && !x.indirect && x.index.isNone
  | .command .. => true
  | _ => false

def areCalm : List WordPart → Bool
  | [] => true
  | p :: ps => isCalmPart p && areCalm ps

end

theorem calm_litPartsFrom (cur cs : List Char) : ∀ p ∈ Program.litPartsFrom cur cs, CalmPart p := by
  fun_induction Program.litPartsFrom cur cs with
  | case1 => exact List.forall_mem_nil _
  | case2 cur hcur => exact List.forall_mem_singleton.mpr (.lit _ _)
  | case3 cur cs ih => exact ih
  | case4 cur c cs hc rest hcur ih => exact List.forall_mem_cons.mpr ⟨.lit _ _, ih⟩
  | case5 cur c cs hc rest hcur ih =>
      exact List.forall_mem_cons.mpr ⟨.lit _ _, List.forall_mem_cons.mpr ⟨.lit _ _, ih⟩⟩
  | case6 cur c cs _ _ ih => exact ih

theorem calm_litParts (s : String) : ∀ p ∈ Program.litParts s, CalmPart p := by
  unfold Program.litParts
  split
  · exact List.forall_mem_singleton.mpr (.lit _ _)
  · exact calm_litPartsFrom [] s.toList

section Lowering

variable {u : Plan} {index : IndexReader}

mutual

theorem calm_lowerPart (quoted : Bool) : ∀ (p : WordPart) (d : Array Diagnostic), isCalmPart p = true →
    ∀ x ∈ ((lowerPart u index (Machine.quotingOf quoted) p).run d).1, CalmPart x
  | .lit _ s, d, _ => by
      cases quoted with
      | true => exact List.forall_mem_singleton.mpr (.lit _ _)
      | false => exact calm_litParts s
  | .single _ dollar s, d, _ => List.forall_mem_singleton.mpr (.lit _ _)
  | .double _ _ ps, d, h => List.forall_mem_singleton.mpr (.quoted (calm_lowerEach true ps d h))
  | .param _ ⟨short, name, length, indirect, names, idx, op, arg, repl⟩, d, h => by
      have hplain : ((op = none ∧ length = false) ∧ indirect = false) ∧ idx = none := by simpa [isCalmPart] using h
      obtain ⟨⟨⟨hop, hlength⟩, hindirect⟩, hidx⟩ := hplain
      subst hop hlength hindirect hidx
      exact List.forall_mem_singleton.mpr (.param ⟨short, name, false, false, names, none, none, arg, repl⟩ _ _)
  | .command _ body _, d, _ => List.forall_mem_singleton.mpr (.subst _)
  | .arith .., _, h => absurd h (by simp [isCalmPart])
  | .brace .., _, h => absurd h (by simp [isCalmPart])
  | .process .., _, h => absurd h (by simp [isCalmPart])

theorem calm_lowerEach (quoted : Bool) : ∀ (ps : List WordPart) (d : Array Diagnostic), areCalm ps = true →
    ∀ x ∈ ((lowerEach u index (Machine.quotingOf quoted) ps).run d).1.flatten, CalmPart x
  | [], _, _ => List.forall_mem_nil _
  | p :: ps, d, h => by
      obtain ⟨hp, hps⟩ : isCalmPart p = true ∧ areCalm ps = true := by simpa [areCalm] using h
      intro x hx
      rcases List.mem_append.mp hx with hx | hx
      · exact calm_lowerPart quoted p d hp x hx
      · exact calm_lowerEach quoted ps _ hps x hx

end

theorem calm_withTilde (ps : List WordPart) {each : List (List Part)} (h : ∀ x ∈ each.flatten, CalmPart x) :
    ∀ x ∈ Program.withTilde ps each, CalmPart x := by
  unfold Program.withTilde
  split
  · split
    · rename_i user tail _
      have htail : ∀ x ∈ Program.litUnlessEmpty tail, CalmPart x := by
        unfold Program.litUnlessEmpty
        split
        · exact List.forall_mem_nil _
        · exact calm_litParts tail
      refine List.forall_mem_append.mpr ⟨List.forall_mem_cons.mpr ⟨.tilde user, htail⟩, fun x hx => h x ?_⟩
      obtain ⟨l, hl, hxl⟩ := List.mem_flatten.mp hx
      exact List.mem_flatten.mpr ⟨l, List.mem_of_mem_drop hl, hxl⟩
    · exact h
  · exact h

theorem calm_lowerWord (w : Script.Word) (d : Array Diagnostic) (h : areCalm w.parts = true) :
    ∀ x ∈ ((Program.lowerWord u index w).run d).1.parts, CalmPart x := by
  obtain ⟨ps⟩ := w
  have hparts := calm_withTilde ps (@calm_lowerEach u index false ps d h)
  have hlower : ((Program.lowerWord u index ⟨ps⟩).run d).1 =
      Program.bindPath u ⟨ps⟩ ⟨Program.withTilde ps ((lowerEach u index .none ps).run d).1⟩ := rfl
  rw [hlower, Program.bindPath]
  split
  · exact hparts
  · exact List.forall_mem_singleton.mpr (.embedded _)
  · exact List.forall_mem_singleton.mpr (.runtimePath _ hparts)

theorem calm_lowerWords : ∀ (ws : List Script.Word) (d : Array Diagnostic), (∀ w ∈ ws, areCalm w.parts = true) →
    ∀ w ∈ ((Program.lowerWords u index ws).run d).1, ∀ x ∈ w.parts, CalmPart x
  | [], _, _ => List.forall_mem_nil _
  | w :: ws, d, h => List.forall_mem_cons.mpr ⟨calm_lowerWord w d (h w List.mem_cons_self),
      calm_lowerWords ws _ fun w hw => h w (List.mem_cons_of_mem _ hw)⟩

end Lowering

-- Commands.

-- A word that stands for itself.
structure IsPlainText (s : String) : Prop where
  backslash : '\\' ∉ s.toList
  tilde : s.toList.head? ≠ some '~'
  pattern : Pattern.hasMeta s.toList = false

def textWord (p : Position) (s : String) : Script.Word := ⟨[.lit p s]⟩

-- The commands that leave all variables as they are: those that are no builtins, and some that are.
def isHarmless (name : String) : Bool :=
  (Builtin.ofName? name).all [.colon, .true_, .false_, .echo, .test].contains

section Commands

variable {names : List String} {vars : List (String × String)} {E : Engine} {u : Plan} {index : IndexReader}
  {text : String}

theorem litParts_plain (h : IsPlainText text) : Program.litParts text = [.lit text false] := by
  unfold Program.litParts
  split
  · rename_i hempty
    have hnil : text = "" := by simpa using hempty
    rw [hnil]
  · rename_i hempty
    have hne : text.toList ≠ [] := by simpa using hempty
    rw [Program.litPartsFrom_of_plain [] _ h.backslash (.inr hne)]
    simp

theorem withTilde_plain (h : IsPlainText text) (p : Position) (each : List (List Part)) :
    Program.withTilde [.lit p text] each = each.flatten := by
  have htilde : Program.tilde? text = none := by
    unfold Program.tilde?
    split
    · rename_i heq
      exact absurd (congrArg List.head? heq) h.tilde
    · rfl
  rw [Program.withTilde, htilde]

theorem lowerPlain_plain (h : IsPlainText text) (p : Position) (d : Array Diagnostic) :
    (Program.lowerPlain u index (textWord p text)).run d = (⟨[.lit text false]⟩, d) := by
  have hlower : (Program.lowerPlain u index (textWord p text)).run d =
      (⟨Program.withTilde [.lit p text] [Program.litParts text]⟩, d) := rfl
  rw [hlower, withTilde_plain h, litParts_plain h]
  rfl

theorem fields_cons (h : IsPlainText text) (ws : List Program.Word) :
    Machine.fields E (⟨[.lit text false]⟩ :: ws) = (do return text :: (← Machine.fields E ws)) := by
  funext s
  have hmatch : Machine.matchAll [[⟨text, false⟩]] s = .ok [text] s := by
    rw [Machine.matchAll_plain (.inr (List.forall_mem_singleton.mpr (by simp [Machine.Fragment.hasMeta, h.pattern])))]
    simp [Machine.Fragment.plain]
  have hchoices : Machine.expandChoices E [[.lit text false]] s = .ok [text] s := by
    have heq : Machine.expandChoices E [[.lit text false]] s =
        (Machine.matchAll [[⟨text, false⟩]] >>= fun here => pure (here ++ [])) s := rfl
    rw [heq, bind_of_ok hmatch]
    rfl
  have heq : Machine.fields E (⟨[.lit text false]⟩ :: ws) s = (Machine.expandChoices E [[.lit text false]] >>= fun here =>
      Machine.fields E ws >>= fun more => pure (here ++ more)) s := rfl
  rw [heq, bind_of_ok hchoices]
  rfl

theorem spares_lookPath (p : Program) (name : String) : Spares names vars (Machine.Command.lookPath? p name) := by
  unfold Machine.Command.lookPath?
  refine spares_shell.bind fun s => spares_world.bind fun w => ?_
  split
  · exact spares_pure _
  · split
    · exact spares_ite (spares_pure _) ((spares_materialize _ _ _ _).bind fun path => spares_pure _)
    · split
      · exact spares_pure _
      · split
        · exact (spares_modifyWorld _).bind fun _ => spares_pure _
        · exact spares_pure _

theorem spares_writeEach (streams : Machine.Streams) (texts : List (Bool × String)) :
    Spares names vars (Machine.writeEach streams texts) := by
  induction texts with
  | nil => exact spares_pure ()
  | cons x rest ih => exact (spares_write _ _).bind fun _ => ih

theorem spares_runExternal (p : Program) (assigns : List (String × String)) (name : String) (args : List String) :
    Spares names vars (Machine.runExternal p assigns name args) := by
  refine (spares_lookPath p name).bind fun path => ?_
  split
  · exact spares_complainWith _ _
  · refine spares_shell.bind fun s => spares_world.bind fun w => ?_
    have hpath : Spares names vars Machine.programPath := by simp [Machine.programPath]
    refine hpath.bind fun search => (spares_remaining _).bind fun input => (spares_modifyWorld _).bind fun _ => ?_
    refine (spares_consume _ _).bind fun _ => (spares_writeEach _ _).bind fun _ => ?_
    split
    · exact spares_setStatus _
    · exact spares_setStatus _
    · exact spares_complainWith _ _

theorem spares_harmless {b : Builtin} (h : b ∈ [Builtin.colon, .true_, .false_, .echo, .test]) (name : String)
    (args : List String) : Spares names vars (Machine.runBuiltin E b name args) := by
  simp only [List.mem_cons, List.not_mem_nil, or_false] at h
  rcases h with rfl | rfl | rfl | rfl | rfl
  · exact spares_setStatus 0
  · exact spares_setStatus 0
  · exact spares_setStatus 1
  · exact (spares_print _).bind fun _ => spares_setStatus 0
  · simp only [Machine.runBuiltin]
    unfold Machine.Command.test
    dsimp only
    split
    · exact spares_complainWith _ _
    · refine spares_get.bind fun s => ?_
      split
      · exact spares_complainWith _ _
      · exact spares_setStatus _

theorem spares_setAll {ns : List String} (h : ∀ n ∈ ns, vars.lookup n = none) (values : List String) :
    Spares names vars (Machine.Command.setAll values ns) := by
  induction ns generalizing values with
  | nil => exact spares_pure ()
  | cons n ns ih =>
      exact (spares_setVar (h n List.mem_cons_self) _).bind fun _ => ih (fun m hm => h m (List.mem_cons_of_mem _ hm)) _

theorem spares_readLine (from_ : Stream) (delim : Char) : Spares names vars (Machine.Run.readLine from_ delim) :=
  (spares_remaining _).bind fun _ => (spares_consume _ _).bind fun _ => spares_pure _

theorem spares_readChars (from_ : Stream) (n : Nat) (delim : Char) :
    Spares names vars (Machine.Run.readChars from_ n delim) := by
  refine (spares_remaining _).bind fun rest => ?_
  dsimp only
  split
  · exact (spares_consume _ _).bind fun _ => spares_pure _
  · exact (spares_consume _ _).bind fun _ => spares_pure _

theorem spares_continueLine (from_ : Stream) (delim : Char) (n : Nat) (line : String) (ended : Bool) :
    Spares names vars (Machine.Command.continueLine from_ delim n line ended) := by
  induction n generalizing line ended with
  | zero => exact spares_pure _
  | succ n ih =>
      unfold Machine.Command.continueLine
      split
      · exact (spares_readLine from_ delim).bind fun more => ih _ _
      · exact spares_pure _

theorem spares_prompt (text : String) : Spares names vars (Machine.Command.prompt text) := by
  unfold Machine.Command.prompt
  split
  · exact spares_pure ()
  · exact spares_shell.bind fun s => spares_write _ _

theorem spares_readFinish {ns : List String} (hns : ns ≠ []) (h : ∀ n ∈ ns, vars.lookup n = none)
    (line separators : String) : Spares names vars (Machine.Command.read.finish line separators ns) := by
  unfold Machine.Command.read.finish
  split
  · exact absurd rfl hns
  · exact spares_setAll h _

-- `read` writes the variables that it is given.
theorem spares_read {f : Machine.Flags} {args : List String}
    (hf : Machine.Flags.read Machine.Command.readFlags args = .ok f) (harray : f.value? 'a' = none)
    (hoperands : f.operands ≠ []) (h : ∀ n ∈ f.operands, vars.lookup n = none) (name : String) :
    Spares names vars (Machine.Command.read name args) := by
  unfold Machine.Command.read Machine.Command.withFlags
  rw [hf]
  refine (spares_prompt _).bind fun _ => spares_shell.bind fun s => ?_
  rw [harray]
  have hend (line : String) (ended : Bool) : Spares names vars (do
      Machine.Run.setStatus (if ended then 1 else 0)
      Machine.Command.read.finish line (((← Machine.Run.shell).env.value? "IFS").getD " \t\n") f.operands) :=
    (spares_setStatus _).bind fun _ => spares_shell.bind fun t => spares_readFinish hoperands h _ _
  dsimp only
  split
  · exact (spares_readChars _ _ _).bind fun r => hend _ r.2
  · refine (spares_remaining _).bind fun rest => (spares_readLine _ _).bind fun r => ?_
    split
    · exact (spares_pure _).bind fun r => hend _ r.2
    · exact (spares_continueLine _ _ _ _ _).bind fun r => hend _ r.2

-- With one scope there is no other variable behind the one that is taken away.
theorem get?_unset {e e' : Env} {name : String} (hdepth : e.depth = 0) (h : e.unset name = .ok e') (n : String) :
    e'.get? n = if n = name then none else e.get? n := by
  obtain ⟨scope, outer⟩ := e
  obtain rfl : outer = [] := List.length_eq_zero_iff.mp hdepth
  have hget (scope : Machine.Scope) (n : String) : Env.get? ⟨scope, []⟩ n = scope.lookup n := by
    unfold Env.get? Env.all Env.findIn
    cases scope.lookup n <;> rfl
  unfold Env.unset at h
  rw [hget] at h
  cases hv : scope.lookup name with
  | none =>
      rw [hv] at h
      obtain rfl := Except.ok.inj h
      rw [hget]
      split
      · rename_i hn
        rw [hn, hv]
      · rfl
  | some v =>
      rw [hv] at h
      dsimp only at h
      split at h
      · cases h
      · obtain rfl := Except.ok.inj h
        have herase : Env.ofScopes (Env.eraseIn name (Env.all ⟨scope, []⟩)) =
            ⟨Machine.Table.erase name scope, []⟩ := by
          simp [Env.eraseIn, Env.all, hv, Env.ofScopes]
        rw [herase, hget, hget, Machine.Table.lookup_erase]

theorem spares_unsetEach {ns : List String} (h : ∀ n ∈ ns, vars.lookup n = none) :
    Spares names vars (Machine.Command.unsetEach false ns) := by
  induction ns with
  | nil => exact spares_pure ()
  | cons n ns ih =>
      have hrest := ih fun m hm => h m (List.mem_cons_of_mem _ hm)
      intro s hs
      have hshell (k : Shell → Run Unit) : (Machine.Run.shell >>= k) s = k s.shell s := shell_bind k s
      refine (congrArg (Comes _ _) (hshell _)).mpr ?_
      dsimp only
      cases hunset : s.shell.env.unset n with
      | error f => exact ((spares_complainWith _ _).bind fun _ => hrest) s hs
      | ok env =>
          have hget := get?_unset hs.depth hunset
          refine hrest { s with shell := { s.shell with env } } ?_
          refine hs.withEnv (Env.protects_unset hunset).depth (h n List.mem_cons_self) (fun m hm => ?_) fun _ v hv => ?_
          · rw [hget, if_neg hm]
          · rw [hget, if_pos rfl] at hv
            cases hv

-- `unset` takes away the variables that it is given.
theorem spares_unset {f : Machine.Flags} {args : List String}
    (hf : Machine.Flags.read [('f', .switch), ('v', .switch)] args = .ok f) (hvariables : f.on 'f' = false)
    (h : ∀ n ∈ f.operands, vars.lookup n = none) (name : String) :
    Spares names vars (Machine.Command.unset name args) := by
  unfold Machine.Command.unset Machine.Command.withFlags
  rw [hf]
  dsimp only
  rw [hvariables]
  exact (spares_setStatus 0).bind fun _ => spares_unsetEach h

-- A command that is no function.
theorem spares_dispatch {name : String} {args : List String}
    (hrun : ∀ b, Builtin.ofName? name = some b → Spares names vars (Machine.runBuiltin E b name args)) :
    Spares names vars (Machine.dispatch E [] name args) := by
  have hbuiltin : Spares names vars (Machine.dispatch.asBuiltin E [] name args (Builtin.ofName? name)) := by
    cases hb : Builtin.ofName? name with
    | none => exact (spares_pure _).bind fun values => spares_runExternal _ _ _ _
    | some b =>
        simp only [Machine.dispatch.asBuiltin]
        split
        · exact (spares_pure ()).bind fun _ => hrun b hb
        · exact hrun b hb
  intro s hs
  have heq : Machine.dispatch E [] name args s = Machine.dispatch.asBuiltin E [] name args (Builtin.ofName? name) s := by
    unfold Machine.dispatch
    rw [shell_bind, hs.functions]
    rfl
  rw [heq]
  exact hbuiltin s hs

-- A command line whose first word stands for itself. What is known of its other words is `A`.
theorem spares_call (htext : IsPlainText text) {ws : List Program.Word} {A : List String → Prop}
    (hws : Ensures (Calm names vars) (Machine.fields E ws) (fun args s => A args ∧ Calm names vars s) (Calm names vars))
    (hrun : ∀ args, A args → ∀ b, Builtin.ofName? text = some b →
      Spares names vars (Machine.runBuiltin E b text args)) :
    Spares names vars (Machine.call E [] (⟨[.lit text false]⟩ :: ws) []) := by
  unfold Machine.call
  simp only [fields_cons htext, bind_assoc, pure_bind]
  refine Ensures.bind hws fun args s hs => ?_
  obtain ⟨hargs, hcalm⟩ := hs
  have htrace : Spares names vars (Machine.trace (text :: args)) := by simp [Machine.trace]
  have hdispatch := spares_dispatch (hrun args hargs)
  have hcommand : Spares names vars (
      if text == "exec" && args.isEmpty then Machine.tryRedirs E [] (Machine.Run.setStatus 0)
      else Machine.redirected E [] (Machine.dispatch E [] text args)) := by
    split
    · exact spares_setStatus 0
    · exact hdispatch
  refine (?_ : Spares names vars _) s hcalm
  exact spares_shell.bind fun t => spares_ite (htrace.bind fun _ => hcommand) hcommand

theorem lowerCall_text (u : Plan) (index : IndexReader) (htext : IsPlainText text)
    (hsource : ∀ b, Builtin.ofName? text = some b → b.isSource = false) (p : Position) (ws : List Script.Word)
    (d : Array Diagnostic) : ∃ place b e,
    ((lowerCommand u index (.simple [] (textWord p text :: ws) [])).run d).1 =
      .call place [] (⟨[.lit text false]⟩ :: ((Program.lowerWords u index ws).run d).1) [] b e := by
  have hvalue : (textWord p text).value? = some text := by
    have hunescape := Script.unescapeList_append htext.backslash []
    simp only [List.append_nil, Script.unescapeList] at hunescape
    simp [textWord, Script.Word.value?, Script.partsValue?, Script.WordPart.value?, Script.unescape, hunescape]
  have hlower : (lowerCommand u index (.simple [] (textWord p text :: ws) [])).run d =
      (let place := Script.Command.simplePos [] (textWord p text :: ws) []
      let x := (Program.lowerPlain u index (textWord p text)).run d
      let y := (Program.lowerWords u index ws).run x.2
      (Program.lowerCall u place (textWord p text :: ws) [] (x.1 :: y.1) []).run y.2) := rfl
  rw [hlower, lowerPlain_plain htext]
  dsimp only
  unfold Program.lowerCall
  dsimp only
  rw [hvalue]
  dsimp only
  cases hb : Builtin.ofName? text with
  | none => exact ⟨_, _, _, rfl⟩
  | some b =>
      cases ws with
      | nil => exact ⟨_, _, _, rfl⟩
      | cons operand _ =>
          simp only [hsource b hb, Bool.false_and, Bool.false_eq_true, if_false]
          exact ⟨_, _, _, rfl⟩

end Commands

-- Statements.

section Statements

variable {names : List String} {vars vars' : List (String × String)} {E : Engine} {m : Run Unit}

theorem ensures_afterCommand (E : Engine) {R : Shell → Prop} :
    Ensures (Calm names vars) (Machine.afterCommand E) (fun _ => Calm names vars) R := by
  intro s hs
  rcases Machine.afterCommand_untrapped (E := E) hs.untrapped with h | h
  · rw [h]
    exact hs
  · rw [h]
    trivial

theorem Ensures.checked (hm : Transfers names vars vars' m) : Transfers names vars vars' (Machine.checked E m) :=
  hm.bind fun _ => ensures_afterCommand E

-- A failure that only ends its command is over with it.
theorem Ensures.recovering (hm : Transfers names vars vars' m) :
    TransfersAll names vars vars' (Machine.recovering E m) := by
  intro s hs
  have hr := hm s hs
  unfold Machine.recovering
  cases h : m s with
  | ok a t =>
      rw [h] at hr
      exact hr
  | error e t =>
      rw [h] at hr
      cases e with
      | fail f =>
          dsimp only
          split
          · rename_i hf
            have hcalm : Calm names vars' t.shell := hr hf
            rw [bind_of_ok (Machine.complainWith_eq 1 f.report t)]
            exact ensures_afterCommand E _ (hcalm.of_same rfl rfl rfl)
          · rename_i hf
            exact fun hf' => absurd hf' hf
      | loop n next => exact hr
      | _ => trivial

-- Counters that are set around a computation do not matter.
theorem Ensures.around {change : Shell → Shell} {restore : Shell → Shell → Shell} {R : Shell → Prop}
    (hm : Ensures (Calm names vars) m (fun _ => Calm names vars') R)
    (hchange : ∀ s, (change s).env = s.env ∧ (change s).traps = s.traps ∧ (change s).functions = s.functions)
    (hrestore : ∀ s t,
      (restore s t).env = t.env ∧ (restore s t).traps = t.traps ∧ (restore s t).functions = t.functions)
    (hR : ∀ s t, R t → R (restore s t)) :
    Ensures (Calm names vars) (Machine.Run.within change restore m) (fun _ => Calm names vars') R :=
  Ensures.within hm (fun s h => h.of_same (hchange s).1 (hchange s).2.1 (hchange s).2.2)
    (fun s _ t _ h => h.of_same (hrestore s t).1 (hrestore s t).2.1 (hrestore s t).2.2) fun s t _ h => hR s t h

theorem Ensures.asCondition {R : Shell → Prop} (hm : Ensures (Calm names vars) m (fun _ => Calm names vars') R)
    (hR : ∀ s conditions, R s → R { s with conditions }) :
    Ensures (Calm names vars) (Machine.asCondition m) (fun _ => Calm names vars') R :=
  hm.around (fun _ => ⟨rfl, rfl, rfl⟩) (fun _ _ => ⟨rfl, rfl, rfl⟩) fun _ _ h => hR _ _ h

theorem Ensures.inLoop (hm : Transfers names vars vars' m) : Transfers names vars vars' (Machine.inLoop m) :=
  hm.around (fun _ => ⟨rfl, rfl, rfl⟩) (fun _ _ => ⟨rfl, rfl, rfl⟩) fun _ _ h => h.of_same rfl rfl rfl

-- Nothing that ends only one command leaves a list of commands.
theorem Ensures.list {R : Shell → Prop} (hm : TransfersAll names vars vars' m) :
    Ensures (Calm names vars) m (fun _ => Calm names vars') R :=
  hm.mono (fun _ h => h) (fun _ _ h => h) fun _ h => h.elim

theorem Ensures.runStmts_cons {vars'' : List (String × String)} {st : Stmt} {rest : List Stmt}
    (hbetween : E.between = pure ()) (hst : Transfers names vars vars' (E.stmt st))
    (hrest : TransfersAll names vars' vars'' (Machine.runStmts E rest)) :
    TransfersAll names vars vars'' (Machine.runStmts E (st :: rest)) := by
  rw [Machine.runStmts, hbetween]
  exact hst.recovering.bind fun _ => (ensures_pure () fun _ h => h).bind fun _ => hrest

variable {cond body : Program.Block}

theorem spares_loopBody (hbody : TransfersAll names vars vars (Machine.runBlock E body)) :
    Spares names vars (Machine.loopBody E body) := by
  intro s hs
  have hr := hbody s hs
  unfold Machine.loopBody
  cases h : Machine.runBlock E body s with
  | ok a t =>
      rw [h] at hr
      exact hr
  | error e t =>
      rw [h] at hr
      cases e with
      | fail f => exact fun hf => (hr hf).elim
      | loop n next => exact hr.elim
      | _ => trivial

theorem spares_whileLoop (untilTrue : Bool)
    (hcond : TransfersAll names vars vars (Machine.runBlock E cond))
    (hbody : TransfersAll names vars vars (Machine.runBlock E body)) (n : Nat) (status : Int) :
    Spares names vars (Machine.whileLoop E untilTrue cond body n status) := by
  induction n generalizing status with
  | zero => exact fun _ _ => trivial
  | succ n ih =>
      unfold Machine.whileLoop
      refine Spares.bind (hcond.asCondition fun _ _ h => h).list fun _ => spares_shell.bind fun s => ?_
      split
      · exact spares_setStatus status
      · refine (spares_loopBody hbody).bind fun done => ?_
        split
        · exact spares_pure ()
        · exact spares_shell.bind fun s => ih _

theorem spares_forLoop {name : String} (hname : vars.lookup name = none)
    (hbody : TransfersAll names vars vars (Machine.runBlock E body)) (items : List String) :
    Spares names vars (Machine.forLoop E name body items) := by
  induction items with
  | nil => exact spares_pure ()
  | cons item items ih =>
      unfold Machine.forLoop
      refine (spares_setVar hname item).bind fun _ => (spares_loopBody hbody).bind fun done => ?_
      split
      · exact spares_pure ()
      · exact ih

theorem spares_matchesAny (text : String) {ws : List Program.Word} (h : ∀ w ∈ ws, ∀ p ∈ w.parts, CalmPart p) :
    Spares names vars (Machine.matchesAny E text ws) := by
  induction ws with
  | nil => exact spares_pure false
  | cons w ws ih =>
      refine (spares_patternOf (h w List.mem_cons_self)).bind fun pattern => ?_
      exact spares_ite (spares_pure true) (ih fun w hw => h w (List.mem_cons_of_mem _ hw))

theorem spares_caseArms (text : String) {arms : List Program.CaseArm}
    (hpatterns : ∀ a ∈ arms, ∀ w ∈ a.patterns, ∀ p ∈ w.parts, CalmPart p)
    (hbodies : ∀ a ∈ arms, TransfersAll names vars vars (Machine.runBlock E a.body))
    (fall : Bool) : Spares names vars (Machine.caseArms E text fall arms) := by
  induction arms generalizing fall with
  | nil => exact spares_pure ()
  | cons arm arms ih =>
      have hrest (fall : Bool) : Spares names vars (Machine.caseArms E text fall arms) :=
        ih (fun a ha => hpatterns a (List.mem_cons_of_mem _ ha)) (fun a ha => hbodies a (List.mem_cons_of_mem _ ha)) fall
      unfold Machine.caseArms
      dsimp only
      refine spares_ite ((spares_pure true).bind fun hit => ?_) ?_
      rotate_left
      refine (spares_matchesAny text (hpatterns arm List.mem_cons_self)).bind fun hit => ?_
      all_goals
        refine spares_ite ((hbodies arm List.mem_cons_self).list.bind fun _ => ?_) (hrest false)
        cases arm.term with
        | stop => exact spares_pure ()
        | fallThrough => exact hrest true
        | testNext => exact hrest false

theorem spares_runStages (input : Option Stream) (stages : List Stmt) (both : List Bool) :
    Spares names vars (Machine.runStages E input stages both) := by
  induction stages generalizing input both with
  | nil => exact spares_pure _
  | cons st rest ih =>
      cases rest with
      | nil => exact (spares_inSubshell _ (Machine.closed_code _)).bind fun c => spares_pure _
      | cons next rest =>
          refine spares_world.bind fun w => (spares_newChannel _).bind fun out => ?_
          refine (spares_inSubshell _ (Machine.closed_code _)).bind fun c => spares_world.bind fun w => ?_
          exact (spares_newChannel _).bind fun src => (ih _ _).bind fun cs => spares_pure _

theorem spares_pipeline (hknown : vars.lookup "PIPESTATUS" = none) (hnames : "PIPESTATUS" ∉ names) (negated : Bool)
    {stages : List Stmt} (hstages : stages.length ≠ 1) (both : List Bool) :
    Spares names vars (Machine.pipeline E negated stages both) := by
  have hrun : Spares names vars (Machine.runPipeline E stages both) := by
    refine (spares_runStages none stages both).bind fun codes => spares_shell.bind fun s => ?_
    refine (spares_setStatus _).bind fun _ s hs => ?_
    rw [shell_bind]
    have hdepth := (s.shell.env.respects_setArray "PIPESTATUS" (codes.map toString)).protects.depth
    exact hs.withEnv hdepth hknown (fun n hn => Env.get?_setArray_of_ne _ _ hn) fun hmem => absurd hmem hnames
  have hlist : ∀ st, stages ≠ [st] := fun st hst => hstages (congrArg List.length hst)
  have hnegate : Spares names vars Machine.negate := fun s hs => hs.of_same rfl rfl rfl
  unfold Machine.pipeline
  split
  · exact absurd rfl (hlist _)
  · exact absurd rfl (hlist _)
  · exact hrun.bind fun _ => hnegate
  · exact Ensures.checked hrun

theorem spares_background (st : Stmt) : Spares names vars (Machine.background E st) := by
  refine spares_world.bind fun w => (spares_modifyWorld _).bind fun _ => ?_
  refine (spares_inSubshell _ (Machine.closed_code _)).bind fun status => (spares_modifyWorld _).bind fun _ => ?_
  exact fun s hs => hs.of_same rfl rfl rfl

theorem spares_subshell (body : Program.Block) : Spares names vars (Machine.runStmt E (.subshell body)) :=
  Ensures.checked ((spares_inSubshell _ (Machine.closed_ending E body)).bind fun status => spares_setStatus status)

end Statements

-- The flow of known values.

-- A command that changes only variables of which nothing is known.
inductive Avoids (vars : List (String × String)) : String → List String → Prop where
  | read {args f} : Machine.Flags.read Machine.Command.readFlags args = .ok f → f.value? 'a' = none → f.operands ≠ [] →
      (∀ n ∈ f.operands, vars.lookup n = none) → Avoids vars "read" args
  | unset {args f} : Machine.Flags.read [('f', .switch), ('v', .switch)] args = .ok f → f.on 'f' = false →
      (∀ n ∈ f.operands, vars.lookup n = none) → Avoids vars "unset" args

-- What is known after commands, from what is known before them: in every branch, after any number of rounds, and with
-- what runs apart left out. All variables that are assigned are among `names`.
inductive Tracks (u : Plan) (names : List String) :
    List (String × String) → List Command → List (String × String) → Prop where
  | nil {vars} : Tracks u names vars [] vars
  | cons {vars vars' vars'' c cs} : Tracks u names vars [c] vars' → Tracks u names vars' cs vars'' →
      Tracks u names vars (c :: cs) vars''
  -- less may be known
  | less {vars₁ vars vars' vars₂ cs} : Below vars vars₁ → Tracks u names vars cs vars' → Below vars₂ vars' →
      Tracks u names vars₁ cs vars₂
  | assigns {vars vars' as} : StraightLine u vars as vars' → (∀ a ∈ as, a.name ∈ names) →
      Tracks u names vars [.simple as [] []] vars'
  | call {vars p text ws} : IsPlainText text → isHarmless text = true → (∀ w ∈ ws, areCalm w.parts = true) →
      Tracks u names vars [.simple [] (textWord p text :: ws) []] vars
  | avoids {vars p name} {args : List (Position × String)} : Avoids vars name (args.map Prod.snd) →
      (∀ a ∈ args, IsPlainText a.2 ∧ u.path (textWord a.1 a.2) = none) →
      Tracks u names vars [.simple [] (textWord p name :: args.map fun a => textWord a.1 a.2) []] vars
  | subshell {vars p body} : Tracks u names vars [.subshell p body] vars
  | background {vars c} : Tracks u names vars [.background c] vars
  | pipeline {vars p negated cs bars} : cs.length ≠ 1 → vars.lookup "PIPESTATUS" = none → "PIPESTATUS" ∉ names →
      Tracks u names vars [.pipeline p negated cs bars] vars
  | group {vars vars' p b} : Tracks u names vars b.items vars' → Tracks u names vars [.group p b] vars'
  -- the second command may run or not
  | andOr {vars vars' p op x y} : Tracks u names vars [x] vars' → Tracks u names vars' [y] vars' →
      Tracks u names vars [.andOr p op x y] vars'
  | ifThen {vars vars' vars'' p cond yes no} : Tracks u names vars cond.items vars' →
      Tracks u names vars' yes.items vars'' → (∀ b ∈ no, Tracks u names vars' b.items vars'') →
      (no = none → Below vars'' vars') → Tracks u names vars [.ifThen p cond yes [] no] vars''
  -- a further branch stands alone in the other branch of the one before
  | elif {vars vars' p q q' r cond yes cond' yes' es no} :
      Tracks u names vars [.ifThen p cond yes [] (some ⟨q, [.ifThen q' cond' yes' es no]⟩)] vars' →
      Tracks u names vars [.ifThen p cond yes (⟨r, cond', yes'⟩ :: es) no] vars'
  | loop {vars p untilTrue cond body} : Tracks u names vars cond.items vars → Tracks u names vars body.items vars →
      Tracks u names vars [.loop p untilTrue cond body] vars
  | forIn {vars p name q hasIn items body} : (∀ w ∈ items, areCalm w.parts = true) → vars.lookup name = none →
      Tracks u names vars body.items vars → Tracks u names vars [.forIn p name q hasIn items body] vars
  | caseOf {vars p w items} : areCalm w.parts = true → (∀ i ∈ items, ∀ w ∈ i.patterns, areCalm w.parts = true) →
      (∀ i ∈ items, Tracks u names vars i.body.items vars) → Tracks u names vars [.caseOf p w items] vars

section Flow

variable {u : Plan} {index : IndexReader} {names : List String} {vars vars' : List (String × String)}

-- Whatever the way through the commands, the shell stays calm.
structure Follows (program : Program) (compiles : Bool) (rounds : Nat) (u : Plan) (index : IndexReader)
    (names : List String) (vars : List (String × String)) (cs : List Command) (vars' : List (String × String))
    (n : Nat) : Prop where
  list : ∀ d, TransfersAll names vars vars'
    (Machine.runStmts (engine program compiles rounds n) ((lowerCommands u index cs).run d).1)
  one : ∀ c, cs = [c] → ∀ d, Transfers names vars vars'
    ((engine program compiles rounds n).stmt ((lowerCommand u index c).run d).1)

variable {program : Program} {compiles : Bool} {rounds : Nat}

theorem between_engine (n : Nat) : (engine program compiles rounds n).between = pure () := by cases n <;> rfl

theorem follows_one {c : Command} (h : ∀ n d, Transfers names vars vars'
      (Machine.runStmt (engine program compiles rounds n) ((lowerCommand u index c).run d).1))
    (n : Nat) : Follows program compiles rounds u index names vars [c] vars' n := by
  have hone : ∀ d, Transfers names vars vars'
      ((engine program compiles rounds n).stmt ((lowerCommand u index c).run d).1) := by
    intro d
    cases n with
    | zero => exact fun _ _ => trivial
    | succ n => exact h n d
  constructor
  · intro d
    exact (hone d).runStmts_cons (between_engine n) (ensures_pure () fun _ h => h)
  · intro c' hc d
    obtain rfl := (List.cons.inj hc).1
    exact hone d

theorem spares_loopItems {E : Engine} {items : List Script.Word} (h : ∀ w ∈ items, areCalm w.parts = true)
    (inParams : Bool) (d : Array Diagnostic) :
    Spares names vars (Machine.loopItems E inParams ((Program.lowerWords u index items).run d).1) := by
  unfold Machine.loopItems
  split
  · exact spares_shell.bind fun s => spares_pure _
  · exact spares_fields (calm_lowerWords items d h)

theorem fields_texts {E : Engine} : ∀ (ws : List (Position × String)) (d : Array Diagnostic),
    (∀ x ∈ ws, IsPlainText x.2 ∧ u.path (textWord x.1 x.2) = none) →
    Machine.fields E ((Program.lowerWords u index (ws.map fun x => textWord x.1 x.2)).run d).1 = pure (ws.map Prod.snd)
  | [], _, _ => rfl
  | (p, text) :: ws, d, h => by
      obtain ⟨htext, hpath⟩ := h _ List.mem_cons_self
      have hword : ((Program.lowerWord u index (textWord p text)).run d).1 = ⟨[.lit text false]⟩ := by
        have hlower : ((Program.lowerWord u index (textWord p text)).run d).1 =
            Program.bindPath u (textWord p text) ((Program.lowerPlain u index (textWord p text)).run d).1 := rfl
        rw [hlower, lowerPlain_plain htext, Program.bindPath, hpath]
      have hlower : ((Program.lowerWords u index (((p, text) :: ws).map fun x => textWord x.1 x.2)).run d).1 =
          ((Program.lowerWord u index (textWord p text)).run d).1 ::
            ((Program.lowerWords u index (ws.map fun x => textWord x.1 x.2)).run
              ((Program.lowerWord u index (textWord p text)).run d).2).1 := rfl
      rw [hlower, hword, fields_cons htext, fields_texts ws _ fun x hx => h x (List.mem_cons_of_mem _ hx), pure_bind]
      rfl

theorem length_lowerCommands (cs : List Command) (d : Array Diagnostic) :
    ((lowerCommands u index cs).run d).1.length = cs.length := by
  induction cs generalizing d with
  | nil => rfl
  | cons c cs ih => exact congrArg (· + 1) (ih _)

theorem of_mem_lowerArms {items : List Script.CaseItem} {d : Array Diagnostic} {a : Program.CaseArm}
    (h : a ∈ ((Program.lowerArms u index items).run d).1) :
    ∃ i ∈ items, (∃ d, a.patterns = ((Program.lowerWords u index i.patterns).run d).1) ∧
      ∃ d, a.body = ⟨u.file, ((lowerCommands u index i.body.items).run d).1⟩ := by
  induction items generalizing d with
  | nil => exact absurd h List.not_mem_nil
  | cons i items ih =>
      obtain ⟨patterns, ⟨t, cs⟩, term⟩ := i
      rcases List.mem_cons.mp h with rfl | h
      · exact ⟨_, List.mem_cons_self, ⟨d, rfl⟩, _, rfl⟩
      · obtain ⟨i, hi, himage⟩ := ih h
        exact ⟨i, List.mem_cons_of_mem _ hi, himage⟩

section Commands

variable {p : Position} {ws : List Script.Word} {name text : String}

theorem follows_assigns {as : List Assignment} (has : StraightLine u vars as vars')
    (hnames : ∀ a ∈ as, a.name ∈ names) : ∀ n, Follows program compiles rounds u index names vars [.simple as [] []] vars' n := by
  refine follows_one fun n d => Ensures.checked fun s hs => ?_
  have hset : ∀ a ∈ as, ∀ v, s.shell.env.get? a.name = some v → IsText v :=
    fun a ha => hs.texts a.name (hnames a ha)
  have hright : Right vars (s.withStatus 0).shell := hs.right
  obtain ⟨env, hassign, hdepth, hright', htexts⟩ := has.right index (engine program compiles rounds n) hright hset d
  have htexts' : ∀ a ∈ names, ∀ v, env.get? a = some v → IsText v :=
    fun a ha v hv => (htexts a v hv).elim id (hs.texts a ha v)
  have hcalm : Calm names vars' { s.shell with status := 0, env } :=
    ⟨hright', htexts', hdepth.trans hs.depth, hs.untrapped, hs.functions⟩
  exact (congrArg (Comes _ _) hassign).mpr hcalm

theorem follows_call (htext : IsPlainText text) (hharmless : isHarmless text = true)
    (hcalm : ∀ w ∈ ws, areCalm w.parts = true) :
    ∀ n, Follows program compiles rounds u index names vars [.simple [] (textWord p text :: ws) []] vars n := by
  have hmember : ∀ b, Builtin.ofName? text = some b → b ∈ [Builtin.colon, .true_, .false_, .echo, .test] := by
    intro b hb
    simpa [isHarmless, hb] using hharmless
  have hsource : ∀ b, Builtin.ofName? text = some b → b.isSource = false := by
    intro b hb
    have hmem := hmember b hb
    simp only [List.mem_cons, List.not_mem_nil, or_false] at hmem
    rcases hmem with rfl | rfl | rfl | rfl | rfl <;> rfl
  refine follows_one fun n d => ?_
  obtain ⟨place, b, e, hlower⟩ := lowerCall_text u index htext hsource p ws d
  rw [hlower]
  have hwords : Spares names vars (Machine.fields (engine program compiles rounds n) _) :=
    spares_fields (@calm_lowerWords u index ws d hcalm)
  refine Ensures.checked (spares_call (A := fun _ => True) htext ?_ fun args _ b hb => ?_)
  · exact hwords.mono (fun _ h => h) (fun _ _ h => ⟨trivial, h⟩) fun _ h => h
  · exact spares_harmless (hmember b hb) text args

theorem follows_avoids {args : List (Position × String)} (havoids : Avoids vars name (args.map Prod.snd))
    (hargs : ∀ a ∈ args, IsPlainText a.2 ∧ u.path (textWord a.1 a.2) = none) :
    ∀ n, Follows program compiles rounds u index names vars
      [.simple [] (textWord p name :: args.map fun a => textWord a.1 a.2) []] vars n := by
  have htext : IsPlainText name := by cases havoids <;> exact ⟨by decide, by decide, by decide⟩
  have hsource : ∀ b, Builtin.ofName? name = some b → b.isSource = false := by
    intro b hb
    cases havoids <;> obtain rfl := Option.some.inj hb <;> rfl
  refine follows_one fun n d => ?_
  obtain ⟨place, b, e, hlower⟩ := lowerCall_text u index htext hsource p
    (args.map fun a => textWord a.1 a.2) d
  rw [hlower]
  refine Ensures.checked (spares_call (A := (· = args.map Prod.snd)) htext ?_ fun values hvalues b hb => ?_)
  · rw [fields_texts args d hargs]
    exact ensures_pure _ fun _ h => ⟨rfl, h⟩
  · subst hvalues
    cases havoids with
    | read hf harray hoperands hnames =>
        obtain rfl := Option.some.inj hb
        exact spares_read hf harray hoperands hnames "read"
    | unset hf hvariables hnames =>
        obtain rfl := Option.some.inj hb
        exact spares_unset hf hvariables hnames "unset"

end Commands

section Branches

variable {p : Position}

theorem follows_ifThen {vars'' : List (String × String)} {cond yes : Script.Block} {no : Option Script.Block}
    (hcond : ∀ n, Follows program compiles rounds u index names vars cond.items vars' n)
    (hyes : ∀ n, Follows program compiles rounds u index names vars' yes.items vars'' n)
    (hno : ∀ b ∈ no, ∀ n, Follows program compiles rounds u index names vars' b.items vars'' n)
    (hless : no = none → Below vars'' vars') :
    ∀ n, Follows program compiles rounds u index names vars [.ifThen p cond yes [] no] vars'' n := by
  obtain ⟨q, cs⟩ := cond
  obtain ⟨r, ys⟩ := yes
  refine follows_one fun n d => Ensures.bind (((hcond n).list d).asCondition fun _ _ h => h).list fun _ => ?_
  have hshell : Ensures (Calm names vars') Machine.Run.shell (fun _ => Calm names vars') (Calm names vars'') :=
    fun _ h => h
  refine hshell.bind fun s => ?_
  split
  · exact ((hyes n).list _).list
  · cases no with
    | some b =>
        obtain ⟨t, bs⟩ := b
        exact ((hno _ rfl n).list _).list
    | none => exact fun s hs => (hs.mono (hless rfl)).of_same rfl rfl rfl

theorem follows_caseOf {w : Script.Word} {items : List Script.CaseItem} (hw : areCalm w.parts = true)
    (hpatterns : ∀ i ∈ items, ∀ w ∈ i.patterns, areCalm w.parts = true)
    (hbodies : ∀ i ∈ items, ∀ n, Follows program compiles rounds u index names vars i.body.items vars n) :
    ∀ n, Follows program compiles rounds u index names vars [.caseOf p w items] vars n := by
  refine follows_one fun n d => (spares_literal (calm_lowerWord w d hw)).bind fun text => ?_
  refine (spares_setStatus 0).bind fun _ => spares_caseArms text (fun a ha => ?_) (fun a ha => ?_) false
  · obtain ⟨i, hi, ⟨d', hps⟩, -⟩ := of_mem_lowerArms ha
    rw [hps]
    exact calm_lowerWords _ d' (hpatterns i hi)
  · obtain ⟨i, hi, -, d', hbody⟩ := of_mem_lowerArms ha
    rw [hbody]
    exact (hbodies i hi n).list d'

end Branches

-- By induction on how the commands are tracked, for an engine of any depth.
theorem Tracks.follows {cs : List Command} (h : Tracks u names vars cs vars') :
    ∀ n, Follows program compiles rounds u index names vars cs vars' n := by
  induction h with
  | nil =>
      intro n
      exact ⟨fun d => ensures_pure () fun _ h => h, fun c hc => absurd hc.symm (List.cons_ne_nil c [])⟩
  | cons _ _ ih ih' =>
      intro n
      constructor
      · intro d
        exact ((ih n).one _ rfl d).runStmts_cons (between_engine n) ((ih' n).list _)
      · intro c hc d
        obtain ⟨rfl, rfl⟩ := List.cons.inj hc
        have hless (s : Shell) (hs : Calm names _ s) : Calm names _ s := (ih' n).list #[] ⟨{}, s⟩ hs
        exact ((ih n).one _ rfl d).mono (fun _ h => h) (fun _ => hless) hless
  | less hbefore _ hafter ih =>
      intro n
      constructor
      · intro d
        exact ((ih n).list d).mono (fun _ h => h.mono hbefore) (fun _ _ h => h.mono hafter) fun _ h => h
      · intro c hc d
        exact ((ih n).one c hc d).mono (fun _ h => h.mono hbefore) (fun _ _ h => h.mono hafter) fun _ h => h.mono hafter
  | assigns has hnames => exact follows_assigns has hnames
  | call htext hharmless hcalm => exact follows_call htext hharmless hcalm
  | avoids havoids hargs => exact follows_avoids havoids hargs
  | subshell => exact follows_one fun n d => spares_subshell _
  | background => exact follows_one fun n d => spares_background _
  | @pipeline vars p negated cs bars hlength hknown hnames =>
      refine follows_one fun n d => spares_pipeline hknown hnames negated ?_ bars
      exact fun h => hlength ((length_lowerCommands cs d).symm.trans h)
  | @group vars vars' p b _ ih =>
      obtain ⟨q, cs⟩ := b
      exact follows_one fun n d => ((ih n).list d).list
  | @andOr vars vars' p op x y _ _ ih ih' =>
      refine follows_one fun n d => ?_
      have hfirst := ((ih n).one x rfl d).asCondition fun _ _ h => h.of_same rfl rfl rfl
      refine hfirst.bind fun _ => spares_shell.bind fun s => ?_
      split
      · exact spares_pure ()
      · exact (ih' n).one y rfl _
  | ifThen _ _ _ hless ih ihyes ihno => exact follows_ifThen ih ihyes ihno hless
  | elif _ ih => exact follows_one fun n d => (ih (n + 1)).one _ rfl d
  | @loop vars p untilTrue cond body _ _ ih ih' =>
      obtain ⟨q, cs⟩ := cond
      obtain ⟨r, bs⟩ := body
      exact follows_one fun n d => Ensures.inLoop (spares_whileLoop untilTrue ((ih n).list d) ((ih' n).list _) _ 0)
  | @forIn vars p name q hasIn items body hitems hname _ ih =>
      obtain ⟨r, bs⟩ := body
      refine follows_one fun n d => (spares_loopItems hitems (!hasIn) d).bind fun values => Ensures.inLoop ?_
      exact (spares_setStatus 0).bind fun _ => spares_forLoop hname ((ih n).list _) values
  | caseOf hw hpatterns _ ih => exact follows_caseOf hw hpatterns ih

end Flow

-- The text that is known is the text of an expansion just when the variables of that moment spell it. After a straight
-- line of assignments they do, whatever they were before, and after commands of all kinds as long as no more is known
-- than what holds on every way through them.
theorem static_word_expands {u : Plan} {w : Script.Word} (hpath : ∀ key, u.path w ≠ some (.embedded key)) (s : String)
    (index : IndexReader) (E : Engine) :
    let x (d : Array Diagnostic) := ((Program.lowerWord u index w).run d).1
    (∀ vars, literal vars w = .static s → ∀ d σ,
      Machine.literal E (x d) σ = .ok s σ ↔ Script.spellParts? σ.shell.textOf? false w.parts = some s) ∧
    (∀ as vars, StraightLine u [] as vars → ∀ o at_, literal ((assigns o at_ as).run {}).2.vars w = .static s →
      (∀ p ∈ Script.paramsOf w.parts, IsBare p) →
      ∀ d σ, (∀ a ∈ as, ∀ v, σ.shell.env.get? a.name = some v → IsText v) →
        ∃ σ', Machine.assignAll E ((Program.lowerAssigns u index as).run d).1 σ = .ok () σ' ∧
          ∀ d', Machine.literal E (x d') σ' = .ok s σ') ∧
    (∀ names cs vars, Tracks u names [] cs vars → ∀ o at_, Below ((commands o at_ cs).run {}).2.vars vars →
      literal ((commands o at_ cs).run {}).2.vars w = .static s → (∀ p ∈ Script.paramsOf w.parts, IsBare p) →
      ∀ program compiles rounds n d σ σ', Calm names [] σ.shell →
        Machine.runStmts (engine program compiles rounds n) ((lowerCommands u index cs).run d).1 σ = .ok () σ' →
        ∀ d', Machine.literal E (x d') σ' = .ok s σ') := by
  refine ⟨fun vars hstatic d σ => expands_iff hstatic hpath index d E σ, ?_, ?_⟩
  · intro as vars has o at_ hstatic hbare d σ htext
    rw [has.vars o at_ rfl] at hstatic
    obtain ⟨env, hassign, -, hright, -⟩ := has.right index E (σ := σ) (fun _ _ h => nomatch h) htext d
    exact ⟨_, hassign, fun d' => hright.expands hstatic (fun p hp => (hbare p hp).1) hpath index d' E⟩
  · intro names cs vars htracks o at_ hbelow hstatic hbare program compiles rounds n d σ σ' hcalm hrun d'
    have hfollows : Follows program compiles rounds u index names [] cs vars n := htracks.follows n
    have hends := hfollows.list d σ hcalm
    rw [hrun] at hends
    exact (hends.right.mono hbelow).expands hstatic (fun p hp => (hbare p hp).1) hpath index d' E

-- `./$x`
def sampleWord : Script.Word :=
  ⟨[.lit {} "./", .param {} ⟨true, "x", false, false, none, none, none, none, none⟩]⟩

def sampleAssign (value : String) : Assignment := ⟨{}, "x", none, false, false, some ⟨[.lit {} value]⟩, none⟩

-- `x=a; while read y; do echo $y; done`
def sampleCommands : List Command :=
  let y : Script.Word := ⟨[.param {} ⟨true, "y", false, false, none, none, none, none, none⟩]⟩
  [.simple [sampleAssign "a"] [] [], .loop {} false ⟨{}, [.simple [] [textWord {} "read", textWord {} "y"] []]⟩
    ⟨{}, [.simple [] [textWord {} "echo", y] []]⟩]

-- `x=a` and then the word, with `x` set before, and with a loop in between.
theorem static_word_expands_after_assign :
    let plan : Plan := { file := "" }
    let σ : State := { shell := { env := { scope := [("x", { value := "b" })] } } }
    let E := Machine.engine { name := "", main := default } false 1 1
    let run := Machine.runStmts (engine { name := "", main := default } false 1 8)
      ((lowerCommands plan (fun _ _ => pure none) sampleCommands).run #[]).1
    let x (d : Array Diagnostic) := ((Program.lowerWord plan (fun _ _ => pure none) sampleWord).run d).1
    (∃ σ', Machine.assignAll E ((Program.lowerAssigns plan (fun _ _ => pure none) [sampleAssign "a"]).run #[]).1 σ =
        .ok () σ' ∧ ∀ d', Machine.literal E (x d') σ' = .ok "./a" σ') ∧
    ∃ σ', run σ = .ok () σ' ∧ ∀ d', Machine.literal E (x d') σ' = .ok "./a" σ' := by
  intro plan σ E run x
  have hline : StraightLine plan [] [sampleAssign "a"] [("x", "a")] :=
    .cons ⟨rfl, ⟨rfl, rfl, rfl⟩, fun _ => rfl, rfl, nofun, nofun, nofun⟩ .nil
  have hbare : ∀ p ∈ Script.paramsOf sampleWord.parts, IsBare p := by
    intro p hp
    obtain rfl := List.mem_singleton.mp hp
    exact ⟨rfl, rfl, rfl⟩
  have htext : ∀ v, σ.shell.env.get? "x" = some v → IsText v := by
    intro v hv
    obtain rfl := Option.some.inj hv
    exact ⟨rfl, rfl, rfl⟩
  constructor
  · refine (static_word_expands (u := plan) nofun "./a" _ E).2.1 _ _ hline ⟨"", fun _ => []⟩ {} rfl hbare _ σ ?_
    intro a ha
    obtain rfl := List.mem_singleton.mp ha
    exact htext
  · have htracks : Tracks plan ["x"] [] sampleCommands [("x", "a")] := by
      refine .cons (.assigns hline (by simp [sampleAssign])) (.cons (.loop ?_ ?_) .nil)
      · have htext : IsPlainText "y" := ⟨by decide, by decide, by decide⟩
        have hread : Avoids [("x", "a")] "read" ["y"] := .read rfl rfl (by simp) (by simp)
        exact @Tracks.avoids plan _ _ _ _ [({}, "y")] hread (List.forall_mem_singleton.mpr ⟨htext, rfl⟩)
      · exact .call ⟨by decide, by decide, by decide⟩ rfl (List.forall_mem_singleton.mpr rfl)
    have hcalm : Calm ["x"] [] σ.shell :=
      ⟨(fun _ _ h => nomatch h), fun a ha => List.mem_singleton.mp ha ▸ htext, rfl, rfl, rfl⟩
    have hends : EStateM.run' run σ = some () := by decide +kernel
    unfold EStateM.run' EStateM.run at hends
    split at hends
    · rename_i σ' hrun
      exact ⟨σ', hrun, (static_word_expands (u := plan) nofun "./a" _ E).2.2 _ _ _ htracks ⟨"", fun _ => []⟩ {} (fun _ _ h => h)
        rfl hbare _ _ _ _ _ _ _ hcalm hrun⟩
    · cases hends

-- `x=a; if false; then x=b; fi` and then the word.
theorem static_text_after_branch :
    let set (value : String) : Script.Command := .simple [sampleAssign value] [] []
    let cmds : List Script.Command :=
      [set "a", .ifThen {} ⟨{}, [.simple [] [⟨[.lit {} "false"]⟩] []]⟩ ⟨{}, [set "b"]⟩ [] none]
    let plan : Plan := { file := "" }
    let E := Machine.engine { name := "", main := default } false 1 8
    let run : Machine.Run String := do
      Machine.runStmts E ((Program.lowerCommands plan (fun _ _ => pure none) cmds).run #[]).1
      Machine.literal E ((Program.lowerWord plan (fun _ _ => pure none) sampleWord).run #[]).1
    (match literal ((commands ⟨"", fun _ => []⟩ {} cmds).run {}).2.vars sampleWord with
      | .static s => some s
      | _ => none) = some "./b" ∧
    (match run {} with
      | .ok s _ => some s
      | .error _ _ => none) = some "./a" := by
  decide +kernel

end Dependency
end ShellScript

import ShellScript.Dependency.Reference
import ShellScript.Machine.Step
import ShellScript.Proofs.Machine.Env
import ShellScript.Proofs.Machine.Spelling

-- Words whose text is known without a run. What a run makes of them is the text that the variables of the moment
-- spell, so that knowing the text is knowing these.
namespace ShellScript
namespace Dependency

open Script (WordPart ParamExp Word)
open Machine (Engine State Splitting Spells quotingOf)
open Program (Plan IndexReader Quoting lowerEach lowerPart lowerPlain lowerWord)

theorem isSome_of_cons {vars : List (String × String)} {quoted : Bool} {p : WordPart} {ps : List WordPart}
    (h : (literalParts? vars quoted false (p :: ps)).isSome) :
    (literalPart? vars quoted false p).isSome ∧ (literalParts? vars quoted false ps).isSome := by
  rw [literalParts?] at h
  cases hp : literalPart? vars quoted false p <;> cases hps : literalParts? vars quoted false ps <;>
    simp [hp, hps] at h ⊢

mutual

theorem spells_lowerPart {vars : List (String × String)} {E : Engine} {m : Splitting} {σ : State}
    (hm : m.joined = true) (hseparators : m.separators = σ.shell.separators) (u : Plan) (index : IndexReader) :
    ∀ (quoted : Bool) (p : WordPart) (d : Array Diagnostic), (literalPart? vars quoted false p).isSome →
      Spells E m quoted ((lowerPart u index (quotingOf quoted) p).run d).1 σ
        (Script.spellPart? σ.shell.textOf? quoted p)
  | quoted, .lit _ s, d, _ => by
      cases quoted with
      | true => exact Spells.lit _ true
      | false => exact Machine.spells_litParts s
  | quoted, .single _ dollar s, d, _ => Spells.lit _ true
  | quoted, .double _ _ ps, d, h => Spells.double (spells_lowerEach hm hseparators u index true ps d h)
  | quoted, .param _ ⟨short, name, length, indirect, names, idx, op, arg, repl⟩, d, h => by
      have hplain : op = none ∧ length = false ∧ indirect = false ∧ idx = none := by
        unfold literalPart? at h
        split at h
        · exact absurd h (by simp)
        · rename_i hx
          simpa [not_or, and_assoc] using hx
      obtain ⟨rfl, rfl, rfl, rfl⟩ := hplain
      exact Spells.param hm hseparators ⟨short, name, false, false, names, none, none, arg, repl⟩ _ _
  | _, .command .., _, h => absurd h (by simp [literalPart?])
  | _, .arith .., _, h => absurd h (by simp [literalPart?])
  | _, .brace .., _, h => absurd h (by simp [literalPart?])
  | _, .process .., _, h => absurd h (by simp [literalPart?])

theorem spells_lowerEach {vars : List (String × String)} {E : Engine} {m : Splitting} {σ : State}
    (hm : m.joined = true) (hseparators : m.separators = σ.shell.separators) (u : Plan) (index : IndexReader) :
    ∀ (quoted : Bool) (ps : List WordPart) (d : Array Diagnostic), (literalParts? vars quoted false ps).isSome →
      Spells E m quoted ((lowerEach u index (quotingOf quoted) ps).run d).1.flatten σ
        (Script.spellParts? σ.shell.textOf? quoted ps)
  | _, [], _, _ => Spells.nil
  | quoted, p :: ps, d, h => by
      have hboth := isSome_of_cons h
      exact Spells.append (spells_lowerPart hm hseparators u index quoted p d hboth.1)
        (spells_lowerEach hm hseparators u index quoted ps _ hboth.2)

end

theorem parts_of_static {vars : List (String × String)} {w : Word} {s : String} (h : literal vars w = .static s) :
    literalParts? vars false false w.parts = some s ∧ Text.hasPrefix s "~" = false := by
  unfold literal at h
  split at h
  · cases h
  · rename_i t ht
    split at h
    · cases h
    · rename_i htilde
      split at h
      · cases h
      · rename_i hglob
        cases h
        simp only [Bool.not_eq_true] at hglob htilde
        rw [hglob] at ht
        exact ⟨ht, htilde⟩

-- A tilde in front would have made the text unknown.
theorem withTilde_of_static {vars : List (String × String)} {w : Word} {s : String} (h : literal vars w = .static s)
    (each : List (List Program.Part)) : Program.withTilde w.parts each = each.flatten := by
  obtain ⟨hparts, htilde⟩ := parts_of_static h
  refine Machine.withTilde_of_plain (fun p first hfirst => ?_) each
  obtain ⟨rest, hw⟩ := List.head?_eq_some_iff.mp hfirst
  unfold Program.tilde?
  split
  · rename_i cs hcs
    rw [hw, literalParts?, literalPart?] at hparts
    cases hrest : literalParts? vars false false rest with
    | none => simp [hrest] at hparts
    | some t =>
        have hs : s = String.ofList (Script.unescapeList ('~' :: cs)) ++ t := by
          simpa [hrest, Script.unescape, hcs, eq_comm] using hparts
        have hfront : Script.unescapeList ('~' :: cs) = '~' :: Script.unescapeList cs := by
          rw [Script.unescapeList] <;> simp
        rw [hs, hfront] at htilde
        exact absurd htilde (by simp [Text.hasPrefix])
  · rfl

-- What is known is what the known values spell.

mutual

theorem spellPart_known {vars : List (String × String)} : ∀ (quoted : Bool) (p : WordPart) {s : String},
    literalPart? vars quoted false p = some s →
      Script.spellPart? (fun _ x => vars.lookup x.name) quoted p = some s
  | _, .lit .., _, h => h
  | _, .single .., _, h => h
  | _, .double _ _ ps, _, h => spellParts_known true ps h
  | _, .param _ x, s, h => by
      unfold literalPart? at h
      split at h
      · cases h
      · exact h
  | _, .command .., _, h => absurd h (by simp [literalPart?])
  | _, .arith .., _, h => absurd h (by simp [literalPart?])
  | _, .brace .., _, h => absurd h (by simp [literalPart?])
  | _, .process .., _, h => absurd h (by simp [literalPart?])

theorem spellParts_known {vars : List (String × String)} : ∀ (quoted : Bool) (ps : List WordPart) {s : String},
    literalParts? vars quoted false ps = some s →
      Script.spellParts? (fun _ x => vars.lookup x.name) quoted ps = some s
  | _, [], _, h => h
  | quoted, p :: ps, s, h => by
      rw [literalParts?] at h
      cases hp : literalPart? vars quoted false p with
      | none => simp [hp] at h
      | some t =>
          cases hps : literalParts? vars quoted false ps with
          | none => simp [hp, hps] at h
          | some t' =>
              rw [Script.spellParts?, spellPart_known quoted p hp, spellParts_known quoted ps hps]
              rw [hp, hps] at h
              exact h

end

-- A word that the plan has no content for is expanded as it stands.
theorem literal_lowerWord {u : Plan} {w : Word} (hpath : ∀ key, u.path w ≠ some (.embedded key)) (index : IndexReader)
    (d : Array Diagnostic) (E : Engine) :
    Machine.literal E ((lowerWord u index w).run d).1 = Machine.literal E ((lowerPlain u index w).run d).1 := by
  obtain ⟨ps⟩ := w
  have hlower : ((lowerWord u index ⟨ps⟩).run d).1 =
      Program.bindPath u ⟨ps⟩ ((lowerPlain u index ⟨ps⟩).run d).1 := rfl
  rw [hlower, Program.bindPath]
  cases hu : u.path ⟨ps⟩ with
  | none => rfl
  | some use =>
      cases use with
      | embedded key => exact absurd hu (hpath key)
      | runtime expr =>
          obtain ⟨parts⟩ := ((lowerPlain u index ⟨ps⟩).run d).1
          simp only [Machine.literal, Machine.expandParts, Machine.expandPart, bind_pure]

-- The expansion of a word whose text is known: what its texts and the values of its parameters spell at that moment.
theorem literal_lowerPlain {vars : List (String × String)} {w : Word} {s : String} (h : literal vars w = .static s)
    (u : Plan) (index : IndexReader) (d : Array Diagnostic) (E : Engine) (σ : State) :
    match Script.spellParts? σ.shell.textOf? false w.parts with
    | some t => Machine.literal E ((lowerPlain u index w).run d).1 σ = .ok t σ
    | none => ∃ f, Machine.literal E ((lowerPlain u index w).run d).1 σ = .error (.fail f) σ := by
  obtain ⟨ps⟩ := w
  obtain ⟨hparts, -⟩ := parts_of_static h
  have hlower : ((lowerPlain u index ⟨ps⟩).run d).1 =
      ⟨Program.withTilde ps ((lowerEach u index .none ps).run d).1⟩ := rfl
  have htilde := withTilde_of_static h ((lowerEach u index .none ps).run d).1
  have hspells := spells_lowerEach (E := E) (m := ⟨σ.shell.separators, true⟩) (σ := σ) rfl rfl u index false ps d
    (Option.isSome_of_eq_some hparts)
  rw [hlower, htilde]
  cases hspell : Script.spellParts? σ.shell.textOf? false ps with
  | none =>
      rw [hspell] at hspells
      exact hspells.literal_error
  | some t =>
      rw [hspell] at hspells
      exact hspells.literal

theorem expands_iff {vars : List (String × String)} {w : Word} {s : String} (h : literal vars w = .static s)
    {u : Plan} (hpath : ∀ key, u.path w ≠ some (.embedded key)) (index : IndexReader) (d : Array Diagnostic)
    (E : Engine) (σ : State) :
    Machine.literal E ((lowerWord u index w).run d).1 σ = .ok s σ ↔
      Script.spellParts? σ.shell.textOf? false w.parts = some s := by
  have hexpand := literal_lowerPlain h u index d E σ
  rw [literal_lowerWord hpath]
  cases hspell : Script.spellParts? σ.shell.textOf? false w.parts with
  | none =>
      rw [hspell] at hexpand
      obtain ⟨f, hf⟩ := hexpand
      rw [hf]
      simp
  | some t =>
      rw [hspell] at hexpand
      rw [hexpand]
      simp

theorem spells_of_values {vars : List (String × String)} {w : Word} {s : String} (h : literal vars w = .static s)
    {value? : Bool → ParamExp → Option String}
    (hvalues : ∀ p ∈ Script.paramsOf w.parts, ∀ quoted, value? quoted p = vars.lookup p.name) :
    Script.spellParts? value? false w.parts = some s := by
  rw [Script.spellParts_congr false w.parts hvalues]
  exact spellParts_known false w.parts (parts_of_static h).1

end Dependency
end ShellScript

-- Values that are taken for known. An assignment of a known text to a variable that holds a text keeps them right, so
-- that it takes more than a straight line of assignments to make them wrong.
namespace ShellScript
namespace Dependency

open Script (WordPart ParamExp Word Assignment)
open Machine (Engine State Shell Var Env special?)
open Machine.Run (bind_of_ok bind_of_error)
open Program (Plan IndexReader lowerWord lowerAssign)

-- A variable that holds a text and may be given another one.
def IsText (v : Var) : Prop := v.array = false ∧ v.integer = false ∧ v.readOnly = false

-- The known values are those that the shell has.
def Right (vars : List (String × String)) (s : Shell) : Prop :=
  ∀ name t, vars.lookup name = some t →
    (∀ s', special? s' name = none) ∧ ∃ v, s.env.get? name = some v ∧ IsText v ∧ v.value = t

theorem Right.textOf {vars : List (String × String)} {s : Shell} (h : Right vars s) {x : ParamExp} {t : String}
    (hx : vars.lookup x.name = some t) (hnames : x.names = none) (quoted : Bool) : s.textOf? quoted x = some t := by
  obtain ⟨hspecial, v, hv, ⟨harray, -, -⟩, hvalue⟩ := h x.name t hx
  have htext : v.text = t := by
    rw [Var.text, harray]
    exact hvalue
  have hwhole : Machine.wholeValue (some v) = .ofText t := by
    rw [Machine.wholeValue, harray, htext]
    rfl
  simp [Shell.textOf?, Shell.plainValue?, hnames, hspecial, hv, hwhole, Machine.ParamValue.ofText,
    Machine.ParamValue.joined]

mutual

theorem lookup_of_literalPart {vars : List (String × String)} : ∀ (quoted : Bool) (p : WordPart),
    (literalPart? vars quoted false p).isSome → ∀ x ∈ Script.paramsOfPart p, (vars.lookup x.name).isSome
  | _, .double _ _ ps, h => lookup_of_literalParts true ps h
  | _, .param _ x, h => by
      intro y hy
      obtain rfl := List.mem_singleton.mp hy
      unfold literalPart? at h
      split at h
      · exact absurd h (by simp)
      · exact h
  | _, .lit .., _ => nofun
  | _, .single .., _ => nofun
  | _, .command .., _ => nofun
  | _, .arith .., _ => nofun
  | _, .brace .., _ => nofun
  | _, .process .., _ => nofun

theorem lookup_of_literalParts {vars : List (String × String)} : ∀ (quoted : Bool) (ps : List WordPart),
    (literalParts? vars quoted false ps).isSome → ∀ x ∈ Script.paramsOf ps, (vars.lookup x.name).isSome
  | _, [], _ => nofun
  | quoted, p :: ps, h => by
      intro x hx
      have hboth := isSome_of_cons h
      rcases List.mem_append.mp hx with hx | hx
      · exact lookup_of_literalPart quoted p hboth.1 x hx
      · exact lookup_of_literalParts quoted ps hboth.2 x hx

end

-- With the right values a known text is what a run makes of the word.
theorem Right.expands {vars : List (String × String)} {σ : State} (h : Right vars σ.shell) {w : Word} {s : String}
    (hstatic : literal vars w = .static s) (hnames : ∀ x ∈ Script.paramsOf w.parts, x.names = none) {u : Plan}
    (hpath : ∀ key, u.path w ≠ some (.embedded key)) (index : IndexReader) (d : Array Diagnostic) (E : Engine) :
    Machine.literal E ((lowerWord u index w).run d).1 σ = .ok s σ := by
  refine (expands_iff hstatic hpath index d E σ).mpr (spells_of_values hstatic fun x hx quoted => ?_)
  have hparts := Option.isSome_of_eq_some (parts_of_static hstatic).1
  obtain ⟨t, ht⟩ := Option.isSome_iff_exists.mp (lookup_of_literalParts false w.parts hparts x hx)
  rw [ht]
  exact h.textOf ht (hnames x hx) quoted

-- Assigning a text to a variable that holds a text.
theorem assignPlain_text (E : Engine) (name value : String) (append : Bool) {σ : State}
    (hvar : ∀ v, σ.shell.env.get? name = some v → IsText v) :
    let old := (σ.shell.env.get? name).getD {}
    let env := (σ.shell.env.declare name).put name { old with value := if append then old.value ++ value else value }
    Machine.assignPlain E name value append false σ = .ok () { σ with shell := { σ.shell with env } } := by
  intro old env
  have hold : IsText old := by
    cases hv : σ.shell.env.get? name with
    | none => simp [old, hv, IsText]
    | some v =>
        have hget : old = v := by simp [old, hv]
        exact hget ▸ hvar v hv
  obtain ⟨harray, hinteger, hreadOnly⟩ := hold
  have hdeclared : ((σ.shell.env.declare name).get? name).getD {} = old := by simp [Env.get?_declare, old]
  have htarget : Machine.target false name σ =
      .ok old { σ with shell := { σ.shell with env := σ.shell.env.declare name } } := by
    rw [← hdeclared]
    rfl
  have hmodify (value : String) : Machine.modifyVar name
      (fun v => if v.array then { v with list := value :: v.list.drop 1 } else { v with value })
      { σ with shell := { σ.shell with env := σ.shell.env.declare name } } =
        .ok () { σ with shell := { σ.shell with env := (σ.shell.env.declare name).put name { old with value } } } := by
    have hnew : (if old.array then { old with list := value :: old.list.drop 1 } else { old with value }) =
        { old with value } := by simp [harray]
    rw [← hnew, ← hdeclared]
    rfl
  unfold Machine.assignPlain
  rw [bind_of_ok htarget]
  cases append with
  | true => simpa [hinteger, hreadOnly, env, Var.text, harray] using hmodify (old.value ++ value)
  | false => simpa [hinteger, hreadOnly, env] using hmodify value

-- A parameter that is only looked up.
def IsBare (x : ParamExp) : Prop := x.names = none ∧ x.arg = none ∧ x.repl = none

-- An assignment of one text, whose parts are known.
structure Straight (u : Plan) (vars : List (String × String)) (a : Assignment) (v : Word) (s : String) : Prop where
  value : a.value = some v
  whole : a.index = none ∧ a.array = none ∧ a.naked = false
  ordinary : ∀ t, special? t a.name = none
  static : literal vars v = .static s
  bare : ∀ x ∈ Script.paramsOf v.parts, IsBare x
  unbound : ∀ key, u.path v ≠ some (.embedded key)
  -- of a variable that is not known, nothing is known after an append either
  extends_ : a.append = true → (vars.lookup a.name).isSome

-- The known values after it.
def extend (vars : List (String × String)) (a : Assignment) (s : String) : List (String × String) :=
  (a.name, (if a.append then (vars.lookup a.name).getD "" else "") ++ s) :: vars.filter (·.1 != a.name)

theorem lookup_extend (vars : List (String × String)) (a : Assignment) (s n : String) :
    (extend vars a s).lookup n =
      if n = a.name then some ((if a.append then (vars.lookup a.name).getD "" else "") ++ s) else vars.lookup n := by
  by_cases hn : n = a.name
  · simp [extend, hn]
  · have hfilter (l : List (String × String)) : (l.filter (·.1 != a.name)).lookup n = l.lookup n := by
      induction l with
      | nil => rfl
      | cons e l ih =>
          obtain ⟨k, t⟩ := e
          by_cases hk : k = a.name
          · subst hk
            simp [ih, List.lookup_cons, beq_false_of_ne hn]
          · simp [hk, ih, List.lookup_cons]
    simp [extend, hn, List.lookup_cons, beq_false_of_ne hn, hfilter]

-- What a run makes of the assignment.
theorem assign_straight {u : Plan} {vars : List (String × String)} {a : Assignment} {v : Word} {s : String}
    (ha : Straight u vars a v s) {σ : State} (h : Right vars σ.shell) (index : IndexReader) (d : Array Diagnostic)
    (E : Engine) :
    Machine.assign E ((lowerAssign u index a).run d).1 false σ = Machine.assignPlain E a.name s a.append false σ := by
  obtain ⟨pos, name, idx, append, naked, value, array⟩ := a
  obtain ⟨⟨hi, harray, hnaked⟩, hvalue⟩ := And.intro ha.whole ha.value
  dsimp only at hi harray hnaked hvalue
  subst hi harray hnaked hvalue
  have hexpands := h.expands ha.static (fun x hx => (ha.bare x hx).1) ha.unbound index d E
  have hlower : ((lowerAssign u index ⟨pos, name, none, append, false, some v, none⟩).run d).1 =
      { name, index := none, append, array := none,
        value := if v.parts.isEmpty then some ⟨[.lit "" true]⟩ else some ((lowerWord u index v).run d).1 } := by
    rfl
  have hliteral : Machine.literalOpt E
      (if v.parts.isEmpty then some ⟨[.lit "" true]⟩ else some ((lowerWord u index v).run d).1) σ = .ok s σ := by
    cases hparts : v.parts with
    | nil =>
        have hs : s = "" := by
          have hstatic := (parts_of_static ha.static).1
          rw [hparts] at hstatic
          exact (Option.some.inj hstatic).symm
        rw [hs]
        rfl
    | cons p ps => exact hexpands
  rw [hlower, Machine.assign]
  exact bind_of_ok hliteral _

-- One assignment keeps the known values right, and no variable stops holding a text. It opens no scope.
theorem Right.extend {u : Plan} {vars : List (String × String)} {a : Assignment} {v : Word} {s : String}
    (ha : Straight u vars a v s) {σ : State} (h : Right vars σ.shell)
    (hvar : ∀ w, σ.shell.env.get? a.name = some w → IsText w) (index : IndexReader) (d : Array Diagnostic)
    (E : Engine) :
    ∃ env, Machine.assign E ((lowerAssign u index a).run d).1 false σ = .ok () { σ with shell := { σ.shell with env } } ∧
      env.depth = σ.shell.env.depth ∧ Right (Dependency.extend vars a s) { σ.shell with env } ∧
      ∀ n w, env.get? n = some w → IsText w ∨ σ.shell.env.get? n = some w := by
  have hassign := assignPlain_text E a.name s a.append hvar
  rw [← assign_straight ha h index d E] at hassign
  generalize hold : (σ.shell.env.get? a.name).getD {} = old at hassign
  have htext : IsText old := by
    rw [← hold]
    cases hv : σ.shell.env.get? a.name with
    | none => exact ⟨rfl, rfl, rfl⟩
    | some w => exact hvar w hv
  have hget (n : String) (w : Var) : ((σ.shell.env.declare a.name).put a.name w).get? n =
      if n = a.name then some w else σ.shell.env.get? n := by
    rw [Env.get?_put, Env.get?_declare]
    split <;> simp_all
  have hdepth := (σ.shell.env.respects_declare a.name).protects.depth
  refine ⟨_, hassign, (Env.depth_put ..).trans hdepth, ?_, ?_⟩
  · intro n t hn
    rw [lookup_extend] at hn
    dsimp only
    rw [hget]
    split at hn
    · rename_i hname
      refine ⟨hname ▸ ha.ordinary, _, if_pos hname, htext, ?_⟩
      rw [← Option.some.inj hn]
      cases happend : a.append with
      | false => simp
      | true =>
          obtain ⟨t', ht'⟩ := Option.isSome_iff_exists.mp (ha.extends_ happend)
          obtain ⟨-, w, hw, -, hvalue⟩ := h a.name t' ht'
          have hsame : old = w := by simp [← hold, hw]
          simp [ht', hsame, hvalue]
    · rename_i hname
      rw [if_neg hname]
      exact h n t hn
  · intro n w hw
    rw [hget] at hw
    split at hw
    · exact .inl (Option.some.inj hw ▸ htext)
    · exact .inr hw

-- Looking into a word that is known changes nothing that is known.

mutual

theorem vars_part {vars : List (String × String)} (o : Origin) (at_ : Place) : ∀ (quoted : Bool) (p : WordPart)
    (f : Found), (literalPart? vars quoted false p).isSome → (∀ x ∈ Script.paramsOfPart p, IsBare x) →
      ((part o at_ false p).run f).2.vars = f.vars
  | _, .lit .., _, _, _ => rfl
  | _, .single .., _, _, _ => rfl
  | _, .double _ _ ps, f, h, hbare => vars_parts o at_ true ps f h hbare
  | _, .param _ ⟨short, name, length, indirect, names, index, op, arg, repl⟩, f, h, hbare => by
      obtain ⟨-, harg, hrepl⟩ := hbare _ (List.mem_singleton_self _)
      have hindex : index = none := by
        unfold literalPart? at h
        split at h
        · exact absurd h (by simp)
        · rename_i hx
          simp_all
      dsimp only at harg hrepl
      subst hindex harg hrepl
      rfl
  | _, .command .., _, h, _ => absurd h (by simp [literalPart?])
  | _, .arith .., _, h, _ => absurd h (by simp [literalPart?])
  | _, .brace .., _, h, _ => absurd h (by simp [literalPart?])
  | _, .process .., _, h, _ => absurd h (by simp [literalPart?])

theorem vars_parts {vars : List (String × String)} (o : Origin) (at_ : Place) : ∀ (quoted : Bool)
    (ps : List WordPart) (f : Found), (literalParts? vars quoted false ps).isSome →
      (∀ x ∈ Script.paramsOf ps, IsBare x) → ((parts o at_ false ps).run f).2.vars = f.vars
  | _, [], _, _, _ => rfl
  | quoted, p :: ps, f, h, hbare => by
      have hboth := isSome_of_cons h
      have hp := vars_part o at_ quoted p f hboth.1 fun x hx => hbare x (List.mem_append_left _ hx)
      have hps := vars_parts o at_ quoted ps ((part o at_ false p).run f).2 hboth.2
        fun x hx => hbare x (List.mem_append_right _ hx)
      exact hps.trans hp

end

theorem vars_assign {u : Plan} {f : Found} {a : Assignment} {v : Word} {s : String} (ha : Straight u f.vars a v s)
    (o : Origin) (at_ : Place) : ((assign o at_ a).run f).2.vars = extend f.vars a s := by
  obtain ⟨ps⟩ := v
  obtain ⟨pos, name, idx, append, naked, value, array⟩ := a
  obtain ⟨⟨hi, harray, hnaked⟩, hvalue⟩ := And.intro ha.whole ha.value
  dsimp only at hi harray hnaked hvalue
  subst hi harray hnaked hvalue
  have hword : ((word o at_ false ⟨ps⟩).run f).2.vars = f.vars :=
    vars_parts o at_ false ps f (Option.isSome_of_eq_some (parts_of_static ha.static).1) ha.bare
  have hset (g : Found) (hg : g.vars = f.vars) :
      ((setVariable ⟨pos, name, none, append, false, some ⟨ps⟩, none⟩ ⟨ps⟩).run g).2.vars =
        extend f.vars ⟨pos, name, none, append, false, some ⟨ps⟩, none⟩ s := by
    have hstatic := ha.static
    rw [← hg] at hstatic ⊢
    simp [setVariable, hstatic, extend, forget]
    rfl
  exact hset _ hword

-- Assignments one after the other, each of what is known by then.
inductive StraightLine (u : Plan) : List (String × String) → List Assignment → List (String × String) → Prop where
  | nil {vars} : StraightLine u vars [] vars
  | cons {vars vars' a v s as} : Straight u vars a v s → StraightLine u (extend vars a s) as vars' →
      StraightLine u vars (a :: as) vars'

theorem StraightLine.right {u : Plan} {vars vars' : List (String × String)} {as : List Assignment}
    (has : StraightLine u vars as vars') (index : IndexReader) (E : Engine) : ∀ {σ : State}, Right vars σ.shell →
      (∀ a ∈ as, ∀ w, σ.shell.env.get? a.name = some w → IsText w) → ∀ d : Array Diagnostic,
      ∃ env, Machine.assignAll E ((Program.lowerAssigns u index as).run d).1 σ =
          .ok () { σ with shell := { σ.shell with env } } ∧
        env.depth = σ.shell.env.depth ∧ Right vars' { σ.shell with env } ∧
        ∀ n w, env.get? n = some w → IsText w ∨ σ.shell.env.get? n = some w := by
  induction has with
  | nil =>
      intro σ h _ d
      exact ⟨σ.shell.env, rfl, rfl, h, fun _ _ hw => .inr hw⟩
  | @cons vars vars' a v s as ha _ ih =>
      intro σ h htext d
      obtain ⟨env, hassign, hdepth, hright, hkept⟩ := h.extend ha (htext a List.mem_cons_self) index d E
      have htext' : ∀ b ∈ as, ∀ w, env.get? b.name = some w → IsText w := by
        intro b hb w hw
        rcases hkept b.name w hw with hw | hw
        · exact hw
        · exact htext b (List.mem_cons_of_mem _ hb) w hw
      obtain ⟨env', hrest, hdepth', hright', hkept'⟩ :=
        ih (σ := { σ with shell := { σ.shell with env } }) hright htext' ((lowerAssign u index a).run d).2
      refine ⟨env', (bind_of_ok hassign _).trans hrest, hdepth'.trans hdepth, hright', fun n w hw => ?_⟩
      exact (hkept' n w hw).elim .inl (hkept n w)

theorem StraightLine.vars {u : Plan} {vars vars' : List (String × String)} {as : List Assignment}
    (has : StraightLine u vars as vars') (o : Origin) (at_ : Place) : ∀ {f : Found}, f.vars = vars →
      ((assigns o at_ as).run f).2.vars = vars' := by
  induction has with
  | nil =>
      intro f hf
      exact hf
  | cons ha _ ih =>
      intro f hf
      subst hf
      exact ih (vars_assign ha o at_)

end Dependency
end ShellScript

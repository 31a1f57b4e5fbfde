import ShellScript.Dependency.Reference
import ShellScript.Proofs.Machine.Plain

-- What a word of literal text and plain parameters expands to where it is neither split nor matched against files:
-- its texts and the values of its parameters, one after the other, and nothing else happens.
namespace ShellScript
namespace Script

mutual

-- The text of such a part, given the texts of parameters.
def spellPart? (value? : Bool → ParamExp → Option String) (quoted : Bool) : WordPart → Option String
  | .lit _ s => some (if quoted then unescapeDouble s else unescape s)
  | .single _ dollar s => some (if dollar then unescapeAnsi s else s)
  | .double _ _ ps => spellParts? value? true ps
  | .param _ x => value? quoted x
  | _ => none

def spellParts? (value? : Bool → ParamExp → Option String) (quoted : Bool) : List WordPart → Option String
  | [] => some ""
  | p :: ps => do return (← spellPart? value? quoted p) ++ (← spellParts? value? quoted ps)

end

mutual

-- The parameters whose values make up the text.
def paramsOfPart : WordPart → List ParamExp
  | .double _ _ ps => paramsOf ps
  | .param _ x => [x]
  | _ => []

def paramsOf : List WordPart → List ParamExp
  | [] => []
  | p :: ps => paramsOfPart p ++ paramsOf ps

end

section Congruence

variable {value? value'? : Bool → ParamExp → Option String}

mutual

theorem spellPart_congr : ∀ (quoted : Bool) (p : WordPart),
    (∀ x ∈ paramsOfPart p, ∀ q, value? q x = value'? q x) → spellPart? value? quoted p = spellPart? value'? quoted p
  | _, .double _ _ ps, h => spellParts_congr true ps h
  | quoted, .param _ x, h => h x (List.mem_singleton_self x) quoted
  | _, .lit .., _ => rfl
  | _, .single .., _ => rfl
  | _, .command .., _ => rfl
  | _, .arith .., _ => rfl
  | _, .brace .., _ => rfl
  | _, .process .., _ => rfl

theorem spellParts_congr : ∀ (quoted : Bool) (ps : List WordPart),
    (∀ x ∈ paramsOf ps, ∀ q, value? q x = value'? q x) → spellParts? value? quoted ps = spellParts? value'? quoted ps
  | _, [], _ => rfl
  | quoted, p :: ps, h => by
      have hp := spellPart_congr quoted p fun x hx => h x (List.mem_append_left _ hx)
      have hps := spellParts_congr quoted ps fun x hx => h x (List.mem_append_right _ hx)
      rw [spellParts?, spellParts?, hp, hps]

end

end Congruence

end Script

namespace Machine

open Script (WordPart ParamExp)
open Program (Part Param)
open Run

-- The value as it appears in a text.
def ParamValue.joined (separators : String) (quoted : Bool) (v : ParamValue) : String :=
  match v.plural with
  | .one => v.text
  | .all => Text.joinWith " " v.list
  | .star => Text.joinWith (if quoted then Text.takeFront 1 separators else " ") v.list

-- The value of a plain parameter, if asking for it does not fail.
def Shell.plainValue? (s : Shell) (x : ParamExp) : Option ParamValue :=
  match x.names with
  | some mark =>
    let list := s.env.names.filter fun n => Text.hasPrefix n x.name
    some { list, plural := if mark == '@' then .all else .star, isSet := true }
  | none =>
    let v := (special? s x.name).getD (wholeValue (s.env.get? x.name))
    if !v.isSet && s.options.nounset && x.name != "@" && x.name != "*" then none else some v

def Shell.separators (s : Shell) : String := (s.env.value? "IFS").getD " \t\n"

def Shell.textOf? (s : Shell) (quoted : Bool) (x : ParamExp) : Option String :=
  (s.plainValue? x).map (ParamValue.joined s.separators quoted)

-- Fields.

def Fields.text (f : Fields) : String := Fragment.plain f.finish.flatten

theorem Fields.text_eq (f : Fields) : f.text = Fragment.plain (f.done.reverse.flatten ++ f.current.reverse) := by
  unfold Fields.text Fields.finish
  split
  · simp [Fields.flush]
  · rename_i hempty
    have hcurrent : f.current = [] := by
      simp only [Bool.or_eq_true, Bool.not_eq_true', List.isEmpty_eq_false_iff, not_or, Classical.not_not] at hempty
      exact hempty.2
    simp [hcurrent]

theorem Fields.text_add (f : Fields) (t : String) (quoted : Bool) : (f.add t quoted).text = f.text ++ t := by
  rw [text_eq, text_eq]
  simp [add, Fragment.plain, String.join_append, String.append_assoc]

theorem Fields.text_opened (f : Fields) : Fields.text { f with opened := true } = f.text := by
  rw [text_eq, text_eq]

theorem Fields.text_addValue {m : Splitting} (hm : m.joined = true) (quoted : Bool) (f : Fields) (v : String) :
    (Fields.addValue m quoted f v).text = f.text ++ v := by
  unfold addValue split
  split
  · exact f.text_add v true
  · rw [hm, Bool.true_or, if_pos rfl]
    split
    · rename_i hv
      have hempty : v = "" := by simpa using hv
      simp [hempty]
    · exact f.text_add v false

theorem text_addParam {m : Splitting} (hm : m.joined = true) (quoted : Bool) (v : ParamValue) (f : Fields) :
    (addParam m quoted v f).text = f.text ++ v.joined m.separators quoted := by
  unfold addParam ParamValue.joined Fields.addValues
  cases v.plural with
  | one => exact Fields.text_addValue hm quoted f v.text
  | all => simp only [hm, if_true, Fields.text_add]
  | star =>
      cases quoted with
      | true => simp only [if_true, Fields.text_add]
      | false => simp only [hm, if_true, Fields.text_add, Bool.false_eq_true, if_false]

-- Expanding.

-- What expanding some parts comes to: the text they add, or nothing where it fails. The state stays as it is.
def Spells (E : Engine) (m : Splitting) (quoted : Bool) (parts : List Part) (σ : State) (text? : Option String) :
    Prop :=
  ∀ f : Fields, match text? with
    | some t => ∃ f', expandParts E m quoted parts f σ = .ok f' σ ∧ f'.text = f.text ++ t
    | none => ∃ failure, expandParts E m quoted parts f σ = .error (.fail failure) σ

theorem param_plain (E : Engine) (x : ParamExp) (arg repl : Option Program.Word) (σ : State) :
    param E ⟨x.name, false, false, x.names, none, none, arg, repl⟩ σ =
      match σ.shell.plainValue? x with
      | some v => .ok v σ
      | none => .error (.fail (.ofText .unbound x.name)) σ := by
  unfold param Shell.plainValue?
  rw [shell_bind]
  cases x.names with
  | some mark => rfl
  | none =>
      simp only [Bool.false_and, Bool.false_eq_true, if_false]
      have hlookup : lookup E x.name none σ =
          .ok ((special? σ.shell x.name).getD (wholeValue (σ.shell.env.get? x.name))) σ := rfl
      rw [bind_of_ok hlookup, shell_bind]
      split <;> rfl

section Parts

variable {E : Engine} {m : Splitting} {quoted : Bool} {σ : State}

theorem expandParts_append (ps qs : List Part) (f : Fields) :
    expandParts E m quoted (ps ++ qs) f = expandParts E m quoted ps f >>= expandParts E m quoted qs := by
  induction ps generalizing f with
  | nil => rfl
  | cons p ps ih =>
      simp only [List.cons_append, expandParts, bind_assoc]
      congr 1
      funext f'
      exact ih f'

theorem Spells.nil : Spells E m quoted [] σ (some "") := fun f => ⟨f, rfl, by simp⟩

theorem Spells.append {ps qs : List Part} {t? u? : Option String} (hp : Spells E m quoted ps σ t?)
    (hq : Spells E m quoted qs σ u?) : Spells E m quoted (ps ++ qs) σ (do return (← t?) ++ (← u?)) := by
  intro f
  rw [expandParts_append]
  cases t? with
  | none =>
      obtain ⟨failure, hf⟩ := hp f
      exact ⟨failure, bind_of_error hf _⟩
  | some t =>
      obtain ⟨f', hf', ht⟩ := hp f
      rw [bind_of_ok hf']
      cases u? with
      | none => exact hq f'
      | some u =>
          obtain ⟨f'', hf'', hu⟩ := hq f'
          exact ⟨f'', hf'', by rw [hu, ht, String.append_assoc]⟩

theorem Spells.lit (text : String) (q : Bool) : Spells E m quoted [.lit text q] σ (some text) :=
  fun f => ⟨f.add text (quoted || q), rfl, f.text_add text _⟩

theorem Spells.double {ps : List Part} {t? : Option String} (h : Spells E m true ps σ t?) :
    Spells E m quoted [.quoted ps] σ t? := by
  intro f
  have heq : expandParts E m quoted [.quoted ps] f σ =
      (expandParts E m true ps (if isValueList ps then f else { f with opened := true }) >>= pure) σ := rfl
  have htext : Fields.text (if isValueList ps then f else { f with opened := true }) = f.text := by
    split
    · rfl
    · exact f.text_opened
  have hinner := h (if isValueList ps then f else { f with opened := true })
  rw [heq, bind_pure]
  cases t? with
  | none => exact hinner
  | some t =>
      obtain ⟨f', hf', ht⟩ := hinner
      exact ⟨f', hf', by rw [ht, htext]⟩

theorem Spells.param (hm : m.joined = true) (hseparators : m.separators = σ.shell.separators) (x : ParamExp)
    (arg repl : Option Program.Word) :
    Spells E m quoted [.param ⟨x.name, false, false, x.names, none, none, arg, repl⟩] σ
      (σ.shell.textOf? quoted x) := by
  intro f
  have heq : expandParts E m quoted [.param ⟨x.name, false, false, x.names, none, none, arg, repl⟩] f σ =
      ((Machine.param E ⟨x.name, false, false, x.names, none, none, arg, repl⟩ >>= fun v =>
        pure (addParam m quoted v f)) >>= pure) σ := rfl
  have hparam := param_plain E x arg repl σ
  rw [heq, bind_pure]
  unfold Shell.textOf?
  cases hv : σ.shell.plainValue? x with
  | none =>
      rw [hv] at hparam
      exact ⟨_, bind_of_error hparam _⟩
  | some v =>
      rw [hv] at hparam
      refine ⟨addParam m quoted v f, bind_of_ok hparam _, ?_⟩
      rw [text_addParam hm, hseparators]

-- A word as a whole, neither split nor matched against files.
theorem literal_eq (ps : List Part) : Machine.literal E ⟨ps⟩ σ =
    (expandParts E ⟨σ.shell.separators, true⟩ false ps {} >>= fun f => pure f.text) σ :=
  bind_of_ok (m := Machine.separators) (a := σ.shell.separators) rfl _

theorem Spells.literal {ps : List Part} {t : String} (h : Spells E ⟨σ.shell.separators, true⟩ false ps σ (some t)) :
    Machine.literal E ⟨ps⟩ σ = .ok t σ := by
  obtain ⟨f, hf, ht⟩ := h {}
  have htext : f.text = t := by
    rw [ht]
    exact String.empty_append
  rw [literal_eq, ← htext]
  exact bind_of_ok hf _

theorem Spells.literal_error {ps : List Part} (h : Spells E ⟨σ.shell.separators, true⟩ false ps σ none) :
    ∃ f, Machine.literal E ⟨ps⟩ σ = .error (.fail f) σ := by
  obtain ⟨f, hf⟩ := h {}
  exact ⟨f, (literal_eq ps).trans (bind_of_error hf _)⟩

end Parts

-- Literal text: the pieces between backslashes and the characters behind them.

theorem spells_litPartsFrom {E : Engine} {m : Splitting} {σ : State} (cur cs : List Char) :
    Spells E m false (Program.litPartsFrom cur cs) σ
      (some (String.ofList (cur.reverse ++ Script.unescapeList cs))) := by
  have hquoted {c : Char} {cs : List Char} {qs : List Part} (hqs : Spells E m false qs σ
      (some (String.ofList (Script.unescapeList cs)))) :
      Spells E m false (.lit (String.ofList [c]) true :: qs) σ (some (String.ofList (c :: Script.unescapeList cs))) := by
    have happend := (Spells.lit (String.ofList [c]) true).append hqs
    rwa [show String.ofList (c :: Script.unescapeList cs) = String.ofList [c] ++ String.ofList (Script.unescapeList cs) by
      rw [← String.ofList_append]; rfl]
  fun_induction Program.litPartsFrom cur cs with
  | case1 => exact Spells.nil
  | case2 cur _ =>
      rw [Script.unescapeList, List.append_nil]
      exact Spells.lit _ false
  | case3 cur cs ih =>
      rw [Script.unescapeList]
      exact ih
  | case4 cur c cs hc rest hcur ih =>
      have hnil : cur = [] := by simpa using hcur
      rw [Script.unescapeList, hnil]
      · exact hquoted ih
      · exact hc
  | case5 cur c cs hc rest hcur ih =>
      rw [Script.unescapeList, String.ofList_append]
      · exact (Spells.lit _ false).append (hquoted ih)
      · exact hc
  | case6 cur c cs hnewline hescape ih =>
      rw [Script.unescapeList]
      · simpa using ih
      · exact hnewline
      · exact hescape

theorem spells_litParts {E : Engine} {m : Splitting} {σ : State} (s : String) :
    Spells E m false (Program.litParts s) σ (some (Script.unescape s)) := by
  unfold Program.litParts
  split
  · rename_i hs
    have hempty : s = "" := by simpa using hs
    rw [hempty]
    exact Spells.lit "" false
  · exact spells_litPartsFrom [] s.toList

-- The two ways in which the parts of a word are lowered.
def quotingOf (quoted : Bool) : Program.Quoting := if quoted then .double else .none

-- A word whose first part is no tilde with or without a login name.
theorem withTilde_of_plain {ps : List WordPart} (h : ∀ p s, ps.head? = some (.lit p s) → Program.tilde? s = none)
    (each : List (List Part)) : Program.withTilde ps each = each.flatten := by
  unfold Program.withTilde
  split
  · rw [h _ _ rfl]
  · rfl

end Machine

-- Words of texts and quotations alone. What such a word is said to stand for before anything runs is what a run makes of
-- it, in every state.
namespace Machine

open Script (WordPart)
open Program (Plan IndexReader Quoting lowerEach lowerPart lowerPlain)

-- The lowering of such parts has nothing to report, and their expansion needs nothing from the state.
structure Constant (E : Engine) (m : Splitting) (σ : State) (quoted : Bool) (d : Array Diagnostic) (v : String)
    (r : List Program.Part × Array Diagnostic) : Prop where
  spells : Spells E m quoted r.1 σ (some v)
  silent : r.2 = d

section

variable {E : Engine} {m : Splitting} {σ : State} {u : Plan} {index : IndexReader}

theorem value?_cons {quoted : Bool} {p : WordPart} {ps : List WordPart} {v : String}
    (h : Script.partsValue? quoted (p :: ps) = some v) :
    ∃ a b, p.value? quoted = some a ∧ Script.partsValue? quoted ps = some b ∧ v = a ++ b := by
  rw [Script.partsValue?] at h
  cases ha : p.value? quoted with
  | none => simp [ha] at h
  | some a =>
      cases hb : Script.partsValue? quoted ps with
      | none => simp [ha, hb] at h
      | some b => exact ⟨a, b, rfl, rfl, by simpa [ha, hb, eq_comm] using h⟩

mutual

theorem constant_lowerPart : ∀ (quoted : Bool) (p : WordPart) (d : Array Diagnostic) {v : String},
    p.value? quoted = some v →
      Constant E m σ quoted d v ((lowerPart u index (quotingOf quoted) p).run d)
  | true, .lit _ s, d, v, h => ⟨Option.some.inj h ▸ Spells.lit _ true, rfl⟩
  | false, .lit _ s, d, v, h => ⟨Option.some.inj h ▸ spells_litParts s, rfl⟩
  | quoted, .single _ dollar s, d, v, h => ⟨Option.some.inj h ▸ Spells.lit _ true, rfl⟩
  | quoted, .double _ _ ps, d, v, h => by
      obtain ⟨hspells, hsilent⟩ := constant_lowerEach true ps d h
      exact ⟨Spells.double hspells, hsilent⟩
  | _, .param .., _, _, h => nomatch h
  | _, .command .., _, _, h => nomatch h
  | _, .arith .., _, _, h => nomatch h
  | _, .brace .., _, _, h => nomatch h
  | _, .process .., _, _, h => nomatch h

theorem constant_lowerEach : ∀ (quoted : Bool) (ps : List WordPart) (d : Array Diagnostic) {v : String},
    Script.partsValue? quoted ps = some v →
      Constant E m σ quoted d v (((lowerEach u index (quotingOf quoted) ps).map List.flatten).run d)
  | _, [], _, _, h => ⟨Option.some.inj h ▸ Spells.nil, rfl⟩
  | quoted, p :: ps, d, _, h => by
      obtain ⟨a, b, ha, hb, rfl⟩ := value?_cons h
      obtain ⟨hp, hd⟩ := constant_lowerPart quoted p d ha
      obtain ⟨hps, hd'⟩ := constant_lowerEach quoted ps ((lowerPart u index (quotingOf quoted) p).run d).2 hb
      exact ⟨hp.append hps, hd'.trans hd⟩

end

-- The value of a word is its expansion: its lowering reports nothing, and expanding it changes nothing. A tilde in front
-- would have become the name of a directory.
theorem literal_of_value {w : Script.Word} {v : String} (hvalue : w.value? = some v)
    (htilde : ∀ p s, w.parts.head? = some (.lit p s) → Program.tilde? s = none) (u : Plan) (index : IndexReader)
    (d : Array Diagnostic) (E : Engine) (σ : State) :
    ((lowerPlain u index w).run d).2 = d ∧ literal E ((lowerPlain u index w).run d).1 σ = .ok v σ := by
  obtain ⟨ps⟩ := w
  have hlower : (lowerPlain u index ⟨ps⟩).run d = (⟨Program.withTilde ps ((lowerEach u index .none ps).run d).1⟩,
    ((lowerEach u index .none ps).run d).2) := rfl
  obtain ⟨hspells, hsilent⟩ : Constant E ⟨σ.shell.separators, true⟩ σ false d v
      (((lowerEach u index (quotingOf false) ps).map List.flatten).run d) := constant_lowerEach false ps d hvalue
  rw [hlower, withTilde_of_plain htilde]
  exact ⟨hsilent, hspells.literal⟩

end

-- `a\*"b\$c\d"$'\t'`, with an IFS that would split it.
theorem literal_of_escapes_and_quotes :
    let w : Script.Word :=
      ⟨[.lit {} "a\\*", .double {} false [.lit {} "b\\$c\\d"], .single {} true "\\t"]⟩
    let lowered := (lowerPlain { file := "" } (fun _ _ => pure none) w).run #[]
    let σ : State := { shell := { env := { scope := [("IFS", { value := "bc" })] } } }
    lowered.2 = #[] ∧
      literal (engine { name := "", main := default } false 1 1) lowered.1 σ = .ok "a*b$c\\d\t" σ := by
  intro w lowered σ
  have hvalue : w.value? = some "a*b$c\\d\t" := by decide +kernel
  have htilde : ∀ p s, w.parts.head? = some (.lit p s) → Program.tilde? s = none := by
    intro p s hs
    obtain ⟨-, rfl⟩ := Script.WordPart.lit.inj (Option.some.inj hs)
    decide
  exact literal_of_value hvalue htilde _ _ _ _ σ

end Machine
end ShellScript

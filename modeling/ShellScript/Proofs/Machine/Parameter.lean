import ShellScript.Proofs.Machine.LastStatus
import ShellScript.Proofs.Machine.Plain

-- Parameters with an operator that changes their value: trimming, changing case and slicing.
namespace ShellScript
namespace Machine

open Program (Param Word)
open Run

-- A parameter that is looked up and may be used as it is.
structure Found (E : Engine) (x : Param) (s : State) (v : ParamValue) (t : State) : Prop where
  names : x.names = none
  length : x.length = false
  target : x.indirect = true → (Text.isName (lookedUp x s.shell) || isSpecialName (lookedUp x s.shell)) = true
  value : lookup E (lookedUp x s.shell) x.index s = .ok v t
  usable : v.isSet = true ∨ t.shell.options.nounset = false

-- The value that an operator changes in the state `u`, which its operands leave behind: the elements of an array may be
-- others by then.
def valueAfter (index : Option Word) (name : String) (v : ParamValue) (t u : State) : ParamValue :=
  if v.isPlural && index.isSome && ((t.shell.env.get? name).map (·.array)).getD false then
    refreshed u.shell.env name v
  else v

namespace ParamValue

-- The texts of a value: those of a list, or one.
def texts (v : ParamValue) : List String := if v.isPlural then v.list else [v.text]

theorem texts_map (v : ParamValue) (f : String → String) : (v.map f).texts = v.texts.map f := by
  unfold map texts
  by_cases hplural : v.isPlural = true
  · have hsame : ParamValue.isPlural { v with list := v.list.map f } = true := hplural
    rw [if_pos hplural, if_pos hplural, if_pos hsame]
  · have hsame : ¬ParamValue.isPlural { v with text := f v.text } = true := hplural
    rw [if_neg hplural, if_neg hplural, if_neg hsame, List.map_singleton]

theorem plural_map (v : ParamValue) (f : String → String) : (v.map f).plural = v.plural := by
  unfold map
  split <;> rfl

theorem isSet_map (v : ParamValue) (f : String → String) : (v.map f).isSet = v.isSet := by
  unfold map
  split <;> rfl

end ParamValue

def trimOps : List Script.ParamOp := [.remSmallPrefix, .remLargePrefix, .remSmallSuffix, .remLargeSuffix]

def caseOps : List Script.ParamOp := [.upperFirst, .upperAll, .lowerFirst, .lowerAll]

section Operators

variable {E : Engine} {x : Param} {op : Script.ParamOp} {s t u : State} {v : ParamValue}

theorem shell_ok (s : State) : shell s = .ok s.shell s := rfl

theorem latest_ok (index : Option Word) (name : String) (v : ParamValue) (t u : State) :
    (if v.isPlural && index.isSome && ((t.shell.env.get? name).map Var.array).getD false then
      return refreshed (← shell).env name v
    else return v : Run ParamValue) u = .ok (valueAfter index name v t u) u := by
  unfold valueAfter
  split <;> rfl

-- Neither the name that is looked up nor the value is refused.
theorem Found.accepted (h : Found E x s v t) :
    (x.indirect && !false && !Text.isName ((s.shell.env.value? x.name).getD "") &&
      !isSpecialName ((s.shell.env.value? x.name).getD "")) = false ∧ (!v.isSet && t.shell.options.nounset) = false := by
  constructor
  · cases hindirect : x.indirect with
    | false => rfl
    | true =>
        have htarget := h.target hindirect
        rw [lookedUp, hindirect, h.length] at htarget
        rcases Bool.or_eq_true_iff.mp htarget with hname | hname <;> simp_all
  · rcases h.usable with hset | hoption
    · rw [hset]
      rfl
    · rw [hoption, Bool.and_false]

theorem Found.param_trim (h : Found E x s v t) (hop : x.op = some op) (hmem : op ∈ trimOps) {pat : String}
    (hpat : patternOpt E x.arg t = .ok pat u) :
    param E x s = .ok ((valueAfter x.index (lookedUp x s.shell) v t u).map (ParamOps.trim op (Pattern.read pat))) u := by
  obtain ⟨hvalid, hbound⟩ := h.accepted
  obtain ⟨name, length, indirect, names, index, op', arg, repl⟩ := x
  obtain ⟨rfl, rfl, -, hvalue, -⟩ := h
  obtain rfl : op' = some op := hop
  unfold param
  rw [bind_of_ok (shell_ok s)]
  dsimp only [lookedUp] at hvalid hvalue hpat ⊢
  rw [hvalid, if_neg Bool.false_ne_true, bind_of_ok hvalue, bind_of_ok (shell_ok t), if_neg Bool.false_ne_true]
  simp only [trimOps, List.mem_cons, List.not_mem_nil, or_false] at hmem
  rcases hmem with rfl | rfl | rfl | rfl <;>
    (dsimp only; rw [hbound, if_neg Bool.false_ne_true, bind_of_ok (shell_ok t), bind_of_ok hpat,
      bind_of_ok (latest_ok index _ v t u)]; rfl)

-- The text of the pattern that says which characters change.
def casePattern (E : Engine) : Option Word → Run String
  | none => return "?"
  | some w => patternOpt E (some w)

theorem Found.param_case (h : Found E x s v t) (hop : x.op = some op) (hmem : op ∈ caseOps) {pat : String}
    (hpat : casePattern E x.arg t = .ok pat u) :
    param E x s = .ok ((valueAfter x.index (lookedUp x s.shell) v t u).map (ParamOps.changeCase op (Pattern.read pat))) u := by
  obtain ⟨hvalid, hbound⟩ := h.accepted
  obtain ⟨name, length, indirect, names, index, op', arg, repl⟩ := x
  obtain ⟨rfl, rfl, -, hvalue, -⟩ := h
  obtain rfl : op' = some op := hop
  unfold param
  rw [bind_of_ok (shell_ok s)]
  dsimp only [lookedUp] at hvalid hvalue hpat ⊢
  rw [hvalid, if_neg Bool.false_ne_true, bind_of_ok hvalue, bind_of_ok (shell_ok t), if_neg Bool.false_ne_true]
  simp only [caseOps, List.mem_cons, List.not_mem_nil, or_false] at hmem
  cases arg with
  | none =>
      have hpat : (pure "?" : Run String) t = .ok pat u := hpat
      rcases hmem with rfl | rfl | rfl | rfl <;>
        (dsimp only; rw [hbound, if_neg Bool.false_ne_true, bind_of_ok (shell_ok t), if_pos Option.isNone_none,
          bind_of_ok hpat, bind_of_ok (latest_ok index _ v t u)]; rfl)
  | some w =>
      have hpat : patternOpt E (some w) t = .ok pat u := hpat
      rcases hmem with rfl | rfl | rfl | rfl <;>
        (dsimp only; rw [hbound, if_neg Bool.false_ne_true, bind_of_ok (shell_ok t), Option.isNone_some,
          if_neg Bool.false_ne_true, bind_of_ok hpat, bind_of_ok (latest_ok index _ v t u)]; rfl)

-- The numbers that select a slice: an offset and a length, which may be missing.
def sliceNumbers (E : Engine) (arg repl : Option Word) : Run (Int × Option Int) := do
  let offset ← textValue E 0 (← literalOpt E arg)
  let text ← literalOpt E repl
  match repl with
  | none => return (offset, none)
  | some _ => return (offset, some (← textValue E 0 text))

-- What a slice of all parameters selects from begins with the name of the shell.
def sliceItems (index : Option Word) (name : String) (v : ParamValue) (s : State) : List String :=
  if index.isNone && (name == "@" || name == "*") then s.shell.name :: v.list else v.list

def sliced (index : Option Word) (name : String) (v : ParamValue) (s : State) (offset : Int) (length : Option Int) :
    ParamValue :=
  if v.isPlural then { v with list := ParamOps.sliceList (sliceItems index name v s) offset length }
  else { v with text := ParamOps.sliceText v.text offset length }

theorem sliced_ok (index : Option Word) (name : String) (v : ParamValue) (s : State) (offset : Int)
    (length : Option Int) :
    (if v.isPlural then do
      let self := (← shell).name
      let list := if index.isNone && (name == "@" || name == "*") then self :: v.list else v.list
      return { v with list := ParamOps.sliceList list offset length }
    else return { v with text := ParamOps.sliceText v.text offset length } : Run ParamValue) s =
      .ok (sliced index name v s offset length) s := by
  unfold sliced sliceItems
  split <;> rfl

theorem bind_ok {α β : Type} {m : Run α} {k : α → Run β} {s u : State} {b : β} (h : (m >>= k) s = .ok b u) :
    ∃ a t, m s = .ok a t ∧ k a t = .ok b u := by
  cases hm : m s with
  | ok a t => exact ⟨a, t, rfl, (bind_of_ok hm k).symm.trans h⟩
  | error e t => cases (bind_of_error hm k).symm.trans h

theorem Found.param_slice (h : Found E x s v t) (hop : x.op = some .slice) {offset : Int} {length : Option Int}
    (hnumbers : sliceNumbers E x.arg x.repl t = .ok (offset, length) u) :
    param E x s = .ok (sliced x.index x.name (valueAfter x.index (lookedUp x s.shell) v t u) u offset length) u := by
  obtain ⟨hvalid, hbound⟩ := h.accepted
  obtain ⟨name, length, indirect, names, index, op', arg, repl⟩ := x
  obtain ⟨rfl, rfl, -, hvalue, -⟩ := h
  obtain rfl : op' = some .slice := hop
  unfold param
  rw [bind_of_ok (shell_ok s)]
  dsimp only [lookedUp] at hvalid hvalue hnumbers ⊢
  rw [hvalid, if_neg Bool.false_ne_true, bind_of_ok hvalue, bind_of_ok (shell_ok t), if_neg Bool.false_ne_true]
  rw [hbound, if_neg Bool.false_ne_true, bind_of_ok (shell_ok t)]
  unfold sliceNumbers at hnumbers
  obtain ⟨text, t₁, htext, hnumbers⟩ := bind_ok hnumbers
  obtain ⟨first, t₂, hfirst, hnumbers⟩ := bind_ok hnumbers
  obtain ⟨text', t₃, htext', hnumbers⟩ := bind_ok hnumbers
  rw [bind_of_ok htext, bind_of_ok hfirst, bind_of_ok htext']
  cases repl with
  | none =>
      cases hnumbers
      rw [if_pos Option.isNone_none, pure_bind, bind_of_ok (latest_ok index _ v t u)]
      exact sliced_ok index name _ u _ _
  | some w =>
      obtain ⟨second, t₄, hsecond, hnumbers⟩ := bind_ok hnumbers
      cases hnumbers
      rw [Option.isNone_some, if_neg Bool.false_ne_true, bind_of_ok hsecond, pure_bind, bind_of_ok (latest_ok index _ v t u)]
      exact sliced_ok index name _ u _ _

end Operators
end Machine
end ShellScript

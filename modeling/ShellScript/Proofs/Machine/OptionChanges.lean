import Mathlib.Data.List.Induction
import ShellScript.Proofs.Machine.OptionWord

-- The words of `set` as what they ask for: options that are turned on or off one after another, and what is to be done in
-- the end. A word that is refused ends the command without a change to the parameters, but the options in front of it
-- have been changed by then.
namespace ShellScript

namespace Program

-- An option by its name or its letter.
def Switch.ofName? : String → Option Switch
  | "errexit" | "e" => some .errexit
  | "nounset" | "u" => some .nounset
  | "pipefail" => some .pipefail
  | "xtrace" | "x" => some .xtrace
  | "noglob" | "f" => some .noglob
  | _ => none

def Switch.turn (o : Options) (on : Bool) : Switch → Options
  | .errexit => { o with errexit := on }
  | .nounset => { o with nounset := on }
  | .pipefail => { o with pipefail := on }
  | .xtrace => { o with xtrace := on }
  | .noglob => { o with noglob := on }

def Options.turnAll (o : Options) (xs : List (Switch × Bool)) : Options := xs.foldl (fun o x => x.1.turn o x.2) o

theorem Options.turnAll_concat (o : Options) (xs : List (Switch × Bool)) (x : Switch) (on : Bool) :
    o.turnAll (xs ++ [(x, on)]) = x.turn (o.turnAll xs) on := List.foldl_append

theorem Switch.isOn_turn (x y : Switch) (on : Bool) (o : Options) :
    x.isOn (y.turn o on) = if x = y then on else x.isOn o := by
  cases x <;> cases y <;> rfl

-- What was asked for last holds.
theorem Options.isOn_turnAll (x : Switch) (xs : List (Switch × Bool)) (o : Options) :
    x.isOn (o.turnAll xs) = (xs.reverse.lookup x).getD (x.isOn o) := by
  induction xs using List.reverseRecOn with
  | nil => rfl
  | append_singleton xs y ih =>
      obtain ⟨y, on⟩ := y
      rw [turnAll_concat, Switch.isOn_turn, ih, List.reverse_concat, List.lookup_cons]
      by_cases hx : x = y
      · simp [hx]
      · simp [hx, beq_false_of_ne hx]

theorem Options.turnAll_eq_self_iff (o : Options) (xs : List (Switch × Bool)) :
    o.turnAll xs = o ↔ ∀ x on, xs.reverse.lookup x = some on → x.isOn o = on := by
  constructor
  · intro h x on hlast
    have hx := isOn_turnAll x xs o
    rwa [h, hlast, Option.getD_some] at hx
  · intro h
    refine ext_isOn fun x => ?_
    rw [isOn_turnAll]
    cases hlast : xs.reverse.lookup x with
    | none => rfl
    | some on => exact (h x on hlast).symm

end Program

namespace Machine

open Program (Options Switch)
open Run

namespace Command

theorem setOption?_eq (o : Options) (name : String) (on : Bool) :
    setOption? o name on = (Switch.ofName? name).map fun x => x.turn o on := by
  unfold setOption? Switch.ofName?
  split <;> simp_all [Switch.turn]

end Command

-- How the words end.
inductive SetEnd where
  | params (words : List String)
  | nothing
  | list (table : Bool)
  | refused (message : String)

def SetEnd.run : SetEnd → Run Unit
  | params words => Command.setParams words
  | nothing => return
  | list table => Command.printOptions table
  | refused message => usage "set" message

def letterText (r : Text.Rune) : String := String.ofList (Text.utf8 r.value)

-- A word of options; the other ones that begin with a sign are `-`, `+` and `--`.
structure IsOptionWord (a : String) (sign : Char) (letters : List Char) : Prop where
  text : a.toList = sign :: letters
  sign : sign = '-' ∨ sign = '+'
  letters : letters ≠ []
  other : a ≠ "--"

theorem IsOptionWord.ne_sole {a : String} {sign : Char} {letters : List Char} (h : IsOptionWord a sign letters) :
    ¬(a = "-" ∨ a = "+") := by
  intro ha
  have hlength : a.toList.length = 1 := by rcases ha with rfl | rfl <;> rfl
  rw [h.text, List.length_cons, Nat.succ_inj, List.length_eq_zero_iff] at hlength
  exact h.letters hlength

-- The letters `rs` of a word with the sign, and the words after it, ask for these changes.
inductive Asks : Char → List Text.Rune → List String → List (Switch × Bool) → SetEnd → Prop
  | finished {sign : Char} : Asks sign [] [] [] .nothing
  | separator {sign : Char} {ws : List String} : Asks sign [] ("--" :: ws) [] (.params ws)
  -- a sign alone
  | sole {sign : Char} {a : String} {ws : List String} (ha : a = "-" ∨ a = "+") :
      Asks sign [] (a :: ws) [] (if ws = [] then .nothing else .params ws)
  | operand {sign : Char} {a : String} {ws : List String} (hsole : ¬(a = "-" ∨ a = "+")) (hother : a ≠ "--")
      (ha : ∀ sign letters, ¬IsOptionWord a sign letters) : Asks sign [] (a :: ws) [] (.params (a :: ws))
  | word {sign sign' : Char} {a : String} {letters : List Char} {ws : List String} {xs : List (Switch × Bool)} {e : SetEnd}
      (ha : IsOptionWord a sign' letters) (rest : Asks sign' (Text.runesOf letters) ws xs e) : Asks sign [] (a :: ws) xs e
  | letter {sign : Char} {r : Text.Rune} {rs : List Text.Rune} {ws : List String} {x : Switch} {xs : List (Switch × Bool)}
      {e : SetEnd} (hr : r ≠ .char 'o') (hx : Switch.ofName? (letterText r) = some x) (rest : Asks sign rs ws xs e) :
      Asks sign (r :: rs) ws ((x, sign == '-') :: xs) e
  | badLetter {sign : Char} {r : Text.Rune} {rs : List Text.Rune} {ws : List String} (hr : r ≠ .char 'o')
      (hx : Switch.ofName? (letterText r) = none) :
      Asks sign (r :: rs) ws [] (.refused (String.ofList (sign :: Text.utf8 r.value) ++ ": invalid option"))
  -- an `o` takes its option from the next word
  | name {sign : Char} {rs : List Text.Rune} {a : String} {ws : List String} {x : Switch} {xs : List (Switch × Bool)}
      {e : SetEnd} (hx : Switch.ofName? a = some x) (rest : Asks sign rs ws xs e) :
      Asks sign (.char 'o' :: rs) (a :: ws) ((x, sign == '-') :: xs) e
  | badName {sign : Char} {rs : List Text.Rune} {a : String} {ws : List String} (hx : Switch.ofName? a = none) :
      Asks sign (.char 'o' :: rs) (a :: ws) [] (.refused (a ++ ": invalid option name"))
  | list {sign : Char} {rs : List Text.Rune} : Asks sign (.char 'o' :: rs) [] [] (.list (sign == '-'))

namespace Asks

variable {sign : Char} {rs : List Text.Rune} {ws : List String} {xs : List (Switch × Bool)} {e : SetEnd}

theorem exists_asks (ws : List String) : ∀ (sign : Char) (rs : List Text.Rune), ∃ xs e, Asks sign rs ws xs e := by
  induction ws with
  | nil =>
      intro sign rs
      induction rs with
      | nil => exact ⟨_, _, .finished⟩
      | cons r rs ih =>
          by_cases hr : r = .char 'o'
          · subst hr
            exact ⟨_, _, .list⟩
          · cases hx : Switch.ofName? (letterText r) with
            | none => exact ⟨_, _, .badLetter hr hx⟩
            | some x =>
                obtain ⟨xs, e, h⟩ := ih
                exact ⟨_, _, .letter hr hx h⟩
  | cons a ws ihws =>
      intro sign rs
      induction rs with
      | nil =>
          by_cases hsole : a = "-" ∨ a = "+"
          · exact ⟨_, _, .sole hsole⟩
          · by_cases hother : a = "--"
            · subst hother
              exact ⟨_, _, .separator⟩
            · by_cases ha : ∃ sign letters, IsOptionWord a sign letters
              · obtain ⟨sign', letters, ha⟩ := ha
                obtain ⟨xs, e, h⟩ := ihws sign' (Text.runesOf letters)
                exact ⟨_, _, .word ha h⟩
              · exact ⟨_, _, .operand hsole hother fun sign' letters h => ha ⟨sign', letters, h⟩⟩
      | cons r rs ih =>
          by_cases hr : r = .char 'o'
          · subst hr
            cases hx : Switch.ofName? a with
            | none => exact ⟨_, _, .badName hx⟩
            | some x =>
                obtain ⟨xs, e, h⟩ := ihws sign rs
                exact ⟨_, _, .name hx h⟩
          · cases hx : Switch.ofName? (letterText r) with
            | none => exact ⟨_, _, .badLetter hr hx⟩
            | some x =>
                obtain ⟨xs, e, h⟩ := ih
                exact ⟨_, _, .letter hr hx h⟩

theorem unique {xs' : List (Switch × Bool)} {e' : SetEnd} (h : Asks sign rs ws xs e) (h' : Asks sign rs ws xs' e') :
    xs' = xs ∧ e' = e := by
  induction h generalizing xs' e' with
  | finished =>
      cases h'
      exact ⟨rfl, rfl⟩
  | separator =>
      cases h' with
      | separator => exact ⟨rfl, rfl⟩
      | sole ha => exact absurd ha (by decide)
      | operand _ hother => exact absurd rfl hother
      | word ha => exact absurd rfl ha.other
  | sole ha =>
      cases h' with
      | separator => exact absurd ha (by decide)
      | sole => exact ⟨rfl, rfl⟩
      | operand hsole => exact absurd ha hsole
      | word hword => exact absurd ha hword.ne_sole
  | operand hsole hother ha =>
      cases h' with
      | separator => exact absurd rfl hother
      | sole ha => exact absurd ha hsole
      | operand => exact ⟨rfl, rfl⟩
      | word hword => exact absurd hword (ha _ _)
  | word ha rest ih =>
      cases h' with
      | separator => exact absurd rfl ha.other
      | sole hsole => exact absurd hsole ha.ne_sole
      | operand _ _ hword => exact absurd ha (hword _ _)
      | word ha' rest' =>
          cases ha.text.symm.trans ha'.text
          exact ih rest'
  | letter hr hx rest ih =>
      cases h' with
      | letter _ hx' rest' =>
          cases hx.symm.trans hx'
          obtain ⟨rfl, rfl⟩ := ih rest'
          exact ⟨rfl, rfl⟩
      | badLetter _ hx' => cases hx.symm.trans hx'
      | name | badName | list => exact absurd rfl hr
  | badLetter hr hx =>
      cases h' with
      | letter _ hx' => cases hx.symm.trans hx'
      | badLetter => exact ⟨rfl, rfl⟩
      | name | badName | list => exact absurd rfl hr
  | name hx rest ih =>
      cases h' with
      | letter hr | badLetter hr => exact absurd rfl hr
      | name hx' rest' =>
          cases hx.symm.trans hx'
          obtain ⟨rfl, rfl⟩ := ih rest'
          exact ⟨rfl, rfl⟩
      | badName hx' => cases hx.symm.trans hx'
  | badName hx =>
      cases h' with
      | letter hr | badLetter hr => exact absurd rfl hr
      | name hx' => cases hx.symm.trans hx'
      | badName => exact ⟨rfl, rfl⟩
  | list =>
      cases h' with
      | letter hr | badLetter hr => exact absurd rfl hr
      | list => exact ⟨rfl, rfl⟩

end Asks

namespace Command

-- The rest of `set` from within a word on.
def setRest (n : Nat) (sign : Char) (rs : List Text.Rune) (ws : List String) : Run Unit := do
  match ← setLetters sign rs ws with
  | some ws => setFrom n ws
  | none => return

section Rest

variable {n : Nat} {sign : Char} {r : Text.Rune} {rs : List Text.Rune} {ws : List String} {a : String} {s : State}

theorem setFrom_word {letters : List Char} (ha : IsOptionWord a sign letters) :
    setFrom (n + 1) (a :: ws) s = setRest n sign (Text.runesOf letters) ws s := by
  obtain ⟨c, cs, hletters⟩ := List.exists_cons_of_ne_nil ha.letters
  have hother : ¬(a == "--") = true := by simpa using ha.other
  have hsole : ¬(a == "-" || a == "+") = true := by simpa using ha.ne_sole
  have hsign : (sign == '-' || sign == '+') = true := by simpa using ha.sign
  rw [setFrom, if_neg hother, if_neg hsole, ha.text, hletters]
  dsimp only
  rw [if_pos hsign]
  rfl

theorem setFrom_operand (hsole : ¬(a = "-" ∨ a = "+")) (hother : a ≠ "--")
    (ha : ∀ sign letters, ¬IsOptionWord a sign letters) : setFrom (n + 1) (a :: ws) s = setParams (a :: ws) s := by
  have hother' : ¬(a == "--") = true := by simpa using hother
  have hsole' : ¬(a == "-" || a == "+") = true := by simpa using hsole
  rw [setFrom, if_neg hother', if_neg hsole']
  rcases htext : a.toList with _ | ⟨sign, _ | ⟨c, cs⟩⟩
  · rfl
  · rfl
  · have hsign : ¬(sign == '-' || sign == '+') = true := by
      intro hsign
      exact ha sign (c :: cs) ⟨htext, by simpa using hsign, List.cons_ne_nil _ _, hother⟩
    dsimp only
    rw [if_neg hsign]

-- The letters that are left are read in the same way, or the command ends there.

theorem setRest_of_letters {rs' : List Text.Rune} {ws' : List String} {t : State}
    (h : setLetters sign rs ws s = setLetters sign rs' ws' t) : setRest n sign rs ws s = setRest n sign rs' ws' t := by
  change EStateM.bind _ _ _ = EStateM.bind _ _ _
  simp only [EStateM.bind, h]

theorem setRest_of_end {m : Run Unit} {t : State} (h : setLetters sign rs ws s = (m >>= fun _ => pure none) s)
    (hm : m s = .ok () t) : setRest n sign rs ws s = m s := by
  rw [setRest, bind_of_ok (h.trans (bind_of_ok hm _)), hm]
  rfl

theorem setRest_letter {x : Switch} (hr : r ≠ .char 'o') (hx : Switch.ofName? (letterText r) = some x) :
    setRest n sign (r :: rs) ws s = setRest n sign rs ws (withOptions s (x.turn s.shell.options (sign == '-'))) := by
  have hletter : ¬(r == .char 'o') = true := by simpa using hr
  refine setRest_of_letters ?_
  rw [setLetters, shell_bind, if_neg hletter, setOption?_eq, ← letterText, hx]
  rfl

theorem setRest_badLetter (hr : r ≠ .char 'o') (hx : Switch.ofName? (letterText r) = none) :
    setRest n sign (r :: rs) ws s = usage "set" (String.ofList (sign :: Text.utf8 r.value) ++ ": invalid option") s := by
  have hletter : ¬(r == .char 'o') = true := by simpa using hr
  refine setRest_of_end ?_ (complainWith_eq ..)
  rw [setLetters, shell_bind, if_neg hletter, setOption?_eq, ← letterText, hx]
  rfl

theorem setRest_name {x : Switch} (hx : Switch.ofName? a = some x) : setRest n sign (.char 'o' :: rs) (a :: ws) s =
    setRest n sign rs ws (withOptions s (x.turn s.shell.options (sign == '-'))) := by
  refine setRest_of_letters ?_
  rw [setLetters, shell_bind, if_pos (beq_self_eq_true _)]
  simp only [setOption?_eq, hx]
  rfl

theorem setRest_badName (hx : Switch.ofName? a = none) : setRest n sign (.char 'o' :: rs) (a :: ws) s =
    usage "set" (a ++ ": invalid option name") s := by
  refine setRest_of_end ?_ (complainWith_eq ..)
  rw [setLetters, shell_bind, if_pos (beq_self_eq_true _)]
  simp only [setOption?_eq, hx]
  rfl

theorem setRest_list : setRest n sign (.char 'o' :: rs) [] s = printOptions (sign == '-') s := by
  refine setRest_of_end ?_ (shell_bind _ _ |>.trans (print_eq ..))
  rw [setLetters, shell_bind, if_pos (beq_self_eq_true _)]

end Rest

end Command

-- What the words ask for is done, one after another.
theorem Asks.run {sign : Char} {rs : List Text.Rune} {ws : List String} {xs : List (Switch × Bool)} {e : SetEnd}
    (h : Asks sign rs ws xs e) {n : Nat} (hn : ws.length ≤ n) (s : State) :
    Command.setRest n sign rs ws s = e.run (Command.withOptions s (s.shell.options.turnAll xs)) := by
  have hmore {a : String} {ws : List String} {n : Nat} (hn : (a :: ws).length ≤ n) : ∃ m, n = m + 1 ∧ ws.length ≤ m :=
    ⟨n - 1, by rw [List.length_cons] at hn; omega⟩
  induction h generalizing n s with
  | finished => cases n <;> rfl
  | separator =>
      obtain ⟨m, rfl, -⟩ := hmore hn
      rfl
  | @sole _ a ws ha =>
      obtain ⟨m, rfl, -⟩ := hmore hn
      rcases ha with rfl | rfl <;> cases ws <;> rfl
  | operand hsole hother ha =>
      obtain ⟨m, rfl, -⟩ := hmore hn
      exact Command.setFrom_operand hsole hother ha
  | word ha rest ih =>
      obtain ⟨m, rfl, hm⟩ := hmore hn
      exact (Command.setFrom_word ha).trans (ih hm s)
  | letter hr hx rest ih =>
      rw [Command.setRest_letter hr hx, ih hn]
      rfl
  | badLetter hr hx => exact Command.setRest_badLetter hr hx
  | name hx rest ih =>
      rw [Command.setRest_name hx, ih (Nat.le_of_succ_le hn)]
      rfl
  | badName hx => exact Command.setRest_badName hx
  | list => exact Command.setRest_list

-- Only a refusal has a status of its own, and it leaves the parameters alone.
theorem SetEnd.run_ok (e : SetEnd) (s : State) (hstatus : s.shell.status = 0) : ∃ t, e.run s = .ok () t ∧
    t.shell = { s.shell with status := t.shell.status, params := t.shell.params } ∧
      (t.shell.status = 2 ↔ ∃ message, e = .refused message) ∧ (t.shell.status = 2 → t.shell.params = s.shell.params) := by
  cases e with
  | params words => exact ⟨_, rfl, rfl, by simp [hstatus], by simp [hstatus]⟩
  | nothing => exact ⟨_, rfl, rfl, by simp [hstatus], by simp [hstatus]⟩
  | list table => exact ⟨_, (shell_bind _ _).trans (print_eq ..), rfl, by simp [hstatus], by simp [hstatus]⟩
  | refused message => exact ⟨_, complainWith_eq .., rfl, ⟨fun _ => ⟨message, rfl⟩, fun _ => rfl⟩, fun _ => rfl⟩

theorem set_run {args : List String} {xs : List (Switch × Bool)} {e : SetEnd} (h : Asks '-' [] args xs e) (s : State) :
    ∃ t, Command.set args s = .ok () t ∧
      t.shell = { s.shell with
        status := t.shell.status, params := t.shell.params, options := s.shell.options.turnAll xs } ∧
      (t.shell.status = 2 ↔ ∃ message, e = .refused message) ∧ (t.shell.status = 2 → t.shell.params = s.shell.params) := by
  let started : State := { s with shell := { s.shell with status := 0 } }
  cases args with
  | nil =>
      obtain ⟨w, hw⟩ := Command.printVars_ok s.shell.env.names started
      cases h
      exact ⟨_, hw, rfl, by simp [started], by simp [started]⟩
  | cons a args =>
      obtain ⟨t, hend, hrest⟩ := e.run_ok (Command.withOptions started (s.shell.options.turnAll xs)) rfl
      exact ⟨t, (h.run (Nat.le_succ _) started).trans hend, hrest⟩

-- Where `set` is used wrongly, the parameters are what they were. The options are those that the words in front of the
-- refused one ask for, and they are what they were only if these words ask for nothing new.
theorem set_refused (args : List String) (s : State) : ∃ xs e, Asks '-' [] args xs e ∧
    (∀ xs' e', Asks '-' [] args xs' e' → xs' = xs ∧ e' = e) ∧ ∃ t, Command.set args s = .ok () t ∧
      (t.shell.status = 2 ↔ ∃ message, e = .refused message) ∧
      (t.shell.status = 2 → t.shell = { s.shell with status := 2, options := s.shell.options.turnAll xs } ∧
        (t.shell.options = s.shell.options ↔ ∀ x on, xs.reverse.lookup x = some on → x.isOn s.shell.options = on)) := by
  obtain ⟨xs, e, h⟩ := Asks.exists_asks args '-' []
  obtain ⟨t, hrun, hshell, hstatus, hparams⟩ := set_run h s
  refine ⟨xs, e, h, fun xs' e' h' => h.unique h', t, hrun, hstatus, fun htwo => ?_⟩
  rw [htwo, hparams htwo] at hshell
  exact ⟨hshell, by rw [hshell]; exact Options.turnAll_eq_self_iff ..⟩

-- `set -fZ` turns `noglob` on.
theorem set_refuses_halfway :
    let s : State := {}
    let t := stateOf (Command.set ["-fZ"] s)
    t.shell.status = 2 ∧ t.shell.options ≠ s.shell.options := by
  decide +kernel

end Machine
end ShellScript

import ShellScript.Text.Quoted
import ShellScript.Machine.Command.Settings
import ShellScript.Program.OfScript
import ShellScript.Proofs.Machine.ControlFlow

-- Option words such as `-eu` or `-xo pipefail`, read by the interpreter line of a script and by the command `set`. The
-- two agree on every letter but one: on an interpreter line an `o` counts only if its word has no other letter.
namespace ShellScript

namespace Text

-- Words without quotes, escapes and blanks come out of a line as they went in.

-- A character that stands for itself wherever a line is split.
structure IsWordChar (c : Char) : Prop where
  ascii : c.toNat < 0x80
  space : isSpace c = false
  single : c ≠ '\''
  double : c ≠ '"'
  escape : c ≠ '\\'

instance (c : Char) : Decidable (IsWordChar c) :=
  decidable_of_iff (c.toNat < 0x80 ∧ isSpace c = false ∧ c ≠ '\'' ∧ c ≠ '"' ∧ c ≠ '\\')
    ⟨fun ⟨h₁, h₂, h₃, h₄, h₅⟩ => ⟨h₁, h₂, h₃, h₄, h₅⟩, fun ⟨h₁, h₂, h₃, h₄, h₅⟩ => ⟨h₁, h₂, h₃, h₄, h₅⟩⟩

def IsWord (cs : List Char) : Prop := cs ≠ [] ∧ ∀ c ∈ cs, IsWordChar c

-- The characters of the list are tried, not all that there are.
instance (cs : List Char) : Decidable (IsWord cs) := @instDecidableAnd _ _ inferInstance (List.decidableBAll IsWordChar cs)

theorem splitRunes_word {cs : List Char} (h : ∀ c ∈ cs, IsWordChar c) (cur : List Rune) (words : List (List Rune))
    (rest : List Rune) :
    splitRunes .plain cur words (cs.map .char ++ rest) = splitRunes .plain ((cs.map .char).reverse ++ cur) words rest := by
  induction cs generalizing cur with
  | nil => rfl
  | cons c cs ih =>
      obtain ⟨hc, hcs⟩ := List.forall_mem_cons.mp h
      have hspace : (Rune.char c).isSpace = false := hc.space
      have hstep : splitRunes .plain cur words (.char c :: (cs.map .char ++ rest)) =
          splitRunes .plain (.char c :: cur) words (cs.map .char ++ rest) := by
        simp [splitRunes, hspace, Rune.value, hc.single, hc.double, hc.escape]
      rw [List.map_cons, List.cons_append, hstep, ih hcs, List.reverse_cons, List.append_assoc, List.singleton_append]

theorem runesOf_append {cs : List Char} (h : ∀ c ∈ cs, c.toNat < 0x80) (rest : List Char) :
    runesOf (cs ++ rest) = cs.map .char ++ runesOf rest := by
  induction cs with
  | nil => rfl
  | cons c cs ih =>
      obtain ⟨hc, hcs⟩ := List.forall_mem_cons.mp h
      rw [List.cons_append, runesOf_cons hc, ih hcs, List.map_cons, List.cons_append]

-- A blank ends the word before it, and so does the end of the line.
theorem splitRunes_words {ws : List (List Char)} (h : ∀ w ∈ ws, IsWord w) {w : List Char} (hw : IsWord w)
    (words : List (List Rune)) :
    splitRunes .plain [] words (runesOf ([' '].intercalate (w :: ws))) =
      .ok (words.reverse ++ (w :: ws).map (List.map .char)) := by
  have hascii {v : List Char} (hv : IsWord v) : ∀ c ∈ v, c.toNat < 0x80 := fun c hc => (hv.2 c hc).ascii
  induction ws generalizing w words with
  | nil =>
      rw [List.intercalate_singleton, ← List.append_nil w, runesOf_append (hascii hw), splitRunes_word hw.2,
        List.append_nil, List.append_nil]
      simp [runesOf_of_ascii, splitRunes, pushWord, hw.1]
  | cons v ws ih =>
      obtain ⟨hv, hws⟩ := List.forall_mem_cons.mp h
      have hblank : splitRunes .plain (w.map .char).reverse words (.char ' ' :: runesOf ([' '].intercalate (v :: ws))) =
          splitRunes .plain [] (w.map .char :: words) (runesOf ([' '].intercalate (v :: ws))) := by
        simp [splitRunes, Rune.isSpace, isSpace, pushWord, hw.1]
      rw [List.intercalate_cons_cons, List.append_assoc, runesOf_append (hascii hw), splitRunes_word hw.2,
        List.singleton_append, runesOf_cons (by decide), List.append_nil, hblank, ih hws hv]
      simp

theorem shellWords_joinWith {ws : List String} (h : ∀ w ∈ ws, IsWord w.toList) :
    shellWords (joinWith " " ws) = .ok ws := by
  cases ws with
  | nil => rfl
  | cons w ws =>
      have hlists : ∀ v ∈ (w :: ws).map String.toList, IsWord v := by simpa using h
      have hback : ∀ v ∈ w :: ws, ofRunes (v.toList.map .char) = v := by
        intro v hv
        rw [ofRunes_of_ascii fun c hc => ((h v hv).2 c hc).ascii, String.ofList_toList]
      obtain ⟨hw, hws⟩ := List.forall_mem_cons.mp hlists
      have hsplit := splitRunes_words hws hw []
      have hjoin : runes (joinWith " " (w :: ws)) = runesOf ([' '].intercalate ((w :: ws).map String.toList)) :=
        congrArg runesOf String.toList_intercalate
      rw [shellWords, hjoin, List.map_cons, hsplit]
      refine congrArg Except.ok ?_
      simp only [List.reverse_nil, List.nil_append, ← List.map_cons, List.map_map]
      exact (List.map_congr_left hback).trans (List.map_id _)

end Text

namespace Program

inductive Switch where
  | errexit
  | nounset
  | pipefail
  | xtrace
  | noglob
deriving DecidableEq

namespace Switch

def name : Switch → String
  | .errexit => "errexit"
  | .nounset => "nounset"
  | .pipefail => "pipefail"
  | .xtrace => "xtrace"
  | .noglob => "noglob"

def turnOn (o : Options) : Switch → Options
  | .errexit => { o with errexit := true }
  | .nounset => { o with nounset := true }
  | .pipefail => { o with pipefail := true }
  | .xtrace => { o with xtrace := true }
  | .noglob => { o with noglob := true }

def isOn (o : Options) : Switch → Bool
  | .errexit => o.errexit
  | .nounset => o.nounset
  | .pipefail => o.pipefail
  | .xtrace => o.xtrace
  | .noglob => o.noglob

end Switch

def Options.turnOnAll (o : Options) (xs : List Switch) : Options := xs.foldl Switch.turnOn o

theorem Options.turnOnAll_append (o : Options) (xs ys : List Switch) :
    o.turnOnAll (xs ++ ys) = (o.turnOnAll xs).turnOnAll ys := List.foldl_append

theorem Options.ext_isOn {o o' : Options} (h : ∀ x : Switch, x.isOn o = x.isOn o') : o = o' := by
  obtain ⟨e, n, p, x, g⟩ := o
  have he : e = o'.errexit := h .errexit
  have hn : n = o'.nounset := h .nounset
  have hp : p = o'.pipefail := h .pipefail
  have hx : x = o'.xtrace := h .xtrace
  have hg : g = o'.noglob := h .noglob
  rw [he, hn, hp, hx, hg]

theorem Switch.isOn_turnOn (x y : Switch) (o : Options) : x.isOn (y.turnOn o) = (x.isOn o || decide (x = y)) := by
  cases x <;> cases y <;> simp [isOn, turnOn]

theorem Options.isOn_turnOnAll (x : Switch) (xs : List Switch) (o : Options) :
    x.isOn (o.turnOnAll xs) = (x.isOn o || decide (x ∈ xs)) := by
  induction xs generalizing o with
  | nil => simp [turnOnAll]
  | cons y ys ih =>
      rw [turnOnAll, List.foldl_cons, ← turnOnAll, ih, Switch.isOn_turnOn, Bool.or_assoc]
      simp

-- A letter of an option word. The option that an `o` names stands in a word of its own.
inductive OptionLetter where
  | e
  | u
  | x
  | f
  | o (named : Switch)
deriving DecidableEq

namespace OptionLetter

def char : OptionLetter → Char
  | .e => 'e'
  | .u => 'u'
  | .x => 'x'
  | .f => 'f'
  | .o _ => 'o'

def switch : OptionLetter → Switch
  | .e => .errexit
  | .u => .nounset
  | .x => .xtrace
  | .f => .noglob
  | .o named => named

def named? : OptionLetter → Option Switch
  | .o named => some named
  | _ => none

-- What a letter is to an interpreter line that takes it by itself.
def ownSwitch? : OptionLetter → Option Switch
  | .o _ => none
  | l => some l.switch

end OptionLetter

-- An option word, with the options that it names.
structure OptionWord where
  first : OptionLetter
  more : List OptionLetter := []

namespace OptionWord

def letters (w : OptionWord) : List OptionLetter := w.first :: w.more

def text (w : OptionWord) : String := String.ofList ('-' :: w.letters.map OptionLetter.char)

-- The options that take a word of their own each, after the word itself.
def named (w : OptionWord) : List Switch := w.letters.filterMap OptionLetter.named?

def args (w : OptionWord) : List String := w.text :: w.named.map Switch.name

def switches (w : OptionWord) : List Switch := w.letters.map OptionLetter.switch

-- What an interpreter line makes of the word.
def lineSwitches (w : OptionWord) : List Switch :=
  if w.more = [] then w.switches else w.letters.filterMap OptionLetter.ownSwitch?

-- An option that an `o` among other letters names.
def InCluster (w : OptionWord) (x : Switch) : Prop := w.more ≠ [] ∧ .o x ∈ w.letters

end OptionWord

-- The interpreter line of a script that is run by `bash` with these options.
def interpreterLine (ws : List OptionWord) : String :=
  "#!" ++ Text.joinWith " " ("/bin/bash" :: ws.flatMap OptionWord.args)

section Line

variable {ws : List OptionWord}

theorem OptionLetter.isWordChar_char (l : OptionLetter) : Text.IsWordChar l.char := by
  cases l with
  | o named => exact (by decide : Text.IsWordChar 'o')
  | _ => decide

theorem Switch.isWord_name (x : Switch) : Text.IsWord x.name.toList := by
  cases x <;> decide

theorem OptionWord.isWord_of_mem_args {w : OptionWord} {a : String} (h : a ∈ w.args) : Text.IsWord a.toList := by
  rcases List.mem_cons.mp h with rfl | h
  · rw [text, String.toList_ofList]
    refine ⟨List.cons_ne_nil _ _, List.forall_mem_cons.mpr ⟨by decide, fun c hc => ?_⟩⟩
    obtain ⟨l, -, rfl⟩ := List.mem_map.mp hc
    exact l.isWordChar_char
  · obtain ⟨x, -, rfl⟩ := List.mem_map.mp h
    exact x.isWord_name

theorem withoutPrefix_append (p s : String) : Text.withoutPrefix (p ++ s) p = s := by
  simp [Text.withoutPrefix, Text.hasPrefix, Text.dropFront]

theorem Options.ofShebang_interpreterLine (o : Options) (ws : List OptionWord) :
    o.ofShebang (interpreterLine ws) = o.setFlags (ws.flatMap OptionWord.args) := by
  have hwords : ∀ a ∈ "/bin/bash" :: ws.flatMap OptionWord.args, Text.IsWord a.toList := by
    refine List.forall_mem_cons.mpr ⟨by decide, fun a ha => ?_⟩
    obtain ⟨w, -, ha⟩ := List.mem_flatMap.mp ha
    exact w.isWord_of_mem_args ha
  rw [ofShebang, interpreterLine, withoutPrefix_append, Text.shellWords_joinWith hwords]

-- Names of options are no option words.
theorem Options.setFlags_names (o : Options) (names : List Switch) (rest : List String) :
    o.setFlags (names.map Switch.name ++ rest) = o.setFlags rest := by
  induction names with
  | nil => rfl
  | cons x xs ih =>
      rw [List.map_cons, List.cons_append, ← ih]
      cases x <;> rfl

theorem Options.setName_name (o : Options) (x : Switch) : o.setName x.name = x.turnOn o := by
  cases x <;> rfl

theorem Options.foldl_setLetter (o : Options) (ls : List OptionLetter) :
    (ls.map OptionLetter.char).foldl setLetter o = o.turnOnAll (ls.filterMap OptionLetter.ownSwitch?) := by
  induction ls generalizing o with
  | nil => rfl
  | cons l ls ih =>
      rw [List.map_cons, List.foldl_cons, ih]
      cases l <;> rfl

theorem OptionWord.toList_text (w : OptionWord) : w.text.toList = '-' :: w.first.char :: w.more.map OptionLetter.char :=
  String.toList_ofList

theorem OptionLetter.char_ne_dash (l : OptionLetter) : l.char ≠ '-' := by
  cases l with
  | o named => exact (by decide : 'o' ≠ '-')
  | _ => decide

-- Of the words that are no single `o`, each letter is taken by itself.
theorem Options.setFlags_letters (o : Options) {w : OptionWord} (h : w.text ≠ "-o") (rest : List String) :
    o.setFlags (w.args ++ rest) =
      (o.turnOnAll (w.letters.filterMap OptionLetter.ownSwitch?)).setFlags rest := by
  rw [OptionWord.args, List.cons_append, setFlags, OptionWord.toList_text]
  · have hdash : (w.first.char == '-') = false := beq_eq_false_iff_ne.mpr w.first.char_ne_dash
    simp only [hdash, Bool.false_eq_true, if_false]
    rw [setFlags_names, ← List.map_cons, foldl_setLetter]
    rfl
  · exact fun _ _ hw _ => h hw

theorem Options.setFlags_args (o : Options) (w : OptionWord) (rest : List String) :
    o.setFlags (w.args ++ rest) = (o.turnOnAll w.lineSwitches).setFlags rest := by
  obtain ⟨first, more⟩ := w
  cases more with
  | nil =>
      cases first with
      | o named =>
          have hname : o.setFlags ("-o" :: named.name :: rest) = (o.setName named.name).setFlags rest := rfl
          exact hname.trans (congrArg (setFlags · rest) (o.setName_name named))
      | _ => exact setFlags_letters o (by decide) rest
  | cons l ls =>
      refine setFlags_letters o (fun htext => ?_) rest
      have hlength := congrArg (List.length ∘ String.toList) htext
      simp [OptionWord.toList_text] at hlength

theorem Options.setFlags_flatMap_args (o : Options) (ws : List OptionWord) :
    o.setFlags (ws.flatMap OptionWord.args) = o.turnOnAll (ws.flatMap OptionWord.lineSwitches) := by
  induction ws generalizing o with
  | nil => rfl
  | cons w ws ih =>
      rw [List.flatMap_cons, setFlags_args, ih, List.flatMap_cons, turnOnAll_append]

end Line

theorem OptionLetter.switch_eq_iff (l : OptionLetter) (x : Switch) :
    l.switch = x ↔ l.ownSwitch? = some x ∨ l = .o x := by
  cases l with
  | o named => exact ⟨fun h => .inr (congrArg _ h), fun h => h.elim nofun fun h => OptionLetter.o.inj h⟩
  | _ => exact ⟨fun h => .inl (congrArg some h), fun h => h.elim Option.some.inj nofun⟩

theorem OptionWord.mem_switches_iff (w : OptionWord) (x : Switch) :
    x ∈ w.switches ↔ x ∈ w.lineSwitches ∨ w.InCluster x := by
  by_cases hmore : w.more = []
  · rw [lineSwitches, if_pos hmore]
    exact ⟨.inl, fun h => h.elim id fun h => absurd hmore h.1⟩
  · rw [lineSwitches, if_neg hmore, InCluster, switches, List.mem_map, List.mem_filterMap]
    constructor
    · rintro ⟨l, hl, hx⟩
      rcases (l.switch_eq_iff x).mp hx with hown | rfl
      · exact .inl ⟨l, hl, hown⟩
      · exact .inr ⟨hmore, hl⟩
    · rintro (⟨l, hl, hown⟩ | ⟨-, hl⟩)
      · exact ⟨l, hl, (l.switch_eq_iff x).mpr (.inl hown)⟩
      · exact ⟨_, hl, rfl⟩

end Program

namespace Machine

open Program (Options Switch OptionLetter OptionWord interpreterLine)
open Run

namespace Command

theorem setOption_name (o : Options) (x : Switch) : setOption? o x.name true = some (x.turnOn o) := by
  cases x <;> rfl

theorem setOption_char (o : Options) {l : OptionLetter} (h : l.named? = none) :
    setOption? o (String.ofList (Text.utf8 l.char)) true = some (l.switch.turnOn o) := by
  cases l with
  | o named => cases h
  | _ => rfl

def withOptions (s : State) (o : Options) : State := { s with shell := { s.shell with options := o } }

-- One letter of an option word, after which `args` are left.
theorem setLetters_letter (l : OptionLetter) (rs : List Text.Rune) (args : List String) (s : State) :
    setLetters '-' (.char l.char :: rs) ((l.named?.map Switch.name).toList ++ args) s =
      setLetters '-' rs args (withOptions s (l.switch.turnOn s.shell.options)) := by
  cases hl : l.named? with
  | some x =>
      cases l with
      | o named =>
          cases hl
          have hrune : (Text.Rune.char (OptionLetter.o x).char == .char 'o') = true := beq_self_eq_true _
          simp only [Option.map_some, Option.toList_some, List.singleton_append, setLetters, hrune, if_true]
          rw [shell_bind, beq_self_eq_true, setOption_name]
          rfl
      | _ => cases hl
  | none =>
      have hrune : (Text.Rune.char l.char == .char 'o') = false := by
        cases l with
        | o named => cases hl
        | _ => decide
      simp only [Option.map_none, Option.toList_none, List.nil_append, setLetters, hrune]
      rw [shell_bind, beq_self_eq_true, Text.Rune.value, setOption_char _ hl]
      rfl

theorem setLetters_letters (ls : List OptionLetter) (rest : List String) (s : State) :
    setLetters '-' (ls.map fun l => .char l.char) ((ls.filterMap OptionLetter.named?).map Switch.name ++ rest) s =
      .ok (some rest) (withOptions s (s.shell.options.turnOnAll (ls.map OptionLetter.switch))) := by
  induction ls generalizing s with
  | nil => rfl
  | cons l ls ih =>
      have hargs : ((l :: ls).filterMap OptionLetter.named?).map Switch.name ++ rest =
          (l.named?.map Switch.name).toList ++ ((ls.filterMap OptionLetter.named?).map Switch.name ++ rest) := by
        cases hl : l.named? <;> simp [hl]
      rw [hargs, List.map_cons, setLetters_letter, ih]
      rfl

theorem OptionWord.text_ne (w : OptionWord) : w.text ≠ "--" ∧ w.text ≠ "-" ∧ w.text ≠ "+" := by
  have hne (t : String) (h : t.toList[1]? = none ∨ t.toList[1]? = some '-') : w.text ≠ t := by
    rintro rfl
    rw [OptionWord.toList_text] at h
    rcases h with h | h
    · cases h
    · exact w.first.char_ne_dash (Option.some.inj h)
  exact ⟨hne _ (.inr (by decide)), hne _ (.inl (by decide)), hne _ (.inl (by decide))⟩

theorem setFrom_args (n : Nat) (w : OptionWord) (rest : List String) (s : State) :
    setFrom (n + 1) (w.args ++ rest) s =
      setFrom n rest (withOptions s (s.shell.options.turnOnAll w.switches)) := by
  obtain ⟨hend, hminus, hplus⟩ := OptionWord.text_ne w
  have hrunes : Text.runesOf (w.first.char :: w.more.map OptionLetter.char) = w.letters.map fun l => .char l.char := by
    rw [OptionWord.letters, ← List.map_cons, Text.runesOf_of_ascii, List.map_map]
    · rfl
    · intro c hc
      obtain ⟨l, -, rfl⟩ := List.mem_map.mp hc
      exact l.isWordChar_char.ascii
  simp only [OptionWord.args, List.cons_append, setFrom, OptionWord.toList_text, beq_eq_false_iff_ne.mpr hend,
    beq_eq_false_iff_ne.mpr hminus, beq_eq_false_iff_ne.mpr hplus, hrunes]
  exact bind_of_ok (setLetters_letters w.letters rest s) _

theorem setFrom_flatMap_args {ws : List OptionWord} {n : Nat} (hn : ws.length ≤ n) (s : State) :
    setFrom n (ws.flatMap OptionWord.args) s =
      .ok () (withOptions s (s.shell.options.turnOnAll (ws.flatMap OptionWord.switches))) := by
  induction ws generalizing n s with
  | nil => cases n <;> rfl
  | cons w ws ih =>
      obtain ⟨n, rfl⟩ := Nat.exists_eq_add_one_of_ne_zero (Nat.ne_of_gt (Nat.lt_of_lt_of_le (Nat.zero_lt_succ _) hn))
      rw [List.flatMap_cons, setFrom_args, ih (Nat.le_of_succ_le_succ hn), List.flatMap_cons,
        Options.turnOnAll_append]
      rfl

-- Without an argument, `set` only writes.
theorem printVars_ok (names : List String) (s : State) : ∃ w, printVars names s = .ok () { s with world := w } := by
  induction names generalizing s with
  | nil => exact ⟨s.world, rfl⟩
  | cons n ns ih =>
      have hprint : printLine (n ++ "=" ++ Text.shellQuoted ((s.shell.env.value? n).getD "")) s = .ok () _ := print_eq _ s
      obtain ⟨w, hw⟩ := ih _
      exact ⟨w, (bind_of_ok hprint _).trans hw⟩

theorem set_ok (ws : List OptionWord) (s : State) :
    ∃ t, set (ws.flatMap OptionWord.args) s = .ok () t ∧ t.shell.status = 0 ∧
      t.shell.options = s.shell.options.turnOnAll (ws.flatMap OptionWord.switches) := by
  let started : State := { s with shell := { s.shell with status := 0 } }
  cases ws with
  | nil =>
      obtain ⟨w, hw⟩ := printVars_ok started.shell.env.names started
      exact ⟨{ started with world := w }, hw, rfl, rfl⟩
  | cons w ws =>
      have hlength (vs : List OptionWord) : vs.length ≤ (vs.flatMap OptionWord.args).length + 1 := by
        induction vs with
        | nil => exact Nat.zero_le _
        | cons v vs ih =>
            rw [List.flatMap_cons, List.length_append, List.length_cons, OptionWord.args, List.length_cons]
            omega
      exact ⟨_, setFrom_flatMap_args (hlength (w :: ws)) started, rfl, rfl⟩

end Command

-- `set` takes the words, and turns on what the interpreter line turns on and the options that an `o` among other
-- letters names. The two give the same options exactly when the latter are on without that.
theorem ofShebang_eq_set_iff (ws : List OptionWord) (s : State) :
    ∃ t, Command.set (ws.flatMap OptionWord.args) s = .ok () t ∧ t.shell.status = 0 ∧
      (∀ x : Switch, x.isOn t.shell.options = true ↔
        x.isOn (s.shell.options.ofShebang (interpreterLine ws)) = true ∨ ∃ w ∈ ws, w.InCluster x) ∧
      (s.shell.options.ofShebang (interpreterLine ws) = t.shell.options ↔
        ∀ w ∈ ws, ∀ x, w.InCluster x → x.isOn (s.shell.options.ofShebang (interpreterLine ws)) = true) := by
  obtain ⟨t, ht, hstatus, hoptions⟩ := Command.set_ok ws s
  have hline : s.shell.options.ofShebang (interpreterLine ws) =
      s.shell.options.turnOnAll (ws.flatMap OptionWord.lineSwitches) := by
    rw [Options.ofShebang_interpreterLine, Options.setFlags_flatMap_args]
  have hon (x : Switch) : x.isOn t.shell.options = true ↔
      x.isOn (s.shell.options.ofShebang (interpreterLine ws)) = true ∨ ∃ w ∈ ws, w.InCluster x := by
    rw [hoptions, hline, Options.isOn_turnOnAll, Options.isOn_turnOnAll]
    simp only [Bool.or_eq_true, decide_eq_true_eq, List.mem_flatMap, OptionWord.mem_switches_iff, and_or_left,
      exists_or, or_assoc]
  refine ⟨t, ht, hstatus, hon, ?_, ?_⟩
  · intro heq w hw x hx
    rw [heq]
    exact (hon x).mpr (.inr ⟨w, hw, hx⟩)
  · intro h
    refine Options.ext_isOn fun x => Bool.eq_iff_iff.mpr ?_
    rw [hon x]
    exact ⟨.inl, fun hx => hx.elim id fun ⟨w, hw, hc⟩ => h w hw x hc⟩

-- `#!/bin/bash -eo pipefail` and `set -eo pipefail`.
theorem cluster_loses_named_option :
    ({} : Options).ofShebang "#!/bin/bash -eo pipefail" = { errexit := true } ∧
      (stateOf (Command.set ["-eo", "pipefail"] {})).shell.options = { errexit := true, pipefail := true } := by
  decide +kernel

end Machine
end ShellScript

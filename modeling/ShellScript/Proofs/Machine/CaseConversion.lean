import Mathlib.Data.List.Forall2
import Mathlib.Data.List.TakeDrop
import ShellScript.Program.OfScript
import ShellScript.Proofs.Machine.Parameter
import ShellScript.Proofs.Text.Characters
import ShellScript.Proofs.Token.Closing

-- An operator of a parameter expansion with nothing behind it, as in `${x^^}`. Its argument is there, as a word without
-- parts, when it is read and after it has been lowered.
namespace ShellScript
namespace Construct

-- The characters that begin a construct or count between the braces of an expansion.
def paramMarks : List Char := ['\\', Text.backquote, '$', '\'', '"', '\x7b', '\x7d']

theorem close_param_cons {d : Dialect} {c : Char} (hc : c ∉ paramMarks) (n k left : Nat) (prev : Char) (cs : List Char) :
    close d (n + 1) (.param k) left prev (c :: cs) = close d n (.param k) left c cs := by
  simp only [paramMarks, List.mem_cons, List.not_mem_nil, not_or, or_false] at hc
  simp [close, turn, Frame.step, hc]

-- Text without marks is passed at once.
theorem closeExpansion_plain (d : Dialect) (inDouble : Bool) {cs : List Char} (h : ∀ c ∈ cs, c ∉ paramMarks)
    (rest : List Char) : closeExpansion d inDouble ('\x7b' :: (cs ++ '\x7d' :: rest)) = .ok rest := by
  have hpass (n left : Nat) (prev : Char) :
      ∃ prev', close d (n + cs.length) (.param 1) left prev (cs ++ '\x7d' :: rest) =
        close d n (.param 1) left prev' ('\x7d' :: rest) := by
    induction cs generalizing prev with
    | nil => exact ⟨prev, rfl⟩
    | cons c cs ih =>
        obtain ⟨hc, hcs⟩ := List.forall_mem_cons.mp h
        obtain ⟨prev', ih⟩ := ih hcs c
        exact ⟨prev', (close_param_cons hc _ _ _ _ _).trans ih⟩
  have hlength : ('\x7b' :: (cs ++ '\x7d' :: rest)).length = cs.length + rest.length + 2 := by
    simp only [List.length_cons, List.length_append]
    omega
  have hopen (n left : Nat) (prev : Char) :
      close d (n + 1) (.param 0) left prev ('\x7b' :: (cs ++ '\x7d' :: rest)) =
        close d n (.param 1) left '\x7b' (cs ++ '\x7d' :: rest) := by simp [close, turn, Frame.step, Text.backquote]
  have hstop (n left : Nat) (prev : Char) : close d (n + 1) (.param 1) left prev ('\x7d' :: rest) = .ok rest := by
    simp [close, turn, Frame.step, Frame.tail, Text.backquote]
  have hsteps : 2 * ('\x7b' :: (cs ++ '\x7d' :: rest)).length + 2 = cs.length + 2 * rest.length + 3 + 1 + cs.length + 1 + 1 := by
    rw [hlength]
    omega
  obtain ⟨prev, hprev⟩ := hpass (cs.length + 2 * rest.length + 3 + 1) ('\x7b' :: (cs ++ '\x7d' :: rest)).length.succ '\x7b'
  rw [closeExpansion, hsteps, closeDollar]
  exact (hopen _ _ _).trans (hprev.trans (hstop _ _ _))

end Construct

namespace Script

-- The expansion of a variable with an operator and nothing behind it.
def bareOperator (name : String) (op : ParamOp) : ParamExp :=
  { ParamExp.braced name false false with op := some op, arg := some ⟨[]⟩ }

namespace Read

section Operators

variable (op : ParamOp)

theorem longestFirst_find : (ParamOp.longestFirst.find? fun o => o.text.toList.isPrefixOf op.text.toList) = some op := by
  cases op <;> decide

theorem head_text : ∃ c cs, op.text.toList = c :: cs ∧ Text.isNameChar c = false ∧ c ≠ '[' := by
  cases op <;> exact ⟨_, _, rfl, by decide, by decide⟩

theorem text_plain : ∀ c ∈ op.text.toList, c ∉ Construct.paramMarks := by
  have hall : (op.text.toList.all fun c => decide (c ∉ Construct.paramMarks)) = true := by cases op <;> decide
  exact fun c hc => of_decide_eq_true (List.all_eq_true.mp hall c hc)

end Operators

variable {name : String} (hname : Text.isName name = true) (op : ParamOp)

include hname

theorem span_operator : (name.toList ++ op.text.toList).span Text.isNameChar = (name.toList, op.text.toList) := by
  obtain ⟨-, -, -, -, hchars⟩ := Text.exists_cons_of_isName hname
  obtain ⟨o, os, htext, ho, -⟩ := head_text op
  exact Text.span_name hchars fun c hc => by
    rw [htext] at hc
    cases hc
    exact ho

theorem name_plain : ∀ c ∈ name.toList ++ op.text.toList, c ∉ Construct.paramMarks := by
  have hmarks : Construct.paramMarks.all (!Text.isNameChar ·) = true := by decide
  obtain ⟨-, -, -, -, hchars⟩ := Text.exists_cons_of_isName hname
  intro c hc hmark
  rcases List.mem_append.mp hc with hc | hc
  · have hnot := List.all_eq_true.mp hmarks c hmark
    rw [hchars c hc] at hnot
    cases hnot
  · exact text_plain op c hc hmark

theorem paramExp_bare (s : Setting) {parts : PartsReader} (hparts : ∀ mode p, parts mode p [] = pure [])
    (dollar p : Position) : paramExp s parts dollar p (name.toList ++ op.text.toList) = pure (bareOperator name op) := by
  obtain ⟨c, cs, hlist, hc, -⟩ := Text.exists_cons_of_isName hname
  obtain ⟨o, os, htext, -, ho⟩ := head_text op
  have hne (d : Char) (hd : Text.isNameStart d = false) : c ≠ d := by
    rintro rfl
    rw [hd] at hc
    cases hc
  have hmarks : paramMarks (name.toList ++ op.text.toList) = (false, false, name.toList ++ op.text.toList) := by
    rw [hlist, List.cons_append]
    unfold paramMarks
    split
    · next heq => exact absurd (List.cons.inj heq).1 (hne '#' (by decide))
    · next heq => exact absurd (List.cons.inj heq).1 (hne '!' (by decide))
    · rfl
  have hnamed : paramName? (name.toList ++ op.text.toList) = some (name.toList, op.text.toList) := by
    rw [← span_operator hname op, hlist, List.cons_append, paramName?, if_pos hc]
  have hargs (p : Position) : paramArgs s parts op p [] = pure (⟨[]⟩, none) := by
    cases op <;> simp [paramArgs, hparts, splitTop?, splitTop]
  unfold paramExp
  rw [hmarks]
  dsimp only
  rw [hnamed]
  dsimp only
  have hempty : op.text.toList.isEmpty = false := by rw [htext]; rfl
  have hdrop : op.text.toList.drop op.text.length = [] := by rw [← String.length_toList, List.drop_length]
  rw [Bool.false_and, Bool.false_and, if_neg Bool.false_ne_true]
  split
  · next heq => exact absurd (List.cons.inj (htext.symm.trans heq)).1 ho
  · simp only [pure_bind, hempty, longestFirst_find, hdrop, hargs, String.ofList_toList, Bool.false_eq_true, if_false]
    rfl

theorem partAt_bare (s : Setting) (n : Nat) (mode : Mode) (first : Bool) (g : Gathered) (p : Position) (rest : List Char) :
    partAt s (nested s n) mode first g p '$' ('\x7b' :: (name.toList ++ op.text.toList ++ '\x7d' :: rest)) =
      pure (g.addPart (.param p (bareOperator name op)), rest) := by
  have hparts (mode : Mode) (p : Position) : (nested s n).parts mode p [] = pure [] := by cases n <;> rfl
  have hplain := Construct.closeExpansion_plain s.dialect false (name_plain hname op) rest
  generalize hinner : name.toList ++ op.text.toList = inner at hplain
  have hinside : inside (Construct.closeExpansion s.dialect false ('\x7b' :: (inner ++ '\x7d' :: rest)))
      (inner ++ '\x7d' :: rest) 1 = (inner, rest) := by
    have hlength : (inner ++ '\x7d' :: rest).length - rest.length - 1 = inner.length := by
      simp only [List.length_append, List.length_cons]
      omega
    rw [hplain, inside, hlength, List.take_left]
  have hdollar : dollar s (nested s n) mode p ('\x7b' :: (inner ++ '\x7d' :: rest)) =
      pure (some (.param p (bareOperator name op), rest)) := by
    have hstep {between after : List Char} (h : inside
        (Construct.closeExpansion s.dialect false ('\x7b' :: (inner ++ '\x7d' :: rest))) (inner ++ '\x7d' :: rest) 1 =
          (between, after)) : dollar s (nested s n) mode p ('\x7b' :: (inner ++ '\x7d' :: rest)) =
        paramExp s (nested s n).parts p ((p.step '$').step '\x7b') between >>= fun x =>
          pure (some (.param p x, after)) := by
      obtain ⟨rfl, rfl⟩ := Prod.mk.inj h
      rfl
    rw [hstep hinside, ← hinner, paramExp_bare hname op s hparts, pure_bind]
  change dollar s (nested s n) mode p _ >>= _ = _
  rw [hdollar]
  rfl

end Read
end Script

namespace Program

theorem lowerParam_bare (u : Plan) (index : IndexReader) (name : String) (op : Script.ParamOp) :
    lowerParam u index (Script.bareOperator name op) =
      pure { name, length := false, indirect := false, names := none, index := none, op := some op, arg := some ⟨[]⟩,
             repl := none } := rfl

end Program
end ShellScript

-- Changing the case of a value, from the text of the expansion to what comes of it. An operator without a pattern has an
-- empty pattern by the time that it is expanded, and that matches no character.
namespace ShellScript
namespace Machine

open Program (Param Word Plan IndexReader lowerParam)
open Script (ParamOp bareOperator)
open Script.Read (Setting Mode Gathered partAt nested partAt_bare)
open Regex (Instr Matcher CharSet)
open Text (ofUnicode)

section Patterns

variable {s : String} {r : Text.Rune}

-- The instructions of a pattern that is well formed.
def instrs? : Pattern → Option (List Instr)
  | .compiled m _ => some m.instrs.toList
  | .itself _ => none

theorem exists_matcher {p : Pattern} {is : List Instr} (h : instrs? p = some is) :
    ∃ n, p.matches_ = (Matcher.mk is.toArray n).matchesAt := by
  cases p with
  | compiled m k =>
      obtain rfl := Option.some.inj h
      exact ⟨m.groups, rfl⟩
  | itself t => cases h

theorem instrs_empty : instrs? (Pattern.read "") = some [.assert .textStart 1, .assert .textEnd 2, .accept] := by
  decide +kernel

theorem instrs_any : instrs? (Pattern.read "?") =
    some [.assert .textStart 1, .step ⟨[⟨0, 1114111⟩]⟩ 2, .assert .textEnd 3, .accept] := by decide +kernel

-- No character matches the empty pattern, and each one a question mark.
theorem not_matches_empty (h : Text.runes s = [r]) : (Pattern.read "").matches_ s = false := by
  obtain ⟨n, hn⟩ := exists_matcher instrs_empty
  rw [hn, Matcher.matchesAt, h]
  rfl

theorem matches_any (h : Text.runes s = [r]) : (Pattern.read "?").matches_ s = true := by
  have hvalid : r.value.toNat < 0xD800 ∨ 0xDFFF < r.value.toNat ∧ r.value.toNat < 0x110000 := r.value.valid
  have hany : (CharSet.mk [⟨0, 1114111⟩]).contains r.value = true := by
    simp only [CharSet.contains, Text.CodeRange.anyContains, Text.CodeRange.contains, List.any_cons, List.any_nil,
      Bool.or_false, Bool.and_eq_true, decide_eq_true_eq]
    omega
  obtain ⟨n, hn⟩ := exists_matcher instrs_any
  rw [hn, Matcher.matchesAt, h]
  simp [Matcher.walk, Matcher.states, Matcher.holds, hany]

end Patterns

-- The operators that change every character, and what they change it to.
def changesAll (op : ParamOp) : Bool := op == .upperAll || op == .lowerAll

def changeOf (op : ParamOp) (c : Char) : Char :=
  if op == .upperFirst || op == .upperAll then Text.toUpper c else Text.toLower c

-- A text with its first character changed, or with all of them.
def converted (op : ParamOp) (f : Char → Char) (w : String) : String :=
  match w.toList with
  | [] => ""
  | c :: cs => String.ofList (f c :: if changesAll op then cs.map f else cs)

theorem converted_id (op : ParamOp) {f : Char → Char} (hf : ∀ c, f c = c) (w : String) : converted op f w = w := by
  obtain rfl : f = id := funext hf
  unfold converted
  split
  · next h => rw [← String.toList_inj, h]; rfl
  · next c cs h => rw [List.map_id, ite_self, ← String.toList_inj, h, String.toList_ofList]; rfl

theorem runes_utf8 (c : Char) : Text.runes (String.ofList (Text.utf8 c)) = [.char c] := by
  have hruns := Text.runesOf_utf8 c []
  rwa [List.append_nil, ← String.toList_ofList (l := Text.utf8 c)] at hruns

-- The code changes the characters that match.
theorem changeCase_ofUnicode (op : ParamOp) (p : Pattern) (w : String) : ParamOps.changeCase op p (ofUnicode w) =
    ofUnicode (converted op (fun c => if p.matches_ (String.ofList (Text.utf8 c)) then changeOf op c else c) w) := by
  unfold ParamOps.changeCase converted
  rw [Text.runes_ofUnicode]
  cases w.toList with
  | nil => rfl
  | cons c cs =>
      change String.ofList (Text.utf8 _ ++ (cs.map Text.Rune.char).flatMap _) = ofUnicode (String.ofList _)
      rw [ofUnicode, String.toList_ofList, List.flatMap_cons, List.flatMap_map]
      cases hall : changesAll op with
      | false =>
          have hall : (op == .upperAll || op == .lowerAll) = false := hall
          simp only [hall, Bool.false_eq_true, if_false]
          rfl
      | true =>
          have hall : (op == .upperAll || op == .lowerAll) = true := hall
          simp only [hall, if_true, List.flatMap_map]
          rfl

-- An empty pattern changes nothing, and a question mark all that the operator can change.
theorem changeCase_empty (op : ParamOp) (w : String) :
    ParamOps.changeCase op (Pattern.read "") (ofUnicode w) = ofUnicode w := by
  rw [changeCase_ofUnicode, converted_id]
  exact fun c => if_neg (Bool.eq_false_iff.mp (not_matches_empty (runes_utf8 c)))

theorem changeCase_any (op : ParamOp) (w : String) :
    ParamOps.changeCase op (Pattern.read "?") (ofUnicode w) = ofUnicode (converted op (changeOf op) w) := by
  have hchange : (fun c => if (Pattern.read "?").matches_ (String.ofList (Text.utf8 c)) then changeOf op c else c) =
      changeOf op := funext fun c => if_pos (matches_any (runes_utf8 c))
  rw [changeCase_ofUnicode, hchange]

-- The expansion of a variable with an operator, as it is run.
def caseParam (name : String) (op : ParamOp) (arg : Option Word) : Param :=
  ⟨name, false, false, none, none, some op, arg, none⟩

variable {name : String} {op : ParamOp}

theorem param_caseParam {E : Engine} {s t : State} {v : ParamValue} {arg : Option Word} {pat : String}
    (h : Found E (caseParam name op arg) s v t) (hop : op ∈ caseOps) (hpat : casePattern E arg t = .ok pat t) :
    ∃ r, param E (caseParam name op arg) s = .ok r t ∧ r.plural = v.plural ∧ r.isSet = v.isSet ∧
      r.texts = v.texts.map (ParamOps.changeCase op (Pattern.read pat)) := by
  have hafter : valueAfter (caseParam name op arg).index (lookedUp (caseParam name op arg) s.shell) v t t = v := by
    simp [valueAfter, caseParam]
  have hparam := h.param_case rfl hop hpat
  rw [hafter] at hparam
  exact ⟨_, hparam, v.plural_map _, v.isSet_map _, v.texts_map _⟩

-- Reading an operator without a pattern gives it an empty one, which stays there when it is lowered, so no valid text is
-- changed, unless that is what changing it comes to. Without a pattern it would be changed.
theorem case_without_pattern (hname : Text.isName name = true) (hop : op ∈ caseOps) :
    (∀ s n mode first g p rest,
      partAt s (nested s n) mode first g p '$' ('\x7b' :: (name.toList ++ op.text.toList ++ '\x7d' :: rest)) =
        pure (g.addPart (.param p (bareOperator name op)), rest)) ∧
    (∀ u index, lowerParam u index (bareOperator name op) = pure (caseParam name op (some ⟨[]⟩))) ∧
    ∀ E s v t,
      (Found E (caseParam name op (some ⟨[]⟩)) s v t →
        ∃ r, param E (caseParam name op (some ⟨[]⟩)) s = .ok r t ∧ r.plural = v.plural ∧ r.isSet = v.isSet ∧
          List.Forall₂ (fun a b => ∀ w, a = ofUnicode w →
            b = a ∧ (b = ofUnicode (converted op (changeOf op) w) ↔ converted op (changeOf op) w = w)) v.texts r.texts) ∧
      (Found E (caseParam name op none) s v t →
        ∃ r, param E (caseParam name op none) s = .ok r t ∧ r.plural = v.plural ∧ r.isSet = v.isSet ∧
          List.Forall₂ (fun a b => ∀ w, a = ofUnicode w → b = ofUnicode (converted op (changeOf op) w)) v.texts
            r.texts) := by
  refine ⟨partAt_bare hname op, fun u index => Program.lowerParam_bare u index name op, fun E s v t => ⟨fun h => ?_,
    fun h => ?_⟩⟩
  · have hpat : casePattern E (some ⟨[]⟩) t = .ok "" t := rfl
    obtain ⟨r, hr, hplural, hset, htexts⟩ := param_caseParam h hop hpat
    refine ⟨r, hr, hplural, hset, ?_⟩
    rw [htexts, List.forall₂_map_right_iff, List.forall₂_same]
    rintro - - w rfl
    rw [changeCase_empty]
    exact ⟨rfl, fun heq => (Text.ofUnicode_inj heq).symm, fun heq => by rw [heq]⟩
  · have hpat : casePattern E none t = .ok "?" t := rfl
    obtain ⟨r, hr, hplural, hset, htexts⟩ := param_caseParam h hop hpat
    refine ⟨r, hr, hplural, hset, ?_⟩
    rw [htexts, List.forall₂_map_right_iff, List.forall₂_same]
    rintro - - w rfl
    exact changeCase_any op w

-- `${x^^}` with the value `abc`.
theorem case_of_variable :
    let E := engine { name := "", main := default } true 1 1
    let s : State := { shell := { env := { scope := [("x", { value := "abc" })] } } }
    Text.isName "x" = true ∧ .upperAll ∈ caseOps ∧
      ∃ r, param E (caseParam "x" .upperAll (some ⟨[]⟩)) s = .ok r s ∧ r.texts = ["abc"] := by
  intro E s
  have hname : Text.isName "x" = true := by decide
  have hop : .upperAll ∈ caseOps := by decide
  have hspecial : special? s.shell "x" = none := Option.isNone_iff_eq_none.mp (by decide +kernel)
  have hvalue : lookup E "x" none s = .ok (.ofText "abc") s :=
    congrArg (fun special : Option ParamValue => EStateM.Result.ok (special.getD (.ofText "abc")) s) hspecial
  have hfound : Found E (caseParam "x" .upperAll (some ⟨[]⟩)) s (.ofText "abc") s :=
    ⟨rfl, rfl, nofun, hvalue, .inl rfl⟩
  obtain ⟨r, hr, -, -, htexts⟩ := ((case_without_pattern hname hop).2.2 E s _ s).1 hfound
  obtain ⟨b, bs, hb, hbs, hlist⟩ := List.forall₂_cons_left_iff.mp htexts
  have hascii : "abc" = ofUnicode "abc" := by decide
  refine ⟨hname, hop, r, hr, ?_⟩
  rw [hlist, (hb "abc" hascii).1, List.forall₂_nil_left_iff.mp hbs]
  rfl

-- It is what would be `ABC` without the empty pattern.
theorem case_is_kept :
    let E := engine { name := "", main := default } true 1 1
    let s : State := { shell := { env := { scope := [("x", { value := "abc" })] } } }
    partAt ⟨.bash, ""⟩ (nested ⟨.bash, ""⟩ 1) .unquoted true {} {} '$'
        ('\x7b' :: ("x".toList ++ ParamOp.upperAll.text.toList ++ ['\x7d'])) =
      pure (Gathered.addPart {} (.param {} (bareOperator "x" .upperAll)), []) ∧
    (∀ u index, lowerParam u index (bareOperator "x" .upperAll) = pure (caseParam "x" .upperAll (some ⟨[]⟩))) ∧
    (match param E (caseParam "x" .upperAll (some ⟨[]⟩)) s with
      | .ok r _ => some r.text
      | .error _ _ => none) = some "abc" ∧
    converted .upperAll (changeOf .upperAll) "abc" = "ABC" :=
  ⟨partAt_bare (by decide) .upperAll _ _ _ _ _ _ [], fun _ _ => rfl, by decide +kernel, by decide +kernel⟩

end Machine
end ShellScript

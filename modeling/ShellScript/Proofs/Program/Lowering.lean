import ShellScript.Proofs.Program.Image
import ShellScript.Proofs.Script.FileReading

-- Nothing of a script is lost on the way to a program: what is left out is reported as an error.
namespace ShellScript
namespace Program

-- An action that drops no error, and whose result is of one sort when there is none.
structure Yields {α : Type} (m : Lowering α) (P : α → Prop) : Prop where
  keeps : ∀ ds, Diagnostic.anyFatal ds.toList = true → Diagnostic.anyFatal (m.run ds).2.toList = true
  result : ∀ ds, Diagnostic.anyFatal (m.run ds).2.toList = false → P (m.run ds).1

namespace Yields

variable {α β : Type} {P Q : α → Prop} {R : β → Prop} {m : Lowering α}

theorem pure {a : α} (h : P a) : Yields (Pure.pure a) P := ⟨fun _ hds => hds, fun _ _ => h⟩

-- The second action says what follows from its own result and that of the first.
theorem bind {f : α → Lowering β} (hm : Yields m P) (hf : ∀ a, Yields (f a) fun b => P a → R b) :
    Yields (m >>= f) R where
  keeps ds hds := (hf _).keeps _ (hm.keeps ds hds)
  result ds hds := by
    have hfirst : Diagnostic.anyFatal (m.run ds).2.toList = false := by
      cases h : Diagnostic.anyFatal (m.run ds).2.toList with
      | false => rfl
      | true => exact absurd ((hf _).keeps _ h) (Bool.eq_false_iff.mp hds)
    exact (hf _).result _ hds (hm.result ds hfirst)

theorem mono (h : Yields m P) (hPQ : ∀ a, P a → Q a) : Yields m Q := ⟨h.keeps, fun ds hds => hPQ _ (h.result ds hds)⟩

theorem ite {c : Prop} [Decidable c] {m' : Lowering α} (h : c → Yields m P) (h' : ¬c → Yields m' P) :
    Yields (if c then m else m') P := by
  split
  · exact h ‹_›
  · exact h' ‹_›

theorem push (d : Diagnostic) : Yields (modify (·.push d) : Lowering PUnit) fun _ => d.isFatal = false where
  keeps ds hds := by
    change Diagnostic.anyFatal (ds.push d).toList = true
    simpa [Diagnostic.anyFatal] using .inl (by simpa [Diagnostic.anyFatal] using hds)
  result ds hds := by
    change Diagnostic.anyFatal (ds.push d).toList = false at hds
    simp only [Diagnostic.anyFatal, Array.toList_push, List.any_append, Bool.or_eq_false_iff] at hds
    simpa using hds.2

theorem report (u : Plan) (kind : Diagnostic.Kind) (p : Position) (message : String) :
    Yields (u.report kind p message) fun _ => kind.severity ≠ .error :=
  (push _).mono fun _ h hkind => by
    simp [Diagnostic.isFatal, Diagnostic.at_, Diagnostic.ofKind, hkind] at h

-- What is reported as an error is left out.
theorem refuse {u : Plan} {kind : Diagnostic.Kind} {p : Position} {message : String} (hkind : kind.severity = .error)
    (hm : Yields m fun _ => True) : Yields (do u.report kind p message; m) P :=
  (report u kind p message).bind fun _ => hm.mono fun _ _ h => absurd hkind h

theorem warn (u : Plan) (p : Position) (message : String) : Yields (u.warn p message) fun _ => True :=
  (push _).mono fun _ _ => trivial

theorem done : Yields (Pure.pure () : Lowering Unit) fun _ => True := pure trivial

theorem forM {f : α → Lowering PUnit} (hf : ∀ a, Yields (f a) fun _ => True) :
    ∀ as : List α, Yields (as.forM f) fun _ => True
  | [] => pure trivial
  | a :: as => (hf a).bind fun _ => (forM hf as).mono fun _ _ _ => trivial

end Yields

section Checks

variable (u : Plan)

theorem yields_checkCode (p : Position) (what code : String) : Yields (checkCode u p what code) fun _ => True := by
  unfold checkCode
  split
  · exact .warn u p _
  · exact .done

theorem yields_checkTrap (args : List Script.Word) : Yields (checkTrap u args) fun _ => True := by
  unfold checkTrap
  split
  · split
    · exact .ite (fun _ => .done) fun _ => yields_checkCode u _ _ _
    · exact .done
  · exact .done

theorem yields_checkLet (args : List Script.Word) : Yields (checkLet u args) fun _ => True := by
  refine .forM (fun w => ?_) args
  split
  · exact .ite (fun _ => .warn u _ _) fun _ => .done
  · exact .done

theorem yields_checkNumber (b : Builtin) (args : List Script.Word) (ok : String → Bool) (what : String) :
    Yields (checkNumber u b args ok what) fun _ => True := by
  unfold checkNumber
  split
  · split
    · exact .ite (fun _ => .done) fun _ => .warn u _ _
    · exact .done
  · exact .done

-- The checks of a builtin's operands only warn.
theorem yields_checkBuiltin (p : Position) (b : Builtin) (name : Script.Word) (args : List Script.Word) :
    Yields (checkBuiltin u p b name args) fun _ => True := by
  unfold checkBuiltin
  split
  · split
    · exact .ite (fun _ => .done) fun _ => yields_checkCode u _ _ _
    · exact .done
  · exact yields_checkTrap u args
  · exact yields_checkLet u args
  · exact yields_checkNumber u _ args _ _
  · exact yields_checkNumber u _ args _ _
  · exact yields_checkNumber u _ args _ _
  · exact yields_checkNumber u _ args _ _
  · exact yields_checkNumber u _ args _ _
  · exact .ite (fun _ => .done) fun _ => .warn u _ _
  · exact .ite (fun _ => .warn u _ _) fun _ => .done
  · exact .ite (fun _ => .done) fun _ => (Yields.report u _ _ _).mono fun _ _ => trivial
  · exact .done

end Checks

section Literals

theorem carries_litPartsFrom (cur cs : List Char) :
    Carries (litPartsFrom cur cs) (cur.reverse.map (·, false) ++ marked cs) := by
  have hplain {cur : List Char} {ps : List Part} {ms : List (Char × Bool)} (h : Carries ps ms) :
      Carries (.lit (String.ofList cur.reverse) false :: ps) (cur.reverse.map (·, false) ++ ms) := by
    have hlit : Carries (.lit (String.ofList cur.reverse) false :: ps) _ := .lit h
    simpa using hlit
  have hquoted {c : Char} {ps : List Part} {ms : List (Char × Bool)} (h : Carries ps ms) :
      Carries (.lit (String.ofList [c]) true :: ps) ((c, true) :: ms) := by
    have hlit : Carries (.lit (String.ofList [c]) true :: ps) _ := .lit h
    simpa using hlit
  fun_induction litPartsFrom cur cs with
  | case1 => exact .nil
  | case2 cur _ => exact hplain .nil
  | case3 cur cs ih =>
      rw [marked]
      exact ih
  | case4 cur c cs hc rest hcur ih =>
      have hnil : cur = [] := by simpa using hcur
      rw [marked, hnil]
      · exact hquoted ih
      · exact hc
  | case5 cur c cs hc rest hcur ih =>
      rw [marked]
      · exact hplain (hquoted ih)
      · exact hc
  | case6 cur c cs hnewline hescape ih =>
      rw [marked]
      · simpa using ih
      · exact hnewline
      · exact hescape

theorem litImage_litParts (s : String) : LitImage s (litParts s) := by
  unfold litParts
  by_cases hempty : s = ""
  · subst hempty
    exact .whole (by simp)
  · have hne : s.toList ≠ [] := by simpa using hempty
    rw [if_neg (by simpa using hempty)]
    by_cases hescape : '\\' ∈ s.toList
    · exact .split hescape (by simpa using carries_litPartsFrom [] s.toList)
    · rw [litPartsFrom_of_plain [] s.toList hescape (.inr hne)]
      simpa using LitImage.whole hescape

theorem restImage_litUnlessEmpty (s : String) : RestImage s (litUnlessEmpty s) := by
  unfold litUnlessEmpty
  split
  · rename_i h
    have hempty : s = "" := by simpa using h
    subst hempty
    exact .none
  · exact .some (litImage_litParts s)

end Literals

section Tilde

theorem tildePrefix_of_tilde? {s user rest : String} (h : tilde? s = some (user, rest)) : TildePrefix s user rest := by
  unfold tilde? at h
  split at h
  · rename_i cs hs
    dsimp only at h
    split at h
    · rename_i hlogin
      obtain ⟨rfl, rfl⟩ := Prod.mk.inj (Option.some.inj h)
      rw [drop_length_takeWhile]
      refine ⟨by simp [hs], by simpa using hlogin, ?_⟩
      rw [String.toList_ofList]
      cases hrest : cs.dropWhile (· != '/') with
      | nil => exact .inl rfl
      | cons c more =>
          have hfirst := List.head?_dropWhile_not (· != '/') cs
          rw [hrest] at hfirst
          exact .inr (by simpa using hfirst)
    · cases h
  · cases h

theorem not_tildePrefix {s : String} (h : tilde? s = none) (user rest : String) : ¬TildePrefix s user rest := by
  rintro ⟨htext, hlogin, hslash⟩
  have huser : ∀ c ∈ user.toList, (c != '/') = true := by
    intro c hc
    rw [bne_iff_ne]
    rintro rfl
    exact absurd (hlogin _ hc) (by decide)
  have hrest : rest.toList.takeWhile (· != '/') = [] := by
    rcases hslash with hnil | hslash
    · simp [hnil]
    · cases hchars : rest.toList with
      | nil => rfl
      | cons c cs =>
          rw [hchars, List.head?_cons, Option.some.injEq] at hslash
          simp [hslash]
  have htake : (user.toList ++ rest.toList).takeWhile (· != '/') = user.toList := by
    rw [List.takeWhile_append_of_pos huser, hrest, List.append_nil]
  have hall : user.toList.all isUserChar = true := List.all_eq_true.mpr hlogin
  simp [tilde?, htext, htake, hall] at h

end Tilde

section Words

variable {file : String} {q : Quoting} {ps : List Script.WordPart} {each : List (List Part)}

theorem partsImage_flatten (h : List.Forall₂ (PartImage file q) ps each) : PartsImage file q ps each.flatten := by
  induction h with
  | nil => exact .nil
  | cons hp _ ih => exact .cons hp ih

theorem wordImage_withTilde (h : List.Forall₂ (PartImage file .none) ps each) :
    WordImage file ⟨ps⟩ ⟨withTilde ps each⟩ := by
  unfold withTilde
  split
  · rename_i p s ps
    cases htilde : tilde? s with
    | none =>
        refine .plain (fun p' s' user rest hhead => ?_) (.mk (partsImage_flatten h))
        obtain ⟨-, rfl⟩ : p = p' ∧ s = s' := by simpa using hhead
        exact not_tildePrefix htilde user rest
    | some split =>
        obtain ⟨user, rest⟩ := split
        cases h with
        | cons _ hrest =>
            exact .tilde (tildePrefix_of_tilde? htilde) (restImage_litUnlessEmpty rest) (partsImage_flatten hrest)
  · rename_i hlit
    refine .plain (fun p s user rest hhead => ?_) (.mk (partsImage_flatten h))
    obtain ⟨more, rfl⟩ := List.head?_eq_some_iff.mp hhead
    exact absurd rfl (hlit p s more)

end Words

section Elements

theorem toList_of_cut? {c : Char} {s a b : String} (h : Text.cut? c s = some (a, b)) :
    s.toList = a.toList ++ c :: b.toList := by
  unfold Text.cut? at h
  dsimp only at h
  rw [drop_length_takeWhile] at h
  cases hback : s.toList.dropWhile (· != c) with
  | nil => simp [hback] at h
  | cons d back =>
      have hfirst := List.head?_dropWhile_not (· != c) s.toList
      rw [hback] at hfirst h
      obtain ⟨rfl, rfl⟩ := Prod.mk.inj (Option.some.inj h)
      obtain rfl : d = c := by simpa using hfirst
      rw [String.toList_ofList, String.toList_ofList, ← hback, List.takeWhile_append_dropWhile]

theorem eq_of_hasSuffix {s : String} (h : Text.hasSuffix s "]" = true) : s = Text.dropBack 1 s ++ "]" := by
  have hsuffix : [']'] <:+ s.toList := List.isSuffixOf_iff_suffix.mp h
  obtain ⟨front, hfront⟩ := hsuffix
  refine String.toList_inj.mp ?_
  simp [Text.dropBack, ← hfront]

-- A word that is an array element, taken apart.
theorem parts_of_element? {w : Script.Word} {name rest tail : String} (h : element? w = some (name, rest, tail)) :
    ∃ p q, Text.isName name = true ∧ w.parts.head? = some (.lit p (name ++ "[" ++ rest)) ∧
      w.parts.getLast? = some (.lit q (tail ++ "]")) := by
  unfold element? at h
  split at h
  · rename_i p first q last hhead hlast
    split at h
    · rename_i hsuffix
      obtain ⟨⟨name', rest'⟩, hname, heq⟩ := Option.map_eq_some_iff.mp h
      obtain ⟨rfl, rfl, rfl⟩ : name' = name ∧ rest' = rest ∧ Text.dropBack 1 last = tail := by simpa using heq
      unfold elementName? at hname
      split at hname
      · rename_i a b hcut
        split at hname
        · rename_i hisName
          obtain ⟨rfl, rfl⟩ := Prod.mk.inj (Option.some.inj hname)
          have hfirst : first = a ++ "[" ++ b := String.toList_inj.mp (by simp [toList_of_cut? hcut])
          rw [hfirst] at hhead
          rw [eq_of_hasSuffix hsuffix] at hlast
          exact ⟨p, q, hisName, hhead, hlast⟩
        · cases hname
      · cases hname
    · cases h
  · cases h

theorem single_of_element? {w : Script.Word} {name rest tail : String} (h : element? w = some (name, rest, tail))
    (hone : w.parts.length = 1) :
    Text.isName name = true ∧ ∃ p, w = ⟨[.lit p (name ++ "[" ++ Text.dropBack 1 rest ++ "]")]⟩ := by
  obtain ⟨p, q, hname, hhead, hlast⟩ := parts_of_element? h
  obtain ⟨parts⟩ := w
  obtain ⟨part, rfl⟩ := List.length_eq_one_iff.mp hone
  obtain rfl : part = .lit p (name ++ "[" ++ rest) := by simpa using hhead
  have hsame : name ++ "[" ++ rest = tail ++ "]" := (Script.WordPart.lit.inj (Option.some.inj hlast)).2
  -- the one literal ends with the bracket, which is not the bracket that follows the name
  have htext : name.toList ++ '[' :: rest.toList = tail.toList ++ [']'] := by
    simpa using congrArg String.toList hsame
  obtain ⟨more, hrest⟩ : ∃ more, rest.toList = more ++ [']'] := by
    have hends := congrArg List.getLast? htext
    rw [List.getLast?_concat, List.getLast?_append_cons] at hends
    rcases List.eq_nil_or_concat rest.toList with hnil | ⟨more, c, hmore⟩
    · simp [hnil] at hends
    · rw [hmore, List.concat_eq_append, ← List.cons_append, List.getLast?_concat, Option.some.injEq] at hends
      exact ⟨more, by rw [hmore, List.concat_eq_append, hends]⟩
  have hagain : name ++ "[" ++ rest = name ++ "[" ++ Text.dropBack 1 rest ++ "]" :=
    String.toList_inj.mp (by simp [Text.dropBack, hrest])
  exact ⟨hname, p, by rw [hagain]⟩

theorem several_of_element? {w : Script.Word} {name rest tail : String} (h : element? w = some (name, rest, tail))
    (hone : w.parts.length ≠ 1) :
    Text.isName name = true ∧
      ∃ p q ps, w = ⟨Script.WordPart.lit p (name ++ "[" ++ rest) :: ps ++ [Script.WordPart.lit q (tail ++ "]")]⟩ := by
  obtain ⟨p, q, hname, hhead, hlast⟩ := parts_of_element? h
  obtain ⟨parts⟩ := w
  obtain ⟨more, rfl⟩ := List.head?_eq_some_iff.mp hhead
  rcases List.eq_nil_or_concat more with rfl | ⟨ps, last, rfl⟩
  · exact absurd rfl hone
  · rw [List.concat_eq_append, ← List.cons_append, List.getLast?_concat, Option.some.injEq] at hlast
    exact ⟨hname, p, q, ps, by rw [hlast, List.concat_eq_append, List.cons_append]⟩

theorem dropLast_append_singleton {α : Type} (xs : List α) (x : α) : dropLast (xs ++ [x]) = xs := by
  induction xs with
  | nil => rfl
  | cons y ys ih =>
      cases ys with
      | nil => rfl
      | cons z zs => simpa [dropLast] using ih

theorem forall₂_concat {α β : Type} {R : α → β → Prop} {a : α} : ∀ {as : List α} {bs : List β},
    List.Forall₂ R (as ++ [a]) bs → ∃ front, List.Forall₂ R as front ∧ ∃ b, bs = front ++ [b]
  | [], _, .cons _ .nil => ⟨[], .nil, _, rfl⟩
  | _ :: _, _, .cons h hs => by
      obtain ⟨front, hfront, b, rfl⟩ := forall₂_concat hs
      exact ⟨_ :: front, .cons h hfront, b, rfl⟩

-- The parts between the first and the last of a word, and what became of them.
theorem middle_image {file : String} {q : Quoting} {first last : Script.WordPart} {ps : List Script.WordPart}
    {each : List (List Part)} (h : List.Forall₂ (PartImage file q) (first :: ps ++ [last]) each) :
    PartsImage file q ps (dropLast (each.drop 1)).flatten := by
  cases h with
  | cons _ hrest =>
      obtain ⟨middle, hmiddle, x, rfl⟩ := forall₂_concat hrest
      rw [List.drop_one, List.tail_cons, dropLast_append_singleton]
      exact partsImage_flatten hmiddle

theorem arithImage_of_arithLit? {file : String} {w : Script.Word} {x : Arith} (h : arithLit? w = some x) :
    ArithImage file (.word w) x := by
  obtain ⟨parts⟩ := w
  unfold arithLit? Script.Word.lit? at h
  match parts with
  | [] => cases h
  | [.lit p s] =>
      dsimp only at h
      split at h
      · rename_i s' hs
        split at hs
        · cases hs
        · obtain rfl := Option.some.inj hs
          split at h
          · cases h
          · rename_i c cs hchars
            split at h
            · rename_i hdigit
              rw [← Option.some.inj h]
              exact .num (by simpa [hchars] using hdigit)
            · split at h
              · rename_i hname
                rw [← Option.some.inj h]
                exact .var hname
              · cases h
      · cases h

end Elements

-- A plan that knows nothing about the files and programs around a script.
structure Plan.Bare (u : Plan) : Prop where
  external : ∀ name, u.external name = none
  path : ∀ w, u.path w = none
  unit : ∀ w, u.unit w = none

-- An index reader that gives the image of what it reads.
def IndexReader.Sound (file : String) (index : IndexReader) : Prop :=
  ∀ p text, Yields (index p text) fun r => ∀ x, r = some x → ∃ e, Reads file text e ∧ ArithImage file e x

theorem Plan.Bare.bindPath {u : Plan} (hu : u.Bare) (w : Script.Word) (x : Word) : bindPath u w x = x := by
  simp [Program.bindPath, hu.path w]

theorem yields_lowerCall {u : Plan} (hu : u.Bare) (p : Position) (args : List Script.Word) (assigns : List Assign)
    (words : List Word) (redirs : List Redir) : Yields (lowerCall u p args assigns words redirs) fun s =>
      s = .call (placeOf p) assigns words redirs (boundTo args) none := by
  cases args with
  | nil => exact .pure rfl
  | cons w rest =>
      have hbound : boundTo (w :: rest) = w.value?.bind Builtin.ofName? := rfl
      rw [hbound]
      cases hvalue : w.value? with
      | none =>
          simp only [lowerCall, hvalue]
          exact .pure rfl
      | some name =>
          cases hbuiltin : Builtin.ofName? name with
          | none =>
              simp only [lowerCall, hvalue, hbuiltin, hu.external]
              exact .pure (by rw [Option.bind_some, hbuiltin]; rfl)
          | some b =>
              simp only [lowerCall, hvalue, hbuiltin]
              refine (yields_checkBuiltin u p b w rest).bind fun _ => ?_
              cases rest with
              | nil => exact .pure fun _ => by rw [Option.bind_some, hbuiltin]; rfl
              | cons operand more =>
                  simp only [hu.unit, ite_self]
                  exact .pure fun _ => by rw [Option.bind_some, hbuiltin]; rfl

section Lowered

variable {u : Plan} {index : IndexReader}

mutual

theorem yields_each (hu : u.Bare) (hi : index.Sound u.file) (q : Quoting) : ∀ ps : List Script.WordPart,
    Yields (lowerEach u index q ps) fun each => List.Forall₂ (PartImage u.file q) ps each
  | [] => by
      rw [lowerEach]
      exact .pure .nil
  | p :: ps => by
      rw [lowerEach]
      exact (yields_part hu hi q p).bind fun _ => (yields_each hu hi q ps).bind fun _ => .pure fun hs h => .cons h hs

theorem yields_part (hu : u.Bare) (hi : index.Sound u.file) (q : Quoting) : ∀ p : Script.WordPart,
    Yields (lowerPart u index q p) fun xs => PartImage u.file q p xs
  | .lit _ s => by
      rw [lowerPart]
      cases q with
      | none => exact .pure (.lit (litImage_litParts s))
      | double => exact .pure .inDouble
      | hereDoc => exact .pure .inDocument
  | .single _ dollar s => by
      rw [lowerPart]
      cases dollar with
      | false => exact .pure .single
      | true => exact .pure .dollarSingle
  | .double _ _ ps => by
      rw [lowerPart]
      exact (yields_each hu hi .double ps).bind fun _ => .pure fun h => .double (partsImage_flatten h)
  | .param _ x => by
      rw [lowerPart]
      exact (yields_param hu hi x).bind fun _ => .pure .param
  | .command _ body _ => by
      rw [lowerPart]
      exact (yields_block hu hi body).bind fun _ => .pure .command
  | .arith _ x => by
      rw [lowerPart]
      exact (yields_optArith hu hi x).bind fun _ => .pure .arith
  | .brace _ sequence ws => by
      rw [lowerPart]
      exact (yields_elems hu hi ws).bind fun _ => .pure .brace
  | .process _ _ _ => by
      rw [lowerPart]
      exact .refuse rfl (.pure trivial)

theorem yields_elems (hu : u.Bare) (hi : index.Sound u.file) : ∀ ws : List Script.Word,
    Yields (lowerElems u index ws) fun xs => List.Forall₂ (PlainImage u.file) ws xs
  | [] => by
      rw [lowerElems]
      exact .pure .nil
  | ⟨ps⟩ :: ws => by
      rw [lowerElems]
      exact (yields_each hu hi .none ps).bind fun _ => (yields_elems hu hi ws).bind fun _ =>
        .pure fun hs h => .cons (.mk (partsImage_flatten h)) hs

theorem yields_plain (hu : u.Bare) (hi : index.Sound u.file) : ∀ w : Script.Word,
    Yields (lowerPlain u index w) fun x => WordImage u.file w x
  | ⟨ps⟩ => by
      rw [lowerPlain]
      exact (yields_each hu hi .none ps).bind fun _ => .pure wordImage_withTilde

theorem yields_optPlain (hu : u.Bare) (hi : index.Sound u.file) : ∀ w : Option Script.Word,
    Yields (lowerOptPlain u index w) fun x => Option.Rel (WordImage u.file) w x
  | none => by
      rw [lowerOptPlain]
      exact .pure .none
  | some w => by
      rw [lowerOptPlain]
      exact (yields_plain hu hi w).bind fun _ => .pure .some

theorem yields_param (hu : u.Bare) (hi : index.Sound u.file) : ∀ x : Script.ParamExp,
    Yields (lowerParam u index x) fun y => ParamImage u.file x y
  | ⟨_, name, length, indirect, names, idx, op, arg, repl⟩ => by
      rw [lowerParam]
      exact (yields_index hu hi idx).bind fun _ => (yields_optPlain hu hi arg).bind fun _ =>
        (yields_optPlain hu hi repl).bind fun _ => .pure fun hr ha hi => .mk hi ha hr

theorem yields_index (hu : u.Bare) (hi : index.Sound u.file) : ∀ w : Option Script.Word,
    Yields (lowerIndex u index w) fun x => Option.Rel (PlainImage u.file) w x
  | none => by
      rw [lowerIndex]
      exact .pure .none
  | some ⟨ps⟩ => by
      rw [lowerIndex]
      exact (yields_each hu hi .none ps).bind fun _ => .pure fun h => .some (.mk (partsImage_flatten h))

theorem yields_arith (hu : u.Bare) (hi : index.Sound u.file) : ∀ e : Script.ArithExpr,
    Yields (lowerArith u index e) fun x => ArithImage u.file e x
  | .word w => by
      rw [lowerArith]
      cases hlit : arithLit? w with
      | some x => exact .pure (arithImage_of_arithLit? hlit)
      | none =>
          cases helement : element? w with
          | none => exact (yields_plain hu hi w).bind fun _ => .pure fun h => .word hlit (.inl helement) h
          | some parts =>
              obtain ⟨name, rest, tail⟩ := parts
              dsimp only
              refine .ite (fun hone => ?_) fun hone => ?_
              · obtain ⟨hname, p, hw⟩ := single_of_element? helement (by simpa using hone)
                refine (hi w.pos (Text.dropBack 1 rest)).bind fun r => ?_
                cases r with
                | none =>
                    refine (yields_plain hu hi w).bind fun _ => .pure fun h _ => ?_
                    exact .word hlit (.inr ⟨_, _, congrArg Script.Word.parts hw⟩) h
                | some x =>
                    refine .pure fun h => ?_
                    obtain ⟨e, hreads, himage⟩ := h x rfl
                    rw [hw]
                    exact .indexed hname hreads himage
              · obtain ⟨hname, p, q, ps, hw⟩ := several_of_element? helement (by simpa using hone)
                refine (yields_element hu hi w).bind fun each => .pure fun h => ?_
                rw [hw] at h ⊢
                exact .element hname (restImage_litUnlessEmpty rest) (middle_image h) (restImage_litUnlessEmpty tail)
  | .binary _ op x y => by
      rw [lowerArith]
      exact (yields_arith hu hi x).bind fun _ => (yields_arith hu hi y).bind fun _ => .pure fun hy hx => .binary hx hy
  | .unary _ op post x => by
      rw [lowerArith]
      exact (yields_arith hu hi x).bind fun _ => .pure .unary
  | .paren _ x => by
      rw [lowerArith]
      exact (yields_arith hu hi x).mono fun _ => .paren
  | .ternary c x y => by
      rw [lowerArith]
      exact (yields_arith hu hi c).bind fun _ => (yields_arith hu hi x).bind fun _ =>
        (yields_optArith hu hi y).bind fun _ => .pure fun hy hx hc => .ternary hc hx hy

theorem yields_element (hu : u.Bare) (hi : index.Sound u.file) : ∀ w : Script.Word,
    Yields (lowerElement u index w) fun each => List.Forall₂ (PartImage u.file .none) w.parts each
  | ⟨ps⟩ => by
      rw [lowerElement]
      exact yields_each hu hi .none ps

theorem yields_optArith (hu : u.Bare) (hi : index.Sound u.file) : ∀ e : Option Script.ArithExpr,
    Yields (lowerOptArith u index e) fun x => Option.Rel (ArithImage u.file) e x
  | none => by
      rw [lowerOptArith]
      exact .pure .none
  | some x => by
      rw [lowerOptArith]
      exact (yields_arith hu hi x).bind fun _ => .pure .some

theorem yields_word (hu : u.Bare) (hi : index.Sound u.file) : ∀ w : Script.Word,
    Yields (lowerWord u index w) fun x => WordImage u.file w x
  | ⟨ps⟩ => by
      rw [lowerWord]
      refine (yields_each hu hi .none ps).bind fun _ => .pure fun h => ?_
      rw [hu.bindPath]
      exact wordImage_withTilde h

theorem yields_words (hu : u.Bare) (hi : index.Sound u.file) : ∀ ws : List Script.Word,
    Yields (lowerWords u index ws) fun xs => List.Forall₂ (WordImage u.file) ws xs
  | [] => by
      rw [lowerWords]
      exact .pure .nil
  | w :: ws => by
      rw [lowerWords]
      exact (yields_word hu hi w).bind fun _ => (yields_words hu hi ws).bind fun _ => .pure fun hs h => .cons h hs

theorem yields_line (hu : u.Bare) (hi : index.Sound u.file) : ∀ ws : List Script.Word,
    Yields (lowerLine u index ws) fun xs => List.Forall₂ (WordImage u.file) ws xs
  | [] => by
      rw [lowerLine]
      exact .pure .nil
  | w :: ws => by
      rw [lowerLine]
      exact (yields_plain hu hi w).bind fun _ => (yields_words hu hi ws).bind fun _ => .pure fun hs h => .cons h hs

theorem yields_test (hu : u.Bare) (hi : index.Sound u.file) : ∀ e : Script.TestExpr,
    Yields (lowerTest u index e) fun x => TestImage u.file e x
  | .word w => by
      rw [lowerTest]
      exact (yields_word hu hi w).bind fun _ => .pure .word
  | .paren _ x => by
      rw [lowerTest]
      exact (yields_test hu hi x).mono fun _ => .paren
  | .unary _ op x => by
      rw [lowerTest]
      exact (yields_test hu hi x).bind fun _ => .pure .unary
  | .binary _ op x y => by
      rw [lowerTest]
      exact (yields_test hu hi x).bind fun _ => (yields_test hu hi y).bind fun _ => .pure fun hy hx => .binary hx hy

theorem yields_value (hu : u.Bare) (hi : index.Sound u.file) (naked : Bool) : ∀ v : Option Script.Word,
    Yields (lowerValue u index naked v) fun x => (naked = true ∧ x = none) ∨
      (naked = false ∧ (∀ w ∈ v, w.parts = []) ∧ x = some ⟨[.lit "" true]⟩) ∨
      (naked = false ∧ ∃ w y, v = some w ∧ x = some y ∧ WordImage u.file w y)
  | none => by
      rw [lowerValue]
      cases naked with
      | true => exact .pure (.inl ⟨rfl, rfl⟩)
      | false => exact .pure (.inr (.inl ⟨rfl, by simp, rfl⟩))
  | some w => by
      rw [lowerValue]
      refine (yields_word hu hi w).bind fun x => ?_
      cases naked with
      | true => exact .pure fun _ => .inl ⟨rfl, rfl⟩
      | false =>
          cases hparts : w.parts with
          | nil => exact .pure fun _ => .inr (.inl ⟨rfl, by simp [hparts], by simp⟩)
          | cons part parts => exact .pure fun h => .inr (.inr ⟨rfl, w, x, rfl, by simp, h⟩)

theorem yields_assign (hu : u.Bare) (hi : index.Sound u.file) : ∀ a : Script.Assignment,
    Yields (lowerAssign u index a) fun x => AssignImage u.file a x
  | ⟨_, name, idx, append, naked, value, some ⟨_, elems⟩⟩ => by
      rw [lowerAssign]
      exact (yields_optPlain hu hi idx).bind fun _ => (yields_words hu hi elems).bind fun _ =>
        .pure fun hs h => .array h hs
  | ⟨_, name, idx, append, naked, value, none⟩ => by
      rw [lowerAssign]
      refine (yields_optPlain hu hi idx).bind fun _ => (yields_value hu hi naked value).bind fun _ => .pure ?_
      rintro (⟨rfl, rfl⟩ | ⟨rfl, hempty, rfl⟩ | ⟨rfl, w, y, rfl, rfl, hvalue⟩) hindex
      · exact .naked hindex
      · exact .empty hindex hempty
      · exact .value hindex hvalue

theorem yields_assigns (hu : u.Bare) (hi : index.Sound u.file) : ∀ as : List Script.Assignment,
    Yields (lowerAssigns u index as) fun xs => List.Forall₂ (AssignImage u.file) as xs
  | [] => by
      rw [lowerAssigns]
      exact .pure .nil
  | a :: as => by
      rw [lowerAssigns]
      exact (yields_assign hu hi a).bind fun _ => (yields_assigns hu hi as).bind fun _ => .pure fun hs h => .cons h hs

theorem yields_doc (hu : u.Bare) (hi : index.Sound u.file) : ∀ doc : Option Script.HereDoc,
    Yields (lowerDoc u index doc) fun x => Option.Rel (DocImage u.file) doc x
  | none => by
      simp only [lowerDoc]
      exact .pure .none
  | some ⟨_, _, true, _, raw, body⟩ => by
      simp only [lowerDoc]
      exact .pure (.some .quoted)
  | some ⟨_, _, false, _, raw, some ⟨ps⟩⟩ => by
      simp only [lowerDoc]
      exact (yields_each hu hi .hereDoc ps).bind fun _ => .pure fun h => .some (.body (partsImage_flatten h))
  | some ⟨_, _, false, _, raw, none⟩ => by
      simp only [lowerDoc]
      exact .pure (.some .empty)

theorem yields_redirects (hu : u.Bare) (hi : index.Sound u.file) : ∀ rs : List Script.Redirect,
    Yields (lowerRedirects u index rs) fun xs => List.Forall₂ (RedirImage u.file) rs xs
  | [] => by
      rw [lowerRedirects]
      exact .pure .nil
  | ⟨p, op, n, word, doc⟩ :: rs => by
      have hrest := yields_redirects hu hi rs
      rw [lowerRedirects]
      cases hfd : descriptor? n with
      | none => exact .refuse rfl (hrest.mono fun _ _ => trivial)
      | some fd =>
          cases hop : redirOp? op with
          | none => exact .refuse rfl (hrest.mono fun _ _ => trivial)
          | some o =>
              dsimp only
              refine (yields_doc hu hi doc).bind fun text => ?_
              cases text with
              | none =>
                  refine (yields_word hu hi word).bind fun _ => hrest.bind fun _ => .pure fun hs hx hdoc => ?_
                  cases hdoc
                  exact .cons (.target hfd hop hx) hs
              | some x =>
                  simp only [pure_bind]
                  refine hrest.bind fun _ => .pure fun hs hdoc => ?_
                  cases hdoc with
                  | some hdoc => exact .cons (.document hfd hop hdoc) hs

theorem yields_block (hu : u.Bare) (hi : index.Sound u.file) : ∀ b : Script.Block,
    Yields (lowerBlock u index b) fun x => BlockImage u.file b x
  | ⟨_, items⟩ => by
      rw [lowerBlock]
      exact (yields_commands hu hi items).bind fun _ => .pure .mk

theorem yields_optBlock (hu : u.Bare) (hi : index.Sound u.file) : ∀ b : Option Script.Block,
    Yields (lowerOptBlock u index b) fun x => Option.Rel (BlockImage u.file) b x
  | none => by
      rw [lowerOptBlock]
      exact .pure .none
  | some b => by
      rw [lowerOptBlock]
      exact (yields_block hu hi b).bind fun _ => .pure .some

theorem yields_commands (hu : u.Bare) (hi : index.Sound u.file) : ∀ cs : List Script.Command,
    Yields (lowerCommands u index cs) fun xs => List.Forall₂ (StmtImage u.file) cs xs
  | [] => by
      rw [lowerCommands]
      exact .pure .nil
  | c :: cs => by
      rw [lowerCommands]
      exact (yields_command hu hi c).bind fun _ => (yields_commands hu hi cs).bind fun _ => .pure fun hs h => .cons h hs

theorem yields_elifs (hu : u.Bare) (hi : index.Sound u.file) (no : Option Script.Block) {m : Lowering (Option Block)}
    (hno : Yields m fun b => Option.Rel (BlockImage u.file) no b) : ∀ es : List Script.Elif,
    Yields (lowerElifs u index m es) fun b => ElseImage u.file es no b
  | [] => by
      rw [lowerElifs]
      exact hno.mono fun _ => .last
  | ⟨_, cond, yes⟩ :: es => by
      rw [lowerElifs]
      exact (yields_block hu hi cond).bind fun _ => (yields_block hu hi yes).bind fun _ =>
        (yields_elifs hu hi no hno es).bind fun _ => .pure fun h hy hc => .elif hc hy h

theorem yields_arms (hu : u.Bare) (hi : index.Sound u.file) : ∀ is : List Script.CaseItem,
    Yields (lowerArms u index is) fun xs => List.Forall₂ (ArmImage u.file) is xs
  | [] => by
      rw [lowerArms]
      exact .pure .nil
  | ⟨patterns, body, term⟩ :: is => by
      rw [lowerArms]
      exact (yields_words hu hi patterns).bind fun _ => (yields_block hu hi body).bind fun _ =>
        (yields_arms hu hi is).bind fun _ => .pure fun hs hb hp => .cons (.mk hp hb) hs

theorem yields_command (hu : u.Bare) (hi : index.Sound u.file) : ∀ c : Script.Command,
    Yields (lowerCommand u index c) fun s => StmtImage u.file c s
  | .andOr _ op x y => by
      rw [lowerCommand]
      exact (yields_command hu hi x).bind fun _ => (yields_command hu hi y).bind fun _ => .pure fun hy hx => .andOr hx hy
  | .pipeline _ negated cmds stderr => by
      rw [lowerCommand]
      exact (yields_commands hu hi cmds).bind fun _ => .pure .pipeline
  | .background x => by
      rw [lowerCommand]
      exact (yields_command hu hi x).bind fun _ => .pure .background
  | .simple assigns args redirs => by
      rw [lowerCommand]
      refine (yields_assigns hu hi assigns).bind fun as => (yields_line hu hi args).bind fun ws =>
        (yields_redirects hu hi redirs).bind fun rs => (yields_lowerCall hu _ args as ws rs).mono ?_
      rintro s rfl hr hw ha
      exact .simple ha hw hr
  | .declare p variant opts assigns redirs => by
      rw [lowerCommand]
      cases hb : declaration? variant with
      | none => exact .refuse rfl (.pure trivial)
      | some b =>
          exact (yields_words hu hi opts).bind fun _ => (yields_assigns hu hi assigns).bind fun _ =>
            (yields_redirects hu hi redirs).bind fun _ => .pure fun hr ha ho => .declare hb ho ha hr
  | .ifThen _ cond yes elifs no => by
      rw [lowerCommand]
      exact (yields_block hu hi cond).bind fun _ => (yields_block hu hi yes).bind fun _ =>
        (yields_elifs hu hi no (yields_optBlock hu hi no) elifs).bind fun _ => .pure fun hn hy hc => .ifThen hc hy hn
  | .loop _ untilTrue cond body => by
      rw [lowerCommand]
      exact (yields_block hu hi cond).bind fun _ => (yields_block hu hi body).bind fun _ =>
        .pure fun hb hc => .loop hc hb
  | .forIn _ name _ hasIn items body => by
      rw [lowerCommand]
      exact (yields_words hu hi items).bind fun _ => (yields_block hu hi body).bind fun _ =>
        .pure fun hb hw => .forIn hw hb
  | .forArith _ x y z body => by
      rw [lowerCommand]
      exact (yields_optArith hu hi x).bind fun _ => (yields_optArith hu hi y).bind fun _ =>
        (yields_optArith hu hi z).bind fun _ => (yields_block hu hi body).bind fun _ =>
          .pure fun hd hz hy hx => .forArith hx hy hz hd
  | .select _ name _ hasIn items body => by
      rw [lowerCommand]
      exact (yields_words hu hi items).bind fun _ => (yields_block hu hi body).bind fun _ =>
        .pure fun hb hw => .select hw hb
  | .caseOf _ word items => by
      rw [lowerCommand]
      exact (yields_word hu hi word).bind fun _ => (yields_arms hu hi items).bind fun _ => .pure fun h hw => .caseOf hw h
  | .function _ name _ _ body => by
      rw [lowerCommand]
      exact (yields_command hu hi body).bind fun _ => .pure .function
  | .subshell _ body => by
      rw [lowerCommand]
      exact (yields_block hu hi body).bind fun _ => .pure .subshell
  | .group _ body => by
      rw [lowerCommand]
      exact (yields_block hu hi body).bind fun _ => .pure .group
  | .arith _ x => by
      rw [lowerCommand]
      exact (yields_arith hu hi x).bind fun _ => .pure .arith
  | .test _ x => by
      rw [lowerCommand]
      exact (yields_test hu hi x).bind fun _ => .pure .test
  | .redirected x redirs => by
      rw [lowerCommand]
      exact (yields_command hu hi x).bind fun _ => (yields_redirects hu hi redirs).bind fun _ =>
        .pure fun hr h => .redirected h hr

end

end Lowered

theorem reads_of_onlyExpr? {file text : String} {e : Script.ArithExpr}
    (h : onlyExpr? (Script.readAs .bash file ("((" ++ text ++ "))")) = some e) : Reads file text e := by
  unfold Reads
  generalize Script.readAs .bash file ("((" ++ text ++ "))") = f at h
  unfold onlyExpr? at h
  split at h
  · cases h
  · rename_i hfatal
    split at h
    · rename_i p x hitems
      rw [← Option.some.inj h]
      exact ⟨by simpa using hfatal, p, hitems⟩
    · cases h

-- The text of an index is read with the same plan, which knows nothing that it could forget.
theorem sound_indexAt {u : Plan} (hu : u.Bare) : ∀ n, (indexAt u n).Sound u.file := by
  intro n
  induction n with
  | zero => exact fun _ _ => .pure (by simp)
  | succ n ih =>
      intro p text
      have hbare : u.unbound.Bare := ⟨hu.external, fun _ => rfl, fun _ => rfl⟩
      refine (yields_optArith hbare ih _).mono fun r h x hx => ?_
      rw [hx] at h
      generalize hexpr : onlyExpr? (Script.readAs .bash u.file ("((" ++ text ++ "))")) = e at h
      cases h with
      | some himage => exact ⟨_, reads_of_onlyExpr? hexpr, himage⟩

theorem blockImage_lowerScript {u : Plan} (hu : u.Bare) (depth : Nat) (b : Script.Block)
    (h : Diagnostic.anyFatal (lowerScript u depth b).2 = false) : BlockImage u.file b (lowerScript u depth b).1 :=
  (yields_block hu (sound_indexAt hu depth) b).result #[] h

theorem formed_readCode (name src : String) : (readCode name src).body.nodes.Formed := by
  unfold readCode
  split
  · exact Script.formed_read none name src
  · exact Script.formed_readAs .bash name src

-- Whatever is turned into a program without an error has its image there, part by part. An index that is written out has
-- the image of what it is read as. The tree of a text is well formed, so that no value is hidden by an array or by a
-- name alone, and no expansion by a quoted delimiter.
theorem lowering_loses_nothing (name : String) :
    (∀ depth tree, Diagnostic.anyFatal (lowerScript { file := name } depth tree).2 = false →
      BlockImage name tree (lowerScript { file := name } depth tree).1) ∧
    ∀ src b, compile name src = .ok b → (readCode name src).isFatal = false ∧
      (readCode name src).body.nodes.Formed ∧ BlockImage name (readCode name src).body b := by
  have hbare : Plan.Bare { file := name } := ⟨fun _ => rfl, fun _ => rfl, fun _ => rfl⟩
  refine ⟨fun depth tree => blockImage_lowerScript hbare depth tree, fun src b h => ?_⟩
  have hformed := formed_readCode name src
  unfold compile at h
  generalize readCode name src = f at h hformed ⊢
  dsimp only at h
  split at h
  · cases h
  · rename_i hfatal
    split at h
    · cases h
    · rename_i hsound
      obtain rfl := Except.ok.inj h
      exact ⟨by simpa using hfatal, hformed, blockImage_lowerScript hbare _ _ (by simpa using hsound)⟩

-- Every further branch of a conditional and every redirection is kept.
theorem conditional_loses_nothing :
    let src := "if a; then b; elif c >x; then d; fi"
    ∃ b, compile "t" src = .ok b ∧ BlockImage "t" (readCode "t" src).body b := by
  intro src
  have hok : (compile "t" src).isOk = true := by decide +kernel
  cases hcompile : compile "t" src with
  | error e =>
      rw [hcompile] at hok
      cases hok
  | ok b => exact ⟨b, rfl, ((lowering_loses_nothing "t").2 src b hcompile).2.2⟩

-- The operands of a sum as they are written.
def writtenSum? : List Script.Command → Option (String × String)
  | [.arith _ (.binary _ .add (.word ⟨[.lit _ x]⟩) (.word ⟨[.lit _ y]⟩))] => some (x, y)
  | _ => none

-- A sum of a text and an element whose index is a number.
def loweredSum? : Except CompileError Block → Option (String × String × String)
  | .ok ⟨_, [.arith (.binary .add (.word ⟨[.lit x _]⟩) (.var y (some (.num i))))]⟩ => some (x, y, i)
  | _ => none

-- An index that closes the parentheses itself is read as what stands before them, when a comment hides the rest.
theorem index_loses_operand :
    let src := "(( 0[((] + b[1)) #+c] ))"
    writtenSum? (readCode "t" src).body.items = some ("0[((]", "b[1)) #+c]") ∧
    loweredSum? (compile "t" src) = some ("0[((]", "b", "1") := by
  decide +kernel

end Program
end ShellScript

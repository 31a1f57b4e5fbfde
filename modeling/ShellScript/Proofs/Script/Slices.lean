import Mathlib.Data.List.TakeDrop
import ShellScript.Proofs.Token.Closing
import ShellScript.Script.Read.Word

-- Where the readers of words cut a text: what is taken, the separator and what follows always make up the text. A cut
-- never reaches past the end, not even where a construct is left open or a backslash stands last.
namespace ShellScript
namespace Script
namespace Read

open Construct (Close closeSingle closeAnsi closeDouble closeBackquote closeParens closeArith closeExpansion)

-- A closer finds the delimiter `stop` in the text.
def Closes (close : Close) (cs stop : List Char) : Prop := ∀ rest, close = .ok rest → ∃ body, cs = body ++ (stop ++ rest)

section Constructs

variable {d : Dialect} {close : Close} {cs stop : List Char}

theorem Closes.suffix (h : Closes close cs stop) {rest : List Char} (hclose : close = .ok rest) : rest <:+ cs :=
  Construct.suffix_of_eq _ (h rest hclose).choose_spec

-- An opening delimiter that is no closing one stands before the body.
theorem Closes.of_cons {o c : Char} (h : Closes close (o :: cs) [c]) (hne : o ≠ c) : Closes close cs [c] := by
  intro rest hclose
  obtain ⟨body, hbody⟩ := h rest hclose
  cases body with
  | nil => exact absurd (List.cons.inj hbody).1 hne
  | cons b body => exact ⟨body, (List.cons.inj hbody).2⟩

theorem closes_single (left : Nat) (cs : List Char) : Closes (closeSingle left cs) cs ['\''] :=
  fun _ => Construct.closeSingle_ok

theorem closes_ansi (left : Nat) (cs : List Char) : Closes (closeAnsi left cs) cs ['\''] :=
  fun _ => Construct.closeEscaped_ok

theorem closes_backquote (left : Nat) (cs : List Char) : Closes (closeBackquote left cs) cs [Text.backquote] :=
  fun _ => Construct.closeEscaped_ok

theorem closes_double (d : Dialect) (cs : List Char) : Closes (closeDouble d cs) cs ['"'] :=
  fun rest => (Construct.close_ok _).1 .double _ _ _ rest

theorem closes_parens (d : Dialect) (cs : List Char) : Closes (closeParens d ('(' :: cs)) cs [')'] :=
  Closes.of_cons (fun rest => (Construct.close_ok _).1 (.parens 0) _ _ _ rest) (by decide)

theorem closes_param (d : Dialect) (cs : List Char) : Closes (closeExpansion d false ('\x7b' :: cs)) cs ['\x7d'] :=
  Closes.of_cons (fun rest => (Construct.close_ok _).1 (.param 0) _ _ _ rest) (by decide)

theorem closes_arith (d : Dialect) (cs : List Char) : Closes (closeArith d ('(' :: '(' :: cs)) cs [')', ')'] :=
  fun _ => Construct.closeArith_ok

theorem inside_ok (h : Closes close cs stop) {rest : List Char} (hclose : close = .ok rest) :
    (inside close cs stop.length).2 = rest ∧ (inside close cs stop.length).1 ++ (stop ++ rest) = cs := by
  obtain ⟨body, rfl⟩ := h rest hclose
  have hlen : (body ++ (stop ++ rest)).length - rest.length - stop.length = body.length := by
    simp only [List.length_append]
    omega
  rw [hclose, inside, hlen, List.take_left]
  exact ⟨rfl, rfl⟩

theorem inside_length_le (close : Close) (cs : List Char) (delim : Nat) : (inside close cs delim).1.length ≤ cs.length := by
  cases close with
  | ok rest => exact (List.take_prefix _ _).length_le
  | error e => exact Nat.le_refl _

theorem inside_front (close : Close) (cs : List Char) (n : Nat) : (inside close cs n).1 <+: cs := by
  cases close with
  | ok rest => exact List.take_prefix _ _
  | error e => exact List.prefix_refl cs

theorem inside_suffix (h : Closes close cs stop) : (inside close cs stop.length).2 <:+ cs := by
  cases close with
  | ok rest => exact h.suffix rfl
  | error e => exact List.nil_suffix

-- The body of an arithmetic expansion stands between both pairs of parentheses.
theorem arith_inside {rest : List Char} (h : closeArith d ('(' :: '(' :: cs) = .ok rest) :
    cs.take (cs.length - rest.length - 2) ++ ([')', ')'] ++ rest) = cs := by
  obtain ⟨body, rfl⟩ := closes_arith d cs rest h
  have hlen : (body ++ ([')', ')'] ++ rest)).length - rest.length - 2 = body.length := by
    simp only [List.length_append, List.length_cons, List.length_nil]
    omega
  rw [hlen, List.take_left]

theorem arith_rest_suffix {rest : List Char} (h : closeArith d ('(' :: '(' :: cs) = .ok rest) : rest <:+ cs :=
  (closes_arith d cs).suffix h

end Constructs

section Steps

variable {d : Dialect}

theorem between_append {cs rest : List Char} (h : rest <:+ cs) : between cs rest ++ rest = cs := by
  obtain ⟨front, rfl⟩ := h
  rw [between, List.length_append, Nat.add_sub_cancel, List.take_left]

theorem between_length_le (cs rest : List Char) : (between cs rest).length ≤ cs.length := (List.take_prefix _ _).length_le

theorem getD_suffix {close : Close} {cs : List Char} (h : ∀ rest, close = .ok rest → rest <:+ cs) :
    close.toOption.getD [] <:+ cs := by
  cases close with
  | ok rest => exact h rest rfl
  | error e => exact List.nil_suffix

-- Passing one character takes at least that character.
theorem passOne_suffix (c : Char) (cs : List Char) : passOne d (c :: cs) <:+ cs := by
  rw [passOne]
  split
  · exact List.drop_suffix 1 cs
  · split
    · exact getD_suffix fun _ => Construct.closeSingle_suffix
    · split
      · exact getD_suffix fun _ => Construct.closeDouble_suffix
      · split
        · exact getD_suffix fun _ => Construct.closeBackquote_suffix
        · split
          · exact getD_suffix fun _ => Construct.closeExpansion_suffix
          · exact List.suffix_refl cs

-- What the loops have gathered before the rest.
theorem between_passOne (front : List Char) (c : Char) (cs : List Char) :
    ((between (c :: cs) (passOne d (c :: cs))).reverse ++ front).reverse ++ passOne d (c :: cs) =
      front.reverse ++ c :: cs := by
  rw [List.reverse_append, List.reverse_reverse, List.append_assoc,
    between_append ((passOne_suffix c cs).trans (List.suffix_cons c cs))]

end Steps

section Separators

variable {d : Dialect}

theorem splitTop_eq {sep : Char} {n : Nat} {front cs a b : List Char} (h : splitTop d sep n front cs = some (a, b)) :
    front.reverse ++ cs = a ++ sep :: b := by
  induction n generalizing front cs with
  | zero => cases h
  | succ n ih =>
      cases cs with
      | nil => cases h
      | cons c cs =>
          rw [splitTop] at h
          split at h
          · rename_i hsep
            cases h
            rw [beq_iff_eq.mp hsep]
          · rw [← between_passOne front c cs]
            exact ih h

theorem splitTop_bound {sep : Char} {n : Nat} {front cs : List Char} (hn : cs.length < n) :
    splitTop d sep (n + 1) front cs = splitTop d sep n front cs := by
  induction n generalizing front cs with
  | zero => omega
  | succ n ih =>
      cases cs with
      | nil => rfl
      | cons c cs =>
          have hrest := (passOne_suffix (d := d) c cs).length_le
          rw [List.length_cons] at hn
          rw [splitTop, splitTop, ih (by omega)]

theorem matchBracket_eq {depth : Nat} {front cs a b : List Char} (h : matchBracket depth front cs = some (a, b)) :
    front.reverse ++ cs = a ++ ']' :: b := by
  fun_induction matchBracket depth front cs with
  | case1 => cases h
  | case2 => cases h
  | case3 _ _ c cs ih => simpa using ih h
  | case4 _ _ c cs _ _ hopen ih => simpa using ih h
  | case5 _ c cs _ _ _ hclose =>
      cases h
      rw [beq_iff_eq.mp hclose]
  | case6 _ c cs _ _ _ _ _ ih => simpa using ih h
  | case7 _ _ c cs _ _ _ _ ih => simpa using ih h

theorem length_le_intercalate {p sep : List Char} {ps : List (List Char)} (h : p ∈ ps) :
    p.length ≤ (sep.intercalate ps).length := by
  induction ps with
  | nil => cases h
  | cons q ps ih =>
      cases ps with
      | nil =>
          obtain rfl := List.mem_singleton.mp h
          exact Nat.le_of_eq (congrArg List.length List.intercalate_singleton.symm)
      | cons r ps =>
          rw [List.intercalate_cons_cons, List.length_append, List.length_append]
          rcases List.mem_cons.mp h with rfl | h
          · exact Nat.le_add_right_of_le (Nat.le_add_right _ _)
          · exact Nat.le_add_left_of_le (ih h)

theorem braceList_eq {n depth : Nat} {cur cs after : List Char} {done pieces : List (List Char)}
    (h : braceList d n depth cur done cs = some (pieces, after)) :
    ∃ more, more ≠ [] ∧ pieces = done.reverse ++ more ∧ cur.reverse ++ cs = [','].intercalate more ++ '\x7d' :: after := by
  induction n generalizing depth cur done cs with
  | zero => cases h
  | succ n ih =>
      cases cs with
      | nil => cases h
      | cons c cs =>
          unfold braceList at h
          split at h
          · obtain ⟨more, hne, hpieces, hmore⟩ := ih h
            exact ⟨more, hne, hpieces, by simpa using hmore⟩
          · split at h
            · rename_i hclose
              cases depth with
              | zero =>
                  cases h
                  exact ⟨[cur.reverse], List.cons_ne_nil _ _, by simp,
                    by rw [beq_iff_eq.mp hclose, List.intercalate_singleton]⟩
              | succ k =>
                  obtain ⟨more, hne, hpieces, hmore⟩ := ih h
                  exact ⟨more, hne, hpieces, by simpa using hmore⟩
            · split at h
              · rename_i hcomma
                obtain ⟨more, hne, hpieces, hmore⟩ := ih h
                refine ⟨cur.reverse :: more, List.cons_ne_nil _ _, by simpa using hpieces, ?_⟩
                rw [Bool.and_eq_true, beq_iff_eq] at hcomma
                rw [List.reverse_nil, List.nil_append] at hmore
                rw [List.intercalate_cons_of_ne_nil hne, hcomma.1, hmore]
                simp
              · split at h
                · cases h
                · obtain ⟨more, hne, hpieces, hmore⟩ := ih h
                  exact ⟨more, hne, hpieces, by rw [← between_passOne cur c cs]; exact hmore⟩

theorem braceList_bound {n depth : Nat} {cur cs : List Char} {done : List (List Char)} (hn : cs.length < n) :
    braceList d (n + 1) depth cur done cs = braceList d n depth cur done cs := by
  induction n generalizing depth cur done cs with
  | zero => omega
  | succ n ih =>
      cases cs with
      | nil => rfl
      | cons c cs =>
          have hrest := (passOne_suffix (d := d) c cs).length_le
          rw [List.length_cons] at hn
          have hlt : cs.length < n := by omega
          have hpast : (passOne d (c :: cs)).length < n := by omega
          unfold braceList
          rw [ih hlt, ih hlt, ih hpast]
          cases depth with
          | zero => rfl
          | succ k =>
              dsimp only
              rw [ih hlt]

theorem braceList?_eq {cs after : List Char} {pieces : List (List Char)} (h : braceList? d cs = some (pieces, after)) :
    cs = [','].intercalate pieces ++ '\x7d' :: after := by
  obtain ⟨more, -, rfl, hmore⟩ := braceList_eq h
  exact hmore

theorem splitTop?_eq {sep : Char} {cs a b : List Char} (h : splitTop? d sep cs = some (a, b)) : cs = a ++ sep :: b :=
  splitTop_eq h

theorem matchBracket?_eq {cs a b : List Char} (h : matchBracket? cs = some (a, b)) : cs = a ++ ']' :: b :=
  matchBracket_eq h

-- The pieces between two dots each.
theorem splitDots_eq (cs : List Char) : splitDots cs ≠ [] ∧ ['.', '.'].intercalate (splitDots cs) = cs := by
  fun_induction splitDots cs with
  | case1 cs ih => exact ⟨List.cons_ne_nil _ _, by rw [List.intercalate_cons_of_ne_nil ih.1, ih.2]; rfl⟩
  | case2 c cs _ hnil ih => exact absurd hnil ih.1
  | case3 c cs _ p ps hcons ih =>
      refine ⟨List.cons_ne_nil _ _, ?_⟩
      rw [hcons] at ih
      cases ps with
      | nil =>
          rw [List.intercalate_singleton] at ih ⊢
          rw [ih.2]
      | cons q ps =>
          rw [List.intercalate_cons_cons] at ih ⊢
          rw [← ih.2]
          simp
  | case4 => exact ⟨List.cons_ne_nil _ _, List.intercalate_singleton⟩

theorem sequence?_eq {cs : List Char} {es : List (List Char)} (h : sequence? cs = some es) :
    cs = ['.', '.'].intercalate es := by
  have hdots := (splitDots_eq cs).2
  unfold sequence? at h
  split at h
  · split at h
    · cases h
      simpa [*] using hdots.symm
    · cases h
  · split at h
    · cases h
      simpa [*] using hdots.symm
    · cases h
  · cases h

end Separators

section Names

theorem span_append (cs : List Char) (p : Char → Bool) : (cs.span p).1 ++ (cs.span p).2 = cs := by
  rw [List.span_eq_takeWhile_dropWhile]
  exact List.takeWhile_append_dropWhile

theorem paramMarks_suffix (cs : List Char) : (paramMarks cs).2.2 <:+ cs := by
  unfold paramMarks
  split
  · split
    · exact List.suffix_refl _
    · exact List.suffix_cons _ _
  · exact List.suffix_cons _ _
  · exact List.suffix_refl _

theorem paramName?_eq {cs name rest : List Char} (h : paramName? cs = some (name, rest)) : cs = name ++ rest := by
  cases cs with
  | nil => cases h
  | cons c cs =>
      have hspan {p : Char → Bool} (h : some ((c :: cs).span p) = some (name, rest)) : c :: cs = name ++ rest := by
        rw [← span_append (c :: cs) p, Option.some.inj h]
      rw [paramName?] at h
      split at h
      · exact hspan h
      · split at h
        · exact hspan h
        · split at h
          · cases h
            rfl
          · cases h

-- An operator is found where its text stands.
theorem text_append_drop {text : String} {cs : List Char} (h : text.toList.isPrefixOf cs = true) :
    text.toList ++ cs.drop text.length = cs := by
  obtain ⟨rest, rfl⟩ := List.isPrefixOf_iff_prefix.mp h
  rw [← String.length_toList, List.drop_left]

theorem paramOp_eq {cs : List Char} {op : ParamOp}
    (h : (ParamOp.longestFirst.find? fun op => op.text.toList.isPrefixOf cs) = some op) :
    op.text.toList ++ cs.drop op.text.length = cs :=
  text_append_drop (List.find?_some (p := fun op : ParamOp => op.text.toList.isPrefixOf cs) h)

theorem arithOpAt_eq {cs : List Char} {op : ArithOp} (h : arithOpAt cs = some op) :
    op.text.toList ++ cs.drop op.text.length = cs :=
  text_append_drop (List.find?_some (p := fun op : ArithOp => op.text.toList.isPrefixOf cs) h)

theorem arithOp_length_pos (op : ArithOp) : 0 < op.text.length := by
  cases op <;> decide

end Names

-- What is left of the text of a backquoted command when its backslashes are taken.

theorem unescapeBackquote_length_le (inDouble : Bool) (cs : List Char) :
    (unescapeBackquote inDouble cs).length ≤ cs.length := by
  fun_induction unescapeBackquote inDouble cs with
  | case1 => simp only [List.length_cons]; omega
  | case2 => simp only [List.length_cons] at *; omega
  | case3 => simp only [List.length_cons]; omega
  | case4 => exact Nat.le_refl _

theorem unescapeBackquote_of_not_mem {cs : List Char} (inDouble : Bool) (h : '\\' ∉ cs) :
    unescapeBackquote inDouble cs = cs := by
  fun_induction unescapeBackquote inDouble cs with
  | case1 | case2 => exact absurd List.mem_cons_self h
  | case3 c cs hc ih => rw [ih fun hmem => h (List.mem_cons_of_mem c hmem)]
  | case4 => rfl

section Operands

variable {d : Dialect}

theorem passName_suffix (cs : List Char) : passName cs <:+ cs := by
  cases cs with
  | nil => exact List.suffix_refl _
  | cons c cs =>
      rw [passName]
      split
      · exact List.suffix_cons _ _
      · exact List.dropWhile_suffix _

theorem passOperand_suffix {c : Char} {cs rest : List Char} (h : passOperand d c cs = some rest) : rest <:+ cs := by
  unfold passOperand at h
  dsimp only at h
  split at h
  · cases h
    split
    · exact (passName_suffix _).trans (passOne_suffix c cs)
    · exact passOne_suffix c cs
  · split at h
    · cases h
      exact passOne_suffix c cs
    · split at h
      · split at h
        · rename_i hbracket
          cases h
          exact Construct.suffix_of_eq [']'] (matchBracket?_eq hbracket)
        · cases h
          exact List.suffix_refl _
      · split at h
        · cases h
          exact List.suffix_refl _
        · cases h

theorem operandRest_suffix (n : Nat) (cs : List Char) : operandRest d n cs <:+ cs := by
  induction n generalizing cs with
  | zero => exact List.suffix_refl _
  | succ n ih =>
      cases cs with
      | nil => exact List.suffix_refl _
      | cons c cs =>
          rw [operandRest]
          cases hpass : passOperand d c cs with
          | none => exact List.suffix_refl _
          | some rest => exact ((ih rest).trans (passOperand_suffix hpass)).trans (List.suffix_cons c cs)

theorem operandRest_bound {n : Nat} {cs : List Char} (hn : cs.length < n) :
    operandRest d (n + 1) cs = operandRest d n cs := by
  induction n generalizing cs with
  | zero => omega
  | succ n ih =>
      cases cs with
      | nil => rfl
      | cons c cs =>
          rw [operandRest, operandRest]
          cases hpass : passOperand d c cs with
          | none => rfl
          | some rest =>
              have hrest := (passOperand_suffix hpass).length_le
              rw [List.length_cons] at hn
              exact ih (by omega)

end Operands

end Read
end Script
end ShellScript

import Mathlib.Data.List.TakeDrop
import ShellScript.Proofs.Token.Closing

-- Where a construct ends in a piece of a text. What comes before the construct never counts. What follows it counts only
-- where `$((` could be arithmetic: the search for its end may run past the end of the construct.
namespace ShellScript
namespace Construct

variable {d : Dialect}

-- Cutting off what follows

section Cut

variable {u v tail : List Char}

theorem eq_append_of_suffix {cs : List Char} (h : tail <:+ cs) : ∃ w, cs = w ++ tail := h.imp fun _ => Eq.symm

theorem length_of_append_suffix (h : v ++ tail <:+ u ++ tail) : v.length ≤ u.length := by
  have hlength := h.length_le
  simp only [List.length_append] at hlength
  omega

theorem closeSingle_cut {left left' : Nat} (h : closeSingle left (u ++ tail) = .ok (v ++ tail)) :
    closeSingle left' u = .ok v := by
  induction u with
  | nil =>
      obtain ⟨body, hbody⟩ := closeSingle_ok h
      have hlength := congrArg List.length hbody
      simp only [List.nil_append, List.length_append, List.length_cons] at hlength
      omega
  | cons c u ih =>
      rw [List.cons_append, closeSingle] at h
      rw [closeSingle]
      split at h
      · next hc =>
        rw [if_pos hc, List.append_cancel_right (Except.ok.inj h)]
      · next hc =>
        rw [if_neg hc]
        exact ih h

theorem closeEscaped_plain {k : Construct} {stop c : Char} {left : Nat} {cs : List Char} (h : c = '\\' → cs = []) :
    closeEscaped k stop left (c :: cs) = if c == stop then .ok cs else closeEscaped k stop left cs := by
  rw [closeEscaped]
  rintro e ds rfl rfl
  cases h rfl

theorem closeEscaped_cut {k : Construct} {stop : Char} {left left' : Nat}
    (h : closeEscaped k stop left (u ++ tail) = .ok (v ++ tail)) : closeEscaped k stop left' u = .ok v := by
  have hshort {cs : List Char} (hcs : cs.length ≤ tail.length) (h : closeEscaped k stop left cs = .ok (v ++ tail)) : False := by
    obtain ⟨body, hbody⟩ := closeEscaped_ok h
    have hlength := congrArg List.length hbody
    simp only [List.length_append, List.length_cons] at hlength
    omega
  -- a backslash at the cut would take a character of what follows
  have hplain {c : Char} {u : List Char} (hother : ∀ e w, c = '\\' → u = e :: w → False)
      (h : closeEscaped k stop left (c :: u ++ tail) = .ok (v ++ tail)) :
      (if c == stop then .ok (u ++ tail) else closeEscaped k stop left (u ++ tail)) = .ok (v ++ tail) := by
    refine (closeEscaped_plain fun hc => ?_).symm.trans h
    cases u with
    | cons e w => exact (hother e w hc rfl).elim
    | nil =>
        subst hc
        cases tail with
        | nil => rfl
        | cons e w => exact (hshort (Nat.le_succ _) h).elim
  fun_induction closeEscaped k stop left' u with
  | case1 => exact (hshort (Nat.le_refl _) h).elim
  | case2 e u ih => exact ih h
  | case3 c u hother hstop =>
      have h := hplain hother h
      rw [if_pos hstop] at h
      rw [List.append_cancel_right (Except.ok.inj h)]
  | case4 c u hother hstop ih =>
      have h := hplain hother h
      rw [if_neg hstop] at h
      exact ih h

-- One step of a frame.

def Turn.rest : Turn → List Char
  | .done rest => rest
  | .on _ _ rest => rest

def Turn.withRest : Turn → List Char → Turn
  | .done _, rest => .done rest
  | .on f prev _, rest => .on f prev rest

theorem Turn.past_cut {f : Frame} {c : Char} {r r' : Close} {t : Turn} (h : Turn.past f c r = .ok t) (ht : t.rest = v ++ tail)
    (hr : r = .ok (v ++ tail) → r' = .ok v) : Turn.past f c r' = .ok (t.withRest v) := by
  obtain ⟨rest, rfl, rfl⟩ := Turn.past_eq_ok h
  rw [hr (congrArg Except.ok ht)]
  rfl

theorem dropWhile_cut {p : Char → Bool} (h : (u ++ tail).dropWhile p = v ++ tail) : u.dropWhile p = v := by
  rw [List.dropWhile_append] at h
  split at h
  · next hnil =>
    have hlength := (List.dropWhile_suffix p (l := tail)).length_le
    rw [h, List.length_append] at hlength
    have hv : v = [] := List.length_eq_zero_iff.mp (by omega)
    rw [hv]
    exact List.isEmpty_iff.mp hnil
  · exact List.append_cancel_right h

-- The character behind the step counts only where it closes arithmetic.
theorem Frame.step_cut {f : Frame} {prev c : Char} (h : f.step prev c (u ++ tail).head? = .done)
    (hrest : (u ++ tail).drop f.tail = v ++ tail) : f.step prev c u.head? = .done ∧ u.drop f.tail = v := by
  cases u with
  | cons e u =>
      cases f with
      | arith n => exact ⟨h, List.append_cancel_right hrest⟩
      | _ => exact ⟨h, List.append_cancel_right hrest⟩
  | nil =>
      cases f with
      | arith n =>
          have hdelim := Frame.delimiter_of_done h
          have hlength := congrArg List.length hdelim
          rw [hrest] at hlength
          simp only [Frame.delimiter, List.nil_append, List.length_cons, List.length_append, List.length_nil] at hlength
          omega
      | _ =>
          have hv : v = [] := List.self_eq_append_left.mp hrest
          exact ⟨h, hv.symm⟩

theorem Frame.step_next {f : Frame} {prev c : Char} {next : Option Char} {s : Step} (h : f.step prev c next = s)
    (hdone : s ≠ .done) (hrefuse : s ≠ .refuse) (next' : Option Char) : f.step prev c next' = s := by
  subst h
  cases f with
  | arith n =>
      simp only [Frame.step] at hdone hrefuse ⊢
      split
      · rfl
      · next hopen =>
        rw [if_neg hopen] at hdone hrefuse
        split
        · next hclose =>
          rw [if_pos hclose] at hdone hrefuse
          split
          · next hdepth =>
            rw [if_pos hdepth] at hdone hrefuse
            split at hdone
            · exact absurd rfl hdone
            · next hnext =>
              rw [if_neg hnext] at hrefuse
              exact absurd rfl hrefuse
          · rfl
        · rfl
  | _ => rfl

theorem turn_cut {double dollar double' dollar' : List Char → Close} {f : Frame} {left left' : Nat} {prev c : Char} {t : Turn}
    (h : turn double dollar f left prev c (u ++ tail) = .ok t) (ht : t.rest = v ++ tail)
    (hdouble : double (u ++ tail) = .ok (v ++ tail) → double' u = .ok v)
    (hdollar : c = '$' → dollar (u ++ tail) = .ok (v ++ tail) → dollar' u = .ok v) :
    turn double' dollar' f left' prev c u = .ok (t.withRest v) := by
  unfold turn at h ⊢
  split
  · next hc =>
    rw [if_pos hc] at h
    cases u with
    | cons e u =>
        cases h
        rw [List.append_cancel_right ht]
        rfl
    | nil =>
        cases tail with
        | nil => cases h
        | cons e w =>
            cases h
            have hlength := congrArg List.length ht
            simp only [Turn.rest, List.length_append, List.length_cons] at hlength
            omega
  · next hc =>
    rw [if_neg hc] at h
    split
    · next hquote =>
      rw [if_pos hquote] at h
      exact Turn.past_cut h ht closeEscaped_cut
    · next hquote =>
      rw [if_neg hquote] at h
      split
      · next hc' =>
        rw [if_pos hc'] at h
        exact Turn.past_cut h ht (hdollar (beq_iff_eq.mp hc'))
      · next hc' =>
        rw [if_neg hc'] at h
        split
        · next hsingle =>
          rw [if_pos hsingle] at h
          exact Turn.past_cut h ht closeSingle_cut
        · next hsingle =>
          rw [if_neg hsingle] at h
          split
          · next hd =>
            rw [if_pos hd] at h
            exact Turn.past_cut h ht hdouble
          · next hd =>
            rw [if_neg hd] at h
            cases hstep : f.step prev c (u ++ tail).head? with
            | done =>
                rw [hstep] at h
                cases h
                obtain ⟨hdone, hrest⟩ := Frame.step_cut hstep ht
                rw [hdone, hrest]
                rfl
            | refuse =>
                rw [hstep] at h
                cases h
            | go f' =>
                rw [Frame.step_next hstep (by simp) (by simp) u.head?]
                rw [hstep] at h
                cases h
                rw [List.append_cancel_right ht]
                rfl
            | comment =>
                rw [Frame.step_next hstep (by simp) (by simp) u.head?]
                rw [hstep] at h
                cases h
                rw [← dropWhile_cut ht]
                rfl

end Cut

-- What a dollar sign begins

section Dollar

variable {n left : Nat} {inDouble : Bool} {cs : List Char}

-- A command substitution.
def closeCommand (d : Dialect) (n left : Nat) (cs : List Char) : Close :=
  (close d n (.parens 0) (left - 1) '$' cs).mapError fun _ => ⟨.commandSubstitution, left⟩

theorem closeCommand_eq_ok {rest : List Char} (h : closeCommand d n left cs = .ok rest) :
    close d n (.parens 0) (left - 1) '$' cs = .ok rest := by
  unfold closeCommand at h
  cases hr : close d n (.parens 0) (left - 1) '$' cs with
  | ok r =>
      rw [hr] at h
      exact h
  | error e =>
      rw [hr] at h
      cases h

theorem closeDollar_command (h : cs.head? ≠ some '(') :
    closeDollar d (n + 1) inDouble ('(' :: cs) = closeCommand d n (cs.length + 2) ('(' :: cs) := by
  cases cs with
  | nil =>
      rw [closeDollar, closeCommand]
      · dsimp only [List.length_cons]
        cases close d n (.parens 0) 1 '$' ['('] <;> rfl
      · exact fun tail heq => List.cons_ne_nil _ _ heq.symm
  | cons c cs =>
      have hc : c ≠ '(' := fun hc => h (congrArg some hc)
      rw [closeDollar, closeCommand]
      · dsimp only [List.length_cons]
        cases close d n (.parens 0) (cs.length + 1 + 2 - 1) '$' ('(' :: c :: cs) <;> rfl
      · exact fun tail heq => hc (List.cons.inj heq).1

theorem closeDollar_arith {rest : List Char} (h : close d n (.arith 0) (cs.length + 3) '$' ('(' :: '(' :: cs) = .ok rest) :
    closeDollar d (n + 1) inDouble ('(' :: '(' :: cs) = .ok rest := by
  rw [closeDollar]
  dsimp only [List.length_cons]
  rw [h]

theorem closeDollar_subshell (h : ∀ rest, close d n (.arith 0) (cs.length + 3) '$' ('(' :: '(' :: cs) ≠ .ok rest) :
    closeDollar d (n + 1) inDouble ('(' :: '(' :: cs) = closeCommand d n (cs.length + 3) ('(' :: '(' :: cs) := by
  cases harith : close d n (.arith 0) (cs.length + 3) '$' ('(' :: '(' :: cs) with
  | ok r => exact (h r harith).elim
  | error e =>
      rw [closeDollar, closeCommand]
      dsimp only [List.length_cons]
      rw [harith]
      dsimp only
      cases close d n (.parens 0) (cs.length + 3 - 1) '$' ('(' :: '(' :: cs) <;> rfl

theorem closeDollar_plain {c : Char} (h : c ∉ ['(', '\x7b', '\'', '"']) : closeDollar d (n + 1) inDouble (c :: cs) = .ok (c :: cs) := by
  simp only [List.mem_cons, List.not_mem_nil, or_false, not_or] at h
  rw [closeDollar]
  all_goals
    rintro ds heq
    obtain ⟨rfl, -⟩ := List.cons.inj heq
    simp at h

end Dollar

section Ends

variable {n m left left' : Nat} {f : Frame} {prev : Char} {cs rest u v tail : List Char} {inDouble : Bool}

-- Where the construct began is only told of one that is left open.
theorem turn_left {double dollar : List Char → Close} {c : Char} {t : Turn} (left' : Nat)
    (h : turn double dollar f left prev c cs = .ok t) : turn double dollar f left' prev c cs = .ok t := by
  rw [← List.append_nil cs] at h
  have hsame : turn double dollar f left' prev c cs = .ok (t.withRest t.rest) :=
    turn_cut h (List.append_nil t.rest).symm (fun h => by simpa using h) (fun _ h => by simpa using h)
  rw [hsame]
  cases t <;> rfl

theorem close_left (left' : Nat) (h : close d n f left prev cs = .ok rest) : close d n f left' prev cs = .ok rest := by
  induction n generalizing f prev cs with
  | zero => cases h
  | succ n ih =>
      cases cs with
      | nil => cases h
      | cons c cs =>
          rw [close] at h ⊢
          split at h
          · next hturn =>
            rw [turn_left left' hturn]
            exact h
          · next hturn =>
            rw [turn_left left' hturn]
            exact ih h
          · cases h

-- Whether what begins with two parentheses can be read as arithmetic.
def IsArith (d : Dialect) (cs : List Char) : Prop := ∃ rest, closeArith d cs = .ok rest

theorem isArith_iff (hn : 2 * cs.length + 3 ≤ n) :
    (∃ rest, close d n (.arith 0) left prev ('(' :: cs) = .ok rest) ↔ IsArith d ('(' :: cs) := by
  have hbound : close d n (.arith 0) left prev ('(' :: cs) = close d (2 * cs.length + 3) (.arith 0) left prev ('(' :: cs) :=
    eq_of_bound (f := fun k => close d k (.arith 0) left prev ('(' :: cs))
      (fun k hk => (close_bound k).1 _ _ _ _ (by simp only [List.length_cons]; omega)) hn
  have hsame := hbound.trans (close_lparen (2 * cs.length + 2) 0 left prev cs)
  have hwhole : closeArith d ('(' :: cs) = close d (2 * cs.length + 2) (.arith 1) (cs.length + 1) '(' cs := by
    rw [closeArith, List.length_cons, show 2 * (cs.length + 1) + 1 = 2 * cs.length + 2 + 1 by omega, close_lparen]
  rw [hsame, IsArith, hwhole]
  exact exists_congr fun rest => ⟨close_left _, close_left _⟩

-- Of the arithmetic that begins in `u` in front of `v`, none is cut off from a text that goes on with `tail`: what is read
-- as arithmetic in the piece is read so in the whole.
def ArithKept (d : Dialect) (u v tail : List Char) : Prop :=
  ∀ w, '$' :: '(' :: '(' :: w <:+ u → v.length < w.length + 3 → IsArith d ('(' :: '(' :: w) →
    IsArith d ('(' :: '(' :: (w ++ tail))

theorem ArithKept.mono {u' v' : List Char} (h : ArithKept d u v tail) (hu : u' <:+ u) (hv : v.length ≤ v'.length) :
    ArithKept d u' v' tail :=
  fun w hw hlength => h w (hw.trans hu) (by omega)

-- The end of a frame is the same in a piece.
def ClosesAlike (d : Dialect) (n : Nat) : Prop :=
  ∀ m f left left' prev u v tail, 2 * (u ++ tail).length + 1 ≤ n → 2 * u.length + 1 ≤ m → ArithKept d u v tail →
    close d n f left prev (u ++ tail) = .ok (v ++ tail) → close d m f left' prev u = .ok v

def ClosesDollarAlike (d : Dialect) (n : Nat) : Prop :=
  ∀ m inDouble u v tail, 2 * (u ++ tail).length + 2 ≤ n → 2 * u.length + 2 ≤ m → ArithKept d ('$' :: u) v tail →
    closeDollar d n inDouble (u ++ tail) = .ok (v ++ tail) → closeDollar d m inDouble u = .ok v

theorem closesAlike_succ (hclose : ClosesAlike d n) (hdollar : ClosesDollarAlike d n) : ClosesAlike d (n + 1) := by
  intro m f left left' prev u v tail hn hm hkept h
  obtain ⟨m, rfl⟩ : ∃ k, m = k + 1 := ⟨m - 1, by omega⟩
  have hsuffix := close_suffix h
  cases u with
  | nil =>
      obtain ⟨body, hbody⟩ := (close_ok _).1 _ _ _ _ _ h
      have hlength := congrArg List.length hbody
      have hdelim : 0 < f.delimiter.length := by cases f <;> simp [Frame.delimiter]
      simp only [List.nil_append, List.length_append] at hlength
      omega
  | cons c u =>
      simp only [List.cons_append, List.length_cons] at hn hm
      -- what the turn leaves goes on with all that follows the piece, and so does what a nested construct leaves
      have hturn {t : Turn} {w : List Char}
          (h : turn (fun cs => close d n .double (cs.length + 1) c cs) (closeDollar d n (f == .double)) f left prev c
            (u ++ tail) = .ok t) (ht : t.rest = w ++ tail) (hw : v.length ≤ w.length) :
          turn (fun cs => close d m .double (cs.length + 1) c cs) (closeDollar d m (f == .double)) f left' prev c u =
            .ok (t.withRest w) := by
        refine turn_cut h ht (fun hquoted => ?_) fun hc hexpanded => ?_
        · exact hclose m _ _ _ _ u w tail (by omega) (by omega) (hkept.mono (List.suffix_cons _ _) hw) hquoted
        · subst hc
          exact hdollar m _ u w tail (by omega) (by omega) (hkept.mono (List.suffix_refl _) hw) hexpanded
      rw [List.cons_append, close] at h
      rw [close]
      split at h
      · next r hr =>
        rw [hturn hr (Except.ok.inj h) (Nat.le_refl _)]
        rfl
      · next f' prev' r hr =>
        have hrest := (turn_on (fun _ => close_suffix) ((close_ok n).2 _ _) hr).2
        obtain ⟨w, rfl⟩ := eq_append_of_suffix ((List.suffix_append v tail).trans (close_suffix h))
        have hvw := length_of_append_suffix (close_suffix h)
        have hwu := length_of_append_suffix hrest
        rw [hturn hr rfl hvw]
        have hw : w <:+ u := by
          obtain ⟨front, hfront⟩ := hrest
          exact ⟨front, List.append_cancel_right ((List.append_assoc ..).trans hfront)⟩
        refine hclose m f' left left' prev' w v tail ?_ (by omega) (hkept.mono (hw.trans (List.suffix_cons _ _)) (Nat.le_refl _)) h
        simp only [List.length_append] at hn ⊢
        omega
      · cases h

theorem closesDollarAlike_succ (hclose : ClosesAlike d n) : ClosesDollarAlike d (n + 1) := by
  intro m inDouble u v tail hn hm hkept h
  obtain ⟨m, rfl⟩ : ∃ k, m = k + 1 := ⟨m - 1, by omega⟩
  have hkept' : ArithKept d u v tail := hkept.mono (List.suffix_cons _ _) (Nat.le_refl _)
  cases u with
  | nil =>
      have hv : v.length = 0 := Nat.le_zero.mp (length_of_append_suffix ((close_ok _).2 _ _ _ h))
      rw [List.length_eq_zero_iff.mp hv]
      rfl
  | cons c u =>
      rw [List.cons_append, List.length_cons] at hn
      rw [List.length_cons] at hm
      have hsame (k : Nat) (f : Frame) (h : close d n f k '$' (c :: u ++ tail) = .ok (v ++ tail)) (left' : Nat) :
          close d m f left' '$' (c :: u) = .ok v :=
        hclose m f k left' '$' (c :: u) v tail (by rw [List.cons_append, List.length_cons]; omega)
          (by rw [List.length_cons]; omega) hkept' h
      by_cases hplain : c ∉ ['(', '\x7b', '\'', '"']
      · rw [List.cons_append, closeDollar_plain hplain] at h
        rw [closeDollar_plain hplain]
        exact congrArg Except.ok (List.append_cancel_right (Except.ok.inj h))
      simp only [List.mem_cons, List.not_mem_nil, or_false, not_not] at hplain
      rcases hplain with rfl | rfl | rfl | rfl
      · have hcommand {k : Nat} (h : closeCommand d n k ('(' :: u ++ tail) = .ok (v ++ tail)) (left' : Nat) :
            closeCommand d m left' ('(' :: u) = .ok v := by
          rw [closeCommand, hsame _ _ (closeCommand_eq_ok h)]
          rfl
        -- one parenthesis alone is left open
        have hopen (f : Frame) (hf : ')' ∈ f.delimiter) (k : Nat) : close d m f k '$' ['('] ≠ .ok v := by
          intro h
          obtain ⟨body, hbody⟩ := (close_ok _).1 _ _ _ _ _ h
          have hmem : ')' ∈ ['('] := hbody ▸ List.mem_append_right _ (List.mem_append_left _ hf)
          exact absurd hmem (by decide)
        by_cases harith : (u ++ tail).head? = some '('
        · obtain ⟨x, hx⟩ := List.head?_eq_some_iff.mp harith
          rw [List.cons_append, hx] at h hsame hcommand
          by_cases hfull : ∃ r, close d n (.arith 0) (x.length + 3) '$' ('(' :: '(' :: x) = .ok r
          · obtain ⟨r, hr⟩ := hfull
            have hend := hr.trans ((closeDollar_arith hr).symm.trans h)
            cases u with
            | nil => exact (hopen _ (by decide) 0 (hsame _ (.arith 0) hend 0)).elim
            | cons e w =>
                obtain ⟨rfl, rfl⟩ := List.cons.inj hx
                exact closeDollar_arith (hsame _ _ hend _)
          · rw [closeDollar_subshell (not_exists.mp hfull)] at h
            cases u with
            | nil => exact (hopen _ (by decide) 0 (closeCommand_eq_ok (hcommand h 1))).elim
            | cons e w =>
                obtain ⟨rfl, rfl⟩ := List.cons.inj hx
                rw [closeDollar_subshell]
                · exact hcommand h _
                intro r hpart
                have hlength := length_of_append_suffix (close_suffix (closeCommand_eq_ok h) : v ++ tail <:+ '(' :: '(' :: w ++ tail)
                simp only [List.length_cons, List.length_append] at hlength hn hm
                have hboth := hkept w (List.suffix_refl _) (by omega)
                  ((isArith_iff (by simp only [List.length_cons]; omega)).mp ⟨_, hpart⟩)
                exact hfull ((isArith_iff (by simp only [List.length_cons, List.append_eq, List.length_append]; omega)).mpr hboth)
        · rw [List.cons_append, closeDollar_command harith] at h
          cases u with
          | nil => exact (hopen _ (by decide) 0 (closeCommand_eq_ok (hcommand h 1))).elim
          | cons e w =>
              have hother : (e :: w).head? ≠ some '(' := harith
              rw [closeDollar_command hother]
              exact hcommand h _
      · exact hsame _ _ h _
      · rw [List.cons_append, closeDollar] at h
        rw [closeDollar]
        split
        · next hansi =>
          rw [if_pos hansi] at h
          exact closeEscaped_cut h
        · next hansi =>
          rw [if_neg hansi] at h
          exact congrArg Except.ok (List.append_cancel_right (Except.ok.inj h))
      · rw [List.cons_append, closeDollar] at h
        rw [closeDollar]
        split
        · next hquote =>
          rw [if_pos hquote] at h
          exact hclose m _ _ _ _ u v tail (by omega) (by omega) (hkept'.mono (List.suffix_cons _ _) (Nat.le_refl _)) h
        · next hquote =>
          rw [if_neg hquote] at h
          exact congrArg Except.ok (List.append_cancel_right (Except.ok.inj h))

-- A nested construct ends at the same place in the piece, so that the frames go through the same steps.
theorem closes_alike (n : Nat) : ClosesAlike d n ∧ ClosesDollarAlike d n := by
  induction n with
  | zero =>
      refine ⟨fun _ _ _ _ _ _ _ _ hn _ _ _ => ?_, fun _ _ _ _ _ hn _ _ _ => ?_⟩
      · omega
      · omega
  | succ n ih => exact ⟨closesAlike_succ ih.1 ih.2, closesDollarAlike_succ ih.1⟩

end Ends

-- In a text

-- What begins a construct that has an end.
inductive Opener where
  | single
  | ansi
  | double
  | backquote
  | dollar (inDouble : Bool)
  | parens
  | arith
  | param
deriving DecidableEq

namespace Opener

def delimiter : Opener → List Char
  | .single => ['\'']
  | .ansi => ['$', '\'']
  | .double => ['"']
  | .backquote => [Text.backquote]
  | .dollar _ => ['$']
  | .parens => ['(']
  | .arith => ['(', '(']
  | .param => ['$', '\x7b']

-- Whether other constructs may stand inside.
def nests : Opener → Bool
  | .single | .ansi | .backquote => false
  | _ => true

-- The text after the construct that the text begins with.
def close (d : Dialect) : Opener → List Char → Close
  | .single, cs => closeSingle cs.length (cs.drop 1)
  | .ansi, cs => closeAnsi cs.length (cs.drop 2)
  | .double, cs => closeDouble d (cs.drop 1)
  | .backquote, cs => closeBackquote cs.length (cs.drop 1)
  | .dollar inDouble, cs => closeExpansion d inDouble (cs.drop 1)
  | .parens, cs => closeParens d cs
  | .arith, cs => closeArith d cs
  | .param, cs => Construct.close d (2 * cs.length + 1) (.param 0) cs.length '$' (cs.drop 1)

variable {k : Opener} {cs rest u v tail : List Char}

theorem close_shorter (hcs : cs ≠ []) (h : k.close d cs = .ok rest) : rest <:+ cs ∧ rest.length < cs.length := by
  have hdrop {n : Nat} (hn : 0 < n) (h : rest <:+ cs.drop n) : rest <:+ cs ∧ rest.length < cs.length := by
    have hlength := h.length_le
    have hpos := List.length_pos_iff.mpr hcs
    rw [List.length_drop] at hlength
    exact ⟨h.trans (List.drop_suffix _ _), by omega⟩
  have hframe {n left : Nat} {f : Frame} {prev : Char} (h : Construct.close d n f left prev cs = .ok rest) :
      rest <:+ cs ∧ rest.length < cs.length := by
    obtain ⟨body, hbody⟩ := (close_ok _).1 _ _ _ _ _ h
    have hlength := congrArg List.length hbody
    have hdelim : 0 < f.delimiter.length := by cases f <;> simp [Frame.delimiter]
    simp only [List.length_append] at hlength
    exact ⟨close_suffix h, by omega⟩
  cases k with
  | single => exact hdrop Nat.one_pos (closeSingle_suffix h)
  | ansi => exact hdrop Nat.two_pos (closeEscaped_suffix h)
  | double => exact hdrop Nat.one_pos (closeDouble_suffix h)
  | backquote => exact hdrop Nat.one_pos (closeBackquote_suffix h)
  | dollar inDouble => exact hdrop Nat.one_pos (closeExpansion_suffix h)
  | parens => exact hframe h
  | arith => exact hframe h
  | param => exact hdrop Nat.one_pos (close_suffix h)

theorem close_cut (hopen : k.delimiter <+: u ++ tail) (hv : v.length < u.length) (hkept : k.nests = true → ArithKept d u v tail)
    (h : k.close d (u ++ tail) = .ok (v ++ tail)) : k.close d u = .ok v := by
  have hone : (u ++ tail).drop 1 = u.drop 1 ++ tail := List.drop_append_of_le_length (by omega)
  have hframe {n left left' : Nat} {f : Frame} {prev : Char} {w : List Char} (hw : w <:+ u) (hkept : ArithKept d u v tail)
      (hn : 2 * (w ++ tail).length + 1 ≤ n) (h : Construct.close d n f left prev (w ++ tail) = .ok (v ++ tail)) {m : Nat}
      (hm : 2 * w.length + 1 ≤ m) : Construct.close d m f left' prev w = .ok v :=
    (closes_alike n).1 m f left left' prev w v tail hn hm (hkept.mono hw (Nat.le_refl _)) h
  cases k with
  | single =>
      rw [close, hone] at h
      exact closeSingle_cut h
  | ansi =>
      by_cases htwo : 2 ≤ u.length
      · rw [close, List.drop_append_of_le_length htwo] at h
        exact closeEscaped_cut h
      · obtain ⟨body, hbody⟩ := closeEscaped_ok (h : closeAnsi _ _ = _)
        have hlength := congrArg List.length hbody
        simp only [List.length_drop, List.length_append, List.length_cons] at hlength
        omega
  | backquote =>
      rw [close, hone] at h
      exact closeEscaped_cut h
  | double =>
      rw [close, hone] at h
      exact hframe (List.drop_suffix _ _) (hkept rfl) (Nat.le_refl _) h (Nat.le_refl _)
  | dollar inDouble =>
      rw [close, hone] at h
      obtain ⟨c, w, rfl⟩ := List.exists_cons_of_length_pos (l := u) (by omega)
      obtain ⟨rfl, -⟩ := List.cons_prefix_cons.mp (hopen : '$' :: [] <+: c :: (w ++ tail))
      exact (closes_alike _).2 _ inDouble _ v tail (Nat.le_refl _) (Nat.le_refl _) (hkept rfl) h
  | parens => exact hframe (List.suffix_refl _) (hkept rfl) (Nat.le_refl _) h (Nat.le_refl _)
  | arith => exact hframe (List.suffix_refl _) (hkept rfl) (Nat.le_refl _) h (Nat.le_refl _)
  | param =>
      rw [close, hone] at h
      refine hframe (List.drop_suffix _ _) (hkept rfl) ?_ h ?_
      · simp only [List.length_append, List.length_drop]
        omega
      · simp only [List.length_drop]
        omega

end Opener

-- The characters of the text from `a` to `hi`.
def slice (src : List Char) (a hi : Nat) : List Char := (src.take hi).drop a

-- Where the construct ends that begins at `i`.
def skip (d : Dialect) (k : Opener) (src : List Char) (i : Nat) : Except Unclosed Nat :=
  (k.close d (src.drop i)).map (src.length - ·.length)

-- The construct that begins at `i` is closed.
def Ends (d : Dialect) (k : Opener) (src : List Char) (i : Nat) : Prop := ∃ stop, skip d k src i = .ok stop

section Skip

variable {k : Opener} {src rest : List Char} {a hi i stop : Nat}

theorem skip_ok : skip d k src i = .ok stop ↔ ∃ rest, k.close d (src.drop i) = .ok rest ∧ src.length - rest.length = stop := by
  unfold skip
  cases k.close d (src.drop i) with
  | ok r => simp [Except.map]
  | error e => simp [Except.map]

theorem ends_iff : Ends d k src i ↔ ∃ rest, k.close d (src.drop i) = .ok rest := by
  simp only [Ends, skip_ok]
  exact ⟨fun h => by obtain ⟨_, rest, hr, -⟩ := h; exact ⟨rest, hr⟩, fun h => by obtain ⟨rest, hr⟩ := h; exact ⟨_, rest, hr, rfl⟩⟩

theorem drop_slice (ha : a ≤ i) : (slice src a hi).drop (i - a) = (src.take hi).drop i := by
  rw [slice, List.drop_drop, Nat.add_sub_cancel' ha]

-- From where it begins to where it ends, a construct is the same in every piece of the text that holds it, if what is
-- read as arithmetic inside of it in the piece can be read so in the whole text.
theorem skip_slice (hopen : k.delimiter <+: src.drop i) (h : skip d k src i = .ok stop) :
    i < stop ∧ stop ≤ src.length ∧
      ∀ a hi, a ≤ i → stop ≤ hi → hi ≤ src.length →
        (k.nests = true → ∀ j, i ≤ j → j < stop → ['$', '(', '('] <+: src.drop j →
          Ends d .arith (slice src a hi) (j + 1 - a) → Ends d .arith src (j + 1)) →
        skip d k (slice src a hi) (i - a) = .ok (stop - a) := by
  obtain ⟨rest, hr, rfl⟩ := skip_ok.mp h
  have hne : src.drop i ≠ [] := by
    intro hnil
    rw [hnil, List.prefix_nil] at hopen
    cases k <;> cases hopen
  obtain ⟨hsuffix, hshorter⟩ := Opener.close_shorter hne hr
  rw [List.length_drop] at hshorter
  refine ⟨by omega, Nat.sub_le _ _, fun a hi ha hstop hhi hkept => ?_⟩
  -- the text from `i` on is what the piece holds of it and what follows the piece
  have hwhole : src.drop i = (src.take hi).drop i ++ src.drop hi := by
    rw [← List.drop_append_of_le_length (by rw [List.length_take]; omega), List.take_append_drop]
  have htail : src.drop hi <:+ rest := by
    refine List.suffix_of_suffix_length_le (List.drop_suffix hi src) (hsuffix.trans (List.drop_suffix i src)) ?_
    rw [List.length_drop]
    omega
  obtain ⟨v, rfl⟩ := htail
  have hlength : (v ++ src.drop hi).length = v.length + (src.length - hi) := by rw [List.length_append, List.length_drop]
  have hu : ((src.take hi).drop i).length = hi - i := by
    rw [List.length_drop, List.length_take]
    omega
  rw [hlength] at hshorter hstop ⊢
  rw [hwhole] at hr hopen
  refine skip_ok.mpr ⟨v, ?_, ?_⟩
  · rw [drop_slice ha]
    refine Opener.close_cut hopen (by omega) (fun hnests w hw hvw harith => ?_) hr
    -- the arithmetic stands somewhere between the ends
    obtain ⟨j, hj⟩ : ∃ j, j + (w.length + 3) = hi - i := by
      have hle := hw.length_le
      simp only [List.length_cons] at hle
      exact ⟨hi - i - (w.length + 3), by omega⟩
    have hpiece : ((src.take hi).drop i).drop j = '$' :: '(' :: '(' :: w := by
      rw [List.suffix_iff_eq_drop.mp hw, hu]
      simp only [List.length_cons]
      congr 1
      omega
    have hat : src.drop (i + j) = '$' :: '(' :: '(' :: (w ++ src.drop hi) := by
      rw [← List.drop_drop, hwhole, List.drop_append_of_le_length (by omega), hpiece]
      rfl
    have hends : Ends d .arith src (i + j + 1) := by
      refine hkept hnests (i + j) (Nat.le_add_right _ _) (by omega) (by rw [hat]; exact ⟨_, rfl⟩) (ends_iff.mpr ?_)
      rw [drop_slice (by omega), ← List.tail_drop, ← List.drop_drop, hpiece]
      exact harith
    rw [ends_iff, ← List.tail_drop, hat] at hends
    exact hends
  · rw [slice, List.length_drop, List.length_take]
    omega

end Skip

def sampleSum : List Char := "x=$(( (1) + 2 )) # ))".toList

theorem skip_slice_of_sum :
    skip .bash (.dollar false) sampleSum 2 = .ok 16 ∧ skip .bash (.dollar false) (slice sampleSum 2 16) 0 = .ok 14 := by
  have hend : skip .bash (.dollar false) sampleSum 2 = .ok 16 := by rfl
  have hsole : ∀ j < 16, ['$', '(', '('] <+: sampleSum.drop j → j = 2 := by decide +kernel
  refine ⟨hend, (skip_slice (by decide) hend).2.2 2 16 (Nat.le_refl _) (Nat.le_refl _) (by decide) ?_⟩
  rintro - j - hj hopen -
  rw [hsole j hj hopen]
  exact ⟨16, rfl⟩

-- The inner arithmetic ends behind the outer substitution. Cut off there, it is a command, and the outer one is arithmetic.
example : let src := "$(( ( ( ( echo hi # ))) $(( #(((((((\n) ) ))) # ))))".toList
    skip .bash (.dollar false) src 0 = .ok 44 ∧ skip .bash (.dollar false) (slice src 0 44) 0 = .ok 43 := by
  decide +kernel

end Construct
end ShellScript

import ShellScript.Token.Construct

-- Where a construct ends: right after its closing delimiter, with the end of the text behind it. The bounds on the
-- steps are never reached.
namespace ShellScript
-- What one more step never changes from a bound on is the same from there on.
theorem eq_of_bound {α : Type} {f : Nat → α} {bound n : Nat} (h : ∀ m, bound ≤ m → f (m + 1) = f m) (hn : bound ≤ n) :
    f n = f bound := by
  induction hn with
  | refl => rfl
  | @step n hn ih => rw [h n hn, ih]

namespace Construct

-- What closes a frame.
def Frame.delimiter : Frame → List Char
  | .double => ['"']
  | .parens _ => [')']
  | .arith _ => [')', ')']
  | .param _ => ['\x7d']

theorem Frame.delimiter_of_go {f f' : Frame} {prev c : Char} {next : Option Char} (h : f.step prev c next = .go f') :
    f'.delimiter = f.delimiter := by
  cases f with
  | double =>
      simp only [Frame.step] at h
      split at h <;> cases h
      rfl
  | parens n =>
      simp only [Frame.step] at h
      repeat' split at h
      all_goals cases h
      all_goals rfl
  | arith n =>
      simp only [Frame.step] at h
      repeat' split at h
      all_goals cases h
      all_goals rfl
  | param n =>
      simp only [Frame.step] at h
      repeat' split at h
      all_goals cases h
      all_goals rfl

theorem Frame.delimiter_of_done {f : Frame} {prev c : Char} {cs : List Char} (h : f.step prev c cs.head? = .done) :
    c :: cs = f.delimiter ++ cs.drop f.tail := by
  cases f with
  | double =>
      simp only [Frame.step] at h
      split at h <;> cases h
      simp_all [delimiter, tail]
  | parens n =>
      simp only [Frame.step] at h
      repeat' split at h
      all_goals cases h
      simp_all [delimiter, tail]
  | arith n =>
      simp only [Frame.step] at h
      repeat' split at h
      all_goals cases h
      cases cs with
      | nil => simp_all
      | cons e cs => simp_all [delimiter, tail]
  | param n =>
      simp only [Frame.step] at h
      repeat' split at h
      all_goals cases h
      simp_all [delimiter, tail]

theorem closeSingle_ok {left : Nat} {cs rest : List Char} (h : closeSingle left cs = .ok rest) :
    ∃ body, cs = body ++ '\'' :: rest := by
  induction cs with
  | nil => cases h
  | cons c cs ih =>
      rw [closeSingle] at h
      split at h
      · cases h
        exact ⟨[], by simp_all⟩
      · obtain ⟨body, rfl⟩ := ih h
        exact ⟨c :: body, rfl⟩

theorem closeEscaped_ok {k : Construct} {stop : Char} {left : Nat} {cs rest : List Char}
    (h : closeEscaped k stop left cs = .ok rest) : ∃ body, cs = body ++ stop :: rest := by
  fun_induction closeEscaped k stop left cs with
  | case1 => cases h
  | case2 e cs ih =>
      obtain ⟨body, rfl⟩ := ih h
      exact ⟨'\\' :: e :: body, rfl⟩
  | case3 c cs _ hstop =>
      cases h
      exact ⟨[], by simp_all⟩
  | case4 c cs _ _ ih =>
      obtain ⟨body, rfl⟩ := ih h
      exact ⟨c :: body, rfl⟩

theorem suffix_of_eq {body rest cs : List Char} (stop : List Char) (h : cs = body ++ (stop ++ rest)) : rest <:+ cs :=
  ⟨body ++ stop, by rw [h, List.append_assoc]⟩

theorem closeSingle_suffix {left : Nat} {cs rest : List Char} (h : closeSingle left cs = .ok rest) : rest <:+ cs := by
  obtain ⟨body, hbody⟩ := closeSingle_ok h
  exact suffix_of_eq ['\''] hbody

theorem closeEscaped_suffix {k : Construct} {stop : Char} {left : Nat} {cs rest : List Char}
    (h : closeEscaped k stop left cs = .ok rest) : rest <:+ cs := by
  obtain ⟨body, hbody⟩ := closeEscaped_ok h
  exact suffix_of_eq [stop] hbody

variable {d : Dialect}

section Turns

variable {double dollar : List Char → Close} {f : Frame} {left : Nat} {prev c : Char} {cs : List Char}

theorem Turn.past_eq_ok {t : Turn} {r : Close} (h : Turn.past f c r = .ok t) : ∃ rest, r = .ok rest ∧ t = .on f c rest := by
  cases r with
  | ok rest =>
      cases h
      exact ⟨rest, rfl, rfl⟩
  | error e => cases h

-- The last step takes the delimiter.
theorem turn_done {rest : List Char} (h : turn double dollar f left prev c cs = .ok (.done rest)) :
    c :: cs = f.delimiter ++ rest := by
  unfold turn at h
  have hpast (r : Close) (h : Turn.past f c r = .ok (.done rest)) : False := by
    obtain ⟨_, _, heq⟩ := Turn.past_eq_ok h
    cases heq
  split at h
  · split at h <;> cases h
  · split at h
    · exact (hpast _ h).elim
    · split at h
      · exact (hpast _ h).elim
      · split at h
        · exact (hpast _ h).elim
        · split at h
          · exact (hpast _ h).elim
          · split at h
            · rename_i hstep
              cases h
              exact Frame.delimiter_of_done hstep
            all_goals cases h

-- Any other step takes at least one character and stays in a frame of the same kind.
theorem turn_on {f' : Frame} {prev' : Char} {rest : List Char}
    (hdouble : ∀ rest, double cs = .ok rest → rest <:+ cs) (hdollar : ∀ rest, dollar cs = .ok rest → rest <:+ cs)
    (h : turn double dollar f left prev c cs = .ok (.on f' prev' rest)) :
    f'.delimiter = f.delimiter ∧ rest <:+ cs := by
  unfold turn at h
  have hpast (r : Close) (hr : ∀ rest, r = .ok rest → rest <:+ cs) (h : Turn.past f c r = .ok (.on f' prev' rest)) :
      f'.delimiter = f.delimiter ∧ rest <:+ cs := by
    obtain ⟨_, hrest, heq⟩ := Turn.past_eq_ok h
    cases heq
    exact ⟨rfl, hr _ hrest⟩
  split at h
  · split at h
    · cases h
    · cases h
      exact ⟨rfl, List.suffix_cons _ _⟩
  · split at h
    · exact hpast _ (fun _ => closeEscaped_suffix) h
    · split at h
      · exact hpast _ hdollar h
      · split at h
        · exact hpast _ (fun _ => closeSingle_suffix) h
        · split at h
          · exact hpast _ hdouble h
          · split at h
            · cases h
            · rename_i hstep
              cases h
              exact ⟨Frame.delimiter_of_go hstep, List.suffix_refl _⟩
            · cases h
              exact ⟨rfl, List.dropWhile_suffix _⟩
            · cases h

theorem turn_congr {double' dollar' : List Char → Close} (hdouble : double cs = double' cs)
    (hdollar : dollar cs = dollar' cs) :
    turn double dollar f left prev c cs = turn double' dollar' f left prev c cs := by
  unfold turn
  rw [hdouble, hdollar]

end Turns

-- What the closers leave.

theorem closeDollar_suffix {n : Nat} (hclose : ∀ f left prev cs rest, close d n f left prev cs = .ok rest → rest <:+ cs)
    {inDouble : Bool} {cs rest : List Char} (h : closeDollar d (n + 1) inDouble cs = .ok rest) : rest <:+ cs := by
  unfold closeDollar at h
  dsimp only at h
  split at h
  · split at h
    · rename_i harith
      cases h
      split at harith
      · split at harith
        · rename_i hr
          cases harith
          exact hclose _ _ _ _ _ hr
        · cases harith
      · cases harith
    · split at h
      · rename_i hr
        cases h
        exact hclose _ _ _ _ _ hr
      · cases h
  · exact hclose _ _ _ _ _ h
  · split at h
    · exact (closeEscaped_suffix h).trans (List.suffix_cons _ _)
    · cases h
      exact List.suffix_refl _
  · split at h
    · exact (hclose _ _ _ _ _ h).trans (List.suffix_cons _ _)
    · cases h
      exact List.suffix_refl _
  · cases h
    exact List.suffix_refl _

-- After the closing delimiter, and the end of the text after a dollar sign.
theorem close_ok (n : Nat) :
    (∀ f left prev cs rest, close d n f left prev cs = .ok rest → ∃ body, cs = body ++ (f.delimiter ++ rest)) ∧
    (∀ inDouble cs rest, closeDollar d n inDouble cs = .ok rest → rest <:+ cs) := by
  induction n with
  | zero =>
      refine ⟨fun f left prev cs rest h => ?_, fun inDouble cs rest h => ?_⟩
      · rw [close] at h
        cases h
      · rw [closeDollar] at h
        cases h
        exact List.suffix_refl _
  | succ n ih =>
      obtain ⟨ihclose, ihdollar⟩ := ih
      have hsuffix : ∀ f left prev cs rest, close d n f left prev cs = .ok rest → rest <:+ cs :=
        fun f left prev cs rest h => suffix_of_eq _ (ihclose f left prev cs rest h).choose_spec
      refine ⟨fun f left prev cs rest h => ?_, fun inDouble cs rest h => closeDollar_suffix hsuffix h⟩
      cases cs with
      | nil => cases h
      | cons c cs =>
          rw [close] at h
          split at h
          · rename_i hturn
            cases h
            exact ⟨[], turn_done hturn⟩
          · rename_i f' prev' rest' hturn
            obtain ⟨hdelim, front, hfront⟩ :=
              turn_on (hsuffix _ _ _ _) (ihdollar _ _) hturn
            obtain ⟨body, hbody⟩ := ihclose _ _ _ _ _ h
            exact ⟨c :: (front ++ body), by simp [← hfront, hbody, hdelim]⟩
          · cases h

theorem close_suffix {n : Nat} {f : Frame} {left : Nat} {prev : Char} {cs rest : List Char}
    (h : close d n f left prev cs = .ok rest) : rest <:+ cs :=
  suffix_of_eq _ ((close_ok n).1 f left prev cs rest h).choose_spec

section Closers

variable {cs rest : List Char}

theorem closeDouble_suffix (h : closeDouble d cs = .ok rest) : rest <:+ cs := close_suffix h

theorem closeParens_suffix (h : closeParens d cs = .ok rest) : rest <:+ cs := close_suffix h

theorem closeBackquote_suffix {left : Nat} (h : closeBackquote left cs = .ok rest) : rest <:+ cs := closeEscaped_suffix h

theorem closeExpansion_suffix {inDouble : Bool} (h : closeExpansion d inDouble cs = .ok rest) : rest <:+ cs :=
  (close_ok _).2 _ _ _ h

end Closers

-- The bounds.

theorem closeDollar_congr {n m : Nat} {cs : List Char}
    (h : ∀ f left prev cs', cs'.length ≤ cs.length → close d n f left prev cs' = close d m f left prev cs')
    (inDouble : Bool) : closeDollar d (n + 1) inDouble cs = closeDollar d (m + 1) inDouble cs := by
  unfold closeDollar
  dsimp only
  split
  · rw [h _ _ _ _ (Nat.le_refl _), h _ _ _ _ (Nat.le_refl _)]
  · exact h _ _ _ _ (Nat.le_refl _)
  · rfl
  · rw [h _ _ _ _ (Nat.le_succ _)]
  · rfl

theorem close_bound (n : Nat) :
    (∀ f left prev cs, 2 * cs.length + 1 ≤ n → close d (n + 1) f left prev cs = close d n f left prev cs) ∧
    (∀ inDouble cs, 2 * cs.length + 2 ≤ n → closeDollar d (n + 1) inDouble cs = closeDollar d n inDouble cs) := by
  induction n with
  | zero => exact ⟨fun _ _ _ _ h => by omega, fun _ _ h => by omega⟩
  | succ n ih =>
      obtain ⟨ihclose, ihdollar⟩ := ih
      refine ⟨fun f left prev cs hn => ?_, fun inDouble cs hn => ?_⟩
      · cases cs with
        | nil => rfl
        | cons c cs =>
            simp only [List.length_cons] at hn
            have hsame : turn (fun cs => close d (n + 1) .double (cs.length + 1) c cs)
                (closeDollar d (n + 1) (f == .double)) f left prev c cs =
                turn (fun cs => close d n .double (cs.length + 1) c cs) (closeDollar d n (f == .double)) f left prev c cs :=
              turn_congr (ihclose _ _ _ _ (by omega)) (ihdollar _ _ (by omega))
            rw [close, close, hsame]
            split
            · rfl
            · rename_i hturn
              have hrest := (turn_on (fun _ => close_suffix) ((close_ok n).2 _ _) hturn).2.length_le
              exact ihclose _ _ _ _ (by omega)
            · rfl
      · exact closeDollar_congr (fun f left prev cs' hle => ihclose f left prev cs' (by omega)) inDouble

theorem close_lparen (n k left : Nat) (prev : Char) (cs : List Char) :
    close d (n + 1) (.arith k) left prev ('(' :: cs) = close d n (.arith (k + 1)) left '(' cs := by
  rw [close]
  rfl

-- Both pairs of parentheses are part of an arithmetic construct.
theorem closeArith_ok {cs rest : List Char} (h : closeArith d ('(' :: '(' :: cs) = .ok rest) :
    ∃ inner, cs = inner ++ ([')', ')'] ++ rest) := by
  rw [closeArith, show 2 * ('(' :: '(' :: cs).length + 1 = 2 * cs.length + 3 + 1 + 1 by simp; omega, close_lparen,
    close_lparen] at h
  exact (close_ok _).1 _ _ _ _ _ h

end Construct
end ShellScript

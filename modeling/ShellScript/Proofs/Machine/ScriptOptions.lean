import Mathlib.Data.List.TakeWhile
import ShellScript.Proofs.Machine.Plain
import ShellScript.Proofs.Machine.Shadowing
import ShellScript.Proofs.Text.Characters
import ShellScript.Proofs.Text.Numeral

-- What the options of a script are: the rules by which its words are read, without a shell that would do so.
namespace ShellScript
namespace Machine

-- The letters that a script takes as options, and whether it leaves complaints to the script.
structure OptionLetters where
  silent : Bool
  letters : List Char

namespace OptionLetters

def ofText (s : String) : OptionLetters :=
  match s.toList with
  | ':' :: cs => ⟨true, cs⟩
  | cs => ⟨false, cs⟩

variable (o : OptionLetters) (c : Char)

def Knows : Prop := c ≠ ':' ∧ c ∈ o.letters

-- A colon follows the first place of the letter.
def TakesArg : Prop := ∃ front back, o.letters = front ++ c :: ':' :: back ∧ c ∉ front

instance : Decidable (o.Knows c) := inferInstanceAs (Decidable (_ ∧ _))

-- The letter after the first place can be looked up.
theorem takesArg_iff : o.TakesArg c ↔ ((o.letters.dropWhile (· != c)).drop 1).head? = some ':' := by
  constructor
  · rintro ⟨front, back, hletters, hfront⟩
    have hskip : ∀ d ∈ front, (d != c) = true := by
      intro d hd
      simp only [bne_iff_ne]
      rintro rfl
      exact hfront hd
    rw [hletters, List.dropWhile_append_of_pos hskip]
    simp
  · intro h
    have hsplit := List.takeWhile_append_dropWhile (p := (· != c)) (l := o.letters)
    refine ⟨o.letters.takeWhile (· != c), (o.letters.dropWhile (· != c)).drop 2, ?_, ?_⟩
    · cases hback : o.letters.dropWhile (· != c) with
      | nil => simp [hback] at h
      | cons d back =>
          have hd : d = c := by
            have hhead := List.head_dropWhile_not (p := (· != c)) (l := o.letters) (by simp [hback])
            simpa [hback] using hhead
          rw [hback] at h hsplit
          cases back with
          | nil => simp at h
          | cons e back =>
              have he : e = ':' := by simpa using h
              subst hd he
              rw [List.drop_succ_cons, List.drop_succ_cons, List.drop_zero, hsplit]
    · intro hmem
      simpa using List.mem_takeWhile_imp hmem

instance : Decidable (o.TakesArg c) := decidable_of_iff _ (takesArg_iff o c).symm

-- What a call answers: the option, its argument if it has one, and a complaint.
structure Answer where
  option : String
  arg : Option String := none
  complaint : Option String := none
deriving DecidableEq, Repr

-- A letter that is no option is told to the script if it has asked for that, and to the user otherwise.
def refusal (silentOption what : String) : Answer where
  option := if o.silent then silentOption else "?"
  arg := if o.silent then some (String.singleton c) else none
  complaint := if o.silent then none else some (what ++ " -- " ++ String.singleton c)

def unknown : Answer := o.refusal c "?" "illegal option"

def missing : Answer := o.refusal c ":" "option requires an argument"

-- The options of words, from the letters on that are left of the word at hand, and how many words they take.
inductive Enumerates : List Char → List String → List Answer → Nat → Prop
  | finished : Enumerates [] [] [] 0
  | separator {ws : List String} : Enumerates [] ("--" :: ws) [] 1
  | operand {w : String} {ws : List String} (h : ∀ c cs, w.toList ≠ '-' :: c :: cs) : Enumerates [] (w :: ws) [] 0
  | word {w : String} {c : Char} {cs : List Char} {ws : List String} {as : List Answer} {n : Nat}
      (h : w.toList = '-' :: c :: cs) (other : w ≠ "--") (rest : Enumerates (c :: cs) ws as n) :
      Enumerates [] (w :: ws) as (n + 1)
  | unknown {c : Char} {cs : List Char} {ws : List String} {as : List Answer} {n : Nat} (h : ¬o.Knows c)
      (rest : Enumerates cs ws as n) : Enumerates (c :: cs) ws (o.unknown c :: as) n
  | plain {c : Char} {cs : List Char} {ws : List String} {as : List Answer} {n : Nat} (h : o.Knows c) (bare : ¬o.TakesArg c)
      (rest : Enumerates cs ws as n) : Enumerates (c :: cs) ws ({ option := String.singleton c } :: as) n
  -- the argument is the rest of the word
  | attached {c d : Char} {cs : List Char} {ws : List String} {as : List Answer} {n : Nat} (h : o.Knows c)
      (takes : o.TakesArg c) (rest : Enumerates [] ws as n) :
      Enumerates (c :: d :: cs) ws ({ option := String.singleton c, arg := some (String.ofList (d :: cs)) } :: as) n
  -- the argument is the next word
  | detached {c : Char} {v : String} {ws : List String} {as : List Answer} {n : Nat} (h : o.Knows c)
      (takes : o.TakesArg c) (rest : Enumerates [] ws as n) :
      Enumerates [c] (v :: ws) ({ option := String.singleton c, arg := some v } :: as) (n + 1)
  | missing {c : Char} {as : List Answer} {n : Nat} (h : o.Knows c) (takes : o.TakesArg c) (rest : Enumerates [] [] as n) :
      Enumerates [c] [] (o.missing c :: as) n

variable {o c}

theorem exists_enumerates_letters {ws : List String} (hword : ∃ as n, o.Enumerates [] ws as n)
    (hnext : ∀ v vs, ws = v :: vs → ∃ as n, o.Enumerates [] vs as n) (cs : List Char) :
    ∃ as n, o.Enumerates cs ws as n := by
  induction cs with
  | nil => exact hword
  | cons c cs ih =>
      obtain ⟨as, n, hrest⟩ := ih
      by_cases hknows : o.Knows c
      · by_cases htakes : o.TakesArg c
        · cases cs with
          | cons d cs =>
              obtain ⟨as, n, hrest⟩ := hword
              exact ⟨_, _, .attached hknows htakes hrest⟩
          | nil =>
              cases ws with
              | nil =>
                  obtain ⟨as, n, hrest⟩ := hword
                  exact ⟨_, _, .missing hknows htakes hrest⟩
              | cons v vs =>
                  obtain ⟨as, n, hrest⟩ := hnext v vs rfl
                  exact ⟨_, _, .detached hknows htakes hrest⟩
        · exact ⟨_, _, .plain hknows htakes hrest⟩
      · exact ⟨_, _, .unknown hknows hrest⟩

-- The rules leave no choice.
theorem Enumerates.unique {cs : List Char} {ws : List String} {as as' : List Answer} {n n' : Nat}
    (h : o.Enumerates cs ws as n) (h' : o.Enumerates cs ws as' n') : as = as' ∧ n = n' := by
  induction h generalizing as' n' with
  | finished =>
      cases h'
      exact ⟨rfl, rfl⟩
  | separator =>
      cases h' with
      | separator => exact ⟨rfl, rfl⟩
      | operand h => exact absurd rfl (h '-' [])
      | word h other => exact absurd rfl other
  | operand hoperand =>
      cases h' with
      | separator => exact absurd rfl (hoperand '-' [])
      | operand => exact ⟨rfl, rfl⟩
      | word h => exact absurd h (hoperand _ _)
  | word hw hother hrest ih =>
      cases h' with
      | separator => exact absurd rfl hother
      | operand h => exact absurd hw (h _ _)
      | word h other rest =>
          obtain ⟨rfl, rfl⟩ := List.cons.inj (List.cons.inj (hw.symm.trans h)).2
          obtain ⟨rfl, rfl⟩ := ih rest
          exact ⟨rfl, rfl⟩
  | unknown hknows hrest ih =>
      cases h' with
      | unknown _ rest =>
          obtain ⟨rfl, rfl⟩ := ih rest
          exact ⟨rfl, rfl⟩
      | plain h | attached h | detached h | missing h => exact absurd h hknows
  | plain hknows hbare hrest ih =>
      cases h' with
      | plain _ _ rest =>
          obtain ⟨rfl, rfl⟩ := ih rest
          exact ⟨rfl, rfl⟩
      | unknown h => exact absurd hknows h
      | attached _ h | detached _ h | missing _ h => exact absurd h hbare
  | attached hknows htakes hrest ih =>
      cases h' with
      | attached _ _ rest =>
          obtain ⟨rfl, rfl⟩ := ih rest
          exact ⟨rfl, rfl⟩
      | unknown h => exact absurd hknows h
      | plain _ h => exact absurd htakes h
  | detached hknows htakes hrest ih =>
      cases h' with
      | detached _ _ rest =>
          obtain ⟨rfl, rfl⟩ := ih rest
          exact ⟨rfl, rfl⟩
      | unknown h => exact absurd hknows h
      | plain _ h => exact absurd htakes h
  | missing hknows htakes hrest ih =>
      cases h' with
      | missing _ _ rest =>
          obtain ⟨rfl, rfl⟩ := ih rest
          exact ⟨rfl, rfl⟩
      | unknown h => exact absurd hknows h
      | plain _ h => exact absurd htakes h

-- Any words have options, and an end of them.
theorem exists_enumerates (o : OptionLetters) (ws : List String) (cs : List Char) : ∃ as n, o.Enumerates cs ws as n := by
  induction ws generalizing cs with
  | nil => exact exists_enumerates_letters ⟨_, _, .finished⟩ nofun cs
  | cons w ws ih =>
      refine exists_enumerates_letters ?_ (fun v vs h => (List.cons.inj h).2 ▸ ih []) cs
      by_cases hseparator : w = "--"
      · subst hseparator
        exact ⟨_, _, .separator⟩
      · by_cases hoption : ∃ c cs, w.toList = '-' :: c :: cs
        · obtain ⟨c, cs, hw⟩ := hoption
          obtain ⟨as, n, hrest⟩ := ih (c :: cs)
          exact ⟨_, _, .word hw hseparator hrest⟩
        · exact ⟨_, _, .operand fun c cs hw => hoption ⟨c, cs, hw⟩⟩

end OptionLetters

end Machine
end ShellScript

-- The options of a script, one at each call. Where a call goes on is split between a variable, which counts the words, and
-- a position within the word at hand.
namespace ShellScript

namespace Text

theorem int64_toString {n : Nat} (h : n ≤ 9223372036854775807) : int64 10 (trim (toString n)) = .ok n := by
  have hdigits : ∀ d ∈ Nat.toDigits 10 n, isDigit d = true :=
    fun d hd => Nat.isDigit_of_mem_toDigits (by decide) (by decide) hd
  have hvisible : ∀ d ∈ Nat.toDigits 10 n, 33 ≤ d.toNat ∧ d.toNat < 0x80 := by
    intro d hd
    have hdigit := hdigits d hd
    simp only [isDigit, Bool.and_eq_true, decide_eq_true_eq, Char.le_def, UInt32.le_iff_toNat_le] at hdigit
    have hzero : '0'.val.toNat = 48 := rfl
    have hnine : '9'.val.toNat = 57 := rfl
    have hval : d.toNat = d.val.toNat := rfl
    omega
  have hsign : signOf (n : Int) = [] := if_neg (by omega)
  have hsplit := splitSign_signOf (n := n) hdigits
  rw [hsign, List.nil_append] at hsplit
  have hread : limited 10 maxUInt64 false 0 (Nat.toDigits 10 n) = some (n, true) := by
    have hlimit : Nat.ofDigitChars 10 (Nat.toDigits 10 n) 0 ≤ maxUInt64 := by
      rw [Nat.ofDigitChars_ten_toDigits, maxUInt64]
      omega
    rw [limited_of_isDigit hdigits hlimit, Nat.ofDigitChars_ten_toDigits]
  rw [Nat.toString_eq_repr, Nat.repr_eq_ofList_toDigits, trim_of_visible hvisible, int64, String.toList_ofList, hsplit]
  have hpositive : ¬(n : Int) < 0 := by omega
  have hfits : ¬(n : Int) > maxInt64 := by
    rw [maxInt64]
    omega
  simp [uint64, Nat.toDigits_ne_nil, hread, hpositive, hfits]

end Text

namespace Machine

open Run

namespace Env

-- The variables after a variable was taken out of the scope where it is seen.
def dismiss (e : Env) (name : String) : Env := ofScopes (eraseIn name e.all)

variable {e : Env} {name n value : String}

theorem column_assign_of_ne (h : n ≠ name) : (e.assign name value).column n = e.column n := by
  rw [assign, column_put, if_neg h]

theorem column_dismiss : (e.dismiss name).column n = if n = name then Column.erase (e.column n) else e.column n :=
  e.column_erase name n

theorem value?_of_column {e' : Env} (h : e'.column n = e.column n) : e'.value? n = e.value? n := by
  rw [value?, value?, get?_eq_nearest, get?_eq_nearest, h]

theorem eraseIn_of_get? {ss : List Scope} (h : findIn name ss = none) : eraseIn name ss = ss := by
  induction ss with
  | nil => rfl
  | cons s ss ih =>
      cases hs : s.lookup name with
      | some v => simp [findIn, hs] at h
      | none =>
          have hrest : findIn name ss = none := by simpa [findIn, hs] using h
          simp [eraseIn, hs, ih hrest]

theorem unset_eq (h : ∀ v, e.get? name = some v → v.readOnly = false) : e.unset name = .ok (e.dismiss name) := by
  unfold unset dismiss
  cases hseen : e.get? name with
  | none => simp only [eraseIn_of_get? hseen, ofScopes_all]
  | some v => simp [h v hseen]

end Env

namespace Column

theorem mem_put {v x : Var} {c : List (Option Var)} (h : some x ∈ put v c) : x = v ∨ some x ∈ c := by
  fun_induction put v c with
  | case1 => exact .inr h
  | case2 y => exact .inl (by simpa using h)
  | case3 y c hc hy =>
      rcases List.mem_cons.mp h with h | h
      · exact .inl (by simpa using h)
      · exact .inr (List.mem_cons_of_mem _ h)
  | case4 y c hc hy ih =>
      rcases List.mem_cons.mp h with h | h
      · exact .inr (h ▸ List.mem_cons_self)
      · exact (ih h).imp_right (List.mem_cons_of_mem _)

theorem mem_erase {x : Var} {c : List (Option Var)} (h : some x ∈ erase c) : some x ∈ c := by
  fun_induction erase c with
  | case1 => exact h
  | case2 y c hy =>
      rcases List.mem_cons.mp h with h | h
      · cases h
      · exact List.mem_cons_of_mem _ h
  | case3 y c hy ih =>
      rcases List.mem_cons.mp h with h | h
      · exact h ▸ List.mem_cons_self
      · exact List.mem_cons_of_mem _ (ih h)

theorem mem_of_nearest {x : Var} {c : List (Option Var)} (h : nearest c = some x) : some x ∈ c := by
  obtain ⟨y, hmem, rfl⟩ := List.exists_of_findSome?_eq_some h
  exact hmem

end Column

-- The variables of a call are no two the same, and it can write them. The one of the argument is also taken out of its
-- scope, and then the next one is seen.
structure Writable (name : String) (e : Env) : Prop where
  target_ne_index : name ≠ "OPTIND"
  target_ne_arg : name ≠ "OPTARG"
  index : ∀ v, e.get? "OPTIND" = some v → v.readOnly = false
  target : ∀ v, e.get? name = some v → v.readOnly = false
  arg : ∀ v, some v ∈ e.column "OPTARG" → v.readOnly = false

namespace Writable

variable {name n value : String} {e : Env}

theorem arg_seen (h : Writable name e) : ∀ v, e.get? "OPTARG" = some v → v.readOnly = false := by
  intro v hv
  rw [Env.get?_eq_nearest] at hv
  exact h.arg v (Column.mem_of_nearest hv)

theorem assign (h : Writable name e) : Writable name (e.assign n value) where
  target_ne_index := h.target_ne_index
  target_ne_arg := h.target_ne_arg
  index := Env.not_readOnly_assign h.index
  target := Env.not_readOnly_assign h.target
  arg := by
    intro v hv
    by_cases hn : "OPTARG" = n
    · subst hn
      rw [Env.assign, Env.column_put, if_pos rfl] at hv
      rcases Column.mem_put hv with rfl | hv
      · cases hseen : e.get? "OPTARG" with
        | none => rfl
        | some w => exact h.arg_seen w hseen
      · exact h.arg v hv
    · rw [Env.column_assign_of_ne hn] at hv
      exact h.arg v hv

theorem dismiss (h : Writable name e) : Writable name (e.dismiss "OPTARG") := by
  have hother : ∀ n, n ≠ "OPTARG" → (e.dismiss "OPTARG").get? n = e.get? n := by
    intro n hn
    rw [Env.get?_eq_nearest, Env.column_dismiss, if_neg hn, Env.get?_eq_nearest]
  refine ⟨h.target_ne_index, h.target_ne_arg, ?_, ?_, ?_⟩
  · rw [hother "OPTIND" (by decide)]
    exact h.index
  · rw [hother name h.target_ne_arg]
    exact h.target
  · intro v hv
    rw [Env.column_dismiss, if_pos rfl] at hv
    exact h.arg v (Column.mem_erase hv)

end Writable

namespace OptionLetters

-- What a call leaves in the variables.
structure Written (name : String) (index : Nat) (a : Answer) (e e' : Env) : Prop where
  option : e'.value? name = some a.option
  index : e'.value? "OPTIND" = some (toString index)
  -- without an argument the one that is seen is taken away
  arg : match a.arg with
    | some v => e'.value? "OPTARG" = some v
    | none => e'.column "OPTARG" = Column.erase (e.column "OPTARG")
  others : ∀ n, n ≠ "OPTIND" → n ≠ "OPTARG" → n ≠ name → e'.column n = e.column n
  writable : Writable name e'

-- The argument is written before the place where the next call goes on, or after it.
def Answer.writeArg (a : Answer) (e : Env) : Env :=
  match a.arg with
  | some v => e.assign "OPTARG" v
  | none => e.dismiss "OPTARG"

namespace Written

variable {name n : String} {index : Nat} {a : Answer} {e : Env}

theorem writable_writeArg (h : Writable name e) : Writable name (a.writeArg e) := by
  unfold Answer.writeArg
  split
  · exact h.assign
  · exact h.dismiss

theorem column_writeArg_of_ne (h : n ≠ "OPTARG") : (a.writeArg e).column n = e.column n := by
  unfold Answer.writeArg
  split
  · exact Env.column_assign_of_ne h
  · exact Env.column_dismiss.trans (if_neg h)

theorem arg_of_column {e₀ e' : Env} (h : e'.column "OPTARG" = (a.writeArg e₀).column "OPTARG")
    (h₀ : e₀.column "OPTARG" = e.column "OPTARG") :
    match a.arg with
    | some v => e'.value? "OPTARG" = some v
    | none => e'.column "OPTARG" = Column.erase (e.column "OPTARG") := by
  unfold Answer.writeArg at h
  cases harg : a.arg with
  | some v =>
      rw [harg] at h
      exact (Env.value?_of_column h).trans (Env.value?_assign.trans (if_pos rfl))
  | none =>
      rw [harg] at h
      rw [h, Env.column_dismiss, if_pos rfl, h₀]

theorem arg_first (h : Writable name e) (a : Answer) (index : Nat) : Written name index a e
    (((a.writeArg e).assign "OPTIND" (toString index)).assign name a.option) where
  option := by rw [Env.value?_assign, if_pos rfl]
  index := by rw [Env.value?_assign, if_neg h.target_ne_index.symm, Env.value?_assign, if_pos rfl]
  arg := by
    refine arg_of_column ?_ rfl
    rw [Env.column_assign_of_ne h.target_ne_arg.symm, Env.column_assign_of_ne (by decide)]
  others := by
    intro n hindex harg hname
    rw [Env.column_assign_of_ne hname, Env.column_assign_of_ne hindex, column_writeArg_of_ne harg]
  writable := (writable_writeArg h).assign.assign

theorem index_first (h : Writable name e) (a : Answer) (index : Nat) : Written name index a e
    ((a.writeArg (e.assign "OPTIND" (toString index))).assign name a.option) where
  option := by rw [Env.value?_assign, if_pos rfl]
  index := by
    rw [Env.value?_assign, if_neg h.target_ne_index.symm, Env.value?_of_column (column_writeArg_of_ne (by decide)),
      Env.value?_assign, if_pos rfl]
  arg := by
    refine arg_of_column (Env.column_assign_of_ne h.target_ne_arg.symm) ?_
    exact Env.column_assign_of_ne (by decide)
  others := by
    intro n hindex harg hname
    rw [Env.column_assign_of_ne hname, column_writeArg_of_ne harg, Env.column_assign_of_ne hindex]
  writable := (writable_writeArg h.assign).assign

end Written

end OptionLetters

-- The world once there was a complaint.
def State.heard (s : State) : Option String → World
  | some text => s.world.receive s.shell.streams.error (s.shell.name ++ ": " ++ text ++ "\n")
  | none => s.world

namespace OptionLetters

-- What a call leaves behind; `pos` is where the next one goes on within a word.
structure Answered (name : String) (index pos : Nat) (status : Int) (a : Answer) (s t : State) : Prop where
  shell : t.shell = { s.shell with env := t.shell.env, status := status, optionPos := pos }
  env : Written name index a s.shell.env t.shell.env
  world : t.world = s.heard a.complaint

section Turns

variable {n : String} {e e' e'' : Env}

-- From one set of variables a computation gets to another; it may complain once, and does nothing else.
def Turns (complaint : Option String) (m : Run Unit) (e e' : Env) : Prop :=
  ∀ s : State, s.shell.env = e → m s = .ok () { world := s.heard complaint, shell := { s.shell with env := e' } }

theorem Turns.bind {complaint : Option String} {m k : Run Unit} (h : Turns none m e e') (h' : Turns complaint k e' e'') :
    Turns complaint (m >>= fun _ => k) e e'' := by
  intro s hs
  rw [bind_of_ok (h s hs)]
  exact h' _ rfl

theorem Turns.after_complain {m : Run Unit} (text : String) (h : Turns none m e e') :
    Turns (some text) (complain text >>= fun _ => m) e e' := by
  intro s hs
  have hcomplain : complain text s = .ok () { s with world := s.heard (some text) } := complain_eq text s
  rw [bind_of_ok hcomplain]
  exact h _ hs

theorem turns_setVar (h : ∀ v, e.get? n = some v → v.readOnly = false) (value : String) :
    Turns none (setVar n value) e (e.assign n value) := by
  intro s hs
  subst hs
  exact setVar_eq h value

theorem turns_trySetVar (h : ∀ v, e.get? n = some v → v.readOnly = false) (value : String) :
    Turns none (trySetVar n value) e (e.assign n value) := by
  intro s hs
  subst hs
  exact trySetVar_eq h value

theorem turns_tryUnset (h : ∀ v, e.get? n = some v → v.readOnly = false) :
    Turns none (Command.tryUnset n) e (e.dismiss n) := by
  intro s hs
  subst hs
  rw [Command.tryUnset, shell_bind]
  simp only [Env.unset_eq h]
  rfl

end Turns

section Letter

variable {o : OptionLetters} {name w : String} {c : Char} {cs : List Char} {words ws : List String} {p i : Nat} {s : State}

theorem afterLetter_run (h : w.toList.drop p = cs) : Command.afterLetter w p i s =
    .ok (if cs = [] then i + 1 else i)
      { s with shell := { s.shell with optionPos := if cs = [] then 0 else p } } := by
  unfold Command.afterLetter
  have hend : p ≥ w.length ↔ cs = [] := by
    rw [← h, List.drop_eq_nil_iff, String.length_toList]
  by_cases hcs : cs = []
  · rw [if_pos (hend.mpr hcs), if_pos hcs, if_pos hcs]
    rfl
  · rw [if_neg (fun hp => hcs (hend.mp hp)), if_neg hcs, if_neg hcs]
    rfl

theorem charText_of_ascii (h : c.toNat < 0x80) : Command.charText c = String.singleton c := by
  rw [Command.charText, Text.utf8, if_pos h, String.singleton_eq_ofList]

theorem isEmpty_dropWhile_iff (letters : List Char) : (letters.dropWhile (· != c)).isEmpty = true ↔ c ∉ letters := by
  rw [List.isEmpty_iff, List.dropWhile_eq_nil_iff]
  constructor
  · intro h hmem
    simpa using h c hmem
  · intro h d hd
    simp only [bne_iff_ne]
    rintro rfl
    exact h hd

theorem known_iff : ((o.letters.dropWhile (· != c)).isEmpty || c == ':') = false ↔ o.Knows c := by
  rw [Bool.or_eq_false_iff, Bool.eq_false_iff, Ne, isEmpty_dropWhile_iff, not_not, beq_eq_false_iff_ne]
  exact And.comm

theorem takes_iff : (((o.letters.dropWhile (· != c)).drop 1).head?.any (· == ':')) = true ↔ o.TakesArg c := by
  rw [takesArg_iff, Option.any_eq_true]
  simp

section Calls

variable (hascii : c.toNat < 0x80) (hwritable : Writable name s.shell.env)

include hascii hwritable

theorem optionAt_unknown (hknows : ¬o.Knows c) (hrest : w.toList.drop p = cs) :
    ∃ t, Command.optionAt o.letters o.silent name words w c p i s = .ok () t ∧
      Answered name (if cs = [] then i + 1 else i) (if cs = [] then 0 else p) 0 (o.unknown c) s t := by
  have hunknown : ((o.letters.dropWhile (· != c)).isEmpty || c == ':') = true := by
    rw [← Bool.not_eq_false, known_iff]
    exact hknows
  unfold Command.optionAt
  rw [setStatus_bind]
  simp only [hunknown, if_true]
  rw [bind_of_ok (afterLetter_run hrest), charText_of_ascii hascii]
  generalize (if cs = [] then i + 1 else i) = index
  have hwritten := Written.arg_first hwritable (o.unknown c) index
  cases hsilent : o.silent with
  | true =>
      have hturns := (turns_trySetVar hwritable.arg_seen (String.singleton c)).bind
        ((turns_trySetVar hwritable.assign.index (toString index)).bind (turns_setVar hwritable.assign.assign.target "?"))
      refine ⟨_, hturns _ rfl, rfl, ?_, ?_⟩
      · simpa [unknown, refusal, hsilent, Answer.writeArg, State.withStatus] using hwritten
      · simp [unknown, refusal, hsilent, State.heard, State.withStatus]
  | false =>
      have hturns := ((turns_tryUnset hwritable.arg_seen).bind ((turns_trySetVar hwritable.dismiss.index (toString index)).bind
        (turns_setVar hwritable.dismiss.assign.target "?"))).after_complain ("illegal option -- " ++ String.singleton c)
      refine ⟨_, hturns _ rfl, rfl, ?_, ?_⟩
      · simpa [unknown, refusal, hsilent, Answer.writeArg, State.withStatus] using hwritten
      · simp [unknown, refusal, hsilent, State.heard, State.withStatus]

theorem optionAt_plain (hknows : o.Knows c) (hbare : ¬o.TakesArg c) (hrest : w.toList.drop p = cs) :
    ∃ t, Command.optionAt o.letters o.silent name words w c p i s = .ok () t ∧
      Answered name (if cs = [] then i + 1 else i) (if cs = [] then 0 else p) 0 { option := String.singleton c } s t := by
  have hletter : (((o.letters.dropWhile (· != c)).drop 1).head?.any (· == ':')) = false := by
    rw [Bool.eq_false_iff, Ne, takes_iff]
    exact hbare
  unfold Command.optionAt
  rw [setStatus_bind]
  simp only [known_iff.mpr hknows, hletter, Bool.false_eq_true, if_false]
  rw [bind_of_ok (afterLetter_run hrest), charText_of_ascii hascii]
  generalize (if cs = [] then i + 1 else i) = index
  have hwritten := Written.arg_first hwritable { option := String.singleton c } index
  have hturns := (turns_tryUnset hwritable.arg_seen).bind ((turns_setVar hwritable.dismiss.index (toString index)).bind
    (turns_setVar hwritable.dismiss.assign.target (String.singleton c)))
  exact ⟨_, hturns _ rfl, rfl, hwritten, rfl⟩

-- The argument is found in the word, or as the next one.
theorem optionAt_value {v : String} {j : Nat} (hknows : o.Knows c) (htakes : o.TakesArg c)
    (hvalue : (if p < w.length then some (Text.dropFront p w, i + 1) else words[i]?.map fun v => (v, i + 2)) = some (v, j)) :
    ∃ t, Command.optionAt o.letters o.silent name words w c p i s = .ok () t ∧
      Answered name j 0 0 { option := String.singleton c, arg := some v } s t := by
  have hwritten := Written.arg_first hwritable { option := String.singleton c, arg := some v } j
  have hturns := (turns_setVar hwritable.arg_seen v).bind ((turns_setVar hwritable.assign.index (toString j)).bind
    (turns_setVar hwritable.assign.assign.target (String.singleton c)))
  unfold Command.optionAt
  rw [setStatus_bind]
  simp only [known_iff.mpr hknows, takes_iff.mpr htakes, Bool.false_eq_true, if_false, if_true, hvalue]
  rw [modifyShell_bind, charText_of_ascii hascii]
  exact ⟨_, hturns _ rfl, rfl, hwritten, rfl⟩

theorem optionAt_missing (hknows : o.Knows c) (htakes : o.TakesArg c) (hrest : w.toList.drop p = [])
    (hlast : words[i]? = none) :
    ∃ t, Command.optionAt o.letters o.silent name words w c p i s = .ok () t ∧
      Answered name (i + 1) 0 0 (o.missing c) s t := by
  have hend : ¬p < w.length := by
    rw [← String.length_toList, not_lt, ← List.drop_eq_nil_iff]
    exact hrest
  have hwritten := Written.index_first hwritable (o.missing c) (i + 1)
  have hindex := turns_trySetVar hwritable.index (toString (i + 1))
  have hset : Writable name (s.shell.env.assign "OPTIND" (toString (i + 1))) := hwritable.assign
  unfold Command.optionAt
  rw [setStatus_bind]
  simp only [known_iff.mpr hknows, takes_iff.mpr htakes, if_true, Bool.false_eq_true, if_false, hend, hlast, Option.map_none]
  rw [modifyShell_bind, charText_of_ascii hascii]
  cases hsilent : o.silent with
  | true =>
      have hturns := hindex.bind ((turns_trySetVar hset.arg_seen (String.singleton c)).bind
        (turns_setVar hset.assign.target ":"))
      refine ⟨_, hturns _ rfl, rfl, ?_, ?_⟩
      · simpa [missing, refusal, hsilent, Answer.writeArg, State.withStatus] using hwritten
      · simp [missing, refusal, hsilent, State.heard, State.withStatus]
  | false =>
      have hturns := hindex.bind (((turns_tryUnset hset.arg_seen).bind (turns_setVar hset.dismiss.target "?")).after_complain
        ("option requires an argument -- " ++ String.singleton c))
      refine ⟨_, hturns _ rfl, rfl, ?_, ?_⟩
      · simpa [missing, refusal, hsilent, Answer.writeArg, State.withStatus] using hwritten
      · simp [missing, refusal, hsilent, State.heard, State.withStatus]

end Calls

-- The last call.
theorem optionsEnd_run (hwritable : Writable name s.shell.env) :
    ∃ t, Command.optionsEnd name i s = .ok () t ∧ Answered name i 0 1 { option := "?" } s t := by
  have hwritten := Written.arg_first hwritable { option := "?" } i
  have hturns := (turns_tryUnset hwritable.arg_seen).bind ((turns_setVar hwritable.dismiss.index (toString i)).bind
    (turns_setVar hwritable.dismiss.assign.target "?"))
  unfold Command.optionsEnd
  rw [modifyShell_bind, setStatus_bind]
  exact ⟨_, hturns _ rfl, rfl, hwritten, rfl⟩

end Letter

-- Where a call goes on: at a letter of the last word that is taken, or after it. A word of which no letter is read yet
-- may be taken already.
inductive Cursor : List String → List Char → Nat → Nat → Prop
  | between {taken : List String} : Cursor taken [] (taken.length + 1) 0
  | begun {taken front : List String} {w : String} {c : Char} {cs : List Char} (h : taken = front ++ [w])
      (letters : w.toList = '-' :: c :: cs) (other : w ≠ "--") : Cursor taken (c :: cs) taken.length 0
  | within {taken front : List String} {w : String} {c : Char} {cs : List Char} {p : Nat} (h : taken = front ++ [w])
      (letters : w.toList.drop (p + 1) = c :: cs) : Cursor taken (c :: cs) taken.length (p + 1)

theorem Cursor.after {taken front : List String} {w : String} {cs : List Char} {p : Nat} (h : taken = front ++ [w])
    (hletters : w.toList.drop (p + 1) = cs) :
    Cursor taken cs (if cs = [] then taken.length + 1 else taken.length) (if cs = [] then 0 else p + 1) := by
  cases cs with
  | nil => exact .between
  | cons c cs => exact .within h hletters

-- What a call needs of the state.
structure Ready (name : String) (index pos : Nat) (s : State) : Prop where
  index : s.shell.env.value? "OPTIND" = some (toString index)
  pos : s.shell.optionPos = pos
  writable : Writable name s.shell.env

-- The words that a call looks at.
def wordsOf (rest : List String) (s : State) : List String := if rest.isEmpty then s.shell.params else rest

-- Between two calls a script may do anything, as long as the words, the place where the calls go on and what they write
-- stay what they are. The next call finds a state such as `u`.
structure Resumes (name : String) (t u : State) : Prop where
  params : u.shell.params = t.shell.params
  index : u.shell.env.value? "OPTIND" = t.shell.env.value? "OPTIND"
  pos : u.shell.optionPos = t.shell.optionPos
  writable : Writable name u.shell.env

-- The calls of a script answer one after the other. The one after the last option leaves `index` for the first operand.
inductive Yields (letters name : String) (rest : List String) : List Answer → Nat → State → Prop
  | done {index : Nat} {s t : State} (run : Command.getopts (letters :: name :: rest) s = .ok () t)
      (h : Answered name index 0 1 { option := "?" } s t) : Yields letters name rest [] index s
  | next {a : Answer} {as : List Answer} {index index' pos' : Nat} {s t : State}
      (run : Command.getopts (letters :: name :: rest) s = .ok () t) (h : Answered name index' pos' 0 a s t)
      (others : ∀ u, Resumes name t u → Yields letters name rest as index u) : Yields letters name rest (a :: as) index s

theorem Resumes.ready {name : String} {index pos : Nat} {status : Int} {a : Answer} {s t u : State} (hu : Resumes name t u)
    (h : Answered name index pos status a s t) : Ready name index pos u where
  index := hu.index.trans h.env.index
  pos := hu.pos.trans (by rw [h.shell])
  writable := hu.writable

section Call

variable {letters name : String} {rest : List String} {s : State} {index pos : Nat}

theorem ofText_eq (letters : String) :
    ofText letters = ⟨Text.hasPrefix letters ":", (Text.withoutPrefix letters ":").toList⟩ := by
  have hcolon : ":".toList = [':'] := rfl
  unfold ofText Text.withoutPrefix Text.dropFront Text.hasPrefix
  rw [hcolon]
  split
  · rename_i cs hletters
    simp [hletters]
  · rename_i hletters
    have hother : [':'].isPrefixOf letters.toList = false := by
      cases hl : letters.toList with
      | nil => rfl
      | cons c cs =>
          simp only [List.isPrefixOf_cons_cons, List.isPrefixOf_nil_left, Bool.and_true, beq_eq_false_iff_ne]
          rintro rfl
          exact hletters cs hl
    simp [hother]

-- A call at a place that is known.
def callAt (o : OptionLetters) (name : String) (words : List String) (index pos : Nat) : Run Unit :=
  match words[index]? with
  | none => Command.optionsEnd name (index + 1)
  | some w =>
    if pos == 0 && w == "--" then Command.optionsEnd name (index + 2)
    else if pos == 0 && (w.length < 2 || !Text.hasPrefix w "-") then Command.optionsEnd name (index + 1)
    else
      let p := if pos == 0 then 1 else pos
      match w.toList[p]? with
      | none => throw (Signal.stopped .crash)
      | some c => do
        modifyShell fun s => { s with optionPos := p + 1 }
        Command.optionAt o.letters o.silent name words w c (p + 1) (index + 1)

-- The place that the variable names. What is no number, or none that counts a word, names the first one.
def placeOf (s : State) : Nat := (Text.int64 10 (Text.trim ((s.shell.env.value? "OPTIND").getD ""))).nearest.toNat - 1

theorem getopts_eq (letters name : String) (rest : List String) (s : State) : Command.getopts (letters :: name :: rest) s =
    callAt (ofText letters) name (wordsOf rest s) (placeOf s) s.shell.optionPos s := by
  have hindex (given : Int) : (if given < 1 then 1 else given.toNat) = given.toNat - 1 + 1 := by
    split <;> omega
  rw [Command.getopts, shell_bind]
  dsimp only
  rw [bind_of_ok (m := valueOf "OPTIND") rfl, placeOf, ofText_eq]
  generalize (Text.int64 10 (Text.trim ((s.shell.env.value? "OPTIND").getD ""))).nearest = given
  rw [hindex given, Nat.add_sub_cancel]
  rfl

theorem placeOf_toString {n : Nat} (h : s.shell.env.value? "OPTIND" = some (toString (n + 1)))
    (hbound : n + 1 ≤ 9223372036854775807) : placeOf s = n := by
  rw [placeOf, h, Option.getD_some, Text.int64_toString hbound]
  rfl

variable {o : OptionLetters} {words front ws : List String} {w : String} {c : Char} {cs : List Char}

theorem callAt_finished : callAt o name words words.length pos = Command.optionsEnd name (words.length + 1) := by
  rw [callAt, List.getElem?_eq_none le_rfl]

theorem callAt_separator : callAt o name (front ++ "--" :: ws) front.length 0 =
    Command.optionsEnd name (front.length + 2) := by
  rw [callAt, List.getElem?_append_right le_rfl, Nat.sub_self, List.getElem?_cons_zero]
  rfl

theorem callAt_operand (h : ∀ c cs, w.toList ≠ '-' :: c :: cs) : callAt o name (front ++ w :: ws) front.length 0 =
    Command.optionsEnd name (front.length + 1) := by
  have hseparator : w ≠ "--" := by
    rintro rfl
    exact h '-' [] rfl
  have hoperand : (w.length < 2 || !Text.hasPrefix w "-") = true := by
    have hdash : "-".toList = ['-'] := rfl
    rw [← String.length_toList, Text.hasPrefix, hdash]
    match hw : w.toList with
    | [] => rfl
    | [d] => rfl
    | d :: c :: cs =>
        have hd : d ≠ '-' := by
          rintro rfl
          exact h c cs hw
        simp [List.isPrefixOf, Ne.symm hd]
  have hnot : ¬((0 == 0 && w == "--") = true) := by simp [hseparator]
  rw [callAt, List.getElem?_append_right le_rfl, Nat.sub_self, List.getElem?_cons_zero]
  dsimp only
  rw [if_neg hnot, hoperand]
  rfl

theorem drop_succ_of_drop {p : Nat} (h : w.toList.drop p = c :: cs) : w.toList.drop (p + 1) = cs := by
  rw [← List.drop_drop, h, List.drop_succ_cons, List.drop_zero]

-- A letter is read at its place in the word, the first one after the dash.
theorem callAt_letter (o : OptionLetters) (name : String) (ws : List String) (s : State) {taken : List String} {i : Nat}
    (h : Cursor taken (c :: cs) i pos) (hi : i = index + 1) :
    ∃ w p, w ∈ taken ∧ w.toList.drop p = c :: cs ∧
      Cursor taken cs (if cs = [] then i + 1 else i) (if cs = [] then 0 else p + 1) ∧
      callAt o name (taken ++ ws) index pos s =
        Command.optionAt o.letters o.silent name (taken ++ ws) w c (p + 1) i
          { s with shell := { s.shell with optionPos := p + 1 } } := by
  -- the word is the last one that is taken
  have hword : ∀ front w, taken = front ++ [w] → taken.length = index + 1 → (taken ++ ws)[index]? = some w := by
    intro front w htaken hlength
    have hfront : front.length = index := by
      rw [htaken, List.length_append] at hlength
      exact Nat.succ.inj hlength
    rw [htaken, List.append_assoc, List.getElem?_append_right hfront.le, hfront, Nat.sub_self]
    rfl
  have hletter : ∀ (w : String) (p : Nat), w.toList.drop p = c :: cs → w.toList[p]? = some c := by
    intro w p hdrop
    rw [← List.head?_drop, hdrop, List.head?_cons]
  cases h with
  | @begun front w _ _ htaken hletters hother =>
      have hdrop : w.toList.drop 1 = c :: cs := by rw [hletters, List.drop_succ_cons, List.drop_zero]
      have hafter := Cursor.after htaken (drop_succ_of_drop hdrop)
      refine ⟨w, 1, htaken ▸ List.mem_append_right _ List.mem_cons_self, hdrop, hafter, ?_⟩
      have hprefix : Text.hasPrefix w "-" = true := by
        rw [Text.hasPrefix, hletters]
        rfl
      have hlength : ¬w.length < 2 := by
        rw [← String.length_toList, hletters]
        simp
      rw [callAt, hword front w htaken hi, hi]
      simp [hother, hprefix, hlength, hletter w 1 hdrop]
      rfl
  | @within front w _ _ p htaken hletters =>
      have hafter := Cursor.after htaken (drop_succ_of_drop hletters)
      refine ⟨w, p + 1, htaken ▸ List.mem_append_right _ List.mem_cons_self, hletters, hafter, ?_⟩
      rw [callAt, hword front w htaken hi, hi]
      simp [hletter w (p + 1) hletters]
      rfl

theorem Cursor.index_eq {taken : List String} {cs : List Char} (h : Cursor taken cs index pos) :
    ∃ i, index = i + 1 ∧ index ≤ taken.length + 1 := by
  cases h with
  | between => exact ⟨_, rfl, le_rfl⟩
  | begun htaken | within htaken =>
      refine ⟨_, by rw [htaken, List.length_append]; rfl, Nat.le_succ _⟩

-- The words are no more than can be counted, and made of ASCII characters.
structure Proper (words : List String) : Prop where
  length : words.length < 9223372036854775807
  ascii : ∀ w ∈ words, ∀ c ∈ w.toList, c.toNat < 0x80

-- A call at a letter does what is done at that letter.
theorem getopts_letter {taken : List String} (hcursor : Cursor taken (c :: cs) index pos) (hready : Ready name index pos s)
    (hwords : wordsOf rest s = taken ++ ws) (hproper : Proper (taken ++ ws)) :
    ∃ w p, w.toList.drop p = c :: cs ∧ c.toNat < 0x80 ∧ index = taken.length ∧
      Cursor taken cs (if cs = [] then index + 1 else index) (if cs = [] then 0 else p + 1) ∧
      ∀ index' pos' a, (∀ u : State, Writable name u.shell.env → ∃ t,
          Command.optionAt (ofText letters).letters (ofText letters).silent name (taken ++ ws) w c (p + 1) index u = .ok () t ∧
          Answered name index' pos' 0 a u t) →
        ∃ t, Command.getopts (letters :: name :: rest) s = .ok () t ∧ Answered name index' pos' 0 a s t := by
  obtain ⟨i, hi, hle⟩ := hcursor.index_eq
  have hindex : index = taken.length := by cases hcursor <;> rfl
  obtain ⟨w, p, hmem, hdrop, hafter, hcall⟩ := callAt_letter (ofText letters) name ws s hcursor hi
  have hlength := hproper.length
  rw [List.length_append] at hlength
  have hletter : c ∈ w.toList.drop p := by
    rw [hdrop]
    exact List.mem_cons_self
  have hascii := hproper.ascii w (List.mem_append_left ws hmem) c (List.mem_of_mem_drop hletter)
  refine ⟨w, p, hdrop, hascii, hindex, hafter, ?_⟩
  intro index' pos' a hat
  obtain ⟨t, hrun, hanswered⟩ := hat { s with shell := { s.shell with optionPos := p + 1 } } hready.writable
  refine ⟨t, ?_, ⟨hanswered.shell, hanswered.env, hanswered.world⟩⟩
  rw [getopts_eq, placeOf_toString (hi ▸ hready.index) (by omega), hready.pos, hwords, hcall, hrun]

-- After the words that are taken, the next one is looked at.
theorem getopts_word {taken : List String} (hcursor : Cursor taken [] index pos)
    (hready : Ready name index pos s) (hwords : wordsOf rest s = taken ++ ws) (hproper : Proper (taken ++ ws)) :
    Command.getopts (letters :: name :: rest) s = callAt (ofText letters) name (taken ++ ws) taken.length 0 s := by
  have hlength := hproper.length
  rw [List.length_append] at hlength
  cases hcursor with
  | between => rw [getopts_eq, placeOf_toString hready.index (by omega), hready.pos, hwords]

theorem yields_end {i : Nat} (hready : Ready name index pos s)
    (hend : Command.getopts (letters :: name :: rest) s = Command.optionsEnd name i s) : Yields letters name rest [] i s := by
  obtain ⟨t, hrun, hanswered⟩ := optionsEnd_run (i := i) hready.writable
  exact .done (hend.trans hrun) hanswered

theorem yields_next {a : Answer} {as : List Answer} {i : Nat} (hwords : wordsOf rest s = words)
    (hrun : ∃ t, Command.getopts (letters :: name :: rest) s = .ok () t ∧ Answered name index pos 0 a s t)
    (hothers : ∀ u, Ready name index pos u → wordsOf rest u = words → Yields letters name rest as i u) :
    Yields letters name rest (a :: as) i s := by
  obtain ⟨t, hrun, hanswered⟩ := hrun
  refine .next hrun hanswered fun u hu => hothers u (hu.ready hanswered) ?_
  rw [← hwords, wordsOf, wordsOf, hu.params, hanswered.shell]

-- Wherever the calls are among the words, they answer with the options that are left.
theorem Enumerates.yields {as : List Answer} {n : Nat} (h : (ofText letters).Enumerates cs ws as n) {taken : List String}
    (hcursor : Cursor taken cs index pos) (hready : Ready name index pos s) (hwords : wordsOf rest s = taken ++ ws)
    (hproper : Proper (taken ++ ws)) : Yields letters name rest as (taken.length + 1 + n) s := by
  induction h generalizing taken index pos s with
  | finished =>
      refine yields_end hready ?_
      rw [getopts_word hcursor hready hwords hproper, List.append_nil, callAt_finished]
  | separator =>
      refine yields_end hready ?_
      rw [getopts_word hcursor hready hwords hproper, callAt_separator]
  | operand hoperand =>
      refine yields_end hready ?_
      rw [getopts_word hcursor hready hwords hproper, callAt_operand hoperand]
  | @word w c cs ws as n hw hother hrest ih =>
      have hbegun : Cursor (taken ++ [w]) (c :: cs) (taken ++ [w]).length 0 := .begun rfl hw hother
      have hready' : Ready name (taken ++ [w]).length 0 s := by
        rw [List.length_append]
        cases hcursor with
        | between => exact hready
      rw [List.append_cons] at hwords hproper
      have hyields := ih hbegun hready' hwords hproper
      rwa [List.length_append, List.length_singleton, Nat.add_right_comm _ 1 n, Nat.add_assoc _ n 1] at hyields
  | unknown hknows hrest ih =>
      obtain ⟨w, p, hdrop, hascii, -, hafter, hcall⟩ := getopts_letter hcursor hready hwords hproper
      have hrun := hcall _ _ _ fun u hu => optionAt_unknown hascii hu hknows (drop_succ_of_drop hdrop)
      exact yields_next hwords hrun fun u hu hwords => ih hafter hu hwords hproper
  | plain hknows hbare hrest ih =>
      obtain ⟨w, p, hdrop, hascii, -, hafter, hcall⟩ := getopts_letter hcursor hready hwords hproper
      have hrun := hcall _ _ _ fun u hu => optionAt_plain hascii hu hknows hbare (drop_succ_of_drop hdrop)
      exact yields_next hwords hrun fun u hu hwords => ih hafter hu hwords hproper
  | @attached c d cs ws as n hknows htakes hrest ih =>
      obtain ⟨w, p, hdrop, hascii, rfl, -, hcall⟩ := getopts_letter hcursor hready hwords hproper
      have hvalue := drop_succ_of_drop hdrop
      have hmore : p + 1 < w.length := by
        rw [← String.length_toList, ← not_le, ← List.drop_eq_nil_iff, hvalue]
        exact List.cons_ne_nil d cs
      have hrun := hcall _ _ _ fun u hu => optionAt_value (j := taken.length + 1) (v := String.ofList (d :: cs))
        hascii hu hknows htakes (by rw [if_pos hmore, Text.dropFront, hvalue])
      exact yields_next hwords hrun fun u hu hwords => ih .between hu hwords hproper
  | @detached c v ws as n hknows htakes hrest ih =>
      obtain ⟨w, p, hdrop, hascii, rfl, -, hcall⟩ := getopts_letter hcursor hready hwords hproper
      have hnomore : ¬p + 1 < w.length := by
        rw [← String.length_toList, not_lt, ← List.drop_eq_nil_iff]
        exact drop_succ_of_drop hdrop
      have hnext : (taken ++ v :: ws)[taken.length]? = some v := by
        rw [List.getElem?_append_right le_rfl, Nat.sub_self, List.getElem?_cons_zero]
      have hrun := hcall _ _ _ fun u hu => optionAt_value (j := taken.length + 2) (v := v)
        hascii hu hknows htakes (by rw [if_neg hnomore, hnext]; rfl)
      rw [List.append_cons] at hwords hproper
      refine yields_next hwords hrun fun u hu hwords => ?_
      have hbetween : Cursor (taken ++ [v]) [] (taken.length + 2) 0 := by
        have hlength : (taken ++ [v]).length = taken.length + 1 := List.length_append
        have hcursor : Cursor (taken ++ [v]) [] ((taken ++ [v]).length + 1) 0 := .between
        rwa [hlength] at hcursor
      have hyields := ih hbetween hu hwords hproper
      rwa [List.length_append, List.length_singleton, Nat.add_right_comm _ 1 n, Nat.add_assoc _ n 1] at hyields
  | missing hknows htakes hrest ih =>
      obtain ⟨w, p, hdrop, hascii, rfl, -, hcall⟩ := getopts_letter hcursor hready hwords hproper
      have hlast : (taken ++ [])[taken.length]? = none := by
        rw [List.append_nil, List.getElem?_eq_none le_rfl]
      have hrun := hcall _ _ _ fun u hu => optionAt_missing hascii hu hknows htakes (drop_succ_of_drop hdrop) hlast
      exact yields_next hwords hrun fun u hu hwords => ih .between hu hwords hproper

-- However options, their arguments and operands are mixed, and whatever is done in between: the calls answer with the
-- options of the words, each in its turn, and then say that there are no more, at the word after all that were taken.
theorem getopts_enumerates (letters name : String) (rest : List String) (s : State) (hready : Ready name 1 0 s)
    (hproper : Proper (wordsOf rest s)) :
    ∃ as n, (ofText letters).Enumerates [] (wordsOf rest s) as n ∧
      (∀ as' n', (ofText letters).Enumerates [] (wordsOf rest s) as' n' → as' = as ∧ n' = n) ∧
      Yields letters name rest as (1 + n) s := by
  obtain ⟨as, n, hoptions⟩ := exists_enumerates (ofText letters) (wordsOf rest s) []
  have hcursor : Cursor [] [] 1 0 := .between
  have hyields := hoptions.yields hcursor hready rfl hproper
  rw [List.length_nil, Nat.zero_add] at hyields
  exact ⟨as, n, hoptions, fun as' n' h => h.unique hoptions, hyields⟩

theorem getopts_enumerates_clusters :
    let words := ["-ca", "-bvalue", "-cb", "next", "-z:", "--", "-a"]
    let s : State := { shell := { env := { scope := [("OPTIND", { value := "1" })] }, params := words } }
    Yields ":ab:c" "o" []
      [{ option := "c" }, { option := "a" }, { option := "b", arg := some "value" }, { option := "c" },
        { option := "b", arg := some "next" }, { option := "?", arg := some "z" }, { option := "?", arg := some ":" }] 7 s := by
  intro words s
  have hready : Ready "o" 1 0 s := by
    refine ⟨rfl, rfl, by decide, by decide, ?_, ?_, ?_⟩
    · intro v hv
      obtain rfl : _ = v := Option.some.inj hv
      rfl
    · intro v hv
      cases hv
    · intro v hv
      have hcolumn : s.shell.env.column "OPTARG" = [none] := rfl
      simp [hcolumn] at hv
  have hascii : (words.all fun w => w.toList.all fun c => decide (c.toNat < 0x80)) = true := by decide
  have hproper : Proper (wordsOf [] s) := by
    refine ⟨by decide, fun w hw c hc => ?_⟩
    exact of_decide_eq_true (List.all_eq_true.mp (List.all_eq_true.mp hascii w hw) c hc)
  obtain ⟨as, n, -, hunique, hyields⟩ := getopts_enumerates ":ab:c" "o" [] s hready hproper
  have hoptions : (ofText ":ab:c").Enumerates [] words _ _ :=
    .word rfl (by decide) <| .plain (by decide) (by decide) <| .plain (by decide) (by decide) <|
    .word rfl (by decide) <| .attached (by decide) (by decide) <|
    .word rfl (by decide) <| .plain (by decide) (by decide) <| .detached (by decide) (by decide) <|
    .word rfl (by decide) <| .unknown (by decide) <| .unknown (by decide) .separator
  obtain ⟨rfl, rfl⟩ := hunique _ _ hoptions
  exact hyields

end Call

end OptionLetters
end Machine
end ShellScript

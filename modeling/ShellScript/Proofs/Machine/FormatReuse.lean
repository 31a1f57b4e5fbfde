import Mathlib.Tactic.Choose
import ShellScript.Machine.Command.Output

-- A format is used again while it takes arguments. What one use makes of its arguments does not depend on what was there
-- before, and a use that finds too few takes empty ones in their place.
namespace ShellScript
namespace Machine
namespace Printing

-- What is written, last first, and the complaints.
structure Effect where
  out : List String := []
  errors : List String := []

def Effect.andThen (e e' : Effect) : Effect := ⟨e'.out ++ e.out, e.errors ++ e'.errors⟩

-- An effect after which `k` arguments less are left, as far as there are any.
def after (p : Printing) (k : Nat) (e : Effect) : Printing :=
  { p with out := e.out ++ p.out, args := p.args.drop k, used := p.used + min k p.args.length,
           errors := p.errors ++ e.errors }

-- The next `k` arguments, empty ones where there are no more.
def supply (k : Nat) (args : List String) : List String := (List.range k).map fun i => args.getD i ""

theorem args_after (p : Printing) (k : Nat) (e : Effect) : (p.after k e).args = p.args.drop k := rfl

section Supplies

variable {k j : Nat} {args : List String}

theorem length_supply : (supply k args).length = k := by simp [supply]

theorem supply_add : supply (k + j) args = supply k args ++ supply j (args.drop k) := by
  simp [supply, List.range_add, Function.comp_def]

theorem take_supply : (supply (k + j) args).take k = supply k args := by
  rw [supply_add, List.take_left' length_supply]

theorem drop_supply : (supply (k + j) args).drop k = supply j (args.drop k) := by
  rw [supply_add, List.drop_left' length_supply]

theorem supply_length_add : supply (args.length + k) args = args ++ List.replicate k "" := by
  have hall : supply args.length args = args := by
    refine List.ext_getElem length_supply fun i hi hi' => ?_
    simp [supply, hi']
  have hnone : supply k [] = List.replicate k "" := by
    refine List.ext_getElem (by simp [supply]) fun i hi hi' => ?_
    simp [supply]
  rw [supply_add, hall, List.drop_length, hnone]

theorem supply_length : supply args.length args = args := by
  have h : supply (args.length + 0) args = _ := supply_length_add
  rwa [Nat.add_zero, List.replicate_zero, List.append_nil] at h

theorem supply_supply : supply k (supply k args) = supply k args := by
  have h : supply (supply k args).length (supply k args) = _ := supply_length
  rwa [length_supply] at h

theorem after_zero (p : Printing) : p.after 0 {} = p := by simp [after]

theorem after_after (p : Printing) (k j : Nat) (e e' : Effect) : (p.after k e).after j e' = p.after (k + j) (e.andThen e') := by
  simp only [after, Effect.andThen, List.append_assoc, List.drop_drop, List.length_drop, Printing.mk.injEq, true_and, and_true]
  omega

end Supplies

-- What is done takes `k` arguments, and its result and its effect depend on nothing else.
def Takes {α : Type} (k : Nat) (act : Printing → α × Printing) : Prop :=
  ∃ f : List String → α × Effect, ∀ p, act p = ((f (supply k p.args)).1, p.after k (f (supply k p.args)).2)

-- What a format asks an argument for: a width or a precision, or the value of a conversion.
inductive Slot where
  | star
  | value (verb : Char)
deriving DecidableEq, Repr

-- Only an argument of `%b` puts an end to the output: one with a `\c` in it.
def Slot.stops : Slot → String → Bool
  | .value 'b', arg => (Escapes.resolve true arg).2
  | _, _ => false

def halts (slots : List Slot) (args : List String) : Bool := (slots.zip args).any fun (slot, arg) => slot.stops arg

-- What is done takes an argument for each slot, and goes on unless one of them stops it; without slots it never goes on.
def Goes (slots : Option (List Slot)) (act : Printing → Printing × Bool) : Prop :=
  match slots with
  | none => ∀ p, (act p).2 = false
  | some slots => ∃ f : List String → Effect, ∀ p,
      if halts slots (supply slots.length p.args) then (act p).2 = false
      else act p = (p.after slots.length (f (supply slots.length p.args)), true)

theorem halts_append {slots slots' : List Slot} {args args' : List String} (h : slots.length = args.length) :
    halts (slots ++ slots') (args ++ args') = (halts slots args || halts slots' args') := by
  rw [halts, List.zip_append h, List.any_append]
  rfl

theorem halts_stars (k : Nat) (args : List String) : halts (List.replicate k .star) args = false := by
  rw [halts, List.any_eq_false]
  rintro ⟨slot, arg⟩ hmem
  rw [List.eq_of_mem_replicate (List.of_mem_zip hmem).1]
  exact Bool.false_ne_true

section Rules

variable {α β : Type} {k j : Nat} {act : Printing → α × Printing} {act' : α → Printing → β × Printing}

theorem Takes.congr {act' : Printing → α × Printing} (h : Takes k act) (heq : ∀ p, act' p = act p) : Takes k act' :=
  funext heq ▸ h

theorem takes_pure (a : α) : Takes 0 fun p => (a, p) :=
  ⟨fun _ => (a, {}), fun p => by rw [after_zero]⟩

theorem Takes.bind (h : Takes k act) (h' : ∀ a, Takes j (act' a)) : Takes (k + j) fun p => act' (act p).1 (act p).2 := by
  obtain ⟨f, hf⟩ := h
  choose g hg using h'
  refine ⟨fun args =>
    let r := f (args.take k)
    let r' := g r.1 (args.drop k)
    (r'.1, r.2.andThen r'.2), fun p => ?_⟩
  simp only [hf, hg, take_supply, drop_supply, args_after, after_after]

theorem Takes.map (h : Takes k act) (f : α → β) : Takes k fun p => (f (act p).1, (act p).2) :=
  h.bind fun a => takes_pure (f a)

theorem takes_next : Takes 1 next := by
  refine ⟨fun args => (args.headD "", {}), fun p => ?_⟩
  obtain ⟨out, args, used, errors, failed⟩ := p
  cases args <;> simp [next, after, supply]

theorem takes_complain (a : α) (s : String) : Takes 0 fun p => (a, p.complain s) :=
  ⟨fun _ => (a, { errors := [s] }), fun p => by simp [complain, after]⟩

theorem takes_integer (a : String) : Takes 0 fun p => p.integer a := by
  unfold integer
  split
  · exact takes_pure _
  · dsimp only
    split
    · exact takes_pure _
    split
    · exact takes_pure _
    · split
      · exact takes_pure _
      · exact takes_complain _ _
    · exact takes_complain _ _

theorem takes_float (a : String) : Takes 0 fun p => p.float a := by
  unfold float
  split
  · exact takes_pure _
  · dsimp only
    split
    · exact takes_pure _
    split
    · split
      · exact takes_complain _ _
      · exact takes_pure _
    · exact takes_complain _ _

-- A width or a precision that is an argument.
def starOf (a : String) (p : Printing) : String × Printing :=
  match Text.int64 10 (Text.trim a) with
  | .ok n => (toString n, p)
  | .tooLarge n => (toString n, p.complain (a ++ ": invalid number"))
  | .malformed => ("0", if a.isEmpty then p else p.complain (a ++ ": invalid number"))

theorem star_eq (p : Printing) : p.star = starOf p.next.1 p.next.2 := by
  unfold star starOf
  cases h : Text.int64 10 (Text.trim p.next.1) <;> simp only [h]

theorem takes_starOf (a : String) : Takes 0 (starOf a) := by
  unfold starOf
  split
  · exact takes_pure _
  · exact takes_complain _ _
  · split
    · exact takes_pure _
    · exact takes_complain _ _

theorem takes_star : Takes 1 star := (takes_next.bind takes_starOf).congr star_eq

theorem Goes.congr {slots : Option (List Slot)} {act act' : Printing → Printing × Bool} (h : Goes slots act)
    (heq : ∀ p, act' p = act p) : Goes slots act' :=
  funext heq ▸ h

theorem goes_add (s : String) : Goes (some []) fun p => (p.add s, true) :=
  ⟨fun _ => { out := [s] }, fun p => by simp [add, after, halts]⟩

theorem goes_pure : Goes (some []) fun p => (p, true) :=
  ⟨fun _ => {}, fun p => by simp [after_zero, halts]⟩

-- Stars in front of something: their arguments never stop it.
theorem Takes.goes {slots : Option (List Slot)} (h : Takes k act) {act' : α → Printing → Printing × Bool}
    (h' : ∀ a, Goes slots (act' a)) :
    Goes (slots.map (List.replicate k .star ++ ·)) fun p => act' (act p).1 (act p).2 := by
  cases slots with
  | none => exact fun p => h' (act p).1 (act p).2
  | some slots =>
      obtain ⟨f, hf⟩ := h
      choose g hg using h'
      refine ⟨fun args =>
        let r := f (args.take k)
        r.2.andThen (g r.1 (args.drop k)), fun p => ?_⟩
      have hnext := hg (f (supply k p.args)).1 (p.after k (f (supply k p.args)).2)
      rw [args_after] at hnext
      have hhalts : halts (List.replicate k .star ++ slots) (supply (k + slots.length) p.args) =
          halts slots (supply slots.length (p.args.drop k)) := by
        rw [supply_add, halts_append (by rw [List.length_replicate, length_supply]), halts_stars, Bool.false_or]
      simp only [hf, List.length_append, List.length_replicate, take_supply, drop_supply, hhalts]
      split
      · next hstop => rwa [if_pos hstop] at hnext
      · next hgo =>
        rw [if_neg hgo] at hnext
        rw [hnext, after_after]

theorem goes_written (h : Takes 0 act) (write : α → String) :
    Goes (some []) fun p => ((act p).2.add (write (act p).1), true) :=
  h.goes fun a => goes_add (write a)

-- The argument of a conversion decides whether the output goes on after it.
theorem goes_value {verb : Char} {act : String → Printing → Printing × Bool}
    (h : ∀ arg, Goes (if (Slot.value verb).stops arg then none else some []) (act arg)) :
    Goes (some [.value verb]) fun p => act p.next.1 p.next.2 := by
  have hgo (arg : String) : ∃ e : Effect, (Slot.value verb).stops arg = false → ∀ p, act arg p = (p.after 0 e, true) := by
    have hact := h arg
    cases hstop : (Slot.value verb).stops arg with
    | true => exact ⟨{}, fun hgo => nomatch hgo⟩
    | false =>
        rw [hstop] at hact
        obtain ⟨f, hf⟩ := hact
        exact ⟨f [], fun _ p => hf p⟩
  choose e he using hgo
  obtain ⟨f, hf⟩ := takes_next
  have hfirst (p : Printing) : (f (supply 1 p.args)).1 = p.args.headD "" := by
    have hnext : p.next.1 = p.args.headD "" := by
      cases hargs : p.args with
      | nil => rw [next, hargs]; rfl
      | cons a args => rw [next, hargs]; rfl
    rw [← hnext, hf]
  refine ⟨fun args => (f args).2.andThen (e (f args).1), fun p => ?_⟩
  have hhalts : halts [.value verb] (supply 1 p.args) = (Slot.value verb).stops (p.args.headD "") := by
    cases hargs : p.args <;> simp [halts, supply]
  dsimp only
  rw [List.length_singleton, hhalts, hf, hfirst]
  cases hstop : (Slot.value verb).stops (p.args.headD "") with
  | true =>
      have hact := h (p.args.headD "")
      rw [hstop] at hact
      exact hact _
  | false => rw [he _ hstop, after_after]; rfl

theorem goes_value_of {verb : Char} {act : Printing → Printing × Bool} {next' : String → Printing → Printing × Bool}
    (hact : ∀ p arg q, p.next = (arg, q) → act p = next' arg q)
    (h : ∀ arg, Goes (if (Slot.value verb).stops arg then none else some []) (next' arg)) : Goes (some [.value verb]) act :=
  (goes_value h).congr fun p => hact p _ _ rfl

theorem Goes.andThen {slots slots' : Option (List Slot)} {act act' : Printing → Printing × Bool} (h : Goes slots act)
    (h' : Goes slots' act') :
    Goes (do return (← slots) ++ (← slots')) fun p => if (act p).2 then act' (act p).1 else ((act p).1, false) := by
  cases slots with
  | none =>
      intro p
      dsimp only
      rw [if_neg (by rw [h p]; exact Bool.false_ne_true)]
  | some slots =>
      cases slots' with
      | none =>
          intro p
          dsimp only
          split
          · exact h' _
          · rfl
      | some slots' =>
          obtain ⟨f, hf⟩ := h
          obtain ⟨g, hg⟩ := h'
          refine ⟨fun args => (f (args.take slots.length)).andThen (g (args.drop slots.length)), fun p => ?_⟩
          have hfirst := hf p
          have hhalts : halts (slots ++ slots') (supply (slots.length + slots'.length) p.args) =
              (halts slots (supply slots.length p.args) || halts slots' (supply slots'.length (p.args.drop slots.length))) := by
            rw [supply_add, halts_append length_supply.symm]
          simp only [List.length_append, take_supply, drop_supply, hhalts]
          by_cases hstop : halts slots (supply slots.length p.args)
          · rw [if_pos hstop] at hfirst
            simp only [hfirst, hstop, Bool.true_or, Bool.false_eq_true, if_true, if_false]
          · rw [if_neg hstop] at hfirst
            have hnext := hg (p.after slots.length (f (supply slots.length p.args)))
            rw [args_after] at hnext
            simp only [hfirst, hstop, Bool.false_or, if_true]
            split
            · next hstop' => rwa [if_pos hstop'] at hnext
            · next hgo =>
              rw [if_neg hgo] at hnext
              rw [hnext, after_after]

end Rules

-- What a width or a precision takes, and what follows it.
def numberTakes : List Char → Nat × List Char
  | '*' :: cs => (1, cs)
  | cs => (0, cs.drop (cs.takeWhile Text.isDigit).length)

def precisionTakes : List Char → Nat × List Char
  | '.' :: cs => numberTakes cs
  | cs => (0, cs)

-- What a conversion takes in front of its letter, and its letter with what follows.
def letterOf (cs : List Char) : Nat × List Char :=
  let flags := cs.takeWhile ("-+ #0'".toList.contains ·)
  let width := numberTakes (cs.drop flags.length)
  let prec := precisionTakes width.2
  (width.1 + prec.1, prec.2.dropWhile ("hlLjzt".toList.contains ·))

-- The letters that a conversion may have.
def isVerb (c : Char) : Bool := "sqbcdiuoxXeEfFgG".toList.contains c

-- What a format asks of its arguments when it is used once. Nothing, if it puts an end to the output itself: with a `\c`, or
-- with a conversion that has no letter or an unknown one. What follows an escape or a conversion is shorter than `n`.
def slotsIn : Nat → List Char → Option (List Slot)
  | 0, _ => some []
  | _ + 1, [] => some []
  | n + 1, c :: cs =>
    if c == '\\' then
      match Escapes.decode false cs with
      | none => none
      | some (_, rest) => slotsIn n rest
    else if c == '%' then
      match cs with
      | '%' :: rest => slotsIn n rest
      | _ =>
        match letterOf cs with
        | (_, []) => none
        | (k, verb :: rest) =>
          if isVerb verb then (slotsIn n rest).map (List.replicate k .star ++ .value verb :: ·) else none
    else slotsIn n cs

def slots? (format : String) : Option (List Slot) := slotsIn (format.length + 1) format.toList

-- How many arguments a format takes when it is used once: one for each conversion, and one for each star in it.
def argsTaken (format : String) : Nat := ((slots? format).getD []).length

-- Whether the output goes on after one use of the format for some arguments.
def goesOn (format : String) (args : List String) : Bool :=
  match slots? format with
  | none => false
  | some slots => !halts slots args

section Conversions

theorem number_eq (cs : List Char) :
    ∃ act, Takes (numberTakes cs).1 act ∧ ∀ p, number p cs = ((act p).1, (act p).2, (numberTakes cs).2) := by
  unfold numberTakes
  split
  · next cs =>
    refine ⟨star, takes_star, fun p => ?_⟩
    unfold number
    dsimp only
    generalize star p = r
    rfl
  · next hcs =>
    refine ⟨fun p => (String.ofList (cs.takeWhile Text.isDigit), p), takes_pure _, fun p => ?_⟩
    unfold number
    split
    · next cs => exact (hcs cs rfl).elim
    · rfl

theorem goes_convert (spec : String) (verb : Char) :
    Goes (if isVerb verb then some [.value verb] else none) fun p => p.convert spec verb := by
  by_cases hverb : isVerb verb
  · rw [if_pos hverb]
    apply goes_value_of
    · intro p arg q hnext
      unfold convert
      rw [hnext]
    intro arg
    dsimp only
    generalize hslots : (if (Slot.value verb).stops arg then none else some []) = slots
    split
    all_goals subst hslots
    · exact goes_add _
    · exact goes_add _
    · change Goes (if (Escapes.resolve true arg).2 then none else some []) _
      generalize Escapes.resolve true arg = r
      obtain ⟨text, stop⟩ := r
      cases stop with
      | true => exact fun _ => rfl
      | false => exact goes_add _
    · change Goes (some []) _
      split
      · exact goes_add _
      · exact goes_pure
    · exact goes_written (takes_integer arg) fun n => FormatSpec.format (spec ++ "d") (.int n)
    · exact goes_written (takes_integer arg) fun n => FormatSpec.format (spec ++ "d") (.int n)
    · exact goes_written (takes_integer arg) fun n => FormatSpec.format (spec ++ "d") (.nat (asNat n))
    · exact goes_written (takes_integer arg) fun n => FormatSpec.format (spec.push 'o') (.nat (asNat n))
    · exact goes_written (takes_integer arg) fun n => FormatSpec.format (spec.push 'x') (.nat (asNat n))
    · exact goes_written (takes_integer arg) fun n => FormatSpec.format (spec.push 'X') (.nat (asNat n))
    · exact goes_written (takes_float arg) fun x => FormatSpec.format (spec.push 'e') (.float x)
    · exact goes_written (takes_float arg) fun x => FormatSpec.format (spec.push 'E') (.float x)
    · exact goes_written (takes_float arg) fun x => FormatSpec.format (spec.push 'f') (.float x)
    · exact goes_written (takes_float arg) fun x => FormatSpec.format (spec.push 'g') (.float x)
    · exact goes_written (takes_float arg) fun x => FormatSpec.format (spec.push 'G') (.float x)
    · exact goes_written (takes_float arg) fun x => FormatSpec.format (spec ++ "f") (.float x)
    · simp_all [isVerb]
  · rw [if_neg hverb]
    intro p
    unfold convert
    dsimp only
    split
    case h_17 => rfl
    all_goals exact absurd rfl hverb

-- What is read of a conversion does not depend on the arguments.
theorem directive_eq {cs : List Char} (hpercent : ∀ rest, cs ≠ '%' :: rest) :
    ∃ spec, Takes (letterOf cs).1 spec ∧ ∀ p,
      ((letterOf cs).2 = [] → (p.directive cs).2 = none) ∧
        ∀ verb rest, (letterOf cs).2 = verb :: rest →
          p.directive cs =
            (((spec p).2.convert (spec p).1 verb).1, if ((spec p).2.convert (spec p).1 verb).2 then some rest else none) := by
  generalize hflags : cs.takeWhile ("-+ #0'".toList.contains ·) = flags
  obtain ⟨width, hwidth, hwidth'⟩ := number_eq (cs.drop flags.length)
  generalize hrest : (numberTakes (cs.drop flags.length)).2 = rest at hwidth'
  have hletter : letterOf cs = ((numberTakes (cs.drop flags.length)).1 + (precisionTakes rest).1,
      (precisionTakes rest).2.dropWhile ("hlLjzt".toList.contains ·)) := by
    rw [← hrest, ← hflags]
    rfl
  rw [hletter]
  generalize hmodifier : (fun c => "hlLjzt".toList.contains c) = isModifier
  by_cases hdot : ∃ more, rest = '.' :: more
  · obtain ⟨more, rfl⟩ := hdot
    obtain ⟨prec, hprec, hprec'⟩ := number_eq more
    refine ⟨_, hwidth.bind fun w => hprec.map fun n =>
      String.ofList (flags.filter (· != '\'')) ++ w ++ ("." ++ n), fun p => ?_⟩
    unfold directive
    split
    · next rest => exact absurd rfl (hpercent rest)
    · simp only [hflags, hmodifier, hwidth', hprec', precisionTakes]
      refine ⟨fun hend => ?_, fun verb rest hverb => ?_⟩
      · simp only [hend]
      · simp only [hverb]
  · have hplain : precisionTakes rest = (0, rest) := by
      unfold precisionTakes
      split
      · next more => exact absurd ⟨more, rfl⟩ hdot
      · rfl
    rw [hplain]
    refine ⟨_, hwidth.map fun w => String.ofList (flags.filter (· != '\'')) ++ w ++ "", fun p => ?_⟩
    unfold directive
    split
    · next rest => exact absurd rfl (hpercent rest)
    · simp only [hflags, hmodifier, hwidth']
      rcases rest with _ | ⟨c, more⟩
      · exact ⟨fun _ => rfl, fun verb rest hverb => absurd hverb.symm (List.cons_ne_nil verb rest)⟩
      · have hc : c ≠ '.' := by
          rintro rfl
          exact hdot ⟨more, rfl⟩
        refine ⟨fun hend => ?_, fun verb rest hverb => ?_⟩
        · simp [hc, hend]
        · simp [hc, hverb]

theorem goes_directive {cs rest : List Char} {k : Nat} {verb : Char} (hpercent : ∀ rest, cs ≠ '%' :: rest)
    (h : letterOf cs = (k, verb :: rest)) :
    ∃ act, Goes (if isVerb verb then some (List.replicate k .star ++ [.value verb]) else none) act ∧
      ∀ p, p.directive cs = ((act p).1, if (act p).2 then some rest else none) := by
  obtain ⟨spec, hspec, heq⟩ := directive_eq hpercent
  rw [h] at hspec heq
  refine ⟨_, ?_, fun p => (heq p).2 verb rest rfl⟩
  have hgoes := hspec.goes fun w => goes_convert w verb
  by_cases hverb : isVerb verb
  · rw [if_pos hverb] at hgoes ⊢
    exact hgoes
  · rw [if_neg hverb] at hgoes ⊢
    exact hgoes

end Conversions

-- A use of the format takes an argument for each of its slots, and goes on unless one of them or the format itself stops it.
theorem goes_pass (n : Nat) (cs : List Char) : Goes (slotsIn n cs) fun p => pass n p cs := by
  induction n generalizing cs with
  | zero => exact goes_pure
  | succ n ih =>
      rcases cs with _ | ⟨c, cs⟩
      · exact goes_pure
      -- what is written takes no argument, so the slots are those of the rest
      have hrest (s : String) (rest : List Char) : Goes (slotsIn n rest) fun p => pass n (p.add s) rest := by
        have hboth := (goes_add s).andThen (ih rest)
        cases hslots : slotsIn n rest with
        | none => rw [hslots] at hboth; exact hboth
        | some slots => rw [hslots] at hboth; exact hboth
      by_cases hescape : c = '\\'
      · subst hescape
        cases hdecode : Escapes.decode false cs with
        | none =>
            have hread : slotsIn (n + 1) ('\\' :: cs) = none := by simp [slotsIn, hdecode]
            rw [hread]
            intro p
            simp [pass, hdecode]
        | some r =>
            have hread : slotsIn (n + 1) ('\\' :: cs) = slotsIn n r.2 := by simp [slotsIn, hdecode]
            rw [hread]
            exact (hrest (String.ofList r.1) r.2).congr fun p => by simp [pass, hdecode]
      by_cases hpercent : c = '%'
      · subst hpercent
        by_cases hdouble : ∃ rest, cs = '%' :: rest
        · obtain ⟨rest, rfl⟩ := hdouble
          have hread : slotsIn (n + 1) ('%' :: '%' :: rest) = slotsIn n rest := by simp [slotsIn]
          rw [hread]
          exact (hrest "%" rest).congr fun p => by simp [pass, directive]
        · have hletter (rest : List Char) : cs ≠ '%' :: rest := fun h => hdouble ⟨rest, h⟩
          obtain ⟨k, letter, hsplit⟩ : ∃ k letter, letterOf cs = (k, letter) := ⟨_, _, rfl⟩
          rcases letter with _ | ⟨verb, rest⟩
          · have hread : slotsIn (n + 1) ('%' :: cs) = none := by simp [slotsIn, hsplit]
            rw [hread]
            intro p
            obtain ⟨spec, -, hdirective⟩ := directive_eq hletter
            have hnone : p.directive cs = ((p.directive cs).1, none) := Prod.ext rfl ((hdirective p).1 (by rw [hsplit]))
            dsimp only
            rw [pass, hnone]
            rfl
          · obtain ⟨act, hact, hdirective⟩ := goes_directive hletter hsplit
            have hread : slotsIn (n + 1) ('%' :: cs) =
                if isVerb verb then (slotsIn n rest).map (List.replicate k .star ++ .value verb :: ·) else none := by
              simp [slotsIn, hsplit]
            have hboth := hact.andThen (ih rest)
            have hpass (p : Printing) : pass (n + 1) p ('%' :: cs) =
                if (act p).2 then pass n (act p).1 rest else ((act p).1, false) := by
              rw [pass, hdirective]
              cases (act p).2 <;> rfl
            rw [hread]
            refine Goes.congr ?_ hpass
            by_cases hverb : isVerb verb
            · rw [if_pos hverb] at hboth ⊢
              cases hslots : slotsIn n rest with
              | none => rw [hslots] at hboth; exact hboth
              | some slots =>
                  rw [hslots] at hboth
                  simpa using hboth
            · rw [if_neg hverb] at hboth ⊢
              exact hboth
      · have hread : slotsIn (n + 1) (c :: cs) = slotsIn n cs := by simp [slotsIn, hescape, hpercent]
        rw [hread]
        exact (hrest (String.singleton c) cs).congr fun p => by simp [pass, hescape, hpercent]

section Lengths

theorem length_numeric (value? : Char → Option Nat) (base width : Nat) (bytes : Bool) (lead cs : List Char) :
    (Escapes.numeric value? base width bytes lead cs).2.length ≤ cs.length := by
  unfold Escapes.numeric
  dsimp only
  split
  · rw [List.length_drop]
    exact Nat.sub_le _ _
  · split
    · rw [List.length_drop]
      exact Nat.sub_le _ _
    · rw [List.length_drop]
      exact Nat.sub_le _ _

theorem length_decode {echo : Bool} {cs : List Char} {r : List Char × List Char} (h : Escapes.decode echo cs = some r) :
    r.2.length ≤ cs.length := by
  rcases cs with _ | ⟨c, cs⟩
  · cases h
    exact Nat.le_refl 0
  have hnumeric (value? : Char → Option Nat) (base width : Nat) (bytes : Bool) (lead : List Char) :=
    Nat.le_trans (length_numeric value? base width bytes lead cs) (Nat.le_succ cs.length)
  have hdigits (value? : Char → Option Nat) (base width : Nat) (bytes : Bool) (lead : List Char) :=
    length_numeric value? base width bytes lead (c :: cs)
  unfold Escapes.decode at h
  dsimp only at h
  repeat' split at h
  all_goals cases h
  all_goals first
    | exact Nat.le_succ cs.length
    | exact hnumeric _ _ _ _ _
    | exact hdigits _ _ _ _ _

-- What stands behind the letter of a conversion is shorter than the conversion.
theorem length_letterOf (cs : List Char) : (letterOf cs).2.length ≤ cs.length := by
  have hnumber (cs : List Char) : (numberTakes cs).2.length ≤ cs.length := by
    unfold numberTakes
    split
    · simp
    · simp
  have hprec (cs : List Char) : (precisionTakes cs).2.length ≤ cs.length := by
    unfold precisionTakes
    split
    · next cs =>
      have h := hnumber cs
      rw [List.length_cons]
      omega
    · exact Nat.le_refl _
  unfold letterOf
  dsimp only
  refine Nat.le_trans (List.dropWhile_suffix _).length_le (Nat.le_trans (hprec _) (Nat.le_trans (hnumber _) ?_))
  rw [List.length_drop]
  exact Nat.sub_le _ _

theorem length_directive {p q : Printing} {cs rest : List Char} (h : p.directive cs = (q, some rest)) :
    rest.length ≤ cs.length := by
  by_cases hdouble : ∃ more, cs = '%' :: more
  · obtain ⟨more, rfl⟩ := hdouble
    cases h
    simp
  · have hpercent (more : List Char) : cs ≠ '%' :: more := fun h => hdouble ⟨more, h⟩
    obtain ⟨spec, -, hdirective⟩ := directive_eq hpercent
    obtain ⟨hend, hletter⟩ := hdirective p
    have hlength := length_letterOf cs
    cases hsplit : (letterOf cs).2 with
    | nil =>
        have hnone := hend hsplit
        rw [h] at hnone
        cases hnone
    | cons verb more =>
        have hread := hletter verb more hsplit
        rw [h] at hread
        rw [hsplit, List.length_cons] at hlength
        split at hread
        · cases hread
          omega
        · cases hread

-- No pass ends before the format does because it has no turns left.
theorem pass_turns {n m : Nat} {p : Printing} {cs : List Char} (hn : cs.length < n) (hm : cs.length < m) :
    pass n p cs = pass m p cs := by
  induction n generalizing m p cs with
  | zero => omega
  | succ n ih =>
      obtain ⟨m, rfl⟩ : ∃ k, m = k + 1 := ⟨m - 1, by omega⟩
      cases cs with
      | nil => rfl
      | cons c cs =>
          rw [List.length_cons] at hn hm
          unfold pass
          split
          · cases hdecode : Escapes.decode false cs with
            | none => rfl
            | some r =>
                have hlength := length_decode hdecode
                exact ih (by omega) (by omega)
          split
          · cases hdirective : p.directive cs with
            | mk q rest =>
                cases rest with
                | none => rfl
                | some rest =>
                    have hlength := length_directive hdirective
                    exact ih (by omega) (by omega)
          · exact ih (by omega) (by omega)

end Lengths

-- One use of the format for all of its characters, and whether output goes on after it.
def Uses (format : String) (p q : Printing) (goOn : Bool) : Prop :=
  ∀ n, format.length < n → pass n p format.toList = (q, goOn)

-- What one use of the format makes of some arguments.
def once (format : String) (args : List String) : Printing := (pass (format.length + 1) { args } format.toList).1

-- The format is used until the output stops, no arguments are left, or none has been taken. Counts the uses.
inductive Loop (format : String) : Nat → Printing → Printing → Bool → Prop
  | last {p q : Printing} {goOn : Bool} (huse : Uses format p q goOn)
      (hend : goOn = false ∨ q.args = [] ∨ q.args.length = p.args.length) : Loop format 1 p q goOn
  | again {p q r : Printing} {goOn : Bool} {n : Nat} (huse : Uses format p q true) (hleft : q.args ≠ [])
      (htaken : q.args.length ≠ p.args.length) (hrest : Loop format n q r goOn) : Loop format (n + 1) p r goOn

-- How often a format that takes `k` arguments is used.
def useCount (k : Nat) (args : List String) : Nat :=
  if k = 0 ∨ args = [] then 1 else (args.length + k - 1) / k

-- The arguments of each use.
def blocks (k : Nat) (args : List String) : List (List String) :=
  (List.range (useCount k args)).map fun i => supply k (args.drop (i * k))

section Blocks

variable {k : Nat} {args : List String}

theorem useCount_of_le (h : k = 0 ∨ args.length ≤ k) : useCount k args = 1 := by
  unfold useCount
  split
  · rfl
  · next hne =>
    obtain ⟨hk, hargs⟩ := not_or.mp hne
    have hpos : 0 < args.length := List.length_pos_iff.mpr hargs
    have hle : args.length ≤ k := h.resolve_left hk
    exact Nat.div_eq_of_lt_le (by omega) (by omega)

theorem useCount_of_lt (hk : 0 < k) (h : k < args.length) : useCount k args = useCount k (args.drop k) + 1 := by
  have hargs : args ≠ [] := by
    rintro rfl
    exact absurd h (Nat.not_lt_zero k)
  have hdrop : args.drop k ≠ [] := by
    rw [Ne, List.drop_eq_nil_iff]
    omega
  have hsum : args.length + k - 1 = args.length - k + k - 1 + k := by omega
  rw [useCount, if_neg (by simp [Nat.ne_of_gt hk, hargs]), useCount, if_neg (by simp [Nat.ne_of_gt hk, hdrop]), List.length_drop, hsum,
    Nat.add_div_right _ hk]

theorem blocks_of_le (h : k = 0 ∨ args.length ≤ k) : blocks k args = [supply k args] := by
  rw [blocks, useCount_of_le h]
  simp

theorem blocks_of_lt (hk : 0 < k) (h : k < args.length) : blocks k args = supply k args :: blocks k (args.drop k) := by
  rw [blocks, useCount_of_lt hk h, List.range_succ_eq_map]
  simp [blocks, Function.comp_def, Nat.succ_mul, Nat.add_comm]

theorem supply_mem_blocks (k : Nat) (args : List String) : supply k args ∈ blocks k args := by
  by_cases h : k = 0 ∨ args.length ≤ k
  · rw [blocks_of_le h]
    exact List.mem_singleton_self _
  · rw [blocks_of_lt (by omega) (by omega)]
    exact List.mem_cons_self

theorem flatten_supplies (m : Nat) :
    ((List.range m).map fun i => supply k (args.drop (i * k))).flatten = supply (m * k) args := by
  induction m with
  | zero => simp [supply]
  | succ m ih => rw [List.range_succ, List.map_append, List.flatten_append, ih, Nat.succ_mul, supply_add]; simp

end Blocks

section Loops

variable {format : String} {n : Nat} {p q : Printing} {goOn : Bool}

theorem uses_pass (format : String) (p : Printing) :
    Uses format p (pass (format.length + 1) p format.toList).1 (pass (format.length + 1) p format.toList).2 := by
  intro n hn
  rw [← String.length_toList] at hn
  exact pass_turns hn (by rw [← String.length_toList]; exact Nat.lt_succ_self _)

-- Whether the output goes on after a use is seen from the format and from the arguments that the use takes, and so is what
-- it makes of any state.
theorem pass_eq (format : String) : ∃ f : List String → Effect, ∀ p : Printing,
    if goesOn format (supply (argsTaken format) p.args) then
      pass (format.length + 1) p format.toList =
        (p.after (argsTaken format) (f (supply (argsTaken format) p.args)), true)
    else (pass (format.length + 1) p format.toList).2 = false := by
  have hgoes : Goes (slots? format) fun p => pass (format.length + 1) p format.toList := goes_pass _ _
  unfold goesOn argsTaken
  cases hslots : slots? format with
  | none =>
      rw [hslots] at hgoes
      exact ⟨fun _ => {}, fun p => hgoes p⟩
  | some slots =>
      rw [hslots] at hgoes
      obtain ⟨f, hf⟩ := hgoes
      refine ⟨f, fun p => ?_⟩
      have hact := hf p
      dsimp only [Option.getD_some] at hact ⊢
      by_cases hhalts : halts slots (supply slots.length p.args)
      · rw [if_pos hhalts] at hact
        rwa [if_neg (by rw [hhalts]; exact Bool.false_ne_true)]
      · rw [if_neg hhalts] at hact
        rwa [if_pos (by rw [Bool.not_eq_true] at hhalts; rw [hhalts]; rfl)]

theorem Uses.goOn_eq (h : Uses format p q goOn) : goOn = goesOn format (supply (argsTaken format) p.args) := by
  obtain ⟨f, hf⟩ := pass_eq format
  have hact := hf p
  rw [h _ (Nat.lt_succ_self _)] at hact
  split at hact
  · next hgo => rw [hgo, (Prod.mk.inj hact).2]
  · next hstop =>
    rw [Bool.not_eq_true] at hstop
    rw [hstop]
    exact hact

-- A use that goes on makes of any state what it makes of the arguments that it takes.
theorem Uses.eq_after (h : Uses format p q true) :
    ∃ e, q = p.after (argsTaken format) e ∧
      Uses format { args := supply (argsTaken format) p.args }
        (after { args := supply (argsTaken format) p.args } (argsTaken format) e) true := by
  obtain ⟨f, hf⟩ := pass_eq format
  have hfirst := hf p
  have halone := hf { args := supply (argsTaken format) p.args }
  dsimp only at halone
  rw [supply_supply] at halone
  rw [if_pos h.goOn_eq.symm] at hfirst halone
  have hq : q = p.after (argsTaken format) _ := congrArg Prod.fst ((h _ (Nat.lt_succ_self _)).symm.trans hfirst)
  refine ⟨_, hq, ?_⟩
  have hpass := uses_pass format { args := supply (argsTaken format) p.args }
  rwa [halone] at hpass

theorem once_eq {args : List String} (h : Uses format { args } q goOn) : once format args = q :=
  congrArg Prod.fst (h (format.length + 1) (Nat.lt_succ_self _))

-- Uses on some blocks of arguments, one after the other. Each takes all of its block, and what it writes and complains of
-- is what it would without the others.
structure Reuses (format : String) (bs : List (List String)) (p q : Printing) : Prop where
  alone : ∀ b ∈ bs, b.length = argsTaken format ∧ Uses format { args := b } (once format b) true ∧
    (once format b).args = [] ∧ (once format b).used = argsTaken format
  text : q.text = p.text ++ String.join (bs.map fun b => (once format b).text)
  errors : q.errors = p.errors ++ bs.flatMap fun b => (once format b).errors
  failed : q.failed = p.failed

theorem text_after (p : Printing) (k : Nat) (e : Effect) : (p.after k e).text = p.text ++ String.join e.out.reverse := by
  simp [text, after, String.join_append]

theorem Uses.reuses (h : Uses format p q true) : Reuses format [supply (argsTaken format) p.args] p q := by
  obtain ⟨e, rfl, halone⟩ := h.eq_after
  have honce := once_eq halone
  refine ⟨?_, ?_, ?_, rfl⟩
  · intro b hb
    obtain rfl := List.mem_singleton.mp hb
    rw [honce]
    refine ⟨length_supply, halone, ?_, ?_⟩
    · simp [after, length_supply]
    · simp [after, length_supply]
  · rw [List.map_singleton, honce, text_after, text_after]
    simp [text]
  · rw [List.flatMap_singleton, honce]
    simp [after]

theorem Reuses.trans {bs bs' : List (List String)} {r : Printing} (h : Reuses format bs p q) (h' : Reuses format bs' q r) :
    Reuses format (bs ++ bs') p r := by
  refine ⟨?_, ?_, ?_, h'.failed.trans h.failed⟩
  · intro b hb
    rcases List.mem_append.mp hb with hb | hb
    · exact h.alone b hb
    · exact h'.alone b hb
  · rw [h'.text, h.text, List.map_append, String.join_append, String.append_assoc]
  · rw [h'.errors, h.errors, List.flatMap_append, List.append_assoc]

-- A loop that nothing stops uses up the arguments block by block.
theorem Loop.reuses (h : Loop format n p q true) :
    n = (blocks (argsTaken format) p.args).length ∧ Reuses format (blocks (argsTaken format) p.args) p q ∧
      (0 < argsTaken format → q.args = [] ∧ q.used = p.used + p.args.length) := by
  generalize hgo : true = goOn at h
  induction h with
  | @last p q goOn huse hend =>
      subst hgo
      have hreuses := huse.reuses
      obtain ⟨e, rfl, -⟩ := huse.eq_after
      rw [args_after, List.drop_eq_nil_iff, List.length_drop] at hend
      have hle : argsTaken format = 0 ∨ p.args.length ≤ argsTaken format := by
        rcases hend with hend | hend | hend
        · cases hend
        · exact .inr hend
        · omega
      rw [blocks_of_le hle]
      refine ⟨rfl, hreuses, fun hk => ?_⟩
      have hle : p.args.length ≤ argsTaken format := hle.resolve_left (Nat.ne_of_gt hk)
      exact ⟨List.drop_eq_nil_of_le hle, congrArg (p.used + ·) (Nat.min_eq_right hle)⟩
  | @again p q r goOn n huse hleft htaken hrest ih =>
      obtain ⟨hn, hreuses, hall⟩ := ih hgo
      have hfirst := huse.reuses
      obtain ⟨e, rfl, -⟩ := huse.eq_after
      rw [args_after, Ne, List.drop_eq_nil_iff] at hleft
      rw [args_after, List.length_drop] at htaken
      have hk : 0 < argsTaken format := by omega
      have hlt : argsTaken format < p.args.length := by omega
      rw [args_after] at hn hreuses
      rw [blocks_of_lt hk hlt, List.length_cons, ← hn]
      refine ⟨rfl, hfirst.trans hreuses, fun _ => ?_⟩
      obtain ⟨hempty, hused⟩ := hall hk
      refine ⟨hempty, ?_⟩
      rw [hused, args_after, List.length_drop]
      simp only [after]
      omega

-- Nothing stops the loop as long as the output goes on after the use for each block.
theorem Loop.goOn_iff (h : Loop format n p q goOn) :
    goOn = true ↔ ∀ b ∈ blocks (argsTaken format) p.args, goesOn format b = true := by
  refine ⟨?_, fun hall => ?_⟩
  · rintro rfl b hb
    obtain ⟨hlength, huse, -⟩ := h.reuses.2.1.alone b hb
    have hgo : true = goesOn format (supply (argsTaken format) b) := huse.goOn_eq
    rw [hgo, ← hlength, supply_length]
  · induction h with
    | last huse => exact huse.goOn_eq.trans (hall _ (supply_mem_blocks _ _))
    | @again p q r goOn n huse hleft htaken hrest ih =>
        refine ih fun b hb => hall b ?_
        obtain ⟨e, rfl, -⟩ := huse.eq_after
        rw [args_after, Ne, List.drop_eq_nil_iff] at hleft
        rw [args_after, List.length_drop] at htaken
        rw [blocks_of_lt (by omega) (by omega)]
        exact List.mem_cons_of_mem _ hb

-- The loop ends: each use but the last takes some argument.
theorem exists_loop {m : Nat} (hm : p.args.length < m) : ∃ n goOn, Loop format n p (passes format m p) goOn := by
  induction m generalizing p with
  | zero => exact absurd hm (Nat.not_lt_zero _)
  | succ m ih =>
      have huse := uses_pass format p
      rw [passes]
      generalize pass (format.length + 1) p format.toList = r at huse
      obtain ⟨q, goOn⟩ := r
      change Uses format p q goOn at huse
      cases goOn with
      | false => exact ⟨1, false, .last huse (.inl rfl)⟩
      | true =>
          by_cases hempty : q.args = []
          · refine ⟨1, true, ?_⟩
            simpa [hempty] using Loop.last huse (.inr (.inl hempty))
          obtain ⟨e, hq, -⟩ := huse.eq_after
          have hlength : q.args.length = p.args.length - argsTaken format := by
            rw [hq, args_after, List.length_drop]
          have hused : q.used = p.used + min (argsTaken format) p.args.length := by rw [hq]; rfl
          have hpos : 0 < q.args.length := List.length_pos_iff.mpr hempty
          by_cases hsame : q.used = p.used
          · refine ⟨1, true, ?_⟩
            have hend : q.args.length = p.args.length := by omega
            simpa [hsame] using Loop.last huse (.inr (.inr hend))
          · obtain ⟨n, goOn, hrest⟩ := ih (p := q) (by omega)
            refine ⟨n + 1, goOn, ?_⟩
            simpa [hempty, hsame] using Loop.again huse hempty (by omega) hrest

end Loops

theorem mul_useCount {k : Nat} {args : List String} (hk : 0 < k) :
    args.length ≤ useCount k args * k ∧ (args ≠ [] → useCount k args * k < args.length + k) := by
  unfold useCount
  by_cases hargs : args = []
  · subst hargs
    simp
  · rw [if_neg (by simp [Nat.ne_of_gt hk, hargs])]
    have hdiv := Nat.div_add_mod (args.length + k - 1) k
    have hmod := Nat.mod_lt (args.length + k - 1) hk
    rw [Nat.mul_comm] at hdiv
    have hpos : 0 < args.length := List.length_pos_iff.mpr hargs
    exact ⟨by omega, fun _ => by omega⟩

-- A format is used on one block of its arguments after the other, the last of them filled up with empty ones, unless the
-- format or the argument of a `%b` puts an end to the output.
theorem run_reuses_format (format : String) (args : List String) :
    ∃ n goOn, Loop format n { args } (run format args) goOn ∧
      (goOn = true ↔ ∀ b ∈ blocks (argsTaken format) args, goesOn format b = true) ∧ (goOn = true →
      n = (blocks (argsTaken format) args).length ∧ (argsTaken format = 0 ∨ args = [] → n = 1) ∧
      (0 < argsTaken format →
        (blocks (argsTaken format) args).flatten = args ++ List.replicate (n * argsTaken format - args.length) "" ∧
        (args ≠ [] → n * argsTaken format - args.length < argsTaken format) ∧
        (run format args).args = [] ∧ (run format args).used = args.length) ∧
      (∀ b ∈ blocks (argsTaken format) args, b.length = argsTaken format ∧
        Uses format { args := b } (once format b) true ∧ (once format b).args = [] ∧
        (once format b).used = argsTaken format) ∧
      Command.printf ("--" :: format :: args) = (do
        let uses := (blocks (argsTaken format) args).map (once format)
        Command.complainAll ((uses.flatMap (·.errors)).map ("printf: " ++ ·))
        Run.setStatus (if (uses.flatMap (·.errors)).isEmpty then 0 else 1)
        Run.print (String.join (uses.map (·.text))))) := by
  obtain ⟨n, goOn, hloop⟩ : ∃ n goOn, Loop format n { args } (run format args) goOn :=
    exists_loop (Nat.lt_succ_self args.length)
  refine ⟨n, goOn, hloop, hloop.goOn_iff, ?_⟩
  rintro rfl
  obtain ⟨hn, hreuses, hall⟩ := hloop.reuses
  change n = (blocks (argsTaken format) args).length at hn
  change Reuses format (blocks (argsTaken format) args) _ _ at hreuses
  change 0 < argsTaken format → (run format args).args = [] ∧ (run format args).used = 0 + args.length at hall
  have hcount : n = useCount (argsTaken format) args := by rw [hn, blocks, List.length_map, List.length_range]
  refine ⟨hn, ?_, ?_, hreuses.alone, ?_⟩
  · intro hnone
    rw [hcount, useCount, if_pos hnone]
  · intro hk
    obtain ⟨hempty, hused⟩ := hall hk
    obtain ⟨hlow, hhigh⟩ : args.length ≤ useCount (argsTaken format) args * argsTaken format ∧ _ := mul_useCount hk
    rw [← hcount] at hlow hhigh
    have hfill : useCount (argsTaken format) args * argsTaken format =
        args.length + (n * argsTaken format - args.length) := by
      rw [← hcount]
      omega
    refine ⟨?_, ?_, hempty, hused.trans (Nat.zero_add _)⟩
    · rw [blocks, flatten_supplies, hfill, supply_length_add]
    · intro hargs
      have hlast := hhigh hargs
      generalize n * argsTaken format = total at hlow hlast
      omega
  · have htext := hreuses.text
    have herrors := hreuses.errors
    have hfailed : (run format args).failed = false := hreuses.failed
    rw [show text { args } = "" from rfl, String.empty_append] at htext
    rw [List.nil_append] at herrors
    have hprintf : Command.printf ("--" :: format :: args) = (do
        Command.complainAll ((run format args).errors.map ("printf: " ++ ·))
        Run.setStatus (if (run format args).failed || !(run format args).errors.isEmpty then 1 else 0)
        Run.print (run format args).text) := rfl
    rw [hprintf, htext, herrors, hfailed]
    simp only [List.flatMap_map, List.map_map]
    cases ((blocks (argsTaken format) args).flatMap fun b => (once format b).errors).isEmpty <;> rfl

theorem run_reuses_format_thrice :
    (∀ b ∈ blocks (argsTaken "%b:%*d\\n") ["x", "3", "7", "y", "2", "5", "z"], goesOn "%b:%*d\\n" b = true) ∧
      blocks (argsTaken "%b:%*d\\n") ["x", "3", "7", "y", "2", "5", "z"] =
        [["x", "3", "7"], ["y", "2", "5"], ["z", "", ""]] ∧
      Loop "%b:%*d\\n" 3 { args := ["x", "3", "7", "y", "2", "5", "z"] }
        (run "%b:%*d\\n" ["x", "3", "7", "y", "2", "5", "z"]) true ∧
      Command.printf ("--" :: "%b:%*d\\n" :: ["x", "3", "7", "y", "2", "5", "z"]) = (do
        Command.complainAll []
        Run.setStatus 0
        Run.print "x:  7\ny: 5\nz:0\n") := by
  have hblocks : blocks (argsTaken "%b:%*d\\n") ["x", "3", "7", "y", "2", "5", "z"] =
      [["x", "3", "7"], ["y", "2", "5"], ["z", "", ""]] := by decide +kernel
  have hgo : ∀ b ∈ [["x", "3", "7"], ["y", "2", "5"], ["z", "", ""]], goesOn "%b:%*d\\n" b = true := by decide +kernel
  have hwritten : (([["x", "3", "7"], ["y", "2", "5"], ["z", "", ""]].map (once "%b:%*d\\n")).flatMap (·.errors) = []) ∧
      String.join (([["x", "3", "7"], ["y", "2", "5"], ["z", "", ""]].map (once "%b:%*d\\n")).map (·.text)) =
        "x:  7\ny: 5\nz:0\n" := by decide +kernel
  obtain ⟨n, goOn, hloop, hiff, hall⟩ := run_reuses_format "%b:%*d\\n" ["x", "3", "7", "y", "2", "5", "z"]
  rw [hblocks] at hiff hall
  obtain rfl := hiff.mpr hgo
  obtain ⟨hn, -, -, -, hprintf⟩ := hall rfl
  obtain rfl : n = 3 := hn
  dsimp only at hprintf
  rw [hwritten.1, hwritten.2] at hprintf
  exact ⟨by rwa [hblocks], hblocks, hloop, hprintf⟩

-- A `\c` in the argument of a `%b` ends the output, and so does an unknown conversion; in the argument of `%s` it is text.
example : goesOn "%b%s" ["a\\c", ""] = false ∧ goesOn "%b%s" ["a", "\\c"] = true ∧ goesOn "%k" [""] = false := by decide

end Printing
end Machine
end ShellScript

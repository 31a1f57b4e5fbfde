import Mathlib.Data.List.Chain
import ShellScript.Proofs.Machine.Plain

-- Which bodies a `case` runs, and in which order. The engine for the statements inside is any one, so that bodies and
-- orders are told apart by what they leave behind.
namespace ShellScript
namespace Machine

open Program (Word Stmt CaseArm)
open Run

abbrev Outcome := EStateM.Result Signal State Unit

section Patterns

variable (E : Engine) (text : String)

-- The patterns are expanded from left to right, each in the state that the one before it left, and none matches.
inductive Misses : List Word → State → State → Prop
  | nil {s : State} : Misses [] s s
  | cons {w : Word} {ws : List Word} {s t u : State} {pat : String} (expanded : patternOf E w s = .ok pat t)
      (other : (Pattern.read pat).matches_ text = false) (rest : Misses ws t u) : Misses (w :: ws) s u

-- The last of the patterns matches, and none before it.
def Hits (ws : List Word) (s t : State) : Prop :=
  ∃ front w u pat, ws = front ++ [w] ∧ Misses E text front s u ∧ patternOf E w u = .ok pat t ∧
    (Pattern.read pat).matches_ text = true

-- The last of the patterns cannot be expanded, and none before it matches.
def Breaks (ws : List Word) (s : State) (e : Signal) (t : State) : Prop :=
  ∃ front w u, ws = front ++ [w] ∧ Misses E text front s u ∧ patternOf E w u = .error e t

variable {E text} {ws vs : List Word} {s t u : State} {e : Signal}

theorem Misses.append (h : Misses E text ws s t) (h' : Misses E text vs t u) : Misses E text (ws ++ vs) s u := by
  induction h with
  | nil => exact h'
  | cons expanded other _ ih => exact .cons expanded other (ih h')

theorem Misses.of_append (h : Misses E text (ws ++ vs) s u) : ∃ t, Misses E text ws s t ∧ Misses E text vs t u := by
  induction ws generalizing s with
  | nil => exact ⟨s, .nil, h⟩
  | cons w ws ih =>
      obtain _ | ⟨expanded, other, rest⟩ := h
      obtain ⟨t, hws, hvs⟩ := ih rest
      exact ⟨t, .cons expanded other hws, hvs⟩

theorem Misses.matchesAny_append (h : Misses E text ws s t) (vs : List Word) :
    matchesAny E text (ws ++ vs) s = matchesAny E text vs t := by
  induction h with
  | nil => rfl
  | cons expanded other _ ih =>
      rw [List.cons_append, matchesAny, bind_of_ok expanded, other, if_neg Bool.false_ne_true]
      exact ih

theorem Misses.matchesAny_eq (h : Misses E text ws s t) : matchesAny E text ws s = .ok false t := by
  have hall := h.matchesAny_append []
  rwa [List.append_nil] at hall

theorem Hits.matchesAny_eq (h : Hits E text ws s t) (vs : List Word) : matchesAny E text (ws ++ vs) s = .ok true t := by
  obtain ⟨front, w, u, pat, rfl, hmisses, hpat, hmatch⟩ := h
  rw [List.append_assoc, hmisses.matchesAny_append, List.singleton_append, matchesAny, bind_of_ok hpat, hmatch,
    if_pos rfl]
  rfl

theorem Breaks.matchesAny_eq (h : Breaks E text ws s e t) (vs : List Word) :
    matchesAny E text (ws ++ vs) s = .error e t := by
  obtain ⟨front, w, u, rfl, hmisses, hpat⟩ := h
  rw [List.append_assoc, hmisses.matchesAny_append, List.singleton_append, matchesAny, bind_of_error hpat]

-- What expanding patterns comes to.
theorem misses_or (E : Engine) (text : String) (ws : List Word) (s : State) :
    (∃ t, Misses E text ws s t) ∨ (∃ tried rest t, ws = tried ++ rest ∧ Hits E text tried s t) ∨
      ∃ tried rest e t, ws = tried ++ rest ∧ Breaks E text tried s e t := by
  induction ws generalizing s with
  | nil => exact .inl ⟨s, .nil⟩
  | cons w ws ih =>
      cases hpat : patternOf E w s with
      | error e t => exact .inr (.inr ⟨[w], ws, e, t, rfl, [], w, s, rfl, .nil, hpat⟩)
      | ok pat t =>
          cases hmatch : (Pattern.read pat).matches_ text with
          | true => exact .inr (.inl ⟨[w], ws, t, rfl, [], w, s, pat, rfl, .nil, hpat, hmatch⟩)
          | false =>
              rcases ih t with ⟨u, hmisses⟩ | ⟨_, rest, u, rfl, front, v, x, p, rfl, hmisses, hlast⟩ |
                ⟨_, rest, e, u, rfl, front, v, x, rfl, hmisses, hlast⟩
              · exact .inl ⟨u, .cons hpat hmatch hmisses⟩
              · exact .inr (.inl ⟨_, rest, u, rfl, w :: front, v, x, p, rfl, .cons hpat hmatch hmisses, hlast⟩)
              · exact .inr (.inr ⟨_, rest, e, u, rfl, w :: front, v, x, rfl, .cons hpat hmatch hmisses, hlast⟩)

end Patterns

section Arms

variable (E : Engine) (text : String)

def patternsOf (arms : List CaseArm) : List Word := arms.flatMap (·.patterns)

-- The first of the arms that has a pattern which matches, counted from `i` on.
def firstArm (i : Nat) : List CaseArm → Run (Option Nat)
  | [] => return none
  | arm :: rest => do
    if ← matchesAny E text arm.patterns then return some i else firstArm (i + 1) rest

variable {E text} {arms passed rest : List CaseArm} {arm : CaseArm} {tried untried : List Word} {s t u : State}
  {e : Signal} {i : Nat}

theorem Misses.firstArm_append (h : Misses E text (patternsOf passed) s t) (i : Nat) (rest : List CaseArm) :
    firstArm E text i (passed ++ rest) s = firstArm E text (i + passed.length) rest t := by
  induction passed generalizing s i with
  | nil => cases h; rfl
  | cons arm passed ih =>
      obtain ⟨u, hfirst, hrest⟩ := h.of_append
      rw [List.cons_append, firstArm, bind_of_ok hfirst.matchesAny_eq, if_neg Bool.false_ne_true, ih hrest,
        List.length_cons, Nat.add_right_comm, Nat.add_assoc]

theorem Misses.firstArm_eq (h : Misses E text (patternsOf arms) s t) (i : Nat) :
    firstArm E text i arms s = .ok none t := by
  have hall := h.firstArm_append i []
  rwa [List.append_nil] at hall

theorem Hits.firstArm_eq (h : Hits E text tried u t) (hpassed : Misses E text (patternsOf passed) s u)
    (harm : arm.patterns = tried ++ untried) (i : Nat) (rest : List CaseArm) :
    firstArm E text i (passed ++ arm :: rest) s = .ok (some (i + passed.length)) t := by
  have hmatches := h.matchesAny_eq untried
  rw [hpassed.firstArm_append, firstArm, harm, bind_of_ok hmatches, if_pos rfl]
  rfl

theorem Breaks.firstArm_eq (h : Breaks E text tried u e t) (hpassed : Misses E text (patternsOf passed) s u)
    (harm : arm.patterns = tried ++ untried) (i : Nat) (rest : List CaseArm) :
    firstArm E text i (passed ++ arm :: rest) s = .error e t := by
  have hmatches := h.matchesAny_eq untried
  rw [hpassed.firstArm_append, firstArm, harm, bind_of_error hmatches]

end Arms

-- What a `case` does next: it looks for an arm from the `i`th one on, or runs the body of the `k`th one.
inductive CaseTurn where
  | look (i : Nat)
  | body (k : Nat)

-- What follows the body of the `k`th arm.
def turnAfter (k : Nat) : Script.CaseTerm → Option CaseTurn
  | .stop => none
  | .fallThrough => some (.body (k + 1))
  | .testNext => some (.look (k + 1))

section Selection

variable (E : Engine) (text : String) (arms : List CaseArm)

-- The bodies that run, by the numbers of their arms, and what comes of it.
inductive Selects : CaseTurn → State → List Nat → Outcome → Prop
  -- no pattern matches
  | missed {i : Nat} {s t : State} (misses : Misses E text (patternsOf (arms.drop i)) s t) :
      Selects (.look i) s [] (.ok () t)
  -- a pattern cannot be expanded
  | broken {i : Nat} {s t u : State} {passed rest : List CaseArm} {arm : CaseArm} {tried untried : List Word} {e : Signal}
      (split : arms.drop i = passed ++ arm :: rest) (misses : Misses E text (patternsOf passed) s u)
      (patterns : arm.patterns = tried ++ untried) (breaks : Breaks E text tried u e t) :
      Selects (.look i) s [] (.error e t)
  -- an arm has a pattern that matches, and no arm before it
  | found {i : Nat} {s t u : State} {passed rest : List CaseArm} {arm : CaseArm} {tried untried : List Word}
      {ks : List Nat} {r : Outcome}
      (split : arms.drop i = passed ++ arm :: rest) (misses : Misses E text (patternsOf passed) s u)
      (patterns : arm.patterns = tried ++ untried) (hits : Hits E text tried u t)
      (next : Selects (.body (i + passed.length)) t ks r) : Selects (.look i) s ks r
  -- there is no arm to fall through to
  | beyond {k : Nat} {s : State} (none : arms[k]? = none) : Selects (.body k) s [] (.ok () s)
  -- a body is left by an error or a signal
  | left {k : Nat} {s t : State} {arm : CaseArm} {e : Signal} (at_ : arms[k]? = some arm)
      (run : runBlock E arm.body s = .error e t) : Selects (.body k) s [k] (.error e t)
  | stopped {k : Nat} {s t : State} {arm : CaseArm} (at_ : arms[k]? = some arm)
      (run : runBlock E arm.body s = .ok () t) (last : turnAfter k arm.term = none) : Selects (.body k) s [k] (.ok () t)
  | wentOn {k : Nat} {s t : State} {arm : CaseArm} {turn : CaseTurn} {ks : List Nat} {r : Outcome}
      (at_ : arms[k]? = some arm) (run : runBlock E arm.body s = .ok () t) (after : turnAfter k arm.term = some turn)
      (next : Selects turn t ks r) : Selects (.body k) s (k :: ks) r

-- The same turn by the code.
def runTurn : CaseTurn → Run Unit
  | .look i => caseArms E text false (arms.drop i)
  | .body k => caseArms E text true (arms.drop k)

variable {E text arms} {s t u : State} {ks ks' : List Nat} {r r' : Outcome} {turn : CaseTurn} {arm : CaseArm} {i k : Nat}

theorem drop_of_getElem? (h : arms[k]? = some arm) : arms.drop k = arm :: arms.drop (k + 1) := by
  obtain ⟨hk, rfl⟩ := List.getElem?_eq_some_iff.mp h
  exact List.drop_eq_getElem_cons hk

-- The code looks for the first arm and then runs bodies from there.
theorem runTurn_look (E : Engine) (text : String) (arms : List CaseArm) (i : Nat) :
    runTurn E text arms (.look i) = (do
      match ← firstArm E text i (arms.drop i) with
      | none => return
      | some k => runTurn E text arms (.body k)) := by
  change caseArms E text false (arms.drop i) = _
  generalize hl : arms.drop i = l
  induction l generalizing i with
  | nil => rfl
  | cons arm rest ih =>
      have hrest : arms.drop (i + 1) = rest := by rw [← List.tail_drop, hl, List.tail_cons]
      have hbody : runTurn E text arms (.body i) = caseArms E text true (arm :: rest) := by rw [← hl]; rfl
      funext s
      rw [caseArms, firstArm]
      cases hmatches : matchesAny E text arm.patterns s with
      | error e t => rw [bind_assoc, if_neg Bool.false_ne_true, bind_of_error hmatches, bind_of_error hmatches]
      | ok hit t =>
          rw [bind_assoc, if_neg Bool.false_ne_true, bind_of_ok hmatches, bind_of_ok hmatches]
          cases hit with
          | false => exact congrFun (ih (i + 1) hrest) t
          | true => exact (congrFun hbody t).symm

-- It runs a body and goes on as the terminator says.
theorem runTurn_body (E : Engine) (text : String) (h : arms[k]? = some arm) :
    runTurn E text arms (.body k) = (do
      runBlock E arm.body
      match turnAfter k arm.term with
      | none => return
      | some turn => runTurn E text arms turn) := by
  change caseArms E text true (arms.drop k) = _
  rw [drop_of_getElem? h, caseArms, if_pos rfl, pure_bind]
  dsimp only
  rw [if_pos rfl]
  cases arm.term <;> rfl

theorem Selects.look_cases (h : Selects E text arms (.look i) s ks r) :
    (∃ t, firstArm E text i (arms.drop i) s = .ok none t ∧ ks = [] ∧ r = .ok () t) ∨
    (∃ e t, firstArm E text i (arms.drop i) s = .error e t ∧ ks = [] ∧ r = .error e t) ∨
    ∃ k t, firstArm E text i (arms.drop i) s = .ok (some k) t ∧ i ≤ k ∧ Selects E text arms (.body k) t ks r := by
  cases h with
  | missed misses => exact .inl ⟨_, misses.firstArm_eq i, rfl, rfl⟩
  | broken split misses patterns breaks =>
      exact .inr (.inl ⟨_, _, split ▸ breaks.firstArm_eq misses patterns i _, rfl, rfl⟩)
  | found split misses patterns hits next =>
      exact .inr (.inr ⟨_, _, split ▸ hits.firstArm_eq misses patterns i _, Nat.le_add_right .., next⟩)

theorem Selects.run_eq (h : Selects E text arms turn s ks r) : runTurn E text arms turn s = r := by
  induction h with
  | missed misses => rw [runTurn_look, bind_of_ok (misses.firstArm_eq _)]; rfl
  | broken split misses patterns breaks =>
      rw [runTurn_look, split, bind_of_error (breaks.firstArm_eq misses patterns _ _)]
  | found split misses patterns hits _ ih =>
      rw [runTurn_look, split, bind_of_ok (hits.firstArm_eq misses patterns _ _)]
      exact ih
  | beyond none =>
      change caseArms E text true (arms.drop _) _ = _
      rw [List.drop_of_length_le (List.getElem?_eq_none_iff.mp none)]
      rfl
  | left at_ run => rw [runTurn_body E text at_, bind_of_error run]
  | stopped at_ run last => rw [runTurn_body E text at_, bind_of_ok run, last]; rfl
  | wentOn at_ run after _ ih => rw [runTurn_body E text at_, bind_of_ok run, after]; exact ih

theorem Selects.body_cases (h : Selects E text arms (.body k) s ks r) (harm : arms[k]? = some arm) :
    (∃ e t, runBlock E arm.body s = .error e t ∧ ks = [k]) ∨
    (∃ t, runBlock E arm.body s = .ok () t ∧ turnAfter k arm.term = none ∧ ks = [k]) ∨
    ∃ t turn rest, runBlock E arm.body s = .ok () t ∧ turnAfter k arm.term = some turn ∧ ks = k :: rest ∧
      Selects E text arms turn t rest r := by
  cases h with
  | beyond none => exact absurd (harm.symm.trans none) nofun
  | left at_ run =>
      obtain rfl := Option.some.inj (harm.symm.trans at_)
      exact .inl ⟨_, _, run, rfl⟩
  | stopped at_ run last =>
      obtain rfl := Option.some.inj (harm.symm.trans at_)
      exact .inr (.inl ⟨_, run, last, rfl⟩)
  | wentOn at_ run after next =>
      obtain rfl := Option.some.inj (harm.symm.trans at_)
      exact .inr (.inr ⟨_, _, _, run, after, rfl, next⟩)

theorem Selects.unique (h : Selects E text arms turn s ks r) (h' : Selects E text arms turn s ks' r') : ks = ks' := by
  induction h generalizing ks' r' with
  | missed misses =>
      have hfirst := misses.firstArm_eq
      rcases h'.look_cases with ⟨t, -, rfl, -⟩ | ⟨e, t, -, rfl, -⟩ | ⟨k, t, hsome, -⟩
      · rfl
      · rfl
      · cases (hfirst _).symm.trans hsome
  | @broken i _ _ _ _ rest _ _ _ _ split misses patterns breaks =>
      have hfirst := breaks.firstArm_eq misses patterns i rest
      rw [← split] at hfirst
      rcases h'.look_cases with ⟨t, -, rfl, -⟩ | ⟨e, t, -, rfl, -⟩ | ⟨k, t, hsome, -⟩
      · rfl
      · rfl
      · cases hfirst.symm.trans hsome
  | @found i _ _ _ _ rest _ _ _ _ _ split misses patterns hits _ ih =>
      have hfirst := hits.firstArm_eq misses patterns i rest
      rw [← split] at hfirst
      rcases h'.look_cases with ⟨t, hnone, -⟩ | ⟨e, t, herror, -⟩ | ⟨k, t, hsome, -, hnext⟩
      · cases hfirst.symm.trans hnone
      · cases hfirst.symm.trans herror
      · cases hfirst.symm.trans hsome
        exact ih hnext
  | beyond none =>
      cases h' with
      | beyond => rfl
      | left at_ | stopped at_ | wentOn at_ => exact absurd (none.symm.trans at_) nofun
  | left at_ run =>
      rcases h'.body_cases at_ with ⟨e, t, -, rfl⟩ | ⟨t, -, -, rfl⟩ | ⟨t, turn, rest, hok, -⟩
      · rfl
      · rfl
      · cases run.symm.trans hok
  | stopped at_ run last =>
      rcases h'.body_cases at_ with ⟨e, t, -, rfl⟩ | ⟨t, -, -, rfl⟩ | ⟨t, turn, rest, -, hafter, -⟩
      · rfl
      · rfl
      · cases last.symm.trans hafter
  | wentOn at_ run after _ ih =>
      rcases h'.body_cases at_ with ⟨e, t, herror, -⟩ | ⟨t, -, hlast, -⟩ | ⟨t, turn, rest, hok, hafter, rfl, hnext⟩
      · cases run.symm.trans herror
      · cases after.symm.trans hlast
      · cases run.symm.trans hok
        cases after.symm.trans hafter
        rw [ih hnext]

-- Every turn comes to an end: each one is about fewer arms than the one before.
def turnsLeft (arms : List CaseArm) : CaseTurn → Nat
  | .look i => 2 * (arms.length - i) + 1
  | .body k => 2 * (arms.length - k)

theorem turnsLeft_after {turn : CaseTurn} (hk : k < arms.length) (h : turnAfter k arm.term = some turn) :
    turnsLeft arms turn < turnsLeft arms (.body k) := by
  unfold turnAfter at h
  cases hterm : arm.term <;> rw [hterm] at h <;> cases h <;> simp only [turnsLeft] <;> omega

-- What the first arm comes to, told by the patterns.
theorem firstArm_cases (E : Engine) (text : String) (l : List CaseArm) (s : State) :
    (∃ t, Misses E text (patternsOf l) s t) ∨
    ∃ (passed : List CaseArm) (arm : CaseArm) (rest : List CaseArm) (u : State),
      l = passed ++ arm :: rest ∧ Misses E text (patternsOf passed) s u ∧
      ∃ tried untried, arm.patterns = tried ++ untried ∧
        ((∃ t, Hits E text tried u t) ∨ ∃ e t, Breaks E text tried u e t) := by
  induction l generalizing s with
  | nil => exact .inl ⟨s, .nil⟩
  | cons arm l ih =>
      rcases misses_or E text arm.patterns s with ⟨u, hmisses⟩ | ⟨tried, untried, t, heq, hhits⟩ |
        ⟨tried, untried, e, t, heq, hbreaks⟩
      · rcases ih u with ⟨t, hrest⟩ | ⟨passed, arm', rest, v, rfl, hpassed, hlast⟩
        · exact .inl ⟨t, hmisses.append hrest⟩
        · exact .inr ⟨arm :: passed, arm', rest, v, rfl, hmisses.append hpassed, hlast⟩
      · exact .inr ⟨[], arm, l, s, rfl, .nil, tried, untried, heq, .inl ⟨t, hhits⟩⟩
      · exact .inr ⟨[], arm, l, s, rfl, .nil, tried, untried, heq, .inr ⟨e, t, hbreaks⟩⟩

theorem exists_selects (E : Engine) (text : String) (arms : List CaseArm) (turn : CaseTurn) (s : State) :
    ∃ ks r, Selects E text arms turn s ks r := by
  induction hn : turnsLeft arms turn using Nat.strongRecOn generalizing turn s with
  | ind n ih =>
      subst hn
      cases turn with
      | look i =>
          rcases firstArm_cases E text (arms.drop i) s with ⟨t, hmisses⟩ | ⟨passed, arm, rest, u, hsplit, hmisses, tried,
            untried, hpatterns, ⟨t, hhits⟩ | ⟨e, t, hbreaks⟩⟩
          · exact ⟨_, _, .missed hmisses⟩
          · have hless : turnsLeft arms (.body (i + passed.length)) < turnsLeft arms (.look i) := by
              simp only [turnsLeft]
              omega
            obtain ⟨ks, r, hnext⟩ := ih _ hless _ t rfl
            exact ⟨_, _, .found hsplit hmisses hpatterns hhits hnext⟩
          · exact ⟨_, _, .broken hsplit hmisses hpatterns hbreaks⟩
      | body k =>
          cases harm : arms[k]? with
          | none => exact ⟨_, _, .beyond harm⟩
          | some arm =>
              cases hrun : runBlock E arm.body s with
              | error e t => exact ⟨_, _, .left harm hrun⟩
              | ok a t =>
                  cases hafter : turnAfter k arm.term with
                  | none => exact ⟨_, _, .stopped harm hrun hafter⟩
                  | some turn =>
                      have hless := turnsLeft_after (List.getElem?_eq_some_iff.mp harm).1 hafter
                      obtain ⟨ks, r, hnext⟩ := ih _ hless _ t rfl
                      exact ⟨_, _, .wentOn harm hrun hafter hnext⟩

-- One body follows another: it falls through to the next arm, or some later arm has been found.
def BodyAfter (arms : List CaseArm) (k l : Nat) : Prop :=
  ∃ arm, arms[k]? = some arm ∧ (arm.term = .fallThrough ∧ l = k + 1 ∨ arm.term = .testNext ∧ k < l)

-- The bodies that a turn can begin with.
def Begins : CaseTurn → Nat → Prop
  | .look i, l => i ≤ l
  | .body k, l => l = k

theorem bodyAfter_of_begins {turn : CaseTurn} {l : Nat} (harm : arms[k]? = some arm)
    (hafter : turnAfter k arm.term = some turn) (h : Begins turn l) : BodyAfter arms k l := by
  refine ⟨arm, harm, ?_⟩
  unfold turnAfter at hafter
  cases hterm : arm.term <;> rw [hterm] at hafter <;> cases hafter
  · exact .inl ⟨rfl, h⟩
  · exact .inr ⟨rfl, h⟩

theorem Selects.chain (h : Selects E text arms turn s ks r) :
    ks.IsChain (BodyAfter arms) ∧ ∀ l ∈ ks.head?, Begins turn l := by
  induction h with
  | missed | broken | beyond => exact ⟨.nil, nofun⟩
  | found split misses patterns hits next ih =>
      refine ⟨ih.1, fun l hl => ?_⟩
      obtain rfl := ih.2 l hl
      exact Nat.le_add_right ..
  | left | stopped => exact ⟨.singleton _, fun l hl => (Option.some.inj hl).symm⟩
  | wentOn at_ run after next ih =>
      refine ⟨?_, fun l hl => (Option.some.inj hl).symm⟩
      exact List.isChain_cons.mpr ⟨fun l hl => bodyAfter_of_begins at_ after (ih.2 l hl), ih.1⟩

end Selection

-- A whole `case`: its word is expanded first, and the status is that of success until a body runs.
inductive CaseRuns (E : Engine) (word : Word) (arms : List CaseArm) (s : State) : List Nat → Outcome → Prop
  | unread {e : Signal} {t : State} (expanded : literal E word s = .error e t) : CaseRuns E word arms s [] (.error e t)
  | read {text : String} {t : State} {ks : List Nat} {r : Outcome} (expanded : literal E word s = .ok text t)
      (selects : Selects E text arms (.look 0) { t with shell := { t.shell with status := 0 } } ks r) :
      CaseRuns E word arms s ks r

theorem CaseRuns.unique {E : Engine} {word : Word} {arms : List CaseArm} {s : State} {ks ks' : List Nat}
    {r r' : Outcome} (h : CaseRuns E word arms s ks r) (h' : CaseRuns E word arms s ks' r') : ks = ks' := by
  cases h with
  | unread expanded =>
      cases h' with
      | unread => rfl
      | read expanded' => cases expanded.symm.trans expanded'
  | read expanded selects =>
      cases h' with
      | unread expanded' => cases expanded.symm.trans expanded'
      | read expanded' selects' =>
          cases expanded.symm.trans expanded'
          exact selects.unique selects'

theorem CaseRuns.run_eq {E : Engine} {word : Word} {arms : List CaseArm} {s : State} {ks : List Nat} {r : Outcome}
    (h : CaseRuns E word arms s ks r) : runStmt E (.caseOf word arms) s = r := by
  cases h with
  | unread expanded => rw [runStmt, bind_of_error expanded]
  | read expanded selects =>
      rw [runStmt, bind_of_ok expanded]
      exact selects.run_eq

-- Whatever the arms, the state and the statements inside are, a `case` runs the bodies that its patterns and terminators
-- select, in their order, and there is only one such selection.
theorem case_selects (E : Engine) (word : Word) (arms : List CaseArm) (s : State) :
    ∃ ks, CaseRuns E word arms s ks (runStmt E (.caseOf word arms) s) ∧ ks.IsChain (BodyAfter arms) ∧
      ∀ ks' r, CaseRuns E word arms s ks' r → ks' = ks ∧ r = runStmt E (.caseOf word arms) s := by
  obtain ⟨ks, r, hruns⟩ : ∃ ks r, CaseRuns E word arms s ks r := by
    cases hword : literal E word s with
    | error e t => exact ⟨_, _, .unread hword⟩
    | ok text t =>
        obtain ⟨ks, r, hselects⟩ := exists_selects E text arms (.look 0) { t with shell := { t.shell with status := 0 } }
        exact ⟨ks, r, .read hword hselects⟩
  have hchain : ks.IsChain (BodyAfter arms) := by
    cases hruns with
    | unread => exact .nil
    | read expanded selects => exact selects.chain.1
  rw [hruns.run_eq]
  exact ⟨ks, hruns, hchain, fun ks' r' h => ⟨h.unique hruns, h.run_eq.symm.trans hruns.run_eq⟩⟩

end Machine
end ShellScript

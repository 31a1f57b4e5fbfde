import Mathlib.Tactic.IntervalCases
import ShellScript.Machine.Test

-- Conditions of five words and more as expressions: they are written with parentheses where `!`, `-a` and `-o` would
-- otherwise bind in another way, and the words give the value that the expression has.
namespace ShellScript
namespace Machine
namespace Test

-- The words that mean something where an operand may stand. `-a` and `-o` are among those for one operand.
def isOperator (w : String) : Bool := ["!", "(", ")"].contains w || isUnary w || isBinary w

abbrev Operand := {w : String // isOperator w = false}

inductive Primary where
  | word (x : Operand)
  | unary (op : {op : String // isUnary op = true}) (x : Operand)
  | binary (op : {op : String // isBinary op = true}) (x y : Operand)

namespace Primary

def words : Primary → List String
  | word x => [x]
  | unary op x => [op, x]
  | binary op x y => [x, op, y]

def eval (s : State) : Primary → Except String Bool
  | word x => .ok !x.val.isEmpty
  | unary op x => Test.unary s op x
  | binary op x y => Test.binary s op x y

end Primary

inductive Expr where
  | primary (p : Primary)
  | not (e : Expr)
  | and (l r : Expr)
  | or (l r : Expr)
  | paren (e : Expr)

namespace Expr

-- How tightly the outermost operator binds.
def rank : Expr → Nat
  | or _ _ => 0
  | and _ _ => 1
  | _ => 2

-- The words of an expression where an operator needs one of at least this rank.
def bracketed (least : Nat) (e : Expr) (ws : List String) : List String :=
  if least ≤ e.rank then ws else "(" :: ws ++ [")"]

def words : Expr → List String
  | primary p => p.words
  | not e => "!" :: e.bracketed 2 e.words
  | and l r => l.bracketed 1 l.words ++ "-a" :: r.bracketed 1 r.words
  | or l r => l.words ++ "-o" :: r.words
  | paren e => "(" :: e.words ++ [")"]

def primaries : Expr → List Primary
  | primary p => [p]
  | not e | paren e => e.primaries
  | and l r | or l r => l.primaries ++ r.primaries

def value (v : Primary → Bool) : Expr → Bool
  | primary p => v p
  | not e => !e.value v
  | and l r => l.value v && r.value v
  | or l r => l.value v || r.value v
  | paren e => e.value v

-- The value, or the error of the first primary that has one: all of them are looked at.
def eval (s : State) : Expr → Except String Bool
  | primary p => p.eval s
  | not e => (e.eval s).map (!·)
  | and l r => do
    let a ← l.eval s
    let b ← r.eval s
    return a && b
  | or l r => do
    let a ← l.eval s
    let b ← r.eval s
    return a || b
  | paren e => e.eval s

theorem eval_eq_value {s : State} {v : Primary → Bool} {e : Expr} (h : ∀ p ∈ e.primaries, p.eval s = .ok (v p)) :
    e.eval s = .ok (e.value v) := by
  induction e with
  | primary p => exact h p (List.mem_singleton_self p)
  | not e ih =>
      rw [eval, ih h]
      rfl
  | and l r ihl ihr =>
      have hl := ihl fun p hp => h p (List.mem_append_left _ hp)
      have hr := ihr fun p hp => h p (List.mem_append_right _ hp)
      rw [eval, hl, hr]
      rfl
  | or l r ihl ihr =>
      have hl := ihl fun p hp => h p (List.mem_append_left _ hp)
      have hr := ihr fun p hp => h p (List.mem_append_right _ hp)
      rw [eval, hl, hr]
      rfl
  | paren e ih => exact ih h

end Expr

-- A reader has a bound on its turns, and gives a value and the words behind what it has read.
abbrev Reader := Nat → List String → Except String (Bool × List String)

-- What comes next is one of these words, or nothing.
def Follows (stops rest : List String) : Prop := ∀ w ∈ rest.head?, w ∈ stops

-- Before any of these words the reader takes all of `ws`, when it has turns enough for them.
def Reads (f : Reader) (stops : List String) (k : Nat) (ws : List String) (x : Except String Bool) : Prop :=
  ∀ rest n, Follows stops rest → 4 * (ws.length + rest.length) + k ≤ n → f n (ws ++ rest) = x.map (·, rest)

-- What an operator adds to the value in front of it.
def tail (op : String) (join : Bool → Bool → Bool) (f : List String → Except String (Bool × List String)) (b : Bool) :
    List String → Except String (Bool × List String)
  | [] => .ok (b, [])
  | w :: rest => if w = op then (f rest).map fun r => (join b r.1, r.2) else .ok (b, w :: rest)

-- A reader of operands with one operator between them.
structure IsChain (op : String) (join : Bool → Bool → Bool) (operand f : Reader) : Prop where
  assoc : ∀ a b c, join a (join b c) = join (join a b) c
  turn : ∀ n ws, f (n + 1) ws = operand n ws >>= fun r => tail op join (f n) r.1 r.2

-- The reader takes all of `ws`, and goes on from their value if the operator follows.
def ReadsOn (op : String) (join : Bool → Bool → Bool) (f : Reader) (stops : List String) (k : Nat) (ws : List String)
    (x : Except String Bool) : Prop :=
  ∀ rest n, Follows (op :: stops) rest → 4 * (ws.length + rest.length) + k ≤ n →
    ∃ m, 4 * rest.length ≤ m ∧ f n (ws ++ rest) = x >>= fun b => tail op join (f m) b rest

section Chains

variable {op : String} {join : Bool → Bool → Bool} {operand f : Reader} {stops ws us : List String} {k : Nat}
  {x y : Except String Bool}

theorem tail_of_follows {g : List String → Except String (Bool × List String)} {rest : List String} (hop : op ∉ stops)
    (hrest : Follows stops rest) (b : Bool) : tail op join g b rest = .ok (b, rest) := by
  cases rest with
  | nil => rfl
  | cons w rest =>
      have hw : w ∈ stops := hrest w rfl
      have hne : w ≠ op := by
        rintro rfl
        exact hop hw
      rw [tail, if_neg hne]

-- A value in front of the whole chain may be joined to its first operand.
theorem map_tail (hchain : IsChain op join operand f) (g : List String → Except String (Bool × List String)) (a b : Bool)
    (rest : List String) : (tail op join g b rest).map (fun r => (join a r.1, r.2)) = tail op join g (join a b) rest := by
  cases rest with
  | nil => rfl
  | cons w rest =>
      by_cases hw : w = op
      · simp only [tail, if_pos hw]
        cases g rest with
        | error e => rfl
        | ok r => simp only [Except.map, hchain.assoc]
      · simp only [tail, if_neg hw, Except.map]

theorem IsChain.single (hchain : IsChain op join operand f) (h : Reads operand (op :: stops) k ws x) :
    ReadsOn op join f stops (k + 1) ws x := by
  intro rest n hrest hn
  obtain ⟨n, rfl⟩ : ∃ m, n = m + 1 := ⟨n - 1, by omega⟩
  refine ⟨n, by omega, ?_⟩
  rw [hchain.turn, h rest n hrest (by omega)]
  cases x <;> rfl

theorem IsChain.joined (hchain : IsChain op join operand f) (hk : k ≤ 4) (hx : ReadsOn op join f stops k ws x)
    (hy : ReadsOn op join f stops k us y) :
    ReadsOn op join f stops k (ws ++ op :: us) (do let a ← x; let b ← y; return join a b) := by
  intro rest n hrest hn
  have hlength : (ws ++ op :: us).length = ws.length + us.length + 1 := by
    rw [List.length_append, List.length_cons]
    omega
  have hlength' : (op :: us ++ rest).length = us.length + rest.length + 1 := by
    rw [List.length_append, List.length_cons]
    omega
  have hfollows : Follows (op :: stops) (op :: us ++ rest) := by
    rintro w ⟨⟩
    exact List.mem_cons_self
  obtain ⟨m, hm, hfirst⟩ := hx (op :: us ++ rest) n hfollows (by omega)
  obtain ⟨m', hm', hsecond⟩ := hy rest m hrest (by omega)
  refine ⟨m', hm', ?_⟩
  rw [List.append_assoc, hfirst]
  cases x with
  | error e => rfl
  | ok a =>
      change tail op join (f m) a (op :: (us ++ rest)) = _
      rw [tail, if_pos rfl, hsecond]
      cases y with
      | error e => rfl
      | ok b => exact map_tail hchain _ a b rest

theorem ReadsOn.reads (h : ReadsOn op join f stops k ws x) (hop : op ∉ stops) : Reads f stops k ws x := by
  intro rest n hrest hn
  have hfollows : Follows (op :: stops) rest := fun w hw => List.mem_cons_of_mem _ (hrest w hw)
  obtain ⟨m, -, hread⟩ := h rest n hfollows hn
  rw [hread]
  cases x with
  | error e => rfl
  | ok b => exact tail_of_follows hop hrest b

end Chains

section Readers

variable (s : State)

theorem conjunction_chain : IsChain "-a" (· && ·) (negation s) (conjunction s) where
  assoc a b c := (Bool.and_assoc a b c).symm
  turn n ws := by
    rw [conjunction]
    cases negation s n ws with
    | error e => rfl
    | ok r =>
        obtain ⟨b, rest⟩ := r
        simp only [bind, Except.bind]
        split
        · next rest =>
          rw [tail, if_pos rfl]
          cases conjunction s n rest <;> rfl
        · next hrest =>
          cases rest with
          | nil => rfl
          | cons w rest =>
              have hw : w ≠ "-a" := by
                rintro rfl
                exact hrest rest rfl
              rw [tail, if_neg hw]
              rfl

theorem disjunction_chain : IsChain "-o" (· || ·) (conjunction s) (disjunction s) where
  assoc a b c := (Bool.or_assoc a b c).symm
  turn n ws := by
    rw [disjunction]
    cases conjunction s n ws with
    | error e => rfl
    | ok r =>
        obtain ⟨b, rest⟩ := r
        simp only [bind, Except.bind]
        split
        · next rest =>
          rw [tail, if_pos rfl]
          cases disjunction s n rest <;> rfl
        · next hrest =>
          cases rest with
          | nil => rfl
          | cons w rest =>
              have hw : w ≠ "-o" := by
                rintro rfl
                exact hrest rest rfl
              rw [tail, if_neg hw]
              rfl

end Readers

section Levels

variable {s : State} {ws : List String} {x : Except String Bool}

theorem reads_not (h : Reads (negation s) ["-a", "-o", ")"] 2 ws x) :
    Reads (negation s) ["-a", "-o", ")"] 2 ("!" :: ws) (x.map (!·)) := by
  intro rest n hrest hn
  obtain ⟨n, rfl⟩ : ∃ m, n = m + 1 := ⟨n - 1, by omega⟩
  rw [List.length_cons] at hn
  rw [List.cons_append, negation, h rest n hrest (by omega)]
  cases x <;> rfl

theorem reads_parens (h : Reads (disjunction s) [")"] 4 ws x) :
    Reads (negation s) ["-a", "-o", ")"] 2 ("(" :: ws ++ [")"]) x := by
  intro rest n hrest hn
  obtain ⟨n, rfl⟩ : ∃ m, n = m + 2 := ⟨n - 2, by omega⟩
  have hlength : ("(" :: ws ++ [")"]).length = ws.length + 2 := by
    rw [List.length_append, List.length_cons]
    rfl
  have hfollows : Follows [")"] (")" :: rest) := by
    rintro w ⟨⟩
    exact List.mem_singleton_self _
  have hwords : "(" :: ws ++ [")"] ++ rest = "(" :: (ws ++ ")" :: rest) := by simp
  have hinner := h (")" :: rest) n hfollows (by rw [List.length_cons]; omega)
  rw [hwords, negation, primary, hinner]
  · cases x <;> rfl
  · simp

-- What stands behind a primary is no operator between two operands.
theorem isBinary_of_follows {w : String} {rest : List String} (h : Follows ["-a", "-o", ")"] (w :: rest)) :
    isBinary w = false := by
  have hw := h w rfl
  simp only [List.mem_cons, List.not_mem_nil, or_false] at hw
  obtain rfl | rfl | rfl := hw <;> decide

theorem ne_of_operand {a w : String} (h : isOperator a = false) (hw : isOperator w = true) : a ≠ w := by
  rintro rfl
  rw [h] at hw
  cases hw

-- A word that opens nothing is looked at together with the two behind it.
theorem negation_primary {a : String} (hnot : a ≠ "!") (hopen : a ≠ "(") (n : Nat) (rest : List String) :
    negation s (n + 2) (a :: rest) =
      match rest with
      | op :: y :: more =>
        if isBinary op then (binary s op a y).map fun b => (b, more)
        else if isUnary a then (unary s a op).map fun b => (b, y :: more)
        else .ok (!a.isEmpty, rest)
      | [x] => if isUnary a then (unary s a x).map fun b => (b, []) else .ok (!a.isEmpty, rest)
      | [] => .ok (!a.isEmpty, []) := by
  have hword : negation s (n + 2) (a :: rest) = primary s (n + 1) (a :: rest) := by
    rw [negation]
    intro more heq
    exact hnot (List.cons.inj heq).1
  rw [hword, primary.eq_def]
  dsimp only
  split
  · next heq => cases heq
  · next heq => exact absurd (List.cons.inj heq).1 hopen
  · next heq =>
    obtain ⟨rfl, rfl⟩ := List.cons.inj heq
    rfl

theorem reads_primary (p : Primary) : Reads (negation s) ["-a", "-o", ")"] 2 p.words (p.eval s) := by
  intro rest n hrest hn
  obtain ⟨n, rfl⟩ : ∃ m, n = m + 2 := ⟨n - 2, by omega⟩
  cases p with
  | word x =>
      obtain ⟨x, hx⟩ := x
      have hunary : isUnary x = false := by
        simp only [isOperator, Bool.or_eq_false_iff] at hx
        exact hx.1.2
      have hnot : x ≠ "!" := ne_of_operand hx (by decide)
      have hopen : x ≠ "(" := ne_of_operand hx (by decide)
      change negation s (n + 2) (x :: rest) = .ok (!x.isEmpty, rest)
      rw [negation_primary hnot hopen]
      rcases rest with _ | ⟨op, _ | ⟨y, more⟩⟩
      · rfl
      · simp only [hunary, Bool.false_eq_true, if_false]
      · simp only [hunary, isBinary_of_follows hrest, Bool.false_eq_true, if_false]
  | unary op x =>
      obtain ⟨op, hop⟩ := op
      obtain ⟨x, hx⟩ := x
      have hbinary : isBinary x = false := by
        simp only [isOperator, Bool.or_eq_false_iff] at hx
        exact hx.2
      have hnot : op ≠ "!" := by
        rintro rfl
        exact absurd hop (by decide)
      have hopen : op ≠ "(" := by
        rintro rfl
        exact absurd hop (by decide)
      change negation s (n + 2) (op :: x :: rest) = (Test.unary s op x).map (·, rest)
      rw [negation_primary hnot hopen]
      cases rest with
      | nil => simp only [hop, if_true]
      | cons y more => simp only [hop, hbinary, Bool.false_eq_true, if_false, if_true]
  | binary op x y =>
      obtain ⟨op, hop⟩ := op
      obtain ⟨x, hx⟩ := x
      have hnot : x ≠ "!" := ne_of_operand hx (by decide)
      have hopen : x ≠ "(" := ne_of_operand hx (by decide)
      change negation s (n + 2) (x :: op :: y.val :: rest) = (Test.binary s op x y).map (·, rest)
      rw [negation_primary hnot hopen]
      simp only [hop, if_true]

end Levels

namespace Expr

variable (s : State)

-- What is read of words at each of the three levels.
def ReadsAt (ws : List String) (x : Except String Bool) : Nat → Prop
  | 0 => ReadsOn "-o" (· || ·) (disjunction s) [")"] 4 ws x
  | 1 => ReadsOn "-a" (· && ·) (conjunction s) ["-o", ")"] 3 ws x
  | _ => Reads (negation s) ["-a", "-o", ")"] 2 ws x

variable {s} {ws : List String} {x : Except String Bool}

-- What binds more may stand where less would do.
theorem ReadsAt.lower {k j : Nat} (h : ReadsAt s ws x k) (hk : k ≤ 2) (hj : j ≤ k) : ReadsAt s ws x j := by
  have hsingle (h : ReadsAt s ws x 2) : ReadsAt s ws x 1 := (conjunction_chain s).single h
  have hwhole (h : ReadsAt s ws x 1) : ReadsAt s ws x 0 := (disjunction_chain s).single (h.reads (by decide))
  interval_cases k <;> interval_cases j
  · exact h
  · exact hwhole h
  · exact h
  · exact hwhole (hsingle h)
  · exact hsingle h
  · exact h

theorem rank_le (e : Expr) : e.rank ≤ 2 := by
  cases e <;> simp [rank]

theorem readsAt_bracketed {e : Expr} {least : Nat} (h : ReadsAt s ws x e.rank) (hleast : least ≤ 2) :
    ReadsAt s (e.bracketed least ws) x least := by
  unfold bracketed
  split
  · next hle => exact h.lower e.rank_le hle
  · have hinside : ReadsAt s ws x 0 := h.lower e.rank_le (Nat.zero_le _)
    have hparens : ReadsAt s ("(" :: ws ++ [")"]) x 2 := reads_parens (hinside.reads (by decide))
    exact hparens.lower (Nat.le_refl 2) hleast

theorem readsAt_words (e : Expr) : ReadsAt s e.words (e.eval s) e.rank := by
  induction e with
  | primary p => exact reads_primary p
  | not e ih => exact reads_not (readsAt_bracketed ih (Nat.le_refl 2))
  | and l r ihl ihr =>
      have hl : ReadsAt s (l.bracketed 1 l.words) _ 1 := readsAt_bracketed ihl (by decide)
      have hr : ReadsAt s (r.bracketed 1 r.words) _ 1 := readsAt_bracketed ihr (by decide)
      exact (conjunction_chain s).joined (by decide) hl hr
  | or l r ihl ihr =>
      have hl := ihl.lower l.rank_le (Nat.zero_le _)
      have hr := ihr.lower r.rank_le (Nat.zero_le _)
      exact (disjunction_chain s).joined (by decide) hl hr
  | paren e ih => exact reads_parens ((ih.lower e.rank_le (Nat.zero_le _)).reads (by decide))

theorem long_words (s : State) (e : Expr) : long s e.words = e.eval s := by
  have hread := (readsAt_words (s := s) e).lower e.rank_le (Nat.zero_le _)
  have hwhole := hread.reads (by decide) [] (4 * e.words.length + 4) nofun (Nat.le_refl _)
  rw [List.append_nil] at hwhole
  rw [long, hwhole]
  cases e.eval s <;> rfl

-- Five words and more are an expression with the value that is read off its operators.
theorem ofArgs_words (s : State) (e : Expr) (h : 5 ≤ e.words.length) :
    ofArgs s e.words = e.eval s ∧
      ∀ v, (∀ p ∈ e.primaries, p.eval s = .ok (v p)) → ofArgs s e.words = .ok (e.value v) := by
  have heval : ofArgs s e.words = e.eval s := by
    rw [← long_words]
    generalize e.words = ws at h
    rcases ws with _ | ⟨a, _ | ⟨b, _ | ⟨c, _ | ⟨d, _ | ⟨f, ws⟩⟩⟩⟩⟩
    · simp at h
    · simp at h
    · simp at h
    · simp at h
    · simp at h
    · rfl
  refine ⟨heval, ?_⟩
  intro v hv
  rw [heval]
  exact eval_eq_value hv

-- `-a` and `-o` are read as what stands between expressions and as what stands in front of an operand.
theorem ofArgs_of_both_uses :
    let word (w : String) (h : isOperator w = false) : Operand := ⟨w, h⟩
    let e : Expr :=
      .and (.not (.primary (.unary ⟨"-a", by decide⟩ (word "f" (by decide)))))
        (.or (.primary (.unary ⟨"-o", by decide⟩ (word "errexit" (by decide))))
          (.primary (.binary ⟨"=", by decide⟩ (word "x" (by decide)) (word "x" (by decide)))))
    e.words = ["!", "-a", "f", "-a", "(", "-o", "errexit", "-o", "x", "=", "x", ")"] ∧ 5 ≤ e.words.length ∧
      ofArgs default e.words = .ok true := by
  intro word e
  have hlength : 5 ≤ e.words.length := by decide
  have hfile : Test.unary default "-a" "f" = .ok false := by decide +kernel
  have heval : e.eval default = .ok true := by
    change (do
      let a ← (Test.unary default "-a" "f").map (!·)
      let b ← (do
        let l ← Test.unary default "-o" "errexit"
        let r ← Test.binary default "=" "x" "x"
        return l || r)
      return a && b) = Except.ok true
    rw [hfile]
    rfl
  refine ⟨rfl, hlength, ?_⟩
  rw [(ofArgs_words default e hlength).1, heval]

end Expr

end Test
end Machine
end ShellScript

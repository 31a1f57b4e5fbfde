import ShellScript.Proofs.Script.Shape
import ShellScript.Proofs.Script.Slices

-- What the readers of words and expressions do. There is one statement for each reader: two runs of it are the same when
-- the readers of nested text are the same on every shorter text, and the tree that it builds is well formed and has the
-- here-documents of its text.
namespace ShellScript
namespace Script
namespace Read

open Diagnostic (Harmless)

-- What is followed through a reading besides its steps: nothing, the shape of the tree, or its here-documents as well.
inductive Watch where
  | sameness
  | shape
  | hereDocs

-- The reading that is looked at, and the length of the longest text that it meets.
structure View where
  setting : Setting
  watch : Watch
  size : Nat := 0

namespace View

-- Whether the diagnostics so far leave something to be followed. Here-documents count only as long as nothing is fatal.
def Calm (v : View) (ds : Array Diagnostic.OfText) : Prop :=
  match v.watch with
  | .sameness => False
  | .shape => True
  | .hereDocs => Harmless ds

def Good (v : View) (n : Node) : Prop := n.Formed ∧ (v.watch = .hereDocs → n.Served v.setting)

variable {v : View}

theorem calm_of_subset {ds es : Array Diagnostic.OfText} (h : ∀ d ∈ ds, d ∈ es) (hes : v.Calm es) : v.Calm ds := by
  unfold Calm at hes ⊢
  cases hw : v.watch with
  | sameness => rw [hw] at hes; exact hes
  | shape => trivial
  | hereDocs =>
      rw [hw] at hes
      exact fun d hd => hes d (h d hd)

theorem calm_of_push {ds : Array Diagnostic.OfText} {d : Diagnostic.OfText} (h : v.Calm (ds.push d)) : v.Calm ds :=
  calm_of_subset (fun _ => Array.mem_push_of_mem d) h

end View

-- Two runs of a reader: they are the same, their result is like `U`, and like `P` if it is followed.
def Reads {α : Type} (v : View) (m m' : Reading α) (U P : α → Prop) : Prop :=
  ∀ ds, m.run ds = m'.run ds ∧ U (m.run ds).1 ∧ (v.Calm (m.run ds).2 → v.Calm ds ∧ P (m.run ds).1)

-- A reader of which only the tree counts.
abbrev Builds {α : Type} (v : View) (m m' : Reading α) (P : α → Prop) : Prop := Reads v m m' (fun _ => True) P

namespace Reads

variable {v : View} {α β : Type} {U P : α → Prop} {U' P' : β → Prop} {m m' : Reading α}

theorem pure {a : α} (hu : U a) (hp : P a) : Reads v (Pure.pure a) (Pure.pure a) U P := fun _ => ⟨rfl, hu, fun h => ⟨h, hp⟩⟩

theorem bind {f f' : α → Reading β} (hm : Reads v m m' U P)
    (hf : ∀ a, U a → Reads v (f a) (f' a) U' fun b => P a → P' b) : Reads v (m >>= f) (m' >>= f') U' P' := by
  intro ds
  obtain ⟨hsame, hu, hp⟩ := hm ds
  obtain ⟨hsame', hu', hp'⟩ := hf _ hu (m.run ds).2
  refine ⟨?_, hu', fun h => ?_⟩
  · change (f (m.run ds).1).run (m.run ds).2 = (f' (m'.run ds).1).run (m'.run ds).2
    rw [← hsame]
    exact hsame'
  · obtain ⟨hcalm, hb⟩ := hp' h
    obtain ⟨hcalm, ha⟩ := hp hcalm
    exact ⟨hcalm, hb ha⟩

theorem mono {U₁ P₁ : α → Prop} (h : Reads v m m' U P) (hu : ∀ a, U a → U₁ a) (hp : ∀ a, P a → P₁ a) :
    Reads v m m' U₁ P₁ :=
  fun ds => ⟨(h ds).1, hu _ (h ds).2.1, fun hcalm => ⟨((h ds).2.2 hcalm).1, hp _ ((h ds).2.2 hcalm).2⟩⟩

-- What holds already may be used.
theorem imp {H : Prop} (h : Reads v m m' U P) : Reads v m m' U fun a => H → P a := h.mono (fun _ => id) fun _ ha _ => ha

theorem ite {c : Prop} [Decidable c] {n n' : Reading α} (h : Reads v m m' U P) (h' : Reads v n n' U P) :
    Reads v (if c then m else n) (if c then m' else n') U P := by
  split <;> assumption

theorem report {s : Setting} {p : Position} {message : String} {f f' : Unit → Reading α}
    (hf : Reads v (f ()) (f' ()) U P) : Reads v (s.report p message >>= f) (s.report p message >>= f') U P := by
  refine bind (U := fun _ => True) (P := fun _ => True) (fun ds => ⟨rfl, trivial, fun h => ⟨?_, trivial⟩⟩) fun _ _ => hf.imp
  exact View.calm_of_push h

end Reads

-- Nothing else is asked when only the sameness of the runs is.
theorem reads_of_eq {α : Type} {v : View} (hv : v.watch = .sameness) {m : Reading α} (P : α → Prop) : Builds v m m P := by
  intro ds
  refine ⟨rfl, trivial, fun h => ?_⟩
  unfold View.Calm at h
  rw [hv] at h
  exact h.elim

-- Readers of words that are the same on texts up to a length.
def PartsReader.Agree (v : View) (parts parts' : PartsReader) (k : Nat) : Prop :=
  ∀ mode p cs, cs.length ≤ k → Builds v (parts mode p cs) (parts' mode p cs) fun ps => AllOf v.Good (partNodes ps)

theorem PartsReader.Agree.mono {v : View} {parts parts' : PartsReader} {k j : Nat} (h : PartsReader.Agree v parts parts' k)
    (hle : j ≤ k) : PartsReader.Agree v parts parts' j := fun mode p cs hlen => h mode p cs (Nat.le_trans hlen hle)

-- Readers of nested text that are the same on texts below a length.
structure Nested.Agree (v : View) (nested nested' : Nested) (k : Nat) : Prop where
  parts : ∀ mode p cs, cs.length < k →
    Builds v (nested.parts mode p cs) (nested'.parts mode p cs) fun ps => AllOf v.Good (partNodes ps)
  block : ∀ p cs, cs.length < k →
    Builds v (nested.block p cs) (nested'.block p cs) fun b =>
      b.nodes.All v.Good ∧ (v.watch = .hereDocs → b.Served v.setting)

theorem Nested.Agree.of_lt {v : View} {nested nested' : Nested} {k j : Nat} (h : Nested.Agree v nested nested' k)
    (hlt : j < k) : PartsReader.Agree v nested.parts nested'.parts j :=
  fun mode p cs hlen => h.parts mode p cs (Nat.lt_of_le_of_lt hlen hlt)

-- The nodes below each node, and what is asked of it.
attribute [local simp] View.Good Node.Formed Node.Served WordPart.nodes ArithExpr.nodes partNodes wordNodes optWordNodes
  optArithNodes

@[simp] theorem good_word {v : View} {ps : List WordPart} :
    (Word.mk ps).nodes.All v.Good ↔ AllOf v.Good (partNodes ps) := by
  simp [Word.nodes]

section Arithmetic

variable {v : View} {parts parts' : PartsReader}

def ArithToken.Good (v : View) : ArithToken → Prop
  | .operand w _ => w.nodes.All v.Good
  | _ => True

theorem reads_arithToken (p : Position) (c : Char) (cs : List Char)
    (h : PartsReader.Agree v parts parts' (cs.length + 1)) :
    Reads v (arithToken v.setting parts p c cs) (arithToken v.setting parts' p c cs) (fun r => r.2 <:+ cs)
      fun r => ∀ t ∈ r.1, t.Good v := by
  unfold arithToken
  have hnone : ∀ t ∈ (none : Option ArithToken), t.Good v := fun _ h => nomatch h
  refine .ite (.pure (List.suffix_refl _) hnone) (.ite (.pure (List.drop_suffix _ _) hnone) ?_)
  refine .ite (.pure (List.suffix_refl _) ?_) (.ite (.pure (List.suffix_refl _) ?_) ?_)
  · rintro _ ⟨⟩
    trivial
  · rintro _ ⟨⟩
    trivial
  cases hop : arithOpAt (c :: cs) with
  | some op =>
      refine .pure ?_ ?_
      · obtain ⟨k, hk⟩ := Nat.exists_eq_succ_of_ne_zero (Nat.ne_of_gt (arithOp_length_pos op))
        rw [hk]
        exact List.drop_suffix k cs
      · rintro _ ⟨⟩
        trivial
  | none =>
      have hrest := operandRest_suffix (d := v.setting.dialect) (cs.length + 2) (c :: cs)
      dsimp only
      generalize operandRest v.setting.dialect (cs.length + 2) (c :: cs) = rest at hrest ⊢
      split
      · exact .report (.pure (List.suffix_refl _) hnone)
      · rename_i htaken
        refine (h .arith p _ (between_length_le _ _)).bind fun ps _ => .pure ?_ ?_
        · rcases List.suffix_cons_iff.mp hrest with rfl | hrest
          · simp [between] at htaken
          · exact hrest
        · rintro hps _ ⟨⟩
          exact good_word.mpr hps

theorem builds_arithTokens {k : Nat} (h : PartsReader.Agree v parts parts' k) : ∀ n n' p cs, cs.length ≤ k →
    cs.length < n → cs.length < n' →
    Builds v (arithTokens v.setting parts n p cs) (arithTokens v.setting parts' n' p cs) fun ts => ∀ t ∈ ts, t.Good v
  | n + 1, n' + 1, p, [], _, _, _ => .pure trivial (List.forall_mem_nil _)
  | n + 1, n' + 1, p, c :: cs, hk, hn, hn' => by
      rw [List.length_cons] at hk hn hn'
      refine (reads_arithToken p c cs (h.mono hk)).bind fun r hr => ?_
      have hlen := hr.length_le
      refine (builds_arithTokens h n n' _ r.2 (by omega) (by omega) (by omega)).bind fun ts _ => .pure trivial ?_
      intro hts ht t hmem
      rcases List.mem_append.mp hmem with hmem | hmem
      · exact ht t (Option.mem_toList.mp hmem)
      · exact hts t hmem

-- Two runs on the same tokens. The operands that are left are those that there were.
def Combines {α : Type} (v : View) (m m' : ArithReading α) (ts : List ArithToken) (U : α → List ArithToken → Prop)
    (P : α → Prop) : Prop :=
  Reads v (m.run ts) (m'.run ts) (fun r => U r.1 r.2) fun r => (∀ t ∈ ts, t.Good v) → P r.1 ∧ ∀ t ∈ r.2, t.Good v

namespace Combines

variable {α β : Type} {m m' : ArithReading α} {ts : List ArithToken} {U : α → List ArithToken → Prop} {P : α → Prop}
  {U' : β → List ArithToken → Prop} {P' : β → Prop}

theorem pure {a : α} (hu : U a ts) (hp : P a) : Combines v (Pure.pure a) (Pure.pure a) ts U P :=
  Reads.pure hu fun hts => ⟨hp, hts⟩

theorem bind {f f' : α → ArithReading β} (hm : Combines v m m' ts U P)
    (hf : ∀ a ts', U a ts' → Combines v (f a) (f' a) ts' U' fun b => P a → P' b) :
    Combines v (m >>= f) (m' >>= f') ts U' P' := by
  refine Reads.bind hm fun r hr => (hf r.1 r.2 hr).mono (fun _ => id) fun b hb hgood hts => ?_
  obtain ⟨hp, hrest⟩ := hgood hts
  exact ⟨(hb hrest).1 hp, (hb hrest).2⟩

theorem mono {U₁ : α → List ArithToken → Prop} {P₁ : α → Prop} (h : Combines v m m' ts U P)
    (hu : ∀ a ts', U a ts' → U₁ a ts') (hp : ∀ a, P a → P₁ a) : Combines v m m' ts U₁ P₁ :=
  Reads.mono h (fun r => hu r.1 r.2) fun _ h hts => ⟨hp _ (h hts).1, (h hts).2⟩

theorem imp {H : Prop} (h : Combines v m m' ts U P) : Combines v m m' ts U fun a => H → P a :=
  h.mono (fun _ _ => id) fun _ ha _ => ha

theorem ite {c : Prop} [Decidable c] {n n' : ArithReading α} (h : Combines v m m' ts U P) (h' : Combines v n n' ts U P) :
    Combines v (if c then m else n) (if c then m' else n') ts U P := by
  split <;> assumption

theorem peek {f f' : List ArithToken → ArithReading α} (hf : Combines v (f ts) (f' ts) ts U P) :
    Combines v (get >>= f) (get >>= f') ts U P := hf

-- On with some of the tokens.
theorem put {ts' : List ArithToken} {f f' : PUnit → ArithReading α} (hsub : ∀ t ∈ ts', t ∈ ts)
    (hf : Combines v (f ⟨⟩) (f' ⟨⟩) ts' U P) : Combines v (set ts' >>= f) (set ts' >>= f') ts U P :=
  Reads.mono hf (fun _ => id) fun _ h hts => h fun t ht => hts t (hsub t ht)

theorem report {stop : Position} {t : Option ArithToken} {message : String} {f f' : Unit → ArithReading α}
    (hf : Combines v (f ()) (f' ()) ts U P) :
    Combines v (arithReport v.setting stop t message >>= f) (arithReport v.setting stop t message >>= f') ts U P := by
  unfold Combines
  change Reads v (v.setting.report _ message >>= fun u => (f u).run ts)
    (v.setting.report _ message >>= fun u => (f' u).run ts) _ _
  exact Reads.report hf

-- The tokens that there are may be used.
theorem given (h : Combines v m m' ts U fun a => (∀ t ∈ ts, t.Good v) → P a) : Combines v m m' ts U P :=
  Reads.mono h (fun _ => id) fun _ h hts => ⟨(h hts).1 hts, (h hts).2⟩

end Combines

-- What is left is no more than there was.
abbrev Shrinks {α : Type} (ts : List ArithToken) (_ : α) (rest : List ArithToken) : Prop := rest.length ≤ ts.length

theorem good_noOperand : noOperand.nodes.All v.Good := by
  simp [noOperand, Word.empty]

theorem mem_of_cons {t : ArithToken} {ts : List ArithToken} : ∀ u ∈ ts, u ∈ t :: ts := fun _ => List.mem_cons_of_mem t

-- A sign takes its token.
theorem combines_sign? (ts : List ArithToken) :
    Combines v sign? sign? ts (fun r rest => rest.length + r.toList.length ≤ ts.length) fun _ => True := by
  refine .peek ?_
  split
  · refine .ite (.put mem_of_cons (.pure ?_ trivial)) (.pure ?_ trivial)
    · simp
    · simp
  · exact .pure (by simp) trivial

theorem combines_step? (ts : List ArithToken) :
    Combines v step? step? ts (fun r rest => rest.length + r.toList.length ≤ ts.length) fun _ => True := by
  refine .peek ?_
  split
  · exact .put mem_of_cons (.pure (by simp) trivial)
  · exact .put mem_of_cons (.pure (by simp) trivial)
  · exact .pure (by simp) trivial

theorem combines_listFor {α : Type} {turn : ArithReading (Option α)}
    (h : ∀ ts, Combines v turn turn ts (fun r rest => rest.length + r.toList.length ≤ ts.length) fun _ => True) :
    ∀ n ts, Combines v (listFor turn n) (listFor turn n) ts (Shrinks ts) fun _ => True
  | 0, _ => .pure (Nat.le_refl _) trivial
  | n + 1, ts => by
      refine (h ts).bind fun r rest hr => .imp ?_
      cases r with
      | none => exact .pure hr trivial
      | some a =>
          refine (combines_listFor h n rest).bind fun as rest' hrest' => .pure ?_ fun _ => trivial
          simp only [Option.toList_some, List.length_cons] at hr
          exact Nat.le_trans hrest' (by omega)

section Expressions

variable {stop : Position} {expr expr' : Nat → ArithReading ArithExpr} {ts : List ArithToken}

-- Readers of expressions that are the same on fewer tokens.
def AgreeBelow (v : View) (expr expr' : Nat → ArithReading ArithExpr) (k : Nat) : Prop :=
  ∀ least ts, ts.length < k → Combines v (expr least) (expr' least) ts (Shrinks ts)
    fun x => x.nodes.All v.Good

theorem combines_arithPrimary (h : AgreeBelow v expr expr' ts.length) :
    Combines v (arithPrimary v.setting stop expr) (arithPrimary v.setting stop expr') ts (Shrinks ts)
    fun x => x.nodes.All v.Good := by
  refine .peek ?_
  cases ts with
  | nil => exact .report (.pure (Nat.le_refl _) good_noOperand)
  | cons t rest =>
      have hlt : rest.length < (t :: rest).length := Nat.lt_succ_self _
      cases t with
      | lparen p =>
          refine .put mem_of_cons ((h 0 rest hlt).bind fun x rest' hrest' => .peek ?_)
          have hparen : x.nodes.All v.Good → (ArithExpr.paren p x).nodes.All v.Good := fun hx => by simpa using hx
          have hle : rest'.length ≤ (ArithToken.lparen p :: rest).length := Nat.le_succ_of_le hrest'
          split
          · exact .put mem_of_cons (.pure (Nat.le_trans (Nat.le_succ _) hle) hparen)
          · exact .report (.pure hle hparen)
      | operand w p =>
          refine .given (.put mem_of_cons (.pure (Nat.le_of_lt hlt) fun hgood => ?_))
          have hw : w.nodes.All v.Good := hgood _ List.mem_cons_self
          simpa using hw
      | op o p => exact .report (.put mem_of_cons (.pure (Nat.le_of_lt hlt) good_noOperand))
      | rparen p => exact .report (.put mem_of_cons (.pure (Nat.le_of_lt hlt) good_noOperand))

theorem good_steps {x : ArithExpr} (hx : x.nodes.All v.Good) (post : Bool) (ops : List (ArithOp × Position)) :
    (ops.foldl (fun x (op, p) => ArithExpr.unary p op post x) x).nodes.All v.Good := by
  induction ops generalizing x with
  | nil => exact hx
  | cons o ops ih => exact ih (by simpa using hx)

theorem good_signs {x : ArithExpr} (hx : x.nodes.All v.Good) (post : Bool) (ops : List (ArithOp × Position)) :
    (ops.foldr (fun (op, p) x => ArithExpr.unary p op post x) x).nodes.All v.Good := by
  induction ops with
  | nil => exact hx
  | cons o ops ih => simpa using ih

theorem combines_arithOperand (h : AgreeBelow v expr expr' ts.length) :
    Combines v (arithOperand v.setting stop expr) (arithOperand v.setting stop expr') ts (Shrinks ts)
    fun x => x.nodes.All v.Good := by
  refine .peek ((combines_listFor combines_sign? _ ts).bind fun signs rest hrest => .imp ?_)
  have hbelow : AgreeBelow v expr expr' rest.length := fun least ts' hlt => h least ts' (Nat.lt_of_lt_of_le hlt hrest)
  refine (combines_arithPrimary hbelow).bind fun x rest₁ hrest₁ => .peek ?_
  refine (combines_listFor combines_step? _ rest₁).bind fun steps rest₂ hrest₂ => .pure ?_ fun _ hx => ?_
  · exact Nat.le_trans hrest₂ (Nat.le_trans hrest₁ hrest)
  · exact good_signs (good_steps hx true steps) false signs

-- An operator that is read takes its token.
theorem combines_arithTurn (least : Nat) (x : ArithExpr) (h : AgreeBelow v expr expr' ts.length) :
    Combines v (arithTurn v.setting stop expr least x) (arithTurn v.setting stop expr' least x) ts
      (fun r rest => rest.length ≤ ts.length ∧ (r.isLeft = true → rest.length < ts.length))
      fun r => x.nodes.All v.Good → (r.elim id id).nodes.All v.Good := by
  have hend : Combines v (Pure.pure (.inr x)) (Pure.pure (.inr x)) ts
      (fun (r : ArithExpr ⊕ ArithExpr) rest => rest.length ≤ ts.length ∧ (r.isLeft = true → rest.length < ts.length))
      fun r => x.nodes.All v.Good → (r.elim id id).nodes.All v.Good :=
    .pure ⟨Nat.le_refl _, nofun⟩ id
  refine .peek ?_
  split
  · rename_i op p rest
    have hlt : rest.length < (ArithToken.op op p :: rest).length := Nat.lt_succ_self _
    extract_lets prec
    refine .ite hend (.put mem_of_cons (.ite ?_ ?_))
    · refine (h _ rest hlt).bind fun yes rest₁ hrest₁ => .peek ?_
      have hlt₁ : rest₁.length < (ArithToken.op op p :: rest).length := Nat.lt_of_le_of_lt hrest₁ hlt
      split
      · refine .put mem_of_cons ?_
        refine (h _ _ (Nat.lt_of_succ_lt hlt₁)).bind fun no rest₂ hrest₂ => .pure ?_ ?_
        · have hlt₂ := Nat.lt_of_le_of_lt hrest₂ (Nat.lt_of_succ_lt hlt₁)
          exact ⟨Nat.le_of_lt hlt₂, fun _ => hlt₂⟩
        · intro hno hyes hx
          simp [hx, hyes, hno]
      · refine .report (.pure ⟨Nat.le_of_lt hlt₁, nofun⟩ fun hyes hx => ?_)
        simp [hx, hyes]
    · refine (h _ rest hlt).bind fun y rest₁ hrest₁ => .pure ?_ fun hy hx => ?_
      · have hlt₁ := Nat.lt_of_le_of_lt hrest₁ hlt
        exact ⟨Nat.le_of_lt hlt₁, fun _ => hlt₁⟩
      · simp [hx, hy]
  · exact hend

theorem combines_arithTail (least : Nat) : ∀ n n' x ts, AgreeBelow v expr expr' ts.length → ts.length < n → ts.length < n' →
    Combines v (arithTail v.setting stop expr least n x) (arithTail v.setting stop expr' least n' x) ts (Shrinks ts)
      fun y => x.nodes.All v.Good → y.nodes.All v.Good
  | n + 1, n' + 1, x, ts, h, hn, hn' => by
      refine (combines_arithTurn least x h).bind fun r rest hrest => ?_
      cases r with
      | inl y =>
          have hlt := hrest.2 rfl
          refine (combines_arithTail least n n' y rest (fun l us hus => h l us (Nat.lt_trans hus hlt)) (by omega)
            (by omega)).mono (fun _ _ hle => Nat.le_trans hle hrest.1) fun z hz hy hx => hz (hy hx)
      | inr y => exact .pure hrest.1 id

end Expressions

-- Any depth above the number of tokens will do.
theorem combines_arithExpr (stop : Position) : ∀ n n' least ts, ts.length < n → ts.length < n' →
    Combines v (arithExpr v.setting stop n least) (arithExpr v.setting stop n' least) ts (Shrinks ts)
      fun x => x.nodes.All v.Good
  | n + 1, n' + 1, least, ts, hn, hn' => by
      have hbelow : AgreeBelow v (arithExpr v.setting stop n) (arithExpr v.setting stop n') ts.length :=
        fun l us hus => combines_arithExpr stop n n' l us (by omega) (by omega)
      refine (combines_arithOperand hbelow).bind fun x rest hrest => .peek ?_
      refine (combines_arithTail least (rest.length + 1) (rest.length + 1) x rest
        (fun l us hus => hbelow l us (Nat.lt_of_lt_of_le hus hrest)) (Nat.lt_succ_self _) (Nat.lt_succ_self _)).mono ?_ ?_
      · exact fun _ _ hle => Nat.le_trans hle hrest
      · exact fun _ => id

theorem builds_arithText {k : Nat} (h : PartsReader.Agree v parts parts' k) (p : Position) (cs : List Char)
    (hk : cs.length ≤ k) :
    Builds v (arithText v.setting parts p cs) (arithText v.setting parts' p cs) fun x => AllOf v.Good (optArithNodes x) := by
  refine (builds_arithTokens h _ _ _ _ hk (Nat.lt_succ_self _) (Nat.lt_succ_self _)).bind fun ts _ => .ite ?_ ?_
  · exact .pure trivial fun _ => by simp
  · refine Reads.bind (combines_arithExpr _ _ _ 0 ts (Nat.lt_succ_self _) (Nat.lt_succ_self _)) ?_
    rintro ⟨x, rest⟩ -
    have hresult : ((∀ t ∈ ts, t.Good v) → x.nodes.All v.Good ∧ ∀ t ∈ rest, t.Good v) → (∀ t ∈ ts, t.Good v) →
        AllOf v.Good (optArithNodes (some x)) := fun hx hts => by simpa using (hx hts).1
    cases rest with
    | nil => exact .pure trivial hresult
    | cons t rest => exact .report (.pure trivial hresult)

end Arithmetic

section Words

variable {v : View} {nested nested' : Nested} {parts parts' : PartsReader}

def Gathered.Good (v : View) (g : Gathered) : Prop := AllOf v.Good (partNodes g.out)

namespace Gathered

variable {g : Gathered}

theorem Good.addLit (h : g.Good v) (p : Position) (cs : List Char) : (g.addLit p cs).Good v := h

theorem Good.flush (h : g.Good v) : g.flush.Good v := by
  unfold Gathered.flush
  split
  · exact h
  · exact allOf_cons.mpr ⟨by simp, h⟩

theorem Good.addPart (h : g.Good v) {x : WordPart} (hx : x.nodes.All v.Good) : (g.addPart x).Good v :=
  allOf_cons.mpr ⟨hx, h.flush⟩

theorem Good.finish (h : g.Good v) : AllOf v.Good (partNodes g.finish) := by
  have hout := h.flush
  unfold Good at hout
  rw [partNodes_eq] at hout ⊢
  rwa [Gathered.finish, List.map_reverse, allOf_reverse]

end Gathered

theorem builds_paramArgs {k : Nat} (h : PartsReader.Agree v parts parts' k) (op : ParamOp) (p : Position) {cs : List Char}
    (hk : cs.length ≤ k) :
    Builds v (paramArgs v.setting parts op p cs) (paramArgs v.setting parts' op p cs) fun r =>
      r.1.nodes.All v.Good ∧ AllOf v.Good (optWordNodes r.2) := by
  have hone : ∀ mode, Builds v (do return ((⟨← parts mode p cs⟩, none) : Word × Option Word))
      (do return (⟨← parts' mode p cs⟩, none)) fun r => r.1.nodes.All v.Good ∧ AllOf v.Good (optWordNodes r.2) :=
    fun mode => (h mode p cs hk).bind fun ps _ => .pure trivial fun hps => ⟨good_word.mpr hps, by simp⟩
  unfold paramArgs
  extract_lets two two'
  have htwo : ∀ mode sep, Builds v (two mode sep) (two' mode sep) fun r =>
      r.1.nodes.All v.Good ∧ AllOf v.Good (optWordNodes r.2) := by
    intro mode sep
    dsimp only [two, two']
    split
    · rename_i a b hsplit
      have hlen := congrArg List.length (splitTop?_eq hsplit)
      simp only [List.length_append, List.length_cons] at hlen
      refine (h _ _ a (by omega)).bind fun x _ => (h _ _ b (by omega)).bind fun y _ => .pure trivial ?_
      exact fun hy hx => ⟨good_word.mpr hx, by simpa using hy⟩
    · exact hone mode
  split
  · exact htwo _ _
  · exact htwo _ _
  · exact htwo _ _
  · exact htwo _ _
  · exact htwo _ _
  · exact hone _

theorem builds_paramExp {k : Nat} (h : PartsReader.Agree v parts parts' k) (dollar p : Position) {cs : List Char}
    (hk : cs.length ≤ k) :
    Builds v (paramExp v.setting parts dollar p cs) (paramExp v.setting parts' dollar p cs) fun x =>
      AllOf v.Good (paramNodes x) := by
  have hbraced : ∀ name length indirect, AllOf v.Good (paramNodes (.braced name length indirect)) := fun _ _ _ => by
    simp [paramNodes_eq, ParamExp.braced, ParamExp.ofName]
  have hmarks := (paramMarks_suffix cs).length_le
  unfold paramExp
  generalize paramMarks cs = marks at hmarks ⊢
  obtain ⟨length, indirect, named⟩ := marks
  dsimp -zeta only at hmarks ⊢
  extract_lets p₁ after after'
  have hafter : ∀ (x : ParamExp) (p : Position) (rest : List Char), rest.length ≤ named.length →
      Builds v (after (x, p, rest)) (after' (x, p, rest)) fun y => AllOf v.Good (paramNodes x) → AllOf v.Good (paramNodes y) := by
    intro x p rest hlen
    refine .ite (.pure trivial id) (.ite (.report (.pure trivial id)) ?_)
    split
    · exact .report (.pure trivial id)
    · rename_i op _
      have hdrop := (List.drop_suffix op.text.length rest).length_le
      refine (builds_paramArgs h op _ (Nat.le_trans hdrop (by omega))).bind fun r _ => .pure trivial fun hr hx => ?_
      rw [paramNodes_eq, allOf_append, allOf_append] at hx ⊢
      exact ⟨⟨hx.1.1, by simpa using hr.1⟩, hr.2⟩
  split
  · exact .report (.pure trivial (hbraced _ _ _))
  · rename_i name rest hname
    have hlen := congrArg List.length (paramName?_eq hname)
    rw [List.length_append] at hlen
    extract_lets x p₂ isWordName
    have hx : AllOf v.Good (paramNodes x) := hbraced _ _ _
    refine .ite (.pure trivial (hbraced (String.ofList name) length indirect)) ?_
    have hplain : Builds v (after (x, p₂, rest)) (after' (x, p₂, rest)) fun x => AllOf v.Good (paramNodes x) :=
      (hafter x p₂ rest (by omega)).mono (fun _ => id) fun _ hy => hy hx
    split
    · split
      · rename_i inner index rest' hbracket
        have hbrackets := congrArg List.length (matchBracket?_eq hbracket)
        simp only [List.length_append, List.length_cons] at hbrackets hlen
        refine (h _ _ index (by omega)).bind fun ps _ => ?_
        refine (hafter _ _ rest' (by omega)).mono (fun _ => id) fun _ hy hps => hy ?_
        simp [paramNodes_eq, x, ParamExp.braced, ParamExp.ofName, hps]
      · exact hplain
    · exact hplain

-- A part that begins in a text, and what follows it there.
def EndsIn (cs : List Char) (r : Option (WordPart × List Char)) : Prop := ∀ x rest, r = some (x, rest) → rest <:+ cs

def GoodPart (v : View) (r : Option (WordPart × List Char)) : Prop := ∀ x rest, r = some (x, rest) → x.nodes.All v.Good

theorem reads_somePart {cs rest : List Char} {x : WordPart} (hrest : rest <:+ cs) (hx : x.nodes.All v.Good) :
    Reads v (pure (some (x, rest))) (pure (some (x, rest))) (EndsIn cs) (GoodPart v) := by
  refine .pure ?_ ?_
  · rintro _ _ ⟨⟩
    exact hrest
  · rintro _ _ ⟨⟩
    exact hx

theorem reads_partOf {A : Prop} {cs rest : List Char} {x : WordPart} (hrest : rest <:+ cs) (hx : A → x.nodes.All v.Good) :
    Reads v (pure (some (x, rest))) (pure (some (x, rest))) (EndsIn cs) fun r => A → GoodPart v r := by
  refine .pure ?_ fun ha => ?_
  · rintro _ _ ⟨⟩
    exact hrest
  · rintro _ _ ⟨⟩
    exact hx ha

theorem reads_dollar {k : Nat} (mode : Mode) (p : Position) (cs : List Char) (h : Nested.Agree v nested nested' k)
    (hk : cs.length < k) :
    Reads v (dollar v.setting nested mode p cs) (dollar v.setting nested' mode p cs) (EndsIn cs) (GoodPart v) := by
  have hname : ∀ name, (WordPart.param p (.ofName name)).nodes.All v.Good := fun name => by
    simp [paramNodes_eq, ParamExp.ofName]
  unfold dollar
  extract_lets p₁
  split
  · rename_i rest
    rw [List.length_cons] at hk
    extract_lets arith
    have harith : ∀ inner after, arith = some (inner, after) → rest = '(' :: inner ∧
        Construct.closeArith v.setting.dialect ('(' :: rest) = .ok after := by
      intro inner after ha
      dsimp only [arith] at ha
      split at ha
      · cases hclose : Construct.closeArith v.setting.dialect ('(' :: '(' :: _) with
        | error e =>
            rw [hclose] at ha
            cases ha
        | ok after =>
            rw [hclose] at ha
            cases ha
            exact ⟨rfl, rfl⟩
      · cases ha
    clear_value arith
    cases arith with
    | none =>
        have hinside := inside_length_le (Construct.closeParens v.setting.dialect ('(' :: rest)) rest 1
        refine (h.block _ _ (Nat.lt_of_le_of_lt hinside (Nat.lt_of_succ_lt hk))).bind fun b _ => reads_partOf ?_ fun hb => ?_
        · exact (inside_suffix (closes_parens v.setting.dialect rest)).trans (List.suffix_cons _ _)
        · simpa [and_comm] using hb
    | some text =>
        obtain ⟨inner, after⟩ := text
        obtain ⟨rfl, hclose⟩ := harith inner after rfl
        rw [List.length_cons] at hk
        have htaken := (List.take_prefix (inner.length - after.length - 2) inner).length_le
        refine (builds_arithText (h.of_lt (Nat.lt_of_succ_lt hk)) _ _ (by omega)).bind fun x _ => reads_partOf ?_ fun hx => ?_
        · exact ((arith_rest_suffix hclose).trans (List.suffix_cons _ _)).trans (List.suffix_cons _ _)
        · simpa using hx
  · rename_i rest
    rw [List.length_cons] at hk
    have hinside := inside_length_le (Construct.closeExpansion v.setting.dialect false ('\x7b' :: rest)) rest 1
    refine (builds_paramExp (h.of_lt (Nat.lt_of_succ_lt hk)) _ _ hinside).bind fun x _ => reads_partOf ?_ fun hx => ?_
    · exact (inside_suffix (closes_param v.setting.dialect rest)).trans (List.suffix_cons _ _)
    · simpa using hx
  · rename_i c rest _ _
    rw [List.length_cons] at hk
    refine .ite (reads_somePart ?_ (by simp)) (.ite ?_ (.ite (reads_somePart ?_ (hname _)) ?_))
    · exact (inside_suffix (closes_ansi 0 rest)).trans (List.suffix_cons _ _)
    · have hinside := inside_length_le (Construct.closeDouble v.setting.dialect rest) rest 1
      refine (h.parts _ _ _ (Nat.lt_of_le_of_lt hinside (Nat.lt_of_succ_lt hk))).bind fun ps _ => reads_partOf ?_ fun hps => ?_
      · exact (inside_suffix (closes_double v.setting.dialect rest)).trans (List.suffix_cons _ _)
      · simpa using hps
    · exact ⟨_, span_append (c :: rest) Text.isNameChar⟩
    · exact .ite (reads_somePart (List.suffix_cons _ _) (hname _)) (.pure nofun nofun)
  · exact .pure nofun nofun

theorem good_sequenceWords : ∀ p es, AllOf v.Good (wordNodes (sequenceWords p es))
  | _, [] => by simp [sequenceWords]
  | p, e :: es => by simp [sequenceWords, good_sequenceWords _ es]

theorem builds_braceWords {k : Nat} (h : PartsReader.Agree v parts parts' k) : ∀ p es, (∀ e ∈ es, e.length ≤ k) →
    Builds v (braceWords parts p es) (braceWords parts' p es) fun ws => AllOf v.Good (wordNodes ws)
  | _, [], _ => .pure trivial (by simp)
  | p, e :: es, hes => by
      obtain ⟨he, hes⟩ := List.forall_mem_cons.mp hes
      refine (h _ p e he).bind fun ps _ => (builds_braceWords h _ es hes).bind fun ws _ => .pure trivial ?_
      exact fun hws hps => by simp [hps, hws]

theorem reads_brace {k : Nat} (p : Position) (cs : List Char) (h : Nested.Agree v nested nested' k) (hk : cs.length < k) :
    Reads v (brace v.setting nested p cs) (brace v.setting nested' p cs) (EndsIn cs) (GoodPart v) := by
  have hafter : ∀ {pieces after}, braceList? v.setting.dialect cs = some (pieces, after) →
      after <:+ cs ∧ ∀ e ∈ pieces, e.length < k := by
    intro pieces after hlist
    have heq := braceList?_eq hlist
    have hlen := congrArg List.length heq
    rw [List.length_append, List.length_cons] at hlen
    refine ⟨Construct.suffix_of_eq ['\x7d'] heq, fun e he => ?_⟩
    have hle : e.length ≤ ([','].intercalate pieces).length := length_le_intercalate he
    omega
  unfold brace
  extract_lets first
  split
  · rename_i text after hlist
    split
    · exact reads_somePart (hafter hlist).1 (by simp [good_sequenceWords])
    · exact .pure nofun nofun
  · rename_i pieces after _ hlist
    obtain ⟨hrest, hpieces⟩ := hafter hlist
    cases k with
    | zero => omega
    | succ k =>
        refine (builds_braceWords (h.of_lt (Nat.lt_succ_self k)) _ _ fun e he => Nat.le_of_lt_succ (hpieces e he)).bind ?_
        exact fun ws _ => reads_partOf hrest fun hws => by simpa using hws
  · exact .pure nofun nofun

-- What a part adds to those before.
theorem reads_partAt {k : Nat} (mode : Mode) (first : Bool) (g : Gathered) (p : Position) (c : Char) (cs : List Char)
    (h : Nested.Agree v nested nested' k) (hk : cs.length < k) :
    Reads v (partAt v.setting nested mode first g p c cs) (partAt v.setting nested' mode first g p c cs)
      (fun r => r.2 <:+ cs) fun r => g.Good v → r.1.Good v := by
  have hlit : ∀ (taken rest : List Char), rest <:+ cs → Reads v (pure (g.addLit p taken, rest)) (pure (g.addLit p taken, rest))
      (fun r : Gathered × List Char => r.2 <:+ cs) fun r => g.Good v → r.1.Good v :=
    fun taken rest hrest => .pure hrest fun hg => hg.addLit p taken
  have hpart : ∀ {A : Prop} (x : WordPart) (rest : List Char), rest <:+ cs → (A → x.nodes.All v.Good) →
      Reads v (pure (g.addPart x, rest)) (pure (g.addPart x, rest)) (fun r : Gathered × List Char => r.2 <:+ cs)
        fun r => A → g.Good v → r.1.Good v :=
    fun x rest hrest hx => .pure hrest fun ha hg => hg.addPart (hx ha)
  -- an expansion or a list is read as a part, or is plain text
  have hfound : ∀ f : Option (WordPart × List Char) → Reading (Gathered × List Char),
      (∀ found, f (some found) = pure (g.addPart found.1, found.2)) → f none = pure (g.addLit p [c], cs) →
      ∀ r, EndsIn cs r → Reads v (f r) (f r) (fun a => a.2 <:+ cs) fun a => GoodPart v r → g.Good v → a.1.Good v := by
    intro f hsome hnone r hr
    cases r with
    | none =>
        rw [hnone]
        exact (hlit [c] cs (List.suffix_refl _)).imp
    | some found =>
        rw [hsome]
        exact hpart found.1 found.2 (hr _ _ rfl) fun hx => hx _ _ rfl
  unfold partAt
  extract_lets plain
  refine .ite (hlit _ _ (List.drop_suffix 1 cs)) (.ite ?_ (.ite ?_ (.ite ?_ (.ite ?_ (.ite ?_ ?_)))))
  · exact .pure (inside_suffix (closes_single 0 cs)) fun hg => hg.addPart (by simp)
  · have hinside := inside_length_le (Construct.closeDouble v.setting.dialect cs) cs 1
    refine (h.parts _ _ _ (Nat.lt_of_le_of_lt hinside hk)).bind fun ps _ => hpart _ _ ?_ fun hps => ?_
    · exact inside_suffix (closes_double v.setting.dialect cs)
    · simpa using hps
  · have hinside := inside_length_le (Construct.closeBackquote 0 cs) cs 1
    have hbody := unescapeBackquote_length_le (mode == .double) (inside (Construct.closeBackquote 0 cs) cs 1).1
    have hlen := Nat.lt_of_le_of_lt (Nat.le_trans hbody hinside) hk
    refine (h.block _ _ hlen).bind fun b _ => hpart _ _ ?_ fun hb => ?_
    · exact inside_suffix (closes_backquote 0 cs)
    · simpa [and_comm] using hb
  · exact (reads_dollar mode p cs h hk).bind (hfound _ (fun _ => rfl) rfl)
  · exact (reads_brace p cs h hk).bind (hfound _ (fun _ => rfl) rfl)
  · split
    · rename_i hopen
      simp only [Bool.and_eq_true, beq_iff_eq, List.head?_eq_some_iff] at hopen
      obtain ⟨rest, rfl⟩ := hopen.2
      rw [List.length_cons] at hk
      have hinside := inside_length_le (Construct.closeParens v.setting.dialect ('(' :: rest)) rest 1
      have hlen := Nat.lt_of_le_of_lt hinside (Nat.lt_of_succ_lt hk)
      refine (h.block _ _ hlen).bind fun b _ => hpart _ _ ?_ fun hb => ?_
      · exact (inside_suffix (closes_parens v.setting.dialect rest)).trans (List.suffix_cons _ _)
      · simpa [and_comm] using hb
    · exact hlit [c] cs (List.suffix_refl _)

theorem builds_partsFrom {k : Nat} (mode : Mode) (h : Nested.Agree v nested nested' k) :
    ∀ n n' first g p cs, cs.length ≤ k → cs.length < n → cs.length < n' →
    Builds v (partsFrom v.setting nested mode n first g p cs) (partsFrom v.setting nested' mode n' first g p cs) fun ps =>
      g.Good v → AllOf v.Good (partNodes ps)
  | n + 1, n' + 1, first, g, p, [], _, _, _ => .pure trivial fun hg => hg.finish
  | n + 1, n' + 1, first, g, p, c :: cs, hk, hn, hn' => by
      rw [List.length_cons] at hk hn hn'
      refine (reads_partAt mode first g p c cs h hk).bind fun r hr => ?_
      have hlen := hr.length_le
      refine (builds_partsFrom mode h n n' false r.1 _ r.2 (by omega) (by omega) (by omega)).mono (fun _ => id) ?_
      exact fun ps hps hr hg => hps (hr hg)

-- A text is read with the readers of shorter texts.
theorem builds_parts {k : Nat} (h : Nested.Agree v nested nested' k) :
    PartsReader.Agree v (Read.parts v.setting nested) (Read.parts v.setting nested') k := fun mode p cs hk =>
  (builds_partsFrom mode h _ _ _ _ _ _ hk (Nat.lt_succ_self _) (Nat.lt_succ_self _)).mono (fun _ => id) fun _ hps =>
    hps (by simp [Gathered.Good])

end Words

end Read
end Script
end ShellScript

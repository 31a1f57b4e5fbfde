import ShellScript.Proofs.Token.Layout
import ShellScript.Script.Read

-- Arithmetic that is read without an error. The tree has the tokens of the text, in their order, and its operators bind as
-- the table of precedences has it.
namespace ShellScript
namespace Script

namespace ArithOp

-- The operators between operands, those that bind least first. A row says whether what stands on the right may be another
-- one of the row, instead of what stands on the left.
def table : List (Bool × List ArithOp) :=
  [(false, [.comma]),
    (true, [.assign, .addAssign, .subAssign, .mulAssign, .quoAssign, .remAssign, .shlAssign, .shrAssign, .andAssign,
      .orAssign, .xorAssign]),
    (true, [.quest]), (false, [.lor]), (false, [.land]), (false, [.or]), (false, [.xor]), (false, [.and]),
    (false, [.eql, .neq]), (false, [.lss, .leq, .gtr, .geq]), (false, [.shl, .shr]), (false, [.add, .sub]),
    (false, [.mul, .quo, .rem]), (true, [.pow])]

-- The number of its row.
def rank (op : ArithOp) : Nat := table.findIdx (·.2.contains op) + 1

def Joins (op : ArithOp) : Prop := ∃ row ∈ table, op ∈ row.2

def GroupsRight (op : ArithOp) : Prop := ∃ row ∈ table, row.1 = true ∧ op ∈ row.2

instance (op : ArithOp) : Decidable op.Joins := inferInstanceAs (Decidable (∃ row ∈ table, op ∈ row.2))

instance (op : ArithOp) : Decidable op.GroupsRight := inferInstanceAs (Decidable (∃ row ∈ table, row.1 = true ∧ op ∈ row.2))

theorem precedence_lt (op : ArithOp) : op.precedence < 15 := by
  cases op <;> decide

-- The precedences number the rows.
theorem precedence_eq (op : ArithOp) : op.precedence = if op.Joins then op.rank else 0 := by
  cases op <;> decide

theorem groupsRight_iff (op : ArithOp) : op.GroupsRight ↔ (op.isAssign || op == .pow) = true ∨ op = .quest := by
  cases op <;> decide

-- The row tells how an operator groups.
theorem groupsRight_iff_precedence (op : ArithOp) :
    op.GroupsRight ↔ op.precedence = 2 ∨ op.precedence = 3 ∨ op.precedence = 14 := by
  cases op <;> decide

theorem groupsRight_congr {op op' : ArithOp} (h : op.precedence = op'.precedence) : op.GroupsRight ↔ op'.GroupsRight := by
  rw [groupsRight_iff_precedence, groupsRight_iff_precedence, h]

theorem joins_of_precedence {op : ArithOp} (h : 0 < op.precedence) : op.Joins ∧ op.precedence = op.rank := by
  have heq := op.precedence_eq
  by_cases hjoins : op.Joins
  · rw [if_pos hjoins] at heq
    exact ⟨hjoins, heq⟩
  · rw [if_neg hjoins] at heq
    omega

end ArithOp

namespace ArithExpr

-- How tightly the outermost operator of an expression binds: a sign before an operand more than what joins two, and a step
-- after it more than a sign.
def level : ArithExpr → Nat
  | .word _ | .paren _ _ => ArithOp.table.length + 3
  | .unary _ _ true _ => ArithOp.table.length + 2
  | .unary _ _ false _ => ArithOp.table.length + 1
  | .binary _ op _ _ => op.rank
  | .ternary _ _ _ => ArithOp.quest.rank

-- No operator of the expression has an operand that binds less than it should.
inductive Binds : ArithExpr → Prop
  | word (w : Word) : Binds (.word w)
  | paren {p : Position} {x : ArithExpr} (hx : Binds x) : Binds (.paren p x)
  | sign {p : Position} {op : ArithOp} {x : ArithExpr} (hop : op ∈ [.not, .bitNot, .add, .sub, .inc, .dec]) (hx : Binds x)
      (h : ArithOp.table.length + 1 ≤ x.level) : Binds (.unary p op false x)
  | step {p : Position} {op : ArithOp} {x : ArithExpr} (hop : op ∈ [.inc, .dec]) (hx : Binds x)
      (h : ArithOp.table.length + 2 ≤ x.level) : Binds (.unary p op true x)
  | left {p : Position} {op : ArithOp} {x y : ArithExpr} (hop : op.Joins) (hleft : ¬op.GroupsRight) (hx : Binds x)
      (hy : Binds y) (h : op.rank ≤ x.level) (h' : op.rank < y.level) : Binds (.binary p op x y)
  | right {p : Position} {op : ArithOp} {x y : ArithExpr} (hop : op ≠ .quest) (hright : op.GroupsRight) (hx : Binds x)
      (hy : Binds y) (h : op.rank < x.level) (h' : op.rank ≤ y.level) : Binds (.binary p op x y)
  | ternary {x yes no : ArithExpr} (hx : Binds x) (hyes : Binds yes) (hno : Binds no) (h : ArithOp.quest.rank < x.level)
      (h' : ArithOp.comma.rank < yes.level) (h'' : ArithOp.quest.rank ≤ no.level) : Binds (.ternary x yes (some no))

end ArithExpr

namespace Read

open Diagnostic (Harmless harmless_of_push)
open ArithExpr (Binds)

-- The tokens of an expression in their order.
inductive InOrder : ArithExpr → List ArithToken → Prop
  | word (w : Word) (p : Position) : InOrder (.word w) [.operand w p]
  | paren {p q : Position} {x : ArithExpr} {ts : List ArithToken} (h : InOrder x ts) :
      InOrder (.paren p x) (.lparen p :: ts ++ [ArithToken.rparen q])
  | sign {p : Position} {op : ArithOp} {x : ArithExpr} {ts : List ArithToken} (h : InOrder x ts) :
      InOrder (.unary p op false x) (.op op p :: ts)
  | step {p : Position} {op : ArithOp} {x : ArithExpr} {ts : List ArithToken} (h : InOrder x ts) :
      InOrder (.unary p op true x) (ts ++ [ArithToken.op op p])
  | binary {p : Position} {op : ArithOp} {x y : ArithExpr} {ts us : List ArithToken} (h : InOrder x ts) (h' : InOrder y us) :
      InOrder (.binary p op x y) (ts ++ .op op p :: us)
  | ternary {p q : Position} {x yes no : ArithExpr} {ts us vs : List ArithToken} (h : InOrder x ts) (h' : InOrder yes us)
      (h'' : InOrder no vs) : InOrder (.ternary x yes (some no)) (ts ++ .op .quest p :: us ++ .op .colon q :: vs)

theorem InOrder.length_pos {x : ArithExpr} {ts : List ArithToken} (h : InOrder x ts) : 0 < ts.length := by
  cases h <;> simp only [List.length_cons, List.length_append, List.length_nil] <;> omega

-- What a reader has reported stays.
def Adds {α : Type} (m : ArithReading α) : Prop := ∀ ts ds, Harmless ((m.run ts).run ds).2 → Harmless ds

-- What a reader makes of some tokens when nothing was wrong with them.
def Makes {α : Type} (m : ArithReading α) (ts : List ArithToken) (Q : α → List ArithToken → Prop) : Prop :=
  ∀ ds, Harmless ((m.run ts).run ds).2 → Q ((m.run ts).run ds).1.1 ((m.run ts).run ds).1.2

section Rules

variable {α β : Type} {s : Setting} {stop : Position} {m n : ArithReading α} {f : α → ArithReading β} {ts : List ArithToken}
  {Q R : α → List ArithToken → Prop} {Q' : β → List ArithToken → Prop}

theorem adds_pure (a : α) : Adds (pure a) := fun _ _ h => h

theorem adds_get : Adds get := fun _ _ h => h

theorem adds_set (us : List ArithToken) : Adds (set us) := fun _ _ h => h

theorem adds_report (t : Option ArithToken) (message : String) : Adds (arithReport s stop t message) :=
  fun _ _ h => (harmless_of_push h).1

theorem Adds.bind (hm : Adds m) (hf : ∀ a, Adds (f a)) : Adds (m >>= f) :=
  fun ts ds h => hm ts ds (hf _ _ _ h)

theorem Adds.ite {c : Prop} [Decidable c] (h : Adds m) (h' : Adds n) : Adds (if c then m else n) := by
  split
  · exact h
  · exact h'

theorem adds_listFor {turn : ArithReading (Option α)} (h : Adds turn) : ∀ n, Adds (listFor turn n)
  | 0 => adds_pure _
  | n + 1 => by
      refine h.bind fun r => ?_
      cases r with
      | none => exact adds_pure _
      | some a => exact (adds_listFor h n).bind fun as => adds_pure _

theorem makes_pure {a : α} (h : Q a ts) : Makes (pure a) ts Q := fun _ _ => h

theorem Makes.mono (h : Makes m ts Q) (hq : ∀ a us, Q a us → R a us) : Makes m ts R := fun ds hds => hq _ _ (h ds hds)

theorem Makes.bind (hm : Makes m ts Q) (hf : ∀ a, Adds (f a)) (hq : ∀ a us, Q a us → Makes (f a) us Q') :
    Makes (m >>= f) ts Q' :=
  fun ds h => hq _ _ (hm ds (hf _ _ _ h)) _ h

theorem Makes.peek {f : List ArithToken → ArithReading β} (h : Makes (f ts) ts Q') : Makes (get >>= f) ts Q' := h

theorem Makes.put {us : List ArithToken} {f : PUnit → ArithReading β} (h : Makes (f ⟨⟩) us Q') : Makes (set us >>= f) ts Q' := h

-- After a report there is nothing to be told.
theorem makes_report {t : Option ArithToken} {message : String} {f : Unit → ArithReading β} (hf : ∀ u, Adds (f u)) :
    Makes (arithReport s stop t message >>= f) ts Q' :=
  fun _ h => nomatch (harmless_of_push (hf _ _ _ h)).2

end Rules

section Reporting

variable {s : Setting} {stop : Position} {expr : Nat → ArithReading ArithExpr} {least : Nat}

theorem adds_sign? : Adds sign? := by
  refine adds_get.bind fun ts => ?_
  split
  · exact .ite ((adds_set _).bind fun _ => adds_pure _) (adds_pure _)
  · exact adds_pure _

theorem adds_step? : Adds step? := by
  refine adds_get.bind fun ts => ?_
  split
  · exact (adds_set _).bind fun _ => adds_pure _
  · exact (adds_set _).bind fun _ => adds_pure _
  · exact adds_pure _

variable (hexpr : ∀ least, Adds (expr least))

include hexpr

theorem adds_arithPrimary : Adds (arithPrimary s stop expr) := by
  refine adds_get.bind fun ts => ?_
  split
  · exact (adds_report _ _).bind fun _ => adds_pure _
  · refine (adds_set _).bind fun _ => (hexpr 0).bind fun x => adds_get.bind fun us => ?_
    split
    · exact (adds_set _).bind fun _ => adds_pure _
    · exact (adds_report _ _).bind fun _ => adds_pure _
  · exact (adds_set _).bind fun _ => adds_pure _
  · exact (adds_report _ _).bind fun _ => (adds_set _).bind fun _ => adds_pure _

theorem adds_arithOperand : Adds (arithOperand s stop expr) :=
  adds_get.bind fun _ => (adds_listFor adds_sign? _).bind fun _ => (adds_arithPrimary hexpr).bind fun _ =>
    adds_get.bind fun _ => (adds_listFor adds_step? _).bind fun _ => adds_pure _

theorem adds_arithTurn (x : ArithExpr) : Adds (arithTurn s stop expr least x) := by
  refine adds_get.bind fun ts => ?_
  split
  · refine .ite (adds_pure _) ((adds_set _).bind fun _ => .ite ?_ ?_)
    · refine (hexpr _).bind fun yes => adds_get.bind fun us => ?_
      split
      · exact (adds_set _).bind fun _ => (hexpr _).bind fun no => adds_pure _
      · exact (adds_report _ _).bind fun _ => adds_pure _
    · exact (hexpr _).bind fun y => adds_pure _
  · exact adds_pure _

theorem adds_arithTail : ∀ n x, Adds (arithTail s stop expr least n x)
  | 0, x => adds_pure x
  | n + 1, x => by
      refine (adds_arithTurn hexpr x).bind fun r => ?_
      cases r with
      | inl y => exact adds_arithTail n y
      | inr y => exact adds_pure y

omit hexpr in
theorem adds_arithExpr (s : Setting) (stop : Position) : ∀ n least, Adds (arithExpr s stop n least)
  | 0, _ => adds_pure _
  | n + 1, _ =>
      (adds_arithOperand (adds_arithExpr s stop n)).bind fun _ => adds_get.bind fun _ =>
        adds_arithTail (adds_arithExpr s stop n) _ _

end Reporting

section Combining

variable {s : Setting} {stop : Position} {expr : Nat → ArithReading ArithExpr} {ts : List ArithToken} {least : Nat}

-- No operator that binds more than `least` comes next.
def Stops (least : Nat) (ts : List ArithToken) : Prop := ∀ op p us, ts = .op op p :: us → op.precedence ≤ least

-- The operator that comes next, if there is one, may have the expression as its left operand.
def Admits (x : ArithExpr) (ts : List ArithToken) : Prop :=
  ∀ op p us, ts = .op op p :: us → op.precedence ≤ x.level ∧ (op.GroupsRight → op.precedence < x.level)

theorem admits_operand {x : ArithExpr} (h : 15 ≤ x.level) (ts : List ArithToken) : Admits x ts := by
  intro op p us _
  have hop := op.precedence_lt
  exact ⟨by omega, fun _ => by omega⟩

-- The expression that stands at the front, as far as it goes.
def Front (least : Nat) (ts : List ArithToken) (x : ArithExpr) (rest : List ArithToken) : Prop :=
  ∃ us, ts = us ++ rest ∧ InOrder x us ∧ Binds x ∧ least < x.level ∧ Stops least rest

theorem Front.lt {x : ArithExpr} {rest : List ArithToken} (h : Front least ts x rest) : rest.length < ts.length := by
  obtain ⟨us, rfl, horder, -⟩ := h
  have hpos := horder.length_pos
  rw [List.length_append]
  omega

-- Expressions are read as they should be from fewer tokens.
structure ExprReader (expr : Nat → ArithReading ArithExpr) (k : Nat) : Prop where
  adds : ∀ least, Adds (expr least)
  makes : ∀ least ts, least < 15 → ts.length < k → Makes (expr least) ts (Front least ts)

theorem ExprReader.mono {k j : Nat} (h : ExprReader expr k) (hle : j ≤ k) : ExprReader expr j where
  adds := h.adds
  makes least ts hleast hts := h.makes least ts hleast (Nat.lt_of_lt_of_le hts hle)

section Signs

variable {turn : ArithReading (Option (ArithOp × Position))} {P : ArithOp → Prop}

def signTokens (ops : List (ArithOp × Position)) : List ArithToken := ops.map fun (op, p) => .op op p

-- One operator is taken, or there is none.
def OneOp (P : ArithOp → Prop) (ts : List ArithToken) (r : Option (ArithOp × Position)) (rest : List ArithToken) : Prop :=
  match r with
  | some (op, p) => ts = .op op p :: rest ∧ P op
  | none => rest = ts

theorem isUnaryOp_iff (op : ArithOp) : isUnaryOp op = true ↔ op ∈ [ArithOp.not, .bitNot, .add, .sub, .inc, .dec] := by
  cases op <;> decide

theorem makes_sign? (ts : List ArithToken) : Makes sign? ts (OneOp (· ∈ [.not, .bitNot, .add, .sub, .inc, .dec]) ts) := by
  refine .peek ?_
  split
  · split
    · rename_i op p us hop
      have hmem : op ∈ [ArithOp.not, .bitNot, .add, .sub, .inc, .dec] := (isUnaryOp_iff op).mp hop
      exact .put (makes_pure ⟨rfl, hmem⟩)
    · exact makes_pure rfl
  · exact makes_pure rfl

theorem makes_step? (ts : List ArithToken) : Makes step? ts (OneOp (· ∈ [.inc, .dec]) ts) := by
  refine .peek ?_
  split
  · exact .put (makes_pure ⟨rfl, by decide⟩)
  · exact .put (makes_pure ⟨rfl, by decide⟩)
  · exact makes_pure rfl

theorem makes_listFor (hadds : Adds turn) (hturn : ∀ ts, Makes turn ts (OneOp P ts)) : ∀ n ts,
    Makes (listFor turn n) ts fun ops rest => ts = signTokens ops ++ rest ∧ ∀ a ∈ ops, P a.1
  | 0, ts => makes_pure ⟨rfl, List.forall_mem_nil _⟩
  | n + 1, ts => by
      refine (hturn ts).bind (fun r => ?_) fun r rest hr => ?_
      · cases r with
        | none => exact adds_pure _
        | some a => exact (adds_listFor hadds n).bind fun _ => adds_pure _
      · cases r with
        | none =>
            obtain rfl : rest = ts := hr
            exact makes_pure ⟨rfl, List.forall_mem_nil _⟩
        | some a =>
            obtain ⟨rfl, ha⟩ := hr
            refine (makes_listFor hadds hturn n rest).bind (fun _ => adds_pure _) fun ops us hops => makes_pure ?_
            obtain ⟨rfl, hall⟩ := hops
            exact ⟨rfl, List.forall_mem_cons.mpr ⟨ha, hall⟩⟩

theorem inOrder_signs {x : ArithExpr} {us : List ArithToken} (h : InOrder x us) (ops : List (ArithOp × Position)) :
    InOrder (ops.foldr (fun (op, p) x => .unary p op false x) x) (signTokens ops ++ us) := by
  induction ops with
  | nil => exact h
  | cons a ops ih => exact .sign ih

theorem inOrder_steps {x : ArithExpr} {us : List ArithToken} (h : InOrder x us) (ops : List (ArithOp × Position)) :
    InOrder (ops.foldl (fun x (op, p) => .unary p op true x) x) (us ++ signTokens ops) := by
  induction ops generalizing x us with
  | nil => exact (List.append_nil us).symm ▸ h
  | cons a ops ih =>
      have hstep : InOrder (.unary a.2 a.1 true x) (us ++ [ArithToken.op a.1 a.2]) := .step h
      have hrest := ih hstep
      rwa [List.append_assoc] at hrest

theorem binds_signs {x : ArithExpr} (hx : Binds x) (hlevel : 15 ≤ x.level) {ops : List (ArithOp × Position)}
    (h : ∀ a ∈ ops, a.1 ∈ [ArithOp.not, .bitNot, .add, .sub, .inc, .dec]) :
    Binds (ops.foldr (fun (op, p) x => .unary p op false x) x) ∧
      15 ≤ (ops.foldr (fun (op, p) x => ArithExpr.unary p op false x) x).level := by
  induction ops with
  | nil => exact ⟨hx, hlevel⟩
  | cons a ops ih =>
      obtain ⟨ha, hops⟩ := List.forall_mem_cons.mp h
      obtain ⟨hbinds, hlevel⟩ := ih hops
      exact ⟨.sign ha hbinds hlevel, Nat.le_refl 15⟩

theorem binds_steps {x : ArithExpr} (hx : Binds x) (hlevel : 16 ≤ x.level) {ops : List (ArithOp × Position)}
    (h : ∀ a ∈ ops, a.1 ∈ [ArithOp.inc, .dec]) :
    Binds (ops.foldl (fun x (op, p) => .unary p op true x) x) ∧
      16 ≤ (ops.foldl (fun x (op, p) => ArithExpr.unary p op true x) x).level := by
  induction ops generalizing x with
  | nil => exact ⟨hx, hlevel⟩
  | cons a ops ih =>
      obtain ⟨ha, hops⟩ := List.forall_mem_cons.mp h
      exact ih (.step ha hx hlevel) (Nat.le_refl 16) hops

end Signs

-- What is read without a look at what comes after it.
def Piece (least : Nat) (ts : List ArithToken) (x : ArithExpr) (rest : List ArithToken) : Prop :=
  ∃ us, ts = us ++ rest ∧ InOrder x us ∧ Binds x ∧ least ≤ x.level

theorem makes_arithPrimary (h : ExprReader expr ts.length) : Makes (arithPrimary s stop expr) ts (Piece 17 ts) := by
  refine .peek ?_
  cases ts with
  | nil => exact makes_report fun _ => adds_pure _
  | cons t rest =>
      cases t with
      | lparen p =>
          refine .put ((h.makes 0 rest (by decide) (Nat.lt_succ_self _)).bind (fun x => ?_) fun x us hx => ?_)
          · refine adds_get.bind fun vs => ?_
            split
            · exact (adds_set _).bind fun _ => adds_pure _
            · exact (adds_report _ _).bind fun _ => adds_pure _
          · obtain ⟨inner, rfl, horder, hbinds, -, -⟩ := hx
            refine .peek ?_
            split
            · rename_i q after
              refine .put (makes_pure ⟨.lparen p :: inner ++ [ArithToken.rparen q], ?_, .paren horder, .paren hbinds, Nat.le_refl 17⟩)
              rw [List.append_assoc]
              rfl
            · exact makes_report fun _ => adds_pure _
      | operand w p => exact .put (makes_pure ⟨[.operand w p], rfl, .word w p, .word w, Nat.le_refl 17⟩)
      | op o p => exact makes_report fun _ => (adds_set _).bind fun _ => adds_pure _
      | rparen p => exact makes_report fun _ => (adds_set _).bind fun _ => adds_pure _

theorem makes_arithOperand (h : ExprReader expr ts.length) : Makes (arithOperand s stop expr) ts (Piece 15 ts) := by
  refine .peek ((makes_listFor adds_sign? makes_sign? _ ts).bind (fun signs => ?_) fun signs rest hsigns => ?_)
  · exact (adds_arithPrimary h.adds).bind fun _ => adds_get.bind fun _ => (adds_listFor adds_step? _).bind fun _ =>
      adds_pure _
  obtain ⟨rfl, hsigns⟩ := hsigns
  have hrest : rest.length ≤ (signTokens signs ++ rest).length := by
    rw [List.length_append]
    omega
  refine (makes_arithPrimary (h.mono hrest)).bind (fun x => ?_) fun x rest₁ hx => ?_
  · exact adds_get.bind fun _ => (adds_listFor adds_step? _).bind fun _ => adds_pure _
  obtain ⟨us, rfl, horder, hbinds, hlevel⟩ := hx
  refine .peek ((makes_listFor adds_step? makes_step? _ rest₁).bind (fun _ => adds_pure _) fun steps rest₂ hsteps => ?_)
  obtain ⟨rfl, hsteps⟩ := hsteps
  obtain ⟨hbinds₁, hlevel₁⟩ := binds_steps hbinds (by omega) hsteps
  obtain ⟨hbinds₂, hlevel₂⟩ := binds_signs hbinds₁ (by omega) hsigns
  refine makes_pure ⟨signTokens signs ++ (us ++ signTokens steps), ?_, inOrder_signs (inOrder_steps horder steps) signs, hbinds₂,
    hlevel₂⟩
  rw [List.append_assoc, List.append_assoc]

-- The tokens of a turn come after those of its left operand.
def Extends (least : Nat) (x : ArithExpr) (ts : List ArithToken) (y : ArithExpr) (rest : List ArithToken) : Prop :=
  ∃ us, ts = us ++ rest ∧ us ≠ [] ∧ (∀ front, InOrder x front → InOrder y (front ++ us)) ∧ Binds y ∧ least < y.level ∧
    Admits y rest

theorem admits_binary {x : ArithExpr} {op : ArithOp} (hleft : ¬op.GroupsRight) (hx : x.level = op.precedence)
    (h : Stops op.precedence ts) : Admits x ts := by
  intro op' p us hts
  have hle := h op' p us hts
  rw [hx]
  refine ⟨hle, fun hright => Nat.lt_of_le_of_ne hle fun hsame => hleft ?_⟩
  exact (ArithOp.groupsRight_congr hsame).mp hright

theorem admits_right {x : ArithExpr} {k : Nat} (hk : 0 < k) (hx : x.level = k) (h : Stops (k - 1) ts) : Admits x ts := by
  intro op p us hts
  have hle := h op p us hts
  rw [hx]
  exact ⟨by omega, fun _ => by omega⟩

section Turns

variable {x y yes no : ArithExpr} {op : ArithOp} {p q : Position} {rest rest₁ rest₂ : List ArithToken} (hx : Binds x)
  (hop : 0 < op.precedence) (hleast : least < op.precedence)

include hx

theorem extends_ternary (hleast : least < ArithOp.quest.precedence) (h : ArithOp.quest.precedence < x.level)
    (hyes : Front ArithOp.comma.precedence rest yes (.op .colon q :: rest₁))
    (hno : Front (ArithOp.quest.precedence - 1) rest₁ no rest₂) :
    Extends least x (.op .quest p :: rest) (.ternary x yes (some no)) rest₂ := by
  obtain ⟨us, rfl, horder, hbinds, hcomma, -⟩ := hyes
  obtain ⟨vs, rfl, horder', hbinds', hlevel, hstops⟩ := hno
  refine ⟨.op .quest p :: us ++ .op .colon q :: vs, by simp, by simp, fun front hfront => ?_, ?_, hleast, ?_⟩
  · rw [← List.append_assoc]
    exact .ternary hfront horder horder'
  · exact .ternary hx hbinds hbinds' h hcomma (Nat.le_of_pred_lt hlevel)
  · exact admits_right (k := ArithOp.quest.precedence) (by decide) rfl hstops

include hop hleast

theorem extends_right (hquest : op ≠ .quest) (hright : op.GroupsRight) (h : op.precedence < x.level)
    (hy : Front (op.precedence - 1) rest y rest₁) : Extends least x (.op op p :: rest) (.binary p op x y) rest₁ := by
  obtain ⟨us, rfl, horder, hbinds, hlevel, hstops⟩ := hy
  obtain ⟨-, hrank⟩ := ArithOp.joins_of_precedence hop
  rw [hrank] at hleast
  refine ⟨.op op p :: us, rfl, List.cons_ne_nil _ _, fun front hfront => .binary hfront horder, ?_, hleast, ?_⟩
  · exact .right hquest hright hx hbinds (by omega) (by omega)
  · exact admits_right hop hrank.symm hstops

theorem extends_left (hleft : ¬op.GroupsRight) (h : op.precedence ≤ x.level) (hy : Front op.precedence rest y rest₁) :
    Extends least x (.op op p :: rest) (.binary p op x y) rest₁ := by
  obtain ⟨us, rfl, horder, hbinds, hlevel, hstops⟩ := hy
  obtain ⟨hjoins, hrank⟩ := ArithOp.joins_of_precedence hop
  rw [hrank] at hleast
  refine ⟨.op op p :: us, rfl, List.cons_ne_nil _ _, fun front hfront => .binary hfront horder, ?_, hleast, ?_⟩
  · exact .left hjoins hleft hx hbinds (by omega) (by omega)
  · exact admits_binary hleft hrank.symm hstops

end Turns

theorem makes_arithTurn (h : ExprReader expr ts.length) {x : ArithExpr} (hx : Binds x) (hleft : Admits x ts) :
    Makes (arithTurn s stop expr least x) ts fun r rest => match r with
      | .inl y => Extends least x ts y rest
      | .inr y => y = x ∧ rest = ts ∧ Stops least ts := by
  refine .peek ?_
  split
  · rename_i op p rest
    obtain ⟨hle, hlt⟩ := hleft op p rest rfl
    have hbelow : rest.length < (ArithToken.op op p :: rest).length := Nat.lt_succ_self _
    have hsmall := op.precedence_lt
    extract_lets prec
    split
    · rename_i hstop
      refine makes_pure ⟨rfl, rfl, ?_⟩
      intro op' p' us hts
      obtain ⟨⟨rfl, rfl⟩, -⟩ : (op = op' ∧ p = p') ∧ rest = us := by simpa using hts
      simp only [Bool.or_eq_true, beq_iff_eq, decide_eq_true_eq] at hstop
      omega
    · rename_i hgo
      obtain ⟨hop, hleast⟩ : 0 < op.precedence ∧ least < op.precedence := by
        simp only [Bool.or_eq_true, beq_iff_eq, decide_eq_true_eq, not_or] at hgo
        omega
      refine .put ?_
      split
      · rename_i hquest
        obtain rfl : op = .quest := by simpa using hquest
        refine (h.makes _ rest (by decide) hbelow).bind (fun yes => ?_) fun yes rest₁ hyes => .peek ?_
        · refine adds_get.bind fun _ => ?_
          split
          · exact (adds_set _).bind fun _ => (h.adds _).bind fun _ => adds_pure _
          · exact (adds_report _ _).bind fun _ => adds_pure _
        split
        · rename_i q rest₂
          have hfewer : rest₂.length < (ArithToken.op .quest p :: rest).length :=
            Nat.lt_trans (Nat.lt_of_succ_lt hyes.lt) hbelow
          refine .put ((h.makes _ rest₂ (by decide) hfewer).bind (fun _ => adds_pure _) fun no rest₃ hno => makes_pure ?_)
          exact extends_ternary hx hleast (hlt (by decide)) hyes hno
        · exact makes_report fun _ => adds_pure _
      · rename_i hquest
        have hquest : op ≠ .quest := by simpa using hquest
        by_cases hright : (op.isAssign || op == .pow) = true
        · have hgroups : op.GroupsRight := (ArithOp.groupsRight_iff op).mpr (.inl hright)
          rw [if_pos hright]
          refine (h.makes _ rest (by omega) hbelow).bind (fun _ => adds_pure _) fun y rest₁ hy => makes_pure ?_
          exact extends_right hx hop hleast hquest hgroups (hlt hgroups) hy
        · have hgroups : ¬op.GroupsRight := fun hgroups =>
            ((ArithOp.groupsRight_iff op).mp hgroups).elim hright hquest
          rw [if_neg hright]
          refine (h.makes _ rest hsmall hbelow).bind (fun _ => adds_pure _) fun y rest₁ hy => makes_pure ?_
          exact extends_left hx hop hleast hgroups hle hy
  · rename_i hnone
    exact makes_pure ⟨rfl, rfl, fun op p us hts => absurd hts (hnone op p us)⟩

-- The expression before, with what the turns have made of it.
theorem makes_arithTail : ∀ n {x : ArithExpr} {ts : List ArithToken}, ExprReader expr ts.length → ts.length < n → Binds x →
    least < x.level → Admits x ts → Makes (arithTail s stop expr least n x) ts fun y rest =>
      ∃ us, ts = us ++ rest ∧ (∀ front, InOrder x front → InOrder y (front ++ us)) ∧ Binds y ∧ least < y.level ∧
        Stops least rest
  | n + 1, x, ts, h, hn, hx, hlevel, hleft => by
      refine (makes_arithTurn h hx hleft).bind (fun r => ?_) fun r rest hr => ?_
      · cases r with
        | inl y => exact adds_arithTail h.adds n y
        | inr y => exact adds_pure y
      · cases r with
        | inr y =>
            obtain ⟨rfl, rfl, hstops⟩ := hr
            exact makes_pure ⟨[], rfl, fun front hfront => (List.append_nil front).symm ▸ hfront, hx, hlevel, hstops⟩
        | inl y =>
            obtain ⟨us, rfl, hne, horder, hbinds, hlevel, hadmits⟩ := hr
            have hpos := List.length_pos_iff.mpr hne
            rw [List.length_append] at hn
            have hrest := h.mono (j := rest.length) (by rw [List.length_append]; omega)
            refine (makes_arithTail n hrest (by omega) hbinds hlevel hadmits).mono fun z rest₁ hz => ?_
            obtain ⟨vs, rfl, horder', hz⟩ := hz
            refine ⟨us ++ vs, (List.append_assoc us vs rest₁).symm, fun front hfront => ?_, hz⟩
            rw [← List.append_assoc]
            exact horder' _ (horder front hfront)

theorem exprReader_arithExpr (s : Setting) (stop : Position) : ∀ n, ExprReader (arithExpr s stop n) n
  | 0 => ⟨adds_arithExpr s stop 0, nofun⟩
  | n + 1 => by
      have hinner := exprReader_arithExpr s stop n
      refine ⟨adds_arithExpr s stop (n + 1), fun least ts hleast hts => ?_⟩
      refine (makes_arithOperand (hinner.mono (Nat.le_of_lt_succ hts))).bind (fun x => ?_) fun x rest hx => ?_
      · exact adds_get.bind fun _ => adds_arithTail hinner.adds _ _
      · obtain ⟨us, rfl, horder, hbinds, hlevel⟩ := hx
        rw [List.length_append] at hts
        refine .peek ((makes_arithTail _ (hinner.mono (by omega)) (Nat.lt_succ_self _) hbinds (by omega)
          (admits_operand hlevel rest)).mono fun y rest₁ hy => ?_)
        obtain ⟨vs, rfl, horder', hbinds', hlevel', hstops⟩ := hy
        exact ⟨us ++ vs, (List.append_assoc us vs rest₁).symm, horder' us horder, hbinds', hlevel', hstops⟩

end Combining

theorem run_bind_of_eq {α β : Type} {m : Reading α} {a : α} {ds ds' : Array Diagnostic.OfText} (h : m.run ds = (a, ds'))
    (f : α → Reading β) : (m >>= f).run ds = (f a).run ds' := by
  change (f (m.run ds).1).run (m.run ds).2 = _
  rw [h]

-- A text that is read without an error is blank, or it is the tokens of a tree, in their order, whose operators bind as
-- tightly as they should.
theorem arithText_binds (s : Setting) (parts : PartsReader) (p : Position) (cs : List Char) (ds : Array Diagnostic.OfText)
    (h : Harmless ((arithText s parts p cs).run ds).2) :
    match ((arithText s parts p cs).run ds).1 with
    | none => ((arithTokens s parts (cs.length + 1) p cs).run ds).1 = []
    | some x => InOrder x ((arithTokens s parts (cs.length + 1) p cs).run ds).1 ∧ Binds x := by
  cases htokens : (arithTokens s parts (cs.length + 1) p cs).run ds with
  | mk ts ds' =>
      cases ts with
      | nil =>
          rw [arithText, run_bind_of_eq htokens]
          rfl
      | cons t ts =>
          cases hexpr : ((arithExpr s (p.advance cs) ((t :: ts).length + 1) 0).run (t :: ts)).run ds' with
          | mk r ds₁ =>
              have hmakes := (exprReader_arithExpr s (p.advance cs) _).makes 0 (t :: ts) (by decide) (Nat.lt_succ_self _) ds'
              rw [hexpr] at hmakes
              rw [arithText, run_bind_of_eq htokens, if_neg (by simp), run_bind_of_eq hexpr] at h ⊢
              obtain ⟨x, rest⟩ := r
              cases rest with
              | nil =>
                  obtain ⟨us, hus, horder, hbinds, -, -⟩ := hmakes h
                  rw [List.append_nil] at hus
                  exact ⟨hus ▸ horder, hbinds⟩
              | cons u rest => exact nomatch (harmless_of_push h).2

theorem arithText_binds_mixed :
    let s : Setting := ⟨.bash, "script"⟩
    let text := "a = b || -c ** 2 ? d++ - (e, 1) : f += 3".toList
    ∃ x, ((arithText s (parts s (nested s 50)) {} text).run #[]).1 = some x ∧
      InOrder x ((arithTokens s (parts s (nested s 50)) (text.length + 1) {} text).run #[]).1 ∧ Binds x := by
  intro s text
  have hsize : ((arithText s (parts s (nested s 50)) {} text).run #[]).2.size = 0 := by decide +kernel
  have hsome : ((arithText s (parts s (nested s 50)) {} text).run #[]).1.isSome = true := by decide +kernel
  have hharmless : Harmless ((arithText s (parts s (nested s 50)) {} text).run #[]).2 := by
    rw [Array.eq_empty_of_size_eq_zero hsize]
    exact fun d hd => absurd hd (Array.not_mem_empty d)
  obtain ⟨x, hx⟩ := Option.isSome_iff_exists.mp hsome
  -- from here on nothing is run again
  clear hsize hsome
  clear_value s text
  have hbinds := arithText_binds s (parts s (nested s 50)) {} text #[] hharmless
  rw [hx] at hbinds
  exact ⟨x, hx, hbinds⟩

end Read
end Script
end ShellScript

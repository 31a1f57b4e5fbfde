import Mathlib.Data.List.Forall2
import ShellScript.Proofs.Script.DeclarationReading

-- What the readers of commands make of tokens that are known one by one, wherever these stand.
namespace ShellScript
namespace Token

def unplaced (t : Token) : Token := { t with pos := {} }

-- The tokens of pieces.
def tokensOf (L : List Piece) : List Token := L.flatMap fun
  | .blank _ => []
  | .token t => [t]

-- Tokens are those of the pieces.
def Spells (L : List Piece) (ts : List Token) : Prop := ts.map unplaced = (tokensOf L).map unplaced

section Spells

variable {L M : List Piece} {t : Token} {ts : List Token}

@[simp] theorem spells_nil : Spells [] ts ↔ ts = [] := List.map_eq_nil_iff

@[simp] theorem spells_blank (c : Char) : Spells (.blank c :: L) ts ↔ Spells L ts := Iff.rfl

@[simp] theorem spells_token : Spells (.token t :: L) ts ↔ ∃ p us, ts = { t with pos := p } :: us ∧ Spells L us := by
  have hmap : (tokensOf (.token t :: L)).map unplaced = t.unplaced :: (tokensOf L).map unplaced := rfl
  rw [Spells, hmap, List.map_eq_cons_iff]
  constructor
  · rintro ⟨u, us, rfl, hu, hus⟩
    refine ⟨u.pos, us, congrArg (· :: us) ?_, hus⟩
    cases u
    cases t
    simp_all [unplaced]
  · rintro ⟨p, us, rfl, hus⟩
    exact ⟨_, us, rfl, rfl, hus⟩

theorem spells_append : Spells (L ++ M) ts ↔ ∃ us vs, ts = us ++ vs ∧ Spells L us ∧ Spells M vs := by
  have hmap : (tokensOf (L ++ M)).map unplaced = (tokensOf L).map unplaced ++ (tokensOf M).map unplaced := by
    simp [tokensOf]
  rw [Spells, hmap, List.map_eq_append_iff]
  rfl

theorem spells_placed (p : Position) (L : List Piece) : Spells L (placed p L) := by
  induction L generalizing p with
  | nil => rfl
  | cons x L ih =>
      cases x with
      | blank c => exact ih _
      | token t => exact spells_token.mpr ⟨p, _, rfl, ih _⟩

end Spells

end Token

namespace Script
namespace Read

open Token (Spells)

-- No token is dropped when the cursor comes to it.
def Shown (ts : List Token) : Prop := ∀ t ∈ ts, t.kind ≠ .comment ∧ t.kind ≠ .hereDoc

theorem shown_of_spells {d : Dialect} {cmd : Bool} {L : List Token.Piece} {rest : List Char} {ts : List Token} (h : Token.Scanner.FitsAll d cmd L rest)
    (hts : Spells L ts) : Shown ts := by
  induction L generalizing cmd ts with
  | nil =>
      rw [Token.spells_nil.mp hts]
      exact nofun
  | cons x L ih =>
      cases x with
      | blank c => exact ih h.2 hts
      | token t =>
          obtain ⟨p, us, rfl, hus⟩ := Token.spells_token.mp hts
          refine List.forall_mem_cons.mpr ⟨?_, ih h.2 hus⟩
          cases h.1 with
          | word _ _ _ => exact ⟨nofun, nofun⟩
          | number _ _ _ => exact ⟨nofun, nofun⟩
          | @operator k _ hop _ _ _ _ =>
              constructor
              all_goals
                rintro rfl
                exact absurd hop nofun
          | newline _ => exact ⟨nofun, nofun⟩

-- From the tokens `ts` a reader gives a result and leaves tokens that are like `Q`; nothing is reported.
def Does {α : Type} (m : Scanning α) (ts : List Token) (Q : α → List Token → Prop) : Prop :=
  Shown ts → ∀ k ds, ∃ a us, m ⟨ts, k, ds⟩ = (a, ⟨us, k, ds⟩) ∧ Shown us ∧ Q a us

def Obtains {α : Type} (m : Parse α) (ts : List Token) (Q : α → List Token → Prop) : Prop :=
  Does m.run ts fun r us => ∃ a, r = some a ∧ Q a us

section Rules

variable {α β : Type} {t : Token} {ts us : List Token} {Q : α → List Token → Prop} {R : β → List Token → Prop}

namespace Does

variable {m : Scanning α} {f : α → Scanning β}

theorem mono {Q' : α → List Token → Prop} (h : Does m ts Q) (hQ : ∀ a us, Q a us → Q' a us) : Does m ts Q' := by
  intro hts k ds
  obtain ⟨a, us, hm, hus, ha⟩ := h hts k ds
  exact ⟨a, us, hm, hus, hQ a us ha⟩

theorem pure {a : α} (h : Q a ts) : Does (Pure.pure a) ts Q := fun hts _ _ => ⟨a, ts, rfl, hts, h⟩

theorem bind (h : Does m ts fun a us => Does (f a) us R) : Does (m >>= f) ts R := by
  intro hts k ds
  obtain ⟨a, us, hm, hus, ha⟩ := h hts k ds
  obtain ⟨b, vs, hf, hvs, hb⟩ := ha hus k ds
  exact ⟨b, vs, (bind_of_read hm f).trans hf, hvs, hb⟩

theorem cur {Q : Token → List Token → Prop} (h : Q t (t :: ts)) : Does Read.cur (t :: ts) Q := fun hts _ _ => ⟨t, t :: ts, rfl, hts, h⟩

theorem next {Q : Unit → List Token → Prop} (hne : ts ≠ []) (h : Q () ts) : Does Read.next (t :: ts) Q := by
  obtain ⟨u, ts, rfl⟩ := List.exists_cons_of_ne_nil hne
  exact fun hts k ds => ⟨(), u :: ts, next_eq (hts u (by simp)), fun v hv => hts v (List.mem_cons_of_mem _ hv), h⟩

theorem left {Q : Nat → List Token → Prop} (h : Q (ts.length + 1) ts) : Does Read.left ts Q :=
  fun hts _ _ => ⟨_, ts, rfl, hts, h⟩

theorem words {a : α} {r : Reading α} (hr : r = Pure.pure a) (h : Q a ts) : Does (Read.words r) ts Q := by
  subst hr
  exact fun hts _ _ => ⟨a, ts, rfl, hts, h⟩

theorem discard {Q : Unit → List Token → Prop} (h : Does m ts fun _ us => Q () us) : Does (Functor.discard m) ts Q := by
  intro hts k ds
  obtain ⟨a, us, hm, hus, ha⟩ := h hts k ds
  exact ⟨(), us, congrArg (fun r : α × Cursor => ((), r.2)) hm, hus, ha⟩

theorem listFor_some {turn : Scanning (Option α)} {n : Nat} {Q : List α → List Token → Prop}
    (h : Does turn ts fun r us => ∃ a, r = some a ∧ Does (listFor turn n) us fun as vs => Q (a :: as) vs) :
    Does (listFor turn (n + 1)) ts Q := by
  rw [listFor]
  refine bind (h.mono ?_)
  rintro _ us ⟨a, rfl, h⟩
  exact bind (h.mono fun as vs hq => pure hq)

theorem listFor_none {turn : Scanning (Option α)} {Q : List α → List Token → Prop}
    (h : Does turn ts fun r us => r = none ∧ Q [] us) (n : Nat) : Does (listFor turn (n + 1)) ts Q := by
  rw [listFor]
  refine bind (h.mono ?_)
  rintro _ us ⟨rfl, h⟩
  exact pure h

end Does

namespace Obtains

variable {m : Parse α} {f : α → Parse β}

theorem mono {Q' : α → List Token → Prop} (h : Obtains m ts Q) (hQ : ∀ a us, Q a us → Q' a us) : Obtains m ts Q' :=
  Does.mono h fun _ us ⟨a, ha, hq⟩ => ⟨a, ha, hQ a us hq⟩

theorem pure {a : α} (h : Q a ts) : Obtains (Pure.pure a) ts Q := Does.pure ⟨a, rfl, h⟩

theorem bind (h : Obtains m ts fun a us => Obtains (f a) us R) : Obtains (m >>= f) ts R := by
  intro hts k ds
  obtain ⟨_, us, hm, hus, a, rfl, ha⟩ := h hts k ds
  obtain ⟨_, vs, hf, hvs, b, rfl, hb⟩ := ha hus k ds
  exact ⟨some b, vs, (bind_some hm f).trans hf, hvs, b, rfl, hb⟩

theorem lift {m : Scanning α} (h : Does m ts Q) : Obtains (liftM m) ts Q := by
  intro hts k ds
  obtain ⟨a, us, hm, hus, ha⟩ := h hts k ds
  exact ⟨some a, us, by rw [OptionT.run, lift_scanning, hm], hus, a, rfl, ha⟩

-- The steps that all readers take.

theorem cur {f : Token → Parse β} (h : Obtains (f t) (t :: ts) R) : Obtains (liftM Read.cur >>= f) (t :: ts) R :=
  bind (lift (.cur h))

theorem next {f : Unit → Parse β} (hne : ts ≠ []) (h : Obtains (f ()) ts R) : Obtains (liftM Read.next >>= f) (t :: ts) R :=
  bind (lift (.next hne h))

theorem step {m : Scanning α} {f : α → Parse β} (h : Does m ts fun a us => Obtains (f a) us R) : Obtains (liftM m >>= f) ts R :=
  bind (lift h)

theorem ite_true {c : Prop} [Decidable c] {m n : Parse α} (hc : c) (h : Obtains m ts Q) : Obtains (if c then m else n) ts Q := by
  rwa [if_pos hc]

theorem ite_false {c : Prop} [Decidable c] {m n : Parse α} (hc : ¬c) (h : Obtains n ts Q) : Obtains (if c then m else n) ts Q := by
  rwa [if_neg hc]

theorem join {c : Prop} [Decidable c] {m n : Parse α} {f : α → Parse β} (h : Obtains (if c then m else n) ts fun a us => Obtains (f a) us R) :
    Obtains (if c then m >>= f else n >>= f) ts R := by
  by_cases hc : c
  · rw [if_pos hc] at h ⊢
    exact bind h
  · rw [if_neg hc] at h ⊢
    exact bind h

-- A token that may be there is passed.
theorem optional {c : Prop} [Decidable c] {f : Unit → Parse β} (hne : ts ≠ []) (h : Obtains (f ()) ts R) :
    Obtains (if c then liftM Read.next >>= f else f ()) (if c then t :: ts else ts) R := by
  by_cases hc : c
  · rw [if_pos hc, if_pos hc]
    exact next hne h
  · rw [if_neg hc, if_neg hc]
    exact h

theorem listFor_some {turn : Parse (Option α)} {n : Nat} {Q : List α → List Token → Prop}
    (h : Obtains turn ts fun r us => ∃ a, r = some a ∧ Obtains (listFor turn n) us fun as vs => Q (a :: as) vs) :
    Obtains (listFor turn (n + 1)) ts Q := by
  rw [listFor]
  refine bind (h.mono ?_)
  rintro _ us ⟨a, rfl, h⟩
  exact bind (h.mono fun as vs hq => pure hq)

theorem listFor_none {turn : Parse (Option α)} {Q : List α → List Token → Prop}
    (h : Obtains turn ts fun r us => r = none ∧ Q [] us) (n : Nat) : Obtains (listFor turn (n + 1)) ts Q := by
  rw [listFor]
  refine bind (h.mono ?_)
  rintro _ us ⟨rfl, h⟩
  exact pure h

end Obtains

-- Turns over a list: what each of them takes is followed by tokens like those that follow all.
structure Turn {α β : Type} (turn : Parse (Option β)) (Next : List Token → Prop) (S : α → β → Prop) (x : α) (ts : List Token) : Prop where
  some : ts ≠ []
  keeps : ∀ us, Next us → Next (ts ++ us)
  reads : ∀ us, Next us → Obtains turn (ts ++ us) fun r vs => (∃ b, r = Option.some b ∧ S x b) ∧ vs = us

theorem next_flatten {turn : Parse (Option β)} {Next : List Token → Prop} {S : α → β → Prop} {xs : List α} {tss : List (List Token)}
    (h : List.Forall₂ (Turn turn Next S) xs tss) (hnext : Next us) : Next (tss.flatten ++ us) := by
  induction h with
  | nil => exact hnext
  | cons hx _ ih =>
      rw [List.flatten_cons, List.append_assoc]
      exact hx.keeps _ ih

theorem reads_many {turn : Parse (Option β)} {Next : List Token → Prop} {S : α → β → Prop} {xs : List α} {tss : List (List Token)}
    (h : List.Forall₂ (Turn turn Next S) xs tss) (hnext : Next us) (hstop : Obtains turn us fun r vs => r = none ∧ vs = us) :
    Obtains (many turn) (tss.flatten ++ us) fun bs vs => List.Forall₂ S xs bs ∧ vs = us := by
  have hall : ∀ n, (tss.flatten ++ us).length < n →
      Obtains (listFor turn n) (tss.flatten ++ us) fun bs vs => List.Forall₂ S xs bs ∧ vs = us := by
    induction h with
    | nil =>
        intro n hn
        obtain ⟨n, rfl⟩ := Nat.exists_eq_succ_of_ne_zero (Nat.ne_of_gt (Nat.zero_lt_of_lt hn))
        exact .listFor_none (hstop.mono fun _ _ ⟨hr, hvs⟩ => ⟨hr, .nil, hvs⟩) n
    | @cons x ts xs tss hx hxs ih =>
        intro n hn
        obtain ⟨n, rfl⟩ := Nat.exists_eq_succ_of_ne_zero (Nat.ne_of_gt (Nat.zero_lt_of_lt hn))
        have hlength : 0 < ts.length := List.length_pos_of_ne_nil hx.some
        rw [List.flatten_cons, List.append_assoc] at hn ⊢
        rw [List.length_append] at hn
        refine .listFor_some ((hx.reads _ (next_flatten hxs hnext)).mono ?_)
        rintro _ _ ⟨⟨b, rfl, hb⟩, rfl⟩
        exact ⟨b, rfl, (ih n (by omega)).mono fun bs vs ⟨hbs, hvs⟩ => ⟨.cons hb hbs, hvs⟩⟩
  exact .step (.left (hall _ (Nat.lt_succ_self _)))

theorem reads_many_none {turn : Parse (Option β)} (hstop : Obtains turn us fun r vs => r = none ∧ vs = us) :
    Obtains (many turn) us fun bs vs => bs = [] ∧ vs = us :=
  .step (.left (.listFor_none (hstop.mono fun _ _ ⟨hr, hvs⟩ => ⟨hr, rfl, hvs⟩) _))

-- What redirections may follow, and what may be a stage of a pipeline, a link of a chain and an item of a list.
inductive Level where
  | compound
  | command
  | pipeline
  | chain

-- The tokens before which it ends.
def Level.closing : Level → List Token.Kind
  | .compound | .command => [.eof, .newline, .semi, .amp, .rparen, .dsemi, .semiAmp, .dsemiAmp, .and, .or, .pipe, .pipeAll]
  | .pipeline => [.eof, .newline, .semi, .amp, .rparen, .dsemi, .semiAmp, .dsemiAmp, .and, .or]
  | .chain => [.eof, .newline, .semi, .amp, .rparen, .dsemi, .semiAmp, .dsemiAmp]

def Level.Ends (v : Level) (ts : List Token) : Prop := ∃ t us, ts = t :: us ∧ t.kind ∈ v.closing

-- Newlines, and the token after them.
theorem does_skipNewlines {nls : List Token} (hnls : ∀ t ∈ nls, t.kind = .newline) (ht : t.kind ≠ .newline) {Q : Unit → List Token → Prop}
    (h : Q () (t :: ts)) : Does skipNewlines (nls ++ t :: ts) Q := by
  have hall : ∀ n, (nls ++ t :: ts).length < n → Does (listFor newline? n) (nls ++ t :: ts) fun _ us => us = t :: ts := by
    induction nls with
    | nil =>
        intro n hn
        obtain ⟨n, rfl⟩ := Nat.exists_eq_succ_of_ne_zero (Nat.ne_of_gt (Nat.zero_lt_of_lt hn))
        refine .listFor_none (.bind (.cur ?_)) n
        rw [if_neg (by simpa using ht)]
        exact .pure ⟨rfl, rfl⟩
    | cons u nls ih =>
        obtain ⟨hu, hnls⟩ := List.forall_mem_cons.mp hnls
        intro n hn
        obtain ⟨n, rfl⟩ := Nat.exists_eq_succ_of_ne_zero (Nat.ne_of_gt (Nat.zero_lt_of_lt hn))
        refine .listFor_some (.bind (.cur ?_))
        rw [if_pos (by simpa using hu)]
        exact .bind (.next (by simp) (.pure ⟨(), rfl, ih hnls n (by simpa using hn)⟩))
  refine .bind (m := left) (.left (.discard ((hall _ (Nat.lt_succ_self _)).mono ?_)))
  rintro _ _ rfl
  exact h

theorem does_skipNewlines_none (ht : t.kind ≠ .newline) {Q : Unit → List Token → Prop} (h : Q () (t :: ts)) :
    Does skipNewlines (t :: ts) Q := does_skipNewlines (List.forall_mem_nil _) ht h

end Rules

end Read
end Script
end ShellScript

import ShellScript.Proofs.Script.SimpleCommands

-- Pipelines, chains and lists of commands, as they are written and read.
namespace ShellScript
namespace Script

open Token (Piece Spells textOf)
open Token.Scanner (Fits FitsAll opensAfter fitsAll_append opensAfter_append)

namespace Read

-- The keywords that a command may begin with.
def opening : List String := ["if", "while", "until", "for", "case", "\x7b", "!"]

-- What a command begins with. A brace that is not quoted is a keyword.
structure Begins (t : Token) : Prop where
  kind : t.kind = .word ∨ t.kind = .lparen ∨ isRedirection t = true
  keyword : t.kind = .word → t.keyword = true → t.text ∈ opening
  brace : t.kind = .word → t.text = "\x7b" → t.quoted = false → t.keyword = true

def Begun (ts : List Token) : Prop := ∃ t us, ts = t :: us ∧ Begins t

-- The same without a negation.
def Staged (ts : List Token) : Prop := ∃ t us, ts = t :: us ∧ Begins t ∧ isKeyword ["!"] t = false

theorem Staged.begun {ts : List Token} (h : Staged ts) : Begun ts := by
  obtain ⟨t, us, rfl, ht, -⟩ := h
  exact ⟨t, us, rfl, ht⟩

theorem Begins.kind_ne {t : Token} (h : Begins t) : t.kind ≠ .newline ∧ t.kind ≠ .eof := by
  constructor
  all_goals
    intro hkind
    rcases h.kind with hword | hparen | hred
    · rw [hkind] at hword
      cases hword
    · rw [hkind] at hparen
      cases hparen
    · rw [isRedirection, hkind] at hred
      cases hred

-- What is read as `c` in front of what ends it.
def ReadsCommand (cmd : Parse Command) (ts : List Token) (c : Command) : Prop :=
  ∀ us, Level.command.Ends us → Obtains cmd (ts ++ us) fun c' vs => c'.describe = c.describe ∧ vs = us

def ReadsPipeline (cmd : Parse Command) (ts : List Token) (c : Command) : Prop :=
  ∀ us, Level.pipeline.Ends us → Obtains (pipeline cmd) (ts ++ us) fun c' vs => c'.describe = c.describe ∧ vs = us

-- A further pipeline of a chain.
def linkKind : Connective → Token.Kind
  | .and => .and
  | .or => .or

def ReadsLink (cmd : Parse Command) (l : Connective × Command) (ts : List Token) : Prop :=
  ∃ t us, ts = t :: us ∧ t.kind = linkKind l.1 ∧ Begun us ∧ ReadsPipeline cmd us l.2

def chainOf (c : Command) (links : List (Connective × Command)) : Command := links.foldl (fun x l => .andOr {} l.1 x l.2) c

def ReadsChain (cmd : Parse Command) (ts : List Token) (c : Command) : Prop :=
  ∀ links lss us, List.Forall₂ (ReadsLink cmd) links lss → Level.chain.Ends us →
    Obtains (andOr cmd) (ts ++ (lss.flatten ++ us)) fun c' vs => c'.describe = (chainOf c links).describe ∧ vs = us

section Chains

variable {cmd : Parse Command} {ts us : List Token} {c x y : Command} {t : Token}

theorem Level.Ends.mono {v v' : Level} (h : v.Ends us) (hv : ∀ k ∈ v.closing, k ∈ v'.closing) : v'.Ends us := by
  obtain ⟨t, us, rfl, ht⟩ := h
  exact ⟨t, us, rfl, hv _ ht⟩

theorem does_skipNewlines_begun {Q : Unit → List Token → Prop} (h : Begun ts) (hQ : Q () (ts ++ us)) : Does skipNewlines (ts ++ us) Q := by
  obtain ⟨t, ts, rfl, ht⟩ := h
  exact does_skipNewlines_none ht.kind_ne.1 hQ

-- A further stage of a pipeline.
def ReadsStage (cmd : Parse Command) (l : Bool × Command) (ts : List Token) : Prop :=
  ∃ t us, ts = t :: us ∧ t.kind = (if l.1 then .pipeAll else .pipe) ∧ Begun us ∧ ReadsCommand cmd us l.2

theorem turn_stage {l : Bool × Command} (h : ReadsStage cmd l ts) :
    Turn (stage? cmd) Level.command.Ends (fun l l' => l'.1 = l.1 ∧ l'.2.describe = l.2.describe) l ts := by
  obtain ⟨t, us, rfl, hkind, hbegun, hread⟩ := h
  have hbar : (t.kind == .pipe || t.kind == .pipeAll) = true ∧ (t.kind == .pipeAll) = l.1 ∧ t.kind ∈ Level.closing .command := by
    rw [hkind]
    cases l.1 <;> decide
  refine ⟨List.cons_ne_nil _ _, fun vs _ => ⟨t, us ++ vs, rfl, hbar.2.2⟩, fun vs hvs => .cur (.ite_true hbar.1 ?_)⟩
  obtain ⟨u, us', rfl, -⟩ := id hbegun
  refine .next (List.cons_ne_nil _ _) (.step (does_skipNewlines_begun hbegun (.bind ((hread vs hvs).mono ?_))))
  rintro c' _ ⟨hsame, rfl⟩
  exact .pure ⟨⟨_, rfl, hbar.2.1, hsame⟩, rfl⟩

theorem describe_stages {rest rest' : List (Bool × Command)}
    (h : List.Forall₂ (fun l l' => l'.1 = l.1 ∧ l'.2.describe = l.2.describe) rest rest') :
    describeCommands (rest'.map Prod.snd) = describeCommands (rest.map Prod.snd) ∧ rest'.map Prod.fst = rest.map Prod.fst := by
  induction h with
  | nil => exact ⟨rfl, rfl⟩
  | cons hl _ ih => simp [describeCommands, hl.1, hl.2, ih.1, ih.2]

-- The stages of a pipeline, and what is made of them.
def pipelineOf (negated : Bool) (first : Command) (rest : List (Bool × Command)) : Command :=
  if rest.isEmpty && !negated then first else .pipeline {} negated (first :: rest.map Prod.snd) (rest.map Prod.fst)

theorem reads_stage?_none (hus : Level.pipeline.Ends us) : Obtains (stage? cmd) us fun r vs => r = none ∧ vs = us := by
  obtain ⟨u, us, rfl, hu⟩ := hus
  have hall : ∀ k ∈ Level.closing .pipeline, (k == .pipe || k == .pipeAll) = false := by decide
  exact .cur (.ite_false (by rw [hall _ hu]; exact Bool.false_ne_true) (.pure ⟨rfl, rfl⟩))

theorem reads_pipeline (negated : Bool) {first : Command} {rest : List (Bool × Command)} {lss : List (List Token)}
    (hfirst : ReadsCommand cmd ts first) (hts : Staged ts) (hrest : List.Forall₂ (ReadsStage cmd) rest lss) (ht : isKeyword ["!"] t = true) :
    ReadsPipeline cmd ((if negated then [t] else []) ++ (ts ++ lss.flatten)) (pipelineOf negated first rest) := by
  intro us hus
  have hturns := hrest.imp fun _ _ => turn_stage
  have hcommand := hfirst _ (next_flatten hturns (hus.mono (by decide)))
  have hmore := reads_many hturns (hus.mono (by decide)) (reads_stage?_none hus)
  obtain ⟨u, ts, rfl, -, hplain⟩ := hts
  rw [List.append_assoc, List.append_assoc]
  have hfront : ∃ v vs, (if negated then [t] else []) ++ (u :: ts ++ (lss.flatten ++ us)) = v :: vs ∧ isKeyword ["!"] v = negated ∧
      v :: vs = if negated then t :: (u :: ts ++ (lss.flatten ++ us)) else u :: ts ++ (lss.flatten ++ us) := by
    cases negated
    · exact ⟨u, _, rfl, hplain, rfl⟩
    · exact ⟨t, _, rfl, ht, rfl⟩
  obtain ⟨v, vs, hall, hv, hvs⟩ := hfront
  rw [hall]
  refine .cur ?_
  rw [hv, hvs]
  refine .optional (List.cons_ne_nil _ _) (.bind (hcommand.mono ?_))
  rintro first' _ ⟨hfirst, rfl⟩
  refine .bind (hmore.mono ?_)
  rintro rest' _ ⟨hrest', rfl⟩
  obtain ⟨hcommands, hbars⟩ := describe_stages hrest'
  have hempty : rest'.isEmpty = rest.isEmpty := by cases hrest' <;> rfl
  rw [hempty]
  cases hend : rest.isEmpty && !negated with
  | true => exact .ite_true rfl (.pure ⟨by simp [pipelineOf, hend, hfirst], rfl⟩)
  | false => exact .ite_false Bool.false_ne_true (.pure ⟨by simp [pipelineOf, Command.describe, describeCommands, *], rfl⟩)

-- A stage by itself is a pipeline.
theorem ReadsCommand.pipeline (h : ReadsCommand cmd ts c) (hts : Staged ts) : ReadsPipeline cmd ts c := by
  have hone : ReadsPipeline cmd ((if false then [{ kind := .word, text := "!", pos := {}, keyword := true }] else []) ++ (ts ++ [].flatten))
      (pipelineOf false c []) := reads_pipeline false h hts .nil rfl
  simpa [pipelineOf] using hone

theorem turn_link {l : Connective × Command} (h : ReadsLink cmd l ts) :
    Turn (link? cmd) Level.pipeline.Ends (fun l l' => l'.2.1 = l.1 ∧ l'.2.2.describe = l.2.describe) l ts := by
  obtain ⟨t, us, rfl, hkind, hbegun, hread⟩ := h
  have hsign : (t.kind == .and || t.kind == .or) = true ∧ (if t.kind == .and then Connective.and else .or) = l.1 ∧
      t.kind ∈ Level.closing .pipeline := by
    rw [hkind]
    cases l.1 <;> decide
  refine ⟨List.cons_ne_nil _ _, fun vs _ => ⟨t, us ++ vs, rfl, hsign.2.2⟩, fun vs hvs => .cur (.ite_true hsign.1 ?_)⟩
  obtain ⟨u, us', rfl, -⟩ := id hbegun
  refine .next (List.cons_ne_nil _ _) (.step (does_skipNewlines_begun hbegun (.bind ((hread vs hvs).mono ?_))))
  rintro c' _ ⟨hsame, rfl⟩
  exact .pure ⟨⟨_, rfl, hsign.2.1, hsame⟩, rfl⟩

theorem describe_chainOf {links : List (Connective × Command)} {links' : List (Position × Connective × Command)}
    (h : List.Forall₂ (fun l l' => l'.2.1 = l.1 ∧ l'.2.2.describe = l.2.describe) links links') (hc : x.describe = y.describe) :
    (links'.foldl (fun x (p, op, y) => Command.andOr p op x y) x).describe = (chainOf y links).describe := by
  induction h generalizing x y with
  | nil => exact hc
  | cons hl _ ih => exact ih (by simp [Command.describe, hl.1, hl.2, hc])

theorem chainOf_congr (h : x.describe = y.describe) (links : List (Connective × Command)) :
    (chainOf x links).describe = (chainOf y links).describe := by
  induction links generalizing x y with
  | nil => exact h
  | cons l links ih => exact ih (by simp [Command.describe, h])

-- A chain goes on with the links that follow it.
theorem ReadsPipeline.chain (h : ReadsPipeline cmd ts c) : ReadsChain cmd ts c := by
  intro links lss us hlinks hus
  have hturns := hlinks.imp fun _ _ => turn_link
  have hend : Obtains (link? cmd) us fun r vs => r = none ∧ vs = us := by
    obtain ⟨u, us, rfl, hu⟩ := hus
    have hall : ∀ k ∈ Level.closing .chain, (k == .and || k == .or) = false := by decide
    exact .cur (.ite_false (by rw [hall _ hu]; exact Bool.false_ne_true) (.pure ⟨rfl, rfl⟩))
  refine .bind ((h _ (next_flatten hturns (hus.mono (by decide)))).mono ?_)
  rintro c' _ ⟨hsame, rfl⟩
  refine .bind ((reads_many hturns (hus.mono (by decide)) hend).mono ?_)
  rintro links' _ ⟨hlinks', rfl⟩
  exact .pure ⟨describe_chainOf hlinks' hsame, rfl⟩

theorem ReadsChain.link {op : Connective} (hx : ReadsChain cmd ts x) (hy : ReadsLink cmd (op, y) us) (p : Position) :
    ReadsChain cmd (ts ++ us) (.andOr p op x y) := by
  intro links lss vs hlinks hvs
  have hread := hx _ _ vs (.cons hy hlinks) hvs
  have hsame : (chainOf (.andOr p op x y) links).describe = (chainOf x ((op, y) :: links)).describe :=
    chainOf_congr (y := .andOr {} op x y) (by simp [Command.describe]) links
  rw [List.flatten_cons, List.append_assoc] at hread
  rw [List.append_assoc, hsame]
  exact hread

end Chains

end Read

-- The command that an item of a list runs.
def Command.foreground : Command → Command
  | .background x => x
  | c => c

theorem Command.describe_foreground {c c' : Command} (h : c'.describe = c.foreground.describe) :
    (if c.isBackground then Command.background c' else c').describe = c.describe := by
  cases c <;> first | exact h | simpa [Command.isBackground, Command.foreground, Command.describe] using h

namespace Read

-- The tokens of a list. Each item is ended by a token; what ends the list ends its last item as well, if `open_` says so.
inductive Lists (cmd : Parse Command) : Bool → List Command → List Token → Prop where
  | nil {open_ : Bool} {nls : List Token} (newlines : ∀ t ∈ nls, t.kind = .newline) : Lists cmd open_ [] nls
  | cons {open_ : Bool} {nls ts us : List Token} {e : Token} {c : Command} {cs : List Command} (newlines : ∀ t ∈ nls, t.kind = .newline)
      (begun : Begun ts) (read : ReadsChain cmd ts c.foreground)
      (ends : if c.isBackground then e.kind = .amp else e.kind = .semi ∨ e.kind = .newline) (rest : Lists cmd open_ cs us) :
      Lists cmd open_ (c :: cs) (nls ++ (ts ++ e :: us))
  | last {nls ts : List Token} {c : Command} (newlines : ∀ t ∈ nls, t.kind = .newline) (begun : Begun ts)
      (read : ReadsChain cmd ts c) (plain : c.isBackground = false) : Lists cmd true [c] (nls ++ ts)

section Lists

variable {s : Setting} {cmd : Parse Command} {stop : Token → Bool} {open_ : Bool} {ts us : List Token} {t u : Token} {c : Command}
variable {cs : List Command}

-- What ends a list.
structure ListEnd (stop : Token → Bool) (open_ : Bool) (u : Token) : Prop where
  begins : ∀ t, Begins t → stop t = false
  stop : u.kind = .eof ∨ stop u = true
  newline : u.kind ≠ .newline
  closing : open_ = true → u.kind ∈ Level.closing .chain ∧ u.kind ∉ [.amp, .semi, .newline]

theorem ReadsChain.alone (h : ReadsChain cmd ts c) (hus : Level.chain.Ends us) :
    Obtains (andOr cmd) (ts ++ us) fun c' vs => c'.describe = c.describe ∧ vs = us := h [] [] us .nil hus

theorem does_item?_none (h : ListEnd stop open_ u) {nls : List Token} (hnls : ∀ t ∈ nls, t.kind = .newline) :
    Does (item? s cmd stop) (nls ++ u :: us) fun r vs => r = none ∧ vs = u :: us := by
  refine .bind (does_skipNewlines hnls h.newline (.bind (.cur ?_)))
  rw [if_pos (by simpa using h.stop)]
  exact .pure ⟨rfl, rfl⟩

-- An item up to the token that ends it.
theorem does_item? (h : ListEnd stop open_ u) {nls : List Token} (hnls : ∀ t ∈ nls, t.kind = .newline) (hbegun : Begun ts)
    (hread : ReadsChain cmd ts c.foreground) {e : Token}
    (he : if c.isBackground then e.kind = .amp else e.kind = .semi ∨ e.kind = .newline) (hne : us ≠ []) :
    Does (item? s cmd stop) (nls ++ (ts ++ e :: us)) fun r vs => (∃ x, r = some (some x) ∧ x.describe = c.describe) ∧ vs = us := by
  have hends : e.kind ∈ Level.closing .chain ∧ (e.kind == .amp || e.kind == .semi || e.kind == .newline) = true ∧
      (e.kind == .amp) = c.isBackground := by
    cases hb : c.isBackground
    · rw [hb] at he
      rcases he with he | he <;> rw [he] <;> decide
    · rw [hb] at he
      rw [show e.kind = .amp from he]
      decide
  have hchain := hread.alone ⟨e, us, rfl, hends.1⟩
  obtain ⟨t, ts, rfl, ht⟩ := hbegun
  refine .bind (does_skipNewlines hnls ht.kind_ne.1 (.bind (.cur ?_)))
  rw [if_neg (by simp [ht.kind_ne.2, h.begins t ht])]
  refine .bind (Does.mono hchain ?_)
  rintro _ _ ⟨c', rfl, hsame, rfl⟩
  refine .bind (.cur ?_)
  dsimp only
  rw [if_pos hends.2.1]
  refine .bind (.next hne (.pure ⟨⟨_, rfl, ?_⟩, rfl⟩))
  rw [hends.2.2]
  exact Command.describe_foreground hsame

-- An item at whose end the list ends.
theorem does_item?_last (h : ListEnd stop true u) {nls : List Token} (hnls : ∀ t ∈ nls, t.kind = .newline) (hbegun : Begun ts)
    (hread : ReadsChain cmd ts c) : Does (item? s cmd stop) (nls ++ (ts ++ u :: us)) fun r vs =>
      (∃ x, r = some (some x) ∧ x.describe = c.describe) ∧ vs = u :: us := by
  obtain ⟨hclosing, hsep⟩ := h.closing rfl
  simp only [List.mem_cons, List.not_mem_nil, or_false, not_or] at hsep
  have hchain := hread.alone ⟨u, us, rfl, hclosing⟩
  obtain ⟨t, ts, rfl, ht⟩ := hbegun
  refine .bind (does_skipNewlines hnls ht.kind_ne.1 (.bind (.cur ?_)))
  rw [if_neg (by simp [ht.kind_ne.2, h.begins t ht])]
  refine .bind (Does.mono hchain ?_)
  rintro _ _ ⟨c', rfl, hsame, rfl⟩
  refine .bind (.cur ?_)
  dsimp only
  rw [if_neg (by simp [hsep]), if_pos (by simpa using h.stop), if_neg (by simp [hsep])]
  exact .bind (.pure (.pure ⟨⟨_, rfl, hsame⟩, rfl⟩))

theorem Lists.does_items (hlist : Lists cmd open_ cs ts) (h : ListEnd stop open_ u) {n : Nat} (hn : (ts ++ u :: us).length < n) :
    Does (listFor (item? s cmd stop) n) (ts ++ u :: us) fun xs vs =>
      describeCommands (xs.filterMap id) = describeCommands cs ∧ vs = u :: us := by
  induction hlist generalizing n with
  | nil hnls =>
      obtain ⟨n, rfl⟩ := Nat.exists_eq_succ_of_ne_zero (Nat.ne_of_gt (Nat.zero_lt_of_lt hn))
      exact .listFor_none ((does_item?_none h hnls).mono fun _ _ ⟨hr, hvs⟩ => ⟨hr, rfl, hvs⟩) n
  | @cons _ nls ts us' e c cs hnls hbegun hread he _ ih =>
      obtain ⟨n, rfl⟩ := Nat.exists_eq_succ_of_ne_zero (Nat.ne_of_gt (Nat.zero_lt_of_lt hn))
      have hrest := ih h (n := n) (by simp at hn ⊢; omega)
      rw [List.append_assoc, List.append_assoc, List.cons_append]
      refine .listFor_some ((does_item? h hnls hbegun hread he (by simp)).mono ?_)
      rintro _ _ ⟨⟨x, rfl, hx⟩, rfl⟩
      exact ⟨_, rfl, hrest.mono fun xs vs ⟨hxs, hvs⟩ => ⟨congrArg₂ List.cons hx hxs, hvs⟩⟩
  | @last nls ts c hnls hbegun hread _ =>
      obtain ⟨n, rfl⟩ := Nat.exists_eq_succ_of_ne_zero (Nat.ne_of_gt (Nat.zero_lt_of_lt hn))
      have hlength : 0 < ts.length := by
        obtain ⟨t, ts, rfl, -⟩ := hbegun
        exact Nat.succ_pos _
      simp only [List.length_append, List.length_cons] at hn
      obtain ⟨n, rfl⟩ := Nat.exists_eq_succ_of_ne_zero (show n ≠ 0 by omega)
      have hstop : Does (item? s cmd stop) (u :: us) _ := does_item?_none h (List.forall_mem_nil _)
      rw [List.append_assoc]
      refine .listFor_some ((does_item?_last h hnls hbegun hread).mono ?_)
      rintro _ _ ⟨⟨x, rfl, hx⟩, rfl⟩
      exact ⟨_, rfl, .listFor_none (hstop.mono fun _ _ ⟨hr, hvs⟩ => ⟨hr, by simp [describeCommands, hx], hvs⟩) n⟩

theorem Lists.does_block (hlist : Lists cmd open_ cs ts) (h : ListEnd stop open_ u) (p : Position) :
    Does (block s cmd stop) (ts ++ u :: us) fun b vs => b.describe = (Block.mk p cs).describe ∧ vs = u :: us := by
  obtain ⟨v, vs, hvs⟩ : ∃ v vs, ts ++ u :: us = v :: vs := by cases ts <;> exact ⟨_, _, rfl⟩
  have hitems := hlist.does_items (s := s) h (Nat.lt_succ_self (ts ++ u :: us).length)
  rw [hvs] at hitems ⊢
  refine .bind (.cur (.bind (.left (.bind (hitems.mono ?_)))))
  rintro xs _ ⟨hxs, rfl⟩
  exact .pure ⟨by rw [Block.describe, Block.describe, hxs], rfl⟩

end Lists

-- A compound command, and the redirections that may follow it.
def ReadsCompound (d : Dialect) (cmd : Parse Command) (ts : List Token) (c : Command) : Prop :=
  ∀ rs rss us, List.Forall₂ (Standing (Redirect.Spelled d)) rs rss → Level.command.Ends us →
    Obtains cmd (ts ++ (rss.flatten ++ us)) fun c' vs => c'.describe = (if rs.isEmpty then c else .redirected c rs).describe ∧ vs = us

def Level.Takes (d : Dialect) (v : Level) (cmd : Parse Command) (ts : List Token) (c : Command) : Prop :=
  match v with
  | .compound => ReadsCompound d cmd ts c ∧ Staged ts
  | .command => ReadsCommand cmd ts c ∧ Staged ts
  | .pipeline => ReadsPipeline cmd ts c ∧ Begun ts
  | .chain => ReadsChain cmd ts c ∧ Begun ts

-- The readers of commands that go on at least as deep as the tokens are long.
def TakenAt (d : Dialect) (v : Level) (ts : List Token) (c : Command) : Prop :=
  ∀ s parts n, ReadsWords parts → ts.length ≤ n → v.Takes d (command s parts (inner s parts n)) ts c

def ListedAt (open_ : Bool) (cs : List Command) (ts : List Token) : Prop :=
  ∀ s parts n, ReadsWords parts → ts.length ≤ n → Lists (command s parts (inner s parts n)) open_ cs ts

end Read

open Read (Level TakenAt ListedAt)

-- How a command is written, split into tokens and read.
structure Command.Spelled (d : Dialect) (ℓ : Layout) (v : Level) (c : Command) (L : List Piece) : Prop where
  prints : Prints ℓ c.print L
  fits : ∀ rest, Closes rest → FitsAll d true L rest
  reads : ∀ ts, Spells L ts → TakenAt d v ts c

section Levels

variable {d : Dialect} {ℓ : Layout} {c : Command} {L : List Piece}

theorem Command.Spelled.command (h : c.Spelled d ℓ .compound L) : c.Spelled d ℓ .command L where
  prints := h.prints
  fits := h.fits
  reads ts hts s parts n hparts hn := by
    obtain ⟨hread, hstaged⟩ := h.reads ts hts s parts n hparts hn
    exact ⟨fun us hus => hread [] [] us .nil hus, hstaged⟩

theorem Command.Spelled.pipeline (h : c.Spelled d ℓ .command L) : c.Spelled d ℓ .pipeline L where
  prints := h.prints
  fits := h.fits
  reads ts hts s parts n hparts hn := by
    obtain ⟨hread, hstaged⟩ := h.reads ts hts s parts n hparts hn
    exact ⟨hread.pipeline hstaged, hstaged.begun⟩

theorem Command.Spelled.chain (h : c.Spelled d ℓ .pipeline L) : c.Spelled d ℓ .chain L where
  prints := h.prints
  fits := h.fits
  reads ts hts s parts n hparts hn := by
    obtain ⟨hread, hbegun⟩ := h.reads ts hts s parts n hparts hn
    exact ⟨hread.chain, hbegun⟩

end Levels

-- Items of lists

def operatorPiece (k : Token.Kind) : Piece := .token { kind := k, text := k.text, pos := {} }

-- What ends an item, and how much of it is written with it.
def stopPieces (c : Command) : List Piece :=
  if c.isBackground then [.blank ' ', operatorPiece .amp, .blank ' '] else [operatorPiece .semi, .blank ' ']

def ampPieces (c : Command) : List Piece := if c.isBackground then [.blank ' ', operatorPiece .amp] else []

def sepPieces (c : Command) : List Piece := if c.isBackground then [.blank ' '] else [operatorPiece .semi, .blank ' ']

section Items

variable {d : Dialect} {ℓ : Layout} {c : Command} {L : List Piece} {rest : List Char} {ts us : List Token} {open_ : Bool} {cs : List Command}

theorem stopPieces_eq (c : Command) : stopPieces c = ampPieces c ++ sepPieces c := by
  unfold stopPieces ampPieces sepPieces
  split <;> rfl

theorem prints_sep (c : Command) : Prints ℓ (Printer.str (separator c)) (sepPieces c) := by
  unfold separator sepPieces
  split <;> exact prints_str rfl

theorem prints_item (h : c.foreground.Spelled d ℓ .chain L) : Prints ℓ c.print (L ++ ampPieces c) := by
  cases c with
  | background x => exact h.prints.bind (prints_str rfl)
  | _ =>
      rw [ampPieces, if_neg (by simp [Command.isBackground]), List.append_nil]
      exact h.prints

theorem closes_ampPieces (c : Command) (hrest : Closes rest) : Closes (textOf (ampPieces c) ++ rest) := by
  unfold ampPieces
  split
  · exact closes_cons (.inl rfl) _
  · exact hrest

theorem fits_item (h : c.foreground.Spelled d ℓ .chain L) (hrest : Closes rest) : FitsAll d true (L ++ ampPieces c) rest := by
  refine fitsAll_append.mpr ⟨h.fits _ (closes_ampPieces c hrest), ?_⟩
  unfold ampPieces
  split
  · exact ⟨.inl rfl, Token.Scanner.fits_common rfl rfl (hrest.breaks (by decide)), trivial⟩
  · trivial

theorem fits_stop (c : Command) (cmd : Bool) (rest : List Char) : FitsAll d cmd (stopPieces c) rest := by
  have hblank (k : Token.Kind) : Token.Scanner.Breaks k (' ' :: rest) := by
    rintro _ ⟨⟩
    simp
  unfold stopPieces
  split
  · exact ⟨.inl rfl, Token.Scanner.fits_common rfl rfl (hblank _), .inl rfl, trivial⟩
  · exact ⟨Token.Scanner.fits_common rfl rfl (hblank _), .inl rfl, trivial⟩

theorem opensAfter_stop (c : Command) (cmd : Bool) : opensAfter cmd (stopPieces c) = true := by
  unfold stopPieces
  split <;> rfl

theorem closes_stop (c : Command) (rest : List Char) : Closes (textOf (stopPieces c) ++ rest) := by
  unfold stopPieces
  split
  · exact closes_cons (.inl rfl) _
  · exact closes_cons (.inr (.inr rfl)) _

theorem listedAt_nil (h : ∀ t ∈ ts, t.kind = .newline) : ListedAt open_ [] ts := fun _ _ _ _ _ => .nil h

-- An item with the token that ends it, in front of the rest of the list.
theorem listedAt_cons (h : c.foreground.Spelled d ℓ .chain L) {vs : List Token} {e : Token} (hts : Spells L ts)
    (he : if c.isBackground then e.kind = .amp else e.kind = .semi ∨ e.kind = .newline) (hrest : ListedAt open_ cs vs) :
    ListedAt open_ (c :: cs) (ts ++ e :: vs) := by
  intro s parts n hparts hn
  simp only [List.length_append, List.length_cons] at hn
  obtain ⟨hread, hbegun⟩ := h.reads ts hts s parts n hparts (by omega)
  exact .cons (List.forall_mem_nil _) hbegun hread he (hrest s parts n hparts (by omega))

theorem spells_stop {L : List Piece} (hts : Spells (stopPieces c ++ L) ts) : ∃ e vs, ts = e :: vs ∧ Spells L vs ∧
    (if c.isBackground then e.kind = .amp else e.kind = .semi ∨ e.kind = .newline) := by
  unfold stopPieces at hts
  split at hts
  · simp only [operatorPiece, List.cons_append, List.nil_append, Token.spells_blank, Token.spells_token] at hts
    obtain ⟨p, vs, rfl, hvs⟩ := hts
    exact ⟨_, vs, rfl, hvs, by simp [*]⟩
  · simp only [operatorPiece, List.cons_append, List.nil_append, Token.spells_blank, Token.spells_token] at hts
    obtain ⟨p, vs, rfl, hvs⟩ := hts
    exact ⟨_, vs, rfl, hvs, by simp [*]⟩

-- A list on one line.
structure InlineSpelled (d : Dialect) (ℓ : Layout) (cs : List Command) (L : List Piece) : Prop where
  prints : Prints ℓ (printInline cs) L
  fits : ∀ rest, Closes rest → FitsAll d true L rest
  reads : ∀ ts, Spells L ts → ListedAt true cs ts
  ends : ∀ c ∈ cs.getLast?, ∀ rest, FitsAll d true (L ++ sepPieces c) rest ∧ opensAfter true (L ++ sepPieces c) = true
  closed : ∀ c ∈ cs.getLast?, ∀ ts, Spells (L ++ sepPieces c) ts → ListedAt false cs ts

theorem inlineSpelled_one (h : c.foreground.Spelled d ℓ .chain L) : InlineSpelled d ℓ [c] (L ++ ampPieces c) where
  prints := prints_item h
  fits _ hrest := fits_item h hrest
  reads ts hts := by
    obtain ⟨us, vs, rfl, hus, hvs⟩ := Token.spells_append.mp hts
    unfold ampPieces at hvs
    split at hvs
    · simp only [operatorPiece, Token.spells_blank, Token.spells_token, Token.spells_nil] at hvs
      obtain ⟨p, _, rfl, rfl⟩ := hvs
      exact listedAt_cons h hus (by simp [*]) (listedAt_nil (List.forall_mem_nil _))
    · rename_i hplain
      have hplain : c.isBackground = false := Bool.eq_false_iff.mpr hplain
      obtain rfl := Token.spells_nil.mp hvs
      intro s parts n hparts hn
      rw [List.append_nil] at hn ⊢
      obtain ⟨hread, hbegun⟩ := h.reads us hus s parts n hparts hn
      have hsame : c.foreground = c := by cases c <;> first | rfl | cases hplain
      rw [hsame] at hread
      exact .last (List.forall_mem_nil _) hbegun hread hplain
  ends := by
    intro c' hc' rest
    obtain rfl : c = c' := by simpa using hc'
    rw [List.append_assoc, ← stopPieces_eq]
    exact ⟨fitsAll_append.mpr ⟨h.fits _ (closes_stop c rest), fits_stop c _ rest⟩, by rw [opensAfter_append, opensAfter_stop]⟩
  closed := by
    intro c' hc' ts hts
    obtain rfl : c = c' := by simpa using hc'
    rw [List.append_assoc, ← stopPieces_eq, ← List.append_nil (stopPieces c)] at hts
    obtain ⟨us, vs, rfl, hus, hvs⟩ := Token.spells_append.mp hts
    obtain ⟨e, vs, rfl, hvs, he⟩ := spells_stop hvs
    obtain rfl := Token.spells_nil.mp hvs
    exact listedAt_cons h hus he (listedAt_nil (List.forall_mem_nil _))

theorem InlineSpelled.cons {M : List Piece} (h : c.foreground.Spelled d ℓ .chain L) (hne : cs ≠ []) (hcs : InlineSpelled d ℓ cs M) :
    InlineSpelled d ℓ (c :: cs) (L ++ (stopPieces c ++ M)) where
  prints := by
    obtain ⟨c', cs, rfl⟩ := List.exists_cons_of_ne_nil hne
    rw [stopPieces_eq, ← List.append_assoc, ← List.append_assoc, List.append_assoc]
    exact (prints_item h).bind ((prints_sep c).bind hcs.prints)
  fits rest hrest := by
    refine fitsAll_append.mpr ⟨h.fits _ ?_, fitsAll_append.mpr ⟨fits_stop c _ _, ?_⟩⟩
    · rw [Token.textOf_append, List.append_assoc]
      exact closes_stop c _
    · rw [opensAfter_stop]
      exact hcs.fits rest hrest
  reads ts hts := by
    obtain ⟨us, vs, rfl, hus, hvs⟩ := Token.spells_append.mp hts
    obtain ⟨e, vs, rfl, hvs, he⟩ := spells_stop hvs
    exact listedAt_cons h hus he (hcs.reads vs hvs)
  ends := by
    intro c' hc' rest
    obtain ⟨b, cs, rfl⟩ := List.exists_cons_of_ne_nil hne
    obtain ⟨hfits, hopens⟩ := hcs.ends c' (by simpa using hc') rest
    rw [List.append_assoc, List.append_assoc]
    refine ⟨fitsAll_append.mpr ⟨h.fits _ ?_, fitsAll_append.mpr ⟨fits_stop c _ _, ?_⟩⟩, ?_⟩
    · rw [Token.textOf_append, List.append_assoc]
      exact closes_stop c _
    · rwa [opensAfter_stop]
    · rwa [opensAfter_append, opensAfter_append, opensAfter_stop]
  closed := by
    intro c' hc' ts hts
    obtain ⟨b, cs, rfl⟩ := List.exists_cons_of_ne_nil hne
    rw [List.append_assoc, List.append_assoc] at hts
    obtain ⟨us, vs, rfl, hus, hvs⟩ := Token.spells_append.mp hts
    obtain ⟨e, vs, rfl, hvs, he⟩ := spells_stop hvs
    exact listedAt_cons h hus he (hcs.closed c' (by simpa using hc') vs hvs)

theorem exists_inlineSpelled (hne : cs ≠ []) (h : ∀ c ∈ cs, ∃ L, c.foreground.Spelled d ℓ .chain L) :
    ∃ L, InlineSpelled d ℓ cs L := by
  induction cs with
  | nil => exact absurd rfl hne
  | cons c cs ih =>
      obtain ⟨⟨L, hL⟩, hcs⟩ := List.forall_mem_cons.mp h
      by_cases hmore : cs = []
      · subst hmore
        exact ⟨_, inlineSpelled_one hL⟩
      · obtain ⟨M, hM⟩ := ih hmore hcs
        exact ⟨_, .cons hL hmore hM⟩

theorem spells_newline {k : Nat} {M : List Piece} (hts : Spells (newlinePieces k ++ M) ts) :
    ∃ e us, ts = e :: us ∧ e.kind = .newline ∧ Spells M us := by
  have hblanks (n : Nat) (us : List Token) : Spells (List.replicate n (.blank '\t') ++ M) us ↔ Spells M us := by
    induction n with
    | zero => rfl
    | succ n ih => exact ih
  obtain ⟨p, us, rfl, hus⟩ := Token.spells_token.mp hts
  exact ⟨_, us, rfl, rfl, (hblanks k us).mp hus⟩

theorem fits_newline (k : Nat) (cmd : Bool) (rest : List Char) : FitsAll d cmd (newlinePieces k) rest := by
  have hblanks (n : Nat) : FitsAll d true (List.replicate n (.blank '\t')) rest := by
    induction n with
    | zero => trivial
    | succ n ih => exact ⟨.inr rfl, ih⟩
  exact ⟨.newline {}, hblanks k⟩

theorem opensAfter_newline (k : Nat) (cmd : Bool) : opensAfter cmd (newlinePieces k) = true := by
  have hblanks (n : Nat) : opensAfter true (List.replicate n (.blank '\t')) = true := by
    induction n with
    | zero => rfl
    | succ n ih => exact ih
  exact hblanks k

theorem closes_newline (k : Nat) (rest : List Char) : Closes (textOf (newlinePieces k) ++ rest) := closes_cons (.inr (.inl rfl)) _

theorem listedAt_newline {e : Token} (h : ListedAt open_ cs ts) (he : e.kind = .newline) : ListedAt open_ cs (e :: ts) := by
  intro s parts n hparts hn
  have hall {nls : List Token} (hnls : ∀ t ∈ nls, t.kind = .newline) : ∀ t ∈ e :: nls, t.kind = .newline :=
    List.forall_mem_cons.mpr ⟨he, hnls⟩
  cases h s parts n hparts (Nat.le_of_succ_le hn) with
  | nil hnls => exact .nil (hall hnls)
  | cons hnls hbegun hread hends hrest => exact .cons (hall hnls) hbegun hread hends hrest
  | last hnls hbegun hread hplain => exact .last (hall hnls) hbegun hread hplain

-- A list with each command on a line of its own, in front of a further newline.
structure LinesSpelled (d : Dialect) (ℓ : Layout) (cs : List Command) (L : List Piece) : Prop where
  prints : Prints ℓ (printLines cs) L
  fits : ∀ cmd rest, Closes rest → FitsAll d cmd L rest
  closes : ∀ rest, Closes rest → Closes (textOf L ++ rest)
  reads : ∀ k ts, Spells (L ++ newlinePieces k) ts → ∃ e us, ts = e :: us ∧ e.kind = .newline ∧ ListedAt false cs us

theorem linesSpelled_nil : LinesSpelled d ℓ [] [] where
  prints := prints_pure
  fits _ _ _ := trivial
  closes _ h := h
  reads k ts hts := by
    rw [List.nil_append, ← List.append_nil (newlinePieces k)] at hts
    obtain ⟨e, us, rfl, he, hus⟩ := spells_newline hts
    obtain rfl := Token.spells_nil.mp hus
    exact ⟨e, [], rfl, he, listedAt_nil (List.forall_mem_nil _)⟩

theorem LinesSpelled.cons {M : List Piece} (h : c.foreground.Spelled d ℓ .chain L) (hcs : LinesSpelled d ℓ cs M) :
    LinesSpelled d ℓ (c :: cs) (newlinePieces ℓ.indent ++ ((L ++ ampPieces c) ++ M)) where
  prints := prints_newline.bind ((prints_item h).bind hcs.prints)
  fits cmd rest hrest := by
    refine fitsAll_append.mpr ⟨fits_newline _ _ _, ?_⟩
    rw [opensAfter_newline]
    exact fitsAll_append.mpr ⟨fits_item h (hcs.closes rest hrest), hcs.fits _ rest hrest⟩
  closes rest _ := by
    rw [Token.textOf_append, List.append_assoc]
    exact closes_newline _ _
  reads k ts hts := by
    rw [List.append_assoc, List.append_assoc] at hts
    obtain ⟨e, us, rfl, he, hus⟩ := spells_newline hts
    refine ⟨e, us, rfl, he, ?_⟩
    rw [List.append_assoc] at hus
    obtain ⟨us, vs, rfl, hL, hvs⟩ := Token.spells_append.mp hus
    unfold ampPieces at hvs
    split at hvs
    · simp only [operatorPiece, List.cons_append, List.nil_append, Token.spells_blank, Token.spells_token] at hvs
      obtain ⟨p, vs, rfl, hvs⟩ := hvs
      obtain ⟨e', vs, rfl, he', hlist⟩ := hcs.reads k vs hvs
      exact listedAt_cons h hL (by simp [*]) (listedAt_newline hlist he')
    · obtain ⟨e', vs, rfl, he', hlist⟩ := hcs.reads k vs hvs
      exact listedAt_cons h hL (by simp [*]) hlist

theorem exists_linesSpelled (h : ∀ c ∈ cs, ∃ L, c.foreground.Spelled d ℓ .chain L) : ∃ L, LinesSpelled d ℓ cs L := by
  induction cs with
  | nil => exact ⟨[], linesSpelled_nil⟩
  | cons c cs ih =>
      obtain ⟨⟨L, hL⟩, hcs⟩ := List.forall_mem_cons.mp h
      obtain ⟨M, hM⟩ := ih hcs
      exact ⟨_, .cons hL hM⟩

-- The body of a compound command.
structure BodySpelled (d : Dialect) (ℓ : Layout) (b : Block) (L : List Piece) : Prop where
  prints : Prints ℓ b.printBody L
  fits : ∀ rest, FitsAll d true L rest
  opens : opensAfter true L = true
  closes : ∀ rest, Closes (textOf L ++ rest)
  reads : ∀ ts, Spells L ts → ListedAt false b.items ts

theorem exists_bodySpelled {b : Block} (h : ∀ ℓ, ∀ c ∈ b.items, ∃ L, c.foreground.Spelled d ℓ .chain L) (ℓ : Layout) :
    ∃ L, BodySpelled d ℓ b L := by
  obtain ⟨p, cs⟩ := b
  cases hinline : decide (ℓ.inline > 0) with
  | false =>
      obtain ⟨L, hL⟩ := exists_linesSpelled (h { ℓ with indent := ℓ.indent + 1 })
      refine ⟨L ++ newlinePieces ℓ.indent, ?_, fun rest => ?_, ?_, fun rest => ?_, fun ts hts => ?_⟩
      · rw [Block.printBody]
        refine .isInline ?_
        rw [hinline]
        exact hL.prints.indented.bind prints_newline
      · exact fitsAll_append.mpr ⟨hL.fits _ _ (closes_newline _ _), fits_newline _ _ _⟩
      · rw [opensAfter_append, opensAfter_newline]
      · rw [Token.textOf_append, List.append_assoc]
        exact hL.closes _ (closes_newline _ _)
      · obtain ⟨e, us, rfl, he, hlist⟩ := hL.reads _ ts hts
        exact listedAt_newline hlist he
  | true =>
      have hblank : Prints ℓ (Printer.str " ") [.blank ' '] := prints_str rfl
      by_cases hne : cs = []
      · subst hne
        refine ⟨[.blank ' '], ?_, fun _ => ⟨.inl rfl, trivial⟩, rfl, fun _ => closes_cons (.inl rfl) _, fun ts hts => ?_⟩
        · rw [Block.printBody]
          refine .isInline ?_
          rw [hinline]
          exact hblank.bind prints_pure
        rw [Token.spells_blank, Token.spells_nil] at hts
        subst hts
        exact listedAt_nil (List.forall_mem_nil _)
      · obtain ⟨L, hL⟩ := exists_inlineSpelled hne (h { ℓ with inline := ℓ.inline + 1 })
        obtain ⟨c, hc⟩ : ∃ c, cs.getLast? = some c := by
          cases hlast : cs.getLast? with
          | none => exact absurd (List.getLast?_eq_none_iff.mp hlast) hne
          | some c => exact ⟨c, rfl⟩
        have hlast := hL.ends c hc
        refine ⟨.blank ' ' :: (L ++ sepPieces c), ?_, fun rest => ⟨.inl rfl, (hlast rest).1⟩, (hlast []).2,
          fun _ => closes_cons (.inl rfl) _, fun ts hts => hL.closed c hc ts hts⟩
        rw [Block.printBody]
        refine .isInline ?_
        rw [hinline, hc]
        exact hblank.bind (hL.prints.inlined.bind (prints_sep c))

end Items

end Script
end ShellScript

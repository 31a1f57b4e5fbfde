import ShellScript.Proofs.Script.TokenReading

-- Commands without the constructs that are read in a way of their own, and how the simple ones among them are written,
-- split into tokens and read.
namespace ShellScript
namespace Token

-- The part of the grammar that an operator belongs to.
def Kind.feature? : Kind → Option Feature
  | .pipeAll => some .pipeAll
  | .semiAmp | .dsemiAmp => some .caseFallthrough
  | .tless => some .hereString
  | .andGreat | .andDgreat => some .ampRedirect
  | _ => none

-- The operators that stand for themselves: no here-document follows.
def Kind.isPlain (k : Kind) : Bool := (k.isOperator || k.isRedirection) && k != .dless && k != .dlessDash

namespace Scanner

variable {d : Dialect} {cmd : Bool} {k : Kind} {rest : List Char}

-- What an operator ends before.
def Breaks (k : Kind) (rest : List Char) : Prop :=
  ∀ c ∈ rest.head?, c ∉ ['&', '|', '<', '>', '('] ∧ (c = ';' → k ≠ .semi)

theorem operatorAt_append (hk : k.isPlain = true) (hrest : Breaks k rest) :
    operatorAt (k.text.toList ++ rest) = some (k, k.text.toList.length, k.feature?) := by
  cases rest with
  | nil => cases k <;> first | rfl | cases hk
  | cons c cs =>
      obtain ⟨hc, hsemi⟩ := hrest c rfl
      simp only [List.mem_cons, List.not_mem_nil, or_false, not_or] at hc
      cases k <;> first | (cases hk; done) | simp_all [Kind.text, operatorAt, Kind.feature?]

theorem fits_operator (hk : k.isPlain = true) (hd : ∀ f ∈ k.feature?, d.supports f = true) (hrest : Breaks k rest) (p : Position) :
    Fits d cmd rest { kind := k, text := k.text, pos := p } := by
  refine .operator (operatorAt_append hk hrest) hd (fun _ hparen => ?_) ⟨?_, ?_⟩ p
  · exact (hrest '(' hparen).1 (by decide)
  · rintro rfl
    cases hk
  · rintro rfl
    cases hk

-- An operator that every dialect has.
theorem fits_common (hk : k.isPlain = true) (hd : k.feature? = none) (hrest : Breaks k rest) :
    Fits d cmd rest { kind := k, text := k.text, pos := {} } := by
  refine fits_operator hk (fun f hf => ?_) hrest {}
  rw [hd] at hf
  cases hf

end Scanner
end Token

namespace Script

open Token (Piece Spells tokensOf textOf plainWord)
open Token.Scanner (Fits FitsAll Ends IsWord startsWord opensAfter)

-- Where a command is written: how far its lines are indented, and how many one-line lists surround it.
structure Layout where
  indent : Nat := 0
  inline : Nat := 0

-- What a printer writes where no here-document waits.
def Prints (ℓ : Layout) (x : Printing Unit) (L : List Piece) : Prop :=
  ∀ out, x.run { out, indent := ℓ.indent, inline := ℓ.inline } =
    ((), { out := out ++ String.ofList (textOf L), indent := ℓ.indent, inline := ℓ.inline })

section Prints

variable {ℓ : Layout} {x y : Printing Unit} {L M : List Piece}

theorem prints_pure : Prints ℓ (pure ()) [] := fun out => by
  rw [show textOf [] = [] from rfl, String.ofList_nil, String.append_empty]
  rfl

theorem Prints.bind (h : Prints ℓ x L) (h' : Prints ℓ y M) : Prints ℓ (x >>= fun _ => y) (L ++ M) := fun out => by
  rw [run_bind_of (h out), h', Token.textOf_append, String.ofList_append, String.append_assoc]

theorem prints_str {v : String} (h : v.toList = textOf L) : Prints ℓ (Printer.str v) L := fun out => by
  rw [← h, String.ofList_toList]
  rfl

def newlinePieces (indent : Nat) : List Piece :=
  .token { kind := .newline, text := "\n", pos := {} } :: List.replicate indent (.blank '\t')

theorem textOf_newlinePieces (n : Nat) : textOf (newlinePieces n) = '\n' :: List.replicate n '\t' := by
  have hblanks : (List.replicate n (Piece.blank '\t')).flatMap Piece.text = List.replicate n '\t' := by
    induction n with
    | zero => rfl
    | succ n ih => rw [List.replicate_succ, List.flatMap_cons, ih]; rfl
  rw [newlinePieces, textOf, List.flatMap_cons, hblanks]
  rfl

theorem toList_replicate (n : Nat) : (Text.replicate n "\t").toList = List.replicate n '\t' := by
  rw [Text.replicate, String.toList_join, List.flatMap_replicate]
  simp

theorem prints_newline : Prints ℓ Printer.newline (newlinePieces ℓ.indent) := fun out => by
  have htext : "\n" ++ Text.replicate ℓ.indent "\t" = String.ofList (textOf (newlinePieces ℓ.indent)) := by
    rw [textOf_newlinePieces, String.ofList_cons, ← toList_replicate, String.ofList_toList]
    rfl
  change ((), { out := out ++ "\n" ++ "" ++ Text.replicate ℓ.indent "\t", indent := ℓ.indent, inline := ℓ.inline : Printer }) = _
  rw [← htext, String.append_empty, String.append_assoc]

theorem Prints.indented (h : Prints { ℓ with indent := ℓ.indent + 1 } x L) : Prints ℓ (Printer.indented x) L := fun out => by
  refine (run_bind_of (x := modify _) (q := { out, indent := ℓ.indent + 1, inline := ℓ.inline }) rfl _).trans ?_
  exact (run_bind_of (h out) _).trans rfl

theorem Prints.inlined (h : Prints { ℓ with inline := ℓ.inline + 1 } x L) : Prints ℓ (Printer.inlined x) L := fun out => by
  refine (run_bind_of (x := modify _) (q := { out, indent := ℓ.indent, inline := ℓ.inline + 1 }) rfl _).trans ?_
  exact (run_bind_of (h out) _).trans rfl

theorem Prints.isInline {f : Bool → Printing Unit} (h : Prints ℓ (f (ℓ.inline > 0)) L) : Prints ℓ (Printer.isInline >>= f) L := h

end Prints

-- What a command ends before.
def Closes (rest : List Char) : Prop := ∀ c ∈ rest.head?, c = ' ' ∨ c = '\n' ∨ c = ';'

section Closes

variable {rest : List Char}

theorem closes_cons {c : Char} (hc : c = ' ' ∨ c = '\n' ∨ c = ';') (cs : List Char) : Closes (c :: cs) := by
  rintro _ ⟨⟩
  exact hc

theorem Closes.ends (h : Closes rest) : Ends rest := by
  cases rest with
  | nil => exact Token.Scanner.ends_nil
  | cons c cs => exact Token.Scanner.ends_cons (by rcases h c rfl with rfl | rfl | rfl <;> decide) cs

theorem Closes.head?_ne (h : Closes rest) : rest.head? ≠ some '(' := fun hparen => by
  rcases h '(' hparen with h | h | h <;> cases h

theorem Closes.breaks (h : Closes rest) {k : Token.Kind} (hk : k ≠ .semi) : Token.Scanner.Breaks k rest := fun c hc => by
  rcases h c hc with rfl | rfl | rfl <;> simp [hk]

end Closes

-- Pieces that each follow a blank.
def spaced (Ls : List (List Piece)) : List Piece := Ls.flatMap (.blank ' ' :: ·)

-- Where tokens stand that are those of something written.
def Standing {α : Type} (P : α → List Piece → Prop) (x : α) (ts : List Token) : Prop := ∃ L, P x L ∧ Spells L ts

-- Written as a single token.
def OneToken {α : Type} (P : α → Token → Prop) (x : α) (L : List Piece) : Prop := ∃ t, P x t ∧ L = [.token t]

theorem standing_oneToken {α : Type} {P : α → Token → Prop} {x : α} {ts : List Token} (h : Standing (OneToken P) x ts) :
    ∃ t p, P x t ∧ ts = [{ t with pos := p }] := by
  obtain ⟨_, ⟨t, ht, rfl⟩, hts⟩ := h
  obtain ⟨p, us, rfl, hus⟩ := Token.spells_token.mp hts
  exact ⟨t, p, ht, by rw [Token.spells_nil.mp hus]⟩

-- Found where a command may or may not begin, after which none may begin.
def Fitting (d : Dialect) (cmd : Bool) (L : List Piece) : Prop :=
  (∀ rest, Closes rest → FitsAll d cmd L rest) ∧ opensAfter cmd L = false

section Spaced

variable {α : Type} {P : α → List Piece → Prop} {xs : List α} {Ls : List (List Piece)} {ts : List Token} {d : Dialect} {cmd : Bool}

theorem standing_flatten (h : List.Forall₂ P xs Ls) (hts : Spells Ls.flatten ts) :
    ∃ tss, ts = tss.flatten ∧ List.Forall₂ (Standing P) xs tss := by
  induction h generalizing ts with
  | nil => exact ⟨[], Token.spells_nil.mp hts, .nil⟩
  | cons hx _ ih =>
      rw [List.flatten_cons, Token.spells_append] at hts
      obtain ⟨us, vs, rfl, hus, hvs⟩ := hts
      obtain ⟨tss, rfl, hall⟩ := ih hvs
      exact ⟨us :: tss, rfl, .cons ⟨_, hx, hus⟩ hall⟩

theorem spells_spaced : Spells (spaced Ls) ts ↔ Spells Ls.flatten ts := by
  have hsame : Token.tokensOf (spaced Ls) = Token.tokensOf Ls.flatten := by
    induction Ls with
    | nil => rfl
    | cons L Ls ih => simpa [spaced, Token.tokensOf] using ih
  rw [Spells, Spells, hsame]

theorem spells_spaced_tail : Spells (spaced Ls).tail ts ↔ Spells Ls.flatten ts := by
  rw [← spells_spaced]
  cases Ls <;> rfl

theorem closes_spaced {rest : List Char} (hrest : Closes rest) : Closes (textOf (spaced Ls) ++ rest) := by
  cases Ls with
  | nil => exact hrest
  | cons L Ls => exact closes_cons (.inl rfl) _

theorem fitting_spaced (hfirst : ∀ L ∈ Ls.head?, Fitting d cmd L) (hmore : ∀ L ∈ Ls, Fitting d false L) (hne : Ls ≠ []) :
    Fitting d cmd (spaced Ls) ∧ Fitting d cmd (spaced Ls).tail := by
  suffices h : Fitting d cmd (spaced Ls).tail by
    obtain ⟨L, Ls, rfl⟩ := List.exists_cons_of_ne_nil hne
    exact ⟨⟨fun rest hrest => ⟨.inl rfl, h.1 rest hrest⟩, h.2⟩, h⟩
  induction Ls generalizing cmd with
  | nil => exact absurd rfl hne
  | cons L Ls ih =>
      obtain ⟨hL, hLs⟩ := List.forall_mem_cons.mp hmore
      obtain ⟨hfits, hopens⟩ := hfirst L rfl
      have htail : (spaced (L :: Ls)).tail = L ++ spaced Ls := rfl
      cases Ls with
      | nil =>
          rw [htail, show spaced [] = [] from rfl, List.append_nil]
          exact ⟨hfits, hopens⟩
      | cons M Ls =>
          obtain ⟨hmore, hclosed⟩ := ih (fun M hM => hLs M (List.mem_of_mem_head? hM)) hLs (List.cons_ne_nil _ _)
          rw [htail]
          refine ⟨fun rest hrest => Token.Scanner.fitsAll_append.mpr ⟨hfits _ (closes_spaced hrest), ?_⟩, ?_⟩
          · rw [hopens]
            exact ⟨.inl rfl, hmore rest hrest⟩
          · rw [Token.Scanner.opensAfter_append, hopens]
            exact hclosed

theorem prints_spaced {ℓ : Layout} {f : List α → Printing Unit} {print : α → Printing Unit} (hnil : f [] = pure ())
    (hcons : ∀ x xs, f (x :: xs) = do Printer.str " "; print x; f xs) (h : List.Forall₂ (fun x L => Prints ℓ (print x) L) xs Ls) :
    Prints ℓ (f xs) (spaced Ls) := by
  induction h with
  | nil =>
      rw [hnil]
      exact prints_pure
  | @cons x L xs Ls hx _ ih =>
      rw [hcons]
      exact (prints_str (L := [.blank ' ']) rfl).bind (hx.bind ih)

end Spaced

-- A word of text, quotations and the values of variables, where a word may begin.
def Word.Ordinary (w : Word) : Prop := ∃ c cs, Written false w.parts (c :: cs) ∧ startsWord c = true

-- How such a word is split off.
inductive Word.Spelled (d : Dialect) (w : Word) : Token → Prop where
  | mk {cs : List Char} {q : Bool} (written : Written false w.parts cs)
      (found : ∀ rest, Ends rest → rest.head? ≠ some '(' → IsWord d q cs rest) : Word.Spelled d w (plainWord cs {} q)

section Words

variable {d : Dialect} {ℓ : Layout} {w : Word} {t : Token} {cmd : Bool} {rest : List Char}

theorem Word.Ordinary.spelled (h : w.Ordinary) (d : Dialect) : ∃ t, w.Spelled d t := by
  obtain ⟨c, cs, hwritten, hc⟩ := h
  obtain ⟨q, hgathers⟩ := Token.Scanner.gathers_written (d := d) hwritten rfl
  exact ⟨_, .mk hwritten fun rest hends hparen => hgathers.isWord hc hends hparen⟩

theorem Word.Spelled.prints (h : w.Spelled d t) : Prints ℓ w.print [.token t] := fun out => by
  obtain ⟨hwritten, -⟩ := h
  obtain ⟨ps⟩ := w
  have htext (cs : List Char) (q : Bool) : textOf [.token (plainWord cs {} q)] = cs := by simp [textOf, Piece.text, plainWord]
  rw [Word.print, hwritten.prints, htext]

theorem Word.Spelled.fits (h : w.Spelled d t) (hkey : (Token.isReserved t.text && cmd) = false) (hends : Ends rest)
    (hparen : rest.head? ≠ some '(') : Fits d cmd rest t := by
  obtain ⟨-, hfound⟩ := h
  exact Token.Scanner.fits_plainWord (hfound rest hends hparen) hkey {}

theorem Word.Spelled.text (h : w.Spelled d t) : w.text = t.text := by
  have hprint : w.print.run {} = _ := h.prints (ℓ := {}) ""
  rw [Word.text, Printer.fresh, hprint]
  simp [textOf, Piece.text]

theorem Word.Spelled.plain (h : w.Spelled d t) : t.kind = .word ∧ t.keyword = false := by
  obtain ⟨-, -⟩ := h
  exact ⟨rfl, rfl⟩

theorem Word.Spelled.head (h : w.Spelled d t) : ∃ c cs, t.text.toList = c :: cs ∧ startsWord c = true := by
  obtain ⟨-, hfound⟩ := h
  rw [plainWord, String.toList_ofList]
  exact (hfound [] Token.Scanner.ends_nil (by simp)).head

end Words

-- The value of an assignment may be empty.
inductive ValueWritten : Option Word → List Char → Prop where
  | empty : ValueWritten none []
  | given {w : Word} {c : Char} {cs : List Char} (written : Written false w.parts (c :: cs)) : ValueWritten (some w) (c :: cs)

-- `name=value` and `name+=value`
structure Assignment.Ordinary (a : Assignment) : Prop where
  name : Text.isName a.name = true
  index : a.index = none
  naked : a.naked = false
  array : a.array = none
  value : ∃ cs, ValueWritten a.value cs

inductive Assignment.Spelled (d : Dialect) (a : Assignment) : Token → Prop where
  | mk {cs : List Char} {q : Bool} (ordinary : a.Ordinary) (value : ValueWritten a.value cs)
      (found : ∀ rest, Ends rest → rest.head? ≠ some '(' → IsWord d q (a.name.toList ++ (Read.signOf a.append ++ cs)) rest) :
      Assignment.Spelled d a (plainWord (a.name.toList ++ (Read.signOf a.append ++ cs)) {} q)

-- The redirections without a here-document.
structure Redirect.Ordinary (d : Dialect) (r : Redirect) : Prop where
  op : r.op.isRedirection = true ∧ r.op.isPlain = true
  supported : ∀ f ∈ r.op.feature?, d.supports f = true
  number : r.n = "" ∨ Text.isNumeral r.n = true ∧ r.op ≠ .andGreat ∧ r.op ≠ .andDgreat
  word : r.word.Ordinary
  doc : r.doc = none

def numberPieces (n : String) : List Piece := if n = "" then [] else [.token { kind := .ioNumber, text := n, pos := {} }]

inductive Redirect.Spelled (d : Dialect) (r : Redirect) : List Piece → Prop where
  | mk {t : Token} (ordinary : r.Ordinary d) (word : r.word.Spelled d t) :
      Redirect.Spelled d r (numberPieces r.n ++ [.token { kind := r.op, text := r.op.text, pos := {} }, .token t])

section Operands

variable {d : Dialect} {ℓ : Layout} {t : Token} {cmd : Bool} {rest : List Char} {a : Assignment} {r : Redirect} {L : List Piece}

theorem ValueWritten.prints {v : Option Word} {cs : List Char} (h : ValueWritten v cs) (p : Printer) :
    (printOptWord v).run p = ((), { p with out := p.out ++ String.ofList cs }) := by
  cases h with
  | empty =>
      rw [String.ofList_nil, String.append_empty]
      rfl
  | @given w c cs hwritten =>
      obtain ⟨ps⟩ := w
      exact hwritten.prints p

theorem ValueWritten.gathers {v : Option Word} {cs : List Char} (h : ValueWritten v cs) (d : Dialect) :
    (∃ q, Token.Scanner.Gathers d cs q) ∧ cs.head? ≠ some '(' := by
  cases h with
  | empty => exact ⟨⟨false, Token.Scanner.gathers_solid (List.forall_mem_nil _)⟩, nofun⟩
  | given hwritten => exact ⟨Token.Scanner.gathers_written hwritten rfl, hwritten.head?_ne rfl⟩

theorem Assignment.Ordinary.spelled (h : a.Ordinary) (d : Dialect) : ∃ t, a.Spelled d t := by
  obtain ⟨cs, hvalue⟩ := h.value
  obtain ⟨⟨q, hgathers⟩, hparen⟩ := hvalue.gathers d
  obtain ⟨c, ds, hname, hc, hall⟩ := Text.exists_cons_of_isName h.name
  have hsolid : Token.Scanner.IsSolid (a.name.toList ++ Read.signOf a.append) := by
    refine List.forall_mem_append.mpr ⟨Token.Scanner.isSolid_of_isNameChar hall, ?_⟩
    cases a.append <;> exact List.all_iff_forall_prop.mp (by decide)
  have hword := (Token.Scanner.gathers_solid (d := d) hsolid).append hgathers hparen
  refine ⟨_, .mk (q := false || q) h hvalue fun rest hends hparen => ?_⟩
  rw [hname, List.append_assoc] at hword
  rw [hname]
  exact hword.isWord (Token.Scanner.startsWord_of_isNameStart hc) hends hparen

theorem Assignment.Spelled.prints (h : a.Spelled d t) : Prints ℓ a.print [.token t] := fun out => by
  obtain ⟨⟨-, hindex, hnaked, harray, -⟩, hvalue, -⟩ := h
  obtain ⟨p, name, index, append, naked, value, array⟩ := a
  obtain rfl : index = none := hindex
  obtain rfl : naked = false := hnaked
  obtain rfl : array = none := harray
  have hprint : (Assignment.print ⟨p, name, none, append, false, value, none⟩).run { out, indent := ℓ.indent, inline := ℓ.inline } =
      (printOptWord value).run { out := out ++ name ++ String.ofList (Read.signOf append), indent := ℓ.indent, inline := ℓ.inline } := by
    cases append <;> rfl
  rw [hprint, hvalue.prints]
  simp [textOf, Piece.text, plainWord, String.append_assoc, String.ofList_append]

theorem not_reserved_of_equals {w : String} (h : '=' ∈ w.toList) : Token.isReserved w = false := by
  have hall : ∀ w ∈ Token.reserved, '=' ∉ w.toList := by decide
  rw [Token.isReserved, List.contains_eq_mem, decide_eq_false_iff_not]
  exact fun hmem => hall w hmem h

theorem Assignment.Spelled.fits (h : a.Spelled d t) (hrest : Closes rest) : Fits d cmd rest t := by
  obtain ⟨-, -, hfound⟩ := h
  have hequals : '=' ∈ Read.signOf a.append := by cases a.append <;> decide
  refine Token.Scanner.fits_plainWord (hfound rest hrest.ends hrest.head?_ne) ?_ {}
  rw [not_reserved_of_equals (by simp [hequals]), Bool.false_and]

theorem Redirect.Ordinary.spelled (h : r.Ordinary d) : ∃ L, r.Spelled d L := by
  obtain ⟨t, ht⟩ := h.word.spelled d
  exact ⟨_, .mk h ht⟩

theorem Redirect.Spelled.prints (h : r.Spelled d L) : Prints ℓ r.print L := by
  obtain ⟨⟨-, -, -, -, hdoc⟩, hword⟩ := h
  obtain ⟨p, op, n, word, doc⟩ := r
  obtain rfl : doc = none := hdoc
  have hfront : (n ++ op.text).toList = textOf (numberPieces n ++ [.token { kind := op, text := op.text, pos := {} }]) := by
    unfold numberPieces
    split <;> simp [*, textOf, Piece.text]
  have hprints := (prints_str hfront).bind ((hword.prints (ℓ := ℓ)).bind prints_pure)
  rw [List.append_assoc] at hprints
  exact hprints

theorem numbered_text {k : Token.Kind} (hk : k.isRedirection = true ∧ k.isPlain = true ∧ k ≠ .andGreat ∧ k ≠ .andDgreat) :
    (k.text.toList.head? = some '<' ∨ k.text.toList.head? = some '>') ∧ k.text.toList.tail.head? ≠ some '(' := by
  revert hk
  cases k <;> decide

theorem Redirect.Spelled.fits (h : r.Spelled d L) (hrest : Closes rest) : FitsAll d cmd L rest := by
  obtain @⟨t, hordinary, hword⟩ := h
  obtain ⟨c, cs, htext, hc⟩ := hword.head
  have hne (x : Char) (hx : startsWord x = false) : c ≠ x := Token.Scanner.ne_of_head hc hx
  have hcons : textOf [.token t] ++ rest = c :: (cs ++ rest) := by simp [textOf, Piece.text, htext]
  have hop (cmd : Bool) : FitsAll d cmd [.token { kind := r.op, text := r.op.text, pos := {} }, .token t] rest := by
    refine ⟨Token.Scanner.fits_operator hordinary.op.2 hordinary.supported ?_ {}, ?_, trivial⟩
    · rw [hcons]
      rintro _ ⟨⟩
      simp [hne '&' (by decide), hne '|' (by decide), hne '<' (by decide), hne '>' (by decide), hne '(' (by decide), hne ';' (by decide)]
    · have hcmd : Token.opens cmd { kind := r.op, text := r.op.text, pos := {} } = false := by
        have hkind := hordinary.op.1
        generalize r.op = k at hkind
        revert hkind
        cases k <;> decide +revert
      exact hword.fits (by rw [hcmd, Bool.and_false]) hrest.ends hrest.head?_ne
  unfold numberPieces
  split
  · exact hop cmd
  · obtain ⟨hnumeral, hand⟩ := hordinary.number.resolve_left ‹_›
    obtain ⟨hfront, hnext⟩ := numbered_text ⟨hordinary.op.1, hordinary.op.2, hand⟩
    have hnumber := @Fits.number d cmd (r.op.text.toList ++ c :: (cs ++ rest)) r.n.toList
      (by rwa [String.ofList_toList]) ?_ {}
    · rw [String.ofList_toList, ← hcons] at hnumber
      refine ⟨?_, hop _⟩
      simpa [textOf, Piece.text] using hnumber
    · cases hop : r.op.text.toList with
      | nil => simp [hop] at hfront
      | cons b bs =>
          rw [hop] at hfront hnext
          refine ⟨b, bs ++ c :: (cs ++ rest), rfl, by simpa using hfront, ?_⟩
          cases bs with
          | nil => exact fun hparen => hne '(' (by decide) (Option.some.inj hparen)
          | cons b' bs => exact hnext

theorem Redirect.Spelled.opensAfter (h : r.Spelled d L) : opensAfter cmd L = false := by
  obtain ⟨-, hword⟩ := h
  obtain ⟨hkind, hkey⟩ := hword.plain
  rw [Token.Scanner.opensAfter_append]
  simp [Token.Scanner.opensAfter, Token.opens, hkind, hkey]

-- The tokens of a redirection: a number that may be there, the operator and the word.
theorem Redirect.Spelled.tokens (h : r.Spelled d L) {ts : List Token} (hts : Spells L ts) : r.Ordinary d ∧ ∃ t u p q, r.word.Spelled d t ∧
    Read.isRedirection u = true ∧ (if u.kind == .ioNumber then u.text else "") = r.n ∧
    let ts' := [{ kind := r.op, text := r.op.text, pos := p }, { t with pos := q }]
    ts.head? = some u ∧ ts = if u.kind == .ioNumber then u :: ts' else ts' := by
  obtain @⟨t, hordinary, hword⟩ := h
  have hnumber : (r.op == .ioNumber) = false := by
    have hop := hordinary.op.1
    cases hkind : r.op <;> first | rfl | simp [hkind] at hop; cases hop
  refine ⟨hordinary, t, ?_⟩
  unfold numberPieces at hts
  split at hts
  · simp only [List.nil_append, Token.spells_token, Token.spells_nil] at hts
    obtain ⟨p, _, rfl, q, _, rfl, rfl⟩ := hts
    refine ⟨_, p, q, hword, ?_, ?_, rfl, ?_⟩
    · simp [Read.isRedirection, hordinary.op.1]
    · simp [*]
    · simp [hnumber]
  · simp only [List.cons_append, List.nil_append, Token.spells_token, Token.spells_nil] at hts
    obtain ⟨_, _, rfl, p, _, rfl, q, _, rfl, rfl⟩ := hts
    exact ⟨_, p, q, hword, rfl, rfl, rfl, rfl⟩

theorem Redirect.Spelled.starts (h : r.Spelled d L) {ts : List Token} (hts : Spells L ts) : ∃ t us, ts = t :: us ∧ Read.isRedirection t = true := by
  obtain ⟨-, _, u, _, _, -, hu, -, hhead, -⟩ := h.tokens hts
  obtain ⟨us, hts⟩ := List.head?_eq_some_iff.mp hhead
  exact ⟨u, us, hts, hu⟩

end Operands

namespace Read

-- What the reader of words makes of such words.
def ReadsWords (parts : PartsReader) : Prop :=
  ∀ ps cs p, Written false ps cs → ∃ ps', describeParts ps' = describeParts ps ∧ parts .unquoted p cs = pure ps'

-- Whether a word begins like an assignment.
def startsAssignment (cs : List Char) : Bool :=
  match cs.dropWhile Text.isNameChar with
  | '=' :: _ | '+' :: '=' :: _ | '[' :: _ => true
  | _ => false

section Words

variable {d : Dialect} {s : Setting} {parts : PartsReader} {t u : Token} {ts us : List Token} {w : Word} {a : Assignment} {r : Redirect}
variable {L : List Token.Piece}

theorem does_wordOf (hparts : ReadsWords parts) (h : w.Spelled d t) (p : Position) :
    Does (wordOf parts { t with pos := p }) ts fun w' us => w'.describe = w.describe ∧ us = ts := by
  obtain ⟨hwritten, -⟩ := h
  obtain ⟨ps', hsame, hread⟩ := hparts _ _ p hwritten
  refine .bind (.words (by rw [plainWord, String.toList_ofList]; exact hread) (.pure ⟨?_, rfl⟩))
  obtain ⟨ps⟩ := w
  rw [Word.describe, Word.describe, hsame]

theorem assignHead_none {t : Token} (h : startsAssignment t.text.toList = false) : assignHead parts t = pure none := by
  unfold assignHead
  rw [List.span_eq_takeWhile_dropWhile]
  unfold startsAssignment at h
  generalize t.text.toList.takeWhile Text.isNameChar = name
  generalize t.text.toList.dropWhile Text.isNameChar = rest at h
  dsimp only
  have hopen : ∀ cs, rest ≠ '[' :: cs := by
    rintro cs rfl
    cases h
  split
  · rfl
  split
  · rfl
  split
  · rfl
  rename_i head hhead
  obtain ⟨p, rfl⟩ : ∃ p, head = pure (none, p, rest) := by
    split at hhead
    · exact absurd rfl (hopen _)
    · exact ⟨_, (Option.some.inj hhead).symm⟩
  rw [pure_bind]
  dsimp only
  split
  · cases h
  · cases h
  · rfl

theorem reads_assignment?_none (h : startsAssignment t.text.toList = false) :
    Obtains (assignment? s parts) (t :: ts) fun r us => r = none ∧ us = t :: ts := by
  refine .cur (.bind (.lift (.words (assignHead_none h) (.pure ⟨rfl, rfl⟩))))

theorem reads_assignment? (hparts : ReadsWords parts) (h : a.Spelled d t) (p : Position) (hu : u.kind ≠ .lparen) :
    Obtains (assignment? s parts) ({ t with pos := p } :: u :: us) fun r vs => (∃ b, r = some b ∧ b.describe = a.describe) ∧ vs = u :: us := by
  obtain ⟨⟨hname, hindex, hnaked, harray, -⟩, hvalue, -⟩ := h
  obtain ⟨q, name, index, append, naked, value, array⟩ := a
  obtain rfl : index = none := hindex
  obtain rfl : naked = false := hnaked
  obtain rfl : array = none := harray
  have hname : Text.isName (String.ofList name.toList) = true := by rwa [String.ofList_toList]
  refine .cur (.bind (.lift (.words (assignHead_sign (String.toList_ofList ..) hname) ?_)))
  dsimp only
  refine .next (List.cons_ne_nil _ _) ?_
  cases hvalue with
  | empty =>
      refine .ite_false (by simp) (.cur (.ite_false (by simp [hu]) (.pure ⟨⟨_, rfl, ?_⟩, rfl⟩)))
      simp [Assignment.describe, assignmentOf, String.ofList_toList]
  | @given w c cs hwritten =>
      obtain ⟨ps', hsame, hread⟩ := hparts _ _ (((p.advance name.toList).advance (signOf append))) hwritten
      refine .ite_true (by simp) (.bind (.lift (.words hread (.pure ⟨⟨_, rfl, ?_⟩, rfl⟩))))
      obtain ⟨ps⟩ := w
      simp [Assignment.describe, assignmentOf, String.ofList_toList, Word.describe?, Word.describe, hsame]

theorem reads_redirect (hparts : ReadsWords parts) (h : r.Spelled d L) (hts : Spells L ts) (hus : us ≠ []) :
    Obtains (redirect s parts) (ts ++ us) fun r' vs => r'.describe = r.describe ∧ vs = us := by
  obtain ⟨hordinary, t, u, p, q, hword, -, hn, hhead, htokens⟩ := h.tokens hts
  obtain ⟨hkind, -⟩ := hword.plain
  have hdocs : (r.op == .dless || r.op == .dlessDash) = false := by
    have hplain := hordinary.op.2
    cases hop : r.op <;> first | rfl | rw [hop] at hplain; cases hplain
  have hall : ts ++ us = if u.kind == .ioNumber then u :: { kind := r.op, text := r.op.text, pos := p } :: { t with pos := q } :: us
      else { kind := r.op, text := r.op.text, pos := p } :: { t with pos := q } :: us := by
    rw [htokens]
    split <;> rfl
  obtain ⟨vs, hvs⟩ : ∃ vs, ts ++ us = u :: vs := by
    obtain ⟨ts', hts'⟩ := List.head?_eq_some_iff.mp hhead
    exact ⟨ts' ++ us, by rw [hts']; rfl⟩
  rw [hvs] at hall ⊢
  unfold redirect
  refine .cur ?_
  rw [hall]
  refine .optional (List.cons_ne_nil _ _) (.cur (.next (List.cons_ne_nil _ _) (.cur (.ite_false (by simp [hkind]) ?_))))
  refine .step ((does_wordOf hparts hword q).mono ?_)
  rintro w' _ ⟨hsame, rfl⟩
  refine .ite_false (by simp [hdocs]) (.bind (.pure (.next hus (.pure ⟨?_, rfl⟩))))
  rw [hn]
  obtain ⟨_, op, n, word, doc⟩ := r
  obtain rfl : doc = none := hordinary.doc
  simp [Redirect.describe, hsame]

-- Whether a token can go on with a command.
theorem not_word_of_closing {v : Level} {u : Token} (hu : u.kind ∈ v.closing) :
    u.kind ≠ .word ∧ u.kind ≠ .lparen ∧ isRedirection u = false := by
  have hall : ∀ k ∈ Level.closing .command, k ≠ .word ∧ k ≠ .lparen ∧ k ≠ .ioNumber ∧ k.isRedirection = false := by decide
  have hkind : u.kind ∈ Level.closing .command := by
    have hsub : ∀ k ∈ v.closing, k ∈ Level.closing .command := by cases v <;> decide
    exact hsub _ hu
  obtain ⟨hword, hparen, hnumber, hred⟩ := hall _ hkind
  exact ⟨hword, hparen, by simp [isRedirection, hnumber, hred]⟩

theorem reads_redirects (hparts : ReadsWords parts) {rs : List Redirect} {tss : List (List Token)}
    (h : List.Forall₂ (Standing (Redirect.Spelled d)) rs tss) (hu : isRedirection u = false) :
    Obtains (many (redirect? s parts)) (tss.flatten ++ u :: us) fun rs' vs => List.Forall₂ (fun r r' => r'.describe = r.describe) rs rs' ∧ vs = u :: us := by
  have hturn : ∀ r ts, Standing (Redirect.Spelled d) r ts →
      Turn (redirect? s parts) (· ≠ []) (fun r r' => r'.describe = r.describe) r ts := by
    rintro r ts ⟨L, hL, hts⟩
    obtain ⟨t, ts', rfl, ht⟩ := hL.starts hts
    refine ⟨List.cons_ne_nil _ _, fun _ _ => List.cons_ne_nil _ _, fun vs hvs => .cur (.ite_true ht ?_)⟩
    refine .bind ((reads_redirect hparts hL hts hvs).mono ?_)
    rintro r' _ ⟨hsame, rfl⟩
    exact .pure ⟨⟨r', rfl, hsame⟩, rfl⟩
  exact reads_many (h.imp hturn) (List.cons_ne_nil _ _) (.cur (.ite_false (by simp [hu]) (.pure ⟨rfl, rfl⟩)))

end Words

section Turns

variable {d : Dialect} {s : Setting} {parts : PartsReader} {inner : Inner} {sp : SimpleParts} {n : Nat} {t u : Token} {ts us : List Token}
variable {w : Word} {a : Assignment} {r : Redirect} {L : List Token.Piece} {Q : Command → List Token → Prop}

theorem Obtains.simpleFor_inl (h : Obtains (simpleTurn s parts inner sp) ts fun x us => ∃ sp', x = .inl sp' ∧
    Obtains (simpleFor s parts inner n sp') us Q) : Obtains (simpleFor s parts inner (n + 1) sp) ts Q := by
  rw [simpleFor]
  refine .bind (h.mono ?_)
  rintro _ us ⟨sp', rfl, h⟩
  exact h

theorem Obtains.simpleFor_inr (h : Obtains (simpleTurn s parts inner sp) ts fun x us => ∃ c, x = .inr c ∧ Q c us) :
    Obtains (simpleFor s parts inner (n + 1) sp) ts Q := by
  rw [simpleFor]
  refine .bind (h.mono ?_)
  rintro _ us ⟨c, rfl, h⟩
  exact .pure h

theorem reads_simpleTurn_redirect (hparts : ReadsWords parts) (h : r.Spelled d L) (hts : Spells L ts) (hus : us ≠ []) :
    Obtains (simpleTurn s parts inner sp) (ts ++ us) fun x vs =>
      (∃ r', r'.describe = r.describe ∧ x = .inl { sp with redirs := r' :: sp.redirs }) ∧ vs = us := by
  obtain ⟨t, ts', rfl, ht⟩ := h.starts hts
  refine .cur (.ite_true ht (.bind ((reads_redirect hparts h hts hus).mono ?_)))
  rintro r' _ ⟨hsame, rfl⟩
  exact .pure ⟨⟨r', hsame, rfl⟩, rfl⟩

theorem reads_simpleTurn_assign (hparts : ReadsWords parts) (hargs : sp.args = []) (hdecl : sp.decl = none) (h : a.Spelled d t)
    (p : Position) (hu : u.kind ≠ .lparen) : Obtains (simpleTurn s parts inner sp) ({ t with pos := p } :: u :: us) fun x vs =>
      (∃ a', a'.describe = a.describe ∧ x = .inl { sp with assigns := a' :: sp.assigns }) ∧ vs = u :: us := by
  have hkind : t.kind = .word := by
    obtain ⟨-, -, -⟩ := h
    rfl
  have hred : isRedirection { t with pos := p } = false := by rw [isRedirection, hkind]; rfl
  refine .cur (.ite_false (by simp [hred]) (.ite_true (by simp [hkind]) (.ite_true (by simp [hargs]) ?_)))
  refine .bind ((reads_assignment? hparts h p hu).mono ?_)
  rintro _ _ ⟨⟨a', rfl, hsame⟩, rfl⟩
  exact .ite_false (by simp [hdecl]) (.pure ⟨⟨a', hsame, rfl⟩, rfl⟩)

theorem reads_simpleTurn_arg (hparts : ReadsWords parts) (hdecl : sp.decl = none) (h : w.Spelled d t) (p : Position)
    (hfirst : sp.args = [] → startsAssignment t.text.toList = false ∧ declarations.contains t.text = false) (hu : u.kind ≠ .lparen) :
    Obtains (simpleTurn s parts inner sp) ({ t with pos := p } :: u :: us) fun x vs =>
      (∃ w', w'.describe = w.describe ∧ x = .inl { sp with args := w' :: sp.args }) ∧ vs = u :: us := by
  obtain ⟨hkind, -⟩ := h.plain
  have hred : isRedirection { t with pos := p } = false := by rw [isRedirection, hkind]; rfl
  refine .cur (.ite_false (by simp [hred]) (.ite_true (by simp [hkind]) (.join ?_)))
  have hnone : Obtains (if (sp.args.isEmpty || sp.decl.isSome) = true then assignment? s parts else pure none)
      ({ t with pos := p } :: u :: us) fun a vs => a = none ∧ vs = { t with pos := p } :: u :: us := by
    cases hargs : sp.args with
    | nil => exact .ite_true rfl (reads_assignment?_none (hfirst hargs).1)
    | cons _ _ => exact .ite_false (by simp [hdecl]) (.pure ⟨rfl, rfl⟩)
  refine hnone.mono ?_
  rintro _ _ ⟨rfl, rfl⟩
  refine .step ((does_wordOf hparts h p).mono ?_)
  rintro w' _ ⟨hsame, rfl⟩
  have hplain : (if (sp.args.isEmpty && !t.quoted && declarations.contains t.text) = true then some t.text else none) = none := by
    cases hargs : sp.args with
    | nil => rw [(hfirst hargs).2, Bool.and_false, if_neg Bool.false_ne_true]
    | cons _ _ => rfl
  refine .next (List.cons_ne_nil _ _) (.ite_false (by simp [hdecl]) ?_)
  simp only [hplain, show ((none : Option String) == some "local") = false from rfl, Bool.false_eq_true, if_false]
  exact .cur (.ite_false (by simp [hu]) (.pure ⟨⟨w', hsame, by rw [hdecl]⟩, rfl⟩))

theorem reads_simpleTurn_end (hdecl : sp.decl = none) (hsome : (sp.args.isEmpty && sp.assigns.isEmpty && sp.redirs.isEmpty) = false)
    {v : Level} (hu : u.kind ∈ v.closing) : Obtains (simpleTurn s parts inner sp) (u :: us) fun x vs =>
      x = .inr (.simple sp.assigns.reverse sp.args.reverse sp.redirs.reverse) ∧ vs = u :: us := by
  obtain ⟨hword, -, hred⟩ := not_word_of_closing hu
  refine .cur (.ite_false (by simp [hred]) (.ite_false (by simp [hword]) (.ite_false (by simp [hsome]) ?_)))
  rw [hdecl]
  exact .pure ⟨rfl, rfl⟩

-- A token is under the cursor that opens no parenthesis.
def NoParen (ts : List Token) : Prop := ∃ t us, ts = t :: us ∧ t.kind ≠ .lparen

theorem noParen_flatten {α : Type} {P : α → List Token → Prop} {xs : List α} {tss : List (List Token)} (h : List.Forall₂ P xs tss)
    (hP : ∀ x ts, P x ts → NoParen ts) (hus : NoParen us) : NoParen (tss.flatten ++ us) := by
  cases h with
  | nil => exact hus
  | cons hx _ =>
      obtain ⟨t, ts, rfl, ht⟩ := hP _ _ hx
      exact ⟨t, _, rfl, ht⟩

theorem noParen_redirect (h : Standing (Redirect.Spelled d) r ts) : NoParen ts := by
  obtain ⟨L, hL, hts⟩ := h
  obtain ⟨t, ts, rfl, ht⟩ := hL.starts hts
  refine ⟨t, ts, rfl, fun hparen => ?_⟩
  rw [isRedirection, hparen] at ht
  cases ht

theorem noParen_word (h : Standing (OneToken (Word.Spelled d)) w ts) : NoParen ts := by
  obtain ⟨t, p, ht, rfl⟩ := standing_oneToken h
  exact ⟨_, _, rfl, by simp [ht.plain.1]⟩

theorem noParen_assign (h : Standing (OneToken (Assignment.Spelled d)) a ts) : NoParen ts := by
  obtain ⟨t, p, ⟨-, -, -⟩, rfl⟩ := standing_oneToken h
  exact ⟨_, _, rfl, nofun⟩

theorem describeWords_append (ws vs : List Word) : describeWords (ws ++ vs) = describeWords ws ++ describeWords vs := by
  induction ws with
  | nil => rfl
  | cons w ws ih => simp [describeWords, ih]

theorem describeAssigns_append (as bs : List Assignment) : describeAssigns (as ++ bs) = describeAssigns as ++ describeAssigns bs := by
  induction as with
  | nil => rfl
  | cons a as ih => simp [describeAssigns, ih]

theorem describeRedirects_append (rs qs : List Redirect) :
    describeRedirects (rs ++ qs) = describeRedirects rs ++ describeRedirects qs := by
  induction rs with
  | nil => rfl
  | cons r rs ih => simp [describeRedirects, ih]

attribute [local simp] Command.describe describeWords_append describeAssigns_append describeRedirects_append describeWords describeAssigns
  describeRedirects

-- The pieces of a simple command are gathered one by one.
theorem reads_simple_redirects (hparts : ReadsWords parts) {rs : List Redirect} {tss : List (List Token)}
    (h : List.Forall₂ (Standing (Redirect.Spelled d)) rs tss) (hdecl : sp.decl = none)
    (hsome : (sp.args.isEmpty && sp.assigns.isEmpty && sp.redirs.isEmpty) = true → rs ≠ []) {v : Level} (hu : u.kind ∈ v.closing)
    (hn : tss.flatten.length < n) : Obtains (simpleFor s parts inner n sp) (tss.flatten ++ u :: us) fun c vs =>
      c.describe = (Command.simple sp.assigns.reverse sp.args.reverse (sp.redirs.reverse ++ rs)).describe ∧ vs = u :: us := by
  obtain ⟨n, rfl⟩ := Nat.exists_eq_succ_of_ne_zero (Nat.ne_of_gt (Nat.zero_lt_of_lt hn))
  induction h generalizing n sp with
  | nil =>
      have hsome : (sp.args.isEmpty && sp.assigns.isEmpty && sp.redirs.isEmpty) = false :=
        Bool.eq_false_iff.mpr fun hempty => hsome hempty rfl
      refine .simpleFor_inr ((reads_simpleTurn_end hdecl hsome hu).mono ?_)
      rintro _ _ ⟨rfl, rfl⟩
      exact ⟨_, rfl, by rw [List.append_nil], rfl⟩
  | @cons r ts rs tss hr _ ih =>
      obtain ⟨L, hL, hts⟩ := hr
      have hlength : 0 < ts.length := by
        obtain ⟨t, ts', rfl, -⟩ := hL.starts hts
        exact Nat.succ_pos _
      rw [List.flatten_cons, List.length_append] at hn
      obtain ⟨n, rfl⟩ := Nat.exists_eq_succ_of_ne_zero (show n ≠ 0 by omega)
      rw [List.flatten_cons, List.append_assoc]
      refine .simpleFor_inl ((reads_simpleTurn_redirect hparts hL hts (by simp)).mono ?_)
      rintro _ _ ⟨⟨r', hsame, rfl⟩, rfl⟩
      refine ⟨_, rfl, (ih (show { sp with redirs := r' :: sp.redirs }.decl = none from hdecl) (by simp) n (by omega)).mono ?_⟩
      rintro c _ ⟨hc, rfl⟩
      exact ⟨by rw [hc]; simp [hsame], rfl⟩

theorem reads_simple_args (hparts : ReadsWords parts) {ws : List Word} {rs : List Redirect} {wss rss : List (List Token)}
    (hw : List.Forall₂ (Standing (OneToken (Word.Spelled d))) ws wss) (hr : List.Forall₂ (Standing (Redirect.Spelled d)) rs rss)
    (hfirst : sp.args = [] → ∀ w ∈ ws.head?, startsAssignment w.text.toList = false ∧ declarations.contains w.text = false)
    (hdecl : sp.decl = none)
    (hsome : (sp.args.isEmpty && sp.assigns.isEmpty && sp.redirs.isEmpty) = true → ws ≠ [] ∨ rs ≠ []) {v : Level} (hu : u.kind ∈ v.closing)
    (hn : (wss.flatten ++ rss.flatten).length < n) : Obtains (simpleFor s parts inner n sp) (wss.flatten ++ (rss.flatten ++ u :: us)) fun c vs =>
      c.describe = (Command.simple sp.assigns.reverse (sp.args.reverse ++ ws) (sp.redirs.reverse ++ rs)).describe ∧ vs = u :: us := by
  induction hw generalizing n sp with
  | nil =>
      refine (reads_simple_redirects hparts hr hdecl (fun hempty => (hsome hempty).resolve_left (absurd rfl)) hu hn).mono ?_
      rw [List.append_nil]
      exact fun _ _ h => h
  | @cons w ts ws wss hw hws ih =>
      have hfollow : NoParen (wss.flatten ++ (rss.flatten ++ u :: us)) :=
        noParen_flatten hws (fun _ _ => noParen_word) (noParen_flatten hr (fun _ _ => noParen_redirect) ⟨u, us, rfl, (not_word_of_closing hu).2.1⟩)
      obtain ⟨t, p, ht, rfl⟩ := standing_oneToken hw
      obtain ⟨n, rfl⟩ := Nat.exists_eq_succ_of_ne_zero (Nat.ne_of_gt (Nat.zero_lt_of_lt hn))
      have hrest (w' : Word) := @ih { sp with args := w' :: sp.args } n nofun hdecl (by simp) (by simpa using hn)
      obtain ⟨u', us', hu', hparen⟩ := hfollow
      rw [List.flatten_cons, List.append_assoc, List.singleton_append]
      simp only [hu'] at hrest ⊢
      refine .simpleFor_inl ((reads_simpleTurn_arg hparts hdecl ht p (fun hargs => ?_) hparen).mono ?_)
      · rw [← ht.text]
        exact hfirst hargs w rfl
      rintro _ _ ⟨⟨w', hsame, rfl⟩, rfl⟩
      refine ⟨_, rfl, (hrest w').mono ?_⟩
      rintro c _ ⟨hc, rfl⟩
      exact ⟨by rw [hc]; simp [hsame], rfl⟩

theorem reads_simpleCommand (hparts : ReadsWords parts) {as : List Assignment} {ws : List Word} {rs : List Redirect}
    {ass wss rss : List (List Token)} (ha : List.Forall₂ (Standing (OneToken (Assignment.Spelled d))) as ass)
    (hw : List.Forall₂ (Standing (OneToken (Word.Spelled d))) ws wss) (hr : List.Forall₂ (Standing (Redirect.Spelled d)) rs rss)
    (hfirst : ∀ w ∈ ws.head?, startsAssignment w.text.toList = false ∧ declarations.contains w.text = false)
    (hsome : as ≠ [] ∨ ws ≠ [] ∨ rs ≠ []) {v : Level} (hu : u.kind ∈ v.closing) (inner : Inner) (us : List Token) :
    Obtains (simpleCommand s parts inner) (ass.flatten ++ (wss.flatten ++ (rss.flatten ++ u :: us))) fun c vs =>
      c.describe = (Command.simple as ws rs).describe ∧ vs = u :: us := by
  -- The assignments that have been read are those of `sp`.
  have hall : ∀ n (sp : SimpleParts), sp.args = [] → sp.redirs = [] → sp.decl = none → (sp.assigns = [] → as ≠ [] ∨ ws ≠ [] ∨ rs ≠ []) →
      (ass.flatten ++ (wss.flatten ++ rss.flatten)).length < n →
      Obtains (simpleFor s parts inner n sp) (ass.flatten ++ (wss.flatten ++ (rss.flatten ++ u :: us))) fun c vs =>
        c.describe = (Command.simple (sp.assigns.reverse ++ as) ws rs).describe ∧ vs = u :: us := by
    clear hsome
    induction ha with
    | nil =>
        intro n sp hargs hredirs hdecl hsome hn
        refine (reads_simple_args hparts hw hr (fun _ => hfirst) hdecl (fun hempty => ?_) hu hn).mono ?_
        · rw [hargs, hredirs] at hempty
          exact (hsome (by simpa using hempty)).resolve_left (absurd rfl)
        · rw [hargs, hredirs, List.append_nil]
          exact fun _ _ h => h
    | @cons a ts as ass ha has ih =>
        intro n sp hargs hredirs hdecl _ hn
        have hfollow : NoParen (ass.flatten ++ (wss.flatten ++ (rss.flatten ++ u :: us))) :=
          noParen_flatten has (fun _ _ => noParen_assign) (noParen_flatten hw (fun _ _ => noParen_word)
            (noParen_flatten hr (fun _ _ => noParen_redirect) ⟨u, us, rfl, (not_word_of_closing hu).2.1⟩))
        obtain ⟨t, p, ht, rfl⟩ := standing_oneToken ha
        obtain ⟨n, rfl⟩ := Nat.exists_eq_succ_of_ne_zero (Nat.ne_of_gt (Nat.zero_lt_of_lt hn))
        have hrest (a' : Assignment) := ih n { sp with assigns := a' :: sp.assigns } hargs hredirs hdecl nofun (by simpa using hn)
        obtain ⟨u', us', hu', hparen⟩ := hfollow
        rw [List.flatten_cons, List.append_assoc, List.singleton_append]
        simp only [hu'] at hrest ⊢
        refine .simpleFor_inl ((reads_simpleTurn_assign hparts hargs hdecl ht p hparen).mono ?_)
        rintro _ _ ⟨⟨a', hsame, rfl⟩, rfl⟩
        refine ⟨_, rfl, (hrest a').mono ?_⟩
        rintro c _ ⟨hc, rfl⟩
        exact ⟨by rw [hc]; simp [hsame], rfl⟩
  refine .step (.left (hall _ {} rfl rfl rfl (fun _ => hsome) ?_))
  simp only [List.length_append, List.length_cons]
  omega

end Turns

end Read

end Script
end ShellScript

import Mathlib.Data.Bool.AllAny
import ShellScript.Proofs.Script.Quotation
import ShellScript.Proofs.Token.Layout

-- How words are split off, and how a text that is put together from tokens and blanks is split into just these.
namespace ShellScript
namespace Token
namespace Scanner

open Script (Quote)

-- The characters that begin a construct inside a word.
def wordMarks : List Char := ['\\', '\'', '"', Text.backquote, '$']

-- Text that a word takes as it stands.
def IsSolid (cs : List Char) : Prop := ∀ c ∈ cs, Text.isMeta c = false ∧ c ∉ wordMarks

section Words

variable {s : Scanner} {start cs rest : List Char} {p : Position} {c : Char}

theorem moveTo_moveTo {front back rest : List Char} (hs : s.rest = front ++ (back ++ rest)) :
    (s.moveTo (back ++ rest)).moveTo rest = s.moveTo rest := by
  have hone := moveTo_eq hs
  have hall : s.rest = (front ++ back) ++ rest := by rw [hs, List.append_assoc]
  have htwo : (s.moveTo (back ++ rest)).rest = back ++ rest := rfl
  rw [moveTo_eq htwo, moveTo_eq hall, hone, Position.advance_append]

theorem opensPattern_of_next (d : Dialect) (c : Char) {next : Option Char} (h : next ≠ some '(') : opensPattern d c next = false := by
  simp [opensPattern, h]

theorem wordTurn_solid (hs : s.rest = c :: cs) (hmeta : Text.isMeta c = false) (hmark : c ∉ wordMarks)
    (hopen : opensPattern s.dialect c cs.head? = false) (first quoted : Bool) :
    wordTurn first quoted s = some (false, quoted, s.moveTo cs) := by
  have hskip : s.skip c cs = s.moveTo cs := (moveTo_eq (show s.rest = [c] ++ cs from hs)).symm
  have hless : (c == '<' || c == '>') = false := by
    rw [Text.isMeta] at hmeta
    simp_all
  simp only [wordMarks, List.mem_cons, List.not_mem_nil, or_false, not_or] at hmark
  simp [wordTurn, hs, hopen, hmeta, hmark, hskip, hless]

theorem gather_solid (hs : s.rest = cs ++ rest) (hcs : IsSolid cs)
    (hopen : rest.head? = some '(' → ∀ c ∈ cs, opensPattern s.dialect c (some '(') = false) (n : Nat) (first quoted : Bool) :
    ∃ first', gather wordTurn start p (n + cs.length) first quoted s =
      gather wordTurn start p n first' quoted (s.moveTo rest) := by
  induction cs generalizing s first with
  | nil =>
      have hstay : s.moveTo rest = s := by
        obtain rfl : s.rest = rest := hs
        exact moveTo_eq (show s.rest = [] ++ s.rest from rfl)
      exact ⟨first, by rw [hstay]; rfl⟩
  | cons c cs ih =>
      obtain ⟨⟨hmeta, hmark⟩, hsolid⟩ := List.forall_mem_cons.mp hcs
      have hnext : opensPattern s.dialect c (cs ++ rest).head? = false := by
        cases cs with
        | nil =>
            by_cases hparen : rest.head? = some '('
            · exact hparen ▸ hopen hparen c (List.mem_cons_self ..)
            · exact opensPattern_of_next _ _ hparen
        | cons d cs =>
            refine opensPattern_of_next _ _ fun hd => ?_
            have hparen := (hsolid d (List.mem_cons_self ..)).1
            cases hd
            cases hparen
      have hturn : wordTurn first quoted s = some (false, quoted, s.moveTo (cs ++ rest)) :=
        wordTurn_solid hs hmeta hmark hnext first quoted
      have hmoved : (s.moveTo (cs ++ rest)).moveTo rest = s.moveTo rest := moveTo_moveTo (show s.rest = [c] ++ (cs ++ rest) from hs)
      obtain ⟨first', ih⟩ := ih (s := s.moveTo (cs ++ rest)) rfl hsolid (fun hparen d hd => hopen hparen d (List.mem_cons_of_mem _ hd)) false
      rw [hmoved] at ih
      refine ⟨first', ?_⟩
      rw [List.length_cons, ← Nat.add_assoc, gather, hturn]
      exact ih

theorem opensPattern_of_isMeta (d : Dialect) (next : Option Char) (h : Text.isMeta c = true) : opensPattern d c next = false := by
  have hne (x : Char) (hx : Text.isMeta x = false) : c ≠ x := by
    rintro rfl
    rw [h] at hx
    cases hx
  simp [opensPattern, hne '?' rfl, hne '*' rfl, hne '+' rfl, hne '@' rfl, hne '!' rfl]

-- A word ends with the text, and before a character that ends words and opens no process substitution.
def Stops (rest : List Char) : Prop :=
  ∀ c ds, rest = c :: ds → Text.isMeta c = true ∧ (c = '<' ∨ c = '>' → ds.head? ≠ some '(')

theorem gather_stop (hs : Stops s.rest) (n : Nat) (first quoted : Bool) :
    gather wordTurn start p n first quoted s = s.endWord start p quoted := by
  cases n with
  | zero => rfl
  | succ n =>
      have hturn : wordTurn first quoted s = none := by
        cases hrest : s.rest with
        | nil => simp [wordTurn, hrest]
        | cons c ds =>
            obtain ⟨hmeta, hnext⟩ := hs c ds hrest
            simp only [wordTurn, hrest, opensPattern_of_isMeta s.dialect _ hmeta, hmeta, Bool.false_eq_true, if_false, if_true]
            simpa using fun _ hc => hnext hc
      rw [gather, hturn]

theorem word_solid (hs : s.rest = cs ++ rest) (hcs : IsSolid cs) (hrest : Stops rest)
    (hopen : rest.head? = some '(' → ∀ c ∈ cs, opensPattern s.dialect c (some '(') = false) {n : Nat} (hn : cs.length ≤ n) :
    s.word n = (s.moveTo rest).endWord s.rest s.pos false := by
  obtain ⟨n, rfl⟩ := Nat.exists_eq_add_of_le' hn
  obtain ⟨first, hgather⟩ := gather_solid (p := s.pos) hs hcs hopen n true false
  exact hgather.trans (gather_stop hrest n first false)

theorem wordTurn_around {v : String} {q : Quote} (hq : q ≠ .bare) (h : q.Holds v cs) (hd : s.dialect.supports .ansiQuote = true)
    (hs : s.rest = q.around cs ++ rest) (first quoted : Bool) : wordTurn first quoted s = some (false, true, s.moveTo rest) := by
  cases q with
  | bare => exact absurd rfl hq
  | single =>
      have hclose (n : Nat) : Construct.closeSingle n (cs ++ '\'' :: rest) = .ok rest := Construct.closeSingle_plain h.1 n rest
      have hs : s.rest = '\'' :: (cs ++ '\'' :: rest) := by simpa [Quote.around] using hs
      simp only [wordTurn, hs, hclose]
      simp [opensPattern, Text.isMeta, Text.isBlank, passConstruct]
  | dollar =>
      have hansi (n : Nat) : Construct.closeAnsi n (cs ++ '\'' :: rest) = .ok rest := Construct.closeAnsi_guarded h.1 n rest
      have hclose : Construct.closeExpansion s.dialect false ('\'' :: (cs ++ '\'' :: rest)) = .ok rest := by
        simp [Construct.closeExpansion, Construct.closeDollar, hd, hansi]
      have hs : s.rest = '$' :: '\'' :: (cs ++ '\'' :: rest) := by simpa [Quote.around] using hs
      simp only [wordTurn, hs, List.head?_cons]
      simp [opensPattern, Text.isMeta, Text.isBlank, passConstruct, needs, hd, hclose, Text.backquote]
  | double =>
      have hclose : Construct.closeDouble s.dialect (cs ++ '"' :: rest) = .ok rest := Construct.closeDouble_guarded h.2.1 _ rest
      have hs : s.rest = '"' :: (cs ++ '"' :: rest) := by simpa [Quote.around] using hs
      simp only [wordTurn, hs, hclose]
      simp [opensPattern, Text.isMeta, Text.isBlank, passConstruct]

theorem isShellChar_of_isMeta (h : Text.isMeta c = true) : Text.isShellChar c = true := by
  simp only [Text.isMeta, Text.isBlank, Bool.or_eq_true, beq_iff_eq] at h
  rcases h with (((((((((rfl | rfl) | rfl) | rfl) | rfl) | rfl) | rfl) | rfl) | rfl) | rfl) | rfl <;> decide

theorem isSolid_of_safe (h : ∀ c ∈ cs, Text.isShellChar c = false) : IsSolid cs := by
  have hmarks : ∀ c ∈ wordMarks, Text.isShellChar c = true := List.all_iff_forall_prop.mp (by decide)
  refine fun c hc => ⟨Bool.eq_false_iff.mpr fun hmeta => ?_, fun hmark => ?_⟩
  · exact Bool.eq_false_iff.mp (h c hc) (isShellChar_of_isMeta hmeta)
  · exact Bool.eq_false_iff.mp (h c hc) (hmarks c hmark)

theorem ne_of_isNameChar {d : Char} (h : Text.isNameChar c = true) (hd : Text.isNameChar d = false) : c ≠ d := by
  rintro rfl
  rw [h] at hd
  cases hd

theorem isSolid_of_isNameChar (h : ∀ c ∈ cs, Text.isNameChar c = true) : IsSolid cs := by
  refine fun c hc => ⟨Bool.eq_false_iff.mpr fun hmeta => ?_, fun hmark => ?_⟩
  · have hother : Text.isNameChar c = false := by
      simp only [Text.isMeta, Text.isBlank, Bool.or_eq_true, beq_iff_eq] at hmeta
      rcases hmeta with (((((((((rfl | rfl) | rfl) | rfl) | rfl) | rfl) | rfl) | rfl) | rfl) | rfl) | rfl <;> decide
    exact ne_of_isNameChar (h c hc) hother rfl
  · have hmarks : ∀ c ∈ wordMarks, Text.isNameChar c = false := List.all_iff_forall_prop.mp (by decide)
    exact ne_of_isNameChar (h c hc) (hmarks c hmark) rfl

-- What a word may begin with: nothing that ends words, begins a comment or joins lines.
def startsWord (c : Char) : Bool := !Text.isMeta c && c != '#' && c != '\\' && 0x20 ≤ c.toNat && c.toNat != 0x7F

theorem startsWord_of_isNameStart (h : Text.isNameStart c = true) : startsWord c = true := by
  have hchar : Text.isNameChar c = true := by simp [Text.isNameChar, h]
  have hsolid := isSolid_of_isNameChar (List.forall_mem_singleton.mpr hchar) c (List.mem_singleton_self c)
  have hle {a b : Char} (h : a ≤ b) : a.toNat ≤ b.toNat := h
  have hvisible : 0x20 ≤ c.toNat ∧ c.toNat ≠ 0x7F := by
    simp only [Text.isNameStart, Text.isLower, Text.isUpper, Bool.or_eq_true, Bool.and_eq_true, decide_eq_true_eq, beq_iff_eq] at h
    rcases h with (rfl | ⟨hlow, hhigh⟩) | ⟨hlow, hhigh⟩
    · decide
    · have hlow : 97 ≤ c.toNat := hle hlow
      have hhigh : c.toNat ≤ 122 := hle hhigh
      omega
    · have hlow : 65 ≤ c.toNat := hle hlow
      have hhigh : c.toNat ≤ 90 := hle hhigh
      omega
  simp [startsWord, hsolid.1, ne_of_isNameChar hchar (d := '#') rfl, ne_of_isNameChar hchar (d := '\\') rfl, hvisible]

theorem startsWord_of_isDigit (h : Text.isDigit c = true) : startsWord c = true := by
  have hchar : Text.isNameChar c = true := by simp [Text.isNameChar, h]
  have hsolid := isSolid_of_isNameChar (List.forall_mem_singleton.mpr hchar) c (List.mem_singleton_self c)
  have hle {a b : Char} (h : a ≤ b) : a.toNat ≤ b.toNat := h
  have hvisible : 0x20 ≤ c.toNat ∧ c.toNat ≠ 0x7F := by
    simp only [Text.isDigit, Bool.and_eq_true, decide_eq_true_eq] at h
    have hlow : 48 ≤ c.toNat := hle h.1
    have hhigh : c.toNat ≤ 57 := hle h.2
    omega
  simp [startsWord, hsolid.1, ne_of_isNameChar hchar (d := '#') rfl, ne_of_isNameChar hchar (d := '\\') rfl, hvisible]

-- What a word ends before.
structure Ends (rest : List Char) : Prop where
  stop : ∀ c ∈ rest.head?, Text.isMeta c = true
  next : rest.head? ≠ some '<' ∧ rest.head? ≠ some '>'

theorem ends_nil : Ends [] := ⟨nofun, nofun, nofun⟩

theorem ends_cons {c : Char} (hc : Text.isMeta c = true ∧ c ≠ '<' ∧ c ≠ '>') (cs : List Char) : Ends (c :: cs) where
  stop b hb := by
    obtain rfl := Option.some.inj hb
    exact hc.1
  next := by simpa using hc.2

theorem Ends.stops (h : Ends rest) : Stops rest := by
  rintro c ds rfl
  refine ⟨h.stop c rfl, ?_⟩
  rintro (rfl | rfl)
  · exact absurd rfl h.next.1
  · exact absurd rfl h.next.2

-- A word that ends where `rest` begins.
structure IsWord (d : Dialect) (quoted : Bool) (w rest : List Char) : Prop where
  head : ∃ c cs, w = c :: cs ∧ startsWord c = true
  ends : Ends rest
  gathered : ∀ (s : Scanner) (n : Nat), s.dialect = d → s.rest = w ++ rest → w.length ≤ n →
    s.word n = (s.moveTo rest).endWord s.rest s.pos quoted

-- A word is a keyword where a command may begin.
def keywordAt (cmd quoted : Bool) (w : List Char) : Bool :=
  cmd && !quoted && isReserved (String.ofList w) && String.ofList w != "]]"

def wordAt (cmd quoted : Bool) (w : List Char) (p : Position) : Token :=
  { kind := .word, text := String.ofList w, pos := p, keyword := keywordAt cmd quoted w, quoted }

theorem textFrom_eq {taken : List Char} (hs : s.rest = taken ++ rest) :
    (s.moveTo rest).textFrom s.rest s.pos = String.ofList taken := by
  rw [moveTo_eq hs, textFrom, hs]
  dsimp only
  rw [Position.offset_advance, Nat.add_sub_cancel_left, List.take_left]

theorem endWord_eq {taken : List Char} (hs : s.rest = taken ++ rest) (hnext : rest.head? ≠ some '<' ∧ rest.head? ≠ some '>')
    (hdelim : s.wantDelim = none) (htest : s.inTest = false) (quoted : Bool) :
    (s.moveTo rest).endWord s.rest s.pos quoted = (s.moveTo rest, wordAt s.cmdStart quoted taken s.pos) := by
  have hnumber : ((s.moveTo rest).rest.head? == some '<' || (s.moveTo rest).rest.head? == some '>') = false := by
    simpa [moveTo] using hnext
  have hwant : (s.moveTo rest).wantDelim = none := hdelim
  have hcmd : (s.moveTo rest).cmdStart = s.cmdStart := rfl
  have htest : (s.moveTo rest).inTest = false := htest
  simp only [endWord, textFrom_eq hs, hnumber, hwant, htest, hcmd, Bool.and_false, Bool.false_eq_true, if_false, wordAt, keywordAt]
  cases s.cmdStart <;> simp

theorem digits_of_isNumeral {w : List Char} (h : Text.isNumeral (String.ofList w) = true) :
    w ≠ [] ∧ ∀ c ∈ w, Text.isDigit c = true := by
  rw [Text.isNumeral, String.toList_ofList] at h
  cases w with
  | nil => cases h
  | cons c cs => exact ⟨List.cons_ne_nil _ _, List.all_eq_true.mp h⟩

theorem endWord_number {taken : List Char} (hs : s.rest = taken ++ rest) (hnumeral : Text.isNumeral (String.ofList taken) = true)
    (hnext : rest.head? = some '<' ∨ rest.head? = some '>') :
    (s.moveTo rest).endWord s.rest s.pos false =
      (s.moveTo rest, { kind := .ioNumber, text := String.ofList taken, pos := s.pos }) := by
  have hnumber : ((s.moveTo rest).rest.head? == some '<' || (s.moveTo rest).rest.head? == some '>') = true := by
    simpa [moveTo] using hnext
  simp only [endWord, textFrom_eq hs, hnumber, hnumeral, Bool.not_false, Bool.and_self, if_true]

end Words

-- A scanner between two tokens, where no here-document is awaited and no condition is open. `cmd` says whether a command may
-- begin, and `loop` whether a loop has just begun.
def between (d : Dialect) (file : String) (cmd loop : Bool) (toks : Array Token) (p : Position) (rest : List Char) : Scanner :=
  { dialect := d, file, rest, pos := p, cmdStart := cmd, afterFor := loop, tokens := toks }

section Lines

variable {d : Dialect} {file : String} {cmd loop quoted : Bool} {toks : Array Token} {p : Position} {w rest : List Char}

theorem ne_of_head {c x : Char} (h : startsWord c = true) (hx : startsWord x = false) : c ≠ x := by
  rintro rfl
  rw [h] at hx
  cases hx

theorem visible_of_head {c : Char} (h : startsWord c = true) : 0x20 ≤ c.toNat ∧ c.toNat ≠ 0x7F := by
  simp only [startsWord, Bool.and_eq_true, decide_eq_true_eq, bne_iff_ne] at h
  exact ⟨h.1.2, h.2⟩

theorem isMeta_of_head {c : Char} (h : startsWord c = true) : Text.isMeta c = false := by
  simp only [startsWord, Bool.and_eq_true, Bool.not_eq_true'] at h
  exact h.1.1.1.1

theorem operatorAt_of_head {c : Char} (h : startsWord c = true) (cs : List Char) : operatorAt (c :: cs) = none := by
  have hne (x : Char) (hx : startsWord x = false) : c ≠ x := ne_of_head h hx
  unfold operatorAt
  split
  all_goals
    first
    | rfl
    | rename_i heq
      exact absurd (List.cons.inj heq).1 (hne _ (by decide))

theorem blanks_of_head {c : Char} (h : startsWord c = true) (cs : List Char) : blanks (c :: cs) = 0 := by
  have hblank : Text.isBlank c = false := by
    simp [Text.isBlank, ne_of_head h (x := ' ') (by decide), ne_of_head h (x := '\t') (by decide), ne_of_head h (x := '\r') (by decide)]
  rw [blanks, hblank, if_neg Bool.false_ne_true]
  rintro _ rfl
  exact absurd rfl (ne_of_head h (x := '\\') (by decide))

-- At the beginning of a word.
theorem next?_of_head {c : Char} {cs : List Char} (h : startsWord c = true) (n : Nat) :
    (between d file cmd loop toks p (c :: cs)).next? n = some (emit ((between d file cmd loop toks p (c :: cs)).word n)) := by
  have hmoved : (between d file cmd loop toks p (c :: cs)).moveBy 0 = between d file cmd loop toks p (c :: cs) := rfl
  have hne (x : Char) (hx : startsWord x = false) : c ≠ x := ne_of_head h hx
  obtain ⟨hlow, hdel⟩ := visible_of_head h
  have hlow' : ¬c.toNat < 0x20 := Nat.not_lt.mpr hlow
  rw [next?, show (between d file cmd loop toks p (c :: cs)).rest = c :: cs from rfl, blanks_of_head h, hmoved]
  simp [between, hne '\n' (by decide), hne '#' (by decide), hne '<' (by decide), hne '>' (by decide), hne '(' (by decide),
    operatorAt_of_head h, hlow', hdel]

-- Which words there are.

theorem isWord_solid {c : Char} {cs : List Char} (hc : startsWord c = true) (hcs : IsSolid (c :: cs)) (hrest : Ends rest)
    (hopen : rest.head? = some '(' → ∀ d ∈ c :: cs, ∀ e, opensPattern e d (some '(') = false) :
    IsWord d false (c :: cs) rest where
  head := ⟨c, cs, rfl, hc⟩
  ends := hrest
  gathered _ _ _ hs hn := word_solid hs hcs hrest.stops (fun hparen d hd => hopen hparen d hd _) hn

-- A word ends with a value in quotes.
theorem isWord_around {v : String} {q : Quote} {front cs : List Char} (hd : d.supports .ansiQuote = true) (h : q.Holds v cs)
    (hstart : ∃ c ds, front = c :: ds ∧ startsWord c = true) (hfront : IsSolid front) (hrest : Ends rest)
    (hparen : rest.head? ≠ some '(') : IsWord d q.isQuoted (front ++ q.around cs) rest := by
  obtain ⟨c, ds, rfl, hc⟩ := hstart
  by_cases hq : q = .bare
  · subst hq
    have hall : IsSolid (c :: (ds ++ cs)) := List.forall_mem_append.mpr ⟨hfront, isSolid_of_safe h.2.1⟩
    exact isWord_solid hc hall hrest fun hopen => absurd hopen hparen
  have hquoted : q.isQuoted = true := by cases q <;> first | exact absurd rfl hq | rfl
  rw [hquoted]
  refine ⟨⟨c, ds ++ q.around cs, rfl, hc⟩, hrest, fun s n hs hs' hn => ?_⟩
  rw [List.append_assoc] at hs'
  have hlength : 0 < (q.around cs).length := by
    cases q with
    | bare => exact absurd rfl hq
    | _ => exact Nat.succ_pos _
  rw [List.length_append] at hn
  obtain ⟨m, rfl⟩ : ∃ m, n = m + 1 + (c :: ds).length := ⟨n - (c :: ds).length - 1, by omega⟩
  have hhead : (q.around cs ++ rest).head? ≠ some '(' := by cases q <;> first | exact absurd rfl hq | exact nofun
  obtain ⟨first, hgather⟩ := gather_solid (p := s.pos) hs' hfront (fun hopen => absurd hopen hhead) (m + 1) true false
  have hturn := wordTurn_around (s := s.moveTo (q.around cs ++ rest)) hq h (hs ▸ hd) rfl first false
  refine hgather.trans ?_
  rw [gather, hturn, moveTo_moveTo hs']
  exact gather_stop hrest.stops m false true

end Lines

end Scanner

-- What a text is put together from: blanks, and tokens wherever they may stand.
inductive Piece where
  | blank (c : Char)
  | token (t : Token)

namespace Piece

def text : Piece → List Char
  | blank c => [c]
  | token t => t.text.toList

end Piece

abbrev textOf (L : List Piece) : List Char := L.flatMap Piece.text

theorem textOf_append (L M : List Piece) : textOf (L ++ M) = textOf L ++ textOf M := List.flatMap_append

-- The tokens of the pieces, where they stand when the text begins at a place.
def placed : Position → List Piece → List Token
  | _, [] => []
  | p, .blank c :: L => placed (p.step c) L
  | p, .token t :: L => { t with pos := p } :: placed (p.advance t.text.toList) L

-- Whether a command may begin after a token, and whether a loop has just begun.

def opens (cmd : Bool) (t : Token) : Bool :=
  if t.kind == .word then t.keyword && opensCommand t.text
  else if t.kind == .newline || t.kind.isOperator then true
  else t.kind == .comment && cmd

def loops (loop : Bool) (t : Token) : Bool :=
  if t.kind == .word then t.keyword && t.text == "for" else t.kind == .comment && loop

namespace Scanner

-- A token that is found as it stands in front of `rest`.
inductive Fits (d : Dialect) (cmd : Bool) (rest : List Char) : Token → Prop where
  | word {w : List Char} {quoted : Bool} (word : IsWord d quoted w rest) (simple : cmd = true → String.ofList w ≠ "[[")
      (p : Position) : Fits d cmd rest (wordAt cmd quoted w p)
  | number {w : List Char} (numeral : Text.isNumeral (String.ofList w) = true)
      (next : ∃ c cs, rest = c :: cs ∧ (c = '<' ∨ c = '>') ∧ cs.head? ≠ some '(') (p : Position) :
      Fits d cmd rest { kind := .ioNumber, text := String.ofList w, pos := p }
  | operator {k : Kind} {f : Option Feature} (operator : operatorAt (k.text.toList ++ rest) = some (k, k.text.toList.length, f))
      (supported : ∀ g ∈ f, d.supports g = true) (plain : k = .lparen ∨ k = .less ∨ k = .great → rest.head? ≠ some '(')
      (simple : k ≠ .dless ∧ k ≠ .dlessDash) (p : Position) :
      Fits d cmd rest { kind := k, text := k.text, pos := p }
  | newline (p : Position) : Fits d cmd rest { kind := .newline, text := "\n", pos := p }

-- The same of a comment, which goes up to the end of its line.
inductive Found (d : Dialect) (cmd : Bool) (rest : List Char) : Token → Prop where
  | token {t : Token} (fits : Fits d cmd rest t) : Found d cmd rest t
  | comment {cs : List Char} (line : '\n' ∉ cs) (ends : rest.head?.all (· == '\n') = true) (p : Position) :
      Found d cmd rest { kind := .comment, text := String.ofList ('#' :: cs), pos := p }

theorem fits_lparen {d : Dialect} {cmd : Bool} {rest : List Char} (h : rest.head? ≠ some '(') (p : Position) :
    Fits d cmd rest { kind := .lparen, text := "(", pos := p } :=
  .operator (k := .lparen) (f := none) rfl nofun (fun _ => h) ⟨nofun, nofun⟩ p

theorem fits_rparen {d : Dialect} {cmd : Bool} (rest : List Char) (p : Position) :
    Fits d cmd rest { kind := .rparen, text := ")", pos := p } := by
  refine .operator (k := .rparen) (f := none) rfl nofun ?_ ⟨nofun, nofun⟩ p
  rintro (h | h | h) <;> cases h

-- Each token among the pieces is one of its kind in front of those that follow.
def EachToken (F : Bool → List Char → Token → Prop) : Bool → List Piece → List Char → Prop
  | _, [], _ => True
  | cmd, .blank c :: L, rest => (c = ' ' ∨ c = '\t') ∧ EachToken F cmd L rest
  | cmd, .token t :: L, rest => F cmd (textOf L ++ rest) t ∧ EachToken F (t.opens cmd) L rest

abbrev FitsAll (d : Dialect) : Bool → List Piece → List Char → Prop := EachToken (Fits d)

abbrev FoundAll (d : Dialect) : Bool → List Piece → List Char → Prop := EachToken (Found d)

-- Whether a command may begin behind the pieces.
def opensAfter : Bool → List Piece → Bool
  | cmd, [] => cmd
  | cmd, .blank _ :: L => opensAfter cmd L
  | cmd, .token t :: L => opensAfter (t.opens cmd) L

section Pieces

variable {d : Dialect} {file : String} {cmd loop : Bool} {toks : Array Token} {p : Position} {rest : List Char} {t : Token}
variable {L M : List Piece}

theorem eachToken_append {F : Bool → List Char → Token → Prop} : EachToken F cmd (L ++ M) rest ↔
    EachToken F cmd L (textOf M ++ rest) ∧ EachToken F (opensAfter cmd L) M rest := by
  induction L generalizing cmd with
  | nil => simp [EachToken, opensAfter]
  | cons x L ih => cases x <;> simp [EachToken, opensAfter, ih, and_assoc]

theorem fitsAll_append : FitsAll d cmd (L ++ M) rest ↔
    FitsAll d cmd L (textOf M ++ rest) ∧ FitsAll d (opensAfter cmd L) M rest := eachToken_append

theorem FitsAll.found (h : FitsAll d cmd L rest) : FoundAll d cmd L rest := by
  induction L generalizing cmd with
  | nil => trivial
  | cons x L ih => cases x <;> exact ⟨by first | exact h.1 | exact .token h.1, ih h.2⟩

theorem opensAfter_append : opensAfter cmd (L ++ M) = opensAfter (opensAfter cmd L) M := by
  induction L generalizing cmd with
  | nil => rfl
  | cons x L ih => cases x <;> exact ih

theorem next?_blank {c : Char} (hc : c = ' ' ∨ c = '\t') (n : Nat) :
    (between d file cmd loop toks p (c :: rest)).next? n = (between d file cmd loop toks (p.step c) rest).next? n := by
  have hblank : blanks (c :: rest) = blanks rest + 1 := by rcases hc with rfl | rfl <;> rfl
  have hmoved : (between d file cmd loop toks p (c :: rest)).moveBy (blanks (c :: rest)) =
      (between d file cmd loop toks (p.step c) rest).moveBy (blanks rest) := by rw [hblank]; rfl
  unfold next?
  rw [show (between d file cmd loop toks p (c :: rest)).rest = c :: rest from rfl, hmoved]
  rfl

-- What a token does to the scanner that has found it.
theorem emit_between (h : t.keyword = true → t.text ≠ "[[") (hk : t.kind ≠ .dless ∧ t.kind ≠ .dlessDash) :
    emit (between d file cmd loop toks p rest, t) = between d file (t.opens cmd) (t.loops loop) (toks.push t) p rest := by
  have htest : (t.kind == .word && t.keyword && t.text == "[[") = false := by
    cases hkey : t.keyword
    · simp
    · simp [h hkey]
  have hdelim : (emit (between d file cmd loop toks p rest, t)).wantDelim = none := by
    simp only [emit, after, between]
    split
    · exact absurd ‹_› hk.1
    · exact absurd ‹_› hk.2
    · rfl
  rw [show emit (between d file cmd loop toks p rest, t) =
    { emit (between d file cmd loop toks p rest, t) with wantDelim := none } by rw [← hdelim]]
  simp [emit, after, between, opens, loops, htest]

theorem operatorAt_head {cs : List Char} {r : Kind × Nat × Option Feature} (h : operatorAt cs = some r) :
    ∃ c ds, cs = c :: ds ∧ c ∈ [';', '&', '|', '(', ')', '<', '>'] := by
  unfold operatorAt at h
  split at h
  all_goals
    first
    | exact ⟨_, _, rfl, by decide⟩
    | cases h

theorem needs_supported {s : Scanner} {f : Option Feature} {p : Position} : (∀ g ∈ f, s.dialect.supports g = true) →
    (match f with
      | some f => s.needs f p
      | none => s) = s := by
  intro h
  cases f with
  | none => rfl
  | some f => exact if_pos (h f rfl)

theorem operator_front {k : Kind} {f : Option Feature} {c : Char} {ds : List Char}
    (hop : operatorAt (k.text.toList ++ rest) = some (k, k.text.toList.length, f))
    (hplain : k = .lparen ∨ k = .less ∨ k = .great → rest.head? ≠ some '(') (hcons : k.text.toList ++ rest = c :: ds)
    (hc : c = '(' ∨ c = '<' ∨ c = '>') : ds.head? ≠ some '(' := by
  intro hparen
  obtain ⟨es, rfl⟩ : ∃ es, ds = '(' :: es := by
    cases ds with
    | nil => cases hparen
    | cons e es => exact ⟨es, by rw [Option.some.inj hparen]⟩
  have hkind : k = .lparen ∨ k = .less ∨ k = .great := by
    rw [hcons] at hop
    rcases hc with rfl | rfl | rfl <;> cases hop <;> simp
  refine hplain hkind ?_
  have hlength : ∃ b, k.text.toList = [b] := by rcases hkind with rfl | rfl | rfl <;> exact ⟨_, rfl⟩
  obtain ⟨b, hb⟩ := hlength
  rw [hb] at hcons
  exact congrArg List.head? (List.cons.inj hcons).2

theorem next?_token (h : Fits d cmd rest t) {n : Nat} (hn : t.text.toList.length ≤ n) :
    (between d file cmd loop toks p (t.text.toList ++ rest)).next? n =
      some (between d file (t.opens cmd) (t.loops loop) (toks.push { t with pos := p }) (p.advance t.text.toList) rest) := by
  cases h with
  | @word w quoted hw hsimple q =>
      obtain ⟨c, cs, rfl, hc⟩ := hw.head
      have hsimple : keywordAt cmd quoted (c :: cs) = true → String.ofList (c :: cs) ≠ "[[" := by
        intro hkey
        simp only [keywordAt, Bool.and_eq_true] at hkey
        exact hsimple hkey.1.1.1
      simp only [wordAt, String.toList_ofList] at hn ⊢
      have hs : (between d file cmd loop toks p (c :: (cs ++ rest))).rest = (c :: cs) ++ rest := rfl
      rw [List.cons_append, next?_of_head hc, hw.gathered _ n rfl hs hn, endWord_eq hs hw.ends.next rfl rfl, moveTo_eq hs]
      exact congrArg some (emit_between hsimple ⟨by simp [wordAt], by simp [wordAt]⟩)
  | @number w hnumeral hnext q =>
      obtain ⟨c, cs, rfl, hc, hcs⟩ := hnext
      have hdigits := digits_of_isNumeral hnumeral
      obtain ⟨e, es, rfl⟩ := List.exists_cons_of_ne_nil hdigits.1
      have hs : (between d file cmd loop toks p (e :: (es ++ c :: cs))).rest = (e :: es) ++ c :: cs := rfl
      have hsolid : IsSolid (e :: es) := isSolid_of_isNameChar fun d hd => by simp [Text.isNameChar, hdigits.2 d hd]
      have hstop : Stops (c :: cs) := by
        rintro b bs hb
        obtain ⟨rfl, rfl⟩ := List.cons.inj hb
        exact ⟨by rcases hc with rfl | rfl <;> rfl, fun _ => hcs⟩
      have hparen : (c :: cs).head? ≠ some '(' := by rcases hc with rfl | rfl <;> simp
      rw [String.toList_ofList] at hn ⊢
      rw [List.cons_append, next?_of_head (startsWord_of_isDigit (hdigits.2 e (List.mem_cons_self ..))),
        word_solid hs hsolid hstop (fun h => absurd h hparen) hn,
        endWord_number hs hnumeral (hc.imp (congrArg some) (congrArg some)), moveTo_eq hs]
      exact congrArg some (emit_between (by simp) ⟨by simp, by simp⟩)
  | @operator k f hop hsupported hplain hsimple q =>
      obtain ⟨c, ds, hcons, hc⟩ := operatorAt_head hop
      have hparen := operator_front hop hplain hcons
      have hblanks : blanks (c :: ds) = 0 := by
        simp only [List.mem_cons, List.not_mem_nil, or_false] at hc
        rcases hc with rfl | rfl | rfl | rfl | rfl | rfl | rfl <;> rfl
      have hmoved : (between d file cmd loop toks p (c :: ds)).moveBy 0 = between d file cmd loop toks p (c :: ds) := rfl
      have htaken : (between d file cmd loop toks p (c :: ds)).take k k.text.toList.length =
          (between d file cmd loop toks (p.advance k.text.toList) rest, { kind := k, text := k.text, pos := p }) := by
        simp only [take, moveBy, between, ← hcons, List.take_left, List.drop_left, String.ofList_toList]
      have hne (x : Char) (hx : x ∉ [';', '&', '|', '(', ')', '<', '>']) : c ≠ x := fun h => hx (h ▸ hc)
      have hproc : ((c == '<' || c == '>') && ds.head? == some '(') = false := by
        cases hfront : (c == '<' || c == '>') with
        | false => rfl
        | true => simpa using hparen (.inr (by simpa using hfront))
      have harith : (c == '(' && ds.head? == some '(') = false := by
        cases hfront : c == '(' with
        | false => rfl
        | true => simpa using hparen (.inl (beq_iff_eq.mp hfront))
      have hop : operatorAt (c :: ds) = some (k, k.text.toList.length, f) := hcons ▸ hop
      simp only [hcons]
      rw [next?, show (between d file cmd loop toks p (c :: ds)).rest = c :: ds from rfl, hblanks, hmoved]
      simp only [between, beq_eq_false_iff_ne.mpr (hne '\n' (by decide)), beq_eq_false_iff_ne.mpr (hne '#' (by decide)), hproc,
        harith, Bool.false_and, Bool.false_eq_true, if_false, hop]
      have hemit : emit (between d file cmd loop toks (p.advance k.text.toList) rest, { kind := k, text := k.text, pos := p }) = _ :=
        emit_between (by simp) hsimple
      have hneeds := needs_supported (s := between d file cmd loop toks p (c :: ds)) (p := p) hsupported
      exact congrArg some ((congrArg emit ((congrArg (Scanner.take · k _) hneeds).trans htaken)).trans hemit)
  | newline q =>
      have htext : "\n".toList = ['\n'] := rfl
      simp only [htext]
      rfl

theorem next?_comment {cs : List Char} (hline : '\n' ∉ cs) (hends : rest.head?.all (· == '\n') = true) (n : Nat) :
    (between d file cmd loop toks p ('#' :: (cs ++ rest))).next? n =
      some (between d file cmd loop (toks.push { kind := .comment, text := String.ofList ('#' :: cs), pos := p }) (p.advance ('#' :: cs)) rest) := by
  have hwhole : ('#' :: (cs ++ rest)).takeWhile (· != '\n') = '#' :: cs := by
    have hall : ∀ c ∈ '#' :: cs, (c != '\n') = true := by
      rintro c hc
      rcases List.mem_cons.mp hc with rfl | hc
      · rfl
      · exact bne_iff_ne.mpr fun heq => hline (heq ▸ hc)
    rw [← List.cons_append, List.takeWhile_append_of_pos hall]
    cases rest with
    | nil => simp
    | cons c rest => simp [(beq_iff_eq.mp hends : c = '\n')]
  have hmoved : (between d file cmd loop toks p ('#' :: (cs ++ rest))).moveBy 0 = between d file cmd loop toks p ('#' :: (cs ++ rest)) := rfl
  have hblanks : blanks ('#' :: (cs ++ rest)) = 0 := rfl
  have htaken : (between d file cmd loop toks p ('#' :: (cs ++ rest))).take .comment ('#' :: cs).length =
      (between d file cmd loop toks (p.advance ('#' :: cs)) rest, { kind := .comment, text := String.ofList ('#' :: cs), pos := p }) := by
    simp only [take, moveBy, between, ← List.cons_append, List.take_left, List.drop_left]
  have hemit : emit (between d file cmd loop toks (p.advance ('#' :: cs)) rest,
      { kind := .comment, text := String.ofList ('#' :: cs), pos := p }) = _ := emit_between (by simp) ⟨by simp, by simp⟩
  rw [next?, show (between d file cmd loop toks p ('#' :: (cs ++ rest))).rest = '#' :: (cs ++ rest) from rfl, hblanks, hmoved]
  simp only [between, hwhole, show ('#' == '\n') = false from rfl, show ('#' == '#') = true from rfl, Bool.false_eq_true,
    if_false, if_true]
  exact congrArg some ((congrArg emit htaken).trans hemit)

theorem Fits.text_ne_nil (h : Fits d cmd rest t) : t.text.toList ≠ [] := by
  cases h with
  | @word w quoted hw _ _ =>
      obtain ⟨c, cs, rfl, -⟩ := hw.head
      rw [wordAt, String.toList_ofList]
      exact List.cons_ne_nil _ _
  | number hnumeral _ _ =>
      rw [String.toList_ofList]
      exact (digits_of_isNumeral hnumeral).1
  | @operator k _ _ _ _ _ _ =>
      change k.text.toList ≠ []
      cases k <;> decide
  | newline _ =>
      change "\n".toList ≠ []
      decide

theorem Found.text_ne_nil (h : Found d cmd rest t) : t.text.toList ≠ [] := by
  cases h with
  | token ht => exact ht.text_ne_nil
  | comment _ _ _ =>
      rw [String.toList_ofList]
      exact List.cons_ne_nil _ _

theorem Found.next? (h : Found d cmd rest t) {n : Nat} (hn : t.text.toList.length ≤ n) :
    (between d file cmd loop toks p (t.text.toList ++ rest)).next? n =
      some (between d file (t.opens cmd) (t.loops loop) (toks.push { t with pos := p }) (p.advance t.text.toList) rest) := by
  cases h with
  | token ht => exact next?_token ht hn
  | comment hline hends _ =>
      simp only [String.toList_ofList, List.cons_append]
      exact next?_comment hline hends n

theorem finish_between : (between d file cmd loop toks p rest).finish =
    between d file cmd loop (toks.push { kind := .eof, text := "", pos := p.advance rest }) (p.advance rest) [] := by
  simp [finish, moveTo, between]

-- Each turn of the scanner takes the blanks in front of a token and the token.
theorem run_pieces (h : FoundAll d cmd L []) {n : Nat} (hn : (textOf L).length < n) (toks : Array Token) :
    (run n (between d file cmd loop toks p (textOf L))).tokens.toList =
        toks.toList ++ (placed p L ++ [{ kind := .eof, text := "", pos := p.advance (textOf L) }]) ∧
      (run n (between d file cmd loop toks p (textOf L))).diags = #[] := by
  obtain ⟨n, rfl⟩ := Nat.exists_eq_succ_of_ne_zero (Nat.ne_of_gt (Nat.zero_lt_of_lt hn))
  induction L generalizing n cmd loop toks p with
  | nil =>
      have hend : run (n + 1) (between d file cmd loop toks p []) = (between d file cmd loop toks p []).finish := rfl
      rw [show textOf [] = [] from rfl, hend, finish_between]
      exact ⟨by simp [between, placed], rfl⟩
  | cons x L ih =>
      cases x with
      | blank c =>
          obtain ⟨hc, hL⟩ := h
          have hcons : textOf (.blank c :: L) = c :: textOf L := rfl
          have hrun : run (n + 1) (between d file cmd loop toks p (c :: textOf L)) =
              run (n + 1) (between d file cmd loop toks (p.step c) (textOf L)) := by
            rw [run, run, next?_blank hc, finish_between, finish_between]
            rfl
          rw [hcons, List.length_cons] at hn
          rw [hcons, hrun]
          exact ih hL toks n (by omega)
      | token t =>
          obtain ⟨ht, hL⟩ := h
          have hcons : textOf (.token t :: L) = t.text.toList ++ textOf L := rfl
          have hlength : 0 < t.text.toList.length := List.length_pos_of_ne_nil ht.text_ne_nil
          rw [hcons, List.length_append] at hn
          obtain ⟨n, rfl⟩ := Nat.exists_eq_succ_of_ne_zero (show n ≠ 0 by omega)
          rw [List.append_nil] at ht
          have hrun : run (n + 2) (between d file cmd loop toks p (t.text.toList ++ textOf L)) =
              run (n + 1) (between d file (t.opens cmd) (t.loops loop) (toks.push { t with pos := p }) (p.advance t.text.toList)
                (textOf L)) := by
            rw [run, ht.next? (by omega)]
          obtain ⟨htokens, hdiags⟩ := ih (p := p.advance t.text.toList) hL (toks.push { t with pos := p }) n (by omega)
          rw [hcons, hrun]
          refine ⟨htokens.trans ?_, hdiags⟩
          rw [Position.advance_append, placed]
          simp

theorem scanText_pieces (h : FoundAll d true L []) (file : String) (p : Position) :
    scanText d file p (textOf L) = (placed p L ++ [{ kind := .eof, text := "", pos := p.advance (textOf L) }], []) := by
  obtain ⟨htokens, hdiags⟩ := run_pieces (p := p) h (Nat.lt_succ_self _) #[]
  exact Prod.ext htokens (congrArg Array.toList hdiags)

end Pieces

end Scanner
end Token
end ShellScript

import Mathlib.Data.List.TakeDrop
import ShellScript.Proofs.Program.Operand
import ShellScript.Proofs.Token.Spelling
import ShellScript.Script.Outline

-- What the text of a word is read as.
namespace ShellScript
namespace Script
namespace Read

open Construct (Guarded ansiMarks doubleMarks)

variable {s : Setting} {nested : Nested} {mode : Mode} {v : String} {cs : List Char}

-- The characters that are more than literal text.
def literalMarks : Mode → List Char
  | .double | .hereDoc => doubleMarks
  | _ => ['\\', Text.backquote, '$', '\'', '"', '\x7b', '<', '>']

theorem partAt_plain {c : Char} (hc : c ∉ literalMarks mode) (first : Bool) (g : Gathered) (p : Position) (cs : List Char) :
    partAt s nested mode first g p c cs = pure (g.addLit p [c], cs) := by
  cases mode <;> simp only [literalMarks, doubleMarks, List.mem_cons, List.not_mem_nil, or_false, not_or] at hc <;>
    simp [partAt, hc, Mode.quotes]

theorem partAt_escaped (first : Bool) (g : Gathered) (p : Position) (c : Char) (cs : List Char) :
    partAt s nested mode first g p '\\' (c :: cs) = pure (g.addLit p ['\\', c], cs) := rfl

def Gathered.addText (g : Gathered) (p : Position) (cs : List Char) : Gathered := if cs.isEmpty then g else g.addLit p cs

theorem Gathered.addText_append (g : Gathered) (p : Position) {cs ds : List Char} (hne : cs ≠ []) :
    (g.addLit p cs).addText (p.advance cs) ds = g.addLit p (cs ++ ds) := by
  cases cs with
  | nil => exact absurd rfl hne
  | cons c cs =>
      cases ds with
      | nil => simp [addText]
      | cons d ds => simp [addText, addLit]

theorem partsFrom_guarded (h : Guarded (literalMarks mode) cs) (rest : List Char) {n : Nat} (hn : (cs ++ rest).length < n)
    (first : Bool) (g : Gathered) (p : Position) :
    ∃ m first', rest.length < m ∧ partsFrom s nested mode n first g p (cs ++ rest) =
      partsFrom s nested mode m first' (g.addText p cs) (p.advance cs) rest := by
  induction h generalizing n first g p with
  | nil => exact ⟨n, first, hn, rfl⟩
  | @plain c cs hc _ ih =>
      obtain ⟨n, rfl⟩ := Nat.exists_eq_succ_of_ne_zero (Nat.ne_of_gt (Nat.zero_lt_of_lt hn))
      rw [List.cons_append, List.length_cons] at hn
      obtain ⟨m, first', hm, ih⟩ := ih (Nat.lt_of_succ_lt_succ hn) false (g.addLit p [c]) (p.advance [c])
      rw [Gathered.addText_append _ _ (List.cons_ne_nil _ _)] at ih
      have hbetween : between (c :: (cs ++ rest)) (cs ++ rest) = [c] := by simp [between]
      refine ⟨m, first', hm, ?_⟩
      rw [List.cons_append, partsFrom, partAt_plain hc, pure_bind]
      dsimp only
      rw [hbetween, ih]
      rfl
  | @escaped c cs _ ih =>
      obtain ⟨n, rfl⟩ := Nat.exists_eq_succ_of_ne_zero (Nat.ne_of_gt (Nat.zero_lt_of_lt hn))
      rw [List.cons_append, List.cons_append, List.length_cons, List.length_cons] at hn
      obtain ⟨m, first', hm, ih⟩ := ih (show (cs ++ rest).length < n by omega) false (g.addLit p ['\\', c]) (p.advance ['\\', c])
      rw [Gathered.addText_append _ _ (List.cons_ne_nil _ _)] at ih
      have hlength : ('\\' :: c :: (cs ++ rest)).length - (cs ++ rest).length = 2 := by
        rw [List.length_cons, List.length_cons]
        omega
      have hbetween : between ('\\' :: c :: (cs ++ rest)) (cs ++ rest) = ['\\', c] := by rw [between, hlength]; rfl
      refine ⟨m, first', hm, ?_⟩
      rw [List.cons_append, List.cons_append, partsFrom, partAt_escaped, pure_bind]
      dsimp only
      rw [hbetween, ih]
      rfl

theorem partsFrom_nil (n : Nat) (first : Bool) (g : Gathered) (p : Position) :
    partsFrom s nested mode n first g p [] = pure g.finish := by
  cases n <;> rfl

theorem inside_ok_append {cs rest : List Char} {stop : Char} {r : Construct.Close} (hr : r = .ok rest) :
    inside r (cs ++ stop :: rest) 1 = (cs, rest) := by
  have hlength : (cs ++ stop :: rest).length - rest.length - 1 = cs.length := by
    rw [List.length_append, List.length_cons]
    omega
  rw [hr, inside, hlength, List.take_left]

theorem inside_close {cs : List Char} {stop : Char} {r : Construct.Close} (hr : r = .ok []) :
    inside r (cs ++ [stop]) 1 = (cs, []) := inside_ok_append hr

-- What a quoted text adds to the parts of a word.
def Gathered.addQuote (g : Gathered) (q : Quote) (p : Position) (cs : List Char) : Gathered :=
  match q with
  | .bare => g.addText p cs
  | .single => g.addPart (.single p false (String.ofList cs))
  | .dollar => g.addPart (.single p true (String.ofList cs))
  | .double => g.addPart (.double p false [.lit (p.step '"') (String.ofList cs)])

theorem guarded_of_safe (h : ∀ c ∈ cs, Text.isShellChar c = false) : Guarded (literalMarks .unquoted) cs := by
  have hmarks : ∀ c ∈ literalMarks .unquoted, Text.isShellChar c = true := List.all_iff_forall_prop.mp (by decide)
  exact .of_plain fun c hc hmark => Bool.eq_false_iff.mp (h c hc) (hmarks c hmark)

theorem parts_double (h : Guarded doubleMarks cs) (hne : cs ≠ []) (p : Position) :
    parts s nested .double p cs = pure [.lit p (String.ofList cs)] := by
  have hn : (cs ++ []).length < cs.length + 1 := by simp
  obtain ⟨m, first, -, hparts⟩ : ∃ m first, _ ∧ partsFrom s nested .double (cs.length + 1) true {} p (cs ++ []) = _ :=
    partsFrom_guarded (show Guarded (literalMarks .double) cs from h) [] hn true {} p
  rw [List.append_nil] at hparts
  rw [parts, hparts, partsFrom_nil]
  simp [Gathered.addText, Gathered.addLit, Gathered.finish, Gathered.flush, hne]

theorem partsFrom_around {q : Quote} (h : q.Holds v cs) (hd : s.dialect.supports .ansiQuote = true) {n : Nat}
    (hn : (q.around cs).length < n) (k : Nat) (first : Bool) (g : Gathered) (p : Position) :
    partsFrom s (Read.nested s (k + 1)) .unquoted n first g p (q.around cs) = pure (g.addQuote q p cs).finish := by
  obtain ⟨n, rfl⟩ := Nat.exists_eq_succ_of_ne_zero (Nat.ne_of_gt (Nat.zero_lt_of_lt hn))
  cases q with
  | bare =>
      rw [← List.append_nil (Quote.around .bare cs)] at hn
      obtain ⟨m, first', -, hparts⟩ := partsFrom_guarded (s := s) (guarded_of_safe h.2.1) [] hn first g p
      rw [List.append_nil, partsFrom_nil] at hparts
      exact hparts
  | single =>
      have hinside : inside (Construct.closeSingle 0 (cs ++ ['\''])) (cs ++ ['\'']) 1 = (cs, []) :=
        inside_close (Construct.closeSingle_plain h.1 0 [])
      have hpart : partAt s (Read.nested s (k + 1)) .unquoted first g p '\'' (cs ++ ['\'']) =
          pure (g.addPart (.single p false (String.ofList cs)), []) := by
        simp [partAt, Mode.quotes, hinside]
      rw [Quote.around, partsFrom, hpart, pure_bind]
      exact partsFrom_nil ..
  | dollar =>
      have hinside : inside (Construct.closeAnsi 0 (cs ++ ['\''])) (cs ++ ['\'']) 1 = (cs, []) :=
        inside_close (Construct.closeAnsi_guarded h.1 0 [])
      have hpart : partAt s (Read.nested s (k + 1)) .unquoted first g p '$' ('\'' :: (cs ++ ['\''])) =
          pure (g.addPart (.single p true (String.ofList cs)), []) := by
        simp [partAt, Mode.quotes, dollar, hd, hinside, Text.backquote]
      rw [Quote.around, partsFrom, hpart, pure_bind]
      exact partsFrom_nil ..
  | double =>
      have hinside : inside (Construct.closeDouble s.dialect (cs ++ ['"'])) (cs ++ ['"']) 1 = (cs, []) :=
        inside_close (Construct.closeDouble_guarded h.2.1 _ [])
      have hnested : (Read.nested s (k + 1)).parts .double (p.step '"') cs = pure [.lit (p.step '"') (String.ofList cs)] :=
        parts_double h.2.1 h.1 _
      have hpart : partAt s (Read.nested s (k + 1)) .unquoted first g p '"' (cs ++ ['"']) =
          pure (g.addPart (.double p false [.lit (p.step '"') (String.ofList cs)]), []) := by
        simp [partAt, Mode.quotes, hinside, hnested]
      rw [Quote.around, partsFrom, hpart, pure_bind]
      exact partsFrom_nil ..

-- The value of a quoted text.
theorem partsValue?_addQuote {q : Quote} (h : q.Holds v cs) (p : Position) :
    partsValue? false (Gathered.addQuote {} q p cs).finish = some v := by
  have hone (part : WordPart) (h : part.value? false = some v) : partsValue? false [part] = some v := by
    rw [partsValue?, h, partsValue?]
    simp
  have hpart (part : WordPart) : (Gathered.addPart {} part).finish = [part] := rfl
  cases q with
  | bare =>
      obtain ⟨hne, hsafe, rfl⟩ := h
      have hback : '\\' ∉ cs := fun hmem => Bool.false_ne_true ((hsafe _ hmem).symm.trans rfl)
      have hparts : (Gathered.addQuote {} .bare p cs).finish = [.lit p (String.ofList cs)] := by
        simp [Gathered.addQuote, Gathered.addText, Gathered.addLit, Gathered.finish, Gathered.flush, hne]
      have hsame := unescapeList_append hback []
      rw [List.append_nil, unescapeList, List.append_nil] at hsame
      rw [hparts]
      refine hone _ (congrArg some ?_)
      simp [unescape, hsame]
  | single =>
      obtain ⟨-, rfl⟩ := h
      exact hone _ rfl
  | dollar =>
      obtain ⟨-, rfl⟩ := h
      exact hone _ rfl
  | double =>
      obtain ⟨-, -, rfl⟩ := h
      refine hone _ ?_
      simp [WordPart.value?, partsValue?]

end Read

open Construct (Guarded doubleMarks)
open Read (Mode literalMarks)

-- The names behind a dollar sign.
inductive IsParamName : List Char → Prop where
  | name {n : List Char} (name : Text.isName (String.ofList n) = true) : IsParamName n
  | special {c : Char} (special : Text.isDigit c = true ∨ c ∈ ['@', '*', '#', '?', '-', '!']) : IsParamName [c]

-- The characters of a word that are more than its text, within double quotes and outside them.
def wordMarks (inDouble : Bool) : List Char :=
  if inDouble then doubleMarks
  else literalMarks .unquoted ++ [' ', '\t', '\r', '\n', ';', '&', '|', '(', ')']

def WordPart.isLit : WordPart → Bool
  | .lit _ _ => true
  | _ => false

-- How the parts of a word are written that are text, quotations, and the values of variables.
inductive Written : Bool → List WordPart → List Char → Prop where
  | nil (b : Bool) : Written b [] []
  | lit {b : Bool} (p : Position) {v : String} {ps : List WordPart} {cs : List Char} (plain : Guarded (wordMarks b) v.toList) (ne : v ≠ "")
      (last : ∀ q ∈ ps.head?, q.isLit = false) (rest : Written b ps cs) : Written b (.lit p v :: ps) (v.toList ++ cs)
  | param {b : Bool} (p : Position) {n : List Char} {ps : List WordPart} {cs : List Char} (name : IsParamName n)
      (ends : n.head?.any Text.isNameStart = true → cs.head?.all (!Text.isNameChar ·) = true) (rest : Written b ps cs) :
      Written b (.param p (ParamExp.ofName (String.ofList n)) :: ps) ('$' :: (n ++ cs))
  | single (p : Position) {v : String} {ps : List WordPart} {cs : List Char} (plain : '\'' ∉ v.toList) (rest : Written false ps cs) :
      Written false (.single p false v :: ps) ('\'' :: (v.toList ++ '\'' :: cs))
  | double (p : Position) {qs ps : List WordPart} {ds cs : List Char} (inner : Written true qs ds) (rest : Written false ps cs) :
      Written false (.double p false qs :: ps) ('"' :: (ds ++ '"' :: cs))

theorem run_bind_of {x : Printing Unit} {p q : Printer} (h : x.run p = ((), q)) (y : Printing Unit) :
    (x >>= fun _ => y).run p = y.run q := by
  rw [StateT.run_bind, h]
  rfl

theorem run_str_bind (s : String) (x : Printing Unit) (p : Printer) :
    (Printer.str s >>= fun _ => x).run p = x.run { p with out := p.out ++ s } := rfl

namespace Written

variable {b : Bool} {ps : List WordPart} {cs : List Char}

-- Writing

theorem prints (h : Written b ps cs) (p : Printer) : (printParts b ps).run p = ((), { p with out := p.out ++ String.ofList cs }) := by
  induction h generalizing p with
  | nil b =>
      rw [String.ofList_nil, String.append_empty]
      rfl
  | lit q _ _ _ _ ih =>
      rw [printParts, WordPart.print, run_str_bind, ih]
      simp [String.ofList_append, String.append_assoc]
  | @param b q n _ _ _ _ _ ih =>
      have hname : (ParamExp.ofName (String.ofList n)).print = Printer.str ("$" ++ String.ofList n) := rfl
      rw [printParts, WordPart.print, hname, run_str_bind, ih]
      simp [String.ofList_append, String.append_assoc, String.ofList_cons]
  | single q _ _ ih =>
      rw [printParts, WordPart.print, run_str_bind, ih]
      simp [String.ofList_append, String.append_assoc, String.ofList_cons]
  | @double q qs ps ds cs _ _ ihq ih =>
      have hquoted : (WordPart.print false (.double q false qs)).run p =
          ((), { p with out := p.out ++ "\"" ++ String.ofList ds ++ "\"" }) := by
        rw [WordPart.print]
        exact (run_str_bind ..).trans (run_bind_of (ihq _) _)
      rw [printParts, run_bind_of hquoted, ih]
      simp [String.ofList_append, String.append_assoc, String.ofList_cons]

end Written

-- Scanning

theorem IsParamName.ne_nil {n : List Char} (h : IsParamName n) : n ≠ [] := by
  cases h with
  | name hname =>
      rintro rfl
      cases hname
  | special _ => exact List.cons_ne_nil _ _

theorem IsParamName.mem {n : List Char} (h : IsParamName n) :
    ∀ c ∈ n, Text.isNameChar c = true ∨ c ∈ ['@', '*', '#', '?', '-', '!'] := by
  cases h with
  | name hname =>
      obtain ⟨c, cs, hcons, hc, hall⟩ := Text.exists_cons_of_isName hname
      rw [String.toList_ofList] at hall
      exact fun c hc => .inl (hall c hc)
  | special hspecial =>
      refine List.forall_mem_singleton.mpr (hspecial.imp_left fun hdigit => ?_)
      simp [Text.isNameChar, hdigit]

theorem not_mem_of_paramName {n marks : List Char} (h : IsParamName n)
    (hmarks : (marks.all fun c => !Text.isNameChar c && !(['@', '*', '#', '?', '-', '!'].contains c)) = true) : ∀ c ∈ n, c ∉ marks := by
  intro c hc hmark
  have hother := List.all_eq_true.mp hmarks c hmark
  rw [Bool.and_eq_true, Bool.not_eq_true', Bool.not_eq_true'] at hother
  rcases h.mem c hc with hname | hspecial
  · exact Bool.false_ne_true (hother.1.symm.trans hname)
  · exact Bool.false_ne_true (hother.2.symm.trans (List.contains_iff_mem.mpr hspecial))

-- A name after a dollar sign is passed as ordinary text.
theorem closeDollar_name {n : List Char} (h : IsParamName n) (d : Dialect) (k : Nat) (inDouble : Bool) (rest : List Char) :
    Construct.closeDollar d k inDouble (n ++ rest) = .ok (n ++ rest) := by
  have hfront : ∀ c ∈ n, c ∉ ['(', '\x7b', '\'', '"'] := not_mem_of_paramName h (by decide)
  obtain ⟨c, cs, rfl⟩ := List.exists_cons_of_ne_nil h.ne_nil
  have hc := hfront c (List.mem_cons_self ..)
  simp only [List.mem_cons, List.not_mem_nil, or_false, not_or] at hc
  obtain ⟨hparen, hbrace, hsingle, hdouble⟩ := hc
  cases k with
  | zero => rfl
  | succ k =>
      unfold Construct.closeDollar
      split
      · exact absurd (List.cons.inj ‹_›).1 hparen
      · exact absurd (List.cons.inj ‹_›).1 hbrace
      · exact absurd (List.cons.inj ‹_›).1 hsingle
      · exact absurd (List.cons.inj ‹_›).1 hdouble
      · rfl

theorem passes_dollar {n : List Char} (h : IsParamName n) (d : Dialect) : Construct.Passes d ('$' :: n) := by
  have hplain : Construct.Passes d n :=
    Construct.passes_guarded (.of_plain (not_mem_of_paramName h (by decide)))
  have hdollar (k left : Nat) (prev : Char) (rest : List Char) : Construct.close d (k + 1) .double left prev ('$' :: (n ++ rest)) =
      Construct.close d k .double left '$' (n ++ rest) := by
    rw [Construct.close]
    simp [Construct.turn, Text.backquote, closeDollar_name h, Construct.Turn.past]
  intro k left prev rest
  obtain ⟨m, prev', hm, hclose⟩ := hplain k left '$' rest
  exact ⟨m, prev', hm, (hdollar _ left prev rest).trans hclose⟩

theorem Written.head?_ne {b : Bool} {ps : List WordPart} {cs : List Char} (h : Written b ps cs) (hb : b = false) : cs.head? ≠ some '(' := by
  cases h with
  | nil _ => exact nofun
  | @lit _ _ v _ _ hplain hne _ _ =>
      subst hb
      have hv := hplain.head?_ne (c := '(') (by decide) (by decide)
      obtain ⟨c, cs, hcons⟩ := List.exists_cons_of_ne_nil (show v.toList ≠ [] by simpa using hne)
      rw [hcons] at hv ⊢
      exact hv
  | param _ _ _ _ => exact nofun
  | single _ _ _ => exact nofun
  | double _ _ _ => exact nofun

theorem Written.passes {b : Bool} {ps : List WordPart} {cs : List Char} (h : Written b ps cs) (hb : b = true) (d : Dialect) :
    Construct.Passes d cs := by
  induction h with
  | nil _ => exact Construct.passes_nil d
  | lit _ hplain _ _ _ ih =>
      subst hb
      exact (Construct.passes_guarded hplain).append (ih rfl)
  | param _ hname _ _ ih => exact (passes_dollar hname d).append (ih hb)
  | single _ _ _ _ => cases hb
  | double _ _ _ _ _ => cases hb

end Script

namespace Token.Scanner

open Construct (Guarded)
open Script (IsParamName Written)

-- A word goes on with the text `cs`, which leaves nothing open.
def Gathers (d : Dialect) (cs : List Char) (q : Bool) : Prop :=
  ∀ (s : Scanner) (start rest : List Char) (p : Position) (n : Nat) (first quoted : Bool), s.dialect = d → s.rest = cs ++ rest →
    rest.head? ≠ some '(' → ∃ m first', n ≤ m ∧
      gather wordTurn start p (n + cs.length) first quoted s = gather wordTurn start p m first' (quoted || q) (s.moveTo rest)

variable {d : Dialect} {cs ds : List Char} {q q' : Bool}

theorem Gathers.append (h : Gathers d cs q) (h' : Gathers d ds q') (hds : ds.head? ≠ some '(') : Gathers d (cs ++ ds) (q || q') := by
  intro s start rest p n first quoted hd hs hrest
  rw [List.append_assoc] at hs
  have hfront : (ds ++ rest).head? ≠ some '(' := by
    cases ds with
    | nil => exact hrest
    | cons c ds => exact hds
  obtain ⟨m, first₁, hm, hfirst⟩ := h s start (ds ++ rest) p (n + ds.length) first quoted hd hs hfront
  obtain ⟨k, rfl⟩ := Nat.exists_eq_add_of_le hm
  obtain ⟨m, first₂, hm, hsecond⟩ := h' (s.moveTo (ds ++ rest)) start rest p (n + k) first₁ (quoted || q) hd rfl hrest
  refine ⟨m, first₂, by omega, ?_⟩
  rw [moveTo_moveTo hs, Bool.or_assoc] at hsecond
  rw [List.length_append, Nat.add_comm cs.length, ← Nat.add_assoc, hfirst, ← hsecond]
  congr 1
  omega

theorem gathers_turn (hcs : cs ≠ []) (h : ∀ (s : Scanner) (rest : List Char) (first quoted : Bool), s.dialect = d → s.rest = cs ++ rest →
    rest.head? ≠ some '(' → wordTurn first quoted s = some (false, quoted || q, s.moveTo rest)) : Gathers d cs q := by
  intro s start rest p n first quoted hd hs hrest
  obtain ⟨c, cs, rfl⟩ := List.exists_cons_of_ne_nil hcs
  refine ⟨n + cs.length, false, Nat.le_add_right .., ?_⟩
  rw [List.length_cons, ← Nat.add_assoc, gather, h s rest first quoted hd hs hrest]

theorem gathers_solid (h : IsSolid cs) : Gathers d cs false := by
  intro s start rest p n first quoted hd hs hrest
  obtain ⟨first', hgather⟩ := gather_solid (p := p) hs h (fun hparen => absurd hparen hrest) n first quoted
  exact ⟨n, first', Nat.le_refl n, by rw [hgather, Bool.or_false]⟩

theorem gathers_escape (c : Char) : Gathers d ['\\', c] true := by
  refine gathers_turn (List.cons_ne_nil _ _) fun s rest first quoted _ hs _ => ?_
  have hmoved : s.moveBy 2 = s.moveTo rest := by
    rw [moveTo_eq hs, moveBy, hs]
    rfl
  simp only [wordTurn, hs, List.cons_append, List.nil_append]
  simp [opensPattern, Text.isMeta, Text.isBlank, hmoved]

theorem mem_wordMarks_of_isMeta {c : Char} (h : Text.isMeta c = true) : c ∈ Script.wordMarks false := by
  simp only [Text.isMeta, Text.isBlank, Bool.or_eq_true, beq_iff_eq] at h
  rcases h with (((((((((rfl | rfl) | rfl) | rfl) | rfl) | rfl) | rfl) | rfl) | rfl) | rfl) | rfl <;> decide

theorem gathers_guarded (h : Guarded (Script.wordMarks false) cs) : ∃ q, Gathers d cs q := by
  have hmarks : ∀ c ∈ wordMarks, c ∈ Script.wordMarks false := List.all_iff_forall_prop.mp (by decide)
  induction h with
  | nil => exact ⟨false, gathers_solid (List.forall_mem_nil _)⟩
  | @plain c cs hc hcs ih =>
      obtain ⟨q, ih⟩ := ih
      have hsolid : IsSolid [c] := List.forall_mem_singleton.mpr
        ⟨Bool.eq_false_iff.mpr fun hmeta => hc (mem_wordMarks_of_isMeta hmeta), fun hmark => hc (hmarks c hmark)⟩
      exact ⟨_, (gathers_solid hsolid).append ih (hcs.head?_ne (by decide) (by decide))⟩
  | @escaped c cs hcs ih =>
      obtain ⟨q, ih⟩ := ih
      exact ⟨_, (gathers_escape c).append ih (hcs.head?_ne (by decide) (by decide))⟩

theorem gathers_single (h : '\'' ∉ cs) : Gathers d ('\'' :: (cs ++ ['\''])) true := by
  refine gathers_turn (List.cons_ne_nil _ _) fun s rest first quoted _ hs _ => ?_
  have hclose (n : Nat) : Construct.closeSingle n (cs ++ '\'' :: rest) = .ok rest := Construct.closeSingle_plain h n rest
  have hs : s.rest = '\'' :: (cs ++ '\'' :: rest) := by simpa using hs
  simp only [wordTurn, hs, hclose]
  simp [opensPattern, Text.isMeta, Text.isBlank, passConstruct]

theorem gathers_double (h : Construct.Passes d cs) : Gathers d ('"' :: (cs ++ ['"'])) true := by
  refine gathers_turn (List.cons_ne_nil _ _) fun s rest first quoted hd hs _ => ?_
  have hclose : Construct.closeDouble s.dialect (cs ++ '"' :: rest) = .ok rest := Construct.closeDouble_of_passes (hd ▸ h) rest
  have hs : s.rest = '"' :: (cs ++ '"' :: rest) := by simpa using hs
  simp only [wordTurn, hs, hclose]
  simp [opensPattern, Text.isMeta, Text.isBlank, passConstruct]

theorem gathers_dollar (h : IsParamName cs) : Gathers d ('$' :: cs) false := by
  have hmetas : ∀ c ∈ cs, c ∉ [' ', '\t', '\r', '\n', ';', '&', '|', '<', '>', '(', ')'] :=
    Script.not_mem_of_paramName h (by decide)
  have hsolid : IsSolid cs := fun c hc =>
    ⟨Bool.eq_false_iff.mpr fun hmeta => hmetas c hc (by simpa [Text.isMeta, Text.isBlank, or_assoc] using hmeta),
      Script.not_mem_of_paramName h (by decide) c hc⟩
  intro s start rest p n first quoted hd hs hrest
  have hclose : Construct.closeExpansion s.dialect false (cs ++ rest) = .ok (cs ++ rest) := Script.closeDollar_name h ..
  have hnext : ∀ c ∈ ['\'', '"', '('], (cs ++ rest).head? ≠ some c := by
    have hfront : ∀ c ∈ cs, c ∉ ['\'', '"', '('] := Script.not_mem_of_paramName h (by decide)
    obtain ⟨c, cs, rfl⟩ := List.exists_cons_of_ne_nil h.ne_nil
    exact fun e he heq => hfront c (List.mem_cons_self ..) (Option.some.inj heq ▸ he)
  have hturn : wordTurn first quoted s = some (false, quoted, s.moveTo (cs ++ rest)) := by
    rw [List.cons_append] at hs
    generalize cs ++ rest = follow at hs hclose hnext ⊢
    have hsingle : (follow.head? == some '\'') = false := beq_eq_false_iff_ne.mpr (hnext _ (by decide))
    have hdouble : (follow.head? == some '"') = false := beq_eq_false_iff_ne.mpr (hnext _ (by decide))
    simp only [wordTurn, hs, hsingle, hdouble]
    simp [opensPattern, Text.isMeta, Text.isBlank, Text.backquote, passConstruct, hclose]
  obtain ⟨m, first', hm, hgather⟩ := gathers_solid hsolid (s.moveTo (cs ++ rest)) start rest p n false quoted hd rfl hrest
  refine ⟨m, first', hm, ?_⟩
  rw [List.length_cons, ← Nat.add_assoc, gather, hturn]
  rw [moveTo_moveTo (show s.rest = ['$'] ++ (cs ++ rest) from hs)] at hgather
  exact hgather

theorem gathers_written {b : Bool} {ps : List Script.WordPart} (h : Written b ps cs) (hb : b = false) : ∃ q, Gathers d cs q := by
  induction h with
  | nil _ => exact ⟨false, gathers_solid (List.forall_mem_nil _)⟩
  | lit _ hplain _ _ hrest ih =>
      subst hb
      obtain ⟨q, hlit⟩ := gathers_guarded (d := d) hplain
      obtain ⟨q', ih⟩ := ih rfl
      exact ⟨_, hlit.append ih (hrest.head?_ne rfl)⟩
  | param _ hname _ hrest ih =>
      obtain ⟨q, ih⟩ := ih hb
      exact ⟨_, (gathers_dollar hname).append ih (hrest.head?_ne hb)⟩
  | single _ hplain hrest ih =>
      obtain ⟨q, ih⟩ := ih hb
      have happend := (gathers_single hplain).append ih (hrest.head?_ne rfl)
      exact ⟨_, by simpa using happend⟩
  | double _ hinner hrest _ ih =>
      obtain ⟨q, ih⟩ := ih hb
      have happend := (gathers_double (hinner.passes rfl d)).append ih (hrest.head?_ne rfl)
      exact ⟨_, by simpa using happend⟩

-- Where a word may begin, text that leaves nothing open is split off as one word.
theorem Gathers.isWord {c : Char} (h : Gathers d (c :: cs) q) (hc : startsWord c = true) {rest : List Char} (hends : Ends rest)
    (hparen : rest.head? ≠ some '(') : IsWord d q (c :: cs) rest := by
  refine ⟨⟨c, cs, rfl, hc⟩, hends, fun s n hd hs hn => ?_⟩
  obtain ⟨k, rfl⟩ := Nat.exists_eq_add_of_le' hn
  obtain ⟨m, first, -, hgather⟩ := h s s.rest rest s.pos k true false hd hs hparen
  rw [Bool.false_or] at hgather
  exact hgather.trans (gather_stop hends.stops m first q)

end Token.Scanner
namespace Script
namespace Read

open Construct (Guarded)

variable {s : Setting} {nested : Nested} {b : Bool} {ps : List WordPart} {cs : List Char}

def modeOf (inDouble : Bool) : Mode := if inDouble then .double else .unquoted

theorem isNameStart_of_isDigit {c : Char} (h : Text.isDigit c = true) : Text.isNameStart c = false := by
  have hle {a b : Char} (h : a ≤ b) : a.toNat ≤ b.toNat := h
  simp only [Text.isDigit, Bool.and_eq_true, decide_eq_true_eq] at h
  have hhigh : c.toNat ≤ 57 := hle h.2
  rw [Bool.eq_false_iff]
  intro hstart
  simp only [Text.isNameStart, Text.isLower, Text.isUpper, Bool.or_eq_true, Bool.and_eq_true, decide_eq_true_eq, beq_iff_eq] at hstart
  rcases hstart with (rfl | ⟨hlow, -⟩) | ⟨hlow, -⟩
  · revert hhigh
    decide
  · have hlow : 97 ≤ c.toNat := hle hlow
    omega
  · have hlow : 65 ≤ c.toNat := hle hlow
    omega

theorem dollar_name {n : List Char} (h : IsParamName n)
    (hends : n.head?.any Text.isNameStart = true → cs.head?.all (!Text.isNameChar ·) = true) (p : Position) :
    dollar s nested (modeOf b) p (n ++ cs) = pure (some (.param p (ParamExp.ofName (String.ofList n)), cs)) := by
  cases h with
  | name hname =>
      obtain ⟨c, ds, hcons, hc, hall⟩ := Text.exists_cons_of_isName hname
      rw [String.toList_ofList] at hcons hall
      subst hcons
      have hspan : (c :: ds ++ cs).span Text.isNameChar = (c :: ds, cs) := by
        refine Text.span_name hall fun e he => ?_
        have hnot := hends (by simpa using hc)
        rw [Option.mem_def.mp he] at hnot
        simpa using hnot
      have hne (x : Char) (hx : Text.isNameStart x = false) : c ≠ x := by
        rintro rfl
        rw [hc] at hx
        cases hx
      have hsplit : c :: ds ++ cs = c :: (ds ++ cs) := rfl
      rw [hsplit] at hspan ⊢
      unfold dollar
      split
      · exact absurd (List.cons.inj ‹_›).1 (hne _ rfl)
      · exact absurd (List.cons.inj ‹_›).1 (hne _ rfl)
      · rename_i hcons
        obtain ⟨rfl, rfl⟩ := List.cons.inj hcons
        rw [List.span_eq_takeWhile_dropWhile, Prod.mk.injEq] at hspan
        simp [hne '\'' rfl, hne '"' rfl, hc, hspan, -String.ofList_cons]
      · cases ‹_›
  | @special c hspecial =>
      have hnot : c ∉ ['(', '\x7b', '\'', '"'] :=
        not_mem_of_paramName (.special hspecial) (by decide) c (List.mem_singleton_self c)
      have hstart : Text.isNameStart c = false := by
        rcases hspecial with hdigit | hother
        · exact isNameStart_of_isDigit hdigit
        · exact (List.all_iff_forall_prop.mp (by decide) : ∀ c ∈ ['@', '*', '#', '?', '-', '!'], Text.isNameStart c = false) c hother
      have hparam : (Text.isDigit c || isSpecialParam c) = true := by
        rcases hspecial with hdigit | hother
        · rw [hdigit, Bool.true_or]
        · exact (List.all_iff_forall_prop.mp (by decide) :
            ∀ c ∈ ['@', '*', '#', '?', '-', '!'], (Text.isDigit c || isSpecialParam c) = true) c hother
      simp only [List.mem_cons, List.not_mem_nil, or_false, not_or] at hnot
      rw [List.singleton_append]
      unfold dollar
      split
      · exact absurd (List.cons.inj ‹_›).1 hnot.1
      · exact absurd (List.cons.inj ‹_›).1 hnot.2.1
      · rename_i hcons
        obtain ⟨rfl, rfl⟩ := List.cons.inj hcons
        simp [hnot, hstart, hparam]
      · cases ‹_›

theorem Gathered.lit_addPart (g : Gathered) (part : WordPart) : (g.addPart part).lit = [] := by
  simp only [addPart, flush]
  split
  · exact List.isEmpty_iff.mp ‹_›
  · rfl

theorem Gathered.finish_addPart (g : Gathered) (part : WordPart) : (g.addPart part).finish = g.finish ++ [part] := by
  have hflush : (g.addPart part).flush = g.addPart part := if_pos (by simp [g.lit_addPart])
  rw [finish, hflush]
  exact List.reverse_cons

theorem Gathered.finish_addLit (g : Gathered) (hg : g.lit = []) (p : Position) {v : List Char} (hv : v ≠ []) :
    (g.addLit p v).finish = g.finish ++ [.lit p (String.ofList v)] := by
  simp [addLit, finish, flush, hg, hv]

-- What is written is read as it was.
theorem partsFrom_written (h : Written b ps cs) (hnested : b = false → ∃ s' inner, nested.parts = parts s' inner) {n : Nat}
    (hn : cs.length < n) (first : Bool) (g : Gathered) (hg : g.lit = [] ∨ ∀ q ∈ ps.head?, q.isLit = false) (p : Position) :
    ∃ ps', describeParts ps' = describeParts ps ∧ partsFrom s nested (modeOf b) n first g p cs = pure (g.finish ++ ps') := by
  induction h generalizing s nested n first g p with
  | nil b => exact ⟨[], rfl, by rw [partsFrom_nil, List.append_nil]⟩
  | @lit b q v ps cs hplain hne hlast hrest ih =>
      have hv : v.toList ≠ [] := by simpa using hne
      have hg : g.lit = [] := hg.resolve_right fun h => Bool.false_ne_true (h _ rfl).symm
      have hmarks : Guarded (literalMarks (modeOf b)) v.toList := by
        cases b with
        | true => exact hplain
        | false => exact hplain.mono (List.all_iff_forall_prop.mp (by decide))
      obtain ⟨m, first', hm, hparts⟩ := partsFrom_guarded (s := s) hmarks cs hn first g p
      obtain ⟨ps', hsame, hread⟩ := ih hnested hm first' (g.addLit p v.toList) (.inr hlast) (p.advance v.toList)
      refine ⟨.lit p v :: ps', by rw [describeParts, hsame]; rfl, ?_⟩
      have htext : g.addText p v.toList = g.addLit p v.toList := if_neg (by simpa using hv)
      rw [hparts, htext, hread, Gathered.finish_addLit g hg p hv, String.ofList_toList, List.append_assoc]
      rfl
  | @param b q m ps cs hname hends hrest ih =>
      obtain ⟨n, rfl⟩ := Nat.exists_eq_succ_of_ne_zero (Nat.ne_of_gt (Nat.zero_lt_of_lt hn))
      have hpart : partAt s nested (modeOf b) first g p '$' (m ++ cs) = pure (g.addPart (.param p (ParamExp.ofName (String.ofList m))), cs) := by
        simp [partAt, dollar_name hname hends, Text.backquote]
      obtain ⟨ps', hsame, hread⟩ := ih (s := s) hnested (n := n) (by simp at hn; omega) false (g.addPart (.param p (ParamExp.ofName (String.ofList m))))
        (.inl (g.lit_addPart _)) (p.advance (between ('$' :: (m ++ cs)) cs))
      refine ⟨.param p (ParamExp.ofName (String.ofList m)) :: ps', by rw [describeParts, describeParts, hsame]; rfl, ?_⟩
      rw [partsFrom, hpart, pure_bind]
      dsimp only
      rw [hread, Gathered.finish_addPart, List.append_assoc]
      rfl
  | @single q v ps cs hplain hrest ih =>
      obtain ⟨n, rfl⟩ := Nat.exists_eq_succ_of_ne_zero (Nat.ne_of_gt (Nat.zero_lt_of_lt hn))
      have hinside : inside (Construct.closeSingle 0 (v.toList ++ '\'' :: cs)) (v.toList ++ '\'' :: cs) 1 = (v.toList, cs) :=
        inside_ok_append (Construct.closeSingle_plain hplain 0 cs)
      have hpart : partAt s nested (modeOf false) first g p '\'' (v.toList ++ '\'' :: cs) = pure (g.addPart (.single p false v), cs) := by
        simp [partAt, modeOf, Mode.quotes, hinside]
      obtain ⟨ps', hsame, hread⟩ := ih (s := s) hnested (n := n) (by simp at hn; omega) false (g.addPart (.single p false v))
        (.inl (g.lit_addPart _)) (p.advance (between ('\'' :: (v.toList ++ '\'' :: cs)) cs))
      refine ⟨.single p false v :: ps', by rw [describeParts, describeParts, hsame]; rfl, ?_⟩
      rw [partsFrom, hpart, pure_bind]
      dsimp only
      rw [hread, Gathered.finish_addPart, List.append_assoc]
      rfl
  | @double q qs ps ds cs hinner hrest ihq ih =>
      obtain ⟨n, rfl⟩ := Nat.exists_eq_succ_of_ne_zero (Nat.ne_of_gt (Nat.zero_lt_of_lt hn))
      obtain ⟨s', inner, hparts⟩ := hnested rfl
      obtain ⟨qs', hinside', hquoted⟩ := ihq (s := s') (by simp) (Nat.lt_succ_self _) true {} (.inl rfl) (p.step '"')
      have hinside : inside (Construct.closeDouble s.dialect (ds ++ '"' :: cs)) (ds ++ '"' :: cs) 1 = (ds, cs) :=
        inside_ok_append (Construct.closeDouble_of_passes (hinner.passes rfl _) cs)
      have hread' : nested.parts .double (p.step '"') ds = pure qs' := by
        rw [hparts]
        exact hquoted
      have hpart : partAt s nested (modeOf false) first g p '"' (ds ++ '"' :: cs) = pure (g.addPart (.double p false qs'), cs) := by
        simp [partAt, modeOf, Mode.quotes, hinside, hread']
      obtain ⟨ps', hsame, hread⟩ := ih (s := s) hnested (n := n) (by simp at hn; omega) false (g.addPart (.double p false qs'))
        (.inl (g.lit_addPart _)) (p.advance (between ('"' :: (ds ++ '"' :: cs)) cs))
      refine ⟨.double p false qs' :: ps', by rw [describeParts, describeParts, hsame, WordPart.describe, WordPart.describe, hinside'], ?_⟩
      rw [partsFrom, hpart, pure_bind]
      dsimp only
      rw [hread, Gathered.finish_addPart, List.append_assoc]
      rfl

end Read
end Script
end ShellScript

import ShellScript.Program.OfScript
import ShellScript.Proofs.Token.Closing

-- A number or a name, with or without a sign, is an expression: between double parentheses it is read as one operand.
namespace ShellScript
namespace Construct

-- The characters that begin a construct or count in an arithmetic text.
def arithMarks : List Char := ['\\', Text.backquote, '$', '\'', '"', '(', ')']

theorem close_arith_cons {d : Dialect} {c : Char} (hc : c ∉ arithMarks) (n k left : Nat) (prev : Char) (cs : List Char) :
    close d (n + 1) (.arith k) left prev (c :: cs) = close d n (.arith k) left c cs := by
  simp only [arithMarks, List.mem_cons, List.not_mem_nil, not_or, or_false] at hc
  simp [close, turn, Frame.step, hc]

-- Text without marks is passed at once.
theorem closeArith_plain (d : Dialect) {cs : List Char} (h : ∀ c ∈ cs, c ∉ arithMarks) :
    closeArith d ('(' :: '(' :: (cs ++ [')', ')'])) = .ok [] := by
  have hpass (n left : Nat) (prev : Char) (rest : List Char) :
      ∃ prev', close d (n + cs.length) (.arith 2) left prev (cs ++ rest) = close d n (.arith 2) left prev' rest := by
    induction cs generalizing prev with
    | nil => exact ⟨prev, rfl⟩
    | cons c cs ih =>
        obtain ⟨hc, hcs⟩ := List.forall_mem_cons.mp h
        obtain ⟨prev', ih⟩ := ih hcs c
        exact ⟨prev', (close_arith_cons hc _ _ _ _ _).trans ih⟩
  obtain ⟨prev, hprev⟩ := hpass (cs.length + 7) (cs.length + 4) '(' [')', ')']
  have hsteps : 2 * ('(' :: '(' :: (cs ++ [')', ')'])).length + 1 = cs.length + 7 + cs.length + 1 + 1 := by
    simp only [List.length_cons, List.length_append, List.length_nil]
    omega
  have hleft : ('(' :: '(' :: (cs ++ [')', ')'])).length = cs.length + 4 := by simp
  rw [closeArith, hsteps, close_lparen, close_lparen, hleft, hprev, close]
  rfl

end Construct

namespace Token

-- The tokens of an arithmetic command.
theorem scanText_arith {d : Dialect} (hd : d.supports .arithCommand = true) (file : String) (p : Position)
    {cs : List Char} (h : ∀ c ∈ cs, c ∉ Construct.arithMarks) :
    ∃ q, scanText d file p ('(' :: '(' :: (cs ++ [')', ')'])) =
      ([{ kind := .arith, text := String.ofList cs, pos := p }, { kind := .eof, text := "", pos := q }], []) := by
  let start : Scanner := { dialect := d, file, rest := '(' :: '(' :: (cs ++ [')', ')']), pos := p }
  let token : Token := { kind := .arith, text := String.ofList cs, pos := p }
  have hlength : start.rest.length = cs.length + 4 := by simp [start]
  have hfirst : start.next? (cs.length + 5) = some (Scanner.emit (start.moveTo [], token)) := by
    have hblanks : start.moveBy (Scanner.blanks start.rest) = start := rfl
    have hclose : (Construct.closeArith d ('(' :: '(' :: (cs ++ [')', ')']))).toOption = some [] :=
      congrArg Except.toOption (Construct.closeArith_plain d h)
    rw [Scanner.next?, hblanks]
    simp [start, hd, hclose, token]
  have hlast (s : Scanner) (n : Nat) (hs : s.rest = []) : Scanner.run (n + 1) s = s.finish := by
    have hnone : s.next? (n + 1) = none := by
      have hmoved : (s.moveBy (Scanner.blanks s.rest)).rest = [] := by simp [Scanner.moveBy, hs]
      rw [Scanner.next?, hmoved]
    rw [Scanner.run, hnone]
  have hrun : Scanner.run (start.rest.length + 1) start = (Scanner.emit (start.moveTo [], token)).finish := by
    rw [hlength, Scanner.run, hfirst]
    exact hlast _ _ rfl
  exact ⟨_, congrArg (fun s : Scanner => (s.tokens.toList, s.diags.toList)) hrun⟩

end Token

namespace Script
namespace Read

variable {s : Setting} {parts : PartsReader} {p : Position} {cs : List Char} {x : ArithExpr}

theorem cur_bind {α : Type} (f : Token → Parse α) (c : Cursor) :
    ((liftM cur : Parse Token) >>= f) c = f (c.toks.headD endOfText) c := rfl

theorem bind_of_read {α β : Type} {m : Scanning α} {c c' : Cursor} {a : α} (h : m c = (a, c')) (f : α → Scanning β) :
    (m >>= f) c = f a c' := by
  change f (m c).1 (m c).2 = _
  rw [h]

theorem bind_some {α β : Type} {m : Parse α} {c c' : Cursor} {a : α} (h : m c = (some a, c')) (f : α → Parse β) :
    (m >>= f) c = f a c' := by
  have hrun := bind_of_read (m := m.run) h fun r => r.elim (pure none) fun a => (f a).run
  exact (congrFun (OptionT.run_bind f) c).trans hrun

-- A cursor at an arithmetic command with which the text ends.
def atArith (text : String) (p q : Position) : Cursor :=
  { toks := [{ kind := .arith, text, pos := p }, { kind := .eof, text := "", pos := q }] }

def atEnd (q : Position) : Cursor := { toks := [{ kind := .eof, text := "", pos := q }] }

theorem block_arith {text : String} {q : Position}
    (h : arithText s parts (arithStart { kind := .arith, text, pos := p }) text.toList = pure (some x)) (n : Nat) :
    ((inner s parts (n + 1)).block fun _ => false).run (atArith text p q) =
      ({ start := p, items := [.arith p x] }, atEnd q) := by
  have harith : arithCommand s parts (atArith text p q) = (some (.arith p x), atEnd q) := by
    unfold arithCommand
    rw [cur_bind]
    dsimp only [atArith, List.headD_cons]
    rw [h]
    rfl
  have hcommand : command s parts (inner s parts n) (atArith text p q) = (some (.arith p x), atEnd q) :=
    (bind_some harith (withRedirects s parts)).trans rfl
  have hpipeline : pipeline (command s parts (inner s parts n)) (atArith text p q) = (some (.arith p x), atEnd q) :=
    (bind_some hcommand _).trans rfl
  have handOr : andOr (command s parts (inner s parts n)) (atArith text p q) = (some (.arith p x), atEnd q) :=
    (bind_some hpipeline _).trans rfl
  have hitem : item? s (command s parts (inner s parts n)) (fun _ => false) (atArith text p q) =
      (some (some (.arith p x)), atEnd q) := by
    unfold item?
    refine (bind_of_read (m := skipNewlines) rfl _).trans ?_
    refine (bind_of_read (m := cur) rfl _).trans ?_
    exact (bind_of_read (m := (andOr _).run) handOr _).trans rfl
  change block s (command s parts (inner s parts n)) (fun _ => false) (atArith text p q) = _
  unfold block
  have hitems : listFor (item? s (command s parts (inner s parts n)) fun _ => false) 3 (atArith text p q) =
      ([some (.arith p x)], atEnd q) := (bind_of_read hitem _).trans rfl
  refine (bind_of_read (m := cur) rfl _).trans ?_
  refine (bind_of_read (m := left) rfl _).trans ?_
  exact (bind_of_read hitems _).trans rfl

theorem textAt_arith (hd : s.dialect.supports .arithCommand = true)
    (hcs : ∀ c ∈ cs, c ∉ Construct.arithMarks)
    (h : arithText s parts (arithStart { kind := .arith, text := String.ofList cs, pos := p }) cs = pure (some x)) :
    textAt s parts p ('(' :: '(' :: (cs ++ [')', ')'])) = ({ start := p, items := [.arith p x] }, []) := by
  obtain ⟨q, hq⟩ := Token.scanText_arith hd s.file p hcs
  have hblock : ((inner s parts 3).block fun _ => false).run (atArith (String.ofList cs) p q) = _ :=
    block_arith ((String.toList_ofList (l := cs)).symm ▸ h) 2
  have hsettle : settle [] = [] := by simp [settle, Text.compact]
  have hsignificant : significant 0 (atArith (String.ofList cs) p q).toks = (0, (atArith (String.ofList cs) p q).toks) := rfl
  rw [atArith] at hsignificant hblock
  rw [textAt, hq]
  dsimp only
  rw [hsignificant]
  dsimp only
  rw [List.length_cons, List.length_singleton, hblock]
  exact congrArg (Prod.mk _) hsettle

-- A character that neither ends an operand nor begins a construct.
def isOperandChar (c : Char) : Bool := Text.isNameChar c || c == '#' || c == '@' || c == '.'

theorem beq_of_isOperandChar {c d : Char} (hc : isOperandChar c = true) (hd : isOperandChar d = false) :
    (c == d) = false := by
  rw [beq_eq_false_iff_ne]
  rintro rfl
  rw [hc] at hd
  cases hd

theorem arithOpAt_of_isOperandChar {c : Char} (hc : isOperandChar c = true) (cs : List Char) :
    arithOpAt (c :: cs) = none := by
  have hheads (op : ArithOp) : op.text.toList.head?.any (fun d => !isOperandChar d) = true := by
    cases op <;> decide
  refine List.find?_eq_none.mpr fun op _ => ?_
  have hhead := hheads op
  cases htext : op.text.toList with
  | nil => simp [htext] at hhead
  | cons d ds =>
      have hd : isOperandChar d = false := by simpa [htext] using hhead
      have hne : d ≠ c := fun h => beq_eq_false_iff_ne.mp (beq_of_isOperandChar hc hd) h.symm
      simp [hne]

theorem passOperand_of_isOperandChar {c : Char} (hc : isOperandChar c = true) (d : Dialect) (cs : List Char) :
    passOperand d c cs = some cs := by
  have hne (x : Char) (hx : isOperandChar x = false) : (c == x) = false := beq_of_isOperandChar hc hx
  simp only [passOperand, hne '$' (by decide), hne Text.backquote (by decide), hne '"' (by decide),
    hne '\'' (by decide), hne '\\' (by decide), hne '[' (by decide), Bool.or_self, Bool.false_eq_true, if_false]
  exact if_pos (by simpa [isOperandChar] using hc)

theorem operandRest_operand (d : Dialect) (hcs : ∀ c ∈ cs, isOperandChar c = true) {n : Nat} (hn : cs.length < n) :
    operandRest d n cs = [] := by
  induction cs generalizing n with
  | nil => cases n <;> rfl
  | cons c cs ih =>
      obtain ⟨hc, hcs⟩ := List.forall_mem_cons.mp hcs
      cases n with
      | zero => exact absurd hn (Nat.not_lt_zero _)
      | succ n =>
          rw [operandRest, passOperand_of_isOperandChar hc]
          exact ih hcs (Nat.lt_of_succ_lt_succ hn)

-- The characters of an operand are one piece of literal text.
theorem partsFrom_operand {nested : Nested} (hcs : ∀ c ∈ cs, isOperandChar c = true) (first : Bool) (g : Gathered)
    (p : Position) :
    partsFrom s nested .arith (cs.length + 1) first g p cs =
      pure (if cs = [] then g else g.addLit p cs).finish := by
  induction cs generalizing first g p with
  | nil => rfl
  | cons c cs ih =>
      obtain ⟨hc, hcs⟩ := List.forall_mem_cons.mp hcs
      have hne (x : Char) (hx : isOperandChar x = false) : (c == x) = false := beq_of_isOperandChar hc hx
      have hpart : partAt s nested .arith first g p c cs = pure (g.addLit p [c], cs) := by
        simp [partAt, hne '$' (by decide), hne Text.backquote (by decide), hne '"' (by decide),
          hne '\'' (by decide), hne '\\' (by decide), hne '\x7b' (by decide), hne '<' (by decide), hne '>' (by decide)]
      rw [List.length_cons, partsFrom, hpart, pure_bind]
      dsimp only
      rw [ih hcs]
      cases cs with
      | nil => rfl
      | cons c' cs => simp [Gathered.addLit]

theorem parts_operand {nested : Nested} (hcs : ∀ c ∈ cs, isOperandChar c = true) (hne : cs ≠ []) (p : Position) :
    Read.parts s nested .arith p cs = pure [.lit p (String.ofList cs)] := by
  rw [Read.parts, partsFrom_operand hcs, if_neg hne]
  simp [Gathered.addLit, Gathered.finish, Gathered.flush, hne]

theorem arithToken_operand {nested : Nested} {c : Char} (hcs : ∀ d ∈ c :: cs, isOperandChar d = true) (p : Position) :
    arithToken s (Read.parts s nested) p c cs =
      pure (some (.operand ⟨[.lit p (String.ofList (c :: cs))]⟩ p), []) := by
  have hc := (List.forall_mem_cons.mp hcs).1
  have hne (x : Char) (hx : isOperandChar x = false) : (c == x) = false := beq_of_isOperandChar hc hx
  have hblank : Text.isBlank c = false := by
    simp [Text.isBlank, hne ' ' (by decide), hne '\t' (by decide), hne '\r' (by decide)]
  have hrest : operandRest s.dialect (cs.length + 2) (c :: cs) = [] := operandRest_operand s.dialect hcs (by simp)
  have htaken : between (c :: cs) [] = c :: cs := by simp [between]
  unfold arithToken
  simp only [hblank, hne '\n' (by decide), hne '\\' (by decide), hne '(' (by decide), hne ')' (by decide),
    arithOpAt_of_isOperandChar hc, hrest, htaken, parts_operand hcs (List.cons_ne_nil c cs), Bool.or_self,
    Bool.false_and, Bool.false_eq_true, if_false, List.isEmpty_cons, pure_bind]

theorem arithTokens_operand {nested : Nested} (hcs : ∀ c ∈ cs, isOperandChar c = true) (hne : cs ≠ []) (n : Nat)
    (p : Position) :
    arithTokens s (Read.parts s nested) (n + 1) p cs = pure [.operand ⟨[.lit p (String.ofList cs)]⟩ p] := by
  cases cs with
  | nil => exact absurd rfl hne
  | cons c cs =>
      have hend (p : Position) : arithTokens s (Read.parts s nested) n p [] = pure [] := by cases n <;> rfl
      rw [arithTokens, arithToken_operand hcs, pure_bind]
      dsimp only
      rw [hend]
      rfl

-- The operator of a sign.
def signOp? : Char → Option ArithOp
  | '-' => some .sub
  | '+' => some .add
  | _ => none

theorem signOp?_eq {c : Char} {op : ArithOp} (h : signOp? c = some op) : c = '-' ∧ op = .sub ∨ c = '+' ∧ op = .add := by
  unfold signOp? at h
  split at h <;> cases h
  · exact .inl ⟨rfl, rfl⟩
  · exact .inr ⟨rfl, rfl⟩

-- Before an operand a sign is an operator by itself.
theorem arithOpAt_sign {c d : Char} {op : ArithOp} (hop : signOp? c = some op) (hd : isOperandChar d = true)
    (cs : List Char) : arithOpAt (c :: d :: cs) = some op := by
  have hne (x : Char) (hx : isOperandChar x = false) : x ≠ d := by
    have := beq_of_isOperandChar hd hx
    exact fun h => beq_eq_false_iff_ne.mp this h.symm
  obtain ⟨rfl, rfl⟩ | ⟨rfl, rfl⟩ := signOp?_eq hop
  · simp [arithOpAt, ArithOp.longestFirst, ArithOp.text, hne '-' (by decide), hne '=' (by decide)]
  · simp [arithOpAt, ArithOp.longestFirst, ArithOp.text, hne '+' (by decide), hne '=' (by decide)]

theorem arithTokens_sign {nested : Nested} {c : Char} {op : ArithOp} (hop : signOp? c = some op)
    (hcs : ∀ c ∈ cs, isOperandChar c = true) (hne : cs ≠ []) (n : Nat) (p : Position) :
    arithTokens s (Read.parts s nested) (n + 2) p (c :: cs) =
      pure [.op op p, .operand ⟨[.lit (p.step c) (String.ofList cs)]⟩ (p.step c)] := by
  have htoken : arithToken s (Read.parts s nested) p c cs = pure (some (.op op p), cs) := by
    cases cs with
    | nil => exact absurd rfl hne
    | cons d cs =>
        have hop' := arithOpAt_sign hop (List.forall_mem_cons.mp hcs).1 cs
        unfold arithToken
        rw [hop']
        obtain ⟨rfl, rfl⟩ | ⟨rfl, rfl⟩ := signOp?_eq hop <;> rfl
  have hstep : p.advance (between (c :: cs) cs) = p.step c := by simp [between, Position.advance]
  rw [arithTokens, htoken, pure_bind]
  dsimp only
  rw [hstep, arithTokens_operand hcs hne]
  rfl

theorem arithText_operand {nested : Nested} (hcs : ∀ c ∈ cs, isOperandChar c = true) (hne : cs ≠ []) (p : Position) :
    arithText s (Read.parts s nested) p cs = pure (some (.word ⟨[.lit p (String.ofList cs)]⟩)) := by
  rw [arithText, arithTokens_operand hcs hne, pure_bind]
  rfl

theorem arithText_sign {nested : Nested} {c : Char} {op : ArithOp} (hop : signOp? c = some op)
    (hcs : ∀ c ∈ cs, isOperandChar c = true) (hne : cs ≠ []) (p : Position) :
    arithText s (Read.parts s nested) p (c :: cs) =
      pure (some (.unary p op false (.word ⟨[.lit (p.step c) (String.ofList cs)]⟩))) := by
  rw [arithText, List.length_cons, arithTokens_sign hop hcs hne, pure_bind]
  obtain ⟨-, rfl⟩ | ⟨-, rfl⟩ := signOp?_eq hop <;> rfl

end Read

theorem readAs_arith {d : Dialect} (hd : d.supports .arithCommand = true) (name : String) {cs : List Char}
    {x : Position → ArithExpr} (hcs : ∀ c ∈ cs, c ∉ Construct.arithMarks)
    (hread : ∀ s nested p, Read.arithText s (Read.parts s nested) p cs = pure (some (x p))) :
    readAs d name ("((" ++ String.ofList cs ++ "))") =
      { name, dialect := d, body := { start := .start, items := [.arith .start (x ⟨2, 1, 3⟩)] },
        header := Header.ofSource ("((" ++ String.ofList cs ++ "))"), found := [] } := by
  have hchars : ("((" ++ String.ofList cs ++ "))").toList = '(' :: '(' :: (cs ++ [')', ')']) := by simp
  unfold readAs
  dsimp only
  rw [hchars, Read.textAt_arith hd hcs (hread _ _ _)]
  rfl

end Script

namespace Program

open Script (ArithExpr ArithOp)
open Script.Read (isOperandChar signOp?)

-- What a text between double parentheses is compiled to, given its one expression.
theorem compile_arith {cs : List Char} {x : Position → ArithExpr} {a : Arith} (hcs : ∀ c ∈ cs, c ∉ Construct.arithMarks)
    (hread : ∀ s nested p, Script.Read.arithText s (Script.Read.parts s nested) p cs = pure (some (x p)))
    (hlower : ∀ u index p, lowerArith u index (x p) = pure a) :
    compile "arith" ("((" ++ String.ofList cs ++ "))") = .ok ⟨"arith", [.arith a]⟩ := by
  have hfile : readCode "arith" ("((" ++ String.ofList cs ++ "))") = _ := Script.readAs_arith (by decide) "arith" hcs hread
  have hlowered (u : Plan) (n : Nat) :
      lowerScript u n { start := .start, items := [.arith .start (x ⟨2, 1, 3⟩)] } = (⟨u.file, [.arith a]⟩, []) := by
    simp only [lowerScript, lowerBlock, lowerCommands, lowerCommand, hlower]
    rfl
  rw [compile, hfile]
  simp only [hlowered]
  rfl

variable {cs : List Char} {a : Arith}

theorem not_mem_arithMarks {c : Char} (hc : isOperandChar c = true) : c ∉ Construct.arithMarks := by
  have hmarks : Construct.arithMarks.all (!isOperandChar ·) = true := by decide
  intro hmem
  have hnot := List.all_eq_true.mp hmarks c hmem
  rw [hc] at hnot
  cases hnot

theorem lit?_operand (hcs : ∀ c ∈ cs, isOperandChar c = true) (p : Position) :
    Script.Word.lit? ⟨[.lit p (String.ofList cs)]⟩ = some (String.ofList cs) := by
  refine if_neg ?_
  rw [String.toList_ofList, Bool.not_eq_true, List.any_eq_false]
  intro c hc
  have hne (x : Char) (hx : isOperandChar x = false) : (c == x) = false :=
    Script.Read.beq_of_isOperandChar (hcs c hc) hx
  simp [hne '\\' (by decide), hne '*' (by decide), hne '?' (by decide), hne '[' (by decide)]

theorem arithLit?_number {c : Char} (hc : Text.isDigit c = true) (hcs : ∀ d ∈ c :: cs, isOperandChar d = true)
    (p : Position) : arithLit? ⟨[.lit p (String.ofList (c :: cs))]⟩ = some (.num (String.ofList (c :: cs))) := by
  unfold arithLit?
  rw [lit?_operand hcs]
  dsimp only
  rw [String.toList_ofList]
  exact if_pos hc

theorem isDigit_of_isNameStart {c : Char} (h : Text.isNameStart c = true) : Text.isDigit c = false := by
  simp only [Text.isNameStart, Text.isLower, Text.isUpper, Bool.or_eq_true, Bool.and_eq_true, decide_eq_true_eq,
    beq_iff_eq] at h
  have hlow (a : Char) (ha : '9' < a) (hle : a ≤ c) : Text.isDigit c = false := by
    have hgt : ¬c ≤ '9' := fun h => Char.not_le.mpr ha (Char.le_trans hle h)
    rw [Text.isDigit, decide_eq_false hgt, Bool.and_false]
  rcases h with (rfl | h) | h
  · decide
  · exact hlow 'a' (by decide) h.1
  · exact hlow 'A' (by decide) h.1

theorem exists_of_isName {t : String} (ht : Text.isName t = true) :
    ∃ c cs, t = String.ofList (c :: cs) ∧ Text.isDigit c = false ∧ ∀ d ∈ c :: cs, isOperandChar d = true := by
  have ht' := ht
  unfold Text.isName at ht'
  split at ht'
  · cases ht'
  · next c cs hlist =>
    obtain ⟨hc, hcs⟩ := Bool.and_eq_true_iff.mp ht'
    refine ⟨c, cs, ?_, isDigit_of_isNameStart hc, List.forall_mem_cons.mpr ⟨?_, fun d hd => ?_⟩⟩
    · rw [← hlist, String.ofList_toList]
    · simp [isOperandChar, Text.isNameChar, hc]
    · simp [isOperandChar, List.all_eq_true.mp hcs d hd]

theorem arithLit?_name {t : String} (ht : Text.isName t = true) (p : Position) :
    arithLit? ⟨[.lit p t]⟩ = some (.var t none) := by
  obtain ⟨c, cs, rfl, hdigit, hcs⟩ := exists_of_isName ht
  unfold arithLit?
  rw [lit?_operand hcs]
  dsimp only
  rw [String.toList_ofList]
  dsimp only
  rw [hdigit, ht]
  rfl

theorem lowerArith_lit {t : String} (ha : ∀ p, arithLit? ⟨[.lit p t]⟩ = some a) (u : Plan) (index : IndexReader)
    (p : Position) : lowerArith u index (.word ⟨[.lit p t]⟩) = pure a := by
  simp only [lowerArith, ha]

theorem compile_operand (hcs : ∀ c ∈ cs, isOperandChar c = true) (hne : cs ≠ [])
    (ha : ∀ p, arithLit? ⟨[.lit p (String.ofList cs)]⟩ = some a) :
    compile "arith" ("((" ++ String.ofList cs ++ "))") = .ok ⟨"arith", [.arith a]⟩ :=
  compile_arith (x := fun p => .word ⟨[.lit p (String.ofList cs)]⟩) (fun c hc => not_mem_arithMarks (hcs c hc))
    (fun _ _ p => Script.Read.arithText_operand hcs hne p) fun u index p => lowerArith_lit ha u index p

theorem compile_name {t : String} (ht : Text.isName t = true) :
    compile "arith" ("((" ++ t ++ "))") = .ok ⟨"arith", [.arith (.var t none)]⟩ := by
  obtain ⟨c, cs, rfl, -, hcs⟩ := exists_of_isName ht
  exact compile_operand hcs (List.cons_ne_nil c cs) (arithLit?_name ht)

theorem compile_number {c : Char} (hc : Text.isDigit c = true) (hcs : ∀ d ∈ c :: cs, isOperandChar d = true) :
    compile "arith" ("((" ++ String.ofList (c :: cs) ++ "))") =
      .ok ⟨"arith", [.arith (.num (String.ofList (c :: cs)))]⟩ :=
  compile_operand hcs (List.cons_ne_nil c cs) (arithLit?_number hc hcs)

theorem compile_sign {s c : Char} {op : ArithOp} (hop : signOp? s = some op) (hc : Text.isDigit c = true)
    (hcs : ∀ d ∈ c :: cs, isOperandChar d = true) :
    compile "arith" ("((" ++ String.ofList (s :: c :: cs) ++ "))") =
      .ok ⟨"arith", [.arith (.unary op false (.num (String.ofList (c :: cs))))]⟩ := by
  refine compile_arith (x := fun p => .unary p op false (.word ⟨[.lit (p.step s) (String.ofList (c :: cs))]⟩)) ?_
    (fun _ _ p => Script.Read.arithText_sign hop hcs (List.cons_ne_nil c cs) p) fun u index p => ?_
  · have hs : s ∉ Construct.arithMarks := by obtain ⟨rfl, -⟩ | ⟨rfl, -⟩ := Script.Read.signOp?_eq hop <;> decide
    exact List.forall_mem_cons.mpr ⟨hs, fun c hc => not_mem_arithMarks (hcs c hc)⟩
  · rw [lowerArith, lowerArith_lit (arithLit?_number hc hcs)]
    rfl

end Program
end ShellScript

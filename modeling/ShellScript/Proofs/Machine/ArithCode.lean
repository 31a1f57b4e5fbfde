import ShellScript.Proofs.Machine.ArithShortCut
import ShellScript.Proofs.Program.SoleCommand

-- Arithmetic that is compiled from a text: the value of a variable, an operand of `let`, an index that is written out. The
-- text is put between two pairs of parentheses and read as a script, so it can close the parentheses by itself.
namespace ShellScript
namespace Program

-- The part of a text that is read: all of it, or what stands before two closing parentheses behind which nothing is said
-- and a comment hides the pair that the text is put between.
def ReadUpTo (text inside : List Char) : Prop :=
  text = inside ∨ ∃ tail, text = inside ++ ')' :: ')' :: tail ∧ Token.EndsHidden Token.Unsaid tail

-- A text without a comment is read as a whole.
theorem ReadUpTo.eq {text inside : List Char} (h : ReadUpTo text inside) (hplain : '#' ∉ text) : text = inside := by
  obtain rfl | ⟨tail, rfl, front, comment, rfl, -⟩ := h
  · rfl
  · simp at hplain

theorem not_unsaid_rparen : ¬Token.Unsaid [')'] := by
  intro h
  cases h with
  | idle h => cases h with
    | blank hblank => cases hblank
  | blank hblank => cases hblank

theorem readUpTo_of_append {text inside rest : List Char} (h : text ++ [')', ')'] = inside ++ ')' :: ')' :: rest)
    (hrest : Token.Unsaid rest) : ReadUpTo text inside := by
  have htwo : inside ++ ')' :: ')' :: rest = (inside ++ [')', ')']) ++ rest := by simp
  by_cases hlen : 2 ≤ rest.length
  · obtain ⟨tail, rfl⟩ : [')', ')'] <:+ rest :=
      List.suffix_of_suffix_length_le ⟨text, h⟩ ⟨inside ++ [')', ')'], htwo.symm⟩ hlen
    refine .inr ⟨tail, ?_, hrest.hides⟩
    have hcons : inside ++ ')' :: ')' :: (tail ++ [')', ')']) = (inside ++ ')' :: ')' :: tail) ++ [')', ')'] := by simp
    exact List.append_cancel_right (h.trans hcons)
  · cases rest with
    | nil => exact .inl (List.append_cancel_right h)
    | cons c rest =>
        obtain rfl : rest = [] := List.length_eq_zero_iff.mp (by simp only [List.length_cons] at hlen; omega)
        obtain rfl : c = ')' := by simpa [eq_comm] using congrArg List.getLast? h
        exact absurd hrest not_unsaid_rparen

-- The expression that a text is by itself, lowered.
def arithAlone (u : Plan) (index : IndexReader) (text : List Char) : Lowering (Option Arith) :=
  lowerOptArith u index (Script.Read.expression? ⟨.bash, u.file⟩ text)

theorem arithAlone_eq {u : Plan} {index : IndexReader} {text : List Char} {e : Script.ArithExpr}
    (h : Script.Read.expression? ⟨.bash, u.file⟩ text = some e) :
    arithAlone u index text = lowerOptArith u index (some e) := by
  rw [arithAlone, h]

theorem alone_of_items {file text : String} {p : Position} {e : Script.ArithExpr}
    (hsound : (Script.readAs .bash file ("((" ++ text ++ "))")).isFatal = false)
    (hitems : (Script.readAs .bash file ("((" ++ text ++ "))")).body.items = [.arith p e]) :
    ∃ inside, ReadUpTo text.toList inside ∧ Script.Read.expression? ⟨.bash, file⟩ inside = some e := by
  obtain ⟨inside, rest, htext, hrest, hexpr⟩ := Script.sole_arith rfl hsound hitems
  exact ⟨inside, readUpTo_of_append htext hrest, hexpr⟩

theorem alone_of_onlyExpr? {file text : String} {e : Script.ArithExpr}
    (h : onlyExpr? (Script.readAs .bash file ("((" ++ text ++ "))")) = some e) :
    ∃ inside, ReadUpTo text.toList inside ∧ Script.Read.expression? ⟨.bash, file⟩ inside = some e := by
  obtain ⟨hsound, p, hitems⟩ := reads_of_onlyExpr? h
  exact alone_of_items hsound hitems

-- Only an arithmetic command becomes one.
theorem items_of_arith {file : String} {body : Script.Block} {b : Block} {x : Arith} (h : BlockImage file body b)
    (hb : b.stmts = [.arith x]) : ∃ start p e, body = ⟨start, [.arith p e]⟩ := by
  cases h with
  | mk h =>
      obtain rfl := hb
      cases h with
      | cons hitem hnone =>
          cases hnone
          cases hitem
          exact ⟨_, _, _, rfl⟩

theorem lowerScript_arith {u : Plan} {depth : Nat} {start p : Position} {e : Script.ArithExpr} {x : Arith}
    (h : (lowerScript u depth ⟨start, [.arith p e]⟩).1.stmts = [.arith x]) :
    ∃ ds, (lowerArith u (indexAt u depth) e).run #[] = (x, ds) ∧
      (lowerScript u depth ⟨start, [.arith p e]⟩).2 = ds.toList := by
  unfold lowerScript at h ⊢
  rw [lowerBlock, lowerCommands, lowerCommand, lowerCommands] at h ⊢
  cases hrun : (lowerArith u (indexAt u depth) e).run #[] with
  | mk y ds =>
      simp only [bind_assoc, pure_bind, StateT.run_bind, StateT.run_pure, hrun] at h ⊢
      cases h
      exact ⟨ds, rfl, rfl⟩

-- How deep the indices of a text are read: it is the length of the script that the text is put in.
abbrev codeDepth (text : String) : Nat := ("((" ++ text ++ "))").length + 1

theorem alone_of_compile {text : String} {b : Block} {x : Arith} (h : compile "arith" ("((" ++ text ++ "))") = .ok b)
    (hb : b.stmts = [.arith x]) :
    ∃ inside ds, ReadUpTo text.toList inside ∧
      (arithAlone { file := "arith" } (indexAt { file := "arith" } (codeDepth text)) inside).run #[] = (some x, ds) ∧
      Diagnostic.anyFatal ds.toList = false := by
  have hcode : readCode "arith" ("((" ++ text ++ "))") = Script.readAs .bash "arith" ("((" ++ text ++ "))") := rfl
  unfold compile at h
  rw [hcode] at h
  generalize hfile : Script.readAs .bash "arith" ("((" ++ text ++ "))") = f at h
  dsimp only at h
  split at h
  · cases h
  rename_i hsound
  split at h
  · cases h
  rename_i hlowered
  obtain rfl := Except.ok.inj h
  have hbare : Plan.Bare { file := "arith" } := ⟨fun _ => rfl, fun _ => rfl, fun _ => rfl⟩
  obtain ⟨start, p, e, hbody⟩ := items_of_arith (blockImage_lowerScript hbare _ _ (by simpa using hlowered)) hb
  obtain ⟨inside, hinside, hexpr⟩ := alone_of_items
    (show (Script.readAs .bash "arith" ("((" ++ text ++ "))")).isFatal = false by simpa [hfile] using hsound)
    (congrArg Script.Block.items ((congrArg Script.File.body hfile).trans hbody))
  rw [hbody] at hb hlowered
  obtain ⟨ds, hrun, hds⟩ := lowerScript_arith hb
  rw [hds] at hlowered
  refine ⟨inside, ds, hinside, ?_, by simpa using hlowered⟩
  rw [arithAlone_eq hexpr, lowerOptArith, StateT.run_bind, hrun]
  rfl

theorem alone_of_indexAt {u : Plan} {n : Nat} {p : Position} {text : String} {x : Arith} {ds ds' : Array Diagnostic}
    (h : (indexAt u n p text).run ds = (some x, ds')) :
    ∃ inside, ReadUpTo text.toList inside ∧ (arithAlone u.unbound (indexAt u (n - 1)) inside).run ds = (some x, ds') := by
  cases n with
  | zero => cases h
  | succ n =>
      rw [indexAt] at h
      cases hread : onlyExpr? (Script.readAs .bash u.file ("((" ++ text ++ "))")) with
      | none =>
          rw [hread, lowerOptArith] at h
          cases h
      | some e =>
          obtain ⟨inside, hinside, hexpr⟩ := alone_of_onlyExpr? hread
          refine ⟨inside, hinside, ?_⟩
          rw [arithAlone_eq (u := u.unbound) hexpr, ← hread]
          exact h

theorem indexAt_number {c : Char} {cs : List Char} (hc : Text.isDigit c = true)
    (hcs : ∀ d ∈ c :: cs, Script.Read.isOperandChar d = true) (u : Plan) (n : Nat) (p : Position) :
    indexAt u (n + 1) p (String.ofList (c :: cs)) = pure (some (.num (String.ofList (c :: cs)))) := by
  have hread : onlyExpr? (Script.readAs .bash u.file ("((" ++ String.ofList (c :: cs) ++ "))")) =
      some (.word ⟨[.lit ⟨2, 1, 3⟩ (String.ofList (c :: cs))]⟩) := by
    rw [Script.readAs_arith (x := fun p => .word ⟨[.lit p (String.ofList (c :: cs))]⟩) rfl u.file
      (fun d hd => not_mem_arithMarks (hcs d hd)) fun _ _ p => Script.Read.arithText_operand hcs (List.cons_ne_nil c cs) p]
    rfl
  rw [indexAt, hread, lowerOptArith, lowerArith_lit (arithLit?_number hc hcs), pure_bind]

end Program

namespace Machine

open Program

theorem of_compileArith {E : Engine} {text : String} {s s' : State} {x : Arith} (h : compileArith E text s = .ok x s') :
    s' = s ∧ ∃ b, compile "arith" ("((" ++ text ++ "))") = .ok b ∧ b.stmts = [.arith x] := by
  unfold compileArith at h
  split at h
  · cases h
  cases hcompile : compile "arith" ("((" ++ text ++ "))") with
  | error e =>
      rw [hcompile] at h
      cases h
  | ok b =>
      rw [hcompile] at h
      dsimp only at h
      rcases hstmts : b.stmts with _ | ⟨st, _ | ⟨st', rest⟩⟩
      · rw [hstmts] at h
        cases h
      · rw [hstmts] at h
        cases st with
        | arith y =>
            cases h
            exact ⟨rfl, b, rfl, hstmts⟩
        | _ => cases h
      · rw [hstmts] at h
        cases st <;> cases h

-- A text that is accepted as arithmetic is an expression by itself, up to a pair of parentheses that it closes itself if a
-- comment hides the pair around it. What is behind the parentheses is blank, or a comment, or one separator: no command.
theorem arith_code_is_read_alone (E : Engine) (u : Plan) (text : String) :
    (∀ s s' x, compileArith E text s = .ok x s' →
      s' = s ∧ ∃ inside ds, ReadUpTo text.toList inside ∧
        (arithAlone { file := "arith" } (indexAt { file := "arith" } (codeDepth text)) inside).run #[] = (some x, ds) ∧
        Diagnostic.anyFatal ds.toList = false) ∧
    ∀ n p x ds ds', (indexAt u n p text).run ds = (some x, ds') → ∃ inside, ReadUpTo text.toList inside ∧
      (arithAlone u.unbound (indexAt u (n - 1)) inside).run ds = (some x, ds') := by
  refine ⟨fun s s' x h => ?_, fun n p x ds ds' h => alone_of_indexAt h⟩
  obtain ⟨rfl, b, hb, hstmts⟩ := of_compileArith h
  exact ⟨rfl, alone_of_compile hb hstmts⟩

-- The text `1` is read as a whole, as a value and as an index.
theorem number_is_read_alone :
    let E := engine { name := "", main := default } true 1 1
    let u : Plan := { file := "t" }
    compileArith E "1" {} = .ok (.num "1") {} ∧ (indexAt u 1 {} "1").run #[] = (some (.num "1"), #[]) ∧
      (∃ ds, (arithAlone { file := "arith" } (indexAt { file := "arith" } (codeDepth "1")) "1".toList).run #[] =
        (some (.num "1"), ds) ∧ Diagnostic.anyFatal ds.toList = false) ∧
      (arithAlone u (indexAt u 0) "1".toList).run #[] = (some (.num "1"), #[]) := by
  intro E u
  have hdigit : Text.isDigit '1' = true := by decide
  have hoperand : ∀ d ∈ ['1'], Script.Read.isOperandChar d = true := List.forall_mem_singleton.mpr (by decide)
  have hcompile : compileArith E "1" {} = .ok (.num "1") {} :=
    congrFun (compileArith_of_stmts rfl (compile_number hdigit hoperand) rfl) {}
  have hindex : (indexAt u 1 {} "1").run #[] = (some (.num "1"), #[]) :=
    congrArg (StateT.run · #[]) (indexAt_number hdigit hoperand u 0 {})
  obtain ⟨-, inside, ds, hread, hrun, hds⟩ := (arith_code_is_read_alone E u "1").1 {} {} _ hcompile
  obtain ⟨inside', hread', hrun'⟩ := (arith_code_is_read_alone E u "1").2 1 {} _ #[] #[] hindex
  rw [← hread.eq (by decide)] at hrun
  rw [← hread'.eq (by decide)] at hrun'
  exact ⟨hcompile, hindex, ⟨ds, hrun, hds⟩, hrun'⟩

-- The name of a variable that is compiled.
def compiledName? : Except CompileError Block → Option String
  | .ok ⟨_, [.arith (.var y none)]⟩ => some y
  | _ => none

theorem stmts_of_compiledName? {r : Except CompileError Block} {y : String} (h : compiledName? r = some y) :
    ∃ b, r = .ok b ∧ b.stmts = [.arith (.var y none)] := by
  unfold compiledName? at h
  split at h
  · cases h
    exact ⟨_, rfl, rfl⟩
  · cases h

-- The text `y)) #` closes the parentheses and hides those around it: it is compiled to `y`, and it is no expression.
theorem closed_parentheses_are_compiled :
    let E := engine { name := "", main := default } true 1 1
    compileArith E "y)) #" {} = .ok (.var "y" none) {} ∧ Script.Read.expression? ⟨.bash, "arith"⟩ "y)) #".toList = none := by
  intro E
  have hcompiled : compiledName? (compile "arith" ("((" ++ "y)) #" ++ "))")) = some "y" := by decide +kernel
  have hnone : (Script.Read.expression? ⟨.bash, "arith"⟩ "y)) #".toList).isNone = true := by decide +kernel
  obtain ⟨b, hb, hstmts⟩ := stmts_of_compiledName? hcompiled
  exact ⟨congrFun (compileArith_of_stmts rfl hb hstmts) {}, Option.isNone_iff_eq_none.mp hnone⟩

end Machine
end ShellScript

import ShellScript.Proofs.Script.FileReading

-- Reading a script comes to an end of its own, whatever the script. Each loop takes a token or ends, what is nested in a
-- text is shorter than the text, and no piece of a text reaches past its end.
namespace ShellScript
namespace Script
namespace Read

open Cursor (Ready)

attribute [local irreducible] textAt

-- A turn of a loop over tokens has taken a token when there is to be another turn.
def Advances {α : Type} (k : Nat) (turn : Scanning α) (again : α → Bool) : Prop :=
  ∀ c, EndsText c.toks → c.toks.length ≤ k → again (turn.run c).1 = true → (turn.run c).2.toks.length < c.toks.length

-- The loops of the readers of commands, at a depth that is large enough.
structure TakesTokens (s : Setting) (parts : PartsReader) (k : Nat) : Prop where
  list : ∀ stop, Advances k (item? s (command s parts (inner s parts k)) stop) Option.isSome
  recovery : Advances k skipped? Option.isSome
  cases : ∀ start, Advances k (caseItem? s parts (inner s parts k) start).run fun r => r.join.isSome
  simple : ∀ sp, Advances k (simpleTurn s parts (inner s parts k) sp).run (Option.any Sum.isLeft)
  array : ∀ start, Advances k (element? s parts start).run fun r => r.join.isSome

section Sameness

variable {s : Setting}

-- Nothing but the runs themselves is followed.
def bare (s : Setting) (size : Nat) : View := ⟨s, .sameness, size⟩

theorem exists_ready {c : Cursor} (h : EndsText c.toks) : ∃ size, c.Ready size := by
  have hbound : ∀ toks : List Token, ∃ size, ∀ t ∈ toks, t.text.toList.length ≤ size := by
    intro toks
    induction toks with
    | nil => exact ⟨0, List.forall_mem_nil _⟩
    | cons t toks ih =>
        obtain ⟨size, hsize⟩ := ih
        refine ⟨max t.text.toList.length size, List.forall_mem_cons.mpr ⟨Nat.le_max_left _ _, fun u hu => ?_⟩⟩
        exact Nat.le_trans (hsize u hu) (Nat.le_max_right _ _)
  obtain ⟨size, hsize⟩ := hbound c.toks
  exact ⟨size, h, hsize⟩

theorem agree_bare (parts : PartsReader) (size k : Nat) : PartsReader.Agree (bare s size) parts parts k :=
  fun _ _ _ _ => reads_of_eq rfl _

-- Then a path is told by its tokens.
theorem leads_bare {size n : Nat} {c₀ c : Cursor} {ts : List NodeTree} (hready : c.Ready size)
    (htaken : c.toks.length + n ≤ c₀.toks.length) : Leads (bare s size) n c₀ c ts :=
  ⟨hready, htaken, False.elim, fun h => h.elim⟩

-- A turn that has given something has taken a token.
theorem Turns.lt {α : Type} {v : View} {c₀ c : Cursor} {nodes : α → List NodeTree} {ended : Cursor → Prop} {r : Option α}
    (h : Turns v c₀ nodes ended r c) (hr : r.isSome = true) : c.toks.length < c₀.toks.length := by
  cases r with
  | none => cases hr
  | some a => exact Leads.lt h

theorem advances_of_turns {α : Type} {k : Nat} {turn : Parse (Option α)} {nodes : α → List NodeTree} {ended : Cursor → Prop}
    (h : ∀ size c, c.Ready size → c.toks.length ≤ k → Parses (bare s size) c turn turn c (Turns (bare s size) c nodes ended)) :
    Advances k turn.run fun r => r.join.isSome := by
  intro c hends hk hagain
  obtain ⟨size, hc⟩ := exists_ready hends
  have hturn := (h size c hc hk).2
  generalize turn.run.run c = r at hagain hturn
  obtain ⟨r, c'⟩ := r
  cases r with
  | none => cases hagain
  | some r => exact Turns.lt hturn hagain

theorem takesTokens (s : Setting) (parts : PartsReader) (k : Nat) : TakesTokens s parts k where
  list stop c hends hk hagain := by
    obtain ⟨size, hc⟩ := exists_ready hends
    have hcmd := reader_command (agree_bare (s := s) parts size size) (Nat.le_refl k) (Nat.le_refl k)
    exact (runs_item? stop hc (hcmd.mono hk)).2.lt hagain
  recovery c hends hk hagain := by
    obtain ⟨size, hc⟩ := exists_ready hends
    have hskip : Runs skipped? skipped? c fun r c' => r.isSome = true → c'.toks.length < c.toks.length := by
      refine .cur (.ite (fun _ => .pure nofun) fun hgo => .ite (fun _ => .next (.pure nofun)) fun _ => ?_)
      have hne : c.head.kind ≠ .eof := by simpa using hgo
      exact .ite (fun _ => .pure nofun) fun _ => .next (.pure fun _ => hc.passed.2.2 hne)
    exact hskip.2 hagain
  cases start := advances_of_turns (s := s) fun size c hc hk =>
    finds_caseItem? (agree_bare parts size size) start hc (inner_agree (agree_bare parts size size) hk hk)
  simple sp c hends hk hagain := by
    obtain ⟨size, hc⟩ := exists_ready hends
    -- the pieces before have taken a token of their own
    let c₀ : Cursor := { c with toks := c.head :: c.toks }
    have h : Leads (bare s size) 1 c₀ c sp.nodes := leads_bare hc (Nat.le_refl _)
    have hturn := (parses_simpleTurn (agree_bare parts size size) h nofun (inner_agree (agree_bare parts size size) hk hk)).2
    generalize hrun : (simpleTurn s parts (inner s parts k) sp).run.run c = r at hagain
    rw [show (simpleTurn (bare s size).setting parts (inner (bare s size).setting parts k) sp).run.run c = r from hrun] at hturn
    obtain ⟨r, c'⟩ := r
    cases r with
    | none => cases hagain
    | some r =>
        cases r with
        | inl sp =>
            have hnext : Leads (bare s size) 2 c₀ c' sp.nodes := hturn
            exact Nat.le_of_succ_le_succ hnext.taken
        | inr cmd => cases hagain
  array start := advances_of_turns (s := s) fun size c hc _ => finds_element? (agree_bare parts size size) start hc

-- A turn over arithmetic tokens.
def Combining {α : Type} (k : Nat) (turn : ArithReading α) (again : α → Bool) : Prop :=
  ∀ ts ds, ts.length ≤ k → again ((turn.run ts).run ds).1.1 = true → ((turn.run ts).run ds).1.2.length < ts.length

-- The loops of the readers of expressions, at a depth that is large enough.
structure CombinesTokens (s : Setting) (stop : Position) (k : Nat) : Prop where
  sign : Combining k sign? Option.isSome
  step : Combining k step? Option.isSome
  operator : ∀ least x, Combining k (arithTurn s stop (arithExpr s stop k) least x) Sum.isLeft

theorem combining_of_shrinks {α : Type} {k : Nat} {turn : ArithReading (Option α)}
    (h : ∀ ts, Combines (bare s 0) turn turn ts (fun r rest => rest.length + r.toList.length ≤ ts.length) fun _ => True) :
    Combining k turn Option.isSome := by
  intro ts ds _ hagain
  have hturn : ((turn.run ts).run ds).1.2.length + ((turn.run ts).run ds).1.1.toList.length ≤ ts.length := (h ts ds).2.1
  obtain ⟨a, ha⟩ := Option.isSome_iff_exists.mp hagain
  rw [ha] at hturn
  exact hturn

theorem combinesTokens (s : Setting) (stop : Position) (k : Nat) : CombinesTokens s stop k where
  sign := combining_of_shrinks (s := s) combines_sign?
  step := combining_of_shrinks (s := s) combines_step?
  operator least x ts ds hk hagain := by
    have hbelow : AgreeBelow (bare s 0) (arithExpr s stop k) (arithExpr s stop k) ts.length := fun l us hus =>
      combines_arithExpr stop k k l us (Nat.lt_of_lt_of_le hus hk) (Nat.lt_of_lt_of_le hus hk)
    exact ((@combines_arithTurn (bare s 0) stop _ _ ts least x hbelow) ds).2.1.2 hagain

-- No loop is cut short: more turns, or more depth, than the readers use change nothing.
structure BoundsSuffice (s : Setting) : Prop where
  texts : ∀ {n : Nat} {p : Position} {cs : List Char}, cs.length + 1 ≤ n →
    textAt s (parts s (nested s n)) p cs = textAt s (parts s (nested s (cs.length + 1))) p cs
  words : ∀ {n : Nat} {nested : Nested} {mode : Mode} {first : Bool} {g : Gathered} {p : Position} {cs : List Char},
    cs.length + 1 ≤ n → partsFrom s nested mode n first g p cs = partsFrom s nested mode (cs.length + 1) first g p cs
  commands : ∀ {n : Nat} {parts : PartsReader} {stop : Token → Bool} {c : Cursor}, EndsText c.toks →
    c.toks.length + 1 ≤ n → ((inner s parts n).block stop).run c = ((inner s parts (c.toks.length + 1)).block stop).run c
  list : ∀ {n k : Nat} {parts : PartsReader} {stop : Token → Bool} {c : Cursor}, EndsText c.toks → c.toks.length ≤ k →
    c.toks.length + 1 ≤ n → (listFor (item? s (command s parts (inner s parts k)) stop) n).run c =
      (listFor (item? s (command s parts (inner s parts k)) stop) (c.toks.length + 1)).run c
  simple : ∀ {n k : Nat} {parts : PartsReader} {c : Cursor}, EndsText c.toks → c.toks.length ≤ k → c.toks.length + 1 ≤ n →
    (simpleFor s parts (inner s parts k) n {}).run.run c = (simpleCommand s parts (inner s parts k)).run.run c
  tests : ∀ {n : Nat} {parts : PartsReader} {c : Cursor}, EndsText c.toks → c.toks.length + 1 ≤ n →
    (testOperand s parts n).run.run c = (testOperand s parts (c.toks.length + 1)).run.run c
  arithTokens : ∀ {n : Nat} {parts : PartsReader} {p : Position} {cs : List Char}, cs.length + 1 ≤ n →
    arithTokens s parts n p cs = arithTokens s parts (cs.length + 1) p cs
  arithExprs : ∀ {n least : Nat} {stop : Position} {ts : List ArithToken}, ts.length + 1 ≤ n →
    (arithExpr s stop n least).run ts = (arithExpr s stop (ts.length + 1) least).run ts
  operands : ∀ {n : Nat} {cs : List Char}, cs.length + 1 ≤ n →
    operandRest s.dialect n cs = operandRest s.dialect (cs.length + 1) cs
  separators : ∀ {n : Nat} {sep : Char} {cs : List Char}, cs.length + 1 ≤ n →
    splitTop s.dialect sep n [] cs = splitTop? s.dialect sep cs
  braces : ∀ {n : Nat} {cs : List Char}, cs.length + 1 ≤ n → braceList s.dialect n 0 [] [] cs = braceList? s.dialect cs

theorem Reads.eq {α : Type} {size : Nat} {m m' : Reading α} {U P : α → Prop} (h : Reads (bare s size) m m' U P) : m = m' :=
  funext fun ds => (h ds).1

theorem nested_agree_self (nested : Nested) (k : Nat) : Nested.Agree (bare s 0) nested nested k :=
  ⟨fun _ _ _ _ => reads_of_eq rfl _, fun _ _ _ => reads_of_eq rfl _⟩

theorem boundsSuffice (s : Setting) : BoundsSuffice s where
  texts {n p cs} hn := (textAt_agree (v := bare s cs.length) p (Nat.le_refl _)
    (parts_agree (Nat.le_of_lt hn) (Nat.le_succ _))).1
  words {n nested mode first g p cs} hn := Reads.eq (builds_partsFrom (v := bare s 0) mode (nested_agree_self nested cs.length)
    n (cs.length + 1) first g p cs (Nat.le_refl _) hn (Nat.lt_succ_self _))
  commands {n parts stop c} hends hn := by
    obtain ⟨size, hc⟩ := exists_ready hends
    exact ((inner_agree (agree_bare (s := s) parts size size) hn (Nat.le_refl _)).block stop c hc (Nat.lt_succ_self _)).1
  list {n k parts stop c} hends hk hn := by
    obtain ⟨size, hc⟩ := exists_ready hends
    have hcommand := reader_command (agree_bare (s := s) parts size size) (Nat.le_refl k) (Nat.le_refl k)
    exact (runs_listFor (fun c' hc' hle => runs_item? stop hc' (hcommand.mono (Nat.le_trans hle hk))) n _ c hc (Nat.le_refl _) hn
      (Nat.lt_succ_self _)).1
  simple {n k parts c} hends hk hn := by
    obtain ⟨size, hc⟩ := exists_ready hends
    have hparts := agree_bare (s := s) parts size size
    have h : Leads (bare s size) 0 c c ({} : SimpleParts).nodes := .start hc
    exact (parses_simpleFor hparts (inner_agree hparts hk hk) h (fun _ => rfl) (by omega) (by omega)).1
  tests {n parts c} hends hn := by
    obtain ⟨size, hc⟩ := exists_ready hends
    exact (finds_testOperand (agree_bare (s := s) parts size size) n _ c hc hn (Nat.lt_succ_self _)).1
  arithTokens {n parts p cs} hn := Reads.eq (builds_arithTokens (agree_bare (s := s) parts 0 cs.length) n _ p cs (Nat.le_refl _)
    hn (Nat.lt_succ_self _))
  arithExprs {n least stop ts} hn := Reads.eq (combines_arithExpr (v := bare s 0) stop n _ least ts hn (Nat.lt_succ_self _))
  operands hn := eq_of_bound (f := fun n => operandRest s.dialect n _) (fun _ hm => operandRest_bound hm) hn
  separators hn := eq_of_bound (f := fun n => splitTop s.dialect _ n _ _) (fun _ hm => splitTop_bound hm) hn
  braces hn := eq_of_bound (f := fun n => braceList s.dialect n _ _ _ _) (fun _ hm => braceList_bound hm) hn

end Sameness

-- What is nested in a text is read as it would be with any other readers that do the same on shorter texts.
structure ReadsShorter (s : Setting) : Prop where
  words : ∀ {nested nested' : Nested} {mode : Mode} {p : Position} {cs : List Char},
    (∀ mode p ds, ds.length < cs.length → nested.parts mode p ds = nested'.parts mode p ds) →
    (∀ p ds, ds.length < cs.length → nested.block p ds = nested'.block p ds) →
    parts s nested mode p cs = parts s nested' mode p cs
  texts : ∀ {parts parts' : PartsReader} {p : Position} {cs : List Char},
    (∀ mode p ds, ds.length ≤ cs.length → parts mode p ds = parts' mode p ds) → textAt s parts p cs = textAt s parts' p cs

theorem readsShorter (s : Setting) : ReadsShorter s where
  words {nested nested' mode p cs} hparts hblock := by
    have hnested : Nested.Agree (bare s 0) nested nested' cs.length :=
      ⟨fun mode p ds hlt => hparts mode p ds hlt ▸ reads_of_eq rfl _, fun p ds hlt => hblock p ds hlt ▸ reads_of_eq rfl _⟩
    exact Reads.eq (builds_parts hnested mode p cs (Nat.le_refl _))
  texts {parts parts' p cs} hparts :=
    (textAt_agree (v := bare s cs.length) p (Nat.le_refl _) fun mode p ds hle => hparts mode p ds hle ▸ reads_of_eq rfl _).1

open Construct (Close closeSingle closeAnsi closeDouble closeBackquote closeParens closeArith closeExpansion)

-- The constructs whose insides are read: how they are closed, the text after what opens them, and the closing delimiter.
inductive Cut (d : Dialect) : Close → List Char → List Char → Prop where
  | single (cs : List Char) : Cut d (closeSingle 0 cs) cs ['\'']
  | ansi (cs : List Char) : Cut d (closeAnsi 0 cs) cs ['\'']
  | double (cs : List Char) : Cut d (closeDouble d cs) cs ['"']
  | backquote (cs : List Char) : Cut d (closeBackquote 0 cs) cs [Text.backquote]
  | parens (cs : List Char) : Cut d (closeParens d ('(' :: cs)) cs [')']
  | param (cs : List Char) : Cut d (closeExpansion d false ('\x7b' :: cs)) cs ['\x7d']

theorem Cut.closes {d : Dialect} {close : Close} {cs stop : List Char} (h : Cut d close cs stop) : Closes close cs stop := by
  cases h with
  | single => exact closes_single 0 cs
  | ansi => exact closes_ansi 0 cs
  | double => exact closes_double d cs
  | backquote => exact closes_backquote 0 cs
  | parens => exact closes_parens d cs
  | param => exact closes_param d cs

-- Pieces of a text with what stands between them make up the text, and what is still to be read is an end of it.
structure CutsFit (s : Setting) : Prop where
  closed : ∀ {close : Close} {cs stop rest : List Char}, Cut s.dialect close cs stop → close = .ok rest →
    (inside close cs stop.length).1 ++ (stop ++ rest) = cs ∧ (inside close cs stop.length).2 = rest
  open_ : ∀ {close : Close} {cs stop : List Char} {e : Construct.Unclosed}, Cut s.dialect close cs stop → close = .error e →
    inside close cs stop.length = (cs, [])
  arith : ∀ {cs rest : List Char}, closeArith s.dialect ('(' :: '(' :: cs) = .ok rest →
    cs.take (cs.length - rest.length - 2) ++ ([')', ')'] ++ rest) = cs
  separator : ∀ {sep : Char} {cs a b : List Char}, splitTop? s.dialect sep cs = some (a, b) → a ++ sep :: b = cs
  bracket : ∀ {cs a b : List Char}, matchBracket? cs = some (a, b) → a ++ ']' :: b = cs
  braces : ∀ {cs after : List Char} {pieces : List (List Char)}, braceList? s.dialect cs = some (pieces, after) →
    [','].intercalate pieces ++ '\x7d' :: after = cs
  sequence : ∀ {cs : List Char} {es : List (List Char)}, sequence? cs = some es → ['.', '.'].intercalate es = cs
  marks : ∀ cs, (paramMarks cs).2.2 <:+ cs
  name : ∀ {cs name rest : List Char}, paramName? cs = some (name, rest) → name ++ rest = cs
  paramOp : ∀ {cs : List Char} {op : ParamOp}, (ParamOp.longestFirst.find? fun op => op.text.toList.isPrefixOf cs) = some op →
    op.text.toList ++ cs.drop op.text.length = cs
  arithOp : ∀ {cs : List Char} {op : ArithOp}, arithOpAt cs = some op → op.text.toList ++ cs.drop op.text.length = cs
  part : ∀ {nested : Nested} {mode : Mode} {first : Bool} {g : Gathered} {p : Position} {c : Char} {cs : List Char} ds,
    ((partAt s nested mode first g p c cs).run ds).1.2 <:+ cs
  arithToken : ∀ {parts : PartsReader} {p : Position} {c : Char} {cs : List Char} ds,
    ((arithToken s parts p c cs).run ds).1.2 <:+ cs
  operand : ∀ n cs, operandRest s.dialect n cs <:+ cs
  value : ∀ {parts : PartsReader} {t : Token} {a : Assignment} {p : Position} {value : List Char} {ds : Array Diagnostic.OfText},
    ((assignHead parts t).run ds).1 = some (a, p, value) → value <:+ t.text.toList

theorem cutsFit (s : Setting) : CutsFit s where
  closed h hclose := ⟨(inside_ok h.closes hclose).2, (inside_ok h.closes hclose).1⟩
  open_ _ hclose := by
    rw [hclose]
    rfl
  arith h := arith_inside h
  separator h := (splitTop?_eq h).symm
  bracket h := (matchBracket?_eq h).symm
  braces h := (braceList?_eq h).symm
  sequence h := (sequence?_eq h).symm
  marks := paramMarks_suffix
  name h := (paramName?_eq h).symm
  paramOp h := paramOp_eq h
  arithOp h := arithOpAt_eq h
  part {nested mode first g p c cs} ds :=
    (reads_partAt (v := bare s 0) mode first g p c cs (nested_agree_self nested _) (Nat.lt_succ_self _) ds).2.1
  arithToken {parts p c cs} ds := (reads_arithToken (v := bare s 0) p c cs (agree_bare parts 0 _) ds).2.1
  operand := operandRest_suffix
  value {parts t a p value ds} h :=
    ((reads_assignHead (v := bare s 0) (agree_bare parts 0 _) t (Nat.le_refl _) ds).2.1 a p value h).suffix

end Read

open Read in
-- Every script is read to its end: at every depth above its length the readers give the same file, and no other bound is
-- ever met. Each turn of a loop takes a token or is the last one, every text that is read inside another is shorter, and
-- no piece of a text reaches past its end.
theorem read_ends (d : Dialect) (name : String) :
    (∀ src n, textAt ⟨d, name⟩ (parts ⟨d, name⟩ (nested ⟨d, name⟩ (src.toList.length + 1 + n))) Position.start src.toList =
      ((readAs d name src).body, (readAs d name src).found)) ∧
    BoundsSuffice ⟨d, name⟩ ∧ (∀ parts k, TakesTokens ⟨d, name⟩ parts k) ∧
    (∀ stop k, CombinesTokens ⟨d, name⟩ stop k) ∧ ReadsShorter ⟨d, name⟩ ∧ CutsFit ⟨d, name⟩ :=
  ⟨fun _ n => readAs_of_lt (Nat.le_add_right _ n), boundsSuffice _, takesTokens _, combinesTokens _, readsShorter _, cutsFit _⟩

end Script
end ShellScript

import ShellScript.Machine.Declare
import ShellScript.Proofs.Machine.ArithRank
import ShellScript.Proofs.Machine.FieldSplitting
import ShellScript.Proofs.Machine.NumberText
import ShellScript.Proofs.Machine.Statement
import ShellScript.Proofs.Script.DeclarationReading

-- The command that declares a variable as it is, read back: what it is compiled to, and what it leaves behind in a shell that
-- does not have the variable yet.
namespace ShellScript
namespace Machine

open Script (Quote)
open Token (Element declareWord listEnding)
open Token.Scanner (IsWord IsSolid AreElements)
open Program (Word Assign)
open Run
open Script.Read (AreOptions)

section Text

variable {name : String} {v : Var}

-- The letters of the attributes that are set.
def letters (v : Var) : List Char :=
  (if v.array then ['a'] else []) ++ (if v.integer then ['i'] else []) ++ (if v.readOnly then ['r'] else [])
    ++ (if v.exported then ['x'] else [])

theorem toList_attributes (v : Var) :
    (attributes v).toList = '-' :: (if letters v = [] then ['-'] else letters v) := by
  obtain ⟨value, list, array, exported, readOnly, integer⟩ := v
  cases array <;> cases exported <;> cases readOnly <;> cases integer <;> simp [attributes, letters]

theorem attributes_eq (v : Var) : attributes v = String.ofList ('-' :: (if letters v = [] then ['-'] else letters v)) := by
  rw [← toList_attributes, String.ofList_toList]

theorem areOptions_attributes (v : Var) : AreOptions (attributes v).toList := by
  rw [toList_attributes]
  refine ⟨⟨_, rfl⟩, ?_⟩
  unfold letters
  cases v.array <;> cases v.exported <;> cases v.readOnly <;> cases v.integer <;>
    exact List.all_iff_forall_prop.mp (by decide)

theorem isWord_attributes (d : Dialect) (v : Var) (cs : List Char) : IsWord d false (attributes v).toList (' ' :: cs) := by
  obtain ⟨⟨ds, hds⟩, hplain⟩ := areOptions_attributes v
  have hsolid : ∀ c ∈ ['-', 'a', 'i', 'r', 'x'], Text.isMeta c = false ∧ c ∉ Token.Scanner.wordMarks :=
    List.all_iff_forall_prop.mp (by decide)
  rw [hds] at hplain ⊢
  exact Token.Scanner.isWord_solid rfl (fun c hc => hsolid c (hplain c hc)) (Token.Scanner.ends_cons (by decide) cs) (by simp)

theorem toList_declaration_scalar (harray : v.array = false) {q : Quote} {cs : List Char}
    (hquote : (Text.shellQuoted v.value).toList = q.around cs) :
    (declaration name v).toList =
      declareWord ++ ' ' :: ((attributes v).toList ++ ' ' :: (name.toList ++ '=' :: q.around cs ++ listEnding none)) := by
  simp [declaration, harray, hquote, declareWord, listEnding]

-- What an element has in front of its value.
def indexText (i : Nat) : String := "[" ++ toString i ++ "]="

-- The elements that values are written as, from the index `i` on.
def AreWritten : Nat → List String → List Element → Prop
  | _, [], [] => True
  | i, v :: vs, e :: es => e.front = (indexText i).toList ∧ e.quote.Holds v e.body ∧ AreWritten (i + 1) vs es
  | _, _, _ => False

-- Whole characters, none of them the null character.
def IsText (s : String) : Prop := Text.IsValid s ∧ '\x00' ∉ s.toList

theorem exists_areWritten {vs : List String} (hvs : ∀ v ∈ vs, IsText v) (i : Nat) :
    ∃ es, AreWritten i vs es ∧ Token.moreText es = (elementTexts i vs).flatMap (fun s => ' ' :: s.toList) ++ [')'] := by
  induction vs generalizing i with
  | nil => exact ⟨[], trivial, rfl⟩
  | cons v vs ih =>
      obtain ⟨⟨hvalid, hnull⟩, hvs⟩ := List.forall_mem_cons.mp hvs
      obtain ⟨q, cs, hquote, hq⟩ := Script.exists_holds hvalid hnull
      obtain ⟨es, hes, htext⟩ := ih hvs (i + 1)
      refine ⟨⟨(indexText i).toList, q, cs⟩ :: es, ⟨rfl, hq, hes⟩, ?_⟩
      rw [Token.moreText, htext]
      simp [elementTexts, Token.Element.text, indexText, hquote]

theorem toList_joinWith (s : String) (ss : List String) :
    (Text.joinWith " " (s :: ss)).toList = s.toList ++ ss.flatMap fun s => ' ' :: s.toList := by
  induction ss generalizing s with
  | nil => simp [Text.joinWith]
  | cons t ts ih =>
      rw [Text.joinWith, String.intercalate_cons_of_ne_nil (List.cons_ne_nil t ts)]
      simp [← Text.joinWith.eq_1, ih]

theorem toList_declaration_list (name : String) {v : Var} (harray : v.array = true) (hlist : ∀ e ∈ v.list, IsText e) :
    ∃ es, AreWritten 0 v.list es ∧ (declaration name v).toList =
      declareWord ++ ' ' :: ((attributes v).toList ++ ' ' :: (name.toList ++ ['='] ++ listEnding (some es))) := by
  obtain ⟨es, hes, hmore⟩ := exists_areWritten hlist 0
  refine ⟨es, hes, ?_⟩
  have htexts : (Text.joinWith " " (elementTexts 0 v.list)).toList ++ [')'] = Token.listText es := by
    cases hvalues : v.list with
    | nil =>
        rw [hvalues] at hes
        cases es with
        | nil => simp [elementTexts, Text.joinWith, Token.listText, Token.moreText]
        | cons e es => exact hes.elim
    | cons w ws =>
        rw [hvalues] at hes hmore
        cases es with
        | nil => exact hes.elim
        | cons e es =>
            refine (List.cons.inj ?_ : ' ' = ' ' ∧ _).2
            rw [Token.moreText] at hmore
            rw [Token.listText, hmore, elementTexts, toList_joinWith]
            rfl
  simp [declaration, harray, declareWord, listEnding, ← htexts]

section Compiling

attribute [local irreducible] Script.Read.textAt

open Script.Read (textAt parts nested assignment? assignmentOf IsAssignment atEnd)

-- A text without anything wrong in it, read and lowered.
theorem compile_of_textAt {file src : String} {body : Script.Block} {b : Program.Block} (hfile : '/' ∉ file.toList)
    (hread : ∀ k, textAt ⟨.bash, file⟩ (parts ⟨.bash, file⟩ (nested ⟨.bash, file⟩ (k + 1))) .start src.toList = (body, []))
    (hlower : Program.lowerScript { file } (src.length + 1) body = (b, [])) : Program.compile file src = .ok b := by
  have hcode : Program.readCode file src =
      { name := file, dialect := .bash, body, header := Script.Header.ofSource src, found := [] } := by
    have hplain : file.toList.contains '/' = false := by simpa using hfile
    rw [Program.readCode, hplain, if_neg Bool.false_ne_true]
    unfold Script.readAs
    dsimp only
    rw [hread]
  rw [Program.compile, hcode]
  simp only [hlower]
  rfl

-- A word that neither begins with a tilde nor names a file of the plan.
theorem lowerWord_plain {file : String} {ps : List Script.WordPart}
    (h : ∀ p s, ps.head? = some (.lit p s) → Program.tilde? s = none) (index : Program.IndexReader) (ds : Array Diagnostic) :
    (Program.lowerWord { file } index ⟨ps⟩).run ds =
      (⟨(((Program.lowerEach { file } index .none ps).map List.flatten).run ds).1⟩,
        (((Program.lowerEach { file } index .none ps).map List.flatten).run ds).2) := by
  rw [Program.lowerWord]
  simp only [Program.bindPath, withTilde_of_plain h]
  rfl

-- The word that a quoted text is lowered to.
theorem lowerWord_quoted {file value : String} {q : Quote} {cs : List Char} (h : q.Holds value cs) (index : Program.IndexReader)
    (p : Position) (ds : Array Diagnostic) :
    ∃ w, (Program.lowerWord { file } index ⟨(Script.Read.Gathered.addQuote {} q p cs).finish⟩).run ds = (w, ds) ∧
      ∀ E σ, Machine.literal E w σ = .ok value σ := by
  have hvalue := Script.Read.partsValue?_addQuote h p
  have htilde : ∀ p' s, (Script.Read.Gathered.addQuote {} q p cs).finish.head? = some (.lit p' s) → Program.tilde? s = none := by
    intro p' s hs
    cases q with
    | bare =>
        obtain ⟨hne, hsafe, -⟩ := h
        have hparts : (Script.Read.Gathered.addQuote {} .bare p cs).finish = [.lit p (String.ofList cs)] := by
          simp [Script.Read.Gathered.addQuote, Script.Read.Gathered.addText, Script.Read.Gathered.addLit,
            Script.Read.Gathered.finish, Script.Read.Gathered.flush, hne]
        rw [hparts] at hs
        cases hs
        rw [Program.tilde?, String.toList_ofList]
        split
        · exact absurd (hsafe '~' (List.mem_cons_self ..)) (by decide)
        · rfl
    | single => cases hs
    | dollar => cases hs
    | double => cases hs
  generalize (Script.Read.Gathered.addQuote {} q p cs).finish = ps at hvalue htilde ⊢
  have hconstant (E : Engine) (σ : State) : Constant E ⟨σ.shell.separators, true⟩ σ false ds value
      (((Program.lowerEach { file } index .none ps).map List.flatten).run ds) := constant_lowerEach false ps ds hvalue
  refine ⟨⟨_⟩, ?_, fun E σ => (hconstant E σ).spells.literal⟩
  -- what is reported is the same for every engine
  rw [lowerWord_plain htilde, (hconstant (engine { name := "", main := ⟨"", []⟩ } true 0 0) default).silent]

theorem lowerWord_options {file opts : String} (hopts : AreOptions opts.toList) (index : Program.IndexReader)
    (p : Position) (ds : Array Diagnostic) :
    (Program.lowerWord { file } index ⟨[.lit p opts]⟩).run ds = (⟨[.lit opts false]⟩, ds) := by
  obtain ⟨cs, rfl⟩ : ∃ cs, opts = String.ofList ('-' :: cs) := by
    obtain ⟨cs, hcs⟩ := hopts.dash
    exact ⟨cs, by rw [← hcs, String.ofList_toList]⟩
  have hplain := hopts.plain
  rw [String.toList_ofList] at hplain
  have hback : '\\' ∉ '-' :: cs := fun hmem => by
    have hletter := hplain _ hmem
    revert hletter
    decide
  have hnonempty : (String.ofList ('-' :: cs)).isEmpty = false := by simp
  have hparts : Program.litParts (String.ofList ('-' :: cs)) = [.lit (String.ofList ('-' :: cs)) false] := by
    rw [Program.litParts, hnonempty, if_neg Bool.false_ne_true, String.toList_ofList,
      Program.litPartsFrom_of_plain [] ('-' :: cs) hback (.inr (List.cons_ne_nil _ _))]
    rfl
  have htilde : ∀ p' s, [Script.WordPart.lit p (String.ofList ('-' :: cs))].head? = some (.lit p' s) → Program.tilde? s = none := by
    rintro p' s hs
    cases hs
    simp [Program.tilde?]
  rw [lowerWord_plain htilde]
  change ((⟨Program.litParts (String.ofList ('-' :: cs)) ++ []⟩ : Program.Word), ds) = _
  rw [hparts, List.append_nil]

theorem run_bind_of {α β : Type} {m : Program.Lowering α} {ds ds' : Array Diagnostic} {x : α} (h : m.run ds = (x, ds'))
    (f : α → Program.Lowering β) : (m >>= f).run ds = (f x).run ds' := by
  rw [StateT.run_bind, h]
  rfl

theorem lowerScript_declare {file : String} (p₁ : Position) {a : Script.Assignment} {a' : Program.Assign} {n : Nat}
    (ha : (Program.lowerAssign { file } (Program.indexAt { file } n) a).run #[] = (a', #[])) :
    Program.lowerScript { file } n { start := .start, items :=
      [.declare .start (String.ofList declareWord) [⟨[.lit p₁ (attributes v)]⟩] [a] []] } =
      (⟨file, [.decl ⟨1, 1⟩ .declare [⟨[.lit (attributes v) false]⟩] [a'] []]⟩, []) := by
  have hdeclares : Program.declaration? (String.ofList declareWord) = some .declare := by decide
  have hword : (Program.lowerWord { file } (Program.indexAt { file } n) ⟨[.lit p₁ (attributes v)]⟩).run #[] = _ :=
    lowerWord_options (areOptions_attributes v) _ p₁ #[]
  have hwords : (Program.lowerWords { file } (Program.indexAt { file } n) [⟨[.lit p₁ (attributes v)]⟩]).run #[] =
      ([⟨[.lit (attributes v) false]⟩], #[]) := (run_bind_of hword _).trans rfl
  have hassigns : (Program.lowerAssigns { file } (Program.indexAt { file } n) [a]).run #[] = ([a'], #[]) :=
    (run_bind_of ha _).trans rfl
  have hcommand : (Program.lowerCommand { file } (Program.indexAt { file } n)
      (.declare .start (String.ofList declareWord) [⟨[.lit p₁ (attributes v)]⟩] [a] [])).run #[] =
      (.decl ⟨1, 1⟩ .declare [⟨[.lit (attributes v) false]⟩] [a'] [], #[]) := by
    rw [Program.lowerCommand, hdeclares]
    exact (run_bind_of hwords _).trans ((run_bind_of hassigns _).trans rfl)
  have hblock : (Program.lowerBlock { file } (Program.indexAt { file } n) { start := .start, items :=
      [.declare .start (String.ofList declareWord) [⟨[.lit p₁ (attributes v)]⟩] [a] []] }).run #[] =
      (⟨file, [.decl ⟨1, 1⟩ .declare [⟨[.lit (attributes v) false]⟩] [a'] []]⟩, #[]) := by
    have hcommands : (Program.lowerCommands { file } (Program.indexAt { file } n)
        [.declare .start (String.ofList declareWord) [⟨[.lit p₁ (attributes v)]⟩] [a] []]).run #[] =
        ([.decl ⟨1, 1⟩ .declare [⟨[.lit (attributes v) false]⟩] [a'] []], #[]) := (run_bind_of hcommand _).trans rfl
    exact (run_bind_of hcommands _).trans rfl
  rw [Program.lowerScript, hblock]

theorem starts_of_name {w : List Char} (h : ∃ c cs, w = c :: cs ∧ Text.isNameStart c = true) :
    ∃ c cs, w = c :: cs ∧ Token.Scanner.startsWord c = true := by
  obtain ⟨c, cs, hw, hc⟩ := h
  exact ⟨c, cs, hw, Token.Scanner.startsWord_of_isNameStart hc⟩

-- The front of an assignment is a plain piece of a word.
theorem solid_front (hname : ∀ d ∈ name.toList, Text.isNameChar d = true) :
    IsSolid (name.toList ++ ['=']) ∧ Construct.Guarded (Script.Read.literalMarks .unquoted) (name.toList ++ ['=']) := by
  have hmarks : ∀ c ∈ Script.Read.literalMarks .unquoted, Text.isNameChar c = false ∧ c ≠ '=' :=
    List.all_iff_forall_prop.mp (by decide)
  refine ⟨List.forall_mem_append.mpr ⟨Token.Scanner.isSolid_of_isNameChar hname, List.all_iff_forall_prop.mp (by decide)⟩, .of_plain fun c hc hmark => ?_⟩
  rcases List.mem_append.mp hc with hc | hc
  · exact Token.Scanner.ne_of_isNameChar (hname c hc) (hmarks c hmark).1 rfl
  · exact (hmarks c hmark).2 (List.mem_singleton.mp hc)

theorem addQuote_ne_nil {value : String} {q : Quote} {cs : List Char} (h : q.Holds value cs) (p : Position) :
    (Script.Read.Gathered.addQuote {} q p cs).finish ≠ [] := by
  cases q with
  | bare => simp [Script.Read.Gathered.addQuote, Script.Read.Gathered.addText, Script.Read.Gathered.addLit,
      Script.Read.Gathered.finish, Script.Read.Gathered.flush, h.1]
  | _ => exact List.cons_ne_nil _ _

theorem lowerAssign_value {file : String} {index : Program.IndexReader} {t : Token} (front : List Char) {ps : List Script.WordPart}
    {x : Program.Word} (h : (Program.lowerWord { file } index ⟨ps⟩).run #[] = (x, #[])) (hne : ps ≠ []) :
    (Program.lowerAssign { file } index (assignmentOf t front (some ⟨ps⟩) none)).run #[] =
      ({ name := String.ofList front, index := none, append := false, value := some x, array := none }, #[]) := by
  have hempty : ps.isEmpty = false := by simpa using hne
  have hvalue : (Program.lowerValue { file } index false (some ⟨ps⟩)).run #[] = (some x, #[]) := by
    rw [Program.lowerValue]
    refine (run_bind_of h _).trans ?_
    simp only [hempty, Bool.false_eq_true, if_false]
    rfl
  have hindex : (Program.lowerOptPlain { file } index none).run #[] = (none, #[]) := rfl
  rw [assignmentOf, Program.lowerAssign]
  exact (run_bind_of hindex _).trans ((run_bind_of hvalue _).trans rfl)

theorem lowerAssign_list {file : String} {index : Program.IndexReader} {t : Token} {front : List Char} {p : Position}
    {elems : List Script.Word} {ws : List Word} (h : (Program.lowerWords { file } index elems).run #[] = (ws, #[])) :
    (Program.lowerAssign { file } index (assignmentOf t front none (some { pos := p, elems }))).run #[] =
      ({ name := String.ofList front, index := none, append := false, value := none, array := some ws }, #[]) := by
  have hindex : (Program.lowerOptPlain { file } index none).run #[] = (none, #[]) := rfl
  rw [assignmentOf, Program.lowerAssign]
  exact (run_bind_of hindex _).trans ((run_bind_of h _).trans rfl)

-- Where the words of a declaration are, and where the last of them ends.

def optionsPlace : Position := (Position.start.advance declareWord).advance [' ']

def wordPlace (v : Var) : Position := ((Position.start.advance declareWord).advance (' ' :: (attributes v).toList)).advance [' ']

def endPlace (v : Var) (w : List Char) : Position :=
  ((Position.start.advance declareWord).advance (' ' :: (attributes v).toList)).advance (' ' :: w)

variable {file : String} {w : List Char} {quoted : Bool} {es? : Option (List Element)} {a : Script.Assignment} {a' : Program.Assign}
  {q : Position}

-- What a declaration is compiled to, given what its last word is read as.
theorem compile_of_assignment (hfile : '/' ∉ file.toList)
    (htext : (declaration name v).toList = declareWord ++ ' ' :: ((attributes v).toList ++ ' ' :: (w ++ listEnding es?)))
    (hw : IsWord .bash quoted w (listEnding es?)) (hes : ∀ es ∈ es?, AreElements .bash es)
    (hword : ∀ k, ∃ ps, parts ⟨.bash, file⟩ (nested ⟨.bash, file⟩ (k + 1)) .unquoted (wordPlace v) w = pure ps)
    (ha : ∀ k, assignment? ⟨.bash, file⟩ (parts ⟨.bash, file⟩ (nested ⟨.bash, file⟩ (k + 1)))
      ⟨Token.plainWord w (wordPlace v) quoted :: Token.endTokens es? (endPlace v w), 0, #[]⟩ = (some (some a), atEnd q))
    (hlower : (Program.lowerAssign { file } (Program.indexAt { file } ((declaration name v).length + 1)) a).run #[] = (a', #[])) :
    Program.compile file (declaration name v) =
      .ok ⟨file, [.decl ⟨1, 1⟩ .declare [⟨[.lit (attributes v) false]⟩] [a'] []]⟩ := by
  refine compile_of_textAt hfile (fun k => ?_) (lowerScript_declare optionsPlace hlower)
  obtain ⟨ps, hps⟩ := hword k
  have hscan : Token.scanText .bash file .start (declareWord ++ ' ' :: ((attributes v).toList ++ ' ' :: (w ++ listEnding es?))) = _ :=
    Token.scanText_declaration (isWord_attributes .bash v _) hw hes rfl rfl
  have hread := Script.Read.textAt_declaration (s := ⟨.bash, file⟩) (areOptions_attributes v) hscan (ha k) hps
  rw [String.ofList_toList] at hread
  rw [htext]
  exact hread

theorem compile_scalar (hfile : '/' ∉ file.toList) (hname : Text.isName name = true) (harray : v.array = false)
    (htext : IsText v.value) :
    ∃ w, Program.compile file (declaration name v) = .ok ⟨file, [.decl ⟨1, 1⟩ .declare [⟨[.lit (attributes v) false]⟩]
      [{ name, index := none, append := false, value := some w, array := none }] []]⟩ ∧
      ∀ E σ, Machine.literal E w σ = .ok v.value σ := by
  obtain ⟨c, cs, hcons, hc, hall⟩ := Text.exists_cons_of_isName hname
  obtain ⟨hsolid, hguarded⟩ := solid_front hall
  obtain ⟨q, ds, hquote, hq⟩ := Script.exists_holds htext.1 htext.2
  have hansi : Dialect.bash.supports .ansiQuote = true := by decide
  have hback : String.ofList name.toList = name := String.ofList_toList
  have hstart : ∃ c cs, name.toList ++ ['='] = c :: cs ∧ Text.isNameStart c = true := ⟨c, cs ++ ['='], by rw [hcons]; rfl, hc⟩
  have hword : IsWord .bash q.isQuoted (name.toList ++ ['='] ++ q.around ds) (listEnding none) :=
    Token.Scanner.isWord_around hansi hq (starts_of_name hstart) hsolid Token.Scanner.ends_nil nofun
  let place : Position := ((wordPlace v).advance name.toList).step '='
  let elements : List Script.WordPart := (Script.Read.Gathered.addQuote {} q place ds).finish
  let w : List Char := name.toList ++ ['='] ++ q.around ds
  let a : Script.Assignment := assignmentOf (Token.plainWord w (wordPlace v) q.isQuoted) name.toList (some ⟨elements⟩) none
  obtain ⟨x, hx, hliteral⟩ : ∃ x, (Program.lowerWord { file } (Program.indexAt { file } ((declaration name v).length + 1)) ⟨elements⟩).run #[] = (x, #[]) ∧
    ∀ E σ, Machine.literal E x σ = .ok v.value σ := lowerWord_quoted hq _ place #[]
  have hsplit : w = name.toList ++ '=' :: q.around ds := List.append_assoc ..
  have htext : (declaration name v).toList = declareWord ++ ' ' :: ((attributes v).toList ++ ' ' :: (w ++ listEnding none)) := by
    rw [toList_declaration_scalar harray hquote, hsplit]
  have hassignment : IsAssignment (Token.plainWord w (wordPlace v) q.isQuoted) name.toList (q.around ds) :=
    ⟨String.toList_ofList.trans hsplit, hback.symm ▸ hname⟩
  have hne : q.around ds ≠ [] := by
    cases q with
    | bare => exact hq.1
    | _ => exact List.cons_ne_nil _ _
  have hvalue (k : Nat) : parts ⟨.bash, file⟩ (nested ⟨.bash, file⟩ (k + 1)) .unquoted place (q.around ds) = pure elements :=
    Script.Read.partsFrom_around hq hansi (Nat.lt_succ_self _) k true {} place
  have hlower : (Program.lowerAssign { file } (Program.indexAt { file } ((declaration name v).length + 1)) a).run #[] =
      ({ name, index := none, append := false, value := some x, array := none }, #[]) := by
    have hlower := lowerAssign_value (t := Token.plainWord w (wordPlace v) q.isQuoted) name.toList hx (addQuote_ne_nil hq place)
    rwa [hback] at hlower
  have hread (k : Nat) : assignment? ⟨.bash, file⟩ (parts ⟨.bash, file⟩ (nested ⟨.bash, file⟩ (k + 1)))
      ⟨Token.plainWord w (wordPlace v) q.isQuoted :: Token.endTokens none (endPlace v w), 0, #[]⟩ =
      (some (some a), atEnd (endPlace v w)) :=
    Script.Read.assignment?_value hassignment hne (hvalue k) rfl
  have hwhole (k : Nat) : ∃ ps, parts ⟨.bash, file⟩ (nested ⟨.bash, file⟩ (k + 1)) .unquoted (wordPlace v) w = pure ps :=
    ⟨_, Script.Read.parts_around hansi hq hguarded k (wordPlace v)⟩
  exact ⟨x, compile_of_assignment hfile htext hword nofun hwhole hread hlower, hliteral⟩

-- The elements of a list.

theorem toList_indexText (i : Nat) : (indexText i).toList = '[' :: (Nat.toDigits 10 i ++ [']', '=']) := by
  simp [indexText, Nat.toString_eq_repr, Nat.repr_eq_ofList_toDigits]

theorem mem_indexText {i : Nat} {c : Char} (h : c ∈ (indexText i).toList) : c ∈ ['[', ']', '='] ∨ Text.isNameChar c = true := by
  simp only [toList_indexText, List.mem_cons, List.mem_append, List.not_mem_nil, or_false] at h
  rcases h with rfl | h | rfl | rfl
  · exact .inl (by decide)
  · exact .inr (by simp [Text.isNameChar, Text.isDigit_of_mem_toDigits c h])
  · exact .inl (by decide)
  · exact .inl (by decide)

theorem solid_indexText (i : Nat) :
    IsSolid (indexText i).toList ∧ Construct.Guarded (Script.Read.literalMarks .unquoted) (indexText i).toList := by
  have hmarks : ∀ c ∈ Script.Read.literalMarks .unquoted, c ∉ ['[', ']', '='] ∧ Text.isNameChar c = false :=
    List.all_iff_forall_prop.mp (by decide)
  have hothers : ∀ c ∈ ['[', ']', '='], Text.isMeta c = false ∧ c ∉ Token.Scanner.wordMarks :=
    List.all_iff_forall_prop.mp (by decide)
  refine ⟨fun c hc => ?_, .of_plain fun c hc hmark => ?_⟩
  · rcases mem_indexText hc with hother | hname
    · exact hothers c hother
    · have hsolid : IsSolid [c] := Token.Scanner.isSolid_of_isNameChar (by simpa using hname)
      exact hsolid c (List.mem_singleton_self c)
  · obtain ⟨hother, hname⟩ := hmarks c hmark
    rcases mem_indexText hc with h | h
    · exact hother h
    · exact Bool.false_ne_true (hname.symm.trans h)

theorem ends_moreText (es : List Element) : Token.Scanner.Ends (Token.moreText es) := by
  cases es <;> exact Token.Scanner.ends_cons (by decide) _

variable {vs : List String} {es : List Element} {i : Nat}

theorem AreWritten.of_mem (h : AreWritten i vs es) : ∀ e ∈ es, ∃ j v, e.front = (indexText j).toList ∧ e.quote.Holds v e.body := by
  induction es generalizing i vs with
  | nil => exact nofun
  | cons e es ih =>
      cases vs with
      | nil => exact h.elim
      | cons v vs =>
          obtain ⟨hfront, hquote, hes⟩ := h
          exact List.forall_mem_cons.mpr ⟨⟨i, v, hfront, hquote⟩, ih hes⟩

theorem AreWritten.elements (h : AreWritten i vs es) : AreElements .bash es := by
  have hreserved : ∀ w ∈ Token.reserved, w.toList.head? = some '[' → w.toList[1]? = some '[' := by decide
  induction es generalizing i vs with
  | nil => trivial
  | cons e es ih =>
      cases vs with
      | nil => exact h.elim
      | cons v vs =>
          obtain ⟨hfront, hquote, hes⟩ := h
          have hparen : (Token.moreText es).head? ≠ some '(' := by cases es <;> exact nofun
          refine ⟨?_, ?_, ih hes⟩
          · have hstart : ∃ c ds, e.front = c :: ds ∧ Token.Scanner.startsWord c = true :=
              ⟨'[', _, hfront.trans (toList_indexText i), by decide⟩
            exact Token.Scanner.isWord_around (by decide) hquote hstart (hfront ▸ (solid_indexText i).1) (ends_moreText es) hparen
          · -- the one keyword that begins with a bracket has another one behind it
            obtain ⟨d, ds, hdigits⟩ := List.exists_cons_of_ne_nil (Nat.toDigits_ne_nil (b := 10) (n := i))
            have hd : Text.isDigit d = true := Text.isDigit_of_mem_toDigits d (by rw [hdigits]; exact List.mem_cons_self ..)
            have htext : e.text = '[' :: d :: (ds ++ [']', '='] ++ e.quote.around e.body) := by
              rw [Element.text, hfront, toList_indexText, hdigits]
              simp
            rw [Token.isReserved, Bool.eq_false_iff]
            intro hmem
            have hsecond := hreserved _ (List.contains_iff_mem.mp hmem) (by rw [String.toList_ofList, htext]; rfl)
            rw [String.toList_ofList, htext] at hsecond
            cases hsecond
            cases hd

theorem AreWritten.reads (h : AreWritten i vs es) (file : String) (k : Nat) :
    Script.Read.ReadsElements (parts ⟨.bash, file⟩ (nested ⟨.bash, file⟩ (k + 1))) es := by
  intro e he p
  obtain ⟨j, v, hfront, hquote⟩ := h.of_mem e he
  have hansi : Dialect.bash.supports .ansiQuote = true := by decide
  exact Script.Read.parts_around hansi hquote (hfront ▸ (solid_indexText j).2) k p

-- A word that is one field in every shell, and the text of it.
structure IsField (w : Word) (text : String) : Prop where
  choices : Brace.expand w.parts = [w.parts]
  field : ∀ E m s, ∃ f fs, expandParts E m false w.parts {} s = .ok f s ∧ f.finish = [fs] ∧ Fragment.plain fs = text

theorem isField_bare (text : String) : IsField ⟨[.lit text false]⟩ text :=
  ⟨rfl, fun _ _ _ => ⟨_, [⟨text, false⟩], rfl, rfl, by simp [Fragment.plain]⟩⟩

theorem isField_single (front text : String) : IsField ⟨[.lit front false, .lit text true]⟩ (front ++ text) :=
  ⟨rfl, fun _ _ _ => ⟨_, [⟨front, false⟩, ⟨text, true⟩], rfl, rfl, by simp [Fragment.plain]⟩⟩

theorem isField_double (front text : String) : IsField ⟨[.lit front false, .quoted [.lit text true]]⟩ (front ++ text) :=
  ⟨rfl, fun _ _ _ => ⟨_, [⟨front, false⟩, ⟨text, true⟩], rfl, rfl, by simp [Fragment.plain]⟩⟩

-- The front of an element is literal text as it stands.
theorem litParts_front {front : List Char} (hfront : front ≠ []) (hback : '\\' ∉ front) :
    Program.litParts (String.ofList front) = [.lit (String.ofList front) false] := by
  have hnonempty : (String.ofList front).isEmpty = false := by simpa using hfront
  rw [Program.litParts, hnonempty, if_neg Bool.false_ne_true, String.toList_ofList,
    Program.litPartsFrom_of_plain [] front hback (.inr hfront)]
  rfl

theorem lowerWord_element (file : String) {e : Element} {v : String} (hne : e.front ≠ []) (hback : '\\' ∉ e.front)
    (htilde : e.front.head? ≠ some '~') (hquote : e.quote.Holds v e.body) (index : Program.IndexReader) (p : Position)
    (ds : Array Diagnostic) :
    ∃ w, (Program.lowerWord { file } index (Script.Read.elementWord p e)).run ds = (w, ds) ∧
      IsField w (String.ofList e.front ++ v) := by
  obtain ⟨front, quote, body⟩ := e
  obtain ⟨c, cs, rfl⟩ := List.exists_cons_of_ne_nil hne
  have hplain (text : List Char) (hhead : text.head? = some c) : Program.tilde? (String.ofList text) = none := by
    obtain ⟨ds, rfl⟩ := List.head?_eq_some_iff.mp hhead
    rw [Program.tilde?, String.toList_ofList]
    split
    · rename_i heq
      exact absurd (congrArg some (List.cons.inj heq).1) htilde
    · rfl
  have hquoted (x : Script.WordPart) :
      (Script.Read.Gathered.addPart (Script.Read.Gathered.addText {} p (c :: cs)) x).finish = [.lit p (String.ofList (c :: cs)), x] := by
    simp [Script.Read.Gathered.addPart, Script.Read.Gathered.addText, Script.Read.Gathered.addLit,
      Script.Read.Gathered.finish, Script.Read.Gathered.flush]
  have hlit := litParts_front hne hback
  cases quote with
  | bare =>
      obtain ⟨hbody, hsafe, rfl⟩ := hquote
      have hall : '\\' ∉ c :: cs ++ body := by
        refine fun hmem => (List.mem_append.mp hmem).elim hback fun hmem => ?_
        exact absurd (hsafe _ hmem) (by decide)
      have hparts : (Script.Read.elementWord p ⟨c :: cs, .bare, body⟩).parts = [.lit p (String.ofList (c :: cs ++ body))] := by
        simp [Script.Read.elementWord, Script.Read.Gathered.addQuote, Script.Read.Gathered.addText, Script.Read.Gathered.addLit,
          Script.Read.Gathered.finish, Script.Read.Gathered.flush, hbody]
      have hword : Script.Read.elementWord p ⟨c :: cs, .bare, body⟩ = ⟨[.lit p (String.ofList (c :: cs ++ body))]⟩ :=
        congrArg Script.Word.mk hparts
      refine ⟨⟨[.lit (String.ofList (c :: cs ++ body)) false]⟩, ?_, String.ofList_append ▸ isField_bare _⟩
      rw [hword, lowerWord_plain (by rintro p' s ⟨⟩; exact hplain _ rfl)]
      change ((⟨Program.litParts (String.ofList (c :: cs ++ body)) ++ []⟩ : Program.Word), ds) = _
      have hlit : Program.litParts (String.ofList (c :: cs ++ body)) = _ := litParts_front (List.cons_ne_nil _ _) hall
      rw [hlit, List.append_nil]
  | single =>
      obtain ⟨-, rfl⟩ := hquote
      refine ⟨⟨[.lit (String.ofList (c :: cs)) false, .lit (String.ofList body) true]⟩, ?_, isField_single _ _⟩
      have hword : Script.Read.elementWord p ⟨c :: cs, .single, body⟩ =
          ⟨[.lit p (String.ofList (c :: cs)), .single (p.advance (c :: cs)) false (String.ofList body)]⟩ := congrArg Script.Word.mk (hquoted _)
      rw [hword, lowerWord_plain (by rintro p' s ⟨⟩; exact hplain _ rfl)]
      change ((⟨Program.litParts (String.ofList (c :: cs)) ++ _⟩ : Program.Word), ds) = _
      rw [hlit]
      rfl
  | dollar =>
      obtain ⟨-, rfl⟩ := hquote
      refine ⟨⟨[.lit (String.ofList (c :: cs)) false, .lit (Script.unescapeAnsi (String.ofList body)) true]⟩, ?_, isField_single _ _⟩
      have hword : Script.Read.elementWord p ⟨c :: cs, .dollar, body⟩ =
          ⟨[.lit p (String.ofList (c :: cs)), .single (p.advance (c :: cs)) true (String.ofList body)]⟩ := congrArg Script.Word.mk (hquoted _)
      rw [hword, lowerWord_plain (by rintro p' s ⟨⟩; exact hplain _ rfl)]
      change ((⟨Program.litParts (String.ofList (c :: cs)) ++ _⟩ : Program.Word), ds) = _
      rw [hlit]
      rfl
  | double =>
      obtain ⟨-, -, rfl⟩ := hquote
      refine ⟨⟨[.lit (String.ofList (c :: cs)) false, .quoted [.lit (Script.unescapeDouble (String.ofList body)) true]]⟩, ?_,
        isField_double _ _⟩
      have hword : Script.Read.elementWord p ⟨c :: cs, .double, body⟩ =
          ⟨[.lit p (String.ofList (c :: cs)),
            .double (p.advance (c :: cs)) false [.lit ((p.advance (c :: cs)).step '"') (String.ofList body)]]⟩ :=
        congrArg Script.Word.mk (hquoted _)
      rw [hword, lowerWord_plain (by rintro p' s ⟨⟩; exact hplain _ rfl)]
      change ((⟨Program.litParts (String.ofList (c :: cs)) ++ _⟩ : Program.Word), ds) = _
      rw [hlit]
      rfl

-- The values as they come back: each with its index in front.
def indexedFrom (i : Nat) (vs : List String) : List String := vs.mapIdx fun j v => indexText (i + j) ++ v

theorem indexedFrom_cons (i : Nat) (v : String) (vs : List String) :
    indexedFrom i (v :: vs) = (indexText i ++ v) :: indexedFrom (i + 1) vs := by
  have hshift : (fun j v => indexText (i + (j + 1)) ++ v) = fun j v => indexText (i + 1 + j) ++ v := by
    funext j v
    rw [Nat.add_right_comm i 1 j, Nat.add_assoc]
  simp [indexedFrom, List.mapIdx_cons, hshift]

-- Words that are read from elements, wherever they stand.
def AreWordsOf (words : List Script.Word) (es : List Element) : Prop :=
  List.Forall₂ (fun w e => ∃ p, w = Script.Read.elementWord p e) words es

theorem areWordsOf_moreWords (es : List Element) (p : Position) : AreWordsOf (Script.Read.moreWords p es) es := by
  induction es generalizing p with
  | nil => exact .nil
  | cons e es ih => exact .cons ⟨_, rfl⟩ (ih _)

theorem areWordsOf_listWords (es : List Element) (p : Position) : AreWordsOf (Script.Read.listWords p es) es := by
  cases es with
  | nil => exact .nil
  | cons e es => exact .cons ⟨_, rfl⟩ (areWordsOf_moreWords es _)

theorem lowerWords_elements {words : List Script.Word} (hwords : AreWordsOf words es) (h : AreWritten i vs es) (file : String)
    (index : Program.IndexReader) (ds : Array Diagnostic) :
    ∃ ws, (Program.lowerWords { file } index words).run ds = (ws, ds) ∧ List.Forall₂ IsField ws (indexedFrom i vs) := by
  induction hwords generalizing i vs with
  | nil =>
      cases vs with
      | nil => exact ⟨[], rfl, .nil⟩
      | cons v vs => exact h.elim
  | @cons w e words es hw _ ih =>
      obtain ⟨p, rfl⟩ := hw
      cases vs with
      | nil => exact h.elim
      | cons v vs =>
          obtain ⟨hfront, hquote, hes⟩ := h
          have hback : '\\' ∉ e.front := fun hmem => by
            rw [hfront] at hmem
            rcases mem_indexText hmem with hmem | hmem
            · exact absurd hmem (by decide)
            · exact absurd hmem (by decide)
          have htilde : e.front.head? ≠ some '~' := by
            rw [hfront, toList_indexText]
            exact fun h => absurd (Option.some.inj h) (by decide)
          have hne : e.front ≠ [] := by
            rw [hfront, toList_indexText]
            exact List.cons_ne_nil _ _
          obtain ⟨x, hx, hfield⟩ := lowerWord_element file hne hback htilde hquote index p ds
          obtain ⟨ws, hws, hfields⟩ := ih hes
          refine ⟨x :: ws, (run_bind_of hx _).trans ((run_bind_of hws _).trans rfl), ?_⟩
          rw [indexedFrom_cons]
          rw [hfront, String.ofList_toList] at hfield
          exact .cons hfield hfields

theorem compile_list (hfile : '/' ∉ file.toList) (hname : Text.isName name = true) (harray : v.array = true)
    (hlist : ∀ e ∈ v.list, IsText e) :
    ∃ ws, Program.compile file (declaration name v) = .ok ⟨file, [.decl ⟨1, 1⟩ .declare [⟨[.lit (attributes v) false]⟩]
      [{ name, index := none, append := false, value := none, array := some ws }] []]⟩ ∧
      List.Forall₂ IsField ws (indexedFrom 0 v.list) := by
  obtain ⟨c, cs, hcons, hc, hall⟩ := Text.exists_cons_of_isName hname
  obtain ⟨hsolid, hguarded⟩ := solid_front hall
  have harrays : Dialect.bash.supports .arrays = true := by decide
  have hback : String.ofList name.toList = name := String.ofList_toList
  have hfront : name.toList ++ ['='] = c :: (cs ++ ['=']) := by rw [hcons]; rfl
  obtain ⟨es, hes, htext⟩ := toList_declaration_list name harray hlist
  have hword : IsWord .bash false (name.toList ++ ['=']) (listEnding (some es)) := by
    have hends : Token.Scanner.Ends (listEnding (some es)) :=
      Token.Scanner.ends_cons (by decide) _
    have hstart : Token.Scanner.startsWord c = true := Token.Scanner.startsWord_of_isNameStart hc
    rw [hfront] at hsolid ⊢
    refine Token.Scanner.isWord_solid hstart hsolid hends fun _ d hd e => ?_
    · rw [← hfront] at hd
      rcases List.mem_append.mp hd with hd | hd
      · have hne (x : Char) (hx : Text.isNameChar x = false) : d ≠ x := Token.Scanner.ne_of_isNameChar (hall d hd) hx
        simp [Token.Scanner.opensPattern, hne '?' (by decide), hne '*' (by decide), hne '+' (by decide), hne '@' (by decide),
          hne '!' (by decide)]
      · rw [List.mem_singleton.mp hd]
        rfl
  have hassignment : IsAssignment (Token.plainWord (name.toList ++ ['=']) (wordPlace v) false) name.toList [] :=
    ⟨String.toList_ofList, hback.symm ▸ hname⟩
  have hplace : (endPlace v (name.toList ++ ['='])).offset =
      (wordPlace v).offset + (Token.plainWord (name.toList ++ ['=']) (wordPlace v) false).text.length := by
    have hlength : (Token.plainWord (name.toList ++ ['=']) (wordPlace v) false).text.length = (name.toList ++ ['=']).length :=
      String.length_ofList
    rw [hlength, endPlace, wordPlace, Position.offset_advance, Position.offset_advance _ [' '], List.length_cons, List.length_singleton]
    omega
  let place : Position := endPlace v (name.toList ++ ['='])
  obtain ⟨ws, hws, hfields⟩ := lowerWords_elements (areWordsOf_listWords es (place.advance ['('])) hes file
    (Program.indexAt { file } ((declaration name v).length + 1)) #[]
  have hcompile := compile_of_assignment hfile htext hword (by rintro _ ⟨⟩; exact hes.elements)
    (fun k => ⟨_, Script.Read.parts_plain hguarded (by rw [hfront]; exact List.cons_ne_nil _ _) _⟩)
    (fun k => Script.Read.assignment?_list hassignment harrays (hes.reads file k) hplace) (lowerAssign_list hws)
  rw [hback] at hcompile
  exact ⟨ws, hcompile, hfields⟩

end Compiling

end Text

-- Running

-- A shell that ended its last command well, and that has a variable where a declaration looks for it.
structure State.Declares (s : State) (o : Program.Options) (local_ : Bool) (name : String) (v : Var) : Prop where
  get : s.shell.env.get? name = some v
  inner : local_ = true → (s.shell.env.scope.lookup name).isSome = true
  status : s.shell.status = 0
  options : s.shell.options = o

section Declaring

variable {E : Engine} {s : State} {o : Program.Options} {local_ : Bool} {name : String} {u v : Var}

theorem Env.isSome_scope_put {e : Env} (h : (e.scope.lookup name).isSome = true) :
    ((e.put name v).scope.lookup name).isSome = true := by
  have hput : (e.put name v).scope = Table.insert name v e.scope := by
    obtain ⟨scope, outer⟩ := e
    cases outer with
    | nil => rfl
    | cons inner outer =>
        rw [Env.put, Env.all, Env.putIn, if_pos h]
        · rfl
        · exact List.cons_ne_nil _ _
  rw [hput, Table.lookup_insert, if_pos rfl]
  rfl

theorem State.Declares.putVar (h : s.Declares o local_ name u) (w : Var) :
    ∃ t, putVar name w s = .ok () t ∧ t.Declares o local_ name w :=
  ⟨_, rfl, (Env.get?_put ..).trans (if_pos rfl), fun hlocal => Env.isSome_scope_put (h.inner hlocal), h.status, h.options⟩

theorem State.Declares.modifyVar (h : s.Declares o local_ name u) (g : Var → Var) :
    ∃ t, modifyVar name g s = .ok () t ∧ t.Declares o local_ name (g u) := by
  have hput : Machine.modifyVar name g s = Machine.putVar name (g ((s.shell.env.get? name).getD {})) s := rfl
  rw [hput, h.get]
  exact h.putVar (g u)

theorem target_of_fresh (hfresh : s.shell.env.get? name = none) (hstatus : s.shell.status = 0) (hoptions : s.shell.options = o)
    (local_ : Bool) :
    ∃ t, target local_ name s = .ok {} t ∧ t.Declares o local_ name {} := by
  obtain ⟨v, htarget, hget⟩ := target_eq local_ name s
  cases local_ with
  | false =>
      rw [if_neg Bool.false_ne_true, Env.get?_declare, if_pos rfl, hfresh] at hget
      cases hget
      exact ⟨_, htarget, (Env.get?_declare ..).trans ((if_pos rfl).trans (by rw [hfresh]; rfl)), nofun, hstatus, hoptions⟩
  | true =>
      have hscope : s.shell.env.scope.lookup name = none := by
        rw [Env.get?, Env.all, Env.findIn] at hfresh
        split at hfresh
        · cases hfresh
        · assumption
      have hdeclare : (s.shell.env.declareLocal name).get? name = some {} := by
        rw [Env.get?_declareLocal, if_pos rfl, hscope, hfresh]
        rfl
      rw [if_pos rfl, hdeclare] at hget
      cases hget
      refine ⟨_, htarget, hdeclare, fun _ => ?_, hstatus, hoptions⟩
      dsimp only
      rw [if_pos rfl, Env.declareLocal, hscope]
      simp [Table.lookup_insert]

theorem State.Declares.target (h : s.Declares o local_ name u) : target local_ name s = .ok u s := by
  have henv : (if local_ then s.shell.env.declareLocal name else s.shell.env.declare name) = s.shell.env := by
    cases local_ with
    | false =>
        have hthere : (s.shell.env.get? name).isSome = true := by
          rw [h.get]
          rfl
        exact if_pos hthere
    | true => exact if_pos (h.inner rfl)
  obtain ⟨v, htarget, hget⟩ := target_eq local_ name s
  rw [henv] at htarget hget
  cases h.get.symm.trans hget
  exact htarget

-- Assignments

theorem State.Declares.assign_value (h : s.Declares o local_ name u) {w : Word} {value : String} (hliteral : literal E w s = .ok value s)
    (hreadOnly : u.readOnly = false) (harray : u.array = false)
    (hnumber : u.integer = true → ∃ n : Int, (n.natAbs : Int) ≤ Text.maxInt64 ∧ value = toString n) :
    ∃ t, assign E { name, index := none, append := false, value := some w, array := none } local_ s = .ok () t ∧
      t.Declares o local_ name { u with value } := by
  have htext : textFor E name value false u s = .ok value s := by
    unfold textFor
    cases hinteger : u.integer with
    | false => rfl
    | true =>
        obtain ⟨n, hn, rfl⟩ := hnumber hinteger
        have hwrap : Text.wrap64 (n + 0) = n := by
          refine (congrArg Text.wrap64 (Int.add_zero n)).trans (Text.wrap64_of_inInt64 (Text.inInt64_iff.mpr ?_))
          simp only [Text.maxInt64] at hn
          omega
        refine (bind_of_ok (textValue_toString E 0 hn s) _).trans ?_
        exact congrArg (fun k : Int => EStateM.Result.ok (toString k) s) hwrap
  have hassign : assign E { name, index := none, append := false, value := some w, array := none } local_ s =
      assignPlain E name value false local_ s := bind_of_ok hliteral _
  obtain ⟨t, ht, hdeclares⟩ := h.modifyVar (Var.withText value)
  refine ⟨t, ?_, ?_⟩
  · rw [hassign, assignPlain_eq, writing]
    refine (bind_of_ok h.target _).trans ?_
    rw [hreadOnly, if_neg Bool.false_ne_true]
    exact (bind_of_ok htext _).trans ht
  · have hplain : Var.withText value u = { u with value } := by
      rw [Var.withText, harray]
      rfl
    rwa [hplain] at hdeclares

-- Without matching against files each word is its own text.
theorem fields_isField {ws : List Word} {texts : List String} (h : List.Forall₂ IsField ws texts)
    (hplain : ws = [] ∨ s.shell.options.noglob = true) : fields E ws s = .ok texts s := by
  induction h with
  | nil => rfl
  | @cons w text ws texts hw _ ih =>
      have hnoglob := hplain.resolve_left (List.cons_ne_nil _ _)
      obtain ⟨hchoices, hfield⟩ := hw
      obtain ⟨f, fs, hexpand, hfinish, htext⟩ := hfield E ⟨s.shell.separators, false⟩ s
      have hmatch : matchAll [fs] s = .ok [text] s := by
        rw [matchAll_plain (.inl hnoglob)]
        simp [htext]
      have hseparators : separators s = .ok s.shell.separators s := rfl
      rw [fields, hchoices, expandChoices]
      simp only [expandChoices, bind_assoc]
      rw [bind_of_ok hseparators, bind_of_ok hexpand, hfinish, bind_of_ok hmatch]
      exact bind_of_ok (ih (.inr hnoglob)) _

theorem State.Declares.assign_list {ws : List Word} {texts : List String} (h : s.Declares o local_ name u)
    (hreadOnly : u.readOnly = false) (hws : List.Forall₂ IsField ws texts) (hplain : ws = [] ∨ o.noglob = true) :
    ∃ t, assign E { name, index := none, append := false, value := none, array := some ws } local_ s = .ok () t ∧
      t.Declares o local_ name { u with array := true, list := texts, value := "" } := by
  obtain ⟨t, ht, hdeclares⟩ := h.putVar { u with array := true, list := texts, value := "" }
  have hfields : fields E ws s = .ok texts s := fields_isField hws (h.options ▸ hplain)
  obtain ⟨value, list, array, exported, readOnly, integer⟩ := u
  obtain rfl : readOnly = false := hreadOnly
  refine ⟨t, ?_, hdeclares⟩
  exact (bind_of_ok hfields _).trans ((bind_of_ok h.target _).trans ht)

-- Declarations

theorem declareOne_of_fresh (E : Engine) (local_ : Bool) (command : String) {f : DeclFlags} {a : Assign} (hname : Text.isName a.name = true)
    (hvalue : (a.value.isSome || a.array.isSome || a.index.isSome) = true) (hfresh : s.shell.env.get? a.name = none)
    (hstatus : s.shell.status = 0) (hoptions : s.shell.options = o)
    (hassign : ∀ t : State, t.Declares o local_ a.name (prepared f a {}) →
      ∃ t', assign E a local_ t = .ok () t' ∧ t'.Declares o local_ a.name u) :
    ∃ t, declareOne E command f local_ a s = .ok () t ∧ t.Declares o local_ a.name (flagged f u) := by
  obtain ⟨s₁, hs₁, h₁⟩ := target_of_fresh hfresh hstatus hoptions local_
  obtain ⟨s₂, hs₂, h₂⟩ := h₁.putVar (prepared f a {})
  obtain ⟨s₃, hs₃, h₃⟩ := hassign s₂ h₂
  obtain ⟨s₄, hs₄, h₄⟩ := h₃.modifyVar (flagged f)
  refine ⟨s₄, ?_, h₄⟩
  have hready : (target local_ a.name >>= fun v => putVar a.name (prepared f a v)) s = .ok () s₂ := (bind_of_ok hs₁ _).trans hs₂
  have hrest : declareRest E f local_ a s₂ = .ok () s₄ := by
    refine (congrFun (if_pos hvalue) s₂).trans ?_
    rw [hs₃]
    exact hs₄
  rw [declareOne_eq, hname]
  exact (bind_of_ok hready _).trans hrest

-- The options of a declaration.

variable (v : Var)

-- The flags that they stand for.
def flagsOf : DeclFlags := { export_ := v.exported, readOnly := v.readOnly, integer := v.integer, array := v.array }

theorem read_attributes : DeclFlags.read .declare [attributes v] = .ok (flagsOf v, []) := by
  rw [attributes_eq]
  unfold letters flagsOf
  cases v.array <;> cases v.exported <;> cases v.readOnly <;> cases v.integer <;>
    simp only [Bool.false_eq_true, if_true, if_false, List.nil_append, List.append_nil, List.cons_append, reduceCtorEq] <;> rfl

theorem hasMeta_attributes : Pattern.hasMeta (attributes v).toList = false := by
  rw [toList_attributes]
  unfold letters
  cases v.array <;> cases v.exported <;> cases v.readOnly <;> cases v.integer <;> decide

theorem fields_lit {text : String} (h : Pattern.hasMeta text.toList = false) (s : State) :
    fields E [⟨[.lit text false]⟩] s = .ok [text] s := by
  have hmatch : matchAll [[⟨text, false⟩]] s = .ok [text] s := by
    rw [matchAll_plain (.inr (List.forall_mem_singleton.mpr (by simp [Fragment.hasMeta, h])))]
    simp [Fragment.plain]
  have hchoices : Brace.expand [.lit text false] = [[.lit text false]] := rfl
  have hparts : expandParts E ⟨s.shell.separators, false⟩ false [.lit text false] {} s = .ok (Fields.add {} text false) s := rfl
  have hfinish : (Fields.add {} text false).finish = [[⟨text, false⟩]] := rfl
  have hseparators : separators s = .ok s.shell.separators s := rfl
  simp only [fields, hchoices, expandChoices, pure_bind, List.append_nil, bind_pure]
  rw [bind_of_ok hseparators, bind_of_ok hparts, hfinish, hmatch]

-- What a declaration with these options leaves, given what its assignment does.
theorem runBlock_declaration {program : Program} {compiles : Bool} {rounds depth : Nat} {file : String} {a : Assign}
    (hname : Text.isName a.name = true) (hvalue : (a.value.isSome || a.array.isSome || a.index.isSome) = true)
    (hfresh : s.shell.env.get? a.name = none)
    (hassign : ∀ (E : Engine) (local_ : Bool) (t : State), t.Declares s.shell.options local_ a.name (prepared (flagsOf v) a {}) →
      ∃ t', assign E a local_ t = .ok () t' ∧ t'.Declares s.shell.options local_ a.name u) :
    ∃ t, runBlock (engine program compiles rounds (depth + 1))
        ⟨file, [.decl ⟨1, 1⟩ .declare [⟨[.lit (attributes v) false]⟩] [a] []]⟩ s = .ok () t ∧
      t.shell.env.get? a.name = some (flagged (flagsOf v) u) := by
  let E : Engine := engine program compiles rounds depth
  let local_ : Bool := s.shell.calls > 0 && !(flagsOf v).global
  obtain ⟨t, ht, hdeclares⟩ := declareOne_of_fresh E local_ "declare" hname hvalue
    (show (s.withStatus 0).shell.env.get? a.name = none from hfresh) rfl rfl (hassign E local_)
  have hdeclare : declare E .declare (flagsOf v) [a] s = .ok () t := bind_of_ok ht _
  have hwords : declareWords E .declare [⟨[.lit (attributes v) false]⟩] [a] s = .ok () t := by
    refine (bind_of_ok (fields_lit (hasMeta_attributes v) s) _).trans ?_
    rw [read_attributes]
    exact hdeclare
  have hafter : afterCommand E t = .ok () t := by
    unfold afterCommand
    rw [shell_bind, hdeclares.status]
    rfl
  have hstmt : runStmt E (.decl ⟨1, 1⟩ .declare [⟨[.lit (attributes v) false]⟩] [a] []) s = .ok () t :=
    (bind_of_ok hwords _).trans hafter
  have hrecovering : recovering (engine program compiles rounds (depth + 1))
      (runStmt E (.decl ⟨1, 1⟩ .declare [⟨[.lit (attributes v) false]⟩] [a] [])) s = .ok () t := by
    unfold recovering
    rw [hstmt]
  exact ⟨t, bind_of_ok hrecovering _, hdeclares.get⟩

end Declaring

-- What is held, and the flags.
structure Var.Same (v w : Var) : Prop where
  array : w.array = v.array
  values : w.values = v.values
  integer : w.integer = v.integer
  readOnly : w.readOnly = v.readOnly
  exported : w.exported = v.exported

-- A variable whose declaration says what it is. The elements of an array are written with their index in front, which is
-- read as a part of them; bytes that are no character are written as another one; and the value of a number is evaluated,
-- and then written as the number that it is.
structure Restorable (v : Var) : Prop where
  value : v.array = false → IsText v.value
  number : v.array = false → v.integer = true → ∃ n : Int, (n.natAbs : Int) ≤ Text.maxInt64 ∧ v.value = toString n
  list : v.array = true → v.list = []

-- The variable that the declaration of another one leaves behind, if it is compiled and runs without failing.
def redeclared? (E : Engine) (file name : String) (v : Var) (s : State) : Option Var :=
  match Program.compile file (declaration name v) with
  | .ok b =>
    match runBlock E b s with
    | .ok _ t => t.shell.env.get? name
    | .error _ _ => none
  | .error _ => none

section ReadingBack

variable {program : Program} {compiles : Bool} {rounds depth : Nat} {file name : String} {v u : Var} {a : Assign} {s : State}

theorem redeclared_eq (hname : Text.isName a.name = true) (hvalue : (a.value.isSome || a.array.isSome || a.index.isSome) = true)
    (hcompile : Program.compile file (declaration a.name v) =
      .ok ⟨file, [.decl ⟨1, 1⟩ .declare [⟨[.lit (attributes v) false]⟩] [a] []]⟩)
    (hfresh : s.shell.env.get? a.name = none)
    (hassign : ∀ (E : Engine) (local_ : Bool) (t : State), t.Declares s.shell.options local_ a.name (prepared (flagsOf v) a {}) →
      ∃ t', assign E a local_ t = .ok () t' ∧ t'.Declares s.shell.options local_ a.name u) :
    redeclared? (engine program compiles rounds (depth + 1)) file a.name v s = some (flagged (flagsOf v) u) := by
  obtain ⟨t, ht, hget⟩ := runBlock_declaration v hname hvalue hfresh hassign
  rw [redeclared?, hcompile]
  dsimp only
  rw [ht]
  exact hget

theorem redeclared_of_value (hfile : '/' ∉ file.toList) (hname : Text.isName name = true) (hfresh : s.shell.env.get? name = none)
    (harray : v.array = false) (h : Restorable v) :
    redeclared? (engine program compiles rounds (depth + 1)) file name v s =
      some (flagged (flagsOf v) { value := v.value, integer := v.integer }) := by
  obtain ⟨w, hcompile, hliteral⟩ := compile_scalar hfile hname harray (h.value harray)
  refine redeclared_eq (a := ⟨name, none, false, some w, none⟩) hname rfl hcompile hfresh fun E local_ t ht => ?_
  have hprepared : prepared (flagsOf v) ⟨name, none, false, some w, none⟩ {} = { integer := v.integer } := by
    unfold prepared flagsOf
    cases v.integer <;> simp [harray]
  rw [hprepared] at ht
  exact ht.assign_value (hliteral E t) rfl rfl (h.number harray)

theorem redeclared_of_array (hfile : '/' ∉ file.toList) (hname : Text.isName name = true) (hfresh : s.shell.env.get? name = none)
    (harray : v.array = true) (hlist : ∀ e ∈ v.list, IsText e) (hplain : v.list = [] ∨ s.shell.options.noglob = true) :
    redeclared? (engine program compiles rounds (depth + 1)) file name v s =
      some (flagged (flagsOf v) { array := true, list := indexedFrom 0 v.list, integer := v.integer }) := by
  obtain ⟨ws, hcompile, hws⟩ := compile_list hfile hname harray hlist
  have hplain : ws = [] ∨ s.shell.options.noglob = true := hplain.imp_left fun hnil => by
    rw [hnil] at hws
    cases hws
    rfl
  refine redeclared_eq (a := ⟨name, none, false, none, some ws⟩) hname rfl hcompile hfresh fun E local_ t ht => ?_
  have hprepared : prepared (flagsOf v) ⟨name, none, false, none, some ws⟩ {} =
      { array := true, list := [""], integer := v.integer } := by
    unfold prepared flagsOf
    cases v.integer <;> simp [harray]
  rw [hprepared] at ht
  exact ht.assign_list rfl hws hplain

theorem same_flagged (hinteger : u.integer = v.integer) (harray : u.array = v.array) (hvalues : u.values = v.values)
    (hreadOnly : u.readOnly = false) (hexported : u.exported = false) : v.Same (flagged (flagsOf v) u) := by
  unfold flagged flagsOf
  obtain ⟨value, list, array, exported, readOnly, integer⟩ := u
  cases hr : v.readOnly <;> cases hx : v.exported <;> constructor <;> simp_all [Var.values]

theorem indexedFrom_eq_self {vs : List String} {i : Nat} : indexedFrom i vs = vs ↔ vs = [] := by
  refine ⟨fun h => ?_, by rintro rfl; rfl⟩
  cases vs with
  | nil => rfl
  | cons v vs =>
      rw [indexedFrom_cons] at h
      have hlength := congrArg String.length (List.cons.inj h).1
      simp [indexText] at hlength

-- Read back in a shell that does not have it, a variable is what it was if its declaration says what it is. An array comes
-- back with the index of each element in front of it, so only one without elements is what it was.
theorem redeclared_variable (hfile : '/' ∉ file.toList) (hname : Text.isName name = true) (hfresh : s.shell.env.get? name = none) :
    (Restorable v → ∃ w, redeclared? (engine program compiles rounds (depth + 1)) file name v s = some w ∧ v.Same w) ∧
      (v.array = true → (∀ e ∈ v.list, IsText e) → s.shell.options.noglob = true →
        ∃ w, redeclared? (engine program compiles rounds (depth + 1)) file name v s = some w ∧
          Var.Same { v with list := indexedFrom 0 v.list } w ∧ (v.Same w ↔ v.list = [])) := by
  refine ⟨fun h => ?_, fun harray hlist hnoglob => ?_⟩
  · cases harray : v.array with
    | false =>
        refine ⟨_, redeclared_of_value hfile hname hfresh harray h, same_flagged rfl harray.symm ?_ rfl rfl⟩
        simp [Var.values, harray]
    | true =>
        have hnil := h.list harray
        refine ⟨_, redeclared_of_array hfile hname hfresh harray (by rw [hnil]; exact List.forall_mem_nil _) (.inl hnil), same_flagged rfl harray.symm ?_ rfl rfl⟩
        simp [Var.values, harray, hnil, indexedFrom]
  · have hread : redeclared? (engine program compiles rounds (depth + 1)) file name v s = _ :=
      redeclared_of_array hfile hname hfresh harray hlist (.inr hnoglob)
    have hsame : Var.Same { v with list := indexedFrom 0 v.list }
        (flagged (flagsOf v) { array := true, list := indexedFrom 0 v.list, integer := v.integer }) :=
      same_flagged (v := { v with list := indexedFrom 0 v.list }) rfl harray.symm (by simp [Var.values, harray]) rfl rfl
    refine ⟨_, hread, hsame, fun h => ?_, fun hnil => ?_⟩
    · have hvalues := hsame.values.symm.trans h.values
      simp only [Var.values, harray, if_true] at hvalues
      exact indexedFrom_eq_self.mp hvalues
    · have hkept : indexedFrom 0 v.list = v.list := indexedFrom_eq_self.mpr hnil
      rw [hkept] at hsame ⊢
      exact hsame

-- A value with a quote in it, and the attributes that can be kept together with it.
theorem redeclared_quote :
    let v : Var := { value := "it's", exported := true, readOnly := true }
    Restorable v ∧ ∃ w, redeclared? (engine { name := "", main := ⟨"", []⟩ } true 0 1) "eval" "x" v default = some w ∧ v.Same w := by
  intro v
  have htext : IsText v.value := ⟨(by decide +kernel : ∀ r ∈ Text.runes "it's", Text.mend r = r), by decide⟩
  have hrestorable : Restorable v := ⟨fun _ => htext, nofun, nofun⟩
  exact ⟨hrestorable, (redeclared_variable (s := default) (v := v) (by decide) (by decide) rfl).1 hrestorable⟩

-- An array of one element is not what it was.
theorem redeclared_array_differs :
    let v : Var := { array := true, list := ["x"] }
    let s : State := { (default : State) with shell := { (default : State).shell with options := { noglob := true } } }
    ∃ w, redeclared? (engine { name := "", main := ⟨"", []⟩ } true 0 1) "eval" "a" v s = some w ∧ w.list = ["[0]=x"] ∧
      ¬v.Same w := by
  intro v s
  have htext : IsText "x" := ⟨(by decide +kernel : ∀ r ∈ Text.runes "x", Text.mend r = r), by decide⟩
  have hlist : ∀ e ∈ v.list, IsText e := List.forall_mem_singleton.mpr htext
  refine ⟨_, redeclared_of_array (s := s) (v := v) (by decide) (by decide) rfl rfl hlist (.inr rfl), by decide, fun h => ?_⟩
  exact absurd h.values (by decide)

end ReadingBack

end Machine
end ShellScript

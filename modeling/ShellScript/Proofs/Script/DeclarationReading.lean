import ShellScript.Proofs.Script.WordText

-- The tokens of the declaration of a variable.
namespace ShellScript
namespace Token

-- A word that is no keyword.
def plainWord (w : List Char) (p : Position) (quoted : Bool) : Token :=
  { kind := .word, text := String.ofList w, pos := p, quoted }

-- The first word of a declaration, and the blank after it.
def declareWord : List Char := ['d', 'e', 'c', 'l', 'a', 'r', 'e']

-- An element of a list: what stands in front of its value, and the value in its quotes.
structure Element where
  front : List Char
  quote : Script.Quote
  body : List Char

def Element.text (e : Element) : List Char := e.front ++ e.quote.around e.body

-- The elements, each behind a blank, and the parenthesis that closes the list.
def moreText : List Element → List Char
  | [] => [')']
  | e :: es => ' ' :: (e.text ++ moreText es)

-- The elements as they stand behind the parenthesis that opens the list.
def listText : List Element → List Char
  | [] => moreText []
  | e :: es => e.text ++ moreText es

-- What follows the last word: nothing, or a list.
def listEnding : Option (List Element) → List Char
  | none => []
  | some es => '(' :: listText es

-- The tokens of all that, and where they end.

def moreTokens : Position → List Element → List Token
  | p, [] => [{ kind := .rparen, text := ")", pos := p }, { kind := .eof, text := "", pos := p.advance [')'] }]
  | p, e :: es => plainWord e.text (p.advance [' ']) e.quote.isQuoted :: moreTokens (p.advance (' ' :: e.text)) es

def listTokens (p : Position) : List Element → List Token
  | [] => moreTokens p []
  | e :: es => plainWord e.text p e.quote.isQuoted :: moreTokens (p.advance e.text) es

def moreEnd : Position → List Element → Position
  | p, [] => p.advance [')']
  | p, e :: es => moreEnd (p.advance (' ' :: e.text)) es

def listEnd (p : Position) : List Element → Position
  | [] => moreEnd p []
  | e :: es => moreEnd (p.advance e.text) es

def endTokens : Option (List Element) → Position → List Token
  | none, p => [{ kind := .eof, text := "", pos := p }]
  | some es, p => { kind := .lparen, text := "(", pos := p } :: listTokens (p.advance ['(']) es

namespace Scanner

-- Elements that are words, none of them a keyword.
def AreElements (d : Dialect) : List Element → Prop
  | [] => True
  | e :: es => IsWord d e.quote.isQuoted e.text (moreText es) ∧ isReserved (String.ofList e.text) = false ∧ AreElements d es

-- What the texts are put together from.

def morePieces : List Element → List Piece
  | [] => [.token { kind := .rparen, text := ")", pos := {} }]
  | e :: es => .blank ' ' :: .token (plainWord e.text {} e.quote.isQuoted) :: morePieces es

def listPieces : List Element → List Piece
  | [] => morePieces []
  | e :: es => .token (plainWord e.text {} e.quote.isQuoted) :: morePieces es

def endPieces : Option (List Element) → List Piece
  | none => []
  | some es => .token { kind := .lparen, text := "(", pos := {} } :: listPieces es

section Lists

variable {d : Dialect} {cmd : Bool} {p : Position} {es : List Element}

theorem IsWord.head?_append {quoted : Bool} {w rest : List Char} (h : IsWord d quoted w rest) (ds : List Char) :
    (w ++ ds).head? ≠ some '(' := by
  obtain ⟨c, cs, rfl, hc⟩ := h.head
  exact fun hparen => ne_of_head hc (by decide) (Option.some.inj hparen)

theorem fits_plainWord {quoted : Bool} {w rest : List Char} (hw : IsWord d quoted w rest)
    (hkey : (isReserved (String.ofList w) && cmd) = false) (p : Position) : Fits d cmd rest (plainWord w p quoted) := by
  have hplain : plainWord w p quoted = wordAt cmd quoted w p := by
    have hword : keywordAt cmd quoted w = false := by
      cases cmd <;> simp_all [keywordAt]
    rw [wordAt, hword]
    rfl
  rw [hplain]
  refine .word hw (fun hcmd htest => ?_) p
  rw [hcmd, htest] at hkey
  cases hkey

theorem textOf_morePieces (es : List Element) : textOf (morePieces es) = moreText es := by
  induction es with
  | nil => rfl
  | cons e es ih => simpa [textOf, morePieces, Piece.text, moreText, plainWord] using ih

theorem textOf_listPieces (es : List Element) : textOf (listPieces es) = listText es := by
  cases es with
  | nil => rfl
  | cons e es => simpa [textOf, listPieces, Piece.text, listText, plainWord] using textOf_morePieces es

theorem textOf_endPieces (es? : Option (List Element)) : textOf (endPieces es?) = listEnding es? := by
  cases es? with
  | none => rfl
  | some es => exact congrArg (List.cons '(') (textOf_listPieces es)

theorem placed_morePieces (es : List Element) (p : Position) :
    placed p (morePieces es) ++ [{ kind := .eof, text := "", pos := p.advance (moreText es) }] = moreTokens p es := by
  induction es generalizing p with
  | nil => rfl
  | cons e es ih =>
      have hmore := ih (p.advance (' ' :: e.text))
      rw [← Position.advance_append] at hmore
      have hcons : placed p (morePieces (e :: es)) =
          plainWord e.text (p.advance [' ']) e.quote.isQuoted :: placed (p.advance (' ' :: e.text)) (morePieces es) := by
        simp [morePieces, placed, plainWord, Position.advance]
      rw [hcons, moreTokens, List.cons_append]
      exact congrArg _ hmore

theorem placed_listPieces (es : List Element) (p : Position) :
    placed p (listPieces es) ++ [{ kind := .eof, text := "", pos := p.advance (listText es) }] = listTokens p es := by
  cases es with
  | nil => exact placed_morePieces [] p
  | cons e es =>
      have hmore := placed_morePieces es (p.advance e.text)
      rw [← Position.advance_append] at hmore
      have hcons : placed p (listPieces (e :: es)) = plainWord e.text p e.quote.isQuoted :: placed (p.advance e.text) (morePieces es) := by
        simp [listPieces, placed, plainWord]
      rw [hcons, listTokens, List.cons_append]
      exact congrArg _ hmore

theorem placed_endPieces (es? : Option (List Element)) (p : Position) :
    placed p (endPieces es?) ++ [{ kind := .eof, text := "", pos := p.advance (listEnding es?) }] = endTokens es? p := by
  cases es? with
  | none => rfl
  | some es => exact congrArg (List.cons _) (placed_listPieces es (p.advance ['(']))

theorem fitsAll_morePieces (h : AreElements d es) : FitsAll d cmd (morePieces es) [] := by
  induction es generalizing cmd with
  | nil => exact ⟨fits_rparen _ _, trivial⟩
  | cons e es ih =>
      obtain ⟨hword, hplain, hes⟩ := h
      rw [← textOf_morePieces, ← List.append_nil (textOf _)] at hword
      exact ⟨.inl rfl, fits_plainWord hword (by rw [hplain]; rfl) _, ih hes⟩

theorem fitsAll_listPieces (h : AreElements d es) : FitsAll d cmd (listPieces es) [] := by
  cases es with
  | nil => exact fitsAll_morePieces h
  | cons e es =>
      obtain ⟨hword, hplain, hes⟩ := h
      rw [← textOf_morePieces, ← List.append_nil (textOf _)] at hword
      exact ⟨fits_plainWord hword (by rw [hplain]; rfl) _, fitsAll_morePieces hes⟩

theorem head?_listText (hes : AreElements d es) : (listText es).head? ≠ some '(' := by
  cases es with
  | nil => exact nofun
  | cons e es => exact hes.1.head?_append _

theorem fitsAll_endPieces {es? : Option (List Element)} (h : ∀ es ∈ es?, AreElements d es) : FitsAll d cmd (endPieces es?) [] := by
  cases es? with
  | none => trivial
  | some es =>
      refine ⟨fits_lparen ?_ _, fitsAll_listPieces (h es rfl)⟩
      rw [textOf_listPieces, List.append_nil]
      exact head?_listText (h es rfl)

end Lists

end Scanner

open Scanner in
-- Each word stands behind the blank in front of it.
theorem scanText_declaration {d : Dialect} {file : String} {p p₁ p₂ : Position} {opts w : List Char} {es? : Option (List Element)}
    {quoted : Bool} (hopts : IsWord d false opts (' ' :: (w ++ listEnding es?))) (hw : IsWord d quoted w (listEnding es?))
    (hes : ∀ es ∈ es?, AreElements d es) (hp₁ : p₁ = p.advance declareWord) (hp₂ : p₂ = p₁.advance (' ' :: opts)) :
    scanText d file p (declareWord ++ ' ' :: (opts ++ ' ' :: (w ++ listEnding es?))) =
      (plainWord declareWord p false :: plainWord opts (p₁.advance [' ']) false :: plainWord w (p₂.advance [' ']) quoted ::
        endTokens es? (p₂.advance (' ' :: w)), []) := by
  subst hp₁ hp₂
  have hfirst : IsWord d false declareWord (' ' :: (opts ++ ' ' :: (w ++ listEnding es?))) :=
    isWord_solid rfl (isSolid_of_isNameChar (List.all_iff_forall_prop.mp (by decide))) (ends_cons (by decide) _) nofun
  have htext : textOf (.token (plainWord declareWord {} false) :: .blank ' ' :: .token (plainWord opts {} false) ::
      .blank ' ' :: .token (plainWord w {} quoted) :: endPieces es?) = declareWord ++ ' ' :: (opts ++ ' ' :: (w ++ listEnding es?)) := by
    simp [textOf, Piece.text, plainWord, ← textOf_endPieces]
  have hfits : FitsAll d true (.token (plainWord declareWord {} false) :: .blank ' ' :: .token (plainWord opts {} false) ::
      .blank ' ' :: .token (plainWord w {} quoted) :: endPieces es?) [] := by
    simp only [textOf, ← textOf_endPieces] at hfirst hopts hw
    refine ⟨fits_plainWord ?_ (by decide) _, .inl rfl, fits_plainWord ?_ (Bool.and_false _) _, .inl rfl,
      fits_plainWord ?_ (Bool.and_false _) _, fitsAll_endPieces hes⟩
    · simpa [textOf, Piece.text, plainWord] using hfirst
    · simpa [textOf, Piece.text, plainWord] using hopts
    · simpa [textOf] using hw
  rw [← htext, scanText_pieces hfits.found]
  have hend := placed_endPieces es? (((p.advance declareWord).advance (' ' :: opts)).advance (' ' :: w))
  rw [← hend, htext]
  simp only [placed, plainWord, Position.advance, List.foldl_append, List.foldl_cons, List.foldl_nil, String.toList_ofList, List.cons_append]

end Token
end ShellScript

-- The declaration as it is read.
namespace ShellScript
namespace Script
namespace Read

open Construct (Guarded)
open Token (Element moreTokens listTokens moreEnd listEnd endTokens)

variable {s : Setting} {nested : Nested} {v : String} {cs : List Char}

-- The front of an assignment.

variable {parts : PartsReader} {t : Token} {name value : List Char}

theorem assignHead_name (h : t.text.toList = name) (hname : ∀ c ∈ name, Text.isNameChar c = true) :
    assignHead parts t = pure none := by
  have hspan : (name ++ []).span Text.isNameChar = (name, []) := Text.span_name hname nofun
  rw [List.append_nil] at hspan
  unfold assignHead
  rw [h, hspan]
  dsimp only
  cases name with
  | nil => rfl
  | cons c cs => simp

theorem assignHead_dash {cs : List Char} (h : t.text.toList = '-' :: cs) : assignHead parts t = pure none := by
  have hspan : ('-' :: cs).span Text.isNameChar = ([], '-' :: cs) := Text.span_name (List.forall_mem_nil _) (by simp; decide)
  unfold assignHead
  rw [h, hspan]

section Turns

variable {inner : Inner} {sp : SimpleParts} {u : Token} {ts : List Token} {ds : Array Diagnostic.OfText} {pending : Nat}

-- A cursor at a word that another token follows.
theorem next_eq (hu : u.kind ≠ .comment ∧ u.kind ≠ .hereDoc) :
    (next : Scanning Unit) ⟨t :: u :: ts, pending, ds⟩ = ((), ⟨u :: ts, pending, ds⟩) := by
  have hhead : significant pending (u :: ts) = (pending, u :: ts) := by
    rw [significant]
    split
    · exact absurd ‹_› hu.1
    · exact absurd ‹_› hu.2
    · rfl
  change ((), { toks := (significant pending (u :: ts)).2, pending := (significant pending (u :: ts)).1, diags := ds : Cursor }) = _
  rw [hhead]

theorem lift_scanning {α : Type} (m : Scanning α) (c : Cursor) : (liftM m : Parse α) c = (some (m c).1, (m c).2) := rfl

theorem lift_wordOf {ps : List WordPart} (h : parts .unquoted t.pos t.text.toList = pure ps) (c : Cursor) :
    (liftM (wordOf parts t) : Parse Word) c = (some ⟨ps⟩, c) := by
  unfold wordOf
  rw [h]
  rfl

theorem lift_next (hu : u.kind ≠ .comment ∧ u.kind ≠ .hereDoc) :
    (liftM (next : Scanning Unit) : Parse Unit) ⟨t :: u :: ts, pending, ds⟩ = (some (), ⟨u :: ts, pending, ds⟩) := by
  rw [lift_scanning, next_eq hu]

theorem lift_words_pure {α : Type} (a : α) (c : Cursor) : (OptionT.lift (words (pure a)) : Parse α) c = (some a, c) := rfl

theorem assignment?_none (hhead : assignHead parts t = pure none) :
    assignment? s parts ⟨t :: ts, pending, ds⟩ = (some none, ⟨t :: ts, pending, ds⟩) := by
  unfold assignment?
  rw [cur_bind]
  dsimp only [List.headD_cons]
  rw [hhead]
  rfl

theorem isRedirection_word (h : t.kind = .word) : isRedirection t = false ∧ (t.kind == .word) = true := by
  rw [isRedirection, h]
  exact ⟨rfl, rfl⟩

theorem simpleTurn_command {ps : List WordPart} (hkind : t.kind = .word) (hquoted : t.quoted = false)
    (hdecl : declarations.contains t.text = true) (hlocal : t.text ≠ "local") (hhead : assignHead parts t = pure none)
    (hps : parts .unquoted t.pos t.text.toList = pure ps) (hu : u.kind = .word) :
    simpleTurn s parts inner {} ⟨t :: u :: ts, pending, ds⟩ =
      (some (.inl { args := [⟨ps⟩], decl := some t.text }), ⟨u :: ts, pending, ds⟩) := by
  have hlocal' : (some t.text == some "local") = false := by simpa using hlocal
  have hopen : (u.kind == .lparen) = false := by rw [hu]; rfl
  obtain ⟨hred, hword⟩ := isRedirection_word hkind
  unfold simpleTurn
  rw [cur_bind]
  simp only [List.headD_cons, hred, hword, Bool.false_eq_true, if_false, if_true, List.isEmpty_nil, Bool.true_or]
  refine (bind_some (assignment?_none hhead) _).trans ?_
  dsimp only
  refine (bind_some (lift_wordOf hps _) _).trans ((bind_some (lift_next (by rw [hu]; exact ⟨nofun, nofun⟩)) _).trans ?_)
  simp only [hquoted, hdecl, Bool.not_false, Bool.and_self, if_true, hlocal', Option.isSome_none, Bool.false_eq_true, if_false, Bool.true_and]
  rw [cur_bind]
  simp only [List.headD_cons, hopen, Bool.false_eq_true, if_false]
  rfl

theorem simpleTurn_option {ps : List WordPart} (hkind : t.kind = .word) (hdecl : sp.decl.isSome = true)
    (hhead : assignHead parts t = pure none) (hps : parts .unquoted t.pos t.text.toList = pure ps)
    (hu : u.kind = .word) : simpleTurn s parts inner sp ⟨t :: u :: ts, pending, ds⟩ =
      (some (.inl { sp with operands := (⟨ps⟩, none) :: sp.operands }), ⟨u :: ts, pending, ds⟩) := by
  obtain ⟨hred, hword⟩ := isRedirection_word hkind
  unfold simpleTurn
  rw [cur_bind]
  simp only [List.headD_cons, hred, hword, Bool.false_eq_true, if_false, if_true, hdecl, Bool.or_true]
  refine (bind_some (assignment?_none hhead) _).trans ?_
  dsimp only
  refine (bind_some (lift_wordOf hps _) _).trans ((bind_some (lift_next (by rw [hu]; decide)) _).trans ?_)
  rfl

theorem simpleTurn_assignment {ps : List WordPart} {a : Assignment} {c : Cursor} (hkind : t.kind = .word)
    (hdecl : sp.decl.isSome = true) (ha : assignment? s parts ⟨t :: ts, pending, ds⟩ = (some (some a), c))
    (hps : parts .unquoted t.pos t.text.toList = pure ps) : simpleTurn s parts inner sp ⟨t :: ts, pending, ds⟩ =
      (some (.inl { sp with operands := (⟨ps⟩, some a) :: sp.operands }), c) := by
  obtain ⟨hred, hword⟩ := isRedirection_word hkind
  unfold simpleTurn
  rw [cur_bind]
  simp only [List.headD_cons, hred, hword, Bool.false_eq_true, if_false, if_true, hdecl, Bool.or_true]
  refine (bind_some ha _).trans ?_
  exact (bind_some (lift_wordOf hps _) _).trans rfl

def assignmentOf (t : Token) (name : List Char) (value : Option Word) (array : Option ArrayExpr) : Assignment :=
  { pos := t.pos, name := String.ofList name, index := none, append := false, naked := false, value, array }

-- What stands between the name and the value.
def signOf (append : Bool) : List Char := if append then ['+', '='] else ['=']

theorem assignHead_sign {append : Bool} (htext : t.text.toList = name ++ (signOf append ++ value))
    (hname : Text.isName (String.ofList name) = true) : assignHead parts t =
      pure (some ({ assignmentOf t name none none with append }, (t.pos.advance name).advance (signOf append), value)) := by
  rw [Text.isName, String.toList_ofList] at hname
  cases name with
  | nil => cases hname
  | cons c cs =>
      obtain ⟨hc, hcs⟩ := Bool.and_eq_true_iff.mp hname
      have hall : ∀ d ∈ c :: cs, Text.isNameChar d = true :=
        List.forall_mem_cons.mpr ⟨by simp [Text.isNameChar, hc], List.all_eq_true.mp hcs⟩
      have hsign : ∀ d ∈ (signOf append ++ value).head?, Text.isNameChar d = false := by cases append <;> simp [signOf] <;> decide
      have hspan := Text.span_name hall hsign
      unfold assignHead
      rw [htext, hspan]
      cases append <;> simp [hc, assignmentOf, signOf, Position.advance]

-- The text of an assignment without a subscript, and what stands in front of its value.
structure IsAssignment (t : Token) (name value : List Char) : Prop where
  text : t.text.toList = name ++ '=' :: value
  name : Text.isName (String.ofList name) = true

theorem assignHead_equals (h : IsAssignment t name value) :
    assignHead parts t = pure (some (assignmentOf t name none none, (t.pos.advance name).step '=', value)) :=
  assignHead_sign h.text h.name

theorem assignment?_value {ps : List WordPart} (h : IsAssignment t name value) (hvalue : value ≠ [])
    (hps : parts .unquoted ((t.pos.advance name).step '=') value = pure ps) (hu : u.kind = .eof) :
    assignment? s parts ⟨t :: u :: ts, pending, ds⟩ =
      (some (some (assignmentOf t name (some ⟨ps⟩) none)), ⟨u :: ts, pending, ds⟩) := by
  have hne : (!value.isEmpty) = true := by simpa using hvalue
  unfold assignment?
  rw [cur_bind]
  simp only [List.headD_cons]
  rw [assignHead_equals h]
  refine (bind_some (lift_words_pure _ _) _).trans ?_
  dsimp only
  refine (bind_some (lift_next (by rw [hu]; exact ⟨nofun, nofun⟩)) _).trans ?_
  simp only [hne, if_true]
  rw [hps]
  rfl

-- The elements of a list.

-- The word that an element is read as.
def elementWord (p : Position) (e : Element) : Word :=
  ⟨((Gathered.addText {} p e.front).addQuote e.quote (p.advance e.front) e.body).finish⟩

def moreWords : Position → List Element → List Word
  | _, [] => []
  | p, e :: es => elementWord (p.advance [' ']) e :: moreWords (p.advance (' ' :: e.text)) es

def listWords (p : Position) : List Element → List Word
  | [] => []
  | e :: es => elementWord p e :: moreWords (p.advance e.text) es

-- The reader reads the elements.
def ReadsElements (parts : PartsReader) (es : List Element) : Prop :=
  ∀ e ∈ es, ∀ p, parts .unquoted p e.text = pure (elementWord p e).parts

theorem element?_word {e : Element} {quoted : Bool} {p start : Position} (h : parts .unquoted p e.text = pure (elementWord p e).parts)
    (hu : u.kind ≠ .comment ∧ u.kind ≠ .hereDoc) :
    element? s parts start ⟨Token.plainWord e.text p quoted :: u :: ts, pending, ds⟩ =
      (some (some (elementWord p e)), ⟨u :: ts, pending, ds⟩) := by
  have hskip : (liftM skipNewlines : Parse Unit) ⟨Token.plainWord e.text p quoted :: u :: ts, pending, ds⟩ =
      (some (), ⟨Token.plainWord e.text p quoted :: u :: ts, pending, ds⟩) := rfl
  have hword : parts .unquoted (Token.plainWord e.text p quoted).pos (Token.plainWord e.text p quoted).text.toList =
      pure (elementWord p e).parts := by
    rw [show (Token.plainWord e.text p quoted).text.toList = e.text from String.toList_ofList]
    exact h
  unfold element?
  refine (bind_some hskip _).trans ?_
  rw [cur_bind]
  exact (bind_some (lift_wordOf hword _) _).trans ((bind_some (lift_next hu) _).trans rfl)

theorem element?_close (start p : Position) :
    element? s parts start ⟨moreTokens p [], pending, ds⟩ = (some none, ⟨[{ kind := .eof, text := "", pos := moreEnd p [] }], pending, ds⟩) := by
  unfold element?
  exact (bind_some (m := (liftM skipNewlines : Parse Unit)) rfl _).trans rfl

theorem head_moreTokens (p : Position) (es : List Element) :
    ∃ u ts, moreTokens p es = u :: ts ∧ u.kind ≠ .comment ∧ u.kind ≠ .hereDoc := by
  cases es <;> exact ⟨_, _, rfl, nofun, nofun⟩

theorem listFor_more {es : List Element} (h : ReadsElements parts es) (start p : Position) {n : Nat} (hn : es.length < n) :
    listFor (element? s parts start) n ⟨moreTokens p es, pending, ds⟩ =
      (some (moreWords p es), ⟨[{ kind := .eof, text := "", pos := moreEnd p es }], pending, ds⟩) := by
  induction es generalizing n p with
  | nil =>
      obtain ⟨n, rfl⟩ := Nat.exists_eq_succ_of_ne_zero (Nat.ne_of_gt hn)
      exact (bind_some (element?_close start p) _).trans rfl
  | cons e es ih =>
      obtain ⟨n, rfl⟩ := Nat.exists_eq_succ_of_ne_zero (Nat.ne_of_gt (Nat.zero_lt_of_lt hn))
      obtain ⟨he, hes⟩ := List.forall_mem_cons.mp h
      obtain ⟨u, ts, hmore, hu⟩ := head_moreTokens (p.advance (' ' :: e.text)) es
      have hrest := ih hes (p.advance (' ' :: e.text)) (Nat.lt_of_succ_lt_succ hn)
      rw [hmore] at hrest
      rw [moreTokens, hmore]
      exact (bind_some (element?_word (he _) hu) _).trans ((bind_some hrest _).trans rfl)

theorem many_list {es : List Element} (h : ReadsElements parts es) (start p : Position) :
    many (element? s parts start) ⟨listTokens p es, pending, ds⟩ =
      (some (listWords p es), ⟨[{ kind := .eof, text := "", pos := listEnd p es }], pending, ds⟩) := by
  have hlength (p : Position) (es : List Element) : (moreTokens p es).length = es.length + 2 := by
    induction es generalizing p with
    | nil => rfl
    | cons e es ih => rw [moreTokens, List.length_cons, List.length_cons, ih]
  have hleft (ts : List Token) : (liftM left : Parse Nat) ⟨ts, pending, ds⟩ = (some (ts.length + 1), ⟨ts, pending, ds⟩) := rfl
  unfold many
  refine (bind_some (hleft _) _).trans ?_
  cases es with
  | nil => exact listFor_more h start p (Nat.succ_pos _)
  | cons e es =>
      obtain ⟨he, hes⟩ := List.forall_mem_cons.mp h
      obtain ⟨u, ts, hmore, hu⟩ := head_moreTokens (p.advance e.text) es
      have hroom : es.length < (listTokens p (e :: es)).length := by
        rw [listTokens, List.length_cons, hlength]
        omega
      have hrest : listFor (element? s parts start) _ ⟨moreTokens (p.advance e.text) es, pending, ds⟩ = _ :=
        listFor_more hes start (p.advance e.text) hroom
      rw [hmore] at hrest
      rw [listTokens, hmore] at hrest ⊢
      exact (bind_some (element?_word (he _) hu) _).trans ((bind_some hrest _).trans rfl)

theorem assignment?_list {es : List Element} (h : IsAssignment t name []) (hd : s.dialect.supports .arrays = true)
    (hes : ReadsElements parts es) {q : Position} (hq : q.offset = t.pos.offset + t.text.length) :
    assignment? s parts ⟨t :: endTokens (some es) q, pending, ds⟩ =
      (some (some (assignmentOf t name none (some { pos := q, elems := listWords (q.advance ['(']) es }))),
        ⟨[{ kind := .eof, text := "", pos := listEnd (q.advance ['(']) es }], pending, ds⟩) := by
  have hwarn (c : Cursor) : (liftM (warn s .arrays q) : Parse Unit) c = (some (), c) := by
    unfold warn Setting.missing?
    rw [hd]
    rfl
  have hopen : (q.offset == t.pos.offset + t.text.length) = true := by rw [hq]; exact beq_self_eq_true _
  have hnext : (liftM (next : Scanning Unit) : Parse Unit) ⟨t :: endTokens (some es) q, pending, ds⟩ =
      (some (), ⟨endTokens (some es) q, pending, ds⟩) := lift_next ⟨nofun, nofun⟩
  have hnext' : (liftM (next : Scanning Unit) : Parse Unit) ⟨endTokens (some es) q, pending, ds⟩ =
      (some (), ⟨listTokens (q.advance ['(']) es, pending, ds⟩) := by
    obtain ⟨u, ts, hlist, hu⟩ : ∃ u ts, listTokens (q.advance ['(']) es = u :: ts ∧ u.kind ≠ .comment ∧ u.kind ≠ .hereDoc := by
      cases es <;> exact ⟨_, _, rfl, nofun, nofun⟩
    rw [endTokens, hlist]
    exact lift_next hu
  unfold assignment?
  rw [cur_bind]
  simp only [List.headD_cons]
  rw [assignHead_equals h]
  refine (bind_some (lift_words_pure _ _) _).trans ((bind_some hnext _).trans ?_)
  simp only [List.isEmpty_nil, Bool.not_true, Bool.false_eq_true, if_false]
  rw [cur_bind]
  refine (congrFun (if_pos hopen) _).trans ((bind_some (hwarn _) _).trans ((bind_some hnext' _).trans ?_))
  exact (bind_some (many_list hes q _) _).trans rfl

theorem simpleTurn_end {variant : String} {args : Word} (hkind : t.kind = .eof) (hdecl : sp.decl = some variant)
    (hargs : sp.args = [args]) :
    simpleTurn s parts inner sp ⟨t :: ts, pending, ds⟩ =
      (do return .inr (← declaration s sp variant) : Parse (SimpleParts ⊕ Command)) ⟨t :: ts, pending, ds⟩ := by
  have hred : isRedirection t = false := by rw [isRedirection, hkind]; rfl
  have hword : (t.kind == .word) = false := by rw [hkind]; rfl
  unfold simpleTurn
  rw [cur_bind]
  simp only [List.headD_cons, hred, hword, Bool.false_eq_true, if_false, hargs, List.isEmpty_cons, Bool.false_and, hdecl]

theorem declaration_eq {variant : String} {o w : Word} {a : Assignment} {p : Position} {opts : String} {command : List Char}
    (hsp : sp = { args := [⟨[.lit p (String.ofList command)]⟩], decl := some variant, operands := [(w, some a), (o, none)] })
    (hcommand : ∀ c ∈ command, Text.isNameChar c = true)
    (hlit : o.lit? = some opts) (hdash : Text.hasPrefix opts "-" = true) (hassoc : opts.toList.contains 'A' = false) (c : Cursor) :
    declaration s sp variant c = (some (.declare p (String.ofList command) [o] [a] []), c) := by
  have hname : Word.lit? ⟨[.lit p (String.ofList command)]⟩ = some (String.ofList command) := by
    refine if_neg ?_
    rw [String.toList_ofList, Bool.not_eq_true, List.any_eq_false]
    intro d hd
    have hne (x : Char) (hx : Text.isNameChar x = false) : d ≠ x := Token.Scanner.ne_of_isNameChar (hcommand d hd) hx
    simp [hne '\\' (by decide), hne '*' (by decide), hne '?' (by decide), hne '[' (by decide)]
  have hoperands : declareOperands s [(o, none), (w, some a)] [] [] true c = (([o], [a], true), c) := by
    rw [declareOperands, hlit]
    simp only [hdash, hassoc, Bool.true_or, Bool.true_and, List.isEmpty_nil, if_true, Bool.false_eq_true, if_false]
    rfl
  have hlift : (liftM (declareOperands s [(o, none), (w, some a)] [] [] true) : Parse (List Word × List Assignment × Bool)) c =
      (some ([o], [a], true), c) := by
    rw [lift_scanning, hoperands]
  subst hsp
  unfold declaration
  refine (bind_some hlift _).trans ?_
  simp only [if_true, List.getLast?_singleton, hname, Option.getD_some]
  rfl

theorem simpleFor_inl {n : Nat} {sp sp' : SimpleParts} {c c' : Cursor} (h : simpleTurn s parts inner sp c = (some (.inl sp'), c')) :
    simpleFor s parts inner (n + 1) sp c = simpleFor s parts inner n sp' c' := by
  rw [simpleFor]
  exact bind_some h _

theorem simpleFor_inr {n : Nat} {x : Command} {c c' : Cursor} (h : simpleTurn s parts inner sp c = (some (.inr x), c')) :
    simpleFor s parts inner (n + 1) sp c = (some x, c') := by
  rw [simpleFor]
  exact (bind_some h _).trans rfl

end Turns

-- The word under the cursor, and the readers of all that is nested in it.
section Command

variable {opts w : List Char} {p p₁ p₂ : Position} {k : Nat}

theorem parts_plain (h : Guarded (literalMarks .unquoted) cs) (hne : cs ≠ []) (p : Position) :
    Read.parts s nested .unquoted p cs = pure [.lit p (String.ofList cs)] := by
  have hn : (cs ++ []).length < cs.length + 1 := by simp
  obtain ⟨m, first, -, hparts⟩ : ∃ m first, _ ∧ partsFrom s nested .unquoted (cs.length + 1) true {} p (cs ++ []) = _ :=
    partsFrom_guarded h [] hn true {} p
  rw [List.append_nil] at hparts
  rw [Read.parts, hparts, partsFrom_nil]
  simp [Gathered.addText, Gathered.addLit, Gathered.finish, Gathered.flush, hne]

-- A block of one command that begins with a word, and with which the text ends.
theorem block_of_simple {x : Script.Command} {ts : List Token} {q : Position} {inner : Inner}
    (h : simpleCommand s parts inner ⟨Token.plainWord w p false :: ts, 0, #[]⟩ = (some x, atEnd q)) :
    block s (command s parts inner) (fun _ => false) ⟨Token.plainWord w p false :: ts, 0, #[]⟩ = ({ start := p, items := [x] }, atEnd q) := by
  have hcommand : command s parts inner ⟨Token.plainWord w p false :: ts, 0, #[]⟩ = (some x, atEnd q) := by
    unfold command
    exact h
  have hpipeline : pipeline (command s parts inner) ⟨Token.plainWord w p false :: ts, 0, #[]⟩ = (some x, atEnd q) :=
    (bind_some hcommand _).trans rfl
  have handOr : andOr (command s parts inner) ⟨Token.plainWord w p false :: ts, 0, #[]⟩ = (some x, atEnd q) :=
    (bind_some hpipeline _).trans rfl
  have hitem : item? s (command s parts inner) (fun _ => false) ⟨Token.plainWord w p false :: ts, 0, #[]⟩ =
      (some (some x), atEnd q) := by
    unfold item?
    refine (bind_of_read (m := skipNewlines) rfl _).trans ?_
    refine (bind_of_read (m := cur) rfl _).trans ?_
    exact (bind_of_read (m := (andOr _).run) handOr _).trans rfl
  unfold block
  have hitems (n : Nat) : listFor (item? s (command s parts inner) fun _ => false) (n + 2) ⟨Token.plainWord w p false :: ts, 0, #[]⟩ =
      ([some x], atEnd q) := (bind_of_read hitem _).trans rfl
  refine (bind_of_read (m := cur) rfl _).trans ?_
  refine (bind_of_read (m := left) rfl _).trans ?_
  exact (bind_of_read (hitems _) _).trans rfl

theorem parts_around {q : Quote} {front : List Char} (hd : s.dialect.supports .ansiQuote = true) (h : q.Holds v cs)
    (hfront : Guarded (literalMarks .unquoted) front) (k : Nat) (p : Position) :
    Read.parts s (Read.nested s (k + 1)) .unquoted p (front ++ q.around cs) =
      pure ((Gathered.addText {} p front).addQuote q (p.advance front) cs).finish := by
  obtain ⟨m, first, hm, hparts⟩ := partsFrom_guarded (s := s) hfront (q.around cs) (Nat.lt_succ_self _) true {} p
  exact hparts.trans (partsFrom_around h hd hm k first _ _)

-- The options of a declaration: letters behind a dash.
structure AreOptions (opts : List Char) : Prop where
  dash : ∃ cs, opts = '-' :: cs
  plain : ∀ c ∈ opts, c ∈ ['-', 'a', 'i', 'r', 'x']

theorem AreOptions.guarded (h : AreOptions opts) : Guarded (literalMarks .unquoted) opts := by
  have hplain : ∀ c ∈ ['-', 'a', 'i', 'r', 'x'], c ∉ literalMarks .unquoted := List.all_iff_forall_prop.mp (by decide)
  exact .of_plain fun c hc => hplain c (h.plain c hc)

theorem simpleCommand_declaration {inner : Inner} {quoted : Bool} {es? : Option (List Element)} {a : Assignment} {ps : List WordPart} {q q' : Position}
    (hopts : AreOptions opts)
    (ha : assignment? s (Read.parts s nested) ⟨Token.plainWord w p₂ quoted :: endTokens es? q, 0, #[]⟩ =
      (some (some a), atEnd q'))
    (hps : Read.parts s nested .unquoted p₂ w = pure ps) :
    simpleCommand s (Read.parts s nested) inner ⟨Token.plainWord Token.declareWord p false :: Token.plainWord opts p₁ false ::
        Token.plainWord w p₂ quoted :: endTokens es? q, 0, #[]⟩ =
      (some (.declare p (String.ofList Token.declareWord) [⟨[.lit p₁ (String.ofList opts)]⟩] [a] []), atEnd q') := by
  obtain ⟨cs, hcs⟩ := hopts.dash
  have htext (cs : List Char) (p : Position) (quoted : Bool) : (Token.plainWord cs p quoted).text.toList = cs := String.toList_ofList
  have hname : ∀ c ∈ Token.declareWord, Text.isNameChar c = true := List.all_iff_forall_prop.mp (by decide)
  have hcommand : Guarded (literalMarks .unquoted) Token.declareWord := by
    have hplain : ∀ c ∈ Token.declareWord, c ∉ literalMarks .unquoted := List.all_iff_forall_prop.mp (by decide)
    exact .of_plain hplain
  have hletters : ∀ c ∈ ['-', 'a', 'i', 'r', 'x'], c ∉ ['\\', '*', '?', '['] ∧ c ≠ 'A' := List.all_iff_forall_prop.mp (by decide)
  have hlit : Word.lit? ⟨[.lit p₁ (String.ofList opts)]⟩ = some (String.ofList opts) := by
    refine if_neg ?_
    rw [String.toList_ofList, Bool.not_eq_true, List.any_eq_false]
    intro c hc
    simpa [and_assoc] using (hletters c (hopts.plain c hc)).1
  have hassoc : (String.ofList opts).toList.contains 'A' = false := by
    rw [String.toList_ofList, List.contains_eq_mem, decide_eq_false_iff_not]
    exact fun hmem => (hletters _ (hopts.plain _ hmem)).2 rfl
  have hdash : Text.hasPrefix (String.ofList opts) "-" = true := by
    simp [Text.hasPrefix, hcs]
  have hdeclares : declarations.contains (String.ofList Token.declareWord) = true := by decide
  have hlocal : String.ofList Token.declareWord ≠ "local" := by decide
  have hfirst : simpleTurn s (Read.parts s nested) inner {} ⟨Token.plainWord Token.declareWord p false :: Token.plainWord opts p₁ false ::
        Token.plainWord w p₂ quoted :: endTokens es? q, 0, #[]⟩ =
      (some (.inl { args := [⟨[.lit p (String.ofList Token.declareWord)]⟩], decl := some (String.ofList Token.declareWord) }),
        ⟨Token.plainWord opts p₁ false :: Token.plainWord w p₂ quoted :: endTokens es? q, 0, #[]⟩) :=
    simpleTurn_command rfl rfl hdeclares hlocal (assignHead_name (htext _ p false) hname)
      ((htext Token.declareWord p false).symm ▸ parts_plain hcommand (by decide) p) rfl
  have hsecond : simpleTurn s (Read.parts s nested) inner
        { args := [⟨[.lit p (String.ofList Token.declareWord)]⟩], decl := some (String.ofList Token.declareWord) }
        ⟨Token.plainWord opts p₁ false :: Token.plainWord w p₂ quoted :: endTokens es? q, 0, #[]⟩ =
      (some (.inl { args := [⟨[.lit p (String.ofList Token.declareWord)]⟩], decl := some (String.ofList Token.declareWord),
                    operands := [(⟨[.lit p₁ (String.ofList opts)]⟩, none)] }),
        ⟨Token.plainWord w p₂ quoted :: endTokens es? q, 0, #[]⟩) :=
    simpleTurn_option rfl rfl (assignHead_dash ((htext opts p₁ false).trans hcs))
      ((htext opts p₁ false).symm ▸ parts_plain hopts.guarded (by rw [hcs]; exact List.cons_ne_nil _ _) p₁) rfl
  have hthird : simpleTurn s (Read.parts s nested) inner
        { args := [⟨[.lit p (String.ofList Token.declareWord)]⟩], decl := some (String.ofList Token.declareWord),
          operands := [(⟨[.lit p₁ (String.ofList opts)]⟩, none)] }
        ⟨Token.plainWord w p₂ quoted :: endTokens es? q, 0, #[]⟩ =
      (some (.inl { args := [⟨[.lit p (String.ofList Token.declareWord)]⟩], decl := some (String.ofList Token.declareWord),
                    operands := [(⟨ps⟩, some a), (⟨[.lit p₁ (String.ofList opts)]⟩, none)] }), atEnd q') :=
    simpleTurn_assignment rfl rfl ha ((htext w p₂ quoted).symm ▸ hps)
  have hlast : simpleTurn s (Read.parts s nested) inner
        { args := [⟨[.lit p (String.ofList Token.declareWord)]⟩], decl := some (String.ofList Token.declareWord),
          operands := [(⟨ps⟩, some a), (⟨[.lit p₁ (String.ofList opts)]⟩, none)] } (atEnd q') =
      (some (.inr (.declare p (String.ofList Token.declareWord) [⟨[.lit p₁ (String.ofList opts)]⟩] [a] [])), atEnd q') := by
    refine (simpleTurn_end rfl rfl rfl).trans ?_
    exact (bind_some (declaration_eq rfl hname hlit hdash hassoc _) _).trans rfl
  have hall (n : Nat) : simpleFor s (Read.parts s nested) inner (n + 4) {} ⟨Token.plainWord Token.declareWord p false ::
        Token.plainWord opts p₁ false :: Token.plainWord w p₂ quoted :: endTokens es? q, 0, #[]⟩ =
      (some (.declare p (String.ofList Token.declareWord) [⟨[.lit p₁ (String.ofList opts)]⟩] [a] []), atEnd q') := by
    rw [simpleFor_inl hfirst, simpleFor_inl hsecond, simpleFor_inl hthird, simpleFor_inr hlast]
  unfold simpleCommand
  exact (bind_some (lift_scanning left _) _).trans (hall _)

-- What a whole text is read as whose tokens are those of a declaration.
theorem textAt_declaration {text : List Char} {quoted : Bool} {es? : Option (List Element)} {a : Assignment} {ps : List WordPart} {q q' : Position}
    (hopts : AreOptions opts)
    (hscan : Token.scanText s.dialect s.file p text = (Token.plainWord Token.declareWord p false :: Token.plainWord opts p₁ false ::
      Token.plainWord w p₂ quoted :: endTokens es? q, []))
    (ha : assignment? s (Read.parts s nested) ⟨Token.plainWord w p₂ quoted :: endTokens es? q, 0, #[]⟩ =
      (some (some a), atEnd q'))
    (hps : Read.parts s nested .unquoted p₂ w = pure ps) :
    textAt s (Read.parts s nested) p text = ({ start := p, items :=
      [.declare p (String.ofList Token.declareWord) [⟨[.lit p₁ (String.ofList opts)]⟩] [a] []] }, []) := by
  have hblock (n : Nat) : ((Read.inner s (Read.parts s nested) (n + 1)).block fun _ => false).run
      ⟨Token.plainWord Token.declareWord p false :: Token.plainWord opts p₁ false ::
        Token.plainWord w p₂ quoted :: endTokens es? q, 0, #[]⟩ = _ :=
    block_of_simple (simpleCommand_declaration hopts ha hps)
  have hsettle : settle [] = [] := by simp [settle, Text.compact]
  have hsignificant : significant 0 (Token.plainWord Token.declareWord p false :: Token.plainWord opts p₁ false ::
      Token.plainWord w p₂ quoted :: endTokens es? q) = (0, Token.plainWord Token.declareWord p false ::
      Token.plainWord opts p₁ false :: Token.plainWord w p₂ quoted :: endTokens es? q) := rfl
  rw [textAt, hscan]
  dsimp only
  rw [hsignificant]
  dsimp only
  rw [hblock]
  exact congrArg (Prod.mk _) hsettle

end Command

end Read
end Script
end ShellScript

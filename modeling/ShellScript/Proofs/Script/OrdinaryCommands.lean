import ShellScript.Proofs.Script.CommandLists

-- Which commands are ordinary, and how each of them is written and read.
namespace ShellScript
namespace Script

open Token (Piece Spells textOf)
open Token.Scanner (Fits FitsAll IsSolid opensAfter fitsAll_append opensAfter_append startsWord)

namespace Read

def keywordToken (w : String) (p : Position) : Token := { kind := .word, text := w, pos := p, keyword := true }

theorem isKeyword_keywordToken (names : List String) (w : String) (p : Position) :
    isKeyword names (keywordToken w p) = names.contains w := rfl

section Keywords

variable {d : Dialect} {s : Setting} {parts : PartsReader} {inner : Inner} {t u : Token} {ts us : List Token} {w : String} {p : Position}
variable {c : Command} {open_ : Bool} {cs : List Command} {stop : Token → Bool}

theorem reads_expect {construct : String} {start : Position} (hus : us ≠ []) :
    Obtains (expect s w construct start) (keywordToken w p :: us) fun _ vs => vs = us :=
  .cur (.ite_true (by simp [isKeyword_keywordToken]) (.lift (.next hus rfl)))

theorem listEnd_keyword {names : List String} (hnames : ∀ w ∈ names, w ∉ opening) (hu : isKeyword names u = true) :
    ListEnd (isKeyword names) false u where
  begins t ht := by
    rw [isKeyword, Bool.eq_false_iff]
    simp only [Bool.and_eq_true, beq_iff_eq, List.contains_eq_mem, decide_eq_true_eq, ne_eq]
    rintro ⟨⟨hkind, hkey⟩, hmem⟩
    exact hnames _ hmem (ht.keyword hkind hkey)
  stop := .inr hu
  newline := by
    intro hkind
    rw [isKeyword, hkind] at hu
    cases hu
  closing := nofun

-- The list inside a compound command.
theorem does_inner {b : Block} (hlist : ListedAt open_ b.items ts) (hparts : ReadsWords parts) {n : Nat} (hn : ts.length < n) (h : ListEnd stop open_ u) :
    Does ((Read.inner s parts n).block stop) (ts ++ u :: us) fun b' vs => b'.describe = b.describe ∧ vs = u :: us := by
  obtain ⟨n, rfl⟩ := Nat.exists_eq_succ_of_ne_zero (Nat.ne_of_gt (Nat.zero_lt_of_lt hn))
  obtain ⟨p, cs⟩ := b
  exact (hlist s parts n hparts (Nat.le_of_lt_succ hn)).does_block h p

-- What is read as a compound command may be followed by redirections.
theorem readsCompound {m : Parse Command} (hparts : ReadsWords parts)
    (hcommand : ∀ us Q, Obtains (m >>= withRedirects s parts) (ts ++ us) Q → Obtains (command s parts inner) (ts ++ us) Q)
    (hm : ∀ us, us ≠ [] → Obtains m (ts ++ us) fun c' vs => c'.describe = c.describe ∧ vs = us) :
    ReadsCompound d (command s parts inner) ts c := by
  intro rs rss us hrs hus
  obtain ⟨u, us, rfl, hu⟩ := hus
  refine hcommand _ _ (.bind ((hm _ (by simp)).mono ?_))
  rintro c' _ ⟨hsame, rfl⟩
  refine .bind ((reads_redirects hparts hrs (not_word_of_closing hu).2.2).mono ?_)
  rintro rs' _ ⟨hrs', rfl⟩
  have hdescribe : describeRedirects rs' = describeRedirects rs := by
    clear hrs
    induction hrs' with
    | nil => rfl
    | cons hr _ ih => rw [describeRedirects, describeRedirects, hr, ih]
  refine .pure ⟨?_, rfl⟩
  cases hrs' with
  | nil => exact hsame
  | cons _ _ =>
      simp only [List.isEmpty_cons, Bool.false_eq_true, if_false, Command.describe]
      rw [hsame, hdescribe]

theorem staged_keyword (hw : w ∈ opening ∧ w ≠ "!") : Staged (keywordToken w p :: ts) := by
  refine ⟨_, _, rfl, ⟨.inl rfl, fun _ _ => hw.1, fun _ _ _ => rfl⟩, ?_⟩
  simpa [isKeyword_keywordToken] using hw.2

end Keywords

end Read

open Read (Level ListedAt keywordToken ReadsWords Obtains)

def keywordPiece (w : String) : Piece := .token (keywordToken w {})

-- The words that are no words of commands.
def keywords : List String :=
  ["if", "then", "elif", "else", "fi", "while", "until", "do", "done", "for", "case", "esac", "\x7b", "\x7d", "!"]

section Clauses

variable {d : Dialect} {ℓ : Layout} {w v : String} {cond body b : Block} {L M : List Piece} {rest : List Char} {ts : List Token}

theorem fits_keyword (hw : w ∈ keywords) (hrest : Closes rest) : Fits d true rest (keywordToken w {}) := by
  have hall : ∀ w ∈ keywords, Token.Scanner.keywordAt true false w.toList = true ∧ w ≠ "[[" ∧
      (w.toList.head?.any startsWord) = true ∧ (w.toList.all fun c => !Text.isMeta c && !Token.Scanner.wordMarks.contains c) = true := by
    decide
  obtain ⟨hkey, htest, hhead, hsolid⟩ := hall w hw
  obtain ⟨c, cs, hcons⟩ : ∃ c cs, w.toList = c :: cs := by
    cases hlist : w.toList with
    | nil => simp [hlist] at hhead
    | cons c cs => exact ⟨c, cs, rfl⟩
  have hsolid : IsSolid w.toList := by
    intro c hc
    simpa using List.all_eq_true.mp hsolid c hc
  rw [hcons] at hsolid hhead
  have hword := Token.Scanner.isWord_solid (d := d) (by simpa using hhead) hsolid hrest.ends (fun hparen => absurd hparen hrest.head?_ne)
  have hfits : Fits d true rest (Token.Scanner.wordAt true false (c :: cs) {}) :=
    .word hword (fun _ => by rw [← hcons, String.ofList_toList]; exact htest) {}
  rw [Token.Scanner.wordAt, ← hcons, hkey, String.ofList_toList] at hfits
  exact hfits

theorem fitsAll_keyword (hw : w ∈ keywords) (hclose : Closes (textOf L ++ rest)) (hL : FitsAll d (Token.opensCommand w) L rest) :
    FitsAll d true (keywordPiece w :: L) rest := ⟨fits_keyword hw hclose, hL⟩

theorem spells_keyword (hts : Spells (keywordPiece w :: L) ts) : ∃ p us, ts = keywordToken w p :: us ∧ Spells L us :=
  Token.spells_token.mp hts

-- The commands of the block can be written at any place.
def Writable (d : Dialect) (b : Block) : Prop := ∀ ℓ, ∀ c ∈ b.items, ∃ L, c.foreground.Spelled d ℓ .chain L

-- A condition ends with a command that does not run in the background: a separator follows it.
def Block.IsCondition (b : Block) : Prop := ∃ c ∈ b.items.getLast?, c.isBackground = false

-- A condition between two keywords, and the block behind it.
def Clause (w v : String) (cond body : Block) (ts : List Token) : Prop :=
  ∃ p q us vs, ts = keywordToken w p :: (us ++ keywordToken v q :: vs) ∧ ListedAt false cond.items us ∧ ListedAt false body.items vs

structure ClauseSpelled (d : Dialect) (ℓ : Layout) (w v : String) (cond body : Block) (L : List Piece) : Prop where
  prints : Prints ℓ (do Printer.str (w ++ " "); cond.printInlineList; Printer.str ("; " ++ v); body.printBody) L
  fits : ∀ rest, FitsAll d true L rest
  opens : opensAfter true L = true
  reads : ∀ ts, Spells L ts → Clause w v cond body ts

theorem exists_clauseSpelled (hw : w ∈ keywords ∧ Token.opensCommand w = true) (hv : v ∈ keywords ∧ Token.opensCommand v = true)
    (hcond : Writable d cond) (hplain : cond.IsCondition) (hbody : Writable d body) (ℓ : Layout) :
    ∃ L, ClauseSpelled d ℓ w v cond body L := by
  obtain ⟨p, cs⟩ := cond
  obtain ⟨c, hc, hplain⟩ := hplain
  have hne : cs ≠ [] := by
    rintro rfl
    cases hc
  have hsep : sepPieces c = [operatorPiece .semi, .blank ' '] := by rw [sepPieces, hplain, if_neg Bool.false_ne_true]
  obtain ⟨L, hL⟩ := exists_inlineSpelled hne (hcond { ℓ with inline := ℓ.inline + 1 })
  obtain ⟨M, hM⟩ := exists_bodySpelled hbody ℓ
  have hends := hL.ends c hc
  have hfits (rest : List Char) : FitsAll d true (keywordPiece v :: M) rest := by
    refine fitsAll_keyword hv.1 (hM.closes rest) ?_
    rw [hv.2]
    exact hM.fits rest
  have hopens : opensAfter true (keywordPiece v :: M) = true := by
    change opensAfter (Token.opensCommand v) M = true
    rw [hv.2]
    exact hM.opens
  refine ⟨keywordPiece w :: .blank ' ' :: ((L ++ sepPieces c) ++ keywordPiece v :: M), ?_, fun rest => ?_, ?_, fun ts hts => ?_⟩
  · have hfront : (w ++ " ").toList = textOf [keywordPiece w, .blank ' '] := by simp [textOf, keywordPiece, Piece.text, keywordToken]
    have hmid : ("; " ++ v).toList = textOf (sepPieces c ++ [keywordPiece v]) := by
      rw [hsep]
      simp [textOf, keywordPiece, Piece.text, keywordToken, operatorPiece, Token.Kind.text]
    have hprints := (prints_str (ℓ := ℓ) hfront).bind (hL.prints.inlined.bind ((prints_str hmid).bind hM.prints))
    simpa [Block.printInlineList] using hprints
  · refine fitsAll_keyword hw.1 (closes_cons (.inl rfl) _) ⟨.inl rfl, ?_⟩
    rw [hw.2]
    refine fitsAll_append.mpr ⟨(hends _).1, ?_⟩
    rw [(hends []).2]
    exact hfits rest
  · change opensAfter (Token.opensCommand w) _ = true
    rw [hw.2]
    change opensAfter true ((L ++ sepPieces c) ++ keywordPiece v :: M) = true
    rw [opensAfter_append, (hends []).2]
    exact hopens
  · obtain ⟨p, us, rfl, hus⟩ := spells_keyword hts
    obtain ⟨us, vs, rfl, hcond, hvs⟩ := Token.spells_append.mp ((Token.spells_blank _).mp hus)
    obtain ⟨q, vs, rfl, hbody⟩ := spells_keyword hvs
    exact ⟨p, q, us, vs, rfl, hL.closed c hc us hcond, hM.reads vs hbody⟩

-- A body between two keywords.
theorem BodySpelled.fits_enclosed (h : BodySpelled d ℓ body L) (hw : w ∈ keywords ∧ Token.opensCommand w = true) (hv : v ∈ keywords)
    (hrest : Closes rest) : FitsAll d true (keywordPiece w :: (L ++ [keywordPiece v])) rest := by
  refine fitsAll_keyword hw.1 ?_ ?_
  · rw [Token.textOf_append, List.append_assoc]
    exact h.closes _
  · rw [hw.2]
    refine fitsAll_append.mpr ⟨h.fits _, ?_⟩
    rw [h.opens]
    exact fitsAll_keyword hv hrest trivial

theorem BodySpelled.reads_enclosed (h : BodySpelled d ℓ body L) (hts : Spells (keywordPiece w :: (L ++ [keywordPiece v])) ts) :
    ∃ p us q, ts = keywordToken w p :: (us ++ [keywordToken v q]) ∧ ListedAt false body.items us := by
  obtain ⟨p, us, rfl, hus⟩ := spells_keyword hts
  obtain ⟨us, vs, rfl, hlist, hend⟩ := Token.spells_append.mp hus
  obtain ⟨q, vs, rfl, hnil⟩ := spells_keyword hend
  obtain rfl := Token.spells_nil.mp hnil
  exact ⟨p, us, q, rfl, h.reads us hlist⟩

end Clauses

namespace Read

section Compounds

variable {s : Setting} {parts : PartsReader} {ts us vs : List Token} {cond body : Block} {n : Nat}

theorem reads_loopBody (hparts : ReadsWords parts) {construct : String} {start p q : Position} (hlist : ListedAt false body.items vs) (hn : vs.length < n)
    (hus : us ≠ []) : Obtains (loopBody s (inner s parts n) construct start) (keywordToken "do" p :: (vs ++ keywordToken "done" q :: us))
      fun b ws => b.describe = body.describe ∧ ws = us := by
  refine .bind ((reads_expect (by simp)).mono ?_)
  rintro _ _ rfl
  refine .step ((does_inner hlist hparts hn (listEnd_keyword (by decide) rfl)).mono ?_)
  rintro b _ ⟨hsame, rfl⟩
  refine .bind ((reads_expect hus).mono ?_)
  rintro _ _ rfl
  exact .pure ⟨hsame, rfl⟩

theorem reads_whileClause (hparts : ReadsWords parts) {w : String} {p q r : Position} (hcond : ListedAt false cond.items us)
    (hbody : ListedAt false body.items vs) (hn : us.length < n ∧ vs.length < n) {rest : List Token} (hrest : rest ≠ []) (p' : Position) :
    Obtains (whileClause s (inner s parts n)) (keywordToken w p :: (us ++ keywordToken "do" q :: (vs ++ keywordToken "done" r :: rest)))
      fun c ws => c.describe = (Command.loop p' (w == "until") cond body).describe ∧ ws = rest := by
  refine .cur (.next (by simp) (.step ((does_inner hcond hparts hn.1 (listEnd_keyword (by decide) rfl)).mono ?_)))
  rintro b _ ⟨hb, rfl⟩
  refine .bind ((reads_loopBody hparts hbody hn.2 hrest).mono ?_)
  rintro b' _ ⟨hb', rfl⟩
  exact .pure ⟨by simp [Command.describe, hb, hb', keywordToken], rfl⟩

-- What the branches of an `if` end before.
def Branches (us : List Token) : Prop := ∃ t vs, us = t :: vs ∧ isKeyword ["elif", "else", "fi"] t = true

def Elif.Same (e e' : Elif) : Prop := e'.describe = e.describe

theorem turn_elif (hparts : ReadsWords parts) {start : Position} {e : Elif} {ts : List Token} (h : Clause "elif" "then" e.cond e.yes ts)
    (hn : ts.length ≤ n) : Turn (elif? s (inner s parts n) start) Branches Elif.Same e ts := by
  obtain ⟨p, q, us, vs, rfl, hcond, hyes⟩ := h
  simp only [List.length_append, List.length_cons] at hn
  refine ⟨List.cons_ne_nil _ _, fun ws _ => ⟨_, _, rfl, rfl⟩, ?_⟩
  rintro _ ⟨u, ws, rfl, hu⟩
  rw [List.cons_append, List.append_assoc, List.cons_append]
  refine .cur (.ite_true rfl (.next (by simp) (.step ((does_inner hcond hparts (by omega) (listEnd_keyword (by decide) rfl)).mono ?_))))
  rintro b _ ⟨hb, rfl⟩
  refine .bind ((reads_expect (by simp)).mono ?_)
  rintro _ _ rfl
  refine .step ((does_inner hyes hparts (by omega) (listEnd_keyword (by decide) hu)).mono ?_)
  rintro b' _ ⟨hb', rfl⟩
  obtain ⟨p', cond, yes⟩ := e
  exact .pure ⟨⟨_, rfl, by rw [Elif.Same, Elif.describe, Elif.describe, hb, hb']⟩, rfl⟩

-- The block after an `else` that may be there.
def Otherwise (no : Option Block) (ts : List Token) : Prop :=
  match no with
  | none => ts = []
  | some b => ∃ p us, ts = keywordToken "else" p :: us ∧ ListedAt false b.items us

theorem reads_ifClause (hparts : ReadsWords parts) {yes : Block} {elifs : List Elif} {no : Option Block} {ts os : List Token}
    {ess : List (List Token)} (hthen : Clause "if" "then" cond yes ts)
    (helifs : List.Forall₂ (fun e us => Clause "elif" "then" e.cond e.yes us ∧ us.length ≤ n) elifs ess) (hno : Otherwise no os)
    (hn : ts.length ≤ n ∧ os.length ≤ n) {rest : List Token} (hrest : rest ≠ []) (p q : Position) :
    Obtains (ifClause s (inner s parts n)) (ts ++ (ess.flatten ++ (os ++ keywordToken "fi" q :: rest)))
      fun c ws => c.describe = (Command.ifThen p cond yes elifs no).describe ∧ ws = rest := by
  obtain ⟨p', q', us, vs, rfl, hcond, hyes⟩ := hthen
  simp only [List.length_append, List.length_cons] at hn
  have hend : Branches (os ++ keywordToken "fi" q :: rest) := by
    cases no with
    | none =>
        obtain rfl : os = [] := hno
        exact ⟨_, _, rfl, rfl⟩
    | some b =>
        obtain ⟨_, _, rfl, -⟩ := hno
        exact ⟨_, _, rfl, rfl⟩
  have hturns (start : Position) : List.Forall₂ (Turn (elif? s (inner s parts n) start) Branches Elif.Same) elifs ess :=
    helifs.imp fun _ _ h => turn_elif hparts h.1 h.2
  obtain ⟨u, ws, hmore, hu⟩ := next_flatten (hturns {}) hend
  rw [List.cons_append, List.append_assoc, List.cons_append]
  refine .cur (.next (by simp) (.step ((does_inner hcond hparts (by omega) (listEnd_keyword (by decide) rfl)).mono ?_)))
  rintro b _ ⟨hb, rfl⟩
  refine .bind ((reads_expect (by rw [hmore]; simp)).mono ?_)
  rintro _ _ rfl
  rw [hmore]
  refine .step ((does_inner hyes hparts (by omega) (listEnd_keyword (by decide) hu)).mono ?_)
  rintro b' _ ⟨hb', rfl⟩
  rw [← hmore]
  have hstop : Obtains (elif? s (inner s parts n) p') (os ++ keywordToken "fi" q :: rest) fun r vs => r = none ∧ vs = os ++ keywordToken "fi" q :: rest := by
    cases no with
    | none =>
        obtain rfl : os = [] := hno
        exact .cur (.ite_false Bool.false_ne_true (.pure ⟨rfl, rfl⟩))
    | some b =>
        obtain ⟨_, _, rfl, -⟩ := hno
        exact .cur (.ite_false Bool.false_ne_true (.pure ⟨rfl, rfl⟩))
  refine .bind ((reads_many (hturns p') hend hstop).mono ?_)
  rintro elifs' _ ⟨helifs', rfl⟩
  have helifs : describeElifs elifs' = describeElifs elifs := by
    clear hturns helifs
    induction helifs' with
    | nil => rfl
    | cons he _ ih => exact congrArg₂ List.cons he ih
  have hrest (no' : Option Block) (hsame : Block.describe? no' = Block.describe? no) : Obtains (do
        expect s "fi" "if" p'
        return Command.ifThen p' b b' elifs' no') (keywordToken "fi" q :: rest)
      fun c ws => c.describe = (Command.ifThen p cond yes elifs no).describe ∧ ws = rest := by
    refine .bind ((reads_expect hrest).mono ?_)
    rintro _ _ rfl
    exact .pure ⟨by rw [Command.describe, Command.describe, hb, hb', helifs, hsame], rfl⟩
  cases no with
  | none =>
      obtain rfl : os = [] := hno
      exact .cur (.ite_false Bool.false_ne_true (.bind (.pure (hrest none rfl))))
  | some b'' =>
      obtain ⟨_, us, rfl, hlist⟩ := hno
      simp only [List.length_cons] at hn
      refine .cur (.ite_true rfl (.next (by simp) (.bind (.bind (.lift
        ((does_inner hlist hparts (by omega) (listEnd_keyword (by decide) rfl)).mono ?_))))))
      rintro c _ ⟨hc, rfl⟩
      exact .pure (hrest (some c) (congrArg some hc))

variable {d : Dialect}

-- A name, where no command begins.
def nameToken (name : String) (p : Position) : Token := Token.plainWord name.toList p false

theorem reads_items (hparts : ReadsWords parts) {ws : List Word} {wss : List (List Token)}
    (h : List.Forall₂ (Standing (OneToken (Word.Spelled d))) ws wss) {u : Token} (hu : u.kind ≠ .word) :
    Obtains (many (word? parts)) (wss.flatten ++ u :: us) fun ws' vs => describeWords ws' = describeWords ws ∧ vs = u :: us := by
  have hturns := h.imp (S := Turn (word? parts) (· ≠ []) (fun w w' => w'.describe = w.describe)) fun w ts hw => by
    obtain ⟨t, p, ht, rfl⟩ := standing_oneToken hw
    refine ⟨List.cons_ne_nil _ _, fun _ _ => List.cons_ne_nil _ _, fun vs hvs => .cur (.ite_true (by simp [ht.plain.1]) ?_)⟩
    refine .step ((does_wordOf hparts ht p).mono ?_)
    rintro w' _ ⟨hsame, rfl⟩
    exact .next hvs (.pure ⟨⟨w', rfl, hsame⟩, rfl⟩)
  refine (reads_many hturns (List.cons_ne_nil _ _) (.cur (.ite_false (by simp [hu]) (.pure ⟨rfl, rfl⟩)))).mono ?_
  rintro ws' _ ⟨hws, rfl⟩
  refine ⟨?_, rfl⟩
  clear hturns h
  induction hws with
  | nil => rfl
  | cons hw _ ih => exact congrArg₂ List.cons hw ih

-- What stands between the name of a loop and the separator.
def Items (d : Dialect) (hasIn : Bool) (ws : List Word) (ts : List Token) : Prop :=
  if hasIn then ∃ p wss, ts = nameToken "in" p :: wss.flatten ∧ List.Forall₂ (Standing (OneToken (Word.Spelled d))) ws wss
  else ws = [] ∧ ts = []

theorem reads_loopHead (hparts : ReadsWords parts) {construct name : String} {hasIn : Bool} {ws : List Word} (hname : Text.isName name = true)
    (hitems : Items d hasIn ws ts) {p q : Position} {u : Token} (hu : u.kind ≠ .newline) :
    Obtains (loopHead s parts construct) (nameToken name p :: (ts ++ { kind := .semi, text := ";", pos := q } :: u :: us))
      fun r vs => (∃ ws', r = (name, p, hasIn, ws') ∧ describeWords ws' = describeWords ws) ∧ vs = u :: us := by
  have htext : (nameToken name p).text = name := String.ofList_toList
  refine .cur (.ite_false (by simp [hname, nameToken, Token.plainWord]) (.next (by simp) ?_))
  rw [htext]
  cases hasIn with
  | true =>
      obtain ⟨r, wss, rfl, hws⟩ := hitems
      refine .step (does_skipNewlines_none (by simp [nameToken, Token.plainWord]) (.cur (.ite_true rfl (.next (by simp) ?_))))
      refine .bind ((reads_items hparts hws (by simp)).mono ?_)
      rintro ws' _ ⟨hsame, rfl⟩
      exact .cur (.ite_false Bool.false_ne_true (.next (by simp) (.step (does_skipNewlines_none hu (.pure ⟨⟨ws', rfl, hsame⟩, rfl⟩)))))
  | false =>
      obtain ⟨rfl, rfl⟩ := hitems
      refine .step (does_skipNewlines_none (by simp) (.cur (.ite_false Bool.false_ne_true ?_)))
      exact .ite_true rfl (.next (by simp) (.step (does_skipNewlines_none hu (.pure ⟨⟨[], rfl, rfl⟩, rfl⟩))))

theorem reads_forClause (hparts : ReadsWords parts) {name : String} {hasIn : Bool} {ws : List Word} (hname : Text.isName name = true)
    (hitems : Items d hasIn ws ts) (hbody : ListedAt false body.items vs) (hn : vs.length < n) {t : Token} {p q r e : Position}
    {rest : List Token} (hrest : rest ≠ []) (p' q' : Position) :
    Obtains (forClause s parts (inner s parts n)) (t :: nameToken name p :: (ts ++ { kind := .semi, text := ";", pos := q } ::
      keywordToken "do" r :: (vs ++ keywordToken "done" e :: rest)))
      fun c ws' => c.describe = (Command.forIn p' name q' hasIn ws body).describe ∧ ws' = rest := by
  refine .cur (.next (by simp) (.cur (.ite_false Bool.false_ne_true (.bind ((reads_loopHead hparts hname hitems (by nofun)).mono ?_)))))
  rintro _ _ ⟨⟨ws', rfl, hws⟩, rfl⟩
  refine .bind ((reads_loopBody hparts hbody hn hrest).mono ?_)
  rintro b _ ⟨hb, rfl⟩
  exact .pure ⟨by rw [Command.describe, Command.describe, hws, hb], rfl⟩

theorem reads_group (hparts : ReadsWords parts) {p q : Position} (hbody : ListedAt false body.items vs) (hn : vs.length < n) (hus : us ≠ [])
    (p' : Position) : Obtains (group s (inner s parts n)) (keywordToken "\x7b" p :: (vs ++ keywordToken "\x7d" q :: us))
      fun c ws => c.describe = (Command.group p' body).describe ∧ ws = us := by
  refine .cur (.next (by simp) (.step ((does_inner hbody hparts hn (listEnd_keyword (by decide) rfl)).mono ?_)))
  rintro b _ ⟨hsame, rfl⟩
  refine .bind ((reads_expect hus).mono ?_)
  rintro _ _ rfl
  exact .pure ⟨by simp [Command.describe, hsame], rfl⟩

theorem listEnd_rparen (open_ : Bool) (p : Position) : ListEnd (·.kind == .rparen) open_ { kind := .rparen, text := ")", pos := p } where
  begins t ht := by
    rw [beq_eq_false_iff_ne]
    intro hkind
    rcases ht.kind with hword | hparen | hred
    · rw [hkind] at hword
      cases hword
    · rw [hkind] at hparen
      cases hparen
    · rw [isRedirection, hkind] at hred
      cases hred
  stop := .inr rfl
  newline := nofun
  closing _ := by
    change Token.Kind.rparen ∈ _ ∧ Token.Kind.rparen ∉ _
    decide

theorem reads_subshell (hparts : ReadsWords parts) {t : Token} {q : Position} {open_ : Bool} (hbody : ListedAt open_ body.items vs)
    (hn : vs.length < n) (hus : us ≠ []) (p' : Position) :
    Obtains (subshell s (inner s parts n)) (t :: (vs ++ { kind := .rparen, text := ")", pos := q } :: us))
      fun c ws => c.describe = (Command.subshell p' body).describe ∧ ws = us := by
  refine .cur (.next (by simp) (.step ((does_inner hbody hparts hn (listEnd_rparen open_ q)).mono ?_)))
  rintro b _ ⟨hsame, rfl⟩
  exact .cur (.ite_true rfl (.next hus (.pure ⟨by simp [Command.describe, hsame], rfl⟩)))

end Compounds

end Read

section Compounds

variable {d : Dialect} {cond body : Block}

theorem loop_spelled (hcond : Writable d cond) (hplain : cond.IsCondition) (hbody : Writable d body) (p : Position) (untilTrue : Bool)
    (ℓ : Layout) : ∃ L, (Command.loop p untilTrue cond body).Spelled d ℓ .compound L := by
  obtain ⟨w, hword, hfront, huntil⟩ : ∃ w, (w = "while" ∨ w = "until") ∧
      (if untilTrue then "until " else "while ") = w ++ " " ∧ (w == "until") = untilTrue := by
    cases untilTrue
    · exact ⟨"while", by decide⟩
    · exact ⟨"until", by decide⟩
  have hopening : (w ∈ keywords ∧ Token.opensCommand w = true) ∧ w ∈ Read.opening ∧ w ≠ "!" := by
    rcases hword with rfl | rfl <;> decide
  obtain ⟨L, hL⟩ := exists_clauseSpelled hopening.1 (v := "do") (by decide) hcond hplain hbody ℓ
  refine ⟨L ++ [keywordPiece "done"], ?_, fun rest hrest => ?_, fun ts hts s parts n hparts hn => ?_⟩
  · have hprints := hL.prints.bind (prints_str (ℓ := ℓ) (v := "done") (L := [keywordPiece "done"]) rfl)
    simpa [Command.print, hfront] using hprints
  · refine fitsAll_append.mpr ⟨hL.fits _, ?_⟩
    rw [hL.opens]
    exact fitsAll_keyword (by decide) hrest trivial
  · obtain ⟨ts, us, rfl, hclause, hend⟩ := Token.spells_append.mp hts
    obtain ⟨q, q', us', vs, rfl, hlist, hlist'⟩ := hL.reads ts hclause
    obtain ⟨r, us, rfl, hnil⟩ := spells_keyword hend
    obtain rfl := Token.spells_nil.mp hnil
    simp only [List.length_append, List.length_cons] at hn
    refine ⟨Read.readsCompound (m := Read.whileClause s (Read.inner s parts n)) hparts (fun us Q h => ?_) (fun us hne => ?_), Read.staged_keyword hopening.2⟩
    · rcases hword with rfl | rfl <;> exact .cur (.ite_true rfl h)
    · have hread := Read.reads_whileClause (s := s) (w := w) (p := q) (q := q') (r := r) hparts hlist hlist' (n := n) ⟨by omega, by omega⟩ hne p
      rw [huntil] at hread
      simpa using hread

structure ElifsSpelled (d : Dialect) (ℓ : Layout) (es : List Elif) (L : List Piece) : Prop where
  prints : Prints ℓ (printElifs es) L
  fits : ∀ rest, FitsAll d true L rest
  opens : opensAfter true L = true
  reads : ∀ ts, Spells L ts → ∃ tss, ts = tss.flatten ∧ List.Forall₂ (fun e us => Clause "elif" "then" e.cond e.yes us) es tss

theorem exists_elifsSpelled {es : List Elif} (h : ∀ e ∈ es, Writable d e.cond ∧ e.cond.IsCondition ∧ Writable d e.yes) (ℓ : Layout) :
    ∃ L, ElifsSpelled d ℓ es L := by
  induction es with
  | nil =>
      refine ⟨[], prints_pure, fun _ => trivial, rfl, fun ts hts => ?_⟩
      obtain rfl := Token.spells_nil.mp hts
      exact ⟨[], rfl, .nil⟩
  | cons e es ih =>
      obtain ⟨⟨hcond, hplain, hyes⟩, hes⟩ := List.forall_mem_cons.mp h
      obtain ⟨p, cond, yes⟩ := e
      obtain ⟨L, hL⟩ := exists_clauseSpelled (w := "elif") (v := "then") (by decide) (by decide) hcond hplain hyes ℓ
      obtain ⟨M, hM⟩ := ih hes
      refine ⟨L ++ M, ?_, fun rest => fitsAll_append.mpr ⟨hL.fits _, ?_⟩, ?_, fun ts hts => ?_⟩
      · simpa [printElifs] using hL.prints.bind hM.prints
      · rw [hL.opens]
        exact hM.fits rest
      · rw [opensAfter_append, hL.opens, hM.opens]
      · obtain ⟨us, vs, rfl, hus, hvs⟩ := Token.spells_append.mp hts
        obtain ⟨tss, rfl, hall⟩ := hM.reads vs hvs
        exact ⟨us :: tss, rfl, .cons (hL.reads us hus) hall⟩

structure ElseSpelled (d : Dialect) (ℓ : Layout) (no : Option Block) (L : List Piece) : Prop where
  prints : Prints ℓ (printOptElse no) L
  fits : ∀ rest, Closes rest → FitsAll d true (L ++ [keywordPiece "fi"]) rest
  reads : ∀ ts, Spells L ts → Read.Otherwise no ts

theorem exists_elseSpelled {no : Option Block} (h : ∀ b ∈ no, Writable d b) (ℓ : Layout) : ∃ L, ElseSpelled d ℓ no L := by
  cases no with
  | none => exact ⟨[], prints_pure, fun _ hrest => fitsAll_keyword (by decide) hrest trivial, fun _ => Token.spells_nil.mp⟩
  | some b =>
      obtain ⟨L, hL⟩ := exists_bodySpelled (h b rfl) ℓ
      refine ⟨keywordPiece "else" :: L, (prints_str (L := [keywordPiece "else"]) rfl).bind hL.prints, fun rest => hL.fits_enclosed (by decide) (by decide),
        fun ts hts => ?_⟩
      obtain ⟨p, us, rfl, hus⟩ := spells_keyword hts
      exact ⟨p, us, rfl, hL.reads us hus⟩

theorem forall₂_bounded {α : Type} {P : α → List Token → Prop} {xs : List α} {tss : List (List Token)} {n : Nat} (h : List.Forall₂ P xs tss)
    (hn : tss.flatten.length ≤ n) : List.Forall₂ (fun x ts => P x ts ∧ ts.length ≤ n) xs tss := by
  induction h with
  | nil => exact .nil
  | cons hx _ ih =>
      rw [List.flatten_cons, List.length_append] at hn
      exact .cons ⟨hx, by omega⟩ (ih (by omega))

theorem if_spelled {yes : Block} {elifs : List Elif} {no : Option Block} (hcond : Writable d cond) (hplain : cond.IsCondition)
    (hyes : Writable d yes) (helifs : ∀ e ∈ elifs, Writable d e.cond ∧ e.cond.IsCondition ∧ Writable d e.yes) (hno : ∀ b ∈ no, Writable d b)
    (p : Position) (ℓ : Layout) : ∃ L, (Command.ifThen p cond yes elifs no).Spelled d ℓ .compound L := by
  obtain ⟨L, hL⟩ := exists_clauseSpelled (w := "if") (v := "then") (by decide) (by decide) hcond hplain hyes ℓ
  obtain ⟨M, hM⟩ := exists_elifsSpelled helifs ℓ
  obtain ⟨N, hN⟩ := exists_elseSpelled hno ℓ
  refine ⟨L ++ (M ++ (N ++ [keywordPiece "fi"])), ?_, fun rest hrest => ?_, fun ts hts s parts n hparts hn => ?_⟩
  · simpa [Command.print] using hL.prints.bind (hM.prints.bind (hN.prints.bind (prints_str (ℓ := ℓ) (v := "fi") (L := [keywordPiece "fi"]) rfl)))
  · refine fitsAll_append.mpr ⟨hL.fits _, ?_⟩
    rw [hL.opens]
    refine fitsAll_append.mpr ⟨hM.fits _, ?_⟩
    rw [hM.opens]
    exact hN.fits rest hrest
  · obtain ⟨ts, us, rfl, hclause, hus⟩ := Token.spells_append.mp hts
    obtain ⟨us, vs, rfl, helifs, hvs⟩ := Token.spells_append.mp hus
    obtain ⟨os, vs, rfl, hos, hend⟩ := Token.spells_append.mp hvs
    obtain ⟨q, vs, rfl, hnil⟩ := spells_keyword hend
    obtain rfl := Token.spells_nil.mp hnil
    obtain ⟨ess, rfl, hess⟩ := hM.reads us helifs
    have hthen := hL.reads ts hclause
    simp only [List.length_append, List.length_cons] at hn
    have hread (rest : List Token) (hne : rest ≠ []) := Read.reads_ifClause (s := s) hparts hthen (forall₂_bounded hess (n := n) (by omega))
      (hN.reads os hos) ⟨by omega, by omega⟩ hne p q
    obtain ⟨p', q', us, vs, rfl, -⟩ := hthen
    refine ⟨Read.readsCompound (m := Read.ifClause s (Read.inner s parts n)) hparts (fun _ _ h => .cur (.ite_true rfl h)) (fun rest hne => ?_),
      Read.staged_keyword (by decide)⟩
    simpa using hread rest hne

def namePiece (name : String) : Piece := .token (Read.nameToken name {})

theorem fits_name {name : String} {cmd : Bool} {rest : List Char} (h : Text.isName name = true) (hkey : (Token.isReserved name && cmd) = false)
    (hrest : Token.Scanner.Ends rest) : Fits d cmd rest (Read.nameToken name {}) := by
  obtain ⟨c, cs, hname, hc, hall⟩ := Text.exists_cons_of_isName h
  have hsolid := Token.Scanner.isSolid_of_isNameChar hall
  refine Token.Scanner.fits_plainWord ?_ (by rwa [String.ofList_toList]) {}
  rw [hname] at hsolid hall ⊢
  refine Token.Scanner.isWord_solid (Token.Scanner.startsWord_of_isNameStart hc) hsolid hrest fun _ x hx e => ?_
  have hne (y : Char) (hy : Text.isNameChar y = false) : x ≠ y := Token.Scanner.ne_of_isNameChar (hall x hx) hy
  simp [Token.Scanner.opensPattern, hne '?' rfl, hne '*' rfl, hne '+' rfl, hne '@' rfl, hne '!' rfl]

theorem exists_forall₂ {α β : Type} {P : α → β → Prop} {xs : List α} (h : ∀ x ∈ xs, ∃ y, P x y) : ∃ ys, List.Forall₂ P xs ys := by
  induction xs with
  | nil => exact ⟨[], .nil⟩
  | cons x xs ih =>
      obtain ⟨⟨y, hy⟩, hxs⟩ := List.forall_mem_cons.mp h
      obtain ⟨ys, hys⟩ := ih hxs
      exact ⟨y :: ys, .cons hy hys⟩

theorem forall_mem_of_forall₂ {α β : Type} {P : α → β → Prop} {Q : β → Prop} {xs : List α} {ys : List β} (h : List.Forall₂ P xs ys)
    (hall : ∀ x y, P x y → Q y) : ∀ y ∈ ys, Q y :=
  ((List.forall₂_and_left _ _).mp (h.flip.imp fun y x hxy => ⟨hall x y hxy, hxy⟩)).1

theorem Word.Spelled.fitting {w : Word} {t : Token} {cmd : Bool} (h : w.Spelled d t) (hkey : (Token.isReserved t.text && cmd) = false) :
    Fitting d cmd [.token t] := by
  refine ⟨fun rest hrest => ⟨h.fits hkey hrest.ends hrest.head?_ne, trivial⟩, ?_⟩
  obtain ⟨hkind, hplain⟩ := h.plain
  simp [opensAfter, Token.opens, hkind, hplain]

-- The words of a list, each after a blank.
theorem exists_wordsSpelled {ws : List Word} (h : ∀ w ∈ ws, w.Ordinary) : ∃ Ls, List.Forall₂ (OneToken (Word.Spelled d)) ws Ls ∧
    (∀ L ∈ Ls, Fitting d false L) ∧ ∀ ℓ, List.Forall₂ (fun w L => Prints ℓ w.print L) ws Ls := by
  obtain ⟨Ls, hLs⟩ := exists_forall₂ (P := OneToken (Word.Spelled d)) fun w hw =>
    (h w hw).spelled d |>.elim fun t ht => ⟨[.token t], t, ht, rfl⟩
  refine ⟨Ls, hLs, forall_mem_of_forall₂ hLs ?_, fun ℓ => hLs.imp ?_⟩
  · rintro w _ ⟨t, ht, rfl⟩
    exact ht.fitting (by simp)
  · rintro w _ ⟨t, ht, rfl⟩
    exact ht.prints

structure ItemsSpelled (d : Dialect) (ℓ : Layout) (hasIn : Bool) (ws : List Word) (L : List Piece) : Prop where
  prints : Prints ℓ (if hasIn then do Printer.str " in"; printSpaced ws else pure ()) L
  fitting : Fitting d false L
  closes : ∀ rest, Closes rest → Closes (textOf L ++ rest)
  reads : ∀ ts, Spells L ts → Read.Items d hasIn ws ts

theorem fitting_items {Ls : List (List Piece)} (h : ∀ L ∈ Ls, Fitting d false L) : Fitting d false (spaced Ls) := by
  by_cases hne : Ls = []
  · subst hne
    exact ⟨fun _ _ => trivial, rfl⟩
  · exact (fitting_spaced (fun L hL => h L (List.mem_of_mem_head? hL)) h hne).1

theorem exists_itemsSpelled {hasIn : Bool} {ws : List Word} (h : ∀ w ∈ ws, w.Ordinary) (hnone : hasIn = false → ws = []) (ℓ : Layout) :
    ∃ L, ItemsSpelled d ℓ hasIn ws L := by
  cases hasIn with
  | false =>
      obtain rfl := hnone rfl
      exact ⟨[], prints_pure, ⟨fun _ _ => trivial, rfl⟩, fun _ h => h, fun ts hts => ⟨rfl, Token.spells_nil.mp hts⟩⟩
  | true =>
      obtain ⟨Ls, hwords, hfitting, hprints⟩ := exists_wordsSpelled h
      have hitems := fitting_items hfitting
      have hin : " in".toList = textOf [.blank ' ', namePiece "in"] := by simp [textOf, namePiece, Piece.text, Read.nameToken, Token.plainWord]
      refine ⟨.blank ' ' :: namePiece "in" :: spaced Ls, ?_, ⟨fun rest hrest => ⟨.inl rfl, ?_, hitems.1 rest hrest⟩, hitems.2⟩,
        fun _ _ => closes_cons (.inl rfl) _, fun ts hts => ?_⟩
      · exact (prints_str hin).bind (prints_spaced rfl (fun _ _ => rfl) (hprints ℓ))
      · exact fits_name (by decide) rfl (closes_spaced hrest).ends
      · obtain ⟨p, us, rfl, hus⟩ := Token.spells_token.mp ((Token.spells_blank _).mp hts)
        obtain ⟨wss, rfl, hall⟩ := standing_flatten hwords (spells_spaced.mp hus)
        exact ⟨p, wss, rfl, hall⟩

theorem for_spelled {name : String} {hasIn : Bool} {ws : List Word} (hname : Text.isName name = true) (hws : ∀ w ∈ ws, w.Ordinary)
    (hnone : hasIn = false → ws = []) (hbody : Writable d body) (p q : Position) (ℓ : Layout) :
    ∃ L, (Command.forIn p name q hasIn ws body).Spelled d ℓ .compound L := by
  obtain ⟨L, hL⟩ := exists_itemsSpelled (d := d) hws hnone ℓ
  obtain ⟨M, hM⟩ := exists_bodySpelled hbody ℓ
  refine ⟨keywordPiece "for" :: .blank ' ' :: namePiece name :: (L ++ operatorPiece .semi :: .blank ' ' :: keywordPiece "do" :: (M ++ [keywordPiece "done"])),
    ?_, fun rest hrest => ?_, fun ts hts s parts n hparts hn => ?_⟩
  · have hfront : ("for " ++ name).toList = textOf [keywordPiece "for", .blank ' ', namePiece name] := by
      simp [textOf, keywordPiece, namePiece, Piece.text, keywordToken, Read.nameToken, Token.plainWord]
    have hmid : "; do".toList = textOf [operatorPiece .semi, .blank ' ', keywordPiece "do"] := rfl
    have hdone : "done".toList = textOf [keywordPiece "done"] := rfl
    have hprints := (prints_str (ℓ := ℓ) hfront).bind (hL.prints.bind ((prints_str hmid).bind (hM.prints.bind (prints_str hdone))))
    cases hasIn <;> simpa [Command.print] using hprints
  · have htail (cmd : Bool) : FitsAll d cmd (operatorPiece .semi :: .blank ' ' :: keywordPiece "do" :: (M ++ [keywordPiece "done"])) rest := by
      have hblank : Token.Scanner.Breaks .semi (' ' :: (textOf (keywordPiece "do" :: (M ++ [keywordPiece "done"])) ++ rest)) := by
        rintro _ ⟨⟩
        simp
      exact ⟨Token.Scanner.fits_common rfl rfl hblank, .inl rfl, hM.fits_enclosed (by decide) (by decide) hrest⟩
    have hsemi : Closes (textOf (operatorPiece .semi :: .blank ' ' :: keywordPiece "do" :: (M ++ [keywordPiece "done"])) ++ rest) :=
      closes_cons (.inr (.inr rfl)) _
    have hclose : Closes (textOf (L ++ operatorPiece .semi :: .blank ' ' :: keywordPiece "do" :: (M ++ [keywordPiece "done"])) ++ rest) := by
      rw [Token.textOf_append, List.append_assoc]
      exact hL.closes _ hsemi
    refine fitsAll_keyword (by decide) (closes_cons (.inl rfl) _) ⟨.inl rfl, fits_name hname (by simp [Token.opensCommand]) hclose.ends, ?_⟩
    exact fitsAll_append.mpr ⟨hL.fitting.1 _ hsemi, htail _⟩
  · obtain ⟨p', us, rfl, hfor⟩ := spells_keyword hts
    obtain ⟨q', us, rfl, hhead⟩ := Token.spells_token.mp ((Token.spells_blank _).mp hfor)
    obtain ⟨us, vs, rfl, hitems, hsemi⟩ := Token.spells_append.mp hhead
    obtain ⟨r, vs, rfl, hblank⟩ := Token.spells_token.mp hsemi
    obtain ⟨r', vs, r'', rfl, hlist⟩ := hM.reads_enclosed ((Token.spells_blank _).mp hblank)
    simp only [List.length_append, List.length_cons] at hn
    refine ⟨Read.readsCompound (m := Read.forClause s parts (Read.inner s parts n)) hparts (fun _ _ h => .cur (.ite_true rfl h)) (fun rest hne => ?_),
      Read.staged_keyword (by decide)⟩
    have hread := Read.reads_forClause (s := s) (p := q') (q := r) (r := r') (e := r'') (t := keywordToken "for" p') hparts hname
      (hL.reads us hitems) hlist (n := n) (by omega) hne p q
    simp only [List.cons_append, List.append_assoc, List.nil_append]
    exact hread

theorem group_spelled (hbody : Writable d body) (p : Position) (ℓ : Layout) :
    ∃ L, (Command.group p body).Spelled d ℓ .compound L := by
  obtain ⟨L, hL⟩ := exists_bodySpelled hbody ℓ
  refine ⟨keywordPiece "\x7b" :: (L ++ [keywordPiece "\x7d"]), ?_, fun rest hrest => ?_, fun ts hts s parts n hparts hn => ?_⟩
  · exact (prints_str (L := [keywordPiece "\x7b"]) rfl).bind (hL.prints.bind (prints_str (L := [keywordPiece "\x7d"]) rfl))
  · exact hL.fits_enclosed (by decide) (by decide) hrest
  · obtain ⟨q, us, q', rfl, hlist⟩ := hL.reads_enclosed hts
    simp only [List.length_append, List.length_cons] at hn
    refine ⟨Read.readsCompound (m := Read.group s (Read.inner s parts n)) hparts (fun _ _ h => .cur (.ite_true rfl h)) (fun vs hne => ?_),
      Read.staged_keyword (by decide)⟩
    have hread := Read.reads_group (s := s) (p := q) (q := q') hparts hlist (n := n) (by omega) hne p
    simpa using hread

-- Between the parentheses of a subshell.
structure SubshellSpelled (d : Dialect) (ℓ : Layout) (p : Position) (body : Block) (open_ : Bool) (L : List Piece) : Prop where
  prints : Prints ℓ (Command.subshell p body).print (operatorPiece .lparen :: (L ++ [operatorPiece .rparen]))
  fits : ∀ rest, FitsAll d true L (')' :: rest)
  closes : ∀ rest, Closes (textOf L ++ rest)
  reads : ∀ ts, Spells L ts → ListedAt open_ body.items ts

theorem exists_subshellSpelled (hbody : Writable d body) (p : Position) (ℓ : Layout) :
    ∃ open_ L, SubshellSpelled d ℓ p body open_ L := by
  have hparen (k : Token.Kind) : k.text.toList = textOf [operatorPiece k] := by simp [textOf, operatorPiece, Piece.text]
  cases hinline : decide (ℓ.inline > 0) with
  | false =>
      obtain ⟨L, hL⟩ := exists_bodySpelled hbody ℓ
      refine ⟨false, L, ?_, fun _ => hL.fits _, hL.closes, hL.reads⟩
      rw [Command.print]
      refine .isInline ?_
      rw [hinline]
      exact (prints_str (hparen .lparen)).bind (hL.prints.bind (prints_str (hparen .rparen)))
  | true =>
      obtain ⟨q, cs⟩ := body
      obtain ⟨L, hprints, hfits, hreads⟩ : ∃ L, Prints ℓ (Block.mk q cs).printInlineList L ∧
          (∀ rest, FitsAll d true (L ++ [.blank ' ']) rest) ∧ ∀ ts, Spells L ts → ListedAt true cs ts := by
        by_cases hne : cs = []
        · subst hne
          refine ⟨[], Prints.inlined prints_pure, fun _ => ⟨.inl rfl, trivial⟩, fun ts hts => ?_⟩
          obtain rfl := Token.spells_nil.mp hts
          exact listedAt_nil (List.forall_mem_nil _)
        · obtain ⟨L, hL⟩ := exists_inlineSpelled hne (hbody { ℓ with inline := ℓ.inline + 1 })
          exact ⟨L, hL.prints.inlined, fun rest => fitsAll_append.mpr ⟨hL.fits _ (closes_cons (.inl rfl) _), .inl rfl, trivial⟩, hL.reads⟩
      refine ⟨true, .blank ' ' :: (L ++ [.blank ' ']), ?_, fun rest => ⟨.inl rfl, hfits _⟩, fun _ => closes_cons (.inl rfl) _, fun ts hts => ?_⟩
      · have hopen : "( ".toList = textOf [operatorPiece .lparen, .blank ' '] := rfl
        have hclose : " )".toList = textOf [.blank ' ', operatorPiece .rparen] := rfl
        rw [Command.print]
        refine .isInline ?_
        rw [hinline]
        simpa using (prints_str hopen).bind (hprints.bind (prints_str hclose))
      · obtain ⟨us, vs, rfl, hus, hvs⟩ := Token.spells_append.mp ((Token.spells_blank _).mp hts)
        obtain rfl := Token.spells_nil.mp ((Token.spells_blank _).mp hvs)
        rw [List.append_nil]
        exact hreads us hus

theorem subshell_spelled (hbody : Writable d body) (p : Position) (ℓ : Layout) :
    ∃ L, (Command.subshell p body).Spelled d ℓ .compound L := by
  obtain ⟨open_, L, hL⟩ := exists_subshellSpelled hbody p ℓ
  refine ⟨_, hL.prints, fun rest hrest => ?_, fun ts hts s parts n hparts hn => ?_⟩
  · refine ⟨Token.Scanner.fits_common rfl rfl ?_, fitsAll_append.mpr ⟨hL.fits rest, Token.Scanner.fits_common rfl rfl (hrest.breaks (by decide)), trivial⟩⟩
    rw [Token.textOf_append, List.append_assoc]
    exact (hL.closes _).breaks (by decide)
  · obtain ⟨q, us, rfl, hus⟩ := Token.spells_token.mp hts
    obtain ⟨us, vs, rfl, hlist, hend⟩ := Token.spells_append.mp hus
    obtain ⟨q', vs, rfl, hnil⟩ := Token.spells_token.mp hend
    obtain rfl := Token.spells_nil.mp hnil
    simp only [List.length_append, List.length_cons] at hn
    refine ⟨Read.readsCompound (m := Read.subshell s (Read.inner s parts n)) hparts ?_ (fun vs hne => ?_), ?_⟩
    · exact fun _ _ h => .cur (.ite_false Bool.false_ne_true (.ite_true rfl h))
    · rw [List.cons_append, List.append_assoc]
      exact Read.reads_subshell (q := q') hparts (hL.reads us hlist) (by omega) hne p
    · exact ⟨_, _, rfl, ⟨.inr (.inl rfl), nofun, nofun⟩, rfl⟩

end Compounds

section Operands

variable {d : Dialect} {ℓ : Layout}

theorem exists_redirectsSpelled {rs : List Redirect} (h : ∀ r ∈ rs, r.Ordinary d) : ∃ Ls, List.Forall₂ (Redirect.Spelled d) rs Ls ∧
    (∀ cmd, ∀ L ∈ Ls, Fitting d cmd L) ∧ ∀ ℓ, List.Forall₂ (fun r L => Prints ℓ r.print L) rs Ls := by
  obtain ⟨Ls, hLs⟩ := exists_forall₂ (P := Redirect.Spelled d) fun r hr => (h r hr).spelled
  have hfitting (cmd : Bool) : ∀ L ∈ Ls, Fitting d cmd L :=
    forall_mem_of_forall₂ hLs fun _ _ hr => ⟨fun rest hrest => hr.fits hrest, hr.opensAfter⟩
  exact ⟨Ls, hLs, hfitting, fun ℓ => hLs.imp fun _ _ hr => hr.prints⟩

theorem redirected_spelled {x : Command} {L : List Piece} {rs : List Redirect} (hx : x.Spelled d ℓ .compound L) (hne : rs ≠ [])
    (hrs : ∀ r ∈ rs, r.Ordinary d) : ∃ L, (Command.redirected x rs).Spelled d ℓ .command L := by
  obtain ⟨Ls, hLs, hfitting, hprints⟩ := exists_redirectsSpelled hrs
  refine ⟨L ++ spaced Ls, ?_, fun rest hrest => ?_, fun ts hts s parts n hparts hn => ?_⟩
  · exact hx.prints.bind (prints_spaced (f := printRedirects false) rfl (fun _ _ => rfl) (hprints ℓ))
  · have hnonempty : Ls ≠ [] := by
      rintro rfl
      cases hLs
      exact hne rfl
    refine fitsAll_append.mpr ⟨hx.fits _ (closes_spaced hrest), ?_⟩
    exact (fitting_spaced (fun L hL => hfitting _ L (List.mem_of_mem_head? hL)) (hfitting false) hnonempty).1.1 rest hrest
  · obtain ⟨us, vs, rfl, hus, hvs⟩ := Token.spells_append.mp hts
    obtain ⟨rss, rfl, hrss⟩ := standing_flatten hLs (spells_spaced.mp hvs)
    rw [List.length_append] at hn
    obtain ⟨hread, hstaged⟩ := hx.reads us hus s parts n hparts (by omega)
    refine ⟨fun ws hws => ?_, ?_⟩
    · have hsame := hread rs rss ws hrss hws
      rw [if_neg (by simpa using hne)] at hsame
      rwa [List.append_assoc]
    · obtain ⟨t, us, rfl, ht⟩ := hstaged
      exact ⟨t, _, rfl, ht⟩

end Operands

section Chains

variable {d : Dialect} {ℓ : Layout}

-- An operator between two commands.
def betweenPieces (k : Token.Kind) : List Piece := [.blank ' ', operatorPiece k, .blank ' ']

section Between

variable {k : Token.Kind} {L M : List Piece} {cmd : Bool} {rest : List Char} {ts : List Token}

theorem toList_between (k : Token.Kind) : (" " ++ k.text ++ " ").toList = textOf (betweenPieces k) := by
  simp [textOf, betweenPieces, operatorPiece, Piece.text]

theorem fits_between (hk : k.isPlain = true) (hd : ∀ f ∈ k.feature?, d.supports f = true) (hop : k.isOperator = true ∧ k ≠ .word)
    (hM : FitsAll d true M rest) : FitsAll d cmd (betweenPieces k ++ M) rest := by
  refine ⟨.inl rfl, Token.Scanner.fits_operator hk hd ?_ {}, .inl rfl, ?_⟩
  · rintro _ ⟨⟩
    simp
  · have hopens : Token.opens cmd { kind := k, text := k.text, pos := {} } = true := by
      simp [Token.opens, hop]
    rw [hopens]
    exact hM

theorem spells_between (hts : Spells (betweenPieces k ++ L) ts) : ∃ t us, ts = t :: us ∧ t.kind = k ∧ Spells L us := by
  obtain ⟨p, us, rfl, hus⟩ := Token.spells_token.mp ((Token.spells_blank _).mp hts)
  exact ⟨_, us, rfl, rfl, (Token.spells_blank _).mp hus⟩

end Between

theorem andOr_spelled {op : Connective} {x y : Command} {L M : List Piece} (hx : x.Spelled d ℓ .chain L) (hy : y.Spelled d ℓ .pipeline M)
    (p : Position) : ∃ L, (Command.andOr p op x y).Spelled d ℓ .chain L := by
  obtain ⟨k, htext, hplain, hcommon, hop, hkind⟩ : ∃ k : Token.Kind, op.text = k.text ∧ k.isPlain = true ∧ k.feature? = none ∧
      (k.isOperator = true ∧ k ≠ .word) ∧ k = Read.linkKind op := by
    cases op
    · exact ⟨.and, by decide⟩
    · exact ⟨.or, by decide⟩
  refine ⟨L ++ (betweenPieces k ++ M), ?_, fun rest hrest => fitsAll_append.mpr ⟨hx.fits _ (closes_cons (.inl rfl) _), ?_⟩, fun ts hts s parts n hparts hn => ?_⟩
  · rw [Command.print, htext]
    exact hx.prints.bind ((prints_str (toList_between k)).bind hy.prints)
  · exact fits_between hplain (by simp [hcommon]) hop (hy.fits rest hrest)
  · obtain ⟨us, vs, rfl, hus, hvs⟩ := Token.spells_append.mp hts
    obtain ⟨t, vs, rfl, ht, hvs⟩ := spells_between hvs
    simp only [List.length_append, List.length_cons] at hn
    obtain ⟨hread, u, us, rfl, hu⟩ := hx.reads us hus s parts n hparts (by omega)
    obtain ⟨hlink, hbegun⟩ := hy.reads vs hvs s parts n hparts (by omega)
    exact ⟨hread.link ⟨t, vs, rfl, ht.trans hkind, hbegun, hlink⟩ p, u, _, rfl, hu⟩

-- A further stage of a pipeline, after its bar.
def StageAt (d : Dialect) (l : Bool × Command) (ts : List Token) : Prop :=
  ∃ t us, ts = t :: us ∧ t.kind = (if l.1 then .pipeAll else .pipe) ∧ Read.TakenAt d .command us l.2

structure StagesSpelled (d : Dialect) (ℓ : Layout) (first : Command) (rest : List (Bool × Command)) (L : List Piece) : Prop where
  prints : Prints ℓ (printStages (first :: rest.map Prod.snd) (rest.map Prod.fst)) L
  fits : ∀ rest, Closes rest → FitsAll d true L rest
  reads : ∀ ts, Spells L ts → ∃ us lss, ts = us ++ lss.flatten ∧ Read.TakenAt d .command us first ∧ List.Forall₂ (StageAt d) rest lss

theorem exists_stagesSpelled {first : Command} {rest : List (Bool × Command)} (hfirst : ∃ L, first.Spelled d ℓ .command L)
    (hrest : ∀ l ∈ rest, (l.1 = true → d.supports .pipeAll = true) ∧ ∃ L, l.2.Spelled d ℓ .command L) : ∃ L, StagesSpelled d ℓ first rest L := by
  induction rest generalizing first with
  | nil =>
      obtain ⟨L, hL⟩ := hfirst
      exact ⟨L, hL.prints, hL.fits, fun ts hts => ⟨ts, [], by simp, hL.reads ts hts, .nil⟩⟩
  | cons l rest ih =>
      obtain ⟨L, hL⟩ := hfirst
      obtain ⟨⟨hsupported, hnext⟩, hrest⟩ := List.forall_mem_cons.mp hrest
      obtain ⟨M, hM⟩ := ih hnext hrest
      obtain ⟨bar, c⟩ := l
      obtain ⟨k, hkind, htext, hplain, hfeature, hop⟩ : ∃ k : Token.Kind, k = (if bar then .pipeAll else .pipe) ∧
          (if bar then " |& " else " | ") = " " ++ k.text ++ " " ∧ k.isPlain = true ∧
          (∀ f ∈ k.feature?, bar = true ∧ f = .pipeAll) ∧ k.isOperator = true ∧ k ≠ .word := by
        cases bar
        · exact ⟨.pipe, by decide⟩
        · exact ⟨.pipeAll, by decide⟩
      refine ⟨L ++ (betweenPieces k ++ M), ?_, fun rest hclose => fitsAll_append.mpr ⟨hL.fits _ (closes_cons (.inl rfl) _), ?_⟩, fun ts hts => ?_⟩
      · have hprints := hL.prints.bind ((prints_str (ℓ := ℓ) (toList_between k)).bind hM.prints)
        rw [← htext] at hprints
        exact hprints
      · refine fits_between hplain (fun f hf => ?_) hop (hM.fits rest hclose)
        obtain ⟨hbar, rfl⟩ := hfeature f hf
        exact hsupported hbar
      · obtain ⟨us, vs, rfl, hus, hvs⟩ := Token.spells_append.mp hts
        obtain ⟨t, vs, rfl, ht, hvs⟩ := spells_between hvs
        obtain ⟨ws, lss, rfl, hws, hlss⟩ := hM.reads vs hvs
        exact ⟨us, (t :: ws) :: lss, by simp, hL.reads us hus, .cons ⟨t, ws, rfl, ht.trans hkind, hws⟩ hlss⟩

theorem pipeline_spelled {negated : Bool} {first : Command} {rest : List (Bool × Command)} (hsome : (rest.isEmpty && !negated) = false)
    (hfirst : ∃ L, first.Spelled d ℓ .command L)
    (hrest : ∀ l ∈ rest, (l.1 = true → d.supports .pipeAll = true) ∧ ∃ L, l.2.Spelled d ℓ .command L) (p : Position) :
    ∃ L, (Command.pipeline p negated (first :: rest.map Prod.snd) (rest.map Prod.fst)).Spelled d ℓ .pipeline L := by
  obtain ⟨L, hL⟩ := exists_stagesSpelled hfirst hrest
  refine ⟨(if negated then [keywordPiece "!", .blank ' '] else []) ++ L, ?_, fun rest hrest => ?_, fun ts hts s parts n hparts hn => ?_⟩
  · have hsign : "! ".toList = textOf [keywordPiece "!", .blank ' '] := rfl
    cases negated
    · exact hL.prints
    · exact (prints_str hsign).bind hL.prints
  · cases negated
    · exact hL.fits rest hrest
    · exact fitsAll_keyword (by decide) (closes_cons (.inl rfl) _) ⟨.inl rfl, hL.fits rest hrest⟩
  · obtain ⟨us, vs, rfl, hus, hvs⟩ := Token.spells_append.mp hts
    obtain ⟨ws, lss, rfl, hws, hlss⟩ := hL.reads vs hvs
    simp only [List.length_append] at hn
    obtain ⟨hread, hstaged⟩ := hws s parts n hparts (by omega)
    have hstages : List.Forall₂ (Read.ReadsStage (Read.command s parts (Read.inner s parts n))) rest lss := by
      refine (forall₂_bounded hlss (n := n) (by omega)).imp ?_
      rintro l _ ⟨⟨t, us, rfl, ht, htaken⟩, hlength⟩
      obtain ⟨hread, hstaged⟩ := htaken s parts n hparts (Nat.le_of_succ_le hlength)
      exact ⟨t, us, rfl, ht, hstaged.begun, hread⟩
    obtain ⟨q, hsign⟩ : ∃ q, us = if negated then [Read.keywordToken "!" q] else [] := by
      cases negated
      · exact ⟨{}, Token.spells_nil.mp hus⟩
      · obtain ⟨q, us, rfl, hnil⟩ := spells_keyword hus
        exact ⟨q, by rw [Token.spells_nil.mp ((Token.spells_blank _).mp hnil)]; rfl⟩
    refine ⟨?_, ?_⟩
    · have hpipeline := Read.reads_pipeline negated (t := Read.keywordToken "!" q) hread hstaged hstages rfl
      rw [← hsign, Read.pipelineOf, if_neg (by simp [hsome])] at hpipeline
      exact hpipeline
    · cases negated
      · obtain rfl := hsign
        obtain ⟨t, ws, rfl, ht, -⟩ := hstaged
        exact ⟨t, _, rfl, ht⟩
      · obtain rfl := hsign
        have hopening : "!" ∈ Read.opening := by decide
        exact ⟨_, _, rfl, .inl rfl, fun _ _ => hopening, fun _ _ _ => rfl⟩

end Chains

section Simple

variable {d : Dialect} {ℓ : Layout}

-- Words and the like, with a blank between two of them.
def joined (first : Bool) (Ls : List (List Piece)) : List Piece := if first then (spaced Ls).tail else spaced Ls

theorem joined_append (first : Bool) (Ls Ms : List (List Piece)) :
    joined first (Ls ++ Ms) = joined first Ls ++ joined (first && Ls.isEmpty) Ms := by
  cases Ls with
  | nil => cases first <;> rfl
  | cons L Ls => cases first <;> simp [joined, spaced]

theorem prints_joined {α : Type} {f : Bool → List α → Printing Unit} {print : α → Printing Unit} (hnil : ∀ first, f first [] = pure ())
    (hcons : ∀ x xs, f false (x :: xs) = do Printer.str " "; print x; f false xs) (hfirst : ∀ x xs, f true (x :: xs) = do print x; f false xs)
    {xs : List α} {Ls : List (List Piece)} (h : List.Forall₂ (fun x L => Prints ℓ (print x) L) xs Ls) (first : Bool) :
    Prints ℓ (f first xs) (joined first Ls) := by
  cases first with
  | false => exact prints_spaced (hnil false) hcons h
  | true =>
      cases h with
      | nil =>
          rw [hnil]
          exact prints_pure
      | cons hx hxs =>
          rw [hfirst]
          exact hx.bind (prints_spaced (hnil false) hcons hxs)

theorem exists_assignsSpelled {as : List Assignment} (h : ∀ a ∈ as, a.Ordinary) : ∃ Ls, List.Forall₂ (OneToken (Assignment.Spelled d)) as Ls ∧
    (∀ cmd, ∀ L ∈ Ls, Fitting d cmd L) ∧ ∀ ℓ, List.Forall₂ (fun a L => Prints ℓ a.print L) as Ls := by
  obtain ⟨Ls, hLs⟩ := exists_forall₂ (P := OneToken (Assignment.Spelled d)) fun a ha =>
    (h a ha).spelled d |>.elim fun t ht => ⟨[.token t], t, ht, rfl⟩
  refine ⟨Ls, hLs, fun cmd => forall_mem_of_forall₂ hLs ?_, fun ℓ => hLs.imp ?_⟩
  · rintro a _ ⟨t, ht, rfl⟩
    refine ⟨fun rest hrest => ⟨ht.fits hrest, trivial⟩, ?_⟩
    obtain ⟨-, -, -⟩ := ht
    rfl
  · rintro a _ ⟨t, ht, rfl⟩
    exact ht.prints

-- A simple command that is no declaration, with what it begins with.
structure IsSimple (d : Dialect) (as : List Assignment) (ws : List Word) (rs : List Redirect) : Prop where
  some : as ≠ [] ∨ ws ≠ [] ∨ rs ≠ []
  assigns : ∀ a ∈ as, a.Ordinary
  words : ∀ w ∈ ws, w.Ordinary
  redirs : ∀ r ∈ rs, r.Ordinary d
  name : ∀ w ∈ ws.head?, Read.startsAssignment w.text.toList = false ∧ Read.declarations.contains w.text = false ∧ Token.isReserved w.text = false

-- What a simple command begins with.
def Starts (t : Token) : Prop := (t.kind = .word ∧ t.keyword = false ∧ t.text ≠ "\x7b") ∨ Read.isRedirection t = true

theorem Starts.staged {t : Token} (h : Starts t) (us : List Token) : Read.Staged (t :: us) := by
  rcases h with ⟨hkind, hkey, htext⟩ | hred
  · refine ⟨t, us, rfl, ⟨.inl hkind, fun _ hkey' => ?_, fun _ hbrace => absurd hbrace htext⟩, by simp [Read.isKeyword, hkey]⟩
    rw [hkey] at hkey'
    cases hkey'
  · have hword : t.kind ≠ .word := fun hkind => by
      rw [Read.isRedirection, hkind] at hred
      cases hred
    exact ⟨t, us, rfl, ⟨.inr (.inr hred), fun hkind => absurd hkind hword, fun hkind => absurd hkind hword⟩, by simp [Read.isKeyword, hword]⟩

theorem Starts.reads {s : Read.Setting} {parts : Read.PartsReader} {inner : Read.Inner} {t : Token} (h : Starts t) {us : List Token}
    {Q : Command → List Token → Prop} (hread : Obtains (Read.simpleCommand s parts inner) (t :: us) Q) :
    Obtains (Read.command s parts inner) (t :: us) Q := by
  rcases h with ⟨hkind, hkey, -⟩ | hred
  · exact .cur (.ite_false (by simp [hkey]) (.ite_false (by simp [hkind]) (.ite_false (by simp [hkind]) (.ite_true (by simp [hkind]) hread))))
  · have hkinds : t.kind ≠ .word ∧ t.kind ≠ .lparen ∧ t.kind ≠ .arith := by
      refine ⟨fun hkind => ?_, fun hkind => ?_, fun hkind => ?_⟩
      all_goals
        rw [Read.isRedirection, hkind] at hred
        cases hred
    exact .cur (.ite_false (by simp [hkinds]) (.ite_false (by simp [hkinds]) (.ite_false (by simp [hkinds]) (.ite_true (by simp [hred]) hread))))

section Starts

variable {as : List Assignment} {ws : List Word} {rs : List Redirect} {As Ws Rs : List (List Piece)} {ass wss rss : List (List Token)}

theorem IsSimple.starts (h : IsSimple d as ws rs) (ha : List.Forall₂ (Standing (OneToken (Assignment.Spelled d))) as ass)
    (hw : List.Forall₂ (Standing (OneToken (Word.Spelled d))) ws wss) (hr : List.Forall₂ (Standing (Redirect.Spelled d)) rs rss) :
    ∃ t us, ass.flatten ++ (wss.flatten ++ rss.flatten) = t :: us ∧ Starts t := by
  cases ha with
  | @cons a _ as _ ha _ =>
      obtain ⟨t, p, ht, rfl⟩ := standing_oneToken ha
      refine ⟨_, _, rfl, .inl ?_⟩
      obtain ⟨-, -, -⟩ := ht
      refine ⟨rfl, rfl, fun htext => ?_⟩
      have hequals : '=' ∈ Read.signOf a.append := by cases a.append <;> decide
      have hbrace : '=' ∈ "\x7b".toList := by
        rw [← htext]
        simp [Token.plainWord, hequals]
      cases hbrace with
      | tail _ hmem => cases hmem
  | nil =>
      cases hw with
      | @cons w _ ws _ hw _ =>
          obtain ⟨t, p, ht, rfl⟩ := standing_oneToken hw
          obtain ⟨hkind, hkey⟩ := ht.plain
          refine ⟨_, _, rfl, .inl ⟨hkind, hkey, fun htext => ?_⟩⟩
          obtain ⟨-, -, hreserved⟩ := h.name w rfl
          rw [ht.text] at hreserved
          change t.text = _ at htext
          rw [htext] at hreserved
          cases hreserved
      | nil =>
          cases hr with
          | cons hr _ =>
              obtain ⟨L, hL, hts⟩ := hr
              obtain ⟨t, us, rfl, ht⟩ := hL.starts hts
              exact ⟨t, _, rfl, .inr ht⟩
          | nil => simpa using h.some

theorem IsSimple.fitting (h : IsSimple d as ws rs) (ha : List.Forall₂ (OneToken (Assignment.Spelled d)) as As)
    (hw : List.Forall₂ (OneToken (Word.Spelled d)) ws Ws) (hA : ∀ cmd, ∀ L ∈ As, Fitting d cmd L) (hW : ∀ L ∈ Ws, Fitting d false L)
    (hR : ∀ cmd, ∀ L ∈ Rs, Fitting d cmd L) : ∀ L ∈ (As ++ (Ws ++ Rs)).head?, Fitting d true L := by
  intro L hL
  cases ha with
  | cons _ _ => exact hA true L (by simpa using .inl (Option.some.inj hL).symm)
  | nil =>
      cases hw with
      | nil => exact hR true L (List.mem_of_mem_head? hL)
      | @cons w _ ws _ hw _ =>
          obtain rfl := Option.some.inj hL
          obtain ⟨t, ht, rfl⟩ := hw
          refine ht.fitting ?_
          rw [← ht.text, (h.name w rfl).2.2, Bool.false_and]

end Starts

theorem isEmpty_forall₂ {α β : Type} {P : α → β → Prop} {xs : List α} {ys : List β} (h : List.Forall₂ P xs ys) : ys.isEmpty = xs.isEmpty := by
  cases h <;> rfl

theorem simple_spelled {as : List Assignment} {ws : List Word} {rs : List Redirect} (h : IsSimple d as ws rs) :
    ∃ L, (Command.simple as ws rs).Spelled d ℓ .command L := by
  obtain ⟨As, hassigns, hfitA, hprintA⟩ := exists_assignsSpelled (d := d) h.assigns
  obtain ⟨Ws, hwords, hfitW, hprintW⟩ := exists_wordsSpelled (d := d) h.words
  obtain ⟨Rs, hredirs, hfitR, hprintR⟩ := exists_redirectsSpelled h.redirs
  refine ⟨joined true (As ++ (Ws ++ Rs)), ?_, fun rest hrest => ?_, fun ts hts s parts n hparts hn => ?_⟩
  · rw [joined_append, joined_append, Bool.true_and, isEmpty_forall₂ hassigns, isEmpty_forall₂ hwords]
    have hassign := prints_joined (ℓ := ℓ) (f := printAssigns) (fun _ => rfl) (fun _ _ => rfl) (fun _ _ => rfl) (hprintA ℓ) true
    have hword := prints_joined (ℓ := ℓ) (f := printJoined " ") (fun _ => rfl) (fun _ _ => rfl) (fun _ _ => rfl) (hprintW ℓ) as.isEmpty
    have hredir := prints_joined (ℓ := ℓ) (f := printRedirects) (fun _ => rfl) (fun _ _ => rfl) (fun _ _ => rfl) (hprintR ℓ) (as.isEmpty && ws.isEmpty)
    exact hassign.bind (hword.bind hredir)
  · have hmore : ∀ L ∈ As ++ (Ws ++ Rs), Fitting d false L := by
      intro L hL
      rcases List.mem_append.mp hL with hL | hL
      · exact hfitA false L hL
      rcases List.mem_append.mp hL with hL | hL
      · exact hfitW L hL
      · exact hfitR false L hL
    have hne : As ++ (Ws ++ Rs) ≠ [] := by
      intro hnil
      obtain ⟨hA, hW, hR⟩ : As = [] ∧ Ws = [] ∧ Rs = [] := by simpa using hnil
      subst hA hW hR
      cases hassigns
      cases hwords
      cases hredirs
      simpa using h.some
    exact (fitting_spaced (h.fitting hassigns hwords hfitA hfitW hfitR) hmore hne).2.1 rest hrest
  · have hflat : Spells (As.flatten ++ (Ws.flatten ++ Rs.flatten)) ts := by simpa using spells_spaced_tail.mp hts
    obtain ⟨ass, vs, rfl, hA, hvs⟩ := Token.spells_append.mp hflat
    obtain ⟨wss, rss, rfl, hW, hR⟩ := Token.spells_append.mp hvs
    obtain ⟨ass, rfl, hass⟩ := standing_flatten hassigns hA
    obtain ⟨wss, rfl, hwss⟩ := standing_flatten hwords hW
    obtain ⟨rss, rfl, hrss⟩ := standing_flatten hredirs hR
    obtain ⟨t, us, hstart, ht⟩ := h.starts hass hwss hrss
    refine ⟨fun us hus => ?_, ?_⟩
    · obtain ⟨u, us, rfl, hu⟩ := hus
      have hread := Read.reads_simpleCommand (s := s) hparts hass hwss hrss
        (fun w hw => ⟨(h.name w hw).1, (h.name w hw).2.1⟩) h.some hu (Read.inner s parts n) us
      rw [← List.append_assoc, ← List.append_assoc, List.append_assoc _ _ rss.flatten, hstart] at hread
      rw [hstart]
      exact ht.reads hread
    · rw [hstart]
      exact ht.staged us

end Simple

namespace Read

section Functions

variable {d : Dialect} {s : Setting} {parts : PartsReader} {name : String} {ts us : List Token} {t : Token} {body : Command} {n : Nat}

-- A name that can be given to a function.
def IsFunctionName (name : String) : Prop :=
  Text.isName name = true ∧ Token.isReserved name = false ∧ declarations.contains name = false

theorem Obtains.of_cur {α : Type} {f : Token → Parse α} {Q : α → List Token → Prop} (h : Obtains (liftM Read.cur >>= f) (t :: ts) Q) :
    Obtains (f t) (t :: ts) Q := h

theorem name_spelled (h : Text.isName name = true) : (Word.mk [.lit {} name]).Spelled d (nameToken name {}) := by
  obtain ⟨c, cs, hname, hc, hall⟩ := Text.exists_cons_of_isName h
  have hsolid := Token.Scanner.isSolid_of_isNameChar hall
  have hmarks : ∀ c ∈ wordMarks false, Text.isNameChar c = false := List.all_iff_forall_prop.mp (by decide)
  have hwritten : Written false [.lit {} name] (name.toList ++ []) :=
    .lit {} (.of_plain fun c hc hmark => Token.Scanner.ne_of_isNameChar (hall c hc) (hmarks c hmark) rfl) (by rintro rfl; cases hname) nofun (.nil _)
  rw [List.append_nil] at hwritten
  refine .mk hwritten fun rest hends hparen => ?_
  rw [hname] at hsolid ⊢
  exact Token.Scanner.isWord_solid (Token.Scanner.startsWord_of_isNameStart hc) hsolid hends fun hopen => absurd hopen hparen

theorem startsAssignment_name (h : Text.isName name = true) : startsAssignment name.toList = false := by
  obtain ⟨-, -, -, -, hall⟩ := Text.exists_cons_of_isName h
  rw [startsAssignment, List.dropWhile_eq_nil_iff.mpr hall]

-- The body of a function, at the brace it may begin with as well.
theorem reads_functionBody (h : TakenAt d .command ts body) (hparts : ReadsWords parts) (hn : ts.length < n) (hus : Level.command.Ends us)
    (pos p : Position) : Obtains (functionBody s parts (inner s parts n) pos name false true) (ts ++ us)
      fun c vs => c.describe = (Command.function p name false true body).describe ∧ vs = us := by
  obtain ⟨n, rfl⟩ := Nat.exists_eq_succ_of_ne_zero (Nat.ne_of_gt (Nat.zero_lt_of_lt hn))
  have hbrace := (h s parts (n + 1) hparts (by omega)).1 us hus
  obtain ⟨hcommand, t, ts, rfl, ht, -⟩ := h s parts n hparts (by omega)
  refine .step (does_skipNewlines_none ht.kind_ne.1 (.cur (.ite_false (by simp [ht.kind_ne.2]) ?_)))
  have hfunction {m : Parse Command} {ts : List Token} (hm : Obtains m ts fun c vs => c.describe = body.describe ∧ vs = us) :
      Obtains (m >>= fun body => pure (Command.function pos name false true body)) ts
        fun c vs => c.describe = (Command.function p name false true body).describe ∧ vs = us := by
    refine .bind (hm.mono ?_)
    rintro b _ ⟨hb, rfl⟩
    exact .pure ⟨by rw [Command.describe, Command.describe, hb], rfl⟩
  by_cases hopen : (t.kind == .word && t.text == "\x7b" && !t.quoted) = true
  · refine .ite_true hopen ?_
    obtain ⟨kind, text, q, keyword, quoted⟩ := t
    simp only [Bool.and_eq_true, beq_iff_eq, Bool.not_eq_true'] at hopen
    obtain ⟨⟨rfl, rfl⟩, rfl⟩ := hopen
    obtain rfl : keyword = true := ht.brace rfl rfl rfl
    have hgroup : Obtains (group s (inner s parts (n + 1)) >>= fun c => withRedirects s parts c) _ _ := Obtains.of_cur hbrace
    rw [← bind_assoc]
    exact hfunction hgroup
  · exact .ite_false hopen (hfunction (hcommand us hus))

-- A name and two parentheses in front of a command.
theorem reads_function (h : TakenAt d .command ts body) (hname : IsFunctionName name) (hparts : ReadsWords parts) (hn : ts.length < n)
    (hus : Level.command.Ends us) (p q r p' : Position) : Obtains (simpleCommand s parts (inner s parts n))
      (nameToken name p :: { kind := .lparen, text := "(", pos := q } :: { kind := .rparen, text := ")", pos := r } :: (ts ++ us))
      fun c vs => c.describe = (Command.function p' name false true body).describe ∧ vs = us := by
  obtain ⟨hname, -, hdecl⟩ := hname
  have htext : (nameToken name p).text = name := String.ofList_toList
  have hnone : startsAssignment (nameToken name p).text.toList = false := by
    rw [htext]
    exact startsAssignment_name hname
  refine .step (.left (.simpleFor_inr (.cur (.ite_false Bool.false_ne_true (.ite_true rfl (.ite_true rfl ?_))))))
  refine .bind ((reads_assignment?_none hnone).mono ?_)
  rintro _ _ ⟨rfl, rfl⟩
  refine .step ((does_wordOf hparts (name_spelled (d := d) hname) p).mono ?_)
  rintro w _ ⟨-, rfl⟩
  refine .next (List.cons_ne_nil _ _) (.ite_false Bool.false_ne_true ?_)
  dsimp only
  rw [htext, hdecl, Bool.and_false, if_neg Bool.false_ne_true]
  refine .ite_false Bool.false_ne_true (.cur (.ite_true rfl (.bind ?_)))
  have hplain : (name.toList.any fun c => c == '$' || c == Text.backquote) = false := by
    obtain ⟨-, -, -, -, hall⟩ := Text.exists_cons_of_isName hname
    rw [List.any_eq_false]
    intro c hc
    simp [Token.Scanner.ne_of_isNameChar (hall c hc) (d := '$') rfl, Token.Scanner.ne_of_isNameChar (hall c hc) (d := Text.backquote) rfl]
  refine .ite_false (by rw [htext, hplain]; exact Bool.false_ne_true) ?_
  have hmore : ts ++ us ≠ [] := by
    obtain ⟨u, us, rfl, -⟩ := hus
    simp
  refine .bind (.next (List.cons_ne_nil _ _) (.cur (.ite_false Bool.false_ne_true (.lift (.next hmore ?_)))))
  rw [htext]
  refine (reads_functionBody h hparts hn hus _ p').mono ?_
  rintro c _ ⟨hc, rfl⟩
  exact .pure ⟨c, rfl, hc, rfl⟩

end Functions

end Read

theorem starts_name {name : String} (h : Read.IsFunctionName name) (p : Position) : Starts (Read.nameToken name p) := by
  refine .inl ⟨rfl, rfl, fun hbrace => ?_⟩
  have htext : (Read.nameToken name p).text = name := String.ofList_toList
  have hreserved := h.2.1
  rw [← htext, hbrace] at hreserved
  cases hreserved

theorem function_spelled {d : Dialect} {ℓ : Layout} {name : String} {body : Command} {L : List Piece} (hname : Read.IsFunctionName name)
    (hbody : body.Spelled d ℓ .command L) (p : Position) : ∃ L, (Command.function p name false true body).Spelled d ℓ .command L := by
  refine ⟨namePiece name :: operatorPiece .lparen :: operatorPiece .rparen :: .blank ' ' :: L, ?_, fun rest hrest => ?_, fun ts hts s parts n hparts hn => ?_⟩
  · have hhead : ("" ++ name ++ "()" ++ " ").toList = textOf [namePiece name, operatorPiece .lparen, operatorPiece .rparen, .blank ' '] := by
      simp [textOf, namePiece, operatorPiece, Piece.text, Read.nameToken, Token.plainWord, Token.Kind.text]
    exact (prints_str hhead).bind hbody.prints
  · have hopen : Token.Scanner.Breaks .lparen (')' :: ' ' :: (textOf L ++ rest)) := by
      rintro _ ⟨⟩
      simp
    have hclose : Token.Scanner.Breaks .rparen (' ' :: (textOf L ++ rest)) := by
      rintro _ ⟨⟩
      simp
    exact ⟨fits_name hname.1 (by rw [hname.2.1]; rfl) (Token.Scanner.ends_cons (by decide) _), Token.Scanner.fits_common rfl rfl hopen,
      Token.Scanner.fits_common rfl rfl hclose, .inl rfl, hbody.fits rest hrest⟩
  · obtain ⟨q, us, rfl, hopen⟩ := Token.spells_token.mp hts
    obtain ⟨r, us, rfl, hclose⟩ := Token.spells_token.mp hopen
    obtain ⟨r', us, rfl, hus⟩ := Token.spells_token.mp hclose
    simp only [List.length_cons] at hn
    have htaken := hbody.reads us ((Token.spells_blank _).mp hus)
    refine ⟨fun vs hvs => ?_, (starts_name hname q).staged _⟩
    exact (starts_name hname q).reads (Read.reads_function htaken hname hparts (by omega) hvs q r r' p)

-- A command without here-documents, substitutions and the constructs that have a reading of their own, each part of it
-- where the grammar lets it stand: the text it is written as has its own structure and no other.
inductive Command.Ordinary (d : Dialect) : Level → Command → Prop where
  | simple {as : List Assignment} {ws : List Word} {rs : List Redirect} (plain : IsSimple d as ws rs) : Ordinary d .command (.simple as ws rs)
  | function {p : Position} {name : String} {body : Command} (named : Read.IsFunctionName name) (runs : Ordinary d .command body) :
      Ordinary d .command (.function p name false true body)
  | redirected {x : Command} {rs : List Redirect} (some : rs ≠ []) (inner : Ordinary d .compound x) (redirs : ∀ r ∈ rs, r.Ordinary d) :
      Ordinary d .command (.redirected x rs)
  | group {p : Position} {body : Block} (runs : ∀ c ∈ body.items, Ordinary d .chain c.foreground) : Ordinary d .compound (.group p body)
  | subshell {p : Position} {body : Block} (runs : ∀ c ∈ body.items, Ordinary d .chain c.foreground) : Ordinary d .compound (.subshell p body)
  | loop {p : Position} {untilTrue : Bool} {cond body : Block} (asks : ∀ c ∈ cond.items, Ordinary d .chain c.foreground)
      (condition : cond.IsCondition) (runs : ∀ c ∈ body.items, Ordinary d .chain c.foreground) : Ordinary d .compound (.loop p untilTrue cond body)
  | forIn {p q : Position} {name : String} {hasIn : Bool} {ws : List Word} {body : Block} (named : Text.isName name = true)
      (items : ∀ w ∈ ws, w.Ordinary) (none : hasIn = false → ws = []) (runs : ∀ c ∈ body.items, Ordinary d .chain c.foreground) :
      Ordinary d .compound (.forIn p name q hasIn ws body)
  | ifThen {p : Position} {cond yes : Block} {elifs : List Elif} {no : Option Block}
      (asks : ∀ c ∈ cond.items, Ordinary d .chain c.foreground) (condition : cond.IsCondition)
      (runs : ∀ c ∈ yes.items, Ordinary d .chain c.foreground) (asksElse : ∀ e ∈ elifs, ∀ c ∈ e.cond.items, Ordinary d .chain c.foreground)
      (conditions : ∀ e ∈ elifs, e.cond.IsCondition) (runsElse : ∀ e ∈ elifs, ∀ c ∈ e.yes.items, Ordinary d .chain c.foreground)
      (otherwise : ∀ b ∈ no, ∀ c ∈ b.items, Ordinary d .chain c.foreground) : Ordinary d .compound (.ifThen p cond yes elifs no)
  | pipeline {p : Position} {negated : Bool} {first : Command} {rest : List (Bool × Command)} (some : (rest.isEmpty && !negated) = false)
      (begins : Ordinary d .command first) (more : ∀ l ∈ rest, Ordinary d .command l.2)
      (bars : ∀ l ∈ rest, l.1 = true → d.supports .pipeAll = true) :
      Ordinary d .pipeline (.pipeline p negated (first :: rest.map Prod.snd) (rest.map Prod.fst))
  | andOr {p : Position} {op : Connective} {x y : Command} (left : Ordinary d .chain x) (right : Ordinary d .pipeline y) :
      Ordinary d .chain (.andOr p op x y)
  | command {c : Command} (compound : Ordinary d .compound c) : Ordinary d .command c
  | stage {c : Command} (command : Ordinary d .command c) : Ordinary d .pipeline c
  | chain {c : Command} (pipeline : Ordinary d .pipeline c) : Ordinary d .chain c

theorem Command.Ordinary.spelled {d : Dialect} {v : Level} {c : Command} (h : c.Ordinary d v) (ℓ : Layout) : ∃ L, c.Spelled d ℓ v L := by
  induction h generalizing ℓ with
  | simple hplain => exact simple_spelled hplain
  | function hname _ ih => exact (ih ℓ).elim fun _ hbody => function_spelled hname hbody _
  | redirected hne _ hrs ih => exact (ih ℓ).elim fun _ hx => redirected_spelled hx hne hrs
  | group _ ih => exact group_spelled (fun ℓ c hc => ih c hc ℓ) _ ℓ
  | subshell _ ih => exact subshell_spelled (fun ℓ c hc => ih c hc ℓ) _ ℓ
  | loop _ hplain _ ihc ihb => exact loop_spelled (fun ℓ c hc => ihc c hc ℓ) hplain (fun ℓ c hc => ihb c hc ℓ) _ _ ℓ
  | forIn hname hws hnone _ ih => exact for_spelled hname hws hnone (fun ℓ c hc => ih c hc ℓ) _ _ ℓ
  | ifThen _ hplain _ _ hplains _ _ ihc ihy ihcs ihys ihn =>
      exact if_spelled (fun ℓ c hc => ihc c hc ℓ) hplain (fun ℓ c hc => ihy c hc ℓ)
        (fun e he => ⟨fun ℓ c hc => ihcs e he c hc ℓ, hplains e he, fun ℓ c hc => ihys e he c hc ℓ⟩) (fun b hb ℓ c hc => ihn b hb c hc ℓ) _ ℓ
  | pipeline hsome _ _ hbars ihf ihr => exact pipeline_spelled hsome (ihf ℓ) (fun l hl => ⟨hbars l hl, ihr l hl ℓ⟩) _
  | andOr _ _ ihx ihy =>
      obtain ⟨L, hx⟩ := ihx ℓ
      obtain ⟨M, hy⟩ := ihy ℓ
      exact andOr_spelled hx hy _
  | command _ ih => exact (ih ℓ).elim fun L hc => ⟨L, hc.command⟩
  | stage _ ih => exact (ih ℓ).elim fun L hc => ⟨L, hc.pipeline⟩
  | chain _ ih => exact (ih ℓ).elim fun L hc => ⟨L, hc.chain⟩

end Script
end ShellScript

import ShellScript.Proofs.Script.HeaderReading
import ShellScript.Proofs.Script.OrdinaryCommands
import ShellScript.Proofs.Script.Reprint

-- A script of ordinary commands that is written out is read as it was.
namespace ShellScript
namespace Script

open Token (Piece Spells textOf placed)
open Token.Scanner (FitsAll FoundAll opensAfter fitsAll_append opensAfter_append)

namespace Read

section Header

variable {t u : Token} {hs ts us nls : List Token} {s : Setting} {cmd : Parse Command} {cs : List Command}

-- What may stand before the first command: comments and the ends of lines.
def Idle (hs : List Token) : Prop := ∀ t ∈ hs, t.kind = .comment ∨ t.kind = .newline

-- What a reader of commands sees of tokens.
def seen (ts : List Token) : List Token := (significant 0 ts).2

theorem seen_comment (h : t.kind = .comment) (ts : List Token) : seen (t :: ts) = seen ts := by
  rw [seen, significant, h]
  rfl

theorem seen_of_ne (h : t.kind ≠ .comment ∧ t.kind ≠ .hereDoc) (ts : List Token) : seen (t :: ts) = t :: ts :=
  congrArg Prod.snd (significant_of_ne h.1 h.2 ts)

theorem seen_shown (h : Shown ts) : seen ts = ts := by
  cases ts with
  | nil => rfl
  | cons t ts => exact seen_of_ne (h t (by simp)) ts

theorem significant_fst (ts : List Token) : (significant 0 ts).1 = 0 := by
  induction ts with
  | nil => rfl
  | cons t ts ih =>
      unfold significant
      split
      · exact ih
      · exact ih
      · rfl

theorem suffix_seen (hhs : Idle hs) (hts : Shown ts) : ts <:+ seen (hs ++ ts) := by
  induction hs with
  | nil => exact ⟨[], (seen_shown hts).symm⟩
  | cons u hs ih =>
      obtain ⟨hu, hhs⟩ := List.forall_mem_cons.mp hhs
      rcases hu with hu | hu
      · rw [List.cons_append, seen_comment hu]
        exact ih hhs
      · rw [List.cons_append, seen_of_ne (by simp [hu])]
        exact (List.suffix_append hs ts).trans (List.suffix_cons u _)

theorem next_newline (hne : ts ≠ []) : (next : Scanning Unit) ⟨t :: ts, 0, ds⟩ = ((), ⟨seen ts, 0, ds⟩) := by
  obtain ⟨u, ts, rfl⟩ := List.exists_cons_of_ne_nil hne
  have hnext : (next : Scanning Unit) ⟨t :: u :: ts, 0, ds⟩ = ((), ⟨seen (u :: ts), (significant 0 (u :: ts)).1, ds⟩) := rfl
  rw [hnext, significant_fst]

theorem listFor_newlines (hhs : Idle hs) (hts : Shown (t :: ts)) (ht : t.kind ≠ .newline) {n : Nat}
    (hn : (seen (hs ++ t :: ts)).length < n) (ds : Array Diagnostic.OfText) : ∃ xs, listFor newline? n ⟨seen (hs ++ t :: ts), 0, ds⟩ = (xs, ⟨t :: ts, 0, ds⟩) := by
  obtain ⟨n, rfl⟩ := Nat.exists_eq_succ_of_ne_zero (Nat.ne_of_gt (Nat.zero_lt_of_lt hn))
  induction hs generalizing n with
  | nil =>
      have hturn : (newline? : Scanning (Option Unit)) ⟨t :: ts, 0, ds⟩ = (none, ⟨t :: ts, 0, ds⟩) := by
        refine (bind_of_read (m := cur) rfl _).trans ?_
        rw [if_neg (by simpa using ht)]
        rfl
      rw [List.nil_append, seen_shown hts]
      exact ⟨[], (bind_of_read hturn _).trans rfl⟩
  | cons u hs ih =>
      obtain ⟨hu, hhs⟩ := List.forall_mem_cons.mp hhs
      rcases hu with hu | hu
      · rw [List.cons_append, seen_comment hu] at hn ⊢
        exact ih hhs n hn
      · have hsuffix : (seen (hs ++ t :: ts)).length ≤ (hs ++ t :: ts).length := (significant_suffix 0 _).length_le
        rw [List.cons_append, seen_of_ne (by simp [hu]), List.length_cons] at hn
        obtain ⟨n, rfl⟩ := Nat.exists_eq_succ_of_ne_zero (show n ≠ 0 by omega)
        obtain ⟨xs, hxs⟩ := ih hhs n (by omega)
        have hturn : (newline? : Scanning (Option Unit)) ⟨u :: (hs ++ t :: ts), 0, ds⟩ = (some (), ⟨seen (hs ++ t :: ts), 0, ds⟩) := by
          refine (bind_of_read (m := cur) rfl _).trans ?_
          rw [if_pos (by simpa using hu)]
          exact (bind_of_read (next_newline (by simp)) _).trans rfl
        rw [List.cons_append, seen_of_ne (by simp [hu])]
        exact ⟨() :: xs, (bind_of_read hturn _).trans ((bind_of_read hxs _).trans rfl)⟩

theorem skipNewlines_idle (hhs : Idle hs) (hts : Shown (t :: ts)) (ht : t.kind ≠ .newline) (ds : Array Diagnostic.OfText) :
    (skipNewlines : Scanning Unit) ⟨seen (hs ++ t :: ts), 0, ds⟩ = ((), ⟨t :: ts, 0, ds⟩) := by
  obtain ⟨xs, hxs⟩ := listFor_newlines hhs hts ht (Nat.lt_succ_self _) ds
  refine (bind_of_read (m := left) rfl _).trans ?_
  exact congrArg (fun r : List Unit × Cursor => ((), r.2)) hxs

theorem item?_idle (hhs : Idle hs) (hts : Shown (t :: ts)) (ht : t.kind ≠ .newline) (s : Setting) (cmd : Parse Command)
    (stop : Token → Bool) (ds : Array Diagnostic.OfText) :
    item? s cmd stop ⟨seen (hs ++ t :: ts), 0, ds⟩ = item? s cmd stop ⟨t :: ts, 0, ds⟩ := by
  have hback := skipNewlines_idle (List.forall_mem_nil _) hts ht ds
  rw [List.nil_append, seen_shown hts] at hback
  unfold item?
  rw [bind_of_read (skipNewlines_idle hhs hts ht ds), bind_of_read hback]

-- The first command of a list, or what ends it.
theorem Lists.front {open_ : Bool} (h : Lists cmd open_ cs ts) (hu : u.kind ≠ .newline) (us : List Token) :
    ∃ nls t vs, ts ++ u :: us = nls ++ t :: vs ∧ (∀ t ∈ nls, t.kind = .newline) ∧ t.kind ≠ .newline := by
  cases h with
  | nil hnls => exact ⟨ts, u, us, rfl, hnls, hu⟩
  | cons hnls hbegun _ _ _ =>
      obtain ⟨t, ts, rfl, ht⟩ := hbegun
      exact ⟨_, t, _, by simp; rfl, hnls, ht.kind_ne.1⟩
  | last hnls hbegun _ _ =>
      obtain ⟨t, ts, rfl, ht⟩ := hbegun
      exact ⟨_, t, _, by simp; rfl, hnls, ht.kind_ne.1⟩

-- The header is passed before the first command is read.
theorem Lists.block_idle (hlist : Lists cmd false cs ts) (hhs : Idle hs) {stop : Token → Bool} (hend : ListEnd stop false u)
    (hts : Shown (ts ++ [u])) (p : Position) :
    ∃ b c, block s cmd stop ⟨seen (hs ++ (ts ++ [u])), 0, #[]⟩ = (b, c) ∧ b.describe = (Block.mk p cs).describe ∧ c.diags = #[] := by
  obtain ⟨nls, t, vs, hfront, hnls, ht⟩ := hlist.front hend.newline []
  have hshown : Shown (t :: vs) := fun v hv => hts v (by rw [hfront]; exact List.mem_append_right _ hv)
  have hitem : item? s cmd stop ⟨seen (hs ++ (ts ++ [u])), 0, #[]⟩ = item? s cmd stop ⟨ts ++ [u], 0, #[]⟩ := by
    have hidle : Idle nls := fun v hv => .inr (hnls v hv)
    have hwhole : Idle (hs ++ nls) := List.forall_mem_append.mpr ⟨hhs, hidle⟩
    have hback := item?_idle hidle hshown ht s cmd stop #[]
    rw [← hfront, seen_shown hts] at hback
    have hall := item?_idle hwhole hshown ht s cmd stop #[]
    rw [List.append_assoc, ← hfront] at hall
    exact hall.trans hback.symm
  have hlength := (suffix_seen hhs hts).length_le
  obtain ⟨xs, vs', hxs, -, hsame, -⟩ := hlist.does_items (s := s) hend (Nat.lt_succ_of_le hlength) hts 0 #[]
  have hitems : listFor (item? s cmd stop) ((seen (hs ++ (ts ++ [u]))).length + 1) ⟨seen (hs ++ (ts ++ [u])), 0, #[]⟩ =
      (xs, ⟨vs', 0, #[]⟩) := by
    rw [← hxs, listFor]
    exact (bind_of_read (hitem.trans rfl) _).trans (bind_of_read rfl _).symm
  refine ⟨{ start := ((seen (hs ++ (ts ++ [u]))).headD endOfText).pos, items := xs.filterMap id }, ⟨vs', 0, #[]⟩, ?_, ?_, rfl⟩
  · refine (bind_of_read (m := cur) rfl _).trans ((bind_of_read (m := left) rfl _).trans ?_)
    exact (bind_of_read hitems _).trans rfl
  · rw [Block.describe, Block.describe, hsame]

end Header

-- Where the block of all tokens is read with nothing to report, so is the text.
theorem textAt_of_block {parts : PartsReader} {p : Position} {cs : List Char} {toks : List Token} {b : Block} {c : Cursor}
    (hscan : Token.scanText s.dialect s.file p cs = (toks, []))
    (hblock : block s (command s parts (inner s parts (seen toks).length)) (fun _ => false) ⟨seen toks, 0, #[]⟩ = (b, c))
    (hdiags : c.diags = #[]) : textAt s parts p cs = (b, []) := by
  have hblock : blockOf s parts (startOf (scanned s p cs).1) = (b, c) := by
    rw [scanned, hscan]
    exact hblock
  have hsettle : settle [] = [] := by simp [settle, Text.compact]
  rw [textAt_eq, hblock, scanned, hscan, hdiags]
  exact congrArg (Prod.mk b) hsettle

theorem readsWords (s : Setting) (n : Nat) : ReadsWords (Read.parts s (nested s (n + 1))) := by
  intro ps cs p h
  have hnested : ∃ s' inner, (nested s (n + 1)).parts = Read.parts s' inner := ⟨s, nested s n, rfl⟩
  obtain ⟨ps', hsame, hread⟩ := partsFrom_written (s := s) h (fun _ => hnested) (Nat.lt_succ_self _) true {} (.inl rfl) p
  exact ⟨ps', hsame, hread⟩

end Read

-- The header, each of its lines a comment, and a line without text.

def commentPiece (l : String) : Piece := .token { kind := .comment, text := l, pos := {} }

def lineEnd : Piece := .token { kind := .newline, text := "\n", pos := {} }

def headerPieces (h : Header) : List Piece :=
  if h.lines = [] then [] else (h.lines.flatMap fun l => [commentPiece l, lineEnd]) ++ [lineEnd]

section Header

variable {d : Dialect} {h : Header} {rest : List Char}

theorem sharp_of_mem_lines (hlegible : h.Legible) {l : String} (hl : l ∈ h.lines) : ∃ cs, l.toList = '#' :: cs := by
  rcases List.mem_append.mp hl with hl | hl
  · split at hl
    · cases hl
    · obtain rfl := List.mem_singleton.mp hl
      have hsign := hlegible.shebang.resolve_left fun hempty => by simp [hempty] at *
      obtain ⟨cs, hcs⟩ := List.isPrefixOf_iff_prefix.mp hsign
      exact ⟨'!' :: cs, hcs.symm⟩
  · obtain ⟨tag, -, rfl⟩ := List.mem_map.mp hl
    exact ⟨_, by simp [Header.line]; rfl⟩

theorem textOf_headerPieces (h : Header) : textOf (headerPieces h) = h.text.toList := by
  have hlines (ls : List String) : textOf (ls.flatMap fun l => [commentPiece l, lineEnd]) = (String.join (ls.map (· ++ "\n"))).toList := by
    induction ls with
    | nil => simp
    | cons l ls ih =>
        have hline : textOf [commentPiece l, lineEnd] = (l ++ "\n").toList := by simp [textOf, commentPiece, lineEnd, Piece.text]
        rw [List.flatMap_cons, Token.textOf_append, ih, hline]
        simp
  rw [Header.text_eq, headerPieces]
  split
  · rfl
  · rw [Token.textOf_append, hlines]
    simp [textOf, lineEnd, Piece.text]

theorem found_header (hlegible : h.Legible) (rest : List Char) : FoundAll d true (headerPieces h) rest ∧ opensAfter true (headerPieces h) = true := by
  have hall (ls : List String) (hls : ∀ l ∈ ls, l ∈ h.lines) (rest : List Char) :
      FoundAll d true (ls.flatMap fun l => [commentPiece l, lineEnd]) rest ∧ opensAfter true (ls.flatMap fun l => [commentPiece l, lineEnd]) = true := by
    induction ls with
    | nil => exact ⟨trivial, rfl⟩
    | cons l ls ih =>
        obtain ⟨hl, hls⟩ := List.forall_mem_cons.mp hls
        obtain ⟨cs, hcs⟩ := sharp_of_mem_lines hlegible hl
        have hline := Header.newline_free_lines hlegible l hl
        obtain ⟨hfound, hopens⟩ := ih hls
        rw [hcs] at hline
        have hcomment : Token.Scanner.Found d true (textOf (lineEnd :: ls.flatMap fun l => [commentPiece l, lineEnd]) ++ rest)
            { kind := .comment, text := String.ofList ('#' :: cs), pos := {} } :=
          .comment (fun hmem => hline (List.mem_cons_of_mem _ hmem)) rfl {}
        rw [← hcs, String.ofList_toList] at hcomment
        exact ⟨⟨hcomment, .token (.newline {}), hfound⟩, hopens⟩
  unfold headerPieces
  split
  · exact ⟨trivial, rfl⟩
  · obtain ⟨hfound, hopens⟩ := hall h.lines (fun _ hl => hl) (textOf [lineEnd] ++ rest)
    refine ⟨Token.Scanner.eachToken_append.mpr ⟨hfound, ?_⟩, ?_⟩
    · exact ⟨.token (.newline {}), trivial⟩
    · rw [opensAfter_append]
      rfl

theorem idle_header {h : Header} {ts : List Token} (hts : Spells (headerPieces h) ts) : Read.Idle ts := by
  have hall (ls : List String) {ts : List Token} (hts : Spells ((ls.flatMap fun l => [commentPiece l, lineEnd]) ++ [lineEnd]) ts) :
      Read.Idle ts := by
    induction ls generalizing ts with
    | nil =>
        obtain ⟨p, us, rfl, hus⟩ := Token.spells_token.mp hts
        rw [Token.spells_nil.mp hus]
        exact List.forall_mem_singleton.mpr (.inr rfl)
    | cons l ls ih =>
        obtain ⟨p, us, rfl, hus⟩ := Token.spells_token.mp hts
        obtain ⟨q, us, rfl, hmore⟩ := Token.spells_token.mp hus
        exact List.forall_mem_cons.mpr ⟨.inl rfl, List.forall_mem_cons.mpr ⟨.inr rfl, ih hmore⟩⟩
  unfold headerPieces at hts
  split at hts
  · rw [Token.spells_nil.mp hts]
    exact nofun
  · exact hall h.lines hts

end Header

-- The commands of a script, each on a line of its own.
structure TopSpelled (d : Dialect) (cs : List Command) (L : List Piece) : Prop where
  prints : Prints {} (printTop cs) L
  fits : FitsAll d true L []
  reads : ∀ ts, Spells L ts → Read.ListedAt false cs ts

theorem exists_topSpelled {d : Dialect} {cs : List Command} (h : ∀ c ∈ cs, c.foreground.Ordinary d .chain) : ∃ L, TopSpelled d cs L := by
  induction cs with
  | nil =>
      refine ⟨[], prints_pure, trivial, fun ts hts => ?_⟩
      rw [Token.spells_nil.mp hts]
      exact listedAt_nil nofun
  | cons c cs ih =>
      obtain ⟨hc, hcs⟩ := List.forall_mem_cons.mp h
      obtain ⟨L, hL⟩ := hc.spelled {}
      obtain ⟨M, hM⟩ := ih hcs
      refine ⟨(L ++ ampPieces c) ++ (newlinePieces 0 ++ M), (prints_item hL).bind (prints_newline.bind hM.prints), ?_, fun ts hts => ?_⟩
      · refine fitsAll_append.mpr ⟨fits_item hL (closes_cons (.inr (.inl rfl)) _), fitsAll_append.mpr ⟨fits_newline 0 _ _, ?_⟩⟩
        rw [opensAfter_newline]
        exact hM.fits
      · obtain ⟨us, vs, rfl, hus, hvs⟩ := Token.spells_append.mp hts
        obtain ⟨e, vs, rfl, he, hmore⟩ := spells_newline hvs
        have hlist := hM.reads vs hmore
        obtain ⟨us, as, rfl, hL', has⟩ := Token.spells_append.mp hus
        unfold ampPieces at has
        split at has
        · obtain ⟨q, as, rfl, hnil⟩ := Token.spells_token.mp ((Token.spells_blank _).mp has)
          rw [Token.spells_nil.mp hnil, List.append_assoc]
          exact listedAt_cons hL hL' (by simp [*]) (listedAt_newline hlist he)
        · rw [Token.spells_nil.mp has, List.append_nil]
          exact listedAt_cons hL hL' (by simp [*]) hlist

-- A script all of whose commands are ordinary.
def Block.Ordinary (d : Dialect) (b : Block) : Prop := ∀ c ∈ b.items, c.foreground.Ordinary d .chain

attribute [local irreducible] Read.textAt

-- The commands are written behind a header and read with nothing to report.
theorem read_written {d : Dialect} {h : Header} {b : Block} (hlegible : h.Legible) (hb : b.Ordinary d) (name : String) :
    (readAs d name (h.text ++ b.text)).found = [] ∧ (readAs d name (h.text ++ b.text)).body.describe = b.describe := by
  obtain ⟨p, cs⟩ := b
  obtain ⟨L, hL⟩ := exists_topSpelled hb
  have htext : (h.text ++ (Block.mk p cs).text).toList = textOf (headerPieces h ++ L) := by
    have hprint : (printTop cs).run {} = _ := hL.prints ""
    rw [Token.textOf_append, textOf_headerPieces, String.toList_append, Block.text, Printer.fresh, hprint]
    simp
  obtain ⟨hfound, hopens⟩ := found_header (d := d) hlegible (textOf L ++ [])
  have hall : FoundAll d true (headerPieces h ++ L) [] := by
    refine Token.Scanner.eachToken_append.mpr ⟨hfound, ?_⟩
    rw [hopens]
    exact hL.fits.found
  have hscan := Token.Scanner.scanText_pieces hall name Position.start
  obtain ⟨hs, ts, hplaced, hhs, hts⟩ := Token.spells_append.mp (Token.spells_placed Position.start (headerPieces h ++ L))
  obtain ⟨eof, heof, hscan⟩ : ∃ eof : Token, eof.kind = .eof ∧
      Token.scanText d name Position.start (h.text ++ (Block.mk p cs).text).toList = (hs ++ (ts ++ [eof]), []) :=
    ⟨_, rfl, by rw [htext, hscan, hplaced, List.append_assoc]⟩
  have hshown : Read.Shown (ts ++ [eof]) :=
    List.forall_mem_append.mpr ⟨Read.shown_of_spells hL.fits hts, List.forall_mem_singleton.mpr (by simp [heof])⟩
  have hend : Read.ListEnd (fun _ => false) false eof := ⟨fun _ _ => rfl, .inl heof, by simp [heof], by simp⟩
  have hidle := idle_header hhs
  have hlength := (Read.suffix_seen hidle hshown).length_le
  have hparts := Read.readsWords ⟨d, name⟩ (h.text ++ (Block.mk p cs).text).toList.length
  have hlist := hL.reads ts hts ⟨d, name⟩ _ (Read.seen (hs ++ (ts ++ [eof]))).length hparts (by simp at hlength ⊢; omega)
  obtain ⟨b, c, hblock, hsame, hdiags⟩ := hlist.block_idle (s := ⟨d, name⟩) hidle hend hshown p
  have hfile := (readAs_eq d name _).symm.trans (Read.textAt_of_block hscan hblock hdiags)
  obtain ⟨hbody, hnone⟩ := Prod.ext_iff.mp hfile
  exact ⟨hnone, (congrArg Block.describe hbody).trans hsame⟩

theorem header_readAs (d : Dialect) (name src : String) : (readAs d name src).header = Header.ofSource src := rfl

theorem header_written {d : Dialect} {f : File} (hlegible : f.header.Legible) (hlasting : f.header.Lasting) (hplain : Plain f.body.text.toList)
    (hspace : ∀ r ∈ (Text.runes f.body.text).head?, r.isSpace = false) (name : String) : (readAs d name f.text).header = f.header := by
  rw [header_readAs, File.text, Header.ofSource_text hlegible, Header.ofLines_of_plain hplain hspace]
  exact (Header.reread_eq_self hlegible).mpr hlasting

-- A script of ordinary commands is written as a text in which nothing is wrong and which is read as the same commands, and
-- so is written once more as it was; the header is as well where it lasts. Any other text that is read back with the same
-- outline is written once more just as it was too.
theorem reprint_of_ordinary (d : Dialect) (name src : String) :
    let f := readAs d name src
    let g := readAs d name f.text
    (f.body.Ordinary d → g.diags = [] ∧ g.isFatal = false ∧ g.body.describe = f.body.describe ∧ g.body.text = f.body.text ∧
      (f.isFatal = false → f.header.Lasting → (∀ r ∈ (Text.runes f.body.text).head?, r.isSpace = false) → g.text = f.text)) ∧
    (g.body.describe = f.body.describe → g.body.text = f.body.text) ∧ (g.describe = f.describe → g.text = f.text) := by
  refine ⟨fun hordinary => ?_, Block.text_of_describe, File.text_of_describe⟩
  have hlegible : (readAs d name src).header.Legible := by
    rw [header_readAs]
    exact Header.legible_ofSource src
  have hplain : (readAs d name src).isFatal = false → Plain (readAs d name src).body.text.toList := @plain_body (some d) name src
  generalize readAs d name src = f at *
  obtain ⟨hfound, hsame⟩ : (readAs d name f.text).found = [] ∧ (readAs d name f.text).body.describe = f.body.describe :=
    read_written hlegible hordinary name
  have hdiags : (readAs d name f.text).diags = [] := congrArg (List.map Subtype.val) hfound
  refine ⟨hdiags, by rw [File.isFatal, hdiags]; rfl, hsame, Block.text_of_describe hsame, fun hsound hlasting hspace => ?_⟩
  have hheader := header_written (d := d) hlegible hlasting (hplain hsound) hspace name
  rw [File.text, hheader, Block.text_of_describe hsame]
  rfl

theorem Word.ordinary_lit {p : Position} {v : String} (hplain : ∀ c ∈ v.toList, c ∉ wordMarks false)
    (hhead : v.toList.head?.any Token.Scanner.startsWord = true) : Word.Ordinary ⟨[.lit p v]⟩ := by
  cases hv : v.toList with
  | nil => simp [hv] at hhead
  | cons c cs =>
      have hwritten : Written false [.lit p v] (v.toList ++ []) :=
        .lit p (.of_plain fun c hc hmark => hplain c hc hmark) (by rintro rfl; cases hv) nofun (.nil _)
      rw [hv, List.append_nil] at hwritten
      rw [hv] at hhead
      exact ⟨c, cs, hwritten, by simpa using hhead⟩

def branches : String := "if a; then b \"$x\" >f | (c) & fi\n"

-- What is read of it, wherever it stands.
def isBranches : Block → Bool
  | ⟨_, [.ifThen _ ⟨_, [.simple [] [⟨[.lit _ "a"]⟩] []]⟩
      ⟨_, [.background (.pipeline _ false
        [.simple [] [⟨[.lit _ "b"]⟩, ⟨[.double _ false [.param _ ⟨true, "x", false, false, none, none, none, none, none⟩]]⟩]
          [⟨_, .great, "", ⟨[.lit _ "f"]⟩, none⟩], .subshell _ ⟨_, [.simple [] [⟨[.lit _ "c"]⟩] []]⟩] [false])]⟩ [] none]⟩ => true
  | _ => false

theorem Word.text_lit (p : Position) (v : String) : (Word.mk [.lit p v]).text = v :=
  (show (Word.mk [.lit p v]).text = "" ++ v from rfl).trans String.empty_append

theorem ordinary_word {d : Dialect} {p : Position} {v : String} (hplain : ∀ c ∈ v.toList, c ∉ wordMarks false)
    (hhead : v.toList.head?.any Token.Scanner.startsWord = true)
    (hname : Read.startsAssignment v.toList = false ∧ Read.declarations.contains v = false ∧ Token.isReserved v = false) :
    Command.Ordinary d .command (.simple [] [⟨[.lit p v]⟩] []) := by
  refine .simple ⟨.inr (.inl (List.cons_ne_nil _ _)), nofun, List.forall_mem_singleton.mpr (Word.ordinary_lit hplain hhead), nofun, ?_⟩
  rintro _ ⟨⟩
  rwa [Word.text_lit]

theorem ordinary_pair {d : Dialect} {p : Position} {x y : Command} (hx : x.Ordinary d .command) (hy : y.Ordinary d .command) :
    (Command.pipeline p false [x, y] [false]).Ordinary d .pipeline := by
  have hone : ∀ l ∈ [(false, y)], l.2.Ordinary d .command := List.forall_mem_singleton.mpr hy
  exact .pipeline rfl hx hone nofun

theorem ordinary_of_isBranches {b : Block} (h : isBranches b = true) : b.Ordinary .bash := by
  unfold isBranches at h
  split at h
  · have hone {d : Dialect} {v : Read.Level} {x : Command} (hx : x.foreground.Ordinary d v) : ∀ c ∈ [x], c.foreground.Ordinary d v :=
      List.forall_mem_singleton.mpr hx
    have hplain {p : Position} {v : String} (hv : v ∈ ["a", "c"]) : Command.Ordinary .bash .command (.simple [] [⟨[.lit p v]⟩] []) := by
      have hall : ∀ v ∈ ["a", "c"], (v.toList.all fun c => c ∉ wordMarks false) = true ∧ v.toList.head?.any Token.Scanner.startsWord = true ∧
          Read.startsAssignment v.toList = false ∧ Read.declarations.contains v = false ∧ Token.isReserved v = false := by decide
      obtain ⟨hsolid, hhead, hname⟩ := hall v hv
      exact ordinary_word (List.all_iff_forall_prop.mp hsolid) hhead hname
    refine hone (.chain (.stage (.command (.ifThen (hone (.chain (.stage (hplain (by simp))))) ⟨_, rfl, rfl⟩ ?_ nofun nofun nofun nofun))))
    refine hone (.chain (ordinary_pair (.simple ⟨.inr (.inl (List.cons_ne_nil _ _)), nofun, ?_, List.forall_mem_singleton.mpr ?_, ?_⟩) ?_))
    · exact List.forall_mem_cons.mpr ⟨Word.ordinary_lit (List.all_iff_forall_prop.mp (by decide)) (by decide), List.forall_mem_singleton.mpr
        ⟨'"', _, .double _ (.param _ (n := ['x']) (.name (by decide)) (by decide) (.nil _)) (.nil _), rfl⟩⟩
    · exact ⟨⟨rfl, rfl⟩, nofun, .inl rfl, Word.ordinary_lit (List.all_iff_forall_prop.mp (by decide)) (by decide), rfl⟩
    · rintro _ ⟨⟩
      rw [Word.text_lit]
      decide
    · exact .command (.subshell (hone (.chain (.stage (hplain (by simp))))))
  · cases h

theorem reprint_of_branches :
    let f := readAs .bash "" branches
    (readAs .bash "" f.text).diags = [] ∧ (readAs .bash "" f.text).body.describe = f.body.describe ∧ (readAs .bash "" f.text).text = f.text := by
  obtain ⟨hbody, hsound, hlasting, hspace⟩ : isBranches (readAs .bash "" branches).body = true ∧ (readAs .bash "" branches).isFatal = false ∧
      (readAs .bash "" branches).header.Lasting ∧ ∀ r ∈ (Text.runes (readAs .bash "" branches).body.text).head?, r.isSpace = false := by
    decide +kernel
  obtain ⟨hdiags, -, hsame, -, htext⟩ := (reprint_of_ordinary .bash "" branches).1 (ordinary_of_isBranches hbody)
  exact ⟨hdiags, hsame, htext hsound hlasting hspace⟩

-- Elsewhere it need not be read back with the same outline: an operator is written right before its word, also where the
-- two make a longer operator.
theorem process_substitution_runs_into_operator :
    let f := readAs .bash "" "cat > >(b)\n"
    f.isFatal = false ∧ f.text = "cat >>(b)\n" ∧ (readAs .bash "" f.text).isFatal = true := by
  decide +kernel

end Script
end ShellScript

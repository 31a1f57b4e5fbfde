import ShellScript.Proofs.Program.Lowering

-- What the statements of a program need beside themselves. Whatever a script is bound to on its way to a program comes
-- from its plan.
namespace ShellScript
namespace Program

-- Something that a statement needs and that is kept elsewhere in its program.
inductive Link where
  | content (key : String)
  | unit (path : String)
  -- the program behind a command, with the name of the command as far as it is written out
  | program (name : Option String) (number : Nat)

mutual

-- The text of a part without expansions. A tilde is written out as it is.
def Part.text? : Part → Option String
  | .lit text _ => some text
  | .quoted ps => partsText? ps
  | .tilde user => some ("~" ++ user)
  | _ => none

def partsText? : List Part → Option String
  | [] => some ""
  | p :: ps =>
    match p.text?, partsText? ps with
    | some a, some b => some (a ++ b)
    | _, _ => none

end

def Word.text? (w : Word) : Option String := partsText? w.parts

-- The name that a command is called by.
def commandName? (args : List Word) : Option String := args.head?.bind Word.text?

mutual

def Word.links : Word → List Link
  | ⟨ps⟩ => partLinks ps

def optWordLinks : Option Word → List Link
  | none => []
  | some w => w.links

def wordLinks : List Word → List Link
  | [] => []
  | w :: ws => w.links ++ wordLinks ws

def optWordsLinks : Option (List Word) → List Link
  | none => []
  | some ws => wordLinks ws

def Part.links : Part → List Link
  | .lit _ _ => []
  | .quoted ps => partLinks ps
  | .param x => x.links
  | .subst body => body.links
  | .arith x => optArithLinks x
  | .brace _ elems => wordLinks elems
  | .tilde _ => []
  | .embedded key => [.content key]
  | .runtimePath word _ => word.links

def partLinks : List Part → List Link
  | [] => []
  | p :: ps => p.links ++ partLinks ps

def Param.links : Param → List Link
  | ⟨_, _, _, _, index, _, arg, repl⟩ => optWordLinks index ++ (optWordLinks arg ++ optWordLinks repl)

def Arith.links : Arith → List Link
  | .num _ => []
  | .var _ index => optArithLinks index
  | .word w => w.links
  | .binary _ x y => x.links ++ y.links
  | .unary _ _ x => x.links
  | .ternary cond yes no => cond.links ++ (yes.links ++ optArithLinks no)

def optArithLinks : Option Arith → List Link
  | none => []
  | some x => x.links

def Test.links : Test → List Link
  | .word w => w.links
  | .unary _ x => x.links
  | .binary _ x y => x.links ++ y.links

def Assign.links : Assign → List Link
  | ⟨_, index, _, value, array⟩ => optWordLinks index ++ (optWordLinks value ++ optWordsLinks array)

def assignLinks : List Assign → List Link
  | [] => []
  | a :: as => a.links ++ assignLinks as

def redirLinks : List Redir → List Link
  | [] => []
  | ⟨_, _, word⟩ :: rs => word.links ++ redirLinks rs

def Block.links : Block → List Link
  | ⟨_, stmts⟩ => stmtLinks stmts

def optBlockLinks : Option Block → List Link
  | none => []
  | some b => b.links

def armLinks : List CaseArm → List Link
  | [] => []
  | ⟨patterns, body, _⟩ :: arms => wordLinks patterns ++ (body.links ++ armLinks arms)

def Stmt.links : Stmt → List Link
  | .call _ assigns args redirs _ external =>
    external.toList.map (.program (commandName? args)) ++ (assignLinks assigns ++ (wordLinks args ++ redirLinks redirs))
  | .decl _ _ opts assigns redirs => wordLinks opts ++ (assignLinks assigns ++ redirLinks redirs)
  | .andOr _ x y => x.links ++ y.links
  | .pipeline _ stages _ => stmtLinks stages
  | .background x => x.links
  | .ifThen cond yes no => cond.links ++ (yes.links ++ optBlockLinks no)
  | .loop _ cond body => cond.links ++ body.links
  | .forIn _ _ items body => wordLinks items ++ body.links
  | .forArith start cond post body =>
    optArithLinks start ++ (optArithLinks cond ++ (optArithLinks post ++ body.links))
  | .select _ _ items body => wordLinks items ++ body.links
  | .caseOf word arms => word.links ++ armLinks arms
  | .function _ body => body.links
  | .subshell body => body.links
  | .group body => body.links
  | .arith x => x.links
  | .test x => x.links
  | .redirected x redirs => x.links ++ redirLinks redirs
  | .source _ unit args redirs => .unit unit :: (wordLinks args ++ redirLinks redirs)

def stmtLinks : List Stmt → List Link
  | [] => []
  | s :: ss => s.links ++ stmtLinks ss

end

section Texts

theorem partsText?_append {ps qs : List Part} {s t : String} (hs : partsText? ps = some s) (ht : partsText? qs = some t) :
    partsText? (ps ++ qs) = some (s ++ t) := by
  induction ps generalizing s with
  | nil =>
      obtain rfl : "" = s := Option.some.inj hs
      simpa using ht
  | cons p ps ih =>
      rw [partsText?] at hs
      split at hs
      · rename_i a b ha hb
        obtain rfl := Option.some.inj hs
        rw [List.cons_append, partsText?, ha, ih hb]
        simp [String.append_assoc]
      · cases hs

theorem partsText?_of_carries {ps : List Part} {ms : List (Char × Bool)} (h : Carries ps ms) :
    partsText? ps = some (String.ofList (ms.map Prod.fst)) := by
  induction h with
  | nil => rfl
  | lit _ ih =>
      rw [partsText?, ih]
      simp [Part.text?, String.ofList_append, Function.comp_def]

theorem fst_marked (cs : List Char) : (marked cs).map Prod.fst = Script.unescapeList cs := by
  fun_induction marked cs with
  | case1 => rfl
  | case2 cs ih => rw [ih, Script.unescapeList]
  | case3 c cs hc ih =>
      rw [List.map_cons, ih, Script.unescapeList]
      exact hc
  | case4 c cs hnewline hescape ih =>
      rw [List.map_cons, ih, Script.unescapeList]
      · exact hnewline
      · exact hescape

theorem text_of_litImage {s : String} {ps : List Part} (h : LitImage s ps) :
    partsText? ps = some (Script.unescape s) := by
  cases h with
  | whole hplain =>
      have hself : Script.unescapeList s.toList = s.toList := by
        simpa [Script.unescapeList] using Script.unescapeList_append hplain []
      simp [partsText?, Part.text?, Script.unescape, hself]
  | split _ hcarries =>
      rw [partsText?_of_carries hcarries, fst_marked]
      rfl

theorem text_of_restImage {s : String} {ps : List Part} (h : RestImage s ps) :
    partsText? ps = some (Script.unescape s) := by
  cases h with
  | none => rfl
  | some hlit => exact text_of_litImage hlit

-- A login name has no escapes.
theorem unescape_of_tildePrefix {s user rest : String} (h : TildePrefix s user rest) :
    Script.unescape s = "~" ++ user ++ Script.unescape rest := by
  have hplain : '\\' ∉ '~' :: user.toList := by
    rw [List.mem_cons, not_or]
    exact ⟨by decide, fun hmem => absurd (h.login _ hmem) (by decide)⟩
  rw [Script.unescape, h.text, Script.unescapeList_append hplain]
  refine String.toList_inj.mp ?_
  simp [Script.unescape]

-- Parts that a part of a script without expansions stands for, with the same text.
def Spelled (quoted : Bool) (p : Script.WordPart) (xs : List Part) : Prop :=
  ∃ s, p.value? quoted = some s ∧ partsText? xs = some s

theorem text_flatten {quoted : Bool} {ps : List Script.WordPart} {each : List (List Part)}
    (h : List.Forall₂ (Spelled quoted) ps each) :
    ∃ s, Script.partsValue? quoted ps = some s ∧ partsText? each.flatten = some s := by
  induction h with
  | nil => exact ⟨"", rfl, rfl⟩
  | cons hp _ ih =>
      obtain ⟨s, hvalue, htext⟩ := hp
      obtain ⟨t, hvalues, htexts⟩ := ih
      exact ⟨s ++ t, by rw [Script.partsValue?, hvalue, hvalues], partsText?_append htext htexts⟩

-- A leading tilde is taken out of the literal that it begins.
theorem text_withTilde {ps : List Script.WordPart} {each : List (List Part)}
    (h : List.Forall₂ (Spelled false) ps each) :
    ∃ s, Script.partsValue? false ps = some s ∧ partsText? (withTilde ps each) = some s := by
  unfold withTilde
  split
  · rename_i p s ps
    cases htilde : tilde? s with
    | none => exact text_flatten h
    | some split =>
        obtain ⟨user, tail⟩ := split
        cases h with
        | cons hlit hrest =>
            obtain ⟨t, hvalues, htexts⟩ := text_flatten hrest
            have hvalue : (Script.WordPart.lit p s).value? false = some ("~" ++ user ++ Script.unescape tail) := by
              rw [Script.WordPart.value?, ← unescape_of_tildePrefix (tildePrefix_of_tilde? htilde)]
              rfl
            refine ⟨_, by rw [Script.partsValue?, hvalue, hvalues], ?_⟩
            have htail := partsText?_append (text_of_restImage (restImage_litUnlessEmpty tail)) htexts
            simp [partsText?, Part.text?, htail, String.append_assoc]
  · exact text_flatten h

mutual

theorem text_each (u : Plan) (index : IndexReader) (quoted : Bool) : ∀ {ps : List Script.WordPart},
    (Script.partsValue? quoted ps).isSome = true →
    Yields (lowerEach u index (if quoted then .double else .none) ps) fun each => List.Forall₂ (Spelled quoted) ps each
  | [], _ => by
      rw [lowerEach]
      exact .pure .nil
  | p :: ps, h => by
      obtain ⟨hp, hps⟩ : (p.value? quoted).isSome = true ∧ (Script.partsValue? quoted ps).isSome = true := by
        rw [Script.partsValue?] at h
        split at h
        · rename_i ha hb
          simp [ha, hb]
        · cases h
      rw [lowerEach]
      exact (text_part u index quoted hp).bind fun _ => (text_each u index quoted hps).bind fun _ =>
        .pure fun hs h => .cons h hs

theorem text_part (u : Plan) (index : IndexReader) (quoted : Bool) : ∀ {p : Script.WordPart},
    (p.value? quoted).isSome = true →
    Yields (lowerPart u index (if quoted then .double else .none) p) fun xs => Spelled quoted p xs
  | .lit _ s, _ => by
      rw [lowerPart]
      refine .pure ⟨_, rfl, ?_⟩
      cases quoted with
      | false => exact text_of_litImage (litImage_litParts s)
      | true => simp [litOf, partsText?, Part.text?]
  | .single _ dollar s, _ => by
      rw [lowerPart]
      exact .pure ⟨_, rfl, by simp [partsText?, Part.text?]⟩
  | .double _ _ ps, h => by
      rw [lowerPart]
      rw [Script.WordPart.value?] at h
      refine (text_each u index true h).bind fun each => .pure fun heach => ?_
      obtain ⟨s, hvalue, htext⟩ := text_flatten heach
      refine ⟨s, by rw [Script.WordPart.value?, hvalue], ?_⟩
      simp [partsText?, Part.text?, htext]
  | .param _ _, h => nomatch h
  | .command _ _ _, h => nomatch h
  | .arith _ _, h => nomatch h
  | .brace _ _ _, h => nomatch h
  | .process _ _ _, h => nomatch h

end

-- A word whose text is fixed keeps it.
theorem text_plain (u : Plan) (index : IndexReader) {w : Script.Word} {name : String} (h : w.value? = some name) :
    Yields (lowerPlain u index w) fun x => x.text? = some name := by
  obtain ⟨ps⟩ := w
  rw [lowerPlain]
  have hvalue : Script.partsValue? false ps = some name := h
  refine (text_each u index false (by rw [hvalue]; rfl)).bind fun each => .pure fun heach => ?_
  obtain ⟨s, hsame, htext⟩ := text_withTilde heach
  rw [Word.text?, htext, ← hsame, hvalue]

end Texts

theorem Yields.and {α : Type} {m : Lowering α} {Q R : α → Prop} (h : Yields m Q) (h' : Yields m R) :
    Yields m fun a => Q a ∧ R a :=
  ⟨h.keeps, fun ds hds => ⟨h.result ds hds, h'.result ds hds⟩⟩

-- Links that are all of one sort.
def Only (P : Link → Prop) (ls : List Link) : Prop := ∀ l ∈ ls, P l

namespace Only

variable {P : Link → Prop} {ls ms : List Link}

theorem nil : Only P [] := List.forall_mem_nil _

theorem append (h : Only P ls) (h' : Only P ms) : Only P (ls ++ ms) := List.forall_mem_append.mpr ⟨h, h'⟩

theorem cons {l : Link} (h : P l) (h' : Only P ls) : Only P (l :: ls) := List.forall_mem_cons.mpr ⟨h, h'⟩

end Only

section Parts

variable {P : Link → Prop}

theorem partLinks_append (ps qs : List Part) : partLinks (ps ++ qs) = partLinks ps ++ partLinks qs := by
  induction ps with
  | nil => rfl
  | cons p ps ih => rw [List.cons_append, partLinks, partLinks, ih, List.append_assoc]

theorem only_flatten {each : List (List Part)} (h : ∀ xs ∈ each, Only P (partLinks xs)) :
    Only P (partLinks each.flatten) := by
  induction each with
  | nil => exact .nil
  | cons xs each ih =>
      obtain ⟨hxs, heach⟩ := List.forall_mem_cons.mp h
      rw [List.flatten_cons, partLinks_append]
      exact hxs.append (ih heach)

theorem links_of_carries {ps : List Part} {ms : List (Char × Bool)} (h : Carries ps ms) : partLinks ps = [] := by
  induction h with
  | nil => rfl
  | lit _ ih => rw [partLinks, ih]; rfl

-- Literal text needs nothing.
theorem only_of_litImage {s : String} {ps : List Part} (h : LitImage s ps) : Only P (partLinks ps) := by
  cases h with
  | whole => exact .nil
  | split _ hcarries =>
      rw [links_of_carries hcarries]
      exact .nil

theorem only_of_restImage {s : String} {ps : List Part} (h : RestImage s ps) : Only P (partLinks ps) := by
  cases h with
  | none => exact .nil
  | some hlit => exact only_of_litImage hlit

theorem only_withTilde {ps : List Script.WordPart} {each : List (List Part)} (h : ∀ xs ∈ each, Only P (partLinks xs)) :
    Only P (partLinks (withTilde ps each)) := by
  unfold withTilde
  split
  · split
    · rename_i user tail _
      have htail : Only P (partLinks (litUnlessEmpty tail)) := only_of_restImage (restImage_litUnlessEmpty tail)
      rw [partLinks_append]
      exact .append (.append .nil htail) (only_flatten fun xs hxs => h xs (List.mem_of_mem_drop hxs))
    · exact only_flatten h
  · exact only_flatten h

theorem mem_of_mem_dropLast {α : Type} {x : α} : ∀ {xs : List α}, x ∈ dropLast xs → x ∈ xs
  | [], h => h
  | [_], h => nomatch h
  | y :: z :: zs, h => by
      rcases List.mem_cons.mp h with rfl | h
      · exact List.mem_cons_self
      · exact List.mem_cons_of_mem _ (mem_of_mem_dropLast h)

theorem only_of_arithLit? {w : Script.Word} {x : Arith} (h : arithLit? w = some x) : Only P x.links := by
  unfold arithLit? at h
  split at h
  · split at h
    · cases h
    · split at h
      · rw [← Option.some.inj h]
        exact .nil
      · split at h
        · rw [← Option.some.inj h]
          exact .nil
        · cases h
  · cases h

-- The index of an array element that is only known when the program runs.
theorem only_middle {each : List (List Part)} (h : ∀ xs ∈ each, Only P (partLinks xs)) (rest tail : String) :
    Only P (partLinks (litUnlessEmpty rest ++ (dropLast (each.drop 1)).flatten ++ litUnlessEmpty tail)) := by
  rw [partLinks_append, partLinks_append]
  refine .append (.append (only_of_restImage (restImage_litUnlessEmpty rest)) (only_flatten fun xs hxs => ?_))
    (only_of_restImage (restImage_litUnlessEmpty tail))
  exact h xs (List.mem_of_mem_drop (mem_of_mem_dropLast hxs))

theorem only_drop {ws : List Word} (h : Only P (wordLinks ws)) : ∀ n, Only P (wordLinks (ws.drop n)) := by
  induction ws with
  | nil =>
      intro n
      rwa [List.drop_nil]
  | cons w ws ih =>
      intro n
      cases n with
      | zero => exact h
      | succ n => exact ih (List.forall_mem_append.mp h).2 n

end Parts

-- A plan that binds a script only to what is there.
structure Plan.Supplies (u : Plan) (P : Link → Prop) : Prop where
  external : ∀ name i, u.external name = some i → P (.program (some name) i)
  path : ∀ w key, u.path w = some (.embedded key) → P (.content key)
  unit : ∀ w path, u.unit w = some path → P (.unit path)

def IndexReader.Supplies (index : IndexReader) (P : Link → Prop) : Prop :=
  ∀ p text, Yields (index p text) fun x => Only P (optArithLinks x)

section Lowered

variable {P : Link → Prop} {u : Plan} {index : IndexReader}

theorem only_bindPath (hu : u.Supplies P) (w : Script.Word) {x : Word} (h : Only P x.links) :
    Only P (bindPath u w x).links := by
  unfold bindPath
  split
  · exact h
  · rename_i key hpath
    exact .cons (hu.path w key hpath) .nil
  · exact .append h .nil

-- What a command becomes: it is called, by the name of a program that the plan knows if it is bound to one, or it is a
-- file of the plan that takes its place.
theorem cases_lowerCall (u : Plan) (p : Position) (args : List Script.Word) (assigns : List Assign) (words : List Word)
    (redirs : List Redir) : Yields (lowerCall u p args assigns words redirs) fun s =>
      (∃ b e, s = .call (placeOf p) assigns words redirs b e ∧
        ∀ i, e = some i → ∃ name, args.head?.bind Script.Word.value? = some name ∧ u.external name = some i) ∨
      ∃ w unit, s = .source (placeOf p) unit (words.drop 2) redirs ∧ u.unit w = some unit := by
  cases args with
  | nil => exact .pure (.inl ⟨_, _, rfl, nofun⟩)
  | cons w rest =>
      cases hvalue : w.value? with
      | none =>
          simp only [lowerCall, hvalue]
          exact .pure (.inl ⟨_, _, rfl, nofun⟩)
      | some name =>
          cases hbuiltin : Builtin.ofName? name with
          | none =>
              simp only [lowerCall, hvalue, hbuiltin]
              exact .pure (.inl ⟨_, _, rfl, fun i hi => ⟨name, hvalue, hi⟩⟩)
          | some b =>
              simp only [lowerCall, hvalue, hbuiltin]
              refine (yields_checkBuiltin u p b w rest).bind fun _ => ?_
              split
              · rename_i unit hunit
                refine .pure fun _ => .inr ?_
                split at hunit
                · rename_i operand more
                  split at hunit
                  · exact ⟨operand, unit, rfl, hunit⟩
                  · cases hunit
                · cases hunit
              · exact .pure fun _ => .inl ⟨_, _, rfl, nofun⟩

mutual

theorem links_each (hu : u.Supplies P) (hi : index.Supplies P) (q : Quoting) : ∀ ps : List Script.WordPart,
    Yields (lowerEach u index q ps) fun each => ∀ xs ∈ each, Only P (partLinks xs)
  | [] => by
      rw [lowerEach]
      exact .pure nofun
  | p :: ps => by
      rw [lowerEach]
      exact (links_part hu hi q p).bind fun _ => (links_each hu hi q ps).bind fun _ =>
        .pure fun hs h => List.forall_mem_cons.mpr ⟨h, hs⟩

theorem links_part (hu : u.Supplies P) (hi : index.Supplies P) (q : Quoting) : ∀ p : Script.WordPart,
    Yields (lowerPart u index q p) fun xs => Only P (partLinks xs)
  | .lit _ s => by
      rw [lowerPart]
      cases q with
      | none => exact .pure (only_of_litImage (litImage_litParts s))
      | double => exact .pure .nil
      | hereDoc => exact .pure .nil
  | .single _ _ _ => by
      rw [lowerPart]
      exact .pure .nil
  | .double _ _ ps => by
      rw [lowerPart]
      exact (links_each hu hi .double ps).bind fun _ => .pure fun h => .append (only_flatten h) .nil
  | .param _ x => by
      rw [lowerPart]
      exact (links_param hu hi x).bind fun _ => .pure fun h => .append h .nil
  | .command _ body _ => by
      rw [lowerPart]
      exact (links_block hu hi body).bind fun _ => .pure fun h => .append h .nil
  | .arith _ x => by
      rw [lowerPart]
      exact (links_optArith hu hi x).bind fun _ => .pure fun h => .append h .nil
  | .brace _ _ ws => by
      rw [lowerPart]
      exact (links_elems hu hi ws).bind fun _ => .pure fun h => .append h .nil
  | .process _ _ _ => by
      rw [lowerPart]
      exact .refuse rfl (.pure trivial)

theorem links_elems (hu : u.Supplies P) (hi : index.Supplies P) : ∀ ws : List Script.Word,
    Yields (lowerElems u index ws) fun xs => Only P (wordLinks xs)
  | [] => by
      rw [lowerElems]
      exact .pure .nil
  | ⟨ps⟩ :: ws => by
      rw [lowerElems]
      exact (links_each hu hi .none ps).bind fun _ => (links_elems hu hi ws).bind fun _ =>
        .pure fun hs h => .append (only_flatten h) hs

theorem links_plain (hu : u.Supplies P) (hi : index.Supplies P) : ∀ w : Script.Word,
    Yields (lowerPlain u index w) fun x => Only P x.links
  | ⟨ps⟩ => by
      rw [lowerPlain]
      exact (links_each hu hi .none ps).bind fun _ => .pure only_withTilde

theorem links_optPlain (hu : u.Supplies P) (hi : index.Supplies P) : ∀ w : Option Script.Word,
    Yields (lowerOptPlain u index w) fun x => Only P (optWordLinks x)
  | none => by
      rw [lowerOptPlain]
      exact .pure .nil
  | some w => by
      rw [lowerOptPlain]
      exact (links_plain hu hi w).bind fun _ => .pure id

theorem links_param (hu : u.Supplies P) (hi : index.Supplies P) : ∀ x : Script.ParamExp,
    Yields (lowerParam u index x) fun y => Only P y.links
  | ⟨_, _, _, _, _, idx, _, arg, repl⟩ => by
      rw [lowerParam]
      exact (links_index hu hi idx).bind fun _ => (links_optPlain hu hi arg).bind fun _ =>
        (links_optPlain hu hi repl).bind fun _ => .pure fun hr ha hi => .append hi (.append ha hr)

theorem links_index (hu : u.Supplies P) (hi : index.Supplies P) : ∀ w : Option Script.Word,
    Yields (lowerIndex u index w) fun x => Only P (optWordLinks x)
  | none => by
      rw [lowerIndex]
      exact .pure .nil
  | some ⟨ps⟩ => by
      rw [lowerIndex]
      exact (links_each hu hi .none ps).bind fun _ => .pure only_flatten

theorem links_arith (hu : u.Supplies P) (hi : index.Supplies P) : ∀ e : Script.ArithExpr,
    Yields (lowerArith u index e) fun x => Only P x.links
  | .word w => by
      rw [lowerArith]
      cases hlit : arithLit? w with
      | some x => exact .pure (only_of_arithLit? hlit)
      | none =>
          cases element? w with
          | none => exact (links_plain hu hi w).bind fun _ => .pure id
          | some parts =>
              obtain ⟨name, rest, tail⟩ := parts
              dsimp only
              refine .ite (fun _ => ?_) fun _ => ?_
              · refine (hi w.pos (Text.dropBack 1 rest)).bind fun r => ?_
                cases r with
                | none => exact (links_plain hu hi w).bind fun _ => .pure fun h _ => h
                | some x => exact .pure id
              · exact (links_element hu hi w).bind fun _ => .pure fun h => only_middle h rest tail
  | .binary _ _ x y => by
      rw [lowerArith]
      exact (links_arith hu hi x).bind fun _ => (links_arith hu hi y).bind fun _ => .pure fun hy hx => .append hx hy
  | .unary _ _ _ x => by
      rw [lowerArith]
      exact (links_arith hu hi x).bind fun _ => .pure id
  | .paren _ x => by
      rw [lowerArith]
      exact links_arith hu hi x
  | .ternary c x y => by
      rw [lowerArith]
      exact (links_arith hu hi c).bind fun _ => (links_arith hu hi x).bind fun _ =>
        (links_optArith hu hi y).bind fun _ => .pure fun hy hx hc => .append hc (.append hx hy)

theorem links_element (hu : u.Supplies P) (hi : index.Supplies P) : ∀ w : Script.Word,
    Yields (lowerElement u index w) fun each => ∀ xs ∈ each, Only P (partLinks xs)
  | ⟨ps⟩ => by
      rw [lowerElement]
      exact links_each hu hi .none ps

theorem links_optArith (hu : u.Supplies P) (hi : index.Supplies P) : ∀ e : Option Script.ArithExpr,
    Yields (lowerOptArith u index e) fun x => Only P (optArithLinks x)
  | none => by
      rw [lowerOptArith]
      exact .pure .nil
  | some x => by
      rw [lowerOptArith]
      exact (links_arith hu hi x).bind fun _ => .pure id

theorem links_word (hu : u.Supplies P) (hi : index.Supplies P) : ∀ w : Script.Word,
    Yields (lowerWord u index w) fun x => Only P x.links
  | ⟨ps⟩ => by
      rw [lowerWord]
      exact (links_each hu hi .none ps).bind fun _ => .pure fun h => only_bindPath hu _ (only_withTilde h)

theorem links_words (hu : u.Supplies P) (hi : index.Supplies P) : ∀ ws : List Script.Word,
    Yields (lowerWords u index ws) fun xs => Only P (wordLinks xs)
  | [] => by
      rw [lowerWords]
      exact .pure .nil
  | w :: ws => by
      rw [lowerWords]
      exact (links_word hu hi w).bind fun _ => (links_words hu hi ws).bind fun _ => .pure fun hs h => .append h hs

-- The words of a command line, the first of which names the command.
theorem links_line (hu : u.Supplies P) (hi : index.Supplies P) : ∀ ws : List Script.Word,
    Yields (lowerLine u index ws) fun xs => Only P (wordLinks xs) ∧
      ∀ name, ws.head?.bind Script.Word.value? = some name → commandName? xs = some name
  | [] => by
      rw [lowerLine]
      exact .pure ⟨.nil, nofun⟩
  | w :: ws => by
      rw [lowerLine]
      have hfirst : Yields (lowerPlain u index w) fun x => Only P x.links ∧
          ∀ name, w.value? = some name → x.text? = some name := by
        cases hvalue : w.value? with
        | none => exact (links_plain hu hi w).mono fun _ h => ⟨h, nofun⟩
        | some name =>
            exact ((links_plain hu hi w).and (text_plain u index hvalue)).mono fun _ h => ⟨h.1, fun _ => h.2.trans⟩
      exact hfirst.bind fun x => (links_words hu hi ws).bind fun xs => .pure fun hs h => ⟨.append h.1 hs, h.2⟩

theorem links_test (hu : u.Supplies P) (hi : index.Supplies P) : ∀ e : Script.TestExpr,
    Yields (lowerTest u index e) fun x => Only P x.links
  | .word w => by
      rw [lowerTest]
      exact (links_word hu hi w).bind fun _ => .pure id
  | .paren _ x => by
      rw [lowerTest]
      exact links_test hu hi x
  | .unary _ _ x => by
      rw [lowerTest]
      exact (links_test hu hi x).bind fun _ => .pure id
  | .binary _ _ x y => by
      rw [lowerTest]
      exact (links_test hu hi x).bind fun _ => (links_test hu hi y).bind fun _ => .pure fun hy hx => .append hx hy

theorem links_value (hu : u.Supplies P) (hi : index.Supplies P) (naked : Bool) : ∀ v : Option Script.Word,
    Yields (lowerValue u index naked v) fun x => Only P (optWordLinks x)
  | none => by
      rw [lowerValue]
      cases naked with
      | true => exact .pure .nil
      | false => exact .pure .nil
  | some w => by
      rw [lowerValue]
      refine (links_word hu hi w).bind fun x => .pure fun h => ?_
      split
      · exact .nil
      · split
        · exact .nil
        · exact h

theorem links_assign (hu : u.Supplies P) (hi : index.Supplies P) : ∀ a : Script.Assignment,
    Yields (lowerAssign u index a) fun x => Only P x.links
  | ⟨_, _, idx, _, _, _, some ⟨_, elems⟩⟩ => by
      rw [lowerAssign]
      exact (links_optPlain hu hi idx).bind fun _ => (links_words hu hi elems).bind fun _ =>
        .pure fun hs h => .append h (.append .nil hs)
  | ⟨_, _, idx, _, naked, value, none⟩ => by
      rw [lowerAssign]
      exact (links_optPlain hu hi idx).bind fun _ => (links_value hu hi naked value).bind fun _ =>
        .pure fun hv h => .append h (.append hv .nil)

theorem links_assigns (hu : u.Supplies P) (hi : index.Supplies P) : ∀ as : List Script.Assignment,
    Yields (lowerAssigns u index as) fun xs => Only P (assignLinks xs)
  | [] => by
      rw [lowerAssigns]
      exact .pure .nil
  | a :: as => by
      rw [lowerAssigns]
      exact (links_assign hu hi a).bind fun _ => (links_assigns hu hi as).bind fun _ => .pure fun hs h => .append h hs

theorem links_doc (hu : u.Supplies P) (hi : index.Supplies P) : ∀ doc : Option Script.HereDoc,
    Yields (lowerDoc u index doc) fun x => Only P (optWordLinks x)
  | none => by
      simp only [lowerDoc]
      exact .pure .nil
  | some ⟨_, _, true, _, _, _⟩ => by
      simp only [lowerDoc]
      exact .pure .nil
  | some ⟨_, _, false, _, _, some ⟨ps⟩⟩ => by
      simp only [lowerDoc]
      exact (links_each hu hi .hereDoc ps).bind fun _ => .pure only_flatten
  | some ⟨_, _, false, _, _, none⟩ => by
      simp only [lowerDoc]
      exact .pure .nil

theorem links_redirects (hu : u.Supplies P) (hi : index.Supplies P) : ∀ rs : List Script.Redirect,
    Yields (lowerRedirects u index rs) fun xs => Only P (redirLinks xs)
  | [] => by
      rw [lowerRedirects]
      exact .pure .nil
  | ⟨_, op, n, word, doc⟩ :: rs => by
      have hrest := links_redirects hu hi rs
      rw [lowerRedirects]
      cases descriptor? n with
      | none => exact .refuse rfl (hrest.mono fun _ _ => trivial)
      | some fd =>
          cases redirOp? op with
          | none => exact .refuse rfl (hrest.mono fun _ _ => trivial)
          | some o =>
              dsimp only
              refine (links_doc hu hi doc).bind fun text => ?_
              cases text with
              | none =>
                  exact (links_word hu hi word).bind fun _ => hrest.bind fun _ => .pure fun hs hx _ => .append hx hs
              | some x =>
                  simp only [pure_bind]
                  exact hrest.bind fun _ => .pure fun hs hdoc => .append hdoc hs

theorem links_block (hu : u.Supplies P) (hi : index.Supplies P) : ∀ b : Script.Block,
    Yields (lowerBlock u index b) fun x => Only P x.links
  | ⟨_, items⟩ => by
      rw [lowerBlock]
      exact (links_commands hu hi items).bind fun _ => .pure id

theorem links_optBlock (hu : u.Supplies P) (hi : index.Supplies P) : ∀ b : Option Script.Block,
    Yields (lowerOptBlock u index b) fun x => Only P (optBlockLinks x)
  | none => by
      rw [lowerOptBlock]
      exact .pure .nil
  | some b => by
      rw [lowerOptBlock]
      exact (links_block hu hi b).bind fun _ => .pure id

theorem links_commands (hu : u.Supplies P) (hi : index.Supplies P) : ∀ cs : List Script.Command,
    Yields (lowerCommands u index cs) fun xs => Only P (stmtLinks xs)
  | [] => by
      rw [lowerCommands]
      exact .pure .nil
  | c :: cs => by
      rw [lowerCommands]
      exact (links_command hu hi c).bind fun _ => (links_commands hu hi cs).bind fun _ => .pure fun hs h => .append h hs

theorem links_elifs (hu : u.Supplies P) (hi : index.Supplies P) {m : Lowering (Option Block)}
    (hno : Yields m fun b => Only P (optBlockLinks b)) : ∀ es : List Script.Elif,
    Yields (lowerElifs u index m es) fun b => Only P (optBlockLinks b)
  | [] => by
      rw [lowerElifs]
      exact hno
  | ⟨_, cond, yes⟩ :: es => by
      rw [lowerElifs]
      exact (links_block hu hi cond).bind fun _ => (links_block hu hi yes).bind fun _ =>
        (links_elifs hu hi hno es).bind fun _ => .pure fun h hy hc => .append (.append hc (.append hy h)) .nil

theorem links_arms (hu : u.Supplies P) (hi : index.Supplies P) : ∀ is : List Script.CaseItem,
    Yields (lowerArms u index is) fun xs => Only P (armLinks xs)
  | [] => by
      rw [lowerArms]
      exact .pure .nil
  | ⟨patterns, body, _⟩ :: is => by
      rw [lowerArms]
      exact (links_words hu hi patterns).bind fun _ => (links_block hu hi body).bind fun _ =>
        (links_arms hu hi is).bind fun _ => .pure fun hs hb hp => .append hp (.append hb hs)

theorem links_command (hu : u.Supplies P) (hi : index.Supplies P) : ∀ c : Script.Command,
    Yields (lowerCommand u index c) fun s => Only P s.links
  | .andOr _ _ x y => by
      rw [lowerCommand]
      exact (links_command hu hi x).bind fun _ => (links_command hu hi y).bind fun _ => .pure fun hy hx => .append hx hy
  | .pipeline _ _ cmds _ => by
      rw [lowerCommand]
      exact (links_commands hu hi cmds).bind fun _ => .pure id
  | .background x => by
      rw [lowerCommand]
      exact (links_command hu hi x).bind fun _ => .pure id
  | .simple assigns args redirs => by
      rw [lowerCommand]
      refine (links_assigns hu hi assigns).bind fun as => (links_line hu hi args).bind fun ws =>
        (links_redirects hu hi redirs).bind fun rs => (cases_lowerCall u _ args as ws rs).mono ?_
      rintro s (⟨b, e, rfl, hbound⟩ | ⟨w, unit, rfl, hunit⟩) hr ⟨hw, hname⟩ ha
      · refine .append (fun l hl => ?_) (.append ha (.append hw hr))
        obtain ⟨i, hi, rfl⟩ := List.mem_map.mp hl
        obtain ⟨name, hvalue, hexternal⟩ := hbound i (by simpa using hi)
        rw [hname name hvalue]
        exact hu.external name i hexternal
      · exact .cons (hu.unit w unit hunit) (.append (only_drop hw 2) hr)
  | .declare p variant opts assigns redirs => by
      rw [lowerCommand]
      cases declaration? variant with
      | none => exact .refuse rfl (.pure trivial)
      | some b =>
          exact (links_words hu hi opts).bind fun _ => (links_assigns hu hi assigns).bind fun _ =>
            (links_redirects hu hi redirs).bind fun _ => .pure fun hr ha ho => .append ho (.append ha hr)
  | .ifThen _ cond yes elifs no => by
      rw [lowerCommand]
      exact (links_block hu hi cond).bind fun _ => (links_block hu hi yes).bind fun _ =>
        (links_elifs hu hi (links_optBlock hu hi no) elifs).bind fun _ =>
          .pure fun hn hy hc => .append hc (.append hy hn)
  | .loop _ _ cond body => by
      rw [lowerCommand]
      exact (links_block hu hi cond).bind fun _ => (links_block hu hi body).bind fun _ =>
        .pure fun hb hc => .append hc hb
  | .forIn _ _ _ _ items body => by
      rw [lowerCommand]
      exact (links_words hu hi items).bind fun _ => (links_block hu hi body).bind fun _ =>
        .pure fun hb hw => .append hw hb
  | .forArith _ x y z body => by
      rw [lowerCommand]
      exact (links_optArith hu hi x).bind fun _ => (links_optArith hu hi y).bind fun _ =>
        (links_optArith hu hi z).bind fun _ => (links_block hu hi body).bind fun _ =>
          .pure fun hd hz hy hx => .append hx (.append hy (.append hz hd))
  | .select _ _ _ _ items body => by
      rw [lowerCommand]
      exact (links_words hu hi items).bind fun _ => (links_block hu hi body).bind fun _ =>
        .pure fun hb hw => .append hw hb
  | .caseOf _ word items => by
      rw [lowerCommand]
      exact (links_word hu hi word).bind fun _ => (links_arms hu hi items).bind fun _ => .pure fun h hw => .append hw h
  | .function _ _ _ _ body => by
      rw [lowerCommand]
      exact (links_command hu hi body).bind fun _ => .pure id
  | .subshell _ body => by
      rw [lowerCommand]
      exact (links_block hu hi body).bind fun _ => .pure id
  | .group _ body => by
      rw [lowerCommand]
      exact (links_block hu hi body).bind fun _ => .pure id
  | .arith _ x => by
      rw [lowerCommand]
      exact (links_arith hu hi x).bind fun _ => .pure id
  | .test _ x => by
      rw [lowerCommand]
      exact (links_test hu hi x).bind fun _ => .pure id
  | .redirected x redirs => by
      rw [lowerCommand]
      exact (links_command hu hi x).bind fun _ => (links_redirects hu hi redirs).bind fun _ =>
        .pure fun hr h => .append h hr

end

end Lowered

-- The text of an index is read with the same programs, and with no files.
theorem supplies_indexAt {P : Link → Prop} {u : Plan} (hu : u.Supplies P) : ∀ n, (indexAt u n).Supplies P := by
  intro n
  induction n with
  | zero => exact fun _ _ => .pure .nil
  | succ n ih =>
      have hunbound : u.unbound.Supplies P := ⟨hu.external, by simp [Plan.unbound], by simp [Plan.unbound]⟩
      exact fun _ _ => links_optArith hunbound ih _

-- Whatever a script is bound to is known to its plan.
theorem only_lowerScript {P : Link → Prop} {u : Plan} (hu : u.Supplies P) {depth : Nat} {b : Script.Block}
    (h : Diagnostic.anyFatal (lowerScript u depth b).2 = false) : Only P (lowerScript u depth b).1.links :=
  (links_block hu (supplies_indexAt hu depth) b).result #[] h

end Program
end ShellScript

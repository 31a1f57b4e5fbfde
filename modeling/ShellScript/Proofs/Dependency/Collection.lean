import ShellScript.Dependency.Reference
import ShellScript.Script.Node
import ShellScript.Script.Read

-- What looking through a script finds. Nothing that was found is lost again, so a command is recorded when the search
-- passes it once, and it passes all but the words that are named here.
namespace ShellScript
namespace Dependency

open Script

-- No count is below zero.
def Usage.Counts (u : Usage) : Prop := 0 ≤ u.reads ∧ 0 ≤ u.writes ∧ 0 ≤ u.appends

-- One thing found after another.
structure Found.Extends (f f' : Found) : Prop where
  commands : f.commands <:+ f'.commands
  refs : ∀ r ∈ f'.refs, r ∈ f.refs ∨ r.usage.Counts

namespace Found.Extends

theorem refl (f : Found) : f.Extends f := ⟨List.suffix_refl _, fun _ => .inl⟩

theorem trans {f f' f'' : Found} (h : f.Extends f') (h' : f'.Extends f'') : f.Extends f'' where
  commands := h.commands.trans h'.commands
  refs r hr := (h'.refs r hr).elim (h.refs r) .inr

theorem of_same {f f' : Found} (hcommands : f'.commands = f.commands) (hrefs : f'.refs = f.refs) : f.Extends f' where
  commands := hcommands ▸ List.suffix_refl _
  refs _ hr := .inl (hrefs ▸ hr)

end Found.Extends

-- Actions that only add to what was found.
def Grows {α : Type} (m : Collecting α) : Prop := ∀ f : Found, f.Extends (m.run f).2

namespace Grows

variable {α β : Type}

theorem pure (a : α) : Grows (Pure.pure a) := fun f => .refl f

theorem bind {m : Collecting α} {g : α → Collecting β} (hm : Grows m) (hg : ∀ a, Grows (g a)) : Grows (m >>= g) :=
  fun f => (hm f).trans (hg _ _)

theorem reading {g : Found → Collecting β} (hg : ∀ f, Grows (g f)) : Grows (get >>= g) := fun f => hg f f

theorem ite {b : Prop} [Decidable b] {m m' : Collecting α} (hm : Grows m) (hm' : Grows m') :
    Grows (if b then m else m') := by
  split
  · exact hm
  · exact hm'

theorem forM {g : α → Collecting PUnit} (hg : ∀ a, Grows (g a)) : ∀ as : List α, Grows (as.forM g)
  | [] => pure _
  | a :: as => bind (hg a) fun _ => forM hg as

theorem modifying {g : Found → Found} (hcommands : ∀ f, (g f).commands = f.commands)
    (hrefs : ∀ f, (g f).refs = f.refs) : Grows (modify g : Collecting PUnit) :=
  fun f => .of_same (hcommands f) (hrefs f)

theorem forget (name : String) : Grows (Dependency.forget name) := modifying (fun _ => rfl) fun _ => rfl

theorem scanText (p : Position) (s : String) : Grows (Dependency.scanText p s) := modifying (fun _ => rfl) fun _ => rfl

theorem push {r : Reference} (hr : r.usage.Counts) : Grows (Dependency.push r) := fun _ =>
  ⟨List.suffix_refl _, fun _ hr' => (List.mem_cons.mp hr').elim (fun h => .inr (h ▸ hr)) .inl⟩

section Operands

variable {o : Origin} {at_ : Place} {u : Usage}

theorem refer (hu : u.Counts) (cmd : String) (w : Word) : Grows (Dependency.refer o at_ u cmd w) := by
  have hr : (newReference o at_ w u cmd).usage.Counts := hu
  refine reading fun f => ?_
  cases literal f.vars w with
  | static s => exact ite (pure _) (push hr)
  | glob p => exact push hr
  | dynamic => exact push hr

theorem referText (hu : u.Counts) (cmd : String) (w : Word) (s : String) :
    Grows (Dependency.referText o at_ u cmd w s) :=
  push hu

theorem referAll (hu : u.Counts) (cmd : String) (ws : List Word) : Grows (Dependency.referAll o at_ u cmd ws) :=
  forM (refer hu cmd) ws

theorem guard (o : Origin) (w : Word) : Grows (Dependency.guard o w) := by
  refine reading fun f => ?_
  cases literal f.vars w with
  | static s => exact ite (pure _) (modifying (fun _ => rfl) fun _ => rfl)
  | glob p => exact pure _
  | dynamic => exact pure _

theorem guards (o : Origin) : ∀ ws : List Word, Grows (Dependency.guards o ws)
  | [] | [_] => pure _
  | w :: v :: ws => by
      have hrest := guards o (v :: ws)
      exact ite (bind (guard o v) fun _ => hrest) hrest

theorem patternOperands (o : Origin) (at_ : Place) (name : String) :
    ∀ ws : List Word, Grows (Dependency.patternOperands o at_ name ws)
  | [] => pure _
  | [w] => by
      unfold Dependency.patternOperands
      refine ite (pure _) (ite (pure _) (ite (pure _) ?_))
      exact bind (pure _) fun _ => pure _
  | w :: v :: rest => by
      have hrest := patternOperands o at_ name rest
      have hnext := patternOperands o at_ name (v :: rest)
      unfold Dependency.patternOperands
      refine ite (bind hrest fun _ => pure _) (ite ?_ (ite hnext (bind hnext fun _ => pure _)))
      exact bind (refer (by simp [Usage.Counts]) name v) fun _ => bind hrest fun _ => pure _

theorem downloads (o : Origin) (at_ : Place) (name : String) :
    ∀ ws : List Word, Grows (Dependency.downloads o at_ name ws)
  | [] | [_] => pure _
  | w :: v :: ws => by
      have hrest := downloads o at_ name ws
      unfold Dependency.downloads
      refine ite (ite (bind (refer ?_ name v) fun _ => hrest) hrest) (downloads o at_ name (v :: ws))
      simp [Usage.Counts]

theorem operands (o : Origin) (at_ : Place) (name : String) (args : List Word) :
    Grows (Dependency.operands o at_ name args) := by
  have hread : ∀ b, Usage.Counts { reads := 1, monitored := b } := fun _ => by simp [Usage.Counts]
  have hreadWrite : ∀ b : Bool, Usage.Counts { reads := 1, writes := if b then 1 else 0 } := fun b => by
    cases b <;> simp [Usage.Counts]
  have hwrite : Usage.Counts { writes := 1 } := by simp [Usage.Counts]
  unfold Dependency.operands
  refine ite (referAll (by simp [Usage.Counts]) _ _) (ite (guards o _) (ite (forM (fun w => ?_) _) ?_))
  · cases w.lit? with
    | none => exact pure _
    | some s => exact ite (forget s) (pure _)
  refine ite (referAll (hread _) _ _) (ite ?_ (ite (referAll (by simp [Usage.Counts]) _ _) ?_))
  · exact bind (patternOperands o at_ name args) fun _ => referAll (hreadWrite _) _ _
  refine ite (referAll hwrite _ _) (ite (referAll hwrite _ _) (ite (referAll ?_ _ _) (ite (ite (pure _) ?_) ?_)))
  · split
    · exact (by simp [Usage.Counts])
    · exact hwrite
  · exact bind (referAll (hreadWrite _) _ _) fun _ => referAll hwrite _ _
  refine ite (forM (fun w => ?_) _) (ite (downloads o at_ name args) (referAll (hread _) _ _))
  exact ite (referText (hread _) _ _ _) (ite (referText hwrite _ _ _) (pure _))

theorem invoke (o : Origin) (name : String) (p : Position) : Grows (Dependency.invoke o name p) := by
  have hadd : ∀ n : String, Grows (modify fun f => { f with commands := (n, p) :: f.commands } : Collecting Unit) :=
    fun _ _ => ⟨List.suffix_cons _ _, fun _ => .inl⟩
  exact ite (pure _) (ite (hadd _) (ite (pure _) (hadd _)))

theorem commandLine (o : Origin) (at_ : Place) : ∀ (fuel : Nat) (ws : List Word), Grows (Dependency.commandLine o at_ fuel ws)
  | 0, _ => pure _
  | _ + 1, [] => pure _
  | fuel + 1, w :: ws => by
      refine reading fun f => ?_
      cases literal f.vars w with
      | static name =>
          refine ite (pure _) (bind (invoke o name w.pos) fun _ => ite ?_ (operands o at_ name ws))
          exact commandLine o at_ fuel (wrapped name ws)
      | glob p => exact pure _
      | dynamic => exact pure _

theorem setVariable (a : Assignment) (v : Word) : Grows (Dependency.setVariable a v) := by
  refine reading fun f => ?_
  dsimp only
  cases literal f.vars v with
  | static s => exact bind (forget a.name) fun _ => modifying (fun _ => rfl) fun _ => rfl
  | glob p => exact forget a.name
  | dynamic => exact forget a.name

theorem counts_redirectUsage? {op : Token.Kind} {target : Word} (h : redirectUsage? op target = some u) : u.Counts := by
  unfold redirectUsage? at h
  split at h
  case h_10 => cases h
  case h_8 | h_9 =>
      split at h
      · split at h
        · cases h
        · cases h
          simp [Usage.Counts]
      · cases h
        simp [Usage.Counts]
  all_goals
      cases h
      simp [Usage.Counts]

end Operands

end Grows

-- Whether a literal name in the place of a command means a program.
def isProgramName (name : String) : Bool :=
  !name.isEmpty && (Builtin.ofName? name).isNone && !Token.isReserved name && !name.toList.contains '/'
    && !Text.hasPrefix name "~"

-- The program that a node runs, when its name is written there as it is.
def programOf? : Script.Node → Option (String × Position)
  | .command (.simple _ (w :: _) _) =>
    w.lit?.bind fun name => if isProgramName name then some (name, w.pos) else none
  | _ => none

-- The words below a node that are not looked into: the patterns of a `case`, the indices and elements in assignments
-- before a command, and what announces the end of a here-document.
def unsearched : Script.Node → List Word
  | .command (.simple assigns (_ :: _) _) => assigns.flatMap fun a => a.index.toList ++ (a.array.map (·.elems)).getD []
  | .caseItem i => i.patterns
  | .redirect r => if r.doc.isSome then [r.word] else []
  | _ => []

-- An action that records the programs that some nodes run, but for those inside words that are not looked into.
structure Searches (m : Collecting Unit) (ns : List Script.Node) : Prop where
  grows : Grows m
  finds : ∀ f : Found, ∀ n ∈ ns, ∀ c ∈ programOf? n,
    c ∈ (m.run f).2.commands ∨ ∃ w ∈ ns.flatMap unsearched, n ∈ w.nodes.preorder

namespace Searches

variable {m m' : Collecting Unit} {ns ns' : List Script.Node}

theorem nothing (h : Grows m) : Searches m [] := ⟨h, fun _ _ hn => nomatch hn⟩

theorem bind (h : Searches m ns) (h' : Searches m' ns') : Searches (m >>= fun _ => m') (ns ++ ns') where
  grows := h.grows.bind fun _ => h'.grows
  finds f n hn c hc := by
    rw [List.flatMap_append]
    rcases List.mem_append.mp hn with hn | hn
    · rcases h.finds f n hn c hc with hfound | ⟨w, hw, hinside⟩
      · exact .inl ((h'.grows (m.run f).2).commands.subset hfound)
      · exact .inr ⟨w, List.mem_append_left _ hw, hinside⟩
    · rcases h'.finds (m.run f).2 n hn c hc with hfound | ⟨w, hw, hinside⟩
      · exact .inl hfound
      · exact .inr ⟨w, List.mem_append_right _ hw, hinside⟩

theorem after (h : Grows m) (h' : Searches m' ns) : Searches (m >>= fun _ => m') ns := (nothing h).bind h'

theorem before (h : Searches m ns) (h' : Grows m') : Searches (m >>= fun _ => m') ns := by
  simpa using h.bind (nothing h')

theorem ite {b : Prop} [Decidable b] (h : Searches m ns) (h' : Searches m' ns) : Searches (if b then m else m') ns := by
  split
  · exact h
  · exact h'

-- Nodes that run nothing or are not looked into may be added.
theorem extend (h : Searches m ns) (hsub : ns ⊆ ns')
    (hrest : ∀ n ∈ ns', programOf? n = none ∨ n ∈ ns ∨ ∃ w ∈ ns'.flatMap unsearched, n ∈ w.nodes.preorder) :
    Searches m ns' where
  grows := h.grows
  finds f n hn c hc := by
    rcases hrest n hn with hnone | hold | hinside
    · rw [hnone] at hc
      cases hc
    · rcases h.finds f n hold c hc with hfound | ⟨w, hw, hinside⟩
      · exact .inl hfound
      · obtain ⟨k, hk, hwk⟩ := List.mem_flatMap.mp hw
        exact .inr ⟨w, List.mem_flatMap.mpr ⟨k, hsub hk, hwk⟩, hinside⟩
    · exact .inr hinside

theorem node {n : Script.Node} (hn : programOf? n = none) (h : Searches m ns) : Searches m (n :: ns) := by
  refine h.extend (List.subset_cons_self _ _) fun k hk => ?_
  rcases List.mem_cons.mp hk with rfl | hk
  · exact .inl hn
  · exact .inr (.inl hk)

end Searches

section Nodes

theorem preorderAll_append (ts ts' : List NodeTree) : preorderAll (ts ++ ts') = preorderAll ts ++ preorderAll ts' := by
  induction ts with
  | nil => rfl
  | cons t ts ih => simp [preorderAll, ih]

theorem mem_optWordNodes {n : Script.Node} {w : Option Word} :
    n ∈ preorderAll (optWordNodes w) ↔ ∃ v ∈ w, n ∈ v.nodes.preorder := by
  cases w <;> simp [optWordNodes, preorderAll]

theorem mem_wordNodes {n : Script.Node} {ws : List Word} :
    n ∈ preorderAll (wordNodes ws) ↔ ∃ w ∈ ws, n ∈ w.nodes.preorder := by
  induction ws with
  | nil => simp [wordNodes, preorderAll]
  | cons w ws ih => simp [wordNodes, preorderAll, ih]

theorem mem_assignNodes {n : Script.Node} {as : List Assignment} :
    n ∈ preorderAll (assignNodes as) ↔ ∃ a ∈ as, n ∈ a.nodes.preorder := by
  induction as with
  | nil => simp [assignNodes, preorderAll]
  | cons a as ih => simp [assignNodes, preorderAll, ih]

theorem mem_assignment_of_value {n : Script.Node} {a : Assignment} (h : n ∈ preorderAll (optWordNodes a.value)) :
    n ∈ a.nodes.preorder := by
  obtain ⟨p, name, index, append, naked, value, array⟩ := a
  rw [Assignment.nodes, NodeTree.preorder, preorderAll_append, preorderAll_append]
  simp [h]

-- What is below an assignment: its value, and what is not looked into before a command.
theorem cases_assignment {n : Script.Node} {a : Assignment} (h : n ∈ a.nodes.preorder) :
    programOf? n = none ∨ n ∈ preorderAll (optWordNodes a.value) ∨
      ∃ w ∈ a.index.toList ++ (a.array.map (·.elems)).getD [], n ∈ w.nodes.preorder := by
  obtain ⟨p, name, index, append, naked, value, array⟩ := a
  rw [Assignment.nodes, NodeTree.preorder, preorderAll_append, preorderAll_append] at h
  simp only [List.mem_cons, List.mem_append] at h
  rcases h with rfl | (hindex | hvalue) | harray
  · exact .inl rfl
  · obtain ⟨w, hw, hinside⟩ := mem_optWordNodes.mp hindex
    exact .inr (.inr ⟨w, List.mem_append_left _ (by simpa using hw), hinside⟩)
  · exact .inr (.inl hvalue)
  · cases array with
    | none => cases harray
    | some x =>
        obtain ⟨q, elems⟩ := x
        rw [optArrayNodes, preorderAll, preorderAll, NodeTree.preorder, List.append_nil] at harray
        rcases List.mem_cons.mp harray with rfl | helems
        · exact .inl rfl
        · obtain ⟨w, hw, hinside⟩ := mem_wordNodes.mp helems
          exact .inr (.inr ⟨w, List.mem_append_right _ hw, hinside⟩)

end Nodes

section Names

theorem hasPatternChar_of_plain : ∀ {cs : List Char},
    cs.any (fun c => c == '\\' || c == '*' || c == '?' || c == '[') = false → hasPatternChar cs = false
  | [], _ => by rw [hasPatternChar]
  | c :: cs, h => by
      simp only [List.any_cons, Bool.or_eq_false_iff, beq_eq_false_iff_ne] at h
      obtain ⟨⟨⟨⟨hback, hstar⟩, hmark⟩, hbracket⟩, hcs⟩ := h
      rw [hasPatternChar, hasPatternChar_of_plain (by simpa using hcs)]
      · simp [hstar, hmark, hbracket]
      · rintro _ _ rfl
        exact absurd rfl hback

-- What a literal word says does not depend on what is known about variables.
theorem literal_of_lit? {w : Word} {name : String} (h : w.lit? = some name) (htilde : Text.hasPrefix name "~" = false)
    (vars : List (String × String)) : literal vars w = .static name := by
  obtain ⟨parts⟩ := w
  unfold Word.lit? at h
  split at h
  · rename_i hparts
    obtain rfl : parts = [] := hparts
    obtain rfl := Option.some.inj h
    rfl
  · rename_i p s hparts
    obtain rfl : parts = [.lit p s] := hparts
    split at h
    · cases h
    · rename_i hplain
      obtain rfl := Option.some.inj h
      rw [Bool.not_eq_true] at hplain
      have hglob : Word.hasGlob ⟨[.lit p s]⟩ = false := by
        simp [Word.hasGlob, WordPart.isPattern, hasPatternChar_of_plain hplain]
      have hback : '\\' ∉ s.toList := fun hmem => by
        have := List.any_eq_false.mp hplain _ hmem
        simp at this
      have hunescape : unescape s = s := by
        have hself : unescapeList s.toList = s.toList := by simpa [unescapeList] using unescapeList_append hback []
        rw [unescape, hself, String.ofList_toList]
      simp [literal, hglob, literalParts?, literalPart?, hunescape, htilde]
  · cases h

theorem searches_commandLine (o : Origin) (at_ : Place) (as : List Assignment) (w : Word) (ws : List Word)
    (rs : List Redirect) :
    Searches (commandLine o at_ (w :: ws).length (w :: ws)) [.command (.simple as (w :: ws) rs)] where
  grows := .commandLine o at_ _ _
  finds f n hn c hc := by
    obtain rfl := List.mem_singleton.mp hn
    obtain ⟨name, hname, hc⟩ := Option.bind_eq_some_iff.mp hc
    obtain ⟨hprogram, rfl⟩ : isProgramName name = true ∧ (name, w.pos) = c := by simpa using hc
    simp only [isProgramName, Bool.and_eq_true, Bool.not_eq_true'] at hprogram
    obtain ⟨⟨⟨⟨hempty, hbuiltin⟩, hreserved⟩, hslash⟩, htilde⟩ := hprogram
    left
    have hinvoke : ((invoke o name w.pos).run f).2 = { f with commands := (name, w.pos) :: f.commands } := by
      have hnone : (Builtin.ofName? name).isSome = false := by simpa using hbuiltin
      simp only [invoke, hreserved, hslash, hnone, Bool.false_eq_true, if_false]
      rfl
    have hrest : Grows (if wrappers.contains name then commandLine o at_ ws.length (wrapped name ws)
        else operands o at_ name ws) := .ite (.commandLine _ _ _ _) (.operands _ _ _ _)
    have hrun : (commandLine o at_ (w :: ws).length (w :: ws)).run f =
        (if wrappers.contains name then commandLine o at_ ws.length (wrapped name ws)
          else operands o at_ name ws).run ((invoke o name w.pos).run f).2 := by
      have hliteral := literal_of_lit? hname htilde f.vars
      simp only [List.length_cons, commandLine, StateT.run_bind, StateT.run_get, pure_bind, hliteral, hempty,
        Bool.false_eq_true, if_false]
      rfl
    rw [hrun]
    refine (hrest _).commands.subset ?_
    rw [hinvoke]
    exact List.mem_cons_self

end Names

mutual

theorem searches_part (o : Origin) (at_ : Place) (counting : Bool) :
    ∀ p : WordPart, Searches (part o at_ counting p) p.nodes.preorder
  | .lit p s => by
      rw [part, WordPart.nodes, NodeTree.preorder]
      exact .node rfl (.nothing (.ite (.pure _) (.scanText p s)))
  | .single p _ s => by
      rw [part, WordPart.nodes, NodeTree.preorder]
      exact .node rfl (.nothing (.ite (.pure _) (.scanText p s)))
  | .double _ _ ps => by
      rw [part, WordPart.nodes, NodeTree.preorder]
      exact .node rfl (searches_parts o at_ counting ps)
  | .param _ ⟨_, _, _, _, _, index, _, arg, repl⟩ => by
      rw [part, WordPart.nodes, NodeTree.preorder, paramNodes, preorderAll_append, preorderAll_append, List.append_assoc]
      exact .node rfl ((searches_optWord o at_ counting index).bind
        ((searches_optWord o at_ counting arg).bind (searches_optWord o at_ counting repl)))
  | .command _ body _ => by
      rw [part, WordPart.nodes, NodeTree.preorder, preorderAll, preorderAll, List.append_nil]
      exact .node rfl (searches_block o at_ body)
  | .arith _ x => by
      rw [part, WordPart.nodes, NodeTree.preorder]
      exact .node rfl (searches_optArith o at_ counting x)
  | .brace _ _ ws => by
      rw [part, WordPart.nodes, NodeTree.preorder]
      exact .node rfl (searches_words o at_ counting ws)
  | .process _ _ body => by
      rw [part, WordPart.nodes, NodeTree.preorder, preorderAll, preorderAll, List.append_nil]
      exact .node rfl (searches_block o at_ body)

theorem searches_parts (o : Origin) (at_ : Place) (counting : Bool) :
    ∀ ps : List WordPart, Searches (parts o at_ counting ps) (preorderAll (partNodes ps))
  | [] => by
      rw [parts, partNodes, preorderAll]
      exact .nothing (.pure _)
  | p :: ps => by
      rw [parts, partNodes, preorderAll]
      exact (searches_part o at_ counting p).bind (searches_parts o at_ counting ps)

theorem searches_word (o : Origin) (at_ : Place) (counting : Bool) :
    ∀ w : Word, Searches (word o at_ counting w) w.nodes.preorder
  | ⟨ps⟩ => by
      rw [word, Word.nodes, NodeTree.preorder]
      exact .node rfl (searches_parts o at_ counting ps)

theorem searches_optWord (o : Origin) (at_ : Place) (counting : Bool) :
    ∀ w : Option Word, Searches (optWord o at_ counting w) (preorderAll (optWordNodes w))
  | none => by
      rw [optWord, optWordNodes, preorderAll]
      exact .nothing (.pure _)
  | some w => by
      rw [optWord, optWordNodes, preorderAll, preorderAll, List.append_nil]
      exact searches_word o at_ counting w

theorem searches_words (o : Origin) (at_ : Place) (counting : Bool) :
    ∀ ws : List Word, Searches (words o at_ counting ws) (preorderAll (wordNodes ws))
  | [] => by
      rw [words, wordNodes, preorderAll]
      exact .nothing (.pure _)
  | w :: ws => by
      rw [words, wordNodes, preorderAll]
      exact (searches_word o at_ counting w).bind (searches_words o at_ counting ws)

theorem searches_arith (o : Origin) (at_ : Place) (counting : Bool) :
    ∀ x : ArithExpr, Searches (arith o at_ counting x) x.nodes.preorder
  | .word w => by
      rw [arith, ArithExpr.nodes, NodeTree.preorder, preorderAll, preorderAll, List.append_nil]
      exact .node rfl (searches_word o at_ counting w)
  | .binary _ op x y => by
      rw [arith, ArithExpr.nodes, NodeTree.preorder, preorderAll, preorderAll, preorderAll, List.append_nil]
      have hboth := (searches_arith o at_ counting x).bind (searches_arith o at_ counting y)
      refine .node rfl ?_
      cases targetName? x with
      | none => exact hboth
      | some name => exact .ite (.after (.forget name) hboth) hboth
  | .unary _ _ _ x => by
      rw [arith, ArithExpr.nodes, NodeTree.preorder, preorderAll, preorderAll, List.append_nil]
      exact .node rfl (searches_arith o at_ counting x)
  | .paren _ x => by
      rw [arith, ArithExpr.nodes, NodeTree.preorder, preorderAll, preorderAll, List.append_nil]
      exact .node rfl (searches_arith o at_ counting x)
  | .ternary c x y => by
      rw [arith, ArithExpr.nodes, NodeTree.preorder, preorderAll, preorderAll]
      exact .node rfl ((searches_arith o at_ counting c).bind
        ((searches_arith o at_ counting x).bind (searches_optArith o at_ counting y)))

theorem searches_optArith (o : Origin) (at_ : Place) (counting : Bool) :
    ∀ x : Option ArithExpr, Searches (optArith o at_ counting x) (preorderAll (optArithNodes x))
  | none => by
      rw [optArith, optArithNodes, preorderAll]
      exact .nothing (.pure _)
  | some x => by
      rw [optArith, optArithNodes, preorderAll, preorderAll, List.append_nil]
      exact searches_arith o at_ counting x

theorem searches_test (o : Origin) (at_ : Place) : ∀ x : TestExpr, Searches (test o at_ x) x.nodes.preorder
  | .word w => by
      rw [test, TestExpr.nodes, NodeTree.preorder, preorderAll, preorderAll, List.append_nil]
      exact .node rfl (searches_word o at_ false w)
  | .binary _ _ x y => by
      rw [test, TestExpr.nodes, NodeTree.preorder, preorderAll, preorderAll, preorderAll, List.append_nil]
      exact .node rfl ((searches_test o at_ x).bind (searches_test o at_ y))
  | .unary _ op x => by
      rw [TestExpr.nodes, NodeTree.preorder, preorderAll, preorderAll, List.append_nil]
      have hx := searches_test o at_ x
      refine .node rfl ?_
      cases x with
      | word w =>
          rw [test]
          exact .ite (.after (.guard o w) hx) hx
      | binary | unary | paren =>
          rw [test]
          · exact hx
          · nofun
  | .paren _ x => by
      rw [test, TestExpr.nodes, NodeTree.preorder, preorderAll, preorderAll, List.append_nil]
      exact .node rfl (searches_test o at_ x)

theorem searches_optArray (o : Origin) (at_ : Place) :
    ∀ x : Option ArrayExpr, Searches (optArray o at_ x) (preorderAll (optArrayNodes x))
  | none => by
      rw [optArray, optArrayNodes, preorderAll]
      exact .nothing (.pure _)
  | some ⟨_, elems⟩ => by
      rw [optArray, optArrayNodes, preorderAll, preorderAll, NodeTree.preorder, List.append_nil]
      exact .node rfl (searches_words o at_ false elems)

theorem searches_assign (o : Origin) (at_ : Place) : ∀ a : Assignment, Searches (assign o at_ a) a.nodes.preorder
  | ⟨p, name, index, append, naked, value, array⟩ => by
      have hset : Grows (if naked then pure () else match value, index, array with
        | some v, none, none => setVariable ⟨p, name, index, append, naked, value, array⟩ v
        | _, _, _ => forget name) := by
        refine .ite (.pure _) ?_
        split
        · exact .setVariable _ _
        · exact .forget name
      unfold assign
      rw [Assignment.nodes, NodeTree.preorder, preorderAll_append, preorderAll_append]
      have hall := (searches_optWord o at_ false value).bind ((searches_optWord o at_ false index).bind
        ((searches_optArray o at_ array).before hset))
      -- the value is written after the index and looked at before it
      refine .node rfl (hall.extend (fun n hn => ?_) fun n hn => .inr (.inl ?_))
      · simpa [or_assoc, or_left_comm] using hn
      · simpa [or_assoc, or_left_comm] using hn

theorem searches_assigns (o : Origin) (at_ : Place) :
    ∀ as : List Assignment, Searches (assigns o at_ as) (preorderAll (assignNodes as))
  | [] => by
      rw [assigns, assignNodes, preorderAll]
      exact .nothing (.pure _)
  | a :: as => by
      rw [assigns, assignNodes, preorderAll]
      exact (searches_assign o at_ a).bind (searches_assigns o at_ as)

theorem searches_values (o : Origin) (at_ : Place) :
    ∀ as : List Assignment, Searches (values o at_ as) (as.flatMap fun a => preorderAll (optWordNodes a.value))
  | [] => by
      rw [values, List.flatMap_nil]
      exact .nothing (.pure _)
  | ⟨_, _, _, _, _, value, _⟩ :: as => by
      rw [values, List.flatMap_cons]
      exact (searches_optWord o at_ false value).bind (searches_values o at_ as)

theorem searches_redirects (o : Origin) (at_ : Place) :
    ∀ rs : List Redirect, Searches (redirects o at_ rs) (preorderAll (redirectNodes rs))
  | [] => by
      rw [redirects, redirectNodes, preorderAll]
      exact .nothing (.pure _)
  | ⟨p, op, n, target, some ⟨_, _, _, _, _, body⟩⟩ :: rs => by
      rw [redirects, redirectNodes, preorderAll, Redirect.nodes, NodeTree.preorder, preorderAll, optDocNodes, preorderAll,
        preorderAll, NodeTree.preorder, List.append_nil]
      refine Searches.bind ?_ (searches_redirects o at_ rs)
      refine (searches_optWord o at_ false body).extend (fun n hn => ?_) fun n hn => ?_
      · simp [hn]
      · simp only [List.mem_cons, List.mem_append] at hn
        rcases hn with rfl | hn | rfl | hn
        · exact .inl rfl
        · exact .inr (.inr ⟨target, by simp [unsearched], hn⟩)
        · exact .inl rfl
        · exact .inr (.inl hn)
  | ⟨_, op, _, target, none⟩ :: rs => by
      rw [redirects, redirectNodes, preorderAll, Redirect.nodes, NodeTree.preorder, preorderAll, optDocNodes, preorderAll,
        List.append_nil, List.cons_append]
      refine .node rfl ((searches_word o at_ false target).bind ?_)
      have hrest := searches_redirects o at_ rs
      cases hu : redirectUsage? op target with
      | none => exact hrest
      | some u => exact .after (.refer (Grows.counts_redirectUsage? hu) "" target) hrest

theorem searches_loopItems (o : Origin) (at_ : Place) :
    ∀ ws : List Word, Searches (loopItems o at_ ws) (preorderAll (wordNodes ws))
  | [] => by
      rw [loopItems, wordNodes, preorderAll]
      exact .nothing (.pure _)
  | w :: ws => by
      rw [loopItems, wordNodes, preorderAll]
      have hrest := searches_loopItems o at_ ws
      refine (searches_word o at_ false w).bind (.ite (.after ?_ hrest) hrest)
      exact .refer (by simp [Usage.Counts]) "for" w

theorem searches_block (o : Origin) (at_ : Place) : ∀ b : Block, Searches (block o at_ b) b.nodes.preorder
  | ⟨_, items⟩ => by
      rw [block, Block.nodes, NodeTree.preorder]
      exact .node rfl (searches_commands o at_ items)

theorem searches_optBlock (o : Origin) (at_ : Place) :
    ∀ b : Option Block, Searches (optBlock o at_ b) (preorderAll (optBlockNodes b))
  | none => by
      rw [optBlock, optBlockNodes, preorderAll]
      exact .nothing (.pure _)
  | some b => by
      rw [optBlock, optBlockNodes, preorderAll, preorderAll, List.append_nil]
      exact searches_block o at_ b

theorem searches_commands (o : Origin) (at_ : Place) :
    ∀ cs : List Command, Searches (commands o at_ cs) (preorderAll (commandNodes cs))
  | [] => by
      rw [commands, commandNodes, preorderAll]
      exact .nothing (.pure _)
  | c :: cs => by
      rw [commands, commandNodes, preorderAll]
      exact (searches_command o at_ c).bind (searches_commands o at_ cs)

theorem searches_elifs (o : Origin) (at_ : Place) :
    ∀ es : List Elif, Searches (elifs o at_ es) (preorderAll (elifNodes es))
  | [] => by
      rw [elifs, elifNodes, preorderAll]
      exact .nothing (.pure _)
  | ⟨_, cond, yes⟩ :: es => by
      rw [elifs, elifNodes, preorderAll, NodeTree.preorder, preorderAll, preorderAll, preorderAll, List.append_nil,
        List.cons_append, List.append_assoc]
      exact .node rfl ((searches_block o _ cond).bind ((searches_block o at_ yes).bind (searches_elifs o at_ es)))

theorem searches_caseItems (o : Origin) (at_ : Place) :
    ∀ is : List CaseItem, Searches (caseItems o at_ is) (preorderAll (caseNodes is))
  | [] => by
      rw [caseItems, caseNodes, preorderAll]
      exact .nothing (.pure _)
  | ⟨patterns, body, term⟩ :: is => by
      rw [caseItems, caseNodes, preorderAll, NodeTree.preorder, preorderAll_append, preorderAll, preorderAll,
        List.append_nil]
      refine Searches.bind ?_ (searches_caseItems o at_ is)
      refine (searches_block o at_ body).extend (fun n hn => ?_) fun n hn => ?_
      · simp [hn]
      · rcases List.mem_cons.mp hn with rfl | hn
        · exact .inl rfl
        · rcases List.mem_append.mp hn with hn | hn
          · obtain ⟨w, hw, hinside⟩ := mem_wordNodes.mp hn
            exact .inr (.inr ⟨w, by simp [unsearched, hw], hinside⟩)
          · exact .inr (.inl hn)

theorem searches_command (o : Origin) (at_ : Place) : ∀ c : Command, Searches (command o at_ c) c.nodes.preorder
  | .andOr _ _ x y => by
      rw [command, Command.nodes, NodeTree.preorder, preorderAll, preorderAll, preorderAll, List.append_nil]
      exact .node rfl ((searches_command o _ x).bind (searches_command o at_ y))
  | .pipeline _ _ cmds _ => by
      rw [command, Command.nodes, NodeTree.preorder]
      exact .node rfl (searches_commands o at_ cmds)
  | .background x => by
      rw [command, Command.nodes, NodeTree.preorder, preorderAll, preorderAll, List.append_nil]
      exact .node rfl (searches_command o at_ x)
  | .simple as [] redirs => by
      rw [command, Command.nodes, NodeTree.preorder, preorderAll_append, preorderAll_append, List.append_assoc]
      exact .node rfl ((searches_assigns o at_ as).bind ((searches_words o at_ false []).bind
        ((searches_redirects o at_ redirs).before (.commandLine o at_ _ _))))
  | .simple as (w :: ws) redirs => by
      rw [command, Command.nodes, NodeTree.preorder, preorderAll_append, preorderAll_append, List.append_assoc]
      have hall := (searches_values o at_ as).bind ((searches_words o at_ false (w :: ws)).bind
        ((searches_redirects o at_ redirs).bind (searches_commandLine o at_ as w ws redirs)))
      refine hall.extend (fun n hn => ?_) fun n hn => ?_
      · simp only [List.mem_append, List.mem_cons, List.mem_flatMap, List.not_mem_nil, or_false] at hn ⊢
        rcases hn with ⟨a, ha, hn⟩ | hn | hn | hn
        · exact .inr (.inl (mem_assignNodes.mpr ⟨a, ha, mem_assignment_of_value hn⟩))
        · exact .inr (.inr (.inl hn))
        · exact .inr (.inr (.inr hn))
        · exact .inl hn
      · simp only [List.mem_append, List.mem_cons, List.mem_flatMap, List.not_mem_nil, or_false] at hn ⊢
        rcases hn with hn | hn | hn | hn
        · exact .inr (.inl (.inr (.inr (.inr hn))))
        · obtain ⟨a, ha, hn⟩ := mem_assignNodes.mp hn
          rcases cases_assignment hn with hnone | hvalue | ⟨v, hv, hinside⟩
          · exact .inl hnone
          · exact .inr (.inl (.inl ⟨a, ha, hvalue⟩))
          · exact .inr (.inr ⟨v, ⟨_, .inl rfl, List.mem_flatMap.mpr ⟨a, ha, hv⟩⟩, hinside⟩)
        · exact .inr (.inl (.inr (.inl hn)))
        · exact .inr (.inl (.inr (.inr (.inl hn))))
  | .declare _ _ opts as redirs => by
      rw [command, Command.nodes, NodeTree.preorder, preorderAll_append, preorderAll_append, List.append_assoc]
      exact .node rfl ((searches_words o at_ false opts).bind ((searches_assigns o at_ as).bind
        (searches_redirects o at_ redirs)))
  | .ifThen _ cond yes es no => by
      rw [command, Command.nodes, NodeTree.preorder, List.cons_append, List.cons_append, preorderAll, preorderAll,
        preorderAll_append]
      exact .node rfl ((searches_block o _ cond).bind ((searches_block o at_ yes).bind
        ((searches_elifs o at_ es).bind (searches_optBlock o at_ no))))
  | .loop _ _ cond body => by
      rw [command, Command.nodes, NodeTree.preorder, preorderAll, preorderAll, preorderAll, List.append_nil]
      exact .node rfl ((searches_block o _ cond).bind (searches_block o _ body))
  | .forIn _ name _ _ items body => by
      rw [command, Command.nodes, NodeTree.preorder, preorderAll_append, preorderAll, preorderAll, List.append_nil]
      exact .node rfl ((searches_loopItems o at_ items).bind (.after (.forget name) (searches_block o _ body)))
  | .select _ name _ _ items body => by
      rw [command, Command.nodes, NodeTree.preorder, preorderAll_append, preorderAll, preorderAll, List.append_nil]
      exact .node rfl ((searches_loopItems o at_ items).bind (.after (.forget name) (searches_block o _ body)))
  | .forArith _ x y z body => by
      rw [command, Command.nodes, NodeTree.preorder, preorderAll_append, preorderAll_append, preorderAll_append, preorderAll,
        preorderAll, List.append_nil, List.append_assoc, List.append_assoc]
      exact .node rfl ((searches_optArith o at_ true x).bind ((searches_optArith o at_ true y).bind
        ((searches_optArith o at_ true z).bind (searches_block o _ body))))
  | .caseOf _ w items => by
      rw [command, Command.nodes, NodeTree.preorder, preorderAll]
      exact .node rfl ((searches_word o at_ false w).bind (searches_caseItems o at_ items))
  | .function _ _ _ _ body => by
      rw [command, Command.nodes, NodeTree.preorder, preorderAll, preorderAll, List.append_nil]
      exact .node rfl (searches_command o at_ body)
  | .subshell _ body => by
      rw [command, Command.nodes, NodeTree.preorder, preorderAll, preorderAll, List.append_nil]
      exact .node rfl (searches_block o at_ body)
  | .group _ body => by
      rw [command, Command.nodes, NodeTree.preorder, preorderAll, preorderAll, List.append_nil]
      exact .node rfl (searches_block o at_ body)
  | .arith _ x => by
      rw [command, Command.nodes, NodeTree.preorder, preorderAll, preorderAll, List.append_nil]
      exact .node rfl (searches_arith o at_ true x)
  | .test _ x => by
      rw [command, Command.nodes, NodeTree.preorder, preorderAll, preorderAll, List.append_nil]
      exact .node rfl (searches_test o at_ x)
  | .redirected x redirs => by
      rw [command, Command.nodes, NodeTree.preorder, preorderAll]
      exact .node rfl ((searches_command o at_ x).bind (searches_redirects o at_ redirs))

end

section Collected

variable {o : Origin} {b : Block}

theorem mem_commands_collect {c : String × Position} :
    c ∈ (collect o b).commands ↔ c ∈ ((block o {} b).run {}).2.commands :=
  List.mem_reverse

theorem counts_of_mem_collect {r : Reference} (h : r ∈ (collect o b).refs) : r.usage.Counts := by
  obtain ⟨r, hr, rfl⟩ := List.mem_map.mp (List.mem_reverse.mp h)
  have hcounts : r.usage.Counts := ((searches_block o {} b).grows {}).refs r hr |>.resolve_left nofun
  split
  · exact hcounts
  · exact hcounts

end Collected

-- Every program that a script names in the place of a command is found, wherever the command stands, unless only a word
-- that is not looked into leads to it.
theorem collect_finds_programs (o : Origin) (b : Block) : ∀ n ∈ b.nodes.preorder, ∀ c ∈ programOf? n,
    c ∈ (collect o b).commands ∨ ∃ w ∈ b.nodes.preorder.flatMap unsearched, n ∈ w.nodes.preorder := by
  intro n hn c hc
  rw [mem_commands_collect]
  exact (searches_block o {} b).finds {} n hn c hc

-- A program that is run for a word of a loop is found.
theorem collect_finds_program_of_loop :
    let b := (Script.read none "/script" "for i in \"$(foo)\"; do echo $i; done\n").body
    ∃ p, ("foo", p) ∈ (collect ⟨"/script", fun _ => []⟩ b).commands := by
  intro b
  obtain ⟨hnamed, hsearched⟩ : b.nodes.preorder.filterMap programOf? = [("foo", ⟨12, 1, 13⟩)] ∧
      (b.nodes.preorder.flatMap unsearched).length = 0 := by decide +kernel
  obtain ⟨n, hn, hc⟩ := List.mem_filterMap.mp (hnamed ▸ List.mem_singleton_self _)
  refine ⟨_, (collect_finds_programs ⟨"/script", fun _ => []⟩ b n hn _ hc).resolve_right ?_⟩
  simp [List.length_eq_zero_iff.mp hsearched]

-- A program that is run for the pattern of a `case` is not.
theorem program_of_pattern_is_missed :
    let b := (Script.read none "/script" "case x in $(foo)) ;; esac\n").body
    ∃ n ∈ b.nodes.preorder, ∃ c ∈ programOf? n, c ∉ (collect ⟨"/script", fun _ => []⟩ b).commands := by
  intro b
  obtain ⟨hnamed, hcommands⟩ : b.nodes.preorder.filterMap programOf? = [("foo", ⟨12, 1, 13⟩)] ∧
      (collect ⟨"/script", fun _ => []⟩ b).commands = [] := by decide +kernel
  obtain ⟨n, hn, hc⟩ := List.mem_filterMap.mp (hnamed ▸ List.mem_singleton_self _)
  exact ⟨n, hn, _, hc, by simp [hcommands]⟩

end Dependency
end ShellScript

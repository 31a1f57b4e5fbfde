import ShellScript.Proofs.Dependency.NodeGraph
import ShellScript.Proofs.Text.Order

-- What a graph of dependencies says when nothing is added any more, whatever the order in which its references were
-- found: the same things in the same order, with the same usage and the same places in the same order.
namespace ShellScript
namespace Dependency

open Std (TransCmp LawfulEqCmp)

-- Usages.

namespace Usage

theorem mem_addCommand {cs : List String} {c a : String} : a ∈ addCommand cs c ↔ a ∈ cs ∨ a = c := by
  unfold addCommand
  split
  · rename_i hc
    refine ⟨.inl, fun h => h.elim id fun hac => ?_⟩
    rw [hac]
    exact List.contains_iff_mem.mp hc
  · simp

theorem mem_foldl_addCommand {cs cs' : List String} {a : String} : a ∈ cs'.foldl addCommand cs ↔ a ∈ cs ∨ a ∈ cs' := by
  induction cs' generalizing cs with
  | nil => simp
  | cons c cs' ih => rw [List.foldl_cons, ih, mem_addCommand, List.mem_cons, or_assoc]

theorem count_addCommand (cs : List String) (c a : String) :
    (addCommand cs c).count a = if a ∈ cs then cs.count a else if a = c then 1 else 0 := by
  unfold addCommand
  split
  · rename_i hc
    split
    · rfl
    · rename_i ha
      have hac : a ≠ c := fun h => ha (h ▸ List.contains_iff_mem.mp hc)
      rw [if_neg hac, List.count_eq_zero.mpr ha]
  · rename_i hc
    have hc : c ∉ cs := fun h => hc (List.contains_iff_mem.mpr h)
    rw [List.count_append, List.count_singleton]
    by_cases hac : a = c
    · subst hac
      simp [hc, List.count_eq_zero.mpr hc]
    · by_cases ha : a ∈ cs
      · simp [ha, Ne.symm hac]
      · simp [ha, hac, Ne.symm hac, List.count_eq_zero.mpr ha]

-- Each name that was there stays as often as it was there, and each new one is there once.
theorem count_foldl_addCommand (cs cs' : List String) (a : String) :
    (cs'.foldl addCommand cs).count a = if a ∈ cs then cs.count a else if a ∈ cs' then 1 else 0 := by
  induction cs' generalizing cs with
  | nil => simp +contextual [List.count_eq_zero]
  | cons c cs' ih =>
      rw [List.foldl_cons, ih, count_addCommand]
      by_cases ha : a ∈ cs
      · simp [ha, mem_addCommand]
      · by_cases hac : a = c <;> simp [ha, hac, mem_addCommand]

-- The usages of two references may be added in either order.
theorem merge_right_comm (u v w : Usage) : (u.merge v).merge w = (u.merge w).merge v := by
  have hmem (cs : List String) (a : String) : a ∈ Text.sort cs ↔ a ∈ cs := (List.mergeSort_perm cs _).mem_iff
  have hcount (cs : List String) (a : String) : (Text.sort cs).count a = cs.count a :=
    (List.mergeSort_perm cs _).count_eq a
  have hcommands : ((u.merge v).merge w).commands = ((u.merge w).merge v).commands := by
    refine Text.sort_eq_of_perm (List.perm_iff_count.mpr fun a => ?_)
    simp only [merge, count_foldl_addCommand, mem_foldl_addCommand, hmem, hcount]
    by_cases hu : a ∈ u.commands
    · simp [hu]
    · by_cases hv : a ∈ v.commands <;> by_cases hw : a ∈ w.commands <;> simp [hu, hv, hw]
  simp only [merge, Usage.mk.injEq] at hcommands ⊢
  refine ⟨Int.add_right_comm .., Int.add_right_comm .., Int.add_right_comm .., Bool.or_right_comm .., Bool.or_right_comm ..,
    Bool.or_right_comm .., Bool.or_right_comm .., Bool.or_right_comm .., Bool.or_right_comm .., hcommands⟩

end Usage

-- Places.

namespace Edge

-- Where the reference stands. What else is known about it has no part in the order of places.
def place (e : Edge) : String × Int × Int := (e.from_, e.line, e.column)

def placeOrder : String × Int × Int → String × Int × Int → Ordering := lexOrder Text.compare (lexOrder compare compare)

theorem order_eq (a b : Edge) : a.order b = placeOrder a.place b.place := rfl

instance : TransCmp placeOrder := inferInstanceAs (TransCmp (lexOrder _ _))

instance : LawfulEqCmp placeOrder := inferInstanceAs (LawfulEqCmp (lexOrder _ _))

def sorted (es : List Edge) : List Edge := es.mergeSort fun a b => a.order b != .gt

theorem place_sorted {es es' : List Edge} (h : es.Perm es') : (sorted es).map place = (sorted es').map place := by
  have hmap (es : List Edge) :
      (sorted es).map place = (es.map place).mergeSort fun a b => placeOrder a b != .gt :=
    List.map_mergeSort fun a _ b _ => by rw [order_eq]
  rw [hmap, hmap]
  exact mergeSort_eq_of_perm (h.map place)

end Edge

-- Things.

def Kind.order (a b : Kind) : Ordering := compare a.rank b.rank

instance : TransCmp Kind.order := transCmp_comap compare Kind.rank

instance : LawfulEqCmp Kind.order where
  compare_self := Std.ReflCmp.compare_self
  eq_of_compare {a b} h := by
    have hrank : a.rank = b.rank := LawfulEqCmp.eq_of_compare h
    cases a <;> cases b <;> first | rfl | cases hrank

theorem Node.le_eq (a b : Node) : a.le b = (lexOrder Kind.order Text.compare a.id b.id != .gt) := rfl

theorem map_id_sorted {ns ns' : List Node} (h : (ns.map Node.id).Perm (ns'.map Node.id)) :
    (ns.mergeSort Node.le).map Node.id = (ns'.mergeSort Node.le).map Node.id := by
  have hmap (ns : List Node) : (ns.mergeSort Node.le).map Node.id =
      (ns.map Node.id).mergeSort fun a b => lexOrder Kind.order Text.compare a b != .gt :=
    List.map_mergeSort fun a _ b _ => by rw [Node.le_eq]
  rw [hmap, hmap]
  exact mergeSort_eq_of_perm h

-- Everything that is said of a graph depends on the order of discovery in one respect: among the references at one place
-- the one found first comes first.
structure Node.Agrees (n m : Node) : Prop where
  rest : { n with edges := m.edges } = m
  edges : n.edges.Perm m.edges
  places : n.edges.map Edge.place = m.edges.map Edge.place

-- A reference as it is added to a graph.
structure Discovery where
  kind : Kind
  path : String
  usage : Usage := {}
  edge : Edge := {}

namespace Discovery

def id (d : Discovery) : Kind × String := (d.kind, d.path)

def onNode (n : Node) (d : Discovery) : Node := Graph.refer d.usage d.edge n

-- The node of a thing, which is new if there was none.
def onNode? (n? : Option Node) (d : Discovery) : Option Node :=
  some (onNode (n?.getD { kind := d.kind, path := d.path }) d)

def addEdge (es : List Edge) (e : Edge) : List Edge := if e.from_.isEmpty || es.contains e then es else es ++ [e]

theorem foldl_onNode (ds : List Discovery) (n : Node) : ds.foldl onNode n =
    { n with
      usage := (ds.map usage).foldl Usage.merge n.usage
      edges := (ds.map edge).foldl addEdge n.edges } := by
  induction ds generalizing n with
  | nil => rfl
  | cons d ds ih => exact ih (onNode n d)

theorem mem_addEdge {es : List Edge} {e x : Edge} : x ∈ addEdge es e ↔ x ∈ es ∨ (x = e ∧ x.from_.isEmpty = false) := by
  unfold addEdge
  split
  · rename_i hold
    refine ⟨.inl, fun h => h.elim (fun hx => hx) ?_⟩
    rintro ⟨rfl, hfrom⟩
    rw [hfrom, Bool.false_or] at hold
    exact List.contains_iff_mem.mp hold
  · rename_i hnew
    have hfrom : e.from_.isEmpty = false := by
      simp only [Bool.or_eq_true, not_or, Bool.not_eq_true] at hnew
      exact hnew.1
    rw [List.mem_append, List.mem_singleton]
    exact or_congr_right ⟨fun h => ⟨h, h ▸ hfrom⟩, And.left⟩

theorem nodup_addEdge {es : List Edge} (e : Edge) (h : es.Nodup) : (addEdge es e).Nodup := by
  unfold addEdge
  split
  · exact h
  · rename_i hnew
    simp only [Bool.or_eq_true, List.contains_iff_mem, not_or] at hnew
    refine List.nodup_append.mpr ⟨h, List.nodup_singleton e, fun a ha b hb => ?_⟩
    rw [List.mem_singleton.mp hb]
    exact fun hae => hnew.2 (hae ▸ ha)

theorem mem_foldl_addEdge {es' es : List Edge} {x : Edge} :
    x ∈ es'.foldl addEdge es ↔ x ∈ es ∨ (x ∈ es' ∧ x.from_.isEmpty = false) := by
  induction es' generalizing es with
  | nil => simp
  | cons e es' ih => rw [List.foldl_cons, ih, mem_addEdge, List.mem_cons, or_assoc, or_and_right]

theorem nodup_foldl_addEdge {es : List Edge} (h : es.Nodup) (es' : List Edge) : (es'.foldl addEdge es).Nodup := by
  induction es' generalizing es with
  | nil => exact h
  | cons e es' ih => exact ih (nodup_addEdge e h)

theorem perm_foldl_addEdge {es es' : List Edge} (h : es.Perm es') : (es.foldl addEdge []).Perm (es'.foldl addEdge []) := by
  refine (List.perm_ext_iff_of_nodup (nodup_foldl_addEdge List.nodup_nil _) (nodup_foldl_addEdge List.nodup_nil _)).mpr ?_
  intro x
  rw [mem_foldl_addEdge, mem_foldl_addEdge, h.mem_iff]

theorem foldl_onNode? {ds : List Discovery} {i : Kind × String} (h : ∀ d ∈ ds, d.id = i) : ds.foldl onNode? none =
    if ds = [] then none else some (ds.foldl onNode { kind := i.1, path := i.2 }) := by
  have hsome (n : Node) (ds : List Discovery) : ds.foldl onNode? (some n) = some (ds.foldl onNode n) := by
    induction ds generalizing n with
    | nil => rfl
    | cons d ds ih => exact ih (onNode n d)
  cases ds with
  | nil => rfl
  | cons d ds =>
      obtain rfl := h d List.mem_cons_self
      exact hsome _ ds

end Discovery

-- A node with its places in order.
def Node.tidy (n : Node) : Node := { n with edges := Edge.sorted n.edges }

theorem agrees_of_perm {ds ds' : List Discovery} (h : ds.Perm ds') {n : Node} (hn : n.edges = []) :
    (ds.foldl Discovery.onNode n).tidy.Agrees (ds'.foldl Discovery.onNode n).tidy := by
  have husage : (ds.map (·.usage)).foldl Usage.merge n.usage = (ds'.map (·.usage)).foldl Usage.merge n.usage :=
    (h.map _).foldl_eq' (fun u _ v _ w => w.merge_right_comm u v) _
  have hedges := Discovery.perm_foldl_addEdge (h.map (·.edge))
  rw [Discovery.foldl_onNode, Discovery.foldl_onNode, husage, hn]
  exact ⟨rfl, ((List.mergeSort_perm _ _).trans hedges).trans (List.mergeSort_perm _ _).symm, Edge.place_sorted hedges⟩

namespace Graph

theorem hits_iff {n : Node} {kind : Kind} {path : String} :
    (n.kind == kind && n.path == path) = true ↔ n.id = (kind, path) := by
  simp [Node.id]

theorem find?_update {kind : Kind} {path : String} {f : Node → Node} (hf : ∀ n, (f n).id = n.id) (ns : List Node)
    (i : Kind × String) : (update kind path f ns).find? (·.id = i) =
      if i = (kind, path) then some (f ((ns.find? (·.id = i)).getD { kind, path })) else ns.find? (·.id = i) := by
  induction ns with
  | nil =>
      have hid : (f { kind, path }).id = (kind, path) := hf _
      by_cases hi : i = (kind, path)
      · simp [update, hi, hid]
      · simp [update, hi, hid, Ne.symm hi]
  | cons n ns ih =>
      rw [update]
      split
      · rename_i hhit
        have hn : n.id = (kind, path) := hits_iff.mp hhit
        by_cases hi : i = (kind, path)
        · simp [hi, hf, hn]
        · simp [hi, hf, hn, Ne.symm hi]
      · rename_i hhit
        have hn : n.id ≠ (kind, path) := fun h => hhit (hits_iff.mpr h)
        by_cases hni : n.id = i
        · subst hni
          simp [hn]
        · simpa [hni] using ih

def addAll? (g : Graph) (ds : List Discovery) : Option Graph :=
  ds.foldlM (fun g d => g.add? d.kind d.path d.usage d.edge) g

-- What a graph that is not frozen is after some references were added: each thing has the usage and the places of those
-- that are about it.
structure After (g : Graph) (ds : List Discovery) (g' : Graph) : Prop where
  open_ : g'.frozen = false
  once : (g'.nodes.map Node.id).Nodup
  node : ∀ i, g'.nodes.find? (·.id = i) = (ds.filter (·.id = i)).foldl Discovery.onNode? (g.nodes.find? (·.id = i))

theorem exists_addAll? {g : Graph} (hopen : g.frozen = false) (honce : (g.nodes.map Node.id).Nodup) (ds : List Discovery) :
    ∃ g', g.addAll? ds = some g' ∧ After g ds g' := by
  induction ds generalizing g with
  | nil => exact ⟨g, rfl, hopen, honce, fun _ => rfl⟩
  | cons d ds ih =>
      have hid : ∀ n, (refer d.usage d.edge n).id = n.id := fun _ => rfl
      have hadd : g.add? d.kind d.path d.usage d.edge = some (g.modify d.kind d.path (refer d.usage d.edge)) := by
        rw [add?, hopen]
        rfl
      obtain ⟨g', hg', hafter⟩ := ih (g := g.modify d.kind d.path (refer d.usage d.edge)) hopen (nodup_update hid honce)
      refine ⟨g', ?_, hafter.open_, hafter.once, fun i => ?_⟩
      · rw [addAll?, List.foldlM_cons, hadd]
        exact hg'
      · rw [hafter.node i, modify, find?_update hid, List.filter_cons]
        by_cases hi : i = (d.kind, d.path)
        · subst hi
          simp only [Discovery.id, if_true, decide_true]
          rfl
        · have hd : d.id ≠ i := Ne.symm hi
          simp [hi, hd]

theorem mem_sorted_freeze {g : Graph} {x : Node} : x ∈ g.freeze.sorted ↔ ∃ n ∈ g.nodes, n.tidy = x :=
  (List.mergeSort_perm _ _).mem_iff.trans List.mem_map

theorem find?_of_mem {ns : List Node} (honce : (ns.map Node.id).Nodup) {n : Node} (hn : n ∈ ns) :
    ns.find? (·.id = n.id) = some n := by
  induction ns with
  | nil => cases hn
  | cons m ns ih =>
      rw [List.map_cons, List.nodup_cons] at honce
      rcases List.mem_cons.mp hn with rfl | hn
      · simp
      · have hne : m.id ≠ n.id := fun h => honce.1 (h ▸ List.mem_map_of_mem hn)
        simpa [hne] using ih honce.2 hn

-- The node of a thing, from the references that are about it.
theorem After.eq_foldl {ds : List Discovery} {g : Graph} (h : After {} ds g) {n : Node} (hn : n ∈ g.nodes) :
    (ds.filter (·.id = n.id)) ≠ [] ∧
      n = (ds.filter (·.id = n.id)).foldl Discovery.onNode { kind := n.kind, path := n.path } := by
  have hfold := (h.node n.id).symm.trans (find?_of_mem h.once hn)
  rw [List.find?_nil, Discovery.foldl_onNode? (i := n.id) (by simp)] at hfold
  split at hfold
  · cases hfold
  · rename_i hne
    exact ⟨hne, (Option.some.inj hfold).symm⟩

theorem After.mem_ids {ds : List Discovery} {g : Graph} (h : After {} ds g) (i : Kind × String) :
    i ∈ g.nodes.map Node.id ↔ i ∈ ds.map Discovery.id := by
  have hfold := h.node i
  rw [List.find?_nil, Discovery.foldl_onNode? (i := i) (by simp)] at hfold
  have hnone : i ∉ g.nodes.map Node.id ↔ g.nodes.find? (·.id = i) = none := by simp [List.find?_eq_none]
  have hempty : i ∉ ds.map Discovery.id ↔ ds.filter (·.id = i) = [] := by simp [List.filter_eq_nil_iff]
  rw [← not_iff_not, hnone, hempty, hfold]
  split <;> simp [*]

end Graph

theorem forall₂_of_map_eq {α β γ : Type} {f : α → γ} {g : β → γ} {R : α → β → Prop} {l : List α} {l' : List β}
    (h : l.map f = l'.map g) (hR : ∀ x ∈ l, ∀ y ∈ l', f x = g y → R x y) : List.Forall₂ R l l' := by
  induction l generalizing l' with
  | nil =>
      obtain rfl := List.map_eq_nil_iff.mp h.symm
      exact .nil
  | cons x l ih =>
      cases l' with
      | nil => cases h
      | cons y l' =>
          obtain ⟨hxy, hrest⟩ := List.cons.inj h
          refine .cons (hR x List.mem_cons_self y List.mem_cons_self hxy) (ih hrest fun a ha b hb => ?_)
          exact hR a (List.mem_cons_of_mem _ ha) b (List.mem_cons_of_mem _ hb)

-- No two references to one thing stand at one place, of which one follows the file and the other one does not.
def Untied (ds : List Discovery) : Prop :=
  ∀ c ∈ ds, ∀ d ∈ ds, c.id = d.id → c.edge.place = d.edge.place → c.edge.from_.isEmpty = false →
    c.edge.sourced = d.edge.sourced

theorem Edge.eq_of_place {a b : Edge} (h : a.place = b.place) (hsourced : a.sourced = b.sourced) : a = b := by
  obtain ⟨from_, line, column, sourced⟩ := a
  obtain ⟨from_', line', column', sourced'⟩ := b
  obtain ⟨rfl, rfl, rfl⟩ : from_ = from_' ∧ line = line' ∧ column = column' := by simpa [Edge.place] using h
  obtain rfl : sourced = sourced' := hsourced
  rfl

-- The edges of a node come from the references to it.
theorem Graph.After.of_mem_edges {ds : List Discovery} {g : Graph} (h : Graph.After {} ds g) {n : Node} (hn : n ∈ g.nodes)
    {e : Edge} (he : e ∈ n.edges) : e.from_.isEmpty = false ∧ ∃ d ∈ ds, d.id = n.id ∧ d.edge = e := by
  obtain ⟨-, hfold⟩ := h.eq_foldl hn
  rw [hfold, Discovery.foldl_onNode, Discovery.mem_foldl_addEdge] at he
  obtain ⟨hmem, hfrom⟩ := he.resolve_left List.not_mem_nil
  obtain ⟨d, hd, hde⟩ := List.mem_map.mp hmem
  obtain ⟨hd, hid⟩ := List.mem_filter.mp hd
  exact ⟨hfrom, d, hd, of_decide_eq_true hid, hde⟩

theorem Node.Agrees.eq {n m : Node} (h : n.Agrees m) (hplaces : ∀ a ∈ n.edges, ∀ b ∈ n.edges, a.place = b.place → a = b) :
    n = m := by
  have hedges : n.edges = m.edges := by
    refine List.forall₂_eq_eq_eq ▸ forall₂_of_map_eq h.places fun a ha b hb => ?_
    exact hplaces a ha b (h.edges.mem_iff.mpr hb)
  rw [← h.rest, ← hedges]

-- The node of a thing agrees in two graphs of the same references.
theorem agrees_of_after {ds ds' : List Discovery} (h : ds.Perm ds') {g g' : Graph} (hg : Graph.After {} ds g)
    (hg' : Graph.After {} ds' g') :
    List.Forall₂ (fun n m => n.Agrees m ∧ (Untied ds → n = m)) g.freeze.sorted g'.freeze.sorted := by
  have hfreeze (g : Graph) : g.freeze.nodes.map Node.id = g.nodes.map Node.id := List.map_map
  have hids : (g.freeze.nodes.map Node.id).Perm (g'.freeze.nodes.map Node.id) := by
    rw [hfreeze, hfreeze, List.perm_ext_iff_of_nodup hg.once hg'.once]
    intro i
    rw [hg.mem_ids, hg'.mem_ids, (h.map _).mem_iff]
  refine forall₂_of_map_eq (map_id_sorted hids) fun x hx y hy hxy => ?_
  obtain ⟨n, hn, rfl⟩ := Graph.mem_sorted_freeze.mp hx
  obtain ⟨m, hm, rfl⟩ := Graph.mem_sorted_freeze.mp hy
  have hid : n.id = m.id := hxy
  have hagrees : n.tidy.Agrees m.tidy := by
    obtain ⟨hkind, hpath⟩ := Prod.mk.inj hid
    rw [(hg.eq_foldl hn).2, (hg'.eq_foldl hm).2, ← hid, ← hkind, ← hpath]
    exact agrees_of_perm (h.filter _) rfl
  refine ⟨hagrees, fun huntied => hagrees.eq fun a ha b hb hplace => Edge.eq_of_place hplace ?_⟩
  obtain ⟨hfrom, c, hc, hcid, rfl⟩ := hg.of_mem_edges hn ((List.mergeSort_perm _ _).mem_iff.mp ha)
  obtain ⟨-, d, hd, hdid, rfl⟩ := hg.of_mem_edges hn ((List.mergeSort_perm _ _).mem_iff.mp hb)
  exact huntied c hc d hd (hcid.trans hdid.symm) hplace hfrom

-- The graph of some references, when nothing is added any more, does not depend on the order in which they were found, but
-- for this: of references to one thing at one place, one of which follows it, the one found first comes first.
theorem freeze_of_perm {ds ds' : List Discovery} (h : ds.Perm ds') : ∃ g g', ({} : Graph).addAll? ds = some g ∧
    ({} : Graph).addAll? ds' = some g' ∧ List.Forall₂ Node.Agrees g.freeze.sorted g'.freeze.sorted ∧
    (Untied ds → g.freeze.sorted = g'.freeze.sorted) := by
  obtain ⟨g, hadd, hg⟩ := Graph.exists_addAll? (g := {}) rfl List.nodup_nil ds
  obtain ⟨g', hadd', hg'⟩ := Graph.exists_addAll? (g := {}) rfl List.nodup_nil ds'
  have hagrees := agrees_of_after h hg hg'
  refine ⟨g, g', hadd, hadd', hagrees.imp fun _ _ => And.left, fun huntied => ?_⟩
  exact List.forall₂_eq_eq_eq ▸ hagrees.imp fun _ _ hnode => hnode.2 huntied

def sample (line : Int) (sourced : Bool) : Discovery :=
  { kind := .localFile, path := "/a", edge := { from_ := "/s", line, column := 1, sourced } }

theorem freeze_of_two_lines : ∃ g g', ({} : Graph).addAll? [sample 1 true, sample 2 false] = some g ∧
    ({} : Graph).addAll? [sample 2 false, sample 1 true] = some g' ∧ g.freeze.sorted = g'.freeze.sorted := by
  obtain ⟨g, g', hg, hg', -, hsame⟩ := freeze_of_perm (.swap (sample 2 false) (sample 1 true) [])
  refine ⟨g, g', hg, hg', hsame ?_⟩
  simp [Untied, sample, Edge.place]

-- Two references from one line and column, of which only one follows the file.
theorem order_of_tied_shows :
    (({} : Graph).addAll? [sample 1 true, sample 1 false]).map (fun g => g.freeze.sorted.map fun n => n.edges.map (·.sourced)) =
      some [[true, false]] ∧
    (({} : Graph).addAll? [sample 1 false, sample 1 true]).map (fun g => g.freeze.sorted.map fun n => n.edges.map (·.sourced)) =
      some [[false, true]] := by
  have hplace (b b' : Bool) : (sample 1 b).edge.order (sample 1 b').edge = .eq := by
    rw [Edge.order_eq]
    exact Std.ReflCmp.compare_self
  have hsorted (b : Bool) : [(sample 1 b).edge, (sample 1 !b).edge].mergeSort (fun x y => x.order y != .gt) =
      [(sample 1 b).edge, (sample 1 !b).edge] :=
    List.mergeSort_of_pairwise (by simp [hplace])
  have hgraph (b : Bool) : ∃ u, ({} : Graph).addAll? [sample 1 b, sample 1 !b] =
      some { nodes := [{ kind := .localFile, path := "/a", usage := u, edges := [(sample 1 b).edge, (sample 1 !b).edge] }] } := by
    cases b
    · exact ⟨_, rfl⟩
    · exact ⟨_, rfl⟩
  have hshown (b : Bool) : (({} : Graph).addAll? [sample 1 b, sample 1 !b]).map
      (fun g => g.freeze.sorted.map fun n => n.edges.map (·.sourced)) = some [[b, !b]] := by
    obtain ⟨u, hu⟩ := hgraph b
    rw [hu, Option.map_some, Graph.sorted, Graph.freeze, List.map_singleton, List.mergeSort_singleton, hsorted]
    rfl
  exact ⟨hshown true, hshown false⟩

end Dependency
end ShellScript

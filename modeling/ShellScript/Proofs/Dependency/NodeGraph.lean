import Mathlib.Data.List.Nodup
import ShellScript.Proofs.Dependency.Collection
import ShellScript.Proofs.Dependency.Walk

-- The nodes of the graph that a resolution builds. Until all files are known a node only gathers usage, and no two nodes
-- are about the same thing; then it is decided once about each of them.
namespace ShellScript

theorem Diagnostic.anyFatal_sort (ds : List Diagnostic) : anyFatal (sort ds) = anyFatal ds :=
  (List.mergeSort_perm ds _).any_eq

namespace Dependency

namespace Usage

-- One usage says all that another one says.
structure Covers (u v : Usage) : Prop where
  reads : v.reads ≤ u.reads
  writes : v.writes ≤ u.writes
  appends : v.appends ≤ u.appends
  inLoop : v.inLoop = true → u.inLoop = true
  inCondition : v.inCondition = true → u.inCondition = true
  guarded : v.guarded = true → u.guarded = true
  monitored : v.monitored = true → u.monitored = true
  sourced : v.sourced = true → u.sourced = true
  executed : v.executed = true → u.executed = true

theorem Covers.refl (u : Usage) : u.Covers u :=
  ⟨Int.le_refl _, Int.le_refl _, Int.le_refl _, id, id, id, id, id, id⟩

theorem Covers.trans {u v w : Usage} (h : u.Covers v) (h' : v.Covers w) : u.Covers w where
  reads := Int.le_trans h'.reads h.reads
  writes := Int.le_trans h'.writes h.writes
  appends := Int.le_trans h'.appends h.appends
  inLoop := h.inLoop ∘ h'.inLoop
  inCondition := h.inCondition ∘ h'.inCondition
  guarded := h.guarded ∘ h'.guarded
  monitored := h.monitored ∘ h'.monitored
  sourced := h.sourced ∘ h'.sourced
  executed := h.executed ∘ h'.executed

variable {u v : Usage}

theorem counts_default : Counts {} := by simp [Counts]

theorem Counts.merge (hu : u.Counts) (hv : v.Counts) : (u.merge v).Counts :=
  ⟨Int.add_nonneg hu.1 hv.1, Int.add_nonneg hu.2.1 hv.2.1, Int.add_nonneg hu.2.2 hv.2.2⟩

theorem covers_merge_left (hv : v.Counts) : (u.merge v).Covers u where
  reads := Int.le_add_of_nonneg_right hv.1
  writes := Int.le_add_of_nonneg_right hv.2.1
  appends := Int.le_add_of_nonneg_right hv.2.2
  inLoop h := by simp [merge, h]
  inCondition h := by simp [merge, h]
  guarded h := by simp [merge, h]
  monitored h := by simp [merge, h]
  sourced h := by simp [merge, h]
  executed h := by simp [merge, h]

theorem covers_merge_right (hu : u.Counts) : (u.merge v).Covers v where
  reads := Int.le_add_of_nonneg_left hu.1
  writes := Int.le_add_of_nonneg_left hu.2.1
  appends := Int.le_add_of_nonneg_left hu.2.2
  inLoop h := by simp [merge, h]
  inCondition h := by simp [merge, h]
  guarded h := by simp [merge, h]
  monitored h := by simp [merge, h]
  sourced h := by simp [merge, h]
  executed h := by simp [merge, h]

end Usage

-- What a node is about.
def Node.id (n : Node) : Kind × String := (n.kind, n.path)

section Update

variable {kind : Kind} {path : String} {f : Node → Node} {ns : List Node}

theorem mem_update {n : Node} (h : n ∈ Graph.update kind path f ns) :
    n ∈ ns ∨ ∃ m, (m ∈ ns ∨ m = { kind, path }) ∧ m.id = (kind, path) ∧ n = f m := by
  induction ns with
  | nil => exact .inr ⟨_, .inr rfl, rfl, List.mem_singleton.mp h⟩
  | cons m ns ih =>
      rw [Graph.update] at h
      split at h
      · rename_i hid
        have hid : m.id = (kind, path) := by simpa [Node.id] using hid
        rcases List.mem_cons.mp h with rfl | h
        · exact .inr ⟨m, .inl List.mem_cons_self, hid, rfl⟩
        · exact .inl (List.mem_cons_of_mem _ h)
      · rcases List.mem_cons.mp h with rfl | h
        · exact .inl List.mem_cons_self
        · rcases ih h with hold | ⟨m', hm', hid, rfl⟩
          · exact .inl (List.mem_cons_of_mem _ hold)
          · exact .inr ⟨m', hm'.imp_left (List.mem_cons_of_mem _), hid, rfl⟩

-- A node stays or is changed.
theorem exists_mem_update (kind : Kind) (path : String) (f : Node → Node) {m : Node} (h : m ∈ ns) :
    ∃ n ∈ Graph.update kind path f ns, n = m ∨ n = f m := by
  induction ns with
  | nil => cases h
  | cons k ns ih =>
      rw [Graph.update]
      split
      · rcases List.mem_cons.mp h with rfl | h
        · exact ⟨f m, List.mem_cons_self, .inr rfl⟩
        · exact ⟨m, List.mem_cons_of_mem _ h, .inl rfl⟩
      · rcases List.mem_cons.mp h with rfl | h
        · exact ⟨m, List.mem_cons_self, .inl rfl⟩
        · obtain ⟨n, hn, heq⟩ := ih h
          exact ⟨n, List.mem_cons_of_mem _ hn, heq⟩

-- The node that is changed is there afterwards.
theorem exists_changed (kind : Kind) (path : String) (f : Node → Node) (ns : List Node) :
    ∃ m, (m ∈ ns ∨ m = { kind, path }) ∧ m.id = (kind, path) ∧ f m ∈ Graph.update kind path f ns := by
  induction ns with
  | nil => exact ⟨_, .inr rfl, rfl, List.mem_singleton_self _⟩
  | cons k ns ih =>
      rw [Graph.update]
      split
      · rename_i hid
        exact ⟨k, .inl List.mem_cons_self, by simpa [Node.id] using hid, List.mem_cons_self⟩
      · obtain ⟨m, hm, hid, hchanged⟩ := ih
        exact ⟨m, hm.imp_left (List.mem_cons_of_mem _), hid, List.mem_cons_of_mem _ hchanged⟩

theorem nodup_update (hf : ∀ n, (f n).id = n.id) (h : (ns.map Node.id).Nodup) :
    ((Graph.update kind path f ns).map Node.id).Nodup := by
  induction ns with
  | nil => simp [Graph.update]
  | cons n ns ih =>
      rw [List.map_cons, List.nodup_cons] at h
      rw [Graph.update]
      split
      · rw [List.map_cons, hf, List.nodup_cons]
        exact h
      · rename_i hid
        rw [List.map_cons, List.nodup_cons]
        refine ⟨fun hmem => ?_, ih h.2⟩
        obtain ⟨k, hk, hkid⟩ := List.mem_map.mp hmem
        rcases mem_update hk with hold | ⟨m, -, hmid, rfl⟩
        · exact h.1 (List.mem_map.mpr ⟨k, hold, hkid⟩)
        · rw [hf, hmid] at hkid
          exact hid (by simp [Prod.ext_iff, Node.id] at hkid; simp [hkid])

end Update

-- A node that nothing is decided about.
structure Node.Undecided (n : Node) : Prop where
  counts : n.usage.Counts
  rule : n.rule ≠ "entry"
  bundle : n.bundle = false

-- A reference with its paths as they are known to the graph.
def Reference.canonical (q : Inquiry) (r : Reference) : Reference := { r with paths := r.paths.map q.canonical }

namespace Resolve

-- What is recorded while files are followed: one node for each thing, and for each reference that some file makes a node
-- that knows its usage.
structure Recorded (q : Inquiry) (s : State) : Prop where
  once : (s.graph.nodes.map Node.id).Nodup
  undecided : ∀ n ∈ s.graph.nodes, n.Undecided
  made : ∀ x ∈ s.refs, ∃ u ∈ s.units, ∃ y ∈ (collect { unit := u.1, glob := glob q } u.2.body).refs, x = y.canonical q
  covered : ∀ x ∈ s.refs, ∃ n ∈ s.graph.nodes, n.id = (.localFile, x.key) ∧ n.usage.Covers x.usage

namespace Recorded

variable {q : Inquiry} {s s' : State}

theorem start (q : Inquiry) : Recorded q {} := ⟨List.nodup_nil, by simp, by simp, by simp⟩

theorem congr (h : Recorded q s) (hgraph : s'.graph = s.graph) (hrefs : s'.refs = s.refs) (hunits : s.units ⊆ s'.units) :
    Recorded q s' where
  once := by
    rw [hgraph]
    exact h.once
  undecided := by
    rw [hgraph]
    exact h.undecided
  made x hx := by
    obtain ⟨u, hu, hmade⟩ := h.made x (hrefs ▸ hx)
    exact ⟨u, hunits hu, hmade⟩
  covered := by
    rw [hgraph, hrefs]
    exact h.covered

theorem modify (h : Recorded q s) (kind : Kind) (path : String) {f : Node → Node} (hid : ∀ n, (f n).id = n.id)
    (hf : ∀ n : Node, n.Undecided → (f n).Undecided ∧ (f n).usage.Covers n.usage) :
    Recorded q { s with graph := s.graph.modify kind path f } where
  once := nodup_update hid h.once
  undecided n hn := by
    rcases mem_update hn with hold | ⟨m, hm | rfl, -, rfl⟩
    · exact h.undecided n hold
    · exact (hf m (h.undecided m hm)).1
    · exact (hf _ ⟨Usage.counts_default, by simp, rfl⟩).1
  made := h.made
  covered x hx := by
    obtain ⟨m, hm, hmid, hcovers⟩ := h.covered x hx
    obtain ⟨n, hn, rfl | rfl⟩ := exists_mem_update kind path f hm
    · exact ⟨n, hn, hmid, hcovers⟩
    · exact ⟨f m, hn, (hid m).trans hmid, (hf m (h.undecided m hm)).2.trans hcovers⟩

theorem refer (h : Recorded q s) (kind : Kind) (path : String) {u : Usage} (hu : u.Counts) (e : Edge) :
    Recorded q { s with graph := s.graph.modify kind path (Graph.refer u e) } :=
  h.modify kind path (fun _ => rfl) fun _ hn => ⟨⟨hn.counts.merge hu, hn.rule, hn.bundle⟩, Usage.covers_merge_left hu⟩

-- A reference is recorded together with its usage.
theorem record (h : Recorded q s) {u : String × Script.File} (hu : u ∈ s.units) {y : Reference}
    (hy : y ∈ (collect { unit := u.1, glob := glob q } u.2.body).refs) (e : Edge) :
    Recorded q { s with
      refs := s.refs ++ [y.canonical q]
      graph := s.graph.modify .localFile (y.canonical q).key (Graph.refer y.usage e) } := by
  have hafter := h.refer .localFile (y.canonical q).key (counts_of_mem_collect hy) e
  refine ⟨hafter.once, hafter.undecided, fun x hx => ?_, fun x hx => ?_⟩
  · rcases List.mem_append.mp hx with hx | hx
    · exact h.made x hx
    · exact ⟨u, hu, y, hy, List.mem_singleton.mp hx⟩
  · rcases List.mem_append.mp hx with hx | hx
    · exact hafter.covered x hx
    · rw [List.mem_singleton.mp hx]
      obtain ⟨m, hm, hmid, hchanged⟩ := exists_changed .localFile (y.canonical q).key (Graph.refer y.usage e) s.graph.nodes
      refine ⟨_, hchanged, hmid, Usage.covers_merge_right ?_⟩
      rcases hm with hm | rfl
      · exact (h.undecided m hm).counts
      · exact Usage.counts_default

end Recorded

-- Actions that keep a property of the state.
def Keeps (I : State → Prop) {α : Type} (m : Resolving α) : Prop := ∀ s, I s → I (m.run s).2

namespace Keeps

variable {I : State → Prop} {α β : Type}

theorem pure (a : α) : Keeps I (Pure.pure a) := fun _ => id

theorem bind {m : Resolving α} {f : α → Resolving β} (hm : Keeps I m) (hf : ∀ a, Keeps I (f a)) : Keeps I (m >>= f) :=
  fun s hs => hf _ _ (hm s hs)

theorem reading {f : State → Resolving β} (hf : ∀ s, Keeps I (f s)) : Keeps I (get >>= f) := fun s hs => hf s s hs

theorem ite {b : Prop} [Decidable b] {m m' : Resolving α} (hm : Keeps I m) (hm' : Keeps I m') :
    Keeps I (if b then m else m') := by
  split
  · exact hm
  · exact hm'

theorem forM {f : α → Resolving PUnit} (hf : ∀ a, Keeps I (f a)) : ∀ as : List α, Keeps I (as.forM f)
  | [] => pure _
  | a :: as => bind (hf a) fun _ => forM hf as

theorem modifying {f : State → State} (hf : ∀ s, I s → I (f s)) : Keeps I (modify f : Resolving PUnit) := hf

end Keeps

section Following

variable {q : Inquiry} {u : String × Script.File}

-- A file was read and everything that was found so far is recorded.
def Reading (q : Inquiry) (u : String × Script.File) (s : State) : Prop := Recorded q s ∧ u ∈ s.units

theorem keeps_addReference {y : Reference} (hy : y ∈ (collect { unit := u.1, glob := glob q } u.2.body).refs) :
    Keeps (Reading q u) (addReference q u.1 y) := by
  have hcounts := counts_of_mem_collect hy
  let edge : Edge := ⟨u.1, y.pos.line, y.pos.column, y.usage.sourced⟩
  have hrest : Keeps (Reading q u) (if (y.canonical q).isStatic then
      pure (if y.usage.sourced then (y.canonical q).paths.map (·, edge) else [])
    else do
      change .localFile (y.canonical q).key fun n => { n with expr := y.expr, paths := Terminal.union n.paths (y.canonical q).paths }
      if y.usage.sourced then
        (y.canonical q).paths.forM fun p => refer .localFile p y.usage edge
        return (y.canonical q).paths.map (·, edge)
      else return []) := by
    refine .ite (.pure _) (.bind ?_ fun _ => .ite (.bind (.forM (fun p => ?_) _) fun _ => .pure _) (.pure _))
    · intro s ⟨hs, hu⟩
      exact ⟨hs.modify _ _ (fun _ => rfl) fun n hn => ⟨⟨hn.counts, hn.rule, hn.bundle⟩, .refl _⟩, hu⟩
    · exact fun s ⟨hs, hu⟩ => ⟨hs.refer _ _ hcounts _, hu⟩
  exact fun s ⟨hs, hu⟩ => hrest _ ⟨hs.record hu hy edge, hu⟩

theorem keeps_addReferences : ∀ {ys : List Reference},
    (∀ y ∈ ys, y ∈ (collect { unit := u.1, glob := glob q } u.2.body).refs) →
    Keeps (Reading q u) (addReferences q u.1 ys)
  | [], _ => .pure _
  | y :: ys, h => by
      obtain ⟨hy, hys⟩ := List.forall_mem_cons.mp h
      exact .bind (keeps_addReference hy) fun _ => .bind (keeps_addReferences hys) fun _ => .pure _

theorem keeps_scan : Keeps (Reading q u) (scan q u.1 u.2) := by
  unfold scan
  refine .bind (keeps_addReferences fun _ => id) fun _ => .bind (.forM (fun a => ?_) _) fun _ => ?_
  · exact fun s ⟨hs, hu⟩ => ⟨hs.refer _ _ (by simp [Usage.Counts]) _, hu⟩
  · exact .bind (.modifying fun s ⟨hs, hu⟩ => ⟨hs.congr rfl rfl (List.Subset.refl _), hu⟩) fun _ => .pure _

-- What is no part of the record may change.
theorem keeps_modifying {f : State → State} (hgraph : ∀ s, (f s).graph = s.graph) (hrefs : ∀ s, (f s).refs = s.refs)
    (hunits : ∀ s, (f s).units = s.units) : Keeps (Recorded q) (modify f : Resolving PUnit) :=
  fun s hs => hs.congr (hgraph s) (hrefs s) (hunits s ▸ List.Subset.refl _)

theorem keeps_report (d : Diagnostic) : Keeps (Recorded q) (report d) :=
  keeps_modifying (fun _ => rfl) (fun _ => rfl) fun _ => rfl

theorem keeps_fail (e : Failure) : Keeps (Recorded q) (fail e) :=
  keeps_modifying (fun _ => rfl) (fun _ => rfl) fun _ => rfl

theorem keeps_addUnit (path : String) (f : Script.File) : Keeps (Recorded q) (addUnit q path f) := by
  have hrest : ∀ s : State, Reading q (path, f) s →
      Recorded q ((if f.isFatal then do fail (.unit f.diags); return [] else scan q path f :
        Resolving (List (String × Edge))).run s).2 := by
    intro s hs
    split
    · exact keeps_fail (.unit f.diags) s hs.1
    · exact (keeps_scan s hs).1
  intro s hs
  refine hrest _ ⟨hs.congr rfl rfl (List.subset_append_left _ _), ?_⟩
  exact List.mem_append_right _ (List.mem_singleton_self _)

theorem keeps_enter (path : String) (chain : List String) (from_ : Edge) :
    Keeps (Recorded q) (enter q path chain from_) := by
  have hunreadable : ∀ reason, Keeps (Recorded q) (reportUnreadable path reason chain.isEmpty from_) := fun reason =>
    .ite (.bind (keeps_report _) fun _ => keeps_fail _) (keeps_report _)
  unfold enter
  refine .ite (.bind (keeps_report _) fun _ => .bind (keeps_fail _) fun _ => .pure _) ?_
  cases scriptAt q.files path with
  | error reason => exact .bind (hunreadable _) fun _ => .pure _
  | ok data =>
      refine .bind ?_ fun f => keeps_addUnit path f
      exact .reading fun s => .bind (keeps_modifying (fun _ => rfl) (fun _ => rfl) fun _ => rfl) fun _ => .pure _

theorem keeps_visit : ∀ (fuel : Nat) (path : String) (chain : List String) (from_ : Edge),
    Keeps (Recorded q) (visit q fuel path chain from_)
  | 0, _, _, _ => .pure _
  | fuel + 1, path, chain, from_ => by
      have hmark : ∀ m, Keeps (Recorded q) (mark path m) := fun m =>
        keeps_modifying (fun _ => rfl) (fun _ => rfl) fun _ => rfl
      refine .reading fun s => ?_
      cases s.marks.lookup path with
      | none =>
          refine .bind (hmark _) fun _ => .bind (keeps_enter path chain from_) fun children => ?_
          exact .bind (.forM (fun c : String × Edge => keeps_visit fuel c.1 _ c.2) _) fun _ => hmark _
      | some m =>
          cases m with
          | closed => exact .pure _
          | opened =>
              refine .reading fun s => .ite (.pure _) ?_
              refine .bind (keeps_modifying (fun _ => rfl) (fun _ => rfl) fun _ => rfl) fun _ => ?_
              exact .bind (keeps_report _) fun _ => keeps_fail _

theorem keeps_addBinaries : ∀ commands : List (String × String × Position), Keeps (Recorded q) (addBinaries commands)
  | [] => .pure _
  | (name, unit, p) :: rest => by
      have hrest := keeps_addBinaries rest
      unfold addBinaries
      refine .reading fun s => .ite hrest (.bind (fun s hs => hs.refer _ _ (by simp [Usage.Counts]) _) fun _ => ?_)
      refine .ite (.bind (fun s hs => ?_) fun _ => ?_) hrest
      · exact hs.modify _ _ (fun _ => rfl) fun n hn => ⟨⟨hn.counts, by simp, hn.bundle⟩, .refl _⟩
      · cases suggestion? name with
        | none => exact hrest
        | some hint => exact .ite (.bind (keeps_report _) fun _ => hrest) hrest

end Following

-- What is decided about a node: a file is taken along only if no rule is against it, and a program only if its file was
-- found.
structure SettledAs (q : Inquiry) (c : Classifier) (rootDir : String) (n m : Node) : Prop where
  id : m.id = n.id
  usage : m.usage = n.usage
  file : n.kind = .localFile → n.rule ≠ "entry" → m.choice = .embed → m.expr = "" →
    ∀ e, q.files.find? n.path = some e → e.isDir = false →
      (c.classify (Subject.of n.path rootDir true e.data.length n.usage)).class_ ≠ .runtime
  bundled : n.kind = .externalBinary → n.bundle = false → m.bundle = true →
    bundleFile? q rootDir n.path = some m.bundlePath

section Settling

variable (q : Inquiry) (c : Classifier) (rootDir : String)

theorem settleFile_settles {n : Node} (hkind : n.kind = .localFile) :
    Returns (settleFile q c rootDir n) (SettledAs q c rootDir n) := by
  have hother : n.kind ≠ .externalBinary := by simp [hkind]
  unfold settleFile
  refine .ite (fun hexpr => .after fun choice => .pure ?_) fun hexpr => ?_
  · refine ⟨rfl, rfl, fun _ _ _ hempty => ?_, fun hbinary => absurd hbinary hother⟩
    have hempty : n.expr = "" := hempty
    simp [hempty] at hexpr
  · extract_lets n' v n''
    have hid : n'.id = n.id := by
      simp only [n']
      split <;> rfl
    have husage : n'.usage = n.usage := by
      simp only [n']
      split <;> rfl
    have hpath : n'.path = n.path := congrArg Prod.snd hid
    -- the class decides unless there is none, and then it is not the class against embedding
    have hfile : v.class_ ≠ .runtime → ∀ e, q.files.find? n.path = some e → e.isDir = false →
        (c.classify (Subject.of n.path rootDir true e.data.length n.usage)).class_ ≠ .runtime := by
      intro hclass e hfound hfile
      have hv : v = c.classify (Subject.of n.path rootDir true e.data.length n.usage) := by
        simp [v, n', hfound, hfile]
      exact hv ▸ hclass
    refine .ite (fun hclass => .pure ?_) fun hclass => .after fun _ => .after fun choice => .pure ?_
    · refine ⟨hid, husage, fun _ _ hembed _ => hfile ?_, fun hbinary => absurd hbinary hother⟩
      have hembed : v.class_ = .embed := hembed
      simp [hembed]
    · refine ⟨hid, husage, fun _ _ _ _ => hfile ?_, fun hbinary => absurd hbinary hother⟩
      simp only [Bool.or_eq_true, beq_iff_eq, not_or] at hclass
      exact hclass.2

theorem settleBinary_settles {n : Node} (hkind : n.kind = .externalBinary) :
    Returns (settleBinary q rootDir n) (SettledAs q c rootDir n) := by
  have hother : n.kind ≠ .localFile := by simp [hkind]
  unfold settleBinary
  refine .ite (fun _ => .pure ?_) fun _ => .after fun choice => .ite (fun _ => .after fun _ => .pure ?_) fun hbundle =>
    .pure ?_
  · exact ⟨rfl, rfl, fun hfile => absurd hfile hother, fun _ hnone hbundle => by simp [hnone] at hbundle⟩
  · exact ⟨rfl, rfl, fun hfile => absurd hfile hother, fun _ _ hbundle => by simp at hbundle⟩
  · refine ⟨rfl, rfl, fun hfile => absurd hfile hother, fun _ _ hchosen => ?_⟩
    have hchosen : choice = .embed := by simpa using hchosen
    cases hfound : bundleFile? q rootDir n.path with
    | none => simp [hchosen, hfound] at hbundle
    | some path => rfl

theorem settle_settles (n : Node) : Returns (settle q c rootDir n) (SettledAs q c rootDir n) := by
  unfold settle
  cases hkind : n.kind with
  | localFile =>
      refine .ite (fun hentry => .pure ?_) fun _ => settleFile_settles q c rootDir hkind
      refine ⟨rfl, rfl, fun _ hrule => ?_, fun hbinary => by simp [hkind] at hbinary⟩
      exact absurd (by simpa using hentry) hrule
  | externalBinary => exact settleBinary_settles q c rootDir hkind
  | networkResource =>
      refine .pure ⟨?_, rfl, fun hfile => by simp [hkind] at hfile, fun hbinary => by simp [hkind] at hbinary⟩
      simp [Node.id, hkind]

-- An action with one result that asks and warns, and does nothing else.
structure Asks {α : Type} (m : Resolving α) (a : α) : Prop where
  result : ∀ s, (m.run s).1 = a
  rest : ∀ s, ∃ ds rs, (∀ d ∈ ds, Diagnostic.isFatal d = false) ∧
    (m.run s).2 = { s with diags := s.diags ++ ds, requests := s.requests ++ rs }

namespace Asks

variable {α β : Type} {a : α} {b : β} {m : Resolving α}

theorem pure (a : α) : Asks (Pure.pure a) a := by
  refine ⟨fun _ => rfl, fun s => ⟨[], [], by simp, ?_⟩⟩
  rw [List.append_nil, List.append_nil]
  rfl

theorem bind {f : α → Resolving β} (hm : Asks m a) (hf : Asks (f a) b) : Asks (m >>= f) b := by
  have hrun : ∀ s, (m >>= f).run s = (f a).run (m.run s).2 := fun s => by rw [← hm.result s]; rfl
  refine ⟨fun s => by rw [hrun, hf.result], fun s => ?_⟩
  obtain ⟨ds, rs, hds, hfirst⟩ := hm.rest s
  obtain ⟨ds', rs', hds', hsecond⟩ := hf.rest (m.run s).2
  refine ⟨ds ++ ds', rs ++ rs', fun d hd => ?_, ?_⟩
  · exact (List.mem_append.mp hd).elim (hds d) (hds' d)
  · rw [hrun, hsecond, hfirst]
    simp only [List.append_assoc]

theorem report {d : Diagnostic} (hd : d.isFatal = false) : Asks (Resolve.report d) () :=
  ⟨fun _ => rfl, fun _ => ⟨[d], [], by simpa using hd, by rw [List.append_nil]; rfl⟩⟩

end Asks

-- An action that asks and warns, with a result that does not depend on the state.
def Asking {α : Type} (m : Resolving α) : Prop := ∃ a, Asks m a

namespace Asking

variable {α β : Type} {m m' : Resolving α}

theorem pure (a : α) : Asking (Pure.pure a) := ⟨a, .pure a⟩

theorem bind {f : α → Resolving β} (hm : Asking m) (hf : ∀ a, Asking (f a)) : Asking (m >>= f) := by
  obtain ⟨a, hm⟩ := hm
  obtain ⟨b, hf⟩ := hf a
  exact ⟨b, hm.bind hf⟩

theorem ite {b : Prop} [Decidable b] (hm : Asking m) (hm' : Asking m') : Asking (if b then m else m') := by
  split
  · exact hm
  · exact hm'

theorem report {d : Diagnostic} (hd : d.isFatal = false) : Asking (Resolve.report d) := ⟨(), .report hd⟩

theorem decide (q : Inquiry) (n : Node) (r : Request) : Asking (Resolve.decide q n r) := by
  have hask : Asking (modify fun s => { s with requests := s.requests ++ [r] }) :=
    ⟨(), fun _ => rfl, fun _ => ⟨[], [r], by simp, by rw [List.append_nil]; rfl⟩⟩
  unfold Resolve.decide
  refine bind hask fun _ => ?_
  rcases r.answer q.decisions with ⟨choice, none | d⟩
  · exact pure _
  · exact bind (report rfl) fun _ => pure _

theorem settle (q : Inquiry) (c : Classifier) (rootDir : String) (n : Node) : Asking (Resolve.settle q c rootDir n) := by
  unfold Resolve.settle
  cases n.kind with
  | localFile =>
      refine ite (pure _) (ite (bind (decide q _ _) fun _ => pure _) (ite (pure _) ?_))
      exact bind (report rfl) fun _ => bind (decide q _ _) fun _ => pure _
  | externalBinary =>
      exact ite (pure _) (bind (decide q _ _) fun _ => ite (bind (report rfl) fun _ => pure _) (pure _))
  | networkResource => exact pure _

end Asking

-- What becomes of a node. It does not depend on what was asked before.
def settled (n : Node) : Node := ((settle q c rootDir n).run {}).1

theorem asks_settle (n : Node) : Asks (settle q c rootDir n) (settled q c rootDir n) := by
  obtain ⟨m, hm⟩ := Asking.settle q c rootDir n
  rwa [← hm.result {}] at hm

theorem settledAs_settled (n : Node) : SettledAs q c rootDir n (settled q c rootDir n) := settle_settles q c rootDir n {}

theorem asks_settleAll : ∀ ns : List Node, Asks (settleAll q c rootDir ns) (ns.map (settled q c rootDir))
  | [] => .pure _
  | n :: ns => .bind (asks_settle q c rootDir n) (.bind (asks_settleAll ns) (.pure _))

end Settling

-- The node of the first script, which nothing is asked about.
def asEntry (n : Node) : Node := { n with class_ := .embed, rule := "entry", choice := .embed, exists_ := true }

-- What is recorded when it is about to be decided: the first script is marked as such, and nothing else is.
structure Prepared (q : Inquiry) (root : String) (s : State) : Prop where
  once : (s.graph.nodes.map Node.id).Nodup
  bundle : ∀ n ∈ s.graph.nodes, n.bundle = false
  entry : ∀ n ∈ s.graph.nodes, n.rule = "entry" → n.path = root
  made : ∀ x ∈ s.refs, ∃ u ∈ s.units, ∃ y ∈ (collect { unit := u.1, glob := glob q } u.2.body).refs, x = y.canonical q
  covered : ∀ x ∈ s.refs, ∃ n ∈ s.graph.nodes, n.id = (.localFile, x.key) ∧ n.usage.Covers x.usage

theorem Recorded.prepare {q : Inquiry} {s : State} (h : Recorded q s) (root : String) :
    Prepared q root { s with graph := s.graph.modify .localFile root asEntry } where
  once := nodup_update (fun _ => rfl) h.once
  bundle n hn := by
    rcases mem_update hn with hold | ⟨m, hm | rfl, -, rfl⟩
    · exact (h.undecided n hold).bundle
    · exact (h.undecided m hm).bundle
    · rfl
  entry n hn hrule := by
    rcases mem_update hn with hold | ⟨m, -, hid, rfl⟩
    · exact absurd hrule (h.undecided n hold).rule
    · exact congrArg Prod.snd hid
  made := h.made
  covered x hx := by
    obtain ⟨m, hm, hid, hcovers⟩ := h.covered x hx
    obtain ⟨n, hn, rfl | rfl⟩ := exists_mem_update .localFile root _ hm
    · exact ⟨n, hn, hid, hcovers⟩
    · exact ⟨_, hn, hid, hcovers⟩

end Resolve

-- The node of a graph that was decided about.
structure Node.Decided (q : Inquiry) (c : Classifier) (root : String) (m : Node) : Prop where
  file : m.kind = .localFile → m.path ≠ root → m.choice = .embed → m.expr = "" →
    ∀ e, q.files.find? m.path = some e → e.isDir = false →
      (c.classify (Subject.of m.path (Path.dir root) true e.data.length m.usage)).class_ ≠ .runtime
  bundled : m.kind = .externalBinary → m.bundle = true → Resolve.bundleFile? q (Path.dir root) m.path = some m.bundlePath

-- A graph whose nodes were decided about, with the references that it was made from.
structure Graph.Concludes (q : Inquiry) (c : Classifier) (r : Resolution) (g : Graph) : Prop where
  once : (g.nodes.map Node.id).Nodup
  decided : ∀ m ∈ g.nodes, m.Decided q c r.root
  made : ∀ x ∈ r.refs, ∃ u ∈ r.units,
    ∃ y ∈ (collect { unit := u.1, glob := Resolve.glob q } u.2.body).refs, x = y.canonical q
  covered : ∀ x ∈ r.refs, ∃ m ∈ g.nodes, m.id = (.localFile, x.key) ∧ m.usage.Covers x.usage

section Concluding

open Resolve

variable (q : Inquiry) (root : String) (c : Classifier)

-- What is known when it is about to be decided.
def prepared : State :=
  let path := q.canonical (Path.resolve "/" root)
  let s := ((addBinaries (followed q root).commands).run (followed q root)).2
  { s with graph := (s.graph.modify .localFile path (Graph.refer { sourced := true } {})).modify .localFile path asEntry }

theorem prepared_prepared :
    Prepared { q with config := q.config.settled } (q.canonical (Path.resolve "/" root)) (prepared q root) := by
  have hfollowed : Recorded { q with config := q.config.settled } (followed q root) := keeps_visit _ _ _ _ _ (.start _)
  have hbinaries := keeps_addBinaries (followed q root).commands _ hfollowed
  have hsourced : Usage.Counts { sourced := true } := by simp [Usage.Counts]
  exact (hbinaries.refer .localFile _ hsourced {}).prepare _

-- What becomes of each node of a resolution.
def concluded (n : Node) : Node :=
  let path := q.canonical (Path.resolve "/" root)
  let m := settled { q with config := q.config.settled } c (Path.dir path) n
  { m with edges := m.edges.mergeSort fun a b => a.order b != .gt }

def concludedGraph : Graph :=
  { nodes := (prepared q root).graph.sorted.map (concluded q root c), frozen := true }

-- A resolution is what is known with every node decided about.
theorem resolve_eq (hc : Classifier.ofConfig? q.config.settled = some c) : let r := resolve q root
    r.root = q.canonical (Path.resolve "/" root) ∧ r.refs = (prepared q root).refs ∧ r.units = (prepared q root).units ∧
    r.failure = (prepared q root).failure ∧
    r.graph = some (concludedGraph q root c) ∧
    r.isFatal = Diagnostic.anyFatal (prepared q root).diags := by
  let path := q.canonical (Path.resolve "/" root)
  have hall := asks_settleAll { q with config := q.config.settled } c (Path.dir path) (prepared q root).graph.sorted
  have hresult := hall.result (prepared q root)
  have hresolve : resolve q root =
      (fun s : List Node × State => State.resolution { s.2 with graph := { s.2.graph with nodes := s.1 } } path)
        ((settleAll { q with config := q.config.settled } c (Path.dir path) (prepared q root).graph.sorted).run
          (prepared q root)) := by
    simp only [resolve, hc]
    rfl
  obtain ⟨ds, rs, hds, hrest⟩ := hall.rest (prepared q root)
  have hfatal : Diagnostic.anyFatal (Diagnostic.sort ((prepared q root).diags ++ ds)) =
      Diagnostic.anyFatal (prepared q root).diags := by
    have hnone : ds.any Diagnostic.isFatal = false := List.any_eq_false.mpr fun d hd => by simp [hds d hd]
    rw [Diagnostic.anyFatal_sort, Diagnostic.anyFatal, List.any_append, hnone, Bool.or_false]
    rfl
  dsimp only at hresolve
  rw [hresolve, hresult, hrest]
  refine ⟨rfl, rfl, rfl, rfl, ?_, hfatal⟩
  rw [State.resolution, Graph.freeze, concludedGraph, List.map_map]
  rfl

variable {c} {q root} in
theorem mem_concludedGraph {m : Node} :
    m ∈ (concludedGraph q root c).nodes ↔ ∃ n ∈ (prepared q root).graph.nodes, concluded q root c n = m := by
  rw [concludedGraph, List.mem_map]
  simp only [Graph.sorted, List.mem_mergeSort]

variable {c}

-- The graph of a resolution, whatever else went wrong.
theorem resolve_concludes (hc : Classifier.ofConfig? q.config.settled = some c) :
    ∃ g, (resolve q root).graph = some g ∧ g.Concludes { q with config := q.config.settled } c (resolve q root) := by
  let path := q.canonical (Path.resolve "/" root)
  have hprepared := prepared_prepared q root
  have hsettled := settledAs_settled { q with config := q.config.settled } c (Path.dir path)
  obtain ⟨hroot, hrefs, hunits, -, hgraph, -⟩ := resolve_eq q root c hc
  refine ⟨_, hgraph, ?_, fun m hm => ?_, ?_, fun x hx => ?_⟩
  · have hids : (concludedGraph q root c).nodes.map Node.id = (prepared q root).graph.sorted.map Node.id := by
      rw [concludedGraph, List.map_map]
      exact List.map_congr_left fun n _ => (hsettled n).id
    rw [hids]
    exact ((List.mergeSort_perm _ _).map Node.id).nodup_iff.mpr hprepared.once
  · obtain ⟨n, hn, rfl⟩ := mem_concludedGraph.mp hm
    have hnm := hsettled n
    obtain ⟨hkind, hpath⟩ : (concluded q root c n).kind = n.kind ∧ (concluded q root c n).path = n.path :=
      Prod.ext_iff.mp hnm.id
    have husage : (concluded q root c n).usage = n.usage := hnm.usage
    rw [hroot]
    constructor
    · intro hfile hother hembed hexpr e hfound hdir
      have hrule : n.rule ≠ "entry" := fun hentry => hother (hpath.trans (hprepared.entry n hn hentry))
      rw [hpath, husage]
      exact hnm.file (hkind ▸ hfile) hrule hembed hexpr e (hpath ▸ hfound) hdir
    · intro hbinary hbundle
      rw [hpath]
      exact hnm.bundled (hkind ▸ hbinary) (hprepared.bundle n hn) hbundle
  · rw [hrefs, hunits]
    exact hprepared.made
  · obtain ⟨n, hn, hid, hcovers⟩ := hprepared.covered x (hrefs ▸ hx)
    refine ⟨concluded q root c n, mem_concludedGraph.mpr ⟨n, hn, rfl⟩, (hsettled n).id.trans hid, ?_⟩
    have husage : (concluded q root c n).usage = n.usage := (hsettled n).usage
    rwa [husage]

end Concluding

end Dependency
end ShellScript

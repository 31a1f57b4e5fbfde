import ShellScript.Proofs.Dependency.NodeGraph

-- Decisions in advance. A node asks at most one question, which is about nothing else, and the decisions matter by the
-- answers to these questions alone. Answered by their defaults they are as if nobody had answered.
namespace ShellScript
namespace Dependency

namespace Request

def key (r : Request) : String × String := (r.kind, r.subject)

-- A request that finds its own default among the decisions takes it.
theorem answer_defaults {rs : List Request} (hdistinct : (rs.map key).Nodup) {r : Request} (hr : r ∈ rs)
    (hoption : r.default ∈ r.options) : r.answer (Decision.defaults rs) = (r.default, none) := by
  have hfind : Decision.find? (Decision.defaults rs) r.kind r.subject = some ⟨r.kind, r.subject, r.default⟩ := by
    obtain ⟨d, hd⟩ : ∃ d, Decision.find? (Decision.defaults rs) r.kind r.subject = some d := by
      refine Option.isSome_iff_exists.mp (List.find?_isSome.mpr ⟨⟨r.kind, r.subject, r.default⟩, ?_, by simp⟩)
      exact List.mem_reverse.mpr (List.mem_map_of_mem hr)
    obtain ⟨r', hr', rfl⟩ := List.mem_map.mp (List.mem_reverse.mp (List.mem_of_find?_eq_some hd))
    have hkey : r'.key = r.key := by simpa [key] using List.find?_some hd
    rw [hd, List.inj_on_of_nodup_map hdistinct hr' hr hkey]
  rw [answer, hfind]
  exact if_pos (List.contains_iff_mem.mpr hoption)

end Request

namespace Resolve

-- An action that asks certain questions, whatever the decisions are, and depends on the decisions by the answers to
-- these questions alone.
structure Consults {α : Type} (m : List Decision → Resolving α) (rs : List Request) : Prop where
  asks : ∀ ds s, ((m ds).run s).2.requests = s.requests ++ rs
  depends : ∀ {ds ds'}, (∀ r ∈ rs, r.answer ds = r.answer ds') → m ds = m ds'

namespace Consults

variable {α β : Type} {m m' : List Decision → Resolving α} {rs rs' : List Request}

theorem pure (a : α) : Consults (fun _ => Pure.pure a) [] := ⟨fun _ s => (List.append_nil s.requests).symm, fun _ => rfl⟩

theorem bind {f : List Decision → α → Resolving β} (hm : Consults m rs) (hf : ∀ a, Consults (f · a) rs') :
    Consults (fun ds => m ds >>= f ds) (rs ++ rs') where
  asks ds s := by
    have hrun : (m ds >>= f ds).run s = (f ds ((m ds).run s).1).run ((m ds).run s).2 := rfl
    rw [hrun, (hf _).asks, hm.asks, List.append_assoc]
  depends h := by
    obtain ⟨hrs, hrs'⟩ := List.forall_mem_append.mp h
    exact congrArg₂ (· >>= ·) (hm.depends hrs) (funext fun a => (hf a).depends hrs')

-- What follows asks nothing more.
theorem andThen {f : List Decision → α → Resolving β} (hm : Consults m rs) (hf : ∀ a, Consults (f · a) []) :
    Consults (fun ds => m ds >>= f ds) rs := List.append_nil rs ▸ bind hm hf

theorem report (d : Diagnostic) : Consults (fun _ => Resolve.report d) [] :=
  ⟨fun _ s => (List.append_nil s.requests).symm, fun _ => rfl⟩

theorem afterReport (d : Diagnostic) (hm : Consults m rs) : Consults (fun ds => Resolve.report d >>= fun _ => m ds) rs :=
  bind (report d) fun _ => hm

theorem ite {b : Prop} [Decidable b] (hm : Consults m rs) (hm' : Consults m' rs) :
    Consults (fun ds => if b then m ds else m' ds) rs := by
  split
  · exact hm
  · exact hm'

theorem decide (q : Inquiry) (n : Node) (r : Request) :
    Consults (fun ds => Resolve.decide { q with decisions := ds } n r) [r] where
  asks ds s := by
    unfold Resolve.decide
    dsimp only
    rcases r.answer ds with ⟨choice, none | d⟩ <;> rfl
  depends h := by
    have hanswer := h r (List.mem_singleton_self r)
    unfold Resolve.decide
    dsimp only
    rw [hanswer]

end Consults
end Resolve

-- The thing that a question is about shows in the question.
structure Request.IsAbout (r : Request) (n : Node) : Prop where
  subject : r.subject = n.path
  binary : r.kind = "binary" ↔ n.kind = .externalBinary
  resource : n.kind ≠ .networkResource
  option : r.default ∈ r.options

theorem Request.IsAbout.id_eq {r r' : Request} {n n' : Node} (h : r.IsAbout n) (h' : r'.IsAbout n') (hkey : r.key = r'.key) :
    n.id = n'.id := by
  obtain ⟨hkind, hsubject⟩ := Prod.ext_iff.mp hkey
  have hpath : n.path = n'.path := h.subject.symm.trans (hsubject.trans h'.subject)
  have hbinary : n.kind = .externalBinary ↔ n'.kind = .externalBinary := by
    rw [← h.binary, ← h'.binary]
    exact iff_of_eq (congrArg (· = "binary") hkind)
  have hsame : n.kind = n'.kind := by
    cases hn : n.kind <;> cases hn' : n'.kind <;> simp_all [h.resource, h'.resource]
  exact Prod.ext hsame hpath

-- A path that only a run can compute is known under its own text.
def Node.NamedByExpr (n : Node) : Prop := n.expr = "" ∨ n.expr = n.path

def Graph.NamedByExpr (g : Graph) : Prop := ∀ n ∈ g.nodes, n.NamedByExpr

namespace Resolve

section Settling

variable (q : Inquiry) (c : Classifier) (rootDir : String)

-- A file with its class, before it is decided what that class means.
def classified (n : Node) : Node :=
  let n := match q.files.find? n.path with
    | some e => { n with exists_ := true, size := if e.isDir then 0 else e.data.length }
    | none => n
  let v := c.classify (Subject.of n.path rootDir n.exists_ n.size n.usage)
  { n with class_ := v.class_, rule := v.rule }

theorem path_classified (n : Node) : (classified q c rootDir n).path = n.path := by
  unfold classified
  dsimp only
  split <;> rfl

-- A node asks at most one question, about itself.
theorem consults_settleFile {n : Node} (hn : n.NamedByExpr) (hkind : n.kind = .localFile) :
    ∃ r? : Option Request, (∀ r ∈ r?, r.IsAbout n) ∧
      Consults (fun ds => settleFile { q with decisions := ds } c rootDir n) r?.toList := by
  have habout {r : Request} (hsubject : r.subject = n.path) (hother : r.kind ≠ "binary")
      (hoption : r.default ∈ r.options) : r.IsAbout n := ⟨hsubject, by simp [hother, hkind], by simp [hkind], hoption⟩
  unfold settleFile
  split
  · rename_i hexpr
    have hpath : n.expr = n.path := hn.resolve_left (by simpa using hexpr)
    refine ⟨some _, fun r hr => ?_, .andThen (.decide q n _) fun _ => .pure _⟩
    cases hr
    exact habout hpath (by simp) (by simp)
  · let m := classified q c rootDir n
    have hpath : m.path = n.path := path_classified q c rootDir n
    let r : Request :=
      { kind := "classify", subject := m.path, options := ["embed", "runtime"], default := "runtime"
        reason := "no classification rule matched" }
    change ∃ r? : Option Request, (∀ r ∈ r?, r.IsAbout n) ∧ Consults (fun ds =>
      if m.class_ == .embed || m.class_ == .runtime then Pure.pure { m with choice := m.class_ }
      else do
        report (Diagnostic.ofKind .classificationAmbiguity m.firstEdge.from_ m.firstEdge.line m.firstEdge.column
          ("no rule classifies " ++ m.path ++ "; defaulting to runtime"))
        let choice ← Resolve.decide { q with decisions := ds } m r
        return { m with choice }) r?.toList
    split
    · exact ⟨none, nofun, .pure _⟩
    · refine ⟨some r, fun r' hr => ?_, .afterReport _ (.andThen (.decide q m r) fun _ => .pure _)⟩
      cases hr
      exact habout hpath (by simp [r]) (by simp [r])

theorem consults_settleBinary {n : Node} (hkind : n.kind = .externalBinary) :
    ∃ r? : Option Request, (∀ r ∈ r?, r.IsAbout n) ∧
      Consults (fun ds => settleBinary { q with decisions := ds } rootDir n) r?.toList := by
  have hfile : ∀ ds, bundleFile? { q with decisions := ds } rootDir n.path = bundleFile? q rootDir n.path := fun _ => rfl
  unfold settleBinary
  simp only [hfile]
  split
  · exact ⟨none, nofun, .pure _⟩
  · refine ⟨some _, fun r hr => ?_, .andThen (.decide q _ _) fun choice => ?_⟩
    · cases hr
      refine ⟨rfl, by simp [hkind], by simp [hkind], ?_⟩
      dsimp only
      split <;> simp
    · exact .ite (.andThen (.report _) fun _ => .pure _) (.pure _)

theorem consults_settle {n : Node} (hn : n.NamedByExpr) :
    ∃ r? : Option Request, (∀ r ∈ r?, r.IsAbout n) ∧
      Consults (fun ds => settle { q with decisions := ds } c rootDir n) r?.toList := by
  unfold settle
  cases hkind : n.kind with
  | networkResource => exact ⟨none, nofun, .pure _⟩
  | localFile =>
      dsimp only
      split
      · exact ⟨none, nofun, .pure _⟩
      · exact consults_settleFile q c rootDir hn hkind
  | externalBinary => exact consults_settleBinary q rootDir hkind

theorem consults_settleAll : ∀ {ns : List Node}, (ns.map Node.id).Nodup → (∀ n ∈ ns, n.NamedByExpr) →
    ∃ rs, (rs.map Request.key).Nodup ∧ (∀ r ∈ rs, ∃ n ∈ ns, r.IsAbout n) ∧
      Consults (fun ds => settleAll { q with decisions := ds } c rootDir ns) rs
  | [], _, _ => ⟨[], List.nodup_nil, List.forall_mem_nil _, .pure _⟩
  | n :: ns, hdistinct, hnamed => by
      rw [List.map_cons, List.nodup_cons] at hdistinct
      obtain ⟨hn, hns⟩ := List.forall_mem_cons.mp hnamed
      obtain ⟨r?, habout, hfirst⟩ := consults_settle q c rootDir hn
      obtain ⟨rs, hkeys, hothers, hrest⟩ := consults_settleAll hdistinct.2 hns
      refine ⟨r?.toList ++ rs, ?_, fun r hr => ?_, .bind hfirst fun _ => .andThen hrest fun _ => .pure _⟩
      · rw [List.map_append, List.nodup_append]
        refine ⟨by cases r? <;> simp, hkeys, fun k hk k' hk' heq => ?_⟩
        obtain ⟨r, hr, rfl⟩ := List.mem_map.mp hk
        obtain ⟨r', hr', rfl⟩ := List.mem_map.mp hk'
        obtain ⟨n', hn', habout'⟩ := hothers r' hr'
        have hid : n.id = n'.id := (habout r (Option.mem_toList.mp hr)).id_eq habout' heq
        exact hdistinct.1 (List.mem_map.mpr ⟨n', hn', hid.symm⟩)
      · rcases List.mem_append.mp hr with hr | hr
        · exact ⟨n, List.mem_cons_self, habout r (Option.mem_toList.mp hr)⟩
        · obtain ⟨n', hn', habout'⟩ := hothers r hr
          exact ⟨n', List.mem_cons_of_mem _ hn', habout'⟩

end Settling

-- What is known before anything is asked.
structure Unasked (s : State) : Prop where
  named : s.graph.NamedByExpr
  requests : s.requests = []

namespace Unasked

variable {s s' : State}

theorem start : Unasked {} := ⟨fun _ hn => absurd hn List.not_mem_nil, rfl⟩

theorem congr (hgraph : s'.graph = s.graph) (hrequests : s'.requests = s.requests) (h : Unasked s) : Unasked s' :=
  ⟨hgraph ▸ h.named, hrequests ▸ h.requests⟩

theorem update {kind : Kind} {path : String} {f : Node → Node} (hnew : (f { kind, path }).NamedByExpr)
    (hold : ∀ n, n.id = (kind, path) → n.NamedByExpr → (f n).NamedByExpr) (h : Unasked s) :
    Unasked { s with graph := s.graph.modify kind path f } where
  named n hn := by
    rcases mem_update hn with hn | ⟨m, hm | rfl, hid, rfl⟩
    · exact h.named n hn
    · exact hold m hid (h.named m hm)
    · exact hnew
  requests := h.requests

theorem refer (kind : Kind) (path : String) (u : Usage) (e : Edge) (h : Unasked s) :
    Unasked { s with graph := s.graph.modify kind path (Graph.refer u e) } := h.update (.inl rfl) fun _ _ hn => hn

-- The mark on the first script.
theorem entry (path : String) (h : Unasked s) :
    Unasked { s with graph := s.graph.modify .localFile path asEntry } := h.update (.inl rfl) fun _ _ hn => hn

theorem keeps_refer (kind : Kind) (path : String) (u : Usage) (e : Edge) : Keeps Unasked (Resolve.refer kind path u e) :=
  .modifying fun _ => refer kind path u e

-- What is neither the graph nor a request may change.
theorem keeps_modifying {f : State → State} (hgraph : ∀ s, (f s).graph = s.graph)
    (hrequests : ∀ s, (f s).requests = s.requests) : Keeps Unasked (modify f : Resolving PUnit) :=
  .modifying fun s => congr (hgraph s) (hrequests s)

theorem keeps_report (d : Diagnostic) : Keeps Unasked (report d) := keeps_modifying (fun _ => rfl) fun _ => rfl

theorem keeps_fail (e : Failure) : Keeps Unasked (fail e) := keeps_modifying (fun _ => rfl) fun _ => rfl

theorem keeps_addReference (q : Inquiry) (unit : String) (r : Reference) : Keeps Unasked (addReference q unit r) := by
  unfold addReference
  dsimp only
  refine .bind (keeps_modifying (fun _ => rfl) fun _ => rfl) fun _ => .bind (keeps_refer _ _ _ _) fun _ => ?_
  split
  · exact .pure _
  · rename_i hstatic
    have hkey : (r.canonical q).key = (r.canonical q).expr := if_neg hstatic
    refine .bind (.modifying fun s hs => ?_) fun _ => .ite (.bind (.forM (fun p => keeps_refer _ _ _ _) _) fun _ => .pure _)
      (.pure _)
    -- the text becomes the expression of the node that is known under this very text
    have hexpr : ({ kind := .localFile, path := (r.canonical q).key, expr := (r.canonical q).expr } : Node).NamedByExpr := .inr hkey.symm
    exact hs.update hexpr fun n hid _ => .inr (hkey.symm.trans (Prod.ext_iff.mp hid).2.symm)

theorem keeps_addReferences (q : Inquiry) (unit : String) : ∀ rs : List Reference, Keeps Unasked (addReferences q unit rs)
  | [] => .pure _
  | r :: rs => .bind (keeps_addReference q unit r) fun _ => .bind (keeps_addReferences q unit rs) fun _ => .pure _

theorem keeps_scan (q : Inquiry) (unit : String) (f : Script.File) : Keeps Unasked (scan q unit f) := by
  unfold scan
  refine .bind (keeps_addReferences q unit _) fun _ => .bind (.forM (fun a => keeps_refer _ _ _ _) _) fun _ => ?_
  exact .bind (keeps_modifying (fun _ => rfl) fun _ => rfl) fun _ => .pure _

theorem keeps_enter (q : Inquiry) (path : String) (chain : List String) (from_ : Edge) :
    Keeps Unasked (enter q path chain from_) := by
  have hunreadable : ∀ reason, Keeps Unasked (reportUnreadable path reason chain.isEmpty from_) := fun reason =>
    .ite (.bind (keeps_report _) fun _ => keeps_fail _) (keeps_report _)
  unfold enter
  refine .ite (.bind (keeps_report _) fun _ => .bind (keeps_fail _) fun _ => .pure _) ?_
  cases scriptAt q.files path with
  | error reason => exact .bind (hunreadable _) fun _ => .pure _
  | ok data =>
      refine .bind ?_ fun f => ?_
      · exact .reading fun s => .bind (keeps_modifying (fun _ => rfl) fun _ => rfl) fun _ => .pure _
      · refine .bind (keeps_modifying (fun _ => rfl) fun _ => rfl) fun _ => ?_
        exact .ite (.bind (keeps_fail _) fun _ => .pure _) (keeps_scan _ _ _)

theorem keeps_visit (q : Inquiry) : ∀ (fuel : Nat) (path : String) (chain : List String) (from_ : Edge),
    Keeps Unasked (visit q fuel path chain from_)
  | 0, _, _, _ => .pure _
  | fuel + 1, path, chain, from_ => by
      have hmark : ∀ m, Keeps Unasked (mark path m) := fun m => keeps_modifying (fun _ => rfl) fun _ => rfl
      refine .reading fun s => ?_
      cases s.marks.lookup path with
      | none =>
          refine .bind (hmark _) fun _ => .bind (keeps_enter q path chain from_) fun children => ?_
          exact .bind (.forM (fun c : String × Edge => keeps_visit q fuel c.1 _ c.2) _) fun _ => hmark _
      | some m =>
          cases m with
          | closed => exact .pure _
          | opened =>
              refine .reading fun s => .ite (.pure _) (.bind (keeps_modifying (fun _ => rfl) fun _ => rfl) fun _ => ?_)
              exact .bind (keeps_report _) fun _ => keeps_fail _

theorem keeps_addBinaries : ∀ commands : List (String × String × Position), Keeps Unasked (addBinaries commands)
  | [] => .pure _
  | (name, unit, p) :: rest => by
      have hrest := keeps_addBinaries rest
      have hrule : Keeps Unasked (change .externalBinary name fun n => { n with rule := "external" }) :=
        .modifying fun s hs => hs.update (.inl rfl) fun _ _ hn => hn
      unfold addBinaries
      refine .reading fun s => .ite hrest (.bind (keeps_refer _ _ _ _) fun _ => .ite (.bind hrule fun _ => ?_) hrest)
      cases suggestion? name with
      | none => exact hrest
      | some hint => exact .ite (.bind (keeps_report _) fun _ => hrest) hrest

end Unasked

theorem unasked_prepared (q : Inquiry) (root : String) : Unasked (prepared q root) := by
  have hvisited : Unasked (followed q root) := Unasked.keeps_visit _ _ _ _ _ _ .start
  have hbinaries : Unasked ((addBinaries (followed q root).commands).run (followed q root)).2 :=
    Unasked.keeps_addBinaries _ _ hvisited
  exact (hbinaries.refer .localFile _ { sourced := true } {}).entry _

theorem addReferences_decisions (q : Inquiry) (ds : List Decision) (unit : String) : ∀ rs : List Reference,
    addReferences { q with decisions := ds } unit rs = addReferences q unit rs
  | [] => rfl
  | r :: rs => by
      have hfirst : addReference { q with decisions := ds } unit r = addReference q unit r := rfl
      rw [addReferences, hfirst, addReferences_decisions q ds unit rs, addReferences]

-- Decisions are not looked at while files are followed.
theorem visit_decisions (q : Inquiry) (ds : List Decision) : ∀ (fuel : Nat) (path : String) (chain : List String)
    (from_ : Edge), visit { q with decisions := ds } fuel path chain from_ = visit q fuel path chain from_
  | 0, _, _, _ => rfl
  | fuel + 1, path, chain, from_ => by
      have hglob : glob { q with decisions := ds } = glob q := rfl
      have henter : enter { q with decisions := ds } path chain from_ = enter q path chain from_ := by
        simp only [enter, addUnit, scan, addReferences_decisions, hglob]
        rfl
      simp only [visit, henter, visit_decisions q ds fuel]

end Resolve

open Resolve

theorem prepared_decisions (q : Inquiry) (ds : List Decision) (root : String) :
    prepared { q with decisions := ds } root = prepared q root := by
  have hfollowed : followed { q with decisions := ds } root = followed q root := by
    unfold followed
    dsimp only
    rw [visit_decisions { q with config := q.config.settled } ds]
    rfl
  rw [prepared, hfollowed]
  rfl

-- A resolution with the decisions left open.
theorem resolve_eq_settleAll {q : Inquiry} {c : Classifier} (hc : Classifier.ofConfig? q.config.settled = some c)
    (ds : List Decision) (root : String) : let path := q.canonical (Path.resolve "/" root)
    resolve { q with decisions := ds } root =
      (fun s : List Node × State => State.resolution { s.2 with graph := { s.2.graph with nodes := s.1 } } path)
        ((settleAll { q with config := q.config.settled, decisions := ds } c (Path.dir path)
          (prepared q root).graph.sorted).run (prepared q root)) := by
  intro path
  rw [← prepared_decisions q ds root]
  simp only [resolve, hc]
  rfl

-- A resolution whose questions are answered by their defaults is the one that no question of which is answered.
theorem resolve_defaults (q : Inquiry) (root : String) :
    let r := resolve { q with decisions := [] } root
    resolve { q with decisions := Decision.defaults r.requests } root = r := by
  intro r
  cases hc : Classifier.ofConfig? q.config.settled with
  | none => simp only [r, resolve, hc]
  | some c =>
      have hrun := fun ds => resolve_eq_settleAll hc ds root
      have honce : ((prepared q root).graph.sorted.map Node.id).Nodup :=
        ((List.mergeSort_perm _ _).map Node.id).nodup_iff.mpr (prepared_prepared q root).once
      have hnamed : ∀ n ∈ (prepared q root).graph.sorted, n.NamedByExpr := fun n hn =>
        (unasked_prepared q root).named n (List.mem_mergeSort.mp hn)
      obtain ⟨rs, hdistinct, habout, hconsults⟩ := consults_settleAll { q with config := q.config.settled } c
        (Path.dir (q.canonical (Path.resolve "/" root))) honce hnamed
      -- nothing is asked before, so the questions of the nodes are those of the resolution
      have hrequests : r.requests.Perm rs := by
        have hasked := hconsults.asks [] (prepared q root)
        rw [(unasked_prepared q root).requests, List.nil_append] at hasked
        rw [← hasked]
        exact (congrArg Resolution.requests (hrun [])).symm ▸ List.mergeSort_perm _ _
      have hanswers : ∀ s ∈ rs, s.answer (Decision.defaults r.requests) = s.answer [] := by
        intro s hs
        obtain ⟨n, -, hs'⟩ := habout s hs
        exact Request.answer_defaults ((hrequests.map _).nodup_iff.mpr hdistinct) (hrequests.mem_iff.mpr hs) hs'.option
      have hsame := hconsults.depends hanswers
      dsimp only at hsame hrun
      rw [hrun, hsame]
      exact (hrun []).symm

end Dependency
end ShellScript

import ShellScript.Dependency.Resolve

-- What following the files that a script sources can do, said once: the files that are entered, the marks that are set
-- and the diagnostics that are reported. The graph of dependencies that is built on the way plays no part in it.
namespace ShellScript
namespace Dependency
namespace Resolve

-- The files that a file sources, in the order of the source statements.
def sourcedFiles (q : Inquiry) (unit : String) (f : Script.File) : List String :=
  ((collect { unit, glob := glob q } f.body).refs.filter (·.usage.sourced)).flatMap (·.paths.map q.canonical)

-- Why a path cannot be read.
def unreadable? (q : Inquiry) (path : String) : Option String :=
  match scriptAt q.files path with
  | .ok _ => none
  | .error reason => some reason

-- The part of a resolution's state that the walk depends on.
structure Trail where
  units : List (String × Script.File) := []
  order : List String := []
  diags : List Diagnostic := []
  failed : Bool := false
  marks : List (String × Mark) := []
  cache : ParseCache := {}
  cycles : List (List String) := []

def State.trail (s : State) : Trail :=
  ⟨s.units, s.order, s.diags, s.failure.isSome, s.marks, s.cache, s.cycles⟩

namespace Trail

def mark (t : Trail) (path : String) (m : Mark) : Trail := { t with marks := (path, m) :: t.marks }

def report (t : Trail) (d : Diagnostic) : Trail := { t with diags := t.diags ++ [d] }

def fail (t : Trail) : Trail := { t with failed := true }

def reportCycle (t : Trail) (cycle : List String) (d : Diagnostic) : Trail :=
  { (t.report d).fail with cycles := cycle :: t.cycles }

-- The file at a path is read, from the cache if it is there.
def load (t : Trail) (q : Inquiry) (path data : String) : Script.File := (t.cache.read q.dialect path data).1

def enter (t : Trail) (q : Inquiry) (path data : String) : Trail :=
  let f := t.load q path data
  { t with
    units := t.units ++ [(path, f)]
    order := t.order ++ [path]
    diags := t.diags ++ f.diags
    cache := (t.cache.read q.dialect path data).2.2 }

end Trail

-- Actions that only report, and only diagnostics of one sort.
def Reports (P : Diagnostic → Prop) {α : Type} (m : Resolving α) : Prop :=
  ∀ s, ∃ ds : List Diagnostic, (∀ d ∈ ds, P d) ∧ (m.run s).2.trail = { s.trail with diags := s.diags ++ ds }

namespace Reports

variable {P : Diagnostic → Prop} {α β : Type}

theorem of_trail {m : Resolving α} (h : ∀ s, (m.run s).2.trail = s.trail) : Reports P m := by
  intro s
  exact ⟨[], by simp, by rw [h, List.append_nil]; rfl⟩

theorem pure (a : α) : Reports P (Pure.pure a) := of_trail fun _ => rfl

theorem bind {m : Resolving α} {f : α → Resolving β} (hm : Reports P m) (hf : ∀ a, Reports P (f a)) :
    Reports P (m >>= f) := by
  intro s
  obtain ⟨ds, hds, hfirst⟩ := hm s
  obtain ⟨es, hes, hsecond⟩ := hf (m.run s).1 (m.run s).2
  refine ⟨ds ++ es, ?_, ?_⟩
  · intro d hd
    rcases List.mem_append.mp hd with hd | hd
    · exact hds d hd
    · exact hes d hd
  · have hdiags : (m.run s).2.diags = s.diags ++ ds := congrArg Trail.diags hfirst
    have hrun : (m >>= f).run s = (f (m.run s).1).run (m.run s).2 := rfl
    rw [hrun, hsecond, hfirst, hdiags, List.append_assoc]

theorem forM {f : α → Resolving PUnit} (hf : ∀ a, Reports P (f a)) : ∀ as : List α, Reports P (as.forM f)
  | [] => pure _
  | a :: as => bind (hf a) fun _ => forM hf as

theorem modifying {f : State → State} (h : ∀ s, (f s).trail = s.trail) : Reports P (modify f : Resolving PUnit) :=
  of_trail h

theorem reporting {d : Diagnostic} (h : P d) : Reports P (report d) :=
  fun _ => ⟨[d], by simpa using h, rfl⟩

theorem ite {b : Prop} [Decidable b] {m m' : Resolving α} (hm : Reports P m) (hm' : Reports P m') :
    Reports P (if b then m else m') := by
  split
  · exact hm
  · exact hm'

theorem refer {kind : Kind} {path : String} {u : Usage} {e : Edge} : Reports P (Resolve.refer kind path u e) :=
  modifying fun _ => rfl

theorem change {kind : Kind} {path : String} {f : Node → Node} : Reports P (Resolve.change kind path f) :=
  modifying fun _ => rfl

theorem addReference (q : Inquiry) (unit : String) (r : Reference) : Reports P (Resolve.addReference q unit r) := by
  unfold Resolve.addReference
  refine bind (modifying fun _ => rfl) fun _ => bind refer fun _ => ite (pure _) ?_
  exact bind change fun _ => ite (bind (forM (fun _ => refer) _) fun _ => pure _) (pure _)

theorem addReferences (q : Inquiry) (unit : String) : ∀ rs : List Reference, Reports P (Resolve.addReferences q unit rs)
  | [] => pure _
  | r :: rs => bind (addReference q unit r) fun _ => bind (addReferences q unit rs) fun _ => pure _

theorem scan (q : Inquiry) (unit : String) (f : Script.File) : Reports P (Resolve.scan q unit f) := by
  unfold Resolve.scan
  refine bind (addReferences q unit _) fun _ => bind (forM (fun _ => refer) _) fun _ => ?_
  exact bind (modifying fun _ => rfl) fun _ => pure _

end Reports

theorem trail_scan (q : Inquiry) (unit : String) (f : Script.File) (s : State) :
    ((scan q unit f).run s).2.trail = s.trail := by
  obtain ⟨ds, hds, hscan⟩ := Reports.scan (P := fun _ => False) q unit f s
  obtain rfl : ds = [] := List.eq_nil_iff_forall_not_mem.mpr hds
  rw [hscan, List.append_nil]
  rfl

-- Actions whose result is of one sort, whatever the state.
def Returns {α : Type} (m : Resolving α) (Q : α → Prop) : Prop := ∀ s, Q (m.run s).1

namespace Returns

variable {α β : Type} {Q : α → Prop} {R : β → Prop}

theorem pure {a : α} (h : Q a) : Returns (Pure.pure a) Q := fun _ => h

theorem bind {m : Resolving α} {f : α → Resolving β} (hm : Returns m Q) (hf : ∀ a, Q a → Returns (f a) R) :
    Returns (m >>= f) R :=
  fun s => hf _ (hm s) _

theorem after {m : Resolving α} {f : α → Resolving β} (hf : ∀ a, Returns (f a) R) : Returns (m >>= f) R :=
  fun _ => hf _ _

theorem ite {b : Prop} [Decidable b] {m m' : Resolving α} (hm : b → Returns m Q) (hm' : ¬b → Returns m' Q) :
    Returns (if b then m else m') Q := by
  split
  · exact hm ‹_›
  · exact hm' ‹_›

end Returns

theorem files_addReference (q : Inquiry) (unit : String) (r : Reference) : Returns (addReference q unit r) fun children =>
    children.map Prod.fst = if r.usage.sourced then r.paths.map q.canonical else [] := by
  unfold addReference
  refine Returns.after fun _ => Returns.after fun _ => Returns.ite (fun _ => Returns.pure ?_) fun _ => ?_
  · cases r.usage.sourced <;> simp
  · refine Returns.after fun _ => Returns.ite (fun (h : r.usage.sourced = true) => ?_)
      fun (h : ¬r.usage.sourced = true) => Returns.pure (by simp [h])
    exact Returns.after fun _ => Returns.pure (by simp [h])

theorem files_addReferences (q : Inquiry) (unit : String) : ∀ rs : List Reference, Returns (addReferences q unit rs) fun children =>
    children.map Prod.fst = (rs.filter (·.usage.sourced)).flatMap (·.paths.map q.canonical)
  | [] => Returns.pure rfl
  | r :: rs => by
      refine Returns.bind (files_addReference q unit r) fun first hfirst => ?_
      refine Returns.bind (files_addReferences q unit rs) fun rest hrest => Returns.pure ?_
      rw [List.map_append, hfirst, hrest]
      cases h : r.usage.sourced <;> simp [h]

theorem files_scan (q : Inquiry) (unit : String) (f : Script.File) : Returns (scan q unit f) fun children =>
    children.map Prod.fst = sourcedFiles q unit f := by
  unfold scan
  refine Returns.bind (files_addReferences q unit _) fun children h => ?_
  exact Returns.after fun _ => Returns.after fun _ => Returns.pure h

-- What entering a new file can do, and the files that are to be followed from it.
inductive Enters (q : Inquiry) (path : String) (chain : List String) : Trail → List String → Trail → Prop where
  | tooDeep {t : Trail} {d : Diagnostic} (hdeep : q.config.maxDepth < chain.length) (hkind : d.kind = .depthExceeded) :
      Enters q path chain t [] (t.report d).fail
  | noScript {t : Trail} {d : Diagnostic} {reason : String} (hdepth : chain.length ≤ q.config.maxDepth)
      (hchain : chain = []) (hreason : unreadable? q path = some reason) (hkind : d.kind = .missingReference) :
      Enters q path chain t [] (t.report d).fail
  | missing {t : Trail} {d : Diagnostic} {reason : String} (hdepth : chain.length ≤ q.config.maxDepth)
      (hchain : chain ≠ []) (hreason : unreadable? q path = some reason) (hkind : d.kind = .missingReference)
      (hmessage : d.message = "sourced file " ++ path ++ " " ++ reason) : Enters q path chain t [] (t.report d)
  | broken {t : Trail} {data : String} (hdepth : chain.length ≤ q.config.maxDepth)
      (hdata : scriptAt q.files path = .ok data) (hfatal : (t.load q path data).isFatal = true) :
      Enters q path chain t [] (t.enter q path data).fail
  | unit {t : Trail} {data : String} (hdepth : chain.length ≤ q.config.maxDepth)
      (hdata : scriptAt q.files path = .ok data) (hsound : (t.load q path data).isFatal = false) :
      Enters q path chain t (sourcedFiles q path (t.load q path data)) (t.enter q path data)

-- Following files one after the other, those that each of them sources included.
inductive Walk (q : Inquiry) : List String → List String → Trail → Trail → Prop where
  | nil {chain : List String} {t : Trail} : Walk q chain [] t t
  | closed {chain paths : List String} {path : String} {t t' : Trail} (hmark : t.marks.lookup path = some .closed)
      (hrest : Walk q chain paths t t') : Walk q chain (path :: paths) t t'
  | knownCycle {chain paths : List String} {path : String} {t t' : Trail} (hmark : t.marks.lookup path = some .opened)
      (hknown : chain.dropWhile (· != path) ++ [path] ∈ t.cycles) (hrest : Walk q chain paths t t') :
      Walk q chain (path :: paths) t t'
  | cycle {chain paths cycle : List String} {path : String} {t t' : Trail} {d : Diagnostic}
      (hmark : t.marks.lookup path = some .opened) (hcycle : cycle = chain.dropWhile (· != path) ++ [path])
      (hkind : d.kind = .dependencyCycle) (hmessage : d.message = "source cycle: " ++ chainText cycle)
      (hrest : Walk q chain paths (t.reportCycle cycle d) t') :
      Walk q chain (path :: paths) t t'
  | file {chain paths children : List String} {path : String} {t t₁ t₂ t' : Trail} (hmark : t.marks.lookup path = none)
      (henter : Enters q path chain (t.mark path .opened) children t₁) (hinner : Walk q (chain ++ [path]) children t₁ t₂)
      (hrest : Walk q chain paths (t₂.mark path .closed) t') : Walk q chain (path :: paths) t t'

theorem trail_fail (f : Failure) (s : State) : ((fail f).run s).2.trail = s.trail.fail := by
  have hfailed : (s.failure.orElse fun _ => some f).isSome = true := by cases s.failure <;> rfl
  change Trail.mk s.units s.order s.diags (s.failure.orElse fun _ => some f).isSome s.marks s.cache s.cycles = s.trail.fail
  rw [hfailed]
  rfl

theorem enters_unreadable (q : Inquiry) (path : String) (chain : List String) (from_ : Edge) {reason : String}
    (hdepth : chain.length ≤ q.config.maxDepth) (hreason : unreadable? q path = some reason) (s : State) :
    Enters q path chain s.trail [] ((reportUnreadable path reason chain.isEmpty from_).run s).2.trail := by
  unfold reportUnreadable
  cases chain with
  | nil =>
      have htrail : ∀ d, ((do report d; fail (.root d) : Resolving Unit).run s).2.trail = (s.trail.report d).fail :=
        fun d => trail_fail (.root d) _
      rw [List.isEmpty_nil, if_pos rfl, htrail]
      exact .noScript hdepth rfl hreason rfl
  | cons first rest => exact .missing hdepth (by simp) hreason rfl rfl

theorem enters_addUnit {q : Inquiry} {path : String} {chain : List String} {data : String}
    (hdepth : chain.length ≤ q.config.maxDepth) (hdata : scriptAt q.files path = .ok data) (s : State) : Enters q path chain s.trail
      (((load q path data >>= addUnit q path).run s).1.map Prod.fst)
      ((load q path data >>= addUnit q path).run s).2.trail := by
  let f := s.trail.load q path data
  let s₁ : State := { s with
    units := s.units ++ [(path, f)], order := s.order ++ [path], diags := s.diags ++ f.diags,
    cache := (s.cache.read q.dialect path data).2.2 }
  have htrail : s₁.trail = s.trail.enter q path data := rfl
  have hrun : (load q path data >>= addUnit q path).run s =
      (if f.isFatal then do fail (.unit f.diags); return [] else scan q path f : Resolving _).run s₁ := rfl
  rw [hrun]
  split
  · rename_i hfatal
    have hfailed : ((do fail (.unit f.diags); return [] : Resolving (List (String × Edge))).run s₁).2.trail =
        s₁.trail.fail := trail_fail (.unit f.diags) s₁
    rw [hfailed, htrail]
    exact .broken hdepth hdata hfatal
  · rename_i hsound
    rw [trail_scan, files_scan, htrail]
    exact .unit hdepth hdata (by simpa using hsound)

theorem enters_enter (q : Inquiry) (path : String) (chain : List String) (from_ : Edge) (s : State) :
    Enters q path chain s.trail (((enter q path chain from_).run s).1.map Prod.fst)
      ((enter q path chain from_).run s).2.trail := by
  unfold enter
  split
  · rename_i hdeep
    have htrail : ∀ d, ((do report d; fail (.depth d); return [] : Resolving (List (String × Edge))).run s).2.trail =
        (s.trail.report d).fail := fun d => trail_fail (.depth d) _
    rw [htrail]
    exact .tooDeep (by omega) rfl
  · rename_i hdepth
    have hdepth : (chain.length : Int) ≤ q.config.maxDepth := by omega
    cases hdata : scriptAt q.files path with
    | error reason => exact enters_unreadable q path chain from_ hdepth (by simp [unreadable?, hdata]) s
    | ok data => exact enters_addUnit hdepth hdata s

-- The order lists the files that were read.
def Trail.Ordered (t : Trail) : Prop := t.order = t.units.map Prod.fst

theorem Enters.ordered {q : Inquiry} {path : String} {chain children : List String} {t t' : Trail}
    (h : Enters q path chain t children t') (ht : t.Ordered) : t'.Ordered := by
  have hunit (f : Script.File) : t.order ++ [path] = (t.units ++ [(path, f)]).map Prod.fst := by
    rw [List.map_append, ← ht]
    rfl
  cases h with
  | tooDeep => exact ht
  | noScript => exact ht
  | missing => exact ht
  | broken => exact hunit _
  | unit => exact hunit _

theorem Walk.ordered {q : Inquiry} {chain paths : List String} {t t' : Trail} (h : Walk q chain paths t t') :
    t.Ordered → t'.Ordered := by
  induction h with
  | nil => exact id
  | closed _ _ ih => exact ih
  | knownCycle _ _ _ ih => exact ih
  | cycle _ _ _ _ _ ih => exact ih
  | file _ henter _ _ ihInner ihRest => exact fun ht => ihRest (ihInner (henter.ordered ht))

theorem Enters.depth_of_children {q : Inquiry} {path : String} {chain children : List String} {t t' : Trail}
    (h : Enters q path chain t children t') (hchildren : children ≠ []) : chain.length ≤ q.config.maxDepth := by
  cases h with
  | tooDeep => exact absurd rfl hchildren
  | noScript hdepth => exact hdepth
  | missing hdepth => exact hdepth
  | broken hdepth => exact hdepth
  | unit hdepth => exact hdepth

theorem walk_opened {q : Inquiry} {chain paths : List String} {path : String} {from_ : Edge} {s : State} {t' : Trail}
    (hmark : s.marks.lookup path = some .opened)
    (hrest : Walk q chain paths ((reportCycle (chain.dropWhile (· != path) ++ [path]) from_).run s).2.trail t') :
    Walk q chain (path :: paths) s.trail t' := by
  generalize hcycle : chain.dropWhile (· != path) ++ [path] = cycle at hrest
  let d := Diagnostic.ofKind .dependencyCycle from_.from_ from_.line from_.column ("source cycle: " ++ chainText cycle)
  have hrun : (reportCycle cycle from_).run s = (if s.cycles.contains cycle then pure () else do
      modify fun s => { s with cycles := cycle :: s.cycles }
      report d
      fail (.cycle d) : Resolving Unit).run s := rfl
  rw [hrun] at hrest
  split at hrest
  · rename_i hknown
    refine .knownCycle hmark ?_ hrest
    rw [hcycle]
    exact List.contains_iff_mem.mp hknown
  · have htrail : ((do
        modify fun s => { s with cycles := cycle :: s.cycles }
        report d
        fail (.cycle d) : Resolving Unit).run s).2.trail = s.trail.reportCycle cycle d := trail_fail (.cycle d) _
    rw [htrail] at hrest
    exact Walk.cycle (d := d) hmark hcycle.symm rfl rfl hrest

-- A visit, given the mark of its file.
def visitMarked (q : Inquiry) (fuel : Nat) (path : String) (chain : List String) (from_ : Edge) :
    Option Mark → Resolving Unit
  | some .opened => reportCycle (chain.dropWhile (· != path) ++ [path]) from_
  | some .closed => pure ()
  | none => do
    mark path .opened
    let children ← enter q path chain from_
    children.forM fun c => visit q fuel c.1 (chain ++ [path]) c.2
    mark path .closed

-- The fuel of a visit outlasts the chains that are followed: a chain that is too long is not followed further.
theorem walk_visit (q : Inquiry) : ∀ (fuel : Nat) (chain : List String) (cs : List (String × Edge)) (s : State),
    q.config.maxDepth + 2 ≤ chain.length + fuel → (cs ≠ [] → chain.length ≤ q.config.maxDepth + 1) →
    Walk q chain (cs.map Prod.fst) s.trail ((cs.forM fun c => visit q fuel c.1 chain c.2).run s).2.trail := by
  intro fuel
  induction fuel with
  | zero =>
      intro chain cs s hfuel hchain
      cases cs with
      | nil => exact .nil
      | cons c cs =>
          have hlength := hchain (by simp)
          omega
  | succ fuel ihFuel =>
      intro chain cs
      induction cs with
      | nil => exact fun _ _ _ => .nil
      | cons c cs ih =>
          obtain ⟨path, from_⟩ := c
          intro s hfuel hchain
          have hlength := hchain (by simp)
          have hrest := fun s' => ih s' hfuel fun _ => hlength
          have hvisit : (visit q (fuel + 1) path chain from_).run s =
            (visitMarked q fuel path chain from_ (s.marks.lookup path)).run s := rfl
          have hrun : (((path, from_) :: cs).forM fun c => visit q (fuel + 1) c.1 chain c.2).run s =
            (cs.forM fun c => visit q (fuel + 1) c.1 chain c.2).run ((visit q (fuel + 1) path chain from_).run s).2 := rfl
          have hrest := hrest ((visit q (fuel + 1) path chain from_).run s).2
          rw [hrun]
          generalize ((cs.forM fun c => visit q (fuel + 1) c.1 chain c.2).run
            ((visit q (fuel + 1) path chain from_).run s).2).2.trail = t' at hrest ⊢
          rw [hvisit] at hrest
          cases hmark : s.marks.lookup path with
          | some m =>
              rw [hmark] at hrest
              cases m with
              | opened => exact walk_opened hmark hrest
              | closed => exact .closed hmark hrest
          | none =>
              rw [hmark] at hrest
              let s₀ : State := { s with marks := (path, .opened) :: s.marks }
              have henter := enters_enter q path chain from_ s₀
              have hlonger : ((chain ++ [path]).length : Int) = chain.length + 1 := by simp
              have hinner := ihFuel (chain ++ [path]) ((enter q path chain from_).run s₀).1
                ((enter q path chain from_).run s₀).2 (by omega) fun hne => by
                  have hdepth := henter.depth_of_children (by simpa using hne)
                  omega
              exact .file hmark henter hinner hrest

-- Diagnostics that have nothing to do with how files source one another.
def Aside (d : Diagnostic) : Prop := d.kind ≠ .dependencyCycle ∧ d.kind ≠ .depthExceeded

namespace Reports

theorem reading {P : Diagnostic → Prop} {α : Type} {f : State → Resolving α} (hf : ∀ s, Reports P (f s)) :
    Reports P (get >>= f) :=
  fun s => hf s s

theorem addBinaries : ∀ commands : List (String × String × Position), Reports Aside (Resolve.addBinaries commands)
  | [] => pure _
  | (name, unit, p) :: rest => by
      unfold Resolve.addBinaries
      refine reading fun s => ite (addBinaries rest) (bind refer fun _ => ite (bind change fun _ => ?_) (addBinaries rest))
      cases suggestion? name with
      | none => exact addBinaries rest
      | some hint => exact ite (bind (reporting ⟨nofun, nofun⟩) fun _ => addBinaries rest) (addBinaries rest)

theorem decide (q : Inquiry) (n : Node) (r : Request) : Reports Aside (Resolve.decide q n r) := by
  unfold Resolve.decide
  refine bind (modifying fun _ => rfl) fun _ => ?_
  rcases r.answer q.decisions with ⟨choice, none | d⟩
  · exact pure _
  · exact bind (reporting ⟨nofun, nofun⟩) fun _ => pure _

theorem settleFile (q : Inquiry) (c : Classifier) (rootDir : String) (n : Node) :
    Reports Aside (Resolve.settleFile q c rootDir n) := by
  unfold Resolve.settleFile
  refine ite (bind (decide q _ _) fun _ => pure _) (ite (pure _) ?_)
  exact bind (reporting ⟨nofun, nofun⟩) fun _ => bind (decide q _ _) fun _ => pure _

theorem settleBinary (q : Inquiry) (rootDir : String) (n : Node) : Reports Aside (Resolve.settleBinary q rootDir n) := by
  unfold Resolve.settleBinary
  refine ite (pure _) (bind (decide q _ _) fun choice => ite ?_ (pure _))
  exact bind (reporting ⟨nofun, nofun⟩) fun _ => pure _

theorem settle (q : Inquiry) (c : Classifier) (rootDir : String) (n : Node) :
    Reports Aside (Resolve.settle q c rootDir n) := by
  unfold Resolve.settle
  cases n.kind with
  | localFile => exact ite (pure _) (settleFile q c rootDir n)
  | externalBinary => exact settleBinary q rootDir n
  | networkResource => exact pure _

theorem settleAll (q : Inquiry) (c : Classifier) (rootDir : String) :
    ∀ ns : List Node, Reports Aside (Resolve.settleAll q c rootDir ns)
  | [] => pure _
  | n :: ns => bind (settle q c rootDir n) fun _ => bind (settleAll q c rootDir ns) fun _ => pure _

theorem classify (q : Inquiry) (c : Classifier) (root : String) : Reports Aside (Resolve.classify q c root) := by
  unfold Resolve.classify
  refine bind refer fun _ => bind change fun _ => reading fun s => ?_
  exact bind (settleAll q c _ _) fun _ => modifying fun _ => rfl

theorem conclude (q : Inquiry) (c : Classifier) (root : String) : Reports Aside (Resolve.conclude q c root) :=
  reading fun _ => bind (addBinaries _) fun _ => classify q c root

end Reports

end Resolve

theorem Config.maxDepth_settled_pos (c : Config) : 0 < c.settled.maxDepth := by
  simp only [Config.settled]
  split <;> omega

-- What is known when all files were followed.
def followed (q : Inquiry) (root : String) : Resolve.State :=
  ((Resolve.visit { q with config := q.config.settled } (q.config.settled.maxDepth.toNat + 2)
    (q.canonical (Path.resolve "/" root)) [] {}).run {}).2

-- What a resolution reports after it followed its script is beside the walk.
theorem resolve_followed (q : Inquiry) (root : String) (h : (Classifier.ofConfig? q.config.settled).isSome = true) :
    (resolve q root).root = q.canonical (Path.resolve "/" root) ∧
    (resolve q root).units = (followed q root).units ∧
    (resolve q root).order = (followed q root).order ∧
    (resolve q root).failure.isSome = (followed q root).failure.isSome ∧
    ∃ ds : List Diagnostic, (∀ d, d ∈ (resolve q root).diags ↔ d ∈ (followed q root).diags ∨ d ∈ ds) ∧
      ∀ d ∈ ds, Resolve.Aside d := by
  obtain ⟨c, hc⟩ := Option.isSome_iff_exists.mp h
  let q' := { q with config := q.config.settled }
  let path := q.canonical (Path.resolve "/" root)
  have hresolve : resolve q root = ((Resolve.conclude q' c path).run (followed q root)).2.resolution path := by
    simp only [resolve, hc]
    rfl
  obtain ⟨ds, hds, hconclude⟩ := Resolve.Reports.conclude q' c path (followed q root)
  generalize ((Resolve.conclude q' c path).run (followed q root)).2 = s at hresolve hconclude
  have hdiags : s.diags = (followed q root).diags ++ ds := congrArg Resolve.Trail.diags hconclude
  rw [hresolve]
  refine ⟨rfl, congrArg Resolve.Trail.units hconclude, congrArg Resolve.Trail.order hconclude, congrArg Resolve.Trail.failed hconclude, ds, fun d => ?_, hds⟩
  rw [Resolve.State.resolution, Diagnostic.sort, List.mem_mergeSort, hdiags, List.mem_append]

theorem walk_followed (q : Inquiry) (root : String) :
    Resolve.Walk { q with config := q.config.settled } [] [q.canonical (Path.resolve "/" root)] {}
      (followed q root).trail := by
  let path := q.canonical (Path.resolve "/" root)
  have hdepth : 0 < q.config.settled.maxDepth := q.config.maxDepth_settled_pos
  refine Resolve.walk_visit { q with config := q.config.settled } (q.config.settled.maxDepth.toNat + 2) [] [(path, {})] {}
    ?_ fun _ => ?_
  · dsimp only [List.length_nil]
    omega
  · dsimp only [List.length_nil]
    omega

end Dependency
end ShellScript

import ShellScript.Proofs.Dependency.CachedParse
import ShellScript.Proofs.Dependency.UnitGraph

-- When a script is refused because files source one another too deeply. A file is followed once, on the way by which it
-- is reached first, so the length of that way is what counts; a longer way to the same file goes unnoticed.
namespace ShellScript
namespace Dependency
namespace Resolve

-- The files that the file at a path sources.
def sourcedBy (q : Inquiry) (path : String) : List String :=
  match scriptAt q.files path with
  | .error _ => []
  | .ok data => sourcedFiles q path (Script.read q.dialect path data)

def Nests (next : String → List String) (a b : String) : Prop := b ∈ next a

abbrev Leads (next : String → List String) : String → String → Prop := Relation.ReflTransGen (Nests next)

-- The way to a file that is taken first when these paths are followed one after the other, and the number of source
-- statements on it: a path that does not lead to the file is of no account, and of the others the first decides.
inductive FirstWay (next : String → List String) : List String → String → Nat → Prop where
  | here {path : String} {paths : List String} : FirstWay next (path :: paths) path 0
  | under {path file : String} {paths : List String} {n : Nat} (h : FirstWay next (next path) file n) :
      FirstWay next (path :: paths) file (n + 1)
  | later {path file : String} {paths : List String} {n : Nat} (hpath : ¬Leads next path file)
      (h : FirstWay next paths file n) : FirstWay next (path :: paths) file n

-- What is taken for granted of the files that a script leads to: none sources itself through others, all that can be
-- read are free of errors, and the cache takes no two of them for one another.
structure Regular (q : Inquiry) (root : String) : Prop where
  acyclic : ∀ path, Leads (sourcedBy q) root path → ¬Relation.TransGen (Nests (sourcedBy q)) path path
  sound : ∀ path data, Leads (sourcedBy q) root path → scriptAt q.files path = .ok data →
    (Script.read q.dialect path data).isFatal = false
  distinct : ∀ path data path' data', scriptAt q.files path = .ok data → scriptAt q.files path' = .ok data' →
    CacheKey.of path data = CacheKey.of path' data' → Script.read q.dialect path data = Script.read q.dialect path' data'

theorem sourcedBy_of_unreadable {q : Inquiry} {path reason : String} (h : unreadable? q path = some reason) :
    sourcedBy q path = [] := by
  unfold unreadable? at h
  unfold sourcedBy
  cases hdata : scriptAt q.files path with
  | error reason => rfl
  | ok data => rw [hdata] at h; cases h

theorem sourcedBy_of_readable {q : Inquiry} {path data : String} (hdata : scriptAt q.files path = .ok data) :
    sourcedBy q path = sourcedFiles q path (Script.read q.dialect path data) := by
  simp [sourcedBy, hdata]

namespace FirstWay

variable {next : String → List String} {file : String} {paths : List String} {m n : Nat}

theorem leads (h : FirstWay next paths file n) : ∃ path ∈ paths, Leads next path file := by
  induction h with
  | @here path _ => exact ⟨path, by simp, .refl⟩
  | under _ ih =>
      obtain ⟨child, hchild, hleads⟩ := ih
      exact ⟨_, by simp, .head hchild hleads⟩
  | later _ _ ih =>
      obtain ⟨path, hpath, hleads⟩ := ih
      exact ⟨path, List.mem_cons_of_mem _ hpath, hleads⟩

theorem step_leads {path : String} (h : FirstWay next (next path) file n) :
    Relation.TransGen (Nests next) path file := by
  obtain ⟨child, hchild, hleads⟩ := h.leads
  exact .head' hchild hleads

-- A way as the files on it.
theorem exists_chain (h : FirstWay next paths file n) : ∃ path ∈ paths, ∃ rest : List String, rest.length = n ∧
    (path :: rest).IsChain (Nests next) ∧ (path :: rest).getLast? = some file := by
  induction h with
  | @here path _ => exact ⟨path, by simp, [], rfl, by simp, by simp⟩
  | @under path _ _ _ _ ih =>
      obtain ⟨child, hchild, rest, hlength, hchain, hlast⟩ := ih
      refine ⟨path, by simp, child :: rest, by simp [hlength], ?_, ?_⟩
      · exact List.isChain_cons_cons.mpr ⟨hchild, hchain⟩
      · rw [List.getLast?_cons_cons]
        exact hlast
  | later _ _ ih =>
      obtain ⟨path, hpath, hway⟩ := ih
      exact ⟨path, List.mem_cons_of_mem _ hpath, hway⟩

-- Where no file leads back to itself, the first way to a file has one length.
theorem unique (h : FirstWay next paths file n) (hacyclic : ¬Relation.TransGen (Nests next) file file)
    (h' : FirstWay next paths file m) : n = m := by
  induction h generalizing m with
  | here =>
      cases h' with
      | here => rfl
      | under h' => exact absurd h'.step_leads hacyclic
      | later hpath => exact absurd .refl hpath
  | under h ih =>
      cases h' with
      | here => exact absurd h.step_leads hacyclic
      | under h' => rw [ih hacyclic h']
      | later hpath => exact absurd h.step_leads.to_reflTransGen hpath
  | later hpath _ ih =>
      cases h' with
      | here => exact absurd .refl hpath
      | under h' => exact absurd h'.step_leads.to_reflTransGen hpath
      | later _ h' => exact ih hacyclic h'

end FirstWay

-- The limit was reported.
def Trail.Exceeded (t : Trail) : Prop := ∃ d ∈ t.diags, d.kind = .depthExceeded

theorem Trail.Exceeded.mono {t t' : Trail} (h : t.Grows t') : t.Exceeded → t'.Exceeded
  | ⟨d, hd, hkind⟩ => ⟨d, h.diags hd, hkind⟩

-- As long as the limit was not reported, all that a closed file leads to is closed.
def Trail.Whole (q : Inquiry) (t : Trail) : Prop := ¬t.Exceeded → ∀ p ∈ t.closed, ∀ c ∈ sourcedBy q p, c ∈ t.closed

theorem Trail.Whole.leads {q : Inquiry} {t : Trail} (h : t.Whole q) (hwithin : ¬t.Exceeded) {a b : String}
    (ha : a ∈ t.closed) (hleads : Leads (sourcedBy q) a b) : b ∈ t.closed := by
  induction hleads with
  | refl => exact ha
  | tail _ hnests ih => exact h hwithin _ ih _ hnests

section Depth

variable {q : Inquiry} {root path : String} {chain children paths : List String} {t t' : Trail}

theorem Regular.load (hr : Regular q root) (hf : Faithful q t) {data : String}
    (hdata : scriptAt q.files path = .ok data) : t.load q path data = Script.read q.dialect path data := by
  obtain ⟨name, data', hdata', hkey, hload⟩ := hf.load hdata
  rw [hload]
  exact hr.distinct name data' path data hdata' hdata hkey

theorem exceeded_append {ds : List Diagnostic} (h : ∀ d ∈ ds, d.kind ≠ .depthExceeded) :
    (∃ d ∈ t.diags ++ ds, d.kind = .depthExceeded) ↔ t.Exceeded := by
  constructor
  · rintro ⟨d, hd, hkind⟩
    rcases List.mem_append.mp hd with hd | hd
    · exact ⟨d, hd, hkind⟩
    · exact absurd hkind (h d hd)
  · rintro ⟨d, hd, hkind⟩
    exact ⟨d, List.mem_append_left _ hd, hkind⟩

-- A file is entered too deep, which is reported, or all that it sources is to be followed.
theorem Regular.enters (hr : Regular q root) (hf : Faithful q t) (hpath : Leads (sourcedBy q) root path)
    (h : Enters q path chain t children t') :
    (q.config.maxDepth < chain.length ∧ children = [] ∧ t'.Exceeded) ∨
    (chain.length ≤ q.config.maxDepth ∧ children = sourcedBy q path ∧ (t'.Exceeded ↔ t.Exceeded)) := by
  cases h with
  | tooDeep hdeep hkind => exact .inl ⟨hdeep, rfl, _, List.mem_append_right _ (by simp), hkind⟩
  | noScript hdepth _ hreason hkind | missing hdepth _ hreason hkind =>
      refine .inr ⟨hdepth, (sourcedBy_of_unreadable hreason).symm, exceeded_append ?_⟩
      simp [hkind]
  | broken hdepth hdata hfatal =>
      rw [hr.load hf hdata, hr.sound path _ hpath hdata] at hfatal
      cases hfatal
  | unit hdepth hdata hsound =>
      refine .inr ⟨hdepth, ?_, exceeded_append fun d hd hkind => ?_⟩
      · rw [hr.load hf hdata, sourcedBy_of_readable hdata]
      · have htext := isOfText_of_mem_diags hd
        rw [hkind] at htext
        cases htext

-- What a walk over these paths finds: unless the limit is reported, all of them are closed, and each file that the walk
-- closes lies on a first way within the limit; and the limit is reported for a first way beyond it.
structure Probes (q : Inquiry) (chain paths : List String) (t t' : Trail) : Prop where
  whole : t'.Whole q
  closed : ¬t'.Exceeded → ∀ p ∈ paths, p ∈ t'.closed
  within : ¬t'.Exceeded → ∀ file ∈ t'.closed, file ∉ t.closed →
    ∃ n, FirstWay (sourcedBy q) paths file n ∧ chain.length + n ≤ q.config.maxDepth
  beyond : ¬t.Exceeded → t'.Exceeded →
    ∃ file n, file ∉ t.closed ∧ FirstWay (sourcedBy q) paths file n ∧ q.config.maxDepth < chain.length + n

theorem Probes.nil (hw : t.Whole q) : Probes q chain [] t t where
  whole := hw
  closed _ := by simp
  within _ _ hmem hnew := absurd hmem hnew
  beyond hwithin hexceeded := absurd hexceeded hwithin

theorem Probes.of_exceeded (hexceeded : t'.Exceeded)
    (h : ∃ file n, file ∉ t.closed ∧ FirstWay (sourcedBy q) paths file n ∧ q.config.maxDepth < chain.length + n) :
    Probes q chain paths t t' where
  whole hwithin := absurd hexceeded hwithin
  closed hwithin := absurd hexceeded hwithin
  within hwithin := absurd hexceeded hwithin
  beyond _ _ := h

theorem Probes.congr {t₁ : Trail} (h : Probes q chain paths t₁ t') (hclosed : t₁.closed = t.closed)
    (hexceeded : t₁.Exceeded ↔ t.Exceeded) : Probes q chain paths t t' where
  whole := h.whole
  closed := h.closed
  within hwithin := hclosed ▸ h.within hwithin
  beyond hwithin := hclosed ▸ h.beyond (mt hexceeded.mp hwithin)

-- A closed path leads to nothing new.
theorem Probes.closed_cons (hw : t.Whole q) (hgrows : t.Grows t') (hpath : path ∈ t.closed)
    (h : Probes q chain paths t t') : Probes q chain (path :: paths) t t' where
  whole := h.whole
  closed hwithin := List.forall_mem_cons.mpr ⟨hgrows.closed.subset hpath, h.closed hwithin⟩
  within hwithin file hfile hnew := by
    obtain ⟨n, hway, hn⟩ := h.within hwithin file hfile hnew
    exact ⟨n, .later (fun hleads => hnew (hw.leads (mt (.mono hgrows) hwithin) hpath hleads)) hway, hn⟩
  beyond hbefore hafter := by
    obtain ⟨file, n, hnew, hway, hn⟩ := h.beyond hbefore hafter
    exact ⟨file, n, hnew, .later (fun hleads => hnew (hw.leads hbefore hpath hleads)) hway, hn⟩

-- A new path whose sourced files were followed, and then the paths after it.
theorem Probes.file_cons {t₂ : Trail} (hnew : path ∉ t.closed) (hdepth : chain.length ≤ q.config.maxDepth)
    (hgrows : t.Grows t₂) (hgrows' : (t₂.mark path .closed).Grows t')
    (hinner : Probes q (chain ++ [path]) (sourcedBy q path) t t₂)
    (hrest : (t₂.mark path .closed).Whole q → Probes q chain paths (t₂.mark path .closed) t') :
    Probes q chain (path :: paths) t t' := by
  have hlonger : ((chain ++ [path]).length : Int) = chain.length + 1 := by simp
  have hw : (t₂.mark path .closed).Whole q := by
    intro hwithin p hp c hc
    rw [Trail.closed_mark_closed] at hp ⊢
    rcases List.mem_cons.mp hp with rfl | hp
    · exact List.mem_cons_of_mem _ (hinner.closed hwithin c hc)
    · exact List.mem_cons_of_mem _ (hinner.whole hwithin p hp c hc)
  have hpath : path ∈ (t₂.mark path .closed).closed := by simp
  have hrest := Probes.closed_cons hw hgrows' hpath (hrest hw)
  refine ⟨hrest.whole, hrest.closed, fun hwithin file hfile hfresh => ?_, fun hbefore hafter => ?_⟩
  · have hwithin₂ : ¬t₂.Exceeded := mt (.mono ((Trail.grows_mark t₂ path .closed).trans hgrows')) hwithin
    by_cases hthen : file ∈ (t₂.mark path .closed).closed
    · rw [Trail.closed_mark_closed] at hthen
      rcases List.mem_cons.mp hthen with rfl | hthen
      · exact ⟨0, .here, by omega⟩
      · obtain ⟨n, hway, hn⟩ := hinner.within hwithin₂ file hthen hfresh
        exact ⟨n + 1, .under hway, by omega⟩
    · exact hrest.within hwithin file hfile hthen
  · by_cases hexceeded : t₂.Exceeded
    · obtain ⟨file, n, hfresh, hway, hn⟩ := hinner.beyond hbefore hexceeded
      exact ⟨file, n + 1, hfresh, .under hway, by omega⟩
    · obtain ⟨file, n, hfresh, hway, hn⟩ := hrest.beyond hexceeded hafter
      refine ⟨file, n, fun hmem => hfresh ?_, hway, hn⟩
      rw [Trail.closed_mark_closed]
      exact List.mem_cons_of_mem _ (hgrows.closed.subset hmem)

-- A walk that began with a script: the paths that it follows come after the open files.
structure Underway (q : Inquiry) (root : String) (chain paths : List String) (t : Trail) : Prop where
  marked : Marked chain t
  faithful : Faithful q t
  leads : ∀ p ∈ paths, Leads (sourcedBy q) root p
  links : ∀ a ∈ chain, ∀ p ∈ paths, Relation.TransGen (Nests (sourcedBy q)) a p

namespace Underway

theorem tail (h : Underway q root chain (path :: paths) t) : Underway q root chain paths t where
  marked := h.marked
  faithful := h.faithful
  leads p hp := h.leads p (List.mem_cons_of_mem _ hp)
  links a ha p hp := h.links a ha p (List.mem_cons_of_mem _ hp)

theorem head (h : Underway q root chain (path :: paths) t) : Leads (sourcedBy q) root path := h.leads path (by simp)

-- Where nothing leads back to itself, no open file is met again.
theorem not_opened (hr : Regular q root) (h : Underway q root chain (path :: paths) t) :
    t.marks.lookup path ≠ some .opened := by
  intro hmark
  have hchain := (h.marked.opened path).mp hmark
  exact hr.acyclic path h.head (h.links path hchain path (by simp))

theorem opened (h : Underway q root chain (path :: paths) t) : Faithful q (t.mark path .opened) :=
  ⟨h.faithful.cache, h.faithful.units⟩

variable {t₁ t₂ : Trail}

theorem inner (hr : Regular q root) (h : Underway q root chain (path :: paths) t) (hmark : t.marks.lookup path = none)
    (henter : Enters q path chain (t.mark path .opened) children t₁) : Underway q root (chain ++ [path]) children t₁ := by
  have hchildren : ∀ c ∈ children, Nests (sourcedBy q) path c := by
    rcases hr.enters h.opened h.head henter with ⟨-, rfl, -⟩ | ⟨-, rfl, -⟩
    · simp
    · exact fun c hc => hc
  refine ⟨h.marked.enter hmark henter, henter.faithful h.opened, fun c hc => .tail h.head (hchildren c hc), ?_⟩
  intro a ha c hc
  rcases List.mem_append.mp ha with ha | ha
  · exact .tail (h.links a ha path (by simp)) (hchildren c hc)
  · rw [List.mem_singleton.mp ha]
    exact .single (hchildren c hc)

theorem rest (h : Underway q root chain (path :: paths) t) (hmark : t.marks.lookup path = none)
    (henter : Enters q path chain (t.mark path .opened) children t₁) (hinner : Walk q (chain ++ [path]) children t₁ t₂) :
    Underway q root chain paths (t₂.mark path .closed) := by
  have hf := hinner.faithful (henter.faithful h.opened)
  have hm := hinner.marked (h.marked.enter hmark henter)
  exact ⟨hm.leave (h.marked.notMem_chain hmark), ⟨hf.cache, hf.units⟩, h.tail.leads, h.tail.links⟩

end Underway

theorem Walk.probes (hr : Regular q root) (h : Walk q chain paths t t') : Underway q root chain paths t → t.Whole q →
    Probes q chain paths t t' := by
  induction h with
  | nil => exact fun _ hw => .nil hw
  | closed hmark hrest ih =>
      exact fun hu hw => .closed_cons hw hrest.grows ((hu.marked.closed _).mp hmark) (ih hu.tail hw)
  | knownCycle hmark => exact fun hu => absurd hmark (hu.not_opened hr)
  | cycle hmark => exact fun hu => absurd hmark (hu.not_opened hr)
  | @file chain paths children path t t₁ t₂ t' hmark henter hinner hrest ihInner ihRest =>
      intro hu hw
      have hclosed₁ : t₁.closed = t.closed := henter.closed.trans (Trail.closed_mark_opened t path)
      have hnew : path ∉ t.closed := fun hmem => by
        rw [(hu.marked.closed path).mpr hmem] at hmark
        cases hmark
      have hgrows : t.Grows t₂ := (Trail.grows_mark t path .opened).trans (henter.grows.trans hinner.grows)
      have hu₁ := hu.inner hr hmark henter
      have hu₂ := hu.rest hmark henter hinner
      rcases hr.enters hu.opened hu.head henter with ⟨hdeep, -, hexceeded⟩ | ⟨hdepth, rfl, hexceeded⟩
      · have hexceeded' : t'.Exceeded :=
          hexceeded.mono (hinner.grows.trans ((Trail.grows_mark t₂ path .closed).trans hrest.grows))
        exact .of_exceeded hexceeded' ⟨path, 0, hnew, .here, by omega⟩
      · have hw₁ : t₁.Whole q := fun hwithin => hclosed₁ ▸ hw (mt hexceeded.mpr hwithin)
        exact .file_cons hnew hdepth hgrows hrest.grows ((ihInner hu₁ hw₁).congr hclosed₁ hexceeded) (ihRest hu₂)

-- A script fails for want of depth, or because it cannot be read itself.
structure Blamed (q : Inquiry) (root : String) (t : Trail) : Prop where
  reason : t.failed = true → t.Exceeded ∨ unreadable? q root ≠ none
  failed : t.Exceeded → t.failed = true

theorem Regular.blamed_enters (hr : Regular q root) (hf : Faithful q t) (hpath : Leads (sourcedBy q) root path)
    (hroot : chain = [] → path = root) (hb : Blamed q root t) (h : Enters q path chain t children t') :
    Blamed q root t' := by
  have henters := hr.enters hf hpath h
  cases h with
  | tooDeep hdeep hkind => exact ⟨fun _ => .inl ⟨_, List.mem_append_right _ (by simp), hkind⟩, fun _ => rfl⟩
  | noScript _ hchain hreason => exact ⟨fun _ => .inr (by simp [← hroot hchain, hreason]), fun _ => rfl⟩
  | missing hdepth | unit hdepth =>
      rcases henters with ⟨hdeep, -⟩ | ⟨-, -, hexceeded⟩
      · omega
      · exact ⟨fun hfailed => (hb.reason hfailed).imp_left hexceeded.mpr, fun h => hb.failed (hexceeded.mp h)⟩
  | broken hdepth hdata hfatal =>
      rw [hr.load hf hdata, hr.sound path _ hpath hdata] at hfatal
      cases hfatal

theorem Walk.blamed (hr : Regular q root) (h : Walk q chain paths t t') : Underway q root chain paths t →
    (chain = [] → ∀ p ∈ paths, p = root) → Blamed q root t → Blamed q root t' := by
  induction h with
  | nil => exact fun _ _ hb => hb
  | closed _ _ ih => exact fun hu hroot => ih hu.tail fun hchain p hp => hroot hchain p (List.mem_cons_of_mem _ hp)
  | knownCycle hmark => exact fun hu => absurd hmark (hu.not_opened hr)
  | cycle hmark => exact fun hu => absurd hmark (hu.not_opened hr)
  | @file chain paths children path t t₁ t₂ t' hmark henter hinner _ ihInner ihRest =>
      intro hu hroot hb
      have hb₁ := hr.blamed_enters hu.opened hu.head (fun hchain => hroot hchain path (by simp))
        ⟨hb.reason, hb.failed⟩ henter
      have hb₂ := ihInner (hu.inner hr hmark henter) (by simp) hb₁
      exact ihRest (hu.rest hmark henter hinner) (fun hchain p hp => hroot hchain p (List.mem_cons_of_mem _ hp))
        ⟨hb₂.reason, hb₂.failed⟩

-- A script that cannot be read fails.
theorem Walk.failed_of_unreadable {reason : String} (h : Walk q [] [root] {} t)
    (hreason : unreadable? q root = some reason) : t.failed = true := by
  cases hfailed : t.failed with
  | true => rfl
  | false =>
      obtain ⟨u, hu, hroot⟩ := List.mem_map.mp (List.mem_of_head? (h.head_units hfailed))
      have hloaded := (h.faithful (.start q)).units u hu
      rw [hroot] at hloaded
      rw [unreadable?_of_loaded hloaded] at hreason
      cases hreason

theorem Underway.start (q : Inquiry) (root : String) : Underway q root [] [root] {} where
  marked := .start
  faithful := .start q
  leads p hp := by
    rw [List.mem_singleton.mp hp]
  links := by simp

-- The limit is reported for the files whose first way is beyond it, and for no others.
theorem Regular.exceeded_iff (hr : Regular q root) (h : Walk q [] [root] {} t) :
    t.Exceeded ↔ ∃ file n, FirstWay (sourcedBy q) [root] file n ∧ q.config.maxDepth < n := by
  have hstart : ¬Trail.Exceeded {} := by simp [Trail.Exceeded]
  have hprobes := h.probes hr (.start q root) (by simp [Trail.Whole, Trail.closed])
  constructor
  · intro hexceeded
    obtain ⟨file, n, -, hway, hn⟩ := hprobes.beyond hstart hexceeded
    exact ⟨file, n, hway, by simpa using hn⟩
  · rintro ⟨file, n, hway, hn⟩
    by_contra hwithin
    obtain ⟨first, hfirst, hleads⟩ := hway.leads
    obtain rfl : first = root := List.mem_singleton.mp hfirst
    -- the file was followed, so the way by which that happened is the one at hand
    have hclosed := hprobes.whole.leads hwithin (hprobes.closed hwithin first hfirst) hleads
    obtain ⟨m, hway', hm⟩ := hprobes.within hwithin file hclosed (by simp [Trail.closed])
    have hsame := hway.unique (hr.acyclic file hleads) hway'
    rw [List.length_nil] at hm
    omega

theorem Regular.failed_iff (hr : Regular q root) (h : Walk q [] [root] {} t) :
    t.failed = true ↔ t.Exceeded ∨ unreadable? q root ≠ none := by
  have hblamed := h.blamed hr (.start q root) (by simp) ⟨by simp, by simp [Trail.Exceeded]⟩
  refine ⟨hblamed.reason, ?_⟩
  rintro (hexceeded | hunreadable)
  · exact hblamed.failed hexceeded
  · obtain ⟨reason, hreason⟩ := Option.ne_none_iff_exists'.mp hunreadable
    exact h.failed_of_unreadable hreason

end Depth

end Resolve

open Resolve in
-- A resolution reports that files source one another too deeply just when the first way to some file, in the order of
-- the source statements, has more of them than are allowed. Besides that only a script that cannot be read fails.
theorem depth_limit (q : Inquiry) (root : String) (hrules : (Classifier.ofConfig? q.config.settled).isSome = true)
    (hr : Regular q (q.canonical (Path.resolve "/" root))) :
    let r := resolve q root
    let limit := q.config.settled.maxDepth
    ((∃ d ∈ r.diags, d.kind = .depthExceeded) ↔ ∃ file n, FirstWay (sourcedBy q) [r.root] file n ∧ limit < n) ∧
    (r.failure = none ↔
      unreadable? q r.root = none ∧ ∀ file n, FirstWay (sourcedBy q) [r.root] file n → (n : Int) ≤ limit) ∧
    ∀ file n, FirstWay (sourcedBy q) [r.root] file n → ∃ rest : List String, rest.length = n ∧
      (r.root :: rest).IsChain (Nests (sourcedBy q)) ∧ (r.root :: rest).getLast? = some file := by
  intro r limit
  obtain ⟨hroot, -, -, hfailure, ds, hdiags, hds⟩ := resolve_followed q root hrules
  have hr' : Regular { q with config := q.config.settled } (q.canonical (Path.resolve "/" root)) :=
    ⟨hr.acyclic, hr.sound, hr.distinct⟩
  have hexceeded := hr'.exceeded_iff (walk_followed q root)
  have hfailed := hr'.failed_iff (walk_followed q root)
  refine ⟨?_, ?_, fun file n hway => ?_⟩
  · refine Iff.trans ⟨?_, ?_⟩ (hroot ▸ hexceeded)
    · rintro ⟨d, hd, hkind⟩
      rcases (hdiags d).mp hd with hd | hd
      · exact ⟨d, hd, hkind⟩
      · exact absurd hkind (hds d hd).2
    · rintro ⟨d, hd, hkind⟩
      exact ⟨d, (hdiags d).mpr (.inl hd), hkind⟩
  · have hnone : r.failure = none ↔ ¬(followed q root).trail.failed = true := by
      change _ ↔ ¬(followed q root).failure.isSome = true
      rw [← hfailure, Bool.not_eq_true, Option.isSome_eq_false_iff, Option.isNone_iff_eq_none]
    rw [hnone, hfailed, hexceeded, hroot, not_or, not_not, and_comm]
    refine and_congr_right fun _ => ⟨fun hwithin file n hway => ?_, ?_⟩
    · exact Int.not_lt.mp fun hn => hwithin ⟨file, n, hway, hn⟩
    · rintro hwithin ⟨file, n, hway, hn⟩
      exact Int.not_lt.mpr (hwithin file n hway) hn
  · obtain ⟨first, hfirst, hway⟩ := hway.exists_chain
    rwa [List.mem_singleton.mp hfirst] at hway

namespace Resolve

theorem find?_of_scriptAt {fs : Machine.FileSystem} {path data : String} (h : scriptAt fs path = .ok data) :
    ∃ e, fs.find? path = some e ∧ e.data = data := by
  unfold scriptAt at h
  split at h
  · cases h
  · next e hfound =>
    split at h
    · cases h
    · split at h
      · exact ⟨e, hfound, Except.ok.inj h⟩
      · cases h
      · cases h

-- Files whose contents are not the names of others are told apart by the cache.
theorem distinct_of_entries {q : Inquiry} (h : ∀ u ∈ q.files.entries, q.files.find? u.2.data = none)
    (path data path' data' : String) (hdata : scriptAt q.files path = .ok data)
    (hdata' : scriptAt q.files path' = .ok data') (hkey : CacheKey.of path data = CacheKey.of path' data') :
    Script.read q.dialect path data = Script.read q.dialect path' data' := by
  have hnone : ∀ p e, q.files.find? p = some e → q.files.find? e.data = none := by
    intro p e hp
    obtain ⟨front, back, hentries, -⟩ := List.lookup_eq_some_iff.mp hp
    exact h (Machine.FileSystem.normalize p, e) (by simp [hentries])
  obtain ⟨e, hfound, rfl⟩ := find?_of_scriptAt hdata
  obtain ⟨e', hfound', rfl⟩ := find?_of_scriptAt hdata'
  rcases CacheKey.of_eq_iff.mp hkey with ⟨hpath, hsame⟩ | ⟨hpath, -⟩ | ⟨hpath, -⟩
  · rw [hpath, hsame]
  · rw [hpath, hnone path' e' hfound'] at hfound
    cases hfound
  · have hself := hnone path e hfound
    rw [← hpath, hfound] at hself
    cases hself

-- Files that are listed so that each sources only files behind it are free of cycles.
theorem Regular.of_order {q : Inquiry} {root : String} (order : List String) (hroot : root ∈ order)
    (hnodup : order.Nodup) (hbehind : ∀ a rest, a :: rest <:+ order → ∀ b ∈ sourcedBy q a, b ∈ rest)
    (hsound : ∀ p ∈ order, (q.files.find? p).all fun e => !(Script.read q.dialect p e.data).isFatal)
    (hdistinct : ∀ u ∈ q.files.entries, q.files.find? u.2.data = none) : Regular q root := by
  have hlisted : ∀ p, Leads (sourcedBy q) root p → p ∈ order := by
    intro p hleads
    rcases Relation.reflTransGen_iff_eq_or_transGen.mp hleads with rfl | hleads
    · exact hroot
    · obtain ⟨front, rest, heq⟩ := List.append_of_mem hroot
      have hsuffix : root :: rest <:+ order := ⟨front, heq.symm⟩
      exact hsuffix.subset (List.mem_cons_of_mem _ (mem_of_transGen hbehind hsuffix hleads))
  refine ⟨fun p hp => acyclic_of_order hbehind hnodup (hlisted p hp), ?_, distinct_of_entries hdistinct⟩
  intro p data hp hdata
  obtain ⟨e, hfound, rfl⟩ := find?_of_scriptAt hdata
  simpa [hfound] using hsound p (hlisted p hp)

end Resolve

-- A file is sourced before a second one that sources it as well.
def shortcut : Inquiry :=
  { Inquiry.ofTexts [("/script", ". ./b\n. ./a\n"), ("/a", ". ./b\n"), ("/b", "echo b\n")] with config.maxDepth := 1 }

-- The same with the two source statements of the script exchanged.
def detour : Inquiry :=
  { Inquiry.ofTexts [("/script", ". ./a\n. ./b\n"), ("/a", ". ./b\n"), ("/b", "echo b\n")] with config.maxDepth := 1 }

theorem sourcedBy_shortcut : Resolve.sourcedBy shortcut "/script" = ["/b", "/a"] ∧
    Resolve.sourcedBy shortcut "/a" = ["/b"] ∧ Resolve.sourcedBy shortcut "/b" = [] := by decide +kernel

theorem regular_shortcut : Resolve.Regular shortcut "/script" := by
  obtain ⟨hscript, ha, hb⟩ := sourcedBy_shortcut
  refine .of_order ["/script", "/a", "/b"] (by simp) (by simp) ?_ (by decide +kernel) (by decide +kernel)
  intro p rest hsuffix
  simp only [List.suffix_cons_iff, List.cons.injEq, List.suffix_nil, List.cons_ne_nil, or_false] at hsuffix
  rcases hsuffix with ⟨rfl, rfl⟩ | ⟨rfl, rfl⟩ | ⟨rfl, rfl⟩
  · simp [hscript]
  · simp [ha]
  · simp [hb]

theorem depth_limit_of_shortcut : Resolve.Regular shortcut "/script" ∧
    ((∃ d ∈ (resolve shortcut "/script").diags, d.kind = .depthExceeded) ↔
      ∃ file n, Resolve.FirstWay (Resolve.sourcedBy shortcut) [(resolve shortcut "/script").root] file n ∧
        shortcut.config.settled.maxDepth < n) :=
  ⟨regular_shortcut, (depth_limit shortcut "/script" (by decide +kernel) regular_shortcut).1⟩

-- A script whose source statements nest twice is accepted with a limit of one, as long as the file at the end is sourced
-- on a shorter way first.
theorem order_of_sources_decides :
    Resolve.Regular shortcut "/script" ∧ shortcut.config.settled.maxDepth = 1 ∧
    ["/script", "/a", "/b"].IsChain (Resolve.Nests (Resolve.sourcedBy shortcut)) ∧
    (resolve shortcut "/script").failure = none ∧
    (∀ d ∈ (resolve shortcut "/script").diags, d.kind ≠ .depthExceeded) ∧
    ∃ d ∈ (resolve detour "/script").diags, d.kind = .depthExceeded := by
  obtain ⟨hscript, ha, -⟩ := sourcedBy_shortcut
  have hchain : ["/script", "/a", "/b"].IsChain (Resolve.Nests (Resolve.sourcedBy shortcut)) := by
    simp [Resolve.Nests, hscript, ha]
  obtain ⟨-, -, -, hfailure, ds, hdiags, hds⟩ := resolve_followed shortcut "/script" (by decide +kernel)
  obtain ⟨-, -, -, -, ds', hdiags', -⟩ := resolve_followed detour "/script" (by decide +kernel)
  have hrun : (followed shortcut "/script").failure.isSome = false ∧ (followed shortcut "/script").diags = [] := by
    decide +kernel
  have hrun' : ∃ d ∈ (followed detour "/script").diags, d.kind = .depthExceeded := by decide +kernel
  refine ⟨regular_shortcut, rfl, hchain, ?_, fun d hd => ?_, ?_⟩
  · rw [hrun.1, Option.isSome_eq_false_iff, Option.isNone_iff_eq_none] at hfailure
    exact hfailure
  · rcases (hdiags d).mp hd with hd | hd
    · rw [hrun.2] at hd
      cases hd
    · exact (hds d hd).2
  · obtain ⟨d, hd, hkind⟩ := hrun'
    exact ⟨d, (hdiags' d).mpr (.inl hd), hkind⟩

end Dependency
end ShellScript

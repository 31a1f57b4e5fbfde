import Mathlib.Data.List.Chain
import Mathlib.Data.List.Nodup
import Mathlib.Data.List.TakeWhile
import Mathlib.Logic.Relation
import ShellScript.Proofs.Dependency.Walk

-- The graph of the files that a resolution reads. A file is open from when it is entered until all that it sources was
-- followed, so the open files are the chain that leads to the current one and the closed ones source only files that
-- were closed before them.
namespace ShellScript
namespace Dependency
namespace Resolve

-- One of these files sources another.
def Sources (q : Inquiry) (units : List (String × Script.File)) (a b : String) : Prop :=
  ∃ f, (a, f) ∈ units ∧ b ∈ sourcedFiles q a f

-- A file that is sourced and cannot be read, and a diagnostic that says so.
def Missing (q : Inquiry) (diags : List Diagnostic) (path : String) : Prop :=
  ∃ reason, unreadable? q path = some reason ∧
    ∃ d ∈ diags, d.kind = .missingReference ∧ d.message = "sourced file " ++ path ++ " " ++ reason

-- A diagnostic that writes out a way from a file back to itself.
def NamesCycle (q : Inquiry) (units : List (String × Script.File)) (d : Diagnostic) : Prop :=
  ∃ cycle : List String, d.message = "source cycle: " ++ chainText cycle ∧
    2 ≤ cycle.length ∧ cycle.head? = cycle.getLast? ∧ cycle.IsChain (Sources q units)

-- The file that a path stands for. A cache may have it from another file of the same key.
def Loaded (q : Inquiry) (path : String) (f : Script.File) : Prop :=
  ∃ data, scriptAt q.files path = .ok data ∧
    ∃ name data', scriptAt q.files name = .ok data' ∧ CacheKey.of name data' = CacheKey.of path data ∧
      f = Script.read q.dialect name data'

theorem Sources.mono {q : Inquiry} {units units' : List (String × Script.File)} (h : units <+: units') {a b : String} :
    Sources q units a b → Sources q units' a b
  | ⟨f, hunit, hsourced⟩ => ⟨f, h.subset hunit, hsourced⟩

theorem Missing.mono {q : Inquiry} {diags diags' : List Diagnostic} (h : diags ⊆ diags') {path : String} :
    Missing q diags path → Missing q diags' path
  | ⟨reason, hreason, d, hd, hsays⟩ => ⟨reason, hreason, d, h hd, hsays⟩

theorem NamesCycle.mono {q : Inquiry} {units units' : List (String × Script.File)} (h : units <+: units')
    {d : Diagnostic} : NamesCycle q units d → NamesCycle q units' d
  | ⟨cycle, hmessage, hlength, hends, hchain⟩ => ⟨cycle, hmessage, hlength, hends, hchain.imp fun _ _ => Sources.mono h⟩

namespace Trail

-- The closed files, the last first.
def closed (t : Trail) : List String := t.marks.filterMap fun m => if m.2 = .closed then some m.1 else none

@[simp] theorem closed_mark_opened (t : Trail) (path : String) : (t.mark path .opened).closed = t.closed := by
  simp [closed, mark]

@[simp] theorem closed_mark_closed (t : Trail) (path : String) : (t.mark path .closed).closed = path :: t.closed := by
  simp [closed, mark]

-- Nothing that was found is lost.
structure Grows (t t' : Trail) : Prop where
  units : t.units <+: t'.units
  diags : t.diags ⊆ t'.diags
  closed : t.closed <:+ t'.closed
  failed : t'.failed = false → t.failed = false

theorem Grows.refl (t : Trail) : Grows t t := ⟨List.prefix_refl _, List.Subset.refl _, List.suffix_refl _, id⟩

theorem Grows.trans {t t' t'' : Trail} (h : Grows t t') (h' : Grows t' t'') : Grows t t'' :=
  ⟨h.units.trans h'.units, List.Subset.trans h.diags h'.diags, h.closed.trans h'.closed, h.failed ∘ h'.failed⟩

theorem grows_mark (t : Trail) (path : String) (m : Mark) : Grows t (t.mark path m) where
  units := List.prefix_refl _
  diags := List.Subset.refl _
  closed := by cases m <;> simp
  failed := id

theorem grows_reportCycle (t : Trail) (cycle : List String) (d : Diagnostic) : Grows t (t.reportCycle cycle d) :=
  ⟨List.prefix_refl _, List.subset_append_left _ _, List.suffix_refl _, nofun⟩

end Trail

namespace Enters

variable {q : Inquiry} {path : String} {chain children : List String} {t t' : Trail}

theorem grows (h : Enters q path chain t children t') : t.Grows t' := by
  cases h with
  | tooDeep => exact ⟨List.prefix_refl _, List.subset_append_left _ _, List.suffix_refl _, nofun⟩
  | noScript => exact ⟨List.prefix_refl _, List.subset_append_left _ _, List.suffix_refl _, nofun⟩
  | missing => exact ⟨List.prefix_refl _, List.subset_append_left _ _, List.suffix_refl _, id⟩
  | broken => exact ⟨List.prefix_append _ _, List.subset_append_left _ _, List.suffix_refl _, nofun⟩
  | unit => exact ⟨List.prefix_append _ _, List.subset_append_left _ _, List.suffix_refl _, id⟩

theorem marks (h : Enters q path chain t children t') : t'.marks = t.marks := by cases h <;> rfl

theorem closed (h : Enters q path chain t children t') : t'.closed = t.closed := by
  rw [Trail.closed, h.marks]
  rfl

theorem units (h : Enters q path chain t children t') : t'.units = t.units ∨ ∃ f, t'.units = t.units ++ [(path, f)] := by
  cases h with
  | tooDeep => exact .inl rfl
  | noScript => exact .inl rfl
  | missing => exact .inl rfl
  | broken => exact .inr ⟨_, rfl⟩
  | unit => exact .inr ⟨_, rfl⟩

theorem cycles (h : Enters q path chain t children t') : t'.cycles = t.cycles := by cases h <;> rfl

-- The files that are to be followed are sourced by the one that was entered.
theorem sources (h : Enters q path chain t children t') : ∀ c ∈ children, Sources q t'.units path c := by
  cases h with
  | unit => exact fun c hc => ⟨_, List.mem_append_right _ (by simp), hc⟩
  | _ => exact fun c hc => nomatch hc

end Enters

-- The kinds of diagnostics that a file alone gives rise to.
theorem isOfText_of_mem_diags {f : Script.File} {d : Diagnostic} (h : d ∈ f.diags) : d.kind.isOfText = true := by
  obtain ⟨d, -, rfl⟩ := List.mem_map.mp h
  exact d.2

-- The marks tell the chain that leads to the current file, and the files that are done with.
structure Marked (chain : List String) (t : Trail) : Prop where
  opened : ∀ p, t.marks.lookup p = some .opened ↔ p ∈ chain
  closed : ∀ p, t.marks.lookup p = some .closed ↔ p ∈ t.closed
  once : t.closed.Nodup
  known : ∀ u ∈ t.units, t.marks.lookup u.1 ≠ none
  single : (t.units.map Prod.fst).Nodup

namespace Marked

variable {q : Inquiry} {chain : List String} {path : String} {t t' : Trail}

theorem start : Marked [] {} where
  opened := by simp
  closed := by simp [Trail.closed]
  once := by simp [Trail.closed]
  known := List.forall_mem_nil _
  single := List.nodup_nil

theorem notMem_chain (h : Marked chain t) (hmark : t.marks.lookup path = none) : path ∉ chain := by
  intro hmem
  rw [(h.opened path).mpr hmem] at hmark
  cases hmark

theorem enter {children : List String} (h : Marked chain t) (hmark : t.marks.lookup path = none)
    (henter : Enters q path chain (t.mark path .opened) children t') : Marked (chain ++ [path]) t' := by
  have hmarks : t'.marks = (path, .opened) :: t.marks := henter.marks
  have hclosed : t'.closed = t.closed := henter.closed.trans (Trail.closed_mark_opened t path)
  have hnew : path ∉ t.units.map Prod.fst := by
    intro hmem
    obtain ⟨u, hu, rfl⟩ := List.mem_map.mp hmem
    exact h.known u hu hmark
  refine ⟨fun p => ?_, fun p => ?_, hclosed ▸ h.once, fun u hu => ?_, ?_⟩
  · rw [hmarks, List.lookup_cons, List.mem_append, List.mem_singleton]
    by_cases hp : p = path
    · simp [hp]
    · have hne : (p == path) = false := beq_eq_false_iff_ne.mpr hp
      simpa [hne, hp] using h.opened p
  · rw [hmarks, List.lookup_cons, hclosed]
    by_cases hp : p = path
    · have hopen : path ∉ t.closed := fun hmem => by
        rw [(h.closed path).mpr hmem] at hmark
        cases hmark
      simp [hp, hopen]
    · have hne : (p == path) = false := beq_eq_false_iff_ne.mpr hp
      simpa [hne] using h.closed p
  · rw [hmarks, List.lookup_cons]
    by_cases hp : u.1 = path
    · simp [hp]
    · have hne : (u.1 == path) = false := beq_eq_false_iff_ne.mpr hp
      simp only [hne]
      refine h.known u ?_
      rcases henter.units with hunits | ⟨f, hunits⟩
      · rwa [hunits] at hu
      · rw [hunits, List.mem_append, List.mem_singleton] at hu
        rcases hu with hu | rfl
        · exact hu
        · exact absurd rfl hp
  · rcases henter.units with hunits | ⟨f, hunits⟩
    · rw [hunits]
      exact h.single
    · rw [hunits, List.map_append]
      refine List.nodup_append.mpr ⟨h.single, by simp, fun a ha b hb => ?_⟩
      rintro rfl
      obtain rfl : a = path := by simpa using hb
      exact hnew ha

theorem leave (h : Marked (chain ++ [path]) t) (hpath : path ∉ chain) : Marked chain (t.mark path .closed) := by
  have hopened : t.marks.lookup path = some .opened := (h.opened path).mpr (by simp)
  have hopen : path ∉ t.closed := fun hmem => by
    rw [(h.closed path).mpr hmem] at hopened
    cases hopened
  have hlookup : ∀ p, (t.mark path .closed).marks.lookup p = if p = path then some .closed else t.marks.lookup p := by
    intro p
    rw [Trail.mark, List.lookup_cons]
    by_cases hp : p = path
    · simp [hp]
    · have hne : (p == path) = false := beq_eq_false_iff_ne.mpr hp
      simp [hne, hp]
  refine ⟨fun p => ?_, fun p => ?_, ?_, fun u hu => ?_, h.single⟩
  · rw [hlookup]
    split
    · rename_i hp
      simp [hp, hpath]
    · rename_i hp
      simpa [hp] using h.opened p
  · rw [hlookup, Trail.closed_mark_closed, List.mem_cons]
    split
    · rename_i hp
      simp [hp]
    · rename_i hp
      simpa [hp] using h.closed p
  · rw [Trail.closed_mark_closed]
    exact List.nodup_cons.mpr ⟨hopen, h.once⟩
  · rw [hlookup]
    split
    · simp
    · exact h.known u hu

-- What a diagnostic adds leaves the marks alone.
theorem congr {t t' : Trail} (h : Marked chain t) (hmarks : t'.marks = t.marks) (hunits : t'.units = t.units) :
    Marked chain t' := by
  have hclosed : t'.closed = t.closed := by rw [Trail.closed, hmarks]; rfl
  exact ⟨hmarks ▸ h.opened, hmarks ▸ hclosed ▸ h.closed, hclosed ▸ h.once, hmarks ▸ hunits ▸ h.known, hunits ▸ h.single⟩

end Marked

namespace Walk

variable {q : Inquiry} {chain paths : List String} {t t' : Trail}

theorem grows (h : Walk q chain paths t t') : t.Grows t' := by
  induction h with
  | nil => exact .refl _
  | closed _ _ ih => exact ih
  | knownCycle _ _ _ ih => exact ih
  | cycle _ _ _ _ _ ih => exact (Trail.grows_reportCycle _ _ _).trans ih
  | file _ henter _ _ ihInner ihRest =>
      exact (Trail.grows_mark _ _ _).trans (henter.grows.trans (ihInner.trans ((Trail.grows_mark _ _ _).trans ihRest)))

theorem marked (h : Walk q chain paths t t') : Marked chain t → Marked chain t' := by
  induction h with
  | nil => exact id
  | closed _ _ ih => exact ih
  | knownCycle _ _ _ ih => exact ih
  | cycle _ _ _ _ _ ih => exact fun hm => ih (hm.congr rfl rfl)
  | file hmark henter _ _ ihInner ihRest =>
      exact fun hm => ihRest ((ihInner (hm.enter hmark henter)).leave (hm.notMem_chain hmark))

end Walk

section Cycles

variable {q : Inquiry} {chain children paths : List String} {path : String} {t t' : Trail}

-- Every cycle that was reported is one.
def Named (q : Inquiry) (t : Trail) : Prop := ∀ d ∈ t.diags, d.kind = .dependencyCycle → NamesCycle q t.units d

theorem Enters.named (h : Enters q path chain t children t') (hnamed : Named q t) : Named q t' := by
  intro d hd hkind
  have hold : d ∈ t.diags → NamesCycle q t'.units d := fun hmem => (hnamed d hmem hkind).mono h.grows.units
  -- none of what entering a file reports is about a cycle
  cases h with
  | tooDeep _ hdepth | noScript _ _ _ hdepth | missing _ _ _ hdepth _ =>
      rcases List.mem_append.mp hd with hd | hd
      · exact hold hd
      · rw [List.mem_singleton.mp hd, hdepth] at hkind
        cases hkind
  | broken | unit =>
      rcases List.mem_append.mp hd with hd | hd
      · exact hold hd
      · have htext := isOfText_of_mem_diags hd
        rw [hkind] at htext
        cases htext

-- A file on the chain that the last file sources closes the part of the chain behind it.
theorem cycle_of_opened {R : String → String → Prop} (hchain : chain.IsChain R) (hpath : path ∈ chain)
    (hlast : ∀ l ∈ chain.getLast?, R l path) :
    let cycle := chain.dropWhile (· != path) ++ [path]
    2 ≤ cycle.length ∧ cycle.head? = cycle.getLast? ∧ cycle.IsChain R := by
  have hsuffix : chain.dropWhile (· != path) <:+ chain := List.dropWhile_suffix _
  obtain ⟨more, hmore⟩ : ∃ more, chain.dropWhile (· != path) = path :: more := by
    cases hdrop : chain.dropWhile (· != path) with
    | nil =>
        have hall : ∀ p ∈ chain, (p != path) = true := List.dropWhile_eq_nil_iff.mp hdrop
        exact absurd (hall path hpath) (by simp)
    | cons first more =>
        have hfirst := List.head?_dropWhile_not (· != path) chain
        rw [hdrop] at hfirst
        exact ⟨more, by simpa using hfirst⟩
  have hgetLast : (chain.dropWhile (· != path)).getLast? = chain.getLast? := by
    obtain ⟨front, hfront⟩ := hsuffix
    rw [hmore] at hfront ⊢
    rw [← hfront, List.getLast?_append_of_ne_nil _ (by simp)]
  refine ⟨by simp [hmore], by rw [List.getLast?_concat]; simp [hmore], ?_⟩
  refine List.isChain_append.mpr ⟨hchain.suffix hsuffix, by simp, ?_⟩
  intro l hl p hp
  obtain rfl : path = p := by simpa using hp
  exact hlast l (hgetLast ▸ hl)

theorem Walk.named (h : Walk q chain paths t t') : Marked chain t → chain.IsChain (Sources q t.units) →
    (∀ l ∈ chain.getLast?, ∀ p ∈ paths, Sources q t.units l p) → Named q t → Named q t' := by
  induction h with
  | nil => exact fun _ _ _ hnamed => hnamed
  | closed _ _ ih =>
      exact fun hm hchain hlast => ih hm hchain fun l hl p hp => hlast l hl p (List.mem_cons_of_mem _ hp)
  | knownCycle _ _ _ ih =>
      exact fun hm hchain hlast => ih hm hchain fun l hl p hp => hlast l hl p (List.mem_cons_of_mem _ hp)
  | @cycle chain paths cycle path t t' d hmark hcycle hkind hmessage _ ih =>
      intro hm hchain hlast hnamed
      refine ih (hm.congr rfl rfl) hchain (fun l hl p hp => hlast l hl p (List.mem_cons_of_mem _ hp)) fun d' hd' hkind' => ?_
      rcases List.mem_append.mp hd' with hd' | hd'
      · exact hnamed d' hd' hkind'
      · obtain rfl : d' = d := List.mem_singleton.mp hd'
        have hreal := cycle_of_opened hchain ((hm.opened path).mp hmark) fun l hl => hlast l hl path (by simp)
        exact ⟨cycle, hmessage, hcycle ▸ hreal⟩
  | @file chain paths children path t t₁ t₂ t' hmark henter hinner _ ihInner ihRest =>
      intro hm hchain hlast hnamed
      have hbefore := henter.grows.units
      have hbetween := hinner.grows.units
      have hm₁ := hm.enter hmark henter
      have hchain₁ : (chain ++ [path]).IsChain (Sources q t₁.units) := by
        refine List.isChain_append.mpr ⟨hchain.imp fun _ _ => Sources.mono hbefore, by simp, fun l hl p hp => ?_⟩
        obtain rfl : path = p := by simpa using hp
        exact (hlast l hl path (by simp)).mono hbefore
      have hlast₁ : ∀ l ∈ (chain ++ [path]).getLast?, ∀ p ∈ children, Sources q t₁.units l p := by
        intro l hl
        obtain rfl : path = l := by simpa using hl
        exact henter.sources
      refine ihRest ((hinner.marked hm₁).leave (hm.notMem_chain hmark))
        (hchain.imp fun _ _ => Sources.mono (hbefore.trans hbetween)) (fun l hl p hp => ?_)
        (ihInner hm₁ hchain₁ hlast₁ (henter.named hnamed))
      exact (hlast l hl p (List.mem_cons_of_mem _ hp)).mono (hbefore.trans hbetween)

end Cycles

section Order

variable {q : Inquiry} {chain children paths : List String} {path : String} {t t' : Trail}

-- What a file needs is among others, or it could not be read.
def Settles (q : Inquiry) (t : Trail) (path : String) (others : List String) : Prop :=
  (∃ f, (path, f) ∈ t.units ∧ ∀ c ∈ sourcedFiles q path f, c ∈ others) ∨ Missing q t.diags path

theorem Settles.mono {others : List String} (h : t.Grows t') : Settles q t path others → Settles q t' path others
  | .inl ⟨f, hunit, hsourced⟩ => .inl ⟨f, h.units.subset hunit, hsourced⟩
  | .inr hmissing => .inr (hmissing.mono h.diags)

-- As long as nothing failed, what a closed file needs was closed before it.
structure Settled (q : Inquiry) (t : Trail) : Prop where
  cycles : t.failed = false → t.cycles = []
  closed : t.failed = false → ∀ p rest, p :: rest <:+ t.closed → Settles q t p rest

theorem Settled.start (q : Inquiry) : Settled q {} := ⟨fun _ => rfl, by simp [Trail.closed]⟩

theorem Settled.grow (h : Settled q t) (hgrows : t.Grows t') (hcycles : t'.cycles = t.cycles)
    (hclosed : t'.closed = t.closed) : Settled q t' where
  cycles hfailed := hcycles ▸ h.cycles (hgrows.failed hfailed)
  closed hfailed p rest hsuffix := (h.closed (hgrows.failed hfailed) p rest (hclosed ▸ hsuffix)).mono hgrows

theorem Settled.leave (h : Settled q t) (hpath : t.failed = false → Settles q t path t.closed) :
    Settled q (t.mark path .closed) where
  cycles := h.cycles
  closed hfailed p rest hsuffix := by
    rw [Trail.closed_mark_closed, List.suffix_cons_iff] at hsuffix
    rcases hsuffix with heq | hsuffix
    · obtain ⟨rfl, rfl⟩ := List.cons.inj heq
      exact hpath hfailed
    · exact h.closed hfailed p rest hsuffix

-- A file that was entered is settled when the files that it sources are closed.
theorem Enters.settles (h : Enters q path chain t children t') {t₂ : Trail} (hgrows : t'.Grows t₂)
    (hfailed : t₂.failed = false) (hchildren : ∀ c ∈ children, c ∈ t₂.closed) : Settles q t₂ path t₂.closed := by
  have hunfailed := hgrows.failed hfailed
  cases h with
  | tooDeep => cases hunfailed
  | noScript => cases hunfailed
  | broken => cases hunfailed
  | missing _ _ hreason hkind hmessage =>
      exact .inr ⟨_, hreason, _, hgrows.diags (List.mem_append_right _ (by simp)), hkind, hmessage⟩
  | unit => exact .inl ⟨_, hgrows.units.subset (List.mem_append_right _ (by simp)), hchildren⟩

theorem Walk.settled (h : Walk q chain paths t t') : Marked chain t → Settled q t →
    Settled q t' ∧ (t'.failed = false → ∀ p ∈ paths, p ∈ t'.closed) := by
  induction h with
  | nil => exact fun _ hs => ⟨hs, fun _ => nofun⟩
  | @closed chain paths path t t' hmark hrest ih =>
      intro hm hs
      obtain ⟨hs', hpaths⟩ := ih hm hs
      refine ⟨hs', fun hfailed => List.forall_mem_cons.mpr ⟨?_, hpaths hfailed⟩⟩
      exact hrest.grows.closed.subset ((hm.closed path).mp hmark)
  | knownCycle _ hknown hrest ih =>
      intro hm hs
      refine ⟨(ih hm hs).1, fun hfailed => ?_⟩
      rw [hs.cycles (hrest.grows.failed hfailed)] at hknown
      cases hknown
  | cycle _ _ _ _ hrest ih =>
      intro hm hs
      refine ⟨(ih (hm.congr rfl rfl) ⟨nofun, nofun⟩).1, fun hfailed => ?_⟩
      cases hrest.grows.failed hfailed
  | @file chain paths children path t t₁ t₂ t' hmark henter hinner hrest ihInner ihRest =>
      intro hm hs
      have hm₁ := hm.enter hmark henter
      have hclosed₁ : t₁.closed = t.closed := henter.closed.trans (Trail.closed_mark_opened t path)
      have hs₁ := hs.grow ((Trail.grows_mark t path .opened).trans henter.grows) henter.cycles hclosed₁
      obtain ⟨hs₂, hchildren⟩ := ihInner hm₁ hs₁
      have hleave : Settled q (t₂.mark path .closed) :=
        hs₂.leave fun hfailed => henter.settles hinner.grows hfailed (hchildren hfailed)
      obtain ⟨hs', hpaths⟩ := ihRest ((hinner.marked hm₁).leave (hm.notMem_chain hmark)) hleave
      refine ⟨hs', fun hfailed => List.forall_mem_cons.mpr ⟨?_, hpaths hfailed⟩⟩
      exact hrest.grows.closed.subset (by simp)

end Order

section Files

variable {q : Inquiry} {chain children paths : List String} {path : String} {t t' : Trail}

-- What the cache holds was read, and so was every file that a path stands for.
structure Faithful (q : Inquiry) (t : Trail) : Prop where
  cache : ∀ k f, t.cache.files.lookup k = some f →
    ∃ name data, scriptAt q.files name = .ok data ∧ CacheKey.of name data = k ∧ f = Script.read q.dialect name data
  units : ∀ u ∈ t.units, Loaded q u.1 u.2

theorem Faithful.start (q : Inquiry) : Faithful q {} := ⟨by simp, by simp⟩

theorem Faithful.load (h : Faithful q t) {data : String} (hdata : scriptAt q.files path = .ok data) :
    ∃ name data', scriptAt q.files name = .ok data' ∧ CacheKey.of name data' = CacheKey.of path data ∧
      t.load q path data = Script.read q.dialect name data' := by
  unfold Trail.load ParseCache.read ParseCache.readBy
  cases hknown : t.cache.files.lookup (CacheKey.of path data) with
  | none => exact ⟨path, data, hdata, rfl, rfl⟩
  | some f => exact h.cache _ f hknown

theorem Faithful.enter (h : Faithful q t) {data : String} (hdata : scriptAt q.files path = .ok data) :
    Faithful q (t.enter q path data) where
  cache k f hlookup := by
    unfold Trail.enter ParseCache.read ParseCache.readBy at hlookup
    cases hknown : t.cache.files.lookup (CacheKey.of path data) with
    | some f' =>
        simp only [hknown] at hlookup
        exact h.cache k f hlookup
    | none =>
        simp only [hknown, List.lookup_cons] at hlookup
        by_cases hk : k = CacheKey.of path data
        · simp only [hk, beq_self_eq_true, Option.some.injEq] at hlookup
          exact ⟨path, data, hdata, hk.symm, hlookup.symm⟩
        · have hne : (k == CacheKey.of path data) = false := beq_eq_false_iff_ne.mpr hk
          simp only [hne] at hlookup
          exact h.cache k f hlookup
  units u hu := by
    rcases List.mem_append.mp hu with hu | hu
    · exact h.units u hu
    · rw [List.mem_singleton.mp hu]
      exact ⟨data, hdata, h.load hdata⟩

theorem Enters.faithful (h : Enters q path chain t children t') (hf : Faithful q t) : Faithful q t' := by
  cases h with
  | tooDeep => exact ⟨hf.cache, hf.units⟩
  | noScript => exact ⟨hf.cache, hf.units⟩
  | missing => exact ⟨hf.cache, hf.units⟩
  | broken _ hdata =>
      have hentered := hf.enter hdata
      exact ⟨hentered.cache, hentered.units⟩
  | unit _ hdata => exact hf.enter hdata

theorem Walk.faithful (h : Walk q chain paths t t') : Faithful q t → Faithful q t' := by
  induction h with
  | nil => exact id
  | closed _ _ ih => exact ih
  | knownCycle _ _ _ ih => exact ih
  | cycle _ _ _ _ _ ih => exact fun hf => ih ⟨hf.cache, hf.units⟩
  | file _ henter _ _ ihInner ihRest =>
      intro hf
      have hinner := ihInner (henter.faithful ⟨hf.cache, hf.units⟩)
      exact ihRest ⟨hinner.cache, hinner.units⟩

end Files

section Acyclic

-- What is related to the members of a list only by members behind them is so over any number of steps.
theorem mem_of_transGen {α : Type} {R : α → α → Prop} {l : List α}
    (h : ∀ a rest, a :: rest <:+ l → ∀ b, R a b → b ∈ rest) {a b : α} {rest : List α} (hsuffix : a :: rest <:+ l)
    (hreach : Relation.TransGen R a b) : b ∈ rest := by
  induction hreach with
  | single hstep => exact h a rest hsuffix _ hstep
  | tail _ hstep ih =>
      obtain ⟨front, later, heq⟩ := List.append_of_mem ih
      have hlater : _ :: later <:+ rest := ⟨front, heq.symm⟩
      have hmem := h _ later (hlater.trans ((List.suffix_cons _ _).trans hsuffix)) _ hstep
      exact hlater.subset (List.mem_cons_of_mem _ hmem)

theorem acyclic_of_order {α : Type} {R : α → α → Prop} {l : List α}
    (h : ∀ a rest, a :: rest <:+ l → ∀ b, R a b → b ∈ rest) (hnodup : l.Nodup) {a : α} (ha : a ∈ l) :
    ¬Relation.TransGen R a a := by
  intro hreach
  obtain ⟨front, rest, heq⟩ := List.append_of_mem ha
  have hsuffix : a :: rest <:+ l := ⟨front, heq.symm⟩
  have honce := hnodup.sublist hsuffix.sublist
  exact (List.nodup_cons.mp honce).1 (mem_of_transGen h hsuffix hreach)

variable {q : Inquiry} {t : Trail}

theorem unreadable?_of_loaded {path : String} {f : Script.File} : Loaded q path f → unreadable? q path = none
  | ⟨data, hdata, _⟩ => by simp [unreadable?, hdata]

-- The file of a path is the only one, so what it sources was closed before it.
theorem Settled.sources_before (hs : Settled q t) (hf : Faithful q t) (hm : Marked [] t) (hfailed : t.failed = false)
    {a b : String} {rest : List String} (hsuffix : a :: rest <:+ t.closed) : Sources q t.units a b → b ∈ rest := by
  rintro ⟨f, hunit, hsourced⟩
  rcases hs.closed hfailed a rest hsuffix with ⟨f', hunit', hbefore⟩ | ⟨reason, hreason, -⟩
  · obtain ⟨-, rfl⟩ := Prod.mk.inj (List.inj_on_of_nodup_map hm.single hunit hunit' rfl)
    exact hbefore b hsourced
  · rw [unreadable?_of_loaded (hf.units _ hunit)] at hreason
    cases hreason

theorem Marked.closed_of_unit (hm : Marked [] t) {u : String × Script.File} (hu : u ∈ t.units) : u.1 ∈ t.closed := by
  rw [← hm.closed]
  cases hlookup : t.marks.lookup u.1 with
  | none => exact absurd hlookup (hm.known u hu)
  | some m =>
      cases m with
      | opened => cases (hm.opened u.1).mp hlookup
      | closed => rfl

theorem Settled.acyclic (hs : Settled q t) (hf : Faithful q t) (hm : Marked [] t) (hfailed : t.failed = false)
    (a : String) : ¬Relation.TransGen (Sources q t.units) a a := by
  intro h
  obtain ⟨b, ⟨f, hunit, -⟩, -⟩ := Relation.TransGen.head'_iff.mp h
  refine acyclic_of_order (fun a rest hsuffix b => ?_) hm.once (hm.closed_of_unit hunit) h
  exact hs.sources_before hf hm hfailed hsuffix

theorem Settled.complete (hs : Settled q t) (hf : Faithful q t) (hm : Marked [] t) (hfailed : t.failed = false)
    {u : String × Script.File} (hu : u ∈ t.units) {c : String} (hc : c ∈ sourcedFiles q u.1 u.2) :
    c ∈ t.units.map Prod.fst ∨ Missing q t.diags c := by
  obtain ⟨front, rest, heq⟩ := List.append_of_mem (hm.closed_of_unit hu)
  have hsuffix : u.1 :: rest <:+ t.closed := ⟨front, heq.symm⟩
  have hbefore := hs.sources_before hf hm hfailed hsuffix ⟨u.2, hu, hc⟩
  obtain ⟨front', rest', heq'⟩ := List.append_of_mem hbefore
  have hsuffix' : c :: rest' <:+ t.closed := by
    rw [heq'] at hsuffix
    exact (List.suffix_append (u.1 :: front') (c :: rest')).trans hsuffix
  rcases hs.closed hfailed c rest' hsuffix' with ⟨f, hunit, -⟩ | hmissing
  · exact .inl (List.mem_map.mpr ⟨_, hunit, rfl⟩)
  · exact .inr hmissing

-- The file that is followed first is the first to be read.
theorem Walk.head_units {t' : Trail} {path : String} (h : Walk q [] [path] {} t') (hfailed : t'.failed = false) :
    (t'.units.map Prod.fst).head? = some path := by
  cases h with
  | closed hmark => cases hmark
  | knownCycle hmark => cases hmark
  | cycle hmark => cases hmark
  | file _ henter hinner hrest =>
      have hgrows := hinner.grows.trans ((Trail.grows_mark _ _ _).trans hrest.grows)
      have hunfailed := hgrows.failed hfailed
      cases henter with
      | tooDeep => cases hunfailed
      | noScript => cases hunfailed
      | broken => cases hunfailed
      | missing _ hchain => exact absurd rfl hchain
      | unit =>
          obtain ⟨more, hmore⟩ := hgrows.units
          rw [← hmore]
          rfl

-- The file that is followed first is closed last.
theorem Walk.closed_first {path : String} (h : Walk q [] [path] {} t) : ∃ rest, t.closed = path :: rest := by
  cases h with
  | closed hmark => cases hmark
  | knownCycle hmark => cases hmark
  | cycle hmark => cases hmark
  | file _ _ _ hrest =>
      cases hrest
      exact ⟨_, Trail.closed_mark_closed _ _⟩

theorem Walk.not_sources_first {path : String} (h : Walk q [] [path] {} t) (hfailed : t.failed = false) (a : String) :
    ¬Sources q t.units a path := by
  intro hsources
  have hm := h.marked Marked.start
  obtain ⟨hs, -⟩ := h.settled Marked.start (.start q)
  obtain ⟨f, hunit, -⟩ := id hsources
  obtain ⟨front, rest, heq⟩ := List.append_of_mem (hm.closed_of_unit hunit)
  have hsuffix : a :: rest <:+ t.closed := ⟨front, heq.symm⟩
  have hbefore : path ∈ rest := hs.sources_before (h.faithful (.start q)) hm hfailed hsuffix hsources
  obtain ⟨others, hclosed⟩ := h.closed_first
  have honce := hm.once
  rw [hclosed] at honce hsuffix
  refine (List.nodup_cons.mp honce).1 ?_
  rcases List.suffix_cons_iff.mp hsuffix with hsame | hlater
  · exact (List.cons.inj hsame).2 ▸ hbefore
  · exact hlater.subset (List.mem_cons_of_mem _ hbefore)

-- What is left of a walk that began with nothing.
theorem Walk.graph {path : String} (h : Walk q [] [path] {} t) :
    (t.failed = false →
      (t.units.map Prod.fst).Nodup ∧ (t.units.map Prod.fst).head? = some path ∧
      (∀ u ∈ t.units, ∀ c ∈ sourcedFiles q u.1 u.2, c ∈ t.units.map Prod.fst ∨ Missing q t.diags c) ∧
      ∀ a, ¬Relation.TransGen (Sources q t.units) a a) ∧
    Named q t ∧ ∀ u ∈ t.units, Loaded q u.1 u.2 := by
  have hm := h.marked Marked.start
  have hf := h.faithful (.start q)
  have hnamed := h.named Marked.start List.isChain_nil (by simp) (by simp [Named])
  refine ⟨fun hfailed => ?_, hnamed, hf.units⟩
  obtain ⟨hs, -⟩ := h.settled Marked.start (.start q)
  exact ⟨hm.single, h.head_units hfailed, fun u hu c hc => hs.complete hf hm hfailed hu hc, hs.acyclic hf hm hfailed⟩

end Acyclic

end Resolve

-- An inquiry about files with these texts.
def Inquiry.ofTexts (texts : List (String × String)) : Inquiry where
  files := { entries := texts.map fun (path, data) => (path, { isDir := false, data, mode := 0o644 }) }

end Dependency
end ShellScript

import ShellScript.Project.Generate
import ShellScript.Proofs.Dependency.Classification
import ShellScript.Proofs.Dependency.NodeGraph
import ShellScript.Proofs.Dependency.UnitGraph
import ShellScript.Proofs.Program.Links
import ShellScript.Proofs.Text.Order

-- What a program takes along. Files come through the rules, which are asked once about each of them; the programs that
-- travel with the script do not.
namespace ShellScript
namespace Project

open Dependency

-- The program of a resolution, with the graph that it was made from.
structure Generated (r : Resolution) (files : Machine.FileSystem) (p : Program) (g : Graph) : Prop where
  graph : r.graph = some g
  root : (r.units.lookup r.root).isSome = true
  main : p.main = (((lowerUnits r g files).map fun x => (x.1, x.2.1)).lookup r.root).getD default
  units : p.units = (((lowerUnits r g files).map fun x => (x.1, x.2.1)).filter (·.1 != r.root)).mergeSort
    fun a b => Text.le a.1 b.1
  embeds : p.embeds = embedsOf files r.root g.sorted
  externals : p.externals = externalsOf files g.sorted
  -- nothing that was compiled is refused
  sound : ∀ x ∈ lowerUnits r g files, Diagnostic.anyFatal x.2.2 = false

-- An error in one file is an error of the whole.
theorem anyFatal_of_mem {xs : List (String × Program.Block × List Diagnostic)}
    {lost : List Diagnostic}
    (h : Diagnostic.anyFatal (Diagnostic.sort (lost ++ xs.flatMap fun x => x.2.2)) = false) :
    ∀ x ∈ xs, Diagnostic.anyFatal x.2.2 = false := by
  intro x hx
  rw [Diagnostic.anyFatal_sort, Diagnostic.anyFatal, List.any_eq_false] at h
  exact List.any_eq_false.mpr fun d hd => h d (List.mem_append_right _ (List.mem_flatMap.mpr ⟨x, hx, hd⟩))

theorem generated_of_ok {r : Resolution} {files : Machine.FileSystem} {name : String} {options : Program.Options}
    {p : Program} {ds : List Diagnostic} (h : generate r files name options = .ok (p, ds)) :
    ∃ g, Generated r files p g := by
  unfold generate at h
  split at h
  · cases h
  · cases h
  · rename_i g root hgraph hroot
    split at h
    · cases h
    · dsimp only at h
      split at h
      · cases h
      · rename_i hsound
        obtain ⟨rfl, -⟩ := Prod.mk.inj (Except.ok.inj h)
        exact ⟨g, hgraph, by simp [hroot], rfl, rfl, rfl, rfl, anyFatal_of_mem (by simpa using hsound)⟩

theorem mem_sorted {g : Graph} {n : Node} : n ∈ g.sorted ↔ n ∈ g.nodes := List.mem_mergeSort

theorem capture?_eq_some {files : Machine.FileSystem} {root path : String} {n : Node} :
    capture? files root n = some path ↔ (isEmbedded files root n = true ∧ n.path = path) ∨
      (n.kind = .externalBinary ∧ n.bundle = true ∧ n.bundlePath = path) := by
  have hfile : isEmbedded files root n = true → n.kind = .localFile := by
    intro h
    simp only [isEmbedded, Bool.and_eq_true, beq_iff_eq] at h
    exact h.1.1.1.1.1.1.1
  unfold capture?
  cases hkind : n.kind with
  | localFile => simp
  | externalBinary =>
      have hother : isEmbedded files root n = false := by
        rw [Bool.eq_false_iff]
        exact fun h => by simp [hfile h] at hkind
      simp [hother]
  | networkResource =>
      have hother : isEmbedded files root n = false := by
        rw [Bool.eq_false_iff]
        exact fun h => by simp [hfile h] at hkind
      simp [hother]

theorem toOption_eq_some {ε α : Type} {r : Except ε α} {a : α} : r.toOption = some a ↔ r = .ok a := by
  cases r <;> simp [Except.toOption]

-- What is taken along was read.
theorem mem_embedsOf {files : Machine.FileSystem} {root path content : String} {nodes : List Node} :
    (path, content) ∈ embedsOf files root nodes ↔ files.read? path = .ok content ∧
      ((∃ n ∈ nodes, isEmbedded files root n = true ∧ n.path = path) ∨
        ∃ n ∈ nodes, n.kind = .externalBinary ∧ n.bundle = true ∧ n.bundlePath = path) := by
  have hpaths : path ∈ Text.compact (Text.sort (nodes.filterMap (capture? files root))) ↔
      (∃ n ∈ nodes, isEmbedded files root n = true ∧ n.path = path) ∨
        ∃ n ∈ nodes, n.kind = .externalBinary ∧ n.bundle = true ∧ n.bundlePath = path := by
    rw [Text.mem_compact, Text.sort, List.mem_mergeSort, List.mem_filterMap]
    simp only [capture?_eq_some, and_or_left, exists_or]
  rw [← hpaths, embedsOf, List.mem_filterMap]
  simp only [Option.map_eq_some_iff, toOption_eq_some, Prod.mk.injEq]
  constructor
  · rintro ⟨p, hp, data, hdata, rfl, rfl⟩
    exact ⟨hdata, hp⟩
  · rintro ⟨hdata, hp⟩
    exact ⟨path, hp, content, hdata, rfl, rfl⟩

theorem data_of_read? {files : Machine.FileSystem} {path data : String} {e : Machine.Entry}
    (hdata : files.read? path = .ok data) (hfound : files.find? path = some e) : e.data = data := by
  unfold Machine.FileSystem.read? at hdata
  rw [hfound] at hdata
  dsimp only at hdata
  split at hdata
  · exact Except.ok.inj hdata
  · cases hdata

theorem externalOf_of_readable {files : Machine.FileSystem} {n : Node} {data : String} (hbundle : n.bundle = true)
    (hdata : files.read? n.bundlePath = .ok data) :
    (externalOf files n).bundle = true ∧ (externalOf files n).path = n.bundlePath := by
  have hreadable : isReadable files n.bundlePath = true := by rw [isReadable, hdata]; rfl
  simp [externalOf, hbundle, hreadable]

-- That a file cannot be read is a warning.
theorem isFatal_of_loss? {files : Machine.FileSystem} {root : String} {n : Node} {d : Diagnostic}
    (h : loss? files root n = some d) : d.isFatal = false := by
  simp only [loss?, Option.bind_eq_bind, Option.bind_eq_some_iff] at h
  obtain ⟨path, -, h⟩ := h
  split at h
  · cases h
  · obtain rfl := Option.some.inj h
    rfl

-- A resolution has a graph only if its rules could be read.
theorem exists_classifier {q : Inquiry} {root : String} {g : Graph} (h : (resolve q root).graph = some g) :
    ∃ own, (∀ r ∈ own, r.Decides) ∧
      Classifier.ofConfig? q.config.settled = some (Classifier.arrange q.config.settled own) := by
  cases hc : Classifier.ofConfig? q.config.settled with
  | none =>
      simp only [resolve, hc] at h
      cases h
  | some c =>
      obtain ⟨own, hown, rfl, -⟩ := Classifier.ofConfig?_eq_some hc
      exact ⟨own, hown, rfl⟩

theorem of_isEmbedded {files : Machine.FileSystem} {root : String} {n : Node} (h : isEmbedded files root n = true) :
    n.kind = .localFile ∧ n.choice = .embed ∧ n.expr = "" ∧ n.path ≠ root ∧
      ∃ e, files.find? n.path = some e ∧ e.isDir = false := by
  simp only [isEmbedded, Bool.and_eq_true, beq_iff_eq, bne_iff_ne, String.isEmpty_iff] at h
  obtain ⟨⟨⟨⟨⟨⟨⟨hkind, hchoice⟩, hexpr⟩, -⟩, hroot⟩, -⟩, -⟩, hfile⟩ := h
  refine ⟨hkind, hchoice, hexpr, hroot, ?_⟩
  cases hfound : files.find? n.path with
  | none => simp [hfound] at hfile
  | some e => exact ⟨e, rfl, by simpa [hfound] using hfile⟩

theorem size_le_of_allowed {c : Config} {s : Subject}
    (h : ∀ rule ∈ Rule.builtIn c, rule.class_ = .runtime → rule.applies s = false) : s.size ≤ c.maxEmbedSize := by
  have hmem : (⟨"oversize", .size, .runtime, fun s => s.size > c.maxEmbedSize⟩ : Rule) ∈ Rule.builtIn c :=
    List.mem_of_getElem? (i := 7) rfl
  simpa using h _ hmem rfl

-- With rules that fail closed, every file in a program is no larger than is allowed and no built-in rule is against it,
-- whatever the script does with it. The files of programs that travel along are there without being asked about.
theorem embeds_allowed (q : Inquiry) (root name : String) (options : Program.Options) (p : Program)
    (ds : List Diagnostic) (hclosed : q.config.failClosed = true)
    (h : generate (resolve q root) q.files name options = .ok (p, ds)) :
    let r := resolve q root
    let c := q.config.settled
    ∀ path content, (path, content) ∈ p.embeds →
      (∃ x ∈ p.externals, x.bundle = true ∧ x.path = path ∧
        Resolve.bundleFile? { q with config := c } (Path.dir r.root) x.name = some path) ∨
      (content.length ≤ c.maxEmbedSize ∧ ∃ u : Usage,
        (∀ x ∈ r.refs, x.isStatic = true → x.paths = [path] → u.Covers x.usage) ∧
        ∀ rule ∈ Rule.builtIn c, rule.class_ = .runtime →
          rule.applies (Subject.of path (Path.dir r.root) true content.length u) = false) := by
  intro r c path content hembed
  obtain ⟨g, hgen⟩ := generated_of_ok h
  obtain ⟨own, hown, hconfig⟩ := exists_classifier hgen.graph
  obtain ⟨g', hgraph, hconcludes⟩ := resolve_concludes q root hconfig
  obtain rfl : g = g' := Option.some.inj (hgen.graph.symm.trans hgraph)
  rw [hgen.embeds, mem_embedsOf] at hembed
  obtain ⟨hdata, ⟨n, hn, hembedded, rfl⟩ | ⟨n, hn, hbinary, hbundle, rfl⟩⟩ := hembed
  · obtain ⟨hkind, hchoice, hexpr, hroot, e, hfound, hfile⟩ := of_isEmbedded hembedded
    have hn := mem_sorted.mp hn
    obtain rfl := data_of_read? hdata hfound
    have hclass := (hconcludes.decided n hn).file hkind hroot hchoice hexpr e hfound hfile
    have hclosed : c.failClosed = true := hclosed
    rw [Classifier.class_classify_arrange hown hclosed] at hclass
    have hallowed : ∀ rule ∈ Rule.builtIn c, rule.class_ = .runtime →
        rule.applies (Subject.of n.path (Path.dir r.root) true e.data.length n.usage) = false := by
      intro rule hrule hruntime
      refine Bool.eq_false_iff.mpr fun happlies => hclass (if_pos ?_)
      exact ⟨rule, List.mem_append_right _ hrule, hruntime, happlies⟩
    refine .inr ⟨size_le_of_allowed hallowed, n.usage, fun x hx hstatic hpaths => ?_, hallowed⟩
    obtain ⟨m, hm, hid, hcovers⟩ := hconcludes.covered x hx
    have hkey : x.key = n.path := by simp [Reference.key, hstatic, hpaths]
    have hsame : m.id = n.id := by rw [hid, hkey, Node.id, hkind]
    rwa [List.inj_on_of_nodup_map hconcludes.once hm hn hsame] at hcovers
  · left
    have hn' := mem_sorted.mp hn
    obtain ⟨htaken, hpath⟩ := externalOf_of_readable hbundle hdata
    refine ⟨externalOf q.files n, ?_, htaken, hpath, ?_⟩
    · rw [hgen.externals, externalsOf]
      exact List.mem_map.mpr ⟨n, List.mem_filter.mpr ⟨hn, by simp [hbinary]⟩, rfl⟩
    · exact (hconcludes.decided n hn').bundled hbinary hbundle

-- The script is among the files that were read, and nothing stands against any of them.
def Compilable (q : Inquiry) (root : String) (c : Classifier) : Prop :=
  ((prepared q root).units.lookup (q.canonical (Path.resolve "/" root))).isSome = true ∧
    Diagnostic.anyFatal (prepared q root).diags = false ∧
    ((prepared q root).units.flatMap fun u =>
      (lowerUnit (resolve q root) (concludedGraph q root c) q.files u).2).any Diagnostic.isFatal = false

instance (q : Inquiry) (root : String) (c : Classifier) : Decidable (Compilable q root c) :=
  inferInstanceAs (Decidable (_ ∧ _ ∧ _))

-- The program of a script whose files can be read and compiled takes along what was decided to be and can be read; the
-- rest is reported.
theorem exists_program (q : Inquiry) (root : String) (c : Classifier)
    (hc : Classifier.ofConfig? q.config.settled = some c) (hcompilable : Compilable q root c) :
    ∃ p ds, generate (resolve q root) q.files "" {} = .ok (p, ds) ∧
      p.embeds = embedsOf q.files (q.canonical (Path.resolve "/" root)) (concludedGraph q root c).sorted ∧
      p.externals = externalsOf q.files (concludedGraph q root c).sorted ∧
      ∀ n ∈ (concludedGraph q root c).sorted, ∀ d, loss? q.files (q.canonical (Path.resolve "/" root)) n = some d → d ∈ ds := by
  obtain ⟨hroot, hsound, hlowered⟩ := hcompilable
  obtain ⟨hpath, -, hunits, -, hgraph, hfatal⟩ := resolve_eq q root c hc
  obtain ⟨f, hf⟩ := Option.isSome_iff_exists.mp hroot
  rw [← hpath, ← hunits] at hf
  have hnotFatal : (resolve q root).isFatal = false := hfatal.trans hsound
  have hdiags : Diagnostic.anyFatal (Diagnostic.sort
      ((concludedGraph q root c).sorted.filterMap (loss? q.files (resolve q root).root) ++
        (lowerUnits (resolve q root) (concludedGraph q root c) q.files).flatMap fun x => x.2.2)) = false := by
    rw [Diagnostic.anyFatal_sort, Diagnostic.anyFatal, List.any_eq_false]
    intro d hd
    rcases List.mem_append.mp hd with hd | hd
    · obtain ⟨n, -, hloss⟩ := List.mem_filterMap.mp hd
      simp [isFatal_of_loss? hloss]
    obtain ⟨x, hx, hdx⟩ := List.mem_flatMap.mp hd
    obtain ⟨u, hu, rfl⟩ := List.mem_map.mp hx
    rw [← hunits, List.any_eq_false] at hlowered
    exact hlowered d (List.mem_flatMap.mpr ⟨u, (List.mem_filter.mp hu).1, hdx⟩)
  simp only [generate, hgraph, hf, hnotFatal, hdiags, Bool.false_eq_true, if_false]
  refine ⟨_, _, rfl, ?_, rfl, fun n hn d hloss => ?_⟩
  · rw [hpath]
  · rw [Diagnostic.sort, List.mem_mergeSort, hpath]
    exact List.mem_append_left _ (List.mem_filterMap.mpr ⟨n, hn, hloss⟩)

-- A configuration file that is only read is taken along.
theorem embeds_allowed_config :
    let q := Inquiry.ofTexts [("/script", "read x < ./a.conf\n"), ("/a.conf", "x=1\n")]
    ∃ p ds, generate (resolve q "/script") q.files "" {} = .ok (p, ds) ∧ ("/a.conf", "x=1\n") ∈ p.embeds ∧
    ∃ u : Usage, (∀ x ∈ (resolve q "/script").refs, x.isStatic = true → x.paths = ["/a.conf"] → u.Covers x.usage) ∧
      ∀ rule ∈ Rule.builtIn q.config.settled, rule.class_ = .runtime →
        rule.applies (Subject.of "/a.conf" (Path.dir (resolve q "/script").root) true "x=1\n".length u) = false := by
  intro q
  let c : Classifier := { rules := Rule.byCategory q.config.settled [], failClosed := true }
  have hc : Classifier.ofConfig? q.config.settled = some c := congrArg some (Classifier.arrange_eq q.config.settled [])
  obtain ⟨hcompilable, hfiles, hnode⟩ : Compilable q "/script" c ∧
      (∀ n ∈ (prepared q "/script").graph.nodes, (concluded q "/script" c n).kind = .localFile) ∧
      ∃ n ∈ (prepared q "/script").graph.nodes,
        isEmbedded q.files (q.canonical (Path.resolve "/" "/script")) (concluded q "/script" c n) = true ∧
          (concluded q "/script" c n).path = "/a.conf" := by decide +kernel
  obtain ⟨p, ds, hgen, hembeds, hexternals, -⟩ := exists_program q "/script" c hc hcompilable
  have hmem : ("/a.conf", "x=1\n") ∈ p.embeds := by
    obtain ⟨n, hn, hembedded⟩ := hnode
    rw [hembeds, mem_embedsOf]
    exact ⟨by decide +kernel, .inl ⟨_, mem_sorted.mpr (mem_concludedGraph.mpr ⟨n, hn, rfl⟩), hembedded⟩⟩
  refine ⟨p, ds, hgen, hmem, ?_⟩
  rcases embeds_allowed q "/script" "" {} p ds rfl hgen _ _ hmem with ⟨x, hx, -⟩ | ⟨-, hallowed⟩
  · rw [hexternals] at hx
    obtain ⟨m, hm, -⟩ := List.mem_map.mp hx
    obtain ⟨hm, hbinary⟩ := List.mem_filter.mp hm
    obtain ⟨n, hn, rfl⟩ := mem_concludedGraph.mp (mem_sorted.mp hm)
    simp [hfiles n hn] at hbinary
  · exact hallowed

-- A program that travels along may be larger than is allowed.
theorem bundled_program_exceeds_limit :
    let q := { Inquiry.ofTexts [("/script", "foo\n"), ("/opt/tools/foo", "12345")] with
      config := { bundleDirs := ["/opt/tools"], maxEmbedSize := 3 } }
    q.config.failClosed = true ∧ ∃ p ds, generate (resolve q "/script") q.files "" {} = .ok (p, ds) ∧
      ∃ path content, (path, content) ∈ p.embeds ∧ q.config.maxEmbedSize < content.length := by
  intro q
  let c : Classifier := Classifier.arrange q.config.settled []
  obtain ⟨hcompilable, n, hn, hbundled⟩ : Compilable q "/script" c ∧
      ∃ n ∈ (prepared q "/script").graph.nodes, (concluded q "/script" c n).kind = .externalBinary ∧
        (concluded q "/script" c n).bundle = true ∧ (concluded q "/script" c n).bundlePath = "/opt/tools/foo" := by
    decide +kernel
  obtain ⟨p, ds, hgen, hembeds, -⟩ := exists_program q "/script" c rfl hcompilable
  refine ⟨rfl, p, ds, hgen, "/opt/tools/foo", "12345", ?_, by decide⟩
  rw [hembeds, mem_embedsOf]
  exact ⟨by decide +kernel, .inr ⟨_, mem_sorted.mpr (mem_concludedGraph.mpr ⟨n, hn, rfl⟩), hbundled⟩⟩

end Project
end ShellScript

-- A program has with it all that its statements need. That a file is never asked to run the script itself follows from
-- the order in which files were followed.
namespace ShellScript

-- What a statement needs is where the program keeps such things.
def Program.Resolves (p : Program) : Program.Link → Prop
  | .content key => key ∈ p.embeds.map Prod.fst
  | .unit path => path ∈ p.units.map Prod.fst
  | .program name number => ∃ x, p.externals[number]? = some x ∧ name = some x.name

namespace Project

open Dependency

-- No file sources the script that a resolution began with.
theorem not_sources_root {q : Inquiry} {root : String} {g : Graph} (hgraph : (resolve q root).graph = some g)
    (h : (resolve q root).failure = none) (a : String) :
    ¬Resolve.Sources q (resolve q root).units a (resolve q root).root := by
  obtain ⟨own, -, hconfig⟩ := exists_classifier hgraph
  obtain ⟨hroot, hunits, -, hfailure, -⟩ := resolve_followed q root (by rw [hconfig]; rfl)
  rw [hroot, hunits]
  refine (walk_followed q root).not_sources_first ?_ a
  rw [h] at hfailure
  exact hfailure.symm

section Plans

variable {q : Inquiry} {c : Classifier} {g : Graph} {r : Resolution} {files : Machine.FileSystem} {p : Program}

-- Whatever is compiled beside the script is one of the program's files.
theorem mem_units_of_compiled (h : Generated r files p g) {path : String} (hpath : path ∈ compiledPaths r g.sorted)
    (hother : path ≠ r.root) : path ∈ p.units.map Prod.fst := by
  have hunit : path ∈ r.units.map Prod.fst := by
    rcases List.mem_cons.mp hpath with rfl | hnode
    · exact absurd rfl hother
    · obtain ⟨n, hn, rfl⟩ := List.mem_map.mp hnode
      have hcompiled := (List.mem_filter.mp hn).2
      simp only [isCompiled, Bool.and_eq_true, List.lookup_isSome_iff, beq_iff_eq] at hcompiled
      obtain ⟨u, hu, hpath⟩ := hcompiled.2
      exact List.mem_map.mpr ⟨u, hu, hpath.symm⟩
  obtain ⟨u, hu, rfl⟩ := List.mem_map.mp hunit
  have hlowered : (u.1, lowerUnit r g files u) ∈ lowerUnits r g files :=
    List.mem_map.mpr ⟨u, List.mem_filter.mpr ⟨hu, by simpa using hpath⟩, rfl⟩
  have hblock : (u.1, (lowerUnit r g files u).1) ∈ p.units := by
    rw [h.units, List.mem_mergeSort, List.mem_filter]
    exact ⟨List.mem_map.mpr ⟨_, hlowered, rfl⟩, by simpa using hother⟩
  exact List.mem_map.mpr ⟨_, hblock, rfl⟩

theorem mem_refs_of_referenceAt? {unit : String} {w : Script.Word} {x : Reference}
    (h : referenceAt? r unit w = some x) : x ∈ r.refs := List.mem_reverse.mp (List.mem_of_find?_eq_some h)

-- The file that a reference to a single path sources is one of those that its own file sources.
theorem sources_of_mem_refs (hg : g.Concludes q c r) {x : Reference} (hx : x ∈ r.refs) (hstatic : x.isStatic = true)
    (hsourced : x.usage.sourced = true) : ∃ a, Resolve.Sources q r.units a x.key := by
  obtain ⟨u, hu, y, hy, rfl⟩ := hg.made x hx
  refine ⟨u.1, u.2, hu, List.mem_flatMap.mpr ⟨y, List.mem_filter.mpr ⟨hy, hsourced⟩, ?_⟩⟩
  obtain ⟨path, hpath⟩ : ∃ path, (y.canonical q).paths = [path] := by
    simp only [Reference.isStatic, Bool.and_eq_true, beq_iff_eq] at hstatic
    exact List.length_eq_one_iff.mp hstatic.2
  have hkey : (y.canonical q).key = path := by simp [Reference.key, hstatic, hpath]
  have hpaths : y.paths.map q.canonical = [path] := hpath
  rw [hkey, hpaths]
  exact List.mem_singleton_self path

-- The plan of each file binds it only to what the program has.
theorem planFor_supplies (h : Generated r files p g) (hg : g.Concludes q c r)
    (hroot : ∀ a, ¬Resolve.Sources q r.units a r.root) (file : String) :
    (planFor r g (embedsOf files r.root g.sorted) (compiledPaths r g.sorted) (externalsOf files g.sorted) file).Supplies
      p.Resolves where
  external name i hi := by
    obtain ⟨hlt, hname, -⟩ := List.findIdx?_eq_some_iff_getElem.mp hi
    refine ⟨(externalsOf files g.sorted)[i], ?_, ?_⟩
    · rw [h.externals]
      exact List.getElem?_eq_getElem hlt
    · rw [beq_iff_eq.mp hname]
  path w key hkey := by
    simp only [planFor, Option.map_eq_some_iff] at hkey
    obtain ⟨⟨x, n⟩, -, hkey⟩ := hkey
    dsimp only at hkey
    split at hkey
    · rename_i hembedded
      obtain rfl := Program.PathUse.embedded.inj hkey
      simp only [Bool.and_eq_true, List.lookup_isSome_iff, beq_iff_eq] at hembedded
      obtain ⟨e, he, hpath⟩ := hembedded.2
      have he : e ∈ p.embeds := h.embeds ▸ he
      exact List.mem_map.mpr ⟨e, he, hpath.symm⟩
    · cases hkey
  unit w path hpath := by
    simp only [planFor, Option.bind_eq_bind, Option.pure_def, Option.bind_eq_some_iff, Option.some.injEq] at hpath
    obtain ⟨_, ⟨x, hx, n, hn, rfl⟩, hpath⟩ := hpath
    dsimp only at hpath
    split at hpath
    · rename_i hcompiled
      obtain rfl := Option.some.inj hpath
      simp only [Bool.and_eq_true, List.contains_iff_mem] at hcompiled
      obtain ⟨⟨hstatic, hsourced⟩, hcompiled⟩ := hcompiled
      have hkey : n.path = x.key := by
        have hid := List.find?_some hn
        simp only [Bool.and_eq_true, beq_iff_eq] at hid
        exact hid.2
      obtain ⟨a, hsources⟩ := sources_of_mem_refs hg (mem_refs_of_referenceAt? hx) hstatic hsourced
      exact mem_units_of_compiled h hcompiled fun hsame => hroot a (by rwa [← hsame, hkey])
    · cases hpath

end Plans

section Externals

variable {q : Inquiry} {c : Classifier} {g : Graph} {r : Resolution}

-- Programs are told apart by their names.
theorem nodup_externals (files : Machine.FileSystem) (hg : g.Concludes q c r) : ((externalsOf files g.sorted).map External.name).Nodup := by
  have hnames : (externalsOf files g.sorted).map External.name =
      (g.sorted.filter (·.kind == .externalBinary)).map (·.path) := by
    rw [externalsOf, List.map_map]
    rfl
  have honce : (g.sorted.map Node.id).Nodup := ((List.mergeSort_perm _ _).map Node.id).nodup_iff.mpr hg.once
  have hbinaries : ((g.sorted.filter (·.kind == .externalBinary)).map Node.id).Nodup :=
    honce.sublist (List.filter_sublist.map _)
  rw [hnames]
  refine List.Nodup.of_map (fun path => (Kind.externalBinary, path)) ?_
  rw [List.map_map]
  convert hbinaries using 1
  refine List.map_congr_left fun n hn => ?_
  have hkind : n.kind = .externalBinary := by simpa using (List.mem_filter.mp hn).2
  simp [Node.id, hkind]

end Externals

-- A generated program is closed: whatever its statements need is there, at any depth. Calls are bound to programs by
-- name, no two of which have the same, and the content of those that travel along is there too. All that is there was
-- read; a file that cannot be read is not counted among what travels along.
theorem generated_program_closed (q : Inquiry) (root name : String) (options : Program.Options) (p : Program)
    (ds : List Diagnostic) (hresolved : (resolve q root).failure = none)
    (h : generate (resolve q root) q.files name options = .ok (p, ds)) :
    (∀ l ∈ p.main.links, p.Resolves l) ∧
    (∀ u ∈ p.units, ∀ l ∈ u.2.links, p.Resolves l) ∧
    (p.externals.map External.name).Nodup ∧
    (∀ x ∈ p.externals, x.bundle = true → x.path ∈ p.embeds.map Prod.fst) ∧
    ∀ path content, (path, content) ∈ p.embeds → q.files.read? path = .ok content := by
  obtain ⟨g, hgen⟩ := generated_of_ok h
  obtain ⟨own, -, hconfig⟩ := exists_classifier hgen.graph
  obtain ⟨g', hgraph, hconcludes⟩ := resolve_concludes q root hconfig
  obtain rfl : g = g' := Option.some.inj (hgen.graph.symm.trans hgraph)
  have hroot := not_sources_root hgen.graph hresolved
  have hlowered : ∀ x ∈ lowerUnits (resolve q root) g q.files, Program.Only p.Resolves x.2.1.links := by
    intro x hx
    have hsound := hgen.sound x hx
    obtain ⟨u, -, rfl⟩ := List.mem_map.mp hx
    exact Program.only_lowerScript (planFor_supplies hgen hconcludes hroot u.1) hsound
  have hblocks : ∀ u ∈ (lowerUnits (resolve q root) g q.files).map fun x => (x.1, x.2.1),
      Program.Only p.Resolves u.2.links := by
    intro u hu
    obtain ⟨x, hx, rfl⟩ := List.mem_map.mp hu
    exact hlowered x hx
  refine ⟨?_, fun u hu => ?_, ?_, fun x hx hbundle => ?_, fun path content hembed => ?_⟩
  · rw [hgen.main]
    cases hfound : ((lowerUnits (resolve q root) g q.files).map fun x => (x.1, x.2.1)).lookup (resolve q root).root with
    | none => exact Program.Only.nil
    | some b =>
        obtain ⟨before, after, heq, -⟩ := List.lookup_eq_some_iff.mp hfound
        exact hblocks ((resolve q root).root, b) (by simp [heq])
  · rw [hgen.units, List.mem_mergeSort] at hu
    exact hblocks u (List.mem_filter.mp hu).1
  · rw [hgen.externals]
    exact nodup_externals q.files hconcludes
  · rw [hgen.externals] at hx
    obtain ⟨n, hn, rfl⟩ := List.mem_map.mp hx
    obtain ⟨hn, hbinary⟩ := List.mem_filter.mp hn
    obtain ⟨htaken, hreadable⟩ : n.bundle = true ∧ isReadable q.files n.bundlePath = true := by
      simpa [externalOf] using hbundle
    obtain ⟨data, hdata⟩ := Option.isSome_iff_exists.mp hreadable
    have hdata := toOption_eq_some.mp hdata
    have hembed : (n.bundlePath, data) ∈ p.embeds := by
      rw [hgen.embeds, mem_embedsOf]
      exact ⟨hdata, .inr ⟨n, hn, by simpa using hbinary, htaken, rfl⟩⟩
    rw [(externalOf_of_readable htaken hdata).2]
    exact List.mem_map.mpr ⟨_, hembed, rfl⟩
  · rw [hgen.embeds, mem_embedsOf] at hembed
    exact hembed.1

-- A script with a file that it reads and two programs that were chosen to travel along, of which one cannot be read.
theorem generated_program_closed_bundle :
    let q : Inquiry := {
      files := { entries := [("/script", { isDir := false, data := "foo < ./a.conf\nbar\n", mode := 0o644 }),
        ("/a.conf", { isDir := false, data := "x=1\n", mode := 0o644 }),
        ("/opt/tools/foo", { isDir := false, data := "12345", mode := 0o755 }),
        ("/opt/tools/bar", { isDir := false, mode := 0, fault := some (.opening "open /opt/tools/bar: permission denied") })] }
      config := { bundleDirs := ["/opt/tools"] } }
    (resolve q "/script").failure = none ∧ ∃ p ds, generate (resolve q "/script") q.files "" {} = .ok (p, ds) ∧
      (∀ l ∈ p.main.links, p.Resolves l) ∧
      (∃ x ∈ p.externals, x.name = "foo" ∧ x.bundle = true ∧ x.path ∈ p.embeds.map Prod.fst) ∧
      (∃ x ∈ p.externals, x.name = "bar" ∧ x.bundle = false) ∧ (∀ content, ("/opt/tools/bar", content) ∉ p.embeds) ∧
      ∃ d ∈ ds, d.kind = .missingReference ∧
        d.message = "cannot bundle bar: open /opt/tools/bar: permission denied; it runs from PATH" := by
  intro q
  let c : Classifier := { rules := Rule.byCategory q.config.settled [], failClosed := true }
  have hc : Classifier.ofConfig? q.config.settled = some c := congrArg some (Classifier.arrange_eq q.config.settled [])
  obtain ⟨hcompilable, hnone, ⟨foo, hfoo, hprogram, hname, htaken⟩, bar, hbar, hprogram', hname', hleft, hloss⟩ :
      Compilable q "/script" c ∧ (prepared q "/script").failure.isNone = true ∧
      (∃ n ∈ (prepared q "/script").graph.nodes, (concluded q "/script" c n).kind = .externalBinary ∧
        (concluded q "/script" c n).path = "foo" ∧ (externalOf q.files (concluded q "/script" c n)).bundle = true) ∧
      ∃ n ∈ (prepared q "/script").graph.nodes, (concluded q "/script" c n).kind = .externalBinary ∧
        (concluded q "/script" c n).path = "bar" ∧ (externalOf q.files (concluded q "/script" c n)).bundle = false ∧
        (loss? q.files (q.canonical (Path.resolve "/" "/script")) (concluded q "/script" c n)).map
            (fun d => (d.kind, d.message)) =
          some (.missingReference, "cannot bundle bar: open /opt/tools/bar: permission denied; it runs from PATH") := by
    decide +kernel
  obtain ⟨p, ds, hgen, -, hexternals, hlost⟩ := exists_program q "/script" c hc hcompilable
  have hresolved : (resolve q "/script").failure = none := by
    obtain ⟨-, -, -, hfailure, -⟩ := resolve_eq q "/script" c hc
    rw [hfailure]
    exact Option.isNone_iff_eq_none.mp hnone
  obtain ⟨hmain, -, -, hbundled, hread⟩ := generated_program_closed q "/script" "" {} p ds hresolved hgen
  have hmem (n : Node) (hn : n ∈ (prepared q "/script").graph.nodes)
      (hbinary : (concluded q "/script" c n).kind = .externalBinary) :
      externalOf q.files (concluded q "/script" c n) ∈ p.externals := by
    rw [hexternals, externalsOf]
    refine List.mem_map.mpr ⟨_, List.mem_filter.mpr ⟨mem_sorted.mpr (mem_concludedGraph.mpr ⟨n, hn, rfl⟩), ?_⟩, rfl⟩
    simp [hbinary]
  obtain ⟨d, hd, hsays⟩ := Option.map_eq_some_iff.mp hloss
  obtain ⟨hkind, hmessage⟩ := Prod.mk.inj hsays
  refine ⟨hresolved, p, ds, hgen, hmain, ⟨_, hmem foo hfoo hprogram, hname, htaken, hbundled _ (hmem foo hfoo hprogram) htaken⟩,
    ⟨_, hmem bar hbar hprogram', hname', hleft⟩, fun content hin => ?_,
    ⟨d, hlost _ (mem_sorted.mpr (mem_concludedGraph.mpr ⟨bar, hbar, rfl⟩)) d hd, hkind, hmessage⟩⟩
  have hcontent := hread _ _ hin
  cases hcontent

end Project
end ShellScript

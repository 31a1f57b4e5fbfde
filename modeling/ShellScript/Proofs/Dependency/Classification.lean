import Mathlib.Data.List.Dedup
import Mathlib.Data.List.Forall2
import ShellScript.Dependency.Rule

-- What rules make of a file. Where a rule against embedding always has the last word, the order of the rules does not
-- matter; otherwise the first rule that applies decides, and the order is that of the categories.
namespace ShellScript
namespace Dependency

section Order

variable {α κ : Type} [BEq κ] [LawfulBEq κ] {key : α → κ}

-- Sorting by the place of a key keeps the elements of one key as they are.
theorem filter_mergeSort_idxOf (ks : List κ) (l : List α) (k : κ) :
    (l.mergeSort fun a b => ks.idxOf (key a) ≤ ks.idxOf (key b)).filter (key · == k) = l.filter (key · == k) := by
  have hsub : (l.filter (key · == k)).Sublist (l.mergeSort fun a b => ks.idxOf (key a) ≤ ks.idxOf (key b)) := by
    refine List.sublist_mergeSort ?_ ?_ ?_ List.filter_sublist
    · intro a b c hab hbc
      simp only [decide_eq_true_eq] at hab hbc ⊢
      omega
    · intro a b
      simp only [Bool.or_eq_true, decide_eq_true_eq]
      omega
    · refine List.pairwise_of_forall_mem_list fun a ha b hb => ?_
      have hka : key a = k := by simpa using (List.mem_filter.mp ha).2
      have hkb : key b = k := by simpa using (List.mem_filter.mp hb).2
      simp [hka, hkb]
  have hfilter := hsub.filter (key · == k)
  simp only [List.filter_filter, Bool.and_self] at hfilter
  exact (hfilter.eq_of_length ((List.mergeSort_perm l _).filter _).length_eq.symm).symm

theorem eq_filter_append_filter {p : α → Bool} {l : List α} (h : l.Pairwise fun a b => p b = true → p a = true) :
    l = l.filter p ++ l.filter fun a => !p a := by
  induction h with
  | nil => rfl
  | @cons a l hfirst _ ih =>
      cases ha : p a with
      | true => rw [List.filter_cons_of_pos ha, List.filter_cons_of_neg (by simp [ha]), List.cons_append, ← ih]
      | false =>
          have hnone : ∀ b ∈ l, p b = false := fun b hb =>
            Bool.eq_false_iff.mpr fun hpb => Bool.eq_false_iff.mp ha (hfirst b hb hpb)
          have hfilter : l.filter p = [] := List.filter_eq_nil_iff.mpr fun b hb => by simp [hnone b hb]
          have hrest : (l.filter fun a => !p a) = l := List.filter_eq_self.mpr fun b hb => by simp [hnone b hb]
          rw [List.filter_cons_of_neg (by simp [ha]), List.filter_cons_of_pos (by simp [ha]), hfilter, hrest,
            List.nil_append]

-- A list that is in the order of its keys consists of the elements of one key after the other.
theorem eq_flatMap_filter {ks : List κ} (hks : ks.Nodup) : ∀ {l : List α}, (∀ a ∈ l, key a ∈ ks) →
    l.Pairwise (fun a b => ks.idxOf (key a) ≤ ks.idxOf (key b)) → l = ks.flatMap fun k => l.filter (key · == k) := by
  induction ks with
  | nil =>
      intro l hmem _
      exact List.eq_nil_iff_forall_not_mem.mpr fun a ha => nomatch hmem a ha
  | cons k ks ih =>
      intro l hmem hsorted
      obtain ⟨hk, hks⟩ := List.nodup_cons.mp hks
      let rest := l.filter fun a => !(key a == k)
      have hsplit : l = l.filter (key · == k) ++ rest := by
        refine eq_filter_append_filter (hsorted.imp fun {a b} hab hkb => ?_)
        have hplace : (k :: ks).idxOf (key a) = 0 := by
          rw [eq_of_beq hkb, List.idxOf_cons_self] at hab
          omega
        by_contra hka
        rw [List.idxOf_cons_ne _ fun heq => hka (by simp [heq])] at hplace
        omega
      have hne : ∀ a ∈ rest, key a ≠ k := fun a ha => by simpa using (List.mem_filter.mp ha).2
      have hrest : rest = ks.flatMap fun k' => rest.filter (key · == k') := by
        refine ih hks (fun a ha => ?_) ?_
        · rcases List.mem_cons.mp (hmem a (List.mem_filter.mp ha).1) with heq | hin
          · exact absurd heq (hne a ha)
          · exact hin
        · refine (hsorted.sublist List.filter_sublist).imp_of_mem fun {a b} ha hb hab => ?_
          rw [List.idxOf_cons_ne _ (hne a ha).symm, List.idxOf_cons_ne _ (hne b hb).symm] at hab
          omega
      have hother : ∀ k' ∈ ks, rest.filter (key · == k') = l.filter (key · == k') := by
        intro k' hk'
        rw [List.filter_filter]
        refine List.filter_congr fun a _ => ?_
        by_cases heq : key a = k'
        · have hkk' : k' ≠ k := fun h => hk (h ▸ hk')
          simp [heq, hkk']
        · simp [heq]
      rw [List.flatMap_cons, ← List.flatMap_congr hother, ← hrest]
      exact hsplit

theorem mergeSort_idxOf {ks : List κ} (hks : ks.Nodup) {l : List α} (hmem : ∀ a ∈ l, key a ∈ ks) :
    (l.mergeSort fun a b => ks.idxOf (key a) ≤ ks.idxOf (key b)) = ks.flatMap fun k => l.filter (key · == k) := by
  have hsorted : (l.mergeSort fun a b => ks.idxOf (key a) ≤ ks.idxOf (key b)).Pairwise
      fun a b => ks.idxOf (key a) ≤ ks.idxOf (key b) := by
    have hle : (l.mergeSort fun a b => ks.idxOf (key a) ≤ ks.idxOf (key b)).Pairwise
        fun a b => decide (ks.idxOf (key a) ≤ ks.idxOf (key b)) = true := by
      refine List.pairwise_mergeSort (fun a b c hab hbc => ?_) (fun a b => ?_) l
      · simp only [decide_eq_true_eq] at hab hbc ⊢
        omega
      · simp only [Bool.or_eq_true, decide_eq_true_eq]
        omega
    simpa using hle
  rw [eq_flatMap_filter hks (fun a ha => hmem a (List.mem_mergeSort.mp ha)) hsorted]
  exact List.flatMap_congr fun k _ => filter_mergeSort_idxOf ks l k

end Order

namespace Category

theorem nodup_eraseDups {α : Type} [BEq α] [LawfulBEq α] (l : List α) : l.eraseDups.Nodup := by
  induction hn : l.length using Nat.strongRecOn generalizing l with
  | _ n ih =>
      cases l with
      | nil => simp
      | cons a l =>
          have hlt : (l.filter fun b => !b == a).length < n := by
            have hle := List.length_filter_le (fun b => !b == a) l
            simp only [List.length_cons] at hn
            omega
          rw [List.eraseDups_cons, List.nodup_cons]
          exact ⟨by simp [List.mem_eraseDups], ih _ hlt _ rfl⟩

theorem nodup_ordered (listed : List Category) : (ordered listed).Nodup := nodup_eraseDups _

theorem mem_ordered (listed : List Category) (k : Category) : k ∈ ordered listed := by
  refine List.mem_eraseDups.mpr (List.mem_append_right _ ?_)
  cases k <;> decide

end Category

namespace Rule

-- A rule says either that a file is embedded or that it is not.
def Decides (r : Rule) : Prop := r.class_ = .embed ∨ r.class_ = .runtime

theorem decides_builtIn (c : Config) : ∀ r ∈ builtIn c, r.Decides := by simp [builtIn, Decides]

-- The rules of one category after those of another, in each a configuration's own before the others.
def byCategory (c : Config) (own : List Rule) : List Rule :=
  (Category.ordered c.precedence).flatMap fun k =>
    own.filter (·.category == k) ++ (builtIn c).filter (·.category == k)

end Rule

theorem RuleSpec.compile?_eq_some {spec : RuleSpec} {r : Rule} (h : spec.compile? = some r) :
    r.Decides ∧ r.name = spec.name ∧ r.category = spec.category ∧ r.class_ = spec.class_ := by
  unfold compile? at h
  split at h
  · cases h
  · next hclass =>
      obtain ⟨applies, _, rfl⟩ := Option.map_eq_some_iff.mp h
      refine ⟨?_, rfl, rfl, rfl⟩
      by_cases hembed : spec.class_ = .embed
      · exact .inl hembed
      · exact .inr (by simpa [hembed] using hclass)

-- The verdict of the rule that is found, if one is.
def Verdict.ofRule? : Option Rule → Verdict
  | none => { class_ := .unresolved }
  | some r => { class_ := r.class_, rule := r.name }

namespace Classifier

variable {rules own : List Rule} {c : Config} {k : Classifier} {s : Subject}

theorem arrange_eq (c : Config) (own : List Rule) :
    arrange c own = { rules := Rule.byCategory c own, failClosed := c.failClosed } := by
  have hmem : ∀ r ∈ own ++ Rule.builtIn c, r.category ∈ Category.ordered c.precedence := fun r _ =>
    Category.mem_ordered c.precedence r.category
  have hrules : (arrange c own).rules = Rule.byCategory c own := by
    refine (mergeSort_idxOf (Category.nodup_ordered c.precedence) hmem).trans ?_
    simp only [Rule.byCategory, List.filter_append]
  rw [← hrules]
  rfl

theorem mem_rules_arrange {r : Rule} : r ∈ (arrange c own).rules ↔ r ∈ own ++ Rule.builtIn c :=
  List.mem_mergeSort

theorem ofConfig?_eq_some (h : ofConfig? c = some k) :
    ∃ own, (∀ r ∈ own, r.Decides) ∧ k = arrange c own ∧
      List.Forall₂ (fun spec r => r.name = spec.name ∧ r.category = spec.category ∧ r.class_ = spec.class_)
        c.rules own := by
  obtain ⟨own, hown, rfl⟩ := Option.map_eq_some_iff.mp h
  suffices hall : (∀ r ∈ own, r.Decides) ∧ List.Forall₂
      (fun spec r => r.name = spec.name ∧ r.category = spec.category ∧ r.class_ = spec.class_) c.rules own from
    ⟨own, hall.1, rfl, hall.2⟩
  clear h
  generalize c.rules = specs at hown ⊢
  induction specs generalizing own with
  | nil =>
      obtain rfl : [] = own := by simpa using hown
      simp
  | cons spec specs ih =>
      simp only [List.mapM_cons, Option.bind_eq_bind, Option.bind_eq_some_iff, Option.pure_def,
        Option.some.injEq] at hown
      obtain ⟨r, hr, rest, hrest, rfl⟩ := hown
      obtain ⟨hdecides, hsame⟩ := RuleSpec.compile?_eq_some hr
      obtain ⟨hall, hforall⟩ := ih rest hrest
      exact ⟨List.forall_mem_cons.mpr ⟨hdecides, hall⟩, .cons hsame hforall⟩

-- A rule for embedding is passed over for a later one against it, so only whether there is one counts.
theorem class_classifyBy_true (h : ∀ r ∈ rules, r.Decides) :
    (classifyBy true s rules).class_ =
      if rules.any (fun r => r.class_ == .runtime && r.applies s) then .runtime
      else if rules.any (·.applies s) then .embed else .unresolved := by
  induction rules with
  | nil => rfl
  | cons r rules ih =>
      obtain ⟨hr, hrules⟩ := List.forall_mem_cons.mp h
      cases happ : r.applies s with
      | false => simp [classifyBy, happ, ih hrules]
      | true =>
          rcases hr with hembed | hruntime
          · cases hfind : rules.find? fun l => l.class_ == .runtime && l.applies s with
            | none =>
                have hany : rules.any (fun l => l.class_ == .runtime && l.applies s) = false := by
                  simpa using List.find?_eq_none.mp hfind
                simp [classifyBy, happ, hembed, hfind, hany]
            | some l =>
                have hany : rules.any (fun l => l.class_ == .runtime && l.applies s) = true :=
                  List.any_eq_true.mpr ⟨l, List.mem_of_find?_eq_some hfind, by simpa using List.find?_some hfind⟩
                simp [classifyBy, happ, hembed, hfind, hany]
          · simp [classifyBy, happ, hruntime]

theorem classifyBy_false (s : Subject) (rules : List Rule) :
    classifyBy false s rules = Verdict.ofRule? (rules.find? (·.applies s)) := by
  induction rules with
  | nil => rfl
  | cons r rules ih => cases happ : r.applies s <;> simp [classifyBy, happ, ih, Verdict.ofRule?]

theorem class_classify_arrange (hown : ∀ r ∈ own, r.Decides) (hclosed : c.failClosed = true) (s : Subject) :
    ((arrange c own).classify s).class_ =
      if ∃ r ∈ own ++ Rule.builtIn c, r.class_ = .runtime ∧ r.applies s = true then .runtime
      else if ∃ r ∈ own ++ Rule.builtIn c, r.applies s = true then .embed else .unresolved := by
  have hdecides : ∀ r ∈ (arrange c own).rules, r.Decides := by
    intro r hr
    rcases List.mem_append.mp (mem_rules_arrange.mp hr) with hr | hr
    · exact hown r hr
    · exact Rule.decides_builtIn c r hr
  have hfail : (arrange c own).failClosed = true := hclosed
  rw [classify, hfail, class_classifyBy_true hdecides]
  simp only [List.any_eq_true, mem_rules_arrange, Bool.and_eq_true, beq_iff_eq]

-- Where a rule against embedding has the last word, it does not matter in which order the rules come.
theorem classify_eq_iff (hown : ∀ r ∈ own, r.Decides) (hclosed : c.failClosed = true) (s : Subject) :
    let rules := own ++ Rule.builtIn c
    let class_ := ((arrange c own).classify s).class_
    (class_ = .runtime ↔ ∃ r ∈ rules, r.class_ = .runtime ∧ r.applies s = true) ∧
      (class_ = .embed ↔ (∃ r ∈ rules, r.class_ = .embed ∧ r.applies s = true) ∧
        ∀ r ∈ rules, r.class_ = .runtime → r.applies s = false) ∧
      (class_ = .unresolved ↔ ∀ r ∈ rules, r.applies s = false) := by
  intro rules class_
  have hclass : class_ = _ := class_classify_arrange hown hclosed s
  have hdecides : ∀ r ∈ rules, r.Decides := fun r hr =>
    (List.mem_append.mp hr).elim (hown r) (Rule.decides_builtIn c r)
  by_cases hruntime : ∃ r ∈ rules, r.class_ = .runtime ∧ r.applies s = true
  · rw [if_pos hruntime] at hclass
    obtain ⟨r, hr, hrclass, happ⟩ := hruntime
    refine ⟨⟨fun _ => ⟨r, hr, hrclass, happ⟩, fun _ => hclass⟩, ⟨?_, ?_⟩, ⟨?_, ?_⟩⟩
    · simp [hclass]
    · intro h
      simp [h.2 r hr hrclass] at happ
    · simp [hclass]
    · intro h
      simp [h r hr] at happ
  · rw [if_neg hruntime] at hclass
    have hnone : ∀ r ∈ rules, r.class_ = .runtime → r.applies s = false := fun r hr hrclass =>
      Bool.eq_false_iff.mpr fun happ => hruntime ⟨r, hr, hrclass, happ⟩
    by_cases happlies : ∃ r ∈ rules, r.applies s = true
    · rw [if_pos happlies] at hclass
      obtain ⟨r, hr, happ⟩ := happlies
      have hembed : r.class_ = .embed := (hdecides r hr).resolve_right fun hrclass =>
        hruntime ⟨r, hr, hrclass, happ⟩
      refine ⟨by simp [hclass, hruntime], ⟨fun _ => ⟨⟨r, hr, hembed, happ⟩, hnone⟩, fun _ => hclass⟩, ⟨?_, ?_⟩⟩
      · simp [hclass]
      · intro h
        simp [h r hr] at happ
    · rw [if_neg happlies] at hclass
      refine ⟨by simp [hclass, hruntime], ⟨by simp [hclass], ?_⟩, ⟨fun _ r hr => ?_, fun _ => hclass⟩⟩
      · rintro ⟨⟨r, hr, -, happ⟩, -⟩
        exact absurd ⟨r, hr, happ⟩ happlies
      · exact Bool.eq_false_iff.mpr fun happ => happlies ⟨r, hr, happ⟩

theorem classify_eq_first (hopen : c.failClosed = false) (own : List Rule) (s : Subject) :
    (arrange c own).classify s = Verdict.ofRule? ((Rule.byCategory c own).find? (·.applies s)) := by
  rw [arrange_eq, classify, hopen, classifyBy_false]

-- What a configuration's classifier answers. Its own rules may look at anything: of a condition nothing is used but
-- that it holds of a subject or does not.
theorem classify_characterized (c : Config) :
    (∀ k, ofConfig? c = some k → ∃ own, (∀ r ∈ own, r.Decides) ∧ k = arrange c own ∧
      List.Forall₂ (fun spec r => r.name = spec.name ∧ r.category = spec.category ∧ r.class_ = spec.class_)
        c.rules own) ∧
    ∀ own : List Rule, (∀ r ∈ own, r.Decides) → ∀ s : Subject,
      let rules := own ++ Rule.builtIn c
      let verdict := (arrange c own).classify s
      (c.failClosed = true →
        (verdict.class_ = .runtime ↔ ∃ r ∈ rules, r.class_ = .runtime ∧ r.applies s = true) ∧
          (verdict.class_ = .embed ↔ (∃ r ∈ rules, r.class_ = .embed ∧ r.applies s = true) ∧
            ∀ r ∈ rules, r.class_ = .runtime → r.applies s = false) ∧
          (verdict.class_ = .unresolved ↔ ∀ r ∈ rules, r.applies s = false)) ∧
      (c.failClosed = false → verdict = Verdict.ofRule? ((Rule.byCategory c own).find? (·.applies s))) := by
  refine ⟨fun k hk => ofConfig?_eq_some hk, fun own hown s => ⟨fun hclosed => ?_, fun hopen => ?_⟩⟩
  · exact classify_eq_iff hown hclosed s
  · exact classify_eq_first hopen own s

-- A note below the script is embedded by the rule on its extension, unless a configuration's own rule, even one of the
-- last category, is against it.
theorem classify_characterized_note :
    let own : List Rule := [⟨"drafts", .context, .runtime, fun s => Text.containsText s.base "draft"⟩]
    let draft := Subject.of "/proj/draft.md" "/proj" true 5 {}
    ((arrange { precedence := [.static] } own).classify draft).class_ = .runtime ∧
      ((arrange { precedence := [.static], failClosed := false } own).classify draft).class_ = .embed := by
  intro own draft
  have hown : ∀ r ∈ own, r.Decides := by simp [own, Rule.Decides]
  constructor
  · refine (((classify_characterized { precedence := [.static] }).2 own hown draft).1 rfl).1.mpr ?_
    exact ⟨_, List.mem_append_left _ (List.mem_singleton_self _), rfl, by decide +kernel⟩
  · rw [((classify_characterized { precedence := [.static], failClosed := false }).2 own hown draft).2 rfl]
    decide +kernel

end Classifier
end Dependency
end ShellScript

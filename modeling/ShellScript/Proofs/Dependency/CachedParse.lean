import ShellScript.Dependency.ParseCache
import ShellScript.Proofs.Text.Order

-- What a cache of parsed files answers after any number of calls. It tells texts apart by a key of their names and
-- contents, so it answers with the file of the first call, since it was emptied, that has the same key.
namespace ShellScript

namespace Dependency

namespace CacheKey

theorem of_swap (name src : String) : of name src = of src name := by
  unfold of
  by_cases h : name = src
  · rw [h]
  · have hname : (name == src) = false := beq_eq_false_iff_ne.mpr h
    have hsrc : (src == name) = false := beq_eq_false_iff_ne.mpr (Ne.symm h)
    simp only [hname, hsrc, Bool.false_eq_true, if_false]
    cases hle : Text.le name src with
    | false => simp [Text.le_of_not_le hle]
    | true =>
        have hge : Text.le src name = false := by
          cases hge : Text.le src name with
          | false => rfl
          | true => exact absurd (Text.le_antisymm hle hge) h
        simp [hge]

theorem of_self (name : String) : of name name = .same := by simp [of]

-- The key of a text that differs from its name is the two of them in one of their orders.
theorem of_of_ne {name src : String} (h : name ≠ src) : of name src = .pair name src ∨ of name src = .pair src name := by
  unfold of
  rw [if_neg (by simpa using h)]
  cases Text.le name src <;> simp

-- The only texts that are taken for one another are those whose name and content are exchanged, and those that are
-- called what they contain.
theorem of_eq_iff {name src name' src' : String} : of name src = of name' src' ↔
    (name = name' ∧ src = src') ∨ (name = src' ∧ src = name') ∨ (name = src ∧ name' = src') := by
  constructor
  · intro h
    by_cases hsame : name = src <;> by_cases hsame' : name' = src'
    · exact .inr (.inr ⟨hsame, hsame'⟩)
    · rw [hsame, of_self] at h
      rcases of_of_ne hsame' with h' | h' <;> rw [h'] at h <;> cases h
    · rw [hsame', of_self] at h
      rcases of_of_ne hsame with h' | h' <;> rw [h'] at h <;> cases h
    · rcases of_of_ne hsame with hkey | hkey <;> rcases of_of_ne hsame' with hkey' | hkey' <;> rw [hkey, hkey'] at h <;>
        cases h
      · exact .inl ⟨rfl, rfl⟩
      · exact .inr (.inl ⟨rfl, rfl⟩)
      · exact .inr (.inl ⟨rfl, rfl⟩)
      · exact .inl ⟨rfl, rfl⟩
  · rintro (⟨rfl, rfl⟩ | ⟨rfl, rfl⟩ | ⟨rfl, rfl⟩)
    · rfl
    · exact of_swap name src
    · rw [of_self, of_self]

end CacheKey

-- A text that is to be parsed under a name, in a dialect that may be asked for.
structure ParseCall where
  dialect : Option Dialect
  name : String
  src : String

-- What parsing gives without a cache.
def ParseCall.file (c : ParseCall) : Script.File := Script.read c.dialect c.name c.src

-- What is done with a cache.
inductive CacheAction where
  | parse (call : ParseCall)
  | clear

namespace ParseCache

-- The key that two digests give, combined by exclusive or.
def digestKey (digest : String → UInt64) (name src : String) : UInt64 := digest src ^^^ digest name

variable {κ : Type} [DecidableEq κ] (key : String → String → κ)

def act (c : ParseCache κ) : CacheAction → ParseCache κ
  | .parse call => (c.readBy key call.dialect call.name call.src).2.2
  | .clear => {}

def run (c : ParseCache κ) : List CacheAction → ParseCache κ
  | [] => c
  | a :: as => run (act key c a) as

-- The calls since the cache was last emptied, after those of `calls`.
def pending (calls : List ParseCall) : List CacheAction → List ParseCall
  | [] => calls
  | .parse call :: as => pending (calls ++ [call]) as
  | .clear :: as => pending [] as

-- Whether the key does not tell two calls apart.
def alike (call other : ParseCall) : Bool := key other.name other.src == key call.name call.src

-- What a call is answered after other actions.
def answer (actions : List CacheAction) (call : ParseCall) : Script.File :=
  ((run key {} actions).readBy key call.dialect call.name call.src).1

-- The cache is of no consequence.
def Transparent : Prop := ∀ (actions : List CacheAction) (call : ParseCall), answer key actions call = call.file

variable {key}

-- The cache holds the file of the first of these calls for each key.
def Holds (key : String → String → κ) (c : ParseCache κ) (calls : List ParseCall) : Prop :=
  ∀ k, c.files.lookup k = (calls.find? fun call => key call.name call.src == k).map ParseCall.file

theorem Holds.empty : Holds key {} [] := fun _ => rfl

theorem Holds.parse {c : ParseCache κ} {calls : List ParseCall} (h : Holds key c calls) (call : ParseCall) :
    Holds key (act key c (.parse call)) (calls ++ [call]) := by
  intro k
  rw [List.find?_append]
  cases hfound : calls.find? fun other => key other.name other.src == key call.name call.src with
  | some other =>
      -- the key is known, and with it the file
      have hlookup : c.files.lookup (key call.name call.src) = some other.file := by rw [h, hfound]; rfl
      have hact : act key c (.parse call) = c := by simp [act, readBy, hlookup]
      rw [hact, h]
      by_cases hk : key call.name call.src = k
      · rw [← hk, hfound]
        rfl
      · simp [hk]
  | none =>
      have hlookup : c.files.lookup (key call.name call.src) = none := by rw [h, hfound]; rfl
      have hact : (act key c (.parse call)).files = (key call.name call.src, call.file) :: c.files := by
        simp [act, readBy, hlookup, ParseCall.file]
      rw [hact, List.lookup_cons]
      by_cases hk : k = key call.name call.src
      · subst hk
        simp [hfound]
      · have hne : (k == key call.name call.src) = false := beq_eq_false_iff_ne.mpr hk
        simp [hne, Ne.symm hk, h k]

theorem Holds.run {actions : List CacheAction} : ∀ {c : ParseCache κ} {calls : List ParseCall}, Holds key c calls →
    Holds key (run key c actions) (pending calls actions) := by
  induction actions with
  | nil => exact fun h => h
  | cons a as ih =>
      intro c calls h
      cases a with
      | parse call => exact ih (h.parse call)
      | clear => exact ih Holds.empty

theorem answer_eq (actions : List CacheAction) (call : ParseCall) :
    answer key actions call = (((pending [] actions).find? (alike key call)).getD call).file := by
  have hholds : Holds key (run key {} actions) (pending [] actions) := Holds.empty.run
  unfold answer readBy alike
  rw [hholds]
  cases (pending [] actions).find? fun other => key other.name other.src == key call.name call.src <;> rfl

theorem transparent_iff :
    Transparent key ↔ ∀ x y : ParseCall, key x.name x.src = key y.name y.src → x.file = y.file := by
  constructor
  · intro h x y hkey
    have hanswer : answer key [.parse x] y = _ := answer_eq [.parse x] y
    have hfound : (pending [] [.parse x]).find? (alike key y) = some x := by simp [pending, alike, hkey]
    rw [hfound, h] at hanswer
    exact hanswer.symm
  · intro h actions call
    rw [answer_eq]
    cases hfound : (pending [] actions).find? (alike key call) with
    | none => rfl
    | some other => exact h other call (by simpa [alike] using List.find?_some hfound)

-- A call is answered with the file of the first call of the same key since the cache was emptied, its own if there is
-- none, whatever the key. So the cache is of no consequence just when the key determines the file. A key of digests that
-- never collide takes texts for one another when name and content are exchanged, or the same in both.
theorem cached_answer (key : String → String → κ) (actions : List CacheAction) (call other : ParseCall) :
    answer key actions call = (((pending [] actions).find? (alike key call)).getD call).file ∧
    (Transparent key ↔ ∀ x y : ParseCall, key x.name x.src = key y.name y.src → x.file = y.file) ∧
    (CacheKey.of call.name call.src = CacheKey.of other.name other.src ↔
      (call.name = other.name ∧ call.src = other.src) ∨ (call.name = other.src ∧ call.src = other.name) ∨
      (call.name = call.src ∧ other.name = other.src)) :=
  ⟨answer_eq actions call, transparent_iff, CacheKey.of_eq_iff⟩

-- Whatever the digest, a text is taken for the one with its name and content exchanged, and for the same text in another
-- dialect.
theorem swapped_call_gets_the_other_file :
    let first : ParseCall := ⟨some .bash, "echo a; echo b", "t"⟩
    let swapped : ParseCall := ⟨some .bash, "t", "echo a; echo b"⟩
    let again : ParseCall := ⟨some .zsh, "echo a; echo b", "t"⟩
    (∀ digest, answer (digestKey digest) [.parse first] swapped = first.file ∧
      answer (digestKey digest) [.parse first] again = first.file) ∧
    first.file.body.items.length = 1 ∧ swapped.file.body.items.length = 2 ∧
    first.file.dialect = .bash ∧ again.file.dialect = .zsh := by
  refine ⟨fun digest => ?_, by decide +kernel⟩
  simp only [answer_eq]
  constructor
  · simp [pending, alike, digestKey, UInt64.xor_comm]
  · simp [pending, alike, digestKey]

end ParseCache
end Dependency
end ShellScript

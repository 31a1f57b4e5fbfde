import Mathlib.Logic.Relation
import ShellScript.Proofs.Machine.Engine

-- Which status `$?` stands for in the words of an assignment or a declaration. While no command is run the status does
-- not change from one expansion to the next, so it is the one with which the first of them begins: that of the command
-- before in the arguments, options and redirections, but zero in the assignments, or one after a name that is refused.
namespace ShellScript
namespace Machine

open Program (Word Part Param Arith Assign Redir Stmt)
open Run

-- Expanding keeps the status if running commands does.
def Agreement.steady : Agreement where
  rel m _ := Steady m
  mild h := h.steady
  exhausted := steady_throw _
  bind := Steady.bind
  handle {_ _ m _ k _ h _} hm hk hh := by
    constructor
    · intro s b u hu
      cases hr : m s with
      | ok a t => exact ((hk a).ok ((handled_of_ok hr k h).symm.trans hu)).trans (hm.ok hr)
      | error e t =>
          rw [handled_of_error hr] at hu
          rcases hh e with ⟨heq, -⟩ | ⟨he, hsteady⟩
          · rw [heq] at hu
            cases hu
          · exact (hsteady.ok hu).trans (hm.error hr he)
    · intro s e' u hu he'
      cases hr : m s with
      | ok a t => exact ((hk a).error ((handled_of_ok hr k h).symm.trans hu) he').trans (hm.ok hr)
      | error e t =>
          rw [handled_of_error hr] at hu
          rcases hh e with ⟨heq, -⟩ | ⟨he, hsteady⟩
          · rw [heq] at hu
            cases hu
            exact hm.error hr he'
          · exact (hsteady.error hu he').trans (hm.error hr he)

-- The engine that gives up where a command is run.
def Layer.silent : Layer where
  stmt _ _ := throw (.stopped .bound)
  builtin _ _ _ _ := throw (.stopped .bound)

def silent (program : Program) (compiles : Bool) (rounds n : Nat) : Engine :=
  Layer.silent.engine program compiles rounds n

section

variable (program : Program) (compiles : Bool) (rounds n : Nat)

-- Up to there it is the real one.
theorem silent_follows : Discipline.approximation.Follows (silent program compiles rounds n)
    (engine program compiles rounds n) := by
  rw [← Layer.engine_real]
  refine Discipline.layered (fun _ st => ?_) (fun _ b name args => ?_) (fun _ => ?_) program compiles rounds n
  · exact .giveUp _
  · exact .giveUp _
  · exact .refl _

theorem stmt_silent (st : Stmt) : (silent program compiles rounds n).stmt st = throw (.stopped .bound) := by
  cases n <;> rfl

theorem steady_of_stopped {α : Type} {m : Run α} (h : ∀ s, ∃ why t, m s = .error (.stopped why) t) : Steady m := by
  constructor
  · intro s a t ht
    obtain ⟨why, u, hu⟩ := h s
    cases hu.symm.trans ht
  · intro s e t ht he
    obtain ⟨why, u, hu⟩ := h s
    cases hu.symm.trans ht
    exact absurd rfl (he why)

theorem inSubshell_of_stopped (change : Shell → Shell) (s : State) :
    inSubshell change (code (throw (.stopped .bound))) s = .error (.stopped .bound) s := rfl

theorem steady_capture (b : Program.Block) : Steady (capture (silent program compiles rounds n) b) := by
  refine steady_world.bind fun w => (mild_newChannel _).steady.bind fun out => steady_of_stopped fun s => ?_
  rw [stmt_silent]
  exact ⟨.bound, s, bind_of_error (inSubshell_of_stopped _ s) _⟩

theorem silent_expands : Agreement.steady.Expands (silent program compiles rounds n) (silent program compiles rounds n) where
  program := rfl
  compiles := rfl
  capture := steady_capture program compiles rounds n
  eval := by
    induction n with
    | zero => exact fun _ _ => steady_throw _
    | succ n ih =>
        have h : Agreement.steady.Expands (silent program compiles rounds n) (silent program compiles rounds n) :=
          ⟨rfl, rfl, steady_capture program compiles rounds n, ih, fun local_ name _ _ hm =>
            Agreement.writing (C := .steady) steady_modifyVar local_ name hm⟩
        exact Agreement.arithAt h
  write local_ name _ _ hm := Agreement.writing (C := .steady) steady_modifyVar local_ name hm

end

-- What is expanded or assigned.
inductive Item where
  | assigns (as : List Assign)
  | assign (a : Assign) (local_ : Bool)
  | redirs (rs : List Redir)
  | words (ws : List Word)
  | choices (cs : List (List Part))
  | word (w : Word)
  | parts (m : Splitting) (quoted : Bool) (ps : List Part) (f : Fields)
  | param (x : Param)
  | arith (depth : Nat) (x : Arith)

-- The name that is looked up for a parameter.
def lookedUp (x : Param) (s : Shell) : String :=
  if x.indirect && !x.length then (s.env.value? x.name).getD "" else x.name

-- Handling the first item from the first state may come to the second item, which is inside, in the second state. What
-- is expanded before it has come to a result.
inductive Enters (E : Engine) : Item → State → Item → State → Prop
  | firstAssign {a as s} : Enters E (.assigns (a :: as)) s (.assign a false) s
  | laterAssigns {a as s t} (h : assign E a false s = .ok () t) : Enters E (.assigns (a :: as)) s (.assigns as) t
  | elements {a local_ ws s} (h : a.array = some ws) : Enters E (.assign a local_) s (.words ws) s
  | value {a local_ w s} (h : a.value = some w) : Enters E (.assign a local_) s (.word w) s
  | subscript {a local_ w s v t} (h : a.index = some w) (hv : literalOpt E a.value s = .ok v t) :
      Enters E (.assign a local_) s (.word w) t
  | firstRedir {r rs s} : Enters E (.redirs (r :: rs)) s (.word r.word) s
  | fileOfRedir {r rs s v t} (h : literal E r.word s = .ok v t) : Enters E (.redirs (r :: rs)) s (.word r.word) t
  | laterRedirs {r rs s t} (h : applyRedir E r s = .ok () t) : Enters E (.redirs (r :: rs)) s (.redirs rs) t
  | firstWord {w ws s} : Enters E (.words (w :: ws)) s (.choices (Brace.expand w.parts)) s
  | laterWords {w ws s fs t} (h : expandChoices E (Brace.expand w.parts) s = .ok fs t) :
      Enters E (.words (w :: ws)) s (.words ws) t
  | firstChoice {ps cs s ifs t} (h : separators s = .ok ifs t) :
      Enters E (.choices (ps :: cs)) s (.parts { separators := ifs, joined := false } false ps {}) t
  | laterChoices {ps cs s fs t} (h : expandChoices E [ps] s = .ok fs t) : Enters E (.choices (ps :: cs)) s (.choices cs) t
  | parts {ps s ifs t} (h : separators s = .ok ifs t) :
      Enters E (.word ⟨ps⟩) s (.parts { separators := ifs, joined := true } false ps {}) t
  | quoted {m q parts ps f s} : Enters E (.parts m q (.quoted parts :: ps) f) s
      (.parts m true parts (if isValueList parts then f else { f with opened := true })) s
  | runtimePath {m q parts expr ps f s} :
      Enters E (.parts m q (.runtimePath ⟨parts⟩ expr :: ps) f) s (.parts m q parts f) s
  | param {m q x ps f s} : Enters E (.parts m q (.param x :: ps) f) s (.param x) s
  | arith {m q x ps f s} : Enters E (.parts m q (.arith (some x) :: ps) f) s (.arith 0 x) s
  | laterParts {m q p ps f s f' t} (h : expandPart E m q p f s = .ok f' t) :
      Enters E (.parts m q (p :: ps) f) s (.parts m q ps f') t
  | index {x w s} (h : x.index = some w) : Enters E (.param x) s (.word w) s
  | arg {x w s v t} (h : x.arg = some w) (hv : lookup E (lookedUp x s.shell) x.index s = .ok v t) :
      Enters E (.param x) s (.word w) t
  | indexToAssign {x w s v t text u} (h : x.index = some w) (hv : lookup E (lookedUp x s.shell) x.index s = .ok v t)
      (ht : literalOpt E x.arg t = .ok text u) : Enters E (.param x) s (.word w) u
  | repl {x w s v t p u} (h : x.repl = some w) (hv : lookup E (lookedUp x s.shell) x.index s = .ok v t)
      (hp : patternOpt E x.arg t = .ok p u) : Enters E (.param x) s (.word w) u
  | limit {x w s v t text u i u'} (h : x.repl = some w) (hv : lookup E (lookedUp x s.shell) x.index s = .ok v t)
      (ht : literalOpt E x.arg t = .ok text u) (hi : textValue E 0 text u = .ok i u') : Enters E (.param x) s (.word w) u'
  | element {d y i s} : Enters E (.arith d (.var y (some i))) s (.arith 0 i) s
  | expansion {d w s} : Enters E (.arith d (.word w)) s (.word w) s
  | cond {d c x y s} : Enters E (.arith d (.ternary c x y)) s (.arith d c) s
  | yes {d c x y s n t} (h : Machine.arith E d c s = .ok n t) : Enters E (.arith d (.ternary c x y)) s (.arith d x) t
  | no {d c x y s n t} (h : Machine.arith E d c s = .ok n t) : Enters E (.arith d (.ternary c x (some y))) s (.arith d y) t
  | operand {d op post x s} : Enters E (.arith d (.unary op post x)) s (.arith d x) s
  | elementToStep {d op post y i s n t} (h : Machine.arith E d (.var y (some i)) s = .ok n t) :
      Enters E (.arith d (.unary op post (.var y (some i)))) s (.arith 0 i) t
  | left {d op x y s} (hop : Arithmetic.isAssign op = false) : Enters E (.arith d (.binary op x y)) s (.arith d x) s
  | right {d op x y s n t} (hop : Arithmetic.isAssign op = false) (h : Machine.arith E d x s = .ok n t) :
      Enters E (.arith d (.binary op x y)) s (.arith d y) t
  | assigned {d op x y s} (hop : Arithmetic.isAssign op = true) : Enters E (.arith d (.binary op x y)) s (.arith d y) s
  | updated {d op x y s n t} (hop : Arithmetic.isAssign op = true) (h : Machine.arith E d y s = .ok n t) :
      Enters E (.arith d (.binary op x y)) s (.arith d x) t
  | elementToAssign {d op x i y s n t l u} (hop : Arithmetic.isAssign op = true) (h : Machine.arith E d y s = .ok n t)
      (hl : Machine.arith E d (.var x (some i)) t = .ok l u) :
      Enters E (.arith d (.binary op (.var x (some i)) y)) s (.arith 0 i) u

-- And so on inside of it.
def Meets (E : Engine) (x : Item) (s : State) (y : Item) (t : State) : Prop :=
  Relation.ReflTransGen (fun p q : Item × State => Enters E p.1 p.2 q.1 q.2) (x, s) (y, t)

theorem Meets.refl {E : Engine} {x : Item} {s : State} : Meets E x s x s := Relation.ReflTransGen.refl

theorem Meets.head {E : Engine} {x y z : Item} {s t u : State} (h : Enters E x s y t) (h' : Meets E y t z u) :
    Meets E x s z u :=
  Relation.ReflTransGen.head (r := fun p q : Item × State => Enters E p.1 p.2 q.1 q.2) h h'

section

variable {E : Engine} (hE : Agreement.steady.Expands E E)

include hE

-- One case for each way inside: what lies before it is steady.
theorem Enters.status {x y : Item} {s t : State} (h : Enters E x s y t) : t.shell.status = s.shell.status := by
  cases h with
  | laterAssigns h => exact Steady.ok (Agreement.assign hE _ false) h
  | subscript _ hv => exact Steady.ok (Agreement.literalOpt hE _) hv
  | fileOfRedir h => exact Steady.ok (Agreement.literal hE _) h
  | laterRedirs h => exact Steady.ok (Agreement.applyRedir (C := .steady) (fun _ => steady_modifyShell fun _ => rfl) hE _) h
  | laterWords h => exact Steady.ok (Agreement.expandChoices hE _) h
  | firstChoice h => exact mild_separators.steady.ok h
  | laterChoices h => exact Steady.ok (Agreement.expandChoices hE _) h
  | parts h => exact mild_separators.steady.ok h
  | laterParts h => exact Steady.ok (Agreement.expandPart hE _ _ _ _) h
  | arg _ hv => exact Steady.ok (Agreement.lookup hE _ _) hv
  | indexToAssign _ hv ht =>
      exact (Steady.ok (Agreement.literalOpt hE _) ht).trans (Steady.ok (Agreement.lookup hE _ _) hv)
  | repl _ hv hp =>
      exact (Steady.ok (Agreement.patternOpt hE _) hp).trans (Steady.ok (Agreement.lookup hE _ _) hv)
  | limit _ hv ht hi =>
      have htext := (Steady.ok (Agreement.literalOpt hE _) ht).trans (Steady.ok (Agreement.lookup hE _ _) hv)
      exact (Steady.ok (Agreement.textValue hE 0 _) hi).trans htext
  | yes h | no h | elementToStep h => exact Steady.ok (Agreement.arith hE _ _) h
  | right _ h | updated _ h => exact Steady.ok (Agreement.arith hE _ _) h
  | elementToAssign _ h hl =>
      exact (Steady.ok (Agreement.arith hE _ _) hl).trans (Steady.ok (Agreement.arith hE _ _) h)
  | _ => rfl

theorem Meets.status {x y : Item} {s t : State} (h : Meets E x s y t) : t.shell.status = s.shell.status := by
  have hall : ∀ {p q : Item × State}, Relation.ReflTransGen (fun p q : Item × State => Enters E p.1 p.2 q.1 q.2) p q →
      q.2.shell.status = p.2.shell.status := by
    intro p q hpq
    induction hpq with
    | refl => rfl
    | tail _ hstep ih => exact (hstep.status hE).trans ih
  exact hall h

end

-- What is met without running a command is met by the real engine.

theorem Approximates.ok {α : Type} {m m' : Run α} (h : Approximates m m') {s t : State} {a : α} (hm : m s = .ok a t) :
    m' s = .ok a t := by
  rcases h s with ⟨u, hu⟩ | heq
  · cases hu.symm.trans hm
  · exact heq ▸ hm

section

variable {E E' : Engine} (hE : Congruence.approximation.Expands E E')

include hE

theorem Enters.mono {x y : Item} {s t : State} (h : Enters E x s y t) : Enters E' x s y t := by
  have hliteral (w : Option Word) : Approximates (literalOpt E w) (literalOpt E' w) := Agreement.literalOpt hE w
  have hlookup (y : String) (w : Option Word) : Approximates (lookup E y w) (lookup E' y w) := Agreement.lookup hE y w
  have hchoices (cs : List (List Part)) : Approximates (expandChoices E cs) (expandChoices E' cs) :=
    Agreement.expandChoices hE cs
  have harith (d : Nat) (x : Arith) : Approximates (Machine.arith E d x) (Machine.arith E' d x) := Agreement.arith hE d x
  cases h with
  | laterAssigns h => exact .laterAssigns (Approximates.ok (Agreement.assign hE _ false) h)
  | subscript h hv => exact .subscript h ((hliteral _).ok hv)
  | fileOfRedir h => exact .fileOfRedir (Approximates.ok (Agreement.literal hE _) h)
  | laterRedirs h => exact .laterRedirs (Approximates.ok (Agreement.applyRedir (fun _ => Approximates.refl _) hE _) h)
  | laterWords h => exact .laterWords ((hchoices _).ok h)
  | laterChoices h => exact .laterChoices ((hchoices _).ok h)
  | laterParts h => exact .laterParts (Approximates.ok (Agreement.expandPart hE _ _ _ _) h)
  | arg h hv => exact .arg h ((hlookup _ _).ok hv)
  | indexToAssign h hv ht => exact .indexToAssign h ((hlookup _ _).ok hv) ((hliteral _).ok ht)
  | repl h hv hp => exact .repl h ((hlookup _ _).ok hv) (Approximates.ok (Agreement.patternOpt hE _) hp)
  | limit h hv ht hi =>
      exact .limit h ((hlookup _ _).ok hv) ((hliteral _).ok ht) (Approximates.ok (Agreement.textValue hE 0 _) hi)
  | yes h => exact .yes ((harith _ _).ok h)
  | no h => exact .no ((harith _ _).ok h)
  | elementToStep h => exact .elementToStep ((harith _ _).ok h)
  | right hop h => exact .right hop ((harith _ _).ok h)
  | updated hop h => exact .updated hop ((harith _ _).ok h)
  | elementToAssign hop h hl => exact .elementToAssign hop ((harith _ _).ok h) ((harith _ _).ok hl)
  | firstAssign => exact .firstAssign
  | elements h => exact .elements h
  | value h => exact .value h
  | firstRedir => exact .firstRedir
  | firstWord => exact .firstWord
  | firstChoice h => exact .firstChoice h
  | parts h => exact .parts h
  | quoted => exact .quoted
  | runtimePath => exact .runtimePath
  | param => exact .param
  | arith => exact .arith
  | index h => exact .index h
  | element => exact .element
  | expansion => exact .expansion
  | cond => exact .cond
  | operand => exact .operand
  | left hop => exact .left hop
  | assigned hop => exact .assigned hop

theorem Meets.mono {x y : Item} {s t : State} (h : Meets E x s y t) : Meets E' x s y t :=
  Relation.ReflTransGen.mono (fun _ _ => Enters.mono hE) _ _ h

end

-- Each `$?` that is met stands for `k`.
def Sees (E : Engine) (x : Item) (s : State) (k : Int) : Prop :=
  ∀ p t, Meets E x s (.param p) t → p.name = "?" → p.indirect = false →
    lookup E (lookedUp p t.shell) p.index t = .ok (.ofText (toString k)) t

theorem lookup_status (E : Engine) (index : Option Word) (s : State) :
    lookup E "?" index s = .ok (.ofText (toString s.shell.status)) s := by
  cases index with
  | none => rfl
  | some w =>
      unfold lookup
      rfl

theorem sees_status {E : Engine} (hE : Agreement.steady.Expands E E) (x : Item) (s : State) :
    Sees E x s s.shell.status := by
  intro p t h hname hdirect
  have hlooked : lookedUp p t.shell = "?" := by
    rw [lookedUp, hdirect, hname]
    rfl
  rw [hlooked, lookup_status, h.status hE]

-- Declarations.

-- Makes the variable that is to be assigned.
def ready (f : DeclFlags) (local_ : Bool) (a : Assign) : Run Unit := do
  let v ← target local_ a.name
  putVar a.name (prepared f a v)

-- The name is none, or the variable is read-only.
inductive Refused (E : Engine) (f : DeclFlags) (local_ : Bool) (a : Assign) (s : State) : Prop
  | name (h : Text.isName a.name = false)
  | readOnly {t g u} (hname : Text.isName a.name = true)
      (hvalue : (a.value.isSome || a.array.isSome || a.index.isSome) = true)
      (ht : ready f local_ a s = .ok () t) (h : assign E a local_ t = .error (.fail g) u) (hg : g.cause = .readOnly)

-- One of the names is refused.
inductive AnyRefused (E : Engine) (command : String) (f : DeclFlags) (local_ : Bool) : List Assign → State → Prop
  | here {a as s} (h : Refused E f local_ a s) : AnyRefused E command f local_ (a :: as) s
  | later {a as s t} (ht : declareOne E command f local_ a s = .ok () t) (h : AnyRefused E command f local_ as t) :
      AnyRefused E command f local_ (a :: as) s

theorem status_of_complainWith {n : Int} {text : String} {s t : State} (h : complainWith n text s = .ok () t) :
    t.shell.status = n := by
  unfold complainWith at h
  cases hr : complain text s with
  | ok u r =>
      rw [bind_of_ok hr] at h
      cases h
      rfl
  | error e r => cases (bind_of_error hr _).symm.trans h

theorem ready_ok (f : DeclFlags) (local_ : Bool) (a : Assign) (s : State) :
    ∃ t, ready f local_ a s = .ok () t ∧ t.shell.status = s.shell.status := by
  obtain ⟨v, hv, -⟩ := target_eq local_ a.name s
  refine ⟨_, bind_of_ok hv _, rfl⟩

theorem status_of_modifyVar {name : String} {g : Var → Var} {s t : State} (h : modifyVar name g s = .ok () t) :
    t.shell.status = s.shell.status :=
  (steady_modifyVar name g).ok h

section

variable {E : Engine} {command : String} {f : DeclFlags} {local_ : Bool} {a : Assign} {s t : State}

theorem not_refused (hname : Text.isName a.name = true) {r : State} (hr : ready f local_ a s = .ok () r)
    (h : (a.value.isSome || a.array.isSome || a.index.isSome) = true → ∀ g u, g.cause = .readOnly →
      assign E a local_ r ≠ .error (.fail g) u) : ¬Refused E f local_ a s := by
  rintro (h' | ⟨-, hvalue, ht, h', hg⟩)
  · exact absurd (hname.symm.trans h') (by decide)
  · cases hr.symm.trans ht
    exact h hvalue _ _ hg h'

theorem declareRest_of_value (h : (a.value.isSome || a.array.isSome || a.index.isSome) = true) :
    declareRest E f local_ a s = match assign E a local_ s with
      | .ok _ s => modifyVar a.name (flagged f) s
      | .error (.fail g) s =>
        if g.cause == .readOnly then complainWith 1 (a.name ++ ": readonly variable") s else .error (.fail g) s
      | .error e s => .error e s :=
  congrFun (if_pos h) s

theorem declareRest_of_bare (h : ¬(a.value.isSome || a.array.isSome || a.index.isSome) = true) :
    declareRest E f local_ a s = modifyVar a.name (flagged f) s :=
  congrFun (if_neg h) s

-- A name that is refused sets the status.
theorem declareOne_status (hE : Agreement.steady.Expands E E) (h : declareOne E command f local_ a s = .ok () t) :
    (Refused E f local_ a s ∧ t.shell.status = 1) ∨ (¬Refused E f local_ a s ∧ t.shell.status = s.shell.status) := by
  rw [declareOne_eq] at h
  cases hname : Text.isName a.name with
  | false =>
      rw [hname] at h
      exact .inl ⟨.name hname, status_of_complainWith h⟩
  | true =>
      obtain ⟨r, hr, hstatus⟩ := ready_ok f local_ a s
      rw [hname] at h
      have hrest : declareRest E f local_ a r = .ok () t := (bind_of_ok hr _).symm.trans h
      by_cases hvalue : (a.value.isSome || a.array.isSome || a.index.isSome) = true
      · rw [declareRest_of_value hvalue] at hrest
        split at hrest
        · next w hassign =>
          refine .inr ⟨not_refused hname hr fun _ g u _ hfail => ?_, ?_⟩
          · cases hassign.symm.trans hfail
          · exact (status_of_modifyVar hrest).trans ((Steady.ok (Agreement.assign hE a local_) hassign).trans hstatus)
        · next g w hassign =>
          split at hrest
          · next hcause =>
            exact .inl ⟨.readOnly hname hvalue hr hassign (beq_iff_eq.mp hcause), status_of_complainWith hrest⟩
          · cases hrest
        · cases hrest
      · rw [declareRest_of_bare hvalue] at hrest
        exact .inr ⟨not_refused hname hr fun h => absurd h hvalue, (status_of_modifyVar hrest).trans hstatus⟩

-- It stays until the end of the declaration.
theorem declareAll_status (hE : Agreement.steady.Expands E E) {as : List Assign}
    (h : declareAll E command f local_ as s = .ok () t) :
    (AnyRefused E command f local_ as s → t.shell.status = 1) ∧
      (¬AnyRefused E command f local_ as s → t.shell.status = s.shell.status) := by
  induction as generalizing s with
  | nil =>
      cases h
      exact ⟨nofun, fun _ => rfl⟩
  | cons a as ih =>
      rw [declareAll] at h
      cases hone : declareOne E command f local_ a s with
      | error e u => cases (bind_of_error hone _).symm.trans h
      | ok _ u =>
          obtain ⟨hrefused, haccepted⟩ := ih ((bind_of_ok hone _).symm.trans h)
          have hlater (hrest : AnyRefused E command f local_ as u) := hrefused hrest
          by_cases hrest : AnyRefused E command f local_ as u
          · exact ⟨fun _ => hrefused hrest, fun hnone => absurd (.later hone hrest) hnone⟩
          rcases declareOne_status hE hone with ⟨hhere, hstatus⟩ | ⟨hhere, hstatus⟩
          · exact ⟨fun _ => (haccepted hrest).trans hstatus, fun hnone => absurd (.here hhere) hnone⟩
          · refine ⟨fun hany => ?_, fun _ => (haccepted hrest).trans hstatus⟩
            cases hany with
            | here h' => exact absurd h' hhere
            | later ht h' =>
                cases hone.symm.trans ht
                exact absurd h' hrest

end

-- What is left to do once the words before it are known.

theorem call_of_assigns {E : Engine} {words : List Word} {s t : State} (h : fields E words s = .ok [] t)
    (assigns : List Assign) (redirs : List Redir) :
    call E assigns words redirs s = redirected E redirs (setStatus 0 >>= fun _ => assignAll E assigns) t := by
  unfold call
  rw [bind_of_ok h]

theorem declareWords_of_flags {E : Engine} {variant : Builtin} {opts : List Word} {ws rest : List String} {f : DeclFlags}
    {s t : State} (h : fields E opts s = .ok ws t) (hread : DeclFlags.read variant ws = .ok (f, rest))
    (assigns : List Assign) :
    declareWords E variant opts assigns s = declare E variant f (rest.map operand ++ assigns) t := by
  unfold declareWords
  rw [bind_of_ok h, hread]

theorem declare_of_assigns (E : Engine) {variant : Builtin} {f : DeclFlags} {as : List Assign} {s : State}
    (hlocal : variant ≠ .local_ ∨ s.shell.calls ≠ 0) (hnames : as ≠ []) (hfunctions : f.functions = false)
    (hprint : f.print = false) :
    declare E variant f as s = declareAll E variant.name f
      (variant == .local_ || ((variant == .declare || variant == .typeset) && s.shell.calls > 0 && !f.global)) as
      (s.withStatus 0) := by
  unfold declare
  rw [shell_bind]
  have hinside : ¬(variant == .local_ && s.shell.calls == 0) = true := by
    rcases hlocal with h | h <;> simp [h]
  rw [if_neg hinside, setStatus_bind, hfunctions, hprint]
  cases as with
  | nil => exact absurd rfl hnames
  | cons a as => rfl

-- While no command is run, `$?` stands for the last status in the arguments and redirections of a command that turns
-- out to be only assignments, and in the options and redirections of a declaration. In the assignments it stands for
-- zero, and in those of a declaration for one after a name that is refused.
theorem last_status_in_words {program : Program} {compiles : Bool} {rounds n : Nat} {E F : Engine}
    (hsilent : E = silent program compiles rounds n) (hengine : F = engine program compiles rounds n) (s : State) :
    (∀ assigns words redirs t, fields E words s = .ok [] t →
      call F assigns words redirs s = redirected F redirs (setStatus 0 >>= fun _ => assignAll F assigns) t ∧
      Sees E (.words words) s s.shell.status ∧ Sees E (.redirs redirs) t s.shell.status ∧
      ∀ u, applyRedirs E redirs t = .ok () u → Sees E (.assigns assigns) (u.withStatus 0) 0) ∧
    (∀ variant opts assigns redirs t ws f rest u, applyRedirs E redirs s = .ok () t → fields E opts t = .ok ws u →
      DeclFlags.read variant ws = .ok (f, rest) →
      declareWords F variant opts assigns t = declare F variant f (rest.map operand ++ assigns) u ∧
      (variant ≠ .local_ ∨ u.shell.calls ≠ 0 → rest.map operand ++ assigns ≠ [] → f.functions = false →
        f.print = false → ∃ local_, declare F variant f (rest.map operand ++ assigns) u =
          declareAll F variant.name f local_ (rest.map operand ++ assigns) (u.withStatus 0)) ∧
      Sees E (.redirs redirs) s s.shell.status ∧ Sees E (.words opts) t s.shell.status ∧
      ∀ command local_ before a after v w, rest.map operand ++ assigns = before ++ a :: after →
        declareAll E command f local_ before (u.withStatus 0) = .ok () v → ready f local_ a v = .ok () w →
        (¬AnyRefused E command f local_ before (u.withStatus 0) → Sees E (.assign a local_) w 0) ∧
          (AnyRefused E command f local_ before (u.withStatus 0) → Sees E (.assign a local_) w 1)) ∧
    ∀ x s y t, Meets E x s y t → Meets F x s y t := by
  subst hsilent hengine
  have hE : Agreement.steady.Expands _ _ := silent_expands program compiles rounds n
  have hreal : Congruence.approximation.Expands _ _ := (silent_follows program compiles rounds n).expands
  have hsees {x : Item} {u : State} {k : Int} (h : u.shell.status = k) : Sees (silent program compiles rounds n) x u k :=
    h ▸ sees_status hE x u
  have hfields {ws : List Word} {u v : State} {xs : List String}
      (h : fields (silent program compiles rounds n) ws u = .ok xs v) :
      v.shell.status = u.shell.status ∧ fields (engine program compiles rounds n) ws u = .ok xs v :=
    ⟨Steady.ok (Agreement.fields hE ws) h, Approximates.ok (Agreement.fields hreal ws) h⟩
  refine ⟨fun assigns words redirs t ht => ?_, fun variant opts assigns redirs t ws f rest u ht hu hread => ?_, ?_⟩
  · obtain ⟨hstatus, hwords⟩ := hfields ht
    exact ⟨call_of_assigns hwords assigns redirs, hsees rfl, hsees hstatus, fun u _ => hsees rfl⟩
  · have hredirs : t.shell.status = s.shell.status :=
      Steady.ok (Agreement.applyRedirs (C := .steady) (fun _ => steady_modifyShell fun _ => rfl) hE redirs) ht
    refine ⟨declareWords_of_flags (hfields hu).2 hread assigns, fun hlocal hnames hfunctions hprint => ?_, hsees rfl,
      hsees hredirs, ?_⟩
    · exact ⟨_, declare_of_assigns _ hlocal hnames hfunctions hprint⟩
    intro command local_ before a after v w _ hv hw
    obtain ⟨hrefused, haccepted⟩ := declareAll_status hE hv
    obtain ⟨w', hw', hstatus⟩ := ready_ok f local_ a v
    cases hw'.symm.trans hw
    exact ⟨fun h => hsees (hstatus.trans (haccepted h)), fun h => hsees (hstatus.trans (hrefused h))⟩
  · exact fun x s y t h => h.mono hreal

-- `rc=$?`.
def lastStatus : Param :=
  { name := "?", length := false, indirect := false, names := none, index := none, op := none, arg := none, repl := none }

def keepStatus : Assign :=
  { name := "rc", index := none, append := false, value := some ⟨[.param lastStatus]⟩, array := none }

-- After a command that failed.
theorem last_status_of_assignment :
    let program : Program := { name := "", main := default }
    let E := silent program true 1 1
    let s : State := { shell := { status := 1 } }
    fields E [] s = .ok [] s ∧ Meets E (.assigns [keepStatus]) (s.withStatus 0) (.param lastStatus) (s.withStatus 0) ∧
      lookup E "?" none (s.withStatus 0) = .ok (.ofText "0") (s.withStatus 0) := by
  intro program E s
  have hmeets : Meets E (.assigns [keepStatus]) (s.withStatus 0) (.param lastStatus) (s.withStatus 0) :=
    .head .firstAssign (.head (.value rfl) (.head (.parts rfl) (.head .param .refl)))
  have h := (last_status_in_words (n := 1) (E := E) rfl rfl s).1 [keepStatus] [] [] s rfl
  exact ⟨rfl, hmeets, h.2.2.2 s rfl _ _ hmeets rfl rfl⟩

theorem assignment_forgets_status :
    let s : State := { shell := { status := 1 } }
    (match call (engine { name := "", main := default } true 1 1) [keepStatus] [] [] s with
      | .ok _ t => t.shell.env.value? "rc"
      | .error _ _ => none) = some "0" := by
  decide +kernel

end Machine
end ShellScript

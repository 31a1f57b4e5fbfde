import Mathlib.Data.List.TakeWhile
import ShellScript.Proofs.Token.Lossless

-- Text that says nothing: blanks, ends of lines and comments. Where the scanner finds no token that counts, there is
-- nothing else; and behind two parentheses that open an arithmetic command only such a text can hide a closing pair.
namespace ShellScript
namespace Token

-- Tokens that say nothing by themselves.
def Kind.isQuiet (k : Kind) : Bool := k == .newline || k == .comment || k == .hereDoc || k == .eof

inductive Idle : List Char → Prop where
  | nil : Idle []
  | blank {c : Char} {cs : List Char} (blank : Text.isBlank c = true) (rest : Idle cs) : Idle (c :: cs)
  | joined {cs : List Char} (rest : Idle cs) : Idle ('\\' :: '\n' :: cs)
  | newline {cs : List Char} (rest : Idle cs) : Idle ('\n' :: cs)
  | comment {line cs : List Char} (oneLine : '\n' ∉ line) (ends : ∀ c ∈ cs.head?, c = '\n') (rest : Idle cs) :
      Idle ('#' :: (line ++ cs))

-- What may follow a command without another one: on its line a separator, and nothing else that counts.
inductive Unsaid : List Char → Prop where
  | idle {cs : List Char} (idle : Idle cs) : Unsaid cs
  | semi {cs : List Char} (idle : Idle cs) : Unsaid (';' :: cs)
  | blank {c : Char} {cs : List Char} (blank : Text.isBlank c = true) (rest : Unsaid cs) : Unsaid (c :: cs)
  | joined {cs : List Char} (rest : Unsaid cs) : Unsaid ('\\' :: '\n' :: cs)

def Quiet (ts : List Token) : Prop := ∀ t ∈ ts, t.kind.isQuiet = true

-- The tokens of an unsaid text.
def Trails (ts : List Token) : Prop :=
  Quiet ts ∨ ∃ (front : List Token) (t : Token) (back : List Token), ts = front ++ t :: back ∧
    (∀ u ∈ front, u.kind = .comment ∨ u.kind = .hereDoc) ∧ t.kind = .semi ∧ Quiet back

-- A text whose last line is a comment.
def EndsHidden (P : List Char → Prop) (cs : List Char) : Prop :=
  ∃ front comment, cs = front ++ '#' :: comment ∧ '\n' ∉ comment ∧ P front

theorem EndsHidden.cons {P Q : List Char → Prop} {cs : List Char} (taken : List Char) (h : EndsHidden P cs)
    (hq : ∀ front comment, cs = front ++ '#' :: comment → P front → Q (taken ++ front)) : EndsHidden Q (taken ++ cs) := by
  obtain ⟨front, comment, rfl, hline, hfront⟩ := h
  exact ⟨taken ++ front, comment, by rw [List.append_assoc], hline, hq front comment rfl hfront⟩

-- The parentheses at the end belong to a comment.
theorem Idle.hides {cs : List Char} (h : Idle (cs ++ [')', ')'])) : EndsHidden Idle cs := by
  generalize htext : cs ++ [')', ')'] = text at h
  induction h generalizing cs with
  | nil => simp at htext
  | blank hblank _ ih =>
      cases cs with
      | nil =>
          cases htext
          cases hblank
      | cons c cs =>
          cases htext
          exact (ih rfl).cons [_] fun _ _ _ => .blank hblank
  | joined _ ih =>
      match cs, htext with
      | _ :: _ :: cs, htext =>
          cases htext
          exact (ih rfl).cons ['\\', '\n'] fun _ _ _ => .joined
      | [_], htext => cases htext
      | [], htext => cases htext
  | newline _ ih =>
      cases cs with
      | nil => cases htext
      | cons c cs =>
          cases htext
          exact (ih rfl).cons ['\n'] fun _ _ _ => .newline
  | @comment line rest hline hends _ ih =>
      cases cs with
      | nil => cases htext
      | cons c cs =>
          obtain ⟨rfl, htail⟩ := List.cons.inj htext
          rcases List.append_eq_append_iff.mp htail with ⟨more, rfl, -⟩ | ⟨more, rfl, hmore⟩
          · exact ⟨[], cs, rfl, fun hmem => hline (List.mem_append_left _ hmem), .nil⟩
          · refine (ih hmore.symm).cons ('#' :: line) fun front comment hcs hfront => .comment hline (fun c hc => ?_) hfront
            cases front with
            | nil => cases hc
            | cons _ _ => exact hends c (by rwa [hmore, hcs])

theorem Unsaid.hides {cs : List Char} (h : Unsaid (cs ++ [')', ')'])) : EndsHidden Unsaid cs := by
  generalize htext : cs ++ [')', ')'] = text at h
  induction h generalizing cs with
  | idle hidle =>
      subst htext
      exact hidle.hides.cons [] fun _ _ _ => .idle
  | semi hidle =>
      cases cs with
      | nil => cases htext
      | cons c cs =>
          cases htext
          exact hidle.hides.cons [';'] fun _ _ _ => .semi
  | blank hblank _ ih =>
      cases cs with
      | nil =>
          cases htext
          cases hblank
      | cons c cs =>
          cases htext
          exact (ih rfl).cons [_] fun _ _ _ => .blank hblank
  | joined _ ih =>
      match cs, htext with
      | _ :: _ :: cs, htext =>
          cases htext
          exact (ih rfl).cons ['\\', '\n'] fun _ _ _ => .joined
      | [_], htext => cases htext
      | [], htext => cases htext

namespace Scanner

theorem idle_of_blanks {cs : List Char} (h : Idle (cs.drop (blanks cs))) : Idle cs := by
  fun_induction blanks cs with
  | case1 cs ih => exact .joined (ih h)
  | case2 c cs _ hblank ih => exact .blank hblank (ih h)
  | case3 => exact h
  | case4 => exact h

theorem unsaid_of_blanks {cs : List Char} (h : Unsaid (cs.drop (blanks cs))) : Unsaid cs := by
  fun_induction blanks cs with
  | case1 cs ih => exact .joined (ih h)
  | case2 c cs _ hblank ih => exact .blank hblank (ih h)
  | case3 => exact h
  | case4 => exact h

-- What one step reads.

theorem operatorAt_loud {cs : List Char} {k : Kind} {n : Nat} {f : Option Feature} (h : operatorAt cs = some (k, n, f)) :
    k.isQuiet = false ∧ (k = .semi → n = 1 ∧ f = none ∧ ∃ rest, cs = ';' :: rest) := by
  unfold operatorAt at h
  split at h
  all_goals cases h
  all_goals exact ⟨rfl, by simp⟩

theorem kind_endWord (s : Scanner) (start : List Char) (p : Position) (quoted : Bool) :
    (s.endWord start p quoted).2.kind = .word ∨ (s.endWord start p quoted).2.kind = .ioNumber := by
  unfold endWord
  dsimp only
  repeat' split
  all_goals simp

-- A token that says something, read from `s` on.
structure Loud (s : Scanner) (r : Scanner × Token) : Prop where
  tokens : r.1.tokens = s.tokens
  kind : r.2.kind.isQuiet = false
  semi : r.2.kind = .semi → s.rest = ';' :: r.1.rest ∧ r.1.pending = s.pending

theorem tokens_needs (s : Scanner) (f : Feature) (p : Position) : (s.needs f p).tokens = s.tokens := by
  unfold needs
  split <;> rfl

theorem loud_gather {α : Type} {turn : α → Bool → Scanner → Option (α × Bool × Scanner)} (hturn : Progressive turn) (n : Nat)
    (a : α) {s t : Scanner} (ht : t.tokens = s.tokens) : s.Loud (gather turn t.rest t.pos n a false t) := by
  have hreads := gather_reads hturn n a t
  obtain ⟨s', q, -, heq, -⟩ := gather_ends hturn t.rest t.pos n a false t
  rw [heq] at hreads ⊢
  have hkind := kind_endWord s' t.rest t.pos q
  refine ⟨hreads.tokens.trans ht, ?_, fun hsemi => ?_⟩
  · rcases hkind with hkind | hkind <;> rw [hkind] <;> rfl
  · rw [hsemi] at hkind
    rcases hkind with hkind | hkind <;> cases hkind

theorem loud_operator {s : Scanner} {k : Kind} {n : Nat} {f : Option Feature} (h : operatorAt s.rest = some (k, n, f)) :
    s.Loud ((match f with
      | some f => s.needs f s.pos
      | none => s).take k n) := by
  obtain ⟨hloud, hsemi⟩ := operatorAt_loud h
  refine ⟨?_, hloud, fun hkind => ?_⟩
  · cases f with
    | none => rfl
    | some f => exact tokens_needs s f s.pos
  · obtain ⟨rfl, rfl, rest, hrest⟩ := hsemi hkind
    exact ⟨hrest.trans (congrArg (fun cs => ';' :: cs.drop 1) hrest.symm), rfl⟩

-- What one step adds to the tokens, from where its token begins.
inductive Turn (s s' : Scanner) (t : Token) : Prop where
  | newline (kind : t.kind = .newline) (rest : s.rest = '\n' :: s'.rest) (pending : s'.pending = [])
  | comment {line : List Char} (kind : t.kind = .comment) (rest : s.rest = '#' :: (line ++ s'.rest)) (oneLine : '\n' ∉ line)
      (ends : ∀ c ∈ s'.rest.head?, c = '\n') (pending : s'.pending = [])
  | loud (kind : t.kind.isQuiet = false) (semi : t.kind = .semi → s.rest = ';' :: s'.rest ∧ s'.pending = [])

theorem Loud.turn {s : Scanner} {r : Scanner × Token} (h : s.Loud r) (hpending : s.pending = []) :
    ∃ t, (emit r).tokens = s.tokens.push t ∧ s.Turn (emit r) t :=
  ⟨r.2, congrArg (·.push r.2) h.tokens, .loud h.kind fun hkind => ⟨(h.semi hkind).1, (h.semi hkind).2.trans hpending⟩⟩

theorem newline_turn {s : Scanner} {cs : List Char} (hs : s.rest = '\n' :: cs) (hpending : s.pending = []) :
    ∃ t, (hereDocs (emit (s.take .newline 1))).tokens = s.tokens.push t ∧
      s.Turn (hereDocs (emit (s.take .newline 1))) t := by
  have hnone : hereDocs (emit (s.take .newline 1)) = emit (s.take .newline 1) := by
    have hempty : (emit (s.take .newline 1)).pending = [] := hpending
    rw [hereDocs, hempty]
    exact congrArg (fun pending => { emit (s.take .newline 1) with pending }) hempty.symm
  rw [hnone]
  exact ⟨_, rfl, .newline rfl (hs.trans (congrArg (fun cs => '\n' :: cs.drop 1) hs.symm)) hpending⟩

theorem comment_turn {s : Scanner} {cs : List Char} (hs : s.rest = '#' :: cs) (hpending : s.pending = []) :
    ∃ t, (emit (s.take .comment (s.rest.takeWhile (· != '\n')).length)).tokens = s.tokens.push t ∧
      s.Turn (emit (s.take .comment (s.rest.takeWhile (· != '\n')).length)) t := by
  have hrest : (emit (s.take .comment (s.rest.takeWhile (· != '\n')).length)).rest = cs.dropWhile (· != '\n') := by
    change s.rest.drop (s.rest.takeWhile (· != '\n')).length = _
    rw [drop_length_takeWhile, hs]
    rfl
  have hline : s.rest = '#' :: (cs.takeWhile (· != '\n') ++
      (emit (s.take .comment (s.rest.takeWhile (· != '\n')).length)).rest) := by
    rw [hrest, List.takeWhile_append_dropWhile]
    exact hs
  refine ⟨_, rfl, .comment rfl hline (fun hmem => ?_) (fun c hc => ?_) hpending⟩
  · simpa using List.mem_takeWhile_imp hmem
  · have hends := List.head?_dropWhile_not (· != '\n') cs
    rw [← hrest, Option.mem_def.mp hc] at hends
    simpa using hends

theorem turn_of_next? {n : Nat} {s s' : Scanner} (hpending : s.pending = []) (h : s.next? n = some s') :
    ∃ t, s'.tokens = s.tokens.push t ∧ (s.moveBy (blanks s.rest)).Turn s' t := by
  unfold next? at h
  dsimp only at h
  change ∃ t, s'.tokens = (s.moveBy (blanks s.rest)).tokens.push t ∧ _
  replace hpending : (s.moveBy (blanks s.rest)).pending = [] := hpending
  generalize s.moveBy (blanks s.rest) = t at h hpending ⊢
  split at h
  · cases h
  rename_i c cs hs
  split at h
  · rename_i hc
    cases h
    exact newline_turn (by rw [hs, beq_iff_eq.mp hc]) hpending
  split at h
  · rename_i hc
    cases h
    exact comment_turn (by rw [hs, beq_iff_eq.mp hc]) hpending
  split at h
  · cases h
    exact (loud_gather (s := t) (t := { t with wantRegex := false }) progressive_regexTurn n 0 rfl).turn hpending
  split at h
  · cases h
    have hneeds := tokens_needs t .procSubstitution t.pos
    exact (loud_gather progressive_wordTurn n true hneeds).turn hpending
  split at h
  · cases h
    exact Loud.turn ⟨rfl, rfl, nofun⟩ hpending
  split at h
  · rename_i hop
    cases h
    exact (loud_operator hop).turn hpending
  split at h
  · cases h
    exact Loud.turn ⟨rfl, rfl, nofun⟩ hpending
  · cases h
    exact (loud_gather progressive_wordTurn n true rfl).turn hpending

-- A whole run.

section Runs

variable {n : Nat} {s s' : Scanner} {t : Token} {ts : List Token}

-- The token that a step has added is the first of those that the run adds.
theorem tokens_of_step (hn : s'.left < n) (hstep : s'.tokens = s.tokens.push t)
    (hrun : (run n s').tokens.toList = s.tokens.toList ++ ts) :
    ∃ us, ts = t :: us ∧ (run n s').tokens.toList = s'.tokens.toList ++ us := by
  obtain ⟨us, hus, -⟩ := run_layout hn
  refine ⟨us, ?_, hus⟩
  rw [hus, hstep, Array.toList_push, List.append_assoc] at hrun
  exact (List.append_cancel_left hrun).symm

-- One step of a run, or its end.
theorem run_cases (hn : s.left < n + 1) (hpending : s.pending = [])
    (hrun : (run (n + 1) s).tokens.toList = s.tokens.toList ++ ts) :
    (s.rest.drop (blanks s.rest) = [] ∧ ∃ t, ts = [t] ∧ t.kind = .eof) ∨
      ∃ s' t us, s'.left < n ∧ (s.moveBy (blanks s.rest)).Turn s' t ∧ ts = t :: us ∧
        (run n s').tokens.toList = s'.tokens.toList ++ us := by
  rw [run] at hrun
  cases hnext : s.next? (n + 1) with
  | none =>
      rw [hnext] at hrun
      dsimp only at hrun
      rw [finish_tokens, Array.toList_push] at hrun
      exact .inl ⟨next?_none hnext, _, (List.append_cancel_left hrun).symm, rfl⟩
  | some s' =>
      rw [hnext] at hrun
      have hleft := (next?_steps (Nat.succ_pos n) hnext).left
      obtain ⟨t, htokens, hturn⟩ := turn_of_next? hpending hnext
      obtain ⟨us, hts, hus⟩ := tokens_of_step (by omega) htokens hrun
      exact .inr ⟨s', t, us, by omega, hturn, hts, hus⟩

-- Where only ends of lines and comments are found, the text says nothing.
theorem idle_of_run (hn : s.left < n) (hpending : s.pending = [])
    (hrun : (run n s).tokens.toList = s.tokens.toList ++ ts) (hquiet : Quiet ts) : Idle s.rest := by
  induction n generalizing s ts with
  | zero => omega
  | succ n ih =>
      refine idle_of_blanks ?_
      obtain ⟨hrest, -⟩ | ⟨s', t, us, hleft, hturn, rfl, hus⟩ := run_cases hn hpending hrun
      · exact hrest ▸ .nil
      · obtain ⟨ht, hquiet⟩ := List.forall_mem_cons.mp hquiet
        change Idle (s.moveBy (blanks s.rest)).rest
        cases hturn with
        | newline _ hrest hpending => exact hrest ▸ .newline (ih hleft hpending hus hquiet)
        | comment _ hrest hline hends hpending => exact hrest ▸ .comment hline hends (ih hleft hpending hus hquiet)
        | loud hkind => exact absurd ht (by simp [hkind])

-- A separator is found in front of everything else only on the line itself.
theorem semi_of_run {front back : List Token} (hn : s.left < n) (hpending : s.pending = [])
    (hrun : (run n s).tokens.toList = s.tokens.toList ++ (front ++ t :: back))
    (hfront : ∀ u ∈ front, u.kind = .comment ∨ u.kind = .hereDoc) (ht : t.kind = .semi)
    (hback : Quiet back) : ∃ cs, s.rest.drop (blanks s.rest) = ';' :: cs ∧ Idle cs := by
  induction n generalizing s front with
  | zero => omega
  | succ n ih =>
      obtain ⟨-, e, hts, heof⟩ | ⟨s', u, us, hleft, hturn, hts, hus⟩ := run_cases hn hpending hrun
      · cases front with
        | nil =>
            cases hts
            rw [ht] at heof
            cases heof
        | cons u front => simp at hts
      · change ∃ cs, (s.moveBy (blanks s.rest)).rest = ';' :: cs ∧ Idle cs
        cases front with
        | nil =>
            obtain ⟨rfl, rfl⟩ := List.cons.inj hts
            cases hturn with
            | newline kind => exact nomatch kind.symm.trans ht
            | comment kind => exact nomatch kind.symm.trans ht
            | loud _ hsemi =>
                obtain ⟨hrest, hpending⟩ := hsemi ht
                exact ⟨_, hrest, idle_of_run hleft hpending hus hback⟩
        | cons v front =>
            obtain ⟨rfl, rfl⟩ := List.cons.inj hts
            obtain ⟨hu, hfront⟩ := List.forall_mem_cons.mp hfront
            cases hturn with
            | newline kind => rw [kind] at hu; simp at hu
            | comment kind hrest hline hends hpending =>
                -- a comment takes the rest of its line
                obtain ⟨cs, hcs, -⟩ := ih hleft hpending hus hfront
                cases hrest' : s'.rest with
                | nil => simp [hrest', blanks] at hcs
                | cons c rest =>
                    obtain rfl := hends c (by rw [hrest']; rfl)
                    rw [hrest'] at hcs
                    cases hcs
            | loud hkind => rcases hu with hu | hu <;> rw [hu] at hkind <;> cases hkind

theorem unsaid_of_run (hn : s.left < n) (hpending : s.pending = [])
    (hrun : (run n s).tokens.toList = s.tokens.toList ++ ts) (h : Trails ts) : Unsaid s.rest := by
  obtain hquiet | ⟨front, t, back, rfl, hfront, ht, hback⟩ := h
  · exact .idle (idle_of_run hn hpending hrun hquiet)
  · obtain ⟨cs, hcs, hidle⟩ := semi_of_run hn hpending hrun hfront ht hback
    exact unsaid_of_blanks (hcs ▸ .semi hidle)

end Runs

end Scanner

-- A text that begins with two parentheses begins with an arithmetic command, which closes both, or with one parenthesis.
theorem scanText_open {d : Dialect} (hd : d.supports .arithCommand = true) (file : String) (p : Position) (cs : List Char) :
    ∃ t ts, (scanText d file p ('(' :: '(' :: cs)).1 = t :: ts ∧ (t.kind = .lparen ∨
      t.kind = .arith ∧ t.pos = p ∧ ∃ rest, cs = t.text.toList ++ ')' :: ')' :: rest ∧ (Trails ts → Unsaid rest)) := by
  let start : Scanner := { dialect := d, file, rest := '(' :: '(' :: cs, pos := p }
  have hblanks : start.moveBy (Scanner.blanks start.rest) = start := rfl
  -- the first step, and what the rest of the run adds
  have hfirst {s : Scanner} {t : Token} (hnext : start.next? (cs.length + 3) = some s) (ht : s.tokens = #[t]) :
      s.left < cs.length + 2 ∧ ∃ ts, (scanText d file p ('(' :: '(' :: cs)).1 = t :: ts ∧
        (Scanner.run (cs.length + 2) s).tokens.toList = s.tokens.toList ++ ts := by
    have hleft : s.left < cs.length + 2 := (Scanner.next?_steps (Nat.succ_pos _) hnext).left
    obtain ⟨ts, hts, -⟩ := Scanner.run_layout hleft
    refine ⟨hleft, ts, ?_, hts⟩
    change (Scanner.run (cs.length + 3) start).tokens.toList = _
    rw [Scanner.run, hnext]
    dsimp only
    rw [hts, ht]
    rfl
  cases hclose : Construct.closeArith d start.rest with
  | error e =>
      have hnone : (Construct.closeArith d ('(' :: '(' :: cs)).toOption = none := congrArg Except.toOption hclose
      have hnext : start.next? (cs.length + 3) = some (Scanner.emit (start.take .lparen 1)) := by
        rw [Scanner.next?, hblanks]
        simp [start, hd, hnone, Scanner.operatorAt]
      obtain ⟨-, ts, hts, -⟩ := hfirst hnext rfl
      exact ⟨_, ts, hts, .inl rfl⟩
  | ok rest =>
      let token : Token :=
        { kind := .arith, text := String.ofList ((start.rest.take (start.rest.length - rest.length - 2)).drop 2), pos := p }
      have hsome : (Construct.closeArith d ('(' :: '(' :: cs)).toOption = some rest := congrArg Except.toOption hclose
      have hnext : start.next? (cs.length + 3) = some (Scanner.emit (start.moveTo rest, token)) := by
        rw [Scanner.next?, hblanks]
        simp [start, hd, hsome, token]
      obtain ⟨hleft, ts, hts, hrun⟩ := hfirst hnext rfl
      have hreads := Scanner.arith_reads (s := start) rfl hclose
      refine ⟨token, ts, hts, .inr ⟨rfl, rfl, rest, ?_, fun h => ?_⟩⟩
      · have hrest : '(' :: '(' :: cs = '(' :: '(' :: ((token.text.toList ++ [')', ')']) ++ rest) := hreads.rest
        simpa using hrest
      · exact Scanner.unsaid_of_run hleft rfl hrun h

end Token
end ShellScript

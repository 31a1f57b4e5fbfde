import ShellScript.Proofs.Machine.FieldSplitting
import ShellScript.Proofs.Machine.Congruence

-- What `read` makes of its input: the lines as they are, and the lines in which a backslash takes the meaning of the
-- next character away.
namespace ShellScript
namespace Machine

-- What is left to read of a stream.
def World.unread (w : World) : Stream → List Char
  | .channel i =>
    match w.channels[i]? with
    | some (.source rest _) => rest
    | some (.file path offset _) => (((w.files.find? path).map (·.data)).getD "").toList.drop offset
    | _ => []
  | _ => []

-- The same with `n` characters of a stream less.
def World.skip (w : World) (from_ : Stream) (n : Nat) : World :=
  match from_ with
  | .channel i =>
    match w.channels[i]? with
    | some (.source rest dual) => { w with channels := w.channels.setIfInBounds i (.source (rest.drop n) dual) }
    | some (.file path offset ro) => { w with channels := w.channels.setIfInBounds i (.file path (offset + n) ro) }
    | _ => w
  | _ => w

namespace World

variable (w : World) (from_ : Stream)

theorem unread_skip (n : Nat) : (w.skip from_ n).unread from_ = (w.unread from_).drop n := by
  cases from_ with
  | null => simp [unread]
  | discard => simp [unread]
  | channel i =>
      cases hc : w.channels[i]? with
      | none => simp [skip, unread, hc]
      | some c =>
          obtain ⟨hi, hget⟩ := Array.getElem?_eq_some_iff.mp hc
          cases c <;> simp [skip, unread, hi, hget]

theorem skip_zero : w.skip from_ 0 = w := by
  cases from_ with
  | null => rfl
  | discard => rfl
  | channel i =>
      cases hc : w.channels[i]? with
      | none => simp [skip, hc]
      | some c =>
          obtain ⟨hi, hget⟩ := Array.getElem?_eq_some_iff.mp hc
          have hself : w.channels.setIfInBounds i c = w.channels := by
            refine Array.ext Array.size_setIfInBounds fun j hj hj' => ?_
            rw [Array.getElem_setIfInBounds hj']
            split
            · subst j
              exact hget.symm
            · rfl
          cases c <;> simp [skip, hi, hget, hself]

theorem skip_skip (n m : Nat) : (w.skip from_ n).skip from_ m = w.skip from_ (n + m) := by
  cases from_ with
  | null => rfl
  | discard => rfl
  | channel i =>
      cases hc : w.channels[i]? with
      | none => simp [skip, hc]
      | some c =>
          obtain ⟨hi, hget⟩ := Array.getElem?_eq_some_iff.mp hc
          cases c <;> simp [skip, hi, hget, Nat.add_assoc]

end World

namespace State

def skip (s : State) (from_ : Stream) (n : Nat) : State := { s with world := s.world.skip from_ n }

-- What is left of the shell's own input.
def input (s : State) : List Char := s.world.unread s.shell.streams.input

end State

namespace Run

theorem remaining_eq (from_ : Stream) (s : State) : remaining from_ s = .ok (s.world.unread from_) s := by
  unfold remaining
  rw [world_bind]
  cases from_ with
  | null => rfl
  | discard => rfl
  | channel i =>
      cases hc : s.world.channels[i]? with
      | none => simp only [World.unread, hc]; rfl
      | some c => cases c <;> simp only [World.unread, hc] <;> rfl

theorem consume_eq (from_ : Stream) (n : Nat) (s : State) : consume from_ n s = .ok () (s.skip from_ n) := by
  cases from_ <;> rfl

theorem takeWhile_last {cs : List Char} (h : '\n' ∉ cs) : cs.takeWhile (· != '\n') = cs := by
  rw [List.takeWhile_eq_self_iff]
  intro c hc
  simpa using ne_of_mem_of_not_mem hc h

theorem takeWhile_line {line : List Char} (h : '\n' ∉ line) (rest : List Char) :
    (line ++ '\n' :: rest).takeWhile (· != '\n') = line := by
  rw [List.takeWhile_append_of_pos fun c hc => by simpa using ne_of_mem_of_not_mem hc h]
  simp

theorem readLine_last {from_ : Stream} {s : State} (h : '\n' ∉ s.world.unread from_) :
    readLine from_ '\n' s =
      .ok (String.ofList (s.world.unread from_), true) (s.skip from_ (s.world.unread from_).length) := by
  rw [readLine, bind_of_ok (remaining_eq from_ s), bind_of_ok (consume_eq from_ _ s), takeWhile_last h,
    beq_self_eq_true]
  rfl

theorem readLine_line {from_ : Stream} {s : State} {line rest : List Char}
    (h : s.world.unread from_ = line ++ '\n' :: rest) (hline : '\n' ∉ line) :
    readLine from_ '\n' s = .ok (String.ofList line, false) (s.skip from_ (line.length + 1)) := by
  have hmore : (line.length == (line ++ '\n' :: rest).length) = false := by simp
  rw [readLine, bind_of_ok (remaining_eq from_ s), bind_of_ok (consume_eq from_ _ s), h, takeWhile_line hline, hmore]
  rfl

theorem readLine_eq (from_ : Stream) (s : State) :
    let line := (s.world.unread from_).takeWhile (· != '\n')
    let ended := !(s.world.unread from_).contains '\n'
    readLine from_ '\n' s =
      .ok (String.ofList line, ended) (s.skip from_ (if ended then line.length else line.length + 1)) := by
  intro line ended
  by_cases hnewline : '\n' ∈ s.world.unread from_
  · obtain ⟨front, rest, hunread, hfront⟩ := List.eq_append_cons_of_mem hnewline
    have hline : line = front := (congrArg _ hunread).trans (takeWhile_line hfront rest)
    have hended : ended = false := by simp [ended, hnewline]
    rw [readLine_line hunread hfront, hline, hended]
    rfl
  · have hline : line = s.world.unread from_ := takeWhile_last hnewline
    have hended : ended = true := by simp [ended, hnewline]
    rw [readLine_last hnewline, hline, hended]
    rfl

end Run

-- A character of a line, and whether a backslash stood in front of it.
structure Mark where
  char : Char
  escaped : Bool
deriving Repr, DecidableEq

-- A line that was read, what is left of the input behind it, and whether the input ended before the line did.
structure Scanned where
  marks : List Mark
  rest : List Char
  ended : Bool
deriving Repr, DecidableEq

namespace Scanned

-- With other characters in front.
def prepend (ms : List Mark) (l : Scanned) : Scanned := { l with marks := ms ++ l.marks }

def text (l : Scanned) : List Char := l.marks.map Mark.char

-- The line ends, before the input does, in a backslash that is escaped itself.
def EndsEscaped (l : Scanned) : Prop := l.ended = false ∧ l.marks.getLast? = some ⟨'\\', true⟩

theorem prepend_append (ms ms' : List Mark) (l : Scanned) : prepend (ms ++ ms') l = prepend ms (prepend ms' l) := by
  simp [prepend]

end Scanned

open Scanned

-- Reading a line from left to right: a backslash and the end of a line are skipped, and a backslash and any other
-- character are that character.
def scan : List Char → Scanned
  | [] => ⟨[], [], true⟩
  | '\n' :: cs => ⟨[], cs, false⟩
  | ['\\'] => ⟨[⟨'\\', false⟩], [], true⟩
  | '\\' :: '\n' :: cs => scan cs
  | '\\' :: c :: cs => prepend [⟨c, true⟩] (scan cs)
  | c :: cs => prepend [⟨c, false⟩] (scan cs)

-- What a run of `k` backslashes comes to by itself, but for the last one of an odd number.
def backslashes (k : Nat) : List Mark := List.replicate (k / 2) ⟨'\\', true⟩

-- Reading a line when every end of a line that a backslash stands in front of is skipped, together with that
-- backslash. The number counts the backslashes just before.
def looseScan : Nat → List Char → Scanned
  | k, [] => ⟨backslashes k ++ if k % 2 = 1 then [⟨'\\', false⟩] else [], [], true⟩
  | 0, '\n' :: cs => ⟨[], cs, false⟩
  | k + 1, '\n' :: cs => looseScan k cs
  | k, c :: cs =>
    if c = '\\' then looseScan (k + 1) cs
    else prepend (backslashes k ++ [⟨c, k % 2 = 1⟩]) (looseScan 0 cs)

section Scanning

theorem backslashes_add_two (k : Nat) : backslashes (k + 2) = ⟨'\\', true⟩ :: backslashes k := by
  simp [backslashes, List.replicate_succ]

theorem looseScan_backslash (k : Nat) (cs : List Char) : looseScan k ('\\' :: cs) = looseScan (k + 1) cs := by
  cases k <;> simp [looseScan]

theorem looseScan_other (k : Nat) {c : Char} (hn : c ≠ '\n') (hb : c ≠ '\\') (cs : List Char) :
    looseScan k (c :: cs) = prepend (backslashes k ++ [⟨c, k % 2 = 1⟩]) (looseScan 0 cs) := by
  cases k <;> simp [looseScan, hn, hb]

theorem scan_other {c : Char} (hn : c ≠ '\n') (hb : c ≠ '\\') (cs : List Char) :
    scan (c :: cs) = prepend [⟨c, false⟩] (scan cs) := by
  simp [scan, hb]

theorem scan_escaped {c : Char} (hn : c ≠ '\n') (cs : List Char) :
    scan ('\\' :: c :: cs) = prepend [⟨c, true⟩] (scan cs) := by
  simp [scan]

-- A run of backslashes, read two by two.
theorem scan_replicate_add_two (k : Nat) (cs : List Char) :
    scan (List.replicate (k + 2) '\\' ++ cs) = prepend [⟨'\\', true⟩] (scan (List.replicate k '\\' ++ cs)) :=
  scan_escaped (by decide) _

theorem scan_backslashes : ∀ (k : Nat) (cs : List Char),
    scan (List.replicate k '\\' ++ cs) = prepend (backslashes k) (scan (List.replicate (k % 2) '\\' ++ cs))
  | 0, _ => rfl
  | 1, _ => rfl
  | k + 2, cs => by
      rw [scan_replicate_add_two, scan_backslashes k, backslashes_add_two, Nat.add_mod_right]
      rfl

theorem scan_backslashes_other (k : Nat) {c : Char} (hn : c ≠ '\n') (hb : c ≠ '\\') (cs : List Char) :
    scan (List.replicate k '\\' ++ c :: cs) = prepend (backslashes k ++ [⟨c, k % 2 = 1⟩]) (scan cs) := by
  rw [scan_backslashes, prepend_append]
  rcases Nat.mod_two_eq_zero_or_one k with hk | hk
  · simp [hk, scan_other hn hb]
  · simp [hk, scan_escaped hn]

-- A line goes on behind an odd number of backslashes.
theorem scan_backslashes_newline_even {k : Nat} (hk : k % 2 = 0) (cs : List Char) :
    scan (List.replicate (k + 1) '\\' ++ '\n' :: cs) = scan (List.replicate k '\\' ++ cs) := by
  have hodd : (k + 1) % 2 = 1 := by omega
  have hhalf : (k + 1) / 2 = k / 2 := by omega
  rw [scan_backslashes, scan_backslashes k, hodd, hk, backslashes, backslashes, hhalf]
  simp [scan]

theorem scan_backslashes_newline_odd {k : Nat} (hk : k % 2 = 1) (cs : List Char) :
    scan (List.replicate (k + 1) '\\' ++ '\n' :: cs) = ⟨backslashes (k + 1), cs, false⟩ := by
  have heven : (k + 1) % 2 = 0 := by omega
  rw [scan_backslashes, heven]
  simp [scan, prepend]

theorem getLast_backslashes {k : Nat} (hk : 2 ≤ k) : (backslashes k).getLast? = some ⟨'\\', true⟩ := by
  have hhalf : k / 2 ≠ 0 := by omega
  simp [backslashes, List.getLast?_replicate, hhalf]

theorem Scanned.EndsEscaped.prepend {l : Scanned} (h : l.EndsEscaped) (ms : List Mark) : (l.prepend ms).EndsEscaped :=
  ⟨h.1, by simp [Scanned.prepend, List.getLast?_append, h.2]⟩

-- The two readings agree unless a line ends in an escaped backslash.
theorem looseScan_eq_scan {k : Nat} {cs : List Char} (h : ¬(scan (List.replicate k '\\' ++ cs)).EndsEscaped) :
    looseScan k cs = scan (List.replicate k '\\' ++ cs) := by
  induction cs generalizing k with
  | nil =>
      rw [scan_backslashes]
      rcases Nat.mod_two_eq_zero_or_one k with hk | hk <;> simp [looseScan, hk, scan, prepend]
  | cons c cs ih =>
      by_cases hb : c = '\\'
      · have hmore : List.replicate k '\\' ++ c :: cs = List.replicate (k + 1) '\\' ++ cs := by
          simp [hb, List.replicate_succ']
        rw [hmore] at h ⊢
        rw [hb, looseScan_backslash, ih h]
      by_cases hn : c = '\n'
      · subst hn
        cases k with
        | zero => rfl
        | succ k =>
            rcases Nat.mod_two_eq_zero_or_one k with hk | hk
            · rw [scan_backslashes_newline_even hk] at h ⊢
              rw [looseScan, ih h]
            · refine absurd ?_ h
              rw [scan_backslashes_newline_odd hk]
              exact ⟨rfl, getLast_backslashes (by omega)⟩
      · rw [scan_backslashes_other k hn hb] at h ⊢
        have htail : looseScan 0 cs = scan cs := ih (k := 0) fun hends => h (hends.prepend _)
        rw [looseScan_other k hn hb, htail]

-- No line is read that way.
theorem looseScan_not_endsEscaped (k : Nat) (cs : List Char) : ¬(looseScan k cs).EndsEscaped := by
  induction cs generalizing k with
  | nil => simp [looseScan, EndsEscaped]
  | cons c cs ih =>
      by_cases hb : c = '\\'
      · rw [hb, looseScan_backslash]
        exact ih (k + 1)
      by_cases hn : c = '\n'
      · subst hn
        cases k with
        | zero => simp [looseScan, EndsEscaped]
        | succ k => exact ih k
      · rw [looseScan_other k hn hb]
        rintro ⟨hended, hlast⟩
        rw [prepend, List.getLast?_append] at hlast
        cases htail : (looseScan 0 cs).marks.getLast? with
        | none => simp [htail, hb] at hlast
        | some m =>
            rw [htail] at hlast
            exact ih 0 ⟨hended, htail.trans hlast⟩

theorem looseScan_eq_scan_iff (cs : List Char) : looseScan 0 cs = scan cs ↔ ¬(scan cs).EndsEscaped := by
  constructor
  · intro h
    rw [← h]
    exact looseScan_not_endsEscaped 0 cs
  · exact looseScan_eq_scan (k := 0)

-- An end of a line and the backslash in front of it might as well not be there.
theorem looseScan_continued (k : Nat) {l : List Char} (hl : '\n' ∉ l) (cs : List Char) :
    looseScan k (l ++ '\\' :: '\n' :: cs) = looseScan k (l ++ cs) := by
  induction l generalizing k with
  | nil => exact looseScan_backslash k ('\n' :: cs)
  | cons c l ih =>
      obtain ⟨hc, hl⟩ := not_or.mp (mt List.mem_cons.mpr hl)
      by_cases hb : c = '\\'
      · rw [hb, List.cons_append, List.cons_append, looseScan_backslash, looseScan_backslash, ih (k + 1) hl]
      · rw [List.cons_append, List.cons_append, looseScan_other k (Ne.symm hc) hb, looseScan_other k (Ne.symm hc) hb, ih 0 hl]

-- Behind anything else but a backslash the line ends.
theorem looseScan_line {k : Nat} {l : List Char} (hl : '\n' ∉ l) (hlast : l.getLast? ≠ some '\\') (hk : l = [] → k = 0)
    (cs : List Char) : looseScan k (l ++ '\n' :: cs) = { looseScan k l with rest := cs, ended := false } := by
  induction l generalizing k with
  | nil =>
      rw [hk rfl]
      rfl
  | cons c l ih =>
      obtain ⟨hc, hl⟩ := not_or.mp (mt List.mem_cons.mpr hl)
      have hlast' : l.getLast? ≠ some '\\' := by
        intro h
        exact hlast (by simp [List.getLast?_cons, h])
      by_cases hb : c = '\\'
      · have hne : l ≠ [] := by
          rintro rfl
          exact hlast (by simp [hb])
        rw [hb, List.cons_append, looseScan_backslash, looseScan_backslash, ih hl hlast' fun h => absurd h hne]
      · rw [List.cons_append, looseScan_other k (Ne.symm hc) hb, looseScan_other k (Ne.symm hc) hb,
          ih hl hlast' fun _ => rfl]
        rfl

theorem unbackslash_other {c : Char} (hb : c ≠ '\\') (cs : List Char) :
    Command.unbackslash (c :: cs) = c :: Command.unbackslash cs := by
  simp [Command.unbackslash, hb]

-- Without the end of a line in it, the text is what is left of it without its backslashes.
theorem scan_of_no_newline {l : List Char} (hl : '\n' ∉ l) :
    (scan l).text = Command.unbackslash l ∧ (scan l).rest = [] ∧ (scan l).ended = true := by
  induction l using Command.unbackslash.induct with
  | case1 => exact ⟨rfl, rfl, rfl⟩
  | case2 => exact ⟨rfl, rfl, rfl⟩
  | case3 c cs ih =>
      simp only [List.mem_cons, not_or] at hl
      obtain ⟨htext, hend⟩ := ih hl.2.2
      rw [scan_escaped (Ne.symm hl.2.1)]
      exact ⟨congrArg (c :: ·) htext, hend⟩
  | case4 c cs hlone hescaping ih =>
      have hb : c ≠ '\\' := by
        rintro rfl
        cases cs with
        | nil => exact hlone rfl rfl
        | cons d ds => exact hescaping d ds rfl rfl
      simp only [List.mem_cons, not_or] at hl
      obtain ⟨htext, hend⟩ := ih hl.2
      rw [scan_other (Ne.symm hl.1) hb, unbackslash_other hb]
      exact ⟨congrArg (c :: ·) htext, hend⟩

theorem looseScan_of_no_newline {l : List Char} (hl : '\n' ∉ l) :
    (looseScan 0 l).text = Command.unbackslash l ∧ (looseScan 0 l).rest = [] ∧ (looseScan 0 l).ended = true := by
  have hscan := scan_of_no_newline hl
  have heq : looseScan 0 l = scan l :=
    looseScan_eq_scan (k := 0) fun h => Bool.noConfusion (h.1.symm.trans hscan.2.2)
  rwa [heq]

end Scanning

section Continuing

variable {from_ : Stream} {s : State} {l : List Char} {n : Nat}

open Run Command

theorem hasSuffix_backslash (l : List Char) : Text.hasSuffix (String.ofList (l ++ ['\\'])) "\\" = true := by
  simp [Text.hasSuffix]

theorem not_hasSuffix_backslash (hl : l.getLast? ≠ some '\\') : Text.hasSuffix (String.ofList l) "\\" = false := by
  rw [Text.hasSuffix, Bool.eq_false_iff, ne_eq, List.isSuffixOf_iff_suffix]
  simp only [String.toList_ofList]
  rintro ⟨l', rfl⟩
  exact hl List.getLast?_concat

theorem continueLine_ended (n : Nat) (line : String) : continueLine from_ '\n' n line true = pure (line, true) := by
  cases n with
  | zero => rfl
  | succ n => simp [continueLine]

theorem continueLine_of_not_suffix (n : Nat) (hl : l.getLast? ≠ some '\\') :
    continueLine from_ '\n' n (String.ofList l) false = pure (String.ofList l, false) := by
  cases n with
  | zero => rfl
  | succ n => simp [continueLine, not_hasSuffix_backslash hl]

theorem continueLine_of_suffix (n : Nat) (l : List Char) :
    continueLine from_ '\n' (n + 1) (String.ofList (l ++ ['\\'])) false =
      readLine from_ '\n' >>= fun r => continueLine from_ '\n' n (String.ofList l ++ r.1) r.2 := by
  have hfront : Text.dropBack 1 (String.ofList (l ++ ['\\'])) = String.ofList l := by simp [Text.dropBack]
  rw [continueLine, hasSuffix_backslash, hfront]
  rfl

-- What is read off a stream is such a line once the backslashes in front of other characters are gone.
structure Reads (m : Run (String × Bool)) (from_ : Stream) (s : State) (r : Scanned) : Prop where
  rest : r.rest.length ≤ (s.world.unread from_).length
  line : ∃ line, m s = .ok (line, r.ended) (s.skip from_ ((s.world.unread from_).length - r.rest.length)) ∧
    unbackslash line.toList = r.text

theorem reads_ended (hs : s.world.unread from_ = []) (hl : '\n' ∉ l) :
    Reads (continueLine from_ '\n' n (String.ofList l) true) from_ s (looseScan 0 l) := by
  obtain ⟨htext, hrest, hended⟩ := looseScan_of_no_newline hl
  refine ⟨by simp [hrest], String.ofList l, ?_, ?_⟩
  · rw [continueLine_ended, hended, hs, List.length_nil, Nat.zero_sub, State.skip, World.skip_zero]
    rfl
  · rw [String.toList_ofList, htext]

-- Behind what was taken off the stream before.
theorem Reads.after {m : Run (String × Bool)} {k : String × Bool → Run (String × Bool)} {a : String × Bool} {i : Nat}
    {r : Scanned} (hm : m s = .ok a (s.skip from_ i)) (hi : i ≤ (s.world.unread from_).length)
    (hk : Reads (k a) from_ (s.skip from_ i) r) : Reads (m >>= k) from_ s r := by
  obtain ⟨hrest, line, hline, htext⟩ := hk
  have hleft : ((s.skip from_ i).world.unread from_).length = (s.world.unread from_).length - i := by
    rw [State.skip, World.unread_skip, List.length_drop]
  rw [hleft] at hrest hline
  refine ⟨by omega, line, ?_, htext⟩
  rw [bind_of_ok hm, hline, State.skip, State.skip, World.skip_skip]
  congr 3
  omega

-- With a line read already, how the rest of the stream is read.
theorem reads_readLine
    (hgo : ∀ {l : List Char} {s : State}, '\n' ∉ l → (s.world.unread from_).length < n →
      Reads (continueLine from_ '\n' n (String.ofList l) false) from_ s (looseScan 0 (l ++ '\n' :: s.world.unread from_)))
    (hl : '\n' ∉ l) (hn : (s.world.unread from_).length ≤ n) :
    Reads (readLine from_ '\n' >>= fun r => continueLine from_ '\n' n (String.ofList l ++ r.1) r.2) from_ s
      (looseScan 0 (l ++ s.world.unread from_)) := by
  by_cases hnewline : '\n' ∈ s.world.unread from_
  · obtain ⟨line, rest, hunread, hline⟩ := List.eq_append_cons_of_mem hnewline
    have hrest : (s.skip from_ (line.length + 1)).world.unread from_ = rest := by
      rw [State.skip, World.unread_skip, hunread]
      simp
    have hlength : (s.world.unread from_).length = line.length + 1 + rest.length := by
      rw [hunread]
      simp
      omega
    refine Reads.after (readLine_line hunread hline) (by omega) ?_
    have hmore := hgo (l := l ++ line) (s := s.skip from_ (line.length + 1)) (by simp [hl, hline]) (by rw [hrest]; omega)
    rwa [hrest, List.append_assoc, ← hunread, String.ofList_append] at hmore
  · refine Reads.after (readLine_last hnewline) (Nat.le_refl _) ?_
    rw [← String.ofList_append]
    refine reads_ended ?_ (by simp [hl, hnewline])
    rw [State.skip, World.unread_skip, List.drop_length]

theorem reads_continueLine (hl : '\n' ∉ l) (hn : (s.world.unread from_).length < n) :
    Reads (continueLine from_ '\n' n (String.ofList l) false) from_ s (looseScan 0 (l ++ '\n' :: s.world.unread from_)) := by
  induction n generalizing l s with
  | zero => omega
  | succ n ih =>
      by_cases hlast : l.getLast? = some '\\'
      · obtain ⟨l, rfl⟩ := List.getLast?_eq_some_iff.mp hlast
        have hl' : '\n' ∉ l := fun h => hl (List.mem_append_left _ h)
        rw [List.append_assoc, List.singleton_append, looseScan_continued 0 hl', continueLine_of_suffix]
        exact reads_readLine ih hl' (Nat.le_of_lt_succ hn)
      · rw [looseScan_line hl hlast fun _ => rfl, continueLine_of_not_suffix (n + 1) hlast]
        refine ⟨Nat.le_refl _, String.ofList l, ?_, ?_⟩
        · rw [Nat.sub_self, State.skip, World.skip_zero]
          rfl
        · rw [String.toList_ofList]
          exact (looseScan_of_no_newline hl).1.symm

end Continuing

-- Splitting what stands for a text.
section Standing

variable {α β : Type} (g : α → β) (sep blank : β → Bool)

theorem pastDivider_map (cs : List α) :
    pastDivider sep blank (cs.map g) = (pastDivider (sep ∘ g) (blank ∘ g) cs).map g := by
  unfold pastDivider
  rw [List.dropWhile_map]
  cases cs.dropWhile (blank ∘ g) with
  | nil => rfl
  | cons c more =>
      simp only [List.map_cons, Function.comp_apply]
      split
      · exact List.dropWhile_map
      · rfl

theorem trimmed_map (cs : List α) : trimmed blank (cs.map g) = (trimmed (blank ∘ g) cs).map g := by
  simp only [trimmed, List.rdropWhile, List.dropWhile_map, ← List.map_reverse]

theorem pieces_map (limit : Option Nat) (cs : List α) :
    pieces sep blank limit (cs.map g) = (pieces (sep ∘ g) (blank ∘ g) limit cs).map (List.map g) := by
  induction hn : cs.length using Nat.strong_induction_on generalizing limit cs with
  | h n ih =>
    by_cases hne : cs = []
    · rw [hne, List.map_nil, pieces_nil, pieces_nil]
      rfl
    have hne' : cs.map g ≠ [] := mt List.map_eq_nil_iff.mp hne
    by_cases hlimit : limit = some 1
    · rw [pieces, dif_neg hne', if_pos hlimit, pieces, dif_neg hne, if_pos hlimit]
      rfl
    · have hshort := length_pastDivider_lt (sep ∘ g) (blank ∘ g) hne
      rw [pieces_of_ne sep blank hne' hlimit, pieces_of_ne (sep ∘ g) (blank ∘ g) hne hlimit, List.takeWhile_map,
        List.dropWhile_map, pastDivider_map, List.map_cons]
      exact congrArg _ (ih _ (hn ▸ hshort) _ _ rfl)

end Standing

namespace Mark

-- An escaped character divides nothing and is not left out.
def isSep (separators : List Char) (m : Mark) : Bool := !m.escaped && separators.contains m.char

def isBlankSep (separators : List Char) (m : Mark) : Bool := !m.escaped && Fields.isBlankSep separators m.char

-- The character as if no backslash had been in front of it.
def bare (m : Mark) : Mark := { m with escaped := false }

def textOf (ms : List Mark) : String := String.ofList (ms.map Mark.char)

-- The fields of a line, at most `limit` of them when there is one.
def fields (separators : String) (limit : Option Nat) (ms : List Mark) : List String :=
  (pieces (isSep separators.toList) (isBlankSep separators.toList) limit
    (trimmed (isBlankSep separators.toList) ms)).map textOf

-- Where no separator is escaped, the fields are those of the text.
theorem fields_map {separators : String} {g : Mark → Mark} (hchar : ∀ m, (g m).char = m.char)
    (hbare : ∀ m, m.char ∈ separators.toList → (g m).escaped = false) {limit : Option Nat} (hlimit : ∀ k ∈ limit, 0 < k)
    (ms : List Mark) : fields separators limit (ms.map g) = Command.splitLine separators limit (textOf ms) := by
  have hsep : isSep separators.toList ∘ g = separators.toList.contains ∘ Mark.char := by
    funext m
    by_cases hm : m.char ∈ separators.toList <;> simp [isSep, hchar, hm, hbare]
  have hblank : isBlankSep separators.toList ∘ g = Fields.isBlankSep separators.toList ∘ Mark.char := by
    funext m
    by_cases hm : m.char ∈ separators.toList <;> simp [isBlankSep, Fields.isBlankSep, hchar, hm, hbare]
  have htext : textOf ∘ List.map g = String.ofList ∘ List.map Mark.char := by
    funext l
    simp [textOf, Function.comp_def, hchar]
  rw [Command.splitLine_eq separators hlimit, fields, trimmed_map, pieces_map, hsep, hblank, List.map_map, htext,
    textOf, String.toList_ofList, trimmed_map, pieces_map, List.map_map]

theorem fields_bare (separators : String) {limit : Option Nat} (hlimit : ∀ k ∈ limit, 0 < k) (ms : List Mark) :
    fields separators limit (ms.map bare) = Command.splitLine separators limit (textOf ms) :=
  fields_map (g := bare) (fun _ => rfl) (fun _ _ => rfl) hlimit ms

theorem fields_of_no_escaped_separator {separators : String} {ms : List Mark}
    (h : ∀ m ∈ ms, m.escaped = true → m.char ∉ separators.toList) {limit : Option Nat} (hlimit : ∀ k ∈ limit, 0 < k) :
    fields separators limit ms = fields separators limit (ms.map bare) := by
  -- what is escaped is no separator, so only that has to stay as it is
  let g (m : Mark) : Mark := if m.char ∈ separators.toList then m.bare else m
  have hg : ms.map g = ms := by
    refine (List.map_congr_left fun m hm => ?_).trans (List.map_id ms)
    by_cases hsep : m.char ∈ separators.toList
    · have hm' : m.escaped = false := by simpa [hsep] using h m hm
      simp only [g, hsep, if_true, bare, ← hm', id]
    · simp only [g, hsep, if_false, id]
  have hchar : ∀ m, (g m).char = m.char := by
    intro m
    simp only [g]
    split <;> rfl
  have hbare : ∀ m, m.char ∈ separators.toList → (g m).escaped = false := by
    intro m hm
    simp only [g, hm, if_true]
    rfl
  rw [fields_bare separators hlimit, ← fields_map hchar hbare hlimit, hg]

end Mark

open Run

-- The options of a `read` that reads a whole line.
structure Flags.WholeLine (f : Flags) : Prop where
  delim : (((f.value? 'd').getD "\n").toList).headD '\x00' = '\n'
  count : ¬0 < (((f.value? 'n').map (Text.int64 0)).bind Text.Numeral.toOption).getD 0

-- The line goes into one variable as it is.
def Flags.Unsplit (f : Flags) : Prop := f.operands = [] ∧ (f.value? 'a').getD "" = ""

namespace Mark

-- What was read becomes the value of the variables with the names.
def assign (separators : String) (ms : List Mark) : List String → Run Unit
  | [] => setVar "REPLY" (textOf ms)
  | names => Command.setAll (fields separators (some names.length) ms) names

-- What was read becomes the value of the variables that a command names.
def store (separators : String) (f : Flags) (ms : List Mark) : Run Unit :=
  match f.value? 'a' with
  | some array =>
    if array.isEmpty then assign separators ms f.operands else setArray array (fields separators none ms)
  | none => assign separators ms f.operands

end Mark

-- Reads a line off the shell's input in the given way.
def readMarked (scan : List Char → Scanned) (f : Flags) : Run Unit := fun s =>
  let line := scan s.input
  Mark.store s.shell.separators f line.marks
    ((s.skip s.shell.streams.input (s.input.length - line.rest.length)).withStatus (if line.ended then 1 else 0))

-- The reading of the command: it forgets which characters were escaped.
def forgetful (cs : List Char) : Scanned :=
  let line := looseScan 0 cs
  { line with marks := line.marks.map Mark.bare }

namespace Command

-- What follows a line that was read.
def storeLine (f : Flags) (line : String) (ended : Bool) : Run Unit := do
  setStatus (if ended then 1 else 0)
  let separators := (← shell).separators
  match f.value? 'a' with
  | some array =>
    if array.isEmpty then read.finish line separators f.operands else setArray array (splitLine separators none line)
  | none => read.finish line separators f.operands

-- How a whole line is read.
def readWhole (raw : Bool) (from_ : Stream) (fuel : Nat) : Run (String × Bool) :=
  if raw then readLine from_ '\n' else readLine from_ '\n' >>= fun r => continueLine from_ '\n' fuel r.1 r.2

theorem read_whole {f : Flags} {args : List String} (hf : Flags.read readFlags args = .ok f) (h : f.WholeLine)
    (name : String) :
    read name args = prompt ((f.value? 'p').getD "") >>= fun _ s =>
      (readWhole (f.on 'r') s.shell.streams.input (s.input.length + 1) >>= fun r =>
        storeLine f (if f.on 'r' then r.1 else String.ofList (unbackslash r.1.toList)) r.2) s := by
  unfold read withFlags
  rw [hf]
  dsimp only
  refine congrArg (prompt _ >>= ·) (funext fun _ => funext fun s => ?_)
  rw [shell_bind, h.delim, if_neg h.count, bind_of_ok (remaining_eq _ s), readWhole]
  cases f.on 'r' with
  | true => rfl
  | false =>
      rw [if_neg Bool.false_ne_true, bind_assoc]
      rfl

theorem finish_textOf (separators : String) (ms : List Mark) (names : List String) :
    read.finish (Mark.textOf ms) separators names = Mark.assign separators (ms.map Mark.bare) names := by
  cases names with
  | nil => simp [read.finish, Mark.assign, Mark.textOf, Function.comp_def, Mark.bare]
  | cons n ns =>
      rw [Mark.assign, Mark.fields_bare]
      · rfl
      · simp
      · simp

theorem storeLine_textOf (f : Flags) (ms : List Mark) (ended : Bool) (s : State) :
    storeLine f (Mark.textOf ms) ended s =
      Mark.store s.shell.separators f (ms.map Mark.bare) (s.withStatus (if ended then 1 else 0)) := by
  rw [storeLine, setStatus_bind, shell_bind, Mark.store, Mark.fields_bare _ (by simp), ← finish_textOf]
  rfl

-- The command reads in its own way.
theorem read_cooked {f : Flags} {args : List String} (hf : Flags.read readFlags args = .ok f) (h : f.WholeLine)
    (hraw : f.on 'r' = false) (name : String) :
    read name args = prompt ((f.value? 'p').getD "") >>= fun _ => readMarked forgetful f := by
  rw [read_whole hf h, hraw]
  refine congrArg (prompt _ >>= ·) (funext fun _ => funext fun s => ?_)
  obtain ⟨-, line, hline, htext⟩ : Reads (readWhole false s.shell.streams.input (s.input.length + 1))
      s.shell.streams.input s (looseScan 0 s.input) := by
    have hreads := @reads_readLine s.shell.streams.input s [] (s.input.length + 1)
      (fun hl hn => reads_continueLine hl hn) (by simp) (Nat.le_succ _)
    simp only [String.ofList_nil, String.empty_append, List.nil_append] at hreads
    exact hreads
  rw [bind_of_ok hline]
  have htext' : String.ofList (unbackslash line.toList) = Mark.textOf (looseScan 0 s.input).marks := congrArg _ htext
  rw [if_neg Bool.false_ne_true, htext', storeLine_textOf]
  rfl

-- With `-r` the line is what stands in front of its end.
theorem read_raw {f : Flags} {args : List String} (hf : Flags.read readFlags args = .ok f) (h : f.WholeLine)
    (hraw : f.on 'r' = true) (name : String) :
    read name args = prompt ((f.value? 'p').getD "") >>= fun _ s =>
      let line := s.input.takeWhile (· != '\n')
      let ended := !s.input.contains '\n'
      storeLine f (String.ofList line) ended
        (s.skip s.shell.streams.input (if ended then line.length else line.length + 1)) := by
  rw [read_whole hf h, hraw]
  refine congrArg (prompt _ >>= ·) (funext fun _ => funext fun s => ?_)
  rw [readWhole, if_pos rfl, bind_of_ok (readLine_eq _ s)]
  rfl

theorem read_raw_array {array : String} (harray : array ≠ "") (name : String) (s : State) :
    let line := s.input.takeWhile (· != '\n')
    let ended := !s.input.contains '\n'
    read name ["-r", "-a", array] s =
      setArray array (splitLine s.shell.separators none (String.ofList line))
        ((s.skip s.shell.streams.input (if ended then line.length else line.length + 1)).withStatus
          (if ended then 1 else 0)) := by
  intro line ended
  let f : Flags := ⟨[('a', array), ('r', "")], []⟩
  have hf : Flags.read readFlags ["-r", "-a", array] = .ok f := rfl
  have hdelim : f.value? 'd' = none := rfl
  have hcount : f.value? 'n' = none := rfl
  have hprompt : f.value? 'p' = none := rfl
  rw [read_raw hf ⟨by simp [hdelim], by simp [hcount]⟩ rfl, hprompt]
  exact congrFun (if_neg (by simpa using harray)) _

end Command

-- A single value that is not quoted.
theorem fields_single {E : Engine} {x : Program.Param} {s t : State} {p : ParamValue} (hx : param E x s = .ok p t)
    (hp : p.plural = .one) :
    fields E [⟨[.param x]⟩] s = matchAll (({} : Fields).split ⟨s.shell.separators, false⟩ p.text).finish t := by
  have hadd : addParam ⟨s.shell.separators, false⟩ false p {} =
      ({} : Fields).split ⟨s.shell.separators, false⟩ p.text := by
    rw [addParam, hp]
    rfl
  rw [fields_param hx, hadd]

-- The two ways of dividing a text into fields agree, for every text and all separators. So `read -r -a` gives an array
-- the texts of the fields that an expansion to the same line has, and these are what the expansion comes to where they
-- are no patterns.
theorem splitting_agrees :
    (∀ separators v, (({} : Fields).split ⟨separators, false⟩ v).texts = Command.splitLine separators none v) ∧
    ∀ (s : State) (name array : String), array ≠ "" →
      let line := s.input.takeWhile (· != '\n')
      let ended := !s.input.contains '\n'
      let values := Command.splitLine s.shell.separators none (String.ofList line)
      Command.read name ["-r", "-a", array] s =
        setArray array values
          ((s.skip s.shell.streams.input (if ended then line.length else line.length + 1)).withStatus
            (if ended then 1 else 0)) ∧
      ∀ E x u p t, param E x u = .ok p t → p.plural = .one → p.text = String.ofList line →
        u.shell.separators = s.shell.separators →
        ∃ fs, fs.map Fragment.plain = values ∧ fields E [⟨[.param x]⟩] u = matchAll fs t ∧
          ((t.shell.options.noglob = true ∨ ∀ f ∈ fs, Fragment.hasMeta f = false) →
            fields E [⟨[.param x]⟩] u = .ok values t) := by
  refine ⟨Fields.texts_split, fun s name array harray => ⟨Command.read_raw_array harray name s, ?_⟩⟩
  intro E x u p t hx hp hline hseparators
  have hfields := fields_single hx hp
  have htexts := Fields.texts_split u.shell.separators p.text
  rw [hline, hseparators] at hfields htexts
  refine ⟨_, htexts, hfields, fun hplain => ?_⟩
  rw [hfields, matchAll_plain hplain]
  exact congrArg (EStateM.Result.ok · t) htexts

-- Where no separator is escaped, or nothing is divided, nothing is lost that way.
theorem store_bare {separators : String} {f : Flags} {ms : List Mark}
    (h : f.Unsplit ∨ ∀ m ∈ ms, m.escaped = true → m.char ∉ separators.toList) :
    Mark.store separators f (ms.map Mark.bare) = Mark.store separators f ms := by
  have htext : Mark.textOf (ms.map Mark.bare) = Mark.textOf ms := by simp [Mark.textOf, Function.comp_def, Mark.bare]
  obtain ⟨hnames, harray⟩ | hsep := h
  · rw [Mark.store, Mark.store, hnames, Mark.assign, Mark.assign, htext]
    cases ha : f.value? 'a' with
    | none => rfl
    | some array =>
        have hempty : array.isEmpty = true := by simpa [ha] using harray
        simp [hempty]
  · have hfields {limit : Option Nat} (hlimit : ∀ k ∈ limit, 0 < k) :
        Mark.fields separators limit (ms.map Mark.bare) = Mark.fields separators limit ms :=
      (Mark.fields_of_no_escaped_separator hsep hlimit).symm
    have hassign (names : List String) :
        Mark.assign separators (ms.map Mark.bare) names = Mark.assign separators ms names := by
      cases names with
      | nil => rw [Mark.assign, Mark.assign, htext]
      | cons n ns =>
          rw [Mark.assign, Mark.assign, hfields] <;> simp
    rw [Mark.store, Mark.store, hfields (by simp), hassign]

-- A shell with a text to read.
def State.reading (text : String) : State :=
  { world := { channels := #[.source text.toList false] }, shell := { streams := { input := .channel 0 } } }

-- A line with a separator that is not blank, which is also the value of `v`.
theorem splitting_agrees_at_colons :
    let E := engine { name := "", main := default } true 1 1
    let env : Env := { scope := [("IFS", { value := ": " }), ("v", { value := " a: b c:" })] }
    let s := State.reading " a: b c:\n"
    let s : State := { s with shell := { s.shell with env, options := { noglob := true } } }
    let x : Program.Param := ⟨"v", false, false, none, none, none, none, none⟩
    let values := Command.splitLine ": " none " a: b c:"
    Command.read "read" ["-r", "-a", "words"] s = setArray "words" values ((s.skip (.channel 0) 9).withStatus 0) ∧
      fields E [⟨[.param x]⟩] s = .ok values s := by
  intro E env s₀ s x values
  have hx : param E x s = .ok (wholeValue (env.get? "v")) s := by
    have hnumber : Text.int64? "v" = none := by decide +kernel
    have hspecial : special? s.shell "v" = none := by simp [special?, hnumber]
    have hvar : env.get? "v" = some { value := " a: b c:" } := by decide +kernel
    refine (param_plain E ⟨true, "v", false, false, none, none, none, none, none⟩ none none s).trans ?_
    simp [Shell.plainValue?, hspecial, s, hvar, wholeValue, ParamValue.ofText]
  obtain ⟨hread, hfields⟩ := splitting_agrees.2 s "read" "words" (by decide)
  obtain ⟨fs, htexts, -, hplain⟩ := hfields E x s _ s hx rfl (by decide) rfl
  exact ⟨hread, hplain (.inl rfl)⟩

-- `read` without `-r`, for every input, all separators and names: it takes a line off the input as `looseScan` does and
-- then splits its text, no matter which of its characters were escaped. That is the reading from left to right if the
-- line does not end in an escaped backslash (`looseScan` is the same exactly in that case), and if no separator is
-- escaped or the line is not split.
theorem read_backslashes {f : Flags} {args : List String} (hf : Flags.read Command.readFlags args = .ok f)
    (hwhole : f.WholeLine) (hraw : f.on 'r' = false) (name : String) :
    (Command.read name args = Command.prompt ((f.value? 'p').getD "") >>= fun _ => readMarked forgetful f) ∧
    (∀ cs, looseScan 0 cs = scan cs ↔ ¬(scan cs).EndsEscaped) ∧
    ∀ s : State, ¬(scan s.input).EndsEscaped →
      (f.Unsplit ∨ ∀ m ∈ (scan s.input).marks, m.escaped = true → m.char ∉ s.shell.separators.toList) →
      readMarked forgetful f s = readMarked scan f s := by
  refine ⟨Command.read_cooked hf hwhole hraw name, looseScan_eq_scan_iff, fun s hends hsep => ?_⟩
  rw [readMarked, readMarked, forgetful, (looseScan_eq_scan_iff s.input).mpr hends]
  dsimp only
  rw [store_bare hsep]

-- A line with an escaped character that is no separator, and one more line of it behind a backslash.
theorem read_backslashes_at_once :
    let f : Flags := { operands := ["x", "y"] }
    let s := State.reading "one\\-two th\\\nree\n"
    Flags.read Command.readFlags ["x", "y"] = .ok f ∧ f.WholeLine ∧ ¬(scan s.input).EndsEscaped ∧
      Command.read "read" ["x", "y"] s = readMarked scan f s := by
  intro f s
  have hf : Flags.read Command.readFlags ["x", "y"] = .ok f := rfl
  have hwhole : f.WholeLine := ⟨by decide, by decide⟩
  have hends : ¬(scan s.input).EndsEscaped := fun h => absurd h.2 (by decide)
  have hsep : ∀ m ∈ (scan s.input).marks, m.escaped = true → m.char ∉ s.shell.separators.toList := by decide +kernel
  obtain ⟨hread, -, hagree⟩ := read_backslashes hf hwhole rfl "read"
  refine ⟨hf, hwhole, hends, ?_⟩
  rw [hread, ← hagree s hends (.inr hsep)]
  rfl

-- An escaped blank divides a line.
theorem escaped_blank_divides :
    let s := State.reading "x\\ y z\n"
    (match Command.read "read" ["a", "b"] s with
      | .ok _ t => some (t.shell.env.value? "a", t.shell.env.value? "b")
      | .error _ _ => none) = some (some "x", some "y z") ∧
    (match readMarked scan { operands := ["a", "b"] } s with
      | .ok _ t => some (t.shell.env.value? "a", t.shell.env.value? "b")
      | .error _ _ => none) = some (some "x y", some "z") := by
  decide +kernel

end Machine
end ShellScript

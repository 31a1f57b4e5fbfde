import ShellScript.Datum
import ShellScript.Script.Outline
import ShellScript.Proofs.Script.Alike

-- The outline of a tree says everything that its text depends on: trees of one outline are written in one way. Of two
-- records that are the same every field is the same, although a field that says nothing is left out.
namespace ShellScript

namespace Datum

def recordName : Datum → String
  | .record name _ => name
  | _ => ""

-- The fields of one name.
def select (k : String) (fields : List (String × Datum)) : List (String × Datum) := fields.filter (·.1 == k)

theorem fields_of_record {n n' : String} {l l' : List (String × Datum)} (h : record n l = record n' l') (k : String) :
    select k l = select k l' := by
  rw [(record.inj h).2]

@[simp] theorem select_nil (k : String) : select k [] = [] := rfl

@[simp] theorem select_append (k : String) (l l' : List (String × Datum)) :
    select k (l ++ l') = select k l ++ select k l' := List.filter_append ..

@[simp] theorem select_cons (k n : String) (d : Datum) (l : List (String × Datum)) :
    select k ((n, d) :: l) = if n = k then (n, d) :: select k l else select k l := by
  by_cases hn : n = k
  · simp [select, hn]
  · simp [select, hn]

@[simp] theorem select_ite (k : String) (c : Prop) [Decidable c] (l l' : List (String × Datum)) :
    select k (if c then l else l') = if c then select k l else select k l' := apply_ite ..

@[simp] theorem select_textField (k n s : String) :
    select k (textField n s) = if n = k then textField n s else [] := by
  unfold textField
  split <;> simp

@[simp] theorem select_boolField (k n : String) (b : Bool) :
    select k (boolField n b) = if n = k then boolField n b else [] := by
  unfold boolField
  split <;> simp

@[simp] theorem select_listField (k n : String) (xs : List Datum) :
    select k (listField n xs) = if n = k then listField n xs else [] := by
  unfold listField
  split <;> simp

@[simp] theorem select_optField (k n : String) (d : Option Datum) :
    select k (optField n d) = if n = k then optField n d else [] := by
  cases d <;> simp [optField]

@[simp] theorem textField_inj {n s t : String} : textField n s = textField n t ↔ s = t := by
  unfold textField
  by_cases hs : s = "" <;> by_cases ht : t = ""
  · simp [hs, ht]
  · simp [hs, ht, Ne.symm ht]
  · simp [hs, ht]
  · simp [hs, ht]

@[simp] theorem boolField_inj {n : String} {b c : Bool} : boolField n b = boolField n c ↔ b = c := by
  cases b <;> cases c <;> simp [boolField]

@[simp] theorem listField_inj {n : String} {xs ys : List Datum} : listField n xs = listField n ys ↔ xs = ys := by
  cases xs <;> cases ys <;> simp [listField]

@[simp] theorem optField_inj {n : String} {d e : Option Datum} : optField n d = optField n e ↔ d = e := by
  cases d <;> cases e <;> simp [optField]

end Datum

namespace Script

open Datum (fields_of_record)

-- An operator is known by its text.

theorem ParamOp.find_text (a : ParamOp) : longestFirst.find? (fun b => b.text == a.text) = some a := by
  cases a <;> decide

theorem ParamOp.text_inj {a b : ParamOp} (h : a.text = b.text) : a = b := by
  have hb := find_text b
  rw [← h, find_text a] at hb
  exact Option.some.inj hb

theorem ArithOp.find_text (a : ArithOp) : longestFirst.find? (fun b => b.text == a.text) = some a := by
  cases a <;> decide

theorem ArithOp.text_inj {a b : ArithOp} (h : a.text = b.text) : a = b := by
  have hb := find_text b
  rw [← h, find_text a] at hb
  exact Option.some.inj hb

-- An outline begins with the kind of the node.

theorem WordPart.recordName_describe (x : WordPart) : x.describe.recordName = Node.kind (.part x) := by
  cases x with
  | param _ x => cases x; rfl
  | _ => rfl

theorem ArithExpr.recordName_describe (x : ArithExpr) : x.describe.recordName = Node.kind (.arith x) := by
  cases x <;> rfl

theorem TestExpr.recordName_describe (x : TestExpr) : x.describe.recordName = Node.kind (.test x) := by
  cases x <;> rfl

theorem Command.recordName_describe (x : Command) : x.describe.recordName = Node.kind (.command x) := by
  cases x <;> rfl

theorem WordPart.kind_eq {x y : WordPart} (h : x.describe = y.describe) :
    Node.kind (.part x) = Node.kind (.part y) := by
  rw [← recordName_describe, ← recordName_describe, h]

theorem ArithExpr.kind_eq {x y : ArithExpr} (h : x.describe = y.describe) :
    Node.kind (.arith x) = Node.kind (.arith y) := by
  rw [← recordName_describe, ← recordName_describe, h]

theorem TestExpr.kind_eq {x y : TestExpr} (h : x.describe = y.describe) :
    Node.kind (.test x) = Node.kind (.test y) := by
  rw [← recordName_describe, ← recordName_describe, h]

theorem Command.kind_eq {x y : Command} (h : x.describe = y.describe) :
    Node.kind (.command x) = Node.kind (.command y) := by
  rw [← recordName_describe, ← recordName_describe, h]

theorem hereDoc_of_describe {x y : Option HereDoc} (h : HereDoc.describe? x = HereDoc.describe? y) :
    Option.Rel (fun d e => d.raw = e.raw ∧ d.delim = e.delim) x y := by
  cases x with
  | none =>
      cases y with
      | none => exact .none
      | some e => obtain ⟨⟩ := e; cases h
  | some d =>
      obtain ⟨_, delim, _, _, raw, _⟩ := d
      cases y with
      | none => cases h
      | some e =>
          obtain ⟨_, delim', _, _, raw', _⟩ := e
          have hfields := fields_of_record (Option.some.inj h)
          have hraw : raw = raw' := by simpa using hfields "Raw"
          have hdelim : delim = delim' := by simpa using hfields "Delim"
          exact .some ⟨hraw, hdelim⟩

-- Trees of one outline.

mutual

theorem Word.alike : ∀ x y : Word, x.describe = y.describe → x.Alike y
  | ⟨ps⟩, ⟨qs⟩, h => .mk (alikeParts ps qs (by simpa using fields_of_record h "Parts"))
termination_by structural x => x

theorem alikeOptWord : ∀ x y : Option Word, Word.describe? x = Word.describe? y → Option.Rel Word.Alike x y
  | none, none, _ => .none
  | some x, some y, h => .some (Word.alike x y (Option.some.inj h))
  | none, some _, h => nomatch h
  | some _, none, h => nomatch h
termination_by structural x => x

theorem alikeWords : ∀ xs ys : List Word, describeWords xs = describeWords ys → List.Forall₂ Word.Alike xs ys
  | [], [], _ => .nil
  | x :: xs, y :: ys, h => by
      obtain ⟨hx, hxs⟩ := List.cons.inj h
      exact .cons (Word.alike x y hx) (alikeWords xs ys hxs)
  | [], _ :: _, h => nomatch h
  | _ :: _, [], h => nomatch h
termination_by structural x => x

theorem WordPart.alike : ∀ x y : WordPart, x.describe = y.describe → x.Alike y
  | .lit _ s, y, h => by
      cases y with
      | lit _ t =>
          obtain rfl : s = t := by simpa using fields_of_record h "Value"
          exact .lit s
      | _ => exact absurd (WordPart.kind_eq h) (by simp [Node.kind])
  | .single _ dollar s, y, h => by
      cases y with
      | single _ dollar' t =>
          obtain rfl : dollar = dollar' := by simpa using fields_of_record h "Dollar"
          obtain rfl : s = t := by simpa using fields_of_record h "Value"
          exact .single dollar s
      | _ => exact absurd (WordPart.kind_eq h) (by simp [Node.kind])
  | .double _ dollar ps, y, h => by
      cases y with
      | double _ dollar' qs =>
          obtain rfl : dollar = dollar' := by simpa using fields_of_record h "Dollar"
          exact .double dollar (alikeParts ps qs (by simpa using fields_of_record h "Parts"))
      | _ => exact absurd (WordPart.kind_eq h) (by simp [Node.kind])
  | .param _ x, y, h => by
      cases y with
      | param _ y =>
          obtain ⟨hprint, hdocs⟩ := ParamExp.alike x y h
          exact .param hprint hdocs
      | _ => exact absurd (WordPart.kind_eq h) (by simp [Node.kind])
  | .command _ b backquote, y, h => by
      cases y with
      | command _ b' backquote' =>
          obtain rfl : backquote = backquote' := by simpa using fields_of_record h "Backquote"
          exact .command (Block.alike b b' (by simpa using fields_of_record h "Body")) backquote
      | _ => exact absurd (WordPart.kind_eq h) (by simp [Node.kind])
  | .arith _ x, y, h => by
      cases y with
      | arith _ y =>
          exact .arith (alikeOptArith x y (by simpa using fields_of_record h "X"))
      | _ => exact absurd (WordPart.kind_eq h) (by simp [Node.kind])
  | .brace _ sequence ws, y, h => by
      cases y with
      | brace _ sequence' vs =>
          obtain rfl : sequence = sequence' := by simpa using fields_of_record h "Sequence"
          exact .brace sequence (alikeWords ws vs (by simpa using fields_of_record h "Elems"))
      | _ => exact absurd (WordPart.kind_eq h) (by simp [Node.kind])
  | .process _ write b, y, h => by
      cases y with
      | process _ write' b' =>
          obtain rfl : write = write' := by
            have hop : (if write then ">" else "<") = (if write' then ">" else "<") := by
              simpa using fields_of_record h "Op"
            cases write <;> cases write' <;> simp at hop ⊢
          exact .process write (Block.alike b b' (by simpa using fields_of_record h "Body"))
      | _ => exact absurd (WordPart.kind_eq h) (by simp [Node.kind])
termination_by structural x => x

theorem alikeParts : ∀ xs ys : List WordPart, describeParts xs = describeParts ys → List.Forall₂ WordPart.Alike xs ys
  | [], [], _ => .nil
  | x :: xs, y :: ys, h => by
      obtain ⟨hx, hxs⟩ := List.cons.inj h
      exact .cons (WordPart.alike x y hx) (alikeParts xs ys hxs)
  | [], _ :: _, h => nomatch h
  | _ :: _, [], h => nomatch h
termination_by structural x => x

theorem ParamExp.alike : ∀ x y : ParamExp, x.describe = y.describe →
    x.print = y.print ∧ announcesAny (paramNodes x) = announcesAny (paramNodes y)
  | ⟨short, name, length, indirect, names, index, op, arg, repl⟩,
    ⟨short', name', length', indirect', names', index', op', arg', repl'⟩, h => by
      have hfields := fields_of_record h
      have hshort : short = short' := by simpa using hfields "Short"
      have hname : name = name' := by simpa using hfields "Name"
      have hlength : length = length' := by simpa using hfields "Length"
      have hindirect : indirect = indirect' := by simpa using hfields "Indirect"
      have hnames : names = names' := by
        refine Option.map_injective ?_ (by simpa using hfields "Names" : names.map _ = names'.map _)
        intro c d hcd
        exact Char.toNat_inj.mp (Int.ofNat.inj (Datum.int.inj hcd))
      have hop : op = op' := by
        refine Option.map_injective ?_ (by simpa using hfields "Op" : op.map _ = op'.map _)
        intro a b hab
        exact ParamOp.text_inj (Datum.symbol.inj hab)
      have hindex : Word.describe? index = Word.describe? index' := by simpa using hfields "Index"
      have harg : Word.describe? arg = Word.describe? arg' := by simpa using hfields "Arg"
      have hrepl : Word.describe? repl = Word.describe? repl' := by simpa using hfields "Repl"
      have hindex := alike_optWord (alikeOptWord index index' hindex)
      have harg := alike_optWord (alikeOptWord arg arg' harg)
      have hrepl := alike_optWord (alikeOptWord repl repl' hrepl)
      subst hshort hname hlength hindirect hnames hop
      refine ⟨?_, ?_⟩
      · simp only [ParamExp.print, hindex.2.1, harg.1, hrepl.2.2.1]
      · simp [paramNodes, hindex.2.2.2, harg.2.2.2, hrepl.2.2.2]
termination_by structural x => x

theorem ArithExpr.alike : ∀ x y : ArithExpr, x.describe = y.describe → x.Alike y
  | .word w, y, h => by
      cases y with
      | word v =>
          exact .word (Word.alike w v (by simpa using fields_of_record h "Word"))
      | _ => exact absurd (ArithExpr.kind_eq h) (by simp [Node.kind])
  | .binary _ op x₁ x₂, y, h => by
      cases y with
      | binary _ op' y₁ y₂ =>
          obtain rfl : op = op' := ArithOp.text_inj (by simpa using fields_of_record h "Op")
          have h₁ := ArithExpr.alike x₁ y₁ (by simpa using fields_of_record h "X")
          have h₂ := ArithExpr.alike x₂ y₂ (by simpa using fields_of_record h "Y")
          exact .binary op h₁ h₂
      | _ => exact absurd (ArithExpr.kind_eq h) (by simp [Node.kind])
  | .unary _ op post x, y, h => by
      cases y with
      | unary _ op' post' y =>
          obtain rfl : op = op' := ArithOp.text_inj (by simpa using fields_of_record h "Op")
          obtain rfl : post = post' := by simpa using fields_of_record h "Post"
          exact .unary op post (ArithExpr.alike x y (by simpa using fields_of_record h "X"))
      | _ => exact absurd (ArithExpr.kind_eq h) (by simp [Node.kind])
  | .paren _ x, y, h => by
      cases y with
      | paren _ y =>
          exact .paren (ArithExpr.alike x y (by simpa using fields_of_record h "X"))
      | _ => exact absurd (ArithExpr.kind_eq h) (by simp [Node.kind])
  | .ternary c x no, y, h => by
      cases y with
      | ternary c' y no' =>
          have hc := ArithExpr.alike c c' (by simpa using fields_of_record h "Cond")
          have hx := ArithExpr.alike x y (by simpa using fields_of_record h "Then")
          exact .ternary hc hx (alikeOptArith no no' (by simpa using fields_of_record h "Else"))
      | _ => exact absurd (ArithExpr.kind_eq h) (by simp [Node.kind])
termination_by structural x => x

theorem alikeOptArith : ∀ x y : Option ArithExpr, ArithExpr.describe? x = ArithExpr.describe? y → Option.Rel ArithExpr.Alike x y
  | none, none, _ => .none
  | some x, some y, h => .some (ArithExpr.alike x y (Option.some.inj h))
  | none, some _, h => nomatch h
  | some _, none, h => nomatch h
termination_by structural x => x

theorem TestExpr.alike : ∀ x y : TestExpr, x.describe = y.describe → x.Alike y
  | .word w, y, h => by
      cases y with
      | word v =>
          exact .word (Word.alike w v (by simpa using fields_of_record h "Word"))
      | _ => exact absurd (TestExpr.kind_eq h) (by simp [Node.kind])
  | .binary _ op x₁ x₂, y, h => by
      cases y with
      | binary _ op' y₁ y₂ =>
          obtain rfl : op = op' := by simpa using fields_of_record h "Op"
          have h₁ := TestExpr.alike x₁ y₁ (by simpa using fields_of_record h "X")
          have h₂ := TestExpr.alike x₂ y₂ (by simpa using fields_of_record h "Y")
          exact .binary op h₁ h₂
      | _ => exact absurd (TestExpr.kind_eq h) (by simp [Node.kind])
  | .unary _ op x, y, h => by
      cases y with
      | unary _ op' y =>
          obtain rfl : op = op' := by simpa using fields_of_record h "Op"
          exact .unary op (TestExpr.alike x y (by simpa using fields_of_record h "X"))
      | _ => exact absurd (TestExpr.kind_eq h) (by simp [Node.kind])
  | .paren _ x, y, h => by
      cases y with
      | paren _ y =>
          exact .paren (TestExpr.alike x y (by simpa using fields_of_record h "X"))
      | _ => exact absurd (TestExpr.kind_eq h) (by simp [Node.kind])
termination_by structural x => x

theorem Assignment.alike : ∀ x y : Assignment, x.describe = y.describe → x.Alike y
  | ⟨_, name, index, append, naked, value, array⟩, ⟨_, name', index', append', naked', value', array'⟩, h => by
      obtain rfl : name = name' := by simpa using fields_of_record h "Name"
      obtain rfl : append = append' := by simpa using fields_of_record h "Append"
      obtain rfl : naked = naked' := by simpa using fields_of_record h "Naked"
      have hindex := alikeOptWord index index' (by simpa using fields_of_record h "Index")
      have hvalue := alikeOptWord value value' (by simpa using fields_of_record h "Value")
      exact .mk name append naked hindex hvalue (alikeOptArray array array' (by simpa using fields_of_record h "Array"))
termination_by structural x => x

theorem alikeOptArray : ∀ x y : Option ArrayExpr, ArrayExpr.describe? x = ArrayExpr.describe? y →
    Option.Rel (fun x y => List.Forall₂ Word.Alike x.elems y.elems) x y
  | none, none, _ => .none
  | some ⟨_, xs⟩, some ⟨_, ys⟩, h =>
      .some (alikeWords xs ys (by simpa using fields_of_record (Option.some.inj h) "Elems"))
  | none, some ⟨_, _⟩, h => nomatch h
  | some ⟨_, _⟩, none, h => nomatch h
termination_by structural x => x

theorem alikeAssigns : ∀ xs ys : List Assignment, describeAssigns xs = describeAssigns ys → List.Forall₂ Assignment.Alike xs ys
  | [], [], _ => .nil
  | x :: xs, y :: ys, h => by
      obtain ⟨hx, hxs⟩ := List.cons.inj h
      exact .cons (Assignment.alike x y hx) (alikeAssigns xs ys hxs)
  | [], _ :: _, h => nomatch h
  | _ :: _, [], h => nomatch h
termination_by structural x => x

theorem Redirect.alike : ∀ x y : Redirect, x.describe = y.describe → x.Alike y
  | ⟨_, op, n, w, doc⟩, ⟨_, op', n', v, doc'⟩, h => by
      obtain rfl : n = n' := by simpa using fields_of_record h "N"
      have hop : op.text = op'.text := by simpa using fields_of_record h "Op"
      have hw := Word.alike w v (by simpa using fields_of_record h "Word")
      exact .mk hop n hw (hereDoc_of_describe (by simpa using fields_of_record h "Hdoc"))
termination_by structural x => x

theorem alikeRedirects : ∀ xs ys : List Redirect, describeRedirects xs = describeRedirects ys → List.Forall₂ Redirect.Alike xs ys
  | [], [], _ => .nil
  | x :: xs, y :: ys, h => by
      obtain ⟨hx, hxs⟩ := List.cons.inj h
      exact .cons (Redirect.alike x y hx) (alikeRedirects xs ys hxs)
  | [], _ :: _, h => nomatch h
  | _ :: _, [], h => nomatch h
termination_by structural x => x

theorem Block.alike : ∀ x y : Block, x.describe = y.describe → x.Alike y
  | ⟨p, cs⟩, ⟨q, ds⟩, h => alike_block (alikeCommands cs ds (by simpa using fields_of_record h "Items")) p q
termination_by structural x => x

theorem alikeOptBlock : ∀ x y : Option Block, Block.describe? x = Block.describe? y → Option.Rel Block.Alike x y
  | none, none, _ => .none
  | some x, some y, h => .some (Block.alike x y (Option.some.inj h))
  | none, some _, h => nomatch h
  | some _, none, h => nomatch h
termination_by structural x => x

theorem alikeCommands : ∀ xs ys : List Command, describeCommands xs = describeCommands ys → List.Forall₂ Command.Alike xs ys
  | [], [], _ => .nil
  | x :: xs, y :: ys, h => by
      obtain ⟨hx, hxs⟩ := List.cons.inj h
      exact .cons (Command.alike x y hx) (alikeCommands xs ys hxs)
  | [], _ :: _, h => nomatch h
  | _ :: _, [], h => nomatch h
termination_by structural x => x

theorem Command.alike : ∀ x y : Command, x.describe = y.describe → x.Alike y
  | .andOr _ op x₁ x₂, y, h => by
      cases y with
      | andOr _ op' y₁ y₂ =>
          have hop : op.text = op'.text := by simpa using fields_of_record h "Op"
          have h₁ := Command.alike x₁ y₁ (by simpa using fields_of_record h "X")
          have h₂ := Command.alike x₂ y₂ (by simpa using fields_of_record h "Y")
          exact .andOr hop h₁ h₂
      | _ => exact absurd (Command.kind_eq h) (by simp [Node.kind])
  | .pipeline _ negated cs es, y, h => by
      cases y with
      | pipeline _ negated' ds es' =>
          obtain rfl : negated = negated' := by simpa using fields_of_record h "Negated"
          obtain rfl : es = es' := by
            have hmap : es.map Datum.bool = es'.map Datum.bool := by simpa using fields_of_record h "Stderr"
            exact List.map_injective_iff.mpr (fun _ _ => Datum.bool.inj) hmap
          exact .pipeline negated (alikeCommands cs ds (by simpa using fields_of_record h "Cmds")) es
      | _ => exact absurd (Command.kind_eq h) (by simp [Node.kind])
  | .background x, y, h => by
      cases y with
      | background y =>
          exact .background (Command.alike x y (by simpa using fields_of_record h "X"))
      | _ => exact absurd (Command.kind_eq h) (by simp [Node.kind])
  | .simple as ws rs, y, h => by
      cases y with
      | simple bs vs qs =>
          have has := alikeAssigns as bs (by simpa using fields_of_record h "Assigns")
          have hws := alikeWords ws vs (by simpa using fields_of_record h "Args")
          exact .simple has hws (alikeRedirects rs qs (by simpa using fields_of_record h "Redirs"))
      | _ => exact absurd (Command.kind_eq h) (by simp [Node.kind])
  | .declare _ variant ws as rs, y, h => by
      cases y with
      | declare _ variant' vs bs qs =>
          obtain rfl : variant = variant' := by simpa using fields_of_record h "Variant"
          have hws := alikeWords ws vs (by simpa using fields_of_record h "Opts")
          have has := alikeAssigns as bs (by simpa using fields_of_record h "Assigns")
          exact .declare variant hws has (alikeRedirects rs qs (by simpa using fields_of_record h "Redirs"))
      | _ => exact absurd (Command.kind_eq h) (by simp [Node.kind])
  | .ifThen _ cond yes es no, y, h => by
      cases y with
      | ifThen _ cond' yes' fs no' =>
          have hcond := Block.alike cond cond' (by simpa using fields_of_record h "Cond")
          have hyes := Block.alike yes yes' (by simpa using fields_of_record h "Then")
          have hes := alikeElifs es fs (by simpa using fields_of_record h "Elifs")
          exact .ifThen hcond hyes hes (alikeOptBlock no no' (by simpa using fields_of_record h "Else"))
      | _ => exact absurd (Command.kind_eq h) (by simp [Node.kind])
  | .loop _ untilTrue cond body, y, h => by
      cases y with
      | loop _ untilTrue' cond' body' =>
          obtain rfl : untilTrue = untilTrue' := by simpa using fields_of_record h "Until"
          have hcond := Block.alike cond cond' (by simpa using fields_of_record h "Cond")
          exact .loop untilTrue hcond (Block.alike body body' (by simpa using fields_of_record h "Body"))
      | _ => exact absurd (Command.kind_eq h) (by simp [Node.kind])
  | .forIn _ name _ hasIn ws body, y, h => by
      cases y with
      | forIn _ name' _ hasIn' vs body' =>
          obtain rfl : name = name' := by simpa using fields_of_record h "Name"
          obtain rfl : hasIn = hasIn' := by simpa using fields_of_record h "In"
          have hws := alikeWords ws vs (by simpa using fields_of_record h "Items")
          exact .forIn name hasIn hws (Block.alike body body' (by simpa using fields_of_record h "Body"))
      | _ => exact absurd (Command.kind_eq h) (by simp [Node.kind])
  | .select _ name _ hasIn ws body, y, h => by
      cases y with
      | select _ name' _ hasIn' vs body' =>
          obtain rfl : name = name' := by simpa using fields_of_record h "Name"
          obtain rfl : hasIn = hasIn' := by simpa using fields_of_record h "In"
          have hws := alikeWords ws vs (by simpa using fields_of_record h "Items")
          exact .select name hasIn hws (Block.alike body body' (by simpa using fields_of_record h "Body"))
      | _ => exact absurd (Command.kind_eq h) (by simp [Node.kind])
  | .forArith _ x₁ x₂ x₃ body, y, h => by
      cases y with
      | forArith _ y₁ y₂ y₃ body' =>
          have h₁ := alikeOptArith x₁ y₁ (by simpa using fields_of_record h "Init")
          have h₂ := alikeOptArith x₂ y₂ (by simpa using fields_of_record h "Cond")
          have h₃ := alikeOptArith x₃ y₃ (by simpa using fields_of_record h "Post")
          exact .forArith h₁ h₂ h₃ (Block.alike body body' (by simpa using fields_of_record h "Body"))
      | _ => exact absurd (Command.kind_eq h) (by simp [Node.kind])
  | .caseOf _ w is, y, h => by
      cases y with
      | caseOf _ v js =>
          have hw := Word.alike w v (by simpa using fields_of_record h "Word")
          exact .caseOf hw (alikeCases is js (by simpa using fields_of_record h "Items"))
      | _ => exact absurd (Command.kind_eq h) (by simp [Node.kind])
  | .function _ name keyword parens x, y, h => by
      cases y with
      | function _ name' keyword' parens' y =>
          obtain rfl : name = name' := by simpa using fields_of_record h "Name"
          obtain rfl : keyword = keyword' := by simpa using fields_of_record h "Keyword"
          obtain rfl : parens = parens' := by simpa using fields_of_record h "Parens"
          exact .function name keyword parens (Command.alike x y (by simpa using fields_of_record h "Body"))
      | _ => exact absurd (Command.kind_eq h) (by simp [Node.kind])
  | .subshell _ body, y, h => by
      cases y with
      | subshell _ body' =>
          exact .subshell (Block.alike body body' (by simpa using fields_of_record h "Body"))
      | _ => exact absurd (Command.kind_eq h) (by simp [Node.kind])
  | .group _ body, y, h => by
      cases y with
      | group _ body' =>
          exact .group (Block.alike body body' (by simpa using fields_of_record h "Body"))
      | _ => exact absurd (Command.kind_eq h) (by simp [Node.kind])
  | .arith _ x, y, h => by
      cases y with
      | arith _ y =>
          exact .arith (ArithExpr.alike x y (by simpa using fields_of_record h "X"))
      | _ => exact absurd (Command.kind_eq h) (by simp [Node.kind])
  | .test _ x, y, h => by
      cases y with
      | test _ y =>
          exact .test (TestExpr.alike x y (by simpa using fields_of_record h "X"))
      | _ => exact absurd (Command.kind_eq h) (by simp [Node.kind])
  | .redirected x rs, y, h => by
      cases y with
      | redirected y qs =>
          have hx := Command.alike x y (by simpa using fields_of_record h "X")
          exact .redirected hx (alikeRedirects rs qs (by simpa using fields_of_record h "Redirs"))
      | _ => exact absurd (Command.kind_eq h) (by simp [Node.kind])
termination_by structural x => x

theorem alikeElifs : ∀ xs ys : List Elif, describeElifs xs = describeElifs ys →
    List.Forall₂ (fun e f => e.cond.Alike f.cond ∧ e.yes.Alike f.yes) xs ys
  | [], [], _ => .nil
  | ⟨_, cond, yes⟩ :: xs, ⟨_, cond', yes'⟩ :: ys, h => by
      obtain ⟨hx, hxs⟩ := List.cons.inj h
      have hcond := Block.alike cond cond' (by simpa using fields_of_record hx "Cond")
      have hyes := Block.alike yes yes' (by simpa using fields_of_record hx "Then")
      exact .cons ⟨hcond, hyes⟩ (alikeElifs xs ys hxs)
  | [], _ :: _, h => nomatch h
  | _ :: _, [], h => nomatch h
termination_by structural x => x

theorem alikeCases : ∀ xs ys : List CaseItem, describeCases xs = describeCases ys →
    List.Forall₂ CaseItem.Alike xs ys
  | [], [], _ => .nil
  | ⟨ws, ⟨p, cs⟩, term⟩ :: xs, ⟨vs, ⟨q, ds⟩, term'⟩ :: ys, h => by
      obtain ⟨hx, hxs⟩ := List.cons.inj h
      have hpatterns := alikeWords ws vs (by simpa using fields_of_record hx "Patterns")
      have hbody : (Block.mk p cs).describe = (Block.mk q ds).describe := by simpa using fields_of_record hx "Body"
      have hitems := alikeCommands cs ds (by simpa using fields_of_record hbody "Items")
      have hterm : term.text = term'.text := by simpa using fields_of_record hx "Term"
      exact .cons ⟨hpatterns, hitems, hterm⟩ (alikeCases xs ys hxs)
  | [], _ :: _, h => nomatch h
  | _ :: _, [], h => nomatch h
termination_by structural x => x

end

-- Whole scripts.

theorem Block.text_of_describe {b c : Block} (h : b.describe = c.describe) : b.text = c.text := by
  obtain ⟨p, cs⟩ := b
  obtain ⟨q, ds⟩ := c
  have hcommands := alikeCommands cs ds (by simpa using fields_of_record h "Items")
  simp only [Block.text, printTop_alike hcommands]

theorem Header.eq_of_describe {h k : Header} (hdescribe : h.describe = k.describe) : h = k := by
  obtain ⟨shebang, version, author, description, dependencies, others⟩ := h
  obtain ⟨shebang', version', author', description', dependencies', others'⟩ := k
  obtain rfl : shebang = shebang' := by simpa using fields_of_record hdescribe "Shebang"
  obtain rfl : version = version' := by simpa using fields_of_record hdescribe "Version"
  obtain rfl : author = author' := by simpa using fields_of_record hdescribe "Author"
  obtain rfl : description = description' := by simpa using fields_of_record hdescribe "Description"
  obtain rfl : dependencies = dependencies' := by
    have hmap : dependencies.map Datum.text = dependencies'.map Datum.text := by
      simpa using fields_of_record hdescribe "Dependencies"
    exact List.map_injective_iff.mpr (fun _ _ => Datum.text.inj) hmap
  obtain rfl : others = others' := by
    have hheaders := fields_of_record hdescribe "Headers"
    have hpair : Function.Injective fun t : String × String => (t.1, Datum.text t.2) := by
      rintro ⟨k, v⟩ ⟨k', v'⟩ ht
      simpa using ht
    cases others with
    | nil => cases others' <;> simp at hheaders ⊢
    | cons t ts =>
        cases others' with
        | nil => simp at hheaders
        | cons t' ts' => exact List.map_injective_iff.mpr hpair (by simpa using hheaders)
  rfl

theorem File.text_of_describe {f g : File} (h : f.describe = g.describe) : f.text = g.text := by
  have hbody : f.body.describe = g.body.describe := by simpa using fields_of_record h "Body"
  have hheader : f.header.describe = g.header.describe := by simpa using fields_of_record h "Meta"
  rw [File.text, File.text, Block.text_of_describe hbody, Header.eq_of_describe hheader]

end Script
end ShellScript

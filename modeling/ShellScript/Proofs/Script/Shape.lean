import ShellScript.Script.Node
import ShellScript.Script.Read
import ShellScript.Proofs.Token.Lossless

-- What the nodes of a tree that has been read are like. A tree can say things that no text says, such as a name alone
-- that is assigned a value; and it can have here-documents that are not those of its text.
namespace ShellScript
namespace Script

-- An assignment is a name alone, or has a value or an array, and no two of these. A redirection has a here-document
-- just when its operator asks for one, and the document has expansions only where its delimiter is not quoted. A loop
-- that is not told what to run over has no list, and a pipeline has a bar between any two stages.
def Node.Formed : Node → Prop
  | .assignment a => (a.naked = true → a.value = none ∧ a.array = none) ∧ (a.array.isSome = true → a.value = none)
  | .redirect r => r.doc.isSome = (r.op == .dless || r.op == .dlessDash)
  | .hereDoc d => d.quoted = true → d.body = none
  | .command (.forIn _ _ _ hasIn items _) | .command (.select _ _ _ hasIn items _) => hasIn = false → items = []
  | .command (.pipeline _ _ cmds stderr) => cmds.length = stderr.length + 1
  | _ => True

-- Every node of a tree is.
def NodeTree.Formed (t : NodeTree) : Prop := ∀ n ∈ t.preorder, n.Formed

mutual

-- The here-documents of the redirections of a tree, in their order. Those of a command in a word are not among them:
-- they stand in a text of its own.
def NodeTree.hereDocs : NodeTree → List HereDoc
  | .mk n children =>
    match n with
    | .redirect r => r.doc.toList
    | .block _ | .command _ | .elif _ | .caseItem _ => hereDocsOf children
    | _ => []

def hereDocsOf : List NodeTree → List HereDoc
  | [] => []
  | t :: ts => t.hereDocs ++ hereDocsOf ts

end

-- What an announcement says.
def HereDoc.AnnouncedBy (doc : HereDoc) (a : Token.HereDoc) : Prop :=
  doc.delim = a.delim ∧ doc.quoted = a.quoted ∧ doc.stripTabs = a.strip

-- The text of the body and its place.
def HereDoc.Carries (doc : HereDoc) (t : Token) : Prop := doc.raw = t.text ∧ doc.pos = t.pos

-- Here-documents, announcements and bodies belong together one by one, and none is left over.
structure Delivered (docs : List HereDoc) (toks : List Token) : Prop where
  read : List.Forall₂ Token.Scanner.HereDoc.ReadAs (Token.Scanner.announcements none toks) (Token.Scanner.bodies toks)
  announced : List.Forall₂ HereDoc.AnnouncedBy docs (Token.Scanner.announcements none toks)
  carried : List.Forall₂ HereDoc.Carries docs (Token.Scanner.bodies toks)

open Read in
-- A block that is read from a text of its own, and has the here-documents of that text.
def Block.Served (s : Setting) (b : Block) : Prop :=
  ∃ n p cs, (textAt s (parts s (nested s n)) p cs).1 = b ∧
    Delivered b.nodes.hereDocs (Token.scanText s.dialect s.file p cs).1

-- The command of a substitution is, and the here-document of a redirection begins somewhere in the text.
def Node.Served (s : Read.Setting) : Node → Prop
  | .part (.command _ b _) | .part (.process _ _ b) => b.Served s
  | .redirect r => ∀ d, r.doc = some d → d.pos.isValid = true
  | _ => True

-- Properties of all nodes.

def NodeTree.All (p : Node → Prop) (t : NodeTree) : Prop := ∀ n ∈ t.preorder, p n

def AllOf (p : Node → Prop) (ts : List NodeTree) : Prop := ∀ t ∈ ts, t.All p

section Nodes

variable {p : Node → Prop}

@[simp] theorem allOf_nil : AllOf p [] := nofun

@[simp] theorem allOf_cons {t : NodeTree} {ts : List NodeTree} : AllOf p (t :: ts) ↔ t.All p ∧ AllOf p ts :=
  List.forall_mem_cons

@[simp] theorem allOf_append {ts us : List NodeTree} : AllOf p (ts ++ us) ↔ AllOf p ts ∧ AllOf p us :=
  List.forall_mem_append

@[simp] theorem allOf_reverse {ts : List NodeTree} : AllOf p ts.reverse ↔ AllOf p ts := by simp [AllOf]

theorem mem_preorderAll {n : Node} {ts : List NodeTree} : n ∈ preorderAll ts ↔ ∃ t ∈ ts, n ∈ t.preorder := by
  induction ts with
  | nil => simp [preorderAll]
  | cons t ts ih => simp [preorderAll, ih]

@[simp] theorem all_mk {n : Node} {ts : List NodeTree} : (NodeTree.mk n ts).All p ↔ p n ∧ AllOf p ts := by
  simp only [NodeTree.All, NodeTree.preorder, List.forall_mem_cons, mem_preorderAll]
  constructor
  · exact fun ⟨hn, hts⟩ => ⟨hn, fun t ht m hm => hts m ⟨t, ht, hm⟩⟩
  · exact fun ⟨hn, hts⟩ => ⟨hn, fun m ⟨t, ht, hm⟩ => hts t ht m hm⟩

theorem partNodes_eq : ∀ ps : List WordPart, partNodes ps = ps.map WordPart.nodes
  | [] => rfl
  | p :: ps => by rw [partNodes, partNodes_eq ps, List.map_cons]

theorem wordNodes_eq : ∀ ws : List Word, wordNodes ws = ws.map Word.nodes
  | [] => rfl
  | w :: ws => by rw [wordNodes, wordNodes_eq ws, List.map_cons]

theorem assignNodes_eq : ∀ as : List Assignment, assignNodes as = as.map Assignment.nodes
  | [] => rfl
  | a :: as => by rw [assignNodes, assignNodes_eq as, List.map_cons]

theorem redirectNodes_eq : ∀ rs : List Redirect, redirectNodes rs = rs.map Redirect.nodes
  | [] => rfl
  | r :: rs => by rw [redirectNodes, redirectNodes_eq rs, List.map_cons]

theorem commandNodes_eq : ∀ cs : List Command, commandNodes cs = cs.map Command.nodes
  | [] => rfl
  | c :: cs => by rw [commandNodes, commandNodes_eq cs, List.map_cons]

theorem paramNodes_eq (x : ParamExp) :
    paramNodes x = optWordNodes x.index ++ optWordNodes x.arg ++ optWordNodes x.repl := by
  cases x
  rfl

theorem redirect_nodes_eq (r : Redirect) : r.nodes = .mk (.redirect r) (r.word.nodes :: optDocNodes r.doc) := by
  cases r
  rfl

theorem assignment_nodes_eq (a : Assignment) :
    a.nodes = .mk (.assignment a) (optWordNodes a.index ++ optWordNodes a.value ++ optArrayNodes a.array) := by
  cases a
  rfl

end Nodes

section HereDocs

@[simp] theorem hereDocsOf_nil : hereDocsOf [] = [] := rfl

@[simp] theorem hereDocsOf_cons (t : NodeTree) (ts : List NodeTree) :
    hereDocsOf (t :: ts) = t.hereDocs ++ hereDocsOf ts := rfl

@[simp] theorem hereDocsOf_append (ts us : List NodeTree) : hereDocsOf (ts ++ us) = hereDocsOf ts ++ hereDocsOf us := by
  induction ts with
  | nil => rfl
  | cons t ts ih => rw [List.cons_append, hereDocsOf_cons, hereDocsOf_cons, ih, List.append_assoc]

theorem hereDocsOf_eq_nil {ts : List NodeTree} (h : ∀ t ∈ ts, t.hereDocs = []) : hereDocsOf ts = [] := by
  induction ts with
  | nil => rfl
  | cons t ts ih =>
      rw [hereDocsOf_cons, h t List.mem_cons_self, ih fun u hu => h u (List.mem_cons_of_mem t hu), List.append_nil]

@[simp] theorem hereDocs_redirect (r : Redirect) : r.nodes.hereDocs = r.doc.toList := by
  cases r
  rfl

@[simp] theorem hereDocs_word (w : Word) : w.nodes.hereDocs = [] := by
  cases w
  rfl

@[simp] theorem hereDocs_assignment (a : Assignment) : a.nodes.hereDocs = [] := by
  cases a
  rfl

@[simp] theorem hereDocs_arith (x : ArithExpr) : x.nodes.hereDocs = [] := by
  cases x <;> rfl

@[simp] theorem hereDocs_test (x : TestExpr) : x.nodes.hereDocs = [] := by
  cases x <;> rfl

@[simp] theorem hereDocsOf_wordNodes (ws : List Word) : hereDocsOf (wordNodes ws) = [] := by
  rw [wordNodes_eq]
  exact hereDocsOf_eq_nil (List.forall_mem_map.mpr fun w _ => hereDocs_word w)

@[simp] theorem hereDocsOf_assignNodes (as : List Assignment) : hereDocsOf (assignNodes as) = [] := by
  rw [assignNodes_eq]
  exact hereDocsOf_eq_nil (List.forall_mem_map.mpr fun a _ => hereDocs_assignment a)

@[simp] theorem hereDocsOf_optArithNodes (x : Option ArithExpr) : hereDocsOf (optArithNodes x) = [] := by
  cases x with
  | none => rfl
  | some x => exact hereDocsOf_eq_nil (List.forall_mem_singleton.mpr (hereDocs_arith x))

end HereDocs

end Script
end ShellScript

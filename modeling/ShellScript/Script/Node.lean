import ShellScript.Script.Tree

-- All nodes of a tree, whatever their kind, in the order in which they are written.
namespace ShellScript
namespace Script

inductive Node where
  | block (b : Block)
  | command (c : Command)
  | elif (e : Elif)
  | caseItem (i : CaseItem)
  | redirect (r : Redirect)
  | hereDoc (h : HereDoc)
  | assignment (a : Assignment)
  | array (x : ArrayExpr)
  | word (w : Word)
  | part (p : WordPart)
  | arith (x : ArithExpr)
  | test (x : TestExpr)

inductive NodeTree where
  | mk (node : Node) (children : List NodeTree)

mutual

def Word.nodes : Word → NodeTree
  | ⟨parts⟩ => .mk (.word ⟨parts⟩) (partNodes parts)

def optWordNodes : Option Word → List NodeTree
  | none => []
  | some w => [w.nodes]

def wordNodes : List Word → List NodeTree
  | [] => []
  | w :: ws => w.nodes :: wordNodes ws

def WordPart.nodes : WordPart → NodeTree
  | .lit p s => .mk (.part (.lit p s)) []
  | .single p d s => .mk (.part (.single p d s)) []
  | .double p d ps => .mk (.part (.double p d ps)) (partNodes ps)
  | .param p x => .mk (.part (.param p x)) (paramNodes x)
  | .command p b q => .mk (.part (.command p b q)) [b.nodes]
  | .arith p x => .mk (.part (.arith p x)) (optArithNodes x)
  | .brace p s ws => .mk (.part (.brace p s ws)) (wordNodes ws)
  | .process p w b => .mk (.part (.process p w b)) [b.nodes]

def partNodes : List WordPart → List NodeTree
  | [] => []
  | p :: ps => p.nodes :: partNodes ps

def paramNodes : ParamExp → List NodeTree
  | ⟨_, _, _, _, _, index, _, arg, repl⟩ => optWordNodes index ++ optWordNodes arg ++ optWordNodes repl

def ArithExpr.nodes : ArithExpr → NodeTree
  | .word w => .mk (.arith (.word w)) [w.nodes]
  | .binary p op x y => .mk (.arith (.binary p op x y)) [x.nodes, y.nodes]
  | .unary p op post x => .mk (.arith (.unary p op post x)) [x.nodes]
  | .paren p x => .mk (.arith (.paren p x)) [x.nodes]
  | .ternary c x y => .mk (.arith (.ternary c x y)) (c.nodes :: x.nodes :: optArithNodes y)

def optArithNodes : Option ArithExpr → List NodeTree
  | none => []
  | some x => [x.nodes]

def TestExpr.nodes : TestExpr → NodeTree
  | .word w => .mk (.test (.word w)) [w.nodes]
  | .binary p op x y => .mk (.test (.binary p op x y)) [x.nodes, y.nodes]
  | .unary p op x => .mk (.test (.unary p op x)) [x.nodes]
  | .paren p x => .mk (.test (.paren p x)) [x.nodes]

def optArrayNodes : Option ArrayExpr → List NodeTree
  | none => []
  | some ⟨p, elems⟩ => [.mk (.array ⟨p, elems⟩) (wordNodes elems)]

def Assignment.nodes : Assignment → NodeTree
  | ⟨p, name, index, append, naked, value, array⟩ =>
    .mk (.assignment ⟨p, name, index, append, naked, value, array⟩)
      (optWordNodes index ++ optWordNodes value ++ optArrayNodes array)

def assignNodes : List Assignment → List NodeTree
  | [] => []
  | a :: as => a.nodes :: assignNodes as

def optDocNodes : Option HereDoc → List NodeTree
  | none => []
  | some ⟨p, delim, quoted, strip, raw, body⟩ =>
    [.mk (.hereDoc ⟨p, delim, quoted, strip, raw, body⟩) (optWordNodes body)]

def Redirect.nodes : Redirect → NodeTree
  | ⟨p, op, n, word, doc⟩ => .mk (.redirect ⟨p, op, n, word, doc⟩) (word.nodes :: optDocNodes doc)

def redirectNodes : List Redirect → List NodeTree
  | [] => []
  | r :: rs => r.nodes :: redirectNodes rs

def Block.nodes : Block → NodeTree
  | ⟨p, items⟩ => .mk (.block ⟨p, items⟩) (commandNodes items)

def optBlockNodes : Option Block → List NodeTree
  | none => []
  | some b => [b.nodes]

def commandNodes : List Command → List NodeTree
  | [] => []
  | c :: cs => c.nodes :: commandNodes cs

def elifNodes : List Elif → List NodeTree
  | [] => []
  | ⟨p, cond, yes⟩ :: es => .mk (.elif ⟨p, cond, yes⟩) [cond.nodes, yes.nodes] :: elifNodes es

def caseNodes : List CaseItem → List NodeTree
  | [] => []
  | ⟨patterns, body, term⟩ :: is =>
    .mk (.caseItem ⟨patterns, body, term⟩) (wordNodes patterns ++ [body.nodes]) :: caseNodes is

def Command.nodes : Command → NodeTree
  | .andOr p op x y => .mk (.command (.andOr p op x y)) [x.nodes, y.nodes]
  | .pipeline p n cmds e => .mk (.command (.pipeline p n cmds e)) (commandNodes cmds)
  | .background x => .mk (.command (.background x)) [x.nodes]
  | .simple assigns args redirs =>
    .mk (.command (.simple assigns args redirs))
      (assignNodes assigns ++ wordNodes args ++ redirectNodes redirs)
  | .declare p v opts assigns redirs =>
    .mk (.command (.declare p v opts assigns redirs))
      (wordNodes opts ++ assignNodes assigns ++ redirectNodes redirs)
  | .ifThen p cond yes elifs no =>
    .mk (.command (.ifThen p cond yes elifs no))
      (cond.nodes :: yes.nodes :: elifNodes elifs ++ optBlockNodes no)
  | .loop p u cond body => .mk (.command (.loop p u cond body)) [cond.nodes, body.nodes]
  | .forIn p name np i items body =>
    .mk (.command (.forIn p name np i items body)) (wordNodes items ++ [body.nodes])
  | .forArith p x y z body =>
    .mk (.command (.forArith p x y z body))
      (optArithNodes x ++ optArithNodes y ++ optArithNodes z ++ [body.nodes])
  | .select p name np i items body =>
    .mk (.command (.select p name np i items body)) (wordNodes items ++ [body.nodes])
  | .caseOf p word items => .mk (.command (.caseOf p word items)) (word.nodes :: caseNodes items)
  | .function p name k par body => .mk (.command (.function p name k par body)) [body.nodes]
  | .subshell p body => .mk (.command (.subshell p body)) [body.nodes]
  | .group p body => .mk (.command (.group p body)) [body.nodes]
  | .arith p x => .mk (.command (.arith p x)) [x.nodes]
  | .test p x => .mk (.command (.test p x)) [x.nodes]
  | .redirected x redirs => .mk (.command (.redirected x redirs)) (x.nodes :: redirectNodes redirs)

end

mutual

-- A node before the nodes below it.
def NodeTree.preorder : NodeTree → List Node
  | .mk n children => n :: preorderAll children

def preorderAll : List NodeTree → List Node
  | [] => []
  | t :: ts => t.preorder ++ preorderAll ts

end

mutual

-- Whether some node of a tree has a property. It stops at the first one that has.
def NodeTree.any (p : Node → Bool) : NodeTree → Bool
  | .mk n children => p n || anyOf p children

def anyOf (p : Node → Bool) : List NodeTree → Bool
  | [] => false
  | t :: ts => t.any p || anyOf p ts

end

mutual

theorem NodeTree.any_eq (p : Node → Bool) : (t : NodeTree) → t.any p = t.preorder.any p
  | .mk n children => by simp [NodeTree.any, NodeTree.preorder, anyOf_eq p children]

theorem anyOf_eq (p : Node → Bool) : (ts : List NodeTree) → anyOf p ts = (preorderAll ts).any p
  | [] => rfl
  | t :: ts => by simp [anyOf, preorderAll, NodeTree.any_eq p t, anyOf_eq p ts]

end

namespace Node

def pos : Node → Position
  | .block b => b.pos
  | .command c => c.pos
  | .elif e => e.pos
  | .caseItem i => i.pos
  | .redirect r => r.pos
  | .hereDoc h => h.pos
  | .assignment a => a.pos
  | .array x => x.pos
  | .word w => w.pos
  | .part p => p.pos
  | .arith x => x.pos
  | .test x => x.pos

def isHereDoc : Node → Bool
  | .hereDoc _ => true
  | _ => false

-- The name of the node's kind.
def kind : Node → String
  | .block _ => "List"
  | .command c =>
    match c with
    | .andOr _ _ _ _ => "AndOr"
    | .pipeline _ _ _ _ => "Pipeline"
    | .background _ => "Background"
    | .simple _ _ _ => "SimpleCommand"
    | .declare _ _ _ _ _ => "DeclClause"
    | .ifThen _ _ _ _ _ => "IfClause"
    | .loop _ _ _ _ => "WhileClause"
    | .forIn _ _ _ _ _ _ => "ForClause"
    | .forArith _ _ _ _ _ => "ArithForClause"
    | .select _ _ _ _ _ _ => "SelectClause"
    | .caseOf _ _ _ => "CaseClause"
    | .function _ _ _ _ _ => "FuncDecl"
    | .subshell _ _ => "Subshell"
    | .group _ _ => "Group"
    | .arith _ _ => "ArithCmd"
    | .test _ _ => "TestClause"
    | .redirected _ _ => "Redirected"
  | .elif _ => "Elif"
  | .caseItem _ => "CaseItem"
  | .redirect _ => "Redirect"
  | .hereDoc _ => "HereDoc"
  | .assignment _ => "Assignment"
  | .array _ => "ArrayExpr"
  | .word _ => "Word"
  | .part p =>
    match p with
    | .lit _ _ => "Lit"
    | .single _ _ _ => "SglQuoted"
    | .double _ _ _ => "DblQuoted"
    | .param _ _ => "ParamExp"
    | .command _ _ _ => "CmdSubst"
    | .arith _ _ => "ArithExp"
    | .brace _ _ _ => "BraceExp"
    | .process _ _ _ => "ProcSubst"
  | .arith x =>
    match x with
    | .word _ => "ArithWord"
    | .binary _ _ _ _ => "ArithBinary"
    | .unary _ _ _ _ => "ArithUnary"
    | .paren _ _ => "ArithParen"
    | .ternary _ _ _ => "ArithTernary"
  | .test x =>
    match x with
    | .word _ => "TestWord"
    | .binary _ _ _ _ => "TestBinary"
    | .unary _ _ _ => "TestUnary"
    | .paren _ _ => "TestParen"

end Node

-- Whether a block announces a here-document somewhere inside.
def Block.hasHereDoc (b : Block) : Bool := b.nodes.any Node.isHereDoc

end Script
end ShellScript

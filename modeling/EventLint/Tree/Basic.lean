import EventLint.Token.Basic
import EventLint.Tree.Kind

/-!
# Trees

A tree holds the tokens of a source text as its leaves, in order, under nodes for what they form.
Neither nodes nor trees store positions: the span of a tree is that of its leaves.
-/

namespace EventLint

inductive Tree where
  | leaf (token : Token)
  | node (kind : NodeKind) (children : List Tree)
deriving Repr

namespace Tree

/-! ## Parts of a tree -/

def children : Tree → List Tree
  | leaf _ => []
  | node _ cs => cs

def kind : Tree → Kind
  | leaf t => .token t.kind
  | node k _ => .node k

def nodeKind? : Tree → Option NodeKind
  | leaf _ => none
  | node k _ => some k

def token? : Tree → Option Token
  | leaf t => some t
  | node _ _ => none

def isNode : Tree → Bool
  | leaf _ => false
  | node _ _ => true

def isOf (k : NodeKind) (t : Tree) : Bool :=
  t.nodeKind? = some k

def childNodes (t : Tree) : List Tree :=
  t.children.filter isNode

def childTokens (t : Tree) : List Token :=
  t.children.filterMap token?

/-- The first child that is a node of kind `k`. -/
def childNode? (t : Tree) (k : NodeKind) : Option Tree :=
  t.children.find? (isOf k)

def childToken? (t : Tree) (k : TokenKind) : Option Token :=
  t.childTokens.find? (·.kind = k)

/-! ## Leaves -/

mutual

def leaves : Tree → List Token
  | leaf t => [t]
  | node _ cs => leavesAll cs

def leavesAll : List Tree → List Token
  | [] => []
  | c :: cs => c.leaves ++ leavesAll cs

end

@[simp] theorem leavesAll_append (a b : List Tree) :
    leavesAll (a ++ b) = leavesAll a ++ leavesAll b := by
  induction a with
  | nil => simp [leavesAll]
  | cons c cs ih => simp [leavesAll, ih]

@[simp] theorem leavesAll_map_leaf (ts : List Token) : leavesAll (ts.map leaf) = ts := by
  induction ts with
  | nil => simp [leavesAll]
  | cons t ts ih => simp [leavesAll, leaves, ih]

/-- The source of some tokens, without what stands in front of the first. -/
def joined : List Token → Text
  | [] => []
  | t :: ts => t.text ++ ts.flatMap Token.written

def text (t : Tree) : Text :=
  joined t.leaves

/-- From the start of the first token to the end of the last. A tree without tokens stands at
`eof`, the end of the source. -/
def span (eof : Nat) (t : Tree) : Span :=
  match t.leaves.head?, t.leaves.getLast? with
  | some first, some last => ⟨first.start, last.stop⟩
  | _, _ => ⟨eof, eof⟩

/-! ## Traversals -/

mutual

/-- The nodes of a tree, each before those below it. -/
def preorder : Tree → List Tree
  | leaf _ => []
  | node k cs => node k cs :: preorderAll cs

def preorderAll : List Tree → List Tree
  | [] => []
  | c :: cs => c.preorder ++ preorderAll cs

end

mutual

def size : Tree → Nat
  | leaf _ => 1
  | node _ cs => 1 + sizeAll cs

def sizeAll : List Tree → Nat
  | [] => 0
  | c :: cs => c.size + sizeAll cs

end

theorem sizeAll_append (a b : List Tree) : sizeAll (a ++ b) = sizeAll a + sizeAll b := by
  induction a with
  | nil => simp [sizeAll]
  | cons c cs ih => simp [sizeAll, ih, Nat.add_assoc]

/-- The nodes of a queue of trees, level by level: the children of a node wait at the end of the
queue. -/
def levelOrder (queue : List Tree) : List Tree :=
  match queue with
  | [] => []
  | leaf _ :: rest => levelOrder rest
  | node k cs :: rest => node k cs :: levelOrder (rest ++ cs)
termination_by sizeAll queue
decreasing_by
  all_goals simp only [sizeAll, size, sizeAll_append]; omega

/-- The node and all nodes below it, by where they start; of those that start together the one
that reaches farthest comes first, and of equal spans the upper one. -/
def descendants (eof : Nat) (t : Tree) : List Tree :=
  (levelOrder [t]).mergeSort fun a b =>
    let s := a.span eof
    let u := b.span eof
    s.start < u.start || (s.start == u.start && u.stop ≤ s.stop)

end Tree

end EventLint

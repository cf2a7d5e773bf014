import Mathlib.Order.Lattice
import Mathlib.Logic.Function.Basic

/-! `rbtree.RBTree`, a left-leaning red-black tree. Each node carries its address, so that a tree of nodes and the pool
of freed ones can share a node. A panic, be it an assertion or a nil dereference, is `none`. -/
namespace Pggat.Rbtree

inductive Color where
  | black
  | red
  deriving DecidableEq, Repr

def Color.opposite : Color → Color
  | .black => .red
  | .red => .black

inductive Tree (K V : Type) where
  | nil
  | node (id : Nat) (color : Color) (key : K) (value : V) (left right : Tree K V)
  deriving DecidableEq, Repr

/-- The nodes outside the tree: `pool` are the freed ones, and those from `next` on are still to be made by `new`. -/
structure Nodes where
  pool : List Nat := []
  next : Nat := 0
  deriving DecidableEq, Repr

structure RBTree (K V : Type) where
  root : Tree K V := .nil
  nodes : Nodes := {}
  deriving DecidableEq, Repr

namespace Nodes

/-- A freed node is zeroed, so that an allocated one has no children. -/
def free (s : Nodes) (id : Nat) : Nodes := { s with pool := s.pool ++ [id] }

def alloc (s : Nodes) : Nat × Nodes :=
  match s.pool.getLast? with
  | some id => (id,{ s with pool := s.pool.dropLast })
  | none => (s.next,{ s with next := s.next + 1 })

end Nodes

namespace Tree
variable {K V : Type}

/-- `getColor` -/
def color : Tree K V → Color
  | .nil => .black
  | .node _ c _ _ _ _ => c

@[simp] theorem color_nil : (nil : Tree K V).color = .black := rfl

@[simp] theorem color_node (id : Nat) (c : Color) (k : K) (v : V) (l r : Tree K V) : (node id c k v l r).color = c := rfl

def isNil : Tree K V → Bool
  | .nil => true
  | .node _ _ _ _ _ _ => false

/-- `n.color = c` -/
def paint (c : Color) : Tree K V → Option (Tree K V)
  | .nil => none
  | .node id _ k v l r => some (.node id c k v l r)

def rotateRight : Tree K V → Option (Tree K V)
  | .node id c k v (.node xid .red xk xv xl xr) r => some (.node xid c xk xv xl (.node id .red k v xr r))
  | _ => none

def rotateLeft : Tree K V → Option (Tree K V)
  | .node id c k v l (.node xid .red xk xv xl xr) => some (.node xid c xk xv (.node id .red k v l xl) xr)
  | _ => none

def flipColors : Tree K V → Option (Tree K V)
  | .node id c k v (.node lid lc lk lv ll lr) (.node rid rc rk rv rl rr) =>
    some (.node id c.opposite k v (.node lid lc.opposite lk lv ll lr) (.node rid rc.opposite rk rv rl rr))
  | _ => none

def moveRedLeft (n : Tree K V) : Option (Tree K V) :=
  match flipColors n with
  | some (.node id c k v l (.node rid rc rk rv rl rr)) =>
    if rl.color = .red then
      (rotateRight (.node rid rc rk rv rl rr)).bind fun r =>
        (rotateLeft (.node id c k v l r)).bind flipColors
    else some (.node id c k v l (.node rid rc rk rv rl rr))
  | _ => none

def moveRedRight (n : Tree K V) : Option (Tree K V) :=
  match flipColors n with
  | some (.node id c k v (.node lid lc lk lv ll lr) r) =>
    if ll.color = .red then (rotateRight (.node id c k v (.node lid lc lk lv ll lr) r)).bind flipColors
    else some (.node id c k v (.node lid lc lk lv ll lr) r)
  | _ => none

/-- The first `if` of `balance`. -/
def balanceRight : Tree K V → Option (Tree K V)
  | .nil => none
  | .node id c k v l r =>
    if r.color = .red ∧ l.color = .black then rotateLeft (.node id c k v l r) else some (.node id c k v l r)

/-- The second `if` of `balance`. -/
def balanceLeft : Tree K V → Option (Tree K V)
  | .nil => none
  | .node id c k v (.node lid .red lk lv ll lr) r =>
    if ll.color = .red then rotateRight (.node id c k v (.node lid .red lk lv ll lr) r)
    else some (.node id c k v (.node lid .red lk lv ll lr) r)
  | n => some n

/-- The third `if` of `balance`. -/
def balanceColors : Tree K V → Option (Tree K V)
  | .nil => none
  | .node id c k v l r =>
    if l.color = .red ∧ r.color = .red then flipColors (.node id c k v l r) else some (.node id c k v l r)

def balance (n : Tree K V) : Option (Tree K V) := ((balanceRight n).bind balanceLeft).bind balanceColors

/-- `n.left = ..; return T.balance(n)` -/
def relinkLeft (id : Nat) (c : Color) (k : K) (v : V) (r : Tree K V) (x : Tree K V × Nodes) :
    Option (Tree K V × Nodes) :=
  (balance (.node id c k v x.1 r)).map (·,x.2)

/-- `n.right = ..; return T.balance(n)` -/
def relinkRight (id : Nat) (c : Color) (k : K) (v : V) (l : Tree K V) (x : Tree K V × Nodes) :
    Option (Tree K V × Nodes) :=
  (balance (.node id c k v l x.1)).map (·,x.2)

/-- `if n.left.getColor() == black && n.left.left.getColor() == black { n = T.moveRedLeft(n) }` -/
def openLeft : Tree K V → Option (Tree K V)
  | .node id c k v (.node lid lc lk lv ll lr) r =>
    if lc = .black ∧ ll.color = .black then moveRedLeft (.node id c k v (.node lid lc lk lv ll lr) r)
    else some (.node id c k v (.node lid lc lk lv ll lr) r)
  | _ => none

/-- `if n.right.getColor() == black && n.right.left.getColor() == black { n = T.moveRedRight(n) }` -/
def openRight : Tree K V → Option (Tree K V)
  | .node id c k v l (.node rid rc rk rv rl rr) =>
    if rc = .black ∧ rl.color = .black then moveRedRight (.node id c k v l (.node rid rc rk rv rl rr))
    else some (.node id c k v l (.node rid rc rk rv rl rr))
  | _ => none

/-- `if n.left.getColor() == red { n = T.rotateRight(n) }` -/
def leanRight : Tree K V → Option (Tree K V)
  | .nil => none
  | .node id c k v l r => if l.color = .red then rotateRight (.node id c k v l r) else some (.node id c k v l r)

/-- `min`, of which only the key and the value are used. -/
def min : Tree K V → Option (K × V)
  | .nil => none
  | .node _ _ k v .nil _ => some (k,v)
  | .node _ _ _ _ (.node id c k v l r) _ => min (.node id c k v l r)

def max : Tree K V → Option (K × V)
  | .nil => none
  | .node _ _ k v _ .nil => some (k,v)
  | .node _ _ _ _ _ (.node id c k v l r) => max (.node id c k v l r)

/-- A call goes down one node at a time; `depth` bounds the way. -/
def deleteMin : Nat → Nodes → Tree K V → Option (Tree K V × Nodes)
  | 0, _, _ => none
  | _+1, _, .nil => none
  | depth+1, s, .node id c k v l r =>
    if l.isNil then some (.nil,s.free id)
    else
      match openLeft (.node id c k v l r) with
      | some (.node id c k v l r) => (deleteMin depth s l).bind (relinkLeft id c k v r)
      | _ => none

section
variable [LinearOrder K]

def get (key : K) : Tree K V → Option V
  | .nil => none
  | .node _ _ k v l r => if key > k then get key r else if key < k then get key l else some v

def put (key : K) (value : V) (s : Nodes) : Tree K V → Option (Tree K V × Nodes)
  | .nil => some (.node s.alloc.1 .red key value .nil .nil,s.alloc.2)
  | .node id c k v l r =>
    if key > k then (put key value s r).bind (relinkRight id c k v l)
    else if key < k then (put key value s l).bind (relinkLeft id c k v r)
    else (balance (.node id c k value l r)).map (·,s)

/-- A call goes down one node at a time; `depth` bounds the way. -/
def delete (key : K) : Nat → Nodes → Tree K V → Option (Tree K V × Nodes)
  | 0, _, _ => none
  | _+1, _, .nil => none
  | depth+1, s, .node id c k v l r =>
    if key < k then
      match openLeft (.node id c k v l r) with
      | some (.node id c k v l r) => (delete key depth s l).bind (relinkLeft id c k v r)
      | _ => none
    else
      match leanRight (.node id c k v l r) with
      | some (.node id c k v l r) =>
        if key = k ∧ r.isNil then some (.nil,s.free id)
        else
          match openRight (.node id c k v l r) with
          | some (.node id c k v l r) =>
            if key = k then
              (min r).bind fun x => (deleteMin depth s r).bind (relinkRight id c x.1 x.2 l)
            else (delete key depth s r).bind (relinkRight id c k v l)
          | _ => none
      | _ => none

def next (key : K) : Tree K V → Option (K × V)
  | .nil => none
  | .node _ _ k v l r => if k = key then r.min else if k < key then next key r else (next key l).or (some (k,v))

def prev (key : K) : Tree K V → Option (K × V)
  | .nil => none
  | .node _ _ k v l r => if k = key then l.max else if k > key then prev key l else (prev key r).or (some (k,v))

end

def size : Tree K V → Nat
  | .nil => 0
  | .node _ _ _ _ l r => l.size + r.size + 1

end Tree

namespace RBTree
variable {K V : Type}

def set [LinearOrder K] (T : RBTree K V) (key : K) (value : V) : Option (RBTree K V) :=
  (T.root.put key value T.nodes).bind fun x => (x.1.paint .black).map (⟨·,x.2⟩)

def get [LinearOrder K] (T : RBTree K V) (key : K) : Option V := T.root.get key

def min (T : RBTree K V) : Option (K × V) := T.root.min

def max (T : RBTree K V) : Option (K × V) := T.root.max

def next [LinearOrder K] (T : RBTree K V) (key : K) : Option (K × V) := T.root.next key

def prev [LinearOrder K] (T : RBTree K V) (key : K) : Option (K × V) := T.root.prev key

/-- `if T.root.left.getColor() == black && T.root.right.getColor() == black { T.root.color = red }` -/
def redden : Tree K V → Option (Tree K V)
  | .nil => none
  | .node id c k v l r =>
    if l.color = .black ∧ r.color = .black then some (.node id .red k v l r) else some (.node id c k v l r)

/-- `if T.root != nil { T.root.color = black }` -/
def blacken : Tree K V → Tree K V
  | .nil => .nil
  | .node id _ k v l r => .node id .black k v l r

def delete [LinearOrder K] (T : RBTree K V) (key : K) : Option (RBTree K V) :=
  match T.get key with
  | none => some T
  | some _ =>
    (redden T.root).bind fun root => (root.delete key root.size T.nodes).map fun x => ⟨blacken x.1,x.2⟩

end RBTree

/-- The calls that change a tree. -/
inductive Op (K V : Type) where
  | set (key : K) (value : V)
  | delete (key : K)
  deriving DecidableEq, Repr

/-- What a call does to a map. -/
def Op.change {K V : Type} [LinearOrder K] (m : K → Option V) : Op K V → K → Option V
  | .set key value => Function.update m key (some value)
  | .delete key => Function.update m key none

def RBTree.apply {K V : Type} [LinearOrder K] (T : RBTree K V) : Op K V → Option (RBTree K V)
  | .set key value => T.set key value
  | .delete key => T.delete key

def RBTree.applyAll {K V : Type} [LinearOrder K] (T : RBTree K V) : List (Op K V) → Option (RBTree K V)
  | [] => some T
  | op :: ops => (T.apply op).bind (·.applyAll ops)

end Pggat.Rbtree

import PgRetrofit.Lib.RedBlack
import PgRetrofit.Spec.Backend

/-! The red-black trees of `lib/rbtree.c`, in memory. Functions that the source has twice, once
for each side, are one definition here with the side as argument. -/

namespace Pg.Rbt

open RedBlack (Color Side)

abbrev Ptr := ℕ

def null : Ptr := 0

def rbtnil : Ptr := 1

structure RBTNode where
  color : Color
  left : Ptr
  right : Ptr
  parent : Ptr
deriving DecidableEq

def RBTNode.child (n : RBTNode) : Side → Ptr
  | .left => n.left
  | .right => n.right

def RBTNode.setChild (n : RBTNode) (d : Side) (p : Ptr) : RBTNode :=
  match d with
  | .left => { n with left := p }
  | .right => { n with right := p }

/-- The functions a tree is created with. `freefunc` says whether there is one; what `allocfunc`
returns is an argument of `rbtInsert`. -/
structure RBTree (α : Type) where
  comparator : α → α → ℤ
  combiner : α → α → α
  freefunc : Bool

/-- The tree's `root`, and the allocated memory: nodes, and the data that follow them. -/
structure Mem (α : Type) where
  root : Ptr
  node : Ptr → Option RBTNode
  data : Ptr → Option α

/-- Code that reads and writes memory, or stops with an error. -/
abbrev Exec (α β : Type) := StateT (Mem α) (Except Fault) β

variable {α : Type}

def Mem.setNode (s : Mem α) (p : Ptr) (n : RBTNode) : Mem α :=
  { s with node := Function.update s.node p (some n) }

def Mem.setData (s : Mem α) (p : Ptr) (v : α) : Mem α :=
  { s with data := Function.update s.data p (some v) }

/-- what `rbt_create` leaves: the sentinel, and a root that points to it -/
def rbtCreate : Mem α where
  root := rbtnil
  node := fun p => if p = rbtnil then some ⟨.black, rbtnil, rbtnil, null⟩ else none
  data := fun _ => none

def getRoot : Exec α Ptr := fun s => .ok (s.root, s)

def setRoot (p : Ptr) : Exec α Unit := fun s => .ok ((), { s with root := p })

/-- `*p`, an error for a pointer to no node -/
def getNode (p : Ptr) : Exec α RBTNode := fun s =>
  match s.node p with
  | some n => .ok (n, s)
  | none => .error .outOfBounds

def modifyNode (p : Ptr) (f : RBTNode → RBTNode) : Exec α Unit := fun s =>
  match s.node p with
  | some n => .ok ((), s.setNode p (f n))
  | none => .error .outOfBounds

def getColor (p : Ptr) : Exec α Color := RBTNode.color <$> getNode p
def getParent (p : Ptr) : Exec α Ptr := RBTNode.parent <$> getNode p
def getChild (d : Side) (p : Ptr) : Exec α Ptr := (RBTNode.child · d) <$> getNode p

def setColor (p : Ptr) (c : Color) : Exec α Unit := modifyNode p fun n => { n with color := c }
def setParent (p q : Ptr) : Exec α Unit := modifyNode p fun n => { n with parent := q }
def setChild (d : Side) (p q : Ptr) : Exec α Unit := modifyNode p fun n => n.setChild d q

def getData (p : Ptr) : Exec α α := fun s =>
  match s.data p with
  | some v => .ok (v, s)
  | none => .error .outOfBounds

def setData (p : Ptr) (v : α) : Exec α Unit := fun s =>
  match s.data p with
  | some _ => .ok ((), s.setData p v)
  | none => .error .outOfBounds

/-- The loop of `rbt_find`. The first argument of a loop bounds its rounds. -/
def findLoop (rbt : RBTree α) (data : α) : ℕ → Ptr → Exec α Ptr
  | 0, _ => throw .diverges
  | fuel + 1, node => do
    if node = rbtnil then
      return null
    else
      let cmp := rbt.comparator data (← getData node)
      if cmp = 0 then return node
      else if cmp < 0 then findLoop rbt data fuel (← getChild .left node)
      else findLoop rbt data fuel (← getChild .right node)

def rbtFind (rbt : RBTree α) (fuel : ℕ) (data : α) : Exec α Ptr := do
  findLoop rbt data fuel (← getRoot)

/-- `while (node->left != RBTNIL) node = node->left`, here for either side -/
def descend (d : Side) : ℕ → Ptr → Exec α Ptr
  | 0, _ => throw .diverges
  | fuel + 1, node => do
    let next ← getChild d node
    if next ≠ rbtnil then descend d fuel next else return node

def leftmostLoop : ℕ → Ptr → Ptr → Exec α Ptr
  | 0, _, _ => throw .diverges
  | fuel + 1, node, leftmost => do
    if node ≠ rbtnil then leftmostLoop fuel (← getChild .left node) node
    else if leftmost ≠ rbtnil then return leftmost
    else return null

def rbtLeftmost (fuel : ℕ) : Exec α Ptr := do
  leftmostLoop fuel (← getRoot) (← getRoot)

/-- `if (p != RBTNIL) p->parent = q` -/
def setParentUnlessNil (p q : Ptr) : Exec α Unit :=
  if p ≠ rbtnil then setParent p q else return

/-- The link from the parent of `x`, or from the tree, is to `y` now. The side `d` is looked at first. -/
def replaceChild (d : Side) (x y : Ptr) : Exec α Unit := do
  let parent ← getParent x
  if parent ≠ null then
    if x = (← getChild d parent) then setChild d parent y
    else setChild d.other parent y
  else setRoot y

/-- Rotate node `x` to the side `d`; its child on the other side takes its place. -/
def rotate (d : Side) (x : Ptr) : Exec α Unit := do
  let y ← getChild d.other x
  setChild d.other x (← getChild d y)
  setParentUnlessNil (← getChild d y) x
  setParentUnlessNil y (← getParent x)
  replaceChild d x y
  setChild d y x
  setParentUnlessNil x y

def rbtRotateLeft (x : Ptr) : Exec α Unit := rotate .left x
def rbtRotateRight (x : Ptr) : Exec α Unit := rotate .right x

/-- `x` is made a child on the side `d` of its parent, which is on that side of its own. -/
def insertFixupOuter (d : Side) (x : Ptr) : Exec α Ptr := do
  if x = (← getChild d.other (← getParent x)) then
    let x ← getParent x
    rotate d x
    return x
  else return x

/-- "recolor and rotate" -/
def insertFixupRotate (d : Side) (x : Ptr) : Exec α Ptr := do
  setColor (← getParent x) .black
  setColor (← getParent (← getParent x)) .red
  rotate d.other (← getParent (← getParent x))
  return x

/-- A round of `rbt_insert_fixup`, where the parent of `x` is the child on the side `d`. -/
def insertFixupSide (d : Side) (x : Ptr) : Exec α Ptr := do
  let y ← getChild d.other (← getParent (← getParent x))
  if (← getColor y) = .red then
    setColor (← getParent x) .black
    setColor y .black
    setColor (← getParent (← getParent x)) .red
    getParent (← getParent x)
  else
    insertFixupRotate d (← insertFixupOuter d x)

def insertFixupLoop : ℕ → Ptr → Exec α Unit
  | 0, _ => throw .diverges
  | fuel + 1, x => do
    if x = (← getRoot) then return
    else if (← getColor (← getParent x)) ≠ .red then return
    else if (← getParent x) = (← getChild .left (← getParent (← getParent x))) then
      insertFixupLoop fuel (← insertFixupSide .left x)
    else
      insertFixupLoop fuel (← insertFixupSide .right x)

def rbtInsertFixup (fuel : ℕ) (x : Ptr) : Exec α Unit := do
  insertFixupLoop fuel x
  setColor (← getRoot) .black

/-- Allocate the node `x` and link it to its parent, with `cmp` the last comparison. -/
def insertNode (x parent : Ptr) (cmp : ℤ) (data : α) : Exec α Unit := do
  modify fun s => (s.setNode x ⟨.red, rbtnil, rbtnil, parent⟩).setData x data
  if parent ≠ null then
    if cmp < 0 then setChild .left parent x else setChild .right parent x
  else setRoot x

def insertSearch (rbt : RBTree α) (data : α) : ℕ → Ptr → Ptr → ℤ → Exec α (Ptr ⊕ Ptr × ℤ)
  | 0, _, _, _ => throw .diverges
  | fuel + 1, current, parent, cmp => do
    if current = rbtnil then return .inr (parent, cmp)
    else
      let cmp := rbt.comparator data (← getData current)
      if cmp = 0 then return .inl current
      else if cmp < 0 then insertSearch rbt data fuel (← getChild .left current) current cmp
      else insertSearch rbt data fuel (← getChild .right current) current cmp

/-- Insert, where `x` is what `allocfunc` returns if it is called. The result is the node and `isNew`. -/
def rbtInsert (rbt : RBTree α) (fuel : ℕ) (x : Ptr) (data : α) : Exec α (Ptr × Bool) := do
  match ← insertSearch rbt data fuel (← getRoot) null 0 with
  | .inl current =>
    setData current (rbt.combiner (← getData current) data)
    return (current, false)
  | .inr (parent, cmp) =>
    insertNode x parent cmp data
    rbtInsertFixup fuel x
    return (x, true)

/-- The first step for the sibling `w` of `x`: it is made black. -/
def deleteFixupSibling (d : Side) (x w : Ptr) : Exec α Ptr := do
  if (← getColor w) = .red then
    setColor w .black
    setColor (← getParent x) .red
    rotate d (← getParent x)
    getChild d.other (← getParent x)
  else return w

def bothBlack (d : Side) (w : Ptr) : Exec α Bool := do
  if (← getColor (← getChild d w)) = .black then
    return decide ((← getColor (← getChild d.other w)) = .black)
  else return false

/-- The child of the sibling `w` on the far side is made red. -/
def deleteFixupNephew (d : Side) (x w : Ptr) : Exec α Ptr := do
  if (← getColor (← getChild d.other w)) = .black then
    setColor (← getChild d w) .black
    setColor w .red
    rotate d.other w
    getChild d.other (← getParent x)
  else return w

/-- The sibling `w` takes the place of the parent; the new `x` is the root. -/
def deleteFixupRotate (d : Side) (x w : Ptr) : Exec α Ptr := do
  setColor w (← getColor (← getParent x))
  setColor (← getParent x) .black
  setColor (← getChild d.other w) .black
  rotate d (← getParent x)
  getRoot

def deleteFixupBlack (d : Side) (x w : Ptr) : Exec α Ptr := do
  if ← bothBlack d w then
    setColor w .red
    getParent x
  else
    deleteFixupRotate d x (← deleteFixupNephew d x w)

/-- A round of `rbt_delete_fixup`, where `x` is the child on the side `d`. -/
def deleteFixupSide (d : Side) (x : Ptr) : Exec α Ptr := do
  deleteFixupBlack d x (← deleteFixupSibling d x (← getChild d.other (← getParent x)))

def deleteFixupLoop : ℕ → Ptr → Exec α Ptr
  | 0, _ => throw .diverges
  | fuel + 1, x => do
    if x = (← getRoot) then return x
    else if (← getColor x) ≠ .black then return x
    else if x = (← getChild .left (← getParent x)) then
      deleteFixupLoop fuel (← deleteFixupSide .left x)
    else
      deleteFixupLoop fuel (← deleteFixupSide .right x)

def rbtDeleteFixup (fuel : ℕ) (x : Ptr) : Exec α Unit := do
  setColor (← deleteFixupLoop fuel x) .black

def removedNode (fuel : ℕ) (z : Ptr) : Exec α Ptr := do
  if (← getChild .left z) = rbtnil then return z
  else if (← getChild .right z) = rbtnil then return z
  else descend .left fuel (← getChild .right z)

def onlyChild (y : Ptr) : Exec α Ptr := do
  if (← getChild .left y) ≠ rbtnil then getChild .left y else getChild .right y

/-- `rbt_copy_data(rbt, z, y)` if the nodes are not the same -/
def copyUnlessSame (z y : Ptr) : Exec α Unit := do
  if y ≠ z then setData z (← getData y) else return

def fixupIfBlack (fuel : ℕ) (y x : Ptr) : Exec α Unit := do
  if (← getColor y) = .black then rbtDeleteFixup fuel x else return

/-- `freefunc`: the memory of the node is no longer allocated -/
def recycle (rbt : RBTree α) (y : Ptr) : Exec α Unit :=
  if rbt.freefunc then
    modify fun s =>
      { s with node := Function.update s.node y none, data := Function.update s.data y none }
  else return

/-- Take `y` out of the tree, of which `z` is to be deleted. -/
def removeNode (rbt : RBTree α) (fuel : ℕ) (z y : Ptr) : Exec α Unit := do
  let x ← onlyChild y
  setParent x (← getParent y)
  replaceChild .left y x
  copyUnlessSame z y
  fixupIfBlack fuel y x
  recycle rbt y

def rbtDeleteNode (rbt : RBTree α) (fuel : ℕ) (z : Ptr) : Exec α Unit := do
  if z = null ∨ z = rbtnil then return
  else removeNode rbt fuel z (← removedNode fuel z)

def rbtDelete (rbt : RBTree α) (fuel : ℕ) (node : Ptr) : Exec α Unit := rbtDeleteNode rbt fuel node

/-- The fields of `RBTreeIterator` that change. Which of the two iterators it is, `iterate`, is
the side where it begins. -/
structure RBTreeIterator where
  iterate : Side
  lastVisited : Ptr
  isOver : Bool

def rbtBeginIterate (ctrl : Side) : Exec α RBTreeIterator := do
  return ⟨ctrl, null, decide ((← getRoot) = rbtnil)⟩

/-- The loop that moves up, to the first node reached from the side `d`, or `null`. -/
def ascend (d : Side) : ℕ → Ptr → Exec α Ptr
  | 0, _ => throw .diverges
  | fuel + 1, cameFrom => do
    let lastVisited ← getParent cameFrom
    if lastVisited = null then return null
    else if (← getChild d lastVisited) = cameFrom then return lastVisited
    else ascend d fuel lastVisited

/-- The iterators, beginning on the side `d`. -/
def iterator (fuel : ℕ) (iter : RBTreeIterator) : Exec α (RBTreeIterator × Ptr) := do
  let d := iter.iterate
  if iter.lastVisited = null then
    let p ← descend d fuel (← getRoot)
    return ({ iter with lastVisited := p }, p)
  else if (← getChild d.other iter.lastVisited) ≠ rbtnil then
    let p ← descend d fuel (← getChild d.other iter.lastVisited)
    return ({ iter with lastVisited := p }, p)
  else
    let p ← ascend d fuel iter.lastVisited
    return (⟨d, p, if p = null then true else iter.isOver⟩, p)

def rbtLeftRightIterator (fuel : ℕ) (iter : RBTreeIterator) : Exec α (RBTreeIterator × Ptr) :=
  iterator fuel { iter with iterate := .left }

def rbtRightLeftIterator (fuel : ℕ) (iter : RBTreeIterator) : Exec α (RBTreeIterator × Ptr) :=
  iterator fuel { iter with iterate := .right }

def rbtIterate (fuel : ℕ) (iter : RBTreeIterator) : Exec α (RBTreeIterator × Ptr) :=
  if iter.isOver then return (iter, null)
  else
    match iter.iterate with
    | .left => rbtLeftRightIterator fuel iter
    | .right => rbtRightLeftIterator fuel iter

/-- Call `rbt_iterate` until it returns `NULL`; the nodes it returned before. -/
def iterateAll (fuel : ℕ) : ℕ → RBTreeIterator → Exec α (List Ptr)
  | 0, _ => throw .diverges
  | calls + 1, iter => do
    let (iter, p) ← rbtIterate fuel iter
    if p = null then return []
    else return p :: (← iterateAll fuel calls iter)

def rbtWalk (fuel : ℕ) (ctrl : Side) : Exec α (List Ptr) := do
  iterateAll fuel fuel (← rbtBeginIterate ctrl)

end Pg.Rbt

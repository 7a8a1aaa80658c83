import Iceberg.Lib.RedBlack
import Mathlib.Logic.Function.Basic

/-!
# The red-black tree (`util_rbtree.c`)

Nodes are addresses, and the memory is what they point at. An address at which no node lives is
`none`: a run that follows a null pointer, or a node that has been freed, has no result. The
loops take the number of rounds they may go as an argument, since nothing in the code bounds
them.

The branches of the fix-up loops come in mirrored pairs. They are one branch here, with the
side of the node as an argument; so are the two rotations.
-/

namespace Iceberg.Nginx

open RedBlack (Side Color)

/-- The address of a node. -/
abbrev Ptr := Nat

/-- `NULL`. -/
def nullPtr : Ptr := 0

/-- `_NULL(rbtree)`: the address of the node `null` inside the tree's own record. -/
def sentinel : Ptr := 1

/-- `util_rbtree_node_t`. -/
structure RbNode (δ : Type) where
  key : Int
  parent : Ptr
  right : Ptr
  left : Ptr
  color : Int
  data : δ
  deriving DecidableEq

/-- `util_rbt_black` and `util_rbt_red` store these. -/
def colorCode : Color → Int
  | .red => 0
  | .black => 1

namespace RbNode

variable {δ : Type}

def child (n : RbNode δ) : Side → Ptr
  | .left => n.left
  | .right => n.right

def setChild (n : RbNode δ) (p : Ptr) : Side → RbNode δ
  | .left => { n with left := p }
  | .right => { n with right := p }

end RbNode

/-- `util_rbtree_t`, and the memory its nodes live in. -/
structure Rbtree (δ : Type) where
  root : Ptr
  size : UInt32
  mem : Ptr → Option (RbNode δ)

namespace Rbtree

variable {δ : Type}

/-- A store into the node at `p`. -/
def set (t : Rbtree δ) (p : Ptr) (f : RbNode δ → RbNode δ) : Option (Rbtree δ) :=
  (t.mem p).map fun n => { t with mem := Function.update t.mem p (some (f n)) }

def parent (t : Rbtree δ) (p : Ptr) : Option Ptr := (t.mem p).map RbNode.parent

def setParent (t : Rbtree δ) (p q : Ptr) : Option (Rbtree δ) :=
  t.set p fun n => { n with parent := q }

def child (t : Rbtree δ) (s : Side) (p : Ptr) : Option Ptr := (t.mem p).map fun n => n.child s

def setChild (t : Rbtree δ) (s : Side) (p q : Ptr) : Option (Rbtree δ) :=
  t.set p fun n => n.setChild q s

/-- `util_rbt_black` and `util_rbt_red`. -/
def paint (t : Rbtree δ) (p : Ptr) (c : Color) : Option (Rbtree δ) :=
  t.set p fun n => { n with color := colorCode c }

/-- `util_rbt_isred`. -/
def isRed (t : Rbtree δ) (p : Ptr) : Option Bool := (t.mem p).map fun n => n.color == 0

/-- `util_rbt_isblack`. -/
def isBlack (t : Rbtree δ) (p : Ptr) : Option Bool := (t.mem p).map fun n => n.color == 1

/-- `rbt_clear_node`. -/
def clearNode (t : Rbtree δ) (p : Ptr) : Option (Rbtree δ) :=
  t.set p fun n => { n with left := nullPtr, right := nullPtr, parent := nullPtr }

/-- `util_rbtree_init`. -/
def init (t : Rbtree δ) : Option (Rbtree δ) := do
  let t ← t.paint sentinel .black
  return { t with root := sentinel, size := 0 }

/-- `util_rbsubtree_min` and `util_rbsubtree_max`: down one side. -/
def subtreeEnd (s : Side) : Nat → Rbtree δ → Ptr → Option Ptr
  | 0, _, _ => none
  | fuel + 1, t, node =>
    if node = sentinel then some nullPtr
    else do
      let next ← t.child s node
      if next ≠ sentinel then subtreeEnd s fuel t next else some node

/-- `util_rbsubtree_min`. -/
def subtreeMin (fuel : Nat) (t : Rbtree δ) (node : Ptr) : Option Ptr :=
  subtreeEnd .left fuel t node

/-- `util_rbsubtree_max`. -/
def subtreeMax (fuel : Nat) (t : Rbtree δ) (node : Ptr) : Option Ptr :=
  subtreeEnd .right fuel t node

/-! ## Rotations -/

/-- `q` takes the place of `p` below the parent of `p`. -/
def replaceBelow (t : Rbtree δ) (p q : Ptr) : Option (Rbtree δ) := do
  let up ← t.parent p
  if (← t.child .left up) = p then t.setChild .left up q else t.setChild .right up q

/-- `q` takes the place of `p`, which may be the root. -/
def replaceChild (t : Rbtree δ) (p q : Ptr) : Option (Rbtree δ) :=
  if p = t.root then some { t with root := q } else t.replaceBelow p q

/-- `node` becomes the child of `rc` on the side `s`, and gets its inner subtree. -/
def swapLinks (t : Rbtree δ) (s : Side) (node rc inner : Ptr) : Option (Rbtree δ) := do
  let t ← t.setParent node rc
  let t ← t.setChild s rc node
  t.setChild s.other node inner

/-- A subtree gets another parent, unless it is empty. -/
def adopt (t : Rbtree δ) (child node : Ptr) : Option (Rbtree δ) :=
  if child ≠ sentinel then t.setParent child node else some t

/-- `rbtree_left_rotate` and `rbtree_right_rotate`: `node` goes down on the side `s`. -/
def rotate (s : Side) (t : Rbtree δ) (node : Ptr) : Option (Rbtree δ) := do
  let rc ← t.child s.other node
  let inner ← t.child s rc
  let t ← t.setParent rc (← t.parent node)
  let t ← t.replaceChild node rc
  let t ← t.swapLinks s node rc inner
  t.adopt inner node

/-- `rbtree_left_rotate`. -/
def leftRotate (t : Rbtree δ) (node : Ptr) : Option (Rbtree δ) := rotate .left t node

/-- `rbtree_right_rotate`. -/
def rightRotate (t : Rbtree δ) (node : Ptr) : Option (Rbtree δ) := rotate .right t node

/-! ## Insertion -/

/-- A node below `p` that is on its other side is rotated to the outside first. Afterwards the
parent of `node` is `p` again, or what has taken its place. -/
def turnOut (s : Side) (t : Rbtree δ) (node p : Ptr) : Option (Rbtree δ × Ptr) := do
  if node = (← t.child s.other p) then
    let t ← rotate s t p
    return (t, p)
  else return (t, node)

/-- `rbtree_insert_fixup`; `s` is the side of the parent below the grandparent. -/
def insertFixup : Nat → Rbtree δ → Ptr → Option (Rbtree δ)
  | 0, _, _ => none
  | fuel + 1, t, node => do
    if ← t.isRed (← t.parent node) then
      let p ← t.parent node
      let g ← t.parent p
      let s := if p = (← t.child .left g) then Side.left else Side.right
      let u ← t.child s.other g
      if ← t.isRed u then
        let t ← t.paint u .black
        let t ← t.paint p .black
        let t ← t.paint g .red
        insertFixup fuel t g
      else
        let (t, node) ← turnOut s t node p
        let p ← t.parent node
        let t ← t.paint p .black
        let g ← t.parent p
        let t ← t.paint g .red
        let t ← rotate s.other t g
        insertFixup fuel t node
    else t.paint t.root .black

/-- The loop of `util_rbtree_insert`: down from `x`, where `y` is the node before. -/
def insertPosition : Nat → Rbtree δ → Int → Ptr → Ptr → Option Ptr
  | 0, _, _, _, _ => none
  | fuel + 1, t, key, x, y =>
    if x = sentinel then some y
    else do
      let n ← t.mem x
      insertPosition fuel t key (if key < n.key then n.left else n.right) x

/-- The links of `util_rbtree_insert` above the new node. -/
def attach (fuel : Nat) (t : Rbtree δ) (node : Ptr) : Option (Rbtree δ) := do
  if t.root = sentinel then
    let t := { t with root := node }
    t.setParent node sentinel
  else
    let key ← (t.mem node).map RbNode.key
    let y ← insertPosition fuel t key t.root sentinel
    let t ← t.setParent node y
    if key < (← (t.mem y).map RbNode.key) then t.setChild .left y node
    else t.setChild .right y node

/-- The other fields of the new node. -/
def makeLeaf (t : Rbtree δ) (node : Ptr) : Option (Rbtree δ) := do
  let t ← t.setChild .left node sentinel
  let t ← t.setChild .right node sentinel
  t.paint node .red

/-- `util_rbtree_insert`. -/
def insert (fuel : Nat) (t : Rbtree δ) (node : Ptr) : Option (Rbtree δ) := do
  if node = nullPtr ∨ node = sentinel then return t
  let t ← attach fuel t node
  let t ← t.makeLeaf node
  let t ← insertFixup fuel t node
  return { t with size := t.size + 1 }

/-! ## Deletion -/

/-- A red sibling of `node` is rotated above their parent; the result is the new sibling. -/
def lowerParent (s : Side) (t : Rbtree δ) (node w : Ptr) : Option (Rbtree δ × Ptr) := do
  if ← t.isRed w then
    let t ← t.paint w .black
    let t ← t.paint (← t.parent node) .red
    let t ← rotate s t (← t.parent node)
    return (t, ← t.child s.other (← t.parent node))
  else return (t, w)

/-- A black sibling of `node` whose far child is black gives way to its near child; the result
is the new sibling. -/
def turnSibling (s : Side) (t : Rbtree δ) (node w : Ptr) : Option (Rbtree δ × Ptr) := do
  if ← t.isBlack (← t.child s.other w) then
    let t ← t.paint (← t.child s w) .black
    let t ← t.paint w .red
    let t ← rotate s.other t w
    return (t, ← t.child s.other (← t.parent node))
  else return (t, w)

/-- Whether both children of `w` are black. -/
def bothBlack (t : Rbtree δ) (w : Ptr) : Option Bool := do
  if ← t.isBlack (← t.child .left w) then t.isBlack (← t.child .right w) else return false

/-- The rest of a round, with a black sibling: the node that the next round looks at is the
parent, or the root. -/
def repair (s : Side) (t : Rbtree δ) (node w : Ptr) : Option (Rbtree δ × Ptr) := do
  if ← t.bothBlack w then
    let t ← t.paint w .red
    return (t, ← t.parent node)
  else
    let (t, w) ← turnSibling s t node w
    let p ← t.parent node
    let color ← (t.mem p).map RbNode.color
    let t ← t.set w fun n => { n with color := color }
    let t ← t.paint p .black
    let t ← t.paint (← t.child s.other w) .black
    let t ← rotate s t p
    return (t, t.root)

/-- `rbtree_delete_fixup`; `s` is the side of `node`. -/
def deleteFixup : Nat → Rbtree δ → Ptr → Option (Rbtree δ)
  | 0, _, _ => none
  | fuel + 1, t, node => do
    if node = t.root then t.paint node .black
    else if ← t.isBlack node then
      let p ← t.parent node
      let s := if node = (← t.child .left p) then Side.left else Side.right
      let (t, w) ← lowerParent s t node (← t.child s.other p)
      let (t, node) ← repair s t node w
      deleteFixup fuel t node
    else t.paint node .black

/-- `temp`, the node that leaves its place, and `subst`, which takes it. -/
def leaving (fuel : Nat) (t : Rbtree δ) (node : Ptr) : Option (Ptr × Ptr) := do
  let n ← t.mem node
  if n.left = sentinel then return (node, n.right)
  else if n.right = sentinel then return (node, n.left)
  else
    let temp ← subtreeMin fuel t n.right
    let m ← t.mem temp
    return (temp, if m.left ≠ sentinel then m.left else m.right)

/-- `temp` takes the children and the colour of `node`. -/
def takeChildren (t : Rbtree δ) (node temp : Ptr) : Option (Rbtree δ) := do
  let t ← t.setChild .right temp (← t.child .right node)
  let t ← t.setChild .left temp (← t.child .left node)
  let t ← t.adopt (← t.child .left temp) temp
  let t ← t.adopt (← t.child .right temp) temp
  let color ← (t.mem node).map RbNode.color
  t.set temp fun n => { n with color := color }

/-- `temp` takes the place of `node`. -/
def takePlace (t : Rbtree δ) (node temp : Ptr) : Option (Rbtree δ) := do
  let t ← t.setParent temp (← t.parent node)
  let t ← t.replaceChild node temp
  t.takeChildren node temp

/-- `util_rbtree_delete`. -/
def delete (fuel : Nat) (t : Rbtree δ) (node : Ptr) : Option (Rbtree δ) := do
  if node = nullPtr ∨ node = sentinel then return t
  let t := { t with size := t.size - 1 }
  let (temp, subst) ← leaving fuel t node
  if temp = t.root then
    let t := { t with root := subst }
    let t ← t.paint subst .black
    t.clearNode temp
  else
    let isblack ← t.isBlack temp
    let up ← t.parent temp
    let t ← t.setParent subst (if up = node then temp else up)
    let t ← t.replaceBelow temp subst
    let t ← if temp ≠ node then takePlace t node temp else some t
    let t ← t.clearNode node
    if isblack then deleteFixup fuel t subst else return t

/-! ## Searches -/

/-- The loop of `util_rbtree_search`. -/
def searchFrom : Nat → Rbtree δ → Int → Ptr → Option Ptr
  | 0, _, _, _ => none
  | fuel + 1, t, key, node =>
    if node = sentinel then some nullPtr
    else do
      let n ← t.mem node
      if key < n.key then searchFrom fuel t key n.left
      else if key > n.key then searchFrom fuel t key n.right
      else some node

/-- `util_rbtree_search`. -/
def search (fuel : Nat) (t : Rbtree δ) (key : Int) : Option Ptr := searchFrom fuel t key t.root

/-- The loop of `util_rbtree_lookup`: `node` is the best one so far. -/
def lookupFrom : Nat → Rbtree δ → Int → Ptr → Ptr → Option Ptr
  | 0, _, _, _, _ => none
  | fuel + 1, t, key, temp, node =>
    if temp = sentinel then some node
    else do
      let n ← t.mem temp
      if key ≤ n.key then lookupFrom fuel t key n.left temp
      else lookupFrom fuel t key n.right node

/-- `util_rbtree_lookup`. -/
def lookup (fuel : Nat) (t : Rbtree δ) (key : Int) : Option Ptr := do
  if t.root = sentinel then return nullPtr
  else
    let node ← lookupFrom fuel t key t.root nullPtr
    if node ≠ nullPtr then return node else subtreeMin fuel t t.root

/-- `rbtree_mid_travel`. -/
def midTravelFrom {β : Type} (opera : β → RbNode δ → β) : Nat → Rbtree δ → Ptr → β → Option β
  | 0, _, _, _ => none
  | fuel + 1, t, node, data => do
    let n ← t.mem node
    let data ← (if n.left ≠ sentinel then midTravelFrom opera fuel t n.left data else some data)
    let data := opera data n
    if n.right ≠ sentinel then midTravelFrom opera fuel t n.right data else some data

/-- `util_rbtree_mid_travel`, with an `opera` that only changes `data`. -/
def midTravel {β : Type} (opera : β → RbNode δ → β) (fuel : Nat) (t : Rbtree δ) (data : β) :
    Option β :=
  if t.root = sentinel then some data else midTravelFrom opera fuel t t.root data

end Rbtree

end Iceberg.Nginx

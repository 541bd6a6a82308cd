import Atrace.Lib.BitField
import Atrace.Lib.RedBlack
import Atrace.Lib.TreeEdits
import Atrace.Signal.BpIndex

/-! `rbtree.h` and `rbtree.c`: nodes in memory, the colour packed into the link to the parent. -/
namespace Atrace.Signal

open Atrace.Lib

/-- A `struct rb_node *` other than NULL. Nodes are aligned: the two low bits are clear. -/
@[ext] structure NodePtr where
  addr : Addr
  aligned : addr &&& 3 = 0
  nonNull : addr ≠ 0
deriving DecidableEq

/-- The pointer as a word, 0 for NULL. -/
def NodePtr.toWord : Option NodePtr → Addr
  | none => 0
  | some p => p.addr

theorem and_not_three_aligned (w : Addr) : (w &&& ~~~3) &&& 3 = 0 := by
  have hmask : (~~~3 : Addr) &&& 3 = 0 := by decide
  rw [BitVec.and_assoc, hmask]
  exact BitVec.and_zero

/-- The pointer in a word whose two low bits are ignored. -/
def NodePtr.ofWord (w : Addr) : Option NodePtr :=
  if h : w &&& ~~~3 = 0 then none
  else some ⟨w &&& ~~~3, and_not_three_aligned w, h⟩

/-- `struct rb_node` -/
structure RbFields where
  rbParentColor : Addr
  rbRight : Option NodePtr
  rbLeft : Option NodePtr

/-- Every `struct rb_node`, and `root->rb_node`. -/
structure RbMemory where
  node : NodePtr → RbFields
  rbNode : Option NodePtr

/-- Why a call on the tree does not return: a null pointer is followed, an assertion
fails, or a loop takes more turns than it was given. -/
inductive RbFault where
  | nullPointer
  | assertion
  | outOfFuel
deriving DecidableEq, Repr

def deref : Option NodePtr → Except RbFault NodePtr
  | none => .error .nullPointer
  | some p => .ok p

/-- `RB_RED` -/
def rbRed : Addr := 0

/-- `RB_BLACK` -/
def rbBlack : Addr := 1

namespace RbMemory

variable (m : RbMemory)

def rbLeft (n : NodePtr) : Option NodePtr := (m.node n).rbLeft

def rbRight (n : NodePtr) : Option NodePtr := (m.node n).rbRight

/-- `rb_parent` -/
def rbParent (n : NodePtr) : Option NodePtr := NodePtr.ofWord (m.node n).rbParentColor

/-- `rb_color` -/
def rbColor (n : NodePtr) : Addr := (m.node n).rbParentColor &&& 1

/-- `rb_is_red` -/
def rbIsRed (n : NodePtr) : Bool := m.rbColor n == 0

/-- `rb_is_black` -/
def rbIsBlack (n : NodePtr) : Bool := !m.rbIsRed n

/-- `!n || rb_is_black(n)` -/
def nullOrBlack : Option NodePtr → Bool
  | none => true
  | some n => m.rbIsBlack n

def setFields (n : NodePtr) (f : RbFields) : RbMemory :=
  { m with node := fun k => if k = n then f else m.node k }

/-- `n->rb_parent_color = w` -/
def setParentColor (n : NodePtr) (w : Addr) : RbMemory :=
  m.setFields n { m.node n with rbParentColor := w }

def setLeft (n : NodePtr) (c : Option NodePtr) : RbMemory :=
  m.setFields n { m.node n with rbLeft := c }

def setRight (n : NodePtr) (c : Option NodePtr) : RbMemory :=
  m.setFields n { m.node n with rbRight := c }

def setRbNode (c : Option NodePtr) : RbMemory := { m with rbNode := c }

/-- `rb_set_parent` -/
def rbSetParent (n : NodePtr) (p : Option NodePtr) : RbMemory :=
  m.setParentColor n ((m.node n).rbParentColor &&& 3 ||| NodePtr.toWord p)

/-- `rb_set_red` -/
def rbSetRed (n : NodePtr) : RbMemory := m.setParentColor n ((m.node n).rbParentColor &&& ~~~1)

/-- `rb_set_black` -/
def rbSetBlack (n : NodePtr) : RbMemory := m.setParentColor n ((m.node n).rbParentColor ||| 1)

/-- `rb_set_color` -/
def rbSetColor (n : NodePtr) (color : Addr) : RbMemory :=
  m.setParentColor n ((m.node n).rbParentColor &&& ~~~1 ||| color)

/-- `RB_EMPTY_NODE` -/
def rbEmptyNode (n : NodePtr) : Bool := m.rbParent n == some n

/-- `RB_CLEAR_NODE` -/
def rbClearNode (n : NodePtr) : RbMemory := m.rbSetParent n (some n)

/-- `rb_init_node` -/
def rbInitNode (n : NodePtr) : RbMemory := (m.setFields n ⟨0, none, none⟩).rbClearNode n

/-- The child of a node on a side. -/
def child (d : Side) (n : NodePtr) : Option NodePtr := d.pick (m.rbLeft n) (m.rbRight n)

def setChild (d : Side) (n : NodePtr) (c : Option NodePtr) : RbMemory :=
  d.pick (m.setLeft n c) (m.setRight n c)

/-- A `struct rb_node **`: the root, or a child of a node. -/
def storeLink (link : Option (Side × NodePtr)) (c : Option NodePtr) : RbMemory :=
  match link with
  | none => m.setRbNode c
  | some (d, n) => m.setChild d n c

/-- `rb_link_node` -/
def rbLinkNode (node : NodePtr) (parent : Option NodePtr) (link : Option (Side × NodePtr)) :
    RbMemory :=
  (m.setFields node ⟨NodePtr.toWord parent, none, none⟩).storeLink link (some node)

/-- `rb_set_parent` on a pointer that was compared to NULL. -/
def setParentOf (c p : Option NodePtr) : RbMemory :=
  match c with
  | none => m
  | some n => m.rbSetParent n p

/-- Put `c` in the place of `node` in its parent, or in the root; side `d` is compared first. -/
def relink (d : Side) (parent : Option NodePtr) (node : NodePtr) (c : Option NodePtr) : RbMemory :=
  match parent with
  | none => m.setRbNode c
  | some p => if m.child d p = some node then m.setChild d p c else m.setChild d.other p c

/-- `__rb_rotate_left` and its mirror image. -/
def rotate (d : Side) (node : NodePtr) : Except RbFault RbMemory := do
  let up ← deref (m.child d.other node)
  let parent := m.rbParent node
  let m := m.setChild d.other node (m.child d up)
  let m := m.setParentOf (m.child d.other node) (some node)
  let m := m.setChild d up (some node)
  let m := m.rbSetParent up parent
  let m := m.relink d parent node (some up)
  .ok (m.rbSetParent node (some up))

def rbRotateLeft (node : NodePtr) : Except RbFault RbMemory := m.rotate .left node

def rbRotateRight (node : NodePtr) : Except RbFault RbMemory := m.rotate .right node

/-- A turn of the loop of `rb_insert_color` without a red uncle. -/
def insertColorRotate (d : Side) (node parent gparent : NodePtr) :
    Except RbFault (RbMemory × NodePtr) := do
  let (m, node, parent) ←
    if m.child d.other parent = some node then do
      let m ← m.rotate d parent
      .ok (m, parent, node)
    else .ok (m, node, parent)
  let m := m.rbSetBlack parent
  let m := m.rbSetRed gparent
  let m ← m.rotate d.other gparent
  .ok (m, node)

/-- A turn of the loop of `rb_insert_color`, with the parent on side `d` of the grandparent:
the memory and the node of the next turn. -/
def insertColorTurn (d : Side) (node parent gparent : NodePtr) :
    Except RbFault (RbMemory × NodePtr) :=
  match m.child d.other gparent with
  | some uncle =>
    if m.rbIsRed uncle then
      .ok (((m.rbSetBlack uncle).rbSetBlack parent).rbSetRed gparent, gparent)
    else m.insertColorRotate d node parent gparent
  | none => m.insertColorRotate d node parent gparent

/-- The loop of `rb_insert_color`. -/
def insertColorLoop (m : RbMemory) (node : NodePtr) : Nat → Except RbFault RbMemory
  | 0 => .error .outOfFuel
  | fuel + 1 =>
    match m.rbParent node with
    | none => .ok m
    | some parent =>
      if m.rbIsRed parent then do
        let gparent ← deref (m.rbParent parent)
        let (m, node) ←
          if m.rbLeft gparent = some parent then m.insertColorTurn .left node parent gparent
          else m.insertColorTurn .right node parent gparent
        insertColorLoop m node fuel
      else .ok m

def rbInsertColor (node : NodePtr) (fuel : Nat) : Except RbFault RbMemory := do
  let m ← m.insertColorLoop node fuel
  let root ← deref m.rbNode
  .ok (m.rbSetBlack root)

/-- A turn of the loop of `__rb_erase_color` from where `other` is black. -/
def eraseColorBorrow (d : Side) (parent other : NodePtr) : Except RbFault (RbMemory × Bool) :=
  if m.nullOrBlack (m.rbLeft other) && m.nullOrBlack (m.rbRight other) then
    .ok (m.rbSetRed other, true)
  else do
    let (m, other) ←
      if m.nullOrBlack (m.child d.other other) then do
        let near ← deref (m.child d other)
        let m := m.rbSetBlack near
        let m := m.rbSetRed other
        let m ← m.rotate d.other other
        let other ← deref (m.child d.other parent)
        .ok (m, other)
      else .ok (m, other)
    let m := m.rbSetColor other (m.rbColor parent)
    let m := m.rbSetBlack parent
    let far ← deref (m.child d.other other)
    let m := m.rbSetBlack far
    let m ← m.rotate d parent
    .ok (m, false)

/-- A turn of the loop of `__rb_erase_color`, with the node on side `d` of `parent`:
`true` if the node of the next turn is `parent`, `false` if the loop is left. -/
def eraseColorTurn (d : Side) (parent : NodePtr) : Except RbFault (RbMemory × Bool) := do
  let other ← deref (m.child d.other parent)
  if m.rbIsRed other then do
    let m := m.rbSetBlack other
    let m := m.rbSetRed parent
    let m ← m.rotate d parent
    let other ← deref (m.child d.other parent)
    m.eraseColorBorrow d parent other
  else m.eraseColorBorrow d parent other

/-- The loop of `__rb_erase_color`, with the node it is left with. -/
def eraseColorLoop (m : RbMemory) (node parent : Option NodePtr) :
    Nat → Except RbFault (RbMemory × Option NodePtr)
  | 0 => .error .outOfFuel
  | fuel + 1 =>
    if m.nullOrBlack node ∧ node ≠ m.rbNode then do
      let parent ← deref parent
      let (m, up) ←
        if m.rbLeft parent = node then m.eraseColorTurn .left parent
        else m.eraseColorTurn .right parent
      if up then eraseColorLoop m (some parent) (m.rbParent parent) fuel
      else .ok (m, m.rbNode)
    else .ok (m, node)

/-- `if (node) rb_set_black(node)` -/
def blacken (node : Option NodePtr) : RbMemory :=
  match node with
  | none => m
  | some node => m.rbSetBlack node

/-- `__rb_erase_color` -/
def rbEraseColor (node parent : Option NodePtr) (fuel : Nat) : Except RbFault RbMemory := do
  let (m, node) ← m.eraseColorLoop node parent fuel
  .ok (m.blacken node)

/-- `while (n->rb_left) n = n->rb_left` and its mirror image. -/
def sideEnd (d : Side) (n : NodePtr) : Nat → Except RbFault NodePtr
  | 0 => .error .outOfFuel
  | fuel + 1 =>
    match m.child d n with
    | none => .ok n
    | some c => sideEnd d c fuel

/-- What `rb_erase` hands to its label `color`: the memory, `child`, `parent` and `color`. -/
structure Unlinked where
  memory : RbMemory
  child : Option NodePtr
  parent : Option NodePtr
  color : Addr

/-- `rb_erase` of a node with one child at most. -/
def unlinkNode (node : NodePtr) (child : Option NodePtr) : Unlinked :=
  let parent := m.rbParent node
  let color := m.rbColor node
  let m := m.setParentOf child parent
  ⟨m.relink .left parent node child, child, parent, color⟩

/-- The parent, the colour and the left child of `old` go to `node`. -/
def inheritPlace (old node : NodePtr) : Except RbFault RbMemory := do
  let m := m.setParentColor node (m.node old).rbParentColor
  let m := m.setLeft node (m.rbLeft old)
  let left ← deref (m.rbLeft old)
  .ok (m.rbSetParent left (some node))

/-- `rb_erase` of a node with two children: its successor moves to its place. -/
def unlinkSuccessor (old right : NodePtr) (fuel : Nat) : Except RbFault Unlinked := do
  let node ← m.sideEnd .left right fuel
  let m := m.relink .left (m.rbParent old) old (some node)
  let child := m.rbRight node
  let parent := m.rbParent node
  let color := m.rbColor node
  let (m, parent) ←
    if parent = some old then .ok (m, some node)
    else do
      let m := m.setParentOf child parent
      let p ← deref parent
      let m := m.setLeft p child
      let m := m.setRight node (m.rbRight old)
      let right ← deref (m.rbRight old)
      .ok (m.rbSetParent right (some node), parent)
  let m ← m.inheritPlace old node
  .ok ⟨m, child, parent, color⟩

def rbErase (node : NodePtr) (fuel : Nat) : Except RbFault RbMemory := do
  let u ←
    match m.rbLeft node, m.rbRight node with
    | none, child => .ok (m.unlinkNode node child)
    | child, none => .ok (m.unlinkNode node child)
    | some _, some right => m.unlinkSuccessor node right fuel
  if u.color = rbBlack then u.memory.rbEraseColor u.child u.parent fuel else .ok u.memory

/-- `rb_first` and `rb_last`. -/
def outermost (d : Side) (fuel : Nat) : Except RbFault (Option NodePtr) :=
  match m.rbNode with
  | none => .ok none
  | some n => (m.sideEnd d n fuel).map some

def rbFirst (fuel : Nat) : Except RbFault (Option NodePtr) := m.outermost .left fuel

def rbLast (fuel : Nat) : Except RbFault (Option NodePtr) := m.outermost .right fuel

/-- Up from a node as long as it is the child on side `d` of its parent; the last parent. -/
def climb (d : Side) (n : NodePtr) : Nat → Except RbFault (Option NodePtr)
  | 0 => .error .outOfFuel
  | fuel + 1 =>
    match m.rbParent n with
    | none => .ok none
    | some p => if m.child d p = some n then climb d p fuel else .ok (some p)

/-- `rb_next`, and `rb_prev` with the sides exchanged. -/
def neighbour (d : Side) (n : NodePtr) (fuel : Nat) : Except RbFault (Option NodePtr) :=
  if m.rbParent n = some n then .ok none
  else
    match m.child d n with
    | some c => (m.sideEnd d.other c fuel).map some
    | none => m.climb d n fuel

def rbNext (n : NodePtr) (fuel : Nat) : Except RbFault (Option NodePtr) := m.neighbour .right n fuel

def rbPrev (n : NodePtr) (fuel : Nat) : Except RbFault (Option NodePtr) := m.neighbour .left n fuel

/-- `rb_replace_node` -/
def rbReplaceNode (victim new : NodePtr) : RbMemory :=
  let m := m.relink .left (m.rbParent victim) victim (some new)
  let m := m.setParentOf (m.rbLeft victim) (some new)
  let m := m.setParentOf (m.rbRight victim) (some new)
  m.setFields new (m.node victim)

end RbMemory

end Atrace.Signal

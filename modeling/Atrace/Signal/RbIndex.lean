import Atrace.Signal.BpIndexMap
import Atrace.Signal.RbErase
import Atrace.Signal.RbInsert

/-! The functions `breakpoint_rb_*` of `breakpoint.c` on the nodes in memory. -/
namespace Atrace.Signal

open Atrace.Lib Atrace.Lib.TreePath
open Atrace.Lib.TreeLinks (rootName headName pathNames headLink Footprint)

variable {ε : Type}

/-- `*link` -/
def RbMemory.loadLink (m : RbMemory) : Option (Side × NodePtr) → Option NodePtr
  | none => m.rbNode
  | some (d, n) => m.child d n

/-- The tree `breakpoints` and the field `address` of the entries. -/
structure RbIndex (ε : Type) where
  memory : RbMemory
  address : ε → Addr

namespace RbIndex

variable (rb : RbMember ε)

/-- The loop of `breakpoint_rb_find_internal`. -/
def findLoop (t : RbIndex ε) (addr : Addr) (rbnode : Option NodePtr) : Nat → Except RbFault (Option ε)
  | 0 => .error .outOfFuel
  | fuel + 1 =>
    match rbnode with
    | none => .ok none
    | some n =>
      let bp := rb.containerOf n
      if addr < t.address bp then findLoop t addr (t.memory.rbLeft n) fuel
      else if t.address bp < addr then findLoop t addr (t.memory.rbRight n) fuel
      else .ok (some bp)

def breakpointRbFindInternal (t : RbIndex ε) (addr : Addr) (fuel : Nat) :
    Except RbFault (Option ε) := t.findLoop rb addr t.memory.rbNode fuel

def breakpointRbFind (t : RbIndex ε) (addr : Addr) (fuel : Nat) : Except RbFault (Option ε) :=
  t.breakpointRbFindInternal rb addr fuel

/-- The loop of `breakpoint_rb_insert_internal`: the parent and the link of a new node,
unless the address is in the tree. -/
def descendLoop (t : RbIndex ε) (addr : Addr) (parent : Option NodePtr)
    (link : Option (Side × NodePtr)) :
    Nat → Except RbFault (Option (Option NodePtr × Option (Side × NodePtr)))
  | 0 => .error .outOfFuel
  | fuel + 1 =>
    match t.memory.loadLink link with
    | none => .ok (some (parent, link))
    | some n =>
      let bp := rb.containerOf n
      if addr < t.address bp then descendLoop t addr (some n) (some (.left, n)) fuel
      else if t.address bp < addr then descendLoop t addr (some n) (some (.right, n)) fuel
      else .ok none

def breakpointRbInsertInternal (t : RbIndex ε) (e : ε) (fuel : Nat) :
    Except RbFault (RbIndex ε × Int) := do
  if t.memory.rbEmptyNode (rb.rbNode e) then
    match ← t.descendLoop rb (t.address e) none none fuel with
    | none => .ok (t, -1)
    | some (parent, link) =>
      let m := t.memory.rbLinkNode (rb.rbNode e) parent link
      let m ← m.rbInsertColor (rb.rbNode e) fuel
      .ok ({ t with memory := m }, 0)
  else .error .assertion

def breakpointRbInsert (t : RbIndex ε) (e : ε) (fuel : Nat) : Except RbFault (RbIndex ε × Int) :=
  t.breakpointRbInsertInternal rb e fuel

/-- The code of the inner insertion is dropped, as in the source. -/
def breakpointRbSearchInsert (t : RbIndex ε) (e : ε) (fuel : Nat) :
    Except RbFault (RbIndex ε × Int) := do
  match ← t.breakpointRbFindInternal rb (t.address e) fuel with
  | some _ => .ok (t, -1)
  | none =>
    let (t, _) ← t.breakpointRbInsertInternal rb e fuel
    .ok (t, 0)

def breakpointRbDeleteInternal (t : RbIndex ε) (addr : Addr) (fuel : Nat) :
    Except RbFault (RbIndex ε × Option ε) := do
  match ← t.breakpointRbFindInternal rb addr fuel with
  | none => .ok (t, none)
  | some bp =>
    let m ← t.memory.rbErase (rb.rbNode bp) fuel
    .ok ({ t with memory := m.rbClearNode (rb.rbNode bp) }, some bp)

def breakpointRbDelete (t : RbIndex ε) (addr : Addr) (fuel : Nat) :
    Except RbFault (RbIndex ε × Option ε) := t.breakpointRbDeleteInternal rb addr fuel

/-- An assignment to `entry->address`. -/
def setAddress [DecidableEq ε] (t : RbIndex ε) (e : ε) (addr : Addr) : RbIndex ε :=
  { t with address := Function.update t.address e addr }

def call [DecidableEq ε] (fuel : Nat) (t : RbIndex ε) :
    IndexCall ε → Except RbFault (RbIndex ε × IndexAnswer ε)
  | .insert e => (t.breakpointRbInsert rb e fuel).map fun r => (r.1, .code r.2)
  | .searchInsert e => (t.breakpointRbSearchInsert rb e fuel).map fun r => (r.1, .code r.2)
  | .delete addr => (t.breakpointRbDelete rb addr fuel).map fun r => (r.1, .entry r.2)
  | .find addr => (t.breakpointRbFind rb addr fuel).map fun e => (t, .entry e)
  | .setAddress e addr => .ok (t.setAddress e addr, .nothing)

variable {rb} {t : RbIndex ε} {m : RbMemory} {root : RbTree ε} {addr : Addr} {e : ε} {fuel : Nat}
  {fs gs : List (Frame (RbNode ε))} {F : Footprint NodePtr (RbNode ε)} {u : RbTree ε} {s : BpIndex ε}
  {d : Side} {x : RbNode ε}

/-- Going down the tree of nodes is going down the tree. -/
theorem findLoop_place (h : t.memory.Place rb F fs u) (ha : t.address = s.address)
    (hfuel : u.height < fuel) :
    t.findLoop rb addr (rootName rb.nameOf u) fuel =
      .ok ((SearchTree.find s.key addr.toNat u).map RbNode.entry) := by
  induction u generalizing fs fuel with
  | nil =>
    obtain ⟨fuel, rfl⟩ := Nat.exists_eq_succ_of_ne_zero (Nat.ne_of_gt hfuel)
    rfl
  | node x l r ihl ihr =>
    obtain ⟨fuel, rfl⟩ := Nat.exists_eq_succ_of_ne_zero (Nat.ne_of_gt (Nat.zero_lt_of_lt hfuel))
    obtain ⟨_, _, hl, hr, _, _⟩ := h.shape.hangs
    have hleft : t.memory.rbLeft (rb.nameOf x) = rootName rb.nameOf l := hl
    have hright : t.memory.rbRight (rb.nameOf x) = rootName rb.nameOf r := hr
    simp only [BinaryTree.height] at hfuel
    have hgol := ihl (TreeLinks.Place.down (d := .left) h) (show l.height < fuel by omega)
    have hgor := ihr (TreeLinks.Place.down (d := .right) h) (show r.height < fuel by omega)
    simp only [findLoop, TreeLinks.rootName_node, RbMember.containerOf_nameOf, hleft, hright, hgol,
      hgor, ha, BitVec.lt_def, SearchTree.find, BpIndex.key]
    split
    · rename_i hlt
      simp [hlt]
    · rename_i hle
      split
      · rename_i hlt
        simp [hle, hlt]
      · rename_i hge
        simp [hle, hge]

theorem find_represents (h : t.memory.Represents rb s.root) (ha : t.address = s.address)
    (hfuel : s.root.height < fuel) :
    t.breakpointRbFindInternal rb addr fuel = .ok (s.breakpointRbFindInternal addr) := by
  have hroot : t.memory.rbNode = rootName rb.nameOf s.root := h.around
  rw [breakpointRbFindInternal, hroot]
  have hplace : t.memory.Place rb ⟨t.memory.links rb, Set.univ⟩ [] s.root :=
    TreeLinks.Place.of_shape h fun _ _ => trivial
  exact findLoop_place hplace ha hfuel

/-- The link at the end of a path holds the subtree there. -/
theorem loadLink_headLink (h : m.Place rb F fs u) :
    m.loadLink (headLink rb.nameOf fs) = rootName rb.nameOf u := by
  cases fs with
  | nil => exact h.shape.around
  | cons f fs => exact (RbMemory.Place.child h.up).1

theorem descendLoop_place (h : t.memory.Place rb F fs u) (ha : t.address = s.address)
    (hfuel : u.height < fuel) :
    t.descendLoop rb addr (headName rb.nameOf fs) (headLink rb.nameOf fs) fuel =
      .ok ((descend s.key addr.toNat fs u).map
        fun gs => (headName rb.nameOf gs, headLink rb.nameOf gs)) := by
  induction u generalizing fs fuel with
  | nil =>
    obtain ⟨fuel, rfl⟩ := Nat.exists_eq_succ_of_ne_zero (Nat.ne_of_gt hfuel)
    simp only [descendLoop, loadLink_headLink h, TreeLinks.rootName_nil]
    rfl
  | node x l r ihl ihr =>
    obtain ⟨fuel, rfl⟩ := Nat.exists_eq_succ_of_ne_zero (Nat.ne_of_gt (Nat.zero_lt_of_lt hfuel))
    simp only [BinaryTree.height] at hfuel
    have hgol := ihl (TreeLinks.Place.down (d := .left) h) (show l.height < fuel by omega)
    have hgor := ihr (TreeLinks.Place.down (d := .right) h) (show r.height < fuel by omega)
    simp only [TreeLinks.headName_cons, TreeLinks.headLink_cons] at hgol hgor
    simp only [descendLoop, loadLink_headLink h, TreeLinks.rootName_node,
      RbMember.containerOf_nameOf, hgol, hgor, ha, BitVec.lt_def, descend, BpIndex.key]
    split
    · rename_i hlt
      simp [hlt]
    · rename_i hle
      split
      · rename_i hlt
        simp [hle, hlt]
      · rename_i hge
        simp [hle, hge]

end RbIndex

end Atrace.Signal

import Atrace.Signal.RbInsert
import Atrace.Signal.RbWalk

/-! What the functions of `rbtree.h` do to any red-black tree in memory, whatever its order means. -/
namespace Atrace.Signal

open Atrace.Lib Atrace.Lib.TreePath Atrace.Lib.RedBlack
open Atrace.Lib.SearchTree (inorder)
open Atrace.Lib.TreeLinks (names names_node headName headLink pathNames SameAt)

/-- Three entries, two of them in a tree. -/
def threeEntries : RbMember (Fin 3) where
  rbNode
    | 0 => ⟨0x100, by decide, by decide⟩
    | 1 => ⟨0x200, by decide, by decide⟩
    | 2 => ⟨0x300, by decide, by decide⟩
  containerOf n := if n.addr = 0x100 then 0 else if n.addr = 0x200 then 1 else 2
  containerOf_rbNode
    | 0 => rfl
    | 1 => rfl
    | 2 => rfl

def smallTree : RbTree (Fin 3) := .node ⟨1, .black⟩ (.node ⟨0, .red⟩ .nil .nil) .nil

def smallMemory : RbMemory where
  node n :=
    if n.addr = 0x100 then ⟨0x200, none, none⟩
    else if n.addr = 0x200 then ⟨1, none, some (threeEntries.rbNode 0)⟩
    else ⟨n.addr, none, none⟩
  rbNode := some (threeEntries.rbNode 1)

theorem smallMemory_represents : smallMemory.Represents threeEntries smallTree :=
  ⟨rfl, ⟨rfl, rfl, rfl, rfl, ⟨rfl, rfl, rfl, rfl, trivial, trivial⟩, trivial⟩, by decide⟩

theorem smallTree_balanced : Balanced false 1 smallTree :=
  .black rfl (.red rfl .nil .nil) .nil

namespace RbMemory

variable {ε : Type*} {rb : RbMember ε} {m : RbMemory} {n : NodePtr} {k : Nat} {e : ε}
  {t : RbTree ε}

/-- The nodes of the tree, with the node of one more entry, are the footprint of what follows. -/
theorem Represents.place_with (h : m.Represents rb t) (e : ε) :
    m.Place rb ⟨m.links rb, {a | a ∈ names rb.nameOf t ∨ a = rb.rbNode e}⟩ [] t :=
  TreeLinks.Place.of_shape h fun a ha => by simpa [pathNames] using Or.inl ha

/-- Linking a node in and repairing, with the tree that comes of it. -/
theorem rbInsertColor_tree (fs : List (Frame (RbNode ε))) (e : ε) (fuel : Nat)
    (h : m.Represents rb (plug fs .nil)) (hbal : Balanced false k (plug fs .nil))
    (he : rb.rbNode e ∉ names rb.nameOf (plug fs .nil))
    (hfuel : 2 * Nat.log 2 (BinaryTree.numNodes (plug fs .nil) + 1) < fuel) :
    ∃ m' u, insertColor (.node ⟨e, .red⟩ .nil .nil) fs = some u ∧
      (m.rbLinkNode (rb.rbNode e) (headName rb.nameOf fs)
        (headLink rb.nameOf fs)).rbInsertColor (rb.rbNode e) fuel = .ok m' ∧
      m'.Represents rb u ∧ (∃ k, Balanced false k u) ∧
      names rb.nameOf u = (before fs).map rb.nameOf ++ rb.rbNode e :: (after fs).map rb.nameOf ∧
      ∀ a ∉ names rb.nameOf u, (m.links rb).SameAt (m'.links rb) a := by
  have hplace := h.place_with e
  have hpath : rb.rbNode e ∉ pathNames rb.nameOf fs := fun hm =>
    he (TreeLinks.mem_names_plug.mpr (Or.inr hm))
  have hlinked := Place.rbLinkNode (e := e) (TreeLinks.Place.plug_iff.mp hplace) (Or.inr rfl) hpath
  obtain ⟨u, j, hins, hj⟩ :=
    insertColor_balanced (x := (⟨e, .red⟩ : RbNode ε)) (fits_iff.mpr ⟨k, hbal⟩) rfl
  have hlength : fs.length < fuel := by
    have hle : fs.length + (.nil : RbTree ε).height ≤ _ := length_add_height_le
    have hlog := hbal.height_le_log
    omega
  obtain ⟨m', hrun, hm'⟩ := rbInsertColor_place hlinked rfl hins hlength
  have hnames : names rb.nameOf u =
      (before fs).map rb.nameOf ++ rb.rbNode e :: (after fs).map rb.nameOf := by
    rw [names, insertColor_inorder (g := rb.nameOf) (fun _ _ => rfl) hins, inorder_plug]
    simp [inorder, RbMember.nameOf]
  refine ⟨m', u, hins, hrun, hm'.shape, ⟨j, hj⟩, hnames, ?_⟩
  intro a ha
  apply hm'.outside
  rintro (hmem | rfl)
  · rw [hnames] at ha
    simp only [names, inorder_plug, inorder, List.append_nil, List.map_append, List.mem_append,
      List.mem_cons, not_or] at hmem ha
    exact hmem.elim ha.1 ha.2.2
  · exact ha (by simp [hnames])

/-- A node linked into any empty link of a red-black tree: after `rb_insert_color` the tree is
red-black again, the node stands at that place of the order, and no other node is touched. -/
theorem rbInsertColor_names (fs : List (Frame (RbNode ε))) (e : ε) (fuel : Nat)
    (h : m.Represents rb (plug fs .nil)) (hbal : Balanced false k (plug fs .nil))
    (he : rb.rbNode e ∉ names rb.nameOf (plug fs .nil))
    (hfuel : 2 * Nat.log 2 (BinaryTree.numNodes (plug fs .nil) + 1) < fuel) :
    ∃ m' u, (m.rbLinkNode (rb.rbNode e) (headName rb.nameOf fs)
        (headLink rb.nameOf fs)).rbInsertColor (rb.rbNode e) fuel = .ok m' ∧
      m'.Represents rb u ∧ (∃ k, Balanced false k u) ∧
      names rb.nameOf u = (before fs).map rb.nameOf ++ rb.rbNode e :: (after fs).map rb.nameOf ∧
      ∀ a ∉ names rb.nameOf u, (m.links rb).SameAt (m'.links rb) a := by
  obtain ⟨m', u, _, hu⟩ := rbInsertColor_tree fs e fuel h hbal he hfuel
  exact ⟨m', u, hu⟩

theorem rbInsertColor_names_right : ∃ m' u,
    (smallMemory.rbLinkNode (threeEntries.rbNode 2) (some (threeEntries.rbNode 1))
      (some (.right, threeEntries.rbNode 1))).rbInsertColor (threeEntries.rbNode 2) 5 = .ok m' ∧
    m'.Represents threeEntries u ∧
    names threeEntries.nameOf u =
      [threeEntries.rbNode 0, threeEntries.rbNode 1, threeEntries.rbNode 2] := by
  obtain ⟨m', u, hrun, hm', _, hnames, _⟩ := rbInsertColor_names
    [⟨.right, ⟨1, .black⟩, .node ⟨0, .red⟩ .nil .nil⟩] 2 5 smallMemory_represents smallTree_balanced
    (by decide) (by decide)
  exact ⟨m', u, hrun, hm', hnames⟩

/-- Taking a node out, with the tree that comes of it. -/
theorem rbErase_tree {fs : List (Frame (RbNode ε))} {x : RbNode ε} {l r : RbTree ε} (fuel : Nat)
    (h : m.Represents rb (plug fs (.node x l r))) (hbal : Balanced false k (plug fs (.node x l r)))
    (hfuel : 2 * Nat.log 2 ((plug fs (.node x l r)).numNodes + 1) ≤ fuel) :
    ∃ m' u, eraseAt x fs l r = some u ∧ m.rbErase (rb.nameOf x) fuel = .ok m' ∧
      m'.Represents rb u ∧ (∃ k, Balanced false k u) ∧
      names rb.nameOf u =
        (before fs ++ inorder l).map rb.nameOf ++ (inorder r ++ after fs).map rb.nameOf ∧
      ∀ a ∉ names rb.nameOf (plug fs (.node x l r)), (m.links rb).SameAt (m'.links rb) a := by
  have hplace : m.Place rb ⟨m.links rb, {a | a ∈ names rb.nameOf (plug fs (.node x l r))}⟩ []
      (plug fs (.node x l r)) :=
    TreeLinks.Place.of_shape h fun a ha => by simpa [pathNames] using ha
  obtain ⟨u, j, herase, hj⟩ := eraseAt_balanced (fits_iff.mpr ⟨k, hbal⟩)
  obtain ⟨m', hrun, hm'⟩ := rbErase_place (TreeLinks.Place.plug_iff.mp hplace) herase
    (hbal.height_le_log.trans hfuel)
  refine ⟨m', u, herase, hrun, hm'.shape, ⟨j, hj⟩, ?_, hm'.outside⟩
  rw [names, eraseAt_inorder (g := rb.nameOf) (fun _ _ => rfl) herase]
  simp

/-- `rb_erase` of any node of a red-black tree: the tree is red-black again, the other nodes keep
their order, and no node off the tree is touched. -/
theorem rbErase_names (pre post : List NodePtr) (fuel : Nat) (h : m.Represents rb t)
    (hbal : Balanced false k t) (hn : names rb.nameOf t = pre ++ n :: post)
    (hfuel : 2 * Nat.log 2 (t.numNodes + 1) ≤ fuel) :
    ∃ m' u, m.rbErase n fuel = .ok m' ∧ m'.Represents rb u ∧ (∃ k, Balanced false k u) ∧
      names rb.nameOf u = pre ++ post ∧
      ∀ a ∉ names rb.nameOf t, (m.links rb).SameAt (m'.links rb) a := by
  obtain ⟨fs, x, l, r, rfl, rfl, rfl, rfl⟩ := TreeLinks.exists_plug_of_names hn
  obtain ⟨m', u, _, hu⟩ := rbErase_tree fuel h hbal hfuel
  exact ⟨m', u, hu⟩

theorem rbErase_names_top : ∃ m' u, smallMemory.rbErase (threeEntries.rbNode 1) 2 = .ok m' ∧
    m'.Represents threeEntries u ∧ names threeEntries.nameOf u = [threeEntries.rbNode 0] := by
  obtain ⟨m', u, hrun, hm', _, hnames, _⟩ := rbErase_names [threeEntries.rbNode 0] [] 2
    smallMemory_represents smallTree_balanced rfl (by decide)
  exact ⟨m', u, hrun, hm', hnames⟩

/-- From the first node, or from the last one, each call gives the next node of the in-order list,
and NULL at its end. -/
theorem rbNext_names (fuel : Nat) (h : m.Represents rb t) (hfuel : t.height ≤ fuel) :
    m.rbFirst fuel = .ok (names rb.nameOf t).head? ∧
    m.rbLast fuel = .ok (names rb.nameOf t).getLast? ∧
    ∀ pre n post, names rb.nameOf t = pre ++ n :: post →
      m.rbNext n fuel = .ok post.head? ∧ m.rbPrev n fuel = .ok pre.getLast? := by
  have hplace : m.Place rb ⟨m.links rb, Set.univ⟩ [] t :=
    TreeLinks.Place.of_shape h fun _ _ => trivial
  refine ⟨?_, ?_, ?_⟩
  · rw [rbFirst, outermost_place hplace hfuel, names, List.head?_map]
    rfl
  · rw [rbLast, outermost_place hplace hfuel, names, List.getLast?_map]
    rfl
  · rintro pre n post hnames
    obtain ⟨fs, x, l, r, rfl, rfl, rfl, rfl⟩ := TreeLinks.exists_plug_of_names hnames
    have hdown := TreeLinks.Place.plug_iff.mp hplace
    rw [rbNext, rbPrev, neighbour_place hdown hfuel, neighbour_place hdown hfuel, List.head?_map,
      List.getLast?_map]
    exact ⟨rfl, rfl⟩

theorem rbNext_names_two : smallMemory.rbFirst 2 = .ok (some (threeEntries.rbNode 0)) ∧
    smallMemory.rbNext (threeEntries.rbNode 0) 2 = .ok (some (threeEntries.rbNode 1)) := by
  obtain ⟨hfirst, _, hnext⟩ := rbNext_names 2 smallMemory_represents (by decide)
  exact ⟨hfirst, (hnext [] _ [threeEntries.rbNode 1] rfl).1⟩

/-- `rb_replace_node`: the new node has the place and the colour of the old one, and only nodes of
the tree and the new node are written. -/
theorem rbReplaceNode_names (pre post : List NodePtr) (e : ε) (h : m.Represents rb t)
    (hbal : Balanced false k t) (hn : names rb.nameOf t = pre ++ n :: post) (he : rb.rbNode e ∉ names rb.nameOf t) :
    ∃ u, (m.rbReplaceNode n (rb.rbNode e)).Represents rb u ∧ (∃ k, Balanced false k u) ∧
      u.height = t.height ∧ names rb.nameOf u = pre ++ rb.rbNode e :: post ∧
      ∀ a ∉ names rb.nameOf t, a ≠ rb.rbNode e →
        (m.links rb).SameAt ((m.rbReplaceNode n (rb.rbNode e)).links rb) a := by
  obtain ⟨fs, x, l, r, rfl, rfl, rfl, rfl⟩ := TreeLinks.exists_plug_of_names hn
  have hnot : rb.rbNode e ∉ names rb.nameOf (.node x l r) ++ pathNames rb.nameOf fs := by
    rwa [List.mem_append, ← TreeLinks.mem_names_plug]
  have hm' := rbReplaceNode_place (e := e) (TreeLinks.Place.plug_iff.mp (h.place_with e)) (Or.inr rfl) hnot
  refine ⟨plug fs (.node ⟨e, x.color⟩ l r), (TreeLinks.Place.plug_iff.mpr hm').shape, ?_,
    height_plug_congr rfl, ?_, ?_⟩
  · have hfits : Fits ([] ++ ⟨.left, x, r⟩ :: fs) l := (fits_iff.mpr ⟨k, hbal⟩).down_left
    have hcolor : Painted.isRed (⟨e, x.color⟩ : RbNode ε) = Painted.isRed x := rfl
    have hnew : Fits ([] ++ ⟨.left, ⟨e, x.color⟩, r⟩ :: fs) l := hfits.recolour hcolor
    exact fits_iff.mp hnew.up
  · rw [names, inorder_plug]
    simp [inorder, RbMember.nameOf]
  · intro a ha hae
    exact hm'.outside a (by rintro (hmem | hmem); exacts [ha hmem, hae hmem])

theorem rbReplaceNode_names_top : ∃ u, (smallMemory.rbReplaceNode (threeEntries.rbNode 1)
      (threeEntries.rbNode 2)).Represents threeEntries u ∧
    names threeEntries.nameOf u = [threeEntries.rbNode 0, threeEntries.rbNode 2] := by
  obtain ⟨u, hu, _, _, hnames, _⟩ := rbReplaceNode_names [threeEntries.rbNode 0] [] 2
    smallMemory_represents smallTree_balanced rfl (by decide)
  exact ⟨u, hu, hnames⟩

end RbMemory

end Atrace.Signal

import Atrace.Signal.RbErase

/-! `rb_first`, `rb_last`, `rb_next` and `rb_prev` go through the tree in order;
`rb_replace_node` exchanges one node. -/
namespace Atrace.Signal

open Atrace.Lib Atrace.Lib.TreePath
open Atrace.Lib.SearchTree (inorder)
open Atrace.Lib.TreeLinks (names rootName headName pathNames)

namespace RbMemory

variable {ε : Type*} {rb : RbMember ε} {m m' : RbMemory} {d : Side} {n : NodePtr} {fuel : Nat}
  {x y : RbNode ε} {t u l r : RbTree ε} {f : Frame (RbNode ε)} {fs : List (Frame (RbNode ε))}
  {F : TreeLinks.Footprint NodePtr (RbNode ε)}

theorem outermost_place (h : m.Place rb F [] t) (hfuel : t.height ≤ fuel) :
    m.outermost d fuel = .ok ((d.pick (inorder t).head? (inorder t).getLast?).map rb.nameOf) := by
  have hroot : m.rbNode = rootName rb.nameOf t := h.shape.around
  rw [outermost, hroot]
  cases t with
  | nil => cases d <;> rfl
  | node x l r =>
    obtain ⟨y, hrun, hy⟩ := sideEnd_place (d := d) h rfl hfuel
    rw [hy]
    simp only [TreeLinks.rootName_node, hrun]
    rfl

/-- The climb ends at the nearest ancestor whose other side it comes from. -/
theorem climb_place (h : m.Place rb F fs t) (hn : rootName rb.nameOf t = some n)
    (hfuel : fs.length < fuel) :
    m.climb d n fuel =
      .ok ((d.pick (before fs).getLast? (after fs).head?).map rb.nameOf) := by
  induction fs generalizing t n fuel with
  | nil =>
    obtain ⟨fuel, rfl⟩ := Nat.exists_eq_succ_of_ne_zero (Nat.ne_of_gt hfuel)
    have hparent : m.rbParent n = none := h.shape.hangs.parent_root hn
    cases d <;> simp [climb, hparent, before, after, Side.pick]
  | cons f fs ih =>
    obtain ⟨fuel, rfl⟩ := Nat.exists_eq_succ_of_ne_zero (Nat.ne_of_gt (Nat.zero_lt_of_lt hfuel))
    have hparent : m.rbParent n = some (rb.nameOf f.node) := h.shape.hangs.parent_root hn
    have hchild : m.child d (rb.nameOf f.node) = some n ↔ d = f.side :=
      TreeLinks.Shape.child_iff h.shape hn
    simp only [List.length_cons] at hfuel
    have hup := ih h.up rfl (show fs.length < fuel by omega)
    simp only [climb, hparent, hchild]
    obtain ⟨e, y, v⟩ := f
    split
    · rename_i hd
      cases hd
      rw [hup]
      cases e <;> simp [before, after, Side.pick]
    · rename_i hd
      cases d <;> cases e <;> simp [before, after, Side.pick] at hd ⊢

/-- The next node on a side: the nearest one of the subtree there, or of the path. -/
theorem neighbour_place (h : m.Place rb F fs (.node x l r))
    (hfuel : (plug fs (.node x l r)).height ≤ fuel) :
    m.neighbour d (rb.nameOf x) fuel = .ok ((d.pick (before fs ++ inorder l).getLast?
      (inorder r ++ after fs).head?).map rb.nameOf) := by
  have hpath := length_add_height_le.trans hfuel
  simp only [BinaryTree.height] at hpath
  have hself := Place.rbParent_ne h
  have hside : m.Place rb F fs (build d x (d.pick l r) (d.pick r l)) := by
    rw [← node_eq_build]
    exact h
  have hchild : m.child d (rb.nameOf x) = rootName rb.nameOf (d.pick l r) := (Place.child hside).1
  rw [neighbour, if_neg hself, hchild]
  cases hsub : d.pick l r with
  | nil =>
    have hclimb := climb_place (d := d) h rfl (show fs.length < fuel by omega)
    simp only [TreeLinks.rootName_nil, hclimb]
    cases d with
    | left =>
      obtain rfl : l = .nil := hsub
      simp [Side.pick, inorder]
    | right =>
      obtain rfl : r = .nil := hsub
      simp [Side.pick, inorder]
  | node y a b =>
    rw [hsub] at hside
    have hheight : (BinaryTree.node y a b).height ≤ fuel := by
      rw [← hsub]
      cases d <;> simp only [Side.pick] <;> omega
    obtain ⟨z, hrun, hz⟩ := sideEnd_place (d := d.other) hside.down rfl hheight
    simp only [TreeLinks.rootName_node, hrun]
    cases d with
    | left =>
      obtain rfl : l = .node y a b := hsub
      have hlast : (inorder (.node y a b)).getLast? = some z := hz
      simp [Side.pick, hlast, List.getLast?_append, Except.map]
    | right =>
      obtain rfl : r = .node y a b := hsub
      have hhead : (inorder (.node y a b)).head? = some z := hz
      simp [Side.pick, hhead, List.head?_append, Except.map]

/-- `*new = *victim` -/
theorem links_copyFields (rb : RbMember ε) {k : NodePtr} : (m.setFields n (m.node k)).links rb =
    (m.links rb).copyNode k n ⟨rb.containerOf n, ((m.links rb).label k).color⟩ := by
  ext1
  · rfl
  · funext e j
    by_cases hj : j = n <;> cases e <;> by_cases hk : k = n <;>
      simp [links, TreeLinks.copyNode, RbMemory.child, Side.pick, rbLeft, rbRight, setFields_node, hj, hk]
  · funext j
    by_cases hj : j = n <;> simp [links, TreeLinks.copyNode, rbParent, setFields_node, hj]
  · funext j
    by_cases hj : j = n <;> simp [links, TreeLinks.copyNode, rbIsRed, rbColor, setFields_node, hj]

theorem rbReplaceNode_links (rb : RbMember ε) {a b : NodePtr} (ha : m.rbParent a ≠ some a) :
    (m.rbReplaceNode a b).links rb = (m.links rb).replaceNode a b
      ⟨rb.containerOf b, ((m.links rb).label a).color⟩ := by
  have hrelink : (m.relink .left (m.rbParent a) a (some b)).links rb = _ := links_relink rb
  have hchild : ∀ d, (m.relink .left (m.rbParent a) a (some b)).child d a = m.child d a := fun d =>
    (congrArg (fun t => t.child d a) hrelink).trans (TreeLinks.replaceChild_child ha)
  have hleft : (m.relink .left (m.rbParent a) a (some b)).rbLeft a = m.rbLeft a := hchild .left
  have hright : ((m.relink .left (m.rbParent a) a (some b)).setParentOf (m.rbLeft a)
      (some b)).rbRight a = m.rbRight a := by
    have hset := congrArg (fun t => t.child .right a)
      (links_setParentOf rb (m := m.relink .left (m.rbParent a) a (some b)) (c := m.rbLeft a)
        (p := some b))
    exact hset.trans ((congrFun (congrFun TreeLinks.reparent_child _) _).trans (hchild .right))
  simp only [rbReplaceNode, hleft, hright, links_copyFields, links_setParentOf, hrelink]
  simp only [TreeLinks.reparent_label, TreeLinks.replaceChild_label]
  rfl

/-- A node that is not in the tree takes the place and the colour of one that is. -/
theorem rbReplaceNode_place {e : ε} (h : m.Place rb F fs (.node x l r))
    (hF : rb.rbNode e ∈ F.nodes)
    (he : rb.rbNode e ∉ names rb.nameOf (.node x l r) ++ pathNames rb.nameOf fs) :
    (m.rbReplaceNode (rb.nameOf x) (rb.rbNode e)).Place rb F fs (.node ⟨e, x.color⟩ l r) := by
  have hself : m.rbParent (rb.nameOf x) ≠ some (rb.nameOf x) := Place.rbParent_ne h
  have hlabel : (m.links rb).label (rb.nameOf x) = x := h.shape.hangs.1
  rw [RbMemory.Place, rbReplaceNode_links rb hself, rb.containerOf_rbNode, hlabel]
  exact TreeLinks.Place.replaceNode (y := (⟨e, x.color⟩ : RbNode ε)) h hF he

end RbMemory

end Atrace.Signal

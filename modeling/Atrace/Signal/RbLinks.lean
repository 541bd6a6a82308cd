import Atrace.Signal.RbTree

/-! The links that the words in memory hold, and what each store does to them. -/
namespace Atrace.Signal

open Atrace.Lib Atrace.Lib.TreePath

/-- The member `rb_node` of the objects `ε`: `&e->rb_node` and `container_of`. -/
structure RbMember (ε : Type*) where
  rbNode : ε → NodePtr
  containerOf : NodePtr → ε
  containerOf_rbNode : ∀ e, containerOf (rbNode e) = e

variable {ε : Type*}

instance : Painted (RbNode ε) where
  isRed n := n.color == .red
  paint c n := { n with color := if c then .red else .black }
  isRed_paint c n := by cases c <;> rfl
  paint_paint _ _ _ := rfl
  paint_isRed n := by
    obtain ⟨e, c⟩ := n
    cases c <;> rfl

/-- The entries of a tree do not depend on its colours. -/
theorem entry_paint (c : Bool) (x : RbNode ε) : (Painted.paint c x).entry = x.entry := rfl

namespace NodePtr

theorem toWord_aligned (p : Option NodePtr) : toWord p &&& 3 = 0 := by
  rcases p with _ | p
  · rfl
  · exact p.aligned

/-- What is packed beside the two low bits of another word comes out again. -/
theorem ofWord_pack (w : Addr) (p : Option NodePtr) : ofWord (w &&& 3 ||| toWord p) = p := by
  have hp : (w &&& 3 ||| toWord p) &&& ~~~3 = toWord p := tagged_and_not (toWord_aligned p)
  rcases p with _ | p
  · exact dif_pos hp
  · exact (dif_neg (hp.trans_ne p.nonNull)).trans (congrArg some (NodePtr.ext hp))

@[simp] theorem ofWord_toWord (p : Option NodePtr) : ofWord (toWord p) = p := by
  simpa using ofWord_pack 0 p

theorem ofWord_congr {w w' : Addr} (h : w &&& ~~~3 = w' &&& ~~~3) : ofWord w = ofWord w' := by
  simp only [ofWord, h]

end NodePtr

namespace RbMember

variable (rb : RbMember ε)

/-- The pointer to a node of the tree. -/
def nameOf (n : RbNode ε) : NodePtr := rb.rbNode n.entry

theorem rbNode_injective {e e' : ε} (h : rb.rbNode e = rb.rbNode e') : e = e' := by
  rw [← rb.containerOf_rbNode e, h, rb.containerOf_rbNode]

@[simp] theorem containerOf_nameOf (n : RbNode ε) : rb.containerOf (rb.nameOf n) = n.entry :=
  rb.containerOf_rbNode n.entry

@[simp] theorem nameOf_paint (c : Bool) (n : RbNode ε) :
    rb.nameOf (Painted.paint c n) = rb.nameOf n := rfl

end RbMember

namespace RbMemory

variable (rb : RbMember ε) {m m' : RbMemory} {d : Side} {n k : NodePtr} {c p : Option NodePtr}

/-- What the words say: the links, and the entry and the colour of every node. -/
def links (m : RbMemory) : TreeLinks NodePtr (RbNode ε) where
  root := m.rbNode
  child := m.child
  parent := m.rbParent
  label n := ⟨rb.containerOf n, if m.rbIsRed n then .red else .black⟩

/-- The tree with a subtree at the end of a path is in memory, and the rest of it is as it was. -/
abbrev Place (m : RbMemory) (F : TreeLinks.Footprint NodePtr (RbNode ε))
    (fs : List (Frame (RbNode ε))) (t : RbTree ε) : Prop :=
  (m.links rb).Place rb.nameOf F fs t

/-- The tree is in memory. -/
abbrev Represents (m : RbMemory) (t : RbTree ε) : Prop := (m.links rb).Represents rb.nameOf t

theorem setFields_node {f : RbFields} :
    (m.setFields n f).node k = if k = n then f else m.node k := rfl

theorem links_setChild : (m.setChild d n c).links rb = (m.links rb).setChild d n c := by
  have hchild : ∀ e k, (m.setChild d n c).child e k = if e = d ∧ k = n then c else m.child e k := by
    intro e k
    cases d <;> cases e <;> by_cases hk : k = n <;>
      simp [RbMemory.setChild, RbMemory.child, Side.pick, setLeft, setRight, rbLeft, rbRight,
        setFields_node, hk]
  have hword : ∀ k, ((m.setChild d n c).node k).rbParentColor = (m.node k).rbParentColor := by
    intro k
    cases d <;> by_cases hk : k = n <;>
      simp [RbMemory.setChild, Side.pick, setLeft, setRight, setFields_node, hk]
  have hroot : (m.setChild d n c).rbNode = m.rbNode := by cases d <;> rfl
  ext1
  · exact hroot
  · funext e k
    exact hchild e k
  · funext k
    simp only [links, rbParent, hword, TreeLinks.setChild]
  · funext k
    change _ = (m.links rb).label k
    simp only [links, rbIsRed, rbColor, hword]
    rfl

/-- A new word in `rb_parent_color`: a parent and a colour. -/
theorem links_setParentColor {w : Addr} : (m.setParentColor n w).links rb =
    ((m.links rb).setParent n (NodePtr.ofWord w)).setLabel n
      ⟨rb.containerOf n, if w &&& 1 == 0 then .red else .black⟩ := by
  ext1
  · rfl
  · funext e k
    by_cases hk : k = n <;> cases e <;>
      simp [links, RbMemory.child, Side.pick, rbLeft, rbRight, setParentColor, setFields_node, hk]
  · funext k
    by_cases hk : k = n <;> simp [links, rbParent, setParentColor, setFields_node, hk]
  · funext k
    by_cases hk : k = n <;> simp [links, rbIsRed, rbColor, setParentColor, setFields_node, hk]

theorem setLabel_self {t : TreeLinks NodePtr (RbNode ε)} {x : RbNode ε} (h : t.label n = x) :
    t.setLabel n x = t := by
  ext1
  · rfl
  · rfl
  · rfl
  · funext k
    by_cases hk : k = n
    · simp [hk, h]
    · simp [hk]

theorem setParent_self {t : TreeLinks NodePtr (RbNode ε)} (h : t.parent n = p) :
    t.setParent n p = t := by
  ext1
  · rfl
  · rfl
  · funext k
    by_cases hk : k = n
    · simp [hk, h]
    · simp [hk]
  · rfl

theorem links_rbSetParent : (m.rbSetParent n p).links rb = (m.links rb).setParent n p := by
  rw [rbSetParent, links_setParentColor, NodePtr.ofWord_pack,
    tagged_and (NodePtr.toWord_aligned p) (by decide)]
  exact setLabel_self rfl

theorem links_rbSetBlack :
    (m.rbSetBlack n).links rb = (m.links rb).setLabel n ⟨rb.containerOf n, .black⟩ := by
  have hone : ((m.node n).rbParentColor ||| 1) &&& 1 = 1 := by
    ext i hi
    simp only [BitVec.getElem_and, BitVec.getElem_or]
    grind
  have hself : (m.links rb).setParent n (NodePtr.ofWord (m.node n).rbParentColor) = m.links rb :=
    setParent_self rfl
  rw [rbSetBlack, links_setParentColor, NodePtr.ofWord_congr (or_and_not (by decide)), hone, hself]
  rfl

theorem links_rbSetRed :
    (m.rbSetRed n).links rb = (m.links rb).setLabel n ⟨rb.containerOf n, .red⟩ := by
  have hzero : ((m.node n).rbParentColor &&& ~~~1) &&& 1 = 0 := by
    ext i hi
    simp only [BitVec.getElem_and, BitVec.getElem_not]
    grind
  have hself : (m.links rb).setParent n (NodePtr.ofWord (m.node n).rbParentColor) = m.links rb :=
    setParent_self rfl
  rw [rbSetRed, links_setParentColor, NodePtr.ofWord_congr (and_not_and_not (by decide)), hzero,
    hself]
  rfl

/-- `rb_set_color` with the colour of another node. -/
theorem links_rbSetColor (k : NodePtr) : (m.rbSetColor n (m.rbColor k)).links rb =
    (m.links rb).setLabel n ⟨rb.containerOf n, ((m.links rb).label k).color⟩ := by
  have hlow : ((m.node n).rbParentColor &&& ~~~1 ||| m.rbColor k) &&& 1 = m.rbColor k := by
    rw [rbColor]
    ext i hi
    simp only [BitVec.getElem_and, BitVec.getElem_or, BitVec.getElem_not]
    grind
  have hbit : m.rbColor k &&& ~~~3 = 0 := by
    have hone : (1 : Addr) &&& ~~~3 = 0 := by decide
    rw [rbColor, BitVec.and_assoc, hone]
    exact BitVec.and_zero
  have hself : (m.links rb).setParent n (NodePtr.ofWord (m.node n).rbParentColor) = m.links rb :=
    setParent_self rfl
  rw [rbSetColor, links_setParentColor, NodePtr.ofWord_congr (or_and_not hbit),
    NodePtr.ofWord_congr (and_not_and_not (by decide)), hlow, hself]
  rfl

/-- `rb_link_node` makes a red leaf. -/
theorem links_rbLinkNode {link : Option (Side × NodePtr)} : (m.rbLinkNode n p link).links rb =
    (m.links rb).linkLeaf n p link ⟨rb.containerOf n, .red⟩ := by
  have hleaf : (m.setFields n ⟨NodePtr.toWord p, none, none⟩).links rb =
      ((((m.links rb).setParent n p).setChild .left n none).setChild .right n none).setLabel n
        ⟨rb.containerOf n, .red⟩ := by
    have hred : NodePtr.toWord p &&& 1 = 0 := by
      have hmask : (1 : Addr) = 3 &&& 1 := by decide
      rw [hmask, ← BitVec.and_assoc, NodePtr.toWord_aligned]
      exact BitVec.zero_and
    ext1
    · rfl
    · funext e k
      by_cases hk : k = n <;> cases e <;>
        simp [links, RbMemory.child, Side.pick, rbLeft, rbRight, setFields_node, hk]
    · funext k
      by_cases hk : k = n <;> simp [links, rbParent, setFields_node, hk]
    · funext k
      by_cases hk : k = n
      · simpa [links, rbIsRed, rbColor, setFields_node, hk] using hred
      · simp [links, rbIsRed, rbColor, setFields_node, hk]
  rcases link with _ | ⟨d, k⟩
  · exact congrArg (fun t => t.setRoot (some n)) hleaf
  · refine (links_setChild rb).trans ?_
    rw [hleaf]
    rfl

theorem rbParent_rbSetParent : (m.rbSetParent n p).rbParent n = p := by
  rw [rbParent, rbSetParent, setParentColor, setFields_node, if_pos rfl]
  exact NodePtr.ofWord_pack _ p

theorem links_setParentOf : (m.setParentOf c p).links rb = (m.links rb).reparent c p := by
  rcases c with _ | c
  · rfl
  · exact links_rbSetParent rb

theorem links_relink :
    (m.relink d p n c).links rb = (m.links rb).replaceChild d p n c := by
  rcases p with _ | k
  · rfl
  · simp only [relink, TreeLinks.replaceChild]
    have hsame : (m.links rb).child d k = m.child d k := rfl
    rw [hsame]
    split
    · exact links_setChild rb
    · exact links_setChild rb

/-- A rotation succeeds if there is a child to be lifted, and is a rotation of the links. -/
theorem rotate_links {up : NodePtr} (h : m.child d.other n = some up) :
    ∃ m', m.rotate d n = .ok m' ∧ m'.links rb = (m.links rb).rotate d n up := by
  have hset : (m.setChild d.other n (m.child d up)).child d.other n = m.child d up := by
    have hlinks := congrArg (fun t => t.child d.other n)
      (links_setChild rb (m := m) (d := d.other) (n := n) (c := m.child d up))
    exact hlinks.trans (by simp)
  have hrun : m.rotate d n = .ok ((((((m.setChild d.other n (m.child d up)).setParentOf (m.child d up)
      (some n)).setChild d up (some n)).rbSetParent up (m.rbParent n)).relink d (m.rbParent n) n
      (some up)).rbSetParent n (some up)) := by
    simp only [rotate, h, deref, ok_bind, hset]
  refine ⟨_, hrun, ?_⟩
  simp only [links_rbSetParent, links_relink, links_setChild, links_setParentOf]
  rfl

section Tree

open SearchTree RedBlack
open TreeLinks (names rootName headName pathNames headLink rootName_node hangs_build)

variable {rb} {x y : RbNode ε} {t u v l r : RbTree ε} {fs : List (Frame (RbNode ε))}
  {F : TreeLinks.Footprint NodePtr (RbNode ε)}

theorem Place.rbIsRed (h : m.Place rb F fs (.node x l r)) :
    m.rbIsRed (rb.nameOf x) = Painted.isRed x := by
  obtain ⟨hlabel, _⟩ := h.shape.hangs
  have hcolor := congrArg RbNode.color hlabel
  simp only [links] at hcolor
  change _ = (x.color == RbColor.red)
  rw [← hcolor]
  cases m.rbIsRed (rb.nameOf x) <;> rfl

theorem Place.nullOrBlack (h : m.Place rb F fs t) :
    m.nullOrBlack (rootName rb.nameOf t) = !rootRed t := by
  cases t with
  | nil => rfl
  | node x l r =>
    simp only [rootName_node, RbMemory.nullOrBlack, rbIsBlack, rootRed_node]
    rw [Place.rbIsRed h]

theorem Place.rbParent (h : m.Place rb F fs (.node x l r)) :
    m.rbParent (rb.nameOf x) = headName rb.nameOf fs := h.shape.hangs.2.1

theorem Place.rbParent_ne (h : m.Place rb F fs (.node x l r)) :
    m.rbParent (rb.nameOf x) ≠ some (rb.nameOf x) := by
  rw [Place.rbParent h]
  intro hhead
  exact (List.nodup_append.mp h.shape.nodup).2.2 _ (by simp) _ (TreeLinks.headName_mem hhead) rfl

theorem Place.child (h : m.Place rb F fs (build d x t u)) :
    m.child d (rb.nameOf x) = rootName rb.nameOf t ∧
      m.child d.other (rb.nameOf x) = rootName rb.nameOf u := by
  obtain ⟨_, _, ht, hu, _, _⟩ := hangs_build.mp h.shape.hangs
  exact ⟨ht, hu⟩

/-- A store of a colour repaints the node. -/
theorem Place.paint (b : Bool) (h : m.Place rb F fs t) (hn : rootName rb.nameOf t = some n)
    (hm : m'.links rb =
      (m.links rb).setLabel n ⟨rb.containerOf n, if b then .red else .black⟩) :
    m'.Place rb F fs (paintRoot b t) := by
  cases t with
  | nil => cases hn
  | node x l r =>
    cases hn
    rw [rb.containerOf_nameOf] at hm
    rw [RbMemory.Place, hm]
    exact TreeLinks.Place.setLabel (y := Painted.paint b x) h rfl

theorem Place.rbSetBlack (h : m.Place rb F fs t) (hn : rootName rb.nameOf t = some n) :
    (m.rbSetBlack n).Place rb F fs (paintRoot false t) :=
  h.paint false hn (links_rbSetBlack rb)

theorem Place.rbSetRed (h : m.Place rb F fs t) (hn : rootName rb.nameOf t = some n) :
    (m.rbSetRed n).Place rb F fs (paintRoot true t) :=
  h.paint true hn (links_rbSetRed rb)

theorem Place.rbSetColor {b : Bool} (h : m.Place rb F fs t) (hn : rootName rb.nameOf t = some n)
    (hk : m.rbIsRed k = b) : (m.rbSetColor n (m.rbColor k)).Place rb F fs (paintRoot b t) := by
  apply h.paint b hn
  rw [links_rbSetColor, ← hk]
  rfl

/-- A node of the footprint that is not in the tree becomes a leaf of it. -/
theorem Place.rbLinkNode {e : ε} (h : m.Place rb F fs .nil) (hF : rb.rbNode e ∈ F.nodes)
    (he : rb.rbNode e ∉ pathNames rb.nameOf fs) :
    (m.rbLinkNode (rb.rbNode e) (headName rb.nameOf fs) (headLink rb.nameOf fs)).Place rb F fs
      (.node ⟨e, .red⟩ .nil .nil) := by
  rw [RbMemory.Place, links_rbLinkNode, rb.containerOf_rbNode]
  exact TreeLinks.Place.linkLeaf (x := (⟨e, .red⟩ : RbNode ε)) h hF he

/-- `RB_CLEAR_NODE` of a node that is not in the tree. -/
theorem Place.rbClearNode (h : m.Place rb F fs t) (hF : n ∈ F.nodes)
    (hn : n ∉ names rb.nameOf t ++ pathNames rb.nameOf fs) : (m.rbClearNode n).Place rb F fs t := by
  rw [RbMemory.Place, RbMemory.rbClearNode, links_rbSetParent]
  exact TreeLinks.Place.setParent_of_notMem h hF hn

theorem Place.rotate (h : m.Place rb F fs (build d x t (build d y u v))) :
    ∃ m', m.rotate d (rb.nameOf x) = .ok m' ∧
      m'.Place rb F fs (build d y (build d x t u) v) := by
  obtain ⟨m', hrun, hlinks⟩ := rotate_links rb (Place.child h).2
  refine ⟨m', hrun, ?_⟩
  rw [RbMemory.Place, hlinks]
  exact TreeLinks.Place.rotate h

end Tree

end RbMemory

end Atrace.Signal

import Atrace.Lib.AugmentedTree
import Atrace.Signal.RbOperations

/-! `rb_augment_insert` and `rb_augment_erase_*`: data of the subtrees, kept at their top nodes. -/
namespace Atrace.Signal

open Atrace.Lib Atrace.Lib.TreePath Atrace.Lib.RedBlack Atrace.Lib.AugmentedTree
open Atrace.Lib.TreeLinks (names rootName headName headLink pathNames)

/-- `rb_augment_f`, with the data that the nodes hold besides their links. -/
abbrev RbAugmentF (δ : Type*) := RbMemory → NodePtr → (NodePtr → δ) → NodePtr → δ

namespace RbMemory

variable {δ : Type*} (func : RbAugmentF δ) (m : RbMemory) (data : NodePtr → δ)

/-- `func` on a pointer that was compared to NULL. -/
def augmentLink (data : NodePtr → δ) : Option NodePtr → NodePtr → δ
  | none => data
  | some n => func m n data

def rbAugmentPath (data : NodePtr → δ) (node : NodePtr) : Nat → Except RbFault (NodePtr → δ)
  | 0 => .error .outOfFuel
  | fuel + 1 =>
    let data := func m node data
    match m.rbParent node with
    | none => .ok data
    | some parent =>
      let data :=
        if m.rbLeft parent = some node ∧ m.rbRight parent ≠ none then
          m.augmentLink func data (m.rbRight parent)
        else m.augmentLink func data (m.rbLeft parent)
      rbAugmentPath data parent fuel

def rbAugmentInsert (node : NodePtr) (fuel : Nat) : Except RbFault (NodePtr → δ) :=
  match m.rbLeft node with
  | some left => m.rbAugmentPath func data left fuel
  | none =>
    match m.rbRight node with
    | some right => m.rbAugmentPath func data right fuel
    | none => m.rbAugmentPath func data node fuel

/-- The deepest node on the way of the repair that is still there after the removal of `node`. -/
def rbAugmentEraseBegin (node : NodePtr) (fuel : Nat) : Except RbFault (Option NodePtr) :=
  match m.rbLeft node, m.rbRight node with
  | none, none => .ok (m.rbParent node)
  | left, none => .ok left
  | none, right => .ok right
  | some _, some _ => do
    let deepest ← deref (← m.rbNext node fuel)
    match m.rbRight deepest with
    | some right => .ok (some right)
    | none =>
      if m.rbParent deepest ≠ some node then .ok (m.rbParent deepest) else .ok (some deepest)

def rbAugmentEraseEnd (node : Option NodePtr) (fuel : Nat) : Except RbFault (NodePtr → δ) :=
  match node with
  | none => .ok data
  | some node => m.rbAugmentPath func data node fuel

/-- A callback that computes the datum of a node from those of its children. -/
def recompute (val : NodePtr → Option δ → Option δ → δ) : RbAugmentF δ :=
  fun m n data => Function.update data n (val n ((m.rbLeft n).map data) ((m.rbRight n).map data))

variable {ε : Type*} {rb : RbMember ε} {m : RbMemory} {data : NodePtr → δ} {n : NodePtr} {fuel k : Nat}
  {x : RbNode ε} {t u l r : RbTree ε} {f : Frame (RbNode ε)} {fs : List (Frame (RbNode ε))}
  {F : TreeLinks.Footprint NodePtr (RbNode ε)} {val : NodePtr → Option δ → Option δ → δ}

theorem rootDatum_map (t : RbTree ε) :
    (rootName rb.nameOf t).map data = rootDatum data (t.map rb.nameOf) := by
  cases t <;> rfl

/-- The callback computes the datum of the top node of a subtree anew. -/
theorem augmentLink_place (h : m.Place rb F fs t) :
    m.augmentLink (recompute val) data (rootName rb.nameOf t) =
      refreshRoot val data (t.map rb.nameOf) := by
  cases t with
  | nil => rfl
  | node x l r =>
    obtain ⟨_, _, hxl, hxr, _, _⟩ := h.shape.hangs
    have hl : m.rbLeft (rb.nameOf x) = rootName rb.nameOf l := hxl
    have hr : m.rbRight (rb.nameOf x) = rootName rb.nameOf r := hxr
    simp only [TreeLinks.rootName_node, augmentLink, recompute, hl, hr, rootDatum_map]
    rfl

theorem recompute_place (h : m.Place rb F fs t) (hn : rootName rb.nameOf t = some n) :
    recompute val m n data = refreshRoot val data (t.map rb.nameOf) := by
  rw [← augmentLink_place h, hn]
  rfl

/-- The look at the other child of the parent; where there is none the child itself is looked at a
second time. -/
theorem augmentBeside_place (h : m.Place rb F (f :: fs) t) (hn : rootName rb.nameOf t = some n) :
    (if m.rbLeft (rb.nameOf f.node) = some n ∧ m.rbRight (rb.nameOf f.node) ≠ none then
      m.augmentLink (recompute val) (refreshRoot val data (t.map rb.nameOf))
        (m.rbRight (rb.nameOf f.node))
    else m.augmentLink (recompute val) (refreshRoot val data (t.map rb.nameOf))
      (m.rbLeft (rb.nameOf f.node))) =
      refreshRoot val (refreshRoot val data (t.map rb.nameOf)) (f.sibling.map rb.nameOf) := by
  have hleft : m.rbLeft (rb.nameOf f.node) = some n ↔ .left = f.side :=
    TreeLinks.Shape.child_iff (e := .left) h.shape hn
  obtain ⟨hnear, hfar⟩ := Place.child h.up
  have hbeside : m.augmentLink (recompute val) (refreshRoot val data (t.map rb.nameOf)) _ = _ :=
    augmentLink_place h.up.downOther
  rw [← hfar] at hbeside
  cases hside : f.side with
  | left =>
    rw [hside] at hleft hnear hbeside
    have hl : m.rbLeft (rb.nameOf f.node) = some n := hleft.mpr rfl
    by_cases hr : m.rbRight (rb.nameOf f.node) = none
    · have hnodup : (SearchTree.inorder (t.map rb.nameOf)).Nodup := by
        rw [inorder_map]
        exact (List.nodup_append.mp h.shape.nodup).1
      have hagain : m.augmentLink (recompute val) (refreshRoot val data (t.map rb.nameOf)) (some n) =
          refreshRoot val data (t.map rb.nameOf) := by
        rw [← hn, augmentLink_place h, refreshRoot_again hnodup]
      have hnil : f.sibling = .nil := by
        have hroot : rootName rb.nameOf f.sibling = none := by
          rw [← hfar, hside]
          exact hr
        cases hsib : f.sibling with
        | nil => rfl
        | node y a b => simp [hsib] at hroot
      rw [if_neg (by simp [hr]), hl, hagain, hnil]
      rfl
    · rw [if_pos ⟨hl, hr⟩]
      exact hbeside
  | right =>
    rw [hside] at hleft hbeside
    rw [if_neg (by simp [hleft])]
    exact hbeside

/-- The walk up from the top node of a subtree. -/
theorem rbAugmentPath_place (h : m.Place rb F fs t) (hn : rootName rb.nameOf t = some n)
    (hfuel : fs.length < fuel) :
    m.rbAugmentPath (recompute val) data n fuel =
      .ok (refresh val data (t.map rb.nameOf) (fs.map (Frame.map rb.nameOf))) := by
  induction fs generalizing t n fuel data with
  | nil =>
    obtain ⟨fuel, rfl⟩ := Nat.exists_eq_succ_of_ne_zero (Nat.ne_of_gt hfuel)
    have hparent : m.rbParent n = none := h.shape.hangs.parent_root hn
    simp only [rbAugmentPath, hparent, recompute_place h hn]
    rfl
  | cons f fs ih =>
    obtain ⟨fuel, rfl⟩ := Nat.exists_eq_succ_of_ne_zero (Nat.ne_of_gt (Nat.zero_lt_of_lt hfuel))
    simp only [List.length_cons] at hfuel
    have hparent : m.rbParent n = some (rb.nameOf f.node) := h.shape.hangs.parent_root hn
    simp only [rbAugmentPath, hparent, recompute_place h hn, augmentBeside_place h hn]
    rw [ih h.up rfl (by omega), map_build]
    rfl

theorem rootName_map (t : RbTree ε) :
    TreeLinks.rootName id (t.map rb.nameOf) = rootName rb.nameOf t := by
  cases t <;> rfl

/-- A place in the tree of names, with the memory seen from there. -/
theorem Represents.place_of_map {gs : List (Frame NodePtr)} {w : BinaryTree NodePtr}
    (h : m.Represents rb u) (hu : u.map rb.nameOf = plug gs w) :
    ∃ fs t, u = plug fs t ∧ fs.map (Frame.map rb.nameOf) = gs ∧ t.map rb.nameOf = w ∧
      m.Place rb ⟨m.links rb, Set.univ⟩ fs t := by
  obtain ⟨fs, t, rfl, hfs, ht⟩ := exists_plug_of_map hu
  exact ⟨fs, t, rfl, hfs, ht,
    TreeLinks.Place.plug_iff.mp (TreeLinks.Place.of_shape h fun _ _ => trivial)⟩

/-- The update sets the data right if all that is stale lies on its way or right beside it. -/
theorem rbAugmentPath_augmented {gs : List (Frame NodePtr)} {w : BinaryTree NodePtr}
    (h : m.Represents rb u) (hu : u.map rb.nameOf = plug gs w)
    (hn : TreeLinks.rootName id w = some n) (hw : Below val data w)
    (hgs : ∀ f ∈ gs, Below val data f.sibling) (hfuel : u.height ≤ fuel) :
    ∃ data', m.rbAugmentPath (recompute val) data n fuel = .ok data' ∧
      Augmented val data' (u.map rb.nameOf) ∧ ∀ a ∉ names rb.nameOf u, data' a = data a := by
  obtain ⟨fs, t, rfl, rfl, rfl, hplace⟩ := h.place_of_map hu
  have hpath := length_add_height_le.trans hfuel
  have hlength : fs.length < fuel := by
    cases t with
    | nil => cases hn
    | node x l r =>
      simp only [BinaryTree.height] at hpath
      omega
  have hnodup : (SearchTree.inorder (plug (fs.map (Frame.map rb.nameOf)) (t.map rb.nameOf))).Nodup := by
    rw [← map_plug, inorder_map]
    exact (List.nodup_append.mp h.nodup).1
  refine ⟨_, rbAugmentPath_place hplace ((rootName_map t).symm.trans hn) hlength, ?_, ?_⟩
  · rw [map_plug]
    exact refresh_augmented hnodup hw hgs
  · intro a ha
    refine refresh_other ?_
    rwa [← map_plug, inorder_map]

/-- `rb_augment_insert` starts at the node or at a child of it. -/
theorem rbAugmentInsert_augmented {gs : List (Frame NodePtr)} {w : BinaryTree NodePtr}
    (h : m.Represents rb u) (hu : u.map rb.nameOf = plug gs w) (hw : Below val data w)
    (hgs : ∀ f ∈ gs, Below val data f.sibling) (hstart : StartsAt n w gs) (hfuel : u.height ≤ fuel) :
    ∃ data', m.rbAugmentInsert (recompute val) data n fuel = .ok data' ∧
      Augmented val data' (u.map rb.nameOf) ∧ ∀ a ∉ names rb.nameOf u, data' a = data a := by
  rcases hstart with rfl | ⟨v, rest, rfl, hne⟩
  · obtain ⟨fs, t, hfs, _, ht, hplace⟩ := h.place_of_map hu
    obtain ⟨x, l, r, rfl, rfl, hl, hr⟩ := exists_build_of_map (d := .left) ht
    have hchild := Place.child hplace
    rw [← rootName_map l, ← rootName_map r, hl, hr] at hchild
    have hleft : m.rbLeft (rb.nameOf x) = none := hchild.1
    have hright : m.rbRight (rb.nameOf x) = none := hchild.2
    simp only [rbAugmentInsert, hleft, hright]
    exact rbAugmentPath_augmented h hu rfl hw hgs hfuel
  · obtain ⟨b, hb⟩ : ∃ b, TreeLinks.rootName id w = some b := by
      cases w with
      | nil => exact absurd rfl hne
      | node b l r => exact ⟨b, rfl⟩
    have hup : u.map rb.nameOf = plug rest (build .left n w v) := hu
    obtain ⟨fs, t, _, _, ht, hplace⟩ := h.place_of_map hup
    obtain ⟨x, l, r, rfl, rfl, hl, hr⟩ := exists_build_of_map ht
    have hleft : m.rbLeft (rb.nameOf x) = some b := by
      rw [← hb, ← hl, rootName_map]
      exact (Place.child hplace).1
    simp only [rbAugmentInsert, hleft]
    exact rbAugmentPath_augmented h hu hb hw hgs hfuel

theorem nameOf_paint (c : Bool) (x : RbNode ε) : rb.nameOf (Painted.paint c x) = rb.nameOf x := rfl

theorem numNodes_eq (rb : RbMember ε) (t : RbTree ε) : t.numNodes = (names rb.nameOf t).length := by
  rw [names, List.length_map, SearchTree.length_inorder]

/-- A node is linked into any empty link of a tree whose data are right, the tree is balanced, and
`rb_augment_insert` sets the data right again, those of other nodes left alone. -/
theorem rbAugmentInsert_right (fs : List (Frame (RbNode ε))) (e : ε) (fuel : Nat)
    (val : NodePtr → Option δ → Option δ → δ) (data : NodePtr → δ)
    (h : m.Represents rb (plug fs .nil)) (hbal : Balanced false k (plug fs .nil))
    (he : rb.rbNode e ∉ names rb.nameOf (plug fs .nil))
    (hdata : Augmented val data ((plug fs .nil).map rb.nameOf))
    (hfuel : 2 * Nat.log 2 (BinaryTree.numNodes (plug fs .nil) + 2) < fuel) :
    ∃ m' u data', (m.rbLinkNode (rb.rbNode e) (headName rb.nameOf fs)
        (headLink rb.nameOf fs)).rbInsertColor (rb.rbNode e) fuel = .ok m' ∧
      m'.Represents rb u ∧ (∃ k, Balanced false k u) ∧
      names rb.nameOf u = (before fs).map rb.nameOf ++ rb.rbNode e :: (after fs).map rb.nameOf ∧
      m'.rbAugmentInsert (recompute val) data (rb.rbNode e) fuel = .ok data' ∧
      Augmented val data' (u.map rb.nameOf) ∧ ∀ a ∉ names rb.nameOf u, data' a = data a := by
  have hlog : Nat.log 2 (BinaryTree.numNodes (plug fs .nil) + 1) ≤
      Nat.log 2 (BinaryTree.numNodes (plug fs .nil) + 2) := Nat.log_mono_right (Nat.le_succ _)
  obtain ⟨m', u, hins, hrun, hm', ⟨j, hj⟩, hnames, _⟩ :=
    rbInsertColor_tree fs e fuel h hbal he (by omega)
  rw [map_plug] at hdata
  obtain ⟨gs, w, hu, hw, hgs, hstart⟩ :=
    insertColor_below nameOf_paint hins (augmented_plug hdata).2
  have hcount : u.numNodes = BinaryTree.numNodes (plug fs .nil) + 1 := by
    rw [numNodes_eq rb u, numNodes_eq rb, hnames, names, inorder_plug]
    simp [SearchTree.inorder]
    omega
  have hheight : u.height ≤ fuel := by
    have hle := hj.height_le_log
    rw [hcount, show ∀ n, n + 1 + 1 = n + 2 from fun _ => rfl] at hle
    omega
  obtain ⟨data', haug, hright, hother⟩ := rbAugmentInsert_augmented hm' hu hw hgs hstart hheight
  exact ⟨m', u, data', hrun, hm', ⟨j, hj⟩, hnames, haug, hright, hother⟩

/-- The number of nodes of the subtree, as a datum of its top node. -/
def subtreeSize (_ : NodePtr) (l r : Option Nat) : Nat := l.getD 0 + 1 + r.getD 0

def smallSizes (n : NodePtr) : Nat := if n.addr = 0x200 then 2 else 1

theorem augmented_smallSizes :
    Augmented subtreeSize smallSizes (smallTree.map threeEntries.nameOf) :=
  ⟨rfl, ⟨rfl, trivial, trivial⟩, trivial⟩

theorem rbAugmentInsert_right_third : ∃ (m' : RbMemory) (u : RbTree (Fin 3)) (data' : NodePtr → Nat),
    m'.Represents threeEntries u ∧
    names threeEntries.nameOf u =
      [threeEntries.rbNode 0, threeEntries.rbNode 1, threeEntries.rbNode 2] ∧
    m'.rbAugmentInsert (recompute subtreeSize) smallSizes (threeEntries.rbNode 2) 5 = .ok data' ∧
    Augmented subtreeSize data' (u.map threeEntries.nameOf) := by
  obtain ⟨m', u, data', _, hm', _, hnames, hrun, hright, _⟩ := rbAugmentInsert_right
    [⟨.right, ⟨1, .black⟩, .node ⟨0, .red⟩ .nil .nil⟩] 2 5 subtreeSize smallSizes
    smallMemory_represents smallTree_balanced (by decide) augmented_smallSizes (by decide)
  exact ⟨m', u, data', hm', hnames, hrun, hright⟩

/-- What `rb_augment_erase_begin` answers, in terms of the node that is spliced out. -/
theorem rbAugmentEraseBegin_place (h : m.Place rb F fs (.node x l r))
    (hdata : Augmented val data ((plug fs (.node x l r)).map rb.nameOf))
    (hfuel : (plug fs (.node x l r)).height ≤ fuel) :
    ∃ s c ks, eraseAt x fs l r = splice s c ks ∧
      m.rbAugmentEraseBegin (rb.nameOf x) fuel =
        .ok ((rootName rb.nameOf c).or (headName rb.nameOf ks)) ∧
      Augmented val data (c.map rb.nameOf) ∧ Fresh val data (ks.map (Frame.map rb.nameOf)) := by
  obtain ⟨_, hparent, hxl, hxr, _, _⟩ := h.shape.hangs
  have hp : m.rbParent (rb.nameOf x) = headName rb.nameOf fs := hparent
  have hl : m.rbLeft (rb.nameOf x) = rootName rb.nameOf l := hxl
  have hr : m.rbRight (rb.nameOf x) = rootName rb.nameOf r := hxr
  rw [map_plug] at hdata
  obtain ⟨⟨_, hdl, hdr⟩, hdfs⟩ := augmented_plug hdata
  cases l with
  | nil =>
    refine ⟨x, r, fs, rfl, ?_, hdr, hdfs⟩
    cases r with
    | nil => simp [rbAugmentEraseBegin, hl, hr, hp]
    | node y a b => simp [rbAugmentEraseBegin, hl, hr]
  | node z p q =>
    cases r with
    | nil =>
      refine ⟨x, .node z p q, fs, rfl, ?_, hdl, hdfs⟩
      simp [rbAugmentEraseBegin, hl, hr]
    | node y a b =>
      obtain ⟨s, c, gs, hz⟩ : ∃ s c gs, leftmost y b a [] = (s, c, gs) := ⟨_, _, _, rfl⟩
      have hplug : plug gs (.node s .nil c) = .node y a b := by
        have hwalk : plug (leftmost y b a []).2.2 _ = plug [] (.node y a b) := leftmost_plug
        rwa [hz] at hwalk
      have hnext : m.rbNext (rb.nameOf x) fuel = .ok (some (rb.nameOf s)) := by
        have hhead : (SearchTree.inorder (.node y a b)).head? = some (leftmost y b a []).1 :=
          leftmost_head
        rw [hz] at hhead
        rw [rbNext, neighbour_place h hfuel]
        simp [Side.pick, List.head?_append, hhead]
      have hdeep : m.Place rb F (gs ++ ⟨.right, x, .node z p q⟩ :: fs) (.node s .nil c) := by
        apply TreeLinks.Place.plug_iff.mp
        rw [plug_append, plug_cons, hplug]
        exact TreeLinks.Place.plug_iff.mpr h
      have hsr : m.rbRight (rb.nameOf s) = rootName rb.nameOf c := hdeep.shape.hangs.2.2.2.1
      have hsp := Place.rbParent hdeep
      have hdgs : Augmented val data (c.map rb.nameOf) ∧
          Fresh val data (gs.map (Frame.map rb.nameOf)) := by
        have hsub : Augmented val data ((plug gs (.node s .nil c)).map rb.nameOf) := hplug ▸ hdr
        rw [map_plug] at hsub
        obtain ⟨⟨_, _, hc⟩, hgs⟩ := augmented_plug hsub
        exact ⟨hc, hgs⟩
      refine ⟨s, c, gs ++ ⟨.right, Painted.paint (Painted.isRed x) s, .node z p q⟩ :: fs, ?_, ?_,
        hdgs.1, ?_⟩
      · simp only [eraseAt, hz]
      · simp only [rbAugmentEraseBegin, hl, hr, TreeLinks.rootName_node, hnext, ok_bind, deref, hsr]
        cases c with
        | node w u v => rfl
        | nil =>
          simp only [TreeLinks.rootName_nil, hsp]
          cases gs with
          | nil => simp
          | cons f gs =>
            have hne : rb.nameOf f.node ≠ rb.nameOf x := by
              intro he
              have hmem : rb.nameOf x ∈ names rb.nameOf (.node y a b) := by
                rw [← hplug, TreeLinks.mem_names_plug]
                simp [pathNames, ← he]
              have hnodup := (List.nodup_append.mp h.shape.nodup).1
              rw [TreeLinks.names_node, List.nodup_append] at hnodup
              exact (List.nodup_cons.mp hnodup.2.1).1 hmem
            simp [hne]
      · rw [List.map_append, fresh_append]
        exact ⟨hdgs.2, fresh_cons.mpr ⟨hdl, hdfs⟩⟩

/-- A node is erased from a tree whose data are right, the tree is balanced, and from the node that
`rb_augment_erase_begin` found before, `rb_augment_erase_end` sets the data right again. -/
theorem rbAugmentErase_right (pre post : List NodePtr) (fuel : Nat)
    (val : NodePtr → Option δ → Option δ → δ) (data : NodePtr → δ) (h : m.Represents rb t)
    (hbal : Balanced false k t) (hn : names rb.nameOf t = pre ++ n :: post)
    (hdata : Augmented val data (t.map rb.nameOf)) (hfuel : 2 * Nat.log 2 (t.numNodes + 1) ≤ fuel) :
    ∃ deepest m' u data', m.rbAugmentEraseBegin n fuel = .ok deepest ∧
      m.rbErase n fuel = .ok m' ∧ m'.Represents rb u ∧ (∃ k, Balanced false k u) ∧
      names rb.nameOf u = pre ++ post ∧
      m'.rbAugmentEraseEnd (recompute val) data deepest fuel = .ok data' ∧
      Augmented val data' (u.map rb.nameOf) ∧ ∀ a ∉ names rb.nameOf u, data' a = data a := by
  obtain ⟨fs, x, l, r, rfl, rfl, rfl, rfl⟩ := TreeLinks.exists_plug_of_names hn
  obtain ⟨m', u, herase, hrun, hm', ⟨j, hj⟩, hnames, _⟩ := rbErase_tree fuel h hbal hfuel
  have hplace : m.Place rb ⟨m.links rb, Set.univ⟩ fs (.node x l r) :=
    TreeLinks.Place.plug_iff.mp (TreeLinks.Place.of_shape h fun _ _ => trivial)
  obtain ⟨s, c, ks, hsplice, hbegin, hc, hks⟩ :=
    rbAugmentEraseBegin_place hplace hdata (hbal.height_le_log.trans hfuel)
  rw [hsplice] at herase
  obtain ⟨gs, hu, hhead, hloose⟩ := splice_loose nameOf_paint herase hks
  have hheight : u.height ≤ fuel := by
    have hcount : u.numNodes + 1 ≤ (plug fs (.node x l r)).numNodes + 1 := by
      rw [numNodes_eq rb u, numNodes_eq rb (plug fs (.node x l r)), hnames, hn]
      simp
    exact (hj.height_le_log.trans (Nat.mul_le_mul_left 2 (Nat.log_mono_right hcount))).trans hfuel
  suffices hend : ∃ data', m'.rbAugmentEraseEnd (recompute val) data
      ((rootName rb.nameOf c).or (headName rb.nameOf ks)) fuel = .ok data' ∧
      Augmented val data' (u.map rb.nameOf) ∧ ∀ a ∉ names rb.nameOf u, data' a = data a by
    obtain ⟨data', hend⟩ := hend
    exact ⟨_, m', u, data', hbegin, hrun, hm', ⟨j, hj⟩, hnames, hend⟩
  cases c with
  | node y a b =>
    exact rbAugmentPath_augmented hm' hu rfl hc.below hloose.below hheight
  | nil =>
    cases ks with
    | nil =>
      cases gs with
      | cons f gs => cases hhead
      | nil =>
        refine ⟨data, rfl, ?_, fun _ _ => rfl⟩
        rw [hu]
        exact trivial
    | cons f ks =>
      cases gs with
      | nil => cases hhead
      | cons f' gs =>
        have hname : f'.node = rb.nameOf f.node := Option.some.inj hhead
        have hw : Below val data (build f'.side f'.node .nil f'.sibling) :=
          below_build.mpr ⟨trivial, hloose.head f' gs rfl⟩
        have hup : u.map rb.nameOf = plug gs (build f'.side f'.node .nil f'.sibling) := hu
        refine rbAugmentPath_augmented hm' hup ?_ hw
          (fun k hk => hloose.below k (List.mem_cons_of_mem f' hk)) hheight
        rw [TreeLinks.rootName_build, hname]
        rfl

theorem rbAugmentErase_right_top : ∃ (deepest : Option NodePtr) (m' : RbMemory)
    (u : RbTree (Fin 3)) (data' : NodePtr → Nat),
    smallMemory.rbAugmentEraseBegin (threeEntries.rbNode 1) 2 = .ok deepest ∧
    smallMemory.rbErase (threeEntries.rbNode 1) 2 = .ok m' ∧
    names threeEntries.nameOf u = [threeEntries.rbNode 0] ∧
    m'.rbAugmentEraseEnd (recompute subtreeSize) smallSizes deepest 2 = .ok data' ∧
    Augmented subtreeSize data' (u.map threeEntries.nameOf) := by
  obtain ⟨deepest, m', u, data', hbegin, hrun, _, _, hnames, hend, hright, _⟩ :=
    rbAugmentErase_right [threeEntries.rbNode 0] [] 2 subtreeSize smallSizes
      smallMemory_represents smallTree_balanced rfl augmented_smallSizes (by decide)
  exact ⟨deepest, m', u, data', hbegin, hrun, hnames, hend, hright⟩

end RbMemory

end Atrace.Signal

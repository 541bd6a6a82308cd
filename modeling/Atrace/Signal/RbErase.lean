import Atrace.Signal.RbInsert

/-! `rb_erase` on the words in memory does what taking out and repairing do on the tree. -/
namespace Atrace.Signal

open Atrace.Lib Atrace.Lib.TreePath Atrace.Lib.RedBlack Painted
open Atrace.Lib.TreeLinks (rootName headName pathNames rootName_build)

namespace RbMemory

variable {ε : Type*} {rb : RbMember ε} {m m' : RbMemory} {d : Side} {n : NodePtr} {fuel : Nat}
  {x p q s : RbNode ε} {t u v w l r near far : RbTree ε} {f g : Frame (RbNode ε)}
  {fs : List (Frame (RbNode ε))}
  {F : TreeLinks.Footprint NodePtr (RbNode ε)}

/-- The colour of the parent goes to its child `s` with a red far child, and `s` is lifted. -/
theorem borrow_far (h : m.Place rb F fs (build d p t (build d s near far)))
    (hfar : rootRed far = true) :
    ∃ k m', ((m.rbSetColor (rb.nameOf s) (m.rbColor (rb.nameOf p))).rbSetBlack
        (rb.nameOf p)).child d.other (rb.nameOf s) = some k ∧
      (((m.rbSetColor (rb.nameOf s) (m.rbColor (rb.nameOf p))).rbSetBlack
        (rb.nameOf p)).rbSetBlack k).rotate d (rb.nameOf p) = .ok m' ∧
      m'.Place rb F fs (build d (paint (isRed p) s) (build d (paint false p) t near)
        (paintRoot false far)) := by
  have hp : m.rbIsRed (rb.nameOf p) = isRed p := Place.rbIsRed h
  have h₁ := (Place.rbSetColor h.downOther rfl hp).upOther
  have h₂ := Place.rbSetBlack h₁ rfl
  simp only [paintRoot_build] at h₂
  cases far with
  | nil => cases hfar
  | node k a b =>
    have hk := (Place.child h₂.downOther).2
    have h₃ := (Place.rbSetBlack h₂.downOther.downOther rfl).upOther.upOther
    obtain ⟨m', hrun, hm'⟩ := Place.rotate h₃
    exact ⟨rb.nameOf k, m', hk, hrun, hm'⟩

theorem nullOrBlack_child (h : m.Place rb F fs (build d s near far)) :
    m.nullOrBlack (m.child d (rb.nameOf s)) = !rootRed near ∧
      m.nullOrBlack (m.child d.other (rb.nameOf s)) = !rootRed far := by
  obtain ⟨hnear, hfar⟩ := Place.child h
  rw [hnear, hfar]
  exact ⟨Place.nullOrBlack h.down, Place.nullOrBlack h.downOther⟩

/-- The near child is lifted over the sibling `s` first, then over the parent. -/
theorem borrow_near {a b : RbTree ε}
    (h : m.Place rb F fs (build d p t (build d s (build d x a b) far))) :
    ∃ m', ((m.rbSetBlack (rb.nameOf x)).rbSetRed (rb.nameOf s)).rotate d.other (rb.nameOf s) =
        .ok m' ∧
      m'.child d.other (rb.nameOf p) = some (rb.nameOf x) ∧
      m'.Place rb F fs (build d p t
        (build d (paint false x) a (build d (paint true s) b far))) := by
  have h₁ := (Place.rbSetBlack h.downOther.down rfl).up
  have h₂ := Place.rbSetRed h₁ rfl
  rw [paintRoot_build, paintRoot_build, ← build_other,
    ← build_other (d := d) (x := paint false x)] at h₂
  obtain ⟨m', hrun, hplace⟩ := Place.rotate h₂
  rw [build_other, build_other] at hplace
  have hm' := hplace.upOther
  exact ⟨m', hrun, (Place.child hm').2, hm'⟩

/-- From a black sibling on, the turn does to the memory what the look at the sibling does. -/
theorem eraseColorBorrow_place {b : RbTree ε ⊕ RbTree ε}
    (h : m.Place rb F fs (build d p t (.node s l r))) (hb : borrow d p t (.node s l r) = some b) :
    ∃ m', m.eraseColorBorrow d (rb.nameOf p) (rb.nameOf s) = .ok (m', b.isLeft) ∧
      m'.Place rb F fs (b.elim id id) := by
  have hlr : m.nullOrBlack (m.rbLeft (rb.nameOf s)) = !rootRed l ∧
      m.nullOrBlack (m.rbRight (rb.nameOf s)) = !rootRed r :=
    nullOrBlack_child (d := .left) h.downOther
  have hboth : ((m.nullOrBlack (m.rbLeft (rb.nameOf s)) &&
      m.nullOrBlack (m.rbRight (rb.nameOf s))) = true) ↔ rootRed l = false ∧ rootRed r = false := by
    simp [hlr]
  simp only [borrow] at hb
  split at hb
  · rename_i hblack
    cases hb
    refine ⟨_, ?_, (Place.rbSetRed h.downOther rfl).upOther⟩
    simp [eraseColorBorrow, hboth, hblack]
  rename_i hblack
  rw [node_eq_build d] at h
  obtain ⟨_, hfar⟩ := nullOrBlack_child h.downOther
  split at hb
  · rename_i hred
    cases hb
    obtain ⟨k, m', hk, hrun, hm'⟩ := borrow_far h hred
    refine ⟨m', ?_, hm'⟩
    have hnot : ¬ m.nullOrBlack (m.child d.other (rb.nameOf s)) = true := by simp [hfar, hred]
    simp only [eraseColorBorrow, hboth, hblack, if_false, if_neg hnot, ok_bind, hk, deref, hrun]
    rfl
  · rename_i hfarBlack
    split at hb
    · cases hb
    · rename_i x a b hnear
      cases hb
      have hnull : m.nullOrBlack (m.child d.other (rb.nameOf s)) = true := by
        simpa [hfar] using hfarBlack
      have h₁ := h
      rw [hnear, node_eq_build d x] at h₁
      have hchild : m.child d (rb.nameOf s) = some (rb.nameOf x) := (Place.child h₁.downOther).1
      obtain ⟨m₁, hrun₁, hx, hm₁⟩ := borrow_near h₁
      obtain ⟨k, m', hk, hrun, hm'⟩ := borrow_far hm₁ (by simp)
      rw [paint_paint, paintRoot_build, paint_paint] at hm'
      refine ⟨m', ?_, hm'⟩
      simp only [RbMember.nameOf_paint] at hk hrun
      simp only [eraseColorBorrow, hboth, hblack, if_false, if_pos hnull, ok_bind, hchild, deref,
        hrun₁, hx, hk, hrun]
      rfl

theorem eraseColorTurn_black {b : RbTree ε ⊕ RbTree ε} (h : m.Place rb F (f :: fs) t)
    (hsib : f.sibling = .node s l r) (hs : isRed s = false)
    (hb : borrow f.side f.node t (.node s l r) = some b) :
    ∃ m', m.eraseColorTurn f.side (rb.nameOf f.node) = .ok (m', b.isLeft) ∧
      m'.Place rb F fs (b.elim id id) := by
  have hup : m.Place rb F fs (build f.side f.node t (.node s l r)) := hsib ▸ h.up
  have hchild : m.child f.side.other (rb.nameOf f.node) = some (rb.nameOf s) := (Place.child hup).2
  have hblack : m.rbIsRed (rb.nameOf s) = false := (Place.rbIsRed hup.downOther).trans hs
  obtain ⟨m', hrun, hm'⟩ := eraseColorBorrow_place hup hb
  refine ⟨m', ?_, hm'⟩
  simp only [eraseColorTurn, hchild, deref, ok_bind, hblack, Bool.false_eq_true, if_false, hrun]

/-- A red sibling is lifted first; its near child is the black sibling then. -/
theorem eraseColorTurn_red {b : RbTree ε ⊕ RbTree ε} (h : m.Place rb F (f :: fs) t)
    (hsib : f.sibling = .node s l r) (hs : isRed s = true)
    (hb : borrow f.side (paint true f.node) t (f.side.pick l r) = some b) :
    ∃ m', m.eraseColorTurn f.side (rb.nameOf f.node) = .ok (m', b.isLeft) ∧
      m'.Place rb F (⟨f.side, paint false s, f.side.pick r l⟩ :: fs) (b.elim id id) := by
  have hup : m.Place rb F fs (build f.side f.node t (.node s l r)) := hsib ▸ h.up
  have hchild : m.child f.side.other (rb.nameOf f.node) = some (rb.nameOf s) := (Place.child hup).2
  have hred : m.rbIsRed (rb.nameOf s) = true := (Place.rbIsRed hup.downOther).trans hs
  have h₁ := (Place.rbSetBlack hup.downOther rfl).upOther
  have h₂ := Place.rbSetRed h₁ rfl
  rw [paintRoot_node, node_eq_build f.side (paint false s), paintRoot_build] at h₂
  obtain ⟨m₁, hrun₁, hm₁⟩ := Place.rotate h₂
  have hdown := hm₁.down
  cases hnear : f.side.pick l r with
  | nil => simp [hnear, borrow] at hb
  | node y a c =>
    rw [hnear] at hb hdown
    have hchild₁ : m₁.child f.side.other (rb.nameOf f.node) = some (rb.nameOf y) :=
      (Place.child hdown).2
    obtain ⟨m', hrun, hm'⟩ := eraseColorBorrow_place hdown hb
    refine ⟨m', ?_, hm'⟩
    simp only [RbMember.nameOf_paint] at hrun hrun₁
    simp only [eraseColorTurn, hchild, deref, ok_bind, hred, if_true, hrun₁, hchild₁, hrun]

/-- The comparison with the left child tells the side also of a missing node. -/
theorem rbLeft_iff (h : m.Place rb F (f :: fs) t) (hsib : f.sibling ≠ .nil) :
    m.rbLeft (rb.nameOf f.node) = rootName rb.nameOf t ↔ .left = f.side := by
  cases t with
  | node x l r => exact TreeLinks.Shape.child_iff (e := .left) h.shape rfl
  | nil =>
    obtain ⟨hnear, hfar⟩ := Place.child h.up
    cases hside : f.side with
    | left =>
      rw [hside] at hnear
      exact iff_of_true hnear rfl
    | right =>
      rw [hside] at hfar
      have hleft : m.rbLeft (rb.nameOf f.node) = rootName rb.nameOf f.sibling := hfar
      cases hs : f.sibling with
      | nil => exact absurd hs hsib
      | node y a b => simp [hleft, hs]

/-- A turn of the loop on a black node below the root. -/
theorem eraseColorLoop_turn (h : m.Place rb F (f :: fs) t) (ht : rootRed t = false)
    (hsib : f.sibling ≠ .nil) :
    m.eraseColorLoop (rootName rb.nameOf t) (headName rb.nameOf (f :: fs)) (fuel + 1) =
      m.eraseColorTurn f.side (rb.nameOf f.node) >>= fun r =>
        if r.2 then r.1.eraseColorLoop (some (rb.nameOf f.node)) (r.1.rbParent (rb.nameOf f.node)) fuel
        else .ok (r.1, r.1.rbNode) := by
  have hcond : m.nullOrBlack (rootName rb.nameOf t) = true ∧ rootName rb.nameOf t ≠ m.rbNode :=
    ⟨by rw [Place.nullOrBlack h, ht]; rfl, TreeLinks.Shape.rootName_ne h.shape⟩
  have hhead : headName rb.nameOf (f :: fs) = some (rb.nameOf f.node) := rfl
  simp only [eraseColorLoop, if_pos hcond, hhead, deref, ok_bind, rbLeft_iff h hsib]
  cases f.side <;> rfl

/-- A red node ends the loop. -/
theorem eraseColorLoop_red (h : m.Place rb F fs t) (ht : rootRed t = true) (hfuel : 0 < fuel)
    (p : Option NodePtr) :
    m.eraseColorLoop (rootName rb.nameOf t) p fuel = .ok (m, rootName rb.nameOf t) := by
  obtain ⟨fuel, rfl⟩ := Nat.exists_eq_succ_of_ne_zero hfuel.ne'
  have hblack : m.nullOrBlack (rootName rb.nameOf t) = false := by
    rw [Place.nullOrBlack h, ht]
    rfl
  simp [eraseColorLoop, hblack]

theorem blacken_place (h : m.Place rb F fs t) :
    (m.blacken (rootName rb.nameOf t)).Place rb F fs (paintRoot false t) := by
  cases t with
  | nil => exact h
  | node x l r => exact Place.rbSetBlack h rfl

theorem borrow_inl (h : borrow d p t u = some (.inl v)) : ∃ w, v = build d p t w := by
  cases u with
  | nil => cases h
  | node s l r =>
    simp only [borrow] at h
    split at h
    · cases h
      exact ⟨_, rfl⟩
    · split at h
      · cases h
      · split at h <;> cases h

/-- What the loop leaves is the repaired tree, once its last node is painted black. -/
theorem eraseColorLoop_place (h : m.Place rb F fs t) (hfix : fixBlack t fs = some u)
    (hfuel : fs.length < fuel) :
    ∃ m' k, m.eraseColorLoop (rootName rb.nameOf t) (headName rb.nameOf fs) fuel = .ok (m', k) ∧
      (m'.blacken k).Place rb F [] u := by
  induction fs generalizing m t fuel with
  | nil =>
    obtain ⟨fuel, rfl⟩ := Nat.exists_eq_succ_of_ne_zero (Nat.ne_of_gt hfuel)
    cases hfix
    have hroot : rootName rb.nameOf t = m.rbNode := h.shape.around.symm
    refine ⟨m, rootName rb.nameOf t, ?_, blacken_place h⟩
    simp [eraseColorLoop, hroot]
  | cons f fs ih =>
    cases ht : rootRed t with
    | true =>
      rw [fixBlack_red ht] at hfix
      cases hfix
      exact ⟨m, _, eraseColorLoop_red h ht (by omega) _,
        TreeLinks.Place.plug_iff.mpr (blacken_place h)⟩
    | false =>
      obtain ⟨fuel, rfl⟩ := Nat.exists_eq_succ_of_ne_zero (Nat.ne_of_gt (Nat.zero_lt_of_lt hfuel))
      simp only [List.length_cons] at hfuel
      simp only [fixBlack, ht, Bool.false_eq_true, if_false] at hfix
      cases hsib : f.sibling with
      | nil => simp [hsib] at hfix
      | node s l r =>
        rw [hsib] at hfix
        rw [eraseColorLoop_turn h ht (by simp [hsib])]
        cases hs : isRed s with
        | true =>
          simp only [hs, if_true] at hfix
          split at hfix
          · cases hfix
          · rename_i v hb
            cases hfix
            obtain ⟨m', hrun, hm'⟩ := eraseColorTurn_red h hsib hs hb
            obtain ⟨w, rfl⟩ := borrow_inl hb
            refine ⟨m', _, ?_, TreeLinks.Place.plug_iff.mpr (blacken_place hm')⟩
            rw [hrun]
            exact eraseColorLoop_red hm' (isRed_paint true f.node) (by omega) _
          · rename_i v hb
            cases hfix
            obtain ⟨m', hrun, hm'⟩ := eraseColorTurn_red h hsib hs hb
            have hwhole := TreeLinks.Place.plug_iff.mpr hm'
            refine ⟨m', m'.rbNode, by rw [hrun]; rfl, ?_⟩
            rw [show m'.rbNode = _ from hwhole.shape.around]
            exact blacken_place hwhole
        | false =>
          simp only [hs, Bool.false_eq_true, if_false] at hfix
          split at hfix
          · cases hfix
          · rename_i v hb
            obtain ⟨m', hrun, hm'⟩ := eraseColorTurn_black h hsib hs hb
            obtain ⟨w, rfl⟩ := borrow_inl hb
            obtain ⟨m'', k, hloop, hm''⟩ := ih hm' hfix (show fs.length < fuel by omega)
            refine ⟨m'', k, ?_, hm''⟩
            rw [hrun]
            have hparent : m'.rbParent (rb.nameOf f.node) = headName rb.nameOf fs :=
              hm'.shape.hangs.parent_root rfl
            simpa [hparent] using hloop
          · rename_i v hb
            cases hfix
            obtain ⟨m', hrun, hm'⟩ := eraseColorTurn_black h hsib hs hb
            have hwhole := TreeLinks.Place.plug_iff.mpr hm'
            refine ⟨m', m'.rbNode, by rw [hrun]; rfl, ?_⟩
            rw [show m'.rbNode = _ from hwhole.shape.around]
            exact blacken_place hwhole

theorem rbEraseColor_place (h : m.Place rb F fs t) (hfix : fixBlack t fs = some u)
    (hfuel : fs.length < fuel) :
    ∃ m', m.rbEraseColor (rootName rb.nameOf t) (headName rb.nameOf fs) fuel = .ok m' ∧
      m'.Place rb F [] u := by
  obtain ⟨m', k, hrun, hm'⟩ := eraseColorLoop_place h hfix hfuel
  exact ⟨_, by simp only [rbEraseColor, hrun, ok_bind], hm'⟩

theorem rbColor_eq_black_iff : m.rbColor n = rbBlack ↔ m.rbIsRed n = false := by
  have hbit : (m.rbColor n).toNat = (m.node n).rbParentColor.toNat % 2 := by
    rw [rbColor, BitVec.toNat_and]
    exact Nat.and_one_is_mod _
  rw [rbIsRed, beq_eq_false_iff_ne, ne_eq, ← BitVec.toNat_inj, ← BitVec.toNat_inj, hbit]
  have hone : (rbBlack : Addr).toNat = 1 := rfl
  have hzero : (0 : Addr).toNat = 0 := rfl
  rw [hone, hzero]
  omega

/-- What `rb_erase` hands on after a node is off the tree, with a subtree short of it. -/
structure Unlinked.At (rb : RbMember ε) (z : Unlinked)
    (F : TreeLinks.Footprint NodePtr (RbNode ε)) (x : RbNode ε) (fs : List (Frame (RbNode ε))) (t : RbTree ε) : Prop where
  place : z.memory.Place rb F fs t
  child : z.child = rootName rb.nameOf t
  parent : z.parent = headName rb.nameOf fs
  color : z.color = rbBlack ↔ isRed x = false

theorem unlinkNode_at (h : m.Place rb F fs (build d x .nil u)) :
    (m.unlinkNode (rb.nameOf x) (rootName rb.nameOf u)).At rb F x fs u := by
  have hlinks : (m.unlinkNode (rb.nameOf x) (rootName rb.nameOf u)).memory.links rb =
      (m.links rb).splice (rb.nameOf x) (rootName rb.nameOf u) := by
    simp only [unlinkNode, links_relink, links_setParentOf]
    rfl
  refine ⟨?_, rfl, Place.rbParent h, ?_⟩
  · rw [RbMemory.Place, hlinks]
    exact TreeLinks.Place.splice h
  · rw [← Place.rbIsRed h, ← rbColor_eq_black_iff]
    rfl

/-- The word with the parent and the colour of `k`, stored at `n`. -/
theorem links_copyParentColor {k : NodePtr} :
    (m.setParentColor n (m.node k).rbParentColor).links rb =
      ((m.links rb).setParent n ((m.links rb).parent k)).setLabel n
        ⟨rb.containerOf n, ((m.links rb).label k).color⟩ := links_setParentColor rb

variable (rb) in
theorem rbIsRed_congr (h : (m'.links rb).label n = (m.links rb).label n) :
    m'.rbIsRed n = m.rbIsRed n := by
  have hcolor := congrArg RbNode.color h
  simp only [links] at hcolor
  revert hcolor
  cases m'.rbIsRed n <;> cases m.rbIsRed n <;> simp

variable (rb) in
theorem inheritPlace_links {a b left : NodePtr} (hba : b ≠ a) (hl : m.rbLeft a = some left) :
    ∃ m', m.inheritPlace a b = .ok m' ∧ m'.links rb =
      ((((m.links rb).setParent b ((m.links rb).parent a)).setLabel b
        ⟨rb.containerOf b, ((m.links rb).label a).color⟩).setChild .left b (some left)).setParent
        left (some b) := by
  have hab : a ≠ b := fun he => hba he.symm
  have hl₁ : (m.setParentColor b (m.node a).rbParentColor).rbLeft a = some left := by
    simpa [rbLeft, setParentColor, setFields_node, hab] using hl
  have hl₂ : ((m.setParentColor b (m.node a).rbParentColor).setLeft b (some left)).rbLeft a =
      some left := by
    simpa [rbLeft, setLeft, setFields_node, hab] using hl₁
  have hrun : m.inheritPlace a b = .ok (((m.setParentColor b (m.node a).rbParentColor).setLeft b
      (some left)).rbSetParent left (some b)) := by
    simp only [inheritPlace, hl₁, hl₂, deref, ok_bind]
  refine ⟨_, hrun, ?_⟩
  rw [links_rbSetParent, ← links_copyParentColor]
  exact congrArg (·.setParent left (some b)) (links_setChild rb (d := .left))

variable (rb) in
/-- The stores of `rb_erase` for a node with two children, in terms of the links. -/
theorem unlinkSuccessor_links {a b q right left : NodePtr}
    (hend : m.sideEnd .left right fuel = .ok b) (hba : b ≠ a)
    (hpa : m.rbParent a ≠ some a) (hpb : m.rbParent a ≠ some b)
    (hl : m.rbLeft a = some left) (hr : m.rbRight a = some right) (hra : right ≠ a)
    (hq : m.rbParent b = some q) (hc : m.rbRight b ≠ some a) :
    ∃ z, m.unlinkSuccessor a right fuel = .ok z ∧
      z.memory.links rb = (m.links rb).takePlace a b
        ⟨rb.containerOf b, ((m.links rb).label a).color⟩ ∧
      z.child = m.rbRight b ∧ z.parent = (if q = a then some b else some q) ∧
      (z.color = rbBlack ↔ m.rbIsRed b = false) := by
  have hleft : (m.links rb).child .left a = some left := hl
  have hright : (m.links rb).child .right a = some right := hr
  have hparent : (m.links rb).parent b = some q := hq
  obtain ⟨m₁, hm₁⟩ : ∃ m₁, m.relink .left (m.rbParent a) a (some b) = m₁ := ⟨_, rfl⟩
  have h₁ : m₁.links rb = (m.links rb).replaceChild .left ((m.links rb).parent a) a (some b) := by
    rw [← hm₁, links_relink]
    rfl
  have hchild₁ : ∀ {d k}, m.rbParent a ≠ some k →
      (m₁.links rb).child d k = (m.links rb).child d k := by
    intro d k hk
    rw [h₁]
    exact TreeLinks.replaceChild_child hk
  have hb₁ : m₁.rbRight b = m.rbRight b := hchild₁ (d := .right) hpb
  have hq₁ : m₁.rbParent b = some q := by
    have hsame : (m₁.links rb).parent b = some q := by rw [h₁]; simpa using hparent
    exact hsame
  have hcolor₁ : m₁.rbIsRed b = m.rbIsRed b := rbIsRed_congr rb (by rw [h₁]; simp)
  by_cases hqa : q = a
  · have hl₁ : m₁.rbLeft a = some left := (hchild₁ (d := .left) hpa).trans hleft
    obtain ⟨m', hrun, hm'⟩ := inheritPlace_links rb hba hl₁
    refine ⟨⟨m', m₁.rbRight b, some b, m₁.rbColor b⟩, ?_, ?_, hb₁, by simp [hqa], ?_⟩
    · simp only [unlinkSuccessor, hend, ok_bind, hm₁, hq₁, hqa, if_true, hrun]
    · simp only [hm', h₁, TreeLinks.takePlace, hparent, hqa, if_true, hleft,
        TreeLinks.reparent_some, TreeLinks.replaceChild_parent, TreeLinks.replaceChild_label]
    · rw [rbColor_eq_black_iff, hcolor₁]
  · have hqa' : a ≠ q := fun he => hqa he.symm
    have hab : a ≠ b := fun he => hba he.symm
    have har : a ≠ right := fun he => hra he.symm
    obtain ⟨m₂, hm₂⟩ : ∃ m₂, (m₁.setParentOf (m₁.rbRight b) (some q)).setLeft q (m₁.rbRight b) = m₂ :=
      ⟨_, rfl⟩
    have h₂ : m₂.links rb = ((m₁.links rb).reparent (m.rbRight b) (some q)).setChild .left q
        (m.rbRight b) := by
      rw [← hm₂, hb₁, ← links_setParentOf]
      exact links_setChild rb (d := .left)
    have hchild₂ : ∀ d, (m₂.links rb).child d a = (m.links rb).child d a := by
      intro d
      rw [h₂]
      simpa [hqa'] using hchild₁ hpa
    have hr₂ : m₂.rbRight a = some right := (hchild₂ .right).trans hright
    obtain ⟨m₃, hm₃⟩ : ∃ m₃, (m₂.setRight b (some right)).rbSetParent right (some b) = m₃ :=
      ⟨_, rfl⟩
    have h₃ : m₃.links rb = ((m₂.links rb).setChild .right b (some right)).setParent right
        (some b) := by
      rw [← hm₃, links_rbSetParent]
      exact congrArg (·.setParent right (some b)) (links_setChild rb (d := .right))
    have hr₂' : (m₂.setRight b (some right)).rbRight a = some right := by
      simpa [rbRight, setRight, setFields_node, hab] using hr₂
    have hl₃ : m₃.rbLeft a = some left := by
      have hsame : (m₃.links rb).child .left a = (m₂.links rb).child .left a := by
        rw [h₃]
        simp
      exact hsame.trans ((hchild₂ .left).trans hleft)
    obtain ⟨m', hrun, hm'⟩ := inheritPlace_links rb hba hl₃
    refine ⟨⟨m', m₁.rbRight b, some q, m₁.rbColor b⟩, ?_, ?_, hb₁, by simp [hqa], ?_⟩
    · have hne : some q ≠ some a := by simpa using hqa
      simp only [unlinkSuccessor, hend, ok_bind, hm₁, hq₁, if_neg hne, deref, hm₂, hr₂, hr₂', hm₃,
        hrun]
    · have hpa₃ : (m₃.links rb).parent a = (m.links rb).parent a := by
        rw [h₃, h₂, h₁]
        simp [har, hc]
      have hla₃ : (m₃.links rb).label a = (m.links rb).label a := by
        rw [h₃, h₂, h₁]
        simp
      rw [hm', hpa₃, hla₃, h₃, h₂, h₁]
      simp only [TreeLinks.takePlace, hparent, hqa, if_false, hleft, hright,
        TreeLinks.reparent_some]
      rfl
    · rw [rbColor_eq_black_iff, hcolor₁]

/-- Down one side of a subtree lies the first or the last node of it. -/
theorem sideEnd_place (h : m.Place rb F fs t) (hn : rootName rb.nameOf t = some n)
    (hfuel : t.height ≤ fuel) :
    ∃ x, m.sideEnd d n fuel = .ok (rb.nameOf x) ∧
      d.pick (SearchTree.inorder t).head? (SearchTree.inorder t).getLast? = some x := by
  induction fuel generalizing fs t n with
  | zero =>
    cases t with
    | nil => cases hn
    | node x l r => simp at hfuel
  | succ fuel ih =>
    cases t with
    | nil => cases hn
    | node x l r =>
      cases hn
      rw [node_eq_build d] at h
      have hchild := (Place.child h).1
      have hheight : (d.pick l r).height ≤ fuel := by
        simp only [BinaryTree.height] at hfuel
        cases d <;> simp only [Side.pick] <;> omega
      cases hnext : d.pick l r with
      | nil =>
        rw [hnext] at hchild
        refine ⟨x, by simp [sideEnd, hchild], ?_⟩
        cases d <;> simp only [Side.pick] at hnext <;> subst hnext <;>
          simp [Side.pick, SearchTree.inorder]
      | node y a b =>
        rw [hnext] at hchild hheight h
        obtain ⟨z, hrun, hz⟩ := ih h.down rfl hheight
        refine ⟨z, by simpa [sideEnd, hchild] using hrun, ?_⟩
        have hne : SearchTree.inorder (.node y a b) ≠ [] := by simp [SearchTree.inorder]
        cases d with
        | left =>
          simp only [Side.pick] at hnext hz ⊢
          subst hnext
          rw [SearchTree.inorder, List.head?_append_of_ne_nil _ hne]
          exact hz
        | right =>
          simp only [Side.pick] at hnext hz ⊢
          subst hnext
          rw [SearchTree.inorder, List.getLast?_append_of_ne_nil _ (by simp),
            List.getLast?_cons_of_ne_nil hne]
          exact hz

/-- The colour handed on decides whether there is anything to repair. -/
theorem Unlinked.At.finish {z : Unlinked} (hz : z.At rb F x fs t) (hs : splice x t fs = some u)
    (hfuel : fs.length < fuel) :
    ∃ m', (if z.color = rbBlack then z.memory.rbEraseColor z.child z.parent fuel
      else .ok z.memory) = .ok m' ∧ m'.Place rb F [] u := by
  cases hx : isRed x with
  | true =>
    have hcolor : ¬ z.color = rbBlack := by simp [hz.color, hx]
    obtain rfl := Option.some.inj (by simpa [splice, hx] using hs)
    exact ⟨z.memory, if_neg hcolor, TreeLinks.Place.plug_iff.mpr hz.place⟩
  | false =>
    have hcolor : z.color = rbBlack := hz.color.mpr hx
    rw [if_pos hcolor, hz.child, hz.parent]
    exact rbEraseColor_place hz.place (by simpa [splice, hx] using hs) hfuel

/-- The successor is off its place and in the place of the node to be erased. -/
theorem unlinkSuccessor_at {y : RbNode ε} {a b : RbTree ε}
    (h : m.Place rb F fs (.node x l (.node y a b))) (hl : l ≠ .nil)
    (hfuel : (BinaryTree.node y a b).height ≤ fuel) :
    ∃ z, m.unlinkSuccessor (rb.nameOf x) (rb.nameOf y) fuel = .ok z ∧
      z.At rb F (leftmost y b a []).1 ((leftmost y b a []).2.2 ++
        ⟨.right, paint (isRed x) (leftmost y b a []).1, l⟩ :: fs) (leftmost y b a []).2.1 := by
  obtain ⟨s, c, gs, hz⟩ : ∃ s c gs, leftmost y b a [] = (s, c, gs) := ⟨_, _, _, rfl⟩
  have hplug : plug gs (.node s .nil c) = .node y a b := by
    have hwalk : plug (leftmost y b a []).2.2 _ = plug [] (.node y a b) := leftmost_plug
    rwa [hz] at hwalk
  have hside : ∀ f ∈ gs, f.side = .left := by
    have hwalk : ∀ f ∈ (leftmost y b a []).2.2, f.side = .left := leftmost_side (by simp)
    rwa [hz] at hwalk
  have hdeep : m.Place rb F (gs ++ ⟨.right, x, l⟩ :: fs) (.node s .nil c) := by
    apply TreeLinks.Place.plug_iff.mp
    rw [plug_append, plug_cons, hplug]
    exact TreeLinks.Place.plug_iff.mpr h
  have hend : m.sideEnd .left (rb.nameOf y) fuel = .ok (rb.nameOf s) := by
    obtain ⟨s', hrun, hs'⟩ := sideEnd_place (d := .left) (TreeLinks.Place.downOther (d := .left) h) rfl
      hfuel
    have hhead : (SearchTree.inorder (.node y a b)).head? = some (leftmost y b a []).1 :=
      leftmost_head
    rw [hz] at hhead
    have hsame : some s' = some s := hs'.symm.trans hhead
    rwa [Option.some.inj hsame] at hrun
  have hnodup := h.shape.nodup
  simp only [TreeLinks.names_node, ← hplug, List.nodup_append, List.nodup_cons, List.mem_append,
    List.mem_cons, TreeLinks.mem_names_plug, TreeLinks.names_nil, List.nil_append] at hnodup
  obtain ⟨⟨_, ⟨hxn, _⟩, _⟩, _, hpath⟩ := hnodup
  obtain ⟨left, hleft⟩ : ∃ left, rootName rb.nameOf l = some left := by
    cases l with
    | nil => exact absurd rfl hl
    | node w _ _ => exact ⟨_, rfl⟩
  obtain ⟨hlabel, hxp, hxl, hxr, _, _⟩ := h.shape.hangs
  obtain ⟨_, hsp, _, hsr, _, _⟩ := hdeep.shape.hangs
  obtain ⟨q, hq⟩ : ∃ q, headName rb.nameOf (gs ++ ⟨.right, x, l⟩ :: fs) = some q := by
    cases gs <;> exact ⟨_, rfl⟩
  have hhead : ∀ {k}, k ∉ pathNames rb.nameOf fs → m.rbParent (rb.nameOf x) ≠ some k :=
    fun hk he => hk (TreeLinks.headName_mem (hxp.symm.trans he))
  have hyx : rb.nameOf y ≠ rb.nameOf x := by
    intro he
    have hy : rb.nameOf y ∈ TreeLinks.names rb.nameOf (plug gs (.node s .nil c)) := by
      rw [hplug]
      simp
    rw [TreeLinks.mem_names_plug] at hy
    rw [he] at hy
    simp at hy
    grind
  obtain ⟨z, hrun, hlinks, hchild, hparent, hcolor⟩ := unlinkSuccessor_links rb hend
    (show rb.nameOf s ≠ rb.nameOf x by grind) (hhead (by grind)) (hhead (by grind))
    (hxl.trans hleft) hxr hyx (hsp.trans hq)
    (fun he => hxn (Or.inl (Or.inr (TreeLinks.rootName_mem (hsr.symm.trans he)))))
  rw [hz]
  refine ⟨z, hrun, ?_, hchild.trans hsr, ?_, ?_⟩
  · have hk : (⟨rb.containerOf (rb.nameOf s), ((m.links rb).label (rb.nameOf x)).color⟩ :
        RbNode ε) = paint (isRed x) s := by
      rw [hlabel, rb.containerOf_nameOf]
      obtain ⟨e, color⟩ := x
      cases color <;> rfl
    rw [RbMemory.Place, hlinks, hk]
    exact TreeLinks.Place.takePlace hdeep hside rfl
  · rw [hparent]
    cases gs with
    | nil =>
      cases hq
      exact if_pos rfl
    | cons f gs =>
      cases hq
      have hne : rb.nameOf f.node ≠ rb.nameOf x := by
        intro he
        apply hxn
        simp [pathNames, he]
      exact if_neg hne
  · rw [hcolor, Place.rbIsRed hdeep]

/-- Erasing a node of the tree in memory is taking it out of the tree. -/
theorem rbErase_place (h : m.Place rb F fs (.node x l r)) (herase : eraseAt x fs l r = some u)
    (hfuel : (plug fs (.node x l r)).height ≤ fuel) :
    ∃ m', m.rbErase (rb.nameOf x) fuel = .ok m' ∧ m'.Place rb F [] u := by
  obtain ⟨_, _, hxl, hxr, _, _⟩ := h.shape.hangs
  have hl : m.rbLeft (rb.nameOf x) = rootName rb.nameOf l := hxl
  have hr : m.rbRight (rb.nameOf x) = rootName rb.nameOf r := hxr
  have hpath : fs.length + (BinaryTree.node x l r).height ≤ fuel :=
    length_add_height_le.trans hfuel
  have hlength : fs.length < fuel := by
    simp only [BinaryTree.height] at hpath
    omega
  cases l with
  | nil =>
    obtain ⟨m', hrun, hm'⟩ := (unlinkNode_at (d := .left) h).finish herase hlength
    refine ⟨m', ?_, hm'⟩
    simp only [rbErase, hl, hr, TreeLinks.rootName_nil, ok_bind]
    exact hrun
  | node z p q =>
    cases r with
    | nil =>
      obtain ⟨m', hrun, hm'⟩ := (unlinkNode_at (d := .right) h).finish herase hlength
      refine ⟨m', ?_, hm'⟩
      simp only [rbErase, hl, hr, TreeLinks.rootName_nil, TreeLinks.rootName_node, ok_bind]
      exact hrun
    | node y a b =>
      have hheight : (BinaryTree.node y a b).height ≤ fuel := by
        simp only [BinaryTree.height] at hpath ⊢
        omega
      obtain ⟨w, hrun, hw⟩ := unlinkSuccessor_at h (by simp) hheight
      have hdeep : ((leftmost y b a []).2.2 ++
          (⟨.right, paint (isRed x) (leftmost y b a []).1, .node z p q⟩ :: fs)).length < fuel := by
        have hwalk : (leftmost y b a []).2.2.length + (BinaryTree.node (leftmost y b a []).1 .nil
            (leftmost y b a []).2.1).height ≤ (BinaryTree.node y a b).height := by
          rw [← plug_nil (t := .node y a b), ← leftmost_plug]
          exact length_add_height_le
        simp only [BinaryTree.height, List.length_append, List.length_cons] at hwalk hpath ⊢
        omega
      obtain ⟨m', hfinish, hm'⟩ := hw.finish herase hdeep
      refine ⟨m', ?_, hm'⟩
      simp only [rbErase, hl, hr, TreeLinks.rootName_node, hrun, ok_bind]
      exact hfinish

end RbMemory

end Atrace.Signal

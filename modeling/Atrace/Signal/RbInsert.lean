import Atrace.Signal.RbLinks

/-! `rb_insert_color` on the words in memory does what the repair does on the tree. -/
namespace Atrace.Signal

open Atrace.Lib Atrace.Lib.TreePath Atrace.Lib.RedBlack Painted
open Atrace.Lib.TreeLinks (rootName rootName_build)

namespace RbMemory

variable {ε : Type*} {rb : RbMember ε} {m m' : RbMemory} {d : Side} {n : NodePtr} {fuel : Nat}
  {x p q : RbNode ε} {t u v w l r : RbTree ε} {f g : Frame (RbNode ε)}
  {fs : List (Frame (RbNode ε))}
  {F : TreeLinks.Footprint NodePtr (RbNode ε)}

/-- Lift the black-painted `p` over the red-painted `q`. -/
theorem lift_place (h : m.Place rb F fs (build d q (build d p t v) w)) :
    ∃ m', ((m.rbSetBlack (rb.nameOf p)).rbSetRed (rb.nameOf q)).rotate d.other (rb.nameOf q) =
        .ok m' ∧
      m'.Place rb F (⟨d, paint false p, build d (paint true q) v w⟩ :: fs) t := by
  have h₁ : (m.rbSetBlack (rb.nameOf p)).Place rb F fs (build d q (build d (paint false p) t v) w) :=
    (Place.rbSetBlack h.down rfl).up
  have h₂ := Place.rbSetRed h₁ rfl
  rw [paintRoot_build, ← build_other, ← build_other (d := d) (x := paint false p)] at h₂
  obtain ⟨m', hrun, hplace⟩ := Place.rotate h₂
  refine ⟨m', hrun, ?_⟩
  rw [build_other, build_other] at hplace
  exact hplace.down

theorem insertColorRotate_same (h : m.Place rb F (f :: g :: fs) t)
    (hn : rootName rb.nameOf t = some n) (hside : f.side = g.side) :
    ∃ m', m.insertColorRotate g.side n (rb.nameOf f.node) (rb.nameOf g.node) = .ok (m', n) ∧
      m'.Place rb F (⟨g.side, paint false f.node,
        build g.side (paint true g.node) f.sibling g.sibling⟩ :: fs) t := by
  have hchild : m.child g.side.other (rb.nameOf f.node) ≠ some n := by
    intro hc
    have he := (TreeLinks.Shape.child_iff h.shape hn).mp hc
    rw [hside] at he
    exact Side.other_ne he
  have hplace : m.Place rb F fs (build g.side g.node (build g.side f.node t f.sibling) g.sibling) := by
    rw [← hside]
    exact hside ▸ h.up.up
  obtain ⟨m', hrun, hm'⟩ := lift_place hplace
  refine ⟨m', ?_, hm'⟩
  simp only [insertColorRotate, if_neg hchild, ok_bind, hrun]

theorem insertColorRotate_other (h : m.Place rb F (f :: g :: fs) (.node x l r))
    (hside : f.side ≠ g.side) :
    ∃ m', m.insertColorRotate g.side (rb.nameOf x) (rb.nameOf f.node) (rb.nameOf g.node) =
        .ok (m', rb.nameOf f.node) ∧
      m'.Place rb F (⟨g.side, paint false x,
        build g.side (paint true g.node) (g.side.pick r l) g.sibling⟩ :: fs)
        (build g.side f.node f.sibling (g.side.pick l r)) := by
  have hother : f.side = g.side.other := Side.eq_other_of_ne hside
  have hchild : m.child g.side.other (rb.nameOf f.node) = some (rb.nameOf x) :=
    (TreeLinks.Shape.child_iff h.shape rfl).mpr hother.symm
  have hplace : m.Place rb F (g :: fs) (build g.side f.node f.sibling
      (build g.side x (g.side.pick l r) (g.side.pick r l))) := by
    rw [← node_eq_build, ← build_other, ← hother]
    exact h.up
  obtain ⟨m₁, hrun₁, hm₁⟩ := Place.rotate hplace
  obtain ⟨m', hrun, hm'⟩ := lift_place hm₁.up
  refine ⟨m', ?_, hm'⟩
  simp only [insertColorRotate, if_pos hchild, hrun₁, ok_bind, hrun]

theorem insertColorTurn_red (h : m.Place rb F (f :: g :: fs) t) (hg : rootRed g.sibling = true) :
    ∃ m', m.insertColorTurn g.side n (rb.nameOf f.node) (rb.nameOf g.node) =
        .ok (m', rb.nameOf g.node) ∧
      m'.Place rb F fs (build g.side (paint true g.node)
        (build f.side (paint false f.node) t f.sibling) (paintRoot false g.sibling)) := by
  have h₀ : m.Place rb F fs (build g.side g.node (build f.side f.node t f.sibling) g.sibling) := h.up.up
  cases hu : g.sibling with
  | nil => simp [hu] at hg
  | node u a b =>
    rw [hu] at h₀ hg
    have hchild : m.child g.side.other (rb.nameOf g.node) = some (rb.nameOf u) := (Place.child h₀).2
    have hred : m.rbIsRed (rb.nameOf u) = true := (Place.rbIsRed h₀.downOther).trans hg
    have h₁ := (Place.rbSetBlack h₀.downOther rfl).upOther
    have h₂ := (Place.rbSetBlack h₁.down rfl).up
    have h₃ := Place.rbSetRed h₂ rfl
    refine ⟨_, ?_, h₃⟩
    simp only [insertColorTurn, hchild, hred, if_true]

theorem insertColorTurn_black (h : m.Place rb F (f :: g :: fs) t)
    (hg : rootRed g.sibling = false) :
    m.insertColorTurn g.side n (rb.nameOf f.node) (rb.nameOf g.node) =
      m.insertColorRotate g.side n (rb.nameOf f.node) (rb.nameOf g.node) := by
  have h₀ : m.Place rb F fs (build g.side g.node (build f.side f.node t f.sibling) g.sibling) := h.up.up
  cases hu : g.sibling with
  | nil =>
    rw [hu] at h₀
    have hchild : m.child g.side.other (rb.nameOf g.node) = none := (Place.child h₀).2
    simp only [insertColorTurn, hchild]
  | node u a b =>
    rw [hu] at h₀ hg
    have hchild : m.child g.side.other (rb.nameOf g.node) = some (rb.nameOf u) := (Place.child h₀).2
    have hblack : m.rbIsRed (rb.nameOf u) = false := (Place.rbIsRed h₀.downOther).trans hg
    simp only [insertColorTurn, hchild, hblack, Bool.false_eq_true, if_false]

/-- A node with a black parent, or with none, ends the loop. -/
theorem insertColorLoop_settled (h : m.Place rb F fs t) (hn : rootName rb.nameOf t = some n)
    (hfs : ∀ f gs, fs = f :: gs → isRed f.node = false) (hfuel : 0 < fuel) :
    m.insertColorLoop n fuel = .ok m := by
  obtain ⟨fuel, rfl⟩ := Nat.exists_eq_succ_of_ne_zero hfuel.ne'
  have hparent := h.shape.hangs.parent_root hn
  cases fs with
  | nil =>
    have hp : m.rbParent n = none := hparent
    simp [insertColorLoop, hp]
  | cons f fs =>
    have hp : m.rbParent n = some (rb.nameOf f.node) := hparent
    have hblack : m.rbIsRed (rb.nameOf f.node) = false :=
      (Place.rbIsRed h.up).trans (hfs f fs rfl)
    simp [insertColorLoop, hp, hblack]

/-- A turn with a red parent is the turn on the side of the parent. -/
theorem insertColorLoop_turn (h : m.Place rb F (f :: g :: fs) t)
    (hn : rootName rb.nameOf t = some n) (hf : isRed f.node = true) :
    m.insertColorLoop n (fuel + 1) =
      m.insertColorTurn g.side n (rb.nameOf f.node) (rb.nameOf g.node) >>=
        fun r => r.1.insertColorLoop r.2 fuel := by
  have hp : m.rbParent n = some (rb.nameOf f.node) := h.shape.hangs.parent_root hn
  have hred : m.rbIsRed (rb.nameOf f.node) = true := (Place.rbIsRed h.up).trans hf
  have hgp : m.rbParent (rb.nameOf f.node) = some (rb.nameOf g.node) := Place.rbParent h.up
  have hleft : m.rbLeft (rb.nameOf g.node) = some (rb.nameOf f.node) ↔ .left = g.side :=
    TreeLinks.Shape.child_iff (e := .left) h.up.shape rfl
  simp only [insertColorLoop, hp, hred, if_true, hgp, deref, ok_bind, hleft]
  cases g.side <;> rfl

/-- The loop of `rb_insert_color` succeeds where the repair of the tree does. -/
theorem insertColorLoop_place (h : m.Place rb F fs t) (hn : rootName rb.nameOf t = some n)
    (hfix : fixRed t fs = some u) (hfuel : fs.length < fuel) :
    ∃ m', m.insertColorLoop n fuel = .ok m' ∧ m'.Place rb F [] u := by
  induction t, fs using fixRed.induct generalizing m n fuel with
  | case1 t =>
    cases hfix
    exact ⟨m, insertColorLoop_settled h hn (by simp) hfuel, h⟩
  | case2 t f hf => simp [fixRed, hf] at hfix
  | case3 t f hf =>
    obtain rfl : plug [f] t = u := by simpa [fixRed, hf] using hfix
    refine ⟨m, insertColorLoop_settled h hn ?_ (by omega), TreeLinks.Place.plug_iff.mpr h⟩
    rintro f' gs ⟨rfl, _⟩
    simpa using hf
  | case4 t f g fs hf hg ih =>
    obtain ⟨fuel, rfl⟩ := Nat.exists_eq_succ_of_ne_zero (Nat.ne_of_gt (Nat.zero_lt_of_lt hfuel))
    obtain ⟨m', hrun, hm'⟩ := insertColorTurn_red (n := n) h hg
    simp only [List.length_cons] at hfuel
    obtain ⟨m'', hloop, hm''⟩ := ih hm' rfl (by simpa [fixRed, hf, hg] using hfix)
      (show fs.length < fuel by omega)
    refine ⟨m'', ?_, hm''⟩
    rw [insertColorLoop_turn h hn hf, hrun]
    exact hloop
  | case5 t f g fs hf hg hside =>
    simp only [List.length_cons] at hfuel
    obtain ⟨fuel, rfl⟩ := Nat.exists_eq_succ_of_ne_zero (Nat.ne_of_gt (Nat.zero_lt_of_lt hfuel))
    obtain rfl := Option.some.inj (by simpa [fixRed, hf, hg, hside] using hfix)
    obtain ⟨m', hrun, hm'⟩ := insertColorRotate_same h hn hside
    refine ⟨m', ?_, TreeLinks.Place.plug_iff.mpr hm'.up⟩
    rw [insertColorLoop_turn h hn hf, insertColorTurn_black h (by simpa using hg), hrun]
    refine insertColorLoop_settled hm' hn ?_ (by omega)
    rintro f' gs ⟨rfl, _⟩
    exact isRed_paint false f.node
  | case6 f g fs hf hg hside => cases hn
  | case7 f g fs hf hg hside x l r =>
    simp only [List.length_cons] at hfuel
    obtain ⟨fuel, rfl⟩ := Nat.exists_eq_succ_of_ne_zero (Nat.ne_of_gt (Nat.zero_lt_of_lt hfuel))
    obtain rfl := Option.some.inj (by simpa [fixRed, hf, hg, hside] using hfix)
    obtain ⟨m', hrun, hm'⟩ := insertColorRotate_other h hside
    cases hn
    refine ⟨m', ?_, TreeLinks.Place.plug_iff.mpr hm'.up⟩
    rw [insertColorLoop_turn h rfl hf, insertColorTurn_black h (by simpa using hg), hrun]
    refine insertColorLoop_settled hm' rfl ?_ (by omega)
    rintro f' gs ⟨rfl, _⟩
    exact isRed_paint false x
  | case8 t f g fs hf =>
    obtain rfl := Option.some.inj (by simpa [fixRed, hf] using hfix)
    refine ⟨m, insertColorLoop_settled h hn ?_ (by omega), TreeLinks.Place.plug_iff.mpr h.up.up⟩
    rintro f' gs ⟨rfl, _⟩
    simpa using hf

theorem rbInsertColor_place (h : m.Place rb F fs t) (hn : rootName rb.nameOf t = some n)
    (hins : insertColor t fs = some u) (hfuel : fs.length < fuel) :
    ∃ m', m.rbInsertColor n fuel = .ok m' ∧ m'.Place rb F [] u := by
  obtain ⟨v, hv, rfl⟩ := Option.map_eq_some_iff.mp hins
  obtain ⟨m', hrun, hm'⟩ := insertColorLoop_place h hn hv hfuel
  obtain ⟨root, hroot⟩ : ∃ root, rootName rb.nameOf v = some root := by
    cases v with
    | node x a b => exact ⟨_, rfl⟩
    | nil =>
      have hsame := fixRed_inorder entry_paint hv
      cases t with
      | nil => cases hn
      | node x a b => simp [inorder_plug, SearchTree.inorder] at hsame
  refine ⟨m'.rbSetBlack root, ?_, Place.rbSetBlack hm' hroot⟩
  have hnode : m'.rbNode = some root := hm'.shape.around.trans hroot
  simp only [rbInsertColor, hrun, ok_bind, hnode, deref]

end RbMemory

end Atrace.Signal

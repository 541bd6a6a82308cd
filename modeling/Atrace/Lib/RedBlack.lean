import Atrace.Lib.TreePath
import Mathlib.Data.Nat.Log
import Mathlib.Tactic.Ring

/-! Red-black trees: balance, height, and the repairs after a node was linked in or taken out. -/
namespace Atrace.Lib

/-- Nodes with one bit of colour, `true` for red. -/
class Painted (κ : Type*) where
  isRed : κ → Bool
  paint : Bool → κ → κ
  isRed_paint : ∀ c x, isRed (paint c x) = c
  paint_paint : ∀ b c x, paint b (paint c x) = paint b x
  paint_isRed : ∀ x, paint (isRed x) x = x

namespace RedBlack

open SearchTree TreePath Painted

attribute [simp] isRed_paint paint_paint paint_isRed

variable {κ μ : Type*} [Painted κ] {b c : Bool} {n k : Nat} {d : Side} {x y s : κ}
  {t t' u l r : BinaryTree κ} {f : Frame κ} {fs gs : List (Frame κ)} {g : κ → μ}

/-- The empty tree counts as black. -/
def rootRed : BinaryTree κ → Bool
  | .nil => false
  | .node x _ _ => isRed x

def paintRoot (c : Bool) : BinaryTree κ → BinaryTree κ
  | .nil => .nil
  | .node x l r => .node (paint c x) l r

@[simp] theorem rootRed_nil : rootRed (.nil : BinaryTree κ) = false := rfl

@[simp] theorem rootRed_node : rootRed (.node x l r) = isRed x := rfl

@[simp] theorem rootRed_build : rootRed (build d x t u) = isRed x := rfl

@[simp] theorem paintRoot_nil : paintRoot c (.nil : BinaryTree κ) = .nil := rfl

@[simp] theorem paintRoot_node : paintRoot c (.node x l r) = .node (paint c x) l r := rfl

@[simp] theorem paintRoot_build : paintRoot c (build d x t u) = build d (paint c x) t u := rfl

/-- Repair a tree whose subtree `t` at the end of the path is red, as its parent may be. -/
def fixRed : BinaryTree κ → List (Frame κ) → Option (BinaryTree κ)
  | t, [] => some t
  | t, [f] => if isRed f.node then none else some (plug [f] t)
  | t, f :: g :: fs =>
    if isRed f.node then
      if rootRed g.sibling then
        fixRed (build g.side (paint true g.node) (build f.side (paint false f.node) t f.sibling)
          (paintRoot false g.sibling)) fs
      else if f.side = g.side then
        some (plug fs (build g.side (paint false f.node) t
          (build g.side (paint true g.node) f.sibling g.sibling)))
      else
        match t with
        | .nil => none
        | .node x l r =>
          some (plug fs (build g.side (paint false x)
            (build g.side f.node f.sibling (g.side.pick l r))
            (build g.side (paint true g.node) (g.side.pick r l) g.sibling)))
    else some (plug (f :: g :: fs) t)

/-- Balance the tree after a red leaf was linked in at the end of the path. -/
def insertColor (t : BinaryTree κ) (fs : List (Frame κ)) : Option (BinaryTree κ) :=
  (fixRed t fs).map (paintRoot false)

/-- A look at the black sibling of a subtree `t` that is one black node short: the shortage moves
up to the parent `p` (`inl`), or nodes of the sibling make up for it (`inr`). -/
def borrow (d : Side) (p : κ) (t : BinaryTree κ) :
    BinaryTree κ → Option (BinaryTree κ ⊕ BinaryTree κ)
  | .nil => none
  | .node s l r =>
    if rootRed l = false ∧ rootRed r = false then
      some (.inl (build d p t (.node (paint true s) l r)))
    else if rootRed (d.pick r l) then
      some (.inr (build d (paint (isRed p) s) (build d (paint false p) t (d.pick l r))
        (paintRoot false (d.pick r l))))
    else
      match d.pick l r with
      | .nil => none
      | .node x a b =>
        some (.inr (build d (paint (isRed p) x) (build d (paint false p) t (d.pick a b))
          (build d (paint false s) (d.pick b a) (d.pick r l))))

/-- Repair a tree whose subtree at the end of the path is one black node short. -/
def fixBlack : BinaryTree κ → List (Frame κ) → Option (BinaryTree κ)
  | t, [] => some (paintRoot false t)
  | t, f :: fs =>
    if rootRed t then some (plug (f :: fs) (paintRoot false t))
    else
      match f.sibling with
      | .nil => none
      | .node s l r =>
        if isRed s then
          let gs := ⟨f.side, paint false s, f.side.pick r l⟩ :: fs
          match borrow f.side (paint true f.node) t (f.side.pick l r) with
          | none => none
          | some (.inl t) => some (plug gs (paintRoot false t))
          | some (.inr t) => some (paintRoot false (plug gs t))
        else
          match borrow f.side f.node t (.node s l r) with
          | none => none
          | some (.inl t) => fixBlack t fs
          | some (.inr t) => some (paintRoot false (plug fs t))

/-- Take out a node with one child at most. -/
def splice (x : κ) (child : BinaryTree κ) (fs : List (Frame κ)) : Option (BinaryTree κ) :=
  if isRed x then some (plug fs child) else fixBlack child fs

/-- The leftmost node of a subtree, what is on its right, and the path to it. -/
def leftmost (x : κ) (r : BinaryTree κ) :
    BinaryTree κ → List (Frame κ) → κ × BinaryTree κ × List (Frame κ)
  | .nil, fs => (x, r, fs)
  | .node y a b, fs => leftmost y b a (⟨.left, x, r⟩ :: fs)

/-- Take out a node; one with two children gives its place and colour to its successor. -/
def eraseAt (x : κ) (fs : List (Frame κ)) : BinaryTree κ → BinaryTree κ → Option (BinaryTree κ)
  | .nil, r => splice x r fs
  | l, .nil => splice x l fs
  | l, .node y a b =>
    let z := leftmost y b a []
    splice z.1 z.2.1 (z.2.2 ++ ⟨.right, paint (isRed x) z.1, l⟩ :: fs)

/-- No red node has a red child, and `n` black nodes lie on every way down; `c` is the root's colour. -/
inductive Balanced : Bool → Nat → BinaryTree κ → Prop where
  | nil : Balanced false 0 .nil
  | red {n : Nat} {x : κ} {l r : BinaryTree κ} (hx : isRed x = true) (hl : Balanced false n l)
      (hr : Balanced false n r) : Balanced true n (.node x l r)
  | black {n : Nat} {b c : Bool} {x : κ} {l r : BinaryTree κ} (hx : isRed x = false)
      (hl : Balanced b n l) (hr : Balanced c n r) : Balanced false (n + 1) (.node x l r)

/-- A red subtree may hang below the last node of the path. -/
def headBlack : List (Frame κ) → Bool
  | [] => false
  | f :: _ => !isRed f.node

/-- A path of a red-black tree around a subtree with `n` black nodes on every way down. -/
inductive Hole : Nat → List (Frame κ) → Prop where
  | top {n : Nat} : Hole n []
  | red {n : Nat} {f : Frame κ} {fs : List (Frame κ)} (hx : isRed f.node = true)
      (hu : Balanced false n f.sibling) (hb : headBlack fs = true) (h : Hole n fs) : Hole n (f :: fs)
  | black {n : Nat} {c : Bool} {f : Frame κ} {fs : List (Frame κ)} (hx : isRed f.node = false)
      (hu : Balanced c n f.sibling) (h : Hole (n + 1) fs) : Hole n (f :: fs)

/-- A subtree in its place in a red-black tree. -/
def Fits (fs : List (Frame κ)) (t : BinaryTree κ) : Prop :=
  ∃ c n, Balanced c n t ∧ Hole n fs ∧ (c = true → headBlack fs = true)

theorem Balanced.rootRed_eq (h : Balanced c n t) : rootRed t = c := by
  cases h with
  | nil => rfl
  | red hx => exact hx
  | black hx => exact hx

theorem Balanced.red_build (hx : isRed x = true) (ht : Balanced false n t)
    (hu : Balanced false n u) : Balanced true n (build d x t u) := by
  cases d with
  | left => exact .red hx ht hu
  | right => exact .red hx hu ht

theorem Balanced.black_build (hx : isRed x = false) (ht : Balanced b n t)
    (hu : Balanced c n u) : Balanced false (n + 1) (build d x t u) := by
  cases d with
  | left => exact .black hx ht hu
  | right => exact .black hx hu ht

theorem Balanced.of_build (h : Balanced c n (build d x t u)) :
    (isRed x = true ∧ c = true ∧ Balanced false n t ∧ Balanced false n u) ∨
      (isRed x = false ∧ c = false ∧
        ∃ k b b', n = k + 1 ∧ Balanced b k t ∧ Balanced b' k u) := by
  cases d with
  | left =>
    cases h with
    | red hx hl hr => exact Or.inl ⟨hx, rfl, hl, hr⟩
    | black hx hl hr => exact Or.inr ⟨hx, rfl, _, _, _, rfl, hl, hr⟩
  | right =>
    cases h with
    | red hx hl hr => exact Or.inl ⟨hx, rfl, hr, hl⟩
    | black hx hl hr => exact Or.inr ⟨hx, rfl, _, _, _, rfl, hr, hl⟩

/-- Any balanced tree has a balanced tree with a black root next to it. -/
theorem Balanced.paintRoot (h : Balanced c n t) : ∃ m, Balanced false m (paintRoot false t) := by
  cases h with
  | nil => exact ⟨0, .nil⟩
  | red hx hl hr => exact ⟨_, .black (isRed_paint false _) hl hr⟩
  | black hx hl hr => exact ⟨_, .black (isRed_paint false _) hl hr⟩

theorem Balanced.paintRoot_red (h : Balanced true n t) :
    Balanced false (n + 1) (RedBlack.paintRoot false t) := by
  cases h with
  | red hx hl hr => exact .black (isRed_paint false _) hl hr

/-- A subtree with a black root may stand wherever one of its height may. -/
theorem Hole.fits (h : Hole n fs) (ht : Balanced false n t) : Fits fs t :=
  ⟨false, n, ht, h, by simp⟩

theorem Fits.up (h : Fits (f :: fs) t) : Fits fs (build f.side f.node t f.sibling) := by
  obtain ⟨c, n, ht, hole, hc⟩ := h
  cases hole with
  | red hx hu hb hole =>
    have hblack : c = false := by
      by_contra hne
      have := hc (by simpa using hne)
      simp [headBlack, hx] at this
    subst c
    exact ⟨true, n, .red_build hx ht hu, hole, fun _ => hb⟩
  | black hx hu hole => exact hole.fits (.black_build hx ht hu)

theorem Fits.down_left (h : Fits fs (.node x l r)) : Fits (⟨.left, x, r⟩ :: fs) l := by
  obtain ⟨c, n, ht, hole, hc⟩ := h
  cases ht with
  | red hx hl hr => exact ⟨false, n, hl, .red hx hr (hc rfl) hole, by simp⟩
  | black hx hl hr => exact ⟨_, _, hl, .black hx hr hole, by simp [headBlack, hx]⟩

theorem Fits.down_right (h : Fits fs (.node x l r)) : Fits (⟨.right, x, l⟩ :: fs) r := by
  obtain ⟨c, n, ht, hole, hc⟩ := h
  cases ht with
  | red hx hl hr => exact ⟨false, n, hr, .red hx hl (hc rfl) hole, by simp⟩
  | black hx hl hr => exact ⟨_, _, hr, .black hx hl hole, by simp [headBlack, hx]⟩

theorem Fits.down (h : Fits fs (build d x t u)) : Fits (⟨d, x, u⟩ :: fs) t := by
  cases d with
  | left => exact h.down_left
  | right => exact h.down_right

/-- A subtree fits on its path exactly if the whole tree is red-black with a black root. -/
theorem fits_iff : Fits fs t ↔ ∃ m, Balanced false m (plug fs t) := by
  induction fs generalizing t with
  | nil =>
    constructor
    · rintro ⟨c, n, ht, _, hc⟩
      have hblack : c = false := by
        by_contra hne
        simpa [headBlack] using hc (by simpa using hne)
      exact ⟨n, hblack ▸ ht⟩
    · rintro ⟨m, hm⟩
      exact Hole.top.fits hm
  | cons f fs ih =>
    rw [plug_cons, ← ih]
    exact ⟨Fits.up, Fits.down⟩

/-- A red subtree with black children, in a place for a black one: the repair succeeds. -/
theorem fixRed_balanced (h : Hole n fs) (ht : Balanced true n t) :
    ∃ u c m, fixRed t fs = some u ∧ Balanced c m u := by
  induction t, fs using fixRed.induct generalizing n with
  | case1 t => exact ⟨t, true, n, rfl, ht⟩
  | case2 t f hf =>
    cases h with
    | red _ _ hb _ => cases hb
    | black hx => simp [hx] at hf
  | case3 t f hf =>
    cases h with
    | red hx => exact absurd hx hf
    | @black _ c _ _ hx hu h =>
      refine ⟨build f.side f.node t f.sibling, false, n + 1, ?_, .black_build hx ht hu⟩
      simp [fixRed, hx]
  | case4 t f g fs hf hg ih =>
    cases h with
    | black hx => simp [hx] at hf
    | red hx hu hb h =>
      have hgb : isRed g.node = false := by simpa [headBlack] using hb
      cases h with
      | red hgr => simp [hgb] at hgr
      | black _ hgu h =>
        have huncle := hgu.rootRed_eq
        rw [hg] at huncle
        subst huncle
        have hparent : Balanced false (n + 1) (build f.side (paint false f.node) t f.sibling) :=
          .black_build (isRed_paint false _) ht hu
        obtain ⟨u, c, m, hrun, hbal⟩ :=
          ih h (.red_build (d := g.side) (isRed_paint true g.node) hparent hgu.paintRoot_red)
        exact ⟨u, c, m, by simpa [fixRed, hf, hg] using hrun, hbal⟩
  | case5 t f g fs hf hg hside =>
    cases h with
    | black hx => simp [hx] at hf
    | red hx hu hb h =>
      have hgb : isRed g.node = false := by simpa [headBlack] using hb
      cases h with
      | red hgr => simp [hgb] at hgr
      | black _ hgu h =>
        have huncle := hgu.rootRed_eq
        simp only [Bool.not_eq_true] at hg
        rw [hg] at huncle
        subst huncle
        have hg' : Balanced true n (build g.side (paint true g.node) f.sibling g.sibling) :=
          .red_build (isRed_paint true _) hu hgu
        obtain ⟨m, hm⟩ := fits_iff.mp
          (h.fits (.black_build (d := g.side) (isRed_paint false f.node) ht hg'))
        exact ⟨_, false, m, by simp [fixRed, hf, hg, hside], hm⟩
  | case6 f g fs hf hg hside => cases ht
  | case7 f g fs hf hg hside x l r =>
    cases h with
    | black hx => simp [hx] at hf
    | red hx hu hb h =>
      have hgb : isRed g.node = false := by simpa [headBlack] using hb
      cases h with
      | red hgr => simp [hgb] at hgr
      | black _ hgu h =>
        have huncle := hgu.rootRed_eq
        simp only [Bool.not_eq_true] at hg
        rw [hg] at huncle
        subst huncle
        cases ht with
        | red hxr hl hr =>
          have hf' : Balanced true n (build g.side f.node f.sibling (g.side.pick l r)) :=
            .red_build hf hu (by cases g.side <;> assumption)
          have hg' : Balanced true n
              (build g.side (paint true g.node) (g.side.pick r l) g.sibling) :=
            .red_build (isRed_paint true _) (by cases g.side <;> assumption) hgu
          obtain ⟨m, hm⟩ := fits_iff.mp
            (h.fits (.black_build (d := g.side) (isRed_paint false x) hf' hg'))
          exact ⟨_, false, m, by simp [fixRed, hf, hg, hside], hm⟩
  | case8 t f g fs hf =>
    simp only [Bool.not_eq_true] at hf
    cases h with
    | red hx => simp [hf] at hx
    | black hx hu h =>
      obtain ⟨m, hm⟩ := fits_iff.mp (h.fits (.black_build (d := f.side) hx ht hu))
      exact ⟨_, false, m, by simp [fixRed, hf], hm⟩

/-- Linking a red leaf into a red-black tree leaves a red-black tree after the repair. -/
theorem insertColor_balanced (h : Fits fs .nil) (hx : isRed x = true) :
    ∃ u m, insertColor (.node x .nil .nil) fs = some u ∧ Balanced false m u := by
  obtain ⟨c, n, ht, hole, _⟩ := h
  cases ht with
  | nil =>
    obtain ⟨u, c, m, hrun, hbal⟩ := fixRed_balanced hole (.red hx .nil .nil)
    obtain ⟨m', hm'⟩ := hbal.paintRoot
    exact ⟨_, m', by simp [insertColor, hrun], hm'⟩

/-- The shortage moves up with a red sibling left behind, or ends with the parent's colour on top. -/
theorem borrow_balanced (d : Side) (p : κ) (ht : Balanced false n t) (hu : Balanced false (n + 1) u) :
    (∃ w, borrow d p t u = some (.inl (build d p t w)) ∧ Balanced true n w) ∨
      ∃ v k, borrow d p t u = some (.inr v) ∧ Balanced (isRed p) k v ∧
        k = n + (if isRed p = true then 1 else 2) := by
  have htop : ∀ (z : κ) (a b : BinaryTree κ), Balanced false (n + 1) a → Balanced false (n + 1) b →
      ∃ k, Balanced (isRed p) k (build d (paint (isRed p) z) a b) ∧
        k = n + (if isRed p = true then 1 else 2) := by
    intro z a b ha hb
    cases hp : isRed p with
    | true => exact ⟨n + 1, .red_build (isRed_paint true z) ha hb, rfl⟩
    | false => exact ⟨n + 2, .black_build (isRed_paint false z) ha hb, rfl⟩
  cases hu with
  | @black _ b c s l r hs hl hr =>
    by_cases hblack : rootRed l = false ∧ rootRed r = false
    · left
      rw [hl.rootRed_eq, hr.rootRed_eq] at hblack
      obtain ⟨rfl, rfl⟩ := hblack
      refine ⟨.node (paint true s) l r, ?_, .red (isRed_paint true s) hl hr⟩
      simp [borrow, hl.rootRed_eq, hr.rootRed_eq]
    right
    obtain ⟨near, far, bn, bf, hnear, hfar, hbn, hbf⟩ : ∃ near far bn bf,
        d.pick l r = near ∧ d.pick r l = far ∧ Balanced bn n near ∧ Balanced bf n far := by
      cases d with
      | left => exact ⟨l, r, b, c, rfl, rfl, hl, hr⟩
      | right => exact ⟨r, l, c, b, rfl, rfl, hr, hl⟩
    cases bf with
    | true =>
      obtain ⟨k, hk, hkn⟩ := htop s (build d (paint false p) t near) (paintRoot false far)
        (.black_build (isRed_paint false p) ht hbn) hbf.paintRoot_red
      refine ⟨_, k, ?_, hk, hkn⟩
      simp [borrow, hblack, hnear, hfar, hbf.rootRed_eq]
    | false =>
      cases hbn with
      | nil =>
        exfalso
        apply hblack
        cases d <;> simp_all [Side.pick, hbf.rootRed_eq]
      | black hx hnl hnr =>
        exfalso
        apply hblack
        cases d <;> simp_all [Side.pick, hbf.rootRed_eq]
      | @red _ x a a' hx ha ha' =>
        have hpick : Balanced false n (d.pick a a') ∧ Balanced false n (d.pick a' a) := by
          cases d with
          | left => exact ⟨ha, ha'⟩
          | right => exact ⟨ha', ha⟩
        obtain ⟨k, hk, hkn⟩ := htop x (build d (paint false p) t (d.pick a a'))
          (build d (paint false s) (d.pick a' a) far)
          (.black_build (isRed_paint false p) ht hpick.1)
          (.black_build (isRed_paint false s) hpick.2 hbf)
        refine ⟨_, k, ?_, hk, hkn⟩
        simp [borrow, hblack, hnear, hfar, hbf.rootRed_eq]

theorem fixBlack_red (h : rootRed t = true) : fixBlack t fs = some (plug fs (paintRoot false t)) := by
  cases fs with
  | nil => rfl
  | cons f fs => simp [fixBlack, h]

/-- A subtree one black node short on a path of a red-black tree: the repair succeeds. -/
theorem fixBlack_balanced (h : Hole (n + 1) fs) (ht : Balanced c n t) :
    ∃ u m, fixBlack t fs = some u ∧ Balanced false m u := by
  induction fs generalizing t n c with
  | nil =>
    obtain ⟨m, hm⟩ := ht.paintRoot
    exact ⟨_, m, rfl, hm⟩
  | cons f fs ih =>
    cases c with
    | true =>
      obtain ⟨m, hm⟩ := fits_iff.mp (h.fits ht.paintRoot_red)
      exact ⟨_, m, fixBlack_red ht.rootRed_eq, hm⟩
    | false =>
      cases h with
      | red hx hu hb h =>
        cases hsib : f.sibling with
        | nil => rw [hsib] at hu; cases hu
        | node s l r =>
          rw [hsib] at hu
          have hs : isRed s = false := hu.rootRed_eq
          rcases borrow_balanced f.side f.node ht hu with ⟨w, hw, hbal⟩ | ⟨v, k, hv, hbal, hk⟩
          · have hup : Balanced false (n + 1) (build f.side (paint false f.node) t w) :=
              .black_build (isRed_paint false _) ht hbal
            obtain ⟨m, hm⟩ := fits_iff.mp (h.fits hup)
            refine ⟨plug fs (build f.side (paint false f.node) t w), m, ?_, hm⟩
            have hred : rootRed (build f.side f.node t w) = true := hx
            simp [fixBlack, ht.rootRed_eq, hsib, hs, hw, fixBlack_red hred]
          · simp only [hx, if_true] at hbal hk
            subst hk
            obtain ⟨m, hm⟩ := fits_iff.mp (⟨true, n + 1, hbal, h, fun _ => hb⟩ : Fits fs v)
            obtain ⟨m', hm'⟩ := hm.paintRoot
            refine ⟨_, m', ?_, hm'⟩
            simp [fixBlack, ht.rootRed_eq, hsib, hs, hv]
      | @black _ c _ _ hx hu h =>
        cases hsib : f.sibling with
        | nil => rw [hsib] at hu; cases hu
        | node s l r =>
          rw [hsib] at hu
          cases c with
          | true =>
            have hs : isRed s = true := hu.rootRed_eq
            obtain ⟨hnear, hfar⟩ : Balanced false (n + 1) (f.side.pick l r) ∧
                Balanced false (n + 1) (f.side.pick r l) := by
              cases hu with
              | red _ hl hr => cases f.side <;> exact ⟨by assumption, by assumption⟩
            have hgs : Hole (n + 1) (⟨f.side, paint false s, f.side.pick r l⟩ :: fs) :=
              .black (isRed_paint false s) hfar h
            rcases borrow_balanced f.side (paint true f.node) ht hnear with
              ⟨w, hw, hbal⟩ | ⟨v, k, hv, hbal, hk⟩
            · have hup : Balanced false (n + 1) (build f.side (paint false f.node) t w) :=
                .black_build (isRed_paint false _) ht hbal
              obtain ⟨m, hm⟩ := fits_iff.mp (hgs.fits hup)
              refine ⟨_, m, ?_, hm⟩
              simp [fixBlack, ht.rootRed_eq, hsib, hs, hw]
            · simp only [isRed_paint, if_true] at hbal hk
              subst hk
              obtain ⟨m, hm⟩ := fits_iff.mp
                (⟨true, n + 1, hbal, hgs, fun _ => by simp [headBlack]⟩ : Fits _ v)
              obtain ⟨m', hm'⟩ := hm.paintRoot
              refine ⟨_, m', ?_, hm'⟩
              simp [fixBlack, ht.rootRed_eq, hsib, hs, hv]
          | false =>
            have hs : isRed s = false := hu.rootRed_eq
            rcases borrow_balanced f.side f.node ht hu with ⟨w, hw, hbal⟩ | ⟨v, k, hv, hbal, hk⟩
            · obtain ⟨u, m, hrun, hm⟩ := ih h (.black_build (d := f.side) hx ht hbal)
              refine ⟨u, m, ?_, hm⟩
              simp [fixBlack, ht.rootRed_eq, hsib, hs, hw, hrun]
            · simp only [hx] at hbal hk
              subst hk
              obtain ⟨m, hm⟩ := fits_iff.mp (h.fits hbal)
              obtain ⟨m', hm'⟩ := hm.paintRoot
              refine ⟨_, m', ?_, hm'⟩
              simp [fixBlack, ht.rootRed_eq, hsib, hs, hv]

/-- A node with a missing child gives its place to the other child. -/
theorem splice_balanced (h : Fits fs (build d x .nil u)) :
    ∃ v m, splice x u fs = some v ∧ Balanced false m v := by
  obtain ⟨c, n, hx, hole, hc⟩ := h
  rcases hx.of_build with ⟨hxr, rfl, hnil, hu⟩ | ⟨hxb, rfl, k, b, b', rfl, hnil, hu⟩
  · cases hnil
    obtain ⟨m, hm⟩ := fits_iff.mp (hole.fits hu)
    exact ⟨_, m, by simp [splice, hxr], hm⟩
  · cases hnil
    obtain ⟨v, m, hrun, hm⟩ := fixBlack_balanced hole hu
    exact ⟨v, m, by simp [splice, hxb, hrun], hm⟩

omit [Painted κ] in
theorem leftmost_append : leftmost x r l (gs ++ fs) =
    ((leftmost x r l gs).1, (leftmost x r l gs).2.1, (leftmost x r l gs).2.2 ++ fs) := by
  induction l generalizing x r gs with
  | nil => rfl
  | node y a b iha _ =>
    change leftmost y b a ((⟨.left, x, r⟩ :: gs) ++ fs) = _
    exact iha

omit [Painted κ] in
/-- The walk to the leftmost node only moves the point of view. -/
theorem leftmost_plug : plug (leftmost x r l fs).2.2
    (.node (leftmost x r l fs).1 .nil (leftmost x r l fs).2.1) = plug fs (.node x l r) := by
  induction l generalizing x r fs with
  | nil => rfl
  | node y a b iha _ => exact iha

omit [Painted κ] in
theorem leftmost_before : before (leftmost x r l fs).2.2 = before fs := by
  induction l generalizing x r fs with
  | nil => rfl
  | node y a b iha _ =>
    refine iha.trans ?_
    simp [before, Side.pick]

omit [Painted κ] in
theorem leftmost_head : (inorder (.node x l r)).head? = some (leftmost x r l fs).1 := by
  induction l generalizing x r fs with
  | nil => rfl
  | node y a b iha _ =>
    rw [inorder, List.head?_append, iha]
    rfl

omit [Painted κ] in
theorem leftmost_side (h : ∀ f ∈ fs, f.side = .left) :
    ∀ f ∈ (leftmost x r l fs).2.2, f.side = .left := by
  induction l generalizing x r fs with
  | nil => exact h
  | node y a b iha _ =>
    apply iha
    rintro f (_ | ⟨_, hf⟩)
    · rfl
    · exact h f hf

theorem leftmost_fits (h : Fits fs (.node x l r)) :
    Fits (leftmost x r l fs).2.2 (.node (leftmost x r l fs).1 .nil (leftmost x r l fs).2.1) := by
  rwa [fits_iff, leftmost_plug, ← fits_iff]

/-- Only the colours of a tree matter for its balance. -/
theorem Fits.recolour {d : Side} (hxy : isRed y = isRed x)
    (h : Fits (gs ++ ⟨d, x, u⟩ :: fs) t) : Fits (gs ++ ⟨d, y, u⟩ :: fs) t := by
  rw [fits_iff, plug_append, plug_cons, ← fits_iff] at h ⊢
  obtain ⟨c, n, ht, hole, hc⟩ := h
  refine ⟨c, n, ?_, hole, hc⟩
  rcases ht.of_build with ⟨hxr, rfl, ht, hu⟩ | ⟨hxb, rfl, k, b, b', rfl, ht, hu⟩
  · exact .red_build (hxy.trans hxr) ht hu
  · exact .black_build (hxy.trans hxb) ht hu

/-- Taking a node out of a red-black tree leaves a red-black tree after the repair. -/
theorem eraseAt_balanced (h : Fits fs (.node x l r)) :
    ∃ v m, eraseAt x fs l r = some v ∧ Balanced false m v := by
  cases l with
  | nil => exact splice_balanced (d := .left) h
  | node z p q =>
    cases r with
    | nil => exact splice_balanced (d := .right) h
    | node y a b =>
      have hs := leftmost_fits h.down_right
      rw [show (⟨.right, x, .node z p q⟩ :: fs : List (Frame κ)) =
        [] ++ ⟨.right, x, .node z p q⟩ :: fs from rfl, leftmost_append] at hs
      exact splice_balanced (d := .left) (hs.recolour (isRed_paint (isRed x) _))

theorem Balanced.two_pow_le (h : Balanced c n t) : 2 ^ n ≤ t.numNodes + 1 := by
  induction h with
  | nil => simp
  | red _ _ _ ihl ihr => simp only [BinaryTree.numNodes]; omega
  | black _ _ _ ihl ihr => simp only [BinaryTree.numNodes, pow_succ]; omega

theorem Balanced.height_le (h : Balanced c n t) : t.height ≤ 2 * n + c.toNat := by
  induction h with
  | nil => simp
  | red _ _ _ ihl ihr =>
    simp only [BinaryTree.height, Bool.toNat_false, Bool.toNat_true] at *
    omega
  | @black _ b c _ _ _ _ _ _ ihl ihr =>
    have hb := Bool.toNat_le b
    have hc := Bool.toNat_le c
    simp only [BinaryTree.height, Bool.toNat_false] at *
    omega

/-- A red-black tree is at most twice as high as a perfect tree with as many nodes. -/
theorem Balanced.height_le_log (h : Balanced false n t) :
    t.height ≤ 2 * Nat.log 2 (t.numNodes + 1) := by
  have hn : n ≤ Nat.log 2 (t.numNodes + 1) := Nat.le_log_of_pow_le (by decide) h.two_pow_le
  have hh := h.height_le
  simp only [Bool.toNat_false] at hh
  omega

section Inorder

variable (hg : ∀ c x, g (paint c x) = g x)

include hg

theorem inorder_paintRoot : (inorder (paintRoot c t)).map g = (inorder t).map g := by
  cases t <;> simp [inorder, hg]

theorem fixRed_inorder (h : fixRed t fs = some u) :
    (inorder u).map g = (inorder (plug fs t)).map g := by
  induction t, fs using fixRed.induct with
  | case1 t =>
    cases h
    rfl
  | case2 t f hf => simp [fixRed, hf] at h
  | case3 t f hf =>
    obtain rfl : plug [f] t = u := by simpa [fixRed, hf] using h
    rfl
  | case4 t f q fs hf hq ih =>
    rw [ih (by simpa [fixRed, hf, hq] using h), plug_cons, plug_cons]
    apply inorder_plug_congr
    obtain ⟨d, y, a⟩ := f
    obtain ⟨e, z, b⟩ := q
    cases d <;> cases e <;> simp [inorder, hg, inorder_paintRoot hg]
  | case5 t f q fs hf hq hside =>
    obtain rfl := Option.some.inj (by simpa [fixRed, hf, hq, hside] using h)
    rw [plug_cons, plug_cons]
    apply inorder_plug_congr
    obtain ⟨d, y, a⟩ := f
    obtain ⟨e, z, b⟩ := q
    cases hside
    cases d <;> simp [inorder, hg]
  | case6 f q fs hf hq hside => simp [fixRed, hf, hq, hside] at h
  | case7 f q fs hf hq hside x l r =>
    obtain rfl := Option.some.inj (by simpa [fixRed, hf, hq, hside] using h)
    rw [plug_cons, plug_cons]
    apply inorder_plug_congr
    obtain ⟨d, y, a⟩ := f
    obtain ⟨e, z, b⟩ := q
    cases d <;> cases e <;> simp_all [inorder, Side.pick]
  | case8 t f q fs hf =>
    obtain rfl := Option.some.inj (by simpa [fixRed, hf] using h)
    rfl

theorem insertColor_inorder (h : insertColor t fs = some u) :
    (inorder u).map g = (inorder (plug fs t)).map g := by
  obtain ⟨v, hv, rfl⟩ := Option.map_eq_some_iff.mp h
  rw [inorder_paintRoot hg, fixRed_inorder hg hv]

/-- A look at the sibling, whatever comes of it, keeps the in-order list. -/
theorem borrow_inorder {p : κ} {w : BinaryTree κ ⊕ BinaryTree κ} (h : borrow d p t u = some w) :
    (inorder (w.elim id id)).map g = (inorder (build d p t u)).map g := by
  cases u with
  | nil => cases h
  | node s l r =>
    simp only [borrow] at h
    split at h
    · cases h
      cases d <;> simp [inorder, hg]
    · split at h
      · cases h
        cases d <;> simp [inorder, hg, Side.pick, inorder_paintRoot hg]
      · split at h
        · cases h
        · rename_i x a b hx
          cases h
          cases d <;> simp only [Side.pick] at hx <;> subst hx <;> simp [inorder, hg, Side.pick]

theorem fixBlack_inorder (h : fixBlack t fs = some u) :
    (inorder u).map g = (inorder (plug fs t)).map g := by
  induction fs generalizing t with
  | nil =>
    cases h
    exact inorder_paintRoot hg
  | cons f fs ih =>
    simp only [fixBlack] at h
    split at h
    · cases h
      exact inorder_plug_congr (inorder_paintRoot hg)
    · split at h
      · cases h
      · rename_i s l r hsib
        have hrot : ∀ {v : BinaryTree κ ⊕ BinaryTree κ},
            borrow f.side (paint true f.node) t (f.side.pick l r) = some v →
            (inorder (plug (⟨f.side, paint false s, f.side.pick r l⟩ :: fs)
              (v.elim id id))).map g = (inorder (plug (f :: fs) t)).map g := by
          intro v hv
          have hsame := borrow_inorder hg hv
          rw [plug_cons, plug_cons, hsib]
          apply inorder_plug_congr
          obtain ⟨d, y, a⟩ := f
          cases d <;> simp_all [inorder, Side.pick]
        split at h
        · split at h
          · cases h
          · rename_i v hv
            cases h
            rw [inorder_plug_congr (inorder_paintRoot hg)]
            exact hrot hv
          · rename_i v hv
            cases h
            rw [inorder_paintRoot hg]
            exact hrot hv
        · split at h
          · cases h
          · rename_i v hv
            rw [ih h, plug_cons, hsib]
            exact inorder_plug_congr (borrow_inorder hg hv)
          · rename_i v hv
            cases h
            rw [inorder_paintRoot hg, plug_cons, hsib]
            exact inorder_plug_congr (borrow_inorder hg hv)

theorem splice_inorder (h : splice x t fs = some u) :
    (inorder u).map g = (inorder (plug fs t)).map g := by
  rw [splice] at h
  split at h
  · cases h
    rfl
  · exact fixBlack_inorder hg h

/-- Everything stays in order but the node that was taken out. -/
theorem eraseAt_inorder (h : eraseAt x fs l r = some u) :
    (inorder u).map g = (before fs ++ (inorder l ++ inorder r) ++ after fs).map g := by
  cases l with
  | nil =>
    rw [splice_inorder hg h, inorder_plug]
    rfl
  | node z p q =>
    cases r with
    | nil =>
      rw [splice_inorder hg h, inorder_plug]
      simp [inorder]
    | node y a b =>
      have hwalk : plug (leftmost y b a []).2.2 _ = plug [] (.node y a b) := leftmost_plug
      have hz := congrArg inorder hwalk
      rw [inorder_plug, leftmost_before] at hz
      have hz' := congrArg (fun xs => xs.map g ++ (after fs).map g) hz
      simp only [eraseAt] at h
      rw [splice_inorder hg h, plug_append, plug_cons]
      simpa [inorder_plug, inorder, hg, before, leftmost_before] using hz'

end Inorder

end RedBlack

end Atrace.Lib

import Atrace.Lib.TreePath
import Mathlib.Data.List.Nodup

/-! Binary trees whose nodes carry links to their children and to their parent. -/
namespace Atrace.Lib

/-- The links of every node, the link to the root, and what else a node holds. -/
@[ext] structure TreeLinks (ν κ : Type*) where
  root : Option ν
  child : Side → ν → Option ν
  parent : ν → Option ν
  label : ν → κ

namespace TreeLinks

open SearchTree TreePath

variable {ν κ : Type*} {name : κ → ν} {m m' : TreeLinks ν κ} {d e : Side} {x y : κ} {a b c : ν}
  {p q link link' : Option ν} {t u l r : BinaryTree κ} {f : Frame κ} {fs : List (Frame κ)} {k : κ}

section Shape

variable (name)

/-- The nodes of a tree in order. -/
def names (t : BinaryTree κ) : List ν := (inorder t).map name

def rootName : BinaryTree κ → Option ν
  | .nil => none
  | .node x _ _ => some (name x)

/-- The parent of the subtree at the end of a path. -/
def headName : List (Frame κ) → Option ν
  | [] => none
  | f :: _ => some (name f.node)

/-- The nodes of the tree that are not in the subtree. -/
def pathNames : List (Frame κ) → List ν
  | [] => []
  | f :: fs => name f.node :: (names name f.sibling ++ pathNames fs)

/-- The nodes of `t` are linked as in `t`, and the top one has the parent `p`. -/
def Hangs (m : TreeLinks ν κ) : Option ν → BinaryTree κ → Prop
  | _, .nil => True
  | p, .node x l r =>
    m.label (name x) = x ∧ m.parent (name x) = p ∧ m.child .left (name x) = rootName name l ∧
      m.child .right (name x) = rootName name r ∧
      Hangs m (some (name x)) l ∧ Hangs m (some (name x)) r

/-- The nodes off the subtree are linked as the path says, and `link` is in the place of it. -/
def Around (m : TreeLinks ν κ) : List (Frame κ) → Option ν → Prop
  | [], link => m.root = link
  | f :: fs, link =>
    m.label (name f.node) = f.node ∧ m.parent (name f.node) = headName name fs ∧
      m.child f.side (name f.node) = link ∧
      m.child f.side.other (name f.node) = rootName name f.sibling ∧
      m.Hangs name (some (name f.node)) f.sibling ∧ Around m fs (some (name f.node))

/-- The tree with the subtree `t` at the end of the path `fs` is in memory, no node occurs twice. -/
structure Shape (m : TreeLinks ν κ) (fs : List (Frame κ)) (t : BinaryTree κ) : Prop where
  around : m.Around name fs (rootName name t)
  hangs : m.Hangs name (headName name fs) t
  nodup : (names name t ++ pathNames name fs).Nodup

/-- The tree `t` is in memory. -/
def Represents (m : TreeLinks ν κ) (t : BinaryTree κ) : Prop := m.Shape name [] t

end Shape

@[simp] theorem names_nil : names name .nil = [] := rfl

@[simp] theorem names_node :
    names name (.node x l r) = names name l ++ name x :: names name r := by
  simp [names, inorder]

theorem names_build_perm : (names name (build d x t u)).Perm (name x :: (names name t ++ names name u)) := by
  cases d with
  | left => simp
  | right =>
    refine List.Perm.trans ?_ (List.perm_append_comm.cons _)
    simp

@[simp] theorem mem_names_build :
    a ∈ names name (build d x t u) ↔ a = name x ∨ a ∈ names name t ∨ a ∈ names name u := by
  rw [names_build_perm.mem_iff]
  simp

theorem nodup_names_build : (names name (build d x t u)).Nodup ↔
    (name x :: (names name t ++ names name u)).Nodup := names_build_perm.nodup_iff

@[simp] theorem rootName_nil : rootName name .nil = none := rfl

@[simp] theorem rootName_node : rootName name (.node x l r) = some (name x) := rfl

@[simp] theorem rootName_build : rootName name (build d x t u) = some (name x) := rfl

@[simp] theorem headName_nil : headName name ([] : List (Frame κ)) = none := rfl

@[simp] theorem headName_cons : headName name (f :: fs) = some (name f.node) := rfl

theorem rootName_mem (h : rootName name t = some a) : a ∈ names name t := by
  cases t with
  | nil => cases h
  | node x l r =>
    cases h
    simp

theorem headName_mem (h : headName name fs = some a) : a ∈ pathNames name fs := by
  cases fs with
  | nil => cases h
  | cons f fs =>
    cases h
    simp [pathNames]

theorem hangs_build : m.Hangs name p (build d x t u) ↔
    m.label (name x) = x ∧ m.parent (name x) = p ∧ m.child d (name x) = rootName name t ∧
      m.child d.other (name x) = rootName name u ∧
      m.Hangs name (some (name x)) t ∧ m.Hangs name (some (name x)) u := by
  cases d with
  | left => exact Iff.rfl
  | right =>
    simp only [build_right, Hangs, Side.other]
    constructor
    · rintro ⟨h1, h2, h3, h4, h5, h6⟩
      exact ⟨h1, h2, h4, h3, h6, h5⟩
    · rintro ⟨h1, h2, h3, h4, h5, h6⟩
      exact ⟨h1, h2, h4, h3, h6, h5⟩

theorem pathNames_append {gs : List (Frame κ)} :
    pathNames name (gs ++ fs) = pathNames name gs ++ pathNames name fs := by
  induction gs with
  | nil => rfl
  | cons f gs ih => simp [pathNames, ih]

theorem names_plug_perm :
    (names name (plug fs t)).Perm (names name t ++ pathNames name fs) := by
  induction fs generalizing t with
  | nil => simp [pathNames]
  | cons f fs ih =>
    refine ih.trans ((names_build_perm.append_right _).trans ?_)
    simpa [pathNames] using List.perm_middle.symm

theorem mem_names_plug :
    a ∈ names name (plug fs t) ↔ a ∈ names name t ∨ a ∈ pathNames name fs := by
  rw [names_plug_perm.mem_iff, List.mem_append]

theorem exists_plug_of_names {pre post : List ν} (h : names name t = pre ++ a :: post) :
    ∃ fs x l r, plug fs (.node x l r) = t ∧ name x = a ∧ pre = (before fs ++ inorder l).map name ∧
      post = (inorder r ++ after fs).map name := by
  obtain ⟨as, bs, hsplit, rfl, hbs⟩ := List.map_eq_append_iff.mp h
  obtain ⟨x, cs, rfl, rfl, rfl⟩ := List.map_eq_cons_iff.mp hbs
  obtain ⟨fs, l, r, hplug, rfl, rfl⟩ := exists_plug_of_inorder hsplit
  exact ⟨fs, x, l, r, hplug, rfl, rfl, rfl⟩

/-- A subtree with its parent and the other subtree of the parent is a subtree again. -/
theorem shape_cons : m.Shape name (f :: fs) t ↔
    m.Shape name fs (build f.side f.node t f.sibling) := by
  have hperm : (names name (build f.side f.node t f.sibling) ++ pathNames name fs).Perm
      (names name t ++ pathNames name (f :: fs)) := by
    refine (names_build_perm.append_right _).trans ?_
    simpa [pathNames] using List.perm_middle.symm
  constructor
  · rintro ⟨⟨h1, h2, h3, h4, h5, h6⟩, hangs, nodup⟩
    exact ⟨h6, hangs_build.mpr ⟨h1, h2, h3, h4, hangs, h5⟩, hperm.nodup_iff.mpr nodup⟩
  · rintro ⟨around, hangs, nodup⟩
    obtain ⟨h1, h2, h3, h4, h5, h6⟩ := hangs_build.mp hangs
    exact ⟨⟨h1, h2, h3, h4, h6, around⟩, h5, hperm.nodup_iff.mp nodup⟩

theorem Shape.up (h : m.Shape name (⟨d, x, u⟩ :: fs) t) : m.Shape name fs (build d x t u) :=
  shape_cons.mp h

theorem Shape.down (h : m.Shape name fs (build d x t u)) : m.Shape name (⟨d, x, u⟩ :: fs) t :=
  shape_cons.mpr h

theorem Shape.downOther (h : m.Shape name fs (build d x t u)) :
    m.Shape name (⟨d.other, x, t⟩ :: fs) u := Shape.down (by rwa [build_other])

theorem Shape.upOther (h : m.Shape name (⟨d.other, x, t⟩ :: fs) u) :
    m.Shape name fs (build d x t u) := by
  rw [← build_other]
  exact h.up

/-- A subtree that is not empty is on one side of its parent only. -/
theorem Shape.child_iff (h : m.Shape name (f :: fs) t) (ha : rootName name t = some a) :
    m.child e (name f.node) = some a ↔ e = f.side := by
  obtain ⟨_, _, hchild, hsib, _, _⟩ := h.around
  by_cases he : e = f.side
  · subst he
    simp [hchild, ha]
  · have hne : rootName name f.sibling ≠ some a := by
      intro hs
      have hdisj := (List.nodup_append.mp h.nodup).2.2 a (rootName_mem ha) a
      exact hdisj (by simp [pathNames, rootName_mem hs]) rfl
    rw [Side.eq_other_of_ne he, hsib]
    simp [hne]

theorem represents_plug : m.Represents name (plug fs t) ↔ m.Shape name fs t := by
  induction fs generalizing t with
  | nil => exact Iff.rfl
  | cons f fs ih => exact ih.trans shape_cons.symm

theorem rootName_plug (h : rootName name (plug fs t) = some a) :
    (fs = [] ∧ rootName name t = some a) ∨ a ∈ pathNames name fs := by
  induction fs generalizing t with
  | nil => exact Or.inl ⟨rfl, h⟩
  | cons f fs ih =>
    right
    rcases ih h with ⟨_, ha⟩ | ha
    · cases ha
      simp [pathNames]
    · simp [pathNames, ha]

theorem Hangs.parent_root (h : m.Hangs name p t) (ha : rootName name t = some a) :
    m.parent a = p := by
  cases t with
  | nil => cases ha
  | node x l r =>
    cases ha
    exact h.2.1

theorem rootName_plug_cons :
    ∃ a ∈ pathNames name (f :: fs), rootName name (plug (f :: fs) t) = some a := by
  cases hr : rootName name (plug (f :: fs) t) with
  | some a =>
    rcases rootName_plug hr with ⟨hnil, _⟩ | ha
    · cases hnil
    · exact ⟨a, ha, rfl⟩
  | none =>
    exfalso
    have hmem : name f.node ∈ names name (plug (f :: fs) t) :=
      mem_names_plug.mpr (Or.inr (by simp [pathNames]))
    generalize plug (f :: fs) t = v at hr hmem
    cases v with
    | nil => cases hmem
    | node => cases hr

/-- A subtree that is not the whole tree does not have its root in the root link. -/
theorem Shape.rootName_ne (h : m.Shape name (f :: fs) t) : rootName name t ≠ m.root := by
  have hwhole : m.root = rootName name (plug (f :: fs) t) := (represents_plug.mpr h).around
  obtain ⟨a, ha, hroot⟩ : ∃ a ∈ pathNames name (f :: fs),
      rootName name (plug (f :: fs) t) = some a := rootName_plug_cons
  rw [hwhole, hroot]
  intro he
  exact (List.nodup_append.mp h.nodup).2.2 a (rootName_mem he) a ha rfl

/-- Two memories agree on the node `a`. -/
def SameAt (m m' : TreeLinks ν κ) (a : ν) : Prop :=
  m'.label a = m.label a ∧ m'.parent a = m.parent a ∧ ∀ d, m'.child d a = m.child d a

theorem Hangs.congr (h : m.Hangs name p t) (hsame : ∀ a ∈ names name t, m.SameAt m' a) :
    m'.Hangs name p t := by
  induction t generalizing p with
  | nil => trivial
  | node x l r ihl ihr =>
    obtain ⟨h1, h2, h3, h4, hl, hr⟩ := h
    simp only [names_node, List.mem_append, List.mem_cons] at hsame
    obtain ⟨s1, s2, s3⟩ := hsame (name x) (Or.inr (Or.inl rfl))
    exact ⟨s1.trans h1, s2.trans h2, (s3 _).trans h3, (s3 _).trans h4,
      ihl hl fun a ha => hsame a (Or.inl ha),
      ihr hr fun a ha => hsame a (Or.inr (Or.inr ha))⟩

/-- A subtree that is hung below another node, otherwise left alone. -/
theorem Hangs.move (h : m.Hangs name p t) (hnodup : (names name t).Nodup)
    (hroot : ∀ a, rootName name t = some a → m'.parent a = q)
    (hparent : ∀ a ∈ names name t, rootName name t ≠ some a → m'.parent a = m.parent a)
    (hsame : ∀ a ∈ names name t, m'.label a = m.label a ∧ ∀ d, m'.child d a = m.child d a) :
    m'.Hangs name q t := by
  cases t with
  | nil => trivial
  | node x l r =>
    obtain ⟨h1, h2, h3, h4, hl, hr⟩ := h
    have hx : name x ∉ names name l ++ names name r := by
      rw [names_node] at hnodup
      exact (List.nodup_middle.mp hnodup).notMem
    simp only [names_node, List.mem_append, List.mem_cons] at hsame hparent
    obtain ⟨s1, s2⟩ := hsame (name x) (Or.inr (Or.inl rfl))
    have hrest : ∀ a ∈ names name l ++ names name r, m.SameAt m' a := by
      intro a ha
      have hmem : a ∈ names name l ∨ a = name x ∨ a ∈ names name r := by
        rcases List.mem_append.mp ha with ha | ha
        · exact Or.inl ha
        · exact Or.inr (Or.inr ha)
      refine ⟨(hsame a hmem).1, hparent a hmem ?_, (hsame a hmem).2⟩
      rintro hax
      cases hax
      exact hx ha
    exact ⟨s1.trans h1, hroot _ rfl, (s2 _).trans h3, (s2 _).trans h4,
      hl.congr fun a ha => hrest a (List.mem_append_left _ ha),
      hr.congr fun a ha => hrest a (List.mem_append_right _ ha)⟩

theorem Around.congr (h : m.Around name fs link) (hroot : m'.root = m.root)
    (hsame : ∀ a ∈ pathNames name fs, m.SameAt m' a) : m'.Around name fs link := by
  induction fs generalizing link with
  | nil => exact hroot.trans h
  | cons f fs ih =>
    obtain ⟨h1, h2, h3, h4, h5, h6⟩ := h
    simp only [pathNames, List.mem_cons, List.mem_append] at hsame
    obtain ⟨s1, s2, s3⟩ := hsame (name f.node) (Or.inl rfl)
    exact ⟨s1.trans h1, s2.trans h2, (s3 _).trans h3, (s3 _).trans h4,
      h5.congr fun a ha => hsame a (Or.inr (Or.inl ha)),
      ih h6 fun a ha => hsame a (Or.inr (Or.inr ha))⟩

/-- The path keeps its shape while the link at its end changes to `link'`. -/
theorem Around.change (h : m.Around name fs link) (hnodup : (pathNames name fs).Nodup)
    (hroot : m'.root = if fs = [] then link' else m.root)
    (hlabel : ∀ a ∈ pathNames name fs, m'.label a = m.label a ∧ m'.parent a = m.parent a)
    (hchild : ∀ a ∈ pathNames name fs, headName name fs ≠ some a → ∀ d, m'.child d a = m.child d a)
    (hhead : ∀ f gs, fs = f :: gs → m'.child f.side (name f.node) = link' ∧
      m'.child f.side.other (name f.node) = m.child f.side.other (name f.node)) :
    m'.Around name fs link' := by
  induction fs generalizing link link' with
  | nil => simpa [Around] using hroot
  | cons f fs ih =>
    obtain ⟨h1, h2, h3, h4, h5, h6⟩ := h
    simp only [pathNames, List.nodup_cons, List.mem_append, not_or] at hnodup
    obtain ⟨⟨hfu, hffs⟩, hnodup⟩ := hnodup
    simp only [pathNames, List.mem_cons, List.mem_append] at hlabel hchild
    obtain ⟨hf1, hf2⟩ := hhead f fs rfl
    obtain ⟨hl1, hl2⟩ := hlabel (name f.node) (Or.inl rfl)
    have hne : ∀ a, a ∈ names name f.sibling ∨ a ∈ pathNames name fs →
        headName name (f :: fs) ≠ some a := by
      rintro a ha hfa
      cases hfa
      exact ha.elim hfu hffs
    refine ⟨hl1.trans h1, hl2.trans h2, hf1, hf2.trans h4, h5.congr ?_, ?_⟩
    · intro a ha
      exact ⟨(hlabel a (Or.inr (Or.inl ha))).1, (hlabel a (Or.inr (Or.inl ha))).2,
        hchild a (Or.inr (Or.inl ha)) (hne a (Or.inl ha))⟩
    · refine ih h6 (List.Nodup.of_append_right hnodup) ?_ ?_ ?_ ?_
      · cases fs with
        | nil => simpa using hroot.trans h6
        | cons q fs => simpa using hroot
      · exact fun a ha => hlabel a (Or.inr (Or.inr ha))
      · exact fun a ha _ => hchild a (Or.inr (Or.inr ha)) (hne a (Or.inr ha))
      · rintro q gs rfl
        have hq : name q.node ∈ pathNames name (q :: gs) := by simp [pathNames]
        have hsame := hchild (name q.node) (Or.inr (Or.inr hq)) (hne _ (Or.inr hq))
        exact ⟨(hsame _).trans h6.2.2.1, hsame _⟩

end TreeLinks

end Atrace.Lib

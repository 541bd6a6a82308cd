import Atrace.Lib.SearchTree

/-! A subtree with the path to it from the root: sides, frames, plugging, in-order lists. -/
namespace Atrace.Lib

/-- One of the two children of a node. -/
inductive Side where
  | left
  | right
deriving DecidableEq, Repr

namespace Side

def other : Side → Side
  | left => right
  | right => left

variable {α : Type*} {d e : Side}

/-- The one of two things that is on side `d`. -/
def pick (d : Side) (a b : α) : α :=
  match d with
  | left => a
  | right => b

@[simp] theorem other_other : d.other.other = d := by cases d <;> rfl

@[simp] theorem other_ne : d.other ≠ d := by cases d <;> decide

@[simp] theorem ne_other : d ≠ d.other := by cases d <;> decide

theorem eq_other_of_ne (h : e ≠ d) : e = d.other := by
  revert h
  cases d <;> cases e <;> decide

end Side

/-- One ancestor of a subtree: the side the subtree is on, the node, the subtree on the other side. -/
structure Frame (κ : Type*) where
  side : Side
  node : κ
  sibling : BinaryTree κ

namespace TreePath

open SearchTree

variable {κ μ : Type*} {d : Side} {x : κ} {t t' u l r : BinaryTree κ} {f : Frame κ}
  {fs gs : List (Frame κ)} {g : κ → μ}

/-- The node `x` with `t` on side `d` and `u` on the other side. -/
def build (d : Side) (x : κ) (t u : BinaryTree κ) : BinaryTree κ :=
  .node x (d.pick t u) (d.pick u t)

/-- The whole tree, from a subtree and its ancestors, the nearest ancestor first. -/
def plug : List (Frame κ) → BinaryTree κ → BinaryTree κ
  | [], t => t
  | f :: fs, t => plug fs (build f.side f.node t f.sibling)

@[simp] theorem plug_nil : plug [] t = t := rfl

@[simp] theorem plug_cons : plug (f :: fs) t = plug fs (build f.side f.node t f.sibling) := rfl

theorem plug_append : plug (gs ++ fs) t = plug fs (plug gs t) := by
  induction gs generalizing t with
  | nil => rfl
  | cons f gs ih => exact ih

@[simp] theorem build_left : build .left x t u = .node x t u := rfl

@[simp] theorem build_right : build .right x t u = .node x u t := rfl

theorem build_other : build d.other x t u = build d x u t := by cases d <;> rfl

theorem node_eq_build (d : Side) (x : κ) (l r : BinaryTree κ) :
    .node x l r = build d x (d.pick l r) (d.pick r l) := by
  cases d <;> rfl

@[simp] theorem pick_other (a b : BinaryTree κ) : d.other.pick a b = d.pick b a := by
  cases d <;> rfl

/-- What is left of the subtree in the in-order list. -/
def before : List (Frame κ) → List κ
  | [] => []
  | f :: fs => before fs ++ f.side.pick [] (inorder f.sibling ++ [f.node])

/-- What is right of the subtree in the in-order list. -/
def after : List (Frame κ) → List κ
  | [] => []
  | f :: fs => f.side.pick (f.node :: inorder f.sibling) [] ++ after fs

theorem before_append : before (gs ++ fs) = before fs ++ before gs := by
  induction gs with
  | nil => simp [before]
  | cons f gs ih => simp [before, ih]

theorem after_append : after (gs ++ fs) = after gs ++ after fs := by
  induction gs with
  | nil => rfl
  | cons f gs ih => simp [after, ih]

theorem inorder_plug : inorder (plug fs t) = before fs ++ inorder t ++ after fs := by
  induction fs generalizing t with
  | nil => simp [before, after]
  | cons f fs ih =>
    obtain ⟨d, x, u⟩ := f
    rw [plug_cons, ih]
    cases d <;> simp [before, after, inorder, Side.pick]

/-- Every place in the in-order list is a place in the tree. -/
theorem exists_plug_of_inorder {pre post : List κ} (h : inorder t = pre ++ x :: post) :
    ∃ fs l r, plug fs (.node x l r) = t ∧ pre = before fs ++ inorder l ∧
      post = inorder r ++ after fs := by
  induction t generalizing pre post with
  | nil => simp [inorder] at h
  | node y a b iha ihb =>
    rw [inorder, List.append_eq_append_iff] at h
    rcases h with ⟨as, hpre, hb⟩ | ⟨bs, ha, hb⟩
    · cases as with
      | nil =>
        obtain ⟨rfl, rfl⟩ : y = x ∧ inorder b = post := by simpa using hb
        exact ⟨[], a, b, rfl, by simpa [before] using hpre, by simp [after]⟩
      | cons z as =>
        obtain ⟨rfl, hrest⟩ : y = z ∧ inorder b = as ++ x :: post := by simpa using hb
        obtain ⟨fs, l, r, rfl, rfl, rfl⟩ := ihb hrest
        refine ⟨fs ++ [⟨.right, y, a⟩], l, r, by simp [plug_append], ?_, ?_⟩
        · rw [hpre, before_append]
          simp [before, Side.pick]
        · simp [after_append, after, Side.pick]
    · cases bs with
      | nil =>
        obtain ⟨rfl, rfl⟩ : x = y ∧ post = inorder b := by simpa using hb
        exact ⟨[], a, b, rfl, by simpa [before] using ha.symm, by simp [after]⟩
      | cons z bs =>
        obtain ⟨rfl, rfl⟩ : x = z ∧ post = bs ++ y :: inorder b := by simpa using hb
        obtain ⟨fs, l, r, rfl, rfl, rfl⟩ := iha ha
        refine ⟨fs ++ [⟨.left, y, b⟩], l, r, by simp [plug_append], ?_, ?_⟩
        · simp [before_append, before, Side.pick]
        · simp [after_append, after, Side.pick]

theorem length_add_height_le : fs.length + t.height ≤ (plug fs t).height := by
  induction fs generalizing t with
  | nil => simp
  | cons f fs ih =>
    have hstep := ih (t := build f.side f.node t f.sibling)
    have hup : t.height + 1 ≤ (build f.side f.node t f.sibling).height := by
      cases f.side <;> simp [build, Side.pick]
    simp only [List.length_cons, plug_cons]
    omega

theorem height_plug_congr (h : t.height = t'.height) : (plug fs t).height = (plug fs t').height := by
  induction fs generalizing t t' with
  | nil => exact h
  | cons f fs ih =>
    apply ih
    cases f.side <;> simp [build, Side.pick, h]

/-- Subtrees with the same in-order list may stand for each other. -/
theorem inorder_plug_congr (h : (inorder t).map g = (inorder t').map g) :
    (inorder (plug fs t)).map g = (inorder (plug fs t')).map g := by
  simp only [inorder_plug, List.map_append, h]

/-- The first path on the way down to a node that satisfies `p`, in in-order. -/
def locate (p : κ → Bool) : List (Frame κ) → BinaryTree κ →
    Option (κ × BinaryTree κ × BinaryTree κ × List (Frame κ))
  | _, .nil => none
  | fs, .node x l r =>
    match locate p (⟨.left, x, r⟩ :: fs) l with
    | some z => some z
    | none => if p x then some (x, l, r, fs) else locate p (⟨.right, x, l⟩ :: fs) r

theorem locate_some {p : κ → Bool} (h : locate p fs t = some (x, l, r, gs)) :
    plug gs (.node x l r) = plug fs t ∧ p x = true := by
  induction t generalizing fs with
  | nil => cases h
  | node y a b iha ihb =>
    simp only [locate] at h
    split at h
    · rename_i z hz
      cases h
      exact iha hz
    · split at h
      · rename_i hy
        cases h
        exact ⟨rfl, hy⟩
      · exact ihb h

theorem locate_isSome {p : κ → Bool} : (locate p fs t).isSome ↔ ∃ x ∈ inorder t, p x = true := by
  induction t generalizing fs with
  | nil => simp [locate, inorder]
  | node y a b iha ihb =>
    have hl : (locate p (⟨.left, y, b⟩ :: fs) a).isSome ↔ ∃ x ∈ inorder a, p x = true := iha
    simp only [locate, inorder, List.mem_append, List.mem_cons]
    split
    · rename_i z hz
      obtain ⟨x, hx, hp⟩ := hl.mp (by simp [hz])
      simp only [Option.isSome_some, true_iff]
      exact ⟨x, Or.inl hx, hp⟩
    · rename_i hz
      have hnone : ∀ x ∈ inorder a, p x = false := by
        intro x hx
        by_contra hp
        simpa [hz] using hl.mpr ⟨x, hx, by simpa using hp⟩
      split
      · rename_i hy
        simp only [Option.isSome_some, true_iff]
        exact ⟨y, Or.inr (Or.inl rfl), hy⟩
      · rename_i hy
        rw [ihb]
        constructor
        · rintro ⟨x, hx, hp⟩
          exact ⟨x, Or.inr (Or.inr hx), hp⟩
        · rintro ⟨x, hx | rfl | hx, hp⟩
          · simp [hnone x hx] at hp
          · exact absurd hp hy
          · exact ⟨x, hx, hp⟩

/-- The first node in order that satisfies `p` is found where it is. -/
theorem locate_plug {p : κ → Bool} (hbefore : ∀ y ∈ before fs, p y = false)
    (h : (locate p (fs ++ gs) t).isSome) : locate p gs (plug fs t) = locate p (fs ++ gs) t := by
  induction fs generalizing t with
  | nil => rfl
  | cons f fs ih =>
    simp only [before, List.mem_append] at hbefore
    obtain ⟨d, x, u⟩ := f
    have hstep : locate p (fs ++ gs) (build d x t u) = locate p (⟨d, x, u⟩ :: fs ++ gs) t := by
      cases d with
      | left =>
        obtain ⟨z, hz⟩ := Option.isSome_iff_exists.mp h
        simp only [build_left, locate]
        rw [List.cons_append] at hz
        simp [hz]
      | right =>
        have hu : locate p (⟨.left, x, t⟩ :: (fs ++ gs)) u = none := by
          rw [← Option.not_isSome_iff_eq_none, locate_isSome]
          rintro ⟨y, hy, hp⟩
          simp [hbefore y (Or.inr (by simp [Side.pick, hy]))] at hp
        have hx : p x = false := hbefore x (Or.inr (by simp [Side.pick]))
        simp [build_right, locate, hu, hx]
    rw [plug_cons, ih (fun y hy => hbefore y (Or.inl hy)) (by rw [hstep]; exact h), hstep]

section Search

variable {α : Type*} [LinearOrder α] {key : κ → α} {a : α}

/-- The path to the empty link where a node with the key `a` belongs, unless there is one. -/
def descend (key : κ → α) (a : α) : List (Frame κ) → BinaryTree κ → Option (List (Frame κ))
  | fs, .nil => some fs
  | fs, .node x l r =>
    if a < key x then descend key a (⟨.left, x, r⟩ :: fs) l
    else if key x < a then descend key a (⟨.right, x, l⟩ :: fs) r
    else none

theorem descend_plug (h : descend key a fs t = some gs) : plug gs .nil = plug fs t := by
  induction t generalizing fs with
  | nil =>
    cases h
    rfl
  | node x l r ihl ihr =>
    simp only [descend] at h
    split at h
    · exact ihl h
    · split at h
      · exact ihr h
      · cases h

/-- A leaf is hung where the search for its key ends. -/
theorem insert_eq_descend : (SearchTree.insert key x t).map (plug fs) =
    (descend key (key x) fs t).map fun gs => plug gs (.node x .nil .nil) := by
  induction t generalizing fs with
  | nil => rfl
  | node y l r ihl ihr =>
    simp only [SearchTree.insert, descend]
    split
    · rw [← ihl, Option.map_map]
      rfl
    · split
      · rw [← ihr, Option.map_map]
        rfl
      · rfl

end Search

end TreePath

end Atrace.Lib

import Mathlib.Data.Tree.Basic
import Mathlib.Order.Lattice

/-! Binary search trees whose nodes are compared by a key: descent, leaf insertion, in-order list. -/
namespace Atrace.Lib.SearchTree

variable {ν α : Type*} [LinearOrder α] {key key' : ν → α} {a : α} {x y : ν}
  {t t' l r : BinaryTree ν}

/-- The nodes from left to right. -/
def inorder : BinaryTree ν → List ν
  | .nil => []
  | .node x l r => inorder l ++ x :: inorder r

omit [LinearOrder α] in
theorem length_inorder : (inorder t).length = t.numNodes := by
  induction t with
  | nil => rfl
  | node x l r ihl ihr =>
    simp only [inorder, List.length_append, List.length_cons, ihl, ihr, BinaryTree.numNodes]
    omega

/-- The in-order keys are strictly increasing. -/
def Ordered (key : ν → α) (t : BinaryTree ν) : Prop :=
  (inorder t).Pairwise fun x y => key x < key y

/-- Descend from the root to the node with key `a`. -/
def find (key : ν → α) (a : α) : BinaryTree ν → Option ν
  | .nil => none
  | .node x l r =>
    if a < key x then find key a l
    else if key x < a then find key a r
    else some x

/-- Descend to the empty link where `x` belongs and hang a leaf there;
`none` if the key is already present. -/
def insert (key : ν → α) (x : ν) : BinaryTree ν → Option (BinaryTree ν)
  | .nil => some (.node x .nil .nil)
  | .node y l r =>
    if key x < key y then (insert key x l).map fun l => .node y l r
    else if key y < key x then (insert key x r).map fun r => .node y l r
    else none

theorem ordered_node : Ordered key (.node x l r) ↔
    Ordered key l ∧ Ordered key r ∧ (∀ y ∈ inorder l, key y < key x) ∧
      ∀ y ∈ inorder r, key x < key y := by
  simp only [Ordered, inorder, List.pairwise_append, List.pairwise_cons, List.mem_cons]
  constructor
  · rintro ⟨hl, ⟨hxr, hr⟩, hlr⟩
    exact ⟨hl, hr, fun y hy => hlr y hy x (Or.inl rfl), hxr⟩
  · rintro ⟨hl, hr, hlx, hxr⟩
    refine ⟨hl, ⟨hxr, hr⟩, ?_⟩
    rintro y hy z (rfl | hz)
    · exact hlx y hy
    · exact (hlx y hy).trans (hxr z hz)

omit [LinearOrder α] in
theorem find?_eq_none_of_ne [DecidableEq α] {xs : List ν} (h : ∀ y ∈ xs, key y ≠ a) :
    xs.find? (fun y => decide (key y = a)) = none := by
  simpa [List.find?_eq_none] using h

/-- On an ordered tree the descent finds what a scan of the in-order list finds. -/
theorem find_eq_find? (h : Ordered key t) :
    find key a t = (inorder t).find? fun x => decide (key x = a) := by
  induction t with
  | nil => rfl
  | node x l r ihl ihr =>
    obtain ⟨hl, hr, hlx, hxr⟩ := ordered_node.mp h
    simp only [find, inorder, List.find?_append]
    rcases lt_trichotomy a (key x) with ha | rfl | ha
    · have hright : (x :: inorder r).find? (fun x => decide (key x = a)) = none := by
        apply find?_eq_none_of_ne
        rintro y (_ | ⟨_, hy⟩)
        · exact ha.ne'
        · exact (ha.trans (hxr y hy)).ne'
      simp [ha, ihl hl, hright]
    · have hleft : (inorder l).find? (fun y => decide (key y = key x)) = none :=
        find?_eq_none_of_ne fun y hy => (hlx y hy).ne
      simp [hleft]
    · have hleft : (inorder l).find? (fun y => decide (key y = a)) = none :=
        find?_eq_none_of_ne fun y hy => ((hlx y hy).trans ha).ne
      simp [ha, not_lt_of_gt ha, ha.ne, ihr hr, hleft]

/-- The descent of an insertion is the descent of the search for its key. -/
theorem insert_eq_none_iff : insert key x t = none ↔ (find key (key x) t).isSome := by
  induction t with
  | nil => simp [insert, find]
  | node y l r ihl ihr =>
    simp only [insert, find]
    split
    · simpa using ihl
    · split
      · simpa using ihr
      · simp

theorem insert_inorder (h : insert key x t = some t') :
    ∃ pre post, inorder t = pre ++ post ∧ inorder t' = pre ++ x :: post := by
  induction t generalizing t' with
  | nil =>
    cases h
    exact ⟨[], [], rfl, rfl⟩
  | node y l r ihl ihr =>
    simp only [insert] at h
    split at h
    · obtain ⟨l', hl, rfl⟩ := Option.map_eq_some_iff.mp h
      obtain ⟨pre, post, h1, h2⟩ := ihl hl
      exact ⟨pre, post ++ y :: inorder r, by simp [inorder, h1], by simp [inorder, h2]⟩
    · split at h
      · obtain ⟨r', hr, rfl⟩ := Option.map_eq_some_iff.mp h
        obtain ⟨pre, post, h1, h2⟩ := ihr hr
        exact ⟨inorder l ++ y :: pre, post, by simp [inorder, h1], by simp [inorder, h2]⟩
      · cases h

theorem mem_insert (h : insert key x t = some t') :
    y ∈ inorder t' ↔ y = x ∨ y ∈ inorder t := by
  obtain ⟨pre, post, h1, h2⟩ := insert_inorder h
  simp only [h1, h2, List.mem_append, List.mem_cons, or_left_comm]

theorem ordered_insert (ht : Ordered key t) (h : insert key x t = some t') : Ordered key t' := by
  induction t generalizing t' with
  | nil =>
    cases h
    simp [Ordered, inorder]
  | node y l r ihl ihr =>
    obtain ⟨hl, hr, hly, hyr⟩ := ordered_node.mp ht
    simp only [insert] at h
    split at h
    · rename_i hlt
      obtain ⟨l', hl', rfl⟩ := Option.map_eq_some_iff.mp h
      refine ordered_node.mpr ⟨ihl hl hl', hr, ?_, hyr⟩
      intro z hz
      rcases (mem_insert hl').mp hz with rfl | hz
      · exact hlt
      · exact hly z hz
    · split at h
      · rename_i hlt
        obtain ⟨r', hr', rfl⟩ := Option.map_eq_some_iff.mp h
        refine ordered_node.mpr ⟨hl, ihr hr hr', hly, ?_⟩
        intro z hz
        rcases (mem_insert hr').mp hz with rfl | hz
        · exact hlt
        · exact hyr z hz
      · cases h

end Atrace.Lib.SearchTree

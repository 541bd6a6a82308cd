import Mathlib.Data.List.Nodup
import Atrace.Lib.RedBlack

/-! Trees whose nodes hold a datum of their subtrees, and its repair after a balanced insertion or
removal. -/
namespace Atrace.Lib

open SearchTree TreePath

/-- The frame of the tree with `g` applied to its nodes. -/
def Frame.map {κ ν : Type*} (g : κ → ν) (f : Frame κ) : Frame ν :=
  ⟨f.side, g f.node, f.sibling.map g⟩

namespace TreePath

variable {κ ν : Type*} {g : κ → ν} {d : Side} {x : κ} {t u : BinaryTree κ} {fs : List (Frame κ)}
  {ks : List (Frame ν)} {w : BinaryTree ν}

theorem map_build : (build d x t u).map g = build d (g x) (t.map g) (u.map g) := by
  cases d <;> rfl

theorem map_plug : (plug fs t).map g = plug (fs.map (Frame.map g)) (t.map g) := by
  induction fs generalizing t with
  | nil => rfl
  | cons f fs ih =>
    rw [plug_cons, ih, map_build]
    rfl

theorem map_pick (d : Side) (a b : BinaryTree κ) :
    (d.pick a b).map g = d.pick (a.map g) (b.map g) := by
  cases d <;> rfl

theorem inorder_map : inorder (t.map g) = (inorder t).map g := by
  induction t with
  | nil => rfl
  | node x l r ihl ihr => simp [BinaryTree.map, inorder, ihl, ihr]

theorem exists_build_of_map {d : Side} {y : ν} {v : BinaryTree ν} (h : t.map g = build d y w v) :
    ∃ x l r, t = build d x l r ∧ g x = y ∧ l.map g = w ∧ r.map g = v := by
  cases t with
  | nil => cases d <;> cases h
  | node x l r =>
    cases d with
    | left =>
      cases h
      exact ⟨x, l, r, rfl, rfl, rfl, rfl⟩
    | right =>
      cases h
      exact ⟨x, r, l, rfl, rfl, rfl, rfl⟩

/-- A place in the mapped tree is a place in the tree. -/
theorem exists_plug_of_map (h : t.map g = plug ks w) :
    ∃ fs u, t = plug fs u ∧ fs.map (Frame.map g) = ks ∧ u.map g = w := by
  induction ks generalizing w with
  | nil => exact ⟨[], t, rfl, rfl, h⟩
  | cons k ks ih =>
    obtain ⟨fs, b, rfl, rfl, hb⟩ := ih h
    obtain ⟨x, l, r, rfl, hx, rfl, hr⟩ := exists_build_of_map hb
    refine ⟨⟨k.side, x, r⟩ :: fs, l, rfl, ?_, rfl⟩
    simp [Frame.map, hx, hr]

end TreePath

namespace AugmentedTree

variable {ν δ : Type*}

/-- The datum at the root, if there is a root. -/
def rootDatum (γ : ν → δ) : BinaryTree ν → Option δ
  | .nil => none
  | .node a _ _ => some (γ a)

variable (val : ν → Option δ → Option δ → δ)

/-- The datum of every node is the one that belongs to it and to the data of its children. -/
def Augmented (γ : ν → δ) : BinaryTree ν → Prop
  | .nil => True
  | .node a l r => γ a = val a (rootDatum γ l) (rootDatum γ r) ∧ Augmented γ l ∧ Augmented γ r

/-- So it is for every node below the root. -/
def Below (γ : ν → δ) : BinaryTree ν → Prop
  | .nil => True
  | .node _ l r => Augmented val γ l ∧ Augmented val γ r

variable {val} {γ γ' : ν → δ} {t u l r : BinaryTree ν} {a : ν} {d : Side} {f : Frame ν}
  {fs gs hs : List (Frame ν)}

theorem augmented_build : Augmented val γ (build d a t u) ↔
    γ a = val a (rootDatum γ (d.pick t u)) (rootDatum γ (d.pick u t)) ∧ Augmented val γ t ∧
      Augmented val γ u := by
  cases d with
  | left => exact Iff.rfl
  | right =>
    simp only [build_right, Augmented, Side.pick]
    exact and_congr_right fun _ => and_comm

theorem below_build :
    Below val γ (build d a t u) ↔ Augmented val γ t ∧ Augmented val γ u := by
  cases d with
  | left => exact Iff.rfl
  | right => exact and_comm

theorem Augmented.below (h : Augmented val γ t) : Below val γ t := by
  cases t with
  | nil => trivial
  | node a l r => exact h.2

theorem rootDatum_congr (h : ∀ a ∈ inorder t, γ' a = γ a) : rootDatum γ' t = rootDatum γ t := by
  cases t with
  | nil => rfl
  | node a l r => simp [rootDatum, h a (by simp [inorder])]

theorem Augmented.congr (h : Augmented val γ t) (hsame : ∀ a ∈ inorder t, γ' a = γ a) :
    Augmented val γ' t := by
  induction t with
  | nil => trivial
  | node a l r ihl ihr =>
    obtain ⟨ha, hl, hr⟩ := h
    simp only [inorder, List.mem_append, List.mem_cons] at hsame
    have hsl : ∀ b ∈ inorder l, γ' b = γ b := fun b hb => hsame b (Or.inl hb)
    have hsr : ∀ b ∈ inorder r, γ' b = γ b := fun b hb => hsame b (Or.inr (Or.inr hb))
    refine ⟨?_, ihl hl hsl, ihr hr hsr⟩
    rw [hsame a (Or.inr (Or.inl rfl)), rootDatum_congr hsl, rootDatum_congr hsr]
    exact ha

theorem Below.congr (h : Below val γ t) (hsame : ∀ a ∈ inorder t, γ' a = γ a) :
    Below val γ' t := by
  cases t with
  | nil => trivial
  | node a l r =>
    simp only [inorder, List.mem_append, List.mem_cons] at hsame
    exact ⟨h.1.congr fun b hb => hsame b (Or.inl hb),
      h.2.congr fun b hb => hsame b (Or.inr (Or.inr hb))⟩

theorem mem_sibling (hf : f ∈ fs) (ha : a ∈ inorder f.sibling) : a ∈ before fs ∨ a ∈ after fs := by
  induction fs with
  | nil => cases hf
  | cons k fs ih =>
    rcases List.mem_cons.mp hf with rfl | hf
    · cases hside : f.side <;> simp [before, after, hside, Side.pick, ha]
    · rcases ih hf with h | h
      · exact Or.inl (List.mem_append_left _ h)
      · exact Or.inr (List.mem_append_right _ h)

/-- The two subtrees of a node share no node with each other nor with what lies beside the path. -/
theorem nodup_plug_cons (h : (inorder (plug (f :: fs) t)).Nodup) :
    (inorder t).Nodup ∧ (inorder f.sibling).Nodup ∧ List.Disjoint (inorder t) (inorder f.sibling) ∧
      ∀ k ∈ fs, ∀ a ∈ inorder k.sibling, a ∉ inorder t ∧ a ∉ inorder f.sibling := by
  have hparts : (inorder (build f.side f.node t f.sibling)).Nodup ∧
      ∀ a ∈ inorder (build f.side f.node t f.sibling), a ∉ before fs ∧ a ∉ after fs := by
    rw [plug_cons, inorder_plug, List.nodup_append', List.nodup_append'] at h
    obtain ⟨⟨_, hmid, hleft⟩, _, hright⟩ := h
    exact ⟨hmid, fun a ha => ⟨fun hb => hleft hb ha,
      fun hb => hright (List.mem_append_right _ ha) hb⟩⟩
  obtain ⟨hnodup, hpath⟩ := hparts
  have hmem : ∀ a, a ∈ inorder t ∨ a ∈ inorder f.sibling →
      a ∈ inorder (build f.side f.node t f.sibling) := by
    intro a ha
    cases f.side <;> simp only [build_left, build_right, inorder, List.mem_append, List.mem_cons] <;>
      tauto
  refine ⟨?_, ?_, ?_, ?_⟩
  · refine hnodup.sublist ?_
    cases f.side <;> simp [inorder]
  · refine hnodup.sublist ?_
    cases f.side <;> simp [inorder]
  · cases hside : f.side with
    | left =>
      rw [hside, build_left, inorder, List.nodup_append'] at hnodup
      exact fun a ha hb => hnodup.2.2 ha (List.mem_cons_of_mem _ hb)
    | right =>
      rw [hside, build_right, inorder, List.nodup_append'] at hnodup
      exact fun a ha hb => hnodup.2.2 hb (List.mem_cons_of_mem _ ha)
  · intro k hk a ha
    have hside := mem_sibling hk ha
    constructor
    · intro hat
      exact (hpath a (hmem a (Or.inl hat))).elim hside.elim
    · intro hau
      exact (hpath a (hmem a (Or.inr hau))).elim hside.elim

section Refresh

variable [DecidableEq ν]

variable (val) in
/-- Compute the datum of the root anew. -/
def refreshRoot (γ : ν → δ) : BinaryTree ν → ν → δ
  | .nil => γ
  | .node a l r => Function.update γ a (val a (rootDatum γ l) (rootDatum γ r))

variable (val) in
/-- Up the path: compute the data of the node and of its sibling anew. -/
def refresh : (ν → δ) → BinaryTree ν → List (Frame ν) → ν → δ
  | γ, t, [] => refreshRoot val γ t
  | γ, t, f :: fs =>
    refresh (refreshRoot val (refreshRoot val γ t) f.sibling) (build f.side f.node t f.sibling) fs

theorem refreshRoot_other (h : a ∉ inorder t) : refreshRoot val γ t a = γ a := by
  cases t with
  | nil => rfl
  | node b l r =>
    refine Function.update_of_ne ?_ ..
    rintro rfl
    exact h (by simp [inorder])

theorem refreshRoot_augmented (h : Below val γ t) (hnodup : (inorder t).Nodup) :
    Augmented val (refreshRoot val γ t) t := by
  cases t with
  | nil => trivial
  | node a l r =>
    simp only [inorder, List.nodup_append, List.nodup_cons, List.mem_cons] at hnodup
    obtain ⟨_, ⟨har, _⟩, hdisj⟩ := hnodup
    have hsame : ∀ b, b ≠ a → refreshRoot val γ (.node a l r) b = γ b :=
      fun b hb => Function.update_of_ne hb ..
    have hl : ∀ b ∈ inorder l, refreshRoot val γ (.node a l r) b = γ b :=
      fun b hb => hsame b (hdisj b hb a (Or.inl rfl))
    have hr : ∀ b ∈ inorder r, refreshRoot val γ (.node a l r) b = γ b := by
      intro b hb
      refine hsame b ?_
      rintro rfl
      exact har hb
    refine ⟨?_, h.1.congr hl, h.2.congr hr⟩
    rw [rootDatum_congr hl, rootDatum_congr hr]
    exact Function.update_self ..

/-- A second look at the same node changes nothing. -/
theorem refreshRoot_again (hnodup : (inorder t).Nodup) :
    refreshRoot val (refreshRoot val γ t) t = refreshRoot val γ t := by
  cases t with
  | nil => rfl
  | node a l r =>
    simp only [inorder, List.nodup_append, List.nodup_cons, List.mem_cons] at hnodup
    obtain ⟨_, ⟨har, _⟩, hdisj⟩ := hnodup
    have hl : rootDatum (refreshRoot val γ (.node a l r)) l = rootDatum γ l :=
      rootDatum_congr fun b hb => Function.update_of_ne (hdisj b hb a (Or.inl rfl)) ..
    have hr : rootDatum (refreshRoot val γ (.node a l r)) r = rootDatum γ r := by
      refine rootDatum_congr fun b hb => Function.update_of_ne ?_ ..
      rintro rfl
      exact har hb
    simp only [refreshRoot] at hl hr ⊢
    rw [hl, hr, Function.update_idem]

/-- The nodes off the tree keep their data. -/
theorem refresh_other (h : a ∉ inorder (plug fs t)) : refresh val γ t fs a = γ a := by
  induction fs generalizing γ t with
  | nil => exact refreshRoot_other h
  | cons f fs ih =>
    have hmem : a ∉ inorder (build f.side f.node t f.sibling) := by
      rw [plug_cons, inorder_plug] at h
      exact fun hm => h (by simp [hm])
    have hparts : a ∉ inorder t ∧ a ∉ inorder f.sibling := by
      cases hside : f.side <;> rw [hside] at hmem <;> simp [inorder] at hmem <;> tauto
    rw [refresh, ih h, refreshRoot_other hparts.2, refreshRoot_other hparts.1]

/-- If all that is stale lies on the path or right beside it, nothing is afterwards. -/
theorem refresh_augmented (hnodup : (inorder (plug fs t)).Nodup) (ht : Below val γ t)
    (hfs : ∀ f ∈ fs, Below val γ f.sibling) : Augmented val (refresh val γ t fs) (plug fs t) := by
  induction fs generalizing γ t with
  | nil => exact refreshRoot_augmented ht hnodup
  | cons f fs ih =>
    obtain ⟨hnt, hnu, hdisj, hpath⟩ := nodup_plug_cons hnodup
    have hu : Below val (refreshRoot val γ t) f.sibling :=
      (hfs f List.mem_cons_self).congr fun b hb => refreshRoot_other fun hbt => hdisj hbt hb
    have ht' : Augmented val (refreshRoot val (refreshRoot val γ t) f.sibling) t :=
      (refreshRoot_augmented ht hnt).congr fun b hb => refreshRoot_other (hdisj hb)
    refine ih hnodup (below_build.mpr ⟨ht', refreshRoot_augmented hu hnu⟩) ?_
    intro k hk
    refine (hfs k (List.mem_cons_of_mem f hk)).congr fun b hb => ?_
    obtain ⟨hbt, hbu⟩ := hpath k hk b hb
    rw [refreshRoot_other hbu, refreshRoot_other hbt]

end Refresh

section Repair

open RedBlack

variable {κ : Type*} [Painted κ] {g : κ → ν} {x p : κ} {t u v s : BinaryTree κ}
  {b t' u' : BinaryTree ν} {k : Frame κ} {ks : List (Frame κ)}

/-- Beside the path nothing is stale but top nodes, and nothing at all beside its first step. -/
structure Loose (val : ν → Option δ → Option δ → δ) (γ : ν → δ) (fs : List (Frame ν)) : Prop where
  head : ∀ f gs, fs = f :: gs → Augmented val γ f.sibling
  below : ∀ f ∈ fs, Below val γ f.sibling

/-- The parent of the subtree at the end of a path. -/
def headNode : List (Frame ν) → Option ν
  | [] => none
  | f :: _ => some f.node

/-- Nothing is stale beside the path. -/
def Fresh (val : ν → Option δ → Option δ → δ) (γ : ν → δ) (fs : List (Frame ν)) : Prop :=
  ∀ f ∈ fs, Augmented val γ f.sibling

theorem Fresh.loose (h : Fresh val γ fs) : Loose val γ fs :=
  ⟨fun f gs hfs => h f (by simp [hfs]), fun f hf => (h f hf).below⟩

theorem fresh_append : Fresh val γ (hs ++ fs) ↔ Fresh val γ hs ∧ Fresh val γ fs := by
  simp [Fresh, or_imp, forall_and]

theorem fresh_nil : Fresh val γ [] := fun _ hf => nomatch hf

theorem fresh_cons : Fresh val γ (f :: fs) ↔ Augmented val γ f.sibling ∧ Fresh val γ fs := by
  simp [Fresh]

theorem Fresh.append_loose (h : Fresh val γ hs) (hl : Loose val γ fs) : Loose val γ (hs ++ fs) := by
  constructor
  · rintro f gs he
    cases hs with
    | nil => exact hl.head f gs he
    | cons k hs =>
      cases he
      exact h _ List.mem_cons_self
  · intro f hf
    rcases List.mem_append.mp hf with hf | hf
    · exact (h f hf).below
    · exact hl.below f hf

theorem headNode_append {f' : Frame ν} (h : f.node = f'.node) :
    headNode (hs ++ f :: fs) = headNode (hs ++ f' :: gs) := by
  cases hs with
  | nil => exact congrArg some h
  | cons k hs => rfl

/-- Two steps up a path that is fresh from there on. -/
theorem Fresh.loose_cons {e : Side} {y q : ν} {near far : BinaryTree ν} (h : Fresh val γ fs)
    (hnear : Augmented val γ near) (hfar : Below val γ far) :
    Loose val γ (⟨d, y, near⟩ :: ⟨e, q, far⟩ :: fs) := by
  constructor
  · rintro f gs he
    cases he
    exact hnear
  · rintro f (_ | ⟨_, _ | ⟨_, hf⟩⟩)
    · exact hnear.below
    · exact hfar
    · exact (h f hf).below

theorem augmented_pick (h : Augmented val γ (.node a t' u')) (d : Side) :
    Augmented val γ (d.pick t' u') ∧ Augmented val γ (d.pick u' t') := by
  cases d with
  | left => exact h.2
  | right => exact h.2.symm

/-- Off the subtree and inside it nothing is stale in a tree with the right data. -/
theorem augmented_plug (h : Augmented val γ (plug fs b)) : Augmented val γ b ∧ Fresh val γ fs := by
  induction fs generalizing b with
  | nil => exact ⟨h, fresh_nil⟩
  | cons f fs ih =>
    obtain ⟨hbuild, hfs⟩ := ih h
    obtain ⟨_, hb, hf⟩ := augmented_build.mp hbuild
    exact ⟨hb, fresh_cons.mpr ⟨hf, hfs⟩⟩

variable (hg : ∀ c x, g (Painted.paint c x) = g x)

include hg

theorem map_paintRoot {c : Bool} : (paintRoot c t).map g = t.map g := by
  cases t with
  | nil => rfl
  | node x l r => simp [BinaryTree.map, hg]

theorem borrow_inl_map (h : borrow d p t s = some (.inl v)) :
    v.map g = build d (g p) (t.map g) (s.map g) := by
  cases s with
  | nil => cases h
  | node s l r =>
    simp only [borrow] at h
    split at h
    · cases h
      simp [map_build, BinaryTree.map, hg]
    · split at h
      · cases h
      · split at h <;> cases h

/-- What makes up for the shortage is stale at the top of the far side at most. -/
theorem borrow_inr_map (h : borrow d p t s = some (.inr v)) (hs : Augmented val γ (s.map g)) :
    ∃ near q far, v.map g = build d q (build d (g p) (t.map g) near) far ∧
      Augmented val γ near ∧ Below val γ far := by
  cases s with
  | nil => cases h
  | node s l r =>
    have hpick := augmented_pick hs d
    rw [← map_pick, ← map_pick] at hpick
    simp only [borrow] at h
    split at h
    · cases h
    · split at h
      · cases h
        refine ⟨(d.pick l r).map g, g s, (d.pick r l).map g, ?_, hpick.1, hpick.2.below⟩
        simp [map_build, map_paintRoot hg, hg]
      · split at h
        · cases h
        · rename_i x a b hnear
          cases h
          rw [hnear] at hpick
          have hx := augmented_pick hpick.1 d
          rw [← map_pick, ← map_pick] at hx
          refine ⟨(d.pick a b).map g, g x, build d (g s) ((d.pick b a).map g) ((d.pick r l).map g),
            ?_, hx.1, below_build.mpr ⟨hx.2, hpick.2⟩⟩
          simp [map_build, hg]

/-- The repair of a shortage leaves the subtree `b` in a place where little beside the path to it is
stale. -/
theorem fixBlack_loose (hs : List (Frame ν)) (h : fixBlack t ks = some u) (ht : t.map g = plug hs b)
    (hhs : Fresh val γ hs) (hks : Fresh val γ (ks.map (Frame.map g))) :
    ∃ gs, u.map g = plug gs b ∧ headNode gs = headNode (hs ++ ks.map (Frame.map g)) ∧
      Loose val γ gs := by
  induction ks generalizing t hs with
  | nil =>
    cases h
    exact ⟨hs, (map_paintRoot hg).trans ht, by simp, hhs.loose⟩
  | cons k ks ih =>
    obtain ⟨hk, hks'⟩ := fresh_cons.mp hks
    simp only [fixBlack] at h
    split at h
    · cases h
      refine ⟨hs ++ (k :: ks).map (Frame.map g), ?_, rfl, (hhs.append_loose hks.loose)⟩
      rw [map_plug, map_paintRoot hg, ht, plug_append]
    split at h
    · cases h
    rename_i s l r hsib
    rw [Frame.map, hsib] at hk
    have hpick := augmented_pick hk k.side
    rw [← map_pick, ← map_pick] at hpick
    have hred : Fresh val γ ((⟨k.side, g s, (k.side.pick r l).map g⟩ : Frame ν) ::
        ks.map (Frame.map g)) := fresh_cons.mpr ⟨hpick.2, hks'⟩
    split at h
    · split at h
      · cases h
      · rename_i v hv
        cases h
        refine ⟨hs ++ ⟨k.side, g k.node, (k.side.pick l r).map g⟩ ::
          ⟨k.side, g s, (k.side.pick r l).map g⟩ :: ks.map (Frame.map g), ?_,
          headNode_append rfl, hhs.append_loose (fresh_cons.mpr ⟨hpick.1, hred⟩).loose⟩
        rw [map_plug, map_paintRoot hg, borrow_inl_map hg hv, ht, plug_append]
        simp [Frame.map, hg]
      · rename_i v hv
        cases h
        obtain ⟨near, q, far, hvmap, hnear, hfar⟩ := borrow_inr_map hg hv hpick.1
        refine ⟨hs ++ ⟨k.side, g k.node, near⟩ :: ⟨k.side, q, far⟩ ::
          ⟨k.side, g s, (k.side.pick r l).map g⟩ :: ks.map (Frame.map g), ?_,
          headNode_append rfl, hhs.append_loose (hred.loose_cons hnear hfar)⟩
        rw [map_paintRoot hg, map_plug, hvmap, ht, plug_append]
        simp [Frame.map, hg]
    · split at h
      · cases h
      · rename_i v hv
        have hv' : v.map g = plug (hs ++ [⟨k.side, g k.node, (BinaryTree.node s l r).map g⟩]) b := by
          rw [borrow_inl_map hg hv, ht, plug_append]
          rfl
        have hhs' := fresh_append.mpr ⟨hhs, fresh_cons.mpr ⟨hk, fresh_nil⟩⟩
        obtain ⟨gs, hu, hhead, hloose⟩ := ih _ h hv' hhs' hks'
        refine ⟨gs, hu, hhead.trans ?_, hloose⟩
        rw [List.append_assoc]
        exact headNode_append rfl
      · rename_i v hv
        cases h
        obtain ⟨near, q, far, hvmap, hnear, hfar⟩ := borrow_inr_map hg hv hk
        refine ⟨hs ++ ⟨k.side, g k.node, near⟩ :: ⟨k.side, q, far⟩ :: ks.map (Frame.map g), ?_,
          headNode_append rfl, hhs.append_loose (hks'.loose_cons hnear hfar)⟩
        rw [map_paintRoot hg, map_plug, hvmap, ht, plug_append]
        rfl

/-- Where the update after an insertion starts: at the leaf, or at its left child if it has
children. -/
def StartsAt (a : ν) (w : BinaryTree ν) (fs : List (Frame ν)) : Prop :=
  w = .node a .nil .nil ∨ ∃ v gs, fs = ⟨.left, a, v⟩ :: gs ∧ w ≠ .nil

/-- The repair of a red leaf leaves little stale beside the path to it. -/
theorem fixRed_below (hs : List (Frame ν)) (h : fixRed t ks = some u)
    (ht : t.map g = plug hs (.node a .nil .nil)) (hhs : Fresh val γ hs) (hks : Fresh val γ (ks.map (Frame.map g))) :
    ∃ gs w, u.map g = plug gs w ∧ Below val γ w ∧ (∀ f ∈ gs, Below val γ f.sibling) ∧
      StartsAt a w gs := by
  -- the path to the leaf, once it is at its place
  have hleaf : ∀ {u : BinaryTree κ} gs, u.map g = plug gs (.node a .nil .nil) →
      (∀ f ∈ gs, Below val γ f.sibling) → ∃ gs w, u.map g = plug gs w ∧ Below val γ w ∧
        (∀ f ∈ gs, Below val γ f.sibling) ∧ StartsAt a w gs :=
    fun _ hu hgs => ⟨_, _, hu, ⟨trivial, trivial⟩, hgs, Or.inl rfl⟩
  induction t, ks using fixRed.induct generalizing hs with
  | case1 t =>
    cases h
    exact hleaf hs ht hhs.loose.below
  | case2 t f hf => simp [fixRed, hf] at h
  | case3 t f hf =>
    obtain rfl : plug [f] t = u := by simpa [fixRed, hf] using h
    refine hleaf (hs ++ [f.map g]) ?_ (hhs.append_loose hks.loose).below
    rw [map_plug, ht, plug_append]
    rfl
  | case4 t f q fs hf hq ih =>
    obtain ⟨hfs, hks'⟩ := fresh_cons.mp hks
    obtain ⟨hqs, hrest⟩ := fresh_cons.mp hks'
    refine ih (hs ++ [f.map g, q.map g]) (by simpa [fixRed, hf, hq] using h) ?_ ?_ hrest
    · rw [map_build, map_build, map_paintRoot hg, hg, hg, ht, plug_append]
      rfl
    · exact fresh_append.mpr ⟨hhs, fresh_cons.mpr ⟨hfs, fresh_cons.mpr ⟨hqs, fresh_nil⟩⟩⟩
  | case5 t f q fs hf hq hside =>
    obtain rfl := Option.some.inj (by simpa [fixRed, hf, hq, hside] using h)
    obtain ⟨hfs, hks'⟩ := fresh_cons.mp hks
    obtain ⟨hqs, hrest⟩ := fresh_cons.mp hks'
    refine hleaf (hs ++ ⟨q.side, g f.node, build q.side (g q.node) (f.sibling.map g)
      (q.sibling.map g)⟩ :: fs.map (Frame.map g)) ?_ ?_
    · rw [map_plug, map_build, map_build, hg, hg, ht, plug_append]
      rfl
    · exact List.forall_mem_append.mpr ⟨hhs.loose.below, List.forall_mem_cons.mpr
        ⟨below_build.mpr ⟨hfs, hqs⟩, hrest.loose.below⟩⟩
  | case6 f q fs hf hq hside => simp [fixRed, hf, hq, hside] at h
  | case7 f q fs hf hq hside x l r =>
    obtain rfl := Option.some.inj (by simpa [fixRed, hf, hq, hside] using h)
    obtain ⟨hfs, hks'⟩ := fresh_cons.mp hks
    obtain ⟨hqs, hrest⟩ := fresh_cons.mp hks'
    rcases List.eq_nil_or_concat hs with rfl | ⟨hs, k, rfl⟩
    · -- the leaf itself was lifted over its parent and grandparent
      cases l with
      | node y a b => cases ht
      | nil =>
        cases r with
        | node y a b => cases ht
        | nil =>
          cases ht
          have hf' : Below val γ (build q.side (g f.node) (f.sibling.map g) .nil) :=
            below_build.mpr ⟨hfs, trivial⟩
          have hq' : Below val γ (build q.side (g q.node) .nil (q.sibling.map g)) :=
            below_build.mpr ⟨trivial, hqs⟩
          cases hd : q.side with
          | left =>
            rw [hd] at hf' hq'
            refine ⟨⟨.left, g x, _⟩ :: fs.map (Frame.map g), _, ?_, hf',
              List.forall_mem_cons.mpr ⟨hq', hrest.loose.below⟩, Or.inr ⟨_, _, rfl, by rintro ⟨⟩⟩⟩
            simp [map_plug, BinaryTree.map, Side.pick, hg]
          | right =>
            rw [hd] at hf' hq'
            refine ⟨⟨.left, g x, _⟩ :: fs.map (Frame.map g), _, ?_, hq',
              List.forall_mem_cons.mpr ⟨hf', hrest.loose.below⟩, Or.inr ⟨_, _, rfl, by rintro ⟨⟩⟩⟩
            simp [map_plug, BinaryTree.map, Side.pick, hg]
    · rw [List.concat_eq_append] at hhs ht
      obtain ⟨hhs, hk⟩ := fresh_append.mp hhs
      replace hk : Augmented val γ k.sibling := hk k List.mem_cons_self
      have hpick : (k.side.pick l r).map g = plug hs (.node a .nil .nil) ∧
          (k.side.pick r l).map g = k.sibling := by
        rw [plug_append, plug_cons, plug_nil] at ht
        cases hd : k.side <;> rw [hd] at ht <;> injection ht with _ hl hr
        · exact ⟨hl, hr⟩
        · exact ⟨hr, hl⟩
      by_cases hd : k.side = q.side
      · rw [hd] at hpick
        refine hleaf (hs ++ ⟨q.side.other, g f.node, f.sibling.map g⟩ ::
          ⟨q.side, g x, build q.side (g q.node) k.sibling (q.sibling.map g)⟩ ::
            fs.map (Frame.map g)) ?_ ?_
        · rw [plug_append, plug_cons, plug_cons, ← hpick.1, build_other]
          simp [map_plug, map_build, hg, hpick.2]
        · exact (hhs.append_loose (hrest.loose_cons hfs (below_build.mpr ⟨hk, hqs⟩))).below
      · rw [Side.eq_other_of_ne hd] at hpick
        simp only [pick_other] at hpick
        refine hleaf (hs ++ ⟨q.side, g q.node, q.sibling.map g⟩ ::
          ⟨q.side.other, g x, build q.side (g f.node) (f.sibling.map g) k.sibling⟩ ::
            fs.map (Frame.map g)) ?_ ?_
        · rw [plug_append, plug_cons, plug_cons, ← hpick.1, build_other]
          simp [map_plug, map_build, hg, hpick.2]
        · exact (hhs.append_loose (hrest.loose_cons hqs (below_build.mpr ⟨hfs, hk⟩))).below
  | case8 t f q fs hf =>
    obtain rfl := Option.some.inj (by simpa [fixRed, hf] using h)
    refine hleaf (hs ++ (f :: q :: fs).map (Frame.map g)) ?_
      (hhs.append_loose hks.loose).below
    rw [← plug_cons, ← plug_cons, map_plug, ht, plug_append]

theorem insertColor_below (h : insertColor (.node x .nil .nil) ks = some u)
    (hks : Fresh val γ (ks.map (Frame.map g))) :
    ∃ gs w, u.map g = plug gs w ∧ Below val γ w ∧ (∀ f ∈ gs, Below val γ f.sibling) ∧
      StartsAt (g x) w gs := by
  obtain ⟨v, hv, rfl⟩ := Option.map_eq_some_iff.mp h
  rw [map_paintRoot hg]
  exact fixRed_below hg [] hv rfl fresh_nil hks

theorem splice_loose (h : splice x t ks = some u) (hks : Fresh val γ (ks.map (Frame.map g))) :
    ∃ gs, u.map g = plug gs (t.map g) ∧ headNode gs = headNode (ks.map (Frame.map g)) ∧
      Loose val γ gs := by
  rw [splice] at h
  split at h
  · cases h
    exact ⟨_, map_plug, rfl, hks.loose⟩
  · exact fixBlack_loose hg [] h rfl fresh_nil hks

end Repair

end AugmentedTree

end Atrace.Lib

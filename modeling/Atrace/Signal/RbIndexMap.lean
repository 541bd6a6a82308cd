import Atrace.Signal.RbIndex
import Atrace.Signal.RbOperations

/-! The index in memory is a red-black tree after every call and answers as the finite map does. -/
namespace Atrace.Signal

open Atrace.Lib Atrace.Lib.TreePath Atrace.Lib.RedBlack Painted
open Atrace.Lib.TreeLinks (names rootName headName pathNames Footprint)
open Atrace.Lib.Calls (run LegalRun Agrees run_agrees)

namespace RbTree

variable {ε : Type*} {x : RbNode ε} {l r root u : RbTree ε} {fs : List (Frame (RbNode ε))} {e : ε}

theorem entries_plug : entries (plug fs (.node x l r)) =
    ((before fs).map RbNode.entry ++ entries l) ++
      x.entry :: (entries r ++ (after fs).map RbNode.entry) := by
  simp [entries, inorder_plug, SearchTree.inorder]

variable [DecidableEq ε]

/-- `rb_insert_color` on the tree that links the node of an entry. -/
def insertColor (e : ε) (root : RbTree ε) : RbTree ε :=
  match locate (fun n => n.entry = e) [] root with
  | some (x, l, r, fs) => (RedBlack.insertColor (.node x l r) fs).getD root
  | none => root

/-- `rb_erase` on the tree that links the node of an entry. -/
def erase (e : ε) (root : RbTree ε) : RbTree ε :=
  match locate (fun n => n.entry = e) [] root with
  | some (x, l, r, fs) => (eraseAt x fs l r).getD (unlink e root)
  | none => root

theorem locate_entry (h : e ∈ root.entries) : ∃ x l r fs,
    locate (fun n => decide (n.entry = e)) [] root = some (x, l, r, fs) ∧ x.entry = e ∧
      plug fs (.node x l r) = root := by
  obtain ⟨n, hn, hne⟩ := List.mem_map.mp h
  obtain ⟨⟨x, l, r, fs⟩, hz⟩ := Option.isSome_iff_exists.mp
    (locate_isSome (p := fun n => decide (n.entry = e)) |>.mpr ⟨n, hn, decide_eq_true hne⟩)
  obtain ⟨hplug, hx⟩ := locate_some hz
  exact ⟨x, l, r, fs, hz, of_decide_eq_true hx, hplug⟩

theorem entries_insertColor (e : ε) (root : RbTree ε) :
    (insertColor e root).entries = root.entries := by
  rw [insertColor]
  split
  · rename_i x l r fs hz
    cases hu : RedBlack.insertColor (.node x l r) fs with
    | none => rfl
    | some u =>
      rw [Option.getD_some, entries, insertColor_inorder entry_paint hu, (locate_some hz).1]
      rfl
  · rfl

theorem entries_eraseAt (h : eraseAt x fs l r = some u)
    (hnodup : (entries (plug fs (.node x l r))).Nodup) :
    entries u = (entries (plug fs (.node x l r))).erase x.entry := by
  rw [entries_plug] at hnodup ⊢
  have hnot : x.entry ∉ (before fs).map RbNode.entry ++ entries l :=
    fun hm => (List.nodup_append.mp hnodup).2.2 _ hm _ List.mem_cons_self rfl
  rw [List.erase_append_right _ hnot, List.erase_cons_head, entries, eraseAt_inorder entry_paint h]
  simp [entries]

theorem entries_erase (e : ε) (root : RbTree ε) (he : e ∈ root.entries)
    (hnodup : root.entries.Nodup) : (erase e root).entries = root.entries.erase e := by
  obtain ⟨x, l, r, fs, hz, rfl, rfl⟩ := locate_entry he
  simp only [erase, hz]
  cases hu : eraseAt x fs l r with
  | none => exact entries_unlink _ _
  | some u => exact entries_eraseAt hu hnodup

end RbTree

/-- What `rb_insert_color` and `rb_erase` of `rbtree.c` do to the tree. -/
def RbLib.redBlack {ε : Type*} [DecidableEq ε] : RbLib ε where
  rbInsertColor := RbTree.insertColor
  rbErase := RbTree.erase
  insertColor_entries := RbTree.entries_insertColor
  erase_entries := RbTree.entries_erase

namespace RbMemory

variable {ε : Type*} {rb : RbMember ε} {m m' : RbMemory} {root u : RbTree ε} {e : ε}
  {S : Set NodePtr} {fs : List (Frame (RbNode ε))}

theorem mem_entries_of_names (h : rb.rbNode e ∈ names rb.nameOf root) : e ∈ root.entries := by
  obtain ⟨n, hn, hne⟩ := List.mem_map.mp h
  exact List.mem_map.mpr ⟨n, hn, rb.rbNode_injective hne⟩

/-- A node in the tree is not its own parent. -/
theorem Represents.rbEmptyNode [DecidableEq ε] (h : m.Represents rb root) (he : e ∈ root.entries) :
    m.rbEmptyNode (rb.rbNode e) = false := by
  obtain ⟨x, l, r, fs, _, rfl, rfl⟩ := RbTree.locate_entry he
  have hshape := TreeLinks.represents_plug.mp h
  have hparent : m.rbParent (rb.nameOf x) = headName rb.nameOf fs := hshape.hangs.2.1
  have hnot : headName rb.nameOf fs ≠ some (rb.nameOf x) := by
    intro hhead
    exact (List.nodup_append.mp hshape.nodup).2.2 _ (by simp) _ (TreeLinks.headName_mem hhead) rfl
  rw [RbMemory.rbEmptyNode, beq_eq_false_iff_ne, ne_eq]
  exact hparent ▸ hnot

/-- Nodes off the footprint stay empty, or stay what they are. -/
theorem Place.rbEmptyNode (h : m'.Place rb ⟨m.links rb, S⟩ fs u) (he : rb.rbNode e ∉ S) :
    m'.rbEmptyNode (rb.rbNode e) = m.rbEmptyNode (rb.rbNode e) := by
  have hparent : m'.rbParent (rb.rbNode e) = m.rbParent (rb.rbNode e) := (h.outside _ he).2.1
  rw [RbMemory.rbEmptyNode, RbMemory.rbEmptyNode, hparent]

end RbMemory

namespace RbIndex

variable {ε : Type} {rb : RbMember ε} {t t' : RbIndex ε} {s s' : BpIndex ε} {e : ε} {addr : Addr}
  {fuel : Nat}

/-- The nodes in memory make up the tree of the index, a red-black tree. -/
structure Represents (rb : RbMember ε) (t : RbIndex ε) (s : BpIndex ε) : Prop where
  tree : t.memory.Represents rb s.root
  address : t.address = s.address
  emptyNode : ∀ e, t.memory.rbEmptyNode (rb.rbNode e) = s.emptyNode e
  balanced : ∃ n, Balanced false n s.root

variable [DecidableEq ε]

/-- The nodes of the tree, with the node of one more entry. -/
def nodesWith (rb : RbMember ε) (s : BpIndex ε) (e : ε) : Set NodePtr :=
  {n | n ∈ names rb.nameOf s.root ∨ n = rb.rbNode e}

omit [DecidableEq ε] in
theorem Represents.place (h : Represents rb t s) (e : ε) :
    t.memory.Place rb ⟨t.memory.links rb, nodesWith rb s e⟩ [] s.root :=
  TreeLinks.Place.of_shape h.tree fun a ha => by simpa [nodesWith, pathNames] using Or.inl ha

omit [DecidableEq ε] in
/-- An entry that is neither linked nor at hand is off the footprint. -/
theorem not_mem_nodesWith {x : ε} (hx : x ∉ s.root.entries) (hxe : x ≠ e) :
    rb.rbNode x ∉ nodesWith rb s e := by
  rintro (hmem | hmem)
  · exact hx (RbMemory.mem_entries_of_names hmem)
  · exact hxe (rb.rbNode_injective hmem)

/-- The repair above a new leaf of a red-black tree succeeds. -/
theorem insertColor_leaf {gs : List (Frame (RbNode ε))} {n : Nat}
    (hbal : Balanced false n (plug gs .nil)) (he : e ∉ RbTree.entries (plug gs .nil)) :
    ∃ u k, RedBlack.insertColor (.node ⟨e, .red⟩ .nil .nil) gs = some u ∧ Balanced false k u ∧
      RbTree.insertColor e (plug gs (.node ⟨e, .red⟩ .nil .nil)) = u := by
  obtain ⟨u, k, hins, hk⟩ :=
    insertColor_balanced (x := (⟨e, .red⟩ : RbNode ε)) (fits_iff.mpr ⟨n, hbal⟩) rfl
  have hbefore : ∀ y ∈ before gs, decide (y.entry = e) = false := by
    intro y hy
    apply decide_eq_false
    rintro rfl
    apply he
    simp only [RbTree.entries, inorder_plug, List.map_append, List.mem_append]
    exact Or.inl (Or.inl (List.mem_map_of_mem hy))
  have hleaf : locate (fun n : RbNode ε => decide (n.entry = e)) (gs ++ [])
      (.node ⟨e, .red⟩ .nil .nil) = some (⟨e, .red⟩, .nil, .nil, gs) := by
    simp [locate]
  have hlocate := locate_plug hbefore (by rw [hleaf]; rfl)
  exact ⟨u, k, hins, hk, by simp [RbTree.insertColor, hlocate.trans hleaf, hins]⟩

/-- Links of other entries change only inside of the tree. -/
theorem emptyNode_of_place {m' : RbMemory} {u : RbTree ε} {x : ε} (h : Represents rb t s)
    (hs : s.WellFormed) (hm' : m'.Place rb ⟨t.memory.links rb, nodesWith rb s e⟩ [] u) (hx : x ≠ e)
    (hu : x ∈ u.entries ↔ x ∈ s.root.entries) : m'.rbEmptyNode (rb.rbNode x) = s.emptyNode x := by
  by_cases hlinked : x ∈ s.root.entries
  · rw [RbMemory.Represents.rbEmptyNode hm'.shape (hu.mpr hlinked), (hs.linked x).mpr hlinked]
  · rw [RbMemory.Place.rbEmptyNode hm' (not_mem_nodesWith hlinked hx), h.emptyNode]

theorem represents_of_place {m' : RbMemory} {u : RbTree ε} {b : Bool} {k : Nat}
    (h : Represents rb t s) (hs : s.WellFormed)
    (hm' : m'.Place rb ⟨t.memory.links rb, nodesWith rb s e⟩ [] u) (hk : Balanced false k u)
    (hu : ∀ x, x ≠ e → (x ∈ u.entries ↔ x ∈ s.root.entries))
    (he : m'.rbEmptyNode (rb.rbNode e) = b) : Represents rb ⟨m', t.address⟩
      { s with root := u, emptyNode := Function.update s.emptyNode e b } where
  tree := hm'.shape
  address := h.address
  emptyNode x := by
    by_cases hx : x = e
    · subst hx
      simp [he]
    · simp [hx, emptyNode_of_place h hs hm' hx (hu x hx)]
  balanced := ⟨k, hk⟩

theorem represents_insert (h : Represents rb t s) (hs : s.WellFormed)
    (hfuel : s.root.height < fuel) :
    Agrees (Represents rb) (fun _ => .assertion) (t.breakpointRbInsertInternal rb e fuel)
      (s.breakpointRbInsertInternal .redBlack e) := by
  cases hempty : s.emptyNode e with
  | false =>
    simp [breakpointRbInsertInternal, BpIndex.breakpointRbInsertInternal, h.emptyNode, hempty, Agrees]
  | true =>
    have hnot : e ∉ s.root.entries := by
      rw [← hs.linked, hempty]
      simp
    have hplace := h.place e
    have hkey : s.key ⟨e, .red⟩ = (t.address e).toNat := by rw [h.address]; rfl
    have hdown : t.descendLoop rb (t.address e) none none fuel = _ :=
      descendLoop_place hplace h.address hfuel
    have hleaf : (SearchTree.insert s.key ⟨e, .red⟩ s.root).map (plug []) =
        (descend s.key (t.address e).toNat [] s.root).map fun gs =>
          plug gs (.node ⟨e, .red⟩ .nil .nil) := by
      rw [← hkey]
      exact insert_eq_descend
    cases hgs : descend s.key (t.address e).toNat [] s.root with
    | none =>
      rw [hgs, Option.map_none, Option.map_eq_none_iff] at hleaf
      rw [hgs] at hdown
      simp only [breakpointRbInsertInternal, BpIndex.breakpointRbInsertInternal, h.emptyNode, hempty,
        if_true, hdown, hleaf, Option.map_none, ok_bind]
      exact ⟨t, rfl, h⟩
    | some gs =>
      have hroot : plug gs .nil = s.root := descend_plug hgs
      obtain ⟨root, hins, hplug⟩ : ∃ root, SearchTree.insert s.key ⟨e, .red⟩ s.root = some root ∧
          root = plug gs (.node ⟨e, .red⟩ .nil .nil) := by
        simpa [hgs] using hleaf
      subst hplug
      rw [hgs] at hdown
      obtain ⟨n, hn⟩ := h.balanced
      rw [← hroot] at hn hnot hplace
      obtain ⟨u, k, hfix, hk, rfl⟩ := insertColor_leaf hn hnot
      have hpath : rb.rbNode e ∉ pathNames rb.nameOf gs := fun hm =>
        hnot (RbMemory.mem_entries_of_names (TreeLinks.mem_names_plug.mpr (Or.inr hm)))
      have hlinked := RbMemory.Place.rbLinkNode (TreeLinks.Place.plug_iff.mp hplace)
        (e := e) (Or.inr rfl) hpath
      have hlength : gs.length < fuel := by
        have hle : gs.length + (.nil : RbTree ε).height ≤ (plug gs .nil).height :=
          length_add_height_le
        rw [hroot] at hle
        omega
      obtain ⟨m', hrun, hm'⟩ := RbMemory.rbInsertColor_place hlinked rfl hfix hlength
      simp only [breakpointRbInsertInternal, BpIndex.breakpointRbInsertInternal, h.emptyNode, hempty,
        if_true, hdown, hins, Option.map_some, ok_bind]
      have hmem : ∀ x, x ∈ RbTree.entries (RbTree.insertColor e
          (plug gs (.node ⟨e, .red⟩ .nil .nil))) ↔ x = e ∨ x ∈ s.root.entries := by
        intro x
        rw [RbTree.entries_insertColor, ← hroot]
        simp only [RbTree.entries, inorder_plug, SearchTree.inorder, List.nil_append, List.map_append,
          List.map_cons, List.map_nil, List.mem_append, List.mem_singleton, List.not_mem_nil]
        tauto
      have hlinkedNow : m'.rbEmptyNode (rb.rbNode e) = false :=
        RbMemory.Represents.rbEmptyNode hm'.shape ((hmem e).mpr (Or.inl rfl))
      have hrun' : (t.memory.rbLinkNode (rb.rbNode e) (headName rb.nameOf gs)
          (TreeLinks.headLink rb.nameOf gs)).rbInsertColor (rb.rbNode e) fuel = .ok m' := hrun
      have hr := represents_of_place h hs hm' hk
        (fun x hx => (hmem x).trans (or_iff_right hx)) hlinkedNow
      simp only [hrun', ok_bind]
      exact ⟨_, rfl, hr⟩

theorem represents_searchInsert (h : Represents rb t s) (hs : s.WellFormed)
    (hfuel : s.root.height < fuel) :
    Agrees (Represents rb) (fun _ => .assertion) (t.breakpointRbSearchInsert rb e fuel)
      (s.breakpointRbSearchInsert .redBlack e) := by
  have hfind : t.breakpointRbFindInternal rb (t.address e) fuel = _ :=
    find_represents h.tree h.address hfuel
  have hinsert := represents_insert (e := e) h hs hfuel
  rw [h.address] at hfind
  simp only [breakpointRbSearchInsert, BpIndex.breakpointRbSearchInsert, h.address, hfind, ok_bind]
  cases s.breakpointRbFindInternal (s.address e) with
  | some e' => exact ⟨t, rfl, h⟩
  | none =>
    cases hrun : s.breakpointRbInsertInternal .redBlack e with
    | error f =>
      rw [hrun] at hinsert
      simp only [Agrees] at hinsert
      simp only [hinsert, Agrees]
      rfl
    | ok r =>
      obtain ⟨s', c⟩ := r
      rw [hrun] at hinsert
      obtain ⟨t', ht', hr⟩ := hinsert
      simp only [ht', ok_bind]
      exact ⟨t', rfl, hr⟩

theorem represents_delete (h : Represents rb t s) (hs : s.WellFormed) (hfuel : s.root.height < fuel) :
    Agrees (Represents rb) (fun _ : Fault => .assertion) (t.breakpointRbDeleteInternal rb addr fuel)
      (.ok (s.breakpointRbDeleteInternal .redBlack addr)) := by
  have hfind : t.breakpointRbFindInternal rb addr fuel = _ :=
    find_represents h.tree h.address hfuel
  simp only [breakpointRbDeleteInternal, BpIndex.breakpointRbDeleteInternal, hfind, ok_bind]
  cases hf : s.breakpointRbFindInternal addr with
  | none => exact ⟨t, rfl, h⟩
  | some e =>
    have he := ((BpIndex.find_eq_some_iff hs).mp hf).1
    obtain ⟨x, l, r, fs, hz, rfl, hroot⟩ := RbTree.locate_entry he
    obtain ⟨n, hn⟩ := h.balanced
    rw [← hroot] at hn
    obtain ⟨u, k, herase, hk⟩ := eraseAt_balanced (fits_iff.mpr ⟨n, hn⟩)
    have hlib : RbTree.erase x.entry s.root = u := by simp [RbTree.erase, hz, herase]
    have hentries : RbTree.entries u = s.root.entries.erase x.entry := by
      rw [← hlib]
      exact RbTree.entries_erase _ _ he hs.nodup
    have hplace := h.place x.entry
    rw [← hroot] at hplace
    obtain ⟨m', hrun, hm'⟩ := RbMemory.rbErase_place (TreeLinks.Place.plug_iff.mp hplace) herase
      (by rw [hroot]; omega : _ ≤ fuel)
    have hrun' : t.memory.rbErase (rb.rbNode x.entry) fuel = .ok m' := hrun
    have hgone : rb.rbNode x.entry ∉ names rb.nameOf u ++ pathNames rb.nameOf [] := by
      intro hmem
      have hin := RbMemory.mem_entries_of_names (by simpa [pathNames] using hmem)
      rw [hentries, hs.nodup.mem_erase_iff] at hin
      exact hin.1 rfl
    have hclear := RbMemory.Place.rbClearNode hm' (Or.inr rfl) hgone
    have hempty : (m'.rbClearNode (rb.rbNode x.entry)).rbEmptyNode (rb.rbNode x.entry) = true := by
      rw [RbMemory.rbEmptyNode, RbMemory.rbClearNode, RbMemory.rbParent_rbSetParent]
      exact beq_self_eq_true _
    have hr := represents_of_place h hs hclear hk (fun y hy => by
      rw [hentries, hs.nodup.mem_erase_iff]
      exact and_iff_right hy) hempty
    simp only [hrun', ok_bind]
    refine ⟨_, rfl, ?_⟩
    rw [← hlib] at hr
    exact hr

theorem represents_setAddress (h : Represents rb t s) :
    Represents rb (t.setAddress e addr) (s.setAddress e addr) :=
  ⟨h.tree, by simp [setAddress, BpIndex.setAddress, h.address], h.emptyNode, h.balanced⟩

theorem represents_call (c : IndexCall ε) (h : Represents rb t s) (hs : s.WellFormed)
    (hfuel : s.root.height < fuel) :
    Agrees (Represents rb) (fun _ => .assertion) (t.call rb fuel c) (s.call .redBlack c) := by
  cases c with
  | insert e => exact (represents_insert h hs hfuel).map IndexAnswer.code
  | searchInsert e => exact (represents_searchInsert h hs hfuel).map IndexAnswer.code
  | delete addr => exact (represents_delete h hs hfuel).map IndexAnswer.entry
  | find addr =>
    have hfind : t.breakpointRbFind rb addr fuel = _ := find_represents h.tree h.address hfuel
    simp only [call, hfind]
    exact ⟨t, rfl, h⟩
  | setAddress e addr => exact ⟨_, rfl, represents_setAddress h⟩

theorem length_insertInternal {lib : RbLib ε} {k : Int}
    (h : s.breakpointRbInsertInternal lib e = .ok (s', k)) :
    s'.root.entries.length ≤ s.root.entries.length + 1 := by
  rw [BpIndex.breakpointRbInsertInternal] at h
  split at h
  · split at h
    · cases h
      omega
    · rename_i root hroot
      cases h
      obtain ⟨pre, post, h₁, h₂⟩ := SearchTree.insert_inorder hroot
      rw [lib.insertColor_entries]
      simp only [RbTree.entries, h₁, h₂, List.length_map, List.length_append, List.length_cons]
      omega
  · cases h

theorem length_searchInsert {lib : RbLib ε} {k : Int}
    (h : s.breakpointRbSearchInsert lib e = .ok (s', k)) :
    s'.root.entries.length ≤ s.root.entries.length + 1 := by
  rw [BpIndex.breakpointRbSearchInsert] at h
  split at h
  · cases h
    omega
  · split at h
    · rename_i hrun
      cases h
      exact length_insertInternal hrun
    · cases h

/-- No call adds more than one node. -/
theorem length_call {lib : RbLib ε} {c : IndexCall ε} {a : IndexAnswer ε} (hs : s.WellFormed)
    (h : s.call lib c = .ok (s', a)) : s'.root.entries.length ≤ s.root.entries.length + 1 := by
  cases c with
  | insert x =>
    cases hrun : s.breakpointRbInsert lib x with
    | error f => simp [BpIndex.call, hrun, Except.map] at h
    | ok z =>
      simp only [BpIndex.call, hrun, Except.map, Except.ok.injEq, Prod.mk.injEq] at h
      exact h.1 ▸ length_insertInternal hrun
  | searchInsert x =>
    cases hrun : s.breakpointRbSearchInsert lib x with
    | error f => simp [BpIndex.call, hrun, Except.map] at h
    | ok z =>
      simp only [BpIndex.call, hrun, Except.map, Except.ok.injEq, Prod.mk.injEq] at h
      exact h.1 ▸ length_searchInsert hrun
  | delete addr =>
    cases hf : s.breakpointRbFindInternal addr with
    | none =>
      simp only [BpIndex.call, BpIndex.breakpointRbDelete, BpIndex.delete_absent hf] at h
      cases h
      omega
    | some x =>
      obtain ⟨s'', hrun, hdel⟩ := BpIndex.delete_present lib hs hf
      simp only [BpIndex.call, BpIndex.breakpointRbDelete, hrun] at h
      cases h
      rw [hdel.entries]
      exact List.length_erase_le.trans (Nat.le_succ _)
  | find addr =>
    cases h
    omega
  | setAddress x addr =>
    cases h
    exact Nat.le_succ _

omit [DecidableEq ε] in
/-- The loops go down or up the tree once: twice the binary logarithm of its size. -/
theorem Represents.height_lt (h : Represents rb t s)
    (hfuel : 2 * Nat.log 2 (s.root.entries.length + 1) < fuel) : s.root.height < fuel := by
  obtain ⟨n, hn⟩ := h.balanced
  have hlen : s.root.entries.length = s.root.numNodes := by
    rw [RbTree.entries, List.length_map, SearchTree.length_inorder]
  have hlog := hn.height_le_log
  rw [hlen] at hfuel
  omega

/-- A run in memory answers as the run on the map. -/
theorem run_represents (cs : List (IndexCall ε)) {m : AddrMap ε} (h : Represents rb t s)
    (href : Refines s m) (hc : LegalRun AddrMap.call AddrMap.Legal m cs)
    (hfuel : 2 * Nat.log 2 (s.root.entries.length + cs.length + 1) < fuel) :
    Agrees (fun t m => ∃ s, Represents rb t s ∧ Refines s m) (fun _ => .assertion)
      (run (call rb fuel) t cs) (run AddrMap.call m cs) := by
  -- a node for each call that is still to come leaves enough turns for every loop
  let rel (n : Nat) (t : RbIndex ε) (m : AddrMap ε) : Prop :=
    ∃ s, Represents rb t s ∧ Refines s m ∧ 2 * Nat.log 2 (s.root.entries.length + n + 1) < fuel
  have hstep : ∀ n t m c, rel (n + 1) t m → m.Legal c →
      Agrees (rel n) (fun _ => .assertion) (t.call rb fuel c) (m.call c) := by
    rintro n t m c ⟨s, h, href, hn⟩ hlegal
    have hheight : s.root.height < fuel := by
      apply h.height_lt
      refine lt_of_le_of_lt (Nat.mul_le_mul_left 2 (Nat.log_mono_right ?_)) hn
      omega
    have hlevels := (represents_call c h href.wellFormed hheight).trans
      (call_refines .redBlack href hlegal)
    refine hlevels.mono ?_
    rintro t' m' a _ ⟨z, hz, h', href'⟩
    have hlength := length_call href.wellFormed hz
    refine ⟨z.1, h', href', lt_of_le_of_lt (Nat.mul_le_mul_left 2 (Nat.log_mono_right ?_)) hn⟩
    omega
  have hinit : rel cs.length t m := ⟨s, h, href, hfuel⟩
  refine (run_agrees hstep hinit hc).mono ?_
  rintro t' m' _ _ ⟨s', h', href', _⟩
  exact ⟨s', h', href'⟩

/-- The nodes in memory make up a red-black tree of the entries that the map stores. -/
structure Holds (rb : RbMember ε) (t : RbIndex ε) (m : AddrMap ε) (root : RbTree ε) : Prop where
  tree : t.memory.Represents rb root
  balanced : ∃ n, Balanced false n root
  increasing : (root.entries.map t.address).Pairwise (· < ·)
  stored : ∀ e, e ∈ root.entries ↔ m.Stored e
  emptyNode : ∀ e, t.memory.rbEmptyNode (rb.rbNode e) = true ↔ ¬ m.Stored e
  address : t.address = m.address

omit [DecidableEq ε] in
theorem Represents.holds {m : AddrMap ε} (h : Represents rb t s) (href : Refines s m) :
    t.Holds rb m s.root where
  tree := h.tree
  balanced := h.balanced
  increasing := h.address ▸ href.wellFormed.increasing
  stored e := by rw [stored_iff href, href.wellFormed.linked]
  emptyNode e := by simp [h.emptyNode, stored_iff href]
  address := h.address.trans href.address

/-- From the empty tree, with every node as `rb_init_node` leaves it: no call follows a null
pointer, no loop takes more turns than twice the binary logarithm of the number of calls, the
answers are those of the finite map, and the tree in memory is a red-black tree in order. -/
theorem run_refines_map (rb : RbMember ε) (t : RbIndex ε) (cs : List (IndexCall ε)) (fuel : Nat)
    (hroot : t.memory.rbNode = none) (hempty : ∀ e, t.memory.rbEmptyNode (rb.rbNode e) = true)
    (hc : LegalRun AddrMap.call AddrMap.Legal (.init t.address) cs)
    (hfuel : 2 * Nat.log 2 (cs.length + 1) < fuel) :
    (∀ f, run AddrMap.call (.init t.address) cs = .error f →
      run (call rb fuel) t cs = .error .assertion) ∧
    ∀ m as, run AddrMap.call (.init t.address) cs = .ok (m, as) →
      ∃ t' root, run (call rb fuel) t cs = .ok (t', as) ∧ t'.Holds rb m root := by
  have hinit : Represents rb t (.init t.address) :=
    ⟨⟨hroot, trivial, by simp [BpIndex.init, pathNames]⟩, rfl, hempty, 0, .nil⟩
  have hrun := run_represents cs hinit (refines_init t.address) hc
    (by simpa [BpIndex.init, RbTree.entries, SearchTree.inorder] using hfuel)
  refine ⟨hrun.cases.1, ?_⟩
  intro m as hm
  obtain ⟨t', ht', s', hr, href⟩ := hrun.cases.2 m as hm
  exact ⟨t', s'.root, ht', hr.holds href⟩

/-- No entry is in the tree yet. -/
def noTree : RbIndex (Fin 3) where
  memory := ⟨fun n => ⟨n.addr, none, none⟩, none⟩
  address i := BitVec.ofNat 64 (0x1000 * (i + 1))

theorem run_refines_map_three : ∃ t root, run (call threeEntries 5) noTree
      [.insert 2, .searchInsert 0, .delete 0x1000, .insert 1, .insert 0, .find 0x2000] =
        .ok (t, [.code 0, .code 0, .entry (some 0), .code 0, .code 0, .entry (some 1)]) ∧
    t.memory.Represents threeEntries root ∧ ∃ n, Balanced false n root := by
  obtain ⟨t, root, hrun, hholds⟩ := (run_refines_map threeEntries noTree
    [.insert 2, .searchInsert 0, .delete 0x1000, .insert 1, .insert 0, .find 0x2000] 5 rfl
    (by decide) (by simp [LegalRun, AddrMap.Legal]) (by decide)).2 _ _ rfl
  exact ⟨t, root, hrun, hholds.tree, hholds.balanced⟩

end RbIndex

end Atrace.Signal

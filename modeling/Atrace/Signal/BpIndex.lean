import Atrace.Lib.SearchTree
import Atrace.Signal.Common
import Mathlib.Data.List.Nodup
import Mathlib.Data.Nat.Basic
import Mathlib.Logic.Function.Basic

/-! The address index of `breakpoint.c`: a red-black tree of `bp_entry` nodes. -/
namespace Atrace.Signal

open Atrace.Lib

inductive RbColor where
  | red
  | black
deriving DecidableEq, Repr

/-- A linked `rb_node`, with the entry it is a member of. -/
structure RbNode (ε : Type*) where
  entry : ε
  color : RbColor

abbrev RbTree (ε : Type*) := BinaryTree (RbNode ε)

variable {ε : Type*}

/-- The entries of a tree in order. -/
def RbTree.entries (root : RbTree ε) : List ε := (SearchTree.inorder root).map RbNode.entry

/-- `rb_insert_color` and `rb_erase` of `rbtree.c`, with what the index relies on. -/
structure RbLib (ε : Type*) [DecidableEq ε] where
  rbInsertColor : ε → RbTree ε → RbTree ε
  rbErase : ε → RbTree ε → RbTree ε
  insertColor_entries : ∀ e root, (rbInsertColor e root).entries = root.entries
  erase_entries : ∀ e root, e ∈ root.entries → root.entries.Nodup →
    (rbErase e root).entries = root.entries.erase e

/-- The tree `breakpoints` and the entries it may link. `emptyNode` is `RB_EMPTY_NODE`:
the parent link of the node is the node itself. -/
structure BpIndex (ε : Type*) where
  root : RbTree ε
  address : ε → Addr
  emptyNode : ε → Bool

namespace BpIndex

/-- The empty tree, every entry as `rb_init_node` leaves it. -/
def init (address : ε → Addr) : BpIndex ε := ⟨.nil, address, fun _ => true⟩

/-- Unsigned comparison of addresses. -/
def key (t : BpIndex ε) (n : RbNode ε) : Nat := (t.address n.entry).toNat

def breakpointRbFindInternal (t : BpIndex ε) (addr : Addr) : Option ε :=
  (SearchTree.find t.key addr.toNat t.root).map RbNode.entry

def breakpointRbFind (t : BpIndex ε) (addr : Addr) : Option ε :=
  t.breakpointRbFindInternal addr

/-- An assignment to `entry->address`. -/
def setAddress [DecidableEq ε] (t : BpIndex ε) (e : ε) (addr : Addr) : BpIndex ε :=
  { t with address := Function.update t.address e addr }

/-- The in-order addresses strictly increase, and exactly the linked entries are not empty nodes. -/
structure WellFormed (t : BpIndex ε) : Prop where
  increasing : (t.root.entries.map t.address).Pairwise (· < ·)
  linked : ∀ e, t.emptyNode e = false ↔ e ∈ t.root.entries

variable {t t' : BpIndex ε} {e e' : ε} {a : Addr}

theorem ordered_iff : SearchTree.Ordered t.key t.root ↔
    (t.root.entries.map t.address).Pairwise (· < ·) := by
  simp only [SearchTree.Ordered, RbTree.entries, List.pairwise_map, key, BitVec.lt_def]

theorem WellFormed.nodup (h : t.WellFormed) : t.root.entries.Nodup := by
  apply List.Nodup.of_map t.address
  apply h.increasing.imp
  intro a b hab he
  rw [he, BitVec.lt_def] at hab
  omega

theorem find_eq_find? (h : t.WellFormed) (a : Addr) :
    t.breakpointRbFindInternal a = t.root.entries.find? fun e => decide (t.address e = a) := by
  rw [breakpointRbFindInternal, SearchTree.find_eq_find? (ordered_iff.mpr h.increasing),
    RbTree.entries, List.find?_map]
  congr 2
  funext n
  simp [key, BitVec.toNat_inj]

theorem find_eq_some (h : t.breakpointRbFindInternal a = some e) : t.address e = a := by
  obtain ⟨n, hn, rfl⟩ := Option.map_eq_some_iff.mp h
  generalize t.root = root at hn
  induction root with
  | nil => cases hn
  | node x l r ihl ihr =>
    simp only [SearchTree.find] at hn
    split at hn
    · exact ihl hn
    · split at hn
      · exact ihr hn
      · rename_i hle hge
        cases hn
        have hk : t.key n = a.toNat := by omega
        exact BitVec.toNat_inj.mp hk

theorem find_eq_some_iff (h : t.WellFormed) :
    t.breakpointRbFindInternal a = some e ↔ e ∈ t.root.entries ∧ t.address e = a := by
  constructor
  · intro hf
    refine ⟨?_, find_eq_some hf⟩
    rw [find_eq_find? h] at hf
    exact List.mem_of_find?_eq_some hf
  · rintro ⟨hm, rfl⟩
    cases hf : t.breakpointRbFindInternal (t.address e) with
    | none =>
      rw [find_eq_find? h, List.find?_eq_none] at hf
      simpa using hf e hm
    | some e' =>
      have hm' : e' ∈ t.root.entries := by
        rw [find_eq_find? h] at hf
        exact List.mem_of_find?_eq_some hf
      have hinj := List.inj_on_of_nodup_map (f := t.address)
        (h.increasing.imp (by intro x y hxy he; rw [he, BitVec.lt_def] at hxy; omega)) hm' hm
      rw [hinj (find_eq_some hf)]

/-- Two well-formed trees over the same addresses answer alike if they link the same entries. -/
theorem find_congr (h : t.WellFormed) (h' : t'.WellFormed)
    (hlink : ∀ e, e ∈ t'.root.entries ∧ t'.address e = a ↔ e ∈ t.root.entries ∧ t.address e = a) :
    t'.breakpointRbFindInternal a = t.breakpointRbFindInternal a := by
  apply Option.ext
  intro e
  rw [find_eq_some_iff h, find_eq_some_iff h', hlink]

theorem wellFormed_init (address : ε → Addr) : (init address).WellFormed :=
  ⟨List.Pairwise.nil, by simp [init, RbTree.entries, SearchTree.inorder]⟩

/-- A linked entry is found at its own address, so the search comes first and
the assertion of the inner insertion cannot fail. -/
theorem emptyNode_of_find_none (ht : t.WellFormed)
    (hf : t.breakpointRbFindInternal (t.address e) = none) : t.emptyNode e = true := by
  rw [← Bool.not_eq_false, ht.linked]
  intro hm
  simp [(find_eq_some_iff ht).mpr ⟨hm, rfl⟩] at hf

variable [DecidableEq ε]

/-- The address of an entry that is not linked plays no part in the tree. -/
theorem setAddress_wellFormed (ht : t.WellFormed) (he : t.emptyNode e = true) (addr : Addr) :
    (t.setAddress e addr).WellFormed ∧
      ∀ a, (t.setAddress e addr).breakpointRbFindInternal a = t.breakpointRbFindInternal a := by
  have hnot : e ∉ t.root.entries := by
    rw [← ht.linked, he]
    simp
  have hsame : ∀ x ∈ t.root.entries, Function.update t.address e addr x = t.address x := by
    intro x hx
    have hxe : x ≠ e := fun hxe => hnot (hxe ▸ hx)
    simp [hxe]
  have hwf : (t.setAddress e addr).WellFormed := by
    refine ⟨?_, ht.linked⟩
    rw [setAddress, List.map_congr_left hsame]
    exact ht.increasing
  refine ⟨hwf, ?_⟩
  intro a
  apply find_congr ht hwf
  intro x
  constructor
  · rintro ⟨hx, ha⟩
    exact ⟨hx, (hsame x hx).symm.trans ha⟩
  · rintro ⟨hx, ha⟩
    exact ⟨hx, (hsame x hx).trans ha⟩

/-- The descent, `rb_link_node` of a red leaf and `rb_insert_color`. -/
def breakpointRbInsertInternal (rb : RbLib ε) (t : BpIndex ε) (e : ε) :
    Except Fault (BpIndex ε × Int) :=
  if t.emptyNode e then
    match SearchTree.insert t.key ⟨e, .red⟩ t.root with
    | none => .ok (t, -1)
    | some root =>
      .ok ({ t with
        root := rb.rbInsertColor e root
        emptyNode := Function.update t.emptyNode e false }, 0)
  else .error .assertion

def breakpointRbInsert (rb : RbLib ε) (t : BpIndex ε) (e : ε) : Except Fault (BpIndex ε × Int) :=
  t.breakpointRbInsertInternal rb e

/-- The code of the inner insertion is dropped, as in the source. -/
def breakpointRbSearchInsert (rb : RbLib ε) (t : BpIndex ε) (e : ε) :
    Except Fault (BpIndex ε × Int) :=
  match t.breakpointRbFindInternal (t.address e) with
  | some _ => .ok (t, -1)
  | none =>
    match t.breakpointRbInsertInternal rb e with
    | .ok (t, _) => .ok (t, 0)
    | .error f => .error f

/-- `rb_erase` and `RB_CLEAR_NODE`. -/
def breakpointRbDeleteInternal (rb : RbLib ε) (t : BpIndex ε) (addr : Addr) :
    BpIndex ε × Option ε :=
  match t.breakpointRbFindInternal addr with
  | none => (t, none)
  | some e =>
    ({ t with
      root := rb.rbErase e t.root
      emptyNode := Function.update t.emptyNode e true }, some e)

def breakpointRbDelete (rb : RbLib ε) (t : BpIndex ε) (addr : Addr) : BpIndex ε × Option ε :=
  t.breakpointRbDeleteInternal rb addr

variable {rb : RbLib ε}

/-- The tree that a successful insertion leaves. -/
structure Inserted (t t' : BpIndex ε) (e : ε) : Prop where
  wellFormed : t'.WellFormed
  address : t'.address = t.address
  emptyNode : t'.emptyNode = Function.update t.emptyNode e false
  entries : ∀ x, x ∈ t'.root.entries ↔ x = e ∨ x ∈ t.root.entries
  find : ∀ a, t'.breakpointRbFindInternal a =
    if a = t.address e then some e else t.breakpointRbFindInternal a

theorem insertInternal_linked (h : t.emptyNode e = false) :
    t.breakpointRbInsertInternal rb e = .error .assertion := by
  simp [breakpointRbInsertInternal, h]

theorem insertInternal_present (h : t.emptyNode e = true)
    (hf : t.breakpointRbFindInternal (t.address e) = some e') :
    t.breakpointRbInsertInternal rb e = .ok (t, -1) := by
  have hnone : SearchTree.insert t.key ⟨e, .red⟩ t.root = none := by
    rw [SearchTree.insert_eq_none_iff]
    obtain ⟨n, hn, _⟩ := Option.map_eq_some_iff.mp hf
    exact Option.isSome_of_eq_some hn
  simp [breakpointRbInsertInternal, h, hnone]

variable (rb) in
theorem insertInternal_absent (ht : t.WellFormed) (h : t.emptyNode e = true)
    (hf : t.breakpointRbFindInternal (t.address e) = none) :
    ∃ t', t.breakpointRbInsertInternal rb e = .ok (t', 0) ∧ Inserted t t' e := by
  have hleaf : ∃ root, SearchTree.insert t.key ⟨e, .red⟩ t.root = some root := by
    rw [← Option.isSome_iff_exists, Option.isSome_iff_ne_none, ne_eq,
      SearchTree.insert_eq_none_iff]
    simpa [breakpointRbFindInternal, key] using hf
  obtain ⟨root, hroot⟩ := hleaf
  have hentries : ∀ x, x ∈ (rb.rbInsertColor e root).entries ↔ x = e ∨ x ∈ t.root.entries := by
    intro x
    rw [rb.insertColor_entries]
    simp [RbTree.entries, SearchTree.mem_insert hroot, eq_comm]
  have hnew : e ∉ t.root.entries := by
    rw [← ht.linked, h]
    simp
  have hwf : ({ t with
      root := rb.rbInsertColor e root
      emptyNode := Function.update t.emptyNode e false } : BpIndex ε).WellFormed := by
    constructor
    · rw [rb.insertColor_entries]
      have hord : SearchTree.Ordered t.key root :=
        SearchTree.ordered_insert (ordered_iff.mpr ht.increasing) hroot
      exact (ordered_iff (t := { t with root := root })).mp hord
    · intro x
      by_cases hx : x = e <;> simp [hentries, hx, ht.linked]
  refine ⟨_, by simp [breakpointRbInsertInternal, h, hroot], hwf, rfl, rfl, hentries, ?_⟩
  intro a
  split
  · rename_i ha
    rw [find_eq_some_iff hwf]
    exact ⟨(hentries e).mpr (Or.inl rfl), ha.symm⟩
  · rename_i ha
    apply find_congr ht hwf
    intro x
    by_cases hx : x = e
    · subst x
      simp [Ne.symm ha]
    · simp [hentries, hx]

variable (rb) in
theorem searchInsert_present (hf : t.breakpointRbFindInternal (t.address e) = some e') :
    t.breakpointRbSearchInsert rb e = .ok (t, -1) := by
  simp [breakpointRbSearchInsert, hf]

variable (rb) in
theorem searchInsert_absent (ht : t.WellFormed)
    (hf : t.breakpointRbFindInternal (t.address e) = none) :
    ∃ t', t.breakpointRbSearchInsert rb e = .ok (t', 0) ∧ Inserted t t' e := by
  obtain ⟨t', hrun, hins⟩ := insertInternal_absent rb ht (emptyNode_of_find_none ht hf) hf
  exact ⟨t', by simp [breakpointRbSearchInsert, hf, hrun], hins⟩

/-- What a search and insert that returns has done. -/
theorem searchInsert_cases {code : Int} (ht : t.WellFormed)
    (h : t.breakpointRbSearchInsert rb e = .ok (t', code)) :
    (code = -1 ∧ t' = t ∧ ∃ e', t.breakpointRbFindInternal (t.address e) = some e') ∨
      (code = 0 ∧ t.emptyNode e = true ∧ Inserted t t' e) := by
  cases hf : t.breakpointRbFindInternal (t.address e) with
  | some e' =>
    cases (searchInsert_present rb hf).symm.trans h
    exact Or.inl ⟨rfl, rfl, e', rfl⟩
  | none =>
    obtain ⟨t'', hrun, hins⟩ := searchInsert_absent rb ht hf
    cases hrun.symm.trans h
    exact Or.inr ⟨rfl, emptyNode_of_find_none ht hf, hins⟩

/-- The tree that a successful deletion leaves. -/
structure Deleted (t t' : BpIndex ε) (e : ε) : Prop where
  wellFormed : t'.WellFormed
  address : t'.address = t.address
  emptyNode : t'.emptyNode = Function.update t.emptyNode e true
  entries : t'.root.entries = t.root.entries.erase e
  find : ∀ a, t'.breakpointRbFindInternal a =
    if a = t.address e then none else t.breakpointRbFindInternal a

theorem delete_absent (hf : t.breakpointRbFindInternal a = none) :
    t.breakpointRbDeleteInternal rb a = (t, none) := by
  simp [breakpointRbDeleteInternal, hf]

variable (rb) in
theorem delete_present (ht : t.WellFormed) (hf : t.breakpointRbFindInternal a = some e) :
    ∃ t', t.breakpointRbDeleteInternal rb a = (t', some e) ∧ Deleted t t' e := by
  obtain ⟨hm, rfl⟩ := (find_eq_some_iff ht).mp hf
  have hentries := rb.erase_entries e t.root hm ht.nodup
  have hwf : ({ t with
      root := rb.rbErase e t.root
      emptyNode := Function.update t.emptyNode e true } : BpIndex ε).WellFormed := by
    constructor
    · rw [hentries]
      exact ht.increasing.sublist (List.erase_sublist.map t.address)
    · intro x
      rw [hentries, ht.nodup.mem_erase_iff]
      by_cases hx : x = e <;> simp [hx, ht.linked]
  refine ⟨_, by simp [breakpointRbDeleteInternal, hf], hwf, rfl, rfl, hentries, ?_⟩
  intro a
  split
  · rename_i ha
    apply Option.eq_none_iff_forall_ne_some.mpr
    intro x hx
    obtain ⟨hxm, hxa⟩ := (find_eq_some_iff hwf).mp hx
    rw [hentries, ht.nodup.mem_erase_iff] at hxm
    have hxe := (find_eq_some_iff ht).mpr ⟨hxm.2, hxa⟩
    rw [ha, hf] at hxe
    exact hxm.1 (Option.some.inj hxe).symm
  · rename_i ha
    apply find_congr ht hwf
    intro x
    rw [hentries, ht.nodup.mem_erase_iff]
    by_cases hx : x = e
    · subst x
      simp [Ne.symm ha]
    · simp [hx]

end BpIndex

end Atrace.Signal

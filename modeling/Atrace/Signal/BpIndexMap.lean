import Atrace.Lib.Calls
import Atrace.Signal.BpIndex

/-! The address index refines a finite map from addresses to entries. -/
namespace Atrace.Signal

open Atrace.Lib

/-- Calls on the index, and the client's assignments to `entry->address` between them. -/
inductive IndexCall (ε : Type*) where
  | insert (e : ε)
  | searchInsert (e : ε)
  | delete (addr : Addr)
  | find (addr : Addr)
  | setAddress (e : ε) (addr : Addr)

inductive IndexAnswer (ε : Type*) where
  | code (c : Int)
  | entry (e : Option ε)
  | nothing
deriving DecidableEq

variable {ε : Type*} [DecidableEq ε]

def BpIndex.call (rb : RbLib ε) (t : BpIndex ε) :
    IndexCall ε → Except Fault (BpIndex ε × IndexAnswer ε)
  | .insert e => (t.breakpointRbInsert rb e).map fun r => (r.1, .code r.2)
  | .searchInsert e => (t.breakpointRbSearchInsert rb e).map fun r => (r.1, .code r.2)
  | .delete addr =>
    let r := t.breakpointRbDelete rb addr
    .ok (r.1, .entry r.2)
  | .find addr => .ok (t, .entry (t.breakpointRbFind addr))
  | .setAddress e addr => .ok (t.setAddress e addr, .nothing)

/-- What the index stands for: which entry is stored at which address. -/
structure AddrMap (ε : Type*) where
  index : Addr → Option ε
  address : ε → Addr

namespace AddrMap

def init (address : ε → Addr) : AddrMap ε := ⟨fun _ => none, address⟩

/-- An entry is stored under its own address. -/
def Stored (m : AddrMap ε) (e : ε) : Prop := m.index (m.address e) = some e

instance (m : AddrMap ε) (e : ε) : Decidable (m.Stored e) := inferInstanceAs (Decidable (_ = _))

def store (m : AddrMap ε) (e : ε) : AddrMap ε × IndexAnswer ε :=
  match m.index (m.address e) with
  | some _ => (m, .code (-1))
  | none => ({ m with index := Function.update m.index (m.address e) (some e) }, .code 0)

/-- The calls on the map. Inserting a stored entry is a misuse that ends the process. -/
def call (m : AddrMap ε) : IndexCall ε → Except Fault (AddrMap ε × IndexAnswer ε)
  | .insert e => if m.Stored e then .error .assertion else .ok (m.store e)
  | .searchInsert e => .ok (m.store e)
  | .delete addr => .ok ({ m with index := Function.update m.index addr none }, .entry (m.index addr))
  | .find addr => .ok (m, .entry (m.index addr))
  | .setAddress e addr => .ok ({ m with address := Function.update m.address e addr }, .nothing)

/-- The client changes the address of an entry only while it is not linked. -/
def Legal (m : AddrMap ε) : IndexCall ε → Prop
  | .setAddress e _ => ¬ m.Stored e
  | _ => True

end AddrMap

/-- The tree and the map agree on every address. -/
structure Refines (t : BpIndex ε) (m : AddrMap ε) : Prop where
  wellFormed : t.WellFormed
  address : t.address = m.address
  find : ∀ a, t.breakpointRbFind a = m.index a

/-- What one more call does to the tree itself. -/
structure IndexContract (rb : RbLib ε) (t : BpIndex ε) : Prop where
  insert_present : ∀ e, t.emptyNode e = true → t.breakpointRbFind (t.address e) ≠ none →
    t.breakpointRbInsert rb e = .ok (t, -1)
  insert_absent : ∀ e, t.emptyNode e = true → t.breakpointRbFind (t.address e) = none →
    ∃ t', t.breakpointRbInsert rb e = .ok (t', 0)
  searchInsert_present : ∀ e, t.breakpointRbFind (t.address e) ≠ none →
    t.breakpointRbSearchInsert rb e = .ok (t, -1)
  searchInsert_absent : ∀ e, t.breakpointRbFind (t.address e) = none →
    ∃ t', t.breakpointRbSearchInsert rb e = .ok (t', 0)
  delete_absent : ∀ a, t.breakpointRbFind a = none → t.breakpointRbDelete rb a = (t, none)
  delete_present : ∀ a e, t.breakpointRbFind a = some e →
    ∃ t', t.breakpointRbDelete rb a = (t', some e) ∧
      t'.root.entries = t.root.entries.erase e ∧ ∃ t'', t'.breakpointRbInsert rb e = .ok (t'', 0)

variable {rb : RbLib ε} {t t' : BpIndex ε} {m m' : AddrMap ε} {e : ε} {c : IndexCall ε}

omit [DecidableEq ε] in
theorem refines_init (address : ε → Addr) : Refines (.init address) (.init address) :=
  ⟨BpIndex.wellFormed_init address, rfl, fun _ => rfl⟩

omit [DecidableEq ε] in
theorem stored_iff (h : Refines t m) : m.Stored e ↔ t.emptyNode e = false := by
  rw [AddrMap.Stored, ← h.find, ← h.address, h.wellFormed.linked]
  exact (BpIndex.find_eq_some_iff h.wellFormed).trans (and_iff_left rfl)

theorem refines_inserted (h : Refines t m) (hi : t.Inserted t' e) :
    Refines t' { m with index := Function.update m.index (m.address e) (some e) } := by
  refine ⟨hi.wellFormed, hi.address.trans h.address, ?_⟩
  intro a
  have hf := hi.find a
  rw [h.address] at hf
  simp only [BpIndex.breakpointRbFind, hf, Function.update_apply, ← h.find]

variable (rb) in
theorem searchInsert_refines (h : Refines t m) : ∃ t',
    t.breakpointRbSearchInsert rb e = .ok (t', if m.index (m.address e) = none then 0 else -1) ∧
      (m.store e).2 = .code (if m.index (m.address e) = none then 0 else -1) ∧
      Refines t' (m.store e).1 := by
  have hfind : t.breakpointRbFindInternal (t.address e) = m.index (m.address e) := by
    rw [h.address]
    exact h.find _
  cases hm : m.index (m.address e) with
  | some e' =>
    refine ⟨t, ?_, ?_, ?_⟩
    · simpa using BpIndex.searchInsert_present rb (hfind.trans hm)
    · simp [AddrMap.store, hm]
    · simpa [AddrMap.store, hm] using h
  | none =>
    obtain ⟨t', hrun, hins⟩ := BpIndex.searchInsert_absent rb h.wellFormed (hfind.trans hm)
    refine ⟨t', by simpa using hrun, by simp [AddrMap.store, hm], ?_⟩
    simpa [AddrMap.store, hm] using refines_inserted h hins

/-- On an entry that is not linked the two insertions do the same. -/
theorem insert_eq_searchInsert (ht : t.WellFormed) (h : t.emptyNode e = true) :
    t.breakpointRbInsert rb e = t.breakpointRbSearchInsert rb e := by
  cases hf : t.breakpointRbFindInternal (t.address e) with
  | some e' =>
    rw [BpIndex.searchInsert_present rb hf]
    exact BpIndex.insertInternal_present h hf
  | none =>
    obtain ⟨t', hrun, _⟩ := BpIndex.insertInternal_absent rb ht h hf
    simp [BpIndex.breakpointRbInsert, BpIndex.breakpointRbSearchInsert, hf, hrun]

theorem refines_setAddress {addr : Addr} (h : Refines t m) (he : ¬ m.Stored e) :
    Refines (t.setAddress e addr) { m with address := Function.update m.address e addr } := by
  have hempty : t.emptyNode e = true := by
    rw [← Bool.not_eq_false, ← stored_iff h]
    exact he
  obtain ⟨hwf, hfind⟩ := BpIndex.setAddress_wellFormed h.wellFormed hempty addr
  refine ⟨hwf, by simp [BpIndex.setAddress, h.address], ?_⟩
  intro a
  exact (hfind a).trans (h.find a)

variable (rb) in
theorem call_refines (h : Refines t m) (hc : m.Legal c) :
    Calls.Agrees Refines id (t.call rb c) (m.call c) := by
  cases c with
  | insert e =>
    by_cases hs : m.Stored e
    · have hlinked := (stored_iff h).mp hs
      simp [Calls.Agrees, AddrMap.call, hs, BpIndex.call, BpIndex.breakpointRbInsert,
        BpIndex.insertInternal_linked hlinked, Except.map]
    · have hempty : t.emptyNode e = true := by simpa [stored_iff h] using hs
      obtain ⟨t', hrun, hcode, href⟩ := searchInsert_refines rb (e := e) h
      rw [← insert_eq_searchInsert h.wellFormed hempty] at hrun
      have hcall : t.call rb (.insert e) = .ok (t', (m.store e).2) := by
        rw [hcode]
        simp [BpIndex.call, hrun, Except.map]
      simp only [AddrMap.call, hs, if_false]
      exact ⟨t', hcall, href⟩
  | searchInsert e =>
    obtain ⟨t', hrun, hcode, href⟩ := searchInsert_refines rb (e := e) h
    have hcall : t.call rb (.searchInsert e) = .ok (t', (m.store e).2) := by
      rw [hcode]
      simp [BpIndex.call, hrun, Except.map]
    exact ⟨t', hcall, href⟩
  | delete addr =>
    cases hf : t.breakpointRbFindInternal addr with
    | none =>
      refine ⟨t, ?_, h.wellFormed, h.address, ?_⟩
      · rw [← h.find]
        simp [BpIndex.call, BpIndex.breakpointRbDelete, BpIndex.delete_absent hf,
          BpIndex.breakpointRbFind, hf]
      · intro a
        by_cases ha : a = addr
        · subst a
          exact hf.trans (Function.update_self addr none m.index).symm
        · simpa [ha] using h.find a
    | some e =>
      obtain ⟨t', hrun, hdel⟩ := BpIndex.delete_present rb h.wellFormed hf
      refine ⟨t', ?_, hdel.wellFormed, hdel.address.trans h.address, ?_⟩
      · rw [← h.find]
        simp [BpIndex.call, BpIndex.breakpointRbDelete, hrun, BpIndex.breakpointRbFind, hf]
      · intro a
        have ha := hdel.find a
        rw [BpIndex.find_eq_some hf] at ha
        simp only [BpIndex.breakpointRbFind, ha, Function.update_apply, ← h.find]
  | find addr => exact ⟨t, by simp [BpIndex.call, h.find], h⟩
  | setAddress e addr => exact ⟨_, rfl, refines_setAddress h hc⟩

theorem indexContract_of_wellFormed (ht : t.WellFormed) : IndexContract rb t where
  insert_present e he hf := by
    obtain ⟨e', he'⟩ := Option.ne_none_iff_exists'.mp hf
    exact BpIndex.insertInternal_present he he'
  insert_absent e he hf := by
    obtain ⟨t', hrun, _⟩ := BpIndex.insertInternal_absent rb ht he hf
    exact ⟨t', hrun⟩
  searchInsert_present e hf := by
    obtain ⟨e', he'⟩ := Option.ne_none_iff_exists'.mp hf
    exact BpIndex.searchInsert_present rb he'
  searchInsert_absent e hf := by
    obtain ⟨t', hrun, _⟩ := BpIndex.searchInsert_absent rb ht hf
    exact ⟨t', hrun⟩
  delete_absent a hf := BpIndex.delete_absent hf
  delete_present a e hf := by
    obtain ⟨t', hrun, hdel⟩ := BpIndex.delete_present rb ht hf
    have hempty : t'.emptyNode e = true := by simp [hdel.emptyNode]
    have hgone : t'.breakpointRbFindInternal (t'.address e) = none := by
      simp [hdel.address, hdel.find]
    obtain ⟨t'', hins, _⟩ :=
      BpIndex.insertInternal_absent rb hdel.wellFormed hempty hgone
    exact ⟨t', hrun, hdel.entries, t'', hins⟩

/-- From the empty tree, every sequence of calls answers as the finite map does;
the one misuse, inserting an entry that is still linked, fails the assertion. -/
theorem index_refines_map (rb : RbLib ε) (address : ε → Addr) (cs : List (IndexCall ε))
    (hc : Calls.LegalRun AddrMap.call AddrMap.Legal (.init address) cs) :
    (∀ f, Calls.run AddrMap.call (.init address) cs = .error f →
      Calls.run (BpIndex.call rb) (.init address) cs = .error f) ∧
    ∀ m as, Calls.run AddrMap.call (.init address) cs = .ok (m, as) →
      ∃ t, Calls.run (BpIndex.call rb) (.init address) cs = .ok (t, as) ∧
        Refines t m ∧ IndexContract rb t := by
  let rel : Nat → BpIndex ε → AddrMap ε → Prop := fun _ => Refines
  have hcall : ∀ n t m c, rel (n + 1) t m → m.Legal c →
      Calls.Agrees (rel n) id (t.call rb c) (m.call c) := fun _ _ _ _ => call_refines rb
  have hrun : Calls.Agrees (rel 0) id (Calls.run (BpIndex.call rb) (.init address) cs)
      (Calls.run AddrMap.call (.init address) cs) :=
    Calls.run_agrees hcall (refines_init address) hc
  refine ⟨hrun.cases.1, ?_⟩
  intro m as hm
  obtain ⟨t, ht, href⟩ := hrun.cases.2 m as hm
  exact ⟨t, ht, href, indexContract_of_wellFormed href.wellFormed⟩

namespace RbTree

/-- `rb_insert_color` on trees that need no rotation: the root becomes black. -/
def paintRoot : RbTree ε → RbTree ε
  | .nil => .nil
  | .node n l r => .node { n with color := .black } l r

def join : RbTree ε → RbTree ε → RbTree ε
  | .nil, r => r
  | .node n a b, r => .node n a (join b r)

/-- Unlink an entry and join its two subtrees, without rebalancing. -/
def unlink (e : ε) : RbTree ε → RbTree ε
  | .nil => .nil
  | .node n l r =>
    if e ∈ entries l then .node n (unlink e l) r
    else if n.entry = e then join l r
    else .node n l (unlink e r)

omit [DecidableEq ε] in
theorem entries_node (n : RbNode ε) (l r : RbTree ε) :
    entries (.node n l r) = entries l ++ n.entry :: entries r := by
  simp [entries, SearchTree.inorder]

omit [DecidableEq ε] in
theorem entries_paintRoot (t : RbTree ε) : entries (paintRoot t) = entries t := by
  cases t <;> simp [paintRoot, entries_node]

omit [DecidableEq ε] in
theorem entries_join (l r : RbTree ε) : entries (join l r) = entries l ++ entries r := by
  induction l with
  | nil => simp [join, entries, SearchTree.inorder]
  | node n a b _ ih => simp [join, entries_node, ih]

theorem entries_unlink (e : ε) (t : RbTree ε) : entries (unlink e t) = (entries t).erase e := by
  induction t with
  | nil => simp [unlink, entries, SearchTree.inorder]
  | node n l r ihl ihr =>
    simp only [unlink]
    split
    · rename_i hl
      simp [entries_node, ihl, List.erase_append_left _ hl]
    · rename_i hl
      split
      · rename_i hn
        simp [entries_node, entries_join, List.erase_append_right _ hl, hn]
      · rename_i hn
        simp [entries_node, ihr, List.erase_append_right _ hl, hn]

end RbTree

/-- Tree operations that keep the in-order list but never rotate. -/
def RbLib.unbalanced : RbLib ε where
  rbInsertColor _ := RbTree.paintRoot
  rbErase := RbTree.unlink
  insertColor_entries _ := RbTree.entries_paintRoot
  erase_entries e root _ _ := RbTree.entries_unlink e root

theorem index_refines_map_two : ∃ t : BpIndex Bool,
    Calls.run (BpIndex.call .unbalanced) (.init fun b => bif b then 0x2000 else 0x1000)
        [.insert true, .searchInsert false, .delete 0x2000, .insert true] =
      .ok (t, [.code 0, .code 0, .entry (some true), .code 0]) ∧ IndexContract .unbalanced t := by
  obtain ⟨t, hrun, _, hcontract⟩ := (index_refines_map (ε := Bool) .unbalanced
    (fun b => bif b then 0x2000 else 0x1000)
    [.insert true, .searchInsert false, .delete 0x2000, .insert true]
    (by simp [Calls.LegalRun, AddrMap.Legal])).2 _ _ rfl
  exact ⟨t, hrun, hcontract⟩

/-- The second insertion of a linked entry does not return -1: it fails the assertion. -/
theorem insert_linked_not_refused : ∃ t : BpIndex Unit,
    Calls.run (BpIndex.call .unbalanced) (.init fun _ => 0x1000) [.insert ()] = .ok (t, [.code 0]) ∧
      t.breakpointRbFind 0x1000 = some () ∧
      t.breakpointRbInsert .unbalanced () = .error .assertion :=
  ⟨_, rfl, rfl, rfl⟩

end Atrace.Signal

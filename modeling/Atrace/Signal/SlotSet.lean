import Atrace.Lib.Bitmap
import Atrace.Signal.Common
import Mathlib.Logic.Function.Basic

/-! Slot sets of `breakpoint.c`: `slot_set_add`, `slot_alloc` and `slot_free`. -/
namespace Atrace.Signal

open Atrace.Lib

/-- The address of a `slot_set_t` returned by `calloc`. -/
abbrev SlotSetPtr := Nat

/-- `struct slot_set`; a 1 in `freeSlot` is a free slot. -/
structure SlotSet where
  freeSlot : Vector (BitVec 32) slotMapLen
  usedSlotCount : BitVec 32
  slots : Addr

/-- The allocated slot sets and the list `slot_sets`, newest first. -/
structure SlotHeap where
  slotSet : SlotSetPtr → SlotSet
  slotSets : List SlotSetPtr

/-- One round of `slot_set_add`: what `calloc` and `mmap` return. -/
structure NewSlots where
  ptr : SlotSetPtr
  base : Addr

namespace SlotSet

/-- `BP_GET_SLOT_OFFSET`; the product is an `unsigned int`. -/
def slotOffset (s : SlotSet) (index : Nat) : Addr :=
  s.slots + (BitVec.ofNat 32 (index * slotSize)).setWidth 64

def isFree (s : SlotSet) (index : Nat) : Bool := Bitmap.bit s.freeSlot index

/-- A set as `slot_set_add` fills it in. -/
def fresh (base : Addr) : SlotSet where
  freeSlot := Vector.replicate slotMapLen (BitVec.allOnes 32)
  usedSlotCount := 0
  slots := base

/-- The scan over `free_slot`: where the loop stops, and the offset it found if any. -/
def scanMapFrom (s : SlotSet) : Nat → Nat → Nat × Option Nat
  | 0, idx => (idx, none)
  | fuel + 1, idx =>
    let word := s.freeSlot[idx]?.getD 0
    if word = 0 then scanMapFrom s fuel (idx + 1)
    else if ffs word + idx * uintBitNum > slotNum then (idx, none)
    else (idx, some (ffs word - 1))

def scanMap (s : SlotSet) (idx : Nat) : Nat × Option Nat :=
  s.scanMapFrom (slotMapLen - idx) idx

/-- What `slot_alloc` does with one set of the list while it holds the set's lock. -/
inductive Visit where
  | skip (idx : Nat)
  | found (idx pos : Nat)

def visit (s : SlotSet) (idx : Nat) : Visit :=
  if s.usedSlotCount = BitVec.ofNat 32 slotNum then .skip idx
  else match s.scanMap idx with
    | (idx, some pos) => .found idx pos
    | (idx, none) => .skip idx

/-- The end of `slot_alloc`: clear the bit and count the slot. -/
def claim (s : SlotSet) (idx pos : Nat) : SlotSet :=
  { s with
    freeSlot := Bitmap.clear s.freeSlot idx pos
    usedSlotCount := s.usedSlotCount + 1 }

/-- The locked part of `slot_free`. -/
def release (s : SlotSet) (index : Nat) : SlotSet :=
  if s.isFree index then s
  else
    { s with
      freeSlot := Bitmap.set s.freeSlot (index / uintBitNum) (index % uintBitNum)
      usedSlotCount := s.usedSlotCount - 1 }

end SlotSet

namespace SlotHeap

/-- The empty list `slot_sets` of a process that has not allocated a slot. -/
def empty : SlotHeap := ⟨fun _ => .fresh 0, []⟩

def modify (h : SlotHeap) (p : SlotSetPtr) (f : SlotSet → SlotSet) : SlotHeap :=
  { h with slotSet := Function.update h.slotSet p (f (h.slotSet p)) }

/-- `slot_set_add`, which links the new set at the head. -/
def slotSetAdd (h : SlotHeap) (new : NewSlots) : SlotHeap where
  slotSet := Function.update h.slotSet new.ptr (.fresh new.base)
  slotSets := new.ptr :: h.slotSets

/-- The walk of `slot_alloc` along the list; `idx` is carried from set to set. -/
def scanSets (h : SlotHeap) : List SlotSetPtr → Nat → Option (SlotSetPtr × Nat × Nat)
  | [], _ => none
  | p :: ps, idx =>
    match (h.slotSet p).visit idx with
    | .found idx pos => some (p, idx, pos)
    | .skip idx => scanSets h ps idx

/-- `slot_alloc`. Each retry uses up one successful `calloc` and `mmap`;
when they run out the call ends in `abort()`. -/
def slotAlloc : List NewSlots → SlotHeap → Except Fault (SlotHeap × List NewSlots × SlotSetPtr × Nat)
  | news, h =>
    match h.scanSets h.slotSets 0 with
    | some (p, idx, pos) =>
      .ok (h.modify p (·.claim idx pos), news, p, idx * uintBitNum + pos)
    | none =>
      match news with
      | [] => .error .abort
      | new :: news => slotAlloc news (h.slotSetAdd new)

/-- `slot_free`; the assertion bounds the index by `UINT_BIT_NUM`. -/
def slotFree (h : SlotHeap) (p : SlotSetPtr) (index : Nat) : Except Fault SlotHeap :=
  if index < uintBitNum then .ok (h.modify p (·.release index)) else .error .assertion

end SlotHeap

namespace SlotSet

variable {s : SlotSet} {idx j pos i n : Nat}

/-- The counter agrees with the bitmap. -/
def Counted (s : SlotSet) : Prop :=
  s.usedSlotCount.toNat = (Bitmap.zeros s.freeSlot).card

theorem isFree_word (hp : pos < 32) :
    s.isFree (idx * 32 + pos) = (s.freeSlot[idx]?.getD 0).getLsbD pos :=
  Bitmap.bit_word hp

/-- A word of the bitmap that is 0 has no free slot in it. -/
theorem isFree_of_word_eq_zero (hw : s.freeSlot[idx]?.getD 0 = 0) (hi : i / 32 = idx) :
    s.isFree i = false := by
  rw [isFree, Bitmap.bit, hi, hw]
  exact BitVec.getLsbD_zero

theorem scanMapFrom_found (h : s.scanMapFrom n idx = (j, some pos)) (hn : idx + n = 32) :
    idx ≤ j ∧ j < 32 ∧ pos < 32 ∧ s.isFree (j * 32 + pos) = true ∧
      ∀ i, idx * 32 ≤ i → i < j * 32 + pos → s.isFree i = false := by
  induction n generalizing idx with
  | zero => simp [scanMapFrom] at h
  | succ n ih =>
    simp only [scanMapFrom] at h
    split at h
    · rename_i hw
      obtain ⟨hij, hj, hp, hf, hlow⟩ := ih h (by omega)
      refine ⟨by omega, hj, hp, hf, ?_⟩
      intro i hi hlt
      by_cases hnext : (idx + 1) * 32 ≤ i
      · exact hlow i hnext hlt
      · exact isFree_of_word_eq_zero hw (by omega)
    · rename_i hw
      split at h
      · simp at h
      · simp only [Prod.mk.injEq, Option.some.injEq] at h
        obtain ⟨rfl, rfl⟩ := h
        have hle := ffs_le (s.freeSlot[idx]?.getD 0)
        have hpos := ffs_of_ne_zero hw
        refine ⟨le_rfl, by omega, by omega, ?_, ?_⟩
        · rw [isFree_word (by omega)]
          exact getLsbD_ffs hw
        · intro i hi hlt
          have hi' : i = idx * 32 + (i - idx * 32) := by omega
          rw [hi', isFree_word (by omega)]
          exact getLsbD_of_lt_ffs (by omega)

/-- The `break` at the end of the map is never taken, so a failed scan saw every word. -/
theorem scanMapFrom_none (h : s.scanMapFrom n idx = (j, none)) (hn : idx + n = 32) :
    j = 32 ∧ ∀ i, idx * 32 ≤ i → i < 1024 → s.isFree i = false := by
  induction n generalizing idx with
  | zero =>
    simp only [scanMapFrom, Prod.mk.injEq, and_true] at h
    exact ⟨by omega, by intro i hi hlt; omega⟩
  | succ n ih =>
    simp only [scanMapFrom] at h
    split at h
    · rename_i hw
      obtain ⟨hj, hlow⟩ := ih h (by omega)
      refine ⟨hj, ?_⟩
      intro i hi hlt
      by_cases hnext : (idx + 1) * 32 ≤ i
      · exact hlow i hnext hlt
      · exact isFree_of_word_eq_zero hw (by omega)
    · split at h
      · rename_i hbreak
        have hle := ffs_le (s.freeSlot[idx]?.getD 0)
        simp only [slotNum_eq, uintBitNum_eq] at hbreak
        omega
      · simp at h

/-- A claimed slot is the lowest free one at or after the scan index. -/
theorem visit_found (h : s.visit idx = .found j pos) (hi : idx ≤ 32) :
    idx ≤ j ∧ j < 32 ∧ pos < 32 ∧ s.isFree (j * 32 + pos) = true ∧
      ∀ i, idx * 32 ≤ i → i < j * 32 + pos → s.isFree i = false := by
  unfold visit at h
  split at h
  · cases h
  · split at h
    · rename_i heq
      obtain ⟨rfl, rfl⟩ := Visit.found.inj h
      exact scanMapFrom_found heq (by simp; omega)
    · cases h

theorem visit_skip (h : s.visit idx = .skip j) (hi : idx ≤ 32) :
    (s.usedSlotCount = 1024 ∧ j = idx) ∨
      (j = 32 ∧ ∀ i, idx * 32 ≤ i → i < 1024 → s.isFree i = false) := by
  unfold visit at h
  split at h
  · rename_i hfull
    exact Or.inl ⟨hfull, (Visit.skip.inj h).symm⟩
  · split at h
    · cases h
    · rename_i heq
      obtain rfl := Visit.skip.inj h
      exact Or.inr (scanMapFrom_none heq (by simp; omega))

theorem visit_skip_le (h : s.visit idx = .skip j) (hi : idx ≤ 32) : j ≤ 32 := by
  rcases visit_skip h hi with ⟨_, rfl⟩ | ⟨rfl, _⟩
  · exact hi
  · exact le_rfl

theorem counted_fresh (base : Addr) : (fresh base).Counted := by
  rw [Counted, fresh, Bitmap.zeros_replicate_allOnes]
  rfl

theorem isFree_fresh (base : Addr) (hi : i < 1024) : (fresh base).isFree i = true :=
  Bitmap.bit_replicate_allOnes hi

theorem isFree_claim (hj : j < 32) (hp : pos < 32) (i : Nat) :
    (s.claim j pos).isFree i = (s.isFree i && decide (i ≠ j * 32 + pos)) :=
  Bitmap.bit_clear (by simpa using hj) hp i

theorem isFree_release (hi : i < 1024) (k : Nat) :
    (s.release i).isFree k = (s.isFree k || decide (k = i)) := by
  unfold release
  split
  · rename_i hf
    by_cases hk : k = i <;> simp [hk, hf]
  · rw [isFree, Bitmap.bit_set (by simp; omega) (by simp; omega)]
    simp [isFree, Nat.div_add_mod']

theorem Counted.le (h : s.Counted) : s.usedSlotCount.toNat ≤ 1024 := by
  rw [h]
  exact Bitmap.card_zeros_le s.freeSlot

theorem Counted.full_iff (h : s.Counted) :
    s.usedSlotCount.toNat = 1024 ↔ ∀ i < 1024, s.isFree i = false := by
  rw [h]
  exact Bitmap.card_zeros_eq_iff

/-- Claiming a free slot of a set that agrees with its counter does not overflow it. -/
theorem Counted.claim (h : s.Counted) (hj : j < 32) (hp : pos < 32)
    (hf : s.isFree (j * 32 + pos) = true) :
    (s.claim j pos).usedSlotCount.toNat = s.usedSlotCount.toNat + 1 ∧ (s.claim j pos).Counted := by
  have hcard := Bitmap.card_zeros_clear (by simpa using hj) hp hf
  have hle := h.le
  have hcount : (s.claim j pos).usedSlotCount.toNat = s.usedSlotCount.toNat + 1 := by
    have hone : (1 : BitVec 32).toNat = 1 := rfl
    simp only [SlotSet.claim, BitVec.toNat_add, hone]
    omega
  exact ⟨hcount, by rw [Counted, hcount, h]; exact hcard.symm⟩

/-- Releasing an allocated slot of such a set does not wrap the counter below 0. -/
theorem Counted.release (h : s.Counted) (hi : i < 1024) (hf : s.isFree i = false) :
    (s.release i).usedSlotCount.toNat + 1 = s.usedSlotCount.toNat ∧ (s.release i).Counted := by
  have hidx : i / 32 * 32 + i % 32 = i := Nat.div_add_mod' i 32
  have hbit : Bitmap.bit s.freeSlot (i / 32 * 32 + i % 32) = false := by
    rw [hidx]
    exact hf
  have hcard := Bitmap.card_zeros_set (by simp; omega) (by omega) hbit
  have hle := h.le
  have hcount : (s.release i).usedSlotCount.toNat + 1 = s.usedSlotCount.toNat := by
    have hone : (1 : BitVec 32).toNat = 1 := rfl
    simp only [SlotSet.release, hf, Bool.false_eq_true, if_false, BitVec.toNat_sub, hone]
    have hc : s.usedSlotCount.toNat = (Bitmap.zeros s.freeSlot).card := h
    omega
  refine ⟨hcount, ?_⟩
  have hc : s.usedSlotCount.toNat = (Bitmap.zeros s.freeSlot).card := h
  simp only [Counted, SlotSet.release, hf, Bool.false_eq_true, if_false] at hcount ⊢
  simp only [uintBitNum_eq]
  omega

theorem release_of_isFree (hf : s.isFree i = true) : s.release i = s := by
  simp [SlotSet.release, hf]

theorem Counted.release' (h : s.Counted) (hi : i < 1024) : (s.release i).Counted := by
  cases hf : s.isFree i with
  | true => rwa [release_of_isFree hf]
  | false => exact (h.release hi hf).2

/-- First fit within a set: the visit finds the lowest free slot. -/
theorem visit_lowest (hc : s.Counted) (hi : i < 1024) (hf : s.isFree i = true)
    (hlow : ∀ k < i, s.isFree k = false) : s.visit 0 = .found (i / 32) (i % 32) := by
  cases hv : s.visit 0 with
  | skip j =>
    rcases visit_skip hv (by omega) with ⟨hfull, _⟩ | ⟨_, hnone⟩
    · have := hc.full_iff.mp (by rw [hfull]; rfl) i hi
      simp [hf] at this
    · simp [hnone i (by omega) hi] at hf
  | found j pos =>
    obtain ⟨_, hj, hp, hfree, hbelow⟩ := visit_found hv (by omega)
    have hge : ¬ i < j * 32 + pos := by
      intro hlt
      simp [hbelow i (by omega) hlt] at hf
    have hle : ¬ j * 32 + pos < i := by
      intro hlt
      simp [hlow _ hlt] at hfree
    have he : i = j * 32 + pos := by omega
    subst he
    congr 1 <;> omega

end SlotSet

namespace SlotHeap

variable {h : SlotHeap} {p : SlotSetPtr} {ps : List SlotSetPtr} {idx j pos : Nat}

/-- A scan that finds a slot has skipped the sets in front of the one that has it. -/
theorem scanSets_some_induct {motive : List SlotSetPtr → Nat → Prop}
    (found : ∀ ps idx, (h.slotSet p).visit idx = .found j pos → motive (p :: ps) idx)
    (skip : ∀ q ps idx idx', (h.slotSet q).visit idx = .skip idx' → motive ps idx' →
      motive (q :: ps) idx)
    (hs : h.scanSets ps idx = some (p, j, pos)) : motive ps idx := by
  induction ps generalizing idx with
  | nil => cases hs
  | cons q ps ih =>
    rw [scanSets] at hs
    cases hv : (h.slotSet q).visit idx with
    | found j' pos' =>
      rw [hv] at hs
      cases hs
      exact found ps idx hv
    | skip idx' =>
      rw [hv] at hs
      exact skip q ps idx idx' hv (ih hs)

/-- One that finds none has skipped them all. -/
theorem scanSets_none_induct {motive : List SlotSetPtr → Nat → Prop}
    (stop : ∀ idx, motive [] idx)
    (skip : ∀ q ps idx idx', (h.slotSet q).visit idx = .skip idx' → motive ps idx' →
      motive (q :: ps) idx)
    (hs : h.scanSets ps idx = none) : motive ps idx := by
  induction ps generalizing idx with
  | nil => exact stop idx
  | cons q ps ih =>
    rw [scanSets] at hs
    cases hv : (h.slotSet q).visit idx with
    | found j pos =>
      rw [hv] at hs
      cases hs
    | skip idx' =>
      rw [hv] at hs
      exact skip q ps idx idx' hv (ih hs)

/-- A slot that the walk finds belongs to a set of the list and is free. -/
theorem scanSets_found (hs : h.scanSets ps idx = some (p, j, pos)) (hi : idx ≤ 32) :
    p ∈ ps ∧ j < 32 ∧ pos < 32 ∧ (h.slotSet p).isFree (j * 32 + pos) = true := by
  induction ps generalizing idx with
  | nil => cases hs
  | cons q ps ih =>
    simp only [scanSets] at hs
    split at hs
    · rename_i hv
      cases hs
      obtain ⟨_, hj, hpos, hfree, _⟩ := SlotSet.visit_found hv hi
      exact ⟨List.mem_cons_self, hj, hpos, hfree⟩
    · rename_i hv
      obtain ⟨hp, hrest⟩ := ih hs (SlotSet.visit_skip_le hv hi)
      exact ⟨List.mem_cons_of_mem _ hp, hrest⟩

theorem scanSets_slotSetAdd (h : SlotHeap) (new : NewSlots) :
    (h.slotSetAdd new).scanSets (h.slotSetAdd new).slotSets 0 = some (new.ptr, 0, 0) := by
  have hv : (SlotSet.fresh new.base).visit 0 = .found 0 0 :=
    SlotSet.visit_lowest (i := 0) (SlotSet.counted_fresh _) (by omega)
      (SlotSet.isFree_fresh _ (by omega)) (by omega)
  simp [slotSetAdd, scanSets, hv]

/-- At most one set is added: the retry takes slot 0 of it. -/
theorem slotAlloc_eq (h : SlotHeap) (news : List NewSlots) :
    h.slotAlloc news =
      match h.scanSets h.slotSets 0 with
      | some (p, j, pos) => .ok (h.modify p (·.claim j pos), news, p, j * uintBitNum + pos)
      | none =>
        match news with
        | [] => .error .abort
        | new :: rest => .ok ((h.slotSetAdd new).modify new.ptr (·.claim 0 0), rest, new.ptr, 0) := by
  unfold slotAlloc
  cases hs : h.scanSets h.slotSets 0 with
  | some r => rfl
  | none =>
    cases news with
    | nil => rfl
    | cons new rest =>
      unfold slotAlloc
      simp only [scanSets_slotSetAdd]
      rfl

end SlotHeap

end Atrace.Signal

import Atrace.Lib.Run
import Atrace.Signal.SlotSet

/-! Threads interleaving the locked sections of `slot_alloc` and `slot_free`. -/
namespace Atrace.Signal

open Atrace.Lib

/-- Where a thread is in `slot_alloc`. A scanning thread holds `slot_sets_lock` for reading. -/
inductive AllocPc where
  | idle
  | retry
  | scanning (rest : List SlotSetPtr) (idx : Nat)
  | growing

/-- The allocator shared by the threads `ι`, with the slots held by live allocations. -/
structure AllocState (ι : Type*) where
  heap : SlotHeap
  pc : ι → AllocPc
  live : List (SlotSetPtr × Nat)

inductive AllocEvent (ι : Type*) where
  | call (t : ι)
  | lock (t : ι)
  | skip (t : ι)
  | claim (t : ι)
  | unlock (t : ι)
  | grow (t : ι)
  | free (t : ι)

variable {ι : Type*} [DecidableEq ι]

namespace AllocState

def setPc (s : AllocState ι) (t : ι) (pc : AllocPc) : AllocState ι :=
  { s with pc := Function.update s.pc t pc }

/-- Some thread holds `slot_sets_lock` for reading. -/
def Reading (s : AllocState ι) : Prop := ∃ t rest idx, s.pc t = .scanning rest idx

@[simp] theorem setPc_heap (s : AllocState ι) (t : ι) (pc : AllocPc) :
    (s.setPc t pc).heap = s.heap := rfl

@[simp] theorem setPc_live (s : AllocState ι) (t : ι) (pc : AllocPc) :
    (s.setPc t pc).live = s.live := rfl

theorem setPc_pc (s : AllocState ι) (t u : ι) (pc : AllocPc) :
    (s.setPc t pc).pc u = if u = t then pc else s.pc u := by
  simp [setPc, Function.update_apply]

end AllocState

/-- One locked section. The visit of a set runs under that set's lock, `grow` is
`slot_set_add` and needs `slot_sets_lock` for writing. -/
inductive AllocStep : AllocState ι → AllocEvent ι → AllocState ι → Prop where
  | call {s : AllocState ι} {t : ι} (hpc : s.pc t = .idle) :
      AllocStep s (.call t) (s.setPc t .retry)
  | lock {s : AllocState ι} {t : ι} (hpc : s.pc t = .retry) :
      AllocStep s (.lock t) (s.setPc t (.scanning s.heap.slotSets 0))
  | skip {s : AllocState ι} {t : ι} {p : SlotSetPtr} {ps : List SlotSetPtr} {idx idx' : Nat}
      (hpc : s.pc t = .scanning (p :: ps) idx)
      (hv : (s.heap.slotSet p).visit idx = .skip idx') :
      AllocStep s (.skip t) (s.setPc t (.scanning ps idx'))
  | claim {s : AllocState ι} {t : ι} {p : SlotSetPtr} {ps : List SlotSetPtr} {idx j pos : Nat}
      (hpc : s.pc t = .scanning (p :: ps) idx)
      (hv : (s.heap.slotSet p).visit idx = .found j pos) :
      AllocStep s (.claim t)
        { s.setPc t .idle with
          heap := s.heap.modify p (·.claim j pos)
          live := (p, j * uintBitNum + pos) :: s.live }
  | unlock {s : AllocState ι} {t : ι} {idx : Nat} (hpc : s.pc t = .scanning [] idx) :
      AllocStep s (.unlock t) (s.setPc t .growing)
  | grow {s : AllocState ι} {t : ι} {n : NewSlots} (hpc : s.pc t = .growing)
      (hlock : ¬ s.Reading) (hnew : n.ptr ∉ s.heap.slotSets) :
      AllocStep s (.grow t) { s.setPc t .retry with heap := s.heap.slotSetAdd n }
  | free {s : AllocState ι} {t : ι} {p : SlotSetPtr} {index : Nat} {heap : SlotHeap}
      (hpc : s.pc t = .idle) (hp : p ∈ s.heap.slotSets)
      (hfree : s.heap.slotFree p index = .ok heap) :
      AllocStep s (.free t) { s with heap := heap, live := s.live.erase (p, index) }

/-- No slot set exists and no thread is inside the allocator. -/
def AllocInitial (s : AllocState ι) : Prop :=
  s.heap.slotSets = [] ∧ s.live = [] ∧ ∀ t, s.pc t = .idle

/-- Bitmap, counter and live allocations of one slot set agree. -/
structure SetAgrees (s : SlotSet) (p : SlotSetPtr) (live : List (SlotSetPtr × Nat)) : Prop where
  bit : ∀ i < slotNum, s.isFree i = false ↔ (p, i) ∈ live
  count : s.usedSlotCount.toNat = (Bitmap.zeros s.freeSlot).card
  le : s.usedSlotCount.toNat ≤ slotNum

/-- The invariant of the locked sections. -/
structure AllocInv (s : AllocState ι) : Prop where
  counted : ∀ p ∈ s.heap.slotSets, (s.heap.slotSet p).Counted
  bit : ∀ p ∈ s.heap.slotSets, ∀ i < 1024,
    (s.heap.slotSet p).isFree i = false ↔ (p, i) ∈ s.live
  listed : ∀ a ∈ s.live, a.1 ∈ s.heap.slotSets ∧ a.2 < 1024
  nodup : s.live.Nodup
  walk : ∀ t rest idx, s.pc t = .scanning rest idx → rest ⊆ s.heap.slotSets ∧ idx ≤ 32

variable {s s' : AllocState ι} {t : ι} {e : AllocEvent ι}

theorem walk_setPc {pc : AllocPc} (hi : AllocInv s)
    (hpc : ∀ rest idx, pc = .scanning rest idx → rest ⊆ s.heap.slotSets ∧ idx ≤ 32) :
    ∀ u rest idx, (s.setPc t pc).pc u = .scanning rest idx →
      rest ⊆ s.heap.slotSets ∧ idx ≤ 32 := by
  intro u rest idx hu
  rw [AllocState.setPc_pc] at hu
  split at hu
  · exact hpc rest idx hu
  · exact hi.walk u rest idx hu

/-- Moving a thread inside the allocator leaves the allocator data alone. -/
theorem allocInv_setPc {pc : AllocPc} (hi : AllocInv s)
    (hpc : ∀ rest idx, pc = .scanning rest idx → rest ⊆ s.heap.slotSets ∧ idx ≤ 32) :
    AllocInv (s.setPc t pc) :=
  ⟨hi.counted, hi.bit, hi.listed, hi.nodup, walk_setPc hi hpc⟩

theorem allocInv_claim {p : SlotSetPtr} {ps : List SlotSetPtr} {idx j pos : Nat}
    (hi : AllocInv s) (hpc : s.pc t = .scanning (p :: ps) idx)
    (hv : (s.heap.slotSet p).visit idx = .found j pos) :
    AllocInv { s.setPc t .idle with
      heap := s.heap.modify p (·.claim j pos)
      live := (p, j * uintBitNum + pos) :: s.live } := by
  obtain ⟨hsub, hidx⟩ := hi.walk t _ _ hpc
  have hp : p ∈ s.heap.slotSets := hsub List.mem_cons_self
  obtain ⟨_, hj, hpos, hfree, _⟩ := SlotSet.visit_found hv hidx
  have hnew : (p, j * 32 + pos) ∉ s.live := by
    intro hlive
    simp [(hi.bit p hp _ (by omega)).mpr hlive] at hfree
  constructor
  · intro q hq
    by_cases hqp : q = p
    · subst q
      simpa [SlotHeap.modify] using ((hi.counted p hp).claim hj hpos hfree).2
    · simpa [SlotHeap.modify, Function.update, hqp] using hi.counted q hq
  · intro q hq i hlt
    by_cases hqp : q = p
    · subst q
      have hb := hi.bit p hp i hlt
      by_cases hij : i = j * 32 + pos <;>
        simp_all [SlotHeap.modify, SlotSet.isFree_claim hj hpos]
    · simpa [SlotHeap.modify, Function.update, hqp] using hi.bit q hq i hlt
  · intro a ha
    rcases List.mem_cons.mp ha with rfl | ha
    · exact ⟨hp, by simp only [uintBitNum_eq]; omega⟩
    · exact hi.listed a ha
  · exact List.nodup_cons.mpr ⟨hnew, hi.nodup⟩
  · exact walk_setPc hi (by simp)

theorem allocInv_grow {new : NewSlots} (hi : AllocInv s) (hnew : new.ptr ∉ s.heap.slotSets) :
    AllocInv { s.setPc t .retry with heap := s.heap.slotSetAdd new } := by
  have hold : ∀ p ∈ s.heap.slotSets, p ≠ new.ptr := fun p hp he => hnew (he ▸ hp)
  constructor
  · intro p hp
    rcases List.mem_cons.mp hp with rfl | hp
    · simpa [SlotHeap.slotSetAdd] using SlotSet.counted_fresh new.base
    · simpa [SlotHeap.slotSetAdd, Function.update, hold p hp] using hi.counted p hp
  · intro p hp i hlt
    rcases List.mem_cons.mp hp with rfl | hp
    · have hnone : (new.ptr, i) ∉ s.live := fun hlive => hnew (hi.listed _ hlive).1
      simpa [SlotHeap.slotSetAdd, SlotSet.isFree_fresh new.base hlt] using hnone
    · simpa [SlotHeap.slotSetAdd, Function.update, hold p hp] using hi.bit p hp i hlt
  · intro a ha
    obtain ⟨hp, hlt⟩ := hi.listed a ha
    exact ⟨List.mem_cons_of_mem _ hp, hlt⟩
  · exact hi.nodup
  · intro u rest idx hu
    obtain ⟨hsub, hidx⟩ := walk_setPc hi (by simp) u rest idx hu
    exact ⟨List.subset_cons_of_subset _ hsub, hidx⟩

omit [DecidableEq ι] in
/-- A second free of the same slot finds the bit set and changes nothing. -/
theorem allocInv_free {p : SlotSetPtr} {index : Nat} {heap : SlotHeap} (hi : AllocInv s)
    (hp : p ∈ s.heap.slotSets) (hfree : s.heap.slotFree p index = .ok heap) :
    AllocInv { s with heap := heap, live := s.live.erase (p, index) } := by
  unfold SlotHeap.slotFree at hfree
  split at hfree
  · rename_i hlt
    rw [uintBitNum_eq] at hlt
    cases hfree
    constructor
    · intro q hq
      by_cases hqp : q = p
      · subst q
        simpa [SlotHeap.modify] using (hi.counted p hp).release' (show index < 1024 by omega)
      · simpa [SlotHeap.modify, Function.update, hqp] using hi.counted q hq
    · intro q hq i hltq
      by_cases hqp : q = p
      · subst q
        have hb := hi.bit p hp i hltq
        by_cases hii : i = index <;>
          simp_all [SlotHeap.modify, SlotSet.isFree_release (show index < 1024 by omega),
            hi.nodup.mem_erase_iff]
      · have hb := hi.bit q hq i hltq
        simp_all [SlotHeap.modify, Function.update, hi.nodup.mem_erase_iff]
    · intro a ha
      exact hi.listed a (List.mem_of_mem_erase ha)
    · exact hi.nodup.erase _
    · exact hi.walk
  · cases hfree

omit [DecidableEq ι] in
theorem allocInv_initial (h : AllocInitial s) : AllocInv s := by
  obtain ⟨hsets, hlive, hpc⟩ := h
  constructor <;> simp [hsets, hlive, hpc]

theorem allocInv_step (h : AllocStep s e s') (hi : AllocInv s) : AllocInv s' := by
  cases h with
  | call hpc => exact allocInv_setPc hi (by simp)
  | lock hpc =>
    apply allocInv_setPc hi
    intro rest idx he
    obtain ⟨rfl, rfl⟩ := AllocPc.scanning.inj he
    exact ⟨List.Subset.refl _, by omega⟩
  | skip hpc hv =>
    apply allocInv_setPc hi
    intro rest idx he
    obtain ⟨rfl, rfl⟩ := AllocPc.scanning.inj he
    obtain ⟨hsub, hidx⟩ := hi.walk _ _ _ hpc
    exact ⟨fun q hq => hsub (List.mem_cons_of_mem _ hq), SlotSet.visit_skip_le hv hidx⟩
  | claim hpc hv => exact allocInv_claim hi hpc hv
  | unlock hpc => exact allocInv_setPc hi (by simp)
  | grow hpc hlock hnew => exact allocInv_grow hi hnew
  | free hpc hp hfree => exact allocInv_free hi hp hfree

theorem allocInv_reachable (h : Reachable AllocStep AllocInitial s) : AllocInv s :=
  h.inv (fun _ => allocInv_initial) (fun _ _ _ => allocInv_step)

/-- The allocator invariant over every interleaving, for any number of threads. -/
theorem slot_allocator_agrees (h : Reachable AllocStep AllocInitial s) :
    (∀ p ∈ s.heap.slotSets, SetAgrees (s.heap.slotSet p) p s.live) ∧ s.live.Nodup := by
  have hi := allocInv_reachable h
  refine ⟨?_, hi.nodup⟩
  intro p hp
  exact ⟨hi.bit p hp, hi.counted p hp, (hi.counted p hp).le⟩

/-- Two threads find no set and both make one; the first then frees its slot. -/
theorem slot_allocator_agrees_two : ∃ s : AllocState Bool, s.heap.slotSets = [1, 0] ∧
    s.live = [(1, 0)] ∧ (∀ p ∈ s.heap.slotSets, SetAgrees (s.heap.slotSet p) p s.live) ∧
      s.live.Nodup := by
  have hv (base : Addr) : (SlotSet.fresh base).visit 0 = .found 0 0 :=
    SlotSet.visit_lowest (i := 0) (SlotSet.counted_fresh _) (by omega)
      (SlotSet.isFree_fresh _ (by omega)) (by omega)
  have h₀ : Reachable AllocStep AllocInitial (⟨.empty, fun _ => .idle, []⟩ : AllocState Bool) :=
    .initial ⟨rfl, rfl, fun _ => rfl⟩
  have h₁ := h₀.tail (.call (t := false) rfl)
  have h₂ := h₁.tail (.call (t := true) rfl)
  have h₃ := h₂.tail (.lock (t := false) rfl)
  have h₄ := h₃.tail (.lock (t := true) rfl)
  have h₅ := h₄.tail (.unlock (t := false) rfl)
  have h₆ := h₅.tail (.unlock (t := true) rfl)
  have h₇ := h₆.tail (.grow (t := false) (n := ⟨0, 0x10000⟩) rfl
    (by rintro ⟨t, rest, idx, hpc⟩; cases t <;> cases hpc) List.not_mem_nil)
  have h₈ := h₇.tail (.lock (t := false) rfl)
  have h₉ := h₈.tail (.claim (t := false) (p := 0) rfl (hv 0x10000))
  have h₁₀ := h₉.tail (.grow (t := true) (n := ⟨1, 0x20000⟩) rfl
    (by rintro ⟨t, rest, idx, hpc⟩; cases t <;> cases hpc) (show 1 ∉ [0] by decide))
  have h₁₁ := h₁₀.tail (.lock (t := true) rfl)
  have h₁₂ := h₁₁.tail (.claim (t := true) (p := 1) rfl (hv 0x20000))
  have h₁₃ := h₁₂.tail (@AllocStep.free _ _ _ false 0 0 _ rfl (by decide) rfl)
  exact ⟨_, rfl, rfl, slot_allocator_agrees h₁₃⟩

end Atrace.Signal

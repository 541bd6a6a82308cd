import Atrace.Signal.SlotMemory
import Atrace.Signal.SlotThreads
import Mathlib.Data.Nat.Find

/-! Whole calls of `slot_alloc` and `slot_free`: first fit, and what a free gives back. -/
namespace Atrace.Signal

open Atrace.Lib

section Threads

variable {ι : Type*} [DecidableEq ι] {s : AllocState ι} {t : ι} {ps : List SlotSetPtr}
  {idx j pos i : Nat} {p : SlotSetPtr} {news rest : List NewSlots} {h h' : SlotHeap}

namespace AllocState

/-- The state once the thread has the slot. -/
def took (s : AllocState ι) (h : SlotHeap) (p : SlotSetPtr) (i : Nat) : AllocState ι :=
  { s with heap := h, live := (p, i) :: s.live }

theorem setPc_setPc (s : AllocState ι) (t : ι) (pc pc' : AllocPc) :
    (s.setPc t pc).setPc t pc' = s.setPc t pc' := by
  simp [setPc]

theorem setPc_idle (hidle : s.pc t = .idle) : s.setPc t .idle = s := by
  rw [setPc, ← hidle, Function.update_eq_self]

end AllocState

theorem step_lock (s : AllocState ι) (t : ι) :
    AllocStep (s.setPc t .retry) (.lock t) (s.setPc t (.scanning s.heap.slotSets 0)) := by
  have hstep : AllocStep (s.setPc t .retry) (.lock t) _ := .lock (Function.update_self ..)
  rwa [AllocState.setPc_setPc] at hstep

theorem step_skip {idx' : Nat} (hv : (s.heap.slotSet p).visit idx = .skip idx') :
    AllocStep (s.setPc t (.scanning (p :: ps) idx)) (.skip t) (s.setPc t (.scanning ps idx')) := by
  have hstep : AllocStep (s.setPc t (.scanning (p :: ps) idx)) (.skip t) _ :=
    .skip (Function.update_self ..) hv
  rwa [AllocState.setPc_setPc] at hstep

theorem run_scan_found (hidle : s.pc t = .idle) (hs : s.heap.scanSets ps idx = some (p, j, pos)) :
    ∃ es, Run AllocStep (s.setPc t (.scanning ps idx)) es
      (s.took (s.heap.modify p (·.claim j pos)) p (j * uintBitNum + pos)) := by
  refine SlotHeap.scanSets_some_induct (motive := fun ps idx => ∃ es,
    Run AllocStep (s.setPc t (.scanning ps idx)) es
      (s.took (s.heap.modify p (·.claim j pos)) p (j * uintBitNum + pos))) ?_ ?_ hs
  · intro ps idx hv
    have hstep : AllocStep (s.setPc t (.scanning (p :: ps) idx)) (.claim t) _ :=
      .claim (Function.update_self ..) hv
    rw [AllocState.setPc_setPc, AllocState.setPc_idle hidle] at hstep
    exact ⟨_, .stepL hstep .refl⟩
  · rintro q ps idx idx' hv ⟨es, hrun⟩
    exact ⟨_, .stepL (step_skip hv) hrun⟩

theorem run_scan_none (hs : s.heap.scanSets ps idx = none) :
    ∃ es, Run AllocStep (s.setPc t (.scanning ps idx)) es (s.setPc t .growing) := by
  refine SlotHeap.scanSets_none_induct (motive := fun ps idx => ∃ es,
    Run AllocStep (s.setPc t (.scanning ps idx)) es (s.setPc t .growing)) ?_ ?_ hs
  · intro idx
    have hstep : AllocStep (s.setPc t (.scanning [] idx)) (.unlock t) _ :=
      .unlock (Function.update_self ..)
    rw [AllocState.setPc_setPc] at hstep
    exact ⟨_, .stepL hstep .refl⟩
  · rintro q ps idx idx' hv ⟨es, hrun⟩
    exact ⟨_, .stepL (step_skip hv) hrun⟩

/-- A whole call of `slot_alloc` is a run of its locked sections. -/
theorem run_slotAlloc (hidle : ∀ u, s.pc u = .idle) (t : ι)
    (hnew : ∀ new ∈ news, new.ptr ∉ s.heap.slotSets)
    (h : s.heap.slotAlloc news = .ok (h', rest, p, i)) :
    ∃ es, Run AllocStep s es (s.took h' p i) := by
  have hcall : AllocStep s (.call t) (s.setPc t .retry) := .call (hidle t)
  rw [SlotHeap.slotAlloc_eq] at h
  cases hs : s.heap.scanSets s.heap.slotSets 0 with
  | some r =>
    obtain ⟨q, j, pos⟩ := r
    rw [hs] at h
    cases h
    obtain ⟨es, hrun⟩ := run_scan_found (hidle t) hs
    exact ⟨_, .stepL hcall (.stepL (step_lock s t) hrun)⟩
  | none =>
    rw [hs] at h
    cases news with
    | nil => cases h
    | cons new news =>
      cases h
      obtain ⟨es, hscan⟩ := run_scan_none (t := t) hs
      have hgrow : AllocStep (s.setPc t .growing) (.grow t) _ :=
        .grow (Function.update_self ..) ?_ (hnew new List.mem_cons_self)
      · rw [AllocState.setPc_setPc] at hgrow
        obtain ⟨es', hrun⟩ := run_scan_found (s := { s with heap := s.heap.slotSetAdd new })
          (hidle t) (SlotHeap.scanSets_slotSetAdd s.heap new)
        have hretry := step_lock { s with heap := s.heap.slotSetAdd new } t
        exact ⟨_, .stepL hcall (.stepL (step_lock s t)
          (hscan.append (.stepL hgrow (.stepL hretry hrun))))⟩
      · rintro ⟨u, rest, idx, hu⟩
        rw [AllocState.setPc_pc] at hu
        split at hu
        · cases hu
        · rw [hidle u] at hu
          cases hu

end Threads

/-- The calls of a process with one thread. -/
inductive SlotCall where
  | alloc (news : List NewSlots)
  | free (p : SlotSetPtr) (index : Nat)

/-- A call that returns. What `calloc` returns is not on the list already. -/
inductive SlotCallStep : SlotHeap → SlotCall → SlotHeap → Prop where
  | alloc {h h' : SlotHeap} {news rest : List NewSlots} {p : SlotSetPtr} {i : Nat}
      (hnew : ∀ new ∈ news, new.ptr ∉ h.slotSets) (hrun : h.slotAlloc news = .ok (h', rest, p, i)) :
      SlotCallStep h (.alloc news) h'
  | free {h h' : SlotHeap} {p : SlotSetPtr} {index : Nat} (hp : p ∈ h.slotSets)
      (hrun : h.slotFree p index = .ok h') : SlotCallStep h (.free p index) h'

/-- The states of the allocator between two calls. -/
def CallReachable : SlotHeap → Prop := Reachable SlotCallStep (·.slotSets = [])

/-- A process with one thread is a special case of one with many. -/
theorem CallReachable.threads {h : SlotHeap} (hr : CallReachable h) :
    ∃ s : AllocState Unit, Reachable AllocStep AllocInitial s ∧ (∀ t, s.pc t = .idle) ∧
      s.heap = h := by
  refine Reachable.inv (P := fun h => ∃ s : AllocState Unit,
    Reachable AllocStep AllocInitial s ∧ (∀ t, s.pc t = .idle) ∧ s.heap = h) ?_ ?_ hr
  · intro h hempty
    exact ⟨⟨h, fun _ => .idle, []⟩, .initial ⟨hempty, rfl, fun _ => rfl⟩, fun _ => rfl, rfl⟩
  · rintro h c h' hstep ⟨s, hs, hidle, rfl⟩
    cases hstep with
    | alloc hnew hrun =>
      obtain ⟨es, hrun⟩ := run_slotAlloc hidle () hnew hrun
      obtain ⟨s₀, es₀, h₀, hrun₀⟩ := hs
      exact ⟨_, ⟨s₀, _, h₀, hrun₀.append hrun⟩, hidle, rfl⟩
    | free hp hrun => exact ⟨_, hs.tail (.free (t := ()) (hidle ()) hp hrun), hidle, rfl⟩

theorem CallReachable.counted {h : SlotHeap} (hr : CallReachable h) :
    ∀ p ∈ h.slotSets, (h.slotSet p).Counted := by
  obtain ⟨s, hs, _, rfl⟩ := hr.threads
  exact (allocInv_reachable hs).counted

section FirstFit

variable {s : SlotSet} {h h' : SlotHeap} {p : SlotSetPtr} {ps : List SlotSetPtr} {idx i : Nat}
  {new : NewSlots} {news : List NewSlots}

namespace SlotSet

/-- `used_slot_count < SLOT_NUM` -/
def HasRoom (s : SlotSet) : Prop := s.usedSlotCount.toNat < slotNum

instance (s : SlotSet) : Decidable s.HasRoom := inferInstanceAs (Decidable (_ < _))

def LowestFree (s : SlotSet) (i : Nat) : Prop :=
  i < slotNum ∧ s.isFree i = true ∧ ∀ k < i, s.isFree k = false

theorem Counted.hasRoom_of_ne (hc : s.Counted)
    (hne : s.usedSlotCount ≠ BitVec.ofNat 32 slotNum) : s.HasRoom := by
  have hle := hc.le
  have hne' : s.usedSlotCount.toNat ≠ 1024 := fun he => hne (BitVec.eq_of_toNat_eq he)
  simp only [HasRoom, slotNum_eq]
  omega

theorem Counted.hasRoom_iff (hc : s.Counted) : s.HasRoom ↔ ∃ i, s.LowestFree i := by
  have hle := hc.le
  have hfull := hc.full_iff
  constructor
  · intro hroom
    have hsome : ∃ i, i < 1024 ∧ s.isFree i = true := by
      by_contra hnone
      have hall : ∀ i < 1024, s.isFree i = false := by
        intro i hi
        rw [← Bool.not_eq_true]
        exact fun hf => hnone ⟨i, hi, hf⟩
      have := hfull.mpr hall
      simp only [HasRoom, slotNum_eq] at hroom
      omega
    obtain ⟨hi, hf⟩ := Nat.find_spec hsome
    refine ⟨Nat.find hsome, hi, hf, ?_⟩
    intro k hk
    rw [← Bool.not_eq_true]
    exact fun hfk => Nat.find_min hsome hk ⟨by omega, hfk⟩
  · rintro ⟨i, hi, hf, _⟩
    simp only [HasRoom, slotNum_eq] at hi ⊢
    by_contra hroom
    simp [hfull.mp (by omega) i hi] at hf

/-- Only a full set is passed over, and the scan index is then left alone. -/
theorem visit_of_full (hc : s.Counted) (hroom : ¬ s.HasRoom) : s.visit idx = .skip idx := by
  have hfull : s.usedSlotCount = BitVec.ofNat 32 slotNum := by
    by_contra hne
    exact hroom (hc.hasRoom_of_ne hne)
  rw [visit, if_pos hfull]

theorem LowestFree.visit (hl : s.LowestFree i) (hc : s.Counted) :
    s.visit 0 = .found (i / 32) (i % 32) :=
  visit_lowest hc hl.1 hl.2.1 hl.2.2

end SlotSet

namespace SlotHeap

/-- The walk from `ps` on, with this scan index, comes to the set `p` with the scan index `i`. -/
inductive Visits (h : SlotHeap) : List SlotSetPtr → Nat → SlotSetPtr → Nat → Prop where
  | here {p : SlotSetPtr} {ps : List SlotSetPtr} {idx : Nat} : Visits h (p :: ps) idx p idx
  | next {p q : SlotSetPtr} {ps : List SlotSetPtr} {idx idx' i : Nat}
      (hv : (h.slotSet q).visit idx = .skip idx') (hrest : Visits h ps idx' p i) :
      Visits h (q :: ps) idx p i

/-- The sets as an attempt of the call finds them; a `goto retry` starts the next attempt. -/
inductive Attempt : SlotHeap → List NewSlots → SlotHeap → Prop where
  | first {h : SlotHeap} {news : List NewSlots} : Attempt h news h
  | retry {h h' : SlotHeap} {new : NewSlots} {news : List NewSlots}
      (hnone : h.scanSets h.slotSets 0 = none) (hrest : Attempt (h.slotSetAdd new) news h') :
      Attempt h (new :: news) h'

theorem visits_zero (hc : ∀ p ∈ ps, (h.slotSet p).Counted) (hv : h.Visits ps 0 p i) :
    p ∈ ps ∧ i = 0 := by
  induction ps with
  | nil => cases hv
  | cons q ps ih =>
    cases hv with
    | here => exact ⟨List.mem_cons_self, rfl⟩
    | next hskip hrest =>
      -- a set with room would have ended the walk
      have hq := hc q List.mem_cons_self
      have hroom : ¬ (h.slotSet q).HasRoom := by
        intro hroom
        obtain ⟨k, hl⟩ := hq.hasRoom_iff.mp hroom
        rw [hl.visit hq] at hskip
        cases hskip
      rw [SlotSet.visit_of_full hq hroom] at hskip
      cases hskip
      obtain ⟨hp, hi⟩ := ih (fun q hq => hc q (List.mem_cons_of_mem _ hq)) hrest
      exact ⟨List.mem_cons_of_mem _ hp, hi⟩

theorem scanSets_full (hc : ∀ p ∈ ps, (h.slotSet p).Counted)
    (hfull : ∀ p ∈ ps, ¬ (h.slotSet p).HasRoom) : h.scanSets ps idx = none := by
  induction ps with
  | nil => rfl
  | cons q ps ih =>
    rw [scanSets, SlotSet.visit_of_full (hc q List.mem_cons_self) (hfull q List.mem_cons_self)]
    exact ih (fun q hq => hc q (List.mem_cons_of_mem _ hq))
      (fun q hq => hfull q (List.mem_cons_of_mem _ hq))

theorem scanSets_firstFit {qs : List SlotSetPtr} (hc : ∀ q ∈ ps ++ p :: qs, (h.slotSet q).Counted)
    (hfull : ∀ q ∈ ps, ¬ (h.slotSet q).HasRoom) (hl : (h.slotSet p).LowestFree i) :
    h.scanSets (ps ++ p :: qs) 0 = some (p, i / 32, i % 32) := by
  induction ps with
  | nil =>
    rw [List.nil_append, scanSets, hl.visit (hc p List.mem_cons_self)]
  | cons q ps ih =>
    rw [List.cons_append, scanSets,
      SlotSet.visit_of_full (hc q List.mem_cons_self) (hfull q List.mem_cons_self)]
    exact ih (fun q hq => hc q (List.mem_cons_of_mem _ hq))
      (fun q hq => hfull q (List.mem_cons_of_mem _ hq))

theorem counted_slotSetAdd (hc : ∀ p ∈ h.slotSets, (h.slotSet p).Counted) :
    ∀ p ∈ (h.slotSetAdd new).slotSets, ((h.slotSetAdd new).slotSet p).Counted := by
  intro p hp
  by_cases hnew : p = new.ptr
  · subst p
    simpa [slotSetAdd] using SlotSet.counted_fresh new.base
  · have hold := (List.mem_cons.mp hp).resolve_left hnew
    simpa [slotSetAdd, Function.update, hnew] using hc p hold

/-- A call makes a second attempt at most: the new set has room. -/
theorem Attempt.cases (ha : Attempt h news h') :
    h' = h ∨ ∃ new rest, news = new :: rest ∧ h' = h.slotSetAdd new := by
  cases ha with
  | first => exact Or.inl rfl
  | retry hnone hrest =>
    cases hrest with
    | first => exact Or.inr ⟨_, _, rfl, rfl⟩
    | retry hnone' =>
      rw [scanSets_slotSetAdd] at hnone'
      cases hnone'

/-- First fit: the lowest free slot of the first set with room, else the first slot of a new one. -/
structure FirstFit (h : SlotHeap) (news : List NewSlots) : Prop where
  room : ∀ ps p qs, h.slotSets = ps ++ p :: qs → (∀ q ∈ ps, ¬ (h.slotSet q).HasRoom) →
    (h.slotSet p).HasRoom → ∃ h' i, h.slotAlloc news = .ok (h', news, p, i) ∧
      (h.slotSet p).LowestFree i ∧ h'.slotSets = h.slotSets
  full : (∀ p ∈ h.slotSets, ¬ (h.slotSet p).HasRoom) → ∀ new rest, news = new :: rest →
    ∃ h', h.slotAlloc news = .ok (h', rest, new.ptr, 0) ∧ h'.slotSets = new.ptr :: h.slotSets
  attempts : ∀ h', Attempt h news h' →
    h' = h ∨ ∃ new rest, news = new :: rest ∧ h' = h.slotSetAdd new
  scan : ∀ h' p i, Attempt h news h' → h'.Visits h'.slotSets 0 p i →
    (h'.slotSet p).usedSlotCount ≠ BitVec.ofNat 32 slotNum →
      i = 0 ∧ ∃ k, (h'.slotSet p).LowestFree k ∧ (h'.slotSet p).visit i = .found (k / 32) (k % 32)

end SlotHeap

open SlotHeap

/-- Whatever calls came before, `slot_alloc` is first fit and its scan index is 0 at every scan. -/
theorem slotAlloc_firstFit (hr : CallReachable h) (news : List NewSlots) : FirstFit h news := by
  have hc := hr.counted
  refine ⟨?_, ?_, fun _ => Attempt.cases, ?_⟩
  · intro ps p qs hsets hfull hroom
    rw [hsets] at hc
    obtain ⟨i, hl⟩ := (hc p (by simp)).hasRoom_iff.mp hroom
    have hidx : i / 32 * 32 + i % 32 = i := Nat.div_add_mod' i 32
    refine ⟨h.modify p (·.claim (i / 32) (i % 32)), i, ?_, hl, rfl⟩
    rw [slotAlloc_eq, hsets, scanSets_firstFit hc hfull hl]
    simp only [uintBitNum_eq, hidx]
  · rintro hfull new rest rfl
    refine ⟨(h.slotSetAdd new).modify new.ptr (·.claim 0 0), ?_, rfl⟩
    rw [slotAlloc_eq, scanSets_full hc hfull]
  · intro h' p i ha hv hne
    have hc' : ∀ p ∈ h'.slotSets, (h'.slotSet p).Counted := by
      rcases ha.cases with rfl | ⟨new, rest, _, rfl⟩
      · exact hc
      · exact counted_slotSetAdd hc
    obtain ⟨hp, rfl⟩ := visits_zero hc' hv
    obtain ⟨k, hl⟩ := (hc' p hp).hasRoom_iff.mp ((hc' p hp).hasRoom_of_ne hne)
    exact ⟨rfl, k, hl, hl.visit (hc' p hp)⟩

/-- The state after `n` calls of `slot_alloc`, the first of which adds a set. -/
theorem callReachable_prefix {n : Nat} (hn : n < 1024) : ∃ h, CallReachable h ∧
    h.slotSets = [0] ∧ (h.slotSet 0).Prefix (n + 1) := by
  induction n with
  | zero =>
    have hrun : SlotHeap.empty.slotAlloc [⟨0, 0x10000⟩] =
        .ok ((SlotHeap.empty.slotSetAdd ⟨0, 0x10000⟩).modify 0 (·.claim 0 0), [], 0, 0) := by
      rw [slotAlloc_eq]
      rfl
    have h₀ : CallReachable .empty := .initial rfl
    refine ⟨_, h₀.tail (.alloc (by simp [SlotHeap.empty]) hrun), rfl, ?_⟩
    simpa [SlotHeap.modify, slotSetAdd] using prefix_claim (prefix_fresh 0x10000) (by omega)
  | succ n ih =>
    obtain ⟨h, hr, hsets, hs⟩ := ih (by omega)
    have hhead : h.slotSets.head? = some 0 := by rw [hsets]; rfl
    have hrun : h.slotAlloc [] = .ok (h.modify 0 (·.claim ((n + 1) / 32) ((n + 1) % 32)), [], 0,
        n + 1) := slotAlloc_prefix hhead hs (by omega)
    refine ⟨_, hr.tail (.alloc (by simp) hrun), hsets, ?_⟩
    simpa [SlotHeap.modify] using prefix_claim hs (by omega)

theorem slotAlloc_firstFit_second : ∃ h, h.slotSets = [0] ∧ FirstFit h [] := by
  obtain ⟨h, hr, hsets, _⟩ := callReachable_prefix (n := 0) (by omega)
  exact ⟨h, hsets, slotAlloc_firstFit hr []⟩

end FirstFit

section FreeBack

variable {ι : Type*} [DecidableEq ι] {s : AllocState ι} {h h' h'' : SlotHeap} {p : SlotSetPtr}
  {i : Nat} {news rest : List NewSlots}

namespace SlotHeap

/-- The set before the call; a set that the call adds has all its slots free. -/
def before (h : SlotHeap) (p : SlotSetPtr) : SlotSet :=
  if p ∈ h.slotSets then h.slotSet p else .fresh 0

/-- The free of slot `i` of `p` undoes the allocation that led from `h` to `h'`. -/
structure Undone (h h' h'' : SlotHeap) (rest : List NewSlots) (p : SlotSetPtr) (i : Nat) :
    Prop where
  bitmap : (h''.slotSet p).freeSlot = (h.before p).freeSlot
  count : (h''.slotSet p).usedSlotCount = (h.before p).usedSlotCount
  others : ∀ q ∈ h.slotSets, q ≠ p → h''.slotSet q = h.slotSet q
  listed : h''.slotSets = h'.slotSets
  again : h''.slotAlloc rest = .ok (h', rest, p, i)

/-- The first set of the list that is not full, if any, has one of its slots 0 to 31 free. -/
def FirstWordFree (h : SlotHeap) : Prop :=
  ∀ ps p qs, h.slotSets = ps ++ p :: qs → (∀ q ∈ ps, ¬ (h.slotSet q).HasRoom) →
    (h.slotSet p).HasRoom → (h.slotSet p).freeSlot[0] ≠ 0

end SlotHeap

theorem release_claim {s : SlotSet} {j pos : Nat} (hj : j < 32) (hp : pos < 32)
    (hf : s.isFree (j * 32 + pos) = true) : (s.claim j pos).release (j * 32 + pos) = s := by
  have htaken : (s.claim j pos).isFree (j * 32 + pos) = false := by
    simp [SlotSet.isFree_claim hj hp]
  have hdiv : (j * 32 + pos) / 32 = j := by omega
  have hmod : (j * 32 + pos) % 32 = pos := by omega
  have hcount : s.usedSlotCount + 1 - 1 = s.usedSlotCount := BitVec.add_sub_cancel ..
  rw [SlotSet.release, htaken, if_neg (by simp)]
  simp only [SlotSet.claim, uintBitNum_eq, hdiv, hmod]
  rw [Bitmap.set_clear (show j < slotMapLen from hj) hp hf, hcount]

open SlotHeap

/-- Slots 0 to 31 are the first word of the bitmap. -/
theorem word_ne_zero_iff {s : SlotSet} (hl : s.LowestFree i) : s.freeSlot[0] ≠ 0 ↔ i < 32 := by
  have hword : ∀ k < 32, s.isFree k = s.freeSlot[0].getLsbD k := by
    intro k hk
    have hbit : s.isFree (0 * 32 + k) = (s.freeSlot[0]?.getD 0).getLsbD k :=
      SlotSet.isFree_word hk
    rwa [Nat.zero_mul, Nat.zero_add, Vector.getElem?_eq_getElem (by decide)] at hbit
  obtain ⟨_, hf, hlow⟩ := hl
  constructor
  · intro hne
    have hle := ffs_le s.freeSlot[0]
    have hpos := ffs_of_ne_zero hne
    by_contra hi
    have hbit := hlow (ffs s.freeSlot[0] - 1) (by omega)
    rw [hword _ (by omega), getLsbD_ffs hne] at hbit
    cases hbit
  · intro hi hzero
    rw [hword i hi, hzero] at hf
    simp at hf

/-- An accepted free puts the set back as the allocation found it. -/
theorem slotFree_modify (h : SlotHeap) (p : SlotSetPtr) {j pos : Nat} (hj : j < 32) (hp : pos < 32)
    (hf : (h.slotSet p).isFree (j * 32 + pos) = true) (hlt : j * 32 + pos < 32) :
    (h.modify p (·.claim j pos)).slotFree p (j * 32 + pos) = .ok h := by
  have hback := release_claim hj hp hf
  have hupdate : ((h.modify p (·.claim j pos)).modify p (·.release (j * 32 + pos))) = h := by
    simp [SlotHeap.modify, hback]
  rw [slotFree, uintBitNum_eq, if_pos hlt, hupdate]

theorem slotFree_refused (h : SlotHeap) (hge : ¬ i < 32) : h.slotFree p i = .error .assertion := by
  rw [slotFree, uintBitNum_eq, if_neg hge]

theorem firstWordFree_iff {ps qs : List SlotSetPtr} (hc : ∀ p ∈ h.slotSets, (h.slotSet p).Counted)
    (hsets : h.slotSets = ps ++ p :: qs) (hfull : ∀ q ∈ ps, ¬ (h.slotSet q).HasRoom)
    (hl : (h.slotSet p).LowestFree i) : h.FirstWordFree ↔ i < 32 := by
  have hscan := scanSets_firstFit (hsets ▸ hc) hfull hl
  constructor
  · intro hfirst
    have hroom := (hc p (by simp [hsets])).hasRoom_iff.mpr ⟨i, hl⟩
    exact (word_ne_zero_iff hl).mp (hfirst ps p qs hsets hfull hroom)
  · intro hi ps' p' qs' hsets' hfull' hroom'
    obtain ⟨i', hl'⟩ := (hc p' (by simp [hsets'])).hasRoom_iff.mp hroom'
    -- the walk finds one set only
    have hscan' := scanSets_firstFit (hsets' ▸ hc) hfull' hl'
    rw [← hsets'] at hscan'
    rw [← hsets, hscan'] at hscan
    obtain rfl : p' = p := congrArg Prod.fst (Option.some.inj hscan)
    exact (word_ne_zero_iff hl).mpr hi

/-- An allocation is undone by a free of its slot just when the slot is one of the first 32 of its
set, which is decided by the first word of the first bitmap that is not used up. -/
theorem slotFree_undoes_iff (hs : Reachable AllocStep AllocInitial s)
    (hnew : ∀ new ∈ news, new.ptr ∉ s.heap.slotSets)
    (hrun : s.heap.slotAlloc news = .ok (h', rest, p, i)) :
    (∃ h'', h'.slotFree p i = .ok h'' ∧ Undone s.heap h' h'' rest p i) ↔
      s.heap.FirstWordFree := by
  have hc := (allocInv_reachable hs).counted
  cases hfind : s.heap.slotSets.find? fun q => decide (s.heap.slotSet q).HasRoom with
  | some q =>
    obtain ⟨hroom, ps, qs, hsets, hfull⟩ := List.find?_eq_some_iff_append.mp hfind
    have hfull : ∀ q ∈ ps, ¬ (s.heap.slotSet q).HasRoom := by simpa using hfull
    have hq : q ∈ s.heap.slotSets := by simp [hsets]
    obtain ⟨k, hl⟩ := (hc q hq).hasRoom_iff.mp (of_decide_eq_true hroom)
    have hidx : k / 32 * 32 + k % 32 = k := Nat.div_add_mod' k 32
    have hlt := hl.1
    have hfree : (s.heap.slotSet q).isFree (k / 32 * 32 + k % 32) = true := hidx.symm ▸ hl.2.1
    have hrun' := hrun
    rw [slotAlloc_eq, hsets, scanSets_firstFit (hsets ▸ hc) hfull hl, uintBitNum_eq] at hrun'
    cases hrun'
    rw [firstWordFree_iff hc hsets hfull hl]
    constructor
    · rintro ⟨h'', hrefused, _⟩
      by_contra hge
      rw [slotFree_refused _ (by omega)] at hrefused
      cases hrefused
    · intro hk
      have hback := slotFree_modify s.heap p (by simp at hlt; omega) (by omega) hfree (by omega)
      refine ⟨s.heap, hback, ?_, ?_, fun _ _ _ => rfl, rfl, hrun⟩
      · rw [before, if_pos hq]
      · rw [before, if_pos hq]
  | none =>
    have hfull : ∀ q ∈ s.heap.slotSets, ¬ (s.heap.slotSet q).HasRoom := by simpa using hfind
    rw [slotAlloc_eq, scanSets_full hc hfull] at hrun
    have hfirst : s.heap.FirstWordFree := by
      intro ps q qs hsets _ hroom
      exact absurd hroom (hfull q (by simp [hsets]))
    refine ⟨fun _ => hfirst, fun _ => ?_⟩
    cases news with
    | nil => cases hrun
    | cons new news =>
      cases hrun
      have hold : new.ptr ∉ s.heap.slotSets := hnew new List.mem_cons_self
      have hset : (s.heap.slotSetAdd new).slotSet new.ptr = .fresh new.base :=
        Function.update_self ..
      have hfree : ((s.heap.slotSetAdd new).slotSet new.ptr).isFree (0 * 32 + 0) = true :=
        hset ▸ SlotSet.isFree_fresh new.base (by omega)
      have hback := slotFree_modify (s.heap.slotSetAdd new) new.ptr (by omega) (by omega) hfree
        (by omega)
      refine ⟨s.heap.slotSetAdd new, hback, ?_, ?_, ?_, rfl, ?_⟩
      · rw [before, if_neg hold, hset]
        rfl
      · rw [before, if_neg hold, hset]
        rfl
      · exact fun q _ hq => Function.update_of_ne hq ..
      · rw [slotAlloc_eq, scanSets_slotSetAdd]
        rfl

theorem slotFree_undoes_iff_first : ∃ h', SlotHeap.empty.slotAlloc [⟨0, 0x10000⟩] =
      .ok (h', [], 0, 0) ∧
    ((∃ h'', h'.slotFree 0 0 = .ok h'' ∧ Undone .empty h' h'' [] 0 0) ↔ FirstWordFree .empty) := by
  have hrun : SlotHeap.empty.slotAlloc [⟨0, 0x10000⟩] =
      .ok ((SlotHeap.empty.slotSetAdd ⟨0, 0x10000⟩).modify 0 (·.claim 0 0), [], 0, 0) := by
    rw [slotAlloc_eq]
    rfl
  have hs : Reachable AllocStep AllocInitial (⟨.empty, fun _ => .idle, []⟩ : AllocState Unit) :=
    .initial ⟨rfl, rfl, fun _ => rfl⟩
  exact ⟨_, hrun, slotFree_undoes_iff hs (by simp [SlotHeap.empty]) hrun⟩

/-- The 33rd slot of a process can be allocated and not freed. -/
theorem slot_32_not_freed : ∃ (s : AllocState Unit) (h' : SlotHeap),
    Reachable AllocStep AllocInitial s ∧ s.heap.slotAlloc [] = .ok (h', [], 0, 32) ∧
      h'.slotFree 0 32 = .error .assertion := by
  obtain ⟨h, hr, hsets, hprefix⟩ := callReachable_prefix (n := 31) (by omega)
  obtain ⟨s, hs, _, rfl⟩ := hr.threads
  exact ⟨s, _, hs, slotAlloc_prefix (by rw [hsets]; rfl) hprefix (by omega),
    slotFree_refused _ (by omega)⟩

end FreeBack

end Atrace.Signal

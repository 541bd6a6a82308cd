import Atrace.Signal.SlotSet

/-! Where the slots handed out by sequential `slot_alloc` calls lie in memory. -/
namespace Atrace.Signal

open Atrace.Lib

/-- The length `slot_set_add` passes to `mmap`. -/
def mapLength : Nat := slotPageSize

@[simp] theorem mapLength_eq : mapLength = 4096 := rfl

/-- Distinct set objects, and regions of `mapLength` bytes that neither wrap nor overlap. -/
structure FreshRegions (news : List NewSlots) : Prop where
  ptrs : (news.map NewSlots.ptr).Nodup
  fits : ∀ new ∈ news, new.base.toNat + mapLength ≤ 2 ^ 64
  apart : news.Pairwise fun a b =>
    a.base.toNat + mapLength ≤ b.base.toNat ∨ b.base.toNat + mapLength ≤ a.base.toNat

/-- `n` calls of `slot_alloc` in a row, with the slots they return in order. -/
def slotAllocs : Nat → List NewSlots → SlotHeap →
    Except Fault (SlotHeap × List NewSlots × List (SlotSetPtr × Nat))
  | 0, news, h => .ok (h, news, [])
  | n + 1, news, h =>
    match h.slotAlloc news with
    | .error e => .error e
    | .ok (h, news, p, index) =>
      match slotAllocs n news h with
      | .error e => .error e
      | .ok (h, news, live) => .ok (h, news, (p, index) :: live)

/-- The `slotSize` bytes of a slot lie in the region mapped for its set. -/
def SlotSet.InRegion (s : SlotSet) (index : Nat) : Prop :=
  s.slots.toNat ≤ (s.slotOffset index).toNat ∧
    (s.slotOffset index).toNat + slotSize ≤ s.slots.toNat + mapLength

/-- The byte ranges of two slots do not overlap. -/
def SlotHeap.Apart (h : SlotHeap) (a b : SlotSetPtr × Nat) : Prop :=
  ((h.slotSet a.1).slotOffset a.2).toNat + slotSize ≤ ((h.slotSet b.1).slotOffset b.2).toNat ∨
    ((h.slotSet b.1).slotOffset b.2).toNat + slotSize ≤ ((h.slotSet a.1).slotOffset a.2).toNat

/-- Every live slot lies in its region, and no two of them overlap. -/
def SlotHeap.MemorySafe (h : SlotHeap) (live : List (SlotSetPtr × Nat)) : Prop :=
  (∀ a ∈ live, (h.slotSet a.1).InRegion a.2) ∧ live.Pairwise h.Apart

variable {s : SlotSet} {h h' : SlotHeap} {p : SlotSetPtr} {k n : Nat} {news rest : List NewSlots}
  {live : List (SlotSetPtr × Nat)}

/-- Slots `0 .. k-1` of the set are taken and the others are free. -/
def SlotSet.Prefix (s : SlotSet) (k : Nat) : Prop :=
  s.Counted ∧ ∀ i < 1024, s.isFree i = decide (k ≤ i)

theorem prefix_fresh (base : Addr) : (SlotSet.fresh base).Prefix 0 := by
  refine ⟨SlotSet.counted_fresh base, ?_⟩
  intro i hi
  simp [SlotSet.isFree_fresh base hi]

theorem prefix_claim (hs : s.Prefix k) (hk : k < 1024) :
    (s.claim (k / 32) (k % 32)).Prefix (k + 1) := by
  obtain ⟨hc, hfree⟩ := hs
  have hidx : k / 32 * 32 + k % 32 = k := Nat.div_add_mod' k 32
  refine ⟨(hc.claim (by omega) (by omega) (by rw [hidx, hfree k hk]; simp)).2, ?_⟩
  intro i hi
  rw [SlotSet.isFree_claim (by omega) (by omega), hidx, hfree i hi]
  by_cases hik : i = k
  · simp [hik]
  · have : k ≤ i ↔ k + 1 ≤ i := by omega
    simp [hik, this]

theorem slotAlloc_prefix (hh : h.slotSets.head? = some p) (hs : (h.slotSet p).Prefix k)
    (hk : k < 1024) :
    h.slotAlloc news = .ok (h.modify p (·.claim (k / 32) (k % 32)), news, p, k) := by
  obtain ⟨ps, hps⟩ := List.head?_eq_some_iff.mp hh
  have hv : (h.slotSet p).visit 0 = .found (k / 32) (k % 32) :=
    SlotSet.visit_lowest hs.1 hk (by simp [hs.2 k hk])
      (fun i hi => by rw [hs.2 i (by omega)]; simp; omega)
  have hidx : k / 32 * 32 + k % 32 = k := Nat.div_add_mod' k 32
  unfold SlotHeap.slotAlloc
  simp [hps, SlotHeap.scanSets, hv, hidx]

/-- While the newest set has room, the calls return its slots in order. -/
theorem slotAllocs_prefix (news : List NewSlots) (hh : h.slotSets.head? = some p) (hs : (h.slotSet p).Prefix k)
    (hk : k + n ≤ 1024) :
    ∃ h', slotAllocs n news h = .ok (h', news, (List.range' k n).map (p, ·)) ∧
      h'.slotSets = h.slotSets ∧ (h'.slotSet p).slots = (h.slotSet p).slots := by
  induction n generalizing h k with
  | zero => exact ⟨h, by simp [slotAllocs], rfl, rfl⟩
  | succ n ih =>
    have hclaim : ((h.modify p (·.claim (k / 32) (k % 32))).slotSet p).Prefix (k + 1) := by
      simpa [SlotHeap.modify] using prefix_claim hs (by omega)
    obtain ⟨h', hrun, hsets, hslots⟩ := ih (h := h.modify p (·.claim (k / 32) (k % 32)))
      hh hclaim (by omega)
    refine ⟨h', ?_, hsets, ?_⟩
    · simp [slotAllocs, slotAlloc_prefix hh hs (show k < 1024 by omega), hrun, List.range'_succ]
    · rw [hslots]
      simp [SlotHeap.modify, SlotSet.claim]

/-- The first call maps a set, and up to its capacity the calls stay in it. -/
theorem slotAllocs_empty (new : NewSlots) (news : List NewSlots) (hn : n ≤ 1024) (hpos : 0 < n) :
    ∃ h', slotAllocs n (new :: news) .empty = .ok (h', news, (List.range n).map (new.ptr, ·)) ∧
      h'.slotSets = [new.ptr] ∧ (h'.slotSet new.ptr).slots = new.base := by
  have hfresh : ((SlotHeap.empty.slotSetAdd new).slotSet new.ptr).Prefix 0 := by
    simpa [SlotHeap.slotSetAdd] using prefix_fresh new.base
  obtain ⟨h', hrun, hsets, hslots⟩ := slotAllocs_prefix (n := n) (h := SlotHeap.empty.slotSetAdd new)
    news rfl hfresh (by omega)
  have hfirst : SlotHeap.slotAlloc (new :: news) .empty =
      (SlotHeap.empty.slotSetAdd new).slotAlloc news := rfl
  refine ⟨h', ?_, by simpa [SlotHeap.slotSetAdd, SlotHeap.empty] using hsets, ?_⟩
  · obtain ⟨m, rfl⟩ : ∃ m, n = m + 1 := ⟨n - 1, by omega⟩
    rw [List.range_eq_range', ← hrun, slotAllocs, slotAllocs, hfirst]
  · simpa [SlotHeap.slotSetAdd, SlotSet.fresh] using hslots

theorem slotAlloc_slots {q : SlotSetPtr} {index : Nat}
    (hrun : h.slotAlloc news = .ok (h', rest, q, index))
    (hp : ∀ new ∈ news, new.ptr ≠ p) :
    (h'.slotSet p).slots = (h.slotSet p).slots ∧ rest ⊆ news := by
  induction news generalizing h with
  | nil =>
    unfold SlotHeap.slotAlloc at hrun
    split at hrun
    · cases hrun
      by_cases hq : p = q <;> simp [SlotHeap.modify, Function.update, hq, SlotSet.claim]
    · cases hrun
  | cons new news ih =>
    unfold SlotHeap.slotAlloc at hrun
    split at hrun
    · cases hrun
      by_cases hq : p = q <;> simp [SlotHeap.modify, Function.update, hq, SlotSet.claim]
    · obtain ⟨hslots, hsub⟩ := ih hrun (fun m hm => hp m (List.mem_cons_of_mem _ hm))
      refine ⟨?_, List.subset_cons_of_subset _ hsub⟩
      rw [hslots]
      simp [SlotHeap.slotSetAdd, Function.update, (hp new List.mem_cons_self).symm]

/-- The first of several calls, and the others. -/
theorem slotAllocs_succ (hrun : slotAllocs (n + 1) news h = .ok (h', rest, live)) :
    ∃ h₁ news₁ p i live₁, h.slotAlloc news = .ok (h₁, news₁, p, i) ∧
      slotAllocs n news₁ h₁ = .ok (h', rest, live₁) ∧ live = (p, i) :: live₁ := by
  simp only [slotAllocs] at hrun
  split at hrun
  · cases hrun
  · rename_i hcall
    split at hrun
    · cases hrun
    · rename_i htail
      cases hrun
      exact ⟨_, _, _, _, _, hcall, htail, rfl⟩

theorem slotAllocs_slots (hrun : slotAllocs n news h = .ok (h', rest, live))
    (hp : ∀ new ∈ news, new.ptr ≠ p) : (h'.slotSet p).slots = (h.slotSet p).slots := by
  induction n generalizing h news live with
  | zero => cases hrun; rfl
  | succ n ih =>
    obtain ⟨h₁, news₁, q, i, live₁, hcall, htail, _⟩ := slotAllocs_succ hrun
    obtain ⟨hslots, hsub⟩ := slotAlloc_slots hcall hp
    rw [ih htail (fun m hm => hp m (hsub hm)), hslots]

theorem slotAllocs_add {m : Nat} (hrun : slotAllocs (n + m) news h = .ok (h', rest, live)) :
    ∃ h₁ news₁ live₁ live₂, slotAllocs n news h = .ok (h₁, news₁, live₁) ∧
      slotAllocs m news₁ h₁ = .ok (h', rest, live₂) ∧ live = live₁ ++ live₂ := by
  induction n generalizing h news live with
  | zero =>
    rw [Nat.zero_add] at hrun
    exact ⟨h, news, [], live, rfl, hrun, rfl⟩
  | succ n ih =>
    rw [Nat.succ_add] at hrun
    obtain ⟨h₁, news₁, q, i, live, hcall, htail, rfl⟩ := slotAllocs_succ hrun
    obtain ⟨h₂, news₂, live₁, live₂, hfirst, hlast, rfl⟩ := ih htail
    exact ⟨h₂, news₂, (q, i) :: live₁, live₂, by simp [slotAllocs, hcall, hfirst], hlast, rfl⟩

theorem slotOffset_toNat {i : Nat} (hi : i < 1024) :
    (s.slotOffset i).toNat = (s.slots.toNat + i * 8) % 2 ^ 64 := by
  simp only [SlotSet.slotOffset, slotSize_eq, BitVec.toNat_add, BitVec.toNat_setWidth,
    BitVec.toNat_ofNat]
  omega

theorem inRegion_iff {i : Nat} (hi : i < 1024) (hfit : s.slots.toNat + mapLength ≤ 2 ^ 64) :
    s.InRegion i ↔ i < 512 := by
  rw [mapLength_eq] at hfit
  rw [SlotSet.InRegion, slotOffset_toNat hi, mapLength_eq, slotSize_eq]
  omega

/-- The slots of the first set that lie in its region do not overlap. -/
theorem memorySafe_of_le {new : NewSlots} (hf : FreshRegions (new :: news))
    (hrun : slotAllocs n (new :: news) .empty = .ok (h, rest, live)) (hn : n ≤ 512) :
    h.MemorySafe live := by
  have hfit := hf.fits new List.mem_cons_self
  rcases Nat.eq_zero_or_pos n with rfl | hpos
  · cases hrun
    simp [SlotHeap.MemorySafe]
  obtain ⟨h', hrun', _, hslots⟩ := slotAllocs_empty new news (by omega) hpos
  obtain ⟨rfl, rfl, rfl⟩ : h' = h ∧ news = rest ∧ _ = live := by simpa [hrun'] using hrun
  have hoff : ∀ i < n, ((h'.slotSet new.ptr).slotOffset i).toNat = new.base.toNat + i * 8 := by
    intro i hi
    rw [slotOffset_toNat (by omega), hslots]
    rw [mapLength_eq] at hfit
    omega
  constructor
  · intro a ha
    obtain ⟨i, hi, rfl⟩ := List.mem_map.mp ha
    rw [List.mem_range] at hi
    exact (inRegion_iff (by omega) (by simpa only [hslots] using hfit)).mpr (by omega)
  · rw [List.pairwise_map]
    apply List.Pairwise.imp_of_mem ?_ (List.pairwise_lt_range (n := n))
    intro i j hi hj hij
    rw [List.mem_range] at hi hj
    simp only [SlotHeap.Apart, hoff i hi, hoff j hj, slotSize_eq]
    omega

/-- Call 513 returns slot 512 of the first set, which starts where its region ends. -/
theorem not_memorySafe_of_lt {new : NewSlots} (hf : FreshRegions (new :: news))
    (hrun : slotAllocs n (new :: news) .empty = .ok (h, rest, live)) (hn : 512 < n) :
    ¬ h.MemorySafe live := by
  intro hsafe
  obtain ⟨h₁, news₁, live₁, live₂, h1, h2, rfl⟩ := slotAllocs_add (n := 513) (m := n - 513)
    (by simpa only [show 513 + (n - 513) = n by omega] using hrun)
  obtain ⟨h₂, hrun₂, _, hslots₂⟩ := slotAllocs_empty new news (n := 513)
    (by omega) (by omega)
  obtain ⟨rfl, rfl, rfl⟩ : h₂ = h₁ ∧ news = news₁ ∧ _ = live₁ := by simpa [hrun₂] using h1
  have hslots : (h.slotSet new.ptr).slots = new.base := by
    apply (slotAllocs_slots h2 ?_).trans hslots₂
    intro m hm he
    have hnd := hf.ptrs
    simp only [List.map_cons, List.nodup_cons] at hnd
    exact hnd.1 (he ▸ List.mem_map_of_mem hm)
  have hmem : (new.ptr, 512) ∈ (List.range 513).map (new.ptr, ·) ++ live₂ := by simp
  have hbad := (inRegion_iff (by omega)
    (by simpa only [hslots] using hf.fits new List.mem_cons_self)).mp (hsafe.1 _ hmem)
  omega

/-- The region mapped for a set holds half of the slots its bitmap has, so the calls stay
inside mapped memory up to the number that fits and no further. -/
theorem slotAllocs_memorySafe_iff (hf : FreshRegions news)
    (hrun : slotAllocs n news .empty = .ok (h, rest, live)) :
    h.MemorySafe live ↔ n * slotSize ≤ mapLength := by
  rw [slotSize_eq, mapLength_eq]
  cases news with
  | nil =>
    cases n with
    | zero => cases hrun; simp [SlotHeap.MemorySafe]
    | succ n => cases hrun
  | cons new news =>
    constructor
    · intro hsafe
      by_contra hn
      exact not_memorySafe_of_lt hf hrun (by omega) hsafe
    · intro hn
      exact memorySafe_of_le hf hrun (by omega)

theorem slotAllocs_memorySafe_iff_two : ∃ h live,
    slotAllocs 2 [⟨0, 0x10000⟩] .empty = .ok (h, [], live) ∧
      (h.MemorySafe live ↔ 2 * slotSize ≤ mapLength) := by
  obtain ⟨h, hrun, _⟩ := slotAllocs_empty ⟨0, 0x10000⟩ [] (n := 2) (by omega) (by omega)
  refine ⟨h, _, hrun, slotAllocs_memorySafe_iff ?_ hrun⟩
  exact ⟨by simp, by simp, by simp⟩

theorem slotAllocs_513_not_memorySafe : FreshRegions [⟨0, 0x10000⟩] ∧ ∃ h rest live,
    slotAllocs 513 [⟨0, 0x10000⟩] .empty = .ok (h, rest, live) ∧ ¬ h.MemorySafe live := by
  have hf : FreshRegions [⟨0, 0x10000⟩] := ⟨by simp, by simp, by simp⟩
  obtain ⟨h, hrun, _⟩ := slotAllocs_empty ⟨0, 0x10000⟩ [] (n := 513) (by omega) (by omega)
  exact ⟨hf, h, _, _, hrun, not_memorySafe_of_lt hf hrun (by omega)⟩

end Atrace.Signal

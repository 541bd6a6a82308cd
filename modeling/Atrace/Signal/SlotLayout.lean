import Atrace.Signal.Breakpoint

/-! Slot areas in memory: `slotNum` slots a set, apart from each other and from the text. -/
namespace Atrace.Signal

open Atrace.Lib

/-- The bytes that the slots of one set take up. -/
def areaSize : Nat := slotNum * slotSize

@[simp] theorem areaSize_eq : areaSize = 8192 := rfl

/-- The addresses of the two words of a slot. -/
def SlotSet.IsWord (s : SlotSet) (i : Nat) (a : Addr) : Prop :=
  a = s.slotOffset i ∨ a = s.slotOffset i + 4

/-- The areas of two set bases do not overlap. -/
def AreasApart (a b : Addr) : Prop :=
  a.toNat + areaSize ≤ b.toNat ∨ b.toNat + areaSize ≤ a.toNat

/-- An area and the word at `a` do not overlap. -/
def AreaApartWord (base a : Addr) : Prop := a.toNat + 4 ≤ base.toNat ∨ base.toNat + areaSize ≤ a.toNat

/-- The slots are memory of their own: the areas do not wrap, nor overlap each other or a word
of the text. -/
structure Layout (text : Addr → Prop) (h : SlotHeap) : Prop where
  fits : ∀ p ∈ h.slotSets, (h.slotSet p).slots.toNat + areaSize ≤ 2 ^ 64
  apart : ∀ p ∈ h.slotSets, ∀ q ∈ h.slotSets, p ≠ q →
    AreasApart (h.slotSet p).slots (h.slotSet q).slots
  text : ∀ p ∈ h.slotSets, ∀ a, text a → AreaApartWord (h.slotSet p).slots a

/-- What `calloc` and `mmap` are assumed to return. -/
structure NewSlots.Fits (text : Addr → Prop) (h : SlotHeap) (new : NewSlots) : Prop where
  ptr : new.ptr ∉ h.slotSets
  fits : new.base.toNat + areaSize ≤ 2 ^ 64
  apart : ∀ p ∈ h.slotSets, AreasApart (h.slotSet p).slots new.base
  text : ∀ a, text a → AreaApartWord new.base a

variable {text : Addr → Prop} {h : SlotHeap} {p q : SlotSetPtr} {i j : Nat} {a b : Addr}
  {new : NewSlots}

theorem areasApart_symm (hab : AreasApart a b) : AreasApart b a := Or.symm hab

theorem modify_slots {f : SlotSet → SlotSet} (hf : ∀ s : SlotSet, (f s).slots = s.slots)
    (q : SlotSetPtr) : ((h.modify p f).slotSet q).slots = (h.slotSet q).slots := by
  by_cases hq : q = p
  · subst q
    simp [SlotHeap.modify, hf]
  · simp [SlotHeap.modify, hq]

theorem modify_slotOffset {f : SlotSet → SlotSet} (hf : ∀ s : SlotSet, (f s).slots = s.slots)
    (q : SlotSetPtr) (j : Nat) :
    ((h.modify p f).slotSet q).slotOffset j = (h.slotSet q).slotOffset j := by
  rw [SlotSet.slotOffset, modify_slots hf, SlotSet.slotOffset]

theorem slotSetAdd_slotSet (hq : q ≠ new.ptr) :
    (h.slotSetAdd new).slotSet q = h.slotSet q := by
  simp [SlotHeap.slotSetAdd, hq]

namespace Layout

theorem empty (text : Addr → Prop) : Layout text .empty := by
  constructor <;> simp [SlotHeap.empty]

theorem modify {f : SlotSet → SlotSet} (hl : Layout text h)
    (hf : ∀ s : SlotSet, (f s).slots = s.slots) : Layout text (h.modify p f) := by
  constructor
  · intro q hq
    rw [modify_slots hf]
    exact hl.fits q hq
  · intro q hq r hr hne
    rw [modify_slots hf, modify_slots hf]
    exact hl.apart q hq r hr hne
  · intro q hq a ha
    rw [modify_slots hf]
    exact hl.text q hq a ha

theorem slotSetAdd (hl : Layout text h) (hn : new.Fits text h) :
    Layout text (h.slotSetAdd new) := by
  have hold : ∀ q ∈ h.slotSets, (h.slotSetAdd new).slotSet q = h.slotSet q :=
    fun q hq => slotSetAdd_slotSet fun he => hn.ptr (he ▸ hq)
  have hnew : ((h.slotSetAdd new).slotSet new.ptr).slots = new.base := by
    simp [SlotHeap.slotSetAdd, SlotSet.fresh]
  constructor
  · intro q hq
    rcases List.mem_cons.mp hq with rfl | hq
    · rw [hnew]
      exact hn.fits
    · rw [hold q hq]
      exact hl.fits q hq
  · intro q hq r hr hne
    rcases List.mem_cons.mp hq with rfl | hq <;> rcases List.mem_cons.mp hr with rfl | hr
    · exact absurd rfl hne
    · rw [hnew, hold r hr]
      exact areasApart_symm (hn.apart r hr)
    · rw [hnew, hold q hq]
      exact hn.apart q hq
    · rw [hold q hq, hold r hr]
      exact hl.apart q hq r hr hne
  · intro q hq a ha
    rcases List.mem_cons.mp hq with rfl | hq
    · rw [hnew]
      exact hn.text a ha
    · rw [hold q hq]
      exact hl.text q hq a ha

/-- Neither word of a slot wraps around. -/
theorem slotOffset_toNat (hl : Layout text h) (hp : p ∈ h.slotSets) (hi : i < 1024) :
    ((h.slotSet p).slotOffset i).toNat = (h.slotSet p).slots.toNat + i * 8 ∧
      ((h.slotSet p).slotOffset i + 4).toNat = (h.slotSet p).slots.toNat + i * 8 + 4 := by
  have hfit := hl.fits p hp
  rw [areaSize_eq] at hfit
  have h4 : (4 : Addr).toNat = 4 := rfl
  have h0 : ((h.slotSet p).slotOffset i).toNat = (h.slotSet p).slots.toNat + i * 8 := by
    simp only [SlotSet.slotOffset, slotSize_eq, BitVec.toNat_add, BitVec.toNat_setWidth,
      BitVec.toNat_ofNat]
    omega
  refine ⟨h0, ?_⟩
  rw [BitVec.toNat_add, h0, h4]
  omega

/-- Slots of different sets, or with different indices, lie apart. -/
theorem slot_apart (hl : Layout text h) (hp : p ∈ h.slotSets) (hq : q ∈ h.slotSets)
    (hi : i < 1024) (hj : j < 1024) (hne : (p, i) ≠ (q, j)) :
    ((h.slotSet p).slotOffset i).toNat + 8 ≤ ((h.slotSet q).slotOffset j).toNat ∨
      ((h.slotSet q).slotOffset j).toNat + 8 ≤ ((h.slotSet p).slotOffset i).toNat := by
  rw [(hl.slotOffset_toNat hp hi).1, (hl.slotOffset_toNat hq hj).1]
  by_cases hpq : p = q
  · subst q
    have hij : i ≠ j := fun he => hne (by rw [he])
    omega
  · have := hl.apart p hp q hq hpq
    rw [AreasApart, areaSize_eq] at this
    omega

theorem slot_apart_text (hl : Layout text h) (hp : p ∈ h.slotSets) (hi : i < 1024)
    (ha : text a) :
    a.toNat + 4 ≤ ((h.slotSet p).slotOffset i).toNat ∨
      ((h.slotSet p).slotOffset i).toNat + 8 ≤ a.toNat := by
  have := hl.text p hp a ha
  rw [AreaApartWord, areaSize_eq] at this
  rw [(hl.slotOffset_toNat hp hi).1]
  omega

theorem slot_le (hl : Layout text h) (hp : p ∈ h.slotSets) (hi : i < 1024) :
    ((h.slotSet p).slotOffset i).toNat + 8 ≤ 2 ^ 64 := by
  have hfit := hl.fits p hp
  rw [areaSize_eq] at hfit
  rw [(hl.slotOffset_toNat hp hi).1]
  omega

/-- A word of the text is neither word of a slot. -/
theorem text_ne (hl : Layout text h) (hp : p ∈ h.slotSets) (hi : i < 1024) (ha : text a) :
    a ≠ (h.slotSet p).slotOffset i ∧ a ≠ (h.slotSet p).slotOffset i + 4 := by
  have hoff := hl.slotOffset_toNat hp hi
  have := hl.slot_apart_text hp hi ha
  constructor <;> rintro rfl <;> omega

theorem slotReturn_inj (hl : Layout text h) (hp : p ∈ h.slotSets) (hq : q ∈ h.slotSets)
    (hi : i < 1024) (hj : j < 1024)
    (he : (h.slotSet p).slotOffset i + 4 = (h.slotSet q).slotOffset j + 4) : (p, i) = (q, j) := by
  by_contra hne
  have := hl.slot_apart hp hq hi hj hne
  have he' := congrArg BitVec.toNat he
  rw [(hl.slotOffset_toNat hp hi).2, (hl.slotOffset_toNat hq hj).2] at he'
  rw [(hl.slotOffset_toNat hp hi).1, (hl.slotOffset_toNat hq hj).1] at this
  omega

theorem wordsApart_self (hl : Layout text h) (hp : p ∈ h.slotSets) (hi : i < 1024) :
    WordsApart ((h.slotSet p).slotOffset i) ((h.slotSet p).slotOffset i + 4) := by
  have hoff := hl.slotOffset_toNat hp hi
  have hle := hl.slot_le hp hi
  refine ⟨?_, ?_, ?_⟩ <;> omega

/-- Words of different slots. -/
theorem wordsApart_slot (hl : Layout text h) (hp : p ∈ h.slotSets) (hq : q ∈ h.slotSets)
    (hi : i < 1024) (hj : j < 1024) (hne : (p, i) ≠ (q, j))
    (ha : (h.slotSet p).IsWord i a) (hb : (h.slotSet q).IsWord j b) : WordsApart a b := by
  have hap := hl.slot_apart hp hq hi hj hne
  have hoff := hl.slotOffset_toNat hp hi
  have hoff' := hl.slotOffset_toNat hq hj
  have hle := hl.slot_le hp hi
  have hle' := hl.slot_le hq hj
  rcases ha with rfl | rfl <;> rcases hb with rfl | rfl <;> refine ⟨?_, ?_, ?_⟩ <;> omega

theorem wordsApart_text (hl : Layout text h) (hp : p ∈ h.slotSets) (hi : i < 1024)
    (ha : (h.slotSet p).IsWord i a) (hb : text b) (hw : b.toNat + 4 ≤ 2 ^ 64) :
    WordsApart a b := by
  have hap := hl.slot_apart_text hp hi hb
  have hoff := hl.slotOffset_toNat hp hi
  have hle := hl.slot_le hp hi
  rcases ha with rfl | rfl <;> refine ⟨?_, ?_, ?_⟩ <;> omega

end Layout

/-- What a `slot_alloc` that returns slot `i` of `p` has done to the sets. -/
structure SlotTaken (text : Addr → Prop) (h h' : SlotHeap) (p : SlotSetPtr) (i : Nat) : Prop where
  layout : Layout text h'
  lt : i < 1024
  listed : p ∈ h'.slotSets
  taken : (h'.slotSet p).isFree i = false
  kept : ∀ q ∈ h.slotSets, q ∈ h'.slotSets
  offset : ∀ q ∈ h.slotSets, ∀ j, (h'.slotSet q).slotOffset j = (h.slotSet q).slotOffset j
  others : ∀ q ∈ h.slotSets, ∀ j, (h.slotSet q).isFree j = false →
    (h'.slotSet q).isFree j = false ∧ (q, j) ≠ (p, i)

theorem slotTaken_modify {idx pos : Nat} (hl : Layout text h) (hp : p ∈ h.slotSets)
    (hidx : idx < 32) (hpos : pos < 32) (hf : (h.slotSet p).isFree (idx * 32 + pos) = true) :
    SlotTaken text h (h.modify p (·.claim idx pos)) p (idx * 32 + pos) := by
  have hslots : ∀ s : SlotSet, (s.claim idx pos).slots = s.slots := fun _ => rfl
  refine ⟨hl.modify hslots, by omega, hp, ?_, fun q hq => hq,
    fun q _ j => modify_slotOffset hslots q j, ?_⟩
  · simp [SlotHeap.modify, SlotSet.isFree_claim hidx hpos]
  · intro q hq j hj
    by_cases hqp : q = p
    · subst q
      refine ⟨by simp [SlotHeap.modify, SlotSet.isFree_claim hidx hpos, hj], ?_⟩
      intro he
      rw [(Prod.mk.inj he).2, hf] at hj
      cases hj
    · refine ⟨by simpa [SlotHeap.modify, hqp] using hj, ?_⟩
      intro he
      exact hqp (Prod.mk.inj he).1

/-- A new set keeps the old ones as they are. -/
theorem slotTaken_slotSetAdd {h' : SlotHeap} (hn : new.ptr ∉ h.slotSets)
    (ht : SlotTaken text (h.slotSetAdd new) h' p i) : SlotTaken text h h' p i := by
  have hold : ∀ q ∈ h.slotSets, (h.slotSetAdd new).slotSet q = h.slotSet q :=
    fun q hq => slotSetAdd_slotSet fun he => hn (he ▸ hq)
  have hmem : ∀ q ∈ h.slotSets, q ∈ (h.slotSetAdd new).slotSets :=
    fun q hq => List.mem_cons_of_mem _ hq
  refine ⟨ht.layout, ht.lt, ht.listed, ht.taken, fun q hq => ht.kept q (hmem q hq), ?_, ?_⟩
  · intro q hq j
    rw [ht.offset q (hmem q hq), hold q hq]
  · intro q hq j hj
    rw [← hold q hq] at hj
    exact ht.others q (hmem q hq) j hj

theorem slotAlloc_taken {h' : SlotHeap} {news rest : List NewSlots} (hl : Layout text h)
    (hnews : ∀ new ∈ news, new.Fits text h)
    (hrun : h.slotAlloc news = .ok (h', rest, p, i)) : SlotTaken text h h' p i := by
  rw [SlotHeap.slotAlloc_eq] at hrun
  split at hrun
  · rename_i hs
    cases hrun
    obtain ⟨hp, hj, hpos, hfree⟩ := SlotHeap.scanSets_found hs (by omega)
    exact slotTaken_modify hl hp hj hpos hfree
  · split at hrun
    · cases hrun
    · rename_i new rest
      cases hrun
      have hfits := hnews new List.mem_cons_self
      have hfree : ((h.slotSetAdd new).slotSet new.ptr).isFree (0 * 32 + 0) = true := by
        simpa [SlotHeap.slotSetAdd] using SlotSet.isFree_fresh new.base (i := 0) (by omega)
      have hmem : new.ptr ∈ (h.slotSetAdd new).slotSets := List.mem_cons_self
      have ht := slotTaken_modify (hl.slotSetAdd hfits) hmem (by omega) (by omega) hfree
      exact slotTaken_slotSetAdd hfits.ptr ht

end Atrace.Signal

import Atrace.Signal.BpIndexMap
import Atrace.Signal.Breakpoint

/-! The exits of `breakpoint_add`, and which of them leave the tracer as it was. -/
namespace Atrace.Signal

open Atrace.Lib

namespace Tracer

variable {rb : RbLib BpEntry} {s s' : Tracer} {b : BkptPtr} {o : ObjPtr} {e : BpEntry}
  {news rest : List NewSlots} {code : Int}

theorem returnAddr_slotInit (s : Tracer) (b : BkptPtr) (p : SlotSetPtr) (i : Nat) :
    (s.slotInit b p i).returnAddr b = (s.slots.slotSet p).slotOffset i + 4 :=
  Function.update_self ..

/-- A breakpoint that `breakpoint_new` returned and that no call has added. -/
structure NotAdded (s : Tracer) (b : BkptPtr) : Prop where
  chain : s.chainEmpty b = true
  enter : s.index.emptyNode ⟨b, .enter⟩ = true
  ret : s.index.emptyNode ⟨b, .ret⟩ = true

theorem add_noObject (hb : s.chainEmpty b = true)
    (ho : s.objectGetByAddress (s.enterAddr b) = none) :
    s.breakpointAdd rb b news = .ok (s, -1) := by
  simp [breakpointAdd, hb, ho]

theorem add_noBkpt (hb : s.chainEmpty b = true)
    (ho : s.objectGetByAddress (s.enterAddr b) = some o) (hn : s.noBkpt o = true) :
    s.breakpointAdd rb b news = .ok (s, -2) := by
  simp [breakpointAdd, hb, ho, hn]

theorem add_present (hb : s.chainEmpty b = true)
    (ho : s.objectGetByAddress (s.enterAddr b) = some o) (hn : s.noBkpt o = false)
    (hf : s.index.breakpointRbFindInternal (s.enterAddr b) = some e) :
    s.breakpointAdd rb b news = .ok (s, -3) := by
  simp [breakpointAdd, hb, ho, hn, BpIndex.searchInsert_present rb hf, pure, Except.pure]

variable (rb news) in
/-- Past the third exit the enter entry is linked. -/
theorem add_absent (ht : s.index.WellFormed) (hb : s.chainEmpty b = true)
    (ho : s.objectGetByAddress (s.enterAddr b) = some o) (hn : s.noBkpt o = false)
    (hf : s.index.breakpointRbFindInternal (s.enterAddr b) = none) :
    ∃ t, s.index.Inserted t ⟨b, .enter⟩ ∧
      s.breakpointAdd rb b news =
        if (s.bkpt b).hasAttr .NO_SLOT then .ok ((s.setIndex t).linkChain b o, 0)
        else (s.setIndex t).addSlot rb b news >>= fun r =>
          if r.2 ≠ 0 then .ok r else .ok (r.1.linkChain b o, 0) := by
  obtain ⟨t, hrun, hins⟩ := BpIndex.searchInsert_absent rb ht hf
  refine ⟨t, hins, ?_⟩
  by_cases hslot : (s.bkpt b).hasAttr .NO_SLOT <;>
    simp [breakpointAdd, hb, ho, hn, hrun, hslot, setIndex, pure, Except.pure]

section AddSlot

variable {slots : SlotHeap} {p : SlotSetPtr} {i : Nat}

theorem addSlot_abort (h : s.slots.slotAlloc news = .error .abort) :
    s.addSlot rb b news = .error .abort := by
  simp [addSlot, h]

variable (rb) in
/-- The last exit: the slot is given back if `slot_free` accepts its index. -/
theorem addSlot_present (h : s.slots.slotAlloc news = .ok (slots, rest, p, i))
    (hf : ((s.setSlots slots).slotInit b p i).index.breakpointRbFindInternal
      ((slots.slotSet p).slotOffset i + 4) = some e) :
    s.addSlot rb b news =
      if i < uintBitNum then
        .ok (((s.setSlots slots).slotInit b p i).setSlots (slots.modify p (·.release i)), -4)
      else .error .assertion := by
  have hret := returnAddr_slotInit (s.setSlots slots) b p i
  have hrun := BpIndex.searchInsert_present rb (e := ⟨b, .ret⟩)
    (t := ((s.setSlots slots).slotInit b p i).index) (hret ▸ hf)
  simp only [addSlot, h, ok_bind, hrun]
  by_cases hi : i < uintBitNum
  · rw [if_pos hi, if_pos (by decide), SlotHeap.slotFree, if_pos hi]
    rfl
  · rw [if_neg hi, if_pos (by decide), SlotHeap.slotFree, if_neg hi]
    rfl

variable (rb) in
theorem addSlot_absent (h : s.slots.slotAlloc news = .ok (slots, rest, p, i))
    (ht : s.index.WellFormed) (hr : s.index.emptyNode ⟨b, .ret⟩ = true)
    (hf : s.index.breakpointRbFindInternal ((slots.slotSet p).slotOffset i + 4) = none) :
    ∃ t, ((s.setSlots slots).slotInit b p i).index.Inserted t ⟨b, .ret⟩ ∧
      s.addSlot rb b news = .ok (((s.setSlots slots).slotInit b p i).setIndex t, 0) := by
  obtain ⟨hwf, hfind⟩ := BpIndex.setAddress_wellFormed ht hr
    ((slots.slotSet p).slotOffset i + 4)
  have hret := returnAddr_slotInit (s.setSlots slots) b p i
  have hnone : ((s.setSlots slots).slotInit b p i).index.breakpointRbFindInternal
      (((s.setSlots slots).slotInit b p i).returnAddr b) = none := by
    rw [hret]
    exact (hfind _).trans hf
  obtain ⟨t, hrun, hins⟩ := BpIndex.searchInsert_absent rb (e := ⟨b, .ret⟩)
    (t := ((s.setSlots slots).slotInit b p i).index) hwf hnone
  refine ⟨t, hins, ?_⟩
  simp only [addSlot, h, ok_bind, hrun]
  rfl

end AddSlot

/-- What a caller may rely on when the code is not zero. -/
structure Unchanged (s s' : Tracer) (b : BkptPtr) : Prop where
  find : ∀ a, s'.index.breakpointRbFind a = s.index.breakpointRbFind a
  hidden : ∀ a, s'.breakpointFind a ≠ some b
  oldSets : ∀ p ∈ s.slots.slotSets, p ∈ s'.slots.slotSets ∧
    (s'.slots.slotSet p).freeSlot = (s.slots.slotSet p).freeSlot ∧
    (s'.slots.slotSet p).usedSlotCount = (s.slots.slotSet p).usedSlotCount
  newSets : ∀ p ∈ s'.slots.slotSets, p ∉ s.slots.slotSets →
    (∀ i < slotNum, (s'.slots.slotSet p).isFree i = true) ∧ (s'.slots.slotSet p).usedSlotCount = 0
  chains : s'.objects.map Object.breakpointChain = s.objects.map Object.breakpointChain

/-- The call fails no assertion, and a code that is not zero means that nothing happened. -/
structure AllOrNothing (rb : RbLib BpEntry) (s : Tracer) (b : BkptPtr) (news : List NewSlots) :
    Prop where
  noAssertion : s.breakpointAdd rb b news ≠ .error .assertion
  unchanged : ∀ s' code, s.breakpointAdd rb b news = .ok (s', code) → code ≠ 0 → s.Unchanged s' b

/-- Where the next slot will be: the first free one of the sets, or the first of a new set. -/
def nextSlot (h : SlotHeap) (news : List NewSlots) : Option Addr :=
  match h.scanSets h.slotSets 0 with
  | some (p, idx, pos) => some ((h.slotSet p).slotOffset (idx * uintBitNum + pos))
  | none => news.head?.map fun new => (SlotSet.fresh new.base).slotOffset 0

/-- A slot-backed breakpoint would be added, but the second word of its slot has an index
entry already. -/
def AddClashes (s : Tracer) (b : BkptPtr) (news : List NewSlots) : Prop :=
  ∃ o a, s.objectGetByAddress (s.enterAddr b) = some o ∧ s.noBkpt o = false ∧
    s.index.breakpointRbFind (s.enterAddr b) = none ∧ (s.bkpt b).hasAttr .NO_SLOT = false ∧
    nextSlot s.slots news = some a ∧
    (a + 4 = s.enterAddr b ∨ (s.index.breakpointRbFind (a + 4)).isSome)

theorem slotAlloc_nextSlot (h : SlotHeap) (news : List NewSlots) :
    (h.slotAlloc news = .error .abort ∧ nextSlot h news = none) ∨
      ∃ slots rest p i, h.slotAlloc news = .ok (slots, rest, p, i) ∧
        nextSlot h news = some ((slots.slotSet p).slotOffset i) := by
  rw [h.slotAlloc_eq, nextSlot]
  cases hs : h.scanSets h.slotSets 0 with
  | some r =>
    obtain ⟨p, idx, pos⟩ := r
    right
    refine ⟨_, _, _, _, rfl, ?_⟩
    simp [SlotHeap.modify, SlotSet.slotOffset, SlotSet.claim]
  | none =>
    cases news with
    | nil => exact Or.inl ⟨rfl, rfl⟩
    | cons new rest =>
      right
      refine ⟨_, _, _, _, rfl, ?_⟩
      simp [SlotHeap.modify, SlotHeap.slotSetAdd, SlotSet.slotOffset, SlotSet.claim]

theorem hidden_of_notAdded (ht : s.index.WellFormed) (hb : s.NotAdded b) (a : Addr) :
    s.breakpointFind a ≠ some b := by
  intro hf
  obtain ⟨⟨c, k⟩, he, hc⟩ := Option.map_eq_some_iff.mp hf
  obtain rfl : c = b := hc
  have hlinked := (ht.linked ⟨c, k⟩).mpr ((BpIndex.find_eq_some_iff ht).mp he).1
  cases k with
  | enter => simp [hb.enter] at hlinked
  | ret => simp [hb.ret] at hlinked

theorem unchanged_refl (ht : s.index.WellFormed) (hb : s.NotAdded b) : s.Unchanged s b :=
  ⟨fun _ => rfl, hidden_of_notAdded ht hb, fun _ hp => ⟨hp, rfl, rfl⟩,
    fun _ hp hn => absurd hp hn, rfl⟩

/-- An exit that returns the state it was called with is harmless. -/
theorem allOrNothing_of_same (ht : s.index.WellFormed) (hb : s.NotAdded b)
    (h : s.breakpointAdd rb b news = .ok (s, code)) : AllOrNothing rb s b news := by
  refine ⟨by simp [h], ?_⟩
  intro s' code' h' _
  cases h.symm.trans h'
  exact unchanged_refl ht hb

theorem allOrNothing_of_zero (h : s.breakpointAdd rb b news = .ok (s', 0)) :
    AllOrNothing rb s b news := by
  refine ⟨by simp [h], ?_⟩
  intro s'' code h' hcode
  cases h.symm.trans h'
  exact absurd rfl hcode

/-- The exit with -4 leaves the enter entry in the index. -/
theorem not_allOrNothing_of_linked (hf : s.index.breakpointRbFind (s.enterAddr b) = none)
    (h : s.breakpointAdd rb b news = .ok (s', -4))
    (hf' : s'.index.breakpointRbFind (s.enterAddr b) = some e) : ¬ AllOrNothing rb s b news := by
  intro hall
  have hfind := (hall.unchanged s' (-4) h (by decide)).find (s.enterAddr b)
  rw [hf, hf'] at hfind
  cases hfind

section Clash

variable {t : BpIndex BpEntry} {slots : SlotHeap} {p : SlotSetPtr} {i : Nat}

theorem emptyNode_ret (hb : s.NotAdded b) (hins : s.index.Inserted t ⟨b, .enter⟩) :
    t.emptyNode ⟨b, .ret⟩ = true := by
  rw [hins.emptyNode]
  simpa using hb.ret

/-- When the second word of the slot is in the index, the call gets stuck in `slot_free` or
returns -4, with the enter entry still linked. -/
theorem addSlot_clash (rb : RbLib BpEntry) (hb : s.NotAdded b)
    (hins : s.index.Inserted t ⟨b, .enter⟩)
    (halloc : s.slots.slotAlloc news = .ok (slots, rest, p, i))
    (hf : t.breakpointRbFindInternal ((slots.slotSet p).slotOffset i + 4) = some e) :
    (uintBitNum ≤ i ∧ (s.setIndex t).addSlot rb b news = .error .assertion) ∨
      (i < uintBitNum ∧ ∃ s', (s.setIndex t).addSlot rb b news = .ok (s', -4) ∧
        s'.index.breakpointRbFind (s.enterAddr b) = some ⟨b, .enter⟩) := by
  obtain ⟨_, hfind⟩ := BpIndex.setAddress_wellFormed hins.wellFormed (emptyNode_ret hb hins)
    ((slots.slotSet p).slotOffset i + 4)
  have hrun := addSlot_present rb (s := s.setIndex t) (b := b) halloc ((hfind _).trans hf)
  by_cases hi : i < uintBitNum
  · rw [if_pos hi] at hrun
    refine Or.inr ⟨hi, _, hrun, (hfind _).trans ?_⟩
    exact (hins.find _).trans (if_pos rfl)
  · rw [if_neg hi] at hrun
    exact Or.inl ⟨by omega, hrun⟩

end Clash

/-- What a successful `breakpoint_add` of a slot-backed breakpoint has done. -/
structure SlotAdded (s s' : Tracer) (b : BkptPtr) (news : List NewSlots) (o : ObjPtr)
    (p : SlotSetPtr) (i : Nat) : Prop where
  found : s.objectGetByAddress (s.enterAddr b) = some o
  absent : s.index.breakpointRbFind (s.enterAddr b) = none
  alloc : ∃ rest, s.slots.slotAlloc news = .ok (s'.slots, rest, p, i)
  wellFormed : s'.index.WellFormed
  enterAddr : ∀ c, s'.enterAddr c = s.enterAddr c
  returnAddr : ∀ c, s'.returnAddr c =
    if c = b then (s'.slots.slotSet p).slotOffset i + 4 else s.returnAddr c
  emptyNode : ∀ e, s'.index.emptyNode e = if e.bkpt = b then false else s.index.emptyNode e
  bkpt : ∀ c, s'.bkpt c =
    if c = b then { s.bkpt b with slotSet := some p, slotIndex := i, obj := some o } else s.bkpt c
  objects : s'.objects = s.objects.modify o fun obj =>
    { obj with breakpointChain := b :: obj.breakpointChain }
  mem : s'.mem = storeInstr (storeInstr s.mem ((s'.slots.slotSet p).slotOffset i)
    (loadInstr s.mem (s.enterAddr b))) ((s'.slots.slotSet p).slotOffset i + 4) brkInstr

theorem slotAdded_linkChain {t t' : BpIndex BpEntry} {slots : SlotHeap} {p : SlotSetPtr} {i : Nat}
    (ho : s.objectGetByAddress (s.enterAddr b) = some o)
    (hf : s.index.breakpointRbFind (s.enterAddr b) = none)
    (hins : s.index.Inserted t ⟨b, .enter⟩)
    (halloc : s.slots.slotAlloc news = .ok (slots, rest, p, i))
    (hins' : (((s.setIndex t).setSlots slots).slotInit b p i).index.Inserted t' ⟨b, .ret⟩) :
    s.SlotAdded ((((s.setIndex t).setSlots slots).slotInit b p i |>.setIndex t').linkChain b o)
      b news o p i := by
  have haddr : ∀ e, t'.address e =
      if e = ⟨b, .ret⟩ then (slots.slotSet p).slotOffset i + 4 else s.index.address e := by
    intro e
    rw [hins'.address, ← hins.address]
    exact Function.update_apply ..
  refine ⟨ho, hf, ⟨rest, halloc⟩, hins'.wellFormed, ?_, ?_, ?_, ?_, rfl, ?_⟩
  · intro c
    exact (haddr ⟨c, .enter⟩).trans (if_neg (by simp))
  · intro c
    refine (haddr ⟨c, .ret⟩).trans ?_
    simp only [BpEntry.mk.injEq, and_true]
    rfl
  · intro e
    obtain ⟨c, k⟩ := e
    have hempty : t'.emptyNode ⟨c, k⟩ = if (⟨c, k⟩ : BpEntry) = ⟨b, .ret⟩ then false
        else if (⟨c, k⟩ : BpEntry) = ⟨b, .enter⟩ then false else s.index.emptyNode ⟨c, k⟩ := by
      rw [hins'.emptyNode, Function.update_apply]
      congr 1
      exact (congrFun hins.emptyNode _).trans (Function.update_apply ..)
    refine hempty.trans ?_
    cases k <;> by_cases hc : c = b <;> simp [hc]
  · intro c
    by_cases hc : c = b <;>
      simp [linkChain, setIndex, slotInit, setReturnAddr, setSlots, modifyBkpt_bkpt, hc]
  · have haddr' : ((s.setIndex t).setSlots slots).enterAddr b = s.enterAddr b := by
      rw [enterAddr, enterAddr, ← hins.address]
      rfl
    show storeInstr (storeInstr s.mem ((slots.slotSet p).slotOffset i) (loadInstr s.mem
      (((s.setIndex t).setSlots slots).enterAddr b))) ((slots.slotSet p).slotOffset i + 4)
        brkInstr = _
    rw [haddr']
    rfl

/-- The ways a call for a breakpoint that is not added can go. -/
inductive AddOutcome (rb : RbLib BpEntry) (s : Tracer) (b : BkptPtr) (news : List NewSlots) :
    Prop where
  | refused (code : Int) (hc : code ≠ 0) (hn : ¬ s.AddClashes b news)
      (h : s.breakpointAdd rb b news = .ok (s, code))
      (hr : ∀ o, s.objectGetByAddress (s.enterAddr b) = some o → s.noBkpt o = false →
        s.index.breakpointRbFind (s.enterAddr b) ≠ none)
  | stuck (hc : s.AddClashes b news) (h : s.breakpointAdd rb b news = .error .assertion)
  | left (s' : Tracer) (hc : s.AddClashes b news) (h : s.breakpointAdd rb b news = .ok (s', -4))
      (hf : s.index.breakpointRbFind (s.enterAddr b) = none)
      (hf' : s'.index.breakpointRbFind (s.enterAddr b) = some ⟨b, .enter⟩)
  | abort (hn : ¬ s.AddClashes b news) (h : s.breakpointAdd rb b news = .error .abort)
      (hnext : nextSlot s.slots news = none)
  | added (s' : Tracer) (hn : ¬ s.AddClashes b news) (h : s.breakpointAdd rb b news = .ok (s', 0))
      (hs : (s.bkpt b).hasAttr .NO_SLOT = false → ∃ o p i, s.SlotAdded s' b news o p i)

/-- The slot-backed breakpoints that pass the first three exits: the return entry is found in
the index exactly when the slot clashes. -/
theorem add_outcome_slot (rb : RbLib BpEntry) {t : BpIndex BpEntry} (hb : s.NotAdded b)
    (ho : s.objectGetByAddress (s.enterAddr b) = some o) (hno : s.noBkpt o = false)
    (hf : s.index.breakpointRbFindInternal (s.enterAddr b) = none)
    (hslot : (s.bkpt b).hasAttr .NO_SLOT = false) (hins : s.index.Inserted t ⟨b, .enter⟩)
    (hrun : s.breakpointAdd rb b news = (s.setIndex t).addSlot rb b news >>= fun r =>
      if r.2 ≠ 0 then .ok r else .ok (r.1.linkChain b o, 0)) : AddOutcome rb s b news := by
  have hclash : ∀ a, nextSlot s.slots news = some a → (s.AddClashes b news ↔
      (t.breakpointRbFindInternal (a + 4)).isSome) := by
    intro a ha
    rw [hins.find]
    constructor
    · rintro ⟨_, a', _, _, _, _, ha', hc⟩
      rw [ha] at ha'
      cases ha'
      rcases hc with he | hs
      · rw [enterAddr] at he
        rw [if_pos he]
        rfl
      · split
        · rfl
        · exact hs
    · intro hs
      refine ⟨o, a, ho, hno, hf, hslot, ha, ?_⟩
      split at hs
      · exact Or.inl (by assumption)
      · exact Or.inr hs
  rcases slotAlloc_nextSlot s.slots news with ⟨habort, hnext⟩ | ⟨slots, rest, p, i, halloc, hnext⟩
  · rw [addSlot_abort (s := s.setIndex t) habort] at hrun
    refine .abort ?_ hrun hnext
    rintro ⟨_, a, _, _, _, _, ha, _⟩
    rw [hnext] at ha
    cases ha
  · cases hf' : t.breakpointRbFindInternal ((slots.slotSet p).slotOffset i + 4) with
    | none =>
      obtain ⟨t', hins', hadd⟩ := addSlot_absent rb (s := s.setIndex t) halloc
        hins.wellFormed (emptyNode_ret hb hins) hf'
      rw [hadd] at hrun
      refine .added _ ?_ hrun fun _ => ⟨o, p, i, slotAdded_linkChain ho hf hins halloc hins'⟩
      rw [hclash _ hnext, hf']
      exact Bool.false_ne_true
    | some e =>
      have hc : s.AddClashes b news := by
        rw [hclash _ hnext, hf']
        rfl
      rcases addSlot_clash rb hb hins halloc hf' with ⟨_, hadd⟩ | ⟨_, s', hadd, hleft⟩
      · rw [hadd] at hrun
        exact .stuck hc hrun
      · rw [hadd] at hrun
        exact .left s' hc hrun hf hleft

variable (news) in
theorem add_outcome (rb : RbLib BpEntry) (ht : s.index.WellFormed) (hb : s.NotAdded b) :
    AddOutcome rb s b news := by
  cases ho : s.objectGetByAddress (s.enterAddr b) with
  | none =>
    refine .refused (-1) (by decide) ?_ (add_noObject hb.chain ho) ?_
    · rintro ⟨o, _, ho', _⟩
      rw [ho] at ho'
      cases ho'
    · intro o ho'
      rw [ho] at ho'
      cases ho'
  | some o =>
    cases hno : s.noBkpt o with
    | true =>
      refine .refused (-2) (by decide) ?_ (add_noBkpt hb.chain ho hno) ?_
      · rintro ⟨o', _, ho', hno', _⟩
        cases ho.symm.trans ho'
        rw [hno] at hno'
        cases hno'
      · intro o' ho' hno'
        cases ho.symm.trans ho'
        rw [hno] at hno'
        cases hno'
    | false =>
      cases hf : s.index.breakpointRbFindInternal (s.enterAddr b) with
      | some e =>
        refine .refused (-3) (by decide) ?_ (add_present hb.chain ho hno hf) ?_
        · rintro ⟨_, _, _, _, hf', _⟩
          cases hf.symm.trans hf'
        · intro _ _ _ hf'
          cases hf.symm.trans hf'
      | none =>
        obtain ⟨t, hins, hrun⟩ := add_absent rb news ht hb.chain ho hno hf
        cases hslot : (s.bkpt b).hasAttr .NO_SLOT with
        | true =>
          rw [hslot, if_pos rfl] at hrun
          refine .added _ ?_ hrun fun hs => ?_
          · rintro ⟨_, _, _, _, _, hslot', _⟩
            rw [hslot] at hslot'
            cases hslot'
          · rw [hslot] at hs
            cases hs
        | false =>
          rw [hslot, if_neg Bool.false_ne_true] at hrun
          exact add_outcome_slot rb hb ho hno hf hslot hins hrun

/-- `breakpoint_add` is all-or-nothing exactly when its last exit is not taken. -/
theorem breakpointAdd_allOrNothing_iff (ht : s.index.WellFormed) (hb : s.NotAdded b) :
    AllOrNothing rb s b news ↔ ¬ s.AddClashes b news := by
  rcases add_outcome news rb ht hb with
    ⟨_, _, hn, h, _⟩ | ⟨hc, h⟩ | ⟨_, hc, h, hf, hf'⟩ | ⟨hn, h, _⟩ | ⟨_, hn, h, _⟩
  · exact iff_of_true (allOrNothing_of_same ht hb h) hn
  · exact iff_of_false (fun hall => hall.noAssertion h) (not_not.mpr hc)
  · exact iff_of_false (not_allOrNothing_of_linked hf h hf') (not_not.mpr hc)
  · exact iff_of_true ⟨by simp [h], by simp [h]⟩ hn
  · exact iff_of_true (allOrNothing_of_zero h) hn

/-- A call for a slot-backed breakpoint that returns has clashed, has done nothing and returned
a code that is not zero, or has added the breakpoint and returned 0. -/
theorem add_cases (ht : s.index.WellFormed) (hb : s.NotAdded b)
    (hslot : (s.bkpt b).hasAttr .NO_SLOT = false)
    (h : s.breakpointAdd rb b news = .ok (s', code)) :
    s.AddClashes b news ∨ (s' = s ∧ code ≠ 0) ∨
      (code = 0 ∧ ∃ o p i, s.SlotAdded s' b news o p i) := by
  rcases add_outcome news rb ht hb with
    ⟨_, hc, _, h', _⟩ | ⟨hc, _⟩ | ⟨_, hc, _, _, _⟩ | ⟨_, h', _⟩ | ⟨_, _, h', hs⟩
  · cases h.symm.trans h'
    exact Or.inr (Or.inl ⟨rfl, hc⟩)
  · exact Or.inl hc
  · exact Or.inl hc
  · cases h.symm.trans h'
  · cases h.symm.trans h'
    exact Or.inr (Or.inr ⟨rfl, hs hslot⟩)

/-- An add that finds its object, a free address and a slot that does not clash succeeds. -/
theorem add_returns (rb : RbLib BpEntry) (ht : s.index.WellFormed) (hb : s.NotAdded b)
    (ho : s.objectGetByAddress (s.enterAddr b) = some o) (hno : s.noBkpt o = false)
    (hf : s.index.breakpointRbFind (s.enterAddr b) = none) (hn : ¬ s.AddClashes b news)
    (hnext : nextSlot s.slots news ≠ none) : ∃ s', s.breakpointAdd rb b news = .ok (s', 0) := by
  rcases add_outcome news rb ht hb with
    ⟨_, _, _, _, hr⟩ | ⟨hc, _⟩ | ⟨_, hc, _, _, _⟩ | ⟨_, _, hnone⟩ | ⟨s', _, h, _⟩
  · exact absurd hf (hr o ho hno)
  · exact absurd hc hn
  · exact absurd hc hn
  · exact absurd hnone hnext
  · exact ⟨s', h⟩

section Zero

/-- A call that returns 0 has passed the first three exits. -/
theorem add_zero (ht : s.index.WellFormed) (hb : s.NotAdded b)
    (h : s.breakpointAdd rb b news = .ok (s', 0)) :
    ∃ (t : BpIndex BpEntry) (o : ObjPtr), (if (s.bkpt b).hasAttr .NO_SLOT then
      .ok ((s.setIndex t).linkChain b o, 0)
    else (s.setIndex t).addSlot rb b news >>= fun r =>
      if r.2 ≠ 0 then .ok r else .ok (r.1.linkChain b o, 0)) = Except.ok (s', (0 : Int)) := by
  cases ho : s.objectGetByAddress (s.enterAddr b) with
  | none =>
    rw [add_noObject hb.chain ho] at h
    cases h
  | some o =>
    cases hn : s.noBkpt o with
    | true =>
      rw [add_noBkpt hb.chain ho hn] at h
      cases h
    | false =>
      cases hf : s.index.breakpointRbFindInternal (s.enterAddr b) with
      | some e =>
        rw [add_present hb.chain ho hn hf] at h
        cases h
      | none =>
        obtain ⟨t, _, hrun⟩ := add_absent rb news ht hb.chain ho hn hf
        exact ⟨t, o, hrun.symm.trans h⟩

theorem addSlot_writable (h : s.addSlot rb b news = .ok (s', code)) : s'.writable = s.writable := by
  obtain ⟨⟨slots, rest, p, i⟩, _, h⟩ := bind_ok h
  obtain ⟨⟨t, c⟩, _, h⟩ := bind_ok h
  by_cases hc : c = 0
  · simp only [hc, ne_eq, not_true_eq_false, if_false] at h
    cases h
    rfl
  · simp only [hc, ne_eq, not_false_eq_true, if_true] at h
    obtain ⟨slots', _, h⟩ := bind_ok h
    cases h
    rfl

/-- `breakpoint_add` leaves the permissions alone. -/
theorem add_writable (ht : s.index.WellFormed) (hb : s.NotAdded b)
    (h : s.breakpointAdd rb b news = .ok (s', 0)) : s'.writable = s.writable := by
  obtain ⟨t, o, h⟩ := add_zero ht hb h
  split at h
  · cases h
    rfl
  · obtain ⟨⟨s₁, c⟩, hslot, h⟩ := bind_ok h
    have hs₁ : s₁.writable = (s.setIndex t).writable := addSlot_writable hslot
    by_cases hc : c = 0
    · rw [if_neg (not_not.mpr hc)] at h
      obtain ⟨rfl, _⟩ := Prod.mk.inj (Except.ok.inj h)
      exact hs₁
    · rw [if_pos hc] at h
      exact absurd (Prod.mk.inj (Except.ok.inj h)).2 hc

/-- A breakpoint without a slot is added all the same. -/
theorem add_noSlot (ht : s.index.WellFormed) (hb : s.NotAdded b)
    (hno : (s.bkpt b).hasAttr .NO_SLOT = true) (h : s.breakpointAdd rb b news = .ok (s', 0)) :
    ∃ o, s'.bkpt b = { s.bkpt b with obj := some o } := by
  obtain ⟨t, o, h⟩ := add_zero ht hb h
  rw [if_pos hno] at h
  cases h
  refine ⟨o, ?_⟩
  simp [linkChain, modifyBkpt_bkpt, setIndex]

/-- A slot-backed one has the slot that was the next to be taken. -/
theorem slotAdded_of_zero (ht : s.index.WellFormed) (hb : s.NotAdded b)
    (hslot : (s.bkpt b).hasAttr .NO_SLOT = false) (hadd : s.breakpointAdd rb b news = .ok (s', 0)) :
    ∃ o p i, s.SlotAdded s' b news o p i ∧
      nextSlot s.slots news = some ((s'.slots.slotSet p).slotOffset i) := by
  rcases add_outcome news rb ht hb with
    ⟨_, hc, _, h, _⟩ | ⟨_, h⟩ | ⟨_, _, h, _, _⟩ | ⟨_, h, _⟩ | ⟨_, _, h, hs⟩
  · cases hadd.symm.trans h
    exact absurd rfl hc
  · cases hadd.symm.trans h
  · cases hadd.symm.trans h
  · cases hadd.symm.trans h
  · cases hadd.symm.trans h
    obtain ⟨o, p, i, hadded⟩ := hs hslot
    obtain ⟨rest, halloc⟩ := hadded.alloc
    refine ⟨o, p, i, hadded, ?_⟩
    rcases slotAlloc_nextSlot s.slots news with ⟨hfail, _⟩ | ⟨_, _, _, _, halloc', hnext⟩
    · cases halloc.symm.trans hfail
    · cases halloc.symm.trans halloc'
      exact hnext

end Zero

/-- Two mappings, a breakpoint without a slot in the second at 0x20004, and two others in the
first. -/
def twoLibraries : Tracer where
  index := .init fun
    | ⟨0, .enter⟩ => 0x20004
    | ⟨1, .enter⟩ => 0x10000
    | ⟨2, .enter⟩ => 0x10010
    | _ => 0
  slots := .empty
  objects := [⟨[], 0x10000, 0x11000, 0xA, []⟩, ⟨[], 0x20000, 0x21000, 0xA, []⟩]
  bkpt b := ⟨if b = 0 then BkptAttr.NO_SLOT.flag else 0, none, 0, none⟩
  mem := fun _ => 0
  writable := fun _ => false

theorem wellFormed_twoLibraries : twoLibraries.index.WellFormed := BpIndex.wellFormed_init _

theorem notAdded_twoLibraries (b : BkptPtr) : twoLibraries.NotAdded b := ⟨rfl, rfl, rfl⟩

theorem not_addClashes_twoLibraries : ¬ twoLibraries.AddClashes 1 [⟨0, 0x30000⟩] := by
  rintro ⟨_, a, _, _, _, _, hnext, hclash⟩
  have ha : some (0x30000 : Addr) = some a := hnext
  cases ha
  rcases hclash with h | h
  · exact absurd h (by decide)
  · cases h

/-- The libraries with one more breakpoint for 0x20004. -/
def takenAddress : Tracer :=
  twoLibraries.setIndex (twoLibraries.index.setAddress ⟨3, .enter⟩ 0x20004)

/-- An add that succeeds, and one for an address that has its breakpoint: it is refused with -3 and
nothing has happened. -/
theorem breakpointAdd_allOrNothing_refused :
    AllOrNothing .unbalanced twoLibraries 1 [⟨0, 0x30000⟩] ∧
    ∃ s₁ s₂ : Tracer, takenAddress.breakpointAdd .unbalanced 0 [] = .ok (s₁, 0) ∧
      s₁.breakpointAdd .unbalanced 3 [⟨0, 0x30000⟩] = .ok (s₂, -3) ∧ s₁.Unchanged s₂ 3 := by
  refine ⟨(breakpointAdd_allOrNothing_iff wellFormed_twoLibraries (notAdded_twoLibraries 1)).mpr
    not_addClashes_twoLibraries, ?_⟩
  have hwf : takenAddress.index.WellFormed :=
    (BpIndex.setAddress_wellFormed wellFormed_twoLibraries rfl _).1
  obtain ⟨t, hins, hrun⟩ := add_absent .unbalanced [] (o := 1) (b := 0) hwf rfl rfl rfl rfl
  obtain ⟨s₁, hs₁⟩ : ∃ s₁, s₁ = (takenAddress.setIndex t).linkChain 0 1 := ⟨_, rfl⟩
  have hindex : s₁.index = t := by rw [hs₁]; rfl
  have haddr : s₁.enterAddr 3 = 0x20004 := by
    rw [enterAddr, hindex, hins.address]
    rfl
  have hpresent : s₁.index.breakpointRbFindInternal (s₁.enterAddr 3) = some ⟨0, .enter⟩ := by
    rw [haddr, hindex]
    exact (hins.find _).trans rfl
  have hb : s₁.NotAdded 3 := by
    refine ⟨by rw [hs₁]; rfl, ?_, ?_⟩ <;> rw [hindex, hins.emptyNode] <;> rfl
  have hrefused : s₁.breakpointAdd .unbalanced 3 [⟨0, 0x30000⟩] = .ok (s₁, -3) :=
    add_present (o := 1) hb.chain (by rw [haddr, hs₁]; rfl) (by rw [hs₁]; rfl) hpresent
  have hnot : ¬ s₁.AddClashes 3 [⟨0, 0x30000⟩] := by
    rintro ⟨_, _, _, _, hnone, _⟩
    cases hpresent.symm.trans hnone
  have hall : AllOrNothing .unbalanced s₁ 3 [⟨0, 0x30000⟩] :=
    (breakpointAdd_allOrNothing_iff (hindex ▸ hins.wellFormed) hb).mpr hnot
  exact ⟨s₁, s₁, by rw [hs₁]; exact hrun, hrefused, hall.unchanged s₁ (-3) hrefused (by decide)⟩

/-- The second library is unloaded while its breakpoint stays in the index, and `mmap` hands its
page out for slots: the add that fails with -4 leaves its breakpoint in the index. -/
theorem breakpointAdd_stale_page : ∃ s₁ s₂ : Tracer,
    twoLibraries.breakpointAdd .unbalanced 0 [] = .ok (s₁, 0) ∧
    s₁.index.WellFormed ∧ s₁.NotAdded 1 ∧
    s₁.breakpointAdd .unbalanced 1 [⟨0, 0x20000⟩] = .ok (s₂, -4) ∧
    s₁.breakpointFind 0x10000 = none ∧ s₂.breakpointFind 0x10000 = some 1 ∧
    ¬ AllOrNothing .unbalanced s₁ 1 [⟨0, 0x20000⟩] := by
  obtain ⟨t, hins, hrun⟩ := add_absent .unbalanced [] (o := 1) (b := 0)
    wellFormed_twoLibraries rfl rfl rfl rfl
  obtain ⟨s₁, hs₁⟩ : ∃ s₁, s₁ = (twoLibraries.setIndex t).linkChain 0 1 := ⟨_, rfl⟩
  have hindex : s₁.index = t := by rw [hs₁]; rfl
  have haddr : s₁.enterAddr 1 = 0x10000 := by
    rw [enterAddr, hindex, hins.address]
    rfl
  have hfree : s₁.index.breakpointRbFindInternal (s₁.enterAddr 1) = none := by
    rw [haddr, hindex]
    exact (hins.find _).trans rfl
  have hstale : s₁.index.breakpointRbFindInternal 0x20004 = some ⟨0, .enter⟩ := by
    rw [hindex]
    exact (hins.find _).trans rfl
  have hb : s₁.NotAdded 1 := by
    refine ⟨by rw [hs₁]; rfl, ?_, ?_⟩ <;> rw [hindex, hins.emptyNode] <;> rfl
  have hwf : s₁.index.WellFormed := by
    rw [hindex]
    exact hins.wellFormed
  obtain ⟨t', hins', hrun'⟩ := add_absent .unbalanced [⟨0, 0x20000⟩] (o := 0)
    hwf hb.chain (by rw [haddr, hs₁]; rfl) (by rw [hs₁]; rfl) hfree
  have halloc : s₁.slots.slotAlloc [⟨0, 0x20000⟩] = .ok
      ((SlotHeap.empty.slotSetAdd ⟨0, 0x20000⟩).modify 0 (·.claim 0 0), [], 0, 0) := by
    rw [hs₁, SlotHeap.slotAlloc_eq]
    rfl
  have hclash : t'.breakpointRbFindInternal 0x20004 = some ⟨0, .enter⟩ := by
    refine (hins'.find _).trans ?_
    rw [if_neg (by rw [← enterAddr, haddr]; decide), hstale]
  have hnoslot : (s₁.bkpt 1).hasAttr .NO_SLOT = false := by
    have hbkpt : s₁.bkpt 1 = twoLibraries.bkpt 1 := by
      simp [hs₁, linkChain, modifyBkpt_bkpt, setIndex]
    rw [hbkpt]
    decide
  rw [hnoslot, if_neg Bool.false_ne_true] at hrun'
  rcases addSlot_clash .unbalanced hb hins' halloc hclash with ⟨hi, _⟩ | ⟨_, s₂, hslot, hleft⟩
  · exact absurd hi (by decide)
  · rw [hslot] at hrun'
    refine ⟨s₁, s₂, by rw [hs₁]; exact hrun, hwf, hb, hrun', ?_, ?_, ?_⟩
    · rw [breakpointFind, ← haddr, BpIndex.breakpointRbFind, hfree]
      rfl
    · rw [breakpointFind, ← haddr, hleft]
      rfl
    · exact not_allOrNothing_of_linked hfree hrun' hleft

end Tracer

end Atrace.Signal

import Atrace.Signal.PatchThreads
import Atrace.Signal.TextPatch

/-! What holds of the tracer between any two steps, and what a step may change. -/
namespace Atrace.Signal

open Atrace.Lib

namespace Tracer

variable {s s' s₀ : Tracer} {b c : BkptPtr} {a w : Addr} {code : Addr → Prop} {p q : SlotSetPtr}
  {i j : Nat} {t : Option BkptPtr} {v : Instr}

/-- A breakpoint with both entries in the index and its slot filled. -/
def Done (s₀ s : Tracer) (b : BkptPtr) : Prop := ∃ p i, Placed s₀ s b p i

/-- The slots of the breakpoints are taken, each by one of them. -/
structure Claims (s : Tracer) : Prop where
  taken : ∀ b p, (s.bkpt b).slotSet = some p → p ∈ s.slots.slotSets ∧
    (s.bkpt b).slotIndex < 1024 ∧ (s.slots.slotSet p).isFree (s.bkpt b).slotIndex = false
  distinct : ∀ b c p, (s.bkpt b).slotSet = some p → (s.bkpt c).slotSet = some p →
    (s.bkpt b).slotIndex = (s.bkpt c).slotIndex → b = c

/-- The invariant of the tracer. A word of the code is the original one, but for the breakpoint
instruction under a breakpoint that is done. -/
structure TextInv (s₀ : Tracer) (code : Addr → Prop) (s : Tracer) : Prop extends s.Claims where
  aligned : ∀ a, code a → 4 ∣ a.toNat
  wellFormed : s.index.WellFormed
  layout : Layout code s.slots
  enterAddr : ∀ b, s.enterAddr b = s₀.enterAddr b
  objects : ∀ a, s.objectGetByAddress a = s₀.objectGetByAddress a
  noSlot : ∀ b, (s.bkpt b).hasAttr .NO_SLOT = false
  returned : ∀ b, s.index.emptyNode ⟨b, .ret⟩ = false → Done s₀ s b
  words : ∀ a, code a → loadInstr s.mem a = loadInstr s₀.mem a ∨
    (loadInstr s.mem a = brkInstr ∧ ∃ b, Done s₀ s b ∧ s₀.enterAddr b = a)

/-- What a step of a thread that adds `t` leaves alone; with no such `t`, what any other step
leaves alone. -/
structure Frame (t : Option BkptPtr) (s s' : Tracer) : Prop where
  fresh : ∀ b, t = some b → s.index.emptyNode ⟨b, .ret⟩ = true
  enterAddr : ∀ b, s'.enterAddr b = s.enterAddr b
  objects : ∀ a, s'.objectGetByAddress a = s.objectGetByAddress a
  noSlot : ∀ b, (s'.bkpt b).hasAttr .NO_SLOT = (s.bkpt b).hasAttr .NO_SLOT
  linked : ∀ e, s.index.emptyNode e = false → s'.index.emptyNode e = false
  unlinked : ∀ b, t ≠ some b → s'.index.emptyNode ⟨b, .ret⟩ = s.index.emptyNode ⟨b, .ret⟩
  returnAddr : ∀ b, t ≠ some b → s'.returnAddr b = s.returnAddr b
  slot : ∀ b, t ≠ some b → (s'.bkpt b).slotSet = (s.bkpt b).slotSet ∧
    (s'.bkpt b).slotIndex = (s.bkpt b).slotIndex
  kept : ∀ q ∈ s.slots.slotSets, q ∈ s'.slots.slotSets ∧
    (∀ j, (s'.slots.slotSet q).slotOffset j = (s.slots.slotSet q).slotOffset j) ∧
    ∀ j, (s.slots.slotSet q).isFree j = false → (s'.slots.slotSet q).isFree j = false
  words : ∀ b p w, t ≠ some b → (s.bkpt b).slotSet = some p →
    (s.slots.slotSet p).IsWord (s.bkpt b).slotIndex w → loadInstr s'.mem w = loadInstr s.mem w

theorem slotAddr_eq_ok_iff : s.slotAddr b = .ok a ↔ ∃ p, (s.bkpt b).slotSet = some p ∧
    (s.slots.slotSet p).slotOffset (s.bkpt b).slotIndex = a := by
  unfold slotAddr
  cases (s.bkpt b).slotSet <;> simp

theorem Done.linked (h : Done s₀ s b) (k : EntryKind) : s.index.emptyNode ⟨b, k⟩ = false := by
  obtain ⟨p, i, hp⟩ := h
  exact hp.linked k

namespace Frame

/-- The breakpoint that is being added is not done. -/
theorem ne (hf : Frame t s s') (h : s.index.emptyNode ⟨b, .ret⟩ = false) : t ≠ some b := by
  intro ht
  simp [hf.fresh b ht] at h

theorem placed (hf : Frame t s s') (h : Placed s₀ s b p i) : Placed s₀ s' b p i := by
  have hne := hf.ne (h.linked .ret)
  obtain ⟨hset, hindex⟩ := hf.slot b hne
  obtain ⟨hlisted, hoff, hfree⟩ := hf.kept p h.listed
  have hword : ∀ w, (s.slots.slotSet p).IsWord i w → loadInstr s'.mem w = loadInstr s.mem w := by
    intro w hw
    exact hf.words b p w hne h.slotSet (h.slotIndex.symm ▸ hw)
  refine ⟨⟨?_, ?_, hlisted, h.lt, hfree i h.taken, ?_, ?_, ?_⟩, ?_⟩
  · rw [hset, h.slotSet]
  · rw [hindex, h.slotIndex]
  · exact fun k => hf.linked _ (h.linked k)
  · rw [hf.returnAddr b hne, h.returnAddr, hoff]
  · rw [hoff, hword _ (Or.inr rfl), h.brk]
  · rw [hoff, hword _ (Or.inl rfl), h.saved]

theorem offset (hf : Frame t s s') (h : Placed s₀ s b p i) :
    (s'.slots.slotSet p).slotOffset i = (s.slots.slotSet p).slotOffset i :=
  (hf.kept p h.listed).2.1 i

theorem done (hf : Frame t s s') (h : Done s₀ s b) : Done s₀ s' b := by
  obtain ⟨p, i, hp⟩ := h
  exact ⟨p, i, hf.placed hp⟩

theorem slotAddr (hf : Frame t s s') (hc : s.Claims) (hne : t ≠ some b)
    (h : s.slotAddr b = .ok a) : s'.slotAddr b = .ok a := by
  obtain ⟨p, hp, rfl⟩ := slotAddr_eq_ok_iff.mp h
  obtain ⟨hset, hindex⟩ := hf.slot b hne
  refine slotAddr_eq_ok_iff.mpr ⟨p, hset.trans hp, ?_⟩
  rw [hindex, (hf.kept p (hc.taken b p hp).1).2.1]

/-- The words of a slot, while another breakpoint is being added. -/
theorem load (hf : Frame t s s') (hne : t ≠ some b) (h : s.slotAddr b = .ok a)
    (hw : w = a ∨ w = a + 4) : loadInstr s'.mem w = loadInstr s.mem w := by
  obtain ⟨p, hp, rfl⟩ := slotAddr_eq_ok_iff.mp h
  exact hf.words b p w hne hp hw

end Frame

namespace TextInv

/-- The words of two slots, or of a slot and the code, lie apart. -/
theorem wordsApart_slots (hi : TextInv s₀ code s) {x y : Addr} (hbc : b ≠ c)
    (hb : (s.bkpt b).slotSet = some p) (hc : (s.bkpt c).slotSet = some q)
    (hx : (s.slots.slotSet p).IsWord (s.bkpt b).slotIndex x)
    (hy : (s.slots.slotSet q).IsWord (s.bkpt c).slotIndex y) : WordsApart x y := by
  obtain ⟨hp, hlt, _⟩ := hi.taken b p hb
  obtain ⟨hq, hlt', _⟩ := hi.taken c q hc
  refine hi.layout.wordsApart_slot hp hq hlt hlt' ?_ hx hy
  intro he
  obtain ⟨rfl, hij⟩ := Prod.mk.inj he
  exact hbc (hi.distinct b c p hb hc hij)

theorem wordsApart_code (hi : TextInv s₀ code s) (hb : (s.bkpt b).slotSet = some p)
    (hw : (s.slots.slotSet p).IsWord (s.bkpt b).slotIndex w) (ha : code a) : WordsApart w a := by
  obtain ⟨hp, hlt, _⟩ := hi.taken b p hb
  have h4 := hi.aligned a ha
  have hlt4 := a.isLt
  exact hi.layout.wordsApart_text hp hlt hw ha (by omega)

theorem not_code (hi : TextInv s₀ code s) (hb : (s.bkpt b).slotSet = some p)
    (hw : (s.slots.slotSet p).IsWord (s.bkpt b).slotIndex w) : ¬ code w := by
  intro ha
  have hap := (hi.wordsApart_code hb hw ha).apart
  omega

/-- The invariant after a step, from what the step does to the breakpoint that it adds and to the
words of the code. -/
theorem frame (hi : TextInv s₀ code s) (hf : Frame t s s') (hwf : s'.index.WellFormed)
    (hl : Layout code s'.slots) (hc : s'.Claims)
    (hret : ∀ b, t = some b → s'.index.emptyNode ⟨b, .ret⟩ = false → Done s₀ s' b)
    (hw : ∀ a, code a → loadInstr s'.mem a = loadInstr s.mem a ∨
      ∃ b, Done s₀ s b ∧ s₀.enterAddr b = a ∧
        (loadInstr s'.mem a = brkInstr ∨ loadInstr s'.mem a = loadInstr s₀.mem a)) :
    TextInv s₀ code s' := by
  refine ⟨hc, hi.aligned, hwf, hl, ?_, ?_, ?_, ?_, ?_⟩
  · exact fun b => (hf.enterAddr b).trans (hi.enterAddr b)
  · exact fun a => (hf.objects a).trans (hi.objects a)
  · exact fun b => (hf.noSlot b).trans (hi.noSlot b)
  · intro b hb
    by_cases ht : t = some b
    · exact hret b ht hb
    · rw [hf.unlinked b ht] at hb
      exact hf.done (hi.returned b hb)
  · intro a ha
    rcases hw a ha with hsame | ⟨b, hb, he, hbrk | horig⟩
    · rw [hsame]
      rcases hi.words a ha with horig | ⟨hbrk, b, hb, he⟩
      · exact Or.inl horig
      · exact Or.inr ⟨hbrk, b, hf.done hb, he⟩
    · exact Or.inr ⟨hbrk, b, hf.done hb, he⟩
    · exact Or.inl horig

end TextInv

/-- Slots keep their places and nobody gives one back. -/
theorem Claims.congr (hc : s.Claims) (hset : ∀ b, (s'.bkpt b).slotSet = (s.bkpt b).slotSet)
    (hindex : ∀ b, (s'.bkpt b).slotIndex = (s.bkpt b).slotIndex)
    (hkept : ∀ q ∈ s.slots.slotSets, q ∈ s'.slots.slotSets ∧
      ∀ j, (s.slots.slotSet q).isFree j = false → (s'.slots.slotSet q).isFree j = false) :
    s'.Claims := by
  constructor
  · intro b p hb
    rw [hset] at hb
    obtain ⟨hp, hlt, hfree⟩ := hc.taken b p hb
    obtain ⟨hp', hfree'⟩ := hkept p hp
    rw [hindex]
    exact ⟨hp', hlt, hfree' _ hfree⟩
  · intro b c p hb hc' he
    rw [hset] at hb hc'
    rw [hindex, hindex] at he
    exact hc.distinct b c p hb hc' he

/-- What changes neither the index, nor the slots, nor the memory. -/
structure Same (s s' : Tracer) : Prop where
  index : s'.index = s.index
  slots : s'.slots = s.slots
  mem : s'.mem = s.mem
  objects : ∀ a, s'.objectGetByAddress a = s.objectGetByAddress a
  slotSet : ∀ b, (s'.bkpt b).slotSet = (s.bkpt b).slotSet
  slotIndex : ∀ b, (s'.bkpt b).slotIndex = (s.bkpt b).slotIndex
  noSlot : ∀ b, (s'.bkpt b).hasAttr .NO_SLOT = (s.bkpt b).hasAttr .NO_SLOT

theorem same_modifyBkpt {f : Breakpoint → Breakpoint}
    (hset : (f (s.bkpt b)).slotSet = (s.bkpt b).slotSet)
    (hindex : (f (s.bkpt b)).slotIndex = (s.bkpt b).slotIndex)
    (hno : (f (s.bkpt b)).hasAttr .NO_SLOT = (s.bkpt b).hasAttr .NO_SLOT) :
    Same s (s.modifyBkpt b f) := by
  have hself : (s.modifyBkpt b f).bkpt b = f (s.bkpt b) := (modifyBkpt_bkpt ..).trans (if_pos rfl)
  have hother : ∀ c, c ≠ b → (s.modifyBkpt b f).bkpt c = s.bkpt c :=
    fun c hc => (modifyBkpt_bkpt ..).trans (if_neg hc)
  refine ⟨rfl, rfl, rfl, fun _ => rfl, ?_, ?_, ?_⟩ <;> intro c <;> by_cases hc : c = b
  · rw [hc, hself, hset]
  · rw [hother c hc]
  · rw [hc, hself, hindex]
  · rw [hother c hc]
  · rw [hc, hself, hno]
  · rw [hother c hc]

theorem same_linkChain (s : Tracer) (b : BkptPtr) (o : ObjPtr) : Same s (s.linkChain b o) := by
  obtain ⟨_, _, _, _, hset, hindex, hno⟩ :=
    same_modifyBkpt (s := s) (b := b) (f := ({ · with obj := some o })) rfl rfl rfl
  refine ⟨rfl, rfl, rfl, ?_, hset, hindex, hno⟩
  intro a
  have hcovers : ∀ obj : Object,
      { obj with breakpointChain := b :: obj.breakpointChain : Object }.covers a = obj.covers a :=
    fun _ => rfl
  exact findIdx?_modify hcovers o

theorem same_mprotectText {ok write : Bool} {obj : Option ObjPtr} {n : Int}
    (h : s.mprotectText ok write obj = .ok (s', n)) : Same s s' := by
  obtain ⟨w, rfl⟩ := mprotectText_cases h
  exact ⟨rfl, rfl, rfl, fun _ => rfl, fun _ => rfl, fun _ => rfl, fun _ => rfl⟩

section Frames

theorem Same.frame (h : Same s s') : Frame none s s' := by
  refine ⟨nofun, ?_, h.objects, h.noSlot, ?_, ?_, ?_, fun b _ => ⟨h.slotSet b, h.slotIndex b⟩, ?_, ?_⟩
  · intro b
    simp only [Tracer.enterAddr, h.index]
  · intro e he
    rwa [h.index]
  · intro b _
    rw [h.index]
  · intro b _
    simp only [Tracer.returnAddr, h.index]
  · intro q hq
    rw [h.slots]
    exact ⟨hq, fun _ => rfl, fun _ hj => hj⟩
  · intro b p w _ _ _
    rw [h.mem]

theorem frame_refl (s : Tracer) : Frame none s s :=
  Same.frame ⟨rfl, rfl, rfl, fun _ => rfl, fun _ => rfl, fun _ => rfl, fun _ => rfl⟩

theorem Frame.trans {s'' : Tracer} (hc : s.Claims) (h : Frame t s s') (h' : Frame t s' s'') :
    Frame t s s'' := by
  refine ⟨h.fresh, ?_, ?_, ?_, ?_, ?_, ?_, ?_, ?_, ?_⟩
  · exact fun b => (h'.enterAddr b).trans (h.enterAddr b)
  · exact fun a => (h'.objects a).trans (h.objects a)
  · exact fun b => (h'.noSlot b).trans (h.noSlot b)
  · exact fun e he => h'.linked e (h.linked e he)
  · exact fun b hb => (h'.unlinked b hb).trans (h.unlinked b hb)
  · exact fun b hb => (h'.returnAddr b hb).trans (h.returnAddr b hb)
  · exact fun b hb => ⟨(h'.slot b hb).1.trans (h.slot b hb).1, (h'.slot b hb).2.trans (h.slot b hb).2⟩
  · intro q hq
    obtain ⟨hq', hoff, hfree⟩ := h.kept q hq
    obtain ⟨hq'', hoff', hfree'⟩ := h'.kept q hq'
    exact ⟨hq'', fun j => (hoff' j).trans (hoff j), fun j hj => hfree' j (hfree j hj)⟩
  · intro b p w hb hset hw
    have hoff := (h.kept p (hc.taken b p hset).1).2.1
    refine (h'.words b p w hb ((h.slot b hb).1.trans hset) ?_).trans (h.words b p w hb hset hw)
    rwa [SlotSet.IsWord, (h.slot b hb).2, hoff]

/-- Other entries keep their addresses and stay linked. -/
theorem frame_setIndex {x : BpIndex BpEntry}
    (hfresh : ∀ b, t = some b → s.index.emptyNode ⟨b, .ret⟩ = true)
    (henter : ∀ b, x.address ⟨b, .enter⟩ = s.enterAddr b)
    (hret : ∀ b, t ≠ some b → x.address ⟨b, .ret⟩ = s.returnAddr b)
    (hlinked : ∀ e, s.index.emptyNode e = false → x.emptyNode e = false)
    (hun : ∀ b, t ≠ some b → x.emptyNode ⟨b, .ret⟩ = s.index.emptyNode ⟨b, .ret⟩) :
    Frame t s (s.setIndex x) :=
  ⟨hfresh, henter, fun _ => rfl, fun _ => rfl, hlinked, hun, hret, fun _ _ => ⟨rfl, rfl⟩,
    fun _ hq => ⟨hq, fun _ => rfl, fun _ hj => hj⟩, fun _ _ _ _ _ _ => rfl⟩

/-- A store that misses the slots of the other breakpoints. -/
theorem frame_store (hfresh : ∀ b, t = some b → s.index.emptyNode ⟨b, .ret⟩ = true)
    (ha : ∀ b p w, t ≠ some b → (s.bkpt b).slotSet = some p →
      (s.slots.slotSet p).IsWord (s.bkpt b).slotIndex w → WordsApart w a) :
    Frame t s { s with mem := storeInstr s.mem a v } :=
  ⟨hfresh, fun _ => rfl, fun _ => rfl, fun _ => rfl, fun _ he => he, fun _ _ => rfl,
    fun _ _ => rfl, fun _ _ => ⟨rfl, rfl⟩, fun _ hq => ⟨hq, fun _ => rfl, fun _ hj => hj⟩,
    fun b p w hb hset hw => loadInstr_storeInstr_apart (ha b p w hb hset hw) _ _⟩

end Frames

namespace TextInv

theorem same (hi : TextInv s₀ code s) (h : Same s s') : TextInv s₀ code s' := by
  refine hi.frame h.frame (h.index.symm ▸ hi.wellFormed) (h.slots.symm ▸ hi.layout) ?_ nofun ?_
  · exact hi.toClaims.congr h.slotSet h.slotIndex fun q hq => h.slots.symm ▸ ⟨hq, fun _ hj => hj⟩
  · intro a _
    exact Or.inl (by rw [h.mem])

section Index

variable {x : BpIndex BpEntry}

/-- Linking an entry that no other thread's breakpoint has for its return entry. -/
theorem frame_inserted {e : BpEntry} (hins : s.index.Inserted x e)
    (hfresh : ∀ c, t = some c → s.index.emptyNode ⟨c, .ret⟩ = true)
    (hne : ∀ c, t ≠ some c → (⟨c, .ret⟩ : BpEntry) ≠ e) : Frame t s (s.setIndex x) := by
  refine frame_setIndex hfresh ?_ ?_ ?_ ?_
  · intro c
    rw [hins.address]
    rfl
  · intro c _
    rw [hins.address]
    rfl
  · intro e he
    rw [hins.emptyNode, Function.update_apply, he]
    exact ite_self false
  · intro c hc
    rw [hins.emptyNode, Function.update_of_ne (hne c hc)]

theorem frame_enter (hins : s.index.Inserted x ⟨b, .enter⟩) : Frame none s (s.setIndex x) :=
  frame_inserted hins nofun (by simp)

theorem setIndex_enter (hi : TextInv s₀ code s) (hins : s.index.Inserted x ⟨b, .enter⟩) :
    TextInv s₀ code (s.setIndex x) :=
  hi.frame (frame_enter hins) hins.wellFormed hi.layout ⟨hi.taken, hi.distinct⟩ nofun
    fun _ _ => Or.inl rfl

theorem frame_return (hfresh : s.index.emptyNode ⟨b, .ret⟩ = true)
    (hins : s.index.Inserted x ⟨b, .ret⟩) : Frame (some b) s (s.setIndex x) := by
  refine frame_inserted hins ?_ ?_
  · rintro c ⟨⟩
    exact hfresh
  · intro c hc he
    exact hc (by rw [(BpEntry.mk.inj he).1])

theorem setIndex_return (hi : TextInv s₀ code s) (hfresh : s.index.emptyNode ⟨b, .ret⟩ = true)
    (hins : s.index.Inserted x ⟨b, .ret⟩) (hb : Done s₀ (s.setIndex x) b) :
    TextInv s₀ code (s.setIndex x) := by
  refine hi.frame (frame_return hfresh hins) hins.wellFormed hi.layout ⟨hi.taken, hi.distinct⟩ ?_
    fun _ _ => Or.inl rfl
  rintro c ⟨⟩ _
  exact hb

end Index

section Slots

theorem frame_grow {new : NewSlots} (hnew : new.ptr ∉ s.slots.slotSets) :
    Frame none s (s.setSlots (s.slots.slotSetAdd new)) := by
  have hold : ∀ q ∈ s.slots.slotSets, (s.slots.slotSetAdd new).slotSet q = s.slots.slotSet q :=
    fun q hq => slotSetAdd_slotSet fun he => hnew (he ▸ hq)
  refine ⟨nofun, fun _ => rfl, fun _ => rfl, fun _ => rfl, fun _ he => he, fun _ _ => rfl,
    fun _ _ => rfl, fun _ _ => ⟨rfl, rfl⟩, ?_, fun _ _ _ _ _ _ => rfl⟩
  intro q hq
  refine ⟨List.mem_cons_of_mem _ hq, ?_, ?_⟩
  · intro j
    exact congrArg (·.slotOffset j) (hold q hq)
  · intro j hj
    exact (congrArg (·.isFree j) (hold q hq)).trans hj

theorem grow (hi : TextInv s₀ code s) {new : NewSlots} (hnew : new.Fits code s.slots) :
    TextInv s₀ code (s.setSlots (s.slots.slotSetAdd new)) := by
  have hf := frame_grow hnew.ptr
  refine hi.frame hf hi.wellFormed (hi.layout.slotSetAdd hnew) ?_ nofun fun _ _ => Or.inl rfl
  exact hi.toClaims.congr (fun _ => rfl) (fun _ => rfl) fun q hq =>
    ⟨(hf.kept q hq).1, (hf.kept q hq).2.2⟩

variable {slots : SlotHeap}

theorem takeSlot_bkpt (s : Tracer) (slots : SlotHeap) (c : BkptPtr) :
    (s.takeSlot b slots p i).bkpt c =
      if c = b then { s.bkpt b with slotSet := some p, slotIndex := i } else s.bkpt c :=
  modifyBkpt_bkpt ..

theorem frame_takeSlot (hfresh : s.index.emptyNode ⟨b, .ret⟩ = true)
    (ht : SlotTaken code s.slots slots p i) : Frame (some b) s (s.takeSlot b slots p i) := by
  have hbkpt : ∀ c, c ≠ b → (s.takeSlot b slots p i).bkpt c = s.bkpt c :=
    fun c hc => (takeSlot_bkpt s slots c).trans (if_neg hc)
  refine ⟨?_, fun _ => rfl, fun _ => rfl, ?_, fun _ he => he, fun _ _ => rfl, fun _ _ => rfl, ?_, ?_,
    fun _ _ _ _ _ _ => rfl⟩
  · rintro c ⟨⟩
    exact hfresh
  · intro c
    by_cases hc : c = b
    · subst c
      rw [takeSlot_bkpt, if_pos rfl]
      rfl
    · rw [hbkpt c hc]
  · intro c hc
    rw [hbkpt c fun he => hc (he ▸ rfl)]
    exact ⟨rfl, rfl⟩
  · intro q hq
    exact ⟨ht.kept q hq, ht.offset q hq, fun j hj => (ht.others q hq j hj).1⟩

theorem claims_takeSlot (hc : s.Claims) (ht : SlotTaken code s.slots slots p i) :
    (s.takeSlot b slots p i).Claims := by
  have hself : (s.takeSlot b slots p i).bkpt b = { s.bkpt b with slotSet := some p, slotIndex := i } :=
    (takeSlot_bkpt s slots b).trans (if_pos rfl)
  have hother : ∀ c, c ≠ b → (s.takeSlot b slots p i).bkpt c = s.bkpt c :=
    fun c hc => (takeSlot_bkpt s slots c).trans (if_neg hc)
  -- the slots that were claimed before are not this one
  have hne : ∀ c, c ≠ b → (s.bkpt c).slotSet = some p → (s.bkpt c).slotIndex ≠ i := by
    intro c hcb hset he
    obtain ⟨hp, _, hfree⟩ := hc.taken c p hset
    exact (ht.others p hp _ hfree).2 (by rw [he])
  constructor
  · intro c q hset
    by_cases hcb : c = b
    · subst c
      rw [hself] at hset ⊢
      obtain rfl := Option.some.inj hset
      exact ⟨ht.listed, ht.lt, ht.taken⟩
    · rw [hother c hcb] at hset ⊢
      obtain ⟨hq, hlt, hfree⟩ := hc.taken c q hset
      exact ⟨ht.kept q hq, hlt, (ht.others q hq _ hfree).1⟩
  · intro c d q hset hset' he
    by_cases hcb : c = b <;> by_cases hdb : d = b
    · rw [hcb, hdb]
    · rw [hcb, hself] at hset he
      rw [hother d hdb] at hset' he
      obtain rfl := Option.some.inj hset
      exact (hne d hdb hset' he.symm).elim
    · rw [hdb, hself] at hset' he
      rw [hother c hcb] at hset he
      obtain rfl := Option.some.inj hset'
      exact (hne c hcb hset he).elim
    · rw [hother c hcb] at hset he
      rw [hother d hdb] at hset' he
      exact hc.distinct c d q hset hset' he

theorem takeSlot (hi : TextInv s₀ code s) (hfresh : s.index.emptyNode ⟨b, .ret⟩ = true)
    (ht : SlotTaken code s.slots slots p i) : TextInv s₀ code (s.takeSlot b slots p i) := by
  refine hi.frame (frame_takeSlot hfresh ht) hi.wellFormed ht.layout
    (claims_takeSlot hi.toClaims ht) ?_ fun _ _ => Or.inl rfl
  rintro c ⟨⟩ hret
  exact absurd (hfresh.symm.trans hret) (by decide)

end Slots

section Words

variable (hi : TextInv s₀ code s)
include hi

/-- A store to the slot of the breakpoint that is being added. -/
theorem frame_slotWord (hfresh : s.index.emptyNode ⟨b, .ret⟩ = true)
    (hb : (s.bkpt b).slotSet = some p) (hw : (s.slots.slotSet p).IsWord (s.bkpt b).slotIndex w) :
    Frame (some b) s { s with mem := storeInstr s.mem w v } := by
  apply frame_store
  · rintro c ⟨⟩
    exact hfresh
  · intro c q x hc hset hx
    exact hi.wordsApart_slots (fun he => hc (congrArg some he.symm)) hset hb hx hw

theorem slotWord (hfresh : s.index.emptyNode ⟨b, .ret⟩ = true)
    (hb : (s.bkpt b).slotSet = some p) (hw : (s.slots.slotSet p).IsWord (s.bkpt b).slotIndex w) :
    TextInv s₀ code { s with mem := storeInstr s.mem w v } := by
  refine hi.frame (hi.frame_slotWord hfresh hb hw) hi.wellFormed hi.layout
    ⟨hi.taken, hi.distinct⟩ ?_ ?_
  · rintro c ⟨⟩ hret
    exact absurd (hfresh.symm.trans hret) (by decide)
  · intro a ha
    exact Or.inl (loadInstr_storeInstr_apart (hi.wordsApart_code hb hw ha).symm _ _)

omit hi in
theorem frame_setReturnAddr (hfresh : s.index.emptyNode ⟨b, .ret⟩ = true) (a : Addr) :
    Frame (some b) s (s.setReturnAddr b a) := by
  apply frame_setIndex
  · rintro c ⟨⟩
    exact hfresh
  · intro c
    exact Function.update_of_ne (by simp) ..
  · intro c hc
    have hne : (⟨c, .ret⟩ : BpEntry) ≠ ⟨b, .ret⟩ := fun he => hc (by rw [(BpEntry.mk.inj he).1])
    exact Function.update_of_ne hne ..
  · exact fun _ he => he
  · exact fun _ _ => rfl

theorem setReturnAddr (hfresh : s.index.emptyNode ⟨b, .ret⟩ = true) (a : Addr) :
    TextInv s₀ code (s.setReturnAddr b a) := by
  have hwf := (BpIndex.setAddress_wellFormed hi.wellFormed hfresh a).1
  refine hi.frame (frame_setReturnAddr hfresh a) hwf hi.layout ⟨hi.taken, hi.distinct⟩ ?_
    fun _ _ => Or.inl rfl
  rintro c ⟨⟩ hret
  exact absurd (hfresh.symm.trans hret) (by decide)

/-- A store to the text word under a breakpoint. -/
theorem frame_text (ha : code (s.enterAddr b)) :
    Frame none s { s with mem := storeInstr s.mem (s.enterAddr b) v } := by
  refine frame_store (fun _ h => nomatch h) ?_
  intro c q x _ hset hx
  exact hi.wordsApart_code hset hx ha

theorem text (ha : code (s.enterAddr b)) (hb : Done s₀ s b)
    (hv : v = brkInstr ∨ v = loadInstr s₀.mem (s₀.enterAddr b)) :
    TextInv s₀ code { s with mem := storeInstr s.mem (s.enterAddr b) v } := by
  refine hi.frame (hi.frame_text ha) hi.wellFormed hi.layout ⟨hi.taken, hi.distinct⟩ nofun ?_
  intro x hx
  by_cases hxb : x = s.enterAddr b
  · subst x
    have hload : loadInstr (storeInstr s.mem (s.enterAddr b) v) (s.enterAddr b) = v :=
      loadInstr_storeInstr _ _ _
    refine Or.inr ⟨b, hb, (hi.enterAddr b).symm, ?_⟩
    rw [← hi.enterAddr] at hv
    exact hv.imp hload.trans hload.trans
  · have hap := wordsApart_of_aligned (hi.aligned x hx) (hi.aligned _ ha) hxb
    exact Or.inl (loadInstr_storeInstr_apart hap _ _)

end Words

end TextInv

end Tracer

end Atrace.Signal

import Atrace.Lib.Run
import Atrace.Signal.BreakpointAdd
import Atrace.Signal.BreakpointEnable
import Atrace.Signal.SlotLayout

/-! Every added breakpoint holds a slot of its own, which the index finds by its second word. -/
namespace Atrace.Signal

open Atrace.Lib

namespace Tracer

variable {rb : RbLib BpEntry} {s s' s₀ : Tracer} {b c : BkptPtr} {a w : Addr} {code : Int}
  {text : Addr → Prop} {p q : SlotSetPtr} {i j : Nat}

/-- A breakpoint that a call has added. -/
def Added (s : Tracer) (b : BkptPtr) : Prop := s.chainEmpty b = false

/-- Where an added breakpoint is: its slot and its index entries. -/
structure Held (s : Tracer) (b : BkptPtr) (p : SlotSetPtr) (i : Nat) : Prop where
  slotSet : (s.bkpt b).slotSet = some p
  slotIndex : (s.bkpt b).slotIndex = i
  listed : p ∈ s.slots.slotSets
  lt : i < 1024
  taken : (s.slots.slotSet p).isFree i = false
  linked : ∀ k, s.index.emptyNode ⟨b, k⟩ = false
  returnAddr : s.returnAddr b = (s.slots.slotSet p).slotOffset i + 4
  brk : loadInstr s.mem ((s.slots.slotSet p).slotOffset i + 4) = brkInstr

/-- The invariant of adds, enables and disables of breakpoints whose words are `text`. -/
structure SlotInv (text : Addr → Prop) (s : Tracer) : Prop where
  word : ∀ a, text a → a.toNat + 4 ≤ 2 ^ 64
  wellFormed : s.index.WellFormed
  layout : Layout text s.slots
  noSlot : ∀ b, (s.bkpt b).hasAttr .NO_SLOT = false
  fresh : ∀ b, ¬ s.Added b → s.NotAdded b
  text : ∀ b, s.Added b → text (s.enterAddr b)
  held : ∀ b, s.Added b → ∃ p i, s.Held b p i
  distinct : ∀ b c, s.Added b → s.Added c → (s.bkpt b).slotSet = (s.bkpt c).slotSet →
    (s.bkpt b).slotIndex = (s.bkpt c).slotIndex → b = c

/-- No breakpoint is added, and all of them are slot-backed and not enabled. -/
structure PatchInitial (s : Tracer) : Prop where
  wellFormed : s.index.WellFormed
  notAdded : ∀ b, s.NotAdded b
  slots : s.slots.slotSets = []
  enable : ∀ b, (s.bkpt b).hasAttr .ENABLE = false
  noSlot : ∀ b, (s.bkpt b).hasAttr .NO_SLOT = false

theorem PatchInitial.not_added (h : PatchInitial s) (b : BkptPtr) : ¬ s.Added b := by
  rw [Added, (h.notAdded b).chain]
  exact Bool.false_ne_true ∘ Eq.symm

/-- The calls of a run; an add comes with what `calloc` and `mmap` will return. -/
inductive PatchOp where
  | add (b : BkptPtr) (news : List NewSlots)
  | enable (b : BkptPtr)
  | disable (b : BkptPtr)

def call (rb : RbLib BpEntry) (s : Tracer) : PatchOp → Except Fault (Tracer × Int)
  | .add b news => s.breakpointAdd rb b news
  | .enable b => s.breakpointEnable b .succeeds
  | .disable b => s.breakpointDisable b .succeeds

/-- An address where `breakpoint_add` finds an object, aligned or not. -/
def IsCovered (s : Tracer) (a : Addr) : Prop :=
  a.toNat + 4 ≤ 2 ^ 64 ∧ (s.objectGetByAddress a).isSome

/-- Adds are of breakpoints that are not added, at words that do not wrap, and the slots are memory
of their own; enables and disables are of added ones. -/
def SlotLegal (s : Tracer) : PatchOp → Prop
  | .add b news => ¬ s.Added b ∧ (s.enterAddr b).toNat + 4 ≤ 2 ^ 64 ∧
      ∀ new ∈ news, new.Fits s.IsCovered s.slots
  | .enable b => s.Added b
  | .disable b => s.Added b

def SlotStep (rb : RbLib BpEntry) (s : Tracer) (op : PatchOp) (s' : Tracer) : Prop :=
  s.SlotLegal op ∧ ∃ code, s.call rb op = .ok (s', code)

theorem find_linked (hwf : s.index.WellFormed) {k : EntryKind}
    (hl : s.index.emptyNode ⟨b, k⟩ = false) (ha : s.index.address ⟨b, k⟩ = a) :
    s.index.breakpointRbFind a = some ⟨b, k⟩ :=
  (BpIndex.find_eq_some_iff hwf).mpr ⟨(hwf.linked ⟨b, k⟩).mp hl, ha⟩

/-- A write to the text keeps a breakpoint in its slot, if it keeps the slot's second word. -/
theorem Held.patched {on : Bool} {v : Instr} (h : s.Held c p i) (hp : s.Patched s' b on v)
    (hbrk : loadInstr s'.mem ((s.slots.slotSet p).slotOffset i + 4) =
      loadInstr s.mem ((s.slots.slotSet p).slotOffset i + 4)) : s'.Held c p i := by
  obtain ⟨hset, hindex, _⟩ := hp.slot_eq c
  constructor
  · rw [hset, h.slotSet]
  · rw [hindex, h.slotIndex]
  · rw [hp.slots]
    exact h.listed
  · exact h.lt
  · rw [hp.slots]
    exact h.taken
  · rw [hp.index]
    exact h.linked
  · rw [Tracer.returnAddr, hp.index, hp.slots]
    exact h.returnAddr
  · rw [hp.slots, hbrk, h.brk]

/-- An add puts the breakpoint into its slot. -/
theorem SlotAdded.held {news : List NewSlots} {o : ObjPtr} (h : s.SlotAdded s' b news o p i)
    (ht : SlotTaken text s.slots s'.slots p i) : s'.Held b p i := by
  have hnew := (h.bkpt b).trans (if_pos rfl)
  refine ⟨by rw [hnew], by rw [hnew], ht.listed, ht.lt, ht.taken, ?_, ?_, ?_⟩
  · intro k
    rw [h.emptyNode, if_pos rfl]
  · rw [h.returnAddr, if_pos rfl]
  · rw [h.mem, loadInstr_storeInstr]

namespace SlotInv

section Find

theorem find_entry (hi : SlotInv text s) {k : EntryKind} (hb : s.Added b)
    (ha : s.index.address ⟨b, k⟩ = a) : s.index.breakpointRbFind a = some ⟨b, k⟩ := by
  obtain ⟨p, i, h⟩ := hi.held b hb
  exact find_linked hi.wellFormed (h.linked k) ha

theorem find_enter (hi : SlotInv text s) (hb : s.Added b) :
    s.breakpointFind (s.enterAddr b) = some b :=
  congrArg (Option.map BpEntry.bkpt) (hi.find_entry (k := .enter) hb rfl)

theorem find_return (hi : SlotInv text s) (hb : s.Added b) :
    s.breakpointFind (s.returnAddr b) = some b :=
  congrArg (Option.map BpEntry.bkpt) (hi.find_entry (k := .ret) hb rfl)

/-- Only entries of added breakpoints are in the index. -/
theorem added_of_find {k : EntryKind} (hi : SlotInv text s)
    (h : s.index.breakpointRbFind a = some ⟨b, k⟩) : s.Added b ∧ s.index.address ⟨b, k⟩ = a := by
  obtain ⟨hlinked, haddr⟩ := (BpIndex.find_eq_some_iff hi.wellFormed).mp h
  refine ⟨?_, haddr⟩
  by_contra hb
  have hempty := (hi.wellFormed.linked ⟨b, k⟩).mpr hlinked
  cases k with
  | enter => simp [(hi.fresh b hb).enter] at hempty
  | ret => simp [(hi.fresh b hb).ret] at hempty

/-- No two added breakpoints are at one address. -/
theorem enter_inj (hi : SlotInv text s) (hb : s.Added b) (hc : s.Added c)
    (he : s.enterAddr b = s.enterAddr c) : b = c := by
  have hfind := hi.find_enter hb
  rw [he, hi.find_enter hc] at hfind
  exact (Option.some.inj hfind).symm

theorem held_inj (hi : SlotInv text s) (hb : s.Added b) (hc : s.Added c) (h : s.Held b p i)
    (h' : s.Held c p i) : b = c :=
  hi.distinct b c hb hc (by rw [h.slotSet, h'.slotSet]) (by rw [h.slotIndex, h'.slotIndex])

/-- A word of a slot is no word of the text. -/
theorem isWord_inj (hi : SlotInv text s) (hb : s.Added b) (hc : s.Added c) (h : s.Held b p i)
    (h' : s.Held c q j) (hw : (s.slots.slotSet p).IsWord i w)
    (hw' : (s.slots.slotSet q).IsWord j w) : b = c := by
  by_contra hne
  have hpair : (p, i) ≠ (q, j) := by
    rintro ⟨⟩
    exact hne (hi.held_inj hb hc h h')
  have hap := (hi.layout.wordsApart_slot h.listed h'.listed h.lt h'.lt hpair hw hw').apart
  omega

end Find

section Patched

variable {on : Bool} {v : Instr}

theorem added_patched (hp : s.Patched s' b on v) (c : BkptPtr) : s'.Added c ↔ s.Added c := by
  rw [Added, chainEmpty, hp.objects]
  rfl

/-- A write to the text word of an added breakpoint leaves the slots alone. -/
theorem load_patched (hi : SlotInv text s) (hb : s.Added b) (hp : s.Patched s' b on v)
    (h : s.Held c p i) (hw : (s.slots.slotSet p).IsWord i w) :
    loadInstr s'.mem w = loadInstr s.mem w := by
  have ht := hi.text b hb
  rw [hp.mem]
  exact loadInstr_storeInstr_apart
    (hi.layout.wordsApart_text h.listed h.lt hw ht (hi.word _ ht)) _ _

theorem held_patched (hi : SlotInv text s) (hb : s.Added b) (hp : s.Patched s' b on v)
    (h : s.Held c p i) : s'.Held c p i :=
  h.patched hp (hi.load_patched hb hp h (Or.inr rfl))

theorem patched (hi : SlotInv text s) (hb : s.Added b) (hp : s.Patched s' b on v) :
    SlotInv text s' := by
  have hadded := added_patched hp
  have henter : ∀ c, s'.enterAddr c = s.enterAddr c := by
    intro c
    rw [enterAddr, hp.index]
    rfl
  refine ⟨hi.word, ?_, ?_, ?_, ?_, ?_, ?_, ?_⟩
  · rw [hp.index]
    exact hi.wellFormed
  · rw [hp.slots]
    exact hi.layout
  · intro c
    by_cases hcb : c = b
    · subst c
      rw [hp.noSlot, hi.noSlot]
    · rw [hp.others c hcb, hi.noSlot]
  · intro c hc
    rw [hadded] at hc
    obtain ⟨hchain, hin, hret⟩ := hi.fresh c hc
    refine ⟨?_, ?_, ?_⟩
    · rw [chainEmpty, hp.objects]
      exact hchain
    · rw [hp.index]
      exact hin
    · rw [hp.index]
      exact hret
  · intro c hc
    rw [henter]
    exact hi.text c ((hadded c).mp hc)
  · intro c hc
    obtain ⟨p, i, h⟩ := hi.held c ((hadded c).mp hc)
    exact ⟨p, i, hi.held_patched hb hp h⟩
  · intro c d hc hd h₁ h₂
    rw [(hp.slot_eq c).1, (hp.slot_eq d).1] at h₁
    rw [(hp.slot_eq c).2.1, (hp.slot_eq d).2.1] at h₂
    exact hi.distinct c d ((hadded c).mp hc) ((hadded d).mp hd) h₁ h₂

end Patched

section Add

variable {news : List NewSlots} {o : ObjPtr}

theorem added_slotAdded (h : s.SlotAdded s' b news o p i) (c : BkptPtr) :
    s'.Added c ↔ c = b ∨ s.Added c := by
  have hchain : ∀ t : Tracer, t.Added c ↔ ∃ obj ∈ t.objects, c ∈ obj.breakpointChain := by
    intro t
    simp [Added, chainEmpty]
  have ho : o < s.objects.length := by
    obtain ⟨hlt, _⟩ := List.findIdx?_eq_some_iff_getElem.mp h.found
    exact hlt
  rw [hchain, hchain, h.objects, mem_chain_modify ho]

/-- Storing the copy changes only the words of the new slot. -/
theorem load_slotAdded (h : s.SlotAdded s' b news o p i)
    (ha : ∀ w, (s'.slots.slotSet p).IsWord i w → WordsApart a w) :
    loadInstr s'.mem a = loadInstr s.mem a := by
  rw [h.mem, loadInstr_storeInstr_apart (ha _ (Or.inr rfl)),
    loadInstr_storeInstr_apart (ha _ (Or.inl rfl))]

section Taken

variable (hi : SlotInv text s) (h : s.SlotAdded s' b news o p i)
  (hfits : ∀ new ∈ news, new.Fits text s.slots)
include hi h hfits

theorem taken : SlotTaken text s.slots s'.slots p i := by
  obtain ⟨rest, halloc⟩ := h.alloc
  exact slotAlloc_taken hi.layout hfits halloc

theorem load_text_slotAdded (ha : text a) : loadInstr s'.mem a = loadInstr s.mem a := by
  have ht := hi.taken h hfits
  apply load_slotAdded h
  intro w hw
  exact (ht.layout.wordsApart_text ht.listed ht.lt hw ha (hi.word a ha)).symm

theorem held_ne (hc : s.Held c q j) : (q, j) ≠ (p, i) :=
  ((hi.taken h hfits).others q hc.listed j hc.taken).2

/-- The slots that are held keep their words. -/
theorem load_held_slotAdded (hc : s.Held c q j) (hw : (s.slots.slotSet q).IsWord j w) :
    loadInstr s'.mem w = loadInstr s.mem w := by
  have ht := hi.taken h hfits
  apply load_slotAdded h
  intro w' hw'
  rw [SlotSet.IsWord, ← ht.offset q hc.listed j] at hw
  exact ht.layout.wordsApart_slot (ht.kept q hc.listed) ht.listed hc.lt ht.lt
    (hi.held_ne h hfits hc) hw hw'

theorem held_slotAdded (hcb : c ≠ b) (hc : s.Held c q j) : s'.Held c q j := by
  have ht := hi.taken h hfits
  have hoff := ht.offset q hc.listed j
  have hbkpt := (h.bkpt c).trans (if_neg hcb)
  refine ⟨?_, ?_, ht.kept q hc.listed, hc.lt, (ht.others q hc.listed j hc.taken).1, ?_, ?_, ?_⟩
  · rw [hbkpt, hc.slotSet]
  · rw [hbkpt, hc.slotIndex]
  · intro k
    rw [h.emptyNode, if_neg hcb, hc.linked]
  · rw [h.returnAddr, if_neg hcb, hc.returnAddr, hoff]
  · rw [hoff, hi.load_held_slotAdded h hfits hc (Or.inr rfl), hc.brk]

theorem held_self : s'.Held b p i := h.held (hi.taken h hfits)

end Taken

theorem slotAdded (hi : SlotInv text s) (hb : ¬ s.Added b) (h : s.SlotAdded s' b news o p i)
    (hfits : ∀ new ∈ news, new.Fits text s.slots) (htext : text (s.enterAddr b)) :
    SlotInv text s' := by
  have hold : ∀ c, s.Added c → c ≠ b := fun c hc he => hb (he ▸ hc)
  have hbkpt : ∀ c, c ≠ b → s'.bkpt c = s.bkpt c := fun c hc => (h.bkpt c).trans (if_neg hc)
  have hself := hi.held_self h hfits
  refine ⟨hi.word, h.wellFormed, (hi.taken h hfits).layout, ?_, ?_, ?_, ?_, ?_⟩
  · intro c
    by_cases hc : c = b
    · subst c
      rw [(h.bkpt b).trans (if_pos rfl)]
      exact hi.noSlot b
    · rw [hbkpt c hc, hi.noSlot]
  · intro c hc
    have hchain : s'.chainEmpty c = true := by simpa [Added] using hc
    rw [added_slotAdded h, not_or] at hc
    obtain ⟨_, hin, hret⟩ := hi.fresh c hc.2
    refine ⟨hchain, ?_, ?_⟩
    · rw [h.emptyNode, if_neg hc.1, hin]
    · rw [h.emptyNode, if_neg hc.1, hret]
  · intro c hc
    rw [h.enterAddr]
    rcases (added_slotAdded h c).mp hc with rfl | hc
    · exact htext
    · exact hi.text c hc
  · intro c hc
    rcases (added_slotAdded h c).mp hc with rfl | hc
    · exact ⟨p, i, hself⟩
    · obtain ⟨q, j, hq⟩ := hi.held c hc
      exact ⟨q, j, hi.held_slotAdded h hfits (hold c hc) hq⟩
  · have hdiff : ∀ c, s.Added c → (s'.bkpt c).slotSet = (s'.bkpt b).slotSet →
        (s'.bkpt c).slotIndex = (s'.bkpt b).slotIndex → False := by
      intro c hc h₁ h₂
      obtain ⟨q, j, hq⟩ := hi.held c hc
      rw [hbkpt c (hold c hc), hq.slotSet, hself.slotSet] at h₁
      rw [hbkpt c (hold c hc), hq.slotIndex, hself.slotIndex] at h₂
      exact hi.held_ne h hfits hq (by rw [Option.some.inj h₁, h₂])
    intro c d hc hd h₁ h₂
    rcases (added_slotAdded h c).mp hc with rfl | hc <;>
      rcases (added_slotAdded h d).mp hd with rfl | hd
    · rfl
    · exact (hdiff d hd h₁.symm h₂.symm).elim
    · exact (hdiff c hc h₁ h₂).elim
    · rw [hbkpt c (hold c hc), hbkpt d (hold d hd)] at h₁ h₂
      exact hi.distinct c d hc hd h₁ h₂

/-- The slots are not text and are held once, so no add clashes. -/
theorem not_addClashes (hi : SlotInv text s)
    (htext : (s.objectGetByAddress (s.enterAddr b)).isSome → text (s.enterAddr b))
    (hfits : ∀ new ∈ news, new.Fits text s.slots) : ¬ s.AddClashes b news := by
  rintro ⟨o, a, ho, _, _, _, hnext, hclash⟩
  rcases slotAlloc_nextSlot s.slots news with ⟨_, hnone⟩ | ⟨slots, rest, p, i, halloc, hsome⟩
  · rw [hnone] at hnext
    cases hnext
  rw [hsome] at hnext
  cases hnext
  have ht := slotAlloc_taken hi.layout hfits halloc
  have hne := fun w hw => (ht.layout.text_ne (a := w) ht.listed ht.lt hw).2
  rcases hclash with he | hs
  · exact hne _ (htext (Option.isSome_of_eq_some ho)) he.symm
  · obtain ⟨⟨c, k⟩, hf⟩ := Option.isSome_iff_exists.mp hs
    obtain ⟨hadded, haddr⟩ := hi.added_of_find hf
    obtain ⟨q, j, hq⟩ := hi.held c hadded
    cases k with
    | enter =>
      have haddr' : s.enterAddr c = _ := haddr
      exact hne _ (haddr' ▸ hi.text c hadded) rfl
    | ret =>
      obtain ⟨_, hdiff⟩ := ht.others q hq.listed j hq.taken
      have haddr' := hq.returnAddr.symm.trans haddr
      rw [← ht.offset q hq.listed j] at haddr'
      exact hdiff (ht.layout.slotReturn_inj (ht.kept q hq.listed) ht.listed hq.lt ht.lt haddr')

end Add

theorem initial (hw : ∀ a, text a → a.toNat + 4 ≤ 2 ^ 64) (h : PatchInitial s) :
    SlotInv text s := by
  refine ⟨hw, h.wellFormed, ?_, h.noSlot, fun b _ => h.notAdded b, ?_, ?_, ?_⟩
  · constructor <;> simp [h.slots]
  · exact fun b hb => absurd hb (h.not_added b)
  · exact fun b hb => absurd hb (h.not_added b)
  · exact fun b _ hb => absurd hb (h.not_added b)

end SlotInv

theorem objectGetByAddress_slotAdded {news : List NewSlots} {o : ObjPtr}
    (h : s.SlotAdded s' b news o p i) (a : Addr) :
    s'.objectGetByAddress a = s.objectGetByAddress a := by
  have hcovers : ∀ obj : Object,
      { obj with breakpointChain := b :: obj.breakpointChain : Object }.covers a = obj.covers a :=
    fun _ => rfl
  rw [objectGetByAddress, h.objects]
  exact findIdx?_modify hcovers o

theorem objectGetByAddress_patched {on : Bool} {v : Instr} (h : s.Patched s' b on v) (a : Addr) :
    s'.objectGetByAddress a = s.objectGetByAddress a := by
  rw [objectGetByAddress, h.objects]
  rfl

/-- One call, with the registry unchanged but for the chains. -/
theorem slotInv_step {op : PatchOp} (h : SlotStep rb s op s') (hi : SlotInv s.IsCovered s) :
    SlotInv s'.IsCovered s' := by
  obtain ⟨hlegal, code, hcall⟩ := h
  have hcovered : (∀ a, s'.objectGetByAddress a = s.objectGetByAddress a) →
      s'.IsCovered = s.IsCovered := by
    intro hobj
    funext a
    rw [IsCovered, hobj]
    rfl
  cases op with
  | add b news =>
    obtain ⟨hb, hw, hfits⟩ := hlegal
    rcases add_cases hi.wellFormed (hi.fresh b hb) (hi.noSlot b) hcall with
      hclash | ⟨rfl, _⟩ | ⟨_, o, p, i, hadd⟩
    · exact (hi.not_addClashes (fun hf => ⟨hw, hf⟩) hfits hclash).elim
    · exact hi
    · rw [hcovered (objectGetByAddress_slotAdded hadd)]
      exact hi.slotAdded hb hadd hfits ⟨hw, Option.isSome_of_eq_some hadd.found⟩
  | enable b =>
    rcases enable_cases hcall with ⟨_, ⟨rfl, _⟩ | hp⟩
    · exact hi
    · rw [hcovered (objectGetByAddress_patched hp)]
      exact hi.patched hlegal hp
  | disable b =>
    rcases disable_cases hcall with ⟨_, ⟨rfl, _⟩ | ⟨p, _, hp⟩⟩
    · exact hi
    · rw [hcovered (objectGetByAddress_patched hp)]
      exact hi.patched hlegal hp

theorem slotInv_run {ops : List PatchOp} (h₀ : PatchInitial s₀)
    (h : Run (SlotStep rb) s₀ ops s) : SlotInv s.IsCovered s :=
  h.inv (P := fun s => SlotInv s.IsCovered s) (fun _ _ _ => slotInv_step)
    (.initial (fun _ ha => ha.1) h₀)

section Enabled

variable {news : List NewSlots} {o : ObjPtr}

theorem nextSlot_ne_none (h : SlotHeap) (hn : news ≠ []) : nextSlot h news ≠ none := by
  rw [nextSlot]
  cases h.scanSets h.slotSets 0 with
  | some r => exact Option.some_ne_none _
  | none =>
    cases news with
    | nil => exact absurd rfl hn
    | cons new rest => exact Option.some_ne_none _

/-- The word of an address that is text and no enter address is not in the index. -/
theorem find_none (hi : SlotInv text s) (ht : text a) (ha : ∀ c, s.Added c → s.enterAddr c ≠ a) :
    s.index.breakpointRbFind a = none := by
  cases hf : s.index.breakpointRbFind a with
  | none => rfl
  | some e =>
    obtain ⟨c, k⟩ := e
    obtain ⟨hc, haddr⟩ := hi.added_of_find hf
    cases k with
    | enter => exact (ha c hc haddr).elim
    | ret =>
      obtain ⟨p, i, hp⟩ := hi.held c hc
      have hret := hp.returnAddr.symm.trans haddr
      exact ((hi.layout.text_ne hp.listed hp.lt ht).2 hret.symm).elim

/-- What an add and an enable leave behind. -/
structure Enabled (text : Addr → Prop) (s s' : Tracer) (b : BkptPtr) (news : List NewSlots)
    (o : ObjPtr) : Prop where
  inv : SlotInv text s'
  alloc : ∃ rest p i, s.slots.slotAlloc news = .ok (s'.slots, rest, p, i)
  enterAddr : ∀ c, s'.enterAddr c = s.enterAddr c
  added : ∀ c, s'.Added c ↔ c = b ∨ s.Added c
  bkpt : ∀ c, c ≠ b → s'.bkpt c = s.bkpt c
  obj : (s'.bkpt b).obj = some o
  objects : s'.objects = s.objects.modify o fun obj =>
    { obj with breakpointChain := b :: obj.breakpointChain }
  find : ∀ a, s'.objectGetByAddress a = s.objectGetByAddress a
  enter : loadInstr s'.mem (s.enterAddr b) = brkInstr
  saved : ∀ p i, s'.Held b p i →
    loadInstr s'.mem ((s'.slots.slotSet p).slotOffset i) = loadInstr s.mem (s.enterAddr b)
  others : ∀ c p i, c ≠ b → s.Held c p i → s'.Held c p i ∧
    loadInstr s'.mem ((s'.slots.slotSet p).slotOffset i) =
      loadInstr s.mem ((s.slots.slotSet p).slotOffset i)
  text : ∀ a, text a → WordsApart a (s.enterAddr b) → loadInstr s'.mem a = loadInstr s.mem a

theorem held_unique (h : s.Held b p i) (h' : s.Held b q j) : p = q ∧ i = j :=
  ⟨Option.some.inj (h.slotSet.symm.trans h'.slotSet), h.slotIndex.symm.trans h'.slotIndex⟩

theorem enabled_of_patched {s₁ : Tracer} (hi : SlotInv text s) (hb : ¬ s.Added b)
    (ht : text (s.enterAddr b)) (hfits : ∀ new ∈ news, new.Fits text s.slots)
    (h : s.SlotAdded s₁ b news o p i) (hp : s₁.Patched s' b true brkInstr) :
    Enabled text s s' b news o := by
  have hi₁ := hi.slotAdded hb h hfits ht
  have hb₁ : s₁.Added b := (SlotInv.added_slotAdded h b).mpr (Or.inl rfl)
  have htaken := hi.taken h hfits
  have hself := hi.held_self h hfits
  have hwords := htaken.layout.wordsApart_self htaken.listed htaken.lt
  refine ⟨hi₁.patched hb₁ hp, ?_, ?_, ?_, ?_, ?_, hp.objects.trans h.objects, ?_, ?_, ?_, ?_, ?_⟩
  · obtain ⟨rest, halloc⟩ := h.alloc
    exact ⟨rest, p, i, hp.slots ▸ halloc⟩
  · intro c
    rw [Tracer.enterAddr, hp.index]
    exact h.enterAddr c
  · intro c
    rw [SlotInv.added_patched hp, SlotInv.added_slotAdded h]
  · intro c hc
    rw [hp.others c hc]
    exact (h.bkpt c).trans (if_neg hc)
  · rw [hp.obj, (h.bkpt b).trans (if_pos rfl)]
  · intro a
    exact (objectGetByAddress_patched hp a).trans (objectGetByAddress_slotAdded h a)
  · rw [hp.mem, h.enterAddr, loadInstr_storeInstr]
  · intro q j hq
    obtain ⟨rfl, rfl⟩ := held_unique (hi₁.held_patched hb₁ hp hself) hq
    rw [hp.slots, hi₁.load_patched hb₁ hp hself (Or.inl rfl), h.mem,
      loadInstr_storeInstr_apart hwords, loadInstr_storeInstr]
  · intro c q j hc hq
    have hq₁ := hi.held_slotAdded h hfits hc hq
    refine ⟨hi₁.held_patched hb₁ hp hq₁, ?_⟩
    rw [hp.slots, hi₁.load_patched hb₁ hp hq₁ (Or.inl rfl), htaken.offset q hq.listed,
      hi.load_held_slotAdded h hfits hq (Or.inl rfl)]
  · intro a ha hne
    rw [hp.mem, h.enterAddr, loadInstr_storeInstr_apart hne, hi.load_text_slotAdded h hfits ha]

/-- An add and an enable of a breakpoint whose word lies in an object and is free. -/
theorem add_enable (rb : RbLib BpEntry) (hi : SlotInv text s) (hb : ¬ s.Added b)
    (ht : text (s.enterAddr b)) (ho : s.objectGetByAddress (s.enterAddr b) = some o)
    (hno : s.noBkpt o = false) (hc : ∀ c, s.Added c → s.enterAddr c ≠ s.enterAddr b)
    (hfits : ∀ new ∈ news, new.Fits text s.slots) (hnews : news ≠ [])
    (hoff : (s.bkpt b).hasAttr .ENABLE = false)
    (hin : ∃ obj, s.objects[o]? = some obj ∧ ∀ i < 4,
      obj.textStart ≤ s.enterAddr b + BitVec.ofNat 64 i ∧
        s.enterAddr b + BitVec.ofNat 64 i < obj.textEnd) :
    ∃ s₁ s₂, s.breakpointAdd rb b news = .ok (s₁, 0) ∧ s₁.Added b ∧
      s₁.breakpointEnable b .succeeds = .ok (s₂, 0) ∧ (s₂.bkpt b).hasAttr .ENABLE = true ∧
      Enabled text s s₂ b news o := by
  have hnot := hi.fresh b hb
  have hclash := hi.not_addClashes (fun _ => ht) hfits
  obtain ⟨s₁, hadd⟩ := add_returns rb hi.wellFormed hnot ho hno (find_none hi ht hc) hclash
    (nextSlot_ne_none s.slots hnews)
  rcases add_cases hi.wellFormed hnot (hi.noSlot b) hadd with hc | ⟨_, hne⟩ | ⟨_, o', p, i, h⟩
  · exact (hclash hc).elim
  · exact absurd rfl hne
  obtain rfl := Option.some.inj (h.found.symm.trans ho)
  have hbkpt := (h.bkpt b).trans (if_pos rfl)
  have hin₁ : s₁.InText b := by
    obtain ⟨obj, hobj, hr⟩ := hin
    refine ⟨o', { obj with breakpointChain := b :: obj.breakpointChain }, by rw [hbkpt], ?_, ?_⟩
    · rw [h.objects, List.getElem?_modify_eq, hobj]
      rfl
    · rw [h.enterAddr]
      exact hr
  have hlinked : s₁.index.emptyNode ⟨b, .enter⟩ = false := by rw [h.emptyNode, if_pos rfl]
  obtain ⟨s₂, henable⟩ := enable_returns hlinked hin₁
  have hadded := (SlotInv.added_slotAdded h b).mpr (Or.inl rfl)
  refine ⟨s₁, s₂, hadd, hadded, henable, ?_⟩
  rcases enable_cases henable with ⟨_, ⟨_, hon⟩ | hp⟩
  · rw [hbkpt] at hon
    exact absurd (hoff.symm.trans hon) Bool.false_ne_true
  · exact ⟨hp.enable, enabled_of_patched hi hb ht hfits h hp⟩

/-- The mappings of `twoLibraries`, with every breakpoint slot-backed. -/
def slotLibraries (mem : Memory 64) : Tracer :=
  { twoLibraries with bkpt := fun _ => ⟨0, none, 0, none⟩, mem := mem }

theorem patchInitial_slotLibraries (mem : Memory 64) : PatchInitial (slotLibraries mem) := by
  have hattr : ∀ b k, ((slotLibraries mem).bkpt b).hasAttr k = false := by
    intro b k
    simp [slotLibraries, Breakpoint.hasAttr]
  exact ⟨wellFormed_twoLibraries, fun _ => ⟨rfl, rfl, rfl⟩, rfl, fun b => hattr b _,
    fun b => hattr b _⟩

/-- The addresses of the two mappings end before 0x30000. -/
theorem lt_of_covered {mem : Memory 64}
    (h : ((slotLibraries mem).objectGetByAddress a).isSome) : a.toNat + 4 ≤ 0x30000 := by
  have hany : (slotLibraries mem).objects.any (·.covers a) = true := by
    rw [← List.findIdx?_isSome]
    exact h
  have h₁ : (0x11000 : Addr).toNat = 0x11000 := rfl
  have h₂ : (0x21000 : Addr).toNat = 0x21000 := rfl
  simp only [slotLibraries, twoLibraries, List.any_cons, List.any_nil, Bool.or_false,
    Bool.or_eq_true, Object.covers, Bool.and_eq_true, decide_eq_true_eq, BitVec.le_def, h₁, h₂]
    at hany
  omega

/-- The breakpoints 1 and 2 are in the first mapping. -/
theorem twoLibraries_first (hb : b = 1 ∨ b = 2) :
    (twoLibraries.enterAddr b).toNat + 4 ≤ 2 ^ 64 ∧
      twoLibraries.objectGetByAddress (twoLibraries.enterAddr b) = some 0 ∧
      ∀ i < 4, 0x10000 ≤ twoLibraries.enterAddr b + BitVec.ofNat 64 i ∧
        twoLibraries.enterAddr b + BitVec.ofNat 64 i < 0x11000 := by
  rcases hb with rfl | rfl <;> decide

/-- The first slot set of `slotLibraries` is mapped at 0x30000. -/
theorem fits_first (mem : Memory 64) (htext : ∀ a, text a → a.toNat + 4 ≤ 0x30000) :
    ∀ new ∈ [(⟨0, 0x30000⟩ : NewSlots)], new.Fits text (slotLibraries mem).slots := by
  intro new hnew
  obtain rfl := List.mem_singleton.mp hnew
  exact ⟨List.not_mem_nil, by decide, fun p hp => absurd hp List.not_mem_nil,
    fun a ha => Or.inl (htext a ha)⟩

/-- The second one would be mapped at 0x40000. -/
theorem fits_second (mem : Memory 64) (htext : ∀ a, text a → a.toNat + 4 ≤ 0x30000)
    (h : (slotLibraries mem).Enabled text s b [⟨0, 0x30000⟩] o) :
    ∀ new ∈ [(⟨1, 0x40000⟩ : NewSlots)], new.Fits text s.slots := by
  intro new hnew
  obtain rfl := List.mem_singleton.mp hnew
  obtain ⟨rest, p, i, halloc⟩ := h.alloc
  rw [SlotHeap.slotAlloc_eq] at halloc
  obtain ⟨hslots, _⟩ := Prod.mk.inj (Except.ok.inj halloc)
  rw [← hslots]
  have hbase : (((SlotHeap.empty.slotSetAdd ⟨0, 0x30000⟩).modify 0
      (·.claim 0 0)).slotSet 0).slots = 0x30000 := rfl
  refine ⟨?_, by decide, ?_, ?_⟩
  · simp [SlotHeap.modify, SlotHeap.slotSetAdd, SlotHeap.empty, slotLibraries, twoLibraries]
  · intro q hq
    obtain rfl := List.mem_singleton.mp hq
    left
    show (((SlotHeap.empty.slotSetAdd ⟨0, 0x30000⟩).modify 0 (·.claim 0 0)).slotSet 0).slots.toNat +
      areaSize ≤ _
    rw [hbase]
    decide
  · intro a ha
    left
    exact (htext a ha).trans (by decide)

/-- The breakpoints 1 and 2, added and enabled one after the other. -/
theorem slotLibraries_run (mem : Memory 64) : ∃ s,
    Run (SlotStep .unbalanced) (slotLibraries mem)
      [.add 1 [⟨0, 0x30000⟩], .enable 1, .add 2 [⟨1, 0x40000⟩], .enable 2] s ∧
    (∀ a, s.objectGetByAddress a = (slotLibraries mem).objectGetByAddress a) ∧
    (∀ b, s.Added b ↔ b = 1 ∨ b = 2) ∧
    (∀ b, s.enterAddr b = (slotLibraries mem).enterAddr b) ∧
    loadInstr s.mem 0x10000 = brkInstr ∧ loadInstr s.mem 0x10010 = brkInstr ∧
    ∀ b p i, b = 1 ∨ b = 2 → s.Held b p i →
      loadInstr s.mem ((s.slots.slotSet p).slotOffset i) =
        loadInstr mem (twoLibraries.enterAddr b) := by
  obtain ⟨s₀, hs₀⟩ : ∃ s₀, s₀ = slotLibraries mem := ⟨_, rfl⟩
  have h₀ : PatchInitial s₀ := hs₀ ▸ patchInitial_slotLibraries mem
  have hi₀ : SlotInv s₀.IsCovered s₀ := .initial (fun _ ha => ha.1) h₀
  have hcov : ∀ a, s₀.IsCovered a → a.toNat + 4 ≤ 0x30000 := by
    rintro a ⟨_, ha⟩
    rw [hs₀] at ha
    exact lt_of_covered ha
  have haddr : ∀ b, s₀.enterAddr b = twoLibraries.enterAddr b := fun b => hs₀ ▸ rfl
  have haddr₁ : s₀.enterAddr 1 = 0x10000 := haddr 1
  have haddr₂ : s₀.enterAddr 2 = 0x10010 := haddr 2
  have hfind : ∀ b, s₀.objectGetByAddress b = twoLibraries.objectGetByAddress b :=
    fun b => hs₀ ▸ rfl
  have hobj : s₀.objects[0]? = some ⟨[], 0x10000, 0x11000, 0xA, []⟩ := hs₀ ▸ rfl
  have hword : ∀ b, b = 1 ∨ b = 2 → s₀.IsCovered (s₀.enterAddr b) := by
    intro b hb
    obtain ⟨hw, hf, _⟩ := twoLibraries_first hb
    rw [IsCovered, haddr, hfind, hf]
    exact ⟨hw, rfl⟩
  have hfits := fits_first mem (hs₀ ▸ hcov)
  rw [← hs₀] at hfits ⊢
  obtain ⟨s₁, s₂, hadd, hadded, hen, _, h⟩ := add_enable (o := 0) .unbalanced hi₀
    (h₀.not_added 1) (hword 1 (Or.inl rfl)) (by rw [haddr, hfind]; decide) (hs₀ ▸ rfl)
    (fun c hc => absurd hc (h₀.not_added c)) hfits (by simp) (h₀.enable 1)
    ⟨_, hobj, haddr 1 ▸ (twoLibraries_first (Or.inl rfl)).2.2⟩
  have hnot : ¬ s₂.Added 2 := by
    rw [h.added, not_or]
    exact ⟨by decide, h₀.not_added 2⟩
  have hfits' : ∀ new ∈ [(⟨1, 0x40000⟩ : NewSlots)], new.Fits s₀.IsCovered s₂.slots :=
    fits_second mem hcov (by rw [← hs₀]; exact h)
  have hne : ∀ c, s₂.Added c → s₂.enterAddr c ≠ s₂.enterAddr 2 := by
    intro c hc
    rcases (h.added c).mp hc with rfl | hc
    · rw [h.enterAddr, h.enterAddr, haddr, haddr]
      decide
    · exact absurd hc (h₀.not_added c)
  have hobj₂ : s₂.objects[0]? = some ⟨[], 0x10000, 0x11000, 0xA, [1]⟩ := by
    rw [h.objects, List.getElem?_modify_eq, hobj]
    rfl
  have hno : s₂.noBkpt 0 = false := by
    rw [noBkpt, hobj₂]
    rfl
  have hfind₂ : s₂.objectGetByAddress (s₂.enterAddr 2) = some 0 := by
    rw [h.find, h.enterAddr, haddr, hfind]
    decide
  have hword₂ : s₂.IsCovered = s₀.IsCovered := by
    funext a
    rw [IsCovered, h.find]
    rfl
  have hoff : (s₂.bkpt 2).hasAttr .ENABLE = false := by
    rw [h.bkpt 2 (by decide)]
    exact h₀.enable 2
  obtain ⟨s₃, s₄, hadd', hadded', hen', _, h'⟩ := add_enable (o := 0) .unbalanced h.inv hnot
    ((h.enterAddr 2).symm ▸ hword 2 (Or.inr rfl)) hfind₂ hno hne hfits' (by simp) hoff
    ⟨_, hobj₂, (h.enterAddr 2).symm ▸ (haddr 2).symm ▸ (twoLibraries_first (Or.inr rfl)).2.2⟩
  refine ⟨s₄, ?_, ?_, ?_, ?_, ?_, ?_, ?_⟩
  · refine .stepL ⟨⟨h₀.not_added 1, (hword 1 (Or.inl rfl)).1, hfits⟩, 0, hadd⟩ ?_
    refine .stepL ⟨hadded, 0, hen⟩ ?_
    refine .stepL ⟨⟨hnot, ?_, hword₂ ▸ hfits'⟩, 0, hadd'⟩ (.stepL ⟨hadded', 0, hen'⟩ .refl)
    rw [h.enterAddr]
    exact (hword 2 (Or.inr rfl)).1
  · intro a
    rw [h'.find, h.find]
  · intro b
    rw [h'.added, h.added]
    constructor
    · rintro (rfl | rfl | hb)
      · exact Or.inr rfl
      · exact Or.inl rfl
      · exact absurd hb (h₀.not_added b)
    · rintro (rfl | rfl)
      · exact Or.inr (Or.inl rfl)
      · exact Or.inl rfl
  · intro b
    rw [h'.enterAddr, h.enterAddr]
  · have henter : loadInstr s₂.mem 0x10000 = brkInstr := haddr₁ ▸ h.enter
    have happ : WordsApart 0x10000 (s₂.enterAddr 2) := by
      rw [h.enterAddr, haddr]
      exact wordsApart_of_aligned (by decide) (by decide) (by decide)
    rw [h'.text _ (haddr₁ ▸ hword 1 (Or.inl rfl)) happ, henter]
  · have henter := h'.enter
    rw [h.enterAddr] at henter
    exact haddr₂ ▸ henter
  · rintro b p i (rfl | rfl) hp
    · obtain ⟨q, j, hq⟩ := h.inv.held 1 ((h.added 1).mpr (Or.inl rfl))
      obtain ⟨hq', hload⟩ := h'.others 1 q j (by decide) hq
      obtain ⟨rfl, rfl⟩ := held_unique hp hq'
      rw [hload, h.saved p i hq, hs₀]
      rfl
    · have happ : WordsApart (s₀.enterAddr 2) (s₀.enterAddr 1) := by
        rw [haddr, haddr]
        exact wordsApart_of_aligned (by decide) (by decide) (by decide)
      rw [h'.saved p i hp, h.enterAddr, h.text _ (hword 2 (Or.inr rfl)) happ, hs₀]
      rfl

end Enabled

end Tracer

end Atrace.Signal

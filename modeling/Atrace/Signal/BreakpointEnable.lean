import Atrace.Signal.Breakpoint

/-! What `breakpoint_enable` and `breakpoint_disable` do, and when they return. -/
namespace Atrace.Signal

open Atrace.Lib

namespace Tracer

variable {s s' : Tracer} {b : BkptPtr} {code : Int}

/-- Where `mprotect` succeeds. -/
def Mprotect.succeeds : Mprotect := ⟨true, true⟩

/-- What `breakpoint_enable` and `breakpoint_disable` do when they do anything: set the flag and
write one instruction to the text. -/
structure Patched (s s' : Tracer) (b : BkptPtr) (on : Bool) (v : Instr) : Prop where
  index : s'.index = s.index
  slots : s'.slots = s.slots
  objects : s'.objects = s.objects
  others : ∀ c, c ≠ b → s'.bkpt c = s.bkpt c
  slotSet : (s'.bkpt b).slotSet = (s.bkpt b).slotSet
  slotIndex : (s'.bkpt b).slotIndex = (s.bkpt b).slotIndex
  obj : (s'.bkpt b).obj = (s.bkpt b).obj
  enable : (s'.bkpt b).hasAttr .ENABLE = on
  noSlot : (s'.bkpt b).hasAttr .NO_SLOT = (s.bkpt b).hasAttr .NO_SLOT
  mem : s'.mem = storeInstr s.mem (s.enterAddr b) v

theorem Patched.slot_eq {on : Bool} {v : Instr} (h : s.Patched s' b on v) (c : BkptPtr) :
    (s'.bkpt c).slotSet = (s.bkpt c).slotSet ∧ (s'.bkpt c).slotIndex = (s.bkpt c).slotIndex ∧
      (s'.bkpt c).obj = (s.bkpt c).obj := by
  by_cases hc : c = b
  · subst c
    exact ⟨h.slotSet, h.slotIndex, h.obj⟩
  · rw [h.others c hc]
    exact ⟨rfl, rfl, rfl⟩

theorem mprotectText_cases {ok write : Bool} {obj : Option ObjPtr}
    (h : s.mprotectText ok write obj = .ok (s', code)) : ∃ w, s' = { s with writable := w } := by
  unfold mprotectText at h
  split at h
  · cases h
  · split at h
    · cases h
    · split at h <;> cases h
      · exact ⟨_, rfl⟩
      · exact ⟨s.writable, rfl⟩

theorem patchText_cases {mp : Mprotect} {v : Instr} (h : s.patchText b mp v = .ok s') :
    ∃ w, s' = { s with mem := storeInstr s.mem (s.enterAddr b) v, writable := w } := by
  obtain ⟨⟨s₁, c₁⟩, h₁, h⟩ := bind_ok h
  obtain ⟨s₂, h₂, h⟩ := bind_ok h
  obtain ⟨⟨s₃, c₃⟩, h₃, h⟩ := bind_ok h
  obtain ⟨w₁, rfl⟩ := mprotectText_cases h₁
  obtain ⟨w₃, rfl⟩ := mprotectText_cases h₃
  cases h
  unfold storeText at h₂
  split at h₂
  · cases h₂
    exact ⟨w₃, rfl⟩
  · cases h₂

/-- A write to the text after setting or clearing the flag. -/
theorem patched_of_attr {f : Breakpoint → Breakpoint} {w : Addr → Bool} {on : Bool} {v : Instr}
    (hset : (f (s.bkpt b)).slotSet = (s.bkpt b).slotSet)
    (hindex : (f (s.bkpt b)).slotIndex = (s.bkpt b).slotIndex)
    (hobj : (f (s.bkpt b)).obj = (s.bkpt b).obj)
    (hon : (f (s.bkpt b)).hasAttr .ENABLE = on)
    (hslot : (f (s.bkpt b)).hasAttr .NO_SLOT = (s.bkpt b).hasAttr .NO_SLOT) :
    s.Patched { s.modifyBkpt b f with mem := storeInstr s.mem (s.enterAddr b) v, writable := w }
      b on v := by
  refine ⟨rfl, rfl, rfl, ?_, ?_, ?_, ?_, ?_, ?_, rfl⟩
  · intro c hc
    simp [modifyBkpt_bkpt, hc]
  all_goals simpa [modifyBkpt_bkpt]

theorem enable_cases {mp : Mprotect} (h : s.breakpointEnable b mp = .ok (s', code)) :
    code = 0 ∧ ((s' = s ∧ (s.bkpt b).hasAttr .ENABLE = true) ∨ s.Patched s' b true brkInstr) := by
  unfold breakpointEnable at h
  split at h
  · cases h
  split at h
  · cases h
    exact ⟨rfl, Or.inl ⟨rfl, by assumption⟩⟩
  · obtain ⟨s₁, h₁, h⟩ := bind_ok h
    cases h
    obtain ⟨w, rfl⟩ := patchText_cases h₁
    refine ⟨rfl, Or.inr (patched_of_attr rfl rfl rfl ?_ ?_)⟩ <;>
      simp [Breakpoint.hasAttr_setAttr]

theorem disable_cases {mp : Mprotect} (h : s.breakpointDisable b mp = .ok (s', code)) :
    code = 0 ∧ ((s' = s ∧ (s.bkpt b).hasAttr .ENABLE = false) ∨
      ∃ p, (s.bkpt b).slotSet = some p ∧ s.Patched s' b false
        (loadInstr s.mem ((s.slots.slotSet p).slotOffset (s.bkpt b).slotIndex))) := by
  unfold breakpointDisable at h
  split at h
  · cases h
  split at h
  · split at h
    · cases h
    · rename_i p hp
      obtain ⟨s₁, h₁, h⟩ := bind_ok h
      cases h
      obtain ⟨w, rfl⟩ := patchText_cases h₁
      refine ⟨rfl, Or.inr ⟨p, hp, patched_of_attr rfl rfl rfl ?_ ?_⟩⟩ <;>
        simp [Breakpoint.hasAttr_clrAttr]
  · rename_i hoff
    cases h
    exact ⟨rfl, Or.inl ⟨rfl, Bool.not_eq_true _ ▸ hoff⟩⟩

/-- The word under a breakpoint lies in the range that `object_memory_unlock` opens. -/
def InText (s : Tracer) (b : BkptPtr) : Prop :=
  ∃ k o, (s.bkpt b).obj = some k ∧ s.objects[k]? = some o ∧
    ∀ i < 4, o.textStart ≤ s.enterAddr b + BitVec.ofNat 64 i ∧
      s.enterAddr b + BitVec.ofNat 64 i < o.textEnd

/-- The write permissions after an `mprotect` of the range of an object. -/
def permissions (s : Tracer) (ok write : Bool) (o : Object) (a : Addr) : Bool :=
  if ok = true ∧ o.textStart ≤ a ∧ a < o.textEnd then write else s.writable a

theorem mprotectText_some {k : ObjPtr} {o : Object} (ok write : Bool)
    (ho : s.objects[k]? = some o) :
    ∃ rv, s.mprotectText ok write (some k) =
      .ok ({ s with writable := s.permissions ok write o }, rv) := by
  simp only [mprotectText, ho]
  cases ok with
  | false =>
    have hsame : s.permissions false write o = s.writable := by
      funext a
      simp [permissions]
    exact ⟨-1, by rw [hsame]; rfl⟩
  | true =>
    have hrange : s.permissions true write o =
        fun a => if o.textStart ≤ a ∧ a < o.textEnd then write else s.writable a := by
      funext a
      simp [permissions]
    exact ⟨0, by rw [hrange]; rfl⟩

/-- A word that is writable between the two `mprotect` calls is written. -/
theorem patchText_open {k : ObjPtr} {o : Object} {mp : Mprotect} (hk : (s.bkpt b).obj = some k)
    (ho : s.objects[k]? = some o)
    (hopen : ∀ i < 4, s.permissions mp.unlock true o (s.enterAddr b + BitVec.ofNat 64 i) = true)
    (v : Instr) :
    s.patchText b mp v = .ok
      { s with
        mem := storeInstr s.mem (s.enterAddr b) v
        writable := { s with writable := s.permissions mp.unlock true o }.permissions mp.lock
          false o } := by
  obtain ⟨s₁, hs₁⟩ : ∃ s₁, s₁ = { s with writable := s.permissions mp.unlock true o } := ⟨_, rfl⟩
  obtain ⟨s₂, hs₂⟩ : ∃ s₂, s₂ = { s₁ with mem := storeInstr s₁.mem (s₁.enterAddr b) v } := ⟨_, rfl⟩
  obtain ⟨rv₁, hunlock⟩ := mprotectText_some mp.unlock true ho
  have hall : ((List.range 4).all fun i => s₁.writable (s₁.enterAddr b + BitVec.ofNat 64 i)) =
      true := by
    rw [List.all_eq_true]
    intro i hi
    rw [hs₁]
    exact hopen i (List.mem_range.mp hi)
  have hstore : s₁.storeText (s₁.enterAddr b) v = .ok s₂ := by
    rw [hs₂, storeText, if_pos hall]
  have hobj : (s₂.bkpt b).obj = some k ∧ s₂.objects[k]? = some o := by
    rw [hs₂, hs₁]
    exact ⟨hk, ho⟩
  obtain ⟨rv₂, hlock⟩ := mprotectText_some (s := s₂) mp.lock false hobj.2
  rw [← hs₁] at hunlock
  have hbkpt : s₁.enterAddr b = s.enterAddr b := by
    rw [hs₁]
    rfl
  simp only [patchText, objectMemoryUnlock, objectMemoryLock, hk, hunlock, ok_bind, ← hbkpt, hstore,
    hobj.1, hlock]
  rw [hs₂, hs₁]
  rfl

/-- A word that was written was writable between the two `mprotect` calls. -/
theorem patchText_opens {k : ObjPtr} {o : Object} {mp : Mprotect} {v : Instr}
    (hk : (s.bkpt b).obj = some k) (ho : s.objects[k]? = some o) (h : s.patchText b mp v = .ok s') :
    ∀ i < 4, s.permissions mp.unlock true o (s.enterAddr b + BitVec.ofNat 64 i) = true := by
  obtain ⟨⟨s₁, c⟩, hunlock, h⟩ := bind_ok h
  obtain ⟨s₂, hstore, _⟩ := bind_ok h
  obtain ⟨rv, hrun⟩ := mprotectText_some mp.unlock true ho
  rw [objectMemoryUnlock, hk, hrun] at hunlock
  cases hunlock
  unfold storeText at hstore
  split at hstore
  · rename_i hall
    intro i hi
    exact List.all_eq_true.mp hall i (List.mem_range.mpr hi)
  · cases hstore

theorem patchText_returns (h : s.InText b) (v : Instr) :
    ∃ s', s.patchText b .succeeds v = .ok s' := by
  obtain ⟨k, o, hk, ho, hr⟩ := h
  refine ⟨_, patchText_open hk ho ?_ v⟩
  intro i hi
  exact if_pos ⟨rfl, hr i hi⟩

theorem inText_modifyBkpt {f : Breakpoint → Breakpoint} (hf : (f (s.bkpt b)).obj = (s.bkpt b).obj)
    (h : s.InText b) : (s.modifyBkpt b f).InText b := by
  obtain ⟨k, o, hk, ho, hr⟩ := h
  exact ⟨k, o, by simp [modifyBkpt_bkpt, hf, hk], ho, hr⟩

theorem enable_returns (hl : s.index.emptyNode ⟨b, .enter⟩ = false) (h : s.InText b) :
    ∃ s', s.breakpointEnable b .succeeds = .ok (s', 0) := by
  obtain ⟨s₁, h₁⟩ := patchText_returns (inText_modifyBkpt (f := (·.setAttr .ENABLE)) rfl h) brkInstr
  rw [breakpointEnable, hl, if_neg Bool.false_ne_true]
  split
  · exact ⟨s, rfl⟩
  · exact ⟨s₁, by rw [h₁]; rfl⟩

theorem disable_returns {p : SlotSetPtr} (hl : s.index.emptyNode ⟨b, .enter⟩ = false)
    (hp : (s.bkpt b).slotSet = some p) (h : s.InText b) :
    ∃ s', s.breakpointDisable b .succeeds = .ok (s', 0) := by
  obtain ⟨s₁, h₁⟩ := patchText_returns (inText_modifyBkpt (f := (·.clrAttr .ENABLE)) rfl h)
    (loadInstr s.mem ((s.slots.slotSet p).slotOffset (s.bkpt b).slotIndex))
  rw [breakpointDisable, hl, if_neg Bool.false_ne_true, hp]
  split
  · exact ⟨s₁, (congrArg (· >>= _) h₁).trans rfl⟩
  · exact ⟨s, rfl⟩

end Tracer

end Atrace.Signal

import Atrace.Signal.Slotted
import Atrace.Signal.ThreadMap

/-! The trap handler of `hook_main.c`, and the slots it sends threads to. -/
namespace Atrace.Signal

open Atrace.Lib

namespace Tracer

variable (s : Tracer) (b : BkptPtr)

/-- `BP_GET_SLOT_OFFSET(bp->slot_set, bp->slot_index)`, which follows `slot_set`. -/
def slotAddr : Except Fault Addr :=
  match (s.bkpt b).slotSet with
  | none => .error .badAccess
  | some p => .ok ((s.slots.slotSet p).slotOffset (s.bkpt b).slotIndex)

/-- The two branches of `sigtrap_handler`: the new `singlestep_bp`, and where the thread resumes. -/
def dispatch (singlestepBp : Option BkptPtr) : Except Fault (Option BkptPtr × Addr) :=
  match singlestepBp with
  | some x => if x = b then .ok (none, s.enterAddr b + 4) else .error .assertion
  | none => do
    let pc ← s.slotAddr b
    pure (some b, pc)

/-- `sigtrap_handler` in the thread `threadId`, trapped at `pc`; `fresh` is what `calloc` will
return. -/
def sigtrapHandler (m : ThreadMap) (threadId : Nat) (fresh : ThreadPtr) (pc : Addr) :
    Except Fault (ThreadMap × Addr) := do
  let (m, thread) ← m.findOrAdd threadId fresh
  match s.breakpointFind pc with
  | none => .error .assertion
  | some bp => do
    let (singlestepBp, pc) ← s.dispatch bp (m.thread thread).singlestepBp
    pure (m.setSinglestep thread singlestepBp, pc)

/-- The two words of the slot of an added breakpoint. -/
def InSlot (a : Addr) : Prop := ∃ p i, s.Held b p i ∧ (s.slots.slotSet p).IsWord i a

/-- An address in no slot of an added breakpoint. -/
def Outside (a : Addr) : Prop := ∀ b, s.Added b → ¬ s.InSlot b a

variable {s b} {s' : Tracer} {c : BkptPtr} {a pc : Addr} {text : Addr → Prop} {p : SlotSetPtr}
  {i tid : Nat} {m m' : ThreadMap} {fresh : ThreadPtr} {singlestepBp : Option BkptPtr}

theorem Held.slotAddr (h : s.Held b p i) :
    s.slotAddr b = .ok ((s.slots.slotSet p).slotOffset i) := by
  simp [Tracer.slotAddr, h.slotSet, h.slotIndex]

section Dispatch

theorem dispatch_return (s : Tracer) (b : BkptPtr) :
    s.dispatch b (some b) = .ok (none, s.enterAddr b + 4) := by simp [dispatch]

theorem dispatch_other (hc : c ≠ b) : s.dispatch b (some c) = .error .assertion := by
  simp [dispatch, hc]

theorem dispatch_enter (h : s.Held b p i) :
    s.dispatch b none = .ok (some b, (s.slots.slotSet p).slotOffset i) := by
  simp [dispatch, h.slotAddr, pure, Except.pure]

/-- A dispatch that does not fail. -/
theorem dispatch_cases {r : Option BkptPtr × Addr} (h : s.dispatch b singlestepBp = .ok r) :
    (singlestepBp = none ∧ ∃ a, s.slotAddr b = .ok a ∧ r = (some b, a)) ∨
      (singlestepBp = some b ∧ r = (none, s.enterAddr b + 4)) := by
  cases singlestepBp with
  | none =>
    obtain ⟨a, ha, h⟩ := bind_ok h
    cases h
    exact Or.inl ⟨rfl, a, ha, rfl⟩
  | some x =>
    by_cases hx : x = b
    · subst x
      rw [dispatch_return] at h
      cases h
      exact Or.inr ⟨rfl, rfl⟩
    · rw [dispatch_other hx] at h
      cases h

end Dispatch

section Slots

theorem slotAddr_add_four (hi : SlotInv text s) (hb : s.Added b) (h : s.slotAddr b = .ok a) :
    a + 4 = s.returnAddr b := by
  obtain ⟨p, i, hp⟩ := hi.held b hb
  rw [hp.returnAddr, Except.ok.inj (h.symm.trans hp.slotAddr)]

theorem inSlot_slotAddr (hi : SlotInv text s) (hb : s.Added b) (h : s.slotAddr b = .ok a) :
    s.InSlot b a := by
  obtain ⟨p, i, hp⟩ := hi.held b hb
  rw [hp.slotAddr] at h
  cases h
  exact ⟨p, i, hp, Or.inl rfl⟩

theorem inSlot_returnAddr (hi : SlotInv text s) (hb : s.Added b) : s.InSlot b (s.returnAddr b) := by
  obtain ⟨p, i, hp⟩ := hi.held b hb
  exact ⟨p, i, hp, Or.inr hp.returnAddr⟩

theorem inSlot_inj (hi : SlotInv text s) (hb : s.Added b) (hc : s.Added c) (h : s.InSlot b a)
    (h' : s.InSlot c a) : b = c := by
  obtain ⟨p, i, hp, hw⟩ := h
  obtain ⟨q, j, hq, hw'⟩ := h'
  exact hi.isWord_inj hb hc hp hq hw hw'

/-- The word after the displaced one is in the same slot. -/
theorem inSlot_add_four (hi : SlotInv text s) (hb : s.Added b) (h : s.slotAddr b = .ok a)
    (hc : s.Added c) (hin : s.InSlot c a) : s.InSlot c (a + 4) := by
  obtain rfl := inSlot_inj hi hb hc (inSlot_slotAddr hi hb h) hin
  rw [slotAddr_add_four hi hb h]
  exact inSlot_returnAddr hi hb

/-- No text is in a slot. -/
theorem outside_text (hi : SlotInv text s) (ha : text a) : s.Outside a := by
  rintro c _ ⟨p, i, hp, hw⟩
  obtain ⟨h₀, h₄⟩ := hi.layout.text_ne hp.listed hp.lt ha
  exact hw.elim h₀ h₄

theorem outside_enterAddr (hi : SlotInv text s) (hb : s.Added b) : s.Outside (s.enterAddr b) :=
  outside_text hi (hi.text b hb)

theorem added_of_breakpointFind (hi : SlotInv text s) (h : s.breakpointFind a = some b) :
    s.Added b := by
  obtain ⟨⟨c, k⟩, he, rfl⟩ := Option.map_eq_some_iff.mp h
  exact (hi.added_of_find he).1

/-- The only entry in a slot is the return entry of the breakpoint that holds it. -/
theorem find_inSlot (hi : SlotInv text s) (hb : s.Added b) (h : s.InSlot b a)
    (hf : s.breakpointFind a = some c) : c = b ∧ a = s.returnAddr b := by
  obtain ⟨⟨c, k⟩, he, rfl⟩ := Option.map_eq_some_iff.mp hf
  obtain ⟨hc, haddr⟩ := hi.added_of_find he
  cases k with
  | enter =>
    have haddr : s.enterAddr c = a := haddr
    exact (outside_enterAddr hi hc b hb (haddr.symm ▸ h)).elim
  | ret =>
    have haddr : s.returnAddr c = a := haddr
    obtain rfl := inSlot_inj hi hc hb (inSlot_returnAddr hi hc) (haddr.symm ▸ h)
    exact ⟨rfl, haddr.symm⟩

theorem find_outside (hi : SlotInv text s) (h : s.Outside a) (hf : s.breakpointFind a = some b) :
    s.Added b ∧ a = s.enterAddr b := by
  obtain ⟨⟨c, k⟩, he, rfl⟩ := Option.map_eq_some_iff.mp hf
  obtain ⟨hc, haddr⟩ := hi.added_of_find he
  cases k with
  | enter => exact ⟨hc, haddr.symm⟩
  | ret =>
    have haddr : s.returnAddr c = a := haddr
    exact (h c hc (haddr ▸ inSlot_returnAddr hi hc)).elim

end Slots

section Handler

/-- What the handler leaves behind: one field of one thread. -/
structure Handled (m m' : ThreadMap) (tid : Nat) (singlestepBp : Option BkptPtr) : Prop where
  linked : m'.Linked
  singlestep : ∀ u, m'.singlestep u = if u = tid then singlestepBp else m.singlestep u
  keeps : m.Keeps m'

theorem handled_setSinglestep {m₁ : ThreadMap} {p : ThreadPtr} (hl : m₁.Linked)
    (hf : m₁.threadMapFind tid = some p) (hsame : ∀ u, m₁.singlestep u = m.singlestep u)
    (hkeeps : m.Keeps m₁) :
    Handled m (m₁.setSinglestep p singlestepBp) tid singlestepBp := by
  refine ⟨ThreadMap.setSinglestep_linked hl, ?_, ?_⟩
  · intro u
    rw [ThreadMap.setSinglestep_singlestep hf, hsame]
  · intro u q hq
    exact ThreadMap.keeps_setSinglestep u q (hkeeps u q hq)

/-- The handler is its dispatch on the field that the thread finds. -/
theorem sigtrapHandler_eq (s : Tracer) (tid : Nat) (pc : Addr) (hl : m.Linked)
    (hn : fresh ∉ m.allocated) :
    ∃ (m₁ : ThreadMap) (p : ThreadPtr), m₁.Linked ∧ m₁.threadMapFind tid = some p ∧
      (∀ u, m₁.singlestep u = m.singlestep u) ∧ m.Keeps m₁ ∧
      s.sigtrapHandler m tid fresh pc = match s.breakpointFind pc with
        | none => .error .assertion
        | some bp => s.dispatch bp (m.singlestep tid) >>= fun r =>
            .ok (m₁.setSinglestep p r.1, r.2) := by
  obtain ⟨m₁, p, hrun, hl₁, hf, hsame, hkeeps⟩ := ThreadMap.findOrAdd_returns tid hl hn
  refine ⟨m₁, p, hl₁, hf, hsame, hkeeps, ?_⟩
  rw [← hsame tid, ThreadMap.singlestep_eq hf]
  simp only [sigtrapHandler, hrun, ok_bind]
  rfl

variable (tid) in
theorem sigtrapHandler_returns (hl : m.Linked) (hn : fresh ∉ m.allocated)
    (hf : s.breakpointFind pc = some b)
    (hd : s.dispatch b (m.singlestep tid) = .ok (singlestepBp, a)) :
    ∃ m', s.sigtrapHandler m tid fresh pc = .ok (m', a) ∧ Handled m m' tid singlestepBp := by
  obtain ⟨m₁, p, hl₁, hfind, hsame, hkeeps, hrun⟩ := s.sigtrapHandler_eq tid pc hl hn
  refine ⟨m₁.setSinglestep p singlestepBp, ?_, handled_setSinglestep hl₁ hfind hsame hkeeps⟩
  rw [hrun, hf]
  simp only [hd, ok_bind]

theorem sigtrapHandler_fails {f : Fault} (hl : m.Linked) (hn : fresh ∉ m.allocated)
    (hf : s.breakpointFind pc = some b) (hd : s.dispatch b (m.singlestep tid) = .error f) :
    s.sigtrapHandler m tid fresh pc = .error f := by
  obtain ⟨_, _, _, _, _, _, hrun⟩ := s.sigtrapHandler_eq tid pc hl hn
  rw [hrun, hf]
  simp only [hd, error_bind]

/-- A handler that returns has found a breakpoint and dispatched on the field. -/
theorem sigtrapHandler_cases (hl : m.Linked) (hn : fresh ∉ m.allocated)
    (h : s.sigtrapHandler m tid fresh pc = .ok (m', a)) :
    ∃ b singlestepBp, s.breakpointFind pc = some b ∧
      s.dispatch b (m.singlestep tid) = .ok (singlestepBp, a) ∧ Handled m m' tid singlestepBp := by
  obtain ⟨m₁, p, hl₁, hfind, hsame, hkeeps, hrun⟩ := s.sigtrapHandler_eq tid pc hl hn
  rw [hrun] at h
  cases hf : s.breakpointFind pc with
  | none =>
    rw [hf] at h
    cases h
  | some b =>
    rw [hf] at h
    obtain ⟨⟨singlestepBp, a'⟩, hd, h⟩ := bind_ok h
    cases h
    exact ⟨b, singlestepBp, rfl, hd, handled_setSinglestep hl₁ hfind hsame hkeeps⟩

end Handler

end Tracer

end Atrace.Signal

import Atrace.Signal.PatchReport
import Atrace.Signal.Stepping
import Mathlib.Data.Fintype.EquivFin

/-! Operating one breakpoint: calls that enable and disable it, and threads that step over it. -/
namespace Atrace.Signal

open Atrace.Lib Tracer

variable {ι σ : Type*}

/-- The calls on a breakpoint, and what the threads that come to it do there. -/
inductive OperateEvent (ι : Type*) where
  | enable
  | disable
  | arrive (t : ι)
  | exec (t : ι)
  | trap (t : ι)

/-- The tracer with the process that it traces. -/
structure Operated (ι σ : Type*) where
  tracer : Tracer
  machine : Machine ι σ

namespace Operated

variable (x : Operated ι σ) (tid : ι → Nat) (b : BkptPtr) (t : ι)

/-- The word that the thread is about to run. -/
def word : Instr := loadInstr x.tracer.mem (x.machine.pc t)

/-- The field that the handler of the thread reads. -/
def singlestep : Option BkptPtr := x.machine.threads.singlestep (tid t)

/-- The thread is in the slot of `b`, in the single step of `b`. -/
def InStep : Prop :=
  x.singlestep tid t = some b ∧ ∃ a, x.tracer.slotAddr b = .ok a ∧
    (x.machine.pc t = a ∨ x.machine.pc t = a + 4)

/-- The thread is at `b` or in its single step. -/
def AtBkpt : Prop := x.machine.pc t = x.tracer.enterAddr b ∨ x.InStep tid b t

end Operated

/-- The address in the program that `a` stands for, in a thread whose field is `ss`. -/
def Tracer.programAddr (s : Tracer) (b : BkptPtr) (ss : Option BkptPtr) (a : Addr) : Addr :=
  match s.slotAddr b with
  | .error _ => a
  | .ok slot =>
    if ss = some b ∧ a = slot then s.enterAddr b
    else if ss = some b ∧ a = slot + 4 then s.enterAddr b + 4
    else a

/-- Calls that return, and steps of the threads at `b`. A thread that is not in the single step of
`b` may come to `b` with any data. -/
inductive OperateStep [DecidableEq ι] (b : BkptPtr) (isa : Isa ι σ) (tid : ι → Nat) :
    Operated ι σ → OperateEvent ι → Operated ι σ → Prop where
  | enable {s s' : Tracer} {m : Machine ι σ} {code : Int}
      (h : s.breakpointEnable b .succeeds = .ok (s', code)) :
      OperateStep b isa tid ⟨s, m⟩ .enable ⟨s', m⟩
  | disable {s s' : Tracer} {m : Machine ι σ} {code : Int}
      (h : s.breakpointDisable b .succeeds = .ok (s', code)) :
      OperateStep b isa tid ⟨s, m⟩ .disable ⟨s', m⟩
  | arrive {s : Tracer} {m : Machine ι σ} {t : ι} {data : σ}
      (hout : ¬ Operated.InStep ⟨s, m⟩ tid b t) :
      OperateStep b isa tid ⟨s, m⟩ (.arrive t) ⟨s, { m.setPc t (s.enterAddr b) with data := data }⟩
  | exec {s : Tracer} {m m' : Machine ι σ} {t : ι} (hat : Operated.AtBkpt ⟨s, m⟩ tid b t)
      (h : MachineStep s isa tid m (.exec t) m') :
      OperateStep b isa tid ⟨s, m⟩ (.exec t) ⟨s, m'⟩
  | trap {s : Tracer} {m m' : Machine ι σ} {t : ι} (hat : Operated.AtBkpt ⟨s, m⟩ tid b t)
      (h : MachineStep s isa tid m (.trap t) m') :
      OperateStep b isa tid ⟨s, m⟩ (.trap t) ⟨s, m'⟩

/-- What a call or a thread at `b` finds, where `v` is the original instruction. A trap leaves the
thread where it is in the program, and at an instruction that runs if the one of `b` is still to
run; an instruction that runs there is the one of `b`, with its effect. -/
structure Serves (b : BkptPtr) (isa : Isa ι σ) (tid : ι → Nat) (v : Instr) (x : Operated ι σ) :
    Prop where
  enable : ∃ s', x.tracer.breakpointEnable b .succeeds = .ok (s', 0)
  disable : ∃ s', x.tracer.breakpointDisable b .succeeds = .ok (s', 0) ∧
    loadInstr s'.mem (s'.enterAddr b) = v
  trap : ∀ t fresh, x.AtBkpt tid b t → x.word t = brkInstr → fresh ∉ x.machine.threads.allocated →
    ∃ threads a, x.tracer.sigtrapHandler x.machine.threads (tid t) fresh (x.machine.pc t) =
        .ok (threads, a) ∧
      x.tracer.programAddr b (threads.singlestep (tid t)) a =
        x.tracer.programAddr b (x.singlestep tid t) (x.machine.pc t) ∧
      (x.tracer.programAddr b (threads.singlestep (tid t)) a = x.tracer.enterAddr b →
        loadInstr x.tracer.mem a ≠ brkInstr)
  exec : ∀ t data a, x.AtBkpt tid b t → x.word t ≠ brkInstr →
    isa t (x.word t) (x.machine.pc t) x.machine.data = (data, a) →
    x.tracer.programAddr b (x.singlestep tid t) (x.machine.pc t) = x.tracer.enterAddr b ∧
      isa t v (x.tracer.enterAddr b) x.machine.data =
        (data, x.tracer.programAddr b (x.singlestep tid t) a)

/-- So it is after every sequence of calls and steps. -/
def Operable [DecidableEq ι] (b : BkptPtr) (isa : Isa ι σ) (tid : ι → Nat) (v : Instr)
    (x : Operated ι σ) : Prop :=
  ∀ es y, Run (OperateStep b isa tid) x es y → Serves b isa tid v y

/-- An instruction with the same effect at `slot` as at `a`, that continues after itself or at
itself in both places. -/
def Relocates (isa : Isa ι σ) (v : Instr) (a slot : Addr) : Prop :=
  ∀ t data, v ≠ brkInstr ∧ ∃ data',
    (isa t v slot data = (data', slot + 4) ∧ isa t v a data = (data', a + 4)) ∨
      (isa t v slot data = (data', slot) ∧ isa t v a data = (data', a))

namespace Tracer

/-- A breakpoint that `breakpoint_new` returned, before its `breakpoint_add`; the slots are memory
of their own. -/
structure Addable (s : Tracer) (b : BkptPtr) (news : List NewSlots) : Prop
    extends s.NotAdded b where
  wellFormed : s.index.WellFormed
  disabled : (s.bkpt b).hasAttr .ENABLE = false
  slotSet : (s.bkpt b).slotSet = none
  word : (s.enterAddr b).toNat + 4 ≤ 2 ^ 64
  layout : Layout (· = s.enterAddr b) s.slots
  fits : ∀ new ∈ news, new.Fits (· = s.enterAddr b) s.slots

/-- `mprotect` of the object at `b` opens the word of `b`, as far as it is closed. -/
def Patchable (s : Tracer) (b : BkptPtr) : Prop :=
  ∀ k o, s.objectGetByAddress (s.enterAddr b) = some k → s.objects[k]? = some o →
    ∀ a, s.InWord b a → (o.textStart ≤ a ∧ a < o.textEnd) ∨ s.writable a = true

/-- A slot-backed breakpoint on a word that can be patched, with an instruction that runs in the
slot it is to get as it does at its address. -/
structure Supports (s : Tracer) (b : BkptPtr) (news : List NewSlots) (isa : Isa ι σ) : Prop where
  slot : (s.bkpt b).hasAttr .NO_SLOT = false
  patchable : s.Patchable b
  relocates : ∀ slot, nextSlot s.slots news = some slot →
    Relocates isa (loadInstr s.mem (s.enterAddr b)) (s.enterAddr b) slot

section Ready

variable {rb : RbLib BpEntry} {s s' s₀ : Tracer} {b : BkptPtr} {news : List NewSlots} {o : ObjPtr}
  {p : SlotSetPtr} {i : Nat} {slot : Addr} {d : Patching}

/-- What an add that puts the copy at `slot` and the calls after it leave behind. -/
structure Ready (s₀ s : Tracer) (b : BkptPtr) (slot : Addr) : Prop where
  placed : ∃ p i, Placed s₀ s b p i ∧ (s.slots.slotSet p).slotOffset i = slot
  wellFormed : s.index.WellFormed
  layout : Layout (· = s₀.enterAddr b) s.slots
  enterAddr : s.enterAddr b = s₀.enterAddr b
  object : ∃ k obj, (s.bkpt b).obj = some k ∧ s.objects[k]? = some obj
  text : loadInstr s.mem (s₀.enterAddr b) =
    if (s.bkpt b).hasAttr .ENABLE then brkInstr else loadInstr s₀.mem (s₀.enterAddr b)

namespace Ready

theorem linked (h : Ready s₀ s b slot) (k : EntryKind) : s.index.emptyNode ⟨b, k⟩ = false := by
  obtain ⟨p, i, hp, _⟩ := h.placed
  exact hp.linked k

theorem slotAddr (h : Ready s₀ s b slot) : s.slotAddr b = .ok slot := by
  obtain ⟨p, i, hp, rfl⟩ := h.placed
  exact hp.slotAddr

theorem slot_word (h : Ready s₀ s b slot) :
    loadInstr s.mem slot = loadInstr s₀.mem (s₀.enterAddr b) := by
  obtain ⟨p, i, hp, rfl⟩ := h.placed
  exact hp.saved

theorem return_word (h : Ready s₀ s b slot) : loadInstr s.mem (slot + 4) = brkInstr := by
  obtain ⟨p, i, hp, rfl⟩ := h.placed
  exact hp.brk

theorem enter_ne (h : Ready s₀ s b slot) : s.enterAddr b ≠ slot ∧ s.enterAddr b ≠ slot + 4 := by
  obtain ⟨p, i, hp, rfl⟩ := h.placed
  exact h.layout.text_ne hp.listed hp.lt h.enterAddr

theorem find (h : Ready s₀ s b slot) (k : EntryKind) :
    s.breakpointFind (s.index.address ⟨b, k⟩) = some b :=
  congrArg (Option.map BpEntry.bkpt) (find_linked h.wellFormed (h.linked k) rfl)

theorem find_enter (h : Ready s₀ s b slot) : s.breakpointFind (s.enterAddr b) = some b :=
  h.find .enter

theorem find_return (h : Ready s₀ s b slot) : s.breakpointFind (slot + 4) = some b := by
  obtain ⟨p, i, hp, rfl⟩ := h.placed
  rw [← hp.returnAddr]
  exact h.find .ret

end Ready

theorem ready_slotAdded (h₀ : s₀.Addable b news) (h : s₀.SlotAdded s b news o p i) :
    Ready s₀ s b ((s.slots.slotSet p).slotOffset i) ∧ (s.bkpt b).hasAttr .ENABLE = false := by
  obtain ⟨rest, halloc⟩ := h.alloc
  have ht := slotAlloc_taken h₀.layout h₀.fits halloc
  have hbkpt := (h.bkpt b).trans (if_pos rfl)
  have hoff : (s.bkpt b).hasAttr .ENABLE = false := by
    rw [hbkpt]
    exact h₀.disabled
  have htext : ∀ w, (s.slots.slotSet p).IsWord i w → WordsApart (s₀.enterAddr b) w :=
    fun w hw => (ht.layout.wordsApart_text ht.listed ht.lt hw rfl h₀.word).symm
  have hplaced : Placed s₀ s b p i := by
    refine ⟨h.held ht, ?_⟩
    rw [h.mem, loadInstr_storeInstr_apart (ht.layout.wordsApart_self ht.listed ht.lt),
      loadInstr_storeInstr]
  refine ⟨⟨⟨p, i, hplaced, rfl⟩, h.wellFormed, ht.layout, h.enterAddr b, ?_, ?_⟩, hoff⟩
  · have hlt := (List.findIdx?_eq_some_iff_getElem.mp h.found).1
    refine ⟨o, { s₀.objects[o] with breakpointChain := b :: s₀.objects[o].breakpointChain }, ?_, ?_⟩
    · rw [hbkpt]
    · rw [h.objects, List.getElem?_modify_eq, List.getElem?_eq_getElem hlt]
      rfl
  · rw [hoff]
    exact SlotInv.load_slotAdded h htext

theorem ready_patched (h₀ : s₀.Addable b news) (h : Ready s₀ s b slot)
    (hp : s.Patched s' b d.wanted
      (if d.wanted then brkInstr else loadInstr s₀.mem (s₀.enterAddr b))) : Ready s₀ s' b slot := by
  obtain ⟨p, i, hold, rfl⟩ := h.placed
  have hword : ∀ w, (s.slots.slotSet p).IsWord i w → loadInstr s'.mem w = loadInstr s.mem w := by
    intro w hw
    rw [hp.mem, h.enterAddr]
    have hap := h.layout.wordsApart_text hold.listed hold.lt hw rfl h₀.word
    exact loadInstr_storeInstr_apart hap _ _
  have hplaced : Placed s₀ s' b p i := by
    refine ⟨hold.toHeld.patched hp (hword _ (Or.inr rfl)), ?_⟩
    rw [hp.slots, hword _ (Or.inl rfl), hold.saved]
  refine ⟨⟨p, i, hplaced, ?_⟩, ?_, ?_, ?_, ?_, ?_⟩
  · rw [hp.slots]
  · rw [hp.index]
    exact h.wellFormed
  · rw [hp.slots]
    exact h.layout
  · rw [Tracer.enterAddr, hp.index]
    exact h.enterAddr
  · rw [hp.obj, hp.objects]
    exact h.object
  · rw [hp.mem, h.enterAddr, loadInstr_storeInstr, hp.enable]

theorem opens_patched {on : Bool} {v : Instr} (hp : s.Patched s' b on v)
    (hapart : ∀ a, ¬ s.InRange b a → s'.writable a = s.writable a) (ho : s.Opens b .succeeds) :
    s'.Opens b .succeeds := by
  refine ⟨rfl, ?_⟩
  intro a ha
  rw [inRange_patched hp]
  by_cases hin : s.InRange b a
  · exact Or.inl hin
  · rw [hapart a hin]
    exact ho.2 a ((inWord_patched hp).mp ha)

/-- A call on a breakpoint that is ready, whose word can be opened. -/
theorem ready_call (h₀ : s₀.Addable b news) (h : Ready s₀ s b slot) (ho : s.Opens b .succeeds)
    (d : Patching) : ∃ s', s.patchCall d b .succeeds = .ok (s', 0) ∧ Ready s₀ s' b slot ∧
      (s'.bkpt b).hasAttr .ENABLE = d.wanted ∧ s'.Opens b .succeeds := by
  by_cases hflag : (s.bkpt b).hasAttr .ENABLE = d.wanted
  · exact ⟨s, patchCall_same (h.linked .enter) hflag, h, hflag, ho⟩
  · obtain ⟨k, obj, hk, hobj⟩ := h.object
    obtain ⟨p, i, hplaced, _⟩ := h.placed
    obtain ⟨s', hcall, hp, _, hapart⟩ := patchCall_opened hplaced hk hobj hflag ho
    exact ⟨s', hcall, ready_patched h₀ h hp, hp.enable, opens_patched hp hapart ho⟩

/-- A breakpoint that was enabled has a word that can be opened. -/
theorem opens_of_enable {code : Int} (h : Ready s₀ s b slot)
    (hoff : (s.bkpt b).hasAttr .ENABLE = false)
    (hcall : s.breakpointEnable b .succeeds = .ok (s', code)) : s.Opens b .succeeds := by
  obtain ⟨k, obj, hk, hobj⟩ := h.object
  rw [breakpointEnable, h.linked, if_neg Bool.false_ne_true, hoff, if_neg Bool.false_ne_true]
    at hcall
  obtain ⟨s₁, hpatch, _⟩ := bind_ok hcall
  have hk' : ((s.modifyBkpt b (·.setAttr .ENABLE)).bkpt b).obj = some k := by
    simpa [modifyBkpt_bkpt, Breakpoint.setAttr] using hk
  have hword := patchText_opens hk' hobj hpatch
  refine ⟨rfl, ?_⟩
  rintro a ⟨j, hj, rfl⟩
  have hopen := hword j hj
  by_cases hin : s.InRange b (s.enterAddr b + BitVec.ofNat 64 j)
  · exact Or.inl hin
  · right
    exact (if_neg fun hr => hin ((inRange_iff hk hobj).mpr hr.2)).symm.trans hopen

/-- What `mprotect` opens is known before the add. -/
theorem opens_slotAdded (h : s₀.SlotAdded s b news o p i) (hw : s.writable = s₀.writable) :
    s.Opens b .succeeds ↔ s₀.Patchable b := by
  have hlt := (List.findIdx?_eq_some_iff_getElem.mp h.found).1
  have hobj : s.objects[o]? =
      some { s₀.objects[o] with breakpointChain := b :: s₀.objects[o].breakpointChain } := by
    rw [h.objects, List.getElem?_modify_eq, List.getElem?_eq_getElem hlt]
    rfl
  have hk : (s.bkpt b).obj = some o := by rw [h.bkpt, if_pos rfl]
  have hword : ∀ a, s.InWord b a ↔ s₀.InWord b a := by
    intro a
    rw [InWord, h.enterAddr]
    rfl
  constructor
  · intro hopen k obj hfound hobj₀ a ha
    cases h.found.symm.trans hfound
    cases (List.getElem?_eq_getElem hlt).symm.trans hobj₀
    rw [← hw]
    exact (hopen.2 a ((hword a).mpr ha)).imp_left (inRange_iff hk hobj).mp
  · intro hp
    refine ⟨rfl, ?_⟩
    intro a ha
    rw [inRange_iff hk hobj, hw]
    exact hp o _ h.found (List.getElem?_eq_getElem hlt) a ((hword a).mp ha)

end Ready

section ProgramAddr

variable {s : Tracer} {b : BkptPtr} {slot a : Addr} {ss : Option BkptPtr}

theorem programAddr_eq (h : s.slotAddr b = .ok slot) : s.programAddr b ss a =
    if ss = some b ∧ a = slot then s.enterAddr b
    else if ss = some b ∧ a = slot + 4 then s.enterAddr b + 4
    else a := by
  rw [programAddr, h]

theorem programAddr_none (h : s.slotAddr b = .ok slot) : s.programAddr b none a = a := by
  simp [programAddr_eq h]

theorem programAddr_slot (h : s.slotAddr b = .ok slot) :
    s.programAddr b (some b) slot = s.enterAddr b := by
  simp [programAddr_eq h]

theorem programAddr_return (h : s.slotAddr b = .ok slot) :
    s.programAddr b (some b) (slot + 4) = s.enterAddr b + 4 := by
  simp [programAddr_eq h]

theorem programAddr_out (h : s.slotAddr b = .ok slot) (hslot : a ≠ slot) (hret : a ≠ slot + 4) :
    s.programAddr b ss a = a := by
  rw [programAddr_eq h, if_neg fun he => hslot he.2, if_neg fun he => hret he.2]

theorem add_four_ne (a : Addr) : a + 4 ≠ a := by
  intro he
  have h4 := congrArg BitVec.toNat he
  have hlt := a.isLt
  rw [BitVec.toNat_add] at h4
  have hfour : (4 : Addr).toNat = 4 := rfl
  omega

end ProgramAddr

end Tracer

section Threads

variable {isa : Isa ι σ} {tid : ι → Nat} {x y : Operated ι σ} {e : OperateEvent ι} {t : ι}
  {s₀ s : Tracer} {m : Machine ι σ} {b : BkptPtr} {news : List NewSlots} {slot : Addr}
  {fresh : ThreadPtr}

/-- The word of `b` can be opened, and a thread in a single step is in the one of `b`. -/
structure OperateInv (s₀ : Tracer) (b : BkptPtr) (slot : Addr) (tid : ι → Nat)
    (x : Operated ι σ) : Prop extends s₀.Ready x.tracer b slot where
  opens : x.tracer.Opens b .succeeds
  threads : x.machine.threads.Linked
  stepping : ∀ t, x.singlestep tid t = none ∨ x.InStep tid b t

theorem inStep_iff (h : x.tracer.slotAddr b = .ok slot) : x.InStep tid b t ↔
    x.singlestep tid t = some b ∧ (x.machine.pc t = slot ∨ x.machine.pc t = slot + 4) := by
  rw [Operated.InStep, h]
  simp

/-- The first trap sends the thread into the slot. -/
theorem enter_trap (h : s₀.Ready s b slot) (hl : m.threads.Linked)
    (hn : fresh ∉ m.threads.allocated) (hss : m.threads.singlestep (tid t) = none)
    (hpc : m.pc t = s.enterAddr b) :
    ∃ threads, s.sigtrapHandler m.threads (tid t) fresh (m.pc t) = .ok (threads, slot) ∧
      Handled m.threads threads (tid t) (some b) := by
  obtain ⟨p, i, hp, rfl⟩ := h.placed
  rw [hpc]
  exact sigtrapHandler_returns (tid t) hl hn h.find_enter (hss ▸ dispatch_enter hp.toHeld)

/-- The second one sends it to the word after the one of `b`. -/
theorem return_trap (h : s₀.Ready s b slot) (hl : m.threads.Linked)
    (hn : fresh ∉ m.threads.allocated) (hss : m.threads.singlestep (tid t) = some b)
    (hpc : m.pc t = s.enterAddr b ∨ m.pc t = slot + 4) :
    ∃ threads, s.sigtrapHandler m.threads (tid t) fresh (m.pc t) =
        .ok (threads, s.enterAddr b + 4) ∧ Handled m.threads threads (tid t) none := by
  have hfind : s.breakpointFind (m.pc t) = some b := by
    rcases hpc with hpc | hpc <;> rw [hpc]
    · exact h.find_enter
    · exact h.find_return
  exact sigtrapHandler_returns (tid t) hl hn hfind (hss ▸ s.dispatch_return b)

/-- Where a thread at `b` is, with the word it is about to run. -/
theorem atBkpt_cases (hi : OperateInv s₀ b slot tid x) (h : x.AtBkpt tid b t) :
    (x.singlestep tid t = none ∧ x.machine.pc t = x.tracer.enterAddr b ∧
      (x.word t = brkInstr ∨ x.word t = loadInstr s₀.mem (s₀.enterAddr b))) ∨
    (x.singlestep tid t = some b ∧
      x.machine.pc t = slot ∧
      x.word t = loadInstr s₀.mem (s₀.enterAddr b)) ∨
    (x.singlestep tid t = some b ∧
      x.machine.pc t = slot + 4 ∧ x.word t = brkInstr) := by
  rcases hi.stepping t with hss | hin
  · left
    have hpc : x.machine.pc t = x.tracer.enterAddr b := by
      refine h.resolve_right fun hin => ?_
      rw [inStep_iff hi.slotAddr, hss] at hin
      cases hin.1
    refine ⟨hss, hpc, ?_⟩
    rw [Operated.word, hpc, hi.enterAddr, hi.text]
    split
    · exact Or.inl rfl
    · exact Or.inr rfl
  · right
    obtain ⟨hss, hpc | hpc⟩ := (inStep_iff hi.slotAddr).mp hin
    · left
      refine ⟨hss, hpc, ?_⟩
      rw [Operated.word, hpc, hi.slot_word]
    · right
      refine ⟨hss, hpc, ?_⟩
      rw [Operated.word, hpc, hi.return_word]

theorem serves_of_inv (h₀ : s₀.Addable b news) (hi : OperateInv s₀ b slot tid x)
    (hrel : Relocates isa (loadInstr s₀.mem (s₀.enterAddr b)) (s₀.enterAddr b)
      (slot)) :
    Serves b isa tid (loadInstr s₀.mem (s₀.enterAddr b)) x := by
  have hslot : loadInstr x.tracer.mem (slot) =
      loadInstr s₀.mem (s₀.enterAddr b) := hi.slot_word
  refine ⟨?_, ?_, ?_, ?_⟩
  · obtain ⟨s', hcall, _⟩ := ready_call h₀ hi.toReady hi.opens .enable
    exact ⟨s', hcall⟩
  · obtain ⟨s', hcall, hready, hoff, _⟩ := ready_call h₀ hi.toReady hi.opens .disable
    refine ⟨s', hcall, ?_⟩
    rw [hready.enterAddr, hready.text, hoff]
    rfl
  · intro t fresh hat hw hn
    have hne := (hrel t x.machine.data).1
    rcases atBkpt_cases hi hat with ⟨hss, hpc, _⟩ | ⟨_, _, hv⟩ | ⟨hss, hpc, _⟩
    · obtain ⟨threads, hrun, hh⟩ := enter_trap hi.toReady hi.threads hn hss hpc
      refine ⟨threads, _, hrun, ?_, ?_⟩
      · rw [hh.singlestep, if_pos rfl, programAddr_slot hi.slotAddr, hss,
          programAddr_none hi.slotAddr, hpc]
      · intro _
        rw [hslot]
        exact hne
    · exact absurd (hv.symm.trans hw) hne
    · obtain ⟨threads, hrun, hh⟩ := return_trap hi.toReady hi.threads hn hss (Or.inr hpc)
      have haddr : x.tracer.programAddr b (threads.singlestep (tid t)) (x.tracer.enterAddr b + 4) =
          x.tracer.enterAddr b + 4 := by
        rw [hh.singlestep, if_pos rfl, programAddr_none hi.slotAddr]
      refine ⟨threads, _, hrun, ?_, ?_⟩
      · rw [haddr, hss, hpc, programAddr_return hi.slotAddr]
      · intro he
        exact absurd (haddr.symm.trans he) (add_four_ne _)
  · intro t data a hat hw hrun
    rcases atBkpt_cases hi hat with ⟨hss, hpc, hv⟩ | ⟨hss, hpc, hv⟩ | ⟨_, _, hbrk⟩
    · rw [hss, programAddr_none hi.slotAddr, programAddr_none hi.slotAddr]
      rw [hv.resolve_left hw, hpc] at hrun
      exact ⟨hpc, hrun⟩
    · rw [hss, hpc]
      rw [hv, hpc] at hrun
      refine ⟨programAddr_slot hi.slotAddr, ?_⟩
      obtain ⟨_, data', ⟨hs, he⟩ | ⟨hs, he⟩⟩ := hrel t x.machine.data
      · cases hs.symm.trans hrun
        rw [programAddr_return hi.slotAddr, hi.enterAddr, he]
      · cases hs.symm.trans hrun
        rw [programAddr_slot hi.slotAddr, hi.enterAddr, he]
    · exact absurd hbrk hw

/-- A call on `b` leaves the threads alone. -/
theorem operateInv_call {s' : Tracer} {d : Patching} {code : Int} (h₀ : s₀.Addable b news)
    (hi : OperateInv s₀ b slot tid ⟨s, m⟩) (h : s.patchCall d b .succeeds = .ok (s', code)) :
    OperateInv s₀ b slot tid ⟨s', m⟩ := by
  obtain ⟨s₁, hcall, hready, _, hopen⟩ := ready_call h₀ hi.toReady hi.opens d
  cases hcall.symm.trans h
  refine ⟨hready, hopen, hi.threads, ?_⟩
  intro t
  have hin : Operated.InStep ⟨s, m⟩ tid b t ↔ Operated.InStep ⟨s', m⟩ tid b t :=
    (inStep_iff hi.slotAddr).trans (inStep_iff (x := ⟨s', m⟩) hready.slotAddr).symm
  exact (hi.stepping t).imp_right hin.mp

variable [DecidableEq ι]

/-- A step of a thread leaves the tracer alone, and the other threads where they are. -/
theorem operateInv_thread {m' : Machine ι σ} (hi : OperateInv s₀ b slot tid ⟨s, m⟩)
    (hl : m'.threads.Linked)
    (hself : m'.threads.singlestep (tid t) = none ∨ m'.threads.singlestep (tid t) = some b ∧
      (m'.pc t = slot ∨ m'.pc t = slot + 4))
    (hother : ∀ u, u ≠ t → m'.pc u = m.pc u ∧
      m'.threads.singlestep (tid u) = m.threads.singlestep (tid u)) :
    OperateInv s₀ b slot tid ⟨s, m'⟩ := by
  refine ⟨hi.toReady, hi.opens, hl, ?_⟩
  intro u
  by_cases hu : u = t
  · subst u
    exact hself.imp_right (inStep_iff (x := ⟨s, m'⟩) hi.slotAddr).mpr
  · obtain ⟨hpc, hss⟩ := hother u hu
    rcases hi.stepping u with hnone | hin
    · exact Or.inl (hss.trans hnone)
    · refine Or.inr ((inStep_iff (x := ⟨s, m'⟩) hi.slotAddr).mpr ?_)
      rw [inStep_iff hi.slotAddr] at hin
      rw [hpc]
      exact ⟨hss.trans hin.1, hin.2⟩

theorem operateInv_exec {m' : Machine ι σ}
    (hrel : Relocates isa (loadInstr s₀.mem (s₀.enterAddr b)) (s₀.enterAddr b) slot)
    (hi : OperateInv s₀ b slot tid ⟨s, m⟩) (hat : Operated.AtBkpt ⟨s, m⟩ tid b t)
    (h : MachineStep s isa tid m (.exec t) m') : OperateInv s₀ b slot tid ⟨s, m'⟩ := by
  cases h with
  | @exec _ data a hw hrun =>
    have hself : (m.setPc t a).pc t = a := (m.setPc_pc t t a).trans (if_pos rfl)
    have hother : ∀ u, u ≠ t → (m.setPc t a).pc u = m.pc u :=
      fun u hu => (m.setPc_pc t u a).trans (if_neg hu)
    refine operateInv_thread (t := t) hi hi.threads ?_ fun u hu => ⟨hother u hu, rfl⟩
    rcases atBkpt_cases hi hat with ⟨hss, _⟩ | ⟨hss, hpc, hv⟩ | ⟨_, _, hbrk⟩
    · exact Or.inl hss
    · refine Or.inr ⟨hss, ?_⟩
      have hv : loadInstr s.mem (m.pc t) = loadInstr s₀.mem (s₀.enterAddr b) := hv
      have hpc : m.pc t = slot := hpc
      rw [hv, hpc] at hrun
      have hnext : a = slot ∨ a = slot + 4 := by
        obtain ⟨_, data', ⟨hs, _⟩ | ⟨hs, _⟩⟩ := hrel t m.data
        · exact Or.inr (Prod.mk.inj (hrun.symm.trans hs)).2
        · exact Or.inl (Prod.mk.inj (hrun.symm.trans hs)).2
      exact hself.symm ▸ hnext
    · exact absurd hbrk hw

theorem operateInv_trap {m' : Machine ι σ} (htid : Function.Injective tid)
    (hrel : Relocates isa (loadInstr s₀.mem (s₀.enterAddr b)) (s₀.enterAddr b) slot)
    (hi : OperateInv s₀ b slot tid ⟨s, m⟩) (hat : Operated.AtBkpt ⟨s, m⟩ tid b t)
    (h : MachineStep s isa tid m (.trap t) m') : OperateInv s₀ b slot tid ⟨s, m'⟩ := by
  cases h with
  | @trap _ fresh threads a hw hn hrun =>
    have hself : (m.setPc t a).pc t = a := (m.setPc_pc t t a).trans (if_pos rfl)
    have hother : ∀ {ss : Option BkptPtr}, Handled m.threads threads (tid t) ss → ∀ u, u ≠ t →
        (m.setPc t a).pc u = m.pc u ∧
          threads.singlestep (tid u) = m.threads.singlestep (tid u) := by
      intro ss hh u hu
      refine ⟨(m.setPc_pc t u a).trans (if_neg hu), ?_⟩
      exact (hh.singlestep (tid u)).trans (if_neg fun he => hu (htid he))
    rcases atBkpt_cases hi hat with ⟨hss, hpc, _⟩ | ⟨_, _, hv⟩ | ⟨hss, hpc, _⟩
    · obtain ⟨threads', hrun', hh⟩ := enter_trap hi.toReady hi.threads hn hss hpc
      cases hrun'.symm.trans hrun
      have hfield := (hh.singlestep (tid t)).trans (if_pos rfl)
      exact operateInv_thread (t := t) hi hh.linked (Or.inr ⟨hfield, Or.inl hself⟩) (hother hh)
    · exact absurd (hv.symm.trans hw) (hrel t m.data).1
    · obtain ⟨threads', hrun', hh⟩ := return_trap hi.toReady hi.threads hn hss (Or.inr hpc)
      cases hrun'.symm.trans hrun
      have hfield := (hh.singlestep (tid t)).trans (if_pos rfl)
      exact operateInv_thread (t := t) hi hh.linked (Or.inl hfield) (hother hh)

theorem operateInv_step (h₀ : s₀.Addable b news) (htid : Function.Injective tid)
    (hrel : Relocates isa (loadInstr s₀.mem (s₀.enterAddr b)) (s₀.enterAddr b) slot)
    (h : OperateStep b isa tid x e y) (hi : OperateInv s₀ b slot tid x) :
    OperateInv s₀ b slot tid y := by
  cases h with
  | enable h => exact operateInv_call (d := .enable) h₀ hi h
  | disable h => exact operateInv_call (d := .disable) h₀ hi h
  | @arrive s m t data hout =>
    have hidle := (hi.stepping t).resolve_right hout
    refine operateInv_thread (t := t) hi hi.threads (Or.inl hidle) ?_
    intro u hu
    exact ⟨(m.setPc_pc t u _).trans (if_neg hu), rfl⟩
  | exec hat h => exact operateInv_exec hrel hi hat h
  | trap hat h => exact operateInv_trap htid hrel hi hat h

section Necessary

variable {v : Instr} {a : Addr} {data : σ}

theorem Operable.step (h : Operable b isa tid v x) (hs : OperateStep b isa tid x e y) :
    Operable b isa tid v y := fun es z hz => h (e :: es) z (.stepL hs hz)

theorem Operable.serves (h : Operable b isa tid v x) : Serves b isa tid v x := h [] x .refl

/-- A thread comes to the enabled breakpoint. -/
theorem exists_arrive (h : s₀.Ready s b slot) (hon : (s.bkpt b).hasAttr .ENABLE = true)
    (hout : ¬ Operated.InStep ⟨s, m⟩ tid b t) (data : σ) : ∃ m' : Machine ι σ,
      OperateStep b isa tid ⟨s, m⟩ (.arrive t) ⟨s, m'⟩ ∧ m'.pc t = s.enterAddr b ∧
      m'.threads = m.threads ∧ m'.data = data ∧ Operated.word ⟨s, m'⟩ t = brkInstr ∧
      ∃ fresh, fresh ∉ m'.threads.allocated := by
  have hpc : (m.setPc t (s.enterAddr b)).pc t = s.enterAddr b :=
    (m.setPc_pc t t _).trans (if_pos rfl)
  have hword : loadInstr s.mem ((m.setPc t (s.enterAddr b)).pc t) = brkInstr := by
    rw [hpc, h.enterAddr, h.text, hon]
    rfl
  obtain ⟨fresh, hn⟩ := Infinite.exists_notMem_finset m.threads.allocated.toFinset
  rw [List.mem_toFinset] at hn
  exact ⟨{ m.setPc t (s.enterAddr b) with data := data }, .arrive hout, hpc, rfl, rfl, hword, fresh,
    hn⟩

/-- A thread that left the slot with its single step unfinished is sent past the breakpoint the
next time, without running its instruction. -/
theorem not_operable_unfinished (h : s₀.Ready s b slot) (hl : m.threads.Linked)
    (hon : (s.bkpt b).hasAttr .ENABLE = true) (hss : m.threads.singlestep (tid t) = some b)
    (hslot : m.pc t ≠ slot) (hret : m.pc t ≠ slot + 4) : ¬ Operable b isa tid v ⟨s, m⟩ := by
  intro hop
  have hout : ¬ Operated.InStep ⟨s, m⟩ tid b t := by
    rw [inStep_iff (x := ⟨s, m⟩) h.slotAddr]
    exact fun hin => hin.2.elim hslot hret
  obtain ⟨m₁, hstep, hpc, hthreads, _, hword, fresh, hn⟩ := exists_arrive h hon hout m.data
  have hop₁ := hop.step hstep
  have hss₁ : m₁.threads.singlestep (tid t) = some b := hthreads.symm ▸ hss
  obtain ⟨threads, hrun, hh⟩ := return_trap h (hthreads.symm ▸ hl) hn hss₁ (Or.inl hpc)
  obtain ⟨threads', a, hrun', haddr, _⟩ := hop₁.serves.trap t fresh (Or.inl hpc) hword hn
  cases hrun.symm.trans hrun'
  rw [hh.singlestep, if_pos rfl, programAddr_none h.slotAddr, Operated.singlestep, hss₁, hpc,
    programAddr_out h.slotAddr h.enter_ne.1 h.enter_ne.2] at haddr
  exact add_four_ne _ haddr

/-- A thread in the slot of a breakpoint that can be operated. -/
theorem relocates_of_slot (h : s₀.Ready s b slot) (hl : m.threads.Linked)
    (hon : (s.bkpt b).hasAttr .ENABLE = true) (hss : m.threads.singlestep (tid t) = some b)
    (hpc : m.pc t = slot) (hv : v = loadInstr s₀.mem (s₀.enterAddr b)) (hne : v ≠ brkInstr)
    (hop : Operable b isa tid v ⟨s, m⟩) : ∃ data',
      (isa t v slot m.data = (data', slot + 4) ∧
        isa t v (s₀.enterAddr b) m.data = (data', s₀.enterAddr b + 4)) ∨
      (isa t v slot m.data = (data', slot) ∧
        isa t v (s₀.enterAddr b) m.data = (data', s₀.enterAddr b)) := by
  obtain ⟨data', a, hrun⟩ : ∃ data' a, isa t v slot m.data = (data', a) := ⟨_, _, rfl⟩
  have hat : Operated.AtBkpt ⟨s, m⟩ tid b t :=
    Or.inr ((inStep_iff (x := ⟨s, m⟩) h.slotAddr).mpr ⟨hss, Or.inl hpc⟩)
  have hword : loadInstr s.mem (m.pc t) = v := by rw [hpc, h.slot_word, hv]
  have hexec : isa t (loadInstr s.mem (m.pc t)) (m.pc t) m.data = (data', a) := by
    rw [hword, hpc, hrun]
  have hbrk : loadInstr s.mem (m.pc t) ≠ brkInstr := hword.symm ▸ hne
  obtain ⟨_, heffect⟩ := hop.serves.exec t data' a hat hbrk hexec
  rw [Operated.singlestep, hss, h.enterAddr] at heffect
  by_cases hret : a = slot + 4
  · subst a
    rw [programAddr_return h.slotAddr, h.enterAddr] at heffect
    exact ⟨data', Or.inl ⟨hrun, heffect⟩⟩
  by_cases hslot : a = slot
  · subst a
    rw [programAddr_slot h.slotAddr, h.enterAddr] at heffect
    exact ⟨data', Or.inr ⟨hrun, heffect⟩⟩
  · have hstep := OperateStep.exec hat (.exec hbrk hexec)
    have hself : (m.setPc t a).pc t = a := (m.setPc_pc t t a).trans (if_pos rfl)
    refine absurd (hop.step hstep) (not_operable_unfinished (t := t) h hl hon hss ?_ ?_)
    · exact hself.symm ▸ hslot
    · exact hself.symm ▸ hret

/-- In a slot-backed breakpoint that can be operated, whatever thread comes with whatever data. -/
theorem relocates_of_operable (h₀ : s₀.Addable b news) (hi : OperateInv s₀ b slot tid ⟨s, m⟩)
    (hidle : ∀ t, m.threads.singlestep (tid t) = none)
    (hop : Operable b isa tid (loadInstr s₀.mem (s₀.enterAddr b)) ⟨s, m⟩) :
    Relocates isa (loadInstr s₀.mem (s₀.enterAddr b)) (s₀.enterAddr b) slot := by
  obtain ⟨s₁, hcall, h, hon, _⟩ := ready_call h₀ hi.toReady hi.opens .enable
  have hop₁ := hop.step (.enable hcall)
  intro t data
  have hout : ¬ Operated.InStep ⟨s₁, m⟩ tid b t := by
    rw [inStep_iff (x := ⟨s₁, m⟩) h.slotAddr, Operated.singlestep, hidle t]
    exact fun hin => nomatch hin.1
  obtain ⟨m₁, harrive, hpc, hthreads, hdata, hword, fresh, hn⟩ := exists_arrive h hon hout data
  have hop₂ := hop₁.step harrive
  obtain ⟨threads, hrun, hh⟩ := enter_trap h (hthreads.symm ▸ hi.threads) hn
    (hthreads.symm ▸ hidle t) hpc
  obtain ⟨threads', a, hrun', _, hrunnable⟩ := hop₂.serves.trap t fresh (Or.inl hpc) hword hn
  cases hrun.symm.trans hrun'
  have hss : threads.singlestep (tid t) = some b := (hh.singlestep (tid t)).trans (if_pos rfl)
  rw [hss] at hrunnable
  have hne : loadInstr s₀.mem (s₀.enterAddr b) ≠ brkInstr := by
    rw [← h.slot_word]
    exact hrunnable (programAddr_slot h.slotAddr)
  have hop₃ := hop₂.step (.trap (Or.inl hpc) (.trap hword hn hrun))
  have hself : (m₁.setPc t slot).pc t = slot := (m₁.setPc_pc t t slot).trans (if_pos rfl)
  obtain ⟨data', heffect⟩ := relocates_of_slot (t := t)
    (m := { m₁.setPc t slot with threads := threads }) h hh.linked hon hss hself rfl hne hop₃
  exact ⟨hne, data', hdata ▸ heffect⟩

end Necessary

section Main

variable {rb : RbLib BpEntry}

/-- A breakpoint without a slot can be enabled, but disabling it follows the `NULL` pointer. -/
theorem noSlot_disable (h₀ : s₀.Addable b news) (hno : (s₀.bkpt b).hasAttr .NO_SLOT = true)
    (hadd : s₀.breakpointAdd rb b news = .ok (s, 0)) {s₁ : Tracer} {code : Int}
    (henable : s.breakpointEnable b .succeeds = .ok (s₁, code)) :
    s₁.breakpointDisable b .succeeds = .error .badAccess := by
  obtain ⟨o, hbkpt⟩ := add_noSlot h₀.wellFormed h₀.toNotAdded hno hadd
  have hset : (s.bkpt b).slotSet = none := by
    rw [hbkpt]
    exact h₀.slotSet
  have hoff : (s.bkpt b).hasAttr .ENABLE = false := by
    rw [hbkpt]
    exact h₀.disabled
  have hlinked : s.index.emptyNode ⟨b, .enter⟩ = false := by
    rw [← Bool.not_eq_true]
    intro hempty
    rw [breakpointEnable, if_pos hempty] at henable
    cases henable
  rcases (enable_cases henable).2 with ⟨_, hon⟩ | hp
  · rw [hoff] at hon
    cases hon
  · simp [breakpointDisable, hp.index, hlinked, hp.enable, hp.slotSet, hset]

theorem not_operable_noSlot (h₀ : s₀.Addable b news)
    (hno : (s₀.bkpt b).hasAttr .NO_SLOT = true)
    (hadd : s₀.breakpointAdd rb b news = .ok (s, 0)) {v : Instr} :
    ¬ Operable b isa tid v ⟨s, m⟩ := by
  intro hop
  obtain ⟨s₁, henable⟩ := hop.serves.enable
  obtain ⟨s₂, hdisable, _⟩ := (hop.step (.enable henable)).serves.disable
  cases (noSlot_disable h₀ hno hadd henable).symm.trans hdisable

/-- A slot-backed breakpoint on an instruction that falls through. -/
theorem addable_slotLibraries :
    (slotLibraries fun _ => 0).Addable 1 [⟨0, 0x30000⟩] := by
  have h₀ := patchInitial_slotLibraries fun _ => 0
  refine ⟨h₀.notAdded 1, h₀.wellFormed, h₀.enable 1, rfl, by decide, .empty _, ?_⟩
  apply fits_first
  rintro a rfl
  decide

theorem supports_slotLibraries :
    (slotLibraries fun _ => 0).Supports 1 [⟨0, 0x30000⟩] plainIsa := by
  refine ⟨(patchInitial_slotLibraries _).noSlot 1, ?_, ?_⟩
  · intro k o hfound hobj a ha
    obtain rfl : 0 = k := Option.some.inj ((twoLibraries_first (Or.inl rfl)).2.1.symm.trans hfound)
    cases hobj
    obtain ⟨j, hj, rfl⟩ := ha
    exact Or.inl ((twoLibraries_first (Or.inl rfl)).2.2 j hj)
  · intro slot _ t data
    exact ⟨by decide, data, Or.inl ⟨rfl, rfl⟩⟩

/-- A breakpoint that was added can be operated exactly when it has a slot, its word can be
patched and its instruction runs in the slot as it does at its address. -/
theorem operable_iff (h₀ : s₀.Addable b news) (hadd : s₀.breakpointAdd rb b news = .ok (s, 0))
    (htid : Function.Injective tid) (hl : m.threads.Linked)
    (hidle : ∀ t, m.threads.singlestep (tid t) = none) :
    Operable b isa tid (loadInstr s₀.mem (s₀.enterAddr b)) ⟨s, m⟩ ↔ s₀.Supports b news isa := by
  cases hslot : (s₀.bkpt b).hasAttr .NO_SLOT with
  | true =>
    refine iff_of_false (not_operable_noSlot h₀ hslot hadd) fun hs => ?_
    have hno := hs.slot
    rw [hslot] at hno
    cases hno
  | false =>
    obtain ⟨o, p, i, hadded, hnext⟩ := slotAdded_of_zero h₀.wellFormed h₀.toNotAdded hslot hadd
    obtain ⟨hready, hoff⟩ := ready_slotAdded h₀ hadded
    have hpatch := opens_slotAdded hadded (add_writable h₀.wellFormed h₀.toNotAdded hadd)
    constructor
    · intro hop
      obtain ⟨s₁, henable⟩ := hop.serves.enable
      have hopen := opens_of_enable hready hoff henable
      refine ⟨hslot, hpatch.mp hopen, ?_⟩
      intro slot hslot'
      cases hnext.symm.trans hslot'
      exact relocates_of_operable h₀ ⟨hready, hopen, hl, fun t => Or.inl (hidle t)⟩ hidle hop
    · intro hs es y hrun
      have hrel := hs.relocates _ hnext
      have hi : OperateInv s₀ b _ tid ⟨s, m⟩ :=
        ⟨hready, hpatch.mpr hs.patchable, hl, fun t => Or.inl (hidle t)⟩
      exact serves_of_inv h₀ (hrun.inv (fun _ _ _ => operateInv_step h₀ htid hrel) hi) hrel

theorem operable_iff_plain : ∃ s : Tracer,
    (slotLibraries fun _ => 0).breakpointAdd .unbalanced 1 [⟨0, 0x30000⟩] = .ok (s, 0) ∧
    Operable 1 plainIsa (fun _ => 1) (loadInstr (fun _ => 0) 0x10000)
      ⟨s, startedAt 0x10000 ()⟩ := by
  have hi := (SlotInv.initial (fun _ h => h.1) (patchInitial_slotLibraries fun _ => 0) :
    SlotInv (slotLibraries fun _ => 0).IsCovered _)
  have h₀ := addable_slotLibraries
  have hclash : ¬ (slotLibraries fun _ => 0).AddClashes 1 [⟨0, 0x30000⟩] :=
    hi.not_addClashes (fun hf => ⟨h₀.word, hf⟩) (fits_first _ fun a ha => lt_of_covered ha.2)
  obtain ⟨s, hadd⟩ := add_returns .unbalanced h₀.wellFormed h₀.toNotAdded (o := 0) (by decide)
    (by decide) rfl hclash (nextSlot_ne_none _ (by simp))
  exact ⟨s, hadd, (operable_iff h₀ hadd (fun _ _ _ => rfl) ThreadMap.linked_init
    fun _ => rfl).mpr supports_slotLibraries⟩

/-- The breakpoint without a slot of `twoLibraries` is added and enabled; disabling it follows the
`NULL` pointer. -/
theorem noSlot_disable_faults : ∃ s s₁ : Tracer, twoLibraries.Addable 0 [] ∧
    twoLibraries.breakpointAdd .unbalanced 0 [] = .ok (s, 0) ∧
    s.breakpointEnable 0 .succeeds = .ok (s₁, 0) ∧
    s₁.breakpointDisable 0 .succeeds = .error .badAccess ∧
    ∀ v, ¬ Operable 0 plainIsa (fun _ => 1) v ⟨s, startedAt 0x20004 ()⟩ := by
  have h₀ : twoLibraries.Addable 0 [] := by
    exact ⟨notAdded_twoLibraries 0, wellFormed_twoLibraries, by decide, rfl, by decide, .empty _,
      fun new hnew => absurd hnew List.not_mem_nil⟩
  obtain ⟨t, hins, hadd⟩ := add_absent .unbalanced [] (o := 1) (b := 0)
    wellFormed_twoLibraries rfl rfl rfl rfl
  obtain ⟨s, hs⟩ : ∃ s, s = (twoLibraries.setIndex t).linkChain 0 1 := ⟨_, rfl⟩
  rw [if_pos (by decide), ← hs] at hadd
  have hindex : s.index = t := by rw [hs]; rfl
  have hlinked : s.index.emptyNode ⟨0, .enter⟩ = false := by
    rw [hindex, hins.emptyNode]
    rfl
  have hin : s.InText 0 := by
    refine ⟨1, ⟨[], 0x20000, 0x21000, 0xA, [0]⟩, by rw [hs]; rfl, by rw [hs]; rfl, ?_⟩
    rw [Tracer.enterAddr, hindex, hins.address]
    decide
  obtain ⟨s₁, henable⟩ := enable_returns hlinked hin
  have hno : (twoLibraries.bkpt 0).hasAttr .NO_SLOT = true := by decide
  exact ⟨s, s₁, h₀, hadd, henable, noSlot_disable h₀ hno hadd henable,
    fun v => not_operable_noSlot h₀ hno hadd⟩

end Main

end Threads

end Atrace.Signal

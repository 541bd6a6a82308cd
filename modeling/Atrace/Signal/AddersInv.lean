import Atrace.Signal.Adders

/-! The invariant of the threads that add breakpoints of their own. -/
namespace Atrace.Signal

open Atrace.Lib Tracer

namespace Tracer

/-- At, within or right after a word of the code: `text_end` itself passes the range test. -/
def Touches (code : Addr → Prop) (a : Addr) : Prop :=
  ∃ w, code w ∧ w.toNat ≤ a.toNat ∧ a.toNat ≤ w.toNat + 4

/-- No breakpoint can be at the second word of a slot. -/
theorem not_touches {code : Addr → Prop} {h : SlotHeap} {p : SlotSetPtr} {i : Nat}
    (hl : Layout code h) (hp : p ∈ h.slotSets) (hlt : i < 1024) :
    ¬ Touches code ((h.slotSet p).slotOffset i + 4) := by
  rintro ⟨w, hw, hle, hge⟩
  have hapart := hl.text p hp w hw
  rw [AreaApartWord, areaSize_eq] at hapart
  rw [(hl.slotOffset_toNat hp hlt).2] at hle hge
  omega

/-- The object that a call for `b` finds, which allows breakpoints. -/
def Found (s : Tracer) (b : BkptPtr) (o : ObjPtr) : Prop :=
  s.objectGetByAddress (s.enterAddr b) = some o ∧ s.noBkpt o = false

/-- The call for `b` takes a slot. -/
def slotBacked (s : Tracer) (b : BkptPtr) : Bool := !(s.bkpt b).hasAttr .NO_SLOT

/-- What a breakpoint is linked into: the index, a slot and the chain of the object `on`. -/
structure Standing (s : Tracer) (b : BkptPtr) (enter ret slot : Bool) (on : Option ObjPtr) :
    Prop where
  enter : s.index.emptyNode ⟨b, .enter⟩ = !enter
  ret : s.index.emptyNode ⟨b, .ret⟩ = !ret
  slot : (s.bkpt b).slotSet.isSome = slot
  chain : ∀ o, s.chainCount o b = if on = some o then 1 else 0

/-- As `breakpoint_new` returns it. -/
def Fresh (s : Tracer) (b : BkptPtr) : Prop := s.Standing b false false false none

theorem Fresh.chainEmpty {s : Tracer} {b : BkptPtr} (h : s.Fresh b) : s.chainEmpty b = true :=
  chainEmpty_iff.mpr h.chain

/-- `bp_return` has the address of the second word of the slot. -/
def ReturnSet (s : Tracer) (b : BkptPtr) : Prop :=
  ∃ a, s.slotAddr b = .ok a ∧ s.returnAddr b = a + 4

/-- The call for `b` has returned 0. -/
def Won (s₀ s : Tracer) (b : BkptPtr) : Prop :=
  ∃ o, s₀.Found b o ∧ (s.bkpt b).obj = some o ∧
    s.Standing b true (s₀.slotBacked b) (s₀.slotBacked b) (some o)

/-- The call for `b` has returned -3. -/
def Lost (s₀ s : Tracer) (b : BkptPtr) : Prop :=
  s.Fresh b ∧ ∃ c, s.index.emptyNode ⟨c, .enter⟩ = false ∧ s₀.enterAddr c = s₀.enterAddr b

/-- What holds at each point of the call for `b`. -/
def CallOk (s₀ s : Tracer) (b : BkptPtr) (res : Option Int) : Stage → Prop
  | .idle => (res = none ∧ s.Fresh b) ∨ (res = some 0 ∧ Won s₀ s b) ∨ (res = some (-3) ∧ Lost s₀ s b)
  | .addLock c | .addLookup c => c = b ∧ res = none ∧ s.Fresh b
  | .addInsert c o => c = b ∧ res = none ∧ s₀.Found b o ∧ s.Fresh b
  | .addAlloc c o pc => c = b ∧ res = none ∧ s₀.Found b o ∧ s₀.slotBacked b = true ∧
      s.Standing b true false false none ∧ pc ≠ .idle
  | .addLoad c o | .addCopy c o _ | .addBrk c o => c = b ∧ res = none ∧ s₀.Found b o ∧
      s₀.slotBacked b = true ∧ s.Standing b true false true none
  | .addReturn c o => c = b ∧ res = none ∧ s₀.Found b o ∧ s₀.slotBacked b = true ∧
      s.Standing b true false true none ∧ s.ReturnSet b
  | .addChain c o => c = b ∧ res = none ∧ s₀.Found b o ∧
      s.Standing b true (s₀.slotBacked b) (s₀.slotBacked b) none
  | .addFree _ | .patchLock _ _ | .patchTest _ _ | .patchOpen _ _ | .patchLoad _
  | .patchStore _ _ | .patchClose _ => False

/-- Every slot that a breakpoint has is allocated, to this breakpoint alone. -/
structure Owned (s : Tracer) (live : List (SlotSetPtr × Nat)) : Prop where
  live : ∀ b p, (s.bkpt b).slotSet = some p → (p, (s.bkpt b).slotIndex) ∈ live
  distinct : ∀ b c p, (s.bkpt b).slotSet = some p → (s.bkpt c).slotSet = some p →
    (s.bkpt b).slotIndex = (s.bkpt c).slotIndex → b = c

end Tracer

variable {κ : Type*} {rb : RbLib BpEntry} {code : Addr → Prop} {arg : κ → BkptPtr}
  {s s' s₀ : Tracer} {b c : BkptPtr} {o : ObjPtr} {st : Stage} {t : κ} {m m' : Adders κ}
  {k k' : Control κ} {res : Option Int} {live : List (SlotSetPtr × Nat)} {a : Addr}

/-- Each thread has a breakpoint of its own, at an address where breakpoints are allowed. -/
structure Callers (s₀ : Tracer) (code : Addr → Prop) (arg : κ → BkptPtr) : Prop where
  inj : Function.Injective arg
  found : ∀ t, ∃ o, s₀.Found (arg t) o
  touches : ∀ t, Touches code (s₀.enterAddr (arg t))

/-- The invariant of the calls. -/
structure AddersInv (s₀ : Tracer) (code : Addr → Prop) (arg : κ → BkptPtr) (m : Adders κ) :
    Prop where
  later : Later s₀ m.control.tracer
  wellFormed : m.control.tracer.index.WellFormed
  layout : Layout code m.control.tracer.slots
  alloc : AllocInv m.control.alloc
  owned : m.control.tracer.Owned m.control.live
  returned : ∀ b, m.control.tracer.index.emptyNode ⟨b, .ret⟩ = false → m.control.tracer.ReturnSet b
  entered : ∀ b, m.control.tracer.index.emptyNode ⟨b, .enter⟩ = false →
    Touches code (s₀.enterAddr b) ∧ (s₀.index.emptyNode ⟨b, .enter⟩ = false ∨ ∃ t, arg t = b)
  call : ∀ t, CallOk s₀ m.control.tracer (arg t) (m.result t) (m.control.stage t)

namespace Tracer

theorem Standing.frame {enter ret slot : Bool} {on : Option ObjPtr} (ho : Others s s' c)
    (hb : b ≠ c) (h : s.Standing b enter ret slot on) : s'.Standing b enter ret slot on := by
  refine ⟨?_, ?_, ?_, ?_⟩
  · exact (ho.emptyNode b .enter hb).trans h.enter
  · exact (ho.emptyNode b .ret hb).trans h.ret
  · rw [ho.bkpt b hb]
    exact h.slot
  · exact fun o => (ho.chain b o hb).trans (h.chain o)

theorem ReturnSet.frame (ho : Others s s' c) (hb : b ≠ c)
    (hlisted : ∀ p, (s.bkpt b).slotSet = some p → p ∈ s.slots.slotSets) (h : s.ReturnSet b) :
    s'.ReturnSet b := by
  obtain ⟨a, ha, hret⟩ := h
  refine ⟨a, ?_, (ho.returnAddr b hb).trans hret⟩
  obtain ⟨p, hp, rfl⟩ := slotAddr_eq_ok_iff.mp ha
  rw [slotAddr_eq_ok_iff, ho.bkpt b hb]
  exact ⟨p, hp, (ho.kept p (hlisted p hp)).2 _⟩

/-- A step of another call takes nothing away from what holds of this one. -/
theorem CallOk.frame (ho : Others s s' c) (hb : b ≠ c)
    (hlisted : ∀ p, (s.bkpt b).slotSet = some p → p ∈ s.slots.slotSets)
    (h : CallOk s₀ s b res st) : CallOk s₀ s' b res st := by
  cases st with
  | idle =>
    rcases h with ⟨hres, hf⟩ | ⟨hres, o, hfound, hobj, hs⟩ | ⟨hres, hf, d, hd, he⟩
    · exact Or.inl ⟨hres, hf.frame ho hb⟩
    · exact Or.inr (Or.inl ⟨hres, o, hfound, (congrArg _ (ho.bkpt b hb)).trans hobj, hs.frame ho hb⟩)
    · exact Or.inr (Or.inr ⟨hres, hf.frame ho hb, d, ho.linked _ hd, he⟩)
  | addLock d => exact ⟨h.1, h.2.1, h.2.2.frame ho hb⟩
  | addLookup d => exact ⟨h.1, h.2.1, h.2.2.frame ho hb⟩
  | addInsert d o => exact ⟨h.1, h.2.1, h.2.2.1, h.2.2.2.frame ho hb⟩
  | addAlloc d o pc =>
    obtain ⟨hd, hres, hfound, hback, hs, hpc⟩ := h
    exact ⟨hd, hres, hfound, hback, hs.frame ho hb, hpc⟩
  | addLoad d o | addCopy d o v | addBrk d o =>
    obtain ⟨hd, hres, hfound, hback, hs⟩ := h
    exact ⟨hd, hres, hfound, hback, hs.frame ho hb⟩
  | addReturn d o =>
    obtain ⟨hd, hres, hfound, hback, hs, hret⟩ := h
    exact ⟨hd, hres, hfound, hback, hs.frame ho hb, hret.frame ho hb hlisted⟩
  | addChain d o =>
    obtain ⟨hd, hres, hfound, hs⟩ := h
    exact ⟨hd, hres, hfound, hs.frame ho hb⟩
  | addFree d | patchLock d on | patchTest d on | patchOpen d on | patchLoad d | patchStore d v
  | patchClose d => exact h

/-- The slots of a step that gives nothing out. -/
theorem Owned.congr (h : s.Owned live) (hset : ∀ b, (s'.bkpt b).slotSet = (s.bkpt b).slotSet)
    (hindex : ∀ b, (s'.bkpt b).slotIndex = (s.bkpt b).slotIndex) : s'.Owned live := by
  constructor
  · intro b p hb
    rw [hindex]
    exact h.live b p ((hset b).symm.trans hb)
  · intro b c p hb hc he
    rw [hindex, hindex] at he
    exact h.distinct b c p ((hset b).symm.trans hb) ((hset c).symm.trans hc) he

end Tracer

namespace AddersInv

theorem listed (hi : AddersInv s₀ code arg m) (b : BkptPtr) {p : SlotSetPtr}
    (hb : (m.control.tracer.bkpt b).slotSet = some p) :
    p ∈ m.control.tracer.slots.slotSets ∧ (m.control.tracer.bkpt b).slotIndex < 1024 :=
  hi.alloc.listed _ (hi.owned.live b p hb)

theorem callOk (hi : AddersInv s₀ code arg m) (hst : m.control.stage t = st) :
    CallOk s₀ m.control.tracer (arg t) (m.result t) st := hst ▸ hi.call t

/-- A call that is still going on has not returned. -/
theorem result_of_stage (hi : AddersInv s₀ code arg m) (hst : m.control.stage t ≠ .idle) :
    m.result t = none := by
  have hcall := hi.call t
  cases hs : m.control.stage t <;> rw [hs] at hcall
  case idle => exact (hst hs).elim
  all_goals first
    | exact hcall.2.1
    | exact hcall.elim

theorem found (hi : AddersInv s₀ code arg m) (h : s₀.Found b o) : m.control.tracer.Found b o := by
  rw [Found, hi.later.lookup, hi.later.enterAddr, hi.later.noBkpt]
  exact h

theorem slotBacked (hi : AddersInv s₀ code arg m) (b : BkptPtr) :
    m.control.tracer.slotBacked b = s₀.slotBacked b := by
  rw [Tracer.slotBacked, hi.later.noSlot]
  rfl

theorem returnAddr_not_touches (hi : AddersInv s₀ code arg m)
    (h : m.control.tracer.ReturnSet b) : ¬ Touches code (m.control.tracer.returnAddr b) := by
  obtain ⟨a, ha, hret⟩ := h
  obtain ⟨p, hp, rfl⟩ := slotAddr_eq_ok_iff.mp ha
  obtain ⟨hlisted, hlt⟩ := hi.listed b hp
  rw [hret]
  exact not_touches hi.layout hlisted hlt

/-- Two breakpoints with slots have their return entries at two addresses. -/
theorem returnAddr_inj (hi : AddersInv s₀ code arg m) (hb : m.control.tracer.ReturnSet b)
    (hc : m.control.tracer.ReturnSet c)
    (he : m.control.tracer.returnAddr b = m.control.tracer.returnAddr c) : b = c := by
  obtain ⟨_, ha, hret⟩ := hb
  obtain ⟨_, ha', hret'⟩ := hc
  obtain ⟨p, hp, rfl⟩ := slotAddr_eq_ok_iff.mp ha
  obtain ⟨q, hq, rfl⟩ := slotAddr_eq_ok_iff.mp ha'
  obtain ⟨hlisted, hlt⟩ := hi.listed b hp
  obtain ⟨hlisted', hlt'⟩ := hi.listed c hq
  have hpair := hi.layout.slotReturn_inj hlisted hlisted' hlt hlt' (hret.symm.trans (he.trans hret'))
  obtain ⟨rfl, hindex⟩ := Prod.mk.inj hpair
  exact hi.owned.distinct b c p hp hq hindex

/-- What the search for the address of a breakpoint finds is a breakpoint there. -/
theorem enter_of_find (hi : AddersInv s₀ code arg m) {e : BpEntry}
    (htouches : Touches code (s₀.enterAddr b))
    (hf : m.control.tracer.index.breakpointRbFindInternal (m.control.tracer.enterAddr b) = some e) :
    e.kind = .enter ∧ m.control.tracer.index.emptyNode ⟨e.bkpt, .enter⟩ = false ∧
      s₀.enterAddr e.bkpt = s₀.enterAddr b := by
  obtain ⟨c, kind⟩ := e
  obtain ⟨hmem, haddr⟩ := (BpIndex.find_eq_some_iff hi.wellFormed).mp hf
  have hlinked := (hi.wellFormed.linked ⟨c, kind⟩).mpr hmem
  rw [hi.later.enterAddr] at haddr
  cases kind with
  | enter => exact ⟨rfl, hlinked, (hi.later.enterAddr c).symm.trans haddr⟩
  | ret =>
    have hret : m.control.tracer.returnAddr c = s₀.enterAddr b := haddr
    exact (hi.returnAddr_not_touches (hi.returned c hlinked) (hret ▸ htouches)).elim

/-- The search for the second word of a slot finds nothing before its entry is linked. -/
theorem return_absent (hi : AddersInv s₀ code arg m) (hs : m.control.tracer.ReturnSet b)
    (hempty : m.control.tracer.index.emptyNode ⟨b, .ret⟩ = true) (e : BpEntry) :
    m.control.tracer.index.breakpointRbFindInternal (m.control.tracer.returnAddr b) ≠ some e := by
  intro hf
  obtain ⟨c, kind⟩ := e
  obtain ⟨hmem, haddr⟩ := (BpIndex.find_eq_some_iff hi.wellFormed).mp hf
  have hlinked := (hi.wellFormed.linked ⟨c, kind⟩).mpr hmem
  cases kind with
  | enter =>
    have haddr : m.control.tracer.enterAddr c = m.control.tracer.returnAddr b := haddr
    rw [hi.later.enterAddr] at haddr
    exact hi.returnAddr_not_touches hs (haddr ▸ (hi.entered c hlinked).1)
  | ret =>
    obtain rfl := hi.returnAddr_inj (hi.returned c hlinked) hs haddr
    exact absurd (hempty.symm.trans hlinked) (by decide)

/-- A free slot belongs to nobody. -/
theorem owned_takeSlot (hi : AddersInv s₀ code arg m) {slots : SlotHeap} {p : SlotSetPtr}
    {i : Nat}
    (hp : p ∈ m.control.tracer.slots.slotSets) (hlt : i < 1024)
    (hfree : (m.control.tracer.slots.slotSet p).isFree i = true) :
    (m.control.tracer.takeSlot b slots p i).Owned ((p, i) :: m.control.live) := by
  have hne : ∀ c q, (m.control.tracer.bkpt c).slotSet = some q →
      (q, (m.control.tracer.bkpt c).slotIndex) ≠ (p, i) := by
    intro c q hq he
    have hlive := hi.owned.live c q hq
    rw [he] at hlive
    exact absurd (hfree.symm.trans ((hi.alloc.bit p hp i hlt).mpr hlive)) (by decide)
  have hself : (m.control.tracer.takeSlot b slots p i).bkpt b = _ :=
    (TextInv.takeSlot_bkpt ..).trans (if_pos rfl)
  have hother : ∀ c, c ≠ b →
      (m.control.tracer.takeSlot b slots p i).bkpt c = m.control.tracer.bkpt c :=
    fun c hc => (TextInv.takeSlot_bkpt ..).trans (if_neg hc)
  constructor
  · intro c q hq
    by_cases hcb : c = b
    · subst c
      rw [hself] at hq ⊢
      obtain rfl := Option.some.inj hq
      exact List.mem_cons_self
    · rw [hother c hcb] at hq ⊢
      exact List.mem_cons_of_mem _ (hi.owned.live c q hq)
  · intro c d q hq hq' he
    by_cases hcb : c = b <;> by_cases hdb : d = b
    · rw [hcb, hdb]
    · subst c
      rw [hself] at hq he
      rw [hother d hdb] at hq' he
      obtain rfl := Option.some.inj hq
      exact (hne d p hq' (congrArg _ he.symm)).elim
    · subst d
      rw [hself] at hq' he
      rw [hother c hcb] at hq he
      obtain rfl := Option.some.inj hq'
      exact (hne c p hq (congrArg _ he)).elim
    · rw [hother c hcb] at hq he
      rw [hother d hdb] at hq' he
      exact hi.owned.distinct c d q hq hq' he

end AddersInv

section Steps

variable [DecidableEq κ]

/-- What the step of `t` to the point `st` does to the results. -/
structure Returns (m : Adders κ) (t : κ) (st : Stage) (result : κ → Option Int) : Prop where
  others : ∀ u, u ≠ t → result u = m.result u
  work : st ≠ .idle → result t = m.result t
  finish : st = .idle → result t = some (m.control.tracer.exitCode (m.control.stage t))

theorem Returns.of_update {f : κ → Stage} {result : κ → Option Int}
    (h : Returns m t (Function.update f t st t) result) : Returns m t st result := by
  rwa [Function.update_self] at h

namespace AddersInv

variable {result : κ → Option Int}

/-- One step of the thread `t`, which ends at the point `st`. -/
theorem step (hc : Callers s₀ code arg) (hi : AddersInv s₀ code arg m)
    (ho : Others m.control.tracer k'.tracer (arg t)) (hk : k'.stage = (m.control.move t st).stage)
    (hr : Returns m t st result) (hwf : k'.tracer.index.WellFormed)
    (hl : Layout code k'.tracer.slots) (halloc : AllocInv k'.alloc)
    (hown : k'.tracer.Owned k'.live)
    (hret : k'.tracer.index.emptyNode ⟨arg t, .ret⟩ = false → k'.tracer.ReturnSet (arg t))
    (hcall : CallOk s₀ k'.tracer (arg t) (result t) st) : AddersInv s₀ code arg ⟨k', result⟩ := by
  have hlisted : ∀ b p, (m.control.tracer.bkpt b).slotSet = some p →
      p ∈ m.control.tracer.slots.slotSets := fun b p hb => (hi.listed b hb).1
  refine ⟨hi.later.trans ho.toLater, hwf, hl, halloc, hown, ?_, ?_, ?_⟩
  · intro b hb
    by_cases hbt : b = arg t
    · subst b
      exact hret hb
    · rw [ho.emptyNode b .ret hbt] at hb
      exact (hi.returned b hb).frame ho hbt (hlisted b)
  · intro b hb
    by_cases hbt : b = arg t
    · subst b
      exact ⟨hc.touches t, Or.inr ⟨t, rfl⟩⟩
    · rw [ho.emptyNode b .enter hbt] at hb
      exact hi.entered b hb
  · intro u
    by_cases hu : u = t
    · subst u
      rw [hk, Control.move_stage, if_pos rfl]
      exact hcall
    · have hframe := (hi.call u).frame ho (fun he => hu (hc.inj he)) (hlisted (arg u))
      rw [← hr.others u hu] at hframe
      rw [hk, Control.move_stage, if_neg hu]
      exact hframe

/-- A step that leaves the tracer alone. -/
theorem move (hc : Callers s₀ code arg) (hi : AddersInv s₀ code arg m)
    (halloc : AllocInv (m.control.move t st).alloc) (hr : Returns m t st result)
    (hcall : CallOk s₀ m.control.tracer (arg t) (result t) st) :
    AddersInv s₀ code arg ⟨m.control.move t st, result⟩ :=
  hi.step hc (others_refl _ _) rfl hr hi.wellFormed hi.layout halloc hi.owned (hi.returned _) hcall

/-- A step outside `slot_alloc` that gives no slot out. -/
theorem act (hc : Callers s₀ code arg) (hi : AddersInv s₀ code arg m)
    (ho : Others m.control.tracer s (arg t)) (hr : Returns m t st result)
    (hwf : s.index.WellFormed) (hslots : s.slots = m.control.tracer.slots)
    (hset : ∀ b, (s.bkpt b).slotSet = (m.control.tracer.bkpt b).slotSet)
    (hindex : ∀ b, (s.bkpt b).slotIndex = (m.control.tracer.bkpt b).slotIndex)
    (hpc : ∀ rest idx, st.allocPc ≠ .scanning rest idx)
    (hret : s.index.emptyNode ⟨arg t, .ret⟩ = false → s.ReturnSet (arg t))
    (hcall : CallOk s₀ s (arg t) (result t) st) :
    AddersInv s₀ code arg ⟨m.control.act t st s, result⟩ := by
  refine hi.step hc ho rfl hr hwf ?_ (Control.allocInv_act hi.alloc hslots hpc)
    (hi.owned.congr hset hindex) hret hcall
  exact hslots.symm ▸ hi.layout

variable {index : BpIndex BpEntry} {p : SlotSetPtr} {v : Instr}

/-- The index has a breakpoint at the address already. -/
theorem present (hc : Callers s₀ code arg) (hi : AddersInv s₀ code arg m) {e : BpEntry}
    (hst : m.control.stage t = .addInsert b o) (hr : Returns m t .idle result)
    (hf : m.control.tracer.index.breakpointRbFindInternal (m.control.tracer.enterAddr b) = some e) :
    AddersInv s₀ code arg ⟨m.control.move t .idle, result⟩ := by
  obtain ⟨rfl, _, _, hs⟩ := hi.callOk hst
  have hres : result t = some (-3) := by
    rw [hr.finish rfl, hst]
    rfl
  obtain ⟨_, hlinked, he⟩ := hi.enter_of_find (hc.touches t) hf
  exact hi.move hc (Control.allocInv_act hi.alloc rfl nofun) hr
    (Or.inr (Or.inr ⟨hres, hs, e.bkpt, hlinked, he⟩))

theorem insert_enter (hc : Callers s₀ code arg) (hi : AddersInv s₀ code arg m)
    (hst : m.control.stage t = .addInsert b o) (hr : Returns m t st result)
    (hst' : st = if s₀.slotBacked b then .addAlloc b o .retry else .addChain b o)
    (hins : m.control.tracer.index.Inserted index ⟨b, .enter⟩) :
    AddersInv s₀ code arg ⟨m.control.act t st (m.control.tracer.setIndex index), result⟩ := by
  obtain ⟨rfl, hres, hfound, hs⟩ := hi.callOk hst
  have hempty : ∀ kind, index.emptyNode ⟨arg t, kind⟩ = decide (kind = .ret) := by
    intro kind
    refine (congrFun hins.emptyNode _).trans ?_
    cases kind with
    | enter => exact Function.update_self ..
    | ret => exact (Function.update_of_ne (by simp) ..).trans hs.ret
  have hs' : (m.control.tracer.setIndex index).Standing (arg t) true false false none :=
    ⟨hempty .enter, hempty .ret, hs.slot, hs.chain⟩
  refine hi.act hc (others_setIndex hins) hr hins.wellFormed rfl (fun _ => rfl) (fun _ => rfl)
    ?_ ?_ ?_
  · intro rest idx
    rw [hst']
    split <;> exact nofun
  · intro hret
    exact absurd (hs'.ret.symm.trans hret) (by decide)
  · cases hback : s₀.slotBacked (arg t) with
    | true =>
      rw [hback, if_pos rfl] at hst'
      subst hst'
      exact ⟨rfl, (hr.work nofun).trans hres, hfound, hback, hs', nofun⟩
    | false =>
      rw [hback, if_neg Bool.false_ne_true] at hst'
      subst hst'
      refine ⟨rfl, (hr.work nofun).trans hres, hfound, ?_⟩
      rw [hback]
      exact hs'

theorem grow (hc : Callers s₀ code arg) (hi : AddersInv s₀ code arg m) {new : NewSlots}
    (hst : m.control.stage t = .addAlloc b o .growing)
    (hr : Returns m t (.addAlloc b o .retry) result)
    (hnew : new.Fits code m.control.tracer.slots) :
    AddersInv s₀ code arg ⟨m.control.act t (.addAlloc b o .retry)
      (m.control.tracer.setSlots (m.control.tracer.slots.slotSetAdd new)), result⟩ := by
  obtain ⟨rfl, hres, hfound, hback, hs, _⟩ := hi.callOk hst
  have halloc : AllocInv (m.control.act t (.addAlloc (arg t) o .retry)
      (m.control.tracer.setSlots (m.control.tracer.slots.slotSetAdd new))).alloc :=
    Control.allocInv_of t (.addAlloc (arg t) o .retry) rfl (allocInv_grow hi.alloc hnew.ptr)
  have ho := others_grow hnew.ptr (arg t)
  refine hi.step hc ho rfl hr hi.wellFormed (hi.layout.slotSetAdd hnew) halloc
    (hi.owned.congr (fun _ => rfl) fun _ => rfl) ?_ ?_
  · intro hret
    exact absurd (hs.ret.symm.trans hret) (by decide)
  · exact ⟨rfl, (hr.work nofun).trans hres, hfound, hback, ⟨hs.enter, hs.ret, hs.slot, hs.chain⟩,
      nofun⟩

theorem claim (hc : Callers s₀ code arg) (hi : AddersInv s₀ code arg m) {ps : List SlotSetPtr}
    {idx j pos : Nat} (hst : m.control.stage t = .addAlloc b o (.scanning (p :: ps) idx))
    (hr : Returns m t (.addLoad b o) result)
    (hv : (m.control.tracer.slots.slotSet p).visit idx = .found j pos) :
    AddersInv s₀ code arg ⟨{ m.control.act t (.addLoad b o) (m.control.tracer.takeSlot b
        (m.control.tracer.slots.modify p (·.claim j pos)) p (j * uintBitNum + pos)) with
      live := (p, j * uintBitNum + pos) :: m.control.live }, result⟩ := by
  have hpc : m.control.alloc.pc t = .scanning (p :: ps) idx := congrArg Stage.allocPc hst
  obtain ⟨rfl, hres, hfound, hback, hs, _⟩ := hi.callOk hst
  obtain ⟨hsub, hidx⟩ := hi.alloc.walk t _ _ hpc
  have hp : p ∈ m.control.tracer.slots.slotSets := hsub List.mem_cons_self
  obtain ⟨_, hj, hpos, hfree, _⟩ := SlotSet.visit_found hv hidx
  have htaken := slotTaken_modify hi.layout hp hj hpos hfree
  refine hi.step hc (others_takeSlot htaken (arg t)) rfl hr hi.wellFormed htaken.layout
    (Control.allocInv_of t (.addLoad (arg t) o) rfl (allocInv_claim hi.alloc hpc hv))
    (hi.owned_takeSlot hp htaken.lt hfree) ?_ ?_
  · intro hret
    exact absurd (hs.ret.symm.trans hret) (by decide)
  · refine ⟨rfl, (hr.work nofun).trans hres, hfound, hback, hs.enter, hs.ret, ?_, hs.chain⟩
    exact congrArg (·.slotSet.isSome) ((TextInv.takeSlot_bkpt ..).trans (if_pos rfl))

theorem walk (hc : Callers s₀ code arg) (hi : AddersInv s₀ code arg m) {pc : AllocPc}
    {e : AllocEvent κ} {u : AllocState κ} (hst : m.control.stage t = .addAlloc b o pc)
    (hr : Returns m t (.addAlloc b o (u.pc t)) result)
    (he : e = .lock t ∨ e = .skip t ∨ e = .unlock t) (h : AllocStep m.control.alloc e u) :
    AddersInv s₀ code arg ⟨m.control.move t (.addAlloc b o (u.pc t)), result⟩ := by
  obtain ⟨hb, hres, hfound, hback, hs, _⟩ := hi.callOk hst
  refine hi.move hc (Control.allocInv_walk hi.alloc he h) hr
    ⟨hb, (hr.work nofun).trans hres, hfound, hback, hs, ?_⟩
  rcases he with rfl | rfl | rfl <;> cases h <;> simp [AllocState.setPc]

theorem copy (hc : Callers s₀ code arg) (hi : AddersInv s₀ code arg m)
    (hst : m.control.stage t = .addCopy b o v) (hr : Returns m t (.addBrk b o) result) :
    AddersInv s₀ code arg ⟨m.control.act t (.addBrk b o)
      { m.control.tracer with mem := storeInstr m.control.tracer.mem a v }, result⟩ := by
  obtain ⟨hb, hres, hfound, hback, hs⟩ := hi.callOk hst
  refine hi.act hc (others_mem _ _ _) hr hi.wellFormed rfl (fun _ => rfl) (fun _ => rfl) nofun
    (hi.returned _) ?_
  exact ⟨hb, (hr.work nofun).trans hres, hfound, hback, hs.enter, hs.ret, hs.slot, hs.chain⟩

theorem brk (hc : Callers s₀ code arg) (hi : AddersInv s₀ code arg m)
    (hst : m.control.stage t = .addBrk b o) (hr : Returns m t (.addReturn b o) result)
    (ha : m.control.tracer.slotAddr b = .ok a) :
    AddersInv s₀ code arg ⟨m.control.act t (.addReturn b o) ({ m.control.tracer with
      mem := storeInstr m.control.tracer.mem (a + 4) brkInstr }.setReturnAddr b (a + 4)),
      result⟩ := by
  obtain ⟨rfl, hres, hfound, hback, hs⟩ := hi.callOk hst
  have hwf := (BpIndex.setAddress_wellFormed hi.wellFormed hs.ret (a + 4)).1
  have ho := (others_mem m.control.tracer (arg t)
    (storeInstr m.control.tracer.mem (a + 4) brkInstr)).trans
      (others_setReturnAddr _ (arg t) (a + 4))
  refine hi.act hc ho hr hwf rfl (fun _ => rfl) (fun _ => rfl) nofun ?_ ?_
  · intro hret
    exact absurd (hs.ret.symm.trans hret) (by decide)
  · exact ⟨rfl, (hr.work nofun).trans hres, hfound, hback, ⟨hs.enter, hs.ret, hs.slot, hs.chain⟩,
      a, ha, Function.update_self ..⟩

theorem insert_return (hc : Callers s₀ code arg) (hi : AddersInv s₀ code arg m)
    (hst : m.control.stage t = .addReturn b o) (hr : Returns m t (.addChain b o) result)
    (hins : m.control.tracer.index.Inserted index ⟨b, .ret⟩) :
    AddersInv s₀ code arg
      ⟨m.control.act t (.addChain b o) (m.control.tracer.setIndex index), result⟩ := by
  obtain ⟨rfl, hres, hfound, hback, hs, hret⟩ := hi.callOk hst
  have henter : index.emptyNode ⟨arg t, .enter⟩ = false :=
    (congrFun hins.emptyNode _).trans ((Function.update_of_ne (by simp) ..).trans hs.enter)
  have hreturn : index.emptyNode ⟨arg t, .ret⟩ = false :=
    (congrFun hins.emptyNode _).trans (Function.update_self ..)
  refine hi.act hc (others_setIndex hins) hr hins.wellFormed rfl (fun _ => rfl) (fun _ => rfl) nofun
    ?_ ?_
  · obtain ⟨a, ha, haddr⟩ := hret
    exact fun _ => ⟨a, ha, (congrFun hins.address _).trans haddr⟩
  · refine ⟨rfl, (hr.work nofun).trans hres, hfound, ?_⟩
    rw [hback]
    exact ⟨henter, hreturn, hs.slot, hs.chain⟩

theorem chain (hc : Callers s₀ code arg) (hi : AddersInv s₀ code arg m)
    (hst : m.control.stage t = .addChain b o) (hr : Returns m t .idle result) :
    AddersInv s₀ code arg ⟨m.control.act t .idle (m.control.tracer.linkChain b o), result⟩ := by
  obtain ⟨rfl, _, hfound, hs⟩ := hi.callOk hst
  have hlt : o < m.control.tracer.objects.length :=
    (List.findIdx?_eq_some_iff_getElem.mp (hi.found hfound).1).1
  have hsame := same_linkChain m.control.tracer (arg t) o
  have hobj : (m.control.tracer.linkChain (arg t) o).bkpt (arg t) = _ :=
    (modifyBkpt_bkpt m.control.tracer (arg t) ({ · with obj := some o }) (arg t)).trans (if_pos rfl)
  have hres : result t = some 0 := by
    rw [hr.finish rfl, hst]
    rfl
  refine hi.act hc (others_linkChain hlt (arg t)) hr hi.wellFormed rfl hsame.slotSet hsame.slotIndex
    nofun ?_
    (Or.inr (Or.inl ⟨hres, o, hfound, congrArg Breakpoint.obj hobj, hs.enter, hs.ret, ?_, ?_⟩))
  · intro hret
    obtain ⟨a, ha, haddr⟩ := hi.returned _ hret
    refine ⟨a, ?_, haddr⟩
    obtain ⟨p, hp, hoff⟩ := slotAddr_eq_ok_iff.mp ha
    rw [slotAddr_eq_ok_iff, hsame.slotSet, hsame.slotIndex]
    exact ⟨p, hp, hoff⟩
  · rw [hsame.slotSet]
    exact hs.slot
  · intro x
    rw [chainCount_linkChain hlt, hs.chain]
    by_cases hx : x = o
    · simp [hx]
    · simp [hx, Ne.symm hx]

/-- A step of a call that has begun. -/
theorem control (hc : Callers s₀ code arg) (hi : AddersInv s₀ code arg m)
    (hst : m.control.stage t ≠ .idle) (h : ControlStep rb code m.control t k')
    (hr : Returns m t (k'.stage t) result) : AddersInv s₀ code arg ⟨k', result⟩ := by
  have hact {st : Stage} : (∀ rest idx, st.allocPc ≠ .scanning rest idx) →
      AllocInv (m.control.move t st).alloc := Control.allocInv_act hi.alloc rfl
  cases h with
  | addCall hidle hchain => exact (hst hidle).elim
  | patchCall hidle hlinked => exact (hst hidle).elim
  | addLock hst hf =>
    obtain ⟨hb, hres, hs⟩ := hi.callOk hst
    have hr := hr.of_update
    exact hi.move hc (hact nofun) hr ⟨hb, (hr.work nofun).trans hres, hs⟩
  | addRefused hst hno =>
    obtain ⟨rfl, _, _⟩ := hi.callOk hst
    obtain ⟨o, hfound⟩ := hc.found t
    have hnow := hi.found hfound
    exact absurd ((hno o hnow.1).symm.trans hnow.2) (by decide)
  | addLookup hst ho hno =>
    rename_i o
    obtain ⟨rfl, hres, hs⟩ := hi.callOk hst
    have hr := hr.of_update
    have hfound : s₀.Found (arg t) o := by
      rw [Found, ← hi.later.lookup, ← hi.later.enterAddr, ← hi.later.noBkpt]
      exact ⟨ho, hno⟩
    exact hi.move hc (hact nofun) hr ⟨rfl, (hr.work nofun).trans hres, hfound, hs⟩
  | addPresent hst hne hrun =>
    rcases BpIndex.searchInsert_cases hi.wellFormed hrun with ⟨_, rfl, e, hf⟩ | ⟨h0, _⟩
    · exact hi.present hc hst hr.of_update hf
    · exact (hne h0).elim
  | addInsert hst hrun =>
    rcases BpIndex.searchInsert_cases hi.wellFormed hrun with ⟨h1, _⟩ | ⟨_, _, hins⟩
    · cases h1
    · refine hi.insert_enter hc hst hr.of_update ?_ hins
      rw [← hi.slotBacked, Tracer.slotBacked]
      cases (m.control.tracer.bkpt _).hasAttr .NO_SLOT <;> rfl
  | walk hst he h => exact hi.walk hc hst hr.of_update he h
  | grow hst hlock hnew => exact hi.grow hc hst hr.of_update hnew
  | claim hst hv => exact hi.claim hc hst hr.of_update hv
  | addLoad hst =>
    obtain ⟨hb, hres, hfound, hback, hs⟩ := hi.callOk hst
    have hr := hr.of_update
    exact hi.move hc (hact nofun) hr ⟨hb, (hr.work nofun).trans hres, hfound, hback, hs⟩
  | addCopy hst ha => exact hi.copy hc hst hr.of_update
  | addBrk hst ha => exact hi.brk hc hst hr.of_update ha
  | addReturnPresent hst hne hrun =>
    obtain ⟨rfl, _, _, _, hs, hret⟩ := hi.callOk hst
    rcases BpIndex.searchInsert_cases hi.wellFormed hrun with ⟨_, _, e, hf⟩ | ⟨h0, _⟩
    · exact (hi.return_absent hret hs.ret e hf).elim
    · exact (hne h0).elim
  | addReturn hst hrun =>
    rcases BpIndex.searchInsert_cases hi.wellFormed hrun with ⟨h1, _⟩ | ⟨_, _, hins⟩
    · cases h1
    · exact hi.insert_return hc hst hr.of_update hins
  | addChain hst => exact hi.chain hc hst hr.of_update
  | addFree hst | patchLock hst | patchDone hst | patchTest hst | patchOpen hst | patchLoad hst
  | patchStore hst | patchClose hst => exact (hi.callOk hst).elim

end AddersInv

theorem addersInv_step (hc : Callers s₀ code arg) (h : AddersStep rb code arg m t m')
    (hi : AddersInv s₀ code arg m) : AddersInv s₀ code arg m' := by
  cases h with
  | call hst hres hchain =>
    have hr : Returns m t (.addLock (arg t)) m.result := ⟨fun _ _ => rfl, fun _ => rfl, nofun⟩
    rcases hi.callOk hst with ⟨_, hs⟩ | ⟨hret, _⟩ | ⟨hret, _⟩
    · exact hi.move hc (Control.allocInv_act hi.alloc rfl nofun) hr ⟨rfl, hres, hs⟩
    · cases hres.symm.trans hret
    · cases hres.symm.trans hret
  | work hst h hk => exact hi.control hc hst h ⟨fun _ _ => rfl, fun _ => rfl, fun he => (hk he).elim⟩
  | finish hst h hk =>
    refine hi.control hc hst h ⟨?_, fun hne => (hne hk).elim, fun _ => Function.update_self ..⟩
    exact fun u hu => Function.update_of_ne hu ..

end Steps

/-- No call has begun, and what the index and the slots hold is older. -/
structure AddersInitial (code : Addr → Prop) (arg : κ → BkptPtr) (m : Adders κ) : Prop where
  callers : Callers m.control.tracer code arg
  wellFormed : m.control.tracer.index.WellFormed
  layout : Layout code m.control.tracer.slots
  alloc : AllocInv m.control.alloc
  owned : m.control.tracer.Owned m.control.live
  returned : ∀ b, m.control.tracer.index.emptyNode ⟨b, .ret⟩ = false → m.control.tracer.ReturnSet b
  entered : ∀ b, m.control.tracer.index.emptyNode ⟨b, .enter⟩ = false →
    Touches code (m.control.tracer.enterAddr b)
  fresh : ∀ t, m.control.tracer.Fresh (arg t)
  stage : ∀ t, m.control.stage t = .idle
  result : ∀ t, m.result t = none

theorem addersInv_initial (h : AddersInitial code arg m) :
    AddersInv m.control.tracer code arg m := by
  refine ⟨later_refl _, h.wellFormed, h.layout, h.alloc, h.owned, h.returned, ?_, ?_⟩
  · exact fun b hb => ⟨h.entered b hb, Or.inl hb⟩
  · intro t
    rw [h.stage]
    exact Or.inl ⟨h.result t, h.fresh t⟩

theorem addersInv_run [DecidableEq κ] {ts : List κ} {m₀ : Adders κ}
    (h : Run (AddersStep rb code arg) m₀ ts m) (h₀ : AddersInitial code arg m₀) :
    AddersInv m₀.control.tracer code arg m :=
  h.inv (fun _ _ _ => addersInv_step h₀.callers) (addersInv_initial h₀)

end Atrace.Signal

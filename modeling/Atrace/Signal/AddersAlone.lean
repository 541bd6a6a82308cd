import Atrace.Signal.Adders
import Mathlib.Logic.Relation

/-! A thread that nobody interrupts does what `breakpoint_add` does. -/
namespace Atrace.Signal

open Atrace.Lib Tracer Relation

variable {κ : Type*} [DecidableEq κ] {rb : RbLib BpEntry} {code : Addr → Prop} {arg : κ → BkptPtr}
  {b : BkptPtr} {o : ObjPtr} {t : κ} {m m' : Adders κ} {k : Control κ} {s s' : Tracer}
  {st st' : Stage} {live live' : List (SlotSetPtr × Nat)} {news rest : List NewSlots} {c : Int}

/-- The thread `t` at the point `st`, with the tracer `s` and the slots `live` handed out. -/
def Adders.goto (m : Adders κ) (t : κ) (st : Stage) (s : Tracer) (live : List (SlotSetPtr × Nat)) :
    Adders κ :=
  { m with control := ⟨s, live, Function.update m.control.stage t st⟩ }

/-- The steps of one thread, with no step of another between them. -/
def AddsAlone (rb : RbLib BpEntry) (code : Addr → Prop) (arg : κ → BkptPtr) (t : κ) :
    Adders κ → Adders κ → Prop :=
  ReflTransGen fun m m' => AddersStep rb code arg m t m'

namespace AddsAlone

theorem goto_stage (m : Adders κ) (t : κ) (st : Stage) (s : Tracer)
    (live : List (SlotSetPtr × Nat)) : (m.goto t st s live).control.stage t = st :=
  Function.update_self ..

theorem goto_of_ne {u : κ} (hu : u ≠ t) : (m.goto t st s live).control.stage u =
    m.control.stage u :=
  Function.update_of_ne hu ..

theorem goto_control (m : Adders κ) (t : κ) (st st' : Stage) (s s' : Tracer)
    (live live' : List (SlotSetPtr × Nat)) :
    (m.goto t st' s' live').control =
      { (m.goto t st s live).control.act t st' s' with live := live' } := by
  simp [Adders.goto, Control.act, Control.move]

/-- A step inside a call. -/
theorem work (h : ControlStep rb code (m.goto t st s live).control t
      { (m.goto t st s live).control.act t st' s' with live := live' })
    (hst : st ≠ .idle) (hst' : st' ≠ .idle) :
    AddsAlone rb code arg t (m.goto t st s live) (m.goto t st' s' live') := by
  rw [← goto_control] at h
  refine .single (.work ?_ h ?_)
  · rwa [goto_stage]
  · exact (goto_stage m t st' s' live').trans_ne hst'

/-- The last step of a call. -/
theorem finish (hidle : m.control.stage t = .idle)
    (h : ControlStep rb code (m.goto t st s live).control t
      { (m.goto t st s live).control.act t .idle s' with live := live' })
    (hst : st ≠ .idle) (hc : s.exitCode st = c) :
    AddsAlone rb code arg t (m.goto t st s live)
      ⟨⟨s', live', m.control.stage⟩, Function.update m.result t (some c)⟩ := by
  have hback : Function.update m.control.stage t .idle = m.control.stage := by
    rw [← hidle]
    exact Function.update_eq_self t m.control.stage
  rw [← goto_control] at h
  have hstep : AddersStep rb code arg (m.goto t st s live) t _ :=
    .finish (by rwa [goto_stage]) h (goto_stage ..)
  rw [goto_stage] at hstep
  subst hc
  rw [← hback]
  exact .single hstep

section SlotAlloc

theorem goto_pc (m : Adders κ) (t : κ) (pc : AllocPc) :
    (m.goto t (.addAlloc b o pc) s live).control.alloc.pc t = pc :=
  congrArg Stage.allocPc (goto_stage ..)

/-- A step of the walk over the sets. -/
theorem walk {pc pc' : AllocPc} {e : AllocEvent κ}
    (he : e = .lock t ∨ e = .skip t ∨ e = .unlock t)
    (h : AllocStep (m.goto t (.addAlloc b o pc) s live).control.alloc e
      ((m.goto t (.addAlloc b o pc) s live).control.alloc.setPc t pc')) :
    AddsAlone rb code arg t (m.goto t (.addAlloc b o pc) s live)
      (m.goto t (.addAlloc b o pc') s live) := by
  have hstep : ControlStep rb code (m.goto t (.addAlloc b o pc) s live).control t _ :=
    .walk (goto_stage ..) he h
  rw [AllocState.setPc_pc, if_pos rfl] at hstep
  exact work hstep (by simp) (by simp)

theorem skip {p : SlotSetPtr} {ps : List SlotSetPtr} {idx idx' : Nat}
    (hv : (s.slots.slotSet p).visit idx = .skip idx') :
    AddsAlone rb code arg t (m.goto t (.addAlloc b o (.scanning (p :: ps) idx)) s live)
      (m.goto t (.addAlloc b o (.scanning ps idx')) s live) :=
  walk (.inr (.inl rfl)) (.skip (goto_pc ..) hv)

/-- The walk ends at the first set that has a free slot. -/
theorem scan_found {p : SlotSetPtr} {ps : List SlotSetPtr} {idx j pos : Nat}
    (h : s.slots.scanSets ps idx = some (p, j, pos)) :
    AddsAlone rb code arg t (m.goto t (.addAlloc b o (.scanning ps idx)) s live)
      (m.goto t (.addLoad b o) (s.takeSlot b (s.slots.modify p (·.claim j pos)) p
        (j * uintBitNum + pos)) ((p, j * uintBitNum + pos) :: live)) := by
  refine SlotHeap.scanSets_some_induct (motive := fun ps idx =>
    AddsAlone rb code arg t (m.goto t (.addAlloc b o (.scanning ps idx)) s live)
      (m.goto t (.addLoad b o) (s.takeSlot b (s.slots.modify p (·.claim j pos)) p
        (j * uintBitNum + pos)) ((p, j * uintBitNum + pos) :: live))) ?_ ?_ h
  · exact fun ps idx hv => work (.claim (goto_stage ..) hv) (by simp) (by simp)
  · exact fun q ps idx idx' hv hrest => (skip hv).trans hrest

theorem scan_none {ps : List SlotSetPtr} {idx : Nat} (h : s.slots.scanSets ps idx = none) :
    AddsAlone rb code arg t (m.goto t (.addAlloc b o (.scanning ps idx)) s live)
      (m.goto t (.addAlloc b o .growing) s live) := by
  refine SlotHeap.scanSets_none_induct (motive := fun ps idx =>
    AddsAlone rb code arg t (m.goto t (.addAlloc b o (.scanning ps idx)) s live)
      (m.goto t (.addAlloc b o .growing) s live)) ?_ ?_ h
  · exact fun idx => walk (.inr (.inr rfl)) (.unlock (goto_pc ..))
  · exact fun q ps idx idx' hv hrest => (skip hv).trans hrest

theorem lock : AddsAlone rb code arg t (m.goto t (.addAlloc b o .retry) s live)
    (m.goto t (.addAlloc b o (.scanning s.slots.slotSets 0)) s live) :=
  walk (.inl rfl) (.lock (goto_pc ..))

theorem not_reading {pc : AllocPc} (h : ¬ m.control.alloc.Reading)
    (hpc : ∀ rest idx, pc ≠ .scanning rest idx) :
    ¬ (m.goto t (.addAlloc b o pc) s live).control.alloc.Reading := by
  rintro ⟨u, rest, idx, hu⟩
  by_cases hut : u = t
  · subst u
    rw [goto_pc] at hu
    exact hpc rest idx hu
  · refine h ⟨u, rest, idx, ?_⟩
    rw [← hu]
    exact congrArg Stage.allocPc (goto_of_ne hut).symm

/-- `slot_alloc`, which walks once more when it has added a set. -/
theorem slotAlloc {slots : SlotHeap} {p : SlotSetPtr} {i : Nat}
    (hlock : ¬ m.control.alloc.Reading) (hfits : ∀ new ∈ news, new.Fits code s.slots)
    (h : s.slots.slotAlloc news = .ok (slots, rest, p, i)) :
    AddsAlone rb code arg t (m.goto t (.addAlloc b o .retry) s live)
      (m.goto t (.addLoad b o) (s.takeSlot b slots p i) ((p, i) :: live)) := by
  rw [SlotHeap.slotAlloc_eq] at h
  cases hs : s.slots.scanSets s.slots.slotSets 0 with
  | some r =>
    obtain ⟨q, j, pos⟩ := r
    rw [hs] at h
    cases h
    exact lock.trans (scan_found hs)
  | none =>
    rw [hs] at h
    cases news with
    | nil => cases h
    | cons new news =>
      cases h
      have hgrow : AddsAlone rb code arg t (m.goto t (.addAlloc b o .growing) s live)
          (m.goto t (.addAlloc b o .retry) (s.setSlots (s.slots.slotSetAdd new)) live) :=
        work (.grow (goto_stage ..) (not_reading hlock (by simp)) (hfits new List.mem_cons_self))
          (by simp) (by simp)
      have hfound := SlotHeap.scanSets_slotSetAdd s.slots new
      exact lock.trans ((scan_none hs).trans (hgrow.trans (lock.trans (scan_found hfound))))

end SlotAlloc

section AddSlot

variable {slots : SlotHeap} {p : SlotSetPtr} {i : Nat} {a : Addr}

theorem bkpt_slotInit (s : Tracer) (b : BkptPtr) (p : SlotSetPtr) (i : Nat) :
    (s.slotInit b p i).bkpt b = { s.bkpt b with slotSet := some p, slotIndex := i } :=
  Function.update_self ..

theorem slotAddr_takeSlot (s : Tracer) (b : BkptPtr) (slots : SlotHeap) (p : SlotSetPtr)
    (i : Nat) : (s.takeSlot b slots p i).slotAddr b = .ok ((slots.slotSet p).slotOffset i) := by
  have hbkpt : (s.takeSlot b slots p i).bkpt b =
      { s.bkpt b with slotSet := some p, slotIndex := i } := Function.update_self ..
  rw [slotAddr_eq_ok_iff, hbkpt]
  exact ⟨p, rfl, rfl⟩

theorem load (s : Tracer) (live : List (SlotSetPtr × Nat)) :
    AddsAlone rb code arg t (m.goto t (.addLoad b o) s live)
      (m.goto t (.addCopy b o (loadInstr s.mem (s.enterAddr b))) s live) :=
  work (.addLoad (goto_stage ..)) (by simp) (by simp)

theorem copy (v : Instr) (ha : s.slotAddr b = .ok a) :
    AddsAlone rb code arg t (m.goto t (.addCopy b o v) s live)
      (m.goto t (.addBrk b o) { s with mem := storeInstr s.mem a v } live) :=
  work (.addCopy (goto_stage ..) ha) (by simp) (by simp)

theorem brk (ha : s.slotAddr b = .ok a) :
    AddsAlone rb code arg t (m.goto t (.addBrk b o) s live) (m.goto t (.addReturn b o)
      ({ s with mem := storeInstr s.mem (a + 4) brkInstr }.setReturnAddr b (a + 4)) live) :=
  work (.addBrk (goto_stage ..) ha) (by simp) (by simp)

theorem slotInit (slots : SlotHeap) (p : SlotSetPtr) (i : Nat) :
    AddsAlone rb code arg t (m.goto t (.addLoad b o) (s.takeSlot b slots p i) live)
      (m.goto t (.addReturn b o) ((s.setSlots slots).slotInit b p i) live) := by
  have haddr := slotAddr_takeSlot s b slots p i
  exact (load ..).trans ((copy _ haddr).trans (brk haddr))

theorem takeSlot (hlock : ¬ m.control.alloc.Reading)
    (hfits : ∀ new ∈ news, new.Fits code s.slots)
    (h : s.slots.slotAlloc news = .ok (slots, rest, p, i)) :
    AddsAlone rb code arg t (m.goto t (.addAlloc b o .retry) s live)
      (m.goto t (.addReturn b o) ((s.setSlots slots).slotInit b p i) ((p, i) :: live)) :=
  (slotAlloc hlock hfits h).trans (slotInit slots p i)

/-- The last exit, which gives the slot back. -/
theorem giveBack (hidle : m.control.stage t = .idle) (hp : (s.bkpt b).slotSet = some p)
    (hi : (s.bkpt b).slotIndex = i) (hfree : s.slots.slotFree p i = .ok slots) :
    AddsAlone rb code arg t (m.goto t (.addFree b) s live)
      ⟨⟨s.setSlots slots, live.erase (p, i), m.control.stage⟩,
        Function.update m.result t (some (-4))⟩ := by
  subst hi
  exact finish hidle (.addFree (goto_stage ..) hp hfree) (by simp) rfl

/-- The part that only slot-backed breakpoints take, up to the chain or to the last exit. -/
theorem addSlot (hidle : m.control.stage t = .idle) (hlock : ¬ m.control.alloc.Reading)
    (hfits : ∀ new ∈ news, new.Fits code s.slots) (h : s.addSlot rb b news = .ok (s', c)) :
    ∃ live', AddsAlone rb code arg t (m.goto t (.addAlloc b o .retry) s live)
      (if c ≠ 0 then ⟨⟨s', live', m.control.stage⟩, Function.update m.result t (some c)⟩
        else m.goto t (.addChain b o) s' live') := by
  obtain ⟨⟨slots, rest, p, i⟩, halloc, h⟩ := bind_ok h
  obtain ⟨⟨index, c'⟩, hrun, h⟩ := bind_ok h
  have htake : AddsAlone rb code arg t (m.goto t (.addAlloc b o .retry) s live)
      (m.goto t (.addReturn b o) ((s.setSlots slots).slotInit b p i) ((p, i) :: live)) :=
    takeSlot hlock hfits halloc
  dsimp only at h hrun
  split at h
  · rename_i hc
    obtain ⟨slots', hfree, h⟩ := bind_ok h
    cases h
    have hpresent : AddsAlone rb code arg t
        (m.goto t (.addReturn b o) ((s.setSlots slots).slotInit b p i) ((p, i) :: live))
        (m.goto t (.addFree b) (((s.setSlots slots).slotInit b p i).setIndex index)
          ((p, i) :: live)) :=
      work (.addReturnPresent (goto_stage ..) hc hrun) (by simp) (by simp)
    have hbkpt : (((s.setSlots slots).slotInit b p i).setIndex index).bkpt b =
        { s.bkpt b with slotSet := some p, slotIndex := i } := bkpt_slotInit ..
    exact ⟨_, htake.trans (hpresent.trans (giveBack hidle (congrArg Breakpoint.slotSet hbkpt)
      (congrArg Breakpoint.slotIndex hbkpt) hfree))⟩
  · rename_i hc
    cases h
    refine ⟨(p, i) :: live, ?_⟩
    rw [if_neg (by simp)]
    refine htake.trans (work (.addReturn (goto_stage ..) ?_) (by simp) (by simp))
    rw [← not_not.mp hc]
    exact hrun

end AddSlot

/-- The call up to the test of `object_get_by_address`. -/
theorem begin (hidle : m.control.stage t = .idle) (hres : m.result t = none)
    (hchain : m.control.tracer.chainEmpty (arg t) = true) (hfree : m.control.Free (arg t)) :
    AddsAlone rb code arg t m
      (m.goto t (.addLookup (arg t)) m.control.tracer m.control.live) := by
  have hcall : AddsAlone rb code arg t m
      (m.goto t (.addLock (arg t)) m.control.tracer m.control.live) :=
    .single (.call hidle hres hchain)
  refine hcall.trans (work (.addLock (goto_stage ..) ?_) (by simp) (by simp))
  intro u
  by_cases hut : u = t
  · subst u
    rw [goto_stage]
    simp [Stage.holds]
  · rw [goto_of_ne hut]
    exact hfree u

/-- The first two exits. -/
theorem refused (hidle : m.control.stage t = .idle)
    (hno : ∀ o, s.objectGetByAddress (s.enterAddr b) = some o → s.noBkpt o = true)
    (hc : s.exitCode (.addLookup b) = c) :
    AddsAlone rb code arg t (m.goto t (.addLookup b) s live)
      ⟨⟨s, live, m.control.stage⟩, Function.update m.result t (some c)⟩ :=
  finish hidle (.addRefused (goto_stage ..) hno) (by simp) hc

theorem present {index : BpIndex BpEntry} (hidle : m.control.stage t = .idle) (hc : c ≠ 0)
    (hrun : s.index.breakpointRbSearchInsert rb ⟨b, .enter⟩ = .ok (index, c)) :
    AddsAlone rb code arg t (m.goto t (.addInsert b o) s live)
      ⟨⟨s.setIndex index, live, m.control.stage⟩, Function.update m.result t (some (-3))⟩ :=
  finish hidle (.addPresent (goto_stage ..) hc hrun) (by simp) rfl

theorem insert {index : BpIndex BpEntry}
    (hrun : s.index.breakpointRbSearchInsert rb ⟨b, .enter⟩ = .ok (index, 0)) :
    AddsAlone rb code arg t (m.goto t (.addInsert b o) s live)
      (m.goto t (if ((s.setIndex index).bkpt b).hasAttr .NO_SLOT then .addChain b o
        else .addAlloc b o .retry) (s.setIndex index) live) := by
  refine work (.addInsert (goto_stage ..) hrun) (by simp) ?_
  split <;> simp

theorem linkChain (hidle : m.control.stage t = .idle) :
    AddsAlone rb code arg t (m.goto t (.addChain b o) s live)
      ⟨⟨s.linkChain b o, live, m.control.stage⟩, Function.update m.result t (some 0)⟩ :=
  finish hidle (.addChain (goto_stage ..)) (by simp) rfl

/-- The call of a slot-backed breakpoint from `slot_alloc` on. -/
theorem slotted (hidle : m.control.stage t = .idle) (hlock : ¬ m.control.alloc.Reading)
    (hfits : ∀ new ∈ news, new.Fits code s.slots)
    (h : (s.addSlot rb b news >>= fun r =>
      if r.2 ≠ 0 then pure (r.1, r.2) else pure (r.1.linkChain b o, 0)) = .ok (s', c)) :
    ∃ live', AddsAlone rb code arg t (m.goto t (.addAlloc b o .retry) s live)
      ⟨⟨s', live', m.control.stage⟩, Function.update m.result t (some c)⟩ := by
  obtain ⟨⟨s₁, c₁⟩, hadd, h⟩ := bind_ok h
  have hslot : ∃ live', AddsAlone rb code arg t (m.goto t (.addAlloc b o .retry) s live)
      (if c₁ ≠ 0 then ⟨⟨s₁, live', m.control.stage⟩, Function.update m.result t (some c₁)⟩
        else m.goto t (.addChain b o) s₁ live') :=
    addSlot hidle hlock hfits hadd
  obtain ⟨live', hrun⟩ := hslot
  dsimp only at h
  split at h
  · rename_i hc
    cases h
    rw [if_pos hc] at hrun
    exact ⟨live', hrun⟩
  · rename_i hc
    cases h
    rw [if_neg hc] at hrun
    exact ⟨live', hrun.trans (linkChain hidle)⟩

end AddsAlone

/-- Steps of one thread only, from a state in which it may call, end as the function does. -/
theorem add_alone (hidle : m.control.stage t = .idle) (hres : m.result t = none)
    (hfree : m.control.Free (arg t)) (hlock : ¬ m.control.alloc.Reading)
    (hfits : ∀ new ∈ news, new.Fits code m.control.tracer.slots)
    (h : m.control.tracer.breakpointAdd rb (arg t) news = .ok (s', c)) :
    ∃ live', AddsAlone rb code arg t m
      ⟨⟨s', live', m.control.stage⟩, Function.update m.result t (some c)⟩ := by
  unfold breakpointAdd at h
  split at h
  · rename_i hchain
    have hbegin : AddsAlone rb code arg t m
        (m.goto t (.addLookup (arg t)) m.control.tracer m.control.live) :=
      AddsAlone.begin hidle hres hchain hfree
    split at h
    · rename_i ho
      cases h
      refine ⟨_, hbegin.trans (AddsAlone.refused hidle (by simp [ho]) ?_)⟩
      simp [exitCode, ho]
    · rename_i o ho
      split at h
      · rename_i hno
        cases h
        refine ⟨_, hbegin.trans (AddsAlone.refused hidle ?_ ?_)⟩
        · simp [ho, hno]
        · simp [exitCode, ho]
      · rename_i hno
        have hlookup : AddsAlone rb code arg t
            (m.goto t (.addLookup (arg t)) m.control.tracer m.control.live)
            (m.goto t (.addInsert (arg t) o) m.control.tracer m.control.live) :=
          AddsAlone.work (.addLookup (AddsAlone.goto_stage ..) ho (Bool.not_eq_true _ ▸ hno))
            (by simp) (by simp)
        have hinsert := hbegin.trans hlookup
        obtain ⟨⟨index, c'⟩, hrun, h⟩ := bind_ok h
        dsimp only at h
        split at h
        · rename_i hc
          cases h
          exact ⟨_, hinsert.trans (AddsAlone.present hidle hc hrun)⟩
        · rename_i hc
          rw [not_not.mp hc] at hrun
          have hslots := hinsert.trans (AddsAlone.insert hrun)
          split at h
          · rename_i hslot
            rw [if_pos hslot] at hslots
            cases h
            exact ⟨_, hslots.trans (AddsAlone.linkChain hidle)⟩
          · rename_i hslot
            rw [if_neg hslot] at hslots
            have hadd : ∃ live', AddsAlone rb code arg t
                (m.goto t (.addAlloc (arg t) o .retry) (m.control.tracer.setIndex index)
                  m.control.live)
                ⟨⟨s', live', m.control.stage⟩, Function.update m.result t (some c)⟩ :=
              AddsAlone.slotted hidle hlock hfits h
            obtain ⟨live', hadd⟩ := hadd
            exact ⟨live', hslots.trans hadd⟩
  · cases h

end Atrace.Signal

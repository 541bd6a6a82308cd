import Atrace.Signal.Breakpoint
import Atrace.Signal.SlotLayout
import Atrace.Signal.SlotThreads
import Atrace.Signal.Handler

/-! Threads interleaving the calls of `breakpoint.c`, one step for each locked section and for each
access to a text or slot word. -/
namespace Atrace.Signal

open Atrace.Lib Tracer

/-- The slot that `slot_alloc` stores through its pointers. -/
def Tracer.takeSlot (s : Tracer) (b : BkptPtr) (slots : SlotHeap) (p : SlotSetPtr) (i : Nat) :
    Tracer :=
  (s.setSlots slots).modifyBkpt b ({ · with slotSet := some p, slotIndex := i })

/-- Where a thread is in `breakpoint_add`, `breakpoint_enable` or `breakpoint_disable`. -/
inductive Stage where
  | idle
  | addLock (b : BkptPtr)
  | addLookup (b : BkptPtr)
  | addInsert (b : BkptPtr) (o : ObjPtr)
  | addAlloc (b : BkptPtr) (o : ObjPtr) (pc : AllocPc)
  | addLoad (b : BkptPtr) (o : ObjPtr)
  | addCopy (b : BkptPtr) (o : ObjPtr) (v : Instr)
  | addBrk (b : BkptPtr) (o : ObjPtr)
  | addReturn (b : BkptPtr) (o : ObjPtr)
  | addFree (b : BkptPtr)
  | addChain (b : BkptPtr) (o : ObjPtr)
  | patchLock (b : BkptPtr) (on : Bool)
  | patchTest (b : BkptPtr) (on : Bool)
  | patchOpen (b : BkptPtr) (on : Bool)
  | patchLoad (b : BkptPtr)
  | patchStore (b : BkptPtr) (v : Instr)
  | patchClose (b : BkptPtr)

namespace Stage

/-- The breakpoint whose `lock` the thread holds. -/
def holds : Stage → Option BkptPtr
  | .idle | .addLock _ | .addFree _ | .patchLock _ _ => none
  | .addLookup b | .addInsert b _ | .addAlloc b _ _ | .addLoad b _ | .addCopy b _ _ | .addBrk b _
  | .addReturn b _ | .addChain b _ | .patchTest b _ | .patchOpen b _ | .patchLoad b
  | .patchStore b _ | .patchClose b => some b

def allocPc : Stage → AllocPc
  | .addAlloc _ _ pc => pc
  | _ => .idle

end Stage

/-- The tracer shared by the threads `κ`, with the slots held by live allocations. -/
structure Control (κ : Type*) where
  tracer : Tracer
  live : List (SlotSetPtr × Nat)
  stage : κ → Stage

variable {κ : Type*} [DecidableEq κ]

namespace Control

variable (k : Control κ)

def move (t : κ) (st : Stage) : Control κ := { k with stage := Function.update k.stage t st }

/-- A step of a thread that leaves `s` behind. -/
def act (t : κ) (st : Stage) (s : Tracer) : Control κ := { k.move t st with tracer := s }

/-- `slot_alloc` and `slot_free` as the threads see them. -/
def alloc : AllocState κ := ⟨k.tracer.slots, fun t => (k.stage t).allocPc, k.live⟩

/-- Nobody holds the lock of the breakpoint. -/
def Free (b : BkptPtr) : Prop := ∀ t, (k.stage t).holds ≠ some b

theorem move_stage (t u : κ) (st : Stage) :
    (k.move t st).stage u = if u = t then st else k.stage u :=
  Function.update_apply ..

/-- A step as the allocator sees it. -/
theorem allocInv_of {k k' : Control κ} (t : κ) (st : Stage) (hk : k'.stage = (k.move t st).stage)
    (h : AllocInv { k.alloc.setPc t st.allocPc with heap := k'.tracer.slots, live := k'.live }) :
    AllocInv k'.alloc := by
  have hpc : (fun u => (k'.stage u).allocPc) =
      Function.update (fun u => (k.stage u).allocPc) t st.allocPc := by
    funext u
    rw [hk, move_stage, Function.update_apply, apply_ite Stage.allocPc]
  rw [alloc, hpc]
  exact h

/-- The allocator does not see a step outside `slot_alloc`. -/
theorem allocInv_act {k : Control κ} {t : κ} {st : Stage} {s : Tracer} (h : AllocInv k.alloc)
    (hs : s.slots = k.tracer.slots) (hst : ∀ rest idx, st.allocPc ≠ .scanning rest idx) :
    AllocInv (k.act t st s).alloc := by
  refine allocInv_of (k := k) t st rfl ?_
  rw [act, hs]
  exact allocInv_setPc h fun rest idx he => (hst rest idx he).elim

/-- The steps of the walk over the sets move the thread and nothing else. -/
theorem eq_setPc_of_walk {t : κ} {u u' : AllocState κ} {e : AllocEvent κ}
    (he : e = .lock t ∨ e = .skip t ∨ e = .unlock t) (h : AllocStep u e u') :
    u' = u.setPc t (u'.pc t) := by
  rcases he with rfl | rfl | rfl <;> cases h <;> simp [AllocState.setPc]

theorem allocInv_walk {k : Control κ} {t : κ} {b : BkptPtr} {o : ObjPtr} {e : AllocEvent κ}
    {u : AllocState κ} (h : AllocInv k.alloc) (he : e = .lock t ∨ e = .skip t ∨ e = .unlock t)
    (hs : AllocStep k.alloc e u) : AllocInv (k.move t (.addAlloc b o (u.pc t))).alloc := by
  have halloc := allocInv_step hs h
  rw [eq_setPc_of_walk he hs] at halloc
  exact allocInv_of t (.addAlloc b o (u.pc t)) rfl halloc

end Control

/-- One step of a thread. A call that fails an assertion or faults, as a store to a write-protected
page does, has no further step; `code` is what the memory for new slots does not overlap. -/
inductive ControlStep (rb : RbLib BpEntry) (code : Addr → Prop) :
    Control κ → κ → Control κ → Prop where
  | addCall {k : Control κ} {t : κ} {b : BkptPtr} (hst : k.stage t = .idle)
      (hchain : k.tracer.chainEmpty b = true) :
      ControlStep rb code k t (k.move t (.addLock b))
  | addLock {k : Control κ} {t : κ} {b : BkptPtr} (hst : k.stage t = .addLock b) (hf : k.Free b) :
      ControlStep rb code k t (k.move t (.addLookup b))
  | addRefused {k : Control κ} {t : κ} {b : BkptPtr} (hst : k.stage t = .addLookup b)
      (hno : ∀ o, k.tracer.objectGetByAddress (k.tracer.enterAddr b) = some o →
        k.tracer.noBkpt o = true) :
      ControlStep rb code k t (k.move t .idle)
  | addLookup {k : Control κ} {t : κ} {b : BkptPtr} {o : ObjPtr} (hst : k.stage t = .addLookup b)
      (ho : k.tracer.objectGetByAddress (k.tracer.enterAddr b) = some o)
      (hno : k.tracer.noBkpt o = false) :
      ControlStep rb code k t (k.move t (.addInsert b o))
  | addPresent {k : Control κ} {t : κ} {b : BkptPtr} {o : ObjPtr} {index : BpIndex BpEntry}
      {c : Int} (hst : k.stage t = .addInsert b o) (hc : c ≠ 0)
      (hrun : k.tracer.index.breakpointRbSearchInsert rb ⟨b, .enter⟩ = .ok (index, c)) :
      ControlStep rb code k t (k.act t .idle (k.tracer.setIndex index))
  | addInsert {k : Control κ} {t : κ} {b : BkptPtr} {o : ObjPtr} {index : BpIndex BpEntry}
      (hst : k.stage t = .addInsert b o)
      (hrun : k.tracer.index.breakpointRbSearchInsert rb ⟨b, .enter⟩ = .ok (index, 0)) :
      ControlStep rb code k t (k.act t (if (k.tracer.bkpt b).hasAttr .NO_SLOT then .addChain b o
        else .addAlloc b o .retry) (k.tracer.setIndex index))
  | walk {k : Control κ} {t : κ} {b : BkptPtr} {o : ObjPtr} {pc : AllocPc} {e : AllocEvent κ}
      {a : AllocState κ} (hst : k.stage t = .addAlloc b o pc)
      (he : e = .lock t ∨ e = .skip t ∨ e = .unlock t) (h : AllocStep k.alloc e a) :
      ControlStep rb code k t (k.move t (.addAlloc b o (a.pc t)))
  | grow {k : Control κ} {t : κ} {b : BkptPtr} {o : ObjPtr} {new : NewSlots}
      (hst : k.stage t = .addAlloc b o .growing) (hlock : ¬ k.alloc.Reading)
      (hnew : new.Fits code k.tracer.slots) :
      ControlStep rb code k t
        (k.act t (.addAlloc b o .retry) (k.tracer.setSlots (k.tracer.slots.slotSetAdd new)))
  | claim {k : Control κ} {t : κ} {b : BkptPtr} {o : ObjPtr} {p : SlotSetPtr}
      {ps : List SlotSetPtr} {idx j pos : Nat}
      (hst : k.stage t = .addAlloc b o (.scanning (p :: ps) idx))
      (hv : (k.tracer.slots.slotSet p).visit idx = .found j pos) :
      ControlStep rb code k t
        { k.act t (.addLoad b o) (k.tracer.takeSlot b (k.tracer.slots.modify p (·.claim j pos)) p
            (j * uintBitNum + pos)) with
          live := (p, j * uintBitNum + pos) :: k.live }
  | addLoad {k : Control κ} {t : κ} {b : BkptPtr} {o : ObjPtr} (hst : k.stage t = .addLoad b o) :
      ControlStep rb code k t
        (k.move t (.addCopy b o (loadInstr k.tracer.mem (k.tracer.enterAddr b))))
  | addCopy {k : Control κ} {t : κ} {b : BkptPtr} {o : ObjPtr} {v : Instr} {a : Addr}
      (hst : k.stage t = .addCopy b o v) (ha : k.tracer.slotAddr b = .ok a) :
      ControlStep rb code k t
        (k.act t (.addBrk b o) { k.tracer with mem := storeInstr k.tracer.mem a v })
  | addBrk {k : Control κ} {t : κ} {b : BkptPtr} {o : ObjPtr} {a : Addr}
      (hst : k.stage t = .addBrk b o) (ha : k.tracer.slotAddr b = .ok a) :
      ControlStep rb code k t (k.act t (.addReturn b o)
        ({ k.tracer with mem := storeInstr k.tracer.mem (a + 4) brkInstr }.setReturnAddr b (a + 4)))
  | addReturnPresent {k : Control κ} {t : κ} {b : BkptPtr} {o : ObjPtr} {index : BpIndex BpEntry}
      {c : Int} (hst : k.stage t = .addReturn b o) (hc : c ≠ 0)
      (hrun : k.tracer.index.breakpointRbSearchInsert rb ⟨b, .ret⟩ = .ok (index, c)) :
      ControlStep rb code k t (k.act t (.addFree b) (k.tracer.setIndex index))
  | addReturn {k : Control κ} {t : κ} {b : BkptPtr} {o : ObjPtr} {index : BpIndex BpEntry}
      (hst : k.stage t = .addReturn b o)
      (hrun : k.tracer.index.breakpointRbSearchInsert rb ⟨b, .ret⟩ = .ok (index, 0)) :
      ControlStep rb code k t (k.act t (.addChain b o) (k.tracer.setIndex index))
  | addFree {k : Control κ} {t : κ} {b : BkptPtr} {p : SlotSetPtr} {slots : SlotHeap}
      (hst : k.stage t = .addFree b) (hp : (k.tracer.bkpt b).slotSet = some p)
      (hfree : k.tracer.slots.slotFree p (k.tracer.bkpt b).slotIndex = .ok slots) :
      ControlStep rb code k t
        { k.act t .idle (k.tracer.setSlots slots) with
          live := k.live.erase (p, (k.tracer.bkpt b).slotIndex) }
  | addChain {k : Control κ} {t : κ} {b : BkptPtr} {o : ObjPtr} (hst : k.stage t = .addChain b o) :
      ControlStep rb code k t (k.act t .idle (k.tracer.linkChain b o))
  | patchCall {k : Control κ} {t : κ} {b : BkptPtr} {on : Bool} (hst : k.stage t = .idle)
      (hlinked : k.tracer.index.emptyNode ⟨b, .enter⟩ = false) :
      ControlStep rb code k t (k.move t (.patchLock b on))
  | patchLock {k : Control κ} {t : κ} {b : BkptPtr} {on : Bool}
      (hst : k.stage t = .patchLock b on) (hf : k.Free b) :
      ControlStep rb code k t (k.move t (.patchTest b on))
  | patchDone {k : Control κ} {t : κ} {b : BkptPtr} {on : Bool} (hst : k.stage t = .patchTest b on)
      (hon : (k.tracer.bkpt b).hasAttr .ENABLE = on) :
      ControlStep rb code k t (k.move t .idle)
  | patchTest {k : Control κ} {t : κ} {b : BkptPtr} {on : Bool} (hst : k.stage t = .patchTest b on)
      (hon : (k.tracer.bkpt b).hasAttr .ENABLE ≠ on) :
      ControlStep rb code k t (k.act t (.patchOpen b on)
        (k.tracer.modifyBkpt b fun bp => if on then bp.setAttr .ENABLE else bp.clrAttr .ENABLE))
  | patchOpen {k : Control κ} {t : κ} {b : BkptPtr} {on ok : Bool} {s : Tracer} {c : Int}
      (hst : k.stage t = .patchOpen b on)
      (hrun : k.tracer.objectMemoryUnlock ok (k.tracer.bkpt b).obj = .ok (s, c)) :
      ControlStep rb code k t (k.act t (if on then .patchStore b brkInstr else .patchLoad b) s)
  | patchLoad {k : Control κ} {t : κ} {b : BkptPtr} {a : Addr} (hst : k.stage t = .patchLoad b)
      (ha : k.tracer.slotAddr b = .ok a) :
      ControlStep rb code k t (k.move t (.patchStore b (loadInstr k.tracer.mem a)))
  | patchStore {k : Control κ} {t : κ} {b : BkptPtr} {v : Instr} {s : Tracer}
      (hst : k.stage t = .patchStore b v)
      (hrun : k.tracer.storeText (k.tracer.enterAddr b) v = .ok s) :
      ControlStep rb code k t (k.act t (.patchClose b) s)
  | patchClose {k : Control κ} {t : κ} {b : BkptPtr} {ok : Bool} {s : Tracer} {c : Int}
      (hst : k.stage t = .patchClose b)
      (hrun : k.tracer.objectMemoryLock ok (k.tracer.bkpt b).obj = .ok (s, c)) :
      ControlStep rb code k t (k.act t .idle s)

end Atrace.Signal

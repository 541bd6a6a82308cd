import Atrace.Lib.Memory
import Atrace.Signal.BpIndex
import Atrace.Signal.Object
import Atrace.Signal.SlotSet

/-! Breakpoints of `breakpoint.c`: `breakpoint_add`, `breakpoint_enable`, `breakpoint_disable`.

One call at a time; the locks play no part here. -/
namespace Atrace.Signal

open Atrace.Lib

/-- `BKPT_ATTR`, in the order that fixes the bit of each attribute. -/
inductive BkptAttr where
  | ENABLE
  | TRACE
  | NO_SLOT
deriving DecidableEq, Repr

/-- `BKPT_ATTR_OFFSET` -/
def BkptAttr.offset : BkptAttr → Nat
  | .ENABLE => 0
  | .TRACE => 1
  | .NO_SLOT => 2

/-- `BKPT_ATTR_FLAG` -/
def BkptAttr.flag (a : BkptAttr) : BitVec 32 := 1#32 <<< a.offset

inductive EntryKind where
  | enter
  | ret
deriving DecidableEq, Repr

/-- The `bp_enter` or `bp_return` of the breakpoint it points back to. -/
structure BpEntry where
  bkpt : BkptPtr
  kind : EntryKind
deriving DecidableEq, Repr

/-- The address of an `object_t`: its position in the registry, which only grows at the end. -/
abbrev ObjPtr := Nat

/-- `struct breakpoint` without its two entries; `none` is a `NULL` pointer. -/
structure Breakpoint where
  attr : BitVec 32
  slotSet : Option SlotSetPtr
  slotIndex : Nat
  obj : Option ObjPtr
deriving DecidableEq

namespace Breakpoint

/-- `breakpoint_attr_flag` -/
def hasAttr (bp : Breakpoint) (a : BkptAttr) : Bool := bp.attr &&& a.flag != 0

/-- `breakpoint_attr_set` -/
def setAttr (bp : Breakpoint) (a : BkptAttr) : Breakpoint := { bp with attr := bp.attr ||| a.flag }

/-- `breakpoint_attr_clr` -/
def clrAttr (bp : Breakpoint) (a : BkptAttr) : Breakpoint :=
  { bp with attr := bp.attr &&& ~~~ a.flag }

theorem hasAttr_eq (bp : Breakpoint) (a : BkptAttr) : bp.hasAttr a = bp.attr.getLsbD a.offset :=
  and_flag_ne_zero bp.attr (by cases a <;> decide)

theorem hasAttr_setAttr (bp : Breakpoint) (a b : BkptAttr) :
    (bp.setAttr a).hasAttr b = (bp.hasAttr b || decide (a = b)) := by
  rw [hasAttr_eq, hasAttr_eq, setAttr, BitVec.getLsbD_or]
  cases a <;> cases b <;> simp [BkptAttr.flag, BkptAttr.offset]

theorem hasAttr_clrAttr (bp : Breakpoint) (a b : BkptAttr) :
    (bp.clrAttr a).hasAttr b = (bp.hasAttr b && decide (a ≠ b)) := by
  rw [hasAttr_eq, hasAttr_eq, clrAttr, BitVec.getLsbD_and]
  cases a <;> cases b <;> simp [BkptAttr.flag, BkptAttr.offset]

end Breakpoint

/-- `*(unsigned int *)a` -/
def loadInstr (m : Memory 64) (a : Addr) : Instr := m.load a 4

def storeInstr (m : Memory 64) (a : Addr) (v : Instr) : Memory 64 := m.store (n := 4) a v

@[simp] theorem loadInstr_storeInstr (m : Memory 64) (a : Addr) (v : Instr) :
    loadInstr (storeInstr m a v) a = v :=
  Memory.load_store (n := 4) (by decide) v

/-- Two words that neither wrap nor overlap. -/
structure WordsApart (a b : Addr) : Prop where
  left : a.toNat + 4 ≤ 2 ^ 64
  right : b.toNat + 4 ≤ 2 ^ 64
  apart : a.toNat + 4 ≤ b.toNat ∨ b.toNat + 4 ≤ a.toNat

theorem loadInstr_storeInstr_apart {a b : Addr} (h : WordsApart a b) (m : Memory 64) (v : Instr) :
    loadInstr (storeInstr m b v) a = loadInstr m a :=
  Memory.load_store_apart (Memory.apart_of_le h.left h.right h.apart) v

theorem WordsApart.symm {a b : Addr} (h : WordsApart a b) : WordsApart b a :=
  ⟨h.right, h.left, h.apart.symm⟩

theorem wordsApart_of_aligned {a b : Addr} (ha : 4 ∣ a.toNat) (hb : 4 ∣ b.toNat) (hab : a ≠ b) :
    WordsApart a b := by
  have hla := a.isLt
  have hlb := b.isLt
  have hne : a.toNat ≠ b.toNat := fun he => hab (BitVec.toNat_inj.mp he)
  refine ⟨?_, ?_, ?_⟩ <;> omega

/-- The state of `breakpoint.c` and `object.c`, with the memory of the process. -/
structure Tracer where
  index : BpIndex BpEntry
  slots : SlotHeap
  objects : List Object
  bkpt : BkptPtr → Breakpoint
  mem : Memory 64
  writable : Addr → Bool

namespace Tracer

variable (rb : RbLib BpEntry) (s : Tracer) (b : BkptPtr)

/-- `bkpt->bp_enter.address` -/
def enterAddr : Addr := s.index.address ⟨b, .enter⟩

/-- `bkpt->bp_return.address` -/
def returnAddr : Addr := s.index.address ⟨b, .ret⟩

def setIndex (t : BpIndex BpEntry) : Tracer := { s with index := t }

@[simp] theorem setIndex_self (s : Tracer) : s.setIndex s.index = s := rfl

def setSlots (slots : SlotHeap) : Tracer := { s with slots := slots }

def setReturnAddr (a : Addr) : Tracer :=
  { s with index := s.index.setAddress ⟨b, .ret⟩ a }

def modifyBkpt (f : Breakpoint → Breakpoint) : Tracer :=
  { s with bkpt := Function.update s.bkpt b (f (s.bkpt b)) }

theorem modifyBkpt_bkpt (f : Breakpoint → Breakpoint) (c : BkptPtr) :
    (s.modifyBkpt b f).bkpt c = if c = b then f (s.bkpt b) else s.bkpt c :=
  Function.update_apply ..

/-- `list_empty(&bkpt->breakpoint_chain)` -/
def chainEmpty : Bool := s.objects.all fun o => decide (b ∉ o.breakpointChain)

/-- `breakpoint_find` -/
def breakpointFind (addr : Addr) : Option BkptPtr :=
  (s.index.breakpointRbFind addr).map BpEntry.bkpt

/-- `object_get_by_address` -/
def objectGetByAddress (addr : Addr) : Option ObjPtr := s.objects.findIdx? (·.covers addr)

/-- `object_attr_flag_NO_BKPT` -/
def noBkpt (o : ObjPtr) : Bool := (s.objects[o]?.map (·.hasAttr .NO_BKPT)).getD false

/-- Link the breakpoint at the head of the chain of its object. -/
def linkChain (o : ObjPtr) : Tracer :=
  { s.modifyBkpt b ({ · with obj := some o }) with
    objects := s.objects.modify o fun obj =>
      { obj with breakpointChain := b :: obj.breakpointChain } }

/-- Copy the displaced instruction and a breakpoint instruction into slot `i` of `p`. -/
def slotInit (p : SlotSetPtr) (i : Nat) : Tracer :=
  let instrPtr := (s.slots.slotSet p).slotOffset i
  let s := s.modifyBkpt b ({ · with slotSet := some p, slotIndex := i })
  let mem := storeInstr s.mem instrPtr (loadInstr s.mem (s.enterAddr b))
  { s with mem := storeInstr mem (instrPtr + 4) brkInstr }.setReturnAddr b (instrPtr + 4)

/-- The part of `breakpoint_add` that only slot-backed breakpoints take. -/
def addSlot (news : List NewSlots) : Except Fault (Tracer × Int) := do
  let (slots, _, p, i) ← s.slots.slotAlloc news
  let s := (s.setSlots slots).slotInit b p i
  let (t, code) ← s.index.breakpointRbSearchInsert rb ⟨b, .ret⟩
  let s := s.setIndex t
  if code ≠ 0 then
    let slots ← s.slots.slotFree p i
    pure (s.setSlots slots, -4)
  else pure (s, 0)

/-- `breakpoint_add` -/
def breakpointAdd (news : List NewSlots) : Except Fault (Tracer × Int) :=
  if s.chainEmpty b then
    match s.objectGetByAddress (s.enterAddr b) with
    | none => .ok (s, -1)
    | some o =>
      if s.noBkpt o then .ok (s, -2)
      else do
        let (t, code) ← s.index.breakpointRbSearchInsert rb ⟨b, .enter⟩
        let s := s.setIndex t
        if code ≠ 0 then pure (s, -3)
        else
          let (s, code) ← if (s.bkpt b).hasAttr .NO_SLOT then pure (s, 0) else s.addSlot rb b news
          if code ≠ 0 then pure (s, code)
          else pure (s.linkChain b o, 0)
  else .error .assertion

/-- `object_memory_lock` and `object_memory_unlock`: `mprotect` of the range of an object, whose
bounds are page boundaries, with the result of the system call. -/
def mprotectText (ok write : Bool) (obj : Option ObjPtr) : Except Fault (Tracer × Int) :=
  match obj with
  | none => .error .assertion
  | some o =>
    match s.objects[o]? with
    | none => .error .badAccess
    | some o =>
      if ok then
        .ok ({ s with writable := fun a =>
          if o.textStart ≤ a ∧ a < o.textEnd then write else s.writable a }, 0)
      else .ok (s, -1)

def objectMemoryLock (ok : Bool) (obj : Option ObjPtr) : Except Fault (Tracer × Int) :=
  s.mprotectText ok false obj

def objectMemoryUnlock (ok : Bool) (obj : Option ObjPtr) : Except Fault (Tracer × Int) :=
  s.mprotectText ok true obj

/-- A store to a text word, which faults where the text is write-protected. -/
def storeText (a : Addr) (v : Instr) : Except Fault Tracer :=
  if (List.range 4).all fun i => s.writable (a + BitVec.ofNat 64 i) then
    .ok { s with mem := storeInstr s.mem a v }
  else .error .badAccess

/-- What the two `mprotect` calls of an operation return. -/
structure Mprotect where
  unlock : Bool
  lock : Bool

/-- Write one instruction over the breakpoint's address, between unlocking and locking the text. -/
def patchText (mp : Mprotect) (v : Instr) : Except Fault Tracer := do
  let (s, _) ← s.objectMemoryUnlock mp.unlock (s.bkpt b).obj
  let s ← s.storeText (s.enterAddr b) v
  let (s, _) ← s.objectMemoryLock mp.lock (s.bkpt b).obj
  pure s

/-- `breakpoint_enable` -/
def breakpointEnable (mp : Mprotect) : Except Fault (Tracer × Int) :=
  if s.index.emptyNode ⟨b, .enter⟩ then .error .assertion
  else if (s.bkpt b).hasAttr .ENABLE then .ok (s, 0)
  else do
    let s ← (s.modifyBkpt b (·.setAttr .ENABLE)).patchText b mp brkInstr
    pure (s, 0)

/-- `breakpoint_disable`; reading the slot of a breakpoint without one follows `NULL`. -/
def breakpointDisable (mp : Mprotect) : Except Fault (Tracer × Int) :=
  if s.index.emptyNode ⟨b, .enter⟩ then .error .assertion
  else if (s.bkpt b).hasAttr .ENABLE then
    match (s.bkpt b).slotSet with
    | none => .error .badAccess
    | some p => do
      let instrPtr := (s.slots.slotSet p).slotOffset (s.bkpt b).slotIndex
      let s := s.modifyBkpt b (·.clrAttr .ENABLE)
      let s ← s.patchText b mp (loadInstr s.mem instrPtr)
      pure (s, 0)
  else .ok (s, 0)

section Chain

variable {objs : List Object} {o : Nat}

theorem mem_chain_modify (ho : o < objs.length) (b c : BkptPtr) :
    (∃ obj ∈ objs.modify o fun obj => { obj with breakpointChain := b :: obj.breakpointChain },
      c ∈ obj.breakpointChain) ↔ c = b ∨ ∃ obj ∈ objs, c ∈ obj.breakpointChain := by
  induction objs generalizing o with
  | nil => simp at ho
  | cons x xs ih =>
    cases o with
    | zero => simp [or_assoc]
    | succ o =>
      have ih := ih (o := o) (by simpa using ho)
      simp only [List.modify_succ_cons, List.mem_cons, exists_eq_or_imp, ih]
      exact or_left_comm

theorem findIdx?_modify {f : Object → Object} {p : Object → Bool} (hf : ∀ obj, p (f obj) = p obj)
    (o : Nat) : (objs.modify o f).findIdx? p = objs.findIdx? p := by
  induction objs generalizing o with
  | nil => simp
  | cons x xs ih =>
    cases o with
    | zero => simp [List.findIdx?_cons, hf]
    | succ o => simp [List.findIdx?_cons, ih]

end Chain

end Tracer

end Atrace.Signal

import Mathlib.Data.Set.Function
import Atrace.Lib.Bitmap
import Atrace.Lib.Memory
import Atrace.Signal.Common

/-! Breakpoints of the ptrace tracer: `src/breakpoint.c` and `src/arch-x86/breakpoint.c`. -/
namespace Atrace.Ptrace

open Atrace.Lib Signal

/-- `addr_t` and `instr_t`. -/
abbrev Word := BitVec 64

/-- The address of a `struct breakpoint` returned by `calloc`. -/
abbrev BkptPtr := Nat

/-- The address of a `struct object`: its position in the list `objects`. -/
abbrev ObjPtr := Nat

/-- The attributes of a breakpoint. -/
inductive BkptFlag where
  | ENTER_CTX
  | ENABLE
deriving DecidableEq, Repr

def BkptFlag.offset : BkptFlag → Nat
  | .ENTER_CTX => 0
  | .ENABLE => 1

/-- `BKPT_F_ENTER_CTX` and `BKPT_F_ENABLE` -/
def BkptFlag.flag (f : BkptFlag) : BitVec 32 := 1#32 <<< f.offset

/-- The test `attr & BKPT_F_...`. -/
def hasFlag (attr : BitVec 32) (f : BkptFlag) : Bool := attr &&& f.flag != 0

/-- `struct breakpoint` without its list links. -/
structure Breakpoint where
  address : Word
  oriInstrction : Word
  attr : BitVec 32
deriving DecidableEq

namespace Breakpoint

def enabled (bp : Breakpoint) : Bool := hasFlag bp.attr .ENABLE

/-- `bp->attr |= BKPT_F_ENABLE` -/
def setEnable (bp : Breakpoint) : Breakpoint :=
  { bp with attr := bp.attr ||| BkptFlag.ENABLE.flag }

/-- `bp->attr &= (~BKPT_F_ENABLE)` -/
def clrEnable (bp : Breakpoint) : Breakpoint :=
  { bp with attr := bp.attr &&& ~~~BkptFlag.ENABLE.flag }

end Breakpoint

theorem hasFlag_eq (attr : BitVec 32) (f : BkptFlag) : hasFlag attr f = attr.getLsbD f.offset :=
  and_flag_ne_zero attr (by cases f <;> decide)

@[simp] theorem enabled_setEnable (bp : Breakpoint) : bp.setEnable.enabled = true := by
  simp [Breakpoint.enabled, hasFlag_eq, Breakpoint.setEnable, BkptFlag.flag, BkptFlag.offset]

@[simp] theorem enabled_clrEnable (bp : Breakpoint) : bp.clrEnable.enabled = false := by
  simp [Breakpoint.enabled, hasFlag_eq, Breakpoint.clrEnable, BkptFlag.flag, BkptFlag.offset]

/-- The one-byte breakpoint instruction `int3`. -/
def int3 : BitVec 8 := 0xCC

/-- `arch_make_breakpoint` -/
def archMakeBreakpoint (oriInstr : Word) : Word := oriInstr &&& ~~~0xFF ||| 0xCC

/-- `arch_remove_breakpoint` -/
def archRemoveBreakpoint (instr oriInstr : Word) : Except Fault Word :=
  if instr &&& 0xFF = 0xCC then .ok (instr &&& ~~~0xFF ||| oriInstr &&& 0xFF)
  else .error .assertion

/-- `struct object`, with the breakpoints linked on its chain. -/
structure Object where
  textStart : Word
  textEnd : Word
  breakpointChain : List BkptPtr
deriving DecidableEq

/-- The tracer's breakpoints and objects, with the memory of the tracee. The list `live` holds
the breakpoints that `calloc` has returned and nobody has freed. -/
structure Profiler where
  mem : Memory 64
  bkpt : BkptPtr → Breakpoint
  objects : List Object
  live : List BkptPtr

namespace Profiler

variable (s : Profiler) (b : BkptPtr)

def setBkpt (bp : Breakpoint) : Profiler := { s with bkpt := Function.update s.bkpt b bp }

/-- `ptrace(PTRACE_PEEKTEXT, ...)` when it succeeds: any 8 bytes, the lowest address first. -/
def peekText (a : Word) : Word := s.mem.load a 8

/-- `ptrace(PTRACE_POKETEXT, ...)` when it succeeds. -/
def pokeText (a v : Word) : Profiler := { s with mem := s.mem.store (n := 8) a v }

/-- `breakpoint_enable` -/
def breakpointEnable : Profiler :=
  let bp := s.bkpt b
  if bp.enabled then s
  else
    let bp := { bp with oriInstrction := s.peekText bp.address }
    (s.pokeText bp.address (archMakeBreakpoint bp.oriInstrction)).setBkpt b bp.setEnable

/-- `breakpoint_disable` -/
def breakpointDisable : Except Fault Profiler :=
  let bp := s.bkpt b
  if bp.enabled then do
    let instr ← archRemoveBreakpoint (s.peekText bp.address) bp.oriInstrction
    pure ((s.pokeText bp.address instr).setBkpt b bp.clrEnable)
  else .ok s

end Profiler

section Words

variable {m : Memory 64} {a v w : Word}

theorem and_ff (v : Word) : v &&& 0xFF = (v.setWidth 8).setWidth 64 := by
  have hmask : (0xFF : Word) = (BitVec.allOnes 8).setWidth 64 := rfl
  apply BitVec.eq_of_getLsbD_eq
  intro i hi
  rw [hmask, BitVec.getLsbD_and]
  simp only [BitVec.getLsbD_setWidth, BitVec.getLsbD_allOnes]
  cases v.getLsbD i <;> simp

/-- Only the lowest byte of the word changes. -/
theorem store_merge (c : BitVec 8) :
    m.store (n := 8) a (m.load a 8 &&& ~~~0xFF ||| c.setWidth 64) = Function.update m a c := by
  have hmask : (0xFF : Word) = (BitVec.allOnes 8).setWidth 64 := rfl
  have hbit : ∀ i, (m.load a 8 &&& ~~~0xFF ||| c.setWidth 64 : Word).getLsbD i =
      if i < 8 then c.getLsbD i else (m.load a 8).getLsbD i := by
    intro i
    rw [hmask]
    simp only [BitVec.getLsbD_or, BitVec.getLsbD_and, BitVec.getLsbD_not, BitVec.getLsbD_setWidth,
      BitVec.getLsbD_allOnes]
    split
    · rename_i hi
      have h64 : i < 64 := by omega
      simp [hi, h64]
    · rename_i hi
      have hc : c.getLsbD i = false := BitVec.getLsbD_of_ge c i (by omega)
      by_cases h64 : i < 64
      · simp [hi, h64, hc]
      · have hm : (m.load a 8).getLsbD i = false := BitVec.getLsbD_of_ge _ i (by omega)
        simp [h64, hm]
  have hhigh : ∀ i, 8 ≤ i → (m.load a 8 &&& ~~~0xFF ||| c.setWidth 64 : Word).getLsbD i =
      (m.load a 8).getLsbD i := by
    intro i hi
    rw [hbit, if_neg (by omega)]
  have hlow : (m.load a 8 &&& ~~~0xFF ||| c.setWidth 64 : Word).setWidth 8 = c := by
    apply BitVec.eq_of_getLsbD_eq
    intro i hi
    rw [BitVec.getLsbD_setWidth, hbit]
    simp [hi]
  rw [Memory.store_lowByte (by omega) hhigh, hlow]

theorem and_ff_eq_int3_iff : v &&& 0xFF = 0xCC ↔ v.setWidth 8 = int3 := by
  have hcc : (0xCC : Word) = int3.setWidth 64 := rfl
  rw [and_ff, hcc]
  constructor
  · intro h
    have h8 := congrArg (BitVec.setWidth 8) h
    simpa using h8
  · intro h
    rw [h]

end Words

namespace Profiler

variable {s s' : Profiler} {b c : BkptPtr}

theorem enable_of_enabled (h : (s.bkpt b).enabled = true) : s.breakpointEnable b = s := by
  simp [breakpointEnable, h]

/-- The byte under the breakpoint becomes the breakpoint instruction, and nothing else changes. -/
theorem enable_of_disabled (h : (s.bkpt b).enabled = false) :
    s.breakpointEnable b =
      { s with
        mem := Function.update s.mem (s.bkpt b).address int3
        bkpt := Function.update s.bkpt b
          { s.bkpt b with oriInstrction := s.peekText (s.bkpt b).address }.setEnable } := by
  have hcc : (0xCC : Word) = int3.setWidth 64 := rfl
  simp only [breakpointEnable, h, Bool.false_eq_true, if_false, pokeText, setBkpt, peekText,
    archMakeBreakpoint]
  rw [hcc, store_merge]

theorem disable_of_disabled (h : (s.bkpt b).enabled = false) :
    s.breakpointDisable b = .ok s := by
  simp [breakpointDisable, h]

/-- The assertion is about the byte under the breakpoint; only that byte is restored. -/
theorem disable_of_enabled (h : (s.bkpt b).enabled = true) :
    s.breakpointDisable b =
      if s.mem (s.bkpt b).address = int3 then
        .ok { s with
          mem := Function.update s.mem (s.bkpt b).address ((s.bkpt b).oriInstrction.setWidth 8)
          bkpt := Function.update s.bkpt b (s.bkpt b).clrEnable }
      else .error .assertion := by
  have hbyte : s.peekText (s.bkpt b).address &&& 0xFF = 0xCC ↔
      s.mem (s.bkpt b).address = int3 := by
    rw [and_ff_eq_int3_iff, peekText, Memory.setWidth_load (by omega)]
  simp only [breakpointDisable, h, if_true, archRemoveBreakpoint, hbyte]
  split
  · rw [ok_bind, and_ff, peekText, pokeText, store_merge]
    rfl
  · rfl

end Profiler

end Atrace.Ptrace

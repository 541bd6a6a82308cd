import Mathlib.Algebra.Group.Int.Defs
import Mathlib.Algebra.Group.Nat.Defs

/-! Types and constants of `common.h` and `breakpoint.h` of the in-process tracer. -/
namespace Atrace.Signal

/-- `addr_t`, a 64-bit `uintptr_t`. -/
abbrev Addr := BitVec 64

/-- `instr_t`, one 32-bit instruction word. -/
abbrev Instr := BitVec 32

/-- `SLOT_PAGE_SIZE` -/
def slotPageSize : Nat := 4096

/-- `SLOT_PAGE_NUM` -/
def slotPageNum : Nat := 2

/-- `SLOT_SIZE` -/
def slotSize : Nat := 8

/-- `SLOT_NUM` -/
def slotNum : Nat := slotPageNum * slotPageSize / slotSize

/-- `UINT_BIT_NUM` -/
def uintBitNum : Nat := 32

/-- `SLOT_MAP_LEN` -/
def slotMapLen : Nat := (slotNum + uintBitNum - 1) / uintBitNum

/-- `brk #0x03`, the breakpoint instruction. -/
def brkInstr : Instr := 0xD4200060

/-- The ways a call ends without returning: a failed `assert`, an `abort()`,
an access outside the memory it is meant for. -/
inductive Fault where
  | assertion
  | abort
  | badAccess
deriving DecidableEq, Repr

@[simp] theorem ok_bind {ε α β : Type} (a : α) (f : α → Except ε β) :
    (Except.ok a : Except ε α) >>= f = f a := rfl

@[simp] theorem error_bind {α β : Type} (e : Fault) (f : α → Except Fault β) :
    (Except.error e : Except Fault α) >>= f = .error e := rfl

/-- A computation that returns has returned from its first step. -/
theorem bind_ok {ε α β : Type} {x : Except ε α} {f : α → Except ε β} {b : β}
    (h : x >>= f = .ok b) : ∃ a, x = .ok a ∧ f a = .ok b := by
  cases x with
  | error e => cases h
  | ok a => exact ⟨a, rfl, h⟩

theorem bind_error {ε α β : Type} {x : Except ε α} {f : α → Except ε β} {e : ε}
    (h : x >>= f = .error e) : x = .error e ∨ ∃ a, x = .ok a ∧ f a = .error e := by
  cases x with
  | error _ =>
    cases h
    exact Or.inl rfl
  | ok a => exact Or.inr ⟨a, rfl, h⟩

@[simp] theorem slotNum_eq : slotNum = 1024 := rfl

@[simp] theorem uintBitNum_eq : uintBitNum = 32 := rfl

@[simp] theorem slotMapLen_eq : slotMapLen = 32 := rfl

@[simp] theorem slotSize_eq : slotSize = 8 := rfl

@[simp] theorem slotPageSize_eq : slotPageSize = 4096 := rfl

end Atrace.Signal

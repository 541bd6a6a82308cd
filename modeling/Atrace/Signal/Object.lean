import Atrace.Lib.Bitmap
import Atrace.Signal.Common

/-! The executable mappings of the process, `struct object` of `object.h`. -/
namespace Atrace.Signal

open Atrace.Lib

/-- The address of a `breakpoint_t` returned by `calloc`. -/
abbrev BkptPtr := Nat

/-- `OBJ_ATTR`, in the order that fixes the bit of each attribute. -/
inductive ObjAttr where
  | PRIVATE
  | EXECUTE
  | WRITE
  | READ
  | NO_BKPT
deriving DecidableEq, Repr

/-- `OBJ_ATTR_OFFSET` -/
def ObjAttr.offset : ObjAttr → Nat
  | .PRIVATE => 0
  | .EXECUTE => 1
  | .WRITE => 2
  | .READ => 3
  | .NO_BKPT => 4

/-- `OBJ_ATTR_FLAG` -/
def ObjAttr.flag (a : ObjAttr) : BitVec 8 := 1#8 <<< a.offset

/-- `struct object`, with the breakpoints linked on its chain. -/
structure Object where
  fileName : List UInt8
  textStart : Addr
  textEnd : Addr
  textAttr : BitVec 8
  breakpointChain : List BkptPtr
deriving DecidableEq

namespace Object

/-- `object_attr_set` -/
def setAttr (o : Object) (a : ObjAttr) : Object := { o with textAttr := o.textAttr ||| a.flag }

/-- `object_attr_flag` -/
def hasAttr (o : Object) (a : ObjAttr) : Bool := o.textAttr &&& a.flag != 0

/-- The range test of `object_get_by_address`; both bounds are included. -/
def covers (o : Object) (addr : Addr) : Bool := o.textStart ≤ addr && addr ≤ o.textEnd

end Object

/-- The bits of an attribute byte. -/
def attrBit (attr : BitVec 8) (a : ObjAttr) : Bool := attr.getLsbD a.offset

theorem attrBit_flag (a b : ObjAttr) : attrBit a.flag b = decide (a = b) := by
  cases a <;> cases b <;> decide

theorem attrBit_or (x y : BitVec 8) (a : ObjAttr) :
    attrBit (x ||| y) a = (attrBit x a || attrBit y a) := by
  simp [attrBit]

theorem hasAttr_eq (o : Object) (a : ObjAttr) : o.hasAttr a = attrBit o.textAttr a :=
  and_flag_ne_zero o.textAttr (by cases a <;> decide)

end Atrace.Signal

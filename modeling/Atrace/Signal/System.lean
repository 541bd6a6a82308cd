import Atrace.Signal.ControlInv
import Atrace.Signal.Stepping

/-! The threads of a program under breakpoints, interleaved with the calls that add, enable and
disable them, and the same program without breakpoints. -/
namespace Atrace.Signal

open Atrace.Lib Tracer

variable {ι κ σ : Type*} [DecidableEq ι] [DecidableEq κ]

/-- The threads of the program alone; `data` is everything it can see but its text. -/
structure Program (ι σ : Type*) where
  pc : ι → Addr
  data : σ

/-- The instructions of the original text. -/
inductive ProgramStep (mem : Memory 64) (isa : Isa ι σ) : Program ι σ → ι → Program ι σ → Prop where
  | exec {m : Program ι σ} {t : ι} {data : σ} {a : Addr}
      (hw : loadInstr mem (m.pc t) ≠ brkInstr)
      (hrun : isa t (loadInstr mem (m.pc t)) (m.pc t) m.data = (data, a)) :
      ProgramStep mem isa m t ⟨Function.update m.pc t a, data⟩

/-- Where a thread is in `sigtrap_handler`, between two of its locked sections. -/
inductive TrapPc where
  | running
  | lookup
  | adding (p : ThreadPtr)
  | finding (p : ThreadPtr)
  | dispatching (p : ThreadPtr) (b : BkptPtr)

/-- The process: the threads `ι` run the program, the threads `κ` make the calls. -/
structure System (ι κ σ : Type*) where
  control : Control κ
  threads : ThreadMap
  pc : ι → Addr
  trap : ι → TrapPc
  data : σ

inductive SystemEvent (ι κ : Type*) where
  | call (u : κ)
  | exec (t : ι)
  | trap (t : ι)
  | handler (t : ι)

namespace System

variable (s : System ι κ σ) (t : ι)

def goto (a : Addr) : System ι κ σ := { s with pc := Function.update s.pc t a }

/-- The thread goes on in the handler, or after it. -/
def toTrap (x : TrapPc) (threads : ThreadMap) : System ι κ σ :=
  { s with trap := Function.update s.trap t x, threads := threads }

def tracer : Tracer := s.control.tracer

omit [DecidableEq κ] in
theorem goto_pc (u : ι) (a : Addr) : (s.goto t a).pc u = if u = t then a else s.pc u :=
  Function.update_apply ..

omit [DecidableEq κ] in
theorem toTrap_trap (u : ι) (x : TrapPc) (threads : ThreadMap) :
    (s.toTrap t x threads).trap u = if u = t then x else s.trap u :=
  Function.update_apply ..

end System

/-- One step of the process. A trap interrupts its thread, whose handler then takes one step for
each section that it runs under a lock; an assertion that fails has no step. -/
inductive SystemStep (rb : RbLib BpEntry) (isa : Isa ι σ) (tid : ι → Nat) (code : Addr → Prop) :
    System ι κ σ → SystemEvent ι κ → System ι κ σ → Prop where
  | call {s : System ι κ σ} {u : κ} {k : Control κ} (h : ControlStep rb code s.control u k) :
      SystemStep rb isa tid code s (.call u) { s with control := k }
  | exec {s : System ι κ σ} {t : ι} {data : σ} {a : Addr} (hx : s.trap t = .running)
      (hw : loadInstr s.tracer.mem (s.pc t) ≠ brkInstr)
      (hrun : isa t (loadInstr s.tracer.mem (s.pc t)) (s.pc t) s.data = (data, a)) :
      SystemStep rb isa tid code s (.exec t) { s.goto t a with data := data }
  | trap {s : System ι κ σ} {t : ι} (hx : s.trap t = .running)
      (hw : loadInstr s.tracer.mem (s.pc t) = brkInstr) :
      SystemStep rb isa tid code s (.trap t) (s.toTrap t .lookup s.threads)
  | found {s : System ι κ σ} {t : ι} {p : ThreadPtr} (hx : s.trap t = .lookup)
      (hf : s.threads.threadMapFind (tid t) = some p) :
      SystemStep rb isa tid code s (.handler t) (s.toTrap t (.finding p) s.threads)
  | new {s : System ι κ σ} {t : ι} {p : ThreadPtr} (hx : s.trap t = .lookup)
      (hf : s.threads.threadMapFind (tid t) = none) (hn : p ∉ s.threads.allocated) :
      SystemStep rb isa tid code s (.handler t)
        (s.toTrap t (.adding p) (s.threads.threadNew p (tid t)))
  | add {s : System ι κ σ} {t : ι} {p : ThreadPtr} {m : ThreadMap} {c : Int}
      (hx : s.trap t = .adding p) (hrun : s.threads.threadMapAdd p = .ok (m, c)) :
      SystemStep rb isa tid code s (.handler t) (s.toTrap t (.finding p) m)
  | find {s : System ι κ σ} {t : ι} {p : ThreadPtr} {b : BkptPtr} (hx : s.trap t = .finding p)
      (hf : s.tracer.breakpointFind (s.pc t) = some b) :
      SystemStep rb isa tid code s (.handler t) (s.toTrap t (.dispatching p b) s.threads)
  | dispatch {s : System ι κ σ} {t : ι} {p : ThreadPtr} {b : BkptPtr} {ss : Option BkptPtr}
      {a : Addr} (hx : s.trap t = .dispatching p b) (hf : s.control.Free b)
      (hd : s.tracer.dispatch b (s.threads.thread p).singlestepBp = .ok (ss, a)) :
      SystemStep rb isa tid code s (.handler t)
        ((s.goto t a).toTrap t .running (s.threads.setSinglestep p ss))

/-- The address in the original text of an address where a thread may be: the breakpoint's own for
the first word of a slot, the one after it for the second. -/
def Tracer.origAddr (s : Tracer) (a : Addr) : Addr :=
  match s.index.breakpointRbFind a with
  | some ⟨b, .ret⟩ => s.enterAddr b + 4
  | _ =>
    match s.index.breakpointRbFind (a + 4) with
    | some ⟨b, .ret⟩ => s.enterAddr b
    | _ => a

/-- What is left of a state when traps, slots and patching are erased. -/
def System.program (s : System ι κ σ) : Program ι σ :=
  ⟨fun t => s.tracer.origAddr (s.pc t), s.data⟩

/-- What is left of a step: the program's state before an instruction, and whose it is. -/
def erase (l : System ι κ σ × SystemEvent ι κ) : Option (Program ι σ × ι) :=
  match l.2 with
  | .exec t => some (l.1.program, t)
  | _ => none

/-- An instruction that does the same at every address and continues after it. -/
structure FallsThrough (isa : Isa ι σ) (v : Instr) : Prop where
  ne : v ≠ brkInstr
  effect : ∀ t a a' data, (isa t v a data).1 = (isa t v a' data).1
  next : ∀ t a data, (isa t v a data).2 = a + 4

/-- The breakpoints are on such instructions. -/
def Displaceable (s₀ : Tracer) (isa : Isa ι σ) : Prop :=
  ∀ b, s₀.IsText (s₀.enterAddr b) → FallsThrough isa (loadInstr s₀.mem (s₀.enterAddr b))

/-- The trap of a thread, or a step of its handler. -/
def SystemEvent.handles (t : ι) : SystemEvent ι κ → Bool
  | .trap u | .handler u => u = t
  | .call _ | .exec _ => false

/-- The handler waits for the lock of its breakpoint. -/
def System.Waits (s : System ι κ σ) (t : ι) : Prop :=
  ∃ p b, s.trap t = .dispatching p b ∧ ¬ s.control.Free b

/-- The steps that the handler of a trap has still to take, the trap itself included. -/
def TrapPc.left : TrapPc → Nat
  | .running => 5
  | .lookup => 4
  | .adding _ => 3
  | .finding _ => 2
  | .dispatching _ _ => 1

/-- How many steps of its traps a thread may still take before its next instruction: none in the
first word of a slot, those of a return trap and an enter trap in the second. -/
def System.left (s : System ι κ σ) (tid : ι → Nat) (t : ι) : Nat :=
  match s.threads.singlestep (tid t) with
  | none => (s.trap t).left
  | some b => if s.pc t + 4 = s.tracer.returnAddr b then 0 else (s.trap t).left + 5

/-- Where the handler has sent its thread: from a breakpoint to the slot that holds its displaced
instruction, or from the slot to the instruction after the breakpoint. -/
inductive Dispatched (s₀ : Tracer) (tid : ι → Nat) (s s' : System ι κ σ) (t : ι) : Prop where
  | enter {b : BkptPtr} {p : SlotSetPtr} {i : Nat} (hp : Placed s₀ s'.tracer b p i)
      (hfrom : s.pc t = s₀.enterAddr b) (hbefore : s.threads.singlestep (tid t) = none)
      (hto : s'.pc t = (s'.tracer.slots.slotSet p).slotOffset i)
      (hss : s'.threads.singlestep (tid t) = some b)
  | leave {b : BkptPtr} {p : SlotSetPtr} {i : Nat} (hp : Placed s₀ s'.tracer b p i)
      (hfrom : s.pc t = (s'.tracer.slots.slotSet p).slotOffset i + 4)
      (hbefore : s.threads.singlestep (tid t) = some b)
      (hto : s'.pc t = s₀.enterAddr b + 4) (hss : s'.threads.singlestep (tid t) = none)

/-- No call has begun and no thread has trapped. -/
structure SystemInitial (tid : ι → Nat) (s : System ι κ σ) : Prop where
  control : ControlInitial s.control
  linked : s.threads.Linked
  singlestep : ∀ t, s.threads.singlestep (tid t) = none
  trap : ∀ t, s.trap t = .running

/-- The step of the handler that would fail an assertion. -/
def System.Fails (s : System ι κ σ) (t : ι) : Prop :=
  match s.trap t with
  | .running | .lookup => False
  | .adding p => s.threads.threadMapAdd p = .error .assertion
  | .finding _ => s.tracer.breakpointFind (s.pc t) = none
  | .dispatching p b =>
    ∃ f, s.tracer.dispatch b (s.threads.thread p).singlestepBp = .error f

end Atrace.Signal

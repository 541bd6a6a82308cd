import Atrace.Ptrace.Planted
import Atrace.Ptrace.Resume

/-! The tasks of a profilee under breakpoints, in any order with the calls of the tracer, and the
same tasks alone. -/
namespace Atrace.Ptrace

open Atrace.Lib Signal Profiler

/-- The tasks and their memory when nobody traces them. -/
structure Bare (ρ : Type) where
  mem : Memory 64
  regs : Pid → Regs ρ

/-- One instruction of a task. -/
def Bare.exec {ρ : Type} (cpu : Cpu ρ) (m : Bare ρ) (pid : Pid) : Bare ρ :=
  let (regs, ws) := cpu m.mem (m.regs pid)
  ⟨writeAll m.mem ws, Function.update m.regs pid regs⟩

inductive BareStep {ρ : Type} (cpu : Cpu ρ) (tasks : Set Pid) : Bare ρ → Pid → Bare ρ → Prop where
  | exec {m : Bare ρ} {pid : Pid} (hpid : pid ∈ tasks) : BareStep cpu tasks m pid (m.exec cpu pid)

/-- The program can have breakpoints at `A`: `int3` is a trap of one byte, and wherever the tasks
get, they do not write `A` and read it only as the first byte of an instruction. -/
structure Bears {ρ : Type} (cpu : Cpu ρ) (tasks : Set Pid) (A : Set Word) (m₀ : Bare ρ) :
    Prop where
  traps : ∀ mem regs, mem regs.rip = int3 → cpu mem regs = ({ regs with rip := regs.rip + 1 }, [])
  writes : ∀ m pids pid, Run (BareStep cpu tasks) m₀ pids m → pid ∈ tasks →
    ∀ w ∈ (cpu m.mem (m.regs pid)).2, w.1 ∉ A
  reads : ∀ m pids pid mem, Run (BareStep cpu tasks) m₀ pids m → pid ∈ tasks →
    (∀ a, a ∉ A → mem a = m.mem a) → mem (m.regs pid).rip = m.mem (m.regs pid).rip →
    cpu mem (m.regs pid) = cpu m.mem (m.regs pid)

/-- The tracer and its tasks, and for each task whether it has stopped behind a breakpoint. -/
structure Tracee (ω ρ : Type) where
  session : Session ω ρ
  trapped : Pid → Bool

inductive TraceeEvent (ω : Type) where
  | exec (pid : Pid)
  | patch (p : Patch)
  | life (call : LifeCall)
  | setPc (r : StepResults) (p : ThreadPtr) (pc : Word)
  | resume (n : Nat) (r : StepResults) (b : BkptPtr) (p : ThreadPtr)
  | threads (call : ThreadCall ω)
  | load (objs : List Object)

namespace Tracee

variable {ω ρ : Type} (k : Kernel ω) (cpu : Cpu ρ) (s : Tracee ω ρ)

def profiler : Profiler := s.session.profiler

def setProfiler (t : Profiler) : Tracee ω ρ :=
  { s with session := { s.session with profiler := t } }

def setThreads (t : Threads ω) : Tracee ω ρ :=
  { s with session := { s.session with threads := t } }

/-- The tracer has set the pc of the task. -/
def setPc (pid : Pid) (pc : Word) : Tracee ω ρ :=
  ⟨s.session.setPc pid pc, Function.update s.trapped pid false⟩

/-- The task runs one instruction: its own, or the one of an enabled breakpoint. -/
def exec (pid : Pid) : Tracee ω ρ where
  session := s.session.execute cpu pid
  trapped := Function.update s.trapped pid (s.profiler.hit (s.session.regs pid).rip).isSome

/-- Where the task is in its program. -/
def programPc (pid : Pid) : Word :=
  if s.trapped pid then (s.session.regs pid).rip - 1 else (s.session.regs pid).rip

/-- What is left when the breakpoints are erased. -/
def program : Bare ρ where
  mem := s.profiler.original
  regs pid := { s.session.regs pid with rip := s.programPc pid }

end Tracee

open Tracee

/-- One step of the tasks or of the tracer, whose calls return. The parts of `breakpoint_resume` are
steps of their own as well, so that other tasks may run between them. -/
inductive TraceeStep {ω ρ : Type} (k : Kernel ω) (cpu : Cpu ρ) :
    Tracee ω ρ → TraceeEvent ω → Tracee ω ρ → Prop where
  | exec {s : Tracee ω ρ} {pid : Pid} : TraceeStep k cpu s (.exec pid) (s.exec cpu pid)
  | patch {s : Tracee ω ρ} {p : Patch} {t : Profiler} (h : s.profiler.patch p = .ok t) :
      TraceeStep k cpu s (.patch p) (s.setProfiler t)
  | life {s : Tracee ω ρ} {call : LifeCall} {t : Profiler} (h : LifeStep s.profiler call t) :
      TraceeStep k cpu s (.life call) (s.setProfiler t)
  | setPc {s : Tracee ω ρ} {r : StepResults} {p : ThreadPtr} {pc : Word} :
      TraceeStep k cpu s (.setPc r p pc) ⟨(s.session.archSetThreadPc r p pc).1,
        if r.getRegs && r.setRegs then Function.update s.trapped (s.session.pid p) false
        else s.trapped⟩
  | resume {s : Tracee ω ρ} {n : Nat} {r : StepResults} {b : BkptPtr} {p : ThreadPtr}
      {session : Session ω ρ} {rv : Int}
      (h : s.session.breakpointResume k n cpu r b p = .ok (session, rv)) :
      TraceeStep k cpu s (.resume n r b p) ⟨session,
        if r.getRegs && r.setRegs then Function.update s.trapped (s.session.pid p) false
        else s.trapped⟩
  | threads {s : Tracee ω ρ} {call : ThreadCall ω} {t : Threads ω}
      (h : ThreadStep k s.session.threads call t) :
      TraceeStep k cpu s (.threads call) (s.setThreads t)
  | load {s : Tracee ω ρ} {objs : List Object} :
      TraceeStep k cpu s (.load objs) (s.setProfiler (s.profiler.addObjects objs))

/-- What the callers see to: a task behind a breakpoint is continued by `breakpoint_resume`, with
the breakpoint that it is at; breakpoints are created at addresses of their own, without
`BKPT_F_ENABLE`, and are not deleted under a task that has stopped behind them. -/
def Careful {ω ρ : Type} (tasks : Set Pid) (A : Set Word) (l : Tracee ω ρ × TraceeEvent ω) : Prop :=
  let s := l.1
  match l.2 with
  | .exec pid => pid ∈ tasks ∧ s.trapped pid = false
  | .patch p => p.bkpt ∈ s.profiler.live
  | .life (.create obj offset attr _) => hasFlag attr .ENABLE = false ∧
      ∀ o ob, obj = some o → s.profiler.objects[o]? = some ob → ExactSum ob offset ∧
        ob.textStart + offset ∈ A ∧
        ∀ c ∈ s.profiler.live, (s.profiler.bkpt c).address ≠ ob.textStart + offset
  | .life (.delete b) =>
      ∀ pid, s.trapped pid = true → s.programPc pid ≠ (s.profiler.bkpt b).address
  | .setPc _ p pc => s.programPc (s.session.pid p) = pc
  | .resume _ _ b p => s.session.pid p ∈ tasks ∧ b ∈ s.profiler.live ∧
      s.programPc (s.session.pid p) = (s.profiler.bkpt b).address
  | .threads _ => True
  | .load objs => ∀ ob ∈ objs, ob.breakpointChain = []

/-- The task whose instruction a step runs, if it runs one of the program. -/
def ranBy {ω ρ : Type} (l : Tracee ω ρ × TraceeEvent ω) : Option Pid :=
  match l.2 with
  | .exec pid => if (l.1.profiler.hit (l.1.session.regs pid).rip).isSome then none else some pid
  | .resume _ r _ p =>
      if r.getRegs && r.setRegs && r.singleStep && r.executes then some (l.1.session.pid p)
      else none
  | _ => none

structure TraceeInitial {ω ρ : Type} (s : Tracee ω ρ) : Prop where
  live : s.profiler.live = []
  chains : ∀ ob ∈ s.profiler.objects, ob.breakpointChain = []
  trapped : ∀ pid, s.trapped pid = false

/-- A task that has stopped behind a breakpoint has one there. -/
structure TraceeInv {ω ρ : Type} (A : Set Word) (s : Tracee ω ρ) : Prop where
  planted : Planted A s.profiler
  trapped : ∀ pid, s.trapped pid = true →
    ∃ b ∈ s.profiler.live, (s.profiler.bkpt b).address = s.programPc pid

namespace Tracee

variable {ω ρ : Type} {k : Kernel ω} {cpu : Cpu ρ} {tasks : Set Pid} {A : Set Word}
  {m₀ : Bare ρ} {s s' : Tracee ω ρ} {t : Profiler} {pid : Pid} {pids : List Pid} {b : BkptPtr}
  {p : ThreadPtr} {n : Nat} {r : StepResults} {rv : Int} {call : LifeCall}

theorem writeAll_congr {m m' : Memory 64} {a : Word} (ws : List (Word × BitVec 8))
    (h : m a = m' a) : writeAll m ws a = writeAll m' ws a := by
  induction ws generalizing m m' with
  | nil => exact h
  | cons w ws ih =>
    apply ih
    by_cases ha : a = w.1
    · simp [ha]
    · simp [ha, h]

theorem exec_profiler : (s.exec cpu pid).profiler = { s.profiler with
    mem := writeAll s.profiler.mem (cpu s.profiler.mem (s.session.regs pid)).2 } := rfl

theorem exec_regs (q : Pid) : (s.exec cpu pid).session.regs q =
    if q = pid then (cpu s.profiler.mem (s.session.regs pid)).1 else s.session.regs q :=
  Function.update_apply ..

theorem exec_trapped (q : Pid) : (s.exec cpu pid).trapped q =
    if q = pid then (s.profiler.hit (s.session.regs pid).rip).isSome else s.trapped q :=
  Function.update_apply ..

theorem exec_other {q : Pid} (hq : q ≠ pid) : (s.exec cpu pid).session.regs q = s.session.regs q ∧
    (s.exec cpu pid).trapped q = s.trapped q := by
  rw [exec_regs, exec_trapped, if_neg hq, if_neg hq]
  exact ⟨rfl, rfl⟩

theorem setPc_regs {pc : Word} (q : Pid) : (s.setPc pid pc).session.regs q =
    if q = pid then { s.session.regs pid with rip := pc } else s.session.regs q :=
  Function.update_apply ..

theorem setPc_trapped {pc : Word} (q : Pid) :
    (s.setPc pid pc).trapped q = if q = pid then false else s.trapped q :=
  Function.update_apply ..

/-- What the instructions write beside the breakpoints is written in the program's memory. -/
theorem planted_writeAll {u : Profiler} (hi : Planted A u) {ws : List (Word × BitVec 8)}
    (hws : ∀ w ∈ ws, w.1 ∉ A) : Planted A { u with mem := writeAll u.mem ws } ∧
      original { u with mem := writeAll u.mem ws } = writeAll u.original ws := by
  have hmem : ∀ {m : Memory 64} {a}, a ∈ A → writeAll m ws a = m a :=
    fun ha => Session.writeAll_of_ne _ fun w hw he => hws w hw (he ▸ ha)
  refine ⟨⟨hi.toChained.frame rfl rfl fun _ => rfl, hi.distinct, hi.placed, ?_⟩, ?_⟩
  · exact fun c hc hon => (hmem (hi.placed c hc)).trans (hi.on c hc hon)
  · funext a
    cases hcase : u.hit a with
    | none =>
      rw [← writeAll_congr ws (original_of_not_hit hcase).symm]
      exact original_of_not_hit hcase
    | some c =>
      rw [hmem (hi.hit_placed hcase), original_of_hit hcase]
      exact original_of_hit hcase

theorem setProfiler_inv (hi : TraceeInv A s) (ht : Planted A t)
    (hkept : ∀ pid, s.trapped pid = true → ∀ c ∈ s.profiler.live,
      (s.profiler.bkpt c).address = s.programPc pid →
        c ∈ t.live ∧ (t.bkpt c).address = s.programPc pid) : TraceeInv A (s.setProfiler t) := by
  refine ⟨ht, fun pid hpid => ?_⟩
  obtain ⟨c, hc, haddr⟩ := hi.trapped pid hpid
  obtain ⟨hc', haddr'⟩ := hkept pid hpid c hc haddr
  exact ⟨c, hc', haddr'⟩

theorem setProfiler_program (h : t.original = s.profiler.original) :
    (s.setProfiler t).program = s.program :=
  congrArg (Bare.mk · _) h

/-- A task that has not stopped behind a breakpoint is where it is in its program. -/
theorem program_regs (hfree : s.trapped pid = false) : s.program.regs pid = s.session.regs pid := by
  simp [program, programPc, hfree]

theorem programPc_congr {q : Pid} (hregs : s'.session.regs q = s.session.regs q)
    (htrapped : s'.trapped q = s.trapped q) : s'.programPc q = s.programPc q := by
  rw [programPc, programPc, hregs, htrapped]

theorem program_regs_congr {q : Pid} (hregs : s'.session.regs q = s.session.regs q)
    (htrapped : s'.trapped q = s.trapped q) : s'.program.regs q = s.program.regs q := by
  simp only [program, programPc_congr hregs htrapped, hregs]

/-- One task has moved, and is behind a breakpoint only if there is one. -/
theorem inv_of_moved (pid : Pid) (hi : TraceeInv A s) (hplanted : Planted A s'.profiler)
    (hlive : s'.profiler.live = s.profiler.live)
    (haddr : ∀ c, (s'.profiler.bkpt c).address = (s.profiler.bkpt c).address)
    (hregs : ∀ q, q ≠ pid → s'.session.regs q = s.session.regs q)
    (htrapped : ∀ q, q ≠ pid → s'.trapped q = s.trapped q)
    (hself : s'.trapped pid = true →
      ∃ b ∈ s.profiler.live, (s.profiler.bkpt b).address = s'.programPc pid) :
    TraceeInv A s' := by
  refine ⟨hplanted, fun q hq => ?_⟩
  rw [hlive]
  simp only [haddr]
  by_cases hqp : q = pid
  · subst q
    exact hself hq
  · rw [htrapped q hqp] at hq
    rw [programPc_congr (hregs q hqp) (htrapped q hqp)]
    exact hi.trapped q hq

theorem setPc_inv (hi : TraceeInv A s) (pid : Pid) (pc : Word) : TraceeInv A (s.setPc pid pc) := by
  refine inv_of_moved pid hi hi.planted rfl (fun _ => rfl) (fun q hq => ?_) (fun q hq => ?_)
    fun h => ?_
  · rw [setPc_regs, if_neg hq]
  · rw [setPc_trapped, if_neg hq]
  · simp [setPc_trapped] at h

theorem setPc_program {pc : Word} (hpc : s.programPc pid = pc) :
    (s.setPc pid pc).program = s.program := by
  refine congrArg (Bare.mk _) (funext fun q => ?_)
  by_cases hq : q = pid
  · subst q
    have hfree : (s.setPc pid pc).trapped pid = false := by simp [setPc_trapped]
    refine (program_regs hfree).trans ?_
    rw [setPc_regs, if_pos rfl, ← hpc]
  · exact program_regs_congr (by rw [setPc_regs, if_neg hq]) (by rw [setPc_trapped, if_neg hq])

/-- A task that is not behind a breakpoint, nor at one, runs the instruction of its program. -/
theorem exec_program (hcpu : Bears cpu tasks A m₀)
    (hreach : Run (BareStep cpu tasks) m₀ pids s.program)
    (hi : TraceeInv A s) (hpid : pid ∈ tasks) (hfree : s.trapped pid = false)
    (hhit : s.profiler.hit (s.session.regs pid).rip = none) :
    TraceeInv A (s.exec cpu pid) ∧ (s.exec cpu pid).program = s.program.exec cpu pid := by
  have hregs := program_regs hfree
  have hsame : cpu s.profiler.mem (s.session.regs pid) =
      cpu s.program.mem (s.program.regs pid) := by
    rw [← hregs]
    refine hcpu.reads _ _ _ _ hreach hpid (fun a ha => hi.planted.original_off ha) ?_
    rw [hregs]
    exact (original_of_not_hit hhit).symm
  have hws := hcpu.writes _ _ _ hreach hpid
  rw [← hsame] at hws
  obtain ⟨hplanted, horig⟩ := planted_writeAll hi.planted hws
  have hfree' : (s.exec cpu pid).trapped pid = false := by simp [exec_trapped, hhit]
  refine ⟨inv_of_moved pid hi hplanted rfl (fun _ => rfl) (fun q hq => (exec_other hq).1)
    (fun q hq => (exec_other hq).2) fun h => ?_, ?_⟩
  · exact absurd h (by simp [hfree'])
  · rw [Bare.exec, ← hsame]
    refine congrArg₂ Bare.mk horig (funext fun q => ?_)
    by_cases hq : q = pid
    · subst q
      refine (program_regs hfree').trans ?_
      rw [exec_regs, if_pos rfl, Function.update_self]
    · rw [Function.update_of_ne hq]
      exact program_regs_congr (exec_other hq).1 (exec_other hq).2

/-- A task runs into a breakpoint: its program does not go on. -/
theorem exec_hit (hcpu : Bears cpu tasks A m₀) (hi : TraceeInv A s) (hfree : s.trapped pid = false)
    (hhit : s.profiler.hit (s.session.regs pid).rip = some b) :
    TraceeInv A (s.exec cpu pid) ∧ (s.exec cpu pid).program = s.program := by
  have htrap := hcpu.traps _ _ (hi.planted.mem_of_hit hhit)
  obtain ⟨hb, _, haddr⟩ := hit_some hhit
  have hprofiler : (s.exec cpu pid).profiler = s.profiler := by
    rw [exec_profiler, htrap]
    rfl
  have hregs : (s.exec cpu pid).session.regs pid =
      { s.session.regs pid with rip := (s.session.regs pid).rip + 1 } := by
    rw [exec_regs, if_pos rfl, htrap]
  have hself : (s.exec cpu pid).trapped pid = true := by simp [exec_trapped, hhit]
  have hpc : (s.exec cpu pid).programPc pid = (s.session.regs pid).rip := by
    rw [programPc, if_pos hself, hregs]
    exact BitVec.add_sub_cancel ..
  refine ⟨inv_of_moved pid hi (hprofiler.symm ▸ hi.planted) (congrArg Profiler.live hprofiler)
    (fun c => by rw [hprofiler]) (fun q hq => (exec_other hq).1) (fun q hq => (exec_other hq).2)
    fun _ => ⟨b, hb, haddr.trans hpc.symm⟩, ?_⟩
  refine congrArg₂ Bare.mk (congrArg original hprofiler) (funext fun q => ?_)
  by_cases hq : q = pid
  · subst q
    refine Eq.trans ?_ (program_regs hfree).symm
    simp only [hpc, hregs]
  · exact program_regs_congr (exec_other hq).1 (exec_other hq).2

theorem archSetThreadPc_fst {session : Session ω ρ} {pc : Word} :
    (session.archSetThreadPc r p pc).1 =
      if r.getRegs && r.setRegs then session.setPc (session.pid p) pc else session := by
  unfold Session.archSetThreadPc
  cases r.getRegs <;> cases r.setRegs <;> rfl

/-- What a single step does to everything but the threads. -/
theorem threadSingleStep_session {session session' : Session ω ρ}
    (h : session.threadSingleStep k n cpu r p = .ok (session', rv)) :
    ∃ threads, session' = { (if r.singleStep && r.executes then
      session.execute cpu (session.pid p) else session) with threads := threads } := by
  unfold Session.threadSingleStep at h
  split at h
  · rename_i hstep
    obtain ⟨⟨threads, curr⟩, _, h⟩ := bind_ok h
    refine ⟨threads, ?_⟩
    rw [hstep, Bool.true_and]
    cases curr <;> cases h <;> rfl
  · rename_i hstep
    cases h
    refine ⟨session.threads, ?_⟩
    simp [hstep]

/-- What a step does to the program: nothing, or one instruction of a task. -/
def Moved (cpu : Cpu ρ) (tasks : Set Pid) (m m' : Bare ρ) : Option Pid → Prop
  | none => m' = m
  | some pid => BareStep cpu tasks m pid m'

theorem enable_step (hi : TraceeInv A s) (hb : b ∈ s.profiler.live) :
    TraceeInv A (s.setProfiler (s.profiler.breakpointEnable b)) ∧
      (s.setProfiler (s.profiler.breakpointEnable b)).program = s.program := by
  obtain ⟨hplanted, horig⟩ := hi.planted.enable hb
  refine ⟨setProfiler_inv hi hplanted ?_, setProfiler_program horig⟩
  intro _ _ c hc haddr
  cases hon : (s.profiler.bkpt b).enabled with
  | true =>
    rw [enable_of_enabled hon]
    exact ⟨hc, haddr⟩
  | false =>
    rw [enable_of_disabled hon]
    refine ⟨hc, Eq.trans ?_ haddr⟩
    by_cases hcb : c = b
    · subst c
      simp [Breakpoint.setEnable]
    · simp [hcb]

theorem disable_step (hi : TraceeInv A s) (hb : b ∈ s.profiler.live)
    (h : s.profiler.breakpointDisable b = .ok t) : TraceeInv A (s.setProfiler t) ∧
      (s.setProfiler t).program = s.program ∧ (t.bkpt b).enabled = false ∧
      t.live = s.profiler.live ∧ ∀ c, (t.bkpt c).address = (s.profiler.bkpt c).address := by
  obtain ⟨u, hu, ⟨hplanted, horig⟩, hoff, hlive, haddr⟩ := hi.planted.disable hb
  obtain rfl := Except.ok.inj (h.symm.trans hu)
  refine ⟨setProfiler_inv hi hplanted ?_, setProfiler_program horig, hoff, hlive, haddr⟩
  exact fun _ _ c hc hpc => ⟨hlive ▸ hc, (haddr c).trans hpc⟩

theorem setThreads_inv (hi : TraceeInv A s) (threads : Threads ω) :
    TraceeInv A (s.setThreads threads) := ⟨hi.planted, hi.trapped⟩

/-- The single step of a task that has been put back to the instruction under its breakpoint. -/
theorem singleStep_step (hcpu : Bears cpu tasks A m₀)
    (hreach : Run (BareStep cpu tasks) m₀ pids s.program) (hi : TraceeInv A s) (hpid : pid ∈ tasks)
    (hfree : s.trapped pid = false) (hhit : s.profiler.hit (s.session.regs pid).rip = none)
    (executes : Bool) : ∃ t : Tracee ω ρ,
      t.session = (if executes then s.session.execute cpu pid else s.session) ∧
      t.trapped = s.trapped ∧ t.profiler.live = s.profiler.live ∧ TraceeInv A t ∧
      Moved cpu tasks s.program t.program (if executes then some pid else none) := by
  cases executes with
  | false => exact ⟨s, rfl, rfl, rfl, hi, rfl⟩
  | true =>
    obtain ⟨hi', hprogram⟩ := exec_program hcpu hreach hi hpid hfree hhit
    refine ⟨s.exec cpu pid, rfl, funext fun q => ?_, rfl, hi', ?_⟩
    · rw [exec_trapped, hhit]
      split
      · rename_i hq
        rw [hq, hfree]
        rfl
      · rfl
    · rw [hprogram]
      exact .exec hpid

/-- `breakpoint_resume` runs the instruction under the breakpoint, if any, and nothing else. -/
theorem resume_step (hcpu : Bears cpu tasks A m₀)
    (hreach : Run (BareStep cpu tasks) m₀ pids s.program) (hi : TraceeInv A s)
    (hpid : s.session.pid p ∈ tasks) (hb : b ∈ s.profiler.live)
    (hpc : s.programPc (s.session.pid p) = (s.profiler.bkpt b).address)
    {session : Session ω ρ} (h : s.session.breakpointResume k n cpu r b p = .ok (session, rv))
    (hs' : s' = ⟨session, if r.getRegs && r.setRegs then
      Function.update s.trapped (s.session.pid p) false else s.trapped⟩) :
    TraceeInv A s' ∧ Moved cpu tasks s.program s'.program (ranBy (s, .resume n r b p)) := by
  by_cases hset : r.getRegs = false ∨ r.setRegs = false
  · have hfalse : (r.getRegs && r.setRegs) = false := by
      rcases hset with hset | hset <;> simp [hset]
    rw [Session.breakpointResume_of_not_set hset] at h
    cases h
    simp only [hfalse, Bool.false_eq_true, if_false] at hs'
    subst hs'
    simp only [ranBy, hfalse, Bool.false_and, Bool.false_eq_true, if_false]
    exact ⟨hi, rfl⟩
  · obtain ⟨hget, hset⟩ := not_or.mp hset
    rw [Bool.not_eq_false] at hget hset
    obtain ⟨t, ht, _⟩ := hi.planted.disable hb
    rw [Session.breakpointResume_of_set hget hset ht] at h
    obtain ⟨⟨session₁, rv₁⟩, hstep, h⟩ := bind_ok h
    obtain ⟨threads, hsession⟩ := threadSingleStep_session hstep
    -- the pc is set back and the breakpoint taken out: the program has not moved
    obtain ⟨hi₁, hprogram₁, hoff, hlive, haddr⟩ :=
      disable_step (setPc_inv hi (s.session.pid p) (s.profiler.bkpt b).address) hb ht
    have hprogram₁ := hprogram₁.trans (setPc_program hpc)
    have hhit : t.hit (s.profiler.bkpt b).address = none := by
      have haddr : (t.bkpt b).address = (s.profiler.bkpt b).address := haddr b
      rw [← haddr]
      exact hi₁.planted.hit_off (hlive ▸ hb) hoff
    -- so the step is the one under the breakpoint
    obtain ⟨u, hu, htrapped, hlive₂, hi₂, hmoved⟩ := singleStep_step hcpu (hprogram₁ ▸ hreach) hi₁
      hpid (by simp [setProfiler, setPc_trapped]) (by
        simp only [setProfiler, setPc_regs, if_true]
        exact hhit) (r.singleStep && r.executes)
    have hran : ranBy (s, .resume n r b p) =
        if r.singleStep && r.executes then some (s.session.pid p) else none := by
      simp [ranBy, hget, hset]
    rw [hprogram₁, ← hran] at hmoved
    have hs₁ : session₁ = (u.setThreads threads).session := by
      rw [hsession, setThreads, hu]
      rfl
    have htrapped' : u.trapped = Function.update s.trapped (s.session.pid p) false := htrapped
    simp only [hget, hset, Bool.and_true, if_true, ← htrapped'] at hs'
    have hi₃ := setThreads_inv hi₂ threads
    dsimp only at h
    split at h
    · cases h
      rw [hs', hs₁]
      exact ⟨hi₃, hmoved⟩
    · cases h
      obtain ⟨hi₄, hprogram₄⟩ := enable_step hi₃ (b := b) (by
        change b ∈ u.profiler.live
        rw [hlive₂]
        exact hlive ▸ hb)
      have hs'' : s' = (u.setThreads threads).setProfiler
          ((u.setThreads threads).profiler.breakpointEnable b) := by
        rw [hs', hs₁]
        rfl
      rw [hs'', hprogram₄]
      exact ⟨hi₄, hmoved⟩

theorem life_step (hi : TraceeInv A s) (h : LifeStep s.profiler call t)
    (hcareful : Careful tasks A (s, .life call)) :
    TraceeInv A (s.setProfiler t) ∧ (s.setProfiler t).program = s.program := by
  cases h with
  | create hfresh hrun =>
    obtain ⟨hattr, hplace⟩ := hcareful
    rcases create_cases hrun with ⟨rfl, _⟩ | ⟨o, ob, b, rfl, hob, _, hend, rfl, rfl, hc⟩
    · exact ⟨hi, rfl⟩
    · obtain ⟨hexact, hA, hnew⟩ := hplace o ob rfl hob
      have hfresh := hfresh b rfl
      obtain ⟨hplanted, horig⟩ := hi.planted.create hfresh hob hc (create_objects hrun) hend hexact
        hattr hA hnew
      refine ⟨setProfiler_inv hi hplanted ?_, setProfiler_program horig⟩
      intro _ _ c hc' haddr
      rw [hc.live, hc.other c fun he => hfresh (he ▸ hc')]
      exact ⟨List.mem_cons_of_mem b hc', haddr⟩
  | delete hb hrun =>
    rename_i b
    obtain ⟨u, hu, ⟨hplanted, horig⟩, hlive, haddr⟩ := hi.planted.delete hb
    obtain rfl := Except.ok.inj (hrun.symm.trans hu)
    refine ⟨setProfiler_inv hi hplanted ?_, setProfiler_program horig⟩
    intro pid hpid c hc hpc
    have hcb : c ≠ b := by
      rintro rfl
      exact hcareful pid hpid hpc.symm
    rw [hlive, haddr c]
    exact ⟨(List.mem_erase_of_ne hcb).mpr hc, hpc⟩

theorem load_step (hi : TraceeInv A s) {objs : List Object}
    (h : ∀ ob ∈ objs, ob.breakpointChain = []) :
    TraceeInv A (s.setProfiler (s.profiler.addObjects objs)) :=
  setProfiler_inv hi (hi.planted.addObjects h) fun _ _ _ hc hpc => ⟨hc, hpc⟩

theorem step_moved {e : TraceeEvent ω} (hcpu : Bears cpu tasks A m₀)
    (hreach : Run (BareStep cpu tasks) m₀ pids s.program) (hi : TraceeInv A s)
    (h : TraceeStep k cpu s e s') (hcareful : Careful tasks A (s, e)) :
    TraceeInv A s' ∧ Moved cpu tasks s.program s'.program (ranBy (s, e)) := by
  cases h with
  | exec =>
    obtain ⟨hpid, hfree⟩ := hcareful
    rename_i pid
    cases hhit : s.profiler.hit (s.session.regs pid).rip with
    | some b =>
      simp only [ranBy, hhit, Option.isSome_some, if_true]
      exact exec_hit hcpu hi hfree hhit
    | none =>
      simp only [ranBy, hhit, Option.isSome_none, Bool.false_eq_true, if_false]
      obtain ⟨hi', hprogram⟩ := exec_program hcpu hreach hi hpid hfree hhit
      refine ⟨hi', ?_⟩
      rw [hprogram]
      exact .exec hpid
  | patch h =>
    rename_i p t
    cases p with
    | enable b =>
      obtain rfl := Except.ok.inj h
      exact enable_step hi hcareful
    | disable b =>
      obtain ⟨hi', hprogram, _⟩ := disable_step hi hcareful h
      exact ⟨hi', hprogram⟩
  | life h => exact life_step hi h hcareful
  | @setPc r p pc =>
    cases hset : r.getRegs && r.setRegs with
    | false =>
      rw [archSetThreadPc_fst, hset, if_neg Bool.false_ne_true, if_neg Bool.false_ne_true]
      exact ⟨hi, rfl⟩
    | true =>
      rw [archSetThreadPc_fst, hset, if_pos rfl, if_pos rfl]
      exact ⟨setPc_inv hi _ pc, setPc_program hcareful⟩
  | resume h =>
    obtain ⟨hpid, hb, hpc⟩ := hcareful
    exact resume_step hcpu hreach hi hpid hb hpc h rfl
  | threads h => exact ⟨setThreads_inv hi _, rfl⟩
  | load => exact ⟨load_step hi hcareful, rfl⟩

theorem run_moved {ls : List (Tracee ω ρ × TraceeEvent ω)} (hcpu : Bears cpu tasks A m₀)
    (h : Run (Traced (TraceeStep k cpu)) s ls s') (hcareful : ∀ l ∈ ls, Careful tasks A l)
    (hreach : Run (BareStep cpu tasks) m₀ pids s.program) (hi : TraceeInv A s) :
    TraceeInv A s' ∧ Run (BareStep cpu tasks) s.program (ls.filterMap ranBy) s'.program := by
  induction h generalizing pids with
  | refl => exact ⟨hi, .refl⟩
  | @stepL s t u l ls hstep _ ih =>
    obtain ⟨s₁, e⟩ := l
    obtain ⟨rfl, hstep⟩ := hstep
    obtain ⟨hi', hmoved⟩ := step_moved hcpu hreach hi hstep (hcareful _ List.mem_cons_self)
    have hcareful' : ∀ l ∈ ls, Careful tasks A l :=
      fun l hl => hcareful l (List.mem_cons_of_mem _ hl)
    cases hran : ranBy (s₁, e) with
    | none =>
      rw [hran] at hmoved
      have hmoved : t.program = s₁.program := hmoved
      rw [List.filterMap_cons_none hran, ← hmoved]
      exact ih hcareful' (hmoved ▸ hreach) hi'
    | some pid =>
      rw [hran] at hmoved
      have hmoved : BareStep cpu tasks s₁.program pid t.program := hmoved
      obtain ⟨hi'', hrun⟩ := ih hcareful' (hreach.stepR hmoved) hi'
      rw [List.filterMap_cons_some hran]
      exact ⟨hi'', .stepL hmoved hrun⟩

theorem inv_initial (h : TraceeInitial s) : TraceeInv A s := by
  refine ⟨⟨chained_initial h.live h.chains, ?_, ?_, ?_⟩, fun pid hpid => ?_⟩
  · intro c hc
    have hc : c ∈ s.profiler.live := hc
    simp [h.live] at hc
  · simp [h.live]
  · simp [h.live]
  · simp [h.trapped pid] at hpid

/-- A live breakpoint can be deleted and stepped over. -/
theorem live_no_assertion (hi : TraceeInv A s) (hb : b ∈ s.profiler.live) :
    s.profiler.breakpointDelete b ≠ .error .assertion ∧
      ∀ n r p, s.session.breakpointResume k n cpu r b p ≠ .error .assertion := by
  constructor
  · obtain ⟨t, ht, _⟩ := hi.planted.delete hb
    simp [ht]
  · intro n r p
    have htruthful : Truthful (Function.update s.profiler.mem (s.profiler.bkpt b).address
        (s.profiler.original (s.profiler.bkpt b).address)) s.profiler b := by
      refine ⟨fun hon => ⟨hi.planted.on b hb hon, ?_⟩, fun hoff => ?_, fun a ha => ?_⟩
      · rw [Function.update_self]
        exact (original_of_hit (hi.planted.hit_self hb hon)).symm
      · rw [Function.update_self]
        exact (original_of_not_hit (hi.planted.hit_off hb hoff)).symm
      · exact (Function.update_of_ne ha ..).symm
    exact Session.breakpointResume_ne_assertion htruthful

/-- The tasks run their program, instruction by instruction, whatever the tracer does in between:
no instruction is lost at a breakpoint and none is run twice. -/
theorem run_program {ls : List (Tracee ω ρ × TraceeEvent ω)} (hcpu : Bears cpu tasks A s.program)
    (hinit : TraceeInitial s) (h : Run (Traced (TraceeStep k cpu)) s ls s')
    (hcareful : ∀ l ∈ ls, Careful tasks A l) :
    Run (BareStep cpu tasks) s.program (ls.filterMap ranBy) s'.program ∧
      (s'.profiler.live = [] → s'.profiler.mem = s'.program.mem) ∧
      (∀ pid, s'.trapped pid = true → ∃ b ∈ s'.profiler.live,
        s'.profiler.breakpointFind (some (s'.session.regs pid).rip) = some b ∧
        (s'.profiler.bkpt b).address = s'.programPc pid) ∧
      ∀ b ∈ s'.profiler.live, s'.profiler.breakpointDelete b ≠ .error .assertion ∧
        ∀ n r p, s'.session.breakpointResume k n cpu r b p ≠ .error .assertion := by
  obtain ⟨hi, hrun⟩ := run_moved hcpu h hcareful .refl (inv_initial hinit)
  refine ⟨hrun, fun hlive => (original_of_live_nil hlive).symm, fun pid hpid => ?_,
    fun b hb => live_no_assertion hi hb⟩
  obtain ⟨b, hb, haddr⟩ := hi.trapped pid hpid
  have hfind := hi.planted.find_self hb
  have hpc : (s'.profiler.bkpt b).address + 1 = (s'.session.regs pid).rip := by
    rw [haddr, programPc, if_pos hpid]
    exact BitVec.sub_add_cancel ..
  rw [hpc] at hfind
  exact ⟨b, hb, hfind, haddr⟩

/-- A processor that counts the instructions that are not traps. -/
def counting : Cpu Nat := fun mem regs =>
  (⟨regs.rip + 1, if mem regs.rip = int3 then regs.rest else regs.rest + 1⟩, [])

/-- The leader has stopped where its object can have a breakpoint. -/
def leaderTraced : Tracee (Pid → Task) Nat where
  session := ⟨oneObject, Threads.leaderStopped, fun _ => ⟨0x1010, 0⟩, []⟩
  trapped _ := false

theorem run_program_resumed : ∃ (ls : List (Tracee (Pid → Task) Nat × TraceeEvent (Pid → Task)))
    (s : Tracee (Pid → Task) Nat), ls.filterMap ranBy = [100] ∧
    Run (BareStep counting {100}) leaderTraced.program (ls.filterMap ranBy) s.program ∧
      (s.profiler.live = [] → s.profiler.mem = s.program.mem) ∧
      (∀ pid, s.trapped pid = true → ∃ b ∈ s.profiler.live,
        s.profiler.breakpointFind (some (s.session.regs pid).rip) = some b ∧
        (s.profiler.bkpt b).address = s.programPc pid) ∧
      ∀ b ∈ s.profiler.live, s.profiler.breakpointDelete b ≠ .error .assertion ∧
        ∀ n r p, s.session.breakpointResume Threads.plainKernel n counting r b p ≠
          .error .assertion := by
  have hrun : ∃ s ls, Run (Traced (TraceeStep Threads.plainKernel counting)) leaderTraced ls s ∧
      ls.filterMap ranBy = [100] ∧ ∀ l ∈ ls, Careful {100} {0x1010} l := by
    refine ⟨_, _, .stepL (a := (leaderTraced, .life (.create (some 0) 0x10 0 (some 0))))
      ⟨rfl, .life (.create (by simp [leaderTraced, profiler, oneObject]) rfl)⟩
      (.stepL (a := (_, .patch (.enable 0))) ⟨rfl, .patch rfl⟩
      (.stepL (a := (_, .exec 100)) ⟨rfl, .exec⟩
      (.stepL (a := (_, .resume 1 ⟨true, true, true, true⟩ 0 0)) ⟨rfl, .resume rfl⟩ .refl))),
      ?_, ?_⟩
    · rfl
    · simp only [List.forall_mem_cons]
      have hlive : (0 : BkptPtr) ∈ [0] := List.mem_cons_self
      refine ⟨⟨rfl, ?_⟩, hlive, ⟨rfl, rfl⟩, ⟨rfl, hlive, rfl⟩, by simp⟩
      rintro o ob ⟨⟩ hob
      obtain rfl := Option.some.inj hob
      exact ⟨⟨by decide, by decide⟩, rfl, fun c hc => (List.not_mem_nil hc).elim⟩
  obtain ⟨s, ls, hrun, hran, hcareful⟩ := hrun
  refine ⟨ls, s, hran, run_program (A := {0x1010}) ?_ ?_ hrun hcareful⟩
  · refine ⟨fun mem regs h => ?_, fun _ _ _ _ _ w hw => ?_, fun m _ pid mem _ _ _ h => ?_⟩
    · simp [counting, h]
    · cases hw
    · simp only [counting, h]
  · exact ⟨rfl, by simp [leaderTraced, profiler, oneObject], fun _ => rfl⟩

end Tracee

end Atrace.Ptrace

import Atrace.Ptrace.PatchFailures
import Atrace.Ptrace.StopAll

/-! `breakpoint_resume`: stepping a stopped thread over a breakpoint. -/
namespace Atrace.Ptrace

open Atrace.Lib Signal Profiler

/-- The registers of a task: `rip`, and the others. -/
structure Regs (ρ : Type) where
  rip : Word
  rest : ρ

/-- What the instruction at `rip` does: the registers it leaves and the bytes it writes. -/
abbrev Cpu (ρ : Type) := Memory 64 → Regs ρ → Regs ρ × List (Word × BitVec 8)

/-- Which requests of a call succeed, and whether the task gets to its instruction before the wait
ends. -/
structure StepResults where
  getRegs : Bool
  setRegs : Bool
  singleStep : Bool
  executes : Bool

/-- The tracer with the registers of the tasks, and what each executed instruction saw when it was
fetched. -/
structure Session (ω ρ : Type) where
  profiler : Profiler
  threads : Threads ω
  regs : Pid → Regs ρ
  fetched : List (Memory 64 × Regs ρ)

def writeAll (m : Memory 64) (ws : List (Word × BitVec 8)) : Memory 64 :=
  ws.foldl (fun m w => Function.update m w.1 w.2) m

namespace Session

variable {ω ρ : Type} (k : Kernel ω) (n : Nat) (cpu : Cpu ρ) (r : StepResults) (s : Session ω ρ)
  (b : BkptPtr) (p : ThreadPtr)

def pid : Pid := (s.threads.thread p).pid

def setPc (pid : Pid) (pc : Word) : Session ω ρ :=
  { s with regs := Function.update s.regs pid { s.regs pid with rip := pc } }

/-- The task executes one instruction. -/
def execute (pid : Pid) : Session ω ρ :=
  let (regs, ws) := cpu s.profiler.mem (s.regs pid)
  { s with
    profiler := { s.profiler with mem := writeAll s.profiler.mem ws }
    regs := Function.update s.regs pid regs
    fetched := s.fetched ++ [(s.profiler.mem, s.regs pid)] }

/-- `arch_set_thread_pc` -/
def archSetThreadPc (pc : Word) : Session ω ρ × Int :=
  if r.getRegs then
    if r.setRegs then (s.setPc (s.pid p) pc, 0) else (s, -1)
  else (s, -1)

/-- `thread_single_step` -/
def threadSingleStep : Except NoReturn (Session ω ρ × Int) :=
  if r.singleStep then do
    let s := if r.executes then s.execute cpu (s.pid p) else s
    let (threads, curr) ← s.threads.threadWait k n (s.pid p) false
    if curr = none then pure ({ s with threads := threads }, -1)
    else pure ({ s with threads := threads }, 0)
  else .ok (s, -1)

/-- `breakpoint_resume`; the one fault of `breakpoint_disable` is its assertion. -/
def breakpointResume : Except NoReturn (Session ω ρ × Int) :=
  let (s, rv) := s.archSetThreadPc r p (s.profiler.bkpt b).address
  if rv < 0 then .ok (s, -1)
  else do
    let profiler ← (s.profiler.breakpointDisable b).mapError fun _ => .assertion
    let (s, rv) ← { s with profiler := profiler }.threadSingleStep k n cpu r p
    if rv < 0 then pure (s, -1)
    else pure ({ s with profiler := s.profiler.breakpointEnable b }, 0)

/-- `thread_single_step` succeeds: the request does, and the wait finds the thread. -/
def Steps : Prop :=
  r.singleStep = true ∧ ∃ threads q, s.threads.threadWait k n (s.pid p) false = .ok (threads, some q)

/-- The call kept the flag and the memory, apart from what the instructions executed in it wrote. -/
structure Preserved (cpu : Cpu ρ) (s s' : Session ω ρ) (b : BkptPtr)
    (new : List (Memory 64 × Regs ρ)) : Prop where
  fetched : s'.fetched = s.fetched ++ new
  flag : (s'.profiler.bkpt b).enabled = (s.profiler.bkpt b).enabled
  mem : ∀ a, (∀ e ∈ new, ∀ w ∈ (cpu e.1 e.2).2, w.1 ≠ a) → s'.profiler.mem a = s.profiler.mem a

/-- What is more, a success means that one instruction was executed, the original one. -/
structure SteppedOver (cpu : Cpu ρ) (m₀ : Memory 64) (s s' : Session ω ρ) (b : BkptPtr)
    (p : ThreadPtr) (rv : Int) (new : List (Memory 64 × Regs ρ)) : Prop
    extends Preserved cpu s s' b new where
  original : rv = 0 → new = [(m₀, { s.regs (s.pid p) with rip := (s.profiler.bkpt b).address })]

variable {k n cpu r s b p} {s' : Session ω ρ} {rv : Int} {m₀ : Memory 64}

theorem writeAll_of_ne {ws : List (Word × BitVec 8)} {a : Word} (m : Memory 64)
    (h : ∀ w ∈ ws, w.1 ≠ a) : writeAll m ws a = m a := by
  induction ws generalizing m with
  | nil => rfl
  | cons w ws ih =>
    refine (ih _ fun v hv => h v (List.mem_cons_of_mem _ hv)).trans ?_
    exact Function.update_of_ne (h w List.mem_cons_self).symm ..

theorem archSetThreadPc_cases (pc : Word) :
    (s.archSetThreadPc r p pc = (s, -1) ∧ (r.getRegs = false ∨ r.setRegs = false)) ∨
      (s.archSetThreadPc r p pc = (s.setPc (s.pid p) pc, 0) ∧ r.getRegs = true ∧
        r.setRegs = true) := by
  unfold archSetThreadPc
  cases r.getRegs <;> cases r.setRegs <;> simp

/-- What a single step does, whether it succeeds or not. -/
structure SingleStepped (cpu : Cpu ρ) (s s' : Session ω ρ) (p : ThreadPtr)
    (new : List (Memory 64 × Regs ρ)) : Prop where
  fetched : s'.fetched = s.fetched ++ new
  bkpt : s'.profiler.bkpt = s.profiler.bkpt
  mem : ∀ a, (∀ e ∈ new, ∀ w ∈ (cpu e.1 e.2).2, w.1 ≠ a) → s'.profiler.mem a = s.profiler.mem a
  view : new = [] ∨ new = [(s.profiler.mem, s.regs (s.pid p))]

theorem singleStepped_refl : SingleStepped cpu s s p [] :=
  ⟨(List.append_nil _).symm, rfl, fun _ _ => rfl, Or.inl rfl⟩

theorem singleStepped_execute :
    SingleStepped cpu s (s.execute cpu (s.pid p)) p [(s.profiler.mem, s.regs (s.pid p))] := by
  refine ⟨rfl, rfl, ?_, Or.inr rfl⟩
  intro a ha
  exact writeAll_of_ne _ (ha _ (List.mem_singleton_self _))

theorem threadSingleStep_spec (h : s.threadSingleStep k n cpu r p = .ok (s', rv)) :
    ∃ new, SingleStepped cpu s s' p new ∧
      ((rv = 0 ∧ s.Steps k n r p ∧ (new = [] ↔ r.executes = false)) ∨
        (rv = -1 ∧ ¬ s.Steps k n r p)) := by
  unfold threadSingleStep at h
  split at h
  · rename_i hstep
    obtain ⟨⟨threads, curr⟩, hwait, h⟩ := bind_ok h
    obtain ⟨s₁, hs₁, hthreads, new, hstepped, hnew⟩ : ∃ s₁ : Session ω ρ,
        (if r.executes then s.execute cpu (s.pid p) else s) = s₁ ∧ s₁.threads = s.threads ∧
          ∃ new, SingleStepped cpu s s₁ p new ∧ (new = [] ↔ r.executes = false) := by
      cases r.executes with
      | true => exact ⟨_, rfl, rfl, _, singleStepped_execute, by simp⟩
      | false => exact ⟨_, rfl, rfl, _, singleStepped_refl, by simp⟩
    simp only [hs₁] at hwait h
    rw [show s₁.pid p = s.pid p by rw [pid, hthreads, pid], hthreads] at hwait
    cases curr with
    | none =>
      cases h
      refine ⟨new, ⟨hstepped.fetched, hstepped.bkpt, hstepped.mem, hstepped.view⟩, Or.inr ⟨rfl, ?_⟩⟩
      rintro ⟨_, threads', q, hwait'⟩
      cases hwait.symm.trans hwait'
    | some q =>
      cases h
      exact ⟨new, ⟨hstepped.fetched, hstepped.bkpt, hstepped.mem, hstepped.view⟩,
        Or.inl ⟨rfl, ⟨hstep, threads, q, hwait⟩, hnew⟩⟩
  · rename_i hstep
    cases h
    exact ⟨[], singleStepped_refl, Or.inr ⟨rfl, fun hs => hstep hs.1⟩⟩

theorem waitLoop_ne_assertion {pid : Pid} {option : Bool} {w : ω} :
    Threads.waitLoop k pid option n w ≠ .error .assertion := by
  induction n generalizing w with
  | zero => simp [Threads.waitLoop]
  | succ n ih =>
    unfold Threads.waitLoop
    split
    · exact ih
    · simp

theorem threadWait_ne_assertion {t : Threads ω} {pid : Pid} {option : Bool} :
    t.threadWait k n pid option ≠ .error .assertion := by
  unfold Threads.threadWait
  split
  · simp
  · intro h
    obtain hloop | ⟨⟨w, res⟩, hloop, h⟩ := bind_error h
    · exact waitLoop_ne_assertion hloop
    · cases res <;> cases h

theorem threadSingleStep_ne_assertion :
    s.threadSingleStep k n cpu r p ≠ .error .assertion := by
  unfold threadSingleStep
  split
  · intro h
    obtain hwait | ⟨⟨threads, curr⟩, hwait, h⟩ := bind_error h
    · exact threadWait_ne_assertion hwait
    · cases curr <;> cases h
  · simp

/-- A breakpoint that is as its flag says is taken out without an assertion failing. -/
theorem disable_truthful {t : Profiler} (hi : Truthful m₀ t b) :
    ∃ t', t.breakpointDisable b = .ok t' ∧ t'.mem = m₀ ∧ (t'.bkpt b).enabled = false ∧
      (t'.bkpt b).address = (t.bkpt b).address := by
  cases hon : (t.bkpt b).enabled with
  | false => exact ⟨t, disable_of_disabled hon, (truthful_off_iff hon).mp hi, hon, rfl⟩
  | true =>
    obtain ⟨hmem, hsaved, hother⟩ := (truthful_on_iff hon).mp hi
    rw [disable_of_enabled hon, if_pos hmem]
    refine ⟨_, rfl, ?_, by simp, by simp [Breakpoint.clrEnable]⟩
    rw [hsaved]
    exact Function.update_eq_iff.mpr ⟨rfl, fun a ha => hother a ha⟩

/-- The states in which the call puts the flag back: it leaves the breakpoint disabled if the step
fails, and enabled if it succeeds, whatever it was. -/
def PutsBack (k : Kernel ω) (n : Nat) (r : StepResults) (s : Session ω ρ) (b : BkptPtr)
    (p : ThreadPtr) : Prop :=
  r.getRegs = false ∨ r.setRegs = false ∨ ((s.profiler.bkpt b).enabled = true ↔ s.Steps k n r p)

/-- In a call that puts the flag back, a step that succeeds ends only when the task has got to its
instruction. -/
def StepsOver (k : Kernel ω) (n : Nat) (r : StepResults) (s : Session ω ρ) (b : BkptPtr)
    (p : ThreadPtr) : Prop :=
  r.getRegs = false ∨ r.setRegs = false ∨
    ((s.profiler.bkpt b).enabled = true ∧ s.Steps k n r p ∧ r.executes = true) ∨
    ((s.profiler.bkpt b).enabled = false ∧ ¬ s.Steps k n r p)

/-- Once the pc is set, what is left of the call. -/
theorem breakpointResume_of_set (hget : r.getRegs = true) (hset : r.setRegs = true)
    {t : Profiler} (ht : s.profiler.breakpointDisable b = .ok t) :
    s.breakpointResume k n cpu r b p = (do
      let (s, rv) ← { s.setPc (s.pid p) (s.profiler.bkpt b).address with
        profiler := t }.threadSingleStep k n cpu r p
      if rv < 0 then pure (s, -1)
      else pure ({ s with profiler := s.profiler.breakpointEnable b }, 0)) := by
  simp only [breakpointResume, archSetThreadPc, hget, hset, if_true, setPc, ht]
  rfl

theorem breakpointResume_of_not_set (h : r.getRegs = false ∨ r.setRegs = false) :
    s.breakpointResume k n cpu r b p = .ok (s, -1) := by
  obtain ⟨hrun, _⟩ | ⟨_, hget, hset⟩ :=
    archSetThreadPc_cases (s := s) (r := r) (p := p) (s.profiler.bkpt b).address
  · simp [breakpointResume, hrun]
  · rcases h with h | h
    · simp [h] at hget
    · simp [h] at hset

theorem breakpointResume_ne_assertion (hi : Truthful m₀ s.profiler b) :
    s.breakpointResume k n cpu r b p ≠ .error .assertion := by
  obtain ⟨t, ht, _⟩ := disable_truthful hi
  intro h
  cases hget : r.getRegs with
  | false => simp [breakpointResume_of_not_set (Or.inl hget)] at h
  | true =>
    cases hset : r.setRegs with
    | false => simp [breakpointResume_of_not_set (Or.inr hset)] at h
    | true =>
      rw [breakpointResume_of_set hget hset ht] at h
      obtain h | ⟨⟨s₁, rv⟩, _, h⟩ := bind_error h
      · exact threadSingleStep_ne_assertion h
      · dsimp only at h
        split at h <;> cases h

/-- After a step that began with the breakpoint taken out, putting the flag back puts the memory
back, and a wrong flag cannot be right. -/
theorem preserved_iff (hi : Truthful m₀ s.profiler b) {t : Profiler} (hmem : t.mem = m₀)
    (hoff : (t.bkpt b).enabled = false) (haddr : (t.bkpt b).address = (s.profiler.bkpt b).address)
    {s₁ : Session ω ρ} {new : List (Memory 64 × Regs ρ)}
    (hs : SingleStepped cpu { s.setPc (s.pid p) (s.profiler.bkpt b).address with profiler := t }
      s₁ p new) :
    (Preserved cpu s s₁ b new ↔ (s.profiler.bkpt b).enabled = false) ∧
      (Preserved cpu s { s₁ with profiler := s₁.profiler.breakpointEnable b } b new ↔
        (s.profiler.bkpt b).enabled = true) := by
  have hoff₁ : (s₁.profiler.bkpt b).enabled = false := hs.bkpt ▸ hoff
  have haddr₁ : (s₁.profiler.bkpt b).address = (s.profiler.bkpt b).address := hs.bkpt ▸ haddr
  have hkept : ∀ a, (∀ e ∈ new, ∀ w ∈ (cpu e.1 e.2).2, w.1 ≠ a) → s₁.profiler.mem a = m₀ a := by
    intro a ha
    exact (hs.mem a ha).trans (congrFun hmem a)
  constructor
  · constructor
    · exact fun h => h.flag.symm.trans hoff₁
    · intro hwas
      obtain rfl := (truthful_off_iff hwas).mp hi
      exact ⟨hs.fetched, hoff₁.trans hwas.symm, hkept⟩
  · rw [enable_of_disabled hoff₁]
    constructor
    · exact fun h => h.flag.symm.trans (by simp)
    · intro hwas
      obtain ⟨hint3, _, hother⟩ := (truthful_on_iff hwas).mp hi
      refine ⟨hs.fetched, ?_, ?_⟩
      · simp [hwas]
      · intro a ha
        rw [haddr₁]
        by_cases he : a = (s.profiler.bkpt b).address
        · rw [he, hint3]
          exact Function.update_self ..
        · exact (Function.update_of_ne he ..).trans ((hkept a ha).trans (hother a he).symm)

/-- What was executed is known from the log. -/
theorem exists_preserved {new : List (Memory 64 × Regs ρ)} (hf : s'.fetched = s.fetched ++ new) :
    (∃ new, Preserved cpu s s' b new) ↔ Preserved cpu s s' b new := by
  constructor
  · rintro ⟨new', h⟩
    rwa [List.append_cancel_left (hf.symm.trans h.fetched)]
  · exact fun h => ⟨new, h⟩

theorem exists_steppedOver {new : List (Memory 64 × Regs ρ)} (hf : s'.fetched = s.fetched ++ new) :
    (∃ new, SteppedOver cpu m₀ s s' b p rv new) ↔ Preserved cpu s s' b new ∧ (rv = 0 →
      new = [(m₀, { s.regs (s.pid p) with rip := (s.profiler.bkpt b).address })]) := by
  constructor
  · rintro ⟨new', h⟩
    obtain rfl := List.append_cancel_left (hf.symm.trans h.fetched)
    exact ⟨h.toPreserved, h.original⟩
  · exact fun h => ⟨new, h.1, h.2⟩

/-- The call leaves the breakpoint as it was just when the flag it leaves behind, which tells how the
step went, is the one it found; and a success means one original instruction just when besides no
step succeeds before the task gets to its instruction. -/
theorem resume_preserves_iff (hi : Truthful m₀ s.profiler b) :
    s.breakpointResume k n cpu r b p ≠ .error .assertion ∧
      ∀ s' rv, s.breakpointResume k n cpu r b p = .ok (s', rv) → (rv = 0 ∨ rv = -1) ∧
        ((∃ new, Preserved cpu s s' b new) ↔ PutsBack k n r s b p) ∧
        ((∃ new, SteppedOver cpu m₀ s s' b p rv new) ↔ StepsOver k n r s b p) := by
  refine ⟨breakpointResume_ne_assertion hi, ?_⟩
  intro s' rv h
  by_cases hset : r.getRegs = false ∨ r.setRegs = false
  · rw [breakpointResume_of_not_set hset] at h
    cases h
    have hsame : Preserved cpu s s b [] := ⟨(List.append_nil _).symm, rfl, fun _ _ => rfl⟩
    have hback : PutsBack k n r s b p := or_assoc.mp (Or.inl hset)
    have hover : StepsOver k n r s b p := or_assoc.mp (Or.inl hset)
    exact ⟨Or.inr rfl, ⟨fun _ => hback, fun _ => ⟨[], hsame⟩⟩,
      ⟨fun _ => hover, fun _ => ⟨[], hsame, by simp⟩⟩⟩
  · obtain ⟨hget, hset⟩ := not_or.mp hset
    obtain ⟨t, ht, hmem, hoff, haddr⟩ := disable_truthful hi
    rw [breakpointResume_of_set (by simpa using hget) (by simpa using hset) ht] at h
    obtain ⟨⟨s₁, rv₁⟩, hstep, h⟩ := bind_ok h
    obtain ⟨new, hs, ⟨rfl, hsteps, hnew⟩ | ⟨rfl, hsteps⟩⟩ := threadSingleStep_spec hstep
    · obtain ⟨_, henabled⟩ := preserved_iff hi hmem hoff haddr hs
      cases h
      have hsteps : s.Steps k n r p := hsteps
      -- the one instruction that may have been executed is the original one
      have hone : new = [(m₀, { s.regs (s.pid p) with rip := (s.profiler.bkpt b).address })] ↔
          r.executes = true := by
        rcases hs.view with rfl | rfl
        · simp [hnew.mp rfl]
        · have hexec : r.executes = true := by simpa using hnew
          simp [hexec, setPc, pid, hmem]
      have hfetched : ({ s₁ with profiler := s₁.profiler.breakpointEnable b } :
          Session ω ρ).fetched = s.fetched ++ new := hs.fetched
      rw [exists_preserved hfetched, exists_steppedOver hfetched, henabled, hone]
      exact ⟨Or.inl rfl, by simp [PutsBack, hget, hset, hsteps],
        by simp [StepsOver, hget, hset, hsteps]⟩
    · obtain ⟨hdisabled, _⟩ := preserved_iff hi hmem hoff haddr hs
      cases h
      have hsteps : ¬ s.Steps k n r p := hsteps
      have hfetched : s'.fetched = s.fetched ++ new := hs.fetched
      rw [exists_preserved hfetched, exists_steppedOver hfetched, hdisabled]
      exact ⟨Or.inr rfl, by simp [PutsBack, hget, hset, hsteps],
        by simp [StepsOver, hget, hset, hsteps]⟩

/-- A processor that knows one instruction, the `nop` of one byte. -/
def nop : Cpu Unit := fun _ regs => ({ regs with rip := regs.rip + 1 }, [])

/-- The leader has run into the breakpoint. -/
def leaderAtBkpt : Session (Pid → Task) Unit where
  profiler := oneBkpt.breakpointEnable 0
  threads := Threads.leaderStopped
  regs _ := ⟨0x1001, ()⟩
  fetched := []

theorem truthful_leaderAtBkpt : Truthful (fun _ => 0x90) leaderAtBkpt.profiler 0 := by
  have hoff : (oneBkpt.bkpt 0).enabled = false := by decide
  exact (tryEnable_truthful_iff (r := ⟨true, true⟩) truthful_oneBkpt hoff).mpr
    ⟨Or.inl rfl, Or.inl rfl⟩

theorem resume_preserves_iff_nop :
    leaderAtBkpt.breakpointResume Threads.plainKernel 1 nop ⟨true, true, true, true⟩ 0 0 ≠
        .error .assertion ∧
      ∀ s' rv, leaderAtBkpt.breakpointResume Threads.plainKernel 1 nop ⟨true, true, true, true⟩ 0 0 =
          .ok (s', rv) → (rv = 0 ∨ rv = -1) ∧
        ((∃ new, Preserved nop leaderAtBkpt s' 0 new) ↔
          PutsBack Threads.plainKernel 1 ⟨true, true, true, true⟩ leaderAtBkpt 0 0) ∧
        ((∃ new, SteppedOver nop (fun _ => 0x90) leaderAtBkpt s' 0 0 rv new) ↔
          StepsOver Threads.plainKernel 1 ⟨true, true, true, true⟩ leaderAtBkpt 0 0) :=
  resume_preserves_iff truthful_leaderAtBkpt

/-- A step that fails leaves the breakpoint out. -/
theorem failed_step_disarms :
    Truthful (fun _ => 0x90) leaderAtBkpt.profiler 0 ∧
      (leaderAtBkpt.profiler.bkpt 0).enabled = true ∧
      ∃ s', leaderAtBkpt.breakpointResume Threads.plainKernel 1 nop ⟨true, true, false, false⟩ 0 0 =
          .ok (s', -1) ∧ (s'.profiler.bkpt 0).enabled = false ∧
        ¬ ∃ new, Preserved nop leaderAtBkpt s' 0 new := by
  have hon : (leaderAtBkpt.profiler.bkpt 0).enabled = true := by decide
  obtain ⟨t, ht, _, hoff, _⟩ := disable_truthful truthful_leaderAtBkpt
  refine ⟨truthful_leaderAtBkpt, hon, _, breakpointResume_of_set rfl rfl ht, hoff, ?_⟩
  rintro ⟨_, h⟩
  have hflag := h.flag
  rw [hon] at hflag
  exact absurd (hoff.symm.trans hflag) (by decide)

end Session

end Atrace.Ptrace

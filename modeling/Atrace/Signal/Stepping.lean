import Atrace.Signal.Handler

/-! Threads stepping over enabled breakpoints, with signal handlers of the program nested in them. -/
namespace Atrace.Signal

open Atrace.Lib Tracer

variable {ι σ : Type*} [DecidableEq ι]

/-- What an instruction at an address does in a thread, and where the thread continues. -/
abbrev Isa (ι σ : Type*) := ι → Instr → Addr → σ → σ × Addr

/-- The threads of a process; `frames` are the addresses that signals interrupted, innermost
first, and `data` is everything the program can see but its text. -/
structure Machine (ι σ : Type*) where
  pc : ι → Addr
  frames : ι → List Addr
  threads : ThreadMap
  data : σ

inductive MachineEvent (ι : Type*) where
  | exec (t : ι)
  | trap (t : ι)
  | signal (t : ι) (handler : Addr)
  | sigreturn (t : ι)

namespace Machine

variable (m : Machine ι σ) (t : ι)

def setPc (a : Addr) : Machine ι σ := { m with pc := Function.update m.pc t a }

def setFrames (as : List Addr) : Machine ι σ := { m with frames := Function.update m.frames t as }

/-- Where the thread is, and where it was when signals interrupted it. -/
def points : List Addr := m.pc t :: m.frames t

theorem setPc_pc (u : ι) (a : Addr) : (m.setPc t a).pc u = if u = t then a else m.pc u :=
  Function.update_apply ..

end Machine

/-- The steps of a process whose breakpoints stay as they are. `SIGTRAP` is masked while its handler
runs, which makes the handler one step of its thread. -/
inductive MachineStep (s : Tracer) (isa : Isa ι σ) (tid : ι → Nat) :
    Machine ι σ → MachineEvent ι → Machine ι σ → Prop where
  | exec {m : Machine ι σ} {t : ι} {data : σ} {a : Addr}
      (hw : loadInstr s.mem (m.pc t) ≠ brkInstr)
      (hrun : isa t (loadInstr s.mem (m.pc t)) (m.pc t) m.data = (data, a)) :
      MachineStep s isa tid m (.exec t) { m.setPc t a with data := data }
  | trap {m : Machine ι σ} {t : ι} {fresh : ThreadPtr} {threads : ThreadMap} {a : Addr}
      (hw : loadInstr s.mem (m.pc t) = brkInstr) (hn : fresh ∉ m.threads.allocated)
      (hrun : s.sigtrapHandler m.threads (tid t) fresh (m.pc t) = .ok (threads, a)) :
      MachineStep s isa tid m (.trap t) { m.setPc t a with threads := threads }
  | signal {m : Machine ι σ} {t : ι} {handler : Addr} {data : σ} :
      MachineStep s isa tid m (.signal t handler)
        { (m.setPc t handler).setFrames t (m.points t) with data := data }
  | sigreturn {m : Machine ι σ} {t : ι} {a : Addr} {as : List Addr} {data : σ}
      (hf : m.frames t = a :: as) :
      MachineStep s isa tid m (.sigreturn t) { (m.setPc t a).setFrames t as with data := data }

/-- No thread has an object yet or is inside a slot or a signal handler. -/
structure Started (s : Tracer) (tid : ι → Nat) (m : Machine ι σ) : Prop where
  linked : m.threads.Linked
  singlestep : ∀ t, m.threads.singlestep (tid t) = none
  outside : ∀ t, s.Outside (m.pc t)
  frames : ∀ t, m.frames t = []

section View

variable {s : Tracer} {isa : Isa ι σ} {tid : ι → Nat} {m m' : Machine ι σ} {e : MachineEvent ι}
  {t : ι} {text : Addr → Prop} {b c : BkptPtr} {a : Addr} {as : List Addr}

/-- What a step does to the thread `t`: where it is, and the field that its handler reads. -/
inductive ThreadStep (s : Tracer) (isa : Isa ι σ) (tid : ι → Nat) (t : ι) (m m' : Machine ι σ) :
    MachineEvent ι → Prop where
  | other {e : MachineEvent ι} (hp : m'.points t = m.points t)
      (hs : m'.threads.singlestep (tid t) = m.threads.singlestep (tid t)) :
      ThreadStep s isa tid t m m' e
  | exec {a : Addr} (hn : (isa t (loadInstr s.mem (m.pc t)) (m.pc t) m.data).2 = a)
      (hp : m'.points t = a :: m.frames t)
      (hs : m'.threads.singlestep (tid t) = m.threads.singlestep (tid t)) :
      ThreadStep s isa tid t m m' (.exec t)
  | trap {b : BkptPtr} {ss : Option BkptPtr} {a : Addr}
      (hf : s.breakpointFind (m.pc t) = some b)
      (hd : s.dispatch b (m.threads.singlestep (tid t)) = .ok (ss, a))
      (hp : m'.points t = a :: m.frames t) (hs : m'.threads.singlestep (tid t) = ss) :
      ThreadStep s isa tid t m m' (.trap t)
  | signal {handler : Addr} (hp : m'.points t = handler :: m.points t)
      (hs : m'.threads.singlestep (tid t) = m.threads.singlestep (tid t)) :
      ThreadStep s isa tid t m m' (.signal t handler)
  | sigreturn (hp : m.points t = m.pc t :: m'.points t)
      (hs : m'.threads.singlestep (tid t) = m.threads.singlestep (tid t)) :
      ThreadStep s isa tid t m m' (.sigreturn t)

omit [DecidableEq ι] in
theorem points_congr (hpc : m'.pc t = m.pc t) (hf : m'.frames t = m.frames t) :
    m'.points t = m.points t := by
  rw [Machine.points, hpc, hf]
  rfl

/-- A step is a step of one thread, and leaves the others where they are. -/
theorem threadStep_of_step (htid : Function.Injective tid) (h : MachineStep s isa tid m e m')
    (hl : m.threads.Linked) (t : ι) : ThreadStep s isa tid t m m' e ∧ m'.threads.Linked := by
  cases h with
  | @exec u data a hw hrun =>
    refine ⟨?_, hl⟩
    by_cases ht : t = u
    · subst u
      refine .exec (by rw [hrun]) ?_ rfl
      simp [Machine.points, Machine.setPc]
    · refine .other (points_congr ?_ rfl) rfl
      simp [Machine.setPc, ht]
  | @trap u fresh threads a hw hn hrun =>
    obtain ⟨b, ss, hf, hd, hh⟩ := sigtrapHandler_cases hl hn hrun
    refine ⟨?_, hh.linked⟩
    by_cases ht : t = u
    · subst u
      refine .trap hf hd ?_ ((hh.singlestep (tid t)).trans (if_pos rfl))
      simp [Machine.points, Machine.setPc]
    · refine .other (points_congr ?_ rfl) ?_
      · simp [Machine.setPc, ht]
      · exact (hh.singlestep (tid t)).trans (if_neg fun he => ht (htid he))
  | @signal u handler data =>
    refine ⟨?_, hl⟩
    by_cases ht : t = u
    · subst u
      refine .signal ?_ rfl
      simp [Machine.points, Machine.setPc, Machine.setFrames]
    · refine .other (points_congr ?_ ?_) rfl <;>
        simp [Machine.setPc, Machine.setFrames, ht]
  | @sigreturn u a as data hf =>
    refine ⟨?_, hl⟩
    by_cases ht : t = u
    · subst u
      refine .sigreturn ?_ rfl
      simp [Machine.points, Machine.setPc, Machine.setFrames, hf]
    · refine .other (points_congr ?_ ?_) rfl <;>
        simp [Machine.setPc, Machine.setFrames, ht]

omit [DecidableEq ι] in
theorem points_eq (h : m'.points t = a :: as) : m'.pc t = a ∧ m'.frames t = as :=
  List.cons_eq_cons.mp h

section Complete

/-- An instruction that the thread executes in a slot, that is a displaced one, leaves it there. -/
def StepsThrough (s : Tracer) (isa : Isa ι σ) (t : ι) (l : Machine ι σ × MachineEvent ι) : Prop :=
  l.2 = .exec t → ∀ b, s.Added b → s.InSlot b (l.1.pc t) →
    s.InSlot b (isa t (loadInstr s.mem (l.1.pc t)) (l.1.pc t) l.1.data).2

def Unsignalled (t : ι) (l : Machine ι σ × MachineEvent ι) : Prop := ∀ handler, l.2 ≠ .signal t handler

/-- The invariant of a thread that no signal interrupts. -/
structure Completes (s : Tracer) (tid : ι → Nat) (t : ι) (m : Machine ι σ) : Prop where
  linked : m.threads.Linked
  frames : m.frames t = []
  slot : ∀ b, m.threads.singlestep (tid t) = some b → s.Added b ∧ s.InSlot b (m.pc t)

omit [DecidableEq ι] in
theorem completes_started (h : Started s tid m) (t : ι) : Completes s tid t m := by
  refine ⟨h.linked, h.frames t, ?_⟩
  intro b hb
  rw [h.singlestep] at hb
  cases hb

theorem completes_step {l : Machine ι σ × MachineEvent ι} (hi : SlotInv text s)
    (htid : Function.Injective tid) (h : Traced (MachineStep s isa tid) m l m')
    (hl : Unsignalled t l ∧ StepsThrough s isa t l) (hm : Completes s tid t m) :
    Completes s tid t m' := by
  obtain ⟨m₁, e⟩ := l
  obtain ⟨rfl, h⟩ := h
  obtain ⟨hsig, hthrough⟩ := hl
  obtain ⟨hview, hlinked⟩ := threadStep_of_step htid h hm.linked t
  cases hview with
  | other hp hs =>
    obtain ⟨hpc, hf⟩ := points_eq hp
    refine ⟨hlinked, hf.trans hm.frames, ?_⟩
    rw [hs, hpc]
    exact hm.slot
  | exec hn hp hs =>
    obtain ⟨hpc, hf⟩ := points_eq hp
    refine ⟨hlinked, hf.trans hm.frames, ?_⟩
    intro b hb
    rw [hs] at hb
    rw [hpc, ← hn]
    obtain ⟨hadded, hin⟩ := hm.slot b hb
    exact ⟨hadded, hthrough rfl b hadded hin⟩
  | @trap c ss a hfind hd hp hs =>
    obtain ⟨hpc, hf⟩ := points_eq hp
    refine ⟨hlinked, hf.trans hm.frames, ?_⟩
    intro b hb
    rw [hs] at hb
    rcases dispatch_cases hd with ⟨_, a', hslot, hr⟩ | ⟨_, hr⟩
    · obtain ⟨rfl, rfl⟩ := Prod.mk.inj hr
      obtain rfl := Option.some.inj hb
      have hadded := added_of_breakpointFind hi hfind
      rw [hpc]
      exact ⟨hadded, inSlot_slotAddr hi hadded hslot⟩
    · rw [(Prod.mk.inj hr).1] at hb
      cases hb
  | signal => exact (hsig _ rfl).elim
  | sigreturn hp =>
    obtain ⟨_, hf⟩ := List.cons_eq_cons.mp hp
    rw [hm.frames] at hf
    cases hf

/-- As long as the displaced instructions that a thread executes leave it in their slots, a thread
outside the slots is not in a single step, and a trap never meets the step of another breakpoint,
nor its own when it enters. -/
theorem single_steps_complete {rb : RbLib BpEntry} {s₀ : Tracer} {ops : List PatchOp}
    {m₀ : Machine ι σ} {ls : List (Machine ι σ × MachineEvent ι)} (h₀ : s₀.PatchInitial)
    (hs : Run (SlotStep rb) s₀ ops s) (htid : Function.Injective tid)
    (hm₀ : Started s tid m₀) (h : Run (Traced (MachineStep s isa tid)) m₀ ls m)
    (hsig : ∀ l ∈ ls, Unsignalled t l) (hthrough : ∀ l ∈ ls, StepsThrough s isa t l) :
    (∀ b, m.threads.singlestep (tid t) = some b → s.Added b ∧ s.InSlot b (m.pc t)) ∧
    (s.Outside (m.pc t) → m.threads.singlestep (tid t) = none) ∧
    (∀ b, s.breakpointFind (m.pc t) = some b →
      m.threads.singlestep (tid t) = none ∨ m.threads.singlestep (tid t) = some b) ∧
    (∀ b, s.Added b → m.pc t = s.enterAddr b → ∀ fresh ∉ m.threads.allocated,
      ∃ threads a, s.slotAddr b = .ok a ∧
        s.sigtrapHandler m.threads (tid t) fresh (m.pc t) = .ok (threads, a)) := by
  have hi := slotInv_run h₀ hs
  have hm : Completes s tid t m :=
    h.inv_of_labels (Q := fun l => Unsignalled t l ∧ StepsThrough s isa t l)
      (fun _ _ _ hstep hl hm => completes_step hi htid hstep hl hm)
      (fun l hl => ⟨hsig l hl, hthrough l hl⟩) (completes_started hm₀ t)
  have hout : s.Outside (m.pc t) → m.threads.singlestep (tid t) = none := by
    intro hpc
    cases hss : m.threads.singlestep (tid t) with
    | none => rfl
    | some b =>
      obtain ⟨hb, hin⟩ := hm.slot b hss
      exact (hpc b hb hin).elim
  refine ⟨hm.slot, hout, ?_, ?_⟩
  · intro b hf
    cases hss : m.threads.singlestep (tid t) with
    | none => exact Or.inl rfl
    | some c =>
      obtain ⟨hc, hin⟩ := hm.slot c hss
      rw [(find_inSlot hi hc hin hf).1]
      exact Or.inr rfl
  · intro b hb hpc fresh hn
    obtain ⟨p, i, hp⟩ := hi.held b hb
    have hnone := hout (hpc ▸ outside_enterAddr hi hb)
    have hfind : s.breakpointFind (m.pc t) = some b := hpc ▸ hi.find_enter hb
    obtain ⟨threads, hrun, _⟩ := sigtrapHandler_returns (tid t) hm.linked hn hfind
      (hnone ▸ dispatch_enter hp)
    exact ⟨threads, _, hp.slotAddr, hrun⟩

/-- One thread that has not trapped yet. -/
def startedAt (pc : Addr) (data : σ) : Machine Unit σ := ⟨fun _ => pc, fun _ => [], .init, data⟩

omit [DecidableEq ι] in
theorem started_startedAt {data : σ} (h : s.Outside a) :
    Started s (fun _ => 1) (startedAt a data) :=
  ⟨ThreadMap.linked_init, fun _ => rfl, fun _ => h, fun _ => rfl⟩

variable (tid) in
/-- The trap at an enabled breakpoint, of a thread that is in no single step. -/
theorem machineStep_enter {p : SlotSetPtr} {i : Nat} (hi : SlotInv text s) (hb : s.Added b)
    (hp : s.Held b p i) (hw : loadInstr s.mem (s.enterAddr b) = brkInstr)
    (hl : m.threads.Linked) (hpc : m.pc t = s.enterAddr b)
    (hss : m.threads.singlestep (tid t) = none) :
    ∃ threads, Handled m.threads threads (tid t) (some b) ∧
      MachineStep s isa tid m (.trap t)
        { m.setPc t ((s.slots.slotSet p).slotOffset i) with threads := threads } := by
  obtain ⟨fresh, hn⟩ := m.threads.exists_fresh
  obtain ⟨threads, hrun, hh⟩ := sigtrapHandler_returns (tid t) hl hn
    (hpc ▸ hi.find_enter hb) (hss ▸ dispatch_enter hp)
  exact ⟨threads, hh, .trap (hpc.symm ▸ hw) hn hrun⟩

variable (tid) in
/-- The trap at the end of the slot, of a thread that is in the single step of its breakpoint. -/
theorem machineStep_return (hi : SlotInv text s) (hb : s.Added b) (hl : m.threads.Linked)
    (hpc : m.pc t = s.returnAddr b) (hss : m.threads.singlestep (tid t) = some b) :
    ∃ threads, Handled m.threads threads (tid t) none ∧
      MachineStep s isa tid m (.trap t)
        { m.setPc t (s.enterAddr b + 4) with threads := threads } := by
  obtain ⟨p, i, hp⟩ := hi.held b hb
  obtain ⟨fresh, hn⟩ := m.threads.exists_fresh
  obtain ⟨threads, hrun, hh⟩ := sigtrapHandler_returns (tid t) hl hn
    (hpc ▸ hi.find_return hb) (hss ▸ s.dispatch_return b)
  refine ⟨threads, hh, .trap ?_ hn hrun⟩
  rw [hpc, hp.returnAddr]
  exact hp.brk

/-- A thread traps at breakpoint 1 of `slotLibraries` and runs the displaced instruction. -/
structure FirstStep (mem : Memory 64) (isa : Isa Unit σ) (data : σ) (s : Tracer)
    (m₁ m₂ : Machine Unit σ) : Prop where
  tracer : Run (SlotStep .unbalanced) (slotLibraries mem)
    [.add 1 [⟨0, 0x30000⟩], .enable 1, .add 2 [⟨1, 0x40000⟩], .enable 2] s
  find : ∀ a, s.objectGetByAddress a = (slotLibraries mem).objectGetByAddress a
  added : ∀ b, s.Added b ↔ b = 1 ∨ b = 2
  enterAddr : s.enterAddr 1 = 0x10000 ∧ s.enterAddr 2 = 0x10010
  enabled : loadInstr s.mem 0x10010 = brkInstr
  slot : s.slotAddr 1 = .ok (m₁.pc ())
  started : Started s (fun _ => 1) (startedAt 0x10000 data)
  trap : MachineStep s isa (fun _ => 1) (startedAt 0x10000 data) (.trap ()) m₁
  exec : MachineStep s isa (fun _ => 1) m₁ (.exec ()) m₂
  word : loadInstr s.mem (m₁.pc ()) = loadInstr mem 0x10000
  frames : m₁.frames () = []
  linked : m₁.threads.Linked
  singlestep : m₁.threads.singlestep 1 = some 1
  threads : m₂.threads = m₁.threads
  pc : m₂.pc () = (isa () (loadInstr mem 0x10000) (m₁.pc ()) data).2

theorem firstStep (mem : Memory 64) (isa : Isa Unit σ) (data : σ)
    (hv : loadInstr mem 0x10000 ≠ brkInstr) : ∃ s m₁ m₂, FirstStep mem isa data s m₁ m₂ := by
  obtain ⟨s, hrun, hfind, hadded, haddr, hw, hw₂, hsaved⟩ := slotLibraries_run mem
  have hi := slotInv_run (patchInitial_slotLibraries mem) hrun
  have hb : s.Added 1 := (hadded 1).mpr (Or.inl rfl)
  have henter : s.enterAddr 1 = 0x10000 := haddr 1
  obtain ⟨p, i, hp⟩ := hi.held 1 hb
  have hstarted : Started s (fun _ => 1) (startedAt 0x10000 data) :=
    started_startedAt (henter ▸ outside_enterAddr hi hb)
  obtain ⟨threads, hh, htrap⟩ := machineStep_enter (fun _ => 1) hi hb hp (henter.symm ▸ hw)
    hstarted.linked henter.symm (hstarted.singlestep ())
  have hword : loadInstr s.mem ((s.slots.slotSet p).slotOffset i) = loadInstr mem 0x10000 :=
    hsaved 1 p i (Or.inl rfl) hp
  refine ⟨s, { (startedAt 0x10000 data).setPc () ((s.slots.slotSet p).slotOffset i) with
    threads := threads }, _, hrun, hfind, hadded, ⟨henter, haddr 2⟩, hw₂, hp.slotAddr, hstarted, htrap,
    .exec ?_ rfl, hword, rfl, hh.linked, (hh.singlestep 1).trans (if_pos rfl), rfl, ?_⟩
  · exact fun he => hv (hword.symm.trans he)
  · rw [← hword]
    rfl

/-- An instruction set without branches. -/
def plainIsa : Isa Unit Unit := fun _ _ pc data => (data, pc + 4)

/-- `ret`, and an instruction set with no other branch; the data is the link register. -/
def retInstr : Instr := 0xD65F03C0

def retIsa : Isa Unit Addr := fun _ v pc lr => (lr, if v = retInstr then lr else pc + 4)

/-- A displaced `ret` never comes back: the thread is in the text with its step unfinished, and
the next breakpoint it hits fails the assertion. -/
theorem displaced_ret_leaves_slot : ∃ (s₀ s : Tracer) (ops : List PatchOp) (m₀ m : Machine Unit Addr)
    (ls : List (Machine Unit Addr × MachineEvent Unit)),
    s₀.PatchInitial ∧ Run (SlotStep .unbalanced) s₀ ops s ∧ Started s (fun _ => 1) m₀ ∧
    Run (Traced (MachineStep s retIsa fun _ => 1)) m₀ ls m ∧ (∀ l ∈ ls, Unsignalled () l) ∧
    s.Outside (m.pc ()) ∧ m.threads.singlestep 1 = some 1 ∧ s.breakpointFind (m.pc ()) = some 2 ∧
    ∀ fresh ∉ m.threads.allocated,
      s.sigtrapHandler m.threads 1 fresh (m.pc ()) = .error .assertion := by
  have hload : loadInstr (storeInstr (fun _ => 0) 0x10000 retInstr) 0x10000 = retInstr :=
    loadInstr_storeInstr _ _ _
  obtain ⟨s, m₁, m₂, h⟩ := firstStep (storeInstr (fun _ => 0) 0x10000 retInstr) retIsa 0x10010
    (by rw [hload]; decide)
  have hi := slotInv_run (patchInitial_slotLibraries _) h.tracer
  have hb : s.Added 2 := (h.added 2).mpr (Or.inr rfl)
  have hpc : m₂.pc () = s.enterAddr 2 := by
    rw [h.pc, hload, h.enterAddr.2]
    rfl
  have hss : m₂.threads.singlestep 1 = some 1 := h.threads.symm ▸ h.singlestep
  have hfind : s.breakpointFind (m₂.pc ()) = some 2 := hpc.symm ▸ hi.find_enter hb
  refine ⟨_, s, _, _, m₂, [(_, .trap ()), (m₁, .exec ())], patchInitial_slotLibraries _, h.tracer,
    h.started, .stepL ⟨rfl, h.trap⟩ (.stepL ⟨rfl, h.exec⟩ .refl), ?_, ?_, hss, hfind, ?_⟩
  · intro l hl handler he
    rcases List.mem_pair.mp hl with rfl | rfl <;> cases he
  · exact hpc.symm ▸ outside_enterAddr hi hb
  · intro fresh hn
    exact sigtrapHandler_fails (h.threads.symm ▸ h.linked) hn hfind
      (hss.symm ▸ dispatch_other (by decide))

/-- A displaced instruction that falls through is still in its slot, at the second word; after the
return trap the thread is in the text, and its step is over. -/
theorem single_steps_complete_fallthrough : ∃ (s : Tracer) (m₂ m₃ : Machine Unit Unit),
    m₂.threads.singlestep 1 = some 1 ∧ s.Added 1 ∧ s.InSlot 1 (m₂.pc ()) ∧
    MachineStep s plainIsa (fun _ => 1) m₂ (.trap ()) m₃ ∧ m₃.pc () = 0x10004 ∧
    m₃.threads.singlestep 1 = none := by
  have hload : loadInstr (fun _ => 0 : Memory 64) 0x10000 = 0 := rfl
  obtain ⟨s, m₁, m₂, h⟩ := firstStep (fun _ => 0) plainIsa () (by rw [hload]; decide)
  have hi := slotInv_run (patchInitial_slotLibraries _) h.tracer
  have hb : s.Added 1 := (h.added 1).mpr (Or.inl rfl)
  have hpc : m₂.pc () = s.returnAddr 1 := h.pc.trans (slotAddr_add_four hi hb h.slot)
  have hss : m₂.threads.singlestep 1 = some 1 := h.threads.symm ▸ h.singlestep
  obtain ⟨threads, _, hreturn⟩ := machineStep_return (fun _ => 1) hi hb (h.threads.symm ▸ h.linked)
    hpc hss
  rw [h.enterAddr.1] at hreturn
  have hrun : Run (Traced (MachineStep s plainIsa fun _ => 1)) (startedAt 0x10000 ())
      [(_, .trap ()), (m₁, .exec ())] m₂ :=
    .stepL ⟨rfl, h.trap⟩ (.stepL ⟨rfl, h.exec⟩ .refl)
  have hfirst : ∀ l ∈ [(startedAt 0x10000 (), .trap ()), (m₁, .exec ())],
      Unsignalled () l ∧ StepsThrough s plainIsa () l := by
    intro l hl
    rcases List.mem_pair.mp hl with rfl | rfl
    · exact ⟨nofun, nofun⟩
    · exact ⟨nofun, fun _ b hb' hin => inSlot_add_four hi hb h.slot hb' hin⟩
  have hlast : Unsignalled () (m₂, .trap ()) ∧ StepsThrough s plainIsa () (m₂, .trap ()) :=
    ⟨nofun, nofun⟩
  have hsecond : ∀ l ∈ [(startedAt 0x10000 (), .trap ()), (m₁, .exec ()), (m₂, .trap ())],
      Unsignalled () l ∧ StepsThrough s plainIsa () l :=
    List.forall_mem_append.mpr ⟨hfirst, List.forall_mem_singleton.mpr hlast⟩
  have hout : s.Outside 0x10004 := by
    refine outside_text hi ?_
    rw [IsCovered, h.find]
    decide
  refine ⟨s, m₂, _, hss, hb, ?_, hreturn, rfl, ?_⟩
  · exact ((single_steps_complete (t := ()) (patchInitial_slotLibraries _) h.tracer
      (fun _ _ _ => rfl) h.started hrun (fun l hl => (hfirst l hl).1)
      fun l hl => (hfirst l hl).2).1 1 hss).2
  · exact (single_steps_complete (t := ()) (patchInitial_slotLibraries _) h.tracer
      (fun _ _ _ => rfl) h.started (hrun.stepR ⟨rfl, hreturn⟩) (fun l hl => (hsecond l hl).1)
      fun l hl => (hsecond l hl).2).2.1 hout

end Complete

section Nested

/-- The field names the slot that one of the points is in, and the other points are in none. -/
def Balanced (s : Tracer) : Option BkptPtr → List Addr → Prop
  | none, as => ∀ a ∈ as, s.Outside a
  | some b, as => ∃ pre a post, as = pre ++ a :: post ∧ s.Added b ∧ s.InSlot b a ∧
      ∀ f ∈ pre ++ post, s.Outside f

namespace Balanced

variable {ss : Option BkptPtr}

theorem push (ha : s.Outside a) (h : Balanced s ss as) : Balanced s ss (a :: as) := by
  cases ss with
  | none => exact List.forall_mem_cons.mpr ⟨ha, h⟩
  | some b =>
    obtain ⟨pre, x, post, rfl, hb, hx, hout⟩ := h
    exact ⟨a :: pre, x, post, rfl, hb, hx, List.forall_mem_cons.mpr ⟨ha, hout⟩⟩

theorem pop (ha : s.Outside a) (h : Balanced s ss (a :: as)) : Balanced s ss as := by
  cases ss with
  | none => exact (List.forall_mem_cons.mp h).2
  | some b =>
    obtain ⟨pre, x, post, he, hb, hx, hout⟩ := h
    cases pre with
    | nil =>
      obtain ⟨rfl, rfl⟩ := List.cons_eq_cons.mp he
      exact (ha b hb hx).elim
    | cons y pre =>
      obtain ⟨rfl, rfl⟩ := List.cons_eq_cons.mp he
      exact ⟨pre, x, post, rfl, hb, hx, fun f hf => hout f (List.mem_cons_of_mem _ hf)⟩

/-- With nobody in a slot the field is `NULL`. -/
theorem eq_none (hout : ∀ a ∈ as, s.Outside a) (h : Balanced s ss as) : ss = none := by
  cases ss with
  | none => rfl
  | some b =>
    obtain ⟨pre, x, post, rfl, hb, hx, _⟩ := h
    exact (hout x (List.mem_append_right _ List.mem_cons_self) b hb hx).elim

/-- A thread in a slot is in the single step of that slot, and its frames are in none. -/
theorem top (hi : SlotInv text s) (hb : s.Added b) (ha : s.InSlot b a)
    (h : Balanced s ss (a :: as)) : ss = some b ∧ ∀ f ∈ as, s.Outside f := by
  cases ss with
  | none => exact (h a List.mem_cons_self b hb ha).elim
  | some c =>
    obtain ⟨pre, x, post, he, hc, hx, hout⟩ := h
    cases pre with
    | nil =>
      obtain ⟨rfl, rfl⟩ := List.cons_eq_cons.mp he
      exact ⟨congrArg some (inSlot_inj hi hc hb hx ha), hout⟩
    | cons y pre =>
      obtain ⟨rfl, rfl⟩ := List.cons_eq_cons.mp he
      exact (hout a List.mem_cons_self b hb ha).elim

/-- An instruction that stays in its slot, or outside the slots. -/
theorem exec {pc : Addr} (hi : SlotInv text s) (h : Balanced s ss (pc :: as))
    (hin : ∀ b, s.Added b → s.InSlot b pc → s.InSlot b a) (hout : s.Outside pc → s.Outside a) :
    Balanced s ss (a :: as) := by
  by_cases hpc : s.Outside pc
  · exact (h.pop hpc).push (hout hpc)
  · obtain ⟨b, hb, hslot⟩ : ∃ b, s.Added b ∧ s.InSlot b pc := by simpa [Outside] using hpc
    obtain ⟨rfl, hframes⟩ := h.top hi hb hslot
    exact ⟨[], a, as, rfl, hb, hin b hb hslot, hframes⟩

theorem step_in (hb : s.Added b) (ha : s.InSlot b a) (hout : ∀ f ∈ as, s.Outside f) :
    Balanced s (some b) (a :: as) :=
  ⟨[], a, as, rfl, hb, ha, hout⟩

end Balanced

/-- What the steps of a thread may not do. A displaced instruction leaves the thread in its slot;
no other step leads into one; no handler returns from one; and no breakpoint is hit while a signal
has interrupted the thread in a slot. -/
structure WellNested (s : Tracer) (isa : Isa ι σ) (t : ι) (l : Machine ι σ × MachineEvent ι) :
    Prop where
  displaced : StepsThrough s isa t l
  program : l.2 = .exec t → s.Outside (l.1.pc t) →
    s.Outside (isa t (loadInstr s.mem (l.1.pc t)) (l.1.pc t) l.1.data).2
  enter : l.2 = .trap t → ∀ b, s.Added b → l.1.pc t = s.enterAddr b →
    ∀ f ∈ l.1.frames t, s.Outside f
  leave : l.2 = .trap t → ∀ b, s.Added b → l.1.pc t = s.returnAddr b →
    s.Outside (s.enterAddr b + 4)
  signal : ∀ handler, l.2 = .signal t handler → s.Outside handler
  sigreturn : l.2 = .sigreturn t → s.Outside (l.1.pc t)

omit [DecidableEq ι] in
theorem wellNested_signal (ha : s.Outside a) : WellNested s isa t (m, .signal t a) := by
  refine ⟨nofun, nofun, nofun, nofun, ?_, nofun⟩
  rintro _ he
  cases he
  exact ha

omit [DecidableEq ι] in
theorem wellNested_sigreturn (hpc : s.Outside (m.pc t)) : WellNested s isa t (m, .sigreturn t) :=
  ⟨nofun, nofun, nofun, nofun, nofun, fun _ => hpc⟩

/-- The invariant of a thread that signals may interrupt. -/
structure Nests (s : Tracer) (tid : ι → Nat) (t : ι) (m : Machine ι σ) : Prop where
  linked : m.threads.Linked
  balanced : Balanced s (m.threads.singlestep (tid t)) (m.points t)

omit [DecidableEq ι] in
theorem nests_started (h : Started s tid m) (t : ι) : Nests s tid t m := by
  refine ⟨h.linked, ?_⟩
  rw [h.singlestep, Machine.points, h.frames]
  exact List.forall_mem_singleton.mpr (h.outside t)

/-- A trap that is dispatched moves the thread into the slot of its breakpoint or out of it. -/
theorem balanced_dispatch {ss ss' : Option BkptPtr} {pc : Addr} (hi : SlotInv text s)
    (hm : Balanced s ss (pc :: as)) (hf : s.breakpointFind pc = some b)
    (hd : s.dispatch b ss = .ok (ss', a))
    (henter : pc = s.enterAddr b → ∀ f ∈ as, s.Outside f)
    (hret : pc = s.returnAddr b → s.Outside (s.enterAddr b + 4)) : Balanced s ss' (a :: as) := by
  have hb := added_of_breakpointFind hi hf
  by_cases hout : s.Outside pc
  · obtain ⟨_, rfl⟩ := find_outside hi hout hf
    have hframes := henter rfl
    obtain rfl := hm.eq_none (List.forall_mem_cons.mpr ⟨hout, hframes⟩)
    rcases dispatch_cases hd with ⟨_, a', hslot, hr⟩ | ⟨hss, _⟩
    · obtain ⟨rfl, rfl⟩ := Prod.mk.inj hr
      exact .step_in hb (inSlot_slotAddr hi hb hslot) hframes
    · cases hss
  · obtain ⟨c, hc, hin⟩ : ∃ c, s.Added c ∧ s.InSlot c pc := by
      simpa [Outside] using hout
    obtain ⟨rfl, hpc⟩ := find_inSlot hi hc hin hf
    obtain ⟨rfl, hframes⟩ := hm.top hi hb hin
    rcases dispatch_cases hd with ⟨hss, _⟩ | ⟨_, hr⟩
    · cases hss
    · obtain ⟨rfl, rfl⟩ := Prod.mk.inj hr
      exact List.forall_mem_cons.mpr ⟨hret hpc, hframes⟩

theorem nests_step {l : Machine ι σ × MachineEvent ι} (hi : SlotInv text s)
    (htid : Function.Injective tid) (h : Traced (MachineStep s isa tid) m l m')
    (hl : WellNested s isa t l) (hm : Nests s tid t m) : Nests s tid t m' := by
  obtain ⟨m₁, e⟩ := l
  obtain ⟨rfl, h⟩ := h
  obtain ⟨hview, hlinked⟩ := threadStep_of_step htid h hm.linked t
  have hbal := hm.balanced
  refine ⟨hlinked, ?_⟩
  cases hview with
  | other hp hs =>
    rw [hs, hp]
    exact hbal
  | exec hn hp hs =>
    rw [hs, hp, ← hn]
    exact hbal.exec hi (hl.displaced rfl) (hl.program rfl)
  | @trap b ss a hf hd hp hs =>
    have hb := added_of_breakpointFind hi hf
    rw [hs, hp]
    exact balanced_dispatch hi hbal hf hd (hl.enter rfl b hb) (hl.leave rfl b hb)
  | signal hp hs =>
    rw [hs, hp]
    exact hbal.push (hl.signal _ rfl)
  | sigreturn hp hs =>
    rw [hs]
    rw [hp] at hbal
    exact hbal.pop (hl.sigreturn rfl)

/-- As long as a thread's steps nest well, the trap at a return address resumes after the
breakpoint, and the one at an enter address in the slot, unless a signal has interrupted the thread
in a slot. -/
theorem trap_dispatch_follows_address {rb : RbLib BpEntry} {s₀ : Tracer} {ops : List PatchOp}
    {m₀ : Machine ι σ} {ls : List (Machine ι σ × MachineEvent ι)} (h₀ : s₀.PatchInitial)
    (hs : Run (SlotStep rb) s₀ ops s) (htid : Function.Injective tid)
    (hm₀ : Started s tid m₀) (h : Run (Traced (MachineStep s isa tid)) m₀ ls m)
    (hnest : ∀ l ∈ ls, WellNested s isa t l) (hb : s.Added b) {fresh : ThreadPtr}
    (hn : fresh ∉ m.threads.allocated) :
    (m.pc t = s.returnAddr b → ∃ threads,
      s.sigtrapHandler m.threads (tid t) fresh (m.pc t) = .ok (threads, s.enterAddr b + 4)) ∧
    (m.pc t = s.enterAddr b → (∀ f ∈ m.frames t, s.Outside f) → ∃ threads a,
      s.slotAddr b = .ok a ∧
        s.sigtrapHandler m.threads (tid t) fresh (m.pc t) = .ok (threads, a)) := by
  have hi := slotInv_run h₀ hs
  have hm : Nests s tid t m :=
    h.inv_of_labels (Q := WellNested s isa t)
      (fun _ _ _ hstep hl hm => nests_step hi htid hstep hl hm) hnest (nests_started hm₀ t)
  constructor
  · intro hpc
    have hin : s.InSlot b (m.pc t) := hpc ▸ inSlot_returnAddr hi hb
    obtain ⟨hss, _⟩ := hm.balanced.top hi hb hin
    obtain ⟨threads, hrun, _⟩ := sigtrapHandler_returns (tid t) hm.linked hn
      (hpc ▸ hi.find_return hb) (hss ▸ s.dispatch_return b)
    exact ⟨threads, hrun⟩
  · intro hpc hframes
    obtain ⟨p, i, hp⟩ := hi.held b hb
    have hout : s.Outside (m.pc t) := hpc ▸ outside_enterAddr hi hb
    have hss := hm.balanced.eq_none (List.forall_mem_cons.mpr ⟨hout, hframes⟩)
    obtain ⟨threads, hrun, _⟩ := sigtrapHandler_returns (tid t) hm.linked hn
      (hpc ▸ hi.find_enter hb) (hss ▸ dispatch_enter hp)
    exact ⟨threads, _, hp.slotAddr, hrun⟩

/-- A signal handler that runs while the thread is in a slot hits another breakpoint: the assertion
fails, where the trap should lead to that breakpoint's slot. -/
theorem nested_trap_fails : ∃ (s₀ s : Tracer) (ops : List PatchOp) (m₀ m : Machine Unit Unit)
    (es : List (MachineEvent Unit)), s₀.PatchInitial ∧ Run (SlotStep .unbalanced) s₀ ops s ∧
    Started s (fun _ => 1) m₀ ∧ Run (MachineStep s plainIsa fun _ => 1) m₀ es m ∧ s.Added 2 ∧
    m.pc () = s.enterAddr 2 ∧ loadInstr s.mem (m.pc ()) = brkInstr ∧
    ∀ fresh ∉ m.threads.allocated,
      s.sigtrapHandler m.threads 1 fresh (m.pc ()) = .error .assertion := by
  have hload : loadInstr (fun _ => 0 : Memory 64) 0x10000 = 0 := rfl
  obtain ⟨s, m₁, m₂, h⟩ := firstStep (fun _ => 0) plainIsa () (by rw [hload]; decide)
  have hi := slotInv_run (patchInitial_slotLibraries _) h.tracer
  have hb : s.Added 2 := (h.added 2).mpr (Or.inr rfl)
  refine ⟨_, s, _, _, { (m₁.setPc () 0x10010).setFrames () (m₁.points ()) with data := () },
    [.trap (), .signal () 0x10010], patchInitial_slotLibraries _, h.tracer, h.started,
    .stepL h.trap (.stepL .signal .refl), hb, h.enterAddr.2.symm, h.enabled, ?_⟩
  intro fresh hn
  have hfind : s.breakpointFind 0x10010 = some 2 := h.enterAddr.2 ▸ hi.find_enter hb
  exact sigtrapHandler_fails h.linked hn hfind (h.singlestep.symm ▸ dispatch_other (by decide))

section Witness

variable {m m' : Machine Unit Unit}

/-- A thread in no slot traps at an enabled breakpoint and runs the displaced instruction, which
falls through. -/
theorem nests_into (hi : SlotInv text s) (hb : s.Added b)
    (hw : loadInstr s.mem (s.enterAddr b) = brkInstr)
    (hv : ∀ p i, s.Held b p i → loadInstr s.mem ((s.slots.slotSet p).slotOffset i) ≠ brkInstr)
    (hm : Nests s (fun _ => 1) () m) (hpc : m.pc () = s.enterAddr b)
    (hframes : ∀ f ∈ m.frames (), s.Outside f) :
    ∃ m₁ m', Run (Traced (MachineStep s plainIsa fun _ => 1)) m [(m, .trap ()), (m₁, .exec ())] m' ∧
      (∀ l ∈ [(m, .trap ()), (m₁, .exec ())], WellNested s plainIsa () l) ∧
      Nests s (fun _ => 1) () m' ∧ m'.pc () = s.returnAddr b ∧ m'.frames () = m.frames () := by
  obtain ⟨p, i, hp⟩ := hi.held b hb
  have hout : s.Outside (m.pc ()) := hpc ▸ outside_enterAddr hi hb
  have hss := hm.balanced.eq_none (List.forall_mem_cons.mpr ⟨hout, hframes⟩)
  obtain ⟨threads, _, htrap⟩ := machineStep_enter (fun _ => 1) hi hb hp hw hm.linked hpc hss
  obtain ⟨m₁, hm₁⟩ : ∃ m₁ : Machine Unit Unit, m₁ =
    { m.setPc () ((s.slots.slotSet p).slotOffset i) with threads := threads } := ⟨_, rfl⟩
  rw [← hm₁] at htrap
  have hpc₁ : m₁.pc () = (s.slots.slotSet p).slotOffset i := hm₁ ▸ rfl
  have hslot : s.slotAddr b = .ok (m₁.pc ()) := hpc₁ ▸ hp.slotAddr
  have hin := inSlot_slotAddr hi hb hslot
  have hret := slotAddr_add_four hi hb hslot
  have hexec : MachineStep s plainIsa (fun _ => 1) m₁ (.exec ()) (m₁.setPc () (m₁.pc () + 4)) :=
    .exec (hpc₁ ▸ hv p i hp) rfl
  have hrun : Run (Traced (MachineStep s plainIsa fun _ => 1)) m
      [(m, .trap ()), (m₁, .exec ())] (m₁.setPc () (m₁.pc () + 4)) :=
    .stepL ⟨rfl, htrap⟩ (.stepL ⟨rfl, hexec⟩ .refl)
  have hnest : ∀ l ∈ [(m, .trap ()), (m₁, .exec ())], WellNested s plainIsa () l := by
    intro l hl
    rcases List.mem_pair.mp hl with rfl | rfl
    · refine ⟨nofun, nofun, fun _ _ _ _ => hframes, ?_, nofun, nofun⟩
      intro _ c hc hpc'
      exact (hout c hc (hpc' ▸ inSlot_returnAddr hi hc)).elim
    · exact ⟨fun _ c hc hin' => inSlot_add_four hi hb hslot hc hin',
        fun _ hout' => (hout' b hb hin).elim, nofun, nofun, nofun, nofun⟩
  refine ⟨m₁, _, hrun, hnest, ?_, hret, hm₁ ▸ rfl⟩
  exact hrun.inv_of_labels (Q := WellNested s plainIsa ())
    (fun _ _ _ h hl hm => nests_step hi (fun _ _ _ => rfl) h hl hm) hnest hm

/-- The return trap of a thread, to an instruction in no slot. -/
theorem nests_back (hi : SlotInv text s) (hb : s.Added b) (hm : Nests s (fun _ => 1) () m)
    (hpc : m.pc () = s.returnAddr b) (hnext : s.Outside (s.enterAddr b + 4)) :
    ∃ m', MachineStep s plainIsa (fun _ => 1) m (.trap ()) m' ∧
      WellNested s plainIsa () (m, .trap ()) ∧
      m'.pc () = s.enterAddr b + 4 ∧ m'.frames () = m.frames () := by
  have hin : s.InSlot b (m.pc ()) := hpc ▸ inSlot_returnAddr hi hb
  obtain ⟨hss, _⟩ := hm.balanced.top hi hb hin
  obtain ⟨threads, _, htrap⟩ := machineStep_return (fun _ => 1) hi hb hm.linked hpc hss
  refine ⟨_, htrap, ⟨nofun, nofun, ?_, ?_, nofun, nofun⟩, rfl, rfl⟩
  · intro _ c hc hpc'
    exact (outside_enterAddr hi hc b hb (hpc' ▸ hin)).elim
  · intro _ c hc hpc'
    obtain rfl := inSlot_inj hi hb hc hin (hpc' ▸ inSlot_returnAddr hi hc)
    exact hnext

/-- A signal reaches the thread at breakpoint 1; its handler starts at breakpoint 2 and steps over
it, and the thread then traps at breakpoint 1. -/
theorem nested_handler_run : ∃ (s : Tracer) (m m₁ m₂ : Machine Unit Unit)
    (ls : List (Machine Unit Unit × MachineEvent Unit)),
    Run (SlotStep .unbalanced) (slotLibraries fun _ => 0)
      [.add 1 [⟨0, 0x30000⟩], .enable 1, .add 2 [⟨1, 0x40000⟩], .enable 2] s ∧
    s.Added 1 ∧ s.Added 2 ∧ Started s (fun _ => 1) m ∧
    MachineStep s plainIsa (fun _ => 1) m (.signal () (s.enterAddr 2)) m₁ ∧
    Run (Traced (MachineStep s plainIsa fun _ => 1)) m₁ ls m₂ ∧
    ls.map Prod.snd = [.trap (), .exec (), .trap (), .sigreturn (), .trap (), .exec ()] ∧
    (∀ l ∈ (m, .signal () (s.enterAddr 2)) :: ls, WellNested s plainIsa () l) ∧
    m₁.pc () = s.enterAddr 2 ∧ m₁.frames () = [s.enterAddr 1] ∧ m₂.pc () = s.returnAddr 1 := by
  obtain ⟨s, hrun, hfind, hadded, haddr, hw₁, hw₂, hsaved⟩ := slotLibraries_run fun _ => 0
  have hi := slotInv_run (patchInitial_slotLibraries _) hrun
  have hb₁ : s.Added 1 := (hadded 1).mpr (Or.inl rfl)
  have hb₂ : s.Added 2 := (hadded 2).mpr (Or.inr rfl)
  have henter₁ : s.enterAddr 1 = 0x10000 := haddr 1
  have henter₂ : s.enterAddr 2 = 0x10010 := haddr 2
  have hout₁ := outside_enterAddr hi hb₁
  have hv : ∀ b, b = 1 ∨ b = 2 → ∀ p i, s.Held b p i →
      loadInstr s.mem ((s.slots.slotSet p).slotOffset i) ≠ brkInstr := by
    intro b hb p i hp
    rw [hsaved b p i hb hp]
    rcases hb with rfl | rfl <;> decide
  have hnext : s.Outside (s.enterAddr 2 + 4) := by
    refine outside_text hi ?_
    rw [IsCovered, hfind, henter₂]
    decide
  obtain ⟨m, hstart⟩ : ∃ m, m = startedAt (s.enterAddr 1) () := ⟨_, rfl⟩
  have hm : Started s (fun _ => 1) m := hstart ▸ started_startedAt hout₁
  -- the signal
  obtain ⟨m₁, hm₁⟩ : ∃ m₁ : Machine Unit Unit, m₁ =
    { (m.setPc () (s.enterAddr 2)).setFrames () (m.points ()) with data := () } := ⟨_, rfl⟩
  have hsignal : MachineStep s plainIsa (fun _ => 1) m (.signal () (s.enterAddr 2)) m₁ :=
    hm₁ ▸ .signal
  have hl₁ : WellNested s plainIsa () (m, .signal () (s.enterAddr 2)) :=
    wellNested_signal (outside_enterAddr hi hb₂)
  have hn₁ := nests_step hi (fun _ _ _ => rfl) ⟨rfl, hsignal⟩ hl₁ (nests_started hm ())
  have hframes₁ : m₁.frames () = [s.enterAddr 1] := by
    rw [hm₁, hstart]
    rfl
  -- the handler at breakpoint 2, and the return from it
  obtain ⟨m₂, m₃, hinto, hnest, hn₃, hpc₃, hframes₃⟩ := nests_into hi hb₂ (henter₂ ▸ hw₂)
    (hv 2 (Or.inr rfl)) hn₁ (hm₁ ▸ rfl) (hframes₁ ▸ List.forall_mem_singleton.mpr hout₁)
  obtain ⟨m₄, hback, hl₄, hpc₄, hframes₄⟩ := nests_back hi hb₂ hn₃ hpc₃ hnext
  have hn₄ := nests_step hi (fun _ _ _ => rfl) ⟨rfl, hback⟩ hl₄ hn₃
  obtain ⟨m₅, hm₅⟩ : ∃ m₅ : Machine Unit Unit, m₅ =
    { (m₄.setPc () (s.enterAddr 1)).setFrames () [] with data := () } := ⟨_, rfl⟩
  have hreturn : MachineStep s plainIsa (fun _ => 1) m₄ (.sigreturn ()) m₅ :=
    hm₅ ▸ .sigreturn (hframes₄.trans (hframes₃.trans hframes₁))
  have hl₅ : WellNested s plainIsa () (m₄, .sigreturn ()) := wellNested_sigreturn (hpc₄ ▸ hnext)
  have hleave : Run (Traced (MachineStep s plainIsa fun _ => 1)) m₃
      [(m₃, .trap ()), (m₄, .sigreturn ())] m₅ :=
    .stepL ⟨rfl, hback⟩ (.stepL ⟨rfl, hreturn⟩ .refl)
  have hn₅ := nests_step hi (fun _ _ _ => rfl) ⟨rfl, hreturn⟩ hl₅ hn₄
  -- breakpoint 1
  obtain ⟨m₆, m₇, hinto', hnest', _, hpc₇, _⟩ := nests_into hi hb₁ (henter₁ ▸ hw₁)
    (hv 1 (Or.inl rfl)) hn₅ (hm₅ ▸ rfl) (hm₅ ▸ fun _ hf => absurd hf List.not_mem_nil)
  refine ⟨s, m, m₁, m₇, _, hrun, hb₁, hb₂, hm, hsignal,
    hinto.append (hleave.append hinto'), rfl, ?_, hm₁ ▸ rfl, hframes₁, hpc₇⟩
  have hleaves : ∀ l ∈ [(m₃, .trap ()), (m₄, .sigreturn ())], WellNested s plainIsa () l :=
    List.forall_mem_cons.mpr ⟨hl₄, List.forall_mem_singleton.mpr hl₅⟩
  exact List.forall_mem_cons.mpr ⟨hl₁, List.forall_mem_append.mpr
    ⟨hnest, List.forall_mem_append.mpr ⟨hleaves, hnest'⟩⟩⟩

/-- The enter trap in a handler that interrupted the thread outside the slots, and the return trap
that follows. -/
theorem trap_dispatch_return : ∃ (s : Tracer) (m₁ m₂ : Machine Unit Unit)
    (ls : List (Machine Unit Unit × MachineEvent Unit)),
    Run (Traced (MachineStep s plainIsa fun _ => 1)) m₁ ls m₂ ∧
    ls.map Prod.snd = [.trap (), .exec (), .trap (), .sigreturn (), .trap (), .exec ()] ∧
    m₁.frames () = [s.enterAddr 1] ∧ m₁.pc () = s.enterAddr 2 ∧ m₂.pc () = s.returnAddr 1 ∧
    (∀ fresh ∉ m₁.threads.allocated, ∃ threads a, s.slotAddr 2 = .ok a ∧
      s.sigtrapHandler m₁.threads 1 fresh (m₁.pc ()) = .ok (threads, a)) ∧
    ∀ fresh ∉ m₂.threads.allocated, ∃ threads,
      s.sigtrapHandler m₂.threads 1 fresh (m₂.pc ()) = .ok (threads, s.enterAddr 1 + 4) := by
  obtain ⟨s, m, m₁, m₂, ls, hrun, hb₁, hb₂, hm, hsignal, hls, hevents, hnest, hpc₁, hframes, hpc₂⟩ :=
    nested_handler_run
  have hi := slotInv_run (patchInitial_slotLibraries _) hrun
  have hfirst : Run (Traced (MachineStep s plainIsa fun _ => 1)) m
      [(m, .signal () (s.enterAddr 2))] m₁ := .stepL ⟨rfl, hsignal⟩ .refl
  refine ⟨s, m₁, m₂, ls, hls, hevents, hframes, hpc₁, hpc₂, ?_, ?_⟩
  · intro fresh hn
    have hout : ∀ f ∈ m₁.frames (), s.Outside f :=
      hframes ▸ List.forall_mem_singleton.mpr (outside_enterAddr hi hb₁)
    refine (trap_dispatch_follows_address (t := ()) (patchInitial_slotLibraries _) hrun
      (fun _ _ _ => rfl) hm hfirst ?_ hb₂ hn).2 hpc₁ hout
    exact List.forall_mem_singleton.mpr (hnest _ List.mem_cons_self)
  · intro fresh hn
    exact (trap_dispatch_follows_address (t := ()) (patchInitial_slotLibraries _) hrun
      (fun _ _ _ => rfl) hm (hfirst.append hls) hnest hb₁ hn).1 hpc₂

end Witness

end Nested

end View

end Atrace.Signal

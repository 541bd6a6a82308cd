import Atrace.Signal.MapsFormat
import Atrace.Signal.Stepping

/-! The start of the tracer: the hand-over from `entrypoint_trap_handler` to `sigtrap_handler`. -/
namespace Atrace.Signal

open Atrace.Lib Tracer

variable {ι σ : Type*} [DecidableEq ι]

/-- `object_load`, with the text of the memory map if it can be read. -/
def Tracer.objectLoad (s : Tracer) (self : Addr) (maps : Option (List UInt8)) :
    Except Fault Tracer :=
  match maps with
  | none => .error .abort
  | some maps => do
    let (objects, rv) ← objectParseMmap self s.objects maps
    if rv ≠ 0 then .error .abort else pure { s with objects := objects }

/-- The functions that `set_sighandle` installs for `SIGTRAP`. -/
inductive TrapHandler where
  | entrypoint
  | sigtrap
deriving DecidableEq

/-- Where a thread is between a trap and its return from the handler. The kernel picks the handler
when it delivers the trap. -/
inductive TrapPhase where
  | running
  | trapped (handler : TrapHandler)
  | entering (thread : ThreadPtr)
  | leaving (thread : ThreadPtr)

/-- The process with the globals of `hook_main.c`. -/
structure Hook (ι σ : Type*) where
  tracer : Tracer
  threads : ThreadMap
  entryBp : Option BkptPtr
  entryHit : Bool
  handler : TrapHandler
  pc : ι → Addr
  phase : ι → TrapPhase
  data : σ

inductive HookEvent (ι : Type*) where
  | exec (t : ι)
  | trap (t : ι)
  | handle (t : ι)
  | test (t : ι)
  | enter (t : ι)
  | leave (t : ι)

/-- A thread moves to an address and a phase. -/
def Hook.move (s : Hook ι σ) (t : ι) (a : Addr) (phase : TrapPhase) : Hook ι σ :=
  { s with pc := Function.update s.pc t a, phase := Function.update s.phase t phase }

/-- The steps of the process. `entrypoint_trap_handler` is taken apart at its test of `entry_hit`;
`set_sighandle` belongs to the test, the stores after it are a step of their own. -/
inductive HookStep (isa : Isa ι σ) (tid : ι → Nat) (self : Addr) :
    Hook ι σ → HookEvent ι → Hook ι σ → Prop where
  | exec {s : Hook ι σ} {t : ι} {data : σ} {a : Addr} (hp : s.phase t = .running)
      (hw : loadInstr s.tracer.mem (s.pc t) ≠ brkInstr)
      (hrun : isa t (loadInstr s.tracer.mem (s.pc t)) (s.pc t) s.data = (data, a)) :
      HookStep isa tid self s (.exec t) { s.move t a .running with data := data }
  | trap {s : Hook ι σ} {t : ι} (hp : s.phase t = .running)
      (hw : loadInstr s.tracer.mem (s.pc t) = brkInstr) :
      HookStep isa tid self s (.trap t) (s.move t (s.pc t) (.trapped s.handler))
  | handle {s : Hook ι σ} {t : ι} {fresh : ThreadPtr} {threads : ThreadMap} {a : Addr}
      (hp : s.phase t = .trapped .sigtrap) (hn : fresh ∉ s.threads.allocated)
      (hrun : s.tracer.sigtrapHandler s.threads (tid t) fresh (s.pc t) = .ok (threads, a)) :
      HookStep isa tid self s (.handle t) { s.move t a .running with threads := threads }
  | testClear {s : Hook ι σ} {t : ι} {fresh p : ThreadPtr} {threads : ThreadMap}
      (hp : s.phase t = .trapped .entrypoint) (hn : fresh ∉ s.threads.allocated)
      (hrun : s.threads.findOrAdd (tid t) fresh = .ok (threads, p)) (he : s.entryBp ≠ none)
      (hit : s.entryHit = false) :
      HookStep isa tid self s (.test t)
        { s.move t (s.pc t) (.entering p) with threads := threads }
  | testHit {s : Hook ι σ} {t : ι} {fresh p : ThreadPtr} {threads : ThreadMap}
      (hp : s.phase t = .trapped .entrypoint) (hn : fresh ∉ s.threads.allocated)
      (hrun : s.threads.findOrAdd (tid t) fresh = .ok (threads, p)) (he : s.entryBp ≠ none)
      (hit : s.entryHit = true) :
      HookStep isa tid self s (.test t)
        { s.move t (s.pc t) (.leaving p) with threads := threads, handler := .sigtrap }
  | enter {s : Hook ι σ} {t : ι} {p : ThreadPtr} {e : BkptPtr} {maps : Option (List UInt8)}
      {tracer : Tracer} {a : Addr} (hp : s.phase t = .entering p) (he : s.entryBp = some e)
      (hload : s.tracer.objectLoad self maps = .ok tracer) (ha : tracer.slotAddr e = .ok a) :
      HookStep isa tid self s (.enter t)
        { s.move t a .running with
          tracer := tracer
          threads := s.threads.setSinglestep p (some e)
          entryHit := true }
  | leave {s : Hook ι σ} {t : ι} {p : ThreadPtr} {e : BkptPtr} (hp : s.phase t = .leaving p)
      (he : s.entryBp = some e) :
      HookStep isa tid self s (.leave t)
        { s.move t (s.tracer.enterAddr e + 4) .running with
          threads := s.threads.setSinglestep p none }

/-- The state that `lib_init` leaves: its two breakpoints added and enabled, and the handler of the
entry point installed. -/
structure LibInit (rb : RbLib BpEntry) (s₀ : Tracer) (e b : BkptPtr) (s : Hook ι σ) : Prop where
  initial : s₀.PatchInitial
  run : ∃ news news', Run (SlotStep rb) s₀ [.add e news, .enable e, .add b news', .enable b] s.tracer
  added : s.tracer.Added e ∧ s.tracer.Added b
  threads : s.threads = .init
  entryBp : s.entryBp = some e
  entryHit : s.entryHit = false
  handler : s.handler = .entrypoint
  phase : ∀ t, s.phase t = .running
  outside : ∀ t, s.tracer.Outside (s.pc t)

section Reload

variable {s s' : Tracer} {text : Addr → Prop} {objs : List Object} {b : BkptPtr} {a : Addr}

theorem Tracer.objectLoad_cases {self : Addr} {maps : Option (List UInt8)}
    (h : s.objectLoad self maps = .ok s') :
    ∃ objs, Extends s.objects objs ∧ s' = { s with objects := objs } := by
  cases maps with
  | none => cases h
  | some maps =>
    obtain ⟨⟨objs, rv⟩, hparse, h⟩ := bind_ok h
    dsimp only at h
    split at h
    · cases h
    · cases h
      exact ⟨objs, objectParseMmap_extends hparse, rfl⟩

theorem chainEmpty_reload (h : Extends s.objects objs) (b : BkptPtr) :
    ({ s with objects := objs } : Tracer).chainEmpty b = s.chainEmpty b := by
  obtain ⟨news, rfl, hnews⟩ := h
  have hall : (news.all fun o => decide (b ∉ o.breakpointChain)) = true := by
    rw [List.all_eq_true]
    intro o ho
    simp [hnews o ho]
  rw [chainEmpty, List.all_append, hall, Bool.and_true]
  rfl

theorem held_reload {p : SlotSetPtr} {i : Nat} :
    ({ s with objects := objs } : Tracer).Held b p i ↔ s.Held b p i := by
  constructor <;> intro h <;>
    exact ⟨h.slotSet, h.slotIndex, h.listed, h.lt, h.taken, h.linked, h.returnAddr, h.brk⟩

theorem added_reload (h : Extends s.objects objs) :
    ({ s with objects := objs } : Tracer).Added b ↔ s.Added b := by
  rw [Added, chainEmpty_reload h]
  rfl

/-- Loading the objects again leaves the breakpoints as they are. -/
theorem slotInv_reload (hi : SlotInv text s) (h : Extends s.objects objs) :
    SlotInv text { s with objects := objs } := by
  refine ⟨hi.word, hi.wellFormed, hi.layout, hi.noSlot, ?_, ?_, ?_, ?_⟩
  · intro b hb
    obtain ⟨hchain, henter, hret⟩ := hi.fresh b (mt (added_reload h).mpr hb)
    exact ⟨(chainEmpty_reload h b).trans hchain, henter, hret⟩
  · exact fun b hb => hi.text b ((added_reload h).mp hb)
  · intro b hb
    obtain ⟨p, i, hp⟩ := hi.held b ((added_reload h).mp hb)
    exact ⟨p, i, held_reload.mpr hp⟩
  · exact fun b c hb hc => hi.distinct b c ((added_reload h).mp hb) ((added_reload h).mp hc)

theorem inSlot_reload : ({ s with objects := objs } : Tracer).InSlot b a ↔ s.InSlot b a := by
  constructor
  · rintro ⟨p, i, hp, hw⟩
    exact ⟨p, i, held_reload.mp hp, hw⟩
  · rintro ⟨p, i, hp, hw⟩
    exact ⟨p, i, held_reload.mpr hp, hw⟩

theorem outside_reload (h : Extends s.objects objs) :
    ({ s with objects := objs } : Tracer).Outside a ↔ s.Outside a := by
  constructor <;> intro hout b hb hin
  · exact hout b ((added_reload h).mpr hb) (inSlot_reload.mpr hin)
  · exact hout b ((added_reload h).mp hb) (inSlot_reload.mp hin)

theorem balanced_reload {ss : Option BkptPtr} {as : List Addr} (h : Extends s.objects objs)
    (hm : Balanced s ss as) : Balanced { s with objects := objs } ss as := by
  cases ss with
  | none => exact fun a ha => (outside_reload h).mpr (hm a ha)
  | some b =>
    obtain ⟨pre, x, post, rfl, hb, hx, hout⟩ := hm
    exact ⟨pre, x, post, rfl, (added_reload h).mpr hb, inSlot_reload.mpr hx,
      fun f hf => (outside_reload h).mpr (hout f hf)⟩

end Reload

section HandOver

variable {s s' : Hook ι σ} {isa : Isa ι σ} {tid : ι → Nat} {self : Addr} {e b : BkptPtr} {t u : ι}
  {text : Addr → Prop} {a : Addr} {ev : HookEvent ι}

/-- What the steps of the process may not do. Until the switch the traps are those of the entry
point, the first at its enter address and the second at its return address, and each finds all
threads running; a displaced instruction leaves the thread in its slot, and no other step leads
into one. -/
structure InOrder (e : BkptPtr) (isa : Isa ι σ) (l : Hook ι σ × HookEvent ι) : Prop where
  trap : ∀ t, l.2 = .trap t → l.1.handler = .entrypoint → (∀ u, l.1.phase u = .running) ∧
    l.1.pc t = if l.1.entryHit then l.1.tracer.returnAddr e else l.1.tracer.enterAddr e
  displaced : ∀ t, l.2 = .exec t → ∀ b, l.1.tracer.Added b → l.1.tracer.InSlot b (l.1.pc t) →
    l.1.tracer.InSlot b (isa t (loadInstr l.1.tracer.mem (l.1.pc t)) (l.1.pc t) l.1.data).2
  program : ∀ t, l.2 = .exec t → l.1.tracer.Outside (l.1.pc t) →
    l.1.tracer.Outside (isa t (loadInstr l.1.tracer.mem (l.1.pc t)) (l.1.pc t) l.1.data).2
  leave : ∀ t, l.2 = .handle t ∨ l.2 = .leave t → ∀ b, l.1.tracer.Added b →
    l.1.pc t = l.1.tracer.returnAddr b → l.1.tracer.Outside (l.1.tracer.enterAddr b + 4)

/-- No other thread is in a handler before the switch. -/
def Alone (s : Hook ι σ) (t : ι) : Prop :=
  s.handler = .entrypoint ∧ ∀ u, u ≠ t → s.phase u = .running

/-- Where a thread can be while `entrypoint_trap_handler` runs in it. -/
def PhaseOk (tid : ι → Nat) (e : BkptPtr) (s : Hook ι σ) (t : ι) : Prop :=
  match s.phase t with
  | .running => True
  | .trapped .sigtrap => True
  | .trapped .entrypoint => Alone s t ∧
      s.pc t = if s.entryHit then s.tracer.returnAddr e else s.tracer.enterAddr e
  | .entering p => Alone s t ∧ s.pc t = s.tracer.enterAddr e ∧
      s.threads.threadMapFind (tid t) = some p
  | .leaving p => s.pc t = s.tracer.returnAddr e ∧ s.threads.threadMapFind (tid t) = some p

/-- The invariant of the hand-over. -/
structure HandOver (text : Addr → Prop) (tid : ι → Nat) (e : BkptPtr) (s : Hook ι σ) : Prop where
  inv : SlotInv text s.tracer
  linked : s.threads.Linked
  entryBp : s.entryBp = some e
  added : s.tracer.Added e
  balanced : ∀ t, Balanced s.tracer (s.threads.singlestep (tid t)) [s.pc t]
  phase : ∀ t, PhaseOk tid e s t

theorem Hook.move_pc (s : Hook ι σ) (t u : ι) (a : Addr) (ph : TrapPhase) :
    (s.move t a ph).pc u = if u = t then a else s.pc u :=
  Function.update_apply ..

/-- A thread that stays where it is. -/
theorem Hook.move_self (s : Hook ι σ) (t u : ι) (ph : TrapPhase) :
    (s.move t (s.pc t) ph).pc u = s.pc u := by
  rw [Hook.move_pc]
  split
  · rename_i hu
    rw [hu]
  · rfl

theorem Hook.move_phase (s : Hook ι σ) (t u : ι) (a : Addr) (ph : TrapPhase) :
    (s.move t a ph).phase u = if u = t then ph else s.phase u :=
  Function.update_apply ..

omit [DecidableEq ι] in
/-- A thread that waits in a handler keeps its place, if before the switch the others only go back
to running. -/
theorem phaseOk_other (htracer : s'.tracer = s.tracer) (hhit : s'.entryHit = s.entryHit)
    (hhandler : s'.handler = s.handler) (hkeeps : s.threads.Keeps s'.threads)
    (hrun : s.handler = .entrypoint → ∀ v, s.phase v = .running → s'.phase v = .running)
    (hpc : s'.pc u = s.pc u) (hphase : s'.phase u = s.phase u) (h : PhaseOk tid e s u) :
    PhaseOk tid e s' u := by
  have halone : Alone s u → Alone s' u :=
    fun ⟨hh, hv⟩ => ⟨hhandler.trans hh, fun v hne => hrun hh v (hv v hne)⟩
  unfold PhaseOk at h ⊢
  rw [hphase, htracer, hhit, hpc]
  split at h
  · trivial
  · trivial
  · exact ⟨halone h.1, h.2⟩
  · exact ⟨halone h.1, h.2.1, hkeeps _ _ h.2.2⟩
  · exact ⟨h.1, hkeeps _ _ h.2⟩

omit [DecidableEq ι] in
theorem phaseOk_running (h : s.phase t = .running) : PhaseOk tid e s t := by
  simp [PhaseOk, h]

namespace HandOver

variable {p : ThreadPtr}

omit [DecidableEq ι] in
theorem at_test (hi : HandOver text tid e s) (hp : s.phase t = .trapped .entrypoint) :
    Alone s t ∧ s.pc t = if s.entryHit then s.tracer.returnAddr e else s.tracer.enterAddr e := by
  have ht := hi.phase t
  unfold PhaseOk at ht
  rw [hp] at ht
  exact ht

omit [DecidableEq ι] in
theorem at_entering (hi : HandOver text tid e s) (hp : s.phase t = .entering p) :
    Alone s t ∧ s.pc t = s.tracer.enterAddr e ∧ s.threads.threadMapFind (tid t) = some p := by
  have ht := hi.phase t
  unfold PhaseOk at ht
  rw [hp] at ht
  exact ht

omit [DecidableEq ι] in
theorem at_leaving (hi : HandOver text tid e s) (hp : s.phase t = .leaving p) :
    s.pc t = s.tracer.returnAddr e ∧ s.threads.threadMapFind (tid t) = some p := by
  have ht := hi.phase t
  unfold PhaseOk at ht
  rw [hp] at ht
  exact ht

end HandOver

omit [DecidableEq ι] in
/-- A step of `t` that leaves the tracer alone. -/
theorem HandOver.next (hi : HandOver text tid e s) (htracer : s'.tracer = s.tracer)
    (hentry : s'.entryBp = s.entryBp) (hlinked : s'.threads.Linked)
    (hothers : ∀ u, u ≠ t → s'.threads.singlestep (tid u) = s.threads.singlestep (tid u) ∧
      s'.pc u = s.pc u)
    (hself : Balanced s.tracer (s'.threads.singlestep (tid t)) [s'.pc t])
    (hphase : ∀ u, PhaseOk tid e s' u) : HandOver text tid e s' := by
  refine ⟨htracer ▸ hi.inv, hlinked, hentry.trans hi.entryBp, htracer ▸ hi.added, ?_, hphase⟩
  intro u
  by_cases hu : u = t
  · subst u
    rw [htracer]
    exact hself
  · rw [htracer, (hothers u hu).1, (hothers u hu).2]
    exact hi.balanced u

/-- A thread that waits keeps its place when `t` goes back to running. -/
theorem phaseOk_resume {threads : ThreadMap} {data : σ} (hi : HandOver text tid e s)
    (hkeeps : s.threads.Keeps threads) (u : ι) :
    PhaseOk tid e { s.move t a .running with threads := threads, data := data } u := by
  by_cases hu : u = t
  · subst u
    apply phaseOk_running
    simp [Hook.move_phase]
  · refine phaseOk_other (s := s) rfl rfl rfl hkeeps ?_ ?_ ?_ (hi.phase u)
    · intro _ v hv
      simp only [Hook.move_phase, hv, ite_self]
    · simp [Hook.move_pc, hu]
    · simp [Hook.move_phase, hu]

theorem handOver_exec {data : σ} (hi : HandOver text tid e s)
    (hin : ∀ b, s.tracer.Added b → s.tracer.InSlot b (s.pc t) → s.tracer.InSlot b a)
    (hout : s.tracer.Outside (s.pc t) → s.tracer.Outside a) :
    HandOver text tid e { s.move t a .running with data := data } := by
  refine hi.next (t := t) rfl rfl hi.linked ?_ ?_ (phaseOk_resume hi fun _ _ h => h)
  · intro u hu
    exact ⟨rfl, by simp [Hook.move_pc, hu]⟩
  · simp only [Hook.move_pc, if_true]
    exact (hi.balanced t).exec hi.inv hin hout

theorem handOver_trap (hi : HandOver text tid e s)
    (htrap : s.handler = .entrypoint → (∀ u, s.phase u = .running) ∧
      s.pc t = if s.entryHit then s.tracer.returnAddr e else s.tracer.enterAddr e) :
    HandOver text tid e (s.move t (s.pc t) (.trapped s.handler)) := by
  have hpc := fun u => s.move_self t u (.trapped s.handler)
  refine hi.next (t := t) rfl rfl hi.linked (fun u _ => ⟨rfl, hpc u⟩) ?_ ?_
  · rw [hpc]
    exact hi.balanced t
  · intro u
    by_cases hu : u = t
    · subst u
      unfold PhaseOk
      rw [Hook.move_phase, if_pos rfl, hpc]
      cases hh : s.handler with
      | sigtrap => trivial
      | entrypoint =>
        obtain ⟨hrun, hat⟩ := htrap hh
        refine ⟨⟨hh, ?_⟩, hat⟩
        intro v hv
        rw [Hook.move_phase, if_neg hv]
        exact hrun v
    · by_cases hh : s.handler = .entrypoint
      · apply phaseOk_running
        rw [Hook.move_phase, if_neg hu]
        exact (htrap hh).1 u
      · refine phaseOk_other (s := s) rfl rfl rfl (fun _ _ h => h) ?_ (hpc u) ?_ (hi.phase u)
        · exact fun he => absurd he hh
        · rw [Hook.move_phase, if_neg hu]

theorem handOver_handle {fresh : ThreadPtr} {threads : ThreadMap} (htid : Function.Injective tid)
    (hi : HandOver text tid e s) (hn : fresh ∉ s.threads.allocated)
    (hrun : s.tracer.sigtrapHandler s.threads (tid t) fresh (s.pc t) = .ok (threads, a))
    (hleave : ∀ b, s.tracer.Added b → s.pc t = s.tracer.returnAddr b →
      s.tracer.Outside (s.tracer.enterAddr b + 4)) :
    HandOver text tid e { s.move t a .running with threads := threads } := by
  obtain ⟨b, ss, hf, hd, hh⟩ := sigtrapHandler_cases hi.linked hn hrun
  refine hi.next (t := t) rfl rfl hh.linked ?_ ?_ (phaseOk_resume hi hh.keeps)
  · intro u hu
    refine ⟨(hh.singlestep _).trans (if_neg fun he => hu (htid he)), ?_⟩
    simp [Hook.move_pc, hu]
  · simp only [Hook.move_pc, if_true, hh.singlestep]
    exact balanced_dispatch hi.inv (hi.balanced t) hf hd (fun _ f hf => absurd hf List.not_mem_nil)
      (hleave b (added_of_breakpointFind hi.inv hf))

/-- The test of `entry_hit`, in both cases, and what the thread waits for then. -/
theorem handOver_test {fresh p : ThreadPtr} {threads : ThreadMap} {handler : TrapHandler}
    {phase : TrapPhase} (hi : HandOver text tid e s) (hp : s.phase t = .trapped .entrypoint)
    (hn : fresh ∉ s.threads.allocated)
    (hrun : s.threads.findOrAdd (tid t) fresh = .ok (threads, p))
    (hphase : threads.threadMapFind (tid t) = some p → PhaseOk tid e
      { s.move t (s.pc t) phase with threads := threads, handler := handler } t) :
    HandOver text tid e { s.move t (s.pc t) phase with threads := threads, handler := handler } := by
  obtain ⟨_, _, hrun', hlinked, hfind, hsame, _⟩ := ThreadMap.findOrAdd_returns (tid t) hi.linked hn
  obtain ⟨rfl, rfl⟩ := Prod.mk.inj (Except.ok.inj (hrun.symm.trans hrun'))
  have hpc := fun u => s.move_self t u phase
  obtain ⟨halone, _⟩ := hi.at_test hp
  refine hi.next (t := t) rfl rfl hlinked (fun u _ => ⟨hsame _, hpc u⟩) ?_ ?_
  · simp only [hpc, hsame]
    exact hi.balanced t
  · intro u
    by_cases hu : u = t
    · subst u
      exact hphase hfind
    · apply phaseOk_running
      simp [Hook.move_phase, hu, halone.2 u hu]

theorem handOver_enter {p : ThreadPtr} {maps : Option (List UInt8)} {tracer : Tracer}
    (htid : Function.Injective tid) (hi : HandOver text tid e s) (hp : s.phase t = .entering p)
    (hload : s.tracer.objectLoad self maps = .ok tracer) (ha : tracer.slotAddr e = .ok a) :
    HandOver text tid e
      { s.move t a .running with
        tracer := tracer
        threads := s.threads.setSinglestep p (some e)
        entryHit := true } := by
  obtain ⟨objs, hext, rfl⟩ := objectLoad_cases hload
  obtain ⟨halone, _, hfind⟩ := hi.at_entering hp
  have hadded := (added_reload (b := e) hext).mpr hi.added
  have hss : ∀ u, (s.threads.setSinglestep p (some e)).singlestep (tid u) =
      if u = t then some e else s.threads.singlestep (tid u) := by
    intro u
    rw [ThreadMap.setSinglestep_singlestep hfind]
    simp only [htid.eq_iff]
  refine ⟨slotInv_reload hi.inv hext, hi.linked, hi.entryBp, hadded, ?_, ?_⟩
  · intro u
    rw [hss]
    by_cases hu : u = t
    · simp only [hu, if_true, Hook.move_pc]
      exact .step_in hadded (inSlot_slotAddr (slotInv_reload hi.inv hext) hadded ha)
        fun f hf => absurd hf List.not_mem_nil
    · simp only [if_neg hu, Hook.move_pc]
      exact balanced_reload hext (hi.balanced u)
  · intro u
    apply phaseOk_running
    by_cases hu : u = t
    · simp [Hook.move_phase, hu]
    · simp [Hook.move_phase, hu, halone.2 u hu]

theorem handOver_leave {p : ThreadPtr} (htid : Function.Injective tid) (hi : HandOver text tid e s)
    (hp : s.phase t = .leaving p)
    (hout : s.pc t = s.tracer.returnAddr e → s.tracer.Outside (s.tracer.enterAddr e + 4)) :
    HandOver text tid e
      { s.move t (s.tracer.enterAddr e + 4) .running with
        threads := s.threads.setSinglestep p none } := by
  obtain ⟨hpc, hfind⟩ := hi.at_leaving hp
  refine hi.next (t := t) rfl rfl hi.linked ?_ ?_ (phaseOk_resume hi ThreadMap.keeps_setSinglestep)
  · intro u hu
    refine ⟨(ThreadMap.setSinglestep_singlestep hfind).trans (if_neg fun he => hu (htid he)), ?_⟩
    simp [Hook.move_pc, hu]
  · simp only [Hook.move_pc, if_true, ThreadMap.setSinglestep_singlestep hfind]
    exact List.forall_mem_singleton.mpr (hout hpc)

theorem handOver_step {l : Hook ι σ × HookEvent ι} (htid : Function.Injective tid)
    (h : Traced (HookStep isa tid self) s l s') (hl : InOrder e isa l)
    (hi : HandOver text tid e s) : HandOver text tid e s' := by
  obtain ⟨s₁, ev⟩ := l
  obtain ⟨rfl, h⟩ := h
  have hentry : ∀ e', s₁.entryBp = some e' → e' = e :=
    fun e' he => Option.some.inj (he.symm.trans hi.entryBp)
  cases h with
  | @exec t data a hp hw hrun =>
    refine handOver_exec hi ?_ ?_
    · have hin := hl.displaced t rfl
      simp only [hrun] at hin
      exact hin
    · have hout := hl.program t rfl
      simp only [hrun] at hout
      exact hout
  | trap hp hw => exact handOver_trap hi (hl.trap _ rfl)
  | handle hp hn hrun => exact handOver_handle htid hi hn hrun (hl.leave _ (Or.inl rfl))
  | @testClear t fresh p threads hp hn hrun he hit =>
    refine handOver_test hi hp hn hrun ?_
    intro hfind
    obtain ⟨⟨hh, hothers⟩, hpc⟩ := hi.at_test hp
    rw [hit] at hpc
    unfold PhaseOk
    rw [Hook.move_phase, if_pos rfl, Hook.move_pc, if_pos rfl]
    refine ⟨⟨hh, ?_⟩, hpc, hfind⟩
    intro u hu
    exact (s₁.move_phase t u (s₁.pc t) _).trans ((if_neg hu).trans (hothers u hu))
  | @testHit t fresh p threads hp hn hrun he hit =>
    refine handOver_test hi hp hn hrun ?_
    intro hfind
    obtain ⟨_, hpc⟩ := hi.at_test hp
    rw [hit] at hpc
    unfold PhaseOk
    rw [Hook.move_phase, if_pos rfl, Hook.move_pc, if_pos rfl]
    exact ⟨hpc, hfind⟩
  | enter hp he hload ha =>
    obtain rfl := hentry _ he
    exact handOver_enter htid hi hp hload ha
  | leave hp he =>
    obtain rfl := hentry _ he
    exact handOver_leave htid hi hp fun hpc => hl.leave _ (Or.inr rfl) _ hi.added hpc

omit [DecidableEq ι] in
theorem handOver_libInit {rb : RbLib BpEntry} {s₀ : Tracer} (h : LibInit rb s₀ e b s) :
    HandOver s.tracer.IsCovered tid e s := by
  obtain ⟨news, news', hrun⟩ := h.run
  refine ⟨slotInv_run h.initial hrun, ?_, h.entryBp, h.added.1, ?_, ?_⟩
  · rw [h.threads]
    exact ThreadMap.linked_init
  · intro t
    rw [h.threads, ThreadMap.singlestep_init]
    exact List.forall_mem_singleton.mpr (h.outside t)
  · exact fun t => phaseOk_running (h.phase t)

/-- The step of a handler that sends its thread back to the program. -/
def Resumes (ev : HookEvent ι) (t : ι) : Prop := ev = .handle t ∨ ev = .enter t ∨ ev = .leave t

/-- Every handler that returns has sent its thread where the trapped address says. -/
theorem resumes_at (hi : HandOver text tid e s) (h : HookStep isa tid self s ev s')
    (hr : Resumes ev t) (hb : s.tracer.Added b) :
    (s.pc t = s.tracer.enterAddr b → s.tracer.slotAddr b = .ok (s'.pc t)) ∧
      (s.pc t = s.tracer.returnAddr b → s'.pc t = s.tracer.enterAddr b + 4) := by
  have hne : ∀ c, s.tracer.Added c → s.tracer.enterAddr b ≠ s.tracer.returnAddr c ∧
      s.tracer.enterAddr c ≠ s.tracer.returnAddr b := by
    intro c hc
    have hret := fun d hd => inSlot_returnAddr (b := d) hi.inv hd
    exact ⟨fun he => outside_enterAddr hi.inv hb c hc (he ▸ hret c hc),
      fun he => outside_enterAddr hi.inv hc b hb (he ▸ hret b hb)⟩
  have hself : ∀ a ph, (s.move t a ph).pc t = a := by
    intro a ph
    rw [Hook.move_pc, if_pos rfl]
  cases h with
  | exec => rcases hr with hr | hr | hr <;> cases hr
  | trap => rcases hr with hr | hr | hr <;> cases hr
  | testClear => rcases hr with hr | hr | hr <;> cases hr
  | testHit => rcases hr with hr | hr | hr <;> cases hr
  | @handle u fresh threads a hp hn hrun =>
    obtain rfl : u = t := by rcases hr with hr | hr | hr <;> cases hr; rfl
    obtain ⟨c, ss, hf, hd, _⟩ := sigtrapHandler_cases hi.linked hn hrun
    simp only [hself]
    constructor
    · intro hpc
      rw [hpc, hi.inv.find_enter hb] at hf
      obtain rfl := Option.some.inj hf
      have hnone := (hi.balanced _).eq_none
        (List.forall_mem_singleton.mpr (hpc ▸ outside_enterAddr hi.inv hb))
      rcases dispatch_cases hd with ⟨_, a, ha, hr⟩ | ⟨hss, _⟩
      · exact (Prod.mk.inj hr).2 ▸ ha
      · cases hnone.symm.trans hss
    · intro hpc
      rw [hpc, hi.inv.find_return hb] at hf
      obtain rfl := Option.some.inj hf
      obtain ⟨hsome, _⟩ := (hi.balanced _).top hi.inv hb (hpc ▸ inSlot_returnAddr hi.inv hb)
      rcases dispatch_cases hd with ⟨hss, _⟩ | ⟨_, hr⟩
      · cases hsome.symm.trans hss
      · exact (Prod.mk.inj hr).2
  | @enter u p e' maps tracer a hp he hload ha =>
    obtain rfl : u = t := by rcases hr with hr | hr | hr <;> cases hr; rfl
    obtain rfl := Option.some.inj (he.symm.trans hi.entryBp)
    obtain ⟨objs, _, rfl⟩ := objectLoad_cases hload
    obtain ⟨_, hpc, _⟩ := hi.at_entering hp
    simp only [hself]
    constructor
    · intro hpc'
      obtain rfl := hi.inv.enter_inj hi.added hb (hpc.symm.trans hpc')
      exact ha
    · intro hpc'
      exact ((hne _ hi.added).2 (hpc.symm.trans hpc')).elim
  | @leave u p e' hp he =>
    obtain rfl : u = t := by rcases hr with hr | hr | hr <;> cases hr; rfl
    obtain rfl := Option.some.inj (he.symm.trans hi.entryBp)
    obtain ⟨hpc, _⟩ := hi.at_leaving hp
    simp only [hself]
    constructor
    · intro hpc'
      exact ((hne _ hi.added).1 (hpc'.symm.trans hpc)).elim
    · intro hpc'
      have hin := inSlot_returnAddr hi.inv hi.added
      rw [← hpc, hpc'] at hin
      rw [inSlot_inj hi.inv hi.added hb hin (inSlot_returnAddr hi.inv hb)]

omit [DecidableEq ι] in
/-- No assertion of `sigtrap_handler` fails at a breakpoint. -/
theorem handler_returns (hi : HandOver text tid e s) (hb : s.tracer.Added b) {fresh : ThreadPtr}
    (hn : fresh ∉ s.threads.allocated)
    (hpc : s.pc t = s.tracer.enterAddr b ∨ s.pc t = s.tracer.returnAddr b) :
    ∃ r, s.tracer.sigtrapHandler s.threads (tid t) fresh (s.pc t) = .ok r := by
  rcases hpc with hpc | hpc
  · obtain ⟨p, i, hp⟩ := hi.inv.held b hb
    have hss := (hi.balanced t).eq_none
      (List.forall_mem_singleton.mpr (hpc ▸ outside_enterAddr hi.inv hb))
    obtain ⟨threads, hrun, _⟩ := sigtrapHandler_returns (tid t) hi.linked hn
      (hpc ▸ hi.inv.find_enter hb) (hss ▸ dispatch_enter hp)
    exact ⟨_, hrun⟩
  · obtain ⟨hss, _⟩ := (hi.balanced t).top hi.inv hb (hpc ▸ inSlot_returnAddr hi.inv hb)
    obtain ⟨threads, hrun, _⟩ := sigtrapHandler_returns (tid t) hi.linked hn
      (hpc ▸ hi.inv.find_return hb) (hss ▸ s.tracer.dispatch_return b)
    exact ⟨_, hrun⟩

theorem handOver_run {rb : RbLib BpEntry} {s₀ : Tracer} {s₁ : Hook ι σ}
    {ls : List (Hook ι σ × HookEvent ι)} (h₀ : LibInit rb s₀ e b s₁)
    (htid : Function.Injective tid) (h : Run (Traced (HookStep isa tid self)) s₁ ls s)
    (horder : ∀ l ∈ ls, InOrder e isa l) : HandOver s₁.tracer.IsCovered tid e s :=
  h.inv_of_labels (Q := InOrder e isa)
    (fun _ _ _ hstep hl hm => handOver_step htid hstep hl hm) horder (handOver_libInit h₀)

/-- From the state that `lib_init` leaves, if the first two traps are the entry point's own: every
handler that returns has sent its thread to the slot of the breakpoint it entered, or after the
breakpoint it returned from, and the switch happens on the return trap of the entry point. -/
theorem start_up_hand_over {rb : RbLib BpEntry} {s₀ : Tracer} {s₁ : Hook ι σ}
    {ls : List (Hook ι σ × HookEvent ι)} {b₂ : BkptPtr} (h₀ : LibInit rb s₀ e b₂ s₁)
    (htid : Function.Injective tid) (h : Run (Traced (HookStep isa tid self)) s₁ ls s)
    (horder : ∀ l ∈ ls, InOrder e isa l) :
    (∀ ev s', HookStep isa tid self s ev s' →
      (∀ t b, Resumes ev t → s.tracer.Added b →
        (s.pc t = s.tracer.enterAddr b → s.tracer.slotAddr b = .ok (s'.pc t)) ∧
        (s.pc t = s.tracer.returnAddr b → s'.pc t = s.tracer.enterAddr b + 4)) ∧
      (s'.handler ≠ s.handler → ∃ t, ev = .test t ∧ s.pc t = s.tracer.returnAddr e)) ∧
    (∀ t b, s.tracer.Added b →
      (s.pc t = s.tracer.enterAddr b ∨ s.pc t = s.tracer.returnAddr b) →
      ∀ fresh ∉ s.threads.allocated,
        ∃ r, s.tracer.sigtrapHandler s.threads (tid t) fresh (s.pc t) = .ok r) := by
  have hi := handOver_run h₀ htid h horder
  refine ⟨?_, fun t b hb hpc fresh hn => handler_returns hi hb hn hpc⟩
  intro ev s' hstep
  refine ⟨fun t b hr hb => resumes_at hi hstep hr hb, ?_⟩
  intro hne
  cases hstep with
  | exec => exact absurd rfl hne
  | trap => exact absurd rfl hne
  | handle => exact absurd rfl hne
  | testClear => exact absurd rfl hne
  | @testHit t fresh p threads hp hn hrun he hit =>
    obtain ⟨_, hpc⟩ := hi.at_test hp
    rw [hit] at hpc
    exact ⟨t, rfl, hpc⟩
  | enter => exact absurd rfl hne
  | leave => exact absurd rfl hne

/-- The first hit of the process, of the breakpoint `b`: the handler of the entry point sends the
thread to the slot of the entry point. -/
structure FirstHit (b : BkptPtr) (s₁ s₂ s s' : Hook Unit Unit) : Prop where
  init : LibInit .unbalanced (slotLibraries fun _ => 0) 1 2 s₁
  trap : HookStep plainIsa (fun _ => 1) 0x50000 s₁ (.trap ()) s₂
  test : HookStep plainIsa (fun _ => 1) 0x50000 s₂ (.test ()) s
  enter : HookStep plainIsa (fun _ => 1) 0x50000 s (.enter ()) s'
  pc : s₁.pc () = s₁.tracer.enterAddr b
  tracer : s.tracer = s₁.tracer
  same : s.pc () = s₁.pc ()
  slot : s.tracer.slotAddr 1 = .ok (s'.pc ())
  handler : s'.handler = .entrypoint
  entryHit : s'.entryHit = true
  phase : s'.phase () = .running
  resumed : s'.tracer.slotAddr 1 = .ok (s'.pc ())
  word : loadInstr s'.tracer.mem (s'.pc ()) = 0

/-- It may be the entry point (1) or the second breakpoint (2). -/
theorem first_hit (hb : b = 1 ∨ b = 2) : ∃ s₁ s₂ s s' : Hook Unit Unit, FirstHit b s₁ s₂ s s' := by
  obtain ⟨s, hrun, _, hadded, haddr, hw₁, hw₂, hsaved⟩ := slotLibraries_run fun _ => 0
  have hi := slotInv_run (patchInitial_slotLibraries _) hrun
  have hb₁ : s.Added 1 := (hadded 1).mpr (Or.inl rfl)
  obtain ⟨p, i, hp⟩ := hi.held 1 hb₁
  have hw : loadInstr s.mem (s.enterAddr b) = brkInstr := by
    rw [haddr]
    rcases hb with rfl | rfl
    · exact hw₁
    · exact hw₂
  obtain ⟨s₁, hs₁⟩ : ∃ s₁ : Hook Unit Unit, s₁ = ⟨s, .init, some 1, false, .entrypoint,
    fun _ => s.enterAddr b, fun _ => .running, ()⟩ := ⟨_, rfl⟩
  have hinit : LibInit .unbalanced (slotLibraries fun _ => 0) 1 2 s₁ := by
    rw [hs₁]
    exact ⟨patchInitial_slotLibraries _, ⟨_, _, hrun⟩, ⟨hb₁, (hadded 2).mpr (Or.inr rfl)⟩, rfl, rfl,
      rfl, rfl, fun _ => rfl, fun _ => outside_enterAddr hi ((hadded b).mpr hb)⟩
  have hn : 0 ∉ s₁.threads.allocated := hs₁ ▸ List.not_mem_nil
  obtain ⟨threads, q, hfind, _⟩ := ThreadMap.findOrAdd_returns 1 (hs₁ ▸ ThreadMap.linked_init) hn
  have hload : s₁.tracer.objectLoad 0x50000 (some (renderMaps [libraryEntry])) = .ok
      { s with objects := addLine 0x50000 s.objects libraryEntry.line } := by
    rw [hs₁, objectLoad, objectParseMmap_foldl]
    rfl
  have hslot : ({ s with objects := addLine 0x50000 s.objects libraryEntry.line } : Tracer).slotAddr 1
      = .ok ((s.slots.slotSet p).slotOffset i) := hp.slotAddr
  obtain ⟨s₂, hs₂⟩ : ∃ s₂, s₂ = s₁.move () (s₁.pc ()) (.trapped s₁.handler) := ⟨_, rfl⟩
  have htrap : HookStep plainIsa (fun _ => 1) 0x50000 s₁ (.trap ()) s₂ :=
    hs₂ ▸ .trap (hs₁ ▸ rfl) (hs₁ ▸ hw)
  have hphase : s₂.phase () = .trapped .entrypoint := by
    rw [hs₂, Hook.move_phase, if_pos rfl, hs₁]
  obtain ⟨s₃, hs₃⟩ : ∃ s₃, s₃ = { s₂.move () (s₂.pc ()) (.entering q) with threads := threads } :=
    ⟨_, rfl⟩
  have htest : HookStep plainIsa (fun _ => 1) 0x50000 s₂ (.test ()) s₃ := by
    have hthreads : s₂.threads = s₁.threads := by rw [hs₂]; rfl
    have hglobals : s₂.entryBp = some 1 ∧ s₂.entryHit = false := by
      rw [hs₂, hs₁]
      exact ⟨rfl, rfl⟩
    rw [hs₃]
    exact .testClear hphase (hthreads ▸ hn) (hthreads ▸ hfind)
      (hglobals.1 ▸ Option.some_ne_none 1) hglobals.2
  have hphase' : s₃.phase () = .entering q := by
    rw [hs₃]
    simp [Hook.move]
  have htracer : s₃.tracer = s₁.tracer := by
    rw [hs₃, hs₂]
    rfl
  have hpc : s₃.pc () = s₁.pc () := by
    rw [hs₃, hs₂]
    simp [Hook.move]
  have hentry : s₃.entryBp = some 1 := by
    rw [hs₃, hs₂, hs₁]
    rfl
  have hword : loadInstr s.mem ((s.slots.slotSet p).slotOffset i) = 0 := hsaved 1 p i (Or.inl rfl) hp
  have hhandler : s₃.handler = .entrypoint := by
    rw [hs₃, hs₂, hs₁]
    rfl
  refine ⟨s₁, s₂, s₃, _, hinit, htrap, htest, .enter hphase' hentry (htracer ▸ hload) hslot, ?_,
    htracer, hpc, ?_, hhandler, rfl, ?_, ?_, ?_⟩
  · rw [hs₁]
  · rw [htracer, hs₁]
    simp only [Hook.move_pc, if_true]
    exact hp.slotAddr
  · simp only [Hook.move_phase, if_true]
  · simp only [Hook.move_pc, if_true]
    exact hslot
  · simp only [Hook.move_pc, if_true]
    exact hword

/-- The process hits its second breakpoint first: the thread runs the instruction of the entry
point instead. -/
theorem second_breakpoint_first : ∃ (s₀ : Tracer) (s₁ s s' : Hook Unit Unit)
    (evs : List (HookEvent Unit)), LibInit .unbalanced s₀ 1 2 s₁ ∧
    Run (HookStep plainIsa (fun _ => 1) 0x50000) s₁ evs s ∧ s.tracer.Added 2 ∧
    s.pc () = s.tracer.enterAddr 2 ∧
    HookStep plainIsa (fun _ => 1) 0x50000 s (.enter ()) s' ∧
    s.tracer.slotAddr 1 = .ok (s'.pc ()) ∧ s.tracer.slotAddr 2 ≠ .ok (s'.pc ()) := by
  obtain ⟨s₁, s₂, s, s', h⟩ := first_hit (Or.inr rfl)
  obtain ⟨news, news', hrun⟩ := h.init.run
  have hi := slotInv_run h.init.initial hrun
  have hpc := h.pc
  obtain ⟨hb₁, hb₂⟩ := h.init.added
  rw [← h.tracer] at hpc hi hb₁ hb₂
  refine ⟨_, s₁, s, s', [.trap (), .test ()], h.init, .stepL h.trap (.stepL h.test .refl), hb₂,
    h.same.trans hpc, h.enter, h.slot, ?_⟩
  intro hslot'
  exact absurd (inSlot_inj hi hb₁ hb₂ (inSlot_slotAddr hi hb₁ h.slot) (inSlot_slotAddr hi hb₂ hslot'))
    (by decide)

section Switch

variable {s : Hook Unit Unit} {l : Hook Unit Unit × HookEvent Unit}

theorem inOrder_inside (h : l.2 = .test () ∨ l.2 = .enter ()) : InOrder e plainIsa l := by
  rcases l with ⟨_, ev⟩
  rcases h with rfl | rfl <;> exact ⟨nofun, nofun, nofun, by simp⟩

/-- The instruction of the entry point falls through in its slot. -/
theorem exec_slot (hi : HandOver text (fun _ => 1) e s) (hp : s.phase () = .running)
    (hslot : s.tracer.slotAddr e = .ok (s.pc ()))
    (hv : loadInstr s.tracer.mem (s.pc ()) ≠ brkInstr) :
    HookStep plainIsa (fun _ => 1) 0x50000 s (.exec ())
        (s.move () (s.tracer.returnAddr e) .running) ∧
      InOrder e plainIsa (s, .exec ()) := by
  have hret := slotAddr_add_four hi.inv hi.added hslot
  have hin := inSlot_slotAddr hi.inv hi.added hslot
  refine ⟨?_, nofun, ?_, ?_, by simp⟩
  · rw [← hret]
    exact .exec hp hv rfl
  · exact fun _ _ c hc hin' => inSlot_add_four hi.inv hi.added hslot hc hin'
  · exact fun _ _ hout => (hout e hi.added hin).elim

/-- The trap at the end of the slot. -/
theorem trap_return (hi : HandOver text (fun _ => 1) e s) (hp : s.phase () = .running)
    (hit : s.entryHit = true) (hpc : s.pc () = s.tracer.returnAddr e) :
    HookStep plainIsa (fun _ => 1) 0x50000 s (.trap ()) (s.move () (s.pc ()) (.trapped s.handler)) ∧
      InOrder e plainIsa (s, .trap ()) := by
  obtain ⟨p, i, hheld⟩ := hi.inv.held e hi.added
  refine ⟨.trap hp ?_, ?_, nofun, nofun, by simp⟩
  · rw [hpc, hheld.returnAddr]
    exact hheld.brk
  · intro _ _ _
    simp only [hit, if_true]
    exact ⟨fun _ => hp, hpc⟩

/-- The test of a thread that trapped there: it switches the handlers. -/
theorem switch_handlers (hi : HandOver text (fun _ => 1) e s)
    (hp : s.phase () = .trapped .entrypoint) (hit : s.entryHit = true) :
    ∃ s' p, HookStep plainIsa (fun _ => 1) 0x50000 s (.test ()) s' ∧ s'.handler = .sigtrap ∧
      s'.tracer = s.tracer ∧ s'.entryBp = s.entryBp ∧ s'.pc () = s.pc () ∧
      s'.phase () = .leaving p := by
  obtain ⟨fresh, hn⟩ := s.threads.exists_fresh
  obtain ⟨threads, p, hfind, _⟩ := ThreadMap.findOrAdd_returns 1 hi.linked hn
  refine ⟨_, p, .testHit hp hn hfind (hi.entryBp ▸ Option.some_ne_none e) hit, rfl, rfl, rfl, ?_, ?_⟩
  · exact s.move_self () () (.leaving p)
  · exact (s.move_phase () () (s.pc ()) (.leaving p)).trans (if_pos rfl)

/-- The steps of a thread that is in the slot of the entry point, up to its return from the handler
that switches. -/
theorem second_trap (hi : HandOver text (fun _ => 1) e s) (hh : s.handler = .entrypoint)
    (hit : s.entryHit = true) (hp : s.phase () = .running)
    (hslot : s.tracer.slotAddr e = .ok (s.pc ()))
    (hv : loadInstr s.tracer.mem (s.pc ()) ≠ brkInstr) :
    ∃ r₁ r r' r'', HookStep plainIsa (fun _ => 1) 0x50000 s (.exec ()) r₁ ∧
      HookStep plainIsa (fun _ => 1) 0x50000 r₁ (.trap ()) r ∧
      HookStep plainIsa (fun _ => 1) 0x50000 r (.test ()) r' ∧
      HookStep plainIsa (fun _ => 1) 0x50000 r' (.leave ()) r'' ∧
      (∀ l ∈ [(s, .exec ()), (r₁, .trap ())], InOrder e plainIsa l) ∧
      r.handler = .entrypoint ∧ r'.handler = .sigtrap ∧ r'.tracer = s.tracer ∧
      r'.pc () = s.tracer.returnAddr e := by
  obtain ⟨hexec, hl⟩ := exec_slot hi hp hslot hv
  have hi₁ := handOver_step (fun _ _ _ => rfl) ⟨rfl, hexec⟩ hl hi
  obtain ⟨htrap, hl₁⟩ := trap_return hi₁ rfl hit rfl
  have hi₂ := handOver_step (fun _ _ _ => rfl) ⟨rfl, htrap⟩ hl₁ hi₁
  obtain ⟨r', p, htest, hhandler, htracer, hentry, hpc, hphase⟩ :=
    switch_handlers hi₂ (congrArg TrapPhase.trapped hh) hit
  exact ⟨_, _, r', _, hexec, htrap, htest, .leave hphase (hentry.trans hi.entryBp),
    List.forall_mem_cons.mpr ⟨hl, List.forall_mem_singleton.mpr hl₁⟩, hh, hhandler, htracer, hpc⟩

end Switch

/-- The process hits its entry point first, and runs through both of its traps: the handler of the
entry point sends the thread to the slot, and at the return trap it switches the handlers and sends
the thread on. -/
theorem start_up_entry_point : ∃ s s' r r' r'' : Hook Unit Unit,
    HookStep plainIsa (fun _ => 1) 0x50000 s (.enter ()) s' ∧ s.pc () = s.tracer.enterAddr 1 ∧
      s.tracer.slotAddr 1 = .ok (s'.pc ()) ∧
    Run (HookStep plainIsa (fun _ => 1) 0x50000) s' [.exec (), .trap ()] r ∧
    HookStep plainIsa (fun _ => 1) 0x50000 r (.test ()) r' ∧
      r.handler = .entrypoint ∧ r'.handler = .sigtrap ∧ r.pc () = r.tracer.returnAddr 1 ∧
    HookStep plainIsa (fun _ => 1) 0x50000 r' (.leave ()) r'' ∧
      r''.pc () = r'.tracer.enterAddr 1 + 4 := by
  obtain ⟨s₁, s₂, s, s', h⟩ := first_hit (Or.inl rfl)
  have htid : Function.Injective fun _ : Unit => 1 := fun _ _ _ => rfl
  -- the first trap of the entry point
  have hrun : Run (Traced (HookStep plainIsa (fun _ => 1) 0x50000)) s₁
      [(s₁, .trap ()), (s₂, .test ())] s :=
    .stepL ⟨rfl, h.trap⟩ (.stepL ⟨rfl, h.test⟩ .refl)
  have hl₁ : InOrder 1 plainIsa (s₁, .trap ()) := by
    refine ⟨?_, nofun, nofun, by simp⟩
    intro _ _ _
    simp only [h.init.entryHit]
    exact ⟨h.init.phase, h.pc⟩
  have horder : ∀ l ∈ [(s₁, .trap ()), (s₂, .test ())], InOrder 1 plainIsa l :=
    List.forall_mem_cons.mpr ⟨hl₁, List.forall_mem_singleton.mpr (inOrder_inside (Or.inl rfl))⟩
  have hpc : s.pc () = s.tracer.enterAddr 1 := by rw [h.same, h.pc, h.tracer]
  have henter := ((start_up_hand_over h.init htid hrun horder).1 _ _ h.enter).1 () 1
    (Or.inr (Or.inl rfl)) (h.tracer ▸ h.init.added.1)
  -- the second one
  have hrun₁ : Run (Traced (HookStep plainIsa (fun _ => 1) 0x50000)) s₁
      [(s₁, .trap ()), (s₂, .test ()), (s, .enter ())] s' := hrun.stepR ⟨rfl, h.enter⟩
  have horder₁ : ∀ l ∈ [(s₁, .trap ()), (s₂, .test ()), (s, .enter ())], InOrder 1 plainIsa l :=
    List.forall_mem_append.mpr ⟨horder, List.forall_mem_singleton.mpr (inOrder_inside (Or.inr rfl))⟩
  have hi₁ := handOver_run h.init htid hrun₁ horder₁
  obtain ⟨r₁, r, r', r'', hexec, htrap, htest, hleave, horder₂, hh, hh', htracer, hpc'⟩ :=
    second_trap hi₁ h.handler h.entryHit h.phase h.resumed (h.word ▸ by decide)
  have hrun₂ : Run (Traced (HookStep plainIsa (fun _ => 1) 0x50000)) s'
      [(s', .exec ()), (r₁, .trap ())] r := .stepL ⟨rfl, hexec⟩ (.stepL ⟨rfl, htrap⟩ .refl)
  have hswitch := (start_up_hand_over h.init htid (hrun₁.append hrun₂)
    (List.forall_mem_append.mpr ⟨horder₁, horder₂⟩)).1 _ _ htest
  obtain ⟨_, _, hret⟩ := hswitch.2 (by rw [hh, hh']; decide)
  have hrun₃ : Run (Traced (HookStep plainIsa (fun _ => 1) 0x50000)) r [(r, .test ())] r' :=
    .stepL ⟨rfl, htest⟩ .refl
  have hback := ((start_up_hand_over h.init htid ((hrun₁.append hrun₂).append hrun₃)
    (List.forall_mem_append.mpr ⟨List.forall_mem_append.mpr ⟨horder₁, horder₂⟩,
      List.forall_mem_singleton.mpr (inOrder_inside (Or.inl rfl))⟩)).1 _ _ hleave).1 () 1
    (Or.inr (Or.inr rfl)) (htracer ▸ hi₁.added)
  exact ⟨s, s', r, r', r'', h.enter, hpc, henter.1 hpc, hrun₂.untraced, htest, hh, hh', hret, hleave,
    hback.2 (htracer ▸ hpc')⟩

end HandOver

end Atrace.Signal

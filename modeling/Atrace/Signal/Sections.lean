import Atrace.Signal.AddersAlone
import Atrace.Signal.System

/-! The locked sections of a call, or of the trap handler, that nobody interrupts do together what
the function does. -/
namespace Atrace.Signal

open Atrace.Lib Tracer Relation

section Calls

variable {κ : Type*} [DecidableEq κ] {rb : RbLib BpEntry} {code : Addr → Prop} {b : BkptPtr}
  {t : κ} {k k' : Control κ} {s s' : Tracer} {st st' : Stage} {mp : Mprotect} {c : Int}

/-- The steps of one thread, with no step of another between them. -/
def CallsAlone (rb : RbLib BpEntry) (code : Addr → Prop) (t : κ) : Control κ → Control κ → Prop :=
  ReflTransGen fun k k' => ControlStep rb code k t k'

namespace Control

theorem act_stage (k : Control κ) (t : κ) (st : Stage) (s : Tracer) :
    (k.act t st s).stage t = st :=
  Function.update_self ..

theorem act_act (k : Control κ) (t : κ) (st st' : Stage) (s s' : Tracer) :
    (k.act t st s).act t st' s' = k.act t st' s' := by
  simp [act, move]

/-- The thread is back where it called from. -/
theorem act_idle (hidle : k.stage t = .idle) (s : Tracer) :
    k.act t .idle s = { k with tracer := s } := by
  rw [act, move, ← hidle, Function.update_eq_self]

end Control

namespace CallsAlone

theorem of_adds {arg : κ → BkptPtr} {m m' : Adders κ} (h : AddsAlone rb code arg t m m') :
    CallsAlone rb code t m.control m'.control := by
  refine h.lift Adders.control ?_
  intro m m' hs
  cases hs with
  | call hst _ hchain => exact .addCall hst hchain
  | work _ h _ => exact h
  | finish _ h _ => exact h

/-- `breakpoint_add` -/
theorem add {news : List NewSlots} (hidle : ∀ u, k.stage u = .idle)
    (hfits : ∀ new ∈ news, new.Fits code k.tracer.slots)
    (h : k.tracer.breakpointAdd rb b news = .ok (s', c)) :
    ∃ live, CallsAlone rb code t k ⟨s', live, k.stage⟩ := by
  have hfree : k.Free b := by
    intro u hu
    rw [hidle u] at hu
    cases hu
  have hlock : ¬ k.alloc.Reading := by
    rintro ⟨u, rest, idx, hu⟩
    have hpc : (k.stage u).allocPc = .scanning rest idx := hu
    rw [hidle u] at hpc
    cases hpc
  obtain ⟨live, hrun⟩ : ∃ live, AddsAlone rb code (fun _ => b) t ⟨k, fun _ => none⟩
      ⟨⟨s', live, k.stage⟩, Function.update (fun _ => none) t (some c)⟩ :=
    add_alone (hidle t) rfl hfree hlock hfits h
  exact ⟨live, of_adds hrun⟩

theorem work (h : ControlStep rb code (k.act t st s) t ((k.act t st s).act t st' s')) :
    CallsAlone rb code t (k.act t st s) (k.act t st' s') := by
  rw [Control.act_act] at h
  exact .single h

/-- The call up to the test of the flag. -/
theorem patchBegin (hidle : k.stage t = .idle) (hfree : k.Free b) (on : Bool)
    (hlinked : k.tracer.index.emptyNode ⟨b, .enter⟩ = false) :
    CallsAlone rb code t k (k.act t (.patchTest b on) k.tracer) := by
  have hcall : CallsAlone rb code t k (k.act t (.patchLock b on) k.tracer) :=
    .single (.patchCall hidle hlinked)
  refine hcall.trans (work (.patchLock (Control.act_stage ..) ?_))
  intro u hu
  rw [Control.act, Control.move_stage] at hu
  split at hu
  · cases hu
  · exact hfree u hu

/-- A call that finds the flag as it wants it. -/
theorem patchDone (hidle : k.stage t = .idle) (hfree : k.Free b) {on : Bool}
    (hlinked : k.tracer.index.emptyNode ⟨b, .enter⟩ = false)
    (hon : (k.tracer.bkpt b).hasAttr .ENABLE = on) : CallsAlone rb code t k k := by
  have hlast : CallsAlone rb code t (k.act t (.patchTest b on) k.tracer)
      (k.act t .idle k.tracer) := work (.patchDone (Control.act_stage ..) hon)
  rw [Control.act_idle hidle] at hlast
  exact (patchBegin hidle hfree on hlinked).trans hlast

/-- The part between the test of the flag and the return, from the word that is stored on. -/
theorem patchText {on : Bool} {v : Instr} (h : s.patchText b mp v = .ok s')
    (hopened : ∀ s₁ c₁, s.objectMemoryUnlock mp.unlock (s.bkpt b).obj = .ok (s₁, c₁) →
      CallsAlone rb code t (k.act t (.patchOpen b on) s) (k.act t (.patchStore b v) s₁)) :
    CallsAlone rb code t (k.act t (.patchOpen b on) s) (k.act t .idle s') := by
  obtain ⟨⟨s₁, c₁⟩, hopen, h⟩ := bind_ok h
  obtain ⟨s₂, hstore, h⟩ := bind_ok h
  obtain ⟨⟨s₃, c₃⟩, hclose, h⟩ := bind_ok h
  cases h
  have hstored : CallsAlone rb code t (k.act t (.patchStore b v) s₁) (k.act t (.patchClose b) s₂) :=
    work (.patchStore (Control.act_stage ..) hstore)
  exact (hopened s₁ c₁ hopen).trans
    (hstored.trans (work (.patchClose (Control.act_stage ..) hclose)))

/-- A call that finds the flag the other way, once it has set it. -/
theorem patchSet (hidle : k.stage t = .idle) (hfree : k.Free b) (on : Bool)
    (hlinked : k.tracer.index.emptyNode ⟨b, .enter⟩ = false)
    (hon : (k.tracer.bkpt b).hasAttr .ENABLE ≠ on) :
    CallsAlone rb code t k (k.act t (.patchOpen b on) (k.tracer.modifyBkpt b fun bp =>
      if on then bp.setAttr .ENABLE else bp.clrAttr .ENABLE)) :=
  (patchBegin hidle hfree on hlinked).trans (work (.patchTest (Control.act_stage ..) hon))

/-- `breakpoint_enable` -/
theorem enable (hidle : k.stage t = .idle) (hfree : k.Free b)
    (h : k.tracer.breakpointEnable b mp = .ok (s', c)) :
    CallsAlone rb code t k { k with tracer := s' } := by
  unfold breakpointEnable at h
  split at h
  · cases h
  rename_i hlinked
  rw [Bool.not_eq_true] at hlinked
  split at h
  · rename_i hon
    cases h
    exact patchDone hidle hfree hlinked hon
  · rename_i hon
    obtain ⟨s₁, hpatch, h⟩ := bind_ok h
    cases h
    rw [← Control.act_idle hidle]
    exact (patchSet hidle hfree true hlinked hon).trans
      (patchText hpatch fun s₁ c₁ hopen => work (.patchOpen (Control.act_stage ..) hopen))

/-- `breakpoint_disable` -/
theorem disable (hidle : k.stage t = .idle) (hfree : k.Free b)
    (h : k.tracer.breakpointDisable b mp = .ok (s', c)) :
    CallsAlone rb code t k { k with tracer := s' } := by
  unfold breakpointDisable at h
  split at h
  · cases h
  rename_i hlinked
  rw [Bool.not_eq_true] at hlinked
  split at h
  · rename_i hon
    split at h
    · cases h
    rename_i p hp
    obtain ⟨s₁, hpatch, h⟩ := bind_ok h
    cases h
    have hslot : (k.tracer.modifyBkpt b (·.clrAttr .ENABLE)).slotAddr b =
        .ok ((k.tracer.slots.slotSet p).slotOffset (k.tracer.bkpt b).slotIndex) := by
      rw [slotAddr_eq_ok_iff, modifyBkpt_bkpt, if_pos rfl]
      exact ⟨p, hp, rfl⟩
    rw [← Control.act_idle hidle]
    refine (patchSet hidle hfree false hlinked (by rw [hon]; decide)).trans
      (patchText hpatch ?_)
    intro s₁ c₁ hopen
    have hopened : CallsAlone rb code t (k.act t (.patchOpen b false) _)
        (k.act t (.patchLoad b) s₁) := work (.patchOpen (Control.act_stage ..) hopen)
    obtain ⟨w, rfl⟩ := mprotectText_cases hopen
    exact hopened.trans (work (.patchLoad (Control.act_stage ..) hslot))
  · rename_i hoff
    cases h
    exact patchDone hidle hfree hlinked (Bool.not_eq_true _ ▸ hoff)

end CallsAlone

end Calls

section System

variable {ι κ σ : Type*} [DecidableEq ι] [DecidableEq κ] {rb : RbLib BpEntry} {isa : Isa ι σ}
  {tid : ι → Nat} {code : Addr → Prop} {s : System ι κ σ} {t : ι} {u : κ} {k : Control κ}
  {fresh : ThreadPtr} {m : ThreadMap} {a : Addr}

/-- The calls of one thread, as steps of the process. -/
theorem run_calls (h : CallsAlone rb code u s.control k) :
    ∃ n, Run (SystemStep rb isa tid code) s (List.replicate n (.call u))
      { s with control := k } := by
  induction h with
  | refl => exact ⟨0, .refl⟩
  | tail _ hstep ih =>
    obtain ⟨n, ih⟩ := ih
    refine ⟨n + 1, ?_⟩
    rw [List.replicate_succ']
    exact ih.stepR (.call hstep)

omit [DecidableEq κ] in
theorem System.toTrap_toTrap (s : System ι κ σ) (t : ι) (x y : TrapPc) (m m' : ThreadMap) :
    (s.toTrap t x m).toTrap t y m' = s.toTrap t y m' := by
  simp [System.toTrap]

/-- The sections of `sigtrap_handler`, as steps of the process. -/
theorem run_handler (hx : s.trap t = .running) (hw : loadInstr s.tracer.mem (s.pc t) = brkInstr)
    (hn : fresh ∉ s.threads.allocated) (hfree : ∀ b, s.control.Free b)
    (h : s.tracer.sigtrapHandler s.threads (tid t) fresh (s.pc t) = .ok (m, a)) :
    ∃ n, Run (SystemStep rb isa tid code) s (.trap t :: List.replicate n (.handler t))
      { s.goto t a with threads := m } := by
  have hself : ∀ (x : TrapPc) (m : ThreadMap), (s.toTrap t x m).trap t = x :=
    fun x m => (s.toTrap_trap t t x m).trans (if_pos rfl)
  have htrap : SystemStep rb isa tid code s (.trap t) (s.toTrap t .lookup s.threads) := .trap hx hw
  obtain ⟨⟨m₁, p⟩, hfind, h⟩ := bind_ok h
  have hlookup : ∃ n, Run (SystemStep rb isa tid code) (s.toTrap t .lookup s.threads)
      (List.replicate n (.handler t)) (s.toTrap t (.finding p) m₁) := by
    unfold ThreadMap.findOrAdd at hfind
    split at hfind
    · rename_i hf
      cases hfind
      have hstep : SystemStep rb isa tid code (s.toTrap t .lookup s.threads) (.handler t) _ :=
        .found (hself ..) hf
      rw [System.toTrap_toTrap] at hstep
      exact ⟨1, .stepL hstep .refl⟩
    · rename_i hf
      obtain ⟨⟨m₂, c⟩, hadd, hfind⟩ := bind_ok hfind
      cases hfind
      have hnew : SystemStep rb isa tid code (s.toTrap t .lookup s.threads) (.handler t) _ :=
        .new (hself ..) hf hn
      rw [System.toTrap_toTrap] at hnew
      have hstep : SystemStep rb isa tid code (s.toTrap t (.adding fresh) _) (.handler t) _ :=
        .add (hself ..) hadd
      rw [System.toTrap_toTrap] at hstep
      exact ⟨2, .stepL hnew (.stepL hstep .refl)⟩
  obtain ⟨n, hlookup⟩ := hlookup
  dsimp only at h
  split at h
  · cases h
  rename_i b hb
  obtain ⟨⟨ss, a'⟩, hd, h⟩ := bind_ok h
  cases h
  have hfound : SystemStep rb isa tid code (s.toTrap t (.finding p) m₁) (.handler t) _ :=
    .find (hself ..) hb
  rw [System.toTrap_toTrap] at hfound
  have hdispatch : SystemStep rb isa tid code (s.toTrap t (.dispatching p b) m₁) (.handler t) _ :=
    .dispatch (hself ..) (hfree b) hd
  have hback : (((s.toTrap t (.dispatching p b) m₁).goto t a').toTrap t .running
      ((s.toTrap t (.dispatching p b) m₁).threads.setSinglestep p ss)) =
      { s.goto t a' with threads := m₁.setSinglestep p ss } := by
    simp [System.toTrap, System.goto, ← hx]
  rw [hback] at hdispatch
  refine ⟨n + 1 + 1, ?_⟩
  rw [List.replicate_succ', List.replicate_succ']
  exact .stepL htrap ((hlookup.stepR hfound).stepR hdispatch)

end System

end Atrace.Signal

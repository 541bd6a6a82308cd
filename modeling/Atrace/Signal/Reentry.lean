import Atrace.Lib.Run
import Atrace.Signal.BreakpointAdd

/-! The trap handler inside `breakpoint_find`, `breakpoint_enable` and `breakpoint_disable`: which
mutexes the thread has when an instruction of another object that they run is a breakpoint. -/
namespace Atrace.Signal

open Atrace.Lib

/-- `breakpoint_lock`, or the `lock` of a breakpoint. -/
inductive Mutex where
  | index
  | bkpt (b : BkptPtr)
deriving DecidableEq

/-- `breakpoint_find`, or `breakpoint_enable` and `breakpoint_disable`. -/
inductive TracerCall where
  | find (a : Addr)
  | patch (b : BkptPtr) (on : Bool)

def TracerCall.mutex : TracerCall → Mutex
  | .find _ => .index
  | .patch b _ => .bkpt b

/-- The code of other objects that the calls run; the two functions of the mutex are cut where it
changes hands. -/
inductive LibPart where
  | lockBefore
  | lockAfter
  | mprotect
  | perror
  | clearCache
  | unlockBefore
  | unlockAfter
deriving DecidableEq

/-- Where a thread is in a call. -/
inductive CallPc where
  | idle
  | locking (c : TracerCall)
  | locked (c : TracerCall)
  | opening (b : BkptPtr) (on : Bool)
  | storing (b : BkptPtr) (on : Bool)
  | closing (b : BkptPtr) (on : Bool)
  | unlocking (c : TracerCall)
  | unlocked (c : TracerCall)

namespace CallPc

def holds : CallPc → Option Mutex
  | .idle | .locking _ | .unlocked _ => none
  | .locked c | .unlocking c => some c.mutex
  | .opening b _ | .storing b _ | .closing b _ => some (.bkpt b)

/-- The instructions outside the library that the thread may run there. Its own program runs while
no call is under way. -/
def Executes (lib : LibPart → Addr → Prop) : CallPc → Addr → Prop
  | .idle, _ => True
  | .locking _, a => lib .lockBefore a
  | .locked _, a => lib .lockAfter a
  | .opening _ _, a => lib .mprotect a ∨ lib .perror a
  | .storing _ _, _ => False
  | .closing _ _, a => lib .mprotect a ∨ lib .perror a ∨ lib .clearCache a
  | .unlocking _, a => lib .unlockBefore a
  | .unlocked _, a => lib .unlockAfter a

end CallPc

/-- Where a thread is in `sigtrap_handler`, the first time at the breakpoint or again after its
slot. -/
inductive HandlerPc where
  | running
  | entering (a : Addr) (again : Bool)
  | looking (a : Addr) (again : Bool)
  | found (b : BkptPtr) (again : Bool)
  | dispatching (b : BkptPtr) (again : Bool)
  | slot (b : BkptPtr)

namespace HandlerPc

/-- The mutex that the handler locks next. -/
def wants : HandlerPc → Option Mutex
  | .entering _ _ => some .index
  | .found b _ => some (.bkpt b)
  | .running | .looking _ _ | .dispatching _ _ | .slot _ => none

def holds : HandlerPc → Option Mutex
  | .looking _ _ => some .index
  | .dispatching b _ => some (.bkpt b)
  | .running | .entering _ _ | .found _ _ | .slot _ => none

/-- The breakpoint that the trap is about. -/
def bkpt (t : BpIndex BpEntry) : HandlerPc → Option BkptPtr
  | .running => none
  | .entering a _ | .looking a _ => (t.breakpointRbFind a).map BpEntry.bkpt
  | .found b _ | .dispatching b _ | .slot b => some b

end HandlerPc

/-- The breakpoints that were added, those whose `ENABLE` is set, those whose `brk` is in the text,
and the threads `κ`. -/
structure Reentry (κ : Type*) where
  index : BpIndex BpEntry
  enabled : BkptPtr → Bool
  patched : BkptPtr → Bool
  pc : κ → CallPc
  handler : κ → HandlerPc

inductive ReentryEvent (κ : Type*) where
  | call (t : κ) (c : TracerCall)
  | move (t : κ)
  | trap (t : κ) (a : Addr) (b : BkptPtr)
  | handle (t : κ)

variable {κ : Type*} [DecidableEq κ]

namespace Reentry

variable (s : Reentry κ)

def goto (t : κ) (pc : CallPc) : Reentry κ := { s with pc := Function.update s.pc t pc }

def toHandler (t : κ) (h : HandlerPc) : Reentry κ :=
  { s with handler := Function.update s.handler t h }

/-- The thread has the mutex, from the call that was interrupted or from the handler. -/
def Holds (t : κ) (m : Mutex) : Prop := (s.pc t).holds = some m ∨ (s.handler t).holds = some m

/-- The instruction at the address is the `brk` of an enabled breakpoint. -/
def Carries (a : Addr) (b : BkptPtr) : Prop :=
  s.index.emptyNode ⟨b, .enter⟩ = false ∧ s.index.address ⟨b, .enter⟩ = a ∧ s.patched b = true

/-- The handler is about to lock a mutex that its own thread has. -/
def SelfDeadlock (t : κ) : Prop := ∃ m, (s.handler t).wants = some m ∧ s.Holds t m

end Reentry

/-- One step of a thread. `SIGTRAP` is blocked in the handler, so a breakpoint there ends the
process. -/
inductive ReentryStep (lib : LibPart → Addr → Prop) :
    Reentry κ → ReentryEvent κ → Reentry κ → Prop where
  | call {s : Reentry κ} {t : κ} {c : TracerCall} (hpc : s.pc t = .idle)
      (hrun : s.handler t = .running)
      (hlinked : ∀ b on, c = .patch b on → s.index.emptyNode ⟨b, .enter⟩ = false) :
      ReentryStep lib s (.call t c) (s.goto t (.locking c))
  | lock {s : Reentry κ} {t : κ} {c : TracerCall} (hpc : s.pc t = .locking c)
      (hrun : s.handler t = .running) (hfree : ∀ u, ¬ s.Holds u c.mutex) :
      ReentryStep lib s (.move t) (s.goto t (.locked c))
  | find {s : Reentry κ} {t : κ} {a : Addr} (hpc : s.pc t = .locked (.find a))
      (hrun : s.handler t = .running) :
      ReentryStep lib s (.move t) (s.goto t (.unlocking (.find a)))
  | same {s : Reentry κ} {t : κ} {b : BkptPtr} {on : Bool} (hpc : s.pc t = .locked (.patch b on))
      (hrun : s.handler t = .running) (hon : s.enabled b = on) :
      ReentryStep lib s (.move t) (s.goto t (.unlocking (.patch b on)))
  | flag {s : Reentry κ} {t : κ} {b : BkptPtr} {on : Bool} (hpc : s.pc t = .locked (.patch b on))
      (hrun : s.handler t = .running) (hon : s.enabled b ≠ on) :
      ReentryStep lib s (.move t)
        { s.goto t (.opening b on) with enabled := Function.update s.enabled b on }
  | unprotect {s : Reentry κ} {t : κ} {b : BkptPtr} {on : Bool} (hpc : s.pc t = .opening b on)
      (hrun : s.handler t = .running) :
      ReentryStep lib s (.move t) (s.goto t (.storing b on))
  | store {s : Reentry κ} {t : κ} {b : BkptPtr} {on : Bool} (hpc : s.pc t = .storing b on)
      (hrun : s.handler t = .running) :
      ReentryStep lib s (.move t)
        { s.goto t (.closing b on) with patched := Function.update s.patched b on }
  | protect {s : Reentry κ} {t : κ} {b : BkptPtr} {on : Bool} (hpc : s.pc t = .closing b on)
      (hrun : s.handler t = .running) :
      ReentryStep lib s (.move t) (s.goto t (.unlocking (.patch b on)))
  | unlock {s : Reentry κ} {t : κ} {c : TracerCall} (hpc : s.pc t = .unlocking c)
      (hrun : s.handler t = .running) :
      ReentryStep lib s (.move t) (s.goto t (.unlocked c))
  | done {s : Reentry κ} {t : κ} {c : TracerCall} (hpc : s.pc t = .unlocked c)
      (hrun : s.handler t = .running) :
      ReentryStep lib s (.move t) (s.goto t .idle)
  | trap {s : Reentry κ} {t : κ} {a : Addr} {b : BkptPtr} (hrun : s.handler t = .running)
      (hexec : (s.pc t).Executes lib a) (hb : s.Carries a b) :
      ReentryStep lib s (.trap t a b) (s.toHandler t (.entering a false))
  | look {s : Reentry κ} {t : κ} {a : Addr} {again : Bool} (hh : s.handler t = .entering a again)
      (hfree : ∀ u, ¬ s.Holds u .index) :
      ReentryStep lib s (.handle t) (s.toHandler t (.looking a again))
  | found {s : Reentry κ} {t : κ} {a : Addr} {again : Bool} {e : BpEntry}
      (hh : s.handler t = .looking a again) (hf : s.index.breakpointRbFind a = some e) :
      ReentryStep lib s (.handle t) (s.toHandler t (.found e.bkpt again))
  | dispatch {s : Reentry κ} {t : κ} {b : BkptPtr} {again : Bool}
      (hh : s.handler t = .found b again) (hfree : ∀ u, ¬ s.Holds u (.bkpt b)) :
      ReentryStep lib s (.handle t) (s.toHandler t (.dispatching b again))
  | toSlot {s : Reentry κ} {t : κ} {b : BkptPtr} (hh : s.handler t = .dispatching b false) :
      ReentryStep lib s (.handle t) (s.toHandler t (.slot b))
  | again {s : Reentry κ} {t : κ} {b : BkptPtr} (hh : s.handler t = .slot b)
      (hret : s.index.emptyNode ⟨b, .ret⟩ = false) :
      ReentryStep lib s (.handle t)
        (s.toHandler t (.entering (s.index.address ⟨b, .ret⟩) true))
  | resume {s : Reentry κ} {t : κ} {b : BkptPtr} (hh : s.handler t = .dispatching b true) :
      ReentryStep lib s (.handle t) (s.toHandler t .running)

/-- An instruction that traps is not run under `breakpoint_lock`, nor under the lock of the very
breakpoint that it carries. -/
def Reentry.Clear (s : Reentry κ) : ReentryEvent κ → Prop
  | .trap t _ b => (s.pc t).holds ≠ some .index ∧ (s.pc t).holds ≠ some (.bkpt b)
  | _ => True

/-- No call has begun and no thread has trapped. -/
structure ReentryInitial (s : Reentry κ) : Prop where
  wellFormed : s.index.WellFormed
  pc : ∀ t, s.pc t = .idle
  handler : ∀ t, s.handler t = .running

/-- A mutex has one holder, and a trapped thread has neither mutex that its handler locks. -/
structure ReentryInv (s : Reentry κ) : Prop where
  wellFormed : s.index.WellFormed
  exclusive : ∀ t u m, s.Holds t m → s.Holds u m → t = u
  apart : ∀ t, s.handler t ≠ .running → ∃ b, (s.handler t).bkpt s.index = some b ∧
    (s.pc t).holds ≠ some .index ∧ (s.pc t).holds ≠ some (.bkpt b)

variable {lib : LibPart → Addr → Prop} {s s' : Reentry κ} {e : ReentryEvent κ} {t u : κ}
  {a : Addr} {b : BkptPtr} {m : Mutex} {pc : CallPc} {h : HandlerPc} {again : Bool}

namespace Reentry

theorem goto_pc (s : Reentry κ) (t u : κ) (pc : CallPc) :
    (s.goto t pc).pc u = if u = t then pc else s.pc u := Function.update_apply ..

theorem toHandler_handler (s : Reentry κ) (t u : κ) (h : HandlerPc) :
    (s.toHandler t h).handler u = if u = t then h else s.handler u := Function.update_apply ..

theorem holds_goto (hut : u ≠ t) : (s.goto t pc).Holds u m ↔ s.Holds u m := by
  rw [Holds, goto_pc, if_neg hut]
  rfl

theorem holds_toHandler (hut : u ≠ t) : (s.toHandler t h).Holds u m ↔ s.Holds u m := by
  rw [Holds, toHandler_handler, if_neg hut]
  rfl

theorem holds_goto_self (hrun : s.handler t = .running) :
    (s.goto t pc).Holds t m ↔ pc.holds = some m := by
  rw [Holds, goto_pc, if_pos rfl]
  refine or_iff_left ?_
  rw [show (s.goto t pc).handler t = .running from hrun]
  nofun

theorem holds_toHandler_self : (s.toHandler t h).Holds t m ↔
    (s.pc t).holds = some m ∨ h.holds = some m := by
  rw [Holds, toHandler_handler, if_pos rfl]
  rfl

omit [DecidableEq κ] in
theorem Carries.find (ht : s.index.WellFormed) (hb : s.Carries a b) :
    s.index.breakpointRbFind a = some ⟨b, .enter⟩ :=
  (BpIndex.find_eq_some_iff ht).mpr ⟨(ht.linked _).mp hb.1, hb.2.1⟩

/-- A thread that has a mutex after a step had it before, or nobody did. -/
theorem exclusive_of (hs : ∀ t u m, s.Holds t m → s.Holds u m → t = u)
    (hother : ∀ u m, u ≠ t → (s'.Holds u m ↔ s.Holds u m))
    (hself : ∀ m, s'.Holds t m → s.Holds t m ∨ ∀ u, ¬ s.Holds u m) :
    ∀ u v m, s'.Holds u m → s'.Holds v m → u = v := by
  intro u v m hu hv
  by_cases hut : u = t <;> by_cases hvt : v = t
  · rw [hut, hvt]
  · subst u
    have hv := (hother v m hvt).mp hv
    rcases hself m hu with hu | hfree
    · exact hs _ _ m hu hv
    · exact (hfree v hv).elim
  · subst v
    have hu := (hother u m hut).mp hu
    rcases hself m hv with hv | hfree
    · exact hs _ _ m hu hv
    · exact (hfree u hu).elim
  · exact hs _ _ m ((hother u m hut).mp hu) ((hother v m hvt).mp hv)

end Reentry

namespace ReentryInv

/-- A step of a call keeps the mutex of the call, takes it or releases it. -/
theorem goto (hi : ReentryInv s) (hrun : s.handler t = .running)
    (hpc : ∀ m, pc.holds = some m → (s.pc t).holds = some m ∨ ∀ u, ¬ s.Holds u m) :
    ReentryInv (s.goto t pc) := by
  refine ⟨hi.wellFormed, ?_, ?_⟩
  · refine Reentry.exclusive_of hi.exclusive (fun u m hut => Reentry.holds_goto hut) ?_
    intro m hm
    rcases hpc m ((Reentry.holds_goto_self hrun).mp hm) with hm | hfree
    · exact Or.inl (Or.inl hm)
    · exact Or.inr hfree
  · intro u hu
    have hut : u ≠ t := by
      rintro rfl
      exact hu hrun
    rw [Reentry.goto_pc, if_neg hut]
    exact hi.apart u hu

theorem toHandler (hi : ReentryInv s)
    (hh : ∀ m, h.holds = some m → s.Holds t m ∨ ∀ u, ¬ s.Holds u m)
    (hb : h ≠ .running → ∃ b, h.bkpt s.index = some b ∧ (s.pc t).holds ≠ some .index ∧
      (s.pc t).holds ≠ some (.bkpt b)) :
    ReentryInv (s.toHandler t h) := by
  refine ⟨hi.wellFormed, ?_, ?_⟩
  · refine Reentry.exclusive_of hi.exclusive (fun u m hut => Reentry.holds_toHandler hut) ?_
    intro m hm
    rcases Reentry.holds_toHandler_self.mp hm with hm | hm
    · exact Or.inl (Or.inl hm)
    · exact hh m hm
  · intro u hu
    rw [Reentry.toHandler_handler] at hu ⊢
    by_cases hut : u = t
    · subst u
      rw [if_pos rfl] at hu ⊢
      exact hb hu
    · rw [if_neg hut] at hu ⊢
      exact hi.apart u hu

/-- The handler goes on with the same breakpoint. -/
theorem handle (hi : ReentryInv s) (hne : s.handler t ≠ .running)
    (hb : h.bkpt s.index = (s.handler t).bkpt s.index)
    (hh : ∀ m, h.holds = some m → s.Holds t m ∨ ∀ u, ¬ s.Holds u m) :
    ReentryInv (s.toHandler t h) := by
  refine hi.toHandler hh fun _ => ?_
  rw [hb]
  exact hi.apart t hne

omit [DecidableEq κ] in
/-- The handler does not want what its thread has. -/
theorem not_selfDeadlock (hi : ReentryInv s) (t : κ) : ¬ s.SelfDeadlock t := by
  rintro ⟨m, hwants, hholds⟩
  have hne : s.handler t ≠ .running := by
    intro hrun
    rw [hrun] at hwants
    cases hwants
  obtain ⟨b, hb, hindex, hlock⟩ := hi.apart t hne
  cases hh : s.handler t with
  | running => exact hne hh
  | entering a again =>
    rw [hh] at hwants
    cases hwants
    rcases hholds with hpc | hhandler
    · exact hindex hpc
    · rw [hh] at hhandler
      cases hhandler
  | found c again =>
    rw [hh] at hwants hb
    cases hwants
    cases hb
    rcases hholds with hpc | hhandler
    · exact hlock hpc
    · rw [hh] at hhandler
      cases hhandler
  | looking a again => rw [hh] at hwants; cases hwants
  | dispatching c again => rw [hh] at hwants; cases hwants
  | slot c => rw [hh] at hwants; cases hwants

end ReentryInv

theorem reentryInv_step (hs : ReentryStep lib s e s') (hq : s.Clear e) (hi : ReentryInv s) :
    ReentryInv s' := by
  cases hs with
  | call hpc hrun hlinked => exact hi.goto hrun nofun
  | lock hpc hrun hfree =>
    refine hi.goto hrun ?_
    rintro m hm
    cases hm
    exact Or.inr hfree
  | find hpc hrun => exact hi.goto hrun fun m hm => Or.inl (hpc ▸ hm)
  | same hpc hrun hon => exact hi.goto hrun fun m hm => Or.inl (hpc ▸ hm)
  | @flag t b on hpc hrun hon =>
    have hi' : ReentryInv (s.goto t (.opening b on)) :=
      hi.goto hrun fun m hm => Or.inl (hpc ▸ hm)
    exact ⟨hi'.wellFormed, hi'.exclusive, hi'.apart⟩
  | unprotect hpc hrun => exact hi.goto hrun fun m hm => Or.inl (hpc ▸ hm)
  | @store t b on hpc hrun =>
    have hi' : ReentryInv (s.goto t (.closing b on)) :=
      hi.goto hrun fun m hm => Or.inl (hpc ▸ hm)
    exact ⟨hi'.wellFormed, hi'.exclusive, hi'.apart⟩
  | protect hpc hrun => exact hi.goto hrun fun m hm => Or.inl (hpc ▸ hm)
  | unlock hpc hrun => exact hi.goto hrun nofun
  | done hpc hrun => exact hi.goto hrun nofun
  | trap hrun hexec hb =>
    refine hi.toHandler nofun fun _ => ⟨_, ?_, hq⟩
    simp [HandlerPc.bkpt, hb.find hi.wellFormed]
  | look hh hfree =>
    refine hi.handle (by simp [hh]) (by rw [hh]; rfl) ?_
    intro m hm
    cases hm
    exact Or.inr hfree
  | found hh hf =>
    refine hi.handle (by simp [hh]) ?_ nofun
    simp [hh, HandlerPc.bkpt, hf]
  | dispatch hh hfree =>
    refine hi.handle (by simp [hh]) (by rw [hh]; rfl) ?_
    intro m hm
    cases hm
    exact Or.inr hfree
  | toSlot hh => exact hi.handle (by simp [hh]) (by rw [hh]; rfl) nofun
  | again hh hret =>
    rename_i b
    have hf : s.index.breakpointRbFind (s.index.address ⟨b, .ret⟩) = some ⟨b, .ret⟩ :=
      (BpIndex.find_eq_some_iff hi.wellFormed).mpr ⟨(hi.wellFormed.linked _).mp hret, rfl⟩
    refine hi.handle (by simp [hh]) ?_ nofun
    simp [hh, HandlerPc.bkpt, hf]
  | resume hh => exact hi.toHandler nofun fun hne => absurd rfl hne

omit [DecidableEq κ] in
theorem reentryInv_initial (h : ReentryInitial s) : ReentryInv s := by
  refine ⟨h.wellFormed, ?_, ?_⟩
  · rintro t u m (hm | hm) _
    · rw [h.pc] at hm
      cases hm
    · rw [h.handler] at hm
      cases hm
  · intro t hne
    exact (hne (h.handler t)).elim

variable (lib) in
/-- With the index free the handler finds its breakpoint, and the lock that its thread has. -/
theorem deadlock_of_free (hh : s.handler t = .entering a again)
    (hf : s.index.breakpointRbFind a = some ⟨b, .enter⟩) (hpc : (s.pc t).holds = some (.bkpt b))
    (hfree : ∀ u, ¬ s.Holds u .index) :
    ∃ as s', Run (ReentryStep lib) s as s' ∧ s'.SelfDeadlock t := by
  have hlook : ReentryStep lib s _ _ := .look hh hfree
  have hlooking : (s.toHandler t (.looking a again)).handler t = .looking a again := by
    rw [Reentry.toHandler_handler, if_pos rfl]
  have hfound : ReentryStep lib _ _ _ := .found hlooking hf
  refine ⟨_, _, .stepL hlook (.stepL hfound .refl), .bkpt b, ?_, Or.inl hpc⟩
  rw [Reentry.toHandler_handler, if_pos rfl]
  rfl

variable (lib) in
/-- A thread that is not trapped and has the index gives it back. -/
theorem release_find (hrun : s.handler u = .running) (hpc : (s.pc u).holds = some .index) :
    ∃ as c, Run (ReentryStep lib) s as (s.goto u (.unlocked c)) := by
  cases hu : s.pc u with
  | idle => rw [hu] at hpc; cases hpc
  | locking c => rw [hu] at hpc; cases hpc
  | unlocked c => rw [hu] at hpc; cases hpc
  | opening b on => rw [hu] at hpc; cases hpc
  | storing b on => rw [hu] at hpc; cases hpc
  | closing b on => rw [hu] at hpc; cases hpc
  | unlocking c => exact ⟨_, c, .stepL (.unlock hu hrun) .refl⟩
  | locked c =>
    rw [hu] at hpc
    cases c with
    | patch b on => cases hpc
    | find a =>
      have hfind : ReentryStep lib s _ _ := .find hu hrun
      have hunlocking : (s.goto u (.unlocking (.find a))).pc u = .unlocking (.find a) := by
        rw [Reentry.goto_pc, if_pos rfl]
      have hunlock : ReentryStep lib _ _ _ := .unlock hunlocking hrun
      have htwice : (s.goto u (.unlocking (.find a))).goto u (.unlocked (.find a)) =
          s.goto u (.unlocked (.find a)) := by
        simp [Reentry.goto]
      rw [htwice] at hunlock
      exact ⟨_, .find a, .stepL hfind (.stepL hunlock .refl)⟩

omit [DecidableEq κ] in
/-- A handler that has the index has found its breakpoint there. -/
theorem looking_of_holds (hi : ReentryInv s) (hne : s.handler u ≠ .running)
    (hu : s.Holds u .index) : (s.pc u).holds ≠ some .index ∧
      ∃ a again e, s.handler u = .looking a again ∧ s.index.breakpointRbFind a = some e := by
  obtain ⟨b, hb, hpc, _⟩ := hi.apart u hne
  refine ⟨hpc, ?_⟩
  have hu := hu.resolve_left hpc
  cases hh : s.handler u with
  | looking a again =>
    rw [hh] at hb
    obtain ⟨e, he, _⟩ := Option.map_eq_some_iff.mp hb
    exact ⟨a, again, e, rfl, he⟩
  | running => rw [hh] at hu; cases hu
  | entering a again => rw [hh] at hu; cases hu
  | found b again => rw [hh] at hu; cases hu
  | dispatching b again => rw [hh] at hu; cases hu
  | slot b => rw [hh] at hu; cases hu

variable (lib h) in
/-- Another thread that has the index can give it back. -/
theorem release_index (hi : ReentryInv s) (hut : u ≠ t) (hu : s.Holds u .index) :
    ∃ as s', Run (ReentryStep lib) (s.toHandler t h) as s' ∧ s'.index = s.index ∧
      s'.pc t = s.pc t ∧ s'.handler t = h ∧ ¬ s'.Holds u .index ∧
      ∀ v, v ≠ u → (s'.Holds v m ↔ (s.toHandler t h).Holds v m) := by
  have hhu : (s.toHandler t h).handler u = s.handler u := by
    rw [Reentry.toHandler_handler, if_neg hut]
  have hht : (s.toHandler t h).handler t = h := by
    rw [Reentry.toHandler_handler, if_pos rfl]
  by_cases hrun : s.handler u = .running
  · have hpc : (s.pc u).holds = some .index := by
      rcases hu with hu | hu
      · exact hu
      · rw [hrun] at hu
        cases hu
    obtain ⟨as, c, hrelease⟩ := release_find lib (hhu.trans hrun) hpc
    refine ⟨as, _, hrelease, rfl, ?_, hht, ?_, fun v hvu => Reentry.holds_goto hvu⟩
    · rw [Reentry.goto_pc, if_neg (Ne.symm hut)]
      rfl
    · rw [Reentry.holds_goto_self (hhu.trans hrun)]
      nofun
  · obtain ⟨hpc, a, again, e, hlooking, hf⟩ := looking_of_holds hi hrun hu
    have hfound : ReentryStep lib _ _ _ := .found (hhu.trans hlooking) hf
    refine ⟨_, _, .stepL hfound .refl, rfl, rfl, ?_, ?_, fun v hvu => Reentry.holds_toHandler hvu⟩
    · rw [Reentry.toHandler_handler, if_neg (Ne.symm hut)]
      exact hht
    · rw [Reentry.holds_toHandler_self]
      rintro (hu | hu)
      · exact hpc hu
      · cases hu

variable (lib) in
/-- A trap under the lock of the breakpoint itself comes to that lock. -/
theorem deadlock_of_own (hi : ReentryInv s) (hb : s.Carries a b)
    (hpc : (s.pc t).holds = some (.bkpt b)) :
    ∃ as s', Run (ReentryStep lib) (s.toHandler t (.entering a false)) as s' ∧
      s'.SelfDeadlock t := by
  have hf := hb.find hi.wellFormed
  have hself : ¬ (s.toHandler t (.entering a false)).Holds t .index := by
    rw [Reentry.holds_toHandler_self, hpc]
    nofun
  by_cases hfree : ∀ u, ¬ (s.toHandler t (.entering a false)).Holds u .index
  · have hh : (s.toHandler t (.entering a false)).handler t = .entering a false := by
      rw [Reentry.toHandler_handler, if_pos rfl]
    exact deadlock_of_free lib hh hf hpc hfree
  · -- another thread looks up an address at the moment
    obtain ⟨u, hu⟩ := not_forall_not.mp hfree
    have hut : u ≠ t := by
      rintro rfl
      exact hself hu
    have hu := (Reentry.holds_toHandler hut).mp hu
    obtain ⟨as, s₁, hrun, hindex, hpc₁, hh₁, hu₁, hother⟩ :=
      release_index lib (.entering a false) hi hut hu (m := .index)
    have hfree₁ : ∀ v, ¬ s₁.Holds v .index := by
      intro v hv
      by_cases hvu : v = u
      · subst v
        exact hu₁ hv
      have hv := (hother v hvu).mp hv
      by_cases hvt : v = t
      · subst v
        exact hself hv
      · exact hvu (hi.exclusive v u _ ((Reentry.holds_toHandler hvt).mp hv) hu)
    obtain ⟨bs, s₂, hrun₂, hdead⟩ := deadlock_of_free lib hh₁ (hindex ▸ hf)
      (hpc₁ ▸ hpc) hfree₁
    exact ⟨_, s₂, hrun.append hrun₂, hdead⟩

/-- While no instruction that traps runs under `breakpoint_lock` or under the lock of its own
breakpoint no handler locks what its thread has; after one that does a handler can. -/
theorem handler_no_selfDeadlock {events : List (Reentry κ × ReentryEvent κ)} {s₀ : Reentry κ}
    (h : Run (Traced (ReentryStep lib)) s₀ events s) (h₀ : ReentryInitial s₀)
    (hq : ∀ l ∈ events, l.1.Clear l.2) :
    (∀ t, ¬ s.SelfDeadlock t) ∧ ∀ e s', ReentryStep lib s e s' → ¬ s.Clear e →
      ∃ as s'' t, Run (ReentryStep lib) s' as s'' ∧ s''.SelfDeadlock t := by
  have hi : ReentryInv s := by
    refine h.inv_of_labels ?_ hq (reentryInv_initial h₀)
    rintro t ⟨_, e⟩ u ⟨rfl, hstep⟩ hq hi
    exact reentryInv_step hstep hq hi
  refine ⟨hi.not_selfDeadlock, ?_⟩
  intro e s' hstep hclear
  cases hstep with
  | @trap t a b hrun hexec hb =>
    by_cases hindex : (s.pc t).holds = some .index
    · refine ⟨[], _, t, .refl, .index, ?_, Or.inl hindex⟩
      rw [Reentry.toHandler_handler, if_pos rfl]
      rfl
    · have hown : (s.pc t).holds = some (.bkpt b) := by
        by_contra hne
        exact hclear ⟨hindex, hne⟩
      obtain ⟨as, s'', hrun, hdead⟩ := deadlock_of_own lib hi hb hown
      exact ⟨as, s'', t, hrun, hdead⟩
  | _ => exact (hclear trivial).elim

variable (lib) in
/-- Nobody keeps a thread that enables a breakpoint from the second `mprotect`. -/
theorem run_enable (hpc : s.pc t = .idle) (hrun : s.handler t = .running)
    (hlinked : s.index.emptyNode ⟨b, .enter⟩ = false) (hoff : s.enabled b = false)
    (hfree : ∀ u, ¬ s.Holds u (.bkpt b)) :
    ∃ events s', Run (ReentryStep lib) s events s' ∧ (∀ l ∈ events, ∀ t a b, l ≠ .trap t a b) ∧
      s'.pc t = .closing b true ∧ s'.handler = s.handler ∧ s'.index = s.index ∧
      s'.patched b = true := by
  have hself : ∀ (s : Reentry κ) pc, (s.goto t pc).pc t = pc := by
    intro s pc
    rw [Reentry.goto_pc, if_pos rfl]
  let s₁ := s.goto t (.locking (.patch b true))
  let s₂ := s₁.goto t (.locked (.patch b true))
  let s₃ := { s₂.goto t (.opening b true) with enabled := Function.update s.enabled b true }
  let s₄ := s₃.goto t (.storing b true)
  let s₅ := { s₄.goto t (.closing b true) with patched := Function.update s.patched b true }
  have hfree₁ : ∀ u, ¬ s₁.Holds u (.bkpt b) := by
    intro u hu
    by_cases hut : u = t
    · subst u
      have hu := (Reentry.holds_goto_self hrun).mp hu
      cases hu
    · exact hfree u ((Reentry.holds_goto hut).mp hu)
  have hcall : ReentryStep lib s (.call t (.patch b true)) s₁ := by
    refine .call hpc hrun ?_
    rintro c on hc
    cases hc
    exact hlinked
  have hlock : ReentryStep lib s₁ (.move t) s₂ := .lock (hself s _) hrun hfree₁
  have hflag : ReentryStep lib s₂ (.move t) s₃ :=
    .flag (hself s₁ _) hrun (hoff ▸ Bool.false_ne_true)
  have hopen : ReentryStep lib s₃ (.move t) s₄ := .unprotect (hself s₂ _) hrun
  have hstore : ReentryStep lib s₄ (.move t) s₅ := .store (hself s₃ _) hrun
  refine ⟨_, s₅, .stepL hcall (.stepL hlock (.stepL hflag (.stepL hopen (.stepL hstore .refl)))),
    ?_, hself s₄ _, rfl, rfl, Function.update_self ..⟩
  simp

variable (lib) in
/-- A breakpoint on an instruction of `mprotect`: whoever enables it runs into it with the lock of
the breakpoint. -/
theorem enable_mprotect_deadlocks (h₀ : ReentryInitial s)
    (hlinked : s.index.emptyNode ⟨b, .enter⟩ = false) (hoff : s.enabled b = false)
    (hlib : lib .mprotect (s.index.address ⟨b, .enter⟩)) (t : κ) :
    ∃ events s', Run (ReentryStep lib) s events s' ∧ s'.SelfDeadlock t := by
  have hfree : ∀ u, ¬ s.Holds u (.bkpt b) := by
    rintro u (hu | hu)
    · rw [h₀.pc] at hu
      cases hu
    · rw [h₀.handler] at hu
      cases hu
  obtain ⟨events, s₁, hrun, hno, hpc, hhandler, hindex, hpatched⟩ :=
    run_enable lib (h₀.pc t) (h₀.handler t) hlinked hoff hfree
  have hi : ReentryInv s₁ := by
    refine hrun.inv_of_labels ?_ hno (reentryInv_initial h₀)
    intro s e s' hstep hno hi
    refine reentryInv_step hstep ?_ hi
    cases e with
    | trap t a b => exact (hno t a b rfl).elim
    | _ => trivial
  have hcarries : s₁.Carries (s.index.address ⟨b, .enter⟩) b := by
    rw [Reentry.Carries, hindex]
    exact ⟨hlinked, rfl, hpatched⟩
  have htrap : ReentryStep lib s₁ (.trap t (s.index.address ⟨b, .enter⟩) b) _ :=
    .trap ((congrFun hhandler t).trans (h₀.handler t)) (by rw [hpc]; exact Or.inl hlib) hcarries
  obtain ⟨as, s₂, hrun₂, hdead⟩ := deadlock_of_own lib hi hcarries (by rw [hpc]; rfl)
  exact ⟨_, s₂, hrun.append (.stepL htrap hrun₂), hdead⟩

section OneThread

/-- One thread that has not called anything yet. -/
def oneThread (index : BpIndex BpEntry) (on : Bool) : Reentry Unit :=
  ⟨index, fun _ => on, fun _ => on, fun _ => .idle, fun _ => .running⟩

theorem reentryInitial_oneThread {index : BpIndex BpEntry} (h : index.WellFormed) (on : Bool) :
    ReentryInitial (oneThread index on) :=
  ⟨h, fun _ => rfl, fun _ => rfl⟩

/-- A part of the library code at `0x10000`, where a breakpoint is accepted. -/
def libAt (x : LibPart) : LibPart → Addr → Prop := fun y a => y = x ∧ a = 0x10000

theorem added_first : ∃ s : Tracer,
    Tracer.twoLibraries.breakpointAdd .unbalanced 1 [⟨0, 0x30000⟩] = .ok (s, 0) ∧
      s.index.WellFormed ∧ s.index.emptyNode ⟨1, .enter⟩ = false ∧
      s.index.address ⟨1, .enter⟩ = 0x10000 := by
  have hwf := Tracer.wellFormed_twoLibraries
  have hb := Tracer.notAdded_twoLibraries 1
  have hnext : Tracer.nextSlot Tracer.twoLibraries.slots [⟨0, 0x30000⟩] ≠ none := nofun
  obtain ⟨s, hrun⟩ := Tracer.add_returns .unbalanced hwf hb (o := 0) rfl rfl rfl
    Tracer.not_addClashes_twoLibraries hnext
  rcases Tracer.add_cases hwf hb (by decide) hrun with hc | ⟨_, hc⟩ | ⟨_, _, _, _, hs⟩
  · exact absurd hc Tracer.not_addClashes_twoLibraries
  · exact absurd rfl hc
  · refine ⟨s, hrun, hs.wellFormed, ?_, ?_⟩
    · rw [hs.emptyNode, if_pos rfl]
    · exact (hs.enterAddr 1).trans rfl

/-- A breakpoint on the first instruction of `pthread_mutex_lock` does no harm to a find. -/
theorem handler_no_selfDeadlock_find : ∃ (s : Tracer) (s' : Reentry Unit)
    (events : List (Reentry Unit × ReentryEvent Unit)),
    Tracer.twoLibraries.breakpointAdd .unbalanced 1 [⟨0, 0x30000⟩] = .ok (s, 0) ∧
    Run (Traced (ReentryStep (libAt .lockBefore))) (oneThread s.index true) events s' ∧
    s'.handler () = .entering 0x10000 false ∧ ¬ s'.SelfDeadlock () := by
  obtain ⟨s, hadd, hwf, hlinked, haddr⟩ := added_first
  let s₀ := oneThread s.index true
  let s₁ := s₀.goto () (.locking (.find 0x10800))
  let s₂ := s₁.toHandler () (.entering 0x10000 false)
  have hcall : ReentryStep (libAt .lockBefore) s₀ (.call () (.find 0x10800)) s₁ :=
    .call rfl rfl nofun
  have htrap : ReentryStep (libAt .lockBefore) s₁ (.trap () 0x10000 1) s₂ :=
    .trap rfl ⟨rfl, rfl⟩ ⟨hlinked, haddr, rfl⟩
  have hrun : Run (Traced (ReentryStep (libAt .lockBefore))) s₀
      [(s₀, .call () (.find 0x10800)), (s₁, .trap () 0x10000 1)] s₂ :=
    .stepL ⟨rfl, hcall⟩ (.stepL ⟨rfl, htrap⟩ .refl)
  have hdead := (handler_no_selfDeadlock hrun (reentryInitial_oneThread hwf true) ?_).1 ()
  · exact ⟨s, s₂, _, hadd, hrun, rfl, hdead⟩
  · intro l hl
    rcases List.mem_cons.mp hl with rfl | hl
    · trivial
    · rw [List.mem_singleton.mp hl]
      exact ⟨nofun, nofun⟩

/-- A breakpoint on `mprotect` is accepted, and to enable it is a self-deadlock. -/
theorem mprotect_breakpoint_deadlocks : ∃ (s : Tracer) (events : List (ReentryEvent Unit))
    (s' : Reentry Unit),
    Tracer.twoLibraries.breakpointAdd .unbalanced 1 [⟨0, 0x30000⟩] = .ok (s, 0) ∧
    ReentryInitial (oneThread s.index false) ∧
    Run (ReentryStep (libAt .mprotect)) (oneThread s.index false) events s' ∧
    s'.SelfDeadlock () := by
  obtain ⟨s, hadd, hwf, hlinked, haddr⟩ := added_first
  have h₀ := reentryInitial_oneThread hwf false
  obtain ⟨events, s', hrun, hdead⟩ :=
    enable_mprotect_deadlocks (libAt .mprotect) h₀ hlinked rfl ⟨rfl, haddr⟩ ()
  exact ⟨s, events, s', hadd, h₀, hrun, hdead⟩

end OneThread

end Atrace.Signal

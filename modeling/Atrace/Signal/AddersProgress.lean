import Atrace.Signal.AddersInv
import Mathlib.Algebra.BigOperators.Group.Finset.Basic
import Mathlib.Algebra.Order.BigOperators.Group.Finset
import Mathlib.Data.Prod.Lex

/-! The calls of `breakpoint_add` all come to their end. -/
namespace Atrace.Signal

open Atrace.Lib Tracer

variable {κ : Type*} [DecidableEq κ] {rb : RbLib BpEntry} {code : Addr → Prop} {arg : κ → BkptPtr}
  {s₀ : Tracer} {b : BkptPtr} {o : ObjPtr} {t : κ} {m m' : Adders κ} {k k' : Control κ}

/-- A thread is in `slot_set_add`, and there is no memory for another slot set. -/
def Adders.Exhausted (m : Adders κ) (code : Addr → Prop) : Prop :=
  (∃ t b o, m.control.stage t = .addAlloc b o .growing) ∧
    ∀ new : NewSlots, ¬ new.Fits code m.control.tracer.slots

theorem Stage.eq_of_allocPc {st : Stage} {pc : AllocPc} (h : st.allocPc = pc) (hpc : pc ≠ .idle) :
    ∃ b o, st = .addAlloc b o pc := by
  cases st with
  | addAlloc b o => exact ⟨b, o, congrArg _ h⟩
  | _ => exact (hpc h.symm).elim

namespace AddersInv

/-- A thread that does not wait for `slot_sets_lock` can go on. -/
theorem enabled (rb : RbLib BpEntry) (hc : Callers s₀ code arg) (hi : AddersInv s₀ code arg m)
    (hst : m.control.stage t ≠ .idle) (hgrow : (m.control.stage t).allocPc ≠ .growing) :
    ∃ k, ControlStep rb code m.control t k := by
  have hcall := hi.call t
  cases h : m.control.stage t with
  | idle => exact (hst h).elim
  | addLock b =>
    rw [h] at hcall
    obtain ⟨rfl, _, _⟩ := hcall
    refine ⟨_, .addLock h ?_⟩
    -- every thread holds the lock of its own breakpoint only
    intro u hu
    have hcall := hi.call u
    by_cases hut : u = t
    · subst u
      rw [h] at hu
      cases hu
    · cases hs : m.control.stage u <;> rw [hs] at hu hcall <;> cases hu
      all_goals first
        | exact hut (hc.inj hcall.1.symm)
        | exact hcall
  | addLookup b =>
    rw [h] at hcall
    obtain ⟨rfl, _, _⟩ := hcall
    obtain ⟨o, hfound⟩ := hc.found t
    have hnow := hi.found hfound
    exact ⟨_, .addLookup h hnow.1 hnow.2⟩
  | addInsert b o =>
    cases hf : m.control.tracer.index.breakpointRbFindInternal
        (m.control.tracer.index.address ⟨b, .enter⟩) with
    | some e => exact ⟨_, .addPresent h (by decide) (BpIndex.searchInsert_present rb hf)⟩
    | none =>
      obtain ⟨_, hrun, _⟩ := BpIndex.searchInsert_absent rb hi.wellFormed hf
      exact ⟨_, .addInsert h hrun⟩
  | addAlloc b o pc =>
    have hpc : m.control.alloc.pc t = pc := congrArg Stage.allocPc h
    cases pc with
    | idle =>
      rw [h] at hcall
      exact (hcall.2.2.2.2.2 rfl).elim
    | retry => exact ⟨_, .walk h (Or.inl rfl) (.lock hpc)⟩
    | growing =>
      rw [h] at hgrow
      exact (hgrow rfl).elim
    | scanning rest idx =>
      cases rest with
      | nil => exact ⟨_, .walk h (Or.inr (Or.inr rfl)) (.unlock hpc)⟩
      | cons p ps =>
        cases hv : (m.control.tracer.slots.slotSet p).visit idx with
        | skip j => exact ⟨_, .walk h (Or.inr (Or.inl rfl)) (.skip hpc hv)⟩
        | found j pos => exact ⟨_, .claim h hv⟩
  | addLoad b o => exact ⟨_, .addLoad h⟩
  | addCopy b o v =>
    rw [h] at hcall
    obtain ⟨rfl, _, _, _, hs⟩ := hcall
    obtain ⟨p, hp⟩ := Option.isSome_iff_exists.mp hs.slot
    exact ⟨_, .addCopy h (slotAddr_eq_ok_iff.mpr ⟨p, hp, rfl⟩)⟩
  | addBrk b o =>
    rw [h] at hcall
    obtain ⟨rfl, _, _, _, hs⟩ := hcall
    obtain ⟨p, hp⟩ := Option.isSome_iff_exists.mp hs.slot
    exact ⟨_, .addBrk h (slotAddr_eq_ok_iff.mpr ⟨p, hp, rfl⟩)⟩
  | addReturn b o =>
    cases hf : m.control.tracer.index.breakpointRbFindInternal
        (m.control.tracer.index.address ⟨b, .ret⟩) with
    | some e => exact ⟨_, .addReturnPresent h (by decide) (BpIndex.searchInsert_present rb hf)⟩
    | none =>
      obtain ⟨_, hrun, _⟩ := BpIndex.searchInsert_absent rb hi.wellFormed hf
      exact ⟨_, .addReturn h hrun⟩
  | addChain b o => exact ⟨_, .addChain h⟩
  | addFree | patchLock | patchTest | patchOpen | patchLoad | patchStore | patchClose =>
    rw [h] at hcall
    exact hcall.elim

end AddersInv

theorem addersStep_of_control (hst : m.control.stage t ≠ .idle)
    (h : ControlStep rb code m.control t k) : ∃ m', AddersStep rb code arg m t m' := by
  by_cases hk : k.stage t = .idle
  · exact ⟨_, .finish hst h hk⟩
  · exact ⟨_, .work hst h hk⟩

/-- Until all calls have returned some thread can go on, unless the memory for slots runs out. -/
theorem adders_progress (rb : RbLib BpEntry) (hc : Callers s₀ code arg)
    (hi : AddersInv s₀ code arg m) (hres : m.result t = none) (hmem : ¬ m.Exhausted code) :
    ∃ u m', AddersStep rb code arg m u m' := by
  have hrun : ∀ u, m.control.stage u ≠ .idle → (m.control.stage u).allocPc ≠ .growing →
      ∃ u m', AddersStep rb code arg m u m' := by
    intro u hu hgrow
    obtain ⟨k, hk⟩ := hi.enabled rb hc hu hgrow
    exact ⟨u, addersStep_of_control hu hk⟩
  by_cases hst : m.control.stage t = .idle
  · rcases hi.callOk hst with ⟨_, hs⟩ | ⟨hret, _⟩ | ⟨hret, _⟩
    · exact ⟨t, _, .call hst hres hs.chainEmpty⟩
    · cases hres.symm.trans hret
    · cases hres.symm.trans hret
  · by_cases hgrow : (m.control.stage t).allocPc = .growing
    · obtain ⟨b, o, hstage⟩ := Stage.eq_of_allocPc hgrow nofun
      by_cases hread : m.control.alloc.Reading
      · -- a reader of `slot_sets_lock` is not waiting for anything
        obtain ⟨u, rest, idx, hpc⟩ := hread
        obtain ⟨_, _, hu⟩ := Stage.eq_of_allocPc hpc nofun
        exact hrun u (by simp [hu]) (by simp [hu, Stage.allocPc])
      · obtain ⟨new, hnew⟩ : ∃ new : NewSlots, new.Fits code m.control.tracer.slots := by
          by_contra hnone
          exact hmem ⟨⟨t, b, o, hstage⟩, not_exists.mp hnone⟩
        exact ⟨t, addersStep_of_control hst (.grow hstage hread hnew)⟩
    · exact hrun t hst hgrow

/-- The points of a call that are still to come, those of `slot_alloc` taken as one. -/
def Stage.toGo : Stage → Nat
  | .idle => 10
  | .addLock _ => 9
  | .addLookup _ => 8
  | .addInsert _ _ => 7
  | .addAlloc _ _ _ => 6
  | .addLoad _ _ => 5
  | .addCopy _ _ _ => 4
  | .addBrk _ _ => 3
  | .addReturn _ _ => 2
  | .addChain _ _ => 1
  | _ => 0

namespace SlotHeap

/-- The first set of the walk has no free slot, or there is none. -/
def Closed (h : SlotHeap) (rest : List SlotSetPtr) : Prop :=
  ∀ p ∈ rest.head?, (h.slotSet p).usedSlotCount.toNat = 1024

instance (h : SlotHeap) (rest : List SlotSetPtr) : Decidable (h.Closed rest) := by
  unfold Closed
  infer_instance

/-- The walk may end without a slot, so that the thread adds another set. -/
def mayGrow (h : SlotHeap) : AllocPc → Nat
  | .idle => 0
  | .retry => if h.Closed h.slotSets then 1 else 0
  | .scanning rest idx => if idx = 0 ∧ ¬ h.Closed rest then 0 else 1
  | .growing => 1

/-- The steps of the walk until the thread adds another set. -/
def walkRank (h : SlotHeap) : AllocPc → Nat
  | .idle => 0
  | .retry => h.slotSets.length + 3
  | .scanning rest _ => rest.length + 2
  | .growing => 1

end SlotHeap

namespace Adders

/-- What is left of the call of a thread. -/
def toGo (m : Adders κ) (t : κ) : Nat :=
  if m.result t = none then (m.control.stage t).toGo + 1 else 0

def pc (m : Adders κ) (t : κ) : AllocPc := (m.control.stage t).allocPc

/-- The measure of a run: what is left of the calls, then who may add a set, then the walks. -/
def measure [Fintype κ] (m : Adders κ) : ℕ ×ₗ ℕ ×ₗ ℕ :=
  toLex (∑ t, m.toGo t, toLex (∑ t, m.control.tracer.slots.mayGrow (m.pc t),
    ∑ t, m.control.tracer.slots.walkRank (m.pc t)))

end Adders

section Measure

variable [Fintype κ]

theorem sum_lt_of_lt {f g : κ → Nat} (hlt : f t < g t) (hle : ∀ u, u ≠ t → f u ≤ g u) :
    ∑ u, f u < ∑ u, g u := by
  refine Finset.sum_lt_sum (fun u _ => ?_) ⟨t, Finset.mem_univ t, hlt⟩
  by_cases hu : u = t
  · exact hu ▸ hlt.le
  · exact hle u hu

/-- A call gets nearer to its end. -/
theorem measure_lt_of_toGo (hlt : m'.toGo t < m.toGo t)
    (hother : ∀ u, u ≠ t → m'.toGo u = m.toGo u) : m'.measure < m.measure :=
  Prod.Lex.toLex_lt_toLex.mpr (Or.inl (sum_lt_of_lt hlt fun u hu => (hother u hu).le))

omit [DecidableEq κ] in
theorem measure_lt_of_alloc (hgo : ∀ u, m'.toGo u = m.toGo u)
    (hlt : toLex (∑ u, m'.control.tracer.slots.mayGrow (m'.pc u),
        ∑ u, m'.control.tracer.slots.walkRank (m'.pc u)) <
      toLex (∑ u, m.control.tracer.slots.mayGrow (m.pc u),
        ∑ u, m.control.tracer.slots.walkRank (m.pc u))) : m'.measure < m.measure := by
  refine Prod.Lex.toLex_lt_toLex.mpr (Or.inr ⟨?_, hlt⟩)
  exact Finset.sum_congr rfl fun u _ => hgo u

/-- A thread goes on along the list of sets. -/
theorem measure_lt_of_walk (hgo : ∀ u, m'.toGo u = m.toGo u)
    (hslots : m'.control.tracer.slots = m.control.tracer.slots)
    (hother : ∀ u, u ≠ t → m'.pc u = m.pc u)
    (hgrow : m.control.tracer.slots.mayGrow (m'.pc t) ≤ m.control.tracer.slots.mayGrow (m.pc t))
    (hwalk : m.control.tracer.slots.walkRank (m'.pc t) <
      m.control.tracer.slots.walkRank (m.pc t)) : m'.measure < m.measure := by
  have hle : ∑ u, m'.control.tracer.slots.mayGrow (m'.pc u) ≤
      ∑ u, m.control.tracer.slots.mayGrow (m.pc u) := by
    refine Finset.sum_le_sum fun u _ => ?_
    rw [hslots]
    by_cases hu : u = t
    · exact hu ▸ hgrow
    · rw [hother u hu]
  have hlt : ∑ u, m'.control.tracer.slots.walkRank (m'.pc u) <
      ∑ u, m.control.tracer.slots.walkRank (m.pc u) := by
    rw [hslots]
    exact sum_lt_of_lt hwalk fun u hu => by rw [hother u hu]
  refine measure_lt_of_alloc hgo (Prod.Lex.toLex_lt_toLex.mpr ?_)
  rcases hle.lt_or_eq with h | h
  · exact Or.inl h
  · exact Or.inr ⟨h, hlt⟩

/-- A thread has added a set, which nobody finds full before a slot is taken. -/
theorem measure_lt_of_grow (hgo : ∀ u, m'.toGo u = m.toGo u)
    (hself : m'.control.tracer.slots.mayGrow (m'.pc t) <
      m.control.tracer.slots.mayGrow (m.pc t))
    (hother : ∀ u, u ≠ t → m'.control.tracer.slots.mayGrow (m'.pc u) ≤
      m.control.tracer.slots.mayGrow (m.pc u)) : m'.measure < m.measure :=
  measure_lt_of_alloc hgo (Prod.Lex.toLex_lt_toLex.mpr (Or.inl (sum_lt_of_lt hself hother)))

end Measure

namespace SlotHeap

variable {h : SlotHeap} {p : SlotSetPtr} {ps : List SlotSetPtr}

theorem mayGrow_le_one (h : SlotHeap) (pc : AllocPc) : h.mayGrow pc ≤ 1 := by
  cases pc with
  | idle => exact Nat.zero_le 1
  | growing => exact le_rfl
  | retry =>
    rw [mayGrow]
    split <;> omega
  | scanning rest idx =>
    rw [mayGrow]
    split <;> omega

/-- A set that is skipped from its first word on is full. -/
theorem closed_of_skip {j : Nat} (hc : (h.slotSet p).Counted)
    (hv : (h.slotSet p).visit 0 = .skip j) : h.Closed (p :: ps) := by
  rintro q ⟨⟩
  rcases SlotSet.visit_skip hv (Nat.zero_le 32) with ⟨hfull, _⟩ | ⟨_, hnone⟩
  · rw [hfull]
    rfl
  · exact hc.full_iff.mpr fun i hi => hnone i (by omega) hi

/-- Along the walk a thread does not become one that may add a set, and it gets nearer to the end
of the list. -/
theorem walk_ranks {u u' : AllocState κ} {e : AllocEvent κ} (hi : AllocInv u)
    (he : e = .lock t ∨ e = .skip t ∨ e = .unlock t) (hs : AllocStep u e u') :
    u.heap.mayGrow (u'.pc t) ≤ u.heap.mayGrow (u.pc t) ∧
      u.heap.walkRank (u'.pc t) < u.heap.walkRank (u.pc t) := by
  rcases he with rfl | rfl | rfl
  · cases hs with
    | lock hpc =>
      rw [AllocState.setPc_pc, if_pos rfl, hpc]
      refine ⟨?_, by simp [walkRank]⟩
      by_cases hclosed : u.heap.Closed u.heap.slotSets <;> simp [mayGrow, hclosed]
  · cases hs with
    | skip hpc hv =>
      rename_i p ps idx idx'
      rw [AllocState.setPc_pc, if_pos rfl, hpc]
      refine ⟨?_, by simp [walkRank]⟩
      have hone : u.heap.mayGrow (.scanning (p :: ps) idx) = 1 := by
        rw [mayGrow, if_neg]
        rintro ⟨rfl, hopen⟩
        have hp := (hi.walk t _ _ hpc).1 List.mem_cons_self
        exact hopen (closed_of_skip (hi.counted p hp) hv)
      rw [hone]
      exact mayGrow_le_one _ _
  · cases hs with
    | unlock hpc =>
      rw [AllocState.setPc_pc, if_pos rfl, hpc]
      exact ⟨by simp [mayGrow, Closed], by simp [walkRank]⟩

/-- The set that was added is not full. -/
theorem mayGrow_retry (h : SlotHeap) (new : NewSlots) : (h.slotSetAdd new).mayGrow .retry = 0 := by
  refine if_neg fun hclosed => ?_
  have hfull := hclosed new.ptr rfl
  simp [slotSetAdd, SlotSet.fresh] at hfull

/-- The sets that other threads walk along are as they were. -/
theorem mayGrow_slotSetAdd {new : NewSlots} (hnew : new.ptr ∉ h.slotSets) {pc : AllocPc}
    (hpc : ∀ rest idx, pc = .scanning rest idx → rest ⊆ h.slotSets) :
    (h.slotSetAdd new).mayGrow pc ≤ h.mayGrow pc := by
  cases pc with
  | idle => exact le_rfl
  | growing => exact le_rfl
  | retry =>
    rw [mayGrow_retry]
    exact Nat.zero_le _
  | scanning rest idx =>
    have hsame : (h.slotSetAdd new).Closed rest ↔ h.Closed rest := by
      refine forall₂_congr fun q hq => ?_
      have hq : q ∈ h.slotSets := hpc rest idx rfl (List.mem_of_mem_head? hq)
      rw [slotSetAdd_slotSet fun he => hnew (he ▸ hq)]
    simp [mayGrow, hsame]

end SlotHeap

theorem controlStep_other {u : κ} (h : ControlStep rb code k t k') (hu : u ≠ t) :
    k'.stage u = k.stage u := by
  cases h <;> exact Function.update_of_ne hu ..

section Termination

variable [Fintype κ]

theorem control_measure_lt (hi : AddersInv s₀ code arg m) (hst : m.control.stage t ≠ .idle)
    (h : ControlStep rb code m.control t k) (hk : k.stage t ≠ .idle) :
    ({ m with control := k } : Adders κ).measure < m.measure := by
  have hother {u : κ} (hu : u ≠ t) : k.stage u = m.control.stage u := controlStep_other h hu
  have hres := hi.result_of_stage hst
  -- outside `slot_alloc` the call itself goes on
  have hcall {st st' : Stage} (hs : m.control.stage t = st)
      (hs' : k.stage = Function.update m.control.stage t st') (hlt : st'.toGo < st.toGo) :
      ({ m with control := k } : Adders κ).measure < m.measure := by
    refine measure_lt_of_toGo (t := t) ?_ ?_
    · simpa [Adders.toGo, hres, hs, hs'] using hlt
    · intro u hu
      simp [Adders.toGo, hother hu]
  have hgo {b : BkptPtr} {o : ObjPtr} {pc pc' : AllocPc} (hs : m.control.stage t = .addAlloc b o pc)
      (hs' : k.stage = Function.update m.control.stage t (.addAlloc b o pc')) :
      ∀ u, ({ m with control := k } : Adders κ).toGo u = m.toGo u := by
    intro u
    by_cases hu : u = t
    · subst u
      simp [Adders.toGo, hs, hs', Stage.toGo]
    · simp [Adders.toGo, hother hu]
  cases h with
  | addCall hst' | patchCall hst' => exact (hst hst').elim
  | addLock hst' => exact hcall hst' rfl (by simp [Stage.toGo])
  | addRefused | addPresent | addChain => exact (hk (Function.update_self ..)).elim
  | addLookup hst' => exact hcall hst' rfl (by simp [Stage.toGo])
  | addInsert hst' =>
    refine hcall hst' rfl ?_
    split <;> simp [Stage.toGo]
  | addLoad hst' => exact hcall hst' rfl (by simp [Stage.toGo])
  | addCopy hst' => exact hcall hst' rfl (by simp [Stage.toGo])
  | addBrk hst' => exact hcall hst' rfl (by simp [Stage.toGo])
  | addReturn hst' => exact hcall hst' rfl (by simp [Stage.toGo])
  | claim hst' => exact hcall hst' rfl (by simp [Stage.toGo])
  | addReturnPresent hst' => exact hcall hst' rfl (by simp [Stage.toGo])
  | walk hst' he h =>
    obtain ⟨hgrow, hwalk⟩ := SlotHeap.walk_ranks hi.alloc he h
    refine measure_lt_of_walk (t := t) (hgo hst' rfl) rfl ?_ ?_ ?_
    · exact fun u hu => congrArg Stage.allocPc (hother hu)
    · rw [Adders.pc, Control.move_stage, if_pos rfl]
      exact hgrow
    · rw [Adders.pc, Control.move_stage, if_pos rfl]
      exact hwalk
  | grow hst' hlock hnew =>
    refine measure_lt_of_grow (t := t) (hgo hst' rfl) ?_ ?_
    · have hbefore : m.pc t = .growing := congrArg Stage.allocPc hst'
      rw [Adders.pc, hbefore, Control.act, Control.move_stage, if_pos rfl]
      exact (SlotHeap.mayGrow_retry m.control.tracer.slots _).trans_lt Nat.one_pos
    · intro u hu
      have hsub : ∀ rest idx, m.pc u = .scanning rest idx →
          rest ⊆ m.control.tracer.slots.slotSets :=
        fun rest idx hs => (hi.alloc.walk u rest idx hs).1
      rw [Adders.pc, hother hu]
      exact SlotHeap.mayGrow_slotSetAdd hnew.ptr hsub
  | addFree hst' | patchLock hst' | patchDone hst' | patchTest hst' | patchOpen hst' | patchLoad hst'
  | patchStore hst' | patchClose hst' => exact (hi.callOk hst').elim

theorem adders_measure_lt (hi : AddersInv s₀ code arg m) (h : AddersStep rb code arg m t m') :
    m'.measure < m.measure := by
  cases h with
  | call hst hres hchain =>
    refine measure_lt_of_toGo (t := t) ?_ ?_
    · simp [Adders.toGo, hres, hst, Control.move_stage, Stage.toGo]
    · intro u hu
      simp [Adders.toGo, Control.move_stage, hu]
  | work hst h hk => exact control_measure_lt hi hst h hk
  | finish hst h hk =>
    refine measure_lt_of_toGo (t := t) ?_ ?_
    · simp [Adders.toGo, hi.result_of_stage hst]
    · intro u hu
      simp [Adders.toGo, controlStep_other h hu, hu]

/-- No order of the steps keeps the calls going on forever. -/
theorem adders_terminate (h : AddersInitial code arg m) :
    ¬ RunsForever (AddersStep rb code arg) m :=
  not_runsForever Adders.measure (fun _ _ _ hs hi => addersInv_step h.callers hs hi)
    (fun _ _ _ hs hi => adders_measure_lt hi hs) (addersInv_initial h)

end Termination

end Atrace.Signal

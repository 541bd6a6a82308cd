import Atrace.Signal.TextInv

/-! The invariant of the threads that add, enable and disable breakpoints. -/
namespace Atrace.Signal

open Atrace.Lib Tracer

/-- The breakpoint that has its enter entry in the index and nothing else yet. -/
def Stage.adding : Stage → Option BkptPtr
  | .addAlloc b _ _ | .addLoad b _ | .addCopy b _ _ | .addBrk b _ | .addReturn b _ => some b
  | _ => none

theorem Stage.holds_of_adding {st : Stage} {b : BkptPtr} (h : st.adding = some b) :
    st.holds = some b := by
  cases st <;> simp_all [Stage.adding, Stage.holds]

namespace Tracer

/-- The enter entry is in the index, the return entry is not. -/
def Adding (s : Tracer) (b : BkptPtr) : Prop :=
  s.index.emptyNode ⟨b, .enter⟩ = false ∧ s.index.emptyNode ⟨b, .ret⟩ = true

/-- What a thread knows at each point of a call. -/
def StageOk (s₀ s : Tracer) : Stage → Prop
  | .idle | .addLock _ | .addLookup _ => True
  | .addInsert b _ => (s₀.objectGetByAddress (s₀.enterAddr b)).isSome
  | .addAlloc b _ _ => s.Adding b
  | .addLoad b _ => s.Adding b ∧ ∃ a, s.slotAddr b = .ok a
  | .addCopy b _ v => s.Adding b ∧ v = loadInstr s₀.mem (s₀.enterAddr b)
  | .addBrk b _ => s.Adding b ∧ ∃ a, s.slotAddr b = .ok a ∧
      loadInstr s.mem a = loadInstr s₀.mem (s₀.enterAddr b)
  | .addReturn b _ => s.Adding b ∧ ∃ a, s.slotAddr b = .ok a ∧
      loadInstr s.mem a = loadInstr s₀.mem (s₀.enterAddr b) ∧
      loadInstr s.mem (a + 4) = brkInstr ∧ s.returnAddr b = a + 4
  | .addFree _ => False
  | .patchLock b _ => s.index.emptyNode ⟨b, .enter⟩ = false
  | .addChain b _ | .patchTest b _ | .patchOpen b _ | .patchLoad b | .patchClose b => Done s₀ s b
  | .patchStore b v => Done s₀ s b ∧ (v = brkInstr ∨ v = loadInstr s₀.mem (s₀.enterAddr b))

/-- The code is aligned and has the text of the objects in it; so are the breakpoints. -/
structure IsCode (s₀ : Tracer) (code : Addr → Prop) : Prop where
  aligned : ∀ a, code a → 4 ∣ a.toNat
  text : ∀ a, s₀.IsText a → code a
  enter : ∀ b, 4 ∣ (s₀.enterAddr b).toNat

end Tracer

variable {κ : Type*} [DecidableEq κ] {rb : RbLib BpEntry} {code : Addr → Prop} {s s' s₀ : Tracer}
  {k k' : Control κ} {t : κ} {b c : BkptPtr} {o : ObjPtr} {st : Stage} {a : Addr}

/-- The invariant of the calls. -/
structure ControlInv (s₀ : Tracer) (code : Addr → Prop) (k : Control κ) : Prop
    extends TextInv s₀ code k.tracer where
  alloc : AllocInv k.alloc
  locked : ∀ t u b, (k.stage t).holds = some b → (k.stage u).holds = some b → t = u
  stage : ∀ t, StageOk s₀ k.tracer (k.stage t)
  linked : ∀ b, k.tracer.index.emptyNode ⟨b, .enter⟩ = false → s₀.IsText (s₀.enterAddr b) ∧
    (Done s₀ k.tracer b ∨ ∃ t, (k.stage t).adding = some b)

/-- A step for another breakpoint takes nothing away from what a thread knows. -/
theorem StageOk.frame {x : Option BkptPtr} (hc : s.Claims) (hf : Frame x s s')
    (hne : ∀ b, x = some b → st.holds ≠ some b) (h : StageOk s₀ s st) : StageOk s₀ s' st := by
  have hx : ∀ b, st.holds = some b → x ≠ some b := fun b hb he => hne b he hb
  have hadding : ∀ b, st.holds = some b → s.Adding b → s'.Adding b := by
    intro b hb ⟨henter, hret⟩
    exact ⟨hf.linked _ henter, (hf.unlinked b (hx b hb)).trans hret⟩
  cases st with
  | idle => exact h
  | addLock b => exact h
  | addLookup b => exact h
  | addInsert b o => exact h
  | addAlloc b o pc => exact hadding b rfl h
  | addLoad b o =>
    obtain ⟨hb, a, ha⟩ := h
    exact ⟨hadding b rfl hb, a, hf.slotAddr hc (hx b rfl) ha⟩
  | addCopy b o v => exact ⟨hadding b rfl h.1, h.2⟩
  | addBrk b o =>
    obtain ⟨hb, a, ha, hload⟩ := h
    refine ⟨hadding b rfl hb, a, hf.slotAddr hc (hx b rfl) ha, ?_⟩
    exact (hf.load (hx b rfl) ha (Or.inl rfl)).trans hload
  | addReturn b o =>
    obtain ⟨hb, a, ha, hload, hbrk, hret⟩ := h
    refine ⟨hadding b rfl hb, a, hf.slotAddr hc (hx b rfl) ha, ?_, ?_, ?_⟩
    · exact (hf.load (hx b rfl) ha (Or.inl rfl)).trans hload
    · exact (hf.load (hx b rfl) ha (Or.inr rfl)).trans hbrk
    · exact (hf.returnAddr b (hx b rfl)).trans hret
  | addFree b => exact h
  | addChain b o => exact hf.done h
  | patchLock b on => exact hf.linked _ h
  | patchTest b on => exact hf.done h
  | patchOpen b on => exact hf.done h
  | patchLoad b => exact hf.done h
  | patchStore b v => exact ⟨hf.done h.1, h.2⟩
  | patchClose b => exact hf.done h

/-- A step that keeps the invariant, and the breakpoints that are done as they are. -/
structure Stepped (s₀ : Tracer) (code : Addr → Prop) (k k' : Control κ) : Prop where
  inv : ControlInv s₀ code k'
  frame : ∃ x, Frame x k.tracer k'.tracer

namespace ControlInv

/-- One step of the thread `t`, from `k` to `k'`. -/
theorem step (hi : ControlInv s₀ code k) {x : Option BkptPtr} (hf : Frame x k.tracer k'.tracer)
    (hs : TextInv s₀ code k'.tracer) (hk : k'.stage = (k.move t st).stage)
    (halloc : AllocInv k'.alloc) (hst : StageOk s₀ k'.tracer st)
    (hx : ∀ b, x = some b → (k.stage t).holds = some b)
    (hlock : ∀ b, st.holds = some b → (k.stage t).holds = some b ∨ k.Free b)
    (hlinked : ∀ b, k'.tracer.index.emptyNode ⟨b, .enter⟩ = false →
      k.tracer.index.emptyNode ⟨b, .enter⟩ = false ∨
        (s₀.IsText (s₀.enterAddr b) ∧ st.adding = some b))
    (hadding : ∀ b, (k.stage t).adding = some b → st.adding = some b ∨ Done s₀ k'.tracer b) :
    Stepped s₀ code k k' := by
  have hself : k'.stage t = st := by
    rw [hk, Control.move_stage, if_pos rfl]
  have hother : ∀ u, u ≠ t → k'.stage u = k.stage u := by
    intro u hu
    rw [hk, Control.move_stage, if_neg hu]
  refine ⟨⟨hs, halloc, ?_, ?_, ?_⟩, x, hf⟩
  · have hone : ∀ u b, u ≠ t → st.holds = some b → (k.stage u).holds = some b → False := by
      intro u b hu hb hub
      rcases hlock b hb with htb | hfree
      · exact hu (hi.locked u t b hub htb)
      · exact hfree u hub
    intro u v b hu hv
    by_cases hut : u = t <;> by_cases hvt : v = t
    · rw [hut, hvt]
    · rw [hut, hself] at hu
      rw [hother v hvt] at hv
      exact (hone v b hvt hu hv).elim
    · rw [hvt, hself] at hv
      rw [hother u hut] at hu
      exact (hone u b hut hv hu).elim
    · rw [hother u hut] at hu
      rw [hother v hvt] at hv
      exact hi.locked u v b hu hv
  · intro u
    by_cases hu : u = t
    · rw [hu, hself]
      exact hst
    · rw [hother u hu]
      refine StageOk.frame hi.toClaims hf ?_ (hi.stage u)
      intro b hb hub
      exact hu (hi.locked u t b hub (hx b hb))
  · intro b hb
    rcases hlinked b hb with hold | ⟨htext, hnew⟩
    · obtain ⟨htext, hdone | ⟨u, hu⟩⟩ := hi.linked b hold
      · exact ⟨htext, Or.inl (hf.done hdone)⟩
      · refine ⟨htext, ?_⟩
        by_cases hut : u = t
        · subst u
          rcases hadding b hu with hnew | hdone
          · exact Or.inr ⟨t, by rw [hself, hnew]⟩
          · exact Or.inl hdone
        · exact Or.inr ⟨u, by rw [hother u hut, hu]⟩
    · exact ⟨htext, Or.inr ⟨t, by rw [hself, hnew]⟩⟩

/-- A step that acquires no lock and puts no enter entry into the index. -/
theorem act (hi : ControlInv s₀ code k) {x : Option BkptPtr} {old : Stage}
    (hst : k.stage t = old) (hf : Frame x k.tracer k'.tracer) (hs : TextInv s₀ code k'.tracer)
    (hk : k'.stage = (k.move t st).stage) (halloc : AllocInv k'.alloc)
    (hok : StageOk s₀ k'.tracer st) (hx : ∀ b, x = some b → old.holds = some b)
    (hlock : ∀ b, st.holds = some b → old.holds = some b)
    (hlinked : ∀ b, k'.tracer.index.emptyNode ⟨b, .enter⟩ = k.tracer.index.emptyNode ⟨b, .enter⟩)
    (hadding : ∀ b, old.adding = some b → st.adding = some b ∨ Done s₀ k'.tracer b) :
    Stepped s₀ code k k' := by
  subst hst
  exact hi.step hf hs hk halloc hok hx (fun b hb => Or.inl (hlock b hb))
    (fun b hb => Or.inl ((hlinked b).symm.trans hb)) hadding

/-- A step that leaves the tracer alone. -/
theorem move (hi : ControlInv s₀ code k) {old : Stage} (hst : k.stage t = old)
    (halloc : AllocInv (k.move t st).alloc) (hok : StageOk s₀ k.tracer st)
    (hlock : ∀ b, st.holds = some b → old.holds = some b ∨ k.Free b)
    (hadding : ∀ b, old.adding = some b → st.adding = some b) :
    Stepped s₀ code k (k.move t st) := by
  subst hst
  exact hi.step (frame_refl k.tracer) hi.toTextInv rfl halloc hok nofun hlock
    (fun _ hb => Or.inl hb) fun b hb => Or.inl (hadding b hb)

/-- The allocator does not see a step outside `slot_alloc`. -/
theorem alloc_act (hi : ControlInv s₀ code k) (hs : s.slots = k.tracer.slots)
    (hst : ∀ rest idx, st.allocPc ≠ .scanning rest idx) : AllocInv (k.act t st s).alloc :=
  Control.allocInv_act hi.alloc hs hst

section Add

variable {index : BpIndex BpEntry} {p : SlotSetPtr} {i : Nat} {v : Instr}

omit [DecidableEq κ] in
theorem stageOk (hi : ControlInv s₀ code k) (hst : k.stage t = st) : StageOk s₀ k.tracer st :=
  hst ▸ hi.stage t

omit [DecidableEq κ] in
theorem code_enter (hi : ControlInv s₀ code k) (hcode : s₀.IsCode code)
    (hb : k.tracer.index.emptyNode ⟨b, .enter⟩ = false) : code (k.tracer.enterAddr b) := by
  rw [hi.enterAddr]
  exact hcode.text _ (hi.linked b hb).1

omit [DecidableEq κ] in
/-- Two breakpoints in the index are at two addresses. -/
theorem enter_unique (hi : ControlInv s₀ code k)
    (hb : k.tracer.index.emptyNode ⟨b, .enter⟩ = false)
    (hc : k.tracer.index.emptyNode ⟨c, .enter⟩ = false)
    (he : k.tracer.enterAddr b = k.tracer.enterAddr c) : b = c := by
  have hfb := (BpIndex.find_eq_some_iff hi.wellFormed).mpr
    ⟨(hi.wellFormed.linked ⟨b, .enter⟩).mp hb, he⟩
  have hfc := (BpIndex.find_eq_some_iff hi.wellFormed).mpr
    ⟨(hi.wellFormed.linked ⟨c, .enter⟩).mp hc, rfl⟩
  exact (BpEntry.mk.inj (Option.some.inj (hfb.symm.trans hfc))).1

omit [DecidableEq κ] in
/-- A breakpoint that is being added sits on an original word. -/
theorem original (hi : ControlInv s₀ code k) (hcode : s₀.IsCode code) (hb : k.tracer.Adding b) :
    loadInstr k.tracer.mem (k.tracer.enterAddr b) = loadInstr s₀.mem (s₀.enterAddr b) := by
  rw [← hi.enterAddr b]
  rcases hi.words _ (hi.code_enter hcode hb.1) with horig | ⟨_, c, hc, he⟩
  · exact horig
  · have hbc := hi.enter_unique (hc.linked .enter) hb.1 ((hi.enterAddr c).trans he)
    subst c
    exact absurd (hb.2.symm.trans (hc.linked .ret)) (by decide)

theorem insert_enter (hi : ControlInv s₀ code k) (hcode : s₀.IsCode code)
    (hst : k.stage t = .addInsert b o) (hempty : k.tracer.index.emptyNode ⟨b, .enter⟩ = true)
    (hins : k.tracer.index.Inserted index ⟨b, .enter⟩) :
    Stepped s₀ code k (k.act t (.addAlloc b o .retry) (k.tracer.setIndex index)) := by
  have hret : k.tracer.index.emptyNode ⟨b, .ret⟩ = true := by
    rw [← Bool.not_eq_false]
    intro hret
    exact absurd (hempty.symm.trans ((hi.returned b hret).linked .enter)) (by decide)
  have hnew : (k.tracer.setIndex index).Adding b := by
    constructor
    · exact (congrFun hins.emptyNode _).trans (Function.update_self ..)
    · exact (congrFun hins.emptyNode _).trans ((Function.update_of_ne (by simp) ..).trans hret)
  refine hi.step (TextInv.frame_enter hins) (hi.toTextInv.setIndex_enter hins) rfl
    (hi.alloc_act rfl nofun) hnew nofun ?_ ?_ ?_
  · rintro c ⟨⟩
    exact Or.inl (by rw [hst]; rfl)
  · intro c hc
    by_cases hcb : c = b
    · subst c
      exact Or.inr ⟨⟨hcode.enter b, hi.stageOk hst⟩, rfl⟩
    · rw [← hc]
      refine Or.inl ((congrFun hins.emptyNode _).trans (Function.update_of_ne ?_ ..)).symm
      exact fun he => hcb (BpEntry.mk.inj he).1
  · intro c hc
    rw [hst] at hc
    cases hc

theorem grow (hi : ControlInv s₀ code k) {new : NewSlots}
    (hst : k.stage t = .addAlloc b o .growing) (hnew : new.Fits code k.tracer.slots) :
    Stepped s₀ code k
      (k.act t (.addAlloc b o .retry) (k.tracer.setSlots (k.tracer.slots.slotSetAdd new))) := by
  exact hi.act hst (TextInv.frame_grow hnew.ptr) (hi.toTextInv.grow hnew) rfl
    (Control.allocInv_of t (.addAlloc b o .retry) rfl (allocInv_grow hi.alloc hnew.ptr))
    (hi.stageOk hst) nofun (fun _ hc => hc) (fun _ => rfl) fun _ hc => Or.inl hc

theorem claim (hi : ControlInv s₀ code k) {ps : List SlotSetPtr} {idx j pos : Nat}
    (hst : k.stage t = .addAlloc b o (.scanning (p :: ps) idx))
    (hv : (k.tracer.slots.slotSet p).visit idx = .found j pos) :
    Stepped s₀ code k
      { k.act t (.addLoad b o) (k.tracer.takeSlot b (k.tracer.slots.modify p (·.claim j pos)) p
          (j * uintBitNum + pos)) with
        live := (p, j * uintBitNum + pos) :: k.live } := by
  have hpc : k.alloc.pc t = .scanning (p :: ps) idx := congrArg Stage.allocPc hst
  have hadding : k.tracer.Adding b := hi.stageOk hst
  obtain ⟨hsub, hidx⟩ := hi.alloc.walk t _ _ hpc
  have hp : p ∈ k.tracer.slots.slotSets := hsub List.mem_cons_self
  obtain ⟨_, hj, hpos, hfree, _⟩ := SlotSet.visit_found hv hidx
  have htaken := slotTaken_modify hi.layout hp hj hpos hfree
  have hf := TextInv.frame_takeSlot hadding.2 htaken
  have hslot : (k.tracer.takeSlot b (k.tracer.slots.modify p (·.claim j pos)) p
      (j * uintBitNum + pos)).bkpt b = _ := (TextInv.takeSlot_bkpt ..).trans (if_pos rfl)
  exact hi.act hst hf (hi.toTextInv.takeSlot hadding.2 htaken) rfl
    (Control.allocInv_of t (.addLoad b o) rfl (allocInv_claim hi.alloc hpc hv))
    ⟨hadding, _, slotAddr_eq_ok_iff.mpr ⟨p, congrArg Breakpoint.slotSet hslot, rfl⟩⟩
    (fun _ hc => hc) (fun _ hc => hc) (fun _ => rfl) fun _ hc => Or.inl hc

theorem walk (hi : ControlInv s₀ code k) {pc : AllocPc} {e : AllocEvent κ} {u : AllocState κ}
    (hst : k.stage t = .addAlloc b o pc) (he : e = .lock t ∨ e = .skip t ∨ e = .unlock t)
    (h : AllocStep k.alloc e u) : Stepped s₀ code k (k.move t (.addAlloc b o (u.pc t))) := by
  have hadding : k.tracer.Adding b := hi.stageOk hst
  exact hi.move hst (Control.allocInv_walk hi.alloc he h) hadding (fun _ hc => Or.inl hc)
    fun _ hc => hc

/-- The copy of the displaced word. -/
theorem copy (hi : ControlInv s₀ code k) (hst : k.stage t = .addCopy b o v)
    (ha : k.tracer.slotAddr b = .ok a) :
    Stepped s₀ code k
      (k.act t (.addBrk b o) { k.tracer with mem := storeInstr k.tracer.mem a v }) := by
  obtain ⟨hadding, hv⟩ := hi.stageOk hst
  obtain ⟨p, hp, rfl⟩ := slotAddr_eq_ok_iff.mp ha
  exact hi.act hst (hi.frame_slotWord hadding.2 hp (Or.inl rfl))
    (hi.slotWord hadding.2 hp (Or.inl rfl)) rfl (hi.alloc_act rfl nofun)
    ⟨hadding, _, ha, (loadInstr_storeInstr _ _ _).trans hv⟩ (fun _ hc => hc) (fun _ hc => hc)
    (fun _ => rfl) fun _ hc => Or.inl hc

/-- The breakpoint instruction after it, and the address of the return entry. -/
theorem brk (hi : ControlInv s₀ code k) (hst : k.stage t = .addBrk b o)
    (ha : k.tracer.slotAddr b = .ok a) :
    Stepped s₀ code k (k.act t (.addReturn b o)
      ({ k.tracer with mem := storeInstr k.tracer.mem (a + 4) brkInstr }.setReturnAddr b (a + 4))) := by
  obtain ⟨hadding, a', ha', hload⟩ := hi.stageOk hst
  obtain rfl : a = a' := Except.ok.inj (ha.symm.trans ha')
  obtain ⟨p, hp, rfl⟩ := slotAddr_eq_ok_iff.mp ha
  have hf := hi.frame_slotWord (v := brkInstr) hadding.2 hp (Or.inr rfl)
  have hs := hi.slotWord (v := brkInstr) hadding.2 hp (Or.inr rfl)
  have hfresh : ({ k.tracer with mem := storeInstr k.tracer.mem ((k.tracer.slots.slotSet
      p).slotOffset (k.tracer.bkpt b).slotIndex + 4) brkInstr } : Tracer).index.emptyNode
        ⟨b, .ret⟩ = true := hadding.2
  have hf' := hf.trans hi.toClaims (TextInv.frame_setReturnAddr hfresh
    ((k.tracer.slots.slotSet p).slotOffset (k.tracer.bkpt b).slotIndex + 4))
  obtain ⟨hlisted, hlt, _⟩ := hi.taken b p hp
  refine hi.act hst hf' (hs.setReturnAddr hfresh _) rfl (hi.alloc_act rfl nofun)
    ⟨hadding, _, ha, ?_, loadInstr_storeInstr _ _ _, Function.update_self ..⟩ (fun _ hc => hc)
    (fun _ hc => hc) (fun _ => rfl) fun _ hc => Or.inl hc
  exact (loadInstr_storeInstr_apart (hi.layout.wordsApart_self hlisted hlt) _ _).trans hload

omit [DecidableEq κ] in
/-- Nothing in the index is at the second word of the slot. -/
theorem return_absent (hi : ControlInv s₀ code k) (hcode : s₀.IsCode code)
    (hadding : k.tracer.Adding b) (ha : k.tracer.slotAddr b = .ok a)
    (hret : k.tracer.returnAddr b = a + 4) (e : BpEntry) :
    k.tracer.index.breakpointRbFindInternal (k.tracer.returnAddr b) ≠ some e := by
  intro hf
  obtain ⟨p, hp, rfl⟩ := slotAddr_eq_ok_iff.mp ha
  obtain ⟨c, kind⟩ := e
  obtain ⟨hmem, haddr⟩ := (BpIndex.find_eq_some_iff hi.wellFormed).mp hf
  have hlinked := (hi.wellFormed.linked ⟨c, kind⟩).mpr hmem
  rw [hret] at haddr
  cases kind with
  | enter => exact hi.not_code hp (Or.inr rfl) (haddr ▸ hi.code_enter hcode hlinked)
  | ret =>
    obtain ⟨q, j, hq⟩ := hi.returned c hlinked
    have hcb : c ≠ b := by
      rintro rfl
      exact absurd (hadding.2.symm.trans hlinked) (by decide)
    have haddr : k.tracer.returnAddr c = _ := haddr
    have hap := (hi.wordsApart_slots hcb hq.slotSet hp
      (Or.inr (hq.returnAddr.trans (by rw [hq.slotIndex]))) (Or.inr haddr)).apart
    omega

end Add

section Finish

variable {index : BpIndex BpEntry}

/-- The return entry goes into the index: the breakpoint is done. -/
theorem insert_return (hi : ControlInv s₀ code k) (hst : k.stage t = .addReturn b o)
    (hins : k.tracer.index.Inserted index ⟨b, .ret⟩) :
    Stepped s₀ code k (k.act t (.addChain b o) (k.tracer.setIndex index)) := by
  obtain ⟨hadding, a, ha, hload, hbrk, hret⟩ := hi.stageOk hst
  obtain ⟨p, hp, rfl⟩ := slotAddr_eq_ok_iff.mp ha
  obtain ⟨hlisted, hlt, htaken⟩ := hi.taken b p hp
  have hf := TextInv.frame_return hadding.2 hins
  have hdone : Done s₀ (k.tracer.setIndex index) b := by
    refine ⟨p, _, ⟨hp, rfl, hlisted, hlt, htaken, ?_, ?_, hbrk⟩, hload⟩
    · intro kind
      cases kind with
      | enter => exact hf.linked _ hadding.1
      | ret => exact (congrFun hins.emptyNode _).trans (Function.update_self ..)
    · exact (congrFun hins.address _).trans hret
  refine hi.act hst hf (hi.setIndex_return hadding.2 hins hdone) rfl (hi.alloc_act rfl nofun) hdone
    (fun _ hc => hc) (fun _ hc => hc) ?_ ?_
  · intro c
    exact (congrFun hins.emptyNode _).trans (Function.update_of_ne (by simp) ..)
  · rintro c ⟨⟩
    exact Or.inr hdone

/-- A step that changes neither the index, nor the slots, nor the memory. -/
theorem same (hi : ControlInv s₀ code k) {old : Stage} (hst : k.stage t = old)
    (h : Same k.tracer s) (hok : StageOk s₀ s st) (hpc : ∀ rest idx, st.allocPc ≠ .scanning rest idx)
    (hlock : ∀ b, st.holds = some b → old.holds = some b) (hold : old.adding = none) :
    Stepped s₀ code k (k.act t st s) := by
  refine hi.act hst h.frame (hi.toTextInv.same h) rfl (hi.alloc_act h.slots hpc) hok nofun hlock ?_ ?_
  · intro c
    exact congrArg (·.emptyNode ⟨c, .enter⟩) h.index
  · intro c hc
    rw [hold] at hc
    cases hc

theorem store (hi : ControlInv s₀ code k) (hcode : s₀.IsCode code) {v : Instr}
    (hst : k.stage t = .patchStore b v)
    (hrun : k.tracer.storeText (k.tracer.enterAddr b) v = .ok s) :
    Stepped s₀ code k (k.act t (.patchClose b) s) := by
  obtain ⟨hdone, hv⟩ := hi.stageOk hst
  have hcb := hi.code_enter hcode (hdone.linked .enter)
  unfold storeText at hrun
  split at hrun
  · cases hrun
    exact hi.act hst (hi.frame_text hcb) (hi.text hcb hdone hv) rfl (hi.alloc_act rfl nofun)
      ((hi.frame_text hcb).done hdone) nofun (fun _ hc => hc) (fun _ => rfl) nofun
  · cases hrun

omit [DecidableEq κ] in
/-- Nobody is adding a breakpoint whose lock is free. -/
theorem done_of_free (hi : ControlInv s₀ code k) (hf : k.Free b)
    (hb : k.tracer.index.emptyNode ⟨b, .enter⟩ = false) : Done s₀ k.tracer b := by
  obtain ⟨_, hdone | ⟨t, ht⟩⟩ := hi.linked b hb
  · exact hdone
  · exact (hf t (Stage.holds_of_adding ht)).elim

end Finish

end ControlInv

theorem controlInv_step (hcode : s₀.IsCode code) (h : ControlStep rb code k t k')
    (hi : ControlInv s₀ code k) : Stepped s₀ code k k' := by
  cases h with
  | addCall hst hchain => exact hi.move hst (hi.alloc_act rfl nofun) trivial nofun nofun
  | addLock hst hf =>
    refine hi.move hst (hi.alloc_act rfl nofun) trivial ?_ nofun
    rintro c ⟨⟩
    exact Or.inr hf
  | addRefused hst hno => exact hi.move hst (hi.alloc_act rfl nofun) trivial nofun nofun
  | addLookup hst ho hno =>
    rename_i b o
    have hfound : (s₀.objectGetByAddress (s₀.enterAddr b)).isSome := by
      rw [← hi.objects, ← hi.enterAddr, ho]
      rfl
    exact hi.move hst (hi.alloc_act rfl nofun) hfound (fun _ hc => Or.inl hc) nofun
  | addPresent hst hc hrun =>
    rcases BpIndex.searchInsert_cases hi.wellFormed hrun with ⟨_, rfl, _⟩ | ⟨h0, _⟩
    · exact hi.move hst (hi.alloc_act rfl nofun) trivial nofun nofun
    · exact (hc h0).elim
  | addInsert hst hrun =>
    rcases BpIndex.searchInsert_cases hi.wellFormed hrun with ⟨h1, _⟩ | ⟨_, hempty, hins⟩
    · cases h1
    · rw [hi.noSlot]
      exact hi.insert_enter hcode hst hempty hins
  | walk hst he h => exact hi.walk hst he h
  | grow hst hlock hnew => exact hi.grow hst hnew
  | claim hst hv => exact hi.claim hst hv
  | addLoad hst =>
    obtain ⟨hadding, _⟩ := hi.stageOk hst
    exact hi.move hst (hi.alloc_act rfl nofun) ⟨hadding, hi.original hcode hadding⟩
      (fun _ hc => Or.inl hc) fun _ hc => hc
  | addCopy hst ha => exact hi.copy hst ha
  | addBrk hst ha => exact hi.brk hst ha
  | addReturnPresent hst hc hrun =>
    obtain ⟨hadding, a, ha, _, _, hret⟩ := hi.stageOk hst
    rcases BpIndex.searchInsert_cases hi.wellFormed hrun with ⟨_, _, e, hf⟩ | ⟨h0, _⟩
    · exact (hi.return_absent hcode hadding ha hret e hf).elim
    · exact (hc h0).elim
  | addReturn hst hrun =>
    rcases BpIndex.searchInsert_cases hi.wellFormed hrun with ⟨h1, _⟩ | ⟨_, _, hins⟩
    · cases h1
    · exact hi.insert_return hst hins
  | addFree hst hp hfree => exact (hi.stageOk hst).elim
  | addChain hst => exact hi.same hst (same_linkChain ..) trivial nofun nofun rfl
  | patchCall hst hlinked => exact hi.move hst (hi.alloc_act rfl nofun) hlinked nofun nofun
  | patchLock hst hf =>
    refine hi.move hst (hi.alloc_act rfl nofun) (hi.done_of_free hf (hi.stageOk hst)) ?_ nofun
    rintro c ⟨⟩
    exact Or.inr hf
  | patchDone hst hon => exact hi.move hst (hi.alloc_act rfl nofun) trivial nofun nofun
  | patchTest hst hon =>
    rename_i b on
    have hsame : Same k.tracer (k.tracer.modifyBkpt b fun bp =>
        if on then bp.setAttr .ENABLE else bp.clrAttr .ENABLE) := by
      apply same_modifyBkpt <;> cases on
      · rfl
      · rfl
      · rfl
      · rfl
      · simp [Breakpoint.hasAttr_clrAttr]
      · simp [Breakpoint.hasAttr_setAttr]
    exact hi.same hst hsame (hsame.frame.done (hi.stageOk hst)) nofun (fun _ hc => hc) rfl
  | patchOpen hst hrun =>
    rename_i b on _ s _
    have hsame := same_mprotectText hrun
    have hdone : Done s₀ s b := hsame.frame.done (hi.stageOk hst)
    cases on with
    | true => exact hi.same hst hsame ⟨hdone, Or.inl rfl⟩ nofun (fun _ hc => hc) rfl
    | false => exact hi.same hst hsame hdone nofun (fun _ hc => hc) rfl
  | patchLoad hst ha =>
    obtain ⟨p, i, hp⟩ := hi.stageOk hst
    obtain rfl := Except.ok.inj (ha.symm.trans hp.slotAddr)
    exact hi.move hst (hi.alloc_act rfl nofun) ⟨⟨p, i, hp⟩, Or.inr hp.saved⟩
      (fun _ hc => Or.inl hc) nofun
  | patchStore hst hrun => exact hi.store hcode hst hrun
  | patchClose hst hrun => exact hi.same hst (same_mprotectText hrun) trivial nofun nofun rfl

/-- No breakpoint has been added and no call has begun. -/
structure ControlInitial (k : Control κ) : Prop where
  tracer : k.tracer.PatchInitial
  slotSet : ∀ b, (k.tracer.bkpt b).slotSet = none
  live : k.live = []
  stage : ∀ t, k.stage t = .idle

omit [DecidableEq κ] in
theorem controlInv_initial (h : ControlInitial k) (hcode : k.tracer.IsCode code) :
    ControlInv k.tracer code k := by
  have hempty : ∀ e, k.tracer.index.emptyNode e = true := by
    rintro ⟨b, kind⟩
    cases kind with
    | enter => exact (h.tracer.notAdded b).enter
    | ret => exact (h.tracer.notAdded b).ret
  refine ⟨⟨⟨?_, ?_⟩, hcode.aligned, h.tracer.wellFormed, ?_, fun _ => rfl, fun _ => rfl,
    h.tracer.noSlot, ?_, fun _ _ => Or.inl rfl⟩, allocInv_initial ⟨h.tracer.slots, h.live, ?_⟩,
    ?_, ?_, ?_⟩
  · intro b p hb
    rw [h.slotSet] at hb
    cases hb
  · intro b c p hb
    rw [h.slotSet] at hb
    cases hb
  · constructor <;> simp [h.tracer.slots]
  · intro b hb
    rw [hempty] at hb
    cases hb
  · intro t
    exact congrArg Stage.allocPc (h.stage t)
  · intro t u b ht
    rw [h.stage] at ht
    cases ht
  · intro t
    rw [h.stage]
    trivial
  · intro b hb
    rw [hempty] at hb
    cases hb

end Atrace.Signal

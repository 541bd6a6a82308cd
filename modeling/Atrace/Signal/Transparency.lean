import Atrace.Signal.Sections

/-! Out-of-line stepping is transparent: the process runs its program. -/
namespace Atrace.Signal

open Atrace.Lib Tracer

namespace ThreadMap

variable {m m' : ThreadMap} {p : ThreadPtr} {u v : Nat} {bp : Option BkptPtr} {c : Int}

/-- What a section of another thread leaves alone for the thread `u`. -/
structure Leaves (m m' : ThreadMap) (u : Nat) : Prop where
  find : m'.threadMapFind u = m.threadMapFind u
  singlestep : m'.singlestep u = m.singlestep u
  object : ∀ q ∈ m.allocated, (∀ i, q ∉ m.bucket i) → m.thread q = ⟨u, none⟩ →
    q ∈ m'.allocated ∧ (∀ i, q ∉ m'.bucket i) ∧ m'.thread q = ⟨u, none⟩

theorem leaves_refl (m : ThreadMap) (u : Nat) : m.Leaves m u :=
  ⟨rfl, rfl, fun _ hq hb ht => ⟨hq, hb, ht⟩⟩

theorem leaves_threadNew (hl : m.Linked) (hp : p ∉ m.allocated) :
    m.Leaves (m.threadNew p v) u := by
  refine ⟨threadNew_find hl hp, threadNew_singlestep hl hp, ?_⟩
  intro q hq hb ht
  have hqp : q ≠ p := fun he => hp (he ▸ hq)
  exact ⟨List.mem_cons_of_mem _ hq, hb, (Function.update_of_ne hqp ..).trans ht⟩

theorem leaves_link (hp : (m.thread p).tid ≠ u) : m.Leaves (m.link p) u := by
  have hfind : (m.link p).threadMapFind u = m.threadMapFind u :=
    (link_find u).trans (if_neg fun he => hp he.symm)
  refine ⟨hfind, congrArg (Option.bind · fun q => (m.thread q).singlestepBp) hfind, ?_⟩
  intro q hq hb ht
  refine ⟨hq, ?_, ht⟩
  intro i hi
  rcases mem_link hi with rfl | hi
  · exact hp (congrArg Thread.tid ht)
  · exact hb i hi

theorem leaves_setSinglestep (hp : m.threadMapFind v = some p) (hv : u ≠ v) :
    m.Leaves (m.setSinglestep p bp) u := by
  refine ⟨setSinglestep_find, (setSinglestep_singlestep hp).trans (if_neg hv), ?_⟩
  intro q hq hb ht
  have hqp : q ≠ p := fun he => hb _ (he ▸ mem_bucket_of_find hp)
  exact ⟨hq, hb, (Function.update_of_ne hqp ..).trans ht⟩

end ThreadMap

variable {ι κ σ : Type*} [DecidableEq ι] [DecidableEq κ] {rb : RbLib BpEntry} {isa : Isa ι σ}
  {tid : ι → Nat} {code : Addr → Prop} {s s' : System ι κ σ} {s₀ : Tracer} {t u : ι}
  {a : Addr} {b : BkptPtr} {x : Option BkptPtr}

section OrigAddr

variable {r : Tracer} {p : SlotSetPtr} {i : Nat}

/-- A return entry in the index is at the second word of its slot. -/
theorem returned_at (hi : TextInv s₀ code r) (h : r.index.breakpointRbFind a = some ⟨b, .ret⟩) :
    ∃ p i, Placed s₀ r b p i ∧ a = (r.slots.slotSet p).slotOffset i + 4 := by
  obtain ⟨hmem, rfl⟩ := (BpIndex.find_eq_some_iff hi.wellFormed).mp h
  obtain ⟨p, i, hp⟩ := hi.returned b ((hi.wellFormed.linked _).mpr hmem)
  exact ⟨p, i, hp, hp.returnAddr⟩

theorem find_return (hi : TextInv s₀ code r) (h : Placed s₀ r b p i) :
    r.index.breakpointRbFind ((r.slots.slotSet p).slotOffset i + 4) = some ⟨b, .ret⟩ :=
  (BpIndex.find_eq_some_iff hi.wellFormed).mpr
    ⟨(hi.wellFormed.linked _).mp (h.linked .ret), h.returnAddr⟩

theorem isWord_placed (h : Placed s₀ r b p i) :
    (r.slots.slotSet p).IsWord (r.bkpt b).slotIndex a ↔ (r.slots.slotSet p).IsWord i a := by
  rw [h.slotIndex]

theorem not_code_of_placed (hi : TextInv s₀ code r) (h : Placed s₀ r b p i)
    (hw : (r.slots.slotSet p).IsWord i a) : ¬ code a :=
  hi.not_code h.slotSet ((isWord_placed h).mpr hw)

/-- The code is its own original. -/
theorem origAddr_code (hi : TextInv s₀ code r) (ha : code a) : r.origAddr a = a := by
  have hret : ∀ b, r.index.breakpointRbFind a ≠ some ⟨b, .ret⟩ := by
    intro b hf
    obtain ⟨p, i, hp, rfl⟩ := returned_at hi hf
    exact not_code_of_placed hi hp (Or.inr rfl) ha
  have hslot : ∀ b, r.index.breakpointRbFind (a + 4) ≠ some ⟨b, .ret⟩ := by
    intro b hf
    obtain ⟨p, i, hp, he⟩ := returned_at hi hf
    obtain rfl := (BitVec.add_left_inj 4#64).mp he
    exact not_code_of_placed hi hp (Or.inl rfl) ha
  unfold origAddr
  split
  · exact (hret _ (by assumption)).elim
  · split
    · exact (hslot _ (by assumption)).elim
    · rfl

theorem origAddr_return (hi : TextInv s₀ code r) (h : Placed s₀ r b p i) :
    r.origAddr ((r.slots.slotSet p).slotOffset i + 4) = s₀.enterAddr b + 4 := by
  simp only [origAddr, find_return hi h, hi.enterAddr]

theorem origAddr_slot (hi : TextInv s₀ code r) (h : Placed s₀ r b p i) :
    r.origAddr ((r.slots.slotSet p).slotOffset i) = s₀.enterAddr b := by
  have hret : ∀ c, r.index.breakpointRbFind ((r.slots.slotSet p).slotOffset i) ≠
      some ⟨c, .ret⟩ := by
    intro c hf
    obtain ⟨q, j, hq, he⟩ := returned_at hi hf
    by_cases hbc : b = c
    · subst c
      obtain ⟨rfl, rfl⟩ := held_unique h.toHeld hq.toHeld
      have hap := (hi.layout.wordsApart_self h.listed h.lt).apart
      rw [← he] at hap
      omega
    · have hap := (hi.wordsApart_slots hbc h.slotSet hq.slotSet
        ((isWord_placed h).mpr (Or.inl rfl)) ((isWord_placed hq).mpr (Or.inr he))).apart
      omega
  unfold origAddr
  split
  · exact (hret _ (by assumption)).elim
  · simp only [find_return hi h, hi.enterAddr]

end OrigAddr

/-- The object of a thread in the handler. -/
def TrapOk (tid : ι → Nat) (m : ThreadMap) (t : ι) : TrapPc → Prop
  | .running | .lookup => True
  | .adding p => p ∈ m.allocated ∧ (∀ i, p ∉ m.bucket i) ∧ m.thread p = ⟨tid t, none⟩ ∧
      m.threadMapFind (tid t) = none
  | .finding p | .dispatching p _ => m.threadMapFind (tid t) = some p

/-- Where a thread is, and the address in the original text that stands for it: in the code, in the
first word of a slot, or in the second. -/
inductive ThreadAt (s₀ : Tracer) (code : Addr → Prop) (tid : ι → Nat) (s : System ι κ σ) (t : ι) :
    Addr → Prop where
  | text (ha : code (s.pc t)) (hss : s.threads.singlestep (tid t) = none)
      (htrap : s.trap t ≠ .running → (∃ b, Done s₀ s.tracer b ∧ s₀.enterAddr b = s.pc t) ∨
        loadInstr s₀.mem (s.pc t) = brkInstr)
      (hd : ∀ p b, s.trap t = .dispatching p b →
        Done s₀ s.tracer b ∧ s₀.enterAddr b = s.pc t) :
      ThreadAt s₀ code tid s t (s.pc t)
  | slot {b : BkptPtr} {p : SlotSetPtr} {i : Nat} (hp : Placed s₀ s.tracer b p i)
      (ha : s.pc t = (s.tracer.slots.slotSet p).slotOffset i)
      (hss : s.threads.singlestep (tid t) = some b) (hx : s.trap t = .running) :
      ThreadAt s₀ code tid s t (s₀.enterAddr b)
  | back {b : BkptPtr} {p : SlotSetPtr} {i : Nat} (hp : Placed s₀ s.tracer b p i)
      (ha : s.pc t = (s.tracer.slots.slotSet p).slotOffset i + 4)
      (hss : s.threads.singlestep (tid t) = some b)
      (hd : ∀ q c, s.trap t = .dispatching q c → c = b) :
      ThreadAt s₀ code tid s t (s₀.enterAddr b + 4)

/-- The invariant of the process. -/
structure SystemInv (s₀ : Tracer) (code : Addr → Prop) (tid : ι → Nat) (s : System ι κ σ) :
    Prop where
  control : ControlInv s₀ code s.control
  linked : s.threads.Linked
  trap : ∀ t, TrapOk tid s.threads t (s.trap t)
  at_ : ∀ t, ∃ a, ThreadAt s₀ code tid s t a

omit [DecidableEq ι] [DecidableEq κ] in
/-- A step that is not the thread's own leaves it where it is. -/
theorem ThreadAt.frame (hf : Frame x s.tracer s'.tracer) (hpc : s'.pc t = s.pc t)
    (hx : s'.trap t = s.trap t)
    (hss : s'.threads.singlestep (tid t) = s.threads.singlestep (tid t))
    (h : ThreadAt s₀ code tid s t a) : ThreadAt s₀ code tid s' t a := by
  cases h with
  | text ha hs htrap hd =>
    rw [← hpc]
    refine .text (hpc.symm ▸ ha) (hss.trans hs) ?_ ?_
    · intro hne
      rw [hx] at hne
      rcases htrap hne with ⟨b, hb, he⟩ | hbrk
      · exact Or.inl ⟨b, hf.done hb, he.trans hpc.symm⟩
      · exact Or.inr (hpc.symm ▸ hbrk)
    · intro p b hpb
      rw [hx] at hpb
      exact ⟨hf.done (hd p b hpb).1, (hd p b hpb).2.trans hpc.symm⟩
  | slot hp ha hs hr =>
    refine .slot (hf.placed hp) ?_ (hss.trans hs) (hx.trans hr)
    rw [hpc, ha, hf.offset hp]
  | back hp ha hs hd =>
    refine .back (hf.placed hp) ?_ (hss.trans hs) (hx.symm ▸ hd)
    rw [hpc, ha, hf.offset hp]

omit [DecidableEq ι] in
theorem TrapOk.leaves {m m' : ThreadMap} {x : TrapPc} (h : m.Leaves m' (tid t))
    (hx : TrapOk tid m t x) : TrapOk tid m' t x := by
  cases x with
  | running => trivial
  | lookup => trivial
  | adding p =>
    obtain ⟨hp, hb, ht, hf⟩ := hx
    obtain ⟨hp', hb', ht'⟩ := h.object p hp hb ht
    exact ⟨hp', hb', ht', h.find.trans hf⟩
  | finding p => exact h.find.trans hx
  | dispatching p b => exact h.find.trans hx

namespace SystemInv

omit [DecidableEq ι] [DecidableEq κ] in
/-- A breakpoint with its enter entry in the index displaces an instruction that falls through. -/
theorem falls_of_linked (hi : SystemInv s₀ code tid s) (hfalls : Displaceable s₀ isa)
    (hb : s.tracer.index.emptyNode ⟨b, .enter⟩ = false) :
    FallsThrough isa (loadInstr s₀.mem (s₀.enterAddr b)) :=
  hfalls b (hi.control.linked b hb).1

omit [DecidableEq ι] [DecidableEq κ] in
theorem program_pc (hi : SystemInv s₀ code tid s) (h : ThreadAt s₀ code tid s t a) :
    s.program.pc t = a := by
  cases h with
  | text ha hss htrap hd => exact origAddr_code hi.control.toTextInv ha
  | slot hp ha hss hx =>
    exact (congrArg s.tracer.origAddr ha).trans (origAddr_slot hi.control.toTextInv hp)
  | back hp ha hss hd =>
    exact (congrArg s.tracer.origAddr ha).trans (origAddr_return hi.control.toTextInv hp)

variable (s') in
omit [DecidableEq κ] in
/-- One step of the thread `t` of the program: the other threads stay where they are. -/
theorem step (hi : SystemInv s₀ code tid s) (hc : s'.control = s.control)
    (hother : ∀ u, u ≠ t → s'.pc u = s.pc u ∧ s'.trap u = s.trap u)
    (hleaves : ∀ u, u ≠ t → s.threads.Leaves s'.threads (tid u)) (hl : s'.threads.Linked)
    (htrap : TrapOk tid s'.threads t (s'.trap t)) (hat : ThreadAt s₀ code tid s' t a) :
    SystemInv s₀ code tid s' ∧
      ∀ u, u ≠ t → ∀ a, ThreadAt s₀ code tid s u a → ThreadAt s₀ code tid s' u a := by
  have hframe : Frame none s.tracer s'.tracer := by
    rw [System.tracer, System.tracer, hc]
    exact frame_refl _
  have hkeep : ∀ u, u ≠ t → ∀ a, ThreadAt s₀ code tid s u a → ThreadAt s₀ code tid s' u a := by
    intro u hu a h
    exact h.frame hframe (hother u hu).1 (hother u hu).2 (hleaves u hu).singlestep
  refine ⟨⟨hc.symm ▸ hi.control, hl, ?_, ?_⟩, hkeep⟩
  · intro u
    by_cases hu : u = t
    · exact hu ▸ htrap
    · rw [(hother u hu).2]
      exact (hi.trap u).leaves (hleaves u hu)
  · intro u
    by_cases hu : u = t
    · exact ⟨a, hu ▸ hat⟩
    · obtain ⟨a', ha'⟩ := hi.at_ u
      exact ⟨a', hkeep u hu a' ha'⟩

omit [DecidableEq κ] in
/-- The thread `t` has moved in the program, or not at all. -/
theorem program_update (hi : SystemInv s₀ code tid s) (hi' : SystemInv s₀ code tid s')
    (hkeep : ∀ u, u ≠ t → ∀ a, ThreadAt s₀ code tid s u a → ThreadAt s₀ code tid s' u a)
    (hat : ThreadAt s₀ code tid s' t a) :
    s'.program = ⟨Function.update s.program.pc t a, s'.data⟩ := by
  have hpc : s'.program.pc = Function.update s.program.pc t a := by
    funext u
    by_cases hu : u = t
    · rw [hu, Function.update_self, hi'.program_pc hat]
    · obtain ⟨a', ha'⟩ := hi.at_ u
      rw [Function.update_of_ne hu, hi.program_pc ha', hi'.program_pc (hkeep u hu a' ha')]
  exact congrArg (Program.mk · s'.data) hpc

end SystemInv

/-- A step that the program does not see. -/
structure Unseen (s₀ : Tracer) (code : Addr → Prop) (tid : ι → Nat) (s s' : System ι κ σ) :
    Prop where
  inv : SystemInv s₀ code tid s'
  program : s'.program = s.program

namespace SystemInv

omit [DecidableEq κ] in
/-- A step of a thread in its handler. -/
theorem unseen (hi : SystemInv s₀ code tid s) (hc : s'.control = s.control)
    (hdata : s'.data = s.data)
    (hother : ∀ u, u ≠ t → s'.pc u = s.pc u ∧ s'.trap u = s.trap u)
    (hleaves : ∀ u, u ≠ t → s.threads.Leaves s'.threads (tid u)) (hl : s'.threads.Linked)
    (htrap : TrapOk tid s'.threads t (s'.trap t))
    (hat : ∀ a, ThreadAt s₀ code tid s t a → ThreadAt s₀ code tid s' t a) :
    Unseen s₀ code tid s s' := by
  obtain ⟨a, ha⟩ := hi.at_ t
  obtain ⟨hi', hkeep⟩ := hi.step s' hc hother hleaves hl htrap (hat a ha)
  refine ⟨hi', ?_⟩
  rw [hi.program_update hi' hkeep (hat a ha), hdata, ← hi.program_pc ha, Function.update_eq_self]
  rfl

omit [DecidableEq ι] in
theorem call (hi : SystemInv s₀ code tid s) (hcode : s₀.IsCode code) {u : κ} {k : Control κ}
    (h : ControlStep rb code s.control u k) : Unseen s₀ code tid s { s with control := k } := by
  obtain ⟨hk, x, hf⟩ := controlInv_step hcode h hi.control
  have hkeep : ∀ t a, ThreadAt s₀ code tid s t a →
      ThreadAt s₀ code tid { s with control := k } t a :=
    fun t a ha => ha.frame hf rfl rfl rfl
  have hi' : SystemInv s₀ code tid { s with control := k } := by
    refine ⟨hk, hi.linked, hi.trap, ?_⟩
    intro t
    obtain ⟨a, ha⟩ := hi.at_ t
    exact ⟨a, hkeep t a ha⟩
  refine ⟨hi', ?_⟩
  have hpc : ({ s with control := k } : System ι κ σ).program.pc = s.program.pc := by
    funext t
    obtain ⟨a, ha⟩ := hi.at_ t
    rw [hi.program_pc ha, hi'.program_pc (hkeep t a ha)]
  exact congrArg (Program.mk · s.data) hpc

section Handler

variable {p : ThreadPtr} {m : ThreadMap}

omit [DecidableEq ι] [DecidableEq κ] in
/-- A trap at an address of the code that finds a breakpoint is the breakpoint's enter trap. -/
theorem find_text (hi : SystemInv s₀ code tid s) (hfalls : Displaceable s₀ isa) (ha : code a)
    (hbrk : (∃ b, Done s₀ s.tracer b ∧ s₀.enterAddr b = a) ∨ loadInstr s₀.mem a = brkInstr)
    (hf : s.tracer.breakpointFind a = some b) : Done s₀ s.tracer b ∧ s₀.enterAddr b = a := by
  have hs := hi.control.toTextInv
  obtain ⟨⟨c, kind⟩, he, rfl⟩ := Option.map_eq_some_iff.mp hf
  cases kind with
  | ret =>
    obtain ⟨p, i, hp, rfl⟩ := returned_at hs he
    exact (not_code_of_placed hs hp (Or.inr rfl) ha).elim
  | enter =>
    obtain ⟨hmem, haddr⟩ := (BpIndex.find_eq_some_iff hs.wellFormed).mp he
    have hlinked := (hs.wellFormed.linked _).mpr hmem
    have haddr : s₀.enterAddr c = a := (hs.enterAddr c).symm.trans haddr
    refine ⟨?_, haddr⟩
    rcases hbrk with ⟨b, hb, hba⟩ | hbrk
    · have hbc : b = c := hi.control.enter_unique (hb.linked .enter) hlinked
        ((hs.enterAddr b).trans (hba.trans (haddr.symm.trans (hs.enterAddr c).symm)))
      exact hbc ▸ hb
    · exact ((hi.falls_of_linked hfalls hlinked).ne (haddr.symm ▸ hbrk)).elim

omit [DecidableEq ι] [DecidableEq κ] in
/-- A trap at the second word of a slot is the return trap of its breakpoint. -/
theorem find_back (hi : SystemInv s₀ code tid s) {q : SlotSetPtr} {i : Nat} {c : BkptPtr}
    (hp : Placed s₀ s.tracer b q i)
    (hf : s.tracer.breakpointFind ((s.tracer.slots.slotSet q).slotOffset i + 4) = some c) :
    c = b := by
  obtain ⟨e, he, rfl⟩ := Option.map_eq_some_iff.mp hf
  rw [← Option.some.inj ((find_return hi.control.toTextInv hp).symm.trans he)]

omit [DecidableEq ι] [DecidableEq κ] in
/-- The word under a thread that traps. -/
theorem threadAt_brk (hi : SystemInv s₀ code tid s) (hfalls : Displaceable s₀ isa)
    (hx' : s'.trap t = .lookup) (hc : s'.control = s.control)
    (hpc : s'.pc t = s.pc t) (hm : s'.threads = s.threads)
    (hw : loadInstr s.tracer.mem (s.pc t) = brkInstr) (h : ThreadAt s₀ code tid s t a) :
    ThreadAt s₀ code tid s' t a := by
  have hr : s'.tracer = s.tracer := congrArg Control.tracer hc
  cases h with
  | text ha hss htrap hd =>
    rw [← hpc]
    refine .text (hpc.symm ▸ ha) (hm.symm ▸ hss) ?_ ?_
    · intro _
      rw [hr, hpc]
      rcases hi.control.words _ ha with horig | ⟨_, hdone⟩
      · exact Or.inr (horig.symm.trans hw)
      · exact Or.inl hdone
    · intro p b hb
      rw [hx'] at hb
      cases hb
  | slot hp ha hss hx =>
    have hsaved := hp.saved
    rw [← ha, hw] at hsaved
    exact ((hi.falls_of_linked hfalls (hp.linked .enter)).ne hsaved.symm).elim
  | back hp ha hss hd =>
    refine .back (hr.symm ▸ hp) (hr.symm ▸ hpc.trans ha) (hm.symm ▸ hss) ?_
    intro q c hq
    rw [hx'] at hq
    cases hq

omit [DecidableEq ι] [DecidableEq κ] in
/-- A thread that goes on in the handler has found its breakpoint before it dispatches. -/
theorem threadAt_handler (hi : SystemInv s₀ code tid s) (hfalls : Displaceable s₀ isa)
    (hx : s.trap t ≠ .running) (hc : s'.control = s.control) (hpc : s'.pc t = s.pc t)
    (hss : s'.threads.singlestep (tid t) = s.threads.singlestep (tid t))
    (hd : ∀ p b, s'.trap t = .dispatching p b → s.tracer.breakpointFind (s.pc t) = some b)
    (h : ThreadAt s₀ code tid s t a) : ThreadAt s₀ code tid s' t a := by
  have hr : s'.tracer = s.tracer := congrArg Control.tracer hc
  cases h with
  | text ha hs htrap _ =>
    have hbrk := htrap hx
    rw [← hpc]
    refine .text (hpc.symm ▸ ha) (hss.trans hs) (fun _ => hr.symm ▸ hpc.symm ▸ hbrk) ?_
    intro p b hb
    rw [hr, hpc]
    exact hi.find_text hfalls ha hbrk (hd p b hb)
  | slot hp ha hs hrun => exact (hx hrun).elim
  | back hp ha hs _ =>
    refine .back (hr.symm ▸ hp) (hr.symm ▸ hpc.trans ha) (hss.trans hs) ?_
    intro q c hq
    exact hi.find_back hp (ha ▸ hd q c hq)

omit [DecidableEq ι] [DecidableEq κ] in
/-- The dispatch sends the thread from the breakpoint into its slot, or from the slot to the
instruction after the breakpoint. -/
theorem threadAt_dispatch (hi : SystemInv s₀ code tid s) (hcode : code (s.program.pc t))
    {q : ThreadPtr} {ss : Option BkptPtr} {a' : Addr} (hx : s.trap t = .dispatching q b)
    (hd : s.tracer.dispatch b (s.threads.singlestep (tid t)) = .ok (ss, a'))
    (hc : s'.control = s.control) (hpc : s'.pc t = a') (hx' : s'.trap t = .running)
    (hss : s'.threads.singlestep (tid t) = ss) (h : ThreadAt s₀ code tid s t a) :
    ThreadAt s₀ code tid s' t a := by
  have hr : s'.tracer = s.tracer := congrArg Control.tracer hc
  have ha := hi.program_pc h
  rw [ha] at hcode
  cases h with
  | text _ hs _ hdisp =>
    obtain ⟨⟨p, i, hp⟩, he⟩ := hdisp q b hx
    rw [hs, dispatch_enter hp.toHeld] at hd
    cases hd
    rw [← he]
    exact .slot (hr.symm ▸ hp) (hr.symm ▸ hpc) hss hx'
  | slot _ _ _ hrun => cases hrun.symm.trans hx
  | @back c p i hp _ hs hdisp =>
    obtain rfl := hdisp q b hx
    have he : s.tracer.enterAddr b = s₀.enterAddr b := hi.control.enterAddr b
    rw [hs, dispatch_return, he] at hd
    cases hd
    rw [← hpc] at hcode ⊢
    refine .text hcode hss (fun hne => (hne hx').elim) ?_
    intro p c hp
    rw [hx'] at hp
    cases hp

/-- A step of the handler, or the trap before it. -/
theorem handler (hi : SystemInv s₀ code tid s) (hfalls : Displaceable s₀ isa)
    (htid : Function.Injective tid) (hcode : ∀ t, code (s.program.pc t))
    {e : SystemEvent ι κ} (hcall : ∀ u, e ≠ .call u) (hexec : ∀ t, e ≠ .exec t)
    (h : SystemStep rb isa tid code s e s') : Unseen s₀ code tid s s' := by
  have htoTrap : ∀ (t : ι) (x : TrapPc) (m : ThreadMap) (u : ι), u ≠ t →
      (s.toTrap t x m).pc u = s.pc u ∧ (s.toTrap t x m).trap u = s.trap u :=
    fun t x m u hu => ⟨rfl, (s.toTrap_trap t u x m).trans (if_neg hu)⟩
  have hself : ∀ (t : ι) (x : TrapPc) (m : ThreadMap), (s.toTrap t x m).trap t = x :=
    fun t x m => (s.toTrap_trap t t x m).trans (if_pos rfl)
  have htids : ∀ t u, u ≠ t → tid u ≠ tid t := fun t u hu heq => hu (htid heq)
  cases h with
  | call h => exact (hcall _ rfl).elim
  | exec hx hw hrun => exact (hexec _ rfl).elim
  | trap hx hw =>
    exact hi.unseen rfl rfl (htoTrap _ _ _) (fun u _ => ThreadMap.leaves_refl _ _) hi.linked
      (by rw [hself]; trivial)
      fun a ha => hi.threadAt_brk hfalls (hself _ _ _) rfl rfl rfl hw ha
  | found hx hf =>
    refine hi.unseen rfl rfl (htoTrap _ _ _) (fun u _ => ThreadMap.leaves_refl _ _) hi.linked
      (by rw [hself]; exact hf) fun a ha => hi.threadAt_handler hfalls ?_ rfl rfl rfl ?_ ha
    · exact fun hr => by cases hx.symm.trans hr
    · intro p b hp
      cases (hself _ _ _).symm.trans hp
  | new hx hf hn =>
    rename_i t p
    have hthread : (s.threads.threadNew p (tid t)).thread p = ⟨tid t, none⟩ :=
      Function.update_self ..
    refine hi.unseen rfl rfl (htoTrap _ _ _) (fun u _ => ThreadMap.leaves_threadNew hi.linked hn)
      (ThreadMap.threadNew_linked hi.linked) ?_ fun a ha =>
        hi.threadAt_handler hfalls ?_ rfl rfl (ThreadMap.threadNew_singlestep hi.linked hn) ?_ ha
    · rw [hself]
      exact ⟨List.mem_cons_self, fun i hp => hn (hi.linked i p hp), hthread,
        (ThreadMap.threadNew_find hi.linked hn).trans hf⟩
    · exact fun hr => by cases hx.symm.trans hr
    · intro p b hp
      cases (hself _ _ _).symm.trans hp
  | add hx hrun =>
    rename_i t p m c
    have htrap := hi.trap t
    rw [hx] at htrap
    obtain ⟨hp, hb, ht, hf⟩ := htrap
    have htid' : (s.threads.thread p).tid = tid t := congrArg Thread.tid ht
    have hf' : s.threads.threadMapFind (s.threads.thread p).tid = none := htid' ▸ hf
    cases (ThreadMap.threadMapAdd_absent hb hf').symm.trans hrun
    refine hi.unseen rfl rfl (htoTrap _ _ _) ?_ (ThreadMap.link_linked hi.linked hp) ?_ fun a ha =>
      hi.threadAt_handler hfalls ?_ rfl rfl ?_ ?_ ha
    · exact fun u hu => ThreadMap.leaves_link (htid' ▸ (htids t u hu).symm)
    · rw [hself]
      exact (ThreadMap.link_find _).trans (if_pos htid'.symm)
    · exact fun hr => by cases hx.symm.trans hr
    · exact ThreadMap.link_singlestep hf' (congrArg Thread.singlestepBp ht)
    · intro p b hp
      cases (hself _ _ _).symm.trans hp
  | find hx hf =>
    rename_i t p b
    have htrap := hi.trap t
    rw [hx] at htrap
    refine hi.unseen rfl rfl (htoTrap _ _ _) (fun u _ => ThreadMap.leaves_refl _ _) hi.linked
      (by rw [hself]; exact htrap) fun a ha => hi.threadAt_handler hfalls ?_ rfl rfl rfl ?_ ha
    · exact fun hr => by cases hx.symm.trans hr
    · intro q c hq
      cases (hself _ _ _).symm.trans hq
      exact hf
  | dispatch hx hfree hd =>
    rename_i t p b ss a'
    have htrap := hi.trap t
    rw [hx] at htrap
    have hfind : s.threads.threadMapFind (tid t) = some p := htrap
    rw [← ThreadMap.singlestep_eq hfind] at hd
    refine hi.unseen rfl rfl ?_ ?_ (ThreadMap.setSinglestep_linked hi.linked) ?_ fun a ha =>
      hi.threadAt_dispatch (hcode t) hx hd rfl ?_ ?_ ?_ ha
    · intro u hu
      exact ⟨(s.goto_pc t u a').trans (if_neg hu),
        ((s.goto t a').toTrap_trap t u ..).trans (if_neg hu)⟩
    · exact fun u hu => ThreadMap.leaves_setSinglestep hfind (htids t u hu)
    · rw [(s.goto t a').toTrap_trap, if_pos rfl]
      trivial
    · exact (s.goto_pc t t a').trans (if_pos rfl)
    · exact ((s.goto t a').toTrap_trap t t ..).trans (if_pos rfl)
    · exact (ThreadMap.setSinglestep_singlestep hfind).trans (if_pos rfl)

end Handler

section Exec

variable {data : σ} {a' : Addr}

variable (s') in
omit [DecidableEq ι] [DecidableEq κ] in
/-- What a thread runs is the original instruction, and where it is next is where the original
would be, or the second word of the slot. -/
theorem threadAt_exec (hi : SystemInv s₀ code tid s) (hfalls : Displaceable s₀ isa)
    (hx : s.trap t = .running) (hw : loadInstr s.tracer.mem (s.pc t) ≠ brkInstr)
    (hrun : isa t (loadInstr s.tracer.mem (s.pc t)) (s.pc t) s.data = (data, a'))
    (h : ThreadAt s₀ code tid s t a) (hc : s'.control = s.control) (hpc : s'.pc t = a')
    (hx' : s'.trap t = s.trap t)
    (hss : s'.threads.singlestep (tid t) = s.threads.singlestep (tid t)) :
    ∃ next, loadInstr s₀.mem a ≠ brkInstr ∧
      isa t (loadInstr s₀.mem a) a s.data = (data, next) ∧
      (code next → ThreadAt s₀ code tid s' t next) := by
  have hr : s'.tracer = s.tracer := congrArg Control.tracer hc
  cases h with
  | text ha hs _ _ =>
    have horig : loadInstr s.tracer.mem (s.pc t) = loadInstr s₀.mem (s.pc t) := by
      rcases hi.control.words _ ha with horig | ⟨hbrk, _⟩
      · exact horig
      · exact (hw hbrk).elim
    rw [horig] at hw hrun
    refine ⟨a', hw, hrun, ?_⟩
    intro hcode
    rw [← hpc] at hcode ⊢
    refine .text hcode (hss.trans hs) (fun hne => (hne (hx'.trans hx)).elim) ?_
    intro p b hp
    cases (hx'.trans hx).symm.trans hp
  | @slot b p i hp ha hs _ =>
    have hfall := hi.falls_of_linked hfalls (hp.linked .enter)
    rw [ha, hp.saved] at hrun hw
    have hdata := congrArg Prod.fst hrun
    have hnext := congrArg Prod.snd hrun
    rw [hfall.effect t _ (s₀.enterAddr b)] at hdata
    rw [hfall.next] at hnext
    refine ⟨s₀.enterAddr b + 4, hw, Prod.ext hdata (hfall.next t _ _), ?_⟩
    intro _
    refine .back (hr.symm ▸ hp) (hr.symm ▸ hpc.trans hnext.symm) (hss.trans hs) ?_
    intro q c hq
    cases (hx'.trans hx).symm.trans hq
  | back hp ha _ _ =>
    rw [ha] at hw
    exact (hw hp.brk).elim

omit [DecidableEq κ] in
theorem exec (hi : SystemInv s₀ code tid s) (hfalls : Displaceable s₀ isa)
    (hprog : ∀ m, ProgramStep s₀.mem isa s.program t m → code (m.pc t))
    (hx : s.trap t = .running) (hw : loadInstr s.tracer.mem (s.pc t) ≠ brkInstr)
    (hrun : isa t (loadInstr s.tracer.mem (s.pc t)) (s.pc t) s.data = (data, a')) :
    SystemInv s₀ code tid { s.goto t a' with data := data } ∧
      ProgramStep s₀.mem isa s.program t
        ({ s.goto t a' with data := data } : System ι κ σ).program := by
  obtain ⟨a, ha⟩ := hi.at_ t
  have hpc : s.program.pc t = a := hi.program_pc ha
  have hgoto : (s.goto t a').pc t = a' := (s.goto_pc t t a').trans (if_pos rfl)
  obtain ⟨next, hw', hrun', hat⟩ := hi.threadAt_exec { s.goto t a' with data := data } hfalls hx
    hw hrun ha rfl hgoto rfl rfl
  rw [← hpc] at hw' hrun'
  have hstep : ProgramStep s₀.mem isa s.program t ⟨Function.update s.program.pc t next, data⟩ :=
    .exec hw' hrun'
  have hself : Function.update s.program.pc t next t = next := Function.update_self ..
  have hcode : code next := hself ▸ hprog _ hstep
  obtain ⟨hi', hkeep⟩ := hi.step { s.goto t a' with data := data } rfl
    (fun u hu => ⟨(s.goto_pc t u a').trans (if_neg hu), rfl⟩)
    (fun u _ => ThreadMap.leaves_refl _ _) hi.linked (hi.trap t) (hat hcode)
  refine ⟨hi', ?_⟩
  rw [hi.program_update hi' hkeep (hat hcode)]
  exact hstep

end Exec

omit [DecidableEq ι] [DecidableEq κ] in
/-- A thread fails no assertion of the handler, unless the program has run a breakpoint instruction
of its own. -/
theorem fails (hi : SystemInv s₀ code tid s) (hf : s.Fails t) :
    code (s.pc t) ∧ loadInstr s₀.mem (s.pc t) = brkInstr := by
  obtain ⟨a, ha⟩ := hi.at_ t
  have htrap := hi.trap t
  unfold System.Fails at hf
  split at hf
  · exact hf.elim
  · exact hf.elim
  · rename_i p hx
    rw [hx] at htrap
    obtain ⟨_, hb, ht, hnone⟩ := htrap
    have htid : (s.threads.thread p).tid = tid t := congrArg Thread.tid ht
    cases hf.symm.trans (ThreadMap.threadMapAdd_absent hb (htid.symm ▸ hnone))
  · rename_i p hx
    cases ha with
    | text hc _ hbrk _ =>
      rcases hbrk (fun hr => by cases hx.symm.trans hr) with ⟨b, hb, he⟩ | horig
      · have hfind := (BpIndex.find_eq_some_iff hi.control.wellFormed).mpr
          ⟨(hi.control.wellFormed.linked _).mp (hb.linked .enter),
            (hi.control.enterAddr b).trans he⟩
        cases hf.symm.trans (congrArg (Option.map BpEntry.bkpt) hfind)
      · exact ⟨hc, horig⟩
    | slot _ _ _ hr => cases hx.symm.trans hr
    | back hp hpc _ _ =>
      rw [hpc] at hf
      cases hf.symm.trans (congrArg (Option.map BpEntry.bkpt) (find_return hi.control.toTextInv hp))
  · rename_i p b hx
    rw [hx] at htrap
    obtain ⟨f, hf⟩ := hf
    rw [← ThreadMap.singlestep_eq htrap] at hf
    cases ha with
    | text _ hs _ hd =>
      obtain ⟨⟨q, i, hq⟩, _⟩ := hd p b hx
      cases hf.symm.trans (hs.symm ▸ dispatch_enter hq.toHeld)
    | slot _ _ _ hr => cases hx.symm.trans hr
    | back _ _ hs hd =>
      obtain rfl := hd p b hx
      cases hf.symm.trans (hs.symm ▸ dispatch_return _ _)

section Progress

/-- A handler that returns has sent its thread into the slot or past the breakpoint. -/
theorem dispatched (hi : SystemInv s₀ code tid s)
    (h : SystemStep rb isa tid code s (.handler t) s') (hr : s'.trap t = .running) :
    Dispatched s₀ tid s s' t := by
  have hself : ∀ (x : TrapPc) (m : ThreadMap), (s.toTrap t x m).trap t = x :=
    fun x m => (s.toTrap_trap t t x m).trans (if_pos rfl)
  cases h with
  | found => cases (hself _ _).symm.trans hr
  | new => cases (hself _ _).symm.trans hr
  | add => cases (hself _ _).symm.trans hr
  | find => cases (hself _ _).symm.trans hr
  | @dispatch _ q b ss a' hx hfree hd =>
    have hfind : s.threads.threadMapFind (tid t) = some q := by
      have htrap := hi.trap t
      rwa [hx] at htrap
    have hto : (s.goto t a').pc t = a' := (s.goto_pc t t a').trans (if_pos rfl)
    have hss : (s.threads.setSinglestep q ss).singlestep (tid t) = ss :=
      (ThreadMap.setSinglestep_singlestep hfind).trans (if_pos rfl)
    rw [← ThreadMap.singlestep_eq hfind] at hd
    obtain ⟨a, ha⟩ := hi.at_ t
    cases ha with
    | text _ hs _ hdisp =>
      obtain ⟨⟨p, i, hp⟩, he⟩ := hdisp q b hx
      rw [hs, dispatch_enter hp.toHeld] at hd
      cases hd
      exact .enter hp he.symm hs hto hss
    | slot _ _ _ hrun => cases hrun.symm.trans hx
    | @back c p i hp hpc hs hdisp =>
      obtain rfl := hdisp q b hx
      rw [hs, dispatch_return] at hd
      cases hd
      exact .leave hp hpc hs (hto.trans (congrArg (· + 4) (hi.control.enterAddr b))) hss

variable (rb isa) in
/-- Every thread has a step, unless its handler waits for a lock or the program has run a breakpoint
instruction of its own. -/
theorem goes_on (hi : SystemInv s₀ code tid s) (t : ι) :
    (∃ e s', (e = .exec t ∨ e.handles t = true) ∧ SystemStep rb isa tid code s e s') ∨
      s.Waits t ∨ (code (s.pc t) ∧ loadInstr s₀.mem (s.pc t) = brkInstr) := by
  have htrap := hi.trap t
  have hhandles : SystemEvent.handles (κ := κ) t (.handler t) = true := decide_eq_true rfl
  cases hx : s.trap t with
  | running =>
    by_cases hw : loadInstr s.tracer.mem (s.pc t) = brkInstr
    · exact Or.inl ⟨.trap t, _, Or.inr (decide_eq_true rfl), .trap hx hw⟩
    · exact Or.inl ⟨.exec t, _, Or.inl rfl, .exec hx hw rfl⟩
  | lookup =>
    cases hf : s.threads.threadMapFind (tid t) with
    | some p => exact Or.inl ⟨_, _, Or.inr hhandles, .found hx hf⟩
    | none =>
      obtain ⟨fresh, hn⟩ := s.threads.exists_fresh
      exact Or.inl ⟨_, _, Or.inr hhandles, .new hx hf hn⟩
  | adding p =>
    rw [hx] at htrap
    obtain ⟨_, hb, ht, hnone⟩ := htrap
    have htid : (s.threads.thread p).tid = tid t := congrArg Thread.tid ht
    exact Or.inl ⟨_, _, Or.inr hhandles,
      .add hx (ThreadMap.threadMapAdd_absent hb (htid.symm ▸ hnone))⟩
  | finding p =>
    cases hf : s.tracer.breakpointFind (s.pc t) with
    | some b => exact Or.inl ⟨_, _, Or.inr hhandles, .find hx hf⟩
    | none =>
      have hfails : s.Fails t := by
        rw [System.Fails, hx]
        exact hf
      exact Or.inr (Or.inr (hi.fails hfails))
  | dispatching p b =>
    by_cases hfree : s.control.Free b
    · cases hd : s.tracer.dispatch b (s.threads.thread p).singlestepBp with
      | ok r => exact Or.inl ⟨_, _, Or.inr hhandles, .dispatch hx hfree hd⟩
      | error f =>
        have hfails : s.Fails t := by
          rw [System.Fails, hx]
          exact ⟨f, hd⟩
        exact Or.inr (Or.inr (hi.fails hfails))
    · exact Or.inr (Or.inl ⟨p, b, hx, hfree⟩)

omit [DecidableEq ι] [DecidableEq κ] in
theorem left_le (tid : ι → Nat) (t : ι) (s : System ι κ σ) : s.left tid t ≤ 10 := by
  have hle : (s.trap t).left ≤ 5 := by
    cases s.trap t <;> simp [TrapPc.left]
  unfold System.left
  split
  · exact hle.trans (by decide)
  · split
    · exact Nat.zero_le 10
    · exact Nat.add_le_add_right hle 5

omit [DecidableEq ι] [DecidableEq κ] in
/-- A step that is not the thread's own changes nothing. -/
theorem left_frame (hf : Frame x s.tracer s'.tracer) (hpc : s'.pc t = s.pc t)
    (hx : s'.trap t = s.trap t)
    (hss : s'.threads.singlestep (tid t) = s.threads.singlestep (tid t))
    (h : ThreadAt s₀ code tid s t a) : s'.left tid t = s.left tid t := by
  cases h with
  | text _ hs _ _ => simp only [System.left, hss, hs, hx]
  | slot hp _ hs _ =>
    simp only [System.left, hss, hs, hx, hpc, hf.returnAddr _ (hf.ne (hp.linked .ret))]
  | back hp _ hs _ =>
    simp only [System.left, hss, hs, hx, hpc, hf.returnAddr _ (hf.ne (hp.linked .ret))]

theorem add_four_ne (a : Addr) : a + 4 ≠ a := by
  intro he
  exact absurd (BitVec.add_right_eq_self.mp he) (by decide)

omit [DecidableEq ι] [DecidableEq κ] in
/-- The handler gets on, in a thread that is not about to run a displaced instruction. -/
theorem left_lt (hc : s'.control = s.control) (hpc : s'.pc t = s.pc t)
    (hss : s'.threads.singlestep (tid t) = s.threads.singlestep (tid t))
    (hlt : (s'.trap t).left < (s.trap t).left)
    (hne : s.trap t = .running → loadInstr s.tracer.mem (s.pc t) = brkInstr)
    (hi : SystemInv s₀ code tid s) (hfalls : Displaceable s₀ isa)
    (h : ThreadAt s₀ code tid s t a) : s'.left tid t < s.left tid t := by
  have hr : s'.tracer = s.tracer := congrArg Control.tracer hc
  cases h with
  | text _ hs _ _ =>
    simp only [System.left, hss, hs]
    exact hlt
  | @slot b p i hp hat hs hx =>
    have hsaved := hp.saved
    rw [← hat, hne hx] at hsaved
    exact ((hi.falls_of_linked hfalls (hp.linked .enter)).ne hsaved.symm).elim
  | @back b p i hp hat hs hd =>
    have hword : s.pc t + 4 ≠ s.tracer.returnAddr b := by
      rw [hp.returnAddr, hat]
      exact add_four_ne _
    simp only [System.left, hss, hs, hr, hpc, if_neg hword]
    exact Nat.add_lt_add_right hlt 5

/-- A step that is not the thread's own leaves it where it is. -/
theorem stays (hi : SystemInv s₀ code tid s) (htid : Function.Injective tid)
    {e : SystemEvent ι κ} (h : SystemStep rb isa tid code s e s') (he : ¬ e.handles t = true)
    (hne : e ≠ .exec t) : s'.pc t = s.pc t ∧ s'.trap t = s.trap t ∧
      s'.threads.singlestep (tid t) = s.threads.singlestep (tid t) := by
  have htoTrap : ∀ (u : ι) (x : TrapPc) (m : ThreadMap), t ≠ u →
      (s.toTrap u x m).trap t = s.trap t :=
    fun u x m hu => (s.toTrap_trap u t x m).trans (if_neg hu)
  have hother : ∀ u, ¬ SystemEvent.handles (κ := κ) t (.handler u) = true → t ≠ u :=
    fun u hu he => hu (decide_eq_true he.symm)
  cases h with
  | call h => exact ⟨rfl, rfl, rfl⟩
  | @exec u data a hx hw hrun =>
    have hu : t ≠ u := fun hu => hne (congrArg SystemEvent.exec hu.symm)
    exact ⟨(s.goto_pc u t a).trans (if_neg hu), rfl, rfl⟩
  | trap hx hw => exact ⟨rfl, htoTrap _ _ _ (hother _ he), rfl⟩
  | found hx hf => exact ⟨rfl, htoTrap _ _ _ (hother _ he), rfl⟩
  | new hx hf hn =>
    exact ⟨rfl, htoTrap _ _ _ (hother _ he), ThreadMap.threadNew_singlestep hi.linked hn⟩
  | @add u p m c hx hrun =>
    have htrap := hi.trap u
    rw [hx] at htrap
    obtain ⟨_, hb, ht, hnone⟩ := htrap
    have hnone' : s.threads.threadMapFind (s.threads.thread p).tid = none :=
      (congrArg Thread.tid ht).symm ▸ hnone
    cases (ThreadMap.threadMapAdd_absent hb hnone').symm.trans hrun
    exact ⟨rfl, htoTrap _ _ _ (hother _ he),
      ThreadMap.link_singlestep hnone' (congrArg Thread.singlestepBp ht)⟩
  | find hx hf => exact ⟨rfl, htoTrap _ _ _ (hother _ he), rfl⟩
  | @dispatch u p b ss a hx hfree hd =>
    have hu := hother u he
    have hfind : s.threads.threadMapFind (tid u) = some p := by
      have htrap := hi.trap u
      rwa [hx] at htrap
    refine ⟨(s.goto_pc u t a).trans (if_neg hu), ((s.goto u a).toTrap_trap u t ..).trans
      (if_neg hu), ?_⟩
    exact (ThreadMap.setSinglestep_singlestep hfind).trans (if_neg fun he => hu (htid he))

theorem left_stays (hi : SystemInv s₀ code tid s) (hcode : s₀.IsCode code)
    (htid : Function.Injective tid) {e : SystemEvent ι κ}
    (h : SystemStep rb isa tid code s e s') (he : ¬ e.handles t = true) (hne : e ≠ .exec t) :
    s'.left tid t = s.left tid t := by
  obtain ⟨a, ha⟩ := hi.at_ t
  obtain ⟨hpc, hx, hss⟩ := hi.stays htid h he hne
  have hframe : ∃ x, Frame x s.tracer s'.tracer := by
    cases h with
    | call h => exact (controlInv_step hcode h hi.control).frame
    | _ => exact ⟨none, frame_refl s.tracer⟩
  obtain ⟨x, hf⟩ := hframe
  exact left_frame hf hpc hx hss ha

theorem left_handles (hi : SystemInv s₀ code tid s) (hfalls : Displaceable s₀ isa)
    {e : SystemEvent ι κ} (h : SystemStep rb isa tid code s e s') (he : e.handles t = true) :
    s'.left tid t < s.left tid t := by
  obtain ⟨a, ha⟩ := hi.at_ t
  have hself : ∀ (x : TrapPc) (m : ThreadMap), (s.toTrap t x m).trap t = x :=
    fun x m => (s.toTrap_trap t t x m).trans (if_pos rfl)
  cases e with
  | call u => cases he
  | exec u => cases he
  | trap u =>
    obtain rfl : u = t := of_decide_eq_true he
    cases h with
    | trap hx hw =>
      refine left_lt rfl rfl rfl ?_ (fun _ => hw) hi hfalls ha
      rw [hself, hx]
      decide
  | handler u =>
    obtain rfl : u = t := of_decide_eq_true he
    have htrap := hi.trap u
    have hmoves : ∀ x m, s.trap u ≠ .running → x.left < (s.trap u).left →
        m.singlestep (tid u) = s.threads.singlestep (tid u) →
        (s.toTrap u x m).left tid u < s.left tid u := by
      intro x m hx hlt hss
      exact left_lt rfl rfl hss (by rwa [hself]) (fun hr => (hx hr).elim) hi hfalls ha
    cases h with
    | found hx hf => exact hmoves _ _ (by rw [hx]; nofun) (by rw [hx]; simp [TrapPc.left]) rfl
    | new hx hf hn =>
      exact hmoves _ _ (by rw [hx]; nofun) (by rw [hx]; simp [TrapPc.left])
        (ThreadMap.threadNew_singlestep hi.linked hn)
    | @add _ p m c hx hrun =>
      rw [hx] at htrap
      obtain ⟨_, hb, ht, hnone⟩ := htrap
      have htid : s.threads.threadMapFind (s.threads.thread p).tid = none :=
        (congrArg Thread.tid ht).symm ▸ hnone
      cases (ThreadMap.threadMapAdd_absent hb htid).symm.trans hrun
      exact hmoves _ _ (by rw [hx]; nofun) (by rw [hx]; simp [TrapPc.left])
        (ThreadMap.link_singlestep htid (congrArg Thread.singlestepBp ht))
    | find hx hf => exact hmoves _ _ (by rw [hx]; nofun) (by rw [hx]; simp [TrapPc.left]) rfl
    | @dispatch _ q b ss a' hx hfree hd =>
      have hr := ((s.goto u a').toTrap_trap u u .running (s.threads.setSinglestep q ss)).trans
        (if_pos rfl)
      have hstep : SystemStep rb isa tid code s (.handler u) _ := .dispatch hx hfree hd
      cases hi.dispatched hstep hr with
      | enter hp _ hbefore hto hss =>
        simp only [System.left, hss, hbefore, hx, hto, hp.returnAddr, if_pos]
        simp [TrapPc.left]
      | @leave b p i hp hfrom hbefore hto hss =>
        have hret : s.tracer.returnAddr b = (s.tracer.slots.slotSet p).slotOffset i + 4 :=
          hp.returnAddr
        have hword : s.pc u + 4 ≠ s.tracer.returnAddr b := by
          rw [hret, hfrom]
          exact add_four_ne _
        simp only [System.left, hss, hbefore, hx, hr, if_neg hword]
        simp [TrapPc.left]

end Progress

end SystemInv

section Initial

variable {r : System ι κ σ}

omit [DecidableEq ι] [DecidableEq κ] in
theorem systemInv_initial (h : SystemInitial tid r) (hcode : r.tracer.IsCode code)
    (hpc : ∀ t, code (r.pc t)) : SystemInv r.tracer code tid r := by
  refine ⟨controlInv_initial h.control hcode, h.linked, ?_, ?_⟩
  · intro t
    rw [h.trap]
    trivial
  · intro t
    refine ⟨r.pc t, .text (hpc t) (h.singlestep t) (fun hne => (hne (h.trap t)).elim) ?_⟩
    intro p b hb
    cases (h.trap t).symm.trans hb

omit [DecidableEq ι] [DecidableEq κ] in
theorem program_initial (h : SystemInitial tid r) (hcode : r.tracer.IsCode code)
    (hpc : ∀ t, code (r.pc t)) : r.program = ⟨r.pc, r.data⟩ := by
  have hi := systemInv_initial h hcode hpc
  refine congrArg (Program.mk · r.data) ?_
  funext t
  exact origAddr_code hi.control.toTextInv (hpc t)

end Initial

/-- The invariant of a run: the program alone could be where the process has brought it. -/
structure RunInv (r : System ι κ σ) (code : Addr → Prop) (tid : ι → Nat) (isa : Isa ι σ)
    (s : System ι κ σ) : Prop where
  inv : SystemInv r.tracer code tid s
  reached : ∃ ts, Run (ProgramStep r.tracer.mem isa) ⟨r.pc, r.data⟩ ts s.program

section Erase

variable {r : System ι κ σ}
  (hcode : r.tracer.IsCode code) (hfalls : Displaceable r.tracer isa)
  (htid : Function.Injective tid)
  (hprog : ∀ ts m, Run (ProgramStep r.tracer.mem isa) ⟨r.pc, r.data⟩ ts m → ∀ t, code (m.pc t))
include hcode hfalls htid hprog

/-- An instruction of the process is an instruction of the program, any other step is none. -/
theorem runInv_step {e : SystemEvent ι κ} (h : SystemStep rb isa tid code s e s')
    (hi : RunInv r code tid isa s) : RunInv r code tid isa s' ∧
      ((∃ t, e = .exec t ∧ ProgramStep r.tracer.mem isa s.program t s'.program) ∨
        ((∀ t, e ≠ .exec t) ∧ s'.program = s.program)) := by
  obtain ⟨ts, hts⟩ := hi.reached
  have hunseen : (∀ t, e ≠ .exec t) → Unseen r.tracer code tid s s' →
      RunInv r code tid isa s' ∧
        ((∃ t, e = .exec t ∧ ProgramStep r.tracer.mem isa s.program t s'.program) ∨
          ((∀ t, e ≠ .exec t) ∧ s'.program = s.program)) := by
    intro he hu
    exact ⟨⟨hu.inv, ts, hu.program.symm ▸ hts⟩, Or.inr ⟨he, hu.program⟩⟩
  cases e with
  | exec t =>
    cases h with
    | exec hx hw hrun =>
      obtain ⟨hi', hstep⟩ := hi.inv.exec hfalls
        (fun m hm => hprog _ m (hts.stepR hm) t) hx hw hrun
      exact ⟨⟨hi', _, hts.stepR hstep⟩, Or.inl ⟨t, rfl, hstep⟩⟩
  | call u =>
    cases h with
    | call h => exact hunseen nofun (hi.inv.call hcode h)
  | trap t =>
    refine hunseen nofun (hi.inv.handler hfalls htid (hprog ts _ hts) ?_ ?_ h)
    · exact fun u he => nomatch he
    · exact fun u he => nomatch he
  | handler t =>
    refine hunseen nofun (hi.inv.handler hfalls htid (hprog ts _ hts) ?_ ?_ h)
    · exact fun u he => nomatch he
    · exact fun u he => nomatch he

/-- Between two instructions of its own a thread takes at most ten steps of its traps. -/
theorem handles_le {ls : List (System ι κ σ × SystemEvent ι κ)} (hi : RunInv r code tid isa s)
    (h : Run (Traced (SystemStep rb isa tid code)) s ls s') (hno : ∀ l ∈ ls, l.2 ≠ .exec t) :
    ls.countP (fun l => l.2.handles t) ≤ 10 := by
  have hcount := h.countP_add_le (P := RunInv r code tid isa) (Q := fun l => l.2 ≠ .exec t)
    (fun s => s.left tid t) (fun l => l.2.handles t) ?_ ?_ hno hi
  · have hle := SystemInv.left_le tid t s
    omega
  · rintro s ⟨_, e⟩ s' ⟨rfl, hs⟩ _ hi
    exact (runInv_step hcode hfalls htid hprog hs hi).1
  · rintro s ⟨_, e⟩ s' ⟨rfl, hs⟩ hne hi
    dsimp only at hs hne ⊢
    by_cases he : e.handles t = true
    · rw [if_pos he]
      exact hi.inv.left_handles hfalls hs he
    · rw [if_neg he]
      exact (hi.inv.left_stays hcode htid hs he hne).le

/-- The run with its traps, slots and patching erased is a run of the program alone, with the same
instructions of the same threads in the same order and the same state before each of them. A handler
that returns leaves its thread at the displaced instruction or behind the breakpoint, every thread
has a step unless it waits for a lock, and it takes at most ten steps of its traps before its next
instruction; no assertion of the handler fails, unless the program runs a breakpoint instruction of
its own. -/
theorem stepping_transparent {ls : List (System ι κ σ × SystemEvent ι κ)}
    (h₀ : SystemInitial tid r) (h : Run (Traced (SystemStep rb isa tid code)) r ls s) :
    Run (Traced (ProgramStep r.tracer.mem isa)) ⟨r.pc, r.data⟩ (ls.filterMap erase) s.program ∧
    (∀ t s', SystemStep rb isa tid code s (.handler t) s' → s'.trap t = .running →
      Dispatched r.tracer tid s s' t) ∧
    (∀ t, (∃ e s', (e = .exec t ∨ e.handles t = true) ∧ SystemStep rb isa tid code s e s') ∨
      s.Waits t ∨ (code (s.pc t) ∧ loadInstr r.tracer.mem (s.pc t) = brkInstr)) ∧
    (∀ t ls' s', Run (Traced (SystemStep rb isa tid code)) s ls' s' → (∀ l ∈ ls', l.2 ≠ .exec t) →
      ls'.countP (fun l => l.2.handles t) ≤ 10) ∧
    ∀ t, s.Fails t → code (s.pc t) ∧ loadInstr r.tracer.mem (s.pc t) = brkInstr := by
  have hpc : ∀ t, code (r.pc t) := hprog [] _ .refl
  have hstart : RunInv r code tid isa r :=
    ⟨systemInv_initial h₀ hcode hpc, [], (program_initial h₀ hcode hpc).symm ▸ .refl⟩
  have hstep : ∀ s l s', Traced (SystemStep rb isa tid code) s l s' → RunInv r code tid isa s →
      RunInv r code tid isa s' := by
    rintro s ⟨_, e⟩ s' ⟨rfl, hs⟩ hi
    exact (runInv_step hcode hfalls htid hprog hs hi).1
  have hi : RunInv r code tid isa s := h.inv hstep hstart
  refine ⟨?_, fun t s' => hi.inv.dispatched, hi.inv.goes_on rb isa, ?_, fun t => hi.inv.fails⟩
  · rw [← program_initial h₀ hcode hpc]
    refine h.simulate System.program erase hstep ?_ ?_ hstart
    · rintro s ⟨_, e⟩ s' l ⟨rfl, hs⟩ hi hl
      rcases (runInv_step hcode hfalls htid hprog hs hi).2 with ⟨t, rfl, hstep⟩ | ⟨hne, _⟩
      · cases hl
        exact ⟨rfl, hstep⟩
      · cases e with
        | exec t => exact (hne t rfl).elim
        | call u => cases hl
        | trap t => cases hl
        | handler t => cases hl
    · rintro s ⟨_, e⟩ s' ⟨rfl, hs⟩ hi hl
      rcases (runInv_step hcode hfalls htid hprog hs hi).2 with ⟨t, rfl, _⟩ | ⟨_, hsame⟩
      · cases hl
      · exact hsame
  · exact fun t ls' s' => handles_le hcode hfalls htid hprog hi

end Erase

section Loop

/-- An instruction set whose word 0 falls through and whose other words branch to 0x10000. -/
def loopIsa : Isa Unit Unit := fun _ v pc data => (data, if v = 0 then pc + 4 else 0x10000)

/-- Zeroes, but for a branch at 0x10004. -/
def loopMem : Memory 64 := storeInstr (fun _ => 0) 0x10004 1

/-- The program at `pc`, outside its handler, and the other thread between two calls. -/
def loopAt (r : Tracer) (live : List (SlotSetPtr × Nat)) (pc : Addr) (threads : ThreadMap) :
    System Unit Unit Unit :=
  ⟨⟨r, live, fun _ => .idle⟩, threads, fun _ => pc, fun _ => .running, ()⟩

def loopSystem : System Unit Unit Unit := loopAt (slotLibraries loopMem) [] 0x10000 .init

/-- The aligned words below the first page that is mapped for slots. -/
def loopCode (a : Addr) : Prop := 4 ∣ a.toNat ∧ a.toNat + 4 ≤ 0x30000

theorem isCode_loop : (slotLibraries loopMem).IsCode loopCode := by
  refine ⟨fun a ha => ha.1, fun a ha => ⟨ha.1, lt_of_covered ha.2⟩, ?_⟩
  intro b
  show 4 ∣ ((slotLibraries loopMem).index.address ⟨b, .enter⟩).toNat
  simp only [slotLibraries, twoLibraries, BpIndex.init]
  split <;> decide

theorem load_loop {a : Addr} (ha : 4 ∣ a.toNat) (hne : a ≠ 0x10004) :
    loadInstr loopMem a = 0 := by
  have hzero : loadInstr (fun _ => 0) a = 0 := by simp [loadInstr, Memory.load]
  exact (loadInstr_storeInstr_apart (wordsApart_of_aligned ha (by decide) hne) _ 1).trans hzero

theorem displaceable_loop : Displaceable (slotLibraries loopMem) loopIsa := by
  intro b _
  have haddr : (slotLibraries loopMem).enterAddr b ≠ 0x10004 := by
    show (slotLibraries loopMem).index.address ⟨b, .enter⟩ ≠ _
    simp only [slotLibraries, twoLibraries, BpIndex.init]
    split <;> decide
  have hword : loadInstr (slotLibraries loopMem).mem ((slotLibraries loopMem).enterAddr b) = 0 :=
    load_loop (isCode_loop.enter b) haddr
  rw [hword]
  exact ⟨by decide, fun _ _ _ _ => rfl, fun _ _ _ => rfl⟩

/-- The program goes round its loop. -/
theorem loop_code (ts : List Unit) (m : Program Unit Unit)
    (h : Run (ProgramStep loopMem loopIsa) ⟨fun _ => 0x10000, ()⟩ ts m) (t : Unit) :
    loopCode (m.pc t) := by
  have hpc : m.pc () = 0x10000 ∨ m.pc () = 0x10004 := by
    refine h.inv (P := fun m => m.pc () = 0x10000 ∨ m.pc () = 0x10004) ?_ (Or.inl rfl)
    intro m t m' hstep hm
    cases hstep with
    | @exec data a hw hrun =>
      have hnext : (loopIsa () (loadInstr loopMem (m.pc ())) (m.pc ()) m.data).2 = a :=
        congrArg Prod.snd hrun
      rcases hm with hm | hm
      · rw [hm, load_loop (by decide) (by decide)] at hnext
        exact Or.inr hnext.symm
      · rw [hm, show loadInstr loopMem 0x10004 = 1 from loadInstr_storeInstr _ _ _] at hnext
        exact Or.inl hnext.symm
  rcases hpc with hpc | hpc <;> exact hpc.symm ▸ ⟨by decide, by decide⟩

theorem systemInitial_loop : SystemInitial (fun _ => 1) loopSystem :=
  ⟨⟨patchInitial_slotLibraries _, fun _ => rfl, rfl, fun _ => rfl⟩, ThreadMap.linked_init,
    fun _ => rfl, fun _ => rfl⟩

abbrev LoopStep : System Unit Unit Unit → SystemEvent Unit Unit → System Unit Unit Unit → Prop :=
  SystemStep .unbalanced loopIsa (fun _ => 1) loopCode

section Steps

variable {r r' : Tracer} {live live' : List (SlotSetPtr × Nat)} {pc : Addr} {threads : ThreadMap}

theorem loop_calls (h : CallsAlone .unbalanced loopCode () (κ := Unit) ⟨r, live, fun _ => .idle⟩
    ⟨r', live', fun _ => .idle⟩) :
    ∃ n, Run LoopStep (loopAt r live pc threads) (List.replicate n (.call ()))
      (loopAt r' live' pc threads) :=
  run_calls h

theorem loop_exec (hw : loadInstr r.mem pc = 0) :
    LoopStep (loopAt r live pc threads) (.exec ()) (loopAt r live (pc + 4) threads) := by
  have hstep : LoopStep (loopAt r live pc threads) (.exec ()) _ :=
    .exec rfl (hw.trans_ne (by decide)) (congrArg (loopIsa () · pc ()) hw)
  exact hstep

/-- A trap and its handler. -/
theorem loop_trap {ss : Option BkptPtr} (hw : loadInstr r.mem pc = brkInstr)
    (hl : threads.Linked) (hf : r.breakpointFind pc = some b)
    (hd : r.dispatch b (threads.singlestep 1) = .ok (ss, a)) :
    ∃ n threads', Run LoopStep (loopAt r live pc threads)
      (.trap () :: List.replicate n (.handler ())) (loopAt r live a threads') ∧
      threads'.Linked ∧ threads'.singlestep 1 = ss := by
  obtain ⟨fresh, hn⟩ := threads.exists_fresh
  obtain ⟨threads', hrun, hh⟩ := sigtrapHandler_returns 1 hl hn hf hd
  obtain ⟨n, hhandler⟩ : ∃ n, Run LoopStep (loopAt r live pc threads)
      (.trap () :: List.replicate n (.handler ())) _ := run_handler rfl hw hn (fun _ => nofun) hrun
  exact ⟨n, threads', hhandler, hh.linked, (hh.singlestep 1).trans (if_pos rfl)⟩

end Steps

/-- A thread adds and enables the first breakpoint, the program traps at it and is sent to the slot,
the thread disables the breakpoint, and the program runs the displaced instruction and returns
behind the breakpoint. -/
theorem stepping_transparent_disabled :
    ∃ (ls : List (System Unit Unit Unit × SystemEvent Unit Unit)) (s : System Unit Unit Unit)
      (n i m j : Nat),
    Run (Traced LoopStep) loopSystem ls s ∧
    ls.map Prod.snd = List.replicate n (.call ()) ++ (.trap () :: List.replicate i (.handler ())) ++
      List.replicate m (.call ()) ++ [.exec ()] ++ (.trap () :: List.replicate j (.handler ())) ∧
    s.tracer.Added 1 ∧ (s.tracer.bkpt 1).hasAttr .ENABLE = false ∧
    loadInstr s.tracer.mem 0x10000 = 0 ∧ s.pc () = 0x10004 ∧
    Run (Traced (ProgramStep loopMem loopIsa)) ⟨fun _ => 0x10000, ()⟩ (ls.filterMap erase)
      s.program := by
  obtain ⟨s₁, s₂, hlegal, hadd, hadded₁, henable, hon, hin, h⟩ :=
    slotLibraries_first .unbalanced loopMem
  have hi₂ : PatchInv (slotLibraries loopMem) s₂ := patchInv_enable
    (patchInv_add (patchInv_initial (patchInitial_slotLibraries _)) hlegal hadd) hadded₁ henable
  have hadded₂ : s₂.Added 1 := (h.added 1).mpr (Or.inl rfl)
  have haddr : s₂.enterAddr 1 = 0x10000 := h.enterAddr 1
  obtain ⟨p, k, hp⟩ := hi₂.placed 1 hadded₂
  obtain ⟨s₃, hdisable⟩ := disable_returns (hp.linked .enter) hp.slotSet hin
  have hi₃ := patchInv_disable hi₂ hadded₂ hdisable
  have hswitch := disable_switched hi₂ hadded₂ hdisable
  have hword : loadInstr loopMem 0x10000 = 0 := load_loop (by decide) (by decide)
  obtain ⟨v, hpatched⟩ : ∃ v, s₂.Patched s₃ 1 false v := by
    rcases disable_cases hdisable with ⟨_, ⟨_, hoff⟩ | ⟨_, _, hpatched⟩⟩
    · cases hon.symm.trans hoff
    · exact ⟨_, hpatched⟩
  have hadded₃ : s₃.Added 1 := (SlotInv.added_patched hpatched 1).mpr hadded₂
  obtain ⟨q, l, hq⟩ := hi₃.placed 1 hadded₃
  obtain ⟨rfl, rfl⟩ := held_unique (hi₂.toSlotInv.held_patched hadded₂ hpatched hp.toHeld) hq.toHeld
  have hoff : (s₃.slots.slotSet p).slotOffset k = (s₂.slots.slotSet p).slotOffset k := by
    rw [hpatched.slots]
  have hbrk : loadInstr s₂.mem 0x10000 = brkInstr := h.enter
  have hsaved : loadInstr s₃.mem ((s₂.slots.slotSet p).slotOffset k) = 0 :=
    hoff ▸ hq.saved.trans hword
  have hback : loadInstr s₃.mem ((s₂.slots.slotSet p).slotOffset k + 4) = brkInstr :=
    hoff ▸ hq.brk
  have hret : s₃.returnAddr 1 = (s₂.slots.slotSet p).slotOffset k + 4 := hoff ▸ hq.returnAddr
  have haddr₃ : s₃.enterAddr 1 = 0x10000 := hi₃.enterAddr 1
  -- the steps, one thread after the other
  have hfits : ∀ new ∈ [(⟨0, 0x30000⟩ : NewSlots)],
      new.Fits loopCode (slotLibraries loopMem).slots := fits_first loopMem fun a ha => ha.2
  obtain ⟨live, hadds⟩ : ∃ live, CallsAlone .unbalanced loopCode () loopSystem.control
      ⟨s₁, live, fun _ => .idle⟩ := CallsAlone.add (fun _ => rfl) hfits hadd
  obtain ⟨n, hcalls⟩ := loop_calls (hadds.trans (CallsAlone.enable rfl (fun _ => nofun) henable))
  obtain ⟨i, threads, htrap, hl, hss⟩ := loop_trap hbrk ThreadMap.linked_init
    (haddr ▸ hi₂.toSlotInv.find_enter hadded₂) (dispatch_enter hp.toHeld)
  obtain ⟨m, hcalls'⟩ := loop_calls (CallsAlone.disable (k := ⟨s₂, live, fun _ => .idle⟩) rfl
    (fun _ => nofun) hdisable)
  obtain ⟨j, threads', htrap', _, _⟩ := loop_trap hback hl
    (hret ▸ hi₃.toSlotInv.find_return hadded₃) (hss.symm ▸ dispatch_return s₃ 1)
  rw [haddr₃] at htrap'
  have hrun := (((hcalls.append htrap).append hcalls').stepR (loop_exec hsaved)).append htrap'
  obtain ⟨ls, hls, hevents⟩ := hrun.traced
  refine ⟨ls, _, n, i, m, j, hls, hevents, hadded₃, hswitch.enable, ?_, rfl, ?_⟩
  · exact haddr ▸ hswitch.word.trans (haddr ▸ hword)
  · exact (stepping_transparent (r := loopSystem) isCode_loop displaceable_loop (fun _ _ _ => rfl)
      loop_code systemInitial_loop hls).1

end Loop

end Atrace.Signal

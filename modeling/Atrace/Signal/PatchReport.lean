import Atrace.Signal.TextPatch

/-! `breakpoint_enable` and `breakpoint_disable` when `mprotect` fails. -/
namespace Atrace.Signal

open Atrace.Lib

/-- A call of `breakpoint_enable` or `breakpoint_disable`. -/
inductive Patching where
  | enable
  | disable
deriving DecidableEq, Repr

/-- The flag that the call is to leave. -/
def Patching.wanted : Patching → Bool
  | .enable => true
  | .disable => false

namespace Tracer

/-- The calls of a run, with the results of the two `mprotect` calls in each. -/
inductive ProtectedOp where
  | add (b : BkptPtr) (news : List NewSlots)
  | patch (d : Patching) (b : BkptPtr) (mp : Mprotect)

variable {rb : RbLib BpEntry} {s s' s₀ : Tracer} {b c : BkptPtr} {code : Int} {d : Patching}
  {mp : Mprotect}

def patchCall (s : Tracer) (d : Patching) (b : BkptPtr) (mp : Mprotect) :
    Except Fault (Tracer × Int) :=
  match d with
  | .enable => s.breakpointEnable b mp
  | .disable => s.breakpointDisable b mp

/-- A legal call that returns, whatever `mprotect` returned in it. -/
inductive ProtectedStep (rb : RbLib BpEntry) (s : Tracer) : ProtectedOp → Tracer → Prop where
  | add {s' : Tracer} {b : BkptPtr} {news : List NewSlots} {code : Int}
      (hlegal : s.Legal (.add b news)) (h : s.breakpointAdd rb b news = .ok (s', code)) :
      ProtectedStep rb s (.add b news) s'
  | patch {s' : Tracer} {d : Patching} {b : BkptPtr} {mp : Mprotect} {code : Int}
      (hb : s.Added b) (h : s.patchCall d b mp = .ok (s', code)) :
      ProtectedStep rb s (.patch d b mp) s'

/-- The range of the object of a breakpoint, which `mprotect` opens and closes. -/
def InRange (s : Tracer) (b : BkptPtr) (a : Addr) : Prop :=
  ∃ k o, (s.bkpt b).obj = some k ∧ s.objects[k]? = some o ∧ o.textStart ≤ a ∧ a < o.textEnd

/-- The bytes of the word under a breakpoint. -/
def InWord (s : Tracer) (b : BkptPtr) (a : Addr) : Prop :=
  ∃ i < 4, a = s.enterAddr b + BitVec.ofNat 64 i

/-- The object and the word are write-protected. -/
def Locked (s : Tracer) (b : BkptPtr) : Prop :=
  ∀ a, s.InRange b a ∨ s.InWord b a → s.writable a = false

/-- The text can be made writable: the first `mprotect` succeeds and opens the word. -/
def Opens (s : Tracer) (b : BkptPtr) (mp : Mprotect) : Prop :=
  mp.unlock = true ∧ ∀ a, s.InWord b a → s.InRange b a ∨ s.writable a = true

/-- What a call that returns 0 promises. -/
structure PatchDone (s₀ s' : Tracer) (d : Patching) (b : BkptPtr) : Prop where
  flag : (s'.bkpt b).hasAttr .ENABLE = d.wanted
  word : loadInstr s'.mem (s'.enterAddr b) =
    if d.wanted then brkInstr else loadInstr s₀.mem (s₀.enterAddr b)
  locked : s'.Locked b

/-- The call returns 0 only when all is done. A call that has something to do and cannot make the
text writable returns something else, without a store and with the flag as it was. -/
structure Reports (s₀ s : Tracer) (d : Patching) (b : BkptPtr) (mp : Mprotect) : Prop where
  done : ∀ s', s.patchCall d b mp = .ok (s', 0) → PatchDone s₀ s' d b
  fails : (s.bkpt b).hasAttr .ENABLE ≠ d.wanted → ¬ s.Opens b mp →
    ∃ s' code, s.patchCall d b mp = .ok (s', code) ∧ code ≠ 0 ∧ s'.mem = s.mem ∧
      (s'.bkpt b).hasAttr .ENABLE = (s.bkpt b).hasAttr .ENABLE

/-- There is nothing to do on protected text, or both `mprotect` calls succeed on a range that has
the word. -/
def Protects (s : Tracer) (d : Patching) (b : BkptPtr) (mp : Mprotect) : Prop :=
  if (s.bkpt b).hasAttr .ENABLE = d.wanted then s.Locked b
  else mp.unlock = true ∧ mp.lock = true ∧ ∀ a, s.InWord b a → s.InRange b a

/-- The object that `breakpoint_add` found is the one whose chain the breakpoint joined. -/
def HasObject (s : Tracer) (b : BkptPtr) : Prop :=
  ∃ k, (s.bkpt b).obj = some k ∧ s.objectGetByAddress (s.enterAddr b) = some k

/-- The invariant of a run from `s₀`. -/
structure ReportInv (s₀ s : Tracer) : Prop extends PatchInv s₀ s where
  hasObject : ∀ b, s.Added b → s.HasObject b

theorem patchCall_cases (h : s.patchCall d b mp = .ok (s', code)) :
    code = 0 ∧ (s' = s ∨ ∃ v, s.Patched s' b d.wanted v) := by
  cases d with
  | enable =>
    obtain ⟨rfl, ⟨rfl, _⟩ | hp⟩ := enable_cases h
    · exact ⟨rfl, Or.inl rfl⟩
    · exact ⟨rfl, Or.inr ⟨_, hp⟩⟩
  | disable =>
    obtain ⟨rfl, ⟨rfl, _⟩ | ⟨_, _, hp⟩⟩ := disable_cases h
    · exact ⟨rfl, Or.inl rfl⟩
    · exact ⟨rfl, Or.inr ⟨_, hp⟩⟩

theorem reportInv_initial (h : PatchInitial s) : ReportInv s s :=
  ⟨patchInv_initial h, fun b hb => absurd hb (h.not_added b)⟩

theorem HasObject.exists_object (h : s.HasObject b) :
    ∃ k o, (s.bkpt b).obj = some k ∧ s.objects[k]? = some o := by
  obtain ⟨k, hk, hfind⟩ := h
  have hlt := (List.findIdx?_eq_some_iff_getElem.mp hfind).1
  exact ⟨k, s.objects[k], hk, List.getElem?_eq_getElem hlt⟩

theorem hasObject_patched {on : Bool} {v : Instr} (hp : s.Patched s' b on v) (h : s.HasObject c) :
    s'.HasObject c := by
  obtain ⟨k, hk, hfind⟩ := h
  refine ⟨k, (hp.slot_eq c).2.2.trans hk, ?_⟩
  rw [objectGetByAddress_patched hp, enterAddr, hp.index]
  exact hfind

theorem hasObject_slotAdded {news : List NewSlots} {o : ObjPtr} {p : SlotSetPtr} {i : Nat}
    (h : s.SlotAdded s' b news o p i) (hc : s.Added c → s.HasObject c) (hadded : s'.Added c) :
    s'.HasObject c := by
  rw [HasObject, objectGetByAddress_slotAdded h, h.enterAddr]
  rcases (SlotInv.added_slotAdded h c).mp hadded with rfl | hold
  · exact ⟨o, by rw [h.bkpt, if_pos rfl], h.found⟩
  · obtain ⟨k, hk, hfind⟩ := hc hold
    refine ⟨k, ?_, hfind⟩
    by_cases hcb : c = b
    · subst c
      rw [h.bkpt, if_pos rfl, ← hfind, h.found]
    · rw [h.bkpt, if_neg hcb, hk]

theorem reportInv_step {op : ProtectedOp} (h : ProtectedStep rb s op s') (hi : ReportInv s₀ s) :
    ReportInv s₀ s' := by
  cases h with
  | add hlegal hcall =>
    refine ⟨patchInv_add hi.toPatchInv hlegal hcall, ?_⟩
    rcases add_legal_cases hi.toPatchInv hlegal hcall with rfl | ⟨_, o, p, i, hadd, _⟩
    · exact hi.hasObject
    · exact fun c hc => hasObject_slotAdded hadd (hi.hasObject c) hc
  | patch hb hcall =>
    rename_i d b mp code
    obtain ⟨_, rfl | ⟨v, hp⟩⟩ := patchCall_cases hcall
    · exact hi
    · have hobject : ∀ c, s'.Added c → s'.HasObject c :=
        fun c hc => hasObject_patched hp (hi.hasObject c ((SlotInv.added_patched hp c).mp hc))
      refine ⟨?_, hobject⟩
      cases d with
      | enable => exact patchInv_enable hi.toPatchInv hb hcall
      | disable => exact patchInv_disable hi.toPatchInv hb hcall

theorem reportInv_run {ops : List ProtectedOp} (h₀ : PatchInitial s₀)
    (h : Run (ProtectedStep rb) s₀ ops s) : ReportInv s₀ s :=
  h.inv (fun _ _ _ => reportInv_step) (reportInv_initial h₀)

/-- The word that the call is to leave is there when the flag is as wanted. -/
theorem word_of_flag (hi : ReportInv s₀ s) (hb : s.Added b)
    (hflag : (s.bkpt b).hasAttr .ENABLE = d.wanted) :
    loadInstr s.mem (s.enterAddr b) =
      if d.wanted then brkInstr else loadInstr s₀.mem (s₀.enterAddr b) := by
  rw [hi.enterAddr]
  cases d with
  | enable => exact hi.patched b hflag
  | disable =>
    refine hi.original _ (hi.enterAddr b ▸ hi.text b hb) ?_
    intro c hc he
    have hcb : c = b := by
      apply hi.toSlotInv.enter_inj (hi.enable c hc) hb
      rw [hi.enterAddr, hi.enterAddr, he]
    rw [hcb, hflag] at hc
    cases hc

/-- A call that has nothing to do. -/
theorem patchCall_same (hlinked : s.index.emptyNode ⟨b, .enter⟩ = false)
    (hflag : (s.bkpt b).hasAttr .ENABLE = d.wanted) : s.patchCall d b mp = .ok (s, 0) := by
  cases d with
  | enable =>
    have hon : (s.bkpt b).hasAttr .ENABLE = true := hflag
    simp [patchCall, breakpointEnable, hlinked, hon]
  | disable =>
    have hoff : (s.bkpt b).hasAttr .ENABLE = false := hflag
    simp [patchCall, breakpointDisable, hlinked, hoff]

section Protection

variable {k : ObjPtr} {o : Object} {a : Addr}

theorem inRange_iff (hk : (s.bkpt b).obj = some k) (ho : s.objects[k]? = some o) :
    s.InRange b a ↔ o.textStart ≤ a ∧ a < o.textEnd := by
  constructor
  · rintro ⟨k', o', hk', ho', h⟩
    cases hk.symm.trans hk'
    cases ho.symm.trans ho'
    exact h
  · exact fun h => ⟨k, o, hk, ho, h⟩

/-- The word between the two `mprotect` calls. -/
theorem permissions_word (hk : (s.bkpt b).obj = some k) (ho : s.objects[k]? = some o)
    (hopen : s.Opens b mp) :
    ∀ i < 4, s.permissions mp.unlock true o (s.enterAddr b + BitVec.ofNat 64 i) = true := by
  intro i hlt
  rcases hopen.2 _ ⟨i, hlt, rfl⟩ with hin | hw
  · exact if_pos ⟨hopen.1, (inRange_iff hk ho).mp hin⟩
  · rw [permissions, hw, ite_self]

/-- The object after them. -/
theorem permissions_range (hk : (s.bkpt b).obj = some k) (ho : s.objects[k]? = some o)
    (hunlock : mp.unlock = true) (hin : s.InRange b a) :
    { s with writable := s.permissions mp.unlock true o }.permissions mp.lock false o a =
      !mp.lock := by
  have hrange := (inRange_iff hk ho).mp hin
  cases hlock : mp.lock <;> simp [permissions, hunlock, hrange]

/-- Everything else after them. -/
theorem permissions_apart (hk : (s.bkpt b).obj = some k) (ho : s.objects[k]? = some o)
    (hout : ¬ s.InRange b a) :
    { s with writable := s.permissions mp.unlock true o }.permissions mp.lock false o a =
      s.writable a := by
  have hrange : ¬ (o.textStart ≤ a ∧ a < o.textEnd) := fun h => hout ((inRange_iff hk ho).mpr h)
  simp [permissions, hrange]

end Protection

/-- A call that has something to do patches the text, if that is writable in between. -/
theorem patchCall_opened {p : SlotSetPtr} {i : Nat} {k : ObjPtr} {o : Object}
    (hp : Placed s₀ s b p i) (hk : (s.bkpt b).obj = some k) (ho : s.objects[k]? = some o)
    (hflag : (s.bkpt b).hasAttr .ENABLE ≠ d.wanted) (hopen : s.Opens b mp) :
    ∃ s', s.patchCall d b mp = .ok (s', 0) ∧ s.Patched s' b d.wanted
      (if d.wanted then brkInstr else loadInstr s₀.mem (s₀.enterAddr b)) ∧
      (∀ a, s.InRange b a → s'.writable a = !mp.lock) ∧
      ∀ a, ¬ s.InRange b a → s'.writable a = s.writable a := by
  have hword := permissions_word hk ho hopen
  have hrange : ∀ a, s.InRange b a →
      { s with writable := s.permissions mp.unlock true o }.permissions mp.lock false o a =
        !mp.lock := fun a ha => permissions_range hk ho hopen.1 ha
  have hapart : ∀ a, ¬ s.InRange b a →
      { s with writable := s.permissions mp.unlock true o }.permissions mp.lock false o a =
        s.writable a := fun a ha => permissions_apart hk ho ha
  cases d with
  | enable =>
    have hoff : (s.bkpt b).hasAttr .ENABLE = false := Bool.not_eq_true _ ▸ hflag
    have hk' : ((s.modifyBkpt b (·.setAttr .ENABLE)).bkpt b).obj = some k := by
      simpa [modifyBkpt_bkpt, Breakpoint.setAttr] using hk
    have htext := patchText_open hk' ho hword brkInstr
    refine ⟨_, ?_, patched_of_attr (f := (·.setAttr .ENABLE)) rfl rfl rfl ?_ ?_, hrange, hapart⟩
    · simp only [patchCall, breakpointEnable, hp.linked, hoff, Bool.false_eq_true, if_false, htext]
      rfl
    all_goals simp [Breakpoint.hasAttr_setAttr, Patching.wanted]
  | disable =>
    have hon : (s.bkpt b).hasAttr .ENABLE = true := Bool.not_eq_false _ ▸ hflag
    have hk' : ((s.modifyBkpt b (·.clrAttr .ENABLE)).bkpt b).obj = some k := by
      simpa [modifyBkpt_bkpt, Breakpoint.clrAttr] using hk
    have htext := patchText_open hk' ho hword (loadInstr s₀.mem (s₀.enterAddr b))
    have hsaved : loadInstr (s.modifyBkpt b (·.clrAttr .ENABLE)).mem
        ((s.slots.slotSet p).slotOffset (s.bkpt b).slotIndex) =
          loadInstr s₀.mem (s₀.enterAddr b) := by
      rw [hp.slotIndex]
      exact hp.saved
    refine ⟨_, ?_, patched_of_attr (f := (·.clrAttr .ENABLE)) rfl rfl rfl ?_ ?_, hrange, hapart⟩
    · simp only [patchCall, breakpointDisable, hp.linked, hon, Bool.false_eq_true, if_false,
        if_true, hp.slotSet, hsaved, htext]
      rfl
    all_goals simp [Breakpoint.hasAttr_clrAttr, Patching.wanted]

theorem inRange_patched {on : Bool} {v : Instr} {a : Addr} (hp : s.Patched s' b on v) :
    s'.InRange b a ↔ s.InRange b a := by
  simp only [InRange, hp.obj, hp.objects]

theorem inWord_patched {on : Bool} {v : Instr} {a : Addr} (hp : s.Patched s' b on v) :
    s'.InWord b a ↔ s.InWord b a := by
  simp only [InWord, enterAddr, hp.index]

/-- The text is protected afterwards when the second `mprotect` succeeds and covers the word. -/
theorem locked_patched_iff {on : Bool} {v : Instr} (hp : s.Patched s' b on v)
    (hopen : ∀ a, s.InWord b a → s.InRange b a ∨ s.writable a = true)
    (hrange : ∀ a, s.InRange b a → s'.writable a = !mp.lock)
    (hapart : ∀ a, ¬ s.InRange b a → s'.writable a = s.writable a) :
    s'.Locked b ↔ mp.lock = true ∧ ∀ a, s.InWord b a → s.InRange b a := by
  simp only [Locked, inRange_patched hp, inWord_patched hp]
  constructor
  · intro hlocked
    have hin : ∀ a, s.InWord b a → s.InRange b a := by
      intro a ha
      by_contra hout
      have hw := (hopen a ha).resolve_left hout
      rw [← hapart a hout, hlocked a (Or.inr ha)] at hw
      cases hw
    have hfirst : s.InWord b (s.enterAddr b) := ⟨0, by decide, by simp⟩
    have hlock := hlocked _ (Or.inr hfirst)
    rw [hrange _ (hin _ hfirst)] at hlock
    exact ⟨Bool.not_eq_false' .. ▸ hlock, hin⟩
  · rintro ⟨hlock, hin⟩ a ha
    have hr : s.InRange b a := ha.elim id (hin a)
    rw [hrange a hr, hlock]
    rfl

/-- A call that has nothing to do keeps its promise when the text is protected. -/
theorem reports_same_iff (hi : ReportInv s₀ s) (hb : s.Added b)
    (hflag : (s.bkpt b).hasAttr .ENABLE = d.wanted) : Reports s₀ s d b mp ↔ s.Locked b := by
  obtain ⟨p, i, hp⟩ := hi.placed b hb
  have hcall : s.patchCall d b mp = .ok (s, 0) := patchCall_same (hp.linked .enter) hflag
  constructor
  · intro hr
    exact (hr.done s hcall).locked
  · intro hlocked
    refine ⟨?_, fun hne => absurd hflag hne⟩
    intro s' hs'
    rw [hcall] at hs'
    cases hs'
    exact ⟨hflag, word_of_flag hi hb hflag, hlocked⟩

/-- A call that has something to do never reports a failure. -/
theorem opens_of_reports (hflag : (s.bkpt b).hasAttr .ENABLE ≠ d.wanted)
    (hr : Reports s₀ s d b mp) : s.Opens b mp := by
  by_contra hno
  obtain ⟨s', code, hcall, hne, _⟩ := hr.fails hflag hno
  exact hne (patchCall_cases hcall).1

theorem reports_opened_iff (hi : ReportInv s₀ s) (hb : s.Added b)
    (hflag : (s.bkpt b).hasAttr .ENABLE ≠ d.wanted) (hopen : s.Opens b mp) :
    Reports s₀ s d b mp ↔ mp.lock = true ∧ ∀ a, s.InWord b a → s.InRange b a := by
  obtain ⟨k, o, hk, ho⟩ := (hi.hasObject b hb).exists_object
  obtain ⟨p, i, hplaced⟩ := hi.placed b hb
  obtain ⟨s', hcall, hp, hrange, hapart⟩ := patchCall_opened hplaced hk ho hflag hopen
  rw [← locked_patched_iff hp hopen.2 hrange hapart]
  constructor
  · intro hr
    exact (hr.done s' hcall).locked
  · intro hlocked
    refine ⟨?_, fun _ hno => absurd hopen hno⟩
    intro s₁ hs₁
    rw [hcall] at hs₁
    cases hs₁
    refine ⟨hp.enable, ?_, hlocked⟩
    have haddr : s'.enterAddr b = s.enterAddr b := by rw [enterAddr, hp.index, enterAddr]
    rw [hp.mem, haddr, loadInstr_storeInstr]

/-- In every state of a run, `breakpoint_enable` and `breakpoint_disable` report what `mprotect`
did exactly when they have nothing to do on protected text or both calls succeed. -/
theorem patch_reports_iff {ops : List ProtectedOp} (h₀ : PatchInitial s₀)
    (h : Run (ProtectedStep rb) s₀ ops s) (hb : s.Added b) :
    Reports s₀ s d b mp ↔ s.Protects d b mp := by
  have hi := reportInv_run h₀ h
  by_cases hflag : (s.bkpt b).hasAttr .ENABLE = d.wanted
  · rw [Protects, if_pos hflag]
    exact reports_same_iff hi hb hflag
  · rw [Protects, if_neg hflag]
    constructor
    · intro hr
      have hopen := opens_of_reports hflag hr
      exact ⟨hopen.1, (reports_opened_iff hi hb hflag hopen).mp hr⟩
    · rintro ⟨hunlock, hlock, hin⟩
      have hopen : s.Opens b mp := ⟨hunlock, fun a ha => Or.inl (hin a ha)⟩
      exact (reports_opened_iff hi hb hflag hopen).mpr ⟨hlock, hin⟩

/-- The first breakpoint, added and enabled. -/
theorem slotLibraries_enabled : ∃ s, Run (ProtectedStep .unbalanced) (slotLibraries fun _ => 0)
    [.add 1 [⟨0, 0x30000⟩], .patch .enable 1 .succeeds] s ∧ s.Added 1 ∧
    (s.bkpt 1).hasAttr .ENABLE = true ∧ ∀ a, s.InWord 1 a → s.InRange 1 a := by
  have h₀ := patchInitial_slotLibraries fun _ => 0
  obtain ⟨s₁, s, hlegal, hadd, hadded, henable, hon, hin, h⟩ :=
    slotLibraries_first .unbalanced fun _ => 0
  have hrun : Run (ProtectedStep .unbalanced) (slotLibraries fun _ => 0)
      [.add 1 [⟨0, 0x30000⟩], .patch .enable 1 .succeeds] s :=
    .stepL (.add hlegal hadd) (.stepL (.patch hadded henable) .refl)
  have hadded' : s.Added 1 := (h.added 1).mpr (Or.inl rfl)
  refine ⟨s, hrun, hadded', hon, ?_⟩
  rintro a ⟨i, hlt, rfl⟩
  obtain ⟨k, o, hk, ho, hr⟩ := hin
  exact ⟨k, o, hk, ho, hr i hlt⟩

/-- Both calls succeed on the enabled breakpoint. -/
theorem patch_reports_iff_disable : ∃ s : Tracer,
    Run (ProtectedStep .unbalanced) (slotLibraries fun _ => 0)
      [.add 1 [⟨0, 0x30000⟩], .patch .enable 1 .succeeds] s ∧ s.Added 1 ∧
    Reports (slotLibraries fun _ => 0) s .disable 1 .succeeds := by
  obtain ⟨s, hrun, hadded, hon, hin⟩ := slotLibraries_enabled
  refine ⟨s, hrun, hadded, (patch_reports_iff (patchInitial_slotLibraries _) hrun hadded).mpr ?_⟩
  rw [Protects, if_neg (by rw [hon]; decide)]
  exact ⟨rfl, rfl, hin⟩

/-- When the second `mprotect` of `breakpoint_disable` fails, the call returns 0 and leaves the text
writable; when the first one fails, nothing is reported either. -/
theorem failed_mprotect_unreported : ∃ s s' : Tracer,
    Run (ProtectedStep .unbalanced) (slotLibraries fun _ => 0)
      [.add 1 [⟨0, 0x30000⟩], .patch .enable 1 .succeeds] s ∧ s.Added 1 ∧
    s.breakpointDisable 1 ⟨true, false⟩ = .ok (s', 0) ∧ s'.writable 0x10000 = true ∧
    ¬ Reports (slotLibraries fun _ => 0) s .disable 1 ⟨true, false⟩ ∧
    ¬ Reports (slotLibraries fun _ => 0) s .disable 1 ⟨false, true⟩ := by
  obtain ⟨s, hrun, hadded, hon, hin⟩ := slotLibraries_enabled
  have hi := reportInv_run (patchInitial_slotLibraries _) hrun
  have hne : (s.bkpt 1).hasAttr .ENABLE ≠ Patching.disable.wanted := by
    rw [hon]
    decide
  have hopen : s.Opens 1 ⟨true, false⟩ := ⟨rfl, fun a ha => Or.inl (hin a ha)⟩
  obtain ⟨k, o, hk, ho⟩ := (hi.hasObject 1 hadded).exists_object
  obtain ⟨p, i, hp⟩ := hi.placed 1 hadded
  obtain ⟨s', hcall, _, hrange, _⟩ := patchCall_opened hp hk ho hne hopen
  have hfirst : s.InWord 1 0x10000 := ⟨0, by decide, by rw [hi.enterAddr]; decide⟩
  refine ⟨s, s', hrun, hadded, hcall, hrange _ (hin _ hfirst), ?_, ?_⟩
  · intro hr
    obtain ⟨hlock, _⟩ := (reports_opened_iff hi hadded hne hopen).mp hr
    cases hlock
  · intro hr
    cases (opens_of_reports hne hr).1

end Tracer

end Atrace.Signal

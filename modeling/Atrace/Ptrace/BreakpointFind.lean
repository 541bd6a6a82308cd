import Atrace.Ptrace.LifeCycle

/-! The bounds of `breakpoint_create` and of `breakpoint_find`. -/
namespace Atrace.Ptrace

open Atrace.Lib Signal

/-- `arch_get_breakpoint_pc` -/
def archGetBreakpointPc (addr : Word) : Word := addr - 1

/-- `arch_get_thread_pc`, from the `rip` that `PTRACE_GETREGS` has read. -/
def archGetThreadPc (rip : Option Word) : Word := rip.getD 0

namespace Profiler

variable (s : Profiler)

/-- The loops of `breakpoint_find` over the objects that are left. -/
def findLoop (bpPc : Word) : List Object → Option BkptPtr
  | [] => none
  | curr :: objs =>
    if bpPc < curr.textStart ∨ curr.textEnd < bpPc then findLoop bpPc objs
    else
      match curr.breakpointChain.find? fun b => (s.bkpt b).address == bpPc with
      | some bp => some bp
      | none => findLoop bpPc objs

/-- `breakpoint_find` -/
def breakpointFind (rip : Option Word) : Option BkptPtr :=
  let currPc := archGetThreadPc rip
  if currPc = 0 then none else s.findLoop (archGetBreakpointPc currPc) s.objects

/-- The bounds check of `breakpoint_create` accepts the request, as the call returns a breakpoint
when `calloc` does. -/
def Accepts (o : ObjPtr) (offset : Word) (attr : BitVec 32) : Prop :=
  ∀ b, ∃ s', s.breakpointCreate (some o) offset attr (some b) = .ok (s', some b)

/-- The exact sum neither wraps around nor meets the end of the text. -/
def ExactSum (obj : Object) (offset : Word) : Prop :=
  obj.textStart.toNat + offset.toNat < 2 ^ 64 ∧
    obj.textStart.toNat + offset.toNat ≠ obj.textEnd.toNat

/-- A call whose request, if it is one, has an exact sum. -/
def ExactCall (s : Profiler) : LifeCall → Prop
  | .create obj offset _ _ => ∀ o ob, obj = some o → s.objects[o]? = some ob → ExactSum ob offset
  | .delete _ => True

variable {s s' : Profiler} {b c : BkptPtr} {o : ObjPtr} {obj : Object} {offset pc : Word}
  {attr : BitVec 32} {fresh : Option BkptPtr}

theorem accepts_iff (hobj : s.objects[o]? = some obj) (hoff : offset ≠ 0) :
    s.Accepts o offset attr ↔ obj.textStart + offset ≤ obj.textEnd := by
  constructor
  · intro h
    obtain ⟨s', hrun⟩ := h 0
    rcases create_cases hrun with ⟨_, hnone⟩ | ⟨o', ob, b, ho, hob, _, hend, _⟩
    · cases hnone
    · obtain rfl := Option.some.inj ho
      obtain rfl := Option.some.inj (hobj.symm.trans hob)
      exact hend
  · intro hend b
    obtain ⟨s', hrun, _⟩ := create_returns attr hoff hobj hend b
    exact ⟨s', hrun⟩

/-- A sum that wraps is below the start of the text, so it is accepted; and so is the end. -/
theorem wrapped_le_iff (hlt : obj.textStart < obj.textEnd) :
    (obj.textStart + offset ≤ obj.textEnd ↔
      obj.textStart.toNat + offset.toNat < obj.textEnd.toNat) ↔ ExactSum obj offset := by
  have hend := obj.textEnd.isLt
  have hoffset := offset.isLt
  rw [BitVec.lt_def] at hlt
  rw [BitVec.le_def, BitVec.toNat_add, ExactSum]
  by_cases hwrap : obj.textStart.toNat + offset.toNat < 2 ^ 64
  · rw [Nat.mod_eq_of_lt hwrap]
    omega
  · rw [Nat.mod_eq_sub_mod (by omega), Nat.mod_eq_of_lt (by omega)]
    omega

theorem findLoop_address {objs : List Object} (h : s.findLoop pc objs = some c) :
    (s.bkpt c).address = pc := by
  induction objs with
  | nil => cases h
  | cons curr objs ih =>
    unfold findLoop at h
    split at h
    · exact ih h
    · split at h
      · rename_i bp hfind
        cases h
        have hfound := List.find?_some hfind
        exact eq_of_beq hfound
      · exact ih h

/-- The loops find the address if it is on the chain of an object whose range has it. -/
theorem findLoop_finds {objs : List Object} (hobj : obj ∈ objs) (hstart : obj.textStart ≤ pc)
    (hend : pc ≤ obj.textEnd) (hb : b ∈ obj.breakpointChain) (haddr : (s.bkpt b).address = pc) :
    ∃ c, s.findLoop pc objs = some c := by
  induction objs with
  | nil => cases hobj
  | cons curr objs ih =>
    unfold findLoop
    split
    · rename_i hrange
      apply ih
      refine (List.mem_cons.mp hobj).resolve_left ?_
      rintro rfl
      rcases hrange with h | h
      · exact BitVec.not_lt.mpr hstart h
      · exact BitVec.not_lt.mpr hend h
    · split
      · exact ⟨_, rfl⟩
      · rename_i hnone
        apply ih
        refine (List.mem_cons.mp hobj).resolve_left ?_
        rintro rfl
        exact List.find?_eq_none.mp hnone b hb (by simp [haddr])

theorem enable_objects : (s.breakpointEnable b).objects = s.objects := by
  cases hon : (s.bkpt b).enabled with
  | true => rw [enable_of_enabled hon]
  | false => rw [enable_of_disabled hon]

theorem disable_objects (h : s.breakpointDisable b = .ok s') : s'.objects = s.objects := by
  cases hon : (s.bkpt b).enabled with
  | false =>
    rw [disable_of_disabled hon] at h
    cases h
    rfl
  | true =>
    rw [disable_of_enabled hon] at h
    split at h <;> cases h
    rfl

theorem create_objects (h : s.breakpointCreate (some o) offset attr fresh = .ok (s', some b)) :
    s'.objects = (s.linkChain b o).objects := by
  unfold breakpointCreate at h
  split at h
  · cases h
  rename_i o' ho
  obtain rfl := Option.some.inj ho
  split at h
  · cases h
  split at h
  · cases h
  split at h
  · cases h
  split at h
  · cases h
  · cases h
    cases hasFlag attr .ENABLE with
    | false => rfl
    | true => simp [linkChain, setBkpt, enable_objects]

theorem delete_objects (h : s.breakpointDelete b = .ok s') :
    s'.objects = s.objects.map fun obj =>
      { obj with breakpointChain := obj.breakpointChain.erase b } := by
  obtain ⟨t, ht, h⟩ := bind_ok h
  cases h
  rw [← disable_objects ht]

/-- What a live breakpoint is linked on: the chain of one object, in whose range it lies. -/
structure Chained (s : Profiler) : Prop where
  live_nodup : s.live.Nodup
  nodup : ∀ (i : ObjPtr) (ob : Object), s.objects[i]? = some ob → ob.breakpointChain.Nodup
  linked : ∀ b ∈ s.live, ∃ (i : ObjPtr) (ob : Object), s.objects[i]? = some ob ∧
    b ∈ ob.breakpointChain
  live : ∀ (i : ObjPtr) (ob : Object) (b : BkptPtr), s.objects[i]? = some ob →
    b ∈ ob.breakpointChain → b ∈ s.live
  inside : ∀ (i : ObjPtr) (ob : Object) (b : BkptPtr), s.objects[i]? = some ob →
    b ∈ ob.breakpointChain → ob.textStart ≤ (s.bkpt b).address ∧ (s.bkpt b).address < ob.textEnd

theorem chained_initial (hlive : s.live = [])
    (hchains : ∀ ob ∈ s.objects, ob.breakpointChain = []) : Chained s := by
  have hempty : ∀ (i : ObjPtr) (ob : Object), s.objects[i]? = some ob → ob.breakpointChain = [] :=
    fun i ob hob => hchains ob (List.mem_of_getElem? hob)
  refine ⟨by simp [hlive], ?_, by simp [hlive], ?_, ?_⟩
  · intro i ob hob
    simp [hempty i ob hob]
  · intro i ob b hob hb
    simp [hempty i ob hob] at hb
  · intro i ob b hob hb
    simp [hempty i ob hob] at hb

/-- An accepted request with an exact sum lies in the range of its object. -/
theorem inside_of_exact (hend : obj.textStart + offset ≤ obj.textEnd)
    (hexact : ExactSum obj offset) :
    obj.textStart ≤ obj.textStart + offset ∧ obj.textStart + offset < obj.textEnd := by
  have hsum : (obj.textStart + offset).toNat = obj.textStart.toNat + offset.toNat := by
    rw [BitVec.toNat_add, Nat.mod_eq_of_lt hexact.1]
  have hne := hexact.2
  rw [BitVec.le_def, hsum] at hend
  rw [BitVec.le_def, BitVec.lt_def, hsum]
  omega

namespace Chained

variable (hi : Chained s)
include hi

theorem create (hfresh : b ∉ s.live) (hobj : s.objects[o]? = some obj)
    (hc : Created s s' b (obj.textStart + offset) attr)
    (hobjs : s'.objects = (s.linkChain b o).objects)
    (hend : obj.textStart + offset ≤ obj.textEnd) (hexact : ExactSum obj offset) :
    Chained s' := by
  have hget : ∀ (i : ObjPtr) (ob' : Object), s'.objects[i]? = some ob' →
      ∃ ob, s.objects[i]? = some ob ∧
      ((i ≠ o ∧ ob' = ob) ∨ (i = o ∧
        ob' = { ob with breakpointChain := ob.breakpointChain ++ [b] })) := by
    intro i ob' h
    rw [hobjs, linkChain, List.getElem?_modify] at h
    obtain ⟨ob, hob, rfl⟩ := Option.map_eq_some_iff.mp h
    refine ⟨ob, hob, ?_⟩
    by_cases hio : i = o
    · simp [hio]
    · simp [hio, Ne.symm hio]
  have hunlinked : ∀ (i : ObjPtr) (ob : Object), s.objects[i]? = some ob →
      b ∉ ob.breakpointChain :=
    fun i ob hob hb => hfresh (hi.live i ob b hob hb)
  have hold : ∀ (i : ObjPtr) (ob : Object) c, s.objects[i]? = some ob →
      c ∈ ob.breakpointChain → c ∈ s'.live ∧
        ob.textStart ≤ (s'.bkpt c).address ∧ (s'.bkpt c).address < ob.textEnd := by
    intro i ob c hob hmem
    have hcb : c ≠ b := fun he => hunlinked i ob hob (he ▸ hmem)
    rw [hc.live, hc.other c hcb]
    exact ⟨List.mem_cons_of_mem b (hi.live i ob c hob hmem), hi.inside i ob c hob hmem⟩
  have hnew : ∀ (i : ObjPtr) (ob' : Object) c, s'.objects[i]? = some ob' →
      c ∈ ob'.breakpointChain → c ∈ s'.live ∧
        ob'.textStart ≤ (s'.bkpt c).address ∧ (s'.bkpt c).address < ob'.textEnd := by
    intro i ob' c hob' hmem
    obtain ⟨ob, hob, ⟨_, rfl⟩ | ⟨rfl, rfl⟩⟩ := hget i ob' hob'
    · exact hold i ob' c hob hmem
    · rcases List.mem_append.mp hmem with hmem | hmem
      · exact hold i ob c hob hmem
      · obtain rfl := List.mem_singleton.mp hmem
        obtain rfl := Option.some.inj (hobj.symm.trans hob)
        rw [hc.live, hc.self]
        exact ⟨List.mem_cons_self, inside_of_exact hend hexact⟩
  refine ⟨?_, ?_, ?_, fun i ob c hob hmem => (hnew i ob c hob hmem).1,
    fun i ob c hob hmem => (hnew i ob c hob hmem).2⟩
  · rw [hc.live]
    exact List.nodup_cons.mpr ⟨hfresh, hi.live_nodup⟩
  · intro i ob' hob'
    obtain ⟨ob, hob, ⟨_, rfl⟩ | ⟨_, rfl⟩⟩ := hget i ob' hob'
    · exact hi.nodup i ob' hob
    · refine List.nodup_append.mpr ⟨hi.nodup i ob hob, List.nodup_singleton b, ?_⟩
      intro c hmem d hd
      obtain rfl := List.mem_singleton.mp hd
      rintro rfl
      exact hunlinked i ob hob hmem
  · intro c hlive
    rw [hc.live] at hlive
    have hlink : ∀ (i : ObjPtr) (ob : Object), s.objects[i]? = some ob →
        (c ∈ ob.breakpointChain ∨ (i = o ∧ c = b)) →
        ∃ (i : ObjPtr) (ob : Object), s'.objects[i]? = some ob ∧ c ∈ ob.breakpointChain := by
      intro i ob hob hmem
      refine ⟨i, _, by rw [hobjs, linkChain, List.getElem?_modify, hob]; rfl, ?_⟩
      by_cases hio : o = i
      · simp only [if_pos hio, List.mem_append, List.mem_singleton]
        exact hmem.imp_right And.right
      · simp only [if_neg hio]
        exact hmem.resolve_right fun h => hio h.1.symm
    rcases List.mem_cons.mp hlive with hcb | hlive
    · exact hlink o obj hobj (Or.inr ⟨rfl, hcb⟩)
    · obtain ⟨i, ob, hob, hmem⟩ := hi.linked c hlive
      exact hlink i ob hob (Or.inl hmem)

theorem delete (hr : Removed s s' b)
    (hobjs : s'.objects = s.objects.map fun obj =>
      { obj with breakpointChain := obj.breakpointChain.erase b }) : Chained s' := by
  have hget : ∀ (i : ObjPtr) (ob' : Object), s'.objects[i]? = some ob' →
      ∃ ob, s.objects[i]? = some ob ∧
        ob' = { ob with breakpointChain := ob.breakpointChain.erase b } := by
    intro i ob' h
    rw [hobjs, List.getElem?_map] at h
    obtain ⟨ob, hob, rfl⟩ := Option.map_eq_some_iff.mp h
    exact ⟨ob, hob, rfl⟩
  have hlive : ∀ c, c ∈ s'.live ↔ c ≠ b ∧ c ∈ s.live := by
    intro c
    rw [hr.live, hi.live_nodup.mem_erase_iff]
  have hchain : ∀ (i : ObjPtr) (ob : Object) c, s.objects[i]? = some ob →
      (c ∈ ob.breakpointChain.erase b ↔ c ≠ b ∧ c ∈ ob.breakpointChain) :=
    fun i ob c hob => (hi.nodup i ob hob).mem_erase_iff
  refine ⟨?_, ?_, ?_, ?_, ?_⟩
  · rw [hr.live]
    exact hi.live_nodup.erase b
  · intro i ob' hob'
    obtain ⟨ob, hob, rfl⟩ := hget i ob' hob'
    exact (hi.nodup i ob hob).erase b
  · intro c hc
    obtain ⟨hcb, hc⟩ := (hlive c).mp hc
    obtain ⟨i, ob, hob, hmem⟩ := hi.linked c hc
    refine ⟨i, _, by rw [hobjs, List.getElem?_map, hob]; rfl, ?_⟩
    exact (hchain i ob c hob).mpr ⟨hcb, hmem⟩
  · intro i ob' c hob' hmem
    obtain ⟨ob, hob, rfl⟩ := hget i ob' hob'
    obtain ⟨hcb, hmem⟩ := (hchain i ob c hob).mp hmem
    exact (hlive c).mpr ⟨hcb, hi.live i ob c hob hmem⟩
  · intro i ob' c hob' hmem
    obtain ⟨ob, hob, rfl⟩ := hget i ob' hob'
    obtain ⟨hcb, hmem⟩ := (hchain i ob c hob).mp hmem
    rw [hr.other c hcb]
    exact hi.inside i ob c hob hmem

theorem find (hb : b ∈ s.live) :
    ∃ c, s.breakpointFind (some ((s.bkpt b).address + 1)) = some c ∧
      (s.bkpt c).address = (s.bkpt b).address := by
  obtain ⟨i, ob, hob, hmem⟩ := hi.linked b hb
  obtain ⟨hstart, hend⟩ := hi.inside i ob b hob hmem
  have hpc : archGetThreadPc (some ((s.bkpt b).address + 1)) ≠ 0 := by
    intro h0
    rw [BitVec.lt_def] at hend
    have hnat := congrArg BitVec.toNat h0
    simp only [archGetThreadPc, Option.getD_some, BitVec.toNat_add] at hnat
    have := ob.textEnd.isLt
    simp at hnat
    omega
  have hback : archGetBreakpointPc (archGetThreadPc (some ((s.bkpt b).address + 1))) =
      (s.bkpt b).address := by
    simp only [archGetBreakpointPc, archGetThreadPc, Option.getD_some]
    exact BitVec.add_sub_cancel ..
  obtain ⟨c, hc⟩ := findLoop_finds (List.mem_of_getElem? hob) hstart (BitVec.le_of_lt hend) hmem rfl
  refine ⟨c, ?_, findLoop_address hc⟩
  rw [breakpointFind, if_neg hpc, hback, hc]

end Chained

theorem chained_step {call : LifeCall} (h : LifeStep s call s') (hexact : ExactCall s call)
    (hi : Chained s) : Chained s' := by
  cases h with
  | create hfresh hrun =>
    rename_i obj offset attr fresh r
    rcases create_cases hrun with ⟨rfl, _⟩ | ⟨o, ob, b, rfl, hob, _, hend, rfl, rfl, hc⟩
    · exact hi
    · exact hi.create (hfresh b rfl) hob hc (create_objects hrun) hend (hexact o ob rfl hob)
  | delete hb hrun => exact hi.delete (delete_cases hrun).2 (delete_objects hrun)

/-- The check is the exact one just for the sums that neither wrap nor meet the end of the text,
and in a run whose requests all have such sums every breakpoint is found again. -/
theorem created_found_iff {s₀ : Profiler} {calls : List (Profiler × LifeCall)}
    (h : Run (Traced LifeStep) s₀ calls s) (hexact : ∀ l ∈ calls, ExactCall l.1 l.2)
    (hlive : s₀.live = []) (hchains : ∀ ob ∈ s₀.objects, ob.breakpointChain = []) :
    (∀ o ob offset attr, s.objects[o]? = some ob → ob.textStart < ob.textEnd → offset ≠ 0 →
      ((s.Accepts o offset attr ↔ ob.textStart.toNat + offset.toNat < ob.textEnd.toNat) ↔
        ExactSum ob offset)) ∧
    ∀ b ∈ s.live, ∃ c, s.breakpointFind (some ((s.bkpt b).address + 1)) = some c ∧
      (s.bkpt c).address = (s.bkpt b).address := by
  have hi : Chained s := by
    refine h.inv_of_labels ?_ hexact (chained_initial hlive hchains)
    rintro t ⟨_, call⟩ u ⟨rfl, hstep⟩ hq hi
    exact chained_step hstep hq hi
  constructor
  · intro o ob offset attr hob hlt hoff
    rw [accepts_iff hob hoff]
    exact wrapped_le_iff hlt
  · exact fun b hb => hi.find hb

theorem created_found_iff_one : ∃ s : Profiler, s.live = [0] ∧
    ((∀ o ob offset attr, s.objects[o]? = some ob → ob.textStart < ob.textEnd → offset ≠ 0 →
      ((s.Accepts o offset attr ↔ ob.textStart.toNat + offset.toNat < ob.textEnd.toNat) ↔
        ExactSum ob offset)) ∧
    ∀ b ∈ s.live, ∃ c, s.breakpointFind (some ((s.bkpt b).address + 1)) = some c ∧
      (s.bkpt c).address = (s.bkpt b).address) := by
  obtain ⟨s, hrun, hc⟩ := create_returns 0 (s := oneObject) (o := 0)
    (show (0x10 : Word) ≠ 0 by decide) rfl (by decide) 0
  have hrun : Run (Traced LifeStep) oneObject
      [(oneObject, .create (some 0) 0x10 0 (some 0))] s :=
    .stepL ⟨rfl, .create (by simp [oneObject]) hrun⟩ .refl
  have hexact : ExactCall oneObject (.create (some 0) 0x10 0 (some 0)) := by
    rintro o ob ⟨⟩ hob
    obtain rfl := Option.some.inj hob
    exact ⟨by decide, by decide⟩
  exact ⟨s, hc.live, created_found_iff hrun (by simpa using hexact) rfl (by simp [oneObject])⟩

/-- A request whose sum wraps around is accepted, and its breakpoint is not found. -/
theorem wrapped_request_accepted : topObject.Accepts 0 0x2000 0 ∧
    ¬ (0xFFFFFFFFFFFFF000#64).toNat + (0x2000#64).toNat < (0xFFFFFFFFFFFFFFFF#64).toNat ∧
    ∃ s, topObject.breakpointCreate (some 0) 0x2000 0 (some 0) = .ok (s, some 0) ∧
      (s.bkpt 0).address + 1 = 0x1001 ∧ s.breakpointFind (some 0x1001) = none := by
  refine ⟨(accepts_iff rfl (by decide)).mpr (by decide), by decide, _, rfl, by decide, by decide⟩

/-- The end of the text, which is not part of it, is accepted as well. -/
example : oneObject.Accepts 0 0x1000 0 := (accepts_iff rfl (by decide)).mpr (by decide)

end Profiler

end Atrace.Ptrace

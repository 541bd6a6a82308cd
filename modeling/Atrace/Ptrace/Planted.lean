import Atrace.Ptrace.BreakpointFind
import Atrace.Ptrace.Patches

/-! The memory of a profilee with breakpoints in it, and the memory that its program has. -/
namespace Atrace.Ptrace

open Atrace.Lib Signal

namespace Profiler

/-- The live breakpoint that is enabled at an address. -/
def hit (s : Profiler) (a : Word) : Option BkptPtr :=
  s.live.find? fun b => (s.bkpt b).enabled && (s.bkpt b).address == a

/-- The memory without the breakpoints. -/
def original (s : Profiler) : Memory 64 := fun a =>
  match s.hit a with
  | some b => s.savedByte b
  | none => s.mem a

/-- `object_load` has found objects that were not there. -/
def addObjects (s : Profiler) (objs : List Object) : Profiler :=
  { s with objects := s.objects ++ objs }

/-- Breakpoints at addresses of their own, all in `A`, and patched in where they are enabled. -/
structure Planted (A : Set Word) (s : Profiler) : Prop extends Chained s where
  distinct : Set.InjOn (fun b => (s.bkpt b).address) {b | b ∈ s.live}
  placed : ∀ b ∈ s.live, (s.bkpt b).address ∈ A
  on : ∀ b ∈ s.live, (s.bkpt b).enabled = true → s.mem (s.bkpt b).address = int3

variable {s s' : Profiler} {A : Set Word} {b c : BkptPtr} {a pc : Word} {attr : BitVec 32}

theorem hit_some (h : s.hit a = some b) :
    b ∈ s.live ∧ (s.bkpt b).enabled = true ∧ (s.bkpt b).address = a := by
  have hb := List.find?_some h
  rw [Bool.and_eq_true, beq_iff_eq] at hb
  exact ⟨List.mem_of_find?_eq_some h, hb⟩

theorem hit_none :
    s.hit a = none ↔ ∀ b ∈ s.live, (s.bkpt b).enabled = true → (s.bkpt b).address ≠ a := by
  simp [hit]

theorem original_of_hit (h : s.hit a = some b) : s.original a = s.savedByte b := by
  simp [original, h]

theorem original_of_not_hit (h : s.hit a = none) : s.original a = s.mem a := by
  simp [original, h]

/-- Without live breakpoints the program has the memory as it is. -/
theorem original_of_live_nil (h : s.live = []) : s.original = s.mem := by
  funext a
  exact original_of_not_hit (hit_none.mpr (by simp [h]))

/-- The loops of `breakpoint_find` return a breakpoint that is linked. -/
theorem findLoop_linked {objs : List Object} (h : s.findLoop pc objs = some c) :
    ∃ ob ∈ objs, c ∈ ob.breakpointChain := by
  induction objs with
  | nil => cases h
  | cons curr objs ih =>
    have hrest : s.findLoop pc objs = some c → ∃ ob ∈ curr :: objs, c ∈ ob.breakpointChain := by
      intro hloop
      obtain ⟨ob, hob, hc⟩ := ih hloop
      exact ⟨ob, List.mem_cons_of_mem _ hob, hc⟩
    unfold findLoop at h
    split at h
    · exact hrest h
    · split at h
      · rename_i bp hfind
        cases h
        exact ⟨curr, List.mem_cons_self, List.mem_of_find?_eq_some hfind⟩
      · exact hrest h

/-- What is said of links and addresses holds after a step that leaves them alone. -/
theorem Chained.frame (hi : Chained s) (hlive : s'.live = s.live) (hobjs : s'.objects = s.objects)
    (haddr : ∀ c, (s'.bkpt c).address = (s.bkpt c).address) : Chained s' := by
  refine ⟨?_, ?_, ?_, ?_, ?_⟩
  · rw [hlive]
    exact hi.live_nodup
  · rw [hobjs]
    exact hi.nodup
  · rw [hlive, hobjs]
    exact hi.linked
  · rw [hlive, hobjs]
    exact hi.live
  · intro i ob c hob hc
    rw [haddr c]
    rw [hobjs] at hob
    exact hi.inside i ob c hob hc

namespace Planted

variable (hi : Planted A s)
include hi

theorem hit_self (hb : b ∈ s.live) (hon : (s.bkpt b).enabled = true) :
    s.hit (s.bkpt b).address = some b := by
  cases hhit : s.hit (s.bkpt b).address with
  | none => exact (hit_none.mp hhit b hb hon rfl).elim
  | some c =>
    obtain ⟨hc, _, haddr⟩ := hit_some hhit
    exact congrArg some (hi.distinct hc hb haddr)

theorem hit_iff :
    s.hit a = some b ↔ b ∈ s.live ∧ (s.bkpt b).enabled = true ∧ (s.bkpt b).address = a := by
  constructor
  · exact hit_some
  · rintro ⟨hb, hon, rfl⟩
    exact hi.hit_self hb hon

/-- The program sees no difference at an address where the same breakpoint is enabled, or none. -/
theorem original_congr (hi' : Planted A s')
    (hhit : ∀ c, (c ∈ s'.live ∧ (s'.bkpt c).enabled = true ∧ (s'.bkpt c).address = a) ↔
      (c ∈ s.live ∧ (s.bkpt c).enabled = true ∧ (s.bkpt c).address = a))
    (hsaved : ∀ c, s.hit a = some c → s'.savedByte c = s.savedByte c)
    (hmem : s.hit a = none → s'.mem a = s.mem a) : s'.original a = s.original a := by
  cases hcase : s.hit a with
  | some c =>
    have hcase' : s'.hit a = some c := hi'.hit_iff.mpr ((hhit c).mpr (hi.hit_iff.mp hcase))
    rw [original_of_hit hcase, original_of_hit hcase', hsaved c hcase]
  | none =>
    have hcase' : s'.hit a = none := by
      refine hit_none.mpr fun c hc hon haddr => ?_
      obtain ⟨hc', hon', haddr'⟩ := (hhit c).mp ⟨hc, hon, haddr⟩
      exact hit_none.mp hcase c hc' hon' haddr'
    rw [original_of_not_hit hcase, original_of_not_hit hcase', hmem hcase]

/-- The address of a disabled breakpoint has no enabled one. -/
theorem hit_off (hb : b ∈ s.live) (hoff : (s.bkpt b).enabled = false) :
    s.hit (s.bkpt b).address = none := by
  refine hit_none.mpr fun c hc hon haddr => ?_
  obtain rfl := hi.distinct hc hb haddr
  exact absurd hon (by simp [hoff])

theorem hit_placed (h : s.hit a = some b) : a ∈ A := by
  obtain ⟨hb, _, rfl⟩ := hit_some h
  exact hi.placed b hb

theorem mem_of_hit (h : s.hit a = some b) : s.mem a = int3 := by
  obtain ⟨hb, hon, rfl⟩ := hit_some h
  exact hi.on b hb hon

theorem original_off (ha : a ∉ A) : s.mem a = s.original a := by
  cases hhit : s.hit a with
  | none => exact (original_of_not_hit hhit).symm
  | some b => exact (ha (hi.hit_placed hhit)).elim

/-- `breakpoint_find` returns the one breakpoint that is there. -/
theorem find_self (hb : b ∈ s.live) :
    s.breakpointFind (some ((s.bkpt b).address + 1)) = some b := by
  obtain ⟨c, hfind, haddr⟩ := hi.toChained.find hb
  have hloop := hfind
  rw [breakpointFind] at hloop
  split at hloop
  · cases hloop
  · obtain ⟨ob, hob, hc⟩ := findLoop_linked hloop
    obtain ⟨i, hiob⟩ := List.getElem?_of_mem hob
    rw [hfind, hi.distinct (hi.live i ob c hiob hc) hb haddr]

/-- Writing one byte where a breakpoint is, with its flag and the byte that it has saved. -/
theorem update (hb : b ∈ s.live) {bp : Breakpoint} {v : BitVec 8}
    (hmem : s'.mem = Function.update s.mem (s.bkpt b).address v)
    (hbkpt : s'.bkpt = Function.update s.bkpt b bp) (haddr : bp.address = (s.bkpt b).address)
    (hlive : s'.live = s.live) (hobjs : s'.objects = s.objects)
    (hon : bp.enabled = true →
      v = int3 ∧ bp.oriInstrction.setWidth 8 = s.original (s.bkpt b).address)
    (hoff : bp.enabled = false → v = s.original (s.bkpt b).address) :
    Planted A s' ∧ s'.original = s.original := by
  have hself : s'.bkpt b = bp := by rw [hbkpt, Function.update_self]
  have hother : ∀ c, c ≠ b → s'.bkpt c = s.bkpt c := by
    intro c hc
    rw [hbkpt, Function.update_of_ne hc]
  have haddrs : ∀ c, (s'.bkpt c).address = (s.bkpt c).address := by
    intro c
    by_cases hcb : c = b
    · rw [hcb, hself, haddr]
    · rw [hother c hcb]
  have hne : ∀ c ∈ s.live, c ≠ b → (s.bkpt c).address ≠ (s.bkpt b).address :=
    fun c hc hcb he => hcb (hi.distinct hc hb he)
  have hi' : Planted A s' := by
    refine ⟨hi.toChained.frame hlive hobjs haddrs, ?_, ?_, ?_⟩
    · rw [hlive]
      intro c hc d hd he
      exact hi.distinct hc hd (by simpa only [haddrs] using he)
    · rw [hlive]
      intro c hc
      rw [haddrs c]
      exact hi.placed c hc
    · rw [hlive]
      intro c hc hcon
      rw [haddrs c, hmem]
      by_cases hcb : c = b
      · subst c
        rw [hself] at hcon
        rw [Function.update_self, (hon hcon).1]
      · rw [hother c hcb] at hcon
        rw [Function.update_of_ne (hne c hc hcb), hi.on c hc hcon]
  refine ⟨hi', funext fun a => ?_⟩
  by_cases hab : a = (s.bkpt b).address
  · subst a
    have hb' : b ∈ s'.live := hlive ▸ hb
    rw [← haddrs b]
    cases hben : (s'.bkpt b).enabled with
    | true =>
      rw [original_of_hit (hi'.hit_self hb' hben), savedByte, hself]
      rw [hself] at hben
      rw [(hon hben).2, haddr]
    | false =>
      rw [original_of_not_hit (hi'.hit_off hb' hben), hmem, haddrs b, Function.update_self]
      rw [hself] at hben
      exact hoff hben
  · -- the other breakpoints have kept their flags
    have hnb : ∀ c, (s.bkpt c).address = a → s'.bkpt c = s.bkpt c := by
      intro c hca
      refine hother c ?_
      rintro rfl
      exact hab hca.symm
    refine hi.original_congr hi' (fun c => ?_) (fun c hc => ?_) fun _ => ?_
    · rw [hlive, haddrs c]
      by_cases hca : (s.bkpt c).address = a
      · rw [hnb c hca]
      · simp [hca]
    · rw [savedByte, savedByte, hnb c (hit_some hc).2.2]
    · rw [hmem, Function.update_of_ne hab]

theorem enable (hb : b ∈ s.live) :
    Planted A (s.breakpointEnable b) ∧ (s.breakpointEnable b).original = s.original := by
  cases hon : (s.bkpt b).enabled with
  | true =>
    rw [enable_of_enabled hon]
    exact ⟨hi, rfl⟩
  | false =>
    have hload : (s.peekText (s.bkpt b).address).setWidth 8 = s.original (s.bkpt b).address := by
      rw [original_of_not_hit (hi.hit_off hb hon)]
      exact Memory.setWidth_load (by omega)
    rw [enable_of_disabled hon]
    exact hi.update hb rfl rfl rfl rfl rfl (fun _ => ⟨rfl, hload⟩) (by simp)

theorem disable (hb : b ∈ s.live) :
    ∃ t, s.breakpointDisable b = .ok t ∧ (Planted A t ∧ t.original = s.original) ∧
      (t.bkpt b).enabled = false ∧ t.live = s.live ∧
      ∀ c, (t.bkpt c).address = (s.bkpt c).address := by
  cases hon : (s.bkpt b).enabled with
  | false => exact ⟨s, disable_of_disabled hon, ⟨hi, rfl⟩, hon, rfl, fun _ => rfl⟩
  | true =>
    have hsaved : s.original (s.bkpt b).address = (s.bkpt b).oriInstrction.setWidth 8 :=
      original_of_hit (hi.hit_self hb hon)
    rw [disable_of_enabled hon, if_pos (hi.on b hb hon)]
    refine ⟨_, rfl, hi.update hb rfl rfl rfl rfl rfl (by simp) fun _ => hsaved.symm, ?_, rfl, ?_⟩
    · simp
    · intro c
      by_cases hcb : c = b
      · subst c
        simp [Breakpoint.clrEnable]
      · simp [hcb]

/-- A breakpoint that is created without `BKPT_F_ENABLE`, where no other one is. -/
theorem create {o : ObjPtr} {obj : Object} {offset : Word} (hfresh : b ∉ s.live)
    (hobj : s.objects[o]? = some obj) (hc : Created s s' b (obj.textStart + offset) attr)
    (hobjs : s'.objects = (s.linkChain b o).objects)
    (hend : obj.textStart + offset ≤ obj.textEnd) (hexact : ExactSum obj offset)
    (hattr : hasFlag attr .ENABLE = false) (hplace : obj.textStart + offset ∈ A)
    (hnew : ∀ c ∈ s.live, (s.bkpt c).address ≠ obj.textStart + offset) :
    Planted A s' ∧ s'.original = s.original := by
  have hself : s'.bkpt b = ⟨obj.textStart + offset, 0, attr⟩ := by
    rw [hc.self, hattr]
    rfl
  have hmem : s'.mem = s.mem := by
    rw [hc.mem, hattr]
    rfl
  have hoff : (s'.bkpt b).enabled = false := by rw [hself, Breakpoint.enabled, hattr]
  have hold : ∀ c ∈ s'.live, c = b ∨ (c ∈ s.live ∧ s'.bkpt c = s.bkpt c) := by
    intro c hcl
    rw [hc.live] at hcl
    rcases List.mem_cons.mp hcl with rfl | hcl
    · exact Or.inl rfl
    · exact Or.inr ⟨hcl, hc.other c fun he => hfresh (he ▸ hcl)⟩
  have hi' : Planted A s' := by
    refine ⟨hi.toChained.create hfresh hobj hc hobjs hend hexact, ?_, ?_, ?_⟩
    · intro c hcl d hdl he
      rcases hold c hcl with rfl | ⟨hcs, hcb⟩ <;> rcases hold d hdl with rfl | ⟨hds, hdb⟩
      · rfl
      · simp only [hself, hdb] at he
        exact (hnew d hds he.symm).elim
      · simp only [hself, hcb] at he
        exact (hnew c hcs he).elim
      · simp only [hcb, hdb] at he
        exact hi.distinct hcs hds he
    · intro c hcl
      rcases hold c hcl with rfl | ⟨hcs, hcb⟩
      · rw [hself]
        exact hplace
      · rw [hcb]
        exact hi.placed c hcs
    · intro c hcl hon
      rcases hold c hcl with rfl | ⟨hcs, hcb⟩
      · exact absurd hon (by simp [hoff])
      · rw [hcb] at hon ⊢
        rw [hmem, hi.on c hcs hon]
  have hother : ∀ c ∈ s.live, s'.bkpt c = s.bkpt c :=
    fun c hcs => hc.other c fun he => hfresh (he ▸ hcs)
  refine ⟨hi', funext fun a => hi.original_congr hi' (fun c => ?_) (fun c hcase => ?_) fun _ => ?_⟩
  · constructor
    · rintro ⟨hcl, hon, haddr⟩
      rcases hold c hcl with rfl | ⟨hcs, hcb⟩
      · exact absurd hon (by simp [hoff])
      · exact ⟨hcs, hcb ▸ hon, hcb ▸ haddr⟩
    · rintro ⟨hcs, hon, haddr⟩
      rw [hother c hcs, hc.live]
      exact ⟨List.mem_cons_of_mem b hcs, hon, haddr⟩
  · rw [savedByte, savedByte, hother c (hit_some hcase).1]
  · rw [hmem]

/-- A breakpoint is taken out, then off the lists. -/
theorem delete (hb : b ∈ s.live) :
    ∃ t, s.breakpointDelete b = .ok t ∧ (Planted A t ∧ t.original = s.original) ∧
      t.live = s.live.erase b ∧ ∀ c, (t.bkpt c).address = (s.bkpt c).address := by
  obtain ⟨u, hu, ⟨hplanted, horig⟩, hoff, hlive, haddr⟩ := hi.disable hb
  have hrun : s.breakpointDelete b = .ok { u with
      objects := u.objects.map fun obj =>
        { obj with breakpointChain := obj.breakpointChain.erase b }
      live := u.live.erase b } := by
    rw [breakpointDelete, hu]
    rfl
  have hchained := hi.toChained.delete (delete_cases hrun).2 (delete_objects hrun)
  have hlive' : ∀ c, c ∈ u.live.erase b ↔ c ≠ b ∧ c ∈ u.live :=
    fun c => hplanted.live_nodup.mem_erase_iff
  have hi' : Planted A { u with
      objects := u.objects.map fun obj =>
        { obj with breakpointChain := obj.breakpointChain.erase b }
      live := u.live.erase b } := by
    refine ⟨hchained, ?_, ?_, ?_⟩
    · intro c hc d hd he
      exact hplanted.distinct ((hlive' c).mp hc).2 ((hlive' d).mp hd).2 he
    · exact fun c hc => hplanted.placed c ((hlive' c).mp hc).2
    · exact fun c hc hon => hplanted.on c ((hlive' c).mp hc).2 hon
  refine ⟨_, hrun, ⟨hi', ?_⟩, congrArg (List.erase · b) hlive, haddr⟩
  refine Eq.trans (funext fun a => ?_) horig
  refine hplanted.original_congr hi' (fun c => ?_) (fun _ _ => rfl) fun _ => rfl
  -- the breakpoint that goes has been disabled
  constructor
  · rintro ⟨hc, hrest⟩
    exact ⟨((hlive' c).mp hc).2, hrest⟩
  · rintro ⟨hc, hon, haddr⟩
    refine ⟨(hlive' c).mpr ⟨?_, hc⟩, hon, haddr⟩
    rintro rfl
    simp [hoff] at hon

theorem addObjects {objs : List Object} (h : ∀ ob ∈ objs, ob.breakpointChain = []) :
    Planted A (s.addObjects objs) := by
  have hget : ∀ (i : ObjPtr) (ob : Object), (s.objects ++ objs)[i]? = some ob →
      s.objects[i]? = some ob ∨ ob.breakpointChain = [] := by
    intro i ob hob
    rw [List.getElem?_append] at hob
    split at hob
    · exact Or.inl hob
    · exact Or.inr (h ob (List.mem_of_getElem? hob))
  have hlinked : ∀ (i : ObjPtr) (ob : Object) (b : BkptPtr), (s.objects ++ objs)[i]? = some ob →
      b ∈ ob.breakpointChain → s.objects[i]? = some ob := by
    intro i ob b hob hb
    rcases hget i ob hob with hob | hnil
    · exact hob
    · simp [hnil] at hb
  refine ⟨⟨hi.live_nodup, ?_, ?_, ?_, ?_⟩, hi.distinct, hi.placed, hi.on⟩
  · intro i ob hob
    rcases hget i ob hob with hob | hnil
    · exact hi.nodup i ob hob
    · simp [hnil]
  · intro b hb
    obtain ⟨i, ob, hob, hmem⟩ := hi.linked b hb
    refine ⟨i, ob, ?_, hmem⟩
    exact List.getElem?_append_left (List.getElem?_eq_some_iff.mp hob).1 ▸ hob
  · exact fun i ob b hob hb => hi.live i ob b (hlinked i ob b hob hb) hb
  · exact fun i ob b hob hb => hi.inside i ob b (hlinked i ob b hob hb) hb

end Planted

end Profiler

end Atrace.Ptrace

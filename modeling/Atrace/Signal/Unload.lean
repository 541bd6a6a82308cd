import Atrace.Lib.Run
import Atrace.Signal.AddressLookup
import Atrace.Signal.BreakpointAdd
import Atrace.Signal.BreakpointEnable

/-! The index, the chains and the registry over the calls of a session, `object_unload` among
them. -/
namespace Atrace.Signal

open Atrace.Lib Tracer

/-- The tracer, and the breakpoints whose `obj` points to an object that has been released. -/
structure Session where
  tracer : Tracer
  dangling : BkptPtr → Bool

namespace Session

/-- `object_unload`: the heads leave their chains and the objects the registry. What the index and
the breakpoints hold stays as it is. -/
def objectUnload (s : Session) : Session where
  tracer := { s.tracer with objects := [] }
  dangling b := s.dangling b || (s.tracer.bkpt b).obj.isSome

/-- The enter entry of the breakpoint is in the tree. -/
def Indexed (s : Session) (b : BkptPtr) : Prop :=
  (⟨b, .enter⟩ : BpEntry) ∈ s.tracer.index.root.entries

structure Consistent (s : Session) : Prop where
  alive : ∀ b, s.Indexed b → s.dangling b = false
  chained : ∀ b, s.Indexed b → ∃ o obj, (s.tracer.bkpt b).obj = some o ∧
    s.tracer.objects[o]? = some obj ∧ obj.breakpointChain.count b = 1
  indexed : ∀ obj ∈ s.tracer.objects, ∀ b ∈ obj.breakpointChain, s.Indexed b

end Session

inductive SessionCall where
  | load (maps : List UInt8)
  | add (b : BkptPtr) (news : List NewSlots)
  | enable (b : BkptPtr) (mp : Mprotect)
  | disable (b : BkptPtr) (mp : Mprotect)
  | unload

/-- The calls that return; a load that fails ends in `abort()`. Nothing is said of a call that
would follow a dangling pointer. -/
inductive SessionStep (rb : RbLib BpEntry) (self : Addr) :
    Session → SessionCall → Session → Prop where
  | load {s : Session} {maps : List UInt8} {objects : List Object}
      (h : objectParseMmap self s.tracer.objects maps = .ok (objects, 0)) :
      SessionStep rb self s (.load maps) { s with tracer := { s.tracer with objects := objects } }
  | add {s : Session} {b : BkptPtr} {news : List NewSlots} {t : Tracer}
      (h : s.tracer.breakpointAdd rb b news = .ok (t, 0)) :
      SessionStep rb self s (.add b news) ⟨t, Function.update s.dangling b false⟩
  | enable {s : Session} {b : BkptPtr} {mp : Mprotect} {t : Tracer} {code : Int}
      (hb : s.dangling b = false) (h : s.tracer.breakpointEnable b mp = .ok (t, code)) :
      SessionStep rb self s (.enable b mp) { s with tracer := t }
  | disable {s : Session} {b : BkptPtr} {mp : Mprotect} {t : Tracer} {code : Int}
      (hb : s.dangling b = false) (h : s.tracer.breakpointDisable b mp = .ok (t, code)) :
      SessionStep rb self s (.disable b mp) { s with tracer := t }
  | unload {s : Session} : SessionStep rb self s .unload s.objectUnload

/-- Nothing is loaded and no breakpoint has been added. -/
structure SessionInitial (s : Session) : Prop where
  objects : s.tracer.objects = []
  index : ∃ address, s.tracer.index = .init address
  obj : ∀ b, (s.tracer.bkpt b).obj = none
  dangling : ∀ b, s.dangling b = false

/-- An unload finds every chain empty. -/
def Session.UnloadsNothing (s : Session) : SessionCall → Prop
  | .unload => ∀ obj ∈ s.tracer.objects, obj.breakpointChain = []
  | _ => True

section Add

namespace Tracer

variable {rb : RbLib BpEntry} {s s' : Tracer} {b : BkptPtr} {news : List NewSlots}

/-- A call that returns 0 has passed the first three exits. -/
theorem add_passes (h : s.breakpointAdd rb b news = .ok (s', 0)) :
    s.chainEmpty b = true ∧ ∃ o, s.objectGetByAddress (s.enterAddr b) = some o ∧
      s.noBkpt o = false ∧ s.index.breakpointRbFindInternal (s.enterAddr b) = none := by
  have hb : s.chainEmpty b = true := by
    by_contra hne
    rw [breakpointAdd, if_neg hne] at h
    cases h
  refine ⟨hb, ?_⟩
  cases ho : s.objectGetByAddress (s.enterAddr b) with
  | none => cases h.symm.trans (add_noObject hb ho)
  | some o =>
    cases hno : s.noBkpt o with
    | true => cases h.symm.trans (add_noBkpt hb ho hno)
    | false =>
      cases hf : s.index.breakpointRbFindInternal (s.enterAddr b) with
      | some e => cases h.symm.trans (add_present hb ho hno hf)
      | none => exact ⟨o, rfl, hno, rfl⟩

/-- What a call that returns 0 has done to the index, the chains and the breakpoints. -/
structure Linked (s s' : Tracer) (b : BkptPtr) (o : ObjPtr) : Prop where
  found : o < s.objects.length
  chain : s.chainEmpty b = true
  wellFormed : s'.index.WellFormed
  self : s'.index.emptyNode ⟨b, .enter⟩ = false
  emptyNode : ∀ e, e.bkpt ≠ b → s'.index.emptyNode e = s.index.emptyNode e
  others : ∀ c, c ≠ b → s'.bkpt c = s.bkpt c
  obj : (s'.bkpt b).obj = some o
  objects : s'.objects = s.objects.modify o fun obj =>
    { obj with breakpointChain := b :: obj.breakpointChain }

theorem add_linked (ht : s.index.WellFormed)
    (hr : s.index.emptyNode ⟨b, .enter⟩ = true → s.index.emptyNode ⟨b, .ret⟩ = true)
    (h : s.breakpointAdd rb b news = .ok (s', 0)) : ∃ o, s.Linked s' b o := by
  obtain ⟨hchain, o, ho, hno, hf⟩ := add_passes h
  have henter := BpIndex.emptyNode_of_find_none ht hf
  have hlt : ∀ o, s.objectGetByAddress (s.enterAddr b) = some o → o < s.objects.length :=
    fun o ho => (List.findIdx?_eq_some_iff_getElem.mp ho).1
  cases hslot : (s.bkpt b).hasAttr .NO_SLOT with
  | true =>
    obtain ⟨t, hins, hrun⟩ := add_absent rb news ht hchain ho hno hf
    rw [hslot, if_pos rfl] at hrun
    cases h.symm.trans hrun
    refine ⟨o, hlt o ho, hchain, hins.wellFormed, ?_, ?_, ?_, ?_, rfl⟩
    · exact (congrFun hins.emptyNode _).trans (Function.update_self ..)
    · intro e he
      refine (congrFun hins.emptyNode _).trans (Function.update_of_ne ?_ ..)
      rintro rfl
      exact he rfl
    · intro c hc
      exact Function.update_of_ne hc ..
    · simp [linkChain, modifyBkpt_bkpt]
  | false =>
    rcases add_outcome news rb ht ⟨hchain, henter, hr henter⟩ with
      ⟨_, hc, _, h', _⟩ | ⟨_, h'⟩ | ⟨_, _, h', _, _⟩ | ⟨_, h', _⟩ | ⟨_, _, h', hs⟩
    · cases h.symm.trans h'
      exact absurd rfl hc
    · cases h.symm.trans h'
    · cases h.symm.trans h'
    · cases h.symm.trans h'
    · cases h.symm.trans h'
      obtain ⟨o', p, i, hs⟩ := hs hslot
      refine ⟨o', hlt o' hs.found, hchain, hs.wellFormed, ?_, ?_, ?_, ?_, hs.objects⟩
      · rw [hs.emptyNode, if_pos rfl]
      · intro e he
        rw [hs.emptyNode, if_neg he]
      · intro c hc
        rw [hs.bkpt, if_neg hc]
      · rw [hs.bkpt, if_pos rfl]

namespace Linked

variable {o j : ObjPtr} {obj : Object} {c : BkptPtr}

theorem getElem?_objects (h : s.Linked s' b o) (j : ObjPtr) : s'.objects[j]? =
    (s.objects[j]?).map fun obj =>
      if o = j then { obj with breakpointChain := b :: obj.breakpointChain } else obj := by
  rw [h.objects, List.getElem?_modify]
  split <;> rfl

theorem count_self (h : s.Linked s' b o) :
    ∃ obj, s'.objects[o]? = some obj ∧ obj.breakpointChain.count b = 1 := by
  obtain ⟨obj, hobj⟩ : ∃ obj, s.objects[o]? = some obj := ⟨_, List.getElem?_eq_getElem h.found⟩
  have hempty : ∀ obj ∈ s.objects, b ∉ obj.breakpointChain := by
    simpa [chainEmpty] using h.chain
  have hnone := List.count_eq_zero.mpr (hempty obj (List.mem_of_getElem? hobj))
  refine ⟨_, (h.getElem?_objects o).trans (congrArg _ hobj), ?_⟩
  simp [hnone]

theorem count_other (h : s.Linked s' b o) (hc : c ≠ b) (hj : s.objects[j]? = some obj) :
    ∃ obj', s'.objects[j]? = some obj' ∧
      obj'.breakpointChain.count c = obj.breakpointChain.count c := by
  refine ⟨_, (h.getElem?_objects j).trans (congrArg _ hj), ?_⟩
  dsimp only
  split
  · exact List.count_cons_of_ne (Ne.symm hc)
  · rfl

theorem mem_chain (h : s.Linked s' b o) :
    (∃ obj ∈ s'.objects, c ∈ obj.breakpointChain) ↔
      c = b ∨ ∃ obj ∈ s.objects, c ∈ obj.breakpointChain := by
  rw [h.objects]
  exact mem_chain_modify h.found b c

end Linked

end Tracer

end Add

/-- The index, chains and registry agree, and only added breakpoints have an object. -/
structure SessionInv (s : Session) : Prop where
  consistent : s.Consistent
  wellFormed : s.tracer.index.WellFormed
  ret : ∀ b, s.tracer.index.emptyNode ⟨b, .enter⟩ = true →
    s.tracer.index.emptyNode ⟨b, .ret⟩ = true
  obj : ∀ b, (s.tracer.bkpt b).obj ≠ none → s.Indexed b
  dangling : ∀ b, s.dangling b = false

variable {rb : RbLib BpEntry} {self : Addr} {s s' : Session} {t : Tracer} {b : BkptPtr}
  {o : ObjPtr} {e : SessionCall}

theorem indexed_iff (h : s.tracer.index.WellFormed) (b : BkptPtr) :
    s.Indexed b ↔ s.tracer.index.emptyNode ⟨b, .enter⟩ = false :=
  (h.linked ⟨b, .enter⟩).symm

namespace SessionInv

theorem load (hi : SessionInv s) {objects : List Object}
    (h : Extends s.tracer.objects objects) :
    SessionInv { s with tracer := { s.tracer with objects := objects } } := by
  obtain ⟨news, rfl, hnews⟩ := h
  refine ⟨⟨hi.consistent.alive, ?_, ?_⟩, hi.wellFormed, hi.ret, hi.obj, hi.dangling⟩
  · intro b hb
    obtain ⟨o, obj, hobj, ho, hcount⟩ := hi.consistent.chained b hb
    refine ⟨o, obj, hobj, ?_, hcount⟩
    exact (List.getElem?_append_left (List.getElem?_eq_some_iff.mp ho).1).trans ho
  · intro obj hobj b hb
    rcases List.mem_append.mp hobj with hobj | hobj
    · exact hi.consistent.indexed obj hobj b hb
    · rw [hnews obj hobj] at hb
      cases hb

/-- Setting a flag and writing the text leave the three structures alone. -/
theorem patched (hi : SessionInv s) {on : Bool} {v : Instr} (hp : s.tracer.Patched t b on v) :
    SessionInv { s with tracer := t } := by
  have hobj : ∀ c, (t.bkpt c).obj = (s.tracer.bkpt c).obj := fun c => (hp.slot_eq c).2.2
  have hindexed : ∀ c, Session.Indexed { s with tracer := t } c ↔ s.Indexed c := by
    intro c
    simp only [Session.Indexed, hp.index]
  refine ⟨⟨?_, ?_, ?_⟩, ?_, ?_, ?_, hi.dangling⟩
  · intro c hc
    exact hi.consistent.alive c ((hindexed c).mp hc)
  · intro c hc
    simpa only [hobj, hp.objects] using hi.consistent.chained c ((hindexed c).mp hc)
  · intro obj ho c hc
    rw [hp.objects] at ho
    exact (hindexed c).mpr (hi.consistent.indexed obj ho c hc)
  · rw [hp.index]
    exact hi.wellFormed
  · rw [hp.index]
    exact hi.ret
  · intro c hc
    rw [hobj] at hc
    exact (hindexed c).mpr (hi.obj c hc)

theorem linked (hi : SessionInv s) (h : s.tracer.Linked t b o) :
    SessionInv ⟨t, Function.update s.dangling b false⟩ := by
  have hdangling : ∀ c, Function.update s.dangling b false c = false := by
    intro c
    rw [Function.update_apply, hi.dangling, ite_self]
  have hself : Session.Indexed ⟨t, Function.update s.dangling b false⟩ b :=
    (indexed_iff h.wellFormed b).mpr h.self
  have hother : ∀ c, c ≠ b →
      (Session.Indexed ⟨t, Function.update s.dangling b false⟩ c ↔ s.Indexed c) := by
    intro c hc
    rw [indexed_iff h.wellFormed, indexed_iff hi.wellFormed]
    exact (h.emptyNode ⟨c, .enter⟩ hc).congr_left
  refine ⟨⟨fun c _ => hdangling c, ?_, ?_⟩, h.wellFormed, ?_, ?_, hdangling⟩
  · intro c hc
    by_cases hcb : c = b
    · subst c
      obtain ⟨obj, hobj, hcount⟩ := h.count_self
      exact ⟨o, obj, h.obj, hobj, hcount⟩
    · obtain ⟨j, obj, hcobj, hj, hcount⟩ := hi.consistent.chained c ((hother c hcb).mp hc)
      obtain ⟨obj', hj', hcount'⟩ := h.count_other hcb hj
      exact ⟨j, obj', (congrArg _ (h.others c hcb)).trans hcobj, hj', hcount'.trans hcount⟩
  · intro obj hobj c hc
    by_cases hcb : c = b
    · subst c
      exact hself
    · obtain ⟨obj', hobj', hc'⟩ := (h.mem_chain.mp ⟨obj, hobj, hc⟩).resolve_left hcb
      exact (hother c hcb).mpr (hi.consistent.indexed obj' hobj' c hc')
  · intro c hc
    have hcb : c ≠ b := by
      rintro rfl
      rw [h.self] at hc
      cases hc
    rw [h.emptyNode ⟨c, .enter⟩ hcb] at hc
    rw [h.emptyNode ⟨c, .ret⟩ hcb]
    exact hi.ret c hc
  · intro c hc
    by_cases hcb : c = b
    · subst c
      exact hself
    · rw [show t.bkpt c = s.tracer.bkpt c from h.others c hcb] at hc
      exact (hother c hcb).mpr (hi.obj c hc)

/-- If every chain is empty then no breakpoint is in the index. -/
theorem not_indexed (hi : SessionInv s)
    (h : ∀ obj ∈ s.tracer.objects, obj.breakpointChain = []) (b : BkptPtr) : ¬ s.Indexed b := by
  intro hb
  obtain ⟨o, obj, _, ho, hcount⟩ := hi.consistent.chained b hb
  rw [h obj (List.mem_of_getElem? ho)] at hcount
  cases hcount

theorem unload (hi : SessionInv s) (h : ∀ obj ∈ s.tracer.objects, obj.breakpointChain = []) :
    SessionInv s.objectUnload := by
  have hno := hi.not_indexed h
  refine ⟨⟨fun b hb => (hno b hb).elim, fun b hb => (hno b hb).elim, nofun⟩,
    hi.wellFormed, hi.ret, hi.obj, ?_⟩
  intro b
  have hobj : (s.tracer.bkpt b).obj = none := by
    by_contra hne
    exact hno b (hi.obj b hne)
  simp [Session.objectUnload, hi.dangling, hobj]

end SessionInv

theorem sessionInv_step (h : SessionStep rb self s e s') (hq : s.UnloadsNothing e)
    (hi : SessionInv s) : SessionInv s' := by
  cases h with
  | load h => exact hi.load (objectParseMmap_extends h)
  | add h =>
    obtain ⟨o, h⟩ := add_linked hi.wellFormed (hi.ret _) h
    exact hi.linked h
  | enable hb h =>
    rcases (enable_cases h).2 with ⟨rfl, _⟩ | hp
    · exact hi
    · exact hi.patched hp
  | disable hb h =>
    rcases (disable_cases h).2 with ⟨rfl, _⟩ | ⟨p, _, hp⟩
    · exact hi
    · exact hi.patched hp
  | unload => exact hi.unload hq

theorem sessionInv_initial (h : SessionInitial s) : SessionInv s := by
  obtain ⟨address, hindex⟩ := h.index
  have hwf : s.tracer.index.WellFormed := by
    rw [hindex]
    exact BpIndex.wellFormed_init address
  have hno : ∀ b, ¬ s.Indexed b := by
    intro b hb
    rw [indexed_iff hwf, hindex] at hb
    cases hb
  refine ⟨⟨fun b hb => (hno b hb).elim, fun b hb => (hno b hb).elim, ?_⟩, hwf, ?_, ?_,
    h.dangling⟩
  · rw [h.objects]
    nofun
  · intro b _
    rw [hindex]
    rfl
  · intro b hb
    exact (hb (h.obj b)).elim

/-- An unload with a breakpoint on some chain leaves it in the index, without its object. -/
theorem unload_leaves (hi : SessionInv s) (h : ¬ s.UnloadsNothing .unload) :
    ∃ b, s.objectUnload.Indexed b ∧ s.objectUnload.dangling b = true := by
  simp only [Session.UnloadsNothing, not_forall] at h
  obtain ⟨obj, hobj, hne⟩ := h
  obtain ⟨b, hb⟩ := List.exists_mem_of_ne_nil _ hne
  have hindexed := hi.consistent.indexed obj hobj b hb
  obtain ⟨o, _, ho, _⟩ := hi.consistent.chained b hindexed
  refine ⟨b, hindexed, ?_⟩
  simp [Session.objectUnload, ho]

/-- As long as unloads find every chain empty the three structures agree, and a step from there
keeps them so exactly if it is no other unload. -/
theorem unload_consistent {calls : List (Session × SessionCall)} {s₀ : Session}
    (h : Run (Traced (SessionStep rb self)) s₀ calls s) (h₀ : SessionInitial s₀)
    (hq : ∀ l ∈ calls, l.1.UnloadsNothing l.2) :
    s.Consistent ∧
      ∀ e s', SessionStep rb self s e s' → (s'.Consistent ↔ s.UnloadsNothing e) := by
  have hi : SessionInv s := by
    refine h.inv_of_labels ?_ hq (sessionInv_initial h₀)
    rintro t ⟨_, e⟩ u ⟨rfl, hstep⟩ hq hi
    exact sessionInv_step hstep hq hi
  refine ⟨hi.consistent, ?_⟩
  intro e s' hstep
  constructor
  · intro hc
    by_contra hne
    cases hstep with
    | load h => exact hne trivial
    | add h => exact hne trivial
    | enable hb h => exact hne trivial
    | disable hb h => exact hne trivial
    | unload =>
      obtain ⟨b, hb, hdangling⟩ := unload_leaves hi hne
      cases hdangling.symm.trans (hc.alive b hb)
  · intro hq
    exact (sessionInv_step hstep hq hi).consistent

/-- A breakpoint without a slot, at the start of the mapping that will be loaded. -/
def firstSession : Session where
  tracer :=
    { adjacentMappings with
      index := .init fun _ => 0x10000
      objects := []
      bkpt := fun _ => ⟨BkptAttr.NO_SLOT.flag, none, 0, none⟩ }
  dangling _ := false

theorem sessionInitial_firstSession : SessionInitial firstSession :=
  ⟨rfl, ⟨_, rfl⟩, fun _ => rfl, fun _ => rfl⟩

/-- The breakpoint is added after a load; before that an unload takes the load back. -/
theorem firstSession_run : ∃ s₁ s₂, SessionStep .unbalanced 0 firstSession
      (.load (renderMaps [libraryEntry])) s₁ ∧
    s₁.UnloadsNothing .unload ∧ s₁.objectUnload = firstSession ∧
    SessionStep .unbalanced 0 s₁ (.add 0 []) s₂ ∧ s₂.Indexed 0 ∧
      (s₂.tracer.bkpt 0).obj.isSome = true := by
  have hload : objectParseMmap 0 [] (renderMaps [libraryEntry]) =
      .ok ([newObject 0 libraryEntry.line], 0) := objectParseMmap_foldl 0 [] [libraryEntry]
  let t₁ : Tracer := { firstSession.tracer with objects := [newObject 0 libraryEntry.line] }
  have hwf : t₁.index.WellFormed := BpIndex.wellFormed_init _
  have hslot : (t₁.bkpt 0).hasAttr .NO_SLOT = true := by decide
  obtain ⟨t, hins, hadd⟩ := add_absent .unbalanced [] (o := 0) (b := 0) hwf rfl rfl rfl rfl
  rw [hslot, if_pos rfl] at hadd
  obtain ⟨o, hlinked⟩ := add_linked hwf (fun _ => rfl) hadd
  refine ⟨_, _, .load hload, ?_, rfl, .add hadd, ?_, ?_⟩
  · rintro obj hobj
    obtain rfl := List.mem_singleton.mp hobj
    rfl
  · exact (indexed_iff hlinked.wellFormed 0).mpr hlinked.self
  · exact (congrArg Option.isSome hlinked.obj).trans rfl

/-- An unload of a library without breakpoints, and a breakpoint in the library loaded again. -/
theorem unload_consistent_added : ∃ (calls : List (Session × SessionCall)) (s : Session),
    calls.map Prod.snd = [.load (renderMaps [libraryEntry]), .unload,
      .load (renderMaps [libraryEntry]), .add 0 []] ∧
    Run (Traced (SessionStep .unbalanced 0)) firstSession calls s ∧ s.Indexed 0 ∧
      s.Consistent ∧ ¬ s.objectUnload.Consistent := by
  obtain ⟨s₁, s₂, hload, hnothing, hback, hadd, hindexed, _⟩ := firstSession_run
  have hunload : SessionStep .unbalanced 0 s₁ .unload firstSession := hback ▸ .unload
  have hrun : Run (Traced (SessionStep .unbalanced 0)) firstSession
      [(firstSession, .load (renderMaps [libraryEntry])), (s₁, .unload),
        (firstSession, .load (renderMaps [libraryEntry])), (s₁, .add 0 [])] s₂ :=
    .stepL ⟨rfl, hload⟩ (.stepL ⟨rfl, hunload⟩ (.stepL ⟨rfl, hload⟩ (.stepL ⟨rfl, hadd⟩ .refl)))
  obtain ⟨hc, hnext⟩ := unload_consistent hrun sessionInitial_firstSession
    (by simpa [Session.UnloadsNothing] using hnothing)
  refine ⟨_, s₂, rfl, hrun, hindexed, hc, ?_⟩
  -- the breakpoint is on a chain, so the next unload is another matter
  rw [hnext .unload _ .unload]
  intro hempty
  obtain ⟨o, obj, _, ho, hcount⟩ := hc.chained 0 hindexed
  rw [hempty obj (List.mem_of_getElem? ho)] at hcount
  cases hcount

/-- Load, add, unload: the breakpoint is still in the index, its object is gone. -/
theorem unload_leaves_indexed : ∃ (calls : List SessionCall) (s : Session),
    SessionInitial firstSession ∧ Run (SessionStep .unbalanced 0) firstSession calls s ∧
      s.tracer.objects = [] ∧ s.Indexed 0 ∧ s.dangling 0 = true ∧ ¬ s.Consistent := by
  obtain ⟨s₁, s₂, hload, _, _, hadd, hindexed, hobj⟩ := firstSession_run
  have hdangling : s₂.objectUnload.dangling 0 = true := by
    simp [Session.objectUnload, hobj]
  refine ⟨_, _, sessionInitial_firstSession,
    .stepL hload (.stepL hadd (.stepL .unload .refl)), rfl, hindexed, hdangling, ?_⟩
  intro hc
  cases hdangling.symm.trans (hc.alive 0 hindexed)

end Atrace.Signal

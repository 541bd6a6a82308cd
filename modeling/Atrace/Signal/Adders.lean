import Atrace.Signal.BreakpointAdd
import Atrace.Signal.TextInv

/-! Any number of threads, each in one call of `breakpoint_add` for a breakpoint of its own. -/
namespace Atrace.Signal

open Atrace.Lib Tracer

/-- The threads `κ` with the tracer they share, and what their calls have returned. -/
structure Adders (κ : Type*) where
  control : Control κ
  result : κ → Option Int

namespace Tracer

/-- What a call returns that ends at this point. -/
def exitCode (s : Tracer) : Stage → Int
  | .addLookup b => if (s.objectGetByAddress (s.enterAddr b)).isNone then -1 else -2
  | .addInsert _ _ => -3
  | .addFree _ => -4
  | _ => 0

/-- How often a breakpoint is on the chain of an object. -/
def chainCount (s : Tracer) (o : ObjPtr) (b : BkptPtr) : Nat :=
  (s.objects[o]?.map (·.breakpointChain.count b)).getD 0

end Tracer

variable {κ : Type*} [DecidableEq κ]

/-- A thread calls `breakpoint_add` once, for the breakpoint `arg` gives it. -/
inductive AddersStep (rb : RbLib BpEntry) (code : Addr → Prop) (arg : κ → BkptPtr) :
    Adders κ → κ → Adders κ → Prop where
  | call {m : Adders κ} {t : κ} (hst : m.control.stage t = .idle) (hres : m.result t = none)
      (hchain : m.control.tracer.chainEmpty (arg t) = true) :
      AddersStep rb code arg m t { m with control := m.control.move t (.addLock (arg t)) }
  | work {m : Adders κ} {t : κ} {k : Control κ} (hst : m.control.stage t ≠ .idle)
      (h : ControlStep rb code m.control t k) (hk : k.stage t ≠ .idle) :
      AddersStep rb code arg m t { m with control := k }
  | finish {m : Adders κ} {t : κ} {k : Control κ} (hst : m.control.stage t ≠ .idle)
      (h : ControlStep rb code m.control t k) (hk : k.stage t = .idle) :
      AddersStep rb code arg m t ⟨k, Function.update m.result t
        (some (m.control.tracer.exitCode (m.control.stage t)))⟩

namespace Tracer

variable {s s' s'' s₀ : Tracer} {b c : BkptPtr} {o : ObjPtr} {a : Addr} {p : SlotSetPtr} {i : Nat}
  {code : Addr → Prop}

/-- What no call takes back. -/
structure Later (s s' : Tracer) : Prop where
  enterAddr : ∀ b, s'.enterAddr b = s.enterAddr b
  noSlot : ∀ b, (s'.bkpt b).hasAttr .NO_SLOT = (s.bkpt b).hasAttr .NO_SLOT
  lookup : ∀ a, s'.objectGetByAddress a = s.objectGetByAddress a
  noBkpt : ∀ o, s'.noBkpt o = s.noBkpt o
  linked : ∀ e, s.index.emptyNode e = false → s'.index.emptyNode e = false
  kept : ∀ p ∈ s.slots.slotSets, p ∈ s'.slots.slotSets ∧
    ∀ i, (s'.slots.slotSet p).slotOffset i = (s.slots.slotSet p).slotOffset i

/-- What a step of the call that adds `b` leaves alone. -/
structure Others (s s' : Tracer) (b : BkptPtr) : Prop extends Later s s' where
  bkpt : ∀ c, c ≠ b → s'.bkpt c = s.bkpt c
  emptyNode : ∀ c kind, c ≠ b → s'.index.emptyNode ⟨c, kind⟩ = s.index.emptyNode ⟨c, kind⟩
  returnAddr : ∀ c, c ≠ b → s'.returnAddr c = s.returnAddr c
  chain : ∀ c o, c ≠ b → s'.chainCount o c = s.chainCount o c

theorem later_refl (s : Tracer) : Later s s :=
  ⟨fun _ => rfl, fun _ => rfl, fun _ => rfl, fun _ => rfl, fun _ h => h,
    fun _ h => ⟨h, fun _ => rfl⟩⟩

theorem Later.trans (h : Later s s') (h' : Later s' s'') : Later s s'' := by
  refine ⟨?_, ?_, ?_, ?_, ?_, ?_⟩
  · exact fun b => (h'.enterAddr b).trans (h.enterAddr b)
  · exact fun b => (h'.noSlot b).trans (h.noSlot b)
  · exact fun a => (h'.lookup a).trans (h.lookup a)
  · exact fun o => (h'.noBkpt o).trans (h.noBkpt o)
  · exact fun e he => h'.linked e (h.linked e he)
  · intro p hp
    obtain ⟨hp', hoff⟩ := h.kept p hp
    obtain ⟨hp'', hoff'⟩ := h'.kept p hp'
    exact ⟨hp'', fun i => (hoff' i).trans (hoff i)⟩

section Others

theorem Later.others (h : Later s s') (hbkpt : s'.bkpt = s.bkpt) (hindex : s'.index = s.index)
    (hobjects : s'.objects = s.objects) (b : BkptPtr) : Others s s' b := by
  refine ⟨h, ?_, ?_, ?_, ?_⟩
  · exact fun c _ => congrFun hbkpt c
  · intro c kind _
    rw [hindex]
  · intro c _
    rw [Tracer.returnAddr, hindex]
    rfl
  · intro c o _
    rw [chainCount, hobjects]
    rfl

theorem others_refl (s : Tracer) (b : BkptPtr) : Others s s b :=
  (later_refl s).others rfl rfl rfl b

theorem Others.trans (h : Others s s' b) (h' : Others s' s'' b) : Others s s'' b := by
  refine ⟨h.toLater.trans h'.toLater, ?_, ?_, ?_, ?_⟩
  · exact fun c hc => (h'.bkpt c hc).trans (h.bkpt c hc)
  · exact fun c kind hc => (h'.emptyNode c kind hc).trans (h.emptyNode c kind hc)
  · exact fun c hc => (h'.returnAddr c hc).trans (h.returnAddr c hc)
  · exact fun c o hc => (h'.chain c o hc).trans (h.chain c o hc)

theorem others_mem (s : Tracer) (b : BkptPtr) (mem : Memory 64) :
    Others s { s with mem := mem } b := by
  have h : Later s { s with mem := mem } := ⟨fun _ => rfl, fun _ => rfl, fun _ => rfl, fun _ => rfl,
    fun _ h => h, fun _ h => ⟨h, fun _ => rfl⟩⟩
  exact h.others rfl rfl rfl b

theorem others_setReturnAddr (s : Tracer) (b : BkptPtr) (a : Addr) :
    Others s (s.setReturnAddr b a) b := by
  refine ⟨⟨?_, fun _ => rfl, fun _ => rfl, fun _ => rfl, fun _ h => h, fun _ h => ⟨h, fun _ => rfl⟩⟩,
    fun _ _ => rfl, fun _ _ _ => rfl, ?_, fun _ _ _ => rfl⟩
  · intro c
    exact Function.update_of_ne (by simp) ..
  · intro c hc
    exact Function.update_of_ne (by simp [hc]) ..

theorem others_setIndex {x : BpIndex BpEntry} {kind : EntryKind}
    (hins : s.index.Inserted x ⟨b, kind⟩) : Others s (s.setIndex x) b := by
  refine ⟨⟨?_, fun _ => rfl, fun _ => rfl, fun _ => rfl, ?_, fun _ h => ⟨h, fun _ => rfl⟩⟩,
    fun _ _ => rfl, ?_, ?_, fun _ _ _ => rfl⟩
  · intro c
    exact congrFun hins.address _
  · intro e he
    refine (congrFun hins.emptyNode e).trans ?_
    rw [Function.update_apply, he]
    exact ite_self false
  · intro c k hc
    exact (congrFun hins.emptyNode _).trans (Function.update_of_ne (by simp [hc]) ..)
  · intro c _
    exact congrFun hins.address _

theorem others_grow {new : NewSlots} (hnew : new.ptr ∉ s.slots.slotSets) (b : BkptPtr) :
    Others s (s.setSlots (s.slots.slotSetAdd new)) b := by
  have h : Later s (s.setSlots (s.slots.slotSetAdd new)) := by
    refine ⟨fun _ => rfl, fun _ => rfl, fun _ => rfl, fun _ => rfl, fun _ h => h, ?_⟩
    intro p hp
    refine ⟨List.mem_cons_of_mem _ hp, fun i => ?_⟩
    exact congrArg (·.slotOffset i) (slotSetAdd_slotSet fun he => hnew (he ▸ hp))
  exact h.others rfl rfl rfl b

theorem others_takeSlot {slots : SlotHeap} (ht : SlotTaken code s.slots slots p i) (b : BkptPtr) :
    Others s (s.takeSlot b slots p i) b := by
  have hself := (modifyBkpt_bkpt (s.setSlots slots) b
    ({ · with slotSet := some p, slotIndex := i }) b).trans (if_pos rfl)
  have hother : ∀ c, c ≠ b → (s.takeSlot b slots p i).bkpt c = s.bkpt c :=
    fun c hc => (modifyBkpt_bkpt ..).trans (if_neg hc)
  refine ⟨⟨fun _ => rfl, ?_, fun _ => rfl, fun _ => rfl, fun _ h => h,
    fun q hq => ⟨ht.kept q hq, ht.offset q hq⟩⟩, hother, fun _ _ _ => rfl, fun _ _ => rfl,
    fun _ _ _ => rfl⟩
  intro c
  by_cases hc : c = b
  · subst c
    exact congrArg (·.hasAttr .NO_SLOT) hself
  · rw [hother c hc]

theorem chainEmpty_iff : s.chainEmpty b = true ↔ ∀ o, s.chainCount o b = 0 := by
  simp only [chainEmpty, List.all_eq_true, decide_eq_true_eq]
  constructor
  · intro h o
    rw [chainCount]
    cases ho : s.objects[o]? with
    | none => rfl
    | some obj => exact List.count_eq_zero.mpr (h obj (List.mem_of_getElem? ho))
  · intro h obj hobj
    obtain ⟨o, ho⟩ := List.mem_iff_getElem?.mp hobj
    have hcount := h o
    rw [chainCount, ho] at hcount
    exact List.count_eq_zero.mp hcount

theorem chainCount_linkChain (ho : o < s.objects.length) (c : BkptPtr) (x : ObjPtr) :
    (s.linkChain b o).chainCount x c = s.chainCount x c + if x = o ∧ c = b then 1 else 0 := by
  rw [chainCount, chainCount, linkChain, List.getElem?_modify]
  cases hx : s.objects[x]? with
  | none =>
    have hne : x ≠ o := by
      rintro rfl
      simp [ho] at hx
    simp [hne]
  | some obj =>
    by_cases hxo : o = x
    · subst x
      by_cases hc : c = b
      · simp [hc]
      · simp [hc, List.count_cons_of_ne (Ne.symm hc)]
    · simp [hxo, Ne.symm hxo]

theorem others_linkChain (ho : o < s.objects.length) (b : BkptPtr) :
    Others s (s.linkChain b o) b := by
  have hsame := same_linkChain s b o
  refine ⟨⟨fun _ => rfl, hsame.noSlot, hsame.objects, ?_, fun _ h => h,
    fun _ h => ⟨h, fun _ => rfl⟩⟩, ?_, fun _ _ _ => rfl, fun _ _ => rfl, ?_⟩
  · intro x
    rw [noBkpt, noBkpt, linkChain, List.getElem?_modify]
    cases s.objects[x]? with
    | none => rfl
    | some obj =>
      by_cases hx : o = x
      · simp [hx, Object.hasAttr]
      · simp [hx]
  · exact fun c hc => (modifyBkpt_bkpt s b ({ · with obj := some o }) c).trans (if_neg hc)
  · intro c x hc
    simp [chainCount_linkChain ho, hc]

end Others

end Tracer

end Atrace.Signal

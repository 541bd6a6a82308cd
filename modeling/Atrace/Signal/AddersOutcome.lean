import Atrace.Signal.AddersProgress

/-! One call wins each address: the outcome of concurrent calls of `breakpoint_add`. -/
namespace Atrace.Signal

open Atrace.Lib Tracer

variable {κ : Type*} {rb : RbLib BpEntry} {code : Addr → Prop} {arg : κ → BkptPtr}
  {s₀ : Tracer} {b c : BkptPtr} {o : ObjPtr} {t u : κ} {m m₀ : Adders κ} {ts : List κ}

namespace Tracer

/-- A slot that is taken, with the return entry at its second word in the index. -/
structure SlotLinked (s : Tracer) (b : BkptPtr) (p : SlotSetPtr) : Prop where
  slotSet : (s.bkpt b).slotSet = some p
  listed : p ∈ s.slots.slotSets
  taken : (s.slots.slotSet p).isFree (s.bkpt b).slotIndex = false
  returnAddr : s.returnAddr b = (s.slots.slotSet p).slotOffset (s.bkpt b).slotIndex + 4
  find : s.breakpointFind (s.returnAddr b) = some b

end Tracer

/-- What the calls have done when all of them have returned. -/
structure Registered (s₀ s : Tracer) (arg : κ → BkptPtr) (result : κ → Option Int) : Prop where
  enterAddr : ∀ b, s.enterAddr b = s₀.enterAddr b
  winner : ∀ t, s₀.index.breakpointRbFind (s₀.enterAddr (arg t)) = none →
    ∃! u, s₀.enterAddr (arg u) = s₀.enterAddr (arg t) ∧ result u = some 0
  code : ∀ t, result t = some (-3) ∨
    (result t = some 0 ∧ s₀.index.breakpointRbFind (s₀.enterAddr (arg t)) = none)
  find : ∀ t, result t = some 0 → s.breakpointFind (s.enterAddr (arg t)) = some (arg t)
  slot : ∀ t, result t = some 0 → s₀.slotBacked (arg t) = true → ∃ p, s.SlotLinked (arg t) p
  distinct : ∀ t u, result t = some 0 → s₀.slotBacked (arg t) = true → result u = some 0 →
    s₀.slotBacked (arg u) = true → t ≠ u → s.returnAddr (arg t) ≠ s.returnAddr (arg u) ∧
      ((s.bkpt (arg t)).slotSet, (s.bkpt (arg t)).slotIndex) ≠
        ((s.bkpt (arg u)).slotSet, (s.bkpt (arg u)).slotIndex)
  chain : ∀ t, result t = some 0 → ∃ o, s₀.Found (arg t) o ∧ (s.bkpt (arg t)).obj = some o ∧
    ∀ x, s.chainCount x (arg t) = if x = o then 1 else 0
  loser : ∀ t, result t = some (-3) → (∀ a, s.breakpointFind a ≠ some (arg t)) ∧
    s.chainEmpty (arg t) = true ∧ (s.bkpt (arg t)).slotSet = none

namespace AddersInv

/-- A call that has returned has won or lost. -/
theorem settled (hi : AddersInv s₀ code arg m) (hres : m.result t ≠ none) :
    (m.result t = some 0 ∧ Won s₀ m.control.tracer (arg t)) ∨
      (m.result t = some (-3) ∧ Lost s₀ m.control.tracer (arg t)) := by
  have hst : m.control.stage t = .idle := by
    by_contra hst
    exact hres (hi.result_of_stage hst)
  rcases hi.callOk hst with ⟨hnone, _⟩ | hwon | hlost
  · exact (hres hnone).elim
  · exact Or.inl hwon
  · exact Or.inr hlost

theorem won (hi : AddersInv s₀ code arg m) (hres : m.result t = some 0) :
    Won s₀ m.control.tracer (arg t) := by
  rcases hi.settled (t := t) (by simp [hres]) with ⟨_, hwon⟩ | ⟨hlost, _⟩
  · exact hwon
  · cases hres.symm.trans hlost

theorem lost (hi : AddersInv s₀ code arg m) (hres : m.result t = some (-3)) :
    Lost s₀ m.control.tracer (arg t) := by
  rcases hi.settled (t := t) (by simp [hres]) with ⟨hwon, _⟩ | ⟨_, hlost⟩
  · cases hres.symm.trans hwon
  · exact hlost

theorem find_linked (hi : AddersInv s₀ code arg m) {e : BpEntry}
    (he : m.control.tracer.index.emptyNode e = false) :
    m.control.tracer.index.breakpointRbFind (m.control.tracer.index.address e) = some e :=
  (BpIndex.find_eq_some_iff hi.wellFormed).mpr ⟨(hi.wellFormed.linked e).mp he, rfl⟩

/-- Two breakpoints in the index are at two addresses. -/
theorem enter_unique (hi : AddersInv s₀ code arg m)
    (hb : m.control.tracer.index.emptyNode ⟨b, .enter⟩ = false)
    (hc : m.control.tracer.index.emptyNode ⟨c, .enter⟩ = false)
    (he : s₀.enterAddr b = s₀.enterAddr c) : b = c := by
  have haddr : m.control.tracer.enterAddr b = m.control.tracer.enterAddr c := by
    rw [hi.later.enterAddr, hi.later.enterAddr, he]
  have hfind := hi.find_linked hb
  rw [show m.control.tracer.index.address ⟨b, .enter⟩ = _ from haddr] at hfind
  exact (BpEntry.mk.inj (Option.some.inj (hfind.symm.trans (hi.find_linked hc)))).1

theorem won_unique (hi : AddersInv s₀ code arg m) (hinj : Function.Injective arg)
    (ht : m.result t = some 0) (hu : m.result u = some 0)
    (he : s₀.enterAddr (arg t) = s₀.enterAddr (arg u)) : t = u := by
  obtain ⟨_, _, _, hs⟩ := hi.won ht
  obtain ⟨_, _, _, hs'⟩ := hi.won hu
  exact hinj (hi.enter_unique hs.enter hs'.enter he)

/-- An address that a call has won was free. -/
theorem absent_of_won (hi₀ : AddersInv s₀ code arg m₀) (hm₀ : m₀.control.tracer = s₀)
    (hi : AddersInv s₀ code arg m) (hc : Callers s₀ code arg) (hfresh : ∀ t, s₀.Fresh (arg t))
    (hres : m.result t = some 0) : s₀.index.breakpointRbFind (s₀.enterAddr (arg t)) = none := by
  subst hm₀
  by_contra hne
  obtain ⟨e, hf⟩ := Option.ne_none_iff_exists'.mp hne
  obtain ⟨_, hlinked, he⟩ := hi₀.enter_of_find (hc.touches t) hf
  obtain ⟨_, _, _, hs⟩ := hi.won hres
  have hsame := hi.enter_unique (hi.later.linked _ hlinked) hs.enter he
  rw [hsame] at hlinked
  exact absurd ((hfresh t).enter.symm.trans hlinked) (by decide)

/-- A free address with a call is won by some call. -/
theorem exists_won (hi : AddersInv s₀ code arg m) (hwf : s₀.index.WellFormed)
    (hres : ∀ t, m.result t ≠ none)
    (hnone : s₀.index.breakpointRbFind (s₀.enterAddr (arg t)) = none) :
    ∃ u, s₀.enterAddr (arg u) = s₀.enterAddr (arg t) ∧ m.result u = some 0 := by
  rcases hi.settled (hres t) with ⟨hwon, _⟩ | ⟨_, _, c, hlinked, he⟩
  · exact ⟨t, rfl, hwon⟩
  -- the breakpoint that was found first is not older, so it belongs to another call
  rcases (hi.entered c hlinked).2 with hold | ⟨u, rfl⟩
  · have hfind := (BpIndex.find_eq_some_iff hwf).mpr ⟨(hwf.linked ⟨c, .enter⟩).mp hold, he⟩
    cases hnone.symm.trans hfind
  · rcases hi.settled (hres u) with ⟨hwon, _⟩ | ⟨_, hs, _⟩
    · exact ⟨u, he, hwon⟩
    · exact absurd (hs.enter.symm.trans hlinked) (by decide)

theorem slotLinked (hi : AddersInv s₀ code arg m) (hb : s₀.slotBacked (arg t) = true)
    (hres : m.result t = some 0) : ∃ p, m.control.tracer.SlotLinked (arg t) p := by
  obtain ⟨_, _, _, hs⟩ := hi.won hres
  rw [hb] at hs
  obtain ⟨a, ha, hret⟩ := hi.returned _ hs.ret
  obtain ⟨p, hp, rfl⟩ := slotAddr_eq_ok_iff.mp ha
  obtain ⟨hlisted, hlt⟩ := hi.listed _ hp
  have htaken := (hi.alloc.bit p hlisted _ hlt).mpr (hi.owned.live _ p hp)
  exact ⟨p, hp, hlisted, htaken, hret, congrArg (Option.map BpEntry.bkpt) (hi.find_linked hs.ret)⟩

theorem registered (h₀ : AddersInitial code arg m₀)
    (hi : AddersInv m₀.control.tracer code arg m) (hres : ∀ t, m.result t ≠ none) :
    Registered m₀.control.tracer m.control.tracer arg m.result := by
  have hc := h₀.callers
  refine ⟨hi.later.enterAddr, ?_, ?_, ?_, ?_, ?_, ?_, ?_⟩
  · intro t hnone
    obtain ⟨u, he, hu⟩ := hi.exists_won h₀.wellFormed hres hnone
    refine ⟨u, ⟨he, hu⟩, ?_⟩
    rintro v ⟨he', hv⟩
    exact hi.won_unique hc.inj hv hu (he'.trans he.symm)
  · intro t
    rcases hi.settled (hres t) with ⟨hwon, _⟩ | ⟨hlost, _⟩
    · exact Or.inr ⟨hwon, absent_of_won (addersInv_initial h₀) rfl hi hc h₀.fresh hwon⟩
    · exact Or.inl hlost
  · intro t ht
    obtain ⟨_, _, _, hs⟩ := hi.won ht
    exact congrArg (Option.map BpEntry.bkpt) (hi.find_linked hs.enter)
  · exact fun t ht hb => hi.slotLinked hb ht
  · intro t u ht hb hu hb' hne
    obtain ⟨_, _, _, hs⟩ := hi.won ht
    obtain ⟨_, _, _, hs'⟩ := hi.won hu
    rw [hb] at hs
    rw [hb'] at hs'
    constructor
    · intro he
      exact hne (hc.inj (hi.returnAddr_inj (hi.returned _ hs.ret) (hi.returned _ hs'.ret) he))
    · intro he
      obtain ⟨hset, hindex⟩ := Prod.mk.inj he
      obtain ⟨p, hp⟩ := Option.isSome_iff_exists.mp hs.slot
      exact hne (hc.inj (hi.owned.distinct _ _ p hp (hset ▸ hp) hindex))
  · intro t ht
    obtain ⟨o, hfound, hobj, hs⟩ := hi.won ht
    refine ⟨o, hfound, hobj, fun x => ?_⟩
    rw [hs.chain]
    simp [eq_comm]
  · intro t ht
    obtain ⟨hs, _⟩ := hi.lost ht
    refine ⟨?_, hs.chainEmpty, Option.isSome_eq_false_iff.mp hs.slot |> Option.isNone_iff_eq_none.mp⟩
    exact hidden_of_notAdded hi.wellFormed ⟨hs.chainEmpty, hs.enter, hs.ret⟩

end AddersInv

/-- Whatever the order of their locked sections, calls of `breakpoint_add` for breakpoints of their
own come to an end, unless the memory for slots runs out. Then each free address has been won by
one call, and the other calls have left nothing behind. -/
theorem breakpointAdd_concurrent [DecidableEq κ] [Fintype κ] (h₀ : AddersInitial code arg m₀)
    (h : Run (AddersStep rb code arg) m₀ ts m) :
    ((∀ t, m.result t ≠ none) → Registered m₀.control.tracer m.control.tracer arg m.result) ∧
    ((∀ t, m.result t ≠ none) ∨ m.Exhausted code ∨ ∃ t m', AddersStep rb code arg m t m') ∧
    ¬ RunsForever (AddersStep rb code arg) m₀ := by
  have hi := addersInv_run h h₀
  refine ⟨hi.registered h₀, ?_, adders_terminate h₀⟩
  by_cases hres : ∀ t, m.result t ≠ none
  · exact Or.inl hres
  by_cases hmem : m.Exhausted code
  · exact Or.inr (Or.inl hmem)
  obtain ⟨t, ht⟩ := not_forall.mp hres
  exact Or.inr (Or.inr (adders_progress rb h₀.callers hi (not_not.mp ht) hmem))

/-- The threads may then add further breakpoints in the same way. -/
theorem addersInitial_again {arg' : κ → BkptPtr} (hi : AddersInv s₀ code arg m)
    (hres : ∀ t, m.result t ≠ none) (hc : Callers m.control.tracer code arg')
    (hfresh : ∀ t, m.control.tracer.Fresh (arg' t)) :
    AddersInitial code arg' ⟨m.control, fun _ => none⟩ := by
  refine ⟨hc, hi.wellFormed, hi.layout, hi.alloc, hi.owned, hi.returned, ?_, hfresh, ?_,
    fun _ => rfl⟩
  · intro b hb
    rw [hi.later.enterAddr]
    exact (hi.entered b hb).1
  · intro t
    by_contra hst
    exact hres t (hi.result_of_stage hst)

/-- A word inside a mapping. -/
def Tracer.IsInstr (s : Tracer) (w : Addr) : Prop :=
  ∃ obj ∈ s.objects, obj.textStart.toNat ≤ w.toNat ∧ w.toNat + 4 ≤ obj.textEnd.toNat

/-- With mappings of at least a word, it is enough that slots lie outside them. -/
theorem touches_of_found {s : Tracer}
    (hsize : ∀ obj ∈ s.objects, obj.textStart.toNat + 4 ≤ obj.textEnd.toNat)
    (h : s.Found b o) : Touches s.IsInstr (s.enterAddr b) := by
  obtain ⟨hlt, hcovers, _⟩ := List.findIdx?_eq_some_iff_getElem.mp h.1
  have hobj := List.getElem_mem hlt
  have hsize := hsize _ hobj
  simp only [Object.covers, Bool.and_eq_true, decide_eq_true_eq, BitVec.le_def] at hcovers
  by_cases hin : (s.enterAddr b).toNat + 4 ≤ s.objects[o].textEnd.toNat
  · exact ⟨s.enterAddr b, ⟨_, hobj, hcovers.1, hin⟩, le_rfl, Nat.le_add_right _ 4⟩
  -- the last word of the mapping ends at `text_end`
  · have hend := s.objects[o].textEnd.isLt
    have hword : (s.objects[o].textEnd - 4).toNat = s.objects[o].textEnd.toNat - 4 := by
      rw [BitVec.toNat_sub_of_le (BitVec.le_def.mpr (by simp; omega))]
      rfl
    refine ⟨s.objects[o].textEnd - 4, ⟨_, hobj, ?_, ?_⟩, ?_, ?_⟩ <;> rw [hword] <;> omega

/-- A mapping with its first word under every breakpoint; only breakpoint 0 takes a slot. -/
def sameAddress : Tracer where
  index := .init fun
    | ⟨_, .enter⟩ => 0x10000
    | _ => 0
  slots := .empty
  objects := [⟨[], 0x10000, 0x11000, 0xA, []⟩]
  bkpt b := ⟨if b = 0 then 0 else BkptAttr.NO_SLOT.flag, none, 0, none⟩
  mem := fun _ => 0
  writable := fun _ => false

def firstAdders (κ : Type) : Adders κ := ⟨⟨sameAddress, [], fun _ => .idle⟩, fun _ => none⟩

theorem addersInitial_first {κ : Type} {arg : κ → BkptPtr} (harg : Function.Injective arg) :
    AddersInitial sameAddress.IsInstr arg (firstAdders κ) := by
  have hfound : ∀ b, sameAddress.Found b 0 := fun _ => ⟨rfl, rfl⟩
  refine ⟨⟨harg, fun t => ⟨0, hfound _⟩, fun t => touches_of_found ?_ (hfound _)⟩,
    BpIndex.wellFormed_init _, Layout.empty _, allocInv_initial ⟨rfl, rfl, fun _ => rfl⟩,
    ⟨nofun, nofun⟩, nofun, nofun, ?_, fun _ => rfl, fun _ => rfl⟩
  · intro obj hobj
    obtain rfl := List.mem_singleton.mp hobj
    decide
  · refine fun t => ⟨rfl, rfl, rfl, fun o => ?_⟩
    exact chainEmpty_iff.mp rfl o

/-- The page after the mapping. -/
theorem fits_sameAddress {h : SlotHeap} (hsets : h.slotSets = []) :
    NewSlots.Fits sameAddress.IsInstr h ⟨0, 0x11000⟩ := by
  refine ⟨by simp [hsets], by decide, by simp [hsets], ?_⟩
  rintro w ⟨obj, hobj, _, hend⟩
  obtain rfl := List.mem_singleton.mp hobj
  exact Or.inl hend

/-- The thread `true` looks its object up before the other thread inserts its entry. -/
theorem breakpointAdd_concurrent_two : ∃ (ts : List Bool) (m : Adders Bool),
    Run (AddersStep .unbalanced sameAddress.IsInstr Bool.toNat) (firstAdders Bool) ts m ∧
    m.result false = some 0 ∧ m.result true = some (-3) ∧
    Registered sameAddress m.control.tracer Bool.toNat m.result ∧
    (m.control.tracer.bkpt 0).slotSet = some 0 ∧ m.control.tracer.returnAddr 0 = 0x11004 := by
  have hv : (SlotSet.fresh 0x11000).visit 0 = .found 0 0 :=
    SlotSet.visit_lowest (i := 0) (SlotSet.counted_fresh _) (by omega)
      (SlotSet.isFree_fresh _ (by omega)) (by omega)
  have h : Run (AddersStep .unbalanced sameAddress.IsInstr Bool.toNat)
      (firstAdders Bool) [] (firstAdders Bool) := .refl
  have h := h.stepR (.call (t := true) rfl rfl rfl)
  have h := h.stepR (.work (t := true) nofun (.addLock rfl (by rintro (_ | _) ⟨⟩)) nofun)
  have h := h.stepR (.call (t := false) rfl rfl rfl)
  have h := h.stepR (.work (t := false) nofun (.addLock rfl (by rintro (_ | _) ⟨⟩)) nofun)
  have h := h.stepR (.work (t := true) nofun (.addLookup rfl rfl rfl) nofun)
  have h := h.stepR (.work (t := false) nofun (.addLookup rfl rfl rfl) nofun)
  have h := h.stepR (.work (t := false) nofun (.addInsert rfl rfl) nofun)
  have h := h.stepR (.finish (t := true) nofun (.addPresent (c := -1) rfl (by decide) rfl) rfl)
  have h := h.stepR (.work (t := false) nofun (.walk rfl (Or.inl rfl) (.lock rfl)) nofun)
  have h := h.stepR (.work (t := false) nofun (.walk rfl (Or.inr (Or.inr rfl)) (.unlock rfl)) nofun)
  have h := h.stepR (.work (t := false) nofun
    (.grow rfl (by rintro ⟨_ | _, _, _, ⟨⟩⟩) (fits_sameAddress rfl)) nofun)
  have h := h.stepR (.work (t := false) nofun (.walk rfl (Or.inl rfl) (.lock rfl)) nofun)
  have h := h.stepR (.work (t := false) nofun (.claim (p := 0) rfl hv) nofun)
  have h := h.stepR (.work (t := false) nofun (.addLoad rfl) nofun)
  have h := h.stepR (.work (t := false) nofun (.addCopy rfl rfl) nofun)
  have h := h.stepR (.work (t := false) nofun (.addBrk rfl rfl) nofun)
  have h := h.stepR (.work (t := false) nofun (.addReturn rfl rfl) nofun)
  have h := h.stepR (.finish (t := false) nofun (.addChain rfl) rfl)
  have hspec := breakpointAdd_concurrent (addersInitial_first (by decide)) h
  exact ⟨_, _, h, rfl, rfl, hspec.1 (by rintro (_ | _) ⟨⟩), rfl, rfl⟩

/-- A breakpoint without a slot is added all the same, and nothing is found at its `bp_return`. -/
theorem noSlot_winner_without_slot : ∃ (ts : List Unit) (m : Adders Unit),
    AddersInitial sameAddress.IsInstr (fun _ : Unit => 1) (firstAdders Unit) ∧
    Run (AddersStep .unbalanced sameAddress.IsInstr fun _ : Unit => 1) (firstAdders Unit) ts m ∧
    m.result () = some 0 ∧ (m.control.tracer.bkpt 1).slotSet = none ∧
    m.control.tracer.breakpointFind (m.control.tracer.returnAddr 1) = none := by
  have h : Run (AddersStep .unbalanced sameAddress.IsInstr fun _ : Unit => 1)
      (firstAdders Unit) [] (firstAdders Unit) := .refl
  have h := h.stepR (.call (t := ()) rfl rfl rfl)
  have h := h.stepR (.work (t := ()) nofun (.addLock rfl nofun) nofun)
  have h := h.stepR (.work (t := ()) nofun (.addLookup rfl rfl rfl) nofun)
  have h := h.stepR (.work (t := ()) nofun (.addInsert rfl rfl) nofun)
  have h := h.stepR (.finish (t := ()) nofun (.addChain rfl) rfl)
  exact ⟨_, _, addersInitial_first (Function.injective_of_subsingleton _), h, rfl, rfl, rfl⟩

end Atrace.Signal

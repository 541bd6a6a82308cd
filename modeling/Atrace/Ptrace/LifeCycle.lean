import Mathlib.Data.List.Nodup
import Atrace.Lib.Run
import Atrace.Ptrace.Breakpoint

/-! `breakpoint_create` and `breakpoint_delete` of the ptrace tracer. -/
namespace Atrace.Ptrace

open Atrace.Lib Signal

namespace Profiler

variable (s : Profiler) (b : BkptPtr)

/-- `list_add_tail(&bp->bkp_chain, &obj->breakpoint_chain)` -/
def linkChain (o : ObjPtr) : Profiler :=
  { s with objects := s.objects.modify o fun obj =>
      { obj with breakpointChain := obj.breakpointChain ++ [b] } }

/-- `breakpoint_create`; `fresh` is what `calloc` returns. The address is stored after the
breakpoint has been enabled, as in the source. -/
def breakpointCreate (obj : Option ObjPtr) (offset : Word) (attr : BitVec 32)
    (fresh : Option BkptPtr) : Except Fault (Profiler × Option BkptPtr) :=
  match obj with
  | none => .error .assertion
  | some o =>
    if offset = 0 then .error .assertion
    else
      match s.objects[o]? with
      | none => .error .badAccess
      | some obj =>
        if obj.textEnd < obj.textStart + offset then .ok (s, none)
        else
          match fresh with
          | none => .ok (s, none)
          | some b =>
            let s := { s.setBkpt b ⟨0, 0, 0⟩ with live := b :: s.live }
            let s := if hasFlag attr .ENABLE then s.breakpointEnable b else s
            let s := s.setBkpt b { s.bkpt b with address := obj.textStart + offset, attr := attr }
            .ok (s.linkChain b o, some b)

/-- `breakpoint_delete` -/
def breakpointDelete : Except Fault Profiler := do
  let s ← s.breakpointDisable b
  pure { s with
    objects := s.objects.map fun obj =>
      { obj with breakpointChain := obj.breakpointChain.erase b }
    live := s.live.erase b }

end Profiler

inductive LifeCall where
  | create (obj : Option ObjPtr) (offset : Word) (attr : BitVec 32) (fresh : Option BkptPtr)
  | delete (b : BkptPtr)

/-- A call that returns. `calloc` returns memory that is not in use, and what is deleted has been
created. -/
inductive LifeStep : Profiler → LifeCall → Profiler → Prop where
  | create {s s' : Profiler} {obj : Option ObjPtr} {offset : Word} {attr : BitVec 32}
      {fresh r : Option BkptPtr} (hfresh : ∀ b, fresh = some b → b ∉ s.live)
      (hrun : s.breakpointCreate obj offset attr fresh = .ok (s', r)) :
      LifeStep s (.create obj offset attr fresh) s'
  | delete {s s' : Profiler} {b : BkptPtr} (hb : b ∈ s.live)
      (hrun : s.breakpointDelete b = .ok s') : LifeStep s (.delete b) s'

namespace Profiler

variable {s₀ s s' : Profiler} {b c : BkptPtr} {o : ObjPtr} {obj : Object} {offset a : Word}
  {attr : BitVec 32} {fresh : Option BkptPtr}

/-- What the callers of a call rely on: an enabled breakpoint is set at its address and nowhere
else, and deleting a breakpoint fails no assertion. -/
def Reliable (s : Profiler) : LifeCall → Prop
  | .create obj offset attr fresh => ∀ s' b o ob, hasFlag attr .ENABLE = true →
      s.breakpointCreate obj offset attr fresh = .ok (s', some b) → obj = some o →
      s.objects[o]? = some ob → s'.mem (ob.textStart + offset) = int3 ∧
        ∀ a, a ≠ ob.textStart + offset → s'.mem a = s.mem a
  | .delete b => s.breakpointDelete b ≠ .error .assertion

/-- The byte that disabling the breakpoint puts back. -/
def savedByte (s : Profiler) (b : BkptPtr) : BitVec 8 := (s.bkpt b).oriInstrction.setWidth 8

/-- A live breakpoint is enabled and has saved something else than a breakpoint instruction. -/
def Holder (s : Profiler) (b : BkptPtr) : Prop :=
  b ∈ s.live ∧ (s.bkpt b).enabled = true ∧ s.savedByte b ≠ int3

/-- The calls that do no harm. An enabled breakpoint is created at address 0, or where it changes
nothing; a breakpoint enabled at 0 is deleted while the one that saved the byte of 0 is live. -/
def Harmless (s₀ s : Profiler) : LifeCall → Prop
  | .create obj offset attr fresh => ∀ o ob, hasFlag attr .ENABLE = true → obj = some o →
      s.objects[o]? = some ob → offset ≠ 0 → ob.textStart + offset ≤ ob.textEnd →
      fresh.isSome → ob.textStart + offset = 0 ∨
        (s.mem 0 = int3 ∧ s.mem (ob.textStart + offset) = int3)
  | .delete b => (s.bkpt b).enabled = true → (s.bkpt b).address = 0 →
      s₀.mem 0 = int3 ∨ ∃ c, s.Holder c

/-- What a `breakpoint_create` that returns a breakpoint has done: the byte at address 0 is
patched, whatever the address of the breakpoint. -/
structure Created (s s' : Profiler) (b : BkptPtr) (a : Word) (attr : BitVec 32) : Prop where
  mem : s'.mem = if hasFlag attr .ENABLE then Function.update s.mem 0 int3 else s.mem
  self : s'.bkpt b = ⟨a, if hasFlag attr .ENABLE then s.peekText 0 else 0, attr⟩
  other : ∀ c, c ≠ b → s'.bkpt c = s.bkpt c
  live : s'.live = b :: s.live

variable (attr) in
theorem create_returns (hoff : offset ≠ 0) (hobj : s.objects[o]? = some obj)
    (hend : obj.textStart + offset ≤ obj.textEnd) (b : BkptPtr) :
    ∃ s', s.breakpointCreate (some o) offset attr (some b) = .ok (s', some b) ∧
      Created s s' b (obj.textStart + offset) attr := by
  have hlt : ¬ obj.textEnd < obj.textStart + offset := BitVec.not_lt.mpr hend
  have h0 : (⟨0, 0, 0⟩ : Breakpoint).enabled = false := by
    simp [Breakpoint.enabled, hasFlag]
  simp only [breakpointCreate, hoff, if_false, hobj, hlt]
  refine ⟨_, rfl, ?_⟩
  cases hen : hasFlag attr .ENABLE with
  | false =>
    simp only [Bool.false_eq_true, if_false]
    refine ⟨by simp [hen, linkChain, setBkpt], by simp [hen, linkChain, setBkpt], ?_, rfl⟩
    intro c hc
    simp [linkChain, setBkpt, hc]
  | true =>
    have hdis : (({ s.setBkpt b ⟨0, 0, 0⟩ with live := b :: s.live } : Profiler).bkpt b).enabled =
        false := by
      simpa [setBkpt] using h0
    simp only [if_true]
    rw [enable_of_disabled hdis]
    refine ⟨?_, ?_, ?_, rfl⟩
    · simp [hen, linkChain, setBkpt]
    · simp [hen, linkChain, setBkpt, Breakpoint.setEnable, peekText]
    · intro c hc
      simp [linkChain, setBkpt, hc]

/-- A `breakpoint_create` that returns has returned a breakpoint or left everything as it was. -/
theorem create_cases {obj : Option ObjPtr} {r : Option BkptPtr}
    (h : s.breakpointCreate obj offset attr fresh = .ok (s', r)) : (s' = s ∧ r = none) ∨
      ∃ o ob b, obj = some o ∧ s.objects[o]? = some ob ∧ offset ≠ 0 ∧
        ob.textStart + offset ≤ ob.textEnd ∧ fresh = some b ∧ r = some b ∧
        Created s s' b (ob.textStart + offset) attr := by
  have hrun := h
  unfold breakpointCreate at h
  split at h
  · cases h
  rename_i o
  split at h
  · cases h
  rename_i hoff
  split at h
  · cases h
  rename_i ob hob
  split at h
  · cases h
    exact Or.inl ⟨rfl, rfl⟩
  rename_i hend
  split at h
  · cases h
    exact Or.inl ⟨rfl, rfl⟩
  rename_i b
  obtain ⟨t, ht, hcreated⟩ := create_returns attr hoff hob (BitVec.not_lt.mp hend) b
  obtain ⟨rfl, rfl⟩ := Prod.mk.inj (Except.ok.inj (ht.symm.trans hrun))
  exact Or.inr ⟨o, ob, b, rfl, hob, hoff, BitVec.not_lt.mp hend, rfl, rfl, hcreated⟩

/-- What a `breakpoint_delete` that returns has done. -/
structure Removed (s s' : Profiler) (b : BkptPtr) : Prop where
  mem : s'.mem = if (s.bkpt b).enabled then
    Function.update s.mem (s.bkpt b).address (s.savedByte b) else s.mem
  other : ∀ c, c ≠ b → s'.bkpt c = s.bkpt c
  live : s'.live = s.live.erase b

theorem delete_fails (hon : (s.bkpt b).enabled = true) (hbyte : s.mem (s.bkpt b).address ≠ int3) :
    s.breakpointDelete b = .error .assertion := by
  rw [breakpointDelete, disable_of_enabled hon, if_neg hbyte, error_bind]

theorem delete_returns
    (hbyte : (s.bkpt b).enabled = true → s.mem (s.bkpt b).address = int3) :
    ∃ s', s.breakpointDelete b = .ok s' ∧ Removed s s' b := by
  cases hon : (s.bkpt b).enabled with
  | false =>
    rw [breakpointDelete, disable_of_disabled hon, ok_bind]
    exact ⟨_, rfl, by simp [hon], fun _ _ => rfl, rfl⟩
  | true =>
    rw [breakpointDelete, disable_of_enabled hon, if_pos (hbyte hon), ok_bind]
    refine ⟨_, rfl, ?_, ?_, rfl⟩
    · simp [hon, savedByte]
    · intro c hc
      simp [hc]

theorem delete_cases (h : s.breakpointDelete b = .ok s') :
    ((s.bkpt b).enabled = true → s.mem (s.bkpt b).address = int3) ∧ Removed s s' b := by
  have hbyte : (s.bkpt b).enabled = true → s.mem (s.bkpt b).address = int3 := by
    intro hon
    by_contra hne
    cases (delete_fails hon hne).symm.trans h
  obtain ⟨t, ht, hremoved⟩ := delete_returns hbyte
  obtain rfl := Except.ok.inj (ht.symm.trans h)
  exact ⟨hbyte, hremoved⟩

/-- Between harmless calls only the byte at address 0 is ever changed, and at most one breakpoint
holds what was there. -/
structure LifeInv (s₀ s : Profiler) : Prop where
  nodup : s.live.Nodup
  rest : ∀ a, a ≠ 0 → s.mem a = s₀.mem a
  placed : ∀ b ∈ s.live, (s.bkpt b).enabled = true →
    (s.bkpt b).address ≠ 0 → s₀.mem (s.bkpt b).address = int3
  saved : ∀ b, s.Holder b → (s.bkpt b).address = 0 ∧ s.savedByte b = s₀.mem 0
  unique : ∀ b c, s.Holder b → s.Holder c → b = c
  held : ∀ b, s.Holder b → s.mem 0 = int3
  free : (∀ b, ¬ s.Holder b) → s.mem 0 = s₀.mem 0

theorem lifeInv_initial (h : s₀.live = []) : LifeInv s₀ s₀ := by
  have hnone : ∀ b, ¬ s₀.Holder b := by
    rintro b ⟨hb, _⟩
    simp [h] at hb
  refine ⟨by simp [h], fun _ _ => rfl, by simp [h], ?_, ?_, ?_, fun _ => rfl⟩
  · exact fun b hb => (hnone b hb).elim
  · exact fun b c hb => (hnone b hb).elim
  · exact fun b hb => (hnone b hb).elim

namespace LifeInv

variable (hi : LifeInv s₀ s)
include hi

/-- The byte at 0 is a breakpoint instruction: it was one, or somebody holds the byte that was. -/
theorem zero_iff : s.mem 0 = int3 ↔ s₀.mem 0 = int3 ∨ ∃ b, s.Holder b := by
  constructor
  · intro h
    by_cases hex : ∃ b, s.Holder b
    · exact Or.inr hex
    · left
      rw [← hi.free fun b hb => hex ⟨b, hb⟩, h]
  · rintro (h | ⟨b, hb⟩)
    · by_cases hex : ∃ b, s.Holder b
      · obtain ⟨b, hb⟩ := hex
        exact hi.held b hb
      · rw [hi.free fun b hb => hex ⟨b, hb⟩, h]
    · exact hi.held b hb

/-- When the assertion of `arch_remove_breakpoint` holds. -/
theorem delete_byte_iff (hb : b ∈ s.live) :
    ((s.bkpt b).enabled = true → s.mem (s.bkpt b).address = int3) ↔
      Harmless s₀ s (.delete b) := by
  constructor
  · intro h hon hzero
    rw [hzero] at h
    exact hi.zero_iff.mp (h hon)
  · intro h hon
    by_cases hzero : (s.bkpt b).address = 0
    · rw [hzero]
      exact hi.zero_iff.mpr (h hon hzero)
    · rw [hi.rest _ hzero]
      exact hi.placed b hb hon hzero

theorem reliable_delete_iff (hb : b ∈ s.live) :
    Reliable s (.delete b) ↔ Harmless s₀ s (.delete b) := by
  rw [← hi.delete_byte_iff hb]
  constructor
  · intro h hon
    by_contra hne
    exact h (delete_fails hon hne)
  · intro h hfail
    obtain ⟨t, ht, _⟩ := delete_returns h
    cases ht.symm.trans hfail

omit hi in
/-- Patching address 0 patches the address of the breakpoint and nothing else. -/
theorem update_zero_iff {m : Memory 64} :
    (Function.update m 0 int3 a = int3 ∧ ∀ x, x ≠ a → Function.update m 0 int3 x = m x) ↔
      a = 0 ∨ (m 0 = int3 ∧ m a = int3) := by
  by_cases ha : a = 0
  · subst a
    simp +contextual
  · constructor
    · rintro ⟨hself, hother⟩
      have h0 := hother 0 (Ne.symm ha)
      rw [Function.update_self] at h0
      rw [Function.update_of_ne ha] at hself
      exact Or.inr ⟨h0.symm, hself⟩
    · rintro (h | ⟨h0, hself⟩)
      · exact (ha h).elim
      · have hsame : Function.update m 0 int3 = m := by
          rw [← h0]
          exact Function.update_eq_self 0 m
        rw [hsame]
        exact ⟨hself, fun _ _ => rfl⟩

omit hi in
theorem reliable_create_iff {obj : Option ObjPtr} :
    Reliable s (.create obj offset attr fresh) ↔
      Harmless s₀ s (.create obj offset attr fresh) := by
  constructor
  · intro h o ob hattr hobj hob hoff hend hfresh
    obtain ⟨b, rfl⟩ := Option.isSome_iff_exists.mp hfresh
    subst hobj
    obtain ⟨t, ht, hcreated⟩ := create_returns attr hoff hob hend b
    have hmem := hcreated.mem
    rw [if_pos hattr] at hmem
    have hspec := h t b o ob hattr ht rfl hob
    rw [hmem] at hspec
    exact update_zero_iff.mp hspec
  · intro h t b o ob hattr hrun hobj hob
    rcases create_cases hrun with
      ⟨_, hnone⟩ | ⟨o', ob', b', ho', hob', hoff, hend, hfresh, hb, hcreated⟩
    · cases hnone
    · obtain rfl := Option.some.inj (ho'.symm.trans hobj)
      obtain rfl := Option.some.inj (hob'.symm.trans hob)
      have hmem := hcreated.mem
      rw [if_pos hattr] at hmem
      rw [hmem]
      exact update_zero_iff.mpr (h o' ob' hattr hobj hob hoff hend (by simp [hfresh]))

omit hi in
theorem holder_of_created (hc : Created s s' b a attr) (hcb : c ≠ b) :
    s'.Holder c ↔ s.Holder c := by
  simp [Holder, savedByte, hc.other c hcb, hc.live, hcb]

omit hi in
theorem holder_created_self (hc : Created s s' b a attr) :
    s'.Holder b ↔ hasFlag attr .ENABLE = true ∧ s.mem 0 ≠ int3 := by
  have hload : (s.peekText 0).setWidth 8 = s.mem 0 := Memory.setWidth_load (by omega)
  have hlive : b ∈ s'.live := by simp [hc.live]
  simp only [Holder, hlive, true_and, Breakpoint.enabled, savedByte, hc.self]
  constructor
  · rintro ⟨hattr, hne⟩
    rw [if_pos hattr, hload] at hne
    exact ⟨hattr, hne⟩
  · rintro ⟨hattr, hne⟩
    rw [if_pos hattr, hload]
    exact ⟨hattr, hne⟩

/-- A new breakpoint that is not enabled changes nothing of the text. -/
theorem create_disabled (hc : Created s s' b a attr) (hfresh : b ∉ s.live)
    (hattr : hasFlag attr .ENABLE = false) : LifeInv s₀ s' := by
  have hmem : s'.mem = s.mem := by
    rw [hc.mem, hattr]
    rfl
  have hholder : ∀ c, s'.Holder c ↔ s.Holder c := by
    intro c
    by_cases hcb : c = b
    · subst c
      rw [holder_created_self hc]
      constructor
      · rintro ⟨hon, _⟩
        simp [hattr] at hon
      · exact fun h => (hfresh h.1).elim
    · exact holder_of_created hc hcb
  refine ⟨?_, ?_, ?_, ?_, ?_, ?_, ?_⟩
  · rw [hc.live]
    exact List.nodup_cons.mpr ⟨hfresh, hi.nodup⟩
  · rw [hmem]
    exact hi.rest
  · intro c hlive hon
    by_cases hcb : c = b
    · subst c
      simp [hc.self, Breakpoint.enabled, hattr] at hon
    · rw [hc.other c hcb] at hon ⊢
      exact hi.placed c (by simpa [hc.live, hcb] using hlive) hon
  · intro c hhold
    have hold := (hholder c).mp hhold
    have hcb : c ≠ b := fun he => hfresh (he ▸ hold.1)
    rw [savedByte, hc.other c hcb]
    exact hi.saved c hold
  · exact fun c d hcold hdold => hi.unique c d ((hholder c).mp hcold) ((hholder d).mp hdold)
  · intro c hhold
    rw [hmem]
    exact hi.held c ((hholder c).mp hhold)
  · intro hnone
    rw [hmem]
    exact hi.free fun c hhold => hnone c ((hholder c).mpr hhold)

/-- An enabled one becomes the holder if the byte at 0 was the original. -/
theorem create_enabled (hc : Created s s' b a attr) (hfresh : b ∉ s.live)
    (hattr : hasFlag attr .ENABLE = true) (hharm : a = 0 ∨ (s.mem 0 = int3 ∧ s.mem a = int3)) :
    LifeInv s₀ s' := by
  have hmem : s'.mem = Function.update s.mem 0 int3 := by rw [hc.mem, if_pos hattr]
  have hzero : s'.mem 0 = int3 := by rw [hmem, Function.update_self]
  have hself : s'.Holder b ↔ s.mem 0 ≠ int3 := by
    rw [holder_created_self hc]
    exact and_iff_right hattr
  have horig : s.mem 0 ≠ int3 → s.mem 0 = s₀.mem 0 :=
    fun hne => hi.free fun c hhold => hne (hi.held c hhold)
  refine ⟨?_, ?_, ?_, ?_, ?_, fun _ _ => hzero, ?_⟩
  · rw [hc.live]
    exact List.nodup_cons.mpr ⟨hfresh, hi.nodup⟩
  · intro x hx
    rw [hmem, Function.update_of_ne hx]
    exact hi.rest x hx
  · intro c hlive hon hne
    by_cases hcb : c = b
    · subst c
      rw [hc.self] at hne ⊢
      rcases hharm with ha | ⟨_, ha⟩
      · exact (hne ha).elim
      · rw [← ha]
        exact (hi.rest a hne).symm
    · rw [hc.other c hcb] at hon hne ⊢
      exact hi.placed c (by simpa [hc.live, hcb] using hlive) hon hne
  · intro c hhold
    by_cases hcb : c = b
    · subst c
      have hne := hself.mp hhold
      have hload : (s.peekText 0).setWidth 8 = s.mem 0 := Memory.setWidth_load (by omega)
      rw [savedByte, hc.self, if_pos hattr]
      refine ⟨?_, hload.trans (horig hne)⟩
      rcases hharm with ha | ⟨h0, _⟩
      · exact ha
      · exact (hne h0).elim
    · rw [savedByte, hc.other c hcb]
      exact hi.saved c ((holder_of_created hc hcb).mp hhold)
  · intro c d hhc hhd
    by_cases hcb : c = b <;> by_cases hdb : d = b
    · rw [hcb, hdb]
    · have hhb := hself.mp (hcb ▸ hhc)
      exact (hhb (hi.held d ((holder_of_created hc hdb).mp hhd))).elim
    · have hhb := hself.mp (hdb ▸ hhd)
      exact (hhb (hi.held c ((holder_of_created hc hcb).mp hhc))).elim
    · exact hi.unique c d ((holder_of_created hc hcb).mp hhc) ((holder_of_created hc hdb).mp hhd)
  · intro hnone
    have h0 : s.mem 0 = int3 := by
      by_contra hne
      exact hnone b (hself.mpr hne)
    have hold : ∀ c, ¬ s.Holder c := by
      intro c hhold
      have hcb : c ≠ b := fun he => hfresh (he ▸ hhold.1)
      exact hnone c ((holder_of_created hc hcb).mpr hhold)
    rw [hzero, ← h0]
    exact hi.free hold

/-- Only the holder changes a byte when it is deleted. -/
theorem remove (hb : b ∈ s.live)
    (hbyte : (s.bkpt b).enabled = true → s.mem (s.bkpt b).address = int3)
    (hr : Removed s s' b) : LifeInv s₀ s' := by
  have hlive : ∀ c, c ∈ s'.live ↔ c ≠ b ∧ c ∈ s.live := by
    intro c
    rw [hr.live, hi.nodup.mem_erase_iff]
  have hholder : ∀ c, s'.Holder c ↔ c ≠ b ∧ s.Holder c := by
    intro c
    by_cases hcb : c = b
    · simp [Holder, hlive, hcb]
    · simp [Holder, hlive, hcb, savedByte, hr.other c hcb]
  have hmem : ¬ s.Holder b → s'.mem = s.mem := by
    intro hnot
    rw [hr.mem]
    split
    · rename_i hon
      have hsaved : s.savedByte b = int3 := by
        by_contra hne
        exact hnot ⟨hb, hon, hne⟩
      rw [hsaved, ← hbyte hon]
      exact Function.update_eq_self _ s.mem
    · rfl
  have hmem' : s.Holder b → s'.mem = Function.update s.mem 0 (s₀.mem 0) := by
    intro hhold
    obtain ⟨hzero, hsaved⟩ := hi.saved b hhold
    rw [hr.mem, if_pos hhold.2.1, hzero, hsaved]
  refine ⟨?_, ?_, ?_, ?_, ?_, ?_, ?_⟩
  · rw [hr.live]
    exact hi.nodup.erase b
  · intro x hx
    by_cases hhold : s.Holder b
    · rw [hmem' hhold, Function.update_of_ne hx]
      exact hi.rest x hx
    · rw [hmem hhold]
      exact hi.rest x hx
  · intro c hc hon hne
    obtain ⟨hcb, hc⟩ := (hlive c).mp hc
    rw [hr.other c hcb] at hon hne ⊢
    exact hi.placed c hc hon hne
  · intro c hhold
    obtain ⟨hcb, hold⟩ := (hholder c).mp hhold
    rw [savedByte, hr.other c hcb]
    exact hi.saved c hold
  · exact fun c d hhc hhd => hi.unique c d ((hholder c).mp hhc).2 ((hholder d).mp hhd).2
  · intro c hhold
    obtain ⟨hcb, hold⟩ := (hholder c).mp hhold
    rw [hmem fun hhb => hcb (hi.unique c b hold hhb)]
    exact hi.held c hold
  · intro hnone
    by_cases hhold : s.Holder b
    · rw [hmem' hhold, Function.update_self]
    · rw [hmem hhold]
      apply hi.free
      intro c hold
      by_cases hcb : c = b
      · exact hhold (hcb ▸ hold)
      · exact hnone c ((hholder c).mpr ⟨hcb, hold⟩)

end LifeInv

theorem lifeInv_step {call : LifeCall} (h : LifeStep s call s') (hharm : Harmless s₀ s call)
    (hi : LifeInv s₀ s) : LifeInv s₀ s' := by
  cases h with
  | create hfresh hrun =>
    rename_i obj offset attr fresh r
    rcases create_cases hrun with ⟨rfl, _⟩ | ⟨o, ob, b, hobj, hob, hoff, hend, hf, _, hc⟩
    · exact hi
    · cases hattr : hasFlag attr .ENABLE with
      | false => exact hi.create_disabled hc (hfresh b hf) hattr
      | true =>
        exact hi.create_enabled hc (hfresh b hf) hattr
          (hharm o ob hattr hobj hob hoff hend (by simp [hf]))
  | delete hb hrun =>
    obtain ⟨hbyte, hr⟩ := delete_cases hrun
    exact hi.remove hb hbyte hr

theorem reliable_iff_of_step {call : LifeCall} (h : LifeStep s call s') (hi : LifeInv s₀ s) :
    Reliable s call ↔ Harmless s₀ s call := by
  cases h with
  | create hfresh hrun => exact LifeInv.reliable_create_iff
  | delete hb hrun => exact hi.reliable_delete_iff hb

/-- In a run of harmless calls every call is reliable, the next one is reliable just when it is
harmless too, and the memory is the initial one once every breakpoint has been deleted. -/
theorem lifeCycle_reliable_iff {calls : List (Profiler × LifeCall)}
    (h : Run (Traced LifeStep) s₀ calls s) (hharm : ∀ l ∈ calls, Harmless s₀ l.1 l.2)
    (h₀ : s₀.live = []) :
    (∀ l ∈ calls, Reliable l.1 l.2) ∧
    (∀ obj offset attr fresh, Reliable s (.create obj offset attr fresh) ↔
      Harmless s₀ s (.create obj offset attr fresh)) ∧
    (∀ b ∈ s.live, Reliable s (.delete b) ↔ Harmless s₀ s (.delete b)) ∧
    (s.live = [] → s.mem = s₀.mem) := by
  have hstep : ∀ t l u, Traced LifeStep t l u → Harmless s₀ l.1 l.2 → LifeInv s₀ t →
      LifeInv s₀ u := by
    rintro t ⟨_, call⟩ u ⟨rfl, hstep⟩ hq hi
    exact lifeInv_step hstep hq hi
  have hi := h.inv_of_labels hstep hharm (lifeInv_initial h₀)
  refine ⟨?_, fun _ _ _ _ => LifeInv.reliable_create_iff, fun b hb => hi.reliable_delete_iff hb, ?_⟩
  · refine h.labels hstep ?_ hharm (lifeInv_initial h₀)
    rintro t ⟨_, call⟩ u ⟨rfl, hstep⟩ hq hi
    exact (reliable_iff_of_step hstep hi).mpr hq
  · intro hlive
    funext a
    by_cases ha : a = 0
    · subst a
      apply hi.free
      rintro b ⟨hb, _⟩
      simp [hlive] at hb
    · exact hi.rest a ha

/-- An object whose last page ends the address space, in a memory of `nop`s. -/
def topObject : Profiler :=
  ⟨fun _ => 0x90, fun _ => ⟨0, 0, 0⟩, [⟨0xFFFFFFFFFFFFF000, 0xFFFFFFFFFFFFFFFF, []⟩], []⟩

/-- A breakpoint whose address wraps around to 0 is set where it should be, and deleting it puts the
`nop` back. -/
theorem lifeCycle_reliable_iff_wrapped : ∃ s s',
    topObject.breakpointCreate (some 0) 0x1000 BkptFlag.ENABLE.flag (some 0) = .ok (s, some 0) ∧
    s.mem 0 = int3 ∧ s.breakpointDelete 0 = .ok s' ∧
    Reliable topObject (.create (some 0) 0x1000 BkptFlag.ENABLE.flag (some 0)) ∧
    Reliable s (.delete 0) ∧ s'.mem = topObject.mem := by
  obtain ⟨s, hcreate, hc⟩ := create_returns BkptFlag.ENABLE.flag (s := topObject) (o := 0)
    (show (0x1000 : Word) ≠ 0 by decide) rfl (by decide) 0
  have hmem : s.mem 0 = int3 := by
    rw [hc.mem, if_pos (by decide), Function.update_self]
  have hself : s.bkpt 0 = ⟨0, topObject.peekText 0, BkptFlag.ENABLE.flag⟩ := hc.self
  obtain ⟨s', hdelete, hremoved⟩ := delete_returns (s := s) (b := 0)
    (fun _ => by rw [hself]; exact hmem)
  have hlive : s.live = [0] := hc.live
  have hholder : s.Holder 0 := by
    refine ⟨by simp [hlive], by rw [hself]; decide, ?_⟩
    rw [savedByte, hself]
    decide
  have hrun : Run (Traced LifeStep) topObject
      [(topObject, .create (some 0) 0x1000 BkptFlag.ENABLE.flag (some 0)), (s, .delete 0)] s' :=
    .stepL ⟨rfl, .create (by simp [topObject]) hcreate⟩
      (.stepL ⟨rfl, .delete hholder.1 hdelete⟩ .refl)
  have hharm : Harmless topObject topObject
      (.create (some 0) 0x1000 BkptFlag.ENABLE.flag (some 0)) := by
    rintro o ob _ ⟨⟩ hob _ _ _
    obtain rfl := Option.some.inj hob
    exact Or.inl (by decide)
  have hharm' : Harmless topObject s (.delete 0) := fun _ _ => Or.inr ⟨0, hholder⟩
  obtain ⟨hall, _, _, hempty⟩ := lifeCycle_reliable_iff hrun
    (List.forall_mem_cons.mpr ⟨hharm, List.forall_mem_singleton.mpr hharm'⟩) rfl
  have hgone : s'.live = [] := by rw [hremoved.live, hlive]; rfl
  exact ⟨s, s', hcreate, hmem, hdelete, hall _ List.mem_cons_self,
    hall _ (List.mem_cons_of_mem _ List.mem_cons_self), hempty hgone⟩

/-- An object with ordinary bounds, in a memory of `nop`s. -/
def oneObject : Profiler :=
  ⟨fun _ => 0x90, fun _ => ⟨0, 0, 0⟩, [⟨0x1000, 0x2000, []⟩], []⟩

/-- The breakpoint at 0x1010 is set at address 0 instead, and deleting it fails the assertion. -/
theorem create_enable_patches_zero : ∃ s,
    oneObject.breakpointCreate (some 0) 0x10 BkptFlag.ENABLE.flag (some 0) = .ok (s, some 0) ∧
      s.mem 0x1010 ≠ int3 ∧ s.mem 0 ≠ oneObject.mem 0 ∧
      s.breakpointDelete 0 = .error .assertion := by
  obtain ⟨s, hrun, hc⟩ := create_returns BkptFlag.ENABLE.flag (s := oneObject) (o := 0)
    (show (0x10 : Word) ≠ 0 by decide) rfl (by decide) 0
  have hmem : s.mem = Function.update oneObject.mem 0 int3 := by
    rw [hc.mem, if_pos (by decide)]
  have hbyte : s.mem 0x1010 ≠ int3 := by
    rw [hmem]
    decide
  refine ⟨s, hrun, hbyte, ?_, ?_⟩
  · rw [hmem]
    decide
  · apply delete_fails
    · rw [hc.self]
      decide
    · rw [hc.self]
      exact hbyte

end Profiler

end Atrace.Ptrace

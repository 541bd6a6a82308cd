import Atrace.Ptrace.Breakpoint

/-! Sequences of `breakpoint_enable` and `breakpoint_disable` on breakpoints that may share words. -/
namespace Atrace.Ptrace

open Atrace.Lib Signal

/-- A call of `breakpoint_enable` or `breakpoint_disable`. -/
inductive Patch where
  | enable (b : BkptPtr)
  | disable (b : BkptPtr)
deriving DecidableEq, Repr

def Patch.bkpt : Patch → BkptPtr
  | .enable b | .disable b => b

/-- The flag `BKPT_F_ENABLE` of a breakpoint behind a call, from the one before it. -/
def Patch.leaves (b : BkptPtr) (on : Bool) : Patch → Bool
  | .enable c => if c = b then true else on
  | .disable c => if c = b then false else on

namespace Profiler

def patch (s : Profiler) : Patch → Except Fault Profiler
  | .enable b => .ok (s.breakpointEnable b)
  | .disable b => s.breakpointDisable b

/-- The memory has a breakpoint instruction at every enabled breakpoint of `S` and is as in `s₀`
elsewhere. -/
structure Overlaid (S : Set BkptPtr) (s₀ s : Profiler) : Prop where
  address : ∀ b, (s.bkpt b).address = (s₀.bkpt b).address
  on : ∀ b ∈ S, (s.bkpt b).enabled = true → s.mem (s₀.bkpt b).address = int3
  off : ∀ a, (∀ b ∈ S, (s.bkpt b).enabled = true → (s₀.bkpt b).address ≠ a) → s.mem a = s₀.mem a

variable {s₀ s s' : Profiler} {S : Set BkptPtr} {b c : BkptPtr} {p : Patch}

/-- Every enabled breakpoint has saved the original byte, whatever the rest of its word was. -/
structure PatchInv (S : Set BkptPtr) (s₀ s : Profiler) : Prop extends Overlaid S s₀ s where
  saved : ∀ b ∈ S, (s.bkpt b).enabled = true →
    (s.bkpt b).oriInstrction.setWidth 8 = s₀.mem (s₀.bkpt b).address

theorem patchInv_refl (hclear : ∀ b ∈ S, (s₀.bkpt b).enabled = false) : PatchInv S s₀ s₀ := by
  refine ⟨⟨fun _ => rfl, ?_, fun _ _ => rfl⟩, ?_⟩
  · intro b hb hon
    simp [hclear b hb] at hon
  · intro b hb hon
    simp [hclear b hb] at hon

/-- Writing the right byte under one breakpoint, with its flag and its saved byte. -/
theorem patchInv_update (hinj : Set.InjOn (fun b => (s₀.bkpt b).address) S) (hi : PatchInv S s₀ s)
    (hb : b ∈ S) {bp : Breakpoint} {v : BitVec 8}
    (hmem : s'.mem = Function.update s.mem (s₀.bkpt b).address v)
    (hbkpt : s'.bkpt = Function.update s.bkpt b bp) (haddr : bp.address = (s₀.bkpt b).address)
    (hon : bp.enabled = true →
      v = int3 ∧ bp.oriInstrction.setWidth 8 = s₀.mem (s₀.bkpt b).address)
    (hoff : bp.enabled = false → v = s₀.mem (s₀.bkpt b).address) : PatchInv S s₀ s' := by
  have hself : s'.bkpt b = bp := by rw [hbkpt, Function.update_self]
  have hother : ∀ c, c ≠ b → s'.bkpt c = s.bkpt c := by
    intro c hc
    rw [hbkpt, Function.update_of_ne hc]
  refine ⟨⟨?_, ?_, ?_⟩, ?_⟩
  · intro c
    by_cases hcb : c = b
    · subst c
      rw [hself, haddr]
    · rw [hother c hcb, hi.address c]
  · intro c hc hcon
    rw [hmem]
    by_cases hcb : c = b
    · subst c
      rw [hself] at hcon
      rw [Function.update_self, (hon hcon).1]
    · have hne : (s₀.bkpt c).address ≠ (s₀.bkpt b).address := fun he => hcb (hinj hc hb he)
      rw [hother c hcb] at hcon
      rw [Function.update_of_ne hne, hi.on c hc hcon]
  · intro a ha
    rw [hmem]
    by_cases hab : a = (s₀.bkpt b).address
    · have hboff : bp.enabled = false := by
        rw [← Bool.not_eq_true, ← hself]
        exact fun hbon => ha b hb hbon hab.symm
      rw [hab, Function.update_self, hoff hboff]
    · rw [Function.update_of_ne hab]
      apply hi.off
      intro c hc hcon
      by_cases hcb : c = b
      · subst c
        exact Ne.symm hab
      · exact ha c hc (by rwa [hother c hcb])
  · intro c hc hcon
    by_cases hcb : c = b
    · subst c
      rw [hself] at hcon ⊢
      exact (hon hcon).2
    · rw [hother c hcb] at hcon ⊢
      exact hi.saved c hc hcon

theorem patchInv_enable (hinj : Set.InjOn (fun b => (s₀.bkpt b).address) S)
    (hi : PatchInv S s₀ s) (hb : b ∈ S) : PatchInv S s₀ (s.breakpointEnable b) := by
  cases hon : (s.bkpt b).enabled with
  | true => rwa [enable_of_enabled hon]
  | false =>
    -- nobody else has patched this byte, so the saved one is the original
    have horig : s.mem (s₀.bkpt b).address = s₀.mem (s₀.bkpt b).address := by
      apply hi.off
      intro c hc hcon he
      obtain rfl := hinj hc hb he
      simp [hon] at hcon
    have hload : (s.peekText (s₀.bkpt b).address).setWidth 8 = s₀.mem (s₀.bkpt b).address :=
      (Memory.setWidth_load (by omega)).trans horig
    rw [enable_of_disabled hon, hi.address b]
    exact patchInv_update hinj hi hb rfl rfl (hi.address b) (fun _ => ⟨rfl, hload⟩) (by simp)

theorem patchInv_disable (hinj : Set.InjOn (fun b => (s₀.bkpt b).address) S)
    (hi : PatchInv S s₀ s) (hb : b ∈ S) :
    ∃ s', s.breakpointDisable b = .ok s' ∧ PatchInv S s₀ s' := by
  cases hon : (s.bkpt b).enabled with
  | false => exact ⟨s, disable_of_disabled hon, hi⟩
  | true =>
    rw [disable_of_enabled hon, hi.address b, hi.saved b hb hon, if_pos (hi.on b hb hon)]
    exact ⟨_, rfl, patchInv_update hinj hi hb rfl rfl (hi.address b) (by simp) (fun _ => rfl)⟩

theorem patchInv_patch (hinj : Set.InjOn (fun b => (s₀.bkpt b).address) S)
    (hi : PatchInv S s₀ s) (hp : p.bkpt ∈ S) :
    ∃ s', s.patch p = .ok s' ∧ PatchInv S s₀ s' := by
  cases p with
  | enable b => exact ⟨_, rfl, patchInv_enable hinj hi hp⟩
  | disable b => exact patchInv_disable hinj hi hp

theorem enabled_patch (h : s.patch p = .ok s') (b : BkptPtr) :
    (s'.bkpt b).enabled = p.leaves b (s.bkpt b).enabled := by
  cases p with
  | enable c =>
    cases h
    cases hon : (s.bkpt c).enabled with
    | true =>
      rw [enable_of_enabled hon, Patch.leaves]
      split
      · rename_i hc
        rw [← hc, hon]
      · rfl
    | false =>
      rw [enable_of_disabled hon, Patch.leaves]
      by_cases hc : c = b
      · subst c
        simp
      · simp [Function.update_of_ne (Ne.symm hc), hc]
  | disable c =>
    cases hon : (s.bkpt c).enabled with
    | false =>
      cases (disable_of_disabled hon).symm.trans h
      rw [Patch.leaves]
      split
      · rename_i hc
        rw [← hc, hon]
      · rfl
    | true =>
      have h' := (disable_of_enabled hon).symm.trans h
      split at h'
      · cases h'
        rw [Patch.leaves]
        by_cases hc : c = b
        · subst c
          simp
        · simp [Function.update_of_ne (Ne.symm hc), hc]
      · cases h'

/-- A breakpoint is enabled as the last call on it left it. -/
theorem enabled_foldlM {calls : List Patch} (h : calls.foldlM patch s = .ok s') (b : BkptPtr) :
    (s'.bkpt b).enabled = calls.foldl (Patch.leaves b) (s.bkpt b).enabled := by
  induction calls generalizing s with
  | nil =>
    cases h
    rfl
  | cons p calls ih =>
    obtain ⟨s₁, hp, hrest⟩ := bind_ok h
    rw [List.foldl_cons, ← enabled_patch hp b]
    exact ih hrest

/-- Breakpoints with different addresses may be enabled and disabled in any order, also where
their words overlap: no assertion fails, the memory is the original one with a breakpoint
instruction at the enabled breakpoints, and those are the ones that were enabled last. -/
theorem overlapping_patches_commute (hinj : Set.InjOn (fun b => (s₀.bkpt b).address) S)
    (hclear : ∀ b ∈ S, (s₀.bkpt b).enabled = false) (calls : List Patch)
    (hcalls : ∀ p ∈ calls, p.bkpt ∈ S) :
    ∃ s, calls.foldlM patch s₀ = .ok s ∧ Overlaid S s₀ s ∧
      ∀ b ∈ S, (s.bkpt b).enabled = calls.foldl (Patch.leaves b) false := by
  suffices h : ∀ s, PatchInv S s₀ s → ∃ s', calls.foldlM patch s = .ok s' ∧ PatchInv S s₀ s' by
    obtain ⟨s, hrun, hi⟩ := h s₀ (patchInv_refl hclear)
    refine ⟨s, hrun, hi.toOverlaid, ?_⟩
    intro b hb
    rw [enabled_foldlM hrun, hclear b hb]
  induction calls with
  | nil => exact fun s hi => ⟨s, rfl, hi⟩
  | cons p calls ih =>
    intro s hi
    obtain ⟨s', hstep, hi'⟩ := patchInv_patch hinj hi (hcalls p List.mem_cons_self)
    obtain ⟨s'', hrun, hi''⟩ := ih (fun q hq => hcalls q (List.mem_cons_of_mem p hq)) s' hi'
    refine ⟨s'', ?_, hi''⟩
    rw [List.foldlM_cons, hstep]
    exact hrun

/-- Two breakpoints three bytes apart in a text of `nop`s. -/
def twoBkpts : Profiler :=
  ⟨fun _ => 0x90, fun b => ⟨if b = 0 then 0x1000 else 0x1003, 0, 0⟩, [], [0, 1]⟩

theorem overlapping_patches_commute_two :
    ∃ s, [Patch.enable 0, .enable 1, .disable 0].foldlM patch twoBkpts = .ok s ∧
      Overlaid {0, 1} twoBkpts s ∧ (s.bkpt 0).enabled = false ∧ (s.bkpt 1).enabled = true := by
  have hinj : Set.InjOn (fun b => (twoBkpts.bkpt b).address) {0, 1} := by
    rintro b (rfl | rfl) c (rfl | rfl) <;> simp [twoBkpts]
  have hclear : ∀ b ∈ ({0, 1} : Set BkptPtr), (twoBkpts.bkpt b).enabled = false := by
    intro b _
    simp [twoBkpts, Breakpoint.enabled, hasFlag]
  obtain ⟨s, hrun, hover, hon⟩ := overlapping_patches_commute hinj hclear
    [.enable 0, .enable 1, .disable 0] (by simp [Patch.bkpt])
  exact ⟨s, hrun, hover, hon 0 (by simp), hon 1 (by simp)⟩

end Profiler

end Atrace.Ptrace

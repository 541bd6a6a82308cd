import Atrace.Lib.Run
import Atrace.Signal.Slotted

/-! Patching is reversible: what the text and the slots hold after any sequence of adds, enables
and disables. -/
namespace Atrace.Signal

open Atrace.Lib

namespace Tracer

variable {rb : RbLib BpEntry} {s s' s₀ : Tracer} {b c : BkptPtr} {a : Addr} {code : Int}

/-- An aligned word at an address where `breakpoint_add` finds an object. -/
def IsText (s : Tracer) (a : Addr) : Prop := 4 ∣ a.toNat ∧ (s.objectGetByAddress a).isSome

/-- What the slot of an added breakpoint keeps: the word it displaces. -/
structure Placed (s₀ s : Tracer) (b : BkptPtr) (p : SlotSetPtr) (i : Nat) : Prop
    extends s.Held b p i where
  saved : loadInstr s.mem ((s.slots.slotSet p).slotOffset i) = loadInstr s₀.mem (s₀.enterAddr b)

/-- The invariant of a run from `s₀`. -/
structure PatchInv (s₀ s : Tracer) : Prop extends SlotInv s₀.IsText s where
  enterAddr : ∀ b, s.enterAddr b = s₀.enterAddr b
  objects : ∀ a, s.objectGetByAddress a = s₀.objectGetByAddress a
  enable : ∀ b, (s.bkpt b).hasAttr .ENABLE = true → s.Added b
  placed : ∀ b, s.Added b → ∃ p i, Placed s₀ s b p i
  patched : ∀ b, (s.bkpt b).hasAttr .ENABLE = true → loadInstr s.mem (s₀.enterAddr b) = brkInstr
  original : ∀ a, s₀.IsText a → (∀ b, (s.bkpt b).hasAttr .ENABLE = true → s₀.enterAddr b ≠ a) →
    loadInstr s.mem a = loadInstr s₀.mem a

namespace PatchInv

variable {p q : SlotSetPtr} {i j : Nat}

/-- Enabling and disabling an added breakpoint. -/
theorem patchInv_patched {on : Bool} {v : Instr} (hi : PatchInv s₀ s) (hb : s.Added b)
    (hp : s.Patched s' b on v)
    (hv : v = if on then brkInstr else loadInstr s₀.mem (s₀.enterAddr b)) : PatchInv s₀ s' := by
  have hadded := SlotInv.added_patched hp
  have haddr : ∀ c, s'.enterAddr c = s₀.enterAddr c := by
    intro c
    rw [Tracer.enterAddr, hp.index]
    exact hi.enterAddr c
  have htext : s₀.IsText (s₀.enterAddr b) := hi.enterAddr b ▸ hi.text b hb
  have henable : ∀ c, c ≠ b → (s'.bkpt c).hasAttr .ENABLE = (s.bkpt c).hasAttr .ENABLE := by
    intro c hc
    rw [hp.others c hc]
  have hmem : ∀ a, s₀.IsText a → a ≠ s₀.enterAddr b → loadInstr s'.mem a = loadInstr s.mem a := by
    intro a ha hne
    rw [hp.mem, hi.enterAddr]
    exact loadInstr_storeInstr_apart (wordsApart_of_aligned ha.1 htext.1 hne) _ _
  have hself : loadInstr s'.mem (s₀.enterAddr b) = v := by
    rw [hp.mem, hi.enterAddr, loadInstr_storeInstr]
  refine ⟨hi.toSlotInv.patched hb hp, haddr, ?_, ?_, ?_, ?_, ?_⟩
  · intro a
    exact (objectGetByAddress_patched hp a).trans (hi.objects a)
  · intro c hc
    rw [hadded]
    by_cases hcb : c = b
    · subst c
      exact hb
    · rw [henable c hcb] at hc
      exact hi.enable c hc
  · intro c hc
    obtain ⟨p, i, h⟩ := hi.placed c ((hadded c).mp hc)
    refine ⟨p, i, hi.toSlotInv.held_patched hb hp h.toHeld, ?_⟩
    rw [hp.slots, hi.toSlotInv.load_patched hb hp h.toHeld (Or.inl rfl), h.saved]
  · intro c hc
    by_cases hcb : c = b
    · subst c
      rw [hp.enable] at hc
      rw [hself, hv, if_pos hc]
    · rw [henable c hcb] at hc
      have hca := hi.enable c hc
      have hct : s₀.IsText (s₀.enterAddr c) := hi.enterAddr c ▸ hi.text c hca
      have hne : s₀.enterAddr c ≠ s₀.enterAddr b := by
        rw [← hi.enterAddr, ← hi.enterAddr]
        exact fun he => hcb (hi.toSlotInv.enter_inj hca hb he)
      rw [hmem _ hct hne, hi.patched c hc]
  · intro a ha hnone
    by_cases hab : a = s₀.enterAddr b
    · subst a
      have hoff : on = false := by
        rw [← Bool.not_eq_true, ← hp.enable]
        exact fun he => hnone b he rfl
      rw [hself, hv, hoff]
      rfl
    · rw [hmem a ha hab]
      apply hi.original a ha
      intro c hc
      by_cases hcb : c = b
      · subst c
        exact Ne.symm hab
      · exact hnone c (by rw [henable c hcb, hc])

section Add

variable {news : List NewSlots} {o : ObjPtr}

/-- The word under a breakpoint that is about to be added is the original one. -/
theorem original_of_absent (hi : PatchInv s₀ s) (ht : s₀.IsText (s₀.enterAddr b))
    (hf : s.index.breakpointRbFind (s.enterAddr b) = none) :
    loadInstr s.mem (s.enterAddr b) = loadInstr s₀.mem (s₀.enterAddr b) := by
  rw [hi.enterAddr]
  apply hi.original _ ht
  intro c hc he
  have hfind := hi.toSlotInv.find_entry (k := .enter) (hi.enable c hc)
    ((hi.enterAddr c).trans (he.trans (hi.enterAddr b).symm))
  cases hf.symm.trans hfind

theorem patchInv_slotAdded (hi : PatchInv s₀ s) (hb : ¬ s.Added b)
    (h : s.SlotAdded s' b news o p i) (hfits : ∀ new ∈ news, new.Fits s₀.IsText s.slots)
    (htext : s₀.IsText (s.enterAddr b)) : PatchInv s₀ s' := by
  have hs := hi.toSlotInv
  have hattr : ∀ c k, (s'.bkpt c).hasAttr k = (s.bkpt c).hasAttr k := by
    intro c k
    by_cases hc : c = b
    · subst c
      rw [(h.bkpt b).trans (if_pos rfl)]
      rfl
    · rw [(h.bkpt c).trans (if_neg hc)]
  have ht := hs.taken h hfits
  refine ⟨hs.slotAdded hb h hfits htext, ?_, ?_, ?_, ?_, ?_, ?_⟩
  · intro c
    rw [h.enterAddr, hi.enterAddr]
  · intro a
    exact (objectGetByAddress_slotAdded h a).trans (hi.objects a)
  · intro c hc
    rw [hattr] at hc
    exact (SlotInv.added_slotAdded h c).mpr (Or.inr (hi.enable c hc))
  · intro c hc
    rcases (SlotInv.added_slotAdded h c).mp hc with rfl | hc
    · refine ⟨p, i, hs.held_self h hfits, ?_⟩
      rw [h.mem, loadInstr_storeInstr_apart (ht.layout.wordsApart_self ht.listed ht.lt),
        loadInstr_storeInstr]
      exact hi.original_of_absent (hi.enterAddr c ▸ htext) h.absent
    · obtain ⟨q, j, hq⟩ := hi.placed c hc
      have hcb : c ≠ b := fun he => hb (he ▸ hc)
      refine ⟨q, j, hs.held_slotAdded h hfits hcb hq.toHeld, ?_⟩
      rw [ht.offset q hq.listed, hs.load_held_slotAdded h hfits hq.toHeld (Or.inl rfl), hq.saved]
  · intro c hc
    rw [hattr] at hc
    have hct : s₀.IsText (s₀.enterAddr c) := hi.enterAddr c ▸ hi.text c (hi.enable c hc)
    rw [hs.load_text_slotAdded h hfits hct, hi.patched c hc]
  · intro a ha hnone
    rw [hs.load_text_slotAdded h hfits ha]
    apply hi.original a ha
    intro c hc
    exact hnone c (by rw [hattr, hc])

end Add

end PatchInv

/-- Adds are of breakpoints that are not added, at aligned addresses, and the slots are memory
of their own; enables and disables are of added ones. -/
def Legal (s : Tracer) : PatchOp → Prop
  | .add b news => ¬ s.Added b ∧ 4 ∣ (s.enterAddr b).toNat ∧ ∀ new ∈ news, new.Fits s.IsText s.slots
  | .enable b => s.Added b
  | .disable b => s.Added b

def PatchStep (rb : RbLib BpEntry) (s : Tracer) (op : PatchOp) (s' : Tracer) : Prop :=
  s.Legal op ∧ ∃ code, s.call rb op = .ok (s', code)

theorem IsText.word (h : s.IsText a) : a.toNat + 4 ≤ 2 ^ 64 := by
  have hlt := a.isLt
  have h4 := h.1
  omega

theorem patchInv_initial (h : PatchInitial s) : PatchInv s s := by
  refine ⟨.initial (fun _ => IsText.word) h, fun _ => rfl, fun _ => rfl, ?_, ?_, ?_,
    fun _ _ _ => rfl⟩
  · intro b hb
    rw [h.enable b] at hb
    cases hb
  · exact fun b hb => absurd hb (h.not_added b)
  · intro b hb
    rw [h.enable b] at hb
    cases hb

/-- A legal add that returns has changed nothing or has added the breakpoint. -/
theorem add_legal_cases {news : List NewSlots} (hi : PatchInv s₀ s)
    (hlegal : s.Legal (.add b news)) (hcall : s.breakpointAdd rb b news = .ok (s', code)) :
    s' = s ∨ ((∀ new ∈ news, new.Fits s₀.IsText s.slots) ∧
      ∃ o p i, s.SlotAdded s' b news o p i ∧ s₀.IsText (s.enterAddr b)) := by
  obtain ⟨hb, h4, hfits⟩ := hlegal
  have htext : s.IsText = s₀.IsText := by
    funext a
    rw [IsText, hi.objects]
    rfl
  have hfound : (s.objectGetByAddress (s.enterAddr b)).isSome → s₀.IsText (s.enterAddr b) := by
    intro hf
    rw [← htext]
    exact ⟨h4, hf⟩
  rw [htext] at hfits
  rcases add_cases hi.wellFormed (hi.fresh b hb) (hi.noSlot b) hcall with
    hclash | ⟨rfl, _⟩ | ⟨_, o, p, i, hadd⟩
  · exact (hi.toSlotInv.not_addClashes hfound hfits hclash).elim
  · exact Or.inl rfl
  · exact Or.inr ⟨hfits, o, p, i, hadd, hfound (Option.isSome_of_eq_some hadd.found)⟩

theorem patchInv_add {news : List NewSlots} (hi : PatchInv s₀ s)
    (hlegal : s.Legal (.add b news)) (hcall : s.breakpointAdd rb b news = .ok (s', code)) :
    PatchInv s₀ s' := by
  rcases add_legal_cases hi hlegal hcall with rfl | ⟨hfits, o, p, i, hadd, htext⟩
  · exact hi
  · exact hi.patchInv_slotAdded hlegal.1 hadd hfits htext

theorem patchInv_enable {mp : Mprotect} (hi : PatchInv s₀ s) (hb : s.Added b)
    (hcall : s.breakpointEnable b mp = .ok (s', code)) : PatchInv s₀ s' := by
  rcases enable_cases hcall with ⟨_, ⟨rfl, _⟩ | hp⟩
  · exact hi
  · exact hi.patchInv_patched hb hp rfl

theorem patchInv_disable {mp : Mprotect} (hi : PatchInv s₀ s) (hb : s.Added b)
    (hcall : s.breakpointDisable b mp = .ok (s', code)) : PatchInv s₀ s' := by
  rcases disable_cases hcall with ⟨_, ⟨rfl, _⟩ | ⟨p, hslot, hp⟩⟩
  · exact hi
  · obtain ⟨q, j, hq⟩ := hi.placed b hb
    cases hslot.symm.trans hq.slotSet
    rw [hq.slotIndex, hq.saved] at hp
    exact hi.patchInv_patched hb hp rfl

theorem patchInv_step {op : PatchOp} (h : PatchStep rb s op s') (hi : PatchInv s₀ s) :
    PatchInv s₀ s' := by
  obtain ⟨hlegal, code, hcall⟩ := h
  cases op with
  | add b news => exact patchInv_add hi hlegal hcall
  | enable b => exact patchInv_enable hi hlegal hcall
  | disable b => exact patchInv_disable hi hlegal hcall

theorem patchInv_run {ops : List PatchOp} (h₀ : PatchInitial s₀)
    (h : Run (PatchStep rb) s₀ ops s) : PatchInv s₀ s :=
  h.inv (fun _ _ _ => patchInv_step) (patchInv_initial h₀)

/-- The first breakpoint of `slotLibraries`, added and enabled. -/
theorem slotLibraries_first (rb : RbLib BpEntry) (mem : Memory 64) : ∃ s₁ s : Tracer,
    (slotLibraries mem).Legal (.add 1 [⟨0, 0x30000⟩]) ∧
    (slotLibraries mem).breakpointAdd rb 1 [⟨0, 0x30000⟩] = .ok (s₁, 0) ∧ s₁.Added 1 ∧
    s₁.breakpointEnable 1 .succeeds = .ok (s, 0) ∧ (s.bkpt 1).hasAttr .ENABLE = true ∧
    s.InText 1 ∧
    Enabled (slotLibraries mem).IsText (slotLibraries mem) s 1 [⟨0, 0x30000⟩] 0 := by
  have h₀ := patchInitial_slotLibraries mem
  have hfits : ∀ new ∈ [(⟨0, 0x30000⟩ : NewSlots)],
      new.Fits (slotLibraries mem).IsText (slotLibraries mem).slots :=
    fits_first _ fun a ha => lt_of_covered ha.2
  have hfind : (slotLibraries mem).objectGetByAddress 0x10000 = some 0 :=
    (twoLibraries_first (Or.inl rfl)).2.1
  have htext : (slotLibraries mem).IsText 0x10000 := ⟨by decide, Option.isSome_of_eq_some hfind⟩
  obtain ⟨s₁, s, hadd, hadded, henable, hon, h⟩ := add_enable (b := 1) (o := 0) rb
    (patchInv_initial h₀).toSlotInv (h₀.not_added 1) htext hfind rfl
    (fun c hc => absurd hc (h₀.not_added c)) hfits (by simp) (h₀.enable 1)
    ⟨_, rfl, (twoLibraries_first (Or.inl rfl)).2.2⟩
  refine ⟨s₁, s, ⟨h₀.not_added 1, htext.1, hfits⟩, hadd, hadded, henable, hon, ?_, h⟩
  refine ⟨0, ⟨[], 0x10000, 0x11000, 0xA, [1]⟩, h.obj, ?_, ?_⟩
  · rw [h.objects]
    rfl
  · rw [h.enterAddr]
    exact (twoLibraries_first (Or.inl rfl)).2.2

/-- Zeroes, but for a `nop` at 0x10000. -/
def nopMem : Memory 64 := storeInstr (fun _ => 0) 0x10000 0xD503201F

/-- What enabling (`on`) or disabling an added breakpoint leaves behind. -/
structure Switched (s₀ s s' : Tracer) (b : BkptPtr) (on : Bool) : Prop where
  enable : (s'.bkpt b).hasAttr .ENABLE = on
  word : loadInstr s'.mem (s.enterAddr b) =
    if on then brkInstr else loadInstr s₀.mem (s.enterAddr b)
  others : ∀ c, c ≠ b → s'.bkpt c = s.bkpt c
  text : ∀ a, s₀.IsText a → a ≠ s.enterAddr b → loadInstr s'.mem a = loadInstr s.mem a

/-- The word under an added breakpoint that is not enabled is the original one. -/
theorem original_of_disabled (hi : PatchInv s₀ s) (hb : s.Added b)
    (hoff : (s.bkpt b).hasAttr .ENABLE = false) :
    loadInstr s.mem (s.enterAddr b) = loadInstr s₀.mem (s.enterAddr b) := by
  have htext : s₀.IsText (s.enterAddr b) := hi.text b hb
  apply hi.original _ htext
  intro c hon he
  rw [← hi.enterAddr c] at he
  obtain rfl := hi.toSlotInv.enter_inj (hi.enable c hon) hb he
  cases hoff.symm.trans hon

theorem switched_patched {on : Bool} {v : Instr} (hi : PatchInv s₀ s) (hb : s.Added b)
    (hp : s.Patched s' b on v)
    (hv : v = if on then brkInstr else loadInstr s₀.mem (s.enterAddr b)) :
    Switched s₀ s s' b on := by
  have htext : s₀.IsText (s.enterAddr b) := hi.text b hb
  refine ⟨hp.enable, ?_, hp.others, ?_⟩
  · rw [hp.mem, loadInstr_storeInstr, hv]
  · intro a ha hne
    rw [hp.mem]
    exact loadInstr_storeInstr_apart (wordsApart_of_aligned ha.1 htext.1 hne) _ _

theorem enable_switched {mp : Mprotect} (hi : PatchInv s₀ s) (hb : s.Added b)
    (hcall : s.breakpointEnable b mp = .ok (s', code)) : Switched s₀ s s' b true := by
  rcases enable_cases hcall with ⟨_, ⟨rfl, hon⟩ | hp⟩
  · refine ⟨hon, ?_, fun _ _ => rfl, fun _ _ _ => rfl⟩
    rw [if_pos rfl, hi.enterAddr, hi.patched b hon]
  · exact switched_patched hi hb hp rfl

theorem disable_switched {mp : Mprotect} (hi : PatchInv s₀ s) (hb : s.Added b)
    (hcall : s.breakpointDisable b mp = .ok (s', code)) : Switched s₀ s s' b false := by
  rcases disable_cases hcall with ⟨_, ⟨rfl, hoff⟩ | ⟨p, hslot, hp⟩⟩
  · exact ⟨hoff, original_of_disabled hi hb hoff, fun _ _ => rfl, fun _ _ _ => rfl⟩
  · obtain ⟨q, j, hq⟩ := hi.placed b hb
    cases hslot.symm.trans hq.slotSet
    rw [hq.slotIndex, hq.saved, ← hi.enterAddr] at hp
    exact switched_patched hi hb hp rfl

/-- In every state of a run each text word is the breakpoint instruction or the original one, as
the flag says, and every slot keeps its copy; with all breakpoints disabled the text is the
original. An enable of an added breakpoint sets its flag and its word, a disable clears the flag and
brings the original word back, and neither changes another breakpoint or another text word; for
words inside the unlocked range both return 0. -/
theorem text_patch_reversible {ops : List PatchOp} (h₀ : PatchInitial s₀)
    (h : Run (PatchStep rb) s₀ ops s) :
    (∀ a, s₀.IsText a →
      ((∃ b, s.Added b ∧ s.enterAddr b = a ∧ (s.bkpt b).hasAttr .ENABLE = true) →
        loadInstr s.mem a = brkInstr) ∧
      ((¬ ∃ b, s.Added b ∧ s.enterAddr b = a ∧ (s.bkpt b).hasAttr .ENABLE = true) →
        loadInstr s.mem a = loadInstr s₀.mem a)) ∧
    (∀ b, s.Added b → ∃ p, (s.bkpt b).slotSet = some p ∧
      loadInstr s.mem ((s.slots.slotSet p).slotOffset (s.bkpt b).slotIndex) =
        loadInstr s₀.mem (s.enterAddr b) ∧
      loadInstr s.mem ((s.slots.slotSet p).slotOffset (s.bkpt b).slotIndex + 4) = brkInstr) ∧
    ((∀ b, s.Added b → (s.bkpt b).hasAttr .ENABLE = false) →
      ∀ a, s₀.IsText a → loadInstr s.mem a = loadInstr s₀.mem a) ∧
    (∀ b, s.Added b → s.InText b →
      (∃ s', s.breakpointEnable b .succeeds = .ok (s', 0)) ∧
        ∃ s', s.breakpointDisable b .succeeds = .ok (s', 0)) ∧
    (∀ b mp s' c, s.Added b →
      (s.breakpointEnable b mp = .ok (s', c) → c = 0 ∧ Switched s₀ s s' b true) ∧
        (s.breakpointDisable b mp = .ok (s', c) → c = 0 ∧ Switched s₀ s s' b false)) := by
  have hi := patchInv_run h₀ h
  refine ⟨?_, ?_, ?_, ?_, ?_⟩
  · intro a ha
    constructor
    · rintro ⟨b, _, rfl, hon⟩
      rw [hi.enterAddr, hi.patched b hon]
    · intro hnone
      apply hi.original a ha
      intro b hon he
      exact hnone ⟨b, hi.enable b hon, (hi.enterAddr b).trans he, hon⟩
  · intro b hb
    obtain ⟨p, i, hp⟩ := hi.placed b hb
    refine ⟨p, hp.slotSet, ?_, ?_⟩
    · rw [hp.slotIndex, hp.saved, hi.enterAddr]
    · rw [hp.slotIndex, hp.brk]
  · intro hoff a ha
    apply hi.original a ha
    intro b hon
    rw [hoff b (hi.enable b hon)] at hon
    cases hon
  · intro b hb hin
    obtain ⟨p, i, hp⟩ := hi.placed b hb
    exact ⟨enable_returns (hp.linked _) hin, disable_returns (hp.linked _) hp.slotSet hin⟩
  · intro b mp s' c hb
    constructor
    · exact fun hcall => ⟨(enable_cases hcall).1, enable_switched hi hb hcall⟩
    · exact fun hcall => ⟨(disable_cases hcall).1, disable_switched hi hb hcall⟩

/-- One breakpoint, added, enabled and disabled: its word is the breakpoint instruction after the
enable and the original `nop` again after the disable. -/
theorem text_patch_reversible_disabled : ∃ s₁ s : Tracer,
    Run (PatchStep .unbalanced) (slotLibraries nopMem) [.add 1 [⟨0, 0x30000⟩], .enable 1] s₁ ∧
      loadInstr s₁.mem 0x10000 = brkInstr ∧ s₁.breakpointDisable 1 .succeeds = .ok (s, 0) ∧
      Run (PatchStep .unbalanced) (slotLibraries nopMem)
        [.add 1 [⟨0, 0x30000⟩], .enable 1, .disable 1] s ∧
      (s.bkpt 1).hasAttr .ENABLE = false ∧ loadInstr s.mem 0x10000 = 0xD503201F := by
  have h₀ := patchInitial_slotLibraries nopMem
  obtain ⟨s₀, s₁, hlegal, hadd, hadded, henable, _, hin, h⟩ :=
    slotLibraries_first .unbalanced nopMem
  have hrun : Run (PatchStep .unbalanced) (slotLibraries nopMem)
      [.add 1 [⟨0, 0x30000⟩], .enable 1] s₁ :=
    .stepL ⟨hlegal, 0, hadd⟩ (.stepL ⟨hadded, 0, henable⟩ .refl)
  have hadded' := (h.added 1).mpr (Or.inl rfl)
  obtain ⟨_, _, _, hreturns, hswitch⟩ := text_patch_reversible h₀ hrun
  obtain ⟨s, hdisable⟩ := (hreturns 1 hadded' hin).2
  have hs := ((hswitch 1 _ s 0 hadded').2 hdisable).2
  have haddr : s₁.enterAddr 1 = 0x10000 := h.enterAddr 1
  have hword := hs.word
  rw [haddr] at hword
  exact ⟨s₁, s, hrun, h.enter, hdisable,
    hrun.append (.stepL ⟨hadded', 0, hdisable⟩ .refl), hs.enable,
    hword.trans (loadInstr_storeInstr _ _ _)⟩

end Tracer

end Atrace.Signal

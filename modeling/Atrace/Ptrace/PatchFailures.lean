import Atrace.Ptrace.Breakpoint

/-! `breakpoint_enable` and `breakpoint_disable` when a `ptrace` request fails. -/
namespace Atrace.Ptrace

open Atrace.Lib Signal

/-- Whether the `PTRACE_PEEKTEXT` and the `PTRACE_POKETEXT` of a call succeed. -/
structure TextAccess where
  peek : Bool
  poke : Bool

inductive TextCall where
  | enable (r : TextAccess)
  | disable (r : TextAccess)

namespace Profiler

variable (s : Profiler) (b : BkptPtr) (r : TextAccess)

/-- `ptrace(PTRACE_PEEKTEXT, ...)`; a failed request returns -1, which is also a legal word. -/
def tryPeekText (ok : Bool) (a : Word) : Word := if ok then s.peekText a else -1

/-- `ptrace(PTRACE_POKETEXT, ...)`; a failed request leaves the memory alone. -/
def tryPokeText (ok : Bool) (a v : Word) : Profiler := if ok then s.pokeText a v else s

/-- `breakpoint_enable`, which looks at no result. -/
def tryEnable : Profiler :=
  let bp := s.bkpt b
  if bp.enabled then s
  else
    let bp := { bp with oriInstrction := s.tryPeekText r.peek bp.address }
    (s.tryPokeText r.poke bp.address (archMakeBreakpoint bp.oriInstrction)).setBkpt b bp.setEnable

/-- `breakpoint_disable` -/
def tryDisable : Except Fault Profiler :=
  let bp := s.bkpt b
  if bp.enabled then do
    let instr ← archRemoveBreakpoint (s.tryPeekText r.peek bp.address) bp.oriInstrction
    pure ((s.tryPokeText r.poke bp.address instr).setBkpt b bp.clrEnable)
  else .ok s

def textCall : TextCall → Except Fault Profiler
  | .enable r => .ok (s.tryEnable b r)
  | .disable r => s.tryDisable b r

/-- The flag, the saved byte and the memory agree, where `m₀` is the text without the breakpoint. -/
structure Truthful (m₀ : Memory 64) (s : Profiler) (b : BkptPtr) : Prop where
  on : (s.bkpt b).enabled = true → s.mem (s.bkpt b).address = int3 ∧
    (s.bkpt b).oriInstrction.setWidth 8 = m₀ (s.bkpt b).address
  off : (s.bkpt b).enabled = false → s.mem (s.bkpt b).address = m₀ (s.bkpt b).address
  other : ∀ a, a ≠ (s.bkpt b).address → s.mem a = m₀ a

/-- The results that a call gets over: both requests succeed, or the one that fails would have
returned -1 or written what is there. -/
def Withstands (s : Profiler) (b : BkptPtr) : TextCall → Prop
  | .enable r => (s.bkpt b).enabled = true ∨
      ((r.peek = true ∨ s.peekText (s.bkpt b).address = -1) ∧
        (r.poke = true ∨ s.mem (s.bkpt b).address = int3))
  | .disable r => (s.bkpt b).enabled = false ∨
      (r.peek = true ∧ (r.poke = true ∨ (s.bkpt b).oriInstrction.setWidth 8 = int3))

variable {s b r}

/-- The calls of the other modules are those whose requests all succeed. -/
theorem tryEnable_ok : s.tryEnable b ⟨true, true⟩ = s.breakpointEnable b := rfl

theorem tryDisable_ok : s.tryDisable b ⟨true, true⟩ = s.breakpointDisable b := rfl

theorem tryPeekText_of {ok : Bool} {a : Word} (h : ok = true ∨ s.peekText a = -1) :
    s.tryPeekText ok a = s.peekText a := by
  rcases h with rfl | h
  · rfl
  · cases ok
    · exact h.symm
    · rfl

/-- Merging a byte into the word that is there, by a request that succeeds or has nothing to do. -/
theorem tryPokeText_mem {ok : Bool} {a : Word} {c : BitVec 8} (h : ok = true ∨ s.mem a = c) :
    (s.tryPokeText ok a (s.peekText a &&& ~~~0xFF ||| c.setWidth 64)).mem =
      Function.update s.mem a c := by
  cases ok with
  | true =>
    simp only [tryPokeText, if_true, pokeText, peekText]
    exact store_merge c
  | false =>
    obtain rfl := h.resolve_left (by simp)
    rw [Function.update_eq_self]
    rfl

/-- A word that differs from another one in its lowest byte at most. -/
theorem eq_of_bytes {v w : Word} (hlow : v.setWidth 8 = w.setWidth 8)
    (hhigh : ∀ i, 8 ≤ i → v.getLsbD i = w.getLsbD i) : v = w := by
  apply BitVec.eq_of_getLsbD_eq
  intro i hi
  by_cases h8 : 8 ≤ i
  · exact hhigh i h8
  · have hbit := congrArg (BitVec.getLsbD · i) hlow
    simpa [show i < 8 by omega] using hbit

theorem getLsbD_archMakeBreakpoint (v : Word) {i : Nat} (hi : 8 ≤ i) :
    (archMakeBreakpoint v).getLsbD i = v.getLsbD i := by
  have hmask : (0xFF : Word) = (BitVec.allOnes 8).setWidth 64 := rfl
  have hcc : (0xCC : Word) = int3.setWidth 64 := rfl
  by_cases h64 : i < 64
  · have h8 : ¬ i < 8 := by omega
    rw [archMakeBreakpoint, hmask, hcc]
    simp only [BitVec.getLsbD_or, BitVec.getLsbD_and, BitVec.getLsbD_not, BitVec.getLsbD_setWidth,
      BitVec.getLsbD_allOnes, BitVec.getLsbD_of_ge int3 i hi]
    simp [h64, h8]
  · rw [BitVec.getLsbD_of_ge _ _ (by omega), BitVec.getLsbD_of_ge _ _ (by omega)]

/-- What is poked around a patched byte is right only if the word was read right. -/
theorem peek_eq_of_poke {a v : Word}
    (hother : ∀ x, x ≠ a → (s.pokeText a (archMakeBreakpoint v)).mem x = s.mem x)
    (hlow : v.setWidth 8 = s.mem a) : v = s.peekText a := by
  apply eq_of_bytes
  · rw [hlow, peekText, Memory.setWidth_load (by omega)]
  · intro i hi
    have hload : (s.pokeText a (archMakeBreakpoint v)).mem.load a 8 = archMakeBreakpoint v :=
      Memory.load_store (n := 8) (by decide) _
    rw [← getLsbD_archMakeBreakpoint v hi, ← hload]
    exact Memory.getLsbD_load_congr hother (by decide) hi

section Calls

variable {m₀ : Memory 64} {s' : Profiler}

theorem truthful_on_iff (hon : (s.bkpt b).enabled = true) :
    Truthful m₀ s b ↔ s.mem (s.bkpt b).address = int3 ∧
      (s.bkpt b).oriInstrction.setWidth 8 = m₀ (s.bkpt b).address ∧
      ∀ a, a ≠ (s.bkpt b).address → s.mem a = m₀ a := by
  constructor
  · intro h
    exact ⟨(h.on hon).1, (h.on hon).2, h.other⟩
  · rintro ⟨hmem, hsaved, hother⟩
    exact ⟨fun _ => ⟨hmem, hsaved⟩, fun hoff => by simp [hon] at hoff, hother⟩

theorem truthful_off_iff (hoff : (s.bkpt b).enabled = false) : Truthful m₀ s b ↔ s.mem = m₀ := by
  constructor
  · intro h
    funext a
    by_cases ha : a = (s.bkpt b).address
    · rw [ha]
      exact h.off hoff
    · exact h.other a ha
  · rintro rfl
    exact ⟨fun hon => by simp [hoff] at hon, fun _ => rfl, fun _ _ => rfl⟩

theorem tryEnable_of_disabled (hoff : (s.bkpt b).enabled = false) :
    s.tryEnable b r =
      (s.tryPokeText r.poke (s.bkpt b).address
        (archMakeBreakpoint (s.tryPeekText r.peek (s.bkpt b).address))).setBkpt b
        { s.bkpt b with
          oriInstrction := s.tryPeekText r.peek (s.bkpt b).address }.setEnable := by
  simp [tryEnable, hoff]

/-- A first enable sets the flag, so it has to save the byte and patch it, and nothing else. -/
theorem tryEnable_truthful_iff (hi : Truthful m₀ s b) (hoff : (s.bkpt b).enabled = false) :
    Truthful m₀ (s.tryEnable b r) b ↔
      ((r.peek = true ∨ s.peekText (s.bkpt b).address = -1) ∧
        (r.poke = true ∨ s.mem (s.bkpt b).address = int3)) := by
  obtain rfl := (truthful_off_iff hoff).mp hi
  rw [tryEnable_of_disabled hoff, truthful_on_iff (by simp [setBkpt])]
  generalize hv : s.tryPeekText r.peek (s.bkpt b).address = v
  simp only [setBkpt, Function.update_self, Breakpoint.setEnable]
  constructor
  · rintro ⟨hmem, hsaved, hother⟩
    cases hpoke : r.poke with
    | true =>
      rw [hpoke] at hother
      have hword := peek_eq_of_poke hother hsaved
      refine ⟨?_, Or.inl rfl⟩
      cases hpeek : r.peek with
      | true => exact Or.inl rfl
      | false =>
        rw [hpeek] at hv
        exact Or.inr (hword ▸ hv.symm)
    | false =>
      have hleft : s.tryPokeText false (s.bkpt b).address (archMakeBreakpoint v) = s := rfl
      rw [hpoke, hleft] at hmem
      refine ⟨?_, Or.inr hmem⟩
      cases hpeek : r.peek with
      | true => exact Or.inl rfl
      | false =>
        -- the byte saved by a failed peek is 0xFF, and the byte in memory is 0xCC
        have hone : v = -1 := by
          rw [← hv, hpeek]
          rfl
        rw [hone, hmem] at hsaved
        exact absurd hsaved (by decide)
  · rintro ⟨hpeek, hpoke⟩
    have hword : v = s.peekText (s.bkpt b).address := hv ▸ tryPeekText_of hpeek
    have hlow : (s.peekText (s.bkpt b).address).setWidth 8 = s.mem (s.bkpt b).address :=
      Memory.setWidth_load (by omega)
    have hpoked : (s.tryPokeText r.poke (s.bkpt b).address (archMakeBreakpoint v)).mem =
        Function.update s.mem (s.bkpt b).address int3 := by
      rw [hword, show archMakeBreakpoint (s.peekText (s.bkpt b).address) =
        s.peekText (s.bkpt b).address &&& ~~~0xFF ||| int3.setWidth 64 from rfl]
      exact tryPokeText_mem hpoke
    rw [hpoked]
    refine ⟨?_, ?_, ?_⟩
    · simp only [Function.update_self]
    · rw [hword]
      exact hlow
    · exact fun a ha => Function.update_of_ne ha ..

theorem tryDisable_of_disabled (hoff : (s.bkpt b).enabled = false) : s.tryDisable b r = .ok s := by
  simp [tryDisable, hoff]

/-- A failed peek fails the assertion, as -1 does not end in a breakpoint instruction. -/
theorem tryDisable_of_enabled (hon : (s.bkpt b).enabled = true)
    (hmem : s.mem (s.bkpt b).address = int3) :
    s.tryDisable b r =
      if r.peek then
        .ok ((s.tryPokeText r.poke (s.bkpt b).address (s.peekText (s.bkpt b).address &&& ~~~0xFF |||
          ((s.bkpt b).oriInstrction.setWidth 8).setWidth 64)).setBkpt b (s.bkpt b).clrEnable)
      else .error .assertion := by
  have hbyte : s.peekText (s.bkpt b).address &&& 0xFF = 0xCC := by
    rw [and_ff_eq_int3_iff, peekText, Memory.setWidth_load (by omega), hmem]
  simp only [tryDisable, hon, if_true, archRemoveBreakpoint]
  cases r.peek with
  | true =>
    rw [tryPeekText, if_pos rfl, if_pos hbyte, and_ff]
    rfl
  | false =>
    rw [tryPeekText, if_neg (by simp), if_neg (by decide)]
    rfl

theorem tryDisable_truthful_iff (hi : Truthful m₀ s b) (hon : (s.bkpt b).enabled = true) :
    (∃ s', s.tryDisable b r = .ok s' ∧ Truthful m₀ s' b) ↔
      (r.peek = true ∧ (r.poke = true ∨ (s.bkpt b).oriInstrction.setWidth 8 = int3)) := by
  obtain ⟨hmem, hsaved, hother⟩ := (truthful_on_iff hon).mp hi
  rw [tryDisable_of_enabled hon hmem]
  cases r.peek with
  | false => simp
  | true =>
    have hoff : ((((s.tryPokeText r.poke (s.bkpt b).address
        (s.peekText (s.bkpt b).address &&& ~~~0xFF |||
          ((s.bkpt b).oriInstrction.setWidth 8).setWidth 64)).setBkpt b
        (s.bkpt b).clrEnable).bkpt b).enabled) = false := by
      simp [setBkpt]
    rw [if_pos rfl]
    constructor
    · rintro ⟨s', hs', h⟩
      obtain rfl := Except.ok.inj hs'
      rw [truthful_off_iff hoff] at h
      refine ⟨rfl, ?_⟩
      cases hpoke : r.poke with
      | true => exact Or.inl rfl
      | false =>
        rw [hpoke] at h
        rw [hsaved, ← h]
        exact Or.inr hmem
    · rintro ⟨_, hpoke⟩
      refine ⟨_, rfl, (truthful_off_iff hoff).mpr ?_⟩
      have hwrite := tryPokeText_mem (s := s) (a := (s.bkpt b).address)
        (hpoke.imp_right fun he => hmem.trans he.symm)
      refine hwrite.trans ?_
      funext a
      by_cases ha : a = (s.bkpt b).address
      · subst a
        rw [Function.update_self, hsaved]
      · rw [Function.update_of_ne ha, hother a ha]

theorem textCall_truthful_iff {c : TextCall} (hi : Truthful m₀ s b) :
    (∃ s', s.textCall b c = .ok s' ∧ Truthful m₀ s' b) ↔ Withstands s b c := by
  cases c with
  | enable r =>
    cases hon : (s.bkpt b).enabled with
    | true =>
      have hsame : s.tryEnable b r = s := by simp [tryEnable, hon]
      simp [textCall, Withstands, hon, hsame, hi]
    | false => simpa [textCall, Withstands, hon] using tryEnable_truthful_iff hi hon
  | disable r =>
    cases hon : (s.bkpt b).enabled with
    | false => simp [textCall, Withstands, hon, tryDisable_of_disabled hon, hi]
    | true => simpa [textCall, Withstands, hon] using tryDisable_truthful_iff hi hon

end Calls

/-- The breakpoint is as its flag says after each of the calls, and no assertion fails. -/
def TruthfulAfter (m₀ : Memory 64) (b : BkptPtr) : Profiler → List TextCall → Prop
  | _, [] => True
  | s, c :: cs => ∃ s', s.textCall b c = .ok s' ∧ Truthful m₀ s' b ∧ TruthfulAfter m₀ b s' cs

/-- Every call withstands the results of its requests, in the state in which it is made. -/
def AllWithstood (b : BkptPtr) : Profiler → List TextCall → Prop
  | _, [] => True
  | s, c :: cs => Withstands s b c ∧ ∀ s', s.textCall b c = .ok s' → AllWithstood b s' cs

/-- The flag tells the truth through a sequence of calls just when no call is harmed by a failure
that it does not look at. -/
theorem flag_truthful_iff {m₀ : Memory 64} (hi : Truthful m₀ s b) (calls : List TextCall) :
    TruthfulAfter m₀ b s calls ↔ AllWithstood b s calls := by
  induction calls generalizing s with
  | nil => exact Iff.rfl
  | cons c calls ih =>
    have hstep := textCall_truthful_iff (c := c) hi
    constructor
    · rintro ⟨s', hrun, hi', hrest⟩
      refine ⟨hstep.mp ⟨s', hrun, hi'⟩, ?_⟩
      intro s'' hrun'
      obtain rfl := Except.ok.inj (hrun.symm.trans hrun')
      exact (ih hi').mp hrest
    · rintro ⟨hc, hrest⟩
      obtain ⟨s', hrun, hi'⟩ := hstep.mpr hc
      exact ⟨s', hrun, hi', (ih hi').mpr (hrest s' hrun)⟩

/-- A breakpoint on one `nop` of many. -/
def oneBkpt : Profiler := ⟨fun _ => 0x90, fun _ => ⟨0x1000, 0, 0⟩, [], [0]⟩

theorem truthful_oneBkpt : Truthful (fun _ => 0x90) oneBkpt 0 :=
  (truthful_off_iff (by decide)).mpr rfl

theorem flag_truthful_iff_twice :
    TruthfulAfter (fun _ => 0x90) 0 oneBkpt [.enable ⟨true, true⟩, .disable ⟨true, true⟩] ↔
      AllWithstood 0 oneBkpt [.enable ⟨true, true⟩, .disable ⟨true, true⟩] :=
  flag_truthful_iff truthful_oneBkpt _

/-- A peek that fails writes seven bytes of 0xFF over the code behind the breakpoint. -/
theorem failed_peek_overwrites : Truthful (fun _ => 0x90) oneBkpt 0 ∧
    (oneBkpt.tryEnable 0 ⟨false, true⟩).mem 0x1001 = 0xFF ∧
      ¬ TruthfulAfter (fun _ => 0x90) 0 oneBkpt [.enable ⟨false, true⟩] := by
  have hbyte : (oneBkpt.tryEnable 0 ⟨false, true⟩).mem 0x1001 = 0xFF := by decide
  refine ⟨truthful_oneBkpt, hbyte, ?_⟩
  rintro ⟨s', hrun, hi, _⟩
  obtain rfl := Except.ok.inj hrun
  have hother := hi.other 0x1001 (by decide)
  rw [hbyte] at hother
  exact absurd hother (by decide)

end Profiler

end Atrace.Ptrace

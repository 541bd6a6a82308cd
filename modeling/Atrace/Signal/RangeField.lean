import Atrace.Signal.MapsMalformed

/-! `parse_mmap_range` on any range field. The function is the same in both tracers. -/
namespace Atrace.Signal

/-- Hexadecimal digits, a dash, hexadecimal digits. -/
structure RangeForm (w start stop : List UInt8) : Prop where
  eq : w = start ++ chDash :: stop
  start_ne : start ≠ []
  stop_ne : stop ≠ []
  start_hex : ∀ c ∈ start, (hexVal c).isSome
  stop_hex : ∀ c ∈ stop, (hexVal c).isSome

/-- A field of another form is answered with `NULL`; one of this form, if its numbers are not too
long, with what stands behind the blank. -/
structure RangeAnswered (w r : List UInt8) : Prop where
  bad : (¬ ∃ start stop, RangeForm w start stop) → parseMmapRange (w ++ chSpace :: r) = .ok none
  good : ∀ start stop, RangeForm w start stop → start.length ≤ 16 → stop.length ≤ 16 →
    ∃ first last, parseMmapRange (w ++ chSpace :: r) = .ok (some (r, first, last))

/-- Something stands in front of the dash, and something behind it unless `hex_to_int` refuses what
stands in front. -/
def Guarded (w : List UInt8) : Prop :=
  startOf w ≠ [] ∧ (stopOf w = [] → ¬ HexWord (startOf w))

variable {w r start stop : List UInt8}

theorem RangeForm.parts (h : RangeForm w start stop) : startOf w = start ∧ stopOf w = stop := by
  have hdash : ∀ c ∈ start, (c != chDash) = true := by
    intro c hc
    exact bne_iff_ne.mpr (hexVal_ne (h.start_hex c hc)).2.1
  rw [h.eq, startOf, stopOf, List.takeWhile_append_of_pos hdash, List.dropWhile_append_of_pos hdash]
  simp

theorem RangeForm.guarded (h : RangeForm w start stop) : Guarded w := by
  obtain ⟨hstart, hstop⟩ := h.parts
  refine ⟨hstart ▸ h.start_ne, ?_⟩
  rw [hstop]
  exact fun hnil => absurd hnil h.stop_ne

theorem RangeForm.read (h : RangeForm w start stop) (hstart : start.length ≤ 16)
    (hstop : stop.length ≤ 16) : ReadRange w := by
  rw [ReadRange, h.parts.1, h.parts.2]
  exact ⟨⟨h.start_ne, by omega, h.start_hex⟩, ⟨h.stop_ne, by omega, h.stop_hex⟩⟩

theorem form_of_read (h : ReadRange w) : RangeForm w (startOf w) (stopOf w) := by
  refine ⟨?_, h.1.1, h.2.1, h.1.2.2, h.2.2.2⟩
  exact (range_parts w).1.resolve_right fun hnone => h.2.1 hnone.2

/-- The fields that no assertion stops. -/
theorem guarded_iff : Guarded w ↔ ReadRange w ∨ RefusedRange w := by
  constructor
  · rintro ⟨hstart, hstop⟩
    by_cases hhex : HexWord (startOf w)
    · have hne : stopOf w ≠ [] := fun hnil => hstop hnil hhex
      by_cases hhex' : HexWord (stopOf w)
      · exact Or.inl ⟨hhex, hhex'⟩
      · exact Or.inr (Or.inr ⟨hhex, hne, hhex'⟩)
    · exact Or.inr (Or.inl ⟨hstart, hhex⟩)
  · rintro (⟨hstart, hstop⟩ | ⟨hstart, hnot⟩ | ⟨hstart, hstop⟩)
    · exact ⟨hstart.1, fun hnil => absurd hnil hstop.1⟩
    · exact ⟨hstart, fun _ => hnot⟩
    · exact ⟨hstart.1, fun hnil => absurd hnil hstop.1⟩

/-- `parse_mmap_range` answers a field as it should exactly when no part of it is missing that
`hex_to_int` is called on. -/
theorem parseMmapRange_answers_iff (hw : chSpace ∉ w) (hw0 : 0 ∉ w) (r : List UInt8) :
    RangeAnswered w r ↔ Guarded w := by
  rw [guarded_iff]
  cases parseMmapRange_word hw hw0 with
  | read hread hrun =>
    refine iff_of_true ⟨?_, fun _ _ _ _ _ => ⟨_, _, hrun r⟩⟩ (Or.inl hread)
    exact fun hnone => absurd ⟨_, _, form_of_read hread⟩ hnone
  | refused hrefused hrun =>
    refine iff_of_true ⟨fun _ => hrun r, ?_⟩ (Or.inr hrefused)
    intro start stop hform hstart hstop
    exact absurd hrefused (not_refused_of_read (hform.read hstart hstop))
  | fails hread hrefused hrun =>
    have hnot : ¬ (ReadRange w ∨ RefusedRange w) := not_or.mpr ⟨hread, hrefused⟩
    refine iff_of_false ?_ hnot
    intro h
    have hnone : ¬ ∃ start stop, RangeForm w start stop := by
      rintro ⟨start, stop, hform⟩
      exact hnot (guarded_iff.mp hform.guarded)
    cases (hrun r).symm.trans (h.bad hnone)

/-- `1z-2` -/
theorem parseMmapRange_answers_iff_refused : RangeAnswered [0x31, 0x7a, 0x2d, 0x32] [] := by
  refine (parseMmapRange_answers_iff (by decide) (by decide) []).mpr ⟨by decide, ?_⟩
  exact fun hnil => absurd hnil (by decide)

/-- A field without a dash trips the assertion of `hex_to_int`, and so does one with nothing in
front of its dash. -/
theorem missing_part_asserts :
    parseMmapRange [0x31, 0x20] = .error .assertion ∧
      parseMmapRange [0x2d, 0x31, 0x20] = .error .assertion ∧
      ¬ RangeAnswered [0x31] [] ∧ ¬ RangeAnswered [0x2d, 0x31] [] := by
  have hdash : parseMmapRange [0x31, 0x20] = .error .assertion := by decide
  have hfirst : parseMmapRange [0x2d, 0x31, 0x20] = .error .assertion := by decide
  refine ⟨hdash, hfirst, ?_, ?_⟩
  · intro h
    have hnone : ¬ ∃ start stop, RangeForm [0x31] start stop := by
      rintro ⟨start, stop, hform⟩
      exact hform.stop_ne (hform.parts.2.symm.trans rfl)
    cases hdash.symm.trans (h.bad hnone)
  · intro h
    have hnone : ¬ ∃ start stop, RangeForm [0x2d, 0x31] start stop := by
      rintro ⟨start, stop, hform⟩
      exact hform.start_ne (hform.parts.1.symm.trans rfl)
    cases hfirst.symm.trans (h.bad hnone)

end Atrace.Signal

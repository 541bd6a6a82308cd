import Mathlib.Data.Finset.Card
import Mathlib.Data.Finset.Range

/-! Bitmaps kept as a vector of words: single-bit updates, zero bits, first set bit. -/
namespace Atrace.Lib

/-- One more than the position of the lowest set bit, and 0 for the zero word. -/
def ffs {w : Nat} (x : BitVec w) : Nat := if x = 0 then 0 else x.ctz.toNat + 1

theorem ffs_le {w : Nat} (x : BitVec w) : ffs x ≤ w := by
  unfold ffs
  split
  · omega
  · rename_i hx
    have h := BitVec.ctz_lt_iff_ne_zero.mpr hx
    rw [BitVec.lt_def] at h
    simp only [BitVec.natCast_eq_ofNat, BitVec.toNat_ofNat] at h
    exact Nat.succ_le_of_lt (Nat.lt_of_lt_of_le h (Nat.mod_le _ _))

theorem ffs_of_ne_zero {w : Nat} {x : BitVec w} (hx : x ≠ 0) : ffs x = x.ctz.toNat + 1 :=
  if_neg hx

theorem getLsbD_ffs {w : Nat} {x : BitVec w} (hx : x ≠ 0) : x.getLsbD (ffs x - 1) = true := by
  rw [ffs_of_ne_zero hx]
  exact BitVec.getLsbD_true_ctz_of_ne_zero hx

theorem getLsbD_of_lt_ffs {w : Nat} {x : BitVec w} {i : Nat} (hi : i < ffs x - 1) :
    x.getLsbD i = false := by
  unfold ffs at hi
  split at hi
  · omega
  · exact BitVec.getLsbD_false_of_lt_ctz (by omega)

theorem getLsbD_one_shiftLeft {w : Nat} (pos i : Nat) :
    (1#w <<< pos).getLsbD i = decide (i < w ∧ i = pos) := by
  rw [BitVec.getLsbD_shiftLeft, BitVec.getLsbD_one]
  by_cases hi : i < w <;> by_cases hp : i < pos <;> by_cases he : i = pos <;>
    simp_all <;> omega

/-- The usual test of one flag of a mask. -/
theorem and_flag_ne_zero {w : Nat} (x : BitVec w) {i : Nat} (hi : i < w) :
    (x &&& 1#w <<< i != 0) = x.getLsbD i := by
  have hne : BitVec.twoPow w i ≠ 0#w := by
    intro h0
    have hbit := congrArg (fun b => b.getLsbD i) h0
    simp [hi] at hbit
  rw [← BitVec.twoPow_eq, BitVec.and_twoPow]
  cases x.getLsbD i <;> simp [hne]

theorem getLsbD_clear {w : Nat} (x : BitVec w) (pos : Nat) {i : Nat} (hi : i < w) :
    (x &&& ~~~(1#w <<< pos)).getLsbD i = (x.getLsbD i && decide (i ≠ pos)) := by
  rw [BitVec.getLsbD_and, BitVec.getLsbD_not, getLsbD_one_shiftLeft]
  by_cases he : i = pos <;> simp [hi, he]

theorem getLsbD_set {w : Nat} (x : BitVec w) (pos : Nat) {i : Nat} (hi : i < w) :
    (x ||| (1#w <<< pos)).getLsbD i = (x.getLsbD i || decide (i = pos)) := by
  rw [BitVec.getLsbD_or, getLsbD_one_shiftLeft]
  simp [hi]

namespace Bitmap

variable {w n : Nat} {v : Vector (BitVec w) n} {i j k pos : Nat}

/-- Bit `i` of the map, counted across its words. -/
def bit (v : Vector (BitVec w) n) (i : Nat) : Bool := (v[i / w]?.getD 0).getLsbD (i % w)

/-- The map with bit `pos` of word `j` cleared. -/
def clear (v : Vector (BitVec w) n) (j pos : Nat) : Vector (BitVec w) n :=
  v.setIfInBounds j (v[j]?.getD 0 &&& ~~~(1#w <<< pos))

/-- The map with bit `pos` of word `j` set. -/
def set (v : Vector (BitVec w) n) (j pos : Nat) : Vector (BitVec w) n :=
  v.setIfInBounds j (v[j]?.getD 0 ||| (1#w <<< pos))

/-- The positions of the zero bits. -/
def zeros (v : Vector (BitVec w) n) : Finset Nat :=
  (Finset.range (n * w)).filter fun i => bit v i = false

theorem mem_zeros : i ∈ zeros v ↔ i < n * w ∧ bit v i = false := by
  simp [zeros]

theorem card_zeros_le (v : Vector (BitVec w) n) : (zeros v).card ≤ n * w := by
  exact (Finset.card_filter_le _ _).trans_eq (Finset.card_range _)

theorem bit_word (hp : pos < w) : bit v (j * w + pos) = (v[j]?.getD 0).getLsbD pos := by
  have hdiv : (j * w + pos) / w = j := by
    rw [Nat.mul_comm, Nat.mul_add_div (by omega), Nat.div_eq_of_lt hp, Nat.add_zero]
  have hmod : (j * w + pos) % w = pos := by
    rw [Nat.mul_comm, Nat.mul_add_mod, Nat.mod_eq_of_lt hp]
  rw [bit, hdiv, hmod]

variable (i j pos) in
theorem word_pos (hw : 0 < w) : i = j * w + pos ∧ pos < w ↔ i / w = j ∧ i % w = pos := by
  constructor
  · rintro ⟨rfl, hp⟩
    rw [Nat.mul_comm, Nat.mul_add_div hw, Nat.div_eq_of_lt hp, Nat.mul_add_mod,
      Nat.mod_eq_of_lt hp]
    simp
  · rintro ⟨rfl, rfl⟩
    exact ⟨by rw [Nat.mul_comm]; exact (Nat.div_add_mod i w).symm, Nat.mod_lt _ hw⟩

theorem bit_clear (hj : j < n) (hp : pos < w) (i : Nat) :
    bit (clear v j pos) i = (bit v i && decide (i ≠ j * w + pos)) := by
  have hw : 0 < w := by omega
  have hpos : i = j * w + pos ↔ i / w = j ∧ i % w = pos := by
    simpa [hp] using word_pos i j pos hw
  by_cases hi : j = i / w
  · subst hi
    rw [bit, clear, Vector.getElem?_setIfInBounds_self_of_lt hj, Option.getD_some,
      getLsbD_clear _ _ (Nat.mod_lt _ hw)]
    simp [bit, hpos]
  · rw [bit, clear, Vector.getElem?_setIfInBounds_ne hi]
    simp [bit, hpos, Ne.symm hi]

theorem bit_set (hj : j < n) (hp : pos < w) (i : Nat) :
    bit (set v j pos) i = (bit v i || decide (i = j * w + pos)) := by
  have hw : 0 < w := by omega
  have hpos : i = j * w + pos ↔ i / w = j ∧ i % w = pos := by
    simpa [hp] using word_pos i j pos hw
  by_cases hi : j = i / w
  · subst hi
    rw [bit, set, Vector.getElem?_setIfInBounds_self_of_lt hj, Option.getD_some,
      getLsbD_set _ _ (Nat.mod_lt _ hw)]
    simp [bit, hpos]
  · rw [bit, set, Vector.getElem?_setIfInBounds_ne hi]
    simp [bit, hpos, Ne.symm hi]

theorem index_lt (hj : j < n) (hp : pos < w) : j * w + pos < n * w := by
  calc j * w + pos < j * w + w := by omega
    _ = (j + 1) * w := by rw [Nat.succ_mul]
    _ ≤ n * w := Nat.mul_le_mul_right w hj

/-- A map is its bits. -/
theorem eq_of_bit {v' : Vector (BitVec w) n} (h : ∀ i < n * w, bit v i = bit v' i) : v = v' := by
  apply Vector.ext
  intro j hj
  apply BitVec.eq_of_getLsbD_eq
  intro pos hp
  have hbit := h (j * w + pos) (index_lt hj hp)
  rw [bit_word hp, bit_word hp, Vector.getElem?_eq_getElem hj, Vector.getElem?_eq_getElem hj] at hbit
  exact hbit

theorem set_clear (hj : j < n) (hp : pos < w) (hb : bit v (j * w + pos) = true) :
    set (clear v j pos) j pos = v := by
  apply eq_of_bit
  intro i _
  rw [bit_set hj hp, bit_clear hj hp]
  by_cases hi : i = j * w + pos
  · simp [hi, hb]
  · simp [hi]

theorem zeros_clear (hj : j < n) (hp : pos < w) :
    zeros (clear v j pos) = insert (j * w + pos) (zeros v) := by
  ext i
  have := index_lt hj hp
  by_cases hi : i = j * w + pos <;> simp [mem_zeros, bit_clear hj hp, hi, this]

theorem zeros_set (hj : j < n) (hp : pos < w) :
    zeros (set v j pos) = (zeros v).erase (j * w + pos) := by
  ext i
  by_cases hi : i = j * w + pos <;> simp [mem_zeros, bit_set hj hp, hi]

theorem card_zeros_clear (hj : j < n) (hp : pos < w) (hb : bit v (j * w + pos) = true) :
    (zeros (clear v j pos)).card = (zeros v).card + 1 := by
  rw [zeros_clear hj hp, Finset.card_insert_of_notMem]
  simp [mem_zeros, hb]

theorem card_zeros_set (hj : j < n) (hp : pos < w) (hb : bit v (j * w + pos) = false) :
    (zeros (set v j pos)).card + 1 = (zeros v).card := by
  rw [zeros_set hj hp]
  exact Finset.card_erase_add_one (mem_zeros.mpr ⟨index_lt hj hp, hb⟩)

theorem card_zeros_eq_iff : (zeros v).card = n * w ↔ ∀ i < n * w, bit v i = false := by
  have h := Finset.card_filter_eq_iff (s := Finset.range (n * w)) (p := fun i => bit v i = false)
  simpa [zeros] using h

@[simp] theorem bit_replicate_allOnes (hi : i < n * w) :
    bit (Vector.replicate n (BitVec.allOnes w)) i = true := by
  have hw : 0 < w := by
    rcases Nat.eq_zero_or_pos w with rfl | h
    · simp at hi
    · exact h
  have hd : i / w < n := by rwa [Nat.div_lt_iff_lt_mul hw]
  simp [bit, hd, Nat.mod_lt _ hw]

theorem zeros_replicate_allOnes : zeros (Vector.replicate n (BitVec.allOnes w)) = ∅ := by
  ext i
  constructor
  · intro h
    obtain ⟨hi, hb⟩ := mem_zeros.mp h
    rw [bit_replicate_allOnes hi] at hb
    cases hb
  · intro h
    simp at h

end Bitmap

end Atrace.Lib

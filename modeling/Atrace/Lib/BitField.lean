import Mathlib.Data.Nat.Basic
import Mathlib.Algebra.Order.Group.Nat

/-! Numbers packed side by side into one word. -/
namespace Atrace.Lib

variable {w n s : Nat} {x y : BitVec w}

/-- The lowest `n` bits. -/
def lowMask (w n : Nat) : BitVec w := 1#w <<< n - 1#w

theorem toNat_lowMask (hn : n < w) : (lowMask w n).toNat = 2 ^ n - 1 := by
  have hlt : 2 ^ n < 2 ^ w := Nat.pow_lt_pow_right (by decide) hn
  have hpos : 0 < 2 ^ n := Nat.two_pow_pos n
  have hone : (1#w <<< n).toNat = 2 ^ n := by
    rw [BitVec.toNat_shiftLeft, BitVec.toNat_one (by omega), Nat.shiftLeft_eq, Nat.one_mul,
      Nat.mod_eq_of_lt hlt]
  rw [lowMask, BitVec.toNat_sub_of_le, hone, BitVec.toNat_one (by omega)]
  rw [BitVec.le_def, hone, BitVec.toNat_one (by omega)]
  exact hpos

theorem toNat_and_lowMask (x : BitVec w) (hn : n < w) :
    (x &&& lowMask w n).toNat = x.toNat % 2 ^ n := by
  rw [BitVec.toNat_and, toNat_lowMask hn, Nat.and_two_pow_sub_one_eq_mod]

/-- A field that ends in the word is read alike by an arithmetic and a logical shift. -/
theorem sshiftRight_and_lowMask (x : BitVec w) (h : s + n ≤ w) (hs : 0 < s) :
    x.sshiftRight s &&& lowMask w n = x >>> s &&& lowMask w n := by
  apply BitVec.eq_of_getLsbD_eq
  intro i hi
  have hmask : (lowMask w n).getLsbD i = decide (i < n) := by
    rw [← BitVec.testBit_toNat, toNat_lowMask (by omega), Nat.testBit_two_pow_sub_one]
  rw [BitVec.getLsbD_and, BitVec.getLsbD_and, hmask, BitVec.getLsbD_sshiftRight,
    BitVec.getLsbD_ushiftRight]
  by_cases hin : i < n
  · have hlt : s + i < w := by omega
    have hge : ¬ w ≤ i := by omega
    simp [hlt, hge]
  · simp [hin]

theorem toNat_field (x : BitVec w) (h : s + n ≤ w) (hs : 0 < s) :
    (x.sshiftRight s &&& lowMask w n).toNat = x.toNat / 2 ^ s % 2 ^ n := by
  rw [sshiftRight_and_lowMask x h hs, toNat_and_lowMask _ (by omega), BitVec.toNat_ushiftRight,
    Nat.shiftRight_eq_div_pow]

/-- Two fields side by side. -/
theorem toNat_shiftLeft_or (hx : x.toNat * 2 ^ s < 2 ^ w) (hy : y.toNat < 2 ^ s) :
    (x <<< s ||| y).toNat = x.toNat * 2 ^ s + y.toNat := by
  have hshift : (x <<< s).toNat = x.toNat <<< s := by
    rw [BitVec.toNat_shiftLeft, Nat.shiftLeft_eq, Nat.mod_eq_of_lt hx]
  rw [BitVec.toNat_or, hshift, ← Nat.shiftLeft_add_eq_or_of_lt hy, Nat.shiftLeft_eq]

section Tag

/-! A pointer whose clear bits `k` hold a tag. -/

variable {w p k c : BitVec n}

theorem getElem_false_of_and_eq_zero (hp : p &&& k = 0) {i : Nat} (hi : i < n) :
    p[i] = true → k[i] = false := by
  have hbit : (p &&& k)[i] = (0 : BitVec n)[i] := by rw [hp]
  simpa using hbit

theorem tagged_and_not (hp : p &&& k = 0) : (w &&& k ||| p) &&& ~~~k = p := by
  ext i hi
  have hbit := getElem_false_of_and_eq_zero hp hi
  simp only [BitVec.getElem_and, BitVec.getElem_or, BitVec.getElem_not]
  grind

theorem tagged_and (hp : p &&& k = 0) (hc : c &&& ~~~k = 0) :
    (w &&& k ||| p) &&& c = w &&& c := by
  ext i hi
  have hbit := getElem_false_of_and_eq_zero hp hi
  have hsub := getElem_false_of_and_eq_zero hc hi
  simp only [BitVec.getElem_and, BitVec.getElem_or, BitVec.getElem_not] at *
  grind

theorem or_eq_or_and_not (w k : BitVec n) : w ||| k = k ||| w &&& ~~~k := by
  ext i hi
  simp only [BitVec.getElem_and, BitVec.getElem_or, BitVec.getElem_not]
  grind

theorem or_and_not (hc : c &&& ~~~k = 0) : (w ||| c) &&& ~~~k = w &&& ~~~k := by
  ext i hi
  have hsub := getElem_false_of_and_eq_zero hc hi
  simp only [BitVec.getElem_and, BitVec.getElem_or, BitVec.getElem_not] at *
  grind

theorem and_not_and_not (hc : c &&& ~~~k = 0) : (w &&& ~~~c) &&& ~~~k = w &&& ~~~k := by
  ext i hi
  have hsub := getElem_false_of_and_eq_zero hc hi
  simp only [BitVec.getElem_and, BitVec.getElem_not] at *
  grind

end Tag

end Atrace.Lib

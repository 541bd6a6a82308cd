import Mathlib.Data.Nat.Basic
import Mathlib.Algebra.Order.Group.Nat

/-! Byte-addressed memory with little-endian multi-byte accesses. -/
namespace Atrace.Lib

abbrev Memory (w : Nat) := BitVec w → BitVec 8

namespace Memory

variable {w n k : Nat} {m m' : Memory w} {a b x : BitVec w}

/-- The `n` bytes from `a` on, the lowest first. -/
def load (m : Memory w) (a : BitVec w) : (n : Nat) → BitVec (8 * n)
  | 0 => 0
  | n + 1 => m.load (a + 1) n ++ m a

def store (m : Memory w) (a : BitVec w) (v : BitVec (8 * n)) : Memory w := fun x =>
  if (x - a).toNat < n then v.extractLsb' (8 * (x - a).toNat) 8 else m x

/-- The `n` bytes from `a` on and the `k` bytes from `b` on share none. -/
def Apart (a : BitVec w) (n : Nat) (b : BitVec w) (k : Nat) : Prop :=
  ∀ i < n, ∀ j < k, a + BitVec.ofNat w i ≠ b + BitVec.ofNat w j

theorem Apart.symm (h : Apart a n b k) : Apart b k a n :=
  fun i hi j hj he => h j hj i hi he.symm

theorem getLsbD_load (m : Memory w) (a : BitVec w) {i : Nat} (hi : i < 8 * n) :
    (m.load a n).getLsbD i = (m (a + BitVec.ofNat w (i / 8))).getLsbD (i % 8) := by
  induction n generalizing a i with
  | zero => omega
  | succ n ih =>
    rw [load, BitVec.getLsbD_append]
    split
    · have h0 : i / 8 = 0 := by omega
      have hm : i % 8 = i := by omega
      simp [h0, hm]
    · rw [ih (a + 1) (by omega)]
      have hdiv : 1 + BitVec.ofNat w ((i - 8) / 8) = BitVec.ofNat w (i / 8) := by
        have : i / 8 = 1 + (i - 8) / 8 := by omega
        rw [this, BitVec.ofNat_add]
        rfl
      have hmod : (i - 8) % 8 = i % 8 := by omega
      rw [BitVec.add_assoc, hdiv, hmod]

theorem load_congr (h : ∀ i < n, m (a + BitVec.ofNat w i) = m' (a + BitVec.ofNat w i)) :
    m.load a n = m'.load a n := by
  apply BitVec.eq_of_getLsbD_eq
  intro i hi
  rw [getLsbD_load m a hi, getLsbD_load m' a hi, h (i / 8) (by omega)]

theorem load_store (hn : n ≤ 2 ^ w) (v : BitVec (8 * n)) : (m.store a v).load a n = v := by
  apply BitVec.eq_of_getLsbD_eq
  intro i hi
  have hbyte : (a + BitVec.ofNat w (i / 8) - a).toNat = i / 8 := by
    rw [BitVec.add_comm, BitVec.add_sub_cancel, BitVec.toNat_ofNat]
    exact Nat.mod_eq_of_lt (by omega)
  have hdiv : i / 8 < n := by omega
  have hi' : 8 * (i / 8) + i % 8 = i := Nat.div_add_mod i 8
  rw [getLsbD_load _ a hi, store, hbyte, if_pos hdiv, BitVec.getLsbD_extractLsb', hi']
  simp [Nat.mod_lt]

/-- A store outside the `n` bytes from `a` on leaves them alone. -/
theorem load_store_apart (h : Apart a n b k) (v : BitVec (8 * k)) :
    (m.store b v).load a n = m.load a n := by
  apply load_congr
  intro i hi
  rw [store, if_neg]
  intro hlt
  apply h i hi _ hlt
  rw [BitVec.ofNat_toNat, BitVec.setWidth_eq, BitVec.add_comm b, BitVec.sub_add_cancel]

theorem toNat_add_of_le {i : Nat} (h : a.toNat + n ≤ 2 ^ w) (hi : i < n) :
    (a + BitVec.ofNat w i).toNat = a.toNat + i := by
  rw [BitVec.toNat_add, BitVec.toNat_ofNat, Nat.add_mod_mod]
  exact Nat.mod_eq_of_lt (by omega)

theorem apart_of_le (ha : a.toNat + n ≤ 2 ^ w) (hb : b.toNat + k ≤ 2 ^ w)
    (h : a.toNat + n ≤ b.toNat ∨ b.toNat + k ≤ a.toNat) : Apart a n b k := by
  intro i hi j hj he
  have he' := congrArg BitVec.toNat he
  rw [toNat_add_of_le ha hi, toNat_add_of_le hb hj] at he'
  omega

/-- Writing back a word that was read, with another lowest byte, writes that byte. -/
theorem store_lowByte {v : BitVec (8 * n)} (hn : 0 < n)
    (hv : ∀ i, 8 ≤ i → v.getLsbD i = (m.load a n).getLsbD i) :
    m.store a v = Function.update m a (v.setWidth 8) := by
  funext x
  by_cases hx : x = a
  · subst x
    have hself : (a - a).toNat = 0 := by simp
    rw [Function.update_self, store, hself, if_pos hn]
    apply BitVec.eq_of_getLsbD_eq
    intro i hi
    simp [hi]
  · have hpos : 0 < (x - a).toNat := by
      apply Nat.pos_of_ne_zero
      intro h0
      have hsub : x - a = 0 := BitVec.toNat_inj.mp h0
      exact hx ((BitVec.sub_eq_iff_eq_add.mp hsub).trans (BitVec.zero_add a))
    rw [Function.update_of_ne hx, store]
    split
    · rename_i hlt
      apply BitVec.eq_of_getLsbD_eq
      intro i hi
      have hdiv : (8 * (x - a).toNat + i) / 8 = (x - a).toNat := by omega
      have hmod : (8 * (x - a).toNat + i) % 8 = i := by omega
      have hback : a + BitVec.ofNat w (x - a).toNat = x := by
        rw [BitVec.ofNat_toNat, BitVec.setWidth_eq, BitVec.add_comm, BitVec.sub_add_cancel]
      rw [BitVec.getLsbD_extractLsb', hv _ (by omega), getLsbD_load m a (by omega), hdiv, hmod,
        hback]
      simp [hi]
    · rfl

/-- Memories that differ in the byte at `a` only agree in the rest of a word from `a` on. -/
theorem getLsbD_load_congr (h : ∀ x, x ≠ a → m x = m' x) (hw : n ≤ 2 ^ w) {i : Nat} (hi : 8 ≤ i) :
    (m.load a n).getLsbD i = (m'.load a n).getLsbD i := by
  by_cases hin : i < 8 * n
  · have hne : a + BitVec.ofNat w (i / 8) ≠ a := by
      intro he
      have hz : BitVec.ofNat w (i / 8) = 0 := by
        rw [← BitVec.add_sub_cancel (BitVec.ofNat w (i / 8)) a, BitVec.add_comm, he,
          BitVec.sub_self]
        rfl
      have hnat := congrArg BitVec.toNat hz
      rw [BitVec.toNat_ofNat, Nat.mod_eq_of_lt (by omega)] at hnat
      simp at hnat
      omega
    rw [getLsbD_load m a hin, getLsbD_load m' a hin, h _ hne]
  · rw [BitVec.getLsbD_of_ge _ _ (by omega), BitVec.getLsbD_of_ge _ _ (by omega)]

theorem setWidth_load (hn : 0 < n) : (m.load a n).setWidth 8 = m a := by
  apply BitVec.eq_of_getLsbD_eq
  intro i hi
  have hdiv : i / 8 = 0 := by omega
  have hmod : i % 8 = i := by omega
  rw [BitVec.getLsbD_setWidth, getLsbD_load m a (by omega), hdiv, hmod]
  simp [hi]

end Memory

end Atrace.Lib

import Mathlib.Data.Nat.Digits.Defs

/-! Numbers as little-endian bytes. -/
namespace Atrace.Lib

/-- The lowest `n` bytes of a number. -/
def leBytes : Nat → Nat → List UInt8
  | 0, _ => []
  | n + 1, v => UInt8.ofNat v :: leBytes n (v / 256)

/-- The number that a row of bytes denotes. -/
def leValue (bs : List UInt8) : Nat := Nat.ofDigits 256 (bs.map UInt8.toNat)

@[simp] theorem length_leBytes (n v : Nat) : (leBytes n v).length = n := by
  induction n generalizing v with
  | zero => rfl
  | succ n ih => rw [leBytes, List.length_cons, ih]

theorem take_leBytes {m n : Nat} (h : m ≤ n) (v : Nat) : (leBytes n v).take m = leBytes m v := by
  induction m generalizing n v with
  | zero => rfl
  | succ m ih =>
    obtain ⟨n, rfl⟩ : ∃ k, n = k + 1 := ⟨n - 1, by omega⟩
    rw [leBytes, leBytes, List.take_succ_cons, ih (by omega)]

theorem leValue_leBytes (n v : Nat) : leValue (leBytes n v) = v % 256 ^ n := by
  induction n generalizing v with
  | zero => simp [leBytes, leValue, Nat.mod_one]
  | succ n ih =>
    have hcons : leValue (leBytes (n + 1) v) = v % 256 + 256 * leValue (leBytes n (v / 256)) := by
      simp [leBytes, leValue, Nat.ofDigits_cons]
    rw [hcons, ih, Nat.pow_succ', Nat.mod_mul]

end Atrace.Lib

import Atrace.Signal.MapsFormat

/-! What `hex_to_int` returns and stores for any range of characters. The function is the same in
both tracers. -/
namespace Atrace.Signal

/-- `hex_to_int`, with the code it returns and what it leaves in `*data_ptr`. -/
def hexToIntPtr (str : List UInt8) (high : Nat) (low : Int) (dataPtr : BitVec 64) :
    Except Fault (Int × BitVec 64) :=
  if low < high then .error .assertion
  else if low - high > 16 then .ok (1, dataPtr)
  else do
    match ← hexLoop (low - high + 1).toNat (str.drop high) 0 with
    | none => pure (2, dataPtr)
    | some data => pure (0, data)

/-- `hexToInt` is what a caller sees that looks at the code first. -/
theorem hexToInt_eq_ptr (str : List UInt8) (high : Nat) (low : Int) (dataPtr : BitVec 64) :
    hexToInt str high low = (do
      let (code, data) ← hexToIntPtr str high low dataPtr
      pure (if code = 0 then some data else none)) := by
  unfold hexToInt hexToIntPtr
  split
  · rfl
  split
  · rfl
  · cases hexLoop (low - high + 1).toNat (str.drop high) 0 with
    | error f => rfl
    | ok r => cases r <;> rfl

/-- 0 is returned just for 1 to 16 hexadecimal digits, with their number stored; any other code
leaves the number alone. -/
def DecodesExactly (d : List UInt8) (dataPtr : BitVec 64) (r : Except Fault (Int × BitVec 64)) :
    Prop :=
  ∃ code data, r = .ok (code, data) ∧
    (code = 0 ↔ 1 ≤ d.length ∧ d.length ≤ 16 ∧ ∀ c ∈ d, (hexVal c).isSome) ∧
    (code = 0 → data.toNat = hexValue d) ∧ (code ≠ 0 → data = dataPtr)

variable {d : List UInt8}

theorem hexLoop_none (h : ¬ ∀ c ∈ d, (hexVal c).isSome) (data : BitVec 64) (r : List UInt8) :
    hexLoop d.length (d ++ r) data = .ok none := by
  induction d generalizing data with
  | nil => simp at h
  | cons c d ih =>
    rw [List.length_cons, List.cons_append, hexLoop]
    split
    · rfl
    · rename_i v hv
      have hc : (hexVal c).isSome := by
        rw [← hexDigit_eq, hv]
        rfl
      exact ih (fun hd => h (List.forall_mem_cons.mpr ⟨hc, hd⟩)) _

theorem hexFold_lt (h : ∀ c ∈ d, (hexVal c).isSome) (v : Nat) :
    d.foldl (fun n c => 16 * n + (hexVal c).getD 0) v < (v + 1) * 16 ^ d.length := by
  induction d generalizing v with
  | nil => simp
  | cons c d ih =>
    obtain ⟨x, hx⟩ := Option.isSome_iff_exists.mp (h c List.mem_cons_self)
    have hdigit := hexVal_lt hx
    have hrest := ih (fun b hb => h b (List.mem_cons_of_mem c hb)) (16 * v + x)
    rw [List.foldl_cons, hx, Option.getD_some]
    calc
      _ < (16 * v + x + 1) * 16 ^ d.length := hrest
      _ ≤ ((v + 1) * 16) * 16 ^ d.length := Nat.mul_le_mul_right _ (by omega)
      _ = (v + 1) * 16 ^ (c :: d).length := by rw [List.length_cons, Nat.pow_succ', Nat.mul_assoc]

theorem hexValue_lt (h : ∀ c ∈ d, (hexVal c).isSome) : hexValue d < 16 ^ d.length := by
  simpa [hexValue] using hexFold_lt h 0

section Range

variable {p r : List UInt8} {low : Int} {dataPtr : BitVec 64}

theorem hexToIntPtr_long (hl : low = p.length + d.length - 1) (hlong : 17 < d.length) :
    hexToIntPtr (p ++ (d ++ r)) p.length low dataPtr = .ok (1, dataPtr) := by
  rw [hexToIntPtr, if_neg (by omega), if_pos (by omega)]

theorem hexToIntPtr_short (hl : low = p.length + d.length - 1) (hne : 0 < d.length)
    (hshort : d.length ≤ 17) :
    hexToIntPtr (p ++ (d ++ r)) p.length low dataPtr = (do
      match ← hexLoop d.length (d ++ r) 0 with
      | none => pure (2, dataPtr)
      | some data => pure (0, data)) := by
  have hlen : (low - p.length + 1).toNat = d.length := by omega
  rw [hexToIntPtr, if_neg (by omega), if_neg (by omega), hlen, List.drop_left]

theorem hexToIntPtr_notHex (hl : low = p.length + d.length - 1) (hne : 0 < d.length)
    (hshort : d.length ≤ 17) (h : ¬ ∀ c ∈ d, (hexVal c).isSome) :
    hexToIntPtr (p ++ (d ++ r)) p.length low dataPtr = .ok (2, dataPtr) := by
  rw [hexToIntPtr_short hl hne hshort, hexLoop_none h]
  rfl

theorem hexToIntPtr_hex (hl : low = p.length + d.length - 1) (hne : 0 < d.length)
    (hshort : d.length ≤ 17) (h : ∀ c ∈ d, (hexVal c).isSome) :
    hexToIntPtr (p ++ (d ++ r)) p.length low dataPtr = .ok (0, BitVec.ofNat 64 (hexValue d)) := by
  rw [hexToIntPtr_short hl hne hshort, show (0 : BitVec 64) = BitVec.ofNat 64 0 from rfl,
    hexLoop_eq h 0 r]
  rfl

/-- `hex_to_int` decodes every range exactly but the hexadecimal ones of 17 digits, whose first
digit it loses. -/
theorem hexToInt_exact_iff (hd : d ≠ []) (hl : low = p.length + d.length - 1) :
    DecodesExactly d dataPtr (hexToIntPtr (p ++ (d ++ r)) p.length low dataPtr) ↔
      ¬ (d.length = 17 ∧ ∀ c ∈ d, (hexVal c).isSome) := by
  have hne := List.length_pos_iff.mpr hd
  constructor
  · rintro ⟨code, data, hrun, hcode, _⟩ ⟨hlen, hhex⟩
    rw [hexToIntPtr_hex hl hne (by omega) hhex] at hrun
    cases hrun
    have hshort := (hcode.mp rfl).2.1
    omega
  · intro h
    by_cases hlong : 17 < d.length
    · refine ⟨1, dataPtr, hexToIntPtr_long hl hlong, ?_, nofun, fun _ => rfl⟩
      exact iff_of_false (by decide) fun hshort => by omega
    by_cases hhex : ∀ c ∈ d, (hexVal c).isSome
    · have hshort : d.length ≤ 16 := by
        have hlen : d.length ≠ 17 := fun hlen => h ⟨hlen, hhex⟩
        omega
      refine ⟨0, _, hexToIntPtr_hex hl hne (by omega) hhex, ?_, ?_, fun hne => absurd rfl hne⟩
      · exact iff_of_true rfl ⟨hne, hshort, hhex⟩
      · have hlt : hexValue d < 2 ^ 64 := by
          calc
            hexValue d < 16 ^ d.length := hexValue_lt hhex
            _ ≤ 16 ^ 16 := Nat.pow_le_pow_right (by decide) hshort
            _ = 2 ^ 64 := rfl
        intro _
        exact Nat.mod_eq_of_lt hlt
    · refine ⟨2, dataPtr, hexToIntPtr_notHex hl hne (by omega) hhex, ?_, nofun, fun _ => rfl⟩
      exact iff_of_false (by decide) fun hshort => hhex hshort.2.2

/-- `ff` -/
theorem hexToInt_exact_iff_byte :
    DecodesExactly [0x66, 0x66] 0 (hexToIntPtr ([] ++ ([0x66, 0x66] ++ [0])) 0 1 0) :=
  (hexToInt_exact_iff (p := []) (r := [0]) (by decide) (by decide)).mpr (by decide)

/-- `10000000000000000`, 2^64 in hexadecimal, is decoded as 0. -/
theorem seventeen_digits_truncated :
    hexToIntPtr (0x31 :: List.replicate 16 0x30) 0 16 1 = .ok (0, 0) ∧
      hexValue (0x31 :: List.replicate 16 0x30) = 2 ^ 64 ∧
      ¬ DecodesExactly (0x31 :: List.replicate 16 0x30) 1
        (hexToIntPtr (0x31 :: List.replicate 16 0x30) 0 16 1) := by
  have hrun : hexToIntPtr (0x31 :: List.replicate 16 0x30) 0 16 1 = .ok (0, 0) := by decide
  refine ⟨hrun, by decide, ?_⟩
  rintro ⟨code, data, h, hcode, _⟩
  rw [hrun] at h
  cases h
  exact absurd (hcode.mp rfl).2.1 (by decide)

end Range

end Atrace.Signal

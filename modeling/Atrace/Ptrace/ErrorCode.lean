import Atrace.Lib.BitField
import Atrace.Signal.Common

/-! The error codes of `include/error.h` and their decoder in `src/error.c`. -/
namespace Atrace.Ptrace

open Atrace.Lib Signal

/-- `MODULE_SIZE` -/
def moduleSize : Nat := 4

/-- `ERR_DATA_SIZE` -/
def errDataSize : Nat := 32

/-- `error_t`, an `int`. -/
abbrev ErrorT := BitVec 32

/-- `MODULE_LIST` -/
inductive Module where
  | SYSTEM
  | THREAD
  | BREAKPOINT
  | CONTEXT
  | OBJECT
deriving DecidableEq, Repr

/-- `MODULE_##m` -/
def Module.number : Module → ErrorT
  | .SYSTEM => 0
  | .THREAD => 1
  | .BREAKPOINT => 2
  | .CONTEXT => 3
  | .OBJECT => 4

/-- `(CODE) > 0 ? (CODE) : -(CODE)` -/
def absCode (code : ErrorT) : ErrorT := if BitVec.slt 0 code then code else -code

/-- `GEN_ERR_CODE`; the last `&` binds tighter than the `|` before it. -/
def genErrCode (module code : ErrorT) : ErrorT :=
  (1 : ErrorT) <<< (errDataSize - 1) |||
    (module &&& lowMask 32 moduleSize) <<< (errDataSize - moduleSize - 1) |||
    absCode code &&& lowMask 32 (errDataSize - moduleSize - 1)

/-- The index into `module_code_table`. -/
def moduleIndex (errcode : ErrorT) : ErrorT :=
  errcode.sshiftRight (errDataSize - moduleSize - 1) &&& lowMask 32 moduleSize

/-- The index into the texts of the module. -/
def codeIndex (errcode : ErrorT) : ErrorT :=
  errcode &&& lowMask 32 (errDataSize - moduleSize - 1)

/-- `module_code_table`: the texts of each module, and `NULL` for `MODULE_MAX`. -/
def moduleCodeTable (desc : Module → List String) : List (Option (List String)) :=
  [some (desc .SYSTEM), some (desc .THREAD), some (desc .BREAKPOINT), some (desc .CONTEXT),
    some (desc .OBJECT), none]

/-- `error_to_msg`, with the texts that the modules define. -/
def errorToMsg (desc : Module → List String) (errcode : ErrorT) : Except Fault String :=
  if errcode = 0 then .ok ""
  else
    match (moduleCodeTable desc)[(moduleIndex errcode).toNat]? with
    | some (some next) =>
      match next[(codeIndex errcode).toNat]? with
      | some msg => .ok msg
      | none => .error .badAccess
    | _ => .error .badAccess

/-- A code whose absolute value fits into its field. -/
def Fits (code : ErrorT) : Prop := code.toInt.natAbs < 2 ^ (errDataSize - moduleSize - 1)

variable {module code module' code' : ErrorT}

@[simp] theorem moduleSize_eq : moduleSize = 4 := rfl

@[simp] theorem codeSize_eq : errDataSize - moduleSize - 1 = 27 := rfl

theorem toNat_absCode (h : Fits code) : (absCode code).toNat = code.toInt.natAbs := by
  have hlt : code.toInt.natAbs < 2 ^ 27 := h
  have hcode := BitVec.toInt_eq_toNat_cond code
  have hbound := code.isLt
  have hzero : BitVec.toInt (0 : ErrorT) = 0 := rfl
  unfold absCode
  split
  · rename_i hpos
    rw [BitVec.slt_iff_toInt_lt, hzero] at hpos
    split at hcode <;> omega
  · rename_i hpos
    rw [BitVec.slt_iff_toInt_lt, hzero] at hpos
    rw [BitVec.toNat_neg]
    split at hcode <;> omega

/-- The sign bit, the module and the code stand side by side. -/
theorem toNat_genErrCode (hm : module.toNat < 2 ^ moduleSize) (hc : Fits code) :
    (genErrCode module code).toNat = (2 ^ 4 + module.toNat) * 2 ^ 27 + code.toInt.natAbs := by
  have hc' : code.toInt.natAbs < 2 ^ 27 := hc
  have hmodule : (module &&& lowMask 32 moduleSize).toNat = module.toNat := by
    rw [toNat_and_lowMask _ (by decide), Nat.mod_eq_of_lt hm]
  have hcode : (absCode code &&& lowMask 32 27).toNat = code.toInt.natAbs := by
    rw [toNat_and_lowMask _ (by decide), toNat_absCode hc, Nat.mod_eq_of_lt hc']
  have htop : (1 : ErrorT) <<< (errDataSize - 1) = ((1 : ErrorT) <<< 4) <<< 27 := rfl
  have hhigh : ((1 : ErrorT) <<< 4 ||| module &&& lowMask 32 moduleSize).toNat =
      2 ^ 4 + module.toNat := by
    rw [toNat_shiftLeft_or (by decide) (hmodule ▸ hm), hmodule]
    rfl
  rw [moduleSize_eq] at hm
  rw [genErrCode, htop, codeSize_eq, ← BitVec.shiftLeft_or_distrib, toNat_shiftLeft_or, hhigh,
    hcode]
  · rw [hhigh]
    omega
  · rw [hcode]
    exact hc'

theorem moduleIndex_genErrCode (hm : module.toNat < 2 ^ moduleSize) (hc : Fits code) :
    moduleIndex (genErrCode module code) = module := by
  have hc' : code.toInt.natAbs < 2 ^ 27 := hc
  apply BitVec.eq_of_toNat_eq
  rw [moduleIndex, toNat_field _ (by decide) (by decide), toNat_genErrCode hm hc, codeSize_eq,
    moduleSize_eq]
  rw [moduleSize_eq] at hm
  omega

theorem codeIndex_genErrCode (hm : module.toNat < 2 ^ moduleSize) (hc : Fits code) :
    (codeIndex (genErrCode module code)).toNat = code.toInt.natAbs := by
  have hc' : code.toInt.natAbs < 2 ^ 27 := hc
  rw [codeIndex, toNat_and_lowMask _ (by decide), toNat_genErrCode hm hc, codeSize_eq]
  omega

theorem genErrCode_neg (hm : module.toNat < 2 ^ moduleSize) (hc : Fits code) :
    (genErrCode module code).toInt < 0 := by
  have hnat := toNat_genErrCode hm hc
  have hlt := (genErrCode module code).isLt
  rw [BitVec.toInt_eq_toNat_cond, if_neg (by omega)]
  omega

theorem genErrCode_ne_zero (hm : module.toNat < 2 ^ moduleSize) (hc : Fits code) :
    genErrCode module code ≠ 0 := by
  intro h
  have hneg := genErrCode_neg hm hc
  rw [h] at hneg
  exact absurd hneg (by decide)

/-- Error codes are the same just for the same module and absolute value. -/
theorem genErrCode_inj (hm : module.toNat < 2 ^ moduleSize) (hc : Fits code)
    (hm' : module'.toNat < 2 ^ moduleSize) (hc' : Fits code') :
    genErrCode module code = genErrCode module' code' ↔
      module = module' ∧ code.toInt.natAbs = code'.toInt.natAbs := by
  constructor
  · intro h
    have hmodule := moduleIndex_genErrCode hm hc
    have hcode := codeIndex_genErrCode hm hc
    rw [h] at hmodule hcode
    exact ⟨hmodule.symm.trans (moduleIndex_genErrCode hm' hc'),
      hcode.symm.trans (codeIndex_genErrCode hm' hc')⟩
  · rintro ⟨rfl, hcode⟩
    apply BitVec.eq_of_toNat_eq
    rw [toNat_genErrCode hm hc, toNat_genErrCode hm' hc', hcode]

/-- What `GEN_ERR_CODE` makes of a module number and a code is negative, and `error_to_msg` reads
both back from it. -/
theorem errorCode_decodes (hm : module.toNat < 2 ^ moduleSize)
    (hc : code.toInt.natAbs < 2 ^ (errDataSize - moduleSize - 1)) :
    (genErrCode module code).toInt < 0 ∧ genErrCode module code ≠ 0 ∧
    moduleIndex (genErrCode module code) = module ∧
    (codeIndex (genErrCode module code)).toNat = code.toInt.natAbs ∧
    ∀ module' code', module'.toNat < 2 ^ moduleSize →
      code'.toInt.natAbs < 2 ^ (errDataSize - moduleSize - 1) →
      genErrCode module code = genErrCode module' code' →
      module = module' ∧ code.toInt.natAbs = code'.toInt.natAbs :=
  ⟨genErrCode_neg hm hc, genErrCode_ne_zero hm hc, moduleIndex_genErrCode hm hc,
    codeIndex_genErrCode hm hc, fun _ _ hm' hc' => (genErrCode_inj hm hc hm' hc').mp⟩

/-- Code -1 of the object module -/
theorem errorCode_decodes_object : moduleIndex (genErrCode Module.OBJECT.number (-1)) = 4 ∧
    (codeIndex (genErrCode Module.OBJECT.number (-1))).toNat = 1 := by
  have hm : Module.OBJECT.number.toNat < 2 ^ moduleSize := by decide
  have hc : (-1 : ErrorT).toInt.natAbs < 2 ^ (errDataSize - moduleSize - 1) := by decide
  obtain ⟨_, _, hmodule, hcode, _⟩ := errorCode_decodes hm hc
  exact ⟨hmodule, hcode⟩

theorem moduleCodeTable_number (desc : Module → List String) (m : Module) :
    (moduleCodeTable desc)[m.number.toNat]? = some (some (desc m)) := by
  cases m <;> rfl

/-- `error_to_msg` looks an encoded error up under its module and absolute value. -/
theorem errorToMsg_genErrCode (desc : Module → List String) (m : Module) (hc : Fits code) :
    errorToMsg desc (genErrCode m.number code) =
      match (desc m)[code.toInt.natAbs]? with
      | some msg => .ok msg
      | none => .error .badAccess := by
  have hm : m.number.toNat < 2 ^ moduleSize := by cases m <;> decide
  rw [errorToMsg, if_neg (genErrCode_ne_zero hm hc), moduleIndex_genErrCode hm hc,
    moduleCodeTable_number]
  simp only [codeIndex_genErrCode hm hc]

/-- The texts that the module field of a code selects. -/
theorem moduleCodeTable_some {desc : Module → List String} {i : Nat} {next : List String} :
    (moduleCodeTable desc)[i]? = some (some next) ↔
      ∃ m : Module, m.number.toNat = i ∧ desc m = next := by
  constructor
  · intro h
    have hi : i < 6 := (List.getElem?_eq_some_iff.mp h).1
    match i, hi with
    | 0, _ => exact ⟨.SYSTEM, rfl, Option.some.inj (Option.some.inj h)⟩
    | 1, _ => exact ⟨.THREAD, rfl, Option.some.inj (Option.some.inj h)⟩
    | 2, _ => exact ⟨.BREAKPOINT, rfl, Option.some.inj (Option.some.inj h)⟩
    | 3, _ => exact ⟨.CONTEXT, rfl, Option.some.inj (Option.some.inj h)⟩
    | 4, _ => exact ⟨.OBJECT, rfl, Option.some.inj (Option.some.inj h)⟩
    | 5, _ => cases Option.some.inj h
  · rintro ⟨m, rfl, rfl⟩
    exact moduleCodeTable_number desc m

/-- The only fault is a read out of bounds. -/
theorem errorToMsg_cases (desc : Module → List String) (errcode : ErrorT) :
    (∃ msg, errorToMsg desc errcode = .ok msg) ∨ errorToMsg desc errcode = .error .badAccess := by
  unfold errorToMsg
  split
  · exact Or.inl ⟨_, rfl⟩
  · split
    · split
      · exact Or.inl ⟨_, rfl⟩
      · exact Or.inr rfl
    · exact Or.inr rfl

theorem errorToMsg_index_iff (desc : Module → List String) (errcode : ErrorT) (msg : String) :
    errorToMsg desc errcode = .ok msg ↔ (errcode = 0 ∧ msg = "") ∨
      (errcode ≠ 0 ∧ ∃ m : Module, ∃ i < 2 ^ 27,
        errcode.toNat % 2 ^ 31 = m.number.toNat * 2 ^ 27 + i ∧ (desc m)[i]? = some msg) := by
  have hmodule : (moduleIndex errcode).toNat = errcode.toNat / 2 ^ 27 % 2 ^ 4 :=
    toNat_field _ (by decide) (by decide)
  have hcode : (codeIndex errcode).toNat = errcode.toNat % 2 ^ 27 :=
    toNat_and_lowMask _ (by decide)
  by_cases hzero : errcode = 0
  · simp [errorToMsg, hzero, eq_comm]
  have hlookup : errorToMsg desc errcode = .ok msg ↔ ∃ next,
      (moduleCodeTable desc)[(moduleIndex errcode).toNat]? = some (some next) ∧
        next[(codeIndex errcode).toNat]? = some msg := by
    rw [errorToMsg, if_neg hzero]
    split
    · rename_i next hnext
      simp only [hnext, Option.some.injEq, exists_eq_left']
      split <;> simp_all
    · rename_i hnone
      constructor
      · intro h
        cases h
      · rintro ⟨next, hnext, _⟩
        exact (hnone next hnext).elim
  rw [hlookup, hmodule, hcode]
  simp only [hzero, false_and, false_or, ne_eq, not_false_eq_true, true_and]
  constructor
  · rintro ⟨next, hnext, hmsg⟩
    obtain ⟨m, hm, rfl⟩ := moduleCodeTable_some.mp hnext
    exact ⟨m, _, Nat.mod_lt _ (by decide), by omega, hmsg⟩
  · rintro ⟨m, i, hi, heq, hmsg⟩
    obtain ⟨hm, rfl⟩ : errcode.toNat / 2 ^ 27 % 2 ^ 4 = m.number.toNat ∧
        i = errcode.toNat % 2 ^ 27 := by omega
    exact ⟨_, moduleCodeTable_some.mpr ⟨m, hm.symm, rfl⟩, hmsg⟩

/-- The values with the sign bit of `GEN_ERR_CODE`. -/
theorem or_sign_eq_genErrCode {errcode : ErrorT} {m : Module} {i : Nat} (hi : i < 2 ^ 27) :
    errcode ||| 1 <<< (errDataSize - 1) = genErrCode m.number (BitVec.ofNat 32 i) ↔
      errcode.toNat % 2 ^ 31 = m.number.toNat * 2 ^ 27 + i := by
  have hm : m.number.toNat < 2 ^ moduleSize := by cases m <;> decide
  have habs : (BitVec.ofNat 32 i).toInt.natAbs = i := by
    rw [BitVec.toInt_eq_toNat_cond, BitVec.toNat_ofNat]
    omega
  have hfits : Fits (BitVec.ofNat 32 i) := by rwa [Fits, habs]
  have hgen := toNat_genErrCode hm hfits
  have hlow : errcode ||| 1 <<< (errDataSize - 1) =
      (1 : ErrorT) <<< 31 ||| errcode &&& lowMask 32 31 := by
    have htop : lowMask 32 31 = ~~~((1 : ErrorT) <<< 31) := by decide
    rw [htop]
    exact or_eq_or_and_not errcode _
  have hsign : (errcode ||| 1 <<< (errDataSize - 1)).toNat = 2 ^ 31 + errcode.toNat % 2 ^ 31 := by
    have hmod : (errcode &&& lowMask 32 31).toNat = errcode.toNat % 2 ^ 31 :=
      toNat_and_lowMask _ (by decide)
    rw [hlow, toNat_shiftLeft_or (by decide) (by omega), hmod]
    rfl
  rw [habs] at hgen
  rw [← BitVec.toNat_inj, hsign, hgen]
  omega

theorem errorToMsg_ok_iff (desc : Module → List String) (errcode : ErrorT) (msg : String) :
    errorToMsg desc errcode = .ok msg ↔ (errcode = 0 ∧ msg = "") ∨
      (errcode ≠ 0 ∧ ∃ (m : Module) (i : Nat), i < 2 ^ 27 ∧ (desc m)[i]? = some msg ∧
        errcode ||| 1 <<< (errDataSize - 1) = genErrCode m.number (BitVec.ofNat 32 i)) := by
  rw [errorToMsg_index_iff]
  constructor
  · rintro (h | ⟨hne, m, i, hi, he, hmsg⟩)
    · exact Or.inl h
    · exact Or.inr ⟨hne, m, i, hi, hmsg, (or_sign_eq_genErrCode hi).mpr he⟩
  · rintro (h | ⟨hne, m, i, hi, hmsg, he⟩)
    · exact Or.inl h
    · exact Or.inr ⟨hne, m, i, hi, (or_sign_eq_genErrCode hi).mp he, hmsg⟩

/-- `error_to_msg` answers 0 with the empty text, and what `GEN_ERR_CODE` makes of a module and the
index of one of its texts, with the sign bit or without it, with that text; for every other `int` it
reads out of bounds. -/
theorem errorToMsg_iff (desc : Module → List String) (errcode : ErrorT) :
    (∀ msg, errorToMsg desc errcode = .ok msg ↔ (errcode = 0 ∧ msg = "") ∨
      (errcode ≠ 0 ∧ ∃ (m : Module) (i : Nat), i < 2 ^ 27 ∧ (desc m)[i]? = some msg ∧
        errcode ||| 1 <<< (errDataSize - 1) = genErrCode m.number (BitVec.ofNat 32 i))) ∧
    (errorToMsg desc errcode = .error .badAccess ↔
      errcode ≠ 0 ∧ ∀ (m : Module) (i : Nat), i < 2 ^ 27 → i < (desc m).length →
        errcode ||| 1 <<< (errDataSize - 1) ≠ genErrCode m.number (BitVec.ofNat 32 i)) := by
  refine ⟨errorToMsg_ok_iff desc errcode, ?_⟩
  constructor
  · intro h
    have hnot : ∀ msg, errorToMsg desc errcode ≠ .ok msg := by
      intro msg hok
      cases h.symm.trans hok
    have hne : errcode ≠ 0 := by
      intro hzero
      exact hnot "" ((errorToMsg_ok_iff desc errcode "").mpr (Or.inl ⟨hzero, rfl⟩))
    refine ⟨hne, ?_⟩
    intro m i hi hlen he
    have hmsg := List.getElem?_eq_getElem hlen
    exact hnot _ ((errorToMsg_ok_iff desc errcode _).mpr (Or.inr ⟨hne, m, i, hi, hmsg, he⟩))
  · rintro ⟨hne, hnone⟩
    rcases errorToMsg_cases desc errcode with ⟨msg, h⟩ | h
    · rcases (errorToMsg_ok_iff desc errcode msg).mp h with ⟨hzero, _⟩ | ⟨_, m, i, hi, hmsg, he⟩
      · exact absurd hzero hne
      · exact absurd he (hnone m i hi (List.getElem?_eq_some_iff.mp hmsg).1)
    · exact h

end Atrace.Ptrace

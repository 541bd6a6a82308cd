import Atrace.Signal.Object

/-! The scanners of `object.c` for `/proc/self/maps`.

A `const char *` into the text is the list of the bytes from there to the end of the buffer,
terminator included; reading past the list is an access outside the buffer. -/
namespace Atrace.Signal

def chSpace : UInt8 := 0x20

def chNewline : UInt8 := 0x0a

def chDash : UInt8 := 0x2d

/-- `for (; p[pos] != c; pos++);` -/
def scanFor (c : UInt8) : List UInt8 → Except Fault Nat
  | [] => .error .badAccess
  | b :: bs =>
    if b = c then .ok 0
    else match scanFor c bs with
      | .ok n => .ok (n + 1)
      | .error f => .error f

/-- `for (; p[pos] == ' '; pos++);`, as the bytes from there on. -/
def skipSpaces : List UInt8 → Except Fault (List UInt8)
  | [] => .error .badAccess
  | b :: bs => if b = chSpace then skipSpaces bs else .ok (b :: bs)

/-- `strndup`, without the terminator it appends. -/
def strndup (s : List UInt8) (n : Nat) : List UInt8 := (s.take n).takeWhile (· ≠ 0)

/-- The digit branches of `hex_to_int`. -/
def hexDigit (c : UInt8) : Option UInt8 :=
  if 0x30 ≤ c ∧ c ≤ 0x39 then some (c - 0x30)
  else if 0x61 ≤ c ∧ c ≤ 0x66 then some (c - 0x61 + 10)
  else if 0x41 ≤ c ∧ c ≤ 0x46 then some (c - 0x41 + 10)
  else none

/-- The loop of `hex_to_int` over `n` bytes. -/
def hexLoop : Nat → List UInt8 → BitVec 64 → Except Fault (Option (BitVec 64))
  | 0, _, data => .ok (some data)
  | _ + 1, [], _ => .error .badAccess
  | n + 1, c :: cs, data =>
    match hexDigit c with
    | none => .ok none
    | some d => hexLoop n cs (data <<< 4 ||| d.toBitVec.setWidth 64)

/-- `hex_to_int` on the bytes `high .. low` of `str`, both included. `none` stands for the
nonzero codes, which leave `*data_ptr` alone. -/
def hexToInt (str : List UInt8) (high : Nat) (low : Int) : Except Fault (Option (BitVec 64)) :=
  if low < high then .error .assertion
  else if low - high > 16 then .ok none
  else hexLoop (low - high + 1).toNat (str.drop high) 0

/-- `parse_mmap_range`; `none` is the returned `NULL`. -/
def parseMmapRange (mmap : List UInt8) :
    Except Fault (Option (List UInt8 × BitVec 64 × BitVec 64)) := do
  let endPos ← scanFor chSpace mmap
  let rangeStr := strndup mmap endPos ++ [0]
  let spPos := (mmap.take endPos).findIdx (· == chDash)
  match ← hexToInt rangeStr 0 (spPos - 1 : Int) with
  | none => pure none
  | some start =>
    match ← hexToInt rangeStr (spPos + 1) (endPos - 1 : Int) with
    | none => pure none
    | some stop => pure (some (mmap.drop (endPos + 1), start, stop))

/-- The `switch` of `parse_mmap_attr`. -/
def attrOfChar (c : UInt8) : BitVec 8 :=
  if c = 0x72 then ObjAttr.READ.flag
  else if c = 0x77 then ObjAttr.WRITE.flag
  else if c = 0x78 then ObjAttr.EXECUTE.flag
  else if c = 0x70 then ObjAttr.PRIVATE.flag
  else 0

def attrLoop : Nat → List UInt8 → BitVec 8 → Except Fault (BitVec 8)
  | 0, _, attr => .ok attr
  | _ + 1, [], _ => .error .badAccess
  | n + 1, c :: cs, attr => attrLoop n cs (attr ||| attrOfChar c)

/-- `parse_mmap_attr` -/
def parseMmapAttr (mmap : List UInt8) : Except Fault (List UInt8 × BitVec 8) := do
  let endPos ← scanFor chSpace mmap
  let attr ← attrLoop endPos (strndup mmap endPos ++ [0]) 0
  pure (mmap.drop (endPos + 1), attr)

def isSpace (c : UInt8) : Bool := c = 0x20 || (0x09 ≤ c && c ≤ 0x0d)

def isDigit (c : UInt8) : Bool := 0x30 ≤ c && c ≤ 0x39

/-- The value of a run of decimal digits. -/
def decimalValue (s : List UInt8) : Nat := s.foldl (fun n c => 10 * n + (c.toNat - 0x30)) 0

/-- `strtol(s, NULL, 10)`: blanks, a sign, digits, the value clamped to a 64-bit `long`. -/
def strtol (s : List UInt8) : Int :=
  let clamp (v : Int) : Int := max (-2 ^ 63) (min v (2 ^ 63 - 1))
  match s.dropWhile isSpace with
  | 0x2d :: s => clamp (-(decimalValue (s.takeWhile isDigit)))
  | 0x2b :: s => clamp (decimalValue (s.takeWhile isDigit))
  | s => clamp (decimalValue (s.takeWhile isDigit))

/-- `atoi`, the `long` cut down to an `int`. -/
def atoi (s : List UInt8) : BitVec 32 := BitVec.ofInt 32 (strtol s)

/-- `parse_mmap_inode`: skip the offset and the device, read the inode and the blanks after it. -/
def parseMmapInode (mmap : List UInt8) : Except Fault (List UInt8 × BitVec 32) := do
  let offsetEnd ← scanFor chSpace mmap
  let devEnd ← scanFor chSpace (mmap.drop (offsetEnd + 1))
  let mmap := (mmap.drop (offsetEnd + 1)).drop (devEnd + 1)
  let endPos ← scanFor chSpace mmap
  let inode := atoi (strndup mmap endPos)
  let rest ← skipSpaces (mmap.drop endPos)
  pure (rest, inode)

/-- `parse_mmap_file` -/
def parseMmapFile (mmap : List UInt8) : Except Fault (List UInt8 × List UInt8) := do
  let endPos ← scanFor chNewline mmap
  pure (mmap.drop endPos, strndup mmap endPos)

/-- What the body of the loop of `object_parse_mmap` knows once a line is read. -/
structure MmapLine where
  start : BitVec 64
  stop : BitVec 64
  attr : BitVec 8
  inode : BitVec 32
  file : Option (List UInt8)

/-- The first half of the loop body, up to `mmap++`; `none` is the return of -1. -/
def parseMmapLine (mmap : List UInt8) : Except Fault (Option (List UInt8 × MmapLine)) := do
  match ← parseMmapRange mmap with
  | none => pure none
  | some (mmap, start, stop) =>
    let (mmap, attr) ← parseMmapAttr mmap
    let (mmap, inode) ← parseMmapInode mmap
    if inode ≠ 0 then
      let (mmap, file) ← parseMmapFile mmap
      pure (some (mmap.drop 1, ⟨start, stop, attr, inode, some file⟩))
    else
      let endPos ← scanFor chNewline mmap
      pure (some (mmap.drop (endPos + 1), ⟨start, stop, attr, inode, none⟩))

/-- The object `object_parse_mmap` makes of a line; `self` is its own address. -/
def newObject (self : Addr) (line : MmapLine) : Object :=
  let obj : Object :=
    ⟨line.file.getD [], line.start, line.stop, line.attr, []⟩
  if obj.covers self then obj.setAttr .NO_BKPT else obj

/-- The second half of the loop body. -/
def addLine (self : Addr) (objects : List Object) (line : MmapLine) : List Object :=
  if line.inode = 0 then objects
  else if line.attr &&& ObjAttr.EXECUTE.flag = 0 then objects
  else if objects.any fun o => o.textStart == line.start && o.textEnd == line.stop then objects
  else objects ++ [newObject self line]

theorem scanFor_lt {c : UInt8} {s : List UInt8} {n : Nat} (h : scanFor c s = .ok n) :
    n < s.length := by
  induction s generalizing n with
  | nil => cases h
  | cons b bs ih =>
    simp only [scanFor] at h
    split at h
    · cases h
      simp
    · split at h
      · rename_i hn
        cases h
        simpa using ih hn
      · cases h

theorem skipSpaces_le {s r : List UInt8} (h : skipSpaces s = .ok r) : r.length ≤ s.length := by
  induction s with
  | nil => cases h
  | cons b bs ih =>
    simp only [skipSpaces] at h
    split at h
    · exact Nat.le_trans (ih h) (Nat.le_succ _)
    · cases h
      exact Nat.le_refl _

theorem parseMmapRange_lt {mmap rest : List UInt8} {start stop : BitVec 64}
    (h : parseMmapRange mmap = .ok (some (rest, start, stop))) : rest.length < mmap.length := by
  obtain ⟨endPos, hscan, h⟩ := bind_ok h
  obtain ⟨r₁, _, h⟩ := bind_ok h
  cases r₁ with
  | none => cases h
  | some start' =>
    obtain ⟨r₂, _, h⟩ := bind_ok h
    cases r₂ with
    | none => cases h
    | some stop' =>
      cases h
      have := scanFor_lt hscan
      simp only [List.length_drop]
      omega

theorem parseMmapAttr_le {mmap rest : List UInt8} {attr : BitVec 8}
    (h : parseMmapAttr mmap = .ok (rest, attr)) : rest.length ≤ mmap.length := by
  obtain ⟨endPos, _, h⟩ := bind_ok h
  obtain ⟨attr', _, h⟩ := bind_ok h
  cases h
  simp

theorem parseMmapInode_le {mmap rest : List UInt8} {inode : BitVec 32}
    (h : parseMmapInode mmap = .ok (rest, inode)) : rest.length ≤ mmap.length := by
  obtain ⟨offsetEnd, _, h⟩ := bind_ok h
  obtain ⟨devEnd, _, h⟩ := bind_ok h
  obtain ⟨endPos, _, h⟩ := bind_ok h
  obtain ⟨rest', hskip, h⟩ := bind_ok h
  cases h
  have := skipSpaces_le hskip
  simp only [List.length_drop] at this
  omega

/-- Every line that is read moves the cursor forward. -/
theorem parseMmapLine_lt {mmap rest : List UInt8} {line : MmapLine}
    (h : parseMmapLine mmap = .ok (some (rest, line))) : rest.length < mmap.length := by
  obtain ⟨r, hrange, h⟩ := bind_ok h
  cases r with
  | none => cases h
  | some r =>
    obtain ⟨mmap₁, start, stop⟩ := r
    have h₁ := parseMmapRange_lt hrange
    obtain ⟨⟨mmap₂, attr⟩, hattr, h⟩ := bind_ok h
    have h₂ := parseMmapAttr_le hattr
    obtain ⟨⟨mmap₃, inode⟩, hinode, h⟩ := bind_ok h
    have h₃ := parseMmapInode_le hinode
    dsimp only at h
    by_cases hz : inode ≠ 0
    · rw [if_pos hz] at h
      obtain ⟨⟨mmap₄, file⟩, hfile, h⟩ := bind_ok h
      obtain ⟨endPos, _, hfile⟩ := bind_ok hfile
      cases hfile
      cases h
      simp only [List.length_drop]
      omega
    · rw [if_neg hz] at h
      obtain ⟨endPos, _, h⟩ := bind_ok h
      cases h
      simp only [List.length_drop]
      omega

/-- `while (mmap != mmap_end)`, where the second half of the loop body is `add`; `mmapEnd` is the
number of bytes from `mmap_end` on. -/
def parseMmapLoop {σ : Type} (add : σ → MmapLine → σ) (mmapEnd : Nat) (objects : σ)
    (mmap : List UInt8) : Except Fault (σ × Int) :=
  if mmap.length = mmapEnd then .ok (objects, 0)
  else
    match h : parseMmapLine mmap with
    | .error f => .error f
    | .ok none => .ok (objects, -1)
    | .ok (some (rest, line)) => parseMmapLoop add mmapEnd (add objects line) rest
termination_by mmap.length
decreasing_by exact parseMmapLine_lt h

section Loop

variable {σ : Type} {add : σ → MmapLine → σ} {mmapEnd : Nat} {objects : σ}
  {mmap rest : List UInt8} {line : MmapLine} {f : Fault}

theorem parseMmapLoop_line (hend : mmap.length ≠ mmapEnd)
    (h : parseMmapLine mmap = .ok (some (rest, line))) :
    parseMmapLoop add mmapEnd objects mmap = parseMmapLoop add mmapEnd (add objects line) rest := by
  rw [parseMmapLoop, if_neg hend]
  split <;> rename_i h' <;> rw [h] at h' <;> cases h'
  rfl

theorem parseMmapLoop_null (hend : mmap.length ≠ mmapEnd) (h : parseMmapLine mmap = .ok none) :
    parseMmapLoop add mmapEnd objects mmap = .ok (objects, -1) := by
  rw [parseMmapLoop, if_neg hend]
  split <;> rename_i h' <;> rw [h] at h' <;> cases h'

theorem parseMmapLoop_fault (hend : mmap.length ≠ mmapEnd) (h : parseMmapLine mmap = .error f) :
    parseMmapLoop add mmapEnd objects mmap = .error f := by
  rw [parseMmapLoop, if_neg hend]
  split <;> rename_i h' <;> rw [h] at h' <;> cases h'
  rfl

end Loop

/-- `object_parse_mmap` on a buffer, with the registry it leaves and the code it returns. -/
def objectParseMmap (self : Addr) (objects : List Object) (mmap : List UInt8) :
    Except Fault (List Object × Int) := do
  let strlen ← scanFor 0 mmap
  parseMmapLoop (addLine self) (mmap.length - strlen) objects mmap

/-- The objects that a parse adds come last and have no breakpoints. -/
def Extends (objects objects' : List Object) : Prop :=
  ∃ news, objects' = objects ++ news ∧ ∀ o ∈ news, o.breakpointChain = []

theorem extends_refl (objects : List Object) : Extends objects objects :=
  ⟨[], (List.append_nil _).symm, fun _ ho => absurd ho List.not_mem_nil⟩

theorem extends_trans {objs objs₁ objs₂ : List Object} (h : Extends objs objs₁)
    (h' : Extends objs₁ objs₂) : Extends objs objs₂ := by
  obtain ⟨news, rfl, hnews⟩ := h
  obtain ⟨news', rfl, hnews'⟩ := h'
  refine ⟨news ++ news', List.append_assoc .., ?_⟩
  intro o ho
  rcases List.mem_append.mp ho with ho | ho
  · exact hnews o ho
  · exact hnews' o ho

theorem addLine_extends (self : Addr) (objects : List Object) (line : MmapLine) :
    Extends objects (addLine self objects line) := by
  unfold addLine
  split
  · exact extends_refl objects
  split
  · exact extends_refl objects
  split
  · exact extends_refl objects
  · refine ⟨_, rfl, ?_⟩
    intro o ho
    obtain rfl := List.mem_singleton.mp ho
    unfold newObject
    dsimp only
    split <;> rfl

theorem parseMmapLoop_extends {self : Addr} {mmapEnd : Nat} {objects objects' : List Object}
    {mmap : List UInt8} {code : Int}
    (h : parseMmapLoop (addLine self) mmapEnd objects mmap = .ok (objects', code)) :
    Extends objects objects' := by
  induction objects, mmap using parseMmapLoop.induct (addLine self) mmapEnd with
  | case1 objects mmap hend =>
    rw [parseMmapLoop, if_pos hend] at h
    cases h
    exact extends_refl _
  | case2 objects mmap hend f hf =>
    rw [parseMmapLoop_fault hend hf] at h
    cases h
  | case3 objects mmap hend hf =>
    rw [parseMmapLoop_null hend hf] at h
    cases h
    exact extends_refl _
  | case4 objects mmap hend rest line hf ih =>
    rw [parseMmapLoop_line hend hf] at h
    exact extends_trans (addLine_extends self objects line) (ih h)

theorem objectParseMmap_extends {self : Addr} {objects objects' : List Object} {mmap : List UInt8}
    {code : Int} (h : objectParseMmap self objects mmap = .ok (objects', code)) :
    Extends objects objects' := by
  obtain ⟨_, _, h⟩ := bind_ok h
  exact parseMmapLoop_extends h

end Atrace.Signal

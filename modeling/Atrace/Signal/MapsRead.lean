import Atrace.Signal.StartUp

/-! `object_get_mmap`, which reads the text of the mappings in chunks, for
`object_load`. The two tracers read it alike, from different paths. -/
namespace Atrace.Signal

/-- What `read` puts into a buffer of 256 bytes. -/
abbrev Chunk := { data : List UInt8 // data.length ≤ 256 }

/-- The 0-byte read at the end of a file. -/
def Chunk.eof : Chunk := ⟨[], by decide⟩

/-- What `read` does: return -1, or put in as many bytes as it returns. -/
inductive ReadResult where
  | failed
  | bytes (data : Chunk)

/-- What one turn of the loop gets from the system: the result of `read`, and whether there is
memory for `realloc`, with what the new bytes hold. -/
structure ReadTurn where
  read : ReadResult
  memory : Option (Nat → UInt8)

/-- The ways the call does not return: an access outside a block, or a `read` that has not
returned. -/
inductive ReadFault where
  | badAccess
  | pending
deriving DecidableEq, Repr

/-- `PTRDIFF_MAX`, the largest size of a block. -/
def ptrdiffMax : Nat := 2 ^ 63 - 1

/-- `realloc`; no pointer stands for `NULL`. -/
def realloc (old : Option (List UInt8)) (size : BitVec 64) (memory : Option (Nat → UInt8)) :
    Option (List UInt8) :=
  match memory with
  | none => none
  | some fresh =>
    if ptrdiffMax < size.toNat then none
    else
      let kept := (old.getD []).take size.toNat
      some (kept ++ (List.range (size.toNat - kept.length)).map fresh)

/-- `memcpy(block + offset, data, …)` -/
def memcpy (block : List UInt8) (offset : BitVec 64) (data : List UInt8) :
    Except ReadFault (List UInt8) :=
  if offset.toNat + data.length ≤ block.length then
    .ok (block.take offset.toNat ++ data ++ block.drop (offset.toNat + data.length))
  else .error .badAccess

/-- The loop of `object_get_mmap`; `none` is the jump to `ERR_RET_1`. -/
def readLoop : List ReadTurn → Option (List UInt8) → BitVec 64 →
    Except ReadFault (Option (List UInt8 × BitVec 64))
  | [], _, _ => .error .pending
  | ⟨.failed, _⟩ :: _, _, _ => .ok none
  | ⟨.bytes buf, memory⟩ :: turns, mmapBuf, mmapBufLength =>
    let rv := BitVec.ofNat 64 buf.val.length
    match realloc mmapBuf (mmapBufLength + rv) memory with
    | none => .ok none
    | some tmp => do
      let mmapBuf ← memcpy tmp (mmapBufLength - 1) buf
      if 0 < buf.val.length then readLoop turns (some mmapBuf) (mmapBufLength + rv)
      else pure (some (mmapBuf, mmapBufLength + rv))

/-- `object_get_mmap`, after an `open` that succeeds or does not. -/
def objectGetMmap (opened : Bool) (turns : List ReadTurn) :
    Except ReadFault (Option (List UInt8)) :=
  if opened then do
    match ← readLoop turns none 1 with
    | none => pure none
    | some (mmapBuf, mmapBufLength) =>
      -- `mmap_buf[mmap_buf_length - 1] = 0`
      let text ← memcpy mmapBuf (mmapBufLength - 1) [0]
      pure (some text)
  else pure none

/-- A turn that the loop gets to fails, where the text is `n - 1` bytes long so far. -/
inductive SomeFails : Nat → List ReadTurn → Prop where
  | read {n : Nat} {memory : Option (Nat → UInt8)} {turns : List ReadTurn} :
      SomeFails n (⟨.failed, memory⟩ :: turns)
  | noMemory {n : Nat} {buf : Chunk} {turns : List ReadTurn} :
      SomeFails n (⟨.bytes buf, none⟩ :: turns)
  | tooLarge {n : Nat} {buf : Chunk} {memory : Option (Nat → UInt8)} {turns : List ReadTurn}
      (h : ptrdiffMax < n + buf.val.length) : SomeFails n (⟨.bytes buf, memory⟩ :: turns)
  | later {n : Nat} {buf : Chunk} {memory : Option (Nat → UInt8)} {turns : List ReadTurn}
      (hpos : 0 < buf.val.length) (h : SomeFails (n + buf.val.length) turns) :
      SomeFails n (⟨.bytes buf, memory⟩ :: turns)

/-- The text read so far, in a block with one more byte, or no block for no text. -/
structure Reading (text : List UInt8) (mmapBuf : Option (List UInt8)) (length : BitVec 64) :
    Prop where
  block : (mmapBuf = none ∧ text = []) ∨ ∃ last, mmapBuf = some (text ++ [last])
  length : length.toNat = text.length + 1
  bound : text.length + 1 ≤ ptrdiffMax

variable {text : List UInt8} {mmapBuf : Option (List UInt8)} {length : BitVec 64} {buf : Chunk}
  {memory : Option (Nat → UInt8)} {turns : List ReadTurn}

theorem reading_start : Reading [] none 1 := ⟨Or.inl ⟨rfl, rfl⟩, rfl, by decide⟩

/-- The size that is asked for does not wrap around. -/
theorem Reading.toNat_size (h : Reading text mmapBuf length) (buf : Chunk) :
    (length + BitVec.ofNat 64 buf.val.length).toNat = text.length + buf.val.length + 1 := by
  have hbuf := buf.property
  have hbound := h.bound
  rw [ptrdiffMax] at hbound
  rw [BitVec.toNat_add, BitVec.toNat_ofNat, Nat.add_mod_mod, h.length, Nat.mod_eq_of_lt] <;> omega

theorem Reading.toNat_last (h : Reading text mmapBuf length) : (length - 1).toNat = text.length := by
  have hlength := h.length
  have hbound := h.bound
  rw [ptrdiffMax] at hbound
  have hone : (1 : BitVec 64).toNat = 1 := rfl
  rw [BitVec.toNat_sub, hone, hlength]
  omega

theorem memcpy_append (text data rest : List UInt8) (offset : BitVec 64)
    (h : offset.toNat = text.length) (hfits : data.length ≤ rest.length) :
    memcpy (text ++ rest) offset data = .ok (text ++ data ++ rest.drop data.length) := by
  rw [memcpy, h, if_pos (by rw [List.length_append]; omega), List.take_left, ← List.drop_drop,
    List.drop_left]

theorem realloc_refuses {size : BitVec 64} (h : memory = none ∨ ptrdiffMax < size.toNat) :
    realloc mmapBuf size memory = none := by
  unfold realloc
  rcases h with rfl | h
  · rfl
  · cases memory with
    | none => rfl
    | some fresh => simp only [if_pos h]

/-- The new block begins with the text and has room for the chunk and one byte more. -/
theorem realloc_keeps (h : Reading text mmapBuf length)
    (hsize : text.length + buf.val.length + 1 ≤ ptrdiffMax) (fresh : Nat → UInt8) :
    ∃ rest, realloc mmapBuf (length + BitVec.ofNat 64 buf.val.length) (some fresh) =
      some (text ++ rest) ∧ rest.length = buf.val.length + 1 := by
  have hnat := h.toNat_size buf
  have hle : ¬ ptrdiffMax < text.length + buf.val.length + 1 := by omega
  simp only [realloc, hnat, if_neg hle]
  rcases h.block with ⟨rfl, rfl⟩ | ⟨last, rfl⟩
  · exact ⟨_, by rw [Option.getD_none, List.take_nil], by simp⟩
  · have hkept : (text ++ [last]).take (text.length + buf.val.length + 1) = text ++ [last] := by
      apply List.take_of_length_le
      rw [List.length_append, List.length_singleton]
      omega
    refine ⟨_, by rw [Option.getD_some, hkept, List.append_assoc], ?_⟩
    simp only [List.length_append, List.length_singleton, List.length_map, List.length_range]
    omega

/-- One turn that does not fail appends its chunk. -/
theorem readLoop_bytes (h : Reading text mmapBuf length)
    (hsize : text.length + buf.val.length + 1 ≤ ptrdiffMax) (fresh : Nat → UInt8)
    (turns : List ReadTurn) :
    ∃ block length', Reading (text ++ buf.val) (some block) length' ∧
      readLoop (⟨.bytes buf, some fresh⟩ :: turns) mmapBuf length =
        if 0 < buf.val.length then readLoop turns (some block) length'
        else .ok (some (block, length')) := by
  obtain ⟨rest, hrealloc, hrest⟩ := realloc_keeps h hsize fresh
  have hcopy := memcpy_append text buf.val rest (length - 1) h.toNat_last (by omega)
  obtain ⟨last, hlast⟩ : ∃ last, rest.drop buf.val.length = [last] := by
    apply List.length_eq_one_iff.mp
    rw [List.length_drop]
    omega
  rw [hlast] at hcopy
  refine ⟨text ++ buf.val ++ [last], length + BitVec.ofNat 64 buf.val.length,
    ⟨Or.inr ⟨last, rfl⟩, ?_, ?_⟩, ?_⟩
  · rw [h.toNat_size, List.length_append]
  · rw [List.length_append]
    exact hsize
  · simp only [readLoop, hrealloc, hcopy, ok_bind]
    rfl

theorem readLoop_refused (h : memory = none ∨
    ptrdiffMax < (length + BitVec.ofNat 64 buf.val.length).toNat) :
    readLoop (⟨.bytes buf, memory⟩ :: turns) mmapBuf length = .ok none := by
  simp only [readLoop, realloc_refuses h]

/-- A turn that reads a chunk has memory for it, or it fails and ends the loop. -/
theorem readLoop_cases (h : Reading text mmapBuf length) (buf : Chunk)
    (memory : Option (Nat → UInt8)) (turns : List ReadTurn) :
    ((∃ fresh, memory = some fresh) ∧ text.length + buf.val.length + 1 ≤ ptrdiffMax) ∨
      (SomeFails (text.length + 1) (⟨.bytes buf, memory⟩ :: turns) ∧
        readLoop (⟨.bytes buf, memory⟩ :: turns) mmapBuf length = .ok none) := by
  cases memory with
  | none => exact Or.inr ⟨.noMemory, readLoop_refused (Or.inl rfl)⟩
  | some fresh =>
    by_cases hsize : text.length + buf.val.length + 1 ≤ ptrdiffMax
    · exact Or.inl ⟨⟨fresh, rfl⟩, hsize⟩
    · refine Or.inr ⟨.tooLarge (by omega), readLoop_refused (Or.inr ?_)⟩
      rw [h.toNat_size]
      omega

theorem readLoop_fails {n : Nat} (hf : SomeFails n turns) :
    ∀ {text mmapBuf length}, Reading text mmapBuf length → n = text.length + 1 →
      readLoop turns mmapBuf length = .ok none := by
  induction hf with
  | read => exact fun _ _ => rfl
  | noMemory => exact fun _ _ => readLoop_refused (Or.inl rfl)
  | tooLarge h =>
    intro text mmapBuf length hr hn
    apply readLoop_refused
    rw [hr.toNat_size]
    omega
  | @later n buf memory turns hpos _ ih =>
    intro text mmapBuf length hr hn
    rcases readLoop_cases hr buf memory turns with ⟨⟨fresh, rfl⟩, hsize⟩ | ⟨_, hnone⟩
    · obtain ⟨block, length', hr', hrun⟩ := readLoop_bytes hr hsize fresh turns
      rw [hrun, if_pos hpos]
      exact ih hr' (by rw [List.length_append]; omega)
    · exact hnone

/-- Where no turn fails the loop gets to the end of the file with all the chunks. -/
theorem readLoop_complete {chunks : List Chunk} (hpos : ∀ c ∈ chunks, 1 ≤ c.val.length) :
    ∀ {turns text mmapBuf length}, Reading text mmapBuf length →
      turns.map ReadTurn.read = (chunks ++ [Chunk.eof]).map .bytes →
      ¬ SomeFails (text.length + 1) turns →
      ∃ block length', readLoop turns mmapBuf length = .ok (some (block, length')) ∧
        Reading (text ++ (chunks.map Subtype.val).flatten) (some block) length' := by
  induction chunks with
  | nil =>
    intro turns text mmapBuf length hr hreads hok
    obtain ⟨⟨_, memory⟩, rest, rfl, rfl, _⟩ := List.map_eq_cons_iff.mp hreads
    rcases readLoop_cases hr Chunk.eof memory rest with ⟨⟨fresh, rfl⟩, hsize⟩ | ⟨hfails, _⟩
    · obtain ⟨block, length', hr', hrun⟩ := readLoop_bytes hr hsize fresh rest
      exact ⟨block, length', hrun, hr'⟩
    · exact absurd hfails hok
  | cons c chunks ih =>
    intro turns text mmapBuf length hr hreads hok
    obtain ⟨⟨_, memory⟩, rest, rfl, rfl, hrest⟩ := List.map_eq_cons_iff.mp hreads
    have hc : 0 < c.val.length := hpos c List.mem_cons_self
    rcases readLoop_cases hr c memory rest with ⟨⟨fresh, rfl⟩, hsize⟩ | ⟨hfails, _⟩
    · obtain ⟨block, length', hr', hrun⟩ := readLoop_bytes hr hsize fresh rest
      have hok' : ¬ SomeFails ((text ++ c.val).length + 1) rest := by
        intro hfails
        refine hok (.later hc ?_)
        rwa [List.length_append, Nat.add_right_comm] at hfails
      rw [hrun, if_pos hc, List.map_cons, List.flatten_cons, ← List.append_assoc]
      exact ih (fun d hd => hpos d (List.mem_cons_of_mem c hd)) hr' hrest hok'
    · exact absurd hfails hok

/-- No `memcpy` of the loop leaves its block, and the block that it ends with has room for the
terminator. -/
theorem readLoop_inside (turns : List ReadTurn) (hr : Reading text mmapBuf length) :
    readLoop turns mmapBuf length = .error .pending ∨ readLoop turns mmapBuf length = .ok none ∨
      ∃ text' block length', readLoop turns mmapBuf length = .ok (some (block, length')) ∧
        Reading text' (some block) length' := by
  induction turns generalizing text mmapBuf length with
  | nil => exact Or.inl rfl
  | cons turn turns ih =>
    obtain ⟨read, memory⟩ := turn
    cases read with
    | failed => exact Or.inr (Or.inl rfl)
    | bytes buf =>
      rcases readLoop_cases hr buf memory turns with ⟨⟨fresh, rfl⟩, hsize⟩ | ⟨_, hnone⟩
      · obtain ⟨block, length', hr', hrun⟩ := readLoop_bytes hr hsize fresh turns
        rw [hrun]
        split
        · exact ih hr'
        · exact Or.inr (Or.inr ⟨_, block, length', rfl, hr'⟩)
      · exact Or.inr (Or.inl hnone)

/-- The terminator takes the place of the last byte. -/
theorem Reading.terminate {block : List UInt8} (h : Reading text (some block) length) :
    memcpy block (length - 1) [0] = .ok (text ++ [0]) := by
  rcases h.block with ⟨hnone, _⟩ | ⟨last, hblock⟩
  · cases hnone
  · cases hblock
    rw [memcpy_append text [0] [last] (length - 1) h.toNat_last (Nat.le_refl 1)]
    simp

theorem getMmap_chunks {chunks : List Chunk} (hpos : ∀ c ∈ chunks, 1 ≤ c.val.length)
    (hreads : turns.map ReadTurn.read = (chunks ++ [Chunk.eof]).map .bytes)
    (hok : ¬ SomeFails 1 turns) :
    objectGetMmap true turns = .ok (some ((chunks.map Subtype.val).flatten ++ [0])) := by
  obtain ⟨block, length', hrun, hr⟩ := readLoop_complete hpos reading_start hreads hok
  rw [List.nil_append] at hr
  rw [objectGetMmap, if_pos rfl, hrun]
  simp only [ok_bind, hr.terminate]
  rfl

theorem getMmap_fails (h : SomeFails 1 turns) : objectGetMmap true turns = .ok none := by
  rw [objectGetMmap, if_pos rfl, readLoop_fails h reading_start rfl]
  rfl

theorem getMmap_inside (turns : List ReadTurn) : objectGetMmap true turns ≠ .error .badAccess := by
  rw [objectGetMmap, if_pos rfl]
  rcases readLoop_inside turns reading_start with hrun | hrun | ⟨text, block, length', hrun, hr⟩
  · rw [hrun]
    nofun
  · rw [hrun]
    nofun
  · rw [hrun]
    simp only [ok_bind, hr.terminate]
    nofun

/-- `object_get_mmap` returns the chunks one after the other with a terminator behind them, or
`NULL` when a `read` or `realloc` fails, and writes inside its block only. -/
theorem objectGetMmap_lossless (turns : List ReadTurn) :
    (∀ chunks : List Chunk, (∀ c ∈ chunks, 1 ≤ c.val.length) →
      turns.map ReadTurn.read = (chunks ++ [Chunk.eof]).map .bytes → ¬ SomeFails 1 turns →
      objectGetMmap true turns = .ok (some ((chunks.map Subtype.val).flatten ++ [0]))) ∧
    (SomeFails 1 turns → objectGetMmap true turns = .ok none) ∧
    objectGetMmap true turns ≠ .error .badAccess :=
  ⟨fun _ => getMmap_chunks, getMmap_fails, getMmap_inside turns⟩

/-- `ab`, read in two chunks -/
theorem objectGetMmap_lossless_two :
    objectGetMmap true [⟨.bytes ⟨[0x61], by decide⟩, some fun _ => 0xff⟩,
      ⟨.bytes ⟨[0x62], by decide⟩, some fun _ => 0xff⟩, ⟨.bytes .eof, some fun _ => 0xff⟩] =
        .ok (some [0x61, 0x62, 0]) := by
  refine (objectGetMmap_lossless _).1 [⟨[0x61], by decide⟩, ⟨[0x62], by decide⟩] (by decide) rfl ?_
  intro hfails
  cases readLoop_fails hfails reading_start rfl

/-- The mappings are registered however their text is cut into chunks. -/
theorem objectLoad_chunks (s : Tracer) (self : Addr) {es : List MapEntry} {chunks : List Chunk}
    (hpos : ∀ c ∈ chunks, 1 ≤ c.val.length)
    (htext : (chunks.map Subtype.val).flatten = es.flatMap MapEntry.render)
    (hreads : turns.map ReadTurn.read = (chunks ++ [Chunk.eof]).map .bytes)
    (hok : ¬ SomeFails 1 turns) : ∃ maps, objectGetMmap true turns = .ok maps ∧
      s.objectLoad self maps = .ok { s with objects := s.objects ++
        (registered (s.objects.map Object.range) es).map fun e => newObject self e.line } := by
  refine ⟨_, getMmap_chunks hpos hreads hok, ?_⟩
  have hparse := objectParseMmap_foldl self s.objects es
  rw [foldl_addLine, renderMaps, ← htext] at hparse
  simp only [Tracer.objectLoad, hparse, ok_bind]
  rfl

/-- A `read` or `realloc` that fails ends the process. -/
theorem objectLoad_aborts (s : Tracer) (self : Addr) (h : SomeFails 1 turns) :
    ∃ maps, objectGetMmap true turns = .ok maps ∧ s.objectLoad self maps = .error .abort :=
  ⟨none, getMmap_fails h, rfl⟩

end Atrace.Signal

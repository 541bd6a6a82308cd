import Atrace.Lib.LittleEndian
import Atrace.Signal.MapsInode

/-! `object_get_self_entrypoint`, and where the kernel puts the executable. -/
namespace Atrace.Signal

open Atrace.Lib

/-- `object_get_self_exe`; a path that fills the 4096 bytes is copied without a terminator. -/
def objectGetSelfExe (readlink : Option (List UInt8)) : Except Fault (Option (List UInt8)) :=
  match readlink with
  | none => .ok none
  | some path => if path.length < 4096 then .ok (some path) else .error .badAccess

/-- `object_get_by_file` -/
def objectGetByFile (objects : List Object) (filename : List UInt8) : Option Object :=
  objects.find? fun currObj => currObj.fileName == filename

/-- `\x7f`, `E`, `L`, `F` -/
def elfMagic : List UInt8 := [0x7f, 0x45, 0x4c, 0x46]

/-- `object_get_exe_entrypoint`. `fread` stores what the file has of the 52 bytes of an
`Elf32_Ehdr`, and `e_entry` is the word at byte 24; the bytes that are not stored are memory that
nothing has been written to. -/
def objectGetExeEntrypoint (fopen : List UInt8 → Option (List UInt8)) (name : List UInt8) :
    Except Fault Addr :=
  match fopen name with
  | none => .ok 0
  | some file =>
    let ehdr := file.take 52
    -- the first stored byte that is not the magic's ends the test
    if ¬ ehdr.take 4 <+: elfMagic then .ok 0
    else if ehdr.length < 28 then .error .badAccess
    else .ok (BitVec.ofNat 64 (leValue ((ehdr.drop 24).take 4)))

/-- `object_get_self_entrypoint` -/
def objectGetSelfEntrypoint (readlink : Option (List UInt8))
    (fopen : List UInt8 → Option (List UInt8)) (objects : List Object) : Except Fault Addr := do
  match ← objectGetSelfExe readlink with
  | none => pure 0
  | some self =>
    match objectGetByFile objects self with
    | none => pure 0
    | some selfObj => do
      let epAddr ← objectGetExeEntrypoint fopen self
      pure (selfObj.textStart + epAddr)

/-- A `PT_LOAD` segment. -/
structure Load where
  vaddr : Addr
  executable : Bool

/-- An ELF64 executable: the header up to `e_entry`, what follows it in the file, and the segments
that the program headers in there describe. -/
structure Elf64 where
  ident : List UInt8
  ident_length : ident.length = 16
  magic : ident.take 4 = elfMagic
  type : BitVec 16
  machine : BitVec 16
  version : BitVec 32
  entry : Addr
  rest : List UInt8
  rest_length : 32 ≤ rest.length
  loads : List Load

namespace Elf64

def bytes (x : Elf64) : List UInt8 :=
  x.ident ++ (leBytes 2 x.type.toNat ++ (leBytes 2 x.machine.toNat ++
    (leBytes 4 x.version.toNat ++ (leBytes 8 x.entry.toNat ++ x.rest))))

/-- `ET_EXEC` -/
def fixed (x : Elf64) : Prop := x.type = 2

def textSegment (x : Elf64) : Option Load := x.loads.find? Load.executable

end Elf64

/-- The start of the page of an address, where a page has `2 ^ k` bytes. -/
def pageStart (k : Nat) (a : Addr) : Addr := a >>> k <<< k

/-- The executable is mapped with the bias: `e` is its first executable mapping, which the
registry can keep, and no earlier mapping has its range. -/
structure MappedAt (k : Nat) (bias : Addr) (x : Elf64) (seg : Load) (before : List MapRegion)
    (e : MapRegion) : Prop where
  fixed : x.fixed → bias = 0
  segment : x.textSegment = some seg
  start : e.start.value = bias + pageStart k seg.vaddr
  executable : e.Executable
  inode : e.line.inode ≠ 0
  first : ∀ d ∈ before, d.Executable → d.path ≠ e.path
  apart : ∀ d ∈ before, d.range ≠ e.range

variable {fopen : List UInt8 → Option (List UInt8)} {x : Elf64} {e : MapRegion}
  {before after : List MapRegion} {k : Nat} {bias : Addr} {seg : Load}

namespace Elf64

theorem le_length_bytes (x : Elf64) : 52 ≤ x.bytes.length := by
  have := x.rest_length
  simp only [bytes, List.length_append, length_leBytes, x.ident_length]
  omega

theorem take_magic (x : Elf64) : (x.bytes.take 52).take 4 = elfMagic := by
  rw [List.take_take, ← x.magic]
  exact List.take_append_of_le_length (by rw [x.ident_length]; omega)

/-- The word read as `e_entry` is the lower half of the real one. -/
theorem header_entry (x : Elf64) :
    BitVec.ofNat 64 (leValue (((x.bytes.take 52).drop 24).take 4)) =
      (x.entry.setWidth 32).setWidth 64 := by
  have hdrop : x.bytes.drop 24 = leBytes 8 x.entry.toNat ++ x.rest := by
    have hhead : x.bytes = (x.ident ++ (leBytes 2 x.type.toNat ++ (leBytes 2 x.machine.toNat ++
        leBytes 4 x.version.toNat))) ++ (leBytes 8 x.entry.toNat ++ x.rest) := by
      simp only [bytes, List.append_assoc]
    rw [hhead]
    apply List.drop_left'
    simp only [List.length_append, length_leBytes, x.ident_length]
  have hentry : ((x.bytes.take 52).drop 24).take 4 = leBytes 4 x.entry.toNat := by
    rw [List.drop_take, List.take_take, hdrop,
      List.take_append_of_le_length (by rw [length_leBytes]; omega)]
    exact take_leBytes (by omega) _
  rw [hentry]
  apply BitVec.eq_of_toNat_eq
  simp [leValue_leBytes]

end Elf64

theorem exeEntrypoint_eq {name : List UInt8} (h : fopen name = some x.bytes) :
    objectGetExeEntrypoint fopen name = .ok ((x.entry.setWidth 32).setWidth 64) := by
  have hlen : ¬ (x.bytes.take 52).length < 28 := by
    rw [List.length_take, min_eq_left x.le_length_bytes]
    omega
  simp only [objectGetExeEntrypoint, h, x.take_magic, List.prefix_rfl, not_true_eq_false, if_false,
    if_neg hlen, x.header_entry]

/-- A file without the magic has no entry, whatever its length. -/
theorem exeEntrypoint_not_elf {name file : List UInt8} (h : fopen name = some file)
    (hmagic : ¬ file.take 4 <+: elfMagic) : objectGetExeEntrypoint fopen name = .ok 0 := by
  simp [objectGetExeEntrypoint, h, List.take_take, hmagic]

/-- The first object of the file is that of the first executable mapping. -/
theorem objectGetByFile_mapped (self : Addr) (after : List MapRegion)
    (h : MappedAt k bias x seg before e) :
    ∃ objects o, objectParseMmap self [] (MapRegion.text (before ++ e :: after)) =
        .ok (objects, 0) ∧
      objectGetByFile objects e.path = some o ∧ o.textStart = bias + pageStart k seg.vaddr := by
  obtain ⟨news, hnews⟩ := foldl_addLine_region self [] before after h.executable h.inode (by simp)
    h.apart
  have hfile : (newObject self e.line).fileName = e.path := by
    rw [newObject_fileName, file_of_inode_ne_zero h.inode]
    rfl
  have hstart : (newObject self e.line).textStart = e.start.value :=
    congrArg Prod.fst (newObject_range e.line)
  refine ⟨_, newObject self e.line, objectParseMmap_regions .., ?_, hstart.trans h.start⟩
  rw [hnews, objectGetByFile, List.find?_append, List.find?_eq_none.mpr, Option.none_or,
    List.find?_cons_of_pos (by simp [hfile])]
  intro o ho
  rcases mem_foldl_addLine ho with ho | ⟨d, hd, ⟨hinode, hx⟩, rfl⟩
  · cases ho
  · rw [newObject_fileName, file_of_inode_ne_zero hinode]
    simpa using h.first d hd hx

/-- What the function returns for a mapped executable. -/
theorem selfEntrypoint_eq (self : Addr) (after : List MapRegion)
    (h : MappedAt k bias x seg before e) (hpath : e.path.length < 4096)
    (hfile : fopen e.path = some x.bytes) :
    ∃ objects, objectParseMmap self [] (MapRegion.text (before ++ e :: after)) =
        .ok (objects, 0) ∧
      objectGetSelfEntrypoint (some e.path) fopen objects =
        .ok (bias + pageStart k seg.vaddr + (x.entry.setWidth 32).setWidth 64) := by
  obtain ⟨objects, o, hload, hget, hstart⟩ := objectGetByFile_mapped self after h
  refine ⟨objects, hload, ?_⟩
  simp only [objectGetSelfEntrypoint, objectGetSelfExe, if_pos hpath, ok_bind, hget,
    exeEntrypoint_eq hfile, hstart]
  rfl

/-- An address is its upper half and its lower half. -/
theorem upper_add_lower (a : Addr) : a >>> 32 <<< 32 + (a.setWidth 32).setWidth 64 = a := by
  have hlt := a.isLt
  apply BitVec.eq_of_toNat_eq
  simp only [BitVec.toNat_add, BitVec.toNat_shiftLeft, BitVec.toNat_ushiftRight,
    BitVec.toNat_setWidth, Nat.shiftRight_eq_div_pow, Nat.shiftLeft_eq]
  omega

/-- The run-time address of the entry is found just when the executable segment starts, in whole
pages, where the upper half of the entry says. -/
theorem selfEntrypoint_iff (self : Addr) (after : List MapRegion)
    (h : MappedAt k bias x seg before e) (hpath : e.path.length < 4096)
    (hfile : fopen e.path = some x.bytes) :
    ∃ objects, objectParseMmap self [] (MapRegion.text (before ++ e :: after)) =
        .ok (objects, 0) ∧
      (objectGetSelfEntrypoint (some e.path) fopen objects = .ok (bias + x.entry) ↔
        pageStart k seg.vaddr = x.entry >>> 32 <<< 32) := by
  obtain ⟨objects, hload, hrun⟩ := selfEntrypoint_eq self after h hpath hfile
  refine ⟨objects, hload, ?_⟩
  rw [hrun]
  constructor
  · intro heq
    have hsum := Except.ok.inj heq
    rw [BitVec.add_assoc, BitVec.add_right_inj] at hsum
    conv_rhs at hsum => rw [← upper_add_lower x.entry]
    exact (BitVec.add_left_inj _).mp hsum
  · intro heq
    rw [heq, BitVec.add_assoc, upper_add_lower]

/-- A position-independent executable with one segment. -/
def oneSegment (entry vaddr : Addr) : Elf64 where
  ident := elfMagic ++ [2, 1, 1] ++ List.replicate 9 0
  ident_length := rfl
  magic := rfl
  type := 3
  machine := 183
  version := 1
  entry := entry
  rest := List.replicate 32 0
  rest_length := by simp
  loads := [⟨vaddr, true⟩]

theorem mappedAt_oneSegment (entry vaddr bias : Addr)
    (hstart : (0x10000 : Addr) = bias + pageStart 12 vaddr) :
    MappedAt 12 bias (oneSegment entry vaddr) ⟨vaddr, true⟩ [] (libraryRegion 1 (by decide)) where
  fixed h := absurd h (by simp [Elf64.fixed, oneSegment])
  segment := rfl
  start := hstart
  executable := executable_libraryRegion _ _
  inode h := absurd ((atoi_decimal_eq_zero_iff (by decide)).mp h).2 (by decide)
  first := by simp
  apart := by simp

/-- The text at the bottom of the image, as old linkers put it. -/
theorem selfEntrypoint_iff_bottom :
    ∃ objects, objectParseMmap 0 [] (MapRegion.text [libraryRegion 1 (by decide)]) =
        .ok (objects, 0) ∧
      (objectGetSelfEntrypoint (some libraryEntry.path)
          (fun _ => some (oneSegment 0x40 0).bytes) objects = .ok (0x10000 + 0x40) ↔
        pageStart 12 0 = (0x40 : Addr) >>> 32 <<< 32) :=
  selfEntrypoint_iff 0 [] (mappedAt_oneSegment 0x40 0 0x10000 (by decide)) (by decide) rfl

/-- The text one page above the bottom: the address found is one page too high. -/
theorem entrypoint_page_off :
    ∃ objects, objectParseMmap 0 [] (MapRegion.text [libraryRegion 1 (by decide)]) =
        .ok (objects, 0) ∧
      objectGetSelfEntrypoint (some libraryEntry.path)
        (fun _ => some (oneSegment 0x1040 0x1000).bytes) objects = .ok 0x11040 ∧
      (0x11040 : Addr) ≠ 0xf000 + 0x1040 := by
  obtain ⟨objects, hload, hrun⟩ : ∃ objects,
      objectParseMmap 0 [] (MapRegion.text [libraryRegion 1 (by decide)]) = .ok (objects, 0) ∧
        objectGetSelfEntrypoint (some libraryEntry.path)
          (fun _ => some (oneSegment 0x1040 0x1000).bytes) objects =
            .ok (0xf000 + pageStart 12 0x1000 + ((0x1040 : Addr).setWidth 32).setWidth 64) :=
    selfEntrypoint_eq 0 [] (mappedAt_oneSegment 0x1040 0x1000 0xf000 (by decide)) (by decide) rfl
  exact ⟨objects, hload, hrun, by decide⟩

end Atrace.Signal

import Atrace.Ptrace.Breakpoint
import Atrace.Signal.MapsInode

/-! `object_parse_mmap` of both tracers on lines with any inode. -/
namespace Atrace.Ptrace

open Signal

/-- `file_name`: the path of a line, or the literal that stands for it. -/
inductive FileName where
  | file (path : List UInt8)
  | pseudo
deriving DecidableEq

/-- `struct object` with the name of its file. -/
structure FileObject extends Object where
  fileName : FileName
deriving DecidableEq

def FileObject.range (o : FileObject) : Addr × Addr := (o.textStart, o.textEnd)

/-- The object made of a line. -/
def newObject (line : MmapLine) : FileObject where
  textStart := line.start
  textEnd := line.stop
  breakpointChain := []
  fileName := if line.inode ≠ 0 then .file (line.file.getD []) else .pseudo

/-- The second half of the loop body, which keeps the executable regions without a file. The
attributes have the bits of `ObjAttr`, and `calloc` succeeds. -/
def addLine (objects : List FileObject) (line : MmapLine) : List FileObject :=
  if line.attr &&& ObjAttr.EXECUTE.flag = 0 then objects
  else if objects.any fun o => o.textStart == line.start && o.textEnd == line.stop then objects
  else objects ++ [newObject line]

/-- `object_parse_mmap`; the loop and the first half of its body are the same in both tracers. -/
def objectParseMmap (objects : List FileObject) (mmap : List UInt8) :
    Except Fault (List FileObject × Int) := do
  let strlen ← scanFor 0 mmap
  parseMmapLoop addLine (mmap.length - strlen) objects mmap

/-- `object_parse_mmap` adds an object with the range and the path of the mapping. -/
def Registers (objects : List FileObject) (es : List MapRegion) (e : MapRegion) : Prop :=
  ∃ objects', objectParseMmap objects (MapRegion.text es) = .ok (objects', 0) ∧
    ∃ o ∈ objects', o.range = e.range ∧ o.fileName = .file e.path

variable {objects : List FileObject} {o : FileObject} {es : List MapRegion} {e : MapRegion}

theorem objectParseMmap_regions (objects : List FileObject) (es : List MapRegion) :
    objectParseMmap objects (MapRegion.text es) =
      .ok (es.foldl (fun o e => addLine o e.line) objects, 0) :=
  parseMmap_lines parseMmapLine_region (fun _ _ hb => mem_region hb) addLine objects es

theorem addLine_cases (objects : List FileObject) (e : MapRegion) :
    addLine objects e.line = objects ∨
      (addLine objects e.line = objects ++ [newObject e.line] ∧ e.Executable) := by
  unfold addLine
  split
  · exact Or.inl rfl
  rename_i hexec
  split
  · exact Or.inl rfl
  · exact Or.inr ⟨rfl, by_contra fun hx => hexec ((attr_execute_iff e).mpr hx)⟩

/-- A new executable range is always registered, and with its path just when its line shows an
inode. -/
theorem registers_iff (before after : List MapRegion) (hx : e.Executable)
    (hnew : e.range ∉ objects.map FileObject.range)
    (hother : ∀ d ∈ before ++ after, d.range ≠ e.range) :
    Registers objects (before ++ e :: after) e ↔ e.line.inode ≠ 0 := by
  rw [Registers, objectParseMmap_regions]
  constructor
  · rintro ⟨_, ⟨rfl⟩, o, ho, hrange, hfile⟩
    rcases mem_foldl_add addLine_cases ho with ho | ⟨d, hd, _, rfl⟩
    · exact absurd (hrange ▸ List.mem_map_of_mem ho) hnew
    · rcases List.mem_append.mp hd with hd | hd
      · exact absurd hrange (hother d (List.mem_append_left after hd))
      · rcases List.mem_cons.mp hd with rfl | hd
        · intro hzero
          rw [newObject, if_neg (fun h => h hzero)] at hfile
          cases hfile
        · exact absurd hrange (hother d (List.mem_append_right before hd))
  · intro hinode
    have hany : ¬ ((before.foldl (fun o e => addLine o e.line) objects).any fun o =>
        o.textStart == e.line.start && o.textEnd == e.line.stop) := by
      intro h
      obtain ⟨o, ho, heq⟩ := List.any_eq_true.mp h
      have hrange : o.range = e.range := by
        simpa [FileObject.range, MapRegion.range, MapRegion.line] using heq
      rcases mem_foldl_add addLine_cases ho with ho | ⟨d, hd, _, rfl⟩
      · exact hnew (hrange ▸ List.mem_map_of_mem ho)
      · exact hother d (List.mem_append_left after hd) hrange
    have hexec : ¬ e.line.attr &&& ObjAttr.EXECUTE.flag = 0 :=
      fun h => (attr_execute_iff e).mp h hx
    obtain ⟨news, hnews⟩ := foldl_add_append addLine_cases after
    refine ⟨_, rfl, newObject e.line, ?_, rfl, ?_⟩
    · rw [List.foldl_append, List.foldl_cons, hnews, addLine, if_neg hexec, if_neg hany]
      exact List.mem_append_left news (List.mem_append_right _ List.mem_cons_self)
    · rw [newObject, if_pos hinode, file_of_inode_ne_zero hinode]
      rfl

/-- Both tracers take an executable mapping for a file-backed one just when it has an inode, as
long as the inode is not one of those that `atoi` loses. -/
theorem file_backed_iff (self : Addr) (before after : List MapRegion)
    {objs : List Signal.Object} (hx : e.Executable)
    (hobjs : e.range ∉ objs.map Object.range) (hobjects : e.range ∉ objects.map FileObject.range)
    (hother : ∀ d ∈ before ++ after, d.range ≠ e.range) :
    ((Signal.Registers self objs (before ++ e :: after) e ↔ e.inode ≠ 0) ↔
        InodeKept e.inode) ∧
      ((Registers objects (before ++ e :: after) e ↔ e.inode ≠ 0) ↔ InodeKept e.inode) := by
  rw [Signal.registers_iff self before after hx hobjs hother,
    registers_iff before after hx hobjects hother]
  exact ⟨inode_ne_zero_iff e, inode_ne_zero_iff e⟩

theorem file_backed_iff_largest :
    ((Signal.Registers 0 [] [libraryRegion (2 ^ 64 - 1) (by decide)]
          (libraryRegion (2 ^ 64 - 1) (by decide)) ↔ 2 ^ 64 - 1 ≠ 0) ↔ InodeKept (2 ^ 64 - 1)) ∧
      ((Registers [] [libraryRegion (2 ^ 64 - 1) (by decide)]
          (libraryRegion (2 ^ 64 - 1) (by decide)) ↔ 2 ^ 64 - 1 ≠ 0) ↔ InodeKept (2 ^ 64 - 1)) :=
  file_backed_iff 0 [] [] (executable_libraryRegion _ _) (by simp) (by simp) (by simp)

/-- The inode 2^32 is not zero, and its library is invisible. -/
theorem inode_lost : ¬ (Signal.Registers 0 [] [libraryRegion (2 ^ 32) (by decide)]
    (libraryRegion (2 ^ 32) (by decide)) ↔ 2 ^ 32 ≠ 0) := by
  have hregisters : Signal.Registers 0 [] [libraryRegion (2 ^ 32) (by decide)]
      (libraryRegion (2 ^ 32) (by decide)) ↔ (libraryRegion (2 ^ 32) (by decide)).line.inode ≠ 0 :=
    Signal.registers_iff 0 [] [] (executable_libraryRegion _ _) (by simp) (by simp)
  have hzero : (libraryRegion (2 ^ 32) (by decide)).line.inode = 0 :=
    (atoi_decimal_eq_zero_iff (by decide)).mpr (by decide)
  intro h
  exact hregisters.mp (h.mpr (by decide)) hzero

end Atrace.Ptrace

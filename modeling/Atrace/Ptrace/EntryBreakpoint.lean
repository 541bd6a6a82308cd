import Atrace.Ptrace.BreakpointFind
import Atrace.Ptrace.MapsReload
import Atrace.Signal.EntryPoint

/-! The breakpoint at the entry of the profilee: `object_get_exe`, `object_get_exe_entry_point`,
`object_get_by_file` and `breakpoint_create` one after the other. -/
namespace Atrace.Ptrace

open Atrace.Lib Signal Profiler

/-- The text `<pseudo file>`. -/
def pseudoFile : List UInt8 :=
  [0x3c, 0x70, 0x73, 0x65, 0x75, 0x64, 0x6f, 0x20, 0x66, 0x69, 0x6c, 0x65, 0x3e]

/-- The characters that a file name points to. -/
def FileName.chars : FileName → List UInt8
  | .file path => path
  | .pseudo => pseudoFile

/-- `object_get_by_file` -/
def objectGetByFile (objects : List FileObject) (filename : Option (List UInt8)) :
    Except Fault (Option ObjPtr) :=
  match filename with
  | none => .error .assertion
  | some filename => .ok (objects.findIdx? fun currObj => currObj.fileName.chars == filename)

variable {objects : List FileObject} {e : MapRegion} {before after : List MapRegion}
  {buf link : List UInt8} {fopen : List UInt8 → Option (List UInt8)} {k : Nat} {bias : Addr}
  {x : Elf64} {seg : Load}

theorem newObject_chars (h : e.line.inode ≠ 0) : (newObject e.line).fileName.chars = e.path := by
  rw [newObject, if_pos h, file_of_inode_ne_zero h]
  rfl

/-- The first object with the path of the executable is that of its first executable mapping. -/
theorem objectGetByFile_mapped (after : List MapRegion) (h : MappedAt k bias x seg before e)
    (hpath : e.path ≠ pseudoFile) : ∃ objects i o,
      objectLoad [] (some (MapRegion.text (before ++ e :: after))) = .ok (objects, 0) ∧
      objectGetByFile objects (some e.path) = .ok (some i) ∧ objects[i]? = some o ∧
      o.range = (bias + pageStart k seg.vaddr, e.stop.value) := by
  obtain ⟨news, hnews⟩ := foldl_add_append addLine_cases after
    (s := before.foldl (fun o e => addLine o e.line) [] ++ [newObject e.line])
  have hmem : ∀ o ∈ before.foldl (fun o e => addLine o e.line) [], ∃ d ∈ before, d.Executable ∧
      o = newObject d.line := by
    intro o ho
    rcases mem_foldl_add addLine_cases ho with ho | hd
    · cases ho
    · exact hd
  have hadd : addLine (before.foldl (fun o e => addLine o e.line) []) e.line =
      before.foldl (fun o e => addLine o e.line) [] ++ [newObject e.line] := by
    have hexec : ¬ e.line.attr &&& ObjAttr.EXECUTE.flag = 0 :=
      fun hx => (attr_execute_iff e).mp hx h.executable
    rw [addLine, if_neg hexec, if_neg]
    intro hany
    obtain ⟨o, ho, heq⟩ := List.any_eq_true.mp hany
    obtain ⟨d, hd, _, rfl⟩ := hmem o ho
    refine h.apart d hd ?_
    simpa [newObject, MapRegion.range, MapRegion.line] using heq
  refine ⟨before.foldl (fun o e => addLine o e.line) [] ++ [newObject e.line] ++ news,
    (before.foldl (fun o e => addLine o e.line) []).length, newObject e.line, ?_, ?_, ?_,
    Prod.ext h.start rfl⟩
  · simp only [objectLoad, objectParseMmap_regions]
    rw [List.foldl_append, List.foldl_cons, hadd, hnews]
    rfl
  · rw [objectGetByFile, List.append_assoc, List.findIdx?_append, List.findIdx?_eq_none_iff.mpr]
    · simp [List.findIdx?_cons, newObject_chars h.inode]
    · intro o ho
      obtain ⟨d, hd, hx, rfl⟩ := hmem o ho
      by_cases hinode : d.line.inode = 0
      · have hchars : (newObject d.line).fileName.chars = pseudoFile := by
          rw [newObject, if_neg (not_not.mpr hinode)]
          rfl
        simpa [hchars] using hpath.symm
      · simpa [newObject_chars hinode] using h.first d hd hx
  · rw [List.append_assoc, List.getElem?_append_right le_rfl, Nat.sub_self]
    rfl

end Atrace.Ptrace

import Atrace.Ptrace.MapsInode
import Atrace.Signal.MapsReload

/-! `object_load` of the tracer, called again while the tracee runs. -/
namespace Atrace.Ptrace

open Atrace.Lib.Registry Signal

/-- `object_load`, with the text of the memory map if it can be read. -/
def objectLoad (objects : List FileObject) (maps : Option (List UInt8)) :
    Except Fault (List FileObject × Int) :=
  match maps with
  | none => .ok (objects, -1)
  | some maps => do
    let (objects, rv) ← objectParseMmap objects maps
    if rv ≠ 0 then .ok (objects, -1) else .ok (objects, 0)

/-- The object of a line, if it is of an executable region. -/
def objectOf (line : MmapLine) : Option FileObject :=
  if line.attr &&& ObjAttr.EXECUTE.flag = 0 then none else some (newObject line)

theorem addLine_register : addLine = register FileObject.range objectOf := by
  funext objects line
  rw [addLine, register, objectOf]
  by_cases hattr : line.attr &&& ObjAttr.EXECUTE.flag = 0
  · simp [hattr]
  have hany : (objects.any fun o => o.textStart == line.start && o.textEnd == line.stop) = true ↔
      (newObject line).range ∈ objects.map FileObject.range := by
    simp [newObject, FileObject.range]
  simp only [if_neg hattr]
  by_cases hkey : (newObject line).range ∈ objects.map FileObject.range
  · rw [if_pos hkey, if_pos (hany.mpr hkey)]
  · rw [if_neg hkey, if_neg (hany.not.mpr hkey)]

/-- A load that fails on a line keeps the objects of the lines before it. -/
theorem objectLoad_eq (maps : Option (List UInt8)) :
    (∃ (lines : List MmapLine) (rv : Int), ∀ objects, objectLoad objects maps =
      .ok (lines.foldl (register FileObject.range objectOf) objects, rv)) ∨
    ∃ f, ∀ objects, objectLoad objects maps = .error f := by
  cases maps with
  | none => exact Or.inl ⟨[], -1, fun _ => rfl⟩
  | some maps =>
    simp only [objectLoad, objectParseMmap, parseMmapLoop_eq, addLine_register]
    cases scanFor 0 maps with
    | error f => exact Or.inr ⟨f, fun _ => rfl⟩
    | ok n =>
      simp only [ok_bind]
      cases parsedLines (maps.length - n) maps with
      | error f => exact Or.inr ⟨f, fun _ => rfl⟩
      | ok r =>
        obtain ⟨lines, rv⟩ := r
        by_cases hrv : rv = 0
        · exact Or.inl ⟨lines, 0, fun _ => by simp [Except.map, hrv]⟩
        · exact Or.inl ⟨lines, -1, fun _ => by simp [Except.map, hrv]⟩

theorem loads_objectLoad :
    Loads FileObject.range objectOf fun objects maps => (objectLoad objects maps).map Prod.fst := by
  intro maps
  rcases objectLoad_eq maps with ⟨lines, rv, h⟩ | ⟨f, h⟩
  · exact Or.inl ⟨lines, fun objects => congrArg (Except.map Prod.fst) (h objects)⟩
  · exact Or.inr fun objects => ⟨f, congrArg (Except.map Prod.fst) (h objects)⟩

/-- The loads of a run, each of the mappings at its time: the objects keep their places, no range is
there twice, and a load of a text that was loaded before, to its end or up to a bad line, gives its
code again and changes nothing. -/
theorem objectLoad_again (objects objects' : List FileObject) (loads : List (Option (List UInt8)))
    (h : loads.foldlM (fun objects maps => (objectLoad objects maps).map Prod.fst) objects =
      .ok objects') :
    objects <+: objects' ∧
      ((objects.map FileObject.range).Nodup → (objects'.map FileObject.range).Nodup) ∧
      ∀ maps ∈ loads, ∃ rv, objectLoad objects' maps = .ok (objects', rv) ∧
        ∀ objects, ∃ objects'', objectLoad objects maps = .ok (objects'', rv) := by
  refine ⟨loads_objectLoad.prefix_foldlM h, loads_objectLoad.nodup_foldlM h, ?_⟩
  intro maps hmaps
  have hagain := loads_objectLoad.again h hmaps
  rcases objectLoad_eq maps with ⟨lines, rv, hload⟩ | ⟨f, hload⟩
  · refine ⟨rv, ?_, fun objects => ⟨_, hload objects⟩⟩
    rw [hload] at hagain
    have hsame : lines.foldl (register FileObject.range objectOf) objects' = objects' :=
      Except.ok.inj hagain
    rw [hload, hsame]
  · rw [hload] at hagain
    cases hagain

/-- A mapping of a file is read, then nothing can be read, then the mapping is there again. -/
theorem objectLoad_again_unread : ∃ objects : List FileObject,
    objects.length = 1 ∧ (objects.map FileObject.range).Nodup ∧
      objectLoad objects none = .ok (objects, -1) := by
  have hload (objects : List FileObject) :
      objectLoad objects (MapRegion.text [libraryRegion 1 (by decide)]) =
        .ok (addLine objects (libraryRegion 1 (by decide)).line, 0) := by
    simp only [objectLoad, objectParseMmap_regions]
    rfl
  have hrun : [some (MapRegion.text [libraryRegion 1 (by decide)]), none,
        some (MapRegion.text [libraryRegion 1 (by decide)])].foldlM
      (fun objects maps => (objectLoad objects maps).map Prod.fst) [] =
        .ok [newObject (libraryRegion 1 (by decide)).line] := by
    simp only [List.foldlM_cons, hload]
    rfl
  obtain ⟨_, hnodup, hagain⟩ := objectLoad_again [] _ _ hrun
  obtain ⟨rv, hsame, hcode⟩ := hagain none (by simp)
  refine ⟨_, rfl, hnodup List.nodup_nil, ?_⟩
  obtain ⟨objects, hnone⟩ := hcode []
  cases hnone
  exact hsame

end Atrace.Ptrace

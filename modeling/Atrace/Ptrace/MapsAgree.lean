import Atrace.Ptrace.MapsReload

/-! The two copies of `object_parse_mmap` on the same texts. -/
namespace Atrace.Ptrace

open Atrace.Lib Registry Signal

/-- An executable range of a file, with the path. -/
abbrev FileEntry := (Addr × Addr) × List UInt8

def libraryFile (o : Signal.Object) : FileEntry := (o.range, o.fileName)

def FileObject.file (o : FileObject) : Option FileEntry :=
  match o.fileName with
  | .file path => some (o.range, path)
  | .pseudo => none

/-- The lines that a parse reads, and its code. -/
def mmapLines (mmap : List UInt8) : Except Fault (List MmapLine × Int) := do
  let strlen ← scanFor 0 mmap
  parsedLines (mmap.length - strlen) mmap

/-- The lines of several texts, one after the other. -/
def linesOf : List (List UInt8) → Except Fault (List MmapLine)
  | [] => .ok []
  | mmap :: mmaps => do
    let (lines, _) ← mmapLines mmap
    let rest ← linesOf mmaps
    pure (lines ++ rest)

variable {self : Addr} {objs : List Signal.Object} {objects : List FileObject}
  {mmap : List UInt8} {mmaps : List (List UInt8)} {line : MmapLine}

theorem signal_objectParseMmap_eq : Signal.objectParseMmap self objs mmap =
    (mmapLines mmap).map fun r =>
      (r.1.foldl (register Object.range (Signal.objectOf self)) objs, r.2) := by
  simp only [Signal.objectParseMmap, mmapLines, parseMmapLoop_eq, Signal.addLine_register]
  cases scanFor 0 mmap <;> rfl

theorem objectParseMmap_eq : objectParseMmap objects mmap =
    (mmapLines mmap).map fun r =>
      (r.1.foldl (register FileObject.range objectOf) objects, r.2) := by
  simp only [objectParseMmap, mmapLines, parseMmapLoop_eq, addLine_register]
  cases scanFor 0 mmap <;> rfl

/-- A run of parses reads the lines of its texts. -/
theorem foldlM_lines {β : Type} {parse : List β → List UInt8 → Except Fault (List β × Int)}
    {add : List β → MmapLine → List β}
    (hparse : ∀ bs mmap, parse bs mmap = (mmapLines mmap).map fun r => (r.1.foldl add bs, r.2))
    (bs : List β) :
    mmaps.foldlM (fun bs mmap => (parse bs mmap).map Prod.fst) bs =
      (linesOf mmaps).map fun lines => lines.foldl add bs := by
  induction mmaps generalizing bs with
  | nil => rfl
  | cons mmap mmaps ih =>
    rw [List.foldlM_cons, hparse, linesOf]
    cases mmapLines mmap with
    | error f => rfl
    | ok r =>
      refine (ih _).trans ?_
      cases linesOf mmaps with
      | error f => rfl
      | ok lines => exact congrArg Except.ok List.foldl_append.symm

/-- A line makes an object of the one tracer just when it makes one with a file of the other. -/
theorem objectOf_file (self : Addr) : (fun line => (Signal.objectOf self line).map libraryFile) =
    fun line => (objectOf line).bind FileObject.file := by
  funext line
  rw [Signal.objectOf, objectOf]
  by_cases hattr : line.attr &&& ObjAttr.EXECUTE.flag = 0
  · rw [if_pos (Or.inr hattr), if_pos hattr]
    rfl
  by_cases hinode : line.inode = 0
  · rw [if_pos (Or.inl hinode), if_neg hattr]
    simp [newObject, FileObject.file, hinode]
  · have hname : (newObject line).fileName = .file (line.file.getD []) := if_pos hinode
    have hrange : (newObject line).range = (line.start, line.stop) := rfl
    rw [if_neg (not_or.mpr ⟨hinode, hattr⟩), if_neg hattr]
    simp [FileObject.file, libraryFile, hname, hrange, Signal.newObject_range, newObject_fileName]

theorem file_isSome {o : FileObject} : o.file.isSome ↔ o.fileName ≠ .pseudo := by
  cases h : o.fileName <;> simp [FileObject.file, h]

theorem file_range {o : FileObject} {e : FileEntry} (h : o.file = some e) : e.1 = o.range := by
  cases hname : o.fileName with
  | file path =>
    simp only [FileObject.file, hname] at h
    cases h
    rfl
  | pseudo => simp [FileObject.file, hname] at h

/-- The objects that a line with an inode makes. -/
theorem objectOf_named (line : MmapLine) (P : FileObject → Prop) :
    (∀ o, objectOf line = some o → o.file.isSome → P o) ↔
      (line.attr &&& ObjAttr.EXECUTE.flag ≠ 0 → line.inode ≠ 0 → P (newObject line)) := by
  have hnamed : (newObject line).fileName ≠ .pseudo ↔ line.inode ≠ 0 := by
    by_cases hinode : line.inode = 0 <;> simp [newObject, hinode]
  by_cases hattr : line.attr &&& ObjAttr.EXECUTE.flag = 0
  · simp [objectOf, hattr]
  · rw [objectOf, if_neg hattr]
    simp only [Option.some.injEq, forall_eq', file_isSome, hnamed]
    exact ⟨fun h _ => h, fun h => h hattr⟩

/-- Where the one tracer has a file, the other has the same one, as long as no range that a file is
mapped to was first executable without one. Their codes and their faults are the same. -/
theorem parsers_agree_iff (self : Addr) (objs : List Signal.Object) (objects : List FileObject)
    (mmaps : List (List UInt8))
    (hfiles : objs.map libraryFile = objects.filterMap FileObject.file)
    (hnodup : (objects.map FileObject.range).Nodup) :
    (∀ objs objects mmap, (Signal.objectParseMmap self objs mmap).map Prod.snd =
      (objectParseMmap objects mmap).map Prod.snd) ∧
    ((∃ f, linesOf mmaps = .error f ∧
        mmaps.foldlM (fun objs mmap => (Signal.objectParseMmap self objs mmap).map Prod.fst) objs =
          .error f ∧
        mmaps.foldlM (fun objects mmap => (objectParseMmap objects mmap).map Prod.fst) objects =
          .error f) ∨
      ∃ lines objs' objects', linesOf mmaps = .ok lines ∧
        mmaps.foldlM (fun objs mmap => (Signal.objectParseMmap self objs mmap).map Prod.fst) objs =
          .ok objs' ∧
        mmaps.foldlM (fun objects mmap => (objectParseMmap objects mmap).map Prod.fst) objects =
          .ok objects' ∧
        (objs'.map libraryFile = objects'.filterMap FileObject.file ↔
          ∀ line ∈ lines, line.attr &&& ObjAttr.EXECUTE.flag ≠ 0 → line.inode ≠ 0 →
            ∀ o, (objects ++ lines.filterMap objectOf).find?
              (fun o => o.range = (line.start, line.stop)) = some o → o.fileName ≠ .pseudo)) := by
  refine ⟨fun objs objects mmap => ?_, ?_⟩
  · rw [signal_objectParseMmap_eq, objectParseMmap_eq]
    cases mmapLines mmap <;> rfl
  · rw [foldlM_lines fun _ _ => signal_objectParseMmap_eq,
      foldlM_lines fun _ _ => objectParseMmap_eq]
    cases linesOf mmaps with
    | error f => exact Or.inl ⟨f, rfl, rfl, rfl⟩
    | ok lines =>
      refine Or.inr ⟨lines, _, _, rfl, rfl, rfl, ?_⟩
      have hview :
          (lines.foldl (register Object.range (Signal.objectOf self)) objs).map libraryFile =
          lines.foldl (register Prod.fst fun line => (Signal.objectOf self line).map libraryFile)
            (objs.map libraryFile) := map_foldl fun _ => rfl
      refine (Eq.congr_left hview).trans ?_
      rw [hfiles, objectOf_file, filterMap_foldl_iff (fun _ _ => file_range) hnodup]
      refine forall₂_congr fun line _ => (objectOf_named line _).trans ?_
      simp only [file_isSome]
      rfl

/-- The text of one library, read by both tracers with nothing loaded before. -/
theorem parsers_agree_iff_library : ∃ lines,
    linesOf [MapRegion.text [libraryRegion 1 (by decide)]] = .ok lines ∧
      ∀ line ∈ lines, line.attr &&& ObjAttr.EXECUTE.flag ≠ 0 → line.inode ≠ 0 →
        ∀ o, (lines.filterMap objectOf).find?
          (fun o => o.range = (line.start, line.stop)) = some o → o.fileName ≠ .pseudo := by
  have hsignal : [MapRegion.text [libraryRegion 1 (by decide)]].foldlM
      (fun objs mmap => (Signal.objectParseMmap 0 objs mmap).map Prod.fst) [] =
        .ok [Signal.newObject 0 (libraryRegion 1 (by decide)).line] := by
    simp only [List.foldlM_cons, Signal.objectParseMmap_regions]
    rfl
  have hptrace : [MapRegion.text [libraryRegion 1 (by decide)]].foldlM
      (fun objects mmap => (objectParseMmap objects mmap).map Prod.fst) [] =
        .ok [newObject (libraryRegion 1 (by decide)).line] := by
    simp only [List.foldlM_cons, objectParseMmap_regions]
    rfl
  obtain ⟨_, ⟨f, _, herr, _⟩ | ⟨lines, objs, objects, hlines, hobjs, hobjects, hiff⟩⟩ :=
    parsers_agree_iff 0 [] []
      [MapRegion.text [libraryRegion 1 (by decide)]] rfl List.nodup_nil
  · cases hsignal.symm.trans herr
  · obtain rfl := Except.ok.inj (hsignal.symm.trans hobjs)
    obtain rfl := Except.ok.inj (hptrace.symm.trans hobjects)
    exact ⟨lines, hlines, hiff.mp rfl⟩

end Atrace.Ptrace

import Atrace.Lib.Registry
import Atrace.Signal.AddressLookup
import Atrace.Signal.MapsRead

/-! Loading the objects again, after the mappings have changed or not. -/
namespace Atrace.Signal

open Atrace.Lib Atrace.Lib.Registry

variable {self : Addr} {mmapEnd : Nat} {mmap : List UInt8} {objects : List Object} {s s' : Tracer}

/-- The object of a line, if it is of an executable file. -/
def objectOf (self : Addr) (line : MmapLine) : Option Object :=
  if line.inode = 0 ∨ line.attr &&& ObjAttr.EXECUTE.flag = 0 then none
  else some (newObject self line)

theorem addLine_register : addLine self = register Object.range (objectOf self) := by
  funext objects line
  rw [addLine, register, objectOf]
  by_cases hinode : line.inode = 0
  · simp [hinode]
  by_cases hattr : line.attr &&& ObjAttr.EXECUTE.flag = 0
  · simp [hattr]
  have hrange : (newObject self line).range = (line.start, line.stop) := by
    simp only [newObject]
    split <;> rfl
  have hany : (objects.any fun o => o.textStart == line.start && o.textEnd == line.stop) = true ↔
      (newObject self line).range ∈ objects.map Object.range := by
    rw [hrange]
    simp [Object.range]
  simp only [hinode, hattr, or_self, if_false]
  by_cases hkey : (newObject self line).range ∈ objects.map Object.range
  · rw [if_pos hkey, if_pos (hany.mpr hkey)]
  · rw [if_neg hkey, if_neg (hany.not.mpr hkey)]

/-- The lines that a parse reads, and its code. -/
def parsedLines (mmapEnd : Nat) (mmap : List UInt8) : Except Fault (List MmapLine × Int) :=
  if mmap.length = mmapEnd then .ok ([], 0)
  else
    match h : parseMmapLine mmap with
    | .error f => .error f
    | .ok none => .ok ([], -1)
    | .ok (some (rest, line)) => (parsedLines mmapEnd rest).map fun r => (line :: r.1, r.2)
termination_by mmap.length
decreasing_by exact parseMmapLine_lt h

theorem parsedLines_fault {f : Fault} (hend : mmap.length ≠ mmapEnd)
    (hline : parseMmapLine mmap = .error f) : parsedLines mmapEnd mmap = .error f := by
  rw [parsedLines, if_neg hend]
  split <;> rename_i h <;> rw [hline] at h <;> cases h
  rfl

theorem parsedLines_null (hend : mmap.length ≠ mmapEnd) (hline : parseMmapLine mmap = .ok none) :
    parsedLines mmapEnd mmap = .ok ([], -1) := by
  rw [parsedLines, if_neg hend]
  split <;> rename_i h <;> rw [hline] at h <;> cases h

theorem parsedLines_line {rest : List UInt8} {line : MmapLine} (hend : mmap.length ≠ mmapEnd)
    (hline : parseMmapLine mmap = .ok (some (rest, line))) : parsedLines mmapEnd mmap =
      (parsedLines mmapEnd rest).map fun r => (line :: r.1, r.2) := by
  rw [parsedLines, if_neg hend]
  split <;> rename_i h <;> rw [hline] at h <;> cases h
  rfl

/-- The objects that there are already play no part in reading the lines. -/
theorem parseMmapLoop_eq {σ : Type} {add : σ → MmapLine → σ} {objects : σ} :
    parseMmapLoop add mmapEnd objects mmap =
      (parsedLines mmapEnd mmap).map fun r => (r.1.foldl add objects, r.2) := by
  induction mmap using parsedLines.induct mmapEnd generalizing objects with
  | case1 mmap hend =>
    rw [parseMmapLoop, parsedLines, if_pos hend, if_pos hend]
    rfl
  | case2 mmap hend f hline =>
    rw [parseMmapLoop_fault hend hline, parsedLines_fault hend hline]
    rfl
  | case3 mmap hend hline =>
    rw [parseMmapLoop_null hend hline, parsedLines_null hend hline]
    rfl
  | case4 mmap hend rest line hline ih =>
    rw [parseMmapLoop_line hend hline, parsedLines_line hend hline, ih]
    cases parsedLines mmapEnd rest <;> rfl

/-- What `object_load` does to the registry. -/
def loadObjects (self : Addr) (objects : List Object) (maps : Option (List UInt8)) :
    Except Fault (List Object) :=
  match maps with
  | none => .error .abort
  | some maps => do
    let (objects, rv) ← objectParseMmap self objects maps
    if rv ≠ 0 then .error .abort else pure objects

theorem objectLoad_eq (maps : Option (List UInt8)) : s.objectLoad self maps =
    (loadObjects self s.objects maps).map fun objects => { s with objects := objects } := by
  cases maps with
  | none => rfl
  | some maps =>
    simp only [Tracer.objectLoad, loadObjects]
    cases objectParseMmap self s.objects maps with
    | error f => rfl
    | ok r =>
      simp only [ok_bind]
      split <;> rfl

theorem loads_loadObjects : Loads Object.range (objectOf self) (loadObjects self) := by
  intro maps
  cases maps with
  | none => exact Or.inr fun _ => ⟨_, rfl⟩
  | some maps =>
    simp only [loadObjects, objectParseMmap, parseMmapLoop_eq, addLine_register]
    cases scanFor 0 maps with
    | error f => exact Or.inr fun _ => ⟨f, rfl⟩
    | ok n =>
      simp only [ok_bind]
      cases parsedLines (maps.length - n) maps with
      | error f => exact Or.inr fun _ => ⟨f, rfl⟩
      | ok r =>
        obtain ⟨lines, rv⟩ := r
        by_cases hrv : rv = 0
        · subst hrv
          exact Or.inl ⟨lines, fun _ => rfl⟩
        · refine Or.inr fun _ => ⟨.abort, ?_⟩
          simp only [Except.map, ok_bind, if_pos hrv]

/-- The mappings at one time, and the reads of their text, of which none fails. -/
structure Snapshot where
  entries : List MapEntry
  chunks : List Chunk
  turns : List ReadTurn
  positive : ∀ c ∈ chunks, 1 ≤ c.val.length
  text : (chunks.map Subtype.val).flatten = entries.flatMap MapEntry.render
  reads : turns.map ReadTurn.read = (chunks ++ [Chunk.eof]).map .bytes
  succeeds : ¬ SomeFails 1 turns

namespace Tracer

theorem foldlM_objectLoad {loads : List (Option (List UInt8))} :
    loads.foldlM (fun s maps => s.objectLoad self maps) s =
      (loads.foldlM (loadObjects self) s.objects).map fun objects =>
        { s with objects := objects } := by
  induction loads generalizing s with
  | nil => rfl
  | cons maps loads ih =>
    rw [List.foldlM_cons, List.foldlM_cons, objectLoad_eq]
    cases loadObjects self s.objects maps with
    | error f => rfl
    | ok objects => exact ih

theorem objectLoad_renderMaps (self : Addr) (s : Tracer) (es : List MapEntry) :
    s.objectLoad self (renderMaps es) =
      .ok { s with objects := es.foldl (fun o e => addLine self o e.line) s.objects } := by
  simp only [objectLoad, objectParseMmap_foldl]
  rfl

/-- Objects are loaded any number of times, of mappings that change in between: the objects keep
their places, no range is there twice, and mappings that were loaded before change nothing. -/
theorem objectLoad_settles (self : Addr) (s s' : Tracer) (loads : List (Option (List UInt8)))
    (h : loads.foldlM (fun s maps => s.objectLoad self maps) s = .ok s') :
    s.objects <+: s'.objects ∧
      ((s.objects.map Object.range).Nodup → (s'.objects.map Object.range).Nodup) ∧
      ∀ maps ∈ loads, s'.objectLoad self maps = .ok s' := by
  rw [foldlM_objectLoad] at h
  cases hrun : loads.foldlM (loadObjects self) s.objects with
  | error f =>
    rw [hrun] at h
    cases h
  | ok objects =>
    rw [hrun] at h
    cases h
    refine ⟨loads_loadObjects.prefix_foldlM hrun, loads_loadObjects.nodup_foldlM hrun, ?_⟩
    intro maps hmaps
    rw [objectLoad_eq, loads_loadObjects.again hrun hmaps]
    rfl

/-- A library is mapped, and then a second one above it. -/
theorem objectLoad_settles_adjacent : ∃ s : Tracer, s.objects = [] ∧
    adjacentMappings.objects.length = 2 ∧
      s.objects <+: adjacentMappings.objects ∧
      (adjacentMappings.objects.map Object.range).Nodup ∧
      adjacentMappings.objectLoad 0x11800 (renderMaps [libraryEntry]) = .ok adjacentMappings := by
  let s : Tracer := { adjacentMappings with objects := [] }
  have hrun : [some (renderMaps [libraryEntry]),
        some (renderMaps [libraryEntry, upperMapping])].foldlM
      (fun s maps => s.objectLoad 0x11800 maps) s = .ok adjacentMappings := by
    simp only [List.foldlM_cons, objectLoad_renderMaps, ok_bind, List.foldlM_nil]
    rfl
  obtain ⟨hfront, hnodup, hagain⟩ := objectLoad_settles 0x11800 s adjacentMappings _ hrun
  exact ⟨s, rfl, rfl, hfront, hnodup List.nodup_nil, hagain _ List.mem_cons_self⟩

theorem foldlM_renderMaps (self : Addr) (s : Tracer) (ess : List (List MapEntry)) :
    (ess.map fun es => some (renderMaps es)).foldlM (fun s maps => s.objectLoad self maps) s =
      .ok { s with objects := ess.flatten.foldl (fun o e => addLine self o e.line) s.objects } := by
  induction ess generalizing s with
  | nil => rfl
  | cons es ess ih =>
    rw [List.map_cons, List.foldlM_cons, objectLoad_renderMaps, List.flatten_cons, List.foldl_append]
    exact ih _

/-- Objects are loaded of the mappings at several times, however their texts are cut into chunks:
each executable range of a file gets one object, made of the first line that shows it, in the order
in which the ranges first show up. -/
theorem objectLoad_snapshots (self : Addr) (s : Tracer) (ms : List Snapshot) :
    ∃ texts : List (Option (List UInt8)),
      ms.map (fun m => objectGetMmap true m.turns) = texts.map .ok ∧
      texts.foldlM (fun s maps => s.objectLoad self maps) s = .ok { s with
        objects := s.objects ++
          (registered (s.objects.map Object.range) (ms.flatMap Snapshot.entries)).map
            (fun e => newObject self e.line) } := by
  refine ⟨ms.map fun m => some (renderMaps m.entries), ?_, ?_⟩
  · rw [List.map_map]
    refine List.map_congr_left fun m _ => ?_
    rw [getMmap_chunks m.positive m.reads m.succeeds, m.text]
    rfl
  · have hload := foldlM_renderMaps self s (ms.map Snapshot.entries)
    rw [List.map_map] at hload
    rw [← foldl_addLine, List.flatMap_def]
    exact hload

/-- One line, in one chunk. -/
def librarySnapshot : Snapshot where
  entries := [libraryEntry]
  chunks := [⟨libraryEntry.render, by decide⟩]
  turns := [⟨.bytes ⟨libraryEntry.render, by decide⟩, some fun _ => 0⟩,
    ⟨.bytes .eof, some fun _ => 0⟩]
  positive := by decide
  text := rfl
  reads := rfl
  succeeds := by
    intro hfails
    cases readLoop_fails hfails reading_start rfl

theorem objectLoad_snapshots_same : ∃ s : Tracer, s.objects = [newObject 0 libraryEntry.line] ∧
    ∃ texts : List (Option (List UInt8)), texts.length = 2 ∧
      texts.foldlM (fun s maps => s.objectLoad 0 maps) { adjacentMappings with objects := [] } =
        .ok s := by
  obtain ⟨texts, htexts, hload⟩ := objectLoad_snapshots 0 { adjacentMappings with objects := [] }
    [librarySnapshot, librarySnapshot]
  have hlength := congrArg List.length htexts
  simp only [List.length_map] at hlength
  exact ⟨_, rfl, texts, hlength.symm, hload⟩

end Tracer

end Atrace.Signal

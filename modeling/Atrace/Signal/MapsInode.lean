import Atrace.Signal.MapsFormat

/-! Lines of `/proc/self/maps` with any inode that the kernel can print. -/
namespace Atrace.Signal

/-- One mapping, with an inode of 64 bits. -/
structure MapRegion where
  start : HexField
  stop : HexField
  perms : PlainField
  offset : PlainField
  dev : PlainField
  inode : Nat
  inode_lt : inode < 2 ^ 64
  padding : Nat
  path : List UInt8
  path_ok : ∀ c ∈ path, c ≠ chNewline ∧ c ≠ 0
  path_named : 0 < inode → path ≠ [] ∧ path.head? ≠ some chSpace

namespace MapRegion

def render (e : MapRegion) : List UInt8 :=
  e.start.digits ++ chDash :: (e.stop.digits ++ chSpace :: (e.perms.text ++ chSpace ::
    (e.offset.text ++ chSpace :: (e.dev.text ++ chSpace :: (decimal e.inode ++ chSpace ::
      (List.replicate e.padding chSpace ++ (e.path ++ [chNewline])))))))

/-- The text of the mappings, with its terminator. -/
def text (es : List MapRegion) : List UInt8 := es.flatMap render ++ [0]

def range (e : MapRegion) : Addr × Addr := (e.start.value, e.stop.value)

def Executable (e : MapRegion) : Prop := 0x78 ∈ e.perms.text

/-- What the loop body reads from the line. -/
def line (e : MapRegion) : MmapLine where
  start := e.start.value
  stop := e.stop.value
  attr := permBits e.perms.text
  inode := atoi (decimal e.inode)
  file := if atoi (decimal e.inode) = 0 then none else some (e.path.dropWhile (· == chSpace))

end MapRegion

/-- The inodes that keep a bit through `atoi`, the clamp included, and zero. -/
def InodeKept (n : Nat) : Prop := n = 0 ∨ 2 ^ 63 ≤ n ∨ ¬ 2 ^ 32 ∣ n

/-- `object_parse_mmap` adds an object with the range and the path of the mapping, or has it. -/
def Registers (self : Addr) (objects : List Object) (es : List MapRegion) (e : MapRegion) : Prop :=
  ∃ objects', objectParseMmap self objects (MapRegion.text es) = .ok (objects', 0) ∧
    ∃ o ∈ objects', o.range = e.range ∧ o.fileName = e.path

variable {self : Addr} {objects : List Object} {o : Object} {es : List MapRegion} {e : MapRegion}

/-- The low half of the clamped value is zero. -/
theorem atoi_decimal_eq_zero_iff {n : Nat} (h : n < 2 ^ 64) :
    atoi (decimal n) = 0 ↔ n < 2 ^ 63 ∧ 2 ^ 32 ∣ n := by
  rw [atoi, strtol_decimal]
  by_cases hn : n < 2 ^ 63
  · rw [min_eq_left (by omega), BitVec.ofInt_natCast, ← BitVec.toNat_inj]
    simp only [BitVec.toNat_ofNat, BitVec.ofNat_eq_ofNat]
    omega
  · rw [min_eq_right (by omega)]
    constructor
    · intro hzero
      exact absurd hzero (by decide)
    · rintro ⟨hlt, _⟩
      exact absurd hlt hn

theorem inode_ne_zero_iff (e : MapRegion) :
    (e.line.inode ≠ 0 ↔ e.inode ≠ 0) ↔ InodeKept e.inode := by
  have hzero := atoi_decimal_eq_zero_iff e.inode_lt
  rw [MapRegion.line, ne_eq, hzero, InodeKept]
  by_cases h0 : e.inode = 0
  · simp [h0]
  · rw [or_iff_right h0]
    constructor
    · intro h
      have hnot := h.mpr h0
      by_contra hkept
      obtain ⟨hlt, hdvd⟩ := not_or.mp hkept
      exact hnot ⟨by omega, not_not.mp hdvd⟩
    · intro hkept
      refine ⟨fun _ => h0, ?_⟩
      rintro _ ⟨hlt, hdvd⟩
      rcases hkept with hge | hdvd'
      · omega
      · exact hdvd' hdvd

theorem parseMmapLine_region (e : MapRegion) (r : List UInt8) :
    parseMmapLine (e.render ++ r) = .ok (some (r, e.line)) := by
  have hmmap : e.render ++ r = e.start.digits ++ chDash :: (e.stop.digits ++ chSpace ::
      (e.perms.text ++ chSpace :: (e.offset.text ++ chSpace :: (e.dev.text ++ chSpace ::
        (decimal e.inode ++ chSpace :: (List.replicate e.padding chSpace ++
          (e.path ++ chNewline :: r))))))) := by
    simp [MapRegion.render]
  rw [hmmap, parseMmapLine_fields _ _ _ _ _ _ _ e.path_ok]
  rfl

theorem mem_region {b : UInt8} (h : b ∈ e.render) : b ≠ 0 := mem_fields e.path_ok h

theorem objectParseMmap_regions (self : Addr) (objects : List Object) (es : List MapRegion) :
    objectParseMmap self objects (MapRegion.text es) =
      .ok (es.foldl (fun o e => addLine self o e.line) objects, 0) :=
  parseMmap_lines parseMmapLine_region (fun _ _ hb => mem_region hb) (addLine self) objects es

/-- The path that is read for an inode that counts. -/
theorem file_of_inode_ne_zero (h : e.line.inode ≠ 0) : e.line.file = some e.path := by
  have hinode : atoi (decimal e.inode) ≠ 0 := h
  have hpos : 0 < e.inode := by
    apply Nat.pos_of_ne_zero
    intro h0
    exact hinode ((atoi_decimal_eq_zero_iff e.inode_lt).mpr (by omega))
  have hpath := dropWhile_path (e.path_named hpos).2
  rw [MapRegion.line, if_neg hinode, hpath]

/-- The execute bit is read right. -/
theorem attr_execute_iff (e : MapRegion) :
    e.line.attr &&& ObjAttr.EXECUTE.flag = 0 ↔ ¬ e.Executable := by
  have h := (hasAttr_eq ⟨[], 0, 0, e.line.attr, []⟩ .EXECUTE).trans
    (attrBit_permBits (fun c => (attrBit_attrOfChar c).2.2.1) e.perms.text)
  rw [MapRegion.Executable, ← decide_eq_false_iff_not, ← h]
  simp [Object.hasAttr]

theorem addLine_cases (self : Addr) (objects : List Object) (e : MapRegion) :
    addLine self objects e.line = objects ∨
      (addLine self objects e.line = objects ++ [newObject self e.line] ∧
        e.line.inode ≠ 0 ∧ e.Executable) := by
  unfold addLine
  split
  · exact Or.inl rfl
  rename_i hinode
  split
  · exact Or.inl rfl
  rename_i hexec
  split
  · exact Or.inl rfl
  · exact Or.inr ⟨rfl, hinode, by_contra fun hx => hexec ((attr_execute_iff e).mpr hx)⟩

section Fold

variable {α β : Type} {add : List α → β → List α} {new : β → α} {P : β → Prop} {s : List α}
  {ds : List β} {x : α}

/-- What a fold that appends at most one element for each line has in the end. -/
theorem mem_foldl_add (hadd : ∀ s d, add s d = s ∨ (add s d = s ++ [new d] ∧ P d))
    (h : x ∈ ds.foldl add s) : x ∈ s ∨ ∃ d ∈ ds, P d ∧ x = new d := by
  induction ds generalizing s with
  | nil => exact Or.inl h
  | cons d ds ih =>
    rcases ih h with h | ⟨d', hd', hx⟩
    · rcases hadd s d with heq | ⟨heq, hd⟩ <;> rw [heq] at h
      · exact Or.inl h
      · rcases List.mem_append.mp h with h | h
        · exact Or.inl h
        · exact Or.inr ⟨d, List.mem_cons_self, hd, List.mem_singleton.mp h⟩
    · exact Or.inr ⟨d', List.mem_cons_of_mem d hd', hx⟩

theorem foldl_add_append (hadd : ∀ s d, add s d = s ∨ (add s d = s ++ [new d] ∧ P d))
    (ds : List β) : ∃ news, ds.foldl add s = s ++ news := by
  induction ds generalizing s with
  | nil => exact ⟨[], (List.append_nil s).symm⟩
  | cons d ds ih =>
    obtain ⟨news, hnews⟩ := @ih (add s d)
    rw [List.foldl_cons, hnews]
    rcases hadd s d with heq | ⟨heq, _⟩ <;> rw [heq]
    · exact ⟨news, rfl⟩
    · exact ⟨new d :: news, by rw [List.append_assoc, List.singleton_append]⟩

end Fold

/-- The registry has only objects of the lines that showed an inode and the execute permission. -/
theorem mem_foldl_addLine (h : o ∈ es.foldl (fun o e => addLine self o e.line) objects) :
    o ∈ objects ∨ ∃ d ∈ es, (d.line.inode ≠ 0 ∧ d.Executable) ∧ o = newObject self d.line :=
  mem_foldl_add (addLine_cases self) h

theorem range_of_foldl (hnew : e.range ∉ objects.map Object.range)
    (hother : ∀ d ∈ es, d.range ≠ e.range) (ho : o.range = e.range) :
    o ∉ es.foldl (fun o e => addLine self o e.line) objects := by
  intro h
  rcases mem_foldl_addLine h with h | ⟨d, hd, _, rfl⟩
  · exact hnew (ho ▸ List.mem_map_of_mem h)
  · exact hother d hd ((newObject_range d.line).symm.trans ho)

/-- A mapping that is new, executable and shows an inode appends its object. -/
theorem foldl_addLine_region (self : Addr) (objects : List Object) (before after : List MapRegion)
    (hx : e.Executable) (hinode : e.line.inode ≠ 0) (hnew : e.range ∉ objects.map Object.range)
    (hbefore : ∀ d ∈ before, d.range ≠ e.range) :
    ∃ news, (before ++ e :: after).foldl (fun o e => addLine self o e.line) objects =
      before.foldl (fun o e => addLine self o e.line) objects ++ newObject self e.line :: news := by
  have hany : ¬ ((before.foldl (fun o e => addLine self o e.line) objects).any fun o =>
      o.textStart == e.line.start && o.textEnd == e.line.stop) := by
    intro h
    obtain ⟨o, ho, heq⟩ := List.any_eq_true.mp h
    have hrange : o.range = e.range := by
      simpa [Object.range, MapRegion.range, MapRegion.line] using heq
    exact range_of_foldl hnew hbefore hrange ho
  have hexec : ¬ e.line.attr &&& ObjAttr.EXECUTE.flag = 0 := fun h => (attr_execute_iff e).mp h hx
  obtain ⟨news, hnews⟩ := foldl_add_append (addLine_cases self) after
  refine ⟨news, ?_⟩
  rw [List.foldl_append, List.foldl_cons, hnews, addLine, if_neg hinode, if_neg hexec, if_neg hany,
    List.append_assoc, List.singleton_append]

/-- A new executable range is registered with its path just when its line shows an inode. -/
theorem registers_iff (self : Addr) (before after : List MapRegion) (hx : e.Executable)
    (hnew : e.range ∉ objects.map Object.range)
    (hother : ∀ d ∈ before ++ after, d.range ≠ e.range) :
    Registers self objects (before ++ e :: after) e ↔ e.line.inode ≠ 0 := by
  rw [Registers, objectParseMmap_regions]
  constructor
  · rintro ⟨_, ⟨rfl⟩, o, ho, hrange, _⟩
    rcases mem_foldl_addLine ho with ho | ⟨d, hd, ⟨hinode, _⟩, rfl⟩
    · exact absurd (hrange ▸ List.mem_map_of_mem ho) hnew
    · have hsame : d.range = e.range := (newObject_range d.line).symm.trans hrange
      rcases List.mem_append.mp hd with hd | hd
      · exact absurd hsame (hother d (List.mem_append_left after hd))
      · rcases List.mem_cons.mp hd with rfl | hd
        · exact hinode
        · exact absurd hsame (hother d (List.mem_append_right before hd))
  · intro hinode
    obtain ⟨news, hnews⟩ := foldl_addLine_region self objects before after hx hinode hnew
      fun d hd => hother d (List.mem_append_left after hd)
    refine ⟨_, rfl, newObject self e.line, ?_, newObject_range e.line, ?_⟩
    · rw [hnews]
      exact List.mem_append_right _ List.mem_cons_self
    · rw [newObject_fileName, file_of_inode_ne_zero hinode]
      rfl

/-- `10000-11000 r-xp 0 1:1 n /a` -/
def libraryRegion (n : Nat) (h : n < 2 ^ 64) : MapRegion where
  start := libraryEntry.start
  stop := libraryEntry.stop
  perms := libraryEntry.perms
  offset := libraryEntry.offset
  dev := libraryEntry.dev
  inode := n
  inode_lt := h
  padding := 0
  path := libraryEntry.path
  path_ok := libraryEntry.path_ok
  path_named _ := libraryEntry.path_named (by decide)

theorem executable_libraryRegion (n : Nat) (h : n < 2 ^ 64) : (libraryRegion n h).Executable := by
  simp [MapRegion.Executable, libraryRegion, libraryEntry]

end Atrace.Signal

import Mathlib.Data.List.Nodup
import Atrace.Lib.Run
import Atrace.Signal.MapsFormat

/-! Threads interleaving calls of `object_load`, one step for each section under `object_lock`. -/
namespace Atrace.Signal

open Atrace.Lib

/-- The line calls for an object: not anonymous, and executable. -/
def MmapLine.wanted (line : MmapLine) : Bool :=
  line.inode ≠ 0 && line.attr &&& ObjAttr.EXECUTE.flag ≠ 0

def MmapLine.range (line : MmapLine) : Addr × Addr := (line.start, line.stop)

/-- The scan of the registry for the range of a line. -/
def MmapLine.exists (line : MmapLine) (objects : List Object) : Bool :=
  objects.any fun o => o.textStart == line.start && o.textEnd == line.stop

/-- Where a thread is in `object_load`, with the end of its text and the rest of it. -/
inductive LoadPc where
  | idle
  | parsing (mmapEnd : Nat) (mmap : List UInt8)
  | scanning (mmapEnd : Nat) (mmap : List UInt8) (line : MmapLine)
  | appending (mmapEnd : Nat) (mmap : List UInt8) (obj : Object)

/-- The registry shared by the threads `κ`. -/
structure LoadState (κ : Type*) where
  objects : List Object
  pc : κ → LoadPc

inductive LoadEvent (κ : Type*) where
  | call (t : κ) (text : List UInt8)
  | parse (t : κ)
  | scan (t : κ)
  | append (t : κ)
  | done (t : κ)

variable {κ : Type*} [DecidableEq κ]

def LoadState.setPc (s : LoadState κ) (t : κ) (pc : LoadPc) : LoadState κ :=
  { s with pc := Function.update s.pc t pc }

theorem LoadState.setPc_pc (s : LoadState κ) (t u : κ) (pc : LoadPc) :
    (s.setPc t pc).pc u = if u = t then pc else s.pc u :=
  Function.update_apply ..

theorem LoadState.setPc_self (s : LoadState κ) (t : κ) (pc : LoadPc) : (s.setPc t pc).pc t = pc :=
  Function.update_self ..

theorem LoadState.setPc_setPc (s : LoadState κ) (t : κ) (pc pc' : LoadPc) :
    (s.setPc t pc).setPc t pc' = s.setPc t pc' := by
  simp [setPc]

/-- One step of a thread. The scan and the append of a line are two sections; a text that does not
parse ends the process in `abort()`, so that thread has no step then. -/
inductive LoadStep (self : Addr) : LoadState κ → LoadEvent κ → LoadState κ → Prop where
  | call {s : LoadState κ} {t : κ} {text : List UInt8} {n : Nat} (hpc : s.pc t = .idle)
      (hlen : scanFor 0 text = .ok n) :
      LoadStep self s (.call t text) (s.setPc t (.parsing (text.length - n) text))
  | skip {s : LoadState κ} {t : κ} {n : Nat} {mmap rest : List UInt8} {line : MmapLine}
      (hpc : s.pc t = .parsing n mmap) (hend : mmap.length ≠ n)
      (hline : parseMmapLine mmap = .ok (some (rest, line))) (hw : line.wanted = false) :
      LoadStep self s (.parse t) (s.setPc t (.parsing n rest))
  | parse {s : LoadState κ} {t : κ} {n : Nat} {mmap rest : List UInt8} {line : MmapLine}
      (hpc : s.pc t = .parsing n mmap) (hend : mmap.length ≠ n)
      (hline : parseMmapLine mmap = .ok (some (rest, line))) (hw : line.wanted = true) :
      LoadStep self s (.parse t) (s.setPc t (.scanning n rest line))
  | present {s : LoadState κ} {t : κ} {n : Nat} {mmap : List UInt8} {line : MmapLine}
      (hpc : s.pc t = .scanning n mmap line) (hex : line.exists s.objects = true) :
      LoadStep self s (.scan t) (s.setPc t (.parsing n mmap))
  | absent {s : LoadState κ} {t : κ} {n : Nat} {mmap : List UInt8} {line : MmapLine}
      (hpc : s.pc t = .scanning n mmap line) (hex : line.exists s.objects = false) :
      LoadStep self s (.scan t) (s.setPc t (.appending n mmap (newObject self line)))
  | append {s : LoadState κ} {t : κ} {n : Nat} {mmap : List UInt8} {obj : Object}
      (hpc : s.pc t = .appending n mmap obj) :
      LoadStep self s (.append t)
        { s.setPc t (.parsing n mmap) with objects := s.objects ++ [obj] }
  | done {s : LoadState κ} {t : κ} {n : Nat} {mmap : List UInt8}
      (hpc : s.pc t = .parsing n mmap) (hend : mmap.length = n) :
      LoadStep self s (.done t) (s.setPc t .idle)

namespace LoadState

/-- No two objects of the registry have the same range. -/
def NoDuplicates (s : LoadState κ) : Prop := (s.objects.map Object.range).Nodup

/-- The thread has found no object with the range and will append one. -/
def Appends (s : LoadState κ) (t : κ) (r : Addr × Addr) : Prop :=
  ∃ n mmap obj, s.pc t = .appending n mmap obj ∧ obj.range = r

/-- A scan that finds nothing is made while nobody else is about to append the same range. -/
def Undisturbed (s : LoadState κ) : LoadEvent κ → Prop
  | .scan t => ∀ n mmap line, s.pc t = .scanning n mmap line → line.exists s.objects = false →
      ∀ u, u ≠ t → ¬ s.Appends u line.range
  | _ => True

end LoadState

/-- The registry and what is about to be appended to it have different ranges. -/
structure LoadInv (s : LoadState κ) : Prop where
  nodup : s.NoDuplicates
  fresh : ∀ t r, s.Appends t r → r ∉ s.objects.map Object.range
  apart : ∀ t u r, s.Appends t r → s.Appends u r → t = u

variable {self : Addr} {s s' : LoadState κ} {e : LoadEvent κ} {t u : κ} {pc : LoadPc}
  {r : Addr × Addr}

omit [DecidableEq κ] in
theorem exists_iff (line : MmapLine) (objects : List Object) :
    line.exists objects = true ↔ line.range ∈ objects.map Object.range := by
  simp [MmapLine.exists, MmapLine.range, Object.range]

/-- A thread that moves on without an object to append takes nothing away from the others. -/
theorem appends_setPc (hpc : ∀ n mmap obj, pc ≠ .appending n mmap obj)
    (h : (s.setPc t pc).Appends u r) : u ≠ t ∧ s.Appends u r := by
  obtain ⟨n, mmap, obj, hu, hr⟩ := h
  rw [LoadState.setPc_pc] at hu
  split at hu
  · exact (hpc n mmap obj hu).elim
  · rename_i hne
    exact ⟨hne, n, mmap, obj, hu, hr⟩

namespace LoadInv

theorem setPc (hi : LoadInv s) (hpc : ∀ n mmap obj, pc ≠ .appending n mmap obj) :
    LoadInv (s.setPc t pc) := by
  refine ⟨hi.nodup, ?_, ?_⟩
  · intro u r hu
    exact hi.fresh u r (appends_setPc hpc hu).2
  · intro u v r hu hv
    exact hi.apart u v r (appends_setPc hpc hu).2 (appends_setPc hpc hv).2

/-- The scan found nothing, so the range is new if nobody else is about to append it. -/
theorem absent (hi : LoadInv s) {n : Nat} {mmap : List UInt8} {line : MmapLine}
    (hex : line.exists s.objects = false) (hother : ∀ u, u ≠ t → ¬ s.Appends u line.range) :
    LoadInv (s.setPc t (.appending n mmap (newObject self line))) := by
  have hrange : (newObject self line).range = line.range := newObject_range line
  have hnew : line.range ∉ s.objects.map Object.range := by
    rw [← exists_iff, hex]
    exact Bool.false_ne_true
  have hcases : ∀ u r, (s.setPc t (.appending n mmap (newObject self line))).Appends u r →
      (u = t ∧ r = line.range) ∨ (u ≠ t ∧ s.Appends u r) := by
    rintro u r ⟨m, rest, obj, hu, hr⟩
    rw [LoadState.setPc_pc] at hu
    split at hu
    · rename_i hut
      obtain ⟨rfl, rfl, rfl⟩ := LoadPc.appending.inj hu
      exact Or.inl ⟨hut, hr.symm.trans hrange⟩
    · rename_i hut
      exact Or.inr ⟨hut, m, rest, obj, hu, hr⟩
  refine ⟨hi.nodup, ?_, ?_⟩
  · intro u r hu
    rcases hcases u r hu with ⟨_, rfl⟩ | ⟨_, hu⟩
    · exact hnew
    · exact hi.fresh u r hu
  · intro u v r hu hv
    rcases hcases u r hu with ⟨hut, hr⟩ | ⟨hut, hu'⟩ <;>
      rcases hcases v r hv with ⟨hvt, hr'⟩ | ⟨hvt, hv'⟩
    · rw [hut, hvt]
    · exact (hother v hvt (hr ▸ hv')).elim
    · exact (hother u hut (hr' ▸ hu')).elim
    · exact hi.apart u v r hu' hv'

theorem append (hi : LoadInv s) {n : Nat} {mmap : List UInt8} {obj : Object}
    (hpc : s.pc t = .appending n mmap obj) :
    LoadInv { s.setPc t (.parsing n mmap) with objects := s.objects ++ [obj] } := by
  have hself : s.Appends t obj.range := ⟨n, mmap, obj, hpc, rfl⟩
  have hold : ∀ u r, ({ s.setPc t (.parsing n mmap) with
      objects := s.objects ++ [obj] } : LoadState κ).Appends u r → u ≠ t ∧ s.Appends u r := by
    intro u r hu
    have hne : ∀ n' mmap' obj', LoadPc.parsing n mmap ≠ .appending n' mmap' obj' := nofun
    exact appends_setPc hne hu
  refine ⟨?_, ?_, ?_⟩
  · rw [LoadState.NoDuplicates, List.map_append, List.map_singleton]
    refine List.nodup_append.mpr ⟨hi.nodup, List.nodup_singleton _, ?_⟩
    intro r hr x hx he
    obtain rfl := List.mem_singleton.mp hx
    exact hi.fresh t _ hself (he ▸ hr)
  · intro u r hu hmem
    obtain ⟨hut, hu⟩ := hold u r hu
    rw [List.map_append, List.map_singleton] at hmem
    rcases List.mem_append.mp hmem with hmem | hmem
    · exact hi.fresh u r hu hmem
    · obtain rfl := List.mem_singleton.mp hmem
      exact hut (hi.apart u t _ hu hself)
  · intro u v r hu hv
    exact hi.apart u v r (hold u r hu).2 (hold v r hv).2

end LoadInv

theorem loadInv_step (h : LoadStep self s e s') (hq : s.Undisturbed e) (hi : LoadInv s) :
    LoadInv s' := by
  cases h with
  | call hpc hlen => exact hi.setPc nofun
  | skip hpc hend hline hw => exact hi.setPc nofun
  | parse hpc hend hline hw => exact hi.setPc nofun
  | present hpc hex => exact hi.setPc nofun
  | absent hpc hex => exact hi.absent hex (hq _ _ _ hpc hex)
  | append hpc => exact hi.append hpc
  | done hpc hend => exact hi.setPc nofun

/-- No call has begun, and the registry has no duplicates: it is empty, for one. -/
structure LoadInitial (s : LoadState κ) : Prop where
  nodup : s.NoDuplicates
  pc : ∀ t, s.pc t = .idle

omit [DecidableEq κ] in
theorem loadInv_initial (h : LoadInitial s) : LoadInv s := by
  have hnone : ∀ t r, ¬ s.Appends t r := by
    rintro t r ⟨n, mmap, obj, hpc, _⟩
    rw [h.pc] at hpc
    cases hpc
  exact ⟨h.nodup, fun t r ht => (hnone t r ht).elim, fun t u r ht => (hnone t r ht).elim⟩

/-- Two threads that are about to append one range both do. -/
theorem both_append (hne : t ≠ u) (ht : s.Appends t r) (hu : s.Appends u r) :
    ∃ as s', Run (LoadStep self) s as s' ∧ ¬ s'.NoDuplicates := by
  obtain ⟨n, mmap, obj, hpc, rfl⟩ := ht
  obtain ⟨n', mmap', obj', hpc', hr'⟩ := hu
  have hpc'' : ({ s.setPc t (.parsing n mmap) with objects := s.objects ++ [obj] } :
      LoadState κ).pc u = .appending n' mmap' obj' :=
    (LoadState.setPc_pc ..).trans ((if_neg (Ne.symm hne)).trans hpc')
  refine ⟨_, _, .stepL (.append hpc) (.stepL (.append hpc'') .refl), ?_⟩
  simp [LoadState.NoDuplicates, List.nodup_append, hr']

/-- While every scan that finds nothing is undisturbed there are no duplicates; after a disturbed
one the two threads can bring them about. -/
theorem registry_noDuplicates {events : List (LoadState κ × LoadEvent κ)} {s₀ : LoadState κ}
    (h : Run (Traced (LoadStep self)) s₀ events s) (h₀ : LoadInitial s₀)
    (hq : ∀ l ∈ events, l.1.Undisturbed l.2) :
    s.NoDuplicates ∧ ∀ e s', LoadStep self s e s' → ¬ s.Undisturbed e →
      ∃ as s'', Run (LoadStep self) s' as s'' ∧ ¬ s''.NoDuplicates := by
  have hi : LoadInv s := by
    refine h.inv_of_labels ?_ hq (loadInv_initial h₀)
    rintro t ⟨_, e⟩ u ⟨rfl, hstep⟩ hq hi
    exact loadInv_step hstep hq hi
  refine ⟨hi.nodup, ?_⟩
  intro e s' hstep hdist
  cases hstep with
  | call hpc hlen => exact (hdist trivial).elim
  | skip hpc hend hline hw => exact (hdist trivial).elim
  | parse hpc hend hline hw => exact (hdist trivial).elim
  | append hpc => exact (hdist trivial).elim
  | done hpc hend => exact (hdist trivial).elim
  | present hpc hex =>
    refine (hdist ?_).elim
    intro n mmap line hpc' hex'
    obtain ⟨rfl, rfl, rfl⟩ := LoadPc.scanning.inj (hpc.symm.trans hpc')
    exact absurd (hex.symm.trans hex') (by decide)
  | absent hpc hex =>
    rename_i t n mmap line
    obtain ⟨u, hut, hu⟩ : ∃ u, u ≠ t ∧ s.Appends u line.range := by
      by_contra hnone
      apply hdist
      intro n' mmap' line' hpc' _ u hut hu
      obtain ⟨rfl, rfl, rfl⟩ := LoadPc.scanning.inj (hpc.symm.trans hpc')
      exact hnone ⟨u, hut, hu⟩
    have hself : (s.setPc t (.appending n mmap (newObject self line))).Appends t line.range :=
      ⟨n, mmap, _, (LoadState.setPc_pc ..).trans (if_pos rfl), newObject_range line⟩
    obtain ⟨m, rest, obj, hpc', hr⟩ := hu
    have hother : (s.setPc t (.appending n mmap (newObject self line))).Appends u line.range :=
      ⟨m, rest, obj, (LoadState.setPc_pc ..).trans ((if_neg hut).trans hpc'), hr⟩
    exact both_append hut hother hself

section Alone

variable {objects objects' : List Object} {n : Nat} {mmap : List UInt8}

theorem addLine_eq (objects : List Object) (line : MmapLine) :
    addLine self objects line =
      if line.wanted then
        if line.exists objects then objects else objects ++ [newObject self line]
      else objects := by
  unfold addLine
  by_cases h0 : line.inode = 0
  · have hw : line.wanted = false := by simp [MmapLine.wanted, h0]
    rw [if_pos h0, hw, if_neg Bool.false_ne_true]
  by_cases hx : line.attr &&& ObjAttr.EXECUTE.flag = 0
  · have hw : line.wanted = false := by simp [MmapLine.wanted, hx]
    rw [if_neg h0, if_pos hx, hw, if_neg Bool.false_ne_true]
  · have hw : line.wanted = true := by
      simp only [MmapLine.wanted, Bool.and_eq_true, decide_eq_true_eq]
      exact ⟨h0, hx⟩
    rw [if_neg h0, if_neg hx, hw, if_pos rfl]
    rfl

variable (self) in
/-- The sections of one line, one after the other. -/
theorem run_line {rest : List UInt8} {line : MmapLine} (hpc : s.pc t = .parsing n mmap)
    (hend : mmap.length ≠ n) (hline : parseMmapLine mmap = .ok (some (rest, line))) :
    ∃ as, Run (LoadStep self) s as
      { s.setPc t (.parsing n rest) with objects := addLine self s.objects line } := by
  rw [addLine_eq]
  cases hw : line.wanted with
  | false => exact ⟨_, .stepL (.skip hpc hend hline hw) .refl⟩
  | true =>
    have hscan := s.setPc_self t (.scanning n rest line)
    cases hex : line.exists s.objects with
    | true =>
      have hstep : LoadStep self _ _ _ := .present hscan hex
      rw [LoadState.setPc_setPc] at hstep
      exact ⟨_, .stepL (.parse hpc hend hline hw) (.stepL hstep .refl)⟩
    | false =>
      have hstep : LoadStep self _ _ _ := .absent hscan hex
      have happ := s.setPc_self t (.appending n rest (newObject self line))
      have hstep' : LoadStep self _ _ _ := .append happ
      rw [LoadState.setPc_setPc] at hstep hstep'
      exact ⟨_, .stepL (.parse hpc hend hline hw) (.stepL hstep (.stepL hstep' .refl))⟩

/-- A loader that nobody interrupts does what `object_parse_mmap` does. -/
theorem run_parse (hrun : parseMmapLoop (addLine self) n objects mmap = .ok (objects', 0)) :
    ∀ s : LoadState κ, s.objects = objects → s.pc t = .parsing n mmap →
      ∃ as, Run (LoadStep self) s as { s.setPc t .idle with objects := objects' } := by
  induction objects, mmap using parseMmapLoop.induct (addLine self) n with
  | case1 objects mmap hend =>
    rw [parseMmapLoop, if_pos hend] at hrun
    cases hrun
    rintro s rfl hpc
    exact ⟨_, .stepL (.done hpc hend) .refl⟩
  | case2 objects mmap hend f hline =>
    rw [parseMmapLoop_fault hend hline] at hrun
    cases hrun
  | case3 objects mmap hend hline =>
    rw [parseMmapLoop_null hend hline] at hrun
    cases hrun
  | case4 objects mmap hend rest line hline ih =>
    rw [parseMmapLoop_line hend hline] at hrun
    rintro s rfl hpc
    obtain ⟨as, hfirst⟩ := run_line self hpc hend hline
    obtain ⟨bs, hrest⟩ := ih hrun
      { s.setPc t (.parsing n rest) with objects := addLine self s.objects line } rfl
      (s.setPc_self ..)
    refine ⟨as ++ bs, hfirst.append ?_⟩
    simpa [LoadState.setPc] using hrest

theorem run_load (hpc : s.pc t = .idle)
    (hrun : objectParseMmap self s.objects mmap = .ok (objects', 0)) :
    ∃ as, Run (LoadStep self) s as { s with objects := objects' } := by
  obtain ⟨k, hlen, hrun⟩ := bind_ok hrun
  obtain ⟨as, hloop⟩ := run_parse (t := t) hrun (s.setPc t (.parsing (mmap.length - k) mmap)) rfl
    (s.setPc_self ..)
  refine ⟨_, .stepL (.call hpc hlen) (?_ : Run _ _ as _)⟩
  have hback : Function.update s.pc t .idle = s.pc := by
    rw [← hpc]
    exact Function.update_eq_self t s.pc
  simpa [LoadState.setPc, hback] using hloop

end Alone

section OneMapping

theorem scanFor_renderMaps (es : List MapEntry) :
    scanFor 0 (renderMaps es) = .ok (es.flatMap MapEntry.render).length := by
  have hzero : ∀ b ∈ es.flatMap MapEntry.render, b ≠ 0 := by
    intro b hb
    obtain ⟨e, _, hb⟩ := List.mem_flatMap.mp hb
    exact mem_render hb
  exact scanFor_append hzero []

variable {entry : MapEntry} {es : List MapEntry}

theorem call_step (es : List MapEntry) (hpc : s.pc t = .idle) :
    LoadStep self s (.call t (renderMaps es)) (s.setPc t (.parsing 1 (renderMaps es))) := by
  have hlen : (renderMaps es).length - (es.flatMap MapEntry.render).length = 1 := by
    simp [renderMaps]
  rw [← hlen]
  exact .call hpc (scanFor_renderMaps es)

theorem parse_step (hw : entry.line.wanted = true)
    (hpc : s.pc t = .parsing 1 (renderMaps (entry :: es))) :
    LoadStep self s (.parse t) (s.setPc t (.scanning 1 (renderMaps es) entry.line)) := by
  have hline : parseMmapLine (renderMaps (entry :: es)) =
      .ok (some (renderMaps es, entry.line)) := by
    simpa [renderMaps] using parseMmapLine_render entry (renderMaps es)
  have hend : (renderMaps (entry :: es)).length ≠ 1 := by
    have hlt := parseMmapLine_lt hline
    have hone : 1 ≤ (renderMaps es).length := by simp [renderMaps]
    omega
  exact .parse hpc hend hline hw

/-- A thread that reads one mapping and finds no object for it. -/
theorem run_to_append (es : List MapEntry) (hw : entry.line.wanted = true) (hpc : s.pc t = .idle)
    (hex : entry.line.exists s.objects = false) :
    Run (Traced (LoadStep self)) s
      [(s, .call t (renderMaps (entry :: es))),
        (s.setPc t (.parsing 1 (renderMaps (entry :: es))), .parse t),
        (s.setPc t (.scanning 1 (renderMaps es) entry.line), .scan t)]
      (s.setPc t (.appending 1 (renderMaps es) (newObject self entry.line))) := by
  have hcall : LoadStep self s _ _ := call_step (entry :: es) hpc
  have hparse : LoadStep self _ _ _ :=
    parse_step hw (s.setPc_self t (.parsing 1 (renderMaps (entry :: es))))
  have hscan : LoadStep self _ _ _ :=
    .absent (s.setPc_self t (.scanning 1 (renderMaps es) entry.line)) hex
  rw [LoadState.setPc_setPc] at hparse hscan
  exact .stepL ⟨rfl, hcall⟩ (.stepL ⟨rfl, hparse⟩ (.stepL ⟨rfl, hscan⟩ .refl))

theorem libraryEntry_wanted : libraryEntry.line.wanted = true := by rfl

theorem upperMapping_wanted : upperMapping.line.wanted = true := by rfl

/-- Two loaders: one finds no object for the first mapping; before it appends one, the other starts
on a text with both mappings and finds none for the second. Both append, and the second loader then
finds the object of the first. -/
theorem registry_noDuplicates_interleaved : ∃ (events : List (LoadState Bool × LoadEvent Bool))
    (s : LoadState Bool), Run (Traced (LoadStep 0)) ⟨[], fun _ => .idle⟩ events s ∧
      events.map Prod.snd = [.call false (renderMaps [libraryEntry]), .parse false, .scan false,
        .call true (renderMaps [upperMapping, libraryEntry]), .parse true, .scan true,
        .append false, .append true, .parse true, .scan true, .done true, .done false] ∧
      s.objects = [newObject 0 libraryEntry.line, newObject 0 upperMapping.line] ∧
      s.NoDuplicates := by
  let s₀ : LoadState Bool := ⟨[], fun _ => .idle⟩
  let lower := newObject 0 libraryEntry.line
  let upper := newObject 0 upperMapping.line
  let s₁ := s₀.setPc false (.appending 1 (renderMaps []) lower)
  let s₂ := s₁.setPc true (.appending 1 (renderMaps [libraryEntry]) upper)
  let s₃ : LoadState Bool := { s₂.setPc false (.parsing 1 (renderMaps [])) with objects := [lower] }
  let s₄ : LoadState Bool :=
    { s₃.setPc true (.parsing 1 (renderMaps [libraryEntry])) with objects := [lower, upper] }
  let s₅ := s₄.setPc true (.scanning 1 (renderMaps []) libraryEntry.line)
  let s₆ := s₅.setPc true (.parsing 1 (renderMaps []))
  let s₇ := s₆.setPc true .idle
  have h₁ : Run (Traced (LoadStep 0)) s₀ _ s₁ := run_to_append [] libraryEntry_wanted rfl rfl
  have h₂ : Run (Traced (LoadStep 0)) s₁ _ s₂ :=
    run_to_append [libraryEntry] upperMapping_wanted rfl rfl
  have h₃ : LoadStep 0 s₂ (.append false) s₃ := .append rfl
  have h₄ : LoadStep 0 s₃ (.append true) s₄ := .append rfl
  have h₅ : LoadStep 0 s₄ (.parse true) s₅ := parse_step libraryEntry_wanted rfl
  have h₆ : LoadStep 0 s₅ (.scan true) s₆ := .present rfl rfl
  have h₇ : LoadStep 0 s₆ (.done true) s₇ := .done rfl rfl
  have h₈ : LoadStep 0 s₇ (.done false) (s₇.setPc false .idle) := .done rfl rfl
  have hlast : Run (Traced (LoadStep 0)) s₂ [(s₂, .append false), (s₃, .append true),
      (s₄, .parse true), (s₅, .scan true), (s₆, .done true), (s₇, .done false)] _ :=
    .stepL ⟨rfl, h₃⟩ (.stepL ⟨rfl, h₄⟩ (.stepL ⟨rfl, h₅⟩ (.stepL ⟨rfl, h₆⟩ (.stepL ⟨rfl, h₇⟩
      (.stepL ⟨rfl, h₈⟩ .refl)))))
  have hrun := (h₁.append h₂).append hlast
  refine ⟨_, _, hrun, rfl, rfl,
    (registry_noDuplicates hrun ⟨List.nodup_nil, fun _ => rfl⟩ ?_).1⟩
  simp only [List.cons_append, List.nil_append, List.forall_mem_cons]
  refine ⟨trivial, trivial, ?_, trivial, trivial, ?_, trivial, trivial, trivial, ?_, trivial,
    trivial, nofun⟩
  · -- the second loader has not begun
    rintro n mmap line _ _ u hu ⟨_, _, _, hpc, _⟩
    obtain rfl : u = true := Bool.eq_true_of_not_eq_false hu
    cases hpc
  · -- the first loader is about to append the other mapping
    rintro n mmap line hpc _ u hu ⟨_, _, obj, hpc', hr⟩
    obtain rfl : u = false := Bool.eq_false_of_not_eq_true hu
    cases hpc
    cases hpc'
    exact absurd hr (by decide)
  · -- the object is there
    rintro n mmap line hpc hex
    cases hpc
    cases hex

/-- Both threads scan before either appends. -/
theorem two_loaders_duplicate : ∃ (as : List (LoadEvent Bool)) (s : LoadState Bool),
    Run (LoadStep 0) ⟨[], fun _ => .idle⟩ as s ∧ ¬ s.NoDuplicates := by
  let s₀ : LoadState Bool := ⟨[], fun _ => .idle⟩
  let obj := newObject 0 libraryEntry.line
  let s₁ := s₀.setPc false (.appending 1 (renderMaps []) obj)
  have h₁ : Run (LoadStep 0) s₀ _ s₁ := (run_to_append [] libraryEntry_wanted rfl rfl).untraced
  have h₂ : Run (LoadStep 0) s₁ _ (s₁.setPc true (.appending 1 (renderMaps []) obj)) :=
    (run_to_append [] libraryEntry_wanted rfl rfl).untraced
  have hfalse : (s₁.setPc true (.appending 1 (renderMaps []) obj)).Appends false obj.range :=
    ⟨1, renderMaps [], obj, rfl, rfl⟩
  have htrue : (s₁.setPc true (.appending 1 (renderMaps []) obj)).Appends true obj.range :=
    ⟨1, renderMaps [], obj, rfl, rfl⟩
  obtain ⟨as, s, h₃, hdup⟩ := both_append Bool.false_ne_true hfalse htrue
  exact ⟨_, s, (h₁.append h₂).append h₃, hdup⟩

end OneMapping

end Atrace.Signal

import Mathlib.Data.List.Nodup
import Atrace.Lib.Run
import Atrace.Signal.ThreadMap

/-! The thread table as a map from thread ids to thread objects, under threads that add and find. -/
namespace Atrace.Signal

open Atrace.Lib

namespace ThreadMap

/-- The part of `thread_map_add` that runs under `thread_map_lock`. -/
def addSection (m : ThreadMap) (p : ThreadPtr) : ThreadMap × Int :=
  match m.threadMapFindInternal (m.thread p).tid with
  | some _ => (m, -1)
  | none => (m.link p, 0)

/-- The thread ids in the table, bucket after bucket. -/
def linkedTids (m : ThreadMap) : List Nat :=
  (List.range threadMapSize).flatMap fun i => (m.bucket i).map fun p => (m.thread p).tid

end ThreadMap

/-- Where a thread is in `thread_map_add`. -/
inductive TablePc where
  | idle
  | adding (p : ThreadPtr)

/-- The table shared by the threads `κ`. -/
structure TableState (κ : Type*) where
  map : ThreadMap
  pc : κ → TablePc

/-- A call of `thread_map_add`, its locked section with the code it returns, and a call of
`thread_map_find` with the object it returns. -/
inductive TableEvent (κ : Type*) where
  | call (t : κ) (p : ThreadPtr)
  | add (t : κ) (p : ThreadPtr) (code : Int)
  | find (t : κ) (tid : Nat) (r : Option ThreadPtr)

variable {κ : Type*} [DecidableEq κ]

/-- One locked section, or the assertion before the lock is taken. -/
inductive TableStep : TableState κ → TableEvent κ → TableState κ → Prop where
  | call {s : TableState κ} {t : κ} {p : ThreadPtr} (hpc : s.pc t = .idle)
      (hempty : s.map.listEmpty p = true) :
      TableStep s (.call t p) { s with pc := Function.update s.pc t (.adding p) }
  | add {s : TableState κ} {t : κ} {p : ThreadPtr} {m : ThreadMap} {code : Int}
      (hpc : s.pc t = .adding p) (hrun : s.map.addSection p = (m, code)) :
      TableStep s (.add t p code) ⟨m, Function.update s.pc t .idle⟩
  | find {s : TableState κ} {t : κ} {tid : Nat} (hpc : s.pc t = .idle) :
      TableStep s (.find t tid (s.map.threadMapFind tid)) s

/-- After `thread_map_init`: the buckets are empty and no thread is in a call. -/
def TableInitial (s : TableState κ) : Prop :=
  (∀ i, s.map.bucket i = []) ∧ ∀ t, s.pc t = .idle

/-- The object of a locked section for `tid`. -/
def addedBy (tidOf : ThreadPtr → Nat) (tid : Nat) : TableEvent κ → Option ThreadPtr
  | .add _ p _ => if tidOf p = tid then some p else none
  | _ => none

/-- The object with which `tid` was first added. -/
def firstAdded (tidOf : ThreadPtr → Nat) (tid : Nat) (events : List (TableEvent κ)) :
    Option ThreadPtr :=
  events.findSome? (addedBy tidOf tid)

/-- The table answers as the map from each thread id to the object first added with it. -/
structure IsFiniteMap (tidOf : ThreadPtr → Nat) (events : List (TableEvent κ))
    (s : TableState κ) : Prop where
  find : ∀ t tid r s', TableStep s (.find t tid r) s' → r = firstAdded tidOf tid events
  add : ∀ t p code s', TableStep s (.add t p code) s' →
    (code = -1 ↔ (firstAdded tidOf (tidOf p) events).isSome) ∧
    (code = -1 → s'.map = s.map) ∧ (code ≠ -1 → code = 0)
  linked : ∀ p, s.map.listEmpty p = false → s.map.threadMapAdd p = .error .assertion
  bucket : ∀ i, ∀ p ∈ s.map.bucket i, i = tidOf p % threadMapSize
  nodup : s.map.linkedTids.Nodup

/-- The invariant of the locked sections. -/
structure TableInv (tidOf : ThreadPtr → Nat) (events : List (TableEvent κ))
    (s : TableState κ) : Prop where
  tid : ∀ p, (s.map.thread p).tid = tidOf p
  bucket : ∀ i, ∀ p ∈ s.map.bucket i, i = tidOf p % threadMapSize
  nodup : ∀ i, ((s.map.bucket i).map tidOf).Nodup
  find : ∀ tid, s.map.threadMapFind tid = firstAdded tidOf tid events

variable {s s' : TableState κ} {e : TableEvent κ} {events : List (TableEvent κ)} {m : ThreadMap}
  {tidOf : ThreadPtr → Nat} {p : ThreadPtr} {t tid : Nat}

omit [DecidableEq κ] in
theorem firstAdded_append (tid : Nat) : firstAdded tidOf tid (events ++ [e]) =
    (firstAdded tidOf tid events).or (addedBy tidOf tid e) := by
  simp [firstAdded, List.findSome?_append]

omit [DecidableEq κ] in
theorem tableInv_initial (h : TableInitial s) :
    TableInv (fun p => (s.map.thread p).tid) [] s := by
  refine ⟨fun _ => rfl, by simp [h.1], by simp [h.1], ?_⟩
  intro tid
  simp [ThreadMap.threadMapFind, ThreadMap.threadMapFindInternal, h.1, firstAdded]

namespace TableInv

omit [DecidableEq κ] in
/-- A step that leaves the table alone adds nothing. -/
theorem same (hi : TableInv tidOf events s) (hmap : s'.map = s.map)
    (he : ∀ tid, addedBy tidOf tid e = none) : TableInv tidOf (events ++ [e]) s' := by
  refine ⟨?_, ?_, ?_, ?_⟩
  · rw [hmap]
    exact hi.tid
  · rw [hmap]
    exact hi.bucket
  · rw [hmap]
    exact hi.nodup
  · intro tid
    rw [hmap, hi.find, firstAdded_append, he, Option.or_none]

omit [DecidableEq κ] in
/-- The locked section of `thread_map_add`. -/
theorem add (hi : TableInv tidOf events s) (u : κ) (code : Int)
    (hmap : s'.map = (s.map.addSection p).1) :
    TableInv tidOf (events ++ [.add u p code]) s' := by
  have hself : s.map.threadMapFindInternal (s.map.thread p).tid =
      firstAdded tidOf (tidOf p) events := by
    rw [hi.tid]
    exact hi.find (tidOf p)
  cases hf : firstAdded tidOf (tidOf p) events with
  | some q =>
    have hsame : s'.map = s.map := by
      rw [hmap, ThreadMap.addSection, hself, hf]
    refine ⟨by rw [hsame]; exact hi.tid, by rw [hsame]; exact hi.bucket,
      by rw [hsame]; exact hi.nodup, ?_⟩
    intro tid
    rw [hsame, hi.find, firstAdded_append, addedBy]
    by_cases htid : tidOf p = tid
    · subst tid
      rw [hf]
      rfl
    · rw [if_neg htid, Option.or_none]
  | none =>
    have hlink : s'.map = s.map.link p := by
      rw [hmap, ThreadMap.addSection, hself, hf]
    -- an absent id is in no bucket, so the bucket keeps its ids apart
    have habsent : ∀ q ∈ s.map.bucket (tidOf p % threadMapSize), tidOf q ≠ tidOf p := by
      intro q hq he
      have hnone : s.map.threadMapFind (tidOf p) = none := by rw [hi.find, hf]
      have hne := List.find?_eq_none.mp hnone q hq
      simp only [hi.tid, he, BEq.rfl, not_true_eq_false] at hne
    refine ⟨by rw [hlink]; exact hi.tid, ?_, ?_, ?_⟩
    · intro i q hq
      rw [hlink] at hq
      simp only [ThreadMap.link, hi.tid, Function.update_apply] at hq
      split at hq
      · rename_i hip
        rcases List.mem_cons.mp hq with rfl | hq
        · exact hip
        · rw [← hip] at hq
          exact hi.bucket i q hq
      · exact hi.bucket i q hq
    · intro i
      rw [hlink]
      simp only [ThreadMap.link, hi.tid, Function.update_apply]
      split
      · rw [List.map_cons, List.nodup_cons]
        refine ⟨?_, hi.nodup _⟩
        intro hmem
        obtain ⟨q, hq, he⟩ := List.mem_map.mp hmem
        exact habsent q hq he
      · exact hi.nodup i
    · intro tid
      rw [hlink, ThreadMap.link_find, hi.tid, hi.find, firstAdded_append, addedBy]
      by_cases htid : tid = tidOf p
      · subst tid
        rw [if_pos rfl, if_pos rfl, hf]
        rfl
      · rw [if_neg htid, if_neg (Ne.symm htid), Option.or_none]

theorem step (h : TableStep s e s') (hi : TableInv tidOf events s) :
    TableInv tidOf (events ++ [e]) s' := by
  cases h with
  | call hpc hempty => exact hi.same rfl fun _ => rfl
  | add hpc hrun => exact hi.add _ _ (congrArg Prod.fst hrun).symm
  | find hpc => exact hi.same rfl fun _ => rfl

theorem run {events' : List (TableEvent κ)} (h : Run TableStep s events' s')
    (hi : TableInv tidOf events s) : TableInv tidOf (events ++ events') s' := by
  induction h generalizing events with
  | refl => simpa using hi
  | stepL hs _ ih => simpa using ih (hi.step hs)

omit [DecidableEq κ] in
theorem linkedTids_nodup (hi : TableInv tidOf events s) : s.map.linkedTids.Nodup := by
  simp only [ThreadMap.linkedTids, hi.tid]
  refine List.nodup_flatMap.mpr ⟨fun i _ => hi.nodup i, ?_⟩
  apply List.nodup_range.imp
  intro i j hij tid hti htj
  obtain ⟨p, hp, rfl⟩ := List.mem_map.mp hti
  obtain ⟨q, hq, he⟩ := List.mem_map.mp htj
  apply hij
  rw [hi.bucket i p hp, hi.bucket j q hq, he]

theorem isFiniteMap (hi : TableInv tidOf events s) : IsFiniteMap tidOf events s := by
  refine ⟨?_, ?_, ?_, hi.bucket, hi.linkedTids_nodup⟩
  · intro t tid r s' h
    cases h
    exact hi.find tid
  · intro t p code s' h
    cases h
    rename_i m hpc hrun
    have hself : s.map.threadMapFindInternal (s.map.thread p).tid =
        firstAdded tidOf (tidOf p) events := by
      rw [hi.tid]
      exact hi.find (tidOf p)
    rw [ThreadMap.addSection, hself] at hrun
    cases hf : firstAdded tidOf (tidOf p) events with
    | some q =>
      rw [hf] at hrun
      cases hrun
      simp
    | none =>
      rw [hf] at hrun
      cases hrun
      simp
  · intro p hp
    simp [ThreadMap.threadMapAdd, hp]

end TableInv

/-- Over every interleaving of the locked sections the table is a finite map. -/
theorem thread_table_is_finite_map {s₀ : TableState κ} (h₀ : TableInitial s₀)
    (h : Run TableStep s₀ events s) : IsFiniteMap (fun p => (s₀.map.thread p).tid) events s := by
  have hi := (tableInv_initial h₀).run h
  exact hi.isFiniteMap

/-- Thread objects whose ids all share one bucket. -/
def collidingThreads : ThreadMap :=
  { ThreadMap.init with thread := fun p => ⟨5 + 64 * p, none⟩ }

theorem thread_table_is_finite_map_colliding : ∃ s : TableState Unit,
    s.map.bucket 5 = [1, 0] ∧ IsFiniteMap (fun p => 5 + 64 * p)
      [.call () 0, .add () 0 0, .call () 1, .add () 1 0] s := by
  let s₀ : TableState Unit := ⟨collidingThreads, fun _ => .idle⟩
  have hadd : collidingThreads.addSection 0 = (collidingThreads.link 0, 0) := rfl
  have hadd' : (collidingThreads.link 0).addSection 1 = ((collidingThreads.link 0).link 1, 0) := by
    rfl
  have h₁ : Run TableStep s₀ [.call () 0] _ := .stepL (.call rfl rfl) .refl
  have h₂ : Run TableStep s₀ [.call () 0, .add () 0 0] _ := h₁.stepR (.add (by simp) hadd)
  have h₃ : Run TableStep s₀ [.call () 0, .add () 0 0, .call () 1] _ :=
    h₂.stepR (.call (by simp) (by decide))
  have h₄ : Run TableStep s₀ [.call () 0, .add () 0 0, .call () 1, .add () 1 0] _ :=
    h₃.stepR (.add (by simp) hadd')
  exact ⟨_, rfl, thread_table_is_finite_map ⟨fun _ => rfl, fun _ => rfl⟩ h₄⟩

namespace ThreadMap

/-- An object that is still linked is not refused with -1: the assertion before the lock ends the
process. -/
theorem threadMapAdd_linked_asserts :
    ((init.threadNew 0 5).link 0).threadMapFind 5 = some 0 ∧
      ((init.threadNew 0 5).link 0).threadMapAdd 0 = .error .assertion := by
  constructor <;> rfl

section Delete

variable (m : ThreadMap) (tid : Nat)

/-- What removing a thread is for: its object comes back unlinked and is found no more, while the
other threads keep theirs; a thread that has none changes nothing. -/
def Removes : Prop :=
  match m.threadMapFind tid with
  | some p => ∃ m', m.threadMapDel tid = .ok (m', some p) ∧ m'.threadMapFind tid = none ∧
      m'.listEmpty p = true ∧ ∀ u, u ≠ tid → m'.threadMapFind u = m.threadMapFind u
  | none => m.threadMapDel tid = .ok (m, none)

variable {m tid}

theorem threadMapDel_present (h : m.threadMapFind tid = some p) :
    m.threadMapDel tid = .ok (m, none) := by
  rw [threadMapFind] at h
  simp [threadMapDel, h]

theorem threadMapDel_absent (h : m.threadMapFind tid = none) :
    m.threadMapDel tid = .error .badAccess := by
  rw [threadMapFind] at h
  simp [threadMapDel, h, listDel]

variable (m tid) in
/-- The test is the wrong way around: a thread that is there stays, and for one that is not the
object that is unlinked is `NULL`. -/
theorem threadMapDel_never_removes : ¬ m.Removes tid := by
  unfold Removes
  cases h : m.threadMapFind tid with
  | some p =>
    rintro ⟨m', hrun, _⟩
    rw [threadMapDel_present h] at hrun
    cases hrun
  | none =>
    intro hrun
    rw [threadMapDel_absent h] at hrun
    cases hrun

/-- One thread, added and deleted again. -/
theorem threadMapDel_added_thread :
    (init.threadNew 0 5).threadMapAdd 0 = .ok ((init.threadNew 0 5).link 0, 0) ∧
      ¬ ((init.threadNew 0 5).link 0).Removes 5 ∧
      ((init.threadNew 0 5).link 0).threadMapDel 5 = .ok ((init.threadNew 0 5).link 0, none) ∧
      init.threadMapDel 5 = .error .badAccess := by
  refine ⟨rfl, ?_, rfl, rfl⟩
  rintro ⟨m', hrun, _⟩
  cases hrun

end Delete

end ThreadMap

end Atrace.Signal

import Mathlib.Data.Fintype.EquivFin
import Mathlib.Data.List.Find
import Mathlib.Logic.Function.Basic
import Atrace.Signal.Object

/-! The thread table of `thread.c`, as the trap handlers use it. -/
namespace Atrace.Signal

/-- The address of a `thread_t` returned by `calloc`. -/
abbrev ThreadPtr := Nat

/-- `THREAD_MAP_SIZE` -/
def threadMapSize : Nat := 64

/-- `struct thread` without its list links; `none` is a `NULL` pointer. -/
structure Thread where
  tid : Nat
  singlestepBp : Option BkptPtr
deriving DecidableEq

/-- The buckets of `thread_map`, with the thread objects that `calloc` has returned. -/
structure ThreadMap where
  thread : ThreadPtr → Thread
  allocated : List ThreadPtr
  bucket : Nat → List ThreadPtr

namespace ThreadMap

/-- `thread_map_init` -/
def init : ThreadMap := ⟨fun _ => ⟨0, none⟩, [], fun _ => []⟩

variable (m : ThreadMap) (p : ThreadPtr) (tid : Nat)

/-- `thread_map_find_internal` -/
def threadMapFindInternal : Option ThreadPtr :=
  (m.bucket (tid % threadMapSize)).find? fun pos => (m.thread pos).tid == tid

/-- `thread_map_find`; the whole walk runs under `thread_map_lock`. -/
def threadMapFind : Option ThreadPtr := m.threadMapFindInternal tid

def modify (f : Thread → Thread) : ThreadMap :=
  { m with thread := Function.update m.thread p (f (m.thread p)) }

/-- `thread_new`, when `calloc` returns `p`, and the store to `tid` that follows it. -/
def threadNew : ThreadMap :=
  { m with
    thread := Function.update m.thread p ⟨tid, none⟩
    allocated := p :: m.allocated }

/-- `list_empty(&thread->thread_list_entry_)` -/
def listEmpty : Bool := (List.range threadMapSize).all fun i => decide (p ∉ m.bucket i)

/-- Put an object at the head of the bucket of its `tid`. -/
def link : ThreadMap :=
  let head := (m.thread p).tid % threadMapSize
  { m with bucket := Function.update m.bucket head (p :: m.bucket head) }

/-- `thread_map_add` -/
def threadMapAdd : Except Fault (ThreadMap × Int) :=
  if m.listEmpty p then
    match m.threadMapFindInternal (m.thread p).tid with
    | some _ => .ok (m, -1)
    | none => .ok (m.link p, 0)
  else .error .assertion

/-- `list_del(&exist->thread_list_entry_)`; the entry of a `NULL` object is not memory. -/
def listDel : Option ThreadPtr → Except Fault ThreadMap
  | none => .error .badAccess
  | some p => .ok { m with bucket := fun i => (m.bucket i).erase p }

/-- `thread_map_del`. The comparison with `NULL` is the one of the source. -/
def threadMapDel : Except Fault (ThreadMap × Option ThreadPtr) :=
  let exist := m.threadMapFindInternal tid
  if exist ≠ none then .ok (m, none)
  else do
    let m ← m.listDel exist
    pure (m, none)

/-- `thread->singlestep_bp = bp` -/
def setSinglestep (bp : Option BkptPtr) : ThreadMap := m.modify p ({ · with singlestepBp := bp })

/-- The field as the thread itself finds it: `NULL` while it has no object. -/
def singlestep : Option BkptPtr := (m.threadMapFind tid).bind fun p => (m.thread p).singlestepBp

/-- Only objects that exist are in the table. -/
def Linked : Prop := ∀ i, ∀ p ∈ m.bucket i, p ∈ m.allocated

variable {m p tid} {m' : ThreadMap} {q : ThreadPtr} {u : Nat} {bp : Option BkptPtr}

theorem find_congr (hb : m'.bucket = m.bucket)
    (ht : ∀ q ∈ m.bucket (u % threadMapSize), (m'.thread q).tid = (m.thread q).tid) :
    m'.threadMapFind u = m.threadMapFind u := by
  rw [threadMapFind, threadMapFindInternal, hb]
  apply List.find?_congr
  intro q hq
  rw [ht q hq]

/-- `calloc` can always return an object that is not in use. -/
theorem exists_fresh (m : ThreadMap) : ∃ p, p ∉ m.allocated := by
  obtain ⟨p, hp⟩ := Infinite.exists_notMem_finset m.allocated.toFinset
  exact ⟨p, fun hmem => hp (List.mem_toFinset.mpr hmem)⟩

theorem linked_init : init.Linked := by
  intro i p hp
  cases hp

theorem singlestep_init (tid : Nat) : init.singlestep tid = none := rfl

theorem tid_of_find (h : m.threadMapFind tid = some p) : (m.thread p).tid = tid := by
  simpa using List.find?_some h

theorem mem_bucket_of_find (h : m.threadMapFind tid = some p) :
    p ∈ m.bucket (tid % threadMapSize) :=
  List.mem_of_find?_eq_some h

theorem singlestep_eq (h : m.threadMapFind tid = some p) :
    m.singlestep tid = (m.thread p).singlestepBp := by
  simp [singlestep, h]

section ThreadNew

theorem threadNew_find (hl : m.Linked) (hp : p ∉ m.allocated) :
    (m.threadNew p tid).threadMapFind u = m.threadMapFind u := by
  refine find_congr rfl ?_
  intro q hq
  have hqp : q ≠ p := fun he => hp (he ▸ hl _ q hq)
  simp [threadNew, hqp]

theorem threadNew_singlestep (hl : m.Linked) (hp : p ∉ m.allocated) :
    (m.threadNew p tid).singlestep u = m.singlestep u := by
  rw [singlestep, singlestep, threadNew_find hl hp]
  cases hf : m.threadMapFind u with
  | none => rfl
  | some q =>
    have hqp : q ≠ p := fun he => hp (he ▸ hl _ q (mem_bucket_of_find hf))
    simp [threadNew, hqp]

theorem threadNew_linked (hl : m.Linked) : (m.threadNew p tid).Linked := by
  intro i q hq
  exact List.mem_cons_of_mem _ (hl i q hq)

end ThreadNew

section ThreadMapAdd

theorem mem_link {i : Nat} (h : q ∈ (m.link p).bucket i) : q = p ∨ q ∈ m.bucket i := by
  simp only [link, Function.update_apply] at h
  split at h
  · rename_i hi
    subst i
    exact List.mem_cons.mp h
  · exact Or.inr h

theorem link_find (u : Nat) : (m.link p).threadMapFind u =
    if u = (m.thread p).tid then some p else m.threadMapFind u := by
  by_cases hu : u = (m.thread p).tid
  · subst u
    simp [link, threadMapFind, threadMapFindInternal]
  · by_cases hi : u % threadMapSize = (m.thread p).tid % threadMapSize
    · have hne : ((m.thread p).tid == u) = false := beq_false_of_ne (Ne.symm hu)
      simp [link, threadMapFind, threadMapFindInternal, hi, hne, hu]
    · simp [link, threadMapFind, threadMapFindInternal, hi, hu]

theorem link_linked (hl : m.Linked) (ha : p ∈ m.allocated) : (m.link p).Linked := by
  intro i q hq
  rcases mem_link hq with rfl | hq
  · exact ha
  · exact hl i q hq

/-- An object of a thread that has none is linked. -/
theorem threadMapAdd_absent (hp : ∀ i, p ∉ m.bucket i)
    (hf : m.threadMapFind (m.thread p).tid = none) : m.threadMapAdd p = .ok (m.link p, 0) := by
  have hempty : m.listEmpty p = true := by simp [listEmpty, hp]
  rw [threadMapFind] at hf
  rw [threadMapAdd, if_pos hempty, hf]

/-- A thread whose object is linked finds the field it was made with. -/
theorem link_singlestep (hf : m.threadMapFind (m.thread p).tid = none)
    (hp : (m.thread p).singlestepBp = none) : (m.link p).singlestep u = m.singlestep u := by
  rw [singlestep, singlestep, link_find]
  by_cases hu : u = (m.thread p).tid
  · subst u
    rw [if_pos rfl, hf]
    exact hp
  · rw [if_neg hu]
    rfl

end ThreadMapAdd

section SetSinglestep

theorem setSinglestep_find : (m.setSinglestep p bp).threadMapFind u = m.threadMapFind u := by
  refine find_congr rfl ?_
  intro q _
  by_cases hq : q = p
  · subst q
    simp [setSinglestep, modify]
  · simp [setSinglestep, modify, hq]

/-- A thread sets the field of its own object, and of no other. -/
theorem setSinglestep_singlestep (h : m.threadMapFind tid = some p) :
    (m.setSinglestep p bp).singlestep u = if u = tid then bp else m.singlestep u := by
  rw [singlestep, singlestep, setSinglestep_find]
  by_cases hu : u = tid
  · subst u
    simp [h, setSinglestep, modify]
  · rw [if_neg hu]
    cases hf : m.threadMapFind u with
    | none => rfl
    | some q =>
      have hqp : q ≠ p := by
        rintro rfl
        exact hu ((tid_of_find hf).symm.trans (tid_of_find h))
      simp [setSinglestep, modify, hqp]

theorem setSinglestep_linked (hl : m.Linked) : (m.setSinglestep p bp).Linked := hl

end SetSinglestep

/-- The lookup at the start of both trap handlers, which adds an object for a thread that has
none; `fresh` is what `calloc` will return. -/
def findOrAdd (m : ThreadMap) (tid : Nat) (fresh : ThreadPtr) :
    Except Fault (ThreadMap × ThreadPtr) :=
  match m.threadMapFind tid with
  | some p => .ok (m, p)
  | none => do
    let (m, _) ← (m.threadNew fresh tid).threadMapAdd fresh
    pure (m, fresh)

/-- Threads keep their objects. -/
def Keeps (m m' : ThreadMap) : Prop := ∀ u p, m.threadMapFind u = some p → m'.threadMapFind u = some p

theorem keeps_threadNew (hl : m.Linked) (hp : p ∉ m.allocated) : m.Keeps (m.threadNew p tid) := by
  intro u q hq
  exact (threadNew_find hl hp).trans hq

theorem keeps_link (hf : m.threadMapFind (m.thread p).tid = none) : m.Keeps (m.link p) := by
  intro u q hq
  rw [link_find, if_neg, hq]
  rintro rfl
  cases hf.symm.trans hq

theorem keeps_setSinglestep : m.Keeps (m.setSinglestep p bp) := by
  intro u q hq
  exact setSinglestep_find.trans hq

/-- The thread finds its object afterwards, and no thread's field has changed. -/
theorem findOrAdd_returns {fresh : ThreadPtr} (tid : Nat) (hl : m.Linked)
    (hn : fresh ∉ m.allocated) :
    ∃ m' p, m.findOrAdd tid fresh = .ok (m', p) ∧ m'.Linked ∧ m'.threadMapFind tid = some p ∧
      (∀ u, m'.singlestep u = m.singlestep u) ∧ m.Keeps m' := by
  unfold findOrAdd
  cases hf : m.threadMapFind tid with
  | some p => exact ⟨m, p, rfl, hl, hf, fun _ => rfl, fun _ _ h => h⟩
  | none =>
    have htid : ((m.threadNew fresh tid).thread fresh).tid = tid := by simp [threadNew]
    have hnew : ((m.threadNew fresh tid).thread fresh).singlestepBp = none := by simp [threadNew]
    have hfresh : ∀ i, fresh ∉ m.bucket i := fun i hp => hn (hl i _ hp)
    have hnone : (m.threadNew fresh tid).threadMapFind
        ((m.threadNew fresh tid).thread fresh).tid = none := by
      rw [htid, threadNew_find hl hn, hf]
    refine ⟨(m.threadNew fresh tid).link fresh, fresh, ?_, ?_, ?_, ?_, ?_⟩
    · have hrun := threadMapAdd_absent (m := m.threadNew fresh tid) hfresh hnone
      simp only [hrun, ok_bind]
      rfl
    · exact link_linked (threadNew_linked hl) List.mem_cons_self
    · rw [link_find, htid, if_pos rfl]
    · intro u
      rw [link_singlestep hnone hnew, threadNew_singlestep hl hn]
    · intro u q hq
      exact keeps_link hnone u q (keeps_threadNew hl hn u q hq)

end ThreadMap

end Atrace.Signal

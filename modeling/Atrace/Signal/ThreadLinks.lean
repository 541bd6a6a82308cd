import Atrace.Lib.Calls
import Atrace.Lib.Ring
import Atrace.Signal.ThreadMap

/-! The buckets of `thread.c` as circular lists in memory. -/
namespace Atrace.Signal

open Atrace.Lib

/-- A `struct list_head *`: an element of `thread_map`, or the `thread_list_entry_` of a thread. -/
inductive ListPtr where
  | head (i : Nat)
  | entry (p : ThreadPtr)
deriving DecidableEq, Repr

/-- `INIT_LIST_HEAD` -/
def initListHead (m : Links ListPtr) (list : ListPtr) : Links ListPtr := m.setLinks list list list

/-- `list_add` -/
def listAdd (m : Links ListPtr) (new head : ListPtr) : Links ListPtr :=
  m.insert new head (m.next head)

/-- `list_empty` -/
def listEmpty (m : Links ListPtr) (head : ListPtr) : Bool := m.next head == head

/-- Why a call does not return: a fault, or a walk with more steps to take. -/
inductive TableFault where
  | fault (f : Fault)
  | unfinished
deriving DecidableEq, Repr

/-- The thread objects, with the links that hold the buckets together. -/
structure ThreadLinks where
  thread : ThreadPtr → Thread
  allocated : List ThreadPtr
  links : Links ListPtr

namespace ThreadLinks

variable (s : ThreadLinks) (p : ThreadPtr) (tid fuel : Nat)

/-- `thread_map_init` -/
def threadMapInit : ThreadLinks :=
  { s with
    links := (List.range threadMapSize).foldl (fun m i => initListHead m (.head i)) s.links }

/-- `thread_new`, when `calloc` returns `p`, and the store to `tid` that follows it. -/
def threadNew : ThreadLinks where
  thread := Function.update s.thread p ⟨tid, none⟩
  allocated := p :: s.allocated
  links := initListHead s.links (.entry p)

def threadDel : Except TableFault ThreadLinks :=
  if listEmpty s.links (.entry p) then .ok { s with allocated := s.allocated.erase p }
  else .error (.fault .assertion)

/-- The walk of `thread_map_find_internal`, from the entry `pos` on. -/
def findLoop (s : ThreadLinks) (tid : Nat) (head : ListPtr) :
    Nat → ListPtr → Except TableFault (Option ThreadPtr)
  | 0, _ => .error .unfinished
  | fuel + 1, pos =>
    if pos = head then .ok none
    else
      match pos with
      | .head _ => .error (.fault .badAccess)
      | .entry p =>
        if (s.thread p).tid = tid then .ok (some p)
        else findLoop s tid head fuel (s.links.next (.entry p))

def threadMapFindInternal : Except TableFault (Option ThreadPtr) :=
  let head := ListPtr.head (tid % threadMapSize)
  s.findLoop tid head fuel (s.links.next head)

def threadMapAdd : Except TableFault (ThreadLinks × Int) :=
  if listEmpty s.links (.entry p) then do
    match ← s.threadMapFindInternal (s.thread p).tid fuel with
    | some _ => .ok (s, -1)
    | none =>
      let head := ListPtr.head ((s.thread p).tid % threadMapSize)
      .ok ({ s with links := listAdd s.links (.entry p) head }, 0)
  else .error (.fault .assertion)

/-- `thread_map_del`. The comparison with `NULL` is the one of the source. -/
def threadMapDel : Except TableFault (ThreadLinks × Option ThreadPtr) := do
  match ← s.threadMapFindInternal tid fuel with
  | some _ => .ok (s, none)
  | none => .error (.fault .badAccess)

def threadMapFind : Except TableFault (Option ThreadPtr) := s.threadMapFindInternal tid fuel

end ThreadLinks

/-- `thread_del` on the objects as a list. -/
def ThreadMap.threadDel (m : ThreadMap) (p : ThreadPtr) : Except Fault ThreadMap :=
  if m.listEmpty p then .ok { m with allocated := m.allocated.erase p } else .error .assertion

/-- The calls of `thread.h`; `calloc` returns the object of a new thread. -/
inductive TableCall where
  | threadNew (p : ThreadPtr) (tid : Nat)
  | threadDel (p : ThreadPtr)
  | add (p : ThreadPtr)
  | del (tid : Nat)
  | find (tid : Nat)

inductive TableAnswer where
  | code (c : Int)
  | object (p : Option ThreadPtr)
  | nothing
deriving DecidableEq, Repr

/-- `calloc` returns memory that is not in use, and objects that are handed over are in use. -/
def ThreadMap.Legal (m : ThreadMap) : TableCall → Prop
  | .threadNew p _ => p ∉ m.allocated
  | .threadDel p => p ∈ m.allocated
  | .add p => p ∈ m.allocated
  | _ => True

instance (m : ThreadMap) : (c : TableCall) → Decidable (m.Legal c)
  | .threadNew p _ => inferInstanceAs (Decidable (p ∉ m.allocated))
  | .threadDel p => inferInstanceAs (Decidable (p ∈ m.allocated))
  | .add p => inferInstanceAs (Decidable (p ∈ m.allocated))
  | .del _ => inferInstanceAs (Decidable True)
  | .find _ => inferInstanceAs (Decidable True)

def ThreadMap.call (m : ThreadMap) : TableCall → Except Fault (ThreadMap × TableAnswer)
  | .threadNew p tid => .ok (m.threadNew p tid, .nothing)
  | .threadDel p => (m.threadDel p).map fun m => (m, .nothing)
  | .add p => (m.threadMapAdd p).map fun r => (r.1, .code r.2)
  | .del tid => (m.threadMapDel tid).map fun r => (r.1, .object r.2)
  | .find tid => .ok (m, .object (m.threadMapFind tid))

def ThreadLinks.call (fuel : Nat) (s : ThreadLinks) :
    TableCall → Except TableFault (ThreadLinks × TableAnswer)
  | .threadNew p tid => .ok (s.threadNew p tid, .nothing)
  | .threadDel p => (s.threadDel p).map fun s => (s, .nothing)
  | .add p => (s.threadMapAdd p fuel).map fun r => (r.1, .code r.2)
  | .del tid => (s.threadMapDel tid fuel).map fun r => (r.1, .object r.2)
  | .find tid => (s.threadMapFind tid fuel).map fun r => (s, .object r)

namespace ThreadLinks

/-- The links hold the buckets together, and an object in no bucket is linked to itself. -/
structure OnRings (s : ThreadLinks) (m : ThreadMap) : Prop where
  thread : s.thread = m.thread
  allocated : s.allocated = m.allocated
  ring : ∀ i < threadMapSize, s.links.Ring (.head i) ((m.bucket i).map .entry)
  home : ∀ i, ∀ p ∈ m.bucket i, i = (m.thread p).tid % threadMapSize
  alone : ∀ p ∈ m.allocated, (∀ i, p ∉ m.bucket i) → s.links.next (.entry p) = .entry p
  linked : m.Linked
  nodup : m.allocated.Nodup

variable {s : ThreadLinks} {m : ThreadMap} {p q : ThreadPtr} {a : ListPtr} {i tid fuel : Nat}
  {ps : List ThreadPtr}

theorem home_lt (h : s.OnRings m) (hp : p ∈ m.bucket i) : i < threadMapSize := by
  rw [h.home i p hp]
  exact Nat.mod_lt _ (by decide)

/-- The walk looks at the entries in turn. -/
theorem findLoop_path (h : s.links.Path a (ps.map .entry) (.head i)) (hfuel : ps.length < fuel) :
    s.findLoop tid (.head i) fuel (s.links.next a) =
      .ok (ps.find? fun p => (s.thread p).tid == tid) := by
  induction ps generalizing a fuel with
  | nil =>
    obtain ⟨fuel, rfl⟩ := Nat.exists_eq_succ_of_ne_zero (Nat.ne_of_gt hfuel)
    have hnext : s.links.next a = .head i := h.next
    simp [findLoop, hnext]
  | cons p ps ih =>
    obtain ⟨fuel, rfl⟩ := Nat.exists_eq_succ_of_ne_zero (Nat.ne_of_gt (Nat.zero_lt_of_lt hfuel))
    simp only [List.length_cons] at hfuel
    have hrest := ih h.2 (show ps.length < fuel by omega)
    rw [h.1.next]
    by_cases htid : (s.thread p).tid = tid
    · simp [findLoop, htid]
    · simp [findLoop, htid, hrest]

theorem length_bucket_le (h : s.OnRings m) (hi : i < threadMapSize) :
    (m.bucket i).length ≤ m.allocated.length := by
  have hnodup : (m.bucket i).Nodup := (List.nodup_cons.mp (h.ring i hi).nodup).2.of_map _
  exact (List.Nodup.subperm hnodup fun p hp => h.linked i p hp).length_le

theorem find_onRings (h : s.OnRings m) (hfuel : m.allocated.length < fuel) :
    s.threadMapFindInternal tid fuel = .ok (m.threadMapFindInternal tid) := by
  have hi : tid % threadMapSize < threadMapSize := Nat.mod_lt _ (by decide)
  rw [threadMapFindInternal, findLoop_path (h.ring _ hi).path
    (Nat.lt_of_le_of_lt (length_bucket_le h hi) hfuel), h.thread]
  rfl

theorem listEmpty_onRings (h : s.OnRings m) (hp : p ∈ m.allocated) :
    listEmpty s.links (.entry p) = m.listEmpty p := by
  by_cases hall : ∀ i, p ∉ m.bucket i
  · simp [listEmpty, ThreadMap.listEmpty, h.alone p hp hall, hall]
  · obtain ⟨i, hi⟩ := not_forall_not.mp hall
    have hlt := home_lt h hi
    have hne := (h.ring i hlt).next_ne (List.mem_map_of_mem hi)
    have hfull : m.listEmpty p = false := by
      rw [ThreadMap.listEmpty, List.all_eq_false]
      exact ⟨i, List.mem_range.mpr hlt, by simp [hi]⟩
    rw [hfull, listEmpty, beq_eq_false_iff_ne]
    exact hne

theorem entry_mem (i : Nat) : ListPtr.entry p ∈ ListPtr.head i :: ps.map .entry ↔ p ∈ ps := by simp

theorem onRings_threadNew (h : s.OnRings m) (hp : p ∉ m.allocated) :
    (s.threadNew p tid).OnRings (m.threadNew p tid) where
  thread := by rw [threadNew, ThreadMap.threadNew, h.thread]
  allocated := congrArg (p :: ·) h.allocated
  ring i hi := (h.ring i hi).setLinks ((entry_mem i).not.mpr fun hmem => hp (h.linked i p hmem))
  home i q hq := by
    have hqp : q ≠ p := fun he => hp (he ▸ h.linked i q hq)
    simpa [ThreadMap.threadNew, hqp] using h.home i q hq
  alone q hq hall := by
    by_cases hqp : q = p
    · simp [threadNew, initListHead, Links.setLinks, hqp]
    · have hmem : q ∈ m.allocated := (List.mem_cons.mp hq).resolve_left hqp
      simpa [threadNew, initListHead, Links.setLinks, hqp] using h.alone q hmem hall
  linked := ThreadMap.threadNew_linked h.linked
  nodup := List.nodup_cons.mpr ⟨hp, h.nodup⟩

theorem onRings_threadDel (h : s.OnRings m) (hp : p ∈ m.allocated) :
    Calls.Agrees OnRings .fault ((s.threadDel p).map fun s => (s, TableAnswer.nothing))
      ((m.threadDel p).map fun m => (m, .nothing)) := by
  rw [threadDel, ThreadMap.threadDel, listEmpty_onRings h hp]
  cases hempty : m.listEmpty p with
  | false => rfl
  | true =>
    refine ⟨_, rfl, h.thread, ?_, h.ring, h.home, ?_, ?_, h.nodup.erase p⟩
    · exact congrArg (List.erase · p) h.allocated
    · exact fun q hq hall => h.alone q (List.mem_of_mem_erase hq) hall
    · intro i q hq
      have hqp : q ≠ p := by
        rintro rfl
        have hnot := (List.all_eq_true.mp hempty) i (List.mem_range.mpr (home_lt h hq))
        exact of_decide_eq_true hnot hq
      exact (List.mem_erase_of_ne hqp).mpr (h.linked i q hq)

/-- An object that is in no bucket goes to the front of its own; the other buckets stay. -/
theorem onRings_link (h : s.OnRings m) (hp : p ∈ m.allocated) (hall : ∀ i, p ∉ m.bucket i) :
    OnRings { s with
      links := listAdd s.links (.entry p) (.head ((s.thread p).tid % threadMapSize)) } (m.link p) := by
  obtain ⟨j, hj⟩ : ∃ j, j = (m.thread p).tid % threadMapSize := ⟨_, rfl⟩
  have hjlt : j < threadMapSize := by
    rw [hj]
    exact Nat.mod_lt _ (by decide)
  have hbucket : (m.link p).bucket = Function.update m.bucket j (p :: m.bucket j) := by
    rw [ThreadMap.link, ← hj]
  have hring := h.ring j hjlt
  -- where the links are written: the new entry, the head of the bucket, the entry behind it
  have hfirst : s.links.next (.head j) ∈ ListPtr.head j :: (m.bucket j).map .entry := by
    rw [hring.path.next_eq]
    cases m.bucket j <;> simp
  rw [h.thread, ← hj]
  refine ⟨rfl, h.allocated, ?_, ?_, ?_, ThreadMap.link_linked h.linked hp, h.nodup⟩
  · intro i hi
    rw [hbucket]
    by_cases hij : i = j
    · subst hij
      rw [Function.update_self]
      exact hring.push ((entry_mem i).not.mpr (hall i))
    · rw [Function.update_of_ne hij]
      refine (h.ring i hi).congr ?_
      intro c hc
      have hcp : c ≠ .entry p := by
        rintro rfl
        exact hall i ((entry_mem i).mp hc)
      have hcj : c ≠ .head j := by
        rintro rfl
        simp [Ne.symm hij] at hc
      have hcn : c ≠ s.links.next (.head j) := by
        intro hcn
        rw [← hcn] at hfirst
        cases c with
        | head k =>
          have hki : k = i := by simpa using hc
          have hkj : k = j := by simpa using hfirst
          exact hij (hki.symm.trans hkj)
        | entry q =>
          have hqi := (entry_mem i).mp hc
          have hqj := (entry_mem j).mp hfirst
          exact hij ((h.home i q hqi).trans (h.home j q hqj).symm)
      simp [listAdd, Links.insert, Links.join, hcp, hcj, hcn]
  · intro i q hq
    rcases ThreadMap.mem_link hq with rfl | hq'
    · rw [hbucket] at hq
      by_cases hij : i = j
      · exact hij.trans hj
      · rw [Function.update_of_ne hij] at hq
        exact absurd hq (hall i)
    · exact h.home i q hq'
  · intro q hq hnot
    have hqp : q ≠ p := by
      rintro rfl
      exact hnot j (by simp [hbucket])
    have hold : ∀ i, q ∉ m.bucket i := by
      intro i hi
      apply hnot i
      rw [hbucket]
      by_cases hij : i = j
      · subst hij
        simp [hi]
      · simp [hij, hi]
    have hne : ListPtr.entry q ≠ .entry p := fun he => hqp (ListPtr.entry.inj he)
    simpa [listAdd, Links.insert, Links.join, hqp] using h.alone q hq hold

theorem onRings_add (h : s.OnRings m) (hp : p ∈ m.allocated) (hfuel : m.allocated.length < fuel) :
    Calls.Agrees OnRings .fault (s.threadMapAdd p fuel) (m.threadMapAdd p) := by
  rw [threadMapAdd, ThreadMap.threadMapAdd, listEmpty_onRings h hp]
  cases hempty : m.listEmpty p with
  | false => rfl
  | true =>
    have hall : ∀ i, p ∉ m.bucket i := by
      intro i hi
      have hnot := (List.all_eq_true.mp hempty) i (List.mem_range.mpr (home_lt h hi))
      exact of_decide_eq_true hnot hi
    have hfind : s.threadMapFindInternal (s.thread p).tid fuel = _ := find_onRings h hfuel
    rw [if_pos rfl, if_pos rfl, hfind, ok_bind, ← h.thread]
    cases m.threadMapFindInternal (s.thread p).tid with
    | some q => exact ⟨s, rfl, h⟩
    | none => exact ⟨_, rfl, onRings_link h hp hall⟩

theorem onRings_del (h : s.OnRings m) (hfuel : m.allocated.length < fuel) :
    Calls.Agrees OnRings .fault (s.threadMapDel tid fuel) (m.threadMapDel tid) := by
  rw [threadMapDel, ThreadMap.threadMapDel, find_onRings h hfuel, ok_bind]
  cases m.threadMapFindInternal tid with
  | some q => exact ⟨s, rfl, h⟩
  | none => rfl

theorem onRings_call {c : TableCall} (h : s.OnRings m) (hc : m.Legal c)
    (hfuel : m.allocated.length < fuel) :
    Calls.Agrees OnRings .fault (s.call fuel c) (m.call c) := by
  cases c with
  | threadNew p tid => exact ⟨_, rfl, onRings_threadNew h hc⟩
  | threadDel p => exact onRings_threadDel h hc
  | add p => exact (onRings_add h hc hfuel).map TableAnswer.code
  | del tid => exact (onRings_del h hfuel).map TableAnswer.object
  | find tid =>
    have hfind : s.threadMapFind tid fuel = _ := find_onRings h hfuel
    simp only [call, hfind]
    exact ⟨s, rfl, h⟩

/-- After `thread_map_init` every bucket is an empty list, whatever the memory held. -/
theorem onRings_init (links : Links ListPtr) :
    (threadMapInit ⟨ThreadMap.init.thread, [], links⟩).OnRings .init := by
  have hself : ∀ (is : List Nat) (l : Links ListPtr) (i : Nat),
      (i ∈ is ∨ l.Adjacent (.head i) (.head i)) →
        (is.foldl (fun m i => initListHead m (.head i)) l).Adjacent (.head i) (.head i) := by
    intro is
    induction is with
    | nil => exact fun l i h => h.resolve_left (by simp)
    | cons k is ih =>
      intro l i h
      apply ih
      by_cases hik : i = k
      · subst hik
        exact Or.inr ⟨by simp [initListHead, Links.setLinks], by simp [initListHead, Links.setLinks]⟩
      · rcases h with h | h
        · exact Or.inl ((List.mem_cons.mp h).resolve_left hik)
        · have hne : ListPtr.head i ≠ .head k := fun he => hik (ListPtr.head.inj he)
          exact Or.inr (h.setLinks hne hne)
  refine ⟨rfl, rfl, ?_, ?_, ?_, ThreadMap.linked_init, List.nodup_nil⟩
  · intro i hi
    exact ⟨List.nodup_singleton _, hself _ links i (Or.inl (List.mem_range.mpr hi))⟩
  · intro i p hp
    cases hp
  · intro p hp
    cases hp

theorem length_call {c : TableCall} {m' : ThreadMap} {a : TableAnswer}
    (h : m.call c = .ok (m', a)) : m'.allocated.length ≤ m.allocated.length + 1 := by
  cases c with
  | threadNew p tid =>
    cases h
    exact Nat.le_refl _
  | threadDel p =>
    simp only [ThreadMap.call, ThreadMap.threadDel] at h
    split at h
    · cases h
      exact List.length_erase_le.trans (Nat.le_succ _)
    · cases h
  | add p =>
    simp only [ThreadMap.call, ThreadMap.threadMapAdd] at h
    split at h
    · split at h
      · cases h
        exact Nat.le_succ _
      · cases h
        exact Nat.le_succ _
    · cases h
  | del tid =>
    simp only [ThreadMap.call, ThreadMap.threadMapDel] at h
    split at h
    · cases h
      exact Nat.le_succ _
    · rename_i hnone
      rw [not_not.mp hnone] at h
      cases h
  | find tid =>
    cases h
    exact Nat.le_succ _

/-- From `thread_map_init` on, whatever the memory of the buckets held before: the calls on the links
answer and fail as the calls on the lists, and no walk takes more steps than there were calls. -/
theorem run_refines_lists (links : Links ListPtr) (cs : List TableCall) (fuel : Nat)
    (hc : Calls.LegalRun ThreadMap.call ThreadMap.Legal .init cs) (hfuel : cs.length ≤ fuel) :
    Calls.Agrees OnRings .fault
      (Calls.run (call fuel) (threadMapInit ⟨ThreadMap.init.thread, [], links⟩) cs)
      (Calls.run ThreadMap.call .init cs) := by
  -- an object for each call that is still to come leaves enough steps for every walk
  let rel (n : Nat) (s : ThreadLinks) (m : ThreadMap) : Prop :=
    s.OnRings m ∧ m.allocated.length + n ≤ fuel
  have hstep : ∀ n s m c, rel (n + 1) s m → m.Legal c →
      Calls.Agrees (rel n) .fault (s.call fuel c) (m.call c) := by
    rintro n s m c ⟨h, hn⟩ hlegal
    refine (onRings_call h hlegal (by omega)).mono ?_
    intro s' m' a hm h'
    have hlength := length_call hm
    exact ⟨h', by omega⟩
  have hinit : rel cs.length (threadMapInit ⟨ThreadMap.init.thread, [], links⟩) .init :=
    ⟨onRings_init links, by simpa [ThreadMap.init] using hfuel⟩
  exact (Calls.run_agrees hstep hinit hc).mono fun _ _ _ _ h => h.1

/-- Two ids of one bucket, an id that is taken, and an object that is freed again. -/
def sharedBucket : List TableCall :=
  [.threadNew 0 5, .add 0, .threadNew 1 69, .add 1, .threadNew 2 5, .add 2, .threadDel 2, .find 5]

/-- The memory of the buckets held something before. -/
theorem run_refines_lists_shared : ∃ s,
    Calls.run (call 8)
      (threadMapInit ⟨ThreadMap.init.thread, [], fun _ => .entry 2, fun _ => .head 0⟩) sharedBucket =
      .ok (s, [.nothing, .code 0, .nothing, .code 0, .nothing, .code (-1), .nothing,
        .object (some 0)]) := by
  have hlegal : Calls.LegalRun ThreadMap.call ThreadMap.Legal .init sharedBucket := by
    repeat' refine Calls.legalRun_cons (by decide) rfl ?_
    trivial
  obtain ⟨s, hrun, _⟩ := run_refines_lists ⟨fun _ => .entry 2, fun _ => .head 0⟩ sharedBucket 8
    hlegal (by decide)
  exact ⟨s, hrun⟩

end ThreadLinks

end Atrace.Signal

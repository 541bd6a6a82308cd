import Atrace.Lib.Ring
import Atrace.Ptrace.StopAll

/-! The list of threads as links in memory: `list.h`, and the loops of `src/thread.c` along it. -/
namespace Atrace.Ptrace

open Atrace.Lib

/-- A `struct list_head *`: `&threads`, or the `thread_chain` of a thread, or a poison value. -/
inductive ListPtr where
  | head
  | entry (p : ThreadPtr)
  | LIST_POISON1
  | LIST_POISON2
deriving DecidableEq, Repr

/-- `INIT_LIST_HEAD` -/
def initListHead (m : Links ListPtr) (list : ListPtr) : Links ListPtr := m.setLinks list list list

/-- `list_add_tail` -/
def listAddTail (m : Links ListPtr) (new list : ListPtr) : Links ListPtr :=
  m.insert new (m.prev list) list

/-- `list_del` -/
def listDel (m : Links ListPtr) (entry : ListPtr) : Links ListPtr :=
  (m.unlink entry).setLinks entry .LIST_POISON1 .LIST_POISON2

/-- The threads, with the links that hold them together. What a link says stays in memory that was
freed. -/
structure LinkedThreads (ω : Type) extends Threads ω where
  links : Links ListPtr

/-- The ways a walk along the list does not return: a call on a thread does not, a poison value is
used as an address, or there are more steps to take. -/
inductive WalkFault where
  | call (e : NoReturn)
  | badAccess
  | unfinished
deriving DecidableEq, Repr

/-- What a walk does to the list, in order. -/
inductive WalkEvent where
  | call (p : ThreadPtr)
  | delete (p : ThreadPtr)
  | next (list : ListPtr)
deriving DecidableEq, Repr

/-- `thread_run` or `thread_stop` -/
abbrev ThreadOp (ω : Type) := Threads ω → ThreadPtr → Except NoReturn (Threads ω × Int)

namespace LinkedThreads

variable {ω : Type} (k : Kernel ω) (n : Nat) (op : ThreadOp ω) (s : LinkedThreads ω)

/-- `thread_add` -/
def threadAdd (p : ThreadPtr) (pid : Pid) (state : Status) : LinkedThreads ω where
  toThreads := s.toThreads.threadAdd p pid state
  links := listAddTail (initListHead s.links (.entry p)) (.entry p) .head

/-- `thread_delete` -/
def threadDelete (p : ThreadPtr) : LinkedThreads ω where
  toThreads := s.toThreads.threadDelete p
  links := listDel s.links (.entry p)

/-- The body of the loops of `thread_all_run` and `thread_all_stop`. -/
def visit (p : ThreadPtr) : Except WalkFault (LinkedThreads ω × List WalkEvent) :=
  match op s.toThreads p with
  | .error e => .error (.call e)
  | .ok (t, rv) =>
    if rv = 0 then .ok ({ s with toThreads := t }, [.call p])
    else if t.errno = .ECHILD then
      .ok ({ s with toThreads := t }.threadDelete p, [.call p, .delete p])
    else .ok ({ s with toThreads := t }, [.call p])

/-- `list_for_each_entry`, from the entry `pos` on. -/
def forEachEntry : Nat → ListPtr → LinkedThreads ω →
    Except WalkFault (LinkedThreads ω × List WalkEvent)
  | 0, _, _ => .error .unfinished
  | _ + 1, .head, s => .ok (s, [])
  | fuel + 1, .entry p, s => do
    let (s, events) ← s.visit op p
    let (s, log) ← forEachEntry fuel (s.links.next (.entry p)) s
    pure (s, events ++ .next (.entry p) :: log)
  | _ + 1, _, _ => .error .badAccess

/-- `thread_all_run` -/
def threadAllRun (fuel : Nat) : Except WalkFault (LinkedThreads ω × List WalkEvent × Int) := do
  let (s, log) ← forEachEntry (Threads.threadRun k n) fuel (s.links.next .head) s
  pure (s, .next .head :: log, 0)

/-- `list->next` -/
def follow (m : Links ListPtr) : ListPtr → Except WalkFault ListPtr
  | .LIST_POISON1 => .error .badAccess
  | .LIST_POISON2 => .error .badAccess
  | list => .ok (m.next list)

/-- `list_for_each_entry_safe`, from the entry `pos` on, with the one behind it in `tmp`. -/
def forEachEntrySafe : Nat → ListPtr → ListPtr → LinkedThreads ω →
    Except WalkFault (LinkedThreads ω × List WalkEvent)
  | 0, _, _, _ => .error .unfinished
  | _ + 1, .head, _, s => .ok (s, [])
  | fuel + 1, .entry p, tmp, s => do
    let (s, events) ← s.visit op p
    let next ← follow s.links tmp
    let (s, log) ← forEachEntrySafe fuel tmp next s
    pure (s, events ++ .next tmp :: log)
  | _ + 1, _, _, _ => .error .badAccess

/-- `thread_all_stop` -/
def threadAllStop (fuel : Nat) : Except WalkFault (LinkedThreads ω × List WalkEvent × Int) := do
  let pos := s.links.next .head
  let tmp ← follow s.links pos
  let (s, log) ← forEachEntrySafe (Threads.threadStop k n) fuel pos tmp s
  pure (s, .next .head :: .next pos :: log, 0)

/-- The links hold the threads of the list, in their order. -/
def OnList : Prop := s.links.Ring .head (s.threads.map .entry)

end LinkedThreads

/-- The call, made on the threads of a list in turn, finds the threads `gone` to be no children,
and those are deleted. -/
inductive Visits {ω : Type} (op : ThreadOp ω) :
    Threads ω → List ThreadPtr → List ThreadPtr → Threads ω → Prop where
  | nil {s : Threads ω} : Visits op s [] [] s
  | stays {s s' t : Threads ω} {p : ThreadPtr} {ps gone : List ThreadPtr} {rv : Int}
      (h : op s p = .ok (s', rv)) (hrv : rv = 0 ∨ s'.errno ≠ .ECHILD)
      (hrest : Visits op s' ps gone t) : Visits op s (p :: ps) gone t
  | gone {s s' t : Threads ω} {p : ThreadPtr} {ps gone : List ThreadPtr} {rv : Int}
      (h : op s p = .ok (s', rv)) (hrv : rv ≠ 0) (he : s'.errno = .ECHILD)
      (hrest : Visits op (s'.threadDelete p) ps gone t) : Visits op s (p :: ps) (p :: gone) t

/-- The call does not change the list. -/
def KeepsThreads {ω : Type} (op : ThreadOp ω) : Prop :=
  ∀ s p t rv, p ∈ s.threads → op s p = .ok (t, rv) → t.threads = s.threads

section Visits

variable {ω : Type} {k : Kernel ω} {n : Nat} {op : ThreadOp ω} {s t : Threads ω} {p : ThreadPtr}
  {kept rest gone : List ThreadPtr} {rv : Int}

theorem keepsThreads_stop : KeepsThreads (Threads.threadStop k n) :=
  fun _ _ _ _ hp h => Threads.threads_of_stop (Threads.stop_cases hp h)

theorem gone_subset (h : Visits op s rest gone t) : gone ⊆ rest := by
  induction h with
  | nil => exact List.Subset.refl []
  | stays _ _ _ ih => exact List.Subset.trans ih (List.subset_cons_self _ _)
  | gone _ _ _ _ ih => exact List.cons_subset_cons _ ih

/-- The threads that were found stay on the list, in their order. -/
theorem threads_of_visits (hop : KeepsThreads op) (h : Visits op s rest gone t) :
    ∀ kept, s.threads = kept ++ rest → s.threads.Nodup →
      t.threads = kept ++ rest.filter (· ∉ gone) := by
  induction h with
  | nil => exact fun _ ht _ => ht
  | @stays s s' t p ps gone rv h _ hrest ih =>
    intro kept ht hnodup
    have hp : p ∈ s.threads := by simp [ht]
    have hs' := hop s p s' rv hp h
    have hpg : p ∉ gone := fun hmem => (Threads.not_mem_split ht hnodup).2 (gone_subset hrest hmem)
    rw [ih (kept ++ [p]) (by simp [hs', ht]) (hs' ▸ hnodup),
      List.filter_cons_of_pos (by simpa using hpg)]
    simp
  | @gone s s' t p ps gone rv h _ _ hrest ih =>
    intro kept ht hnodup
    have hp : p ∈ s.threads := by simp [ht]
    have hs' := hop s p s' rv hp h
    rw [ih kept (Threads.threadDelete_threads (hs'.trans ht) (hs' ▸ hnodup)) ((hs' ▸ hnodup).erase p),
      List.filter_cons_of_neg (by simp)]
    congr 1
    apply List.filter_congr
    intro q hq
    have hqp : q ≠ p := fun he => (Threads.not_mem_split ht hnodup).2 (he ▸ hq)
    simp [hqp]

/-- The loop over a plain list makes such visits. -/
theorem visits_of_allStopLoop (h : Threads.allStopLoop k n rest s = .ok (t, rv)) :
    rv = 0 ∧ ∃ gone, Visits (Threads.threadStop k n) s rest gone t := by
  induction rest generalizing s with
  | nil =>
    cases h
    exact ⟨rfl, [], .nil⟩
  | cons p ps ih =>
    obtain ⟨⟨s', rv'⟩, hstop, h⟩ := Signal.bind_ok h
    dsimp only at h
    split at h
    · rename_i hrv
      obtain ⟨hr, gone, hrest⟩ := ih h
      exact ⟨hr, gone, .stays hstop (Or.inl hrv) hrest⟩
    split at h
    · rename_i hrv he
      obtain ⟨hr, gone, hrest⟩ := ih h
      exact ⟨hr, p :: gone, .gone hstop hrv he hrest⟩
    · rename_i he
      obtain ⟨hr, gone, hrest⟩ := ih h
      exact ⟨hr, gone, .stays hstop (Or.inr he) hrest⟩

end Visits

namespace LinkedThreads

variable {ω : Type} {k : Kernel ω} {n : Nat} {op : ThreadOp ω} {s s' : LinkedThreads ω}
  {t : Threads ω} {p : ThreadPtr} {pid : Pid} {state : Status} {kept rest gone : List ThreadPtr}
  {rv : Int} {log : List WalkEvent}

theorem OnList.nodup (h : s.OnList) : s.threads.Nodup :=
  (List.nodup_cons.mp (Links.Ring.nodup h)).2.of_map _

theorem OnList.setThreads (h : s.OnList) (ht : t.threads = s.threads) :
    { s with toThreads := t }.OnList := by
  rw [OnList, ht]
  exact h

theorem entry_mem (p : ThreadPtr) (l : List ThreadPtr) :
    .entry p ∈ ListPtr.head :: l.map .entry ↔ p ∈ l := by
  simp

theorem onList_add (h : s.OnList) (hp : p ∉ s.threads) : (s.threadAdd p pid state).OnList := by
  have hnot := (entry_mem p s.threads).not.mpr hp
  have hr := (Links.Ring.setLinks h hnot (a := .entry p) (b := .entry p)).insert hnot
  have hthreads : (s.threadAdd p pid state).threads.map .entry =
      s.threads.map .entry ++ [ListPtr.entry p] := by
    simp [threadAdd, Threads.threadAdd]
  rw [OnList, hthreads]
  exact hr

theorem onList_delete (h : s.OnList) (ht : s.threads = kept ++ p :: rest) :
    (s.threadDelete p).OnList := by
  have hthreads : (s.threadDelete p).threads = kept ++ rest := Threads.threadDelete_threads ht h.nodup
  rw [OnList, ht, List.map_append, List.map_cons] at h
  have hr := Links.Ring.unlink h
  rw [OnList, hthreads, List.map_append]
  refine hr.setLinks ?_
  simpa using Links.Ring.not_mem h

theorem visit_stays (h : op s.toThreads p = .ok (t, rv)) (hrv : rv = 0 ∨ t.errno ≠ .ECHILD) :
    s.visit op p = .ok ({ s with toThreads := t }, [.call p]) := by
  simp only [visit, h]
  split
  · rfl
  · rename_i hne
    rw [if_neg (hrv.resolve_left hne)]

theorem visit_gone (h : op s.toThreads p = .ok (t, rv)) (hrv : rv ≠ 0) (he : t.errno = .ECHILD) :
    s.visit op p = .ok ({ s with toThreads := t }.threadDelete p, [.call p, .delete p]) := by
  simp only [visit, h, if_neg hrv, if_pos he]

/-- The pointer that a walk over the threads `rest` is at. -/
def cursor (rest : List ThreadPtr) : ListPtr := (rest.map .entry).headD .head

theorem follow_cursor (m : Links ListPtr) (rest : List ThreadPtr) :
    follow m (cursor rest) = .ok (m.next (cursor rest)) := by
  cases rest <;> rfl

theorem next_entry (h : s.OnList) (ht : s.threads = kept ++ p :: rest) :
    s.links.next (.entry p) = cursor rest := by
  have hpath := h.path
  rw [ht, List.map_append, List.map_cons, Links.path_append] at hpath
  exact hpath.2.next_eq

/-- What a walk over the threads `rest` has done when it returns. -/
structure Walked (s : LinkedThreads ω) (rest : List ThreadPtr) (t : Threads ω)
    (log : List WalkEvent) : Prop where
  threads : s.toThreads = t
  onList : s.OnList
  calls : ∀ q, log.count (.call q) = rest.count q
  next : ∀ q, .next (.entry q) ∈ log → q ∈ rest.tail
  removed : ∀ q, ¬ List.Sublist [.delete q, .next (.entry q)] log

theorem mem_of_cursor (h : cursor rest = .entry p) : p ∈ rest := by
  cases rest with
  | nil => cases h
  | cons q rest =>
    cases h
    exact List.mem_cons_self

/-- One more thread in front of a walk, whether it is deleted or not. -/
theorem Walked.cons (h : s.Walked rest t log) (hp : p ∉ rest) {events : List WalkEvent}
    (he : events = [.call p] ∨ events = [.call p, .delete p]) :
    s.Walked (p :: rest) t (events ++ .next (cursor rest) :: log) := by
  have hnext : ∀ q, .next (.entry q) ∈ events ++ .next (cursor rest) :: log → q ∈ rest := by
    intro q hq
    have hq' : .next (.entry q) ∈ .next (cursor rest) :: log := by
      rcases he with rfl | rfl <;> simpa using hq
    rcases List.mem_cons.mp hq' with heq | hmem
    · exact mem_of_cursor (WalkEvent.next.inj heq).symm
    · exact List.mem_of_mem_tail (h.next q hmem)
  refine ⟨h.threads, h.onList, ?_, hnext, ?_⟩
  · intro q
    rcases he with rfl | rfl <;> simp [List.count_cons, h.calls q]
  · intro q hsub
    by_cases hqp : q = p
    · subst q
      have hmem := hsub.subset (List.mem_cons_of_mem _ List.mem_cons_self)
      exact hp (hnext p hmem)
    · have hskip : List.Sublist [.delete q, .next (.entry q)] (.next (cursor rest) :: log) := by
        rcases he with rfl | rfl
        · exact List.Sublist.of_cons_of_ne (by simp) hsub
        · exact List.Sublist.of_cons_of_ne (by simpa using hqp)
            (List.Sublist.of_cons_of_ne (by simp) hsub)
      exact h.removed q (List.Sublist.of_cons_of_ne (by simp) hskip)

/-- One turn of the walk, which has looked behind its entry. -/
theorem forEachEntrySafe_turn {s₁ : LinkedThreads ω} {events : List WalkEvent} (hs : s.OnList)
    (ht : s.threads = kept ++ p :: rest) (hvisit : s.visit op p = .ok (s₁, events))
    (hrest : forEachEntrySafe op (rest.length + 1) (cursor rest) (s₁.links.next (cursor rest)) s₁ =
      .ok (s', log)) :
    forEachEntrySafe op ((p :: rest).length + 1) (cursor (p :: rest))
      (s.links.next (cursor (p :: rest))) s = .ok (s', events ++ .next (cursor rest) :: log) := by
  rw [show cursor (p :: rest) = .entry p from rfl, next_entry hs ht, List.length_cons,
    forEachEntrySafe, hvisit]
  simp only [Signal.ok_bind, follow_cursor, hrest]
  rfl

/-- The walk that looks behind an entry before it makes the call gets to every thread. -/
theorem forEachEntrySafe_walked (hop : KeepsThreads op) {u : Threads ω}
    (h : Visits op u rest gone t) : ∀ (s : LinkedThreads ω) (kept : List ThreadPtr),
      s.toThreads = u → s.OnList → s.threads = kept ++ rest →
      ∃ s' log, forEachEntrySafe op (rest.length + 1) (cursor rest) (s.links.next (cursor rest)) s =
        .ok (s', log) ∧ s'.Walked rest t log := by
  induction h with
  | nil =>
    intro s kept hu hs ht
    refine ⟨s, [], rfl, hu, hs, fun _ => rfl, ?_, ?_⟩
    · exact fun q hq => absurd hq List.not_mem_nil
    · exact fun q hsub => absurd (hsub.subset List.mem_cons_self) List.not_mem_nil
  | @stays u u' t p ps gone rv hcall hrv hrest ih =>
    intro s kept hu hs ht
    subst u
    have hthreads : u'.threads = s.threads := hop _ p u' rv (by simp [ht]) hcall
    obtain ⟨s', log, hwalk, hw⟩ := ih { s with toThreads := u' } (kept ++ [p]) rfl
      (hs.setThreads hthreads) (by simp [hthreads, ht])
    exact ⟨s', _, forEachEntrySafe_turn hs ht (visit_stays hcall hrv) hwalk,
      hw.cons (Threads.not_mem_split ht hs.nodup).2 (Or.inl rfl)⟩
  | @gone u u' t p ps gone rv hcall hrv he hrest ih =>
    intro s kept hu hs ht
    subst u
    have hthreads : u'.threads = s.threads := hop _ p u' rv (by simp [ht]) hcall
    have hs' := hs.setThreads hthreads
    have ht' := hthreads.trans ht
    obtain ⟨s', log, hwalk, hw⟩ := ih ({ s with toThreads := u' }.threadDelete p) kept rfl
      (onList_delete hs' ht') (Threads.threadDelete_threads ht' hs'.nodup)
    exact ⟨s', _, forEachEntrySafe_turn hs ht (visit_gone hcall hrv he) hwalk,
      hw.cons (Threads.not_mem_split ht hs.nodup).2 (Or.inr rfl)⟩

/-- What the loops of `thread_all_run` and `thread_all_stop` are for: one call on every thread, no
link read of a thread that was deleted, and the threads that were found left on the list. -/
structure EachOnce (s : LinkedThreads ω) (gone : List ThreadPtr) (s' : LinkedThreads ω)
    (log : List WalkEvent) : Prop where
  once : ∀ p ∈ s.threads, log.count (.call p) = 1
  removed : ∀ p, ¬ List.Sublist [.delete p, .next (.entry p)] log
  left : s'.links.Ring .head ((s.threads.filter (· ∉ gone)).map .entry)

theorem threadAllStop_walked (hs : s.OnList)
    (h : Visits (Threads.threadStop k n) s.toThreads s.threads gone t) :
    ∃ fuel s' log, s.threadAllStop k n fuel =
      .ok (s', .next .head :: .next (cursor s.threads) :: log, 0) ∧ s'.Walked s.threads t log := by
  obtain ⟨s', log, hwalk, hw⟩ := forEachEntrySafe_walked keepsThreads_stop h s [] rfl hs
    (List.nil_append s.threads).symm
  have hpos : s.links.next .head = cursor s.threads := Links.Path.next_eq hs.path
  refine ⟨s.threads.length + 1, s', log, ?_, hw⟩
  simp only [threadAllStop, hpos, follow_cursor, Signal.ok_bind]
  rw [hwalk]
  rfl

theorem threadAllStop_eachOnce (hs : s.OnList)
    (h : Visits (Threads.threadStop k n) s.toThreads s.threads gone t) :
    ∃ fuel s' log, s.threadAllStop k n fuel = .ok (s', log, 0) ∧ s.EachOnce gone s' log := by
  obtain ⟨fuel, s', log, hrun, hw⟩ := threadAllStop_walked hs h
  refine ⟨fuel, s', _, hrun, ?_, ?_, ?_⟩
  · intro p hp
    simpa [List.count_cons, hw.calls p] using List.count_eq_one_of_mem hs.nodup hp
  · intro p hsub
    have hskip := List.Sublist.of_cons_of_ne (by simp) hsub
    exact hw.removed p (List.Sublist.of_cons_of_ne (by simp) hskip)
  · have ht := threads_of_visits keepsThreads_stop h [] (List.nil_append s.threads).symm hs.nodup
    have hs' := hw.onList
    rw [OnList, hw.threads, ht] at hs'
    exact hs'

/-- `thread_all_stop` on the links does what the loop over a plain list does. -/
theorem threadAllStop_refines (hs : s.OnList) (h : s.toThreads.threadAllStop k n = .ok (t, rv)) :
    ∃ fuel s' log, s.threadAllStop k n fuel = .ok (s', log, rv) ∧ s'.toThreads = t ∧ s'.OnList := by
  obtain ⟨rfl, gone, hvisits⟩ := visits_of_allStopLoop h
  obtain ⟨fuel, s', log, hrun, hw⟩ := threadAllStop_walked hs hvisits
  exact ⟨fuel, s', _, hrun, hw.threads, hw.onList⟩

end LinkedThreads

end Atrace.Ptrace

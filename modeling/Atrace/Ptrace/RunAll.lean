import Atrace.Ptrace.ThreadList

/-! `thread_all_run`, whose loop looks behind an entry after the call on it. -/
namespace Atrace.Ptrace.LinkedThreads

open Atrace.Lib

variable {ω : Type} {k : Kernel ω} {n fuel : Nat} {op : ThreadOp ω} {s : LinkedThreads ω}
  {t : Threads ω} {p : ThreadPtr} {rest gone : List ThreadPtr} {a : ListPtr}

/-- The link that is read after `thread_delete`. -/
theorem next_deleted (s : LinkedThreads ω) (p : ThreadPtr) :
    (s.threadDelete p).links.next (.entry p) = .LIST_POISON1 :=
  Function.update_self ..

theorem forEachEntry_poison (op : ThreadOp ω) (fuel : Nat) (s : LinkedThreads ω) :
    ∃ e, forEachEntry op fuel .LIST_POISON1 s = .error e := by
  cases fuel with
  | zero => exact ⟨_, rfl⟩
  | succ fuel => exact ⟨_, rfl⟩

/-- Where no thread is deleted the walk sees the links as they were. -/
theorem forEachEntry_stays (hpath : s.links.Path a (rest.map .entry) .head)
    (h : Visits op s.toThreads rest [] t) :
    forEachEntry op (rest.length + 1) (s.links.next a) s =
      .ok ({ s with toThreads := t }, rest.flatMap fun p => [.call p, .next (.entry p)]) := by
  induction rest generalizing a s with
  | nil =>
    cases h
    rw [show s.links.next a = .head from hpath.next]
    rfl
  | cons p rest ih =>
    cases h with
    | @stays _ u _ _ _ _ _ hcall hrv hrest =>
      have hwalk := ih (s := { s with toThreads := u }) hpath.2 hrest
      rw [hpath.1.next, List.length_cons, forEachEntry, visit_stays hcall hrv]
      simp only [Signal.ok_bind, hwalk]
      rfl

/-- From the first thread that is deleted the walk goes on at the poison value. -/
theorem forEachEntry_gone (hpath : s.links.Path a (rest.map .entry) .head)
    (h : Visits op s.toThreads rest gone t) (hgone : gone ≠ []) (fuel : Nat) :
    ∃ e, forEachEntry op fuel (s.links.next a) s = .error e := by
  induction rest generalizing a s fuel with
  | nil =>
    cases h
    exact absurd rfl hgone
  | cons p rest ih =>
    rw [hpath.1.next]
    cases fuel with
    | zero => exact ⟨_, rfl⟩
    | succ fuel =>
      cases h with
      | @stays _ u _ _ _ _ _ hcall hrv hrest =>
        obtain ⟨e, he⟩ := ih (s := { s with toThreads := u }) hpath.2 hrest fuel
        rw [forEachEntry, visit_stays hcall hrv]
        simp only [Signal.ok_bind, he]
        exact ⟨e, rfl⟩
      | gone hcall hrv he hrest =>
        rw [forEachEntry, visit_gone hcall hrv he]
        simp only [Signal.ok_bind, next_deleted]
        obtain ⟨e, he⟩ := forEachEntry_poison op fuel _
        rw [he]
        exact ⟨e, rfl⟩

theorem count_calls (l : List ThreadPtr) (q : ThreadPtr) :
    (l.flatMap fun p => [WalkEvent.call p, .next (.entry p)]).count (.call q) = l.count q := by
  induction l with
  | nil => rfl
  | cons p l ih => simp [List.count_cons, ih]

/-- `LIST_HEAD(threads)`, with the tasks as they are. -/
def noThreads (w : Pid → Task) : LinkedThreads (Pid → Task) where
  threads := []
  thread _ := ⟨0, 0⟩
  errno := .ESRCH
  world := w
  links := ⟨id, id⟩

theorem onList_noThreads (w : Pid → Task) : (noThreads w).OnList :=
  ⟨List.nodup_singleton _, rfl, rfl⟩

/-- Two threads, at their first stops. -/
def twoThreads (w : Pid → Task) : LinkedThreads (Pid → Task) :=
  ((noThreads w).threadAdd 0 100 0x57f).threadAdd 1 101 0x57f

theorem onList_twoThreads (w : Pid → Task) : (twoThreads w).OnList := by
  refine onList_add (onList_add (onList_noThreads w) List.not_mem_nil) ?_
  simp [threadAdd, noThreads, Threads.threadAdd]

/-- `thread_all_run` calls `thread_run` once on every thread, reads no link of a removed one and
leaves the others on the list, exactly when `thread_run` finds every thread. -/
theorem threadAllRun_eachOnce_iff (hs : s.OnList)
    (h : Visits (Threads.threadRun k n) s.toThreads s.threads gone t) :
    (∃ fuel s' log, s.threadAllRun k n fuel = .ok (s', log, 0) ∧ s.EachOnce gone s' log) ↔
      gone = [] := by
  constructor
  · rintro ⟨fuel, s', log, hrun, _⟩
    by_contra hgone
    obtain ⟨e, he⟩ := forEachEntry_gone hs.path h hgone fuel
    rw [threadAllRun, he] at hrun
    cases hrun
  · rintro rfl
    have hrun : s.threadAllRun k n (s.threads.length + 1) = .ok ({ s with toThreads := t },
        .next .head :: s.threads.flatMap fun p => [.call p, .next (.entry p)], 0) := by
      rw [threadAllRun, forEachEntry_stays hs.path h]
      rfl
    refine ⟨_, _, _, hrun, ?_, ?_, ?_⟩
    · intro p hp
      rw [List.count_cons, count_calls, List.count_eq_one_of_mem hs.nodup hp]
      rfl
    · intro p hsub
      have hmem := hsub.subset List.mem_cons_self
      simp at hmem
    · have hall : s.threads.filter (· ∉ ([] : List ThreadPtr)) = s.threads := by simp
      rw [hall]
      exact hs

theorem threadAllRun_eachOnce_iff_two : ∃ fuel s' log,
    (twoThreads fun _ => .stopped).threadAllRun Threads.plainKernel 1 fuel = .ok (s', log, 0) ∧
      (twoThreads fun _ => .stopped).EachOnce [] s' log := by
  obtain ⟨t, u, hfirst, hsecond⟩ : ∃ t u : Threads (Pid → Task),
      (twoThreads fun _ => .stopped).threadRun Threads.plainKernel 1 0 = .ok (t, 0) ∧
        t.threadRun Threads.plainKernel 1 1 = .ok (u, 0) := ⟨_, _, rfl, rfl⟩
  exact (threadAllRun_eachOnce_iff (onList_twoThreads _)
    (.stays hfirst (Or.inl rfl) (.stays hsecond (Or.inl rfl) .nil))).mpr rfl

/-- When the first of two threads is gone the walk takes the poison value for the second one. -/
theorem gone_thread_poisons_walk : ∃ s : LinkedThreads (Pid → Task), s.OnList ∧
    (∃ t, Visits (Threads.threadRun Threads.plainKernel 1) s.toThreads s.threads [0] t) ∧
    s.threadAllRun Threads.plainKernel 1 3 = .error .badAccess ∧
    ¬ ∃ fuel s' log, s.threadAllRun Threads.plainKernel 1 fuel = .ok (s', log, 0) ∧
      s.EachOnce [0] s' log := by
  have hs := onList_twoThreads (Function.update (fun _ => .stopped) 100 .gone)
  obtain ⟨t, u, hfirst, he, hsecond⟩ : ∃ t u : Threads (Pid → Task),
      (twoThreads (Function.update (fun _ => .stopped) 100 .gone)).threadRun Threads.plainKernel 1 0 =
        .ok (t, -1) ∧ t.errno = .ECHILD ∧
        (t.threadDelete 0).threadRun Threads.plainKernel 1 1 = .ok (u, 0) :=
    ⟨_, _, rfl, rfl, rfl⟩
  have hvisits : Visits (Threads.threadRun Threads.plainKernel 1) _ [0, 1] [0] u :=
    .gone hfirst (by decide) he (.stays hsecond (Or.inl rfl) .nil)
  refine ⟨_, hs, ⟨u, hvisits⟩, rfl, ?_⟩
  rintro ⟨fuel, s', log, hrun, _⟩
  obtain ⟨e, he⟩ := forEachEntry_gone hs.path hvisits (by decide) fuel
  rw [threadAllRun, he] at hrun
  cases hrun

end Atrace.Ptrace.LinkedThreads

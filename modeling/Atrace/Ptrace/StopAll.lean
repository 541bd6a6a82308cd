import Mathlib.Data.List.Find
import Mathlib.Data.List.Nodup
import Atrace.Ptrace.Thread

/-! When `thread_all_stop` leaves no thread running, and deletes only threads that are gone. -/
namespace Atrace.Ptrace

open Atrace.Lib Signal

/-- A call on the task failed, and for good reason: it does not run, and it is gone if the call found
no such child. -/
def Task.Refused (t : Task) (e : Errno) : Prop := t ≠ .running ∧ (e = .ECHILD → t = .gone)

/-- `kill` and `waitpid` fail for good reason. -/
structure Kernel.Honest {ω : Type} (k : Kernel ω) : Prop where
  kill : ∀ w pid e, (k.kill w pid).2 = some e →
    (k.task (k.kill w pid).1 pid).Refused (Threads.childErrno e)
  waitpid : ∀ w pid option e, e ≠ .EINTR → (k.waitpid w pid option).2 = .error e →
    (k.task (k.waitpid w pid option).1 pid).Refused e

namespace Threads

variable {ω : Type} {k : Kernel ω} {n : Nat} {s s' s'' : Threads ω} {w w' : ω} {p q : ThreadPtr}
  {pid : Pid} {option : Bool} {curr : Option ThreadPtr} {rv : Int} {status : Status} {e : Errno}

/-- The recorded state of the thread with this pid does not take a running task for another. -/
def TruthfulAt (k : Kernel ω) (s : Threads ω) (pid : Pid) : Prop :=
  ∀ p, s.threadGetByPid pid = some p → (s.thread p).state.settled = true →
    k.task s.world pid ≠ .running

def Truthful (k : Kernel ω) (s : Threads ω) : Prop := ∀ pid, s.TruthfulAt k pid

/-- What changes when no thread is continued: time passes, and states are recorded. -/
structure Later (k : Kernel ω) (s s' : Threads ω) : Prop where
  moves : ∀ pid, (k.task s.world pid).Moves (k.task s'.world pid)
  pid : ∀ p, (s'.thread p).pid = (s.thread p).pid

theorem Later.refl (k : Kernel ω) (s : Threads ω) : s.Later k s :=
  ⟨fun _ => Task.Moves.refl _, fun _ => rfl⟩

theorem Later.trans (h : s.Later k s') (h' : s'.Later k s'') : s.Later k s'' :=
  ⟨fun pid => (h.moves pid).trans (h'.moves pid), fun p => (h'.pid p).trans (h.pid p)⟩

theorem setState_thread (s : Threads ω) (p q : ThreadPtr) (status : Status) :
    (s.setState p status).thread q =
      if q = p then { s.thread p with state := status } else s.thread q :=
  Function.update_apply ..

theorem setState_pid (s : Threads ω) (p q : ThreadPtr) (status : Status) :
    ((s.setState p status).thread q).pid = (s.thread q).pid := by
  rw [setState_thread]
  split
  · rename_i hq
    rw [hq]
  · rfl

@[simp] theorem threadGetByPid_setState (s : Threads ω) (p : ThreadPtr) (status : Status)
    (pid : Pid) : (s.setState p status).threadGetByPid pid = s.threadGetByPid pid := by
  have hpid : ∀ q, ((s.setState p status).thread q).pid = (s.thread q).pid :=
    fun q => setState_pid s p q status
  simp only [threadGetByPid, hpid]
  rfl

theorem pid_of_get (h : s.threadGetByPid pid = some p) : (s.thread p).pid = pid :=
  eq_of_beq (List.find?_some h :)

theorem get_of_mem (h : p ∈ s.threads) : s.threadGetByPid (s.thread p).pid ≠ none := by
  intro hnone
  have hp := List.find?_eq_none.mp hnone p h
  simp at hp

/-- The answer that the loop of `thread_wait` ends with. -/
theorem waitLoop_cases {r : Except Errno Status} (h : waitLoop k pid option n w = .ok (w', r)) :
    (∀ q, (k.task w q).Moves (k.task w' q)) ∧
      (∀ e, r = .error e → k.Honest → (k.task w' pid).Refused e) ∧
      ∀ status, r = .ok status → (k.task w' pid).Reported status := by
  induction n generalizing w with
  | zero => cases h
  | succ n ih =>
    have hmoves := k.waitpid_moves w pid option
    have hreports := k.waitpid_reports w pid option
    rw [waitLoop] at h
    split at h
    · rename_i hw
      rw [hw] at hmoves
      obtain ⟨hmoves', hr⟩ := ih h
      exact ⟨fun q => (hmoves q).trans (hmoves' q), hr⟩
    · rename_i hne hw
      cases h
      rw [hw] at hmoves hreports
      refine ⟨hmoves, ?_, hreports⟩
      rintro e rfl hk
      have hrefused := hk.waitpid w pid option e
      rw [hw] at hrefused
      refine hrefused ?_ rfl
      rintro rfl
      exact hne rfl

/-- The ways `thread_wait` can return. -/
inductive WaitOutcome (k : Kernel ω) (s : Threads ω) (pid : Pid) (s' : Threads ω)
    (curr : Option ThreadPtr) : Prop where
  | unknown (hg : s.threadGetByPid pid = none) (hs : s' = { s with errno := .ECHILD })
      (hc : curr = none)
  | failed (p : ThreadPtr) (w : ω) (e : Errno) (hg : s.threadGetByPid pid = some p)
      (hm : ∀ q, (k.task s.world q).Moves (k.task w q))
      (hr : k.Honest → (k.task w pid).Refused e)
      (hs : s' = { s with world := w, errno := e }) (hc : curr = none)
  | reported (p : ThreadPtr) (w : ω) (status : Status) (hg : s.threadGetByPid pid = some p)
      (hm : ∀ q, (k.task s.world q).Moves (k.task w q))
      (hr : (k.task w pid).Reported status)
      (hs : s' = { s with world := w }.setState p status) (hc : curr = some p)

theorem wait_cases (h : s.threadWait k n pid option = .ok (s', curr)) :
    WaitOutcome k s pid s' curr := by
  unfold threadWait at h
  split at h
  · rename_i hg
    cases h
    exact .unknown hg rfl rfl
  · rename_i p hg
    obtain ⟨⟨w, r⟩, hloop, h⟩ := bind_ok h
    obtain ⟨hm, herror, hok⟩ := waitLoop_cases hloop
    cases r with
    | error e =>
      cases h
      exact .failed p w e hg hm (herror e rfl) rfl rfl
    | ok status =>
      cases h
      exact .reported p w status hg hm (hok status rfl) rfl rfl

theorem threads_of_wait (h : WaitOutcome k s pid s' curr) : s'.threads = s.threads := by
  rcases h with ⟨_, rfl, _⟩ | ⟨_, _, _, _, _, _, rfl, _⟩ | ⟨_, _, _, _, _, _, rfl, _⟩ <;> rfl

/-- A thread that was recorded truthfully still is after another's state is recorded. -/
theorem truthfulAt_setState (h : s.TruthfulAt k pid) (hp : (s.thread p).pid ≠ pid) :
    (s.setState p status).TruthfulAt k pid := by
  intro q hg hs
  rw [threadGetByPid_setState] at hg
  have hne : q ≠ p := by
    rintro rfl
    exact hp (pid_of_get hg)
  rw [setState_thread, if_neg hne] at hs
  exact h q hg hs

theorem truthfulAt_world {e : Errno} (h : s.TruthfulAt k pid)
    (hm : (k.task s.world pid).Moves (k.task w pid)) :
    { s with world := w, errno := e }.TruthfulAt k pid :=
  fun p hg hs => hm.not_running (h p hg hs)

theorem truthful_setState (hg : s.threadGetByPid pid = some p)
    (hr : (k.task s.world pid).Reported status) (hs : ∀ q, q ≠ pid → s.TruthfulAt k q) :
    (s.setState p status).Truthful k := by
  intro q
  by_cases hq : q = pid
  · subst q
    intro p' hp' hset
    rw [threadGetByPid_setState] at hp'
    obtain rfl := Option.some.inj (hg.symm.trans hp')
    rw [setState_thread, if_pos rfl] at hset
    exact hr.not_running hset
  · refine truthfulAt_setState (hs q hq) ?_
    intro he
    exact hq (he.symm.trans (pid_of_get hg))

/-- A wait makes the record of its own thread truthful, whatever it was before. -/
theorem truthful_wait (hk : k.Honest) (h : WaitOutcome k s pid s' curr)
    (hs : ∀ q, q ≠ pid → s.TruthfulAt k q) : s'.Truthful k := by
  rcases h with ⟨hg, rfl, _⟩ | ⟨_, w, e, hg, hm, hr, rfl, _⟩ | ⟨p, w, status, hg, hm, hr, rfl, _⟩
  · intro q
    by_cases hq : q = pid
    · subst q
      intro p hp
      cases hg.symm.trans hp
    · exact hs q hq
  · intro q
    by_cases hq : q = pid
    · subst q
      exact fun _ _ _ => (hr hk).1
    · exact truthfulAt_world (hs q hq) (hm q)
  · exact truthful_setState hg hr fun q hq => truthfulAt_world (e := s.errno) (hs q hq) (hm q)

/-- The ways `thread_stop` can return, for a thread of the list. -/
inductive StopOutcome (k : Kernel ω) (s : Threads ω) (p : ThreadPtr) (s' : Threads ω) (rv : Int) :
    Prop where
  | settled (hset : (s.thread p).state.settled = true) (hs : s' = s) (hrv : rv = 0)
  | failed (w : ω) (e : Errno) (hm : ∀ q, (k.task s.world q).Moves (k.task w q))
      (hr : k.Honest → (k.task w (s.thread p).pid).Refused e)
      (hs : s' = { s with world := w, errno := e }) (hrv : rv = -1)
  | stopped (w : ω) (status : Status) (hg : s.threadGetByPid (s.thread p).pid = some p)
      (hm : ∀ q, (k.task s.world q).Moves (k.task w q))
      (hr : (k.task w (s.thread p).pid).Reported status) (hstop : status.WIFSTOPPED = true)
      (hs : s' = { s with world := w }.setState p status) (hrv : rv = 0)

theorem stop_cases (hp : p ∈ s.threads) (h : s.threadStop k n p = .ok (s', rv)) :
    StopOutcome k s p s' rv := by
  unfold threadStop at h
  split at h
  · rename_i hexit
    cases h
    exact .settled (by simp [Status.settled, hexit]) rfl rfl
  split at h
  · rename_i hstop
    cases h
    exact .settled (by simp [Status.settled, hstop]) rfl rfl
  rename_i hnot
  have hmoves := k.kill_moves s.world (s.thread p).pid
  split at h
  · rename_i w e hkill
    cases h
    rw [hkill] at hmoves
    refine .failed w _ hmoves ?_ rfl rfl
    intro hk
    have hrefused := hk.kill s.world (s.thread p).pid e
    rw [hkill] at hrefused
    exact hrefused rfl
  · rename_i w hkill
    rw [hkill] at hmoves
    obtain ⟨⟨s₁, curr⟩, hwait, h⟩ := bind_ok h
    rcases wait_cases hwait with
      ⟨hg, _, _⟩ | ⟨q, w', e, hg, hm, hr, rfl, rfl⟩ | ⟨q, w', status, hg, hm, hr, rfl, rfl⟩
    · exact absurd hg (get_of_mem hp)
    · cases h
      exact .failed w' e (fun q => (hmoves q).trans (hm q)) hr rfl rfl
    · dsimp only at h
      rw [if_neg nofun] at h
      split at h
      · rename_i hstop
        cases h
        -- the record that changed is this thread's own, or the assertion would have failed
        have hpq : p = q := by
          by_contra hne
          rw [setState_thread, if_neg hne] at hstop
          exact hnot hstop
        subst q
        rw [setState_thread, if_pos rfl] at hstop
        exact .stopped w' status hg (fun q => (hmoves q).trans (hm q)) hr hstop rfl rfl
      · cases h

theorem later_of_stop (h : StopOutcome k s p s' rv) : s.Later k s' := by
  rcases h with ⟨_, rfl, _⟩ | ⟨_, _, hm, _, rfl, _⟩ | ⟨_, _, _, hm, _, _, rfl, _⟩
  · exact Later.refl k _
  · exact ⟨hm, fun _ => rfl⟩
  · exact ⟨hm, fun q => setState_pid ..⟩

theorem threads_of_stop (h : StopOutcome k s p s' rv) : s'.threads = s.threads := by
  rcases h with ⟨_, rfl, _⟩ | ⟨_, _, _, _, rfl, _⟩ | ⟨_, _, _, _, _, _, rfl, _⟩ <;> rfl

theorem truthful_stop (h : StopOutcome k s p s' rv) (hs : s.Truthful k) : s'.Truthful k := by
  rcases h with ⟨_, rfl, _⟩ | ⟨w, e, hm, _, rfl, _⟩ | ⟨w, status, hg, hm, hr, _, rfl, _⟩
  · exact hs
  · exact fun q => truthfulAt_world (hs q) (hm q)
  · exact truthful_setState hg hr fun q _ => truthfulAt_world (hs q) (hm q)

/-- After `thread_stop` the task does not run, and is gone if `errno` says so. -/
theorem refused_of_stop (hk : k.Honest) (h : StopOutcome k s p s' rv)
    (hs : (s.thread p).state.settled = true → k.task s.world (s.thread p).pid ≠ .running) :
    k.task s'.world (s.thread p).pid ≠ .running ∧
      (rv ≠ 0 → s'.errno = .ECHILD → k.task s'.world (s.thread p).pid = .gone) := by
  rcases h with ⟨hset, rfl, rfl⟩ | ⟨w, e, _, hr, rfl, rfl⟩ | ⟨w, status, _, _, hr, hstop, rfl, rfl⟩
  · exact ⟨hs hset, fun hne => absurd rfl hne⟩
  · exact ⟨(hr hk).1, fun _ => (hr hk).2⟩
  · exact ⟨hr.not_running (by simp [Status.settled, hstop]), fun hne => absurd rfl hne⟩

theorem find?_erase_of_neg {α : Type*} [DecidableEq α] {f : α → Bool} {a : α} (h : f a = false)
    (l : List α) : (l.erase a).find? f = l.find? f := by
  induction l with
  | nil => rfl
  | cons b l ih =>
    by_cases hb : b = a
    · subst b
      rw [List.erase_cons_head, List.find?_cons_of_neg (by simp [h])]
    · rw [List.erase_cons_tail (by simpa using hb), List.find?_cons, List.find?_cons, ih]

/-- Deleting a thread that is gone leaves no other record untruthful. -/
theorem truthful_delete (hgone : k.task s.world (s.thread p).pid = .gone) (hs : s.Truthful k) :
    (s.threadDelete p).Truthful k := by
  intro q
  by_cases hq : (s.thread p).pid = q
  · subst q
    intro _ _ _ hrun
    cases hgone.symm.trans hrun
  · intro p' hp' hset
    have hfind := find?_erase_of_neg (f := fun p => (s.thread p).pid == q) (a := p)
      (beq_false_of_ne hq) s.threads
    exact hs q p' (hfind.symm.trans hp') hset

theorem not_mem_split {kept rest : List ThreadPtr} (ht : s.threads = kept ++ p :: rest)
    (hnodup : s.threads.Nodup) : p ∉ kept ∧ p ∉ rest := by
  rw [ht, List.nodup_middle] at hnodup
  exact not_or.mp (List.mem_append.not.mp (List.nodup_cons.mp hnodup).1)

theorem threadDelete_threads {kept rest : List ThreadPtr} (ht : s.threads = kept ++ p :: rest)
    (hnodup : s.threads.Nodup) : (s.threadDelete p).threads = kept ++ rest := by
  rw [threadDelete, ht, List.erase_append_right _ (not_mem_split ht hnodup).1,
    List.erase_cons_head]

/-- What `thread_all_stop` is for. -/
structure AllStopped (k : Kernel ω) (s s' : Threads ω) : Prop where
  later : s.Later k s'
  truthful : s'.Truthful k
  nodup : s'.threads.Nodup
  still : ∀ p ∈ s'.threads, k.task s'.world (s'.thread p).pid ≠ .running
  gone : ∀ p ∈ s.threads, p ∉ s'.threads → k.task s'.world (s.thread p).pid = .gone

/-- The record of the thread at the head, or one that the loop has passed, speaks for its task. -/
theorem not_running_of_settled {kept rest : List ThreadPtr} (ht : s.threads = kept ++ p :: rest)
    (hs : s.Truthful k) (hkept : ∀ q ∈ kept, k.task s.world (s.thread q).pid ≠ .running)
    (hset : (s.thread p).state.settled = true) :
    k.task s.world (s.thread p).pid ≠ .running := by
  have hfind : s.threadGetByPid (s.thread p).pid =
      (kept.find? fun q => (s.thread q).pid == (s.thread p).pid).or (some p) := by
    rw [threadGetByPid, ht, List.find?_append, List.find?_cons_of_pos (by simp)]
  cases hq : kept.find? fun q => (s.thread q).pid == (s.thread p).pid with
  | none =>
    rw [hq] at hfind
    exact hs _ p hfind hset
  | some q =>
    have hpid : (s.thread q).pid = (s.thread p).pid := eq_of_beq (List.find?_some hq :)
    rw [← hpid]
    exact hkept q (List.mem_of_find?_eq_some hq)

theorem allStopLoop_spec (hk : k.Honest) {rest : List ThreadPtr} :
    ∀ {kept : List ThreadPtr} {s : Threads ω}, s.threads = kept ++ rest → s.threads.Nodup →
      s.Truthful k → (∀ p ∈ kept, k.task s.world (s.thread p).pid ≠ .running) →
      allStopLoop k n rest s = .ok (s', rv) → s.AllStopped k s' := by
  induction rest with
  | nil =>
    intro kept s ht hnodup hs hkept h
    cases h
    rw [List.append_nil] at ht
    refine ⟨Later.refl k _, hs, hnodup, ?_, fun p hp hn => absurd hp hn⟩
    rw [ht]
    exact hkept
  | cons p rest ih =>
    intro kept s ht hnodup hs hkept h
    obtain ⟨⟨s₁, rv₁⟩, hstop, h⟩ := bind_ok h
    have hp : p ∈ s.threads := by
      rw [ht]
      exact List.mem_append_right kept List.mem_cons_self
    have hout := stop_cases hp hstop
    have hlater := later_of_stop hout
    have hthreads := threads_of_stop hout
    have hs₁ := truthful_stop hout hs
    obtain ⟨hstill, hgone⟩ := refused_of_stop hk hout (not_running_of_settled ht hs hkept)
    rw [← hlater.pid p] at hstill hgone
    have hkept₁ : ∀ q ∈ kept, k.task s₁.world (s₁.thread q).pid ≠ .running := by
      intro q hq
      rw [hlater.pid q]
      exact (hlater.moves _).not_running (hkept q hq)
    -- the thread stays on the list
    have hstays : allStopLoop k n rest s₁ = .ok (s', rv) → s.AllStopped k s' := by
      intro h
      have hsplit : s₁.threads = (kept ++ [p]) ++ rest := by simp [hthreads, ht]
      have hall := ih hsplit (hthreads ▸ hnodup) hs₁ ?_ h
      · refine ⟨hlater.trans hall.later, hall.truthful, hall.nodup, hall.still, ?_⟩
        intro q hq hn
        rw [← hlater.pid q]
        exact hall.gone q (hthreads ▸ hq) hn
      · intro q hq
        rcases List.mem_append.mp hq with hq | hq
        · exact hkept₁ q hq
        · rw [List.mem_singleton.mp hq]
          exact hstill
    dsimp only at h
    split at h
    · exact hstays h
    split at h
    · rename_i hrv hchild
      have hgone := hgone hrv hchild
      have herase := threadDelete_threads (hthreads.trans ht) (hthreads ▸ hnodup)
      have hnodup₁ : (s₁.threadDelete p).threads.Nodup := (hthreads ▸ hnodup).erase p
      have hall := ih herase hnodup₁ (truthful_delete hgone hs₁) hkept₁ h
      have hlater' : s.Later k s' := hlater.trans ⟨hall.later.moves, hall.later.pid⟩
      refine ⟨hlater', hall.truthful, hall.nodup, hall.still, ?_⟩
      intro q hq hn
      rw [← hlater.pid q]
      by_cases hqp : q = p
      · subst q
        have hmoves := hall.later.moves (s₁.thread p).pid
        rw [show k.task (s₁.threadDelete p).world (s₁.thread p).pid = .gone from hgone] at hmoves
        exact hmoves.gone
      · refine hall.gone q ?_ hn
        rw [threadDelete, hthreads]
        exact (List.mem_erase_of_ne hqp).mpr hq
    · exact hstays h

theorem allStop_spec (hk : k.Honest) (hnodup : s.threads.Nodup) (hs : s.Truthful k)
    (h : s.threadAllStop k n = .ok (s', rv)) : s.AllStopped k s' :=
  allStopLoop_spec hk (List.nil_append s.threads).symm hnodup hs (by simp) h

theorem run_cases (hk : k.Honest) (h : s.threadRun k n p = .ok (s', rv)) (hs : s.Truthful k) :
    s'.Truthful k ∧ s'.threads = s.threads := by
  unfold threadRun at h
  split at h
  · cases h
    exact ⟨hs, rfl⟩
  split at h
  · cases h
    exact ⟨hs, rfl⟩
  have hmoves := k.cont_moves s.world (s.thread p).pid
  split at h
  · rename_i w e hcont
    cases h
    rw [hcont] at hmoves
    exact ⟨fun q => truthfulAt_world (hs q) (hmoves q (Or.inr nofun)), rfl⟩
  · rename_i w hcont
    rw [hcont] at hmoves
    obtain ⟨⟨s₁, curr⟩, hwait, h⟩ := bind_ok h
    have hout := wait_cases hwait
    -- the record of the thread that runs is not truthful until the wait has returned
    have hs₁ : s₁.Truthful k := truthful_wait hk hout fun q hq =>
      truthfulAt_world (e := s.errno) (hs q) (hmoves q (Or.inl hq))
    have hthreads := threads_of_wait hout
    dsimp only at h
    split at h
    · cases h
      exact ⟨hs₁, hthreads⟩
    split at h
    · cases h
      exact ⟨hs₁, hthreads⟩
    · cases h

theorem truthful_add (hp : p ∉ s.threads) (hs : s.Truthful k)
    (hadd : status.settled = true → k.task s.world pid ≠ .running) :
    (s.threadAdd p pid status).Truthful k := by
  have hthread : ∀ q, (s.threadAdd p pid status).thread q =
      if q = p then ⟨pid, status⟩ else s.thread q := fun q => Function.update_apply ..
  have hold : ∀ q ∈ s.threads, (s.threadAdd p pid status).thread q = s.thread q := by
    intro q hq
    rw [hthread, if_neg]
    rintro rfl
    exact hp hq
  intro q p' hg hset
  have hfind : s.threads.find? (fun r => ((s.threadAdd p pid status).thread r).pid == q) =
      s.threadGetByPid q := List.find?_congr fun r hr => by rw [hold r hr]
  have hg' : (s.threadGetByPid q).or ([p].find? fun r =>
      ((s.threadAdd p pid status).thread r).pid == q) = some p' := by
    rw [← hfind, ← List.find?_append]
    exact hg
  cases hq : s.threadGetByPid q with
  | some r =>
    rw [hq] at hg'
    obtain rfl := Option.some.inj hg'
    rw [hold r (List.mem_of_find?_eq_some hq)] at hset
    exact hs q r hq hset
  | none =>
    rw [hq, Option.none_or] at hg'
    obtain rfl := List.mem_singleton.mp (List.mem_of_find?_eq_some hg')
    have hpid := eq_of_beq (List.find?_some hg' :)
    rw [hthread, if_pos rfl] at hset hpid
    obtain rfl : pid = q := hpid
    exact hadd hset

/-- A thread is added with a status that does not take a running task for another. -/
def AddsTruthfully (k : Kernel ω) (s : Threads ω) : ThreadCall ω → Prop
  | .add _ pid state => state.settled = true → k.task s.world pid ≠ .running
  | _ => True

theorem truthful_step {c : ThreadCall ω} (hk : k.Honest) (h : ThreadStep k s c s')
    (hq : s.AddsTruthfully k c) (hi : s.Truthful k ∧ s.threads.Nodup) :
    s'.Truthful k ∧ s'.threads.Nodup := by
  obtain ⟨hs, hnodup⟩ := hi
  cases h with
  | add hp =>
    refine ⟨truthful_add hp hs hq, ?_⟩
    exact hnodup.append (List.nodup_singleton _) (by simpa using hp)
  | run hp h =>
    obtain ⟨hs', hthreads⟩ := run_cases hk h hs
    exact ⟨hs', hthreads ▸ hnodup⟩
  | wait h =>
    have hout := wait_cases h
    exact ⟨truthful_wait hk hout fun q _ => hs q, threads_of_wait hout ▸ hnodup⟩
  | allStop h =>
    have hall := allStop_spec hk hnodup hs h
    exact ⟨hall.truthful, hall.nodup⟩
  | time h => exact ⟨fun q => truthfulAt_world (hs q) (h q), hnodup⟩

/-- If `kill` and `waitpid` fail for good reason only, and no thread is added as exited or stopped
while it runs, then after `thread_all_stop` no thread of the list runs, and the threads it has
deleted are gone. -/
theorem threadAllStop_sound (hk : k.Honest) {calls : List (Threads ω × ThreadCall ω)}
    {s₀ : Threads ω} (h : Run (Traced (ThreadStep k)) s₀ calls s) (h₀ : s₀.threads = [])
    (hq : ∀ l ∈ calls, l.1.AddsTruthfully k l.2) (hstop : s.threadAllStop k n = .ok (s', 0)) :
    (∀ p ∈ s'.threads, k.task s'.world (s'.thread p).pid ≠ .running) ∧
      ∀ p ∈ s.threads, p ∉ s'.threads → k.task s'.world (s.thread p).pid = .gone := by
  have hinit : s₀.Truthful k ∧ s₀.threads.Nodup := by
    refine ⟨?_, h₀ ▸ List.nodup_nil⟩
    intro pid p hp
    rw [threadGetByPid, h₀] at hp
    cases hp
  obtain ⟨hs, hnodup⟩ : s.Truthful k ∧ s.threads.Nodup := by
    refine h.inv_of_labels (P := fun s => s.Truthful k ∧ s.threads.Nodup) ?_ hq hinit
    rintro t ⟨_, c⟩ u ⟨rfl, hstep⟩ hq hi
    exact truthful_step hk hstep hq hi
  have hall := allStop_spec hk hnodup hs hstop
  exact ⟨hall.still, hall.gone⟩

/-- A kernel in which nothing happens by itself and `SIGTRAP` stops a task at once. -/
def plainKernel : Kernel (Pid → Task) where
  task w := w
  kill w pid := if w pid = .gone then (w, some .ESRCH) else (w, none)
  cont w pid :=
    if w pid = .gone then (w, some .ESRCH) else (Function.update w pid .running, none)
  waitpid w pid option :=
    match w pid, option with
    | .gone, _ => (w, .error .ECHILD)
    | .running, true => (w, .ok 0xffff)
    | _, _ => (Function.update w pid .stopped, .ok 0x57f)
  kill_moves w pid q := by
    split <;> exact Task.Moves.refl _
  cont_moves w pid q hq := by
    by_cases hgone : w pid = .gone
    · simp only [if_pos hgone]
      exact Task.Moves.refl _
    · simp only [if_neg hgone] at hq ⊢
      rw [Function.update_of_ne (hq.resolve_right fun h => h rfl)]
      exact Task.Moves.refl _
  waitpid_moves w pid option q := by
    by_cases hq : q = pid
    · subst q
      cases h : w pid <;> cases option <;> simp [h, Task.Moves]
    · cases h : w pid <;> cases option <;> simp [hq, Task.Moves.refl]
  waitpid_reports w pid option status := by
    cases h : w pid <;> cases option <;> simp only [reduceCtorEq, false_imp_iff, Except.ok.injEq] <;>
      rintro rfl <;> simp +decide [Task.Reported]

theorem honest_plainKernel : plainKernel.Honest := by
  constructor
  · intro w pid e h
    by_cases hgone : w pid = .gone
    · simp [plainKernel, hgone, Task.Refused]
    · simp [plainKernel, hgone] at h
  · intro w pid option e _ h
    cases hw : w pid <;> cases option <;> simp_all [plainKernel, Task.Refused]

/-- The leader at its first stop, its wait status recorded. -/
def leaderOnly : Threads (Pid → Task) where
  threads := []
  thread _ := ⟨0, 0⟩
  errno := .ESRCH
  world := Function.update (fun _ => .running) 100 .stopped

/-- A continued thread whose wait reports it. -/
theorem run_returns (hexit : (s.thread p).state.WIFEXITED = false)
    (hcont : (s.thread p).state.WIFCONTINUED = false)
    (hw : k.cont s.world (s.thread p).pid = (w, none))
    (hwait : { s with world := w }.threadWait k n (s.thread p).pid true = .ok (s', some q))
    (hs' : (s'.thread p).state.WIFCONTINUED = true) : s.threadRun k n p = .ok (s', 0) := by
  simp only [threadRun, hexit, hcont, hw, hwait, ok_bind, hs', Bool.false_eq_true, if_false,
    reduceCtorEq, if_true]
  rfl

def leaderAdded : Threads (Pid → Task) := leaderOnly.threadAdd 0 100 0x57f

def leaderContinued : Threads (Pid → Task) :=
  { leaderAdded with world := Function.update leaderAdded.world 100 .running }.setState 0 0xffff

def leaderStopped : Threads (Pid → Task) :=
  { leaderContinued with world := Function.update leaderContinued.world 100 .stopped }.setState 0
    0x57f

/-- Two clones have been continued and reported it. -/
def clonesAdded : Threads (Pid → Task) :=
  (leaderContinued.threadAdd 1 101 0xffff).threadAdd 2 102 0xffff

/-- The second clone has gone since. -/
def cloneGone : Threads (Pid → Task) :=
  { clonesAdded with world := Function.update clonesAdded.world 102 .gone }

/-- The leader and a clone run, another clone has gone: the first two are stopped, the last one is
taken off the list. -/
theorem threadAllStop_sound_clones :
    ∃ calls s', Run (Traced (ThreadStep plainKernel)) leaderOnly calls cloneGone ∧
      plainKernel.task cloneGone.world 100 = .running ∧
      plainKernel.task cloneGone.world 101 = .running ∧
      cloneGone.threadAllStop plainKernel 1 = .ok (s', 0) ∧ s'.threads = [0, 1] ∧
      (∀ p ∈ s'.threads, plainKernel.task s'.world (s'.thread p).pid ≠ .running) ∧
      plainKernel.task s'.world 102 = .gone := by
  have hadd : ThreadStep plainKernel leaderOnly (.add 0 100 0x57f) leaderAdded := .add (by decide)
  have hwait : { leaderAdded with world := Function.update leaderAdded.world 100 .running }.threadWait
    plainKernel 1 100 true = .ok (leaderContinued, some 0) := rfl
  have hrun : ThreadStep plainKernel leaderAdded (.run 1 0) leaderContinued :=
    .run (by decide) (run_returns (by rfl) (by rfl) (by rfl) hwait (by rfl))
  have hfirst : ThreadStep plainKernel leaderContinued (.add 1 101 0xffff)
      (leaderContinued.threadAdd 1 101 0xffff) := .add (by decide)
  have hsecond : ThreadStep plainKernel (leaderContinued.threadAdd 1 101 0xffff)
      (.add 2 102 0xffff) clonesAdded := .add (by decide)
  have htime : ThreadStep plainKernel clonesAdded (.time cloneGone.world) cloneGone := by
    apply ThreadStep.time
    intro pid
    by_cases hpid : pid = 102
    · subst pid
      exact trivial
    · have hsame : cloneGone.world pid = clonesAdded.world pid := Function.update_of_ne hpid ..
      change Task.Moves _ (cloneGone.world pid)
      rw [hsame]
      exact Task.Moves.refl _
  have h : Run (Traced (ThreadStep plainKernel)) leaderOnly
      [(leaderOnly, .add 0 100 0x57f), (leaderAdded, .run 1 0), (leaderContinued, .add 1 101 0xffff),
        (leaderContinued.threadAdd 1 101 0xffff, .add 2 102 0xffff),
        (clonesAdded, .time cloneGone.world)] cloneGone :=
    .stepL ⟨rfl, hadd⟩ (.stepL ⟨rfl, hrun⟩ (.stepL ⟨rfl, hfirst⟩ (.stepL ⟨rfl, hsecond⟩
      (.stepL ⟨rfl, htime⟩ .refl))))
  -- the leader is added at a stop, the clones with a status that says nothing
  have hleader : leaderOnly.AddsTruthfully plainKernel (.add 0 100 0x57f) := fun _ => by decide
  have hclone (s : Threads (Pid → Task)) (p : ThreadPtr) (pid : Pid) :
      s.AddsTruthfully plainKernel (.add p pid 0xffff) := by
    intro hset
    exact absurd hset (by decide)
  obtain ⟨s', hstop, hthreads⟩ : ∃ s', cloneGone.threadAllStop plainKernel 1 = .ok (s', 0) ∧
      s'.threads = [0, 1] := ⟨_, rfl, rfl⟩
  obtain ⟨hstill, hgone⟩ := threadAllStop_sound honest_plainKernel h rfl
    (List.forall_mem_cons.mpr ⟨hleader, List.forall_mem_cons.mpr ⟨trivial,
      List.forall_mem_cons.mpr ⟨hclone _ 1 101, List.forall_mem_cons.mpr ⟨hclone _ 2 102,
        List.forall_mem_singleton.mpr trivial⟩⟩⟩⟩) hstop
  exact ⟨_, s', h, rfl, rfl, hstop, hthreads, hstill,
    hgone 2 (by decide) (by rw [hthreads]; decide)⟩

/-- A cloned thread runs on after `thread_all_stop`: the state 0 that it is added with is taken for
an exit. -/
theorem threadAllStop_skips_clone : ∃ (calls : List (ThreadCall (Pid → Task)))
    (s s' : Threads (Pid → Task)), Run (ThreadStep plainKernel) leaderOnly calls s ∧
      s.threadAllStop plainKernel 1 = .ok (s', 0) ∧ 1 ∈ s'.threads ∧
      plainKernel.task s'.world (s'.thread 1).pid = .running := by
  refine ⟨[.add 0 100 0x57f, .add 1 101 0], _, _, .stepL (.add (by decide))
    (.stepL (.add (by decide)) .refl), rfl, ?_, ?_⟩
  · decide
  · rfl

end Threads

end Atrace.Ptrace

import Atrace.Lib.Calls
import Atrace.Ptrace.RunAll

/-! Runs of the calls of `src/thread.c`, on the plain list and on the links. -/
namespace Atrace.Ptrace

open Atrace.Lib

/-- The loops of `thread_all_run` and `thread_all_stop`, over a plain list. -/
def Threads.forEach {ω : Type} (op : ThreadOp ω) :
    List ThreadPtr → Threads ω → Except NoReturn (Threads ω)
  | [], s => .ok s
  | p :: ps, s => do
    let (s, rv) ← op s p
    if rv = 0 then forEach op ps s
    else if s.errno = .ECHILD then forEach op ps (s.threadDelete p)
    else forEach op ps s

/-- The call, made on the threads of a list in turn, finds every one of them. -/
def FindsAll {ω : Type} (op : ThreadOp ω) : List ThreadPtr → Threads ω → Prop
  | [], _ => True
  | p :: ps, s => ∀ t rv, op s p = .ok (t, rv) → (rv = 0 ∨ t.errno ≠ .ECHILD) ∧ FindsAll op ps t

/-- The calls of `thread.h` on the list, and the time that passes between two of them. -/
inductive ListCall (ω : Type) where
  | add (p : ThreadPtr) (pid : Pid) (state : Status)
  | delete (p : ThreadPtr)
  | find (pid : Pid)
  | wait (n : Nat) (pid : Pid) (option : Bool)
  | stop (n : Nat) (p : ThreadPtr)
  | run (n : Nat) (p : ThreadPtr)
  | allStop (n : Nat)
  | allRun (n : Nat)
  | time (w : ω)

inductive ListAnswer where
  | thread (p : Option ThreadPtr)
  | code (rv : Int)
  | nothing
deriving DecidableEq, Repr

/-- The loop of `thread_all_stop`, with the code that it returns. -/
theorem Threads.allStopLoop_eq {ω : Type} (k : Kernel ω) (n : Nat) (ps : List ThreadPtr)
    (s : Threads ω) : allStopLoop k n ps s = (forEach (threadStop k n) ps s).map (·, 0) := by
  induction ps generalizing s with
  | nil => rfl
  | cons p ps ih =>
    rw [allStopLoop, forEach]
    cases s.threadStop k n p with
    | error e => rfl
    | ok r =>
      simp only [Signal.ok_bind, ih]
      split
      · rfl
      · split <;> rfl

namespace Threads

variable {ω : Type} (k : Kernel ω) (s : Threads ω)

/-- `thread_all_run`, on a plain list that it can delete from while it goes along it. -/
def threadAllRun (n : Nat) : Except NoReturn (Threads ω × Int) :=
  (forEach (threadRun k n) s.threads s).map (·, 0)

/-- `calloc` returns memory that is not in use, a thread that is handed over is on the list, and
`thread_all_run` finds every thread. -/
def Legal : ListCall ω → Prop
  | .add p _ _ => p ∉ s.threads
  | .delete p => p ∈ s.threads
  | .stop _ p => p ∈ s.threads
  | .run _ p => p ∈ s.threads
  | .allRun n => FindsAll (threadRun k n) s.threads s
  | _ => True

def call : ListCall ω → Except NoReturn (Threads ω × ListAnswer)
  | .add p pid state => .ok (s.threadAdd p pid state, .thread (some p))
  | .delete p => .ok (s.threadDelete p, .nothing)
  | .find pid => .ok (s, .thread (s.threadGetByPid pid))
  | .wait n pid option => (s.threadWait k n pid option).map fun r => (r.1, .thread r.2)
  | .stop n p => (s.threadStop k n p).map fun r => (r.1, .code r.2)
  | .run n p => (s.threadRun k n p).map fun r => (r.1, .code r.2)
  | .allStop n => (s.threadAllStop k n).map fun r => (r.1, .code r.2)
  | .allRun n => (s.threadAllRun k n).map fun r => (r.1, .code r.2)
  | .time w => .ok ({ s with world := w }, .nothing)

end Threads

/-- `thread_run` or `thread_stop`, on the links -/
abbrev LinkOp (ω : Type) := LinkedThreads ω → ThreadPtr → Except WalkFault (LinkedThreads ω × Int)

/-! The same calls with every look at the list made on its links. -/
namespace OnLinks

variable {ω : Type} (k : Kernel ω) (n fuel : Nat) (s : LinkedThreads ω)

/-- The walk of `thread_get_by_pid`, from the entry `pos` on. -/
def findLoop (s : LinkedThreads ω) (pid : Pid) : Nat → ListPtr → Except WalkFault (Option ThreadPtr)
  | 0, _ => .error .unfinished
  | _ + 1, .head => .ok none
  | fuel + 1, .entry p =>
    if (s.thread p).pid ≠ pid then findLoop s pid fuel (s.links.next (.entry p)) else .ok (some p)
  | _ + 1, _ => .error .badAccess

def threadGetByPid (pid : Pid) : Except WalkFault (Option ThreadPtr) :=
  findLoop s pid fuel (s.links.next .head)

def threadWait (pid : Pid) (option : Bool) :
    Except WalkFault (LinkedThreads ω × Option ThreadPtr) := do
  match ← threadGetByPid fuel s pid with
  | none => .ok ({ s with errno := .ECHILD }, none)
  | some p =>
    match Threads.waitLoop k pid option n s.world with
    | .error e => .error (.call e)
    | .ok (w, .error e) => .ok ({ s with world := w, errno := e }, none)
    | .ok (w, .ok status) =>
      .ok ({ s with toThreads := { s.toThreads with world := w }.setState p status }, some p)

def threadStop (p : ThreadPtr) : Except WalkFault (LinkedThreads ω × Int) :=
  if (s.thread p).state.WIFEXITED then .ok (s, 0)
  else if (s.thread p).state.WIFSTOPPED then .ok (s, 0)
  else
    match k.kill s.world (s.thread p).pid with
    | (w, some e) => .ok ({ s with world := w, errno := Threads.childErrno e }, -1)
    | (w, none) => do
      let (s, curr) ← threadWait k n fuel { s with world := w } (s.thread p).pid false
      if curr = none then pure (s, -1)
      else if (s.thread p).state.WIFSTOPPED then pure (s, 0)
      else .error (.call .assertion)

def threadRun (p : ThreadPtr) : Except WalkFault (LinkedThreads ω × Int) :=
  if (s.thread p).state.WIFEXITED then .ok (s, 0)
  else if (s.thread p).state.WIFCONTINUED then .ok (s, 0)
  else
    match k.cont s.world (s.thread p).pid with
    | (w, some e) => .ok ({ s with world := w, errno := Threads.childErrno e }, -1)
    | (w, none) => do
      let (s, curr) ← threadWait k n fuel { s with world := w } (s.thread p).pid true
      if curr = none then pure (s, -1)
      else if (s.thread p).state.WIFCONTINUED then pure (s, 0)
      else .error (.call .assertion)

/-- The body of the loops of `thread_all_run` and `thread_all_stop`. -/
def visit (op : LinkOp ω) (p : ThreadPtr) : Except WalkFault (LinkedThreads ω) := do
  let (s, rv) ← op s p
  if rv = 0 then pure s
  else if s.errno = .ECHILD then pure (s.threadDelete p)
  else pure s

/-- `list_for_each_entry`, from the entry `pos` on. -/
def forEachEntry (op : LinkOp ω) :
    Nat → ListPtr → LinkedThreads ω → Except WalkFault (LinkedThreads ω)
  | 0, _, _ => .error .unfinished
  | _ + 1, .head, s => .ok s
  | fuel + 1, .entry p, s => do
    let s ← visit s op p
    forEachEntry op fuel (s.links.next (.entry p)) s
  | _ + 1, _, _ => .error .badAccess

/-- `list_for_each_entry_safe`, from the entry `pos` on, with the one behind it in `tmp`. -/
def forEachEntrySafe (op : LinkOp ω) :
    Nat → ListPtr → ListPtr → LinkedThreads ω → Except WalkFault (LinkedThreads ω)
  | 0, _, _, _ => .error .unfinished
  | _ + 1, .head, _, s => .ok s
  | fuel + 1, .entry p, tmp, s => do
    let s ← visit s op p
    let next ← LinkedThreads.follow s.links tmp
    forEachEntrySafe op fuel tmp next s
  | _ + 1, _, _, _ => .error .badAccess

def threadAllStop : Except WalkFault (LinkedThreads ω × Int) := do
  let pos := s.links.next .head
  let tmp ← LinkedThreads.follow s.links pos
  let s ← forEachEntrySafe (threadStop k n fuel) fuel pos tmp s
  pure (s, 0)

def threadAllRun : Except WalkFault (LinkedThreads ω × Int) := do
  let s ← forEachEntry (threadRun k n fuel) fuel (s.links.next .head) s
  pure (s, 0)

def call : ListCall ω → Except WalkFault (LinkedThreads ω × ListAnswer)
  | .add p pid state => .ok (s.threadAdd p pid state, .thread (some p))
  | .delete p => .ok (s.threadDelete p, .nothing)
  | .find pid => (threadGetByPid fuel s pid).map fun r => (s, .thread r)
  | .wait n pid option => (threadWait k n fuel s pid option).map fun r => (r.1, .thread r.2)
  | .stop n p => (threadStop k n fuel s p).map fun r => (r.1, .code r.2)
  | .run n p => (threadRun k n fuel s p).map fun r => (r.1, .code r.2)
  | .allStop n => (threadAllStop k n fuel s).map fun r => (r.1, .code r.2)
  | .allRun n => (threadAllRun k n fuel s).map fun r => (r.1, .code r.2)
  | .time w => .ok ({ s with world := w }, .nothing)

/-- The links hold the threads of the list, which is the one of the level above and has at most `m`
of them. -/
structure Holds (m : Nat) (s : LinkedThreads ω) (t : Threads ω) : Prop where
  onList : s.OnList
  threads : s.toThreads = t
  short : t.threads.length ≤ m

variable {k : Kernel ω} {m n fuel : Nat} {s : LinkedThreads ω} {t : Threads ω} {p : ThreadPtr}
  {pid : Pid} {option : Bool} {kept rest : List ThreadPtr} {a : ListPtr}

/-- The walk looks at the threads in turn. -/
theorem findLoop_path (h : s.links.Path a (rest.map .entry) .head) (hfuel : rest.length < fuel) :
    findLoop s pid fuel (s.links.next a) =
      .ok (rest.find? fun p => (s.thread p).pid == pid) := by
  induction rest generalizing a fuel with
  | nil =>
    obtain ⟨fuel, rfl⟩ := Nat.exists_eq_succ_of_ne_zero (Nat.ne_of_gt hfuel)
    rw [show s.links.next a = .head from h.next]
    rfl
  | cons p rest ih =>
    obtain ⟨fuel, rfl⟩ := Nat.exists_eq_succ_of_ne_zero (Nat.ne_of_gt (Nat.zero_lt_of_lt hfuel))
    simp only [List.length_cons] at hfuel
    have hrest := ih h.2 (show rest.length < fuel by omega)
    rw [h.1.next]
    by_cases hpid : (s.thread p).pid = pid
    · simp [findLoop, hpid]
    · simp [findLoop, hpid, hrest]

theorem get_eq (hm : m < fuel) (h : Holds m s t) :
    threadGetByPid fuel s pid = .ok (t.threadGetByPid pid) := by
  have hshort := Nat.lt_of_le_of_lt h.short hm
  rw [← h.threads] at hshort ⊢
  exact findLoop_path h.onList.path hshort

theorem Holds.setThreads {u : Threads ω} (h : Holds m s t) (hu : u.threads = t.threads) :
    Holds m { s with toThreads := u } u := by
  refine ⟨h.onList.setThreads (hu.trans (congrArg _ h.threads.symm)), rfl, ?_⟩
  rw [hu]
  exact h.short

/-- Both levels after a call that keeps the list and its links. -/
abbrev Keeps (m : Nat) (s : LinkedThreads ω) (t : Threads ω) (s' : LinkedThreads ω)
    (t' : Threads ω) : Prop :=
  Holds m s' t' ∧ t'.threads = t.threads ∧ s'.links = s.links

theorem wait_agrees (hm : m < fuel) (h : Holds m s t) :
    Calls.Agrees (Keeps m s t) .call (threadWait k n fuel s pid option)
      (t.threadWait k n pid option) := by
  rw [threadWait, get_eq hm h, Threads.threadWait]
  obtain rfl := h.threads
  cases s.toThreads.threadGetByPid pid with
  | none => exact ⟨_, rfl, h.setThreads rfl, rfl, rfl⟩
  | some p =>
    simp only [Signal.ok_bind]
    cases Threads.waitLoop k pid option n s.world with
    | error e => rfl
    | ok r =>
      obtain ⟨w, r⟩ := r
      cases r with
      | error e => exact ⟨_, rfl, h.setThreads rfl, rfl, rfl⟩
      | ok status => exact ⟨_, rfl, h.setThreads rfl, rfl, rfl⟩

/-- The two levels agree on a call on one thread. -/
def OpAgrees (m : Nat) (op' : LinkOp ω) (op : ThreadOp ω) : Prop :=
  ∀ s t p, Holds m s t → Calls.Agrees (Keeps m s t) .call (op' s p) (op t p)

/-- The end of `thread_stop` and of `thread_run`: the wait, and the assertion about its status. -/
theorem wait_asserts (hm : m < fuel) (h : Holds m s t) (n : Nat) (pid : Pid) (option : Bool)
    (p : ThreadPtr) (w : ω) (isState : Status → Bool) :
    Calls.Agrees (Keeps m s t) .call
      (do
        let (s, curr) ← threadWait k n fuel { s with world := w } pid option
        if curr = none then pure (s, (-1 : Int))
        else if isState (s.thread p).state then pure (s, 0)
        else .error (.call .assertion))
      (do
        let (t, curr) ← { t with world := w }.threadWait k n pid option
        if curr = none then pure (t, (-1 : Int))
        else if isState (t.thread p).state then pure (t, 0)
        else .error .assertion) := by
  obtain rfl := h.threads
  have hw : Holds m { s with world := w } { s.toThreads with world := w } := h.setThreads rfl
  refine (wait_agrees hm hw).bind ?_
  rintro s' t' curr - ⟨h', hkeep⟩
  obtain rfl := h'.threads
  dsimp only
  split
  · exact ⟨s', rfl, h', hkeep⟩
  split
  · exact ⟨s', rfl, h', hkeep⟩
  · rfl

theorem stop_agrees (k : Kernel ω) (n : Nat) (hm : m < fuel) :
    OpAgrees m (threadStop k n fuel) (Threads.threadStop k n) := by
  intro s t p h
  have hwait := fun w => wait_asserts (k := k) hm h n (t.thread p).pid false p w Status.WIFSTOPPED
  obtain rfl := h.threads
  rw [threadStop, Threads.threadStop]
  split
  · exact ⟨s, rfl, h, rfl, rfl⟩
  split
  · exact ⟨s, rfl, h, rfl, rfl⟩
  rcases k.kill s.world (s.thread p).pid with ⟨w, none | e⟩
  · exact hwait w
  · exact ⟨_, rfl, h.setThreads rfl, rfl, rfl⟩

theorem run_agrees (k : Kernel ω) (n : Nat) (hm : m < fuel) :
    OpAgrees m (threadRun k n fuel) (Threads.threadRun k n) := by
  intro s t p h
  have hwait := fun w => wait_asserts (k := k) hm h n (t.thread p).pid true p w Status.WIFCONTINUED
  obtain rfl := h.threads
  rw [threadRun, Threads.threadRun]
  split
  · exact ⟨s, rfl, h, rfl, rfl⟩
  split
  · exact ⟨s, rfl, h, rfl, rfl⟩
  rcases k.cont s.world (s.thread p).pid with ⟨w, none | e⟩
  · exact hwait w
  · exact ⟨_, rfl, h.setThreads rfl, rfl, rfl⟩

theorem holds_delete (h : Holds m s t) (ht : t.threads = kept ++ p :: rest) :
    Holds m (s.threadDelete p) (t.threadDelete p) ∧
      (t.threadDelete p).threads = kept ++ rest := by
  obtain rfl := h.threads
  have hdelete := Threads.threadDelete_threads ht h.onList.nodup
  have hshort := h.short
  refine ⟨⟨LinkedThreads.onList_delete h.onList ht, rfl, ?_⟩, hdelete⟩
  rw [ht] at hshort
  rw [hdelete]
  simp only [List.length_append, List.length_cons] at hshort ⊢
  omega

section Loops

variable {op : ThreadOp ω} {op' : LinkOp ω}

/-- The loop body on a thread and the first turn of the loop over the plain list. -/
theorem visit_agrees (hop : OpAgrees m op' op)
    (h : Holds m s t) (ht : t.threads = kept ++ p :: rest) :
    (∃ e, visit s op' p = .error (.call e) ∧ Threads.forEach op (p :: rest) t = .error e) ∨
    ∃ s' t' kept', visit s op' p = .ok s' ∧ Holds m s' t' ∧ t'.threads = kept' ++ rest ∧
      Threads.forEach op (p :: rest) t = Threads.forEach op rest t' ∧
      (t'.threads = t.threads ∨ s'.links.next (.entry p) = .LIST_POISON1) ∧
      (FindsAll op (p :: rest) t → t'.threads = t.threads ∧ FindsAll op rest t') := by
  have hcall := hop s t p h
  rw [visit, Threads.forEach]
  cases hr : op t p with
  | error e =>
    rw [hr] at hcall
    simp only [Calls.Agrees] at hcall
    rw [hcall]
    exact Or.inl ⟨e, rfl, rfl⟩
  | ok r =>
    obtain ⟨t', rv⟩ := r
    rw [hr] at hcall
    obtain ⟨s', hs', h', ht', _⟩ := hcall
    obtain rfl := h'.threads
    simp only [hs', Signal.ok_bind]
    have ht'' : s'.threads = kept ++ p :: rest := ht'.trans ht
    have hsplit : s'.threads = (kept ++ [p]) ++ rest := by simp [ht'']
    right
    by_cases hrv : rv = 0
    · refine ⟨s', _, _, if_pos hrv, h', hsplit, if_pos hrv, Or.inl ht', ?_⟩
      exact fun hall => ⟨ht', (hall _ _ hr).2⟩
    by_cases he : s'.errno = .ECHILD
    · obtain ⟨hdelete, hthreads⟩ := holds_delete h' ht''
      refine ⟨_, _, _, ?_, hdelete, hthreads, ?_, Or.inr (LinkedThreads.next_deleted s' p), ?_⟩
      · rw [if_neg hrv, if_pos he]
        rfl
      · rw [if_neg hrv, if_pos he]
      · intro hall
        exact absurd he ((hall _ _ hr).1.resolve_left hrv)
    · refine ⟨s', _, _, ?_, h', hsplit, ?_, Or.inl ht', ?_⟩
      · rw [if_neg hrv, if_neg he]
        rfl
      · rw [if_neg hrv, if_neg he]
      · exact fun hall => ⟨ht', (hall _ _ hr).2⟩

/-- The loop body with its events left out. -/
theorem visit_erase (hop : OpAgrees m op' op) (h : Holds m s t) (p : ThreadPtr) :
    visit s op' p = (s.visit op p).map Prod.fst := by
  have hcall := hop s t p h
  obtain rfl := h.threads
  rw [visit, LinkedThreads.visit]
  cases hr : op s.toThreads p with
  | error e =>
    rw [hr] at hcall
    simp only [Calls.Agrees] at hcall
    rw [hcall]
    rfl
  | ok r =>
    obtain ⟨t', rv⟩ := r
    rw [hr] at hcall
    obtain ⟨⟨t'', links⟩, hs', h', _, rfl⟩ := hcall
    obtain rfl := h'.threads
    simp only [hs', Signal.ok_bind]
    split
    · rfl
    · split <;> rfl

/-- The walk with its events left out, also from where it goes on at the poison value. -/
theorem forEachEntry_erase (hop : OpAgrees m op' op) (h : Holds m s t)
    (ht : t.threads = kept ++ rest) (steps : Nat) :
    forEachEntry op' steps (LinkedThreads.cursor rest) s =
      (LinkedThreads.forEachEntry op steps (LinkedThreads.cursor rest) s).map Prod.fst := by
  induction rest generalizing s t kept steps with
  | nil => cases steps <;> rfl
  | cons p rest ih =>
    cases steps with
    | zero => rfl
    | succ steps =>
      rw [show LinkedThreads.cursor (p :: rest) = .entry p from rfl, forEachEntry,
        LinkedThreads.forEachEntry]
      have hvisit := visit_erase hop h p
      cases hlog : s.visit op p with
      | error e =>
        rw [hlog] at hvisit
        rw [hvisit]
        rfl
      | ok r =>
        obtain ⟨s', events⟩ := r
        rw [hlog] at hvisit
        have hrest : forEachEntry op' steps (s'.links.next (.entry p)) s' =
            (LinkedThreads.forEachEntry op steps (s'.links.next (.entry p)) s').map Prod.fst := by
          rcases visit_agrees hop h ht with ⟨e, he, _⟩ | ⟨s'', t', kept', hs'', h', _, _, hnext, _⟩
          · cases he.symm.trans hvisit
          obtain rfl := Except.ok.inj (hs''.symm.trans hvisit)
          rcases hnext with hsame | hpoison
          · have ht' : t'.threads = (kept ++ [p]) ++ rest := by simp [hsame, ht]
            rw [LinkedThreads.next_entry h'.onList ((congrArg _ h'.threads).trans (hsame.trans ht))]
            exact ih h' ht' steps
          · rw [hpoison]
            cases steps <;> rfl
        rw [hvisit]
        simp only [Except.map, Signal.ok_bind, hrest]
        cases LinkedThreads.forEachEntry op steps (s'.links.next (.entry p)) s' <;> rfl

theorem forEachEntrySafe_erase (hop : OpAgrees m op' op) (h : Holds m s t)
    (ht : t.threads = kept ++ rest) (steps : Nat) :
    forEachEntrySafe op' steps (LinkedThreads.cursor rest)
        (s.links.next (LinkedThreads.cursor rest)) s =
      (LinkedThreads.forEachEntrySafe op steps (LinkedThreads.cursor rest)
        (s.links.next (LinkedThreads.cursor rest)) s).map Prod.fst := by
  induction rest generalizing s t kept steps with
  | nil => cases steps <;> rfl
  | cons p rest ih =>
    cases steps with
    | zero => rfl
    | succ steps =>
      have hnext : s.links.next (.entry p) = LinkedThreads.cursor rest :=
        LinkedThreads.next_entry h.onList ((congrArg _ h.threads).trans ht)
      rw [show LinkedThreads.cursor (p :: rest) = .entry p from rfl, hnext, forEachEntrySafe,
        LinkedThreads.forEachEntrySafe]
      have hvisit := visit_erase hop h p
      cases hlog : s.visit op p with
      | error e =>
        rw [hlog] at hvisit
        rw [hvisit]
        rfl
      | ok r =>
        obtain ⟨s', events⟩ := r
        rw [hlog] at hvisit
        rcases visit_agrees hop h ht with ⟨e, he, _⟩ | ⟨s'', t', kept', hs'', h', ht', _⟩
        · cases he.symm.trans hvisit
        obtain rfl := Except.ok.inj (hs''.symm.trans hvisit)
        rw [hvisit]
        simp only [Except.map, Signal.ok_bind, LinkedThreads.follow_cursor, ih h' ht' steps]
        cases LinkedThreads.forEachEntrySafe op steps (LinkedThreads.cursor rest)
          (s''.links.next (LinkedThreads.cursor rest)) s'' <;> rfl

/-- The walk that looks behind an entry before the call on it does what the loop over the list
does, whatever is deleted. -/
theorem forEachEntrySafe_agrees
    (hop : OpAgrees m op' op)
    (h : Holds m s t) (ht : t.threads = kept ++ rest) {steps : Nat} (hsteps : rest.length < steps) :
    Calls.Agrees (Holds m) .call
      ((forEachEntrySafe op' steps (LinkedThreads.cursor rest)
        (s.links.next (LinkedThreads.cursor rest)) s).map (·, (0 : Int)))
      ((Threads.forEach op rest t).map (·, 0)) := by
  induction rest generalizing s t kept steps with
  | nil =>
    obtain ⟨steps, rfl⟩ := Nat.exists_eq_succ_of_ne_zero (Nat.ne_of_gt hsteps)
    exact ⟨s, rfl, h⟩
  | cons p rest ih =>
    obtain ⟨steps, rfl⟩ := Nat.exists_eq_succ_of_ne_zero (Nat.ne_of_gt (Nat.zero_lt_of_lt hsteps))
    simp only [List.length_cons] at hsteps
    have hnext : s.links.next (.entry p) = LinkedThreads.cursor rest :=
      LinkedThreads.next_entry h.onList ((congrArg _ h.threads).trans ht)
    rw [show LinkedThreads.cursor (p :: rest) = .entry p from rfl, hnext, forEachEntrySafe]
    rcases visit_agrees hop h ht with ⟨e, hvisit, hloop⟩ | ⟨s', t', kept', hvisit, h', ht', hloop, _⟩
    · rw [hvisit, hloop]
      rfl
    · simp only [hvisit, hloop, Signal.ok_bind, LinkedThreads.follow_cursor]
      exact ih h' ht' (by omega)

/-- The walk that looks behind an entry after the call on it does so where no thread is deleted. -/
theorem forEachEntry_agrees
    (hop : OpAgrees m op' op)
    (h : Holds m s t) (ht : t.threads = kept ++ rest) (hall : FindsAll op rest t) {steps : Nat}
    (hsteps : rest.length < steps) :
    Calls.Agrees (Holds m) .call
      ((forEachEntry op' steps (LinkedThreads.cursor rest) s).map (·, (0 : Int)))
      ((Threads.forEach op rest t).map (·, 0)) := by
  induction rest generalizing s t kept steps with
  | nil =>
    obtain ⟨steps, rfl⟩ := Nat.exists_eq_succ_of_ne_zero (Nat.ne_of_gt hsteps)
    exact ⟨s, rfl, h⟩
  | cons p rest ih =>
    obtain ⟨steps, rfl⟩ := Nat.exists_eq_succ_of_ne_zero (Nat.ne_of_gt (Nat.zero_lt_of_lt hsteps))
    simp only [List.length_cons] at hsteps
    rw [show LinkedThreads.cursor (p :: rest) = .entry p from rfl, forEachEntry]
    rcases visit_agrees hop h ht with ⟨e, hvisit, hloop⟩ | ⟨s', t', _, hvisit, h', _, hloop, _, hkeep⟩
    · rw [hvisit, hloop]
      rfl
    · obtain ⟨hsame, hall'⟩ := hkeep hall
      have ht' := hsame.trans ht
      have hnext : s'.links.next (.entry p) = LinkedThreads.cursor rest :=
        LinkedThreads.next_entry h'.onList ((congrArg _ h'.threads).trans ht')
      simp only [hvisit, hloop, Signal.ok_bind, hnext]
      have hsplit : t'.threads = (kept ++ [p]) ++ rest := by simp [ht']
      exact ih h' hsplit hall' (by omega)

end Loops

theorem next_head (h : Holds m s t) : s.links.next .head = LinkedThreads.cursor t.threads := by
  rw [← h.threads]
  exact Links.Path.next_eq h.onList.path

theorem allStop_agrees (hm : m < fuel) (h : Holds m s t) :
    Calls.Agrees (Holds m) .call (threadAllStop k n fuel s) (t.threadAllStop k n) := by
  have hloop := forEachEntrySafe_agrees (stop_agrees k n hm) h (List.nil_append t.threads).symm
    (Nat.lt_of_le_of_lt h.short hm)
  rw [threadAllStop, Threads.threadAllStop, Threads.allStopLoop_eq]
  simp only [next_head h, LinkedThreads.follow_cursor, Signal.ok_bind, bind_pure_comp]
  exact hloop

theorem allRun_agrees (hm : m < fuel) (h : Holds m s t)
    (hall : FindsAll (Threads.threadRun k n) t.threads t) :
    Calls.Agrees (Holds m) .call (threadAllRun k n fuel s) (t.threadAllRun k n) := by
  have hloop := forEachEntry_agrees (run_agrees k n hm) h (List.nil_append t.threads).symm hall
    (Nat.lt_of_le_of_lt h.short hm)
  rw [threadAllRun, next_head h, bind_pure_comp]
  exact hloop

/-- `thread_all_stop` and `thread_all_run`, with the events of their walks left out: the look at the
links for the thread of a pid makes no difference, also where a walk ends at the poison value. -/
theorem threadAllStop_erase (hs : s.OnList) (hfuel : s.threads.length < fuel) :
    threadAllStop k n fuel s = (s.threadAllStop k n fuel).map fun r => (r.1, r.2.2) := by
  have h : Holds s.threads.length s s.toThreads := ⟨hs, rfl, Nat.le_refl _⟩
  have hloop := forEachEntrySafe_erase (stop_agrees k n hfuel) h (List.nil_append _).symm fuel
  rw [threadAllStop, LinkedThreads.threadAllStop]
  simp only [next_head h, LinkedThreads.follow_cursor, Signal.ok_bind, hloop]
  cases LinkedThreads.forEachEntrySafe (Threads.threadStop k n) fuel
    (LinkedThreads.cursor s.threads) (s.links.next (LinkedThreads.cursor s.threads)) s <;> rfl

theorem threadAllRun_erase (hs : s.OnList) (hfuel : s.threads.length < fuel) :
    threadAllRun k n fuel s = (s.threadAllRun k n fuel).map fun r => (r.1, r.2.2) := by
  have h : Holds s.threads.length s s.toThreads := ⟨hs, rfl, Nat.le_refl _⟩
  have hloop := forEachEntry_erase (run_agrees k n hfuel) h (List.nil_append _).symm fuel
  rw [threadAllRun, LinkedThreads.threadAllRun]
  simp only [next_head h, hloop]
  cases LinkedThreads.forEachEntry (Threads.threadRun k n) fuel
    (LinkedThreads.cursor s.threads) s <;> rfl

theorem Holds.mono (h : Holds m s t) {m' : Nat} (hm : m ≤ m') : Holds m' s t :=
  ⟨h.onList, h.threads, Nat.le_trans h.short hm⟩

theorem holds_add (h : Holds m s t) (hp : p ∉ t.threads) (state : Status) :
    Holds (m + 1) (s.threadAdd p pid state) (t.threadAdd p pid state) := by
  obtain rfl := h.threads
  refine ⟨LinkedThreads.onList_add h.onList hp, rfl, ?_⟩
  have hshort := h.short
  simp only [Threads.threadAdd, List.length_append, List.length_singleton]
  omega

theorem call_agrees {c : ListCall ω} (hm : m < fuel) (h : Holds m s t) (hc : t.Legal k c) :
    Calls.Agrees (Holds (m + 1)) .call (call k fuel s c) (t.call k c) := by
  have hmono : ∀ {s : LinkedThreads ω} {t : Threads ω}, Holds m s t → Holds (m + 1) s t :=
    fun h => h.mono (Nat.le_succ m)
  cases c with
  | add p pid state => exact ⟨_, rfl, holds_add h hc state⟩
  | delete p =>
    obtain ⟨kept, rest, ht⟩ := List.append_of_mem hc
    exact ⟨_, rfl, hmono (holds_delete h ht).1⟩
  | find pid =>
    simp only [call, get_eq hm h]
    exact ⟨s, rfl, hmono h⟩
  | wait n pid option =>
    exact ((wait_agrees hm h).map ListAnswer.thread).mono fun _ _ _ _ h' => hmono h'.1
  | stop n p =>
    exact ((stop_agrees k n hm s t p h).map ListAnswer.code).mono fun _ _ _ _ h' => hmono h'.1
  | run n p =>
    exact ((run_agrees k n hm s t p h).map ListAnswer.code).mono fun _ _ _ _ h' => hmono h'.1
  | allStop n => exact ((allStop_agrees hm h).map ListAnswer.code).mono fun _ _ _ _ => hmono
  | allRun n => exact ((allRun_agrees hm h hc).map ListAnswer.code).mono fun _ _ _ _ => hmono
  | time w =>
    obtain rfl := h.threads
    exact ⟨_, rfl, hmono (h.setThreads rfl)⟩

/-- Any run of the calls on a list of threads that the links hold: they answer and fail as the calls
on the plain list, no walk goes on at a poison value, and none takes more steps than there were
threads and calls. -/
theorem run_refines_threads (k : Kernel ω) (s : LinkedThreads ω) (cs : List (ListCall ω))
    (fuel : Nat) (hs : s.OnList)
    (hc : Calls.LegalRun (Threads.call k) (Threads.Legal k) s.toThreads cs)
    (hfuel : s.threads.length + cs.length ≤ fuel) :
    Calls.Agrees (fun s t => s.OnList ∧ s.toThreads = t) .call (Calls.run (call k fuel) s cs)
      (Calls.run (Threads.call k) s.toThreads cs) := by
  -- a thread for each call that is still to come leaves enough steps for every walk
  let rel (n : Nat) (s : LinkedThreads ω) (t : Threads ω) : Prop := ∃ m, m + n ≤ fuel ∧ Holds m s t
  have hstep : ∀ n s t c, rel (n + 1) s t → t.Legal k c →
      Calls.Agrees (rel n) .call (call k fuel s c) (t.call k c) := by
    rintro n s t c ⟨m, hm, h⟩ hlegal
    exact (call_agrees (by omega) h hlegal).mono fun _ _ _ _ h' => ⟨m + 1, by omega, h'⟩
  have hinit : rel cs.length s s.toThreads := ⟨_, hfuel, hs, rfl, Nat.le_refl _⟩
  refine (Calls.run_agrees hstep hinit hc).mono ?_
  rintro s t _ - ⟨_, _, h⟩
  exact ⟨h.onList, h.threads⟩

/-- A thread that is thought to run has gone, and `thread_all_stop` deletes it. -/
def oneGone : List (ListCall (Pid → Task)) :=
  [.add 0 100 0xffff, .add 1 101 0x57f, .allStop 1, .find 100, .allRun 1, .find 101]

theorem run_refines_threads_gone : ∃ s,
    Calls.run (call Threads.plainKernel 6)
      (LinkedThreads.noThreads (Function.update (fun _ => .stopped) 100 .gone)) oneGone =
        .ok (s, [.thread (some 0), .thread (some 1), .code 0, .thread none, .code 0,
          .thread (some 1)]) := by
  have hlegal : Calls.LegalRun (Threads.call Threads.plainKernel) (Threads.Legal Threads.plainKernel)
      (LinkedThreads.noThreads (Function.update (fun _ => .stopped) 100 .gone)).toThreads
      oneGone := by
    refine Calls.legalRun_cons List.not_mem_nil rfl ?_
    refine Calls.legalRun_cons (show 1 ∉ [0] by decide) rfl ?_
    refine Calls.legalRun_cons trivial rfl ?_
    refine Calls.legalRun_cons trivial rfl ?_
    refine Calls.legalRun_cons ?_ rfl (Calls.legalRun_cons trivial rfl trivial)
    rintro t rv h
    change Except.ok (_, 0) = _ at h
    cases h
    exact ⟨Or.inl rfl, trivial⟩
  obtain ⟨s, hrun, _⟩ := run_refines_threads Threads.plainKernel _ oneGone 6
    (LinkedThreads.onList_noThreads _) hlegal (by decide)
  exact ⟨s, hrun⟩

end OnLinks

end Atrace.Ptrace

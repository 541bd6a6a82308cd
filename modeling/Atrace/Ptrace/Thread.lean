import Mathlib.Logic.Function.Basic
import Atrace.Lib.Run
import Atrace.Signal.Common

/-! The threads of the profilee: `src/thread.c`, over a kernel with the tasks behind them. -/
namespace Atrace.Ptrace

open Atrace.Lib Signal

/-- `pid_t` -/
abbrev Pid := Int

/-- The address of a `struct thread` returned by `calloc`. -/
abbrev ThreadPtr := Nat

inductive Errno where
  | ESRCH
  | EINTR
  | ECHILD
  | other (code : Nat)
deriving DecidableEq, Repr

/-- A wait status, an `int`. -/
abbrev Status := BitVec 32

namespace Status

def WIFEXITED (s : Status) : Bool := s &&& 0x7f == 0

def WIFSTOPPED (s : Status) : Bool := s &&& 0xff == 0x7f

def WIFCONTINUED (s : Status) : Bool := s == 0xffff

/-- The states that `thread_stop` takes for a thread that does not run. -/
def settled (s : Status) : Bool := s.WIFEXITED || s.WIFSTOPPED

end Status

/-- What a traced task does in the kernel. -/
inductive Task where
  | running
  | stopped
  | gone
deriving DecidableEq, Repr

namespace Task

/-- What becomes of a task that the tracer does not continue. -/
def Moves : Task → Task → Prop
  | .running, _ => True
  | .stopped, t => t ≠ .running
  | .gone, t => t = .gone

/-- The task is as the status says when `waitpid` returns it. -/
def Reported (t : Task) (status : Status) : Prop :=
  if status.WIFSTOPPED then t ≠ .running
  else if status.WIFCONTINUED then True
  else t = .gone

theorem Moves.refl (t : Task) : t.Moves t := by
  cases t <;> simp [Moves]

theorem Moves.trans {t u v : Task} (h : t.Moves u) (h' : u.Moves v) : t.Moves v := by
  cases t <;> cases u <;> cases v <;> simp_all [Moves]

theorem Moves.not_running {t u : Task} (h : t.Moves u) (ht : t ≠ .running) : u ≠ .running := by
  cases t <;> simp_all [Moves]

theorem Moves.gone {u : Task} (h : Task.gone.Moves u) : u = .gone := h

theorem Reported.not_running {t : Task} {status : Status} (h : t.Reported status)
    (hs : status.settled = true) : t ≠ .running := by
  unfold Reported at h
  split at h
  · exact h
  · rename_i hstop
    split at h
    · rename_i hcont
      obtain rfl := eq_of_beq hcont
      exact absurd hs (by decide)
    · simp [h]

end Task

/-- The system calls that `thread.c` makes, on a world `ω` that holds the tasks. A call takes time,
in which any task may stop or go; `none` stands for success. -/
structure Kernel (ω : Type) where
  task : ω → Pid → Task
  /-- `kill(pid, SIGTRAP)` -/
  kill : ω → Pid → ω × Option Errno
  /-- `ptrace(PTRACE_CONT, pid, …)` -/
  cont : ω → Pid → ω × Option Errno
  /-- `waitpid(pid, …)`, with or without `WCONTINUED` -/
  waitpid : ω → Pid → Bool → ω × Except Errno Status
  kill_moves : ∀ w pid q, (task w q).Moves (task (kill w pid).1 q)
  cont_moves : ∀ w pid q, q ≠ pid ∨ (cont w pid).2 ≠ none → (task w q).Moves (task (cont w pid).1 q)
  waitpid_moves : ∀ w pid option q, (task w q).Moves (task (waitpid w pid option).1 q)
  waitpid_reports : ∀ w pid option status, (waitpid w pid option).2 = .ok status →
    (task (waitpid w pid option).1 pid).Reported status

/-- `struct thread`: what `thread.c` reads of it. -/
structure Thread where
  pid : Pid
  state : Status
deriving DecidableEq

/-- The list `threads`, with what its pointers point to, `errno` and the world. -/
structure Threads (ω : Type) where
  threads : List ThreadPtr
  thread : ThreadPtr → Thread
  errno : Errno
  world : ω

/-- The ways a call does not return: a failed `assert`, or a `waitpid` that a signal interrupts
every time it is tried. -/
inductive NoReturn where
  | assertion
  | interrupted
deriving DecidableEq, Repr

namespace Threads

variable {ω : Type} (k : Kernel ω) (n : Nat) (s : Threads ω)

/-- `thread_add` -/
def threadAdd (p : ThreadPtr) (pid : Pid) (state : Status) : Threads ω :=
  { s with threads := s.threads ++ [p], thread := Function.update s.thread p ⟨pid, state⟩ }

/-- `thread_delete` -/
def threadDelete (p : ThreadPtr) : Threads ω := { s with threads := s.threads.erase p }

/-- `thread_get_by_pid` -/
def threadGetByPid (pid : Pid) : Option ThreadPtr :=
  s.threads.find? fun p => (s.thread p).pid == pid

def setState (p : ThreadPtr) (status : Status) : Threads ω :=
  { s with thread := Function.update s.thread p { s.thread p with state := status } }

/-- The loop of `thread_wait`, which tries again after `EINTR`, at most `n` times. -/
def waitLoop (pid : Pid) (option : Bool) : Nat → ω → Except NoReturn (ω × Except Errno Status)
  | 0, _ => .error .interrupted
  | n + 1, w =>
    match k.waitpid w pid option with
    | (w, .error .EINTR) => waitLoop pid option n w
    | (w, r) => .ok (w, r)

/-- `thread_wait`, which looks its thread up by a `pid`, as its callers pass one. -/
def threadWait (pid : Pid) (option : Bool) : Except NoReturn (Threads ω × Option ThreadPtr) :=
  match s.threadGetByPid pid with
  | none => .ok ({ s with errno := .ECHILD }, none)
  | some p => do
    let (w, r) ← waitLoop k pid option n s.world
    match r with
    | .error e => pure ({ s with world := w, errno := e }, none)
    | .ok status => pure ({ s with world := w }.setState p status, some p)

/-- `errno == ESRCH ? ECHILD : errno` -/
def childErrno (e : Errno) : Errno := if e = .ESRCH then .ECHILD else e

/-- `thread_stop` -/
def threadStop (p : ThreadPtr) : Except NoReturn (Threads ω × Int) :=
  if (s.thread p).state.WIFEXITED then .ok (s, 0)
  else if (s.thread p).state.WIFSTOPPED then .ok (s, 0)
  else
    match k.kill s.world (s.thread p).pid with
    | (w, some e) => .ok ({ s with world := w, errno := childErrno e }, -1)
    | (w, none) => do
      let (s, curr) ← { s with world := w }.threadWait k n (s.thread p).pid false
      if curr = none then pure (s, -1)
      else if (s.thread p).state.WIFSTOPPED then pure (s, 0)
      else .error .assertion

/-- The loop of `thread_all_stop` over the threads that are left. -/
def allStopLoop : List ThreadPtr → Threads ω → Except NoReturn (Threads ω × Int)
  | [], s => .ok (s, 0)
  | p :: ps, s => do
    let (s, rv) ← s.threadStop k n p
    if rv = 0 then allStopLoop ps s
    else if s.errno = .ECHILD then allStopLoop ps (s.threadDelete p)
    else allStopLoop ps s

/-- `thread_all_stop` -/
def threadAllStop : Except NoReturn (Threads ω × Int) := allStopLoop k n s.threads s

/-- `thread_run` -/
def threadRun (p : ThreadPtr) : Except NoReturn (Threads ω × Int) :=
  if (s.thread p).state.WIFEXITED then .ok (s, 0)
  else if (s.thread p).state.WIFCONTINUED then .ok (s, 0)
  else
    match k.cont s.world (s.thread p).pid with
    | (w, some e) => .ok ({ s with world := w, errno := childErrno e }, -1)
    | (w, none) => do
      let (s, curr) ← { s with world := w }.threadWait k n (s.thread p).pid true
      if curr = none then pure (s, -1)
      else if (s.thread p).state.WIFCONTINUED then pure (s, 0)
      else .error .assertion

end Threads

/-- The calls that build the list and update it, and the time that passes between two of them. -/
inductive ThreadCall (ω : Type) where
  | add (p : ThreadPtr) (pid : Pid) (state : Status)
  | run (n : Nat) (p : ThreadPtr)
  | wait (n : Nat) (pid : Pid) (option : Bool)
  | allStop (n : Nat)
  | time (w : ω)

inductive ThreadStep {ω : Type} (k : Kernel ω) : Threads ω → ThreadCall ω → Threads ω → Prop where
  | add {s : Threads ω} {p : ThreadPtr} {pid : Pid} {state : Status} (hp : p ∉ s.threads) :
      ThreadStep k s (.add p pid state) (s.threadAdd p pid state)
  | run {s s' : Threads ω} {n : Nat} {p : ThreadPtr} {rv : Int} (hp : p ∈ s.threads)
      (h : s.threadRun k n p = .ok (s', rv)) : ThreadStep k s (.run n p) s'
  | wait {s s' : Threads ω} {n : Nat} {pid : Pid} {option : Bool} {curr : Option ThreadPtr}
      (h : s.threadWait k n pid option = .ok (s', curr)) : ThreadStep k s (.wait n pid option) s'
  | allStop {s s' : Threads ω} {n : Nat} {rv : Int} (h : s.threadAllStop k n = .ok (s', rv)) :
      ThreadStep k s (.allStop n) s'
  | time {s : Threads ω} {w : ω} (h : ∀ pid, (k.task s.world pid).Moves (k.task w pid)) :
      ThreadStep k s (.time w) { s with world := w }

end Atrace.Ptrace

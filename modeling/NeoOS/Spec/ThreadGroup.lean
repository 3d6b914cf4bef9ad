import NeoOS.Lib.Run

/-!
# The threads of a process (`kernel/sched/proc.c`, `kernel/sched/thread.c`, `kernel/ipc/signal.c`)

How the threads of one process come and go: `thread_create`, `thread_exit_self`, `process_exit`, the part of
`exec_task` that kills the other threads and frees the address space, and the two signals that nobody can
block, SIGKILL and SIGSTOP, with SIGCONT. A signal with a handler only changes where a thread goes on in
user mode, and one that ends the process is a call of `process_exit`.

Each section under the lock of the process is one step, and so is each access outside of it. `waitq_sleep` is
there with its test for signals and the moment from which the thread counts as blocked; a waker of a queue
makes it run again. Whether the caller goes back to sleep is up to the step: all of them do so when what they wait
for is not there, and the loops of `mutex_lock` and of `VT_WAITACTIVE` also after -EINTR, which they do not look at.
Which allocations fail is up to the step. The process is not process 1.
-/

namespace NeoOS.ThreadGroup

open Function (update)

/-- `MAX_THREADS_PER_PROC`. -/
def maxThreads : ℕ := 1024

/-- The signals that are never blocked. -/
inductive Sig
  | kill
  | stop
deriving DecidableEq

/-- Where a thread is. -/
inductive Pc (n : ℕ)
  /-- not yet created -/
  | absent
  /-- in `p->threads`, and on no run queue -/
  | fresh
  /-- in user mode -/
  | user
  /-- `thread_create`: before the test of `p->exiting`, before `thread_alloc`, and before the kernel stack -/
  | create
  | checked
  | built (child : Fin n)
  /-- `waitq_sleep`: before the test for signals, after it, asleep, and woken -/
  | sleep
  | commit
  | blocked
  | woken
  /-- on the way back to user mode, before the next look at the pending signals -/
  | ret
  /-- before `signal_take_pending` -/
  | take (sig : Sig)
  /-- `deliver_one` for SIGKILL -/
  | deliverKill
  /-- the three sections of `signal_do_stop`, and stopped -/
  | stopAll
  | stopCount
  | stopCommit
  | stopped
  /-- `process_exit`: before the test of `p->exiting`, before it is set, before the array is allocated, before a
  snapshot with `left` more rounds to go, and in a round of `nv` threads -/
  | exit
  | exitSet
  | exitAlloc
  | exitSnap (cap left : ℕ)
  | exitKill (cap left nv : ℕ) (rest : List (Fin n))
  /-- `thread_exit_self`: before the thread is a zombie, before it leaves `p->threads`, before `proc_put_live`,
  before `schedule`, and off its CPU for good -/
  | zombie
  | unlink
  | putLive
  | leave
  | gone
  /-- `exec_reduce_to_one_thread`: before the array is allocated, before the snapshot, before a thread gets
  `solo_kill`, before it gets SIGKILL, and in the loop that waits -/
  | reduce
  | execSnap
  | execSolo (rest : List (Fin n))
  | execSend (victim : Fin n) (rest : List (Fin n))
  | execWait
  /-- `exec_task`: before the switch to the new address space, and before the old one is freed -/
  | execSwitch
  | execFree
deriving DecidableEq

/-- The thread is in `p->threads`. -/
def Pc.listed {n : ℕ} : Pc n → Bool
  | .absent | .putLive | .leave | .gone => false
  | _ => true

/-- `p->live_threads` counts the thread. -/
def Pc.counted {n : ℕ} : Pc n → Bool
  | .absent | .leave | .gone => false
  | _ => true

/-- The state of the thread is `THREAD_ZOMBIE`. -/
def Pc.isZombie {n : ℕ} : Pc n → Bool
  | .unlink | .putLive | .leave | .gone => true
  | _ => false

/-- The scheduler may run the thread. -/
def Pc.runnable {n : ℕ} : Pc n → Bool
  | .absent | .fresh | .blocked | .stopped | .gone => false
  | _ => true

/-- The thread is in `exec_task`. -/
def Pc.inExec {n : ℕ} : Pc n → Bool
  | .reduce | .execSnap | .execSolo _ | .execSend .. | .execWait | .execSwitch | .execFree => true
  | _ => false

structure State (n : ℕ) where
  pc : Fin n → Pc n
  /-- `p->threads` -/
  threads : List (Fin n)
  /-- `p->live_threads` -/
  live : ℕ
  exiting : Bool
  /-- `PROC_ZOMBIE` -/
  dead : Bool
  /-- SIGKILL and SIGSTOP in `p->pending` -/
  procKill : Bool
  procStop : Bool
  /-- SIGKILL and SIGSTOP in `t->pending` -/
  kill : Fin n → Bool
  stop : Fin n → Bool
  stopping : Fin n → Bool
  soloKill : Fin n → Bool

/-- What decides a step. -/
inductive Choice (n : ℕ)
  /-- what a thread in user mode does next; a timer interrupt is a way to the pending signals as well -/
  | interrupt
  | create
  /-- also: the caller of `waitq_sleep` calls it again -/
  | sleep
  | exitThread
  | exitGroup
  | exec
  /-- the thread that `thread_alloc` makes -/
  | child (c : Fin n)
  /-- an allocation fails -/
  | fail
deriving DecidableEq

inductive Event (n : ℕ)
  /-- something else runs -/
  | idle
  | go (t : Fin n) (c : Choice n)
  /-- a waker of the queue that the thread sleeps on -/
  | wake (t : Fin n)
  /-- SIGKILL, SIGSTOP and SIGCONT to the process -/
  | kill
  | stop
  | cont

variable {n : ℕ}

/-! ## Signals -/

/-- `signal_next_deliverable`. -/
def State.next (s : State n) (t : Fin n) : Option Sig :=
  if s.kill t then some .kill
  else if s.stop t then some .stop
  else if s.procKill then some .kill
  else if s.procStop then some .stop
  else none

/-- `signal_wake_for_delivery` for a thread that has a signal to take. -/
def wake (pc : Fin n → Pc n) (t : Fin n) : Fin n → Pc n := if pc t = .blocked then update pc t .woken else pc

/-- The thread that `signal_send_process_locked` wakes. -/
def target (pc : Fin n → Pc n) : List (Fin n) → Option (Fin n)
  | [] => none
  | t :: ts => if pc t = .blocked then some ((target pc ts).getD t) else some t

/-- The wake of `signal_send_process_locked`. -/
def State.wakeTarget (s : State n) : Fin n → Pc n :=
  match target s.pc s.threads with
  | some t => wake s.pc t
  | none => s.pc

/-- SIGKILL to one thread, `signal_send_thread`. -/
def State.sendKill (s : State n) (t : Fin n) : State n :=
  { s with kill := update s.kill t true, pc := wake s.pc t }

def State.goto (s : State n) (t : Fin n) (pc : Pc n) : State n := { s with pc := update s.pc t pc }

/-- `signal_take_pending`. -/
def State.take (s : State n) (t : Fin n) : Sig → State n
  | .kill =>
    if s.kill t then { s with kill := update s.kill t false }.goto t .deliverKill
    else { s with procKill := false }.goto t .deliverKill
  | .stop =>
    let s := { s with stopping := update s.stopping t true }
    if s.stop t then { s with stop := update s.stop t false }.goto t .stopAll
    else { s with procStop := false }.goto t .stopAll

/-- The threads that a stop of `t` is passed on to. -/
def State.toStop (s : State n) (t o : Fin n) : Bool :=
  decide (o ∈ s.threads) && decide (o ≠ t) && !(s.pc o).isZombie && decide (s.pc o ≠ .stopped)

/-- The first section of `signal_do_stop`. -/
def State.stopOthers (s : State n) (t : Fin n) : State n :=
  { s with
    stop := fun o => s.stop o || s.toStop t o
    pc := fun o => if s.toStop t o ∧ s.pc o = .blocked then .woken else s.pc o }

/-- `signal_do_continue`. -/
def State.doContinue (s : State n) : State n :=
  { s with
    procStop := false
    stop := fun t => s.stop t && decide (t ∉ s.threads)
    stopping := fun t => s.stopping t && decide (t ∉ s.threads)
    pc := fun t => if t ∈ s.threads ∧ s.pc t = .stopped then .ret else s.pc t }

/-! ## Threads -/

/-- `thread_alloc`. -/
def State.insert (s : State n) (t child : Fin n) : State n :=
  { s with
    pc := update (update s.pc child .fresh) t (.built child)
    threads := child :: s.threads
    live := s.live + 1 }

/-- The other threads, at most `cap`. -/
def State.others (s : State n) (t : Fin n) (cap : ℕ) : List (Fin n) := (s.threads.filter (· ≠ t)).take cap

/-- `proc_put_live`. -/
def State.putLive (s : State n) (t : Fin n) : State n :=
  { s with live := s.live - 1, dead := s.dead || decide (s.live - 1 = 0) }.goto t .leave

/-- What a thread in user mode does. -/
def Choice.start : Choice n → Pc n
  | .create => .create
  | .sleep => .sleep
  | .exitThread => .zombie
  | .exitGroup => .exit
  | .exec => .reduce
  | _ => .ret

/-- The next step of a thread. -/
def go (t : Fin n) (c : Choice n) (s : State n) : State n :=
  match s.pc t with
  | .absent | .fresh | .blocked | .stopped | .gone => s
  | .user => s.goto t c.start
  -- thread_create
  | .create => s.goto t (if s.exiting then .ret else .checked)
  | .checked =>
    match c with
    | .child v => if s.pc v = .absent ∧ s.threads.length < maxThreads then s.insert t v else s.goto t .ret
    | _ => s.goto t .ret
  | .built v => if c = .fail then s.goto t .ret else { s with pc := update s.pc v .user }.goto t .ret
  -- waitq_sleep
  | .sleep =>
    match s.next t with
    | some _ => s.goto t (if c = .sleep then .sleep else .ret)
    | none => s.goto t .commit
  | .commit => s.goto t .blocked
  | .woken => s.goto t (if c = .sleep then .sleep else .ret)
  -- signal_deliver_from_syscall, signal_deliver_from_interrupt
  | .ret =>
    match s.next t with
    | some sig => s.goto t (.take sig)
    | none => s.goto t .user
  | .take sig => s.take t sig
  | .deliverKill => s.goto t (if s.soloKill t then .zombie else .exit)
  -- signal_do_stop
  | .stopAll => (s.stopOthers t).goto t .stopCount
  | .stopCount => s.goto t (if s.stopping t then .stopCommit else .ret)
  | .stopCommit =>
    if s.stopping t then { s with stopping := update s.stopping t false }.goto t .stopped else s.goto t .ret
  -- process_exit
  | .exit => s.goto t (if s.exiting then .zombie else .exitSet)
  | .exitSet => { s with exiting := true }.goto t .exitAlloc
  | .exitAlloc => s.goto t (.exitSnap (if c = .fail then 16 else maxThreads) 63)
  | .exitSnap cap left =>
    match s.others t cap with
    | [] => s.goto t .zombie
    | v :: vs => s.goto t (.exitKill cap left (vs.length + 1) (v :: vs))
  | .exitKill cap left nv (v :: vs) =>
    -- thread_kill
    if (s.pc v).isZombie then s.goto t (.exitKill cap left nv vs) else (s.sendKill v).goto t (.exitKill cap left nv vs)
  | .exitKill cap left nv [] => s.goto t (if nv < cap ∨ left = 0 then .zombie else .exitSnap cap (left - 1))
  -- thread_exit_self
  | .zombie => s.goto t .unlink
  | .unlink => { s with threads := s.threads.erase t }.goto t .putLive
  | .putLive => s.putLive t
  | .leave => s.goto t .gone
  -- exec_reduce_to_one_thread
  | .reduce => s.goto t (if c = .fail then .execSwitch else .execSnap)
  | .execSnap =>
    match s.others t maxThreads with
    | [] => s.goto t .execSwitch
    | v :: vs => s.goto t (.execSolo (v :: vs))
  | .execSolo (v :: vs) =>
    -- thread_kill_solo
    if (s.pc v).isZombie then s.goto t (.execSolo vs)
    else { s with soloKill := update s.soloKill v true }.goto t (.execSend v vs)
  | .execSend v vs => (s.sendKill v).goto t (.execSolo vs)
  | .execSolo [] => s.goto t .execWait
  | .execWait => if s.live ≤ 1 then s.goto t .execSwitch else s
  -- exec_task
  | .execSwitch => s.goto t .execFree
  | .execFree => s.goto t .ret

/-! ## Steps -/

def step (s : State n) : Event n → State n
  | .idle => s
  | .go t c => go t c s
  | .wake t => { s with pc := wake s.pc t }
  | .kill => { s with procKill := true, pc := s.wakeTarget }
  | .stop => { s with procStop := true, pc := s.wakeTarget }
  | .cont => s.doContinue

/-- The thread whose step it is. -/
def Event.owner : Event n → Option (Fin n)
  | .go t _ => some t
  | _ => none

/-- The process has one thread, in user mode. -/
def State.initial (main : Fin n) : State n where
  pc := update (fun _ => .absent) main .user
  threads := [main]
  live := 1
  exiting := false
  dead := false
  procKill := false
  procStop := false
  kill _ := false
  stop _ := false
  stopping _ := false
  soloKill _ := false

end NeoOS.ThreadGroup

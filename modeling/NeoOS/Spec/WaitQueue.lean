import Mathlib.Data.Int.Notation
import NeoOS.Lib.Links
import NeoOS.Lib.Run

/-!
# Wait queues (`kernel/sync/waitq.c`)

Threads that sleep on wait queues, and what wakes them: `waitq_wake_one`, `waitq_wake_all`, a signal
(`waitq_remove` and `thread_wake` of `signal_wake_for_delivery`) and `waitq_timeout_tick`. The link
`next` of a thread serves the wait queues, the run queues and the list a `waitq_wake_all` walks after
it has dropped the lock; `timeout_next` serves the list of deadlines and the one a tick walks.

Each section under a lock is one step, and so is each access outside of them. The scheduler appears
as the steps that take a thread off its CPU, from a run queue onto a CPU, and back onto a run queue.
Whether a signal is pending and whether the caller's abort flag is set are oracles. The poll broadcast
and the guard that the caller passes in are left out.
-/

namespace NeoOS.WaitQueue

open Function (update)

open Links

inductive ThreadState
  | running
  | ready
  | blocked
deriving DecidableEq

/-- The queues that are linked through `next`: the wait queues and the run queues of the CPUs. -/
inductive QueueId
  | wait (q : ℕ)
  | run (c : ℕ)
deriving DecidableEq

/-- Where a thread is in `waitq_sleep_unless`; `timed` says that `waitq_sleep_timeout_unless` called it. -/
inductive Sleep
  | out
  | enter (q : ℕ) (timed : Bool)
  | asleep (timed : Bool)
  /-- before `timeout_remove` -/
  | finish (rc : ℤ)
deriving DecidableEq

def Sleep.timed : Sleep → Bool
  | .out => false
  | .enter _ timed => timed
  | .asleep timed => timed
  | .finish _ => true

/-- What a waker goes on with once a thread has been made ready. -/
inductive Cont (n : ℕ)
  | done
  /-- the list of `waitq_wake_all` -/
  | all (woken : Option (Fin n))
  /-- the list of `waitq_timeout_tick` -/
  | tick (expired : Option (Fin n))
deriving DecidableEq

/-- Where a waker is. -/
inductive Pc (n : ℕ)
  | idle
  | wakeOne (q : ℕ)
  | wakeAll (q : ℕ)
  | signal (t : Fin n)
  | timeoutTick
  /-- before the section of `waitq_timeout_tick` -/
  | scan (now : ℕ)
  /-- the loops over a private list -/
  | loop (k : Cont n)
  /-- the link of `t` has been read -/
  | unlink (t : Fin n) (k : Cont n)
  /-- `t->state == THREAD_BLOCKED` -/
  | test (t : Fin n) (k : Cont n)
  /-- `waitq_remove`, before and after the read of `blocked_on` -/
  | remove (t : Fin n) (k : Cont n)
  | locked (t : Fin n) (q : ℕ) (k : Cont n)
  /-- `thread_wake` -/
  | load (t : Fin n) (k : Cont n)
  | waitOffCpu (t : Fin n) (k : Cont n)
  | cas (t : Fin n) (k : Cont n)
  | clear (t : Fin n) (k : Cont n)
  | push (t : Fin n) (k : Cont n)
deriving DecidableEq

/-- A waker. `took` has the threads it dequeued, each with the number of the sleep it took it from. -/
structure Actor (n : ℕ) where
  pc : Pc n
  took : List (Fin n × ℕ)

/-- The threads, the queues and the wakers under way. `sleeps` and `wakes` count, for each thread, how often
it went to sleep and how often it was made ready from a sleep. -/
structure State (n : ℕ) where
  next : Fin n → Option (Fin n)
  queues : QueueId → Fifo (Fin n)
  blockedOn : Fin n → Option ℕ
  state : Fin n → ThreadState
  onCpu : Fin n → Bool
  sleep : Fin n → Sleep
  ret : Fin n → ℤ
  timeoutNext : Fin n → Option (Fin n)
  timeoutList : Option (Fin n)
  sleepDeadline : Fin n → ℕ
  ticks : ℕ
  sleeps : Fin n → ℕ
  wakes : Fin n → ℕ
  actors : List (Actor n)

inductive Event (n : ℕ)
  /-- the clock -/
  | time
  /-- `waitq_sleep`, or `waitq_sleep_timeout` with a deadline -/
  | sleep (t : Fin n) (q : ℕ) (deadline : Option ℕ)
  | enter (t : Fin n) (pending abort : Bool)
  /-- the CPU has switched away from `t` -/
  | leave (t : Fin n) (c : ℕ)
  /-- a CPU takes the first thread of a run queue -/
  | pop (c : ℕ)
  | resume (t : Fin n) (pending : Bool)
  | unlist (t : Fin n)
  | preempt (t : Fin n) (c : ℕ)
  | call (pc : Pc n)
  /-- the next step of a waker, on CPU `c`; `deliverable` is `signal_next_deliverable` -/
  | act (i c : ℕ) (deliverable : Bool)

def eintr : ℤ := -4

def etimedout : ℤ := -110

variable {n : ℕ}

/-! ## Sleeping -/

/-- `ready_push`. -/
def readyPush (c : ℕ) (t : Fin n) (s : State n) : State n :=
  let r := Links.push s.next (s.queues (.run c)) t
  { s with next := r.1, queues := update s.queues (.run c) r.2 }

/-- `timeout_add`. -/
def timeoutAdd (t : Fin n) (deadline : ℕ) (s : State n) : State n :=
  { s with
    sleepDeadline := update s.sleepDeadline t deadline
    timeoutNext := update s.timeoutNext t s.timeoutList
    timeoutList := some t }

/-- `timeout_remove`. -/
def timeoutRemove (t : Fin n) (s : State n) : State n :=
  let r := Links.unlink n s.timeoutNext s.timeoutList t
  { s with
    timeoutNext := r.1
    timeoutList := r.2.1
    sleepDeadline := update s.sleepDeadline t 0 }

/-- `waitq_sleep` or `waitq_sleep_timeout` up to the call of `waitq_sleep_unless`. -/
def waitqSleep (t : Fin n) (q : ℕ) (deadline : Option ℕ) (s : State n) : State n :=
  match deadline with
  | none => { s with sleep := update s.sleep t (.enter q false) }
  | some d =>
    if d ≤ s.ticks then { s with ret := update s.ret t etimedout }
    else timeoutAdd t d { s with sleep := update s.sleep t (.enter q true) }

/-- `waitq_sleep_unless` returns `rc`. -/
def sleepReturn (t : Fin n) (timed : Bool) (rc : ℤ) (s : State n) : State n :=
  if timed then { s with sleep := update s.sleep t (.finish rc) }
  else { s with sleep := update s.sleep t .out, ret := update s.ret t rc }

/-- `waitq_sleep_unless` up to `schedule`. -/
def waitqEnter (t : Fin n) (q : ℕ) (timed pending abort : Bool) (s : State n) : State n :=
  if pending then sleepReturn t timed eintr s
  else if abort then sleepReturn t timed 0 s
  else
    let r := Links.push s.next (s.queues (.wait q)) t
    { s with
      next := r.1
      queues := update s.queues (.wait q) r.2
      blockedOn := update s.blockedOn t (some q)
      state := update s.state t .blocked
      sleep := update s.sleep t (.asleep timed)
      sleeps := update s.sleeps t (s.sleeps t + 1) }

/-- The end of `waitq_sleep_timeout_unless`. -/
def timeoutReturn (t : Fin n) (rc : ℤ) (s : State n) : State n :=
  let expired := s.sleepDeadline t = 0 ∧ rc = 0
  let s := timeoutRemove t s
  { s with
    sleep := update s.sleep t .out
    ret := update s.ret t (if rc ≠ 0 then rc else if expired then etimedout else 0) }

/-! ## Waking -/

/-- The first step of a waker. -/
def Pc.isStart : Pc n → Bool
  | .wakeOne _ | .wakeAll _ | .signal _ | .timeoutTick => true
  | _ => false

/-- The sleep that `waitq_sleep_timeout` has a deadline for. -/
def State.ordinal (s : State n) (t : Fin n) : ℕ :=
  match s.sleep t with
  | .enter .. => s.sleeps t + 1
  | _ => s.sleeps t

def State.isExpired (s : State n) (now : ℕ) (t : Fin n) : Bool :=
  decide (s.sleepDeadline t ≠ 0) && decide (s.sleepDeadline t ≤ now)

/-- Actor `i` goes on at `pc`. -/
def goto (i : ℕ) (a : Actor n) (pc : Pc n) (s : State n) : State n :=
  { s with actors := s.actors.set i { a with pc := pc } }

/-- One step of actor `i`. -/
def act (i c : ℕ) (deliverable : Bool) (a : Actor n) (s : State n) : State n :=
  match a.pc with
  | .idle => s
  -- waitq_wake_one
  | .wakeOne q =>
    match Links.pop s.next (s.queues (.wait q)) with
    | (none, _, _) => goto i a .idle s
    | (some t, next, f) =>
      { s with
        next := next
        queues := update s.queues (.wait q) f
        actors := s.actors.set i ⟨.load t .done, (t, s.sleeps t) :: a.took⟩ }
  -- waitq_wake_all
  | .wakeAll q =>
    let r := Links.drain n s.next (s.queues (.wait q)) none
    { s with
      next := r.1
      queues := update s.queues (.wait q) r.2.1
      actors := s.actors.set i ⟨.loop (.all r.2.2),
        (nodes s.next n (s.queues (.wait q)).head).map (fun t => (t, s.sleeps t)) ++ a.took⟩ }
  -- signal_wake_for_delivery
  | .signal t => goto i a (if s.state t = .blocked ∧ deliverable then .remove t .done else .idle) s
  -- waitq_timeout_tick
  | .timeoutTick => goto i a (if s.timeoutList = none then .idle else .scan s.ticks) s
  | .scan now =>
    let r := Links.sieve (s.isExpired now) n none s.timeoutNext s.timeoutList none
    { s with
      timeoutNext := r.1
      timeoutList := r.2.1
      sleepDeadline := fun t => if t ∈ nodes s.timeoutNext n s.timeoutList ∧ s.isExpired now t then 0 else s.sleepDeadline t
      actors := s.actors.set i ⟨.loop (.tick r.2.2),
        ((nodes s.timeoutNext n s.timeoutList).filter (s.isExpired now)).map (fun t => (t, s.ordinal t)) ++ a.took⟩ }
  | .loop (.all (some t)) => goto i a (.unlink t (.all (s.next t))) s
  | .loop (.tick (some t)) => goto i a (.unlink t (.tick (s.timeoutNext t))) s
  | .loop _ => goto i a .idle s
  | .unlink t (.all w) => goto i a (.load t (.all w)) { s with next := update s.next t none }
  | .unlink t (.tick w) => goto i a (.test t (.tick w)) { s with timeoutNext := update s.timeoutNext t none }
  | .unlink t .done => goto i a (.load t .done) s
  | .test t k => goto i a (if s.state t = .blocked then .remove t k else .loop k) s
  -- waitq_remove
  | .remove t k =>
    match s.blockedOn t with
    | none => goto i a (.load t k) s
    | some q => goto i a (.locked t q k) s
  | .locked t q k =>
    if s.blockedOn t = some q then
      let r := Links.removeNode n s.next (s.queues (.wait q)) t
      goto i a (.load t k) { s with
        next := r.1
        queues := update s.queues (.wait q) r.2
        blockedOn := update s.blockedOn t none }
    else goto i a (.load t k) s
  -- thread_wake
  | .load t k => goto i a (if s.state t = .blocked then .waitOffCpu t k else .loop k) s
  | .waitOffCpu t k => if s.onCpu t then s else goto i a (.cas t k) s
  | .cas t k =>
    if s.state t = .blocked then
      goto i a (.clear t k) { s with
        state := update s.state t .ready
        wakes := update s.wakes t (s.wakes t + 1) }
    else goto i a (.loop k) s
  | .clear t k => goto i a (.push t k) { s with blockedOn := update s.blockedOn t none }
  | .push t k => if s.onCpu t then s else goto i a (.loop k) (readyPush c t s)

/-! ## Steps -/

def step (s : State n) : Event n → State n
  | .time => { s with ticks := s.ticks + 1 }
  | .sleep t q deadline => if s.state t = .running ∧ s.sleep t = .out then waitqSleep t q deadline s else s
  | .enter t pending abort =>
    match s.sleep t with
    | .enter q timed => if s.state t = .running then waitqEnter t q timed pending abort s else s
    | _ => s
  | .leave t c =>
    -- sched_post_switch
    if s.onCpu t ∧ s.state t ≠ .running then
      let s' := { s with onCpu := update s.onCpu t false }
      if s.state t = .ready then readyPush c t s' else s'
    else s
  | .pop c =>
    match Links.pop s.next (s.queues (.run c)) with
    | (none, _, _) => s
    | (some t, next, f) =>
      { s with
        next := next
        queues := update s.queues (.run c) f
        state := update s.state t .running
        onCpu := update s.onCpu t true }
  | .resume t pending =>
    match s.sleep t with
    | .asleep timed =>
      if s.state t = .running then
        sleepReturn t timed (if pending then eintr else 0) { s with blockedOn := update s.blockedOn t none }
      else s
    | _ => s
  | .unlist t =>
    match s.sleep t with
    | .finish rc => if s.state t = .running then timeoutReturn t rc s else s
    | _ => s
  | .preempt t c =>
    if s.state t = .running then
      readyPush c t { s with state := update s.state t .ready, onCpu := update s.onCpu t false }
    else s
  | .call pc => if pc.isStart then { s with actors := s.actors ++ [⟨pc, []⟩] } else s
  | .act i c deliverable =>
    match s.actors[i]? with
    | some a => act i c deliverable a s
    | none => s

/-- Every thread runs and nothing else has happened. -/
def State.initial (n : ℕ) : State n where
  next _ := none
  queues _ := ⟨none, none⟩
  blockedOn _ := none
  state _ := .running
  onCpu _ := true
  sleep _ := .out
  ret _ := 0
  timeoutNext _ := none
  timeoutList := none
  sleepDeadline _ := 0
  ticks := 0
  sleeps _ := 0
  wakes _ := 0
  actors := []

end NeoOS.WaitQueue

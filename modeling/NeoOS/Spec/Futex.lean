import Mathlib.Algebra.Group.Nat.Defs
import Mathlib.Data.List.Basic

/-!
# Futexes (`kernel/ipc/futex.c`)

Threads that wait on physical words and wakes of these words. Everything `futex_wait` and
`futex_wake` do under the lock of a bucket is one step. The wait queue of a waiter has its own
thread only, so it is a flag. Signals and ticks act on a sleeper in two steps, `waitq_remove` and
`thread_wake`, which may come at any moment and in any number; `removing` has the threads that
such a remover is between the two steps with. Whether a signal is pending is an oracle.
-/

namespace NeoOS.Futex

open Function (update)

inductive Status
  | running
  | ready
  | blocked
deriving DecidableEq

/-- Where a thread is in `futex_wait`. -/
inductive Pc
  | out
  /-- before the lock of the bucket -/
  | entering (val : ℕ) (deadline : Option ℕ)
  | asleep (timed : Bool)
  /-- `waitq_sleep_unless` has returned `rc` but for the lock -/
  | woke (timed : Bool) (rc : ℤ)
deriving DecidableEq

/-- The record of the thread is on its stack and may be linked. -/
def Pc.inside : Pc → Bool
  | .asleep _ | .woke _ _ => true
  | _ => false

/-- Threads, words and buckets. `key`, `woken` and `queued` are the fields of the thread's
`struct futex_waiter`; `counted` says that a wake counted its current wait. -/
structure State where
  mem : ℕ → ℕ
  ticks : ℕ
  buckets : ℕ → List ℕ
  pc : ℕ → Pc
  status : ℕ → Status
  key : ℕ → ℕ
  woken : ℕ → Bool
  queued : ℕ → Bool
  sleepDeadline : ℕ → ℕ
  ret : ℕ → ℤ
  removing : List ℕ
  counted : ℕ → Bool

inductive Event
  /-- a word changes -/
  | store (key v : ℕ)
  | time
  /-- `futex_wait` up to the lock -/
  | wait (t key val : ℕ) (timeout : Option (ℕ × ℕ))
  | lock (t : ℕ) (pending : Bool)
  | resume (t : ℕ) (pending : Bool)
  | finish (t : ℕ)
  | wake (key val : ℕ)
  /-- a tick finds a deadline expired -/
  | expire (t : ℕ)
  /-- `waitq_remove` -/
  | remove (t : ℕ)
  /-- `thread_wake` after it -/
  | threadWake (i : ℕ)
  | run (t : ℕ)
  | preempt (t : ℕ)

def eintr : ℤ := -4
def eagain : ℤ := -11
def efault : ℤ := -14
def etimedout : ℤ := -110

def timerHz : ℕ := 100

/-- `bucket_for`. -/
def bucketFor (key : ℕ) : ℕ := key / 4 * 0x9E3779B97F4A7C15 % 2 ^ 64 / 2 ^ 58 % 64

/-- The deadline of a relative timeout, rounded up to a tick. -/
def deadlineOf (now : ℕ) (timeout : ℕ × ℕ) : ℕ :=
  let ticks := (timeout.1 * timerHz + (timeout.2 + (1000000000 / timerHz - 1)) / (1000000000 / timerHz)) % 2 ^ 64
  (now + if ticks = 0 then 1 else ticks) % 2 ^ 64

/-- `futex_wait` up to the lock of the bucket. -/
def futexWait (t key val : ℕ) (timeout : Option (ℕ × ℕ)) (s : State) : State :=
  if key = 0 then { s with ret := update s.ret t efault }
  else
    { s with
      pc := update s.pc t (.entering val (timeout.map (deadlineOf s.ticks)))
      key := update s.key t key
      woken := update s.woken t false
      queued := update s.queued t false
      counted := update s.counted t false }

/-- The record is taken off its bucket unless a wake did so, and `futex_wait` returns. -/
def futexReturn (t : ℕ) (rc : ℤ) (s : State) : State :=
  let b := bucketFor (s.key t)
  { s with
    pc := update s.pc t .out
    buckets := if s.woken t then s.buckets else update s.buckets b ((s.buckets b).erase t)
    ret := update s.ret t (if s.woken t then 0 else rc) }

/-- `futex_wait` under the lock of the bucket, up to `schedule` or a return without sleep. -/
def futexLock (t val : ℕ) (deadline : Option ℕ) (pending : Bool) (s : State) : State :=
  let b := bucketFor (s.key t)
  if s.mem (s.key t) ≠ val then
    { s with pc := update s.pc t .out, ret := update s.ret t eagain }
  else
    let s := { s with buckets := update s.buckets b (t :: s.buckets b) }
    -- waitq_sleep_timeout and waitq_sleep
    if deadline.any (fun d => decide (d ≤ s.ticks)) then futexReturn t etimedout s
    else if pending then futexReturn t eintr { s with sleepDeadline := update s.sleepDeadline t 0 }
    else
      { s with
        pc := update s.pc t (.asleep deadline.isSome)
        sleepDeadline := update s.sleepDeadline t (deadline.getD 0)
        queued := update s.queued t true
        status := update s.status t .blocked }

/-- `futex_wait` after the sleep, under the lock again. -/
def futexFinish (t : ℕ) (timed : Bool) (rc : ℤ) (s : State) : State :=
  let expired := timed ∧ s.sleepDeadline t = 0 ∧ rc = 0
  futexReturn t (if expired then etimedout else rc) { s with sleepDeadline := update s.sleepDeadline t 0 }

/-- The loop of `futex_wake` over a bucket: the waiters that stay linked and those it wakes. -/
def wakeLoop (keys : ℕ → ℕ) (key val : ℕ) : ℕ → List ℕ → List ℕ × List ℕ
  | _, [] => ([], [])
  | woken, t :: rest =>
    if woken < val then
      if keys t ≠ key then
        let r := wakeLoop keys key val woken rest
        (t :: r.1, r.2)
      else
        let r := wakeLoop keys key val (woken + 1) rest
        (r.1, t :: r.2)
    else (t :: rest, [])

/-- `futex_wake`, with its result. -/
def futexWake (key val : ℕ) (s : State) : State × ℤ :=
  if key = 0 then (s, efault)
  else
    let b := bucketFor key
    let r := wakeLoop s.key key val 0 (s.buckets b)
    ({ s with
        buckets := update s.buckets b r.1
        woken := fun t => s.woken t || decide (t ∈ r.2)
        counted := fun t => s.counted t || decide (t ∈ r.2)
        -- waitq_wake_one
        queued := fun t => s.queued t && decide (t ∉ r.2)
        status := fun t => if t ∈ r.2 ∧ s.queued t ∧ s.status t = .blocked then .ready else s.status t },
      r.2.length)

def step (s : State) : Event → State
  | .store key v => { s with mem := update s.mem key v }
  | .time => { s with ticks := s.ticks + 1 }
  | .wait t key val timeout => if s.status t = .running ∧ s.pc t = .out then futexWait t key val timeout s else s
  | .lock t pending =>
    match s.pc t with
    | .entering val deadline => if s.status t = .running then futexLock t val deadline pending s else s
    | _ => s
  | .resume t pending =>
    match s.pc t with
    | .asleep timed =>
      if s.status t = .running then { s with pc := update s.pc t (.woke timed (if pending then eintr else 0)) } else s
    | _ => s
  | .finish t =>
    match s.pc t with
    | .woke timed rc => if s.status t = .running then futexFinish t timed rc s else s
    | _ => s
  | .wake key val => (futexWake key val s).1
  | .expire t =>
    if s.sleepDeadline t ≠ 0 ∧ s.sleepDeadline t ≤ s.ticks then
      { s with sleepDeadline := update s.sleepDeadline t 0 }
    else s
  | .remove t => { s with queued := update s.queued t false, removing := t :: s.removing }
  | .threadWake i =>
    match s.removing[i]? with
    | some t =>
      { s with
        removing := s.removing.eraseIdx i
        status := if s.status t = .blocked then update s.status t .ready else s.status }
    | none => s
  | .run t => if s.status t = .ready then { s with status := update s.status t .running } else s
  | .preempt t => if s.status t = .running then { s with status := update s.status t .ready } else s

def State.initial (mem : ℕ → ℕ) : State where
  mem := mem
  ticks := 0
  buckets _ := []
  pc _ := .out
  status _ := .running
  key _ := 0
  woken _ := false
  queued _ := false
  sleepDeadline _ := 0
  ret _ := 0
  removing := []
  counted _ := false

end NeoOS.Futex

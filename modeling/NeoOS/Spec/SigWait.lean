import NeoOS.Spec.Signal
import NeoOS.Spec.WaitQueue

/-!
# Signals and sleep (`kernel/ipc/signal.c`, `kernel/syscall/sys_signal.c`, `kernel/sync/waitq.c`)

The threads of one process go to sleep in `waitq_sleep`, `rt_sigsuspend` and `rt_sigtimedwait` while signals
are sent to them or to the process. The queues and the wakers are those of `NeoOS.WaitQueue`, with the
queue 0 for `sig_waiters`; a sender has `p->lock` from the first change of a pending set to the last wakeup.

Every section under a lock is one step, and so is every read or write of a mask, a pending set or a state
outside of them. The threads have their numbers from the list `p->threads`. What a sender does before it takes
the lock is the test of the disposition, which is left open, and the interlock of stop and continue; the mask
that `rt_sigsuspend` saves is read by the delivery alone and left out, and so is a stopped thread.
-/

namespace NeoOS.SigWait

open Function (update)

open Bytes Signal

/-- What a thread sleeps in. -/
inductive Wait
  /-- `waitq_sleep` or `waitq_sleep_timeout` of another caller -/
  | waitq (q : ℕ) (deadline : Option ℕ)
  | sigsuspend
  /-- `saved` is the mask before the call -/
  | sigtimedwait (want saved : Word) (deadline : Option ℕ)
deriving DecidableEq

def sigWaiters : ℕ := 0

def Wait.queue : Wait → ℕ
  | .waitq q _ => q
  | .sigsuspend | .sigtimedwait .. => sigWaiters

def Wait.deadline : Wait → Option ℕ
  | .waitq _ deadline | .sigtimedwait _ _ deadline => deadline
  | .sigsuspend => none

/-- Where a thread is. -/
inductive Pc
  /-- in none of the calls -/
  | run
  /-- `sys_rt_sigsuspend`, before the mask is set -/
  | suspend (mask : Word)
  /-- `sys_rt_sigtimedwait`, before the mask is set -/
  | accept (want : Word) (deadline : Option ℕ)
  /-- the test of the loop: the set of the thread, then the one of the process -/
  | loop (w : Wait)
  | loopProc (w : Wait) (seen : Word)
  /-- before `waitq_sleep` or `waitq_sleep_timeout` -/
  | call (w : Wait)
  /-- `signal_pending_any` in `waitq_sleep_unless` -/
  | check (w : Wait)
  | checkProc (w : Wait)
  | enter (w : Wait) (pending : Bool)
  | asleep (w : Wait)
  | recheckProc (w : Wait)
  | resume (w : Wait) (pending : Bool)
  /-- before `timeout_remove` -/
  | unlist (w : Wait)
  /-- `waitq_sleep` has returned -/
  | back (w : Wait)
  /-- before `signal_take_pending` in `sys_rt_sigtimedwait` -/
  | taking (saved : Word) (sig : ℕ)
  /-- before the mask is restored -/
  | restore (saved : Word)
deriving DecidableEq

/-- Where the sender is that has `p->lock`. -/
inductive Sender (n : ℕ)
  /-- before the pending set changes; `target` is the thread of `signal_send_thread`, `info` the payload, and
  `room` says that the pool has an entry for it -/
  | add (target : Option (Fin n)) (sig : ℕ) (info : Option (List Word)) (room : Bool)
  /-- the loop of `signal_send_process_locked`, before the mask of the first of `rest` is read -/
  | walk (sig : ℕ) (rest : List (Fin n)) (target : Option (Fin n))
  /-- before the state of the target is read -/
  | awake (sig : ℕ) (target : Fin n) (rest : List (Fin n))
  /-- `signal_wake_for_delivery`; `waking` while waker `i` is in `waitq_wake_all` -/
  | wakeAll (t : Fin n)
  | waking (t : Fin n) (i : ℕ)
  | test (t : Fin n)
  /-- `signal_next_deliverable`: the set of the thread, then the one of the process -/
  | read (t : Fin n)
  | readProc (t : Fin n)
  /-- waker `i` is in `waitq_remove` and `thread_wake` -/
  | removing (i : ℕ)

/-- The process; `sender` is the holder of `p->lock`. -/
structure State (n : ℕ) where
  wq : WaitQueue.State n
  blocked : Fin n → Word
  pending : Fin n → Word
  queued : Fin n → List Info
  procPending : Word
  procQueued : List Info
  pc : Fin n → Pc
  sender : Option (Sender n)

inductive Event (n : ℕ)
  /-- the clock, the scheduler, and other wakers -/
  | wq (e : WaitQueue.Event n)
  /-- a thread sets its mask outside of the calls -/
  | mask (t : Fin n) (set : Word)
  /-- `signal_take_pending` at a delivery point -/
  | take (t : Fin n) (sig : ℕ)
  /-- `signal_stop_cont_interlock` -/
  | interlock (sig : ℕ)
  | sleep (t : Fin n) (q : ℕ) (deadline : Option ℕ)
  | sigsuspend (t : Fin n) (mask : Word)
  | sigtimedwait (t : Fin n) (set : Word) (deadline : Option ℕ)
  /-- the next step of a thread -/
  | go (t : Fin n)
  /-- a sender takes `p->lock` -/
  | send (target : Option (Fin n)) (sig : ℕ) (info : Option (List Word)) (room : Bool)
  /-- the next step of the sender -/
  | act

variable {n : ℕ}

/-! ## The pending sets -/

/-- What `t` has pending for itself and may take. -/
def State.ready (s : State n) (t : Fin n) : Word := s.pending t &&& ~~~s.blocked t

/-- What `t` may take of the signals pending for the process. -/
def State.readyProc (s : State n) (t : Fin n) : Word := s.procPending &&& ~~~s.blocked t

/-- `signal_next_deliverable`. -/
def signalNextDeliverable (t : Fin n) (s : State n) : ℕ :=
  if s.ready t = 0 then lowest (s.readyProc t) else lowest (s.ready t)

/-- `signal_next_pending_in`. -/
def signalNextPendingIn (t : Fin n) (want : Word) (s : State n) : ℕ :=
  lowest ((s.pending t ||| s.procPending) &&& want)

/-- `signal_take_pending`. -/
def signalTakePending (t : Fin n) (sig : ℕ) (s : State n) : State n :=
  if has (s.pending t) (sigmaskOf sig) then
    let r := takeQueued sig (s.queued t)
    { s with
      pending := update s.pending t (pendingAfter sig (s.pending t) r.1 r.2)
      queued := update s.queued t r.2 }
  else
    let r := takeQueued sig s.procQueued
    { s with procPending := pendingAfter sig s.procPending r.1 r.2, procQueued := r.2 }

/-- `signal_stop_cont_interlock`, less the threads that stopped. -/
def signalStopContInterlock (sig : ℕ) (s : State n) : State n :=
  if sig = 18 then
    -- signal_do_continue
    { s with procPending := s.procPending &&& ~~~sigmaskOf 19, pending := fun t => s.pending t &&& ~~~sigmaskOf 19 }
  else if sig = 19 ∨ sig = 20 ∨ sig = 21 ∨ sig = 22 then { s with procPending := s.procPending &&& ~~~sigmaskOf 18 }
  else s

/-! ## A thread that goes to sleep -/

def State.goto (s : State n) (t : Fin n) (pc : Pc) : State n := { s with pc := update s.pc t pc }

def State.setMask (s : State n) (t : Fin n) (mask : Word) : State n := { s with blocked := update s.blocked t mask }

/-- `waitq_sleep_unless` has returned; with a deadline, `timeout_remove` comes first. -/
def Wait.left (w : Wait) : Pc := if w.deadline.isSome then .unlist w else .back w

/-- The next step of a thread that runs. -/
def go (t : Fin n) (s : State n) : State n :=
  match s.pc t with
  | .run => s
  -- sys_rt_sigsuspend
  | .suspend mask => (s.setMask t (mask &&& ~~~unblockable)).goto t (.loop .sigsuspend)
  -- sys_rt_sigtimedwait
  | .accept want deadline =>
    (s.setMask t (s.blocked t ||| want)).goto t (.loop (.sigtimedwait want (s.blocked t) deadline))
  | .loop .sigsuspend => s.goto t (if s.ready t = 0 then .loopProc .sigsuspend 0 else .run)
  | .loop w => s.goto t (.loopProc w (s.pending t))
  | .loopProc (.sigtimedwait want saved deadline) seen =>
    let sig := lowest ((seen ||| s.procPending) &&& want)
    s.goto t (if sig = 0 then .call (.sigtimedwait want saved deadline) else .taking saved sig)
  | .loopProc w _ => s.goto t (if s.readyProc t = 0 then .call w else .run)
  -- waitq_sleep, waitq_sleep_timeout
  | .call w =>
    let wq := WaitQueue.step s.wq (.sleep t w.queue w.deadline)
    { s with wq := wq }.goto t (if wq.sleep t = WaitQueue.Sleep.out then .back w else .check w)
  | .check w => s.goto t (if s.ready t = 0 then .checkProc w else .enter w true)
  | .checkProc w => s.goto t (.enter w (s.readyProc t ≠ 0))
  | .enter w pending =>
    { s with wq := WaitQueue.step s.wq (.enter t pending false) }.goto t (if pending then w.left else .asleep w)
  | .asleep w => s.goto t (if s.ready t = 0 then .recheckProc w else .resume w true)
  | .recheckProc w => s.goto t (.resume w (s.readyProc t ≠ 0))
  | .resume w pending => { s with wq := WaitQueue.step s.wq (.resume t pending) }.goto t w.left
  | .unlist w => { s with wq := WaitQueue.step s.wq (.unlist t) }.goto t (.back w)
  | .back (.waitq ..) => s.goto t .run
  | .back .sigsuspend => s.goto t (if s.wq.ret t = WaitQueue.eintr then .run else .loop .sigsuspend)
  | .back (.sigtimedwait want saved deadline) =>
    s.goto t (if s.wq.ret t = WaitQueue.etimedout ∨ s.wq.ret t = WaitQueue.eintr then .restore saved
      else .loop (.sigtimedwait want saved deadline))
  -- the section of signal_take_pending waits for p->lock
  | .taking saved sig => if s.sender.isSome then s else (signalTakePending t sig s).goto t (.restore saved)
  | .restore saved => (s.setMask t saved).goto t .run

/-! ## A sender -/

def State.sending (s : State n) (sender : Sender n) : State n := { s with sender := some sender }

def State.unlock (s : State n) : State n := { s with sender := none }

/-- `queue_append` for a real-time signal with a payload: the payload to queue, or -EAGAIN. -/
def queueAppend (sig : ℕ) (info : Option (List Word)) (room : Bool) : Option (List Info) :=
  match info with
  | some words => if 32 ≤ sig then (if room then some [⟨sig, words⟩] else none) else some []
  | none => some []

/-- `waitq_remove` and `thread_wake` of `signal_wake_for_delivery`. -/
def State.remove (s : State n) (t : Fin n) : State n :=
  { s with
    wq := { s.wq with actors := s.wq.actors ++ [⟨.remove t .done, []⟩] }
    sender := some (.removing s.wq.actors.length) }

/-- The next step of the sender. -/
def act (s : State n) : Sender n → State n
  | .add target sig info room =>
    match queueAppend sig info room, target with
    | none, _ => s.unlock
    | some q, some t =>
      { s with
        queued := update s.queued t (s.queued t ++ q)
        pending := update s.pending t (s.pending t ||| sigmaskOf sig)
        sender := some (.wakeAll t) }
    | some q, none =>
      { s with
        procQueued := s.procQueued ++ q
        procPending := s.procPending ||| sigmaskOf sig
        sender := some (.walk sig (List.finRange n) none) }
  | .walk _ [] none => s.unlock
  | .walk _ [] (some t) => s.sending (.wakeAll t)
  | .walk sig (u :: rest) target =>
    if has (s.blocked u) (sigmaskOf sig) then s.sending (.walk sig rest target) else s.sending (.awake sig u rest)
  | .awake sig u rest =>
    if s.wq.state u = .blocked then s.sending (.walk sig rest (some u)) else s.sending (.wakeAll u)
  | .wakeAll t =>
    { s with
      wq := WaitQueue.step s.wq (.call (.wakeAll sigWaiters))
      sender := some (.waking t s.wq.actors.length) }
  | .waking t i => if (s.wq.actors[i]?.map (·.pc)).getD .idle = .idle then s.sending (.test t) else s
  | .test t => if s.wq.state t = .blocked then s.sending (.read t) else s.unlock
  | .read t => if s.ready t = 0 then s.sending (.readProc t) else s.remove t
  | .readProc t => if s.readyProc t = 0 then s.unlock else s.remove t
  | .removing i => if (s.wq.actors[i]?.map (·.pc)).getD .idle = .idle then s.unlock else s

/-! ## Steps -/

/-- The steps of the wait queues that belong to no thread and no sender of this process. -/
def outside : WaitQueue.Event n → Bool
  | .time | .leave .. | .pop _ | .preempt .. | .act .. => true
  | .call (.signal _) => false
  | .call _ => true
  | _ => false

/-- `t` runs, and in none of the calls. -/
def State.atLarge (s : State n) (t : Fin n) : Prop := s.wq.state t = .running ∧ s.pc t = .run

instance (s : State n) (t : Fin n) : Decidable (s.atLarge t) := inferInstanceAs (Decidable (_ ∧ _))

def step (s : State n) : Event n → State n
  | .wq e => if outside e then { s with wq := WaitQueue.step s.wq e } else s
  | .mask t set => if s.atLarge t then s.setMask t set else s
  | .take t sig => if s.atLarge t ∧ s.sender = none then signalTakePending t sig s else s
  | .interlock sig => if sig = 18 ∧ s.sender ≠ none then s else signalStopContInterlock sig s
  | .sleep t q deadline => if s.atLarge t then s.goto t (.call (.waitq q deadline)) else s
  | .sigsuspend t mask => if s.atLarge t then s.goto t (.suspend mask) else s
  | .sigtimedwait t set deadline => if s.atLarge t then s.goto t (.accept (set &&& ~~~unblockable) deadline) else s
  | .go t => if s.wq.state t = .running then go t s else s
  | .send target sig info room =>
    if s.sender = none ∧ 1 ≤ sig ∧ sig ≤ 64 then s.sending (.add target sig info room) else s
  | .act =>
    match s.sender with
    | some sender => act s sender
    | none => s

/-- Every thread runs, and no signal has been sent. -/
def State.initial (n : ℕ) : State n where
  wq := .initial n
  blocked _ := 0
  pending _ := 0
  queued _ := []
  procPending := 0
  procQueued := []
  pc _ := .run
  sender := none

end NeoOS.SigWait

import NeoOS.Spec.WaitQueue

/-!
# Poll (`kernel/syscall/sys_poll.c`, `kernel/sync/poll_head.c`, `kernel/sync/waitq.c`)

Threads in `poll_core` on one side, and on the other side objects that become ready and announce it by
`poll_head_notify`, `waitq_wake_one` or `waitq_wake_all`. The queues and the wakers are those of
`NeoOS.WaitQueue`, with the queue 0 for `poll_broadcast`; other threads may sleep on the other queues.

Every section under a lock is one step, and so is every access outside of them. A descriptor names its object
as long as the call lasts. `stale` is no part of the kernel: it says which descriptors got an event since their
thread last scanned them.
-/

namespace NeoOS.Poll

open Function (update)

open Links

/-- `poll_broadcast` among the wait queues. -/
def broadcast : ℕ := 0

abbrev Mask := BitVec 16

def pollErr : Mask := 0x008
def pollHup : Mask := 0x010
def pollNval : Mask := 0x020

/-- What the number in a `struct pollfd` names. -/
inductive File
  /-- below 0 -/
  | negative
  /-- no open descriptor -/
  | bad
  | object (o : ℕ)
deriving DecidableEq

/-- `struct pollfd`. -/
structure PollFd where
  file : File
  events : Mask
deriving DecidableEq

/-- Where a thread is in `poll_core`; `got` has the `revents` of the scan. -/
inductive Pc
  | out
  /-- the loop that registers, at descriptor `i` -/
  | register (i : ℕ) (wants : Bool)
  /-- before `waitq_poll_enter` -/
  | enter
  /-- before `poll_notified` is cleared -/
  | clear
  | scan (got : List Mask)
  /-- before `waitq_poll_wait` -/
  | wait (got : List Mask)
  /-- before the section of `waitq_sleep_unless` -/
  | check (got : List Mask)
  | asleep (got : List Mask)
  /-- before `timeout_remove` -/
  | unlist (got : List Mask)
  | woken (got : List Mask)
  /-- before `waitq_poll_leave` -/
  | leave (rc : ℤ) (got : List Mask)
  /-- the loop that unregisters, at descriptor `i` -/
  | unregister (i : ℕ) (rc : ℤ) (got : List Mask)
deriving DecidableEq

/-- How an object announces that it became ready. -/
inductive How
  | notify (h : ℕ)
  | wakeOne (q : ℕ)
  | wakeAll (q : ℕ)

/-- Where an announcement is. -/
inductive Stage (n : ℕ)
  /-- before `poll_head_notify` has the lock of the head `h` -/
  | notify (h : ℕ)
  /-- the flags are set, and the threads of `rest` are to be woken; `waking` while waker `i` wakes one -/
  | wake (h : ℕ) (rest : List (Fin n × ℕ))
  | waking (h : ℕ) (rest : List (Fin n × ℕ)) (i : ℕ)
  /-- `waitq_wake_one` or `waitq_wake_all` -/
  | wakeQueue (q : ℕ) (all : Bool)
  | wakingQueue (i : ℕ)
  /-- before `waitq_poll_active` is read -/
  | active
  /-- before the section of `waitq_poll_notify`; `casting` while waker `i` wakes the threads it took -/
  | cast
  | casting (i : ℕ)
  | done
deriving DecidableEq

structure Announcer (n : ℕ) where
  obj : ℕ
  stage : Stage n

structure State (n : ℕ) where
  wq : WaitQueue.State n
  /-- what the poll operation of an object reports -/
  level : ℕ → Mask
  /-- the registrations of a poll head: the thread, and which of its descriptors -/
  regs : ℕ → List (Fin n × ℕ)
  /-- the lock of a poll head is taken -/
  busy : ℕ → Bool
  /-- `waitq_poll_active` -/
  active : ℕ
  notified : Fin n → Bool
  wantsBroadcast : Fin n → Bool
  fds : Fin n → List PollFd
  deadline : Fin n → ℕ
  pc : Fin n → Pc
  result : Fin n → ℤ × List Mask
  announcers : List (Announcer n)
  stale : Fin n → ℕ → Bool

inductive Event (n : ℕ)
  /-- the clock, the scheduler, the wakers, signals, and threads that sleep on other queues -/
  | wq (e : WaitQueue.Event n)
  | poll (t : Fin n) (fds : List PollFd) (deadline : ℕ)
  /-- the next step of a thread; `pending` is `signal_pending_any` -/
  | go (t : Fin n) (pending : Bool)
  /-- an object reports more, and announces it -/
  | raise (o : ℕ) (mask : Mask) (how : How)
  /-- an object reports less -/
  | lower (o : ℕ) (mask : Mask)
  /-- the next step of announcement `k` -/
  | announce (k : ℕ)

variable {n : ℕ}

/-! ## The wait queues -/

/-- The section of `waitq_poll_notify`; a waker goes on with the threads it took. -/
def waitqPollNotify (wants : Fin n → Bool) (s : WaitQueue.State n) : WaitQueue.State n :=
  let l := nodes s.next n (s.queues (.wait broadcast)).head
  let r := Links.sift wants n s.next (s.queues (.wait broadcast)) none ⟨none, none⟩
  { s with
    next := r.1
    queues := update s.queues (.wait broadcast) r.2.1
    blockedOn := fun t => if t ∈ l ∧ wants t = true then none else s.blockedOn t
    actors := s.actors ++ [⟨.loop (.all r.2.2), (l.filter wants).map fun t => (t, s.sleeps t)⟩] }

/-- The section of `waitq_poll_wake_thread`; a waker goes on with the thread if it was queued. -/
def waitqPollWakeThread (t : Fin n) (s : WaitQueue.State n) : Option (WaitQueue.State n) :=
  if s.blockedOn t = some broadcast ∧ t ∈ nodes s.next n (s.queues (.wait broadcast)).head then
    let r := Links.removeNode n s.next (s.queues (.wait broadcast)) t
    some { s with
      next := r.1
      queues := update s.queues (.wait broadcast) r.2
      blockedOn := update s.blockedOn t none
      actors := s.actors ++ [⟨.load t .done, [(t, s.sleeps t)]⟩] }
  else none

/-- Waker `i` is done. -/
def idle (s : WaitQueue.State n) (i : ℕ) : Bool := decide ((s.actors[i]?.map (·.pc)).getD .idle = .idle)

/-! ## Descriptors -/

/-- The poll head of a descriptor; `head` gives the one of an object. -/
def PollFd.pollHead (head : ℕ → Option ℕ) (p : PollFd) : Option ℕ :=
  match p.file with
  | .object o => head o
  | _ => none

def PollFd.needsBroadcast (head : ℕ → Option ℕ) (p : PollFd) : Bool :=
  match p.file with
  | .negative => false
  | .bad => true
  | .object o => (head o).isNone

/-- The events a descriptor is scanned for. -/
def PollFd.want (p : PollFd) : Mask := p.events ||| pollErr ||| pollHup

def PollFd.revents (level : ℕ → Mask) (p : PollFd) : Mask :=
  match p.file with
  | .negative => 0
  | .bad => pollNval
  | .object o => level o &&& p.want

/-! ## `poll_core` -/

def State.goto (s : State n) (t : Fin n) (pc : Pc) : State n := { s with pc := update s.pc t pc }

/-- The next step of a thread that runs; `head` gives the poll head of an object. -/
def go (head : ℕ → Option ℕ) (t : Fin n) (pending : Bool) (s : State n) : State n :=
  match s.pc t with
  | .out => s
  | .register i wants =>
    match (s.fds t)[i]? with
    | none => { s with wantsBroadcast := update s.wantsBroadcast t wants }.goto t .enter
    | some p =>
      match p.pollHead head with
      | none => s.goto t (.register (i + 1) (wants || p.needsBroadcast head))
      | some h =>
        -- poll_head_register
        if s.busy h then s
        else { s with regs := update s.regs h ((t, i) :: s.regs h) }.goto t (.register (i + 1) wants)
  | .enter => { s with active := s.active + 1 }.goto t .clear
  | .clear => { s with notified := update s.notified t false }.goto t (.scan [])
  | .scan got =>
    match (s.fds t)[got.length]? with
    | some p =>
      { s with stale := update s.stale t (update (s.stale t) got.length false) }.goto t
        (.scan (got ++ [p.revents s.level]))
    | none =>
      if got.any (· ≠ 0) ∨ s.deadline t = 0 then s.goto t (.leave (got.countP (· ≠ 0)) got) else s.goto t (.wait got)
  -- waitq_sleep_timeout_unless
  | .wait got =>
    let wq := WaitQueue.step s.wq (.sleep t broadcast (some (s.deadline t)))
    { s with wq := wq }.goto t (if wq.sleep t = WaitQueue.Sleep.out then .leave 0 got else .check got)
  | .check got =>
    { s with wq := WaitQueue.step s.wq (.enter t pending (s.notified t)) }.goto t
      (if pending || s.notified t then .unlist got else .asleep got)
  | .asleep got => { s with wq := WaitQueue.step s.wq (.resume t pending) }.goto t (.unlist got)
  | .unlist got => { s with wq := WaitQueue.step s.wq (.unlist t) }.goto t (.woken got)
  | .woken got =>
    s.goto t (if s.wq.ret t = WaitQueue.eintr then .leave WaitQueue.eintr got
      else if s.wq.ret t = WaitQueue.etimedout then .leave 0 got else .clear)
  | .leave rc got => { s with active := s.active - 1 }.goto t (.unregister 0 rc got)
  | .unregister i rc got =>
    match (s.fds t)[i]? with
    | none =>
      { s with
        wantsBroadcast := update s.wantsBroadcast t false
        result := update s.result t (rc, got) }.goto t .out
    | some p =>
      match p.pollHead head with
      | none => s.goto t (.unregister (i + 1) rc got)
      | some h =>
        -- poll_head_unregister
        if s.busy h then s
        else { s with regs := update s.regs h ((s.regs h).erase (t, i)) }.goto t (.unregister (i + 1) rc got)

/-! ## Announcements -/

def How.start : How → Stage n
  | .notify h => .notify h
  | .wakeOne q => .wakeQueue q false
  | .wakeAll q => .wakeQueue q true

/-- The descriptor gets an event it is scanned for. -/
def gains (old : ℕ → Mask) (o : ℕ) (mask : Mask) (p : PollFd) : Bool :=
  decide (p.file = .object o) && decide (mask &&& ~~~old o &&& p.want ≠ 0)

def State.setStage (s : State n) (k : ℕ) (a : Announcer n) (stage : Stage n) : State n :=
  { s with announcers := s.announcers.set k { a with stage := stage } }

/-- The next step of announcement `k`. -/
def announce (k : ℕ) (a : Announcer n) (s : State n) : State n :=
  match a.stage with
  -- poll_head_notify
  | .notify h =>
    if s.busy h then s
    else
      { s with
        busy := update s.busy h true
        notified := fun t => s.notified t || (s.regs h).any (·.1 = t) }.setStage k a (.wake h (s.regs h))
  | .wake h [] => { s with busy := update s.busy h false }.setStage k a .done
  | .wake h (r :: rest) =>
    match waitqPollWakeThread r.1 s.wq with
    | some wq => { s with wq := wq }.setStage k a (.waking h rest s.wq.actors.length)
    | none => s.setStage k a (.wake h rest)
  | .waking h rest i => if idle s.wq i then s.setStage k a (.wake h rest) else s
  -- waitq_wake_one, waitq_wake_all
  | .wakeQueue q all =>
    { s with wq := WaitQueue.step s.wq (.call (if all then .wakeAll q else .wakeOne q)) }.setStage k a
      (.wakingQueue s.wq.actors.length)
  | .wakingQueue i => if idle s.wq i then s.setStage k a .active else s
  | .active => s.setStage k a (if s.active = 0 then .done else .cast)
  -- waitq_poll_notify
  | .cast => { s with wq := waitqPollNotify s.wantsBroadcast s.wq }.setStage k a (.casting s.wq.actors.length)
  | .casting i => if idle s.wq i then s.setStage k a .done else s
  | .done => s

/-- The flag that `waitq_poll_notify` sets for the thread whose link it clears. -/
def castFlag (s : State n) (i : ℕ) : Option (Fin n) :=
  if s.announcers.any (fun a => a.stage = .casting i) then
    match s.wq.actors[i]? with
    | some ⟨.unlink t (.all _), _⟩ => some t
    | _ => none
  else none

/-! ## Steps -/

/-- The thread whose call a step of the wait queues belongs to. -/
def caller : WaitQueue.Event n → Option (Fin n)
  | .sleep t .. | .enter t .. | .resume t _ | .unlist t => some t
  | _ => none

/-- A step of the wait queues that is not part of `poll_core`. -/
def stepWq (s : State n) (e : WaitQueue.Event n) : State n :=
  let s' := { s with wq := WaitQueue.step s.wq e }
  match e with
  | .act i _ _ =>
    match castFlag s i with
    | some t => { s' with notified := update s.notified t true }
    | none => s'
  | _ => s'

def step (head : ℕ → Option ℕ) (s : State n) : Event n → State n
  | .wq e => if ∀ t ∈ caller e, s.pc t = .out then stepWq s e else s
  | .poll t fds deadline =>
    if s.wq.state t = .running ∧ s.wq.sleep t = .out ∧ s.pc t = .out then
      { s with
        fds := update s.fds t fds
        deadline := update s.deadline t deadline }.goto t (.register 0 false)
    else s
  | .go t pending => if s.wq.state t = .running then go head t pending s else s
  | .raise o mask how =>
    { s with
      level := update s.level o (s.level o ||| mask)
      stale := fun t j => s.stale t j || ((s.fds t)[j]?.map (gains s.level o mask)).getD false
      announcers := s.announcers ++ [⟨o, how.start⟩] }
  | .lower o mask => { s with level := update s.level o (s.level o &&& mask) }
  | .announce k =>
    match s.announcers[k]? with
    | some a => announce k a s
    | none => s

/-- No thread polls. -/
def State.initial (n : ℕ) : State n where
  wq := .initial n
  level _ := 0
  regs _ := []
  busy _ := false
  active := 0
  notified _ := false
  wantsBroadcast _ := false
  fds _ := []
  deadline _ := 0
  pc _ := .out
  result _ := (0, [])
  announcers := []
  stale _ _ := false

end NeoOS.Poll

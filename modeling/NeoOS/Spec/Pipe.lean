import NeoOS.Lib.RingBuf

/-!
# Pipes (`kernel/ipc/pipe.c`)

One pipe and the processes with descriptors on it. A process is idle, in a read or a write, or
has cleared a slot whose `pipe_close` is still to come; each section under `p->lock` is one
step, and between two sections every other process can run. A process that sleeps may resume at
any moment, with or without a signal.

The wait queues and the pollers are left out: they decide when a sleeper resumes and nothing
else.
-/

namespace NeoOS.Pipe

/-- `PIPE_CAPACITY`. -/
def capacity : ℕ := 4096

inductive Err
  | ebadf
  | eagain
  | eintr
  | epipe
deriving DecidableEq

/-- What `struct file_descriptor` keeps for a pipe. -/
structure Fd where
  readable : Bool
  writable : Bool
  nonblock : Bool
deriving DecidableEq

/-- `struct pipe`. -/
structure Object where
  ring : RingBuf UInt8
  readersOpen : ℤ
  writersOpen : ℤ
  refs : ℤ
  freed : Bool

/-- `ring_read`. -/
def ringRead (want : ℕ) (o : Object) : Object × List UInt8 :=
  let n := min want o.ring.len
  ({ o with ring := o.ring.skip capacity n }, o.ring.peek capacity 0 n)

/-- `ring_write`: the bytes that found room. -/
def ringWrite (input : List UInt8) (want : ℕ) (o : Object) : Object × List UInt8 :=
  let n := min want (capacity - o.ring.len)
  ({ o with ring := o.ring.push capacity (input.take n) }, input.take n)

/-- The loop of `pipe_read` with `p->lock` held; `none` says that the process sleeps. `sig` is
the pending signal `waitq_sleep` looks for. -/
def readLoop (f : Fd) (len : ℕ) (sig : Bool) (o : Object) : Object × Option (Except Err (List UInt8)) :=
  if 0 < o.ring.len then
    let r := ringRead (len % 2 ^ 32) o
    (r.1, some (.ok r.2))
  else if o.writersOpen = 0 then (o, some (.ok []))
  else if f.nonblock then (o, some (.error .eagain))
  else if sig then (o, some (.error .eintr))
  else (o, none)

/-- What a write reports that got `written` bytes in and then failed with `e`. -/
def partialWrite (written : ℕ) (e : Err) : Except Err ℕ := if written ≠ 0 then .ok written else .error e

/-- How a round of the loop of `pipe_write` ends. -/
inductive Round
  | done (r : Except Err ℕ)
  /-- the lock is dropped to wake the readers -/
  | more (written : ℕ)

/-- A round of the loop of `pipe_write` with `p->lock` held, and the bytes it wrote. -/
def writeRound (f : Fd) (data : List UInt8) (written : ℕ) (o : Object) : Object × List UInt8 × Round :=
  if data.length ≤ written then (o, [], .done (.ok written))
  else if o.readersOpen = 0 then (o, [], .done (partialWrite written .epipe))
  else
    let r := ringWrite (data.drop written) ((data.length - written) % 2 ^ 32) o
    let written := written + r.2.length
    if written = data.length then (r.1, r.2, .done (.ok written))
    else if f.nonblock then (r.1, r.2, .done (partialWrite written .eagain))
    else (r.1, r.2, .more written)

/-- `pipe_dup`. -/
def pipeDup (o : Object) (f : Fd) : Object :=
  { o with refs := o.refs + 1, readersOpen := o.readersOpen + (if f.readable then 1 else 0),
           writersOpen := o.writersOpen + (if f.writable then 1 else 0) }

/-- `pipe_close`. -/
def pipeClose (o : Object) (f : Fd) : Object :=
  { o with refs := o.refs - 1, readersOpen := o.readersOpen - (if f.readable then 1 else 0),
           writersOpen := o.writersOpen - (if f.writable then 1 else 0),
           freed := o.freed || decide (o.refs - 1 = 0) }

/-! ## Processes -/

/-- Where a write stands. -/
inductive WriteAt
  /-- before its first section -/
  | start
  /-- the readers are being woken, with the lock dropped -/
  | waking
  | asleep
deriving DecidableEq

/-- What a process does on the pipe. -/
inductive Activity
  | idle
  | reading (f : Fd) (len : ℕ) (asleep : Bool)
  | writing (f : Fd) (data : List UInt8) (written : ℕ) (pos : WriteAt)
  /-- the slot is cleared and `pipe_close` is to come -/
  | closing (f : Fd)

/-- A process: its descriptors on the pipe and what it does. -/
structure Proc where
  fds : List Fd
  act : Activity

/-- The pipe, its processes, and the history: the bytes that reads have returned and the bytes
that writes have put in. -/
structure State where
  obj : Object
  procs : List Proc
  got : List UInt8
  accepted : List UInt8

/-- What a call returns. -/
inductive Outcome
  | read (len : ℕ) (r : Except Err (List UInt8))
  | write (r : Except Err ℕ)

inductive Event
  /-- process `i` reads from its descriptor `k` -/
  | read (i k len : ℕ)
  | write (i k : ℕ) (data : List UInt8)
  /-- the call of process `i` goes on; the flags are the signals seen after the sleep and before
  the next one -/
  | go (i : ℕ) (woken sig : Bool)
  /-- `dup`, `dup2` and `fcntl` -/
  | dup (i k : ℕ)
  | fork (i : ℕ)
  | close (i k : ℕ)

def State.setProc (s : State) (i : ℕ) (p : Proc) : State := { s with procs := s.procs.set i p }

/-- The bytes a read returns. -/
def returned : Except Err (List UInt8) → List UInt8
  | .ok out => out
  | .error _ => []

/-- A read enters the loop, with `p->lock` held. -/
def goRead (s : State) (i : ℕ) (p : Proc) (f : Fd) (len : ℕ) (sig : Bool) : State × Option Outcome :=
  let r := readLoop f len sig s.obj
  match r.2 with
  | some out =>
    ({ s with obj := r.1, got := s.got ++ returned out }.setProc i { p with act := .idle }, some (.read len out))
  | none => ({ s with obj := r.1 }.setProc i { p with act := .reading f len true }, none)

/-- A write enters a round, with `p->lock` held. -/
def goWrite (s : State) (i : ℕ) (p : Proc) (f : Fd) (data : List UInt8) (written : ℕ) : State × Option Outcome :=
  let r := writeRound f data written s.obj
  let s := { s with obj := r.1, accepted := s.accepted ++ r.2.1 }
  match r.2.2 with
  | .done out => (s.setProc i { p with act := .idle }, some (.write out))
  | .more written => (s.setProc i { p with act := .writing f data written .waking }, none)

/-- The call of a process goes on. -/
def go (s : State) (i : ℕ) (p : Proc) (woken sig : Bool) : State × Option Outcome :=
  match p.act with
  | .idle => (s, none)
  | .reading f len asleep =>
    if asleep ∧ woken then (s.setProc i { p with act := .idle }, some (.read len (.error .eintr)))
    else goRead s i p f len sig
  | .writing f data written .start => goWrite s i p f data written
  | .writing f data written .waking =>
    if s.obj.ring.len = capacity then
      if sig then (s.setProc i { p with act := .idle }, some (.write (partialWrite written .eintr)))
      else (s.setProc i { p with act := .writing f data written .asleep }, none)
    else goWrite s i p f data written
  | .writing f data written .asleep =>
    if woken then (s.setProc i { p with act := .idle }, some (.write (partialWrite written .eintr)))
    else goWrite s i p f data written
  | .closing f => ({ s with obj := pipeClose s.obj f }.setProc i { p with act := .idle }, none)

/-- One event. Only an idle process makes a call. -/
def stepOut (s : State) : Event → State × Option Outcome
  | .go i woken sig =>
    match s.procs[i]? with
    | none => (s, none)
    | some p => go s i p woken sig
  | .read i k len =>
    match s.procs[i]? with
    | some ⟨fds, .idle⟩ =>
      match fds[k]? with
      | none => (s, some (.read len (.error .ebadf)))
      | some f =>
        if !f.readable then (s, some (.read len (.error .ebadf)))
        else if len = 0 then (s, some (.read len (.ok [])))
        else (s.setProc i ⟨fds, .reading f len false⟩, none)
    | _ => (s, none)
  | .write i k data =>
    match s.procs[i]? with
    | some ⟨fds, .idle⟩ =>
      match fds[k]? with
      | none => (s, some (.write (.error .ebadf)))
      | some f =>
        if !f.writable then (s, some (.write (.error .ebadf)))
        else if data.length = 0 then (s, some (.write (.ok 0)))
        else (s.setProc i ⟨fds, .writing f data 0 .start⟩, none)
    | _ => (s, none)
  | .dup i k =>
    match s.procs[i]? with
    | some ⟨fds, .idle⟩ =>
      match fds[k]? with
      | none => (s, none)
      | some f => ({ s with obj := pipeDup s.obj f }.setProc i ⟨fds ++ [f], .idle⟩, none)
    | _ => (s, none)
  | .fork i =>
    match s.procs[i]? with
    | some ⟨fds, .idle⟩ => ({ s with obj := fds.foldl pipeDup s.obj, procs := s.procs ++ [⟨fds, .idle⟩] }, none)
    | _ => (s, none)
  | .close i k =>
    match s.procs[i]? with
    | some ⟨fds, .idle⟩ =>
      match fds[k]? with
      | none => (s, none)
      | some f => (s.setProc i ⟨fds.eraseIdx k, .closing f⟩, none)
    | _ => (s, none)

def step (s : State) (e : Event) : State := (stepOut s e).1

def outcome (s : State) (e : Event) : Option Outcome := (stepOut s e).2

/-- The object after `pipe_create`, whose buffer is not cleared. -/
def pipeCreate (buf : ℕ → UInt8) : Object := ⟨⟨buf, 0, 0⟩, 1, 1, 2, false⟩

/-- The two descriptors of `pipe_create`. -/
def createFds (nonblock : Bool) : List Fd := [⟨true, false, nonblock⟩, ⟨false, true, nonblock⟩]

end NeoOS.Pipe

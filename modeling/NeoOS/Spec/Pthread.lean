import Mathlib.Algebra.Group.Nat.Defs
import Mathlib.Data.Fintype.Basic
import NeoOS.Lib.Run

/-!
# Mutexes and condition variables (`lib/pthread.c`)

A step is one atomic instruction or one call of the kernel. The kernel's part is its
specification: `futex_wait` compares the word and goes to sleep in one step, and
`futex_wake` wakes sleepers of its choice, as many as it is asked for and there are. A sleep
can end at any time, by a signal or a timeout. A mutex is unlocked by the thread that holds it.
-/

namespace NeoOS.Pthread

open Function (update)

namespace Mutex

inductive Pc
  | out
  /-- before the exchange; `woken` says that the thread has slept since its last one -/
  | xchg (woken : Bool)
  /-- before `futex_wait` -/
  | wait
  | asleep
  | holds
  /-- in `pthread_mutex_unlock`, before the store -/
  | store
  /-- in `pthread_mutex_unlock`, before `futex_wake` -/
  | wake
deriving DecidableEq

structure State (n : ℕ) where
  word : ℤ
  pc : Fin n → Pc

inductive Event (n : ℕ)
  | trylock (t : Fin n)
  | lock (t : Fin n)
  | unlock (t : Fin n)
  /-- the next step of a call; `u` is the thread that `futex_wake` picks -/
  | go (t u : Fin n)
  /-- the sleep ends by itself -/
  | interrupt (t : Fin n)

variable {n : ℕ}

def go (t u : Fin n) (s : State n) : State n :=
  match s.pc t with
  | .xchg _ => ⟨2, update s.pc t (if s.word ≠ 0 then .wait else .holds)⟩
  | .wait => { s with pc := update s.pc t (if s.word = 2 then .asleep else .xchg false) }
  | .store => ⟨0, update s.pc t .wake⟩
  | .wake =>
    if s.pc u = .asleep then { s with pc := update (update s.pc u (.xchg true)) t .out }
    else if ∀ v, s.pc v ≠ .asleep then { s with pc := update s.pc t .out }
    else s
  | _ => s

def step (s : State n) : Event n → State n
  | .trylock t => if s.pc t = .out ∧ s.word = 0 then ⟨1, update s.pc t .holds⟩ else s
  | .lock t =>
    if s.pc t = .out then
      if s.word = 0 then ⟨1, update s.pc t .holds⟩
      else { s with pc := update s.pc t (if s.word ≠ 2 then .xchg false else .wait) }
    else s
  | .unlock t =>
    -- fetch_sub
    if s.pc t = .holds then ⟨s.word - 1, update s.pc t (if s.word ≠ 1 then .store else .out)⟩ else s
  | .go t u => go t u s
  | .interrupt t => if s.pc t = .asleep then { s with pc := update s.pc t (.xchg true) } else s

/-- After `pthread_mutex_init`. -/
def State.initial (n : ℕ) : State n := ⟨0, fun _ => .out⟩

end Mutex

namespace Cond

inductive Pc (n : ℕ)
  | out
  /-- `seq` is read, the mutex not yet released -/
  | seen (seq : ℕ)
  /-- the mutex is released, before `futex_wait` -/
  | released (seq : ℕ)
  | asleep
  /-- `futex_wait` has returned -/
  | back
  /-- in a signal or a broadcast, before `futex_wake`; `ws` are the waits that the call is for -/
  | wakes (all : Bool) (ws : List (Fin n × ℕ))
deriving DecidableEq

/-- A call of `pthread_cond_signal` or `pthread_cond_broadcast`, with the waits that were under way when it
was issued: the thread, and the number of its wait. -/
structure Call (n : ℕ) where
  all : Bool
  ws : List (Fin n × ℕ)

structure State (n : ℕ) where
  seq : ℕ
  pc : Fin n → Pc n
  /-- how many waits a thread has begun -/
  waits : Fin n → ℕ
  /-- the calls that have returned -/
  calls : List (Call n)

inductive Event (n : ℕ)
  /-- the load of `cond_wait_common` -/
  | read (t : Fin n)
  | release (t : Fin n)
  | futexWait (t : Fin n)
  /-- the sleep ends by itself -/
  | interrupt (t : Fin n)
  | return (t : Fin n)
  /-- the addition of a signal, or of a broadcast -/
  | add (t : Fin n) (all : Bool)
  /-- the `futex_wake`; `u` is the thread that it picks for a signal -/
  | futexWake (t u : Fin n)

variable {n : ℕ}

/-- The thread has released the mutex in its wait. -/
def Pc.waiting : Pc n → Bool
  | .released _ | .asleep => true
  | _ => false

/-- The waits that are under way. -/
def State.waiters (s : State n) : List (Fin n × ℕ) :=
  ((List.finRange n).filter fun t => (s.pc t).waiting).map fun t => (t, s.waits t)

/-- `seq` after the addition. -/
def State.next (s : State n) : ℕ := (s.seq + 1) % 2 ^ 32

def State.goto (s : State n) (t : Fin n) (pc : Pc n) : State n := { s with pc := update s.pc t pc }

def step (s : State n) : Event n → State n
  | .read t => if s.pc t = .out then { s with waits := update s.waits t (s.waits t + 1) }.goto t (.seen s.seq) else s
  | .release t =>
    match s.pc t with
    | .seen seq => s.goto t (.released seq)
    | _ => s
  | .futexWait t =>
    match s.pc t with
    | .released seq => s.goto t (if s.seq = seq then .asleep else .back)
    | _ => s
  | .interrupt t => if s.pc t = .asleep then s.goto t .back else s
  | .return t => if s.pc t = .back then s.goto t .out else s
  | .add t all => if s.pc t = .out then { s with seq := s.next }.goto t (.wakes all s.waiters) else s
  | .futexWake t u =>
    match s.pc t with
    | .wakes all ws =>
      let s' : State n := { s with calls := ⟨all, ws⟩ :: s.calls }
      if all then { s' with pc := fun v => if s.pc v = Pc.asleep then .back else s.pc v }.goto t .out
      else if s.pc u = .asleep then (s'.goto u .back).goto t .out
      else if ∀ v, s.pc v ≠ .asleep then s'.goto t .out
      else s
    | _ => s

/-- After `pthread_cond_init`. -/
def State.initial (n : ℕ) : State n := ⟨0, fun _ => .out, fun _ => 0, []⟩

end Cond

end NeoOS.Pthread

import Mathlib.Algebra.Group.Nat.Defs
import Mathlib.Data.Fintype.Basic
import NeoOS.Lib.Run

/-!
# Semaphores (`lib/semaphore.c`)

The value is a signed 32-bit word. As in `Spec/Pthread.lean` a step is one atomic instruction or
one call of the kernel, and the kernel's part is its specification. A compare-exchange is a weak
one: it may fail on the value it expects.
-/

namespace NeoOS.Semaphore

open Function (update)

inductive Pc
  | out
  /-- in `sem_wait_common` before the load; `woken` says that the thread has slept and not finished its test -/
  | load (timed woken : Bool)
  /-- before the compare-exchange, with the value loaded -/
  | cas (v : ℤ) (timed woken : Bool)
  /-- before `futex_wait` or `futex_wait_timeout` -/
  | wait (timed : Bool)
  | asleep (timed : Bool)
  /-- in `sem_trywait` before the compare-exchange -/
  | tryCas (v : ℤ)
  /-- in `sem_post` before `futex_wake` -/
  | wake
deriving DecidableEq

structure State (n : ℕ) where
  value : ℤ
  pc : Fin n → Pc
  /-- how many posts and waits have succeeded -/
  posts : ℕ
  waits : ℕ

inductive Event (n : ℕ)
  | wait (t : Fin n) (timed : Bool)
  /-- the load of `sem_trywait` -/
  | trywait (t : Fin n)
  /-- the addition of `sem_post` -/
  | post (t : Fin n)
  /-- the next step of a call; `fails` lets a compare-exchange fail, `u` is the thread that `futex_wake` picks -/
  | go (t u : Fin n) (fails : Bool)
  /-- the sleep ends by a signal -/
  | interrupt (t : Fin n)
  | timeout (t : Fin n)

variable {n : ℕ}

def State.goto (s : State n) (t : Fin n) (pc : Pc) : State n := { s with pc := update s.pc t pc }

def Pc.isAsleep : Pc → Bool
  | .asleep _ => true
  | _ => false

/-- The thread takes one. -/
def State.take (s : State n) (t : Fin n) : State n := { s with value := s.value - 1, waits := s.waits + 1 }.goto t .out

def go (t u : Fin n) (fails : Bool) (s : State n) : State n :=
  match s.pc t with
  | .load timed woken => s.goto t (if 0 < s.value then .cas s.value timed woken else .wait timed)
  | .cas v timed woken => if s.value = v ∧ fails = false then s.take t else s.goto t (.load timed woken)
  | .wait timed => s.goto t (if s.value = 0 then .asleep timed else .load timed false)
  | .tryCas v =>
    if s.value = v ∧ fails = false then s.take t else s.goto t (if 0 < s.value then .tryCas s.value else .out)
  | .wake =>
    match s.pc u with
    | .asleep timed => (s.goto u (.load timed true)).goto t .out
    | _ => if ∀ v, (s.pc v).isAsleep = false then s.goto t .out else s
  | _ => s

def step (s : State n) : Event n → State n
  | .wait t timed => if s.pc t = .out then s.goto t (.load timed false) else s
  | .trywait t => if s.pc t = .out then s.goto t (if 0 < s.value then .tryCas s.value else .out) else s
  | .post t =>
    if s.pc t = .out then { s with value := Int.bmod (s.value + 1) (2 ^ 32), posts := s.posts + 1 }.goto t .wake else s
  | .go t u fails => go t u fails s
  | .interrupt t =>
    match s.pc t with
    | .asleep timed => s.goto t (.load timed true)
    | _ => s
  | .timeout t => if s.pc t = .asleep true then s.goto t .out else s

/-- `sem_init` -/
def semInit (n value : ℕ) : State n := ⟨Int.bmod value (2 ^ 32), fun _ => .out, 0, 0⟩

end NeoOS.Semaphore

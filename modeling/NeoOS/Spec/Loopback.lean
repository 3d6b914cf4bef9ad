import Mathlib.Data.Nat.Notation
import Mathlib.Logic.Function.Basic

/-!
# Loopback delivery (`kernel/net/net.c`)

Threads that send through the loopback device: a packet handed to `loopback_transmit` is received before the call
returns, and the receiver may send further packets meanwhile. Each thread counts its own nesting, but the ring of
deferred packets is one for all of them. What the receivers send, when they return and which thread goes on is the list
of events. The code asks a packet for its length only. `sent`, `delivered` and `dropped` are for the statements, and so
is the thread a packet is marked with, the one that sent it.
-/

namespace NeoOS.Loopback

open Function (update)

def maxDepth : ℕ := 4
def hardDepth : ℕ := 8
def deferMax : ℕ := 64
def deferSlot : ℕ := 2048

variable {P : Type} (len : P → ℕ)

/-- `depth` is `net_loop_depth` of each thread, and `calls` has for each of its calls of `loopback_transmit` whose
receiver runs the counter at its start, the innermost first. `queue` is the ring `loop_defer` from `loop_head` on, and
`taken` has the packets that a thread (the first number) has taken from it and not yet given to `net_ipv4_input`. -/
structure State (P : Type) where
  depth : ℕ → ℕ
  calls : ℕ → List ℕ
  queue : List (ℕ × P)
  taken : List (ℕ × ℕ × P)
  statLoopDropped : ℕ
  sent : List (ℕ × P)
  delivered : List (ℕ × P)
  dropped : List (ℕ × P)

inductive Event (P : Type)
  /-- the receiver that runs in thread `t`, or its first sender, calls `loopback_transmit` -/
  | transmit (t : ℕ) (p : P)
  /-- `net_ipv4_input` returns to the innermost call of thread `t`, or is called with the packet it has taken -/
  | go (t : ℕ)

/-- `loopback_transmit` up to `net_ipv4_input`. -/
def transmit (t : ℕ) (p : P) (s : State P) : State P :=
  if maxDepth ≤ s.depth t ∧ ¬ (deferSlot < len p ∧ s.depth t < hardDepth) then
    if s.queue.length < deferMax ∧ len p ≤ deferSlot then { s with queue := s.queue ++ [(t, p)] }
    else { s with dropped := (t, p) :: s.dropped, statLoopDropped := s.statLoopDropped + 1 }
  else
    { s with
      calls := update s.calls t (s.depth t :: s.calls t)
      depth := update s.depth t (s.depth t + 1)
      delivered := (t, p) :: s.delivered }

/-- `loopback_transmit` from `net_ipv4_input` on: the outermost frame takes the next packet of the ring, under
`loop_lock`, and every other frame, and it too when the ring is empty, returns. -/
def ret (t : ℕ) (s : State P) : State P :=
  match s.calls t, s.queue with
  | [], _ => s
  | _ :: calls, [] => { s with depth := update s.depth t (s.depth t - 1), calls := update s.calls t calls }
  | _ :: calls, p :: queue =>
    if s.depth t = 1 then { s with queue := queue, taken := (t, p) :: s.taken }
    else { s with depth := update s.depth t (s.depth t - 1), calls := update s.calls t calls }

def step (s : State P) : Event P → State P
  | .transmit t p =>
    match s.taken.find? (·.1 == t) with
    | some _ => s
    | none => transmit len t p { s with sent := (t, p) :: s.sent }
  | .go t =>
    match s.taken.find? (·.1 == t) with
    | some x => { s with taken := s.taken.eraseP (·.1 == t), delivered := x.2 :: s.delivered }
    | none => ret t s

def initial : State P := ⟨fun _ => 0, fun _ => [], [], [], 0, [], [], []⟩

end NeoOS.Loopback

import Mathlib.Data.List.Basic

/-!
# Spinlocks with ranks (`kernel/sync/lock.c`)

CPUs that take and release spinlocks. A lock is its address; `rank` is what `spin_init` gave it. Each atomic exchange
on a lock word and each store to it is a step; what a CPU does in between touches only its own `struct cpu`. A CPU that
calls `lock_panic` halts.
-/

namespace NeoOS.Spinlock

def lockMaxHeld : ℕ := 8

def spinDeadlockLimit : ℕ := 1000000000

/-- The message of a `lock_panic`. -/
inductive Panic
  | rankInversion
  | heldStackOverflow
  | spinTimedOut
  | nothingHeld
  | pairSame
  | pairFewHeld

/-- Where a CPU is in the lock functions. `spins` is the count of `spin_acquire_watched`. -/
inductive Pc
  | out
  | spin (l spins : ℕ)
  /-- `spin_lock_ordered_pair`, for the first lock -/
  | spinFirst (first second spins : ℕ)
  | spinSecond (first second spins : ℕ)
  /-- `spin_unlock_ordered_pair`, before the last store -/
  | release (first : ℕ)
  | halted (why : Panic)

/-- A CPU with its `held_ranks`, innermost first. The locks it holds, the latest first, are not recorded by the code. -/
structure Cpu where
  pc : Pc
  heldRanks : List ℕ
  held : List ℕ

/-- The calls a program makes. -/
inductive Op
  | lock (l : ℕ)
  | unlock (l : ℕ)
  | lockPair (a b : ℕ)
  | unlockPair (a b : ℕ)

structure State (κ : Type*) where
  locked : ℕ → Bool
  cpu : κ → Cpu

inductive Event (κ : Type*)
  /-- a call up to its first exchange or store, with it if it is a store -/
  | call (c : κ) (op : Op)
  /-- the next exchange or store of a call -/
  | go (c : κ)

/-- `lock_rank_ok`. -/
def lockRankOk (heldRanks : List ℕ) (rank : ℕ) : Bool :=
  match heldRanks with
  | [] => true
  | top :: _ => decide (top < rank)

def Cpu.panic (c : Cpu) (why : Panic) : Cpu := { c with pc := .halted why }

/-- `spin_lock_irqsave` up to the exchange. -/
def spinLockIrqsave (rank : ℕ → ℕ) (l : ℕ) (c : Cpu) : Cpu :=
  if ¬lockRankOk c.heldRanks (rank l) then c.panic .rankInversion
  else if c.heldRanks.length ≥ lockMaxHeld then c.panic .heldStackOverflow
  else { c with pc := .spin l 0 }

/-- `spin_lock_ordered_pair` up to the first exchange. -/
def spinLockOrderedPair (rank : ℕ → ℕ) (a b : ℕ) (c : Cpu) : Cpu :=
  if a = b then c.panic .pairSame
  else
    let first := if a < b then a else b
    let second := if a < b then b else a
    if ¬lockRankOk c.heldRanks (rank first) then c.panic .rankInversion
    else if c.heldRanks.length + 2 > lockMaxHeld then c.panic .heldStackOverflow
    else { c with pc := .spinFirst first second 0 }

variable {κ : Type*} [DecidableEq κ]

def State.set (s : State κ) (c : κ) (x : Cpu) : State κ := { s with cpu := Function.update s.cpu c x }

/-- `spin_unlock_irqrestore`. -/
def spinUnlockIrqrestore (c : κ) (l : ℕ) (s : State κ) : State κ :=
  let x := s.cpu c
  if x.heldRanks.length = 0 then s.set c (x.panic .nothingHeld)
  else
    { s.set c { x with heldRanks := x.heldRanks.drop 1, held := x.held.erase l } with
      locked := Function.update s.locked l false }

/-- `spin_unlock_ordered_pair` up to the store to the second lock. -/
def spinUnlockOrderedPair (c : κ) (a b : ℕ) (s : State κ) : State κ :=
  let x := s.cpu c
  if x.heldRanks.length < 2 then s.set c (x.panic .pairFewHeld)
  else
    let first := if a < b then a else b
    let second := if a < b then b else a
    { s.set c { pc := .release first, heldRanks := x.heldRanks.drop 2, held := x.held.erase second } with
      locked := Function.update s.locked second false }

/-- One turn of `spin_acquire_watched`: `got` if the exchange finds the lock free, else `again` with the new count. -/
def acquire (c : κ) (l spins : ℕ) (again : ℕ → Pc) (got : Cpu → Cpu) (s : State κ) : State κ :=
  let x := s.cpu c
  if s.locked l then
    if spins + 1 > spinDeadlockLimit then s.set c (x.panic .spinTimedOut) else s.set c { x with pc := again (spins + 1) }
  else { s.set c (got { x with held := l :: x.held }) with locked := Function.update s.locked l true }

def step (rank : ℕ → ℕ) (s : State κ) : Event κ → State κ
  | .call c op =>
    match (s.cpu c).pc with
    | .out =>
      match op with
      | .lock l => s.set c (spinLockIrqsave rank l (s.cpu c))
      | .unlock l => spinUnlockIrqrestore c l s
      | .lockPair a b => s.set c (spinLockOrderedPair rank a b (s.cpu c))
      | .unlockPair a b => spinUnlockOrderedPair c a b s
    | _ => s
  | .go c =>
    match (s.cpu c).pc with
    | .spin l spins => acquire c l spins (.spin l) (fun x => { x with pc := .out, heldRanks := rank l :: x.heldRanks }) s
    | .spinFirst first second spins =>
      acquire c first spins (.spinFirst first second) (fun x => { x with pc := .spinSecond first second 0 }) s
    | .spinSecond first second spins =>
      acquire c second spins (.spinSecond first second)
        (fun x => { x with pc := .out, heldRanks := rank second :: rank first :: x.heldRanks }) s
    | .release first =>
      let x := s.cpu c
      { s.set c { x with pc := .out, held := x.held.erase first } with locked := Function.update s.locked first false }
    | _ => s

def State.initial : State κ where
  locked _ := false
  cpu _ := ⟨.out, [], []⟩

end NeoOS.Spinlock

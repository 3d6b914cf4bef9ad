import Mathlib.Algebra.Group.Nat.Defs
import Mathlib.Logic.Function.Basic

/-!
# Walks over the process table (`kernel/sched/proc_table.c`)

Every section under a lock is one step. A process is its pid; `n` threads may be in `proc_table_for_each_ref`, which
calls its function once for every process of a batch. `stayed` is for the statements.
-/

namespace NeoOS.ProcIter

open Function (update)

def buckets : ℕ := 256

def procHash (pid : ℕ) : ℕ := pid % buckets

structure Walk where
  gen : ℕ
  /-- the bucket the walk is at, `buckets` at its end -/
  bucket : ℕ
  /-- a full batch was taken from that bucket -/
  mid : Bool
  visited : List ℕ

/-- The chain of a bucket has the processes of `procs` with its hash, in their order there. -/
structure State (n : ℕ) where
  procs : List ℕ
  /-- `iter_gen` of a process -/
  stamp : ℕ → ℕ
  iterGen : ℕ
  walks : Fin n → Walk
  /-- the processes that are in the table since a walk started -/
  stayed : Fin n → ℕ → Bool

inductive Event (n : ℕ)
  | insert (pid : ℕ)
  | remove (pid : ℕ)
  | start (w : Fin n)
  | batch (w : Fin n)

variable {n : ℕ}

/-- The first eight processes of the bucket without the walk's stamp. -/
def batch (k : Walk) (s : State n) : List ℕ :=
  (s.procs.filter fun p => procHash p = k.bucket ∧ s.stamp p ≠ k.gen).take 8

/-- The walk has taken a batch, and is done with the bucket if it was not full. -/
def Walk.take (k : Walk) (b : List ℕ) : Walk :=
  { k with
    visited := k.visited ++ b
    bucket := if b.length < 8 then k.bucket + 1 else k.bucket
    mid := !decide (b.length < 8) }

def nextGen (s : State n) : ℕ := (s.iterGen + 1) % 2 ^ 32

def step (s : State n) : Event n → State n
  -- a process is new, and its structure is zeroed
  | .insert pid => if pid ∈ s.procs then s else { s with procs := pid :: s.procs, stamp := update s.stamp pid 0 }
  | .remove pid => { s with procs := s.procs.erase pid, stayed := fun w => update (s.stayed w) pid false }
  | .start w =>
    if (s.walks w).bucket < buckets then s
    else
      { s with
        iterGen := nextGen s
        walks := update s.walks w ⟨nextGen s, 0, false, []⟩
        stayed := update s.stayed w fun p => p ∈ s.procs }
  | .batch w =>
    let k := s.walks w
    let b := batch k s
    if k.bucket < buckets then
      { s with
        stamp := fun p => if p ∈ b then k.gen else s.stamp p
        walks := update s.walks w (k.take b) }
    else s

def initial : State n where
  procs := []
  stamp _ := 0
  iterGen := 0
  walks _ := ⟨0, buckets, false, []⟩
  stayed _ _ := false

end NeoOS.ProcIter

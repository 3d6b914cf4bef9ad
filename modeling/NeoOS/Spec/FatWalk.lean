import Mathlib.Algebra.Group.Nat.Defs
import Mathlib.Logic.Function.Basic

/-!
# Cluster chains (`kernel/fs/fatfs.c`)

Threads that read or write files of one volume, each with a cursor of its own. Every read of a FAT
entry is a step, and between two of them the FAT may change: most transfers hold `fs_lock`, but
`build_user_address_space` reads a program without it. A FAT sector that cannot be read is left out.
-/

namespace NeoOS.FatWalk

open Function (update)

/-- What a walk uses of `struct fat_volume`; `next` is `fat16_next_cluster`. -/
structure Volume where
  fat32 : Bool
  clusterBytes : ℕ
  next : ℕ → ℕ

/-- `fat_is_eoc`. -/
def Volume.isEoc (v : Volume) (cluster : ℕ) : Bool := if v.fat32 then 0x0FFFFFF8 ≤ cluster else 0xFFF8 ≤ cluster

/-- `fat16_set_next_cluster`. -/
def Volume.setNext (v : Volume) (cluster value : ℕ) : Volume :=
  { v with next := update v.next cluster (value % if v.fat32 then 2 ^ 28 else 2 ^ 16) }

/-- `struct fat_walk`. -/
structure Walk where
  first : ℕ
  index : ℕ
  cluster : ℕ
deriving DecidableEq

/-- Where a thread stands in `fat16_read_at_v` or `write_range`. -/
inductive Pc
  | idle
  /-- between two calls of `cluster_at_offset` on the chain from `first` -/
  | transfer (first : ℕ) (w : Walk)
  /-- in the loop of `cluster_at_offset`, at cluster `cluster` with number `i` of the chain -/
  | walk (first : ℕ) (w : Walk) (index i cluster : ℕ)
deriving DecidableEq

structure State where
  vol : Volume
  pc : ℕ → Pc

inductive Event
  | start (t first : ℕ)
  /-- `cluster_at_offset` is called for a sector -/
  | look (t offset : ℕ)
  /-- a round of its loop, or its return -/
  | go (t : ℕ)
  | finish (t : ℕ)
  /-- an entry of the FAT changes; `fat16_write_file_v` extends and `fat16_free_chain` frees a chain so -/
  | setNext (cluster value : ℕ)

/-- What a call of `cluster_at_offset` was for, and the cluster it returns. -/
structure Found where
  first : ℕ
  index : ℕ
  cluster : ℕ
deriving DecidableEq

/-- The start of `cluster_at_offset`: from the cursor, if it stands in this chain and not too far. -/
def enter (first index : ℕ) (w : Walk) : Pc :=
  if w.first = first ∧ 2 ≤ first ∧ w.index ≤ index then .walk first w index w.index w.cluster else .walk first w index 0 first

/-- A round of the loop of `cluster_at_offset`; a walk that meets the end of the chain leaves the cursor as it is. -/
def Volume.round (v : Volume) (first : ℕ) (w : Walk) (index i cluster : ℕ) : Pc × Option Found :=
  if i < index then
    if v.next cluster < 2 ∨ v.isEoc (v.next cluster) then (.transfer first w, some ⟨first, index, v.next cluster⟩)
    else (.walk first w index (i + 1) (v.next cluster), none)
  else (.transfer first ⟨first, index, cluster⟩, some ⟨first, index, cluster⟩)

def stepOut (s : State) : Event → State × Option Found
  | .start t first =>
    match s.pc t with
    | .idle => ({ s with pc := update s.pc t (.transfer first ⟨0, 0, 0⟩) }, none)
    | _ => (s, none)
  | .look t offset =>
    match s.pc t with
    | .transfer first w => ({ s with pc := update s.pc t (enter first (offset / s.vol.clusterBytes) w) }, none)
    | _ => (s, none)
  | .go t =>
    match s.pc t with
    | .walk first w index i cluster =>
      let r := s.vol.round first w index i cluster
      ({ s with pc := update s.pc t r.1 }, r.2)
    | _ => (s, none)
  | .finish t =>
    match s.pc t with
    | .transfer _ _ => ({ s with pc := update s.pc t .idle }, none)
    | _ => (s, none)
  | .setNext cluster value => ({ s with vol := s.vol.setNext cluster value }, none)

def step (s : State) (e : Event) : State := (stepOut s e).1

/-- The call of `cluster_at_offset` that returns. -/
def found (s : State) (e : Event) : Option Found := (stepOut s e).2

end NeoOS.FatWalk

import Mathlib.Algebra.Group.Nat.Defs
import NeoOS.Lib.Run

/-!
# The block cache (`kernel/fs/blkcache.c`)

128 buffers in 64 hash chains over the sectors of the ATA drives. A miss and a write run the transfer with
the lock dropped, so a call of `blkcache_read` or `blkcache_write` has several steps and the calls of
different threads interleave: `Call` is where a thread is between two of them.

A chain is the list of the buffers linked in it. The counters of hits and misses are left out.
-/

namespace NeoOS.BlkCache

variable {Sector : Type}

/-- The name callers give a sector. -/
structure Key where
  drive : ℕ
  lba : ℕ
  deriving DecidableEq

/-- The sector the ATA driver goes to: one bit of the drive and 28 bits of the address. -/
def Key.place (k : Key) : ℕ × ℕ := (k.drive % 2, k.lba % 2 ^ 28)

/-- `bucket_of`. -/
def bucketOf (k : Key) : ℕ := ((k.lba * 2654435761 % 2 ^ 32) ^^^ (k.drive * 2 ^ 24 % 2 ^ 32)) % 64

/-- `struct blk_buf`. -/
structure Buf (Sector : Type) where
  data : Sector
  key : Key
  valid : Bool
  lastUsed : ℕ

/-- Where a thread is: outside, with what its last call returned; after a miss; with the sector read and
not yet installed; with the sector written or not and the cache not yet told. -/
inductive Call (Sector : Type)
  | idle (out : Option Sector)
  | missed (k : Key)
  | fetched (k : Key) (data : Sector)
  | wrote (k : Key) (data : Sector) (ok : Bool)

abbrev Index := Fin 128

/-- The cache, the disk and the threads. -/
structure State (Sector : Type) where
  entries : Index → Buf Sector
  buckets : ℕ → List Index
  clock : ℕ
  disk : ℕ × ℕ → Sector
  calls : ℕ → Call Sector

namespace State

/-- After `blkcache_init`: nothing is valid. -/
def init (blank : Sector) (disk : ℕ × ℕ → Sector) : State Sector where
  entries _ := ⟨blank, ⟨0, 0⟩, false, 0⟩
  buckets _ := []
  clock := 0
  disk := disk
  calls _ := .idle none

/-- `lookup`. -/
def lookup (s : State Sector) (k : Key) : Option Index :=
  (s.buckets (bucketOf k)).find? fun i => (s.entries i).valid && (s.entries i).key == k

def setEntry (s : State Sector) (i : Index) (b : Buf Sector) : State Sector :=
  { s with entries := Function.update s.entries i b }

def setCall (s : State Sector) (t : ℕ) (c : Call Sector) : State Sector :=
  { s with calls := Function.update s.calls t c }

/-- `unlink_buf`. -/
def unlinkBuf (s : State Sector) (i : Index) : State Sector :=
  let e := s.entries i
  if !e.valid then s
  else
    let b := bucketOf e.key
    { s with buckets := Function.update s.buckets b ((s.buckets b).erase i) }.setEntry i { e with valid := false }

/-- The victim loop of `claim`: the first buffer that is not valid, or the least recently used one. -/
def victimLoop (s : State Sector) : List Index → Option Index → Option Index
  | [], victim => victim
  | i :: is, victim =>
    if !(s.entries i).valid then some i
    else victimLoop s is (match victim with
      | none => some i
      | some v => if (s.entries i).lastUsed < (s.entries v).lastUsed then some i else some v)

/-- The buffer `claim` reuses. -/
def victim (s : State Sector) : Index := (s.victimLoop (List.finRange 128) none).getD 0

/-- `claim`: the buffer of the sector, or another one that is now linked for it. -/
def claim (s : State Sector) (k : Key) : Index × State Sector :=
  match s.lookup k with
  | some i => (i, s)
  | none =>
    let v := s.victim
    let s := s.unlinkBuf v
    let s := s.setEntry v { s.entries v with key := k, valid := true }
    (v, { s with buckets := Function.update s.buckets (bucketOf k) (v :: s.buckets (bucketOf k)) })

/-- `claim` and the copy of the sector into the buffer. -/
def fill (s : State Sector) (k : Key) (data : Sector) : State Sector :=
  let r := s.claim k
  { r.2 with clock := r.2.clock + 1 }.setEntry r.1
    { r.2.entries r.1 with data := data, lastUsed := r.2.clock + 1 }

/-- `blkcache_invalidate_drive`. -/
def invalidateDrive (s : State Sector) (drive : ℕ) : State Sector :=
  (List.finRange 128).foldl (fun s i =>
    if (s.entries i).valid && (s.entries i).key.drive == drive then s.unlinkBuf i else s) s

end State

/-- One step: a section under the lock or a transfer. In `write`, `left` is what a failed transfer has left
in the sector. -/
inductive Event (Sector : Type)
  | read (t : ℕ) (k : Key)
  | fetch (t : ℕ) (ok : Bool)
  | install (t : ℕ)
  | write (t : ℕ) (k : Key) (data : Sector) (left : Option Sector)
  | publish (t : ℕ)
  | invalidate (drive : ℕ)

/-- The lookup of `blkcache_read`. -/
def readStep (s : State Sector) (t : ℕ) (k : Key) : State Sector :=
  match s.lookup k with
  | some i =>
    let e := s.entries i
    ({ s with clock := s.clock + 1 }.setEntry i { e with lastUsed := s.clock + 1 }).setCall t (.idle (some e.data))
  | none => s.setCall t (.missed k)

/-- The transfer of `blkcache_write`. -/
def writeStep (s : State Sector) (t : ℕ) (k : Key) (data : Sector) (left : Option Sector) : State Sector :=
  { s with disk := Function.update s.disk k.place (left.getD data) }.setCall t (.wrote k data left.isNone)

/-- The second half of `blkcache_write`: the cache gets the sector, or forgets it if the write failed. -/
def publishStep (s : State Sector) (t : ℕ) (k : Key) (data : Sector) (ok : Bool) : State Sector :=
  if ok then (s.fill k data).setCall t (.idle none)
  else
    match s.lookup k with
    | some i => (s.unlinkBuf i).setCall t (.idle none)
    | none => s.setCall t (.idle none)

/-- A thread takes the next step of its call, or starts one; an event that does not fit changes nothing. -/
def step (s : State Sector) : Event Sector → State Sector
  | .read t k => match s.calls t with
    | .idle _ => readStep s t k
    | _ => s
  | .fetch t ok => match s.calls t with
    | .missed k => s.setCall t (if ok then .fetched k (s.disk k.place) else .idle none)
    | _ => s
  | .install t => match s.calls t with
    | .fetched k data => (s.fill k data).setCall t (.idle (some data))
    | _ => s
  | .write t k data left => match s.calls t with
    | .idle _ => writeStep s t k data left
    | _ => s
  | .publish t => match s.calls t with
    | .wrote k data ok => publishStep s t k data ok
    | _ => s
  | .invalidate drive => s.invalidateDrive drive

end NeoOS.BlkCache

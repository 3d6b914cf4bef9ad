import Mathlib.Algebra.Group.Nat.Defs
import NeoOS.Lib.Word

/-!
# The physical frame allocator (`kernel/mm/pmm.c`)

A free block is named by its first frame. Its list links live in the block
itself in the source; here they are the two maps `next` and `prev`, and frame 0,
whose address is the null pointer, ends a list. `frameOrder` and `refcount` are
the per-frame arrays, with their `uint8_t` and `uint16_t` values.

`pmmAlloc`, `pmmFree` and `pmmFrameShare` are the locked entry points (each runs
as one step under `pmm_lock`); `pmmInit` walks the Multiboot2 information and
frees every frame of available memory.
-/

namespace NeoOS

open Function (update)

/-- `PMM_FRAME_SIZE`. -/
def frameSize : ℕ := 4096

/-- `PMM_MAX_ORDER`. -/
def maxOrder : ℕ := 10

/-- `PMM_MAX_FRAMES`: 4 GiB of frames. -/
def maxFrames : ℕ := 1048576

/-- `ORDER_NONE`. -/
def orderNone : ℕ := 255

structure Pmm where
  freeLists : ℕ → ℕ
  next : ℕ → ℕ
  prev : ℕ → ℕ
  frameOrder : ℕ → ℕ
  refcount : ℕ → ℕ
  totalFree : ℕ
  totalUsable : ℕ

/-- `frame_to_phys`. -/
def frameToPhys (frame : ℕ) : ℕ := frame * frameSize

/-- `phys_to_frame`. -/
def physToFrame (phys : ℕ) : ℕ := phys / frameSize

namespace Pmm

def listPush (s : Pmm) (order block : ℕ) : Pmm :=
  { s with
    prev := if s.freeLists order ≠ 0
      then update (update s.prev block 0) (s.freeLists order) block
      else update s.prev block 0
    next := update s.next block (s.freeLists order)
    freeLists := update s.freeLists order block
    frameOrder := update s.frameOrder block order }

def listRemove (s : Pmm) (order block : ℕ) : Pmm :=
  { s with
    next := if s.prev block ≠ 0 then update s.next (s.prev block) (s.next block) else s.next
    freeLists := if s.prev block ≠ 0 then s.freeLists
      else update s.freeLists order (s.next block)
    prev := if s.next block ≠ 0 then update s.prev (s.next block) (s.prev block) else s.prev
    frameOrder := update s.frameOrder block orderNone }

/-- The search loop of `pmm_alloc_locked`: the first order from `found` on with a
free block, `n` orders being left to look at. -/
def findOrder (s : Pmm) : ℕ → ℕ → Option ℕ
  | 0, _ => none
  | n + 1, found => if s.freeLists found ≠ 0 then some found else findOrder s n (found + 1)

/-- The split loop of `pmm_alloc_locked`: `found_order` falls from `order + n` to
`order` and each upper half goes to its own free list. -/
def splitDown (s : Pmm) (frame order : ℕ) : ℕ → Pmm
  | 0 => s
  | n + 1 => splitDown (s.listPush (order + n) (frame + 2 ^ (order + n))) frame order n

/-- `refcount` with the frames of one block changed by `g`. -/
def mapBlock (r : ℕ → ℕ) (frame order : ℕ) (g : ℕ → ℕ) : ℕ → ℕ :=
  fun f => if frame ≤ f ∧ f < frame + 2 ^ order then g (r f) else r f

/-- `pmm_alloc_locked`: the physical address of the block, 0 when there is none. -/
def allocLocked (s : Pmm) (order : ℕ) : ℕ × Pmm :=
  if order > maxOrder then (0, s)
  else match s.findOrder (maxOrder + 1 - order) order with
    | none => (0, s)
    | some found =>
      let block := s.freeLists found
      let s := (s.listRemove found block).splitDown block order (found - order)
      (frameToPhys block,
        { s with
          refcount := mapBlock s.refcount block order fun _ => 1
          totalFree := sub64 s.totalFree (2 ^ order) })

/-- The merge loop of `pmm_free_locked`, with at most `n` orders to climb. -/
def coalesce (s : Pmm) : ℕ → ℕ → ℕ → Pmm × ℕ × ℕ
  | 0, frame, order => (s, frame, order)
  | n + 1, frame, order =>
    let buddyFrame := frame ^^^ 2 ^ order
    if buddyFrame ≥ maxFrames ∨ s.frameOrder buddyFrame ≠ order then (s, frame, order)
    else coalesce (s.listRemove order buddyFrame) n
      (if frame < buddyFrame then frame else buddyFrame) (order + 1)

/-- `pmm_free_locked`. An address or an order out of range is ignored. -/
def freeLocked (s : Pmm) (phys order : ℕ) : Pmm :=
  let frame := physToFrame phys
  if phys % frameSize ≠ 0 ∨ frame ≥ maxFrames ∨ 2 ^ order > maxFrames - frame then s
  else
    let s := { s with refcount := mapBlock s.refcount frame order dec16 }
    -- still shared: not actually free yet
    if ∃ i < 2 ^ order, s.refcount (frame + i) ≠ 0 then s
    else
      let s := { s with totalFree := add64 s.totalFree (2 ^ order) }
      let m := s.coalesce (maxOrder - order) frame order
      m.1.listPush m.2.2 m.2.1

end Pmm

/-- `pmm_alloc`. With `fail` the debug build's failure injection hits this call. -/
def pmmAlloc (fail : Bool) (s : Pmm) (order : ℕ) : ℕ × Pmm :=
  if fail then (0, s) else s.allocLocked order

/-- `pmm_free`. -/
def pmmFree (s : Pmm) (phys order : ℕ) : Pmm := s.freeLocked phys order

/-- `pmm_frame_share`. -/
def pmmFrameShare (s : Pmm) (phys : ℕ) : Pmm :=
  let frame := physToFrame phys
  { s with refcount := update s.refcount frame (inc16 (s.refcount frame)) }

/-- `pmm_frame_refcount`. -/
def pmmFrameRefcount (s : Pmm) (phys : ℕ) : ℕ := s.refcount (physToFrame phys)

/-! ## Initialisation from the Multiboot2 memory map -/

/-- `struct multiboot_mmap_entry`. -/
structure MmapEntry where
  baseAddr : ℕ
  length : ℕ
  type : ℕ
  deriving DecidableEq

/-- Where `pmm_init` starts in an entry: the real-mode, BIOS and EBDA area below
1 MiB is never handed out. -/
def MmapEntry.usable (e : MmapEntry) : ℕ := if e.baseAddr < 0x100000 then 0x100000 else e.baseAddr

/-- Where an entry ends, on `uint64_t`. -/
def MmapEntry.regionEnd (e : MmapEntry) : ℕ := add64 e.baseAddr e.length

/-- The physical extent of the kernel image, from the linker script. -/
structure KernelImage where
  start : ℕ
  stop : ℕ
  le : start ≤ stop
  lt : stop ≤ 0x100000000

/-- The loop of `add_region`. It leaves at the frame limit, so `fuel` above
`maxFrames` never runs out. -/
def addRegionLoop (stop : ℕ) : ℕ → ℕ → Pmm → Pmm
  | 0, _, s => s
  | fuel + 1, phys, s =>
    if add64 phys frameSize ≤ stop then
      if physToFrame phys ≥ maxFrames then s
      else
        let s := pmmFree s phys 0
        addRegionLoop stop fuel (add64 phys frameSize) { s with totalUsable := add64 s.totalUsable 1 }
    else s

/-- `add_region`: both ends are rounded to whole frames inside the region. -/
def addRegion (s : Pmm) (start stop : ℕ) : Pmm :=
  addRegionLoop (stop / frameSize * frameSize) (maxFrames + 1)
    (add64 start (frameSize - 1) / frameSize * frameSize) s

/-- One round of the entry loop of `pmm_init`. -/
def initEntry (K : KernelImage) (s : Pmm) (e : MmapEntry) : Pmm :=
  if e.type ≠ 1 then s
  else
    if e.usable < K.stop ∧ e.regionEnd > K.start then
      let s := if e.usable < K.start then addRegion s e.usable K.start else s
      if e.regionEnd > K.stop then addRegion s K.stop e.regionEnd else s
    else addRegion s e.usable e.regionEnd

/-- The allocator before the memory map is read. -/
def pmmReset : Pmm where
  freeLists _ := 0
  next _ := 0
  prev _ := 0
  frameOrder _ := orderNone
  refcount _ := 1
  totalFree := 0
  totalUsable := 0

/-- A little-endian `uint32_t` in memory. -/
def read32 (mem : ℕ → UInt8) (a : ℕ) : ℕ :=
  (mem a).toNat + 256 * ((mem (a + 1)).toNat + 256 * ((mem (a + 2)).toNat + 256 * (mem (a + 3)).toNat))

/-- A little-endian `uint64_t` in memory. -/
def read64 (mem : ℕ → UInt8) (a : ℕ) : ℕ := read32 mem a + u32 * read32 mem (a + 4)

inductive PmmOp
  | alloc (fail : Bool) (order : ℕ)
  | free (phys order : ℕ)
  | share (phys : ℕ)

/-- The allocator together with the number of references its callers hold to each
frame. -/
structure Ledger where
  pmm : Pmm
  held : ℕ → ℕ

def Ledger.step (l : Ledger) : PmmOp → Ledger
  | .alloc fail order =>
    let r := pmmAlloc fail l.pmm order
    if r.1 = 0 then { l with pmm := r.2 }
    else { pmm := r.2, held := Pmm.mapBlock l.held (physToFrame r.1) order fun n => n + 1 }
  | .free phys order =>
    { pmm := pmmFree l.pmm phys order
      held := Pmm.mapBlock l.held (physToFrame phys) order fun n => n - 1 }
  | .share phys =>
    { pmm := pmmFrameShare l.pmm phys
      held := update l.held (physToFrame phys) (l.held (physToFrame phys) + 1) }

/-- What callers promise: a free gives back a reference held to each frame of an
aligned block, and a frame is shared by a holder, up to 65535 references. -/
def Ledger.Promised (l : Ledger) : PmmOp → Prop
  | .alloc _ _ => True
  | .free phys order => phys % frameSize = 0 ∧ order ≤ maxOrder ∧ 2 ^ order ∣ physToFrame phys ∧
      ∀ i < 2 ^ order, 0 < l.held (physToFrame phys + i)
  | .share phys => phys % frameSize = 0 ∧ 0 < l.held (physToFrame phys) ∧
      l.held (physToFrame phys) < 65535

/-- The allocator fresh from `pmm_init`, with no references handed out. -/
def Ledger.init (s : Pmm) : Ledger := { pmm := s, held := fun _ => 0 }

end NeoOS

import NeoOS.Spec.Pmm

/-!
# Frames in the kernel's hands (`kernel/mm/paging.c`, `kernel/smp/tlb.c`)

The part of the kernel's state that its memory paths share: the frame allocator,
the bytes of physical memory, the page tables below the PML4 slots every address
space has in common, the deferred-free queue of `tlb.c`, and the blocks that
`heap.c` has from the frame allocator.

Two oracles decide what the state does not show. `pmmFail n` says whether the
`n`-th `pmm_alloc` is one the debug build's injection fails, `heapNeed n` what the
`n`-th `kmalloc` has to ask `pmm_alloc` for: nothing if its size class has a free
slot, else a block of some order, and whether that is a large block of its own or
a page for the size class.
-/

namespace NeoOS

/-- A page-table entry: the frame field and the bits the kernel looks at. -/
structure Pte where
  frame : ℕ
  present : Bool
  writable : Bool
  user : Bool
  cow : Bool
  nofree : Bool
  protnone : Bool
  nx : Bool
  deriving DecidableEq

namespace Pte

/-- The all-zero entry. -/
def zero : Pte := ⟨0, false, false, false, false, false, false, false⟩

/-- `PAGE_HAS_FRAME`: mapped, or parked `PROT_NONE`. -/
def hasFrame (e : Pte) : Bool := e.present || e.protnone

/-- The entry of a fresh table: `PAGE_PRESENT | PAGE_WRITABLE | PAGE_USER`. -/
def table (frame : ℕ) : Pte := ⟨frame, true, true, true, false, false, false, false⟩

end Pte

/-- `struct deferred`: a frame that waits for a shootdown of `owner`. -/
structure Deferred where
  frame : ℕ
  owner : ℕ
  order : ℕ

/-- A block that the heap has from `pmm_alloc`, taken for `kmalloc` number `call`. -/
structure HeapBlock where
  call : ℕ
  frame : ℕ
  order : ℕ
  large : Bool

structure Kernel where
  pmm : Pmm
  pmmFail : ℕ → Bool
  allocs : ℕ
  heapNeed : ℕ → Option (ℕ × Bool)
  kmallocs : ℕ
  heap : List HeapBlock
  mem : ℕ → ℕ → UInt8
  kern : ℕ → ℕ → Pte
  deferred : List Deferred
  overflow : List Deferred

namespace Kernel

/-- `pmm_alloc`, the frame instead of its address. -/
def alloc (k : Kernel) (order : ℕ) : Option ℕ × Kernel :=
  let r := pmmAlloc (k.pmmFail k.allocs) k.pmm order
  (if r.1 = 0 then none else some (physToFrame r.1), { k with pmm := r.2, allocs := k.allocs + 1 })

/-- `pmm_free` of a frame. -/
def free (k : Kernel) (frame order : ℕ) : Kernel :=
  { k with pmm := pmmFree k.pmm (frameToPhys frame) order }

/-- `pmm_frame_share` of a frame. -/
def share (k : Kernel) (frame : ℕ) : Kernel :=
  { k with pmm := pmmFrameShare k.pmm (frameToPhys frame) }

/-- `kmalloc`: whether it returns memory. -/
def kmalloc (k : Kernel) : Bool × Kernel :=
  let k' := { k with kmallocs := k.kmallocs + 1 }
  match k.heapNeed k.kmallocs with
  | none => (true, k')
  | some (order, large) =>
    match k'.alloc order with
    | (none, k') => (false, k')
    | (some f, k') => (true, { k' with heap := ⟨k.kmallocs, f, order, large⟩ :: k'.heap })

/-- `kfree` of what `kmalloc` number `call` returned. A large block goes back to
`pmm_free`; a slot goes back to its page, and the page stays. -/
def kfree (k : Kernel) (call : ℕ) : Kernel :=
  match k.heap.find? fun x => x.call == call && x.large with
  | none => k
  | some x => { k with heap := k.heap.eraseP fun x => x.call == call && x.large }.free x.frame x.order

/-- Fills a frame with zero bytes. -/
def zeroFrame (k : Kernel) (frame : ℕ) : Kernel :=
  { k with mem := Function.update k.mem frame fun _ => 0 }

/-- One byte of a frame is written. -/
def poke (k : Kernel) (frame offset : ℕ) (b : UInt8) : Kernel :=
  { k with mem := Function.update k.mem frame (Function.update (k.mem frame) offset b) }

/-- `alloc_table_frame`: a zeroed frame. -/
def allocTableFrame (k : Kernel) : Option ℕ × Kernel :=
  match k.alloc 0 with
  | (none, k) => (none, k)
  | (some f, k) => (some f, k.zeroFrame f)

/-- `DEFER_MAX`. -/
def deferMax : ℕ := 256

/-- `tlb_defer_free`. Without memory for an overflow node the frame is leaked. -/
def deferFree (k : Kernel) (d : Deferred) : Kernel :=
  if k.deferred.length < deferMax then { k with deferred := k.deferred ++ [d] }
  else
    let r := k.kmalloc
    if r.1 then { r.2 with overflow := d :: r.2.overflow } else r.2

/-- Whether a shootdown of `pml4` (0: of every address space) releases the entry. -/
def covered (pml4 : ℕ) (d : Deferred) : Bool := pml4 == 0 || d.owner == pml4

/-- The array loop of `tlb_flush_deferred` from index `i`: a released entry is
replaced by the last one, which is then looked at. -/
def flushArray (pml4 : ℕ) : ℕ → ℕ → Kernel → Kernel
  | 0, _, k => k
  | fuel + 1, i, k =>
    match k.deferred[i]? with
    | none => k
    | some d =>
      if covered pml4 d then
        let rest := (k.deferred.set i (k.deferred.getLastD d)).dropLast
        flushArray pml4 fuel i ({ k with deferred := rest }.free d.frame d.order)
      else flushArray pml4 fuel (i + 1) k

/-- The overflow loop: released entries go to `pmm_free`, the others are kept in
reverse. -/
def flushOverflow (pml4 : ℕ) : List Deferred → List Deferred → Kernel → Kernel
  | [], keep, k => { k with overflow := keep ++ k.overflow }
  | d :: ds, keep, k =>
    if covered pml4 d then flushOverflow pml4 ds keep (k.free d.frame d.order)
    else flushOverflow pml4 ds (d :: keep) k

/-- `tlb_flush_deferred`, the tail of `tlb_shootdown`. -/
def flushDeferred (k : Kernel) (pml4 : ℕ) : Kernel :=
  let k := flushArray pml4 k.deferred.length 0 k
  flushOverflow pml4 k.overflow [] { k with overflow := [] }

end Kernel

end NeoOS

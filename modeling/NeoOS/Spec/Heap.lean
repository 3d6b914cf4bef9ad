import NeoOS.Lib.Run
import NeoOS.Spec.Pmm

/-!
# The kernel heap (`kernel/mm/heap.c`, default build)

Small requests are served from pages of slots of one size class, with a list of the free slots threaded
through the slots themselves; a large request gets a block of frames with a header in front. `mem` is the
memory of the heap: the value of the field that starts at an address. The frame allocator is the one of
`NeoOS.Spec.Pmm`, and its blocks are reached through the physical map.

`State` adds the callers: the allocations they hold, and their writes into them.
-/

namespace NeoOS.Heap

/-- `heap_size_classes`. -/
def sizeClasses : List ℕ := [16, 32, 64, 128, 256, 512, 1024, 2048]

/-- `HEAP_LARGE_MARKER`. -/
def largeMarker : ℕ := 0xFFFFFFFF

/-- `sizeof(struct heap_page)`, which is aligned to 64 bytes. -/
def headerSize : ℕ := 64

/-- `sizeof(struct heap_free_slot)`. -/
def freeSlotSize : ℕ := 8

/-- `PHYSMAP_BASE`. -/
def physmapBase : ℕ := 0xFFFF800000000000

/-- `phys_to_virt`. -/
def physToVirt (phys : ℕ) : ℕ := physmapBase + phys

/-- `virt_to_phys_physmap`. -/
def virtToPhys (virt : ℕ) : ℕ := virt - physmapBase

structure Store where
  pmm : Pmm
  mem : ℕ → ℕ
  classPages : ℕ → ℕ

/-! ## The fields of `struct heap_page`; the link of a free slot is its first field -/

def nextField (page : ℕ) : ℕ := page
def freeListField (page : ℕ) : ℕ := page + 8
def sizeClassField (page : ℕ) : ℕ := page + 16
def metaField (page : ℕ) : ℕ := page + 20

def Store.write (h : Store) (a v : ℕ) : Store := { h with mem := Function.update h.mem a v }

/-- `size_class_for`. -/
def sizeClassFor (size : ℕ) : Option ℕ := sizeClasses.findIdx? (size ≤ ·)

/-- The number of slots in a page. -/
def slotCount (sizeClass : ℕ) : ℕ := (frameSize - headerSize) / sizeClass

/-- The address of a slot. -/
def slotAddr (page sizeClass i : ℕ) : ℕ := page + headerSize + i * sizeClass

/-- The loop of `heap_new_page` over the first slots. -/
def carve (h : Store) (page sizeClass : ℕ) : ℕ → Store
  | 0 => h
  | i + 1 =>
    let h := carve h page sizeClass i
    let slot := slotAddr page sizeClass i
    let h := h.write slot (h.mem (freeListField page))
    h.write (freeListField page) slot

/-- `heap_new_page`: the address of the page, 0 if there is no frame. -/
def heapNewPage (fail : Bool) (h : Store) (sizeClass : ℕ) : ℕ × Store :=
  let r := pmmAlloc fail h.pmm 0
  let h := { h with pmm := r.2 }
  if r.1 = 0 then (0, h)
  else
    let page := physToVirt r.1
    let h := h.write (sizeClassField page) sizeClass
    let h := h.write (freeListField page) 0
    let h := h.write (nextField page) 0
    let h := carve h page sizeClass (slotCount sizeClass)
    (page, h.write (metaField page) (slotCount sizeClass))

/-- The scan of `kmalloc_locked` for a page with a free slot: 0 at the end of the list, `none` if the list
has not ended after `fuel` pages. -/
def findPage (mem : ℕ → ℕ) : ℕ → ℕ → Option ℕ
  | 0, _ => none
  | fuel + 1, page =>
    if page ≠ 0 ∧ mem (freeListField page) = 0 then findPage mem fuel (mem (nextField page)) else some page

/-- The first free slot of a page is handed out. -/
def takeSlot (h : Store) (page : ℕ) : ℕ × Store :=
  let slot := h.mem (freeListField page)
  let h := h.write (freeListField page) (h.mem slot)
  (slot, h.write (metaField page) (sub32 (h.mem (metaField page)) 1))

/-- The small path of `kmalloc_locked`. There are fewer pages than frames. -/
def kmallocSmall (fail : Bool) (h : Store) (classIndex : ℕ) : Option (ℕ × Store) := do
  let page ← findPage h.mem (maxFrames + 1) (h.classPages classIndex)
  if page ≠ 0 then some (takeSlot h page)
  else
    let r := heapNewPage fail h (sizeClasses.getD classIndex 0)
    if r.1 = 0 then some (0, r.2)
    else
      let h := r.2.write (nextField r.1) (r.2.classPages classIndex)
      some (takeSlot { h with classPages := Function.update h.classPages classIndex r.1 } r.1)

/-- The order loop: `frames_needed` is at most `2 ^ 52`. -/
def orderLoop (framesNeeded : ℕ) : ℕ → ℕ → ℕ
  | 0, order => order
  | fuel + 1, order => if 2 ^ order < framesNeeded then orderLoop framesNeeded fuel (order + 1) else order

/-- The buddy order of a large request, on `uint64_t`. -/
def largeOrder (size : ℕ) : ℕ :=
  let needed := add64 size headerSize
  orderLoop (add64 needed (frameSize - 1) / frameSize) 64 0

/-- The large path of `kmalloc_locked`. -/
def kmallocLarge (fail : Bool) (h : Store) (size : ℕ) : ℕ × Store :=
  let order := largeOrder size
  let r := pmmAlloc fail h.pmm order
  let h := { h with pmm := r.2 }
  if r.1 = 0 then (0, h)
  else
    let page := physToVirt r.1
    let h := h.write (sizeClassField page) largeMarker
    let h := h.write (metaField page) order
    let h := h.write (freeListField page) 0
    let h := h.write (nextField page) 0
    (page + headerSize, h)

/-- `kmalloc`, 0 being the null pointer; `none` if it does not return. -/
def kmalloc (fail : Bool) (h : Store) (size : ℕ) : Option (ℕ × Store) :=
  if size = 0 then some (0, h)
  else
    let size := if size < freeSlotSize then freeSlotSize else size
    match sizeClassFor size with
    | some classIndex => kmallocSmall fail h classIndex
    | none => some (kmallocLarge fail h size)

/-- `kfree`. -/
def kfree (h : Store) (p : ℕ) : Store :=
  if p = 0 then h
  else
    let page := p / frameSize * frameSize
    if h.mem (sizeClassField page) = largeMarker then
      { h with pmm := pmmFree h.pmm (virtToPhys page) (h.mem (metaField page)) }
    else
      let h := h.write p (h.mem (freeListField page))
      let h := h.write (freeListField page) p
      h.write (metaField page) ((h.mem (metaField page) + 1) % u32)

/-! ## Callers -/

/-- An allocation a caller holds. -/
structure Alloc where
  ptr : ℕ
  size : ℕ
  deriving DecidableEq

/-- The heap and the allocations that callers hold. `stuck` is set when a call does not return. -/
structure State where
  store : Store
  live : List Alloc
  stuck : Bool

/-- After `heap_init`. -/
def State.init (pmm : Pmm) (mem : ℕ → ℕ) : State := ⟨⟨pmm, mem, fun _ => 0⟩, [], false⟩

/-- An allocation is freed or written to by its index among those held. -/
inductive Event
  | kmalloc (fail : Bool) (size : ℕ)
  | kfree (i : ℕ)
  | write (i : ℕ) (values : ℕ → ℕ)

def step (s : State) : Event → State
  | .kmalloc fail size => match kmalloc fail s.store size with
    | none => { s with stuck := true }
    | some (p, h) => { s with store := h, live := if p = 0 then s.live else ⟨p, size⟩ :: s.live }
  | .kfree i => match s.live[i]? with
    | none => s
    | some a => { s with store := kfree s.store a.ptr, live := s.live.eraseIdx i }
  | .write i values => match s.live[i]? with
    | none => s
    | some a => { s with store := { s.store with mem := fun x =>
        if a.ptr ≤ x ∧ x < a.ptr + a.size then values x else s.store.mem x } }

end NeoOS.Heap

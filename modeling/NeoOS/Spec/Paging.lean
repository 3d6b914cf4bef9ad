import NeoOS.Spec.Kernel

/-!
# Page tables (`kernel/mm/paging.c`)

The four levels of an address space are one map `ent`: `ent l key` is the entry
of level `l` (4 for the PML4 down to 1 for the leaves) whose index path is `key`,
the page number of any address below it without its last `l - 1` indices. The
entries below the PML4 slots 0, 256 and 511 are not the address space's own: all
address spaces share the kernel's, `Kernel.kern`.

A walk looks at entries of tables that are present only, so what `ent` says below
an absent entry is never read; a fresh table is zeroed when it is linked.
-/

namespace NeoOS

/-- `MMAP_BASE`. -/
def mmapBase : ℕ := 0x500000000000

/-- `MMAP_LIMIT`. -/
def mmapLimit : ℕ := 0x600000000000

/-- `USER_ADDR_LIMIT`. -/
def userAddrLimit : ℕ := 0x800000000000

/-- The page number a walk takes from an address: its bits 12 to 47. -/
def vpnOf (va : ℕ) : ℕ := va / 4096 % 2 ^ 36

/-- The index path of level `l` for a page number. -/
def keyOf (l v : ℕ) : ℕ := v / 512 ^ (l - 1)

/-- The PML4 slots that hold the kernel's own tables. -/
def sharedSlot (i : ℕ) : Bool := i == 0 || i == 256 || i == 511

/-- The PML4 slot of an entry. -/
def slotOf (l key : ℕ) : ℕ := key / 512 ^ (4 - l)

structure AddrSpace where
  pml4 : ℕ
  ent : ℕ → ℕ → Pte

/-- The kernel and the address space a walk runs in. -/
structure Vm where
  k : Kernel
  as : AddrSpace

/-- `m` with the entry at `l`, `key` replaced. -/
def setEnt (m : ℕ → ℕ → Pte) (l key : ℕ) (e : Pte) : ℕ → ℕ → Pte :=
  fun l' key' => if l' = l ∧ key' = key then e else m l' key'

/-- `m` with the 512 entries of the table below `l`, `key` cleared. -/
def zeroBelow (m : ℕ → ℕ → Pte) (l key : ℕ) : ℕ → ℕ → Pte :=
  fun l' key' => if l' + 1 = l ∧ key' / 512 = key then Pte.zero else m l' key'

namespace Vm

/-- Whether the entry belongs to a table all address spaces share. -/
def isShared (l key : ℕ) : Bool := l != 4 && sharedSlot (slotOf l key)

def get (vm : Vm) (l key : ℕ) : Pte :=
  if isShared l key then vm.k.kern l key else vm.as.ent l key

def set (vm : Vm) (l key : ℕ) (e : Pte) : Vm :=
  if isShared l key then { vm with k := { vm.k with kern := setEnt vm.k.kern l key e } }
  else { vm with as := { vm.as with ent := setEnt vm.as.ent l key e } }

/-- Links the fresh table in `frame` at `l`, `key`. -/
def link (vm : Vm) (l key frame : ℕ) : Vm :=
  let vm : Vm := if isShared (l - 1) (key * 512)
    then { vm with k := { vm.k with kern := zeroBelow vm.k.kern l key } }
    else { vm with as := { vm.as with ent := zeroBelow vm.as.ent l key } }
  vm.set l key (Pte.table frame)

/-- `table_entry` with `create`: whether the next table exists now. A failed
allocation leaves the entry alone. -/
def tableEntry (vm : Vm) (l key : ℕ) : Bool × Vm :=
  if (vm.get l key).present then (true, vm)
  else match vm.k.allocTableFrame with
    | (none, k) => (false, { vm with k := k })
    | (some f, k) => (true, { vm with k := k }.link l key f)

/-- `paging_map_into`: `false` when a table could not be allocated. -/
def mapInto (vm : Vm) (va frame : ℕ) (flags : Pte) : Bool × Vm :=
  let v := vpnOf va
  let r4 := vm.tableEntry 4 (keyOf 4 v)
  if !r4.1 then r4
  else
    let r3 := r4.2.tableEntry 3 (keyOf 3 v)
    if !r3.1 then r3
    else
      let r2 := r3.2.tableEntry 2 (keyOf 2 v)
      if !r2.1 then r2
      else (true, r2.2.set 1 v { flags with frame := frame, present := true })

/-- The walk without `create` reaches a page table. -/
def hasPt (vm : Vm) (v : ℕ) : Bool :=
  (vm.get 4 (keyOf 4 v)).present && (vm.get 3 (keyOf 3 v)).present &&
    (vm.get 2 (keyOf 2 v)).present

/-- The leaf entry of a page, 0 where the walk stops early. -/
def leaf (vm : Vm) (v : ℕ) : Pte := if vm.hasPt v then vm.get 1 v else Pte.zero

/-- `paging_unmap_from`. The frame is deferred, never freed at once. -/
def unmapFrom (vm : Vm) (va : ℕ) (freeFrame : Bool) : Vm :=
  let v := vpnOf va
  let e := vm.leaf v
  if e.hasFrame then
    let vm := vm.set 1 v Pte.zero
    if freeFrame then { vm with k := vm.k.deferFree ⟨e.frame, vm.as.pml4, 0⟩ } else vm
  else vm

/-- The entry `paging_setprot_from` writes over `e`. A copy-on-write page never
becomes writable here. -/
def setprotPte (e flags : Pte) : Pte :=
  if flags.present then
    { flags with
      frame := e.frame
      nofree := flags.nofree || e.nofree
      cow := flags.cow || e.cow
      writable := flags.writable && !e.cow }
  else { Pte.zero with frame := e.frame, nofree := e.nofree, cow := e.cow, protnone := true }

/-- `paging_setprot_from`. -/
def setprotFrom (vm : Vm) (va : ℕ) (flags : Pte) : Vm :=
  let v := vpnOf va
  let e := vm.leaf v
  if e.hasFrame then vm.set 1 v (setprotPte e flags) else vm

/-- `paging_handle_cow_fault`: whether the fault was a copy-on-write fault and
write access has been granted. -/
def handleCowFault (vm : Vm) (va : ℕ) : Bool × Vm :=
  let v := vpnOf va
  let e := vm.leaf v
  if !e.present || e.writable || !e.cow then (false, vm)
  else if pmmFrameRefcount vm.k.pmm (frameToPhys e.frame) = 1 then
    -- sole remaining owner
    (true, vm.set 1 v { e with cow := false, writable := true })
  else match vm.k.alloc 0 with
    | (none, k) => (false, { vm with k := k })
    | (some f, k) =>
      let k := { k with mem := Function.update k.mem f (k.mem e.frame) }
      let vm := { vm with k := k }.set 1 v { e with frame := f, cow := false, writable := true }
      (true, { vm with k := vm.k.free e.frame 0 })

/-- The page loop of `user_range_writable`. -/
def pagesWritable (vm : Vm) : List ℕ → Bool × Vm
  | [] => (true, vm)
  | va :: rest =>
    let e := vm.leaf (vpnOf va)
    if !(e.present && e.user) then (false, vm)
    else if e.writable then vm.pagesWritable rest
    else if !e.cow then (false, vm)
    else
      let r := vm.handleCowFault va
      if r.1 then r.2.pagesWritable rest else r

/-- The pages `start`, `start + 4096`, … below `stop`. -/
def pages (start stop : ℕ) : List ℕ :=
  (List.range ((stop - start + 4095) / 4096)).map fun i => start + 4096 * i

/-- `user_range_writable`. Copy-on-write pages are broken on the way. -/
def userRangeWritable (vm : Vm) (addr len : ℕ) : Bool × Vm :=
  if len = 0 then (true, vm)
  else if add64 addr len < addr then (false, vm)
  else if add64 addr len > userAddrLimit then (false, vm)
  else vm.pagesWritable (pages (addr / 4096 * 4096) (addr + len))

/-- The frames of the table tree at entry `l`, `key`, in the order
`free_address_space` defers them: what lies below first, the table last. -/
def treeFrames (as : AddrSpace) : ℕ → ℕ → List ℕ
  | 0, _ => []
  | 1, key =>
    if (as.ent 1 key).hasFrame && !(as.ent 1 key).nofree then [(as.ent 1 key).frame] else []
  | l + 2, key =>
    if (as.ent (l + 2) key).present then
      ((List.range 512).flatMap fun i => treeFrames as (l + 1) (key * 512 + i)) ++
        [(as.ent (l + 2) key).frame]
    else []

/-- Every frame of an address space, the PML4 itself last. -/
def spaceFrames (as : AddrSpace) : List ℕ :=
  ((List.range 512).flatMap fun i => if sharedSlot i then [] else treeFrames as 4 i) ++ [as.pml4]

/-- `free_address_space`. -/
def freeAddressSpace (k : Kernel) (as : AddrSpace) : Kernel :=
  (spaceFrames as).foldl (fun k f => k.deferFree ⟨f, as.pml4, 0⟩) k

end Vm

end NeoOS

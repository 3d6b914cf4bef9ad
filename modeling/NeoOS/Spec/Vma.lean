import NeoOS.Spec.Paging

/-!
# Mappings of a process (`kernel/mm/vma.c`)

A process keeps the list of its mappings and the cursor unhinted mappings are
placed at. Each operation is the source's `*_locked` body: it runs as one step
under the process's `mm_lock`. The shootdown that follows it in the public entry
point is `Kernel.flushDeferred`, a step of its own.
-/

namespace NeoOS

/-- `page_down`. -/
def pageDown (a : ℕ) : ℕ := a / 4096 * 4096

/-- `page_up`, on `uint64_t`. -/
def pageUp (a : ℕ) : ℕ := add64 a 4095 / 4096 * 4096

/-- `struct vma`, the range `[start, stop)`. -/
structure Vma where
  start : ℕ
  stop : ℕ
  prot : ℕ
  flags : ℕ
  deriving DecidableEq

/-- `PROT_WRITE`. -/
def protWrite (prot : ℕ) : Bool := prot.testBit 1

/-- `PROT_EXEC`. -/
def protExec (prot : ℕ) : Bool := prot.testBit 2

/-- `MAP_FIXED`. -/
def mapFixed (flags : ℕ) : Bool := flags.testBit 4

/-- `MAP_ANONYMOUS`. -/
def mapAnonymous (flags : ℕ) : Bool := flags.testBit 5

/-- `VMA_PHYS`: device frames, never freed. -/
def vmaPhys (flags : ℕ) : Bool := flags.testBit 6

/-- `-EINVAL`, `-ENOMEM`, `-ENOSYS`, `-ENODEV`. -/
inductive Errno
  | einval | enomem | enosys | enodev
  deriving DecidableEq

/-- The memory side of `struct process`. -/
structure Proc where
  as : AddrSpace
  vmas : List Vma
  mmapNext : ℕ

/-- The leaf flags for a protection other than `PROT_NONE`. (`paging_map_into` sets
`PAGE_PRESENT` itself.) -/
def protPte (prot : ℕ) : Pte :=
  { Pte.zero with present := true, user := true, writable := protWrite prot, nx := !protExec prot }

/-- `vma_find`: the search stops behind the first mapping that starts later. -/
def vmaFind (addr : ℕ) : List Vma → Option Vma
  | [] => none
  | v :: vs =>
    if v.start ≤ addr ∧ addr < v.stop then some v
    else if v.start > addr then none
    else vmaFind addr vs

/-- Same protection and flags. -/
def Vma.mergeable (v : Vma) (prot flags : ℕ) : Bool := v.prot == prot && v.flags == flags

/-- The mapping a new range ending at `stop` merges forwards with, and the rest. -/
def forwardMatch (stop prot flags : ℕ) : List Vma → Option (Vma × List Vma)
  | nx :: rest => if nx.start == stop && nx.mergeable prot flags then some (nx, rest) else none
  | [] => none

/-- `vma_insert` between `pre` and `post` when it does not merge backwards. -/
def insertBetween (k : Kernel) (pre post : List Vma) (start stop prot flags : ℕ) :
    Option (List Vma) × Kernel :=
  match forwardMatch stop prot flags post with
  | some (nx, rest) => (some (pre ++ { nx with start := start } :: rest), k)
  | none =>
    let r := k.kmalloc
    if r.1 then (some (pre ++ ⟨start, stop, prot, flags⟩ :: post), r.2) else (none, r.2)

/-- `vma_insert`: the new list, `none` when `kmalloc` fails. -/
def vmaInsert (k : Kernel) (vmas : List Vma) (start stop prot flags : ℕ) :
    Option (List Vma) × Kernel :=
  let pre := vmas.takeWhile fun v => v.stop ≤ start
  let post := vmas.dropWhile fun v => v.stop ≤ start
  match pre.getLast? with
  | some prev =>
    if prev.stop == start && prev.mergeable prot flags then
      -- merge backwards, and forwards on top of it
      match forwardMatch stop prot flags post with
      | some (nx, rest) => (some (pre.dropLast ++ { prev with stop := nx.stop } :: rest), k)
      | none => (some (pre.dropLast ++ { prev with stop := stop } :: post), k)
    else insertBetween k pre post start stop prot flags
  | none => insertBetween k pre post start stop prot flags

/-- `unmap_range`. -/
def unmapRange (vm : Vm) (start stop : ℕ) (freeFrames : Bool) : Vm :=
  (Vm.pages start stop).foldl (fun vm va => vm.unmapFrom va freeFrames) vm

/-- The loop of `vma_munmap_locked`: whether it succeeds, and the list it leaves. -/
def munmapLoop (start stop : ℕ) : List Vma → Vm → Bool × List Vma × Vm
  | [], vm => (true, [], vm)
  | v :: vs, vm =>
    if v.stop ≤ start then
      let r := munmapLoop start stop vs vm
      (r.1, v :: r.2.1, r.2.2)
    else if v.start ≥ stop then (true, v :: vs, vm)
    else
      let vm := unmapRange vm (max v.start start) (min v.stop stop) (!vmaPhys v.flags)
      if v.start < start ∧ v.stop > stop then
        -- punching the middle: keep the head, add a tail
        let r := vm.k.kmalloc
        let vm := { vm with k := r.2 }
        if r.1 then (true, { v with stop := start } :: { v with start := stop } :: vs, vm)
        else (false, v :: vs, vm)
      else if v.start < start then
        let r := munmapLoop start stop vs vm
        (r.1, { v with stop := start } :: r.2.1, r.2.2)
      else if v.stop > stop then (true, { v with start := stop } :: vs, vm)
      else munmapLoop start stop vs vm

/-- A step's new kernel and process with the value it returns. -/
structure Result (α : Type) where
  k : Kernel
  p : Proc
  ret : Except Errno α

/-- `vma_munmap_locked`. -/
def vmaMunmap (k : Kernel) (p : Proc) (addr len : ℕ) : Result Unit :=
  let stop := pageUp (add64 addr len)
  if addr % 4096 ≠ 0 then ⟨k, p, .error .einval⟩
  else if stop ≤ addr then ⟨k, p, .error .einval⟩
  else
    let r := munmapLoop addr stop p.vmas ⟨k, p.as⟩
    ⟨r.2.2.k, { p with as := r.2.2.as, vmas := r.2.1 },
      if r.1 then .ok () else .error .enomem⟩

/-- The tail of `vma_mmap_locked`: nothing is mapped yet. -/
def mmapInsert (k : Kernel) (p : Proc) (addr len prot flags : ℕ) : Result ℕ :=
  match vmaInsert k p.vmas addr (add64 addr len) prot flags with
  | (some vmas, k) => ⟨k, { p with vmas := vmas }, .ok addr⟩
  | (none, k) => ⟨k, p, .error .enomem⟩

/-- `vma_mmap_locked`. The result of the unmapping under `MAP_FIXED` is ignored. -/
def vmaMmap (k : Kernel) (p : Proc) (addr len prot flags : ℕ) : Result ℕ :=
  if len = 0 then ⟨k, p, .error .einval⟩
  else if protWrite prot && protExec prot then ⟨k, p, .error .einval⟩
  else
    let len := pageUp len
    if mapFixed flags then
      if addr % 4096 ≠ 0 then ⟨k, p, .error .einval⟩
      else
        let r := vmaMunmap k p addr len
        mmapInsert r.k r.p addr len prot flags
    else
      let addr := p.mmapNext
      if add64 addr len > mmapLimit ∨ add64 addr len < addr then ⟨k, p, .error .enomem⟩
      else mmapInsert k { p with mmapNext := add64 addr len } addr len prot flags

/-- The frame field of an address: `PAGE_ADDR_MASK` keeps bits 12 to 51. -/
def frameField (phys : ℕ) : ℕ := phys / 4096 % 2 ^ 40

/-- The mapping loop of `vma_map_phys_locked` from page `i` on, `n` pages being
left: the page it failed at, if it did. -/
def mapPhysLoop (addr phys : ℕ) (flags : Pte) : ℕ → ℕ → Vm → Option ℕ × Vm
  | 0, _, vm => (none, vm)
  | n + 1, i, vm =>
    let r := vm.mapInto (addr + 4096 * i) (frameField (add64 phys (4096 * i))) flags
    if r.1 then mapPhysLoop addr phys flags n (i + 1) r.2 else (some i, r.2)

/-- The leaf flags of a device mapping. -/
def physPte (prot : ℕ) : Pte :=
  { Pte.zero with user := true, nx := true, nofree := true, writable := protWrite prot }

/-- `vma_map_phys_locked`. -/
def vmaMapPhys (k : Kernel) (p : Proc) (phys len prot : ℕ) : Result ℕ :=
  if len = 0 then ⟨k, p, .error .einval⟩
  else if protExec prot then ⟨k, p, .error .einval⟩
  else
    let len := pageUp len
    let addr := p.mmapNext
    if add64 addr len > mmapLimit ∨ add64 addr len < addr then ⟨k, p, .error .enomem⟩
    else match vmaInsert k p.vmas addr (add64 addr len) prot 0x41 with
      | (none, k) => ⟨k, p, .error .enomem⟩
      | (some vmas, k) =>
        let p := { p with vmas := vmas, mmapNext := add64 addr len }
        match mapPhysLoop addr phys (physPte prot) (len / 4096) 0 ⟨k, p.as⟩ with
        | (none, vm) => ⟨vm.k, { p with as := vm.as }, .ok addr⟩
        | (some i, vm) =>
          -- roll back the pages mapped so far, then the vma
          let vm := (List.range i).foldl (fun vm b => vm.unmapFrom (addr + 4096 * b) false) vm
          let r := vmaMunmap vm.k { p with as := vm.as } addr len
          ⟨r.k, r.p, .error .enomem⟩

/-- Rewrites the entries of the populated pages of a range. -/
def setprotRange (vm : Vm) (start stop : ℕ) (flags : Pte) : Vm :=
  (Vm.pages start stop).foldl (fun vm va => vm.setprotFrom va flags) vm

/-- The leaf flags `vma_mprotect_locked` passes on: none of them for `PROT_NONE`. -/
def mprotectPte (prot : ℕ) : Pte := if prot = 0 then Pte.zero else protPte prot

/-- The part of the `vma_mprotect_locked` loop that changes a mapping which starts
inside the range; `rest` is what the loop makes of the mappings behind it. -/
def protectPiece (stop prot : ℕ) (v : Vma) (vs : List Vma) (vm : Vm)
    (rest : Vm → Bool × List Vma × Vm) : Bool × List Vma × Vm :=
  if v.stop > stop then
    -- trim a trailing piece that keeps its old protection
    let r := vm.k.kmalloc
    let vm := { vm with k := r.2 }
    if r.1 then
      (true, { v with stop := stop, prot := prot } :: { v with start := stop } :: vs,
        setprotRange vm v.start stop (mprotectPte prot))
    else (false, v :: vs, vm)
  else
    let r := rest (setprotRange vm v.start v.stop (mprotectPte prot))
    (r.1, { v with prot := prot } :: r.2.1, r.2.2)

/-- The loop of `vma_mprotect_locked`. -/
def mprotectLoop (start stop prot : ℕ) : List Vma → Vm → Bool × List Vma × Vm
  | [], vm => (true, [], vm)
  | v :: vs, vm =>
    if v.stop ≤ start then
      let r := mprotectLoop start stop prot vs vm
      (r.1, v :: r.2.1, r.2.2)
    else if v.start ≥ stop then (true, v :: vs, vm)
    else if v.start < start then
      -- trim a leading piece, then visit the tail
      let r := vm.k.kmalloc
      let vm := { vm with k := r.2 }
      if r.1 then
        let t := protectPiece stop prot { v with start := start } vs vm
          (mprotectLoop start stop prot vs)
        (t.1, { v with stop := start } :: t.2.1, t.2.2)
      else (false, v :: vs, vm)
    else protectPiece stop prot v vs vm (mprotectLoop start stop prot vs)

/-- `vma_mprotect_locked`. -/
def vmaMprotect (k : Kernel) (p : Proc) (addr len prot : ℕ) : Result Unit :=
  let stop := pageUp (add64 addr len)
  if addr % 4096 ≠ 0 then ⟨k, p, .error .einval⟩
  else if len = 0 then ⟨k, p, .ok ()⟩
  else if protWrite prot && protExec prot then ⟨k, p, .error .einval⟩
  else if stop ≤ addr then ⟨k, p, .error .einval⟩
  else
    let r := mprotectLoop addr stop prot p.vmas ⟨k, p.as⟩
    ⟨r.2.2.k, { p with as := r.2.2.as, vmas := r.2.1 },
      if r.1 then .ok () else .error .enomem⟩

/-- `vma_fault_locked`: populates the page of a not-present fault. -/
def vmaFault (k : Kernel) (p : Proc) (addr : ℕ) (write : Bool) : Bool × Kernel × Proc :=
  match vmaFind addr p.vmas with
  | none => (false, k, p)
  | some v =>
    if v.prot = 0 then (false, k, p)
    else if write && !protWrite v.prot then (false, k, p)
    else if vmaPhys v.flags then (false, k, p)
    else match k.alloc 0 with
      | (none, k) => (false, k, p)
      | (some f, k) =>
        let r := (⟨k.zeroFrame f, p.as⟩ : Vm).mapInto (pageDown addr) f (protPte v.prot)
        if r.1 then (true, r.2.k, { p with as := r.2.as })
        else (false, r.2.k.free f 0, { p with as := r.2.as })

end NeoOS

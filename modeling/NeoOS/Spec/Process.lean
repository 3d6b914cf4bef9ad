import NeoOS.Spec.Elf
import NeoOS.Spec.Vma

/-!
# Processes and their memory (`kernel/sched/proc.c`, `kernel/arch/isr.c`)

`Sys` is the kernel with the processes of the system, one slot each: live with an
address space, a zombie whose address space has been handed to the deferred-free
queue, or gone. `Sys.step` is one call or one access by one process; the calls of
different processes interleave in any order, and the deferred frees may be flushed
any time after the call that owes it. What the rest of the kernel takes from its heap
and gives back are steps as well.

A process may have further threads. `munmap`, `mprotect` and a fixed mapping wait for
the CPUs these run on, so that none has an old translation when the call returns;
`fork` and the break of a copy-on-write page have an `invlpg` for their own CPU only,
and `stale` is what the others may go on with.
-/

namespace NeoOS

/-- The pages below entry `l`, `key` that own or show a frame, in the order the
loops of `fork_duplicate_user_pages` visit them. -/
def treeLeaves (as : AddrSpace) : ℕ → ℕ → List ℕ
  | 0, _ => []
  | 1, key => if (as.ent 1 key).hasFrame then [key] else []
  | l + 2, key =>
    if (as.ent (l + 2) key).present then
      (List.range 512).flatMap fun i => treeLeaves as (l + 1) (key * 512 + i)
    else []

/-- The pages of an address space outside the shared slots. -/
def spaceLeaves (as : AddrSpace) : List ℕ :=
  (List.range 512).flatMap fun i => if sharedSlot i then [] else treeLeaves as 4 i

/-- Parent and child while `fork` runs. -/
structure ForkSt where
  k : Kernel
  parent : AddrSpace
  child : AddrSpace

/-- What `fork` makes of a parent's leaf: a writable or `PROT_NONE` page becomes
copy-on-write, any other stays as it is. -/
def forkPte (e : Pte) : Pte :=
  if e.writable || !e.present then { e with writable := false, cow := true } else e

/-- One page of `fork_duplicate_user_pages`. -/
def forkPage (s : ForkSt) (v : ℕ) : Bool × ForkSt :=
  let e := s.parent.ent 1 v
  if e.nofree then
    -- a device mapping: copied verbatim, the frame allocator is not touched
    let r := (⟨s.k, s.child⟩ : Vm).mapInto (v * 4096) e.frame e
    (r.1, { s with k := r.2.k, child := r.2.as })
  else
    let parent := { s.parent with ent := setEnt s.parent.ent 1 v (forkPte e) }
    let r := (⟨s.k.share e.frame, s.child⟩ : Vm).mapInto (v * 4096) e.frame (forkPte e)
    if !r.1 then (false, ⟨r.2.k, parent, r.2.as⟩)
    else
      -- `paging_map_into` always sets `PAGE_PRESENT`: park a `PROT_NONE` copy again
      let vm := if e.present then r.2 else r.2.setprotFrom (v * 4096) Pte.zero
      (true, ⟨vm.k, parent, vm.as⟩)

/-- `fork_duplicate_user_pages`, over the pages still to visit. -/
def forkPages : List ℕ → ForkSt → Bool × ForkSt
  | [], s => (true, s)
  | v :: rest, s =>
    let r := forkPage s v
    if r.1 then forkPages rest r.2 else r

/-- The copies of `vma_copy_all`: `false` when a `kmalloc` fails. -/
def copyVmas (k : Kernel) : List Vma → Bool × Kernel
  | [] => (true, k)
  | _ :: vs => let r := k.kmalloc; if r.1 then copyVmas r.2 vs else r

/-- A new PML4 with the shared entries of `ent`. Neither `fork_task` nor
`build_user_address_space` looks whether there was a frame for it: without one both go on
with physical page 0, whose bytes then are the other entries. Here the frame is 0 and the
entries are blank, so that nothing said of this case is about the code. -/
def newSpace (k : Kernel) (ent : ℕ → ℕ → Pte) : AddrSpace × Kernel :=
  let r := k.allocTableFrame
  (⟨r.1.getD 0, fun l key => if l = 4 ∧ sharedSlot key then ent l key else Pte.zero⟩, r.2)

/-- `KERNEL_STACK_ORDER`. -/
def kstackOrder : ℕ := 2

/-- A process slot. -/
inductive Slot
  | live (p : Proc) (kstack : ℕ)
  | zombie (pml4 kstack : ℕ)
  | gone

/-- The memory that `proc_alloc` takes: the process, its descriptor table and its thread
table. What it has got it frees when there is no more. -/
def procMem (k : Kernel) : Bool × Kernel :=
  let a := k.kmalloc
  if !a.1 then a
  else
    let b := a.2.kmalloc
    if !b.1 then (false, b.2.kfree k.kmallocs)
    else
      let c := b.2.kmalloc
      if !c.1 then (false, (c.2.kfree (k.kmallocs + 1)).kfree k.kmallocs) else c

/-- The memory that `thread_alloc` takes: the thread and its extended state. -/
def threadMem (k : Kernel) : Bool × Kernel :=
  let a := k.kmalloc
  if !a.1 then a
  else
    let b := a.2.kmalloc
    if !b.1 then (false, b.2.kfree k.kmallocs) else b

/-- `fork_task`: the new parent and, when it succeeds, the child with its kernel
stack. The parent's descriptors are in one bucket, for which `fd_table_dup` takes one
array. -/
def forkTask (k : Kernel) (p : Proc) : Kernel × Proc × Option (Proc × ℕ) :=
  let a := procMem k
  if !a.1 then (a.2, p, none)
  else
    let c := newSpace a.2 p.as.ent
    let r := forkPages (spaceLeaves p.as) ⟨c.2, p.as, c.1⟩
    let p := { p with as := r.2.parent }
    if !r.1 then (Vm.freeAddressSpace r.2.k r.2.child, p, none)
    else
      let v := copyVmas r.2.k p.vmas
      if !v.1 then (Vm.freeAddressSpace v.2 r.2.child, p, none)
      else match v.2.alloc kstackOrder with
        | (none, k) => (Vm.freeAddressSpace k r.2.child, p, none)
        | (some stack, k) =>
          let f := k.kmalloc
          let t := if f.1 then threadMem f.2 else f
          if !t.1 then (Vm.freeAddressSpace (t.2.free stack kstackOrder) r.2.child, p, none)
          else (t.2, p, some (⟨r.2.child, p.vmas, p.mmapNext⟩, stack))

/-! ## Accesses -/

/-- Bits the processor looks at on the way to a leaf. -/
def hwAllows (vm : Vm) (v : ℕ) (write : Bool) : Bool :=
  let e4 := vm.get 4 (keyOf 4 v)
  let e3 := vm.get 3 (keyOf 3 v)
  let e2 := vm.get 2 (keyOf 2 v)
  let e1 := vm.get 1 v
  [e4, e3, e2, e1].all fun e => e.present && e.user && (!write || e.writable)

/-- What `paging_handle_cow_fault` acts on. -/
def Pte.shared (e : Pte) : Bool := e.present && !e.writable && e.cow

/-- The page-fault path of `isr_handler_inner` for a user access: copy-on-write for a
write to a present page, then `vma_fault` for a page that is not. -/
def pageFault (k : Kernel) (p : Proc) (addr : ℕ) (write : Bool) : Bool × Kernel × Proc :=
  if ((⟨k, p.as⟩ : Vm).leaf (vpnOf addr)).present then
    if write then
      let r := (⟨k, p.as⟩ : Vm).handleCowFault addr
      (r.1, r.2.k, { p with as := r.2.as })
    else (false, k, p)
  else vmaFault k p addr write

/-- An access is tried, and tried once more if the fault it raised was handled. The
result says whether it went through. -/
def access (k : Kernel) (p : Proc) (addr : ℕ) (write : Bool) : Bool × Kernel × Proc :=
  if hwAllows ⟨k, p.as⟩ (vpnOf addr) write then (true, k, p)
  else
    let r := pageFault k p addr write
    if r.1 then (hwAllows ⟨r.2.1, r.2.2.as⟩ (vpnOf addr) write, r.2) else r

/-- A user store of one byte. -/
def store (k : Kernel) (p : Proc) (addr : ℕ) (b : UInt8) : Kernel × Proc :=
  let r := access k p addr true
  if r.1 then
    let f := ((⟨r.2.1, r.2.2.as⟩ : Vm).leaf (vpnOf addr)).frame
    (r.2.1.poke f (addr % 4096) b, r.2.2)
  else r.2

/-- A user load: the byte it reads. -/
def load (k : Kernel) (p : Proc) (addr : ℕ) : Option UInt8 × Kernel × Proc :=
  let r := access k p addr false
  if r.1 then
    (some (r.2.1.mem ((⟨r.2.1, r.2.2.as⟩ : Vm).leaf (vpnOf addr)).frame (addr % 4096)), r.2)
  else (none, r.2)

/-! ## The system -/

/-- The kernel, its own PML4 entries, the framebuffer and the process slots. `siblings i`
counts the threads of process `i` beyond the first, `stale i v` are the translations of
page `v` that were replaced without a word to the CPUs these run on. -/
structure Sys where
  k : Kernel
  shared : ℕ → Pte
  fbPhys : ℕ
  fbSize : ℕ
  procs : List Slot
  siblings : ℕ → ℕ
  stale : ℕ → ℕ → List Pte

/-- One call or access of one process. A spawned process is built by one `loadPage` for
each page of its image and its stack; `kernelWrite` is the check the kernel makes
before it writes to user memory. -/
inductive ProcOp
  | loadPage (va : ℕ) (bytes : ℕ → UInt8) (pflags : ℕ)
  | mmap (addr len prot flags : ℕ)
  | munmap (addr len : ℕ)
  | mprotect (addr len prot : ℕ)
  | fbMmap (off len prot : ℕ)
  | store (addr : ℕ) (b : UInt8)
  | load (addr : ℕ)
  | kernelWrite (addr len : ℕ)

/-- The call writes to page `v`, or has the kernel write to it. -/
def ProcOp.writes (v : ℕ) : ProcOp → Bool
  | .store addr _ => vpnOf addr == v
  | .kernelWrite addr len => (Vm.pages (addr / 4096 * 4096) (addr + len)).any (vpnOf · == v)
  | _ => false

/-- One step of the system; `call` is a step of the process in slot `i`. `exit` is the end
of one of its threads, `staleStore` a store of one byte through the `n`-th of the old
translations. `kmalloc` and `kfree` are calls of the rest of the kernel. -/
inductive SysOp
  | newProc
  | call (i : ℕ) (op : ProcOp)
  | fork (i : ℕ)
  | exit (i : ℕ)
  | reap (i : ℕ)
  | shootdown (pml4 : ℕ)
  | threadCreate (i : ℕ)
  | staleStore (i addr n : ℕ) (b : UInt8)
  | kmalloc
  | kfree (call : ℕ)

/-- `sys_mmap` without a file descriptor: anonymous mappings only. -/
def sysMmap (k : Kernel) (p : Proc) (addr len prot flags : ℕ) : Result ℕ :=
  if !mapAnonymous flags then ⟨k, p, .error .enosys⟩ else vmaMmap k p addr len prot flags

/-- `fb_mmap`: a piece of the framebuffer. -/
def fbMmap (k : Kernel) (p : Proc) (fbPhys fbSize off len prot : ℕ) : Result ℕ :=
  if len = 0 ∨ add64 off len < off then ⟨k, p, .error .einval⟩
  else if add64 off len > fbSize then ⟨k, p, .error .einval⟩
  else if protExec prot then ⟨k, p, .error .einval⟩
  else vmaMapPhys k p (add64 fbPhys off) len prot

/-- A step of one process. -/
def procStep (fbPhys fbSize : ℕ) (op : ProcOp) (k : Kernel) (p : Proc) : Kernel × Proc :=
  match op with
  | .loadPage va bytes pflags =>
    if pflags.testBit 1 && pflags.testBit 0 then (k, p)
    else
      let r := loadPage ⟨k, p.as⟩ va bytes (Phdr.flagsPte pflags)
      (r.2.k, { p with as := r.2.as })
  | .mmap addr len prot flags => let r := sysMmap k p addr len prot flags; (r.k, r.p)
  | .munmap addr len => let r := vmaMunmap k p addr len; (r.k, r.p)
  | .mprotect addr len prot => let r := vmaMprotect k p addr len prot; (r.k, r.p)
  | .fbMmap off len prot => let r := fbMmap k p fbPhys fbSize off len prot; (r.k, r.p)
  | .store addr b => store k p addr b
  | .load addr => (load k p addr).2
  | .kernelWrite addr len =>
    let r := (⟨k, p.as⟩ : Vm).userRangeWritable addr len
    (r.2.k, { p with as := r.2.as })

namespace Sys

/-- The live process in slot `i`. -/
def proc (s : Sys) (i : ℕ) : Option (Proc × ℕ) :=
  match s.procs[i]? with
  | some (.live p kstack) => some (p, kstack)
  | _ => none

/-- What a step does to the kernel and the slots. -/
def act (s : Sys) : SysOp → Sys
  | .newProc =>
    let c := newSpace s.k fun _ key => s.shared key
    let q := c.2.alloc kstackOrder
    { s with k := q.2, procs := s.procs ++ [.live ⟨c.1, [], mmapBase⟩ (q.1.getD 0)] }
  | .call i op =>
    match s.proc i with
    | none => s
    | some (p, kstack) =>
      let r := procStep s.fbPhys s.fbSize op s.k p
      { s with k := r.1, procs := s.procs.set i (.live r.2 kstack) }
  | .fork i =>
    match s.proc i with
    | none => s
    | some (p, kstack) =>
      let r := forkTask s.k p
      let procs := s.procs.set i (.live r.2.1 kstack)
      match r.2.2 with
      | none => { s with k := r.1, procs := procs }
      | some (child, stack) => { s with k := r.1, procs := procs ++ [.live child stack] }
  | .exit i =>
    match s.proc i with
    | none => s
    | some (p, kstack) =>
      -- proc_put_live: the last thread hands the address space back
      if s.siblings i ≠ 0 then s
      else { s with k := Vm.freeAddressSpace s.k p.as, procs := s.procs.set i (.zombie p.as.pml4 kstack) }
  | .reap i =>
    match s.procs[i]? with
    | some (.zombie pml4 kstack) =>
      { s with k := (s.k.free kstack kstackOrder).flushDeferred pml4, procs := s.procs.set i .gone }
    | _ => s
  | .shootdown pml4 => { s with k := s.k.flushDeferred pml4 }
  | .threadCreate _ => s
  | .staleStore i addr n b =>
    match (s.stale i (vpnOf addr))[n]? with
    | some e => if e.user && e.writable then { s with k := s.k.poke e.frame (addr % 4096) b } else s
    | none => s
  | .kmalloc => { s with k := s.k.kmalloc.2 }
  | .kfree call => { s with k := s.k.kfree call }

/-- The threads beyond the first after a step. -/
def siblingsAfter (s : Sys) : SysOp → ℕ → ℕ
  | .threadCreate i =>
    if (s.proc i).isSome then Function.update s.siblings i (s.siblings i + 1) else s.siblings
  | .exit i => Function.update s.siblings i (s.siblings i - 1)
  | _ => s.siblings

/-- The leaf of page `v` in process `i`. -/
def leaf (s : Sys) (i v : ℕ) : Pte :=
  match s.proc i with
  | none => Pte.zero
  | some (p, _) => (⟨s.k, p.as⟩ : Vm).leaf v

/-- The step replaces the translation of page `v` in process `i` and says nothing to the
CPUs of other threads: `fork` write-protects the page, or a write breaks its
copy-on-write sharing. -/
def outdates (s : Sys) (i v : ℕ) : SysOp → Bool
  | .fork j => j == i && (s.leaf i v).writable
  | .call j op => j == i && op.writes v && (s.leaf i v).shared
  | _ => false

/-- The old translations that are left after a step. -/
def staleAfter (s : Sys) (op : SysOp) (i v : ℕ) : List Pte :=
  if s.siblingsAfter op i = 0 then []
  else
    match op with
    | .shootdown pml4 => if pml4 = 0 ∨ (s.proc i).any (·.1.as.pml4 == pml4) then [] else s.stale i v
    | op => if s.outdates i v op then s.leaf i v :: s.stale i v else s.stale i v

def step (s : Sys) (op : SysOp) : Sys :=
  { s.act op with siblings := s.siblingsAfter op, stale := s.staleAfter op }

end Sys

end NeoOS

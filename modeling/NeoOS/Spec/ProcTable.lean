import NeoOS.Spec.FdTable
import NeoOS.Spec.Process

/-!
# The process table and `fork_task` (`kernel/sched/proc.c`, `pid_alloc.c`, `proc_table.c`, `thread.c`)

`proc_alloc` enters the child in the process table before `fork_task` copies anything, so the steps
here run with the child visible. The table is a map from pids to processes; the memory of a process is
the `Proc` of the page-table model, its descriptors are the table of the descriptor model.
-/

namespace NeoOS.ProcTable

/-! ## Pids -/

/-- `MAX_PIDS`. -/
def maxPids : ℕ := 2 ^ 20

/-- `struct pid_allocator`: the bitmap (`true` for a pid in use) and the rising cursor. -/
structure PidAllocator where
  bitmap : ℕ → Bool
  cursor : ℕ
  wrapped : Bool
  cursor_pos : 1 ≤ cursor
  cursor_lt : cursor < maxPids

/-- `scan`: the first free pid of the `n` from `pid` on, 0 if there is none. (The code skips a word
of the bitmap that is all ones.) -/
def scan (bitmap : ℕ → Bool) : ℕ → ℕ → ℕ
  | 0, _ => 0
  | n + 1, pid => if bitmap pid then scan bitmap n (pid + 1) else pid

/-- The allocator with `pid` in use and the cursor behind it. -/
def PidAllocator.take (a : PidAllocator) (pid : ℕ) (wrapped : Bool) : PidAllocator :=
  let bitmap := Function.update a.bitmap pid true
  if h : maxPids ≤ pid + 1 then ⟨bitmap, 1, true, le_rfl, by decide⟩
  else ⟨bitmap, pid + 1, wrapped, by omega, by omega⟩

/-- `pid_alloc`: 0 when every pid is in use. -/
def pidAlloc (a : PidAllocator) : ℕ × PidAllocator :=
  let pid := scan a.bitmap (maxPids - a.cursor) a.cursor
  if pid ≠ 0 then (pid, a.take pid a.wrapped)
  else
    -- past the end: the low range
    let pid := scan a.bitmap (a.cursor - 1) 1
    if pid ≠ 0 then (pid, a.take pid true) else (0, { a with wrapped := true })

/-- `bit_test`. -/
def bitTest (words : ℕ → BitVec 64) (pid : ℕ) : Bool := (words (pid / 64) >>> (pid % 64)).getLsbD 0

/-- `scan` as the code has it: a word that is all ones is skipped. -/
def scanWords (words : ℕ → BitVec 64) (pid stop : ℕ) : ℕ :=
  if pid < stop then
    if words (pid / 64) = BitVec.allOnes 64 then scanWords words ((pid / 64 + 1) * 64) stop
    else if bitTest words pid then scanWords words (pid + 1) stop
    else pid
  else 0
termination_by stop - pid

/-- `pid_allocator_init`. -/
def PidAllocator.initial : PidAllocator := ⟨fun pid => pid == 0, 1, false, le_rfl, by decide⟩

/-- `pid_free`. The cursor is not moved back. -/
def pidFree (a : PidAllocator) (pid : ℕ) : PidAllocator :=
  if pid = 0 ∨ maxPids ≤ pid then a else { a with bitmap := Function.update a.bitmap pid false }

/-! ## Processes -/

/-- `struct thread`, the fields a fork copies. -/
structure Thread where
  tid : ℕ
  stackSlot : Option ℕ
  fsBase : ℕ
  xstate : ℕ → UInt8

/-- `struct process`, the fields `fork_task` fills in. -/
structure Process where
  pid : ℕ
  parentPid : ℕ
  proc : Proc
  stackSlots : ℕ → Bool
  fds : Fd.Table
  threads : List Thread
  ctty : Option ℕ
  uid : ℕ
  gid : ℕ
  pgid : ℕ
  sid : ℕ
  comm : List UInt8
  cwd : List UInt8

/-- The kernel's memory, the pids, the process table and the objects that descriptors name. -/
structure State where
  k : Kernel
  pids : PidAllocator
  table : ℕ → Option Process
  objs : Fd.Objects

/-- `proc_table_insert` and every later write to a process of the table. -/
def State.enter (s : State) (p : Process) : State :=
  if p.pid = 0 then s else { s with table := Function.update s.table p.pid (some p) }

/-- What `proc_alloc` makes of a zeroed `struct process`. -/
def blankProcess (pid : ℕ) : Process where
  pid := pid
  parentPid := 0
  proc := ⟨⟨0, fun _ _ => Pte.zero⟩, [], mmapBase⟩
  stackSlots _ := false
  fds := Fd.Table.init
  threads := []
  ctty := none
  uid := 0
  gid := 0
  pgid := pid
  sid := pid
  comm := []
  cwd := [0x2F]

/-- `proc_alloc`: memory for the process, its descriptor table and its thread table, then a pid. -/
def procAlloc (s : State) : Option Process × State :=
  let a := procMem s.k
  if !a.1 then (none, { s with k := a.2 })
  else
    let r := pidAlloc s.pids
    let p := blankProcess r.1
    (some p, { s with k := a.2, pids := r.2 }.enter p)

/-- `thread_alloc` of a process's first thread, which takes the pid: the thread and its extended
state, the caller's. -/
def threadAlloc (k : Kernel) (p : Process) (self : Thread) : Option Process × Kernel :=
  let a := threadMem k
  (if a.1 then some { p with threads := { self with tid := p.pid } :: p.threads } else none, a.2)

/-- `fork_task` by the thread `self` of the process `cur`; `mem b` says whether there is memory for
bucket `b` of the child's descriptor table. The result is the child's pid. -/
def forkTask (s : State) (cur : ℕ) (self : Thread) (mem : ℕ → Bool) : Option ℕ × State :=
  match s.table cur with
  | none => (none, s)
  | some parent =>
    match procAlloc s with
    | (none, s) => (none, s)
    | (some child, s) =>
      let child := { child with cwd := parent.cwd }
      let c := newSpace s.k parent.proc.as.ent
      let r := forkPages (spaceLeaves parent.proc.as) ⟨c.2, parent.proc.as, c.1⟩
      -- the parent's entries that are copy-on-write now
      let s := { s with k := r.2.k }.enter { parent with proc := { parent.proc with as := r.2.parent } }
      if !r.1 then
        (none, { s with k := Vm.freeAddressSpace s.k r.2.child }.enter child)
      else
        let v := copyVmas s.k parent.proc.vmas
        if !v.1 then
          (none, { s with k := Vm.freeAddressSpace v.2 r.2.child }.enter child)
        else
          match v.2.alloc kstackOrder with
          | (none, k) =>
            (none, { s with k := Vm.freeAddressSpace k r.2.child }.enter
              { child with proc := { child.proc with mmapNext := parent.proc.mmapNext } })
          | (some stack, k) =>
            let child : Process := { parent with
              pid := child.pid
              parentPid := parent.pid
              proc := ⟨r.2.child, parent.proc.vmas, parent.proc.mmapNext⟩
              fds := Fd.Table.init
              threads := [] }
            let d := Fd.fdTableDup s.objs child.fds parent.fds mem
            if !d.1 then
              let f := Fd.fdTableFree d.2.1 d.2.2
              (none, { s with
                k := Vm.freeAddressSpace (k.free stack kstackOrder) r.2.child
                objs := f.1 }.enter { child with fds := f.2, proc := { child.proc with vmas := [] } })
            else
              let child := { child with fds := d.2.2 }
              match threadAlloc k child self with
              | (none, k) =>
                -- the descriptors stay as they were copied
                (none, { s with
                  k := Vm.freeAddressSpace (k.free stack kstackOrder) r.2.child
                  objs := d.2.1 }.enter { child with proc := { child.proc with vmas := [] } })
              | (some child, k) => (some child.pid, { s with k := k, objs := d.2.1 }.enter child)

end NeoOS.ProcTable

import Mathlib.Data.Int.Notation
import NeoOS.Lib.Pool

/-!
# TLB shootdown (`kernel/smp/tlb.c`)

Any number of CPUs run threads that defer frames (`tlb_defer_free`) and shoot down address
spaces (`tlb_shootdown`, with `tlb_flush_deferred` at its end; it has no other caller).
What is done under `deferred_lock` is one step, and so is each acknowledgement, each IPI
and each read of another CPU's current thread with its process's `pml4_phys`. `schedule`
stores `current` first and loads CR3 later, with interrupts off; `exec_task` and the end of
a process write `pml4_phys` and CR3 one after the other. Every write of CR3 empties the TLB.
A thread runs on one CPU at a time and may be preempted between any two steps.

Beside the variables of the source the state has a record of what matters: each deferral
has a number, `stale` says which CPU may still translate to its frame, and `done` has the
shootdowns whose wait is over.
-/

namespace NeoOS.Tlb

open Function (update)

/-- `struct deferred`; `id` numbers the deferrals. -/
structure Entry where
  id : ℕ
  phys : ℕ
  order : ℕ
  owner : ℕ
  deriving DecidableEq

/-- `DEFER_MAX`. -/
def deferMax : ℕ := 256

/-- The test of `tlb_flush_deferred`: a shootdown of `p` releases what `owner` had mapped. -/
def covers (p owner : ℕ) : Bool := p == 0 || owner == p

/-- Where a thread is. `p` is the `pml4_phys` of its shootdown and `mark` the number of the
next deferral when it took `shootdown_busy`. -/
inductive Pc
  | idle
  /-- `tlb_defer_free` has found the array full -/
  | deferring (e : Entry)
  /-- `shootdown_acquire` -/
  | spinning (p : ℕ)
  | started (p mark : ℕ)
  /-- the loop over the CPUs -/
  | selecting (p mark self i : ℕ) (targets : List ℕ)
  /-- `shootdown_pending` is stored; the local reload of CR3 is next -/
  | invalidating (p mark self : ℕ) (targets : List ℕ)
  | sending (p mark : ℕ) (targets : List ℕ)
  | waiting (p mark : ℕ)
  /-- `shootdown_release` is next -/
  | releasing (p mark : ℕ)
  /-- `tlb_flush_deferred`: the loop over the array -/
  | scanning (p mark i : ℕ)
  /-- `pmm_free` of an entry that was taken out -/
  | freeing (p mark i : ℕ) (d : Entry)
  /-- the overflow list is next -/
  | detaching (p mark : ℕ)
  | walking (p mark : ℕ) (overflow keep : List Entry)
  /-- the entries that are kept go back -/
  | restoring (keep : List Entry)
  deriving DecidableEq

/-- A shootdown whose wait is over; `unacked` are the targets that have not answered. -/
structure Shot where
  pml4 : ℕ
  mark : ℕ
  unacked : List ℕ

/-- The CPUs, the threads and the variables of `tlb.c`. -/
structure State where
  /-- `smp_online_count` -/
  ncpu : ℕ
  /-- the address space in a CPU's CR3, 0 for the kernel's own -/
  space : ℕ → ℕ
  /-- the thread a CPU runs -/
  running : ℕ → Option ℕ
  /-- `current`, another thread from the time `schedule` stores it until CR3 is loaded -/
  current : ℕ → Option ℕ
  /-- the process of a thread -/
  proc : ℕ → Option ℕ
  /-- the `pml4_phys` of a process -/
  pml4 : ℕ → ℕ
  pcs : List Pc
  /-- `shootdown_busy`, with the thread that has it -/
  busy : Option ℕ
  /-- `shootdown_pending` -/
  pending : ℤ
  /-- an IPI has been sent to the CPU and not been taken -/
  ipi : ℕ → Bool
  /-- `deferred_frames`, as far as `deferred_n` -/
  arr : List Entry
  /-- `deferred_overflow` -/
  overflow : List Entry
  /-- what was given to `pmm_free` -/
  freed : List Entry
  /-- what was lost for want of a node -/
  leaked : List Entry
  nextId : ℕ
  stale : ℕ → Entry → Bool
  /-- the targets of the shootdown in flight that have not answered -/
  unacked : List ℕ
  done : List Shot

/-- The thread goes on at `pc`. -/
def State.goto (s : State) (a : ℕ) (pc : Pc) : State := { s with pcs := s.pcs.set a pc }

/-- The CPU reloads CR3. -/
def flushCpu (i : ℕ) (s : State) : State := { s with stale := fun k e => decide (k ≠ i) && s.stale k e }

/-- The CPUs in the owner's address space may have a translation for the frame; all of them if
the owner is not known. -/
def markStale (e : Entry) (s : State) : State :=
  { s with stale := fun k x =>
      s.stale k x || decide (x = e) && decide (k < s.ncpu) && (e.owner == 0 || s.space k == e.owner) }

/-- `tlb_defer_free`, up to the first unlock. -/
def deferFree (a phys order owner : ℕ) (s : State) : State :=
  let e : Entry := ⟨s.nextId, phys, order, owner⟩
  let s := { markStale e s with nextId := s.nextId + 1 }
  if s.arr.length < deferMax then { s with arr := s.arr ++ [e] } else s.goto a (.deferring e)

/-- `cpus[i].current->proc->pml4_phys`, 0 if there is none. -/
def State.currentPml4 (s : State) (i : ℕ) : ℕ := ((s.current i).bind s.proc).elim 0 s.pml4

/-- The test of the loop over the CPUs. -/
def targeted (p self : ℕ) (s : State) (i : ℕ) : Bool := i != self && (p == 0 || s.currentPml4 i == p)

/-- The wait is over. -/
def leaveWait (a p mark : ℕ) (s : State) : State :=
  { s with done := ⟨p, mark, s.unacked⟩ :: s.done }.goto a (.releasing p mark)

/-- The next step of thread `a`, which runs on CPU `i`; `ok` is the outcome of `kmalloc`. -/
def act (i a : ℕ) (ok : Bool) (s : State) : State :=
  match s.pcs[a]? with
  | some (.deferring e) =>
    if ok then { s with overflow := e :: s.overflow }.goto a .idle
    else { s with leaked := e :: s.leaked }.goto a .idle
  | some (.spinning p) => if s.busy.isSome then s else { s with busy := some a }.goto a (.started p s.nextId)
  | some (.started p mark) => s.goto a (.selecting p mark i 0 [])
  | some (.selecting p mark self k targets) =>
    if k < s.ncpu then
      s.goto a (.selecting p mark self (k + 1) (if targeted p self s k then targets ++ [k] else targets))
    else { s with pending := targets.length, unacked := targets }.goto a (.invalidating p mark self targets)
  | some (.invalidating p mark _ targets) => (flushCpu i s).goto a (.sending p mark targets)
  | some (.sending p mark []) => s.goto a (.waiting p mark)
  | some (.sending p mark (k :: targets)) =>
    { s with ipi := update s.ipi k true }.goto a (.sending p mark targets)
  | some (.waiting p mark) => if 0 < s.pending then s else leaveWait a p mark s
  | some (.releasing p mark) => { s with busy := none }.goto a (.scanning p mark 0)
  | some (.scanning p mark k) =>
    match s.arr[k]? with
    | none => s.goto a (.detaching p mark)
    | some d =>
      if covers p d.owner then { s with arr := Pool.swapRemove s.arr k }.goto a (.freeing p mark k d)
      else s.goto a (.scanning p mark (k + 1))
  | some (.freeing p mark k d) => { s with freed := d :: s.freed }.goto a (.scanning p mark k)
  | some (.detaching p mark) => { s with overflow := [] }.goto a (.walking p mark s.overflow [])
  | some (.walking _ _ [] keep) => s.goto a (if keep = [] then .idle else .restoring keep)
  | some (.walking p mark (e :: overflow) keep) =>
    if covers p e.owner then { s with freed := e :: s.freed }.goto a (.walking p mark overflow keep)
    else s.goto a (.walking p mark overflow (e :: keep))
  | some (.restoring keep) => { s with overflow := keep ++ s.overflow }.goto a .idle
  | _ => s

/-- The wait of thread `a` has taken too long. -/
def giveUp (a : ℕ) (s : State) : State :=
  match s.pcs[a]? with
  | some (.waiting p mark) => leaveWait a p mark { s with pending := 0 }
  | _ => s

/-- `ipi_tlb_handler` on CPU `i`. -/
def ipiTlbHandler (i : ℕ) (s : State) : State :=
  flushCpu i { s with ipi := update s.ipi i false, pending := s.pending - 1, unacked := s.unacked.erase i }

/-- `mov cr3` at the end of `schedule` on CPU `i`, or in `exec_task`. -/
def loadCr3 (i : ℕ) (s : State) : State :=
  flushCpu i { s with
    running := update s.running i (s.current i)
    space := update s.space i (s.currentPml4 i) }

/-- What can happen; `i` is the CPU it happens on. -/
inductive Event
  | deferFree (i phys order owner : ℕ)
  | shootdown (i p : ℕ)
  | act (i : ℕ) (ok : Bool)
  | giveUp (i : ℕ)
  | ack (i : ℕ)
  /-- `schedule` stores `current` -/
  | schedule (i : ℕ) (next : Option ℕ)
  | loadCr3 (i : ℕ)
  /-- `exec_task` stores the new `pml4_phys`, the end of a process 0 -/
  | setPml4 (i p : ℕ)
  /-- the end of a process loads the kernel's own CR3 -/
  | leaveSpace (i : ℕ)

/-- No CPU but `i` runs the thread or is about to. -/
def free (s : State) (i : ℕ) (next : Option ℕ) : Bool :=
  next.all fun a => (List.range s.ncpu).all fun k => k == i || s.running k != some a && s.current k != some a

/-- The thread that executes on CPU `i` outside `schedule`. -/
def State.on (s : State) (i : ℕ) : Option ℕ := if s.current i = s.running i then s.running i else none

/-- One event. A call is made by a thread that is in none, and an IPI is taken if there is one. -/
def step (s : State) : Event → State
  | .deferFree i phys order owner =>
    match s.on i with
    | some a => if s.pcs[a]? = some .idle then deferFree a phys order owner s else s
    | none => s
  | .shootdown i p =>
    match s.on i with
    | some a => if s.pcs[a]? = some .idle then s.goto a (.spinning p) else s
    | none => s
  | .act i ok =>
    match s.on i with
    | some a => act i a ok s
    | none => s
  | .giveUp i =>
    match s.on i with
    | some a => giveUp a s
    | none => s
  | .ack i => if s.ipi i ∧ s.current i = s.running i then ipiTlbHandler i s else s
  | .schedule i next =>
    if i < s.ncpu ∧ s.current i = s.running i ∧ free s i next then { s with current := update s.current i next } else s
  | .loadCr3 i => loadCr3 i s
  | .setPml4 i p =>
    match (s.on i).bind s.proc with
    | some q => { s with pml4 := update s.pml4 q p }
    | none => s
  | .leaveSpace i => flushCpu i { s with space := update s.space i 0 }

end NeoOS.Tlb

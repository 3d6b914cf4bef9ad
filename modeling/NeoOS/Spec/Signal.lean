import Mathlib.Algebra.Group.Nat.Defs
import NeoOS.Lib.Bytes

/-!
# Signal delivery and return (`kernel/ipc/signal.c`)

What happens to one thread at a kernel exit: `signal_deliver_from_syscall` or
`signal_deliver_from_interrupt` takes the pending signals one by one and stacks a frame for
each handler, and `signal_do_sigreturn` unwinds a frame. Registers and masks are 64-bit words.

User memory is a map from addresses to bytes; whether a range is mapped writable is an oracle.
The extended state of the CPU (`fxsave`, `xsave`) is a parameter with what these instructions
promise, and their faults are left out. Stopping is left out: a thread that stops goes on with the
same context later.
-/

namespace NeoOS.Signal

open Bytes

/-! ## Registers and frames -/

/-- The registers of `struct sigcontext_64`, in its order. -/
structure Regs where
  r8 : Word
  r9 : Word
  r10 : Word
  r11 : Word
  r12 : Word
  r13 : Word
  r14 : Word
  r15 : Word
  rdi : Word
  rsi : Word
  rbp : Word
  rbx : Word
  rdx : Word
  rax : Word
  rcx : Word
  rsp : Word
  rip : Word
  eflags : Word
deriving DecidableEq

/-- What user mode runs with: its registers and its selectors. -/
structure User where
  regs : Regs
  cs : BitVec 16
  ss : BitVec 16

/-- `struct syscall_frame`: `rcx` holds the user's RIP and `r11` the user's RFLAGS. -/
structure SyscallFrame where
  r9 : Word
  r8 : Word
  r10 : Word
  rdx : Word
  rsi : Word
  rdi : Word
  r15 : Word
  r14 : Word
  r13 : Word
  r12 : Word
  rbp : Word
  rbx : Word
  r11 : Word
  rcx : Word
  userRsp : Word

/-- `struct registers`, which an interrupt of user mode saves. -/
structure Registers where
  regs : Regs
  cs : BitVec 16
  ss : BitVec 16
  errorCode : Word
  vectorNumber : Word
  ring3 : cs &&& 3 = 3 ∧ ss &&& 3 = 3

/-- `struct sigcontext_64`, less the fields that are always 0. -/
structure SigContext where
  regs : Regs
  err : Word
  trapno : Word

/-- `stack_t_k`; `flags` is `ss_flags` with the padding beside it. -/
structure Stack where
  sp : Word
  flags : Word
  size : Word
deriving DecidableEq

/-- `struct k_sigaction`. -/
structure Action where
  handler : Word
  flags : Word
  restorer : Word
  mask : Word
deriving DecidableEq

/-- `struct siginfo`: the number and the sixteen words. -/
structure Info where
  signo : ℕ
  words : List Word
deriving DecidableEq

def userCs : BitVec 16 := 0x3B

def userSs : BitVec 16 := 0x33

def eintr : Word := -4

def saSiginfo : Word := 0x4
def saRestorer : Word := 0x04000000
def saOnstack : Word := 0x08000000
def saRestart : Word := 0x10000000
def saNodefer : Word := 0x40000000
def saResethand : Word := 0x80000000

/-- `flags & bit`. -/
def has (flags bit : Word) : Bool := flags &&& bit != 0

def sigDfl : Word := 0
def sigIgn : Word := 1

/-- `sigmask_of`. -/
def sigmaskOf (sig : ℕ) : Word := 1#64 <<< (sig - 1)

/-- `SIGSET_UNBLOCKABLE`: SIGKILL and SIGSTOP. -/
def unblockable : Word := sigmaskOf 9 ||| sigmaskOf 19

inductive DefaultAction
  | ign
  | stop
  | cont
  /-- `SIGACT_TERM` and `SIGACT_CORE` -/
  | term
deriving DecidableEq

/-- `signal_default_action`. -/
def signalDefaultAction (sig : ℕ) : DefaultAction :=
  if sig = 17 then .ign
  else if sig = 19 ∨ sig = 20 ∨ sig = 21 ∨ sig = 22 then .stop
  else if sig = 18 then .cont
  else .term

/-! ## The thread and its process -/

/-- What `struct thread` and `struct process` keep for signals. -/
structure Task where
  blocked : Word
  pending : Word
  queued : List Info
  savedBlocked : Word
  inSigsuspend : Bool
  altstack : Stack
  procPending : Word
  procQueued : List Info
  actions : ℕ → Action

/-- The lowest signal of a set, or 0. -/
def lowest (ready : Word) : ℕ :=
  match (List.range 64).find? fun k => ready.getLsbD k with
  | some k => k + 1
  | none => 0

/-- `signal_next_deliverable`. -/
def signalNextDeliverable (t : Task) : ℕ :=
  let ready := t.pending &&& ~~~t.blocked
  if ready = 0 then lowest (t.procPending &&& ~~~t.blocked) else lowest ready

/-- `siginfo_user` with the sender 0. -/
def siginfoUser (sig : ℕ) : Info := ⟨sig, [BitVec.ofNat 64 sig]⟩

/-- The first queued payload of `sig`, and the rest of the queue. -/
def takeQueued (sig : ℕ) (q : List Info) : Option Info × List Info :=
  (q.find? fun i => i.signo = sig, q.eraseP fun i => i.signo = sig)

/-- The pending set after `sig` is taken: a real-time signal stays while payloads are queued. -/
def pendingAfter (sig : ℕ) (pending : Word) (found : Option Info) (q : List Info) : Word :=
  let pending := pending &&& ~~~sigmaskOf sig
  if found.isSome ∧ 32 ≤ sig ∧ q.any (fun i => i.signo = sig) then pending ||| sigmaskOf sig else pending

/-- `signal_take_pending`. -/
def signalTakePending (sig : ℕ) (t : Task) : Task × Info :=
  if has t.pending (sigmaskOf sig) then
    let r := takeQueued sig t.queued
    ({ t with pending := pendingAfter sig t.pending r.1 r.2, queued := r.2 }, r.1.getD (siginfoUser sig))
  else
    let r := takeQueued sig t.procQueued
    ({ t with procPending := pendingAfter sig t.procPending r.1 r.2, procQueued := r.2 }, r.1.getD (siginfoUser sig))

/-! ## The extended state -/

/-- The instructions behind `cpu_state_save` and `cpu_state_restore`. An image is a sequence of
words; the words 58 to 63 are reserved for software. -/
structure Fpu where
  State : Type
  /-- `cpu_state_size` -/
  size : ℕ
  /-- `cpu_state_xcr0` -/
  xcr0 : Word
  image : State → ℕ → Word
  restore : (ℕ → Word) → State
  size_words : size % 8 = 0
  size_ge : 512 ≤ size
  size_le : size ≤ 1024
  restore_image : ∀ st area, (∀ k, k < size / 8 → k < 58 ∨ 64 ≤ k → area k = image st k) → restore area = st
  header_enabled : 512 < size → ∀ st, image st 64 &&& xcr0 = image st 64
  header_clear : 512 < size → ∀ st k, 64 < k → k < 72 → image st k = 0

variable (cpu : Fpu)

/-! ## Frames in user memory -/

/-- What `signal_do_sigreturn` reads of `struct rt_sigframe`. -/
structure Frame where
  stack : Stack
  regs : Regs
  fpstate : Word
  sigmask : Word

/-- The words of `struct rt_sigframe` before `info`. -/
def frameWords (pretcode : Word) (fr : Frame) (err trapno : Word) : List Word :=
  [pretcode, 0, 0, fr.stack.sp, fr.stack.flags, fr.stack.size, fr.regs.r8, fr.regs.r9, fr.regs.r10, fr.regs.r11,
    fr.regs.r12, fr.regs.r13, fr.regs.r14, fr.regs.r15, fr.regs.rdi, fr.regs.rsi, fr.regs.rbp, fr.regs.rbx, fr.regs.rdx,
    fr.regs.rax, fr.regs.rcx, fr.regs.rsp, fr.regs.rip, fr.regs.eflags,
    -- cs, gs, fs and ss
    0x003300000000003B, err, trapno, 0, 0, fr.fpstate, 0, 0, 0, 0, 0, 0, 0, 0, fr.sigmask]

/-- Word `k` of `struct rt_sigframe`, which has 70 words. -/
def frameWord (pretcode : Word) (fr : Frame) (err trapno : Word) (info : Info) (k : ℕ) : Word :=
  if k < 54 then (frameWords pretcode fr err trapno).getD k 0 else info.words.getD (k - 54) 0

/-- The frame at `base`. -/
def loadFrame (m : Mem) (base : ℕ) : Frame :=
  let w k := word m (base + 8 * k)
  { stack := ⟨w 3, w 4, w 5⟩
    regs := ⟨w 6, w 7, w 8, w 9, w 10, w 11, w 12, w 13, w 14, w 15, w 16, w 17, w 18, w 19, w 20, w 21, w 22, w 23⟩
    fpstate := w 29
    sigmask := w 38 }

/-- The image with `struct fpx_sw_bytes` in the words 58 to 60. -/
def swImage (cpu : Fpu) (image : ℕ → Word) (k : ℕ) : Word :=
  if k = 58 then BitVec.ofNat 64 ((cpu.size + 4) * 2 ^ 32 + 0x46505853)
  else if k = 59 then cpu.xcr0
  else if k = 60 then (image 60 &&& 0xFFFFFFFF00000000) ||| BitVec.ofNat 64 cpu.size
  else image k

/-- The extended state with `FP_XSTATE_MAGIC2` behind it is written at `fpbase`, then the frame at `base`. -/
def writeFrame (cpu : Fpu) (m : Mem) (base fpbase : ℕ) (words image : ℕ → Word) : Mem :=
  let m := storeWords m fpbase (cpu.size / 8) (swImage cpu image)
  let m := store m (fpbase + cpu.size) 4 (byteOf 0x46505845)
  storeWords m base 70 words

/-! ## Delivery -/

/-- `USER_ADDR_LIMIT`. -/
def userAddrLimit : Word := 0x0000800000000000

/-- `user_range_writable`, less the walk of the page tables. -/
def userRange (addr len : Word) : Bool := !(addr + len < addr) && !(userAddrLimit < addr + len)

/-- Where `build_frame` puts the extended state and the frame. -/
def frameLayout (cpu : Fpu) (rsp : Word) (ka : Action) (alt : Stack) : Word × Word :=
  let sp := if has ka.flags saOnstack && alt.size != 0 && !(decide (alt.sp ≤ rsp) && decide (rsp < alt.sp + alt.size))
    then alt.sp + alt.size else rsp
  let fpaddr := (sp - BitVec.ofNat 64 (cpu.size + 4)) &&& ~~~63
  (fpaddr, ((fpaddr - 560) &&& ~~~0xF) - 8)

/-- What became of a signal. -/
inductive Delivery
  /-- the process is terminated -/
  | dead
  | skipped
  /-- the handler is entered: the thread, the context, user memory, and where the extended state and the
  frame are -/
  | entered (t : Task) (sc : SigContext) (m : Mem) (fpaddr sp : Word)

/-- The mask a handler returns to. -/
def oldmask (t : Task) : Word := if t.inSigsuspend then t.savedBlocked else t.blocked

/-- The task while the handler of `sig` runs. -/
def enterMask (sig : ℕ) (ka : Action) (t : Task) : Task :=
  let blocked := t.blocked ||| ka.mask
  let blocked := if has ka.flags saNodefer then blocked else blocked ||| sigmaskOf sig
  { t with
    blocked := blocked &&& ~~~unblockable
    inSigsuspend := false
    actions := if has ka.flags saResethand then Function.update t.actions sig { ka with handler := sigDfl } else t.actions }

/-- The context at the entry of a handler. -/
def enterContext (sig : ℕ) (ka : Action) (sp : Word) (sc : SigContext) : SigContext :=
  { sc with
    regs := { sc.regs with
      rip := ka.handler
      rsp := sp
      rdi := BitVec.ofNat 64 sig
      rsi := if has ka.flags saSiginfo then sp + 432 else sc.regs.rsi
      rdx := if has ka.flags saSiginfo then sp + 8 else sc.regs.rdx
      eflags := sc.regs.eflags &&& ~~~(1#64 <<< 10) } }

/-- `deliver_one`; `mapped` says that the pages of the frame are mapped writable. -/
def deliverOne (mapped : Bool) (sig : ℕ) (info : Info) (sc : SigContext) (t : Task) (m : Mem) (fp : cpu.State) : Delivery :=
  let ka := t.actions sig
  if ka.handler = sigIgn then .skipped
  else if ka.handler = sigDfl then
    match signalDefaultAction sig with
    | .term => .dead
    | _ => .skipped
  else if !has ka.flags saRestorer || ka.restorer == 0 then .dead
  else
    let lay := frameLayout cpu sc.regs.rsp ka t.altstack
    if userRange lay.2 (lay.1 + BitVec.ofNat 64 (cpu.size + 4) - lay.2) && mapped then
      let fr : Frame := ⟨t.altstack, sc.regs, lay.1, oldmask t⟩
      .entered (enterMask sig ka t) (enterContext sig ka lay.2 sc)
        (writeFrame cpu m lay.2.toNat lay.1.toNat (frameWord ka.restorer fr sc.err sc.trapno info) (cpu.image fp))
        lay.1 lay.2
    else .dead

/-! ## The exits of the kernel -/

/-- `sc_from_syscall`. -/
def scFromSyscall (f : SyscallFrame) (retval : Word) : SigContext where
  regs := ⟨f.r8, f.r9, f.r10, f.r11, f.r12, f.r13, f.r14, f.r15, f.rdi, f.rsi, f.rbp, f.rbx, f.rdx, retval, f.rcx, f.userRsp,
    f.rcx, f.r11⟩
  err := 0
  trapno := 0

/-- `sc_to_syscall`. -/
def scToSyscall (sc : SigContext) : SyscallFrame where
  r9 := sc.regs.r9
  r8 := sc.regs.r8
  r10 := sc.regs.r10
  rdx := sc.regs.rdx
  rsi := sc.regs.rsi
  rdi := sc.regs.rdi
  r15 := sc.regs.r15
  r14 := sc.regs.r14
  r13 := sc.regs.r13
  r12 := sc.regs.r12
  rbp := sc.regs.rbp
  rbx := sc.regs.rbx
  r11 := sc.regs.eflags
  rcx := sc.regs.rip
  userRsp := sc.regs.rsp

/-- The flags `sysret` and `rt_sigreturn` let through. -/
def userFlags : Word := 0x3C7FD7

/-- The end of `syscall_entry`: the registers are popped and `sysret` takes RIP from `rcx` and RFLAGS
from `r11`. The selectors come from `STAR`. -/
def sysret (f : SyscallFrame) (retval : Word) : User where
  regs := ⟨f.r8, f.r9, f.r10, f.r11, f.r12, f.r13, f.r14, f.r15, f.rdi, f.rsi, f.rbp, f.rbx, f.rdx, retval, f.rcx, f.userRsp,
    f.rcx, (f.r11 &&& userFlags) ||| 2⟩
  cs := (0x28 + 16) ||| 3
  ss := (0x28 + 8) ||| 3

/-- A way back to user mode. -/
inductive Exit
  | syscall (f : SyscallFrame) (num retval : Word)
  | interrupt (r : Registers)

/-- The context the handler's frame saves, before a restart. -/
def Exit.sc : Exit → SigContext
  | .syscall f _ retval => scFromSyscall f retval
  | .interrupt r => ⟨r.regs, r.errorCode, r.vectorNumber⟩

/-- `sc_to_syscall` and `sc_to_registers`. -/
def Exit.put (x : Exit) (sc : SigContext) : Exit :=
  match x with
  | .syscall _ num _ => .syscall (scToSyscall sc) num sc.regs.rax
  | .interrupt r => .interrupt { r with regs := sc.regs }

/-- What user mode resumes with. -/
def Exit.resume : Exit → User
  | .syscall f _ retval => sysret f retval
  | .interrupt r => ⟨r.regs, r.cs, r.ss⟩

/-- Back onto the `syscall` instruction, with its number in RAX. -/
def restartRegs (num : Word) (r : Regs) : Regs := { r with rip := r.rip - 2, rax := num }

/-- The test of `signal_deliver_from_syscall`. -/
def Exit.restarts (x : Exit) (ka : Action) : Bool :=
  match x with
  | .syscall _ _ retval => retval == eintr && has ka.flags saRestart && ka.handler != sigDfl && ka.handler != sigIgn
  | .interrupt _ => false

/-- The context that is handed to `deliver_one`. -/
def Exit.context (x : Exit) (ka : Action) : SigContext :=
  match x with
  | .syscall _ num _ => if x.restarts ka then { x.sc with regs := restartRegs num x.sc.regs } else x.sc
  | .interrupt _ => x.sc

/-- A thread in user mode. -/
structure Machine (cpu : Fpu) where
  user : User
  blocked : Word
  altstack : Stack
  fp : cpu.State

/-- A frame on the user's stack, with what its handler interrupts. -/
structure Entry where
  action : Action
  fpaddr : Word
  sp : Word
  before : Machine cpu

/-- A kernel exit under way. `log` has the frames, the last one first. -/
structure State where
  exit : Exit
  task : Task
  mem : Mem
  fp : cpu.State
  log : List (Entry cpu)
  dead : Bool

variable {cpu}

/-- What the next handler interrupts: user mode as it would have gone on, with the mask from before a
`sigsuspend`. -/
def State.context (s : State cpu) : Machine cpu := ⟨s.exit.resume, oldmask s.task, s.task.altstack, s.fp⟩

inductive Event
  /-- a round of the loop -/
  | deliver (mapped : Bool)
  /-- an exception of user mode, which comes before the loop -/
  | fault (mapped : Bool) (sig : ℕ) (info : Info)
  /-- signals arrive and other threads change the dispositions -/
  | others (pending procPending : Word) (queued procQueued : List Info) (actions : ℕ → Action)

/-- `deliver_one` on the context of the exit, for the task `t`. -/
def deliverTo (mapped : Bool) (sig : ℕ) (info : Info) (t : Task) (s : State cpu) : State cpu :=
  let ka := t.actions sig
  match deliverOne cpu mapped sig info (s.exit.context ka) t s.mem s.fp with
  | .dead => { s with dead := true }
  | .skipped => { s with task := t }
  | .entered t' sc m fpaddr sp =>
    { s with exit := s.exit.put sc, task := t', mem := m, log := ⟨ka, fpaddr, sp, s.context⟩ :: s.log }

/-- A round of the loops of `signal_deliver_from_syscall` and `signal_deliver_from_interrupt`. -/
def deliverRound (mapped : Bool) (s : State cpu) : State cpu :=
  let sig := signalNextDeliverable s.task
  if sig = 0 then s
  else
    let r := signalTakePending sig s.task
    deliverTo mapped sig r.2 r.1 s

/-- `signal_raise_fault`. -/
def signalRaiseFault (mapped : Bool) (sig : ℕ) (info : Info) (s : State cpu) : State cpu :=
  match s.exit with
  | .syscall .. => s
  | .interrupt _ =>
    if has s.task.blocked (sigmaskOf sig) || (s.task.actions sig).handler == sigIgn then { s with dead := true }
    else deliverTo mapped sig info s.task s

def step (s : State cpu) (e : Event) : State cpu :=
  if s.dead then s
  else match e with
    | .deliver mapped => deliverRound mapped s
    | .fault mapped sig info => signalRaiseFault mapped sig info s
    | .others pending procPending queued procQueued actions =>
      { s with task := { s.task with pending := pending, procPending := procPending, queued := queued,
                                     procQueued := procQueued, actions := actions } }

/-! ## Return -/

/-- The flags `signal_do_sigreturn` restores. -/
def returnFlags (eflags : Word) : Word := (eflags &&& userFlags) ||| (1#64 <<< 9) ||| 2

/-- The header of the extended state at `fpbase` is masked. -/
def maskHeader (cpu : Fpu) (m : Mem) (fpbase : ℕ) : Mem :=
  if 512 < cpu.size then
    storeWords m (fpbase + 512) 8 fun k => if k = 0 then word m (fpbase + 512) &&& cpu.xcr0 else 0
  else m

/-- The test of `signal_do_sigreturn` for an extended state; `mapped` says that it is mapped writable. -/
def usesFpstate (cpu : Fpu) (fpstate : Word) (mapped : Bool) : Bool :=
  fpstate != 0 && fpstate &&& 63 == 0 && userRange fpstate (BitVec.ofNat 64 cpu.size) && mapped

/-- User memory when `signal_do_sigreturn` reads the registers: the header is masked before, and it may lie
in the frame. -/
def sigreturnMem (cpu : Fpu) (mapped : Bool) (m : Mem) (base : ℕ) : Mem :=
  let fpstate := (loadFrame m base).fpstate
  if usesFpstate cpu fpstate mapped then maskHeader cpu m fpstate.toNat else m

/-- `signal_do_sigreturn` on the frame at `base`, once its range has been checked. -/
def sigreturnFrame (mapped : Bool) (m : Mem) (base : ℕ) (fp : cpu.State) : Machine cpu :=
  let fr := loadFrame m base
  let m' := sigreturnMem cpu mapped m base
  let fr' := loadFrame m' base
  { user := ⟨{ fr'.regs with eflags := returnFlags fr'.regs.eflags }, userCs, userSs⟩
    blocked := fr.sigmask &&& ~~~unblockable
    altstack := fr.stack
    fp := if usesFpstate cpu fr.fpstate mapped then cpu.restore fun k => word m' (fr'.fpstate.toNat + 8 * k) else fp }

/-- `signal_do_sigreturn`: `none` says that the process is terminated. `mapped` and `mappedFp` say that the
frame and its extended state are mapped writable. -/
def signalDoSigreturn (mapped mappedFp : Bool) (userRsp : Word) (m : Mem) (fp : cpu.State) : Option (Machine cpu) :=
  let sp := userRsp - 8
  if userRange sp 560 && mapped then some (sigreturnFrame mappedFp m sp.toNat fp) else none

end NeoOS.Signal

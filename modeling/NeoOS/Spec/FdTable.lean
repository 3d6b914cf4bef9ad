import Mathlib.Algebra.BigOperators.Group.Finset.Basic
import NeoOS.Spec.Pipe

/-!
# Descriptors and the objects behind them (`kernel/sched/fd_table.c`, `kernel/fs/file.c`)

A descriptor names a vnode, the object of its file operations, or both: a device file keeps the
vnode it was opened through beside what the device's open hook made. `Objects` has the reference
counts of all of them, `fileDup` and `fileClose` are the hooks of the operation tables, and
`Table` is the two-level table of a process. `State.step` is one call of one process.

Path resolution is not modelled: a call gets the vnodes its lookups find. The references that a
walk takes on directories and drops again are left out, as are the offset and the flags of a
descriptor that no count depends on.
-/

namespace NeoOS.Fd

open Function (update)

/-- `FD_TABLE_BUCKETS`. -/
def fdTableBuckets : ℕ := 32

/-- `FD_TABLE_SLOTS`. -/
def fdTableSlots : ℕ := 512

/-- `FD_TABLE_MAX`. -/
def fdTableMax : ℕ := fdTableBuckets * fdTableSlots

/-- `PTY_MAX`. -/
def ptyMax : ℕ := 256

/-- `DEVFS_DYN_MAX`. -/
def devfsDynMax : ℕ := 256

inductive Err
  | ebadf | einval | emfile | enfile | eisdir | enomem | enobufs | enoent | enxio | enodev | eexist | enospc
  /-- what a file system answered -/
  | fs
deriving DecidableEq

/-- The device table of `devfs.c`; `pts d` is the entry that `devfs_register` put into slot `d`. -/
inductive Dev
  | console | ctty | null | zero | event0 | fb0 | ptmx | kmsg | random
  | vt (index : ℕ)
  | pts (d : ℕ)
deriving DecidableEq

/-- `vn->type`. -/
inductive VType
  | file
  | dir
  | device (d : Dev)
deriving DecidableEq

/-- The `struct file_ops` of the kernel. -/
inductive Ops
  | vnode | pipe | socket | evdev | ptm | pts
  | tty | ctty | null | zero | kmsg | random | fb | vt
deriving DecidableEq

/-- `struct file_descriptor`; `priv` is the address of the object, or the index of a VT. -/
structure FileDescriptor where
  inUse : Bool
  ops : Ops
  priv : Option ℕ
  vn : Option ℕ
  writable : Bool
  readable : Bool
deriving DecidableEq

/-- `slot_reset`. -/
def FileDescriptor.reset : FileDescriptor := ⟨false, .vnode, none, none, false, true⟩

/-- What `fd_table_alloc` leaves for the caller to fill in. -/
def FileDescriptor.fresh : FileDescriptor := { FileDescriptor.reset with inUse := true }

/-- The files of the system. A mount holds one reference on its root, which `pins` counts. -/
structure Files where
  typ : ℕ → VType
  pins : ℕ → ℕ
  /-- `/dev/console` -/
  console : ℕ
  console_typ : typ console = .device .console

/-! ## Objects -/

/-- `struct pty`. -/
structure Pty where
  used : Bool
  masterRefs : ℕ
  slaveRefs : ℕ
deriving DecidableEq

/-- The objects descriptors name. Addresses from `heap` on have not been handed out yet. -/
structure Objects where
  /-- the reference count of each vnode, 0 for one that is not cached -/
  vnodes : ℕ → ℕ
  pipes : ℕ → Option Pipe.Object
  /-- `refs` of each socket -/
  sockets : ℕ → Option ℤ
  /-- `refcount` of each evdev client -/
  clients : ℕ → Option ℕ
  ptys : ℕ → Option Pty
  /-- the ptys that `devfs_register` has entered -/
  dyn : ℕ → Option ℕ
  heap : ℕ

namespace Objects

/-- `vnode_get` of a vnode that exists or can be allocated. -/
def vnodeGet (o : Objects) (v : ℕ) : Objects :=
  { o with vnodes := update o.vnodes v (o.vnodes v + 1) }

/-- `vnode_put`. -/
def vnodePut (o : Objects) (v : ℕ) : Objects :=
  if o.vnodes v = 0 then o else { o with vnodes := update o.vnodes v (o.vnodes v - 1) }

/-- `sock_put`. -/
def sockPut (o : Objects) (a : ℕ) : Objects :=
  match o.sockets a with
  | none => o
  | some refs => { o with sockets := update o.sockets a (if refs - 1 = 0 then none else some (refs - 1)) }

/-- `devfs_unregister`: the entry of the pty `n`. -/
def devfsUnregister (o : Objects) (n : ℕ) : Objects :=
  match (List.range devfsDynMax).find? fun d => o.dyn d = some n with
  | none => o
  | some d => { o with dyn := update o.dyn d none }

/-- `devfs_register`: `none` when the name is taken or the table full. -/
def devfsRegister (o : Objects) (n : ℕ) : Except Err Objects :=
  if (List.range devfsDynMax).any fun d => o.dyn d = some n then .error .eexist
  else match (List.range devfsDynMax).find? fun d => (o.dyn d).isNone with
    | none => .error .enospc
    | some d => .ok { o with dyn := update o.dyn d (some n) }

def setPty (o : Objects) (n : ℕ) (p : Pty) : Objects :=
  { o with ptys := update o.ptys n (some p) }

def modifyPty (o : Objects) (n : ℕ) (g : Pty → Pty) : Objects :=
  { o with ptys := update o.ptys n ((o.ptys n).map g) }

/-- The tail of `pty_unref`: the pty with its counter dropped is given up when both ends are
closed. -/
def ptyDropped (o : Objects) (n : ℕ) (p : Pty) : Objects :=
  if p.used && p.masterRefs == 0 && p.slaveRefs == 0 then
    (o.setPty n { p with used := false }).devfsUnregister n
  else o.setPty n p

/-- `pty_unref` of the master's counter. -/
def unrefMaster (o : Objects) (n : ℕ) : Objects :=
  match o.ptys n with
  | none => o
  | some p => o.ptyDropped n { p with masterRefs := p.masterRefs - 1 }

/-- `pty_unref` of the slave's counter. -/
def unrefSlave (o : Objects) (n : ℕ) : Objects :=
  match o.ptys n with
  | none => o
  | some p => o.ptyDropped n { p with slaveRefs := p.slaveRefs - 1 }

end Objects

/-- What `pipe.c` keeps of a descriptor. -/
def FileDescriptor.pipeFd (f : FileDescriptor) : Pipe.Fd := ⟨f.readable, f.writable, false⟩

/-- `file_dup`: `vnode_dup`, `pipe_dup`, `sock_dup`, `evdev_fop_dup`, `ptm_dup` and `pts_dup`. The
hooks of the other devices do nothing. -/
def fileDup (o : Objects) (f : FileDescriptor) : Objects :=
  match f.ops with
  | .vnode => match f.vn with
    | none => o
    | some v => o.vnodeGet v
  | .pipe => match f.priv with
    | none => o
    | some a => { o with pipes := update o.pipes a ((o.pipes a).map (Pipe.pipeDup · f.pipeFd)) }
  | .socket => match f.priv with
    | none => o
    | some a => { o with sockets := update o.sockets a ((o.sockets a).map (· + 1)) }
  | .ptm => match f.priv with
    | none => o
    | some n => o.modifyPty n fun p => { p with masterRefs := p.masterRefs + 1 }
  | .pts => match f.priv with
    | none => o
    | some n => o.modifyPty n fun p => { p with slaveRefs := p.slaveRefs + 1 }
  -- `evdev_fop_dup` leaves the client's count alone
  | .evdev => o
  | .tty | .ctty | .null | .zero | .kmsg | .random | .fb | .vt => o

/-- What is left of a pipe after `pipe_close`. -/
def pipeClosed (p : Pipe.Object) (f : FileDescriptor) : Option Pipe.Object :=
  let p := Pipe.pipeClose p f.pipeFd
  if p.freed then none else some p

/-- `file_close`: `vnode_close`, `pipe_close`, `sock_close`, `evdev_fop_close`, `ptm_close` and
`pts_close`. The hooks of the other devices do nothing, and none of a device's drops its vnode. -/
def fileClose (o : Objects) (f : FileDescriptor) : Objects :=
  match f.ops with
  | .vnode => match f.vn with
    | none => o
    | some v => o.vnodePut v
  | .pipe => match f.priv with
    | none => o
    | some a => { o with pipes := update o.pipes a ((o.pipes a).bind (pipeClosed · f)) }
  | .socket => match f.priv with
    | none => o
    | some a => o.sockPut a
  -- `evdev_client_close` frees the client, whatever its count
  | .evdev => match f.priv with
    | none => o
    | some a => { o with clients := update o.clients a none }
  | .ptm => match f.priv with
    | none => o
    | some n => o.unrefMaster n
  | .pts => match f.priv with
    | none => o
    | some n => o.unrefSlave n
  | .tty | .ctty | .null | .zero | .kmsg | .random | .fb | .vt => o

/-! ## Open hooks -/

/-- `claim_existing_locked`. -/
def Objects.claimExisting (o : Objects) : Option ℕ :=
  (List.range ptyMax).find? fun n => (o.ptys n).any fun p => !p.used

/-- The pty that `ptmx_open` takes: one that exists, or a new one if there is memory for it. -/
def Objects.claimPty (o : Objects) (mem : Bool) : Except Err ℕ :=
  match o.claimExisting with
  | some n => .ok n
  | none => match (List.range ptyMax).find? fun n => (o.ptys n).isNone with
    | none => .error .enfile
    | some n => if mem then .ok n else .error .enomem

/-- `ptmx_open`. -/
def ptmxOpen (o : Objects) (f : FileDescriptor) (mem : Bool) : Except Err Unit × Objects × FileDescriptor :=
  match o.claimPty mem with
  | .error e => (.error e, o, f)
  | .ok n =>
    let o := o.setPty n ⟨true, 1, 0⟩
    match o.devfsRegister n with
    | .error e => (.error e, o.setPty n ⟨false, 0, 0⟩, f)
    | .ok o => (.ok (), o, { f with ops := .ptm, priv := some n })

/-- `pts_devfs_open`. -/
def ptsOpen (o : Objects) (n : ℕ) : Except Err Unit × Objects :=
  match o.ptys n with
  | none => (.error .enoent, o)
  | some p => if p.used then (.ok (), o.setPty n { p with slaveRefs := p.slaveRefs + 1 }) else (.error .enoent, o)

/-- `evdev_devfs_open`. -/
def evdevOpen (o : Objects) (f : FileDescriptor) (mem : Bool) : Except Err Unit × Objects × FileDescriptor :=
  if mem then
    (.ok (), { o with clients := update o.clients o.heap (some 1), heap := o.heap + 1 },
      { f with ops := .evdev, priv := some o.heap })
  else (.error .enomem, o, f)

/-- The `fops` of a device. `/dev/ptmx` has none: its open hook sets them. -/
def Dev.fops : Dev → Option Ops
  | .console => some .tty
  | .ctty => some .ctty
  | .null => some .null
  | .zero => some .zero
  | .event0 => some .evdev
  | .fb0 => some .fb
  | .ptmx => none
  | .kmsg => some .kmsg
  | .random => some .random
  | .vt _ => some .vt
  | .pts _ => some .pts

/-- `dev->open`. `mem` says whether a `kmalloc` finds memory, `ready` whether there is a
controlling terminal, or a framebuffer. -/
def devOpen (d : Dev) (o : Objects) (f : FileDescriptor) (mem ready : Bool) :
    Except Err Unit × Objects × FileDescriptor :=
  match d with
  | .console | .null | .zero | .kmsg | .random => (.ok (), o, f)
  | .vt index => (.ok (), o, { f with priv := some index })
  | .ctty => (if ready then .ok () else .error .enxio, o, f)
  | .fb0 => (if ready then .ok () else .error .enodev, o, f)
  | .event0 => evdevOpen o f mem
  | .ptmx => ptmxOpen o f mem
  | .pts d => match o.dyn d with
    | none => (.error .enoent, o, f)
    | some n =>
      let r := ptsOpen o n
      (r.1, r.2, { f with ops := .pts, priv := some n })

/-- `file_bind_vnode_ops`. -/
def fileBindVnodeOps (F : Files) (o : Objects) (f : FileDescriptor) (mem ready : Bool) :
    Except Err Unit × Objects × FileDescriptor :=
  match f.vn.map F.typ with
  | some (.device d) => devOpen d o { f with ops := d.fops.getD .vnode } mem ready
  | _ => (.ok (), o, { f with ops := .vnode })

/-! ## The table of a process -/

/-- `struct fd_bucket`. -/
structure Bucket where
  slots : Option (ℕ → FileDescriptor)
  slotCount : ℕ

/-- `struct fd_table`. -/
abbrev Table := ℕ → Bucket

namespace Table

/-- `fd_table_init`. -/
def init : Table := fun _ => ⟨none, 0⟩

/-- The slot of `fd`, a reset one in a bucket without an array. -/
def desc (t : Table) (fd : ℕ) : FileDescriptor :=
  match (t (fd / fdTableSlots)).slots with
  | none => .reset
  | some slots => slots (fd % fdTableSlots)

/-- `fd_table_get`. -/
def get (t : Table) (fd : ℤ) : Option FileDescriptor :=
  if fd < 0 ∨ fdTableMax ≤ fd then none
  else if (t.desc fd.toNat).inUse then some (t.desc fd.toNat) else none

/-- The descriptors of a bucket that are in use, in order. -/
def bucketOpen (b : Bucket) : List FileDescriptor :=
  match b.slots with
  | none => []
  | some slots => ((List.range fdTableSlots).map slots).filter (·.inUse)

/-- The descriptors that are in use, in order. -/
def inUse (t : Table) : List FileDescriptor :=
  (List.range fdTableBuckets).flatMap fun b => bucketOpen (t b)

end Table

/-- `bucket_slots`: the bucket with its array, built on first use if there is memory. -/
def bucketSlots (b : Bucket) (mem : Bool) : Option (Bucket × (ℕ → FileDescriptor)) :=
  match b.slots with
  | some slots => some (b, slots)
  | none => if mem then some ({ b with slots := some fun _ => .reset }, fun _ => .reset) else none

/-- Writes a slot of a bucket that has its array. -/
def Bucket.put (b : Bucket) (slots : ℕ → FileDescriptor) (i : ℕ) (f : FileDescriptor) (count : ℕ) : Bucket :=
  { b with slots := some (update slots i f), slotCount := count }

/-- The bucket loop of `fd_table_alloc_from`. -/
def allocLoop (start : ℕ) (mem : Bool) : List ℕ → Table → Except Err ℕ × Table
  | [], t => (.error .emfile, t)
  | b :: bs, t =>
    if fdTableSlots ≤ (t b).slotCount then allocLoop start mem bs t
    else match bucketSlots (t b) mem with
      | none => (.error .emfile, t)
      | some (bucket, slots) =>
        let first := if start / fdTableSlots = b then start % fdTableSlots else 0
        match (List.range' first (fdTableSlots - first)).find? fun i => !(slots i).inUse with
        | none => allocLoop start mem bs (update t b bucket)
        | some i => (.ok (b * fdTableSlots + i),
            update t b (bucket.put slots i .fresh (bucket.slotCount + 1)))

/-- `fd_table_alloc_from`. -/
def fdTableAllocFrom (t : Table) (start : ℕ) (mem : Bool) : Except Err ℕ × Table :=
  allocLoop start mem (List.range' (start / fdTableSlots) (fdTableBuckets - start / fdTableSlots)) t

/-- Fills in the slot of a descriptor that the caller has reserved. -/
def Table.fill (t : Table) (fd : ℕ) (f : FileDescriptor) : Table :=
  match (t (fd / fdTableSlots)).slots with
  | none => t
  | some slots => update t (fd / fdTableSlots)
      ((t (fd / fdTableSlots)).put slots (fd % fdTableSlots) f (t (fd / fdTableSlots)).slotCount)

/-- `fd_table_close`: what is to be closed leaves the slot first. -/
def fdTableClose (o : Objects) (t : Table) (fd : ℕ) : Objects × Table :=
  if fdTableMax ≤ fd then (o, t)
  else match (t (fd / fdTableSlots)).slots with
    | none => (o, t)
    | some slots =>
      let closing := slots (fd % fdTableSlots)
      if closing.inUse then
        (fileClose o closing, update t (fd / fdTableSlots)
          ((t (fd / fdTableSlots)).put slots (fd % fdTableSlots) .reset ((t (fd / fdTableSlots)).slotCount - 1)))
      else (o, t)

/-- `fd_table_put`, with the vnode the caller has resolved. -/
def fdTablePut (F : Files) (o : Objects) (t : Table) (fd v : ℕ) (writable mem : Bool) :
    Bool × Objects × Table :=
  match bucketSlots (t (fd / fdTableSlots)) mem with
  | none => (false, o, t)
  | some (bucket, slots) =>
    if (slots (fd % fdTableSlots)).inUse then (false, o, update t (fd / fdTableSlots) bucket)
    else
      let f := { FileDescriptor.fresh with vn := some v, writable := writable }
      -- what the open hook answers is not looked at
      let r := fileBindVnodeOps F o f mem true
      (true, r.2.1, update t (fd / fdTableSlots)
        (bucket.put slots (fd % fdTableSlots) r.2.2 (bucket.slotCount + 1)))

/-- `fd_table_dup2`. -/
def fdTableDup2 (o : Objects) (t : Table) (oldfd newfd : ℤ) (mem : Bool) : Except Err ℤ × Objects × Table :=
  if oldfd < 0 ∨ newfd < 0 ∨ fdTableMax ≤ oldfd ∨ fdTableMax ≤ newfd then (.error .ebadf, o, t)
  else
    let ob := oldfd.toNat / fdTableSlots
    match bucketSlots (t ob) mem with
    | none => (.error .ebadf, o, t)
    | some (bucket, slots) =>
      let t := update t ob bucket
      let src := slots (oldfd.toNat % fdTableSlots)
      if !src.inUse then (.error .ebadf, o, t)
      else if oldfd = newfd then (.ok newfd, o, t)
      else
        let nb := newfd.toNat / fdTableSlots
        match bucketSlots (t nb) mem with
        | none => (.error .emfile, o, t)
        | some (bucket, slots) =>
          let closing := slots (newfd.toNat % fdTableSlots)
          let count := if closing.inUse then bucket.slotCount - 1 else bucket.slotCount
          let t := update t nb (bucket.put slots (newfd.toNat % fdTableSlots) src (count + 1))
          let o := fileDup o src
          (.ok newfd, if closing.inUse then fileClose o closing else o, t)

/-- `fd_table_free`. -/
def fdTableFree (o : Objects) (t : Table) : Objects × Table :=
  (t.inUse.foldl fileClose o, fun b => if b < fdTableBuckets then ⟨none, 0⟩ else t b)

/-- The slot loop of `fd_table_dup`, over the slots still to visit. -/
def dupSlots (src : ℕ → FileDescriptor) : List ℕ → Objects → Bucket → Objects × Bucket
  | [], o, b => (o, b)
  | i :: is, o, b =>
    if (src i).inUse then
      dupSlots src is (fileDup o (src i)) (b.put (b.slots.getD fun _ => .reset) i (src i) (b.slotCount + 1))
    else dupSlots src is o b

/-- The bucket loop of `fd_table_dup`; `mem b` says whether there is memory for the array of
bucket `b`. -/
def dupLoop (src : Table) (mem : ℕ → Bool) : List ℕ → Objects → Table → Bool × Objects × Table
  | [], o, t => (true, o, t)
  | b :: bs, o, t =>
    match (src b).slots with
    | none => dupLoop src mem bs o t
    | some slots => match bucketSlots (t b) (mem b) with
      | none => (false, o, t)
      | some (bucket, _) =>
        let r := dupSlots slots (List.range fdTableSlots) o bucket
        dupLoop src mem bs r.1 (update t b r.2)

/-- `fd_table_dup`. -/
def fdTableDup (o : Objects) (dst src : Table) (mem : ℕ → Bool) : Bool × Objects × Table :=
  dupLoop src mem (List.range fdTableBuckets) o dst

/-! ## Calls -/

/-- What the lookups of `sys_open` find: the file, the directory to create it in, whether that
succeeded, and the vnode of the new file. -/
structure Lookup where
  file : Option ℕ
  parent : Option ℕ
  created : Bool
  made : Option ℕ

/-- The lookups of `sys_open`: the vnode with a reference on it. -/
def lookup (o : Objects) (l : Lookup) (creat : Bool) : Except Err ℕ × Objects :=
  match l.file with
  | some v => (.ok v, o.vnodeGet v)
  | none =>
    if !creat then (.error .fs, o)
    else match l.parent with
      | none => (.error .fs, o)
      | some dir =>
        let o := o.vnodeGet dir
        if !l.created then (.error .fs, o.vnodePut dir)
        else match l.made with
          | none => (.error .enfile, o.vnodePut dir)
          | some v => (.ok v, (o.vnodeGet v).vnodePut dir)

/-- `sys_open`. `room` says whether there is memory for a new bucket. -/
def sysOpen (F : Files) (o : Objects) (t : Table) (l : Lookup) (creat write room mem ready : Bool) :
    Except Err ℕ × Objects × Table :=
  match fdTableAllocFrom t 0 room with
  | (.error _, t) => (.error .emfile, o, t)
  | (.ok slot, t) => match lookup o l creat with
    | (.error e, o) => (.error e, fdTableClose o t slot)
    | (.ok v, o) =>
      if F.typ v = .dir ∧ write then (.error .eisdir, fdTableClose (o.vnodePut v) t slot)
      else
        let r := fileBindVnodeOps F o { t.desc slot with vn := some v, writable := write, readable := true }
          mem ready
        let t := t.fill slot r.2.2
        match r.1 with
        | .error e => (.error e, fdTableClose (r.2.1.vnodePut v) t slot)
        | .ok () => (.ok slot, r.2.1, t)

/-- The `struct pipe` of `pipe_create`, with both ends open. -/
def newPipe : Pipe.Object := ⟨⟨fun _ => 0, 0, 0⟩, 1, 1, 2, false⟩

/-- `pipe_create`. `mem` says whether there is memory for the pipe, `room` and `room'` whether
there is for a bucket of the read and of the write end. -/
def pipeCreate (o : Objects) (t : Table) (mem room room' : Bool) : Except Err (ℕ × ℕ) × Objects × Table :=
  if !mem then (.error .enomem, o, t)
  else match fdTableAllocFrom t 0 room with
    | (.error e, t) => (.error e, o, t)
    | (.ok rfd, t) => match fdTableAllocFrom t 0 room' with
      | (.error e, t) => (.error e, fdTableClose o t rfd)
      | (.ok wfd, t) =>
        let p := o.heap
        let r := { t.desc rfd with ops := .pipe, priv := some p, readable := true, writable := false }
        let w := { t.desc wfd with ops := .pipe, priv := some p, readable := false, writable := true }
        (.ok (rfd, wfd), { o with pipes := update o.pipes p (some newPipe), heap := p + 1 },
          (t.fill rfd r).fill wfd w)

/-- `socket_create`, and the end of `socket_accept4`. `mem` says whether there is memory for the
socket, `tcb` whether it gets its TCB. -/
def socketCreate (o : Objects) (t : Table) (mem tcb room : Bool) : Except Err ℕ × Objects × Table :=
  if !mem then (.error .enomem, o, t)
  else if !tcb then (.error .enobufs, o, t)
  else match fdTableAllocFrom t 0 room with
    | (.error e, t) => (.error e, o, t)
    | (.ok fd, t) =>
      let f := { t.desc fd with ops := .socket, priv := some o.heap, readable := true, writable := true }
      (.ok fd, { o with sockets := update o.sockets o.heap (some 1), heap := o.heap + 1 },
        t.fill fd f)

/-- `sys_dup` and `fcntl(F_DUPFD)`: the lowest free descriptor from `start` on. -/
def dupFrom (o : Objects) (t : Table) (oldfd : ℤ) (start : ℕ) (room mem : Bool) : Except Err ℤ × Objects × Table :=
  match t.get oldfd with
  | none => (.error .ebadf, o, t)
  | some _ => match fdTableAllocFrom t start room with
    | (.error e, t) => (.error e, o, t)
    | (.ok nf, t) => match fdTableDup2 o t oldfd nf mem with
      | (.error e, o, t) => (.error e, fdTableClose o t nf)
      | r => r

/-- `sys_dup2`. -/
def sysDup2 (o : Objects) (t : Table) (oldfd newfd : ℤ) (mem : Bool) : Except Err ℤ × Objects × Table :=
  match t.get oldfd with
  | none => (.error .ebadf, o, t)
  | some _ => if oldfd = newfd then (.ok newfd, o, t) else fdTableDup2 o t oldfd newfd mem

/-- `sys_dup3` with accepted flags. -/
def sysDup3 (o : Objects) (t : Table) (oldfd newfd : ℤ) (mem : Bool) : Except Err ℤ × Objects × Table :=
  if oldfd = newfd then (.error .einval, o, t)
  else match t.get oldfd with
    | none => (.error .ebadf, o, t)
    | some _ => fdTableDup2 o t oldfd newfd mem

/-- `sys_close`. -/
def sysClose (o : Objects) (t : Table) (fd : ℤ) : Except Err Unit × Objects × Table :=
  match t.get fd with
  | none => (.error .ebadf, o, t)
  | some _ => (.ok (), fdTableClose o t fd.toNat)

/-! ## The system -/

/-- The objects and the tables of the processes `0 … procs - 1`. The table of a process that has
exited is empty. -/
structure State where
  objs : Objects
  tables : ℕ → Table
  procs : ℕ

/-- The state before the first process: the mounts hold their roots. -/
def State.init (F : Files) : State :=
  ⟨⟨F.pins, fun _ => none, fun _ => none, fun _ => none, fun _ => none, fun _ => none, 0⟩,
    fun _ => Table.init, 0⟩

/-- A call by process `i`. `boot` is `spawn` without a spawner. `fork` comes with what it finds
before it gets to the descriptors and with the memory there is for the buckets of the child. -/
inductive Event
  | boot (room0 room1 room2 : Bool)
  | open (i : ℕ) (l : Lookup) (creat write room mem ready : Bool)
  | pipe (i : ℕ) (mem room room' : Bool)
  | socket (i : ℕ) (mem tcb room : Bool)
  | dup (i : ℕ) (oldfd : ℤ) (room mem : Bool)
  | dup2 (i : ℕ) (oldfd newfd : ℤ) (mem : Bool)
  | dup3 (i : ℕ) (oldfd newfd : ℤ) (mem : Bool)
  | dupFd (i : ℕ) (oldfd : ℤ) (start : ℕ) (room mem : Bool)
  | close (i : ℕ) (fd : ℤ)
  | exec (i : ℕ)
  | fork (i : ℕ) (early : Bool) (mem : ℕ → Bool)
  | exit (i : ℕ)

/-- The process a call is made by. -/
def Event.caller : Event → Option ℕ
  | .boot .. => none
  | .open i .. | .pipe i .. | .socket i .. | .dup i .. | .dup2 i .. | .dup3 i .. | .dupFd i .. | .close i ..
  | .exec i | .fork i .. | .exit i => some i

namespace State

/-- The state after a call that changed the table of process `i` alone. -/
def put (s : State) (i : ℕ) (r : Objects × Table) : State :=
  { s with objs := r.1, tables := update s.tables i r.2 }

/-- The state with a new process. -/
def create (s : State) (r : Objects × Table) : State :=
  ⟨r.1, update s.tables s.procs r.2, s.procs + 1⟩

/-- `vfs_open_into` of the console. -/
def openConsole (F : Files) (r : Objects × Table) (fd : ℕ) (writable mem : Bool) : Objects × Table :=
  let p := fdTablePut F (r.1.vnodeGet F.console) r.2 fd F.console writable mem
  (if p.1 then p.2.1 else p.2.1.vnodePut F.console, p.2.2)

/-- The descriptor part of `fork_task`. Without memory for a bucket the copies are closed again.
(Without memory for the thread they stay, with a process that never runs.) -/
def forkFds (s : State) (i : ℕ) (mem : ℕ → Bool) : Objects × Table :=
  let r := fdTableDup s.objs Table.init (s.tables i) mem
  if r.1 then r.2 else fdTableFree r.2.1 r.2.2

/-- A call of an existing process. -/
def call (F : Files) (s : State) : Event → State
  | .boot .. => s
  | .open i l creat write room mem ready =>
    s.put i (sysOpen F s.objs (s.tables i) l creat write room mem ready).2
  | .pipe i mem room room' => s.put i (pipeCreate s.objs (s.tables i) mem room room').2
  | .socket i mem tcb room => s.put i (socketCreate s.objs (s.tables i) mem tcb room).2
  | .dup i oldfd room mem => s.put i (dupFrom s.objs (s.tables i) oldfd 0 room mem).2
  | .dup2 i oldfd newfd mem => s.put i (sysDup2 s.objs (s.tables i) oldfd newfd mem).2
  | .dup3 i oldfd newfd mem => s.put i (sysDup3 s.objs (s.tables i) oldfd newfd mem).2
  | .dupFd i oldfd start room mem =>
    if fdTableMax ≤ start then s else s.put i (dupFrom s.objs (s.tables i) oldfd start room mem).2
  | .close i fd => s.put i (sysClose s.objs (s.tables i) fd).2
  -- nothing walks the table at exec: close-on-exec is accepted and ignored
  | .exec _ => s
  | .fork i early mem =>
    if early then s.create (s.forkFds i mem) else s
  | .exit i => s.put i (fdTableFree s.objs (s.tables i))

def step (F : Files) (s : State) (e : Event) : State :=
  match e with
  | .boot room0 room1 room2 =>
    let r := openConsole F (s.objs, Table.init) 0 false room0
    s.create (openConsole F (openConsole F r 1 true room1) 2 true room2)
  | e => if e.caller.any (· < s.procs) then s.call F e else s

end State

/-! ## References -/

/-- What a descriptor can name. The two ends of a pty are counted apart. -/
inductive Obj
  | vnode (v : ℕ)
  | pipe (a : ℕ)
  | socket (a : ℕ)
  | client (a : ℕ)
  | ptm (n : ℕ)
  | pts (n : ℕ)
deriving DecidableEq

/-- The number of references an object holds. -/
def Objects.refs (o : Objects) : Obj → ℤ
  | .vnode v => o.vnodes v
  | .pipe a => (o.pipes a).elim 0 (·.refs)
  | .socket a => (o.sockets a).getD 0
  | .client a => (o.clients a).getD 0
  | .ptm n => (o.ptys n).elim 0 (·.masterRefs)
  | .pts n => (o.ptys n).elim 0 (·.slaveRefs)

/-- The object has not been closed. -/
def Objects.live (o : Objects) : Obj → Bool
  | .vnode v => o.vnodes v != 0
  | .pipe a => (o.pipes a).isSome
  | .socket a => (o.sockets a).isSome
  | .client a => (o.clients a).isSome
  | .ptm n => (o.ptys n).any (·.masterRefs != 0)
  | .pts n => (o.ptys n).any (·.slaveRefs != 0)

def FileDescriptor.names (f : FileDescriptor) : Obj → Bool
  | .vnode v => f.vn == some v
  | .pipe a => f.ops == .pipe && f.priv == some a
  | .socket a => f.ops == .socket && f.priv == some a
  | .client a => f.ops == .evdev && f.priv == some a
  | .ptm n => f.ops == .ptm && f.priv == some n
  | .pts n => f.ops == .pts && f.priv == some n

/-- The slots of a table that name `x`. -/
def Table.held (t : Table) (x : Obj) : ℕ := t.inUse.countP (·.names x)

/-- The slots that name `x`, over all processes. -/
def State.slots (s : State) (x : Obj) : ℕ := ∑ i ∈ Finset.range s.procs, (s.tables i).held x

/-- The references that are not a descriptor's: those of the mounts. -/
def Files.pin (F : Files) : Obj → ℕ
  | .vnode v => F.pins v
  | _ => 0

end NeoOS.Fd

import NeoOS.Lib.Run

/-!
# The vnode cache and path resolution (`kernel/fs/vfs.c`, `kernel/fs/vnode_slab.c`)

Vnodes are slots of slabs of 16, found through 16 hash chains; a chain is the list of the vnodes linked in
it. What the file systems answer while a call runs is its `View`. `State` has the holders of references
beside the cache: the mounts hold their roots, callers hold what a resolution has returned to them, and
open files hold their vnode (`sys_open`, `sys_close` in `kernel/syscall/sys_file.c`, `kernel/fs/file.c`).

Calls run one at a time. Left out: what else a vnode has (size and times), the contents of files, and the
descriptor table, which `NeoOS.Spec.FdTable` has.
-/

namespace NeoOS.Vfs

open Function (update)

abbrev Path := List Char

inductive Err
  | enoent | enotdir | enfile | einval | eisdir | eexist | enospc | enodev | ebusy
  /-- what a driver answered -/
  | driver (rc : ℕ)
  deriving DecidableEq

/-- `vn->type`. A device has file operations of its own in the table of `devfs.c`, or its open hook sets
them. -/
inductive VType
  | file
  | dir
  | device (fops : Bool)
  deriving DecidableEq

/-- `struct vnode`; the mount is its slot in the mount table. -/
structure Vnode where
  mount : Option ℕ
  inode : ℕ
  typ : VType
  refcount : ℕ

/-- `struct vfs_mount`. -/
structure Mount where
  path : Path
  root : ℕ

/-- An open file. `puts` is whether the close hook of its operations drops the vnode: `vnode_close` does,
the hooks of the devices do not. -/
structure File where
  vn : ℕ
  puts : Bool
  deriving DecidableEq

structure State where
  /-- the address of `mounts` -/
  base : ℕ
  mounts : ℕ → Option Mount
  buckets : ℕ → List ℕ
  vnodes : ℕ → Vnode
  /-- `used_mask`: slot `i` of slab `k` is vnode `16 * k + i` -/
  used : ℕ → Bool
  slabCount : ℕ
  held : List ℕ
  files : List File

/-- What the drivers and `kmalloc` answer during a call; `mem k` is for the slab number `k`. -/
structure View where
  lookup : ℕ → ℕ → Path → Except Err ℕ
  readInode : ℕ → ℕ → Option VType
  mem : ℕ → Bool

/-- `MAX_MOUNTS`. -/
def maxMounts : ℕ := 8

/-- `VFS_MAX_PATH`. -/
def vfsMaxPath : ℕ := 512

/-- `VFS_NAME_MAX`. -/
def vfsNameMax : ℕ := 256

/-- `VNODE_BUCKETS`. -/
def vnodeBuckets : ℕ := 16

/-- `VNODE_SLAB_SIZE`. -/
def vnodeSlabSize : ℕ := 16

namespace State

/-- `bucket_of`; a `struct vfs_mount` has 544 bytes. -/
def bucketOf (s : State) (m inode : ℕ) : ℕ := (inode ^^^ ((s.base + 544 * m) / 16)) % vnodeBuckets

def setVnode (s : State) (v : ℕ) (vn : Vnode) : State := { s with vnodes := update s.vnodes v vn }

/-! ## Slabs -/

/-- The slots in the order of the search: the newest slab comes first. -/
def slots (s : State) : List ℕ :=
  (List.range s.slabCount).reverse.flatMap fun k => (List.range vnodeSlabSize).map fun i => vnodeSlabSize * k + i

/-- `slab_take`. -/
def slabTake (s : State) (v : ℕ) : State :=
  ({ s with used := update s.used v true }).setVnode v { s.vnodes v with refcount := 0, mount := none }

/-- `vnode_slab_alloc`. -/
def vnodeSlabAlloc (mem : ℕ → Bool) (s : State) : Option (ℕ × State) :=
  match s.slots.find? fun v => !s.used v with
  | some v => some (v, s.slabTake v)
  | none =>
    if !mem s.slabCount then none
    else some (vnodeSlabSize * s.slabCount, { s with slabCount := s.slabCount + 1 }.slabTake (vnodeSlabSize * s.slabCount))

/-- `vnode_slab_free`. -/
def vnodeSlabFree (s : State) (v : ℕ) : State :=
  if v ∈ s.slots then { s with used := update s.used v false } else s

/-! ## The cache -/

/-- `vnode_get`. -/
def vnodeGet (w : View) (s : State) (m inode : ℕ) : Option ℕ × State :=
  let b := s.bucketOf m inode
  match (s.buckets b).find? fun v => (s.vnodes v).mount == some m && (s.vnodes v).inode == inode with
  | some v => (some v, s.setVnode v { s.vnodes v with refcount := (s.vnodes v).refcount + 1 })
  | none =>
    match s.vnodeSlabAlloc w.mem with
    | none => (none, s)
    | some (slot, s) =>
      let s := s.setVnode slot { s.vnodes slot with mount := some m, inode := inode, refcount := 1 }
      match w.readInode m inode with
      | none => (none, (s.setVnode slot { s.vnodes slot with refcount := 0, mount := none }).vnodeSlabFree slot)
      | some typ =>
        let s := s.setVnode slot { s.vnodes slot with typ := typ }
        (some slot, { s with buckets := update s.buckets b (slot :: s.buckets b) })

/-- `vnode_put`. -/
def vnodePut (s : State) (v : ℕ) : State :=
  let vn := s.vnodes v
  if vn.refcount = 0 then s
  else
    let b := s.bucketOf (vn.mount.getD 0) vn.inode
    let s := s.setVnode v { vn with refcount := vn.refcount - 1 }
    if vn.refcount - 1 > 0 then s
    else
      let s := { s with buckets := update s.buckets b ((s.buckets b).erase v) }
      (s.setVnode v { s.vnodes v with mount := none }).vnodeSlabFree v

/-! ## Paths -/

/-- A mount covers a path: its own path is a prefix that ends at a component. -/
def covers (m : Mount) (path : Path) : Bool :=
  m.path.isPrefixOf path &&
    !(m.path.length > 1 && (path[m.path.length]?.any fun c => c != '/'))

/-- The loop of `mount_for`. -/
def mountLoop (s : State) (path : Path) : List ℕ → Option (ℕ × Mount) → Option (ℕ × Mount)
  | [], best => best
  | i :: is, best =>
    mountLoop s path is (match s.mounts i with
      | none => best
      | some m =>
        if !covers m path then best
        else match best with
          | none => some (i, m)
          | some b => if m.path.length ≥ b.2.path.length then some (i, m) else best)

/-- `mount_for`: the mount and the path below it. -/
def mountFor (s : State) (path : Path) : Option (ℕ × Mount × Path) :=
  (s.mountLoop path (List.range maxMounts) none).map fun b =>
    let rel := if b.2.path.length > 1 then path.drop b.2.path.length else path
    (b.1, b.2, if rel.isEmpty then ['/'] else rel)

/-- What `next_component` finds one after the other: a name that is too long is cut off. -/
def components (rel : Path) : List Path :=
  ((rel.splitOn '/').filter fun name => !name.isEmpty).map fun name => name.take (vfsNameMax - 1)

/-- The loop of `resolve_walk`. With `stopShort` the last component is left over and returned. -/
def walk (w : View) (stopShort : Bool) : List Path → ℕ → State → Except Err (ℕ × Path) × State
  | [], dir, s => if stopShort then (.error .einval, s.vnodePut dir) else (.ok (dir, []), s)
  | name :: rest, dir, s =>
    if stopShort && rest.isEmpty then (.ok (dir, name), s)
    else if (s.vnodes dir).typ ≠ .dir then (.error .enotdir, s.vnodePut dir)
    else
      let m := (s.vnodes dir).mount.getD 0
      match w.lookup m (s.vnodes dir).inode name with
      | .error rc => (.error rc, s.vnodePut dir)
      | .ok childId =>
        let r := s.vnodeGet w m childId
        let s := r.2.vnodePut dir
        match r.1 with
        | none => (.error .enfile, s)
        | some child => walk w stopShort rest child s

/-- `resolve_walk`. -/
def resolveWalk (w : View) (s : State) (path : Path) (stopShort : Bool) : Except Err (ℕ × Path) × State :=
  match s.mountFor path with
  | none => (.error .enoent, s)
  | some (_, m, rel) =>
    let dir := m.root
    let s := s.setVnode dir { s.vnodes dir with refcount := (s.vnodes dir).refcount + 1 }
    walk w stopShort (components rel) dir s

/-! ## Mounts -/

/-- The first mount with a path. -/
def findMount (s : State) (target : Path) : Option (ℕ × Mount) :=
  (List.range maxMounts).findSome? fun i =>
    (s.mounts i).bind fun m => if m.path = target then some (i, m) else none

/-- `vfs_mount_fs`. The file system type may be unknown, and the driver may refuse. -/
def vfsMountFs (w : View) (s : State) (target : Path) (known : Bool) (driver : Except Err Unit) : Except Err Unit × State :=
  if (s.findMount target).isSome then (.error .eexist, s)
  else match (List.range maxMounts).find? fun i => (s.mounts i).isNone with
    | none => (.error .enospc, s)
    | some i =>
      if !known then (.error .enodev, s)
      else match driver with
        | .error rc => (.error rc, s)
        | .ok () =>
          let r := s.vnodeGet w i 0
          match r.1 with
          | none => (.error .enfile, r.2)
          | some root => (.ok (), { r.2 with mounts := update r.2.mounts i (some ⟨target.take (vfsMaxPath - 1), root⟩) })

/-- The scan of `vfs_umount` over the chains. -/
def busy (s : State) (i : ℕ) (m : Mount) : Bool :=
  (List.range vnodeBuckets).any fun b => (s.buckets b).any fun v =>
    (s.vnodes v).mount == some i &&
      (if v == m.root then (s.vnodes v).refcount > 1 else (s.vnodes v).refcount > 0)

/-- `vfs_umount`. -/
def vfsUmount (s : State) (target : Path) : Except Err Unit × State :=
  match s.findMount target with
  | none => (.error .enoent, s)
  | some (i, m) =>
    if s.busy i m then (.error .ebusy, s)
    else
      let s := s.vnodePut m.root
      (.ok (), { s with mounts := update s.mounts i none })

/-! ## Open and close -/

/-- What `sys_open` needs beside the path: the answers during its up to three calls into the cache, the
flags, what the driver answers to the creation, and whether the open hook succeeds for a device with
operations of its own and for one without. -/
structure OpenArgs where
  resolve : View
  parent : View
  get : View
  creat : Bool
  write : Bool
  created : Except Err ℕ
  hook : Bool → Bool

/-- The vnode `sys_open` opens: the one at the path, or with `O_CREAT` a new one. -/
def openVnode (a : OpenArgs) (s : State) (path : Path) : Except Err ℕ × State :=
  match s.resolveWalk a.resolve path false with
  | (.ok (v, _), s) => (.ok v, s)
  | (.error rc, s) =>
    if !a.creat then (.error rc, s)
    else match s.resolveWalk a.parent path true with
      | (.error rc, s) => (.error rc, s)
      | (.ok (dir, _), s) =>
        match a.created with
        | .error rc => (.error rc, s.vnodePut dir)
        | .ok newId =>
          let r := s.vnodeGet a.get ((s.vnodes dir).mount.getD 0) newId
          let s := r.2.vnodePut dir
          match r.1 with
          | none => (.error .enfile, s)
          | some v => (.ok v, s)

/-- The end of `sys_open`: the operations are bound, and the descriptor is given back if the device's hook
fails. `fd_close` then runs the close hook of whatever operations the descriptor has got. -/
def openBind (a : OpenArgs) (s : State) (v : ℕ) : State :=
  match (s.vnodes v).typ with
  | .device fops =>
    if a.hook fops then { s with files := ⟨v, false⟩ :: s.files }
    else
      let s := s.vnodePut v
      if fops then s else s.vnodePut v
  | _ => { s with files := ⟨v, true⟩ :: s.files }

/-- `sys_open`. -/
def sysOpen (a : OpenArgs) (s : State) (path : Path) : State :=
  match s.openVnode a path with
  | (.error _, s) => s
  | (.ok v, s) =>
    if (s.vnodes v).typ = .dir ∧ a.write then s.vnodePut v else s.openBind a v

/-- `sys_close`: `file_close` runs the close hook. -/
def sysClose (s : State) (i : ℕ) : State :=
  match s.files[i]? with
  | none => s
  | some f =>
    let s := { s with files := s.files.eraseIdx i }
    if f.puts then s.vnodePut f.vn else s

end State

/-- The calls. A caller gets a reference from a resolution and drops it with `put`, by its index among those
held. -/
inductive Event
  | resolve (w : View) (path : Path) (stopShort : Bool)
  | put (i : ℕ)
  | open (a : State.OpenArgs) (path : Path)
  | close (i : ℕ)
  | mount (w : View) (target : Path) (known : Bool) (driver : Except Err Unit)
  | umount (target : Path)

def step (s : State) : Event → State
  | .resolve w path stopShort => match s.resolveWalk w path stopShort with
    | (.ok (v, _), s) => { s with held := v :: s.held }
    | (.error _, s) => s
  | .put i => match s.held[i]? with
    | none => s
    | some v => { s with held := s.held.eraseIdx i }.vnodePut v
  | .open a path => s.sysOpen a path
  | .close i => s.sysClose i
  | .mount w target known driver => (s.vfsMountFs w target known driver).2
  | .umount target => (s.vfsUmount target).2

/-- After `vfs_init`. `slabs` is 0 if there was no memory for the first slab. -/
def State.init (base slabs : ℕ) (vnodes : ℕ → Vnode) : State :=
  ⟨base, fun _ => none, fun _ => [], vnodes, fun _ => false, slabs, [], []⟩

end NeoOS.Vfs

import NeoOS.Lib.Run

/-!
# Reading a FAT directory (`kernel/fs/fatfs.c`)

`fat_dir_next` takes slots until a short entry and assembles the long name the slots before it hold. The
buffer for that name is on the stack and is not cleared, so what it holds at the start is a parameter.
-/

namespace NeoOS.Fat

/-- A 32-byte slot, its bytes by offset, and the place `slots_next` read it from. -/
structure Slot where
  raw : ℕ → UInt8
  lba : ℕ
  off : ℕ

namespace Slot

inductive Kind where
  | never | erased | long | volume | short
  deriving DecidableEq

/-- How `fat_dir_next` tells slots apart, by the first byte and by `attr`. -/
def kind (d : Slot) : Kind :=
  if d.raw 0 = 0x00 then .never
  else if d.raw 0 = 0xE5 then .erased
  else if d.raw 11 &&& 0x0F = 0x0F then .long
  else if d.raw 11 &&& 0x08 ≠ 0 then .volume
  else .short

def ord (d : Slot) : ℕ := (d.raw 0 &&& 0x1F).toNat
-- `LFN_LAST`
def marked (d : Slot) : Bool := d.raw 0 &&& 0x40 ≠ 0
def checksum (d : Slot) : UInt8 := d.raw 13

def lfnChecksum (d : Slot) : UInt8 :=
  (List.range 11).foldl (fun sum i => ((sum &&& 1) <<< 7) + (sum >>> 1) + d.raw i) 0

/-- Where the 13 code units of a long-name slot are: in `name1`, `name2` and `name3`. -/
def unitAt : List ℕ := [1, 3, 5, 7, 9, 14, 16, 18, 20, 22, 24, 28, 30]

def lfnSlotChars (d : Slot) : List UInt16 :=
  unitAt.map fun i => (d.raw i).toUInt16 ||| ((d.raw (i + 1)).toUInt16 <<< 8)

def lowered (lower : Bool) (c : UInt8) : UInt8 :=
  if lower ∧ 0x41 ≤ c ∧ c ≤ 0x5A then c - 0x41 + 0x61 else c

/-- `from_fat_name`, the 8.3 name, with the case bits of `nt_reserved`. -/
def fromFatName (d : Slot) : List UInt8 :=
  let part (i n : ℕ) (bit : UInt8) :=
    (((List.range' i n).map d.raw).takeWhile (· ≠ 0x20)).map (lowered (d.raw 12 &&& bit ≠ 0))
  part 0 8 0x08 ++ if d.raw 8 ≠ 0x20 then 0x2E :: part 8 3 0x10 else []

end Slot

/-- The locals of `fat_dir_next`. -/
structure Scan where
  haveLfn : Bool
  slotsSeen : ℕ
  highest : ℕ
  wantSum : UInt8
  runLba : ℕ
  runOff : ℕ
  chars : ℕ → UInt16

/-- What `fat_dir_next` returns: the short entry, its name, and the slots `unlink` is to erase. -/
structure Entry where
  name : List UInt8
  de : Slot
  runLba : ℕ
  runOff : ℕ
  runSlots : ℕ

/-- The name in the code units of a long name, up to `VFS_NAME_MAX - 1` of them. -/
def lfnName (l : List UInt16) : List UInt8 :=
  ((l.take 255).takeWhile fun c => c ≠ 0x0000 ∧ c ≠ 0xFFFF).map fun c => if c < 0x80 then c.toUInt8 else 0x5F

namespace Scan

def start (junk : ℕ → UInt16) : Scan := ⟨false, 0, 0, 0, 0, 0, junk⟩

def drop (s : Scan) : Scan := { s with haveLfn := false, slotsSeen := 0 }

/-- A marked slot starts a run. -/
def begin (s : Scan) (d : Slot) : Scan :=
  { s with haveLfn := true, highest := d.ord, wantSum := d.checksum, runLba := d.lba, runOff := d.off, slotsSeen := 0 }

/-- The code units go where the ordinal says. -/
def put (s : Scan) (d : Slot) : Scan :=
  { s with
    chars := fun i =>
      if (d.ord - 1) * 13 ≤ i then d.lfnSlotChars.getD (i - (d.ord - 1) * 13) (s.chars i) else s.chars i
    slotsSeen := s.slotsSeen + 1 }

/-- A slot that is no short entry. -/
def next (s : Scan) (d : Slot) : Scan :=
  if d.kind ≠ .long ∨ d.ord < 1 ∨ 20 < d.ord then s.drop
  else if s.haveLfn then if d.checksum ≠ s.wantSum then s.drop else s.put d
  else if d.marked then (s.begin d).put d
  else s

/-- The code units from slot `o` of the name on, `n` slots. -/
def read (s : Scan) (o n : ℕ) : List UInt16 := (List.range' (o * 13) (n * 13)).map s.chars

def entry (s : Scan) (d : Slot) : Entry :=
  if s.haveLfn ∧ s.slotsSeen = s.highest ∧ d.lfnChecksum = s.wantSum then
    ⟨lfnName (s.read 0 s.highest), d, s.runLba, s.runOff, s.highest + 1⟩
  else ⟨d.fromFatName, d, d.lba, d.off, 1⟩

end Scan

/-- `fat_dir_next`, with the slots it leaves for the next call. -/
def fatDirNext (s : Scan) : List Slot → Option (Entry × List Slot)
  | [] => none
  | d :: ds =>
    match d.kind with
    | .never => none
    | .short => some (s.entry d, ds)
    | _ => fatDirNext (s.next d) ds

/-- The loop of `fatfs_readdir_op`, with what `fat_dir_next` finds on the stack in each call. -/
def fatfsReaddirOp (junk : ℕ → ℕ → UInt16) (slots : List Slot) : ℕ → Option Entry
  | 0 => (fatDirNext (.start (junk 0)) slots).map Prod.fst
  | index + 1 => (fatDirNext (.start (junk (index + 1))) slots).bind fun r => fatfsReaddirOp junk r.2 index

end NeoOS.Fat

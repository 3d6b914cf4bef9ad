import NeoOS.Spec.Paging

/-!
# Loading an executable (`kernel/elf.c`)

The image is its bytes in the kernel's buffer; program headers are read wherever
the file header says they are. `elf_load` maps each page of each `PT_LOAD` segment
as it goes, and does not look at what `paging_map_into` returns.
-/

namespace NeoOS

/-- A little-endian `uint16_t`. -/
def read16 (mem : ℕ → UInt8) (a : ℕ) : ℕ := (mem a).toNat + 256 * (mem (a + 1)).toNat

/-- `struct elf64_phdr`, the fields `elf_load` maps by. -/
structure Phdr where
  type : ℕ
  flags : ℕ
  offset : ℕ
  vaddr : ℕ
  filesz : ℕ
  memsz : ℕ
  deriving DecidableEq

/-- `is_valid_image`: the ELF or the NOX magic, 64-bit class. -/
def isValidImage (data : ℕ → UInt8) : Bool :=
  data 0 == 0x7F && data 4 == 2 &&
    ((data 1 == 0x45 && data 2 == 0x4C && data 3 == 0x46) ||
      (data 1 == 0x4E && data 2 == 0x4F && data 3 == 0x58))

/-- The program headers of an image. -/
def elfPhdrs (data : ℕ → UInt8) : List Phdr :=
  (List.range (read16 data 56)).map fun i =>
    let a := add64 (read64 data 32) (i * read16 data 54)
    { type := read32 data a, flags := read32 data (a + 4), offset := read64 data (a + 8),
      vaddr := read64 data (a + 16), filesz := read64 data (a + 32), memsz := read64 data (a + 40) }

namespace Phdr

def segStart (ph : Phdr) : ℕ := ph.vaddr / 4096 * 4096

def segEnd (ph : Phdr) : ℕ := add64 (add64 ph.vaddr ph.memsz) 4095 / 4096 * 4096

/-- The leaf flags for a segment's `p_flags`. -/
def flagsPte (flags : ℕ) : Pte :=
  { Pte.zero with user := true, writable := flags.testBit 1, nx := !flags.testBit 0 }

def pte (ph : Phdr) : Pte := flagsPte ph.flags

/-- The bytes of the segment's page at `page`: the file's, then zeros. -/
def pageBytes (ph : Phdr) (data : ℕ → UInt8) (page off : ℕ) : UInt8 :=
  let copyStart := max ph.vaddr page
  let copyEnd := min (add64 ph.vaddr ph.filesz) (add64 page 4096)
  if copyStart ≤ page + off ∧ page + off < copyEnd then
    data (add64 ph.offset (page + off - ph.vaddr))
  else 0

end Phdr

/-- Maps a fresh frame with the given bytes: one page of a segment or of a user
stack. `false` when there is no frame; a mapping that fails is not noticed. -/
def loadPage (vm : Vm) (va : ℕ) (bytes : ℕ → UInt8) (flags : Pte) : Bool × Vm :=
  match vm.k.alloc 0 with
  | (none, k) => (false, { vm with k := k })
  | (some f, k) =>
    (true, ({ vm with k := { k with mem := Function.update k.mem f bytes } }.mapInto va f flags).2)

/-- The page loop of `elf_load`: `false` when there is no frame for a page. -/
def elfPages (ph : Phdr) (data : ℕ → UInt8) : List ℕ → Vm → Bool × Vm
  | [], vm => (true, vm)
  | page :: rest, vm =>
    let r := loadPage vm page (ph.pageBytes data page) ph.pte
    if r.1 then elfPages ph data rest r.2 else r

/-- The header loop of `elf_load`. -/
def elfSegments (data : ℕ → UInt8) : List Phdr → Vm → Bool × Vm
  | [], vm => (true, vm)
  | ph :: rest, vm =>
    if ph.type ≠ 1 then elfSegments data rest vm
    else if ph.flags.testBit 1 && ph.flags.testBit 0 then (false, vm)
    else
      let r := elfPages ph data (Vm.pages ph.segStart ph.segEnd) vm
      if r.1 then elfSegments data rest r.2 else r

/-- `elf_load`. -/
def elfLoad (data : ℕ → UInt8) (size : ℕ) (vm : Vm) : Bool × Vm :=
  if size < 64 then (false, vm)
  else if !isValidImage data then (false, vm)
  else elfSegments data (elfPhdrs data) vm

end NeoOS

import NeoOS.Spec.Paging

/-!
# Copying an argument vector (`kernel/syscall/sys_proc.c`)

`copy_user_vector` goes over the caller's vector three times: it counts the pointers, measures the
strings and copies them. Another thread of the process may change all of that memory in between, so each
pass has a view of its own. The blob is filled from its start without gaps: it is the list of the bytes
written so far, and the write pointer is its length.
-/

namespace NeoOS.ArgVector

/-- The memory of the process as one pass finds it. `byte` is what a read by the kernel gives, `none` for
a page fault; `readable` is `user_range_readable` for one byte. -/
structure View where
  byte : ℕ → Option UInt8
  readable : ℕ → Bool
  mapped : ∀ a, readable a = true → (byte a).isSome = true
  user : ∀ a, readable a = true → a < userAddrLimit

/-- `user_range_readable` for the eight bytes of a pointer. -/
def View.slotReadable (v : View) (a : ℕ) : Bool := (List.range 8).all fun i => v.readable (a + i)

/-- The pointer at an address. -/
def View.word (v : View) (a : ℕ) : Option ℕ := do
  let bytes ← (List.range 8).mapM fun i => v.byte (a + i)
  return bytes.foldr (fun b acc => b.toNat + 256 * acc) 0

/-- The address of `uargv[i]`. -/
def slotOf (uargv i : ℕ) : ℕ := add64 uargv (8 * i)

inductive Errno
  | efault
  | e2big
  | enomem
  deriving DecidableEq

/-- How a pass ends: with a result, with an error, or with a page fault of the kernel, which stops the
machine. -/
inductive Outcome (α : Type) : Type
  | done (a : α)
  | fail (e : Errno)
  | halt
  deriving DecidableEq

/-- `SPAWN_MAX_ARGS`. -/
def spawnMaxArgs : ℕ := 1024

/-- `SPAWN_ARG_MAX`. -/
def spawnArgMax : ℕ := 4096

/-- `SPAWN_ARG_TOTAL`. -/
def spawnArgTotal : ℕ := 256 * 1024

/-! ## The passes -/

/-- The counting loop from `uargv[i]` on, with room for `n` more pointers. -/
def countLoop (v : View) (uargv : ℕ) : ℕ → ℕ → Outcome ℕ
  | 0, _ => .fail .e2big
  | n + 1, i =>
    if !v.slotReadable (slotOf uargv i) then .fail .efault
    else match v.word (slotOf uargv i) with
      | none => .halt
      | some p => if p = 0 then .done i else countLoop v uargv n (i + 1)

/-- The length of the string at `a`, if it is less than `n`. -/
def measureString (v : View) : ℕ → ℕ → Outcome ℕ
  | 0, _ => .fail .e2big
  | n + 1, a =>
    if !v.readable a then .fail .efault
    else match v.byte a with
      | none => .halt
      | some b =>
        if b = 0 then .done 0
        else match measureString v n (add64 a 1) with
          | .done len => .done (len + 1)
          | r => r

/-- The measuring loop over the pointers with the given indices. -/
def measureLoop (v : View) (uargv : ℕ) : List ℕ → ℕ → Outcome ℕ
  | [], total => .done total
  | i :: is, total =>
    match v.word (slotOf uargv i) with
    | none => .halt
    | some p => match measureString v spawnArgMax p with
      | .done len =>
        if spawnArgTotal < total + (len + 1) then .fail .e2big
        else measureLoop v uargv is (total + (len + 1))
      | r => r

/-- The byte loop of the copy, with `left` bytes of the blob left: `false` for a page fault. -/
def copyBytes (v : View) : ℕ → ℕ → List UInt8 → Bool × List UInt8
  | 0, _, out => (true, out)
  | 1, _, out => (true, out)
  | left + 2, a, out =>
    match v.byte a with
    | none => (false, out)
    | some b => if b = 0 then (true, out) else copyBytes v (left + 1) (add64 a 1) (out ++ [b])

/-- What the copy has written: the vector of pointers, as offsets, and the bytes of the blob. -/
structure Copied where
  vec : List ℕ
  out : List UInt8

/-- The copying loop: `false` for a page fault. -/
def copyLoop (v : View) (uargv total : ℕ) : List ℕ → Copied → Bool × Copied
  | [], c => (true, c)
  | i :: is, c =>
    match v.word (slotOf uargv i) with
    | none => (false, c)
    | some p =>
      let vec := c.vec ++ [c.out.length]
      let r := copyBytes v (sub64 total c.out.length) p c.out
      if r.1 then copyLoop v uargv total is ⟨vec, r.2 ++ [0]⟩ else (false, ⟨vec, r.2⟩)

/-- What a call leaves: its outcome, the sizes of the two blocks it allocated, and what it wrote to
them. -/
structure Result where
  outcome : Outcome Unit
  argc : ℕ
  total : ℕ
  copied : Copied

def Result.none (o : Outcome Unit) : Result := ⟨o, 0, 0, ⟨[], []⟩⟩

/-- `copy_user_vector`; `memBlob` and `memVec` say whether there is memory for the two blocks. -/
def copyUserVector (counting measuring copying : View) (uargv : ℕ) (memBlob memVec : Bool) : Result :=
  if uargv = 0 then .none (.done ())
  else match countLoop counting uargv (spawnMaxArgs + 1) 0 with
    | .fail e => .none (.fail e)
    | .halt => .none .halt
    | .done argc =>
      if argc = 0 then .none (.done ())
      else match measureLoop measuring uargv (List.range argc) 0 with
        | .fail e => .none (.fail e)
        | .halt => .none .halt
        | .done total =>
          if !(memBlob && memVec) then .none (.fail .enomem)
          else
            let r := copyLoop copying uargv total (List.range argc) ⟨[], []⟩
            ⟨if r.1 then .done () else .halt, argc, total, r.2⟩

end NeoOS.ArgVector

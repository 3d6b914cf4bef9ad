import Mathlib.Tactic.Common

/-!
# Machine words

Unsigned arithmetic of the kernel's fixed-width integers, as functions on `ℕ`
that reduce modulo the width.
-/

/-- `2 ^ 64`. -/
def u64 : ℕ := 18446744073709551616

/-- `2 ^ 32`. -/
def u32 : ℕ := 4294967296

/-- `2 ^ 16`. -/
def u16 : ℕ := 65536

/-- `a + b` on `uint64_t`. -/
def add64 (a b : ℕ) : ℕ := (a + b) % u64

/-- `a - b` on `uint64_t`. -/
def sub64 (a b : ℕ) : ℕ := (a + (u64 - b % u64)) % u64

/-- `a - b` on `uint32_t`. -/
def sub32 (a b : ℕ) : ℕ := (a + (u32 - b % u32)) % u32

/-- `a + 1` on `uint16_t`. -/
def inc16 (a : ℕ) : ℕ := (a + 1) % u16

/-- `a - 1` on `uint16_t`. -/
def dec16 (a : ℕ) : ℕ := (a + (u16 - 1)) % u16

theorem add64_of_lt (h : a + b < u64) : add64 a b = a + b := Nat.mod_eq_of_lt h

variable {a b : ℕ}

theorem add64_lt (a b : ℕ) : add64 a b < u64 := Nat.mod_lt _ (by decide)

theorem sub64_of_le (hb : b ≤ a) (ha : a < u64) : sub64 a b = a - b := by
  unfold sub64 u64 at *; omega

theorem inc16_of_lt (h : a < 65535) : inc16 a = a + 1 := by
  unfold inc16 u16; omega

theorem dec16_of_pos (h0 : 0 < a) (h : a ≤ 65535) : dec16 a = a - 1 := by
  unfold dec16 u16; omega

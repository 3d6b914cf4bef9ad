import Mathlib.Data.List.Basic

/-!
# Bytes and words

A memory of bytes with little-endian words of eight bytes, and the arithmetic of masks that align an
address.
-/

namespace Bytes

abbrev Word := BitVec 64

abbrev Mem := ℕ → BitVec 8

/-- The word at an address, little-endian. -/
def word (m : Mem) (a : ℕ) : Word :=
  m (a + 7) ++ m (a + 6) ++ m (a + 5) ++ m (a + 4) ++ m (a + 3) ++ m (a + 2) ++ m (a + 1) ++ m a

/-- Byte `i` of a word. -/
def byteOf (w : Word) (i : ℕ) : BitVec 8 := w.extractLsb' (8 * i) 8

/-- `n` bytes are written at `base`. -/
def store (m : Mem) (base n : ℕ) (bytes : ℕ → BitVec 8) : Mem := fun a =>
  if base ≤ a ∧ a < base + n then bytes (a - base) else m a

/-- `n` words are written at `base`. -/
def storeWords (m : Mem) (base n : ℕ) (words : ℕ → Word) : Mem :=
  store m base (8 * n) fun i => byteOf (words (i / 8)) (i % 8)

variable {m m' : Mem} {a base n k : ℕ}

/-! ## Words -/

theorem word_of_bytes {w : Word} (h : ∀ i, i < 8 → m (a + i) = byteOf w i) : word m a = w := by
  have h0 : m a = byteOf w 0 := h 0 (by decide)
  unfold word
  rw [h0, h 1 (by decide), h 2 (by decide), h 3 (by decide), h 4 (by decide), h 5 (by decide), h 6 (by decide),
    h 7 (by decide)]
  unfold byteOf
  apply BitVec.eq_of_getLsbD_eq
  intro i hi
  grind

theorem word_congr (h : ∀ i, i < 8 → m' (a + i) = m (a + i)) : word m' a = word m a := by
  have h0 : m' a = m a := h 0 (by decide)
  unfold word
  rw [h0, h 1 (by decide), h 2 (by decide), h 3 (by decide), h 4 (by decide), h 5 (by decide), h 6 (by decide),
    h 7 (by decide)]

theorem store_of_not_mem {bytes : ℕ → BitVec 8} (h : a < base ∨ base + n ≤ a) : store m base n bytes a = m a := by
  unfold store
  rw [if_neg (by omega)]

theorem word_storeWords {words : ℕ → Word} (h : k < n) : word (storeWords m base n words) (base + 8 * k) = words k := by
  apply word_of_bytes
  intro i hi
  have hk : (base + 8 * k + i - base) / 8 = k := by omega
  have hb : (base + 8 * k + i - base) % 8 = i := by omega
  unfold storeWords store
  rw [if_pos (by omega)]
  simp only [hk, hb]

/-! ## Masks -/

theorem and_toNat_le (x mask : Word) : (x &&& mask).toNat ≤ x.toNat := by
  rw [BitVec.toNat_and]
  exact Nat.and_le_left

theorem and_not_add (x mask : Word) : (x &&& ~~~mask) + (x &&& mask) = x := by
  rw [BitVec.add_eq_or_of_and_eq_zero]
  · apply BitVec.eq_of_getLsbD_eq
    intro i hi
    simp [BitVec.getLsbD_or, BitVec.getLsbD_and]
    grind
  · apply BitVec.eq_of_getLsbD_eq
    intro i hi
    simp [BitVec.getLsbD_and]
    grind

theorem toNat_le_and_not (x mask : Word) : x.toNat ≤ (x &&& ~~~mask).toNat + mask.toNat := by
  have hsum := congrArg BitVec.toNat (and_not_add x mask)
  have hlow : (x &&& mask).toNat ≤ mask.toNat := by
    rw [BitVec.toNat_and]
    exact Nat.and_le_right
  rw [BitVec.toNat_add] at hsum
  omega

theorem and_not_and (x mask : Word) : x &&& ~~~mask &&& mask = 0 := by
  apply BitVec.eq_of_getLsbD_eq
  intro i hi
  simp [BitVec.getLsbD_and]

end Bytes

import Mathlib.Tactic.Common

/-!
# The internet checksum

Lists of bytes summed as big-endian words of 16 bits in ones' complement, and the little-endian words a
machine stores in such a list. `foldCarries_eq_ones` is the rule a receiver's check goes by.
-/

namespace Inet

open List

/-- The sum of the big-endian words; an odd last byte is a high half. -/
def wordSum : List UInt8 → ℕ
  | [] => 0
  | [a] => a.toNat * 256
  | a :: b :: l => a.toNat * 256 + b.toNat + wordSum l

/-- The carries are added back in until the sum has 16 bits. -/
def foldCarries (sum : ℕ) : ℕ :=
  if sum / 65536 = 0 then sum else foldCarries (sum % 65536 + sum / 65536)
termination_by sum
decreasing_by omega

/-- A word of 16 bits as the machine stores it. -/
def le16 (v : UInt16) : List UInt8 := [UInt8.ofNat v.toNat, UInt8.ofNat (v.toNat / 256)]

/-- A word of 32 bits as the machine stores it. -/
def le32 (v : UInt32) : List UInt8 :=
  [UInt8.ofNat v.toNat, UInt8.ofNat (v.toNat / 256), UInt8.ofNat (v.toNat / 65536), UInt8.ofNat (v.toNat / 16777216)]

def get8 (p : List UInt8) (i : ℕ) : UInt8 := p.getD i 0

def get16 (p : List UInt8) (i : ℕ) : UInt16 := UInt16.ofNat ((get8 p i).toNat + 256 * (get8 p (i + 1)).toNat)

def get32 (p : List UInt8) (i : ℕ) : UInt32 :=
  UInt32.ofNat ((get8 p i).toNat + 256 * (get8 p (i + 1)).toNat + 65536 * (get8 p (i + 2)).toNat +
    16777216 * (get8 p (i + 3)).toNat)

/-! ## Stored words -/

theorem toNat_ofNat8 (n : ℕ) : (UInt8.ofNat n).toNat = n % 256 := UInt8.toNat_ofNat'

theorem ofNat_bytes16 (v : UInt16) :
    UInt16.ofNat ((UInt8.ofNat v.toNat).toNat + 256 * (UInt8.ofNat (v.toNat / 256)).toNat) = v := by
  apply UInt16.toNat.inj
  have hv := v.toNat_lt
  rw [UInt16.toNat_ofNat', toNat_ofNat8, toNat_ofNat8]
  omega

theorem ofNat_bytes32 (v : UInt32) : UInt32.ofNat ((UInt8.ofNat v.toNat).toNat + 256 * (UInt8.ofNat (v.toNat / 256)).toNat +
      65536 * (UInt8.ofNat (v.toNat / 65536)).toNat + 16777216 * (UInt8.ofNat (v.toNat / 16777216)).toNat) = v := by
  apply UInt32.toNat.inj
  have hv := v.toNat_lt
  rw [UInt32.toNat_ofNat', toNat_ofNat8, toNat_ofNat8, toNat_ofNat8, toNat_ofNat8]
  omega

/-! ## Sums -/

theorem wordSum_append_of_even {l : List UInt8} (hl : l.length % 2 = 0) (m : List UInt8) :
    wordSum (l ++ m) = wordSum l + wordSum m := by
  induction l using wordSum.induct with
  | case1 => simp [wordSum]
  | case2 a => simp at hl
  | case3 a b l ih =>
    simp only [cons_append, wordSum]
    rw [ih (by simp only [length_cons] at hl; omega)]
    omega

theorem wordSum_le (l : List UInt8) : wordSum l ≤ 65535 * ((l.length + 1) / 2) := by
  induction l using wordSum.induct with
  | case1 => simp [wordSum]
  | case2 a =>
    have ha := a.toNat_lt
    simp only [wordSum, length_cons, length_nil]
    omega
  | case3 a b l ih =>
    have ha := a.toNat_lt
    have hb := b.toNat_lt
    simp only [wordSum, length_cons]
    omega

theorem foldCarries_lt (sum : ℕ) : foldCarries sum < 65536 := by
  induction sum using foldCarries.induct with
  | case1 sum h =>
    rw [foldCarries, if_pos h]
    omega
  | case2 sum h ih =>
    rw [foldCarries, if_neg h]
    exact ih

/-- `65536` and `1` are the same modulo `65535`, so a carry may come back at the other end. -/
theorem foldCarries_mod (sum : ℕ) : foldCarries sum % 65535 = sum % 65535 := by
  induction sum using foldCarries.induct with
  | case1 sum h => rw [foldCarries, if_pos h]
  | case2 sum h ih =>
    rw [foldCarries, if_neg h, ih]
    omega

theorem foldCarries_pos {sum : ℕ} (hpos : 0 < sum) : 0 < foldCarries sum := by
  induction sum using foldCarries.induct with
  | case1 sum h =>
    rw [foldCarries, if_pos h]
    exact hpos
  | case2 sum h ih =>
    rw [foldCarries, if_neg h]
    exact ih (by omega)

/-- **The receiver's check.** A positive sum folds to all ones exactly if `65535` divides it. -/
theorem foldCarries_eq_ones {sum : ℕ} (hpos : 0 < sum) : foldCarries sum = 65535 ↔ sum % 65535 = 0 := by
  have hlt := foldCarries_lt sum
  have hmod := foldCarries_mod sum
  have hfold := foldCarries_pos hpos
  omega

theorem add_complement_mod (sum : ℕ) : (sum + (65535 - foldCarries sum)) % 65535 = 0 := by
  have hlt := foldCarries_lt sum
  have hmod := foldCarries_mod sum
  omega

theorem add_complement_pos (sum : ℕ) : 0 < sum + (65535 - foldCarries sum) := by
  rcases Nat.eq_zero_or_pos sum with rfl | h
  · rw [foldCarries]
    decide
  · omega

end Inet

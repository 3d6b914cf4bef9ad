import Mathlib.Data.List.Infix

/-!
# Serial numbers

Numbers of 32 bits that wrap, compared by the sign of their difference. A serial number
stands for a position: `Stands a A` says that `a` is position `A` modulo the size. For
positions less than half the size apart the comparisons are those of the positions, and
proofs about streams use positions throughout. `Slice` is a piece of a numbered stream.
-/

namespace Serial

open List

variable {a b n A B : ℕ}

/-- `2 ^ 32`. -/
def size : ℕ := 4294967296

/-- Half the size: differences from here on are negative. -/
def half : ℕ := 2147483648

def add (a b : ℕ) : ℕ := (a + b) % size

def sub (a b : ℕ) : ℕ := (a + (size - b % size)) % size

/-- The signed difference is negative. -/
def lt (a b : ℕ) : Bool := half ≤ sub a b

def le (a b : ℕ) : Bool := half ≤ sub a b || sub a b == 0

def gt (a b : ℕ) : Bool := sub a b < half && sub a b != 0

def ge (a b : ℕ) : Bool := sub a b < half

/-- `a` stands for position `A`. -/
def Stands (a A : ℕ) : Prop := a = A % size

instance : Decidable (Stands a A) := inferInstanceAs (Decidable (a = A % size))

theorem Stands.add (h : Stands a A) (n : ℕ) : Stands (Serial.add a n) (A + n) := by
  unfold Stands Serial.add at *
  rw [h, Nat.mod_add_mod]

section

variable (ha : Stands a A)
include ha

section

variable (hb : Stands b B)
include hb

theorem Stands.sub (h1 : B ≤ A) (h2 : A < B + size) : Serial.sub a b = A - B := by
  unfold Stands Serial.sub size at *
  omega

section

variable (h1 : A < B + half) (h2 : B < A + half)
include h1 h2

theorem Stands.eq_iff : a = b ↔ A = B := by
  unfold Stands size half at *
  omega

theorem Stands.lt_iff : lt a b ↔ A < B := by
  simp only [lt, decide_eq_true_eq]
  unfold Stands Serial.sub size half at *
  omega

theorem Stands.le_iff : le a b ↔ A ≤ B := by
  simp only [le, Bool.or_eq_true, decide_eq_true_eq, beq_iff_eq]
  unfold Stands Serial.sub size half at *
  omega

theorem Stands.gt_iff : gt a b ↔ B < A := by
  simp only [gt, Bool.and_eq_true, decide_eq_true_eq, bne_iff_ne, ne_eq]
  unfold Stands Serial.sub size half at *
  omega

theorem Stands.ge_iff : ge a b ↔ B ≤ A := by
  simp only [ge, decide_eq_true_eq]
  unfold Stands Serial.sub size half at *
  omega

end

end

end

/-- A number stands where its distance from another one says. -/
theorem Stands.of_sub (hb : Stands b B) (ha : a < size) : Stands a (B + Serial.sub a b) := by
  unfold Stands Serial.sub size at *
  omega

/-! ## Pieces of a stream -/

variable {α : Type*} {S data : List α} {start pos seq : ℕ}

/-- `data`, numbered from `seq` on, are the elements of the stream from `pos` on, if element 0
has the number `start`. -/
structure Slice (S : List α) (start pos seq : ℕ) (data : List α) : Prop where
  num : Stands seq (start + pos)
  within : pos + data.length ≤ S.length
  bytes : data <+: S.drop pos

section

variable (h : Slice S start pos seq data)
include h

theorem Slice.stop : Stands (add seq data.length) (start + (pos + data.length)) := by
  rw [← Nat.add_assoc]
  exact h.num.add _

theorem Slice.drop (k : ℕ) : data.drop k <+: S.drop (pos + k) := by
  rw [← drop_drop]
  exact List.IsPrefix.drop h.bytes k

theorem Slice.take (k : ℕ) : Slice S start pos seq (data.take k) := by
  refine ⟨h.num, ?_, (List.take_prefix k data).trans h.bytes⟩
  have := h.within
  rw [length_take]
  omega

theorem Slice.append (more : List α) : Slice (S ++ more) start pos seq data := by
  have hpos : pos ≤ S.length := (Nat.le_add_right _ _).trans h.within
  refine ⟨h.num, ?_, ?_⟩
  · have := h.within
    rw [length_append]
    omega
  · rw [drop_append_of_le_length hpos]
    exact h.bytes.trans (prefix_append _ _)

end

theorem take_append_of_prefix (h : data <+: S.drop pos) : S.take pos ++ data = S.take (pos + data.length) := by
  rw [take_add, ← prefix_iff_eq_take.1 h]

end Serial

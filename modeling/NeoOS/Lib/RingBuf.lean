import Mathlib.Data.List.Basic
import Mathlib.Data.Nat.ModEq

/-!
# Ring buffers

A ring of capacity `n` is an array used modulo `n`, with the index of its first element
and the number of elements. `contents` is the queue it stands for: bytes are pushed at the
end and skipped at the front, and a copy out of the middle is a piece of the queue.
-/

/-- The array, the index of the first element and the number of elements. -/
structure RingBuf (α : Type*) where
  buf : ℕ → α
  head : ℕ
  len : ℕ

namespace RingBuf

open List

variable {α : Type*} {n off k : ℕ} {r : RingBuf α} {x : α} {data : List α}

/-- Element `i` of the queue. -/
def get (n : ℕ) (r : RingBuf α) (i : ℕ) : α := r.buf ((r.head + i) % n)

/-- The queue. -/
def contents (n : ℕ) (r : RingBuf α) : List α := (List.range r.len).map (r.get n)

def pushOne (n : ℕ) (r : RingBuf α) (x : α) : RingBuf α :=
  { r with buf := Function.update r.buf ((r.head + r.len) % n) x, len := r.len + 1 }

/-- Elements are written behind the last one, in order. -/
def push (n : ℕ) (r : RingBuf α) (data : List α) : RingBuf α := data.foldl (pushOne n) r

/-- The first `k` elements are given up. -/
def skip (n : ℕ) (r : RingBuf α) (k : ℕ) : RingBuf α := { r with head := (r.head + k) % n, len := r.len - k }

/-- A copy of `k` elements from `off` on. -/
def peek (n : ℕ) (r : RingBuf α) (off k : ℕ) : List α := (List.range k).map fun i => r.get n (off + i)

@[simp] theorem length_contents : (r.contents n).length = r.len := by simp [contents]

@[simp] theorem length_peek : (r.peek n off k).length = k := by simp [peek]

@[simp] theorem len_skip : (r.skip n k).len = r.len - k := rfl

theorem len_push (data : List α) : ∀ r : RingBuf α, (r.push n data).len = r.len + data.length := by
  induction data with
  | nil => intro r; rfl
  | cons x data ih =>
    intro r
    simp only [push, foldl_cons, length_cons] at ih ⊢
    rw [ih]
    simp only [pushOne]
    omega

/-- Different elements of a queue that fits have different cells. -/
theorem index_ne {h i j : ℕ} (hij : i < j) (hj : j < n) : (h + i) % n ≠ (h + j) % n := by
  intro he
  have hi : i < n := hij.trans hj
  have := Nat.ModEq.add_left_cancel' h he
  rw [Nat.ModEq, Nat.mod_eq_of_lt hi, Nat.mod_eq_of_lt hj] at this
  omega

theorem contents_pushOne (hr : r.len < n) : (r.pushOne n x).contents n = r.contents n ++ [x] := by
  unfold contents
  have hlen : (r.pushOne n x).len = r.len + 1 := rfl
  rw [hlen, range_succ, map_append]
  congr 1
  · apply map_congr_left
    intro i hi
    exact Function.update_of_ne (index_ne (mem_range.1 hi) hr) _ _
  · simp [get, pushOne]

/-- **Pushing appends**, as long as there is room. -/
theorem contents_push : ∀ {r : RingBuf α}, r.len + data.length ≤ n → (r.push n data).contents n = r.contents n ++ data := by
  induction data with
  | nil => intro r _; simp [push]
  | cons x data ih =>
    intro r hr
    rw [length_cons] at hr
    have hstep : ((r.pushOne n x).push n data).contents n = (r.pushOne n x).contents n ++ data :=
      ih (by simp only [pushOne]; omega)
    rw [contents_pushOne (by omega)] at hstep
    simpa [push] using hstep

/-- **Skipping drops** from the front. -/
theorem contents_skip (k : ℕ) : (r.skip n k).contents n = (r.contents n).drop k := by
  apply ext_getElem
  · simp
  · intro i h1 h2
    simp only [contents, getElem_map, getElem_range, getElem_drop, get, skip]
    rw [Nat.mod_add_mod, add_assoc]

/-- **A copy** is a piece of the queue. -/
theorem peek_eq (h : off + k ≤ r.len) : r.peek n off k = ((r.contents n).drop off).take k := by
  apply ext_getElem
  · simp; omega
  · intro i h1 h2
    simp [peek, contents]

end RingBuf

import Mathlib.Data.Nat.Bitwise
import Mathlib.Algebra.Order.BigOperators.Group.Finset
import Mathlib.Order.Interval.Finset.Nat
import Mathlib.Tactic.Ring

/-!
# Buddy block families

A block of order `o` at `b` is the interval `[b, b + 2 ^ o)` with `b` a multiple
of `2 ^ o`. `L : ℕ → List ℕ` names, order by order, the blocks that are free.
`Family` says they are aligned, in range and pairwise disjoint; `Hand` that one
further block is disjoint from all of them, which is the situation inside both
loops of a buddy allocator: `Hand.split` halves the block in hand and
`Hand.merge` joins it with its free buddy.

* `buddy_eq`: the buddy as an exclusive or is the other half of the parent block.
* `Family.push`, `Family.take`: freeing the block in hand, taking a free one.
* `NoBuddies.push`: a block whose buddy is not free may be freed.
-/

namespace Buddy

open List Finset
open Function (update update_of_ne update_self)

variable {M N x y : ℕ} {L : ℕ → List ℕ} {b b' o o' h k f : ℕ}

/-- The two blocks have no unit in common. -/
def Disj (b o b' o' : ℕ) : Prop := b + 2 ^ o ≤ b' ∨ b' + 2 ^ o' ≤ b

/-- `f` lies in the block of order `o` at `b`. -/
def In (b o f : ℕ) : Prop := b ≤ f ∧ f < b + 2 ^ o

theorem Disj.symm (hd : Disj b o b' o') : Disj b' o' b o := Or.symm hd

theorem Disj.not_in (hd : Disj b o b' o') (hf : In b o f) : ¬ In b' o' f := by
  unfold Disj In at *; omega

theorem disj_of_not_in (hd : ∀ f, In b o f → ¬ In b' o' f) : Disj b o b' o' := by
  have h1 := hd b
  have h2 := hd b'
  have p1 : 0 < 2 ^ o := Nat.two_pow_pos o
  have p2 : 0 < 2 ^ o' := Nat.two_pow_pos o'
  unfold Disj In at *; omega

/-- The block next to `b` in its parent block. -/
def buddy (b o : ℕ) : ℕ := b ^^^ 2 ^ o

theorem buddy_buddy (b o : ℕ) : buddy (buddy b o) o = b := by
  simp [buddy]

/-- **The buddy of an aligned block is the other half of the parent block.** -/
theorem buddy_eq (ha : 2 ^ o ∣ b) : (2 ^ (o + 1) ∣ b ∧ buddy b o = b + 2 ^ o) ∨
      (2 ^ (o + 1) ∣ buddy b o ∧ b = buddy b o + 2 ^ o) := by
  obtain ⟨q, rfl⟩ := ha
  have hx : buddy (2 ^ o * q) o = 2 ^ o * (q ^^^ 1) := by
    have h1 := Nat.shiftLeft_xor_distrib (a := q) (b := 1) (i := o)
    simp only [Nat.shiftLeft_eq, one_mul] at h1
    rw [buddy, mul_comm, ← h1, mul_comm]
  rcases Nat.even_or_odd q with he | ho
  · left
    rw [hx, Nat.xor_one_of_even he]
    obtain ⟨m, rfl⟩ := he
    exact ⟨⟨m, by ring⟩, by ring⟩
  · right
    rw [hx, Nat.xor_one_of_odd ho]
    obtain ⟨m, rfl⟩ := ho
    have hm : 2 * m + 1 - 1 = 2 * m := by omega
    rw [hm]
    exact ⟨⟨m, by ring⟩, by ring⟩

/-- The blocks of `L` are aligned, in range and pairwise disjoint; the largest
order is `M` and the range is `[0, N)`. -/
structure Family (M N : ℕ) (L : ℕ → List ℕ) : Prop where
  nodup : ∀ o, (L o).Nodup
  top : ∀ o, M < o → L o = []
  aligned : ∀ o, ∀ b ∈ L o, 2 ^ o ∣ b
  inRange : ∀ o, ∀ b ∈ L o, b + 2 ^ o ≤ N
  disj : ∀ o o', ∀ b ∈ L o, ∀ b' ∈ L o', (o, b) ≠ (o', b') → Disj b o b' o'

/-- No two buddies below the largest order are both free. -/
def NoBuddies (M : ℕ) (L : ℕ → List ℕ) : Prop := ∀ o < M, ∀ b ∈ L o, buddy b o ∉ L o

/-- A block that is in range and disjoint from every free block. -/
structure Hand (M N : ℕ) (L : ℕ → List ℕ) (h k : ℕ) : Prop where
  le : k ≤ M
  aligned : 2 ^ k ∣ h
  inRange : h + 2 ^ k ≤ N
  disj : ∀ o, ∀ b ∈ L o, Disj h k b o

/-- `f` lies in some free block. -/
def Covers (L : ℕ → List ℕ) (f : ℕ) : Prop := ∃ o, ∃ b ∈ L o, In b o f

/-- The number of units in free blocks. -/
def size (M : ℕ) (L : ℕ → List ℕ) : ℕ := ∑ o ∈ Finset.range (M + 1), (L o).length * 2 ^ o

/-- `L` with the block `b` of order `o` added. -/
def push (L : ℕ → List ℕ) (o b : ℕ) : ℕ → List ℕ := update L o (b :: L o)

/-- `L` with the block `b` of order `o` taken out. -/
def take (L : ℕ → List ℕ) (o b : ℕ) : ℕ → List ℕ := update L o ((L o).erase b)

theorem mem_push : y ∈ push L o b x ↔ (x = o ∧ y = b) ∨ y ∈ L x := by
  unfold push
  by_cases hx : x = o
  · subst hx; simp
  · simp [hx]

theorem covers_push : Covers (push L k h) f ↔ In h k f ∨ Covers L f := by
  constructor
  · rintro ⟨o, b, hb, hf⟩
    rcases mem_push.1 hb with ⟨rfl, rfl⟩ | hb
    · exact .inl hf
    · exact .inr ⟨o, b, hb, hf⟩
  · rintro (hf | ⟨o, b, hb, hf⟩)
    · exact ⟨k, h, mem_push.2 (.inl ⟨rfl, rfl⟩), hf⟩
    · exact ⟨o, b, mem_push.2 (.inr hb), hf⟩

section

variable (hL : Family M N L)
include hL

theorem mem_take : y ∈ take L o b x ↔ y ∈ L x ∧ (x, y) ≠ (o, b) := by
  unfold take
  by_cases hx : x = o
  · subst hx; simp [(hL.nodup x).mem_erase_iff, and_comm]
  · simp [hx]

theorem Family.push (hh : Hand M N L h k) : Family M N (push L k h) where
  nodup o := by
    unfold Buddy.push
    by_cases ho : o = k
    · subst ho
      rw [update_self, nodup_cons]
      refine ⟨fun hm => ?_, hL.nodup o⟩
      have := hh.disj o h hm
      have p1 : 0 < 2 ^ o := Nat.two_pow_pos o
      unfold Disj at this; omega
    · rw [update_of_ne ho]; exact hL.nodup o
  top o ho := by
    have : o ≠ k := fun e => by have := hh.le; omega
    unfold Buddy.push; rw [update_of_ne this]; exact hL.top o ho
  aligned o b hb := by
    rcases mem_push.1 hb with ⟨rfl, rfl⟩ | hb
    · exact hh.aligned
    · exact hL.aligned o b hb
  inRange o b hb := by
    rcases mem_push.1 hb with ⟨rfl, rfl⟩ | hb
    · exact hh.inRange
    · exact hL.inRange o b hb
  disj o o' b hb b' hb' hne := by
    rcases mem_push.1 hb with ⟨rfl, rfl⟩ | h1 <;> rcases mem_push.1 hb' with ⟨rfl, rfl⟩ | h2
    · exact absurd rfl hne
    · exact hh.disj o' b' h2
    · exact (hh.disj o b h1).symm
    · exact hL.disj o o' b h1 b' h2 hne

theorem Family.take (o b : ℕ) : Family M N (take L o b) where
  nodup x := by
    unfold Buddy.take
    by_cases hx : x = o
    · subst hx; rw [update_self]; exact (hL.nodup x).erase b
    · rw [update_of_ne hx]; exact hL.nodup x
  top x hx := by
    unfold Buddy.take
    by_cases ho : x = o
    · subst ho; rw [update_self, hL.top x hx]; rfl
    · rw [update_of_ne ho]; exact hL.top x hx
  aligned x y hy := hL.aligned x y ((mem_take hL).1 hy).1
  inRange x y hy := hL.inRange x y ((mem_take hL).1 hy).1
  disj x x' y hy y' hy' hne := hL.disj x x' y ((mem_take hL).1 hy).1 y' ((mem_take hL).1 hy').1 hne

theorem Family.hand (hb : b ∈ L o) : Hand M N (Buddy.take L o b) b o where
  le := by
    by_contra hlt
    rw [hL.top o (by omega)] at hb
    simp at hb
  aligned := hL.aligned o b hb
  inRange := hL.inRange o b hb
  disj x y hy := hL.disj o x b hb y ((mem_take hL).1 hy).1 (Ne.symm ((mem_take hL).1 hy).2)

/-- **Merging.** The block in hand and its free buddy make their parent block. -/
theorem Hand.merge (hh : Hand M N L h k) (hk : k < M) (hb : buddy h k ∈ L k) :
    Hand M N (Buddy.take L k (buddy h k)) (min h (buddy h k)) (k + 1) := by
  have hr := hh.inRange
  have hrb := hL.inRange k _ hb
  have hmin : (min h (buddy h k) = h ∧ buddy h k = h + 2 ^ k ∧ 2 ^ (k + 1) ∣ h) ∨
      (min h (buddy h k) = buddy h k ∧ h = buddy h k + 2 ^ k ∧ 2 ^ (k + 1) ∣ buddy h k) := by
    rcases buddy_eq hh.aligned with ⟨h1, h2⟩ | ⟨h1, h2⟩
    · exact .inl ⟨by omega, h2, h1⟩
    · exact .inr ⟨by omega, h2, h1⟩
  have hd : ∀ o, ∀ b ∈ Buddy.take L k (buddy h k) o, Disj h k b o ∧ Disj (buddy h k) k b o := by
    intro o b hb'
    obtain ⟨hbo, hne⟩ := (mem_take hL).1 hb'
    exact ⟨hh.disj o b hbo, hL.disj k o _ hb b hbo (Ne.symm hne)⟩
  refine ⟨hk, ?_, ?_, fun o b hb' => ?_⟩
  · rcases hmin with ⟨he, -, h2⟩ | ⟨he, -, h2⟩ <;> rw [he] <;> exact h2
  · rcases hmin with ⟨he, h2, -⟩ | ⟨he, h2, -⟩ <;> rw [he] <;> omega
  · obtain ⟨h1, h2⟩ := hd o b hb'
    have po : 0 < 2 ^ o := Nat.two_pow_pos o
    unfold Disj at *
    rcases hmin with ⟨he, h3, -⟩ | ⟨he, h3, -⟩ <;> rw [he] <;> omega

theorem NoBuddies.take (hn : NoBuddies M L) (o b : ℕ) : NoBuddies M (Buddy.take L o b) := fun x hx y hy hby =>
  hn x hx y ((mem_take hL).1 hy).1 ((mem_take hL).1 hby).1

theorem covers_take (hb : b ∈ L o) : (In b o f ∨ Covers (take L o b) f) ↔ Covers L f := by
  constructor
  · rintro (hf | ⟨x, y, hy, hf⟩)
    · exact ⟨o, b, hb, hf⟩
    · exact ⟨x, y, ((mem_take hL).1 hy).1, hf⟩
  · rintro ⟨x, y, hy, hf⟩
    by_cases he : (x, y) = (o, b)
    · cases he; exact .inl hf
    · exact .inr ⟨x, y, (mem_take hL).2 ⟨hy, he⟩, hf⟩

end

/-- **Splitting.** The lower half stays in hand; the upper half can be freed. -/
theorem Hand.split (hh : Hand M N L h (k + 1)) : Hand M N L (h + 2 ^ k) k ∧ Hand M N (Buddy.push L k (h + 2 ^ k)) h k := by
  have ha : 2 ^ k ∣ h := (pow_dvd_pow 2 (Nat.le_succ k)).trans hh.aligned
  have hr := hh.inRange
  have hle := hh.le
  have hd : ∀ o, ∀ b ∈ L o, Disj (h + 2 ^ k) k b o ∧ Disj h k b o := by
    intro o b hb
    have := hh.disj o b hb
    unfold Disj at *; omega
  refine ⟨⟨by omega, Nat.dvd_add ha (dvd_refl _), by omega, fun o b hb => (hd o b hb).1⟩,
    ⟨by omega, ha, by omega, fun o b hb => ?_⟩⟩
  rcases mem_push.1 hb with ⟨rfl, rfl⟩ | hb
  · exact .inl le_rfl
  · exact (hd o b hb).2

/-- A block whose buddy is not free may be freed. -/
theorem NoBuddies.push (hn : NoBuddies M L) (hb : k < M → buddy h k ∉ L k) : NoBuddies M (Buddy.push L k h) := by
  intro o ho b hbo hbb
  have hself : buddy b o ≠ b := by
    intro e
    have h1 : (b ^^^ 2 ^ o) ^^^ b = 0 := by
      rw [show b ^^^ 2 ^ o = b from e, Nat.xor_self]
    rw [Nat.xor_comm b, Nat.xor_assoc, Nat.xor_self, Nat.xor_zero] at h1
    exact absurd h1 (Nat.two_pow_pos o).ne'
  rcases mem_push.1 hbo with ⟨rfl, rfl⟩ | hm <;> rcases mem_push.1 hbb with ⟨h1, h2⟩ | hm'
  · exact hself h2
  · exact hb ho hm'
  · subst h1 h2; rw [buddy_buddy] at hb; exact hb ho hm
  · exact hn o ho b hm hm'

/-- The block in hand is not covered by the free blocks. -/
theorem Hand.not_covers (hh : Hand M N L h k) (hf : In h k f) : ¬ Covers L f := by
  rintro ⟨o, b, hb, hfb⟩
  exact (hh.disj o b hb).not_in hf hfb

theorem In.split : In h (k + 1) f ↔ In h k f ∨ In (h + 2 ^ k) k f := by
  unfold In; omega

theorem In.merge (ha : 2 ^ k ∣ h) : In (min h (buddy h k)) (k + 1) f ↔ In h k f ∨ In (buddy h k) k f := by
  unfold In
  rcases buddy_eq ha with ⟨-, h2⟩ | ⟨-, h2⟩ <;> omega

theorem size_push (hk : k ≤ M) : size M (push L k h) = size M L + 2 ^ k := by
  have hm : k ∈ Finset.range (M + 1) := Finset.mem_range.2 (by omega)
  unfold size
  rw [← add_sum_erase _ _ hm, ← add_sum_erase (a := k) _ (fun o => (L o).length * 2 ^ o) hm]
  have he : ∑ o ∈ (Finset.range (M + 1)).erase k, (push L k h o).length * 2 ^ o =
      ∑ o ∈ (Finset.range (M + 1)).erase k, (L o).length * 2 ^ o := by
    refine sum_congr rfl fun o ho => ?_
    simp [push, (mem_erase.1 ho).1]
  rw [he]
  simp only [push, update_self, length_cons]
  ring

theorem push_take_perm (hb : b ∈ L o) (x : ℕ) : (push (take L o b) o b x).Perm (L x) := by
  unfold push take
  by_cases hx : x = o
  · subst hx
    simpa using (perm_cons_erase hb).symm
  · simp [hx]

theorem size_take (ho : o ≤ M) (hb : b ∈ L o) : size M (take L o b) + 2 ^ o = size M L := by
  rw [← size_push (L := take L o b) (h := b) ho]
  exact sum_congr rfl fun x _ => by rw [(push_take_perm hb x).length_eq]

open Classical in
/-- **The free units, counted.** Disjointness makes the sum of the block sizes the
number of units covered. -/
theorem Family.size_eq_card (hL : Family M N L) : size M L = ((Finset.range N).filter (Covers L)).card := by
  set S := (Finset.range (M + 1)).sigma fun o => (L o).toFinset with hS
  have hmem : ∀ p : (_ : ℕ) × ℕ, p ∈ S ↔ p.2 ∈ L p.1 := by
    intro p
    simp only [hS, Finset.mem_sigma, Finset.mem_range, mem_toFinset, and_iff_right_iff_imp]
    intro hp
    by_contra hlt
    rw [hL.top p.1 (by omega)] at hp
    simp at hp
  have hcov : (Finset.range N).filter (Covers L) = S.biUnion fun p => Finset.Ico p.2 (p.2 + 2 ^ p.1) := by
    ext f
    simp only [Finset.mem_filter, Finset.mem_range, Finset.mem_biUnion, Finset.mem_Ico]
    constructor
    · rintro ⟨-, o, b, hb, hf⟩
      exact ⟨⟨o, b⟩, (hmem ⟨o, b⟩).2 hb, hf⟩
    · rintro ⟨p, hp, hf⟩
      have hr := hL.inRange p.1 p.2 ((hmem p).1 hp)
      exact ⟨by omega, p.1, p.2, (hmem p).1 hp, hf⟩
  have hdisj : (S : Set ((_ : ℕ) × ℕ)).PairwiseDisjoint fun p => Finset.Ico p.2 (p.2 + 2 ^ p.1) := by
    intro p hp q hq hne
    refine Finset.disjoint_left.2 fun f hf hf' => ?_
    have hd := hL.disj p.1 q.1 p.2 ((hmem p).1 hp) q.2 ((hmem q).1 hq) (fun e => hne (by cases p; cases q; simp_all))
    exact hd.not_in (mem_Ico.1 hf) (mem_Ico.1 hf')
  rw [hcov, card_biUnion hdisj, hS, sum_sigma]
  refine sum_congr rfl fun o _ => ?_
  simp [toFinset_card_of_nodup (hL.nodup o)]

theorem Family.size_le (hL : Family M N L) : size M L ≤ N := by
  classical
  rw [hL.size_eq_card]
  simpa using card_filter_le (Finset.range N) (Covers L)

end Buddy

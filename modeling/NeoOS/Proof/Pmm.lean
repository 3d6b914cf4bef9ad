import NeoOS.Lib.Buddy
import NeoOS.Lib.DList
import NeoOS.Spec.Pmm

/-!
# The frame allocator keeps a buddy family

`Rep s L` reads the free lists of the allocator as a block family `L`;
`listPush` and `listRemove` refine the library's `push` and `take`. `PmmOK` is the
allocator's invariant, and each entry point has one specification in terms of
frames: which frames are free, what the reference counts are and what
`totalFree` says.

* `allocLocked_spec`, `freeLocked_spec`, `share_spec`: the three operations.
-/

namespace NeoOS

open Buddy
open Function (update update_of_ne update_self)

variable {s : Pmm} {L : ℕ → List ℕ} {b o h k f : ℕ}

/-- The free lists, the links and the order array of `s` describe `L`. -/
structure Rep (s : Pmm) (L : ℕ → List ℕ) : Prop where
  links : ∀ o ≤ maxOrder, DList.Seg 0 s.next s.prev 0 (s.freeLists o) (L o)
  order : ∀ o ≤ maxOrder, ∀ b, b ∈ L o ↔ s.frameOrder b = o

theorem Rep.ne_zero (hR : Rep s L) (ho : o ≤ maxOrder) (hb : b ∈ L o) : b ≠ 0 := (hR.links o ho).ne_null b hb

theorem Rep.order_unique (hR : Rep s L) {o' : ℕ} (ho : o ≤ maxOrder) (ho' : o' ≤ maxOrder)
    (hb : b ∈ L o) (hb' : b ∈ L o') : o = o' := by
  rw [← (hR.order o ho b).1 hb, ← (hR.order o' ho' b).1 hb']

theorem Rep.not_mem_of_hand (hh : Hand maxOrder maxFrames L h k) : h ∉ L o := by
  intro hm
  have hd := hh.disj o h hm
  have p1 : 0 < 2 ^ o := Nat.two_pow_pos o
  have p2 : 0 < 2 ^ k := Nat.two_pow_pos k
  unfold Buddy.Disj at hd; omega

/-- **`list_push` adds the block in hand.** -/
theorem Rep.listPush (hR : Rep s L) (hL : Family maxOrder maxFrames L) (hh : Hand maxOrder maxFrames L h k) (h0 : h ≠ 0) :
    Rep (s.listPush k h) (push L k h) where
  links o ho := by
    by_cases hok : o = k
    · subst hok
      have hs := (hR.links o ho).push (Rep.not_mem_of_hand hh) h0 (hL.nodup o)
      simp only [Pmm.listPush, push, update_self]
      exact hs
    · have hs := hR.links o ho
      have hne : ∀ x ∈ L o, x ≠ h := fun x hx e => Rep.not_mem_of_hand hh (e ▸ hx)
      have hnh : ∀ x ∈ L o, x ≠ s.freeLists k := by
        rintro x hx rfl
        have hk := (hR.links k hh.le).head_mem (hR.ne_zero ho hx)
        exact hok (hR.order_unique ho hh.le hx hk)
      simp only [Pmm.listPush, push, update_of_ne hok]
      exact hs.frame (fun x hx => DList.pushNext_of_ne (hne x hx)) (fun x hx => DList.pushPrev_of_ne (hne x hx) (hnh x hx))
  order o ho x := by
    rw [mem_push, hR.order o ho]
    simp only [Pmm.listPush]
    by_cases hx : x = h
    · subst hx
      have hno : s.frameOrder x ≠ o := fun e => Rep.not_mem_of_hand hh ((hR.order o ho x).2 e)
      rw [update_self]
      simp [hno, eq_comm]
    · rw [update_of_ne hx]; simp [hx]

/-- **`list_remove` takes a free block out of its list.** -/
theorem Rep.listRemove (hR : Rep s L) (hL : Family maxOrder maxFrames L) (hk : k ≤ maxOrder)
    (hb : b ∈ L k) : Rep (s.listRemove k b) (take L k b) where
  links o ho := by
    have hsk := hR.links k hk
    have h0 : (0 : ℕ) ∉ L k := fun h => hsk.ne_null 0 h rfl
    by_cases hok : o = k
    · subst hok
      have hs := hsk.remove hb (hL.nodup o) h0
      have hhead : (s.listRemove o b).freeLists o = if b = s.freeLists o then s.next b else s.freeLists o := by
        rcases hsk.prev_cases hb (hL.nodup o) with ⟨h1, h2⟩ | ⟨h1, h2⟩
        · simp [Pmm.listRemove, h2, ← h1]
        · simp [Pmm.listRemove, hsk.ne_null _ h2, h1]
      rw [hhead, take, update_self]
      exact hs
    · have hhead : (s.listRemove k b).freeLists o = s.freeLists o := by
        unfold Pmm.listRemove; split <;> simp [hok]
      have hother : ∀ x ∈ L o, x ∉ L k := fun x hx hx' => hok (hR.order_unique ho hk hx hx')
      rw [hhead]
      simp only [take, update_of_ne hok]
      refine (hR.links o ho).frame (fun x hx => DList.removeNext_of_ne ?_) (fun x hx => DList.removePrev_of_ne ?_)
      · rcases hsk.prev_cases hb (hL.nodup k) with ⟨-, h2⟩ | ⟨-, h2⟩
        · rw [h2]; exact hR.ne_zero ho hx
        · exact fun e => hother x hx (e ▸ h2)
      · rcases hsk.next_mem hb with h2 | h2
        · rw [h2]; exact hR.ne_zero ho hx
        · exact fun e => hother x hx (e ▸ List.mem_of_mem_tail h2)
  order o ho x := by
    rw [mem_take hL, hR.order o ho]
    simp only [Pmm.listRemove]
    by_cases hx : x = b
    · subst hx
      have hxk := (hR.order k hk x).1 hb
      rw [update_self, hxk]
      unfold maxOrder orderNone at *
      simp only [ne_eq, Prod.mk.injEq, and_true]
      omega
    · rw [update_of_ne hx]; simp [hx]

/-- The free lists describe a buddy family without free buddy pairs. -/
structure Lists (s : Pmm) (L : ℕ → List ℕ) : Prop where
  rep : Rep s L
  family : Family maxOrder maxFrames L
  noBuddies : NoBuddies maxOrder L

/-- The fields the list operations leave alone. -/
def SameCounts (s s' : Pmm) : Prop := s'.refcount = s.refcount ∧ s'.totalFree = s.totalFree

/-- What both loops of the allocator keep: the free blocks and the block in hand
cover the same frames, and make up the same number of them. -/
structure Moved (L : ℕ → List ℕ) (h k : ℕ) (L' : ℕ → List ℕ) (h' k' : ℕ) : Prop where
  covers : ∀ f, (In h' k' f ∨ Covers L' f) ↔ (In h k f ∨ Covers L f)
  size : size maxOrder L' + 2 ^ k' = size maxOrder L + 2 ^ k

theorem Moved.refl (L : ℕ → List ℕ) (h k : ℕ) : Moved L h k L h k := ⟨fun _ => Iff.rfl, rfl⟩

theorem Moved.trans {L L' L'' : ℕ → List ℕ} {h h' h'' k k' k'' : ℕ} (h1 : Moved L h k L' h' k')
    (h2 : Moved L' h' k' L'' h'' k'') : Moved L h k L'' h'' k'' :=
  ⟨fun f => (h2.covers f).trans (h1.covers f), h2.size.trans h1.size⟩

theorem split_step (hl : Lists s L) (hh : Hand maxOrder maxFrames L h (k + 1)) (h0 : h ≠ 0) :
    Lists (s.listPush k (h + 2 ^ k)) (push L k (h + 2 ^ k)) ∧ Hand maxOrder maxFrames (push L k (h + 2 ^ k)) h k ∧
      Moved L h (k + 1) (push L k (h + 2 ^ k)) h k := by
  obtain ⟨hup, hlow⟩ := hh.split
  have hbud : buddy (h + 2 ^ k) k = h := by
    have ha : 2 ^ k ∣ h := (pow_dvd_pow 2 (Nat.le_succ k)).trans hh.aligned
    rcases buddy_eq ha with ⟨-, h2⟩ | ⟨h1, h2⟩
    · rw [← h2, buddy_buddy]
    · -- `h` is a multiple of `2 ^ (k + 1)`, so it is not an upper half
      have h3 := (Nat.dvd_add_right h1).1 (h2 ▸ hh.aligned)
      exact absurd (Nat.le_of_dvd (Nat.two_pow_pos k) h3) (Nat.not_le.2 (Nat.pow_lt_pow_right (by decide)
        (Nat.lt_succ_self k)))
  refine ⟨⟨hl.rep.listPush hl.family hup (by simp [h0]), hl.family.push hup, hl.noBuddies.push ?_⟩, hlow, ⟨fun f => ?_, ?_⟩⟩
  · intro _; rw [hbud]; exact Rep.not_mem_of_hand hh
  · rw [covers_push, Buddy.In.split]; tauto
  · rw [size_push hup.le, pow_succ]; ring

/-- **The split loop** leaves the lowest block of order `k` in hand. -/
theorem splitDown_spec (n : ℕ) : ∀ {s L}, Lists s L → Hand maxOrder maxFrames L h (k + n) → h ≠ 0 →
    ∃ L', Lists (s.splitDown h k n) L' ∧ Hand maxOrder maxFrames L' h k ∧
      Moved L h (k + n) L' h k ∧ SameCounts s (s.splitDown h k n) := by
  induction n with
  | zero => intro s L hl hh _; exact ⟨L, hl, hh, .refl _ _ _, rfl, rfl⟩
  | succ n ih =>
    intro s L hl hh h0
    obtain ⟨hl1, hh1, hm1⟩ := split_step hl hh h0
    obtain ⟨L', hl', hh', hm', hc⟩ := ih hl1 hh1 h0
    exact ⟨L', hl', hh', hm1.trans hm', hc⟩

theorem merge_step (hl : Lists s L) (hh : Hand maxOrder maxFrames L h k) (hk : k < maxOrder) (hb : buddy h k ∈ L k) :
    Lists (s.listRemove k (buddy h k)) (take L k (buddy h k)) ∧
      Hand maxOrder maxFrames (take L k (buddy h k)) (min h (buddy h k)) (k + 1) ∧
      Moved L h k (take L k (buddy h k)) (min h (buddy h k)) (k + 1) := by
  refine ⟨⟨hl.rep.listRemove hl.family hk.le hb, hl.family.take _ _, hl.noBuddies.take hl.family _ _⟩,
    hh.merge hl.family hk hb, ⟨fun f => ?_, ?_⟩⟩
  · rw [Buddy.In.merge hh.aligned, or_assoc, covers_take hl.family hb]
  · rw [pow_succ, ← size_take hk.le hb]; ring

/-- **The merge loop** stops at a block whose buddy is not free, or at the largest
order. -/
theorem coalesce_spec (n : ℕ) : ∀ {s L h k}, Lists s L → Hand maxOrder maxFrames L h k → h ≠ 0 →
    n = maxOrder - k → ∃ L' h' k', (s.coalesce n h k).2 = (h', k') ∧ Lists (s.coalesce n h k).1 L' ∧
      Hand maxOrder maxFrames L' h' k' ∧ h' ≠ 0 ∧ (k' < maxOrder → buddy h' k' ∉ L' k') ∧
      Moved L h k L' h' k' ∧ SameCounts s (s.coalesce n h k).1 := by
  induction n with
  | zero =>
    intro s L h k hl hh h0 hn
    exact ⟨L, h, k, rfl, hl, hh, h0, fun hk => absurd hk (by omega), .refl _ _ _, rfl, rfl⟩
  | succ n ih =>
    intro s L h k hl hh h0 hn
    have hk : k < maxOrder := by omega
    unfold Pmm.coalesce
    by_cases hb : buddy h k ∈ L k
    · have hr := hl.family.inRange k _ hb
      have ho := (hl.rep.order k hk.le _).1 hb
      have hp := Nat.two_pow_pos k
      rw [buddy] at hr ho
      have hc : ¬ (h ^^^ 2 ^ k ≥ maxFrames ∨ s.frameOrder (h ^^^ 2 ^ k) ≠ k) := by
        rw [ho]; omega
      simp only [if_neg hc]
      obtain ⟨hl1, hh1, hm1⟩ := merge_step hl hh hk hb
      have hmin : (if h < h ^^^ 2 ^ k then h else h ^^^ 2 ^ k) = min h (buddy h k) := by
        unfold buddy; split <;> omega
      have hb0 := hl.rep.ne_zero hk.le hb
      rw [hmin]
      obtain ⟨L', h', k', he, hl', hh', h0', hn', hm', hc'⟩ := ih hl1 hh1 (by omega) (by omega)
      exact ⟨L', h', k', he, hl', hh', h0', hn', hm1.trans hm', hc'⟩
    · have hc : h ^^^ 2 ^ k ≥ maxFrames ∨ s.frameOrder (h ^^^ 2 ^ k) ≠ k := .inr fun e => hb ((hl.rep.order k hk.le _).2 e)
      simp only [if_pos hc]
      exact ⟨L, h, k, rfl, hl, hh, h0, fun _ => hb, .refl _ _ _, rfl, rfl⟩

/-! ## The entry points, frame by frame -/

/-- `f` lies inside a free block. -/
def FreeFrame (s : Pmm) (f : ℕ) : Prop := ∃ o ≤ maxOrder, ∃ b, s.frameOrder b = o ∧ In b o f

theorem Lists.covers_iff (hl : Lists s L) : Covers L f ↔ FreeFrame s f := by
  constructor
  · rintro ⟨o, b, hb, hf⟩
    have ho : o ≤ maxOrder := by
      by_contra hlt
      rw [hl.family.top o (by omega)] at hb
      simp at hb
    exact ⟨o, ho, b, (hl.rep.order o ho b).1 hb, hf⟩
  · rintro ⟨o, ho, b, hb, hf⟩
    exact ⟨o, b, (hl.rep.order o ho b).2 hb, hf⟩

/-- **The allocator's invariant.** The free lists describe a buddy family whose
size is `totalFree`, and a frame inside a free block has no references. -/
structure PmmOK (s : Pmm) : Prop where
  lists : ∃ L, Lists s L ∧ s.totalFree = size maxOrder L
  unreferenced : ∀ f, FreeFrame s f → s.refcount f = 0
  refcount_le : ∀ f, s.refcount f ≤ 65535

theorem PmmOK.totalFree_le (hs : PmmOK s) : s.totalFree ≤ maxFrames := by
  obtain ⟨L, hl, ht⟩ := hs.lists
  rw [ht]; exact hl.family.size_le

open Classical in
theorem PmmOK.totalFree_eq_card (hs : PmmOK s) : s.totalFree = ((Finset.range maxFrames).filter (FreeFrame s)).card := by
  obtain ⟨L, hl, ht⟩ := hs.lists
  rw [ht, hl.family.size_eq_card, Finset.filter_congr fun f _ => hl.covers_iff]

theorem FreeFrame.lt (hs : PmmOK s) (hf : FreeFrame s f) : f < maxFrames := by
  obtain ⟨L, hl, -⟩ := hs.lists
  obtain ⟨o, b, hb, hf⟩ := hl.covers_iff.2 hf
  have := hl.family.inRange o b hb
  unfold In at hf; omega

/-- Frame 0 is the null pointer: it never lies in a free block. -/
theorem FreeFrame.ne_zero (hs : PmmOK s) (hf : FreeFrame s f) : f ≠ 0 := by
  rintro rfl
  obtain ⟨L, hl, -⟩ := hs.lists
  obtain ⟨o, ho, b, hb, hf⟩ := hf
  have := hl.rep.ne_zero ho ((hl.rep.order o ho b).2 hb)
  unfold In at hf; omega

theorem findOrder_spec : ∀ {n found : ℕ}, s.findOrder n found = some o → found ≤ o ∧ o < found + n ∧ s.freeLists o ≠ 0 := by
  intro n
  induction n with
  | zero => intro found h; simp [Pmm.findOrder] at h
  | succ n ih =>
    intro found h
    unfold Pmm.findOrder at h
    split at h
    · cases h; exact ⟨le_rfl, by omega, by assumption⟩
    · obtain ⟨h1, h2, h3⟩ := ih h
      exact ⟨by omega, by omega, h3⟩

/-- What a successful allocation of `order` at frame `b` did. -/
structure Allocated (s : Pmm) (order b : ℕ) (s' : Pmm) : Prop where
  ne_zero : b ≠ 0
  aligned : 2 ^ order ∣ b
  inRange : b + 2 ^ order ≤ maxFrames
  free : ∀ f, FreeFrame s f ↔ In b order f ∨ FreeFrame s' f
  refcount : s'.refcount = Pmm.mapBlock s.refcount b order fun _ => 1
  totalFree : s'.totalFree + 2 ^ order = s.totalFree

theorem mapBlock_in (r : ℕ → ℕ) (g : ℕ → ℕ) (hf : In b o f) : Pmm.mapBlock r b o g f = g (r f) := if_pos hf

theorem mapBlock_not_in (r : ℕ → ℕ) (g : ℕ → ℕ) (hf : ¬ In b o f) : Pmm.mapBlock r b o g f = r f := if_neg hf

/-- **`pmm_alloc_locked`** fails without effect, or hands out a free block. -/
theorem allocLocked_spec (hs : PmmOK s) (order : ℕ) : s.allocLocked order = (0, s) ∨
    ∃ b s', s.allocLocked order = (frameToPhys b, s') ∧ PmmOK s' ∧ Allocated s order b s' := by
  unfold Pmm.allocLocked
  split
  · exact .inl rfl
  rename_i hord
  cases hf : s.findOrder (maxOrder + 1 - order) order with
  | none => exact .inl rfl
  | some found =>
    right
    obtain ⟨L, hl, ht⟩ := hs.lists
    obtain ⟨h1, h2, h3⟩ := findOrder_spec hf
    have hfm : found ≤ maxOrder := by omega
    set b := s.freeLists found with hb
    have hbL : b ∈ L found := (hl.rep.links found hfm).head_mem h3
    have hl1 : Lists (s.listRemove found b) (take L found b) :=
      ⟨hl.rep.listRemove hl.family hfm hbL, hl.family.take _ _, hl.noBuddies.take hl.family _ _⟩
    have hh1 : Hand maxOrder maxFrames (take L found b) b (order + (found - order)) := by
      rw [Nat.add_sub_cancel' h1]; exact hl.family.hand hbL
    obtain ⟨L', hl', hh', hm, hc⟩ := splitDown_spec (found - order) hl1 hh1 h3
    rw [Nat.add_sub_cancel' h1] at hm
    set s1 := (s.listRemove found b).splitDown b order (found - order)
    obtain ⟨hc1, hc2⟩ := hc
    have hsize : size maxOrder L' + 2 ^ order = s.totalFree := by
      rw [hm.size, ht, size_take hfm hbL]
    have hle := hs.totalFree_le
    have htf : s1.totalFree = s.totalFree := hc2
    have hsub : sub64 s1.totalFree (2 ^ order) = size maxOrder L' := by
      rw [htf, sub64_of_le (by omega) (by unfold maxFrames u64 at *; omega)]; omega
    set s2 : Pmm := { s1 with
      refcount := Pmm.mapBlock s1.refcount b order fun _ => 1
      totalFree := sub64 s1.totalFree (2 ^ order) }
    have hlists : Lists s2 L' := ⟨⟨hl'.rep.links, hl'.rep.order⟩, hl'.family, hl'.noBuddies⟩
    have hrc : s2.refcount = Pmm.mapBlock s.refcount b order fun _ => 1 := by
      rw [← show s1.refcount = s.refcount from hc1]
    have hfree : ∀ f, FreeFrame s f ↔ In b order f ∨ Covers L' f := by
      intro f; rw [hm.covers f, ← hl.covers_iff, covers_take hl.family hbL]
    refine ⟨b, s2, rfl, ⟨⟨L', hlists, hsub⟩, fun f hff => ?_, fun f => ?_⟩,
      ⟨h3, hh'.aligned, hh'.inRange, fun f => ?_, hrc, ?_⟩⟩
    · have hcov := hlists.covers_iff.2 hff
      have hnin : ¬ In b order f := fun hin => hh'.not_covers hin hcov
      rw [hrc, mapBlock_not_in _ _ hnin]
      exact hs.unreferenced f ((hfree f).2 (.inr hcov))
    · rw [hrc]
      by_cases hin : In b order f
      · rw [mapBlock_in _ _ hin]; decide
      · rw [mapBlock_not_in _ _ hin]; exact hs.refcount_le f
    · rw [hfree f, hlists.covers_iff]
    · rw [← hsize, ← hsub]

theorem pmmAlloc_spec (hs : PmmOK s) (fail : Bool) (order : ℕ) : pmmAlloc fail s order = (0, s) ∨
    ∃ b s', pmmAlloc fail s order = (frameToPhys b, s') ∧ PmmOK s' ∧ Allocated s order b s' := by
  unfold pmmAlloc
  split
  · exact .inl rfl
  · exact allocLocked_spec hs order

/-- What giving back one reference to each frame of a block did: the block joins
the free frames when these were the last references. -/
structure Freed (s : Pmm) (b order : ℕ) (s' : Pmm) : Prop where
  refcount : s'.refcount = Pmm.mapBlock s.refcount b order fun r => r - 1
  last : (∀ f, In b order f → s.refcount f = 1) →
    (∀ f, FreeFrame s' f ↔ In b order f ∨ FreeFrame s f) ∧ s'.totalFree = s.totalFree + 2 ^ order
  shared : (∃ f, In b order f ∧ s.refcount f ≠ 1) → (∀ f, FreeFrame s' f ↔ FreeFrame s f) ∧ s'.totalFree = s.totalFree

theorem in_iff_add : In b o f ↔ ∃ i < 2 ^ o, f = b + i := by
  constructor
  · rintro ⟨h1, h2⟩; exact ⟨f - b, by omega, by omega⟩
  · rintro ⟨i, hi, rfl⟩; exact ⟨by omega, by omega⟩

/-- **`pmm_free_locked`** on an aligned block whose frames are all referenced. -/
theorem freeLocked_spec (hs : PmmOK s) (hk : k ≤ maxOrder) (ha : 2 ^ k ∣ b) (h0 : b ≠ 0)
    (hr : b + 2 ^ k ≤ maxFrames) (href : ∀ f, In b k f → 0 < s.refcount f) :
    PmmOK (s.freeLocked (frameToPhys b) k) ∧ Freed s b k (s.freeLocked (frameToPhys b) k) := by
  have hframe : physToFrame (frameToPhys b) = b := by
    simp [physToFrame, frameToPhys, frameSize]
  have hmod : frameToPhys b % frameSize = 0 := by simp [frameToPhys]
  have hdec : Pmm.mapBlock s.refcount b k dec16 = Pmm.mapBlock s.refcount b k fun r => r - 1 := by
    funext f
    by_cases hin : In b k f
    · rw [mapBlock_in _ _ hin, mapBlock_in _ _ hin, dec16_of_pos (href f hin) (hs.refcount_le f)]
    · rw [mapBlock_not_in _ _ hin, mapBlock_not_in _ _ hin]
  have hle : ∀ f, Pmm.mapBlock s.refcount b k (fun r => r - 1) f ≤ 65535 := by
    intro f
    have := hs.refcount_le f
    by_cases hin : In b k f
    · rw [mapBlock_in _ _ hin]; omega
    · rw [mapBlock_not_in _ _ hin]; exact this
  have hnotfree : ∀ f, In b k f → ¬ FreeFrame s f := fun f hin hf => by
    have := href f hin; rw [hs.unreferenced f hf] at this; omega
  have hzero : ∀ f, FreeFrame s f → Pmm.mapBlock s.refcount b k (fun r => r - 1) f = 0 := by
    intro f hf
    rw [mapBlock_not_in _ _ fun hin => hnotfree f hin hf]
    exact hs.unreferenced f hf
  obtain ⟨L, hl, ht⟩ := hs.lists
  unfold Pmm.freeLocked
  simp only [hframe, hdec]
  rw [if_neg (by rw [hmod]; omega)]
  split
  · -- some frame of the block is still referenced
    rename_i hsh
    obtain ⟨i, hi, hne⟩ := hsh
    have hin : In b k (b + i) := in_iff_add.2 ⟨i, hi, rfl⟩
    refine ⟨⟨⟨L, ⟨⟨hl.rep.links, hl.rep.order⟩, hl.family, hl.noBuddies⟩, ht⟩, hzero, hle⟩,
      ⟨rfl, fun hall => absurd ?_ hne, fun _ => ⟨fun f => Iff.rfl, rfl⟩⟩⟩
    rw [mapBlock_in _ _ hin, hall _ hin]
  · -- the last references: the block in hand is merged and pushed
    rename_i hsh
    have hall : ∀ f, In b k f → s.refcount f = 1 := by
      intro f hin
      obtain ⟨i, hi, rfl⟩ := in_iff_add.1 hin
      by_contra hne
      refine hsh ⟨i, hi, ?_⟩
      have := href _ hin
      rw [mapBlock_in _ _ hin]; omega
    set s1 : Pmm := { s with
      refcount := Pmm.mapBlock s.refcount b k fun r => r - 1
      totalFree := add64 s.totalFree (2 ^ k) } with hs1
    have hl1 : Lists s1 L := ⟨⟨hl.rep.links, hl.rep.order⟩, hl.family, hl.noBuddies⟩
    have hh1 : Hand maxOrder maxFrames L b k := ⟨hk, ha, hr, fun o c hc =>
      disj_of_not_in fun f hin hin' => hnotfree f hin (hl.covers_iff.1 ⟨o, c, hc, hin'⟩)⟩
    obtain ⟨L', h', k', he, hl', hh', h0', hnb, hm, hc⟩ := coalesce_spec (maxOrder - k) hl1 hh1 h0 rfl
    obtain ⟨hc1, hc2⟩ := hc
    rw [he]
    set s2 := (s1.coalesce (maxOrder - k) b k).1
    have hl2 : Lists (s2.listPush k' h') (push L' k' h') :=
      ⟨hl'.rep.listPush hl'.family hh' h0', hl'.family.push hh', hl'.noBuddies.push hnb⟩
    have hsize : size maxOrder (push L' k' h') = s.totalFree + 2 ^ k := by
      rw [size_push hh'.le, hm.size, ht]
    have hlt : s.totalFree + 2 ^ k < u64 := by
      rw [← hsize]
      exact lt_of_le_of_lt hl2.family.size_le (by decide)
    have htf : (s2.listPush k' h').totalFree = s.totalFree + 2 ^ k := by
      change s2.totalFree = _
      rw [hc2, hs1]; exact add64_of_lt hlt
    have hfree : ∀ f, FreeFrame (s2.listPush k' h') f ↔ In b k f ∨ FreeFrame s f := by
      intro f
      rw [← hl2.covers_iff, covers_push, hm.covers, hl.covers_iff]
    have hrc : (s2.listPush k' h').refcount = Pmm.mapBlock s.refcount b k fun r => r - 1 := hc1
    refine ⟨⟨⟨_, hl2, htf.trans hsize.symm⟩, fun f hf => ?_, fun f => ?_⟩,
      ⟨hrc, fun _ => ⟨hfree, htf⟩, fun ⟨f, hin, hne⟩ => absurd (hall f hin) hne⟩⟩
    · rw [hrc]
      rcases (hfree f).1 hf with hin | hf
      · rw [mapBlock_in _ _ hin, hall f hin]
      · exact hzero f hf
    · rw [hrc]; exact hle f

/-- **`pmm_frame_share`** on a referenced frame below the counter's limit. -/
theorem share_spec (hs : PmmOK s) (h0 : 0 < s.refcount f) (hlt : s.refcount f < 65535) :
    PmmOK (pmmFrameShare s (frameToPhys f)) ∧
      (pmmFrameShare s (frameToPhys f)).refcount = update s.refcount f (s.refcount f + 1) := by
  have hframe : physToFrame (frameToPhys f) = f := by
    simp [physToFrame, frameToPhys, frameSize]
  have hrc : (pmmFrameShare s (frameToPhys f)).refcount = update s.refcount f (s.refcount f + 1) := by
    simp only [pmmFrameShare, hframe, inc16_of_lt hlt]
  refine ⟨⟨?_, fun x hx => ?_, fun x => ?_⟩, hrc⟩
  · obtain ⟨L, hl, ht⟩ := hs.lists
    exact ⟨L, ⟨⟨hl.rep.links, hl.rep.order⟩, hl.family, hl.noBuddies⟩, ht⟩
  · have hx' : FreeFrame s x := hx
    have hne : x ≠ f := by
      rintro rfl
      rw [hs.unreferenced x hx'] at h0
      omega
    rw [hrc, update_of_ne hne]
    exact hs.unreferenced x hx'
  · rw [hrc]
    by_cases hx : x = f
    · subst hx; rw [update_self]; omega
    · rw [update_of_ne hx]; exact hs.refcount_le x

end NeoOS

import NeoOS.Lib.Update
import NeoOS.Spec.FdTable

/-!
# What the operations on a descriptor table do to the list of open descriptors

`Swap t t' out new` says that the table went from `t` to `t'` by taking `out` away and adding
`new`. Every operation of `fd_table.c` is one such change, and what it does to the objects is a
run of `fileDup` and `fileClose` over the same descriptors.
-/

namespace NeoOS.Fd

open List
open Function (apply_update update update_apply update_eq_self update_of_ne update_self)
open Table (bucketOpen desc inUse init)
open List (range)

variable {t t' t'' : Table} {b i fd : ℕ} {f : FileDescriptor} {x : Obj} {mem : Bool}
variable {out new : List FileDescriptor} {bucket : Bucket} {slots : ℕ → FileDescriptor}

/-- `t'` has the open descriptors of `t` with `out` taken away and `new` added. -/
def Swap (t t' : Table) (out new : List FileDescriptor) : Prop :=
  (t'.inUse ++ out).Perm (t.inUse ++ new)

namespace Swap

theorem refl (t : Table) : Swap t t [] [] := List.Perm.refl _

theorem trans {out' new' : List FileDescriptor} (h1 : Swap t t' out new) (h2 : Swap t' t'' out' new') :
    Swap t t'' (out ++ out') (new ++ new') := by
  refine perm_iff_count.2 fun a => ?_
  have c1 := h1.count_eq a
  have c2 := h2.count_eq a
  simp only [count_append] at c1 c2 ⊢
  omega

/-- What is taken away and added again has not moved. -/
theorem cancel (h : Swap t t' (f :: out) (f :: new)) : Swap t t' out new := by
  refine perm_iff_count.2 fun a => ?_
  have c := h.count_eq a
  simp only [count_append, count_cons] at c ⊢
  omega

theorem held (h : Swap t t' out new) (x : Obj) : t'.held x + out.countP (·.names x) = t.held x + new.countP (·.names x) := by
  simpa [Table.held, countP_append] using h.countP_eq (·.names x)

theorem mem_or (h : Swap t t' out new) (hf : f ∈ t'.inUse) : f ∈ t.inUse ∨ f ∈ new :=
  mem_append.mp (h.subset (mem_append_left _ hf))

end Swap

/-! ## One slot -/

/-- The descriptor of a slot, if it is in use. -/
def one (f : FileDescriptor) : List FileDescriptor := if f.inUse then [f] else []

@[simp] theorem one_reset : one .reset = [] := rfl

theorem one_of_inUse (h : f.inUse) : one f = [f] := if_pos h

theorem one_of_not (h : f.inUse = false) : one f = [] := if_neg (by simp [h])

theorem bucketOpen_some (slots : ℕ → FileDescriptor) (n : ℕ) :
    bucketOpen ⟨some slots, n⟩ = (range fdTableSlots).flatMap fun i => one (slots i) := by
  simp only [bucketOpen, one]
  induction range fdTableSlots with
  | nil => rfl
  | cons i is ih => rw [map_cons, filter_cons, flatMap_cons, ih]; split <;> rfl

theorem inUse_update (t : Table) (b : ℕ) (bucket : Bucket) : inUse (update t b bucket) = (range fdTableBuckets).flatMap
      (update (fun b => bucketOpen (t b)) b (bucketOpen bucket)) := by
  exact flatMap_congr fun j _ => apply_update (fun _ => bucketOpen) t b bucket j

theorem div_slots_lt (h : fd < fdTableMax) : fd / fdTableSlots < fdTableBuckets :=
  Nat.div_lt_of_lt_mul (by rw [Nat.mul_comm]; exact h)

theorem mod_slots_lt (fd : ℕ) : fd % fdTableSlots < fdTableSlots := Nat.mod_lt _ (by decide)

theorem desc_eq (t : Table) (fd : ℕ) :
    t.desc fd = ((t (fd / fdTableSlots)).slots.getD fun _ => .reset) (fd % fdTableSlots) := by
  unfold desc
  split <;> simp [*]

theorem slot_div (b : ℕ) (hi : i < fdTableSlots) : (b * fdTableSlots + i) / fdTableSlots = b := by
  rw [add_comm, Nat.add_mul_div_right _ _ (by decide), Nat.div_eq_of_lt hi, zero_add]

theorem desc_slot (t : Table) (b : ℕ) (hi : i < fdTableSlots) :
    t.desc (b * fdTableSlots + i) = ((t b).slots.getD fun _ => .reset) i := by
  rw [desc_eq, slot_div b hi, add_comm, Nat.add_mul_mod_self_right, Nat.mod_eq_of_lt hi]

theorem slots_of_inUse (h : (t.desc fd).inUse) :
    ∃ slots, (t (fd / fdTableSlots)).slots = some slots ∧ slots (fd % fdTableSlots) = t.desc fd := by
  rw [desc_eq] at h ⊢
  cases hs : (t (fd / fdTableSlots)).slots with
  | none => rw [hs] at h; cases h
  | some slots => exact ⟨slots, rfl, rfl⟩

section

variable (h : bucketSlots (t b) mem = some (bucket, slots))
include h

theorem bucketSlots_some : bucket.slots = some slots ∧ bucketOpen bucket = bucketOpen (t b) ∧
      bucket.slotCount = (t b).slotCount ∧ ∀ i, slots i = ((t b).slots.getD fun _ => .reset) i := by
  unfold bucketSlots at h
  split at h
  next slots' hs =>
    cases h
    exact ⟨hs, rfl, rfl, fun i => by rw [hs]; rfl⟩
  next hs =>
    split at h
    · cases h
      refine ⟨rfl, ?_, rfl, fun i => by rw [hs]; rfl⟩
      have hnone : bucketOpen (t b) = [] := by rw [bucketOpen, hs]
      rw [hnone, bucketOpen_some]
      simp
    · cases h

theorem swap_build : Swap t (update t b bucket) [] [] := by
  have heq : inUse (update t b bucket) = t.inUse := by
    rw [inUse_update, (bucketSlots_some h).2.1, update_eq_self]
    rfl
  simp only [Swap, heq, List.Perm.refl]

theorem desc_of_slots (hi : i < fdTableSlots) : t.desc (b * fdTableSlots + i) = slots i := by
  rw [desc_slot t b hi, (bucketSlots_some h).2.2.2]

theorem desc_put (hi : i < fdTableSlots) (f : FileDescriptor) (n fd : ℕ) : desc (update t b (bucket.put slots i f n)) fd =
      if fd = b * fdTableSlots + i then f else t.desc fd := by
  have hdm := Nat.div_add_mod' fd fdTableSlots
  by_cases hfb : fd / fdTableSlots = b
  · subst hfb
    rw [desc_eq, desc_eq, update_self, ← (bucketSlots_some h).2.2.2]
    simp only [Bucket.put, Option.getD_some, update_apply]
    refine if_congr ⟨fun hm => ?_, fun hm => ?_⟩ rfl rfl
    · rw [← hm]; exact hdm.symm
    · omega
  · have hne : fd ≠ b * fdTableSlots + i := by
      rintro rfl
      exact hfb (slot_div b hi)
    rw [if_neg hne, desc_eq, desc_eq, update_of_ne hfb]

theorem desc_build (fd : ℕ) : desc (update t b bucket) fd = t.desc fd := by
  rw [desc_eq, desc_eq]
  by_cases hfb : fd / fdTableSlots = b
  · subst hfb
    rw [update_self, (bucketSlots_some h).1, ← (bucketSlots_some h).2.2.2]
    rfl
  · rw [update_of_ne hfb]

end

theorem bucketOpen_put (hi : i < fdTableSlots) (h : bucketSlots (t b) mem = some (bucket, slots)) (f : FileDescriptor)
    (n : ℕ) : (bucketOpen (bucket.put slots i f n) ++ one (slots i)).Perm (bucketOpen (t b) ++ one f) := by
  obtain ⟨hs, hopen, -, -⟩ := bucketSlots_some h
  have h2 := Update.flatMap_perm (fun i => one (slots i)) (one f) nodup_range (mem_range.mpr hi)
  have hput : bucketOpen (bucket.put slots i f n) =
      (range fdTableSlots).flatMap (update (fun i => one (slots i)) i (one f)) := by
    rw [Bucket.put, bucketOpen_some]
    exact flatMap_congr fun j _ => apply_update (fun _ => one) slots i f j
  have hold : bucketOpen (t b) = (range fdTableSlots).flatMap fun i => one (slots i) := by
    rw [← hopen, ← bucketOpen_some slots bucket.slotCount, ← hs]
  rwa [← hput, ← hold] at h2

theorem swap_put (hb : b < fdTableBuckets) (hi : i < fdTableSlots)
    (h : bucketSlots (t b) mem = some (bucket, slots)) (f : FileDescriptor) (n : ℕ) :
    Swap t (update t b (bucket.put slots i f n)) (one (slots i)) (one f) := by
  -- the bucket among the buckets
  have h1 := Update.flatMap_perm (fun b => bucketOpen (t b)) (bucketOpen (bucket.put slots i f n)) nodup_range
    (mem_range.mpr hb)
  have h2 := bucketOpen_put hi h f n
  refine perm_iff_count.2 fun a => ?_
  have c1 := h1.count_eq a
  have c2 := h2.count_eq a
  rw [← inUse_update] at c1
  simp only [count_append, inUse] at c1 c2 ⊢
  omega

theorem mem_inUse (hfd : fd < fdTableMax) (h : (t.desc fd).inUse) : t.desc fd ∈ t.inUse := by
  obtain ⟨slots, hs, hd⟩ := slots_of_inUse h
  refine mem_flatMap.mpr ⟨fd / fdTableSlots, mem_range.mpr (div_slots_lt hfd), ?_⟩
  simp only [bucketOpen, hs, mem_filter, mem_map, mem_range]
  exact ⟨⟨_, mod_slots_lt fd, hd⟩, h⟩

theorem get_some {fd : ℤ} (h : t.get fd = some f) : ∃ n : ℕ, fd = n ∧ n < fdTableMax ∧ t.desc n = f ∧ f.inUse := by
  unfold Table.get at h
  split at h
  · cases h
  next hr =>
    split at h
    next hu =>
      cases h
      refine ⟨fd.toNat, ?_, ?_, rfl, hu⟩ <;> omega
    next => cases h

/-! ## The operations -/

/-- What an allocation leaves behind. -/
structure Allocated (t : Table) (fd : ℕ) (t' : Table) : Prop where
  lt : fd < fdTableMax
  free : (t.desc fd).inUse = false
  desc : ∀ n, t'.desc n = if n = fd then .fresh else t.desc n
  swap : Swap t t' [] [.fresh]

theorem Allocated.self (h : Allocated t fd t') : t'.desc fd = .fresh := by rw [h.desc, if_pos rfl]

/-- The outcomes of `fd_table_alloc_from`. -/
def AllocOK (t : Table) (r : Except Err ℕ × Table) : Prop :=
  match r.1 with
  | .error _ => Swap t r.2 [] [] ∧ ∀ n, r.2.desc n = t.desc n
  | .ok fd => Allocated t fd r.2

/-- Where the search of a bucket starts. -/
def firstSlot (start b : ℕ) : ℕ := if start / fdTableSlots = b then start % fdTableSlots else 0

theorem firstSlot_lt (start b : ℕ) : firstSlot start b < fdTableSlots := by
  unfold firstSlot
  split
  · exact mod_slots_lt start
  · decide

/-- The search finds nothing in the slots from the first one up to `i`. -/
def Taken (start : ℕ) (t : Table) (b i : ℕ) : Prop :=
  ∀ j, firstSlot start b ≤ j → j < i → (t.desc (b * fdTableSlots + j)).inUse

/-- The search goes past a bucket, by its counter or after a look at its slots. -/
def Passed (start : ℕ) (t : Table) (b : ℕ) : Prop := fdTableSlots ≤ (t b).slotCount ∨ Taken start t b fdTableSlots

/-- The ways the search from bucket `c` on ends: there is none left, there is no memory for an array, or a slot is free. -/
inductive AllocEnd (start : ℕ) (mem : Bool) (t : Table) (c : ℕ) : Except Err ℕ × Table → Prop
  | full (h : ∀ b, c ≤ b → b < fdTableBuckets → Passed start t b) : AllocEnd start mem t c (.error .emfile, t)
  | noMemory {b : ℕ} (hc : c ≤ b) (hb : b < fdTableBuckets) (h : ∀ b', c ≤ b' → b' < b → Passed start t b')
      (hn : bucketSlots (t b) mem = none) : AllocEnd start mem t c (.error .emfile, t)
  | found {b i : ℕ} {bucket : Bucket} {slots : ℕ → FileDescriptor} (hc : c ≤ b) (hb : b < fdTableBuckets)
      (h : ∀ b', c ≤ b' → b' < b → Passed start t b') (hs : bucketSlots (t b) mem = some (bucket, slots))
      (hi : i < fdTableSlots) (hfirst : firstSlot start b ≤ i) (hfree : (slots i).inUse = false) (hlow : Taken start t b i) :
      AllocEnd start mem t c (.ok (b * fdTableSlots + i), update t b (bucket.put slots i .fresh (bucket.slotCount + 1)))

theorem AllocEnd.pass {start c : ℕ} {r : Except Err ℕ × Table} (hp : Passed start t c) (h : AllocEnd start mem t (c + 1) r) :
    AllocEnd start mem t c r := by
  have hall : ∀ {e}, (∀ b, c + 1 ≤ b → b < e → Passed start t b) → ∀ b, c ≤ b → b < e → Passed start t b := by
    intro e he b hcb hbe
    rcases Nat.eq_or_lt_of_le hcb with rfl | hlt
    · exact hp
    · exact he b hlt hbe
  cases h with
  | full h => exact .full (hall h)
  | noMemory hc hb h hn => exact .noMemory (Nat.le_of_succ_le hc) hb (hall h) hn
  | found hc hb h hs hi hfirst hfree hlow => exact .found (Nat.le_of_succ_le hc) hb (hall h) hs hi hfirst hfree hlow

theorem allocLoop_end (t : Table) (start : ℕ) (mem : Bool) : ∀ n c, n = fdTableBuckets - c →
    AllocEnd start mem t c (allocLoop start mem (List.range' c n) t) := by
  intro n
  induction n with
  | zero =>
    intro c hn
    exact .full fun b hcb hb => absurd hb (by omega)
  | succ n ih =>
    intro c hn
    have hbefore : ∀ b, c ≤ b → b < c → Passed start t b := fun b hcb hb => absurd hb (by omega)
    have hlt := firstSlot_lt start c
    rw [range'_succ]
    unfold allocLoop
    rw [← firstSlot.eq_1 start c]
    split
    next hfull => exact (ih (c + 1) (by omega)).pass (.inl hfull)
    split
    next hn => exact .noMemory le_rfl (by omega) hbefore hn
    next bucket slots hs =>
      dsimp only
      split
      next hno =>
        have hall : ∀ i, firstSlot start c ≤ i → i < fdTableSlots → (slots i).inUse := by
          intro i h1 h2
          simpa using find?_eq_none.1 hno i (mem_range'_1.2 ⟨h1, by omega⟩)
        -- so the array was there before
        have hbucket : bucket = t c := by
          unfold bucketSlots at hs
          split at hs
          · cases hs
            rfl
          · split at hs
            · cases hs
              exact absurd (hall _ le_rfl hlt) Bool.false_ne_true
            · cases hs
        rw [hbucket, update_eq_self]
        refine (ih (c + 1) (by omega)).pass (.inr fun i h1 h2 => ?_)
        rw [desc_of_slots hs h2]
        exact hall i h1 h2
      next i hi =>
        obtain ⟨hfree, hm, hlow⟩ := find?_range'_eq_some.1 hi
        rw [mem_range'_1] at hm
        refine .found le_rfl (by omega) hbefore hs (by omega) hm.1 (by simpa using hfree) fun j h1 h2 => ?_
        rw [desc_of_slots hs (by omega)]
        simpa using hlow j h1 h2

theorem alloc_end (t : Table) (start : ℕ) (mem : Bool) :
    AllocEnd start mem t (start / fdTableSlots) (fdTableAllocFrom t start mem) := allocLoop_end t start mem _ _ rfl


theorem alloc_spec (t : Table) (start : ℕ) (mem : Bool) : AllocOK t (fdTableAllocFrom t start mem) := by
  have hend := alloc_end t start mem
  generalize fdTableAllocFrom t start mem = r at hend ⊢
  cases hend with
  | full | noMemory => exact ⟨.refl t, fun _ => rfl⟩
  | @found b i bucket slots hc hb h hs hi hfirst hfree hlow =>
    refine ⟨?_, ?_, fun n => desc_put hs hi _ _ n, ?_⟩
    · calc b * fdTableSlots + i < (b + 1) * fdTableSlots := by rw [Nat.add_mul]; omega
        _ ≤ fdTableMax := Nat.mul_le_mul_right _ hb
    · rw [desc_of_slots hs hi]
      exact hfree
    · have hp := swap_put hb hi hs .fresh (bucket.slotCount + 1)
      rwa [one_of_not hfree] at hp

theorem bucketSlots_of_some {bucket : Bucket} (h : bucket.slots = some slots) (mem : Bool) :
    bucketSlots bucket mem = some (bucket, slots) := by
  unfold bucketSlots
  rw [h]

theorem swap_fill (hfd : fd < fdTableMax) (h : (t.desc fd).inUse) (hf : f.inUse) : Swap t (t.fill fd f) [t.desc fd] [f] := by
  obtain ⟨slots, hs, hd⟩ := slots_of_inUse h
  have hp := swap_put (div_slots_lt hfd) (mod_slots_lt fd) (bucketSlots_of_some hs true) f (t (fd / fdTableSlots)).slotCount
  rw [hd, one_of_inUse h, one_of_inUse hf] at hp
  simpa only [Table.fill, hs] using hp

theorem desc_fill (h : (t.desc fd).inUse) (n : ℕ) : (t.fill fd f).desc n = if n = fd then f else t.desc n := by
  obtain ⟨slots, hs, -⟩ := slots_of_inUse h
  simp only [Table.fill, hs]
  rw [desc_put (bucketSlots_of_some hs true) (mod_slots_lt fd)]
  rw [Nat.mul_comm, Nat.div_add_mod]

theorem close_spec (o : Objects) (hfd : fd < fdTableMax) (h : (t.desc fd).inUse) :
    (fdTableClose o t fd).1 = fileClose o (t.desc fd) ∧ Swap t (fdTableClose o t fd).2 [t.desc fd] [] := by
  obtain ⟨slots, hs, hd⟩ := slots_of_inUse h
  have hp := swap_put (div_slots_lt hfd) (mod_slots_lt fd) (bucketSlots_of_some hs true) .reset
    ((t (fd / fdTableSlots)).slotCount - 1)
  rw [hd, one_of_inUse h] at hp
  simp only [fdTableClose, if_neg (Nat.not_le.mpr hfd), hs, hd, h, if_true]
  exact ⟨trivial, hp⟩

/-- The outcomes of `fd_table_dup2`. -/
inductive Dup2OK (o : Objects) (t : Table) (oldfd newfd : ℤ) : Except Err ℤ × Objects × Table → Prop
  | error (e : Err) {t' : Table} (h : Swap t t' [] []) (hd : ∀ n, t'.desc n = t.desc n) :
    Dup2OK o t oldfd newfd (.error e, o, t')
  | same {t' : Table} (h : Swap t t' [] []) : Dup2OK o t oldfd newfd (.ok newfd, o, t')
  | copied {src old : FileDescriptor} {t' : Table} (hne : oldfd ≠ newfd) (hsrc : t.get oldfd = some src)
      (hold : old = t.desc newfd.toNat) (hlt : newfd.toNat < fdTableMax) (hpos : 0 ≤ newfd)
      (h : Swap t t' (one old) [src]) :
      Dup2OK o t oldfd newfd (.ok newfd, (if old.inUse then fileClose (fileDup o src) old else fileDup o src), t')

theorem dup2_spec (o : Objects) (t : Table) (oldfd newfd : ℤ) (mem : Bool) :
    Dup2OK o t oldfd newfd (fdTableDup2 o t oldfd newfd mem) := by
  unfold fdTableDup2
  split
  · exact .error _ (.refl t) fun _ => rfl
  next hr =>
    have hln : newfd.toNat < fdTableMax := by omega
    dsimp only
    split
    · exact .error _ (.refl t) fun _ => rfl
    next ob oslots ho =>
      have hsrc : oslots (oldfd.toNat % fdTableSlots) = t.desc oldfd.toNat := by
        rw [desc_eq, (bucketSlots_some ho).2.2.2]
      have h0 := swap_build ho
      simp only [hsrc]
      split
      · exact .error _ h0 (desc_build ho)
      next hu =>
        have hu : (t.desc oldfd.toNat).inUse := by simpa using hu
        split
        · exact .same h0
        next hne =>
          split
          · exact .error _ h0 (desc_build ho)
          next nb nslots hn =>
            have hold : nslots (newfd.toNat % fdTableSlots) = t.desc newfd.toNat := by
              rw [← desc_build ho, desc_eq, (bucketSlots_some hn).2.2.2]
            simp only [hold]
            refine .copied hne ?_ rfl hln (by omega) ?_
            · unfold Table.get
              rw [if_neg (by omega), if_pos hu]
            · have hp := swap_put (div_slots_lt hln) (mod_slots_lt newfd.toNat) hn (t.desc oldfd.toNat)
                ((if (t.desc newfd.toNat).inUse = true then nb.slotCount - 1 else nb.slotCount) + 1)
              rw [hold, one_of_inUse hu] at hp
              exact h0.trans hp

theorem free_inUse (o : Objects) (t : Table) : (fdTableFree o t).2.inUse = [] := by
  unfold fdTableFree inUse
  rw [flatMap_eq_nil_iff]
  intro b hb
  simp only [bucketOpen, if_pos (mem_range.mp hb)]

theorem init_inUse : init.inUse = [] := by
  unfold inUse
  rw [flatMap_eq_nil_iff]
  exact fun b _ => rfl

/-! ## Copying a table -/

theorem dupSlots_spec (src : ℕ → FileDescriptor) (is : List ℕ) : ∀ (o : Objects) (b : Bucket),
    (dupSlots src is o b).1 = ((is.map src).filter (·.inUse)).foldl fileDup o ∧
    ∀ j, ((dupSlots src is o b).2.slots.getD fun _ => .reset) j =
      if j ∈ is ∧ (src j).inUse then src j else (b.slots.getD fun _ => .reset) j := by
  induction is with
  | nil => exact fun o b => ⟨rfl, fun j => by simp [dupSlots]⟩
  | cons i is ih =>
    intro o b
    rw [map_cons, filter_cons]
    unfold dupSlots
    cases hu : (src i).inUse with
    | true =>
      simp only [if_true]
      refine ⟨(ih _ _).1, fun j => ?_⟩
      rw [(ih _ _).2 j]
      by_cases hji : j = i
      · subst hji
        simp [Bucket.put, hu]
      · simp [Bucket.put, hji]
    | false =>
      simp only [Bool.false_eq_true, if_false]
      refine ⟨(ih _ _).1, fun j => ?_⟩
      rw [(ih _ _).2 j]
      by_cases hji : j = i
      · subst hji
        simp [hu]
      · simp [hji]

theorem bucketOpen_eq (b : Bucket) :
    bucketOpen b = (range fdTableSlots).flatMap fun i => one ((b.slots.getD fun _ => .reset) i) := by
  rcases b with ⟨_ | slots, n⟩
  · simp [bucketOpen]
  · exact bucketOpen_some slots n

theorem dupSlots_bucket (src : ℕ → FileDescriptor) (n : ℕ) (o : Objects) {b : Bucket}
    (hb : ∀ i, ((b.slots.getD fun _ => .reset) i).inUse = false) :
    bucketOpen (dupSlots src (range fdTableSlots) o b).2 = bucketOpen ⟨some src, n⟩ := by
  rw [bucketOpen_eq, bucketOpen_eq]
  refine flatMap_congr fun i hi => ?_
  rw [(dupSlots_spec src _ o b).2 i]
  by_cases hu : (src i).inUse
  · rw [if_pos ⟨hi, hu⟩]; rfl
  · rw [if_neg fun h => hu h.2, one_of_not (hb i)]
    exact (one_of_not (by simpa using hu)).symm

theorem bucketSlots_empty (ht : t b = ⟨none, 0⟩) (h : bucketSlots (t b) mem = some (bucket, slots)) (i : ℕ) :
    ((bucket.slots.getD fun _ => .reset) i).inUse = false := by
  rw [(bucketSlots_some h).1, Option.getD_some, (bucketSlots_some h).2.2.2, ht]
  rfl

theorem dupLoop_cons (src : Table) (mem : ℕ → Bool) (b : ℕ) (bs : List ℕ) (o : Objects) (ht : t b = ⟨none, 0⟩) :
    dupLoop src mem (b :: bs) o t = (false, o, t) ∨ ∃ bucket, bucketOpen bucket = bucketOpen (src b) ∧
        dupLoop src mem (b :: bs) o t = dupLoop src mem bs ((bucketOpen (src b)).foldl fileDup o) (update t b bucket) := by
  rw [dupLoop]
  split
  next hs =>
    -- an empty bucket of the source
    have hnil : bucketOpen (src b) = [] := by rw [bucketOpen, hs]
    refine .inr ⟨t b, by rw [hnil, ht]; rfl, ?_⟩
    rw [hnil, update_eq_self]
    rfl
  next slots hs =>
    split
    · exact .inl rfl
    next bucket slots' hbk =>
      refine .inr ⟨(dupSlots slots (range fdTableSlots) o bucket).2, ?_, ?_⟩
      · rw [dupSlots_bucket slots (src b).slotCount o (bucketSlots_empty ht hbk), ← hs]
      · rw [bucketOpen, hs, ← (dupSlots_spec slots _ o bucket).1]

theorem dupLoop_spec (src : Table) (mem : ℕ → Bool) (bs : List ℕ) (hnd : bs.Nodup) :
    ∀ (o : Objects) (t : Table), (∀ b ∈ bs, t b = ⟨none, 0⟩) → ∃ pre suf, bs = pre ++ suf ∧
        (dupLoop src mem bs o t).2.1 = (pre.flatMap fun b => bucketOpen (src b)).foldl fileDup o ∧
        (∀ b, bucketOpen ((dupLoop src mem bs o t).2.2 b) = if b ∈ pre then bucketOpen (src b) else bucketOpen (t b)) ∧
        ((dupLoop src mem bs o t).1 → suf = []) := by
  induction bs with
  | nil => exact fun o t _ => ⟨[], [], rfl, rfl, fun b => by simp [dupLoop], fun _ => rfl⟩
  | cons b bs ih =>
    intro o t ht
    obtain ⟨hb, hnd⟩ := nodup_cons.mp hnd
    obtain ⟨htb, htail⟩ := forall_mem_cons.1 ht
    obtain hloop | ⟨bucket, hbucket, hloop⟩ := dupLoop_cons src mem b bs o htb
    · rw [hloop]
      exact ⟨[], b :: bs, rfl, rfl, fun b' => by simp, nofun⟩
    · obtain ⟨pre, suf, heq, hobj, hopen, hok⟩ := ih hnd ((bucketOpen (src b)).foldl fileDup o) (update t b bucket)
        fun b' hb' => by rw [update_of_ne (by rintro rfl; exact hb hb'), htail b' hb']
      rw [hloop]
      refine ⟨b :: pre, suf, by rw [heq]; rfl, ?_, fun b' => ?_, hok⟩
      · rw [hobj, flatMap_cons, foldl_append]
      · rw [hopen b']
        by_cases hbb : b' = b
        · subst hbb
          have : b' ∉ pre := fun hm => hb (heq ▸ mem_append_left _ hm)
          rw [if_neg this, if_pos mem_cons_self, update_self, hbucket]
        · simp [hbb]

/-- `fd_table_dup` into a new table copies a first part of the open descriptors, all of them if it
succeeds. -/
theorem dup_spec (o : Objects) (src : Table) (mem : ℕ → Bool) :
    ∃ l, l <+: src.inUse ∧ (fdTableDup o init src mem).2.1 = l.foldl fileDup o ∧
      (fdTableDup o init src mem).2.2.inUse = l ∧
      ((fdTableDup o init src mem).1 → l = src.inUse) := by
  obtain ⟨pre, suf, heq, hobj, hopen, hok⟩ := dupLoop_spec src mem (range fdTableBuckets) nodup_range o
    init fun _ _ => rfl
  have hall : src.inUse = (pre.flatMap fun b => bucketOpen (src b)) ++ suf.flatMap fun b => bucketOpen (src b) := by
    rw [inUse, heq, flatMap_append]
  refine ⟨pre.flatMap fun b => bucketOpen (src b), ⟨_, hall.symm⟩, hobj, ?_, fun h => ?_⟩
  · have hnd : (pre ++ suf).Nodup := heq ▸ nodup_range
    have hpre : (pre.flatMap fun b => bucketOpen ((fdTableDup o init src mem).2.2 b)) =
        pre.flatMap fun b => bucketOpen (src b) :=
      flatMap_congr fun b hb => by rw [fdTableDup, hopen b, if_pos hb]
    have hsuf : (suf.flatMap fun b => bucketOpen ((fdTableDup o init src mem).2.2 b)) = [] := by
      rw [flatMap_eq_nil_iff]
      intro b hb
      have : b ∉ pre := fun hp => (nodup_append.mp hnd).2.2 b hp b hb rfl
      rw [fdTableDup, hopen b, if_neg this]
      rfl
    rw [inUse, heq, flatMap_append, hpre, hsuf, append_nil]
  · rw [hall, hok h]
    simp

end NeoOS.Fd

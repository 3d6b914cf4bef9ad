import NeoOS.Proof.Fork

/-!
# References to frames

`KernOK strict R k` says that the reference count of every frame covers the `R`
references somebody holds, its entries in the deferred-free queue and the heap's hold
on its blocks; when `strict` holds there are no others, and a frame without references
is free. Each kernel call moves references: an allocation and a share give one to the
caller, a free takes one, the deferred-free queue takes one and gives it to `pmm_free`
when it is flushed, and the heap takes blocks for itself.
`Spares E k k'` says what a call does not do to the frames `E` refers to.
-/

namespace NeoOS

open List
open Buddy (In)

variable {strict : Prop} {R R' E : ℕ → ℕ} {k k' k'' : Kernel} {d : Deferred} {b f n o x : ℕ} {s : Pmm} {y : HeapBlock}
  {α : Type*} {l : List α}

/-- One reference to each frame of a block. -/
def block (b o f : ℕ) : ℕ := if b ≤ f ∧ f < b + 2 ^ o then 1 else 0

theorem block_in (h : In b o f) : block b o f = 1 := if_pos h

theorem block_not_in (h : ¬ In b o f) : block b o f = 0 := if_neg h

/-- One reference to frame `g`. -/
def one (g f : ℕ) : ℕ := if f = g then 1 else 0

@[simp] theorem one_self (f : ℕ) : one f f = 1 := if_pos rfl

theorem one_of_ne {g : ℕ} (h : f ≠ g) : one g f = 0 := if_neg h

theorem block_zero (b f : ℕ) : block b 0 f = one b f := by
  by_cases h : f = b
  · rw [block_in (in_zero.2 h), h, one_self]
  · rw [block_not_in (fun hi => h (in_zero.1 hi)), one_of_ne h]

/-- The frames that wait for a shootdown. -/
def queue (k : Kernel) : List Deferred := k.deferred ++ k.overflow

/-- The deferred-free entries of a frame. -/
def pending (k : Kernel) (f : ℕ) : ℕ := (queue k).countP fun d => d.frame == f

/-- The blocks of the heap that a frame is in. -/
def heapRefs (k : Kernel) (f : ℕ) : ℕ := (k.heap.map fun x => block x.frame x.order f).sum

/-- The references that the kernel itself has to a frame. -/
def owed (k : Kernel) (f : ℕ) : ℕ := pending k f + heapRefs k f

/-- A block whose frames have one reference each. -/
structure BlockOK (s : Pmm) (b o : ℕ) : Prop where
  order : o ≤ maxOrder
  ne_zero : b ≠ 0
  aligned : 2 ^ o ∣ b
  inRange : b + 2 ^ o ≤ maxFrames
  sole : ∀ f, In b o f → s.refcount f = 1

/-- **The references to frames.** -/
structure KernOK (strict : Prop) (R : ℕ → ℕ) (k : Kernel) : Prop where
  pmm : PmmOK k.pmm
  held : ∀ f, R f + owed k f ≤ k.pmm.refcount f
  noMore : strict → ∀ f, k.pmm.refcount f ≤ R f + owed k f
  unheld : strict → ∀ f, k.pmm.refcount f = 0 → FreeFrame k.pmm f
  waiting : ∀ d ∈ queue k, d.order = 0 ∧ d.frame ≠ 0 ∧ d.frame < maxFrames
  heap : ∀ x ∈ k.heap, BlockOK k.pmm x.frame x.order

/-- The frames somebody else refers to keep their bytes and get no more references. -/
structure Spares (E : ℕ → ℕ) (k k' : Kernel) : Prop where
  mem : ∀ f, E f ≠ 0 → k'.mem f = k.mem f
  le : ∀ f, E f ≠ 0 → k'.pmm.refcount f ≤ k.pmm.refcount f

theorem Spares.refl (E : ℕ → ℕ) (k : Kernel) : Spares E k k := ⟨fun _ _ => rfl, fun _ _ => le_rfl⟩

theorem Spares.trans (h1 : Spares E k k') (h2 : Spares E k' k'') : Spares E k k'' :=
  ⟨fun f hf => (h2.mem f hf).trans (h1.mem f hf), fun f hf => (h2.le f hf).trans (h1.le f hf)⟩

theorem Spares.mono (h : Spares R k k') (hE : ∀ f, E f ≤ R f) : Spares E k k' :=
  ⟨fun f hf => h.mem f (by have := hE f; omega), fun f hf => h.le f (by have := hE f; omega)⟩

theorem Spares.same (hp : k'.pmm = k.pmm) (hm : k'.mem = k.mem) : Spares E k k' :=
  ⟨fun f _ => by rw [hm], fun f _ => by rw [hp]⟩

theorem Spares.after (h : Spares E k' k'') (hp : k'.pmm = k.pmm) (hm : k'.mem = k.mem) : Spares E k k'' :=
  Spares.trans (.same hp hm) h

theorem Spares.sole (h : Spares E k k') (hk : KernOK strict R k') (hE : ∀ f, E f ≤ R f) (hf : E f ≠ 0)
    (h1 : k.pmm.refcount f = 1) : k'.pmm.refcount f = 1 := by
  have := h.le f hf; have := hk.held f; have := hE f; omega

/-- What another process may rely on: the bytes of the frames it refers to, and that a frame
only it refers to stays its own. -/
structure Apart (E : ℕ → ℕ) (k k' : Kernel) : Prop where
  mem : ∀ f, E f ≠ 0 → k'.mem f = k.mem f
  sole : ∀ f, E f ≠ 0 → k.pmm.refcount f = 1 → k'.pmm.refcount f = 1

theorem Apart.trans (h1 : Apart E k k') (h2 : Apart E k' k'') : Apart E k k'' :=
  ⟨fun f hf => (h2.mem f hf).trans (h1.mem f hf), fun f hf h => h2.sole f hf (h1.sole f hf h)⟩

theorem Spares.apart (h : Spares E k k') (hk : KernOK strict R k') (hE : ∀ f, E f ≤ R f) : Apart E k k' :=
  ⟨h.mem, fun _ => h.sole hk hE⟩

/-- References that nobody accounts for any more. -/
theorem KernOK.le (h : KernOK strict R k) (hle : ∀ f, R' f ≤ R f) (hs : strict → ∀ f, R f ≤ R' f) :
    KernOK strict R' k :=
  { h with
    held := fun f => by have := h.held f; have := hle f; omega
    noMore := fun hx f => by have := h.noMore hx f; have := hs hx f; omega }

theorem KernOK.congr (h : KernOK strict R k) (hR : ∀ f, R' f = R f) : KernOK strict R' k :=
  h.le (fun f => (hR f).le) fun _ f => (hR f).ge

theorem KernOK.same (h : KernOK strict R k) (hp : k'.pmm = k.pmm) (hq : queue k' = queue k) (hh : k'.heap = k.heap) :
    KernOK strict R k' := by
  have howed : ∀ f, owed k' f = owed k f := fun f => by unfold owed pending heapRefs; rw [hq, hh]
  refine ⟨hp ▸ h.pmm, fun f => ?_, fun hx f => ?_, hp ▸ h.unheld, hq ▸ h.waiting, ?_⟩
  · rw [hp, howed]; exact h.held f
  · rw [hp, howed]; exact h.noMore hx f
  · rw [hp, hh]; exact h.heap

/-! ## Allocation -/

theorem frameToPhys_ne_zero (hb : b ≠ 0) : frameToPhys b ≠ 0 := by
  unfold frameToPhys frameSize; omega

/-- **`pmm_alloc`** in the kernel's state. -/
theorem alloc_cases (hk : PmmOK k.pmm) (o : ℕ) : k.alloc o = (none, { k with allocs := k.allocs + 1 }) ∨
      ∃ b s, k.alloc o = (some b, { k with pmm := s, allocs := k.allocs + 1 }) ∧ PmmOK s ∧ Allocated k.pmm o b s := by
  unfold Kernel.alloc
  rcases pmmAlloc_spec hk (k.pmmFail k.allocs) o with he | ⟨b, s, he, hs, ha⟩
  · left; simp only [he, if_true]
  · right
    refine ⟨b, s, ?_, hs, ha⟩
    simp only [he, if_neg (frameToPhys_ne_zero ha.ne_zero), physToFrame_frameToPhys]

/-- What a successful allocation gives: frames nobody held. -/
structure Fresh (strict : Prop) (R : ℕ → ℕ) (k : Kernel) (o b : ℕ)
    (k' : Kernel) : Prop extends BlockOK k'.pmm b o where
  ok : KernOK strict (fun f => R f + block b o f) k'
  spares : Spares R k k'
  unheld : ∀ f, In b o f → k.pmm.refcount f = 0

theorem alloc_order (ha : k.alloc o = (some b, k')) : o ≤ maxOrder := by
  by_contra hlt
  have h0 : (k.alloc o).1 = none := by
    unfold Kernel.alloc pmmAlloc Pmm.allocLocked
    split <;> simp_all
  rw [ha] at h0
  cases h0

theorem KernOK.alloc (h : KernOK strict R k) (ha : k.alloc o = (some b, k')) : Fresh strict R k o b k' := by
  rcases alloc_cases h.pmm o with he | ⟨b', s, he, hs, hal⟩
  · rw [he] at ha; cases ha
  rw [he] at ha
  cases ha
  have hzero : ∀ f, In b o f → k.pmm.refcount f = 0 := fun f hf =>
    h.pmm.unreferenced f ((hal.free f).2 (.inl hf))
  have hin : ∀ f, In b o f → s.refcount f = 1 := fun f hf => by rw [hal.refcount, mapBlock_in _ _ hf]
  have hout : ∀ f, ¬ In b o f → s.refcount f = k.pmm.refcount f := fun f hf => by
    rw [hal.refcount, mapBlock_not_in _ _ hf]
  refine { hal with
    ok := ⟨hs, fun f => ?_, fun hx f => ?_, fun hx f hf => ?_, h.waiting, fun x hx => ?_⟩
    spares := ⟨fun _ _ => rfl, fun f hf => ?_⟩
    unheld := hzero
    order := alloc_order he
    sole := hin }
  · change R f + block b o f + owed k f ≤ s.refcount f
    have hheld := h.held f
    by_cases hi : In b o f
    · have := hzero f hi
      rw [hin f hi, block_in hi]; omega
    · rw [hout f hi, block_not_in hi]; omega
  · change s.refcount f ≤ R f + block b o f + owed k f
    have hall := h.noMore hx f
    by_cases hi : In b o f
    · rw [hin f hi, block_in hi]; omega
    · rw [hout f hi, block_not_in hi]; omega
  · change s.refcount f = 0 at hf
    have hn : ¬ In b o f := fun hi => by rw [hin f hi] at hf; cases hf
    exact ((hal.free f).1 (h.unheld hx f (hout f hn ▸ hf))).resolve_left hn
  · -- the blocks of the heap were no free frames
    refine { h.heap x hx with sole := fun f hf => ?_ }
    have h1 := (h.heap x hx).sole f hf
    exact (hout f fun hi => by have := hzero f hi; omega).trans h1
  · have := h.held f
    exact (hout f fun hi => by have := hzero f hi; omega).le

theorem KernOK.allocNone (h : KernOK strict R k) (ha : k.alloc o = (none, k')) :
    KernOK strict R k' ∧ Spares R k k' := by
  rcases alloc_cases h.pmm o with he | ⟨b', s, he, hs, hal⟩
  · rw [he] at ha
    cases ha
    exact ⟨h.same rfl rfl rfl, .same rfl rfl⟩
  · rw [he] at ha; cases ha

/-- There are `n` frames, and the next `n` allocations are not made to fail. -/
structure Supply (n : ℕ) (k : Kernel) : Prop where
  free : n ≤ k.pmm.totalFree
  uninjected : ∀ i < n, k.pmmFail (k.allocs + i) = false

theorem findOrder_none : ∀ {n found : ℕ}, s.findOrder n found = none →
    ∀ o, found ≤ o → o < found + n → s.freeLists o = 0 := by
  intro n
  induction n with
  | zero => intro found _ o h1 h2; omega
  | succ n ih =>
    intro found h o h1 h2
    unfold Pmm.findOrder at h
    split at h
    · cases h
    · rename_i h0
      rcases Nat.eq_or_lt_of_le h1 with rfl | hlt
      · exact not_not.1 h0
      · exact ih h o hlt (by omega)

/-- While a frame is free, an allocation of one finds it. -/
theorem allocLocked_some (hs : PmmOK s) (h : 0 < s.totalFree) : (s.allocLocked 0).1 ≠ 0 := by
  classical
  rw [hs.totalFree_eq_card, Finset.card_pos] at h
  obtain ⟨f, hf⟩ := h
  obtain ⟨o, ho, b, hb, -⟩ := (Finset.mem_filter.1 hf).2
  obtain ⟨L, hl, -⟩ := hs.lists
  have hne : s.freeLists o ≠ 0 := fun h0 => by
    have hmem := (hl.rep.order o ho b).2 hb
    rw [(hl.rep.links o ho).head_eq_null.1 h0] at hmem
    exact not_mem_nil hmem
  unfold Pmm.allocLocked
  rw [if_neg (by decide)]
  cases hfind : s.findOrder (maxOrder + 1 - 0) 0 with
  | none => exact absurd (findOrder_none hfind o (by omega) (by omega)) hne
  | some found => exact frameToPhys_ne_zero (findOrder_spec hfind).2.2

theorem Supply.alloc (hs : Supply (n + 1) k) (hk : PmmOK k.pmm) : ∃ f k', k.alloc 0 = (some f, k') ∧ Supply n k' := by
  have hu : k.pmmFail k.allocs = false := hs.uninjected 0 (by omega)
  have hne := allocLocked_some hk (by have := hs.free; omega)
  rcases alloc_cases hk 0 with he | ⟨b, s, he, hok, ha⟩
  · refine absurd ?_ hne
    have h1 : (k.alloc 0).1 = none := by rw [he]
    unfold Kernel.alloc pmmAlloc at h1
    rw [hu] at h1
    simpa using h1
  · refine ⟨b, _, he, ?_, fun i hi => ?_⟩
    · have := hs.free; have := ha.totalFree
      change n ≤ s.totalFree
      omega
    · have := hs.uninjected (i + 1) (by omega)
      rwa [show k.allocs + (i + 1) = k.allocs + 1 + i by omega] at this

/-! ## Sharing and freeing -/

theorem share_refcount (hk : PmmOK k.pmm) (h0 : 0 < k.pmm.refcount f) (hlt : k.pmm.refcount f < 65535)
    (x : ℕ) : (k.share f).pmm.refcount x = k.pmm.refcount x + one f x := by
  change (pmmFrameShare k.pmm (frameToPhys f)).refcount x = _
  rw [(share_spec hk h0 hlt).2]
  by_cases hx : x = f
  · subst hx; rw [Function.update_self, one_self]
  · rw [Function.update_of_ne hx, one_of_ne hx, Nat.add_zero]

/-- What somebody else refers to is in no block of the heap. -/
theorem KernOK.not_heap (h : KernOK strict R k) (hf : R f ≠ 0) (hy : y ∈ k.heap) : ¬ In y.frame y.order f := by
  intro hin
  have hle : block y.frame y.order f ≤ heapRefs k f := single_le_sum (fun _ _ => Nat.zero_le _) _ (mem_map_of_mem hy)
  rw [block_in hin] at hle
  have hheld := h.held f
  have h1 := (h.heap y hy).sole f hin
  unfold owed at hheld
  omega

theorem KernOK.share (h : KernOK strict R k) (hR : R f ≠ 0) (hlt : k.pmm.refcount f < 65535) :
    KernOK strict (fun x => R x + one f x) (k.share f) := by
  have h0 : 0 < k.pmm.refcount f := by have := h.held f; omega
  have hrc := share_refcount h.pmm h0 hlt
  refine ⟨(share_spec h.pmm h0 hlt).1, fun x => ?_, fun hx x => ?_, fun hx x h0 => ?_, h.waiting, fun y hy => ?_⟩
  · change R x + one f x + owed k x ≤ _
    have := h.held x
    rw [hrc]; omega
  · change _ ≤ R x + one f x + owed k x
    have := h.noMore hx x
    rw [hrc]; omega
  · rw [hrc] at h0
    exact h.unheld hx x (by omega)
  · refine { h.heap y hy with sole := fun x hx => ?_ }
    have hne : x ≠ f := by
      rintro rfl
      exact h.not_heap hR hy hx
    rw [hrc, one_of_ne hne]
    exact (h.heap y hy).sole x hx

/-- **`pmm_free`** of a block somebody holds; of a larger block only when nobody else
holds any of its frames. -/
theorem KernOK.free (h : KernOK strict (fun x => R x + block b o x) k) (ho : o ≤ maxOrder) (ha : 2 ^ o ∣ b)
    (h0 : b ≠ 0) (hr : b + 2 ^ o ≤ maxFrames) (hsole : o = 0 ∨ ∀ x, In b o x → k.pmm.refcount x = 1) :
    KernOK strict R (k.free b o) ∧ Spares R k (k.free b o) := by
  have href : ∀ x, In b o x → 0 < k.pmm.refcount x := fun x hx => by
    have := h.held x; have := block_in hx; omega
  have hheap : ∀ y ∈ k.heap, ∀ x, In y.frame y.order x → ¬ In b o x := fun y hy x hx hi =>
    h.not_heap (by have := block_in hi; omega) hy hx
  obtain ⟨hok, hfr⟩ := freeLocked_spec h.pmm ho ha h0 hr href
  have hin : ∀ x, In b o x → (k.free b o).pmm.refcount x = k.pmm.refcount x - 1 := fun x hx => by
    change (k.pmm.freeLocked (frameToPhys b) o).refcount x = _
    rw [hfr.refcount, mapBlock_in _ _ hx]
  have hout : ∀ x, ¬ In b o x → (k.free b o).pmm.refcount x = k.pmm.refcount x := fun x hx => by
    change (k.pmm.freeLocked (frameToPhys b) o).refcount x = _
    rw [hfr.refcount, mapBlock_not_in _ _ hx]
  refine ⟨⟨hok, fun x => ?_, fun hs x => ?_, fun hs x hx => ?_, h.waiting, fun y hy => ?_⟩, fun _ _ => rfl,
    fun x _ => ?_⟩
  · change R x + owed k x ≤ _
    have := h.held x
    by_cases hi : In b o x
    · rw [hin x hi]; have := block_in hi; omega
    · rw [hout x hi]; omega
  · change _ ≤ R x + owed k x
    have := h.noMore hs x
    by_cases hi : In b o x
    · rw [hin x hi]; have := block_in hi; omega
    · rw [hout x hi]; have := block_not_in hi; omega
  · change FreeFrame (k.pmm.freeLocked (frameToPhys b) o) x
    by_cases hi : In b o x
    · -- it was the last reference to the block
      have hall : ∀ y, In b o y → k.pmm.refcount y = 1 := by
        rcases hsole with rfl | hs
        · intro y hy
          rw [in_zero] at hy hi
          have := href x (in_zero.2 hi)
          rw [hin x (in_zero.2 hi)] at hx
          rw [hy, ← hi]; omega
        · exact hs
      exact ((hfr.last hall).1 x).2 (.inl hi)
    · rw [hout x hi] at hx
      by_cases hall : ∀ y, In b o y → k.pmm.refcount y = 1
      · exact ((hfr.last hall).1 x).2 (.inr (h.unheld hs x hx))
      · push Not at hall
        exact ((hfr.shared hall).1 x).2 (h.unheld hs x hx)
  · exact { h.heap y hy with sole := fun x hx => (hout x (hheap y hy x hx)).trans ((h.heap y hy).sole x hx) }
  · by_cases hi : In b o x
    · rw [hin x hi]; omega
    · rw [hout x hi]

theorem KernOK.freeBlock (h : KernOK strict (fun x => R x + block b o x) k) (hb : BlockOK k.pmm b o) :
    KernOK strict R (k.free b o) ∧ Spares R k (k.free b o) :=
  h.free hb.order hb.aligned hb.ne_zero hb.inRange (.inr hb.sole)

theorem KernOK.freeOne (h : KernOK strict (fun x => R x + one f x) k) (h0 : f ≠ 0) (hr : f < maxFrames) :
    KernOK strict R (k.free f 0) ∧ Spares R k (k.free f 0) :=
  KernOK.free (h.congr fun x => by rw [block_zero]) (by decide) (by simp) h0 (Nat.succ_le_of_lt hr) (.inl rfl)

/-! ## The deferred-free queue -/

theorem pending_cons (hq : (queue k).Perm (d :: queue k')) (x : ℕ) : pending k x = one d.frame x + pending k' x := by
  unfold pending one
  rw [hq.countP_eq, countP_cons]
  simp only [beq_iff_eq, eq_comm (a := x)]
  omega

theorem owed_cons (hq : (queue k).Perm (d :: queue k')) (hh : k'.heap = k.heap) (x : ℕ) :
    owed k x = one d.frame x + owed k' x := by
  unfold owed heapRefs
  rw [pending_cons hq, hh]
  omega

theorem KernOK.dequeue (h : KernOK strict R k) (k' : Kernel) (hp : k'.pmm = k.pmm) (hh : k'.heap = k.heap)
    (hq : (queue k).Perm (d :: queue k')) : KernOK strict (fun x => R x + one d.frame x) k' := by
  have hc := owed_cons hq hh
  refine ⟨hp ▸ h.pmm, fun x => ?_, fun hs x => ?_, hp ▸ h.unheld, fun d' hd => h.waiting d' (hq.symm.subset ?_), ?_⟩
  · have := h.held x; have := hc x; rw [hp]; omega
  · have := h.noMore hs x; have := hc x; rw [hp]; omega
  · exact mem_cons_of_mem _ hd
  · rw [hp, hh]; exact h.heap

theorem KernOK.enqueue (h : KernOK strict (fun x => R x + one d.frame x) k) (hp : k'.pmm = k.pmm)
    (hh : k'.heap = k.heap) (hq : (queue k').Perm (d :: queue k))
    (hd : d.order = 0 ∧ d.frame ≠ 0 ∧ d.frame < maxFrames) : KernOK strict R k' := by
  have hc := owed_cons hq hh.symm
  refine ⟨hp ▸ h.pmm, fun x => ?_, fun hs x => ?_, hp ▸ h.unheld, fun d' hd' => ?_, ?_⟩
  · have := h.held x; have := hc x; rw [hp]; omega
  · have := h.noMore hs x; have := hc x; rw [hp]; omega
  · rcases mem_cons.1 (hq.subset hd') with rfl | hm
    · exact hd
    · exact h.waiting d' hm
  · rw [hp, hh]; exact h.heap

/-! ## The heap -/

theorem owed_block (hq : queue k' = queue k) (hh : k.heap.Perm (y :: k'.heap)) (x : ℕ) :
    owed k x = owed k' x + block y.frame y.order x := by
  have hsum := (hh.map fun y => block y.frame y.order x).sum_eq
  rw [map_cons, sum_cons] at hsum
  unfold owed pending heapRefs
  rw [hsum, hq]
  omega

/-- The heap takes a block somebody holds. -/
theorem KernOK.heapTake (h : KernOK strict (fun x => R x + block y.frame y.order x) k) (hp : k'.pmm = k.pmm)
    (hq : queue k' = queue k) (hh : k'.heap.Perm (y :: k.heap))
    (hb : BlockOK k.pmm y.frame y.order) : KernOK strict R k' := by
  have hc := owed_block hq.symm hh
  refine ⟨hp ▸ h.pmm, fun x => ?_, fun hs x => ?_, hp ▸ h.unheld, hq ▸ h.waiting, fun z hz => ?_⟩
  · have := h.held x; have := hc x; rw [hp]; omega
  · have := h.noMore hs x; have := hc x; rw [hp]; omega
  · rw [hp]
    rcases mem_cons.1 (hh.subset hz) with rfl | hz
    · exact hb
    · exact h.heap z hz

/-- The heap gives a block up. -/
theorem KernOK.heapGive (h : KernOK strict R k) {rest : List HeapBlock} (hh : k.heap.Perm (y :: rest)) :
    KernOK strict (fun x => R x + block y.frame y.order x) { k with heap := rest } := by
  have hc : ∀ x, owed k x = owed { k with heap := rest } x + block y.frame y.order x := owed_block rfl hh
  refine ⟨h.pmm, fun x => ?_, fun hs x => ?_, h.unheld, h.waiting, fun z hz => ?_⟩
  · have := h.held x; have := hc x; dsimp only; omega
  · have := h.noMore hs x; have := hc x; dsimp only; omega
  · exact h.heap z (hh.symm.subset (mem_cons_of_mem _ hz))

theorem KernOK.kmalloc (h : KernOK strict R k) : KernOK strict R k.kmalloc.2 ∧ Spares R k k.kmalloc.2 := by
  have hstart : KernOK strict R { k with kmallocs := k.kmallocs + 1 } := h.same rfl rfl rfl
  have hend := kmalloc_cases k
  generalize k.kmalloc = r at hend
  cases hend with
  | slot => exact ⟨hstart, .same rfl rfl⟩
  | failed _ ha =>
    obtain ⟨hok, hsp⟩ := hstart.allocNone ha
    exact ⟨hok, hsp.after rfl rfl⟩
  | block _ ha =>
    have hf := hstart.alloc ha
    exact ⟨.heapTake (y := ⟨_, _, _, _⟩) hf.ok rfl rfl (.refl _) hf.toBlockOK, ⟨hf.spares.mem, hf.spares.le⟩⟩

theorem perm_eraseP {q : α → Bool} {y : α} (h : l.find? q = some y) : l.Perm (y :: l.eraseP q) := by
  obtain ⟨hy, as, bs, rfl, hno⟩ := find?_eq_some_iff_append.1 h
  rw [eraseP_append_right _ fun z hz => by simpa using hno z hz, eraseP_cons_of_pos hy]
  exact perm_middle

theorem KernOK.kfree (h : KernOK strict R k) (n : ℕ) : KernOK strict R (k.kfree n) ∧ Spares R k (k.kfree n) := by
  unfold Kernel.kfree
  split
  · exact ⟨h, .refl R k⟩
  rename_i x hx
  have hout := h.heapGive (perm_eraseP hx)
  obtain ⟨hok, hsp⟩ := hout.freeBlock (h.heap x (mem_of_find?_eq_some hx))
  exact ⟨hok, hsp.after rfl rfl⟩

theorem KernOK.idle (h : KernOK strict R k) (hi : Idle k k') : KernOK strict R k' ∧ Spares R k k' := by
  induction hi with
  | refl => exact ⟨h, .refl R k⟩
  | kmalloc _ ih => exact ⟨ih.1.kmalloc.1, ih.2.trans ih.1.kmalloc.2⟩
  | kfree _ n ih => exact ⟨(ih.1.kfree n).1, ih.2.trans (ih.1.kfree n).2⟩
  | refused _ ha ih => exact ⟨(ih.1.allocNone ha).1, ih.2.trans (ih.1.allocNone ha).2⟩

/-! ## Deferred frees -/

/-- The queue takes `n` more entries: the array has room for them, or the heap has slots
for the nodes from here on. -/
def Room (n : ℕ) (k : Kernel) : Prop :=
  n ≠ 0 → k.deferred.length + n ≤ Kernel.deferMax ∨ ∀ m, k.kmallocs ≤ m → k.heapNeed m = none

theorem Room.le {m : ℕ} (h : Room n k) (hm : m ≤ n) : Room m k := fun h0 =>
  (h (by omega)).imp (by omega) id

theorem Room.deferFree (h : Room (n + 1) k) (d : Deferred) : Room n (k.deferFree d) := by
  unfold Room Kernel.deferFree at *
  intro h0
  rcases h (by omega) with h | h
  · rw [if_pos (by omega)]
    left
    simp only [length_append, length_singleton]
    omega
  · right
    split
    · exact h
    · have hk := Still.kmalloc k
      have hrest : ∀ m, k.kmalloc.2.kmallocs ≤ m → k.kmalloc.2.heapNeed m = none := fun m hm => by
        rw [hk.heapNeed]
        exact h m (hk.kmallocs.trans hm)
      dsimp only
      split <;> exact hrest

theorem Room.still (h : Room n k) (hi : Still k k') : Room n k' := fun h0 => by
  rw [hi.deferred, hi.heapNeed]
  exact (h h0).imp id fun h m hm => h m (hi.kmallocs.trans hm)

theorem Room.idle (h : Room n k) (hi : Idle k k') : Room n k' := h.still hi.still

/-- **`tlb_defer_free`** takes the reference; without room it is lost. -/
theorem KernOK.deferFree (h : KernOK strict (fun x => R x + one d.frame x) k)
    (hd : d.order = 0 ∧ d.frame ≠ 0 ∧ d.frame < maxFrames) (hroom : strict → Room 1 k) :
    KernOK strict R (k.deferFree d) ∧ Spares R k (k.deferFree d) := by
  obtain ⟨hk, hsp⟩ := h.kmalloc
  have hsp : Spares R k k.kmalloc.2 := hsp.mono fun x => Nat.le_add_right _ _
  unfold Kernel.deferFree
  split
  · refine ⟨h.enqueue rfl rfl ?_ hd, .same rfl rfl⟩
    change (k.deferred ++ [d] ++ k.overflow).Perm _
    rw [append_assoc]
    exact perm_middle
  rename_i hfull
  dsimp only
  split
  · exact ⟨hk.enqueue rfl rfl perm_middle hd, ⟨hsp.mem, hsp.le⟩⟩
  rename_i hno
  refine ⟨hk.le (fun x => by omega) fun hs => absurd (hroom hs (by decide)) ?_, hsp⟩
  rintro (hr | hr)
  · omega
  · exact hno (by simp [Kernel.kmalloc, hr _ le_rfl])

theorem swap_remove_perm {i : ℕ} {d : α} (hi : l[i]? = some d) :
    l.Perm (d :: (l.set i (l.getLastD d)).dropLast) := by
  obtain ⟨hlt, rfl⟩ := List.getElem?_eq_some_iff.1 hi
  rcases eq_nil_or_concat' l with rfl | ⟨init, z, rfl⟩
  · exact absurd hlt (by simp)
  have hlast : (init ++ [z]).getLastD ((init ++ [z])[i]) = z := by simp
  rw [hlast]
  by_cases hin : i < init.length
  · rw [set_append_left _ _ hin, dropLast_concat, getElem_append_left hin]
    have h1 := (getElem_cons_eraseIdx_perm hin).symm
    have h2 := set_perm_cons_eraseIdx hin z
    have h3 : (init ++ [z]).Perm (init[i] :: z :: init.eraseIdx i) :=
      (perm_append_singleton z init).trans ((h1.cons z).trans (List.Perm.swap _ _ _))
    exact h3.trans (h2.symm.cons _)
  · have he : i = init.length := by simp at hlt; omega
    subst he
    rw [set_append_right _ _ le_rfl, Nat.sub_self, set_cons_zero, dropLast_concat]
    simp

theorem KernOK.flushArray (pml4 fuel : ℕ) : ∀ (i : ℕ) (k : Kernel), KernOK strict R k →
    KernOK strict R (.flushArray pml4 fuel i k) ∧ Spares R k (.flushArray pml4 fuel i k) := by
  induction fuel with
  | zero => exact fun _ k h => ⟨h, .refl R k⟩
  | succ fuel ih =>
    intro i k h
    unfold Kernel.flushArray
    split
    · exact ⟨h, .refl R k⟩
    rename_i d hd
    split
    · obtain ⟨ho, h0, hr⟩ := h.waiting d (mem_append_left _ (mem_of_getElem? hd))
      rw [ho]
      obtain ⟨hok, hsp⟩ := (h.dequeue { k with deferred := (k.deferred.set i (k.deferred.getLastD d)).dropLast }
          rfl rfl ((swap_remove_perm hd).append_right k.overflow)).freeOne h0 hr
      obtain ⟨hok', hsp'⟩ := ih i _ hok
      exact ⟨hok', (hsp.trans hsp').after (k := k) rfl rfl⟩
    · exact ih _ _ h

theorem KernOK.flushOverflow (pml4 : ℕ) (ds : List Deferred) : ∀ (keep : List Deferred) (k : Kernel),
    KernOK strict R { k with overflow := keep ++ ds ++ k.overflow } →
    KernOK strict R (.flushOverflow pml4 ds keep k) ∧
        Spares R k (.flushOverflow pml4 ds keep k) := by
  induction ds with
  | nil =>
    intro keep k h
    rw [append_nil] at h
    exact ⟨h, .same rfl rfl⟩
  | cons d ds ih =>
    intro keep k h
    have hperm : (keep ++ d :: ds ++ k.overflow).Perm (d :: (keep ++ ds ++ k.overflow)) :=
      perm_middle.append_right k.overflow
    have hqueue : (k.deferred ++ (keep ++ d :: ds ++ k.overflow)).Perm
        (d :: (k.deferred ++ (keep ++ ds ++ k.overflow))) :=
      (hperm.append_left k.deferred).trans perm_middle
    have hd := h.waiting d (hqueue.symm.subset mem_cons_self)
    have hout := h.dequeue { k with overflow := keep ++ ds ++ k.overflow } (d := d) rfl rfl hqueue
    unfold Kernel.flushOverflow
    split
    · obtain ⟨ho, h0, hr⟩ := hd
      rw [ho]
      obtain ⟨hok, hsp⟩ := hout.freeOne h0 hr
      obtain ⟨hok', hsp'⟩ := ih keep (k.free d.frame 0) hok
      have hsp1 : Spares R k (k.free d.frame 0) := ⟨hsp.mem, hsp.le⟩
      exact ⟨hok', hsp1.trans hsp'⟩
    · exact ih (d :: keep) k (hout.enqueue rfl rfl perm_middle hd)

/-- **`tlb_flush_deferred`** turns queue entries into frees. -/
theorem KernOK.flushDeferred (h : KernOK strict R k) (pml4 : ℕ) :
    KernOK strict R (k.flushDeferred pml4) ∧ Spares R k (k.flushDeferred pml4) := by
  unfold Kernel.flushDeferred
  have hflush := KernOK.flushArray pml4 k.deferred.length 0 k h
  generalize Kernel.flushArray pml4 k.deferred.length 0 k = k1 at hflush ⊢
  obtain ⟨h1, hsp1⟩ := hflush
  obtain ⟨h2, hsp2⟩ := KernOK.flushOverflow pml4 k1.overflow [] { k1 with overflow := [] }
    (h1.same rfl (by unfold queue; simp) rfl)
  exact ⟨h2, hsp1.trans (hsp2.after rfl rfl)⟩

end NeoOS

import NeoOS.Proof.Pmm

/-!
# `pmm_init` builds a sound allocator

`Gives K e f`: the memory map entry `e` hands out the frame `f`. While the map is
read, a frame has been handed out exactly when it is free and has no references
(`InitOK`), so handing one out twice, or frame 0, is what must not happen:
`MapOK` is the condition on the memory map that excludes both.

* `initEntry_ok`: one entry.
* `pmmInit_ok`: the whole map.
-/

namespace NeoOS

open List
open Buddy (In)

variable {K : KernelImage} {s : Pmm} {e : MmapEntry} {F : ℕ → Prop} {f stop start : ℕ} {es : List MmapEntry}

/-- The whole frame `f` is available memory of `e` above 1 MiB, below 4 GiB and
outside the kernel image. -/
def Gives (K : KernelImage) (e : MmapEntry) (f : ℕ) : Prop :=
  e.type = 1 ∧ e.usable ≤ frameToPhys f ∧ frameToPhys (f + 1) ≤ e.regionEnd ∧
    (frameToPhys (f + 1) ≤ K.start ∨ K.stop ≤ frameToPhys f) ∧ f < maxFrames

/-- **The memory maps the allocator is sound for.** No available entry starts in
the last page of the address space (rounding its start up would wrap to frame 0)
unless it holds no whole frame, and no frame is given by two entries. -/
def MapOK (K : KernelImage) (es : List MmapEntry) : Prop :=
  (∀ e ∈ es, e.type = 1 → e.baseAddr + (frameSize - 1) < u64 ∨ e.regionEnd < frameSize) ∧
  es.Pairwise fun e e' => ∀ f, Gives K e f → ¬ Gives K e' f

/-- While the map is read: the frames `F` have been handed out. -/
structure InitOK (s : Pmm) (F : ℕ → Prop) : Prop where
  pmm : PmmOK s
  free : ∀ f, FreeFrame s f ↔ F f
  zero : ∀ f, F f → s.refcount f = 0
  one : ∀ f, ¬ F f → s.refcount f = 1

theorem in_zero {b : ℕ} : In b 0 f ↔ f = b := by unfold In; omega

theorem InitOK.congr {F' : ℕ → Prop} (hs : InitOK s F) (hF : ∀ f, F f ↔ F' f) : InitOK s F' :=
  ⟨hs.pmm, fun f => (hs.free f).trans (hF f), fun f h => hs.zero f ((hF f).2 h), fun f h => hs.one f fun h' => h ((hF f).1 h')⟩

theorem InitOK.free_one (hs : InitOK s F) (h0 : f ≠ 0) (hlt : f < maxFrames) (hf : ¬ F f) :
    InitOK (pmmFree s (frameToPhys f) 0) fun x => x = f ∨ F x := by
  have hone : ∀ x, In f 0 x → s.refcount x = 1 := by
    intro x hx; rw [in_zero.1 hx]; exact hs.one f hf
  obtain ⟨hok, hfr⟩ := freeLocked_spec hs.pmm (Nat.zero_le _) (one_dvd f) h0 hlt fun x hx => by rw [hone x hx]; exact one_pos
  obtain ⟨hfree, -⟩ := hfr.last hone
  refine ⟨hok, fun x => ?_, fun x hx => ?_, fun x hx => ?_⟩
  · change FreeFrame (s.freeLocked _ _) x ↔ _
    rw [hfree x, in_zero, hs.free]
  · change (s.freeLocked _ _).refcount x = 0
    rw [hfr.refcount]
    by_cases hxf : In f 0 x
    · rw [mapBlock_in _ _ hxf, hone x hxf]
    · rw [mapBlock_not_in _ _ hxf]
      exact hs.zero x (hx.resolve_left fun h => hxf (in_zero.2 h))
  · change (s.freeLocked _ _).refcount x = 1
    rw [not_or] at hx
    rw [hfr.refcount, mapBlock_not_in _ _ fun h => hx.1 (in_zero.1 h)]
    exact hs.one x hx.2

/-- The usable-frame counter is no part of the invariant. -/
theorem InitOK.setUsable (hs : InitOK s F) (n : ℕ) : InitOK { s with totalUsable := n } F := by
  obtain ⟨L, hl, ht⟩ := hs.pmm.lists
  exact ⟨⟨⟨L, ⟨⟨hl.rep.links, hl.rep.order⟩, hl.family, hl.noBuddies⟩, ht⟩, hs.pmm.unreferenced,
    hs.pmm.refcount_le⟩, hs.free, hs.zero, hs.one⟩

/-- The frames from `f` on that end by `stop`. -/
def Region (f stop x : ℕ) : Prop := f ≤ x ∧ frameToPhys (x + 1) ≤ stop ∧ x < maxFrames

theorem addRegionLoop_limit {phys : ℕ} (fuel : ℕ) (hlim : maxFrames ≤ physToFrame phys) :
    addRegionLoop stop fuel phys s = s := by
  cases fuel with
  | zero => rfl
  | succ fuel => unfold addRegionLoop; rw [if_pos hlim, ite_self]

theorem physToFrame_frameToPhys (f : ℕ) : physToFrame (frameToPhys f) = f := by
  simp [physToFrame, frameToPhys, frameSize]

/-- **The loop of `add_region`** hands out exactly the whole frames of its range. -/
theorem addRegionLoop_ok (fuel : ℕ) : ∀ {s F f}, InitOK s F → f ≠ 0 → maxFrames < fuel + f → (∀ x, Region f stop x → ¬ F x) →
    InitOK (addRegionLoop stop fuel (frameToPhys f) s) fun x => Region f stop x ∨ F x := by
  induction fuel with
  | zero =>
    intro s F f hs h0 hfuel hnew
    refine hs.congr fun x => ⟨.inr, fun h => h.resolve_left ?_⟩
    unfold Region; omega
  | succ fuel ih =>
    intro s F f hs h0 hfuel hnew
    by_cases hlim : maxFrames ≤ f
    · rw [addRegionLoop_limit _ (by rwa [physToFrame_frameToPhys])]
      refine hs.congr fun x => ⟨.inr, fun h => h.resolve_left ?_⟩
      unfold Region; omega
    have hadd : add64 (frameToPhys f) frameSize = frameToPhys (f + 1) := by
      have hsum : frameToPhys f + frameSize = frameToPhys (f + 1) := by
        unfold frameToPhys; ring
      rw [← hsum]
      refine add64_of_lt ?_
      unfold frameToPhys frameSize maxFrames u64 at *; omega
    unfold addRegionLoop
    rw [hadd, physToFrame_frameToPhys, if_neg hlim]
    split
    · rename_i hstop
      have hreg : Region f stop f := ⟨le_rfl, hstop, by omega⟩
      have hs1 := (hs.free_one h0 (by omega) (hnew f hreg)).setUsable (add64 (pmmFree s (frameToPhys f) 0).totalUsable 1)
      have hnew1 : ∀ x, Region (f + 1) stop x → ¬ (x = f ∨ F x) := by
        rintro x ⟨h1, h2, h3⟩ (rfl | h4)
        · omega
        · exact hnew x ⟨by omega, h2, h3⟩ h4
      refine (ih hs1 (by omega) (by omega) hnew1).congr fun x => ?_
      constructor
      · rintro (⟨h1, h2⟩ | rfl | h)
        · exact .inl ⟨by omega, h2⟩
        · exact .inl hreg
        · exact .inr h
      · rintro (⟨h1, h2⟩ | h)
        · rcases Nat.eq_or_lt_of_le h1 with h | h
          · exact .inr (.inl h.symm)
          · exact .inl ⟨h, h2⟩
        · exact .inr (.inr h)
    · rename_i hstop
      refine hs.congr fun x => ⟨.inr, fun h => h.resolve_left ?_⟩
      rintro ⟨h1, h2, -⟩
      refine hstop (le_trans ?_ h2)
      unfold frameToPhys frameSize; omega

/-- The whole frames of the byte range `[start, stop)` below the frame limit. -/
def Whole (start stop x : ℕ) : Prop :=
  start ≤ frameToPhys x ∧ frameToPhys (x + 1) ≤ stop ∧ x < maxFrames

/-- **`add_region`** on a range that does not start at 0 or in the last page. -/
theorem addRegion_ok (hs : InitOK s F) (h0 : 0 < start)
    (hlt : start + (frameSize - 1) < u64) (hnew : ∀ x, Whole start stop x → ¬ F x) :
    InitOK (addRegion s start stop) fun x => Whole start stop x ∨ F x := by
  set f := (start + (frameSize - 1)) / frameSize with hf
  have hreg : ∀ x, Region f (stop / frameSize * frameSize) x ↔ Whole start stop x := by
    intro x
    unfold Region Whole frameToPhys
    unfold frameSize at *
    omega
  have hf0 : f ≠ 0 := by unfold frameSize at *; omega
  unfold addRegion
  rw [add64_of_lt hlt]
  exact (addRegionLoop_ok (maxFrames + 1) hs hf0 (Nat.lt_add_right f (Nat.lt_succ_self _))
    fun x hx => hnew x ((hreg x).1 hx)).congr fun x => or_congr_left (hreg x)

theorem addRegion_empty (hstop : stop < frameSize) : addRegion s start stop = s := by
  have h0 : stop / frameSize * frameSize = 0 := by unfold frameSize at *; omega
  unfold addRegion addRegionLoop
  rw [h0]
  split
  · rename_i h
    rw [if_pos]
    -- only the last page of the address space ends at 0
    unfold add64 physToFrame frameSize maxFrames u64 at *
    omega
  · rfl

/-- **One entry of the memory map** hands out the frames it gives. -/
theorem initEntry_ok (hs : InitOK s F) (hwrap : e.type = 1 → e.baseAddr + (frameSize - 1) < u64 ∨ e.regionEnd < frameSize)
    (hnew : ∀ x, Gives K e x → ¬ F x) : InitOK (initEntry K s e) fun x => Gives K e x ∨ F x := by
  unfold initEntry
  split
  · rename_i ht
    exact hs.congr fun x => ⟨.inr, fun h => h.resolve_left fun hg => ht hg.1⟩
  rename_i ht
  rw [not_not] at ht
  have hu : 0x100000 ≤ e.usable ∧ e.baseAddr ≤ e.usable := by
    unfold MmapEntry.usable; split <;> omega
  have hK := K.lt
  have hKle := K.le
  by_cases hker : e.usable < K.stop ∧ e.regionEnd > K.start
  · rw [if_pos hker]
    obtain ⟨hk1, hk2⟩ := hker
    -- below the image, then above it
    have hlow : InitOK (if e.usable < K.start then addRegion s e.usable K.start else s)
        fun x => Whole e.usable K.start x ∨ F x := by
      split
      · refine addRegion_ok hs (by omega) (by unfold frameSize u64; omega) fun x hx => ?_
        exact hnew x ⟨ht, hx.1, hx.2.1.trans hk2.le, .inl hx.2.1, hx.2.2⟩
      · refine hs.congr fun x => ⟨.inr, fun h => h.resolve_left ?_⟩
        rintro ⟨h1, h2, -⟩
        unfold frameToPhys frameSize at *; omega
    have hgives : ∀ x, Gives K e x ↔ Whole e.usable K.start x ∨ (K.stop < e.regionEnd ∧ Whole K.stop (e.regionEnd) x) := by
      intro x
      unfold Gives Whole frameToPhys frameSize
      omega
    by_cases hgt : e.regionEnd > K.stop
    · simp only [if_pos hgt]
      refine (addRegion_ok hlow (by omega) (by unfold frameSize u64; omega) ?_).congr fun x => ?_
      · rintro x hx (h | h)
        · have h1 := h.2.1
          have h2 := hx.1
          unfold frameToPhys frameSize at h1 h2; omega
        · exact hnew x ((hgives x).2 (.inr ⟨hgt, hx⟩)) h
      · rw [hgives x]; tauto
    · simp only [if_neg hgt]
      exact hlow.congr fun x => by rw [hgives x]; tauto
  · rw [if_neg hker]
    have hgives : ∀ x, Gives K e x ↔ Whole e.usable (e.regionEnd) x := by
      intro x
      unfold Gives Whole frameToPhys frameSize
      omega
    rcases hwrap ht with hw | hw
    · have hlt : e.usable + (frameSize - 1) < u64 := by
        unfold MmapEntry.usable; split <;> unfold frameSize u64 at * <;> omega
      exact (addRegion_ok hs (by omega) hlt fun x hx => hnew x ((hgives x).2 hx)).congr fun x => or_congr_left (hgives x).symm
    · rw [addRegion_empty hw]
      refine hs.congr fun x => ⟨.inr, fun h => h.resolve_left fun hg => ?_⟩
      have := hg.2.2.1
      unfold frameToPhys frameSize at *; omega

theorem initEntries_ok (hm : MapOK K es) (hs : InitOK s F) (hnew : ∀ e ∈ es, ∀ x, Gives K e x → ¬ F x) :
    InitOK (es.foldl (initEntry K) s) fun x => (∃ e ∈ es, Gives K e x) ∨ F x := by
  induction es generalizing s F with
  | nil => simpa using hs
  | cons e es ih =>
    obtain ⟨hw, hp⟩ := hm
    rw [pairwise_cons] at hp
    have hs1 := initEntry_ok hs (hw e mem_cons_self) (hnew e mem_cons_self)
    have hm1 : MapOK K es := ⟨fun e' he' => hw e' (mem_cons_of_mem _ he'), hp.2⟩
    refine (ih hm1 hs1 ?_).congr fun x => ?_
    · rintro e' he' x hx (hg | hF)
      · exact hp.1 e' he' x hg hx
      · exact hnew e' (mem_cons_of_mem _ he') x hx hF
    · rw [exists_mem_cons_iff, or_left_comm, or_assoc]

/-- The allocator before the map is read: no frame is free. -/
theorem pmmReset_ok : InitOK pmmReset fun _ => False := by
  have hnf : ∀ f, ¬ FreeFrame pmmReset f := by
    rintro f ⟨o, ho, b, hb, -⟩
    change orderNone = o at hb
    unfold orderNone maxOrder at *; omega
  refine ⟨⟨⟨fun _ => [], ⟨⟨fun o _ => rfl, fun o ho b => ?_⟩, ⟨?_, ?_, ?_, ?_, ?_⟩, ?_⟩, ?_⟩, ?_, ?_⟩, ?_, ?_, ?_⟩
  · change b ∈ [] ↔ orderNone = o
    unfold orderNone maxOrder at *
    simp only [not_mem_nil, false_iff]; omega
  · simp
  · simp
  · simp
  · simp
  · simp
  · intro o _ b hb; simp at hb
  · simp [pmmReset, Buddy.size]
  · exact fun f hf => absurd hf (hnf f)
  · intro f; change 1 ≤ 65535; decide
  · exact fun f => ⟨fun hf => hnf f hf, False.elim⟩
  · exact fun f hf => hf.elim
  · intro f _; rfl

end NeoOS

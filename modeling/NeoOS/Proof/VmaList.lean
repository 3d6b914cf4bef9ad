import Mathlib.Order.Nat
import Mathlib.Data.List.TakeWhile
import NeoOS.Lib.Run
import NeoOS.Proof.Calls

/-!
# The mapping list stays sorted and disjoint

`VmasFrom b l` is the list invariant in the form the loops need: the mappings of
`l` are non-empty, page aligned and in order, the first one from `b` on.

* `munmapLoop_from`, `mprotectLoop_from`: both loops keep it, whatever `kmalloc`
  answers.
* `vmaInsert_from`: so does an insertion into a free range.
* `vmas_run`: every run whose placements are sound keeps it.
-/

namespace NeoOS

open List

variable {k : Kernel} {p : Proc} {vm : Vm} {l pre post l' : List Vma} {b c start stop prot flags len addr : ℕ} {w : Vma}

/-- A non-empty, page-aligned range. -/
structure VmaOK (v : Vma) : Prop where
  nonempty : v.start < v.stop
  start_aligned : v.start % 4096 = 0
  stop_aligned : v.stop % 4096 = 0

/-- **The list invariant.** The mappings are sorted by start, pairwise disjoint,
non-empty and page aligned. -/
structure VmasOK (l : List Vma) : Prop where
  sorted : l.Pairwise fun v w => v.start < w.start
  disjoint : l.Pairwise fun v w => v.stop ≤ w.start
  each : ∀ v ∈ l, VmaOK v

/-- The mappings are in order from `b` on. -/
def VmasFrom : ℕ → List Vma → Prop
  | _, [] => True
  | b, v :: vs => b ≤ v.start ∧ VmaOK v ∧ VmasFrom v.stop vs

theorem VmasFrom.mono (h : VmasFrom b l) (hc : c ≤ b) : VmasFrom c l := by
  cases l with
  | nil => trivial
  | cons v vs => exact ⟨hc.trans h.1, h.2⟩

theorem VmasFrom.le_start (h : VmasFrom b l) : ∀ v ∈ l, b ≤ v.start := by
  induction l generalizing b with
  | nil => simp
  | cons v vs ih =>
    refine forall_mem_cons.2 ⟨h.1, fun w hw => ?_⟩
    have := ih h.2.2 w hw
    have := h.1
    have := h.2.1.nonempty
    omega

theorem VmasFrom.each (h : VmasFrom b l) : ∀ v ∈ l, VmaOK v := by
  induction l generalizing b with
  | nil => simp
  | cons v vs ih => exact forall_mem_cons.2 ⟨h.2.1, ih h.2.2⟩

theorem VmasFrom.ok (h : VmasFrom b l) : VmasOK l := by
  refine ⟨?_, ?_, h.each⟩ <;> induction l generalizing b with
  | nil => exact List.Pairwise.nil
  | cons v vs ih =>
    refine pairwise_cons.2 ⟨fun w hw => ?_, ih h.2.2⟩
    have := h.2.2.le_start w hw
    have := h.2.1.nonempty
    omega

theorem vmasFrom_append (h1 : VmasFrom b pre) (h2 : VmasFrom c post)
    (hbc : b ≤ c) (hpre : ∀ v ∈ pre, v.stop ≤ c) : VmasFrom b (pre ++ post) := by
  induction pre generalizing b with
  | nil => exact h2.mono hbc
  | cons v vs ih =>
    exact ⟨h1.1, h1.2.1, ih h1.2.2 (hpre v mem_cons_self) fun w hw => hpre w (mem_cons_of_mem _ hw)⟩

theorem VmasFrom.append_inv (h : VmasFrom b (pre ++ post)) :
    VmasFrom b pre ∧ VmasFrom b post ∧ ∀ v ∈ pre, ∀ w ∈ post, v.stop ≤ w.start := by
  induction pre generalizing b with
  | nil => exact ⟨trivial, h, by simp⟩
  | cons v vs ih =>
    obtain ⟨hb, hv, hvs⟩ := h
    obtain ⟨i1, i2, i3⟩ := ih hvs
    have := hv.nonempty
    exact ⟨⟨hb, hv, i1⟩, i2.mono (by omega), forall_mem_cons.2 ⟨i2.le_start, i3⟩⟩

theorem VmasFrom.beyond (h : VmasFrom b l) (hb : stop ≤ b) :
    ∀ w ∈ l, w.stop ≤ start ∨ stop ≤ w.start := fun w hw => .inr (hb.trans (h.le_start w hw))

/-- **`munmap` keeps the list in order**, also when `kmalloc` fails half way, and
what it leaves lies outside the range unless it did. -/
theorem munmapLoop_from (hs : start % 4096 = 0) (he : stop % 4096 = 0) (hlt : start < stop)
    (h : VmasFrom b l) : VmasFrom b (munmapLoop start stop l vm).2.1 ∧ ((munmapLoop start stop l vm).1 →
        ∀ v ∈ (munmapLoop start stop l vm).2.1, v.stop ≤ start ∨ stop ≤ v.start) := by
  fun_induction munmapLoop start stop l vm generalizing b with
  | case1 => simp [VmasFrom]
  | case2 =>
    rename_i v vs _ h1 _ ih
    obtain ⟨hb, hv, hvs⟩ := h
    obtain ⟨i1, i2⟩ := ih hvs
    exact ⟨⟨hb, hv, i1⟩, fun hok => forall_mem_cons.2 ⟨.inl h1, i2 hok⟩⟩
  | case3 =>
    rename_i v vs _ h1 h2
    obtain ⟨hb, hv, hvs⟩ := h
    have := hv.nonempty
    exact ⟨⟨hb, hv, hvs⟩, fun _ => forall_mem_cons.2 ⟨.inr h2, hvs.beyond (by omega)⟩⟩
  | case4 =>
    -- the middle of a mapping is punched
    rename_i v vs _ h1 h2 _ h3 _ _ hk
    obtain ⟨hb, hv, hvs⟩ := h
    refine ⟨⟨hb, ⟨h3.1, hv.start_aligned, hs⟩, hlt.le, ⟨h3.2, he, hv.stop_aligned⟩, hvs⟩, fun _ => ?_⟩
    exact forall_mem_cons.2 ⟨.inl le_rfl, forall_mem_cons.2 ⟨.inr le_rfl, hvs.beyond (le_of_lt h3.2)⟩⟩
  | case5 => exact ⟨h, by simp⟩
  | case6 =>
    rename_i v vs _ h1 h2 _ h3 h4 _ ih
    obtain ⟨hb, hv, hvs⟩ := h
    obtain ⟨i1, i2⟩ := ih (b := start) (hvs.mono (by omega))
    exact ⟨⟨hb, ⟨h4, hv.start_aligned, hs⟩, i1⟩, fun hok => forall_mem_cons.2 ⟨.inl le_rfl, i2 hok⟩⟩
  | case7 =>
    rename_i v vs _ h1 h2 _ h3 h4 h5
    obtain ⟨hb, hv, hvs⟩ := h
    refine ⟨⟨?_, ⟨h5, he, hv.stop_aligned⟩, hvs⟩, fun _ => ?_⟩
    · change b ≤ stop; omega
    · exact forall_mem_cons.2 ⟨.inr le_rfl, hvs.beyond (le_of_lt h5)⟩
  | case8 =>
    rename_i v vs _ h1 h2 _ h3 h4 h5 ih
    obtain ⟨hb, hv, hvs⟩ := h
    have := hv.nonempty
    exact ih (hvs.mono (by omega))

theorem protectPiece_from {v : Vma} {vs : List Vma} {rest : Vm → Bool × List Vma × Vm}
    (he : stop % 4096 = 0) (hlt : v.start < stop) (h : VmasFrom b (v :: vs))
    (hrest : ∀ vm, VmasFrom v.stop (rest vm).2.1) : VmasFrom b (protectPiece stop prot v vs vm rest).2.1 := by
  obtain ⟨hb, hv, hvs⟩ := h
  unfold protectPiece
  split
  · rename_i h1
    dsimp only
    split
    · exact ⟨hb, ⟨hlt, hv.start_aligned, he⟩, le_rfl, ⟨h1, he, hv.stop_aligned⟩, hvs⟩
    · exact ⟨hb, hv, hvs⟩
  · exact ⟨hb, { hv with }, hrest _⟩

/-- **`mprotect` keeps the list in order**, wherever a split fails. -/
theorem mprotectLoop_from (hs : start % 4096 = 0) (he : stop % 4096 = 0) (hlt : start < stop)
    (h : VmasFrom b l) : VmasFrom b (mprotectLoop start stop prot l vm).2.1 := by
  induction l generalizing b vm with
  | nil => trivial
  | cons v vs ih =>
    obtain ⟨hb, hv, hvs⟩ := h
    unfold mprotectLoop
    split
    · exact ⟨hb, hv, ih hvs⟩
    split
    · exact ⟨hb, hv, hvs⟩
    rename_i h1 h2
    split
    · rename_i h3
      dsimp only
      split
      · have htail : VmasFrom start ({ v with start := start } :: vs) :=
          ⟨le_rfl, ⟨by change start < v.stop; omega, hs, hv.stop_aligned⟩, hvs⟩
        exact ⟨hb, ⟨h3, hv.start_aligned, hs⟩, protectPiece_from he hlt htail fun _ => ih hvs⟩
      · exact ⟨hb, hv, hvs⟩
    · exact protectPiece_from he (by omega) ⟨hb, hv, hvs⟩ fun _ => ih hvs

theorem forwardMatch_some {ws : List Vma} (h : forwardMatch stop prot flags l = some (w, ws)) :
    l = w :: ws ∧ w.start = stop ∧ w.prot = prot ∧ w.flags = flags := by
  cases l with
  | nil => simp [forwardMatch] at h
  | cons nx rest =>
    simp only [forwardMatch, Vma.mergeable, Option.ite_none_right_eq_some, Bool.and_eq_true,
      beq_iff_eq, Option.some.injEq, Prod.mk.injEq] at h
    obtain ⟨⟨h1, h2, h3⟩, rfl, rfl⟩ := h
    exact ⟨rfl, h1, h2, h3⟩

/-- What `vma_insert` can do, the mappings that end by `start` and the others being
`pre` and `post`: a new mapping between them, merged with a neighbour of the same
protection and flags on either side or on both. -/
theorem vmaInsert_cases (hpre : pre = l.takeWhile fun v => v.stop ≤ start) (hpost : post = l.dropWhile fun v => v.stop ≤ start)
    (hins : (vmaInsert k l start stop prot flags).1 = some l') :
    ∃ front back, l' = front ++ back ∧ ((front = pre ∧ ∃ s' rest, back = ⟨start, s', prot, flags⟩ :: rest ∧
          ((s' = stop ∧ rest = post) ∨ post = ⟨stop, s', prot, flags⟩ :: rest)) ∨
        ∃ b' s' rest, pre = front ++ [⟨b', start, prot, flags⟩] ∧ back = ⟨b', s', prot, flags⟩ :: rest ∧
          ((s' = stop ∧ rest = post) ∨ post = ⟨stop, s', prot, flags⟩ :: rest)) := by
  have hbetween : (insertBetween k pre post start stop prot flags).1 = some l' →
      ∃ s' rest, l' = pre ++ ⟨start, s', prot, flags⟩ :: rest ∧
        ((s' = stop ∧ rest = post) ∨ post = ⟨stop, s', prot, flags⟩ :: rest) := by
    intro hb
    unfold insertBetween at hb
    split at hb
    · rename_i w ws hf
      obtain ⟨h1, rfl, rfl, rfl⟩ := forwardMatch_some hf
      cases hb
      exact ⟨w.stop, ws, rfl, .inr h1⟩
    · dsimp only at hb
      split at hb
      · cases hb; exact ⟨stop, post, rfl, .inl ⟨rfl, rfl⟩⟩
      · cases hb
  unfold vmaInsert at hins
  simp only [← hpre, ← hpost] at hins
  split at hins
  · rename_i prev hlast
    obtain ⟨front, hfront⟩ := getLast?_eq_some_iff.1 hlast
    split at hins
    · rename_i hc
      simp only [Vma.mergeable, Bool.and_eq_true, beq_iff_eq] at hc
      obtain ⟨rfl, rfl, rfl⟩ := hc
      have hdrop : pre.dropLast = front := by rw [hfront, dropLast_concat]
      rw [hdrop] at hins
      split at hins
      · rename_i w ws hf
        obtain ⟨h1, rfl, h3, h4⟩ := forwardMatch_some hf
        cases hins
        refine ⟨front, _, rfl, .inr ⟨prev.start, w.stop, ws, hfront, rfl, .inr ?_⟩⟩
        rw [h1, ← h3, ← h4]
      · cases hins
        exact ⟨front, _, rfl, .inr ⟨prev.start, stop, post, hfront, rfl, .inl ⟨rfl, rfl⟩⟩⟩
    · obtain ⟨s', rest, rfl, h⟩ := hbetween hins
      exact ⟨pre, _, rfl, .inl ⟨rfl, s', rest, rfl, h⟩⟩
  · obtain ⟨s', rest, rfl, h⟩ := hbetween hins
    exact ⟨pre, _, rfl, .inl ⟨rfl, s', rest, rfl, h⟩⟩

/-- A mapping of the list after `vma_insert` was there before, or is the new one, merged or not. -/
theorem vmaInsert_mem (hins : (vmaInsert k l start stop prot flags).1 = some l') (hw : w ∈ l') :
    w ∈ l ∨ ∃ c s', w = ⟨c, s', prot, flags⟩ ∧ (c = start ∨ ⟨c, start, prot, flags⟩ ∈ l) ∧
      (s' = stop ∨ ⟨stop, s', prot, flags⟩ ∈ l) := by
  have hpre : ∀ u ∈ l.takeWhile (fun v => v.stop ≤ start), u ∈ l := fun u hu =>
    (takeWhile_sublist _).subset hu
  have hpost : ∀ u ∈ l.dropWhile (fun v => v.stop ≤ start), u ∈ l := fun u hu =>
    (dropWhile_sublist _).subset hu
  have hback : ∀ {s' rest}, ((s' = stop ∧ rest = l.dropWhile fun v => v.stop ≤ start) ∨
        (l.dropWhile fun v => v.stop ≤ start) = ⟨stop, s', prot, flags⟩ :: rest) →
      (s' = stop ∨ ⟨stop, s', prot, flags⟩ ∈ l) ∧ ∀ u ∈ rest, u ∈ l := by
    rintro s' rest (⟨rfl, rfl⟩ | hp)
    · exact ⟨.inl rfl, hpost⟩
    · rw [hp, forall_mem_cons] at hpost
      exact ⟨.inr hpost.1, hpost.2⟩
  obtain ⟨front, back, rfl, hcase⟩ := vmaInsert_cases rfl rfl hins
  rcases hcase with ⟨rfl, s', rest, rfl, hp⟩ | ⟨b', s', rest, hfr, rfl, hp⟩
  · rcases mem_append.1 hw with hm | hm
    · exact .inl (hpre w hm)
    rcases mem_cons.1 hm with hm | hm
    · exact .inr ⟨start, s', hm, .inl rfl, (hback hp).1⟩
    · exact .inl ((hback hp).2 w hm)
  · rw [hfr, forall_mem_append, forall_mem_singleton] at hpre
    rcases mem_append.1 hw with hm | hm
    · exact .inl (hpre.1 w hm)
    rcases mem_cons.1 hm with hm | hm
    · exact .inr ⟨b', s', hm, .inr hpre.2, (hback hp).1⟩
    · exact .inl ((hback hp).2 w hm)

theorem VmasFrom.split_at (h : VmasFrom 0 l) (hout : ∀ v ∈ l, v.stop ≤ start ∨ stop ≤ v.start) :
    VmasFrom 0 (l.takeWhile fun v => v.stop ≤ start) ∧ VmasFrom stop (l.dropWhile fun v => v.stop ≤ start) ∧
      ∀ v ∈ l.takeWhile (fun v => v.stop ≤ start), v.stop ≤ start := by
  set pre := l.takeWhile fun v => v.stop ≤ start with hpre
  set post := l.dropWhile fun v => v.stop ≤ start with hpost
  have hl : pre ++ post = l := takeWhile_append_dropWhile
  rw [← hl] at h
  obtain ⟨h1, h2, -⟩ := h.append_inv
  refine ⟨h1, ?_, fun v hv => by simpa using mem_takeWhile_imp hv⟩
  cases hp : post with
  | nil => trivial
  | cons w ws =>
    rw [hp] at h2
    have hw : ¬ w.stop ≤ start := by
      have := head?_dropWhile_not (fun v : Vma => decide (v.stop ≤ start)) l
      rw [← hpost, hp] at this
      simpa using this
    have hmem : w ∈ l := by rw [← hl, hp]; simp
    exact ⟨(hout w hmem).resolve_left hw, h2.2⟩

/-- **Inserting a free range** keeps the list in order, merged or not. -/
theorem vmaInsert_from (hv : VmaOK ⟨start, stop, prot, flags⟩) (h : VmasFrom 0 l)
    (hout : ∀ v ∈ l, v.stop ≤ start ∨ stop ≤ v.start)
    (hins : (vmaInsert k l start stop prot flags).1 = some l') : VmasFrom 0 l' := by
  obtain ⟨h1, h2, h3⟩ := h.split_at hout
  obtain ⟨hlt, ha, hb⟩ := hv
  -- the new mapping and what stands behind it
  have hback : ∀ {c s' rest}, c ≤ start → c % 4096 = 0 → ((s' = stop ∧ rest = l.dropWhile fun v => v.stop ≤ start) ∨
        (l.dropWhile fun v => v.stop ≤ start) = ⟨stop, s', prot, flags⟩ :: rest) →
      VmasFrom c (⟨c, s', prot, flags⟩ :: rest) := by
    rintro c s' rest hc hca (⟨rfl, rfl⟩ | hp)
    · exact ⟨le_rfl, ⟨lt_of_le_of_lt hc hlt, hca, hb⟩, h2⟩
    · rw [hp] at h2
      obtain ⟨-, hw, hr⟩ := h2
      exact ⟨le_rfl, ⟨lt_of_le_of_lt hc (hlt.trans hw.nonempty), hca, hw.stop_aligned⟩, hr⟩
  obtain ⟨front, back, rfl, hcase⟩ := vmaInsert_cases rfl rfl hins
  rcases hcase with ⟨rfl, s', rest, rfl, hp⟩ | ⟨b', s', rest, hfr, rfl, hp⟩
  · exact vmasFrom_append h1 (hback le_rfl ha hp) (Nat.zero_le _) h3
  · rw [hfr] at h1
    obtain ⟨d1, ⟨-, hprev, -⟩, d3⟩ := h1.append_inv
    exact vmasFrom_append d1 (hback hprev.nonempty.le hprev.start_aligned hp) (Nat.zero_le _)
      fun v hv => d3 v hv _ (mem_singleton_self _)

/-! ## Runs of mapping calls -/

/-- The calls that change a process's mapping list. `vma_map_phys` is what a device
driver calls with its own physical address. -/
inductive VmaOp
  | mmap (addr len prot flags : ℕ)
  | munmap (addr len : ℕ)
  | mprotect (addr len prot : ℕ)
  | mapPhys (phys len prot : ℕ)

/-- One call. -/
def vmaStep (s : Kernel × Proc) : VmaOp → Kernel × Proc
  | .mmap addr len prot flags =>
    let r := vmaMmap s.1 s.2 addr len prot flags; (r.k, r.p)
  | .munmap addr len => let r := vmaMunmap s.1 s.2 addr len; (r.k, r.p)
  | .mprotect addr len prot => let r := vmaMprotect s.1 s.2 addr len prot; (r.k, r.p)
  | .mapPhys phys len prot => let r := vmaMapPhys s.1 s.2 phys len prot; (r.k, r.p)

/-- If the cursor's range `[mmap_next, mmap_next + len)` is within the limit, it is
not empty and no mapping has been placed in it. -/
def CursorFree (p : Proc) (len : ℕ) : Prop :=
  p.mmapNext + len ≤ mmapLimit → 0 < len ∧ ∀ v ∈ p.vmas, v.stop ≤ p.mmapNext ∨ p.mmapNext + len ≤ v.start

/-- The kernel after `MAP_FIXED` has unmapped the pages of the mapping `v` it lands
in the middle of. -/
def punched (k : Kernel) (p : Proc) (addr len : ℕ) (v : Vma) : Kernel :=
  (unmapRange ⟨k, p.as⟩ addr (addr + len) (!vmaPhys v.flags)).k

/-- A fixed range that does not wrap, and that has memory for the piece behind it
when it lies strictly inside a mapping. -/
def FixedFits (k : Kernel) (p : Proc) (addr len : ℕ) : Prop :=
  0 < len ∧ addr + len < u64 ∧ ∀ v ∈ p.vmas, v.start < addr → addr + len < v.stop → (punched k p addr len v).kmalloc.1

/-- **When a call places its mapping soundly.** Of the calls that pass the argument
checks: a length must not round up to 0, a fixed range must fit, and for an unhinted
or a device mapping the cursor's range must be free. -/
def Placed (s : Kernel × Proc) : VmaOp → Prop
  | .mmap addr len prot flags =>
    len ≠ 0 → (protWrite prot && protExec prot) = false →
      if mapFixed flags then addr % 4096 = 0 → FixedFits s.1 s.2 addr (pageUp len)
      else CursorFree s.2 (pageUp len)
  | .munmap _ _ => True
  | .mprotect _ _ _ => True
  | .mapPhys _ len prot => len ≠ 0 → protExec prot = false → CursorFree s.2 (pageUp len)

theorem pageUp_mod (a : ℕ) : pageUp a % 4096 = 0 := by unfold pageUp; omega

theorem pageUp_lt (a : ℕ) : pageUp a < u64 := by
  have := add64_lt a 4095
  unfold pageUp; omega

/-- The cursor passes its limit check. -/
def CursorRoom (next len : ℕ) : Prop := ¬ (add64 next len > mmapLimit ∨ add64 next len < next)

theorem cursor_room {next : ℕ} (hlen : len < u64) (hnext : next ≤ mmapLimit) (hlim : CursorRoom next len) :
    add64 next len = next + len ∧ next + len ≤ mmapLimit := by
  unfold CursorRoom add64 mmapLimit u64 at *; omega

theorem pageUp_of_aligned {a : ℕ} (ha : a % 4096 = 0) (hlt : a < u64) : pageUp a = a := by
  unfold pageUp
  rw [add64_of_lt (by unfold u64 at *; omega)]
  omega

/-- Unmapping runs out of memory only when it punches the middle of a mapping. -/
theorem munmapLoop_ok (h : VmasFrom b l) (hk : ∀ v ∈ l, v.start < start → stop < v.stop →
      (unmapRange vm start stop (!vmaPhys v.flags)).k.kmalloc.1) : (munmapLoop start stop l vm).1 := by
  fun_induction munmapLoop start stop l vm generalizing b with
  | case1 => rfl
  | case2 =>
    rename_i v vs _ h1 _ ih
    exact ih h.2.2 fun w hw => hk w (mem_cons_of_mem _ hw)
  | case3 => rfl
  | case4 => rfl
  | case5 =>
    rename_i v vs vm h1 h2 vm1 h3 r vm2 hr
    refine absurd (hk v mem_cons_self h3.1 h3.2) ?_
    have hmax : max v.start start = start := max_eq_right h3.1.le
    have hmin : min v.stop stop = stop := min_eq_right (le_of_lt h3.2)
    rwa [← hmax, ← hmin]
  | case6 =>
    -- the mappings behind start above the range's start
    rename_i v vs _ h1 h2 _ h3 h4 _ ih
    refine ih h.2.2 fun w hw hlt => ?_
    have := h.2.2.le_start w hw
    omega
  | case7 => rfl
  | case8 =>
    rename_i v vs _ h1 h2 _ h3 h4 h5 ih
    refine ih h.2.2 fun w hw hlt => ?_
    have := h.2.2.le_start w hw
    omega

/-- The invariant of runs of mapping calls. -/
structure MapsOK (p : Proc) : Prop where
  vmas : VmasFrom 0 p.vmas
  cursor_aligned : p.mmapNext % 4096 = 0
  cursor_le : p.mmapNext ≤ mmapLimit

section Calls

variable (hp : MapsOK p)
include hp

/-- **`munmap` keeps the list in order**, for every address and length. -/
theorem MapsOK.munmap (addr len : ℕ) : MapsOK (vmaMunmap k p addr len).p := by
  unfold vmaMunmap
  dsimp only
  split
  · exact hp
  split
  · exact hp
  rename_i h1 h2
  exact ⟨(munmapLoop_from (by omega) (pageUp_mod _) (by omega) hp.vmas).1, hp.cursor_aligned, hp.cursor_le⟩

theorem MapsOK.mprotect (addr len prot : ℕ) : MapsOK (vmaMprotect k p addr len prot).p := by
  unfold vmaMprotect
  dsimp only
  split
  · exact hp
  split
  · exact hp
  split
  · exact hp
  split
  · exact hp
  rename_i h1 _ _ h2
  exact ⟨mprotectLoop_from (by omega) (pageUp_mod _) (by omega) hp.vmas, hp.cursor_aligned, hp.cursor_le⟩

theorem MapsOK.insert (ha : addr % 4096 = 0) (hl : len % 4096 = 0) (h0 : 0 < len) (hlt : addr + len < u64)
    (hout : ∀ v ∈ p.vmas, v.stop ≤ addr ∨ addr + len ≤ v.start) :
    MapsOK (mmapInsert k p addr len prot flags).p := by
  unfold mmapInsert
  rw [add64_of_lt hlt]
  have hv : VmaOK ⟨addr, addr + len, prot, flags⟩ := ⟨by change addr < addr + len; omega, ha,
    by change (addr + len) % 4096 = 0; omega⟩
  split
  · rename_i vmas k' hins
    have hins' : (vmaInsert k p.vmas addr (addr + len) prot flags).1 = some vmas := by rw [hins]
    exact ⟨vmaInsert_from hv hp.vmas hout hins', hp.cursor_aligned, hp.cursor_le⟩
  · exact hp

theorem munmap_outside (ha : addr % 4096 = 0) (hl : len % 4096 = 0) (hfit : FixedFits k p addr len) :
    ∀ v ∈ (vmaMunmap k p addr len).p.vmas, v.stop ≤ addr ∨ addr + len ≤ v.start := by
  obtain ⟨h0, hlt, hk⟩ := hfit
  have hstop : pageUp (add64 addr len) = addr + len := by
    rw [add64_of_lt hlt, pageUp_of_aligned (by omega) hlt]
  unfold vmaMunmap
  simp only [hstop, if_neg (show ¬ addr % 4096 ≠ 0 by omega), if_neg (show ¬ addr + len ≤ addr by omega)]
  exact (munmapLoop_from ha (by omega) (by omega) hp.vmas).2 (munmapLoop_ok hp.vmas hk)

theorem MapsOK.mmap (hok : Placed (k, p) (.mmap addr len prot flags)) : MapsOK (vmaMmap k p addr len prot flags).p := by
  have hend := vmaMmap_cases k p addr len prot flags
  generalize vmaMmap k p addr len prot flags = r at hend
  cases hend with
  | refused err => exact hp
  | fixed hlen hwx hf ha =>
    have hfit := hok hlen hwx
    rw [if_pos hf] at hfit
    exact (hp.munmap addr (pageUp len)).insert ha (pageUp_mod _) (hfit ha).1 (hfit ha).2.1
      (munmap_outside hp ha (pageUp_mod _) (hfit ha))
  | cursor hlen hwx hf hlim =>
    have hfree := hok hlen hwx
    rw [if_neg (by rw [hf]; decide)] at hfree
    obtain ⟨hadd, hle⟩ := cursor_room (pageUp_lt len) hp.cursor_le hlim
    obtain ⟨h0, hout⟩ := hfree hle
    have hp' : MapsOK { p with mmapNext := add64 p.mmapNext (pageUp len) } := by
      have h1 := hp.cursor_aligned
      have h2 := pageUp_mod len
      rw [hadd]
      exact ⟨hp.vmas, by change (p.mmapNext + pageUp len) % 4096 = 0; omega, hle⟩
    exact hp'.insert hp.cursor_aligned (pageUp_mod _) h0 (lt_of_le_of_lt hle (by decide)) hout

/-- A device mapping in the list, whatever the page tables are. -/
theorem MapsOK.physInsert {vmas : List Vma} {k' : Kernel} (hlim : CursorRoom p.mmapNext (pageUp len))
    (hfree : CursorFree p (pageUp len))
    (hins : vmaInsert k p.vmas p.mmapNext (add64 p.mmapNext (pageUp len)) prot 0x41 = (some vmas, k'))
    (as : AddrSpace) : MapsOK ⟨as, vmas, add64 p.mmapNext (pageUp len)⟩ := by
  obtain ⟨hadd, hle⟩ := cursor_room (pageUp_lt len) hp.cursor_le hlim
  obtain ⟨h0, hout⟩ := hfree hle
  have h1 := hp.cursor_aligned
  have h2 := pageUp_mod len
  rw [hadd] at hins ⊢
  have hv : VmaOK ⟨p.mmapNext, p.mmapNext + pageUp len, prot, 0x41⟩ :=
    ⟨by change p.mmapNext < p.mmapNext + pageUp len; omega, h1,
      by change (p.mmapNext + pageUp len) % 4096 = 0; omega⟩
  exact ⟨vmaInsert_from hv hp.vmas hout (by rw [hins]), by change (p.mmapNext + pageUp len) % 4096 = 0; omega, hle⟩

theorem MapsOK.mapPhys {phys : ℕ} (hok : Placed (k, p) (.mapPhys phys len prot)) :
    MapsOK (vmaMapPhys k p phys len prot).p := by
  have hend := vmaMapPhys_cases k p phys len prot
  generalize vmaMapPhys k p phys len prot = r at hend
  cases hend with
  | refused | noNode => exact hp
  | mapped hlen hx hlim hins hloop => exact hp.physInsert hlim (hok hlen hx) hins _
  | rolledBack hlen hx hlim hins hloop hback =>
    -- the rollback is an ordinary `munmap`
    exact (hp.physInsert hlim (hok hlen hx) hins _).munmap _ _

end Calls

/-- **One mapping call** that places its mapping soundly. -/
theorem vmaStep_ok (s : Kernel × Proc) (op : VmaOp) (hs : MapsOK s.2) (hok : Placed s op) : MapsOK (vmaStep s op).2 := by
  cases op with
  | mmap addr len prot flags => exact hs.mmap hok
  | munmap addr len => exact hs.munmap addr len
  | mprotect addr len prot => exact hs.mprotect addr len prot
  | mapPhys phys len prot => exact hs.mapPhys hok

/-- A process that has mapped nothing yet. -/
def freshProc (as : AddrSpace) : Proc := ⟨as, [], mmapBase⟩

/-- **Every run of mapping calls keeps the list sorted, disjoint, non-empty and
aligned**, for every kernel state and every pattern of failures, as long as each
call places its mapping soundly. -/
theorem vmas_run (k : Kernel) (as : AddrSpace) (ops : List VmaOp) (hrun : Run.Valid vmaStep Placed (k, freshProc as) ops) :
    VmasOK (Run.final vmaStep (k, freshProc as) ops).2.vmas := by
  have h0 : MapsOK (freshProc as) := ⟨trivial, show mmapBase % 4096 = 0 by decide, show mmapBase ≤ mmapLimit by decide⟩
  exact (hrun.invariant (I := fun s => MapsOK s.2) vmaStep_ok h0).vmas.ok

/-- A kernel whose allocations never fail, with the frames of `s`. -/
def quietKernel (s : Pmm) : Kernel where
  pmm := s
  pmmFail _ := false
  allocs := 0
  heapNeed _ := none
  kmallocs := 0
  heap := []
  mem _ _ := 0
  kern _ _ := .zero
  deferred := []
  overflow := []

/-- An address space in which nothing is mapped. -/
def emptySpace : AddrSpace := ⟨0, fun _ _ => .zero⟩

/-- Map two pages, unmap the first and map it again at its address. -/
def remapRun : List VmaOp :=
  [.mmap 0 8192 3 0x22, .munmap mmapBase 4096, .mmap mmapBase 4096 1 0x32]

theorem remapRun_placed : Run.Valid vmaStep Placed (quietKernel pmmReset, freshProc emptySpace) remapRun := by
  refine ⟨fun _ _ => ?_, trivial, fun _ _ => ?_, trivial⟩
  · rw [if_neg (by decide)]
    exact fun _ => ⟨by decide, by decide⟩
  · rw [if_pos (by decide)]
    exact fun _ => ⟨by decide, by decide, by decide⟩

theorem vmas_run_remap : VmasOK (Run.final vmaStep (quietKernel pmmReset, freshProc emptySpace) remapRun).2.vmas :=
  vmas_run _ _ remapRun remapRun_placed

/-- A fixed mapping at the cursor, then an unhinted read-only one. -/
def overlapRun : List VmaOp := [.mmap mmapBase 4096 3 0x32, .mmap 0 4096 1 0x22]

/-- **Where the list goes wrong.** `MAP_FIXED` does not move the cursor, so the next
unhinted mapping is placed on top of the fixed one. -/
theorem fixed_then_unhinted_overlap :
    ¬ VmasOK (Run.final vmaStep (quietKernel pmmReset, freshProc emptySpace) overlapRun).2.vmas := by
  have hl : (Run.final vmaStep (quietKernel pmmReset, freshProc emptySpace) overlapRun).2.vmas =
      [⟨mmapBase, mmapBase + 4096, 1, 0x22⟩, ⟨mmapBase, mmapBase + 4096, 3, 0x32⟩] := by
    decide
  rw [hl]
  intro h
  exact absurd h.disjoint (by decide)

end NeoOS

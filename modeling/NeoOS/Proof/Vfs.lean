import NeoOS.Lib.Update
import NeoOS.Spec.Vfs

/-!
# The vnode cache counts its holders

`CacheOK` is the shape of the cache: a slot in use is in the chain of its key, and no two have one key.
`Ext i s₀ s l` says that `s` is `s₀` with one more reference for each entry of `l`, the new vnodes being of
mount `i`; a walk goes through states of this form and ends with at most one reference in `l`
(`walk_ext`). `Dropped` is the same for a reference that is given up.
-/

namespace NeoOS.Vfs

open List
open Function (forall_update_iff update update_eq_self update_idem update_of_ne update_self)
open Update (mem_update_erase mem_update_push nodup_update)
open State (setVnode slabTake)

namespace State

/-- The references to a vnode, 0 for a slot that is not in use. -/
def refs (s : State) (v : ℕ) : ℕ := if s.used v then (s.vnodes v).refcount else 0

/-- The mount and the inode of a vnode. -/
def key (s : State) (v : ℕ) : Option ℕ × ℕ := ((s.vnodes v).mount, (s.vnodes v).inode)

end State

variable {s s₀ s' : State} {w : View} {v u i m inode n : ℕ} {l l' : List ℕ} {path : Path}

structure CacheOK (s : State) : Prop where
  slot : ∀ v, s.used v → v < 16 * s.slabCount
  live : ∀ v, s.used v →
    ∃ m, (s.vnodes v).mount = some m ∧ v ∈ s.buckets (s.bucketOf m (s.vnodes v).inode) ∧ 0 < (s.vnodes v).refcount
  chain : ∀ b, ∀ v ∈ s.buckets b, s.used v
  bucket : ∀ b v m, v ∈ s.buckets b → (s.vnodes v).mount = some m → s.bucketOf m (s.vnodes v).inode = b
  nodup : ∀ b, (s.buckets b).Nodup
  uniq : ∀ v u, s.used v → s.used u → s.key v = s.key u → v = u

theorem State.refs_of_used (h : s.used v) : s.refs v = (s.vnodes v).refcount := if_pos h

theorem State.used_of_refs (h : 0 < s.refs v) : s.used v := by
  by_contra hu
  unfold refs at h
  rw [if_neg hu] at h
  exact lt_irrefl 0 h

theorem CacheOK.refs_pos (hs : CacheOK s) (h : s.used v) : 0 < s.refs v := by
  obtain ⟨-, -, -, hpos⟩ := hs.live v h
  rwa [State.refs_of_used h]

theorem State.mem_slots (s : State) (v : ℕ) : v ∈ s.slots ↔ v < 16 * s.slabCount := by
  unfold slots vnodeSlabSize
  simp only [mem_flatMap, mem_reverse, mem_range, mem_map]
  constructor
  · rintro ⟨k, hk, i, hi, rfl⟩
    omega
  · intro h
    exact ⟨v / 16, by omega, v % 16, by omega, by omega⟩

/-! ## References that come -/

/-- `s` is `s₀` with the references `l` on top. -/
structure Ext (i : ℕ) (s₀ s : State) (l : List ℕ) : Prop where
  cache : CacheOK s
  refs : ∀ v, s.refs v = s₀.refs v + l.count v
  keep : ∀ v, 0 < s₀.refs v → s.key v = s₀.key v
  fresh : ∀ v, s₀.refs v = 0 → 0 < s.refs v → (s.vnodes v).mount = some i
  base : s.base = s₀.base
  mounts : s.mounts = s₀.mounts
  held : s.held = s₀.held
  files : s.files = s₀.files

theorem Ext.refl (hs : CacheOK s) (i : ℕ) : Ext i s s [] :=
  ⟨hs, fun _ => rfl, fun _ _ => rfl, fun v h0 hp => absurd hp (by omega), rfl, rfl, rfl, rfl⟩

theorem Ext.live (h : Ext i s₀ s l) (hv : 0 < s₀.refs v) : 0 < s.refs v := by
  rw [h.refs v]
  omega

theorem Ext.trans (h : Ext i s₀ s l) (h' : Ext i s s' l') : Ext i s₀ s' (l' ++ l) := by
  refine ⟨h'.cache, fun v => ?_, fun v hv => ?_, fun v h0 hp => ?_, h'.base.trans h.base, h'.mounts.trans h.mounts,
    h'.held.trans h.held, h'.files.trans h.files⟩
  · rw [h'.refs v, h.refs v, count_append]
    omega
  · rw [h'.keep v (h.live hv), h.keep v hv]
  · rcases Nat.eq_zero_or_pos (s.refs v) with hs | hs
    · exact h'.fresh v hs hp
    · have hkey := congrArg Prod.fst (h'.keep v hs)
      exact hkey.trans (h.fresh v h0 hs)

theorem Ext.perm (h : Ext i s₀ s l) (hp : l.Perm l') : Ext i s₀ s l' :=
  { h with refs := fun v => by rw [h.refs v, hp.count_eq] }

section Refs

variable (hs : CacheOK s)
include hs

theorem setRefs_spec (hv : s.used v) (hn : 0 < n) : CacheOK (s.setVnode v { s.vnodes v with refcount := n }) ∧
      (∀ u, (s.setVnode v { s.vnodes v with refcount := n }).key u = s.key u) ∧
      ∀ u, (s.setVnode v { s.vnodes v with refcount := n }).refs u = if u = v then n else s.refs u := by
  have hmount : ∀ u, (update s.vnodes v { s.vnodes v with refcount := n } u).mount = (s.vnodes u).mount :=
    (forall_update_iff s.vnodes fun u x => x.mount = (s.vnodes u).mount).2 ⟨rfl, fun _ _ => rfl⟩
  have hinode : ∀ u, (update s.vnodes v { s.vnodes v with refcount := n } u).inode = (s.vnodes u).inode :=
    (forall_update_iff s.vnodes fun u x => x.inode = (s.vnodes u).inode).2 ⟨rfl, fun _ _ => rfl⟩
  have hkey : ∀ u, (s.setVnode v { s.vnodes v with refcount := n }).key u = s.key u := by
    intro u
    exact Prod.ext (hmount u) (hinode u)
  refine ⟨⟨hs.slot, fun u hu => ?_, hs.chain, fun b u m hb hm => ?_, hs.nodup, fun u u' hu hu' hk => ?_⟩, hkey, fun u => ?_⟩
  · obtain ⟨m, hm, hb, hpos⟩ := hs.live u hu
    refine ⟨m, (hmount u).trans hm, ?_, ?_⟩
    · change u ∈ s.buckets (s.bucketOf m (update s.vnodes v _ u).inode)
      rw [hinode u]
      exact hb
    · change 0 < (update s.vnodes v _ u).refcount
      by_cases he : u = v
      · rw [he, update_self]
        exact hn
      · rw [update_of_ne he]
        exact hpos
  · change s.bucketOf m (update s.vnodes v _ u).inode = b
    rw [hinode u]
    exact hs.bucket b u m hb ((hmount u).symm.trans hm)
  · rw [hkey, hkey] at hk
    exact hs.uniq u u' hu hu' hk
  · by_cases he : u = v
    · simp [State.refs, setVnode, he, hv]
    · simp [State.refs, setVnode, he]

theorem ext_bump (hv : s.used v) (i : ℕ) :
    Ext i s (s.setVnode v { s.vnodes v with refcount := (s.vnodes v).refcount + 1 }) [v] := by
  obtain ⟨hok, hkey, hrefs⟩ := setRefs_spec hs hv (Nat.succ_pos (s.vnodes v).refcount)
  have hpos := hs.refs_pos hv
  refine ⟨hok, fun u => ?_, fun u _ => hkey u, fun u h0 hp => ?_, rfl, rfl, rfl, rfl⟩
  · rw [hrefs u]
    by_cases he : u = v
    · rw [if_pos he, he, State.refs_of_used hv, count_singleton_self]
    · rw [if_neg he, count_cons_of_ne (Ne.symm he)]
      rfl
  · rw [hrefs u] at hp
    by_cases he : u = v
    · rw [he] at h0
      omega
    · rw [if_neg he] at hp
      omega

theorem ext_frame (i : ℕ) (hused : s'.used = s.used) (hbuckets : s'.buckets = s.buckets)
    (hvn : ∀ v, s.used v → s'.vnodes v = s.vnodes v) (hcount : s.slabCount ≤ s'.slabCount) (hbase : s'.base = s.base)
    (hmounts : s'.mounts = s.mounts) (hheld : s'.held = s.held) (hfiles : s'.files = s.files) : Ext i s s' [] := by
  have hb : ∀ m inode, s'.bucketOf m inode = s.bucketOf m inode := by
    intro m inode
    unfold State.bucketOf
    rw [hbase]
  have hrefs : ∀ v, s'.refs v = s.refs v := by
    intro v
    unfold State.refs
    rw [hused]
    split
    · rename_i hu
      rw [hvn v hu]
    · rfl
  refine ⟨⟨fun v hv => ?_, fun v hv => ?_, fun b v hm => ?_, fun b v m hm hmount => ?_, fun b => ?_, fun v u hv hu hk => ?_⟩,
    fun v => ?_, fun v hv => ?_, fun v h0 hp => ?_, hbase, hmounts, hheld, hfiles⟩
  · rw [hused] at hv
    have := hs.slot v hv
    omega
  · rw [hused] at hv
    rw [hvn v hv, hbuckets]
    obtain ⟨m, hm, hmem, hpos⟩ := hs.live v hv
    exact ⟨m, hm, by rw [hb]; exact hmem, hpos⟩
  · rw [hbuckets] at hm
    rw [hused]
    exact hs.chain b v hm
  · rw [hbuckets] at hm
    have hu := hs.chain b v hm
    rw [hvn v hu] at hmount ⊢
    rw [hb]
    exact hs.bucket b v m hm hmount
  · rw [hbuckets]
    exact hs.nodup b
  · rw [hused] at hv hu
    unfold State.key at hk
    rw [hvn v hv, hvn u hu] at hk
    exact hs.uniq v u hv hu hk
  · rw [hrefs v]
    rfl
  · unfold State.key
    rw [hvn v (State.used_of_refs hv)]
  · rw [hrefs v, h0] at hp
    exact absurd hp (lt_irrefl 0)

theorem ext_new (typ : VType) (hfree : s.used v = false) (hcount : s.slabCount ≤ n) (hv : v < 16 * n)
    (hnew : ∀ u, s.used u → s.key u ≠ (some m, inode)) :
    Ext m s { s with slabCount := n
                     used := update s.used v true
                     vnodes := update s.vnodes v ⟨some m, inode, typ, 1⟩
                     buckets := update s.buckets (s.bucketOf m inode) (v :: s.buckets (s.bucketOf m inode)) } [v] := by
  have hne : ∀ u, s.used u → u ≠ v := by
    rintro u hu rfl
    rw [hfree] at hu
    cases hu
  refine ⟨⟨fun u hu => ?_, fun u hu => ?_, fun b u hb => ?_, fun b u m' hb hm => ?_, nodup_update hs.nodup ?_,
    fun u u' hu hu' hk => ?_⟩, fun u => ?_, fun u hu => ?_, fun u h0 hp => ?_, rfl, rfl, rfl, rfl⟩
  · change u < 16 * n
    by_cases he : u = v
    · rw [he]
      exact hv
    · have := hs.slot u (by simpa [update_of_ne he] using hu)
      omega
  · dsimp only at hu ⊢
    by_cases he : u = v
    · subst he
      refine ⟨m, ?_, ?_, ?_⟩
      · rw [update_self]
      · rw [update_self]
        exact mem_update_push.2 (.inr ⟨rfl, rfl⟩)
      · rw [update_self]
        exact Nat.one_pos
    · rw [update_of_ne he] at hu ⊢
      obtain ⟨m', hm', hmem, hpos⟩ := hs.live u hu
      exact ⟨m', hm', mem_update_push.2 (.inl hmem), hpos⟩
  · dsimp only at hb ⊢
    rcases mem_update_push.1 hb with hb | ⟨rfl, -⟩
    · have hu := hs.chain b u hb
      rw [update_of_ne (hne u hu)]
      exact hu
    · rw [update_self]
  · dsimp only at hb hm ⊢
    rcases mem_update_push.1 hb with hb | ⟨rfl, hbe⟩
    · have hu := hs.chain b u hb
      rw [update_of_ne (hne u hu)] at hm ⊢
      exact hs.bucket b u m' hb hm
    · rw [update_self] at hm ⊢
      cases hm
      exact hbe.symm
  · exact nodup_cons.2 ⟨fun hmem => hne v (hs.chain _ v hmem) rfl, hs.nodup _⟩
  · unfold State.key at hk
    dsimp only at hu hu' hk
    by_cases he : u = v
    · by_cases he' : u' = v
      · rw [he, he']
      · rw [update_of_ne he'] at hu'
        rw [he, update_self, update_of_ne he'] at hk
        exact absurd hk.symm (hnew u' hu')
    · rw [update_of_ne he] at hu
      by_cases he' : u' = v
      · rw [he', update_self, update_of_ne he] at hk
        exact absurd hk (hnew u hu)
      · rw [update_of_ne he'] at hu'
        rw [update_of_ne he, update_of_ne he'] at hk
        exact hs.uniq u u' hu hu' hk
  · by_cases he : u = v
    · simp [State.refs, he, hfree]
    · simp [State.refs, update_of_ne he, Ne.symm he]
  · have hused := State.used_of_refs hu
    unfold State.key
    dsimp only
    rw [update_of_ne (hne u hused)]
  · dsimp only
    by_cases he : u = v
    · rw [he, update_self]
    · simp only [State.refs, update_of_ne he] at h0 hp
      omega

theorem vnodeSlabAlloc_spec (mem : ℕ → Bool) : s.vnodeSlabAlloc mem = none ∨
    ∃ v n, s.vnodeSlabAlloc mem = some (v, { s with slabCount := n }.slabTake v) ∧ s.used v = false ∧ s.slabCount ≤ n ∧
      v < 16 * n := by
  unfold State.vnodeSlabAlloc
  split
  · rename_i v hfind
    have hmem := mem_of_find?_eq_some hfind
    have hfree := find?_some hfind
    refine .inr ⟨v, s.slabCount, rfl, ?_, le_refl _, (s.mem_slots v).1 hmem⟩
    simpa using hfree
  · split
    · exact .inl rfl
    · refine .inr ⟨16 * s.slabCount, s.slabCount + 1, rfl, ?_, Nat.le_succ _, by omega⟩
      by_contra hu
      have := hs.slot _ (Bool.not_eq_false _ ▸ hu)
      omega

/-- **`vnode_get`** returns one reference to the vnode of the key, or fails without effect. -/
theorem vnodeGet_ext (w : View) (m inode : ℕ) : (∃ v, (s.vnodeGet w m inode).1 = some v ∧
    Ext m s (s.vnodeGet w m inode).2 [v] ∧
      (s.vnodeGet w m inode).2.key v = (some m, inode)) ∨
    (s.vnodeGet w m inode).1 = none ∧ Ext m s (s.vnodeGet w m inode).2 [] := by
  unfold State.vnodeGet
  dsimp only
  split
  · rename_i v hfind
    have hmem := mem_of_find?_eq_some hfind
    have hkey := find?_some hfind
    simp only [Bool.and_eq_true, beq_iff_eq] at hkey
    refine .inl ⟨v, rfl, ext_bump hs (hs.chain _ v hmem) m, ?_⟩
    unfold State.key setVnode
    dsimp only
    rw [update_self]
    exact Prod.ext hkey.1 hkey.2
  · rename_i hfind
    -- a vnode with this key would be in this chain
    have hnew : ∀ u, s.used u → s.key u ≠ (some m, inode) := by
      intro u hu hk
      obtain ⟨m', hm', hmem, -⟩ := hs.live u hu
      obtain ⟨hk1, hk2⟩ := Prod.ext_iff.1 hk
      simp only [State.key] at hk1 hk2
      rw [hk1] at hm'
      cases hm'
      rw [hk2] at hmem
      have := find?_eq_none.1 hfind u hmem
      simp [hk1, hk2] at this
    rcases vnodeSlabAlloc_spec hs w.mem with hnone | ⟨v, n, hsome, hfree, hcount, hlt⟩
    · rw [hnone]
      exact .inr ⟨rfl, .refl hs m⟩
    · rw [hsome]
      dsimp only
      split
      · right
        refine ⟨rfl, ?_⟩
        unfold State.vnodeSlabFree
        rw [if_pos ((State.mem_slots _ v).2 hlt)]
        refine ext_frame hs m ?_ rfl (fun u hu => ?_) hcount rfl rfl rfl rfl
        · simp only [setVnode, slabTake, update_idem]
          rw [← hfree, update_eq_self]
        · have hne : u ≠ v := by
            rintro rfl
            rw [hfree] at hu
            cases hu
          simp [setVnode, slabTake, update_of_ne hne]
      · rename_i typ hread
        left
        refine ⟨v, rfl, ?_, ?_⟩
        · simpa [setVnode, slabTake, State.bucketOf] using ext_new hs typ hfree hcount hlt hnew
        · simp [State.key, setVnode]

end Refs

/-! ## References that go -/

/-- `s'` is `s` with one reference to `v` less. -/
structure Dropped (s s' : State) (v : ℕ) : Prop where
  cache : CacheOK s'
  refs : ∀ u, s'.refs u + [v].count u = s.refs u
  keep : ∀ u, 0 < s'.refs u → s'.key u = s.key u
  base : s'.base = s.base
  mounts : s'.mounts = s.mounts
  held : s'.held = s.held
  files : s'.files = s.files

/-- **`vnode_put`** of a reference that is there. -/
theorem vnodePut_spec (hs : CacheOK s) (hv : 0 < s.refs v) : Dropped s (s.vnodePut v) v := by
  have hused := State.used_of_refs hv
  obtain ⟨m, hm, hmem, hpos⟩ := hs.live v hused
  have hmount : (s.vnodes v).mount.getD 0 = m := by rw [hm]; rfl
  unfold State.vnodePut
  rw [if_neg (by omega), hmount]
  split
  · -- others hold it
    rename_i hmore
    obtain ⟨hok, hkey, hrefs⟩ := setRefs_spec hs hused hmore
    refine ⟨hok, fun u => ?_, fun u _ => hkey u, rfl, rfl, rfl, rfl⟩
    rw [hrefs u]
    by_cases he : u = v
    · rw [if_pos he, he, State.refs_of_used hused, count_singleton_self]
      omega
    · rw [if_neg he, count_cons_of_ne (Ne.symm he)]
      rfl
  · -- the last reference
    rename_i hlast
    unfold State.vnodeSlabFree
    rw [if_pos (by exact (State.mem_slots _ v).2 (hs.slot v hused))]
    have hnv : ∀ u, update s.used v false u → u ≠ v ∧ s.used u := by
      intro u hu
      by_cases he : u = v
      · rw [he, update_self] at hu
        cases hu
      · rw [update_of_ne he] at hu
        exact ⟨he, hu⟩
    have hchain : ∀ b u, u ∈ update s.buckets (s.bucketOf m (s.vnodes v).inode)
        ((s.buckets (s.bucketOf m (s.vnodes v).inode)).erase v) b ↔ u ≠ v ∧ u ∈ s.buckets b :=
      fun b u => mem_update_erase (hs.nodup _) fun b hb => (hs.bucket b v m hb hm).symm
    simp only [setVnode, update_self, update_idem]
    refine ⟨⟨fun u hu => ?_, fun u hu => ?_, fun b u hb => ?_, fun b u m' hb hm' => ?_,
      nodup_update hs.nodup ((hs.nodup _).erase v), fun u u' hu hu' hk => ?_⟩, fun u => ?_, fun u hu => ?_, rfl, rfl, rfl, rfl⟩
    · exact hs.slot u (hnv u hu).2
    · obtain ⟨hne, hu⟩ := hnv u hu
      dsimp only
      rw [update_of_ne hne]
      obtain ⟨m', hm', hmem', hpos'⟩ := hs.live u hu
      exact ⟨m', hm', (hchain _ u).2 ⟨hne, hmem'⟩, hpos'⟩
    · obtain ⟨hne, hb⟩ := (hchain b u).1 hb
      dsimp only
      rw [update_of_ne hne]
      exact hs.chain b u hb
    · obtain ⟨hne, hb⟩ := (hchain b u).1 hb
      dsimp only at hm' ⊢
      rw [update_of_ne hne] at hm' ⊢
      exact hs.bucket b u m' hb hm'
    · obtain ⟨hne, hu⟩ := hnv u hu
      obtain ⟨hne', hu'⟩ := hnv u' hu'
      unfold State.key at hk
      dsimp only at hk
      rw [update_of_ne hne, update_of_ne hne'] at hk
      exact hs.uniq u u' hu hu' hk
    · by_cases he : u = v
      · rw [he, State.refs_of_used hused]
        simp only [State.refs, update_self, count_singleton_self]
        simp
        omega
      · simp [State.refs, update_of_ne he, Ne.symm he]
    · obtain ⟨hne, -⟩ := hnv u (State.used_of_refs hu)
      unfold State.key
      dsimp only
      rw [update_of_ne hne]

theorem Ext.put (h : Ext i s₀ s (v :: l)) : Ext i s₀ (s.vnodePut v) l := by
  have hv : 0 < s.refs v := by
    rw [h.refs v, count_cons_self]
    omega
  have hd := vnodePut_spec h.cache hv
  have hrefs : ∀ u, (s.vnodePut v).refs u = s₀.refs u + l.count u := by
    intro u
    have h1 := hd.refs u
    have h2 := h.refs u
    rw [count_cons] at h2
    rw [count_singleton] at h1
    omega
  refine ⟨hd.cache, hrefs, fun u hu => ?_, fun u h0 hp => ?_, hd.base.trans h.base, hd.mounts.trans h.mounts,
    hd.held.trans h.held, hd.files.trans h.files⟩
  · rw [hd.keep u (by rw [hrefs u]; omega), h.keep u hu]
  · have hkey := congrArg Prod.fst (hd.keep u hp)
    refine hkey.trans (h.fresh u h0 ?_)
    have := hd.refs u
    omega

/-! ## Walks -/

/-- What a resolution does: one reference to a vnode of the mount, or nothing. -/
def Returns (i : ℕ) (s₀ : State) (r : Except Err (ℕ × Path) × State) : Prop :=
  match r.1 with
  | .ok (v, _) => Ext i s₀ r.2 [v] ∧ (r.2.vnodes v).mount = some i
  | .error _ => Ext i s₀ r.2 []

/-- **A walk** takes and drops references on the way and keeps the last one. -/
theorem walk_returns (w : View) (stopShort : Bool) (comps : List Path) {dir : ℕ} (h : Ext i s₀ s [dir])
    (hdir : (s.vnodes dir).mount = some i) : Returns i s₀ (s.walk w stopShort comps dir) := by
  induction comps generalizing s dir with
  | nil =>
    unfold State.walk
    split
    · exact h.put
    · exact ⟨h, hdir⟩
  | cons name rest ih =>
    have hgetD : (s.vnodes dir).mount.getD 0 = i := by rw [hdir]; rfl
    unfold State.walk
    split
    · exact ⟨h, hdir⟩
    · split
      · exact h.put
      · dsimp only
        rw [hgetD]
        split
        · exact h.put
        · rename_i childId hlookup
          rcases vnodeGet_ext h.cache w i childId with ⟨child, hr, hext, hkey⟩ | ⟨hr, hext⟩
          · rw [hr]
            have hboth := (h.trans hext).perm (List.Perm.swap dir child [])
            have hone := hboth.put
            refine ih hone ?_
            -- the child outlives the parent's reference
            have hlive : 0 < ((s.vnodeGet w i childId).2.vnodePut dir).refs child := by
              rw [hone.refs child, count_singleton_self]
              omega
            have hd := vnodePut_spec hboth.cache (v := dir) (by
              rw [hboth.refs dir, count_cons_self]
              omega)
            exact (congrArg Prod.fst (hd.keep child hlive)).trans (congrArg Prod.fst hkey)
          · rw [hr]
            exact (h.trans hext).put

/-- The roots of the mounts are held. -/
def RootsOK (s : State) : Prop := ∀ i m, s.mounts i = some m → 0 < s.refs m.root ∧ s.key m.root = (some i, 0)

theorem Ext.rootsOK (h : Ext i s₀ s l) (hr : RootsOK s₀) : RootsOK s := by
  intro j m hm
  rw [h.mounts] at hm
  obtain ⟨hpos, hkey⟩ := hr j m hm
  exact ⟨h.live hpos, (h.keep _ hpos).trans hkey⟩

theorem mountLoop_mem {is : List ℕ} {best : Option (ℕ × Mount)} {r : ℕ × Mount}
    (hbest : ∀ b, best = some b → s.mounts b.1 = some b.2) (h : s.mountLoop path is best = some r) :
    s.mounts r.1 = some r.2 := by
  induction is generalizing best with
  | nil => exact hbest r h
  | cons i is ih =>
    refine ih (fun b hb => ?_) h
    split at hb
    · exact hbest b hb
    · rename_i m hm
      split at hb
      · exact hbest b hb
      · split at hb
        · cases hb
          exact hm
        · split at hb
          · cases hb
            exact hm
          · exact hbest b hb

theorem mountFor_mem {rel : Path} {m : Mount} (h : s.mountFor path = some (i, m, rel)) : s.mounts i = some m := by
  obtain ⟨r, hr, he⟩ := Option.map_eq_some_iff.1 h
  have := mountLoop_mem (fun b hb => by cases hb) hr
  cases he
  exact this

/-- The mount that a path leads to depends on the mount table only. -/
theorem mountFor_congr (h : s'.mounts = s.mounts) (path : Path) : s'.mountFor path = s.mountFor path := by
  have hloop : ∀ is best, s'.mountLoop path is best = s.mountLoop path is best := by
    intro is
    induction is with
    | nil => exact fun _ => rfl
    | cons i is ih =>
      intro best
      unfold State.mountLoop
      rw [h]
      exact ih _
  unfold State.mountFor
  rw [hloop]

/-- **A resolution** changes the counts by the reference it returns. -/
theorem resolveWalk_returns (hs : CacheOK s) (hr : RootsOK s) (w : View) (path : Path) (stopShort : Bool) :
    (∃ i m rel, s.mountFor path = some (i, m, rel) ∧ Returns i s (s.resolveWalk w path stopShort)) ∨
      s.mountFor path = none ∧ s.resolveWalk w path stopShort = (.error .enoent, s) := by
  unfold State.resolveWalk
  cases hm : s.mountFor path with
  | none => exact .inr ⟨rfl, rfl⟩
  | some r =>
    obtain ⟨i, m, rel⟩ := r
    obtain ⟨hpos, hkey⟩ := hr i m (mountFor_mem hm)
    have hb := ext_bump hs (State.used_of_refs hpos) i
    refine .inl ⟨i, m, rel, rfl, walk_returns w stopShort _ hb ?_⟩
    exact (congrArg Prod.fst (hb.keep m.root hpos)).trans (congrArg Prod.fst hkey)

end NeoOS.Vfs

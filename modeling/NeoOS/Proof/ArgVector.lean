import Mathlib.Algebra.Ring.Nat
import Mathlib.Data.List.Forall2
import Mathlib.Logic.Function.Iterate
import NeoOS.Spec.ArgVector

/-!
# What `copy_user_vector` writes

The copying pass gives a string the bytes that are left of the blob, and writes a terminator even when
none is left. `Fits` is the condition on the strings it finds; `Given` says what the vector is when nobody
changes it.
-/

namespace NeoOS.ArgVector

open Nat (not_lt_zero succ_pos zero_add zero_le)
open List
open List (range)

variable {v : View} {uargv total a argc : ℕ} {ps is : List ℕ} {s : List UInt8} {r : Result} {strs : List (List UInt8)}
  {e : Errno}

/-! ## The condition -/

/-- The length of the string at `a`, at most `n`, and `none` if reading it faults first. -/
def View.strnlen (v : View) : ℕ → ℕ → Option ℕ
  | 0, _ => some 0
  | n + 1, a =>
    match v.byte a with
    | none => none
    | some b => if b = 0 then some 0 else (v.strnlen n (add64 a 1)).map (· + 1)

/-- There is a byte left for each string that the copying pass comes to, `left` being what the measured
total leaves for the strings at the given indices. -/
def Fits (v : View) (uargv : ℕ) : List ℕ → ℕ → Prop
  | [], _ => True
  | i :: is, left =>
    ∀ p, v.word (slotOf uargv i) = some p → 0 < left ∧ ∀ n, v.strnlen (left - 1) p = some n → Fits v uargv is (left - (n + 1))

/-- A string of the blob starts at `off` and ends there. -/
def Terminated (out : List UInt8) (off : ℕ) : Prop := ∃ s rest, out.drop off = s ++ 0 :: rest

/-- All writes are inside the two blocks, and each pointer names a terminated string of the blob. -/
structure Safe (r : Result) : Prop where
  blob : r.copied.out.length ≤ r.total
  vec : r.copied.vec.length ≤ r.argc
  strings : r.outcome = .done () → ∀ off ∈ r.copied.vec, Terminated r.copied.out off

/-! ## The byte loop -/

theorem copyBytes_spec (left a : ℕ) (out : List UInt8) : ∃ s, (copyBytes v left a out).2 = out ++ s ∧ s.length ≤ left - 1 ∧
      v.strnlen (left - 1) a = if (copyBytes v left a out).1 then some s.length else none := by
  fun_induction copyBytes v left a out with
  | case1 a out => exact ⟨[], by simp, by simp, rfl⟩
  | case2 a out => exact ⟨[], by simp, by simp, rfl⟩
  | case3 left a out hb =>
    refine ⟨[], by simp, by simp, ?_⟩
    simp [View.strnlen, hb]
  | case4 left a out hb =>
    refine ⟨[], by simp, by simp, ?_⟩
    simp [View.strnlen, hb]
  | case5 left a out b hb h0 ih =>
    obtain ⟨s, hs, hlen, hn⟩ := ih
    refine ⟨b :: s, by rw [hs, append_assoc, singleton_append], ?_, ?_⟩
    · simp only [length_cons]; omega
    · rw [show left + 2 - 1 = left + 1 by omega, View.strnlen, hb]
      rw [show left + 1 - 1 = left by omega] at hn
      simp only [h0, if_false, hn]
      split <;> simp

/-! ## The copying loop -/

theorem Terminated.append {out : List UInt8} {off : ℕ} (h : Terminated out off) (hoff : off ≤ out.length)
    (t : List UInt8) : Terminated (out ++ t) off := by
  obtain ⟨s, rest, hs⟩ := h
  refine ⟨s, rest ++ t, ?_⟩
  rw [drop_append_of_le_length hoff, hs, append_assoc, cons_append]

theorem terminated_last (out s : List UInt8) : Terminated (out ++ s ++ [0]) out.length := by
  refine ⟨s, [], ?_⟩
  rw [append_assoc, drop_left]

/-- What the pointers have named so far. -/
structure Named (c : Copied) : Prop where
  inside : ∀ off ∈ c.vec, off ≤ c.out.length
  strings : ∀ off ∈ c.vec, Terminated c.out off

theorem Named.string {c : Copied} (hc : Named c) (s : List UInt8) : Named ⟨c.vec ++ [c.out.length], c.out ++ s ++ [0]⟩ := by
  refine ⟨fun off hoff => ?_, fun off hoff => ?_⟩ <;> simp only [mem_append, mem_singleton] at hoff
  · have hle : off ≤ c.out.length := hoff.elim (hc.inside off) le_of_eq
    simp only [length_append]
    omega
  · rcases hoff with hoff | rfl
    · rw [append_assoc]
      exact (hc.strings off hoff).append (hc.inside off hoff) _
    · exact terminated_last c.out s

/-- What the loop has written stays, it writes a pointer a round, and the pointers name strings unless it faults. -/
structure Goes (n : ℕ) (c : Copied) (r : Bool × Copied) : Prop where
  out : c.out.length ≤ r.2.out.length
  vec : r.2.vec.length ≤ c.vec.length + n
  named : Named c → r.1 → Named r.2

theorem copyLoop_goes (v : View) (uargv total : ℕ) (is : List ℕ) : ∀ c, Goes is.length c (copyLoop v uargv total is c) := by
  induction is with
  | nil => exact fun c => ⟨le_rfl, le_rfl, fun hc _ => hc⟩
  | cons i is ih =>
    intro c
    unfold copyLoop
    split
    · exact ⟨le_rfl, Nat.le_add_right _ _, nofun⟩
    · rename_i p _
      obtain ⟨s, hs, -, -⟩ := copyBytes_spec (v := v) (sub64 total c.out.length) p c.out
      dsimp only
      generalize copyBytes v (sub64 total c.out.length) p c.out = r at hs ⊢
      have hlen : c.out.length ≤ r.2.length := by simp [hs]
      split
      · obtain ⟨hout, hvec, hnamed⟩ := ih ⟨c.vec ++ [c.out.length], r.2 ++ [0]⟩
        simp only [length_append, length_cons, length_nil] at hout hvec
        refine ⟨by omega, by simp only [length_cons]; omega, fun hc => hnamed ?_⟩
        rw [hs]
        exact hc.string s
      · refine ⟨hlen, ?_, nofun⟩
        simp only [length_append, length_cons, length_nil]
        omega

/-- **The copy stays inside the blob just if the strings fit**, and then each pointer names its string. -/
theorem copyLoop_inside (v : View) (uargv : ℕ) (htotal : total < u64) (is : List ℕ) : ∀ c, c.out.length ≤ total →
      ((copyLoop v uargv total is c).2.out.length ≤ total ↔ Fits v uargv is (total - c.out.length)) := by
  induction is with
  | nil => exact fun c hc => ⟨fun _ => trivial, fun _ => hc⟩
  | cons i is ih =>
    intro c hc
    unfold copyLoop Fits
    split
    · rename_i hw
      exact ⟨fun _ p hp => absurd (hw.symm.trans hp) (by simp), fun _ => hc⟩
    · rename_i p hw
      have hroom : sub64 total c.out.length = total - c.out.length := sub64_of_le hc htotal
      obtain ⟨s, hs, hlen, hn⟩ := copyBytes_spec (v := v) (total - c.out.length) p c.out
      rw [hroom]
      generalize copyBytes v (total - c.out.length) p c.out = r at hs hn ⊢
      simp only [hw, Option.some.injEq, forall_eq']
      rw [hn]
      split
      · -- the string was copied and gets its terminator
        have hout : (r.2 ++ [0]).length = c.out.length + s.length + 1 := by
          simp only [hs, length_append, length_singleton]
        constructor
        · intro hall
          have hgrow := (copyLoop_goes v uargv total is ⟨c.vec ++ [c.out.length], r.2 ++ [0]⟩).out
          dsimp only at hgrow
          refine ⟨by omega, fun n hnn => ?_⟩
          cases hnn
          rw [show total - c.out.length - (s.length + 1) = total - (r.2 ++ [0]).length by omega]
          exact (ih _ (by dsimp only; omega)).1 hall
        · rintro ⟨hleft, hfits⟩
          have hrest := hfits s.length rfl
          rw [show total - c.out.length - (s.length + 1) = total - (r.2 ++ [0]).length by omega] at hrest
          exact (ih _ (by dsimp only; omega)).2 hrest
      · -- a page fault: nothing more is written
        rename_i hr
        have hout : r.2.length = c.out.length + s.length := by simp only [hs, length_append]
        refine ⟨fun _ => ⟨Nat.pos_of_ne_zero fun h0 => ?_, fun n hnn => by cases hnn⟩, fun _ => ?_⟩
        · rw [h0, if_neg hr] at hn
          cases hn
        · dsimp only
          omega

/-! ## When nobody changes the memory -/

/-- A string that the process may read. -/
def Text (v : View) : ℕ → List UInt8 → Prop
  | a, [] => v.readable a = true ∧ v.byte a = some 0
  | a, b :: s => v.readable a = true ∧ v.byte a = some b ∧ b ≠ 0 ∧ Text v (add64 a 1) s

/-- The pointers from `uargv[i]` to the null at the end. -/
def Pointers (v : View) (uargv : ℕ) : ℕ → List ℕ → Prop
  | i, [] => v.slotReadable (slotOf uargv i) = true ∧ v.word (slotOf uargv i) = some 0
  | i, p :: ps => v.slotReadable (slotOf uargv i) = true ∧ v.word (slotOf uargv i) = some p ∧ p ≠ 0 ∧
      Pointers v uargv (i + 1) ps

/-- The pointers at the given indices. -/
abbrev Slots (v : View) (uargv : ℕ) : List ℕ → List ℕ → Prop :=
  List.Forall₂ fun i p => v.word (slotOf uargv i) = some p

/-- The vector at `uargv` has these strings. -/
def Given (v : View) (uargv : ℕ) (strs : List (List UInt8)) : Prop :=
  (uargv = 0 ∧ strs = []) ∨ (uargv ≠ 0 ∧ ∃ ps, Pointers v uargv 0 ps ∧ List.Forall₂ (Text v) ps strs)

/-- The bytes strings take in the blob. -/
def sizes (strs : List (List UInt8)) : ℕ := (strs.map fun s => s.length + 1).sum

/-- The documented limits. -/
structure InLimits (strs : List (List UInt8)) : Prop where
  count : strs.length ≤ spawnMaxArgs
  each : ∀ s ∈ strs, s.length < spawnArgMax
  total : sizes strs ≤ spawnArgTotal

/-- The first `n` bytes at `a` are readable and none is a terminator. -/
def Long (v : View) : ℕ → ℕ → Prop
  | 0, _ => True
  | n + 1, a => v.readable a = true ∧ (∃ b, v.byte a = some b ∧ b ≠ 0) ∧ Long v n (add64 a 1)

/-- Why the measuring pass stops at the string at `p` when the strings before it take `used` bytes. -/
inductive Stop (v : View) (p used : ℕ) : Errno → Prop
  | long (h : Long v spawnArgMax p) : Stop v p used .e2big
  | total (s : List UInt8) (h : Text v p s) (hn : s.length < spawnArgMax) (hbig : spawnArgTotal < used + (s.length + 1)) :
      Stop v p used .e2big
  | cut (j : ℕ) (hj : j < spawnArgMax) (hlong : Long v j p) (h : v.readable ((add64 · 1)^[j] p) = false) :
      Stop v p used .efault

/-- The first thing wrong with the vector: there are too many pointers, a pointer before the null cannot be read, or
the strings are in order up to one at which the measuring stops. -/
inductive Refused (v : View) (uargv : ℕ) : Errno → Prop
  | count (h : ∀ j < spawnMaxArgs + 1, v.slotReadable (slotOf uargv j) ∧ v.word (slotOf uargv j) ≠ some 0) :
      Refused v uargv .e2big
  | slot (i : ℕ) (hi : i < spawnMaxArgs + 1)
      (hbefore : ∀ j < i, v.slotReadable (slotOf uargv j) ∧ v.word (slotOf uargv j) ≠ some 0)
      (h : v.slotReadable (slotOf uargv i) = false) : Refused v uargv .efault
  | string {e : Errno} (before after : List ℕ) (p : ℕ) (strs : List (List UInt8))
      (hps : Pointers v uargv 0 (before ++ p :: after)) (hcount : (before ++ p :: after).length ≤ spawnMaxArgs)
      (htext : List.Forall₂ (Text v) before strs) (heach : ∀ s ∈ strs, s.length < spawnArgMax)
      (hsum : sizes strs ≤ spawnArgTotal) (h : Stop v p (sizes strs) e) : Refused v uargv e

/-- The vector is returned as it is, or the call fails for a reason. -/
structure Exact (v : View) (uargv : ℕ) (mem : Bool) (r : Result) : Prop where
  returns : r.outcome ≠ .halt
  strings : r.outcome = .done () → ∃ strs, Given v uargv strs ∧ InLimits strs ∧
    List.Forall₂ (fun off s => ∃ rest, r.copied.out.drop off = s ++ 0 :: rest) r.copied.vec strs
  accepted : ∀ strs, Given v uargv strs → InLimits strs → mem → r.outcome = .done ()
  refused : ∀ e, e ≠ .enomem → (r.outcome = .fail e ↔ uargv ≠ 0 ∧ Refused v uargv e)
  noMemory : r.outcome = .fail .enomem → mem = false

/-! ### Counting -/

theorem View.bytes_isSome {l : List ℕ} (h : ∀ i ∈ l, v.readable (a + i)) : (l.mapM fun i => v.byte (a + i)).isSome := by
  induction l with
  | nil => rfl
  | cons i l ih =>
    obtain ⟨hi, hl⟩ := forall_mem_cons.1 h
    obtain ⟨b, hb⟩ := Option.isSome_iff_exists.1 (v.mapped _ hi)
    obtain ⟨bs, hbs⟩ := Option.isSome_iff_exists.1 (ih hl)
    simp [mapM_cons, hb, hbs]

theorem View.word_isSome (h : v.slotReadable a) : (v.word a).isSome := by
  obtain ⟨bs, hbs⟩ := Option.isSome_iff_exists.1 (View.bytes_isSome (all_eq_true.1 h))
  simp [View.word, hbs]

/-- How the counting pass ends. -/
inductive CountEnd (v : View) (uargv n i : ℕ) : Outcome ℕ → Prop
  | pointers (ps : List ℕ) (h : Pointers v uargv i ps) (hn : ps.length < n) :
      CountEnd v uargv n i (.done (i + ps.length))
  | tooMany (h : ∀ j < n, v.slotReadable (slotOf uargv (i + j)) ∧ v.word (slotOf uargv (i + j)) ≠ some 0) :
      CountEnd v uargv n i (.fail .e2big)
  | unreadable (m : ℕ) (hm : m < n)
      (hbefore : ∀ j < m, v.slotReadable (slotOf uargv (i + j)) ∧ v.word (slotOf uargv (i + j)) ≠ some 0)
      (h : v.slotReadable (slotOf uargv (i + m)) = false) : CountEnd v uargv n i (.fail .efault)

theorem countLoop_cases (v : View) (uargv n : ℕ) : ∀ i, CountEnd v uargv n i (countLoop v uargv n i) := by
  induction n with
  | zero => exact fun i => .tooMany fun j hj => absurd hj (not_lt_zero j)
  | succ n ih =>
    intro i
    unfold countLoop
    split
    · rename_i hslot
      exact .unreadable 0 (succ_pos n) (fun j hj => absurd hj (not_lt_zero j)) (by simpa using hslot)
    rename_i hslot
    have hslot' : v.slotReadable (slotOf uargv i) := by simpa using hslot
    obtain ⟨p, hp⟩ := Option.isSome_iff_exists.1 (View.word_isSome hslot')
    rw [hp]
    dsimp only
    split
    · rename_i h0
      exact .pointers [] ⟨hslot', by rw [hp, h0]⟩ (succ_pos n)
    rename_i h0
    -- what holds of the pointers from the next one on holds from this one on
    have hnext : ∀ {m}, (∀ j < m, v.slotReadable (slotOf uargv (i + 1 + j)) ∧ v.word (slotOf uargv (i + 1 + j)) ≠ some 0) →
        ∀ j < m + 1, v.slotReadable (slotOf uargv (i + j)) ∧ v.word (slotOf uargv (i + j)) ≠ some 0 := by
      intro m h j hj
      cases j with
      | zero => exact ⟨hslot', by rw [Nat.add_zero, hp]; simpa using h0⟩
      | succ j => rw [show i + (j + 1) = i + 1 + j by omega]; exact h j (by omega)
    have hrest := ih (i + 1)
    generalize countLoop v uargv n (i + 1) = r at hrest
    cases hrest with
    | pointers ps h hn =>
      have hlen : i + 1 + ps.length = i + (p :: ps).length := by simp only [length_cons]; omega
      rw [hlen]
      refine .pointers (p :: ps) ⟨hslot', hp, h0, h⟩ ?_
      omega
    | tooMany h => exact .tooMany (hnext h)
    | unreadable m hm hbefore h =>
      refine .unreadable (m + 1) (by omega) (hnext hbefore) ?_
      rw [show i + (m + 1) = i + 1 + m by omega]
      exact h

theorem Pointers.slots : ∀ {i : ℕ}, Pointers v uargv i ps → Slots v uargv (List.range' i ps.length) ps := by
  induction ps with
  | nil => exact fun _ => .nil
  | cons p ps ih => exact fun h => .cons h.2.1 (ih h.2.2.2)

theorem countLoop_of_pointers : ∀ {n i : ℕ}, Pointers v uargv i ps → ps.length < n →
    countLoop v uargv n i = .done (i + ps.length) := by
  induction ps with
  | nil =>
    rintro (_ | n) i ⟨hslot, hw⟩ hn
    · exact absurd hn (not_lt_zero _)
    · simp [countLoop, hslot, hw]
  | cons p ps ih =>
    rintro (_ | n) i ⟨hslot, hw, h0, hrest⟩ hn
    · exact absurd hn (not_lt_zero _)
    · simp only [length_cons] at hn
      simp only [countLoop, hslot, hw, h0, Bool.not_true, Bool.false_eq_true, if_false]
      rw [ih hrest (by omega), length_cons]
      congr 1
      omega

/-- The loop goes on past pointers that can be read and are not null. -/
theorem countLoop_past (n : ℕ) : ∀ {m i : ℕ},
    (∀ j < m, v.slotReadable (slotOf uargv (i + j)) ∧ v.word (slotOf uargv (i + j)) ≠ some 0) →
    countLoop v uargv (m + n) i = countLoop v uargv n (i + m) := by
  intro m
  induction m with
  | zero => exact fun _ => by rw [zero_add, Nat.add_zero]
  | succ m ih =>
    intro i h
    obtain ⟨hslot, hw⟩ := h 0 (succ_pos m)
    rw [Nat.add_zero] at hslot hw
    obtain ⟨p, hp⟩ := Option.isSome_iff_exists.1 (View.word_isSome hslot)
    have h0 : p ≠ 0 := fun h0 => hw (h0 ▸ hp)
    have hrest := ih (i := i + 1) fun j hj => by
      rw [show i + 1 + j = i + (j + 1) by omega]
      exact h (j + 1) (by omega)
    rw [show m + 1 + n = m + n + 1 by omega, countLoop, hslot, hp]
    simp only [h0, Bool.not_true, Bool.false_eq_true, if_false]
    rw [hrest, show i + 1 + m = i + (m + 1) by omega]

/-! ### Measuring -/

inductive MeasureEnd (v : View) (n a : ℕ) : Outcome ℕ → Prop
  | text (s : List UInt8) (h : Text v a s) (hn : s.length < n) : MeasureEnd v n a (.done s.length)
  | long (h : Long v n a) : MeasureEnd v n a (.fail .e2big)
  | cut (j : ℕ) (hj : j < n) (hlong : Long v j a) (h : v.readable ((add64 · 1)^[j] a) = false) :
      MeasureEnd v n a (.fail .efault)

theorem measureString_cases (n : ℕ) : ∀ a, MeasureEnd v n a (measureString v n a) := by
  induction n with
  | zero => exact fun a => .long trivial
  | succ n ih =>
    intro a
    unfold measureString
    split
    · rename_i hread
      exact .cut 0 (succ_pos n) trivial (by simpa using hread)
    rename_i hread
    have hread' : v.readable a := by simpa using hread
    obtain ⟨b, hb⟩ := Option.isSome_iff_exists.1 (v.mapped a hread')
    rw [hb]
    dsimp only
    split
    · rename_i h0
      exact .text [] ⟨hread', by rw [hb, h0]⟩ (succ_pos n)
    rename_i h0
    have hrest := ih (add64 a 1)
    generalize measureString v n (add64 a 1) = r at hrest
    cases hrest with
    | text s h hn => exact .text (b :: s) ⟨hread', hb, h0, h⟩ (Nat.succ_lt_succ hn)
    | long h => exact .long ⟨hread', ⟨b, hb, h0⟩, h⟩
    | cut j hj hlong h => exact .cut (j + 1) (Nat.succ_lt_succ hj) ⟨hread', ⟨b, hb, h0⟩, hlong⟩ h

theorem measureString_of_text : ∀ {n a : ℕ}, Text v a s → s.length < n → measureString v n a = .done s.length := by
  induction s with
  | nil =>
    rintro (_ | n) a ⟨hread, hb⟩ hn
    · exact absurd hn (not_lt_zero _)
    · simp [measureString, hread, hb]
  | cons b s ih =>
    rintro (_ | n) a ⟨hread, hb, h0, hrest⟩ hn
    · exact absurd hn (not_lt_zero _)
    · simp only [length_cons] at hn
      simp only [measureString, hread, hb, h0, Bool.not_true, Bool.false_eq_true, if_false, length_cons]
      rw [ih hrest (by omega)]

theorem measureString_of_long : ∀ {n a : ℕ}, Long v n a → measureString v n a = .fail .e2big := by
  intro n
  induction n with
  | zero => exact fun _ => rfl
  | succ n ih =>
    rintro a ⟨hread, ⟨b, hb, h0⟩, hrest⟩
    simp only [measureString, hread, hb, h0, Bool.not_true, Bool.false_eq_true, if_false]
    rw [ih hrest]

theorem measureString_of_cut {j : ℕ} : ∀ {n a : ℕ}, j < n → Long v j a → v.readable ((add64 · 1)^[j] a) = false →
    measureString v n a = .fail .efault := by
  induction j with
  | zero =>
    rintro (_ | n) a hn - h
    · exact absurd hn (not_lt_zero _)
    · have h : v.readable a = false := h
      simp [measureString, h]
  | succ j ih =>
    rintro (_ | n) a hn ⟨hread, ⟨b, hb, h0⟩, hrest⟩ h
    · exact absurd hn (not_lt_zero _)
    · simp only [measureString, hread, hb, h0, Bool.not_true, Bool.false_eq_true, if_false]
      rw [ih (by omega) hrest h]

inductive MeasureLoopEnd (v : View) (ps : List ℕ) (total : ℕ) : Outcome ℕ → Prop
  | texts (strs : List (List UInt8)) (h : List.Forall₂ (Text v) ps strs)
      (heach : ∀ s ∈ strs, s.length < spawnArgMax) (hle : total + sizes strs ≤ spawnArgTotal) :
      MeasureLoopEnd v ps total (.done (total + sizes strs))
  | stopped {e : Errno} (before after : List ℕ) (p : ℕ) (strs : List (List UInt8)) (hps : ps = before ++ p :: after)
      (h : List.Forall₂ (Text v) before strs) (heach : ∀ s ∈ strs, s.length < spawnArgMax)
      (hle : total + sizes strs ≤ spawnArgTotal) (hstop : Stop v p (total + sizes strs) e) :
      MeasureLoopEnd v ps total (.fail e)

theorem sizes_cons (s : List UInt8) (strs : List (List UInt8)) : sizes (s :: strs) = s.length + 1 + sizes strs := by
  simp [sizes]

theorem measureLoop_cases (hs : Slots v uargv is ps) : ∀ total, total ≤ spawnArgTotal →
    MeasureLoopEnd v ps total (measureLoop v uargv is total) := by
  induction hs with
  | nil =>
    intro total hle
    exact .texts [] .nil (fun s hs => absurd hs not_mem_nil) hle
  | cons hp hrest ih =>
    rename_i i p is ps
    intro total hle
    unfold measureLoop
    rw [hp]
    dsimp only
    have hfirst : ∀ {e}, Stop v p total e → MeasureLoopEnd v (p :: ps) total (.fail e) := fun h =>
      .stopped [] ps p [] rfl .nil (fun s hs => absurd hs not_mem_nil) hle h
    have hm := measureString_cases (v := v) spawnArgMax p
    generalize measureString v spawnArgMax p = m at hm
    cases hm with
    | long h => exact hfirst (.long h)
    | cut j hj hlong h => exact hfirst (.cut j hj hlong h)
    | text s h hn =>
      dsimp only
      split
      · rename_i hbig
        exact hfirst (.total s h hn hbig)
      · rename_i hnot
        have hend := ih (total + (s.length + 1)) (by omega)
        have hsizes : ∀ strs, total + (s.length + 1) + sizes strs = total + sizes (s :: strs) := fun strs => by
          rw [sizes_cons]; omega
        generalize measureLoop v uargv is (total + (s.length + 1)) = r at hend
        cases hend with
        | texts strs hall heach hsum =>
          rw [hsizes] at hsum ⊢
          exact .texts (s :: strs) (.cons h hall) (forall_mem_cons.2 ⟨hn, heach⟩) hsum
        | stopped before after q strs hps hall heach hsum hstop =>
          rw [hsizes] at hsum hstop
          exact .stopped (p :: before) after q (s :: strs) (by rw [hps, cons_append]) (.cons h hall)
            (forall_mem_cons.2 ⟨hn, heach⟩) hsum hstop

/-- The loop goes on past strings within the limits. -/
theorem measureLoop_past (hs : Slots v uargv is ps) (js : List ℕ) : ∀ {strs : List (List UInt8)} {total : ℕ},
    List.Forall₂ (Text v) ps strs → (∀ s ∈ strs, s.length < spawnArgMax) → total + sizes strs ≤ spawnArgTotal →
    measureLoop v uargv (is ++ js) total = measureLoop v uargv js (total + sizes strs) := by
  induction hs with
  | nil =>
    rintro strs total ⟨⟩ - -
    rfl
  | cons hp hrest ih =>
    rintro strs total (_ | ⟨htext, hall⟩) heach hsum
    rename_i s strs
    obtain ⟨hn, heach⟩ := forall_mem_cons.1 heach
    rw [sizes_cons] at hsum ⊢
    rw [cons_append, measureLoop, hp]
    dsimp only
    rw [measureString_of_text htext hn]
    dsimp only
    rw [if_neg (by omega), ih hall heach (by omega), Nat.add_assoc]

theorem measureLoop_of_stop {i p used : ℕ} (hw : v.word (slotOf uargv i) = some p) (h : Stop v p used e) :
    measureLoop v uargv (i :: is) used = .fail e := by
  rw [measureLoop, hw]
  dsimp only
  cases h with
  | long h => rw [measureString_of_long h]
  | total s h hn hbig =>
    rw [measureString_of_text h hn]
    dsimp only
    rw [if_pos hbig]
  | cut j hj hlong h => rw [measureString_of_cut hj hlong h]

/-! ### Copying -/

theorem copyBytes_of_text : ∀ {left a : ℕ} {out : List UInt8}, Text v a s → s.length < left →
    copyBytes v left a out = (true, out ++ s) := by
  induction s with
  | nil =>
    rintro (_ | _ | left) a out ⟨-, hb⟩ hn
    · exact absurd hn (not_lt_zero _)
    · simp [copyBytes]
    · simp [copyBytes, hb]
  | cons b s ih =>
    rintro (_ | _ | left) a out ⟨-, hb, h0, hrest⟩ hn
    · exact absurd hn (not_lt_zero _)
    · simp only [length_cons] at hn
      omega
    · simp only [length_cons] at hn
      simp only [copyBytes, hb, h0, if_false]
      rw [ih hrest (by omega), append_assoc, singleton_append]

/-- The strings of a blob, one at each offset. -/
abbrev Strings (out : List UInt8) : List ℕ → List (List UInt8) → Prop :=
  List.Forall₂ fun off s => ∃ rest, out.drop off = s ++ 0 :: rest

theorem copyLoop_of_text (hs : Slots v uargv is ps) : ∀ {strs : List (List UInt8)} {c : Copied} {total : ℕ},
    List.Forall₂ (Text v) ps strs → total = c.out.length + sizes strs → total < u64 →
    (copyLoop v uargv total is c).1 ∧
      ∃ t offs, (copyLoop v uargv total is c).2 = ⟨c.vec ++ offs, c.out ++ t⟩ ∧ t.length = sizes strs ∧
        Strings (c.out ++ t) offs strs := by
  induction hs with
  | nil =>
    rintro strs c total ⟨⟩ - -
    exact ⟨rfl, [], [], by simp [copyLoop], rfl, .nil⟩
  | cons hp hrest ih =>
    rintro strs c total (_ | ⟨htext, hall⟩) htotal hlt
    rename_i i p is ps s strs
    rw [sizes_cons] at htotal
    have hroom : sub64 total c.out.length = s.length + 1 + sizes strs := by
      rw [sub64_of_le (by omega) hlt]
      omega
    unfold copyLoop
    rw [hp]
    dsimp only
    rw [hroom, copyBytes_of_text htext (by omega)]
    simp only [if_true]
    obtain ⟨hok, t, offs, heq, hlen, hstr⟩ := ih (c := ⟨c.vec ++ [c.out.length], c.out ++ s ++ [0]⟩) hall
      (by simp only [length_append, length_singleton]; omega) hlt
    refine ⟨hok, s ++ 0 :: t, c.out.length :: offs, ?_, ?_, ?_⟩
    · rw [heq]
      simp
    · rw [sizes_cons, length_append, length_cons, hlen]
      omega
    · have hout : c.out ++ s ++ [0] ++ t = c.out ++ (s ++ 0 :: t) := by simp
      simp only [hout] at hstr
      exact .cons ⟨t, drop_left⟩ hstr

/-! ## The result of `copy_user_vector` -/

/-- If the call comes to the copying pass, the strings it finds there fit into the measured total. -/
def CopyFits (counting measuring copying : View) (uargv : ℕ) (mem : Bool) : Prop :=
  uargv ≠ 0 → ∀ argc total, countLoop counting uargv (spawnMaxArgs + 1) 0 = .done argc →
    measureLoop measuring uargv (range argc) 0 = .done total → mem → Fits copying uargv (range argc) total

theorem Safe.none (o : Outcome Unit) : Safe (.none o) := ⟨le_rfl, le_rfl, fun _ _ h => absurd h not_mem_nil⟩

theorem measureLoop_le (is : List ℕ) : ∀ {total t : ℕ}, measureLoop v uargv is total = .done t →
    total ≤ spawnArgTotal → t ≤ spawnArgTotal := by
  induction is with
  | nil =>
    intro total t h hle
    cases h
    exact hle
  | cons i is ih =>
    intro total t h hle
    unfold measureLoop at h
    split at h
    · cases h
    · split at h
      · split at h
        · cases h
        · exact ih h (by omega)
      · rename_i hne
        exact absurd h (hne t)

section

variable {v1 v2 v3 : View} {mem : Bool}

/-- How a call ends. -/
inductive CallEnd (v1 v2 v3 : View) (uargv : ℕ) (mem : Bool) : Result → Prop
  | null (h0 : uargv = 0) : CallEnd v1 v2 v3 uargv mem (.none (.done ()))
  | notCounted (h0 : uargv ≠ 0) {o : Outcome Unit} (ho : ∀ argc, countLoop v1 uargv (spawnMaxArgs + 1) 0 ≠ .done argc)
      (he : ∀ e, o = .fail e → countLoop v1 uargv (spawnMaxArgs + 1) 0 = .fail e)
      (hh : o = .halt → countLoop v1 uargv (spawnMaxArgs + 1) 0 = .halt) (hd : o ≠ .done ()) :
      CallEnd v1 v2 v3 uargv mem (.none o)
  | empty (h0 : uargv ≠ 0) (hc : countLoop v1 uargv (spawnMaxArgs + 1) 0 = .done 0) :
      CallEnd v1 v2 v3 uargv mem (.none (.done ()))
  | notMeasured (h0 : uargv ≠ 0) {o : Outcome Unit} (argc : ℕ)
      (hc : countLoop v1 uargv (spawnMaxArgs + 1) 0 = .done argc)
      (ho : ∀ total, measureLoop v2 uargv (range argc) 0 ≠ .done total)
      (he : ∀ e, o = .fail e → measureLoop v2 uargv (range argc) 0 = .fail e)
      (hh : o = .halt → measureLoop v2 uargv (range argc) 0 = .halt) (hd : o ≠ .done ()) :
      CallEnd v1 v2 v3 uargv mem (.none o)
  | noMemory (h0 : uargv ≠ 0) (hm : mem = false) : CallEnd v1 v2 v3 uargv mem (.none (.fail .enomem))
  | copied (h0 : uargv ≠ 0) (argc total : ℕ) (hc : countLoop v1 uargv (spawnMaxArgs + 1) 0 = .done argc)
      (ht : measureLoop v2 uargv (range argc) 0 = .done total) (hm : mem) {r : Bool × Copied}
      (hr : r = copyLoop v3 uargv total (range argc) ⟨[], []⟩) :
      CallEnd v1 v2 v3 uargv mem ⟨if r.1 then .done () else .halt, argc, total, r.2⟩

theorem copyUserVector_cases (v1 v2 v3 : View) (uargv : ℕ) (memBlob memVec : Bool) :
    CallEnd v1 v2 v3 uargv (memBlob && memVec) (copyUserVector v1 v2 v3 uargv memBlob memVec) := by
  unfold copyUserVector
  split
  · rename_i h0
    exact .null h0
  rename_i h0
  split
  · rename_i e hc
    exact .notCounted h0 (by simp [hc]) (by simp [hc]) (by simp) (by simp)
  · rename_i hc
    exact .notCounted h0 (by simp [hc]) (by simp) (by simp [hc]) (by simp)
  rename_i argc hc
  split
  · rename_i hz
    exact .empty h0 (hz ▸ hc)
  split
  · rename_i e hm
    exact .notMeasured h0 argc hc (by simp [hm]) (by simp [hm]) (by simp) (by simp)
  · rename_i hm
    exact .notMeasured h0 argc hc (by simp [hm]) (by simp) (by simp [hm]) (by simp)
  rename_i total hm
  split
  · rename_i hmem
    exact .noMemory h0 (by simpa only [Bool.not_eq_true'] using hmem)
  · rename_i hmem
    exact .copied h0 argc total hc hm (by simpa using hmem) rfl

/-- **Where the copy writes.** -/
theorem safe_iff_copyFits (h : CallEnd v1 v2 v3 uargv mem r) : Safe r ↔ CopyFits v1 v2 v3 uargv mem := by
  cases h with
  | null h0 => exact ⟨fun _ hne => absurd h0 hne, fun _ => .none _⟩
  | notCounted h0 ho he hh hd => exact ⟨fun _ _ argc _ hc => absurd hc (ho argc), fun _ => .none _⟩
  | empty h0 hc =>
    refine ⟨fun _ _ argc total hc' _ _ => ?_, fun _ => .none _⟩
    rw [hc] at hc'
    cases hc'
    exact trivial
  | notMeasured h0 argc hc ho he hh hd =>
    refine ⟨fun _ _ argc' total hc' ht _ => ?_, fun _ => .none _⟩
    rw [hc] at hc'
    cases hc'
    exact absurd ht (ho total)
  | noMemory h0 hm =>
    refine ⟨fun _ _ _ _ _ _ hm' => ?_, fun _ => .none _⟩
    rw [hm] at hm'
    cases hm'
  | copied h0 argc total hc ht hm hr =>
    have hlt : total < u64 := lt_of_le_of_lt (measureLoop_le _ ht (zero_le _)) (by decide)
    have hin := copyLoop_inside v3 uargv hlt (range argc) ⟨[], []⟩ (zero_le _)
    obtain ⟨-, hvec, hnamed⟩ := copyLoop_goes v3 uargv total (range argc) ⟨[], []⟩
    rw [← hr] at hin hvec hnamed
    simp only [length_nil, Nat.sub_zero, zero_add, length_range] at hin hvec
    constructor
    · intro hs _ argc' total' hc' ht' _
      rw [hc] at hc'
      cases hc'
      rw [ht] at ht'
      cases ht'
      exact hin.1 hs.blob
    · intro hf
      refine ⟨hin.2 (hf h0 argc total hc ht hm), hvec, fun hdone off hoff => ?_⟩
      refine (hnamed ⟨nofun, nofun⟩ ?_).strings off hoff
      by_contra hno
      simp [hno] at hdone

theorem InLimits.nil : InLimits [] := ⟨zero_le _, fun _ h => absurd h not_mem_nil, zero_le _⟩

theorem InLimits.lt (h : InLimits strs) (ht : List.Forall₂ (Text v) ps strs) : ps.length < spawnMaxArgs + 1 := by
  rw [ht.length_eq]
  exact Nat.lt_succ_of_le h.count

theorem Given.of_ne_zero (h : Given v uargv strs) (h0 : uargv ≠ 0) :
    ∃ ps, Pointers v uargv 0 ps ∧ List.Forall₂ (Text v) ps strs :=
  h.elim (fun hz => absurd hz.1 h0) fun hp => hp.2

theorem counted_pointers (hc : countLoop v uargv (spawnMaxArgs + 1) 0 = .done argc) :
    ∃ ps, Pointers v uargv 0 ps ∧ ps.length = argc ∧ ps.length ≤ spawnMaxArgs ∧ Slots v uargv (range argc) ps := by
  have h := countLoop_cases v uargv (spawnMaxArgs + 1) 0
  rw [hc] at h
  generalize hz : (.done argc : Outcome ℕ) = o at h
  cases h with
  | pointers ps hps hn =>
    injection hz with hlen
    have hl : ps.length = argc := by omega
    refine ⟨ps, hps, hl, by omega, ?_⟩
    rw [range_eq_range', ← hl]
    exact hps.slots
  | tooMany | unreadable => cases hz

theorem measured_texts (hc : countLoop v uargv (spawnMaxArgs + 1) 0 = .done argc)
    (ht : measureLoop v uargv (range argc) 0 = .done total) :
    ∃ ps strs, Pointers v uargv 0 ps ∧ Slots v uargv (range argc) ps ∧ List.Forall₂ (Text v) ps strs ∧
      InLimits strs ∧ total = sizes strs := by
  obtain ⟨ps, hps, hlen, hle, hslots⟩ := counted_pointers hc
  have h := measureLoop_cases hslots 0 (zero_le _)
  rw [ht] at h
  generalize hz : (.done total : Outcome ℕ) = o at h
  cases h with
  | texts strs htext heach hsum =>
    injection hz with hz
    exact ⟨ps, strs, hps, hslots, htext, ⟨htext.length_eq ▸ hle, heach, by omega⟩, by omega⟩
  | stopped => cases hz

theorem copyFits_of_still : CopyFits v v v uargv mem := by
  intro _ argc total hc ht _
  obtain ⟨ps, strs, -, hslots, htext, hl, htotal⟩ := measured_texts hc ht
  have hlt : total < u64 := lt_of_le_of_lt (htotal ▸ hl.total) (by decide)
  obtain ⟨-, t, offs, heq, hlen, -⟩ :=
    copyLoop_of_text hslots (c := ⟨[], []⟩) htext (by rw [htotal, length_nil, zero_add]) hlt
  have hin := (copyLoop_inside v uargv hlt (range argc) ⟨[], []⟩ (zero_le _)).1
  rw [heq] at hin
  simp only [nil_append, length_nil, Nat.sub_zero] at hin
  exact hin (by omega)

theorem refused_of_fail (h : CallEnd v v v uargv mem r) (hr : r.outcome = .fail e) (he : e ≠ .enomem) :
    uargv ≠ 0 ∧ Refused v uargv e := by
  cases h with
  | null | empty => cases hr
  | notCounted h0 _ hfail =>
    have hcount := countLoop_cases v uargv (spawnMaxArgs + 1) 0
    rw [hfail e hr] at hcount
    refine ⟨h0, ?_⟩
    cases hcount with
    | tooMany hmany => exact .count fun j hj => by simpa using hmany j hj
    | unreadable i hi hbefore hun => exact .slot i hi (fun j hj => by simpa using hbefore j hj) (by simpa using hun)
  | notMeasured h0 argc hc _ hfail =>
    obtain ⟨ps, hps, -, hle, hslots⟩ := counted_pointers hc
    have hmeasure := measureLoop_cases hslots 0 (zero_le _)
    rw [hfail e hr] at hmeasure
    refine ⟨h0, ?_⟩
    cases hmeasure with
    | stopped before after p strs hsplit htext heach hsum hstop =>
      subst hsplit
      rw [Nat.zero_add] at hsum hstop
      exact .string before after p strs hps hle htext heach hsum hstop
  | noMemory => exact absurd (Outcome.fail.inj hr).symm he
  | copied _ _ _ _ _ _ => split at hr <;> cases hr

theorem fails_of_refused (h0 : uargv ≠ 0) (h : Refused v uargv e) (memBlob memVec : Bool) :
    (copyUserVector v v v uargv memBlob memVec).outcome = .fail e := by
  unfold copyUserVector
  rw [if_neg h0]
  cases h with
  | count hmany =>
    have hc : countLoop v uargv (spawnMaxArgs + 1 + 0) 0 = _ :=
      countLoop_past 0 fun j hj => by simpa using hmany j hj
    rw [Nat.add_zero] at hc
    rw [hc]
    rfl
  | slot i hi hbefore hun =>
    have hc : countLoop v uargv (i + (spawnMaxArgs - i + 1)) 0 = _ :=
      countLoop_past (spawnMaxArgs - i + 1) fun j hj => by simpa using hbefore j hj
    rw [show i + (spawnMaxArgs - i + 1) = spawnMaxArgs + 1 by omega, Nat.zero_add] at hc
    rw [hc, countLoop, hun]
    rfl
  | string before after p strs hps hcount htext heach hsum hstop =>
    rw [countLoop_of_pointers hps (Nat.lt_succ_of_le hcount), Nat.zero_add]
    dsimp only
    rw [if_neg (by simp)]
    -- the indices split as the pointers do
    have hslots : Slots v uargv (range (before ++ p :: after).length) (before ++ p :: after) := by
      rw [range_eq_range']
      exact hps.slots
    have hleft := forall₂_take_append _ _ _ hslots
    have hright := forall₂_drop_append _ _ _ hslots
    rw [← take_append_drop before.length (range (before ++ p :: after).length),
      measureLoop_past hleft _ htext heach (by omega), Nat.zero_add]
    generalize drop before.length (range (before ++ p :: after).length) = is at hright
    cases hright with
    | cons hw _ =>
      rw [measureLoop_of_stop hw hstop]
      rfl

/-- **The vector of a process that holds still.** -/
theorem exact_of_still (h : CallEnd v v v uargv mem r) (hrefused : ∀ e, uargv ≠ 0 → Refused v uargv e → r.outcome = .fail e) :
    Exact v uargv mem r := by
  have hiff : ∀ e, e ≠ .enomem → (r.outcome = .fail e ↔ uargv ≠ 0 ∧ Refused v uargv e) := fun e he =>
    ⟨fun hr => refused_of_fail h hr he, fun hr => hrefused e hr.1 hr.2⟩
  cases h with
  | null h0 => exact ⟨nofun, fun _ => ⟨[], .inl ⟨h0, rfl⟩, .nil, .nil⟩, fun _ _ _ _ => rfl, hiff, nofun⟩
  | notCounted h0 ho he hh hd =>
    have hcount := countLoop_cases v uargv (spawnMaxArgs + 1) 0
    refine ⟨fun h => ?_, fun h => absurd h hd, fun strs hg hl _ => ?_, hiff, fun h => ?_⟩
    · rw [hh h] at hcount
      cases hcount
    · obtain ⟨ps, hps, htext⟩ := hg.of_ne_zero h0
      exact absurd (countLoop_of_pointers hps (hl.lt htext)) (ho _)
    · rw [he _ h] at hcount
      cases hcount
  | empty h0 hc =>
    obtain ⟨ps, hps, hlen, -, -⟩ := counted_pointers hc
    cases length_eq_zero_iff.1 hlen
    exact ⟨nofun, fun _ => ⟨[], .inr ⟨h0, [], hps, .nil⟩, .nil, .nil⟩, fun _ _ _ _ => rfl, hiff, nofun⟩
  | notMeasured h0 argc hc ho he hh hd =>
    obtain ⟨ps, hps, hlen, hle, hslots⟩ := counted_pointers hc
    have hmeasure := measureLoop_cases hslots 0 (zero_le _)
    refine ⟨fun h => ?_, fun h => absurd h hd, fun strs hg hl _ => ?_, hiff, fun h => ?_⟩
    · rw [hh h] at hmeasure
      cases hmeasure
    · -- the pointers of the given strings are the ones that were counted
      obtain ⟨qs, hqs, htext⟩ := hg.of_ne_zero h0
      have hcq := countLoop_of_pointers hqs (hl.lt htext)
      rw [hc, Outcome.done.injEq, Nat.zero_add] at hcq
      have hpast := measureLoop_past hqs.slots [] htext hl.each (by rw [Nat.zero_add]; exact hl.total)
      rw [append_nil, ← hcq, ← range_eq_range'] at hpast
      exact absurd hpast (ho _)
    · rw [he _ h] at hmeasure
      cases hmeasure with
      | stopped _ _ _ _ _ _ _ _ hstop => cases hstop
  | noMemory h0 hm => exact ⟨nofun, nofun, fun _ _ _ hm' => absurd (hm.symm.trans hm') nofun, hiff, fun _ => hm⟩
  | copied h0 argc total hc ht hm hr =>
    obtain ⟨ps, strs, hps, hslots, htext, hl, htotal⟩ := measured_texts hc ht
    have hlt : total < u64 := lt_of_le_of_lt (htotal ▸ hl.total) (by decide)
    obtain ⟨hok, t, offs, heq, -, hstr⟩ :=
      copyLoop_of_text hslots (c := ⟨[], []⟩) htext (by rw [htotal, length_nil, Nat.zero_add]) hlt
    rw [← hr] at hok heq
    simp only [hok, if_true] at hiff ⊢
    refine ⟨nofun, fun _ => ⟨strs, .inr ⟨h0, ps, hps, htext⟩, hl, ?_⟩, fun _ _ _ _ => rfl, hiff, nofun⟩
    rw [heq]
    exact hstr

end

/-- **Copying an argument vector.** The call writes only inside its blocks and returns terminated strings
just if the strings the copying pass finds fit into what was measured; and if nobody changes the memory, it
returns the given strings or fails by the limits. -/
theorem copy_user_vector_correct (counting measuring copying : View) (uargv : ℕ) (memBlob memVec : Bool) :
    (Safe (copyUserVector counting measuring copying uargv memBlob memVec) ↔
      CopyFits counting measuring copying uargv (memBlob && memVec)) ∧
    ∀ v, Safe (copyUserVector v v v uargv memBlob memVec) ∧
      Exact v uargv (memBlob && memVec) (copyUserVector v v v uargv memBlob memVec) := by
  refine ⟨safe_iff_copyFits (copyUserVector_cases ..), fun v =>
    ⟨?_, exact_of_still (copyUserVector_cases ..) fun e h0 h => ?_⟩⟩
  · exact (safe_iff_copyFits (copyUserVector_cases ..)).2 copyFits_of_still
  · exact fails_of_refused h0 h memBlob memVec

/-- User memory with the given bytes from `0x8000000000` on and nothing else. -/
def viewOf (bytes : List UInt8) : View where
  byte a := if 0x8000000000 ≤ a then bytes[a - 0x8000000000]? else none
  readable a := decide (0x8000000000 ≤ a ∧ a - 0x8000000000 < bytes.length ∧ a < userAddrLimit)
  mapped a h := by
    obtain ⟨h1, h2, -⟩ := of_decide_eq_true h
    simp [h1, h2]
  user a h := (of_decide_eq_true h).2.2

/-- A vector of two strings of one letter; `end0` is the terminator of the first. -/
def twoStrings (end0 : UInt8) : View :=
  viewOf ([0x18, 0, 0, 0, 0x80, 0, 0, 0] ++ [0x1A, 0, 0, 0, 0x80, 0, 0, 0] ++ List.replicate 8 0 ++ [0x61, end0, 0x62, 0])

/-- **Where the copy leaves the blob.** The measured total is four bytes. Another thread overwrites the
terminator of the first string, the copy of that string fills the blob, and the second string's terminator
goes behind it. -/
theorem copy_overruns_blob : ¬ Safe (copyUserVector (twoStrings 0) (twoStrings 0)
    (twoStrings 0x61) 0x8000000000 true true) := by
  have h : (copyUserVector (twoStrings 0) (twoStrings 0) (twoStrings 0x61) 0x8000000000 true true).copied.out.length = 5 ∧
      (copyUserVector (twoStrings 0) (twoStrings 0) (twoStrings 0x61) 0x8000000000 true true).total = 4 := by
    decide
  intro hs
  have := hs.blob
  omega

end NeoOS.ArgVector

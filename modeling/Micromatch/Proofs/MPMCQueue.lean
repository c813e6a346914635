import Micromatch.Core.Order
import Micromatch.Spec.Queue

namespace Micromatch.Proofs
open Micromatch.Utils Micromatch.Spec MPMCQueue

theorem intptrDiff_eq (a b : UInt64) : intptrDiff a b =
    if 2 * (a - b).toNat < UInt64.size then ((a - b).toNat : Int)
    else ((a - b).toNat : Int) - UInt64.size :=
  BitVec.toInt_eq_toNat_cond _

theorem intptrDiff_eq_zero {a b : UInt64} : intptrDiff a b = 0 ↔ a = b := by
  have ha := a.toNat_lt_size
  have hb := b.toNat_lt_size
  have hd := (a - b).toNat_lt_size
  rw [intptrDiff_eq, UInt64.eq_iff_toNat_eq]
  rw [UInt64.toNat_sub_mod] at hd ⊢
  simp only [UInt64.size] at *
  split <;> omega

theorem intptrDiff_neg {a b : UInt64} : intptrDiff a b < 0 ↔ UInt64.size ≤ 2 * (a - b).toNat := by
  have hd := (a - b).toNat_lt_size
  rw [intptrDiff_eq]
  simp only [UInt64.size] at *
  split <;> omega

theorem add_one_add_ofNat (pos : UInt64) (k : Nat) :
    pos + 1 + UInt64.ofNat k = pos + UInt64.ofNat (k + 1) := by
  rw [UInt64.ofNat_succ, add_right_comm, add_assoc]

section Size

variable {Size : Nat} (hpow : Size.isPowerOfTwo) (hlt : Size < 2 ^ 64)
include hpow hlt

theorem mask_toNat : (mask Size).toNat = Size - 1 := by
  have := Nat.pos_of_isPowerOfTwo hpow
  rw [mask, UInt64.toNat_sub_mod, UInt64.toNat_ofNat_mod]
  have h1 : (1 : UInt64).toNat = 1 := rfl
  simp only [UInt64.size, h1] at *
  omega

theorem and_mask_toNat (p : UInt64) : (p &&& mask Size).toNat = p.toNat % Size := by
  rw [UInt64.and_toNat, mask_toNat hpow hlt]
  obtain ⟨j, rfl⟩ := hpow
  exact Nat.and_pow_two_sub_one_eq_mod _ _

theorem size_dvd_wordSize : Size ∣ UInt64.size := by
  obtain ⟨j, rfl⟩ := hpow
  exact Nat.pow_dvd_pow 2 ((Nat.pow_lt_pow_iff_right (by decide)).mp hlt).le

theorem size_le_half : Size ≤ 2 ^ 63 := by
  obtain ⟨j, rfl⟩ := hpow
  exact Nat.pow_le_pow_right (by decide) (Nat.lt_succ_iff.mp ((Nat.pow_lt_pow_iff_right (by decide)).mp hlt))

/-- The cell `k` places after `pos`. -/
theorem offset_and_mask_toNat (pos : UInt64) {k : Nat} (hk : k < UInt64.size) :
    ((pos + UInt64.ofNat k) &&& mask Size).toNat = (pos.toNat + k) % Size := by
  rw [and_mask_toNat hpow hlt, UInt64.toNat_add_mod, UInt64.toNat_ofNat_mod, Nat.mod_eq_of_lt hk,
    Nat.mod_mod_of_dvd _ (size_dvd_wordSize hpow hlt)]

/-- Fewer than `Size` places apart, two positions use different cells. -/
theorem offset_and_mask_inj (pos : UInt64) {k k' : Nat} (hk : k < Size) (hk' : k' < Size) :
    (pos + UInt64.ofNat k) &&& mask Size = (pos + UInt64.ofNat k') &&& mask Size ↔ k = k' := by
  have hW : Size < UInt64.size := hlt
  rw [UInt64.eq_iff_toNat_eq, offset_and_mask_toNat hpow hlt _ (by omega),
    offset_and_mask_toNat hpow hlt _ (by omega)]
  refine ⟨fun h => ?_, fun h => h ▸ rfl⟩
  have := Nat.ModEq.add_left_cancel' pos.toNat h
  rwa [Nat.ModEq, Nat.mod_eq_of_lt hk, Nat.mod_eq_of_lt hk'] at this

/-- Between one and `Size - 1` places on, a position is at another cell. -/
theorem offset_and_mask_ne_base (pos : UInt64) {k : Nat} (hk0 : 0 < k) (hk : k < Size) :
    (pos + UInt64.ofNat k) &&& mask Size ≠ pos &&& mask Size := by
  have h := offset_and_mask_inj hpow hlt pos hk (Nat.zero_lt_of_lt hk)
  rw [UInt64.ofNat_zero, add_zero] at h
  exact mt h.mp hk0.ne'

/-- `Size` places on, a position is back at its cell. -/
theorem offset_size_and_mask (pos : UInt64) :
    (pos + UInt64.ofNat Size) &&& mask Size = pos &&& mask Size := by
  rw [UInt64.eq_iff_toNat_eq, offset_and_mask_toNat hpow hlt _ hlt, and_mask_toNat hpow hlt,
    Nat.add_mod_right]

end Size

section Turns

variable {α : Type} {Size : Nat} (Q : MPMCQueue α Size)

@[simp] theorem enqueueAt_enqueuePos (pos : UInt64) (value : α) :
    (Q.enqueueAt pos value).enqueuePos = pos + 1 := rfl

@[simp] theorem enqueueAt_dequeuePos (pos : UInt64) (value : α) :
    (Q.enqueueAt pos value).dequeuePos = Q.dequeuePos := rfl

theorem cell_enqueueAt (pos : UInt64) (value : α) (p : UInt64) :
    (Q.enqueueAt pos value).cell p =
      if p &&& mask Size = pos &&& mask Size then ⟨pos + 1, value⟩ else Q.cell p :=
  Function.update_apply ..

@[simp] theorem dequeueAt_enqueuePos (pos : UInt64) : (Q.dequeueAt pos).enqueuePos = Q.enqueuePos :=
  rfl

@[simp] theorem dequeueAt_dequeuePos (pos : UInt64) : (Q.dequeueAt pos).dequeuePos = pos + 1 :=
  rfl

theorem cell_dequeueAt (pos : UInt64) (p : UInt64) :
    (Q.dequeueAt pos).cell p = if p &&& mask Size = pos &&& mask Size
      then ⟨pos + UInt64.ofNat Size, (Q.cell pos).data⟩ else Q.cell p :=
  Function.update_apply ..

end Turns

section Calls

variable {α : Type} {Size : Nat} (Q : MPMCQueue α Size)

theorem tryEnqueue_of_ready (value : α) (fuel : Nat)
    (hseq : (Q.cell Q.enqueuePos).sequence = Q.enqueuePos) :
    Q.tryEnqueue value (fuel + 1) = some (true, Q.enqueueAt Q.enqueuePos value) := by
  simp [tryEnqueue, tryEnqueueLoop, hseq, intptrDiff_eq_zero.mpr rfl]

theorem tryEnqueue_of_neg (value : α) (fuel : Nat)
    (hd : intptrDiff (Q.cell Q.enqueuePos).sequence Q.enqueuePos < 0) :
    Q.tryEnqueue value (fuel + 1) = some (false, Q) := by
  simp [tryEnqueue, tryEnqueueLoop, hd, hd.ne]

theorem tryDequeue_of_ready (fuel : Nat)
    (hseq : (Q.cell Q.dequeuePos).sequence = Q.dequeuePos + 1) :
    Q.tryDequeue (fuel + 1) = some (some (Q.cell Q.dequeuePos).data, Q.dequeueAt Q.dequeuePos) := by
  simp [tryDequeue, tryDequeueLoop, hseq, intptrDiff_eq_zero.mpr rfl]

theorem tryDequeue_of_neg (fuel : Nat)
    (hd : intptrDiff (Q.cell Q.dequeuePos).sequence (Q.dequeuePos + 1) < 0) :
    Q.tryDequeue (fuel + 1) = some (none, Q) := by
  simp [tryDequeue, tryDequeueLoop, hd, hd.ne]

/-- A stamp ahead of the position sends the loop back to the same position for ever. -/
theorem tryDequeue_of_pos (hd : 0 < intptrDiff (Q.cell Q.dequeuePos).sequence (Q.dequeuePos + 1))
    (fuel : Nat) : Q.tryDequeue fuel = none := by
  induction fuel with
  | zero => rfl
  | succ fuel ih => simpa [tryDequeue, tryDequeueLoop, hd.ne', not_lt.mpr hd.le] using ih

end Calls

section Refinement

variable {α : Type} {Size : Nat}

/-- How the ring holds `items`: `enqueue_pos_` is `items.length` places after `dequeue_pos_`;
the cell `k` places after `dequeue_pos_` is stamped one past its position and holds the `k`-th
oldest item for `k < items.length`, and is stamped with its position for the other `k < Size`. -/
structure Holds (Q : MPMCQueue α Size) (items : List α) : Prop where
  length_le : items.length ≤ Size
  enqueuePos_eq : Q.enqueuePos = Q.dequeuePos + UInt64.ofNat items.length
  held : ∀ k (hk : k < items.length),
    (Q.cell (Q.dequeuePos + UInt64.ofNat k)).sequence = Q.dequeuePos + UInt64.ofNat k + 1 ∧
      (Q.cell (Q.dequeuePos + UInt64.ofNat k)).data = items[k]
  free : ∀ k, items.length ≤ k → k < Size →
    (Q.cell (Q.dequeuePos + UInt64.ofNat k)).sequence = Q.dequeuePos + UInt64.ofNat k

variable (hpow : Size.isPowerOfTwo) (hlt : Size < 2 ^ 64)
include hpow hlt

theorem holds_create [Inhabited α] : Holds (MPMCQueue.create Size : MPMCQueue α Size) [] where
  length_le := Nat.zero_le _
  enqueuePos_eq := rfl
  held _ hk := absurd hk (Nat.not_lt_zero _)
  free k _ hk := by
    have hW : Size < UInt64.size := hlt
    simp only [MPMCQueue.create, cell, zero_add, UInt64.eq_iff_toNat_eq, and_mask_toNat hpow hlt,
      UInt64.toNat_ofNat_mod, Nat.mod_eq_of_lt (show k < UInt64.size by omega), Nat.mod_eq_of_lt hk]

variable {Q : MPMCQueue α Size} {items : List α}

theorem Holds.enqueue (h : Holds Q items) (hn : items.length < Size) (value : α) :
    Holds (Q.enqueueAt Q.enqueuePos value) (items ++ [value]) where
  length_le := by simpa using hn
  enqueuePos_eq := by simp [h.enqueuePos_eq, UInt64.ofNat_succ, add_assoc]
  held k hk := by
    have hk' : k < items.length + 1 := by simpa using hk
    rw [enqueueAt_dequeuePos, cell_enqueueAt, h.enqueuePos_eq]
    split_ifs with he
    · obtain rfl := (offset_and_mask_inj hpow hlt _ (show k < Size by omega) hn).mp he
      simp
    · have hkn : k < items.length := by
        rcases Nat.lt_succ_iff_lt_or_eq.mp hk' with hkn | rfl
        · exact hkn
        · exact absurd rfl he
      simpa [List.getElem_append_left hkn] using h.held k hkn
  free k hk hks := by
    have hk' : items.length + 1 ≤ k := by simpa using hk
    rw [enqueueAt_dequeuePos, cell_enqueueAt, h.enqueuePos_eq,
      if_neg (mt (offset_and_mask_inj hpow hlt _ hks hn).mp (by omega))]
    exact h.free k (by omega) hks

theorem Holds.dequeue (h : Holds Q (a :: items)) : Holds (Q.dequeueAt Q.dequeuePos) items where
  length_le := by simpa using (h.length_le.trans' (Nat.le_succ _))
  enqueuePos_eq := by
    rw [dequeueAt_enqueuePos, h.enqueuePos_eq, dequeueAt_dequeuePos, add_one_add_ofNat]; rfl
  held k hk := by
    have hn : items.length + 1 ≤ Size := by simpa using h.length_le
    rw [dequeueAt_dequeuePos, cell_dequeueAt, add_one_add_ofNat,
      if_neg (offset_and_mask_ne_base hpow hlt _ k.succ_pos (by omega))]
    simpa using h.held (k + 1) (by simpa using hk)
  free k hk hks := by
    have hn : items.length + 1 ≤ Size := by simpa using h.length_le
    rw [dequeueAt_dequeuePos, cell_dequeueAt, add_one_add_ofNat]
    by_cases hk1 : k + 1 = Size
    · rw [hk1, offset_size_and_mask hpow hlt, if_pos rfl]
    · rw [if_neg (offset_and_mask_ne_base hpow hlt _ k.succ_pos (by omega))]
      exact h.free (k + 1) (by simpa using hk) (by omega)

/-- With fewer than `Size` items held `try_enqueue` fills the next cell at its first turn;
with `Size` held it finds the oldest item's stamp one lap behind and reports the ring full. -/
theorem Holds.tryEnqueue (hS : 2 ≤ Size) (h : Holds Q items) (value : α) (fuel : Nat) :
    ∃ Q', Q.tryEnqueue value (fuel + 1) = some ((fifoEnqueue Size items value).1, Q') ∧
      Holds Q' (fifoEnqueue Size items value).2 := by
  by_cases hn : items.length < Size
  · have hseq : (Q.cell Q.enqueuePos).sequence = Q.enqueuePos := by
      rw [h.enqueuePos_eq]; exact h.free _ le_rfl hn
    exact ⟨Q.enqueueAt Q.enqueuePos value,
      by rw [tryEnqueue_of_ready Q value fuel hseq]; simp [fifoEnqueue, hn],
      by simpa [fifoEnqueue, hn] using h.enqueue hpow hlt hn value⟩
  · have hfull : items.length = Size := le_antisymm h.length_le (not_lt.mp hn)
    have hseq : (Q.cell Q.enqueuePos).sequence = Q.dequeuePos + 1 := by
      have := (h.held 0 (by omega)).1
      rw [UInt64.ofNat_zero, add_zero] at this
      rwa [h.enqueuePos_eq, hfull, cell, offset_size_and_mask hpow hlt]
    have hd : intptrDiff (Q.cell Q.enqueuePos).sequence Q.enqueuePos < 0 := by
      have hW := size_le_half hpow hlt
      rw [intptrDiff_neg, hseq, h.enqueuePos_eq, hfull, add_sub_add_left_eq_sub,
        UInt64.toNat_sub_mod, UInt64.toNat_ofNat_mod]
      have h1 : (1 : UInt64).toNat = 1 := rfl
      simp only [UInt64.size, h1] at *
      omega
    exact ⟨Q, by rw [tryEnqueue_of_neg Q value fuel hd]; simp [fifoEnqueue, hn],
      by simpa [fifoEnqueue, hn] using h⟩

/-- `try_dequeue` takes the oldest item at its first turn, or finds the cell at
`dequeue_pos_` free and reports the ring empty. -/
theorem Holds.tryDequeue (h : Holds Q items) (fuel : Nat) :
    ∃ Q', Q.tryDequeue (fuel + 1) = some ((fifoDequeue items).1, Q') ∧
      Holds Q' (fifoDequeue items).2 := by
  cases items with
  | nil =>
    have hseq : (Q.cell Q.dequeuePos).sequence = Q.dequeuePos := by
      simpa using h.free 0 le_rfl (Nat.pos_of_isPowerOfTwo hpow)
    have hd : intptrDiff (Q.cell Q.dequeuePos).sequence (Q.dequeuePos + 1) < 0 := by
      have hm : (-1 : UInt64).toNat = UInt64.size - 1 := rfl
      rw [intptrDiff_neg, hseq, sub_add_cancel_left, hm]
      decide
    exact ⟨Q, by rw [tryDequeue_of_neg Q fuel hd]; rfl, h⟩
  | cons a items =>
    have ha := h.held 0 (Nat.succ_pos _)
    simp only [UInt64.ofNat_zero, add_zero] at ha
    exact ⟨_, by rw [tryDequeue_of_ready Q fuel ha.1, ha.2]; rfl, h.dequeue hpow hlt⟩

/-- On one thread a refused `try_enqueue` changes nothing, so the retries of the blocking
`enqueue` are refused too: it returns what one call returns. -/
theorem Holds.enqueue_retries (hS : 2 ≤ Size) (h : Holds Q items) (value : α) (maxRetries : Nat) :
    ∃ Q', Q.enqueue value 1 (maxRetries + 1) = some ((fifoEnqueue Size items value).1, Q') ∧
      Holds Q' (fifoEnqueue Size items value).2 := by
  induction maxRetries generalizing Q with
  | zero =>
    obtain ⟨Q', hQ, hh⟩ := h.tryEnqueue hpow hlt hS value 0
    refine ⟨Q', ?_, hh⟩
    cases hb : (fifoEnqueue Size items value).1 <;> simp_all [MPMCQueue.enqueue]
  | succ m ih =>
    obtain ⟨Q', hQ, hh⟩ := h.tryEnqueue hpow hlt hS value 0
    by_cases hn : items.length < Size
    · refine ⟨Q', ?_, hh⟩
      simp_all [MPMCQueue.enqueue, fifoEnqueue]
    · simp only [fifoEnqueue, hn, if_false] at hQ hh ⊢
      obtain ⟨Q'', hQ', hh'⟩ := ih hh
      simp only [fifoEnqueue, hn, if_false] at hQ' hh'
      exact ⟨Q'', by rw [MPMCQueue.enqueue, hQ]; exact hQ', hh'⟩

/-- Likewise the blocking `dequeue` returns what one `try_dequeue` returns. -/
theorem Holds.dequeue_retries (h : Holds Q items) (maxRetries : Nat) :
    ∃ Q', Q.dequeue 1 (maxRetries + 1) = some ((fifoDequeue items).1, Q') ∧
      Holds Q' (fifoDequeue items).2 := by
  induction maxRetries generalizing Q with
  | zero =>
    obtain ⟨Q', hQ, hh⟩ := h.tryDequeue hpow hlt 0
    refine ⟨Q', ?_, hh⟩
    cases items <;> simp_all [MPMCQueue.dequeue, fifoDequeue]
  | succ m ih =>
    obtain ⟨Q', hQ, hh⟩ := h.tryDequeue hpow hlt 0
    cases items with
    | nil =>
      obtain ⟨Q'', hQ', hh'⟩ := ih hh
      exact ⟨Q'', by rw [MPMCQueue.dequeue, hQ]; exact hQ', hh'⟩
    | cons a items => exact ⟨Q', by simp_all [MPMCQueue.dequeue, fifoDequeue], hh⟩

theorem Holds.call (hS : 2 ≤ Size) (h : Holds Q items) (c : QueueCall α) :
    ∃ Q', Q.call 1 c = some ((fifoCall Size items c).1, Q') ∧ Holds Q' (fifoCall Size items c).2 := by
  cases c with
  | tryEnqueue value =>
    obtain ⟨Q', hQ, hh⟩ := h.tryEnqueue hpow hlt hS value 0
    exact ⟨Q', by simp [MPMCQueue.call, hQ, fifoCall], hh⟩
  | tryDequeue =>
    obtain ⟨Q', hQ, hh⟩ := h.tryDequeue hpow hlt 0
    exact ⟨Q', by simp [MPMCQueue.call, hQ, fifoCall], hh⟩
  | enqueue value maxRetries =>
    cases maxRetries with
    | zero => exact ⟨Q, rfl, h⟩
    | succ m =>
      obtain ⟨Q', hQ, hh⟩ := h.enqueue_retries hpow hlt hS value m
      exact ⟨Q', by simp [MPMCQueue.call, hQ, fifoCall], hh⟩
  | dequeue maxRetries =>
    cases maxRetries with
    | zero => exact ⟨Q, rfl, h⟩
    | succ m =>
      obtain ⟨Q', hQ, hh⟩ := h.dequeue_retries hpow hlt m
      exact ⟨Q', by simp [MPMCQueue.call, hQ, fifoCall], hh⟩

theorem Holds.run (hS : 2 ≤ Size) (h : Holds Q items) (calls : List (QueueCall α)) :
    ∃ Q', Q.run 1 calls = some ((fifoRun Size items calls).1, Q') ∧
      Holds Q' (fifoRun Size items calls).2 := by
  induction calls generalizing Q items with
  | nil => exact ⟨Q, rfl, h⟩
  | cons c calls ih =>
    obtain ⟨Q₁, h₁, hh₁⟩ := h.call hpow hlt hS c
    obtain ⟨Q₂, h₂, hh₂⟩ := ih hh₁
    exact ⟨Q₂, by simp [MPMCQueue.run, h₁, h₂, fifoRun], hh₂⟩

omit hpow in
/-- `empty()` is exact on one thread. -/
theorem Holds.empty_iff (h : Holds Q items) : Q.empty = true ↔ items = [] := by
  have hn := h.length_le
  have hW : Size < UInt64.size := hlt
  rw [MPMCQueue.empty, decide_eq_true_iff, h.enqueuePos_eq, add_right_eq_self,
    UInt64.eq_iff_toNat_eq, UInt64.toNat_ofNat_mod, Nat.mod_eq_of_lt (by omega),
    UInt64.toNat_zero, List.length_eq_zero]

/-- `size_approx()` counts the items held modulo `Size`: a full ring reads as empty. -/
theorem Holds.sizeApprox_toNat (h : Holds Q items) : Q.sizeApprox.toNat = items.length % Size := by
  have hW : Size < UInt64.size := hlt
  rw [MPMCQueue.sizeApprox, h.enqueuePos_eq, add_sub_cancel_left, and_mask_toNat hpow hlt,
    UInt64.toNat_ofNat_mod, Nat.mod_eq_of_lt (show items.length < UInt64.size by
      have := h.length_le; omega)]

/-- One thread's calls on a fresh ring of any admitted size from two up, through any number of
laps and across the wrap of the 64-bit positions: every `try_` call returns at its first turn,
and every call with what a FIFO of capacity `Size` returns; the ring goes on holding that FIFO's
items. -/
theorem ring_refines_boundedFifo [Inhabited α] (hS : 2 ≤ Size) (calls : List (QueueCall α)) :
    ∃ Q, (MPMCQueue.create Size : MPMCQueue α Size).run 1 calls =
      some ((fifoRun Size [] calls).1, Q) ∧ Holds Q (fifoRun Size [] calls).2 :=
  (holds_create hpow hlt).run hpow hlt hS calls

omit hpow hlt in
/-- A ring of two cells filled, refusing a third item, emptied by a blocking `dequeue` and
`try_dequeue`; a blocking `enqueue` of no retries refuses without trying. -/
theorem ring_of_two_runs_as_fifo :
    let calls : List (QueueCall Nat) :=
      [.tryEnqueue 1, .enqueue 2 5, .tryEnqueue 3, .dequeue 5, .enqueue 4 0, .tryDequeue, .tryDequeue]
    (fifoRun 2 [] calls).1 = [.enqueued true, .enqueued true, .enqueued false, .dequeued (some 1),
      .enqueued false, .dequeued (some 2), .dequeued none] ∧
      Nat.isPowerOfTwo 2 ∧ 2 < 2 ^ 64 ∧ 2 ≤ 2 ∧
      ∃ Q, (MPMCQueue.create 2 : MPMCQueue Nat 2).run 1 calls =
        some ((fifoRun 2 [] calls).1, Q) ∧ Holds Q (fifoRun 2 [] calls).2 :=
  ⟨rfl, ⟨1, rfl⟩, by norm_num, le_rfl, ring_refines_boundedFifo ⟨1, rfl⟩ (by norm_num) le_rfl _⟩

/-- After any run of one thread's calls on a fresh ring of admitted size from two up, `empty()` is
exact and `size_approx()` is the number held modulo `Size`: a full ring reads 0 while `empty()` is
false. -/
theorem ring_sizeApprox_wraps_when_full [Inhabited α] (hS : 2 ≤ Size) (calls : List (QueueCall α)) :
    ∃ Q, (MPMCQueue.create Size : MPMCQueue α Size).run 1 calls =
        some ((fifoRun Size [] calls).1, Q) ∧
      Q.sizeApprox.toNat = (fifoRun Size [] calls).2.length % Size ∧
      (Q.empty = true ↔ (fifoRun Size [] calls).2 = []) ∧
      ((fifoRun Size [] calls).2.length = Size → Q.sizeApprox = 0 ∧ Q.empty = false) := by
  obtain ⟨Q, hrun, hh⟩ := (holds_create hpow hlt).run hpow hlt hS calls
  refine ⟨Q, hrun, hh.sizeApprox_toNat hpow hlt, hh.empty_iff hlt, fun hfull => ⟨?_, ?_⟩⟩
  · rw [UInt64.eq_iff_toNat_eq, hh.sizeApprox_toNat hpow hlt, hfull, Nat.mod_self]
    rfl
  · rw [Bool.eq_false_iff, Ne, hh.empty_iff hlt]
    intro he
    rw [he, List.length_nil] at hfull
    omega

end Refinement

/-- Two items fill a ring of two cells. -/
theorem ring_of_two_filled :
    let calls : List (QueueCall Nat) := [.tryEnqueue 1, .tryEnqueue 2]
    (fifoRun 2 [] calls).2 = [1, 2] ∧ Nat.isPowerOfTwo 2 ∧ 2 < 2 ^ 64 ∧ 2 ≤ 2 ∧
      ∃ Q, (MPMCQueue.create 2 : MPMCQueue Nat 2).run 1 calls =
          some ((fifoRun 2 [] calls).1, Q) ∧
        Q.sizeApprox.toNat = (fifoRun 2 [] calls).2.length % 2 ∧
        (Q.empty = true ↔ (fifoRun 2 [] calls).2 = []) ∧
        ((fifoRun 2 [] calls).2.length = 2 → Q.sizeApprox = 0 ∧ Q.empty = false) :=
  ⟨rfl, ⟨1, rfl⟩, by norm_num, le_rfl,
    ring_sizeApprox_wraps_when_full ⟨1, rfl⟩ (by norm_num) le_rfl _⟩

theorem size_one_ring_overwrites_then_spins :
    sizeAdmitted 1 = true ∧
      (fifoRun 1 [] [.tryEnqueue 7, .tryEnqueue 8]).1 = [.enqueued true, .enqueued false] ∧
      ∃ Q : MPMCQueue Nat 1, (MPMCQueue.create 1).run 1 [.tryEnqueue 7, .tryEnqueue 8] =
        some ([.enqueued true, .enqueued true], Q) ∧ ∀ fuel, Q.tryDequeue fuel = none :=
  ⟨by decide, rfl, _, rfl, tryDequeue_of_pos _ (by decide)⟩

end Micromatch.Proofs

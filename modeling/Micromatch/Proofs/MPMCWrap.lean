import Micromatch.Proofs.MPMCSafety

namespace Micromatch.Utils.RingSystem
open Micromatch.Proofs

variable {α : Type} {Size : Nat} {s s' : RingSystem α Size} {t : Nat}

/-- A `try_enqueue` no other thread interrupts, started at a free cell: the sequential winning
turn at `enqueue_pos_`, with the cell marked unread and the value recorded as enqueued. -/
theorem runActions_soloEnqueue (ht : s.threads[t]? = some .idle)
    (hseq : (s.ring.cell s.ring.enqueuePos).sequence = s.ring.enqueuePos) (v : α) :
    s.runActions [.startEnqueue t v, .step t, .step t, .step t, .step t, .step t] =
      some { s with
        ring := s.ring.enqueueAt s.ring.enqueuePos v
        threads := s.threads.set t .idle
        unread := Function.update s.unread (s.ring.enqueuePos &&& mask Size) true
        enqueued := s.enqueued ++ [v] } := by
  have hlt : t < s.threads.length := (List.getElem?_eq_some_iff.mp ht).1
  have hseq' : (s.ring.buffer (s.ring.enqueuePos &&& mask Size)).sequence = s.ring.enqueuePos :=
    hseq
  simp only [runActions, RingSystem.next, ht, hseq', Option.some_bind, setPc_threads,
    List.length_set, List.getElem?_set_self, hlt, stepAt.eq_2, stepAt.eq_3, stepAt.eq_4,
    stepAt.eq_5, stepAt.eq_6, setPc_ring, hseq, intptrDiff_eq_zero, if_true, setPc_unread,
    setPc_enqueued, setPc_dequeued, List.set_set, MPMCQueue.setCell, MPMCQueue.cell,
    MPMCQueue.enqueueAt, Function.update_same, Function.update_idem]

/-- A `try_dequeue` no other thread interrupts, started at a published cell: the sequential
winning turn at `dequeue_pos_`, with the cell marked read and its item recorded as dequeued. -/
theorem runActions_soloDequeue (ht : s.threads[t]? = some .idle)
    (hseq : (s.ring.cell s.ring.dequeuePos).sequence = s.ring.dequeuePos + 1) :
    s.runActions [.startDequeue t, .step t, .step t, .step t, .step t, .step t] =
      some { s with
        ring := s.ring.dequeueAt s.ring.dequeuePos
        threads := s.threads.set t .idle
        unread := Function.update s.unread (s.ring.dequeuePos &&& mask Size) false
        dequeued := s.dequeued ++ [(s.ring.cell s.ring.dequeuePos).data] } := by
  have hlt : t < s.threads.length := (List.getElem?_eq_some_iff.mp ht).1
  have hseq' : (s.ring.buffer (s.ring.dequeuePos &&& mask Size)).sequence =
      s.ring.dequeuePos + 1 := hseq
  simp only [runActions, RingSystem.next, ht, hseq', Option.some_bind, setPc_threads,
    List.length_set, List.getElem?_set_self, hlt, stepAt.eq_7, stepAt.eq_8, stepAt.eq_9,
    stepAt.eq_10, stepAt.eq_11, setPc_ring, hseq, intptrDiff_eq_zero, if_true, setPc_unread,
    setPc_enqueued, setPc_dequeued, List.set_set, MPMCQueue.setCell, MPMCQueue.cell,
    MPMCQueue.dequeueAt, Function.update_same, Function.update_idem]

/-- The compare-exchange of a producer that finds `enqueue_pos_` still at the position it
loaded. -/
theorem next_enqCas_win {v : α} {pos : UInt64} (ht : s.threads[t]? = some (.enqCas v pos))
    (hpos : s.ring.enqueuePos = pos) :
    s.next (.step t) =
      some { s.setPc t (.enqWrite v pos) with ring := { s.ring with enqueuePos := pos + 1 } } := by
  simp only [RingSystem.next, ht, Option.some_bind, stepAt, hpos, if_true]

end Micromatch.Utils.RingSystem

namespace Micromatch.Proofs
open Micromatch.Utils RingSystem MPMCQueue

theorem and_mask_two_toNat (p : UInt64) : (p &&& mask 2).toNat = p.toNat % 2 :=
  and_mask_toNat ⟨1, rfl⟩ (by decide) p

/-- Neighbouring positions lie in different cells of a ring of two. -/
theorem add_one_and_mask_two (p : UInt64) : (p + 1) &&& mask 2 ≠ p &&& mask 2 := by
  rw [Ne, UInt64.eq_iff_toNat_eq, and_mask_two_toNat, and_mask_two_toNat, UInt64.toNat_add_mod]
  have : (1 : UInt64).toNat = 1 := rfl
  simp only [this, UInt64.size]
  omega

/-- Positions two apart share a cell of a ring of two. -/
theorem add_two_and_mask_two (p : UInt64) : (p + 1 + 1) &&& mask 2 = p &&& mask 2 := by
  rw [UInt64.eq_iff_toNat_eq, and_mask_two_toNat, and_mask_two_toNat, UInt64.toNat_add_mod,
    UInt64.toNat_add_mod]
  have : (1 : UInt64).toNat = 1 := rfl
  simp only [this, UInt64.size]
  omega

/-- A ring of two cells through which `k` items have passed, with thread 0 stalled at its
compare-exchange of position 0, threads 1 and 2 idle, and every cell read. -/
structure Lap (k : Nat) (s : RingSystem Nat 2) : Prop where
  threads : s.threads = [.enqCas 1 0, .idle, .idle]
  enqueuePos : s.ring.enqueuePos = UInt64.ofNat k
  dequeuePos : s.ring.dequeuePos = UInt64.ofNat k
  seq_here : (s.ring.cell (UInt64.ofNat k)).sequence = UInt64.ofNat k
  seq_next : (s.ring.cell (UInt64.ofNat k + 1)).sequence = UInt64.ofNat k + 1
  unread : ∀ i, s.unread i = false

/-- Thread 0 loads position 0 and sees its cell free, then stalls. -/
theorem exists_lap_zero : ∃ s : RingSystem Nat 2, s.Reachable ∧ Lap 0 s :=
  have h : ((RingSystem.create 2 3 : RingSystem Nat 2).runActions
      [.startEnqueue 0 1, .step 0, .step 0]).isSome := rfl
  ⟨_, (RingSystem.Reachable.create 3).runActions (Option.some_get h).symm,
    ⟨rfl, rfl, rfl, rfl, rfl, fun _ => rfl⟩⟩

/-- One more item through the ring: thread 1 enqueues it alone, thread 2 dequeues it alone. -/
theorem Lap.succ {k : Nat} {s : RingSystem Nat 2} (hR : s.Reachable) (h : Lap k s) :
    ∃ s' : RingSystem Nat 2, s'.Reachable ∧ Lap (k + 1) s' := by
  obtain ⟨hth, hE, hD, hs0, hs1, hu⟩ := h
  have hk : UInt64.ofNat (k + 1) = UInt64.ofNat k + 1 := UInt64.ofNat_succ k
  have hne := add_one_and_mask_two (UInt64.ofNat k)
  have r1 := hR.runActions (runActions_soloEnqueue (t := 1) (by rw [hth]; rfl)
    (by rw [hE]; exact hs0) 0)
  have r2 := r1.runActions (runActions_soloDequeue (t := 2) (by simp [hth])
    (by simp only [enqueueAt_dequeuePos, cell_enqueueAt, hD, hE, if_true]))
  refine ⟨_, r2, ⟨?_, ?_, ?_, ?_, ?_, fun i => ?_⟩⟩
  · simp [hth]
  · simp only [dequeueAt_enqueuePos, enqueueAt_enqueuePos, hE, hk]
  · simp only [dequeueAt_dequeuePos, enqueueAt_dequeuePos, hD, hk]
  · simp only [cell_dequeueAt, cell_enqueueAt, enqueueAt_dequeuePos, hD, hE, hk, hne, if_false, hs1]
  · simp only [cell_dequeueAt, cell_enqueueAt, enqueueAt_dequeuePos, hD, hE, hk,
      add_two_and_mask_two, if_true]
    rw [add_assoc]; rfl
  · simp only [enqueueAt_dequeuePos, hD, hE, Function.update_idem, Function.update_apply, hu]
    split <;> rfl

/-- Any number of items can pass through the ring with thread 0 stalled. -/
theorem exists_lap (k : Nat) : ∃ s : RingSystem Nat 2, s.Reachable ∧ Lap k s := by
  induction k with
  | zero => exact exists_lap_zero
  | succ k ih =>
    obtain ⟨s, hR, h⟩ := ih
    exact h.succ hR

/-- After 2^64 - 2 items through a ring of two cells, two more bring `enqueue_pos_` round to 0, the
position a stalled thread 0 saw free: its compare-exchange succeeds and it writes cell 0, whose item
is unread. -/
theorem wrapped_producer_overwrites_unread :
    ∃ s : RingSystem Nat 2, s.Reachable ∧ s.threads[0]? = some (.enqWrite 1 0) ∧
      s.unread (0 &&& mask 2) = true := by
  obtain ⟨s, hR, hth, hE, -, hs0, hs1, -⟩ := exists_lap (2 ^ 64 - 2)
  have r1 := hR.runActions (runActions_soloEnqueue (t := 1) (by rw [hth]; rfl)
    (by rw [hE]; exact hs0) 0)
  have r2 := r1.runActions (runActions_soloEnqueue (t := 1) (by simp [hth])
    (by simp only [enqueueAt_enqueuePos, cell_enqueueAt, hE, add_one_and_mask_two, if_false, hs1]) 0)
  refine ⟨_, r2.next (.step 0) (next_enqCas_win
    (show _ = some (RingPc.enqCas 1 0) by simp [hth]) ?_),
    by simp [hth], ?_⟩
  · simp only [enqueueAt_enqueuePos, hE]; decide
  · have h0 : (0 : UInt64) &&& mask 2 = UInt64.ofNat (2 ^ 64 - 2) &&& mask 2 := by decide
    simp only [setPc_unread, enqueueAt_enqueuePos, hE, Function.update_apply, h0, if_true]
    split <;> rfl

end Micromatch.Proofs

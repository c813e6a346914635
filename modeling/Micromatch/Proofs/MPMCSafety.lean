import Micromatch.Proofs.MPMCThreads

namespace Micromatch.Utils

/-- The value a producer has won a cell for and not yet published. -/
def RingPc.writeValue {α : Type} : RingPc α → Option α
  | .enqWrite value _ | .enqPublish value _ => some value
  | _ => none

namespace RingSystem
open Micromatch.Proofs

variable {α : Type} {Size : Nat} (s : RingSystem α Size)

/-- The values producers are writing. -/
def writing : List α := s.threads.filterMap RingPc.writeValue

/-- `enqueue_pos_` is the number of compare-exchanges producers have won, modulo 2^64: the
values published and the values being written. -/
def Counted : Prop := s.ring.enqueuePos = UInt64.ofNat (s.enqueued.length + s.writing.length)

variable {s} {s' : RingSystem α Size} {t : Nat} {pc₀ pc : RingPc α}

theorem writing_length_set (ht : s.threads[t]? = some pc₀) (hth : s'.threads = s.threads.set t pc) :
    s'.writing.length + pc₀.writeValue.toList.length =
      s.writing.length + pc.writeValue.toList.length := by
  simpa only [writing, hth, List.length_append] using
    (filterMap_set_perm RingPc.writeValue ht pc).length_eq

/-- A step of thread `t` that moves `enqueue_pos_` by `k` and the count of published or claimed
values by as much keeps `Counted`. -/
theorem Counted.of_set (hc : s.Counted) (ht : s.threads[t]? = some pc₀)
    (hth : s'.threads = s.threads.set t pc) {k : Nat}
    (hE : s'.ring.enqueuePos = s.ring.enqueuePos + UInt64.ofNat k)
    (hn : s'.enqueued.length + pc.writeValue.toList.length =
      s.enqueued.length + pc₀.writeValue.toList.length + k) : s'.Counted := by
  have hw := writing_length_set ht hth
  rw [Counted, hE, hc, UInt64.eq_iff_toNat_eq]
  simp only [UInt64.toNat_add_mod, UInt64.toNat_ofNat_mod, UInt64.size]
  omega

/-- What a step does to the counts: the threads stay, `enqueued` only grows, and `Counted` is
kept. -/
theorem next_counts {a : RingAction α} (hs : s.next a = some s') :
    s'.threads.length = s.threads.length ∧ s.enqueued.length ≤ s'.enqueued.length ∧
      (s.Counted → s'.Counted) := by
  cases a with
  | startEnqueue t v | startDequeue t =>
    simp only [RingSystem.next] at hs
    split at hs
    · rename_i ht; cases hs
      exact ⟨List.length_set .., le_rfl, fun hc => hc.of_set ht rfl (k := 0) (add_zero _).symm rfl⟩
    · cases hs
  | step t =>
    obtain ⟨pc₀, ht, hs⟩ := Option.bind_eq_some.mp hs
    cases pc₀
    case enqCas v pos =>
      simp only [stepAt] at hs
      split_ifs at hs with hpos
      · cases hs
        exact ⟨List.length_set .., le_rfl,
          fun hc => hc.of_set ht rfl (k := 1) (by rw [hpos]; rfl) rfl⟩
      · cases hs
        exact ⟨List.length_set .., le_rfl, fun hc => hc.of_set ht rfl (k := 0) (add_zero _).symm rfl⟩
    case enqPublish v pos =>
      cases hs
      exact ⟨List.length_set .., by simp,
        fun hc => hc.of_set ht rfl (k := 0) (add_zero _).symm (by simp [RingPc.writeValue])⟩
    all_goals
      simp only [stepAt] at hs
      (try split_ifs at hs) <;> cases hs <;>
        exact ⟨List.length_set .., le_rfl, fun hc => hc.of_set ht rfl (k := 0) (add_zero _).symm rfl⟩

theorem counted_create [Inhabited α] (n : Nat) : (create Size n : RingSystem α Size).Counted := by
  simp [Counted, create, writing, RingPc.writeValue, MPMCQueue.create]

/-- Every reachable state counts its winning compare-exchanges in `enqueue_pos_`. -/
theorem Reachable.counted [Inhabited α] (h : s.Reachable) : s.Counted := by
  induction h with
  | create n => exact counted_create n
  | next a _ hs ih => exact (next_counts hs).2.2 ih

/-- The fresh ring: every position of the first lap is free and stamped with itself. -/
theorem inv_create [Inhabited α] (hpow : Size.isPowerOfTwo) (hb : Size < 2 ^ 64) (n : Nat) :
    (create Size n : RingSystem α Size).Inv where
  deq_le_enq := le_rfl
  enq_le := Nat.zero_le _
  bound := by simpa [enqN, create, MPMCQueue.create] using hb
  thread t pc ht := by
    rw [List.eq_of_mem_replicate (List.getElem?_mem ht)]; trivial
  owner_unique t _ pc _ w _ ht _ hw := by
    rw [List.eq_of_mem_replicate (List.getElem?_mem ht)] at hw; cases hw
  taken w h1 h2 := absurd (h1.trans_lt h2) (lt_irrefl _)
  free w _ h2 := by
    have hw : w < Size := by simpa [deqN, create, MPMCQueue.create] using h2
    refine .inr ⟨?_, rfl⟩
    show (slot Size w).toNat = w
    rw [slot_toNat hpow hb, Nat.mod_eq_of_lt hw]
  perm := by
    simp [create, releasing, unreadValues, RingPc.readValue]

theorem Reachable.runActions [Inhabited α] (hR : s.Reachable) {as : List (RingAction α)}
    (h : s.runActions as = some s') : s'.Reachable := by
  induction as generalizing s with
  | nil => cases h; exact hR
  | cons a as ih =>
    obtain ⟨s₁, h₁, h⟩ := Option.bind_eq_some.mp h
    exact ih (hR.next a h₁) h

section Runs

variable [Inhabited α] (hpow : Size.isPowerOfTwo) (hS : 2 ≤ Size)
include hpow hS

/-- Every state a schedule reaches keeps the invariant, as long as the compare-exchanges won
so far, plus one per thread, stay a lap short of 2^64: no position has wrapped. -/
theorem Reachable.inv (h : s.Reachable)
    (hb : s.enqueued.length + s.threads.length + Size < 2 ^ 64) : s.Inv := by
  induction h with
  | create n => exact inv_create hpow (by simp [create] at hb; omega) n
  | @next s₁ s₂ a hR hs ih =>
    obtain ⟨hlen, hmono, -⟩ := next_counts hs
    have hw := List.length_filterMap_le RingPc.writeValue s₂.threads
    have hE := Nat.mod_le (s₂.enqueued.length + s₂.writing.length) UInt64.size
    refine (ih (by omega)).next hpow hS hs ?_
    rw [enqN, (Reachable.next a hR hs).counted, UInt64.toNat_ofNat_mod]
    simp only [writing, UInt64.size] at hw hE ⊢
    omega

end Runs

end RingSystem

end Micromatch.Utils

namespace Micromatch.Proofs
open Micromatch.Utils RingSystem

theorem filterMap_ite_eq_map_filter {β γ : Type} (p : β → Bool) (f : β → γ) (l : List β) :
    l.filterMap (fun i => if p i then some (f i) else none) = (l.filter p).map f := by
  induction l with
  | nil => rfl
  | cons x l ih => by_cases hx : p x <;> simp [List.filterMap_cons, List.filter_cons, hx, ih]

/-- Every residue has a position in each lap. -/
theorem exists_mod_eq_of_window {Size : Nat} (a : Nat) {i : Nat} (hi : i < Size) :
    ∃ w, a ≤ w ∧ w < a + Size ∧ w % Size = i := by
  have hd := Nat.div_add_mod a Size
  have hr := Nat.mod_lt a (show 0 < Size by omega)
  by_cases h : a % Size ≤ i
  · exact ⟨Size * (a / Size) + i, by omega, by omega, by rw [Nat.mul_add_mod, Nat.mod_eq_of_lt hi]⟩
  · refine ⟨Size * (a / Size + 1) + i, ?_, ?_, by rw [Nat.mul_add_mod, Nat.mod_eq_of_lt hi]⟩ <;>
      rw [Nat.mul_succ] <;> omega

end Micromatch.Proofs

namespace Micromatch.Utils.RingSystem
open Micromatch.Proofs

section Quiescent

variable {α : Type} {Size : Nat} {s : RingSystem α Size} (hpow : Size.isPowerOfTwo)
include hpow

/-- With no cell owned, the unread values are the values held. -/
theorem Inv.unreadValues_perm (h : s.Inv) (hq : ∀ w, ¬ s.Owned w) :
    s.unreadValues.Perm s.heldValues := by
  have hlt := h.size_lt
  have hpos := Nat.pos_of_isPowerOfTwo hpow
  have hle := h.enq_le
  have hslot : ∀ w, slot Size w = UInt64.ofNat (w % Size) := fun w =>
    ((ofNat_eq_slot_iff hpow hlt (Nat.mod_lt w hpos) w).mpr rfl).symm
  have hh : s.heldValues = ((List.range (s.enqN - s.deqN)).map fun k => (s.deqN + k) % Size).map
      fun i => (s.ring.buffer (UInt64.ofNat i)).data := by
    simp only [heldValues, List.map_map, slotCell, hslot]; rfl
  rw [unreadValues, filterMap_ite_eq_map_filter, hh]
  refine List.Perm.map _ ((List.perm_ext_iff_of_nodup ((List.nodup_range Size).filter _)
    ((List.nodup_range _).map_on fun k hk k' hk' he => ?_)).mpr fun i => ?_)
  · simp only [List.mem_range] at hk hk'
    have := eq_of_mod_eq_of_window he (a := s.deqN) (by omega) (by omega) (by omega) (by omega)
    omega
  · simp only [List.mem_filter, List.mem_range, List.mem_map]
    constructor
    · rintro ⟨hi, hun⟩
      obtain ⟨w, hw1, hw2, hwi⟩ := exists_mod_eq_of_window s.deqN hi
      by_cases hwE : w < s.enqN
      · exact ⟨w - s.deqN, by omega, by rw [Nat.add_sub_cancel' hw1]; exact hwi⟩
      · have := ((h.free w (by omega) hw2).resolve_left (hq w)).2
        rw [slotUnread, hslot, hwi, hun] at this
        cases this
    · rintro ⟨k, hk, rfl⟩
      have := ((h.taken (s.deqN + k) (by omega) (by omega)).resolve_left (hq _)).2
      rw [slotUnread, hslot] at this
      exact ⟨Nat.mod_lt _ hpos, this⟩

end Quiescent

end Micromatch.Utils.RingSystem

namespace Micromatch.Proofs
open Micromatch.Utils RingSystem

/-- Under any interleaving of any number of threads, while the compare-exchanges won plus one per
thread stay a lap short of 2^64, producers write only read cells stamped for their lap, consumers
read only published cells, and no value is returned more often than enqueued. Once every thread is
idle, the values returned and held are exactly those enqueued. -/
theorem reachable_ring_safe {α : Type} {Size : Nat} [Inhabited α] (hpow : Size.isPowerOfTwo)
    (hS : 2 ≤ Size) {s : RingSystem α Size} (hR : s.Reachable)
    (hb : s.enqueued.length + s.threads.length + Size < 2 ^ 64) :
    (∀ (t : Nat) (v : α) (pos : UInt64), s.threads[t]? = some (.enqWrite v pos) →
      s.unread (pos &&& mask Size) = false ∧ (s.ring.cell pos).sequence = pos) ∧
    (∀ (t : Nat) (pos : UInt64), s.threads[t]? = some (.deqRead pos) →
      s.unread (pos &&& mask Size) = true ∧ (s.ring.cell pos).sequence = pos + 1) ∧
    s.dequeued.Subperm s.enqueued ∧
    ((∀ pc ∈ s.threads, pc = .idle) → s.enqueued.Perm (s.dequeued ++ s.heldValues)) := by
  have h := hR.inv hpow hS hb
  have hlt := h.size_lt
  refine ⟨fun t v pos ht => ?_, fun t pos ht => ?_, ?_, fun hq => ?_⟩
  · obtain ⟨-, -, hseq, hu⟩ := h.thread t _ ht
    rw [and_mask_eq_slot, cell_eq_slotCell, UInt64.eq_iff_toNat_eq]
    exact ⟨hu, hseq⟩
  · obtain ⟨-, hpd, hseq, hu⟩ := h.thread t _ ht
    have := h.bound
    have := h.deq_le_enq
    rw [and_mask_eq_slot, cell_eq_slotCell, UInt64.eq_iff_toNat_eq,
      UInt64.toNat_add_one_of_lt (by simp only [UInt64.size]; omega)]
    rw [slotUnread, slot_add_size hpow hlt] at hu
    rw [slotCell, slot_add_size hpow hlt] at hseq
    exact ⟨hu, hseq⟩
  · exact ((List.sublist_append_left _ _).trans (List.sublist_append_left _ _)).subperm.trans
      h.perm.symm.subperm
  · have hrel : s.releasing = [] :=
      List.filterMap_eq_nil_iff.mpr fun pc hpc => by rw [hq pc hpc]; rfl
    have hown : ∀ w, ¬ s.Owned w := fun w ⟨_, pc, ht, hw⟩ => by
      rw [hq pc (List.getElem?_mem ht)] at hw; cases hw
    refine h.perm.trans ?_
    rw [hrel, List.append_nil]
    exact (h.unreadValues_perm hpow hown).append_left _

/-- Two threads on a ring of two cells: thread 0 enqueues 1 and 2, thread 1 dequeues 1; then
thread 0, enqueueing 3 at position 2, is about to write the cell of 1, and thread 1, dequeueing
at position 1, is about to read 2. -/
theorem ring_safe_mid_calls :
    ∃ s : RingSystem Nat 2, s.Reachable ∧ s.threads = [.enqWrite 3 2, .deqRead 1] ∧
      s.dequeued = [1] ∧ (2 : Nat).isPowerOfTwo ∧ 2 ≤ 2 ∧
      s.enqueued.length + s.threads.length + 2 < 2 ^ 64 ∧
      ((∀ (t v : Nat) (pos : UInt64), s.threads[t]? = some (.enqWrite v pos) →
          s.unread (pos &&& mask 2) = false ∧ (s.ring.cell pos).sequence = pos) ∧
        (∀ (t : Nat) (pos : UInt64), s.threads[t]? = some (.deqRead pos) →
          s.unread (pos &&& mask 2) = true ∧ (s.ring.cell pos).sequence = pos + 1) ∧
        s.dequeued.Subperm s.enqueued ∧
        ((∀ pc ∈ s.threads, pc = .idle) → s.enqueued.Perm (s.dequeued ++ s.heldValues))) := by
  have h : ((RingSystem.create 2 2 : RingSystem Nat 2).runActions
      ([.startEnqueue 0 1] ++ List.replicate 5 (.step 0) ++
        [.startDequeue 1] ++ List.replicate 5 (.step 1) ++
        [.startEnqueue 0 2] ++ List.replicate 5 (.step 0) ++
        [.startEnqueue 0 3] ++ List.replicate 3 (.step 0) ++
        [.startDequeue 1] ++ List.replicate 3 (.step 1))).map
      (fun s => (s.threads, s.dequeued, s.enqueued.length)) =
      some ([.enqWrite 3 2, .deqRead 1], [1], 2) := by decide
  obtain ⟨s, hs, he⟩ := Option.map_eq_some'.mp h
  obtain ⟨ht, hd, hn⟩ : s.threads = _ ∧ s.dequeued = _ ∧ s.enqueued.length = _ := by
    simpa only [Prod.mk.injEq] using he
  have hR := (RingSystem.Reachable.create 2).runActions hs
  have hb : s.enqueued.length + s.threads.length + 2 < 2 ^ 64 := by simp [ht, hn]
  exact ⟨s, hR, ht, hd, ⟨1, rfl⟩, le_rfl, hb, reachable_ring_safe ⟨1, rfl⟩ le_rfl hR hb⟩

end Micromatch.Proofs

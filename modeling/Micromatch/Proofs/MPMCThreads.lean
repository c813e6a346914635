import Micromatch.Proofs.MPMCQueue
import Micromatch.Utils.MPMCThreads

namespace UInt64

@[simp] theorem ofNat_toNat (a : UInt64) : UInt64.ofNat a.toNat = a :=
  UInt64.toNat.inj (by rw [toNat_ofNat_mod, Nat.mod_eq_of_lt a.toNat_lt_size])

theorem toNat_add_of_lt {a : UInt64} {n : Nat} (h : a.toNat + n < UInt64.size) :
    (a + UInt64.ofNat n).toNat = a.toNat + n := by
  rw [toNat_add_mod, toNat_ofNat_mod, Nat.mod_eq_of_lt (show n < UInt64.size by omega),
    Nat.mod_eq_of_lt h]

theorem toNat_add_one_of_lt {a : UInt64} (h : a.toNat + 1 < UInt64.size) :
    (a + 1).toNat = a.toNat + 1 :=
  toNat_add_of_lt (n := 1) h

end UInt64

namespace Micromatch.Proofs
open Micromatch.Utils RingSystem

/-- The masked index `w & MASK` of position `w`. -/
def slot (Size w : Nat) : UInt64 := UInt64.ofNat w &&& mask Size

theorem and_mask_eq_slot {Size : Nat} (pos : UInt64) : pos &&& mask Size = slot Size pos.toNat := by
  rw [slot, UInt64.ofNat_toNat]

section Slots

variable {Size : Nat} (hpow : Size.isPowerOfTwo) (hlt : Size < 2 ^ 64)
include hpow hlt

theorem slot_toNat (w : Nat) : (slot Size w).toNat = w % Size := by
  rw [slot, and_mask_toNat hpow hlt, UInt64.toNat_ofNat_mod,
    Nat.mod_mod_of_dvd _ (size_dvd_wordSize hpow hlt)]

theorem slot_eq_iff {w w' : Nat} : slot Size w = slot Size w' ↔ w % Size = w' % Size := by
  rw [UInt64.eq_iff_toNat_eq, slot_toNat hpow hlt, slot_toNat hpow hlt]

theorem slot_add_size (w : Nat) : slot Size (w + Size) = slot Size w :=
  (slot_eq_iff hpow hlt).mpr (Nat.add_mod_right w Size)

/-- A slot is the masked index of the positions it serves. -/
theorem ofNat_eq_slot_iff {i : Nat} (hi : i < Size) (w : Nat) :
    UInt64.ofNat i = slot Size w ↔ i = w % Size := by
  rw [UInt64.eq_iff_toNat_eq, slot_toNat hpow hlt, UInt64.toNat_ofNat_mod,
    Nat.mod_eq_of_lt (show i < UInt64.size from hi.trans hlt)]

omit hpow hlt in
/-- Two positions in one lap share a slot only if they are equal. -/
theorem eq_of_mod_eq_of_window {a w w' : Nat} (h : w % Size = w' % Size) (hw : a ≤ w)
    (hw' : w < a + Size) (hv : a ≤ w') (hv' : w' < a + Size) : w = w' := by
  rcases Nat.le_total w w' with hle | hle
  · have hd := Nat.sub_mod_eq_zero_of_mod_eq h.symm
    have := Nat.eq_zero_of_dvd_of_lt (Nat.dvd_of_mod_eq_zero hd) (by omega)
    omega
  · have hd := Nat.sub_mod_eq_zero_of_mod_eq h
    have := Nat.eq_zero_of_dvd_of_lt (Nat.dvd_of_mod_eq_zero hd) (by omega)
    omega

theorem slot_ne_of_window {a w w' : Nat} (hne : w ≠ w') (hw : a ≤ w) (hw' : w < a + Size)
    (hv : a ≤ w') (hv' : w' < a + Size) : slot Size w ≠ slot Size w' :=
  fun h => hne (eq_of_mod_eq_of_window ((slot_eq_iff hpow hlt).mp h) hw hw' hv hv')

end Slots

end Micromatch.Proofs

namespace Micromatch.Utils

/-- The position whose cell a thread owns, counted on the lap producers are filling: a
producer's own position, a consumer's position one lap on. -/
def RingPc.owned {α : Type} (Size : Nat) : RingPc α → Option Nat
  | .enqWrite _ pos | .enqPublish _ pos => some pos.toNat
  | .deqRead pos | .deqRelease pos _ => some (pos.toNat + Size)
  | _ => none

/-- The value a consumer has read and not yet returned. -/
def RingPc.readValue {α : Type} : RingPc α → Option α
  | .deqRelease _ value => some value
  | _ => none

namespace RingSystem
open Micromatch.Proofs

variable {α : Type} {Size : Nat} (s : RingSystem α Size)

/-- `enqueue_pos_` as a number. -/
def enqN : Nat := s.ring.enqueuePos.toNat

/-- `dequeue_pos_` as a number. -/
def deqN : Nat := s.ring.dequeuePos.toNat

/-- The cell in slot `w & MASK`. -/
def slotCell (w : Nat) : Cell α := s.ring.buffer (slot Size w)

/-- Whether the cell in slot `w & MASK` holds an unread item. -/
def slotUnread (w : Nat) : Bool := s.unread (slot Size w)

/-- Some thread owns the cell at position `w`. -/
def Owned (w : Nat) : Prop :=
  ∃ (t : Nat) (pc : RingPc α), s.threads[t]? = some pc ∧ pc.owned Size = some w

/-- The values consumers hold between their read and their return. -/
def releasing : List α := s.threads.filterMap RingPc.readValue

/-- The items of the cells marked unread, by slot. -/
def unreadValues : List α :=
  (List.range Size).filterMap fun i =>
    if s.unread (UInt64.ofNat i) then some (s.ring.buffer (UInt64.ofNat i)).data else none

/-- The items at the positions from `dequeue_pos_` up to `enqueue_pos_`, oldest first. -/
def heldValues : List α :=
  (List.range (s.enqN - s.deqN)).map fun k => (s.slotCell (s.deqN + k)).data

/-- What a thread's place in its call says about the shared state: after a zero `diff` its
position's cell is the next to take and unowned, and between its compare-exchange and its sequence
store it owns that cell. -/
def ThreadInv : RingPc α → Prop
  | .enqLoadSeq _ pos => pos.toNat ≤ s.enqN
  | .enqCas _ pos => pos.toNat ≤ s.enqN ∧
      (pos.toNat = s.enqN → s.enqN < s.deqN + Size ∧ ¬ s.Owned s.enqN)
  | .enqWrite _ pos => s.deqN ≤ pos.toNat ∧ pos.toNat < s.enqN ∧
      (s.slotCell pos.toNat).sequence.toNat = pos.toNat ∧ s.slotUnread pos.toNat = false
  | .enqPublish value pos => s.deqN ≤ pos.toNat ∧ pos.toNat < s.enqN ∧
      (s.slotCell pos.toNat).sequence.toNat = pos.toNat ∧ s.slotUnread pos.toNat = false ∧
      (s.slotCell pos.toNat).data = value
  | .deqLoadSeq pos => pos.toNat ≤ s.deqN
  | .deqCas pos => pos.toNat ≤ s.deqN ∧
      (pos.toNat = s.deqN → s.deqN < s.enqN ∧ ¬ s.Owned s.deqN)
  | .deqRead pos => s.enqN ≤ pos.toNat + Size ∧ pos.toNat < s.deqN ∧
      (s.slotCell (pos.toNat + Size)).sequence.toNat = pos.toNat + 1 ∧
      s.slotUnread (pos.toNat + Size) = true
  | .deqRelease pos _ => s.enqN ≤ pos.toNat + Size ∧ pos.toNat < s.deqN ∧
      (s.slotCell (pos.toNat + Size)).sequence.toNat = pos.toNat + 1 ∧
      s.slotUnread (pos.toNat + Size) = false
  | _ => True

/-- The ring while no position wraps: the cells from `dequeue_pos_` to `enqueue_pos_` are owned by a
producer or published and unread, the rest of the lap is owned by a consumer or stamped and read, no
two threads own a cell. Every value enqueued is dequeued, being returned, or in an unread cell. -/
structure Inv : Prop where
  deq_le_enq : s.deqN ≤ s.enqN
  enq_le : s.enqN ≤ s.deqN + Size
  bound : s.enqN + Size < 2 ^ 64
  thread : ∀ (t : Nat) (pc : RingPc α), s.threads[t]? = some pc → s.ThreadInv pc
  owner_unique : ∀ (t t' : Nat) (pc pc' : RingPc α) (w : Nat), t ≠ t' → s.threads[t]? = some pc →
    s.threads[t']? = some pc' → pc.owned Size = some w → pc'.owned Size ≠ some w
  taken : ∀ w, s.deqN ≤ w → w < s.enqN → s.Owned w ∨
    ((s.slotCell w).sequence.toNat = w + 1 ∧ s.slotUnread w = true)
  free : ∀ w, s.enqN ≤ w → w < s.deqN + Size → s.Owned w ∨
    ((s.slotCell w).sequence.toNat = w ∧ s.slotUnread w = false)
  perm : s.enqueued.Perm (s.dequeued ++ s.releasing ++ s.unreadValues)

@[simp] theorem setPc_threads (t : Nat) (pc : RingPc α) :
    (s.setPc t pc).threads = s.threads.set t pc := rfl

@[simp] theorem setPc_ring (t : Nat) (pc : RingPc α) : (s.setPc t pc).ring = s.ring := rfl

@[simp] theorem setPc_unread (t : Nat) (pc : RingPc α) : (s.setPc t pc).unread = s.unread := rfl

@[simp] theorem setPc_enqueued (t : Nat) (pc : RingPc α) :
    (s.setPc t pc).enqueued = s.enqueued := rfl

@[simp] theorem setPc_dequeued (t : Nat) (pc : RingPc α) :
    (s.setPc t pc).dequeued = s.dequeued := rfl

variable {s} {t : Nat} {pc₀ : RingPc α}

theorem getElem?_set_threads (h : s.threads[t]? = some pc₀) (pc : RingPc α) (t' : Nat) :
    (s.threads.set t pc)[t']? = if t = t' then some pc else s.threads[t']? := by
  obtain ⟨ht, -⟩ := List.getElem?_eq_some_iff.mp h
  rw [List.getElem?_set]
  split <;> simp_all

/-- Some thread other than `t` owns the cell at position `w`. -/
def OwnedElse (s : RingSystem α Size) (t w : Nat) : Prop :=
  ∃ (t' : Nat) (pc : RingPc α), t' ≠ t ∧ s.threads[t']? = some pc ∧ pc.owned Size = some w

theorem owned_iff (h : s.threads[t]? = some pc₀) (w : Nat) :
    s.Owned w ↔ pc₀.owned Size = some w ∨ s.OwnedElse t w := by
  constructor
  · rintro ⟨t', pc, ht', hw⟩
    by_cases he : t' = t
    · subst he; rw [h] at ht'; cases ht'; exact .inl hw
    · exact .inr ⟨t', pc, he, ht', hw⟩
  · rintro (hw | ⟨t', pc, -, ht', hw⟩)
    · exact ⟨t, pc₀, h, hw⟩
    · exact ⟨t', pc, ht', hw⟩

/-- After thread `t` moves, ownership is its new claim or another thread's. -/
theorem owned_set_iff {s' : RingSystem α Size} (h : s.threads[t]? = some pc₀) {pc : RingPc α}
    (hs' : s'.threads = s.threads.set t pc) (w : Nat) :
    s'.Owned w ↔ pc.owned Size = some w ∨ s.OwnedElse t w := by
  constructor
  · rintro ⟨t', pc', ht', hw⟩
    rw [hs', getElem?_set_threads h] at ht'
    split at ht'
    · cases ht'; exact .inl hw
    · exact .inr ⟨t', pc', fun he => by simp_all, ht', hw⟩
  · rintro (hw | ⟨t', pc', hne, ht', hw⟩)
    · exact ⟨t, pc, by rw [hs', getElem?_set_threads h, if_pos rfl], hw⟩
    · exact ⟨t', pc', by rw [hs', getElem?_set_threads h, if_neg (Ne.symm hne)]; exact ht', hw⟩

end RingSystem

end Micromatch.Utils

namespace Micromatch.Proofs
open Micromatch.Utils RingSystem

section Lists

variable {β γ : Type}

/-- Setting one entry of a list changes its `filterMap` by that entry's image. -/
theorem filterMap_set_perm (f : β → Option γ) {l : List β} {i : Nat} {b₀ : β}
    (h : l[i]? = some b₀) (b : β) :
    ((l.set i b).filterMap f ++ (f b₀).toList).Perm (l.filterMap f ++ (f b).toList) := by
  induction l generalizing i with
  | nil => simp at h
  | cons x l ih =>
    cases i with
    | zero =>
      simp only [List.getElem?_cons_zero, Option.some.injEq] at h
      subst h
      cases hb : f b <;> cases hb₀ : f x <;>
        simp only [List.set_cons_zero, List.filterMap_cons, hb, hb₀, Option.toList_none,
          Option.toList_some, List.append_nil, List.cons_append, List.Perm.refl]
      · exact List.perm_append_singleton _ _
      · exact (List.perm_append_singleton _ _).symm
      · exact ((List.perm_append_singleton _ _).cons _).trans ((List.Perm.swap _ _ _).trans
          ((List.perm_append_singleton _ _).symm.cons _))
    | succ i =>
      simp only [List.getElem?_cons_succ] at h
      cases hx : f x <;> simp [List.filterMap_cons, hx, ih h]

/-- Turning one entry of a duplicate-free list from dropped to kept adds its image. -/
theorem filterMap_congr_perm {l : List β} (hl : l.Nodup) {g g' : β → Option γ} {i₀ : β}
    (hi₀ : i₀ ∈ l) (hg : g i₀ = none) {x : γ} (hg' : g' i₀ = some x)
    (hrest : ∀ i ∈ l, i ≠ i₀ → g' i = g i) :
    (l.filterMap g').Perm (l.filterMap g ++ [x]) := by
  induction l with
  | nil => simp at hi₀
  | cons y l ih =>
    obtain ⟨hy, hl⟩ := List.nodup_cons.mp hl
    by_cases he : y = i₀
    · subst he
      have hrest' : l.filterMap g' = l.filterMap g :=
        List.filterMap_congr fun i hi => hrest i (List.mem_cons_of_mem _ hi) (ne_of_mem_of_not_mem hi hy)
      simpa [List.filterMap_cons, hg, hg', hrest'] using (List.perm_append_singleton _ _).symm
    · have hi : i₀ ∈ l := (List.mem_cons.mp hi₀).resolve_left (Ne.symm he)
      have := ih hl hi fun i hi' hne => hrest i (List.mem_cons_of_mem _ hi') hne
      rw [List.filterMap_cons, List.filterMap_cons, hrest y (List.mem_cons_self _ _) he]
      cases g y <;> simp [this]

end Lists

end Micromatch.Proofs

namespace Micromatch.Utils.RingSystem
open Micromatch.Proofs

section Frames

variable {α : Type} {Size : Nat} {s s' : RingSystem α Size} {pc : RingPc α}

/-- Facts about the cell a thread owns survive any step that leaves that cell alone. -/
theorem ThreadInv.frame (hinv : s.ThreadInv pc) (he : s'.enqN = s.enqN) (hd : s'.deqN = s.deqN)
    (hown : ∀ w, s'.Owned w → s.Owned w)
    (hcell : ∀ w, pc.owned Size = some w →
      s'.slotCell w = s.slotCell w ∧ s'.slotUnread w = s.slotUnread w) :
    s'.ThreadInv pc := by
  cases pc with
  | idle | enqLoadPos | deqLoadPos => trivial
  | enqLoadSeq v pos => simpa only [ThreadInv, he] using hinv
  | deqLoadSeq pos => simpa only [ThreadInv, hd] using hinv
  | enqCas v pos =>
    refine ⟨he ▸ hinv.1, fun hp => ?_⟩
    obtain ⟨h1, h2⟩ := hinv.2 (he ▸ hp)
    exact ⟨he ▸ hd ▸ h1, fun ho => h2 (hown _ (he ▸ ho))⟩
  | deqCas pos =>
    refine ⟨hd ▸ hinv.1, fun hp => ?_⟩
    obtain ⟨h1, h2⟩ := hinv.2 (hd ▸ hp)
    exact ⟨he ▸ hd ▸ h1, fun ho => h2 (hown _ (hd ▸ ho))⟩
  | enqWrite | enqPublish | deqRead | deqRelease =>
    obtain ⟨hc, hu⟩ := hcell _ rfl
    simpa only [ThreadInv, he, hd, hc, hu] using hinv

/-- A producer's winning compare-exchange moves `enqueue_pos_` past a free cell it takes:
the other threads' facts survive. -/
theorem ThreadInv.frame_enq (hinv : s.ThreadInv pc) (he : s'.enqN = s.enqN + 1)
    (hd : s'.deqN = s.deqN) (hown : ∀ w, s'.Owned w → s.Owned w ∨ w = s.enqN)
    (hfree : ¬ s.Owned s.enqN) (hmine : ∀ w, pc.owned Size = some w → s.Owned w)
    (hcell : ∀ w, pc.owned Size = some w →
      s'.slotCell w = s.slotCell w ∧ s'.slotUnread w = s.slotUnread w) :
    s'.ThreadInv pc := by
  cases pc with
  | idle | enqLoadPos | deqLoadPos => trivial
  | enqLoadSeq v pos => simp only [ThreadInv, he] at hinv ⊢; omega
  | deqLoadSeq pos => simpa only [ThreadInv, hd] using hinv
  | enqCas v pos =>
    simp only [ThreadInv, he] at hinv ⊢
    exact ⟨by omega, fun hp => absurd hp (by omega)⟩
  | deqCas pos =>
    refine ⟨hd ▸ hinv.1, fun hp => ?_⟩
    obtain ⟨h1, h2⟩ := hinv.2 (hd ▸ hp)
    refine ⟨by rw [he, hd]; omega, fun ho => ?_⟩
    rcases hown _ (hd ▸ ho) with ho | ho
    · exact h2 ho
    · omega
  | enqWrite | enqPublish =>
    obtain ⟨hc, hu⟩ := hcell _ rfl
    simp only [ThreadInv, he, hd, hc, hu] at hinv ⊢
    obtain ⟨h1, h2, h3⟩ := hinv
    exact ⟨by omega, by omega, h3⟩
  | deqRead pos | deqRelease pos =>
    obtain ⟨hc, hu⟩ := hcell _ rfl
    have hne : pos.toNat + Size ≠ s.enqN := fun h => hfree (h ▸ hmine _ rfl)
    simp only [ThreadInv, he, hd, hc, hu] at hinv ⊢
    obtain ⟨h1, h2, h3⟩ := hinv
    exact ⟨by omega, by omega, h3⟩

/-- A consumer's winning compare-exchange moves `dequeue_pos_` past an unowned published
cell and takes that cell for the next lap: the other threads' facts survive. -/
theorem ThreadInv.frame_deq (hinv : s.ThreadInv pc) (he : s'.enqN = s.enqN)
    (hd : s'.deqN = s.deqN + 1) (hown : ∀ w, s'.Owned w → s.Owned w ∨ w = s.deqN + Size)
    (hfree : ¬ s.Owned s.deqN) (hmine : ∀ w, pc.owned Size = some w → s.Owned w)
    (hcell : ∀ w, pc.owned Size = some w →
      s'.slotCell w = s.slotCell w ∧ s'.slotUnread w = s.slotUnread w) :
    s'.ThreadInv pc := by
  cases pc with
  | idle | enqLoadPos | deqLoadPos => trivial
  | enqLoadSeq v pos => simpa only [ThreadInv, he] using hinv
  | deqLoadSeq pos => simp only [ThreadInv, hd] at hinv ⊢; omega
  | deqCas pos =>
    simp only [ThreadInv, hd] at hinv ⊢
    exact ⟨by omega, fun hp => absurd hp (by omega)⟩
  | enqCas v pos =>
    refine ⟨he ▸ hinv.1, fun hp => ?_⟩
    obtain ⟨h1, h2⟩ := hinv.2 (he ▸ hp)
    refine ⟨by rw [he, hd]; omega, fun ho => ?_⟩
    rcases hown _ (he ▸ ho) with ho | ho
    · exact h2 ho
    · omega
  | enqWrite _ pos | enqPublish _ pos =>
    obtain ⟨hc, hu⟩ := hcell _ rfl
    have hne : pos.toNat ≠ s.deqN := fun h => hfree (h ▸ hmine _ rfl)
    simp only [ThreadInv, he, hd, hc, hu] at hinv ⊢
    obtain ⟨h1, h2, h3⟩ := hinv
    exact ⟨by omega, by omega, h3⟩
  | deqRead | deqRelease =>
    obtain ⟨hc, hu⟩ := hcell _ rfl
    simp only [ThreadInv, he, hd, hc, hu] at hinv ⊢
    obtain ⟨h1, h2, h3⟩ := hinv
    exact ⟨by omega, by omega, h3⟩

end Frames

section Facts

variable {α : Type} {Size : Nat} {s : RingSystem α Size}

theorem Inv.size_lt (h : s.Inv) : Size < 2 ^ 64 := by
  have := h.bound; omega

/-- Where an owned cell lies and how it is stamped: a producer's cell, inside the taken part,
still carries its own position; a consumer's cell, in the free part, carries the stamp of the
lap before, one past the position it was read at. -/
theorem Inv.owned_cell (h : s.Inv) {w : Nat} (ho : s.Owned w) :
    s.deqN ≤ w ∧ w < s.deqN + Size ∧
      ((w < s.enqN ∧ (s.slotCell w).sequence.toNat = w) ∨
        (s.enqN ≤ w ∧ (s.slotCell w).sequence.toNat + Size = w + 1)) := by
  obtain ⟨t, pc, ht, hw⟩ := ho
  have hinv := h.thread t pc ht
  have := h.enq_le
  have := h.deq_le_enq
  cases pc <;> simp only [RingPc.owned, Option.some.injEq, reduceCtorEq] at hw <;> subst hw
  · obtain ⟨h1, h2, h3, -⟩ := hinv; exact ⟨h1, by omega, .inl ⟨h2, h3⟩⟩
  · obtain ⟨h1, h2, h3, -⟩ := hinv; exact ⟨h1, by omega, .inl ⟨h2, h3⟩⟩
  · obtain ⟨h1, h2, h3, -⟩ := hinv; exact ⟨by omega, by omega, .inr ⟨h1, by omega⟩⟩
  · obtain ⟨h1, h2, h3, -⟩ := hinv; exact ⟨by omega, by omega, .inr ⟨h1, by omega⟩⟩

variable (hpow : Size.isPowerOfTwo) (hS : 2 ≤ Size)
include hpow hS

/-- A producer that finds the cell at `enqueue_pos_` stamped with that position has found a
free cell nobody owns: the ring is not full. -/
theorem Inv.enq_ready (h : s.Inv) (hseq : (s.slotCell s.enqN).sequence.toNat = s.enqN) :
    s.enqN < s.deqN + Size ∧ ¬ s.Owned s.enqN := by
  have hlt := h.size_lt
  have h1 := h.deq_le_enq
  have h2 := h.enq_le
  refine ⟨?_, fun ho => ?_⟩
  · by_contra hfull
    have he : s.enqN = s.deqN + Size := by omega
    have hc : s.slotCell s.deqN = s.slotCell s.enqN := by
      rw [he, RingSystem.slotCell, RingSystem.slotCell, slot_add_size hpow hlt]
    rcases h.taken s.deqN le_rfl (by omega) with ho | ⟨hs, -⟩
    · rcases (h.owned_cell ho).2.2 with ⟨-, hs⟩ | ⟨hs, -⟩ <;> [rw [hc] at hs; skip] <;> omega
    · rw [hc] at hs; omega
  · rcases (h.owned_cell ho).2.2 with ⟨hs, -⟩ | ⟨-, hs⟩ <;> omega

omit hpow in
/-- A consumer that finds the cell at `dequeue_pos_` stamped one past that position has found
a published item nobody owns: the ring is not empty. -/
theorem Inv.deq_ready (h : s.Inv)
    (hseq : (s.slotCell s.deqN).sequence.toNat = s.deqN + 1) :
    s.deqN < s.enqN ∧ ¬ s.Owned s.deqN := by
  have h1 := h.deq_le_enq
  refine ⟨?_, fun ho => ?_⟩
  · by_contra hempty
    have he : s.enqN = s.deqN := by omega
    rcases h.free s.deqN he.le (by omega) with ho | ⟨hs, -⟩
    · rcases (h.owned_cell ho).2.2 with ⟨hs, -⟩ | ⟨-, hs⟩ <;> omega
    · omega
  · rcases (h.owned_cell ho).2.2 with ⟨-, hs⟩ | ⟨-, hs⟩ <;> omega

end Facts

section Steps

variable {α : Type} {Size : Nat} {s s' : RingSystem α Size} {t : Nat} {pc₀ : RingPc α}

theorem cell_eq_slotCell (pos : UInt64) : s.ring.cell pos = s.slotCell pos.toNat := by
  rw [MPMCQueue.cell, and_mask_eq_slot]; rfl

theorem slotCell_of_update {i : UInt64} {c : Cell α}
    (hb : s'.ring.buffer = Function.update s.ring.buffer i c) (w : Nat) :
    s'.slotCell w = if slot Size w = i then c else s.slotCell w := by
  simp only [slotCell, hb, Function.update_apply]

theorem slotUnread_of_update {i : UInt64} {b : Bool}
    (hu : s'.unread = Function.update s.unread i b) (w : Nat) :
    s'.slotUnread w = if slot Size w = i then b else s.slotUnread w := by
  simp only [slotUnread, hu, Function.update_apply]

theorem owned_of_owned (ht : s.threads[t]? = some pc₀) (h₀ : pc₀.owned Size = none)
    {pc : RingPc α} (hs' : s'.threads = s.threads.set t pc) {w : Nat} (ho : s.Owned w) :
    s'.Owned w :=
  (owned_set_iff ht hs' w).mpr (.inr (((owned_iff ht w).mp ho).resolve_left (by simp [h₀])))

theorem releasing_perm_of_set (ht : s.threads[t]? = some pc₀) {pc : RingPc α}
    (hs' : s'.threads = s.threads.set t pc) (h₀ : pc₀.readValue = none)
    (hpc : pc.readValue = none) : s'.releasing.Perm s.releasing := by
  simpa [releasing, hs', h₀, hpc] using filterMap_set_perm RingPc.readValue ht pc

theorem Inv.perm_of_quiet (h : s.Inv) (he : s'.enqueued = s.enqueued)
    (hd : s'.dequeued = s.dequeued) (hr : s'.releasing.Perm s.releasing)
    (hu : s'.unreadValues = s.unreadValues) :
    s'.enqueued.Perm (s'.dequeued ++ s'.releasing ++ s'.unreadValues) := by
  rw [he, hd, hu]
  exact h.perm.trans ((hr.symm.append_left s.dequeued).append_right s.unreadValues)

/-- Assembling the invariant after a step of thread `t` to `pc`: the positions, the facts of
`t` and of every other thread, that `t` takes no cell another owns, the two parts of the lap
and the values. -/
theorem Inv.of_step (h : s.Inv) (ht : s.threads[t]? = some pc₀) {pc : RingPc α}
    (hth : s'.threads = s.threads.set t pc) (hle : s'.deqN ≤ s'.enqN)
    (hle' : s'.enqN ≤ s'.deqN + Size) (hb : s'.enqN + Size < 2 ^ 64) (hself : s'.ThreadInv pc)
    (hothers : ∀ t' pc', t' ≠ t → s.threads[t']? = some pc' → s.ThreadInv pc' → s'.ThreadInv pc')
    (huniq : ∀ w, pc.owned Size = some w → ¬ s.OwnedElse t w)
    (htaken : ∀ w, s'.deqN ≤ w → w < s'.enqN → s'.Owned w ∨
      ((s'.slotCell w).sequence.toNat = w + 1 ∧ s'.slotUnread w = true))
    (hfree : ∀ w, s'.enqN ≤ w → w < s'.deqN + Size → s'.Owned w ∨
      ((s'.slotCell w).sequence.toNat = w ∧ s'.slotUnread w = false))
    (hperm : s'.enqueued.Perm (s'.dequeued ++ s'.releasing ++ s'.unreadValues)) : s'.Inv where
  deq_le_enq := hle
  enq_le := hle'
  bound := hb
  thread t' pc' ht' := by
    rw [hth, getElem?_set_threads ht] at ht'
    split at ht'
    · cases ht'; exact hself
    · exact hothers t' pc' (Ne.symm ‹_›) ht' (h.thread t' pc' ht')
  owner_unique t₁ t₂ pc₁ pc₂ w hne h₁ h₂ hw₁ hw₂ := by
    rw [hth, getElem?_set_threads ht] at h₁ h₂
    split at h₁ <;> split at h₂
    · exact hne (‹t = t₁›.symm.trans ‹t = t₂›)
    · cases h₁; exact huniq w hw₁ ⟨t₂, pc₂, Ne.symm ‹_›, h₂, hw₂⟩
    · cases h₂; exact huniq w hw₂ ⟨t₁, pc₁, Ne.symm ‹_›, h₁, hw₁⟩
    · exact h.owner_unique t₁ t₂ pc₁ pc₂ w hne h₁ h₂ hw₁ hw₂
  taken := htaken
  free := hfree
  perm := hperm

/-- A step that only moves thread `t` between places that own nothing and hold no value. -/
theorem Inv.quiet (h : s.Inv) (ht : s.threads[t]? = some pc₀) (h₀ : pc₀.owned Size = none)
    (hr₀ : pc₀.readValue = none) {pc : RingPc α} (hpc : pc.owned Size = none)
    (hr : pc.readValue = none) (hinv : s.ThreadInv pc) : (s.setPc t pc).Inv := by
  have hown : ∀ w, (s.setPc t pc).Owned w → s.Owned w := fun w ho =>
    (owned_iff ht w).mpr (.inr (((owned_set_iff ht rfl w).mp ho).resolve_left (by simp [hpc])))
  refine h.of_step ht rfl h.deq_le_enq h.enq_le h.bound
    (hinv.frame rfl rfl hown (by simp [hpc]))
    (fun _ _ _ _ hinv' => hinv'.frame rfl rfl hown fun _ _ => ⟨rfl, rfl⟩) (by simp [hpc])
    (fun w h1 h2 => (h.taken w h1 h2).imp_left (owned_of_owned ht h₀ rfl))
    (fun w h1 h2 => (h.free w h1 h2).imp_left (owned_of_owned ht h₀ rfl))
    (h.perm_of_quiet rfl rfl (releasing_perm_of_set ht rfl hr₀ hr) rfl)

variable (hpow : Size.isPowerOfTwo) (hS : 2 ≤ Size)
include hpow hS

omit hS in
/-- Two positions of the lap that differ lie in different slots. -/
theorem Inv.slot_ne (h : s.Inv) {w w' : Nat} (hne : w ≠ w') (hw : s.deqN ≤ w)
    (hw' : w < s.deqN + Size) (hv : s.deqN ≤ w') (hv' : w' < s.deqN + Size) :
    slot Size w ≠ slot Size w' :=
  slot_ne_of_window hpow h.size_lt hne hw hw' hv hv'

omit hpow in
/-- The winning compare-exchange of `enqueue_pos_`: the producer takes the free cell there. -/
theorem Inv.enqCas_win (h : s.Inv) {v : α} {pos : UInt64}
    (ht : s.threads[t]? = some (.enqCas v pos)) (hpos : s.ring.enqueuePos = pos)
    (hth : s'.threads = s.threads.set t (.enqWrite v pos))
    (hE : s'.ring.enqueuePos = pos + 1) (hD : s'.ring.dequeuePos = s.ring.dequeuePos)
    (hbuf : s'.ring.buffer = s.ring.buffer) (hun : s'.unread = s.unread)
    (henq : s'.enqueued = s.enqueued) (hdeq : s'.dequeued = s.dequeued)
    (hb : s'.enqN + Size < 2 ^ 64) : s'.Inv := by
  have hpe : pos.toNat = s.enqN := by rw [← hpos]; rfl
  obtain ⟨hroom, hfree⟩ := (h.thread t _ ht).2 hpe
  have he : s'.enqN = s.enqN + 1 := by
    rw [enqN, hE, UInt64.toNat_add_one_of_lt (by have := h.bound; simp only [UInt64.size]; omega),
      hpe]
  have hd : s'.deqN = s.deqN := by rw [deqN, hD]; rfl
  have hcell : ∀ w, s'.slotCell w = s.slotCell w ∧ s'.slotUnread w = s.slotUnread w :=
    fun w => ⟨by rw [slotCell, hbuf]; rfl, by rw [slotUnread, hun]; rfl⟩
  obtain ⟨hseq, hun'⟩ := (h.free _ le_rfl hroom).resolve_left hfree
  have hown : ∀ w, s'.Owned w → s.Owned w ∨ w = s.enqN := fun w ho => by
    rcases (owned_set_iff ht hth w).mp ho with hw | hw
    · simp only [RingPc.owned, Option.some.injEq] at hw; exact .inr (hw ▸ hpe)
    · exact .inl ((owned_iff ht w).mpr (.inr hw))
  have h1 := h.deq_le_enq
  refine h.of_step ht hth (by omega) (by omega) hb ?_
    (fun t' pc' _ ht' hinv' => hinv'.frame_enq he hd hown hfree (fun w hw => ⟨t', pc', ht', hw⟩)
      fun w _ => hcell w) ?_ ?_ ?_
    (h.perm_of_quiet henq hdeq (releasing_perm_of_set ht hth rfl rfl)
      (by simp only [unreadValues, hbuf, hun]))
  · simp only [ThreadInv, he, hd, hpe, (hcell _).1, (hcell _).2]
    exact ⟨h1, by omega, hseq, hun'⟩
  · intro w hw hother
    simp only [RingPc.owned, Option.some.injEq] at hw
    exact hfree ((owned_iff ht _).mpr (.inr (hpe ▸ hw ▸ hother)))
  · intro w h1 h2
    rw [hd, he] at *
    by_cases hw : w = s.enqN
    · exact .inl ((owned_set_iff ht hth w).mpr (.inl (by simp [RingPc.owned, hpe, hw])))
    · rw [(hcell w).1, (hcell w).2]
      exact (h.taken w h1 (by omega)).imp_left (owned_of_owned ht rfl hth)
  · intro w h1 h2
    rw [hd, he] at *
    rw [(hcell w).1, (hcell w).2]
    exact (h.free w (by omega) h2).imp_left (owned_of_owned ht rfl hth)

omit hS in
/-- The data write of a producer into the cell it owns. -/
theorem Inv.enqWrite (h : s.Inv) {v : α} {pos : UInt64}
    (ht : s.threads[t]? = some (.enqWrite v pos))
    (hth : s'.threads = s.threads.set t (.enqPublish v pos))
    (hE : s'.ring.enqueuePos = s.ring.enqueuePos) (hD : s'.ring.dequeuePos = s.ring.dequeuePos)
    (hbuf : s'.ring.buffer = Function.update s.ring.buffer (pos &&& mask Size)
      ⟨(s.ring.cell pos).sequence, v⟩)
    (hun : s'.unread = s.unread) (henq : s'.enqueued = s.enqueued)
    (hdeq : s'.dequeued = s.dequeued) : s'.Inv := by
  obtain ⟨hd0, hpe, hseq, hu0⟩ := h.thread t _ ht
  have he : s'.enqN = s.enqN := by rw [enqN, hE]; rfl
  have hd : s'.deqN = s.deqN := by rw [deqN, hD]; rfl
  have hslot : pos &&& mask Size = slot Size pos.toNat := and_mask_eq_slot pos
  have hunw : ∀ w, s'.slotUnread w = s.slotUnread w := fun w => by rw [slotUnread, hun]; rfl
  have h1 := h.enq_le
  have away : ∀ w, w ≠ pos.toNat → s.deqN ≤ w → w < s.deqN + Size →
      s'.slotCell w = s.slotCell w := fun w hne h1 h2 => by
    rw [slotCell_of_update hbuf, hslot, if_neg (h.slot_ne hpow hne h1 h2 hd0 (by omega))]
  have hown : ∀ w, s'.Owned w ↔ s.Owned w := fun w => by
    rw [owned_set_iff ht hth, owned_iff ht]; rfl
  refine h.of_step ht hth (by rw [he, hd]; exact h.deq_le_enq) (by rw [he, hd]; exact h.enq_le)
    (by rw [he]; exact h.bound) ?_ (fun t' pc' hne ht' hinv' => ?_) ?_ ?_ ?_
    (h.perm_of_quiet henq hdeq (releasing_perm_of_set ht hth rfl rfl) ?_)
  · have hc : s'.slotCell pos.toNat = ⟨(s.slotCell pos.toNat).sequence, v⟩ := by
      rw [slotCell_of_update hbuf, hslot, if_pos rfl, cell_eq_slotCell]
    simp only [ThreadInv, he, hd, hc, hunw]
    exact ⟨hd0, hpe, hseq, hu0, trivial⟩
  · refine hinv'.frame he hd (fun w => (hown w).mp) fun w hw => ⟨?_, hunw w⟩
    obtain ⟨h1, h2, -⟩ := h.owned_cell ⟨t', pc', ht', hw⟩
    exact away w (fun he => h.owner_unique t t' _ pc' w (Ne.symm hne) ht ht' (he ▸ rfl) hw) h1 h2
  · intro w hw ⟨t', pc', hne, ht', hw'⟩
    exact h.owner_unique t t' _ pc' w (Ne.symm hne) ht ht' hw hw'
  · intro w h1 h2
    rw [hd, he] at *
    by_cases hw : w = pos.toNat
    · exact .inl ((hown w).mpr ⟨t, _, ht, by simp [RingPc.owned, hw]⟩)
    · rw [away w hw h1 (by omega), hunw]
      exact (h.taken w h1 h2).imp_left (hown w).mpr
  · intro w h1 h2
    rw [hd, he] at *
    rw [away w (by omega) (by omega) h2, hunw]
    exact (h.free w h1 h2).imp_left (hown w).mpr
  · simp only [unreadValues, hun, hbuf]
    refine List.filterMap_congr fun i _ => ?_
    by_cases hi : UInt64.ofNat i = pos &&& mask Size
    · have : s.unread (UInt64.ofNat i) = false := by rw [hi, hslot]; exact hu0
      simp [this]
    · simp [Function.update_apply, hi]

omit hS in
/-- The sequence store of a producer: its cell is published, marked unread, and the call
returns `true`. -/
theorem Inv.enqPublish (h : s.Inv) {v : α} {pos : UInt64}
    (ht : s.threads[t]? = some (.enqPublish v pos)) (hth : s'.threads = s.threads.set t .idle)
    (hE : s'.ring.enqueuePos = s.ring.enqueuePos) (hD : s'.ring.dequeuePos = s.ring.dequeuePos)
    (hbuf : s'.ring.buffer = Function.update s.ring.buffer (pos &&& mask Size)
      ⟨pos + 1, (s.ring.cell pos).data⟩)
    (hun : s'.unread = Function.update s.unread (pos &&& mask Size) true)
    (henq : s'.enqueued = s.enqueued ++ [v]) (hdeq : s'.dequeued = s.dequeued) : s'.Inv := by
  obtain ⟨hd0, hpe, hseq, hu0, hdata⟩ := h.thread t _ ht
  have hlt := h.size_lt
  have he : s'.enqN = s.enqN := by rw [enqN, hE]; rfl
  have hd : s'.deqN = s.deqN := by rw [deqN, hD]; rfl
  have hslot : pos &&& mask Size = slot Size pos.toNat := and_mask_eq_slot pos
  have h1 := h.enq_le
  have away : ∀ w, w ≠ pos.toNat → s.deqN ≤ w → w < s.deqN + Size →
      s'.slotCell w = s.slotCell w ∧ s'.slotUnread w = s.slotUnread w := fun w hne h1 h2 => by
    have := h.slot_ne hpow hne h1 h2 hd0 (by omega)
    rw [slotCell_of_update hbuf, slotUnread_of_update hun, hslot, if_neg this, if_neg this]
    exact ⟨rfl, rfl⟩
  have hown : ∀ w, s'.Owned w → s.Owned w := fun w ho =>
    (owned_iff ht w).mpr (.inr (((owned_set_iff ht hth w).mp ho).resolve_left (by simp [RingPc.owned])))
  have hown' : ∀ w, w ≠ pos.toNat → s.Owned w → s'.Owned w := fun w hne ho =>
    (owned_set_iff ht hth w).mpr (.inr (((owned_iff ht w).mp ho).resolve_left
      (by simpa [RingPc.owned] using Ne.symm hne)))
  have hperm : s'.unreadValues.Perm (s.unreadValues ++ [v]) := by
    have hi₀ : pos.toNat % Size < Size := Nat.mod_lt _ (Nat.pos_of_isPowerOfTwo hpow)
    refine filterMap_congr_perm (List.nodup_range Size) (List.mem_range.mpr hi₀) ?_ ?_ ?_
    · have hu : s.unread (pos &&& mask Size) = false := by rw [hslot]; exact hu0
      rw [(ofNat_eq_slot_iff hpow hlt hi₀ _).mpr rfl, ← hslot]
      simp [hu]
    · rw [hun, hbuf, (ofNat_eq_slot_iff hpow hlt hi₀ _).mpr rfl, ← hslot]
      simp [cell_eq_slotCell, hdata]
    · intro i hi hne
      have : UInt64.ofNat i ≠ pos &&& mask Size := by
        rw [hslot, Ne, ofNat_eq_slot_iff hpow hlt (List.mem_range.mp hi)]; exact hne
      simp [hun, hbuf, Function.update_apply, this]
  refine h.of_step ht hth (by rw [he, hd]; exact h.deq_le_enq) (by rw [he, hd]; exact h.enq_le)
    (by rw [he]; exact h.bound) trivial (fun t' pc' hne ht' hinv' => ?_) (by simp [RingPc.owned])
    ?_ ?_ ?_
  · refine hinv'.frame he hd hown fun w hw => ?_
    obtain ⟨h1, h2, -⟩ := h.owned_cell ⟨t', pc', ht', hw⟩
    exact away w (fun he => h.owner_unique t t' _ pc' w (Ne.symm hne) ht ht' (he ▸ rfl) hw) h1 h2
  · intro w h1 h2
    rw [hd, he] at *
    by_cases hw : w = pos.toNat
    · subst hw
      right
      rw [slotCell_of_update hbuf, slotUnread_of_update hun, hslot, if_pos rfl, if_pos rfl]
      exact ⟨UInt64.toNat_add_one_of_lt (by have := h.bound; simp only [UInt64.size]; omega), rfl⟩
    · rw [(away w hw h1 (by omega)).1, (away w hw h1 (by omega)).2]
      exact (h.taken w h1 h2).imp_left (hown' w hw)
  · intro w h1 h2
    rw [hd, he] at *
    have hw : w ≠ pos.toNat := by omega
    rw [(away w hw (by omega) h2).1, (away w hw (by omega) h2).2]
    exact (h.free w h1 h2).imp_left (hown' w hw)
  · rw [henq, hdeq]
    refine (h.perm.append_right [v]).trans ?_
    rw [List.append_assoc (s.dequeued ++ s.releasing)]
    exact (((releasing_perm_of_set ht hth rfl rfl).symm.append_left s.dequeued).append
      hperm.symm)

/-- The winning compare-exchange of `dequeue_pos_`: the consumer takes the published cell
there, which now belongs to the next lap. -/
theorem Inv.deqCas_win (h : s.Inv) {pos : UInt64}
    (ht : s.threads[t]? = some (.deqCas pos)) (hpos : s.ring.dequeuePos = pos)
    (hth : s'.threads = s.threads.set t (.deqRead pos))
    (hE : s'.ring.enqueuePos = s.ring.enqueuePos) (hD : s'.ring.dequeuePos = pos + 1)
    (hbuf : s'.ring.buffer = s.ring.buffer) (hun : s'.unread = s.unread)
    (henq : s'.enqueued = s.enqueued) (hdeq : s'.dequeued = s.dequeued) : s'.Inv := by
  have hlt := h.size_lt
  have hpd : pos.toNat = s.deqN := by rw [← hpos]; rfl
  obtain ⟨hne, hfree⟩ := (h.thread t _ ht).2 hpd
  have he : s'.enqN = s.enqN := by rw [enqN, hE]; rfl
  have hd : s'.deqN = s.deqN + 1 := by
    rw [deqN, hD, UInt64.toNat_add_one_of_lt (by have := h.bound; simp only [UInt64.size]; omega),
      hpd]
  have hcell : ∀ w, s'.slotCell w = s.slotCell w ∧ s'.slotUnread w = s.slotUnread w :=
    fun w => ⟨by rw [slotCell, hbuf]; rfl, by rw [slotUnread, hun]; rfl⟩
  obtain ⟨hseq, hun'⟩ := (h.taken _ le_rfl hne).resolve_left hfree
  have hown : ∀ w, s'.Owned w → s.Owned w ∨ w = s.deqN + Size := fun w ho => by
    rcases (owned_set_iff ht hth w).mp ho with hw | hw
    · simp only [RingPc.owned, Option.some.injEq] at hw; exact .inr (hw ▸ hpd ▸ rfl)
    · exact .inl ((owned_iff ht w).mpr (.inr hw))
  have h1 := h.enq_le
  refine h.of_step ht hth (by omega) (by omega) (by rw [he]; exact h.bound) ?_
    (fun t' pc' _ ht' hinv' => hinv'.frame_deq he hd hown hfree (fun w hw => ⟨t', pc', ht', hw⟩)
      fun w _ => hcell w) ?_ ?_ ?_
    (h.perm_of_quiet henq hdeq (releasing_perm_of_set ht hth rfl rfl)
      (by simp only [unreadValues, hbuf, hun]))
  · have hc : s.slotCell (s.deqN + Size) = s.slotCell s.deqN := by
      simp only [slotCell, slot_add_size hpow hlt]
    have hu : s.slotUnread (s.deqN + Size) = s.slotUnread s.deqN := by
      simp only [slotUnread, slot_add_size hpow hlt]
    simp only [ThreadInv, he, hd, hpd, (hcell _).1, (hcell _).2, hc, hu]
    exact ⟨h1, by omega, hseq, hun'⟩
  · intro w hw ho
    simp only [RingPc.owned, Option.some.injEq] at hw
    have := (h.owned_cell ((owned_iff ht _).mpr (.inr ho))).2.1
    omega
  · intro w h1 h2
    rw [hd, he] at *
    rw [(hcell w).1, (hcell w).2]
    exact (h.taken w (by omega) h2).imp_left (owned_of_owned ht rfl hth)
  · intro w h1 h2
    rw [hd, he] at *
    by_cases hw : w = s.deqN + Size
    · exact .inl ((owned_set_iff ht hth w).mpr (.inl (by simp [RingPc.owned, hpd, hw])))
    · rw [(hcell w).1, (hcell w).2]
      exact (h.free w h1 (by omega)).imp_left (owned_of_owned ht rfl hth)

omit hS in
/-- The data read of a consumer from the cell it owns: the item leaves the unread cells for
the consumer's hands. -/
theorem Inv.deqRead (h : s.Inv) {pos : UInt64} (ht : s.threads[t]? = some (.deqRead pos))
    (hth : s'.threads = s.threads.set t (.deqRelease pos (s.ring.cell pos).data))
    (hE : s'.ring.enqueuePos = s.ring.enqueuePos) (hD : s'.ring.dequeuePos = s.ring.dequeuePos)
    (hbuf : s'.ring.buffer = s.ring.buffer)
    (hun : s'.unread = Function.update s.unread (pos &&& mask Size) false)
    (henq : s'.enqueued = s.enqueued) (hdeq : s'.dequeued = s.dequeued) : s'.Inv := by
  obtain ⟨he0, hpd, hseq, hu0⟩ := h.thread t _ ht
  have hlt := h.size_lt
  have he : s'.enqN = s.enqN := by rw [enqN, hE]; rfl
  have hd : s'.deqN = s.deqN := by rw [deqN, hD]; rfl
  have hslot : pos &&& mask Size = slot Size (pos.toNat + Size) := by
    rw [slot_add_size hpow hlt]; exact and_mask_eq_slot pos
  have h1 := h.deq_le_enq
  have hcellw : ∀ w, s'.slotCell w = s.slotCell w := fun w => by rw [slotCell, hbuf]; rfl
  have away : ∀ w, w ≠ pos.toNat + Size → s.deqN ≤ w → w < s.deqN + Size →
      s'.slotUnread w = s.slotUnread w := fun w hne h1 h2 => by
    rw [slotUnread_of_update hun, hslot, if_neg (h.slot_ne hpow hne h1 h2 (by omega) (by omega))]
  have hown : ∀ w, s'.Owned w ↔ s.Owned w := fun w => by
    rw [owned_set_iff ht hth, owned_iff ht]; rfl
  have hperm : s.unreadValues.Perm (s'.unreadValues ++ [(s.ring.cell pos).data]) := by
    have hi₀ : pos.toNat % Size < Size := Nat.mod_lt _ (Nat.pos_of_isPowerOfTwo hpow)
    have hslot' : pos &&& mask Size = slot Size pos.toNat := and_mask_eq_slot pos
    refine filterMap_congr_perm (List.nodup_range Size) (List.mem_range.mpr hi₀) ?_ ?_ ?_
    · rw [hun, (ofNat_eq_slot_iff hpow hlt hi₀ _).mpr rfl, ← hslot']
      simp
    · have hu : s.unread (pos &&& mask Size) = true := by rw [hslot]; exact hu0
      rw [(ofNat_eq_slot_iff hpow hlt hi₀ _).mpr rfl, ← hslot']
      simp [hu, MPMCQueue.cell]
    · intro i hi hne
      have : UInt64.ofNat i ≠ pos &&& mask Size := by
        rw [hslot', Ne, ofNat_eq_slot_iff hpow hlt (List.mem_range.mp hi)]; exact hne
      simp [hun, hbuf, Function.update_apply, this]
  refine h.of_step ht hth (by rw [he, hd]; exact h1) (by rw [he, hd]; exact h.enq_le)
    (by rw [he]; exact h.bound) ?_ (fun t' pc' hne ht' hinv' => ?_) ?_ ?_ ?_ ?_
  · have hu : s'.slotUnread (pos.toNat + Size) = false := by
      rw [slotUnread_of_update hun, hslot, if_pos rfl]
    simp only [ThreadInv, he, hd, hcellw, hu]
    exact ⟨he0, hpd, hseq, trivial⟩
  · refine hinv'.frame he hd (fun w => (hown w).mp) fun w hw => ⟨hcellw w, ?_⟩
    obtain ⟨h1, h2, -⟩ := h.owned_cell ⟨t', pc', ht', hw⟩
    exact away w (fun he => h.owner_unique t t' _ pc' w (Ne.symm hne) ht ht' (he ▸ rfl) hw) h1 h2
  · intro w hw ⟨t', pc', hne, ht', hw'⟩
    exact h.owner_unique t t' _ pc' w (Ne.symm hne) ht ht' hw hw'
  · intro w h1 h2
    rw [hd, he] at *
    rw [hcellw, away w (by omega) h1 (by omega)]
    exact (h.taken w h1 h2).imp_left (hown w).mpr
  · intro w h1 h2
    rw [hd, he] at *
    by_cases hw : w = pos.toNat + Size
    · exact .inl ((hown w).mpr ⟨t, _, ht, by simp [RingPc.owned, hw]⟩)
    · rw [hcellw, away w hw (by omega) h2]
      exact (h.free w h1 h2).imp_left (hown w).mpr
  · have hrel : s'.releasing.Perm (s.releasing ++ [(s.ring.cell pos).data]) := by
      have := filterMap_set_perm RingPc.readValue ht (.deqRelease pos (s.ring.cell pos).data)
      simp only [RingPc.readValue, Option.toList_none, Option.toList_some,
        List.append_nil] at this
      rw [releasing, hth]; exact this
    rw [henq, hdeq]
    refine h.perm.trans (((hperm.trans List.perm_append_comm).append_left _).trans ?_)
    rw [List.append_assoc, List.append_assoc, ← List.append_assoc s.releasing]
    exact (hrel.symm.append_right _).append_left _

omit hS in
/-- The sequence store of a consumer: its cell is released to the next lap's producer, and the
call returns the value read. -/
theorem Inv.deqRelease (h : s.Inv) {pos : UInt64} {v : α}
    (ht : s.threads[t]? = some (.deqRelease pos v)) (hth : s'.threads = s.threads.set t .idle)
    (hE : s'.ring.enqueuePos = s.ring.enqueuePos) (hD : s'.ring.dequeuePos = s.ring.dequeuePos)
    (hbuf : s'.ring.buffer = Function.update s.ring.buffer (pos &&& mask Size)
      ⟨pos + UInt64.ofNat Size, (s.ring.cell pos).data⟩)
    (hun : s'.unread = s.unread) (henq : s'.enqueued = s.enqueued)
    (hdeq : s'.dequeued = s.dequeued ++ [v]) : s'.Inv := by
  obtain ⟨he0, hpd, hseq, hu0⟩ := h.thread t _ ht
  have hlt := h.size_lt
  have he : s'.enqN = s.enqN := by rw [enqN, hE]; rfl
  have hd : s'.deqN = s.deqN := by rw [deqN, hD]; rfl
  have hslot : pos &&& mask Size = slot Size (pos.toNat + Size) := by
    rw [slot_add_size hpow hlt]; exact and_mask_eq_slot pos
  have h1 := h.deq_le_enq
  have hunw : ∀ w, s'.slotUnread w = s.slotUnread w := fun w => by rw [slotUnread, hun]; rfl
  have away : ∀ w, w ≠ pos.toNat + Size → s.deqN ≤ w → w < s.deqN + Size →
      s'.slotCell w = s.slotCell w := fun w hne h1 h2 => by
    rw [slotCell_of_update hbuf, hslot, if_neg (h.slot_ne hpow hne h1 h2 (by omega) (by omega))]
  have hown : ∀ w, s'.Owned w → s.Owned w := fun w ho =>
    (owned_iff ht w).mpr (.inr (((owned_set_iff ht hth w).mp ho).resolve_left (by simp [RingPc.owned])))
  have hown' : ∀ w, w ≠ pos.toNat + Size → s.Owned w → s'.Owned w := fun w hne ho =>
    (owned_set_iff ht hth w).mpr (.inr (((owned_iff ht w).mp ho).resolve_left
      (by simpa [RingPc.owned] using Ne.symm hne)))
  refine h.of_step ht hth (by rw [he, hd]; exact h1) (by rw [he, hd]; exact h.enq_le)
    (by rw [he]; exact h.bound) trivial (fun t' pc' hne ht' hinv' => ?_) (by simp [RingPc.owned])
    ?_ ?_ ?_
  · refine hinv'.frame he hd hown fun w hw => ⟨?_, hunw w⟩
    obtain ⟨h1, h2, -⟩ := h.owned_cell ⟨t', pc', ht', hw⟩
    exact away w (fun he => h.owner_unique t t' _ pc' w (Ne.symm hne) ht ht' (he ▸ rfl) hw) h1 h2
  · intro w h1 h2
    rw [hd, he] at *
    have hw : w ≠ pos.toNat + Size := by omega
    rw [away w hw h1 (by omega), hunw]
    exact (h.taken w h1 h2).imp_left (hown' w hw)
  · intro w h1 h2
    rw [hd, he] at *
    by_cases hw : w = pos.toNat + Size
    · subst hw
      right
      rw [slotCell_of_update hbuf, hslot, if_pos rfl, hunw]
      exact ⟨UInt64.toNat_add_of_lt (by have := h.bound; simp only [UInt64.size]; omega), hu0⟩
    · rw [away w hw (by omega) h2, hunw]
      exact (h.free w h1 h2).imp_left (hown' w hw)
  · have hrel : (s'.releasing ++ [v]).Perm s.releasing := by
      have := filterMap_set_perm RingPc.readValue ht .idle
      simp only [RingPc.readValue, Option.toList_none, Option.toList_some,
        List.append_nil] at this
      rw [releasing, hth]; exact this
    rw [henq, hdeq]
    refine h.perm.trans ?_
    have hu : s'.unreadValues = s.unreadValues := by
      simp only [unreadValues, hun, hbuf]
      refine List.filterMap_congr fun i _ => ?_
      by_cases hi : UInt64.ofNat i = pos &&& mask Size
      · have : s.unread (UInt64.ofNat i) = false := by rw [hi, hslot]; exact hu0
        simp [this]
      · simp [Function.update_apply, hi]
    rw [hu, List.append_assoc s.dequeued [v]]
    exact ((hrel.symm.trans List.perm_append_comm).append_left s.dequeued).append_right _

/-- Every enabled action keeps the invariant, as long as `enqueue_pos_` stays a lap short of
wrapping. -/
theorem Inv.next (h : s.Inv) {a : RingAction α} (hs : s.next a = some s')
    (hb : s'.enqN + Size < 2 ^ 64) : s'.Inv := by
  have hsz := h.size_lt
  cases a with
  | startEnqueue t v =>
    simp only [RingSystem.next] at hs
    split at hs
    · rename_i ht; cases hs; exact h.quiet ht rfl rfl rfl rfl trivial
    · cases hs
  | startDequeue t =>
    simp only [RingSystem.next] at hs
    split at hs
    · rename_i ht; cases hs; exact h.quiet ht rfl rfl rfl rfl trivial
    · cases hs
  | step t =>
    obtain ⟨pc₀, ht, hs⟩ := Option.bind_eq_some.mp hs
    have hinv := h.thread t pc₀ ht
    cases pc₀ with
    | idle => cases hs
    | enqLoadPos v => cases hs; exact h.quiet ht rfl rfl rfl rfl (le_refl s.enqN)
    | enqLoadSeq v pos =>
      simp only [stepAt] at hs
      split_ifs at hs with h0
      · cases hs
        refine h.quiet ht rfl rfl rfl rfl ⟨hinv, fun hpe => h.enq_ready hpow hS ?_⟩
        rw [← hpe, ← cell_eq_slotCell, intptrDiff_eq_zero.mp h0]
      all_goals cases hs; exact h.quiet ht rfl rfl rfl rfl trivial
    | enqCas v pos =>
      simp only [stepAt] at hs
      split_ifs at hs with hpos
      · cases hs; exact h.enqCas_win hS ht hpos rfl rfl rfl rfl rfl rfl rfl hb
      · cases hs; exact h.quiet ht rfl rfl rfl rfl (le_refl s.enqN)
    | enqWrite v pos => cases hs; exact h.enqWrite hpow ht rfl rfl rfl rfl rfl rfl rfl
    | enqPublish v pos => cases hs; exact h.enqPublish hpow ht rfl rfl rfl rfl rfl rfl rfl
    | deqLoadPos => cases hs; exact h.quiet ht rfl rfl rfl rfl (le_refl s.deqN)
    | deqLoadSeq pos =>
      simp only [stepAt] at hs
      split_ifs at hs with h0
      · cases hs
        refine h.quiet ht rfl rfl rfl rfl ⟨hinv, fun hpd => h.deq_ready hS ?_⟩
        have h1 := h.deq_le_enq
        have h2 := h.bound
        rw [← hpd, ← cell_eq_slotCell, intptrDiff_eq_zero.mp h0,
          UInt64.toNat_add_one_of_lt (by simp only [UInt64.size]; omega)]
      all_goals cases hs; exact h.quiet ht rfl rfl rfl rfl trivial
    | deqCas pos =>
      simp only [stepAt] at hs
      split_ifs at hs with hpos
      · cases hs; exact h.deqCas_win hpow hS ht hpos rfl rfl rfl rfl rfl rfl rfl
      · cases hs; exact h.quiet ht rfl rfl rfl rfl (le_refl s.deqN)
    | deqRead pos => cases hs; exact h.deqRead hpow ht rfl rfl rfl rfl rfl rfl rfl
    | deqRelease pos v => cases hs; exact h.deqRelease hpow ht rfl rfl rfl rfl rfl rfl rfl

end Steps

end Micromatch.Utils.RingSystem

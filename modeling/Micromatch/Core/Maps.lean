import Micromatch.Core.PriceLevel

namespace Micromatch.Core

section Assoc

variable {α β : Type}

def keys (m : List (α × β)) : List α := m.map Prod.fst

@[simp] theorem keys_cons (e : α × β) (m : List (α × β)) : keys (e :: m) = e.1 :: keys m := rfl

@[simp] theorem keys_nil : keys ([] : List (α × β)) = [] := rfl

@[simp] theorem keys_append (m m' : List (α × β)) : keys (m ++ m') = keys m ++ keys m' :=
  List.map_append _ _ _

theorem mem_keys {m : List (α × β)} {k : α} : k ∈ keys m ↔ ∃ v, (k, v) ∈ m := by
  simp only [keys, List.mem_map, Prod.exists, exists_and_right, exists_eq_right]

variable [DecidableEq α]

/-- `find` on a map with unique keys. -/
def lookup (m : List (α × β)) (k : α) : Option β := (m.find? (fun e => e.1 = k)).map Prod.snd

/-- `erase(key)`. -/
def eraseKey (m : List (α × β)) (k : α) : List (α × β) := m.filter (fun e => e.1 ≠ k)

@[simp] theorem lookup_nil (k : α) : lookup ([] : List (α × β)) k = none := rfl

@[simp] theorem lookup_cons (k k' : α) (v : β) (m : List (α × β)) :
    lookup ((k', v) :: m) k = if k' = k then some v else lookup m k := by
  by_cases h : k' = k <;> simp [lookup, h]

theorem lookup_eq_none {m : List (α × β)} {k : α} : lookup m k = none ↔ k ∉ keys m := by
  induction m with
  | nil => simp
  | cons e m ih =>
    obtain ⟨k', v⟩ := e
    by_cases h : k' = k
    · simp [h]
    · simp [h, ih, Ne.symm h]

theorem lookup_eq_some {m : List (α × β)} (hm : (keys m).Nodup) {k : α} {v : β} :
    lookup m k = some v ↔ (k, v) ∈ m := by
  induction m with
  | nil => simp
  | cons e m ih =>
    obtain ⟨k', v'⟩ := e
    simp only [keys_cons, List.nodup_cons] at hm
    by_cases h : k' = k
    · subst h
      have : (k', v) ∉ m := fun hv => hm.1 (mem_keys.mpr ⟨v, hv⟩)
      simp [this, eq_comm]
    · simp [h, ih hm.2, Ne.symm h]

theorem lookup_isSome {m : List (α × β)} {k : α} : (lookup m k).isSome ↔ k ∈ keys m := by
  rw [← not_iff_not, Option.not_isSome_iff_eq_none, lookup_eq_none]

@[simp] theorem mem_eraseKey {m : List (α × β)} {k : α} {e : α × β} :
    e ∈ eraseKey m k ↔ e ∈ m ∧ e.1 ≠ k := by
  simp [eraseKey]

@[simp] theorem eraseKey_nil (k : α) : eraseKey ([] : List (α × β)) k = [] := rfl

@[simp] theorem eraseKey_cons (e : α × β) (m : List (α × β)) (k : α) :
    eraseKey (e :: m) k = if e.1 = k then eraseKey m k else e :: eraseKey m k := by
  by_cases h : e.1 = k <;> simp [eraseKey, List.filter_cons, h]

theorem keys_eraseKey_sublist (m : List (α × β)) (k : α) : (keys (eraseKey m k)).Sublist (keys m) :=
  (List.filter_sublist _).map _

theorem eraseKey_of_not_mem {m : List (α × β)} {k : α} (h : k ∉ keys m) : eraseKey m k = m := by
  refine List.filter_eq_self.mpr fun e he => ?_
  have : e.1 ≠ k := fun hk => h (mem_keys.mpr ⟨e.2, hk ▸ he⟩)
  simpa using this

/-- Assignment through `operator[]` of an `unordered_map`: an existing key gets the new value,
a new key is added. -/
def assign (m : List (α × β)) (k : α) (v : β) : List (α × β) :=
  if k ∈ keys m then m.map (fun e => if e.1 = k then (k, v) else e) else m ++ [(k, v)]

theorem assign_of_not_mem {m : List (α × β)} {k : α} (h : k ∉ keys m) (v : β) :
    assign m k v = m ++ [(k, v)] := by
  simp [assign, h]

theorem eraseKey_append_singleton (m : List (α × β)) (k : α) (v : β) :
    eraseKey (m ++ [(k, v)]) k = eraseKey m k := by
  simp [eraseKey, List.filter_append]

end Assoc

/-- `std::map<int64_t, std::unique_ptr<PriceLevelImpl>, Compare>`. -/
abbrev PriceMap := List (Int × PriceLevelImpl)

/-- The comparator of each side's map: `std::greater` for bids, `std::less` for asks. -/
def Side.before : Side → Int → Int → Bool
  | .BUY, a, b => a > b
  | .SELL, a, b => a < b

theorem Side.before_irrefl (s : Side) (a : Int) : s.before a a = false := by
  cases s <;> simp [Side.before]

theorem Side.before_trans {s : Side} {a b c : Int} (hab : s.before a b) (hbc : s.before b c) :
    s.before a c := by
  cases s <;> simp only [Side.before, decide_eq_true_eq] at * <;> omega

theorem Side.before_of_not_before {s : Side} {a b : Int} (hne : a ≠ b) (h : s.before a b = false) :
    s.before b a := by
  cases s <;> simp only [Side.before, decide_eq_true_eq, decide_eq_false_iff_not] at * <;> omega

namespace PriceMap

/-- Assignment through `operator[]`: an existing key keeps its place, a new one goes where the
comparator puts it. -/
def insert (before : Int → Int → Bool) (k : Int) (v : PriceLevelImpl) : PriceMap → PriceMap
  | [] => [(k, v)]
  | (k', v') :: m =>
    if k = k' then (k, v) :: m
    else if before k k' then (k, v) :: (k', v') :: m
    else (k', v') :: insert before k v m

/-- The addresses queued on the levels of a map, best level first and front first. -/
def queued (m : PriceMap) : List Ptr := m.flatMap (·.2.orders)

@[simp] theorem queued_nil : queued [] = [] := rfl

@[simp] theorem queued_cons (e : Int × PriceLevelImpl) (m : PriceMap) :
    queued (e :: m) = e.2.orders ++ queued m := rfl

theorem queued_append (m m' : PriceMap) : queued (m ++ m') = queued m ++ queued m' :=
  List.flatMap_append _ _ _

/-- A key-sorted map. -/
def Sorted (s : Side) (m : PriceMap) : Prop := (keys m).Pairwise (fun a b => s.before a b)

theorem Sorted.tail {s : Side} {e : Int × PriceLevelImpl} {m : PriceMap} (h : Sorted s (e :: m)) :
    Sorted s m := (List.pairwise_cons.mp h).2

theorem Sorted.before_of_mem {s : Side} {e : Int × PriceLevelImpl} {m : PriceMap}
    (h : Sorted s (e :: m)) {k : Int} (hk : k ∈ keys m) : s.before e.1 k :=
  (List.pairwise_cons.mp h).1 k hk

theorem Sorted.not_mem {s : Side} {e : Int × PriceLevelImpl} {m : PriceMap}
    (h : Sorted s (e :: m)) : e.1 ∉ keys m := fun hk => by
  simpa [Side.before_irrefl] using h.before_of_mem hk

theorem Sorted.nodup {s : Side} {m : PriceMap} (h : Sorted s m) : (keys m).Nodup :=
  h.imp fun hab he => by simp [he, Side.before_irrefl] at hab

theorem Sorted.sublist {s : Side} {m m' : PriceMap} (h : Sorted s m) (hs : m'.Sublist m) :
    Sorted s m' := List.Pairwise.sublist (hs.map _) h

theorem Sorted.eraseKey {s : Side} {m : PriceMap} (h : Sorted s m) (k : Int) :
    Sorted s (Core.eraseKey m k) := h.sublist (List.filter_sublist _)

theorem keys_insert_subset (before : Int → Int → Bool) (k : Int) (v : PriceLevelImpl)
    (m : PriceMap) : ∀ x ∈ keys (insert before k v m), x = k ∨ x ∈ keys m := by
  induction m with
  | nil => simp [insert]
  | cons e m ih =>
    obtain ⟨k', v'⟩ := e
    intro x hx
    simp only [insert] at hx
    split_ifs at hx <;> simp only [keys_cons, List.mem_cons] at hx ⊢
    · tauto
    · tauto
    · rcases hx with hx | hx
      · exact .inr (.inl hx)
      · rcases ih x hx with h | h <;> tauto

theorem Sorted.insert {s : Side} {m : PriceMap} (h : Sorted s m) (k : Int) (v : PriceLevelImpl) :
    Sorted s (insert s.before k v m) := by
  induction m with
  | nil => simp [PriceMap.insert, Sorted, keys]
  | cons e m ih =>
    obtain ⟨k', v'⟩ := e
    simp only [PriceMap.insert]
    split_ifs with hk hb
    · subst hk; exact h
    · refine List.Pairwise.cons (fun x hx => ?_) h
      rcases List.mem_cons.mp hx with rfl | hx
      · exact hb
      · exact Side.before_trans hb (h.before_of_mem hx)
    · refine List.Pairwise.cons (fun x hx => ?_) (ih h.tail)
      rcases keys_insert_subset _ k v m x hx with rfl | hx
      · exact Side.before_of_not_before hk (by simpa using hb)
      · exact h.before_of_mem hx

/-- On a sorted map `insert` replaces the entry of its key, wherever the entry goes. -/
theorem insert_perm {s : Side} {m : PriceMap} (h : Sorted s m) (k : Int) (v : PriceLevelImpl) :
    (insert s.before k v m).Perm ((k, v) :: Core.eraseKey m k) := by
  induction m with
  | nil => simp [PriceMap.insert]
  | cons e m ih =>
    obtain ⟨k', v'⟩ := e
    simp only [PriceMap.insert]
    split_ifs with hk hb
    · subst hk
      simp [Core.eraseKey_of_not_mem h.not_mem]
    · have : k ∉ keys m := fun hm => by
        simpa [Side.before_irrefl] using Side.before_trans hb (h.before_of_mem hm)
      simp [Ne.symm hk, Core.eraseKey_of_not_mem this]
    · simpa [Ne.symm hk] using ((ih h.tail).cons _).trans (List.Perm.swap _ _ _)

theorem mem_insert {s : Side} {m : PriceMap} (h : Sorted s m) {k : Int} {v : PriceLevelImpl}
    {e : Int × PriceLevelImpl} : e ∈ insert s.before k v m ↔ e = (k, v) ∨ e ∈ Core.eraseKey m k := by
  rw [(insert_perm h k v).mem_iff, List.mem_cons]

theorem queued_insert_perm {s : Side} {m : PriceMap} (h : Sorted s m) (k : Int)
    (v : PriceLevelImpl) :
    (queued (insert s.before k v m)).Perm (v.orders ++ queued (Core.eraseKey m k)) :=
  (insert_perm h k v).flatMap_right _

/-- Assigning a key twice keeps the second value only. -/
theorem insert_insert (before : Int → Int → Bool) (k : Int) (v v' : PriceLevelImpl) (m : PriceMap) :
    insert before k v (insert before k v' m) = insert before k v m := by
  induction m with
  | nil => simp [PriceMap.insert]
  | cons e m ih =>
    obtain ⟨k', w⟩ := e
    by_cases hk : k = k'
    · simp [PriceMap.insert, hk]
    · by_cases hb : before k k' <;> simp [PriceMap.insert, hk, hb, ih]

/-- Erasing a key just assigned erases what was there before. -/
theorem eraseKey_insert (before : Int → Int → Bool) (k : Int) (v : PriceLevelImpl) (m : PriceMap) :
    Core.eraseKey (insert before k v m) k = Core.eraseKey m k := by
  induction m with
  | nil => simp [PriceMap.insert]
  | cons e m ih =>
    obtain ⟨k', w⟩ := e
    by_cases hk : k = k'
    · subst hk; simp [PriceMap.insert]
    · by_cases hb : before k k' <;> simp [PriceMap.insert, hk, hb, ih, Ne.symm hk]

/-- Assigning a key the value it already holds changes nothing. -/
theorem insert_of_lookup {s : Side} {m : PriceMap} (h : Sorted s m) {k : Int} {v : PriceLevelImpl}
    (hl : lookup m k = some v) : insert s.before k v m = m := by
  have hv := (lookup_eq_some h.nodup).mp hl
  induction m with
  | nil => simp at hv
  | cons e m ih =>
    obtain ⟨k', v'⟩ := e
    rcases List.mem_cons.mp hv with he | hv
    · cases he; simp [PriceMap.insert]
    · have hk : k ≠ k' := fun hk => h.not_mem (hk ▸ mem_keys.mpr ⟨v, hv⟩)
      have hb : s.before k k' = false := by
        have := h.before_of_mem (mem_keys.mpr ⟨v, hv⟩)
        cases hb : s.before k k'
        · rfl
        · simpa [Side.before_irrefl] using Side.before_trans hb this
      simp only [lookup_cons, Ne.symm hk, if_false] at hl
      simp [PriceMap.insert, hk, hb, ih h.tail hl hv]

theorem lookup_insert {s : Side} {m : PriceMap} (h : Sorted s m) (k : Int) (v : PriceLevelImpl) :
    lookup (insert s.before k v m) k = some v :=
  (lookup_eq_some (h.insert k v).nodup).mpr ((mem_insert h).mpr (.inl rfl))

theorem lookup_insert_ne (before : Int → Int → Bool) {k p : Int} (h : p ≠ k) (v : PriceLevelImpl)
    (m : PriceMap) : lookup (insert before k v m) p = lookup m p := by
  induction m with
  | nil => simp [PriceMap.insert, Ne.symm h]
  | cons e m ih =>
    obtain ⟨k', w⟩ := e
    by_cases hk : k = k'
    · subst hk; simp [PriceMap.insert, Ne.symm h]
    · by_cases hb : before k k' <;> simp [PriceMap.insert, hk, hb, ih, Ne.symm h]

/-- The orders of the level at `k`, none if there is no such level. -/
def levelOrders (m : PriceMap) (k : Int) : List Ptr := ((lookup m k).map (·.orders)).getD []

theorem queued_perm_levelOrders {s : Side} {m : PriceMap} (h : Sorted s m) (k : Int) :
    (queued m).Perm (levelOrders m k ++ queued (Core.eraseKey m k)) := by
  cases hl : lookup m k with
  | none =>
    rw [Core.eraseKey_of_not_mem (lookup_eq_none.mp hl)]
    simp [levelOrders, hl]
  | some v =>
    have := queued_insert_perm h k v
    rw [insert_of_lookup h hl] at this
    simpa [levelOrders, hl] using this

end PriceMap

/-- `std::unordered_map<uint64_t, std::shared_ptr<Order>>`. -/
abbrev OrderMap := List (UInt64 × Ptr)

end Micromatch.Core

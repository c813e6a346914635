import Micromatch.Utils.SPSCThreads

namespace List

variable {α : Type}

theorem IsPrefix.getElem?_of_lt {l₁ l₂ : List α} (h : l₁ <+: l₂) {n : Nat} (hn : n < l₁.length) :
    l₂[n]? = l₁[n]? := by
  obtain ⟨t, rfl⟩ := h
  exact getElem?_append_left hn

/-- A prefix grows by the next element of the list it is a prefix of. -/
theorem IsPrefix.concat_getElem? {l₁ l₂ : List α} (h : l₁ <+: l₂) {a : α}
    (ha : l₂[l₁.length]? = some a) : l₁ ++ [a] <+: l₂ := by
  obtain ⟨t, rfl⟩ := h
  rw [getElem?_append_right le_rfl, Nat.sub_self] at ha
  cases t with
  | nil => cases ha
  | cons b t =>
    obtain rfl : b = a := by simpa using ha
    exact ⟨t, by simp⟩

theorem IsPrefix.take_prefix_of_le {l₁ l₂ : List α} (h : l₁ <+: l₂) {n : Nat} (hn : n ≤ l₁.length) :
    l₂.take n <+: l₁ := by
  have e : l₂.take n = l₁.take n := by rw [prefix_iff_eq_take.mp h, take_take, min_eq_left hn]
  exact e ▸ List.take_prefix n l₁

end List

namespace Micromatch.Utils.SPSCQueue

variable {α : Type}

@[simp] theorem alloc_fst (q : SPSCQueue α) (value : α) : (q.alloc value).1 = q.nodes.length := rfl

@[simp] theorem alloc_nodes_length (q : SPSCQueue α) (value : α) :
    (q.alloc value).2.nodes.length = q.nodes.length + 1 := by
  simp [alloc]

variable [Inhabited α]

@[simp] theorem storeNext_nodes_length (q : SPSCQueue α) (p n : Nat) :
    (q.storeNext p n).nodes.length = q.nodes.length := by
  simp [storeNext]

@[simp] theorem storeNext_cachedTail (q : SPSCQueue α) (p n : Nat) :
    (q.storeNext p n).cachedTail = q.cachedTail := rfl

/-- `new Node(value)` makes an unlinked node at the first free address. -/
theorem node_alloc (q : SPSCQueue α) (value : α) (i : Nat) :
    (q.alloc value).2.node i = if i = q.nodes.length then ⟨none, value⟩ else q.node i := by
  simp only [node, alloc]
  rcases lt_trichotomy i q.nodes.length with h | rfl | h
  · rw [if_neg h.ne, List.getD_append _ _ _ _ h]
  · simp
  · rw [if_neg h.ne', List.getD_eq_default _ _ (by simp; omega), List.getD_eq_default _ _ h.le]

/-- The new node is unlinked, as every address past the last node reads. -/
@[simp] theorem next_node_alloc (q : SPSCQueue α) (value : α) (i : Nat) :
    ((q.alloc value).2.node i).next = (q.node i).next := by
  rw [node_alloc]
  split_ifs with h
  · rw [h, node, List.getD_eq_default _ _ le_rfl]
  · rfl

theorem data_node_alloc (q : SPSCQueue α) (value : α) (i : Nat) :
    ((q.alloc value).2.node i).data = if i = q.nodes.length then value else (q.node i).data := by
  rw [node_alloc]
  split_ifs <;> rfl

/-- `p->next.store(n)` on an allocated node changes that link only. -/
theorem node_storeNext (q : SPSCQueue α) {p : Nat} (hp : p < q.nodes.length) (n i : Nat) :
    (q.storeNext p n).node i = if i = p then { q.node p with next := some n } else q.node i := by
  simp only [node, storeNext, List.getD_eq_getElem?_getD, List.getElem?_set]
  by_cases h : p = i
  · subst h
    simp [hp, List.getElem?_eq_getElem hp]
  · simp [h, Ne.symm h]

theorem next_node_storeNext (q : SPSCQueue α) {p : Nat} (hp : p < q.nodes.length) (n i : Nat) :
    ((q.storeNext p n).node i).next = if i = p then some n else (q.node i).next := by
  rw [node_storeNext q hp]
  split_ifs <;> rfl

@[simp] theorem data_node_storeNext (q : SPSCQueue α) (p n i : Nat) :
    ((q.storeNext p n).node i).data = (q.node i).data := by
  by_cases hp : p < q.nodes.length
  · rw [node_storeNext q hp]
    split_ifs with h
    · rw [h]
    · rfl
  · simp only [storeNext, List.set_eq_of_length_le (not_lt.mp hp)]

/-- Along a chain `0 → 1 → … → L` that ends at `L`, the walk of `size_approx()` from `i ≤ L`
counts the `L - i` links once its fuel exceeds that count. -/
theorem sizeApproxFrom_chain (q : SPSCQueue α) {L : Nat}
    (hnext : ∀ i, (q.node i).next = if i < L then some (i + 1) else none) :
    ∀ fuel i, i ≤ L → L - i < fuel → q.sizeApproxFrom fuel i = some (L - i)
  | 0, _, _, hf => absurd hf (Nat.not_lt_zero _)
  | fuel + 1, i, hi, hf => by
    by_cases h : i < L
    · simp only [sizeApproxFrom, hnext, h, if_true,
        sizeApproxFrom_chain q hnext fuel (i + 1) h (by omega), Option.map_some']
      congr 1
      omega
    · simp only [sizeApproxFrom, hnext, h, if_false]
      congr 1
      omega

/-- A step of `dequeue` that returns ends the call and returns the call's `seen`. -/
theorem dequeueStep_result {q q' : SPSCQueue α} {pc pc' : SpscConsumerPc α} {r : Option α × Nat}
    (h : q.dequeueStep pc = some (q', pc', some r)) : pc' = .idle ∧ r.2 = pc.seen := by
  cases pc <;> simp only [dequeueStep] at h <;> repeat' (first | split at h | split_ifs at h)
  all_goals cases h <;> exact ⟨rfl, rfl⟩

/-- A step of `dequeue` that does not return keeps the call's `seen`. -/
theorem dequeueStep_seen {q q' : SPSCQueue α} {pc pc' : SpscConsumerPc α}
    (h : q.dequeueStep pc = some (q', pc', none)) : pc'.seen = pc.seen := by
  cases pc <;> simp only [dequeueStep] at h <;> repeat' (first | split at h | split_ifs at h)
  all_goals cases h <;> rfl

end Micromatch.Utils.SPSCQueue

namespace Micromatch.Utils.SpscSystem
open SPSCQueue

variable {α : Type}

/-- Each `nullopt` was returned by a call that had seen no more completed link stores than the
values returned before it. -/
def NulloptSeen (returns : List (Option α × Nat)) : Prop :=
  ∀ i seen, returns[i]? = some (none, seen) → seen ≤ ((returns.take i).filterMap Prod.fst).length

theorem NulloptSeen.append {returns : List (Option α × Nat)} (h : NulloptSeen returns)
    {r : Option α} {seen : Nat} (hr : r = none → seen ≤ (returns.filterMap Prod.fst).length) :
    NulloptSeen (returns ++ [(r, seen)]) := by
  intro i seen' hi
  rcases Nat.lt_or_ge i returns.length with hlt | hge
  · rw [List.getElem?_append_left hlt] at hi
    rw [List.take_append_of_le_length hlt.le]
    exact h i seen' hi
  · rw [List.getElem?_append_right hge] at hi
    obtain ⟨hi, he⟩ : i - returns.length = 0 ∧ (r, seen) = (none, seen') := by
      simpa [List.getElem?_cons] using hi
    obtain ⟨rfl, rfl⟩ := Prod.mk.inj he
    rw [show i = returns.length by omega, List.take_left' rfl]
    exact hr rfl

variable [Inhabited α]

/-- The producer against the chain: `cached_tail_` is the last linked node, and the node being
enqueued is the one after it. -/
def ProducerInv (s : SpscSystem α) : SpscProducerPc → Prop
  | .idle => s.linked.length = s.enqueued.length ∧ s.queue.cachedTail = s.linked.length
  | .loadTail node =>
    node = s.enqueued.length ∧ s.linked.length + 1 = s.enqueued.length ∧
      s.queue.cachedTail = s.linked.length
  | .link node tail =>
    node = s.enqueued.length ∧ s.linked.length + 1 = s.enqueued.length ∧
      tail = s.linked.length ∧ s.queue.cachedTail = s.linked.length
  | .storeCachedTail node =>
    node = s.linked.length ∧ s.linked.length = s.enqueued.length ∧
      s.queue.cachedTail + 1 = s.linked.length
  | .storeTail _ => s.linked.length = s.enqueued.length ∧ s.queue.cachedTail = s.linked.length

/-- The consumer against the chain: between calls `head_` and `cached_head_` stand at the node of
the last value returned, node `returned.length`. The branch that finds `head_` moved past
`cached_head_` is never taken, since only the consumer moves either. -/
def ConsumerInv (s : SpscSystem α) : SpscConsumerPc α → Prop
  | .idle => s.queue.head = s.returned.length ∧ s.queue.cachedHead = s.returned.length
  | .loadNext seen head =>
    head = s.returned.length ∧ s.queue.head = s.returned.length ∧
      s.queue.cachedHead = s.returned.length ∧ seen ≤ s.linked.length
  | .loadHead seen _ =>
    s.queue.head = s.returned.length ∧ s.queue.cachedHead = s.returned.length ∧
      seen ≤ s.returned.length
  | .compareCachedHead seen head =>
    head = s.returned.length ∧ s.queue.head = s.returned.length ∧
      s.queue.cachedHead = s.returned.length ∧ seen ≤ s.returned.length
  | .storeCachedHead .. | .reloadNext .. => False
  | .readData _ _ next =>
    next = s.returned.length + 1 ∧ s.returned.length < s.linked.length ∧
      s.queue.head = s.returned.length ∧ s.queue.cachedHead = s.returned.length
  | .storeHead _ _ next data =>
    next = s.returned.length + 1 ∧ s.linked[s.returned.length]? = some data ∧
      s.queue.head = s.returned.length ∧ s.queue.cachedHead = s.returned.length
  | .storeCachedHeadNext _ _ next data =>
    next = s.returned.length + 1 ∧ s.linked[s.returned.length]? = some data ∧
      s.queue.head = s.returned.length + 1 ∧ s.queue.cachedHead = s.returned.length
  | .delete _ _ data =>
    s.linked[s.returned.length]? = some data ∧ s.queue.head = s.returned.length + 1 ∧
      s.queue.cachedHead = s.returned.length + 1

/-- The shape of every reachable state: the dummy and one node per enqueued value, node `i + 1`
holding the `i`-th value, the first `linked.length` links set in order; the consumer has
returned a prefix of the linked values. -/
structure Inv (s : SpscSystem α) : Prop where
  nodes_length : s.queue.nodes.length = s.enqueued.length + 1
  linked_prefix : s.linked <+: s.enqueued
  next_eq : ∀ i, (s.queue.node i).next = if i < s.linked.length then some (i + 1) else none
  data_eq : ∀ i v, s.enqueued[i]? = some v → (s.queue.node (i + 1)).data = v
  returned_prefix : s.returned <+: s.linked
  nulloptSeen : NulloptSeen s.returns
  producer : ProducerInv s s.producer
  consumer : ConsumerInv s s.consumer

theorem inv_create : (create : SpscSystem α).Inv where
  nodes_length := rfl
  linked_prefix := List.prefix_rfl
  next_eq i := by cases i <;> rfl
  data_eq _ _ h := by simp [create] at h
  returned_prefix := List.prefix_rfl
  nulloptSeen _ _ h := by simp [create] at h
  producer := ⟨rfl, rfl⟩
  consumer := ⟨rfl, rfl⟩

section Steps

variable {s s' : SpscSystem α}

/-- The value of node `i + 1`, for `i` below the number of links set. -/
theorem Inv.linked_getElem? (hi : s.Inv) {i : Nat} (hlt : i < s.linked.length) :
    s.linked[i]? = some (s.queue.node (i + 1)).data := by
  have h := (hi.linked_prefix.getElem?_of_lt hlt).trans (List.getElem?_eq_getElem hlt)
  rw [List.getElem?_eq_getElem hlt, hi.data_eq i _ h]

omit [Inhabited α] in
/-- The producer leaves the consumer's view alone, and only ever extends `linked`. -/
theorem ConsumerInv.of_linked_prefix {pc : SpscConsumerPc α}
    (hh : s'.queue.head = s.queue.head) (hch : s'.queue.cachedHead = s.queue.cachedHead)
    (hr : s'.returns = s.returns) (hl : s.linked <+: s'.linked) (h : ConsumerInv s pc) :
    ConsumerInv s' pc := by
  have hD : s'.returned = s.returned := by simp only [returned, hr]
  have hL := hl.length_le
  have hget : ∀ {d : α}, s.linked[s.returned.length]? = some d →
      s'.linked[s.returned.length]? = some d := fun hd =>
    (hl.getElem?_of_lt (List.getElem?_eq_some_iff.mp hd).1).trans hd
  cases pc <;> simp only [ConsumerInv, hD, hh, hch] at h ⊢
  case loadNext => exact ⟨h.1, h.2.1, h.2.2.1, h.2.2.2.trans hL⟩
  case readData => exact ⟨h.1, h.2.1.trans_le hL, h.2.2⟩
  case storeHead => exact ⟨h.1, hget h.2.1, h.2.2⟩
  case storeCachedHeadNext => exact ⟨h.1, hget h.2.1, h.2.2⟩
  case delete => exact ⟨hget h.1, h.2⟩
  all_goals exact h

/-- `new Node(value)` appends an unlinked node holding `value`. -/
theorem Inv.startEnqueue (hi : s.Inv) (hp : s.producer = .idle) (v : α) :
    Inv { s with queue := (s.queue.alloc v).2, producer := .loadTail (s.queue.alloc v).1,
                 enqueued := s.enqueued ++ [v] } := by
  obtain ⟨hL, hct⟩ : s.linked.length = s.enqueued.length ∧
      s.queue.cachedTail = s.linked.length := by
    simpa only [hp, ProducerInv] using hi.producer
  have hn := hi.nodes_length
  refine ⟨by simp [hn], hi.linked_prefix.trans (List.prefix_append _ _),
    fun i => (next_node_alloc _ _ i).trans (hi.next_eq i), fun i w hw => ?_,
    hi.returned_prefix, hi.nulloptSeen, ⟨by simp [hn], by simp [hL], hct⟩, hi.consumer⟩
  dsimp only at hw ⊢
  rw [data_node_alloc]
  rcases Nat.lt_or_ge i s.enqueued.length with hlt | hge
  · rw [List.getElem?_append_left hlt] at hw
    rw [if_neg (by omega), hi.data_eq i w hw]
  · obtain ⟨hi0, rfl⟩ : i - s.enqueued.length = 0 ∧ v = w := by
      simpa [List.getElem?_append_right hge, List.getElem?_cons] using hw
    rw [if_pos (by omega)]

/-- The steps of `enqueue` after the allocation. The link store sets the next link of the chain,
to the node holding the next value enqueued. -/
theorem Inv.stepProducer (hi : s.Inv) (h : s.producerStep s.producer = some s') : s'.Inv := by
  obtain ⟨hn, hlp, hnext, hdata, hret, hnull, hprod, hcons⟩ := hi
  cases hp : s.producer with
  | idle => rw [hp] at h; cases h
  | loadTail node =>
    rw [hp] at hprod h; cases h
    exact ⟨hn, hlp, hnext, hdata, hret, hnull, ⟨hprod.1, hprod.2.1, hprod.2.2, hprod.2.2⟩, hcons⟩
  | link node tail =>
    rw [hp] at hprod h; cases h
    obtain ⟨rfl, hE, rfl, hct⟩ := hprod
    have hlt : s.linked.length < s.enqueued.length := by omega
    have hv : s.enqueued[s.linked.length]? = some (s.queue.node s.enqueued.length).data := by
      rw [← hE, List.getElem?_eq_getElem hlt, hdata _ _ (List.getElem?_eq_getElem hlt)]
    refine ⟨by simp [hn], hlp.concat_getElem? hv, fun i => ?_, fun i w hw => ?_,
      hret.trans (List.prefix_append _ _), hnull, ⟨by simp [hE], by simp [hE], by simp [hct]⟩,
      ConsumerInv.of_linked_prefix (s := s) rfl rfl rfl (List.prefix_append _ _) hcons⟩
    · simp only [next_node_storeNext _ (by omega : s.linked.length < s.queue.nodes.length), hnext,
        List.length_append, List.length_singleton]
      split_ifs <;> first | rfl | omega | (congr 1; omega)
    · simpa using hdata i w hw
  | storeCachedTail node =>
    rw [hp] at hprod h; cases h
    exact ⟨hn, hlp, hnext, hdata, hret, hnull, ⟨hprod.2.1, by simp [hprod.1]⟩, hcons⟩
  | storeTail node =>
    rw [hp] at hprod h; cases h
    exact ⟨hn, hlp, hnext, hdata, hret, hnull, hprod, hcons⟩

omit [Inhabited α] in
/-- What a finished `dequeue` adds to the values returned. -/
theorem returned_finish (s : SpscSystem α) (r : Option α) (seen : Nat) (pc : SpscConsumerPc α) :
    ({ s with consumer := pc, returns := s.returns ++ [(r, seen)] } : SpscSystem α).returned =
      s.returned ++ r.toList := by
  cases r <;> simp [returned]

/-- A step of `dequeue` that returns nothing yet: it moves `head_` and `cached_head_` at most,
and the chain and the producer are as they were. -/
theorem Inv.of_consumer (hi : s.Inv) {head cachedHead : Nat} {pc : SpscConsumerPc α}
    (hc : ConsumerInv { s with queue := { s.queue with head, cachedHead }, consumer := pc } pc) :
    Inv { s with queue := { s.queue with head, cachedHead }, consumer := pc } :=
  ⟨hi.nodes_length, hi.linked_prefix, hi.next_eq, hi.data_eq, hi.returned_prefix, hi.nulloptSeen,
    hi.producer, hc⟩

/-- The end of a `dequeue` that returns `r`: the result joins `returns`, and `head_` and
`cached_head_` stand at the node of the last value returned. -/
theorem Inv.finish (hi : s.Inv) {r : Option α} {seen : Nat}
    (hr : s.returned ++ r.toList <+: s.linked) (hnull : r = none → seen ≤ s.returned.length)
    (hh : s.queue.head = (s.returned ++ r.toList).length)
    (hch : s.queue.cachedHead = (s.returned ++ r.toList).length) :
    Inv { s with consumer := .idle, returns := s.returns ++ [(r, seen)] } :=
  have e := returned_finish s r seen .idle
  ⟨hi.nodes_length, hi.linked_prefix, hi.next_eq, hi.data_eq, e ▸ hr,
    hi.nulloptSeen.append hnull, hi.producer, ⟨e ▸ hh, e ▸ hch⟩⟩

/-- The steps of `dequeue` keep the invariant: the link at `cached_head_` is set exactly when a
value is linked and not returned, and the branch through `head_` finds it equal to `cached_head_`.
-/
theorem Inv.stepConsumer (hi : s.Inv) (h : s.consumerStep s.consumer = some s') : s'.Inv := by
  have hcons := hi.consumer
  have hDL := hi.returned_prefix.length_le
  cases hc : s.consumer with
  | idle => rw [hc] at h; cases h
  | loadNext seen head =>
    rw [hc] at hcons h
    obtain ⟨rfl, hh, hch, hseen⟩ := hcons
    simp only [consumerStep, dequeueStep, hi.next_eq] at h
    split_ifs at h with hlt <;> cases h
    · exact hi.of_consumer ⟨rfl, hlt, hh, hch⟩
    · exact hi.of_consumer ⟨hh, hch, (by omega : seen ≤ s.returned.length)⟩
  | loadHead seen _ =>
    rw [hc] at hcons h; cases h
    exact hi.of_consumer ⟨hcons.1, hcons⟩
  | compareCachedHead seen head =>
    rw [hc] at hcons h
    obtain ⟨rfl, hh, hch, hseen⟩ := hcons
    simp only [consumerStep, dequeueStep, hch, if_true] at h
    cases h
    exact hi.finish (by simpa using hi.returned_prefix) (fun _ => hseen) (by simpa using hh)
      (by simpa using hch)
  | storeCachedHead | reloadNext => rw [hc] at hcons; cases hcons
  | readData seen head next =>
    rw [hc] at hcons h; cases h
    obtain ⟨rfl, hlt, hh, hch⟩ := hcons
    exact hi.of_consumer ⟨rfl, hi.linked_getElem? hlt, hh, hch⟩
  | storeHead seen head next data =>
    rw [hc] at hcons h; cases h
    obtain ⟨rfl, hd, -, hch⟩ := hcons
    exact hi.of_consumer ⟨rfl, hd, rfl, hch⟩
  | storeCachedHeadNext seen head next data =>
    rw [hc] at hcons h; cases h
    obtain ⟨rfl, hd, hh, -⟩ := hcons
    exact hi.of_consumer ⟨hd, hh, rfl⟩
  | delete seen _ data =>
    rw [hc] at hcons h; cases h
    obtain ⟨hd, hh, hch⟩ := hcons
    exact hi.finish (hi.returned_prefix.concat_getElem? hd) (fun h => nomatch h)
      (by simpa using hh) (by simpa using hch)

/-- Every scheduled action keeps the invariant. -/
theorem Inv.next (hi : s.Inv) {a : SpscAction α} (h : s.next a = some s') : s'.Inv := by
  cases a with
  | startEnqueue v =>
    cases hp : s.producer <;> simp only [SpscSystem.next, hp, reduceCtorEq] at h
    cases h
    exact hi.startEnqueue hp v
  | startDequeue =>
    have hcons := hi.consumer
    cases hc : s.consumer <;> simp only [SpscSystem.next, hc, reduceCtorEq] at h
    cases h
    rw [hc] at hcons
    exact hi.of_consumer ⟨hcons.2, hcons.1, hcons.2, le_rfl⟩
  | stepProducer => exact hi.stepProducer h
  | stepConsumer => exact hi.stepConsumer h

/-- `head_` stands at the node of the last value returned, or of the value the call in
progress has taken past it. -/
theorem Inv.taken (hi : s.Inv) :
    s.returned ++ s.consumer.taken.toList <+: s.linked ∧
      s.queue.head = (s.returned ++ s.consumer.taken.toList).length := by
  have hc := hi.consumer
  have hret := hi.returned_prefix
  cases h : s.consumer <;> rw [h] at hc <;> simp only [ConsumerInv] at hc <;>
    simp only [SpscConsumerPc.taken, Option.toList_some, Option.toList_none, List.append_nil]
  case storeCachedHeadNext => exact ⟨hret.concat_getElem? hc.2.1, by simp [hc.2.2.1]⟩
  case delete => exact ⟨hret.concat_getElem? hc.1, by simp [hc.2.1]⟩
  all_goals simp [hc, hret]

/-- A `dequeue` returns `nullopt` only once it has returned every value linked before it began. -/
theorem Inv.seen_le_of_nullopt (hi : s.Inv) {q : SPSCQueue α} {pc : SpscConsumerPc α} {seen : Nat}
    (h : s.queue.dequeueStep s.consumer = some (q, pc, some (none, seen))) :
    seen ≤ s.returned.length := by
  have hc := hi.consumer
  cases hcs : s.consumer <;> rw [hcs] at hc h <;> simp only [ConsumerInv] at hc <;>
    simp only [dequeueStep] at h <;> repeat' (first | split at h | split_ifs at h)
  all_goals cases h
  exact hc.2.2.2

/-- Between `enqueue` calls every value enqueued is linked. -/
theorem Inv.linked_eq_enqueued (hi : s.Inv) (hp : s.producer = .idle) : s.linked = s.enqueued := by
  have hprod := hi.producer
  rw [hp] at hprod
  exact hi.linked_prefix.eq_of_length hprod.1

end Steps

theorem Reachable.inv {s : SpscSystem α} (hR : s.Reachable) : s.Inv := by
  induction hR with
  | create => exact inv_create
  | next _ _ h ih => exact ih.next h

theorem Reachable.runActions {s s' : SpscSystem α} (hR : s.Reachable) {as : List (SpscAction α)}
    (h : s.runActions as = some s') : s'.Reachable := by
  induction as generalizing s with
  | nil => cases h; exact hR
  | cons a as ih =>
    obtain ⟨s₁, h₁, h⟩ := Option.bind_eq_some.mp h
    exact ih (hR.next a h₁) h

/-- One step of the consumer's `dequeue` from a reachable state. -/
theorem Reachable.dequeueStep {s : SpscSystem α} (hR : s.Reachable) {q : SPSCQueue α}
    {pc : SpscConsumerPc α} {r : Option (Option α × Nat)}
    (hq : s.queue.dequeueStep s.consumer = some (q, pc, r)) :
    Reachable { s with queue := q, consumer := pc, returns := s.returns ++ r.toList } := by
  cases r with
  | none =>
    have h : s.next .stepConsumer = some { s with queue := q, consumer := pc } := by
      simp only [SpscSystem.next, consumerStep, hq]
    simpa using hR.next _ h
  | some r =>
    have h : s.next .stepConsumer =
        some { s with queue := q, consumer := pc, returns := s.returns ++ [r] } := by
      simp only [SpscSystem.next, consumerStep, hq]
    exact hR.next _ h

end Micromatch.Utils.SpscSystem

namespace Micromatch.Proofs
open Micromatch.Utils SpscSystem

/-- With one producer and one consumer in any interleaving, the values returned are the values
enqueued, in order, and a `nullopt` comes only once every value linked before its call began was
returned. Between calls `empty()` and `size_approx()` are exact. -/
theorem spsc_dequeue_fifo {α : Type} [Inhabited α] {s : SpscSystem α} (hR : s.Reachable) :
    s.returned <+: s.enqueued ∧ (s.enqueued.Nodup → s.returned.Nodup) ∧
      (∀ i seen, s.returns[i]? = some (none, seen) →
        s.linked.take seen <+: (s.returns.take i).filterMap Prod.fst) ∧
      (s.Quiescent →
        (s.queue.empty = true ↔ s.returned = s.enqueued) ∧
        ∀ fuel, s.enqueued.length - s.returned.length < fuel →
          s.queue.sizeApprox fuel = some (s.enqueued.length - s.returned.length)) := by
  have hi := hR.inv
  have hpre := hi.returned_prefix.trans hi.linked_prefix
  refine ⟨hpre, fun hn => hpre.sublist.nodup hn, fun i seen h => ?_, fun ⟨hp, hc⟩ => ?_⟩
  · have hbefore : (s.returns.take i).filterMap Prod.fst <+: s.linked :=
      ((List.take_prefix i _).filterMap _).trans hi.returned_prefix
    exact hbefore.take_prefix_of_le (hi.nulloptSeen i seen h)
  · have hprod := hi.producer
    have hcons := hi.consumer
    rw [hp] at hprod
    rw [hc] at hcons
    obtain ⟨hL, -⟩ := hprod
    obtain ⟨hh, -⟩ := hcons
    have hDL := hi.returned_prefix.length_le
    have heq : s.returned = s.enqueued ↔ s.returned.length = s.enqueued.length :=
      ⟨congrArg _, hpre.eq_of_length⟩
    refine ⟨?_, fun fuel hf => ?_⟩
    · rw [heq, SPSCQueue.empty, hh, hi.next_eq]
      split_ifs <;> simp <;> omega
    · rw [SPSCQueue.sizeApprox, hh, ← hL]
      exact s.queue.sizeApproxFrom_chain hi.next_eq fuel _ hDL (by omega)

/-- One `enqueue(7)` run to its end, then a `dequeue` that returns 7 and one that returns
`nullopt` with the one link it saw already returned. -/
theorem spsc_value_then_nullopt :
    ∃ s : SpscSystem Nat, s.Reachable ∧ s.enqueued = [7] ∧ s.returns = [(some 7, 1), (none, 1)] ∧
      (s.returned <+: s.enqueued ∧ (s.enqueued.Nodup → s.returned.Nodup) ∧
        (∀ i seen, s.returns[i]? = some (none, seen) →
          s.linked.take seen <+: (s.returns.take i).filterMap Prod.fst) ∧
        (s.Quiescent →
          (s.queue.empty = true ↔ s.returned = s.enqueued) ∧
          ∀ fuel, s.enqueued.length - s.returned.length < fuel →
            s.queue.sizeApprox fuel = some (s.enqueued.length - s.returned.length))) :=
  have h : ((SpscSystem.create : SpscSystem Nat).runActions
      [.startEnqueue 7, .stepProducer, .stepProducer, .stepProducer, .stepProducer,
       .startDequeue, .stepConsumer, .stepConsumer, .stepConsumer, .stepConsumer, .stepConsumer,
       .startDequeue, .stepConsumer, .stepConsumer, .stepConsumer]).isSome := rfl
  have hR := SpscSystem.Reachable.create.runActions (Option.some_get h).symm
  ⟨_, hR, rfl, rfl, spsc_dequeue_fifo hR⟩

end Micromatch.Proofs

import Micromatch.Network.Arbitrage

namespace UInt64

theorem le_iff_toNat_le {a b : UInt64} : a ≤ b ↔ a.toNat ≤ b.toNat := Iff.rfl

theorem toNat_max (a b : UInt64) : (max a b).toNat = max a.toNat b.toNat := by
  show (if a ≤ b then b else a).toNat = _
  by_cases h : a ≤ b
  · simp only [h, if_true]; have := le_iff_toNat_le.mp h; omega
  · simp only [h, if_false]; have := mt le_iff_toNat_le.mpr h; omega

/-- A `uint64_t` sum is the exact sum modulo `2^64`. -/
theorem toNat_sum (l : List UInt64) : l.sum.toNat = (l.map toNat).sum % UInt64.size := by
  induction l with
  | nil => rfl
  | cons a l ih =>
    rw [List.sum_cons, toNat_add_mod, ih, List.map_cons, List.sum_cons, Nat.add_mod_mod]

end UInt64

namespace Micromatch.Core

variable {α β : Type} [DecidableEq α]

theorem lookup_assign_self (m : List (α × β)) (k : α) (v : β) : lookup (assign m k v) k = some v := by
  unfold assign
  split_ifs with hk
  · induction m with
    | nil => simp at hk
    | cons e m ih =>
      obtain ⟨k', v'⟩ := e
      by_cases h : k' = k
      · simp [h]
      · simp only [keys_cons, List.mem_cons, Ne.symm h, false_or] at hk
        simp [h, ih hk]
  · induction m with
    | nil => simp
    | cons e m ih =>
      obtain ⟨k', v'⟩ := e
      have h : k' ≠ k := fun h => hk (by simp [h])
      simp only [keys_cons, List.mem_cons, Ne.symm h, false_or] at hk
      simp [h, ih hk]

end Micromatch.Core

namespace Micromatch.Proofs
open Micromatch.Core Micromatch.Network ArbitrageDetector

/-- Appending to the last 1000 of a history and erasing the oldest beyond the cap keeps the
last 1000 of the longer history. -/
theorem pushRecent_drop (l : List ArbitrageOpportunity) (opp : ArbitrageOpportunity) :
    pushRecent (l.drop (l.length - 1000)) opp = (l ++ [opp]).drop ((l ++ [opp]).length - 1000) := by
  unfold pushRecent
  simp only [List.length_drop, List.length_append, List.length_singleton]
  split
  · have hne : l.drop (l.length - 1000) ≠ [] := by
      rw [Ne, List.drop_eq_nil_iff]
      omega
    rw [List.tail_append_of_ne_nil hne, List.tail_drop,
      show l.length + 1 - 1000 = l.length - 1000 + 1 by omega,
      List.drop_append_of_le_length (by omega)]
  · simp [Nat.sub_eq_zero_of_le (by omega : l.length + 1 ≤ 1000),
      Nat.sub_eq_zero_of_le (by omega : l.length ≤ 1000)]

theorem foldl_pushRecent (l H : List ArbitrageOpportunity) :
    H.foldl pushRecent (l.drop (l.length - 1000)) = (l ++ H).drop ((l ++ H).length - 1000) := by
  induction H generalizing l with
  | nil => simp
  | cons opp H ih =>
    rw [List.foldl_cons, pushRecent_drop, ih, List.append_assoc, List.singleton_append]

/-- `get_recent_opportunities(count)` is the last `count` of the buffer. -/
theorem getRecentOpportunities_eq (D : ArbitrageDetector) (count : Nat) :
    D.getRecentOpportunities count =
      D.recentOpportunities.drop (D.recentOpportunities.length - count) := by
  unfold getRecentOpportunities
  split_ifs with h
  · rfl
  · rw [Nat.sub_eq_zero_of_le (Nat.le_of_not_gt h)]

/-- The running maximum from `m`: above `m` and every element, and `m` or one of them. -/
theorem foldl_max_spec (l : List UInt64) (m : UInt64) :
    m ≤ l.foldl max m ∧ (∀ x ∈ l, x ≤ l.foldl max m) ∧ (l.foldl max m = m ∨ l.foldl max m ∈ l) := by
  induction l generalizing m with
  | nil => simp [UInt64.le_iff_toNat_le]
  | cons x l ih =>
    obtain ⟨h1, h2, h3⟩ := ih (max m x)
    have hm := UInt64.toNat_max m x
    have h1' := UInt64.le_iff_toNat_le.mp h1
    rw [List.foldl_cons]
    refine ⟨UInt64.le_iff_toNat_le.mpr (by omega), fun y hy => ?_, ?_⟩
    · rcases List.mem_cons.mp hy with rfl | hy
      · exact UInt64.le_iff_toNat_le.mpr (by omega)
      · exact h2 y hy
    · rcases h3 with h3 | h3
      · by_cases hmx : m.toNat ≤ x.toNat
        · exact .inr (List.mem_cons.mpr (.inl (by rw [h3, UInt64.eq_iff_toNat_eq, hm]; omega)))
        · exact .inl (by rw [h3, UInt64.eq_iff_toNat_eq, hm]; omega)
      · exact .inr (List.mem_cons_of_mem _ h3)

/-- The fields of `D` that keep the history, after recording `H` on top of those of `D₀`. -/
structure Records (D₀ D : ArbitrageDetector) (H : List ArbitrageOpportunity) : Prop where
  recent : D.recentOpportunities = H.foldl pushRecent D₀.recentOpportunities
  detected : D.stats.opportunitiesDetected = D₀.stats.opportunitiesDetected + UInt64.ofNat H.length
  maxLatency : D.stats.maxLatencyDiffNs =
    (H.map (·.latencyDifferenceNs)).foldl max D₀.stats.maxLatencyDiffNs
  totalLatency : D.stats.totalLatencyDiffNs =
    D₀.stats.totalLatencyDiffNs + (H.map (·.latencyDifferenceNs)).sum
  callback : D.callback = D₀.callback
  callbackCalls : D.callbackCalls = D₀.callbackCalls ++ if D₀.callback then H else []

theorem Records.refl (D : ArbitrageDetector) : Records D D [] where
  recent := rfl
  detected := by rw [List.length_nil, UInt64.ofNat_zero, add_zero]
  maxLatency := rfl
  totalLatency := by rw [List.map_nil, List.sum_nil, add_zero]
  callback := rfl
  callbackCalls := by rw [ite_self, List.append_nil]

theorem Records.trans {D₀ D₁ D₂ : ArbitrageDetector} {H₁ H₂ : List ArbitrageOpportunity}
    (h₁ : Records D₀ D₁ H₁) (h₂ : Records D₁ D₂ H₂) : Records D₀ D₂ (H₁ ++ H₂) where
  recent := by rw [h₂.recent, h₁.recent, List.foldl_append]
  detected := by rw [h₂.detected, h₁.detected, List.length_append, UInt64.ofNat_add, add_assoc]
  maxLatency := by rw [h₂.maxLatency, h₁.maxLatency, List.map_append, List.foldl_append]
  totalLatency := by rw [h₂.totalLatency, h₁.totalLatency, List.map_append, List.sum_append, add_assoc]
  callback := h₂.callback.trans h₁.callback
  callbackCalls := by
    rw [h₂.callbackCalls, h₁.callbackCalls, h₁.callback]
    split_ifs <;> simp

/-- Records on top of a state whose history fields are those of `D₀` are records on top of
`D₀`. -/
theorem Records.congr_left {D₀ D₁ D : ArbitrageDetector} {H : List ArbitrageOpportunity}
    (h : Records D₁ D H) (hr : D₁.recentOpportunities = D₀.recentOpportunities)
    (hd : D₁.stats.opportunitiesDetected = D₀.stats.opportunitiesDetected)
    (hm : D₁.stats.maxLatencyDiffNs = D₀.stats.maxLatencyDiffNs)
    (ht : D₁.stats.totalLatencyDiffNs = D₀.stats.totalLatencyDiffNs)
    (hc : D₁.callback = D₀.callback) (hcc : D₁.callbackCalls = D₀.callbackCalls) :
    Records D₀ D H where
  recent := by rw [h.recent, hr]
  detected := by rw [h.detected, hd]
  maxLatency := by rw [h.maxLatency, hm]
  totalLatency := by rw [h.totalLatency, ht]
  callback := by rw [h.callback, hc]
  callbackCalls := by rw [h.callbackCalls, hc, hcc]

theorem record_records (D : ArbitrageDetector) (opp : ArbitrageOpportunity) :
    Records D (D.record opp) [opp] where
  recent := rfl
  detected := rfl
  maxLatency := rfl
  totalLatency := by simp [record, ArbitrageStats.recordOpportunity]
  callback := rfl
  callbackCalls := by cases h : D.callback <;> simp [record, h]

theorem checkArbitrage_records (D : ArbitrageDetector) (symbolId : UInt64) (state : SymbolState)
    (now : UInt64) :
    Records D (D.checkArbitrage symbolId state now).2 (D.checkArbitrage symbolId state now).1.toList := by
  unfold checkArbitrage
  cases opportunity symbolId state now with
  | none => exact Records.refl D
  | some opp => exact record_records D opp

/-- A quote update stores the quote, then checks; a trade update touches only the trade
timestamps and `missed_opportunities`. -/
theorem onFeedUpdate_records (D : ArbitrageDetector) (feedId : Char) (update : MarketDataUpdate)
    (now : UInt64) :
    Records D (D.onFeedUpdate feedId update now).2 (D.onFeedUpdate feedId update now).1.toList := by
  cases update with
  | quote quote =>
    simp only [onFeedUpdate, processQuote]
    split_ifs
    · refine (checkArbitrage_records _ _ _ _).congr_left ?_ ?_ ?_ ?_ ?_ ?_ <;> rfl
    · refine (Records.refl _).congr_left ?_ ?_ ?_ ?_ ?_ ?_ <;> rfl
  | trade trade =>
    simp only [onFeedUpdate, processTrade]
    split
    · split_ifs <;> refine (Records.refl _).congr_left ?_ ?_ ?_ ?_ ?_ ?_ <;> rfl
    · refine (Records.refl _).congr_left ?_ ?_ ?_ ?_ ?_ ?_ <;> rfl

theorem runUpdates_records (D : ArbitrageDetector) (calls : List (Char × MarketDataUpdate × UInt64)) :
    Records D (D.runUpdates calls).2 (D.runUpdates calls).1 := by
  induction calls generalizing D with
  | nil => exact Records.refl D
  | cons call calls ih =>
    obtain ⟨feedId, update, now⟩ := call
    exact (onFeedUpdate_records D feedId update now).trans (ih _)

theorem runUpdates_cons (D : ArbitrageDetector) (feedId : Char) (update : MarketDataUpdate)
    (now : UInt64) (calls : List (Char × MarketDataUpdate × UInt64)) :
    D.runUpdates ((feedId, update, now) :: calls) =
      ((D.onFeedUpdate feedId update now).1.toList ++
          ((D.onFeedUpdate feedId update now).2.runUpdates calls).1,
        ((D.onFeedUpdate feedId update now).2.runUpdates calls).2) := rfl

theorem runUpdates_append (D : ArbitrageDetector) (l₁ l₂ : List (Char × MarketDataUpdate × UInt64)) :
    D.runUpdates (l₁ ++ l₂) =
      ((D.runUpdates l₁).1 ++ ((D.runUpdates l₁).2.runUpdates l₂).1,
        ((D.runUpdates l₁).2.runUpdates l₂).2) := by
  induction l₁ generalizing D with
  | nil => rfl
  | cons call l₁ ih =>
    obtain ⟨feedId, update, now⟩ := call
    rw [List.cons_append, runUpdates_cons, runUpdates_cons, ih, List.append_assoc]

/-- Along any run of `on_feed_update` calls on a new detector, with `H` the opportunities recorded:
the buffer holds the last `min |H| 1000` of them, `get_recent_opportunities(n)` returns the last
`min n |H| 1000`, and the callback, if set, got all of `H`. The statistics are the count, the
largest and the sum of the latency differences of `H`, modulo `2^64`. -/
theorem detector_history (callback : Bool) (calls : List (Char × MarketDataUpdate × UInt64)) :
    let r := ({ ArbitrageDetector.create with callback := callback }).runUpdates calls
    r.2.recentOpportunities = r.1.drop (r.1.length - 1000) ∧
      (∀ n, r.2.getRecentOpportunities n = r.1.drop (r.1.length - min n (min r.1.length 1000))) ∧
      r.2.callbackCalls = (if callback then r.1 else []) ∧
      r.2.stats.opportunitiesDetected.toNat = r.1.length % 2 ^ 64 ∧
      (∀ opp ∈ r.1, opp.latencyDifferenceNs ≤ r.2.stats.maxLatencyDiffNs) ∧
      (r.2.stats.maxLatencyDiffNs = 0 ∨
        ∃ opp ∈ r.1, opp.latencyDifferenceNs = r.2.stats.maxLatencyDiffNs) ∧
      r.2.stats.totalLatencyDiffNs.toNat =
        (r.1.map fun opp => opp.latencyDifferenceNs.toNat).sum % 2 ^ 64 := by
  have h := runUpdates_records { ArbitrageDetector.create with callback := callback } calls
  dsimp only
  generalize ({ ArbitrageDetector.create with callback := callback }).runUpdates calls = r at h ⊢
  obtain ⟨H, D⟩ := r
  dsimp only at h ⊢
  obtain ⟨-, hmax, hattained⟩ := foldl_max_spec (H.map (·.latencyDifferenceNs)) 0
  have hrec : D.recentOpportunities = H.drop (H.length - 1000) := by
    simpa using (h.recent.trans (foldl_pushRecent [] H))
  refine ⟨hrec, fun n => ?_, by simpa [create] using h.callbackCalls, ?_, fun opp hopp => ?_, ?_, ?_⟩
  · rw [getRecentOpportunities_eq, hrec, List.drop_drop, List.length_drop]
    congr 1
    omega
  · rw [h.detected]
    simp [create, UInt64.toNat_ofNat_mod]
  · rw [h.maxLatency]
    exact hmax _ (List.mem_map_of_mem _ hopp)
  · rw [h.maxLatency]
    rcases hattained with h0 | hmem
    · exact .inl h0
    · obtain ⟨opp, hopp, he⟩ := List.mem_map.mp hmem
      exact .inr ⟨opp, hopp, he⟩
  · rw [h.totalLatency]
    simp [create, UInt64.toNat_sum, List.map_map, Function.comp_def]

/-- A quote that leaves the state of its symbol as it was, with both feeds in and an
opportunity found, records that opportunity again. -/
theorem onFeedUpdate_quote_again {D : ArbitrageDetector} {feedId : Char} {quote : Quote}
    {state : SymbolState} {now : UInt64} {opp : ArbitrageOpportunity}
    (hl : lookup D.symbolStates quote.symbolId = some state)
    (hu : state.updateQuote feedId quote = state) (hb : state.hasBothFeeds = true)
    (ho : opportunity quote.symbolId state now = some opp) :
    (D.onFeedUpdate feedId (.quote quote) now).1 = some opp ∧
      lookup (D.onFeedUpdate feedId (.quote quote) now).2.symbolStates quote.symbolId = some state := by
  simp only [onFeedUpdate, processQuote, hl, Option.getD_some, hu, hb, if_true, checkArbitrage, ho]
  exact ⟨trivial, lookup_assign_self _ _ _⟩

theorem runUpdates_replicate {D : ArbitrageDetector} {feedId : Char} {quote : Quote}
    {state : SymbolState} {now : UInt64} {opp : ArbitrageOpportunity}
    (hl : lookup D.symbolStates quote.symbolId = some state)
    (hu : state.updateQuote feedId quote = state) (hb : state.hasBothFeeds = true)
    (ho : opportunity quote.symbolId state now = some opp) (n : Nat) :
    (D.runUpdates (List.replicate n (feedId, .quote quote, now))).1 = List.replicate n opp := by
  induction n generalizing D with
  | zero => rfl
  | succ n ih =>
    obtain ⟨h1, h2⟩ := onFeedUpdate_quote_again hl hu hb ho
    rw [List.replicate_succ, runUpdates_cons, h1, ih h2]
    rfl

/-- Feed B quotes a bid of 2 for symbol 1, then feed A a bid of 1 for it `2^64` times, each
recording an opportunity: `opportunities_detected` is back at 0. -/
theorem opportunities_detected_wraps :
    let qa : Quote := ⟨1, 1, 0, 0, 0, 0, 0, 'A'⟩
    let qb : Quote := ⟨1, 2, 0, 0, 0, 0, 0, 'B'⟩
    let calls := ('B', MarketDataUpdate.quote qb, (0 : UInt64)) ::
      List.replicate (2 ^ 64) ('A', .quote qa, 0)
    (ArbitrageDetector.create.runUpdates calls).1.length = 2 ^ 64 ∧
      (ArbitrageDetector.create.runUpdates calls).2.stats.opportunitiesDetected = 0 := by
  dsimp only
  have hcalls : ('B', MarketDataUpdate.quote ⟨1, 2, 0, 0, 0, 0, 0, 'B'⟩, (0 : UInt64)) ::
      List.replicate (2 ^ 64) ('A', .quote ⟨1, 1, 0, 0, 0, 0, 0, 'A'⟩, 0) =
      [('B', .quote ⟨1, 2, 0, 0, 0, 0, 0, 'B'⟩, 0), ('A', .quote ⟨1, 1, 0, 0, 0, 0, 0, 'A'⟩, 0)] ++
        List.replicate (2 ^ 64 - 1) ('A', .quote ⟨1, 1, 0, 0, 0, 0, 0, 'A'⟩, 0) := by
    simp only [List.cons_append, List.singleton_append, ← List.replicate_succ]
    rfl
  have hrep := @runUpdates_replicate (ArbitrageDetector.create.runUpdates
      [('B', .quote ⟨1, 2, 0, 0, 0, 0, 0, 'B'⟩, 0), ('A', .quote ⟨1, 1, 0, 0, 0, 0, 0, 'A'⟩, 0)]).2
    'A' ⟨1, 1, 0, 0, 0, 0, 0, 'A'⟩ ⟨⟨1, 1, 0, 0, 0, 0, 0, 'A'⟩, ⟨1, 2, 0, 0, 0, 0, 0, 'B'⟩, true, true⟩
    0 ⟨1, 'B', 'A', 1, 0, 0, 1, 0, 2, 0⟩ (by decide) rfl rfl (by decide) (2 ^ 64 - 1)
  rw [hcalls]
  have hlen : (ArbitrageDetector.create.runUpdates
      ([('B', .quote ⟨1, 2, 0, 0, 0, 0, 0, 'B'⟩, 0), ('A', .quote ⟨1, 1, 0, 0, 0, 0, 0, 'A'⟩, 0)] ++
        List.replicate (2 ^ 64 - 1) ('A', .quote ⟨1, 1, 0, 0, 0, 0, 0, 'A'⟩, 0))).1.length = 2 ^ 64 := by
    rw [runUpdates_append, hrep, List.length_append, List.length_replicate]
    have : (ArbitrageDetector.create.runUpdates [('B', .quote ⟨1, 2, 0, 0, 0, 0, 0, 'B'⟩, 0),
        ('A', .quote ⟨1, 1, 0, 0, 0, 0, 0, 'A'⟩, 0)]).1.length = 1 := by decide
    rw [this]
    norm_num
  refine ⟨hlen, ?_⟩
  rw [(runUpdates_records _ _).detected, hlen]
  rfl

theorem int64Wrap_of_lt {x : Int} (h : |x| < 2 ^ 63) : int64Wrap x = x := by
  rw [abs_lt] at h
  rw [int64Wrap, Int.bmod_def]
  push_cast
  split_ifs <;> omega

/-- Where the difference of two prices is representable, `std::abs` of it is exact. -/
theorem int64Abs_int64Sub {a b : Int} (h : |a - b| < 2 ^ 63) : int64Abs (int64Sub a b) = |a - b| := by
  rw [int64Sub, int64Wrap_of_lt h, int64Abs, Int.natCast_natAbs, int64Wrap_of_lt (by rwa [abs_abs])]

/-- `check_arbitrage` where the bid and ask differences of the two feeds are representable: an
opportunity iff the quotes differ in bid or ask or cross, carrying the exact larger
difference, the earlier feed as the fast one (B on a tie) and the distance of the timestamps. -/
theorem opportunity_of_representable (symbolId : UInt64) (state : SymbolState) (now : UInt64)
    (hbid : |state.feedAQuote.bidPrice - state.feedBQuote.bidPrice| < 2 ^ 63)
    (hask : |state.feedAQuote.askPrice - state.feedBQuote.askPrice| < 2 ^ 63) :
    let a := state.feedAQuote
    let b := state.feedBQuote
    opportunity symbolId state now =
      if a.bidPrice ≠ b.bidPrice ∨ a.askPrice ≠ b.askPrice ∨
          (a.askPrice > 0 ∧ b.bidPrice > 0 ∧ b.bidPrice > a.askPrice) ∨
          (b.askPrice > 0 ∧ a.bidPrice > 0 ∧ a.bidPrice > b.askPrice) then
        some ⟨symbolId, if a.timestampNs < b.timestampNs then 'A' else 'B',
          if a.timestampNs < b.timestampNs then 'B' else 'A',
          max |a.bidPrice - b.bidPrice| |a.askPrice - b.askPrice|,
          if a.timestampNs < b.timestampNs then b.timestampNs - a.timestampNs
          else a.timestampNs - b.timestampNs,
          now, a.bidPrice, a.askPrice, b.bidPrice, b.askPrice⟩
      else none := by
  simp only [opportunity, int64Abs_int64Sub hbid, int64Abs_int64Sub hask, gt_iff_lt, abs_pos,
    sub_ne_zero, Bool.or_eq_true, decide_eq_true_eq]
  split_ifs <;> rfl

/-- A quote whose bid and ask differ by one tick from the other feed's, one feed earlier. -/
theorem quotes_one_tick_apart :
    let state : SymbolState :=
      ⟨⟨1, 100, 102, 1, 1, 5, 0, 'A'⟩, ⟨1, 101, 103, 1, 1, 7, 0, 'B'⟩, true, true⟩
    |state.feedAQuote.bidPrice - state.feedBQuote.bidPrice| < 2 ^ 63 ∧
      |state.feedAQuote.askPrice - state.feedBQuote.askPrice| < 2 ^ 63 ∧
      let a := state.feedAQuote
      let b := state.feedBQuote
      opportunity 1 state 9 =
        if a.bidPrice ≠ b.bidPrice ∨ a.askPrice ≠ b.askPrice ∨
            (a.askPrice > 0 ∧ b.bidPrice > 0 ∧ b.bidPrice > a.askPrice) ∨
            (b.askPrice > 0 ∧ a.bidPrice > 0 ∧ a.bidPrice > b.askPrice) then
          some ⟨1, if a.timestampNs < b.timestampNs then 'A' else 'B',
            if a.timestampNs < b.timestampNs then 'B' else 'A',
            max |a.bidPrice - b.bidPrice| |a.askPrice - b.askPrice|,
            if a.timestampNs < b.timestampNs then b.timestampNs - a.timestampNs
            else a.timestampNs - b.timestampNs,
            9, a.bidPrice, a.askPrice, b.bidPrice, b.askPrice⟩
        else none :=
  ⟨by norm_num, by norm_num, opportunity_of_representable 1 _ 9 (by norm_num) (by norm_num)⟩

theorem int64Wrap_lt (x : Int) : int64Wrap x < 2 ^ 63 :=
  (Int.bmod_lt (by norm_num)).trans_eq (by norm_num)

/-- Every opportunity `check_arbitrage` records carries an `int64_t` price difference. -/
theorem opportunity_priceDifference_lt {symbolId : UInt64} {state : SymbolState} {now : UInt64}
    {opp : ArbitrageOpportunity} (h : opportunity symbolId state now = some opp) :
    opp.priceDifference < 2 ^ 63 := by
  simp only [opportunity] at h
  split_ifs at h <;> cases h <;> exact max_lt (int64Wrap_lt _) (int64Wrap_lt _)

theorem onFeedUpdate_priceDifference_lt (D : ArbitrageDetector) (feedId : Char)
    (update : MarketDataUpdate) (now : UInt64) :
    ∀ opp ∈ (D.onFeedUpdate feedId update now).1, opp.priceDifference < 2 ^ 63 := by
  intro opp hopp
  cases update with
  | quote quote =>
    simp only [onFeedUpdate, processQuote, checkArbitrage, Option.mem_def] at hopp
    split_ifs at hopp
    dsimp only at hopp
    exact opportunity_priceDifference_lt hopp
  | trade trade => cases hopp

theorem runUpdates_priceDifference_lt (D : ArbitrageDetector)
    (calls : List (Char × MarketDataUpdate × UInt64)) :
    ∀ opp ∈ (D.runUpdates calls).1, opp.priceDifference < 2 ^ 63 := by
  induction calls generalizing D with
  | nil => exact fun _ h => absurd h (List.not_mem_nil _)
  | cons call calls ih =>
    obtain ⟨feedId, update, now⟩ := call
    intro opp hopp
    rw [runUpdates_cons] at hopp
    rcases List.mem_append.mp hopp with h | h
    · exact onFeedUpdate_priceDifference_lt D feedId update now opp (Option.mem_toList.mp h)
    · exact ih _ opp h

/-- Bids of 0 and `INT64_MIN` differ by `2^63`, which no `int64_t` holds, so no recorded opportunity
carries it, whatever the overflow of `0 - INT64_MIN` gives. Trades at 0 and `UINT64_MAX` ns are 1 ns
apart in `uint64_t`, and no missed opportunity is counted. -/
theorem disparity_lost_to_int64_wrap :
    let quotes : List (Char × MarketDataUpdate × UInt64) :=
      [('A', .quote ⟨1, 0, 100, 1, 1, 10, 0, 'A'⟩, 0),
       ('B', .quote ⟨1, -2 ^ 63, 100, 1, 1, 20, 0, 'B'⟩, 0)]
    let trades : List (Char × MarketDataUpdate × UInt64) :=
      [('A', .trade ⟨1, 100, 1, 0, 0, 'A', true⟩, 0),
       ('B', .trade ⟨1, 100, 1, UInt64.ofNat (2 ^ 64 - 1), 0, 'B', true⟩, 0)]
    (∀ opp ∈ (ArbitrageDetector.create.setCallback.runUpdates quotes).1,
        opp.priceDifference ≠ max |0 - -2 ^ 63| |100 - 100|) ∧
      (ArbitrageDetector.create.runUpdates trades).2.stats.missedOpportunities = 0 :=
  ⟨fun opp hopp => ((runUpdates_priceDifference_lt _ _ opp hopp).trans_eq (by norm_num)).ne,
    by decide⟩

end Micromatch.Proofs

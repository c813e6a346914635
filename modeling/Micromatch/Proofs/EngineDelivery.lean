import Micromatch.Core.EngineThreads
import Micromatch.Proofs.SPSCThreads

namespace Micromatch.Core
open Micromatch.Utils

/-- The producer's point in `enqueue` of a client at `pc`; before `new Node` it is idle. -/
def ClientPc.producer : ClientPc → SpscProducerPc
  | .checkRunning | .newNode => .idle
  | .loadTail node => .loadTail node
  | .link node tail => .link node tail
  | .storeCachedTail node => .storeCachedTail node
  | .storeTail node => .storeTail node

/-- The requests whose node `new Node` has made: the accepted ones, then the call's. -/
def Client.allocated (c : Client) : List OrderRequest :=
  match c.pc with
  | .checkRunning | .newNode => c.accepted
  | _ => c.accepted ++ c.calls.take 1

namespace WorkerPc

/-- The worker's point in `dequeue`. -/
def consumer : WorkerPc → SpscConsumerPc OrderRequest
  | .dequeue _ pc => pc
  | _ => .idle

/-- The request `dequeue` returned and `process_order_request` has still to take. -/
def processing : WorkerPc → Option OrderRequest
  | .process _ request => some request
  | _ => none

/-- The request the worker has moved `head_` past and not yet processed. -/
def inHand : WorkerPc → Option OrderRequest
  | .dequeue _ pc => pc.taken
  | .process _ request => some request
  | _ => none

/-- In the loop of `worker_loop`, not in the drain after it. -/
def InLoop : WorkerPc → Prop
  | .checkRunning => True
  | .callDequeue drain | .dequeue drain _ | .process drain _ => drain = false
  | .notStarted | .exited => False

end WorkerPc

end Micromatch.Core

namespace Micromatch.Proofs
open Micromatch.Core Micromatch.Utils SPSCQueue EngineThreads

variable {s s' : EngineThreads}

theorem step_client {i : Nat} (h : s.step (.client i) = some s') :
    ∃ c c' q, s.clients.get? i = some c ∧ clientStep s.running s.queue c = some (c', q) ∧
      s' = { s with clients := s.clients.set i c', queue := q,
                    linked := linkedAfter s.linked s.queue c.pc } := by
  simp only [EngineThreads.step, Option.bind_eq_bind, Option.bind_eq_some] at h
  obtain ⟨c, hc, ⟨c', q⟩, hcs, h⟩ := h
  exact ⟨c, c', q, hc, hcs, (Option.some.inj h).symm⟩

/-- A client is inside a call only while it has a call to make. -/
theorem clientStep_between {running : Bool} {q q' : SPSCQueue OrderRequest} {c c' : Client}
    (h : clientStep running q c = some (c', q')) : c'.pc = .checkRunning ∨ c'.calls ≠ [] := by
  obtain ⟨_ | ⟨r, rest⟩, pc, acc⟩ := c
  · cases pc <;> cases h
  · cases pc <;> simp only [clientStep] at h
    case checkRunning => split_ifs at h <;> cases h <;> simp
    all_goals cases h; simp

/-- The worker's step changes its point, `order_queue_` and `processed`, nothing else. -/
theorem workerStep_frame (h : s.workerStep = some s') :
    s' = { s with worker := s'.worker, queue := s'.queue, processed := s'.processed } := by
  obtain ⟨running, queue, worker, processed, clients, controller, linked⟩ := s
  cases worker <;> simp only [workerStep] at h
  case dequeue d pc => split at h <;> cases h <;> rfl
  all_goals cases h <;> rfl

/-- The controller's step changes `running_`, the controller and, in `start()`, the worker,
which it sets at the head of its loop. -/
theorem controllerStep_frame (h : s.controllerStep = some s') :
    s' = { s with running := s'.running, worker := s'.worker, controller := s'.controller } ∧
      (s'.worker = s.worker ∨ s'.worker = .checkRunning) := by
  obtain ⟨running, queue, worker, processed, clients, ⟨calls, joining⟩, linked⟩ := s
  simp only [controllerStep] at h
  split at h <;> (try split_ifs at h) <;> cases h <;> simp

/-- `running_`, `stop()`'s `join` and the worker agree: `stop()` joins only with `running_` clear,
while `running_` is set the worker is in its loop, and while it is clear and no `stop()` joins, the
worker has not started or has exited. -/
structure Control (s : EngineThreads) : Prop where
  joining : s.controller.joining = true → s.running = false
  running : s.running = true → s.worker.InLoop
  stopped : s.running = false → s.controller.joining = false →
    s.worker = .notStarted ∨ s.worker = .exited

theorem control_create (calls : List (List OrderRequest)) (control : List ControlCall) :
    Control (create calls control) :=
  ⟨fun h => Bool.noConfusion h, fun h => Bool.noConfusion h, fun _ _ => .inl rfl⟩

/-- In its loop, the worker reads `running_` set and stays in the loop. -/
theorem workerStep_inLoop (h : s.workerStep = some s') (hr : s.running = true)
    (hl : s.worker.InLoop) : s'.worker.InLoop := by
  obtain ⟨running, queue, worker, processed, clients, controller, linked⟩ := s
  cases hr
  cases worker <;> simp only [workerStep] at h
  case dequeue d pc =>
    obtain rfl : d = false := hl
    split at h <;> cases h <;> trivial
  case process d r =>
    obtain rfl : d = false := hl
    cases h; trivial
  all_goals cases h <;> trivial

theorem Control.step (hc : Control s) {t : Thread} (h : s.step t = some s') : Control s' := by
  cases t with
  | client i =>
    obtain ⟨c, c', q, -, -, rfl⟩ := step_client h
    exact ⟨hc.joining, hc.running, hc.stopped⟩
  | worker =>
    have hf := workerStep_frame h
    refine ⟨fun hj => ?_, fun hr => ?_, fun hr hj => ?_⟩
    · rw [hf] at hj ⊢; exact hc.joining hj
    · rw [hf] at hr; exact workerStep_inLoop h hr (hc.running hr)
    · rw [hf] at hr hj
      rcases hc.stopped hr hj with hw | hw <;>
        simp only [EngineThreads.step, workerStep, hw, reduceCtorEq] at h
  | controller =>
    obtain ⟨running, queue, worker, processed, clients, ⟨calls, joining⟩, linked⟩ := s
    obtain ⟨hj, hr, hs⟩ := hc
    simp only at hj hr hs
    simp only [EngineThreads.step, controllerStep] at h
    split at h <;> (try split_ifs at h) <;> cases h <;> constructor <;> intros <;>
      simp_all only [WorkerPc.InLoop, Bool.false_eq_true, false_implies, true_or, or_true, reduceCtorEq]

/-- An invariant every step keeps holds after every schedule. -/
theorem runSchedule_invariant {P : EngineThreads → Prop}
    (hstep : ∀ {s s' : EngineThreads} {t : Thread}, P s → s.step t = some s' → P s')
    {ts : List Thread} (h : P s) (hr : s.runSchedule ts = some s') : P s' := by
  induction ts generalizing s with
  | nil => cases hr; exact h
  | cons t ts ih =>
    obtain ⟨s₁, h₁, hr⟩ := Option.bind_eq_some.mp hr
    exact ih (hstep h h₁) hr

theorem runSchedule_append (ts₁ ts₂ : List Thread) :
    s.runSchedule (ts₁ ++ ts₂) = (s.runSchedule ts₁).bind (runSchedule · ts₂) := by
  induction ts₁ generalizing s with
  | nil => rfl
  | cons t ts ih =>
    show (s.step t).bind (runSchedule · (ts ++ ts₂)) = ((s.step t).bind (runSchedule · ts)).bind _
    simp only [ih, Option.bind_assoc]

/-- The engine with the one client thread `c` is the run `sp` of `SpscSystem`: the client's
`enqueue` steps are the producer's, the worker's `dequeue` steps the consumer's, and what
`dequeue` returned is what the worker processed and the request it is about to process. -/
structure Simulates (s : EngineThreads) (c : Client) (sp : SpscSystem OrderRequest) : Prop where
  reachable : sp.Reachable
  queue : sp.queue = s.queue
  producer : sp.producer = c.pc.producer
  consumer : sp.consumer = s.worker.consumer
  enqueued : sp.enqueued = c.allocated
  linked : sp.linked = s.linked
  returned : sp.returned = s.processed ++ s.worker.processing.toList

variable {c c' : Client} {sp : SpscSystem OrderRequest}

theorem simulates_create (calls : List OrderRequest) (control : List ControlCall) :
    Simulates (create [calls] control) ⟨calls, .checkRunning, []⟩ .create :=
  ⟨.create, rfl, rfl, rfl, rfl, rfl, rfl⟩

/-- Each step of the client's call is a producer step or, before `new Node`, none. -/
theorem Simulates.clientStep (hs : Simulates s c sp) {q : SPSCQueue OrderRequest}
    {clients : List Client} (h : clientStep s.running s.queue c = some (c', q)) :
    ∃ sp', Simulates { s with clients, queue := q, linked := linkedAfter s.linked s.queue c.pc }
      c' sp' := by
  obtain ⟨queue, producer, consumer, enqueued, linked, returns⟩ := sp
  obtain ⟨hR, rfl, rfl, rfl, rfl, rfl, hr⟩ := hs
  obtain ⟨_ | ⟨r, rest⟩, pc, acc⟩ := c
  · cases pc <;> cases h
  cases pc <;> simp only [EngineThreads.clientStep] at h
  case checkRunning => split_ifs at h <;> cases h <;> exact ⟨_, hR, rfl, rfl, rfl, rfl, rfl, hr⟩
  case newNode => cases h; exact ⟨_, hR.next (.startEnqueue r) rfl, rfl, rfl, rfl, rfl, rfl, hr⟩
  all_goals cases h; exact ⟨_, hR.next .stepProducer rfl, rfl, rfl, rfl, rfl, rfl, hr⟩

/-- Each step of the worker is a consumer step, its call of `dequeue`, or none. -/
theorem Simulates.workerStep (hs : Simulates s c sp) (h : s.workerStep = some s') :
    ∃ sp', Simulates s' c sp' := by
  obtain ⟨running, queue, worker, processed, clients, controller, linked⟩ := s
  obtain ⟨queue', producer, consumer, enqueued, linked', returns⟩ := sp
  obtain ⟨hR, hq, hp, hc, he, hl, hr⟩ := hs
  dsimp only at hq hp hc he hl hr
  subst hq hp hc he hl
  cases worker <;> simp only [EngineThreads.workerStep, reduceCtorEq] at h
  case checkRunning => cases h; exact ⟨_, hR, rfl, rfl, rfl, rfl, rfl, hr⟩
  case callDequeue d => cases h; exact ⟨_, hR.next .startDequeue rfl, rfl, rfl, rfl, rfl, rfl, hr⟩
  case dequeue d pc =>
    split at h <;> rename_i hq <;> cases h <;> (try obtain ⟨rfl, -⟩ := dequeueStep_result hq) <;>
      (try cases d) <;>
      exact ⟨_, hR.dequeueStep hq, rfl, rfl, rfl, rfl, rfl,
        by simpa [SpscSystem.returned, WorkerPc.processing] using hr⟩
  case process d r =>
    cases h
    cases d <;> exact ⟨_, hR, rfl, rfl, rfl, rfl, rfl, by simpa [WorkerPc.processing] using hr⟩

/-- The controller's steps touch neither `order_queue_` nor what the worker holds: `start()`
finds the worker not started or exited. -/
theorem Simulates.controllerStep (hs : Simulates s c sp) (hc : Control s)
    (h : s.controllerStep = some s') : Simulates s' c sp := by
  obtain ⟨running, queue, worker, processed, clients, ⟨calls, joining⟩, linked⟩ := s
  obtain ⟨hR, hq, hp, hcons, he, hl, hr⟩ := hs
  simp only [EngineThreads.controllerStep] at h
  split at h
  · cases h
  · split_ifs at h; cases h; exact ⟨hR, hq, hp, hcons, he, hl, hr⟩
  · split_ifs at h with hrun <;> cases h
    · exact ⟨hR, hq, hp, hcons, he, hl, hr⟩
    · rcases hc.stopped (by simpa using hrun) rfl with rfl | rfl <;>
        exact ⟨hR, hq, hp, hcons, he, hl, hr⟩
  · split_ifs at h <;> cases h <;> exact ⟨hR, hq, hp, hcons, he, hl, hr⟩

/-- The engine with one client thread `c`, a run of `SpscSystem`; `c` is inside a call only
while it has one to make. -/
def OneClient (s : EngineThreads) : Prop :=
  Control s ∧ ∃ c sp, s.clients = [c] ∧ (c.pc = .checkRunning ∨ c.calls ≠ []) ∧ Simulates s c sp

theorem OneClient.step (h : OneClient s) {t : Thread} (hs : s.step t = some s') : OneClient s' := by
  obtain ⟨hc, c, sp, hcl, hb, hsim⟩ := h
  refine ⟨hc.step hs, ?_⟩
  cases t with
  | client i =>
    obtain ⟨c₀, c', q, hget, hcs, rfl⟩ := step_client hs
    cases i with
    | zero =>
      obtain rfl : c₀ = c := by simpa [hcl] using hget.symm
      obtain ⟨sp', hsim'⟩ := hsim.clientStep hcs
      exact ⟨c', sp', by simp [hcl], clientStep_between hcs, hsim'⟩
    | succ i => simp [hcl] at hget
  | worker =>
    obtain ⟨sp', hsim'⟩ := hsim.workerStep hs
    exact ⟨c, sp', (congrArg EngineThreads.clients (workerStep_frame hs)).trans hcl, hb, hsim'⟩
  | controller =>
    have hcl' := congrArg EngineThreads.clients (controllerStep_frame hs).1
    exact ⟨c, sp, hcl'.trans hcl, hb, hsim.controllerStep hc hs⟩

theorem oneClient_runSchedule {calls : List OrderRequest} {control : List ControlCall}
    {ts : List Thread} (hr : (create [calls] control).runSchedule ts = some s) : OneClient s :=
  runSchedule_invariant (fun h hs => h.step hs)
    ⟨control_create [calls] control, _, _, rfl, .inl rfl, simulates_create calls control⟩ hr

/-- What the worker processed and holds is what `dequeue` returned and took. -/
theorem Simulates.processed_inHand (hs : Simulates s c sp) :
    s.processed ++ s.worker.inHand.toList = sp.returned ++ sp.consumer.taken.toList := by
  rw [hs.returned, hs.consumer]
  cases s.worker <;> simp only [WorkerPc.inHand, WorkerPc.processing, WorkerPc.consumer,
    SpscConsumerPc.taken, Option.toList, List.append_nil]

theorem allocated_within_calls (c : Client) : c.allocated <+: c.accepted ++ c.calls.take 1 := by
  obtain ⟨calls, pc, acc⟩ := c
  cases pc <;> simp [Client.allocated]

/-- Between the client's calls, every accepted request is linked. -/
theorem Simulates.linked_eq_accepted (hs : Simulates s c sp) (hpc : c.pc = .checkRunning) :
    sp.linked = c.accepted := by
  rw [hs.reachable.inv.linked_eq_enqueued (by rw [hs.producer, hpc]; rfl), hs.enqueued,
    Client.allocated, hpc]

/-- Over every schedule of one client, the worker and the controller, the requests processed, then
the one the worker holds past `head_`, are the client's requests in call order, each once. Between
calls, `size_approx()` counts the accepted requests not among them. -/
theorem worker_processes_in_call_order {calls : List OrderRequest} {control : List ControlCall}
    {ts : List Thread} (hr : (create [calls] control).runSchedule ts = some s) :
    ∃ c, s.clients = [c] ∧
      s.processed ++ s.worker.inHand.toList <+: c.accepted ++ c.calls.take 1 ∧
      (c.pc = .checkRunning → s.processed ++ s.worker.inHand.toList <+: c.accepted ∧
        ∀ fuel, c.accepted.length - (s.processed ++ s.worker.inHand.toList).length < fuel →
          s.queue.sizeApprox fuel =
            some (c.accepted.length - (s.processed ++ s.worker.inHand.toList).length)) := by
  obtain ⟨-, c, sp, hcl, -, hs⟩ := oneClient_runSchedule hr
  have hi := hs.reachable.inv
  obtain ⟨htaken, hhead⟩ := hi.taken
  have hpre : s.processed ++ s.worker.inHand.toList <+: sp.linked :=
    hs.processed_inHand ▸ htaken
  have hlinked : sp.linked <+: c.accepted ++ c.calls.take 1 :=
    (hs.enqueued ▸ hi.linked_prefix).trans (allocated_within_calls c)
  refine ⟨c, hcl, hpre.trans hlinked, fun hpc => ?_⟩
  have hacc := hs.linked_eq_accepted hpc
  refine ⟨hacc ▸ hpre, fun fuel hfuel => ?_⟩
  rw [SPSCQueue.sizeApprox, ← hs.queue, hhead, ← hs.processed_inHand, ← hacc]
  exact sp.queue.sizeApproxFrom_chain hi.next_eq fuel _ hpre.length_le (hacc ▸ hfuel)

/-- Two submits accepted; the worker has stored `head_` past the first and not yet processed
it, and `size_approx()` counts the second alone. -/
theorem worker_one_of_two_processed :
    ∃ s, (create [[.cancelOrder 1 10, .cancelOrder 1 20]] [.start]).runSchedule
        ([.controller] ++ List.replicate 12 (.client 0) ++ List.replicate 5 .worker) = some s ∧
      s.processed = [] ∧ s.worker.inHand = some (.cancelOrder 1 10) ∧
      s.accepted = [[.cancelOrder 1 10, .cancelOrder 1 20]] ∧
      ∃ c, s.clients = [c] ∧
        s.processed ++ s.worker.inHand.toList <+: c.accepted ++ c.calls.take 1 ∧
        (c.pc = .checkRunning → s.processed ++ s.worker.inHand.toList <+: c.accepted ∧
          ∀ fuel, c.accepted.length - (s.processed ++ s.worker.inHand.toList).length < fuel →
            s.queue.sizeApprox fuel =
              some (c.accepted.length - (s.processed ++ s.worker.inHand.toList).length)) :=
  have h : ((create [[.cancelOrder 1 10, .cancelOrder 1 20]] [.start]).runSchedule
      ([.controller] ++ List.replicate 12 (.client 0) ++ List.replicate 5 .worker)).map
        (fun s => (s.processed, s.worker.inHand, s.accepted)) =
      some ([], some (.cancelOrder 1 10), [[.cancelOrder 1 10, .cancelOrder 1 20]]) := by decide
  let ⟨_, hr, he⟩ := Option.map_eq_some'.mp h
  ⟨_, hr, congrArg (·.1) he, congrArg (·.2.1) he, congrArg (·.2.2) he,
    worker_processes_in_call_order hr⟩

/-- Two client threads in `enqueue` at once both link their node after the same `cached_tail_`,
so the second link overwrites the first: both calls return, `stop()` drains and returns, and the
worker has processed one of the two requests. -/
theorem two_producers_lose_a_request :
    ((create [[.cancelOrder 1 10], [.cancelOrder 1 20]] [.start, .stop]).runSchedule
      ([.controller, .client 0, .client 1, .client 0, .client 1, .client 0, .client 1, .client 0,
        .client 1, .client 0, .client 0, .client 1, .client 1, .controller] ++
        List.replicate 12 .worker ++ [.controller])).map
      (fun s => (s.finished, s.accepted, s.processed)) =
    some (true, [[.cancelOrder 1 10], [.cancelOrder 1 20]], [.cancelOrder 1 20]) := by
  decide

/-- From the client's last return on: the engine is a run of `SpscSystem`, each drain's
`dequeue` began after every link store, and a worker that has exited has processed every
accepted request. -/
structure AfterCalls (c : Client) (s : EngineThreads) : Prop where
  control : Control s
  clients : s.clients = [c]
  simulates : ∃ sp, Simulates s c sp
  drain : ∀ pc, s.worker = .dequeue true pc → pc.seen = c.accepted.length
  exited : s.worker = .exited → s.processed = c.accepted

section AfterCalls

variable (hpc : c.pc = .checkRunning)
include hpc

/-- The worker's steps after the client's last return: a drain's `dequeue` begins with `seen`
every accepted request, and its `nullopt` comes once all of them are processed. -/
theorem AfterCalls.workerStep (h : AfterCalls c s) (hs : s.workerStep = some s') :
    (∀ pc, s'.worker = .dequeue true pc → pc.seen = c.accepted.length) ∧
      (s'.worker = .exited → s'.processed = c.accepted) := by
  obtain ⟨-, -, ⟨sp, hsim⟩, hdrain, -⟩ := h
  have hacc := hsim.linked_eq_accepted hpc
  have hi := hsim.reachable.inv
  obtain ⟨running, queue, worker, processed, clients, controller, linked⟩ := s
  obtain ⟨-, hq, -, hcons, -, hl, hr⟩ := hsim
  cases worker <;> simp only [EngineThreads.workerStep, reduceCtorEq] at hs
  case checkRunning | process => (try split_ifs at hs) <;> cases hs <;> simp
  case callDequeue d =>
    cases hs
    refine ⟨fun pc hw => ?_, nofun⟩
    obtain ⟨rfl, rfl⟩ := WorkerPc.dequeue.inj hw
    simp only [SpscConsumerPc.seen, ← hacc, hl]
  case dequeue d pc =>
    split at hs <;> rename_i hq' <;> cases hs
    · refine ⟨fun pc' hw => ?_, nofun⟩
      obtain ⟨rfl, rfl⟩ := WorkerPc.dequeue.inj hw
      exact (dequeueStep_seen hq').trans (hdrain pc rfl)
    · exact ⟨fun _ h => WorkerPc.noConfusion h, fun h => WorkerPc.noConfusion h⟩
    · rename_i seen
      refine ⟨fun pc' hw => (by cases d <;> cases hw), fun hw => ?_⟩
      obtain rfl : d = true := by cases d <;> first | rfl | cases hw
      have hseen : seen = c.accepted.length := (dequeueStep_result hq').2.trans (hdrain pc rfl)
      have hpre : sp.returned <+: c.accepted := hacc ▸ hi.returned_prefix
      have hle : c.accepted.length ≤ sp.returned.length :=
        hseen ▸ hi.seen_le_of_nullopt (by rw [hq, hcons]; exact hq')
      simpa [hr, WorkerPc.processing] using hpre.eq_of_length (le_antisymm hpre.length_le hle)

theorem AfterCalls.step (hcalls : c.calls = []) (h : AfterCalls c s) {t : Thread}
    (hs : s.step t = some s') :
    AfterCalls c s' := by
  cases t with
  | client i =>
    obtain ⟨c₀, c', q, hget, hcs, -⟩ := step_client hs
    obtain rfl : c₀ = c := by cases i <;> simp_all [h.clients]
    simp [EngineThreads.clientStep, hcalls, hpc] at hcs
  | worker =>
    obtain ⟨sp, hsim⟩ := h.simulates
    have hcl := congrArg EngineThreads.clients (workerStep_frame hs)
    obtain ⟨hdrain, hexit⟩ := h.workerStep hpc hs
    exact ⟨h.control.step hs, hcl.trans h.clients, hsim.workerStep hs, hdrain, hexit⟩
  | controller =>
    obtain ⟨sp, hsim⟩ := h.simulates
    obtain ⟨hf, hw⟩ := controllerStep_frame hs
    have hp : s'.processed = s.processed := (congrArg EngineThreads.processed hf :)
    refine ⟨h.control.step hs, (congrArg EngineThreads.clients hf).trans h.clients,
      ⟨sp, hsim.controllerStep h.control hs⟩, fun pc hd => ?_, fun he => ?_⟩
    · rcases hw with hw | hw <;> rw [hw] at hd
      · exact h.drain pc hd
      · cases hd
    · rcases hw with hw | hw <;> rw [hw] at he
      · exact hp.trans (h.exited he)
      · cases he

end AfterCalls

/-- A `stop()` that begins after the client's last call has returned loses nothing: when the
worker leaves `worker_loop`, it has processed every accepted request. -/
theorem stop_after_calls_drains_accepted {calls : List OrderRequest}
    {control : List ControlCall} {ts₁ ts₂ : List Thread} {s₁ s₂ : EngineThreads}
    (h₁ : (create [calls] control).runSchedule ts₁ = some s₁)
    (hcalls : ∀ c ∈ s₁.clients, c.calls = []) (hrun : s₁.running = true)
    (h₂ : s₁.runSchedule ts₂ = some s₂) (he : s₂.worker = .exited) :
    ∃ c, s₂.clients = [c] ∧ s₂.processed = c.accepted := by
  obtain ⟨hc, c, sp, hcl, hb, hsim⟩ := oneClient_runSchedule h₁
  have hnil : c.calls = [] := hcalls c (by simp [hcl])
  have hpc : c.pc = .checkRunning := hb.resolve_right (not_not.mpr hnil)
  have hloop := hc.running hrun
  have hA : AfterCalls c s₁ :=
    ⟨hc, hcl, ⟨sp, hsim⟩, fun pc hw => by simp [hw, WorkerPc.InLoop] at hloop,
      fun hw => by simp [hw, WorkerPc.InLoop] at hloop⟩
  have hA₂ := runSchedule_invariant (fun h hs => h.step hpc hnil hs) hA h₂
  exact ⟨c, hA₂.clients, hA₂.exited he⟩

/-- A submit accepted, then `stop()`: the drain processes the request, finds the queue empty
and exits. -/
theorem stop_drains_submitted :
    ∃ s₁ s₂, (create [[.cancelOrder 1 10]] [.start, .stop]).runSchedule
        ([.controller] ++ List.replicate 6 (.client 0)) = some s₁ ∧
      (∀ c ∈ s₁.clients, c.calls = []) ∧ s₁.running = true ∧
      s₁.runSchedule ([.controller] ++ List.replicate 12 .worker ++ [.controller]) = some s₂ ∧
      s₂.worker = .exited ∧ ∃ c, s₂.clients = [c] ∧ s₂.processed = c.accepted := by
  have h₁ : ((create [[.cancelOrder 1 10]] [.start, .stop]).runSchedule
      ([.controller] ++ List.replicate 6 (.client 0))).map
        (fun s => (s.clients.map Client.calls, s.running)) = some ([[]], true) := by decide
  have h₂ : (((create [[.cancelOrder 1 10]] [.start, .stop]).runSchedule
      ([.controller] ++ List.replicate 6 (.client 0))).bind
        (runSchedule · ([.controller] ++ List.replicate 12 .worker ++ [.controller]))).map
      (·.worker) = some .exited := by decide
  obtain ⟨s₂, hb, he⟩ := Option.map_eq_some'.mp h₂
  obtain ⟨s₁, hs₁, hs₂⟩ := Option.bind_eq_some.mp hb
  obtain ⟨s₁', hs₁', hf⟩ := Option.map_eq_some'.mp h₁
  obtain rfl : s₁ = s₁' := Option.some.inj (hs₁.symm.trans hs₁')
  have hcalls : ∀ c ∈ s₁.clients, c.calls = [] := fun c hc =>
    List.mem_singleton.mp ((Prod.mk.inj hf).1 ▸ List.mem_map_of_mem Client.calls hc)
  exact ⟨s₁, s₂, hs₁, hcalls, (Prod.mk.inj hf).2, hs₂, he,
    stop_after_calls_drains_accepted hs₁ hcalls (Prod.mk.inj hf).2 hs₂ he⟩

end Micromatch.Proofs

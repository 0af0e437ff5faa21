/-
  Microkernel.Calls.Outcome — everything a call and a step can do, said once.

  `Outcome k cur c r e`: from `k`, the body of `c` called by `cur` ends with `r`, and the
  `Event` `e` happens to owners and queues. `Did cur k k' e` is what `e` means for the
  state: the owners, the thread states, the wait queues, the run queue, the owners'
  lists. `callBody_outcome` derives both from the code; `Sys.step_cases` lifts it to a
  step. The invariants of the following modules are case analyses of `Event`.
-/

import Microkernel.Calls.System

namespace Microkernel

open Linked

inductive Event where
  | quiet
  | taken (m : MutexId)
  | blocked (o : WaitObj)
  | freed (m : MutexId)
  | handed (m : MutexId) (w : ThreadId)
  | woken (s : SemId) (w : ThreadId)
  | reset (m : MutexId)
  deriving DecidableEq, Repr

/-- The first waiter of maximal priority left the queue of `o`; the others kept their order. -/
structure Popped (o : WaitObj) (w : ThreadId) (k k' : Kernel) : Prop where
  chain : ∃ l₁ l₂, Chain (waitNextOf k) (waitersOf k o) (l₁ ++ w :: l₂) ∧ Chain (waitNextOf k') (waitersOf k' o) (l₁ ++ l₂) ∧
    (∀ u ∈ l₁, effPrio k u < effPrio k w) ∧ (∀ u ∈ l₂, effPrio k u ≤ effPrio k w) ∧
    ∀ u, u ∉ l₁ ++ w :: l₂ → waitNextOf k' u = waitNextOf k u
  out : waitNextOf k' w = none
  waiters : ∀ p, p ≠ o → waitersOf k' p = waitersOf k p

structure SameQueues (k k' : Kernel) : Prop where
  waiters : ∀ o, waitersOf k' o = waitersOf k o
  waitNext : ∀ t, waitNextOf k' t = waitNextOf k t

namespace Event

def ownerAfter (cur : ThreadId) (k : Kernel) (m : MutexId) : Event → Option ThreadId
  | .taken n => if m = n then some cur else ownerOf k m
  | .freed n => if m = n then none else ownerOf k m
  | .handed n w => if m = n then some w else ownerOf k m
  | _ => ownerOf k m

def stateAfter (cur : ThreadId) (k : Kernel) (t : ThreadId) : Event → TState
  | .blocked _ => if t = cur then .blocked else stateOf k t
  | .handed _ w => if t = w then .ready else stateOf k t
  | .woken _ w => if t = w then .ready else stateOf k t
  | _ => stateOf k t

def Queues (cur : ThreadId) (k k' : Kernel) : Event → Prop
  | .blocked o => (∀ p, waitersOf k' p = if p = o then some cur else waitersOf k p) ∧
      (∀ t, t ≠ cur → waitNextOf k' t = waitNextOf k t) ∧
      waitNextOf k' cur = if isReady k cur then none else waitersOf k o
  | .freed m => waitersOf k (.mutex m) = none ∧ SameQueues k k'
  | .handed m w => Popped (.mutex m) w k k'
  | .woken s w => Popped (.sem s) w k k'
  | .reset m => (∀ p, waitersOf k' p = if p = .mutex m then none else waitersOf k p) ∧
      ∀ t, waitNextOf k' t = waitNextOf k t
  | _ => SameQueues k k'

/-- The thread an event makes runnable. -/
def wakes : Event → Option ThreadId
  | .handed _ w => some w
  | .woken _ w => some w
  | _ => none

/-- The run queue after the event. -/
def lineAfter (cur : ThreadId) (k : Kernel) (l : List ThreadId) : Event → List ThreadId
  | .blocked _ => l.erase cur
  | .handed _ w => if isReady k w then l else l ++ [w]
  | .woken _ w => if isReady k w then l else l ++ [w]
  | _ => l

end Event

/-- What an event does to owners, thread states and wait queues. -/
structure Effect (cur : ThreadId) (k k' : Kernel) (e : Event) : Prop where
  owner : ∀ m, ownerOf k' m = e.ownerAfter cur k m
  lists : OwnerLists k none → OwnerLists k' none
  state : ∀ t, stateOf k' t = e.stateAfter cur k t
  queues : e.Queues cur k k'

/-- What it does to the run queue and `cpu_local`. -/
structure Did (cur : ThreadId) (k k' : Kernel) (e : Event) : Prop extends Effect cur k k' e where
  line : ∀ ts l, RunQueue k ts l → cur ∈ ts → (∀ w, e.wakes = some w → w ∈ ts) → RunQueue k' ts (e.lineAfter cur k l)
  current : k'.cpu.currentThread = k.cpu.currentThread
  preemptCnt : k'.cpu.preemptCnt = k.cpu.preemptCnt
  irqDepth : k'.cpu.irqDepth = k.cpu.irqDepth
  /-- A caller that blocks asks for a reschedule, and no call drops a request. -/
  request : k.cpu.needResched ≠ 0 ∨ (∃ o, e = .blocked o) → k'.cpu.needResched ≠ 0

/-- Which event and result a call can have in a state. -/
inductive Outcome (k : Kernel) (cur : ThreadId) : Call → Ret → Event → Prop
  | init (m : MutexId) : ownerOf k m = none → Outcome k cur (.mutexInit m) (.value 0) (.reset m)
  | relock (m : MutexId) : ownerOf k m = some cur → Outcome k cur (.mutexLock m) (.value 0) .quiet
  | lock (m : MutexId) : ownerOf k m = none → Outcome k cur (.mutexLock m) (.value 0) (.taken m)
  | lockBlocks (m : MutexId) (o : ThreadId) : ownerOf k m = some o → o ≠ cur →
      Outcome k cur (.mutexLock m) (.again m) (.blocked (.mutex m))
  | retry (m : MutexId) : ownerOf k m = some cur → Outcome k cur (.mutexTrylock m) (.value 0) .quiet
  | trylock (m : MutexId) : ownerOf k m = none → Outcome k cur (.mutexTrylock m) (.value 0) (.taken m)
  | busy (m : MutexId) : ownerOf k m ≠ some cur → Outcome k cur (.mutexTrylock m) (.value (-1)) .quiet
  | foreign (m : MutexId) : ownerOf k m ≠ some cur → Outcome k cur (.mutexUnlock m) (.value 0) .quiet
  | unlock (m : MutexId) : ownerOf k m = some cur → Outcome k cur (.mutexUnlock m) (.value 0) (.freed m)
  | handover (m : MutexId) (w : ThreadId) : ownerOf k m = some cur →
      Outcome k cur (.mutexUnlock m) (.value 0) (.handed m w)
  | setPi (m : MutexId) (enabled : Bool) : Outcome k cur (.mutexSetPiEnabled m enabled) (.value 0) .quiet
  | down (s : SemId) : 0 ≤ (k.sems s).count - 1 → Outcome k cur (.semDown s) (.value 0) .quiet
  | downBlocks (s : SemId) : (k.sems s).count - 1 < 0 → Outcome k cur (.semDown s) (.value 0) (.blocked (.sem s))
  | up (s : SemId) : 0 < (k.sems s).count + 1 ∨ waitersOf k (.sem s) = none → Outcome k cur (.semUp s) (.value 0) .quiet
  | upWakes (s : SemId) (w : ThreadId) : (k.sems s).count + 1 ≤ 0 → Outcome k cur (.semUp s) (.value 0) (.woken s w)

/-! ## Quiet changes -/

theorem kept_request {n : Nat} {e : Event} (h : n ≠ 0 ∨ ∃ o, e = .blocked o) (he : ∀ o, e ≠ .blocked o) : n ≠ 0 := by
  rcases h with h | ⟨o, h⟩
  · exact h
  · exact absurd h (he o)

/-- A change of no owner, no thread state, no queue. -/
theorem did_quiet {cur : ThreadId} {k k' : Kernel} (ho : SameOwn k k') (hs : ∀ t, stateOf k' t = stateOf k t)
    (hq : SameQueues k k') (hr : SameRun k k') : Did cur k k' .quiet := by
  refine ⟨⟨ho.owner, fun h => h.congr ho, hs, hq⟩, fun ts l h _ _ => hr.runQueue hs h, ?_, ?_, ?_, fun he => ?_⟩
  · rw [hr.cpu]
  · rw [hr.cpu]
  · rw [hr.cpu]
  · rw [hr.cpu]
    exact kept_request he fun o e => by cases e

theorem SameWait.queues {k k' : Kernel} (h : SameWait k k') : SameQueues k k' := ⟨h.waiters, h.waitNext⟩

theorem did_waitingOn (cur : ThreadId) (k : Kernel) (n : Option MutexId) : Did cur k (setWaitingOn k cur n) .quiet :=
  did_quiet (setWaitingOn_sameSync k cur n).own (setWaitingOn_sameSync k cur n).wait.state
    (setWaitingOn_sameSync k cur n).wait.queues (setWaitingOn_run k cur n)

theorem setCount_queues (k : Kernel) (s : SemId) (n : Int) : SameQueues k (setCount k s n) := by
  refine ⟨fun o => ?_, fun _ => rfl⟩
  cases o with
  | mutex m => rfl
  | sem p =>
    simp only [waitersOf, setCount, Kernel.setSem_sems]
    split
    · rename_i h
      rw [h]
    · rfl

theorem did_count (cur : ThreadId) (k : Kernel) (s : SemId) (n : Int) : Did cur k (setCount k s n) .quiet :=
  did_quiet (SameOwn.setSem k s _) (fun _ => rfl) (setCount_queues k s n) (SameRun.setSem k s _)

/-! ## Taking a mutex -/

theorem did_taken {cur : ThreadId} {k : Kernel} {m : MutexId} (ho : ownerOf k m = none) :
    Did cur k (acquire cur m k) (.taken m) := by
  have hl := ownedAdd_links cur m (setOwner k m (some cur))
  have hw := setWaitingOn_sameSync (threadOwnedMutexAdd cur m (setOwner k m (some cur))) cur none
  have hwait : SameWait k (acquire cur m k) := ((setOwner_wait k m _).trans hl.wait).trans hw.wait
  have hrun : SameRun k (acquire cur m k) := ((SameRun.setMutex k m _).trans hl.run).trans (setWaitingOn_run _ cur none)
  have howner := ownerOf_setOwner k m (some cur)
  refine ⟨⟨fun n => ?_, fun h => (((h.unowned ho).setOwner _).give ?_).congr hw.own, hwait.state, hwait.queues⟩,
    fun ts l h _ _ => hrun.runQueue hwait.state h, ?_, ?_, ?_, fun he => ?_⟩
  · show ownerOf (acquire cur m k) n = if n = m then some cur else ownerOf k n
    rw [← ownerOf_setOwner, ← hl.owner]
    exact hw.own.owner n
  · rw [howner, if_pos rfl]
  · rw [hrun.cpu]
  · rw [hrun.cpu]
  · rw [hrun.cpu]
  · rw [hrun.cpu]
    exact kept_request he fun o e => by cases e

/-! ## Blocking -/

/-- `k0` is `k` with `cur` in front of the queue of `o`. -/
structure Enqueued (cur : ThreadId) (o : WaitObj) (k k0 : Kernel) : Prop where
  own : SameOwn k k0
  state : ∀ t, stateOf k0 t = stateOf k t
  run : SameRun k k0
  waiters : ∀ p, waitersOf k0 p = if p = o then some cur else waitersOf k p
  waitNext : ∀ t, waitNextOf k0 t = if t = cur then waitersOf k o else waitNextOf k t

theorem did_blocked {cur : ThreadId} {o : WaitObj} {k k0 k1 : Kernel} {fuel : Nat} (hc : k.cpu.currentThread = some cur)
    (h0 : Enqueued cur o k k0) (h : schedBlockCurrent fuel k0 = .ok k1) :
    Did cur k (k1.setNeedResched kNeedReschedNormal) (.blocked o) := by
  have hc0 : k0.cpu.currentThread = some cur := by rw [h0.run.cpu, hc]
  have hb := schedBlockCurrent_restated hc0 h
  have hown := h0.own.trans hb.own
  refine ⟨⟨hown.owner, fun hl => (hl.congr hown).congr (SameSync.setNeedResched k1 _).own, fun t => ?_,
    ⟨fun p => ?_, fun t ht => ?_, ?_⟩⟩, fun ts l hq hcm _ => ?_, ?_, ?_, ?_, fun _ => ?_⟩
  · show stateOf k1 t = if t = cur then .blocked else stateOf k t
    rw [hb.state, h0.state]
  · show waitersOf k1 p = _
    rw [hb.waiters, h0.waiters]
  · show waitNextOf k1 t = _
    rw [hb.waitNext, if_neg fun hn => ht hn.1, h0.waitNext, if_neg ht]
  · show waitNextOf k1 cur = _
    have hs : stateOf k0 cur ≠ .blocked ↔ isReady k cur := by
      rw [h0.state, ne_eq, ← not_ready_iff, not_not]
    rw [hb.waitNext, h0.waitNext, if_pos rfl]
    simp only [true_and, hs]
  · have hq1 : RunQueue k1 ts (l.erase cur) := (h0.run.runQueue h0.state hq).block hc0 hcm h
    exact hq1.congr (fun _ => rfl) (fun _ => rfl) rfl rfl
  · show k1.cpu.currentThread = _
    rw [hb.cpu, h0.run.cpu]
  · show k1.cpu.preemptCnt = _
    rw [hb.cpu, h0.run.cpu]
  · show k1.cpu.irqDepth = _
    rw [hb.cpu, h0.run.cpu]
  · exact Nat.one_ne_zero

theorem enqueue_enqueued (cur : ThreadId) (m : MutexId) (k : Kernel) : Enqueued cur (.mutex m) k (enqueue cur m k) := by
  have h1 := setWaitingOn_sameSync k cur (some m)
  refine ⟨(h1.own.trans (setWaitNext_own _ cur _)).trans (setWaiters_own _ m _), fun t => ?_,
    ((setWaitingOn_run k cur _).trans (setWaitNext_run _ cur _)).trans (setWaiters_run _ m _), fun p => ?_, fun t => ?_⟩
  · exact ((setWaitNext_only _ cur _).state t).trans (h1.wait.state t)
  · unfold enqueue
    rw [waitersOf_setWaiters, (setWaitNext_only _ cur _).waiters, h1.wait.waiters]
  · refine (waitNextOf_setWaitNext _ cur _ t).trans ?_
    rw [h1.wait.waitNext]
    rfl

theorem Enqueued.eff {cur o : ThreadId} {w : WaitObj} {k k0 k1 : Kernel} (h : Enqueued cur w k k0) (he : EffOnly o k0 k1) :
    Enqueued cur w k k1 :=
  ⟨h.own.trans he.own, fun t => (he.wait.state t).trans (h.state t), h.run.trans he.run,
    fun p => (he.wait.waiters p).trans (h.waiters p), fun t => (he.wait.waitNext t).trans (h.waitNext t)⟩

theorem semEnqueue_enqueued (cur : ThreadId) (s : SemId) (n : Int) (k : Kernel) :
    Enqueued cur (.sem s) k (semEnqueue cur s (setCount k s n)) := by
  have h0 := setCount_queues k s n
  have h1 := setWaitingOn_sameSync (setCount k s n) cur none
  refine ⟨((SameOwn.setSem k s _).trans h1.own).trans ((setWaitNext_own _ cur _).trans (SameOwn.setSem _ s _)), fun t => ?_,
    ((SameRun.setSem k s _).trans (setWaitingOn_run _ cur _)).trans ((setWaitNext_run _ cur _).trans (SameRun.setSem _ s _)),
    fun p => ?_, fun t => ?_⟩
  · exact ((setWaitNext_only _ cur _).state t).trans (h1.wait.state t)
  · cases p with
    | mutex m =>
      have hm : (semEnqueue cur s (setCount k s n)).mutexes = k.mutexes := rfl
      rw [if_neg fun e => by cases e]
      simp only [waitersOf, hm]
    | sem p =>
      simp only [waitersOf, semEnqueue, Kernel.setSem_sems, WaitObj.sem.injEq]
      split
      · rfl
      · rename_i hp
        simp only [setCount, setWaitNext, setWaitingOn, Kernel.setThread_sems, Kernel.setSem_sems, if_neg hp]
  · refine (waitNextOf_setWaitNext _ cur _ t).trans ?_
    rw [h1.wait.waitNext, h0.waitNext]
    split
    · exact h0.waiters (.sem s)
    · rfl

/-! ## Releasing, handing over, waking -/

/-- A pop, its new head stored, and the popped thread made runnable. -/
theorem popped_of {o : WaitObj} {w : ThreadId} {k k1 k2 k3 k4 : Kernel} {fuel : Nat} {head : Option ThreadId}
    (hq : SameQueues k k1) (he : ∀ t, effPrio k1 t = effPrio k t)
    (hpop : waitqPopHighest fuel (waitersOf k1 o) k1 = .ok (k2, head, some w))
    (hw : ∀ p, waitersOf k3 p = if p = o then head else waitersOf k2 p) (hn : ∀ t, waitNextOf k3 t = waitNextOf k2 t)
    (hr : Restated w .ready k3 k4) : Popped o w k k4 := by
  obtain ⟨honly, hspec⟩ := waitqPopHighest_spec hpop
  rcases hspec with ⟨-, -, hnone, -⟩ | ⟨l₁, l₂, w', hl, hww, hl', h1, h2, hout, hframe⟩
  · cases hnone
  cases hww
  have hnd := Chain.nodup hl
  have hw12 : w ∉ l₁ ++ l₂ := by
    simp only [List.nodup_append, List.nodup_cons, List.mem_cons] at hnd
    intro hm
    rcases List.mem_append.mp hm with hm | hm
    · exact hnd.2.2 w hm w (Or.inl rfl) rfl
    · exact hnd.2.1.1 hm
  have hnext : ∀ t, t ≠ w → waitNextOf k4 t = waitNextOf k2 t := by
    intro t ht
    rw [hr.waitNext, if_neg fun h => ht h.1, hn]
  have heff : effPrio k1 = effPrio k := funext he
  refine ⟨⟨l₁, l₂, ?_, ?_, by rwa [heff] at h1, by rwa [heff] at h2, fun u hu => ?_⟩, ?_, fun p hp => ?_⟩
  · rw [← hq.waiters]
    exact hl.congr fun t _ => (hq.waitNext t).symm
  · rw [hr.waiters, hw, if_pos rfl]
    refine hl'.congr fun t ht => hnext t fun e => hw12 (e ▸ ht)
  · have huw : u ≠ w := fun e => hu (by simp [e])
    rw [hnext u huw, hframe u hu, hq.waitNext]
  · rw [hr.waitNext]
    split
    · rfl
    · rw [hn, hout]
  · rw [hr.waiters, hw, if_neg hp, honly.waiters, hq.waiters]

/-- What the pop leaves, seen from before it. -/
theorem popped_frame {k1 k2 : Kernel} {fuel : Nat} {head head' t : Option ThreadId}
    (hpop : waitqPopHighest fuel head k1 = .ok (k2, head', t)) : WaitNextOnly k1 k2 := (waitqPopHighest_spec hpop).1

theorem requestIfAbove_cases (t cur : ThreadId) (k : Kernel) :
    requestIfAbove t cur k = k ∨ requestIfAbove t cur k = k.setNeedResched kNeedReschedNormal := by
  unfold requestIfAbove
  split
  · exact Or.inr rfl
  · exact Or.inl rfl

/-- Nothing an event speaks of changes: priorities, budgets, a request to reschedule. -/
structure Idle (k k' : Kernel) : Prop where
  own : SameOwn k k'
  wait : SameWait k k'
  next : ∀ t, nextOf k' t = nextOf k t
  rqHead : k'.rqHead = k.rqHead
  rqTail : k'.rqTail = k.rqTail
  current : k'.cpu.currentThread = k.cpu.currentThread
  preemptCnt : k'.cpu.preemptCnt = k.cpu.preemptCnt
  irqDepth : k'.cpu.irqDepth = k.cpu.irqDepth
  request : k.cpu.needResched ≠ 0 → k'.cpu.needResched ≠ 0

theorem Idle.refl (k : Kernel) : Idle k k := ⟨SameOwn.refl k, SameWait.refl k, fun _ => rfl, rfl, rfl, rfl, rfl, rfl, id⟩

theorem EffOnly.idle {t : ThreadId} {k k' : Kernel} (h : EffOnly t k k') : Idle k k' := by
  have hr := h.run
  refine ⟨h.own, h.wait, hr.next, hr.rqHead, hr.rqTail, ?_, ?_, ?_, fun hn => ?_⟩
  · rw [hr.cpu]
  · rw [hr.cpu]
  · rw [hr.cpu]
  · rw [hr.cpu]
    exact hn

theorem mutexApplyPi_idle {b : Build} {fuel : Nat} {m : MutexId} {k k' : Kernel} (h : mutexApplyPi b fuel m k = .ok k') :
    Idle k k' := by
  rcases mutexApplyPi_cases h with ⟨rfl, -⟩ | ⟨o, -, hr⟩
  · exact Idle.refl _
  · exact (recompute_only hr).idle

theorem requestIfAbove_idle (t cur : ThreadId) (k : Kernel) : Idle k (requestIfAbove t cur k) := by
  unfold requestIfAbove
  split
  · have h := SameSync.setNeedResched k kNeedReschedNormal
    exact ⟨h.own, h.wait, fun _ => rfl, rfl, rfl, rfl, rfl, rfl, fun _ => Nat.one_ne_zero⟩
  · exact Idle.refl k

theorem Popped.congr {o : WaitObj} {w : ThreadId} {k k1 k2 : Kernel} (h : Popped o w k k1) (hq : SameQueues k1 k2) :
    Popped o w k k2 := by
  obtain ⟨l₁, l₂, hl, hl', h1, h2, hf⟩ := h.chain
  refine ⟨⟨l₁, l₂, hl, ?_, h1, h2, fun u hu => (hq.waitNext u).trans (hf u hu)⟩, (hq.waitNext w).trans h.out,
    fun p hp => (hq.waiters p).trans (h.waiters p hp)⟩
  rw [hq.waiters]
  exact hl'.congr fun t _ => hq.waitNext t

theorem SameQueues.trans {a b c : Kernel} (h1 : SameQueues a b) (h2 : SameQueues b c) : SameQueues a c :=
  ⟨fun o => (h2.waiters o).trans (h1.waiters o), fun t => (h2.waitNext t).trans (h1.waitNext t)⟩

theorem Event.Queues.congr {cur : ThreadId} {k k1 k2 : Kernel} {e : Event} (h : e.Queues cur k k1) (hq : SameQueues k1 k2) :
    e.Queues cur k k2 := by
  cases e with
  | quiet => exact SameQueues.trans h hq
  | taken m => exact SameQueues.trans h hq
  | blocked o =>
    exact ⟨fun p => (hq.waiters p).trans (h.1 p), fun t ht => (hq.waitNext t).trans (h.2.1 t ht),
      (hq.waitNext cur).trans h.2.2⟩
  | freed m => exact ⟨h.1, SameQueues.trans h.2 hq⟩
  | handed m w => exact Popped.congr h hq
  | woken s w => exact Popped.congr h hq
  | reset m => exact ⟨fun p => (hq.waiters p).trans (h.1 p), fun t => (hq.waitNext t).trans (h.2 t)⟩

theorem Effect.same {cur : ThreadId} {k k1 k2 : Kernel} {e : Event} (h : Effect cur k k1 e) (ho : SameOwn k1 k2)
    (hw : SameWait k1 k2) : Effect cur k k2 e :=
  ⟨fun m => (ho.owner m).trans (h.owner m), fun hl => (h.lists hl).congr ho, fun t => (hw.state t).trans (h.state t),
    h.queues.congr hw.queues⟩

/-- An event with idle changes behind it is that event. -/
theorem Did.idle {cur : ThreadId} {k k1 k2 : Kernel} {e : Event} (h : Did cur k k1 e) (hi : Idle k1 k2) : Did cur k k2 e := by
  refine ⟨h.toEffect.same hi.own hi.wait, fun ts l hq hc hw => ?_,
    hi.current.trans h.current, hi.preemptCnt.trans h.preemptCnt, hi.irqDepth.trans h.irqDepth,
    fun hn => hi.request (h.request hn)⟩
  exact (h.line ts l hq hc hw).congr hi.next hi.wait.state hi.rqHead hi.rqTail

section Unlock

variable {b : Build} {fuel : Nat} {m : MutexId} {cur : ThreadId} {k k1 k2 k' : Kernel} {head : Option ThreadId}

/-- Up to the owner's priority, an unlock that finds nobody waiting. -/
theorem did_freed (ho : ownerOf k m = some cur) (h1 : threadOwnedMutexRemove fuel cur m k = .ok k1)
    (h2 : waitqPopHighest fuel (waitersOf k1 (.mutex m)) k1 = .ok (k2, head, none)) :
    Did cur k (setOwner (setWaiters k2 m head) m none) (.freed m) ∧ SamePrio k (setOwner (setWaiters k2 m head) m none) := by
  have hl := ownedRemove_links h1
  have hnone : waitersOf k1 (.mutex m) = none ∧ head = none ∧ k2 = k1 := by
    rcases (waitqPopHighest_spec h2).2 with ⟨hw, hh, -, hk⟩ | ⟨-, -, w, -, hw, -⟩
    · exact ⟨hw, hh, hk⟩
    · cases hw
  obtain ⟨hw1, rfl, rfl⟩ := hnone
  have hmid := setOwner_wait (setWaiters k2 m none) m none
  have hrun : SameRun k _ := (hl.run.trans (setWaiters_run k2 m none)).trans (SameRun.setMutex _ m fun x => { x with owner := none })
  have hq : SameQueues k (setOwner (setWaiters k2 m none) m none) := by
    refine ⟨fun o => ?_, fun t => (hmid.waitNext t).trans (hl.wait.waitNext t)⟩
    rw [hmid.waiters, waitersOf_setWaiters, ← hl.wait.waiters]
    split
    · rename_i ho
      rw [ho, hw1]
    · rfl
  have hstate : ∀ t, stateOf (setOwner (setWaiters k2 m none) m none) t = stateOf k t := fun t =>
    (hmid.state t).trans (hl.wait.state t)
  refine ⟨⟨⟨fun n => ?_, fun h => ?_, hstate, by rw [← hl.wait.waiters, hw1], hq⟩,
    fun ts l h _ _ => hrun.runQueue hstate h, ?_, ?_, ?_, fun hb => ?_⟩,
    (hl.prio.trans (setWaiters_prio k2 m none)).trans (setOwner_prio _ m none)⟩
  · show ownerOf _ n = if n = m then none else ownerOf k n
    rw [ownerOf_setOwner, (setWaiters_own k2 m none).owner, hl.owner]
  · have hout := ((h.remove ho h1).congr (setWaiters_own k2 m none)).setOwner none
    exact hout.release ((ownerOf_setOwner _ m none m).trans (if_pos rfl))
  · exact congrArg CpuLocal.currentThread hrun.cpu
  · exact congrArg CpuLocal.preemptCnt hrun.cpu
  · exact congrArg CpuLocal.irqDepth hrun.cpu
  · exact (congrArg CpuLocal.needResched hrun.cpu).trans_ne (kept_request hb fun o e => by cases e)

theorem ready_iff_of_state {k k' : Kernel} {t : ThreadId} (h : stateOf k' t = stateOf k t) : isReady k' t ↔ isReady k t := by
  unfold stateOf at h
  unfold isReady
  rw [h]

/-- Making `w` runnable, seen by the run queue of a state with the same thread states. -/
theorem line_of_wake {ts l : List ThreadId} {w : ThreadId} {k0 : Kernel} (hrun : SameRun k k0)
    (hstate : ∀ t, stateOf k0 t = stateOf k t) (hr : schedMakeRunnable w k0 = .ok k') (hq : RunQueue k ts l) (hw : w ∈ ts) :
    RunQueue k' ts (if isReady k w then l else l ++ [w]) := by
  have h0 := hrun.runQueue hstate hq
  have hready := ready_iff_of_state (hstate w)
  split
  · rename_i hrw
    rw [schedMakeRunnable_ready (hready.mpr hrw)] at hr
    cases hr
    exact h0
  · rename_i hrw
    exact h0.wake hw (fun hn => hrw (hready.mp hn)) hr

/-- Up to the priorities, an unlock that hands the mutex to `w`. -/
theorem did_handed {w : ThreadId} {kr : Kernel} (ho : ownerOf k m = some cur)
    (h1 : threadOwnedMutexRemove fuel cur m k = .ok k1)
    (h2 : waitqPopHighest fuel (waitersOf k1 (.mutex m)) k1 = .ok (k2, head, some w))
    (hr : schedMakeRunnable w (threadOwnedMutexAdd w m (setWaitingOn (setOwner (setWaiters k2 m head) m (some w)) w none)) =
      .ok kr) : Did cur k kr (.handed m w) ∧ SamePrio k kr := by
  have hl := ownedRemove_links h1
  have hpop := popped_frame h2
  have hr' := schedMakeRunnable_restated hr
  have hadd := ownedAdd_links w m (setWaitingOn (setOwner (setWaiters k2 m head) m (some w)) w none)
  have hwo := setWaitingOn_sameSync (setOwner (setWaiters k2 m head) m (some w)) w none
  have hwait : SameWait (setWaiters k2 m head) _ := ((setOwner_wait (setWaiters k2 m head) m (some w)).trans hwo.wait).trans hadd.wait
  have hrun : SameRun k _ := ((((hl.run.trans hpop.run).trans (setWaiters_run k2 m head)).trans (SameRun.setMutex _ m _)).trans
    (setWaitingOn_run _ w none)).trans hadd.run
  have hstate : ∀ t, stateOf (threadOwnedMutexAdd w m (setWaitingOn (setOwner (setWaiters k2 m head) m (some w)) w none)) t =
      stateOf k t := fun t => (hwait.state t).trans ((hpop.state t).trans (hl.wait.state t))
  have hprio : SamePrio k kr := (((((hl.prio.trans hpop.prio).trans (setWaiters_prio k2 m head)).trans
    (setOwner_prio _ m (some w))).trans hwo.prio).trans hadd.prio).trans hr'.prio
  refine ⟨⟨⟨fun n => ?_, fun h => ?_, fun t => ?_, ?_⟩, fun ts l h _ hw => line_of_wake hrun hstate hr h (hw w rfl),
    ?_, ?_, ?_, fun hb => ?_⟩, hprio⟩
  · show ownerOf kr n = if n = m then some w else ownerOf k n
    rw [hr'.own.owner, hadd.owner, hwo.own.owner, ownerOf_setOwner, (setWaiters_own k2 m head).owner, hpop.own.owner, hl.owner]
  · -- out of the caller's list, into the new owner's
    have hout := (((h.remove ho h1).congr hpop.own).congr (setWaiters_own k2 m head)).setOwner (some w)
    refine ((hout.congr hwo.own).give ?_).congr hr'.own
    rw [hwo.own.owner, ownerOf_setOwner, if_pos rfl]
  · show stateOf kr t = if t = w then .ready else stateOf k t
    rw [hr'.state, hstate]
  · refine popped_of hl.wait.queues hl.prio.eff h2 (fun p => ?_) (fun t => hwait.waitNext t) hr'
    rw [hwait.waiters, waitersOf_setWaiters]
  · rw [hr'.cpu, hrun.cpu]
  · rw [hr'.cpu, hrun.cpu]
  · rw [hr'.cpu, hrun.cpu]
  · rw [hr'.cpu, hrun.cpu]
    exact kept_request hb fun o e => by cases e

/-- An unlock by the owner: the mutex is freed or handed over, then priorities are
    recomputed. -/
theorem mutexUnlock_did (hc : k.cpu.currentThread = some cur) (h : mutexUnlock b fuel m k = .ok k') :
    (ownerOf k m ≠ some cur ∧ k' = k) ∨
    ownerOf k m = some cur ∧ ((∃ km, Did cur k km (.freed m) ∧ SamePrio k km ∧
        recomputeEffectivePriority b fuel cur km = .ok k') ∨
      ∃ w km k3 k4, Did cur k km (.handed m w) ∧ SamePrio k km ∧ mutexApplyPi b fuel m km = .ok k3 ∧
        recomputeEffectivePriority b fuel cur k3 = .ok k4 ∧ k' = requestIfAbove w cur k4) := by
  rcases mutexUnlock_cases hc h with h | ⟨ho, k1, k2, head, t, h1, h2, h3⟩
  · exact Or.inl h
  rcases h3 with ⟨rfl, h3⟩ | ⟨w, k3, k4, rfl, h3, h4, h5⟩
  · obtain ⟨hd, hp⟩ := did_freed ho h1 h2
    exact Or.inr ⟨ho, Or.inl ⟨_, hd, hp, h3⟩⟩
  · obtain ⟨km, hr, hpi⟩ := handover_cases h3
    obtain ⟨hd, hp⟩ := did_handed ho h1 h2 hr
    exact Or.inr ⟨ho, Or.inr ⟨w, km, k3, k4, hd, hp, hpi, h4, h5⟩⟩

end Unlock

theorem waitersOf_setHead (k : Kernel) (s : SemId) (head : Option ThreadId) (p : WaitObj) :
    waitersOf (k.setSem s fun x => { x with waiters := head }) p = if p = .sem s then head else waitersOf k p := by
  cases p with
  | mutex m =>
    rw [if_neg fun e => by cases e]
    rfl
  | sem p =>
    simp only [waitersOf, Kernel.setSem_sems, WaitObj.sem.injEq]
    split <;> rfl

/-- `sem_up` with a waiter in the queue. -/
theorem did_woken {s : SemId} {n : Int} {w cur : ThreadId} {k k1 k2 : Kernel} {fuel : Nat} {head : Option ThreadId}
    (h1 : waitqPopHighest fuel (waitersOf k (.sem s)) (setCount k s n) = .ok (k1, head, some w))
    (h2 : schedMakeRunnable w (k1.setSem s fun x => { x with waiters := head }) = .ok k2) :
    Did cur k k2 (.woken s w) := by
  have hq := setCount_queues k s n
  have hpop := popped_frame h1
  have hr := schedMakeRunnable_restated h2
  have hrun : SameRun k (k1.setSem s fun x => { x with waiters := head }) :=
    ((SameRun.setSem k s _).trans hpop.run).trans (SameRun.setSem k1 s _)
  have hown : SameOwn k k2 := (((SameOwn.setSem k s _).trans hpop.own).trans (SameOwn.setSem k1 s _)).trans hr.own
  have hstate : ∀ t, stateOf (k1.setSem s fun x => { x with waiters := head }) t = stateOf k t := hpop.state
  rw [← hq.waiters] at h1
  refine ⟨⟨hown.owner, fun h => h.congr hown, fun t => ?_, ?_⟩,
    fun ts l h _ hw => line_of_wake hrun hstate h2 h (hw w rfl), ?_, ?_, ?_, fun hb => ?_⟩
  · show stateOf k2 t = if t = w then .ready else stateOf k t
    rw [hr.state, hstate]
  · exact popped_of hq (fun _ => rfl) h1 (waitersOf_setHead k1 s head) (fun _ => rfl) hr
  · rw [hr.cpu, hrun.cpu]
  · rw [hr.cpu, hrun.cpu]
  · rw [hr.cpu, hrun.cpu]
  · rw [hr.cpu, hrun.cpu]
    exact kept_request hb fun o e => by cases e

/-- `sem_up` with an empty queue. -/
theorem did_up_none {s : SemId} {n : Int} {cur : ThreadId} {k k1 : Kernel} {fuel : Nat} {head : Option ThreadId}
    (h : waitqPopHighest fuel (waitersOf k (.sem s)) (setCount k s n) = .ok (k1, head, none)) :
    waitersOf k (.sem s) = none ∧ Did cur k (k1.setSem s fun x => { x with waiters := head }) .quiet := by
  have hnone : waitersOf k (.sem s) = none ∧ head = none ∧ k1 = setCount k s n := by
    rcases (waitqPopHighest_spec h).2 with ⟨hw, hh, -, hk⟩ | ⟨-, -, w, -, hw, -⟩
    · exact ⟨hw, hh, hk⟩
    · cases hw
  obtain ⟨hw, rfl, rfl⟩ := hnone
  have hq := setCount_queues k s n
  refine ⟨hw, did_quiet ((SameOwn.setSem k s _).trans (SameOwn.setSem _ s _)) (fun _ => rfl) ⟨fun p => ?_, hq.waitNext⟩
    ((SameRun.setSem k s _).trans (SameRun.setSem _ s _))⟩
  rw [waitersOf_setHead, hq.waiters]
  split
  · rename_i hp
    rw [hp, hw]
  · rfl

theorem did_reset (b : Build) (cur : ThreadId) {k : Kernel} {m : MutexId} (ho : ownerOf k m = none) :
    Did cur k (mutexInit b m k) (.reset m) := by
  have howner : ∀ n, ownerOf (mutexInit b m k) n = ownerOf k n := setMutex_field k m _ (·.owner) ho.symm
  have hq : ∀ p, waitersOf (mutexInit b m k) p = if p = .mutex m then none else waitersOf k p := by
    intro p
    cases p with
    | mutex n =>
      simp only [waitersOf, mutexInit, Kernel.setMutex_mutexes, WaitObj.mutex.injEq]
      split <;> rfl
    | sem s =>
      rw [if_neg fun e => by cases e]
      rfl
  refine ⟨⟨howner, fun h => ?_, fun _ => rfl, hq, fun _ => rfl⟩, fun ts l h _ _ => ?_, rfl, rfl, rfl, fun hb => ?_⟩
  · -- the link of a mutex in no list does not matter
    have h' := h.unowned ho
    refine OwnerLists.release (m := m) (fun u => ?_) ((howner m).trans ho)
    obtain ⟨l, hl, hmem⟩ := h' u
    refine ⟨l, hl.congr fun n hn => ?_, fun n => by rw [howner]; exact hmem n⟩
    have hnm : n ≠ m := fun e => ((hmem n).mp hn).2 (by rw [e])
    simp only [ownerNextOf, mutexInit, Kernel.setMutex_mutexes, if_neg hnm]
  · exact h.congr (fun _ => rfl) (fun _ => rfl) rfl rfl
  · exact kept_request hb fun o e => by cases e

/-! ## The calls -/

/-- Every call of a running thread has an outcome, and does what its event says. -/
theorem callBody_outcome {b : Build} {fuel : Nat} {c : Call} {k k' : Kernel} {r : Ret} {cur : ThreadId}
    (hc : k.cpu.currentThread = some cur) (h : callBody b fuel c k = .ok (k', r)) :
    ∃ e, Outcome k cur c r e ∧ Did cur k k' e := by
  cases c with
  | mutexInit m =>
    simp only [callBody] at h
    split at h
    · rename_i ho
      cases h
      exact ⟨_, .init m ho, did_reset b cur ho⟩
    · cases h
  | mutexLock m =>
    obtain ⟨⟨k1, got⟩, h1, h⟩ := bind_ok.mp h
    cases h
    rcases mutexLockPass_cases hc h1 with ⟨ho, rfl, rfl⟩ | ⟨ho, rfl, rfl⟩ | ⟨o, k2, k3, ho, hne, rfl, h2, h3, rfl⟩
    · exact ⟨_, .relock m ho, did_waitingOn cur k none⟩
    · exact ⟨_, .lock m ho, did_taken ho⟩
    · have hq := enqueue_enqueued cur m k
      have hq' : Enqueued cur (.mutex m) k k2 := by
        rcases mutexApplyPi_cases h2 with ⟨rfl, -⟩ | ⟨p, -, hp⟩
        · exact hq
        · exact hq.eff (recompute_only hp)
      exact ⟨_, .lockBlocks m o ho hne, did_blocked hc hq' h3⟩
  | mutexTrylock m =>
    cases h
    rcases mutexTrylock_cases (m := m) hc with ⟨ho, he⟩ | ⟨ho, he⟩ | ⟨-, ho, he⟩
    · rw [he]
      exact ⟨_, .trylock m ho, did_taken ho⟩
    · rw [he]
      exact ⟨_, .retry m ho, did_waitingOn cur k none⟩
    · rw [he]
      exact ⟨_, .busy m ho, did_quiet (SameOwn.refl k) (fun _ => rfl) (SameWait.refl k).queues (SameRun.refl k)⟩
  | mutexUnlock m =>
    obtain ⟨k1, h1, h⟩ := bind_ok.mp h
    cases h
    rcases mutexUnlock_did hc h1 with ⟨ho, rfl⟩ | ⟨ho, ⟨km, hd, -, h2⟩ | ⟨w, km, k3, k4, hd, -, h2, h3, rfl⟩⟩
    · exact ⟨_, .foreign m ho, did_quiet (SameOwn.refl _) (fun _ => rfl) (SameWait.refl _).queues (SameRun.refl _)⟩
    · exact ⟨_, .unlock m ho, hd.idle (recompute_only h2).idle⟩
    · exact ⟨_, .handover m w ho,
        ((hd.idle (mutexApplyPi_idle h2)).idle (recompute_only h3).idle).idle (requestIfAbove_idle w cur k4)⟩
  | mutexSetPiEnabled m enabled =>
    obtain ⟨k1, h1, h⟩ := bind_ok.mp h
    cases h
    have hw : SameWait k (k.setMutex m fun x => { x with piEnabled := enabled }) := SameWait.setMutex k m fun _ => rfl
    have h0 : Did cur k (k.setMutex m fun x => { x with piEnabled := enabled }) .quiet :=
      did_quiet (SameOwn.setMutex k m (fun _ => rfl) fun _ => rfl) (fun _ => rfl) hw.queues (SameRun.setMutex k m _)
    refine ⟨_, .setPi m enabled, ?_⟩
    unfold mutexSetPiEnabled at h1
    dsimp only at h1
    split at h1
    · cases h1
      exact h0
    · exact h0.idle (recompute_only h1).idle
  | semDown s =>
    obtain ⟨⟨k1, got⟩, h1, h⟩ := bind_ok.mp h
    cases h
    rcases semDown_cases hc h1 with ⟨hn, rfl, rfl⟩ | ⟨hn, rfl, k2, h2, rfl⟩
    · exact ⟨_, .down s hn, did_count cur k s _⟩
    · exact ⟨_, .downBlocks s hn, did_blocked hc (semEnqueue_enqueued cur s _ k) h2⟩
  | semUp s =>
    obtain ⟨k1, h1, h⟩ := bind_ok.mp h
    cases h
    rcases semUp_cases hc h1 with ⟨hn, rfl⟩ | ⟨hn, k2, head, t, h2, h3⟩
    · exact ⟨_, .up s (Or.inl hn), did_count cur k s _⟩
    · rcases h3 with ⟨rfl, rfl⟩ | ⟨w, k3, rfl, h3, h4⟩
      · have hup : _ ∧ Did cur k _ .quiet := did_up_none h2
        exact ⟨_, .up s (Or.inr hup.1), hup.2⟩
      · have hw : Did cur k k3 (.woken s w) := did_woken h2 h3
        refine ⟨_, .upWakes s w hn, ?_⟩
        rcases h4 with rfl | rfl
        · exact hw
        · exact hw.idle (requestIfAbove_idle w cur k3)

/-! ## Seen from an equal state -/

theorem Outcome.before {k k0 : Kernel} {cur : ThreadId} {c : Call} {r : Ret} {e : Event} (h : Outcome k0 cur c r e)
    (hs : SameSync k k0) : Outcome k cur c r e := by
  have ho := hs.own.owner
  have hc := hs.wait.count
  have hw := hs.wait.waiters
  cases h with
  | init m h => exact .init m (by rwa [← ho])
  | relock m h => exact .relock m (by rwa [← ho])
  | lock m h => exact .lock m (by rwa [← ho])
  | lockBlocks m o h hne => exact .lockBlocks m o (by rwa [← ho]) hne
  | retry m h => exact .retry m (by rwa [← ho])
  | trylock m h => exact .trylock m (by rwa [← ho])
  | busy m h => exact .busy m (by rwa [← ho])
  | foreign m h => exact .foreign m (by rwa [← ho])
  | unlock m h => exact .unlock m (by rwa [← ho])
  | handover m w h => exact .handover m w (by rwa [← ho])
  | setPi m enabled => exact .setPi m enabled
  | down σ h => exact .down σ (by rwa [← hc])
  | downBlocks σ h => exact .downBlocks σ (by rwa [← hc])
  | up σ h => exact .up σ (by rwa [← hc, ← hw])
  | upWakes σ w h => exact .upWakes σ w (by rwa [← hc])

theorem Popped.before {o : WaitObj} {w : ThreadId} {k k0 k' : Kernel} (h : Popped o w k0 k') (hs : SameSync k k0) :
    Popped o w k k' := by
  have he : effPrio k0 = effPrio k := funext hs.prio.eff
  obtain ⟨l₁, l₂, hl, hl', h1, h2, hf⟩ := h.chain
  rw [he] at h1 h2
  refine ⟨⟨l₁, l₂, ?_, hl', h1, h2, fun u hu => (hf u hu).trans (hs.wait.waitNext u)⟩, h.out,
    fun p hp => (h.waiters p hp).trans (hs.wait.waiters p)⟩
  rw [← hs.wait.waiters]
  exact hl.congr fun t _ => (hs.wait.waitNext t).symm

theorem Event.Queues.before {cur : ThreadId} {k k0 k' : Kernel} {e : Event} (h : e.Queues cur k0 k') (hs : SameSync k k0) :
    e.Queues cur k k' := by
  have hq := hs.wait.queues
  cases e with
  | quiet => exact hq.trans h
  | taken m => exact hq.trans h
  | blocked o =>
    refine ⟨fun p => ?_, fun t ht => (h.2.1 t ht).trans (hq.waitNext t), ?_⟩
    · rw [h.1, hq.waiters]
    · rw [h.2.2, hq.waiters]
      simp only [hs.wait.ready]
  | freed m => exact ⟨(hq.waiters _).symm.trans h.1, hq.trans h.2⟩
  | handed m w => exact Popped.before h hs
  | woken s w => exact Popped.before h hs
  | reset m =>
    refine ⟨fun p => ?_, fun t => (h.2 t).trans (hq.waitNext t)⟩
    rw [h.1, hq.waiters]

theorem Effect.before {cur : ThreadId} {k k0 k' : Kernel} {e : Event} (h : Effect cur k0 k' e) (hs : SameSync k k0) :
    Effect cur k k' e := by
  refine ⟨fun m => (h.owner m).trans ?_, fun hl => h.lists (hl.congr hs.own), fun t => (h.state t).trans ?_,
    h.queues.before hs⟩
  · cases e <;> simp only [Event.ownerAfter, hs.own.owner]
  · cases e <;> simp only [Event.stateAfter, hs.wait.state]

/-! ## Counts -/

/-- The change a call makes to a semaphore's count. -/
def countDelta (σ : SemId) : Call → Int
  | .semDown s => if σ = s then -1 else 0
  | .semUp s => if σ = s then 1 else 0
  | _ => 0

theorem count_setCount (k : Kernel) (s : SemId) (d : Int) (σ : SemId) :
    ((setCount k s ((k.sems s).count + d)).sems σ).count = (k.sems σ).count + if σ = s then d else 0 := by
  simp only [setCount, Kernel.setSem_sems]
  split
  · rename_i h
    rw [h]
  · omega

theorem setHead_count (k : Kernel) (s : SemId) (head : Option ThreadId) (σ : SemId) :
    ((k.setSem s fun x => { x with waiters := head }).sems σ).count = (k.sems σ).count := by
  simp only [Kernel.setSem_sems]
  split
  · rename_i h
    rw [h]
  · rfl

theorem callBody_count {b : Build} {fuel : Nat} {c : Call} {k k' : Kernel} {r : Ret} {cur : ThreadId}
    (hc : k.cpu.currentThread = some cur) (h : callBody b fuel c k = .ok (k', r)) (σ : SemId) :
    (k'.sems σ).count = (k.sems σ).count + countDelta σ c := by
  cases c with
  | mutexInit m =>
    simp only [callBody] at h
    split at h
    · cases h
      simp [countDelta, mutexInit]
    · cases h
  | mutexLock m =>
    obtain ⟨⟨k1, got⟩, h1, h⟩ := bind_ok.mp h
    cases h
    show _ = _ + 0
    rw [Int.add_zero]
    rcases mutexLockPass_cases hc h1 with ⟨-, -, rfl⟩ | ⟨-, -, rfl⟩ | ⟨o, k2, k3, -, -, -, h2, h3, rfl⟩
    · rfl
    · rfl
    · have hq := mutexApplyPi_idle h2
      have hc2 : k2.cpu.currentThread = some cur := hq.current.trans hc
      exact ((schedBlockCurrent_restated hc2 h3).count σ).trans (hq.wait.count σ)
  | mutexTrylock m =>
    cases h
    show _ = _ + 0
    rw [Int.add_zero]
    rcases mutexTrylock_cases (m := m) hc with ⟨-, he⟩ | ⟨-, he⟩ | ⟨-, -, he⟩ <;> rw [he] <;> rfl
  | mutexUnlock m =>
    obtain ⟨k1, h1, h⟩ := bind_ok.mp h
    cases h
    show _ = _ + 0
    rw [Int.add_zero]
    rcases mutexUnlock_cases hc h1 with ⟨-, rfl⟩ | ⟨-, k2, k3, head, t, h2, h3, h4⟩
    · rfl
    · have hto3 := ((popped_frame h3).count σ).trans ((ownedRemove_links h2).wait.count σ)
      rcases h4 with ⟨rfl, h4⟩ | ⟨w, k4, k5, rfl, h4, h5, rfl⟩
      · exact ((recompute_only h4).wait.count σ).trans hto3
      · obtain ⟨kr, hr, hpi⟩ := handover_cases h4
        have hto4 := ((mutexApplyPi_idle hpi).wait.count σ).trans (((schedMakeRunnable_restated hr).count σ).trans hto3)
        exact ((requestIfAbove_idle w cur k5).wait.count σ).trans (((recompute_only h5).wait.count σ).trans hto4)
  | mutexSetPiEnabled m enabled =>
    obtain ⟨k1, h1, h⟩ := bind_ok.mp h
    cases h
    show _ = _ + 0
    rw [Int.add_zero]
    unfold mutexSetPiEnabled at h1
    dsimp only at h1
    split at h1
    · cases h1
      rfl
    · exact (recompute_only h1).wait.count σ
  | semDown s =>
    obtain ⟨⟨k1, got⟩, h1, h⟩ := bind_ok.mp h
    cases h
    show _ = _ + if σ = s then -1 else 0
    rw [← count_setCount]
    rcases semDown_cases hc h1 with ⟨-, -, rfl⟩ | ⟨-, -, k2, h2, rfl⟩
    · rfl
    · have hc2 : (semEnqueue cur s (setCount k s ((k.sems s).count - 1))).cpu.currentThread = some cur := hc
      refine ((schedBlockCurrent_restated hc2 h2).count σ).trans ?_
      exact setHead_count (setWaitNext (setWaitingOn (setCount k s _) cur none) cur _) s (some cur) σ
  | semUp s =>
    obtain ⟨k1, h1, h⟩ := bind_ok.mp h
    cases h
    show _ = _ + if σ = s then 1 else 0
    rw [← count_setCount]
    rcases semUp_cases hc h1 with ⟨-, rfl⟩ | ⟨-, k2, head, t, h2, h3⟩
    · rfl
    · have hto2 := (setHead_count k2 s head σ).trans ((popped_frame h2).count σ)
      rcases h3 with ⟨-, rfl⟩ | ⟨w, k3, -, h3, h4⟩
      · exact hto2
      · have hto3 := ((schedMakeRunnable_restated h3).count σ).trans hto2
        rcases h4 with rfl | rfl
        · exact hto3
        · exact ((requestIfAbove_idle w cur k3).wait.count σ).trans hto3

end Microkernel

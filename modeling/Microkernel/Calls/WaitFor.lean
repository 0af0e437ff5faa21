/-
  Microkernel.Calls.WaitFor — `Thread::waiting_on` and the wait-for graph.

  `waitsOn k` has an edge from each thread whose `waiting_on` is a mutex to that mutex's
  owner: the graph `lockdep_would_deadlock` walks. `waiting_on` is no part of what an
  `Event` speaks of (`Microkernel.Calls.Outcome`): `waitingAfter` says what a call does
  to it, `callBody_waiting` that it is so, and `Sys.step_waiting` lifts both to a step.

  Proved:
  (1) `waiting_on` is never stale (`waiting_exact`): between steps it names the mutex
      the thread has blocked on and not been handed, and is null for everybody else.
  (2) A step closes no cycle unless its caller blocks on a mutex whose owner waits,
      through any number of threads, for that caller (`acyclic_step`): a mutex that
      changes hands goes to a thread that waits for nobody.
-/

import Microkernel.Calls.Waiters
import Microkernel.Lib.WaitGraph

namespace Microkernel

open Linked WaitGraph

def waitingOf (k : Kernel) (t : ThreadId) : Option MutexId := (k.threads t).waitingOn

/-- `t` waits for a mutex of `u`. -/
def waitsOn (k : Kernel) (t u : ThreadId) : Prop := ∃ m, waitingOf k t = some m ∧ ownerOf k m = some u

/-- Every `waiting_on` is unchanged. -/
def SameWaiting (k k' : Kernel) : Prop := ∀ t, waitingOf k' t = waitingOf k t

/-- The calls that end with `cur->waiting_on = nullptr`. -/
def clears : Call → Ret → Bool
  | .mutexLock _, .value _ => true
  | .mutexTrylock _, .value r => r = 0
  | _, _ => false

/-- `waiting_on` after a call. -/
def waitingAfter (cur : ThreadId) (k : Kernel) (c : Call) (r : Ret) (t : ThreadId) : Event → Option MutexId
  | .blocked (.mutex m) => if t = cur then some m else waitingOf k t
  | .blocked (.sem _) => if t = cur then none else waitingOf k t
  | .handed _ w => if t = w then none else waitingOf k t
  | _ => if t = cur ∧ clears c r then none else waitingOf k t

/-! ## What leaves `waiting_on` alone -/

section Frames

variable {a k k' : Kernel}

theorem SameWaiting.refl (k : Kernel) : SameWaiting k k := fun _ => rfl

theorem SameWaiting.trans (h1 : SameWaiting a k) (h2 : SameWaiting k k') : SameWaiting a k' := fun t => (h2 t).trans (h1 t)

theorem SameWaiting.of_threads (h : k'.threads = k.threads) : SameWaiting k k' := by
  intro t
  unfold waitingOf
  rw [h]

theorem SameWaiting.setThread (k : Kernel) (t : ThreadId) {f : Thread → Thread} (hf : ∀ x, (f x).waitingOn = x.waitingOn) :
    SameWaiting k (k.setThread t f) := Kernel.setThread_field k t f (·.waitingOn) (hf _)

theorem RqOnly.waiting (h : RqOnly k k') : SameWaiting k k' := h.field (·.waitingOn) fun _ _ => rfl

theorem SchedOnly.waiting (h : SchedOnly k k') : SameWaiting k k' := h.field (·.waitingOn) fun _ _ => rfl

theorem EffOnly.waiting {t : ThreadId} (h : EffOnly t k k') : SameWaiting k k' := by
  obtain ⟨p, rfl⟩ := h
  exact SameWaiting.setThread k t fun _ => rfl

theorem waitingOf_setWaitingOn (k : Kernel) (t : ThreadId) (n : Option MutexId) (u : ThreadId) :
    waitingOf (setWaitingOn k t n) u = if u = t then n else waitingOf k u := by
  unfold waitingOf setWaitingOn
  rw [Kernel.setThread_threads]
  split <;> rfl

theorem setWaitNext_waiting (k : Kernel) (t : ThreadId) (n : Option ThreadId) : SameWaiting k (setWaitNext k t n) :=
  SameWaiting.setThread k t fun _ => rfl

theorem setOwned_waiting (k : Kernel) (t : ThreadId) (n : Option MutexId) : SameWaiting k (setOwned k t n) :=
  SameWaiting.setThread k t fun _ => rfl

theorem ownedAdd_waiting (t : ThreadId) (m : MutexId) (k : Kernel) : SameWaiting k (threadOwnedMutexAdd t m k) :=
  setOwned_waiting (setOwnerNext k m _) t _

theorem waitingOf_acquire (cur : ThreadId) (m : MutexId) (k : Kernel) (t : ThreadId) :
    waitingOf (acquire cur m k) t = if t = cur then none else waitingOf k t := by
  unfold acquire
  rw [waitingOf_setWaitingOn, ownedAdd_waiting]
  rfl

theorem waitingOf_enqueue (cur : ThreadId) (m : MutexId) (k : Kernel) (t : ThreadId) :
    waitingOf (enqueue cur m k) t = if t = cur then some m else waitingOf k t := by
  have h : SameWaiting (setWaitingOn k cur (some m)) (enqueue cur m k) := setWaitNext_waiting _ cur _
  rw [h, waitingOf_setWaitingOn]

theorem waitingOf_semEnqueue (cur : ThreadId) (s : SemId) (k : Kernel) (t : ThreadId) :
    waitingOf (semEnqueue cur s k) t = if t = cur then none else waitingOf k t := by
  have h : SameWaiting (setWaitingOn k cur none) (semEnqueue cur s k) := setWaitNext_waiting _ cur _
  rw [h, waitingOf_setWaitingOn]

theorem schedBlockCurrent_waiting {fuel : Nat} {cur : ThreadId} (hc : k.cpu.currentThread = some cur)
    (h : schedBlockCurrent fuel k = .ok k') : SameWaiting k k' := by
  rcases stateOf_cases k cur with hr | hb
  · have h1 : SameWaiting k (k.setThread cur Thread.block) := SameWaiting.setThread k cur fun _ => rfl
    exact h1.trans (schedBlockCurrent_rqOnly hc hr h).waiting
  · rw [schedBlockCurrent_blocked hc hb] at h
    cases h
    exact SameWaiting.refl k

theorem schedMakeRunnable_waiting {t : ThreadId} (h : schedMakeRunnable t k = .ok k') : SameWaiting k k' := by
  by_cases hr : isReady k t
  · rw [schedMakeRunnable_ready hr] at h
    cases h
    exact SameWaiting.refl k
  · have h1 : SameWaiting k (k.setThread t Thread.wake) := SameWaiting.setThread k t fun _ => rfl
    exact h1.trans (schedMakeRunnable_rqOnly hr h).waiting

theorem waitqPopHighest_waiting {fuel : Nat} {head head' t : Option ThreadId}
    (h : waitqPopHighest fuel head k = .ok (k', head', t)) : SameWaiting k k' := by
  cases head with
  | none =>
    cases h
    exact SameWaiting.refl k
  | some hd =>
    obtain ⟨s, -, h⟩ := bind_ok.mp h
    split at h
    · cases h
      exact (setWaitNext_waiting _ _ _).trans (setWaitNext_waiting _ _ _)
    · cases h
      exact setWaitNext_waiting _ _ _

theorem ownedRemove_waiting {fuel : Nat} {t : ThreadId} {m : MutexId} (h : threadOwnedMutexRemove fuel t m k = .ok k') :
    SameWaiting k k' := by
  obtain ⟨r, -, h⟩ := bind_ok.mp h
  rcases r with _ | _ | prev
  · cases h
    exact SameWaiting.refl k
  · cases h
    exact setOwned_waiting k t _
  · cases h
    exact SameWaiting.refl k

theorem mutexApplyPi_waiting {b : Build} {fuel : Nat} {m : MutexId} (h : mutexApplyPi b fuel m k = .ok k') :
    SameWaiting k k' := by
  rcases mutexApplyPi_cases h with ⟨rfl, -⟩ | ⟨o, -, hr⟩
  · exact SameWaiting.refl k'
  · exact (recompute_only hr).waiting

theorem requestIfAbove_waiting (t cur : ThreadId) (k : Kernel) : SameWaiting k (requestIfAbove t cur k) := by
  rcases requestIfAbove_cases t cur k with h | h
  · rw [h]
    exact SameWaiting.refl k
  · rw [h]
    exact SameWaiting.of_threads rfl

theorem handover_waiting {b : Build} {fuel : Nat} {m : MutexId} {w : ThreadId} (h : handover b fuel m w k = .ok k')
    (t : ThreadId) : waitingOf k' t = if t = w then none else waitingOf k t := by
  obtain ⟨k1, h1, h2⟩ := handover_cases h
  rw [mutexApplyPi_waiting h2, schedMakeRunnable_waiting h1, ownedAdd_waiting, waitingOf_setWaitingOn]
  rfl

end Frames

/-! ## The calls -/

section Calls

variable {b : Build} {fuel : Nat} {c : Call} {k k' : Kernel} {r : Ret} {e : Event} {cur : ThreadId}

/-- An unlock that hands the mutex over clears the new owner's `waiting_on`, and no other. -/
theorem mutexUnlock_waiting {m : MutexId} (hc : k.cpu.currentThread = some cur) (h : mutexUnlock b fuel m k = .ok k')
    (hout : Outcome k cur (.mutexUnlock m) r e) (heff : Effect cur k k' e) (t : ThreadId) :
    waitingOf k' t = waitingAfter cur k (.mutexUnlock m) r t e := by
  have hquiet : (if t = cur ∧ clears (.mutexUnlock m) r then none else waitingOf k t) = waitingOf k t :=
    if_neg fun hn => Bool.false_ne_true hn.2
  rcases mutexUnlock_cases hc h with ⟨hne, rfl⟩ | ⟨ho, k1, k2, head, p, h1, h2, h3⟩
  · cases hout with
    | foreign _ h => exact hquiet.symm
    | unlock _ h => exact absurd h hne
    | handover _ w h => exact absurd h hne
  have hto2 : SameWaiting k (setWaiters k2 m head) :=
    ((ownedRemove_waiting h1).trans (waitqPopHighest_waiting h2)).trans (SameWaiting.of_threads rfl)
  have howner := heff.owner m
  rcases h3 with ⟨rfl, h3⟩ | ⟨w, k3, k4, rfl, h3, h4, rfl⟩
  · -- nobody was taken out of the queue, so the event is `freed`
    have hfree : ownerOf k' m = none := by
      rw [(recompute_only h3).own.owner, ownerOf_setOwner, if_pos rfl]
    cases hout with
    | foreign _ h => exact absurd ho h
    | unlock _ h =>
      have hlast : SameWaiting (setWaiters k2 m head) k' := (recompute_only h3).waiting
      exact (hlast t).trans ((hto2 t).trans hquiet.symm)
    | handover _ v h =>
      rw [hfree] at howner
      cases howner.trans (if_pos rfl)
  · have hk4 : ownerOf (requestIfAbove w cur k4) m = some w := by
      obtain ⟨kr, hr, hpi⟩ := handover_cases h3
      rw [(requestIfAbove_idle w cur k4).own.owner, (recompute_only h4).own.owner, (mutexApplyPi_idle hpi).own.owner,
        (schedMakeRunnable_restated hr).own.owner, (ownedAdd_links w m _).owner,
        (setWaitingOn_sameSync _ w none).own.owner, ownerOf_setOwner, if_pos rfl]
    cases hout with
    | foreign _ h => exact absurd ho h
    | unlock _ h =>
      rw [hk4] at howner
      cases howner.trans (if_pos rfl)
    | handover _ v h =>
      rw [hk4] at howner
      cases howner.trans (if_pos rfl)
      show waitingOf (requestIfAbove w cur k4) t = if t = w then none else waitingOf k t
      rw [requestIfAbove_waiting, (recompute_only h4).waiting, handover_waiting h3, hto2]

/-- What a call does to `waiting_on`. -/
theorem callBody_waiting (hc : k.cpu.currentThread = some cur) (h : callBody b fuel c k = .ok (k', r))
    (hout : Outcome k cur c r e) (heff : Effect cur k k' e) (t : ThreadId) : waitingOf k' t = waitingAfter cur k c r t e := by
  cases c with
  | mutexInit m =>
    simp only [callBody] at h
    split at h
    · cases h
      cases hout
      exact (if_neg fun hn => Bool.false_ne_true hn.2).symm
    · cases h
  | mutexLock m =>
    obtain ⟨⟨k1, got⟩, h1, h⟩ := bind_ok.mp h
    cases h
    rcases mutexLockPass_cases hc h1 with ⟨ho, rfl, rfl⟩ | ⟨ho, rfl, rfl⟩ | ⟨o, k2, k3, ho, hne, rfl, h2, h3, rfl⟩
    · cases hout with
      | relock _ h =>
        rw [waitingOf_setWaitingOn]
        simp [waitingAfter, clears]
      | lock _ h =>
        rw [h] at ho
        cases ho
    · cases hout with
      | relock _ h =>
        rw [h] at ho
        cases ho
      | lock _ h =>
        rw [waitingOf_acquire]
        simp [waitingAfter, clears]
    · cases hout
      have hc2 : k2.cpu.currentThread = some cur := (mutexApplyPi_idle h2).current.trans hc
      have hlast : SameWaiting k2 (k3.setNeedResched kNeedReschedNormal) :=
        (schedBlockCurrent_waiting hc2 h3).trans (SameWaiting.of_threads rfl)
      rw [hlast, mutexApplyPi_waiting h2, waitingOf_enqueue]
      rfl
  | mutexTrylock m =>
    cases h
    rcases mutexTrylock_cases (m := m) hc with ⟨ho, he⟩ | ⟨ho, he⟩ | ⟨-, ho, he⟩
    · rw [he] at hout ⊢
      rw [waitingOf_acquire]
      cases hout <;> simp [waitingAfter, clears]
    · rw [he] at hout ⊢
      rw [waitingOf_setWaitingOn]
      cases hout <;> simp [waitingAfter, clears]
    · rw [he] at hout ⊢
      cases hout
      simp [waitingAfter, clears]
  | mutexUnlock m =>
    obtain ⟨k1, h1, h⟩ := bind_ok.mp h
    cases h
    exact mutexUnlock_waiting hc h1 hout heff t
  | mutexSetPiEnabled m enabled =>
    obtain ⟨k1, h1, h⟩ := bind_ok.mp h
    cases h
    cases hout
    have hquiet : waitingAfter cur k (.mutexSetPiEnabled m enabled) (.value 0) t .quiet = waitingOf k t :=
      if_neg fun hn => Bool.false_ne_true hn.2
    rw [hquiet]
    unfold mutexSetPiEnabled at h1
    dsimp only at h1
    split at h1
    · cases h1
      rfl
    · exact (recompute_only h1).waiting t
  | semDown s =>
    obtain ⟨⟨k1, got⟩, h1, h⟩ := bind_ok.mp h
    cases h
    rcases semDown_cases hc h1 with ⟨hn, rfl, rfl⟩ | ⟨hn, rfl, k2, h2, rfl⟩
    · cases hout with
      | down _ hn' => exact (if_neg fun hn => Bool.false_ne_true hn.2).symm
      | downBlocks _ hn' => omega
    · cases hout with
      | down _ hn' => omega
      | downBlocks _ hn' =>
        have hc2 : (semEnqueue cur s (setCount k s ((k.sems s).count - 1))).cpu.currentThread = some cur := hc
        have hlast : SameWaiting _ (k2.setNeedResched kNeedReschedNormal) :=
          (schedBlockCurrent_waiting hc2 h2).trans (SameWaiting.of_threads rfl)
        rw [hlast, waitingOf_semEnqueue]
        rfl
  | semUp s =>
    obtain ⟨k1, h1, h⟩ := bind_ok.mp h
    cases h
    have hquiet : waitingAfter cur k (.semUp s) (.value 0) t e = waitingOf k t := by
      cases hout <;> exact if_neg fun hn => Bool.false_ne_true hn.2
    rw [hquiet]
    rcases semUp_cases hc h1 with ⟨-, rfl⟩ | ⟨-, k2, head, p, h2, h3⟩
    · rfl
    · have hto2 : SameWaiting k (k2.setSem s fun x => { x with waiters := head }) :=
        (SameWaiting.of_threads (k := k) rfl).trans ((waitqPopHighest_waiting h2).trans (SameWaiting.of_threads rfl))
      rcases h3 with ⟨-, rfl⟩ | ⟨w, k3, -, h3, h4⟩
      · exact hto2 t
      · have hto3 := hto2.trans (schedMakeRunnable_waiting h3)
        rcases h4 with rfl | rfl
        · exact hto3 t
        · exact (hto3.trans (requestIfAbove_waiting w cur k3)) t

end Calls

/-! ## Steps -/

section Threads

variable {b : Build} {fuel : Nat} {k k' : Kernel}

theorem schedReschedFromIrqTail_threads (h : schedReschedFromIrqTail b fuel k = .ok k') : k'.threads = k.threads := by
  unfold schedReschedFromIrqTail at h
  split at h
  · cases h
    rfl
  obtain ⟨r, -, h⟩ := bind_ok.mp h
  split at h
  · split at h
    · cases h
      rfl
    · cases h
      rfl
  · cases h
    rfl

theorem preemptEnable_threads (h : preemptEnable b fuel k = .ok k') : k'.threads = k.threads := by
  unfold preemptEnable at h
  split at h
  · cases h
    rfl
  · dsimp only at h
    split at h
    · exact (schedReschedFromIrqTail_threads h : _ = (k.setPreemptCnt _).threads)
    · cases h
      rfl

theorem threadYield_threads (h : threadYield b fuel k = .ok k') : k'.threads = k.threads := by
  unfold threadYield at h
  split at h
  · cases h
    rfl
  split at h
  · cases h
    rfl
  obtain ⟨r, -, h⟩ := bind_ok.mp h
  cases r with
  | none =>
    cases h
    rfl
  | some n =>
    dsimp only at h
    split at h
    · cases h
      rfl
    · cases h
      rfl

theorem irq_waiting {intid : Nat} {guardOk r : Bool} {k1 : Kernel} (h1 : irqHandlerEl1 b fuel guardOk intid k = .ok (k1, r))
    (h : (if r then preemptReturn b fuel k1 else .ok k1) = .ok k') : SameWaiting k k' := by
  refine (irqHandlerEl1_only h1).1.waiting.trans ?_
  cases r with
  | false =>
    cases h
    exact SameWaiting.refl _
  | true =>
    simp only [if_true, preemptReturn] at h
    split at h
    · exact SameWaiting.of_threads (schedReschedFromIrqTail_threads h)
    · cases h
      exact SameWaiting.refl _

theorem settle_waiting (s : Sys) (cur : ThreadId) (how : Susp) (k : Kernel) : SameWaiting k (s.settle cur how k).k := by
  rcases (s.settle_cases cur how k).1 with h | h
  · rw [h]
    exact SameWaiting.refl k
  · rw [h]
    exact SameWaiting.of_threads rfl

theorem Closing.waiting {c : Call} {k0 k2 k3 : Kernel} (h : Closing b fuel c k k0 k2 k3) : SameWaiting k2 k3 := by
  cases h with
  | unprotected _ _ _ h =>
    rw [h]
    exact SameWaiting.refl k2
  | enable _ h => exact SameWaiting.of_threads (preemptEnable_threads h)

end Threads

/-- A step, as far as owners and `waiting_on` go. -/
inductive WaitStep (s s' : Sys) (cur : ThreadId) (a : Act) : Prop
  | call (c : Call) (r : Ret) (e : Event) : CallStep s s' cur a c r e →
      (∀ t, waitingOf s'.k t = waitingAfter cur s.k c r t e) → WaitStep s s' cur a
  | other : SameOwn s.k s'.k → SameWaiting s.k s'.k → (∀ t m, s'.cont t = .locking m ↔ s.cont t = .locking m) →
      WaitStep s s' cur a

theorem Sys.step_waiting {b : Build} {fuel : Nat} {s s' : Sys} {a : Act} (h : s.step b fuel a = .ok s') :
    ∃ cur, s.k.cpu.currentThread = some cur ∧ WaitStep s s' cur a := by
  obtain ⟨cur, hcur, hcases⟩ := Sys.step_cases h
  refine ⟨cur, hcur, ?_⟩
  cases hcases with
  | call c r k0 k2 k3 hcall hb hcl hs =>
    subst hs
    have hend : SameSync k2 ((s.record cur c r).settle cur .tail k3).k := hcl.sync.trans (Sys.settle_sync _ cur .tail k3)
    have hwait : SameWaiting k2 ((s.record cur c r).settle cur .tail k3).k := hcl.waiting.trans (settle_waiting _ cur .tail k3)
    have h0 : SameSync s.k k0 ∧ k0.cpu.currentThread = some cur ∧ k0.threads = s.k.threads := by
      rcases hcl.before with rfl | rfl
      · exact ⟨SameSync.refl _, hcur, rfl⟩
      · exact ⟨SameSync.setPreemptCnt _ _, hcur, rfl⟩
    obtain ⟨e, hout, hdid⟩ := callBody_outcome h0.2.1 hb
    have heff := (hdid.toEffect.same hend.own hend.wait).before h0.1
    refine .call c r e (callStep_of hcall (hout.before h0.1) heff (Sys.settle_record _ cur .tail k3)) fun t => ?_
    rw [hwait, callBody_waiting h0.2.1 hb hout hdid.toEffect]
    have hk0 : waitingOf k0 = waitingOf s.k := by
      unfold waitingOf
      rw [h0.2.2]
    cases e with
    | blocked o => cases o <;> simp only [waitingAfter, hk0]
    | _ => simp only [waitingAfter, hk0]
  | finish c r ha hcont hs =>
    subst hs
    refine .other (SameOwn.refl _) (SameWaiting.refl _) fun t m => ?_
    by_cases ht : t = cur
    · subst ht
      simp [Sys.finish, hcont]
    · simp [Sys.finish, ht]
  | yield k ha hk hs =>
    subst hs
    have hsync := (threadYield_sync hk).trans (Sys.settle_sync s cur .yield k)
    have hwait := (SameWaiting.of_threads (threadYield_threads hk)).trans (settle_waiting s cur .yield k)
    refine .other hsync.own hwait fun t m => ?_
    rw [(Sys.settle_record s cur .yield k).cont]
  | irq intid guardOk r k1 k ha h1 hk hs =>
    subst hs
    have hsync := (irq_sync h1 hk).trans (Sys.settle_sync s cur .tail k)
    have hwait := (irq_waiting h1 hk).trans (settle_waiting s cur .tail k)
    refine .other hsync.own hwait fun t m => ?_
    rw [(Sys.settle_record s cur .tail k).cont]

/-! ## Never stale -/

/-- `waiting_on` names what its thread waits for. -/
def WaitingExact (s : Sys) : Prop := ∀ t m, waitingOf s.k t = some m ↔ waitsFor s t (.mutex m)

section Exact

variable {s s' : Sys} {cur : ThreadId} {a : Act} {c : Call} {r : Ret} {e : Event}

/-- Other threads' `waiting_on` only changes for the new owner of a mutex. -/
theorem waitingAfter_other (k : Kernel) (c : Call) (r : Ret) {t : ThreadId} (ht : t ≠ cur) (hn : e.wakes ≠ some t) :
    waitingAfter cur k c r t e = waitingOf k t := by
  have hquiet : (if t = cur ∧ clears c r then none else waitingOf k t) = waitingOf k t := if_neg fun hn => ht hn.1
  cases e with
  | blocked o => cases o <;> exact if_neg ht
  | handed m w => exact if_neg fun h => hn (by rw [h]; rfl)
  | _ => exact hquiet

/-- A caller that was waiting for a mutex gets it now, or blocks again. -/
theorem CallStep.caller_was_waiting (h : CallStep s s' cur a c r e) {m : MutexId} (hw : waitsFor s cur (.mutex m)) :
    e = .blocked (.mutex m) ∨ e = .taken m ∧ clears c r = true := by
  obtain ⟨n, hn, rfl⟩ := h.calling.waiting hw
  cases hn
  have hout := h.out
  cases hout with
  | relock _ ho => exact absurd ho hw.2
  | lock _ ho => exact Or.inr ⟨rfl, rfl⟩
  | lockBlocks _ o ho hne => exact Or.inl rfl

theorem CallStep.waitingExact (h : CallStep s s' cur a c r e) (hi : WaitInv s) (hr : isReady s.k cur) (hx : WaitingExact s)
    (hw : ∀ t, waitingOf s'.k t = waitingAfter cur s.k c r t e) : WaitingExact s' := by
  intro t m
  rw [hw]
  by_cases ht : t = cur
  · subst ht
    by_cases hb : ∃ o, e = .blocked o
    · obtain ⟨o, rfl⟩ := hb
      have hwait := h.caller_waits rfl
      cases o with
      | mutex n =>
        show (if t = t then some n else _) = some m ↔ _
        rw [if_pos rfl]
        constructor
        · intro hnm
          cases hnm
          exact hwait
        · intro hm
          cases waitsFor_unique hwait hm
          rfl
      | sem σ =>
        show (if t = t then none else _) = some m ↔ _
        rw [if_pos rfl]
        constructor
        · intro hn
          cases hn
        · intro hm
          cases waitsFor_unique hwait hm
    · -- it waits for nothing now, and its `waiting_on` is null
      have hno : ¬ waitsFor s' t (.mutex m) := fun hm => hb ⟨_, h.caller_blocked (Steady.of_ready hr) hm⟩
      have hnull : waitingAfter t s.k c r t e ≠ some m := by
        intro hm
        have hold : ∀ n, waitingOf s.k t = some n → clears c r = true := by
          intro n hn
          rcases h.caller_was_waiting ((hx t n).mp hn) with he | ⟨-, hcl⟩
          · exact absurd ⟨_, he⟩ hb
          · exact hcl
        have hquiet : (if t = t ∧ clears c r then none else waitingOf s.k t) ≠ some m := by
          intro hm
          split at hm
          · cases hm
          · rename_i hcl
            exact hcl ⟨rfl, hold m hm⟩
        cases e with
        | blocked o => exact hb ⟨o, rfl⟩
        | handed n w =>
          rw [waitingAfter] at hm
          split at hm
          · cases hm
          · have hcl := hold m hm
            have hout := h.out
            cases hout
            cases hcl
        | _ => exact hquiet hm
      exact iff_of_false hnull hno
  · by_cases hv : e.wakes = some t
    · obtain ⟨o, hwo, -, hno, ho⟩ := h.woken_waited hi hv
      rcases ho with ⟨n, rfl, rfl⟩ | ⟨σ, rfl, rfl⟩
      · cases hv
        show (if t = t then none else _) = some m ↔ _
        rw [if_pos rfl]
        refine iff_of_false (fun hn => by cases hn) fun hm => ?_
        cases waitsFor_unique hwo (h.waited ht hm)
        exact hno hm
      · -- woken from a semaphore: it was waiting for no mutex
        have hnone : ∀ n, ¬ waitsFor s t (.mutex n) := by
          intro n hn
          cases waitsFor_unique hwo hn
        have hsame : waitingAfter cur s.k c r t (.woken σ t) = waitingOf s.k t := if_neg fun hn => ht hn.1
        rw [hsame]
        exact iff_of_false (fun hm => hnone m ((hx t m).mp hm)) fun hm => hnone m (h.waited ht hm)
    · rw [waitingAfter_other s.k c r ht hv, hx]
      exact ⟨fun hm => h.still_waits ht hm hv, h.waited ht⟩

end Exact

theorem spawn_waiting {k k' : Kernel} {t : ThreadId × Int} (h : ∀ u, waitingOf k u = none) (hs : spawn k t = .ok k') (u : ThreadId) :
    waitingOf k' u = none := by
  have hadd : SameWaiting (k.setThread t.1 fun _ => threadCreatePrio t.2) k' := by
    refine (SameWaiting.setThread _ t.1 fun x => ?_).trans (rqAppend_rqOnly hs).waiting
    split <;> rfl
  rw [hadd]
  unfold waitingOf
  rw [Kernel.setThread_threads]
  split
  · rfl
  · exact h u

theorem spawns_waiting {ts : List (ThreadId × Int)} {k k' : Kernel} (h : ∀ u, waitingOf k u = none)
    (hs : ts.foldlM spawn k = .ok k') : ∀ u, waitingOf k' u = none := by
  induction ts generalizing k with
  | nil =>
    cases hs
    exact h
  | cons t ts ih =>
    rw [List.foldlM_cons] at hs
    obtain ⟨k1, h1, hs⟩ := bind_ok.mp hs
    exact ih (spawn_waiting h h1) hs

theorem boot_waiting {b : Build} {fuel : Nat} {ts : List (ThreadId × Int)} {counts : SemId → Int} {s : Sys}
    (h : boot b fuel ts counts = .ok s) (t : ThreadId) : waitingOf s.k t = none := by
  obtain ⟨-, k, hk, hst⟩ := boot_cases h
  obtain ⟨cur, -, hso, -⟩ := schedStart_cases hst
  rw [hso.waiting]
  exact spawns_waiting (fun u => rfl) hk t

/-- With another READY thread whenever one blocks, `waiting_on` is never stale. -/
theorem waiting_exact {b : Build} {ok : Sys → Act → Prop} {ts : List (ThreadId × Int)} {counts : SemId → Int} {s : Sys}
    (hok : ∀ s a, ok s a → OtherReady ts s a) (h : Run b ok ts counts s) : WaitingExact s := by
  induction h with
  | boot fuel hn hb =>
    intro t m
    rw [boot_waiting hb]
    exact iff_of_false (fun hm => by cases hm) fun hm => waitsFor_inside hm ((boot_cases hb).1.cont t)
  | step a fuel hrun hoka hs ih =>
    obtain ⟨hi, l, cur, hl, hr⟩ := awake_run hok hrun
    obtain ⟨cur', hcur, hst⟩ := Sys.step_waiting hs
    rw [hl.current] at hcur
    cases hcur
    cases hst with
    | call c r e hc hw => exact hc.waitingExact hi hr ih hw
    | other ho hw hcont =>
      intro t m
      rw [hw, ih]
      simp only [waitsFor, hcont, ho.owner]

/-! ## Cycles -/

section Cycles

variable {s s' : Sys} {cur : ThreadId} {a : Act} {c : Call} {r : Ret} {e : Event}

theorem not_waitsOn_of_none {k : Kernel} {t : ThreadId} (h : waitingOf k t = none) (u : ThreadId) : ¬ waitsOn k t u := by
  rintro ⟨m, hm, -⟩
  rw [h] at hm
  cases hm

theorem waitsOn.congr {k k' : Kernel} (ho : ∀ m, ownerOf k' m = ownerOf k m) (hw : SameWaiting k k') (t u : ThreadId) :
    waitsOn k' t u ↔ waitsOn k t u := by
  simp only [waitsOn, hw t, ho]

/-- `cur` with `waiting_on == m`, before it has blocked. -/
theorem waitsOn_setWaitingOn (k : Kernel) (cur : ThreadId) {m : MutexId} {o : ThreadId} (ho : ownerOf k m = some o) (t u : ThreadId) :
    waitsOn (setWaitingOn k cur (some m)) t u ↔ t = cur ∧ u = o ∨ t ≠ cur ∧ waitsOn k t u := by
  have hown : ∀ n, ownerOf (setWaitingOn k cur (some m)) n = ownerOf k n := (setWaitingOn_sameSync k cur (some m)).own.owner
  simp only [waitsOn, hown, waitingOf_setWaitingOn]
  by_cases ht : t = cur
  · simp [ht, ho, eq_comm]
  · simp [ht]

/-- What a step does to the wait-for graph: edges go away, or lead to a new owner that waits for nobody, or are the
    caller's who blocks. -/
inductive EdgeStep (s s' : Sys) (cur : ThreadId) (a : Act) : Prop
  | fewer : (∀ t u, waitsOn s'.k t u → waitsOn s.k t u) → EdgeStep s s' cur a
  | intoSink (w : ThreadId) : (∀ u, ¬ waitsOn s'.k w u) → (∀ t u, waitsOn s'.k t u → waitsOn s.k t u ∨ u = w) →
      EdgeStep s s' cur a
  | blocks (m : MutexId) : blocksOn s a = some (.mutex m) →
      (∀ t u, waitsOn s'.k t u → waitsOn (setWaitingOn s.k cur (some m)) t u) → EdgeStep s s' cur a

/-- A call that does not block: whoever owns a mutex anew waits for nobody. -/
theorem CallStep.edges (h : CallStep s s' cur a c r e) (hw : ∀ t, waitingOf s'.k t = waitingAfter cur s.k c r t e)
    (hb : ∀ o, e ≠ .blocked o) : EdgeStep s s' cur a := by
  have hsub : ∀ t m, waitingOf s'.k t = some m → waitingOf s.k t = some m := by
    intro t m hm
    rw [hw] at hm
    have hquiet : (if t = cur ∧ clears c r then none else waitingOf s.k t) = some m → waitingOf s.k t = some m := by
      intro hm
      split at hm
      · cases hm
      · exact hm
    cases e with
    | blocked o => exact absurd rfl (hb o)
    | handed n w =>
      rw [waitingAfter] at hm
      split at hm
      · cases hm
      · exact hm
    | _ => exact hquiet hm
  have hkeep : (∀ m u, ownerOf s'.k m = some u → ownerOf s.k m = some u) → EdgeStep s s' cur a := by
    intro ho
    refine .fewer fun t u htu => ?_
    obtain ⟨m, hm, hu⟩ := htu
    exact ⟨m, hsub t m hm, ho m u hu⟩
  have howner := h.eff.owner
  -- a new owner `w` of `n`, whose own `waiting_on` is null
  have hnew : ∀ n w, waitingOf s'.k w = none → (∀ m, ownerOf s'.k m = if m = n then some w else ownerOf s.k m) →
      EdgeStep s s' cur a := by
    intro n w hnone hown
    refine .intoSink w (not_waitsOn_of_none hnone) fun t u htu => ?_
    obtain ⟨m, hm, hu⟩ := htu
    rw [hown] at hu
    split at hu
    · cases hu
      exact Or.inr rfl
    · exact Or.inl ⟨m, hsub t m hm, hu⟩
  cases e with
  | blocked o => exact absurd rfl (hb o)
  | taken n =>
    refine hnew n cur ?_ howner
    have hcl : clears c r = true := by
      have hout := h.out
      cases hout <;> rfl
    rw [hw]
    exact if_pos ⟨rfl, hcl⟩
  | handed n w => exact hnew n w ((hw w).trans (if_pos rfl)) howner
  | freed n =>
    refine hkeep fun m u hu => ?_
    rw [howner, Event.ownerAfter] at hu
    split at hu
    · cases hu
    · exact hu
  | _ => exact hkeep fun m u hu => (howner m).symm.trans hu

theorem Sys.step_edges {b : Build} {fuel : Nat} (hs : s.step b fuel a = .ok s') :
    ∃ cur, s.k.cpu.currentThread = some cur ∧ EdgeStep s s' cur a := by
  obtain ⟨cur, hcur, hst⟩ := Sys.step_waiting hs
  refine ⟨cur, hcur, ?_⟩
  cases hst with
  | other ho hw _ => exact .fewer fun t u => (waitsOn.congr ho.owner hw t u).mp
  | call c r e hc hw =>
    by_cases hb : ∃ o, e = .blocked o
    · obtain ⟨o, rfl⟩ := hb
      have hblk : blocksOn s a = some o := by
        rw [hc.calling.blocksOn hcur, hc.out.blocks]
        rfl
      cases o with
      | mutex m =>
        refine .blocks m hblk fun t u htu => (waitsOn.congr (k := setWaitingOn s.k cur (some m)) ?_ ?_ t u).mp htu
        · intro n
          exact (hc.eff.owner n).trans ((setWaitingOn_sameSync s.k cur (some m)).own.owner n).symm
        · intro t
          rw [hw, waitingOf_setWaitingOn]
          rfl
      | sem σ =>
        refine .fewer fun t u htu => ?_
        obtain ⟨m, hm, hu⟩ := htu
        rw [hw] at hm
        have hm' : (if t = cur then none else waitingOf s.k t) = some m := hm
        split at hm'
        · cases hm'
        · exact ⟨m, hm', (hc.eff.owner m).symm.trans hu⟩
    · exact hc.edges hw fun o ho => hb ⟨o, ho⟩

/-- A step closes no cycle, unless its caller blocks on a mutex whose owner leads back to it. -/
theorem acyclic_step {b : Build} {fuel : Nat} (hg : Acyclic (waitsOn s.k)) (hcur : s.k.cpu.currentThread = some cur)
    (hclose : ∀ m, blocksOn s a = some (.mutex m) → Acyclic (waitsOn (setWaitingOn s.k cur (some m))))
    (hs : s.step b fuel a = .ok s') : Acyclic (waitsOn s'.k) := by
  obtain ⟨cur', hcur', hst⟩ := Sys.step_edges hs
  rw [hcur] at hcur'
  cases hcur'
  cases hst with
  | fewer h => exact hg.mono h
  | intoSink w hw h => exact hg.into_sink h hw
  | blocks m hblk h => exact (hclose m hblk).mono h

end Cycles

end Microkernel

/-
  Microkernel.Calls.Inheritance — priority inheritance goes one level.

  With MUTEX_PI an operation recomputes the priority of the threads it concerns: the
  owner when a thread blocks, the new and the old owner when a mutex is unlocked
  (`Event.recomputes`). It does not go on to the owner that such a thread itself waits
  for. The runs are those of `mutex_lock`, `mutex_trylock` and `mutex_unlock` with
  inheritance enabled on every mutex, in which a thread only blocks on a mutex nobody
  waits for (`PiStep`).

  Proved (`inheritance_one_level`): an effective priority is at least the base priority
  and at most the maximum of it and the waiters' effective priorities; it is that
  maximum if no waiter owns a contended mutex; what an operation recomputes is exact;
  and an exact priority stays exact unless a thread blocks on a mutex whose owner waits
  for this one. `donation_stops_at_blocked_owner` is a chain of two.
-/

import Microkernel.Calls.Ownership
import Microkernel.Calls.Waiters

namespace Microkernel

open Linked

/-! ## Donors -/

/-- `w` is at the head of the queue of a mutex of `t`. -/
def Donates (k : Kernel) (w t : ThreadId) : Prop := ∃ m, ownerOf k m = some t ∧ waitersOf k (.mutex m) = some w

/-- The priorities `t` is offered. -/
def offers (k : Kernel) (t : ThreadId) : Set Int := {v | ∃ w, Donates k w t ∧ effPrio k w = v}

/-- `t`'s effective priority is the maximum of its base priority and what it is offered. -/
def PrioExact (k : Kernel) (t : ThreadId) : Prop := IsGreatest (insert (basePrio k t) (offers k t)) (effPrio k t)

/-- Every queue holds at most one thread. -/
def SingleWaiter (k : Kernel) : Prop := ∀ o w, waitersOf k o = some w → waitNextOf k w = none

/-- Queues of one thread; the waiters are not the owner, not the caller, and wait once. -/
structure Heads (k : Kernel) (cur : ThreadId) : Prop where
  single : SingleWaiter k
  notOwner : ∀ m w, waitersOf k (.mutex m) = some w → ownerOf k m ≠ some w
  notCaller : ∀ o, waitersOf k o ≠ some cur
  once : ∀ o p w, waitersOf k o = some w → waitersOf k p = some w → o = p
  free : ∀ m, ownerOf k m = none → waitersOf k (.mutex m) = none

def AllPi (k : Kernel) : Prop := ∀ m, (k.mutexes m).piEnabled = true

theorem Heads.donor_ne {k : Kernel} {cur w t : ThreadId} (h : Heads k cur) (hd : Donates k w t) : w ≠ t ∧ w ≠ cur := by
  obtain ⟨m, ho, hw⟩ := hd
  refine ⟨fun e => h.notOwner m w hw (by rw [ho, e]), fun e => h.notCaller (.mutex m) (by rw [hw, e])⟩

/-- A thread waits for one owner. -/
theorem Heads.donor_unique {k : Kernel} {cur w t u : ThreadId} (h : Heads k cur) (h1 : Donates k w t) (h2 : Donates k w u) :
    t = u := by
  obtain ⟨m, ho, hw⟩ := h1
  obtain ⟨n, ho', hw'⟩ := h2
  have hmn := h.once _ _ w hw hw'
  cases hmn
  exact Option.some.inj (ho.symm.trans ho')

theorem Donates.congr {k k' : Kernel} {t : ThreadId} (ho : ∀ m, ownerOf k' m = ownerOf k m)
    (hw : ∀ m, waitersOf k' (.mutex m) = waitersOf k (.mutex m)) (w : ThreadId) : Donates k' w t ↔ Donates k w t := by
  constructor
  · intro h
    obtain ⟨m, h1, h2⟩ := h
    exact ⟨m, (ho m).symm.trans h1, (hw m).symm.trans h2⟩
  · intro h
    obtain ⟨m, h1, h2⟩ := h
    exact ⟨m, (ho m).trans h1, (hw m).trans h2⟩

/-- Exactness only depends on the thread, its donors and their priorities. -/
theorem PrioExact.congr {k k' : Kernel} {t : ThreadId} (h : IsGreatest (insert (basePrio k t) (offers k t)) (effPrio k' t))
    (hb : basePrio k' t = basePrio k t) (hd : ∀ w, Donates k' w t ↔ Donates k w t)
    (he : ∀ w, Donates k w t → effPrio k' w = effPrio k w) : PrioExact k' t := by
  have hset : offers k' t = offers k t := by
    ext v
    constructor
    · intro hv
      obtain ⟨w, hw, rfl⟩ := hv
      have hw' := (hd w).mp hw
      exact ⟨w, hw', (he w hw').symm⟩
    · intro hv
      obtain ⟨w, hw, rfl⟩ := hv
      exact ⟨w, (hd w).mpr hw, he w hw⟩
  unfold PrioExact
  rw [hb, hset]
  exact h

/-- What `recompute_effective_priority` sets, when queues hold one thread. -/
theorem recompute_offers {b : Build} (hb : b.mutexPi = true) {fuel : Nat} {t : ThreadId} {k k' : Kernel} (hpi : AllPi k)
    (hl : OwnerLists k none) (hs : SingleWaiter k) (h : recomputeEffectivePriority b fuel t k = .ok k') :
    IsGreatest (insert (basePrio k t) (offers k t)) (effPrio k' t) := by
  obtain ⟨ms, hms, hmem⟩ := hl t
  have hg := recompute_spec hb hms h
  have hset : {v | ∃ m ∈ ms, v ∈ queuedPrios k m} = offers k t := by
    ext v
    constructor
    · intro hv
      obtain ⟨m, hm, -, ws, hws, w, hw, he⟩ := hv
      cases hq : waitersOf k (.mutex m) with
      | none =>
        have hq' : (k.mutexes m).waiters = none := hq
        rw [hq', chain_none] at hws
        rw [hws] at hw
        cases hw
      | some u =>
        have hone : Chain (waitNextOf k) (k.mutexes m).waiters [u] := ⟨hq, hs _ u hq⟩
        rw [Chain.unique hws hone] at hw
        rw [List.mem_singleton.mp hw] at he
        exact ⟨u, ⟨m, ((hmem m).mp hm).1, hq⟩, he⟩
    · intro hv
      obtain ⟨w, ⟨m, ho, hw⟩, he⟩ := hv
      exact ⟨m, (hmem m).mpr ⟨ho, fun e => by cases e⟩, hpi m, [w], ⟨hw, hs _ w hw⟩, w, List.mem_cons_self, he⟩
  rwa [hset] at hg

/-- A recomputation is exact if no donor is the thread itself. -/
theorem recompute_exact {b : Build} (hb : b.mutexPi = true) {fuel : Nat} {t : ThreadId} {k k' : Kernel} (hpi : AllPi k)
    (hl : OwnerLists k none) (hs : SingleWaiter k) (hne : ∀ w, Donates k w t → w ≠ t)
    (h : recomputeEffectivePriority b fuel t k = .ok k') : PrioExact k' t := by
  have honly := recompute_only h
  exact PrioExact.congr (recompute_offers hb hpi hl hs h) (honly.base t)
    (Donates.congr honly.own.owner fun m => honly.wait.waiters _) fun w hw => honly.eff_other (hne w hw)

/-! ## One call -/

/-- Whose priority an event has recomputed. -/
def Event.recomputes (cur : ThreadId) (k : Kernel) (t : ThreadId) : Event → Prop
  | .blocked (.mutex m) => ownerOf k m = some t
  | .freed _ => t = cur
  | .handed _ w => t = cur ∨ t = w
  | _ => False

/-- What an event does to the priorities. -/
structure PrioStep (cur : ThreadId) (k k' : Kernel) (e : Event) : Prop where
  base : ∀ t, basePrio k' t = basePrio k t
  pi : AllPi k'
  kept : ∀ t, ¬ e.recomputes cur k t → effPrio k' t = effPrio k t
  exact : ∀ t, e.recomputes cur k t → PrioExact k' t

theorem PrioStep.quiet {cur : ThreadId} {k k' : Kernel} {e : Event} (hpi : AllPi k) (h : SamePrio k k')
    (he : ∀ t, ¬ e.recomputes cur k t) : PrioStep cur k k' e :=
  ⟨h.base, fun m => (h.pi m).trans (hpi m), fun t _ => h.eff t, fun t ht => absurd ht (he t)⟩

theorem acquire_prio (cur : ThreadId) (m : MutexId) (k : Kernel) : SamePrio k (acquire cur m k) :=
  ((setOwner_prio k m _).trans (ownedAdd_links cur m _).prio).trans (setWaitingOn_sameSync _ cur none).prio

theorem enqueue_prio (cur : ThreadId) (m : MutexId) (k : Kernel) : SamePrio k (enqueue cur m k) :=
  ((setWaitingOn_sameSync k cur _).prio.trans (setWaitNext_prio _ cur _)).trans (setWaiters_prio _ m _)

section Body

variable {b : Build} {fuel : Nat} {m : MutexId} {cur : ThreadId} {k k' : Kernel}

/-- A caller that blocks has the owner's priority recomputed. -/
theorem prioStep_blocked (hb : b.mutexPi = true) {o : ThreadId} {k1 k2 : Kernel} (hc : k.cpu.currentThread = some cur)
    (hpi : AllPi k) (hl : OwnerLists k none) (hh : Heads k cur) (ho : ownerOf k m = some o) (hne : o ≠ cur)
    (hquiet : waitersOf k (.mutex m) = none) (h1 : mutexApplyPi b fuel m (enqueue cur m k) = .ok k1)
    (h2 : schedBlockCurrent fuel k1 = .ok k2) : PrioStep cur k (k2.setNeedResched kNeedReschedNormal) (.blocked (.mutex m)) := by
  have hq := enqueue_enqueued cur m k
  have hp := enqueue_prio cur m k
  have hpi0 : AllPi (enqueue cur m k) := fun n => (hp.pi n).trans (hpi n)
  have hrec : recomputeEffectivePriority b fuel o (enqueue cur m k) = .ok k1 := by
    rcases mutexApplyPi_cases h1 with ⟨-, hoff | hnone⟩ | ⟨p, hp', hr⟩
    · rw [hpi0 m] at hoff
      cases hoff
    · rw [hq.own.owner, ho] at hnone
      cases hnone
    · rw [hq.own.owner, ho] at hp'
      cases hp'
      exact hr
  have hsingle : SingleWaiter (enqueue cur m k) := by
    intro p w hw
    rw [hq.waiters] at hw
    rw [hq.waitNext]
    split at hw
    · cases hw
      rw [if_pos rfl, hquiet]
    · rw [if_neg fun e => hh.notCaller p (by rw [hw, e])]
      exact hh.single p w hw
  have hdonor : ∀ w, Donates (enqueue cur m k) w o → w ≠ o := by
    intro w hw
    obtain ⟨n, hn, hwn⟩ := hw
    rw [hq.own.owner] at hn
    rw [hq.waiters] at hwn
    split at hwn
    · cases hwn
      exact fun e => hne e.symm
    · exact fun e => hh.notOwner n w hwn (by rw [hn, e])
  have hexact := recompute_exact hb hpi0 (hl.congr hq.own) hsingle hdonor hrec
  have honly := recompute_only hrec
  have hc1 : k1.cpu.currentThread = some cur := by rw [honly.run.cpu, hq.run.cpu, hc]
  have hblk := schedBlockCurrent_restated hc1 h2
  refine ⟨fun t => (hblk.prio.base t).trans ((honly.base t).trans (hp.base t)), fun n => ?_, fun t ht => ?_, fun t ht => ?_⟩
  · have hn := hblk.prio.pi n
    rw [honly.pi] at hn
    exact hn.trans (hpi0 n)
  · exact (hblk.prio.eff t).trans ((honly.eff_other fun e => ht (by rw [e]; exact ho)).trans (hp.eff t))
  · have hto : t = o := Option.some.inj (ht.symm.trans ho)
    subst hto
    have hg : IsGreatest (insert (basePrio k1 t) (offers k1 t)) (effPrio (k2.setNeedResched kNeedReschedNormal) t) := by
      rw [show effPrio (k2.setNeedResched kNeedReschedNormal) t = effPrio k1 t from hblk.prio.eff t]
      exact hexact
    exact PrioExact.congr hg (hblk.prio.base t) (Donates.congr hblk.own.owner fun n => hblk.waiters (.mutex n))
      fun w _ => hblk.prio.eff w

/-- A freed mutex: the caller's priority is recomputed. -/
theorem prioStep_freed (hb : b.mutexPi = true) {km : Kernel} (hpi : AllPi k) (hl : OwnerLists k none) (hh : Heads k cur)
    (hd : Did cur k km (.freed m)) (hp : SamePrio k km) (h : recomputeEffectivePriority b fuel cur km = .ok k') :
    PrioStep cur k k' (.freed m) := by
  have hq : SameQueues k km := hd.queues.2
  have honly := recompute_only h
  have hsingle : SingleWaiter km := fun p w hw => (hq.waitNext w).trans (hh.single p w ((hq.waiters p).symm.trans hw))
  have hpim : AllPi km := fun n => (hp.pi n).trans (hpi n)
  refine ⟨fun t => (honly.base t).trans (hp.base t), fun n => ?_, fun t ht => ?_, fun t ht => ?_⟩
  · rw [honly.pi]
    exact hpim n
  · exact (honly.eff_other ht).trans (hp.eff t)
  · cases ht
    refine recompute_exact hb hpim (hd.lists hl) hsingle (fun w hw e => ?_) h
    obtain ⟨n, -, hwn⟩ := hw
    exact hh.notCaller (.mutex n) (by rw [← hq.waiters, hwn, e])

/-- A mutex handed over: first the new owner's, then the caller's priority is recomputed. -/
theorem prioStep_handed (hb : b.mutexPi = true) {w : ThreadId} {km k3 k4 : Kernel} (hpi : AllPi k) (hl : OwnerLists k none)
    (hh : Heads k cur) (hd : Did cur k km (.handed m w)) (hp : SamePrio k km) (h1 : mutexApplyPi b fuel m km = .ok k3)
    (h2 : recomputeEffectivePriority b fuel cur k3 = .ok k4) (h3 : k' = requestIfAbove w cur k4) :
    PrioStep cur k k' (.handed m w) := by
  have hpop : Popped (.mutex m) w k km := hd.queues
  obtain ⟨hwm, hempty, hnext⟩ := Popped.single hpop fun v hv => hh.single _ v hv
  have hwc : w ≠ cur := fun e => hh.notCaller _ (by rw [hwm, e])
  have hpim : AllPi km := fun n => (hp.pi n).trans (hpi n)
  -- who is still in a queue
  have hhead : ∀ p u, waitersOf km p = some u → waitersOf k p = some u ∧ u ≠ w := by
    intro p u hu
    have hpm : p ≠ .mutex m := by
      intro e
      rw [e, hempty] at hu
      cases hu
    have huk := (hpop.waiters p hpm).symm.trans hu
    exact ⟨huk, fun e => hpm (hh.once p _ w (by rw [huk, e]) hwm)⟩
  have hsingle : SingleWaiter km := fun p u hu => (hnext u (hhead p u hu).2).trans (hh.single p u (hhead p u hu).1)
  have hrec : recomputeEffectivePriority b fuel w km = .ok k3 := by
    have how : ownerOf km m = some w := (hd.owner m).trans (if_pos rfl)
    rcases mutexApplyPi_cases h1 with ⟨-, hoff | hnone⟩ | ⟨p, hp', hr⟩
    · rw [hpim m] at hoff
      cases hoff
    · rw [how] at hnone
      cases hnone
    · rw [how] at hp'
      cases hp'
      exact hr
  have hw3 := recompute_exact hb hpim (hd.lists hl) hsingle (fun u hu => by
    obtain ⟨n, -, hun⟩ := hu
    exact (hhead _ u hun).2) hrec
  have hon3 := recompute_only hrec
  have hon4 := recompute_only h2
  have hcallers : ∀ u t, Donates k3 u t → u ≠ cur := by
    intro u t hu e
    obtain ⟨n, -, hun⟩ := hu
    rw [hon3.wait.waiters] at hun
    exact hh.notCaller _ (by rw [(hhead _ u hun).1, e])
  have hpi3 : AllPi k3 := fun n => by rw [hon3.pi]; exact hpim n
  have hc4 := recompute_exact hb hpi3 ((hd.lists hl).congr hon3.own)
    (fun p u hu => (hon3.wait.waitNext u).trans (hsingle p u ((hon3.wait.waiters p).symm.trans hu)))
    (fun u hu => hcallers u cur hu) h2
  have hw4 : PrioExact k4 w := by
    have hg : IsGreatest (insert (basePrio k3 w) (offers k3 w)) (effPrio k4 w) := by
      rw [hon4.eff_other hwc]
      exact hw3
    exact PrioExact.congr hg (hon4.base w) (Donates.congr hon4.own.owner fun n => hon4.wait.waiters _)
      fun u hu => hon4.eff_other (hcallers u w hu)
  have hsync : SameSync k4 k' := by
    rcases requestIfAbove_cases w cur k4 with he | he
    · rw [h3, he]
      exact SameSync.refl k4
    · rw [h3, he]
      exact SameSync.setNeedResched k4 _
  refine ⟨fun t => ?_, fun n => ?_, fun t ht => ?_, fun t ht => ?_⟩
  · rw [hsync.prio.base, hon4.base, hon3.base, hp.base]
  · rw [hsync.prio.pi, hon4.pi]
    exact hpi3 n
  · have htc : t ≠ cur := fun e => ht (Or.inl e)
    have htw : t ≠ w := fun e => ht (Or.inr e)
    rw [hsync.prio.eff, hon4.eff_other htc, hon3.eff_other htw, hp.eff]
  · have hex : PrioExact k4 t := by
      rcases ht with rfl | rfl
      · exact hc4
      · exact hw4
    have hg : IsGreatest (insert (basePrio k4 t) (offers k4 t)) (effPrio k' t) := by
      rw [hsync.prio.eff]
      exact hex
    exact PrioExact.congr hg (hsync.prio.base t) (Donates.congr hsync.own.owner fun n => hsync.wait.waiters _)
      fun u _ => hsync.prio.eff u

end Body

/-- A call of the mutex interface, `mutex_init` and `mutex_set_pi_enabled` apart. -/
inductive LockCall : Call → Prop
  | lock (m : MutexId) : LockCall (.mutexLock m)
  | trylock (m : MutexId) : LockCall (.mutexTrylock m)
  | unlock (m : MutexId) : LockCall (.mutexUnlock m)

/-- Every such call has an outcome, and does to owners, queues and priorities what its
    event says. -/
theorem callBody_prio {b : Build} {fuel : Nat} {c : Call} {k k' : Kernel} {r : Ret} {cur : ThreadId} (hb : b.mutexPi = true)
    (hc : k.cpu.currentThread = some cur) (hlock : LockCall c) (hpi : AllPi k) (hl : OwnerLists k none) (hh : Heads k cur)
    (hquiet : ∀ o, callBlocks k cur c = some o → waitersOf k o = none) (h : callBody b fuel c k = .ok (k', r)) :
    ∃ e, Outcome k cur c r e ∧ Effect cur k k' e ∧ PrioStep cur k k' e := by
  cases hlock with
  | lock m =>
    obtain ⟨⟨k1, got⟩, h1, h⟩ := bind_ok.mp h
    cases h
    rcases mutexLockPass_cases hc h1 with ⟨ho, rfl, rfl⟩ | ⟨ho, rfl, rfl⟩ | ⟨o, k2, k3, ho, hne, rfl, h2, h3, rfl⟩
    · exact ⟨_, .relock m ho, (did_waitingOn cur k none).toEffect,
        PrioStep.quiet hpi (setWaitingOn_sameSync k cur none).prio fun _ h => h⟩
    · exact ⟨_, .lock m ho, (did_taken ho).toEffect, PrioStep.quiet hpi (acquire_prio cur m k) fun _ h => h⟩
    · have hempty : waitersOf k (.mutex m) = none := by
        apply hquiet
        have hout : Outcome k cur (.mutexLock m) (.again m) (.blocked (.mutex m)) := .lockBlocks m o ho hne
        exact hout.blocks
      have hq' : Enqueued cur (.mutex m) k k2 := by
        rcases mutexApplyPi_cases h2 with ⟨rfl, -⟩ | ⟨p, -, hp⟩
        · exact enqueue_enqueued cur m k
        · exact (enqueue_enqueued cur m k).eff (recompute_only hp)
      exact ⟨_, .lockBlocks m o ho hne, (did_blocked hc hq' h3).toEffect,
        prioStep_blocked hb hc hpi hl hh ho hne hempty h2 h3⟩
  | trylock m =>
    cases h
    rcases mutexTrylock_cases (m := m) hc with ⟨ho, he⟩ | ⟨ho, he⟩ | ⟨-, ho, he⟩
    · rw [he]
      exact ⟨_, .trylock m ho, (did_taken ho).toEffect, PrioStep.quiet hpi (acquire_prio cur m k) fun _ h => h⟩
    · rw [he]
      exact ⟨_, .retry m ho, (did_waitingOn cur k none).toEffect,
        PrioStep.quiet hpi (setWaitingOn_sameSync k cur none).prio fun _ h => h⟩
    · rw [he]
      exact ⟨_, .busy m ho, (did_quiet (SameOwn.refl k) (fun _ => rfl) (SameWait.refl k).queues (SameRun.refl k)).toEffect,
        PrioStep.quiet hpi (SamePrio.refl k) fun _ h => h⟩
  | unlock m =>
    obtain ⟨k1, h1, h⟩ := bind_ok.mp h
    cases h
    rcases mutexUnlock_did hc h1 with ⟨ho, rfl⟩ | ⟨ho, ⟨km, hd, hp, h2⟩ | ⟨w, km, k3, k4, hd, hp, h2, h3, h4⟩⟩
    · exact ⟨_, .foreign m ho, (did_quiet (SameOwn.refl _) (fun _ => rfl) (SameWait.refl _).queues (SameRun.refl _)).toEffect,
        PrioStep.quiet hpi (SamePrio.refl _) fun _ h => h⟩
    · exact ⟨_, .unlock m ho, (hd.idle (recompute_only h2).idle).toEffect, prioStep_freed hb hpi hl hh hd hp h2⟩
    · have hidle := ((hd.idle (mutexApplyPi_idle h2)).idle (recompute_only h3).idle).idle (requestIfAbove_idle w cur k4)
      rw [← h4] at hidle
      exact ⟨_, .handover m w ho, hidle.toEffect, prioStep_handed hb hpi hl hh hd hp h2 h3 h4⟩

/-! ## Between recomputations -/

/-- What holds of priorities at all times. -/
structure OneLevel (k : Kernel) : Prop where
  low : ∀ t, basePrio k t ≤ effPrio k t
  high : ∀ t, effPrio k t = basePrio k t ∨ ∃ w, Donates k w t ∧ effPrio k t ≤ effPrio k w
  given : ∀ w t, Donates k w t → basePrio k w ≤ effPrio k t

theorem PrioExact.low {k : Kernel} {t : ThreadId} (h : PrioExact k t) : basePrio k t ≤ effPrio k t := h.2 (Or.inl rfl)

theorem PrioExact.given {k : Kernel} {t w : ThreadId} (h : PrioExact k t) (hd : Donates k w t) : effPrio k w ≤ effPrio k t :=
  h.2 (Or.inr ⟨w, hd, rfl⟩)

theorem PrioExact.high {k : Kernel} {t : ThreadId} (h : PrioExact k t) :
    effPrio k t = basePrio k t ∨ ∃ w, Donates k w t ∧ effPrio k t ≤ effPrio k w := by
  rcases h.1 with he | ⟨w, hd, he⟩
  · exact Or.inl he
  · exact Or.inr ⟨w, hd, le_of_eq he.symm⟩

/-- Without chains one level is enough. -/
theorem OneLevel.exact {k : Kernel} (h : OneLevel k) {t : ThreadId} (hno : ∀ w, Donates k w t → ∀ u, ¬ Donates k u w) :
    PrioExact k t := by
  have heff : ∀ w, Donates k w t → effPrio k w = basePrio k w := by
    intro w hw
    rcases h.high w with he | ⟨u, hu, -⟩
    · exact he
    · exact absurd hu (hno w hw u)
  constructor
  · rcases h.high t with he | ⟨w, hw, he⟩
    · exact Or.inl he
    · have hg := h.given w t hw
      rw [← heff w hw] at hg
      exact Or.inr ⟨w, hw, le_antisymm hg he⟩
  · intro v hv
    rcases hv with hv | ⟨w, hw, hv⟩
    · rw [hv]
      exact h.low t
    · rw [← hv, heff w hw]
      exact h.given w t hw

section Step

variable {cur : ThreadId} {k k' : Kernel} {c : Call} {r : Ret} {e : Event}

/-- Owners and queues change at `n` only, which gives `t` nothing before or after. -/
theorem donates_elsewhere {w t : ThreadId} (n : MutexId) (ho : ∀ m, m ≠ n → ownerOf k' m = ownerOf k m)
    (hw : ∀ m, m ≠ n → waitersOf k' (.mutex m) = waitersOf k (.mutex m))
    (h0 : ownerOf k n = some t → waitersOf k (.mutex n) ≠ some w)
    (h1 : ownerOf k' n = some t → waitersOf k' (.mutex n) ≠ some w) : Donates k' w t ↔ Donates k w t := by
  constructor
  · intro h
    obtain ⟨m, hm, hwm⟩ := h
    have hmn : m ≠ n := fun e => h1 (e ▸ hm) (e ▸ hwm)
    exact ⟨m, (ho m hmn).symm.trans hm, (hw m hmn).symm.trans hwm⟩
  · intro h
    obtain ⟨m, hm, hwm⟩ := h
    have hmn : m ≠ n := fun e => h0 (e ▸ hm) (e ▸ hwm)
    exact ⟨m, (ho m hmn).trans hm, (hw m hmn).trans hwm⟩

theorem ne_some_of_none {α : Type} {x : Option α} {a : α} (h : x = none) : x ≠ some a := by
  rw [h]
  exact fun e => by cases e

/-- Nobody starts or stops to donate to a thread that is not recomputed. -/
theorem donates_kept (hh : Heads k cur) (ho : Outcome k cur c r e) (he : Effect cur k k' e) {t : ThreadId}
    (ht : ¬ e.recomputes cur k t) (w : ThreadId) : Donates k' w t ↔ Donates k w t := by
  have hq := he.queues
  cases e with
  | quiet => exact Donates.congr he.owner (fun m => SameQueues.waiters hq _) w
  | woken σ v => exact Donates.congr he.owner (fun m => Popped.waiters hq _ fun h => by cases h) w
  | reset n =>
    have hn : ownerOf k n = none := by
      cases ho with
      | init _ hn => exact hn
    refine donates_elsewhere n (fun m _ => he.owner m) (fun m hm => (hq.1 _).trans (if_neg fun e => hm (WaitObj.mutex.inj e)))
      (fun h => ?_) fun h => ?_
    · exact absurd h (ne_some_of_none hn)
    · exact absurd h (ne_some_of_none ((he.owner n).trans hn))
  | taken n =>
    have hn : waitersOf k (.mutex n) = none := by
      apply hh.free
      cases ho with
      | lock _ h => exact h
      | trylock _ h => exact h
    refine donates_elsewhere n (fun m hm => (he.owner m).trans (if_neg hm)) (fun m _ => SameQueues.waiters hq _)
      (fun _ => ne_some_of_none hn) fun _ => ne_some_of_none ?_
    exact (SameQueues.waiters hq _).trans hn
  | blocked o =>
    cases o with
    | sem σ => exact Donates.congr he.owner (fun m => (hq.1 _).trans (if_neg fun e => by cases e)) w
    | mutex n =>
      refine donates_elsewhere n (fun m _ => he.owner m) (fun m hm => (hq.1 _).trans (if_neg fun e => hm (WaitObj.mutex.inj e)))
        (fun h => absurd h ht) fun h => absurd ?_ ht
      exact (he.owner n).symm.trans h
  | freed n =>
    refine donates_elsewhere n (fun m hm => (he.owner m).trans (if_neg hm)) (fun m _ => SameQueues.waiters hq.2 _)
      (fun _ => ne_some_of_none hq.1) fun _ => ne_some_of_none ?_
    exact (SameQueues.waiters hq.2 _).trans hq.1
  | handed n v =>
    have hn : ownerOf k n = some cur := by
      cases ho with
      | handover _ _ h => exact h
    refine donates_elsewhere n (fun m hm => (he.owner m).trans (if_neg hm))
      (fun m hm => Popped.waiters hq _ fun e => hm (WaitObj.mutex.inj e)) (fun h => absurd ?_ ht) fun h => absurd ?_ ht
    · exact Or.inl (Option.some.inj (h.symm.trans hn))
    · have hv : ownerOf k' n = some v := (he.owner n).trans (if_pos rfl)
      exact Or.inr (Option.some.inj (h.symm.trans hv))

/-- A donor that is recomputed is the owner a thread blocks on. -/
theorem donor_recomputed (hh : Heads k cur) (ho : Outcome k cur c r e) (he : Effect cur k k' e) {w t : ThreadId}
    (hd : Donates k w t) (ht : ¬ e.recomputes cur k t) (hw : e.recomputes cur k w) :
    ∃ m, e = .blocked (.mutex m) ∧ ownerOf k m = some w := by
  cases e with
  | blocked o =>
    cases o with
    | mutex m => exact ⟨m, rfl, hw⟩
    | sem σ => exact absurd hw id
  | freed n => exact absurd hw (hh.donor_ne hd).2
  | handed n v =>
    rcases hw with hw | hw
    · exact absurd hw (hh.donor_ne hd).2
    · -- the new owner waited for the caller
      subst hw
      have hn : ownerOf k n = some cur := by
        cases ho with
        | handover _ _ h => exact h
      have hpop := (Popped.single he.queues fun v hv => hh.single _ v hv).1
      exact absurd (Or.inl (hh.donor_unique hd ⟨n, hn, hpop⟩)) ht
  | quiet => exact absurd hw id
  | taken n => exact absurd hw id
  | woken σ v => exact absurd hw id
  | reset n => exact absurd hw id

/-- A donor's priority does not fall. -/
theorem donor_grows (hi : OneLevel k) (hh : Heads k cur) (ho : Outcome k cur c r e) (he : Effect cur k k' e)
    (hp : PrioStep cur k k' e) (hquiet : ∀ o, e = .blocked o → waitersOf k o = none) {w t : ThreadId} (hd : Donates k w t)
    (ht : ¬ e.recomputes cur k t) : effPrio k w ≤ effPrio k' w := by
  by_cases hw : e.recomputes cur k w
  · obtain ⟨m, rfl, hm⟩ := donor_recomputed hh ho he hd ht hw
    have hx := hp.exact w hw
    rcases hi.high w with hbase | ⟨u, hu, hle⟩
    · rw [hbase, ← hp.base w]
      exact hx.low
    · -- `u` still donates to `w`, with the priority it had
      have hu' : Donates k' u w := by
        obtain ⟨n, hn, hun⟩ := hu
        refine ⟨n, (he.owner n).trans hn, ((he.queues.1 _).trans (if_neg fun e => ?_)).trans hun⟩
        cases e
        rw [hquiet _ rfl] at hun
        cases hun
      have hukept : effPrio k' u = effPrio k u := hp.kept u fun h => by
        have huw : some u = some w := h.symm.trans hm
        exact (hh.donor_ne hu).1 (Option.some.inj huw)
      have hg := hx.given hu'
      rw [hukept] at hg
      exact le_trans hle hg
  · exact le_of_eq (hp.kept w hw).symm

theorem OneLevel.step (hi : OneLevel k) (hh : Heads k cur) (ho : Outcome k cur c r e) (he : Effect cur k k' e)
    (hp : PrioStep cur k k' e) (hquiet : ∀ o, e = .blocked o → waitersOf k o = none) : OneLevel k' := by
  have hlow : ∀ t, basePrio k' t ≤ effPrio k' t := by
    intro t
    by_cases ht : e.recomputes cur k t
    · exact (hp.exact t ht).low
    · rw [hp.base, hp.kept t ht]
      exact hi.low t
  refine ⟨hlow, fun t => ?_, fun w t hd => ?_⟩
  · by_cases ht : e.recomputes cur k t
    · exact (hp.exact t ht).high
    · rw [hp.base, hp.kept t ht]
      rcases hi.high t with hbase | ⟨w, hd, hle⟩
      · exact Or.inl hbase
      · refine Or.inr ⟨w, (donates_kept hh ho he ht w).mpr hd, ?_⟩
        exact le_trans hle (donor_grows hi hh ho he hp hquiet hd ht)
  · by_cases ht : e.recomputes cur k t
    · exact le_trans (hlow w) ((hp.exact t ht).given hd)
    · rw [hp.base, hp.kept t ht]
      exact hi.given w t ((donates_kept hh ho he ht w).mp hd)

/-- An exact priority stays exact unless a thread blocks on a mutex of one of its donors. -/
theorem exact_kept (hh : Heads k cur) (ho : Outcome k cur c r e) (he : Effect cur k k' e) (hp : PrioStep cur k k' e)
    {t : ThreadId} (hx : PrioExact k t) (hno : ∀ m w, e = .blocked (.mutex m) → ownerOf k m = some w → ¬ Donates k w t) :
    PrioExact k' t := by
  by_cases ht : e.recomputes cur k t
  · exact hp.exact t ht
  · have hg : IsGreatest (insert (basePrio k t) (offers k t)) (effPrio k' t) := by
      rw [hp.kept t ht]
      exact hx
    refine PrioExact.congr hg (hp.base t) (donates_kept hh ho he ht) fun w hd => hp.kept w fun hw => ?_
    obtain ⟨m, hm, how⟩ := donor_recomputed hh ho he hd ht hw
    exact hno m w hm how hd

end Step

/-! ## Runs -/

/-- Mutex calls, and anything that is not a call. -/
def lockAct : Act → Bool
  | .call (.mutexLock _) | .call (.mutexTrylock _) | .call (.mutexUnlock _) => true
  | .call _ => false
  | _ => true

def PiStep (s : Sys) (a : Act) : Prop := lockAct a = true ∧ QuietBlock s a

instance (s : Sys) (a : Act) : Decidable (PiStep s a) := inferInstanceAs (Decidable (_ ∧ _))

/-- `w` is blocked on a mutex that `t` owns. -/
def Donor (s : Sys) (w t : ThreadId) : Prop := ∃ m, ownerOf s.k m = some t ∧ waitsFor s w (.mutex m)

/-- The effective priority of `t` is the maximum of its base priority and the effective
    priorities of the threads blocked on its mutexes. -/
def Exact (s : Sys) (t : ThreadId) : Prop :=
  IsGreatest (insert (basePrio s.k t) {v | ∃ w, Donor s w t ∧ effPrio s.k w = v}) (effPrio s.k t)

/-- The owner of the mutex the step blocks on; the owner that unlocks and the thread that
    gets the mutex. -/
def Recomputes (s : Sys) (a : Act) (t : ThreadId) : Prop :=
  (∃ m, blocksOn s a = some (.mutex m) ∧ ownerOf s.k m = some t) ∨
    ∃ m cur, a = .call (.mutexUnlock m) ∧ s.k.cpu.currentThread = some cur ∧ ownerOf s.k m = some cur ∧
      (t = cur ∨ waitersOf s.k (.mutex m) = some t)

structure PiInv (s : Sys) : Prop where
  wait : WaitInv s
  lost : NoneLost s
  lists : OwnerLists s.k none
  pi : AllPi s.k
  noSem : ∀ t σ r, s.cont t ≠ .returning (.semDown σ) r
  level : OneLevel s.k

theorem lockCall_of {s : Sys} {cur : ThreadId} {a : Act} {c : Call} (ha : lockAct a = true) (hc : Calling s cur a c) : LockCall c := by
  cases hc with
  | first c _ =>
    cases c with
    | mutexLock m => exact .lock m
    | mutexTrylock m => exact .trylock m
    | mutexUnlock m => exact .unlock m
    | mutexInit m => cases ha
    | mutexSetPiEnabled m e => cases ha
    | semDown σ => cases ha
    | semUp σ => cases ha
  | again m _ => exact .lock m

/-- Nobody in a queue is the caller: a caller that waits blocks again. -/
theorem WaitInv.heads {s : Sys} {cur : ThreadId} {a : Act} (h : WaitInv s) (hcur : s.k.cpu.currentThread = some cur)
    (hq : QuietBlock s a) {c : Call} (hcall : Calling s cur a c) : Heads s.k cur := by
  refine ⟨fun o w hw => (h.head o w hw).2, fun m w hw => (h.head _ w hw).1.2, fun o hw => ?_,
    fun o p w ho hp => waitsFor_unique (h.head o w ho).1 (h.head p w hp).1, h.free⟩
  have hwait := (h.head o cur hw).1
  obtain ⟨m, rfl, rfl⟩ := hcall.waiting hwait
  have hblk : blocksOn s a = some (.mutex m) := by
    rw [hcall.blocksOn hcur]
    refine if_neg fun hor => ?_
    rcases hor with hno | hown
    · rw [h.free m hno] at hw
      cases hw
    · exact hwait.2 hown
  rw [hq _ hblk] at hw
  cases hw

namespace PiInv

variable {s s' : Sys} {cur : ThreadId} {a : Act}

theorem donor_iff (h : PiInv s) (w t : ThreadId) : Donor s w t ↔ Donates s.k w t := by
  constructor
  · intro hd
    obtain ⟨m, ho, hw⟩ := hd
    exact ⟨m, ho, h.lost _ w hw⟩
  · intro hd
    obtain ⟨m, ho, hw⟩ := hd
    exact ⟨m, ho, (h.wait.head _ w hw).1⟩

theorem exact_iff (h : PiInv s) (t : ThreadId) : Exact s t ↔ PrioExact s.k t := by
  have hset : {v | ∃ w, Donor s w t ∧ effPrio s.k w = v} = offers s.k t := by
    ext v
    simp only [offers, Set.mem_ofPred_eq, h.donor_iff]
  unfold Exact PrioExact
  rw [hset]

theorem steady (h : PiInv s) (ha : lockAct a = true) : Steady s a cur := by
  intro σ hor
  rcases hor with hc | ⟨-, r, hc⟩
  · rw [hc] at ha
    cases ha
  · exact absurd hc (h.noSem cur σ r)

theorem heads (h : PiInv s) (hcur : s.k.cpu.currentThread = some cur) (hq : QuietBlock s a) {c : Call}
    (hcall : Calling s cur a c) : Heads s.k cur := h.wait.heads hcur hq hcall

end PiInv

theorem piInv_boot {b : Build} {counts : SemId → Int} {s : Sys} (hb : b.mutexPi = true) (h : Booted b counts s) : PiInv s := by
  obtain ⟨hwait, hlost⟩ := waitInv_boot h
  refine ⟨hwait, hlost, (ownInv_boot h).lists, fun m => ?_, fun t σ r => ?_, ⟨fun t => ?_, fun t => ?_, fun w t hd => ?_⟩⟩
  · rw [h.kernel.mutexes]
    exact hb
  · rw [h.cont]
    exact fun e => by cases e
  · rw [h.kernel.eff]
  · exact Or.inl (h.kernel.eff t)
  · obtain ⟨m, ho, -⟩ := hd
    simp only [ownerOf, h.kernel.mutexes] at ho
    cases ho

/-- The threads `Recomputes` names are those the call's event recomputes. -/
theorem recomputes_event {s s' : Sys} {cur t : ThreadId} {a : Act} {c : Call} {r : Ret} {e : Event} (hcall : Calling s cur a c)
    (hcur : s.k.cpu.currentThread = some cur) (hh : Heads s.k cur) (ho : Outcome s.k cur c r e) (he : Effect cur s.k s'.k e)
    (h : Recomputes s a t) : e.recomputes cur s.k t := by
  rcases h with ⟨m, hb, hm⟩ | ⟨m, cur', rfl, hcur', hm, ht⟩
  · rw [hcall.blocksOn hcur, ho.blocks] at hb
    cases e with
    | blocked o =>
      cases hb
      exact hm
    | quiet => cases hb
    | taken n => cases hb
    | freed n => cases hb
    | handed n w => cases hb
    | woken σ w => cases hb
    | reset n => cases hb
  · rw [hcur] at hcur'
    cases hcur'
    cases hcall
    cases ho with
    | foreign _ hne => exact absurd hm hne
    | unlock _ _ =>
      rcases ht with ht | ht
      · exact ht
      · have hnone : waitersOf s.k (.mutex m) = none := he.queues.1
        rw [hnone] at ht
        cases ht
    | handover _ w _ =>
      rcases ht with ht | ht
      · exact Or.inl ht
      · have hw := (Popped.single he.queues fun v hv => hh.single _ v hv).1
        exact Or.inr (Option.some.inj (ht.symm.trans hw))

/-! ## Seen from an equal state -/

theorem callBlocks_congr {k k0 : Kernel} (hs : SameSync k k0) (cur : ThreadId) (c : Call) :
    callBlocks k0 cur c = callBlocks k cur c := by
  cases c <;> simp only [callBlocks, hs.own.owner, hs.wait.count]

theorem Heads.congr {k k0 : Kernel} {cur : ThreadId} (h : Heads k cur) (hs : SameSync k k0) : Heads k0 cur := by
  have hw := hs.wait.waiters
  have ho := hs.own.owner
  refine ⟨fun o w hq => ?_, fun m w hq => ?_, fun o => ?_, fun o p w h1 h2 => ?_, fun m hm => ?_⟩
  · rw [hs.wait.waitNext]
    exact h.single o w ((hw o).symm.trans hq)
  · rw [ho]
    exact h.notOwner m w ((hw _).symm.trans hq)
  · rw [hw]
    exact h.notCaller o
  · exact h.once o p w ((hw o).symm.trans h1) ((hw p).symm.trans h2)
  · rw [hw]
    exact h.free m ((ho m).symm.trans hm)

theorem PrioExact.sync {k k' : Kernel} {t : ThreadId} (h : PrioExact k t) (hs : SameSync k k') : PrioExact k' t := by
  have hg : IsGreatest (insert (basePrio k t) (offers k t)) (effPrio k' t) := by
    rw [hs.prio.eff]
    exact h
  exact PrioExact.congr hg (hs.prio.base t) (Donates.congr hs.own.owner fun m => hs.wait.waiters _) fun w _ => hs.prio.eff w

theorem Event.recomputes_congr {k k0 : Kernel} (hs : SameSync k k0) (cur t : ThreadId) (e : Event) :
    e.recomputes cur k0 t ↔ e.recomputes cur k t := by
  cases e with
  | blocked o => cases o <;> simp only [Event.recomputes, hs.own.owner]
  | quiet => exact Iff.rfl
  | taken m => exact Iff.rfl
  | freed m => exact Iff.rfl
  | handed m w => exact Iff.rfl
  | woken σ w => exact Iff.rfl
  | reset m => exact Iff.rfl

theorem PrioStep.between {cur : ThreadId} {k k0 k2 k' : Kernel} {e : Event} (h : PrioStep cur k0 k2 e) (h0 : SameSync k k0)
    (h2 : SameSync k2 k') : PrioStep cur k k' e := by
  refine ⟨fun t => ?_, fun m => (h2.prio.pi m).trans (h.pi m), fun t ht => ?_, fun t ht => ?_⟩
  · rw [h2.prio.base, h.base, h0.prio.base]
  · rw [h2.prio.eff, h.kept t fun hr => ht ((Event.recomputes_congr h0 cur t e).mp hr), h0.prio.eff]
  · exact (h.exact t ((Event.recomputes_congr h0 cur t e).mpr ht)).sync h2

theorem OneLevel.sync {k k' : Kernel} (h : OneLevel k) (hs : SameSync k k') : OneLevel k' := by
  have hd : ∀ w t, Donates k' w t ↔ Donates k w t := fun w t => Donates.congr hs.own.owner (fun m => hs.wait.waiters _) w
  refine ⟨fun t => ?_, fun t => ?_, fun w t hw => ?_⟩
  · rw [hs.prio.base, hs.prio.eff]
    exact h.low t
  · rw [hs.prio.base, hs.prio.eff]
    rcases h.high t with he | ⟨w, hw, he⟩
    · exact Or.inl he
    · exact Or.inr ⟨w, (hd w t).mpr hw, by rwa [hs.prio.eff]⟩
  · rw [hs.prio.base, hs.prio.eff]
    exact h.given w t ((hd w t).mp hw)

/-! ## Every step -/

theorem call_calling {b : Build} {fuel : Nat} {s s' : Sys} {a : Act} {cur : ThreadId} {c : Call}
    (hcur : s.k.cpu.currentThread = some cur) (ha : a = .call c) (hs : s.step b fuel a = .ok s') : ∃ c, Calling s cur a c := by
  obtain ⟨cur', hcur', hcase⟩ := Sys.step_cases hs
  rw [hcur] at hcur'
  cases hcur'
  cases hcase with
  | call c r k0 k2 k3 hcall _ _ _ => exact ⟨c, hcall⟩
  | finish c r h _ _ =>
    rw [ha] at h
    cases h
  | yield k h _ _ =>
    rw [ha] at h
    cases h
  | irq intid guardOk r k1 k h _ _ _ =>
    rw [ha] at h
    cases h

/-- A step keeps the invariant, makes exact what it recomputes, and keeps exact a thread
    with no donor whose mutex it blocks on. -/
theorem piInv_step {b : Build} {fuel : Nat} {s s' : Sys} {a : Act} (hb : b.mutexPi = true) (h : PiInv s) (ha : PiStep s a)
    (hs : s.step b fuel a = .ok s') :
    PiInv s' ∧ (∀ t, Recomputes s a t → PrioExact s'.k t) ∧
      ∀ t, PrioExact s.k t → (∀ m w, blocksOn s a = some (.mutex m) → ownerOf s.k m = some w → ¬ Donates s.k w t) →
        PrioExact s'.k t := by
  obtain ⟨cur, hcur, hcase⟩ := Sys.step_sync hs
  have hblock : ∀ o, blocksOn s a = some o → isReady s.k cur ∨ waitersOf s.k o = none := fun o ho => Or.inr (ha.2 o ho)
  have hwait' := waitInv_step h.wait hcur (h.steady ha.1) hblock hs
  have hlost' := noneLost_step h.wait h.lost hcur (h.steady ha.1) ha.2 hs
  cases hcase with
  | call c r e0 fuel0 k0 k2 hcall h0 hc0 hbody h2 _ _ _ hrec =>
    have hh := h.heads hcur ha.2 hcall
    have hlock := lockCall_of ha.1 hcall
    obtain ⟨e, hout0, heff0, hprio0⟩ := callBody_prio hb hc0 hlock (fun m => (h0.prio.pi m).trans (h.pi m)) (h.lists.congr h0.own)
      (hh.congr h0) (fun o ho => (h0.wait.waiters o).trans (ha.2 o (by rw [hcall.blocksOn hcur, ← callBlocks_congr h0, ho]))) hbody
    have hout := hout0.before h0
    have heff := (heff0.before h0).same h2.own h2.wait
    have hprio := hprio0.between h0 h2
    have hsleep : ∀ o, e = .blocked o → blocksOn s a = some o := by
      intro o he
      rw [hcall.blocksOn hcur, hout.blocks, he]
      rfl
    refine ⟨⟨hwait', hlost', heff.lists h.lists, hprio.pi, fun t σ v hc => ?_,
      h.level.step hh hout heff hprio fun o he => ha.2 o (hsleep o he)⟩,
      fun t ht => hprio.exact t (recomputes_event hcall hcur hh hout heff ht),
      fun t hx hno => exact_kept hh hout heff hprio hx fun m w he => hno m w (hsleep _ he)⟩
    rw [hrec.cont, cont_record] at hc
    split at hc
    · cases r with
      | value n =>
        cases hc
        cases hlock
      | again m => cases hc
    · exact h.noSem t σ v hc
  | finish c r hact hcont hs' =>
    subst hs'
    have hno : ∀ t, ¬ Recomputes s a t := by
      intro t ht
      rcases ht with ⟨m, hm, -⟩ | ⟨m, cur', hm, -⟩
      · rw [not_calling_blocksOn hcur fun c hc => ?_] at hm
        · cases hm
        · rw [hact] at hc
          cases hc with
          | again n hn =>
            rw [hcont] at hn
            cases hn
      · rw [hact] at hm
        cases hm
    refine ⟨⟨hwait', hlost', h.lists, h.pi, fun t σ v hc => ?_, h.level⟩, fun t ht => absurd ht (hno t), fun t hx _ => hx⟩
    by_cases htc : t = cur
    · subst htc
      simp [Sys.finish] at hc
    · exact h.noSem t σ v (by simpa [Sys.finish, htc] using hc)
  | sched hnot hsync hrec =>
    have hno : ∀ t, ¬ Recomputes s a t := by
      intro t ht
      rcases ht with ⟨m, hm, -⟩ | ⟨m, cur', hm, -⟩
      · rw [not_calling_blocksOn hcur hnot] at hm
        cases hm
      · obtain ⟨c, hc⟩ := call_calling hcur hm hs
        exact hnot c hc
    refine ⟨⟨hwait', hlost', h.lists.congr hsync.own, fun m => (hsync.prio.pi m).trans (h.pi m), fun t σ v hc => ?_,
      h.level.sync hsync⟩, fun t ht => absurd ht (hno t), fun t hx _ => hx.sync hsync⟩
    rw [hrec.cont] at hc
    exact h.noSem t σ v hc

theorem piInv_run {b : Build} {ts : List (ThreadId × Int)} {counts : SemId → Int} {s : Sys} (hb : b.mutexPi = true)
    (h : Run b PiStep ts counts s) : PiInv s := by
  induction h with
  | boot fuel _ hboot => exact piInv_boot hb (boot_cases hboot).1
  | step a fuel _ ha hs ih => exact (piInv_step hb ih ha hs).1

end Microkernel

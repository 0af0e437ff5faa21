/-
  Microkernel.Kernel.BasePriority — `thread_set_base_priority` of src/thread.cc beside
  `recompute_effective_priority` of src/sync.cc.

  Both maintain `effective_priority`: the one compares it with the new base priority and
  raises it, the other computes it from the base priority and the queues of the owned
  mutexes. A thread is `UpToDate` when the second would not change it.

  Proved: the new base priority is the argument, clamped, and no queue and no list of owned
  mutexes changes (`setBase_base`, `setBase_wait`, `setBase_own`); the effective priority is
  again what a recomputation gives if and only if the base priority is not lowered, or a
  waiter still donates at least the old one (`set_base_agrees_iff`). Lowering it from 20 to
  5 with nobody waiting leaves the thread at 20 (`lowered_stays`).
-/

import Microkernel.Kernel.SyncProofs

namespace Microkernel

open Linked

/-- The two writes of `thread_set_base_priority`. -/
def Thread.setBase (p : Priority) (x : Thread) : Thread :=
  { x with basePriority := p, effectivePriority := if x.effectivePriority.val < p.val then p else x.effectivePriority }

/-- `thread_set_base_priority` for a thread. -/
def threadSetBasePriority (t : ThreadId) (prio : Int) (k : Kernel) : Kernel := k.setThread t (Thread.setBase (clampPriority prio))

/-- `recompute_effective_priority` would leave the effective priority of `t` as it is. -/
def UpToDate (b : Build) (fuel : Nat) (k : Kernel) (t : ThreadId) : Prop :=
  ∃ k', recomputeEffectivePriority b fuel t k = .ok k' ∧ effPrio k' t = effPrio k t

/-- What the threads waiting for inheriting mutexes of `t` offer it. -/
def donations (b : Build) (k : Kernel) (t : ThreadId) : Set Int :=
  {v | b.mutexPi = true ∧ ∃ ms, Chain (ownerNextOf k) (ownedOf k t) ms ∧ ∃ m ∈ ms, v ∈ queuedPrios k m}

section SetBase

variable (k : Kernel) (t : ThreadId) (prio : Int)

/-! ## What is written -/

theorem setBase_base : basePrio (threadSetBasePriority t prio k) t = (clampPriority prio).val := by
  simp [basePrio, threadSetBasePriority, Thread.setBase]

theorem setBase_eff : effPrio (threadSetBasePriority t prio k) t = max (effPrio k t) (clampPriority prio).val := by
  simp only [effPrio, threadSetBasePriority, Kernel.setThread_same, Thread.setBase]
  split <;> omega

theorem setBase_eff_other {u : ThreadId} (hu : u ≠ t) : effPrio (threadSetBasePriority t prio k) u = effPrio k u := by
  simp [effPrio, threadSetBasePriority, Kernel.setThread_threads, hu]

theorem setBase_own : SameOwn k (threadSetBasePriority t prio k) := SameOwn.setThread k t fun _ => rfl

theorem setBase_wait : SameWait k (threadSetBasePriority t prio k) := SameWait.setThread k t (fun _ => rfl) fun _ => rfl

theorem setBase_waitNext : waitNextOf (threadSetBasePriority t prio k) = waitNextOf k := funext (setBase_wait k t prio).waitNext

/-! ## The recomputation -/

variable {k t} {b : Build} {fuel : Nat}

/-- With MUTEX_PI or without, it sets the maximum of the base priority and the donations. -/
theorem recompute_isGreatest {k' : Kernel} (h : recomputeEffectivePriority b fuel t k = .ok k') :
    IsGreatest (insert (basePrio k t) (donations b k t)) (effPrio k' t) := by
  cases hb : b.mutexPi with
  | true =>
    obtain ⟨eff, he, -⟩ := bind_ok.mp h
    simp only [inheritedPriority, hb, if_true] at he
    obtain ⟨ms, hms, -⟩ := chainFold_chain (orSpin_ok.mp he)
    have hset : donations b k t = {v | ∃ m ∈ ms, v ∈ queuedPrios k m} := by
      ext v
      constructor
      · intro hv
        obtain ⟨-, ms', hms', m, hm, hv⟩ := hv
        exact ⟨m, Chain.unique hms' hms ▸ hm, hv⟩
      · intro hv
        exact ⟨hb, ms, hms, hv⟩
    rw [hset]
    exact recompute_spec hb hms h
  | false =>
    have hset : donations b k t = ∅ := by
      ext v
      simp [donations, hb]
    have hbase : effPrio k' t = basePrio k t := by
      simp only [recomputeEffectivePriority, inheritedPriority, hb, Bool.false_eq_true, if_false, bind, Except.bind] at h
      cases h
      simp [threadSetEffectivePriority, effPrio, basePrio]
    rw [hset, hbase]
    simp

/-- The queue of one mutex is walked again as before the call. -/
theorem donation_setBase {s s' : Int} {m : MutexId} (h : donation fuel k s m = some s') (u : Int) :
    ∃ u', donation fuel (threadSetBasePriority t prio k) u m = some u' := by
  unfold donation waitqMaxPriority at h ⊢
  have hm : (threadSetBasePriority t prio k).mutexes = k.mutexes := rfl
  rw [hm, setBase_waitNext]
  split
  · rename_i hpi
    rw [if_pos hpi] at h
    obtain ⟨w, hw, -⟩ := Option.map_eq_some_iff.mp h
    obtain ⟨w', hw'⟩ := chainFold_isSome (g := fun best u => some (if effPrio (threadSetBasePriority t prio k) u > best
      then effPrio (threadSetBasePriority t prio k) u else best)) hw (fun _ _ _ _ _ => ⟨_, rfl⟩) (-1)
    rw [hw']
    exact ⟨_, rfl⟩
  · exact ⟨_, rfl⟩

/-- The recomputation comes back after the call if it does before. -/
theorem recompute_setBase {k' : Kernel} (h : recomputeEffectivePriority b fuel t k = .ok k') :
    ∃ k'', recomputeEffectivePriority b fuel t (threadSetBasePriority t prio k) = .ok k'' := by
  obtain ⟨eff, he, -⟩ := bind_ok.mp h
  have hret : ∃ eff', inheritedPriority b fuel t (threadSetBasePriority t prio k) = .ok eff' := by
    unfold inheritedPriority at he ⊢
    split
    · rename_i hb
      rw [if_pos hb] at he
      have howned : ((threadSetBasePriority t prio k).threads t).ownedMutexes = (k.threads t).ownedMutexes :=
        (setBase_own k t prio).owned t
      obtain ⟨r, hr⟩ := chainFold_isSome (orSpin_ok.mp he) (fun _ _ _ hs u => donation_setBase (t := t) prio hs u)
        (basePrio (threadSetBasePriority t prio k) t)
      rw [howned]
      exact ⟨r, orSpin_ok.mpr hr⟩
    · exact ⟨_, rfl⟩
  obtain ⟨eff', he'⟩ := hret
  exact ⟨_, by rw [recomputeEffectivePriority, he']; rfl⟩

/-! ## Donations after the call

Only the thread's own effective priority differs, and that matters if it waits for a mutex
of its own. -/

theorem queued_after {v : Int} {m : MutexId} (h : v ∈ queuedPrios (threadSetBasePriority t prio k) m) :
    ∃ w, effPrio k w ∈ queuedPrios k m ∧ v = effPrio (threadSetBasePriority t prio k) w := by
  obtain ⟨hpi, ws, hws, w, hw, rfl⟩ := h
  rw [setBase_waitNext] at hws
  exact ⟨w, ⟨hpi, ws, hws, w, hw, rfl⟩, rfl⟩

theorem queued_before {v : Int} {m : MutexId} (h : v ∈ queuedPrios k m) :
    ∃ w, effPrio k w = v ∧ effPrio (threadSetBasePriority t prio k) w ∈ queuedPrios (threadSetBasePriority t prio k) m := by
  obtain ⟨hpi, ws, hws, w, hw, rfl⟩ := h
  refine ⟨w, rfl, hpi, ws, ?_, w, hw, rfl⟩
  rw [setBase_waitNext]
  exact hws

theorem donation_after {v : Int} (h : v ∈ donations b (threadSetBasePriority t prio k) t) :
    ∃ w, effPrio k w ∈ donations b k t ∧ v = effPrio (threadSetBasePriority t prio k) w := by
  obtain ⟨hb, ms, hms, m, hm, hv⟩ := h
  obtain ⟨w, hw, hv⟩ := queued_after prio hv
  rw [(setBase_own k t prio).owned] at hms
  exact ⟨w, ⟨hb, ms, hms, m, hm, hw⟩, hv⟩

theorem donation_before {v : Int} (h : v ∈ donations b k t) :
    ∃ w, effPrio k w = v ∧ effPrio (threadSetBasePriority t prio k) w ∈ donations b (threadSetBasePriority t prio k) t := by
  obtain ⟨hb, ms, hms, m, hm, hv⟩ := h
  obtain ⟨w, hw, hv⟩ := queued_before prio hv
  refine ⟨w, hw, hb, ms, ?_, m, hm, hv⟩
  rw [(setBase_own k t prio).owned]
  exact hms

/-- The effective priority of a waiter is kept, unless the waiter is the thread itself. -/
theorem waiter_eff (w : ThreadId) :
    effPrio (threadSetBasePriority t prio k) w = effPrio k w ∨
      w = t ∧ effPrio (threadSetBasePriority t prio k) w = max (effPrio k t) (clampPriority prio).val := by
  by_cases hw : w = t
  · subst hw
    exact Or.inr ⟨rfl, setBase_eff k w prio⟩
  · exact Or.inl (setBase_eff_other k t prio hw)

end SetBase

/-! ## The two paths -/

/-- Where the effective priority was up to date, setting the base priority (clamped) leaves
    it so if and only if that is not lowered or a waiter donates at least the old one. -/
theorem set_base_agrees_iff {b : Build} {fuel : Nat} {k : Kernel} {t : ThreadId} (h : UpToDate b fuel k t) (prio : Int) :
    basePrio (threadSetBasePriority t prio k) t = (clampPriority prio).val ∧
    ∃ k', recomputeEffectivePriority b fuel t (threadSetBasePriority t prio k) = .ok k' ∧
      (effPrio (threadSetBasePriority t prio k) t = effPrio k' t ↔
        basePrio k t ≤ (clampPriority prio).val ∨ ∃ v ∈ donations b k t, basePrio k t ≤ v) := by
  obtain ⟨k₀, hrec, heff⟩ := h
  obtain ⟨k', hrec'⟩ := recompute_setBase prio hrec
  obtain ⟨hold, holdMax⟩ := heff ▸ recompute_isGreatest hrec
  have hnew := recompute_isGreatest hrec'
  rw [setBase_base] at hnew
  refine ⟨setBase_base k t prio, k', hrec', ?_⟩
  have hbase : basePrio k t ≤ effPrio k t := holdMax (Or.inl rfl)
  rw [setBase_eff]
  constructor
  · intro he
    by_cases hle : basePrio k t ≤ (clampPriority prio).val
    · exact Or.inl hle
    · -- the old base priority can only come from a waiter
      obtain ⟨hmem, -⟩ := hnew
      rw [← he] at hmem
      rcases hmem with hmem | hmem
      · omega
      · obtain ⟨w, hw, hv⟩ := donation_after prio hmem
        refine Or.inr ⟨effPrio k w, hw, ?_⟩
        rcases waiter_eff (k := k) (t := t) prio w with hk | ⟨rfl, -⟩
        · omega
        · exact hbase
  · intro hcond
    apply IsGreatest.unique _ hnew
    constructor
    · by_cases hle : effPrio k t ≤ (clampPriority prio).val
      · exact Or.inl (by omega)
      · -- the old effective priority is a donation, and stays one
        have hdon : effPrio k t ∈ donations b k t := by
          rcases hold with hold | hold
          · rcases hcond with hc | ⟨v, hv, hc⟩
            · omega
            · have hvle := holdMax (Or.inr hv)
              have hev : effPrio k t = v := by omega
              rw [hev]
              exact hv
          · exact hold
        obtain ⟨w, hw, hin⟩ := donation_before prio hdon
        have hmax : effPrio (threadSetBasePriority t prio k) w = max (effPrio k t) (clampPriority prio).val := by
          rcases waiter_eff (k := k) (t := t) prio w with hk | ⟨-, hk⟩
          · omega
          · exact hk
        exact Or.inr (hmax ▸ hin)
    · intro v hv
      rcases hv with hv | hv
      · omega
      · obtain ⟨w, hw, rfl⟩ := donation_after prio hv
        have hle := holdMax (Or.inr hw)
        rcases waiter_eff (k := k) (t := t) prio w with hk | ⟨-, hk⟩ <;> omega

/-- Thread 0 of base priority 20 owns mutex 0, for which thread 1 of priority 25 waits. -/
def donatedKernel : Kernel :=
  ((Kernel.zero.setThread 0 fun _ => { threadCreatePrio 20 with effectivePriority := clampPriority 25, ownedMutexes := some 0 }).setThread 1
    fun _ => { threadCreatePrio 25 with state := .blocked, waitingOn := some 0 }).setMutex 0 fun _ => ⟨some 0, some 1, none, true⟩

/-- The donation is kept when the base priority goes down to 5. -/
theorem set_base_agrees_donated :
    ∃ k', recomputeEffectivePriority ⟨.prio, true, false⟩ 2 0 (threadSetBasePriority 0 5 donatedKernel) = .ok k' ∧
      effPrio (threadSetBasePriority 0 5 donatedKernel) 0 = effPrio k' 0 := by
  have hup : UpToDate ⟨.prio, true, false⟩ 2 donatedKernel 0 := ⟨_, rfl, rfl⟩
  have hdon : 25 ∈ donations ⟨.prio, true, false⟩ donatedKernel 0 :=
    ⟨rfl, [0], ⟨rfl, rfl⟩, 0, by simp, rfl, [1], ⟨rfl, rfl⟩, 1, by simp, rfl⟩
  obtain ⟨-, k', hrec, hiff⟩ := set_base_agrees_iff hup 5
  exact ⟨k', hrec, hiff.mpr (Or.inr ⟨25, hdon, by decide⟩)⟩

/-- With nobody waiting, a thread lowered from 20 to 5 stays at 20, where the recomputation
    gives 5. -/
theorem lowered_stays :
    UpToDate ⟨.prio, true, false⟩ 1 (Kernel.zero.setThread 0 fun _ => threadCreatePrio 20) 0 ∧
    effPrio (threadSetBasePriority 0 5 (Kernel.zero.setThread 0 fun _ => threadCreatePrio 20)) 0 = 20 ∧
    ∃ k', recomputeEffectivePriority ⟨.prio, true, false⟩ 1 0
        (threadSetBasePriority 0 5 (Kernel.zero.setThread 0 fun _ => threadCreatePrio 20)) = .ok k' ∧ effPrio k' 0 = 5 :=
  ⟨⟨_, rfl, rfl⟩, rfl, _, rfl, rfl⟩

end Microkernel

/-
  Microkernel.Calls.Steps — a step of `Microkernel.Calls.System`, seen from the locks and
  from the scheduler.

  `Sys.step_sync`: for owners, queues and priorities a step is a call's body, the return
  of a call, or nothing. `Live ts s l cur`: between steps the run queue `l` is sound,
  preemption is enabled and `cur` runs. `Live.step`: a step keeps it, and if `cur` was
  READY and another thread is READY when it blocks, the next running thread is READY.
-/

import Microkernel.Calls.Outcome

namespace Microkernel

open Linked

/-- The two states record the same calls. -/
structure SameRecord (s s' : Sys) : Prop where
  cont : s'.cont = s.cont
  entered : s'.entered = s.entered
  returned : s'.returned = s.returned
  ups : s'.ups = s.ups
  holds : s'.holds = s.holds

/-- `cur` begins the call `c`, or takes another round in `mutex_lock`. -/
inductive Calling (s : Sys) (cur : ThreadId) : Act → Call → Prop
  | first (c : Call) : s.cont cur = .user → Calling s cur (.call c) c
  | again (m : MutexId) : s.cont cur = .locking m → Calling s cur .resume (.mutexLock m)

/-- The scheduler operation that ends a call. -/
inductive Closing (b : Build) (fuel : Nat) (c : Call) (k k0 k2 k3 : Kernel) : Prop
  | unprotected (m : MutexId) : c = .mutexInit m → k0 = k → k3 = k2 → Closing b fuel c k k0 k2 k3
  | enable : k0 = preemptDisable k → preemptEnable b fuel k2 = .ok k3 → Closing b fuel c k k0 k2 k3

/-- A step, before what it means. -/
inductive StepCases (b : Build) (fuel : Nat) (s s' : Sys) (cur : ThreadId) (a : Act) : Prop
  | call (c : Call) (r : Ret) (k0 k2 k3 : Kernel) : Calling s cur a c → callBody b fuel c k0 = .ok (k2, r) →
      Closing b fuel c s.k k0 k2 k3 → s' = (s.record cur c r).settle cur .tail k3 → StepCases b fuel s s' cur a
  | finish (c : Call) (r : Int) : a = .resume → s.cont cur = .returning c r → s' = s.finish cur c →
      StepCases b fuel s s' cur a
  | yield (k : Kernel) : a = .yield → threadYield b fuel s.k = .ok k → s' = s.settle cur .yield k → StepCases b fuel s s' cur a
  | irq (intid : Nat) (guardOk r : Bool) (k1 k : Kernel) : a = .irq intid guardOk →
      irqHandlerEl1 b fuel guardOk intid s.k = .ok (k1, r) → (if r then preemptReturn b fuel k1 else .ok k1) = .ok k →
      s' = s.settle cur .tail k → StepCases b fuel s s' cur a

theorem callRun_cases {b : Build} {fuel : Nat} {c : Call} {k k3 : Kernel} {r : Ret} (h : callRun b fuel c k = .ok (k3, r)) :
    ∃ k0 k2, callBody b fuel c k0 = .ok (k2, r) ∧ Closing b fuel c k k0 k2 k3 := by
  cases c with
  | mutexInit m => exact ⟨k, k3, h, .unprotected m rfl rfl rfl⟩
  | _ =>
    obtain ⟨⟨k2, r2⟩, h2, h⟩ := bind_ok.mp h
    obtain ⟨k4, h4, h⟩ := bind_ok.mp h
    cases h
    exact ⟨_, k2, h2, .enable rfl h4⟩

theorem Sys.enter_cases {b : Build} {fuel : Nat} {s s' : Sys} {cur : ThreadId} {c : Call} (h : s.enter b fuel cur c = .ok s') :
    ∃ r k0 k2 k3, callBody b fuel c k0 = .ok (k2, r) ∧ Closing b fuel c s.k k0 k2 k3 ∧
      s' = (s.record cur c r).settle cur .tail k3 := by
  obtain ⟨⟨k3, r⟩, h1, h⟩ := bind_ok.mp h
  cases h
  obtain ⟨k0, k2, hb, hcl⟩ := callRun_cases h1
  exact ⟨r, k0, k2, k3, hb, hcl, rfl⟩

theorem Sys.step_cases {b : Build} {fuel : Nat} {s s' : Sys} {a : Act} (h : s.step b fuel a = .ok s') :
    ∃ cur, s.k.cpu.currentThread = some cur ∧ StepCases b fuel s s' cur a := by
  unfold Sys.step at h
  split at h
  · cases h
  rename_i cur hcur
  refine ⟨cur, hcur, ?_⟩
  split at h
  · rename_i c hcont
    obtain ⟨r, k0, k2, k3, hb, hcl, hs⟩ := Sys.enter_cases h
    exact .call c r k0 k2 k3 (.first c hcont) hb hcl hs
  · rename_i m hcont
    obtain ⟨r, k0, k2, k3, hb, hcl, hs⟩ := Sys.enter_cases h
    exact .call _ r k0 k2 k3 (.again m hcont) hb hcl hs
  · rename_i c r hcont
    cases h
    exact .finish c r rfl hcont rfl
  · obtain ⟨k, hk, h⟩ := bind_ok.mp h
    cases h
    exact .yield k rfl hk rfl
  · rename_i _ intid guardOk
    obtain ⟨⟨k1, r⟩, h1, h⟩ := bind_ok.mp h
    obtain ⟨k, hk, h⟩ := bind_ok.mp h
    cases h
    exact .irq intid guardOk r k1 k rfl h1 hk rfl
  · cases h

/-! ## Settling -/

section Settle

variable (s : Sys) (cur : ThreadId) (how : Susp) (k : Kernel)

theorem Sys.settle_cases :
    ((s.settle cur how k).k = k ∨ (s.settle cur how k).k = k.setNeedResched kNeedReschedNone) ∧
      SameRecord s (s.settle cur how k) := by
  unfold Sys.settle
  split
  · exact ⟨Or.inl rfl, rfl, rfl, rfl, rfl, rfl⟩
  split
  · exact ⟨Or.inl rfl, rfl, rfl, rfl, rfl, rfl⟩
  · refine ⟨?_, rfl, rfl, rfl, rfl, rfl⟩
    dsimp only
    split
    · exact Or.inr rfl
    · exact Or.inl rfl

theorem Sys.settle_record : SameRecord s (s.settle cur how k) := (s.settle_cases cur how k).2

theorem Sys.settle_sync : SameSync k (s.settle cur how k).k := by
  rcases (s.settle_cases cur how k).1 with h | h
  · rw [h]
    exact SameSync.refl k
  · rw [h]
    exact SameSync.setNeedResched k _

end Settle

/-! ## For the locks -/

theorem schedReschedFromIrqTail_sync {b : Build} {fuel : Nat} {k k' : Kernel} (h : schedReschedFromIrqTail b fuel k = .ok k') :
    SameSync k k' := by
  unfold schedReschedFromIrqTail at h
  split at h
  · cases h
    exact SameSync.refl k
  obtain ⟨r, -, h⟩ := bind_ok.mp h
  split at h
  · split at h
    · cases h
      exact SameSync.setNeedResched k _
    · cases h
      exact SameSync.of_eq rfl rfl rfl
  · cases h
    exact SameSync.setNeedResched k _

theorem preemptEnable_sync {b : Build} {fuel : Nat} {k k' : Kernel} (h : preemptEnable b fuel k = .ok k') : SameSync k k' := by
  unfold preemptEnable at h
  split at h
  · cases h
    exact SameSync.refl k
  · dsimp only at h
    split at h
    · exact (SameSync.setPreemptCnt k _).trans (schedReschedFromIrqTail_sync h)
    · cases h
      exact SameSync.setPreemptCnt k _

theorem threadYield_sync {b : Build} {fuel : Nat} {k k' : Kernel} (h : threadYield b fuel k = .ok k') : SameSync k k' := by
  unfold threadYield at h
  split at h
  · cases h
    exact SameSync.refl k
  split at h
  · cases h
    exact SameSync.refl k
  obtain ⟨r, -, h⟩ := bind_ok.mp h
  cases r with
  | none =>
    cases h
    exact SameSync.refl k
  | some n =>
    dsimp only at h
    split at h
    · cases h
      exact SameSync.of_eq rfl rfl rfl
    · cases h
      exact SameSync.refl k

theorem irq_sync {b : Build} {fuel intid : Nat} {guardOk r : Bool} {k k1 k' : Kernel}
    (h1 : irqHandlerEl1 b fuel guardOk intid k = .ok (k1, r))
    (h : (if r then preemptReturn b fuel k1 else .ok k1) = .ok k') : SameSync k k' := by
  refine (irqHandlerEl1_only h1).1.sameSync.trans ?_
  cases r with
  | false =>
    cases h
    exact SameSync.refl _
  | true =>
    simp only [if_true, preemptReturn] at h
    split at h
    · exact schedReschedFromIrqTail_sync h
    · cases h
      exact SameSync.refl _

/-- A step, as far as owners, queues, counts and priorities go. -/
inductive SyncStep (b : Build) (s s' : Sys) (cur : ThreadId) (a : Act) : Prop
  | call (c : Call) (r : Ret) (e : Event) (fuel : Nat) (k0 k2 : Kernel) : Calling s cur a c → SameSync s.k k0 →
      k0.cpu.currentThread = some cur → callBody b fuel c k0 = .ok (k2, r) → SameSync k2 s'.k →
      Outcome s.k cur c r e → Effect cur s.k s'.k e →
      (∀ σ, (s'.k.sems σ).count = (s.k.sems σ).count + countDelta σ c) →
      SameRecord (s.record cur c r) s' → SyncStep b s s' cur a
  | finish (c : Call) (r : Int) : a = .resume → s.cont cur = .returning c r → s' = s.finish cur c → SyncStep b s s' cur a
  | sched : (∀ c, ¬ Calling s cur a c) → SameSync s.k s'.k → SameRecord s s' → SyncStep b s s' cur a

theorem Closing.before {b : Build} {fuel : Nat} {c : Call} {k k0 k2 k3 : Kernel} (h : Closing b fuel c k k0 k2 k3) :
    k0 = k ∨ k0 = preemptDisable k := by
  cases h with
  | unprotected _ _ h _ => exact Or.inl h
  | enable h _ => exact Or.inr h

theorem Closing.sync {b : Build} {fuel : Nat} {c : Call} {k k0 k2 k3 : Kernel} (h : Closing b fuel c k k0 k2 k3) : SameSync k2 k3 := by
  cases h with
  | unprotected _ _ _ h =>
    rw [h]
    exact SameSync.refl k2
  | enable _ h => exact preemptEnable_sync h

theorem Sys.step_sync {b : Build} {fuel : Nat} {s s' : Sys} {a : Act} (h : s.step b fuel a = .ok s') :
    ∃ cur, s.k.cpu.currentThread = some cur ∧ SyncStep b s s' cur a := by
  obtain ⟨cur, hcur, hcases⟩ := Sys.step_cases h
  refine ⟨cur, hcur, ?_⟩
  cases hcases with
  | call c r k0 k2 k3 hcall hb hcl hs =>
    have hend : SameSync k2 s'.k := by
      rw [hs]
      exact hcl.sync.trans (Sys.settle_sync _ cur .tail k3)
    have hrec : SameRecord (s.record cur c r) s' := by
      rw [hs]
      exact Sys.settle_record _ cur .tail k3
    have h0 : SameSync s.k k0 ∧ k0.cpu.currentThread = some cur := by
      rcases hcl.before with rfl | rfl
      · exact ⟨SameSync.refl _, hcur⟩
      · exact ⟨SameSync.setPreemptCnt _ _, hcur⟩
    -- the event, seen from the state before `preempt_disable`
    obtain ⟨e, hout, hdid⟩ := callBody_outcome h0.2 hb
    have hcount := callBody_count h0.2 hb
    have heff := hdid.toEffect.same hend.own hend.wait
    exact .call c r e fuel k0 k2 hcall h0.1 h0.2 hb hend (hout.before h0.1) (heff.before h0.1)
      (fun σ => (hend.wait.count σ).trans ((hcount σ).trans (by rw [h0.1.wait.count]))) hrec
  | finish c r ha hcont hs => exact .finish c r ha hcont hs
  | yield k ha hk hs =>
    subst hs
    refine .sched (fun c hc => ?_) ((threadYield_sync hk).trans (Sys.settle_sync s cur .yield k)) (Sys.settle_record s cur .yield k)
    rw [ha] at hc
    cases hc
  | irq intid guardOk r k1 k ha h1 hk hs =>
    subst hs
    refine .sched (fun c hc => ?_) ((irq_sync h1 hk).trans (Sys.settle_sync s cur .tail k)) (Sys.settle_record s cur .tail k)
    rw [ha] at hc
    cases hc

/-- The object the caller sleeps on after an event. -/
def Event.sleepsOn : Event → Option WaitObj
  | .blocked o => some o
  | _ => none

theorem Outcome.blocks {k : Kernel} {cur : ThreadId} {c : Call} {r : Ret} {e : Event} (h : Outcome k cur c r e) :
    callBlocks k cur c = e.sleepsOn := by
  cases h with
  | relock m h => exact if_pos (Or.inr h)
  | lock m h => exact if_pos (Or.inl h)
  | lockBlocks m o h hne =>
    refine if_neg fun hor => ?_
    rw [h] at hor
    rcases hor with hor | hor
    · cases hor
    · exact hne (Option.some.inj hor)
  | down σ h => exact if_pos h
  | downBlocks σ h => exact if_neg (by omega)
  | init m h => rfl
  | retry m h => rfl
  | trylock m h => rfl
  | busy m h => rfl
  | foreign m h => rfl
  | unlock m h => rfl
  | handover m w h => rfl
  | setPi m en => rfl
  | up σ h => rfl
  | upWakes σ w h => rfl

theorem Calling.blocksOn {s : Sys} {cur : ThreadId} {a : Act} {c : Call} (h : Calling s cur a c)
    (hc : s.k.cpu.currentThread = some cur) : blocksOn s a = callBlocks s.k cur c := by
  cases h with
  | first c hu => simp only [Microkernel.blocksOn, hc, hu]
  | again m hu => simp only [Microkernel.blocksOn, hc, hu]

theorem not_calling_blocksOn {s : Sys} {cur : ThreadId} {a : Act} (hc : s.k.cpu.currentThread = some cur)
    (h : ∀ c, ¬ Calling s cur a c) : blocksOn s a = none := by
  unfold blocksOn
  simp only [hc]
  split
  · rename_i c hu
    exact absurd (.first c hu) (h c)
  · rename_i m hu
    exact absurd (.again m hu) (h _)
  · rfl

/-- A caller that may be a waiter is back in its own `mutex_lock`. -/
theorem Calling.waiting {s : Sys} {cur : ThreadId} {a : Act} {c : Call} (h : Calling s cur a c) {o : WaitObj}
    (hw : waitsFor s cur o) : ∃ m, o = .mutex m ∧ c = .mutexLock m := by
  cases h with
  | first c hu =>
    cases o with
    | mutex m =>
      have := hw.1
      rw [hu] at this
      cases this
    | sem σ =>
      have := hw.1
      rw [hu] at this
      cases this
  | again m hu =>
    cases o with
    | mutex n =>
      have := hw.1
      rw [hu] at this
      cases this
      exact ⟨m, rfl, rfl⟩
    | sem σ =>
      have := hw.1
      rw [hu] at this
      cases this

/-- What a thread's continuation says after a call. -/
theorem cont_record (s : Sys) (cur : ThreadId) (c : Call) (r : Ret) (t : ThreadId) :
    (s.record cur c r).cont t = if t = cur then r.cont c else s.cont t := by
  simp only [Sys.record, Function.update_apply]

/-- Only its own unlock takes a mutex from its owner. -/
theorem owner_kept {k : Kernel} {cur t : ThreadId} {c : Call} {r : Ret} {e : Event} {m : MutexId} (ho : Outcome k cur c r e)
    (ht : ownerOf k m = some t) : e.ownerAfter cur k m = some t ∨ c = .mutexUnlock m ∧ t = cur := by
  have hfree : ∀ n, ownerOf k n = none → m ≠ n := by
    intro n hn e
    rw [e, hn] at ht
    cases ht
  cases ho with
  | lock n h => exact Or.inl ((if_neg (hfree n h)).trans ht)
  | trylock n h => exact Or.inl ((if_neg (hfree n h)).trans ht)
  | unlock n h =>
    by_cases hn : m = n
    · subst hn
      rw [ht] at h
      cases h
      exact Or.inr ⟨rfl, rfl⟩
    · exact Or.inl ((if_neg hn).trans ht)
  | handover n w h =>
    by_cases hn : m = n
    · subst hn
      rw [ht] at h
      cases h
      exact Or.inr ⟨rfl, rfl⟩
    · exact Or.inl ((if_neg hn).trans ht)
  | init n h => exact Or.inl ht
  | relock n h => exact Or.inl ht
  | lockBlocks n o h hne => exact Or.inl ht
  | retry n h => exact Or.inl ht
  | busy n h => exact Or.inl ht
  | foreign n h => exact Or.inl ht
  | setPi n en => exact Or.inl ht
  | down σ h => exact Or.inl ht
  | downBlocks σ h => exact Or.inl ht
  | up σ h => exact Or.inl ht
  | upWakes σ w h => exact Or.inl ht

/-! ## Boot -/

/-- Nobody owns, waits or is boosted. -/
structure Pristine (b : Build) (counts : SemId → Int) (k : Kernel) : Prop where
  mutexes : ∀ m, k.mutexes m = ⟨none, none, none, b.mutexPi⟩
  sems : ∀ s, k.sems s = ⟨counts s, none⟩
  owned : ∀ t, ownedOf k t = none
  waitNext : ∀ t, waitNextOf k t = none
  state : ∀ t, stateOf k t = .ready
  eff : ∀ t, effPrio k t = basePrio k t

theorem pristine_boot (b : Build) (counts : SemId → Int) : Pristine b counts (bootKernel b counts) := by
  refine ⟨fun m => ?_, fun s => ?_, fun _ => rfl, fun _ => rfl, fun _ => rfl, fun _ => rfl⟩
  · simp [bootKernel, schedInit, mutexInit]
  · simp [bootKernel, schedInit, semInit]

theorem Pristine.sync {b : Build} {counts : SemId → Int} {k k' : Kernel} (h : Pristine b counts k) (hs : SameSync k k')
    (hm : k'.mutexes = k.mutexes) (hse : k'.sems = k.sems) : Pristine b counts k' :=
  ⟨fun m => hm ▸ h.mutexes m, fun s => hse ▸ h.sems s, fun t => (hs.own.owned t).trans (h.owned t),
    fun t => (hs.wait.waitNext t).trans (h.waitNext t), fun t => (hs.wait.state t).trans (h.state t),
    fun t => (hs.prio.eff t).trans ((h.eff t).trans (hs.prio.base t).symm)⟩

theorem Pristine.create {b : Build} {counts : SemId → Int} {k : Kernel} (h : Pristine b counts k) (t : ThreadId) (base : Int) :
    Pristine b counts (k.setThread t fun _ => threadCreatePrio base) := by
  refine ⟨h.mutexes, h.sems, fun u => ?_, fun u => ?_, fun u => ?_, fun u => ?_⟩
  · simp only [ownedOf, Kernel.setThread_threads]
    split
    · rfl
    · exact h.owned u
  · simp only [waitNextOf, Kernel.setThread_threads]
    split
    · rfl
    · exact h.waitNext u
  · simp only [stateOf, Kernel.setThread_threads]
    split
    · rfl
    · exact h.state u
  · simp only [effPrio, basePrio, Kernel.setThread_threads]
    split
    · rfl
    · exact h.eff u

theorem pristine_spawn {b : Build} {counts : SemId → Int} {k k' : Kernel} {t : ThreadId × Int} (h : Pristine b counts k)
    (hs : spawn k t = .ok k') : Pristine b counts k' := by
  have h1 := h.create t.1 t.2
  -- `sched_add` finds the thread READY: only links change
  have hro := rqAppend_rqOnly hs
  have hready : ∀ k : Kernel, stateOf k t.1 = .ready →
      (k.setThread t.1 fun x => if x.state ≠ .ready then { x with state := .ready } else x) = k.setThread t.1 id := by
    intro k hk
    unfold stateOf at hk
    simp [Kernel.setThread, hk]
  rw [hready _ (h1.state t.1)] at hro
  have hid : ∀ k : Kernel, k.setThread t.1 id = k := fun k => by simp [Kernel.setThread]
  rw [hid] at hro
  exact h1.sync hro.sameSync hro.mutexes hro.sems

theorem pristine_spawns {b : Build} {counts : SemId → Int} {ts : List (ThreadId × Int)} {k k' : Kernel}
    (h : Pristine b counts k) (hs : ts.foldlM spawn k = .ok k') : Pristine b counts k' := by
  induction ts generalizing k with
  | nil =>
    cases hs
    exact h
  | cons t ts ih =>
    rw [List.foldlM_cons] at hs
    obtain ⟨k1, h1, hs⟩ := bind_ok.mp hs
    exact ih (pristine_spawn h h1) hs

theorem schedStart_cases {b : Build} {fuel : Nat} {k k' : Kernel} (h : schedStart b fuel k = .ok k') :
    ∃ cur, startPick b fuel k = .ok (some cur) ∧ SchedOnly k k' ∧ k'.cpu.currentThread = some cur := by
  obtain ⟨r, hr, h⟩ := bind_ok.mp h
  cases r with
  | none => cases h
  | some c =>
    cases h
    refine ⟨c, hr, ?_, rfl⟩
    exact (SchedOnly.setBudget k c _ fun x => ⟨_, rfl⟩).trans (SchedOnly.setCurrent _ _)

/-- What boot leaves: nobody owns or waits, and no call is recorded. -/
structure Booted (b : Build) (counts : SemId → Int) (s : Sys) : Prop where
  kernel : Pristine b counts s.k
  cont : ∀ t, s.cont t = .user
  entered : ∀ σ, s.entered σ = 0
  returned : ∀ σ, s.returned σ = 0
  ups : ∀ σ, s.ups σ = 0
  holds : ∀ t m, s.holds t m = false

theorem boot_cases {b : Build} {fuel : Nat} {ts : List (ThreadId × Int)} {counts : SemId → Int} {s : Sys}
    (h : boot b fuel ts counts = .ok s) :
    Booted b counts s ∧ ∃ k, ts.foldlM spawn (bootKernel b counts) = .ok k ∧ schedStart b fuel k = .ok s.k := by
  obtain ⟨k, hk, h⟩ := bind_ok.mp h
  obtain ⟨k', hk', h⟩ := bind_ok.mp h
  cases h
  obtain ⟨cur, -, hso, -⟩ := schedStart_cases hk'
  have hp := (pristine_spawns (pristine_boot b counts) hk).sync hso.sameSync hso.mutexes hso.sems
  exact ⟨⟨hp, fun _ => rfl, fun _ => rfl, fun _ => rfl, fun _ => rfl, fun _ _ => rfl⟩, k, hk, hk'⟩

/-! ## For the scheduler -/

/-- Between steps: the run queue `l` of the threads `ts` is sound, `cur` runs, preemption
    is enabled, and only known threads are inside a call. -/
structure Live (ts : List ThreadId) (s : Sys) (l : List ThreadId) (cur : ThreadId) : Prop where
  queue : RunQueue s.k ts l
  current : s.k.cpu.currentThread = some cur
  currentIn : cur ∈ ts
  preemptCnt : s.k.cpu.preemptCnt = 0
  irqDepth : s.k.cpu.irqDepth = 0
  inside : ∀ t, s.cont t ≠ .user → t ∈ ts

/-- Spawning distinct threads is a run of the run queue's operations. -/
theorem spawns_run {ts : List (ThreadId × Int)} {k k' : Kernel} {q : Queue} (h : RqRun k q)
    (hn : (ts.map Prod.fst).Nodup) (hd : ∀ t ∈ ts.map Prod.fst, t ∉ q.created) (hs : ts.foldlM spawn k = .ok k') :
    ∃ q', RqRun k' q' ∧ q'.current = q.current ∧ (∀ t, t ∈ q'.added ↔ t ∈ ts.map Prod.fst ∨ t ∈ q.added) ∧
      ∀ t, t ∈ q'.created ↔ t ∈ ts.map Prod.fst ∨ t ∈ q.created := by
  induction ts generalizing k q with
  | nil =>
    cases hs
    exact ⟨q, h, rfl, by simp, by simp⟩
  | cons t ts ih =>
    rw [List.foldlM_cons] at hs
    obtain ⟨k1, h1, hs⟩ := bind_ok.mp hs
    rw [List.map_cons, List.nodup_cons] at hn
    have htq : t.1 ∉ q.created := hd t.1 (by simp)
    have hcr := h.step (.create t.1 t.2) 0 htq rfl
    have hta : t.1 ∉ q.added := fun hm => htq ((rep_run h).addedCreated _ hm)
    have had := hcr.step (.add t.1) 0 ⟨List.mem_cons_self, hta⟩ h1
    obtain ⟨q', hr, hc, hadd, hcreated⟩ := ih had hn.2 (by
      intro u hu hm
      rcases List.mem_cons.mp hm with hm | hm
      · exact hn.1 (hm ▸ hu)
      · exact hd u (by simp [hu]) hm) hs
    refine ⟨q', hr, hc, fun u => ?_, fun u => ?_⟩
    · rw [hadd]
      simp only [Queue.step, List.map_cons, List.mem_cons]
      tauto
    · rw [hcreated]
      simp only [Queue.step, List.map_cons, List.mem_cons]
      tauto

theorem spawns_cpu {ts : List (ThreadId × Int)} {k k' : Kernel} (hs : ts.foldlM spawn k = .ok k') : k'.cpu = k.cpu := by
  induction ts generalizing k with
  | nil =>
    cases hs
    rfl
  | cons t ts ih =>
    rw [List.foldlM_cons] at hs
    obtain ⟨k1, h1, hs⟩ := bind_ok.mp hs
    exact (ih hs).trans (rqAppend_rqOnly h1).cpu

theorem RunQueue.mem_congr {k : Kernel} {ts ts' l : List ThreadId} (h : RunQueue k ts l) (ht : ∀ t, t ∈ ts' ↔ t ∈ ts) :
    RunQueue k ts' l :=
  ⟨h.ring, fun t => by rw [h.mem, ht], fun t hta => h.unlinked t ((ht t).mp hta)⟩

/-- The threads that were added are queued. -/
theorem spawns_queue {b : Build} {ts : List (ThreadId × Int)} {counts : SemId → Int} {k : Kernel} (hn : (ts.map Prod.fst).Nodup)
    (hk : ts.foldlM spawn (bootKernel b counts) = .ok k) : ∃ l, RunQueue k (ts.map Prod.fst) l := by
  obtain ⟨q, hrun, -, hadd, -⟩ := spawns_run (q := Queue.init) (RqRun.init _ rfl) hn (by intro t _ hm; cases hm) hk
  exact ⟨q.line, (rep_run hrun).queue.mem_congr fun t => by simp [hadd, Queue.init]⟩

theorem boot_live {b : Build} {fuel : Nat} {ts : List (ThreadId × Int)} {counts : SemId → Int} {s : Sys}
    (hn : (ts.map Prod.fst).Nodup) (h : boot b fuel ts counts = .ok s) :
    ∃ l cur, Live (ts.map Prod.fst) s l cur ∧ isReady s.k cur := by
  obtain ⟨hb, k, hk, hst⟩ := boot_cases h
  obtain ⟨l, hq⟩ := spawns_queue hn hk
  obtain ⟨cur, hpick, hso, hcur⟩ := schedStart_cases hst
  have hcl := startPick_mem hq hpick
  have hcpu := spawns_cpu hk
  refine ⟨l, cur, ⟨hso.runQueue hq, hcur, ((hq.mem cur).mp hcl).1, ?_, ?_, fun t ht => absurd (hb.cont t) ht⟩,
    (hso.ready_iff cur).mpr ((hq.mem cur).mp hcl).2⟩
  · rw [hso.preemptCnt, hcpu]
    rfl
  · rw [hso.irqDepth, hcpu]
    rfl

/-- A settled step of the kernel state is live. -/
theorem Live.settle {ts l : List ThreadId} {s : Sys} {cur n : ThreadId} (how : Susp) {k : Kernel} (hq : RunQueue k ts l)
    (hc : k.cpu.currentThread = some n) (hn : n ∈ ts) (hp : k.cpu.preemptCnt = 0) (hd : k.cpu.irqDepth = 0)
    (hin : ∀ t, s.cont t ≠ .user → t ∈ ts) : Live ts (s.settle cur how k) l n := by
  obtain ⟨hk, hrec⟩ := s.settle_cases cur how k
  rcases hk with hk | hk
  · refine ⟨by rwa [hk], by rwa [hk], hn, by rwa [hk], by rwa [hk], fun t ht => hin t (by rwa [hrec.cont] at ht)⟩
  · refine ⟨?_, ?_, hn, ?_, ?_, fun t ht => hin t (by rwa [hrec.cont] at ht)⟩
    · rw [hk]
      exact hq.congr (fun _ => rfl) (fun _ => rfl) rfl rfl
    · rw [hk]
      exact hc
    · rw [hk]
      exact hp
    · rw [hk]
      exact hd

theorem settle_ready {s : Sys} {cur : ThreadId} {how : Susp} {k : Kernel} {t : ThreadId} (h : isReady k t) :
    isReady (s.settle cur how k).k t := ((s.settle_sync cur how k).wait.ready t).mpr h

/-- A scheduler operation in a step: some thread of `ts` runs next, and a READY one if the
    operation may only stay on a READY thread. -/
theorem Switched.live {stay : Prop} {ts l : List ThreadId} {s : Sys} {cur : ThreadId} {k k' : Kernel} (how : Susp)
    (h : Switched stay l cur k k') (hq : RunQueue k ts l) (hc : cur ∈ ts) (hp : k.cpu.preemptCnt = 0)
    (hd : k.cpu.irqDepth = 0) (hin : ∀ t, s.cont t ≠ .user → t ∈ ts) :
    ∃ n, Live ts (s.settle cur how k') l n ∧ ((stay → isReady k cur) → isReady (s.settle cur how k').k n) := by
  have ho := h.only
  have hp' := ho.preemptCnt.trans hp
  have hd' := ho.irqDepth.trans hd
  cases h with
  | stayed hst _ hcur =>
    refine ⟨cur, Live.settle how (ho.runQueue hq) hcur hc hp' hd' hin, fun hr => settle_ready ?_⟩
    exact (ho.ready_iff cur).mpr (hr hst)
  | switched n hn _ _ hcur =>
    have hm := (hq.mem n).mp hn
    exact ⟨n, Live.settle how (ho.runQueue hq) hcur hm.1 hp' hd' hin, fun _ => settle_ready ((ho.ready_iff n).mpr hm.2)⟩

end Microkernel

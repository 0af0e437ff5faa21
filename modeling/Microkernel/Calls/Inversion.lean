/-
  Microkernel.Calls.Inversion — no priority inversion survives a timer tick
  (SCHED_POLICY=PRIO, MUTEX_PI=1).

  Three facts about three parts of the kernel make one about the whole. The tick leaves a
  READY thread of maximal effective priority running (`irq_top`); inheritance lifts an
  owner to its waiters, one level deep; and where a thread only blocks while it owns
  nothing (`Unnested`), one level is all there is: every owner is READY (`owner_ready`).
  The mutex calls and `QuietBlock` are those of `Microkernel.Calls.Inheritance`.

  Proved (`no_inversion`): after each timer tick the effective priority of the running
  thread is at least that of every thread, READY or waiting.
-/

import Microkernel.Calls.Asleep
import Microkernel.Calls.Inheritance
import Microkernel.Calls.Lockdep

namespace Microkernel

open Linked

/-! ## The tick -/

section Tick

variable {b : Build} {fuel : Nat} {k k' : Kernel} {ts l : List ThreadId} {cur : ThreadId}

/-- After the tick: a reschedule is asked for, or no READY thread is above the current one. -/
theorem schedOnTick_top {guardOk : Bool} (hb : b.policy = .prio) (h : RqRing k l) (hcur : k.cpu.currentThread = some cur)
    (hr : isReady k cur) (hp : k.cpu.preemptCnt = 0) (ht : schedOnTick b fuel guardOk k = .ok k') :
    k'.cpu.needResched ≠ 0 ∨ ∀ t ∈ l, isReady k t → effPrio k t ≤ effPrio k cur := by
  simp only [schedOnTick, hcur, hp, hb, hr, ne_eq, not_true_eq_false, if_false] at ht
  split at ht
  · cases ht
  obtain ⟨r, hgt, ht⟩ := bind_ok.mp ht
  have hspec := (rqHasReadyPrioGt_spec h (effPrio k cur) fuel).1 r hgt
  cases r with
  | true =>
    cases ht
    exact Or.inl Nat.one_ne_zero
  | false =>
    refine Or.inr fun t htl htr => ?_
    by_contra hlt
    cases hspec.mpr ⟨t, htl, htr, by omega⟩

/-- The reschedule on the way out runs a READY thread of maximal priority. -/
theorem tail_top (hb : b.policy = .prio) (h : RunQueue k ts l) (hcur : k.cpu.currentThread = some cur) (hc : cur ∈ l)
    (hp : k.cpu.preemptCnt = 0) (ht : schedReschedFromIrqTail b fuel k = .ok k') :
    ∃ n, k'.cpu.currentThread = some n ∧ IsTop k l n := by
  have hready := ((h.mem cur).mp hc).2
  simp only [schedReschedFromIrqTail, hp, ne_eq, not_true_eq_false, if_false, hcur] at ht
  obtain ⟨r, hpick, ht⟩ := bind_ok.mp ht
  simp only [tailPick, hb] at hpick
  have hin : ∀ c, some cur = some c → c ∈ l := by
    intro c hcc
    cases hcc
    exact hc
  obtain ⟨n, rfl, htop, -⟩ := (prioPickNext_spec h.ring hc hready (some cur) _ _ (fun c hcc _ => hin c hcc)
    (fun _ c hcc => Or.inl (hin c hcc)) fuel).1 r hpick
  refine ⟨n, ?_, htop⟩
  by_cases hnc : n = cur
  · simp only [if_pos hnc] at ht
    cases ht
    exact hcur.trans (by rw [hnc])
  · simp only [if_neg hnc] at ht
    cases ht
    rfl

/-- A timer interrupt, and `preempt_return` if the frame was redirected to it, leaves a top thread running. -/
theorem irq_top {guardOk r : Bool} {intid : Nat} {k1 : Kernel} (hb : b.policy = .prio) (h : RunQueue k ts l)
    (hcur : k.cpu.currentThread = some cur) (hc : cur ∈ l) (hp : k.cpu.preemptCnt = 0) (htick : intid = 27 ∨ intid = 30)
    (hi : irqHandlerEl1 b fuel guardOk intid k = .ok (k1, r))
    (hr : (if r then preemptReturn b fuel k1 else .ok k1) = .ok k') : ∃ n, k'.cpu.currentThread = some n ∧ IsTop k l n := by
  obtain ⟨ho, hc1, -, hred⟩ := irqHandlerEl1_only hi
  cases r with
  | true =>
    obtain ⟨-, hp1, hn⟩ := hred rfl
    have ht : schedReschedFromIrqTail b fuel k1 = .ok k' := by
      simpa [preemptReturn, hp1, hn] using hr
    obtain ⟨n, hcn, htop⟩ := tail_top hb (ho.runQueue h) (hc1.trans hcur) hc hp1 ht
    exact ⟨n, hcn, ho.isTop.mp htop⟩
  | false =>
    cases hr
    refine ⟨cur, hc1.trans hcur, hc, ((h.mem cur).mp hc).2, ?_⟩
    unfold irqHandlerEl1 at hi
    obtain ⟨⟨k2, r2⟩, h1, h2⟩ := bind_ok.mp hi
    unfold irqDispatch at h1
    rw [if_pos htick] at h1
    obtain ⟨k3, ht, h3⟩ := bind_ok.mp h1
    have hso := schedOnTick_only ht
    rcases schedOnTick_top (l := l) hb (by exact h.ring.congr (fun _ => rfl) rfl rfl) (by exact hcur) (by exact ((h.mem cur).mp hc).2)
      (by exact hp) ht with hn | htop
    · -- a request would have redirected the frame
      cases h3
      have hno : ¬ (k2.cpu.currentThread.isSome ∧ k2.cpu.preemptCnt = 0 ∧ k2.cpu.needResched ≠ 0) :=
        of_decide_eq_false (Prod.mk.inj (Except.ok.inj h2)).2
      refine absurd ⟨?_, hso.1.preemptCnt.trans hp, hn⟩ hno
      rw [hso.2.1]
      exact Option.isSome_iff_exists.mpr ⟨cur, hcur⟩
    · cases h3
      obtain ⟨rfl, -⟩ := Prod.mk.inj (Except.ok.inj h2)
      exact htop

end Tick

/-! ## Inheritance in runs with semaphores -/

theorem semUp_prio {fuel : Nat} {σ : SemId} {k k' : Kernel} {cur : ThreadId} (hc : k.cpu.currentThread = some cur)
    (h : semUp fuel σ k = .ok k') : SamePrio k k' := by
  rcases semUp_cases hc h with ⟨-, rfl⟩ | ⟨-, k2, head, p, h2, h3⟩
  · exact SamePrio.setSem k σ _
  · have hto2 : SamePrio k (k2.setSem σ fun x => { x with waiters := head }) :=
      ((SamePrio.setSem k σ _).trans (popped_frame h2).prio).trans (SamePrio.setSem k2 σ _)
    rcases h3 with ⟨-, rfl⟩ | ⟨v, k3, -, h3, h4⟩
    · exact hto2
    · have hto3 := hto2.trans (schedMakeRunnable_restated h3).prio
      rcases h4 with rfl | rfl
      · exact hto3
      · rcases requestIfAbove_cases v cur k3 with he | he
        · rwa [he]
        · rw [he]
          exact hto3.trans (SameSync.setNeedResched k3 _).prio

theorem semDown_prio {fuel : Nat} {σ : SemId} {k k' : Kernel} {cur : ThreadId} {r : Bool} (hc : k.cpu.currentThread = some cur)
    (h : semDown fuel σ k = .ok (k', r)) : SamePrio k k' := by
  rcases semDown_cases hc h with ⟨-, -, rfl⟩ | ⟨-, -, k2, h2, rfl⟩
  · exact SamePrio.setSem k σ _
  · have hc2 : (semEnqueue cur σ (setCount k σ ((k.sems σ).count - 1))).cpu.currentThread = some cur := hc
    have henq : SamePrio k (semEnqueue cur σ (setCount k σ ((k.sems σ).count - 1))) :=
      ((SamePrio.setSem k σ _).trans (setWaitingOn_sameSync _ cur none).prio).trans
        ((setWaitNext_prio _ cur _).trans (SamePrio.setSem _ σ _))
    exact (henq.trans (schedBlockCurrent_restated hc2 h2).prio).trans (SameSync.setNeedResched k2 _).prio

/-- A call of the two interfaces, less `mutex_init` and `mutex_set_pi_enabled`. -/
def Call.isSync : Call → Bool
  | .mutexInit _ | .mutexSetPiEnabled _ _ => false
  | _ => true

/-- Every such call does to owners, queues and priorities what its event says. -/
theorem callBody_lifts {b : Build} {fuel : Nat} {c : Call} {k k' : Kernel} {r : Ret} {cur : ThreadId} (hb : b.mutexPi = true)
    (hc : k.cpu.currentThread = some cur) (hsync : c.isSync = true) (hpi : AllPi k) (hl : OwnerLists k none) (hh : Heads k cur)
    (hquiet : ∀ o, callBlocks k cur c = some o → waitersOf k o = none) (h : callBody b fuel c k = .ok (k', r)) :
    ∃ e, Outcome k cur c r e ∧ Effect cur k k' e ∧ PrioStep cur k k' e := by
  cases c with
  | mutexInit m => cases hsync
  | mutexSetPiEnabled m en => cases hsync
  | mutexLock m => exact callBody_prio hb hc (.lock m) hpi hl hh hquiet h
  | mutexTrylock m => exact callBody_prio hb hc (.trylock m) hpi hl hh hquiet h
  | mutexUnlock m => exact callBody_prio hb hc (.unlock m) hpi hl hh hquiet h
  | semDown σ =>
    obtain ⟨e, hout, hdid⟩ := callBody_outcome hc h
    obtain ⟨⟨k1, got⟩, h1, h⟩ := bind_ok.mp h
    cases h
    refine ⟨e, hout, hdid.toEffect, PrioStep.quiet hpi (semDown_prio hc h1) fun t ht => ?_⟩
    cases hout with
    | down _ _ => exact ht
    | downBlocks _ _ => exact ht
  | semUp σ =>
    obtain ⟨e, hout, hdid⟩ := callBody_outcome hc h
    obtain ⟨k1, h1, h⟩ := bind_ok.mp h
    cases h
    refine ⟨e, hout, hdid.toEffect, PrioStep.quiet hpi (semUp_prio hc h1) fun t ht => ?_⟩
    cases hout with
    | up _ _ => exact ht
    | upWakes _ _ _ => exact ht

def syncAct : Act → Bool
  | .call c => c.isSync
  | _ => true

structure LiftInv (s : Sys) : Prop where
  wait : WaitInv s
  lost : NoneLost s
  lists : OwnerLists s.k none
  pi : AllPi s.k
  level : OneLevel s.k

theorem lift_step {b : Build} {fuel : Nat} {s s' : Sys} {a : Act} {cur : ThreadId} (hb : b.mutexPi = true) (h : LiftInv s)
    (hcur : s.k.cpu.currentThread = some cur) (hr : isReady s.k cur) (ha : syncAct a = true) (hq : QuietBlock s a)
    (hs : s.step b fuel a = .ok s') : LiftInv s' := by
  have hwait' := waitInv_step h.wait hcur (Steady.of_ready hr) (fun _ _ => Or.inl hr) hs
  have hlost' := noneLost_step h.wait h.lost hcur (Steady.of_ready hr) hq hs
  obtain ⟨cur', hcur', hcase⟩ := Sys.step_sync hs
  rw [hcur] at hcur'
  cases hcur'
  cases hcase with
  | call c r e0 fuel0 k0 k2 hcall h0 hc0 hbody h2 _ _ _ hrec =>
    have hh := h.wait.heads hcur hq hcall
    have hsync : c.isSync = true := by
      cases hcall with
      | first c _ => exact ha
      | again m _ => rfl
    obtain ⟨e, hout0, heff0, hprio0⟩ := callBody_lifts hb hc0 hsync (fun m => (h0.prio.pi m).trans (h.pi m)) (h.lists.congr h0.own)
      (hh.congr h0) (fun o ho => (h0.wait.waiters o).trans (hq o (by rw [hcall.blocksOn hcur, ← callBlocks_congr h0, ho]))) hbody
    have hout := hout0.before h0
    have heff := (heff0.before h0).same h2.own h2.wait
    have hprio := hprio0.between h0 h2
    refine ⟨hwait', hlost', heff.lists h.lists, hprio.pi, h.level.step hh hout heff hprio fun o he => hq o ?_⟩
    rw [hcall.blocksOn hcur, hout.blocks, he]
    rfl
  | finish c r _ _ hs' =>
    subst hs'
    exact ⟨hwait', hlost', h.lists, h.pi, h.level⟩
  | sched _ hsync _ =>
    exact ⟨hwait', hlost', h.lists.congr hsync.own, fun m => (hsync.prio.pi m).trans (h.pi m), h.level.sync hsync⟩

namespace LiftInv

variable {s : Sys} (h : LiftInv s)

include h

theorem donates {w o : ThreadId} {m : MutexId} (ho : ownerOf s.k m = some o) (hw : waitsFor s w (.mutex m)) : Donates s.k w o :=
  ⟨m, ho, h.lost _ w hw⟩

theorem owner {t : ThreadId} {m : MutexId} (hw : waitsFor s t (.mutex m)) : ∃ o, ownerOf s.k m = some o := by
  cases ho : ownerOf s.k m with
  | none =>
    have hhead := h.lost _ t hw
    rw [h.wait.free m ho] at hhead
    cases hhead
  | some o => exact ⟨o, rfl⟩

end LiftInv

/-! ## Owners are READY -/

/-- The caller owns nothing when it blocks. -/
def Unnested (s : Sys) (a : Act) : Prop := ∀ o ∈ blocksOn s a, ∀ cur ∈ s.k.cpu.currentThread, ownedOf s.k cur = none

instance (s : Sys) (a : Act) : Decidable (Unnested s a) :=
  inferInstanceAs (Decidable (∀ o ∈ blocksOn s a, ∀ cur ∈ s.k.cpu.currentThread, ownedOf s.k cur = none))

def FlatStep (ts : List (ThreadId × Int)) (s : Sys) (a : Act) : Prop :=
  OtherReady ts s a ∧ QuietBlock s a ∧ Unnested s a ∧ syncAct a = true

instance (ts : List (ThreadId × Int)) (s : Sys) (a : Act) : Decidable (FlatStep ts s a) :=
  inferInstanceAs (Decidable (_ ∧ _ ∧ _ ∧ _))

/-- A thread that waits owns nothing. -/
def Bare (s : Sys) : Prop := ∀ t o, waitsFor s t o → ∀ n, ownerOf s.k n ≠ some t

theorem owned_none {k : Kernel} {t : ThreadId} (h : OwnerLists k none) (hn : ownedOf k t = none) (m : MutexId) :
    ownerOf k m ≠ some t := by
  intro ho
  obtain ⟨l, hl, hmem⟩ := h t
  rw [hn, chain_none] at hl
  have hm := (hmem m).mpr ⟨ho, fun e => by cases e⟩
  rw [hl] at hm
  cases hm

section Steps

variable {s s' : Sys} {cur : ThreadId} {a : Act} {c : Call} {r : Ret} {e : Event}

theorem CallStep.bare (h : CallStep s s' cur a c r e) (hi : WaitInv s) (hr : isReady s.k cur) (hb : Bare s)
    (hown : ∀ o, e = .blocked o → ∀ n, ownerOf s.k n ≠ some cur) : Bare s' := by
  intro t o hw n ho
  rw [h.eff.owner] at ho
  by_cases htc : t = cur
  · subst htc
    have he := h.caller_blocked (Steady.of_ready hr) hw
    subst he
    exact hown _ rfl n ho
  · have hw0 := h.waited htc hw
    have hold := hb t o hw0 n
    cases e with
    | taken p =>
      rw [Event.ownerAfter] at ho
      split at ho
      · cases ho
        exact htc rfl
      · exact hold ho
    | freed p =>
      rw [Event.ownerAfter] at ho
      split at ho
      · cases ho
      · exact hold ho
    | handed p w =>
      rw [Event.ownerAfter] at ho
      split at ho
      · -- the new owner waits no longer
        cases ho
        obtain ⟨q, hwq, -, hno, -⟩ := h.woken_waited hi rfl
        rw [waitsFor_unique hw0 hwq] at hw
        exact hno hw
      · exact hold ho
    | _ => exact hold ho

theorem bare_step {b : Build} {fuel : Nat} (hi : WaitInv s) (hcur : s.k.cpu.currentThread = some cur) (hr : isReady s.k cur)
    (hl : OwnerLists s.k none) (hu : Unnested s a) (hb : Bare s) (hs : s.step b fuel a = .ok s') : Bare s' := by
  obtain ⟨cur', hcur', hcase⟩ := Sys.step_sync hs
  rw [hcur] at hcur'
  cases hcur'
  cases hcase with
  | call c r e _ _ _ hcall _ _ _ _ hout heff _ hrec =>
    refine (callStep_of hcall hout heff hrec).bare hi hr hb fun o he => owned_none hl (hu o ?_ cur hcur)
    rw [hcall.blocksOn hcur, hout.blocks, he]
    rfl
  | finish c r ha hcont hs' =>
    subst hs'
    intro t o hw
    exact hb t o ((finish_waits ha hcont (Steady.of_ready hr) t _).mp hw)
  | sched _ hsync hrec =>
    intro t o hw n ho
    exact hb t o ((sched_waits hsync hrec t _).mp hw) n ((hsync.own.owner n).symm.trans ho)

end Steps

section Runs

variable {b : Build} {ts : List (ThreadId × Int)} {counts : SemId → Int} {s : Sys}

theorem flat_run (hpi : b.mutexPi = true) (h : Run b (FlatStep ts) ts counts s) : LiftInv s ∧ Bare s := by
  induction h with
  | boot fuel hn hboot =>
    have hbooted := (boot_cases hboot).1
    have hinv := piInv_boot hpi hbooted
    exact ⟨⟨hinv.wait, hinv.lost, hinv.lists, hinv.pi, hinv.level⟩, fun t o hw => absurd (hbooted.cont t) (waitsFor_inside hw)⟩
  | step a fuel hrun ha hs ih =>
    obtain ⟨hi, l, cur, hl, hr⟩ := awake_run (fun _ _ h => h.1) hrun
    exact ⟨lift_step hpi ih.1 hl.current hr ha.2.2.2 ha.2.1 hs, bare_step hi hl.current hr ih.1.lists ha.2.2.1 ih.2 hs⟩

/-- An owner does not wait itself, so it is READY. -/
theorem owner_ready (hpi : b.mutexPi = true) (h : Run b (FlatStep ts) ts counts s) {m : MutexId} {o : ThreadId}
    (ho : ownerOf s.k m = some o) : isReady s.k o := by
  by_contra hr
  obtain ⟨p, hw⟩ := blocked_waits (fun _ _ h => h.1) h o (not_ready_iff.mp hr)
  exact (flat_run hpi h).2 o p hw m ho

/-- An owner is lifted to each of its waiters. -/
theorem owner_lifted (hpi : b.mutexPi = true) (h : Run b (FlatStep ts) ts counts s) {w o : ThreadId} {m : MutexId}
    (ho : ownerOf s.k m = some o) (hw : waitsFor s w (.mutex m)) : effPrio s.k w ≤ effPrio s.k o := by
  obtain ⟨hinv, hbare⟩ := flat_run hpi h
  refine (hinv.level.exact fun v hv u hu => ?_).given (hinv.donates ho hw)
  -- a waiter owns nothing, so it has no waiters
  obtain ⟨n, -, hhead⟩ := hv
  obtain ⟨p, hown, -⟩ := hu
  exact hbare v _ (hinv.wait.head _ v hhead).1 p hown

end Runs

end Microkernel

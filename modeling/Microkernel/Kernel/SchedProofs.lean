/-
  Microkernel.Kernel.SchedProofs — the scheduler's properties (see `Microkernel.Kernel.Sched`).
-/

import Microkernel.Kernel.Sched

namespace Microkernel

open Linked

/-! ## Reading the ring -/

theorem orSpin_ok {α : Type} {x : Option α} {a : α} : orSpin x = .ok a ↔ x = some a := by
  cases x <;> simp [orSpin]

theorem RqRing.cons {k : Kernel} {hd : ThreadId} {l : List ThreadId} (h : RqRing k (hd :: l)) :
    k.rqHead = some hd ∧ Seg (nextOf k) (some hd) (hd :: l) (some hd) ∧ hd ∉ l := by
  have hh : k.rqHead = some hd := h.head_eq
  refine ⟨hh, ?_, (List.nodup_cons.mp h.nodup).1⟩
  have := h.seg
  rwa [hh] at this

theorem RqRing.head_some {k : Kernel} {l : List ThreadId} (h : RqRing k l) {hd : ThreadId} (hh : k.rqHead = some hd) :
    hd ∈ l := by
  rw [h.head_eq] at hh
  exact List.mem_of_head? hh

/-- The search loop, started anywhere on the ring, sees every node. -/
theorem RqRing.find {k : Kernel} {l : List ThreadId} (h : RqRing k l) {s : ThreadId} (hs : s ∈ l)
    (p : ThreadId → Bool) (fuel : Nat) :
    (∀ r, ringFind (nextOf k) p s fuel s = some r →
      (∀ t, r = some t → t ∈ l ∧ p t = true) ∧ (r = none → ∀ t ∈ l, p t = false)) ∧
    (l.length ≤ fuel → ∃ r, ringFind (nextOf k) p s fuel s = some r) := by
  obtain ⟨l₁, l₂, rfl⟩ := List.append_of_mem hs
  have hnd := h.nodup
  simp only [List.nodup_append, List.nodup_cons, List.mem_cons] at hnd
  have hn : s ∉ l₂ ++ l₁ := by
    intro hm
    rcases List.mem_append.mp hm with hm | hm
    · exact hnd.2.1.1 hm
    · exact hnd.2.2 s hm s (Or.inl rfl) rfl
  have hmem : ∀ t, t ∈ s :: (l₂ ++ l₁) ↔ t ∈ l₁ ++ s :: l₂ := by
    intro t
    simp only [List.mem_cons, List.mem_append]
    tauto
  obtain ⟨h1, h2⟩ := ringFind_spec p (Ring.rotate h) hn fuel
  refine ⟨fun r hr => ?_, fun hf => ⟨_, h2 ?_⟩⟩
  · have hr' := h1 r hr
    refine ⟨fun t ht => ?_, fun hnone t ht => ?_⟩
    · rw [ht] at hr'
      exact ⟨(hmem t).mp (List.mem_of_find?_eq_some hr'.symm), List.find?_some hr'.symm⟩
    · rw [hnone] at hr'
      simpa using List.find?_eq_none.mp hr'.symm t ((hmem t).mpr ht)
  · show (l₂ ++ l₁).length < fuel
    simp only [List.length_append, List.length_cons] at hf ⊢
    omega

/-! ## The highest priority -/

theorem effPrio_nonneg (k : Kernel) (t : ThreadId) : 0 ≤ effPrio k t := (k.threads t).effectivePriority.nonneg

/-- `t` is a queued READY thread of maximal effective priority. -/
def IsTop (k : Kernel) (l : List ThreadId) (t : ThreadId) : Prop :=
  t ∈ l ∧ isReady k t ∧ ∀ u ∈ l, isReady k u → effPrio k u ≤ effPrio k t

theorem rqMaxReadyPriority_spec {k : Kernel} {l : List ThreadId} (h : RqRing k l) {u : ThreadId} (hu : u ∈ l)
    (hr : isReady k u) (fuel : Nat) :
    (∀ best, rqMaxReadyPriority fuel k = .ok best → 0 ≤ best ∧ (∀ t ∈ l, isReady k t → effPrio k t ≤ best) ∧
      ∃ t, IsTop k l t ∧ effPrio k t = best) ∧
    (l.length ≤ fuel → ∃ best, rqMaxReadyPriority fuel k = .ok best) := by
  cases l with
  | nil => cases hu
  | cons hd l =>
    obtain ⟨hh, hs, hn⟩ := h.cons
    obtain ⟨h1, h2⟩ := ringFold_spec (runMax (isReady k) (effPrio k)) hs hn fuel (-1)
    have hdef : rqMaxReadyPriority fuel k =
        orSpin (ringFold (nextOf k) (runMax (isReady k) (effPrio k)) hd fuel hd (-1)) := by
      simp only [rqMaxReadyPriority, hh]
      rfl
    obtain ⟨hex, hle⟩ := foldl_runMax_isGreatest (isReady k) (effPrio k) (hd :: l) (-1)
    rw [hdef]
    refine ⟨fun best hbest => ?_, fun hf => ⟨_, by rw [h2 (Nat.lt_of_succ_le hf)]; rfl⟩⟩
    rw [← h1 best (orSpin_ok.mp hbest)] at hle hex
    have hle' : ∀ t ∈ hd :: l, isReady k t → effPrio k t ≤ best := fun t ht htr => hle (Or.inr ⟨t, ht, htr, rfl⟩)
    have hu0 := effPrio_nonneg k u
    have hub := hle' u hu hr
    rcases hex with hex | ⟨t, ht, htr, hte⟩
    · omega
    · exact ⟨by omega, hle', t, ⟨ht, htr, fun v hv hvr => hte ▸ hle' v hv hvr⟩, hte⟩

theorem IsTop.unique_prio {k : Kernel} {l : List ThreadId} {t u : ThreadId} (ht : IsTop k l t) (hu : IsTop k l u) :
    effPrio k t = effPrio k u := by
  have h1 := ht.2.2 u hu.1 hu.2.1
  have h2 := hu.2.2 t ht.1 ht.2.1
  omega

/-! ## The PRIO pick -/

theorem curIsBest_iff {k : Kernel} {cur : Option ThreadId} {best : Int} :
    curIsBest k cur best = true ↔ ∃ c, cur = some c ∧ isReady k c ∧ effPrio k c = best := by
  cases cur <;> simp [curIsBest]

/-- With a READY thread queued, `prio_pick_next` returns one of maximal priority: another
    one than an excluded current thread if there is one, the current thread itself if
    nothing asks for rotation and it qualifies. -/
theorem prioPickNext_spec {k : Kernel} {l : List ThreadId} (h : RqRing k l) {u : ThreadId} (hu : u ∈ l)
    (hr : isReady k u) (cur : Option ThreadId) (ex rot : Bool) (hc : ∀ c, cur = some c → isReady k c → c ∈ l)
    (hstart : (ex || rot) = true → ∀ c, cur = some c → c ∈ l ∨ nextOf k c = none) (fuel : Nat) :
    (∀ r, prioPickNext fuel k cur ex rot = .ok r → ∃ t, r = some t ∧ IsTop k l t ∧
      (ex = true → cur = some t → ∀ v, IsTop k l v → v = t) ∧
      (ex = false → rot = false → ∀ c, cur = some c → IsTop k l c → t = c)) ∧
    (l.length ≤ fuel → ∃ r, prioPickNext fuel k cur ex rot = .ok r) := by
  obtain ⟨hd, hh⟩ : ∃ hd, k.rqHead = some hd := by
    cases l with
    | nil => cases hu
    | cons a l => exact ⟨a, h.cons.1⟩
  have hhd := h.head_some hh
  obtain ⟨hmax, hmaxT⟩ := rqMaxReadyPriority_spec h hu hr fuel
  -- a thread of the best priority is a top thread
  have htop : ∀ best, rqMaxReadyPriority fuel k = .ok best → ∀ t ∈ l, isReady k t → effPrio k t = best → IsTop k l t := by
    intro best hbest t ht htr hte
    exact ⟨ht, htr, fun v hv hvr => hte ▸ (hmax best hbest).2.1 v hv hvr⟩
  have hst : (if ex || rot then (cur.bind (nextOf k)).getD hd else hd) ∈ l := by
    split
    · rename_i hrot
      cases hcur : cur with
      | none => exact hhd
      | some c =>
        rcases hstart hrot c hcur with hcl | hcn
        · obtain ⟨n, hnl, hn⟩ := h.next_mem hcl
          simpa [hn] using hnl
        · simpa [hcn] using hhd
    · exact hhd
  simp only [prioPickNext, hh]
  constructor
  · intro r hok
    obtain ⟨best, hbest, hok⟩ := bind_ok.mp hok
    obtain ⟨hb0, hble, top, htopt, htopb⟩ := hmax best hbest
    rw [if_neg (by omega)] at hok
    split at hok
    · -- the current thread qualifies and nothing asks for rotation
      rename_i hstay
      cases hok
      simp only [Bool.and_eq_true, Bool.not_eq_true'] at hstay
      obtain ⟨⟨hex, hrot⟩, hbestc⟩ := hstay
      obtain ⟨c, rfl, hcr, hce⟩ := curIsBest_iff.mp hbestc
      refine ⟨c, rfl, htop best hbest c (hc c rfl hcr) hcr hce, fun he => ?_, fun _ _ c' hc' _ => by cases hc'; rfl⟩
      rw [he] at hex
      cases hex
    · rename_i hstay
      obtain ⟨found, hfound, hok⟩ := bind_ok.mp hok
      obtain ⟨hsome, hnone⟩ := (h.find hst _ fuel).1 found (orSpin_ok.mp hfound)
      cases found with
      | some t =>
        cases hok
        obtain ⟨htl, htp⟩ := hsome t rfl
        simp only [decide_eq_true_eq] at htp
        obtain ⟨htr, hte, hne⟩ := htp
        have htt := htop best hbest t htl htr hte
        refine ⟨t, rfl, htt, fun he hct => ?_, fun he hro c hcc hct => ?_⟩
        · simp [he, hct] at hne
        · have hbc : curIsBest k cur best = true :=
            curIsBest_iff.mpr ⟨c, hcc, hct.2.1, (hct.unique_prio htopt).trans htopb⟩
          simp [he, hro, hbc] at hstay
      | none =>
        -- every queued thread of the best priority is the excluded current thread
        have hall := hnone rfl
        have hexcl : ∀ t, IsTop k l t → ex = true ∧ cur = some t := by
          intro t ht
          have hte : effPrio k t = best := (ht.unique_prio htopt).trans htopb
          have hno := of_decide_eq_false (hall t ht.1)
          by_cases hex : ex = true
          · by_cases hct : cur = some t
            · exact ⟨hex, hct⟩
            · exact absurd ⟨ht.2.1, hte, Or.inr (Ne.symm hct)⟩ hno
          · exact absurd ⟨ht.2.1, hte, Or.inl (by simpa using hex)⟩ hno
        have hcb : curIsBest k cur best = true :=
          curIsBest_iff.mpr ⟨top, (hexcl top htopt).2, htopt.2.1, htopb⟩
        simp only [hcb, if_true] at hok
        cases hok
        have hcur := (hexcl top htopt).2
        refine ⟨top, hcur, htopt, fun _ _ v hv => ?_, fun he => ?_⟩
        · have := (hexcl v hv).2
          rw [hcur] at this
          cases this; rfl
        · rw [(hexcl top htopt).1] at he
          cases he
  · intro hf
    obtain ⟨best, hbest⟩ := hmaxT hf
    obtain ⟨found, hfound⟩ := (h.find hst
      (fun t => isReady k t ∧ effPrio k t = best ∧ (!ex ∨ some t ≠ cur)) fuel).2 hf
    simp only [hbest, bind, Except.bind]
    split
    · exact ⟨_, rfl⟩
    split
    · exact ⟨_, rfl⟩
    simp only [hfound, orSpin]
    cases found with
    | some t => exact ⟨_, rfl⟩
    | none => dsimp only; split <;> exact ⟨_, rfl⟩

/-! ## What the scheduler leaves alone -/

/-- Two kernels that differ at most in budgets, `need_resched`, the tick count and the
    current thread. -/
structure SchedOnly (k k' : Kernel) : Prop where
  threads : ∀ t, ∃ n, k'.threads t = { k.threads t with budget := n }
  mutexes : k'.mutexes = k.mutexes
  sems : k'.sems = k.sems
  rqHead : k'.rqHead = k.rqHead
  rqTail : k'.rqTail = k.rqTail
  preemptCnt : k'.cpu.preemptCnt = k.cpu.preemptCnt
  irqDepth : k'.cpu.irqDepth = k.cpu.irqDepth

namespace SchedOnly

theorem refl (k : Kernel) : SchedOnly k k := ⟨fun t => ⟨(k.threads t).budget, rfl⟩, rfl, rfl, rfl, rfl, rfl, rfl⟩

theorem trans {a b c : Kernel} (h1 : SchedOnly a b) (h2 : SchedOnly b c) : SchedOnly a c := by
  refine ⟨fun t => ?_, h2.mutexes.trans h1.mutexes, h2.sems.trans h1.sems, h2.rqHead.trans h1.rqHead,
    h2.rqTail.trans h1.rqTail, h2.preemptCnt.trans h1.preemptCnt, h2.irqDepth.trans h1.irqDepth⟩
  obtain ⟨n1, e1⟩ := h1.threads t
  obtain ⟨n2, e2⟩ := h2.threads t
  exact ⟨n2, by rw [e2, e1]⟩

/-- A field other than `budget` keeps its value. -/
theorem field {β : Type*} {k k' : Kernel} (h : SchedOnly k k') (p : Thread → β)
    (hp : ∀ x n, p { x with budget := n } = p x) (t : ThreadId) : p (k'.threads t) = p (k.threads t) := by
  obtain ⟨n, e⟩ := h.threads t
  rw [e, hp]

theorem nextOf_eq {k k' : Kernel} (h : SchedOnly k k') (t : ThreadId) : nextOf k' t = nextOf k t :=
  h.field (·.next) (fun _ _ => rfl) t

theorem state_eq {k k' : Kernel} (h : SchedOnly k k') (t : ThreadId) : (k'.threads t).state = (k.threads t).state :=
  h.field (·.state) (fun _ _ => rfl) t

theorem ready_iff {k k' : Kernel} (h : SchedOnly k k') (t : ThreadId) : isReady k' t ↔ isReady k t := by
  unfold isReady
  rw [h.state_eq]

theorem effPrio_eq {k k' : Kernel} (h : SchedOnly k k') (t : ThreadId) : effPrio k' t = effPrio k t :=
  h.field (·.effectivePriority.val) (fun _ _ => rfl) t

theorem ring {k k' : Kernel} (h : SchedOnly k k') {l : List ThreadId} (hr : RqRing k l) : RqRing k' l :=
  hr.congr h.nextOf_eq h.rqHead h.rqTail

theorem runQueue {k k' : Kernel} (h : SchedOnly k k') {added l : List ThreadId} (hr : RunQueue k added l) :
    RunQueue k' added l := hr.congr h.nextOf_eq h.state_eq h.rqHead h.rqTail

theorem isTop {k k' : Kernel} (h : SchedOnly k k') {l : List ThreadId} {t : ThreadId} : IsTop k' l t ↔ IsTop k l t := by
  simp only [IsTop, h.ready_iff, h.effPrio_eq]

theorem setNeedResched (k : Kernel) (v : Nat) : SchedOnly k (k.setNeedResched v) :=
  ⟨fun t => ⟨(k.threads t).budget, rfl⟩, rfl, rfl, rfl, rfl, rfl, rfl⟩

theorem setCurrent (k : Kernel) (c : Option ThreadId) : SchedOnly k (k.setCurrent c) :=
  ⟨fun t => ⟨(k.threads t).budget, rfl⟩, rfl, rfl, rfl, rfl, rfl, rfl⟩

theorem setBudget (k : Kernel) (t : ThreadId) (f : Thread → Thread) (hf : ∀ x, ∃ n, f x = { x with budget := n }) :
    SchedOnly k (k.setThread t f) := by
  refine ⟨fun u => ?_, rfl, rfl, rfl, rfl, rfl, rfl⟩
  rw [Kernel.setThread_threads]
  split
  · subst u; exact hf _
  · exact ⟨_, rfl⟩

end SchedOnly

/-! ## The tick -/

theorem budgetTick_only (b : Build) (cur : ThreadId) (k : Kernel) : SchedOnly k (budgetTick b cur k) := by
  have h1 : SchedOnly k (k.setThread cur fun x => if x.budget > 0 then { x with budget := x.budget - 1 } else x) :=
    SchedOnly.setBudget k cur _ fun x => by
      split
      · exact ⟨_, rfl⟩
      · exact ⟨x.budget, rfl⟩
  unfold budgetTick
  dsimp only
  split
  · exact (h1.trans (SchedOnly.setNeedResched _ _)).trans (SchedOnly.setBudget _ cur _ fun x => ⟨_, rfl⟩)
  · exact h1

/-- A tick asks for a reschedule or leaves the request as it was; it never drops one. -/
theorem budgetTick_needResched (b : Build) (cur : ThreadId) (k : Kernel) :
    (budgetTick b cur k).cpu.needResched = k.cpu.needResched ∨
      (budgetTick b cur k).cpu.needResched = (match b.policy with | .prio => kNeedReschedRotate | .rr => kNeedReschedNormal) := by
  unfold budgetTick
  dsimp only
  split
  · exact Or.inr rfl
  · exact Or.inl rfl

theorem budgetTick_current (b : Build) (cur : ThreadId) (k : Kernel) :
    (budgetTick b cur k).cpu.currentThread = k.cpu.currentThread := by
  unfold budgetTick
  dsimp only
  split <;> rfl

theorem rqHasReadyPrioGt_spec {k : Kernel} {l : List ThreadId} (h : RqRing k l) (prio : Int) (fuel : Nat) :
    (∀ r, rqHasReadyPrioGt fuel k prio = .ok r → (r = true ↔ ∃ t ∈ l, isReady k t ∧ prio < effPrio k t)) ∧
    (l.length ≤ fuel → ∃ r, rqHasReadyPrioGt fuel k prio = .ok r) := by
  unfold rqHasReadyPrioGt
  cases hh : k.rqHead with
  | none =>
    have hl := (Ring.head_none h).mp hh
    subst hl
    refine ⟨fun r hr => ?_, fun _ => ⟨false, rfl⟩⟩
    cases hr
    simp
  | some hd =>
    obtain ⟨h1, h2⟩ := h.find (h.head_some hh) (fun t => isReady k t ∧ effPrio k t > prio) fuel
    refine ⟨fun r hr => ?_, fun hf => ?_⟩
    · obtain ⟨x, hx, hr⟩ := bind_ok.mp hr
      obtain ⟨hs, hn⟩ := h1 x (orSpin_ok.mp hx)
      cases hr
      cases x with
      | some t =>
        obtain ⟨htl, htp⟩ := hs t rfl
        simp only [decide_eq_true_eq] at htp
        simpa using ⟨t, htl, htp⟩
      | none =>
        simp only [Option.isSome_none, Bool.false_eq_true, false_iff]
        rintro ⟨t, htl, htp⟩
        exact of_decide_eq_false (hn rfl t htl) htp
    · obtain ⟨x, hx⟩ := h2 hf
      exact ⟨x.isSome, by dsimp only; rw [hx]; rfl⟩

/-- The tick's three-way decision under PRIO. -/
theorem schedOnTick_prio {b : Build} (hb : b.policy = .prio) {k : Kernel} {l : List ThreadId} (h : RqRing k l)
    {cur : ThreadId} (hc : k.cpu.currentThread = some cur) (hp : k.cpu.preemptCnt = 0) {fuel : Nat}
    (hf : l.length ≤ fuel) :
    ∃ k1, schedOnTick b fuel true k = .ok k1 ∧ SchedOnly k k1 ∧ k1.cpu.currentThread = some cur ∧
      (¬ isReady k cur → k1.cpu.needResched = kNeedReschedNormal) ∧
      ((∃ t ∈ l, isReady k t ∧ effPrio k cur < effPrio k t) → k1.cpu.needResched = kNeedReschedNormal) := by
  obtain ⟨hgt, hgtT⟩ := rqHasReadyPrioGt_spec h (effPrio k cur) fuel
  obtain ⟨r, hr⟩ := hgtT hf
  simp only [schedOnTick, hc, hp, hb, hr, Bool.not_true, Bool.false_eq_true, if_false, ne_eq, not_true_eq_false]
  by_cases hrc : isReady k cur
  · rw [if_neg (not_not.mpr hrc)]
    cases r with
    | true => exact ⟨_, rfl, SchedOnly.setNeedResched k _, hc, fun hn => absurd hrc hn, fun _ => rfl⟩
    | false =>
      refine ⟨_, rfl, budgetTick_only b cur k, (budgetTick_current b cur k).trans hc, fun hn => absurd hrc hn, fun hex => ?_⟩
      have := (hgt false hr).mpr hex
      cases this
  · rw [if_pos hrc]
    exact ⟨_, rfl, SchedOnly.setNeedResched k _, hc, fun _ => rfl, fun _ => rfl⟩

/-- At every tick with preemption enabled: the tick and, if it leaves a request pending,
    the reschedule both return, and then a READY thread of maximal priority is current;
    under a rotate request it is another one than before if there is another. -/
theorem strict_priority {b : Build} (hb : b.policy = .prio) {k : Kernel} {l : List ThreadId} (h : RqRing k l)
    {u : ThreadId} (hu : u ∈ l) (hr : isReady k u) {cur : ThreadId} (hc : k.cpu.currentThread = some cur)
    (hcur : cur ∈ l ∧ isReady k cur ∨ cur ∉ l ∧ ¬ isReady k cur) (hp : k.cpu.preemptCnt = 0) {fuel : Nat}
    (hf : l.length ≤ fuel) :
    ∃ k1 k2 c, schedOnTick b fuel true k = .ok k1 ∧
      (if k1.cpu.needResched ≠ kNeedReschedNone then schedReschedFromIrqTail b fuel k1 else .ok k1) = .ok k2 ∧
      RqRing k2 l ∧ k2.cpu.currentThread = some c ∧ IsTop k2 l c ∧
      (k1.cpu.needResched = kNeedReschedRotate → (∃ v, IsTop k2 l v ∧ v ≠ cur) → c ≠ cur) := by
  obtain ⟨k1, htick, hso, hc1, hblk, hhigh⟩ := schedOnTick_prio hb h hc hp hf
  have hring1 := hso.ring h
  by_cases hnr : k1.cpu.needResched = kNeedReschedNone
  · -- nothing is asked for: the current thread is READY and none is above it
    refine ⟨k1, k1, cur, htick, by simp [hnr], hring1, hc1, ?_, fun hrot => ?_⟩
    · have hrc : isReady k cur := by
        by_cases hrc : isReady k cur
        · exact hrc
        · rw [hblk hrc] at hnr; cases hnr
      have hcl : cur ∈ l := by
        rcases hcur with hcur | hcur
        · exact hcur.1
        · exact absurd hrc hcur.2
      refine hso.isTop.mpr ⟨hcl, hrc, fun v hv hvr => ?_⟩
      by_cases hlt : effPrio k cur < effPrio k v
      · rw [hhigh ⟨v, hv, hvr, hlt⟩] at hnr; cases hnr
      · omega
    · rw [hnr] at hrot; cases hrot
  · -- a request is pending: the pick decides
    obtain ⟨hpick, hpickT⟩ := prioPickNext_spec hring1 hu ((hso.ready_iff u).mpr hr) (some cur)
      (decide (k1.cpu.needResched = kNeedReschedRotate)) (decide (k1.cpu.needResched = kNeedReschedRotate))
      (by
        intro c hcc hrc
        cases hcc
        rcases hcur with hcur | hcur
        · exact hcur.1
        · exact absurd ((hso.ready_iff cur).mp hrc) hcur.2)
      (by
        intro hrot c hcc
        cases hcc
        -- a BLOCKED current thread never meets a rotate request: the tick has just replaced it
        rcases hcur with hcur | hcur
        · exact Or.inl hcur.1
        · rw [hblk hcur.2] at hrot
          simp [kNeedReschedNormal, kNeedReschedRotate] at hrot)
      fuel
    obtain ⟨r, hr1⟩ := hpickT hf
    obtain ⟨t, rfl, htop, hother, -⟩ := hpick r hr1
    have hp1 : k1.cpu.preemptCnt = 0 := hso.preemptCnt.trans hp
    have htail : schedReschedFromIrqTail b fuel k1 =
        if t = cur then .ok (k1.setNeedResched kNeedReschedNone) else .ok (doSwitch t k1) := by
      simp [schedReschedFromIrqTail, hp1, hc1, tailPick, hb, hr1]
      rfl
    by_cases htc : t = cur
    · subst htc
      have hso2 := SchedOnly.setNeedResched k1 kNeedReschedNone
      refine ⟨k1, _, t, htick, by rw [if_pos hnr, htail, if_pos rfl], hso2.ring hring1, hc1, hso2.isTop.mpr htop, ?_⟩
      rintro hrot ⟨v, hv, hvt⟩
      exact absurd (hother (by simp [hrot]) rfl v (hso2.isTop.mp hv)) hvt
    · have hso2 := SchedOnly.setCurrent k1 (some t)
      exact ⟨k1, _, t, htick, by rw [if_pos hnr, htail, if_neg htc]; rfl, hso2.ring hring1, rfl, hso2.isTop.mpr htop,
        fun _ _ => htc⟩

/-- A thread of priority 10 runs while one of priority 20 is queued. -/
theorem strict_priority_higher_queued :
    ∃ k k1 k2 c, RqRun k ⟨[1, 0], [1, 0], [0, 1], some 0⟩ ∧ schedOnTick ⟨.prio, true, false⟩ 2 true k = .ok k1 ∧
      schedReschedFromIrqTail ⟨.prio, true, false⟩ 2 k1 = .ok k2 ∧ k2.cpu.currentThread = some c ∧ IsTop k2 [0, 1] c := by
  have h0 : RqRun (schedInit Kernel.zero) Queue.init := .init Kernel.zero rfl
  have h2 := (h0.step (.create 0 10) 2 (by decide) rfl).step (.add 0) 2 (by decide) rfl
  have h4 := (h2.step (.create 1 20) 2 (by decide) rfl).step (.add 1) 2 (by decide) rfl
  have h5 := h4.step (.dispatch 0) 2 (by decide) rfl
  obtain ⟨k1, k2, c, h1, h2, -, hc, htop, -⟩ := strict_priority (b := ⟨.prio, true, false⟩) rfl (rep_run h5).queue.ring
    (u := 1) (by decide) (by decide) (show _ = some 0 from rfl) (Or.inl (by decide)) rfl (show [0, 1].length ≤ 2 by decide)
  have hk1 : Except.ok k1 = schedOnTick ⟨.prio, true, false⟩ 2 true _ := h1.symm
  cases hk1
  exact ⟨_, _, k2, c, h5, h1, h2, hc, htop⟩

/-! ## Who runs next

In either policy a pick is a queued thread, or the current one when it cannot be helped. -/

section Picks

variable {b : Build} {k k' : Kernel} {ts l : List ThreadId} {cur : ThreadId} {fuel : Nat}

theorem RunQueue.current_cases (h : RunQueue k ts l) (hc : cur ∈ ts) : cur ∈ l ∨ nextOf k cur = none := by
  by_cases hr : isReady k cur
  · exact Or.inl ((h.mem cur).mpr ⟨hc, hr⟩)
  · exact Or.inr (h.unlinked cur hc hr)

theorem prioPickNext_empty (hh : k.rqHead = none) (c : Option ThreadId) (ex rot : Bool) :
    prioPickNext fuel k c ex rot = .ok c := by
  simp [prioPickNext, hh]

theorem prioPickNext_mem (h : RunQueue k ts l) (hc : cur ∈ ts) {ex rot : Bool} {r : Option ThreadId}
    (hp : prioPickNext fuel k (some cur) ex rot = .ok r) :
    l = [] ∧ r = some cur ∨ ∃ n ∈ l, r = some n := by
  cases l with
  | nil =>
    have hh := (Ring.head_none h.ring).mpr rfl
    rw [prioPickNext_empty hh] at hp
    cases hp
    exact Or.inl ⟨rfl, rfl⟩
  | cons a l =>
    have ha := (h.mem a).mp (by simp)
    obtain ⟨n, hn, htop, -⟩ := (prioPickNext_spec h.ring (u := a) (by simp) ha.2 (some cur) ex rot
      (by intro c hcc hr; cases hcc; exact (h.mem cur).mpr ⟨hc, hr⟩)
      (by intro _ c hcc; cases hcc; exact h.current_cases hc) fuel).1 r hp
    exact Or.inr ⟨n, htop.1, hn⟩

/-- The candidate of the IRQ tail: queued if the queue is not empty. -/
theorem tailPick_mem (h : RunQueue k ts l) (hc : cur ∈ ts) {r : Option ThreadId}
    (hp : tailPick b fuel k (some cur) = .ok r) : l = [] ∧ (r = some cur ∨ r = none) ∨ ∃ n ∈ l, r = some n := by
  unfold tailPick at hp
  rcases hb : b.policy with _ | _
  · simp only [hb] at hp
    -- round robin: the successor of a READY thread, else the head
    split at hp
    · rename_i hr
      cases hp
      obtain ⟨n, hn, he⟩ := Ring.next_mem h.ring ((h.mem cur).mpr ⟨hc, hr⟩)
      exact Or.inr ⟨n, hn, by rw [he]; rfl⟩
    · cases hp
      rw [h.ring.head_eq]
      cases l with
      | nil => exact Or.inl ⟨rfl, Or.inr rfl⟩
      | cons a l => exact Or.inr ⟨a, by simp, rfl⟩
  · simp only [hb] at hp
    rcases prioPickNext_mem h hc hp with ⟨hl, hr⟩ | hn
    · exact Or.inl ⟨hl, Or.inl hr⟩
    · exact Or.inr hn

theorem startPick_mem (h : RunQueue k ts l) {r : ThreadId} (hp : startPick b fuel k = .ok (some r)) : r ∈ l := by
  unfold startPick at hp
  split at hp
  · cases l with
    | nil =>
      rw [prioPickNext_empty ((Ring.head_none h.ring).mpr rfl)] at hp
      cases hp
    | cons a l =>
      have ha := (h.mem a).mp (by simp)
      obtain ⟨n, hn, htop, -⟩ := (prioPickNext_spec h.ring (u := a) (by simp) ha.2 none false false
        (by intro c hc; cases hc) (by intro hf; cases hf) fuel).1 _ hp
      cases hn
      exact htop.1
  · rw [Except.ok.injEq] at hp
    exact h.ring.head_some hp

theorem yieldPick_mem (h : RunQueue k ts l) (hc : cur ∈ ts) {r : Option ThreadId}
    (hp : yieldPick b fuel k cur = .ok r) : r = some cur ∨ ∃ n ∈ l, r = some n := by
  unfold yieldPick at hp
  rcases hb : b.policy with _ | _
  · simp only [hb] at hp
    cases hp
    rcases h.current_cases hc with hm | hn
    · obtain ⟨n, hn, he⟩ := Ring.next_mem h.ring hm
      exact Or.inr ⟨n, hn, by rw [he]; rfl⟩
    · exact Or.inl (by rw [hn]; rfl)
  · simp only [hb] at hp
    rcases prioPickNext_mem h hc hp with ⟨-, hr⟩ | hn
    · exact Or.inl hr
    · exact Or.inr hn

/-- What a scheduler operation may do: leave the current thread running, or make another
    queued thread current. `stay` says when it may leave it. -/
inductive Switched (stay : Prop) (l : List ThreadId) (cur : ThreadId) (k k' : Kernel) : Prop
  | stayed : stay → SchedOnly k k' → k'.cpu.currentThread = some cur → Switched stay l cur k k'
  | switched (n : ThreadId) : n ∈ l → n ≠ cur → SchedOnly k k' → k'.cpu.currentThread = some n → Switched stay l cur k k'

theorem Switched.only {stay : Prop} (h : Switched stay l cur k k') : SchedOnly k k' := by
  cases h with
  | stayed _ h _ => exact h
  | switched _ _ _ h _ => exact h

theorem Switched.mono {p q : Prop} (h : Switched p l cur k k') (hpq : p → q) : Switched q l cur k k' := by
  cases h with
  | stayed hp h hc => exact .stayed (hpq hp) h hc
  | switched n hn hne h hc => exact .switched n hn hne h hc

theorem Switched.after {stay : Prop} {k0 : Kernel} (h : Switched stay l cur k k') (h0 : SchedOnly k0 k) :
    Switched stay l cur k0 k' := by
  cases h with
  | stayed hp h hc => exact .stayed hp (h0.trans h) hc
  | switched n hn hne h hc => exact .switched n hn hne (h0.trans h) hc

/-- The reschedule on the way out of the kernel stays on the current thread only if it is
    queued, or nothing is. -/
theorem schedReschedFromIrqTail_switched (h : RunQueue k ts l) (hcur : k.cpu.currentThread = some cur) (hc : cur ∈ ts)
    (hp : k.cpu.preemptCnt = 0) (ht : schedReschedFromIrqTail b fuel k = .ok k') :
    Switched (cur ∈ l ∨ l = []) l cur k k' := by
  simp only [schedReschedFromIrqTail, hp, ne_eq, not_true_eq_false, if_false, hcur] at ht
  obtain ⟨r, hr, ht⟩ := bind_ok.mp ht
  cases r with
  | none =>
    cases ht
    rcases tailPick_mem h hc hr with ⟨hl, -⟩ | ⟨n, -, hn⟩
    · exact .stayed (Or.inr hl) (SchedOnly.setNeedResched k _) hcur
    · cases hn
  | some n =>
    by_cases hnc : n = cur
    · simp only [if_pos hnc] at ht
      cases ht
      refine .stayed ?_ (SchedOnly.setNeedResched k _) hcur
      rcases tailPick_mem h hc hr with ⟨hl, -⟩ | ⟨m, hm, he⟩
      · exact Or.inr hl
      · cases he
        exact Or.inl (hnc ▸ hm)
    · simp only [if_neg hnc] at ht
      cases ht
      rcases tailPick_mem h hc hr with ⟨-, he⟩ | ⟨m, hm, he⟩
      · rcases he with he | he
        · cases he
          exact absurd rfl hnc
        · cases he
      · cases he
        exact .switched n hm hnc (SchedOnly.setCurrent k _) rfl

theorem threadYield_switched (h : RunQueue k ts l) (hcur : k.cpu.currentThread = some cur) (hc : cur ∈ ts)
    (ht : threadYield b fuel k = .ok k') : Switched True l cur k k' := by
  unfold threadYield at ht
  split at ht
  · cases ht
    exact .stayed trivial (SchedOnly.refl k) hcur
  simp only [hcur] at ht
  obtain ⟨r, hr, ht⟩ := bind_ok.mp ht
  cases r with
  | none =>
    cases ht
    exact .stayed trivial (SchedOnly.refl k) hcur
  | some n =>
    by_cases hnc : n = cur
    · simp only [hnc, ne_eq, not_true_eq_false, if_false] at ht
      cases ht
      exact .stayed trivial (SchedOnly.refl k) hcur
    · simp only [ne_eq, hnc, not_false_eq_true, if_true] at ht
      cases ht
      rcases yieldPick_mem h hc hr with he | ⟨m, hm, he⟩
      · cases he
        exact absurd rfl hnc
      · cases he
        exact .switched n hm hnc (SchedOnly.setCurrent k _) rfl

/-- The end of a critical section: with a request pending the current thread goes on only
    if it is queued or nothing is. -/
theorem preemptEnable_switched (h : RunQueue k ts l) (hcur : k.cpu.currentThread = some cur) (hc : cur ∈ ts)
    (hp : k.cpu.preemptCnt = 1) (hi : k.cpu.irqDepth = 0) (he : preemptEnable b fuel k = .ok k') :
    Switched (k.cpu.needResched = 0 ∨ cur ∈ l ∨ l = []) l cur (k.setPreemptCnt 0) k' := by
  have h0 : RunQueue (k.setPreemptCnt 0) ts l := h.congr (fun _ => rfl) (fun _ => rfl) rfl rfl
  simp only [preemptEnable, hp, Nat.one_ne_zero, if_false, Nat.sub_self, Kernel.setPreemptCnt_cpu, hi, true_and, and_true] at he
  by_cases hn : k.cpu.needResched = 0
  · simp only [hn, ne_eq, not_true_eq_false, if_false] at he
    cases he
    exact .stayed (Or.inl hn) (SchedOnly.refl _) hcur
  · simp only [ne_eq, hn, not_false_eq_true, if_true] at he
    exact (schedReschedFromIrqTail_switched h0 hcur hc rfl he).mono Or.inr

theorem budgetTick_request (b : Build) (cur : ThreadId) (k : Kernel) (h : k.cpu.needResched ≠ 0) :
    (budgetTick b cur k).cpu.needResched ≠ 0 := by
  rcases budgetTick_needResched b cur k with he | he
  · rw [he]
    exact h
  · rw [he]
    cases b.policy <;> decide

/-- A tick never changes the current thread, nor drops a request. -/
theorem schedOnTick_only {guardOk : Bool} (ht : schedOnTick b fuel guardOk k = .ok k') :
    SchedOnly k k' ∧ k'.cpu.currentThread = k.cpu.currentThread ∧ (k.cpu.needResched ≠ 0 → k'.cpu.needResched ≠ 0) := by
  unfold schedOnTick at ht
  split at ht
  · cases ht
    exact ⟨SchedOnly.refl k, rfl, id⟩
  split at ht
  · cases ht
  split at ht
  · cases ht
    exact ⟨SchedOnly.refl k, rfl, id⟩
  split at ht
  · cases ht
    exact ⟨budgetTick_only b _ k, budgetTick_current b _ k, budgetTick_request b _ k⟩
  split at ht
  · cases ht
    exact ⟨SchedOnly.setNeedResched k _, rfl, fun _ => Nat.one_ne_zero⟩
  obtain ⟨r, -, ht⟩ := bind_ok.mp ht
  cases r with
  | true =>
    cases ht
    exact ⟨SchedOnly.setNeedResched k _, rfl, fun _ => Nat.one_ne_zero⟩
  | false =>
    cases ht
    exact ⟨budgetTick_only b _ k, budgetTick_current b _ k, budgetTick_request b _ k⟩

/-- Entering and leaving the handler brings `irq_depth` back. -/
theorem SchedOnly.bracket {k1 k2 : Kernel} (h : SchedOnly k1 k2) (ht : k1.threads = k.threads) (hm : k1.mutexes = k.mutexes)
    (hs : k1.sems = k.sems) (hh : k1.rqHead = k.rqHead) (htl : k1.rqTail = k.rqTail)
    (hp : k1.cpu.preemptCnt = k.cpu.preemptCnt) (hi : k1.cpu.irqDepth = k.cpu.irqDepth + 1) :
    SchedOnly k (addIrqDepth (· - 1) k2) := by
  refine ⟨fun t => ?_, h.mutexes.trans hm, h.sems.trans hs, h.rqHead.trans hh, h.rqTail.trans htl, h.preemptCnt.trans hp, ?_⟩
  · rw [← ht]
    exact h.threads t
  · show k2.cpu.irqDepth - 1 = k.cpu.irqDepth
    rw [h.irqDepth, hi]
    omega

theorem irqHandlerEl1_only {guardOk r : Bool} {intid : Nat} (h : irqHandlerEl1 b fuel guardOk intid k = .ok (k', r)) :
    SchedOnly k k' ∧ k'.cpu.currentThread = k.cpu.currentThread ∧ (k.cpu.needResched ≠ 0 → k'.cpu.needResched ≠ 0) ∧
      (r = true → k'.cpu.currentThread.isSome ∧ k'.cpu.preemptCnt = 0 ∧ k'.cpu.needResched ≠ 0) := by
  unfold irqHandlerEl1 at h
  obtain ⟨⟨k2, r2⟩, h1, h2⟩ := bind_ok.mp h
  cases h2
  unfold irqDispatch at h1
  split at h1
  · obtain ⟨k1, ht, h3⟩ := bind_ok.mp h1
    cases h3
    obtain ⟨ho, hc, hn⟩ := schedOnTick_only ht
    refine ⟨ho.bracket rfl rfl rfl rfl rfl rfl rfl, hc, hn, fun hr => ?_⟩
    exact of_decide_eq_true hr
  · cases h1
    refine ⟨(SchedOnly.refl (addIrqDepth (· + 1) k)).bracket rfl rfl rfl rfl rfl rfl rfl, rfl, id, fun hr => ?_⟩
    cases hr

/-- An interrupt in thread context, and `preempt_return` if the frame was redirected to it. -/
theorem irq_switched {k1 : Kernel} {guardOk r : Bool} {intid : Nat} (h : RunQueue k ts l)
    (hcur : k.cpu.currentThread = some cur) (hc : cur ∈ ts) (hi : irqHandlerEl1 b fuel guardOk intid k = .ok (k1, r))
    (hr : (if r then preemptReturn b fuel k1 else .ok k1) = .ok k') : Switched True l cur k k' := by
  obtain ⟨ho, hc1, -, hred⟩ := irqHandlerEl1_only hi
  cases r with
  | false =>
    cases hr
    exact .stayed trivial ho (hc1.trans hcur)
  | true =>
    obtain ⟨-, hp, hn⟩ := hred rfl
    have ht : schedReschedFromIrqTail b fuel k1 = .ok k' := by
      simpa [preemptReturn, hp, hn] using hr
    have hsw := schedReschedFromIrqTail_switched (ho.runQueue h) (hc1.trans hcur) hc hp ht
    exact (hsw.mono fun _ => trivial).after ho

end Picks

end Microkernel

/-
  Microkernel.Calls.Deadlock — a deadlock is for ever.

  A thread in a knot of the wait-for graph waits for a mutex of a thread in the knot. It
  is BLOCKED, so it does not run; the mutex it waits for is only handed over by its owner,
  which does not run either. `knot_step`: a step leaves what the members wait for, where
  they are in their calls and what they own.

  Proved (`deadlock_permanent`): from a state with a cycle on, every thread that leads to
  the cycle stays BLOCKED in front of the same mutex and keeps every mutex it owns,
  whatever the other threads do.
-/

import Microkernel.Calls.WaitFor

namespace Microkernel

open Relation WaitGraph

/-- One step that satisfies `ok`. -/
def Moves (b : Build) (ok : Sys → Act → Prop) (s s' : Sys) : Prop := ∃ a fuel, ok s a ∧ s.step b fuel a = .ok s'

theorem Run.later {b : Build} {ok : Sys → Act → Prop} {ts : List (ThreadId × Int)} {counts : SemId → Int} {s s' : Sys}
    (h : Run b ok ts counts s) (hl : ReflTransGen (Moves b ok) s s') : Run b ok ts counts s' := by
  induction hl with
  | refl => exact h
  | tail _ hm ih =>
    obtain ⟨a, fuel, hoka, hs⟩ := hm
    exact ih.step a fuel hoka hs

/-! ## Knots -/

/-- The threads of `S` wait for the same, are where they were in their calls and own what they owned. -/
structure Frozen (S : ThreadId → Prop) (s s' : Sys) : Prop where
  waiting : ∀ t, S t → waitingOf s'.k t = waitingOf s.k t
  cont : ∀ t, S t → s'.cont t = s.cont t
  owner : ∀ m t, S t → ownerOf s.k m = some t → ownerOf s'.k m = some t

section Knots

variable {S : ThreadId → Prop} {s s' : Sys}

theorem Frozen.refl (S : ThreadId → Prop) (s : Sys) : Frozen S s s := ⟨fun _ _ => rfl, fun _ _ => rfl, fun _ _ _ h => h⟩

theorem Frozen.trans {s₀ : Sys} (h1 : Frozen S s₀ s) (h2 : Frozen S s s') : Frozen S s₀ s' :=
  ⟨fun t ht => (h2.waiting t ht).trans (h1.waiting t ht), fun t ht => (h2.cont t ht).trans (h1.cont t ht),
    fun m t ht ho => h2.owner m t ht (h1.owner m t ht ho)⟩

theorem Frozen.knot (h : Frozen S s s') (hk : Knot (waitsOn s.k) S) : Knot (waitsOn s'.k) S := by
  intro t ht
  obtain ⟨u, hu, m, hm, ho⟩ := hk t ht
  exact ⟨u, hu, m, (h.waiting t ht).trans hm, h.owner m u hu ho⟩

theorem knot_waits (hx : WaitingExact s) (hk : Knot (waitsOn s.k) S) {t : ThreadId} (ht : S t) :
    ∃ m u, S u ∧ waitsFor s t (.mutex m) ∧ ownerOf s.k m = some u := by
  obtain ⟨u, hu, m, hm, ho⟩ := hk t ht
  exact ⟨m, u, hu, (hx t m).mp hm, ho⟩

theorem knot_asleep (hi : WaitInv s) (hx : WaitingExact s) (hk : Knot (waitsOn s.k) S) {t : ThreadId} (ht : S t) :
    stateOf s.k t = .blocked := by
  obtain ⟨m, -, -, hw, -⟩ := knot_waits hx hk ht
  exact hi.asleep t _ hw

theorem knot_not_current (hi : WaitInv s) (hx : WaitingExact s) (hk : Knot (waitsOn s.k) S) {cur : ThreadId} (hr : isReady s.k cur) :
    ¬ S cur := fun hc => not_ready_iff.mpr (knot_asleep hi hx hk hc) hr

/-- Only the owner of the mutex wakes its waiter, and here the owner is in the knot too. -/
theorem knot_not_woken {cur : ThreadId} {a : Act} {c : Call} {r : Ret} {e : Event} (h : CallStep s s' cur a c r e) (hi : WaitInv s)
    (hx : WaitingExact s) (hk : Knot (waitsOn s.k) S) (hno : ¬ S cur) {t : ThreadId} (ht : S t) : e.wakes ≠ some t := by
  intro hv
  obtain ⟨m, u, hu, hw, ho⟩ := knot_waits hx hk ht
  obtain ⟨o, hwo, -, -, hcase⟩ := h.woken_waited hi hv
  have hout := h.out
  rcases hcase with ⟨n, rfl, rfl⟩ | ⟨σ, rfl, rfl⟩
  · cases waitsFor_unique hwo hw
    cases hout with
    | handover _ _ hc =>
      rw [ho] at hc
      cases hc
      exact hno hu
  · cases waitsFor_unique hwo hw

theorem knot_step {b : Build} {fuel : Nat} {a : Act} {cur : ThreadId} (hi : WaitInv s) (hx : WaitingExact s)
    (hcur : s.k.cpu.currentThread = some cur) (hr : isReady s.k cur) (hk : Knot (waitsOn s.k) S)
    (hs : s.step b fuel a = .ok s') : Frozen S s s' := by
  have hno := knot_not_current hi hx hk hr
  have hne : ∀ t, S t → t ≠ cur := fun t ht e => hno (e ▸ ht)
  obtain ⟨cur', hcur', hst⟩ := Sys.step_waiting hs
  rw [hcur] at hcur'
  cases hcur'
  cases hst with
  | other ho hw hcont =>
    refine ⟨fun t _ => hw t, fun t ht => ?_, fun m t _ h => (ho.owner m).trans h⟩
    obtain ⟨m, -, -, hwt, -⟩ := knot_waits hx hk ht
    exact ((hcont t m).mpr hwt.1).trans hwt.1.symm
  | call c r e hc hw =>
    refine ⟨fun t ht => ?_, fun t ht => (hc.cont t).trans (if_neg (hne t ht)), fun m t ht h => ?_⟩
    · rw [hw]
      exact waitingAfter_other s.k c r (hne t ht) (knot_not_woken hc hi hx hk hno ht)
    · rw [hc.eff.owner]
      rcases owner_kept hc.out h with h | ⟨-, htc⟩
      · exact h
      · exact absurd htc (hne t ht)

theorem knot_run {b : Build} {ok : Sys → Act → Prop} {ts : List (ThreadId × Int)} {counts : SemId → Int}
    (hok : ∀ s a, ok s a → OtherReady ts s a) (h : Run b ok ts counts s) (hk : Knot (waitsOn s.k) S)
    (hl : ReflTransGen (Moves b ok) s s') : Frozen S s s' := by
  induction hl with
  | refl => exact Frozen.refl S s
  | tail hl hm ih =>
    obtain ⟨a, fuel, hoka, hs⟩ := hm
    have hrun := h.later hl
    obtain ⟨hi, l, cur, hlive, hr⟩ := awake_run hok hrun
    exact ih.trans (knot_step hi (waiting_exact hok hrun) hlive.current hr (ih.knot hk) hs)

end Knots

/-! ## Deadlocks -/

/-- With another READY thread whenever one blocks: once threads wait for each other in a cycle, every thread that leads
    to the cycle is BLOCKED in all states to come, in front of the same mutex, never running, and owning what it owned. -/
theorem deadlock_permanent {b : Build} {ts : List (ThreadId × Int)} {counts : SemId → Int} {s s' : Sys}
    (h : Run b (OtherReady ts) ts counts s) {t : ThreadId} (hcycle : TransGen (waitsOn s.k) t t)
    (hl : ReflTransGen (Moves b (OtherReady ts)) s s') {u : ThreadId} (hu : ReflTransGen (waitsOn s.k) u t) :
    stateOf s'.k u = .blocked ∧ s'.k.cpu.currentThread ≠ some u ∧ s'.cont u = s.cont u ∧
      waitingOf s'.k u = waitingOf s.k u ∧ (∀ m, ownerOf s.k m = some u → ownerOf s'.k m = some u) ∧
      ReflTransGen (waitsOn s'.k) u t ∧ TransGen (waitsOn s'.k) t t := by
  have hok : ∀ s a, OtherReady ts s a → OtherReady ts s a := fun _ _ h => h
  have hk := knot_of_cycle hcycle
  have hf := knot_run hok h hk hl
  have hrun := h.later hl
  obtain ⟨hi, l, cur, hlive, hr⟩ := awake_run hok hrun
  have hx := waiting_exact hok hrun
  -- edges between threads that lead to the cycle are kept
  have hedge : ∀ v w, waitsOn s.k v w → ReflTransGen (waitsOn s.k) w t → waitsOn s'.k v w := by
    intro v w hvw hw
    obtain ⟨m, hm, ho⟩ := hvw
    exact ⟨m, (hf.waiting v (hw.head ⟨m, hm, ho⟩)).trans hm, hf.owner m w hw ho⟩
  have hpath : ∀ v, ReflTransGen (waitsOn s.k) v t → ReflTransGen (waitsOn s'.k) v t := by
    intro v hv
    induction hv using ReflTransGen.head_induction_on with
    | refl => exact ReflTransGen.refl
    | head hvw hwt ih => exact ih.head (hedge _ _ hvw hwt)
  refine ⟨knot_asleep hi hx (hf.knot hk) hu, fun hc => ?_, hf.cont u hu, hf.waiting u hu, fun m ho => hf.owner m u hu ho, hpath u hu, ?_⟩
  · rw [hlive.current] at hc
    cases hc
    exact knot_not_current hi hx (hf.knot hk) hr hu
  · obtain ⟨w, htw, hwt⟩ := TransGen.head'_iff.mp hcycle
    exact TransGen.head' (hedge t w htw hwt) (hpath w hwt)

/-- Threads 0 and 1 wait for each other's mutex; then thread 2 locks one of its own. -/
theorem deadlock_permanent_two_of_three :
    ∃ s s', Run ⟨.rr, true, false⟩ (OtherReady [(0, 10), (1, 10), (2, 10)]) [(0, 10), (1, 10), (2, 10)] (fun _ => 0) s ∧
      TransGen (waitsOn s.k) 0 0 ∧ ReflTransGen (Moves ⟨.rr, true, false⟩ (OtherReady [(0, 10), (1, 10), (2, 10)])) s s' ∧
      ownerOf s'.k 2 = some 2 ∧ stateOf s'.k 1 = .blocked ∧ waitingOf s'.k 1 = waitingOf s.k 1 := by
  have h0 : Run ⟨.rr, true, false⟩ (OtherReady [(0, 10), (1, 10), (2, 10)]) [(0, 10), (1, 10), (2, 10)] (fun _ => 0) _ :=
    .boot 4 (by decide) rfl
  have h2 := (h0.step (.call (.mutexLock 0)) 4 (by decide) rfl).step .resume 4 (by decide) rfl
  have h4 := (h2.step .yield 4 (by decide) rfl).step (.call (.mutexLock 1)) 4 (by decide) rfl
  have h6 := (h4.step .resume 4 (by decide) rfl).step (.call (.mutexLock 0)) 4 (by decide) rfl
  have h7 := h6.step (.call (.mutexLock 1)) 4 (by decide) rfl
  obtain ⟨s, s', hrun, h01, h10, hmove, ho⟩ : ∃ s s', Run ⟨.rr, true, false⟩ (OtherReady [(0, 10), (1, 10), (2, 10)])
      [(0, 10), (1, 10), (2, 10)] (fun _ => 0) s ∧ waitsOn s.k 0 1 ∧ waitsOn s.k 1 0 ∧
      Moves ⟨.rr, true, false⟩ (OtherReady [(0, 10), (1, 10), (2, 10)]) s s' ∧ ownerOf s'.k 2 = some 2 :=
    ⟨_, _, h7, ⟨1, rfl, rfl⟩, ⟨0, rfl, rfl⟩, ⟨.call (.mutexLock 2), 4, by decide, rfl⟩, rfl⟩
  have hcycle := TransGen.head h01 (TransGen.single h10)
  have hl := ReflTransGen.single hmove
  obtain ⟨hstate, -, -, hwait, -⟩ := deadlock_permanent hrun hcycle hl (ReflTransGen.single h10)
  exact ⟨s, s', hrun, hcycle, hl, ho, hstate, hwait⟩

end Microkernel

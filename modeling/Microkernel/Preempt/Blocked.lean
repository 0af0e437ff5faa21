/-
  Microkernel.Preempt.Blocked — a BLOCKED thread and the CPU.

  `mutex_lock` and `sem_down` put the caller in state BLOCKED and count on
  `preempt_enable` not to return before somebody has made it runnable. Two things break
  that. If no thread is READY the scheduler finds nothing to switch to and returns to the
  caller. If a scheduler function is preempted between its search and the stack swap, the
  thread it has found can block meanwhile, and is switched in all the same.

  Proved: in runs in which a reschedule always finds a READY thread (`SomeReady`), no
  interrupt is redirected between a search and the swap (`ChoiceQuiet`) and
  `preempt_disable` counts (`DisableCounts`), a thread that executes its own code with
  preemption enabled is READY, a search ends on a READY thread and never on a BLOCKED
  caller (`blocked_not_run`).

  The invariant says for every frame what it means to be at it (`Frame.Fits`): a frame
  whose next statements run the thread's own code needs `GoesOn`, one on the way into the
  scheduler `Leaving`, one behind a switch a READY thread.
-/

import Microkernel.Preempt.Frames
import Microkernel.Preempt.Switch

namespace Microkernel

open Linked

/-! ## The kernel state -/

/-- Wait queues hold threads of `ts` only. -/
structure LinksIn (ts : List ThreadId) (k : Kernel) : Prop where
  head : ∀ o w, waitersOf k o = some w → w ∈ ts
  next : ∀ t w, waitNextOf k t = some w → w ∈ ts

section Links

variable {ts : List ThreadId} {k k' : Kernel} {cur : ThreadId}

theorem LinksIn.congr (h : LinksIn ts k) (hq : SameQueues k k') : LinksIn ts k' := by
  refine ⟨fun o w hw => ?_, fun t w hw => ?_⟩
  · exact h.head o w ((hq.waiters o).symm.trans hw)
  · exact h.next t w ((hq.waitNext t).symm.trans hw)

theorem LinksIn.chain (h : LinksIn ts k) {o : WaitObj} {l : List ThreadId} (hl : Chain (waitNextOf k) (waitersOf k o) l) :
    ∀ t ∈ l, t ∈ ts :=
  Seg.forall_mem hl (h.head o) h.next

theorem Popped.mem {o : WaitObj} {w : ThreadId} (hp : Popped o w k k') (h : LinksIn ts k) : w ∈ ts := by
  obtain ⟨l₁, l₂, hl, -⟩ := hp.chain
  exact h.chain hl w (by simp)

theorem Popped.linksIn {o : WaitObj} {w : ThreadId} (hp : Popped o w k k') (h : LinksIn ts k) : LinksIn ts k' := by
  have hout := hp.out
  obtain ⟨l₁, l₂, hl, hl', -, -, hframe⟩ := hp.chain
  have hin : ∀ t ∈ l₁ ++ l₂, t ∈ ts := by
    intro t ht
    refine h.chain hl t ?_
    simp only [List.mem_append, List.mem_cons] at ht ⊢
    tauto
  refine ⟨fun p v hv => ?_, fun t v hv => ?_⟩
  · by_cases hpo : p = o
    · subst hpo
      rw [hv] at hl'
      exact hin v (Chain.head_mem hl')
    · exact h.head p v ((hp.waiters p hpo).symm.trans hv)
  · by_cases htl : t ∈ l₁ ++ l₂
    · exact hin v (Chain.next_mem hl' htl hv)
    · by_cases htw : t = w
      · rw [htw, hout] at hv
        cases hv
      · refine h.next t v ((hframe t ?_).symm.trans hv)
        simp only [List.mem_append, List.mem_cons] at htl ⊢
        tauto

/-- An event keeps wait queues within `ts`, and wakes a thread of `ts`. -/
theorem Event.Queues.linksIn {e : Event} (hq : e.Queues cur k k') (h : LinksIn ts k) (hc : cur ∈ ts) :
    LinksIn ts k' ∧ ∀ w, e.wakes = some w → w ∈ ts := by
  cases e with
  | quiet => exact ⟨h.congr hq, fun w hw => by cases hw⟩
  | taken m => exact ⟨h.congr hq, fun w hw => by cases hw⟩
  | freed m => exact ⟨h.congr hq.2, fun w hw => by cases hw⟩
  | handed m w =>
    refine ⟨Popped.linksIn hq h, fun v hv => ?_⟩
    cases hv
    exact Popped.mem hq h
  | woken s w =>
    refine ⟨Popped.linksIn hq h, fun v hv => ?_⟩
    cases hv
    exact Popped.mem hq h
  | blocked o =>
    obtain ⟨hw, hn, hnc⟩ := hq
    refine ⟨⟨fun p v hv => ?_, fun t v hv => ?_⟩, fun w hw => by cases hw⟩
    · rw [hw] at hv
      split at hv
      · cases hv
        exact hc
      · exact h.head p v hv
    · by_cases htc : t = cur
      · rw [htc, hnc] at hv
        split at hv
        · cases hv
        · exact h.head o v hv
      · exact h.next t v ((hn t htc).symm.trans hv)
  | reset m =>
    obtain ⟨hw, hn⟩ := hq
    refine ⟨⟨fun p v hv => ?_, fun t v hv => h.next t v ((hn t).symm.trans hv)⟩, fun w hw => by cases hw⟩
    rw [hw] at hv
    split at hv
    · cases hv
    · exact h.head p v hv

end Links

/-- What the scheduler and the calls rely on, between any two steps. -/
structure KernelInv (ts : List ThreadId) (k : Kernel) : Prop where
  line : ∃ l, RunQueue k ts l
  links : LinksIn ts k
  irqDepth : k.cpu.irqDepth = 0
  current : ∀ c, k.cpu.currentThread = some c → c ∈ ts

section Kernel

variable {b : Build} {fuel : Nat} {ts : List ThreadId} {k k' : Kernel}

theorem KernelInv.sched (h : KernelInv ts k) (hs : SchedOnly k k') (hc : ∀ c, k'.cpu.currentThread = some c → c ∈ ts) :
    KernelInv ts k' := by
  obtain ⟨l, hl⟩ := h.line
  exact ⟨⟨l, hs.runQueue hl⟩, h.links.congr hs.sameSync.wait.queues, hs.irqDepth.trans h.irqDepth, hc⟩

theorem KernelInv.setPreemptCnt (h : KernelInv ts k) (n : Nat) : KernelInv ts (k.setPreemptCnt n) := by
  obtain ⟨l, hl⟩ := h.line
  exact ⟨⟨l, hl.congr (fun _ => rfl) (fun _ => rfl) rfl rfl⟩, h.links.congr ⟨fun o => by cases o <;> rfl, fun _ => rfl⟩,
    h.irqDepth, h.current⟩

theorem KernelInv.body {c : Call} {r : Ret} {cur : ThreadId} (h : KernelInv ts k) (hc : k.cpu.currentThread = some cur)
    (hb : callBody b fuel c k = .ok (k', r)) : KernelInv ts k' := by
  obtain ⟨e, -, hd⟩ := callBody_outcome hc hb
  obtain ⟨l, hl⟩ := h.line
  have hcur := h.current cur hc
  obtain ⟨hlinks, hwakes⟩ := hd.queues.linksIn h.links hcur
  refine ⟨⟨_, hd.line ts l hl hcur hwakes⟩, hlinks, hd.irqDepth.trans h.irqDepth, fun c hc' => ?_⟩
  exact h.current c (hd.current.symm.trans hc')

/-- A reschedule with a READY thread around ends on a READY thread. -/
theorem KernelInv.tailPick {cur : ThreadId} {r : Option ThreadId} (h : KernelInv ts k) (hc : cur ∈ ts)
    (hr : ∃ u ∈ ts, isReady k u) (hp : tailPick b fuel k (some cur) = .ok r) : ∃ n ∈ ts, isReady k n ∧ r = some n := by
  obtain ⟨l, hl⟩ := h.line
  rcases tailPick_mem hl hc hp with ⟨hnil, -⟩ | ⟨n, hn, he⟩
  · obtain ⟨u, hu, hur⟩ := hr
    have hul : u ∈ l := (hl.mem u).mpr ⟨hu, hur⟩
    rw [hnil] at hul
    cases hul
  · exact ⟨n, ((hl.mem n).mp hn).1, ((hl.mem n).mp hn).2, he⟩

theorem KernelInv.yieldPick {cur : ThreadId} {r : Option ThreadId} (h : KernelInv ts k) (hc : cur ∈ ts)
    (hp : yieldPick b fuel k cur = .ok r) : r = some cur ∨ ∃ n ∈ ts, isReady k n ∧ r = some n := by
  obtain ⟨l, hl⟩ := h.line
  rcases yieldPick_mem hl hc hp with he | ⟨n, hn, he⟩
  · exact Or.inl he
  · exact Or.inr ⟨n, ((hl.mem n).mp hn).1, ((hl.mem n).mp hn).2, he⟩

end Kernel

/-! ## Frames -/

/-- The frames between a search of the run queue and the swap of the stacks. -/
def Frame.choosing : Frame → Bool
  | .pick _ _ _ => true
  | .picked _ _ _ => true
  | .fpSaved _ _ _ => true
  | .switching _ _ _ => true
  | .calling _ _ _ _ => true
  | .stored _ _ _ => true
  | .starting _ => true
  | _ => false

/-- No interrupt is redirected to `preempt_return` between a search and the swap. -/
def ChoiceQuiet (b : Build) (fuel : Nat) (s : Machine) (a : MAct) : Prop :=
  s.frames.head?.any Frame.choosing = true → redirects b fuel s a = false

theorem any_window {fs : List Frame} (h : fs.head?.any Frame.choosing = false) : fs.head?.any Frame.window = false := by
  cases fs with
  | nil => rfl
  | cons f rest => cases f <;> first | rfl | cases h

/-- What an interrupt that is redirected there goes back to. -/
theorem back_quiet {fs : List Frame} {resumes : Bool} (h : fs.head?.any Frame.choosing = false)
    (hd : ∀ v c rest, fs = .disabling v c :: rest → resumes = true) : Machine.back resumes fs = fs := by
  unfold Machine.back
  split
  · cases h
  · rw [hd _ _ _ rfl]
    rfl
  · rfl

theorem ChoiceQuiet.window {b : Build} {fuel : Nat} {s : Machine} {a : MAct} (h : ChoiceQuiet b fuel s a) :
    WindowQuiet b fuel s a := by
  intro hw
  refine h ?_
  by_contra hno
  rw [any_window (by simpa using hno)] at hw
  cases hw

/-- When `sched_resched_from_irq_tail` searches, some thread is READY. -/
def SomeReady (ts : List (ThreadId × Int)) (s : Machine) : Prop :=
  match s.frames with
  | .pick .tail _ _ :: _ => ∃ u ∈ ts.map Prod.fst, isReady s.k u
  | _ => True

/-- Frames a thread can be interrupted at, so that another frame is on them. -/
def Frame.resting : Frame → Bool
  | .inside _ => false
  | .start => false
  | f => !f.choosing

/-- A suspended context. -/
def Settled (fs : List Frame) : Prop := ∀ f ∈ fs, f.resting = true

/-- The thread may go on: it is READY, or the reschedule is still to come. -/
def GoesOn (k : Kernel) (c : ThreadId) : Prop := isReady k c ∨ k.cpu.needResched ≠ 0 ∧ k.cpu.preemptCnt ≠ 0

/-- It is READY, or a reschedule is asked for. -/
def Leaving (k : Kernel) (c : ThreadId) : Prop := isReady k c ∨ k.cpu.needResched ≠ 0

/-- What holds of the current thread `c` at a frame. -/
def Frame.Fits (ts : List ThreadId) (k : Kernel) (c : ThreadId) : Frame → Prop
  | .own _ => GoesOn k c
  | .inside _ => GoesOn k c ∧ k.cpu.preemptCnt ≠ 0
  | .spin _ => GoesOn k c
  | .disabling _ _ => GoesOn k c
  | .enable => GoesOn k c
  | .enabling _ => GoesOn k c
  | .enabled => Leaving k c
  | .preemptReturn => Leaving k c
  | .tail => Leaving k c
  | .yield => GoesOn k c
  | .pick .tail _ torn => torn = false ∧ Leaving k c
  | .pick .yield _ torn => torn = false ∧ isReady k c
  | .picked _ _ next => (isReady k c ∨ ∃ n, next = some n ∧ n ≠ c) ∧ ∀ n, next = some n → n ≠ c → n ∈ ts ∧ isReady k n
  | .fpSaved _ _ next => next ∈ ts ∧ isReady k next
  | .calling _ _ _ frames => isReady k c ∧ Settled frames
  | .stored _ _ frames => isReady k c ∧ Settled frames
  | .start => True
  | _ => isReady k c

/-- The running frames. -/
def Running (ts : List ThreadId) (k : Kernel) : List Frame → Prop
  | [] => True
  | f :: rest => Settled rest ∧ ∀ c, k.cpu.currentThread = some c → f.Fits ts k c

section Frames

variable {ts : List ThreadId} {k k' : Kernel} {f g : Frame} {rest : List Frame} {c : ThreadId}

theorem fits_ready (hb : f.resting = true) (hr : isReady k c) : f.Fits ts k c := by
  cases f with
  | own _ => exact Or.inl hr
  | spin _ => exact Or.inl hr
  | disabling _ _ => exact Or.inl hr
  | enable => exact Or.inl hr
  | enabling _ => exact Or.inl hr
  | enabled => exact Or.inl hr
  | preemptReturn => exact Or.inl hr
  | tail => exact Or.inl hr
  | yield => exact Or.inl hr
  | resumed w => exact hr
  | loaded w => exact hr
  | _ => cases hb

theorem Settled.tail (h : Settled (f :: rest)) : Settled rest := fun g hg => h g (List.mem_cons_of_mem f hg)

theorem Settled.running {fs : List Frame} (h : Settled fs) (hr : ∀ c, k.cpu.currentThread = some c → isReady k c) : Running ts k fs := by
  cases fs with
  | nil => trivial
  | cons f rest => exact ⟨h.tail, fun c hc => fits_ready (h f List.mem_cons_self) (hr c hc)⟩

/-- A function the thread has called returns, and the thread may go on. -/
theorem Running.pop_goesOn (h : Running ts k (f :: rest)) (hl : Layered (f :: rest)) (hf : f.rank = 1)
    (ha : ∀ c, k.cpu.currentThread = some c → GoesOn k c) : Running ts k rest := by
  cases rest with
  | nil => trivial
  | cons g rest =>
    have hb : g.resting = true := h.1 g List.mem_cons_self
    refine ⟨h.1.tail, fun c hc => ?_⟩
    -- below it is the thread's own code
    rcases (hl.on g List.mem_cons_self).1 with h2 | h1
    · omega
    · cases g with
      | own _ => exact ha c hc
      | spin _ => exact ha c hc
      | inside _ => cases hb
      | _ => cases h1.2

/-- It returns to a READY thread. -/
theorem Running.pop_ready (h : Running ts k (f :: rest)) (hr : ∀ c, k.cpu.currentThread = some c → isReady k c) : Running ts k rest :=
  h.1.running hr

/-- The top frame is replaced, the kernel state changes. -/
theorem Running.replace (h : Running ts k (f :: rest)) (hfit : ∀ c, k'.cpu.currentThread = some c → g.Fits ts k' c) :
    Running ts k' (g :: rest) := ⟨h.1, hfit⟩

/-- A frame is put on the top frame. -/
theorem Running.push (h : Running ts k (f :: rest)) (hb : f.resting = true)
    (hfit : ∀ c, k'.cpu.currentThread = some c → g.Fits ts k' c) : Running ts k' (g :: f :: rest) := by
  refine ⟨fun x hx => ?_, hfit⟩
  rcases List.mem_cons.mp hx with hx | hx
  · rw [hx]
    exact hb
  · exact h.1 x hx

/-- A thread that may go on does so in the lock functions and its own code. -/
theorem Running.quiet {v : Nat} {fs : List Frame} (h : Running ts k (f :: rest)) (hq : Quiet v f fs) : Running ts k (fs ++ rest) := by
  have hgo : ∀ c, k.cpu.currentThread = some c → GoesOn k c := by
    intro c hc
    have hfit := h.2 c hc
    cases hq <;> exact hfit
  have hrest := h.1
  have hpush : ∀ g : Frame, g.resting = true → Settled (g :: rest) := by
    intro g hg x hx
    rcases List.mem_cons.mp hx with rfl | hx
    · exact hg
    · exact hrest x hx
  cases hq with
  | round m => exact ⟨hrest, hgo⟩
  | returned c r => exact ⟨hrest, hgo⟩
  | call c => exact ⟨hrest, hgo⟩
  | disable => exact ⟨hrest, hgo⟩
  | enable => exact ⟨hpush _ rfl, hgo⟩
  | yield => exact ⟨hpush _ rfl, hgo⟩
  | enter p => exact ⟨hrest, hgo⟩
  | enabling _ => exact ⟨hrest, hgo⟩
  | spins p q => exact ⟨hrest, hgo⟩
  | locks p q => exact ⟨hrest, hgo⟩
  | misses p l => exact ⟨hpush _ rfl, hgo⟩
  | unlocks p => exact ⟨hpush _ rfl, hgo⟩
  | got p => exact ⟨hrest, hgo⟩

end Frames

/-! ## Steps -/

structure SleepInv (ts : List ThreadId) (s : Machine) : Prop where
  atomic : Atomic s
  ordered : Ordered s
  kernel : KernelInv ts s.k
  running : Running ts s.k s.frames
  suspended : ∀ t, Settled (s.saved t).frames

section Steps

variable {b : Build} {fuel : Nat} {ts : List ThreadId} {k k' : Kernel} {c : ThreadId} {s s' : Machine}

theorem GoesOn.disable {n : Nat} (h : GoesOn k c) (hn : n ≠ 0) : GoesOn (k.setPreemptCnt n) c := by
  rcases h with h | h
  · exact Or.inl h
  · exact Or.inr ⟨h.1, hn⟩

theorem GoesOn.leaving (h : GoesOn k c) : Leaving k c := by
  rcases h with h | h
  · exact Or.inl h
  · exact Or.inr h.1

theorem GoesOn.ready (h : GoesOn k c) (hp : k.cpu.preemptCnt = 0) : isReady k c := by
  rcases h with h | h
  · exact h
  · exact absurd hp h.2

/-- After a call's body its caller is READY, or a reschedule is to come. -/
theorem GoesOn.body {call : Call} {r : Ret} (h : GoesOn k c) (hp : k.cpu.preemptCnt ≠ 0) (hc : k.cpu.currentThread = some c)
    (hb : callBody b fuel call k = .ok (k', r)) : GoesOn k' c := by
  obtain ⟨e, -, hd⟩ := callBody_outcome hc hb
  have hp' : k'.cpu.preemptCnt ≠ 0 := by
    rw [hd.preemptCnt]
    exact hp
  by_cases he : ∃ o, e = .blocked o
  · exact Or.inr ⟨hd.request (Or.inr he), hp'⟩
  · rcases h with hr | ⟨hn, -⟩
    · refine Or.inl ((hd.state c).trans ?_)
      cases e with
      | blocked o => exact absurd ⟨o, rfl⟩ he
      | handed m w => exact ite_eq_left_iff.mpr fun _ => hr
      | woken σ w => exact ite_eq_left_iff.mpr fun _ => hr
      | _ => exact hr
    · exact Or.inr ⟨hd.request (Or.inl hn), hp'⟩

/-- `mutex_init` blocks nobody. -/
theorem GoesOn.init {m : MutexId} {r : Ret} (h : GoesOn k c) (hb : callBody b fuel (.mutexInit m) k = .ok (k', r)) : GoesOn k' c := by
  simp only [callBody] at hb
  split at hb
  · cases hb
    exact h
  · cases hb

theorem KernelInv.leave {w : Switcher} {rest : List Frame} (h : KernelInv ts s.k) : KernelInv ts (s.leave w rest).k := by
  cases w with
  | tail => exact h.sched (SchedOnly.setNeedResched _ _) h.current
  | yield => exact h

theorem leave_ready {w : Switcher} {rest : List Frame} : isReady (s.leave w rest).k c ↔ isReady s.k c := by
  cases w <;> rfl

/-- An interrupt that is not redirected. -/
theorem Frame.Fits.irq {f : Frame} (h : f.Fits ts k c) (ho : SchedOnly k k') (hn : k.cpu.needResched ≠ 0 → k'.cpu.needResched ≠ 0) :
    f.Fits ts k' c := by
  have hready : ∀ t, isReady k t → isReady k' t := fun t ht => (ho.ready_iff t).mpr ht
  have hawake : GoesOn k c → GoesOn k' c := by
    intro ha
    rcases ha with hr | ⟨hnr, hp⟩
    · exact Or.inl (hready c hr)
    · exact Or.inr ⟨hn hnr, ho.preemptCnt ▸ hp⟩
  have hleaving : Leaving k c → Leaving k' c := Or.imp (hready c) hn
  cases f with
  | own _ => exact hawake h
  | inside _ => exact ⟨hawake h.1, ho.preemptCnt ▸ h.2⟩
  | spin _ => exact hawake h
  | disabling _ _ => exact hawake h
  | enable => exact hawake h
  | enabling _ => exact hawake h
  | enabled => exact hleaving h
  | preemptReturn => exact hleaving h
  | tail => exact hleaving h
  | yield => exact hawake h
  | pick w cur torn =>
    cases w with
    | tail => exact ⟨h.1, hleaving h.2⟩
    | yield => exact ⟨h.1, hready c h.2⟩
  | picked w cur next => exact ⟨Or.imp_left (hready c) h.1, fun n hn hne => ⟨(h.2 n hn hne).1, hready n (h.2 n hn hne).2⟩⟩
  | fpSaved w cur next => exact ⟨h.1, hready next h.2⟩
  | calling w cur stack frames => exact ⟨hready c h.1, h.2⟩
  | stored w stack frames => exact ⟨hready c h.1, h.2⟩
  | start => trivial
  | _ => exact hready c h

theorem Running.irq {fs : List Frame} (h : Running ts k fs) (ho : SchedOnly k k') (hc : k'.cpu.currentThread = k.cpu.currentThread)
    (hn : k.cpu.needResched ≠ 0 → k'.cpu.needResched ≠ 0) : Running ts k' fs := by
  cases fs with
  | nil => trivial
  | cons f rest =>
    exact ⟨h.1, fun c hcur => (h.2 c (hc ▸ hcur)).irq ho hn⟩

/-- A statement keeps the invariant, if a reschedule finds somebody. -/
theorem SleepInv.go {tp : List (ThreadId × Int)} (h : SleepInv (tp.map Prod.fst) s) (hsome : SomeReady tp s)
    (hcount : DisableCounts b fuel s .go) (hs : GoCases b fuel s s') : SleepInv (tp.map Prod.fst) s' := by
  have hat := h.atomic.go hs
  have hord := h.ordered.go hs
  have hk := h.kernel
  have hrun := h.running
  cases hs with
  | quiet f fs rest word monitor masked hf hq _ he =>
    subst he
    rw [hf] at hrun
    exact ⟨hat, hord, hk, hrun.quiet hq, h.suspended⟩
  | body c k r rest hf _ hb he =>
    obtain ⟨t, ho⟩ := h.atomic.owner hf rfl (fun e => by cases e)
    subst he
    rw [hf] at hrun
    have ht := hrun.2 t ho.current
    have hfit : ∀ d, k.cpu.currentThread = some d → GoesOn k d := by
      intro d hd
      cases (callBody_current ho.current hb).symm.trans hd
      exact ht.1.body ht.2 ho.current hb
    have hown : Running _ k (.own (r.cont c) :: rest) := hrun.replace hfit
    exact ⟨hat, hord, hk.body ho.current hb, hown.push rfl hfit, h.suspended⟩
  | disables v c rest hf he =>
    subst he
    rw [hf] at hrun
    have hv : (v + 1) % UInt32.size ≠ 0 := by
      unfold DisableCounts at hcount
      rw [hf] at hcount
      rw [Nat.mod_eq_of_lt hcount]
      exact Nat.succ_ne_zero v
    refine ⟨hat, hord, hk.setPreemptCnt _, hrun.replace fun t ht => ?_, h.suspended⟩
    have hgo := (hrun.2 t ht).disable hv
    cases c with
    | user => exact hgo
    | call c => exact ⟨hgo, hv⟩
    | spin p => exact hgo
  | enables v rest hf he =>
    subst he
    rw [hf] at hrun
    exact ⟨hat, hord, hk.setPreemptCnt _, hrun.replace fun c hc => (hrun.2 c hc).leaving, h.suspended⟩
  | returns f rest hf hr he =>
    subst he
    obtain ⟨hl, ht⟩ := h.ordered.head hf
    rw [hf] at hrun
    refine ⟨hat, hord, hk, ?_, h.suspended⟩
    have hfit := hrun.2
    cases hr with
    | enable hp => exact hrun.pop_goesOn hl rfl fun c hc => hfit c hc
    | enabled hno =>
      refine hrun.pop_goesOn hl rfl fun c hc => ?_
      rcases hfit c hc with hrd | hn
      · exact Or.inl hrd
      · exact Or.inr ⟨hn, fun hp => hno ⟨hp, hn, hk.irqDepth⟩⟩
    | preemptReturn hno =>
      refine hrun.pop_ready fun c hc => ?_
      rcases hfit c hc with hrd | hn
      · exact hrd
      · exact absurd ⟨ht rfl, hn⟩ hno
    | tail hp => exact absurd (ht rfl) hp
    | yield hno => exact hrun.pop_goesOn hl rfl fun c hc => hfit c hc
  | calls f rest hf hcall hp hn he =>
    subst he
    rw [hf] at hrun
    exact ⟨hat, hord, hk, hrun.replace fun c _ => Or.inr hn, h.suspended⟩
  | searches f w rest hf hsearch hp he =>
    subst he
    rw [hf] at hrun
    refine ⟨hat, hord, hk, hrun.replace fun c hc => ?_, h.suspended⟩
    have hfit := hrun.2 c hc
    cases hsearch with
    | tail => exact ⟨rfl, hfit⟩
    | yield => exact ⟨rfl, hfit.ready hp⟩
  | found w cur next rest hf hcand he =>
    obtain ⟨t, ho⟩ := h.atomic.owner hf rfl (fun e => by cases e)
    have hcur : cur = some t := (hf ▸ ho.mine).head
    subst he hcur
    rw [hf] at hrun
    refine ⟨hat, hord, hk, hrun.replace fun c hc => ?_, h.suspended⟩
    have hfit := hrun.2 c hc
    cases ho.current.symm.trans hc
    cases w with
    | tail =>
      unfold SomeReady at hsome
      rw [hf] at hsome
      obtain ⟨n, hn, hnr, rfl⟩ := hk.tailPick (hk.current t hc) hsome hcand
      refine ⟨?_, fun m hm _ => ?_⟩
      · by_cases hnt : n = t
        · exact Or.inl (hnt ▸ hnr)
        · exact Or.inr ⟨n, rfl, hnt⟩
      · cases hm
        exact ⟨hn, hnr⟩
    | yield =>
      refine ⟨Or.inl hfit.2, fun m hm hmt => ?_⟩
      rcases hk.yieldPick (hk.current t hc) hcand with he | ⟨n, hn, hnr, he⟩
      · cases he.symm.trans hm
        exact absurd rfl hmt
      · cases he.symm.trans hm
        exact ⟨hn, hnr⟩
  | stays w cur next rest hf hno he =>
    obtain ⟨t, ho⟩ := h.atomic.owner hf rfl (fun e => by cases e)
    have hcur : cur = some t := (hf ▸ ho.mine).head
    subst he hcur
    rw [hf] at hrun
    have hready : isReady s.k t := by
      rcases (hrun.2 t ho.current).1 with hr | ⟨n, hn, hnt⟩
      · exact hr
      · rcases hno with hno | hno | hno
        · cases hno
        · cases hn.symm.trans hno
        · cases hn.symm.trans hno
          exact absurd rfl hnt
    refine ⟨hat, hord, hk.leave, ?_, ?_⟩
    · rw [leave_frames]
      refine hrun.1.running fun c hc => leave_ready.mpr ?_
      cases ho.current.symm.trans ((leave_current s w rest).symm.trans hc)
      exact hready
    · simpa using h.suspended
  | saves w cur next rest hf hne he =>
    obtain ⟨t, ho⟩ := h.atomic.owner hf rfl (fun e => by cases e)
    have hcur : cur = t := Option.some.inj (hf ▸ ho.mine).head
    subst he hcur
    rw [hf] at hrun
    refine ⟨hat, hord, by simpa using hk, ?_, by simpa using h.suspended⟩
    refine hrun.replace fun c hc => ?_
    have hfit := (hrun.2 cur ho.current).2 next rfl hne
    simpa [Frame.Fits] using hfit
  | becomes w cur next rest hf he =>
    obtain ⟨t, ho⟩ := h.atomic.owner hf rfl (fun e => by cases e)
    subst he
    rw [hf] at hrun
    have hfit := hrun.2 t ho.current
    refine ⟨hat, hord, hk.sched (SchedOnly.setCurrent _ _) fun c hc => ?_, ?_, h.suspended⟩
    · cases hc
      exact hfit.1
    · refine hrun.replace fun c hc => ?_
      cases hc
      exact hfit.2
  | reads w cur next rest hf he =>
    subst he
    rw [hf] at hrun
    exact ⟨hat, hord, hk, hrun.replace fun c hc => ⟨hrun.2 c hc, h.suspended next⟩, h.suspended⟩
  | stores w cur stack frames rest hf he =>
    subst he
    rw [hf] at hrun
    refine ⟨hat, hord, hk, hrun.replace hrun.2, fun t => ?_⟩
    by_cases ht : t = cur
    · subst ht
      simp only [Function.update_self]
      intro g hg
      rcases List.mem_cons.mp hg with rfl | hg
      · rfl
      · exact hrun.1 g hg
    · simp only [Function.update_of_ne ht]
      exact h.suspended t
  | swaps w stack frames rest hf he =>
    have hctl := h.atomic.control
    unfold Control at hctl
    rw [hf] at hctl
    obtain ⟨-, next, -, -, hc⟩ := hctl
    subst he
    rw [hf] at hrun
    refine ⟨hat, hord, hk, ?_, h.suspended⟩
    exact (hrun.2 next hc).2.running fun c hc' => (hrun.2 c hc').1
  | loads w rest hf he =>
    subst he
    rw [hf] at hrun
    refine ⟨hat, hord, by simpa using hk, ?_, by simpa using h.suspended⟩
    exact hrun.replace (by simpa [Frame.Fits] using hrun.2)
  | leaves w rest hf he =>
    subst he
    rw [hf] at hrun
    refine ⟨hat, hord, hk.leave, ?_, by simpa using h.suspended⟩
    rw [leave_frames]
    refine hrun.1.running fun c hc => leave_ready.mpr ?_
    exact hrun.2 c ((leave_current s w rest).symm.trans hc)
  | starts k cur rest hf hstart hc he =>
    obtain ⟨n, hpick, honly, hn⟩ := schedStart_cases hstart
    obtain ⟨l, hl⟩ := hk.line
    obtain ⟨hnin, hnr⟩ := (hl.mem n).mp (startPick_mem hl hpick)
    cases hn.symm.trans hc
    subst he
    rw [hf] at hrun
    refine ⟨hat, hord, hk.sched honly fun c hc' => ?_, ?_, h.suspended⟩
    · cases hn.symm.trans hc'
      exact hnin
    · refine hrun.replace fun c hc' => ?_
      cases hn.symm.trans hc'
      exact (honly.ready_iff _).mpr hnr
  | startReads cur rest hf he =>
    subst he
    rw [hf] at hrun
    exact ⟨hat, hord, hk, hrun.replace fun c hc => ⟨hrun.2 c hc, h.suspended cur⟩, h.suspended⟩

/-- So does every other step, unless it redirects between a search and the swap. -/
theorem SleepInv.step {tp : List (ThreadId × Int)} {a : MAct} (h : SleepInv (tp.map Prod.fst) s) (hsome : SomeReady tp s)
    (hq : ChoiceQuiet b fuel s a) (hcount : DisableCounts b fuel s a) (hs : s.step b fuel a = .ok s') :
    SleepInv (tp.map Prod.fst) s' := by
  have hat := h.atomic.step hq.window hs
  have hord := h.ordered.step hs
  have hk := h.kernel
  have hrun := h.running
  cases step_cases hs with
  | go ha hgo =>
    subst ha
    exact h.go hsome hcount hgo
  | irq intid guardOk resumes redirect takes k ha _ hi he =>
    subst ha he
    obtain ⟨honly, hcur, hreq, hred⟩ := irqHandlerEl1_only hi
    refine ⟨hat, hord, hk.sched honly fun c hc => hk.current c (hcur ▸ hc), ?_, h.suspended⟩
    cases redirect with
    | false => exact hrun.irq honly hcur hreq
    | true =>
      obtain ⟨hsome, hp, hn⟩ := hred rfl
      have hch : s.frames.head?.any Frame.choosing = false := by
        by_contra hno
        have hno' := hq (by simpa using hno)
        rw [redirects_irq hi] at hno'
        cases hno'
      have hres : ∀ v c rest, s.frames = .disabling v c :: rest → resumes = true := by
        intro v c rest hf
        unfold DisableCounts at hcount
        rw [hf] at hcount
        exact hcount (redirects_irq hi)
      obtain ⟨t, ho⟩ := h.atomic.interrupted (any_window hch) (hcur ▸ hsome)
      rw [if_pos rfl, back_quiet hch hres]
      have hfit : ∀ c, k.cpu.currentThread = some c → (Frame.preemptReturn).Fits (tp.map Prod.fst) k c := fun _ _ => Or.inr hn
      revert hrun hch
      have hm := ho.mine
      revert hm
      cases s.frames with
      | nil => exact fun _ _ _ => ⟨(fun g hg => by cases hg), hfit⟩
      | cons f rest =>
        intro hm hrun hch
        refine hrun.push ?_ hfit
        cases f with
        | inside c => exact absurd (honly.preemptCnt.symm.trans hp) (hrun.2 t ho.current).2
        | start => exact hm.head.elim
        | _ => first | rfl | cases hch
  | found w cur next rest _ hf he =>
    -- no search is torn
    rw [hf] at hrun
    obtain ⟨t, ho⟩ := h.atomic.owner hf rfl (fun e => by cases e)
    have hfit := hrun.2 t ho.current
    cases w <;> cases hfit.1
  | meddled c k r fs rest _ hf hp hfs he =>
    -- a call's body runs with preemption disabled
    rw [hf] at hrun
    obtain ⟨t, ho⟩ := h.atomic.owner hf rfl (fun e => by cases e)
    exact absurd hp (hrun.2 t ho.current).2
  | init m k r rest _ hf hb he =>
    obtain ⟨t, ho⟩ := h.atomic.owner hf rfl (fun e => by cases e)
    subst he
    rw [hf] at hrun
    refine ⟨hat, hord, hk.body ho.current hb, hrun.replace fun c hc => ?_, h.suspended⟩
    cases (callBody_current ho.current hb).symm.trans hc
    exact GoesOn.init (hrun.2 t ho.current) hb
  | acts fs rest hf hq he =>
    subst he
    rw [hf] at hrun
    exact ⟨hat, hord, hk, hrun.quiet hq.quiet, h.suspended⟩
  | compute fp rest _ hf he =>
    subst he
    exact ⟨hat, hord, hk, hrun, h.suspended⟩

end Steps

/-! ## Runs -/

theorem sleep_boot {b : Build} {fp : FpRegs} {ts : List (ThreadId × Int)} {counts : SemId → Int} {s : Machine}
    (hn : (ts.map Prod.fst).Nodup) (h : Machine.boot b fp ts counts = .ok s) : SleepInv (ts.map Prod.fst) s := by
  have hat := atomic_boot h
  have hord := ordered_boot h
  obtain ⟨k, hk, h⟩ := bind_ok.mp h
  cases h
  have hp := pristine_spawns (pristine_boot b counts) hk
  have hcpu := spawns_cpu hk
  have hnone : k.cpu.currentThread = none := by
    rw [hcpu]
    rfl
  refine ⟨hat, hord, ⟨spawns_queue hn hk, ⟨fun o w hw => ?_, fun t w hw => ?_⟩, ?_, fun c hc => ?_⟩, ⟨?_, ?_⟩, fun t => ?_⟩
  · cases o with
    | mutex m => simp [waitersOf, hp.mutexes] at hw
    | sem σ => simp [waitersOf, hp.sems] at hw
  · cases (hp.waitNext t).symm.trans hw
  · rw [hcpu]
    rfl
  · cases hnone.symm.trans hc
  · intro f hf
    cases hf
  · exact fun c _ => trivial
  · intro f hf
    rw [List.mem_singleton.mp hf]
    rfl

theorem sleep_run {b : Build} {ts : List (ThreadId × Int)} {counts : SemId → Int} {s : Machine}
    (h : MRun b (fun fuel s a => SomeReady ts s ∧ ChoiceQuiet b fuel s a ∧ DisableCounts b fuel s a) ts counts s) : SleepInv (ts.map Prod.fst) s := by
  induction h with
  | boot fp hn hb => exact sleep_boot hn hb
  | step a fuel _ hok hs ih => exact ih.step hok.1 hok.2.1 hok.2.2 hs

theorem someReady {ts : List (ThreadId × Int)} {s : Machine} {t : ThreadId} (ht : t ∈ ts.map Prod.fst) (hr : isReady s.k t) :
    SomeReady ts s := by
  unfold SomeReady
  split
  · exact ⟨t, ht, hr⟩
  · trivial

end Microkernel

/-
  Microkernel.Kernel.Queue — what the run queue is for, and that src/thread.cc's ring
  implements it over every run.

  `Queue` is a line of threads: a freshly added or woken thread joins at the end, a
  blocked one leaves the line and the others keep their places. Threads are created
  (`thread_create_prio`), added once each (`sched_add`), blocked (`sched_block_current`
  on the current thread), woken (`sched_make_runnable`, any thread), and the scheduler
  may make any added thread current.

  `Rep` is the relation between a kernel and the line it represents: the ring from
  `rq_head` to `rq_tail` is the line, the line is the READY added threads, and a
  BLOCKED thread is unlinked. `run_queue_represented`: it holds after every run, and no
  operation gets stuck.
-/

import Microkernel.Kernel.RunQueue

namespace Microkernel

inductive RqOp where
  | create (t : ThreadId) (basePriority : Int)
  | add (t : ThreadId)
  | blockCurrent
  | makeRunnable (t : ThreadId)
  | dispatch (t : ThreadId)
  deriving Repr

/-- The abstract line. -/
structure Queue where
  created : List ThreadId
  added : List ThreadId
  line : List ThreadId
  current : Option ThreadId

namespace Queue

def init : Queue := ⟨[], [], [], none⟩

/-- What the callers respect: threads are created once and added once, only created
    threads are woken, only added ones run. -/
def Allowed (q : Queue) : RqOp → Prop
  | .create t _ => t ∉ q.created
  | .add t => t ∈ q.created ∧ t ∉ q.added
  | .blockCurrent => True
  | .makeRunnable t => t ∈ q.created
  | .dispatch t => t ∈ q.added

instance (q : Queue) : (op : RqOp) → Decidable (q.Allowed op)
  | .create t _ => inferInstanceAs (Decidable (t ∉ q.created))
  | .add t => inferInstanceAs (Decidable (t ∈ q.created ∧ t ∉ q.added))
  | .blockCurrent => inferInstanceAs (Decidable True)
  | .makeRunnable t => inferInstanceAs (Decidable (t ∈ q.created))
  | .dispatch t => inferInstanceAs (Decidable (t ∈ q.added))

def step (q : Queue) : RqOp → Queue
  | .create t _ => { q with created := t :: q.created }
  | .add t => { q with added := t :: q.added, line := q.line ++ [t] }
  | .blockCurrent =>
    match q.current with
    | some cur => { q with line := q.line.erase cur }
    | none => q
  | .makeRunnable t => if t ∈ q.added ∧ t ∉ q.line then { q with line := q.line ++ [t] } else q
  | .dispatch t => { q with current := some t }

theorem step_block {q : Queue} {cur : ThreadId} (hc : q.current = some cur) :
    q.step .blockCurrent = { q with line := q.line.erase cur } := by
  simp only [step, hc]

end Queue

/-- The kernel's side of an operation. -/
def rqStep (fuel : Nat) (op : RqOp) (k : Kernel) : Except Halt Kernel :=
  match op with
  | .create t base => .ok (k.setThread t fun _ => threadCreatePrio base)
  | .add t => schedAdd t k
  | .blockCurrent => schedBlockCurrent fuel k
  | .makeRunnable t => schedMakeRunnable t k
  | .dispatch t => .ok (k.setCurrent (some t))

/-- Runs from `sched_init`, with the line beside the kernel. -/
inductive RqRun : Kernel → Queue → Prop
  | init (k : Kernel) : k.cpu.currentThread = none → RqRun (schedInit k) Queue.init
  | step {k k' : Kernel} {q : Queue} (op : RqOp) (fuel : Nat) :
      RqRun k q → q.Allowed op → rqStep fuel op k = .ok k' → RqRun k' (q.step op)

/-- `k`'s run queue is the line `q`. -/
structure Rep (k : Kernel) (q : Queue) : Prop where
  queue : RunQueue k q.added q.line
  current : k.cpu.currentThread = q.current
  currentAdded : ∀ t, q.current = some t → t ∈ q.added
  addedCreated : ∀ t ∈ q.added, t ∈ q.created
  /-- A thread is READY until it is added. -/
  fresh : ∀ t ∈ q.created, t ∉ q.added → isReady k t

theorem Rep.unlinked {k : Kernel} {q : Queue} (h : Rep k q) (t : ThreadId) (ht : t ∈ q.created) (hr : ¬ isReady k t) :
    nextOf k t = none := by
  by_cases ha : t ∈ q.added
  · exact h.queue.unlinked t ha hr
  · exact absurd (h.fresh t ht ha) hr

theorem rep_init {k : Kernel} (hc : k.cpu.currentThread = none) : Rep (schedInit k) Queue.init := by
  refine ⟨⟨Linked.ring_empty, ?_, ?_⟩, hc, ?_, ?_, ?_⟩
  · intro t; simp [Queue.init]
  · intro t ht; cases ht
  · intro t ht; cases ht
  · intro t ht; cases ht
  · intro t ht; cases ht

theorem rep_create {k : Kernel} {q : Queue} (h : Rep k q) {t : ThreadId} (ht : t ∉ q.created) (base : Int) :
    Rep (k.setThread t fun _ => threadCreatePrio base) (q.step (.create t base)) := by
  have hta : t ∉ q.added := fun hm => ht (h.addedCreated t hm)
  have htl : t ∉ q.line := fun hm => hta ((h.queue.mem t).mp hm).1
  have hready : ∀ u, u ≠ t → (isReady (k.setThread t fun _ => threadCreatePrio base) u ↔ isReady k u) := by
    intro u hu
    simp only [isReady, Kernel.setThread_threads, if_neg hu]
  have hnext : ∀ u, u ≠ t → nextOf (k.setThread t fun _ => threadCreatePrio base) u = nextOf k u := by
    intro u hu
    simp only [nextOf, Kernel.setThread_threads, if_neg hu]
  refine ⟨⟨?_, ?_, ?_⟩, h.current, h.currentAdded, ?_, ?_⟩
  · exact Linked.Ring.congr h.queue.ring fun a ha => hnext a fun e => htl (e ▸ ha)
  · intro u
    show u ∈ q.line ↔ u ∈ q.added ∧ _
    rw [h.queue.mem]
    by_cases hu : u = t
    · subst hu; simp [hta]
    · rw [hready u hu]
  · intro u hu hnr
    have hut : u ≠ t := fun e => hta (e ▸ hu)
    rw [hnext u hut]
    exact h.queue.unlinked u hu fun hr => hnr ((hready u hut).mpr hr)
  · intro u hu
    exact List.mem_cons_of_mem _ (h.addedCreated u hu)
  · intro u hu hua
    by_cases hut : u = t
    · subst hut
      simp [isReady, threadCreatePrio]
    · exact (hready u hut).mpr (h.fresh u ((List.mem_cons.mp hu).resolve_left hut) hua)

theorem rep_add {k k' : Kernel} {q : Queue} (h : Rep k q) {t : ThreadId} (ht : t ∈ q.created) (hta : t ∉ q.added)
    (ha : schedAdd t k = .ok k') : Rep k' (q.step (.add t)) := by
  have htl : t ∉ q.line := fun hm => hta ((h.queue.mem t).mp hm).1
  have hro := rqAppend_rqOnly ha
  have hq : RunQueue k' (t :: q.added) (q.line ++ [t]) := by
    refine h.queue.append htl (fun u => by simp) ?_ ?_ ha
    · split
      · rfl
      · rename_i hs; simpa using hs
    · split <;> rfl
  refine ⟨hq, ?_, ?_, ?_, ?_⟩
  · rw [hro.cpu]; exact h.current
  · intro u hu
    exact List.mem_cons_of_mem _ (h.currentAdded u hu)
  · intro u hu
    rcases List.mem_cons.mp hu with rfl | hu
    · exact ht
    · exact h.addedCreated u hu
  · intro u hu hua
    have hut : u ≠ t := fun e => hua (by rw [e]; exact List.mem_cons_self)
    have hr := h.fresh u hu fun hm => hua (List.mem_cons_of_mem _ hm)
    unfold isReady at hr ⊢
    rw [hro.state, Kernel.setThread_threads, if_neg hut]
    exact hr

theorem rep_block {k k' : Kernel} {q : Queue} (h : Rep k q) {fuel : Nat} (hb : schedBlockCurrent fuel k = .ok k') :
    Rep k' (q.step .blockCurrent) := by
  rcases hc : q.current with _ | cur
  · have hk : k' = k := by
      simp only [schedBlockCurrent, h.current, hc] at hb
      cases hb; rfl
    subst hk
    simpa only [Queue.step, hc] using h
  · have hca := h.currentAdded cur hc
    have hq := h.queue.block (h.current.trans hc) hca hb
    rw [Queue.step_block hc]
    by_cases hr : isReady k cur
    · have hro := schedBlockCurrent_rqOnly (h.current.trans hc) hr hb
      refine ⟨hq, ?_, h.currentAdded, h.addedCreated, ?_⟩
      · rw [hro.cpu]; exact h.current
      · intro u hu hua
        have huc : u ≠ cur := fun e => hua (e ▸ hca)
        have := h.fresh u hu hua
        unfold isReady at this ⊢
        rw [hro.state, Kernel.setThread_threads, if_neg huc]
        exact this
    · have hst : (k.threads cur).state = .blocked := by
        unfold isReady at hr
        cases hs : (k.threads cur).state with
        | ready => exact absurd hs hr
        | blocked => rfl
      rw [schedBlockCurrent_blocked (h.current.trans hc) hst] at hb
      cases hb
      exact ⟨hq, h.current, h.currentAdded, h.addedCreated, h.fresh⟩

theorem rep_wake {k k' : Kernel} {q : Queue} (h : Rep k q) {t : ThreadId} (ht : t ∈ q.created)
    (hw : schedMakeRunnable t k = .ok k') : Rep k' (q.step (.makeRunnable t)) := by
  by_cases hr : isReady k t
  · rw [schedMakeRunnable_ready hr] at hw
    cases hw
    have hc : ¬ (t ∈ q.added ∧ t ∉ q.line) := fun hc => hc.2 ((h.queue.mem t).mpr ⟨hc.1, hr⟩)
    simpa only [Queue.step, if_neg hc] using h
  · have hta : t ∈ q.added := by
      by_cases ha : t ∈ q.added
      · exact ha
      · exact absurd (h.fresh t ht ha) hr
    have htl : t ∉ q.line := fun hm => hr ((h.queue.mem t).mp hm).2
    have hro := schedMakeRunnable_rqOnly hr hw
    simp only [Queue.step, if_pos (And.intro hta htl)]
    refine ⟨h.queue.wake hta hr hw, ?_, h.currentAdded, h.addedCreated, ?_⟩
    · rw [hro.cpu]; exact h.current
    · intro u hu hua
      have hut : u ≠ t := fun e => hua (e ▸ hta)
      have := h.fresh u hu hua
      unfold isReady at this ⊢
      rw [hro.state, Kernel.setThread_threads, if_neg hut]
      exact this

/-- One operation of the code does to the line what `Queue.step` does. -/
theorem rep_step {k k' : Kernel} {q : Queue} (h : Rep k q) (op : RqOp) {fuel : Nat} (hop : q.Allowed op)
    (hs : rqStep fuel op k = .ok k') : Rep k' (q.step op) := by
  cases op with
  | create t base => cases hs; exact rep_create h hop base
  | add t => exact rep_add h hop.1 hop.2 hs
  | blockCurrent => exact rep_block h hs
  | makeRunnable t => exact rep_wake h hop hs
  | dispatch t =>
    cases hs
    refine ⟨h.queue.congr (fun _ => rfl) (fun _ => rfl) rfl rfl, rfl, ?_, h.addedCreated, h.fresh⟩
    intro u hu
    cases hu
    exact hop

theorem rep_run {k : Kernel} {q : Queue} (h : RqRun k q) : Rep k q := by
  induction h with
  | init k hc => exact rep_init hc
  | step op fuel _ hop hs ih => exact rep_step ih op hop hs

/-- Given one loop step for every queued thread, an operation returns. -/
theorem rqStep_returns {k : Kernel} {q : Queue} (h : Rep k q) (op : RqOp) {fuel : Nat} (hop : q.Allowed op)
    (hf : q.line.length ≤ fuel) : ∃ k', rqStep fuel op k = .ok k' := by
  cases op with
  | create t base => exact ⟨_, rfl⟩
  | add t =>
    have htl : t ∉ q.line := fun hm => hop.2 ((h.queue.mem t).mp hm).1
    have hring : RqRing (k.setThread t fun x => if x.state ≠ .ready then { x with state := .ready } else x) q.line := by
      refine h.queue.ring.congr (Kernel.setThread_field k t _ (·.next) ?_) rfl rfl
      split <;> rfl
    obtain ⟨k', hk', -⟩ := rqAppend_spec hring htl
    exact ⟨k', hk'⟩
  | blockCurrent =>
    rcases hc : q.current with _ | cur
    · exact ⟨k, by simp [rqStep, schedBlockCurrent, h.current, hc]⟩
    · obtain ⟨k1, h1⟩ := rqRemove_returns h.queue.ring cur hf
      simp only [rqStep, schedBlockCurrent, h.current, hc, h1]
      split
      · exact ⟨_, rfl⟩
      · exact ⟨_, rfl⟩
  | makeRunnable t =>
    by_cases hr : isReady k t
    · exact ⟨k, schedMakeRunnable_ready hr⟩
    · have hring : RqRing (k.setThread t Thread.wake) q.line :=
        h.queue.ring.congr (Kernel.setThread_field k t _ (·.next) rfl) rfl rfl
      obtain ⟨k', hk', -⟩ := rqAppend_spec hring fun hm => hr ((h.queue.mem t).mp hm).2
      exact ⟨k', (schedMakeRunnable_blocked hr).trans hk'⟩
  | dispatch t => exact ⟨_, rfl⟩

/-- After every run the run queue is the line: empty with both pointers null, or the
    ring from `rq_head` to `rq_tail` and back visits the line's threads once each; these
    are the added READY threads; BLOCKED threads are unlinked; and the next operation
    returns and does to the line what `Queue.step` says. -/
theorem run_queue_represented {k : Kernel} {q : Queue} (h : RqRun k q) :
    (q.line = [] ∧ k.rqHead = none ∧ k.rqTail = none ∨
      ∃ hd ∈ q.line, ∃ tl ∈ q.line, k.rqHead = some hd ∧ k.rqTail = some tl ∧ q.line.Nodup ∧
        Linked.Seg (nextOf k) (some hd) q.line (some hd) ∧ nextOf k tl = some hd ∧ q.line.getLast? = some tl) ∧
    (∀ t, t ∈ q.line ↔ t ∈ q.added ∧ isReady k t) ∧
    (∀ t ∈ q.created, ¬ isReady k t → nextOf k t = none) ∧
    ∀ op, q.Allowed op →
      (∀ fuel, q.line.length ≤ fuel → ∃ k', rqStep fuel op k = .ok k') ∧
      ∀ fuel k', rqStep fuel op k = .ok k' → RqRing k' (q.step op).line := by
  have hr := rep_run h
  refine ⟨?_, hr.queue.mem, hr.unlinked, fun op hop => ⟨fun fuel hf => rqStep_returns hr op hop hf, ?_⟩⟩
  · have hring := hr.queue.ring
    cases hl : q.line with
    | nil =>
      rw [hl] at hring
      exact Or.inl ⟨rfl, hring.head_eq, hring.tail_eq⟩
    | cons hd l =>
      rw [hl] at hring
      obtain ⟨tl, htl⟩ : ∃ tl, (hd :: l).getLast? = some tl := ⟨_, List.getLast?_eq_some_getLast (by simp)⟩
      obtain ⟨l₀, hl₀⟩ := List.getLast?_eq_some_iff.mp htl
      have hs : Linked.Seg (nextOf k) (some hd) (hd :: l) (some hd) := by
        have := hring.seg
        rwa [hring.head_eq] at this
      refine Or.inr ⟨hd, List.mem_cons_self, tl, List.mem_of_getLast? htl, hring.head_eq, hring.tail_eq.trans htl,
        hring.nodup, hs, ?_, htl⟩
      rw [hl₀] at hs
      exact (Linked.seg_snoc.mp hs).2
  · intro fuel k' hs
    exact (rep_step hr op hop hs).queue.ring

/-- Two threads are added; the first blocks while it runs and is woken behind the second. -/
theorem run_queue_represented_wake :
    ∃ k, RqRun k ⟨[1, 0], [1, 0], [1, 0], some 1⟩ ∧ nextOf k 0 = some 1 ∧ nextOf k 1 = some 0 ∧
      ∀ t, t ∈ [1, 0] ↔ t ∈ [1, 0] ∧ isReady k t := by
  have h0 : RqRun (schedInit Kernel.zero) Queue.init := .init Kernel.zero rfl
  have h2 := (h0.step (.create 0 10) 2 (by decide) rfl).step (.add 0) 2 (by decide) rfl
  have h4 := (h2.step (.create 1 20) 2 (by decide) rfl).step (.add 1) 2 (by decide) rfl
  have h6 := (h4.step (.dispatch 0) 2 (by decide) rfl).step .blockCurrent 2 (by decide) rfl
  have h8 := (h6.step (.dispatch 1) 2 (by decide) rfl).step (.makeRunnable 0) 2 (by decide) rfl
  exact ⟨_, h8, rfl, rfl, (run_queue_represented h8).2.1⟩

end Microkernel

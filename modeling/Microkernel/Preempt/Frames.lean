/-
  Microkernel.Preempt.Frames — the order of frames, and the counter.

  A context is a thread's own code at the bottom, on it at most one function it has called
  with preemption on its mind (`preempt_enable`, `thread_yield`), and on these any number
  of preemptions: `preempt_return` and `sched_resched_from_irq_tail`. The scheduler is
  only ever inside a search or a switch with `preempt_cnt` 0, a value of the counter that
  has been loaded is the one that is still there, and no frame that has loaded one is
  preempted unless it was 0.

  Proved, of every run with any interrupts: `Ordered`, by `Ordered.step`.
-/

import Microkernel.Preempt.Steps

namespace Microkernel

/-! ## Order -/

/-- 0 for the thread's own code, 1 for what it calls, 2 for a preemption. -/
def Switcher.rank : Switcher → Nat
  | .tail => 2
  | .yield => 1

def Frame.rank : Frame → Nat
  | .own _ => 0
  | .inside _ => 0
  | .spin _ => 0
  | .disabling _ _ => 0
  | .enable => 1
  | .enabling _ => 1
  | .enabled => 1
  | .yield => 1
  | .pick w _ _ => w.rank
  | .picked w _ _ => w.rank
  | .fpSaved w _ _ => w.rank
  | .switching w _ _ => w.rank
  | .calling w _ _ _ => w.rank
  | .resumed w => w.rank
  | .loaded w => w.rank
  | _ => 2

def Frame.code : Frame → Bool
  | .own _ => true
  | .inside _ => true
  | .spin _ => true
  | _ => false

/-- In the scheduler, behind the test of `preempt_cnt`. -/
def Frame.idle : Frame → Bool
  | .own _ => false
  | .inside _ => false
  | .spin _ => false
  | .disabling _ _ => false
  | .enable => false
  | .enabling _ => false
  | .enabled => false
  | .yield => false
  | _ => true

/-- `g` may lie under `f`. -/
def Frame.On (f g : Frame) : Prop := f.rank = 2 ∨ (f.rank = 1 ∧ g.code = true)

/-- What is true of a frame that is not on top: it has loaded no counter but 0. -/
def Frame.Under : Frame → Prop
  | .disabling v _ => v = 0
  | .enabling _ => False
  | .start => False
  | _ => True

/-- The context a frame is about to switch to. -/
def Frame.carries : Frame → Option (List Frame)
  | .calling _ _ _ frames => some frames
  | .stored _ _ frames => some frames
  | _ => none

inductive Layered : List Frame → Prop
  | nil : Layered []
  | cons {f : Frame} {rest : List Frame} : (∀ g ∈ rest, f.On g ∧ g.Under) → (∀ gs, f.carries = some gs → Layered gs) →
      (∀ gs, f.carries = some gs → ∀ g ∈ gs, g.Under) → Layered rest → Layered (f :: rest)

section Layers

variable {f g : Frame} {rest : List Frame}

theorem Layered.tail (h : Layered (f :: rest)) : Layered rest := by
  cases h with
  | cons _ _ _ h => exact h

theorem Layered.on (h : Layered (f :: rest)) : ∀ g ∈ rest, f.On g ∧ g.Under := by
  cases h with
  | cons h _ _ _ => exact h

theorem Layered.carried (h : Layered (f :: rest)) {gs : List Frame} (hc : f.carries = some gs) : Layered gs ∧ ∀ g ∈ gs, g.Under := by
  cases h with
  | cons _ h1 h2 _ => exact ⟨h1 gs hc, h2 gs hc⟩

/-- The top frame is replaced by one that covers as much. -/
theorem Layered.replace (h : Layered (f :: rest)) (hon : ∀ x, f.On x → g.On x) (hc : g.carries = none) : Layered (g :: rest) := by
  refine .cons (fun x hx => ⟨hon x (h.on x hx).1, (h.on x hx).2⟩) ?_ ?_ h.tail
  · intro gs hg
    rw [hc] at hg
    cases hg
  · intro gs hg
    rw [hc] at hg
    cases hg

/-- The same, by a frame that carries a context. -/
theorem Layered.carry (h : Layered (f :: rest)) (hon : ∀ x, f.On x → g.On x) {gs : List Frame} (hc : g.carries = some gs)
    (hgs : Layered gs ∧ ∀ x ∈ gs, x.Under) : Layered (g :: rest) := by
  refine .cons (fun x hx => ⟨hon x (h.on x hx).1, (h.on x hx).2⟩) ?_ ?_ h.tail
  · intro gs' hg
    cases hc.symm.trans hg
    exact hgs.1
  · intro gs' hg
    cases hc.symm.trans hg
    exact hgs.2

/-- A frame is put on the top frame. -/
theorem Layered.push (h : Layered (f :: rest)) (hon : g.On f) (hu : f.Under) (hall : ∀ x ∈ rest, g.On x) (hc : g.carries = none) :
    Layered (g :: f :: rest) := by
  refine .cons ?_ ?_ ?_ h
  · intro x hx
    rcases List.mem_cons.mp hx with rfl | hx
    · exact ⟨hon, hu⟩
    · exact ⟨hall x hx, (h.on x hx).2⟩
  · intro gs hg
    rw [hc] at hg
    cases hg
  · intro gs hg
    rw [hc] at hg
    cases hg

theorem on_two (hg : g.rank = 2) (x : Frame) : g.On x := Or.inl hg

/-- A frame of rank 0 lies at the bottom. -/
theorem Layered.bottom (h : Layered (f :: rest)) (hf : f.rank = 0) : rest = [] := by
  cases rest with
  | nil => rfl
  | cons x rest =>
    rcases (h.on x List.mem_cons_self).1 with h2 | h1
    · omega
    · omega

theorem idle_of_rank (hf : f.rank = 2) : f.idle = true := by
  cases f <;> first | rfl | simp [Frame.rank] at hf

end Layers

/-- What is true of the top frame. -/
def Frame.Top (k : Kernel) : Frame → Prop
  | .disabling v _ => v = k.cpu.preemptCnt
  | .enabling v => v = k.cpu.preemptCnt ∧ v ≠ 0
  | .start => k.cpu.preemptCnt = 0 ∧ k.cpu.currentThread = none
  | f => f.idle = true → k.cpu.preemptCnt = 0

def TopOk (k : Kernel) (fs : List Frame) : Prop := ∀ f ∈ fs.head?, f.Top k

section Top

variable {f g : Frame} {rest : List Frame} {k : Kernel}

theorem top_code (hf : f.code = true) : f.Top k := by
  cases f with
  | own _ => exact fun h => by cases h
  | inside _ => exact fun h => by cases h
  | spin _ => exact fun h => by cases h
  | _ => cases hf

theorem top_idle (hf : f.idle = true) (h : f.Top k) : k.cpu.preemptCnt = 0 := by
  cases f with
  | start => exact h.1
  | _ => first | exact h rfl | cases hf

/-- With the counter at 0 every frame that was covered may come to the top. -/
theorem top_zero (hu : f.Under) (hk : k.cpu.preemptCnt = 0) : f.Top k := by
  cases f with
  | disabling v c => exact hu.trans hk.symm
  | enabling v => exact hu.elim
  | start => exact hu.elim
  | _ => exact fun _ => hk

theorem topOk_cons (h : f.Top k) : TopOk k (f :: rest) := by
  intro x hx
  cases hx
  exact h

/-- The top frame is popped. -/
theorem topOk_pop (h : Layered (f :: rest)) (hf : f.idle = true → k.cpu.preemptCnt = 0) : TopOk k rest := by
  intro g hg
  have hmem : g ∈ rest := List.mem_of_mem_head? hg
  obtain ⟨hon, hu⟩ := h.on g hmem
  rcases hon with h2 | h1
  · exact top_zero hu (hf (idle_of_rank h2))
  · exact top_code h1.2

end Top

/-- The frames and the counter belong together. -/
structure Ordered (s : Machine) : Prop where
  layers : Layered s.frames
  saved : ∀ t, Layered (s.saved t).frames ∧ ∀ g ∈ (s.saved t).frames, g.Under
  top : TopOk s.k s.frames
  started : s.k.cpu.currentThread.isSome ∨ s.frames = [.start]

section Steps

variable {b : Build} {fuel : Nat} {s s' : Machine}

theorem Ordered.head {f : Frame} {rest : List Frame} (h : Ordered s) (hf : s.frames = f :: rest) :
    Layered (f :: rest) ∧ f.Top s.k := by
  have hl := h.layers
  have ht := h.top
  rw [hf] at hl ht
  exact ⟨hl, ht f rfl⟩

/-- Whoever is not at `sched_start` is a thread. -/
theorem Ordered.current {f : Frame} {rest : List Frame} (h : Ordered s) (hf : s.frames = f :: rest) (hs : f ≠ .start) :
    s.k.cpu.currentThread.isSome := by
  refine h.started.resolve_right ?_
  intro he
  rw [hf] at he
  exact hs (List.cons.inj he).1

/-- A step that stores no context. -/
theorem Ordered.keep (h : Ordered s) (hsaved : s'.saved = s.saved) (hl : Layered s'.frames)
    (ht : TopOk s'.k s'.frames) (hc : s'.k.cpu.currentThread.isSome ∨ s'.frames = [.start]) : Ordered s' := by
  refine ⟨hl, fun t => ?_, ht, hc⟩
  rw [hsaved]
  exact h.saved t

theorem on_caller {f : Frame} (hf : f.rank = 0) (g x : Frame) (h : f.On x) : g.On x := by
  rcases h with h | h <;> omega

theorem layered_quiet {k : Kernel} {f : Frame} {fs rest : List Frame} (h : Layered (f :: rest)) (hq : Quiet k.cpu.preemptCnt f fs) :
    Layered (fs ++ rest) ∧ TopOk k (fs ++ rest) := by
  have hcode : ∀ g : Frame, f.rank = 0 → g.carries = none → Layered (g :: rest) := fun g hf hc =>
    h.replace (fun x hx => on_caller hf g x hx) hc
  have hpush : ∀ g x : Frame, f.rank = 0 → x.code = true → x.Under → x.carries = none → g.rank = 1 → g.carries = none →
      Layered (g :: x :: rest) := by
    intro g x hf hx hu hxc hg hgc
    refine (hcode x hf hxc).push (Or.inr ⟨hg, hx⟩) hu ?_ hgc
    rw [h.bottom hf]
    intro y hy
    cases hy
  cases hq with
  | round m => exact ⟨hcode _ rfl rfl, topOk_cons rfl⟩
  | returned c r => exact ⟨hcode _ rfl rfl, topOk_cons (top_code rfl)⟩
  | call c => exact ⟨hcode _ rfl rfl, topOk_cons rfl⟩
  | disable => exact ⟨hcode _ rfl rfl, topOk_cons rfl⟩
  | enable => exact ⟨hpush .enable _ rfl rfl trivial rfl rfl rfl, topOk_cons fun hi => by cases hi⟩
  | yield => exact ⟨hpush .yield _ rfl rfl trivial rfl rfl rfl, topOk_cons fun hi => by cases hi⟩
  | enter p => exact ⟨hcode _ rfl rfl, topOk_cons (top_code rfl)⟩
  | enabling hv => exact ⟨h.replace (fun x hx => hx) rfl, topOk_cons ⟨rfl, hv⟩⟩
  | spins p q => exact ⟨hcode _ rfl rfl, topOk_cons (top_code rfl)⟩
  | locks p q => exact ⟨hcode _ rfl rfl, topOk_cons rfl⟩
  | misses p l => exact ⟨hpush .enable _ rfl rfl trivial rfl rfl rfl, topOk_cons fun hi => by cases hi⟩
  | unlocks p => exact ⟨hpush .enable _ rfl rfl trivial rfl rfl rfl, topOk_cons fun hi => by cases hi⟩
  | got p => exact ⟨hcode _ rfl rfl, topOk_cons (top_code rfl)⟩

/-- A step that pops the top frame of the scheduler. -/
theorem Ordered.pop {f : Frame} {rest : List Frame} (h : Ordered s) (hf : s.frames = f :: rest) (hs : f ≠ .start)
    (hsaved : s'.saved = s.saved) (hk : s'.k.cpu.currentThread = s.k.cpu.currentThread)
    (hn : s'.k.cpu.preemptCnt = s.k.cpu.preemptCnt) (hr : s'.frames = rest) : Ordered s' := by
  obtain ⟨hl, ht⟩ := h.head hf
  have hc := h.current hf hs
  refine h.keep hsaved ?_ ?_ (Or.inl (hk ▸ hc))
  · rw [hr]
    exact hl.tail
  · rw [hr]
    exact topOk_pop hl fun hi => hn.trans (top_idle hi ht)

/-- A step that replaces the top frame of the scheduler by another. -/
theorem Ordered.replace {f g : Frame} {rest : List Frame} (h : Ordered s) (hf : s.frames = f :: rest)
    (hsaved : s'.saved = s.saved) (hc : s'.k.cpu.currentThread.isSome) (hr : s'.frames = g :: rest)
    (hon : ∀ x, f.On x → g.On x) (hcar : g.carries = none) (ht : g.Top s'.k) : Ordered s' := by
  refine h.keep hsaved ?_ ?_ (Or.inl hc)
  · rw [hr]
    exact (h.head hf).1.replace hon hcar
  · rw [hr]
    exact topOk_cons ht

theorem callBody_isSome {c : Call} {k k' : Kernel} {r : Ret} (hc : k.cpu.currentThread.isSome) (h : callBody b fuel c k = .ok (k', r)) :
    k'.cpu.currentThread = k.cpu.currentThread ∧ k'.cpu.preemptCnt = k.cpu.preemptCnt := by
  obtain ⟨cur, hcur⟩ := Option.isSome_iff_exists.mp hc
  obtain ⟨e, -, hd⟩ := callBody_outcome hcur h
  exact ⟨hd.current, hd.preemptCnt⟩

theorem Ordered.go (h : Ordered s) (hs : GoCases b fuel s s') : Ordered s' := by
  cases hs with
  | quiet f fs rest word monitor masked hf hq _ he =>
    subst he
    have hne : f ≠ .start := by
      cases hq <;> exact fun e => by cases e
    obtain ⟨hl, ht⟩ := layered_quiet (h.head hf).1 hq
    exact h.keep rfl hl ht (Or.inl (h.current hf hne))
  | body c k r rest hf hp hb he =>
    subst he
    have hc := h.current hf (fun e => by cases e)
    obtain ⟨hcur, hcnt⟩ := callBody_isSome hc hb
    have hl := (h.head hf).1
    have hown : Layered (.own (r.cont c) :: rest) := hl.replace (fun x hx => on_caller rfl _ x hx) rfl
    refine h.keep rfl (hown.push (Or.inr ⟨rfl, rfl⟩) trivial ?_ rfl) (topOk_cons fun hi => by cases hi) (Or.inl (hcur ▸ hc))
    rw [hl.bottom rfl]
    intro y hy
    cases hy
  | disables v c rest hf he =>
    subst he
    refine h.replace hf rfl (h.current hf (fun e => by cases e)) rfl (fun x hx => on_caller rfl _ x hx) ?_ ?_
    · cases c <;> rfl
    · exact top_code (by cases c <;> rfl)
  | enables v rest hf he =>
    subst he
    exact h.replace hf rfl (h.current hf (fun e => by cases e)) rfl (fun x hx => hx) rfl fun hi => by cases hi
  | returns f rest hf hr he =>
    subst he
    refine h.pop hf ?_ rfl rfl rfl rfl
    cases hr <;> exact fun e => by cases e
  | calls f rest hf hcall hp _ he =>
    subst he
    have hne : f ≠ .start := by
      cases hcall <;> exact fun e => by cases e
    exact h.replace hf rfl (h.current hf hne) rfl (fun x _ => on_two rfl x) rfl fun _ => hp
  | searches f w rest hf hsearch hp he =>
    subst he
    have hne : f ≠ .start := by
      cases hsearch <;> exact fun e => by cases e
    refine h.replace hf rfl (h.current hf hne) rfl ?_ rfl fun _ => hp
    cases hsearch <;> exact fun x hx => hx
  | found w cur next rest hf _ he =>
    subst he
    exact h.replace hf rfl (h.current hf (fun e => by cases e)) rfl (fun x hx => hx) rfl (h.head hf).2
  | stays w cur next rest hf _ he =>
    subst he
    exact h.pop hf (fun e => by cases e) (by simp) (by simp) (leave_preemptCnt s w rest) (by simp)
  | saves w cur next rest hf _ he =>
    subst he
    refine h.replace hf (by simp) (by simpa using h.current hf (fun e => by cases e)) rfl (fun x hx => hx) rfl fun _ => ?_
    simpa using (h.head hf).2 rfl
  | becomes w cur next rest hf he =>
    subst he
    exact h.replace hf rfl rfl rfl (fun x hx => hx) rfl (h.head hf).2
  | reads w cur next rest hf he =>
    subst he
    obtain ⟨hl, ht⟩ := h.head hf
    refine h.keep rfl ?_ (topOk_cons ht) (Or.inl (h.current hf (fun e => by cases e)))
    exact hl.carry (fun x hx => hx) rfl (h.saved next)
  | stores w cur stack frames rest hf he =>
    subst he
    obtain ⟨hl, ht⟩ := h.head hf
    refine ⟨hl.carry (fun x _ => on_two rfl x) rfl (hl.carried rfl), fun t => ?_, topOk_cons ht,
      Or.inl (h.current hf (fun e => by cases e))⟩
    by_cases hc : t = cur
    · subst hc
      simp only [Function.update_self]
      refine ⟨hl.replace (fun x hx => hx) rfl, fun g hg => ?_⟩
      rcases List.mem_cons.mp hg with rfl | hg
      · trivial
      · exact (hl.on g hg).2
    · simp only [Function.update_of_ne hc]
      exact h.saved t
  | swaps w stack frames rest hf he =>
    subst he
    obtain ⟨hl, ht⟩ := h.head hf
    obtain ⟨hgs, hu⟩ := hl.carried rfl
    refine h.keep rfl hgs (fun g hg => ?_) (Or.inl (h.current hf (fun e => by cases e)))
    exact top_zero (hu g (List.mem_of_mem_head? hg)) (ht rfl)
  | loads w rest hf he =>
    subst he
    refine h.replace hf (by simp) (by simpa using h.current hf (fun e => by cases e)) rfl (fun x hx => hx) rfl fun _ => ?_
    simpa using (h.head hf).2 rfl
  | leaves w rest hf he =>
    subst he
    exact h.pop hf (fun e => by cases e) (by simp) (by simp) (leave_preemptCnt s w rest) (by simp)
  | starts k cur rest hf hstart hc he =>
    subst he
    obtain ⟨n, -, honly, -⟩ := schedStart_cases hstart
    refine h.replace hf rfl (by rw [hc]; rfl) rfl (fun x _ => on_two rfl x) rfl fun _ => ?_
    exact honly.preemptCnt.trans (h.head hf).2.1
  | startReads cur rest hf he =>
    subst he
    obtain ⟨hl, ht⟩ := h.head hf
    refine h.keep rfl ?_ (topOk_cons ht) (Or.inl (h.current hf (fun e => by cases e)))
    exact hl.carry (fun x _ => on_two rfl x) rfl (h.saved cur)

/-- What may be on top may be covered, once the counter is 0. -/
theorem under_of_top {f : Frame} {k : Kernel} (h : f.Top k) (hk : k.cpu.preemptCnt = 0) (hc : k.cpu.currentThread.isSome) : f.Under := by
  cases f with
  | disabling v c => exact (h : v = _).trans hk
  | enabling v => exact absurd (h.1.trans hk) h.2
  | start =>
    rw [h.2] at hc
    cases hc
  | _ => trivial

/-- An interrupt puts `preempt_return` on whatever it finds. -/
theorem layered_back {fs : List Frame} {k : Kernel} (h : Layered fs) (ht : TopOk k fs) (hk : k.cpu.preemptCnt = 0)
    (hc : k.cpu.currentThread.isSome) (resumes : Bool) : Layered (.preemptReturn :: Machine.back resumes fs) := by
  have hcover : ∀ gs : List Frame, Layered gs → (∀ g ∈ gs, g.Under) → Layered (.preemptReturn :: gs) := fun gs hl hu =>
    .cons (fun g hg => ⟨on_two rfl g, hu g hg⟩) (fun _ h => by cases h) (fun _ h => by cases h) hl
  cases fs with
  | nil => exact hcover _ .nil (fun _ hg => by cases hg)
  | cons f rest =>
    have hu : f.Under := under_of_top (ht f rfl) hk hc
    have hall : ∀ g : Frame, g.Under → ∀ x ∈ g :: rest, x.Under := by
      intro g hg x hx
      rcases List.mem_cons.mp hx with rfl | hx
      · exact hg
      · exact (h.on x hx).2
    unfold Machine.back
    split
    · rename_i w cur torn rest' he
      cases he
      exact hcover _ (h.replace (fun x hx => hx) rfl) (hall _ trivial)
    · rename_i v c rest' he
      cases he
      split
      · exact hcover _ h (hall _ hu)
      · refine hcover _ (h.replace (fun x hx => on_caller rfl _ x hx) ?_) (hall _ ?_)
        · cases c <;> rfl
        · cases c <;> trivial
    · exact hcover _ h (hall f hu)

theorem Ordered.step {a : MAct} (h : Ordered s) (hs : s.step b fuel a = .ok s') : Ordered s' := by
  cases step_cases hs with
  | go _ hgo => exact h.go hgo
  | irq intid guardOk resumes redirect takes k _ _ hi he =>
    subst he
    obtain ⟨honly, hcur, -, hred⟩ := irqHandlerEl1_only hi
    have htop : TopOk k s.frames := by
      intro f hf
      have ht := h.top f hf
      have hcnt := honly.preemptCnt
      cases f <;> simpa only [Frame.Top, hcnt, hcur] using ht
    cases redirect with
    | false => exact h.keep rfl h.layers htop (hcur ▸ h.started)
    | true =>
      obtain ⟨hc, hp, -⟩ := hred rfl
      exact h.keep rfl (layered_back h.layers htop hp hc resumes) (topOk_cons fun _ => hp) (Or.inl hc)
  | found w cur next rest _ hf he =>
    subst he
    exact h.replace hf rfl (h.current hf (fun e => by cases e)) rfl (fun x hx => hx) rfl (h.head hf).2
  | meddled c k r fs rest _ hf _ hfs he =>
    subst he
    have hl := (h.head hf).1
    rcases hfs with rfl | ⟨r, rfl⟩
    · exact h.keep rfl hl (topOk_cons (top_code rfl)) (Or.inl (h.current hf (fun e => by cases e)))
    · have hown : Layered (.own (r.cont c) :: rest) := hl.replace (fun x hx => on_caller rfl _ x hx) rfl
      refine h.keep rfl (hown.push (Or.inr ⟨rfl, rfl⟩) trivial ?_ rfl) (topOk_cons fun hi => by cases hi)
        (Or.inl (h.current hf (fun e => by cases e)))
      rw [hl.bottom rfl]
      intro y hy
      cases hy
  | init m k r rest _ hf hb he =>
    subst he
    have hc := h.current hf (fun e => by cases e)
    exact h.replace hf rfl ((callBody_isSome hc hb).1 ▸ hc) rfl (fun x hx => hx) rfl (top_code rfl)
  | acts fs rest hf hq he =>
    subst he
    obtain ⟨hl, ht⟩ := layered_quiet (h.head hf).1 hq.quiet
    exact h.keep rfl hl ht (Or.inl (h.current hf (fun e => by cases e)))
  | compute fp rest _ hf he =>
    subst he
    exact h.keep rfl h.layers h.top h.started

end Steps

theorem ordered_boot {b : Build} {fp : FpRegs} {ts : List (ThreadId × Int)} {counts : SemId → Int} {s : Machine}
    (h : Machine.boot b fp ts counts = .ok s) : Ordered s := by
  obtain ⟨k, hk, h⟩ := bind_ok.mp h
  cases h
  have hcpu := spawns_cpu hk
  have hsingle : ∀ f : Frame, f.carries = none → Layered [f] := fun f hf =>
    .cons (fun g hg => by cases hg) (fun gs hg => by rw [hf] at hg; cases hg) (fun gs hg => by rw [hf] at hg; cases hg) .nil
  refine ⟨hsingle _ rfl, fun t => ⟨hsingle _ rfl, ?_⟩, topOk_cons ?_, Or.inr rfl⟩
  · intro g hg
    rw [List.mem_singleton.mp hg]
    trivial
  · show k.cpu.preemptCnt = 0 ∧ k.cpu.currentThread = none
    rw [hcpu]
    exact ⟨rfl, rfl⟩

theorem ordered_run {b : Build} {ok : Nat → Machine → MAct → Prop} {ts : List (ThreadId × Int)} {counts : SemId → Int} {s : Machine}
    (h : MRun b ok ts counts s) : Ordered s := by
  induction h with
  | boot fp _ hb => exact ordered_boot hb
  | step a fuel _ _ hs ih => exact ih.step hs

end Microkernel

/-
  Microkernel.Preempt.Steps — what a step of the machine can do, said once.

  `go_cases` lists the statements: those that only move a thread on in its own code and in
  the lock functions (`Quiet`), the two stores of `preempt_cnt`, the body of a call, and
  the scheduler function by function. `step_cases` adds the interrupt and the thread's own
  actions. Every invariant of the machine is proved by these cases.
-/

import Microkernel.Preempt.Machine

namespace Microkernel

/-! ## Statements -/

/-- The functions that return without calling the scheduler. -/
inductive Returns (k : Kernel) : Frame → Prop
  | enable : k.cpu.preemptCnt = 0 → Returns k .enable
  | enabled : ¬ (k.cpu.preemptCnt = 0 ∧ k.cpu.needResched ≠ 0 ∧ k.cpu.irqDepth = 0) → Returns k .enabled
  | preemptReturn : ¬ (k.cpu.preemptCnt = 0 ∧ k.cpu.needResched ≠ 0) → Returns k .preemptReturn
  | tail : k.cpu.preemptCnt ≠ 0 → Returns k .tail
  | yield : k.cpu.preemptCnt ≠ 0 ∨ k.cpu.currentThread = none → Returns k .yield

/-- Those that call `sched_resched_from_irq_tail`. -/
inductive Calls (k : Kernel) : Frame → Prop
  | enabled : k.cpu.irqDepth = 0 → Calls k .enabled
  | preemptReturn : Calls k .preemptReturn

/-- The search begins. -/
inductive Searches : Frame → Switcher → Prop
  | tail : Searches .tail .tail
  | yield : Searches .yield .yield

/-- Statements of the lock functions and of a thread's own code: with the counter at `v`,
    the frame is replaced by others, and the kernel state stays. -/
inductive Quiet (v : Nat) : Frame → List Frame → Prop
  | round (m : MutexId) : Quiet v (.own (.locking m)) [.disabling v (.call (.mutexLock m))]
  | returned (c : Call) (r : Int) : Quiet v (.own (.returning c r)) [.own .user]
  | call (c : Call) : Quiet v (.own .user) [.disabling v (.call c)]
  | disable : Quiet v (.own .user) [.disabling v .user]
  | enable : Quiet v (.own .user) [.enable, .own .user]
  | yield : Quiet v (.own .user) [.yield, .own .user]
  | enter (p : SpinPc) : Quiet v (.own .user) [.spin p]
  | enabling : v ≠ 0 → Quiet v .enable [.enabling v]
  | spins (p q : SpinPc) : Quiet v (.spin p) [.spin q]
  | locks (p q : SpinPc) : Quiet v (.spin p) [.disabling v (.spin q)]
  | misses (p : SpinPc) (l : LockId) : Quiet v (.spin p) [.enable, .spin (.wait .lock l)]
  | unlocks (p : SpinPc) : Quiet v (.spin p) [.enable, .own .user]
  | got (p : SpinPc) : Quiet v (.spin p) [.own .user]

/-- A thread's own actions. -/
inductive Acts (v : Nat) : MAct → List Frame → Prop
  | call (c : Call) : Acts v (.call c) [.disabling v (.call c)]
  | disable : Acts v .disable [.disabling v .user]
  | enable : Acts v .enable [.enable, .own .user]
  | yield : Acts v .yield [.yield, .own .user]
  | spin (p : SpinPc) : p.entry = true → Acts v (.spin p) [.spin p]

theorem Acts.quiet {v : Nat} {a : MAct} {fs : List Frame} (h : Acts v a fs) : Quiet v (.own .user) fs := by
  cases h with
  | call c => exact .call c
  | disable => exact .disable
  | enable => exact .enable
  | yield => exact .yield
  | spin p _ => exact .enter p

inductive GoCases (b : Build) (fuel : Nat) (s s' : Machine) : Prop
  | quiet (f : Frame) (fs rest : List Frame) (word : LockId → Nat) (monitor : Option LockId) (masked : Bool) : s.frames = f :: rest →
      Quiet s.k.cpu.preemptCnt f fs → ((∃ p, f = .spin p) ∨ (word = s.word ∧ monitor = s.monitor ∧ masked = s.masked)) →
      s' = { s with word := word, monitor := monitor, masked := masked, frames := fs ++ rest } → GoCases b fuel s s'
  | body (c : Call) (k : Kernel) (r : Ret) (rest : List Frame) : s.frames = .inside c :: rest → s.k.cpu.preemptCnt ≠ 0 →
      callBody b fuel c s.k = .ok (k, r) → s' = { s with k := k, frames := .enable :: .own (r.cont c) :: rest } →
      GoCases b fuel s s'
  | disables (v : Nat) (c : Caller) (rest : List Frame) : s.frames = .disabling v c :: rest →
      s' = { s with k := s.k.setPreemptCnt ((v + 1) % UInt32.size), frames := c.frame :: rest } → GoCases b fuel s s'
  | enables (v : Nat) (rest : List Frame) : s.frames = .enabling v :: rest →
      s' = { s with k := s.k.setPreemptCnt (v - 1), frames := .enabled :: rest } → GoCases b fuel s s'
  | returns (f : Frame) (rest : List Frame) : s.frames = f :: rest → Returns s.k f → s' = { s with frames := rest } →
      GoCases b fuel s s'
  | calls (f : Frame) (rest : List Frame) : s.frames = f :: rest → Calls s.k f → s.k.cpu.preemptCnt = 0 →
      s.k.cpu.needResched ≠ 0 → s' = { s with frames := .tail :: rest } → GoCases b fuel s s'
  | searches (f : Frame) (w : Switcher) (rest : List Frame) : s.frames = f :: rest → Searches f w → s.k.cpu.preemptCnt = 0 →
      s' = { s with frames := .pick w s.k.cpu.currentThread false :: rest } → GoCases b fuel s s'
  | found (w : Switcher) (cur next : Option ThreadId) (rest : List Frame) : s.frames = .pick w cur false :: rest →
      candidate b fuel s.k w cur = .ok next → s' = { s with frames := .picked w cur next :: rest } → GoCases b fuel s s'
  | stays (w : Switcher) (cur next : Option ThreadId) (rest : List Frame) : s.frames = .picked w cur next :: rest →
      (cur = none ∨ next = none ∨ next = cur) → s' = s.leave w rest → GoCases b fuel s s'
  | saves (w : Switcher) (cur next : ThreadId) (rest : List Frame) : s.frames = .picked w (some cur) (some next) :: rest →
      next ≠ cur → s' = { s.fpsimdSave with frames := .fpSaved w cur next :: rest } → GoCases b fuel s s'
  | becomes (w : Switcher) (cur next : ThreadId) (rest : List Frame) : s.frames = .fpSaved w cur next :: rest →
      s' = { s with k := doSwitch next s.k, frames := .switching w cur next :: rest } → GoCases b fuel s s'
  | reads (w : Switcher) (cur next : ThreadId) (rest : List Frame) : s.frames = .switching w cur next :: rest →
      s' = { s with frames := .calling w cur (s.saved next).stack (s.saved next).frames :: rest } → GoCases b fuel s s'
  | stores (w : Switcher) (cur : ThreadId) (stack : Stack) (frames rest : List Frame) :
      s.frames = .calling w cur stack frames :: rest →
      s' = { s with saved := Function.update s.saved cur ⟨s.stack, .resumed w :: rest⟩, frames := .stored (some w) stack frames :: rest } →
      GoCases b fuel s s'
  | swaps (w : Option Switcher) (stack : Stack) (frames rest : List Frame) : s.frames = .stored w stack frames :: rest →
      s' = { s with stack := stack, frames := frames } → GoCases b fuel s s'
  | loads (w : Switcher) (rest : List Frame) : s.frames = .resumed w :: rest →
      s' = { s.fpsimdLoad with frames := .loaded w :: rest } → GoCases b fuel s s'
  | leaves (w : Switcher) (rest : List Frame) : s.frames = .loaded w :: rest → s' = s.leave w rest → GoCases b fuel s s'
  | starts (k : Kernel) (cur : ThreadId) (rest : List Frame) : s.frames = .start :: rest → schedStart b fuel s.k = .ok k →
      k.cpu.currentThread = some cur → s' = { s with k := k, frames := .starting cur :: rest } → GoCases b fuel s s'
  | startReads (cur : ThreadId) (rest : List Frame) : s.frames = .starting cur :: rest →
      s' = { s with frames := .stored none (s.saved cur).stack (s.saved cur).frames :: rest } → GoCases b fuel s s'

theorem afterPick_cases (s : Machine) (w : Switcher) (cur next : Option ThreadId) (rest : List Frame) :
    ((cur = none ∨ next = none ∨ next = cur) ∧ s.afterPick w cur next rest = s.leave w rest) ∨
      ∃ c n, cur = some c ∧ next = some n ∧ n ≠ c ∧ s.afterPick w cur next rest = { s.fpsimdSave with frames := .fpSaved w c n :: rest } := by
  unfold Machine.afterPick
  split
  · rename_i c n
    split
    · rename_i hn
      exact Or.inl ⟨Or.inr (Or.inr (by rw [hn])), rfl⟩
    · rename_i hn
      exact Or.inr ⟨c, n, rfl, rfl, hn, rfl⟩
  · rename_i hno
    refine Or.inl ⟨?_, rfl⟩
    cases cur with
    | none => exact Or.inl rfl
    | some c =>
      cases next with
      | none => exact Or.inr (Or.inl rfl)
      | some n => exact absurd rfl (hno c n rfl)

/-- A statement of a lock function replaces its frame, and changes no more than the lock. -/
theorem spin_quiet (s : Machine) (p : SpinPc) (rest : List Frame) :
    ∃ fs word monitor masked, Quiet s.k.cpu.preemptCnt (.spin p) fs ∧
      s.spin p rest = { s with word := word, monitor := monitor, masked := masked, frames := fs ++ rest } := by
  cases p with
  | want how l => exact ⟨_, _, _, _, .locks _ (.load how l), rfl⟩
  | save l => exact ⟨_, _, _, _, .spins _ (.load (.irqsave s.masked) l), rfl⟩
  | load how l =>
    by_cases hw : s.word l = 0
    · rw [Machine.spin, if_pos hw]
      exact ⟨_, _, _, _, .spins _ (.store how l), rfl⟩
    · rw [Machine.spin, if_neg hw]
      exact ⟨_, _, _, _, .spins _ (.failed how l), rfl⟩
  | store how l =>
    by_cases hm : s.monitor = some l
    · rw [Machine.spin, if_pos hm]
      cases how with
      | lock => exact ⟨_, _, _, _, .got _, rfl⟩
      | trylock => exact ⟨_, _, _, _, .got _, rfl⟩
      | irqsave flags => exact ⟨_, _, _, _, .spins _ .taken, rfl⟩
    · rw [Machine.spin, if_neg hm]
      exact ⟨_, _, _, _, .spins _ (.failed how l), rfl⟩
  | failed how l =>
    cases how with
    | lock => exact ⟨_, _, _, _, .misses _ l, rfl⟩
    | trylock => exact ⟨_, _, _, _, .unlocks _, rfl⟩
    | irqsave flags => exact ⟨_, _, _, _, .spins _ (.wait (.irqsave flags) l), rfl⟩
  | wait how l => exact ⟨_, _, _, _, .spins _ _, rfl⟩
  | taken => exact ⟨_, _, _, _, .locks _ .locked, rfl⟩
  | locked => exact ⟨_, _, _, _, .got _, rfl⟩
  | unlock l => exact ⟨_, _, _, _, .unlocks _, rfl⟩
  | unlockIrq l flags => exact ⟨_, _, _, _, .spins _ (.restore flags), rfl⟩
  | restore flags => exact ⟨_, _, _, _, .unlocks _, rfl⟩

theorem go_cases {b : Build} {fuel : Nat} {s s' : Machine} (h : s.go b fuel = .ok s') : GoCases b fuel s s' := by
  unfold Machine.go at h
  split at h
  · cases h
  · cases h
  · rename_i m rest hf
    cases h
    exact .quiet _ _ rest _ _ _ hf (.round m) (Or.inr ⟨rfl, rfl, rfl⟩) rfl
  · rename_i c r rest hf
    cases h
    exact .quiet _ _ rest _ _ _ hf (.returned c r) (Or.inr ⟨rfl, rfl, rfl⟩) rfl
  · rename_i c rest hf
    split at h
    · cases h
    · rename_i hp
      obtain ⟨⟨k, r⟩, h1, h⟩ := bind_ok.mp h
      cases h
      exact .body c k r rest hf hp h1 rfl
  · rename_i p rest hf
    obtain ⟨fs, word, monitor, masked, hq, he⟩ := spin_quiet s p rest
    cases h
    exact .quiet _ fs rest word monitor masked hf hq (Or.inl ⟨p, rfl⟩) he
  · rename_i v c rest hf
    cases h
    exact .disables v c rest hf rfl
  · rename_i rest hf
    split at h
    · rename_i hc
      cases h
      exact .returns _ rest hf (.enable hc) rfl
    · rename_i hc
      cases h
      exact .quiet _ _ rest _ _ _ hf (.enabling hc) (Or.inr ⟨rfl, rfl, rfl⟩) rfl
  · rename_i v rest hf
    cases h
    exact .enables v rest hf rfl
  · rename_i rest hf
    split at h
    · rename_i hc
      cases h
      exact .calls _ rest hf (.enabled hc.2.2) hc.1 hc.2.1 rfl
    · rename_i hc
      cases h
      exact .returns _ rest hf (.enabled hc) rfl
  · rename_i rest hf
    split at h
    · rename_i hc
      cases h
      exact .calls _ rest hf .preemptReturn hc.1 hc.2 rfl
    · rename_i hc
      cases h
      exact .returns _ rest hf (.preemptReturn hc) rfl
  · rename_i rest hf
    split at h
    · rename_i hc
      cases h
      exact .returns _ rest hf (.tail hc) rfl
    · rename_i hc
      cases h
      exact .searches _ _ rest hf .tail (not_not.mp hc) rfl
  · rename_i rest hf
    split at h
    · rename_i hc
      cases h
      exact .returns _ rest hf (.yield hc) rfl
    · rename_i hc
      cases h
      rw [not_or] at hc
      exact .searches _ _ rest hf .yield (not_not.mp hc.1) rfl
  · rename_i w cur torn rest hf
    cases torn with
    | true => cases h
    | false =>
      obtain ⟨next, h1, h⟩ := bind_ok.mp h
      cases h
      exact .found w cur next rest hf h1 rfl
  · rename_i w cur next rest hf
    cases h
    rcases afterPick_cases s w cur next rest with ⟨hst, he⟩ | ⟨c, n, rfl, rfl, hne, he⟩
    · exact .stays w cur next rest hf hst he
    · exact .saves w c n rest hf hne he
  · rename_i w cur next rest hf
    cases h
    exact .becomes w cur next rest hf rfl
  · rename_i w cur next rest hf
    cases h
    exact .reads w cur next rest hf rfl
  · rename_i w cur stack frames rest hf
    cases h
    exact .stores w cur stack frames rest hf rfl
  · rename_i w stack frames rest hf
    cases h
    exact .swaps w stack frames rest hf rfl
  · rename_i w rest hf
    cases h
    exact .loads w rest hf rfl
  · rename_i w rest hf
    cases h
    exact .leaves w rest hf rfl
  · rename_i rest hf
    obtain ⟨k, h1, h⟩ := bind_ok.mp h
    split at h
    · cases h
    · rename_i c hc
      cases h
      exact .starts k c rest hf h1 hc rfl
  · rename_i cur rest hf
    cases h
    exact .startReads cur rest hf rfl

/-! ## Steps -/

/-- A step of any kind. -/
inductive StepKind (b : Build) (fuel : Nat) (s s' : Machine) (a : MAct) : Prop
  | go : a = .go → GoCases b fuel s s' → StepKind b fuel s s' a
  | irq (intid : Nat) (guardOk resumes redirect : Bool) (takes : List LockId) (k : Kernel) : a = .irq intid guardOk resumes takes →
      s.masked = false → irqHandlerEl1 b fuel guardOk intid s.k = .ok (k, redirect) →
      s' = { s with
        k := k
        monitor := none
        frames := if redirect then .preemptReturn :: Machine.back resumes s.frames else s.frames } →
      StepKind b fuel s s' a
  | found (w : Switcher) (cur next : Option ThreadId) (rest : List Frame) : a = .found next → s.frames = .pick w cur true :: rest →
      s' = { s with frames := .picked w cur next :: rest } → StepKind b fuel s s' a
  | meddled (c : Call) (k : Kernel) (r : Option Ret) (fs rest : List Frame) : a = .meddled k r → s.frames = .inside c :: rest →
      s.k.cpu.preemptCnt = 0 → (fs = [.inside c] ∨ ∃ r : Ret, fs = [.enable, .own (r.cont c)]) →
      s' = { s with k := { k with cpu := { s.k.cpu with needResched := k.cpu.needResched } }, frames := fs ++ rest } →
      StepKind b fuel s s' a
  | init (m : MutexId) (k : Kernel) (r : Ret) (rest : List Frame) : a = .call (.mutexInit m) → s.frames = .own .user :: rest →
      callBody b fuel (.mutexInit m) s.k = .ok (k, r) → s' = { s with k := k, frames := .own (r.cont (.mutexInit m)) :: rest } →
      StepKind b fuel s s' a
  | acts (fs rest : List Frame) : s.frames = .own .user :: rest → Acts s.k.cpu.preemptCnt a fs →
      s' = { s with frames := fs ++ rest } → StepKind b fuel s s' a
  | compute (fp : FpRegs) (rest : List Frame) : a = .compute fp → s.frames = .own .user :: rest → s' = { s with fp := fp } →
      StepKind b fuel s s' a

theorem step_cases {b : Build} {fuel : Nat} {s s' : Machine} {a : MAct} (h : s.step b fuel a = .ok s') : StepKind b fuel s s' a := by
  unfold Machine.step at h
  split at h
  · exact .go rfl (go_cases h)
  · rename_i _ intid guardOk resumes takes
    unfold Machine.irq at h
    split at h
    · cases h
    · rename_i hm
      split at h
      · cases h
      · obtain ⟨⟨k, r⟩, h1, h⟩ := bind_ok.mp h
        cases h
        exact .irq intid guardOk resumes r takes k rfl (by simpa using hm) h1 rfl
  · rename_i next w cur rest hf
    cases h
    exact .found w cur next rest rfl hf rfl
  · rename_i k r c rest hf
    split at h
    · rename_i hp
      cases h
      cases r with
      | none => exact .meddled c k _ _ rest rfl hf hp (Or.inl rfl) rfl
      | some r => exact .meddled c k _ _ rest rfl hf hp (Or.inr ⟨r, rfl⟩) rfl
    · cases h
  · rename_i c rest hf
    unfold Machine.enter at h
    split at h
    · rename_i m
      obtain ⟨⟨k, r⟩, h1, h⟩ := bind_ok.mp h
      cases h
      exact .init m k r rest rfl hf h1 rfl
    · cases h
      exact .acts _ rest hf (.call _) rfl
  · rename_i rest hf
    cases h
    exact .acts _ rest hf .disable rfl
  · rename_i rest hf
    cases h
    exact .acts _ rest hf .enable rfl
  · rename_i rest hf
    cases h
    exact .acts _ rest hf .yield rfl
  · rename_i p rest hf
    split at h
    · rename_i hp
      cases h
      exact .acts _ rest hf (.spin p hp) rfl
    · cases h
  · rename_i fp rest hf
    cases h
    exact .compute fp rest rfl hf rfl
  · cases h

theorem redirects_irq {b : Build} {fuel intid : Nat} {guardOk resumes redirect : Bool} {takes : List LockId} {s : Machine} {k : Kernel}
    (h : irqHandlerEl1 b fuel guardOk intid s.k = .ok (k, redirect)) :
    redirects b fuel s (.irq intid guardOk resumes takes) = redirect := by
  simp only [redirects, h]

/-! ## Field lemmas -/

@[simp] theorem fpsimdSave_k (s : Machine) : s.fpsimdSave.k = s.k := by
  unfold Machine.fpsimdSave
  split <;> rfl

@[simp] theorem fpsimdSave_stack (s : Machine) : s.fpsimdSave.stack = s.stack := by
  unfold Machine.fpsimdSave
  split <;> rfl

@[simp] theorem fpsimdSave_saved (s : Machine) : s.fpsimdSave.saved = s.saved := by
  unfold Machine.fpsimdSave
  split <;> rfl

theorem fpsimdSave_lock (s : Machine) :
    s.fpsimdSave.word = s.word ∧ s.fpsimdSave.monitor = s.monitor ∧ s.fpsimdSave.masked = s.masked := by
  unfold Machine.fpsimdSave
  split <;> exact ⟨rfl, rfl, rfl⟩

@[simp] theorem fpsimdLoad_k (s : Machine) : s.fpsimdLoad.k = s.k := by
  unfold Machine.fpsimdLoad
  split <;> rfl

@[simp] theorem fpsimdLoad_stack (s : Machine) : s.fpsimdLoad.stack = s.stack := by
  unfold Machine.fpsimdLoad
  split <;> rfl

@[simp] theorem fpsimdLoad_saved (s : Machine) : s.fpsimdLoad.saved = s.saved := by
  unfold Machine.fpsimdLoad
  split <;> rfl

theorem fpsimdLoad_lock (s : Machine) :
    s.fpsimdLoad.word = s.word ∧ s.fpsimdLoad.monitor = s.monitor ∧ s.fpsimdLoad.masked = s.masked := by
  unfold Machine.fpsimdLoad
  split <;> exact ⟨rfl, rfl, rfl⟩

@[simp] theorem leave_stack (s : Machine) (w : Switcher) (rest : List Frame) : (s.leave w rest).stack = s.stack := by
  cases w <;> rfl

@[simp] theorem leave_saved (s : Machine) (w : Switcher) (rest : List Frame) : (s.leave w rest).saved = s.saved := by
  cases w <;> rfl

@[simp] theorem leave_frames (s : Machine) (w : Switcher) (rest : List Frame) : (s.leave w rest).frames = rest := by
  cases w <;> rfl

@[simp] theorem leave_current (s : Machine) (w : Switcher) (rest : List Frame) :
    (s.leave w rest).k.cpu.currentThread = s.k.cpu.currentThread := by
  cases w <;> rfl

theorem leave_lock (s : Machine) (w : Switcher) (rest : List Frame) :
    (s.leave w rest).word = s.word ∧ (s.leave w rest).monitor = s.monitor ∧ (s.leave w rest).masked = s.masked := by
  cases w <;> exact ⟨rfl, rfl, rfl⟩

theorem leave_preemptCnt (s : Machine) (w : Switcher) (rest : List Frame) :
    (s.leave w rest).k.cpu.preemptCnt = s.k.cpu.preemptCnt := by
  cases w <;> rfl

end Microkernel

/-
  Microkernel.Preempt.Locks — the spinlocks of src/spinlock.cc on one CPU.

  A run records, for the thread of every stack, the locks it holds (newest first, with the
  flags `spin_lock_irqsave` has saved) and how often its own code has disabled preemption.
  The calls are disciplined: a lock is released by its holder and by the function that
  belongs to the one that took it, the flags go back in the order of a stack, and the
  thread's own `preempt_enable` undoes its own `preempt_disable`. `I` are locks that are
  only taken with `spin_lock_irqsave`.

  The counter is the sum of what the running thread has to undo: its own calls, the locks
  it holds, and what the function it is in still owes (`Frame.weight`). So it is 0 only
  for a thread that holds nothing, and only such a thread is switched out.

  Proved, if `preempt_disable` counts: a lock's word is 1 exactly while the running thread
  holds it, nobody else holds any, and no lock of `I` is held with IRQs unmasked
  (`spin_exclusion`). If it does not count, a thread is preempted with a lock held
  (`spin_holder_preempted`).
-/

import Microkernel.Preempt.Depth

namespace Microkernel

/-! ## What a thread holds -/

/-- A lock, and the flags `spin_lock_irqsave` has saved for it. -/
structure Hold where
  lock : LockId
  saved : Option Bool
  deriving DecidableEq, Repr

def Hold.irq (h : Hold) : Bool := h.saved.isSome

def hasIrq (hs : List Hold) : Bool := hs.any Hold.irq

/-- Every saved flag says whether IRQs were masked by a lock held before. -/
def FlagsOk : List Hold → Prop
  | [] => True
  | h :: older => (∀ f, h.saved = some f → f = hasIrq older) ∧ FlagsOk older

section Holds

variable {hs : List Hold} {l : LockId} {f : Bool}

@[simp] theorem hasIrq_nil : hasIrq [] = false := rfl

@[simp] theorem hasIrq_cons (h : Hold) (hs : List Hold) : hasIrq (h :: hs) = (h.irq || hasIrq hs) := rfl

theorem hasIrq_of_mem {h : Hold} (hm : h ∈ hs) (hi : h.irq = true) : hasIrq hs = true := List.any_eq_true.mpr ⟨h, hm, hi⟩

/-- Releasing a lock that was taken without flags leaves the mask alone. -/
theorem hasIrq_erase_plain : hasIrq (hs.erase ⟨l, none⟩) = hasIrq hs := by
  induction hs with
  | nil => rfl
  | cons h hs ih =>
    by_cases he : h = ⟨l, none⟩
    · subst he
      simp [Hold.irq]
    · rw [List.erase_cons_tail (by simpa using he)]
      simp [ih]

theorem FlagsOk.erase_plain (h : FlagsOk hs) : FlagsOk (hs.erase ⟨l, none⟩) := by
  induction hs with
  | nil => trivial
  | cons x hs ih =>
    by_cases he : x = ⟨l, none⟩
    · subst he
      simpa using h.2
    · rw [List.erase_cons_tail (by simpa using he)]
      refine ⟨fun f hf => ?_, ih h.2⟩
      rw [hasIrq_erase_plain]
      exact h.1 f hf

/-- The newest lock that was taken with flags gives back the mask from before. -/
theorem FlagsOk.erase_irq (h : FlagsOk hs) (hf : hs.find? Hold.irq = some ⟨l, some f⟩) :
    FlagsOk (hs.erase ⟨l, some f⟩) ∧ hasIrq (hs.erase ⟨l, some f⟩) = f := by
  induction hs with
  | nil => cases hf
  | cons x hs ih =>
    cases hx : x.irq with
    | true =>
      rw [List.find?_cons_of_pos hx] at hf
      cases hf
      rw [List.erase_cons_head]
      exact ⟨h.2, (h.1 f rfl).symm⟩
    | false =>
      have hne : x ≠ ⟨l, some f⟩ := by
        intro he
        rw [he] at hx
        cases hx
      rw [List.find?_cons_of_neg (by simp [hx])] at hf
      obtain ⟨h1, h2⟩ := ih h.2 hf
      rw [List.erase_cons_tail (by simpa using hne)]
      refine ⟨⟨fun g hg => ?_, h1⟩, by simp [hx, h2]⟩
      rw [Hold.irq, hg] at hx
      cases hx

end Holds

/-- The record of a run. -/
structure Sections where
  held : Stack → List Hold
  own : Stack → Nat

namespace Sections

def none : Sections := ⟨fun _ => [], fun _ => 0⟩

def setHeld (g : Sections) (st : Stack) (hs : List Hold) : Sections := { g with held := Function.update g.held st hs }

def setOwn (g : Sections) (st : Stack) (n : Nat) : Sections := { g with own := Function.update g.own st n }

end Sections

def Taking.saved : Taking → Option Bool
  | .irqsave flags => some flags
  | _ => none

/-- What a step does to the record of the thread that makes it. -/
def Sections.after (g : Sections) (s : Machine) (a : MAct) : Sections :=
  match a, s.frames with
  | .go, .spin (.store how l) :: _ => if s.monitor = some l then g.setHeld s.stack (⟨l, how.saved⟩ :: g.held s.stack) else g
  | .go, .spin (.unlock l) :: _ => g.setHeld s.stack ((g.held s.stack).erase ⟨l, Option.none⟩)
  | .go, .spin (.unlockIrq l flags) :: _ => g.setHeld s.stack ((g.held s.stack).erase ⟨l, some flags⟩)
  | .go, .disabling _ .user :: _ => g.setOwn s.stack (g.own s.stack + 1)
  | .enable, _ => g.setOwn s.stack (g.own s.stack - 1)
  | _, _ => g

/-- How a thread may call. -/
def Disciplined (I : LockId → Prop) (s : Machine) (g : Sections) : MAct → Prop
  | .enable => 0 < g.own s.stack
  | .spin (.want _ l) => ¬ I l
  | .spin (.unlock l) => ⟨l, none⟩ ∈ g.held s.stack
  | .spin (.unlockIrq l flags) => (g.held s.stack).find? Hold.irq = some ⟨l, some flags⟩
  | _ => True

inductive LockRun (b : Build) (ok : Nat → Machine → MAct → Prop) (I : LockId → Prop) (ts : List (ThreadId × Int)) (counts : SemId → Int) :
    Machine → Sections → Prop
  | boot {s : Machine} (fp : FpRegs) : (ts.map Prod.fst).Nodup → Machine.boot b fp ts counts = .ok s →
      LockRun b ok I ts counts s Sections.none
  | step {s s' : Machine} {g : Sections} (a : MAct) (fuel : Nat) : LockRun b ok I ts counts s g → Disciplined I s g a → ok fuel s a →
      s.step b fuel a = .ok s' → LockRun b ok I ts counts s' (g.after s a)

/-! ## Frames -/

/-- What a frame still has to undo of `preempt_cnt`, less what it still has to do. -/
def Taking.weight : Taking → Int
  | .irqsave _ => 0
  | _ => 1

def Frame.weight : Frame → Int
  | .inside _ => 1
  | .spin (.load how _) => how.weight
  | .spin (.store how _) => how.weight
  | .spin (.failed how _) => how.weight
  | .spin .taken => -1
  | .spin (.restore _) => 1
  | .disabling _ (.spin .locked) => -1
  | .enable => 1
  | .enabling _ => 1
  | _ => 0

/-- A lock is being taken. -/
def Taking.Ok (I : LockId → Prop) (masked : Bool) (hs : List Hold) (l : LockId) : Taking → Prop
  | .irqsave flags => masked = true ∧ flags = hasIrq hs
  | _ => ¬ I l ∧ masked = hasIrq hs

/-- What is true at a frame, with IRQs masked or not and the locks `hs` held. -/
def Frame.Good (I : LockId → Prop) (masked : Bool) (hs : List Hold) : Frame → Prop
  | .spin (.want how l) => how.saved = none ∧ ¬ I l ∧ masked = hasIrq hs
  | .spin (.load how l) => how.Ok I masked hs l
  | .spin (.store how l) => how.Ok I masked hs l
  | .spin (.failed how l) => how.Ok I masked hs l
  | .spin (.wait how l) => how.Ok I masked hs l
  | .spin .taken => masked = true ∧ hasIrq hs = true
  | .spin .locked => masked = true ∧ hasIrq hs = true
  | .spin (.unlock l) => masked = hasIrq hs ∧ ⟨l, none⟩ ∈ hs
  | .spin (.unlockIrq l flags) => masked = hasIrq hs ∧ hs.find? Hold.irq = some ⟨l, some flags⟩
  | .spin (.restore flags) => masked = true ∧ flags = hasIrq hs
  | .disabling _ (.spin (.load how l)) => how.saved = none ∧ ¬ I l ∧ masked = hasIrq hs
  | .disabling _ (.spin .locked) => masked = true ∧ hasIrq hs = true
  | .disabling _ (.spin _) => False
  | _ => masked = hasIrq hs

/-- A frame that may be covered: its thread owes nothing, holds nothing and has IRQs
    unmasked. -/
def Frame.Calm (I : LockId → Prop) (f : Frame) : Prop := f.weight = 0 ∧ f.Good I false []

/-- All frames satisfy `U`, and so do those of the contexts they carry. -/
inductive Deep (U : Frame → Prop) : List Frame → Prop
  | mk {fs : List Frame} : (∀ f ∈ fs, U f) → (∀ f ∈ fs, ∀ gs, f.carries = some gs → Deep U gs) → Deep U fs

/-- The same below the top frame, and of what the top frame carries. -/
def Beneath (U : Frame → Prop) : List Frame → Prop
  | [] => True
  | f :: rest => (∀ gs, f.carries = some gs → Deep U gs) ∧ Deep U rest

section Deep

variable {U : Frame → Prop} {f g : Frame} {rest : List Frame}

theorem Deep.nil : Deep U [] := .mk (fun _ h => by cases h) (fun _ h => by cases h)

theorem Deep.all {fs : List Frame} (h : Deep U fs) : ∀ f ∈ fs, U f := by
  cases h with
  | mk h _ => exact h

theorem Deep.carried {fs : List Frame} (h : Deep U fs) : ∀ f ∈ fs, ∀ gs, f.carries = some gs → Deep U gs := by
  cases h with
  | mk _ h => exact h

theorem Deep.cons (h : Deep U rest) (hf : U f) (hc : ∀ gs, f.carries = some gs → Deep U gs) : Deep U (f :: rest) := by
  refine .mk (fun x hx => ?_) (fun x hx => ?_)
  · rcases List.mem_cons.mp hx with rfl | hx
    · exact hf
    · exact h.all x hx
  · rcases List.mem_cons.mp hx with rfl | hx
    · exact hc
    · exact h.carried x hx

theorem Deep.tail (h : Deep U (f :: rest)) : Deep U rest :=
  .mk (fun x hx => h.all x (List.mem_cons_of_mem f hx)) fun x hx => h.carried x (List.mem_cons_of_mem f hx)

/-- A context that is switched to. -/
theorem Deep.beneath {fs : List Frame} (h : Deep U fs) : Beneath U fs := by
  cases fs with
  | nil => trivial
  | cons f rest => exact ⟨h.carried f List.mem_cons_self, h.tail⟩

theorem Beneath.pop (h : Beneath U (f :: rest)) : Beneath U rest := h.2.beneath

theorem Beneath.replace (h : Beneath U (f :: rest)) (hg : g.carries = none) : Beneath U (g :: rest) := by
  refine ⟨fun gs hgs => ?_, h.2⟩
  rw [hg] at hgs
  cases hgs

theorem Beneath.carry (h : Beneath U (f :: rest)) {gs : List Frame} (hg : g.carries = some gs) (hgs : Deep U gs) : Beneath U (g :: rest) := by
  refine ⟨fun gs' he => ?_, h.2⟩
  cases hg.symm.trans he
  exact hgs

/-- A frame is put on the top frame, or on the one that replaces it. -/
theorem Beneath.push (h : Beneath U (f :: rest)) (hf : U f) (hg : g.carries = none) : Beneath U (g :: f :: rest) := by
  refine ⟨fun gs hgs => ?_, h.2.cons hf h.1⟩
  rw [hg] at hgs
  cases hgs

end Deep

section Calm

variable {I : LockId → Prop} {masked : Bool} {hs : List Hold} {f : Frame}

theorem Frame.Calm.good (h : f.Calm I) (hm : masked = hasIrq hs) : f.Good I masked hs := by
  obtain ⟨hw, hg⟩ := h
  cases f with
  | spin p =>
    cases p with
    | want how l => exact ⟨hg.1, hg.2.1, hm⟩
    | load how l =>
      cases how with
      | irqsave flags => cases hg.1
      | _ => exact ⟨hg.1, hm⟩
    | store how l =>
      cases how with
      | irqsave flags => cases hg.1
      | _ => exact ⟨hg.1, hm⟩
    | failed how l =>
      cases how with
      | irqsave flags => cases hg.1
      | _ => exact ⟨hg.1, hm⟩
    | wait how l =>
      cases how with
      | irqsave flags => cases hg.1
      | _ => exact ⟨hg.1, hm⟩
    | taken => cases hg.1
    | locked => cases hg.1
    | unlock l => cases hg.2
    | unlockIrq l flags => cases hg.2
    | restore flags => cases hg.1
    | save l => exact hm
  | disabling v c =>
    cases c with
    | spin p =>
      cases p with
      | load how l => exact ⟨hg.1, hg.2.1, hm⟩
      | locked => cases hg.1
      | _ => exact hg.elim
    | _ => exact hm
  | _ => exact hm

/-- At every frame of the scheduler a thread owes nothing. -/
theorem idle_calm (hf : f.idle = true) : f.Calm I := by
  cases f <;> first | exact ⟨rfl, rfl⟩ | cases hf

theorem idle_good (hf : f.idle = true) (h : f.Good I masked hs) : masked = hasIrq hs := by
  cases f <;> first | exact h | cases hf

theorem weight_nonneg (h : f.Good I false hs) : 0 ≤ f.weight := by
  cases f with
  | spin p =>
    cases p with
    | load how l => cases how <;> simp [Frame.weight, Taking.weight]
    | store how l => cases how <;> simp [Frame.weight, Taking.weight]
    | failed how l => cases how <;> simp [Frame.weight, Taking.weight]
    | taken => cases h.1
    | _ => simp [Frame.weight]
  | disabling v c =>
    cases c with
    | spin p =>
      cases p with
      | locked => cases h.1
      | _ => simp [Frame.weight]
    | _ => simp [Frame.weight]
  | _ => simp [Frame.weight]

/-- While a lock with saved flags is held IRQs are masked. -/
theorem good_unmasked (h : f.Good I false hs) : hasIrq hs = false := by
  cases f with
  | spin p =>
    cases p with
    | want how l => exact h.2.2.symm
    | save l => exact h.symm
    | unlock l => exact h.1.symm
    | unlockIrq l flags => exact h.1.symm
    | taken => cases h.1
    | locked => cases h.1
    | restore flags => cases h.1
    | _ how l =>
      cases how with
      | irqsave flags => cases h.1
      | _ => exact h.2.symm
  | disabling v c =>
    cases c with
    | spin p =>
      cases p with
      | load how l => exact h.2.2.symm
      | locked => cases h.1
      | _ => exact h.elim
    | _ => exact h.symm
  | _ => exact h.symm

end Calm

/-! ## The invariant -/

/-- At the top frame, with the counter at `n`. -/
def TopGood (I : LockId → Prop) (n : Nat) (masked : Bool) (hs : List Hold) (own : Nat) : List Frame → Prop
  | [] => masked = hasIrq hs ∧ (n : Int) = own + hs.length
  | f :: _ => f.Good I masked hs ∧ (n : Int) = own + hs.length + f.weight

structure HoldsOk (I : LockId → Prop) (hs : List Hold) : Prop where
  nodup : (hs.map Hold.lock).Nodup
  flags : FlagsOk hs
  plain : ∀ h ∈ hs, h.saved = none → ¬ I h.lock

structure LockInv (I : LockId → Prop) (s : Machine) (g : Sections) : Prop where
  ordered : Ordered s
  saved : ∀ t, Deep (Frame.Calm I) (s.saved t).frames
  beneath : Beneath (Frame.Calm I) s.frames
  top : TopGood I s.k.cpu.preemptCnt s.masked (g.held s.stack) (g.own s.stack) s.frames
  others : ∀ st, st ≠ s.stack → g.held st = [] ∧ g.own st = 0
  holds : HoldsOk I (g.held s.stack)
  word : ∀ l, s.word l = if l ∈ (g.held s.stack).map Hold.lock then 1 else 0
  monitor : ∀ l, s.monitor = some l → s.word l = 0

section Steps

variable {b : Build} {fuel : Nat} {I : LockId → Prop} {s s' : Machine} {g : Sections} {f : Frame} {rest : List Frame}

theorem LockInv.head (h : LockInv I s g) (hf : s.frames = f :: rest) :
    Beneath (Frame.Calm I) (f :: rest) ∧ f.Good I s.masked (g.held s.stack) ∧
      (s.k.cpu.preemptCnt : Int) = g.own s.stack + (g.held s.stack).length + f.weight := by
  have hb := h.beneath
  have ht := h.top
  rw [hf] at hb ht
  exact ⟨hb, ht⟩

/-- A step that takes and releases nothing. -/
theorem LockInv.keep (h : LockInv I s g) (hord : Ordered s') (hsaved : ∀ t, Deep (Frame.Calm I) (s'.saved t).frames)
    (hb : Beneath (Frame.Calm I) s'.frames)
    (htop : TopGood I s'.k.cpu.preemptCnt s'.masked (g.held s.stack) (g.own s.stack) s'.frames) (hst : s'.stack = s.stack)
    (hword : s'.word = s.word) (hmon : ∀ l, s'.monitor = some l → s.word l = 0) : LockInv I s' g := by
  refine ⟨hord, hsaved, hb, ?_, ?_, ?_, ?_, ?_⟩
  · rw [hst]
    exact htop
  · rw [hst]
    exact h.others
  · rw [hst]
    exact h.holds
  · rw [hst, hword]
    exact h.word
  · rw [hword]
    exact hmon

theorem topGood_calm {n : Nat} {masked : Bool} {hs : List Hold} {own : Nat} {fs : List Frame} (hm : masked = hasIrq hs)
    (hn : (n : Int) = own + hs.length) (hc : ∀ x ∈ fs.head?, x.Calm I) : TopGood I n masked hs own fs := by
  cases fs with
  | nil => exact ⟨hm, hn⟩
  | cons f rest =>
    have hf := hc f rfl
    refine ⟨hf.good hm, ?_⟩
    rw [hf.1]
    omega

/-- From a frame that owes nothing to another. -/
theorem LockInv.calm (h : LockInv I s g) (hord : Ordered s') (hf : s.frames = f :: rest) (hw : f.weight = 0)
    (hm : f.Good I s.masked (g.held s.stack) → s.masked = hasIrq (g.held s.stack))
    (hsaved : ∀ t, Deep (Frame.Calm I) (s'.saved t).frames) (hb : Beneath (Frame.Calm I) s'.frames)
    (hc : ∀ x ∈ s'.frames.head?, x.Calm I) (hcnt : s'.k.cpu.preemptCnt = s.k.cpu.preemptCnt) (hmask : s'.masked = s.masked)
    (hst : s'.stack = s.stack) (hword : s'.word = s.word) (hmon : ∀ l, s'.monitor = some l → s.word l = 0) : LockInv I s' g := by
  obtain ⟨-, hg, hn⟩ := h.head hf
  refine h.keep hord hsaved hb (topGood_calm ?_ ?_ hc) hst hword hmon
  · rw [hmask]
    exact hm hg
  · rw [hcnt, hn, hw]
    omega

/-- A frame that owes nothing returns. -/
theorem LockInv.pop (h : LockInv I s g) (hord : Ordered s') (hf : s.frames = f :: rest) (hw : f.weight = 0)
    (hm : f.Good I s.masked (g.held s.stack) → s.masked = hasIrq (g.held s.stack)) (hr : s'.frames = rest)
    (hsaved : s'.saved = s.saved) (hcnt : s'.k.cpu.preemptCnt = s.k.cpu.preemptCnt) (hmask : s'.masked = s.masked)
    (hst : s'.stack = s.stack) (hword : s'.word = s.word) (hmon : s'.monitor = s.monitor) : LockInv I s' g := by
  obtain ⟨hb, -, -⟩ := h.head hf
  refine h.calm hord hf hw hm ?_ ?_ ?_ hcnt hmask hst hword ?_
  · rw [hsaved]
    exact h.saved
  · rw [hr]
    exact hb.pop
  · rw [hr]
    exact fun x hx => hb.2.all x (List.mem_of_mem_head? hx)
  · rw [hmon]
    exact h.monitor

/-- It is replaced by one that owes nothing. -/
theorem LockInv.replace {x : Frame} (h : LockInv I s g) (hord : Ordered s') (hf : s.frames = f :: rest) (hw : f.weight = 0)
    (hm : f.Good I s.masked (g.held s.stack) → s.masked = hasIrq (g.held s.stack)) (hr : s'.frames = x :: rest)
    (hx : x.Calm I) (hxc : x.carries = none)
    (hsaved : s'.saved = s.saved) (hcnt : s'.k.cpu.preemptCnt = s.k.cpu.preemptCnt) (hmask : s'.masked = s.masked)
    (hst : s'.stack = s.stack) (hword : s'.word = s.word) (hmon : s'.monitor = s.monitor) : LockInv I s' g := by
  obtain ⟨hb, -, -⟩ := h.head hf
  refine h.calm hord hf hw hm ?_ ?_ ?_ hcnt hmask hst hword ?_
  · rw [hsaved]
    exact h.saved
  · rw [hr]
    exact hb.replace hxc
  · rw [hr]
    intro y hy
    cases hy
    exact hx
  · rw [hmon]
    exact h.monitor

/-- A thread at counter 0 with IRQs unmasked holds nothing and owes nothing. -/
theorem LockInv.idle (h : LockInv I s g) (hm : s.masked = false) (hn : s.k.cpu.preemptCnt = 0) :
    g.held s.stack = [] ∧ g.own s.stack = 0 ∧ ∀ f ∈ s.frames.head?, f.Calm I := by
  have htop := h.top
  rw [hm, hn] at htop
  cases hf : s.frames with
  | nil =>
    rw [hf] at htop
    obtain ⟨-, heq⟩ := htop
    exact ⟨List.length_eq_zero_iff.mp (by omega), by omega, fun f hmem => by cases hmem⟩
  | cons f rest =>
    rw [hf] at htop
    obtain ⟨hg, heq⟩ := htop
    have hw := weight_nonneg hg
    have hheld : g.held s.stack = [] := List.length_eq_zero_iff.mp (by omega)
    refine ⟨hheld, by omega, fun x hx => ?_⟩
    cases hx
    refine ⟨by omega, ?_⟩
    rwa [hheld] at hg

theorem LockInv.unmasked (h : LockInv I s g) (hm : s.masked = false) : hasIrq (g.held s.stack) = false := by
  have htop := h.top
  rw [hm] at htop
  cases hf : s.frames with
  | nil =>
    rw [hf] at htop
    exact htop.1.symm
  | cons f rest =>
    rw [hf] at htop
    exact good_unmasked htop.1

/-- The lock of the attempt is free: the thread takes it. -/
theorem LockInv.take {how : Taking} {l : LockId} (h : LockInv I s g) (hf : s.frames = .spin (.store how l) :: rest)
    (hmon : s.monitor = some l) (hord : Ordered (s.spin (.store how l) rest)) :
    LockInv I (s.spin (.store how l) rest) (g.setHeld s.stack (⟨l, how.saved⟩ :: g.held s.stack)) := by
  obtain ⟨hb, hg, hn⟩ := h.head hf
  have hfree : l ∉ (g.held s.stack).map Hold.lock := by
    intro hmem
    have hw := h.word l
    rw [if_pos hmem, h.monitor l hmon] at hw
    cases hw
  have hs : s.spin (.store how l) rest = { s with word := Function.update s.word l 1, monitor := none, frames := Machine.got how :: rest } := by
    rw [Machine.spin, if_pos hmon]
  rw [hs] at hord ⊢
  refine ⟨hord, h.saved, hb.replace ?_, ?_, fun st hst => ?_, ?_, fun m => ?_, fun m hm => by cases hm⟩
  · cases how <;> rfl
  · simp only [Sections.setHeld, Function.update_self]
    cases how with
    | irqsave flags =>
      refine ⟨⟨hg.1, rfl⟩, ?_⟩
      rw [List.length_cons]
      have hn : (s.k.cpu.preemptCnt : Int) = g.own s.stack + (g.held s.stack).length + 0 := hn
      show (s.k.cpu.preemptCnt : Int) = g.own s.stack + ((g.held s.stack).length + 1 : Nat) + -1
      omega
    | _ =>
      refine ⟨hg.2, ?_⟩
      rw [List.length_cons]
      have hn : (s.k.cpu.preemptCnt : Int) = g.own s.stack + (g.held s.stack).length + 1 := hn
      show (s.k.cpu.preemptCnt : Int) = g.own s.stack + ((g.held s.stack).length + 1 : Nat) + 0
      omega
  · simp only [Sections.setHeld, Function.update_of_ne hst]
    exact h.others st hst
  · simp only [Sections.setHeld, Function.update_self]
    refine ⟨List.nodup_cons.mpr ⟨hfree, h.holds.nodup⟩, ⟨fun f hfl => ?_, h.holds.flags⟩, fun x hx hsv => ?_⟩
    · cases how with
      | irqsave flags =>
        cases hfl
        exact hg.2
      | _ => cases hfl
    · rcases List.mem_cons.mp hx with rfl | hx
      · cases how with
        | irqsave flags => cases hsv
        | _ => exact hg.1
      · exact h.holds.plain x hx hsv
  · simp only [Sections.setHeld, Function.update_self, List.map_cons, List.mem_cons]
    by_cases hml : m = l
    · subst hml
      simp
    · simp [hml, h.word m]

theorem map_lock_erase {hs : List Hold} {h : Hold} (hn : (hs.map Hold.lock).Nodup) (hm : h ∈ hs) (l : LockId) :
    l ∈ (hs.erase h).map Hold.lock ↔ l ∈ hs.map Hold.lock ∧ l ≠ h.lock := by
  have hnd : hs.Nodup := List.Nodup.of_map _ hn
  simp only [List.mem_map, hnd.mem_erase_iff]
  constructor
  · intro h1
    obtain ⟨x, ⟨hne, hx⟩, rfl⟩ := h1
    exact ⟨⟨x, hx, rfl⟩, fun he => hne (List.inj_on_of_nodup_map hn hx hm he)⟩
  · intro h1
    obtain ⟨⟨x, hx, rfl⟩, hne⟩ := h1
    exact ⟨x, ⟨fun he => hne (by rw [he]), hx⟩, rfl⟩

/-- A lock is released: its word becomes 0 and it is not held any more. -/
theorem LockInv.release {x : Hold} (h : LockInv I s g) (hm : x ∈ g.held s.stack) (hord : Ordered s')
    (hflags : FlagsOk ((g.held s.stack).erase x)) (hsaved : s'.saved = s.saved) (hb : Beneath (Frame.Calm I) s'.frames)
    (htop : TopGood I s'.k.cpu.preemptCnt s'.masked ((g.held s.stack).erase x) (g.own s.stack) s'.frames)
    (hst : s'.stack = s.stack) (hword : s'.word = Function.update s.word x.lock 0) (hmon : s'.monitor = s.monitor) :
    LockInv I s' (g.setHeld s.stack ((g.held s.stack).erase x)) := by
  refine ⟨hord, ?_, hb, ?_, ?_, ?_, ?_, ?_⟩
  · rw [hsaved]
    exact h.saved
  · rw [hst]
    simpa only [Sections.setHeld, Function.update_self] using htop
  · rw [hst]
    intro st hne
    simp only [Sections.setHeld, Function.update_of_ne hne]
    exact h.others st hne
  · rw [hst]
    simp only [Sections.setHeld, Function.update_self]
    refine ⟨?_, hflags, fun y hy => h.holds.plain y (List.mem_of_mem_erase hy)⟩
    exact h.holds.nodup.sublist (List.Sublist.map _ List.erase_sublist)
  · rw [hst, hword]
    intro l
    simp only [Sections.setHeld, Function.update_self, map_lock_erase h.holds.nodup hm]
    by_cases hl : l = x.lock
    · subst hl
      simp
    · simp [hl, h.word l]
  · rw [hmon, hword]
    intro l hl
    by_cases he : l = x.lock
    · subst he
      simp
    · rw [Function.update_of_ne he]
      exact h.monitor l hl

theorem length_erase {hs : List Hold} {x : Hold} (hm : x ∈ hs) : ((hs.erase x).length : Int) + 1 = hs.length := by
  have hpos := List.length_pos_of_mem hm
  rw [List.length_erase_of_mem hm]
  omega

/-- A step in the functions of src/spinlock.cc. -/
theorem LockInv.spin {p : SpinPc} (h : LockInv I s g) (hf : s.frames = .spin p :: rest) (hord : Ordered (s.spin p rest)) :
    LockInv I (s.spin p rest) (g.after s .go) := by
  obtain ⟨hb, hg, hn⟩ := h.head hf
  cases p with
  | want how l =>
    have hafter : g.after s .go = g := by simp only [Sections.after, hf]
    rw [hafter]
    exact h.keep hord h.saved (hb.replace rfl) ⟨hg, hn⟩ rfl rfl h.monitor
  | save l =>
    have hafter : g.after s .go = g := by simp only [Sections.after, hf]
    rw [hafter]
    exact h.keep hord h.saved (hb.replace rfl) ⟨⟨rfl, hg⟩, hn⟩ rfl rfl h.monitor
  | load how l =>
    have hafter : g.after s .go = g := by simp only [Sections.after, hf]
    rw [hafter]
    by_cases hw : s.word l = 0
    · rw [Machine.spin, if_pos hw] at hord ⊢
      refine h.keep hord h.saved (hb.replace rfl) ⟨hg, hn⟩ rfl rfl ?_
      intro m hm
      cases hm
      exact hw
    · rw [Machine.spin, if_neg hw] at hord ⊢
      exact h.keep hord h.saved (hb.replace rfl) ⟨hg, hn⟩ rfl rfl (fun m hm => by cases hm)
  | store how l =>
    by_cases hm : s.monitor = some l
    · have hafter : g.after s .go = g.setHeld s.stack (⟨l, how.saved⟩ :: g.held s.stack) := by simp only [Sections.after, hf, if_pos hm]
      rw [hafter]
      exact h.take hf hm hord
    · have hafter : g.after s .go = g := by simp only [Sections.after, hf, if_neg hm]
      rw [hafter]
      rw [Machine.spin, if_neg hm] at hord ⊢
      exact h.keep hord h.saved (hb.replace rfl) ⟨hg, hn⟩ rfl rfl (fun m hm => by cases hm)
  | failed how l =>
    have hafter : g.after s .go = g := by simp only [Sections.after, hf]
    rw [hafter]
    cases how with
    | lock =>
      have hwait : (Frame.spin (.wait .lock l)).Calm I := ⟨rfl, hg.1, rfl⟩
      have hb' : Beneath (Frame.Calm I) (.spin (.wait .lock l) :: rest) := hb.replace rfl
      exact h.keep hord h.saved (hb'.push hwait rfl) ⟨hg.2, hn⟩ rfl rfl h.monitor
    | trylock =>
      have hown : (Frame.own .user).Calm I := ⟨rfl, rfl⟩
      have hb' : Beneath (Frame.Calm I) (.own .user :: rest) := hb.replace rfl
      exact h.keep hord h.saved (hb'.push hown rfl) ⟨hg.2, hn⟩ rfl rfl h.monitor
    | irqsave flags => exact h.keep hord h.saved (hb.replace rfl) ⟨hg, hn⟩ rfl rfl h.monitor
  | wait how l =>
    have hafter : g.after s .go = g := by simp only [Sections.after, hf]
    rw [hafter]
    refine h.keep hord h.saved (hb.replace rfl) ?_ rfl rfl h.monitor
    show TopGood I _ _ _ _ (.spin (if s.word l = 0 then Machine.again how l else .wait how l) :: rest)
    split
    · cases how with
      | irqsave flags => exact ⟨hg, hn⟩
      | _ => exact ⟨⟨rfl, hg⟩, hn⟩
    · exact ⟨hg, hn⟩
  | taken =>
    have hafter : g.after s .go = g := by simp only [Sections.after, hf]
    rw [hafter]
    exact h.keep hord h.saved (hb.replace rfl) ⟨hg, hn⟩ rfl rfl h.monitor
  | locked =>
    have hafter : g.after s .go = g := by simp only [Sections.after, hf]
    rw [hafter]
    exact h.keep hord h.saved (hb.replace rfl) ⟨hg.1.trans hg.2.symm, hn⟩ rfl rfl h.monitor
  | unlock l =>
    have hafter : g.after s .go = g.setHeld s.stack ((g.held s.stack).erase ⟨l, none⟩) := by simp only [Sections.after, hf]
    rw [hafter]
    have hown : (Frame.own .user).Calm I := ⟨rfl, rfl⟩
    have hb' : Beneath (Frame.Calm I) (.own .user :: rest) := hb.replace rfl
    refine h.release hg.2 hord h.holds.flags.erase_plain rfl (hb'.push hown rfl) ⟨?_, ?_⟩ rfl rfl rfl
    · show s.masked = hasIrq ((g.held s.stack).erase ⟨l, none⟩)
      rw [hasIrq_erase_plain]
      exact hg.1
    · have hlen := length_erase hg.2
      have hn : (s.k.cpu.preemptCnt : Int) = g.own s.stack + (g.held s.stack).length + 0 := hn
      show (s.k.cpu.preemptCnt : Int) = g.own s.stack + ((g.held s.stack).erase ⟨l, none⟩).length + 1
      omega
  | unlockIrq l flags =>
    have hafter : g.after s .go = g.setHeld s.stack ((g.held s.stack).erase ⟨l, some flags⟩) := by simp only [Sections.after, hf]
    rw [hafter]
    obtain ⟨hfl, hirq⟩ := h.holds.flags.erase_irq hg.2
    have hmem : ⟨l, some flags⟩ ∈ g.held s.stack := List.mem_of_find?_eq_some hg.2
    refine h.release hmem hord hfl rfl (hb.replace rfl) ⟨⟨?_, hirq.symm⟩, ?_⟩ rfl rfl rfl
    · exact hg.1.trans (hasIrq_of_mem hmem rfl)
    · have hlen := length_erase hmem
      have hn : (s.k.cpu.preemptCnt : Int) = g.own s.stack + (g.held s.stack).length + 0 := hn
      show (s.k.cpu.preemptCnt : Int) = g.own s.stack + ((g.held s.stack).erase ⟨l, some flags⟩).length + 1
      omega
  | restore flags =>
    have hafter : g.after s .go = g := by simp only [Sections.after, hf]
    rw [hafter]
    have hown : (Frame.own .user).Calm I := ⟨rfl, rfl⟩
    have hb' : Beneath (Frame.Calm I) (.own .user :: rest) := hb.replace rfl
    exact h.keep hord h.saved (hb'.push hown rfl) ⟨hg.2, hn⟩ rfl rfl h.monitor

/-- Only the functions of src/spinlock.cc and the thread's own `preempt_disable` are recorded. -/
theorem after_go (hf : s.frames = f :: rest) (hp : ∀ p, f ≠ .spin p) (hd : ∀ v, f ≠ .disabling v .user) : g.after s .go = g := by
  unfold Sections.after
  rw [hf]
  split
  · rename_i he
    exact absurd (List.cons.inj he).1 (hp _)
  · rename_i he
    exact absurd (List.cons.inj he).1 (hp _)
  · rename_i he
    exact absurd (List.cons.inj he).1 (hp _)
  · rename_i he
    exact absurd (List.cons.inj he).1 (hd _)
  · rename_i ha
    cases ha
  · rfl

/-- `preempt_disable` stores the counter. -/
theorem LockInv.disables {v : Nat} {c : Caller} (h : LockInv I s g) (hf : s.frames = .disabling v c :: rest)
    (hv : v + 1 < UInt32.size) (hord : Ordered { s with k := s.k.setPreemptCnt ((v + 1) % UInt32.size), frames := c.frame :: rest }) :
    LockInv I { s with k := s.k.setPreemptCnt ((v + 1) % UInt32.size), frames := c.frame :: rest } (g.after s .go) := by
  obtain ⟨hb, hg, hn⟩ := h.head hf
  have hcnt : v = s.k.cpu.preemptCnt := (h.ordered.head hf).2
  rw [Nat.mod_eq_of_lt hv] at hord ⊢
  rw [← hcnt] at hn
  cases c with
  | user =>
    have hafter : g.after s .go = g.setOwn s.stack (g.own s.stack + 1) := by simp only [Sections.after, hf]
    rw [hafter]
    refine ⟨hord, h.saved, hb.replace rfl, ?_, fun st hst => ?_, h.holds, h.word, h.monitor⟩
    · refine ⟨hg, ?_⟩
      simp only [Sections.setOwn, Function.update_self]
      have hn : (v : Int) = g.own s.stack + (g.held s.stack).length + 0 := hn
      show ((v + 1 : Nat) : Int) = (g.own s.stack + 1 : Nat) + (g.held s.stack).length + 0
      omega
    · simp only [Sections.setOwn, Function.update_of_ne hst]
      exact h.others st hst
  | call c =>
    rw [after_go hf (fun _ e => by cases e) (fun _ e => by cases e)]
    refine h.keep hord h.saved (hb.replace rfl) ⟨hg, ?_⟩ rfl rfl h.monitor
    have hn : (v : Int) = g.own s.stack + (g.held s.stack).length + 0 := hn
    show ((v + 1 : Nat) : Int) = g.own s.stack + (g.held s.stack).length + 1
    omega
  | spin p =>
    rw [after_go hf (fun _ e => by cases e) (fun _ e => by cases e)]
    cases p with
    | load how l =>
      refine h.keep hord h.saved (hb.replace rfl) ⟨?_, ?_⟩ rfl rfl h.monitor
      · cases how with
        | irqsave flags => cases hg.1
        | _ => exact hg.2
      · have hn : (v : Int) = g.own s.stack + (g.held s.stack).length + 0 := hn
        have hw : how.weight = 1 := by
          cases how with
          | irqsave flags => cases hg.1
          | _ => rfl
        show ((v + 1 : Nat) : Int) = g.own s.stack + (g.held s.stack).length + how.weight
        omega
    | locked =>
      refine h.keep hord h.saved (hb.replace rfl) ⟨hg, ?_⟩ rfl rfl h.monitor
      have hn : (v : Int) = g.own s.stack + (g.held s.stack).length + -1 := hn
      show ((v + 1 : Nat) : Int) = g.own s.stack + (g.held s.stack).length + 0
      omega
    | _ => exact hg.elim

/-- A switch leaves a thread that holds nothing for one that holds nothing. -/
theorem LockInv.swap {w : Option Switcher} {stack : Stack} {frames : List Frame} (h : LockInv I s g)
    (hf : s.frames = .stored w stack frames :: rest) (hord : Ordered { s with stack := stack, frames := frames }) :
    LockInv I { s with stack := stack, frames := frames } g := by
  obtain ⟨hb, hg, hn⟩ := h.head hf
  have hzero := h.ordered.zero hf rfl
  have hn : (s.k.cpu.preemptCnt : Int) = g.own s.stack + (g.held s.stack).length + 0 := hn
  have hheld : g.held s.stack = [] := List.length_eq_zero_iff.mp (by omega)
  have hm : s.masked = false := by
    rw [show s.masked = hasIrq (g.held s.stack) from hg, hheld, hasIrq_nil]
  have hall : ∀ st, g.held st = [] ∧ g.own st = 0 := by
    intro st
    by_cases hst : st = s.stack
    · subst hst
      exact ⟨hheld, by omega⟩
    · exact h.others st hst
  have hframes : Deep (Frame.Calm I) frames := hb.1 frames rfl
  refine ⟨hord, h.saved, hframes.beneath, ?_, fun st _ => hall st, ?_, fun l => ?_, h.monitor⟩
  · rw [(hall _).1, (hall _).2]
    refine topGood_calm hm ?_ fun x hx => hframes.all x (List.mem_of_mem_head? hx)
    show (s.k.cpu.preemptCnt : Int) = ((0 : Nat) : Int) + ([] : List Hold).length
    rw [hzero]
    rfl
  · rw [(hall _).1]
    exact ⟨List.nodup_nil, trivial, fun x hx => by cases hx⟩
  · rw [(hall _).1]
    have hw := h.word l
    rwa [hheld] at hw

theorem LockInv.go (h : LockInv I s g) (hcount : DisableCounts b fuel s .go) (hs : s.go b fuel = .ok s') : LockInv I s' (g.after s .go) := by
  have hord := h.ordered.go (go_cases hs)
  by_cases hspin : ∃ p rest, s.frames = .spin p :: rest
  · obtain ⟨p, rest, hf⟩ := hspin
    simp only [Machine.go, hf] at hs
    cases hs
    exact h.spin hf hord
  have hne : ∀ f rest, s.frames = f :: rest → ∀ p, f ≠ .spin p := fun f rest hf p e => hspin ⟨p, rest, e ▸ hf⟩
  cases go_cases hs with
  | quiet f fs rest word monitor masked hf hq hl he =>
    rcases hl with ⟨p, rfl⟩ | ⟨rfl, rfl, rfl⟩
    · exact absurd rfl (hne _ _ hf p)
    subst he
    have hafter : g.after s .go = g := after_go hf (hne f rest hf) (by cases hq <;> exact fun _ e => by cases e)
    rw [hafter]
    obtain ⟨hb, hg, hn⟩ := h.head hf
    cases hq with
    | round m => exact h.replace hord hf rfl (fun hg => hg) rfl ⟨rfl, rfl⟩ rfl rfl rfl rfl rfl rfl rfl
    | returned c r => exact h.replace hord hf rfl (fun hg => hg) rfl ⟨rfl, rfl⟩ rfl rfl rfl rfl rfl rfl rfl
    | enabling hv => exact h.keep hord h.saved (hb.replace rfl) ⟨hg, hn⟩ rfl rfl h.monitor
    | spins p q => exact absurd rfl (hne _ _ hf p)
    | locks p q => exact absurd rfl (hne _ _ hf p)
    | misses p l => exact absurd rfl (hne _ _ hf p)
    | unlocks p => exact absurd rfl (hne _ _ hf p)
    | got p => exact absurd rfl (hne _ _ hf p)
    | _ =>
      -- a thread's own code is no statement of the kernel
      simp only [Machine.go, hf] at hs
      cases hs
  | body c k r rest hf hp hbody he =>
    subst he
    rw [after_go hf (hne _ rest hf) (fun _ e => by cases e)]
    obtain ⟨hb, hg, hn⟩ := h.head hf
    obtain ⟨-, hcnt⟩ := callBody_isSome (h.ordered.current hf (fun e => by cases e)) hbody
    have hown : (Frame.own (r.cont c)).Calm I := ⟨rfl, rfl⟩
    have hb' : Beneath (Frame.Calm I) (.own (r.cont c) :: rest) := hb.replace rfl
    refine h.keep hord h.saved (hb'.push hown rfl) ⟨hg, ?_⟩ rfl rfl h.monitor
    show (k.cpu.preemptCnt : Int) = _
    rw [hcnt]
    exact hn
  | disables v c rest hf he =>
    subst he
    unfold DisableCounts at hcount
    rw [hf] at hcount
    exact h.disables hf hcount hord
  | enables v rest hf he =>
    subst he
    rw [after_go hf (hne _ rest hf) (fun _ e => by cases e)]
    obtain ⟨hb, hg, hn⟩ := h.head hf
    obtain ⟨hv, hpos⟩ : v = s.k.cpu.preemptCnt ∧ v ≠ 0 := (h.ordered.head hf).2
    refine h.keep hord h.saved (hb.replace rfl) ⟨hg, ?_⟩ rfl rfl h.monitor
    have hn : (s.k.cpu.preemptCnt : Int) = g.own s.stack + (g.held s.stack).length + 1 := hn
    show ((v - 1 : Nat) : Int) = g.own s.stack + (g.held s.stack).length + 0
    omega
  | returns f rest hf hr he =>
    subst he
    obtain ⟨-, hg, hn⟩ := h.head hf
    rw [after_go hf (hne f rest hf) (by cases hr <;> exact fun _ e => by cases e)]
    cases hr with
    | enable hzero =>
      have hn : (s.k.cpu.preemptCnt : Int) = g.own s.stack + (g.held s.stack).length + 1 := hn
      omega
    | _ => exact h.pop hord hf rfl (fun hg => hg) rfl rfl rfl rfl rfl rfl rfl
  | calls f rest hf hcall _ _ he =>
    subst he
    rw [after_go hf (hne f rest hf) (by cases hcall <;> exact fun _ e => by cases e)]
    cases hcall with
    | enabled _ => exact h.replace hord hf rfl (fun hg => hg) rfl (idle_calm rfl) rfl rfl rfl rfl rfl rfl rfl
    | preemptReturn => exact h.replace hord hf rfl (fun hg => hg) rfl (idle_calm rfl) rfl rfl rfl rfl rfl rfl rfl
  | searches f w rest hf hsearch _ he =>
    subst he
    rw [after_go hf (hne f rest hf) (by cases hsearch <;> exact fun _ e => by cases e)]
    cases hsearch with
    | tail => exact h.replace hord hf rfl (fun hg => hg) rfl (idle_calm rfl) rfl rfl rfl rfl rfl rfl rfl
    | yield => exact h.replace hord hf rfl (fun hg => hg) rfl (idle_calm rfl) rfl rfl rfl rfl rfl rfl rfl
  | found w cur next rest hf _ he =>
    subst he
    rw [after_go hf (hne _ rest hf) (fun _ e => by cases e)]
    exact h.replace hord hf rfl (idle_good rfl) rfl (idle_calm rfl) rfl rfl rfl rfl rfl rfl rfl
  | stays w cur next rest hf _ he =>
    subst he
    rw [after_go hf (hne _ rest hf) (fun _ e => by cases e)]
    obtain ⟨hw, hmon, hm⟩ := leave_lock s w rest
    exact h.pop hord hf rfl (idle_good rfl) (by simp) (by simp) (leave_preemptCnt s w rest) hm (by simp) hw hmon
  | leaves w rest hf he =>
    subst he
    rw [after_go hf (hne _ rest hf) (fun _ e => by cases e)]
    obtain ⟨hw, hmon, hm⟩ := leave_lock s w rest
    exact h.pop hord hf rfl (idle_good rfl) (by simp) (by simp) (leave_preemptCnt s w rest) hm (by simp) hw hmon
  | saves w cur next rest hf _ he =>
    subst he
    rw [after_go hf (hne _ rest hf) (fun _ e => by cases e)]
    obtain ⟨hw, hmon, hm⟩ := fpsimdSave_lock s
    exact h.replace hord hf rfl (idle_good rfl) rfl (idle_calm rfl) rfl (by simp) (by simp) hm (by simp) hw hmon
  | loads w rest hf he =>
    subst he
    rw [after_go hf (hne _ rest hf) (fun _ e => by cases e)]
    obtain ⟨hw, hmon, hm⟩ := fpsimdLoad_lock s
    exact h.replace hord hf rfl (idle_good rfl) rfl (idle_calm rfl) rfl (by simp) (by simp) hm (by simp) hw hmon
  | becomes w cur next rest hf he =>
    subst he
    rw [after_go hf (hne _ rest hf) (fun _ e => by cases e)]
    exact h.replace hord hf rfl (idle_good rfl) rfl (idle_calm rfl) rfl rfl rfl rfl rfl rfl rfl
  | reads w cur next rest hf he =>
    subst he
    rw [after_go hf (hne _ rest hf) (fun _ e => by cases e)]
    obtain ⟨hb, -, -⟩ := h.head hf
    refine h.calm hord hf rfl (idle_good rfl) h.saved (hb.carry rfl (h.saved next)) ?_ rfl rfl rfl rfl h.monitor
    intro x hx
    cases hx
    exact idle_calm rfl
  | stores w cur stack frames rest hf he =>
    subst he
    rw [after_go hf (hne _ rest hf) (fun _ e => by cases e)]
    obtain ⟨hb, -, -⟩ := h.head hf
    refine h.calm hord hf rfl (idle_good rfl) (fun t => ?_) (hb.carry rfl (hb.1 frames rfl)) ?_ rfl rfl rfl rfl h.monitor
    · by_cases hc : t = cur
      · subst hc
        simp only [Function.update_self]
        exact hb.2.cons (idle_calm rfl) (fun gs hgs => by cases hgs)
      · simp only [Function.update_of_ne hc]
        exact h.saved t
    · intro x hx
      cases hx
      exact idle_calm rfl
  | swaps w stack frames rest hf he =>
    subst he
    rw [after_go hf (hne _ rest hf) (fun _ e => by cases e)]
    exact h.swap hf hord
  | starts k cur rest hf hstart _ he =>
    subst he
    rw [after_go hf (hne _ rest hf) (fun _ e => by cases e)]
    obtain ⟨n, -, honly, -⟩ := schedStart_cases hstart
    exact h.replace hord hf rfl (idle_good rfl) rfl (idle_calm rfl) rfl rfl honly.preemptCnt rfl rfl rfl rfl
  | startReads cur rest hf he =>
    subst he
    rw [after_go hf (hne _ rest hf) (fun _ e => by cases e)]
    obtain ⟨hb, -, -⟩ := h.head hf
    refine h.calm hord hf rfl (idle_good rfl) h.saved (hb.carry rfl (h.saved cur)) ?_ rfl rfl rfl rfl h.monitor
    intro x hx
    cases hx
    exact idle_calm rfl

theorem after_other {a : MAct} (hgo : a ≠ .go) (hen : a ≠ .enable) : g.after s a = g := by
  unfold Sections.after
  split <;> first | rfl | exact absurd rfl hgo | exact absurd rfl hen

/-- What an interrupt covers. -/
theorem deep_back {U : Frame → Prop} {fs : List Frame} (h : Beneath U fs) (hf : ∀ f ∈ fs.head?, U f)
    (hpick : ∀ w cur torn, U (.pick w cur torn)) : Deep U (Machine.back true fs) := by
  cases fs with
  | nil => exact .nil
  | cons f rest =>
    unfold Machine.back
    split
    · rename_i w cur torn rest' he
      cases he
      exact h.2.cons (hpick w cur true) (fun gs hgs => by cases hgs)
    · rename_i v c rest' he
      cases he
      exact h.2.cons (hf _ rfl) (fun gs hgs => by cases hgs)
    · exact h.2.cons (hf f rfl) h.1

theorem back_resumes {resumes : Bool} {fs : List Frame} (h : ∀ v c rest, fs = .disabling v c :: rest → resumes = true) :
    Machine.back resumes fs = Machine.back true fs := by
  unfold Machine.back
  split
  · rfl
  · rename_i v c rest
    rw [h v c rest rfl]
  · rfl

/-- An interrupt that is followed by `preempt_return` finds a thread that holds nothing. -/
theorem LockInv.covered {k : Kernel} {resumes : Bool} (h : LockInv I s g) (hm : s.masked = false) (hp : s.k.cpu.preemptCnt = 0)
    (hk : k.cpu.preemptCnt = s.k.cpu.preemptCnt) (hres : ∀ v c rest, s.frames = .disabling v c :: rest → resumes = true)
    (hord : Ordered { s with k := k, monitor := none, frames := .preemptReturn :: Machine.back resumes s.frames }) :
    LockInv I { s with k := k, monitor := none, frames := .preemptReturn :: Machine.back resumes s.frames } g := by
  obtain ⟨hheld, hown, hcalm⟩ := h.idle hm hp
  have hdeep : Deep (Frame.Calm I) (Machine.back resumes s.frames) := by
    rw [back_resumes hres]
    exact deep_back h.beneath hcalm fun _ _ _ => idle_calm rfl
  refine h.keep hord h.saved ⟨(fun gs hgs => by cases hgs), hdeep⟩ ?_ rfl rfl (fun l hl => by cases hl)
  rw [hheld, hown]
  refine ⟨hm, ?_⟩
  show (k.cpu.preemptCnt : Int) = 0
  rw [hk, hp]
  rfl

/-- What a thread's own code calls. -/
theorem LockInv.acts {a : MAct} {fs : List Frame} (h : LockInv I s g) (hdisc : Disciplined I s g a) (hf : s.frames = .own .user :: rest)
    (ha : Acts s.k.cpu.preemptCnt a fs) (hord : Ordered { s with frames := fs ++ rest }) :
    LockInv I { s with frames := fs ++ rest } (g.after s a) := by
  obtain ⟨hb, hg, hn⟩ := h.head hf
  have hown : (Frame.own .user).Calm I := ⟨rfl, rfl⟩
  cases ha with
  | call c =>
    rw [after_other (fun e => by cases e) (fun e => by cases e)]
    exact h.replace hord hf rfl (fun hg => hg) rfl ⟨rfl, rfl⟩ rfl rfl rfl rfl rfl rfl rfl
  | disable =>
    rw [after_other (fun e => by cases e) (fun e => by cases e)]
    exact h.replace hord hf rfl (fun hg => hg) rfl ⟨rfl, rfl⟩ rfl rfl rfl rfl rfl rfl rfl
  | yield =>
    rw [after_other (fun e => by cases e) (fun e => by cases e)]
    exact h.keep hord h.saved (hb.push hown rfl) ⟨hg, hn⟩ rfl rfl h.monitor
  | enable =>
    have hpos : 0 < g.own s.stack := hdisc
    have hafter : g.after s .enable = g.setOwn s.stack (g.own s.stack - 1) := by simp only [Sections.after]
    rw [hafter]
    refine ⟨hord, h.saved, hb.push hown rfl, ⟨hg, ?_⟩, fun st hst => ?_, h.holds, h.word, h.monitor⟩
    · simp only [Sections.setOwn, Function.update_self]
      have hn : (s.k.cpu.preemptCnt : Int) = g.own s.stack + (g.held s.stack).length + 0 := hn
      show (s.k.cpu.preemptCnt : Int) = (g.own s.stack - 1 : Nat) + (g.held s.stack).length + 1
      omega
    · simp only [Sections.setOwn, Function.update_of_ne hst]
      exact h.others st hst
  | spin p hp =>
    rw [after_other (fun e => by cases e) (fun e => by cases e)]
    refine h.keep hord h.saved (hb.replace rfl) ?_ rfl rfl h.monitor
    cases p with
    | want how l =>
      cases how with
      | irqsave flags => cases hp
      | _ => exact ⟨⟨rfl, hdisc, hg⟩, hn⟩
    | save l => exact ⟨hg, hn⟩
    | unlock l => exact ⟨⟨hg, hdisc⟩, hn⟩
    | unlockIrq l flags => exact ⟨⟨hg, hdisc⟩, hn⟩
    | _ => cases hp

theorem LockInv.step {a : MAct} (h : LockInv I s g) (hdisc : Disciplined I s g a) (hcount : DisableCounts b fuel s a)
    (hs : s.step b fuel a = .ok s') : LockInv I s' (g.after s a) := by
  have hord := h.ordered.step hs
  cases step_cases hs with
  | go ha _ =>
    subst ha
    exact h.go hcount hs
  | irq intid guardOk resumes redirect takes k ha hm hi he =>
    subst ha he
    rw [after_other (fun e => by cases e) (fun e => by cases e)]
    obtain ⟨honly, -, -, hred⟩ := irqHandlerEl1_only hi
    cases redirect with
    | false =>
      refine h.keep hord h.saved h.beneath ?_ rfl rfl (fun l hl => by cases hl)
      show TopGood I k.cpu.preemptCnt s.masked _ _ s.frames
      rw [honly.preemptCnt]
      exact h.top
    | true =>
      obtain ⟨-, hp, -⟩ := hred rfl
      refine h.covered hm (honly.preemptCnt.symm.trans hp) honly.preemptCnt (fun v c rest hf => ?_) hord
      unfold DisableCounts at hcount
      rw [hf] at hcount
      exact hcount (redirects_irq hi)
  | found w cur next rest ha hf he =>
    subst ha he
    rw [after_other (fun e => by cases e) (fun e => by cases e)]
    exact h.replace hord hf rfl (idle_good rfl) rfl (idle_calm rfl) rfl rfl rfl rfl rfl rfl rfl
  | meddled c k r fs rest _ hf hp _ _ =>
    -- in a call the counter is above 0
    obtain ⟨-, -, hn⟩ := h.head hf
    have hn : (s.k.cpu.preemptCnt : Int) = g.own s.stack + (g.held s.stack).length + 1 := hn
    omega
  | init m k r rest ha hf hbody he =>
    subst ha he
    rw [after_other (fun e => by cases e) (fun e => by cases e)]
    obtain ⟨-, hcnt⟩ := callBody_isSome (h.ordered.current hf (fun e => by cases e)) hbody
    exact h.replace hord hf rfl (fun hg => hg) rfl ⟨rfl, rfl⟩ rfl rfl hcnt rfl rfl rfl rfl
  | acts fs rest hf ha he =>
    subst he
    exact h.acts hdisc hf ha hord
  | compute fp rest ha hf he =>
    subst ha he
    rw [after_other (fun e => by cases e) (fun e => by cases e)]
    exact h.keep hord h.saved h.beneath h.top rfl rfl h.monitor

end Steps

/-! ## Runs -/

theorem lock_boot {b : Build} {fp : FpRegs} {I : LockId → Prop} {ts : List (ThreadId × Int)} {counts : SemId → Int} {s : Machine}
    (h : Machine.boot b fp ts counts = .ok s) : LockInv I s Sections.none := by
  have hord := ordered_boot h
  obtain ⟨k, hk, h⟩ := bind_ok.mp h
  cases h
  have hsingle : Deep (Frame.Calm I) [.own .user] := Deep.nil.cons ⟨rfl, rfl⟩ fun gs hgs => by cases hgs
  refine ⟨hord, fun _ => hsingle, ⟨(fun gs hgs => by cases hgs), .nil⟩, ⟨rfl, ?_⟩, fun _ _ => ⟨rfl, rfl⟩,
    ⟨List.nodup_nil, trivial, (fun x hx => by cases hx)⟩, fun _ => rfl, (fun _ hl => by cases hl)⟩
  show (k.cpu.preemptCnt : Int) = 0
  rw [spawns_cpu hk]
  rfl

theorem lock_run {b : Build} {I : LockId → Prop} {ts : List (ThreadId × Int)} {counts : SemId → Int} {s : Machine} {g : Sections}
    (h : LockRun b (DisableCounts b) I ts counts s g) : LockInv I s g := by
  induction h with
  | boot fp _ hb => exact lock_boot hb
  | step a fuel _ hdisc hcount hs ih => exact ih.step hdisc hcount hs

/-- A step of a run of lock calls. -/
theorem LockRun.next {b : Build} {I : LockId → Prop} {ts : List (ThreadId × Int)} {counts : SemId → Int} {s s' : Machine} {g : Sections}
    (h : LockRun b (fun _ _ _ => True) I ts counts s g) (a : MAct) (hdisc : Disciplined I s g a) (hs : s.step b 3 a = .ok s') :
    LockRun b (fun _ _ _ => True) I ts counts s' (g.after s a) := h.step a 3 hdisc trivial hs

end Microkernel

/-
  Microkernel.Preempt.Machine — the kernel with an interrupt between any two steps.

  The scheduler of src/thread.cc, src/preempt.cc and src/spinlock.cc are run statement by
  statement: a thread's control state is a list of frames, innermost first, on a stack,
  and `go` runs the next statement of the top frame. A counter or a lock word is loaded in
  one step and stored in another; `arch_switch(&cur->sp, next->sp)` is three steps: its
  argument is read, SP is stored, SP is replaced. What a switch stores in `Thread::sp` is
  the stack the CPU is on and the frames on it.

  Every other action is the running thread's own code (`call`, `disable`, `enable`,
  `yield`, `spin`, `compute`) or the timer: an IRQ at any step with IRQs unmasked runs
  `irq_handler_el1`, then the interrupted step, or `preempt_return` on top of it when the
  frame was redirected. When `preempt_return` is done the interrupted step is next
  (`Microkernel.Arch.IrqEntry` says when that is so), save in `preempt_disable`: x30 is
  its caller there, so that it is left without the store unless the interrupt `resumes`.
  The body of a lock or semaphore call is one step as long as `preempt_cnt` is raised: an
  IRQ in it does nothing but count. With preemption enabled it does anything (`meddled`),
  as does a search of the run queue that another thread ran in the middle of (`found`).
-/

import Microkernel.Calls.Steps

namespace Microkernel

abbrev LockId := Nat

/-! ## Stacks and frames -/

inductive Stack where
  | boot
  | thread (t : ThreadId)
  deriving DecidableEq, Repr

/-- The two functions that call `do_switch`. -/
inductive Switcher where
  | tail
  | yield
  deriving DecidableEq, Repr

/-- How a spinlock is taken; `spin_lock_irqsave` has saved the flags. -/
inductive Taking where
  | lock
  | trylock
  | irqsave (flags : Bool)
  deriving DecidableEq, Repr

/-- In the functions of src/spinlock.cc. -/
inductive SpinPc where
  /-- `spin_lock` and `spin_trylock` call `preempt_disable`. -/
  | want (how : Taking) (l : LockId)
  /-- `spin_lock_irqsave` calls `local_irq_save`. -/
  | save (l : LockId)
  /-- `ldaxr` and `stxr` of `raw_spin_trylock`, and its result -1. -/
  | load (how : Taking) (l : LockId)
  | store (how : Taking) (l : LockId)
  | failed (how : Taking) (l : LockId)
  /-- `while (l->v != 0)`. -/
  | wait (how : Taking) (l : LockId)
  /-- `spin_lock_irqsave` calls `preempt_disable`, and returns. -/
  | taken
  | locked
  /-- `spin_unlock`, `spin_unlock_irqrestore`, and its `local_irq_restore`. -/
  | unlock (l : LockId)
  | unlockIrq (l : LockId) (flags : Bool)
  | restore (flags : Bool)
  deriving DecidableEq, Repr

/-- Who has called `preempt_disable`: the thread's own code, a lock or semaphore call, a
    spinlock function. -/
inductive Caller where
  | user
  | call (c : Call)
  | spin (p : SpinPc)
  deriving DecidableEq, Repr

inductive Frame where
  /-- A thread's own code, between rounds of `mutex_lock`, or a call that returns. -/
  | own (c : Cont)
  /-- In a call, after `preempt_disable`. -/
  | inside (c : Call)
  | spin (p : SpinPc)
  /-- `preempt_disable` has loaded the counter. -/
  | disabling (v : Nat) (caller : Caller)
  /-- `preempt_enable`, it has loaded the counter, and it has stored it. -/
  | enable
  | enabling (v : Nat)
  | enabled
  | preemptReturn
  /-- `sched_resched_from_irq_tail` and `thread_yield`. -/
  | tail
  | yield
  /-- `cur` has been read; the candidate is searched. -/
  | pick (w : Switcher) (cur : Option ThreadId) (torn : Bool)
  | picked (w : Switcher) (cur next : Option ThreadId)
  /-- In `do_switch`: after `fpsimd_save`, after `cpu->current_thread = next`. -/
  | fpSaved (w : Switcher) (cur next : ThreadId)
  | switching (w : Switcher) (cur next : ThreadId)
  /-- In `arch_switch`: with `next->sp` in x1, and after the store of SP. -/
  | calling (w : Switcher) (cur : ThreadId) (stack : Stack) (frames : List Frame)
  | stored (w : Option Switcher) (stack : Stack) (frames : List Frame)
  /-- Back from `arch_switch`, and after `fpsimd_load`. -/
  | resumed (w : Switcher)
  | loaded (w : Switcher)
  /-- `sched_start`, and after `current_thread = cur`. -/
  | start
  | starting (cur : ThreadId)

/-- Behind `preempt_disable`. -/
def Caller.frame : Caller → Frame
  | .user => .own .user
  | .call c => .inside c
  | .spin p => .spin p

/-- What `Thread::sp` points to. -/
structure Ctx where
  stack : Stack
  frames : List Frame

/-- q0..q31, FPCR and FPSR. -/
structure FpRegs where
  q : Fin 32 → BitVec 128
  fpcr : BitVec 64
  fpsr : BitVec 64

def FpRegs.zero : FpRegs := ⟨fun _ => 0, 0, 0⟩

structure Machine where
  k : Kernel
  fp : FpRegs
  /-- `raw_spinlock::v`. -/
  word : LockId → Nat
  /-- The exclusive monitor of `ldaxr` and `stxr`. -/
  monitor : Option LockId
  /-- DAIF.I. -/
  masked : Bool
  stack : Stack
  frames : List Frame
  /-- `Thread::sp`. -/
  saved : ThreadId → Ctx
  /-- `fpsimd_vregs`, `fpcr`, `fpsr`; `none` while `fpsimd_valid` is 0. -/
  fpsimd : ThreadId → Option FpRegs

/-! ## Statements -/

/-- The candidate of `sched_resched_from_irq_tail` or `thread_yield`. -/
def candidate (b : Build) (fuel : Nat) (k : Kernel) : Switcher → Option ThreadId → Except Halt (Option ThreadId)
  | .tail, cur => tailPick b fuel k cur
  | .yield, some cur => yieldPick b fuel k cur
  | .yield, none => .ok none

namespace Machine

def fpsimdSave (s : Machine) : Machine :=
  match s.k.cpu.currentThread with
  | none => s
  | some t => { s with fpsimd := Function.update s.fpsimd t (some s.fp) }

def fpsimdLoad (s : Machine) : Machine :=
  match s.k.cpu.currentThread with
  | none => s
  | some t => { s with fp := (s.fpsimd t).getD FpRegs.zero }

/-- The end of the scheduler function: `sched_resched_from_irq_tail` clears `need_resched`. -/
def leave (s : Machine) (w : Switcher) (rest : List Frame) : Machine :=
  match w with
  | .tail => { s with k := s.k.setNeedResched kNeedReschedNone, frames := rest }
  | .yield => { s with frames := rest }

/-- The statement after the search: `do_switch` begins with `fpsimd_save`. -/
def afterPick (s : Machine) (w : Switcher) (cur next : Option ThreadId) (rest : List Frame) : Machine :=
  match cur, next with
  | some c, some n => if n = c then s.leave w rest else { s.fpsimdSave with frames := .fpSaved w c n :: rest }
  | _, _ => s.leave w rest

/-- `raw_spin_trylock` returned 0. -/
def got : Taking → Frame
  | .irqsave _ => .spin .taken
  | _ => .own .user

/-- It returned -1. -/
def missed : Taking → LockId → List Frame
  | .lock, l => [.enable, .spin (.wait .lock l)]
  | .trylock, _ => [.enable, .own .user]
  | .irqsave flags, l => [.spin (.wait (.irqsave flags) l)]

/-- The lock was seen free. -/
def again : Taking → LockId → SpinPc
  | .irqsave flags, l => .load (.irqsave flags) l
  | how, l => .want how l

def spin (s : Machine) (p : SpinPc) (rest : List Frame) : Machine :=
  match p with
  | .want how l => { s with frames := .disabling s.k.cpu.preemptCnt (.spin (.load how l)) :: rest }
  | .save l => { s with masked := true, frames := .spin (.load (.irqsave s.masked) l) :: rest }
  | .load how l =>
    if s.word l = 0 then { s with monitor := some l, frames := .spin (.store how l) :: rest }
    else { s with monitor := none, frames := .spin (.failed how l) :: rest }
  | .store how l =>
    if s.monitor = some l then { s with word := Function.update s.word l 1, monitor := none, frames := got how :: rest }
    else { s with monitor := none, frames := .spin (.failed how l) :: rest }
  | .failed how l => { s with frames := missed how l ++ rest }
  | .wait how l => { s with frames := .spin (if s.word l = 0 then again how l else .wait how l) :: rest }
  | .taken => { s with frames := .disabling s.k.cpu.preemptCnt (.spin .locked) :: rest }
  | .locked => { s with frames := .own .user :: rest }
  | .unlock l => { s with word := Function.update s.word l 0, frames := .enable :: .own .user :: rest }
  | .unlockIrq l flags => { s with word := Function.update s.word l 0, frames := .spin (.restore flags) :: rest }
  | .restore flags => { s with masked := flags, frames := .enable :: .own .user :: rest }

/-- The next statement of the top frame. -/
def go (b : Build) (fuel : Nat) (s : Machine) : Except Halt Machine :=
  match s.frames with
  | [] => .error .disabled
  | .own .user :: _ => .error .disabled
  | .own (.locking m) :: rest => .ok { s with frames := .disabling s.k.cpu.preemptCnt (.call (.mutexLock m)) :: rest }
  | .own (.returning _ _) :: rest => .ok { s with frames := .own .user :: rest }
  | .inside c :: rest =>
    if s.k.cpu.preemptCnt = 0 then .error .disabled
    else do
      let (k, r) ← callBody b fuel c s.k
      .ok { s with k := k, frames := .enable :: .own (r.cont c) :: rest }
  | .spin p :: rest => .ok (s.spin p rest)
  | .disabling v c :: rest => .ok { s with k := s.k.setPreemptCnt ((v + 1) % UInt32.size), frames := c.frame :: rest }
  | .enable :: rest =>
    if s.k.cpu.preemptCnt = 0 then .ok { s with frames := rest }
    else .ok { s with frames := .enabling s.k.cpu.preemptCnt :: rest }
  | .enabling v :: rest => .ok { s with k := s.k.setPreemptCnt (v - 1), frames := .enabled :: rest }
  | .enabled :: rest =>
    if s.k.cpu.preemptCnt = 0 ∧ s.k.cpu.needResched ≠ 0 ∧ s.k.cpu.irqDepth = 0 then .ok { s with frames := .tail :: rest }
    else .ok { s with frames := rest }
  | .preemptReturn :: rest =>
    if s.k.cpu.preemptCnt = 0 ∧ s.k.cpu.needResched ≠ 0 then .ok { s with frames := .tail :: rest }
    else .ok { s with frames := rest }
  | .tail :: rest =>
    if s.k.cpu.preemptCnt ≠ 0 then .ok { s with frames := rest }
    else .ok { s with frames := .pick .tail s.k.cpu.currentThread false :: rest }
  | .yield :: rest =>
    if s.k.cpu.preemptCnt ≠ 0 ∨ s.k.cpu.currentThread = none then .ok { s with frames := rest }
    else .ok { s with frames := .pick .yield s.k.cpu.currentThread false :: rest }
  | .pick w cur torn :: rest =>
    if torn then .error .disabled
    else do
      let next ← candidate b fuel s.k w cur
      .ok { s with frames := .picked w cur next :: rest }
  | .picked w cur next :: rest => .ok (s.afterPick w cur next rest)
  | .fpSaved w cur next :: rest => .ok { s with k := doSwitch next s.k, frames := .switching w cur next :: rest }
  | .switching w cur next :: rest =>
    .ok { s with frames := .calling w cur (s.saved next).stack (s.saved next).frames :: rest }
  | .calling w cur stack frames :: rest =>
    .ok { s with saved := Function.update s.saved cur ⟨s.stack, .resumed w :: rest⟩, frames := .stored (some w) stack frames :: rest }
  | .stored _ stack frames :: _ => .ok { s with stack := stack, frames := frames }
  | .resumed w :: rest => .ok { s.fpsimdLoad with frames := .loaded w :: rest }
  | .loaded w :: rest => .ok (s.leave w rest)
  | .start :: rest => do
    let k ← schedStart b fuel s.k
    match k.cpu.currentThread with
    | none => .error .noThreads
    | some c => .ok { s with k := k, frames := .starting c :: rest }
  | .starting cur :: rest => .ok { s with frames := .stored none (s.saved cur).stack (s.saved cur).frames :: rest }

/-- Where `preempt_return` goes back to: a search that is interrupted by a switch is torn,
    and `preempt_disable` is left if the thread goes on at x30. -/
def back (resumes : Bool) : List Frame → List Frame
  | .pick w cur _ :: rest => .pick w cur true :: rest
  | .disabling v c :: rest => (if resumes then .disabling v c else c.frame) :: rest
  | fs => fs

/-- An IRQ, up to the step after `eret`. The handler takes and releases the locks `takes`. -/
def irq (b : Build) (fuel intid : Nat) (guardOk resumes : Bool) (takes : List LockId) (s : Machine) : Except Halt Machine :=
  if s.masked then .error .disabled
  else if takes.any (fun l => s.word l ≠ 0) then .error .spin
  else do
    let (k, redirect) ← irqHandlerEl1 b fuel guardOk intid s.k
    .ok { s with k := k, monitor := none, frames := if redirect then .preemptReturn :: back resumes s.frames else s.frames }

/-- A call from a thread's own code; `mutex_init` alone runs with preemption enabled. -/
def enter (b : Build) (fuel : Nat) (c : Call) (rest : List Frame) (s : Machine) : Except Halt Machine :=
  match c with
  | .mutexInit m => do
    let (k, r) ← callBody b fuel (.mutexInit m) s.k
    .ok { s with k := k, frames := .own (r.cont (.mutexInit m)) :: rest }
  | c => .ok { s with frames := .disabling s.k.cpu.preemptCnt (.call c) :: rest }

end Machine

/-- The functions of src/spinlock.cc begin here. -/
def SpinPc.entry : SpinPc → Bool
  | .want .lock _ => true
  | .want .trylock _ => true
  | .save _ => true
  | .unlock _ => true
  | .unlockIrq _ _ => true
  | _ => false

inductive MAct where
  | go
  /-- A torn search ends with this thread. -/
  | found (next : Option ThreadId)
  /-- The body of a call with preemption enabled does something, or returns. -/
  | meddled (k : Kernel) (r : Option Ret)
  | irq (intid : Nat) (guardOk resumes : Bool) (takes : List LockId)
  | call (c : Call)
  | disable
  | enable
  | yield
  | spin (p : SpinPc)
  | compute (fp : FpRegs)

def Machine.step (b : Build) (fuel : Nat) (a : MAct) (s : Machine) : Except Halt Machine :=
  match a, s.frames with
  | .go, _ => s.go b fuel
  | .irq intid guardOk resumes takes, _ => s.irq b fuel intid guardOk resumes takes
  | .found next, .pick w cur true :: rest => .ok { s with frames := .picked w cur next :: rest }
  | .meddled k r, .inside c :: rest =>
    if s.k.cpu.preemptCnt = 0 then
      .ok { s with
        k := { k with cpu := { s.k.cpu with needResched := k.cpu.needResched } }
        frames := match r with | none => .inside c :: rest | some r => .enable :: .own (r.cont c) :: rest }
    else .error .disabled
  | .call c, .own .user :: rest => s.enter b fuel c rest
  | .disable, .own .user :: rest => .ok { s with frames := .disabling s.k.cpu.preemptCnt .user :: rest }
  | .enable, .own .user :: rest => .ok { s with frames := .enable :: .own .user :: rest }
  | .yield, .own .user :: rest => .ok { s with frames := .yield :: .own .user :: rest }
  | .spin p, .own .user :: rest => if p.entry then .ok { s with frames := .spin p :: rest } else .error .disabled
  | .compute fp, .own .user :: _ => .ok { s with fp := fp }
  | _, _ => .error .disabled

/-! ## Runs -/

/-- `thread_create_prio` gives a thread its own stack, `sched_start` is about to run; `fp` is
    what the code before it left in the registers. -/
def Machine.boot (b : Build) (fp : FpRegs) (ts : List (ThreadId × Int)) (counts : SemId → Int) : Except Halt Machine := do
  let k ← ts.foldlM spawn (bootKernel b counts)
  .ok { k := k
        fp := fp
        word := fun _ => 0
        monitor := none
        masked := false
        stack := .boot
        frames := [.start]
        saved := fun t => ⟨.thread t, [.own .user]⟩
        fpsimd := fun _ => none }

/-- The states reached from boot by steps that satisfy `ok`, which may look at the fuel a step
    is given. -/
inductive MRun (b : Build) (ok : Nat → Machine → MAct → Prop) (ts : List (ThreadId × Int)) (counts : SemId → Int) :
    Machine → Prop
  | boot {s : Machine} (fp : FpRegs) : (ts.map Prod.fst).Nodup → Machine.boot b fp ts counts = .ok s → MRun b ok ts counts s
  | step {s s' : Machine} (a : MAct) (fuel : Nat) : MRun b ok ts counts s → ok fuel s a → s.step b fuel a = .ok s' →
      MRun b ok ts counts s'

/-- The interrupt is followed by `preempt_return`. -/
def redirects (b : Build) (fuel : Nat) (s : Machine) : MAct → Bool
  | .irq intid guardOk _ _ => match irqHandlerEl1 b fuel guardOk intid s.k with | .ok (_, r) => r | .error _ => false
  | _ => false

/-- `preempt_disable` counts: its sum does not wrap around, and it is not left without the
    store. -/
def DisableCounts (b : Build) (fuel : Nat) (s : Machine) (a : MAct) : Prop :=
  match a, s.frames with
  | .go, .disabling v _ :: _ => v + 1 < UInt32.size
  | .irq _ _ resumes _, .disabling _ _ :: _ => redirects b fuel s a = true → resumes = true
  | _, _ => True

end Microkernel

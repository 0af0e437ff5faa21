/-
  Microkernel.Calls.System — threads that lock, unlock, wait and signal, each call atomic.

  `preempt_disable` … `preempt_enable` makes the body of a call one step; the switch at
  its end (`sched_resched_from_irq_tail`) is part of the step. Between calls a thread can
  yield or be interrupted by the timer. What a thread does next when it runs again is its
  `Cont`: its own code, another round of `mutex_lock`'s loop, or the return of a call.
  How it was switched out is its `Susp`: a thread suspended inside
  `sched_resched_from_irq_tail` clears `need_resched` first when it is switched in.
  Interrupts inside a scheduler function are `Microkernel.Preempt.Machine`'s subject.

  `entered`, `returned`, `ups` and `holds` are not kernel state: they record the calls
  of a run. `Run b ok ts counts s`: `s` is reached from boot with the threads `ts`
  (identifier and base priority) and the semaphores' `counts`, by steps that satisfy `ok`.
-/

import Microkernel.Kernel.Ownership

namespace Microkernel

inductive Call where
  | mutexInit (m : MutexId)
  | mutexLock (m : MutexId)
  | mutexTrylock (m : MutexId)
  | mutexUnlock (m : MutexId)
  | mutexSetPiEnabled (m : MutexId) (enabled : Bool)
  | semDown (s : SemId)
  | semUp (s : SemId)
  deriving DecidableEq, Repr

/-- How the body of a call ends: with a result, or in front of another round of
    `mutex_lock`'s loop. -/
inductive Ret where
  | value (r : Int)
  | again (m : MutexId)
  deriving DecidableEq, Repr

inductive Cont where
  | user
  | locking (m : MutexId)
  | returning (c : Call) (r : Int)
  deriving DecidableEq, Repr

inductive Susp where
  | fresh
  | yield
  | tail
  deriving DecidableEq, Repr

structure Sys where
  k : Kernel
  cont : ThreadId → Cont
  susp : ThreadId → Susp
  /-- `sem_down` calls entered, and returned; `sem_up` calls. -/
  entered : SemId → Nat
  returned : SemId → Nat
  ups : SemId → Nat
  /-- Locked or try-locked with success, and not unlocked since. -/
  holds : ThreadId → MutexId → Bool

/-! ## Calls -/

/-- What a call does between `preempt_disable` and `preempt_enable`. `mutex_init` is for
    mutexes nobody owns. -/
def callBody (b : Build) (fuel : Nat) (c : Call) (k : Kernel) : Except Halt (Kernel × Ret) :=
  match c with
  | .mutexInit m => if (k.mutexes m).owner = none then .ok (mutexInit b m k, .value 0) else .error .disabled
  | .mutexLock m => do
    let (k, got) ← mutexLockPass b fuel m k
    .ok (k, if got then .value 0 else .again m)
  | .mutexTrylock m => .ok ((mutexTrylock m k).1, .value (mutexTrylock m k).2)
  | .mutexUnlock m => do
    let k ← mutexUnlock b fuel m k
    .ok (k, .value 0)
  | .mutexSetPiEnabled m enabled => do
    let k ← mutexSetPiEnabled b fuel m enabled k
    .ok (k, .value 0)
  | .semDown s => do
    let (k, _) ← semDown fuel s k
    .ok (k, .value 0)
  | .semUp s => do
    let k ← semUp fuel s k
    .ok (k, .value 0)

/-- `mutex_init` alone runs with preemption enabled. -/
def callRun (b : Build) (fuel : Nat) (c : Call) (k : Kernel) : Except Halt (Kernel × Ret) :=
  match c with
  | .mutexInit m => callBody b fuel (.mutexInit m) k
  | c => do
    let (k, r) ← callBody b fuel c (preemptDisable k)
    let k ← preemptEnable b fuel k
    .ok (k, r)

def Ret.cont (c : Call) : Ret → Cont
  | .value r => .returning c r
  | .again m => .locking m

/-- Add one at `s`. -/
def bump (f : SemId → Nat) (s : SemId) : SemId → Nat := Function.update f s (f s + 1)

def setHolds (h : ThreadId → MutexId → Bool) (t : ThreadId) (m : MutexId) (v : Bool) : ThreadId → MutexId → Bool :=
  Function.update h t (Function.update (h t) m v)

def holdsAfter (h : ThreadId → MutexId → Bool) (t : ThreadId) : Call → Ret → ThreadId → MutexId → Bool
  | .mutexLock m, .value _ => setHolds h t m true
  | .mutexTrylock m, .value r => if r = 0 then setHolds h t m true else h
  | .mutexUnlock m, _ => setHolds h t m false
  | _, _ => h

/-! ## Steps -/

namespace Sys

/-- The run's record of a call by `cur`. -/
def record (s : Sys) (cur : ThreadId) (c : Call) (r : Ret) : Sys :=
  { s with
    cont := Function.update s.cont cur (r.cont c)
    entered := match c with | .semDown σ => bump s.entered σ | _ => s.entered
    ups := match c with | .semUp σ => bump s.ups σ | _ => s.ups
    holds := holdsAfter s.holds cur c r }

/-- The call `c` is back in `cur`'s code. -/
def finish (s : Sys) (cur : ThreadId) (c : Call) : Sys :=
  { s with
    cont := Function.update s.cont cur .user
    returned := match c with | .semDown σ => bump s.returned σ | _ => s.returned }

/-- The kernel state is `k` now; if `cur` was switched out for another thread, that one goes
    on where it was suspended. -/
def settle (s : Sys) (cur : ThreadId) (how : Susp) (k : Kernel) : Sys :=
  match k.cpu.currentThread with
  | none => { s with k := k }
  | some n =>
    if n = cur then { s with k := k }
    else
      { s with
        k := if s.susp n = .tail then k.setNeedResched kNeedReschedNone else k
        susp := Function.update s.susp cur how }

def enter (b : Build) (fuel : Nat) (cur : ThreadId) (c : Call) (s : Sys) : Except Halt Sys := do
  let (k, r) ← callRun b fuel c s.k
  .ok ((s.record cur c r).settle cur .tail k)

end Sys

/-- What runs after the handler: `preempt_return` if the frame was redirected to it. -/
def irqExit (b : Build) (fuel : Nat) (x : Kernel × Bool) : Except Halt Kernel :=
  if x.2 then preemptReturn b fuel x.1 else .ok x.1

inductive Act where
  | call (c : Call)
  | resume
  | yield
  | irq (intid : Nat) (guardOk : Bool)
  deriving DecidableEq, Repr

/-- A step of the running thread. -/
def Sys.step (b : Build) (fuel : Nat) (a : Act) (s : Sys) : Except Halt Sys :=
  match s.k.cpu.currentThread with
  | none => .error .disabled
  | some cur =>
    match a, s.cont cur with
    | .call c, .user => s.enter b fuel cur c
    | .resume, .locking m => s.enter b fuel cur (.mutexLock m)
    | .resume, .returning c _ => .ok (s.finish cur c)
    | .yield, .user => do
      let k ← threadYield b fuel s.k
      .ok (s.settle cur .yield k)
    | .irq intid guardOk, _ => do
      let x ← irqHandlerEl1 b fuel guardOk intid s.k
      let k ← irqExit b fuel x
      .ok (s.settle cur .tail k)
    | _, _ => .error .disabled

/-! ## Runs -/

/-- Zeroed memory in which every mutex and semaphore has been initialised. -/
def bootKernel (b : Build) (counts : SemId → Int) : Kernel :=
  schedInit { Kernel.zero with
    mutexes := fun m => (mutexInit b m Kernel.zero).mutexes m
    sems := fun s => (semInit s (counts s) Kernel.zero).sems s }

/-- `thread_create_prio` and `sched_add`. -/
def spawn (k : Kernel) (t : ThreadId × Int) : Except Halt Kernel :=
  schedAdd t.1 (k.setThread t.1 fun _ => threadCreatePrio t.2)

def boot (b : Build) (fuel : Nat) (ts : List (ThreadId × Int)) (counts : SemId → Int) : Except Halt Sys := do
  let k ← ts.foldlM spawn (bootKernel b counts)
  let k ← schedStart b fuel k
  .ok { k := k
        cont := fun _ => .user
        susp := fun _ => .fresh
        entered := fun _ => 0
        returned := fun _ => 0
        ups := fun _ => 0
        holds := fun _ _ => false }

/-- The states reached from boot by steps that satisfy `ok`. -/
inductive Run (b : Build) (ok : Sys → Act → Prop) (ts : List (ThreadId × Int)) (counts : SemId → Int) : Sys → Prop
  | boot {s : Sys} (fuel : Nat) : (ts.map Prod.fst).Nodup → boot b fuel ts counts = .ok s → Run b ok ts counts s
  | step {s s' : Sys} (a : Act) (fuel : Nat) : Run b ok ts counts s → ok s a → s.step b fuel a = .ok s' → Run b ok ts counts s'

/-! ## Who waits -/

/-- `t` has blocked in `mutex_lock` and not been handed the mutex, or in `sem_down` and not
    been woken. -/
def waitsFor (s : Sys) (t : ThreadId) : WaitObj → Prop
  | .mutex m => s.cont t = .locking m ∧ ownerOf s.k m ≠ some t
  | .sem σ => s.cont t = .returning (.semDown σ) 0 ∧ stateOf s.k t = .blocked

instance (s : Sys) (t : ThreadId) : (o : WaitObj) → Decidable (waitsFor s t o)
  | .mutex m => inferInstanceAs (Decidable (s.cont t = .locking m ∧ ownerOf s.k m ≠ some t))
  | .sem σ => inferInstanceAs (Decidable (s.cont t = .returning (.semDown σ) 0 ∧ stateOf s.k t = .blocked))

/-- The object a call puts its caller to sleep on. -/
def callBlocks (k : Kernel) (cur : ThreadId) : Call → Option WaitObj
  | .mutexLock m => if ownerOf k m = none ∨ ownerOf k m = some cur then none else some (.mutex m)
  | .semDown σ => if 0 ≤ (k.sems σ).count - 1 then none else some (.sem σ)
  | _ => none

/-- The object a step puts the running thread to sleep on. -/
def blocksOn (s : Sys) (a : Act) : Option WaitObj :=
  match s.k.cpu.currentThread with
  | none => none
  | some cur =>
    match a, s.cont cur with
    | .call c, .user => callBlocks s.k cur c
    | .resume, .locking m => callBlocks s.k cur (.mutexLock m)
    | _, _ => none

/-- Whenever a thread blocks, another one is READY. -/
def OtherReady (ts : List (ThreadId × Int)) (s : Sys) (a : Act) : Prop :=
  blocksOn s a ≠ none → ∃ t ∈ ts.map Prod.fst, s.k.cpu.currentThread ≠ some t ∧ isReady s.k t

/-- A thread only blocks on an object nobody waits for. -/
def QuietBlock (s : Sys) (a : Act) : Prop := ∀ o, blocksOn s a = some o → waitersOf s.k o = none

end Microkernel

/-
  Microkernel.Kernel.State — the kernel's data: `Thread` (include/thread.h), `mutex` and
  `semaphore` (include/sync.h), `cpu_local` (include/arch/cpu_local.h) and the run-queue
  globals of src/thread.cc.

  A pointer is an index into a table of objects, `none` is null. A priority is an
  `int` that `clamp_priority` has been applied to: every writer of
  `base_priority` and `effective_priority` clamps, so the range is part of the type.
  Fields no modelled function reads (`entry`, `arg`, `id`, the stack and FPSIMD areas)
  are left out; the saved stack pointer belongs to `Microkernel.Preempt.Machine`.

  A call either returns or does not: a loop that has not reached its end after `fuel`
  nodes (`spin`), a dereferenced null pointer (`fault`), the three `while (1) wfe`
  halts. `disabled` marks a step that is not available in a state.
-/

import Mathlib.Logic.Function.Basic
import Mathlib.Order.Basic

namespace Microkernel

abbrev ThreadId := Nat
abbrev MutexId := Nat
abbrev SemId := Nat

/-! ## Build configuration -/

/-- `SCHED_POLICY`. -/
inductive Policy where
  | rr
  | prio
  deriving DecidableEq, Repr

/-- The knobs of the Makefile the scheduler and the locks are compiled under. -/
structure Build where
  policy : Policy
  mutexPi : Bool
  lockdep : Bool
  deriving DecidableEq, Repr

/-- Why a call does not return. -/
inductive Halt where
  | spin
  | fault
  | lockdepPanic
  | stackOverflow
  | noThreads
  | disabled
  deriving DecidableEq, Repr

/-! ## Priorities -/

def kMaxPriority : Int := 31

def kDefaultPriority : Int := 10

def kQuantumTicks : Int := 5

/-- A clamped priority. -/
structure Priority where
  val : Int
  nonneg : 0 ≤ val
  le_max : val ≤ kMaxPriority
  deriving DecidableEq

def clampPriority (prio : Int) : Priority :=
  if h0 : prio < 0 then ⟨0, by decide, by decide⟩
  else if h1 : kMaxPriority < prio then ⟨kMaxPriority, by decide, by decide⟩
  else ⟨prio, by omega, by omega⟩

@[ext] theorem Priority.ext {p q : Priority} (h : p.val = q.val) : p = q := by
  cases p; cases q; cases h; rfl

@[simp] theorem clampPriority_val (p : Priority) : clampPriority p.val = p := by
  have h0 := p.nonneg
  have h1 := p.le_max
  unfold clampPriority
  rw [dif_neg (by omega), dif_neg (by omega)]

/-! ## Objects -/

inductive TState where
  | ready
  | blocked
  deriving DecidableEq, Repr

structure Thread where
  /-- The run queue's link. -/
  next : Option ThreadId
  budget : Int
  basePriority : Priority
  effectivePriority : Priority
  state : TState
  /-- The wait queues' link. -/
  waitNext : Option ThreadId
  waitingOn : Option MutexId
  ownedMutexes : Option MutexId
  deriving DecidableEq

structure Mutex where
  owner : Option ThreadId
  waiters : Option ThreadId
  /-- Link in `Thread::owned_mutexes`. -/
  ownerNext : Option MutexId
  piEnabled : Bool
  deriving DecidableEq

structure Semaphore where
  count : Int
  waiters : Option ThreadId
  deriving DecidableEq

structure CpuLocal where
  currentThread : Option ThreadId
  preemptCnt : Nat
  needResched : Nat
  ticks : Nat
  irqDepth : Nat
  deriving DecidableEq

structure Kernel where
  threads : ThreadId → Thread
  mutexes : MutexId → Mutex
  sems : SemId → Semaphore
  rqHead : Option ThreadId
  rqTail : Option ThreadId
  cpu : CpuLocal

/-- The fields `thread_create_prio` gives a new thread. -/
def threadCreatePrio (basePriority : Int) : Thread :=
  { next := none
    budget := kQuantumTicks
    basePriority := clampPriority basePriority
    effectivePriority := clampPriority basePriority
    state := .ready
    waitNext := none
    waitingOn := none
    ownedMutexes := none }

/-- Zeroed memory. -/
def Kernel.zero : Kernel :=
  { threads := fun _ => { threadCreatePrio 0 with budget := 0 }
    mutexes := fun _ => ⟨none, none, none, false⟩
    sems := fun _ => ⟨0, none⟩
    rqHead := none
    rqTail := none
    cpu := ⟨none, 0, 0, 0, 0⟩ }

def isReady (k : Kernel) (t : ThreadId) : Prop := (k.threads t).state = .ready

instance (k : Kernel) (t : ThreadId) : Decidable (isReady k t) :=
  inferInstanceAs (Decidable ((k.threads t).state = .ready))

/-! ## Field writes -/

namespace Kernel

/-- Rewrite one thread's record. -/
def setThread (k : Kernel) (t : ThreadId) (f : Thread → Thread) : Kernel :=
  { k with threads := Function.update k.threads t (f (k.threads t)) }

def setMutex (k : Kernel) (m : MutexId) (f : Mutex → Mutex) : Kernel :=
  { k with mutexes := Function.update k.mutexes m (f (k.mutexes m)) }

def setSem (k : Kernel) (s : SemId) (f : Semaphore → Semaphore) : Kernel :=
  { k with sems := Function.update k.sems s (f (k.sems s)) }

def setNeedResched (k : Kernel) (v : Nat) : Kernel := { k with cpu := { k.cpu with needResched := v } }

def setCurrent (k : Kernel) (t : Option ThreadId) : Kernel := { k with cpu := { k.cpu with currentThread := t } }

def setPreemptCnt (k : Kernel) (v : Nat) : Kernel := { k with cpu := { k.cpu with preemptCnt := v } }

section Fields

variable (k : Kernel) (t : ThreadId) (f : Thread → Thread) (m : MutexId) (g : Mutex → Mutex) (s : SemId)
  (e : Semaphore → Semaphore) (v : Nat) (c : Option ThreadId)

theorem setThread_threads (u : ThreadId) : (k.setThread t f).threads u = if u = t then f (k.threads t) else k.threads u := by
  simp [setThread, Function.update_apply]

theorem setMutex_mutexes (n : MutexId) : (k.setMutex m g).mutexes n = if n = m then g (k.mutexes m) else k.mutexes n := by
  simp [setMutex, Function.update_apply]

theorem setSem_sems (n : SemId) : (k.setSem s e).sems n = if n = s then e (k.sems s) else k.sems n := by
  simp [setSem, Function.update_apply]

@[simp] theorem setThread_same : (k.setThread t f).threads t = f (k.threads t) := by simp [setThread]
@[simp] theorem setThread_mutexes : (k.setThread t f).mutexes = k.mutexes := rfl
@[simp] theorem setThread_sems : (k.setThread t f).sems = k.sems := rfl
@[simp] theorem setThread_rqHead : (k.setThread t f).rqHead = k.rqHead := rfl
@[simp] theorem setThread_rqTail : (k.setThread t f).rqTail = k.rqTail := rfl
@[simp] theorem setThread_cpu : (k.setThread t f).cpu = k.cpu := rfl
@[simp] theorem setMutex_same : (k.setMutex m g).mutexes m = g (k.mutexes m) := by simp [setMutex]
@[simp] theorem setMutex_threads : (k.setMutex m g).threads = k.threads := rfl
@[simp] theorem setMutex_sems : (k.setMutex m g).sems = k.sems := rfl
@[simp] theorem setMutex_rqHead : (k.setMutex m g).rqHead = k.rqHead := rfl
@[simp] theorem setMutex_rqTail : (k.setMutex m g).rqTail = k.rqTail := rfl
@[simp] theorem setMutex_cpu : (k.setMutex m g).cpu = k.cpu := rfl
@[simp] theorem setSem_same : (k.setSem s e).sems s = e (k.sems s) := by simp [setSem]
@[simp] theorem setSem_threads : (k.setSem s e).threads = k.threads := rfl
@[simp] theorem setSem_mutexes : (k.setSem s e).mutexes = k.mutexes := rfl
@[simp] theorem setSem_rqHead : (k.setSem s e).rqHead = k.rqHead := rfl
@[simp] theorem setSem_rqTail : (k.setSem s e).rqTail = k.rqTail := rfl
@[simp] theorem setSem_cpu : (k.setSem s e).cpu = k.cpu := rfl
@[simp] theorem setNeedResched_threads : (k.setNeedResched v).threads = k.threads := rfl
@[simp] theorem setNeedResched_mutexes : (k.setNeedResched v).mutexes = k.mutexes := rfl
@[simp] theorem setNeedResched_sems : (k.setNeedResched v).sems = k.sems := rfl
@[simp] theorem setNeedResched_rqHead : (k.setNeedResched v).rqHead = k.rqHead := rfl
@[simp] theorem setNeedResched_rqTail : (k.setNeedResched v).rqTail = k.rqTail := rfl
@[simp] theorem setNeedResched_cpu : (k.setNeedResched v).cpu = { k.cpu with needResched := v } := rfl
@[simp] theorem setCurrent_threads : (k.setCurrent c).threads = k.threads := rfl
@[simp] theorem setCurrent_mutexes : (k.setCurrent c).mutexes = k.mutexes := rfl
@[simp] theorem setCurrent_sems : (k.setCurrent c).sems = k.sems := rfl
@[simp] theorem setCurrent_rqHead : (k.setCurrent c).rqHead = k.rqHead := rfl
@[simp] theorem setCurrent_rqTail : (k.setCurrent c).rqTail = k.rqTail := rfl
@[simp] theorem setCurrent_cpu : (k.setCurrent c).cpu = { k.cpu with currentThread := c } := rfl
@[simp] theorem setPreemptCnt_threads : (k.setPreemptCnt v).threads = k.threads := rfl
@[simp] theorem setPreemptCnt_mutexes : (k.setPreemptCnt v).mutexes = k.mutexes := rfl
@[simp] theorem setPreemptCnt_sems : (k.setPreemptCnt v).sems = k.sems := rfl
@[simp] theorem setPreemptCnt_rqHead : (k.setPreemptCnt v).rqHead = k.rqHead := rfl
@[simp] theorem setPreemptCnt_rqTail : (k.setPreemptCnt v).rqTail = k.rqTail := rfl
@[simp] theorem setPreemptCnt_cpu : (k.setPreemptCnt v).cpu = { k.cpu with preemptCnt := v } := rfl

end Fields

/-- A field that `f` does not write keeps its value in every record. -/
theorem setThread_field {β : Type*} (k : Kernel) (t : ThreadId) (f : Thread → Thread) (p : Thread → β)
    (h : p (f (k.threads t)) = p (k.threads t)) (u : ThreadId) : p ((k.setThread t f).threads u) = p (k.threads u) := by
  rw [setThread_threads]
  split
  · subst u; exact h
  · rfl

end Kernel

/-! ## Calls in sequence -/

theorem bind_ok {α β : Type} {x : Except Halt α} {f : α → Except Halt β} {r : β} :
    (x >>= f) = .ok r ↔ ∃ a, x = .ok a ∧ f a = .ok r := by
  cases x with
  | error e => simp [bind, Except.bind]
  | ok a => simp [bind, Except.bind]

end Microkernel

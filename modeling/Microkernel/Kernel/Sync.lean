/-
  Microkernel.Kernel.Sync — src/sync.cc: wait queues, mutexes with priority inheritance,
  counting semaphores.

  Each entry point runs between `preempt_disable` and `preempt_enable`; the operations
  here are what happens in between, on the kernel state. `mutexLockPass` is one round of
  `mutex_lock`'s loop: it says whether the mutex was acquired or the caller was blocked.
  Pointer arguments are non-null, and `cpu_local()` is set up.
-/

import Microkernel.Kernel.SchedProofs

namespace Microkernel

open Linked

def waitNextOf (k : Kernel) (t : ThreadId) : Option ThreadId := (k.threads t).waitNext

def setWaitNext (k : Kernel) (t : ThreadId) (n : Option ThreadId) : Kernel :=
  k.setThread t fun x => { x with waitNext := n }

def ownerNextOf (k : Kernel) (m : MutexId) : Option MutexId := (k.mutexes m).ownerNext

def setOwnerNext (k : Kernel) (m : MutexId) (n : Option MutexId) : Kernel :=
  k.setMutex m fun x => { x with ownerNext := n }

def setOwned (k : Kernel) (t : ThreadId) (m : Option MutexId) : Kernel :=
  k.setThread t fun x => { x with ownedMutexes := m }

def setWaitingOn (k : Kernel) (t : ThreadId) (m : Option MutexId) : Kernel :=
  k.setThread t fun x => { x with waitingOn := m }

def setOwner (k : Kernel) (m : MutexId) (t : Option ThreadId) : Kernel := k.setMutex m fun x => { x with owner := t }

def setWaiters (k : Kernel) (m : MutexId) (t : Option ThreadId) : Kernel :=
  k.setMutex m fun x => { x with waiters := t }

/-! ## lockdep -/

/-- `lockdep_would_deadlock`'s walk, at most `depth` more owners. -/
def lockdepWalk (k : Kernel) (cur : ThreadId) : Nat → Option ThreadId → Bool
  | 0, _ => false
  | _ + 1, none => false
  | depth + 1, some owner =>
    if owner = cur then true
    else
      match (k.threads owner).waitingOn with
      | none => false
      | some wait => lockdepWalk k cur depth (k.mutexes wait).owner

def lockdepWouldDeadlock (k : Kernel) (cur : ThreadId) (m : MutexId) : Bool :=
  lockdepWalk k cur 16 (k.mutexes m).owner

/-! ## Wait queues -/

/-- The locals of `waitq_pop_highest`'s loop. -/
structure Scan where
  prev : Option ThreadId
  best : ThreadId
  bestPrev : Option ThreadId
  bestPrio : Int

/-- One round of that loop. -/
def scanVisit (k : Kernel) (s : Scan) (t : ThreadId) : Scan :=
  if effPrio k t > s.bestPrio then ⟨some t, t, s.prev, effPrio k t⟩ else { s with prev := some t }

/-- Returns the new head and the thread taken out. -/
def waitqPopHighest (fuel : Nat) (head : Option ThreadId) (k : Kernel) :
    Except Halt (Kernel × Option ThreadId × Option ThreadId) :=
  match head with
  | none => .ok (k, none, none)
  | some hd => do
    let s ← orSpin (chainFold (waitNextOf k) (fun s t => some (scanVisit k s t)) fuel head ⟨none, hd, none, effPrio k hd⟩)
    match s.bestPrev with
    | some bp => .ok (setWaitNext (setWaitNext k bp (waitNextOf k s.best)) s.best none, head, some s.best)
    | none => .ok (setWaitNext k s.best none, waitNextOf k s.best, some s.best)

def waitqMaxPriority (fuel : Nat) (head : Option ThreadId) (k : Kernel) : Option Int :=
  chainFold (waitNextOf k) (fun best t => some (if effPrio k t > best then effPrio k t else best)) fuel head (-1)

/-! ## The owner's list and its priority -/

def threadOwnedMutexAdd (t : ThreadId) (m : MutexId) (k : Kernel) : Kernel :=
  setOwned (setOwnerNext k m (k.threads t).ownedMutexes) t (some m)

def threadOwnedMutexRemove (fuel : Nat) (t : ThreadId) (m : MutexId) (k : Kernel) : Except Halt Kernel := do
  match ← orSpin (chainFindPrev (ownerNextOf k) m fuel none (k.threads t).ownedMutexes) with
  | none => .ok k
  | some (some prev) => .ok (setOwnerNext (setOwnerNext k prev (ownerNextOf k m)) m none)
  | some none => .ok (setOwnerNext (setOwned k t (ownerNextOf k m)) m none)

/-- `thread_set_effective_priority`. -/
def threadSetEffectivePriority (t : ThreadId) (prio : Int) (k : Kernel) : Kernel :=
  let p := clampPriority prio
  let base := (k.threads t).basePriority
  k.setThread t fun x => { x with effectivePriority := if p.val < base.val then base else p }

/-- One round of `recompute_effective_priority`'s loop. -/
def donation (fuel : Nat) (k : Kernel) (eff : Int) (m : MutexId) : Option Int :=
  if (k.mutexes m).piEnabled then
    (waitqMaxPriority fuel (k.mutexes m).waiters k).map fun w => if w > eff then w else eff
  else some eff

/-- The `eff` of `recompute_effective_priority`. -/
def inheritedPriority (b : Build) (fuel : Nat) (t : ThreadId) (k : Kernel) : Except Halt Int :=
  let base := (k.threads t).basePriority.val
  if b.mutexPi then orSpin (chainFold (ownerNextOf k) (donation fuel k) fuel (k.threads t).ownedMutexes base)
  else .ok base

def recomputeEffectivePriority (b : Build) (fuel : Nat) (t : ThreadId) (k : Kernel) : Except Halt Kernel := do
  let eff ← inheritedPriority b fuel t k
  .ok (threadSetEffectivePriority t eff k)

def mutexApplyPi (b : Build) (fuel : Nat) (m : MutexId) (k : Kernel) : Except Halt Kernel :=
  if !(k.mutexes m).piEnabled then .ok k
  else
    match (k.mutexes m).owner with
    | none => .ok k
    | some o => recomputeEffectivePriority b fuel o k

/-! ## Mutexes -/

def mutexInit (b : Build) (m : MutexId) (k : Kernel) : Kernel :=
  k.setMutex m fun _ => { owner := none, waiters := none, ownerNext := none, piEnabled := b.mutexPi }

def mutexSetPiEnabled (b : Build) (fuel : Nat) (m : MutexId) (enabled : Bool) (k : Kernel) : Except Halt Kernel :=
  let k := k.setMutex m fun x => { x with piEnabled := enabled }
  match (k.mutexes m).owner with
  | none => .ok k
  | some o => recomputeEffectivePriority b fuel o k

/-- Taking a free mutex. -/
def acquire (cur : ThreadId) (m : MutexId) (k : Kernel) : Kernel :=
  setWaitingOn (threadOwnedMutexAdd cur m (setOwner k m (some cur))) cur none

/-- `cur->waiting_on = m; cur->wait_next = m->waiters; m->waiters = cur`. -/
def enqueue (cur : ThreadId) (m : MutexId) (k : Kernel) : Kernel :=
  setWaiters (setWaitNext (setWaitingOn k cur (some m)) cur (k.mutexes m).waiters) m (some cur)

/-- One round of `mutex_lock`; `true` when it returns, `false` when the caller blocked. -/
def mutexLockPass (b : Build) (fuel : Nat) (m : MutexId) (k : Kernel) : Except Halt (Kernel × Bool) :=
  match k.cpu.currentThread with
  | none => .ok (k, true)
  | some cur =>
    if (k.mutexes m).owner = some cur then .ok (setWaitingOn k cur none, true)
    else if (k.mutexes m).owner = none then .ok (acquire cur m k, true)
    else if b.lockdep && lockdepWouldDeadlock k cur m then .error .lockdepPanic
    else do
      let k ← mutexApplyPi b fuel m (enqueue cur m k)
      let k ← schedBlockCurrent fuel k
      .ok (k.setNeedResched kNeedReschedNormal, false)

/-- The result is `mutex_trylock`'s. -/
def mutexTrylock (m : MutexId) (k : Kernel) : Kernel × Int :=
  match k.cpu.currentThread with
  | none => (k, -1)
  | some cur =>
    if (k.mutexes m).owner = none then (acquire cur m k, 0)
    else if (k.mutexes m).owner = some cur then (setWaitingOn k cur none, 0)
    else (k, -1)

/-- Handing `m` over to the waiter `next`. -/
def handover (b : Build) (fuel : Nat) (m : MutexId) (next : ThreadId) (k : Kernel) : Except Halt Kernel := do
  let k := threadOwnedMutexAdd next m (setWaitingOn (setOwner k m (some next)) next none)
  let k ← schedMakeRunnable next k
  mutexApplyPi b fuel m k

/-- `if (… prio(t) > prio(cur)) cpu->need_resched = 1`. -/
def requestIfAbove (t cur : ThreadId) (k : Kernel) : Kernel :=
  if effPrio k t > effPrio k cur then k.setNeedResched kNeedReschedNormal else k

def mutexUnlock (b : Build) (fuel : Nat) (m : MutexId) (k : Kernel) : Except Halt Kernel :=
  match k.cpu.currentThread with
  | none => .ok k
  | some cur =>
    if (k.mutexes m).owner ≠ some cur then .ok k
    else do
      let k ← threadOwnedMutexRemove fuel cur m k
      let (k, head, nextOwner) ← waitqPopHighest fuel (k.mutexes m).waiters k
      let k := setWaiters k m head
      match nextOwner with
      | some next => do
        let k ← handover b fuel m next k
        let k ← recomputeEffectivePriority b fuel cur k
        .ok (requestIfAbove next cur k)
      | none => recomputeEffectivePriority b fuel cur (setOwner k m none)

/-! ## Semaphores -/

def semInit (s : SemId) (initialCount : Int) (k : Kernel) : Kernel :=
  k.setSem s fun _ => { count := initialCount, waiters := none }

def setCount (k : Kernel) (s : SemId) (n : Int) : Kernel := k.setSem s fun x => { x with count := n }

/-- `true` when the caller blocked. -/
def semDown (fuel : Nat) (s : SemId) (k : Kernel) : Except Halt (Kernel × Bool) :=
  let k := setCount k s ((k.sems s).count - 1)
  if 0 ≤ (k.sems s).count then .ok (k, false)
  else
    match k.cpu.currentThread with
    | none => .ok (k, false)
    | some cur => do
      let k := setWaitNext (setWaitingOn k cur none) cur (k.sems s).waiters
      let k := k.setSem s fun x => { x with waiters := some cur }
      let k ← schedBlockCurrent fuel k
      .ok (k.setNeedResched kNeedReschedNormal, true)

def semUp (fuel : Nat) (s : SemId) (k : Kernel) : Except Halt Kernel :=
  let k := setCount k s ((k.sems s).count + 1)
  if 0 < (k.sems s).count then .ok k
  else do
    let (k, head, t) ← waitqPopHighest fuel (k.sems s).waiters k
    let k := k.setSem s fun x => { x with waiters := head }
    match t with
    | none => .ok k
    | some t => do
      let k ← schedMakeRunnable t k
      match k.cpu.currentThread with
      | none => .ok k
      | some cur => .ok (requestIfAbove t cur k)

end Microkernel

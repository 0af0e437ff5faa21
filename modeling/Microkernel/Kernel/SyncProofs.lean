/-
  Microkernel.Kernel.SyncProofs — what the operations of `Microkernel.Kernel.Sync` do.

  The state they work on falls into three parts: who owns what (`owner`, `owner_next`,
  `owned_mutexes`), who waits for what (`state`, `wait_next`, `waiters`, `count`), and
  priorities. `SameOwn`, `SameWait` and `SamePrio` say that a part is unchanged; most
  writes touch one part only, and the scheduler none.

  Proved: `waitq_pop_highest` takes out the first waiter of maximal priority and keeps
  the order of the others (`waitqPopHighest_spec`); `recompute_effective_priority` sets
  the maximum of the base priority and the priorities queued on the owned mutexes
  (`recompute_spec`).
-/

import Mathlib.Order.Bounds.Basic
import Microkernel.Kernel.Sync

namespace Microkernel

open Linked

/-! ## The three parts of the state -/

inductive WaitObj where
  | mutex (m : MutexId)
  | sem (s : SemId)
  deriving DecidableEq, Repr

def waitersOf (k : Kernel) : WaitObj → Option ThreadId
  | .mutex m => (k.mutexes m).waiters
  | .sem s => (k.sems s).waiters

def ownedOf (k : Kernel) (t : ThreadId) : Option MutexId := (k.threads t).ownedMutexes

def ownerOf (k : Kernel) (m : MutexId) : Option ThreadId := (k.mutexes m).owner

def stateOf (k : Kernel) (t : ThreadId) : TState := (k.threads t).state

def basePrio (k : Kernel) (t : ThreadId) : Int := (k.threads t).basePriority.val

structure SameOwn (k k' : Kernel) : Prop where
  owned : ∀ t, ownedOf k' t = ownedOf k t
  owner : ∀ m, ownerOf k' m = ownerOf k m
  ownerNext : ∀ m, ownerNextOf k' m = ownerNextOf k m

structure SameWait (k k' : Kernel) : Prop where
  state : ∀ t, stateOf k' t = stateOf k t
  waitNext : ∀ t, waitNextOf k' t = waitNextOf k t
  waiters : ∀ o, waitersOf k' o = waitersOf k o
  count : ∀ s, (k'.sems s).count = (k.sems s).count

structure SamePrio (k k' : Kernel) : Prop where
  base : ∀ t, basePrio k' t = basePrio k t
  eff : ∀ t, effPrio k' t = effPrio k t
  pi : ∀ m, (k'.mutexes m).piEnabled = (k.mutexes m).piEnabled

/-- The run queue and `cpu_local` are unchanged. -/
structure SameRun (k k' : Kernel) : Prop where
  next : ∀ t, nextOf k' t = nextOf k t
  rqHead : k'.rqHead = k.rqHead
  rqTail : k'.rqTail = k.rqTail
  cpu : k'.cpu = k.cpu

section Frames

variable {a b c : Kernel}

theorem SameRun.refl (k : Kernel) : SameRun k k := ⟨fun _ => rfl, rfl, rfl, rfl⟩

theorem SameRun.trans (h1 : SameRun a b) (h2 : SameRun b c) : SameRun a c :=
  ⟨fun t => (h2.next t).trans (h1.next t), h2.rqHead.trans h1.rqHead, h2.rqTail.trans h1.rqTail, h2.cpu.trans h1.cpu⟩

theorem SameRun.runQueue (h : SameRun a b) (hs : ∀ t, stateOf b t = stateOf a t) {ts l : List ThreadId}
    (hq : RunQueue a ts l) : RunQueue b ts l := hq.congr h.next hs h.rqHead h.rqTail

theorem SameOwn.refl (k : Kernel) : SameOwn k k := ⟨fun _ => rfl, fun _ => rfl, fun _ => rfl⟩

theorem SameOwn.trans (h1 : SameOwn a b) (h2 : SameOwn b c) : SameOwn a c :=
  ⟨fun t => (h2.owned t).trans (h1.owned t), fun m => (h2.owner m).trans (h1.owner m),
    fun m => (h2.ownerNext m).trans (h1.ownerNext m)⟩

theorem SameWait.refl (k : Kernel) : SameWait k k := ⟨fun _ => rfl, fun _ => rfl, fun _ => rfl, fun _ => rfl⟩

theorem SameWait.trans (h1 : SameWait a b) (h2 : SameWait b c) : SameWait a c :=
  ⟨fun t => (h2.state t).trans (h1.state t), fun t => (h2.waitNext t).trans (h1.waitNext t),
    fun o => (h2.waiters o).trans (h1.waiters o), fun s => (h2.count s).trans (h1.count s)⟩

theorem SameWait.symm (h : SameWait a b) : SameWait b a :=
  ⟨fun t => (h.state t).symm, fun t => (h.waitNext t).symm, fun o => (h.waiters o).symm, fun s => (h.count s).symm⟩

theorem SamePrio.refl (k : Kernel) : SamePrio k k := ⟨fun _ => rfl, fun _ => rfl, fun _ => rfl⟩

theorem SamePrio.trans (h1 : SamePrio a b) (h2 : SamePrio b c) : SamePrio a c :=
  ⟨fun t => (h2.base t).trans (h1.base t), fun t => (h2.eff t).trans (h1.eff t), fun m => (h2.pi m).trans (h1.pi m)⟩

theorem SameWait.ready (h : SameWait a b) (t : ThreadId) : isReady b t ↔ isReady a t := by
  have hs : (b.threads t).state = (a.threads t).state := h.state t
  unfold isReady
  rw [hs]

end Frames

/-- All three parts are unchanged. -/
structure SameSync (k k' : Kernel) : Prop where
  own : SameOwn k k'
  wait : SameWait k k'
  prio : SamePrio k k'

theorem SameSync.refl (k : Kernel) : SameSync k k := ⟨SameOwn.refl k, SameWait.refl k, SamePrio.refl k⟩

theorem SameSync.trans {a b c : Kernel} (h1 : SameSync a b) (h2 : SameSync b c) : SameSync a c :=
  ⟨h1.own.trans h2.own, h1.wait.trans h2.wait, h1.prio.trans h2.prio⟩

/-- The fields of `Thread` that locks and semaphores use. -/
structure SameThread (x y : Thread) : Prop where
  base : y.basePriority = x.basePriority
  eff : y.effectivePriority = x.effectivePriority
  state : y.state = x.state
  waitNext : y.waitNext = x.waitNext
  owned : y.ownedMutexes = x.ownedMutexes

theorem SameSync.of_threads {k k' : Kernel} (h : ∀ t, SameThread (k.threads t) (k'.threads t))
    (hm : k'.mutexes = k.mutexes) (hs : k'.sems = k.sems) : SameSync k k' := by
  refine ⟨⟨fun t => (h t).owned, fun m => ?_, fun m => ?_⟩, ⟨fun t => (h t).state, fun t => (h t).waitNext, fun o => ?_, fun s => ?_⟩,
    ⟨fun t => ?_, fun t => ?_, fun m => ?_⟩⟩
  · simp only [ownerOf, hm]
  · simp only [ownerNextOf, hm]
  · cases o <;> simp only [waitersOf, hm, hs]
  · rw [hs]
  · simp only [basePrio, (h t).base]
  · simp only [effPrio, (h t).eff]
  · rw [hm]

/-- The run queue's links are none of the three parts. -/
theorem RqOnly.sameSync {k k' : Kernel} (h : RqOnly k k') : SameSync k k' := by
  refine SameSync.of_threads (fun t => ?_) h.mutexes h.sems
  obtain ⟨n, e⟩ := h.threads t
  rw [e]
  exact ⟨rfl, rfl, rfl, rfl, rfl⟩

theorem SchedOnly.sameSync {k k' : Kernel} (h : SchedOnly k k') : SameSync k k' := by
  refine SameSync.of_threads (fun t => ?_) h.mutexes h.sems
  obtain ⟨n, e⟩ := h.threads t
  rw [e]
  exact ⟨rfl, rfl, rfl, rfl, rfl⟩

/-- A write to `cpu_local`. -/
theorem SameSync.of_eq {k k' : Kernel} (ht : k'.threads = k.threads) (hm : k'.mutexes = k.mutexes)
    (hs : k'.sems = k.sems) : SameSync k k' :=
  SameSync.of_threads (fun t => by rw [ht]; exact ⟨rfl, rfl, rfl, rfl, rfl⟩) hm hs

theorem SameSync.setNeedResched (k : Kernel) (v : Nat) : SameSync k (k.setNeedResched v) := SameSync.of_eq rfl rfl rfl

theorem SameSync.setPreemptCnt (k : Kernel) (v : Nat) : SameSync k (k.setPreemptCnt v) := SameSync.of_eq rfl rfl rfl

/-! ## Which part a write touches -/

section Writes

variable (k : Kernel) (t : ThreadId) (m : MutexId)

theorem SameRun.setThread {f : Thread → Thread} (hf : ∀ x, (f x).next = x.next) : SameRun k (k.setThread t f) :=
  ⟨Kernel.setThread_field k t f (·.next) (hf _), rfl, rfl, rfl⟩

theorem SameRun.setMutex (f : Mutex → Mutex) : SameRun k (k.setMutex m f) := ⟨fun _ => rfl, rfl, rfl, rfl⟩

theorem SameRun.setSem (s : SemId) (f : Semaphore → Semaphore) : SameRun k (k.setSem s f) := ⟨fun _ => rfl, rfl, rfl, rfl⟩

theorem SameOwn.setThread {f : Thread → Thread} (hf : ∀ x, (f x).ownedMutexes = x.ownedMutexes) :
    SameOwn k (k.setThread t f) :=
  ⟨Kernel.setThread_field k t f (·.ownedMutexes) (hf _), fun _ => rfl, fun _ => rfl⟩

theorem SameWait.setThread {f : Thread → Thread} (hs : ∀ x, (f x).state = x.state) (hw : ∀ x, (f x).waitNext = x.waitNext) :
    SameWait k (k.setThread t f) := by
  refine ⟨Kernel.setThread_field k t f (·.state) (hs _), Kernel.setThread_field k t f (·.waitNext) (hw _), fun o => ?_,
    fun _ => rfl⟩
  cases o <;> rfl

theorem SamePrio.setThread {f : Thread → Thread} (hb : ∀ x, (f x).basePriority = x.basePriority)
    (he : ∀ x, (f x).effectivePriority = x.effectivePriority) : SamePrio k (k.setThread t f) :=
  ⟨Kernel.setThread_field k t f (·.basePriority.val) (by rw [hb]),
    Kernel.setThread_field k t f (·.effectivePriority.val) (by rw [he]), fun _ => rfl⟩

theorem setMutex_field {β : Type*} (f : Mutex → Mutex) (p : Mutex → β) (h : p (f (k.mutexes m)) = p (k.mutexes m))
    (n : MutexId) : p ((k.setMutex m f).mutexes n) = p (k.mutexes n) := by
  rw [Kernel.setMutex_mutexes]
  split
  · subst n
    exact h
  · rfl

theorem SameOwn.setMutex {f : Mutex → Mutex} (ho : ∀ x, (f x).owner = x.owner) (hn : ∀ x, (f x).ownerNext = x.ownerNext) :
    SameOwn k (k.setMutex m f) :=
  ⟨fun _ => rfl, setMutex_field k m f (·.owner) (ho _), setMutex_field k m f (·.ownerNext) (hn _)⟩

theorem SameWait.setMutex {f : Mutex → Mutex} (hw : ∀ x, (f x).waiters = x.waiters) : SameWait k (k.setMutex m f) := by
  refine ⟨fun _ => rfl, fun _ => rfl, fun o => ?_, fun _ => rfl⟩
  cases o with
  | mutex n => exact setMutex_field k m f (·.waiters) (hw _) n
  | sem s => rfl

theorem SamePrio.setMutex {f : Mutex → Mutex} (hp : ∀ x, (f x).piEnabled = x.piEnabled) : SamePrio k (k.setMutex m f) :=
  ⟨fun _ => rfl, fun _ => rfl, setMutex_field k m f (·.piEnabled) (hp _)⟩

theorem SameOwn.setSem (s : SemId) (f : Semaphore → Semaphore) : SameOwn k (k.setSem s f) :=
  ⟨fun _ => rfl, fun _ => rfl, fun _ => rfl⟩

theorem SamePrio.setSem (s : SemId) (f : Semaphore → Semaphore) : SamePrio k (k.setSem s f) :=
  ⟨fun _ => rfl, fun _ => rfl, fun _ => rfl⟩

theorem setWaitingOn_sameSync (n : Option MutexId) : SameSync k (setWaitingOn k t n) :=
  ⟨SameOwn.setThread k t fun _ => rfl, SameWait.setThread k t (fun _ => rfl) fun _ => rfl,
    SamePrio.setThread k t (fun _ => rfl) fun _ => rfl⟩

theorem waitNextOf_setWaitNext (n : Option ThreadId) (u : ThreadId) :
    waitNextOf (setWaitNext k t n) u = if u = t then n else waitNextOf k u := by
  unfold waitNextOf setWaitNext
  rw [Kernel.setThread_threads]
  split <;> rfl

theorem setWaitingOn_run (n : Option MutexId) : SameRun k (setWaitingOn k t n) := SameRun.setThread k t fun _ => rfl

theorem setWaitNext_run (n : Option ThreadId) : SameRun k (setWaitNext k t n) := SameRun.setThread k t fun _ => rfl

theorem setWaitNext_own (n : Option ThreadId) : SameOwn k (setWaitNext k t n) := SameOwn.setThread k t fun _ => rfl

theorem setWaitNext_prio (n : Option ThreadId) : SamePrio k (setWaitNext k t n) :=
  SamePrio.setThread k t (fun _ => rfl) fun _ => rfl

theorem setWaiters_run (n : Option ThreadId) : SameRun k (setWaiters k m n) := SameRun.setMutex k m _

theorem setWaiters_own (n : Option ThreadId) : SameOwn k (setWaiters k m n) :=
  SameOwn.setMutex k m (fun _ => rfl) fun _ => rfl

theorem setWaiters_prio (n : Option ThreadId) : SamePrio k (setWaiters k m n) := SamePrio.setMutex k m fun _ => rfl

theorem waitersOf_setWaiters (n : Option ThreadId) (o : WaitObj) :
    waitersOf (setWaiters k m n) o = if o = .mutex m then n else waitersOf k o := by
  cases o with
  | mutex p =>
    simp only [waitersOf, setWaiters, Kernel.setMutex_mutexes, WaitObj.mutex.injEq]
    split <;> rfl
  | sem s => rfl

theorem setOwner_wait (n : Option ThreadId) : SameWait k (setOwner k m n) := SameWait.setMutex k m fun _ => rfl

theorem setOwner_prio (n : Option ThreadId) : SamePrio k (setOwner k m n) := SamePrio.setMutex k m fun _ => rfl

theorem ownerOf_setOwner (n : Option ThreadId) (p : MutexId) :
    ownerOf (setOwner k m n) p = if p = m then n else ownerOf k p := by
  simp only [ownerOf, setOwner, Kernel.setMutex_mutexes]
  split <;> rfl

theorem ownerNextOf_setOwnerNext (n : Option MutexId) (p : MutexId) :
    ownerNextOf (setOwnerNext k m n) p = if p = m then n else ownerNextOf k p := by
  simp only [ownerNextOf, setOwnerNext, Kernel.setMutex_mutexes]
  split <;> rfl

theorem ownedOf_setOwned (n : Option MutexId) (u : ThreadId) :
    ownedOf (setOwned k t n) u = if u = t then n else ownedOf k u := by
  simp only [ownedOf, setOwned, Kernel.setThread_threads]
  split <;> rfl

end Writes

/-! ## Wait queues -/

/-- The loop of `waitq_pop_highest` after the nodes `pre`. -/
structure ScanAt (k : Kernel) (pre : List ThreadId) (s : Scan) : Prop where
  prev : s.prev = pre.getLast?
  prio : s.bestPrio = effPrio k s.best
  split : ∃ l₁ l₂, pre = l₁ ++ s.best :: l₂ ∧ s.bestPrev = l₁.getLast? ∧
    (∀ u ∈ l₁, effPrio k u < effPrio k s.best) ∧ ∀ u ∈ l₂, effPrio k u ≤ effPrio k s.best

theorem ScanAt.visit {k : Kernel} {pre : List ThreadId} {s : Scan} (h : ScanAt k pre s) (t : ThreadId) :
    ScanAt k (pre ++ [t]) (scanVisit k s t) := by
  obtain ⟨l₁, l₂, hpre, hbp, h1, h2⟩ := h.split
  unfold scanVisit
  split
  · -- a new best: everything before it is strictly lower
    rename_i hgt
    rw [h.prio] at hgt
    refine ⟨by simp, rfl, pre, [], rfl, h.prev, ?_, by simp⟩
    intro u hu
    rw [hpre] at hu
    show effPrio k u < effPrio k t
    rcases List.mem_append.mp hu with hu | hu
    · have := h1 u hu
      omega
    · rcases List.mem_cons.mp hu with hu | hu
      · rw [hu]
        omega
      · have := h2 u hu
        omega
  · rename_i hle
    rw [h.prio] at hle
    refine ⟨by simp, h.prio, l₁, l₂ ++ [t], by simp [hpre], hbp, h1, ?_⟩
    intro u hu
    rcases List.mem_append.mp hu with hu | hu
    · exact h2 u hu
    · have hut : u = t := by simpa using hu
      show effPrio k u ≤ effPrio k s.best
      rw [hut]
      omega

theorem ScanAt.foldl {k : Kernel} {pre : List ThreadId} {s : Scan} (h : ScanAt k pre s) (l : List ThreadId) :
    ScanAt k (pre ++ l) (l.foldl (scanVisit k) s) := by
  induction l generalizing pre s with
  | nil => simpa using h
  | cons t l ih => simpa using ih (h.visit t)

/-- Only `wait_next` differs. -/
structure WaitNextOnly (k k' : Kernel) : Prop where
  own : SameOwn k k'
  prio : SamePrio k k'
  state : ∀ t, stateOf k' t = stateOf k t
  run : SameRun k k'
  waiters : ∀ o, waitersOf k' o = waitersOf k o
  count : ∀ s, (k'.sems s).count = (k.sems s).count

theorem setWaitNext_only (k : Kernel) (t : ThreadId) (n : Option ThreadId) : WaitNextOnly k (setWaitNext k t n) := by
  refine ⟨setWaitNext_own k t n, setWaitNext_prio k t n, Kernel.setThread_field k t _ (·.state) rfl, setWaitNext_run k t n,
    fun o => ?_, fun _ => rfl⟩
  cases o <;> rfl

theorem WaitNextOnly.trans {a b c : Kernel} (h1 : WaitNextOnly a b) (h2 : WaitNextOnly b c) : WaitNextOnly a c :=
  ⟨h1.own.trans h2.own, h1.prio.trans h2.prio, fun t => (h2.state t).trans (h1.state t), h1.run.trans h2.run,
    fun o => (h2.waiters o).trans (h1.waiters o), fun s => (h2.count s).trans (h1.count s)⟩

/-- From a queue `l`, `waitq_pop_highest` takes the first thread of maximal effective
    priority and leaves the others in order; from no queue it takes none. A call that
    returns has walked a finite queue. -/
theorem waitqPopHighest_spec {k k' : Kernel} {fuel : Nat} {head head' t : Option ThreadId}
    (h : waitqPopHighest fuel head k = .ok (k', head', t)) :
    WaitNextOnly k k' ∧
    ((head = none ∧ head' = none ∧ t = none ∧ k' = k) ∨
      ∃ l₁ l₂ w, Chain (waitNextOf k) head (l₁ ++ w :: l₂) ∧ t = some w ∧ Chain (waitNextOf k') head' (l₁ ++ l₂) ∧
        (∀ u ∈ l₁, effPrio k u < effPrio k w) ∧ (∀ u ∈ l₂, effPrio k u ≤ effPrio k w) ∧
        waitNextOf k' w = none ∧ ∀ u, u ∉ l₁ ++ w :: l₂ → waitNextOf k' u = waitNextOf k u) := by
  cases head with
  | none =>
    cases h
    exact ⟨⟨SameOwn.refl k, SamePrio.refl k, fun _ => rfl, SameRun.refl k, fun _ => rfl, fun _ => rfl⟩, Or.inl ⟨rfl, rfl, rfl, rfl⟩⟩
  | some hd =>
    obtain ⟨s, hs, h⟩ := bind_ok.mp h
    obtain ⟨l, hl, hfold⟩ := chainFold_chain (orSpin_ok.mp hs)
    have hscan : ScanAt k l s := by
      cases l with
      | nil => cases hl
      | cons a rest =>
        obtain ⟨ha, -⟩ := hl
        cases ha
        rw [foldlM_some, Option.some.injEq, List.foldl_cons] at hfold
        have h0 : ScanAt k [hd] (scanVisit k ⟨none, hd, none, effPrio k hd⟩ hd) := by
          refine ⟨?_, ?_, [], [], ?_⟩ <;> simp [scanVisit]
        rw [← hfold]
        exact h0.foldl rest
    obtain ⟨l₁, l₂, rfl, hbp, h1, h2⟩ := hscan.split
    have hnd := Chain.nodup hl
    simp only [List.nodup_append, List.nodup_cons, List.mem_cons] at hnd
    obtain ⟨-, ⟨hb2, -⟩, hd1⟩ := hnd
    rcases hlast : l₁.getLast? with _ | bp
    · -- the best is the head
      have hnil := List.getLast?_eq_none_iff.mp hlast
      subst hnil
      simp only [hbp, List.getLast?_nil] at h
      cases h
      have hn := waitNextOf_setWaitNext k s.best none
      refine ⟨setWaitNext_only k _ _, Or.inr ⟨[], l₂, s.best, hl, rfl, ?_, h1, h2, ?_, ?_⟩⟩
      · refine Chain.pop hl fun b hb => ?_
        rw [hn, if_neg fun e : b = s.best => hb2 (e ▸ hb)]
      · rw [hn, if_pos rfl]
      · intro u hu
        rw [hn, if_neg fun e : u = s.best => hu (by simp [e])]
    · -- the best is linked behind `bp`
      obtain ⟨l₀, rfl⟩ := List.getLast?_eq_some_iff.mp hlast
      rw [hlast] at hbp
      simp only [hbp] at h
      cases h
      have hne : bp ≠ s.best := hd1 bp (by simp) s.best (Or.inl rfl)
      have hn : ∀ u, waitNextOf (setWaitNext (setWaitNext k bp (waitNextOf k s.best)) s.best none) u =
          if u = s.best then none else if u = bp then waitNextOf k s.best else waitNextOf k u := by
        intro u
        rw [waitNextOf_setWaitNext, waitNextOf_setWaitNext]
      refine ⟨(setWaitNext_only k _ _).trans (setWaitNext_only _ _ _), Or.inr ⟨l₀ ++ [bp], l₂, s.best, hl, rfl, ?_, h1, h2, ?_, ?_⟩⟩
      · rw [List.append_assoc, List.singleton_append]
        rw [List.append_assoc, List.singleton_append] at hl
        refine Chain.unlink hl ?_ fun c hcb hcp => ?_
        · rw [hn, if_neg hne, if_pos rfl]
        · rw [hn, if_neg hcb, if_neg hcp]
      · rw [hn, if_pos rfl]
      · intro u hu
        have hub : u ≠ s.best := fun e => hu (by simp [e])
        have hup : u ≠ bp := fun e => hu (by simp [e])
        rw [hn, if_neg hub, if_neg hup]

/-- The scan comes back from a queue that ends, so the call does. -/
theorem waitqPopHighest_returns {k : Kernel} {fuel : Nat} {head : Option ThreadId} {l : List ThreadId}
    (hl : Chain (waitNextOf k) head l) (hf : l.length ≤ fuel) : ∃ r, waitqPopHighest fuel head k = .ok r := by
  cases head with
  | none => exact ⟨_, rfl⟩
  | some hd =>
    have hscan := chainFold_returns (f := scanVisit k) hl hf ⟨none, hd, none, effPrio k hd⟩
    simp only [waitqPopHighest, hscan, orSpin, bind, Except.bind]
    split <;> exact ⟨_, rfl⟩

/-- From every queue that ends, `waitq_pop_highest` takes the first thread of maximal
    priority out and unlinks it; the others keep their order. From the empty queue it takes
    nothing and changes nothing. -/
theorem waitq_pops {k : Kernel} {head : Option ThreadId} {l : List ThreadId} (hl : Chain (waitNextOf k) head l) {fuel : Nat}
    (hf : l.length ≤ fuel) :
    (l = [] → waitqPopHighest fuel head k = .ok (k, none, none)) ∧
    (l ≠ [] → ∃ l₁ w l₂ k' head', l = l₁ ++ w :: l₂ ∧ waitqPopHighest fuel head k = .ok (k', head', some w) ∧
      (∀ u ∈ l, effPrio k u ≤ effPrio k w) ∧ (∀ u ∈ l₁, effPrio k u < effPrio k w) ∧
      Chain (waitNextOf k') head' (l₁ ++ l₂) ∧ waitNextOf k' w = none ∧
      WaitNextOnly k k' ∧ ∀ u, u ∉ l → waitNextOf k' u = waitNextOf k u) := by
  constructor
  · intro hnil
    subst hnil
    have hnone : head = none := hl
    subst hnone
    rfl
  · intro hne
    obtain ⟨⟨k', head', t⟩, hr⟩ := waitqPopHighest_returns hl hf
    obtain ⟨honly, hcase⟩ := waitqPopHighest_spec hr
    rcases hcase with ⟨hnone, -⟩ | ⟨l₁, l₂, w, hl', rfl, hrest, h1, h2, hw, hother⟩
    · subst hnone
      exact absurd (chain_none.mp hl) hne
    · have hsplit : l = l₁ ++ w :: l₂ := Chain.unique hl hl'
      subst hsplit
      refine ⟨l₁, w, l₂, k', head', rfl, hr, ?_, h1, hrest, hw, honly, hother⟩
      intro u hu
      rcases List.mem_append.mp hu with hu | hu
      · exact le_of_lt (h1 u hu)
      · rcases List.mem_cons.mp hu with hu | hu
        · exact le_of_eq (by rw [hu])
        · exact h2 u hu

/-- Three waiters of priorities 10, 20 and 20: the second is taken. -/
def threeWaiters : Kernel :=
  (((Kernel.zero.setThread 0 fun x => { x with waitNext := some 1, effectivePriority := clampPriority 10 }).setThread 1
    fun x => { x with waitNext := some 2, effectivePriority := clampPriority 20 }).setThread 2
    fun x => { x with effectivePriority := clampPriority 20 })

theorem waitq_pops_second :
    ∃ k' head', waitqPopHighest 3 (some 0) threeWaiters = .ok (k', head', some 1) ∧ Chain (waitNextOf k') head' [0, 2] ∧
      waitNextOf k' 1 = none := by
  have hl : Chain (waitNextOf threeWaiters) (some 0) [0, 1, 2] := ⟨rfl, rfl, rfl, rfl⟩
  obtain ⟨l₁, w, l₂, k', head', hsplit, hr, -, -, hchain, hnone, -⟩ :=
    (waitq_pops hl (show [0, 1, 2].length ≤ 3 by decide)).2 (by decide)
  have htaken : (waitqPopHighest 3 (some 0) threeWaiters).map (·.2.2) = .ok (some 1) := rfl
  rw [hr] at htaken
  cases htaken
  have hrest : l₁ ++ l₂ = [0, 2] := by
    rcases l₁ with _ | ⟨a, _ | ⟨b, _ | ⟨c, l₁⟩⟩⟩ <;> simp_all
  exact ⟨k', head', hr, hrest ▸ hchain, hnone⟩

/-! ## Effective priorities -/

/-- What the queue of an inheriting mutex offers its owner. -/
def queuedPrios (k : Kernel) (m : MutexId) : Set Int :=
  {v | (k.mutexes m).piEnabled = true ∧ ∃ ws, Chain (waitNextOf k) (k.mutexes m).waiters ws ∧ ∃ w ∈ ws, effPrio k w = v}

theorem effPrio_le_max (k : Kernel) (t : ThreadId) : effPrio k t ≤ kMaxPriority := (k.threads t).effectivePriority.le_max

theorem basePrio_nonneg (k : Kernel) (t : ThreadId) : 0 ≤ basePrio k t := (k.threads t).basePriority.nonneg

theorem basePrio_le_max (k : Kernel) (t : ThreadId) : basePrio k t ≤ kMaxPriority := (k.threads t).basePriority.le_max

theorem waitqMaxPriority_spec {k : Kernel} {fuel : Nat} {head : Option ThreadId} {w : Int}
    (h : waitqMaxPriority fuel head k = some w) :
    ∃ ws, Chain (waitNextOf k) head ws ∧ IsGreatest (insert (-1) {v | ∃ t ∈ ws, effPrio k t = v}) w := by
  obtain ⟨ws, hws, hfold⟩ := chainFold_chain h
  have hbody : (fun best t => some (if effPrio k t > best then effPrio k t else best)) =
      fun best t => some (runMax (fun _ => True) (effPrio k) best t) := by
    funext best t
    simp [runMax]
  rw [hbody, foldlM_some, Option.some.injEq] at hfold
  refine ⟨ws, hws, ?_⟩
  have hg := foldl_runMax_isGreatest (fun _ => True) (effPrio k) ws (-1)
  rw [hfold] at hg
  simpa using hg

theorem donation_isGreatest {k : Kernel} {fuel : Nat} {e e' : Int} {m : MutexId} (he : 0 ≤ e)
    (h : donation fuel k e m = some e') : IsGreatest (insert e (queuedPrios k m)) e' := by
  unfold donation at h
  split at h
  · rename_i hpi
    obtain ⟨w, hw, hmax⟩ := Option.map_eq_some_iff.mp h
    obtain ⟨ws, hws, hg, hub⟩ := waitqMaxPriority_spec hw
    have hset : ∀ v ∈ queuedPrios k m, v ≤ w := by
      intro v hv
      obtain ⟨-, ws', hws', t, ht, hv⟩ := hv
      rw [Chain.unique hws' hws] at ht
      exact hub (Or.inr ⟨t, ht, hv⟩)
    subst hmax
    split
    · rename_i hgt
      constructor
      · rcases hg with hg | ⟨t, ht, hg⟩
        · omega
        · exact Or.inr ⟨hpi, ws, hws, t, ht, hg⟩
      · intro v hv
        rcases hv with hv | hv
        · omega
        · exact hset v hv
    · rename_i hle
      refine ⟨Or.inl rfl, fun v hv => ?_⟩
      rcases hv with hv | hv
      · exact le_of_eq hv
      · have := hset v hv
        omega
  · rename_i hpi
    cases h
    refine ⟨Or.inl rfl, fun v hv => ?_⟩
    rcases hv with hv | hv
    · exact le_of_eq hv
    · exact absurd hv.1 hpi

theorem donations_isGreatest {k : Kernel} {fuel : Nat} (ms : List MutexId) {e e' : Int} (he : 0 ≤ e)
    (h : ms.foldlM (donation fuel k) e = some e') : IsGreatest (insert e {v | ∃ m ∈ ms, v ∈ queuedPrios k m}) e' := by
  induction ms generalizing e with
  | nil =>
    cases h
    simp
  | cons m ms ih =>
    rw [List.foldlM_cons] at h
    obtain ⟨e1, h1, h⟩ := Option.bind_eq_some_iff.mp h
    have hg1 := donation_isGreatest he h1
    have he1 : e ≤ e1 := hg1.2 (Or.inl rfl)
    have hset : {v | ∃ n ∈ m :: ms, v ∈ queuedPrios k n} = queuedPrios k m ∪ {v | ∃ n ∈ ms, v ∈ queuedPrios k n} := by
      ext v
      simp
    rw [hset]
    exact isGreatest_insert_trans hg1 (ih (by omega) h)

/-- At most the effective priority of `t` differs. -/
def EffOnly (t : ThreadId) (k k' : Kernel) : Prop :=
  ∃ p, k' = k.setThread t fun x => { x with effectivePriority := p }

theorem EffOnly.own {t : ThreadId} {k k' : Kernel} (h : EffOnly t k k') : SameOwn k k' := by
  obtain ⟨p, rfl⟩ := h
  exact SameOwn.setThread k t fun _ => rfl

theorem EffOnly.wait {t : ThreadId} {k k' : Kernel} (h : EffOnly t k k') : SameWait k k' := by
  obtain ⟨p, rfl⟩ := h
  exact SameWait.setThread k t (fun _ => rfl) fun _ => rfl

theorem EffOnly.base {t : ThreadId} {k k' : Kernel} (h : EffOnly t k k') (u : ThreadId) : basePrio k' u = basePrio k u := by
  obtain ⟨p, rfl⟩ := h
  exact Kernel.setThread_field k t _ (·.basePriority.val) rfl u

theorem EffOnly.eff_other {t : ThreadId} {k k' : Kernel} (h : EffOnly t k k') {u : ThreadId} (hu : u ≠ t) :
    effPrio k' u = effPrio k u := by
  obtain ⟨p, rfl⟩ := h
  simp only [effPrio, Kernel.setThread_threads, if_neg hu]

theorem EffOnly.pi {t : ThreadId} {k k' : Kernel} (h : EffOnly t k k') : k'.mutexes = k.mutexes := by
  obtain ⟨p, rfl⟩ := h
  rfl

theorem EffOnly.run {t : ThreadId} {k k' : Kernel} (h : EffOnly t k k') : SameRun k k' := by
  obtain ⟨p, rfl⟩ := h
  exact SameRun.setThread k t fun _ => rfl

theorem recompute_only {b : Build} {fuel : Nat} {t : ThreadId} {k k' : Kernel}
    (h : recomputeEffectivePriority b fuel t k = .ok k') : EffOnly t k k' := by
  obtain ⟨eff, -, h⟩ := bind_ok.mp h
  cases h
  exact ⟨_, rfl⟩

theorem clampPriority_val_of_mem {p : Int} (h0 : 0 ≤ p) (h1 : p ≤ kMaxPriority) : (clampPriority p).val = p := by
  unfold clampPriority
  rw [dif_neg (by omega), dif_neg (by omega)]

/-- With MUTEX_PI the result is the maximum of the base priority and of what the owned
    mutexes' queues offer. -/
theorem recompute_spec {b : Build} (hb : b.mutexPi = true) {fuel : Nat} {t : ThreadId} {k k' : Kernel}
    {ms : List MutexId} (hms : Chain (ownerNextOf k) (ownedOf k t) ms)
    (h : recomputeEffectivePriority b fuel t k = .ok k') :
    IsGreatest (insert (basePrio k t) {v | ∃ m ∈ ms, v ∈ queuedPrios k m}) (effPrio k' t) := by
  obtain ⟨eff, he, h⟩ := bind_ok.mp h
  cases h
  simp only [inheritedPriority, hb, if_true] at he
  have hg := donations_isGreatest ms (basePrio_nonneg k t) (chainFold_eq hms (orSpin_ok.mp he))
  have h0 : basePrio k t ≤ eff := hg.2 (Or.inl rfl)
  have h1 : eff ≤ kMaxPriority := by
    rcases hg.1 with h | ⟨m, -, -, ws, -, w, -, h⟩
    · have := basePrio_le_max k t
      omega
    · have := effPrio_le_max k w
      omega
  have hn := basePrio_nonneg k t
  have hval : (clampPriority eff).val = eff := clampPriority_val_of_mem (by omega) h1
  have heff : effPrio (threadSetEffectivePriority t eff k) t = eff := by
    unfold threadSetEffectivePriority effPrio
    unfold basePrio at h0
    simp only [Kernel.setThread_same]
    rw [if_neg (by omega), hval]
  rw [heff]
  exact hg

theorem mutexApplyPi_cases {b : Build} {fuel : Nat} {m : MutexId} {k k' : Kernel} (h : mutexApplyPi b fuel m k = .ok k') :
    (k' = k ∧ ((k.mutexes m).piEnabled = false ∨ ownerOf k m = none)) ∨
      ∃ o, ownerOf k m = some o ∧ recomputeEffectivePriority b fuel o k = .ok k' := by
  unfold mutexApplyPi at h
  split at h
  · rename_i hp
    cases h
    exact Or.inl ⟨rfl, Or.inl (by simpa using hp)⟩
  · rename_i hp
    split at h
    · rename_i ho
      cases h
      exact Or.inl ⟨rfl, Or.inr ho⟩
    · rename_i o ho
      exact Or.inr ⟨o, ho, h⟩

/-! ## Blocking and waking -/

/-- The state of `t` is `st` now, and its `wait_next` was cleared if that is a change. -/
structure Restated (t : ThreadId) (st : TState) (k k' : Kernel) : Prop where
  own : SameOwn k k'
  prio : SamePrio k k'
  waiters : ∀ o, waitersOf k' o = waitersOf k o
  count : ∀ s, (k'.sems s).count = (k.sems s).count
  cpu : k'.cpu = k.cpu
  state : ∀ u, stateOf k' u = if u = t then st else stateOf k u
  waitNext : ∀ u, waitNextOf k' u = if u = t ∧ stateOf k t ≠ st then none else waitNextOf k u

theorem Restated.refl {t : ThreadId} {st : TState} {k : Kernel} (h : stateOf k t = st) : Restated t st k k := by
  refine ⟨SameOwn.refl k, SamePrio.refl k, fun _ => rfl, fun _ => rfl, rfl, fun u => ?_, fun u => ?_⟩
  · split
    · rename_i hu
      rw [hu, h]
    · rfl
  · rw [if_neg fun hn => hn.2 h]

theorem Restated.of_edit {t : ThreadId} {st : TState} {k k' : Kernel} {f : Thread → Thread} (hne : stateOf k t ≠ st)
    (hr : RqOnly (k.setThread t f) k') (hs : ∀ x, (f x).state = st) (hw : ∀ x, (f x).waitNext = none)
    (ho : ∀ x, (f x).ownedMutexes = x.ownedMutexes) (hb : ∀ x, (f x).basePriority = x.basePriority)
    (he : ∀ x, (f x).effectivePriority = x.effectivePriority) : Restated t st k k' := by
  have h := hr.sameSync
  refine ⟨(SameOwn.setThread k t ho).trans h.own, (SamePrio.setThread k t hb he).trans h.prio, fun o => ?_,
    fun s => h.wait.count s, hr.cpu, fun u => ?_, fun u => ?_⟩
  · rw [h.wait.waiters]
    cases o <;> rfl
  · rw [h.wait.state]
    unfold stateOf
    rw [Kernel.setThread_threads]
    split
    · exact hs _
    · rfl
  · rw [h.wait.waitNext]
    unfold waitNextOf
    rw [Kernel.setThread_threads]
    by_cases hu : u = t
    · rw [if_pos hu, if_pos ⟨hu, hne⟩]
      exact hw _
    · rw [if_neg hu, if_neg fun hn => hu hn.1]

theorem stateOf_cases (k : Kernel) (t : ThreadId) : isReady k t ∨ stateOf k t = .blocked := by
  unfold isReady stateOf
  cases (k.threads t).state
  · exact Or.inl rfl
  · exact Or.inr rfl

theorem not_ready_iff {k : Kernel} {t : ThreadId} : ¬ isReady k t ↔ stateOf k t = .blocked := by
  unfold isReady stateOf
  cases (k.threads t).state <;> simp

theorem schedBlockCurrent_restated {fuel : Nat} {k k' : Kernel} {cur : ThreadId} (hc : k.cpu.currentThread = some cur)
    (h : schedBlockCurrent fuel k = .ok k') : Restated cur .blocked k k' := by
  rcases stateOf_cases k cur with hr | hb
  · have hne : stateOf k cur ≠ .blocked := fun e => not_ready_iff.mpr e hr
    exact Restated.of_edit hne (schedBlockCurrent_rqOnly hc hr h) (fun _ => rfl) (fun _ => rfl) (fun _ => rfl)
      (fun _ => rfl) fun _ => rfl
  · rw [schedBlockCurrent_blocked hc hb] at h
    cases h
    exact Restated.refl hb

theorem schedMakeRunnable_restated {k k' : Kernel} {t : ThreadId} (h : schedMakeRunnable t k = .ok k') :
    Restated t .ready k k' := by
  by_cases hr : isReady k t
  · rw [schedMakeRunnable_ready hr] at h
    cases h
    exact Restated.refl hr
  · exact Restated.of_edit hr (schedMakeRunnable_rqOnly hr h) (fun _ => rfl) (fun _ => rfl) (fun _ => rfl)
      (fun _ => rfl) fun _ => rfl

/-! ## The entry points, case by case -/

section Cases

variable {b : Build} {fuel : Nat} {m : MutexId} {k k' : Kernel} {cur : ThreadId}

theorem mutexLockPass_cases {got : Bool} (hc : k.cpu.currentThread = some cur)
    (h : mutexLockPass b fuel m k = .ok (k', got)) :
    (ownerOf k m = some cur ∧ got = true ∧ k' = setWaitingOn k cur none) ∨
    (ownerOf k m = none ∧ got = true ∧ k' = acquire cur m k) ∨
    ∃ o k1 k2, ownerOf k m = some o ∧ o ≠ cur ∧ got = false ∧ mutexApplyPi b fuel m (enqueue cur m k) = .ok k1 ∧
      schedBlockCurrent fuel k1 = .ok k2 ∧ k' = k2.setNeedResched kNeedReschedNormal := by
  simp only [mutexLockPass, hc] at h
  split at h
  · rename_i ho
    cases h
    exact Or.inl ⟨ho, rfl, rfl⟩
  rename_i hne
  split at h
  · rename_i ho
    cases h
    exact Or.inr (Or.inl ⟨ho, rfl, rfl⟩)
  rename_i hsome
  split at h
  · cases h
  obtain ⟨k1, h1, h⟩ := bind_ok.mp h
  obtain ⟨k2, h2, h⟩ := bind_ok.mp h
  cases h
  obtain ⟨o, ho⟩ := Option.ne_none_iff_exists'.mp hsome
  exact Or.inr (Or.inr ⟨o, k1, k2, ho, fun e => hne (by rw [ho, e]), rfl, h1, h2, rfl⟩)

theorem mutexTrylock_cases (hc : k.cpu.currentThread = some cur) :
    (ownerOf k m = none ∧ mutexTrylock m k = (acquire cur m k, 0)) ∨
    (ownerOf k m = some cur ∧ mutexTrylock m k = (setWaitingOn k cur none, 0)) ∨
    ownerOf k m ≠ none ∧ ownerOf k m ≠ some cur ∧ mutexTrylock m k = (k, -1) := by
  simp only [mutexTrylock, hc]
  by_cases h0 : (k.mutexes m).owner = none
  · exact Or.inl ⟨h0, by rw [if_pos h0]⟩
  · by_cases h1 : (k.mutexes m).owner = some cur
    · exact Or.inr (Or.inl ⟨h1, by rw [if_neg h0, if_pos h1]⟩)
    · exact Or.inr (Or.inr ⟨h0, h1, by rw [if_neg h0, if_neg h1]⟩)

theorem mutexUnlock_cases (hc : k.cpu.currentThread = some cur) (h : mutexUnlock b fuel m k = .ok k') :
    (ownerOf k m ≠ some cur ∧ k' = k) ∨
    ownerOf k m = some cur ∧ ∃ k1 k2 head t, threadOwnedMutexRemove fuel cur m k = .ok k1 ∧
      waitqPopHighest fuel (waitersOf k1 (.mutex m)) k1 = .ok (k2, head, t) ∧
      ((t = none ∧ recomputeEffectivePriority b fuel cur (setOwner (setWaiters k2 m head) m none) = .ok k') ∨
        ∃ w k3 k4, t = some w ∧ handover b fuel m w (setWaiters k2 m head) = .ok k3 ∧
          recomputeEffectivePriority b fuel cur k3 = .ok k4 ∧ k' = requestIfAbove w cur k4) := by
  simp only [mutexUnlock, hc] at h
  split at h
  · rename_i hne
    cases h
    exact Or.inl ⟨hne, rfl⟩
  rename_i heq
  obtain ⟨k1, h1, h⟩ := bind_ok.mp h
  obtain ⟨⟨k2, head, t⟩, h2, h⟩ := bind_ok.mp h
  refine Or.inr ⟨not_not.mp heq, k1, k2, head, t, h1, h2, ?_⟩
  cases t with
  | none => exact Or.inl ⟨rfl, h⟩
  | some w =>
    obtain ⟨k3, h3, h⟩ := bind_ok.mp h
    obtain ⟨k4, h4, h⟩ := bind_ok.mp h
    cases h
    exact Or.inr ⟨w, k3, k4, rfl, h3, h4, rfl⟩

theorem handover_cases {w : ThreadId} (h : handover b fuel m w k = .ok k') :
    ∃ k1, schedMakeRunnable w (threadOwnedMutexAdd w m (setWaitingOn (setOwner k m (some w)) w none)) = .ok k1 ∧
      mutexApplyPi b fuel m k1 = .ok k' := bind_ok.mp h

/-- The queue of `s` with `cur` in front, before `sched_block_current`. -/
def semEnqueue (cur : ThreadId) (s : SemId) (k : Kernel) : Kernel :=
  (setWaitNext (setWaitingOn k cur none) cur (k.sems s).waiters).setSem s fun x => { x with waiters := some cur }

theorem semDown_cases {s : SemId} {r : Bool} (hc : k.cpu.currentThread = some cur) (h : semDown fuel s k = .ok (k', r)) :
    (0 ≤ (k.sems s).count - 1 ∧ r = false ∧ k' = setCount k s ((k.sems s).count - 1)) ∨
    (k.sems s).count - 1 < 0 ∧ r = true ∧ ∃ k1,
      schedBlockCurrent fuel (semEnqueue cur s (setCount k s ((k.sems s).count - 1))) = .ok k1 ∧
        k' = k1.setNeedResched kNeedReschedNormal := by
  have hcount : ((setCount k s ((k.sems s).count - 1)).sems s).count = (k.sems s).count - 1 := by
    simp [setCount]
  have hc' : (setCount k s ((k.sems s).count - 1)).cpu.currentThread = some cur := hc
  simp only [semDown, hcount, hc'] at h
  split at h
  · rename_i h0
    cases h
    exact Or.inl ⟨h0, rfl, rfl⟩
  · rename_i h0
    obtain ⟨k1, h1, h⟩ := bind_ok.mp h
    cases h
    exact Or.inr ⟨by omega, rfl, k1, h1, rfl⟩

theorem semUp_cases {s : SemId} (hc : k.cpu.currentThread = some cur) (h : semUp fuel s k = .ok k') :
    (0 < (k.sems s).count + 1 ∧ k' = setCount k s ((k.sems s).count + 1)) ∨
    (k.sems s).count + 1 ≤ 0 ∧ ∃ k1 head t,
      waitqPopHighest fuel (waitersOf k (.sem s)) (setCount k s ((k.sems s).count + 1)) = .ok (k1, head, t) ∧
      ((t = none ∧ k' = k1.setSem s fun x => { x with waiters := head }) ∨
        ∃ w k2, t = some w ∧ schedMakeRunnable w (k1.setSem s fun x => { x with waiters := head }) = .ok k2 ∧
          (k' = k2 ∨ k' = requestIfAbove w cur k2)) := by
  have hcount : ((setCount k s ((k.sems s).count + 1)).sems s).count = (k.sems s).count + 1 := by
    simp [setCount]
  have hw : ((setCount k s ((k.sems s).count + 1)).sems s).waiters = waitersOf k (.sem s) := by
    simp [setCount, waitersOf]
  simp only [semUp, hcount, hw] at h
  split at h
  · rename_i h0
    cases h
    exact Or.inl ⟨h0, rfl⟩
  · rename_i h0
    obtain ⟨⟨k1, head, t⟩, h1, h⟩ := bind_ok.mp h
    refine Or.inr ⟨by omega, k1, head, t, h1, ?_⟩
    cases t with
    | none =>
      cases h
      exact Or.inl ⟨rfl, rfl⟩
    | some w =>
      obtain ⟨k2, h2, h⟩ := bind_ok.mp h
      refine Or.inr ⟨w, k2, rfl, h2, ?_⟩
      split at h
      · cases h
        exact Or.inl rfl
      · rename_i c hcur
        cases h
        have hcpu : k2.cpu = k.cpu := (schedMakeRunnable_restated h2).cpu.trans ((waitqPopHighest_spec h1).1.run.cpu)
        rw [hcpu, hc] at hcur
        cases hcur
        exact Or.inr rfl

end Cases

end Microkernel

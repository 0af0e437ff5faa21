/-
  Microkernel.Calls.Lockdep — the lockdep check of `mutex_lock` (LOCKDEP_ENABLED).

  Before it blocks, `mutex_lock` walks owner → `waiting_on` → owner for at most 16
  threads; if it meets the caller it halts in `lockdep_panic_deadlock`. The walk is
  `WaitGraph.chase` along the wait-for graph (`lockdepWalk_eq`). Every thread it meets
  owns a mutex, so it is one of the run's threads (`owner_known`), and an acyclic graph
  shows each of them once: with at most 16 threads the bound is no restriction.

  Nothing else `mutex_lock` calls ends in that halt (`mutexLock_panic_iff`).

  Proved (`lockdep_exact`): in every run of at most 16 threads the wait-for graph has no
  cycle, and `mutex_lock` halts exactly when blocking its caller would close one.
  With more threads the bound shows (`lockdep_any_threads`): both are then true of the
  cycles of at most 16 threads.
-/

import Microkernel.Calls.WaitFor

namespace Microkernel

open Relation WaitGraph

/-! ## The walk -/

/-- The owner of what `t` waits for. -/
def nextOwner (k : Kernel) (t : ThreadId) : Option ThreadId := (waitingOf k t).bind (ownerOf k)

theorem edge_nextOwner (k : Kernel) : Edge (nextOwner k) = waitsOn k := by
  funext t u
  simp only [Edge, nextOwner, waitsOn, Option.bind_eq_some_iff]

theorem lockdepWalk_eq (k : Kernel) (cur : ThreadId) (depth : Nat) (owner : Option ThreadId) :
    lockdepWalk k cur depth owner = chase (nextOwner k) cur depth owner := by
  induction depth generalizing owner with
  | zero => rfl
  | succ depth ih =>
    cases owner with
    | none => rfl
    | some o =>
      unfold lockdepWalk chase nextOwner waitingOf
      cases (k.threads o).waitingOn with
      | none => cases depth <;> rfl
      | some m =>
        simp only [Option.bind_some, ih]
        rfl

/-- Among at most 16 threads the walk finds the caller exactly when the owner leads to it. -/
theorem walk_iff {k : Kernel} {ids : List ThreadId} (hg : Acyclic (waitsOn k)) (hlen : ids.length ≤ 16)
    (hids : ∀ m t, ownerOf k m = some t → t ∈ ids) {cur o : ThreadId} {m : MutexId} (ho : ownerOf k m = some o) :
    lockdepWouldDeadlock k cur m = true ↔ ReflTransGen (waitsOn k) o cur := by
  have hstart : (k.mutexes m).owner = some o := ho
  unfold lockdepWouldDeadlock
  rw [lockdepWalk_eq, hstart, ← edge_nextOwner]
  rw [← edge_nextOwner] at hg
  refine chase_iff hg hlen fun b hb => ?_
  rcases hb.cases_tail with hob | ⟨c, -, hcb⟩
  · rw [hob]
    exact hids m o ho
  · -- every later node owns what the one before waits for
    rw [edge_nextOwner] at hcb
    obtain ⟨n, -, hn⟩ := hcb
    exact hids n b hn

theorem closes_iff {k : Kernel} (hg : Acyclic (waitsOn k)) {cur o : ThreadId} {m : MutexId} (ho : ownerOf k m = some o) :
    ¬ Acyclic (waitsOn (setWaitingOn k cur (some m))) ↔ ReflTransGen (waitsOn k) o cur := by
  rw [acyclic_wait_iff hg (waitsOn_setWaitingOn k cur ho), not_not]

/-! ## Who can own a mutex -/

theorem CallStep.owner_known {s s' : Sys} {cur : ThreadId} {a : Act} {c : Call} {r : Ret} {e : Event} {ids : List ThreadId}
    (h : CallStep s s' cur a c r e) (hi : WaitInv s) (hcur : cur ∈ ids) (hin : ∀ t, s.cont t ≠ .user → t ∈ ids)
    (hids : ∀ m t, ownerOf s.k m = some t → t ∈ ids) (m : MutexId) (t : ThreadId) (ho : ownerOf s'.k m = some t) : t ∈ ids := by
  rw [h.eff.owner] at ho
  cases e with
  | taken n =>
    rw [Event.ownerAfter] at ho
    split at ho
    · cases ho
      exact hcur
    · exact hids m t ho
  | freed n =>
    rw [Event.ownerAfter] at ho
    split at ho
    · cases ho
    · exact hids m t ho
  | handed n w =>
    rw [Event.ownerAfter] at ho
    split at ho
    · cases ho
      obtain ⟨o, hw, -⟩ := h.woken_waited hi rfl
      exact hin _ (waitsFor_inside hw)
    · exact hids m t ho
  | _ => exact hids m t ho

theorem owner_known {b : Build} {ok : Sys → Act → Prop} {ts : List (ThreadId × Int)} {counts : SemId → Int} {s : Sys}
    (hok : ∀ s a, ok s a → OtherReady ts s a) (h : Run b ok ts counts s) :
    ∀ m t, ownerOf s.k m = some t → t ∈ ts.map Prod.fst := by
  induction h with
  | boot fuel hn hb =>
    intro m t ho
    rw [ownerOf, (boot_cases hb).1.kernel.mutexes] at ho
    cases ho
  | step a fuel hrun hoka hs ih =>
    obtain ⟨hi, l, cur, hl, -⟩ := awake_run hok hrun
    obtain ⟨cur', hcur, hst⟩ := Sys.step_waiting hs
    rw [hl.current] at hcur
    cases hcur
    cases hst with
    | call c r e hc _ => exact hc.owner_known hi hl.currentIn hl.inside ih
    | other ho _ _ =>
      intro m t hm
      exact ih m t ((ho.owner m).symm.trans hm)

/-! ## The halt -/

/-- `x` does not end in `lockdep_panic_deadlock`. -/
def NoPanic {α : Type} (x : Except Halt α) : Prop := x ≠ .error .lockdepPanic

section NoPanic

variable {α β : Type} {b : Build} {fuel : Nat} {k : Kernel}

theorem bind_error {x : Except Halt α} {f : α → Except Halt β} {e : Halt} :
    (x >>= f) = .error e ↔ x = .error e ∨ ∃ a, x = .ok a ∧ f a = .error e := by
  cases x with
  | error d => simp [bind, Except.bind]
  | ok a => simp [bind, Except.bind]

theorem noPanic_ok (a : α) : NoPanic (.ok a) := fun h => by cases h

theorem NoPanic.bind {x : Except Halt α} {f : α → Except Halt β} (hx : NoPanic x) (hf : ∀ a, NoPanic (f a)) : NoPanic (x >>= f) := by
  intro h
  rcases bind_error.mp h with h | ⟨a, -, h⟩
  · exact hx h
  · exact hf a h

theorem orSpin_noPanic (x : Option α) : NoPanic (orSpin x) := by
  cases x with
  | none => exact fun h => by cases h
  | some a => exact noPanic_ok a

theorem recompute_noPanic (t : ThreadId) : NoPanic (recomputeEffectivePriority b fuel t k) := by
  refine NoPanic.bind ?_ fun eff => noPanic_ok _
  unfold inheritedPriority
  split
  · exact orSpin_noPanic _
  · exact noPanic_ok _

theorem mutexApplyPi_noPanic (m : MutexId) : NoPanic (mutexApplyPi b fuel m k) := by
  unfold mutexApplyPi
  split
  · exact noPanic_ok _
  split
  · exact noPanic_ok _
  · exact recompute_noPanic _

theorem rqPrev_noPanic (h t : ThreadId) (prev : ThreadId) : NoPanic (rqPrev k h t fuel prev) := by
  induction fuel generalizing prev with
  | zero => exact fun h => by cases h
  | succ fuel ih =>
    unfold rqPrev
    split
    · split
      · exact fun h => by cases h
      · exact ih _
    · exact noPanic_ok _

theorem rqRemove_noPanic (t : ThreadId) : NoPanic (rqRemove fuel t k) := by
  unfold rqRemove
  split
  · exact noPanic_ok _
  split
  · exact noPanic_ok _
  · refine NoPanic.bind (rqPrev_noPanic _ _ _) fun prev => ?_
    split
    · exact noPanic_ok _
    · exact noPanic_ok _

theorem schedBlockCurrent_noPanic : NoPanic (schedBlockCurrent fuel k) := by
  unfold schedBlockCurrent
  split
  · exact noPanic_ok _
  split
  · exact noPanic_ok _
  · exact NoPanic.bind (rqRemove_noPanic _) fun k => noPanic_ok _

theorem rqMaxReadyPriority_noPanic : NoPanic (rqMaxReadyPriority fuel k) := by
  unfold rqMaxReadyPriority
  split
  · exact noPanic_ok _
  · exact orSpin_noPanic _

theorem prioPickNext_noPanic (cur : Option ThreadId) (excludeCurrent rotateEqual : Bool) :
    NoPanic (prioPickNext fuel k cur excludeCurrent rotateEqual) := by
  unfold prioPickNext
  split
  · exact noPanic_ok _
  refine NoPanic.bind rqMaxReadyPriority_noPanic fun best => ?_
  split
  · exact noPanic_ok _
  split
  · exact noPanic_ok _
  refine NoPanic.bind (orSpin_noPanic _) fun found => ?_
  split
  · exact noPanic_ok _
  split
  · exact noPanic_ok _
  · exact noPanic_ok _

theorem tailPick_noPanic (cur : Option ThreadId) : NoPanic (tailPick b fuel k cur) := by
  unfold tailPick
  split
  · exact prioPickNext_noPanic _ _ _
  split
  · exact noPanic_ok _
  split
  · exact noPanic_ok _
  · exact noPanic_ok _

theorem schedReschedFromIrqTail_noPanic : NoPanic (schedReschedFromIrqTail b fuel k) := by
  unfold schedReschedFromIrqTail
  split
  · exact noPanic_ok _
  refine NoPanic.bind (tailPick_noPanic _) fun next => ?_
  split
  · split
    · exact noPanic_ok _
    · exact noPanic_ok _
  · exact noPanic_ok _

theorem preemptEnable_noPanic : NoPanic (preemptEnable b fuel k) := by
  unfold preemptEnable
  split
  · exact noPanic_ok _
  · dsimp only
    split
    · exact schedReschedFromIrqTail_noPanic
    · exact noPanic_ok _

theorem threadYield_noPanic : NoPanic (threadYield b fuel k) := by
  unfold threadYield
  split
  · exact noPanic_ok _
  split
  · exact noPanic_ok _
  refine NoPanic.bind ?_ fun next => ?_
  · unfold yieldPick
    split
    · exact prioPickNext_noPanic _ _ _
    · exact noPanic_ok _
  · split
    · exact noPanic_ok _
    split
    · exact noPanic_ok _
    · exact noPanic_ok _

theorem rqHasReadyPrioGt_noPanic (prio : Int) : NoPanic (rqHasReadyPrioGt fuel k prio) := by
  unfold rqHasReadyPrioGt
  split
  · exact noPanic_ok _
  · exact NoPanic.bind (orSpin_noPanic _) fun r => noPanic_ok _

theorem schedOnTick_noPanic (guardOk : Bool) : NoPanic (schedOnTick b fuel guardOk k) := by
  unfold schedOnTick
  split
  · exact noPanic_ok _
  split
  · exact fun h => by cases h
  split
  · exact noPanic_ok _
  split
  · exact noPanic_ok _
  split
  · exact noPanic_ok _
  · refine NoPanic.bind (rqHasReadyPrioGt_noPanic _) fun r => ?_
    split
    · exact noPanic_ok _
    · exact noPanic_ok _

theorem irqHandlerEl1_noPanic (guardOk : Bool) (intid : Nat) : NoPanic (irqHandlerEl1 b fuel guardOk intid k) := by
  refine NoPanic.bind ?_ fun x => noPanic_ok _
  unfold irqDispatch
  split
  · exact NoPanic.bind (schedOnTick_noPanic guardOk) fun k => noPanic_ok _
  · exact noPanic_ok _

theorem irqExit_noPanic (x : Kernel × Bool) : NoPanic (irqExit b fuel x) := by
  unfold irqExit preemptReturn
  split
  · split
    · exact schedReschedFromIrqTail_noPanic
    · exact noPanic_ok _
  · exact noPanic_ok _

end NoPanic

section Panic

variable {b : Build} {fuel : Nat} {k : Kernel} {cur : ThreadId} {m : MutexId}

/-- A round of `mutex_lock` halts there exactly when the check fails. -/
theorem mutexLockPass_panic_iff (hb : b.lockdep = true) (hc : k.cpu.currentThread = some cur) :
    mutexLockPass b fuel m k = .error .lockdepPanic ↔
      (ownerOf k m ≠ some cur ∧ ownerOf k m ≠ none) ∧ lockdepWouldDeadlock k cur m = true := by
  unfold mutexLockPass ownerOf
  simp only [hc]
  split
  · rename_i ho
    simp [ho]
  rename_i hne
  split
  · rename_i ho
    simp [ho]
  rename_i hsome
  split
  · rename_i hd
    simp only [hb, Bool.true_and] at hd
    simp [hne, hsome, hd]
  · rename_i hd
    simp only [hb, Bool.true_and, Bool.not_eq_true] at hd
    have hno : NoPanic (mutexApplyPi b fuel m (enqueue cur m k) >>= fun k => schedBlockCurrent fuel k >>= fun k =>
        (.ok (k.setNeedResched kNeedReschedNormal, false) : Except Halt (Kernel × Bool))) :=
      NoPanic.bind (mutexApplyPi_noPanic m) fun k => NoPanic.bind schedBlockCurrent_noPanic fun k => noPanic_ok _
    exact iff_of_false hno fun h => by simp [hd] at h

/-- The walk does not read `preempt_cnt`. -/
theorem lockdep_preemptDisable (k : Kernel) : lockdepWouldDeadlock (preemptDisable k) cur m = lockdepWouldDeadlock k cur m := by
  unfold lockdepWouldDeadlock
  rw [lockdepWalk_eq, lockdepWalk_eq]
  rfl

theorem Calling.step_eq {s : Sys} {a : Act} {c : Call} (h : Calling s cur a c) (hcur : s.k.cpu.currentThread = some cur) :
    s.step b fuel a = s.enter b fuel cur c := by
  cases h with
  | first c hu => simp only [Sys.step, hcur, hu]
  | again m hu => simp only [Sys.step, hcur, hu]

/-- Nothing but a call halts there. -/
theorem step_noPanic {s : Sys} {a : Act} (hcur : s.k.cpu.currentThread = some cur) (hno : ∀ c, ¬ Calling s cur a c) :
    NoPanic (s.step b fuel a) := by
  unfold Sys.step
  simp only [hcur]
  split
  · rename_i c hu
    exact absurd (.first c hu) (hno c)
  · rename_i m hl
    exact absurd (.again m hl) (hno _)
  · exact noPanic_ok _
  · exact NoPanic.bind threadYield_noPanic fun k => noPanic_ok _
  · exact NoPanic.bind (irqHandlerEl1_noPanic _ _) fun x => NoPanic.bind (irqExit_noPanic x) fun k => noPanic_ok _
  · exact fun h => by cases h

theorem calling_of_blocksOn {s : Sys} {a : Act} (hcur : s.k.cpu.currentThread = some cur) (hb : blocksOn s a = some (.mutex m)) :
    Calling s cur a (.mutexLock m) := by
  simp only [blocksOn, hcur] at hb
  split at hb
  · rename_i c hu
    cases c with
    | mutexLock n =>
      simp only [callBlocks] at hb
      split at hb
      · cases hb
      · cases hb
        exact .first _ hu
    | semDown σ =>
      simp only [callBlocks] at hb
      split at hb
      · cases hb
      · cases hb
    | _ => cases hb
  · rename_i n hu
    simp only [callBlocks] at hb
    split at hb
    · cases hb
    · cases hb
      exact .again _ hu
  · cases hb

/-- `mutex_lock` halts there exactly when it would block and the check fails. -/
theorem mutexLock_panic_iff (hb : b.lockdep = true) {s : Sys} {a : Act} (hcur : s.k.cpu.currentThread = some cur)
    (ha : Calling s cur a (.mutexLock m)) :
    s.step b fuel a = .error .lockdepPanic ↔ blocksOn s a = some (.mutex m) ∧ lockdepWouldDeadlock s.k cur m = true := by
  have hcur' : (preemptDisable s.k).cpu.currentThread = some cur := hcur
  have hblk : blocksOn s a = some (.mutex m) ↔ ownerOf s.k m ≠ some cur ∧ ownerOf s.k m ≠ none := by
    rw [ha.blocksOn hcur, callBlocks]
    split
    · rename_i ho
      exact iff_of_false (fun h => by cases h) fun h => ho.elim h.2 h.1
    · rename_i ho
      exact iff_of_true rfl ⟨fun h => ho (Or.inr h), fun h => ho (Or.inl h)⟩
  have hpass : mutexLockPass b fuel m (preemptDisable s.k) = .error .lockdepPanic ↔ _ := mutexLockPass_panic_iff hb hcur'
  rw [lockdep_preemptDisable] at hpass
  rw [hblk, ha.step_eq hcur]
  refine Iff.trans ?_ hpass
  unfold Sys.enter callRun
  constructor
  · intro h
    rcases bind_error.mp h with h | ⟨x, -, h⟩
    · rcases bind_error.mp h with h | ⟨x, -, h⟩
      · rcases bind_error.mp h with h | ⟨x, -, h⟩
        · exact h
        · cases h
      · exact absurd h (NoPanic.bind preemptEnable_noPanic fun k => noPanic_ok _)
    · cases h
  · intro h
    exact bind_error.mpr (Or.inl (bind_error.mpr (Or.inl (bind_error.mpr (Or.inl h)))))

end Panic

/-! ## Runs -/

/-- In a reachable state without cycles, `mutex_lock` halts exactly when blocking its caller would close one. -/
theorem panic_iff_closes {b : Build} (hb : b.lockdep = true) {ts : List (ThreadId × Int)} (hlen : ts.length ≤ 16)
    {counts : SemId → Int} {s : Sys} (h : Run b (OtherReady ts) ts counts s) (hg : Acyclic (waitsOn s.k)) {a : Act} {fuel : Nat}
    {cur : ThreadId} {m : MutexId} (hcur : s.k.cpu.currentThread = some cur) (ha : Calling s cur a (.mutexLock m)) :
    s.step b fuel a = .error .lockdepPanic ↔
      blocksOn s a = some (.mutex m) ∧ ¬ Acyclic (waitsOn (setWaitingOn s.k cur (some m))) := by
  rw [mutexLock_panic_iff hb hcur ha]
  refine and_congr_right fun hblk => ?_
  obtain ⟨o, ho⟩ : ∃ o, ownerOf s.k m = some o := by
    rw [ha.blocksOn hcur, callBlocks] at hblk
    split at hblk
    · cases hblk
    · rename_i hn
      exact Option.ne_none_iff_exists'.mp fun h => hn (Or.inl h)
  rw [closes_iff hg ho]
  exact walk_iff hg (by simpa using hlen) (owner_known (fun _ _ h => h) h) ho

/-- With LOCKDEP_ENABLED, in every state that at most 16 threads reach by calls in any order, another thread being READY
    whenever one blocks, no cycle of threads waits for each other; and `mutex_lock` halts in `lockdep_panic_deadlock`
    exactly when blocking its caller would close such a cycle. -/
theorem lockdep_exact {b : Build} (hb : b.lockdep = true) {ts : List (ThreadId × Int)} (hlen : ts.length ≤ 16)
    {counts : SemId → Int} {s : Sys} (h : Run b (OtherReady ts) ts counts s) :
    Acyclic (waitsOn s.k) ∧ ∀ a fuel cur m, s.k.cpu.currentThread = some cur → Calling s cur a (.mutexLock m) →
      (s.step b fuel a = .error .lockdepPanic ↔
        blocksOn s a = some (.mutex m) ∧ ¬ Acyclic (waitsOn (setWaitingOn s.k cur (some m)))) := by
  have hg : Acyclic (waitsOn s.k) := by
    induction h with
    | boot fuel hn hboot =>
      refine Acyclic.of_rank (fun _ => 0) fun t u htu => ?_
      exact absurd htu (not_waitsOn_of_none (boot_waiting hboot t) u)
    | @step s _ a fuel hrun hoka hs ih =>
      obtain ⟨-, l, cur, hl, -⟩ := awake_run (fun _ _ h => h) hrun
      refine acyclic_step ih hl.current (fun m hblk => ?_) hs
      -- a step that returned did not close a cycle
      by_contra hclose
      have hpanic : s.step b fuel a = .error .lockdepPanic :=
        (panic_iff_closes hb hlen hrun ih hl.current (calling_of_blocksOn hl.current hblk)).mpr ⟨hblk, hclose⟩
      rw [hpanic] at hs
      cases hs
  exact ⟨hg, fun a fuel cur m hcur ha => panic_iff_closes hb hlen h hg hcur ha⟩

/-- Threads 0 and 1 own a mutex each and thread 1 waits for thread 0's; then thread 0 asks for thread 1's. -/
theorem lockdep_exact_two_threads :
    ∃ s, Run ⟨.rr, true, true⟩ (OtherReady [(0, 10), (1, 10)]) [(0, 10), (1, 10)] (fun _ => 0) s ∧ waitsOn s.k 1 0 ∧
      s.step ⟨.rr, true, true⟩ 4 (.call (.mutexLock 1)) = .error .lockdepPanic ∧
      ¬ Acyclic (waitsOn (setWaitingOn s.k 0 (some 1))) := by
  have h0 : Run ⟨.rr, true, true⟩ (OtherReady [(0, 10), (1, 10)]) [(0, 10), (1, 10)] (fun _ => 0) _ := .boot 4 (by decide) rfl
  have h2 := (h0.step (.call (.mutexLock 0)) 4 (by decide) rfl).step .resume 4 (by decide) rfl
  have h4 := (h2.step .yield 4 (by decide) rfl).step (.call (.mutexLock 1)) 4 (by decide) rfl
  have h6 := (h4.step .resume 4 (by decide) rfl).step (.call (.mutexLock 0)) 4 (by decide) rfl
  have hlock := ((lockdep_exact rfl (by decide) h6).2 (.call (.mutexLock 1)) 4 0 1 rfl (.first _ rfl)).mp rfl
  exact ⟨_, h6, ⟨0, rfl, rfl⟩, rfl, hlock.2⟩

/-! ## Any number of threads -/

/-- The walk finds the caller exactly when it is fewer than 16 edges behind the owner. -/
theorem walk_hops_iff {k : Kernel} {cur o : ThreadId} {m : MutexId} (ho : ownerOf k m = some o) :
    lockdepWouldDeadlock k cur m = true ↔ ∃ i < 16, Hops (waitsOn k) i o cur := by
  have hstart : (k.mutexes m).owner = some o := ho
  unfold lockdepWouldDeadlock
  rw [lockdepWalk_eq, hstart, chase_hops_iff, edge_nextOwner]

theorem panic_iff_closes_short {b : Build} (hb : b.lockdep = true) {s : Sys} (hg : NoShort (waitsOn s.k) 16) {a : Act} {fuel : Nat}
    {cur : ThreadId} {m : MutexId} (hcur : s.k.cpu.currentThread = some cur) (ha : Calling s cur a (.mutexLock m)) :
    s.step b fuel a = .error .lockdepPanic ↔
      blocksOn s a = some (.mutex m) ∧ ¬ NoShort (waitsOn (setWaitingOn s.k cur (some m))) 16 := by
  rw [mutexLock_panic_iff hb hcur ha]
  refine and_congr_right fun hblk => ?_
  obtain ⟨o, ho⟩ : ∃ o, ownerOf s.k m = some o := by
    rw [ha.blocksOn hcur, callBlocks] at hblk
    split at hblk
    · cases hblk
    · rename_i hn
      exact Option.ne_none_iff_exists'.mp fun h => hn (Or.inl h)
  rw [walk_hops_iff ho, noShort_wait_iff hg (waitsOn_setWaitingOn s.k cur ho), not_not]

/-- With LOCKDEP_ENABLED, in every state that any number of threads reach by calls in any order, no cycle of at most 16
    threads wait for each other; and `mutex_lock` halts in `lockdep_panic_deadlock` exactly when blocking its caller would
    close such a cycle. -/
theorem lockdep_any_threads {b : Build} (hb : b.lockdep = true) {ok : Sys → Act → Prop} {ts : List (ThreadId × Int)}
    {counts : SemId → Int} {s : Sys} (h : Run b ok ts counts s) :
    NoShort (waitsOn s.k) 16 ∧ ∀ a fuel cur m, s.k.cpu.currentThread = some cur → Calling s cur a (.mutexLock m) →
      (s.step b fuel a = .error .lockdepPanic ↔
        blocksOn s a = some (.mutex m) ∧ ¬ NoShort (waitsOn (setWaitingOn s.k cur (some m))) 16) := by
  have hg : NoShort (waitsOn s.k) 16 := by
    induction h with
    | boot fuel hn hboot =>
      refine noShort_of_acyclic (Acyclic.of_rank (fun _ => 0) fun t u htu => ?_) 16
      exact absurd htu (not_waitsOn_of_none (boot_waiting hboot t) u)
    | @step s _ a fuel _ _ hs ih =>
      obtain ⟨cur, hcur, hst⟩ := Sys.step_edges hs
      cases hst with
      | fewer h => exact ih.mono h
      | intoSink w hw h => exact ih.into_sink h hw
      | blocks m hblk h =>
        refine NoShort.mono ?_ h
        -- a step that returned did not close a cycle
        by_contra hclose
        have hpanic : s.step b fuel a = .error .lockdepPanic :=
          (panic_iff_closes_short hb ih hcur (calling_of_blocksOn hcur hblk)).mpr ⟨hblk, hclose⟩
        rw [hpanic] at hs
        cases hs
  exact ⟨hg, fun a fuel cur m hcur ha => panic_iff_closes_short hb hg hcur ha⟩

/-- Threads 0 and 1 own a mutex each, thread 1 waits for thread 0's and thread 2 has run; then thread 0 asks for
    thread 1's. -/
theorem lockdep_any_threads_two_of_three :
    ∃ s, Run ⟨.rr, true, true⟩ (fun _ _ => True) [(0, 10), (1, 10), (2, 10)] (fun _ => 0) s ∧ waitsOn s.k 1 0 ∧
      s.step ⟨.rr, true, true⟩ 4 (.call (.mutexLock 1)) = .error .lockdepPanic ∧
      ¬ NoShort (waitsOn (setWaitingOn s.k 0 (some 1))) 16 := by
  have h0 : Run ⟨.rr, true, true⟩ (fun _ _ => True) [(0, 10), (1, 10), (2, 10)] (fun _ => 0) _ := .boot 4 (by decide) rfl
  have h2 := (h0.step (.call (.mutexLock 0)) 4 trivial rfl).step .resume 4 trivial rfl
  have h4 := (h2.step .yield 4 trivial rfl).step (.call (.mutexLock 1)) 4 trivial rfl
  have h6 := (h4.step .resume 4 trivial rfl).step (.call (.mutexLock 0)) 4 trivial rfl
  have h8 := (h6.step .yield 4 trivial rfl).step .yield 4 trivial rfl
  have hlock := ((lockdep_any_threads rfl h8).2 (.call (.mutexLock 1)) 4 0 1 rfl (.first _ rfl)).mp rfl
  exact ⟨_, h8, ⟨0, rfl, rfl⟩, rfl, hlock.2⟩

end Microkernel

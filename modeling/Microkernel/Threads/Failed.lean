/-
  Microkernel.Threads.Failed — what a failed `thread_create_prio` leaves behind.

  It returns null for arguments that are none, without memory for the `Thread`, for a
  stack size to which no page can be added, and without memory for the stack. On the last
  two exits it has a `Thread` already. The pool takes a block back; kmem.cc has no free,
  and the `Thread` stays allocated for nobody.

  Proved, for every state of the pool and of the heap and for all arguments
  (`failed_unchanged_iff`): a creation that returns null leaves the free list and
  `free_count`, the cursor of the heap and the next thread id as they were if and only if
  the arguments are none, or the pool has a free block, or the heap has no room for a
  `Thread`, or it has room for both. (With a cursor of 0, which only a heap has that has
  wrapped around, `kmem_alloc_aligned` moves the cursor and returns 0, which is null.)
  The `Thread` of the heap is lost in `thread_lost`.
-/

import Microkernel.Threads.Stack

namespace Microkernel.Threads

open Align Arch Bytes Linked MemPool

/-- What later allocations and creations depend on. -/
structure Unchanged (s s' : Statics) : Prop where
  pool : s'.pool = s.pool
  list : s.poolInited = true → ∀ l, Chain (nextFree s.mem) (ptr s.pool.freeList) l → Chain (nextFree s'.mem) (ptr s'.pool.freeList) l
  kmem : s'.kmem = s.kmem
  nextThreadId : s'.nextThreadId = s.nextThreadId

theorem Unchanged.refl (s : Statics) : Unchanged s s := ⟨rfl, fun _ _ hl => hl, rfl, rfl⟩

namespace Statics

/-- The pool, if `sched_init` made it, is as in some run of its calls. -/
def PoolSound (s : Statics) : Prop := s.poolInited = true → ∃ backing held,
  PoolInv backing kThreadPoolBytes kThreadPoolBlockSize s.pool s.mem held ∧ backing.toNat + kThreadPoolBytes.toNat < 2 ^ 64

/-- Behind the `Thread`, the heap has room for the stack and its page, or seems to. -/
def StackGranted (s : Statics) (stackSize : BitVec 64) : Prop :=
  stackSize.toNat + 4096 < 2 ^ 64 ∧ (ceilTo 4096 s.threadEnd + 4096 + stackSize.toNat) % 2 ^ 64 ≤ s.kmem.stop.toNat

/-- The condition of the header. -/
def FailsClean (s : Statics) (entry stackSize : BitVec 64) : Prop :=
  entry = 0#64 ∨ stackSize = 0#64 ∨
  (s.HasFree ∧ (s.kmem.cur ≠ 0#64 ∨ s.kmem.stop.toNat < stackSize.toNat + 4096)) ∨
  (¬ s.HasFree ∧ (s.kmem.stop.toNat < s.threadEnd ∨ (s.kmem.cur ≠ 0#64 ∧ s.StackGranted stackSize)))

variable {b : Mmu.Board} {L : Mmu.Layout} {trampoline : Addr} {s : Statics} {entry arg stackSize : BitVec 64} {prio : Int} {t : Addr}

theorem failsClean_pool (hargs : ¬ (entry = 0#64 ∨ stackSize = 0#64)) (h : s.HasFree) :
    s.FailsClean entry stackSize ↔ s.kmem.cur ≠ 0#64 ∨ s.kmem.stop.toNat < stackSize.toNat + 4096 := by
  rw [not_or] at hargs
  simp [FailsClean, hargs, h]

theorem failsClean_heap (hargs : ¬ (entry = 0#64 ∨ stackSize = 0#64)) (h : ¬ s.HasFree) (hroom : ¬ s.kmem.stop.toNat < s.threadEnd) :
    s.FailsClean entry stackSize ↔ s.kmem.cur ≠ 0#64 ∧ s.StackGranted stackSize := by
  rw [not_or] at hargs
  simp [FailsClean, hargs, h, hroom]

/-- With a cursor of 0 the heap moves it and returns null. -/
theorem stackAlloc_zero {k : Kmem} (hsize : stackSize.toNat + 4096 < 2 ^ 64) (hcur : k.cur = 0#64) (hstop : 4096 ∣ k.stop.toNat) :
    (stackAlloc k stackSize).2 = 0#64 ∧ ((stackAlloc k stackSize).1 = k ↔ k.stop.toNat < stackSize.toNat + 4096) := by
  have hzero : k.cur.toNat = 0 := congrArg BitVec.toNat hcur
  have hceil : ceilTo 4096 0 = 0 := by decide
  rw [stackAlloc_kmem hsize (by omega) hstop, hzero, hceil, Nat.zero_add, Nat.add_comm 4096, Nat.mod_eq_of_lt hsize]
  split
  · rename_i hlt
    exact ⟨rfl, iff_of_true rfl hlt⟩
  · rename_i hge
    refine ⟨rfl, iff_of_false ?_ hge⟩
    intro he
    have he : (BitVec.ofNat 64 (stackSize.toNat + 4096)).toNat = k.cur.toNat := congrArg (fun k => k.cur.toNat) he
    rw [BitVec.toNat_ofNat, Nat.mod_eq_of_lt hsize] at he
    omega

/-- A `Thread` of the pool is given back, so only the heap can differ. -/
theorem unchanged_pool {backing : BitVec 64} {held : Set Addr}
    (hi : PoolInv backing kThreadPoolBytes kThreadPoolBlockSize s.pool s.mem held) (hend : backing.toNat + kThreadPoolBytes.toNat < 2 ^ 64)
    (h : s.HasFree) (k : Kmem) :
    Unchanged s (({ s.allocThread.1 with mem := fill s.allocThread.1.mem s.pool.freeList threadBytes 0, kmem := k } : Statics).releaseThread
      s.pool.freeList) ↔ k = s.kmem := by
  obtain ⟨m, hrel, -, hlist⟩ := releaseThread_pool hi hend h k
  rw [hrel]
  exact ⟨fun hu => hu.kmem, fun hk => ⟨rfl, fun _ => hlist, hk, rfl⟩⟩

variable (b L trampoline entry arg prio) in
/-- With a free block in the pool. -/
theorem failed_pool {backing : BitVec 64} {held : Set Addr}
    (hi : PoolInv backing kThreadPoolBytes kThreadPoolBlockSize s.pool s.mem held) (hend : backing.toNat + kThreadPoolBytes.toNat < 2 ^ 64)
    (hcur : s.kmem.cur.toNat ≤ s.kmem.stop.toNat) (hstop : 4096 ∣ s.kmem.stop.toNat) (h : s.HasFree) :
    (∀ s', s.allocThread.1.createAt b L trampoline s.pool.freeList entry arg stackSize prio = (s', none) → Unchanged s s') ↔
      s.kmem.cur ≠ 0#64 ∨ s.kmem.stop.toNat < stackSize.toNat + 4096 := by
  have hword := s.kmem.stop.isLt
  have hkmem : s.allocThread.1.kmem = s.kmem := by rw [allocThread_pool h]
  have hback := unchanged_pool hi hend h
  by_cases hlarge : 2 ^ 64 ≤ stackSize.toNat + 4096
  · rw [createAt_null (Or.inl hlarge), if_pos hlarge, hkmem]
    refine iff_of_true ?_ (Or.inr (by omega))
    intro s' heq
    cases heq
    exact (hback s.kmem).mpr rfl
  by_cases hnull : (stackAlloc s.kmem stackSize).2 = 0#64
  · have hout : (∀ s', s.allocThread.1.createAt b L trampoline s.pool.freeList entry arg stackSize prio = (s', none) → Unchanged s s') ↔
        (stackAlloc s.kmem stackSize).1 = s.kmem := by
      rw [createAt_null (Or.inr (hkmem.symm ▸ hnull)), if_neg hlarge, hkmem, ← hback]
      constructor
      · intro hall
        exact hall _ rfl
      · intro hu s' heq
        cases heq
        exact hu
    rw [hout]
    by_cases hzero : s.kmem.cur = 0#64
    · rw [(stackAlloc_zero (not_le.mp hlarge) hzero hstop).2]
      exact ⟨Or.inr, fun hor => hor.resolve_left fun hne => hne hzero⟩
    · have hsame := (stackAlloc_null (not_le.mp hlarge) (BitVec.toNat_pos_of_ne_zero hzero) hcur hstop).2 hnull
      exact iff_of_true hsame (Or.inl hzero)
  · have hsome : s.kmem.cur ≠ 0#64 := fun hzero => hnull (stackAlloc_zero (not_le.mp hlarge) hzero hstop).1
    rw [createAt_some (not_le.mp hlarge) (hkmem.symm ▸ hnull)]
    refine iff_of_true ?_ (Or.inl hsome)
    intro s' heq
    cases heq

variable (b L trampoline entry arg prio) in
/-- Without one, and with room for a `Thread` in the heap. -/
theorem failed_heap (hcur : s.kmem.cur.toNat ≤ s.kmem.stop.toNat) (hstop : 4096 ∣ s.kmem.stop.toNat) (h : ¬ s.HasFree)
    (hroom : s.threadEnd ≤ s.kmem.stop.toNat) :
    (∀ s', s.allocThread.1.createAt b L trampoline t entry arg stackSize prio = (s', none) → Unchanged s s') ↔ s.StackGranted stackSize := by
  have hword := s.kmem.stop.isLt
  have hceil := le_ceilTo (a := 16) (by decide) s.kmem.cur.toNat
  have hend : s.threadEnd = ceilTo 16 s.kmem.cur.toNat + 640 := rfl
  have hkmem : s.allocThread.1.kmem = { s.kmem with cur := BitVec.ofNat 64 s.threadEnd } := by
    rw [allocThread_kmem h hcur hstop, if_neg (by omega)]
  have hcur' : (BitVec.ofNat 64 s.threadEnd).toNat = s.threadEnd := toNat_word (by omega)
  -- the cursor has moved past the `Thread`, and no exit moves it back
  have hmoved : ∀ s' : Statics, s'.kmem = s.allocThread.1.kmem → ¬ Unchanged s s' := by
    intro s' hk hu
    have hk := congrArg (fun k => k.cur.toNat) (hk.symm.trans hu.kmem)
    rw [hkmem] at hk
    have hk : (BitVec.ofNat 64 s.threadEnd).toNat = s.kmem.cur.toNat := hk
    omega
  unfold StackGranted
  by_cases hlarge : 2 ^ 64 ≤ stackSize.toNat + 4096
  · rw [createAt_null (Or.inl hlarge), if_pos hlarge]
    refine iff_of_false ?_ (fun hg => by omega)
    intro hall
    exact hmoved _ (by simp) (hall _ rfl)
  obtain ⟨hiff, hsame⟩ := stackAlloc_null (k := s.allocThread.1.kmem) (not_le.mp hlarge) (by rw [hkmem]; show 0 < (BitVec.ofNat 64 _).toNat; omega)
    (by rw [hkmem]; show (BitVec.ofNat 64 _).toNat ≤ s.kmem.stop.toNat; omega) (by rw [hkmem]; exact hstop)
  by_cases hnull : (stackAlloc s.allocThread.1.kmem stackSize).2 = 0#64
  · rw [createAt_null (Or.inr hnull), if_neg hlarge, hsame hnull]
    refine iff_of_false ?_ ?_
    · intro hall
      exact hmoved _ (by simp) (hall _ rfl)
    · have hno := hiff.mp hnull
      rw [hkmem] at hno
      dsimp only at hno
      rw [hcur'] at hno
      omega
  · rw [createAt_some (not_le.mp hlarge) hnull]
    refine iff_of_true ?_ ⟨not_le.mp hlarge, ?_⟩
    · intro s' heq
      cases heq
    · have hyes := fun hlt => hnull (hiff.mpr hlt)
      rw [hkmem] at hyes
      dsimp only at hyes
      rw [hcur'] at hyes
      exact not_lt.mp hyes

end Statics

open Statics

/-- For every state and all arguments: a creation that returns null changes nothing if and
    only if `FailsClean` holds. -/
theorem failed_unchanged_iff (b : Mmu.Board) (L : Mmu.Layout) (trampoline : Addr) {s : Statics} (hp : s.PoolSound)
    (hcur : s.kmem.cur.toNat ≤ s.kmem.stop.toNat) (hstop : 4096 ∣ s.kmem.stop.toNat) (entry arg stackSize : BitVec 64) (prio : Int) :
    (∀ s', s.threadCreatePrio b L trampoline entry arg stackSize prio = (s', none) → Unchanged s s') ↔ s.FailsClean entry stackSize := by
  have hword := s.kmem.stop.isLt
  unfold Statics.threadCreatePrio
  by_cases hargs : entry = 0#64 ∨ stackSize = 0#64
  · rw [if_pos hargs]
    refine iff_of_true ?_ (hargs.imp_right Or.inl)
    intro s' heq
    cases heq
    exact Unchanged.refl s
  rw [if_neg hargs]
  by_cases hfree : s.HasFree
  · obtain ⟨backing, held, hi, hend⟩ := hp hfree.1
    have hfst : s.allocThread.2 = s.pool.freeList := by rw [allocThread_pool hfree]
    rw [hfst, if_neg hfree.2, failsClean_pool hargs hfree]
    exact failed_pool b L trampoline entry arg prio hi hend hcur hstop hfree
  by_cases hroom : s.kmem.stop.toNat < s.threadEnd
  · rw [allocThread_kmem hfree hcur hstop, if_pos hroom, if_pos rfl]
    refine iff_of_true ?_ (Or.inr (Or.inr (Or.inr ⟨hfree, Or.inl hroom⟩)))
    intro s' heq
    cases heq
    exact Unchanged.refl s
  rw [failsClean_heap hargs hfree hroom]
  have hceil := le_ceilTo (a := 16) (by decide) s.kmem.cur.toNat
  have hend : s.threadEnd = ceilTo 16 s.kmem.cur.toNat + 640 := rfl
  by_cases hzero : s.kmem.cur = 0#64
  · -- the rounded cursor is 0, too, and what was asked for is the new one
    have hceil0 : ceilTo 16 s.kmem.cur.toNat = 0 := by
      rw [hzero]
      decide
    rw [allocThread_kmem hfree hcur hstop, if_neg hroom, hend, hceil0, if_pos rfl]
    refine iff_of_false ?_ (fun hg => hg.1 hzero)
    intro hall
    have hmoved : BitVec.ofNat 64 (0 + 640) = s.kmem.cur := congrArg Kmem.cur (hall _ rfl).kmem
    rw [hzero] at hmoved
    exact absurd hmoved (by decide)
  · have hne : s.allocThread.2 ≠ 0#64 := by
      rw [allocThread_kmem hfree hcur hstop, if_neg hroom]
      intro h0
      have h0 : (BitVec.ofNat 64 (ceilTo 16 s.kmem.cur.toNat)).toNat = 0 := congrArg BitVec.toNat h0
      rw [BitVec.toNat_ofNat, Nat.mod_eq_of_lt (by omega)] at h0
      have hpos := BitVec.toNat_pos_of_ne_zero hzero
      omega
    rw [if_neg hne, failed_heap b L trampoline entry arg prio hcur hstop hfree (not_lt.mp hroom)]
    exact ⟨fun hg => ⟨hzero, hg⟩, fun hg => hg.2⟩

/-- Every run meets the assumptions. -/
theorem poolSound_run {b : Mmu.Board} {L : Mmu.Layout} {trampoline : Addr} {h : PageHeap} {s : Statics} (r : CreateRun b L trampoline h s) :
    s.PoolSound ∧ s.kmem.cur.toNat ≤ s.kmem.stop.toNat ∧ 4096 ∣ s.kmem.stop.toNat := by
  obtain ⟨backing, held, hi⟩ := allocInv_run r
  have hhigh := hi.high
  have hword := h.stop.isLt
  refine ⟨fun hinit => ?_, ?_, ?_⟩
  · obtain ⟨hpool, -, hbelow⟩ := hi.pool hinit
    exact ⟨backing, held, hpool, by omega⟩
  · rw [hi.stop]
    exact hhigh
  · rw [hi.stop]
    exact h.stop_aligned

/-! ## A stack of 2 MiB -/

/-- With a block of the pool, nothing is left of the creation. -/
theorem failed_unchanged_pool :
    ∃ s', sampleStatics.threadCreatePrio .virt Mmu.sampleLayout 0x40080000#64 0x40081000#64 0#64 0x200000#64 10 = (s', none) ∧
      Unchanged sampleStatics s' := by
  obtain ⟨hp, hcur, hstop⟩ := poolSound_run sampleStatics_run
  have hclean : sampleStatics.FailsClean 0x40081000#64 0x200000#64 := by
    refine Or.inr (Or.inr (Or.inl ⟨?_, Or.inl ?_⟩)) <;> decide +kernel
  have hall := (failed_unchanged_iff .virt Mmu.sampleLayout 0x40080000#64 hp hcur hstop 0x40081000#64 0#64 0x200000#64 10).mpr hclean
  have hnull : (sampleStatics.threadCreatePrio .virt Mmu.sampleLayout 0x40080000#64 0x40081000#64 0#64 0x200000#64 10).2 = none := by
    decide +kernel
  exact ⟨_, Prod.ext rfl hnull, hall _ (Prod.ext rfl hnull)⟩

/-- Before `sched_init`, there is no pool. -/
def withoutPool : Statics :=
  ⟨fun _ => 0#8, ⟨0#64, 0#64, 0#64, 0#64, 0#64⟩, false, 1, Kmem.init sampleHeap.toHeap, ⟨fun _ => 0#64, 0, 0#64, 0#64, 0#64, 0#64⟩⟩

/-- The `Thread` comes from the heap, and the heap has lost its 640 bytes. -/
theorem thread_lost :
    withoutPool.PoolSound ∧ withoutPool.kmem.cur.toNat ≤ withoutPool.kmem.stop.toNat ∧ 4096 ∣ withoutPool.kmem.stop.toNat ∧
      ∃ s', withoutPool.threadCreatePrio .virt Mmu.sampleLayout 0x40080000#64 0x40081000#64 0#64 0x200000#64 10 = (s', none) ∧
        s'.kmem.cur.toNat = withoutPool.kmem.cur.toNat + 640 ∧ ¬ Unchanged withoutPool s' := by
  have hnull : (withoutPool.threadCreatePrio .virt Mmu.sampleLayout 0x40080000#64 0x40081000#64 0#64 0x200000#64 10).2 = none := by
    decide +kernel
  have hmoved : (withoutPool.threadCreatePrio .virt Mmu.sampleLayout 0x40080000#64 0x40081000#64 0#64 0x200000#64 10).1.kmem.cur.toNat =
      withoutPool.kmem.cur.toNat + 640 := by
    decide +kernel
  generalize withoutPool.threadCreatePrio .virt Mmu.sampleLayout 0x40080000#64 0x40081000#64 0#64 0x200000#64 10 = r at hnull hmoved ⊢
  refine ⟨fun hinit => ?_, by decide, by decide, r.1, Prod.ext rfl hnull, hmoved, fun hu => ?_⟩
  · cases hinit
  · rw [hu.kmem] at hmoved
    omega

end Microkernel.Threads

/-
  Microkernel.Threads.Allocators — the pool and the heap over every run of thread creations.

  `sched_init` takes the memory of the pool from the heap, so every later block of the heap
  lies behind it, and a `Thread` is a block of the one or the other. In a run, calls of the
  heap and creations fit into the heap or return null, and memory is changed by anyone
  but in the free blocks of the pool, whose first words are the free list.

  Proved, over every run (`allocInv_run`): the cursor lies in the heap and behind the pool,
  and the pool is sound. So a creation that fits has a `Thread` and a stack of its own
  (`AllocInv.create`), and one that returns null leaves the pool with the blocks it had
  (`AllocInv.create_null`).
-/

import Microkernel.Threads.Create

namespace Microkernel.Threads

open Align Arch Bytes

/-! ## The allocators over a run -/

/-- The heap of the linker scripts, which ends on a page. -/
structure PageHeap extends Heap where
  stop_aligned : 4096 ∣ stop.toNat

/-- The cursor lies in the heap and behind the pool, whose blocks in `held` are `Thread`s. -/
structure AllocInv (h : PageHeap) (backing : BitVec 64) (held : Set Addr) (s : Statics) : Prop where
  stop : s.kmem.stop = h.stop
  low : h.start.toNat ≤ s.kmem.cur.toNat
  high : s.kmem.cur.toNat ≤ h.stop.toNat
  pool : s.poolInited = true → MemPool.PoolInv backing kThreadPoolBytes kThreadPoolBlockSize s.pool s.mem held ∧
    h.start.toNat ≤ backing.toNat ∧ backing.toNat + kThreadPoolBytes.toNat ≤ s.kmem.cur.toNat

/-- The byte at `a` is in no free block. -/
def Statics.Taken (s : Statics) (held : Set Addr) (a : Addr) : Prop :=
  s.poolInited = true → ∀ p, s.pool.IsBlock p → p ∉ held → ¬ s.pool.InBlock p a

/-- The cursor when the stack is asked for. -/
def Statics.stackCur (s : Statics) : Nat := if s.HasFree then s.kmem.cur.toNat else s.threadEnd

/-- A `Thread` whose bytes are no free block's, below the cursor. -/
structure Statics.Ready (s : Statics) (held : Set Addr) (t : Addr) : Prop where
  ne : t ≠ 0#64
  below : t.toNat + threadBytes ≤ s.kmem.cur.toNat
  taken : ∀ a, (a - t).toNat < threadBytes → s.Taken held a

theorem Statics.Taken.congr {s s' : Statics} {held : Set Addr} {a : Addr} (h : s.Taken held a) (hinit : s'.poolInited = s.poolInited)
    (hpool : s'.pool = s.pool) : s'.Taken held a := by
  unfold Taken
  rw [hinit, hpool]
  exact h

open Statics

variable {h : PageHeap} {backing : BitVec 64} {held : Set Addr} {s : Statics} {k : Kmem} {m : Mem}
  {b : Mmu.Board} {L : Mmu.Layout} {trampoline : Addr} {entry arg stackSize : BitVec 64} {prio : Int} {a : Addr}

/-- Memory behind the cursor is not the pool's. -/
theorem AllocInv.taken_of_cur_le (hi : AllocInv h backing held s) (ha : s.kmem.cur.toNat ≤ a.toNat) : s.Taken held a := by
  intro hinit p hp _ hin
  obtain ⟨hpool, -, hbelow⟩ := hi.pool hinit
  have hhigh := hpool.shape.high
  have hblock := MemPool.block_in hp
  obtain ⟨-, hlt⟩ := hin
  omega

/-- A store anywhere else than into a free block. -/
theorem AllocInv.write (hi : AllocInv h backing held s) (hm : ∀ a, m a ≠ s.mem a → s.Taken held a) :
    AllocInv h backing held { s with mem := m } := by
  refine ⟨hi.stop, hi.low, hi.high, fun hinit => ?_⟩
  obtain ⟨hpool, hlow, hbelow⟩ := hi.pool hinit
  refine ⟨hpool.congr fun p hp hph a ha => ?_, hlow, hbelow⟩
  by_contra hne
  exact hm a hne hinit p hp hph ha

/-- An allocation from the heap. -/
theorem AllocInv.kmem (hi : AllocInv h backing held s) (hstop : k.stop = s.kmem.stop) (hle : s.kmem.cur.toNat ≤ k.cur.toNat)
    (hhigh : k.cur.toNat ≤ h.stop.toNat) : AllocInv h backing held { s with kmem := k } := by
  refine ⟨hstop.trans hi.stop, hi.low.trans hle, hhigh, fun hinit => ?_⟩
  obtain ⟨hpool, hlow, hbelow⟩ := hi.pool hinit
  exact ⟨hpool, hlow, hbelow.trans hle⟩

theorem AllocInv.allocThread_pool (hi : AllocInv h backing held s) (hfree : s.HasFree) :
    AllocInv h backing (insert s.pool.freeList held) s.allocThread.1 ∧
      Ready s.allocThread.1 (insert s.pool.freeList held) s.pool.freeList := by
  obtain ⟨hpool, hlow, hbelow⟩ := hi.pool hfree.1
  obtain ⟨-, hb, -, htake⟩ := hpool.take hfree.2
  have hsame := MemPool.same_alloc s.pool s.mem
  have hin := MemPool.block_in hb
  have hhigh := hpool.shape.high
  have hword := hpool.shape.word
  have hsize : 640 ≤ s.pool.blockSize.toNat := hpool.shape.size_le
  rw [Statics.allocThread_pool hfree]
  refine ⟨⟨hi.stop, hi.low, hi.high, fun _ => ⟨htake, hlow, hbelow⟩⟩, hfree.2, ?_, ?_⟩
  · show s.pool.freeList.toNat + 640 ≤ s.kmem.cur.toNat
    omega
  · intro a ha _ p hp hph
    refine MemPool.not_inBlock_free htake.held_blocks (Or.inl ⟨_, Set.mem_insert _ _, ?_⟩) hp hph
    unfold threadBytes at ha
    unfold MemPool.InBlock
    rw [hsame.blockSize]
    bv_omega

theorem AllocInv.allocThread_heap (hi : AllocInv h backing held s) (hfree : ¬ s.HasFree) (hroom : s.threadEnd ≤ h.stop.toNat) :
    AllocInv h backing held s.allocThread.1 ∧ Ready s.allocThread.1 held s.allocThread.2 ∧
      s.allocThread.1.kmem.cur.toNat = s.threadEnd ∧ s.kmem.cur.toNat ≤ s.allocThread.2.toNat := by
  have hword := h.stop.isLt
  have hpos := h.pos
  have hlow := hi.low
  have hhigh := hi.high
  have hstop : s.kmem.stop.toNat = h.stop.toNat := by rw [hi.stop]
  have hceil := le_ceilTo (a := 16) (by decide) s.kmem.cur.toNat
  have hend : s.threadEnd = ceilTo 16 s.kmem.cur.toNat + 640 := rfl
  have hcur : (BitVec.ofNat 64 s.threadEnd).toNat = s.threadEnd := toNat_word (by omega)
  have ht : (BitVec.ofNat 64 (ceilTo 16 s.kmem.cur.toNat)).toNat = ceilTo 16 s.kmem.cur.toNat := toNat_word (by omega)
  rw [allocThread_kmem hfree (by omega) (by rw [hstop]; exact h.stop_aligned), if_neg (by omega)]
  refine ⟨hi.kmem rfl ?_ ?_, ⟨?_, ?_, ?_⟩, hcur, ?_⟩
  · show s.kmem.cur.toNat ≤ (BitVec.ofNat 64 s.threadEnd).toNat
    omega
  · show (BitVec.ofNat 64 s.threadEnd).toNat ≤ _
    omega
  · intro h0
    have h0 : (BitVec.ofNat 64 (ceilTo 16 s.kmem.cur.toNat)).toNat = 0 := congrArg BitVec.toNat h0
    omega
  · show (BitVec.ofNat 64 (ceilTo 16 s.kmem.cur.toNat)).toNat + 640 ≤ (BitVec.ofNat 64 s.threadEnd).toNat
    omega
  · intro a ha
    have hfar : s.kmem.cur.toNat ≤ a.toNat := by
      unfold threadBytes at ha
      bv_omega
    exact (hi.taken_of_cur_le hfar).congr rfl rfl
  · show _ ≤ (BitVec.ofNat 64 (ceilTo 16 s.kmem.cur.toNat)).toNat
    omega

/-- The `Thread` of a creation, from either allocator. -/
theorem AllocInv.allocThread (hi : AllocInv h backing held s) (hroom : s.HasFree ∨ s.threadEnd ≤ h.stop.toNat) :
    ∃ held', AllocInv h backing held' s.allocThread.1 ∧ Ready s.allocThread.1 held' s.allocThread.2 ∧
      s.allocThread.1.kmem.cur.toNat = s.stackCur := by
  unfold stackCur
  by_cases hfree : s.HasFree
  · obtain ⟨hinv, hready⟩ := hi.allocThread_pool hfree
    rw [Statics.allocThread_pool hfree] at hinv hready ⊢
    exact ⟨_, hinv, hready, by rw [if_pos hfree]⟩
  · obtain ⟨hinv, hready, hcur, -⟩ := hi.allocThread_heap hfree (hroom.resolve_left hfree)
    exact ⟨held, hinv, hready, by rw [if_neg hfree, hcur]⟩

variable (b L trampoline entry arg prio) in
/-- The rest of a creation whose stack fits: where the stack lies, and what is stored. -/
theorem AllocInv.createAt {t : Addr} (hi : AllocInv h backing held s) (ht : Ready s held t)
    (hfit : ceilTo 4096 s.kmem.cur.toNat + 4096 + stackSize.toNat ≤ h.stop.toNat) :
    ∃ s' d, s.createAt b L trampoline t entry arg stackSize prio = (s', some d) ∧ d.tcb = t ∧ d.size = stackSize ∧
      d.base.toNat = ceilTo 4096 s.kmem.cur.toNat + 4096 ∧
      s'.mem = createThread trampoline d s.nextThreadId prio (fill s.mem t threadBytes 0) ∧ AllocInv h backing held s' := by
  have hword := h.stop.isLt
  have hpos := h.pos
  have hlow := hi.low
  have hstop : s.kmem.stop.toNat = h.stop.toNat := by rw [hi.stop]
  have hceil := le_ceilTo (a := 4096) (by decide) s.kmem.cur.toNat
  have hreq : stackSize.toNat + 4096 < 2 ^ 64 := by omega
  have halloc := stackAlloc_kmem hreq (hi.high.trans_eq hstop.symm) (hstop ▸ h.stop_aligned)
  rw [Nat.mod_eq_of_lt (by omega), if_neg (by omega)] at halloc
  have hbase : (BitVec.ofNat 64 (ceilTo 4096 s.kmem.cur.toNat)).toNat = ceilTo 4096 s.kmem.cur.toNat := toNat_word (by omega)
  have hcur : (BitVec.ofNat 64 (ceilTo 4096 s.kmem.cur.toNat + 4096 + stackSize.toNat)).toNat =
      ceilTo 4096 s.kmem.cur.toNat + 4096 + stackSize.toNat := toNat_word (by omega)
  generalize BitVec.ofNat 64 (ceilTo 4096 s.kmem.cur.toNat) = p at halloc hbase
  generalize BitVec.ofNat 64 (ceilTo 4096 s.kmem.cur.toNat + 4096 + stackSize.toNat) = cur at halloc hcur
  have hne : (stackAlloc s.kmem stackSize).2 ≠ 0#64 := by
    rw [halloc]
    intro h0
    have h0 : p.toNat = 0 := congrArg BitVec.toNat h0
    omega
  have hpage : (BitVec.ofNat 64 kStackGuardPageBytes).toNat = 4096 := rfl
  have hdbase : (p + BitVec.ofNat 64 kStackGuardPageBytes).toNat = ceilTo 4096 s.kmem.cur.toNat + 4096 := by
    rw [BitVec.toNat_add, hpage, hbase]
    exact Nat.mod_eq_of_lt (by omega)
  refine ⟨_, _, createAt_some hreq hne, rfl, rfl, ?_, rfl, ?_⟩
  · rw [halloc]
    exact hdbase
  · rw [halloc]
    -- the stores fall on the `Thread` and behind the cursor
    have hmem := hi.write (m := createThread trampoline ⟨t, p + BitVec.ofNat 64 kStackGuardPageBytes, stackSize, entry, arg⟩ s.nextThreadId prio
      (fill s.mem t threadBytes 0)) fun a ha => ?_
    · have hkmem := hmem.kmem (k := ⟨cur, s.kmem.stop⟩) rfl (show s.kmem.cur.toNat ≤ cur.toNat by omega) (show cur.toNat ≤ _ by omega)
      exact ⟨hkmem.stop, hkmem.low, hkmem.high, hkmem.pool⟩
    · by_cases htcb : (a - t).toNat < threadBytes
      · exact ht.taken a htcb
      refine hi.taken_of_cur_le ?_
      by_contra hbelow
      have htop := top_toNat ⟨t, p + BitVec.ofNat 64 kStackGuardPageBytes, stackSize, entry, arg⟩
      refine ha ((createThread_untouched ?_ ?_ (not_lt.mp htcb)).trans (fill_outside (not_lt.mp htcb)))
      · show stackSize.toNat ≤ (a - (p + BitVec.ofNat 64 kStackGuardPageBytes)).toNat
        bv_omega
      · dsimp only at htop
        generalize Created.top _ = top at htop ⊢
        have hsumBase : (p + BitVec.ofNat 64 kStackGuardPageBytes + stackSize).toNat = ceilTo 4096 s.kmem.cur.toNat + 4096 + stackSize.toNat := by
          rw [BitVec.toNat_add, hdbase]
          exact Nat.mod_eq_of_lt (by omega)
        rw [hsumBase] at htop
        bv_omega

/-! ## Runs -/

/-- The memory that a creation needs lies in the heap. -/
def Statics.FitsHeap (s : Statics) (stackSize : BitVec 64) : Prop := ceilTo 4096 s.stackCur + 4096 + stackSize.toNat ≤ s.kmem.stop.toNat

variable (b L trampoline arg prio) in
/-- A creation that fits succeeds. -/
theorem AllocInv.create (hi : AllocInv h backing held s) (hentry : entry ≠ 0#64) (hsize : 0 < stackSize.toNat)
    (hfit : s.FitsHeap stackSize) :
    ∃ s' d m held', s.threadCreatePrio b L trampoline entry arg stackSize prio = (s', some d) ∧ d.tcb ≠ 0#64 ∧
      d.size = stackSize ∧ d.base.toNat = ceilTo 4096 s.stackCur + 4096 ∧ d.tcb.toNat + threadBytes ≤ s.stackCur ∧
      s'.mem = createThread trampoline d s.nextThreadId prio m ∧ AllocInv h backing held' s' := by
  have hstop : s.kmem.stop.toNat = h.stop.toNat := by rw [hi.stop]
  have hceil := le_ceilTo (a := 4096) (by decide) s.stackCur
  unfold FitsHeap at hfit
  have hroom : s.HasFree ∨ s.threadEnd ≤ h.stop.toNat := by
    by_cases hfree : s.HasFree
    · exact Or.inl hfree
    · have hcur : s.stackCur = s.threadEnd := if_neg hfree
      exact Or.inr (by omega)
  obtain ⟨held', hinv, hready, hcur⟩ := hi.allocThread hroom
  rw [← hcur, hstop] at hfit
  obtain ⟨s', d, heq, htcb, hds, hbase, hmem, hinv'⟩ :=
    hinv.createAt b L trampoline entry arg prio hready hfit
  have hargs : ¬ (entry = 0#64 ∨ stackSize = 0#64) := by
    rintro (h0 | h0)
    · exact hentry h0
    · rw [h0] at hsize
      exact absurd hsize (by decide)
  rw [allocThread_nextThreadId] at hmem
  rw [← htcb] at hready
  refine ⟨s', d, _, held', ?_, hready.ne, hds, ?_, ?_, hmem, hinv'⟩
  · rw [Statics.threadCreatePrio, if_neg hargs, ← htcb, if_neg hready.ne, htcb, heq]
  · rw [hbase, hcur]
  · rw [← hcur]
    exact hready.below

/-- The pool owns nothing behind the cursor. -/
theorem AllocInv.owns_of_cur_le (hi : AllocInv h backing held s) (hinit : s.poolInited = true) (ha : s.kmem.cur.toNat ≤ a.toNat) :
    s.pool.owns a = false := by
  obtain ⟨hpool, -, hbelow⟩ := hi.pool hinit
  have hhigh := hi.high
  have hword := h.stop.isLt
  have hend := hpool.shape.high
  rw [← Bool.not_eq_true, hpool.shape.owns_iff a (by omega)]
  intro hb
  have hin := MemPool.block_in hb
  have hsize := hpool.shape.size_pos
  omega

/-- Once it has a `Thread`, a creation that returns null only gives it back. -/
theorem AllocInv.createAt_null (hi : AllocInv h backing held s) {t : Addr} {s' : Statics}
    (hnull : s.createAt b L trampoline t entry arg stackSize prio = (s', none)) :
    s' = ({ s with mem := fill s.mem t threadBytes 0 } : Statics).releaseThread t := by
  have hpos := h.pos
  have hlow := hi.low
  have hstop : h.stop.toNat = s.kmem.stop.toNat := by rw [hi.stop]
  by_cases hlarge : 2 ^ 64 ≤ stackSize.toNat + 4096
  · rw [Statics.createAt_null (Or.inl hlarge), if_pos hlarge] at hnull
    cases hnull
    rfl
  · have hkeep := (stackAlloc_null (not_le.mp hlarge) (by omega) (hi.high.trans_eq hstop) (hstop ▸ h.stop_aligned)).2
    by_cases hno : (stackAlloc s.kmem stackSize).2 = 0#64
    · rw [Statics.createAt_null (Or.inr hno), if_neg hlarge, hkeep hno] at hnull
      cases hnull
      rfl
    · rw [createAt_some (not_le.mp hlarge) hno] at hnull
      cases hnull

/-- A creation that returns null leaves the invariant, and the same `Thread`s in the pool. -/
theorem AllocInv.create_null (hi : AllocInv h backing held s) {s' : Statics}
    (hnull : s.threadCreatePrio b L trampoline entry arg stackSize prio = (s', none)) : AllocInv h backing held s' := by
  have hstop : h.stop.toNat = s.kmem.stop.toNat := by rw [hi.stop]
  unfold Statics.threadCreatePrio at hnull
  split at hnull
  · cases hnull
    exact hi
  by_cases hfree : s.HasFree
  · obtain ⟨hinv, hready⟩ := hi.allocThread_pool hfree
    obtain ⟨hpool, hback, hbelow⟩ := hi.pool hfree.1
    have hword := h.stop.isLt
    have hhigh := hi.high
    obtain ⟨m', hrel, hkept, -⟩ := releaseThread_pool hpool (by omega) hfree s.kmem
    have hfst : s.allocThread.2 = s.pool.freeList := by rw [Statics.allocThread_pool hfree]
    have hk : s.allocThread.1.kmem = s.kmem := by rw [Statics.allocThread_pool hfree]
    rw [hfst, if_neg hfree.2] at hnull
    rw [← hk] at hrel
    rw [hinv.createAt_null hnull, hrel, hk]
    exact ⟨hi.stop, hi.low, hi.high, fun _ => ⟨hkept, hback, hbelow⟩⟩
  · by_cases hroom : s.threadEnd ≤ h.stop.toNat
    · obtain ⟨hinv, hready, -, hlow⟩ := hi.allocThread_heap hfree hroom
      rw [if_neg hready.ne] at hnull
      have hzero : AllocInv h backing held { s.allocThread.1 with mem := fill s.allocThread.1.mem s.allocThread.2 threadBytes 0 } := by
        refine hinv.write fun a ha => hready.taken a ?_
        by_contra hout
        exact ha (fill_outside (not_lt.mp hout))
      -- a `Thread` of the heap stays taken
      have howns : ¬ (s.allocThread.1.poolInited = true ∧ s.allocThread.1.pool.owns s.allocThread.2 = true) := by
        rintro ⟨hinit, ho⟩
        rw [Statics.allocThread_heap hfree] at hinit ho hlow
        rw [hi.owns_of_cur_le hinit hlow] at ho
        cases ho
      rw [hinv.createAt_null hnull, releaseThread, if_neg howns]
      exact hzero
    · have hno : s.allocThread = (s, 0#64) := by
        rw [allocThread_kmem hfree (hi.high.trans_eq hstop) (hstop ▸ h.stop_aligned), if_pos (by omega)]
      rw [hno, if_pos rfl] at hnull
      cases hnull
      exact hi

/-- `sched_init` after calls of the heap that fit. -/
theorem allocInv_schedInit {bs : List Block} (hk : KmemInv h.toHeap s.kmem bs) (hf : Fits s.kmem kThreadPoolBytes kThreadPoolAlign) :
    ∃ backing held, AllocInv h backing held s.schedInit := by
  have hword := h.stop.isLt
  have hplace := s.kmem.cur_le_place kThreadPoolAlign
  have hlow := hk.low
  have hhigh := hk.high
  unfold Statics.schedInit
  simp only
  rcases hk.fits hf with ⟨hnull, hsame⟩ | ⟨hp, hle, hstop, hcur⟩
  · rw [if_pos hnull, hsame]
    exact ⟨0#64, ∅, hk.stop, hk.low, hk.high, fun hinit => by cases hinit⟩
  · generalize s.kmem.allocAligned kThreadPoolBytes kThreadPoolAlign = r at hp hstop hcur
    have hnone : ∀ s' : Statics, s'.kmem = r.1 → s'.poolInited = false → AllocInv h 0#64 ∅ s' := by
      intro s' hk' hno
      refine ⟨?_, ?_, ?_, fun hinit => ?_⟩
      · rw [hk', hstop, hk.stop]
      · rw [hk']
        omega
      · rw [hk']
        omega
      · rw [hno] at hinit
        cases hinit
    split
    · exact ⟨_, _, hnone _ rfl rfl⟩
    · split
      · exact ⟨_, _, hnone _ rfl rfl⟩
      · rename_i r' hinit
        have hw : r.2.toNat + kThreadPoolBytes.toNat ≤ 2 ^ 64 := by omega
        refine ⟨r.2, ∅, hstop.trans hk.stop, ?_, ?_, fun _ => ⟨MemPool.poolInv_run hw (.init hinit), ?_, ?_⟩⟩
        · show h.start.toNat ≤ r.1.cur.toNat
          omega
        · show r.1.cur.toNat ≤ h.stop.toNat
          omega
        · show h.start.toNat ≤ r.2.toNat
          omega
        · show r.2.toNat + _ ≤ r.1.cur.toNat
          omega

/-- `sched_init` after any calls of the heap, then creations and more calls of the heap, as
    long as they fit or return null, and stores by anyone outside the free blocks. -/
inductive CreateRun (b : Mmu.Board) (L : Mmu.Layout) (trampoline : Addr) (h : PageHeap) : Statics → Prop
  | boot {s : Statics} {bs : List Block} : KmemRun h.toHeap Fits s.kmem bs → Fits s.kmem kThreadPoolBytes kThreadPoolAlign →
      CreateRun b L trampoline h s.schedInit
  | alloc {s : Statics} (sz align : BitVec 64) : CreateRun b L trampoline h s → Fits s.kmem sz align →
      CreateRun b L trampoline h { s with kmem := (s.kmem.allocAligned sz align).1 }
  | create {s s' : Statics} (entry arg stackSize : BitVec 64) (prio : Int) (d : Option Created) : CreateRun b L trampoline h s →
      s.threadCreatePrio b L trampoline entry arg stackSize prio = (s', d) → s.FitsHeap stackSize ∨ d = none →
      CreateRun b L trampoline h s'
  | write {s : Statics} (a : Addr) (v : BitVec 8) : CreateRun b L trampoline h s →
      (s.poolInited = true → ∀ l, Linked.Chain (nextFree s.mem) (ptr s.pool.freeList) l → ∀ p ∈ l, ¬ s.pool.InBlock p a) →
      CreateRun b L trampoline h { s with mem := Function.update s.mem a v }

theorem allocInv_run (r : CreateRun b L trampoline h s) : ∃ backing held, AllocInv h backing held s := by
  induction r with
  | boot hk hf => exact allocInv_schedInit (kmemInv_run hk) hf
  | @alloc s sz align _ hf ih =>
    obtain ⟨backing, held, hi⟩ := ih
    have hk : KmemInv h.toHeap s.kmem [] := ⟨hi.stop, hi.low, hi.high, by simp, by simp, List.Pairwise.nil⟩
    refine ⟨backing, held, ?_⟩
    rcases hk.fits hf with ⟨-, hsame⟩ | ⟨-, hle, hstop, hcur⟩
    · rw [hsame]
      exact hi
    · have hplace := s.kmem.cur_le_place align
      exact hi.kmem hstop (by omega) (by omega)
  | @create s s' entry arg stackSize prio d _ heq hd ih =>
    obtain ⟨backing, held, hi⟩ := ih
    cases d with
    | none => exact ⟨backing, held, hi.create_null heq⟩
    | some d =>
      have hfit := hd.resolve_right (by simp)
      by_cases hargs : entry = 0#64 ∨ stackSize = 0#64
      · rw [Statics.threadCreatePrio, if_pos hargs] at heq
        cases heq
      rw [not_or] at hargs
      have hsize : 0 < stackSize.toNat := BitVec.toNat_pos_of_ne_zero hargs.2
      obtain ⟨s₂, d₂, m, held', heq₂, -, -, -, -, -, hinv⟩ := hi.create b L trampoline arg prio hargs.1 hsize hfit
      cases heq.symm.trans heq₂
      exact ⟨backing, held', hinv⟩
  | @write s a v _ ha ih =>
    obtain ⟨backing, held, hi⟩ := ih
    refine ⟨backing, held, hi.write fun c hc hinit p hp hph hin => ?_⟩
    obtain ⟨⟨hs, hh, l, hf⟩, -, -⟩ := hi.pool hinit
    have hca : c = a := by
      by_contra hne
      exact hc (Function.update_of_ne hne v s.mem)
    rw [hca] at hin
    exact ha hinit l hf.chain p ((hf.mem p).mpr ⟨hp, hph⟩) hin

end Microkernel.Threads

/-
  Microkernel.Threads.Create — `sched_init` and `thread_create_prio` of src/thread.cc with
  the two allocators behind them.

  A `Thread` comes from the pool that `sched_init` made, and from the heap when the pool
  has no free block or was never made; its stack always comes from the heap, with a page
  below it that `mmu_guard_page` is asked to unmap. A failed creation gives the `Thread`
  back if the pool owns it. What is stored into the `Thread` and its stack is
  `Arch.createThread`. Sizes are those of the LP64 layout of include/thread.h.

  One lemma for each way to go: a `Thread` from the pool or from the heap
  (`allocThread_pool`, `allocThread_kmem`), back into the pool (`releaseThread_pool`), and
  a creation that fails or succeeds from there (`createAt_null`, `createAt_some`).
-/

import Mathlib
import Microkernel.Arch.Context
import Microkernel.Mem.Kmem
import Microkernel.Mem.Pool
import Microkernel.Mmu.Tables

namespace Microkernel.Threads

open Align Arch Bytes

/-! ## src/thread.cc -/

def kThreadPoolAlign : BitVec 64 := 16#64
def kThreadPoolBlockSize : BitVec 64 := (BitVec.ofNat 64 threadBytes + (kThreadPoolAlign - 1#64)) &&& ~~~(kThreadPoolAlign - 1#64)
def kThreadPoolCount : BitVec 64 := 32#64
def kThreadPoolBytes : BitVec 64 := kThreadPoolBlockSize * kThreadPoolCount + kThreadPoolAlign

/-- `alignof(Thread)`, for the FPSIMD registers. -/
def threadAlign : BitVec 64 := 16#64

/-- The globals of thread.cc and of the files it calls, and the memory. -/
structure Statics where
  mem : Mem
  pool : MemPool
  poolInited : Bool
  nextThreadId : Nat
  kmem : Kmem
  mmu : Mmu.State

namespace Statics

/-- `sched_init`, without the run queue. -/
def schedInit (s : Statics) : Statics :=
  let backing := s.kmem.allocAligned kThreadPoolBytes kThreadPoolAlign
  let s := { s with nextThreadId := 1, poolInited := false, kmem := backing.1 }
  if backing.2 = 0#64 then s
  else
    match MemPool.init s.mem backing.2 kThreadPoolBytes kThreadPoolBlockSize with
    | none => s
    | some r => { s with pool := r.1, mem := r.2, poolInited := true }

/-- The memory for a `Thread`; 0 is null. -/
def allocThread (s : Statics) : Statics × Addr :=
  let r := if s.poolInited then s.pool.alloc s.mem else (s.pool, s.mem, 0#64)
  let s := { s with pool := r.1, mem := r.2.1 }
  if r.2.2 = 0#64 then
    let t := s.kmem.allocAligned (BitVec.ofNat 64 threadBytes) threadAlign
    ({ s with kmem := t.1 }, t.2)
  else (s, r.2.2)

/-- The way out of a creation that fails after that. -/
def releaseThread (s : Statics) (t : Addr) : Statics :=
  if s.poolInited ∧ s.pool.owns t then
    let r := s.pool.free s.mem t
    { s with pool := r.1, mem := r.2.1 }
  else s

/-- `thread_create_prio` from the memory for the `Thread` on; `none` is null. -/
def createAt (b : Mmu.Board) (L : Mmu.Layout) (trampoline : Addr) (s : Statics) (t : Addr) (entry arg stackSize : BitVec 64) (prio : Int) :
    Statics × Option Created :=
  let s := { s with mem := fill s.mem t threadBytes 0 }
  if stackSize > -1#64 - BitVec.ofNat 64 kStackGuardPageBytes then (s.releaseThread t, none)
  else
    let stack := s.kmem.allocAligned (stackSize + BitVec.ofNat 64 kStackGuardPageBytes) (BitVec.ofNat 64 kStackGuardPageBytes)
    let s := { s with kmem := stack.1 }
    if stack.2 = 0#64 then (s.releaseThread t, none)
    else
      -- the result of mmu_guard_page is not looked at
      let s := { s with mmu := (Mmu.guardPage b L s.mmu stack.2).1 }
      let d : Created := ⟨t, stack.2 + BitVec.ofNat 64 kStackGuardPageBytes, stackSize, entry, arg⟩
      ({ s with mem := createThread trampoline d s.nextThreadId prio s.mem, nextThreadId := s.nextThreadId + 1 }, some d)

/-- `thread_create_prio`. -/
def threadCreatePrio (b : Mmu.Board) (L : Mmu.Layout) (trampoline : Addr) (s : Statics) (entry arg stackSize : BitVec 64) (prio : Int) :
    Statics × Option Created :=
  if entry = 0#64 ∨ stackSize = 0#64 then (s, none)
  else if s.allocThread.2 = 0#64 then (s.allocThread.1, none)
  else s.allocThread.1.createAt b L trampoline s.allocThread.2 entry arg stackSize prio

end Statics

/-- `stack_guard_ok`: `stack_base` and `stack_size` lie at 40 and 48. -/
def stackGuardOk (m : Mem) (t : Addr) : Bool :=
  let base := load64 m (t + 40)
  let size := (load64 m (t + 48)).toNat
  if t = 0#64 ∨ base = 0#64 ∨ size = 0 then true
  else
    let guard := if size ≥ kStackGuardBytes then kStackGuardBytes else size
    (List.range ((guard + 7) / 8)).all fun i =>
      let remain := guard - 8 * i
      if remain < 8 then
        (List.range remain).all fun j => m (base + BitVec.ofNat 64 (8 * i + j)) = BitVec.ofNat 8 (kStackGuardMagic >>> (8 * j))
      else load64 m (base + BitVec.ofNat 64 (8 * i)) = BitVec.ofNat 64 kStackGuardMagic

def threadStackGuardOk (m : Mem) (t : Addr) : Nat := if stackGuardOk m t then 1 else 0

/-! ## The memory for the `Thread` -/

namespace Statics

variable {b : Mmu.Board} {L : Mmu.Layout} {trampoline : Addr} {s : Statics} {entry arg stackSize : BitVec 64} {prio : Int} {t : Addr}

/-- The pool was made and has a free block. -/
def HasFree (s : Statics) : Prop := s.poolInited = true ∧ s.pool.freeList ≠ 0#64

instance (s : Statics) : Decidable s.HasFree := inferInstanceAs (Decidable (_ ∧ _))

/-- Where the cursor of the heap lies when it had to supply the `Thread`. -/
def threadEnd (s : Statics) : Nat := ceilTo 16 s.kmem.cur.toNat + threadBytes

theorem allocThread_pool (h : s.HasFree) :
    s.allocThread = ({ s with pool := (s.pool.alloc s.mem).1, mem := (s.pool.alloc s.mem).2.1 }, s.pool.freeList) := by
  obtain ⟨hinit, hfree⟩ := h
  have hp : (s.pool.alloc s.mem).2.2 = s.pool.freeList := by rw [MemPool.alloc, if_neg hfree]
  unfold allocThread
  simp only [if_pos hinit, hp, if_neg hfree]

theorem allocThread_heap (h : ¬ s.HasFree) :
    s.allocThread = ({ s with kmem := (s.kmem.allocAligned (BitVec.ofNat 64 threadBytes) threadAlign).1 },
      (s.kmem.allocAligned (BitVec.ofNat 64 threadBytes) threadAlign).2) := by
  unfold allocThread
  by_cases hinit : s.poolInited = true
  · have hnone : s.pool.alloc s.mem = (s.pool, s.mem, 0#64) := by
      rw [MemPool.alloc, if_pos]
      by_contra hfree
      exact h ⟨hinit, hfree⟩
    simp only [if_pos hinit, hnone, if_true]
  · simp only [if_neg hinit, if_true]

@[simp] theorem allocThread_nextThreadId (s : Statics) : s.allocThread.1.nextThreadId = s.nextThreadId := by
  by_cases h : s.HasFree
  · rw [allocThread_pool h]
  · rw [allocThread_heap h]

theorem effAlign_thread : effAlign threadAlign = 16 := by decide

/-- On numbers: a heap that ends on a page does not wrap around. -/
theorem allocThread_kmem (h : ¬ s.HasFree) (hcur : s.kmem.cur.toNat ≤ s.kmem.stop.toNat) (hstop : 4096 ∣ s.kmem.stop.toNat) :
    s.allocThread =
      if s.kmem.stop.toNat < s.threadEnd then (s, 0#64)
      else ({ s with kmem := { s.kmem with cur := BitVec.ofNat 64 s.threadEnd } }, BitVec.ofNat 64 (ceilTo 16 s.kmem.cur.toNat)) := by
  have hword := s.kmem.stop.isLt
  have hplace : s.kmem.place threadAlign = ceilTo 16 s.kmem.cur.toNat := by rw [Kmem.place, effAlign_thread]
  have hle : ceilTo 16 s.kmem.cur.toNat ≤ s.kmem.stop.toNat := ceilTo_le (by decide) (by omega) hcur
  have hsize : (BitVec.ofNat 64 threadBytes).toNat = threadBytes := rfl
  rw [allocThread_heap h, Kmem.allocAligned_place (by omega), hplace, hsize]
  unfold threadEnd threadBytes
  rw [Nat.mod_eq_of_lt (by omega)]
  split <;> rfl

/-! ## Giving it back -/

@[simp] theorem releaseThread_kmem (s : Statics) (t : Addr) : (s.releaseThread t).kmem = s.kmem := by
  unfold releaseThread
  split <;> rfl

@[simp] theorem releaseThread_nextThreadId (s : Statics) (t : Addr) : (s.releaseThread t).nextThreadId = s.nextThreadId := by
  unfold releaseThread
  split <;> rfl

open MemPool Linked in
/-- A `Thread` from the pool, zeroed and given back: the pool is as it was. -/
theorem releaseThread_pool {backing : BitVec 64} {held : Set Addr}
    (hi : PoolInv backing kThreadPoolBytes kThreadPoolBlockSize s.pool s.mem held) (hend : backing.toNat + kThreadPoolBytes.toNat < 2 ^ 64)
    (h : s.HasFree) (k : Kmem) :
    ∃ m, ({ s.allocThread.1 with mem := fill s.allocThread.1.mem s.pool.freeList threadBytes 0, kmem := k } : Statics).releaseThread
        s.pool.freeList = { s with mem := m, kmem := k } ∧
      PoolInv backing kThreadPoolBytes kThreadPoolBlockSize s.pool m held ∧
      ∀ l, Chain (nextFree s.mem) (ptr s.pool.freeList) l → Chain (nextFree m) (ptr s.pool.freeList) l := by
  obtain ⟨hinit, hfree⟩ := h
  have hhigh := hi.shape.high
  have hword := hi.shape.word
  have hsize : 640 ≤ s.pool.blockSize.toNat := hi.shape.size_le
  obtain ⟨-, hb, -, -⟩ := hi.take hfree
  have hin := block_in hb
  have hout : ∀ a, ¬ s.pool.InBlock s.pool.freeList a →
      fill (s.pool.alloc s.mem).2.1 s.pool.freeList threadBytes 0 a = (s.pool.alloc s.mem).2.1 a := by
    intro a ha
    apply fill_outside
    unfold InBlock at ha
    unfold threadBytes
    bv_omega
  obtain ⟨howns, hpool, hinv, hchain⟩ := hi.take_put hfree (by omega) hout
  rw [allocThread_pool ⟨hinit, hfree⟩]
  refine ⟨_, ?_, hinv, hchain⟩
  unfold releaseThread
  simp only
  rw [if_pos ⟨hinit, howns⟩, hpool]

/-! ## The stack -/

/-- What the heap is asked for a stack. -/
def stackAlloc (k : Kmem) (stackSize : BitVec 64) : Kmem × BitVec 64 :=
  k.allocAligned (stackSize + BitVec.ofNat 64 kStackGuardPageBytes) (BitVec.ofNat 64 kStackGuardPageBytes)

theorem effAlign_stack : effAlign (BitVec.ofNat 64 kStackGuardPageBytes) = 4096 := by
  unfold effAlign
  have hmax : max (BitVec.ofNat 64 kStackGuardPageBytes).toNat 16 = 2 ^ 12 := by decide
  rw [hmax, Nat.clog_pow 2 12 (by decide)]
  norm_num

theorem tooLarge_iff : stackSize > -1#64 - BitVec.ofNat 64 kStackGuardPageBytes ↔ 2 ^ 64 ≤ stackSize.toNat + 4096 := by
  have hmax : (-1#64 - BitVec.ofNat 64 kStackGuardPageBytes).toNat = 2 ^ 64 - 1 - 4096 := by decide
  rw [gt_iff_lt, BitVec.lt_def, hmax]
  omega

/-- On numbers, for a size to which a page can be added. -/
theorem stackAlloc_kmem {k : Kmem} (hsize : stackSize.toNat + 4096 < 2 ^ 64) (hcur : k.cur.toNat ≤ k.stop.toNat) (hstop : 4096 ∣ k.stop.toNat) :
    stackAlloc k stackSize =
      if k.stop.toNat < (ceilTo 4096 k.cur.toNat + 4096 + stackSize.toNat) % 2 ^ 64 then (k, 0#64)
      else ({ k with cur := BitVec.ofNat 64 (ceilTo 4096 k.cur.toNat + 4096 + stackSize.toNat) },
        BitVec.ofNat 64 (ceilTo 4096 k.cur.toNat)) := by
  have hword := k.stop.isLt
  have hplace : k.place (BitVec.ofNat 64 kStackGuardPageBytes) = ceilTo 4096 k.cur.toNat := by rw [Kmem.place, effAlign_stack]
  have hle : ceilTo 4096 k.cur.toNat ≤ k.stop.toNat := ceilTo_le (by decide) hstop hcur
  have hreq : (stackSize + BitVec.ofNat 64 kStackGuardPageBytes).toNat = stackSize.toNat + 4096 := by
    rw [BitVec.toNat_add]
    exact Nat.mod_eq_of_lt hsize
  have hsum : ceilTo 4096 k.cur.toNat + (stackSize.toNat + 4096) = ceilTo 4096 k.cur.toNat + 4096 + stackSize.toNat := by ac_rfl
  rw [stackAlloc, Kmem.allocAligned_place (by omega), hplace, hreq, hsum]

/-- With a cursor that is not 0, null means that there is no room, and nothing changes. -/
theorem stackAlloc_null {k : Kmem} (hsize : stackSize.toNat + 4096 < 2 ^ 64) (hpos : 0 < k.cur.toNat) (hcur : k.cur.toNat ≤ k.stop.toNat)
    (hstop : 4096 ∣ k.stop.toNat) :
    ((stackAlloc k stackSize).2 = 0#64 ↔ k.stop.toNat < (ceilTo 4096 k.cur.toNat + 4096 + stackSize.toNat) % 2 ^ 64) ∧
      ((stackAlloc k stackSize).2 = 0#64 → (stackAlloc k stackSize).1 = k) := by
  have hword := k.stop.isLt
  have hceil := le_ceilTo (a := 4096) (by decide) k.cur.toNat
  have hle : ceilTo 4096 k.cur.toNat ≤ k.stop.toNat := ceilTo_le (by decide) hstop hcur
  have hne : BitVec.ofNat 64 (ceilTo 4096 k.cur.toNat) ≠ 0#64 := by
    intro h0
    have h0 := congrArg BitVec.toNat h0
    rw [BitVec.toNat_ofNat, Nat.mod_eq_of_lt (by omega)] at h0
    have h0 : ceilTo 4096 k.cur.toNat = 0 := h0
    omega
  rw [stackAlloc_kmem hsize hcur hstop]
  split
  · rename_i hlt
    exact ⟨iff_of_true rfl hlt, fun _ => rfl⟩
  · rename_i hge
    exact ⟨iff_of_false hne hge, fun h0 => absurd h0 hne⟩

/-- The two ways a creation fails that has a `Thread`. -/
theorem createAt_null (h : 2 ^ 64 ≤ stackSize.toNat + 4096 ∨ (stackAlloc s.kmem stackSize).2 = 0#64) :
    s.createAt b L trampoline t entry arg stackSize prio =
      (({ s with
          mem := fill s.mem t threadBytes 0
          kmem := if 2 ^ 64 ≤ stackSize.toNat + 4096 then s.kmem else (stackAlloc s.kmem stackSize).1 } : Statics).releaseThread t, none) := by
  unfold createAt
  simp only [tooLarge_iff]
  by_cases hlarge : 2 ^ 64 ≤ stackSize.toNat + 4096
  · rw [if_pos hlarge, if_pos hlarge]
  · have hnull := h.resolve_left hlarge
    unfold stackAlloc at hnull ⊢
    rw [if_neg hlarge, if_neg hlarge, if_pos hnull]

/-- And the way it succeeds. -/
theorem createAt_some (hsize : stackSize.toNat + 4096 < 2 ^ 64) (h : (stackAlloc s.kmem stackSize).2 ≠ 0#64) :
    s.createAt b L trampoline t entry arg stackSize prio =
      (let d : Created := ⟨t, (stackAlloc s.kmem stackSize).2 + BitVec.ofNat 64 kStackGuardPageBytes, stackSize, entry, arg⟩
       ({ s with
          mem := createThread trampoline d s.nextThreadId prio (fill s.mem t threadBytes 0)
          nextThreadId := s.nextThreadId + 1
          kmem := (stackAlloc s.kmem stackSize).1
          mmu := (Mmu.guardPage b L s.mmu (stackAlloc s.kmem stackSize).2).1 }, some d)) := by
  unfold createAt
  simp only [tooLarge_iff]
  unfold stackAlloc at h ⊢
  rw [if_neg (by omega), if_neg h]

/-- A creation that succeeds stores what `Arch.threadCreatePrio` does, given the memory that
    the two allocators return. -/
theorem threadCreatePrio_arch {s' : Statics} {d : Created}
    (heq : s.threadCreatePrio b L trampoline entry arg stackSize prio = (s', some d)) :
    Arch.threadCreatePrio trampoline entry arg stackSize prio s.nextThreadId (some s.allocThread.2)
      (some (stackAlloc s.allocThread.1.kmem stackSize).2) s.allocThread.1.mem = (s'.mem, some d) := by
  unfold Statics.threadCreatePrio at heq
  unfold Arch.threadCreatePrio
  by_cases hargs : entry = 0#64 ∨ stackSize = 0#64
  · rw [if_pos hargs] at heq
    cases heq
  have hargs' : ¬ (entry = 0 ∨ stackSize = 0) := hargs
  rw [if_neg hargs] at heq
  rw [if_neg hargs']
  by_cases ht : s.allocThread.2 = 0#64
  · rw [if_pos ht] at heq
    cases heq
  rw [if_neg ht] at heq
  by_cases hsize : 2 ^ 64 ≤ stackSize.toNat + 4096
  · rw [createAt_null (Or.inl hsize)] at heq
    cases heq
  by_cases hstack : (stackAlloc s.allocThread.1.kmem stackSize).2 = 0#64
  · rw [createAt_null (Or.inr hstack)] at heq
    cases heq
  rw [createAt_some (not_le.mp hsize) hstack, allocThread_nextThreadId] at heq
  simp only [tooLarge_iff]
  rw [if_neg hsize]
  cases heq
  rfl

end Statics

end Microkernel.Threads

/-
  Microkernel.Mem.Frees — frees with arbitrary pointers (src/mem_pool.cc, MEM_POOL_DEBUG 0).

  `mem_pool_free` has two tests, that the pointer is a block's and that not all blocks
  are free; the walk through the free list is only compiled with MEM_POOL_DEBUG. Here a
  client may free anything at any time: `FreeRun C` is a run in which each free meets
  `C`, and with `C` always true it is every sequence of calls.

  A block is held from the allocation that returned it to the free that was accepted.

  Proved, over every run whose frees are tame (`pool_frees`): a free of a pointer that is
  not held returns -1 and changes nothing if and only if it is tame, and alloc never
  returns a held block. Tame means: the pointer is held, or not a block, or no block is
  held at all (or the pool ends at 2^64, and every free is rejected). A block that is
  freed twice while another is held is accepted, and then handed out twice
  (`pool_frees_twice`).
-/

import Microkernel.Mem.Pool

namespace Microkernel

open Bytes

/-- Calls after a `mem_pool_init` that returned 0, with any pointers that meet `C`, and
    writes to held blocks and outside the blocks. -/
inductive FreeRun (C : MemPool → Set Addr → Addr → Prop) (backing backingSize blockSize : BitVec 64) :
    MemPool → Mem → Set Addr → Prop
  | init {s : MemPool} {m m' : Mem} : MemPool.init m backing backingSize blockSize = some (s, m') →
      FreeRun C backing backingSize blockSize s m' ∅
  | alloc {s : MemPool} {m : Mem} {held : Set Addr} : FreeRun C backing backingSize blockSize s m held →
      FreeRun C backing backingSize blockSize (s.alloc m).1 (s.alloc m).2.1
        (if (s.alloc m).2.2 = 0#64 then held else insert (s.alloc m).2.2 held)
  | free {s : MemPool} {m : Mem} {held : Set Addr} (p : BitVec 64) : FreeRun C backing backingSize blockSize s m held →
      C s held p → FreeRun C backing backingSize blockSize (s.free m p).1 (s.free m p).2.1
        (if (s.free m p).2.2 = true then held \ {p} else held)
  | write {s : MemPool} {m : Mem} {held : Set Addr} (a : Addr) (v : BitVec 8) : FreeRun C backing backingSize blockSize s m held →
      (∃ p ∈ held, s.InBlock p a) ∨ (¬ ∃ p, s.IsBlock p ∧ s.InBlock p a) →
      FreeRun C backing backingSize blockSize s (Function.update m a v) held

/-- No free block is freed while another block is held. -/
def Tame (s : MemPool) (held : Set Addr) (p : Addr) : Prop :=
  p ∈ held ∨ ¬ s.IsBlock p ∨ held = ∅ ∨ s.base.toNat + s.blockCount.toNat * s.blockSize.toNat = 2 ^ 64

/-- What the header promises for an invalid pointer. -/
def RejectsBad (s : MemPool) (m : Mem) (held : Set Addr) (p : Addr) : Prop := p ∉ held → s.free m p = (s, m, false)

namespace MemPool

variable {backing backingSize blockSize : BitVec 64} {s : MemPool} {m : Mem} {held : Set Addr} {p : Addr}

theorem PoolInv.accepts_iff (hi : PoolInv backing backingSize blockSize s m held) :
    (s.free m p).2.2 = true ↔
      s.IsBlock p ∧ held ≠ ∅ ∧ s.base.toNat + s.blockCount.toNat * s.blockSize.toNat < 2 ^ 64 := by
  obtain ⟨hs, hh, l, hf⟩ := hi
  exact hf.accepts_iff hs hh

/-- A free that is accepted although the pointer is not held is not tame. -/
theorem PoolInv.rejects_iff (hi : PoolInv backing backingSize blockSize s m held) : RejectsBad s m held p ↔ Tame s held p := by
  have hacc := hi.accepts_iff (p := p)
  have hword := hi.shape.word
  constructor
  · intro h
    by_cases hp : p ∈ held
    · exact Or.inl hp
    have hfalse : ¬ (s.free m p).2.2 = true := by simp [h hp]
    rw [hacc] at hfalse
    by_cases hb : s.IsBlock p
    · by_cases hnone : held = ∅
      · exact Or.inr (Or.inr (Or.inl hnone))
      · have hend := not_lt.mp fun hlt => hfalse ⟨hb, hnone, hlt⟩
        exact Or.inr (Or.inr (Or.inr (Nat.le_antisymm hword hend)))
    · exact Or.inr (Or.inl hb)
  · intro h hp
    apply free_false
    rw [← Bool.not_eq_true, hacc]
    intro hall
    obtain ⟨hb, hsome, hlt⟩ := hall
    rcases h with h | h | h | h
    · exact hp h
    · exact h hb
    · exact hsome h
    · omega

end MemPool

open MemPool

variable {backing backingSize blockSize : BitVec 64} {s : MemPool} {m : Mem} {held : Set Addr}

/-- A run with tame frees is a run of a client that keeps to the rules: the other frees
    change nothing. -/
theorem FreeRun.poolRun (hw : backing.toNat + backingSize.toNat ≤ 2 ^ 64) (r : FreeRun Tame backing backingSize blockSize s m held) :
    PoolRun backing backingSize blockSize s m held := by
  induction r with
  | init h => exact .init h
  | @alloc s m held _ ih =>
    split
    · rename_i hnull
      exact .allocNull ih hnull
    · rename_i hsome
      exact .alloc ih hsome
  | @free s m held p _ ht ih =>
    by_cases hp : p ∈ held ∨ ¬ s.IsBlock p
    · split
      · rename_i hok
        exact .free p ih hp hok
      · rename_i hno
        exact .freeRejected p ih hp (Bool.not_eq_true _ ▸ hno)
    · rw [not_or] at hp
      rw [(poolInv_run hw ih).rejects_iff.mpr ht hp.1]
      exact ih
  | write a v _ ha ih => exact .write a v ih ha

/-- In every state of a run with tame frees, the next free of a pointer that is not held is
    rejected and without effect if and only if it is tame, and the next allocation returns
    null or a block that is not held. -/
theorem pool_frees (hw : backing.toNat + backingSize.toNat ≤ 2 ^ 64) (r : FreeRun Tame backing backingSize blockSize s m held) :
    (∀ p, RejectsBad s m held p ↔ Tame s held p) ∧
      ((s.alloc m).2.2 ≠ 0#64 → s.IsBlock (s.alloc m).2.2 ∧ (s.alloc m).2.2 ∉ held) := by
  have hi := poolInv_run hw (r.poolRun hw)
  exact ⟨fun p => hi.rejects_iff, hi.alloc_good.1⟩

/-! ## Five blocks -/

/-- `mem_pool_init` on 100 bytes from 0x1001 on. -/
def fiveBlocks : MemPool := ⟨0x1010#64, 16#64, 5#64, 0x1050#64, 5#64⟩

def fiveLinks : Mem := (MemPool.linkBlocks ⟨0x1010#64, 16#64, 5#64, 0#64, 5#64⟩ (fun _ => 0#8) 5).1

theorem init_five : MemPool.init (fun _ => 0#8) 0x1001#64 100#64 9#64 = some (fiveBlocks, fiveLinks) := rfl

/-- One block is handed out, freed, and freed again; then one is handed out. -/
theorem pool_frees_five :
    ∃ s m held, s.freeCount = 4#64 ∧ ((s.alloc m).2.2 ≠ 0#64 → s.IsBlock (s.alloc m).2.2 ∧ (s.alloc m).2.2 ∉ held) ∧
      ∀ p, RejectsBad s m held p ↔ Tame s held p := by
  have hfirst : (fiveBlocks.alloc fiveLinks).2.2 = 0x1050#64 := by decide +kernel
  have r1 := (FreeRun.init (C := Tame) init_five).alloc
  rw [hfirst, if_neg (by decide)] at r1
  have r2 := r1.free 0x1050#64 (Or.inl (Set.mem_insert _ _))
  rw [if_pos (by decide +kernel)] at r2
  have r3 := r2.free 0x1050#64 (Or.inr (Or.inr (Or.inl (by simp))))
  have r4 := r3.alloc
  obtain ⟨hfrees, halloc⟩ := pool_frees (by decide) r4
  exact ⟨_, _, _, by decide +kernel, halloc, hfrees⟩

/-- With 0x1050 held, 0x1040 is freed twice: the second free is accepted, and two
    allocations return 0x1040. -/
theorem pool_frees_twice :
    ∃ s m held t m' held', FreeRun (fun _ _ _ => True) 0x1001#64 100#64 9#64 s m held ∧
      0x1040#64 ∉ held ∧ (s.free m 0x1040#64).2.2 = true ∧
      FreeRun (fun _ _ _ => True) 0x1001#64 100#64 9#64 t m' held' ∧ 0x1040#64 ∈ held' ∧ (t.alloc m').2.2 = 0x1040#64 := by
  have r1 := (FreeRun.init (C := fun _ _ _ => True) init_five).alloc.alloc
  have r2 := r1.free 0x1040#64 trivial
  rw [if_pos (by decide +kernel)] at r2
  have r3 := (r2.free 0x1040#64 trivial).alloc
  rw [if_neg (by decide +kernel)] at r3
  refine ⟨_, _, _, _, _, _, r2, ?_, by decide +kernel, r3, ?_, by decide +kernel⟩
  · simp
  · exact Or.inl (by decide +kernel)

end Microkernel

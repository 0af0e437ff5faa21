/-
  Microkernel.Mem.Pool — the fixed-size pool of src/mem_pool.cc.

  The pool is the record `mem_pool` and the bytes of the memory: a free block holds the
  pointer to the next free one in its first eight bytes, so the free list lies in the
  memory that clients overwrite. A run starts with a `mem_pool_init` that returned 0 and
  goes on with allocations, with frees of a held block or of a pointer that is not a
  block, and with writes of single bytes by anyone to held blocks or to memory outside
  the blocks. MEM_POOL_DEBUG is 0, the file's own default.

  Proved, over every run (`pool_integrity`): the blocks lie in the backing region, are
  aligned, large enough and disjoint; the free list is a chain of exactly the blocks that
  are not held, with `free_count` its length; alloc hands out a block that is not held,
  and null only if all are; a rejected free changes nothing. A free of a held block is
  rejected only if the last block ends at 2^64, where `mem_pool_owns` compares with 0.
-/

import Mathlib
import Microkernel.Lib.Align
import Microkernel.Lib.Bytes
import Microkernel.Lib.Linked

namespace Microkernel

open Align Bytes Linked

/-! ## src/mem_pool.cc -/

structure MemPool where
  base : BitVec 64
  blockSize : BitVec 64
  blockCount : BitVec 64
  freeList : BitVec 64
  freeCount : BitVec 64

/-- `while (x < a) x <<= 1`, at most 64 times. -/
def shiftUpTo (a : BitVec 64) : Nat → BitVec 64 → BitVec 64
  | 0, x => x
  | n + 1, x => if x < a then shiftUpTo a n (x <<< 1) else x

def clampAlign (a : BitVec 64) : BitVec 64 :=
  if a < 8#64 then 8#64 else if !isPow2 a then shiftUpTo a 64 1#64 else a

def loadNext (m : Mem) (p : Addr) : BitVec 64 := load64 m p

def storeNext (m : Mem) (p : Addr) (next : BitVec 64) : Mem := store64 m p next

namespace MemPool

/-- The address of block `i`. -/
def blockAt (s : MemPool) (i : Nat) : Addr := s.base + BitVec.ofNat 64 i * s.blockSize

/-- The loop of `mem_pool_init`: memory and head after the first `n` blocks. -/
def linkBlocks (s : MemPool) (m : Mem) (n : Nat) : Mem × BitVec 64 :=
  (List.range n).foldl (fun r i => (storeNext r.1 (s.blockAt i) r.2, s.blockAt i)) (m, 0#64)

/-- `mem_pool_init`; `none` is the result -1. -/
def init (m : Mem) (backing backingSize blockSize : BitVec 64) : Option (MemPool × Mem) :=
  if backing = 0#64 ∨ backingSize = 0#64 ∨ blockSize = 0#64 then none
  else if blockSize < 8#64 then none
  else
    let align := clampAlign 16#64
    let aligned := roundUp backing align
    if aligned < backing then none
    else
      let lost := aligned - backing
      if backingSize ≤ lost then none
      else
        let usable := backingSize - lost
        let blk := roundUp blockSize align
        if blk = 0#64 then none
        else
          let count := usable / blk
          if count = 0#64 then none
          else
            let s : MemPool := ⟨aligned, blk, count, 0#64, count⟩
            let r := s.linkBlocks m count.toNat
            some ({ s with freeList := r.2 }, r.1)

/-- The third component is the block, 0 for null. -/
def alloc (s : MemPool) (m : Mem) : MemPool × Mem × BitVec 64 :=
  if s.freeList = 0#64 then (s, m, 0#64)
  else
    let p := s.freeList
    ({ s with freeList := loadNext m p, freeCount := if s.freeCount ≠ 0#64 then s.freeCount - 1#64 else s.freeCount },
      storeNext m p 0#64, p)

def owns (s : MemPool) (p : BitVec 64) : Bool :=
  if s.base = 0#64 ∨ p = 0#64 then false
  else
    let stop := s.base + s.blockCount * s.blockSize
    if p < s.base ∨ stop ≤ p then false else (p - s.base) % s.blockSize = 0#64

/-- The third component is whether the result is 0, not -1. -/
def free (s : MemPool) (m : Mem) (p : BitVec 64) : MemPool × Mem × Bool :=
  if p = 0#64 then (s, m, false)
  else if !s.owns p then (s, m, false)
  else if s.blockCount ≤ s.freeCount then (s, m, false)
  else ({ s with freeList := p, freeCount := s.freeCount + 1#64 }, storeNext m p s.freeList, true)

end MemPool

theorem clampAlign_eq : clampAlign 16#64 = BitVec.twoPow 64 4 := by decide

/-! ## Blocks -/

namespace MemPool

def IsBlock (s : MemPool) (p : Addr) : Prop := ∃ i < s.blockCount.toNat, p.toNat = s.base.toNat + i * s.blockSize.toNat

/-- The byte at `a` is one of the block's at `p`. -/
def InBlock (s : MemPool) (p a : Addr) : Prop := p.toNat ≤ a.toNat ∧ a.toNat < p.toNat + s.blockSize.toNat

/-- What a call never changes: the shape of the pool in its backing region. -/
structure Shape (backing backingSize blockSize : BitVec 64) (s : MemPool) : Prop where
  pos : 0 < s.base.toNat
  low : backing.toNat ≤ s.base.toNat
  high : s.base.toNat + s.blockCount.toNat * s.blockSize.toNat ≤ backing.toNat + backingSize.toNat
  word : s.base.toNat + s.blockCount.toNat * s.blockSize.toNat ≤ 2 ^ 64
  base_aligned : 16 ∣ s.base.toNat
  size_aligned : 16 ∣ s.blockSize.toNat
  size_pos : 0 < s.blockSize.toNat
  size_le : blockSize.toNat ≤ s.blockSize.toNat

variable {backing backingSize blockSize : BitVec 64} {s : MemPool}

theorem Shape.size_ge (hs : Shape backing backingSize blockSize s) : 16 ≤ s.blockSize.toNat :=
  Nat.le_of_dvd hs.size_pos hs.size_aligned

/-- A block's end, as a number. -/
theorem block_end {s : MemPool} {i : Nat} (hi : i < s.blockCount.toNat) :
    s.base.toNat + i * s.blockSize.toNat + s.blockSize.toNat ≤ s.base.toNat + s.blockCount.toNat * s.blockSize.toNat := by
  have hmul := Nat.mul_le_mul_right s.blockSize.toNat (Nat.succ_le_of_lt hi)
  rw [Nat.succ_mul] at hmul
  omega

theorem Shape.toNat_blockAt (hs : Shape backing backingSize blockSize s) {i : Nat} (hi : i < s.blockCount.toNat) :
    (s.blockAt i).toNat = s.base.toNat + i * s.blockSize.toNat := by
  have hend := block_end hi
  have hword := hs.word
  have hsize := hs.size_pos
  have hcount := s.blockCount.isLt
  have hmod : (BitVec.ofNat 64 i).toNat = i := toNat_word (by omega)
  unfold blockAt
  rw [BitVec.toNat_add, BitVec.toNat_mul, hmod, Nat.mod_eq_of_lt (a := i * _) (by omega)]
  exact Nat.mod_eq_of_lt (by omega)

theorem Shape.isBlock_blockAt (hs : Shape backing backingSize blockSize s) {i : Nat} (hi : i < s.blockCount.toNat) :
    s.IsBlock (s.blockAt i) := ⟨i, hi, hs.toNat_blockAt hi⟩

theorem Shape.blockAt_of_isBlock (hs : Shape backing backingSize blockSize s) {p : Addr} (h : s.IsBlock p) :
    ∃ i < s.blockCount.toNat, p = s.blockAt i := by
  obtain ⟨i, hi, hp⟩ := h
  refine ⟨i, hi, BitVec.eq_of_toNat_eq ?_⟩
  rw [hp, hs.toNat_blockAt hi]

theorem block_in {s : MemPool} {p : Addr} (h : s.IsBlock p) :
    s.base.toNat ≤ p.toNat ∧ p.toNat + s.blockSize.toNat ≤ s.base.toNat + s.blockCount.toNat * s.blockSize.toNat := by
  obtain ⟨i, hi, hp⟩ := h
  have hend := block_end hi
  omega

theorem Shape.block_ne_zero (hs : Shape backing backingSize blockSize s) {p : Addr} (h : s.IsBlock p) : p ≠ 0#64 := by
  intro h0
  have hbase := (block_in h).1
  have hpos := hs.pos
  rw [h0, BitVec.toNat_ofNat] at hbase
  omega

theorem Shape.block_aligned (hs : Shape backing backingSize blockSize s) {p : Addr} (h : s.IsBlock p) : 16 ∣ p.toNat := by
  obtain ⟨i, -, hp⟩ := h
  rw [hp]
  exact Nat.dvd_add hs.base_aligned (hs.size_aligned.mul_left i)

/-- Two blocks lie a block size apart. -/
theorem block_apart {s : MemPool} {p q : Addr} (hp : s.IsBlock p) (hq : s.IsBlock q) (hne : p ≠ q) :
    p.toNat + s.blockSize.toNat ≤ q.toNat ∨ q.toNat + s.blockSize.toNat ≤ p.toNat := by
  obtain ⟨i, -, hpi⟩ := hp
  obtain ⟨j, -, hqj⟩ := hq
  rcases Nat.lt_trichotomy i j with hij | hij | hij
  · have hmul := Nat.mul_le_mul_right s.blockSize.toNat (Nat.succ_le_of_lt hij)
    rw [Nat.succ_mul] at hmul
    omega
  · refine absurd (BitVec.eq_of_toNat_eq ?_) hne
    rw [hpi, hqj, hij]
  · have hmul := Nat.mul_le_mul_right s.blockSize.toNat (Nat.succ_le_of_lt hij)
    rw [Nat.succ_mul] at hmul
    omega

/-- The link of one block is not touched by a store into another. -/
theorem Shape.loadNext_storeNext (hs : Shape backing backingSize blockSize s) {p q : Addr} (hp : s.IsBlock p) (hq : s.IsBlock q)
    (hne : p ≠ q) (m : Mem) (v : BitVec 64) : loadNext (storeNext m p v) q = loadNext m q := by
  have hsize := hs.size_ge
  have hword := hs.word
  have hpin := block_in hp
  have hqin := block_in hq
  have hap := block_apart hp hq hne
  refine load64_store64_apart m v ?_ ?_
  · bv_omega
  · bv_omega

/-- It only depends on the block's bytes. -/
theorem Shape.loadNext_congr (hs : Shape backing backingSize blockSize s) {p : Addr} (hp : s.IsBlock p) {m m' : Mem}
    (h : ∀ a, s.InBlock p a → m' a = m a) : loadNext m' p = loadNext m p := by
  apply load64_congr
  intro b hb
  have hsize := hs.size_ge
  have hword := hs.word
  have hin := block_in hp
  have hdist : b.toNat = p.toNat + (b - p).toNat := by bv_omega
  exact h b ⟨by omega, by omega⟩

/-! ## mem_pool_owns -/

/-- With an end that is a word, the pool owns its blocks. -/
theorem Shape.owns_iff (hs : Shape backing backingSize blockSize s) (p : BitVec 64)
    (hend : s.base.toNat + s.blockCount.toNat * s.blockSize.toNat < 2 ^ 64) : s.owns p = true ↔ s.IsBlock p := by
  have hpos := hs.pos
  have hstop : (s.base + s.blockCount * s.blockSize).toNat = s.base.toNat + s.blockCount.toNat * s.blockSize.toNat := by
    rw [BitVec.toNat_add, BitVec.toNat_mul, Nat.mod_eq_of_lt (a := _ * _) (by omega)]
    exact Nat.mod_eq_of_lt hend
  have hbase : s.base ≠ 0#64 := by
    intro h0
    rw [h0] at hpos
    exact absurd hpos (by decide)
  unfold owns
  constructor
  · intro h
    split at h
    · cases h
    · simp only at h
      split at h
      · cases h
      · rename_i hrange
        rw [not_or, BitVec.lt_def, BitVec.le_def, hstop] at hrange
        have hoff : (p - s.base).toNat = p.toNat - s.base.toNat := by bv_omega
        have hmod : (p.toNat - s.base.toNat) % s.blockSize.toNat = 0 := by
          rw [← hoff, ← BitVec.toNat_umod, of_decide_eq_true h]
          rfl
        obtain ⟨i, hi⟩ := Nat.dvd_of_mod_eq_zero hmod
        rw [Nat.mul_comm] at hi
        refine ⟨i, ?_, by omega⟩
        have hlt : i * s.blockSize.toNat < s.blockCount.toNat * s.blockSize.toNat := by omega
        exact Nat.lt_of_mul_lt_mul_right hlt
  · intro h
    have hin := block_in h
    have hsize := hs.size_pos
    have hp0 := hs.block_ne_zero h
    obtain ⟨i, -, hi⟩ := h
    rw [if_neg (by simp [hbase, hp0])]
    simp only
    rw [if_neg]
    · apply decide_eq_true
      apply BitVec.eq_of_toNat_eq
      have hoff : (p - s.base).toNat = i * s.blockSize.toNat := by bv_omega
      rw [BitVec.toNat_umod, hoff, Nat.mul_mod_left]
      rfl
    · rw [not_or, BitVec.lt_def, BitVec.le_def, hstop]
      omega

/-- With an end of 2^64 it owns nothing. -/
theorem owns_wrapped {s : MemPool} (p : BitVec 64) (hend : s.base.toNat + s.blockCount.toNat * s.blockSize.toNat = 2 ^ 64) :
    s.owns p = false := by
  have hstop : s.base + s.blockCount * s.blockSize = 0#64 := by
    apply BitVec.eq_of_toNat_eq
    rw [BitVec.toNat_add, BitVec.toNat_mul, Nat.add_mod_mod, hend]
    rfl
  have hle : s.base + s.blockCount * s.blockSize ≤ p := by
    rw [hstop, BitVec.le_def]
    exact Nat.zero_le _
  unfold owns
  split
  · rfl
  · simp only
    rw [if_pos (Or.inr hle)]

end MemPool

/-! ## The free list -/

/-- A pointer as a link: null ends the list. -/
def ptr (v : BitVec 64) : Option Addr := if v = 0#64 then none else some v

def nextFree (m : Mem) (p : Addr) : Option Addr := ptr (loadNext m p)

theorem ptr_of_ne {v : BitVec 64} (h : v ≠ 0#64) : ptr v = some v := if_neg h

theorem ptr_eq_none {v : BitVec 64} : ptr v = none ↔ v = 0#64 := by
  unfold ptr
  constructor
  · intro h
    split at h
    · assumption
    · cases h
  · intro h
    rw [if_pos h]

theorem nextFree_storeNext (m : Mem) (p : Addr) (v : BitVec 64) : nextFree (storeNext m p v) p = ptr v := by
  unfold nextFree loadNext storeNext
  rw [load64_store64]

namespace MemPool

/-- The addresses of all blocks. -/
def blocks (s : MemPool) : List Addr := (List.range s.blockCount.toNat).map s.blockAt

variable {backing backingSize blockSize : BitVec 64} {s : MemPool}

theorem Shape.mem_blocks (hs : Shape backing backingSize blockSize s) {p : Addr} : p ∈ s.blocks ↔ s.IsBlock p := by
  unfold blocks
  rw [List.mem_map]
  constructor
  · intro h
    obtain ⟨i, hi, rfl⟩ := h
    exact hs.isBlock_blockAt (List.mem_range.mp hi)
  · intro h
    obtain ⟨i, hi, rfl⟩ := hs.blockAt_of_isBlock h
    exact ⟨i, List.mem_range.mpr hi, rfl⟩

theorem length_blocks (s : MemPool) : s.blocks.length = s.blockCount.toNat := by
  simp [blocks]

/-- A list of distinct blocks is no longer than the pool has blocks. -/
theorem Shape.length_le (hs : Shape backing backingSize blockSize s) {l : List Addr} (hn : l.Nodup) (hl : ∀ p ∈ l, s.IsBlock p) :
    l.length ≤ s.blockCount.toNat := by
  have hsub : l ⊆ s.blocks := fun p hp => hs.mem_blocks.mpr (hl p hp)
  rw [← s.length_blocks]
  exact (hn.subperm hsub).length_le

/-- The loop links the first `n` blocks, the last one first. -/
theorem Shape.linkBlocks (hs : Shape backing backingSize blockSize s) (m : Mem) {n : Nat} (hn : n ≤ s.blockCount.toNat) :
    Chain (nextFree (s.linkBlocks m n).1) (ptr (s.linkBlocks m n).2) ((List.range n).map s.blockAt).reverse := by
  induction n with
  | zero => rfl
  | succ n ih =>
    have hb : s.IsBlock (s.blockAt n) := hs.isBlock_blockAt (by omega)
    have hrec : s.linkBlocks m (n + 1) = (storeNext (s.linkBlocks m n).1 (s.blockAt n) (s.linkBlocks m n).2, s.blockAt n) := by
      unfold MemPool.linkBlocks
      rw [List.range_succ, List.foldl_append]
      rfl
    rw [hrec, List.range_succ, List.map_append, List.reverse_append, ptr_of_ne (hs.block_ne_zero hb)]
    refine Chain.push (ih (by omega)) (nextFree_storeNext _ _ _) ?_
    -- the earlier blocks keep their links
    intro p hp
    obtain ⟨i, hi, rfl⟩ := List.mem_map.mp (List.mem_reverse.mp hp)
    have hlt := List.mem_range.mp hi
    have hne : s.blockAt n ≠ s.blockAt i := by
      intro he
      have hcong := congrArg BitVec.toNat he
      rw [hs.toNat_blockAt (by omega), hs.toNat_blockAt (by omega)] at hcong
      have hmul := Nat.mul_le_mul_right s.blockSize.toNat (Nat.succ_le_of_lt hlt)
      have hsize := hs.size_pos
      rw [Nat.succ_mul] at hmul
      omega
    unfold nextFree
    rw [hs.loadNext_storeNext hb (hs.isBlock_blockAt (by omega)) hne]

/-- The blocks are distinct, for the loop's chain has no node twice. -/
theorem Shape.nodup_blocks (hs : Shape backing backingSize blockSize s) : s.blocks.Nodup :=
  List.nodup_reverse.mp (Chain.nodup (hs.linkBlocks (fun _ => 0#8) (Nat.le_refl _)))

/-- The pool after `mem_pool_init`: the shape, and a free list of all blocks. -/
theorem init_spec {m m' : Mem} (h : init m backing backingSize blockSize = some (s, m'))
    (hw : backing.toNat + backingSize.toNat ≤ 2 ^ 64) :
    Shape backing backingSize blockSize s ∧ s.freeCount = s.blockCount ∧
      ∃ l, Chain (nextFree m') (ptr s.freeList) l ∧ l.length = s.blockCount.toNat ∧ ∀ p, p ∈ l ↔ s.IsBlock p := by
  unfold init at h
  simp only [clampAlign_eq] at h
  have halign := toNat_roundUp (w := 64) (k := 4) (by decide)
  split at h
  · cases h
  rename_i hargs
  split at h
  · cases h
  split at h
  · cases h
  rename_i hup
  split at h
  · cases h
  rename_i hlost
  split at h
  · cases h
  rename_i hblk
  split at h
  · cases h
  rename_i hcount
  simp only [not_or] at hargs
  rw [BitVec.lt_def, halign] at hup
  rw [BitVec.le_def] at hlost
  have hbacking : 0 < backing.toNat := BitVec.toNat_pos_of_ne_zero hargs.1
  -- the rounded base is a word, or it would lie below the backing region
  have hbase : (roundUp backing (BitVec.twoPow 64 4)).toNat = ceilTo (2 ^ 4) backing.toNat := by
    rw [halign]
    split
    · rfl
    · rename_i hge
      rw [if_neg hge] at hup
      omega
  have hblkword : (roundUp blockSize (BitVec.twoPow 64 4)).toNat = ceilTo (2 ^ 4) blockSize.toNat := by
    rw [halign]
    split
    · rfl
    · rename_i hge
      refine absurd (BitVec.eq_of_toNat_eq ?_) hblk
      rw [halign, if_neg hge]
      rfl
  have hge := le_ceilTo (a := 2 ^ 4) (by decide) backing.toNat
  have hbge := le_ceilTo (a := 2 ^ 4) (by decide) blockSize.toNat
  generalize roundUp backing (BitVec.twoPow 64 4) = base at *
  generalize roundUp blockSize (BitVec.twoPow 64 4) = blk at *
  have husable : (backingSize - (base - backing)).toNat = backingSize.toNat - (base.toNat - backing.toNat) := by bv_omega
  have hdivle := Nat.div_mul_le_self (backingSize.toNat - (base.toNat - backing.toNat)) blk.toNat
  have hcountNat : ((backingSize - (base - backing)) / blk).toNat = (backingSize.toNat - (base.toNat - backing.toNat)) / blk.toNat := by
    rw [BitVec.toNat_udiv, husable]
  have hlostNat : (base - backing).toNat = base.toNat - backing.toNat := by bv_omega
  have hblkpos : 0 < blk.toNat := BitVec.toNat_pos_of_ne_zero hblk
  generalize hcnt : (backingSize - (base - backing)) / blk = count at *
  have hs : ∀ head, Shape backing backingSize blockSize ⟨base, blk, count, head, count⟩ := by
    intro head
    refine ⟨?_, ?_, ?_, ?_, ?_, ?_, hblkpos, ?_⟩
    · show 0 < base.toNat
      omega
    · show backing.toNat ≤ base.toNat
      omega
    · show base.toNat + count.toNat * blk.toNat ≤ _
      rw [hcountNat]
      omega
    · show base.toNat + count.toNat * blk.toNat ≤ _
      rw [hcountNat]
      omega
    · show 16 ∣ base.toNat
      rw [hbase]
      exact dvd_ceilTo _ _
    · show 16 ∣ blk.toNat
      rw [hblkword]
      exact dvd_ceilTo _ _
    · show blockSize.toNat ≤ blk.toNat
      omega
  simp only [Option.some.injEq, Prod.mk.injEq] at h
  obtain ⟨rfl, rfl⟩ := h
  refine ⟨hs _, rfl, _, (hs 0#64).linkBlocks m (Nat.le_refl _), ?_, ?_⟩
  · rw [List.length_reverse, List.length_map, List.length_range]
  · intro p
    rw [List.mem_reverse]
    exact (hs 0#64).mem_blocks

end MemPool

/-! ## Runs of calls -/

/-- `held` is the set of blocks the clients hold. -/
inductive PoolRun (backing backingSize blockSize : BitVec 64) : MemPool → Mem → Set Addr → Prop
  | init {s : MemPool} {m m' : Mem} : MemPool.init m backing backingSize blockSize = some (s, m') →
      PoolRun backing backingSize blockSize s m' ∅
  | allocNull {s : MemPool} {m : Mem} {held : Set Addr} : PoolRun backing backingSize blockSize s m held →
      (s.alloc m).2.2 = 0#64 → PoolRun backing backingSize blockSize (s.alloc m).1 (s.alloc m).2.1 held
  | alloc {s : MemPool} {m : Mem} {held : Set Addr} : PoolRun backing backingSize blockSize s m held →
      (s.alloc m).2.2 ≠ 0#64 → PoolRun backing backingSize blockSize (s.alloc m).1 (s.alloc m).2.1 (insert (s.alloc m).2.2 held)
  | free {s : MemPool} {m : Mem} {held : Set Addr} (p : BitVec 64) : PoolRun backing backingSize blockSize s m held →
      (p ∈ held ∨ ¬ s.IsBlock p) → (s.free m p).2.2 = true →
      PoolRun backing backingSize blockSize (s.free m p).1 (s.free m p).2.1 (held \ {p})
  | freeRejected {s : MemPool} {m : Mem} {held : Set Addr} (p : BitVec 64) : PoolRun backing backingSize blockSize s m held →
      (p ∈ held ∨ ¬ s.IsBlock p) → (s.free m p).2.2 = false →
      PoolRun backing backingSize blockSize (s.free m p).1 (s.free m p).2.1 held
  | write {s : MemPool} {m : Mem} {held : Set Addr} (a : Addr) (v : BitVec 8) : PoolRun backing backingSize blockSize s m held →
      (∃ p ∈ held, s.InBlock p a) ∨ (¬ ∃ p, s.IsBlock p ∧ s.InBlock p a) →
      PoolRun backing backingSize blockSize s (Function.update m a v) held

namespace MemPool

/-- The free list holds exactly the blocks that are not held. -/
structure FreeList (s : MemPool) (m : Mem) (held : Set Addr) (l : List Addr) : Prop where
  chain : Chain (nextFree m) (ptr s.freeList) l
  mem : ∀ p, p ∈ l ↔ s.IsBlock p ∧ p ∉ held
  count : l.length = s.freeCount.toNat

variable {backing backingSize blockSize : BitVec 64} {s s' : MemPool} {m : Mem} {held : Set Addr} {l : List Addr} {p : Addr}

/-- The fields that no call after `mem_pool_init` writes. -/
structure Same (s s' : MemPool) : Prop where
  base : s'.base = s.base
  blockSize : s'.blockSize = s.blockSize
  blockCount : s'.blockCount = s.blockCount

theorem Same.isBlock (h : Same s s') {p : Addr} : s'.IsBlock p ↔ s.IsBlock p := by
  unfold IsBlock
  rw [h.base, h.blockSize, h.blockCount]

theorem Same.shape (h : Same s s') (hs : Shape backing backingSize blockSize s) : Shape backing backingSize blockSize s' := by
  obtain ⟨h1, h2, h3⟩ := h
  obtain ⟨pos, low, high, word, ba, sa, sp, sl⟩ := hs
  refine ⟨?_, ?_, ?_, ?_, ?_, ?_, ?_, ?_⟩ <;> simpa only [h1, h2, h3]

/-- `free_list` points to the first free block. -/
theorem FreeList.head_eq (hf : FreeList s m held (p :: l)) : s.freeList = p := by
  have hhead := hf.chain.1
  unfold ptr at hhead
  split at hhead
  · cases hhead
  · exact Option.some.inj hhead

/-- With a free block, alloc takes the first one. -/
theorem alloc_cons (hs : Shape backing backingSize blockSize s) (hf : FreeList s m held (p :: l)) :
    s.alloc m = ({ s with freeList := loadNext m p, freeCount := s.freeCount - 1#64 }, storeNext m p 0#64, p) := by
  have hp0 := hs.block_ne_zero ((hf.mem p).mp List.mem_cons_self).1
  have hcount : s.freeCount ≠ 0#64 := by
    intro h0
    have hlen := hf.count
    rw [h0] at hlen
    cases hlen
  unfold alloc
  rw [hf.head_eq, if_neg hp0]
  simp only [if_pos hcount]

/-- With none, it returns null. -/
theorem alloc_nil (hf : FreeList s m held []) : s.alloc m = (s, m, 0#64) := by
  unfold alloc
  rw [if_pos (ptr_eq_none.mp hf.chain)]

theorem same_alloc (s : MemPool) (m : Mem) : Same s (s.alloc m).1 := by
  unfold alloc
  split <;> exact ⟨rfl, rfl, rfl⟩

theorem FreeList.alloc (hs : Shape backing backingSize blockSize s) (hf : FreeList s m held (p :: l)) :
    FreeList (s.alloc m).1 (s.alloc m).2.1 (insert p held) l := by
  have hb : s.IsBlock p := ((hf.mem p).mp List.mem_cons_self).1
  obtain ⟨hnp, -⟩ := List.nodup_cons.mp (Chain.nodup hf.chain)
  refine ⟨?_, ?_, ?_⟩
  · have hlink : ptr (s.alloc m).1.freeList = nextFree m p := by
      rw [alloc_cons hs hf]
      rfl
    have hmem : (s.alloc m).2.1 = storeNext m p 0#64 := by rw [alloc_cons hs hf]
    rw [hlink, hmem]
    refine Chain.pop hf.chain ?_
    intro q hq
    have hqb := ((hf.mem q).mp (List.mem_cons_of_mem p hq)).1
    have hne : p ≠ q := by
      intro he
      exact hnp (he ▸ hq)
    unfold nextFree
    rw [hs.loadNext_storeNext hb hqb hne]
  · intro q
    have hq := hf.mem q
    rw [List.mem_cons] at hq
    rw [(same_alloc s m).isBlock, Set.mem_insert_iff, not_or]
    by_cases he : q = p
    · subst he
      simp [hnp]
    · simpa [he] using hq
  · have hcount : (s.alloc m).1.freeCount = s.freeCount - 1#64 := by rw [alloc_cons hs hf]
    have hlen := hf.count
    rw [List.length_cons] at hlen
    rw [hcount]
    bv_omega

/-- A free that is accepted puts the block in front. -/
theorem free_true (h : (s.free m p).2.2 = true) :
    s.owns p = true ∧ s.free m p = ({ s with freeList := p, freeCount := s.freeCount + 1#64 }, storeNext m p s.freeList, true) := by
  unfold free at h ⊢
  split at h
  · cases h
  · split at h
    · cases h
    · rename_i ho
      split at h
      · cases h
      · rename_i hc
        refine ⟨by simpa using ho, ?_⟩
        simp only [Bool.not_eq_true] at ho
        rw [if_neg (by assumption), if_neg (by simpa using ho), if_neg hc]

theorem free_false (h : (s.free m p).2.2 = false) : s.free m p = (s, m, false) := by
  unfold free at h ⊢
  split
  · rfl
  · split
    · rfl
    · split
      · rfl
      · simp_all

theorem same_free (s : MemPool) (m : Mem) (p : BitVec 64) : Same s (s.free m p).1 := by
  cases h : (s.free m p).2.2 with
  | true =>
    rw [(free_true h).2]
    exact ⟨rfl, rfl, rfl⟩
  | false =>
    rw [free_false h]
    exact ⟨rfl, rfl, rfl⟩

/-- A held block leaves room in the count. -/
theorem FreeList.count_lt (hs : Shape backing backingSize blockSize s) (hf : FreeList s m held l) (hb : s.IsBlock p) (hp : p ∈ held) :
    s.freeCount.toNat < s.blockCount.toNat := by
  have hnp : p ∉ l := fun hl => ((hf.mem p).mp hl).2 hp
  have hlen := hs.length_le (List.nodup_cons.mpr ⟨hnp, Chain.nodup hf.chain⟩) (by
    intro q hq
    rcases List.mem_cons.mp hq with rfl | hq
    · exact hb
    · exact ((hf.mem q).mp hq).1)
  rw [List.length_cons, hf.count] at hlen
  omega

theorem FreeList.free (hs : Shape backing backingSize blockSize s) (hf : FreeList s m held l) (hb : s.IsBlock p) (hp : p ∈ held)
    (h : (s.free m p).2.2 = true) : FreeList (s.free m p).1 (s.free m p).2.1 (held \ {p}) (p :: l) := by
  have hp0 := hs.block_ne_zero hb
  have hnp : p ∉ l := fun hl => ((hf.mem p).mp hl).2 hp
  have heq := (free_true h).2
  refine ⟨?_, ?_, ?_⟩
  · have hlink : (s.free m p).1.freeList = p := by rw [heq]
    have hmem : (s.free m p).2.1 = storeNext m p s.freeList := by rw [heq]
    rw [hlink, hmem, ptr_of_ne hp0]
    refine Chain.push hf.chain (nextFree_storeNext m p s.freeList) ?_
    intro q hq
    have hne : p ≠ q := by
      intro he
      exact hnp (he ▸ hq)
    unfold nextFree
    rw [hs.loadNext_storeNext hb ((hf.mem q).mp hq).1 hne]
  · intro q
    rw [(same_free s m p).isBlock, List.mem_cons, hf.mem q]
    by_cases hq : q = p
    · subst hq
      simp [hb]
    · simp [hq]
  · have hcount : (s.free m p).1.freeCount = s.freeCount + 1#64 := by rw [heq]
    have hlt := hf.count_lt hs hb hp
    have hlen := hf.count
    have hword := s.blockCount.isLt
    rw [hcount, List.length_cons]
    bv_omega

/-- The free list only depends on the bytes of its blocks. -/
theorem FreeList.congr (hs : Shape backing backingSize blockSize s) (hf : FreeList s m held l) {m' : Mem}
    (h : ∀ p, s.IsBlock p → p ∉ held → ∀ a, s.InBlock p a → m' a = m a) : FreeList s m' held l := by
  refine ⟨Seg.congr hf.chain ?_, hf.mem, hf.count⟩
  intro q hq
  obtain ⟨hqb, hqh⟩ := (hf.mem q).mp hq
  unfold nextFree
  rw [hs.loadNext_congr hqb (h q hqb hqh)]

/-- A byte of a held block or outside the blocks is in no free block. -/
theorem not_inBlock_free (hh : ∀ p ∈ held, s.IsBlock p) {a : Addr}
    (ha : (∃ p ∈ held, s.InBlock p a) ∨ ¬ ∃ p, s.IsBlock p ∧ s.InBlock p a) {q : Addr} (hq : s.IsBlock q) (hqh : q ∉ held) :
    ¬ s.InBlock q a := by
  intro hin
  rcases ha with ⟨p, hp, hpa⟩ | hno
  · have hne : p ≠ q := fun he => hqh (he ▸ hp)
    have hap := block_apart (hh p hp) hq hne
    obtain ⟨h1, h2⟩ := hin
    obtain ⟨h3, h4⟩ := hpa
    omega
  · exact hno ⟨q, hq, hin⟩

/-- The count is full exactly when no block is held. -/
theorem FreeList.full_iff (hs : Shape backing backingSize blockSize s) (hf : FreeList s m held l) (hh : ∀ p ∈ held, s.IsBlock p) :
    s.blockCount ≤ s.freeCount ↔ held = ∅ := by
  rw [BitVec.le_def]
  constructor
  · intro hfull
    refine Set.eq_empty_of_forall_notMem fun p hp => ?_
    have hlt := hf.count_lt hs (hh p hp) hp
    omega
  · intro hnone
    -- all blocks lie in the free list
    have hsub : s.blocks ⊆ l := by
      intro p hp
      rw [hf.mem, hnone]
      exact ⟨hs.mem_blocks.mp hp, Set.notMem_empty p⟩
    have hlen := (hs.nodup_blocks.subperm hsub).length_le
    rwa [length_blocks, hf.count] at hlen

/-- A free is taken if its pointer is a block, not all blocks are free, and the pool does
    not end at 2^64. -/
theorem FreeList.accepts_iff (hs : Shape backing backingSize blockSize s) (hf : FreeList s m held l) (hh : ∀ p ∈ held, s.IsBlock p) :
    (s.free m p).2.2 = true ↔
      s.IsBlock p ∧ held ≠ ∅ ∧ s.base.toNat + s.blockCount.toNat * s.blockSize.toNat < 2 ^ 64 := by
  have hfull := hf.full_iff hs hh
  constructor
  · intro h
    have ho := (free_true h).1
    have hlt : s.base.toNat + s.blockCount.toNat * s.blockSize.toNat < 2 ^ 64 := by
      rcases Nat.lt_or_eq_of_le hs.word with hlt | heq
      · exact hlt
      · rw [owns_wrapped p heq] at ho
        cases ho
    refine ⟨(hs.owns_iff p hlt).mp ho, ?_, hlt⟩
    intro hnone
    unfold MemPool.free at h
    rw [if_pos (hfull.mpr hnone)] at h
    simp at h
  · intro h
    obtain ⟨hb, hsome, hlt⟩ := h
    have ho := (hs.owns_iff p hlt).mpr hb
    unfold MemPool.free
    rw [if_neg (hs.block_ne_zero hb), if_neg (by simp [ho]), if_neg (fun h => hsome (hfull.mp h))]

/-- Of the pointers that may be given to free, exactly the held blocks are taken, unless
    the pool ends at 2^64. -/
theorem FreeList.free_iff (hs : Shape backing backingSize blockSize s) (hf : FreeList s m held l) (hh : ∀ p ∈ held, s.IsBlock p)
    (hp : p ∈ held ∨ ¬ s.IsBlock p) :
    (s.free m p).2.2 = true ↔ p ∈ held ∧ s.base.toNat + s.blockCount.toNat * s.blockSize.toNat < 2 ^ 64 := by
  rw [hf.accepts_iff hs hh]
  constructor
  · intro h
    exact ⟨hp.resolve_right fun hnb => hnb h.1, h.2.2⟩
  · intro h
    exact ⟨hh p h.1, Set.nonempty_iff_ne_empty.mp ⟨p, h.1⟩, h.2⟩

/-- The invariant of a run. -/
structure PoolInv (backing backingSize blockSize : BitVec 64) (s : MemPool) (m : Mem) (held : Set Addr) : Prop where
  shape : Shape backing backingSize blockSize s
  held_blocks : ∀ p ∈ held, s.IsBlock p
  list : ∃ l, FreeList s m held l

theorem PoolInv.congr (hi : PoolInv backing backingSize blockSize s m held) {m' : Mem}
    (h : ∀ p, s.IsBlock p → p ∉ held → ∀ a, s.InBlock p a → m' a = m a) : PoolInv backing backingSize blockSize s m' held := by
  obtain ⟨hs, hh, l, hf⟩ := hi
  exact ⟨hs, hh, l, hf.congr hs h⟩

/-- The block that the next allocation returns. -/
theorem PoolInv.take (hi : PoolInv backing backingSize blockSize s m held) (hfree : s.freeList ≠ 0#64) :
    (s.alloc m).2.2 = s.freeList ∧ s.IsBlock s.freeList ∧ s.freeList ∉ held ∧
      PoolInv backing backingSize blockSize (s.alloc m).1 (s.alloc m).2.1 (insert s.freeList held) := by
  obtain ⟨hs, hh, l, hf⟩ := hi
  have hsame := same_alloc s m
  cases l with
  | nil => exact absurd (ptr_eq_none.mp hf.chain) hfree
  | cons p l =>
    have hfl := hf.head_eq
    obtain ⟨hb, hnp⟩ := (hf.mem p).mp List.mem_cons_self
    rw [hfl]
    refine ⟨by rw [alloc_cons hs hf], hb, hnp, hsame.shape hs, fun q hq => ?_, l, hf.alloc hs⟩
    rw [hsame.isBlock]
    rcases Set.mem_insert_iff.mp hq with rfl | hq
    · exact hb
    · exact hh q hq

/-- A block that is taken and put back, with anything written to it in between. -/
theorem PoolInv.take_put (hi : PoolInv backing backingSize blockSize s m held) (hfree : s.freeList ≠ 0#64)
    (hend : s.base.toNat + s.blockCount.toNat * s.blockSize.toNat < 2 ^ 64) {m' : Mem}
    (hm : ∀ a, ¬ s.InBlock s.freeList a → m' a = (s.alloc m).2.1 a) :
    (s.alloc m).1.owns s.freeList = true ∧ ((s.alloc m).1.free m' s.freeList).1 = s ∧
      PoolInv backing backingSize blockSize s ((s.alloc m).1.free m' s.freeList).2.1 held ∧
      ∀ l, Chain (nextFree m) (ptr s.freeList) l → Chain (nextFree ((s.alloc m).1.free m' s.freeList).2.1) (ptr s.freeList) l := by
  obtain ⟨hs, hh, l, hf⟩ := hi
  have hsame := same_alloc s m
  cases l with
  | nil => exact absurd (ptr_eq_none.mp hf.chain) hfree
  | cons p l =>
    have hfl := hf.head_eq
    obtain ⟨hb, hnp⟩ := (hf.mem p).mp List.mem_cons_self
    rw [hfl] at hm ⊢
    -- the blocks behind the first one are not written
    have hs1 := hsame.shape hs
    have hf1 : FreeList (s.alloc m).1 m' (insert p held) l := by
      refine (hf.alloc hs).congr hs1 fun q hq hqh a ha => hm a fun hpa => ?_
      rw [hsame.isBlock] at hq
      have hne : p ≠ q := by
        rintro rfl
        exact hqh (Set.mem_insert p held)
      have hap := block_apart hb hq hne
      unfold InBlock at ha hpa
      rw [hsame.blockSize] at ha
      omega
    have hh1 : ∀ q ∈ insert p held, (s.alloc m).1.IsBlock q := by
      intro q hq
      rw [hsame.isBlock]
      rcases Set.mem_insert_iff.mp hq with rfl | hq
      · exact hb
      · exact hh q hq
    have hpin : p ∈ insert p held := Set.mem_insert p held
    have hacc : ((s.alloc m).1.free m' p).2.2 = true := by
      rw [hf1.accepts_iff hs1 hh1, hsame.base, hsame.blockCount, hsame.blockSize]
      exact ⟨hh1 p hpin, Set.nonempty_iff_ne_empty.mp ⟨p, hpin⟩, hend⟩
    obtain ⟨howns, heq⟩ := free_true hacc
    have hpool : ((s.alloc m).1.free m' p).1 = s := by
      rw [heq, alloc_cons hs hf, ← hfl]
      exact congrArg (fun c => { s with freeCount := c }) (BitVec.sub_add_cancel s.freeCount 1#64)
    have hback := hf1.free hs1 (hh1 p hpin) hpin hacc
    rw [hpool, Set.insert_sdiff_self_of_notMem hnp] at hback
    refine ⟨howns, hpool, ⟨hs, hh, p :: l, hback⟩, fun l' hl' => ?_⟩
    rw [← hfl] at hback hl' ⊢
    rw [Chain.unique hl' hf.chain, ← hfl]
    exact hback.chain

theorem poolInv_run (hw : backing.toNat + backingSize.toNat ≤ 2 ^ 64) (r : PoolRun backing backingSize blockSize s m held) :
    PoolInv backing backingSize blockSize s m held := by
  induction r with
  | init h =>
    obtain ⟨hs, hcount, l, hchain, hlen, hmem⟩ := init_spec h hw
    refine ⟨hs, by simp, l, hchain, ?_, by rw [hlen, hcount]⟩
    simpa using hmem
  | @allocNull s m held _ h0 ih =>
    obtain ⟨hs, hh, l, hf⟩ := ih
    cases l with
    | nil =>
      rw [alloc_nil hf]
      exact ⟨hs, hh, _, hf⟩
    | cons p l =>
      rw [alloc_cons hs hf] at h0
      exact absurd h0 (hs.block_ne_zero ((hf.mem p).mp List.mem_cons_self).1)
  | @alloc s m held _ h0 ih =>
    have hfree : s.freeList ≠ 0#64 := fun h => h0 (by rw [alloc, if_pos h])
    obtain ⟨hp, -, -, hi⟩ := ih.take hfree
    rwa [hp]
  | @free s m held p _ hp ht ih =>
    obtain ⟨hs, hh, l, hf⟩ := ih
    have hsame := same_free s m p
    have hin := ((hf.free_iff hs hh hp).mp ht).1
    refine ⟨hsame.shape hs, ?_, p :: l, hf.free hs (hh p hin) hin ht⟩
    intro q hq
    rw [hsame.isBlock]
    exact hh q hq.1
  | @freeRejected s m held p _ _ hfalse ih =>
    rw [free_false hfalse]
    exact ih
  | @write s m held a v _ ha ih =>
    refine ih.congr fun q hq hqh b hb => ?_
    have hne : b ≠ a := by
      rintro rfl
      exact not_inBlock_free ih.held_blocks ha hq hqh hb
    rw [Function.update_of_ne hne]

/-- What holds of the pool in every state of a run, and of the next call. -/
structure PoolGood (backing backingSize blockSize : BitVec 64) (s : MemPool) (m : Mem) (held : Set Addr) : Prop where
  inside : ∀ p, s.IsBlock p → backing.toNat ≤ p.toNat ∧ p.toNat + s.blockSize.toNat ≤ backing.toNat + backingSize.toNat
  aligned : ∀ p, s.IsBlock p → 16 ∣ p.toNat
  large : blockSize.toNat ≤ s.blockSize.toNat
  disjoint : ∀ p q a, s.IsBlock p → s.IsBlock q → s.InBlock p a → s.InBlock q a → p = q
  held_blocks : ∀ p ∈ held, s.IsBlock p
  free_list : ∃ l, Chain (nextFree m) (ptr s.freeList) l ∧ l.Nodup ∧ (∀ p, p ∈ l ↔ s.IsBlock p ∧ p ∉ held) ∧ l.length = s.freeCount.toNat
  alloc_block : (s.alloc m).2.2 ≠ 0#64 → s.IsBlock (s.alloc m).2.2 ∧ (s.alloc m).2.2 ∉ held
  alloc_null : (s.alloc m).2.2 = 0#64 ↔ ∀ p, s.IsBlock p → p ∈ held
  free_rejected : ∀ p, (s.free m p).2.2 = false → s.free m p = (s, m, false)
  free_held : ∀ p, (p ∈ held ∨ ¬ s.IsBlock p) →
    ((s.free m p).2.2 = true ↔ p ∈ held ∧ s.base.toNat + s.blockCount.toNat * s.blockSize.toNat < 2 ^ 64)

theorem PoolInv.alloc_good (hi : PoolInv backing backingSize blockSize s m held) :
    ((s.alloc m).2.2 ≠ 0#64 → s.IsBlock (s.alloc m).2.2 ∧ (s.alloc m).2.2 ∉ held) ∧
      ((s.alloc m).2.2 = 0#64 ↔ ∀ p, s.IsBlock p → p ∈ held) := by
  obtain ⟨hs, -, l, hf⟩ := hi
  cases l with
  | nil =>
    rw [alloc_nil hf]
    refine ⟨fun h0 => absurd rfl h0, fun _ p hp => ?_, fun _ => rfl⟩
    by_contra hnp
    exact absurd ((hf.mem p).mpr ⟨hp, hnp⟩) List.not_mem_nil
  | cons p l =>
    have hp := (hf.mem p).mp List.mem_cons_self
    rw [alloc_cons hs hf]
    refine ⟨fun _ => hp, fun h0 => absurd h0 (hs.block_ne_zero hp.1), fun hall => absurd (hall p hp.1) hp.2⟩

end MemPool

open MemPool in
/-- Over every run on a region that does not wrap around: blocks, free list and calls are
    as they should be. -/
theorem pool_integrity {backing backingSize blockSize : BitVec 64} {s : MemPool} {m : Mem} {held : Set Addr}
    (hw : backing.toNat + backingSize.toNat ≤ 2 ^ 64) (r : PoolRun backing backingSize blockSize s m held) :
    PoolGood backing backingSize blockSize s m held := by
  have hi := poolInv_run hw r
  obtain ⟨halloc, hnull⟩ := hi.alloc_good
  obtain ⟨hs, hh, l, hf⟩ := hi
  refine ⟨?_, fun p hp => hs.block_aligned hp, hs.size_le, ?_, hh, ⟨l, hf.chain, Chain.nodup hf.chain, hf.mem, hf.count⟩,
    halloc, hnull, fun p h => free_false h, fun p hp => hf.free_iff hs hh hp⟩
  · intro p hp
    have hin := block_in hp
    have hlow := hs.low
    have hhigh := hs.high
    omega
  · intro p q a hp hq hpa hqa
    by_contra hne
    obtain ⟨h1, h2⟩ := hpa
    obtain ⟨h3, h4⟩ := hqa
    have hap := block_apart hp hq hne
    omega

/-- A region of 100 bytes from 0x1001 on has five blocks of 16 bytes; one is handed out. -/
theorem pool_integrity_five :
    ∃ s m, s.blockCount = 5#64 ∧ s.freeCount = 4#64 ∧ MemPool.PoolGood 0x1001#64 100#64 9#64 s m (insert 0x1050#64 ∅) := by
  have hinit : MemPool.init (fun _ => 0#8) 0x1001#64 100#64 9#64 =
      some (⟨0x1010#64, 16#64, 5#64, 0x1050#64, 5#64⟩, (MemPool.linkBlocks ⟨0x1010#64, 16#64, 5#64, 0#64, 5#64⟩ (fun _ => 0#8) 5).1) := rfl
  have r := PoolRun.alloc (PoolRun.init hinit) (by decide)
  exact ⟨_, _, rfl, rfl, pool_integrity (by decide) r⟩

end Microkernel

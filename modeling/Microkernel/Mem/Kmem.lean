/-
  Microkernel.Mem.Kmem — the bump allocator of src/kmem.cc.

  `kmem_alloc_aligned` rounds the alignment up to a power of two, the cursor up to the
  alignment, and adds the size, all modulo 2^64, with one comparison against
  `_heap_end` behind it. A run is a sequence of calls after `kmem_init`; it records the
  blocks that were returned.

  Proved: in a run in which no call wraps around unnoticed (`Fits`), every block lies in
  the heap, is aligned and disjoint from all blocks before it, and a call that returns
  null changes nothing; the next call is right if and only if it fits (`kmem_blocks`).
  A size near 2^64 returns a block that leaves the heap and moves the cursor back
  (`kmem_wraps`).
-/

import Mathlib
import Microkernel.Lib.Align

namespace Microkernel

open Align

/-! ## src/kmem.cc -/

/-- `_heap_start` and `_heap_end`. -/
structure Heap where
  start : BitVec 64
  stop : BitVec 64
  pos : 0 < start.toNat
  le : start.toNat ≤ stop.toNat

structure Kmem where
  cur : BitVec 64
  stop : BitVec 64

namespace Kmem

def roundUpPow2 (a : BitVec 64) : BitVec 64 := if a ≤ 1#64 then 1#64 else fill (a - 1#64) + 1#64

def init (h : Heap) : Kmem := ⟨h.start, h.stop⟩

/-- The result 0 is null. -/
def allocAligned (s : Kmem) (sz align : BitVec 64) : Kmem × BitVec 64 :=
  let align := if align < 16#64 then 16#64 else align
  let align := if !isPow2 align then roundUpPow2 align else align
  let p := roundUp s.cur align
  if s.stop < p + sz then (s, 0#64) else ({ s with cur := p + sz }, p)

end Kmem

/-! ## The alignment -/

/-- The least power of two that is at least `align` and 16. -/
def effAlign (align : BitVec 64) : Nat := 2 ^ Nat.clog 2 (max align.toNat 16)

theorem effAlign_pos (align : BitVec 64) : 0 < effAlign align := Nat.two_pow_pos _

/-- What the code computes for it: 0 if it is 2^64. -/
theorem align_eq (align : BitVec 64) :
    (let a := if align < 16#64 then 16#64 else align
     if !isPow2 a then Kmem.roundUpPow2 a else a) = BitVec.ofNat 64 (effAlign align) := by
  have hmax : (if align < 16#64 then 16#64 else align).toNat = max align.toNat 16 := by
    split
    · rename_i h
      rw [BitVec.lt_def, BitVec.toNat_ofNat] at h
      rw [BitVec.toNat_ofNat]
      omega
    · rename_i h
      rw [BitVec.lt_def, BitVec.toNat_ofNat] at h
      omega
  generalize (if align < 16#64 then 16#64 else align) = a at hmax ⊢
  unfold effAlign
  rw [← hmax]
  cases hp : isPow2 a with
  | true =>
    obtain ⟨k, hk, rfl⟩ := isPow2_iff.mp hp
    have hlt : 2 ^ k < 2 ^ 64 := Nat.pow_lt_pow_right (by decide) hk
    apply BitVec.eq_of_toNat_eq
    simp only [hp, Bool.not_true, Bool.false_eq_true, if_false]
    rw [BitVec.toNat_twoPow, Nat.mod_eq_of_lt hlt, Nat.clog_pow 2 k (by decide), BitVec.toNat_ofNat, Nat.mod_eq_of_lt hlt]
  | false =>
    simp only [hp, Bool.not_false, if_true, Kmem.roundUpPow2]
    rw [if_neg, fill_succ (by omega)]
    rw [BitVec.le_def, BitVec.toNat_ofNat]
    omega

/-- The cursor rounded up, as a number. -/
def Kmem.place (s : Kmem) (align : BitVec 64) : Nat := ceilTo (effAlign align) s.cur.toNat

/-- The address the code computes: the rounded cursor if that is a word, else 0. -/
theorem toNat_place (s : Kmem) (align : BitVec 64) :
    (roundUp s.cur (BitVec.ofNat 64 (effAlign align))).toNat = if s.place align < 2 ^ 64 then s.place align else 0 := by
  have hle : Nat.clog 2 (max align.toNat 16) ≤ 64 := by
    rw [Nat.clog_le_iff_le_pow (by decide)]
    have := align.isLt
    omega
  unfold Kmem.place effAlign
  rcases Nat.lt_or_eq_of_le hle with hlt | heq
  · have htwo : BitVec.ofNat 64 (2 ^ Nat.clog 2 (max align.toNat 16)) = BitVec.twoPow 64 (Nat.clog 2 (max align.toNat 16)) := by
      apply BitVec.eq_of_toNat_eq
      rw [BitVec.toNat_ofNat, BitVec.toNat_twoPow]
    rw [htwo, toNat_roundUp hlt]
  · -- the mask of 0 - 1 is empty
    rw [heq]
    have hzero : roundUp s.cur (BitVec.ofNat 64 (2 ^ 64)) = 0#64 := by simp [roundUp]
    rw [hzero]
    split
    · rename_i h
      have hcur := s.cur.isLt
      have hsmall : ceilTo (2 ^ 64) s.cur.toNat = 0 := by
        obtain ⟨c, hc⟩ := dvd_ceilTo (2 ^ 64) s.cur.toNat
        omega
      rw [hsmall]
      rfl
    · rfl

/-- The cursor never lies above the rounded one. -/
theorem Kmem.cur_le_place (s : Kmem) (align : BitVec 64) : s.cur.toNat ≤ s.place align :=
  le_ceilTo (effAlign_pos align) s.cur.toNat

/-- `kmem_alloc_aligned` on numbers: 0 if the rounded cursor or its end is not a word, and
    the comparison is made modulo 2^64. -/
theorem allocAligned_eq (s : Kmem) (sz align : BitVec 64) :
    ∃ p : BitVec 64, p.toNat = (if s.place align < 2 ^ 64 then s.place align else 0) ∧
      s.allocAligned sz align =
        if s.stop.toNat < (p.toNat + sz.toNat) % 2 ^ 64 then (s, 0#64) else ({ s with cur := p + sz }, p) := by
  refine ⟨roundUp s.cur (BitVec.ofNat 64 (effAlign align)), toNat_place s align, ?_⟩
  unfold Kmem.allocAligned
  simp only [align_eq]
  simp only [BitVec.lt_def, BitVec.toNat_add]

/-- With a rounded cursor that is a word. -/
theorem Kmem.allocAligned_place {s : Kmem} {align : BitVec 64} (hw : s.place align < 2 ^ 64) (sz : BitVec 64) :
    s.allocAligned sz align =
      if s.stop.toNat < (s.place align + sz.toNat) % 2 ^ 64 then (s, 0#64)
      else ({ s with cur := BitVec.ofNat 64 (s.place align + sz.toNat) }, BitVec.ofNat 64 (s.place align)) := by
  obtain ⟨p, hp, heq⟩ := allocAligned_eq s sz align
  rw [if_pos hw] at hp
  have hbase : p = BitVec.ofNat 64 (s.place align) := by
    rw [← hp, BitVec.ofNat_toNat, BitVec.setWidth_eq]
  have hcur : p + sz = BitVec.ofNat 64 (s.place align + sz.toNat) := by
    apply BitVec.eq_of_toNat_eq
    rw [BitVec.toNat_add, BitVec.toNat_ofNat, hp]
  rw [heq, hcur, hp, hbase]

/-! ## Runs of calls -/

/-- A block that was returned, with the size and the alignment it was asked with. -/
structure Block where
  base : BitVec 64
  size : BitVec 64
  align : BitVec 64

namespace Block

def Has (b : Block) (a : Nat) : Prop := b.base.toNat ≤ a ∧ a < b.base.toNat + b.size.toNat

structure Good (h : Heap) (b : Block) : Prop where
  low : h.start.toNat ≤ b.base.toNat
  high : b.base.toNat + b.size.toNat ≤ h.stop.toNat
  aligned : effAlign b.align ∣ b.base.toNat

def Apart (b c : Block) : Prop := ∀ a, ¬ (b.Has a ∧ c.Has a)

end Block

/-- Calls after `kmem_init`, each of which meets `C`, with the blocks they returned, the
    newest first. -/
inductive KmemRun (h : Heap) (C : Kmem → BitVec 64 → BitVec 64 → Prop) : Kmem → List Block → Prop
  | init : KmemRun h C (Kmem.init h) []
  | null {s : Kmem} {bs : List Block} (sz align : BitVec 64) : KmemRun h C s bs → C s sz align →
      (s.allocAligned sz align).2 = 0#64 → KmemRun h C (s.allocAligned sz align).1 bs
  | block {s : Kmem} {bs : List Block} (sz align : BitVec 64) : KmemRun h C s bs → C s sz align →
      (s.allocAligned sz align).2 ≠ 0#64 →
      KmemRun h C (s.allocAligned sz align).1 (⟨(s.allocAligned sz align).2, sz, align⟩ :: bs)

/-- What a call has to do: return a good block apart from those before, or null with the
    cursor where it was. -/
structure AllocGood (h : Heap) (s : Kmem) (bs : List Block) (sz align : BitVec 64) : Prop where
  block : (s.allocAligned sz align).2 ≠ 0#64 →
    Block.Good h ⟨(s.allocAligned sz align).2, sz, align⟩ ∧
      ∀ b ∈ bs, Block.Apart ⟨(s.allocAligned sz align).2, sz, align⟩ b
  null : (s.allocAligned sz align).2 = 0#64 → (s.allocAligned sz align).1 = s

/-- No sum of the call wraps around to something the comparison lets pass: with the
    rounded cursor a word, its end is one or wraps to above the heap's end; with it not a
    word, the size alone is above the heap's end (or leaves the cursor in place). -/
def Fits (s : Kmem) (sz align : BitVec 64) : Prop :=
  if s.place align < 2 ^ 64 then
    s.place align + sz.toNat < 2 ^ 64 ∨ s.stop.toNat < s.place align + sz.toNat - 2 ^ 64
  else s.stop.toNat < sz.toNat ∨ sz = s.cur

/-- The cursor stays in the heap, behind all blocks. -/
structure KmemInv (h : Heap) (s : Kmem) (bs : List Block) : Prop where
  stop : s.stop = h.stop
  low : h.start.toNat ≤ s.cur.toNat
  high : s.cur.toNat ≤ h.stop.toNat
  good : ∀ b ∈ bs, b.Good h
  behind : ∀ b ∈ bs, b.base.toNat + b.size.toNat ≤ s.cur.toNat
  apart : bs.Pairwise Block.Apart

theorem kmemInv_init (h : Heap) : KmemInv h (Kmem.init h) [] where
  stop := rfl
  low := Nat.le_refl _
  high := h.le
  good := by simp
  behind := by simp
  apart := List.Pairwise.nil

/-- A call that fits either returns null and changes nothing, or takes the room from the
    rounded cursor on. -/
theorem KmemInv.fits {h : Heap} {s : Kmem} {bs : List Block} {sz align : BitVec 64} (hi : KmemInv h s bs) (hf : Fits s sz align) :
    ((s.allocAligned sz align).2 = 0#64 ∧ (s.allocAligned sz align).1 = s) ∨
    ((s.allocAligned sz align).2.toNat = s.place align ∧ s.place align + sz.toNat ≤ h.stop.toNat ∧
      (s.allocAligned sz align).1.stop = s.stop ∧ (s.allocAligned sz align).1.cur.toNat = s.place align + sz.toNat) := by
  obtain ⟨p, hp, heq⟩ := allocAligned_eq s sz align
  have hstop := h.stop.isLt
  have hs : s.stop.toNat = h.stop.toNat := by rw [hi.stop]
  unfold Fits at hf
  rw [heq]
  by_cases hw : s.place align < 2 ^ 64
  · rw [if_pos hw] at hp hf
    rw [hp]
    split
    · exact Or.inl ⟨rfl, rfl⟩
    · rename_i hle
      have hsz := sz.isLt
      have hsum : s.place align + sz.toNat < 2 ^ 64 := by omega
      rw [Nat.mod_eq_of_lt hsum] at hle
      refine Or.inr ⟨hp, by omega, rfl, ?_⟩
      rw [BitVec.toNat_add, hp, Nat.mod_eq_of_lt hsum]
  · rw [if_neg hw] at hp hf
    have hp0 : p = 0#64 := BitVec.eq_of_toNat_eq hp
    have hsz := sz.isLt
    rw [hp, Nat.zero_add, Nat.mod_eq_of_lt hsz]
    refine Or.inl ?_
    split
    · exact ⟨rfl, rfl⟩
    · rename_i hle
      have hsame : sz = s.cur := hf.resolve_left hle
      refine ⟨hp0, ?_⟩
      rw [hp0, BitVec.zero_add, hsame]

/-- The block a fitting call returns. -/
theorem KmemInv.block {h : Heap} {s : Kmem} {bs : List Block} {sz align p : BitVec 64} (hi : KmemInv h s bs)
    (hp : p.toNat = s.place align) (hle : s.place align + sz.toNat ≤ h.stop.toNat) :
    Block.Good h ⟨p, sz, align⟩ ∧ ∀ b ∈ bs, Block.Apart ⟨p, sz, align⟩ b := by
  have hcur := s.cur_le_place align
  have hlow := hi.low
  refine ⟨⟨?_, ?_, ?_⟩, ?_⟩
  · show h.start.toNat ≤ p.toNat
    omega
  · show p.toNat + sz.toNat ≤ h.stop.toNat
    omega
  · show effAlign align ∣ p.toNat
    rw [hp]
    exact dvd_ceilTo _ _
  · intro b hb a hboth
    have hbehind := hi.behind b hb
    obtain ⟨⟨hpa, -⟩, -, hba⟩ := hboth
    have hpa : p.toNat ≤ a := hpa
    omega

theorem KmemInv.allocGood {h : Heap} {s : Kmem} {bs : List Block} {sz align : BitVec 64} (hi : KmemInv h s bs) (hf : Fits s sz align) :
    AllocGood h s bs sz align := by
  rcases hi.fits hf with ⟨hnull, hsame⟩ | ⟨hp, hle, -, -⟩
  · exact ⟨fun hne => absurd hnull hne, fun _ => hsame⟩
  · refine ⟨fun _ => hi.block hp hle, fun hnull => ?_⟩
    -- the rounded cursor is not null
    have hcur := s.cur_le_place align
    have hlow := hi.low
    have hpos := h.pos
    rw [hnull] at hp
    have hp : 0 = s.place align := hp
    omega

theorem KmemInv.step {h : Heap} {s : Kmem} {bs : List Block} {sz align : BitVec 64} (hi : KmemInv h s bs) (hf : Fits s sz align)
    (hne : (s.allocAligned sz align).2 ≠ 0#64) :
    KmemInv h (s.allocAligned sz align).1 (⟨(s.allocAligned sz align).2, sz, align⟩ :: bs) := by
  rcases hi.fits hf with ⟨hnull, -⟩ | ⟨hp, hle, hstop, hcur⟩
  · exact absurd hnull hne
  · obtain ⟨hgood, hapart⟩ := hi.block hp hle
    have hplace := s.cur_le_place align
    have hlow := hi.low
    refine ⟨hstop.trans hi.stop, by omega, by omega, ?_, ?_, List.pairwise_cons.mpr ⟨hapart, hi.apart⟩⟩
    · intro b hb
      rcases List.mem_cons.mp hb with rfl | hb
      · exact hgood
      · exact hi.good b hb
    · intro b hb
      rcases List.mem_cons.mp hb with rfl | hb
      · show (s.allocAligned sz align).2.toNat + sz.toNat ≤ _
        omega
      · have := hi.behind b hb
        omega

theorem kmemInv_run {h : Heap} {s : Kmem} {bs : List Block} (r : KmemRun h Fits s bs) : KmemInv h s bs := by
  induction r with
  | init => exact kmemInv_init h
  | null sz align _ hf hnull ih => rwa [(ih.allocGood hf).null hnull]
  | block sz align _ hf hne ih => exact ih.step hf hne

/-- A call that does not fit goes wrong: its block ends above the heap, or it returns null
    and moves the cursor. -/
theorem KmemInv.fits_of_allocGood {h : Heap} {s : Kmem} {bs : List Block} {sz align : BitVec 64} (hi : KmemInv h s bs)
    (hg : AllocGood h s bs sz align) : Fits s sz align := by
  obtain ⟨p, hp, heq⟩ := allocAligned_eq s sz align
  have hstop := h.stop.isLt
  have hsz := sz.isLt
  have hs : s.stop.toNat = h.stop.toNat := by rw [hi.stop]
  obtain ⟨hblock, hnull⟩ := hg
  rw [heq] at hblock hnull
  unfold Fits
  by_cases hw : s.place align < 2 ^ 64
  · rw [if_pos hw] at hp ⊢
    rw [hp] at hblock hnull
    by_cases hcmp : s.stop.toNat < (s.place align + sz.toNat) % 2 ^ 64
    · omega
    · rw [if_neg hcmp] at hblock
      have hpos := h.pos
      have hlow := hi.low
      have hcur := s.cur_le_place align
      have hne : p ≠ 0#64 := by
        intro hp0
        rw [hp0] at hp
        have hp : 0 = s.place align := hp
        omega
      have hhigh : p.toNat + sz.toNat ≤ h.stop.toNat := (hblock hne).1.high
      omega
  · rw [if_neg hw] at hp ⊢
    have hp0 : p = 0#64 := BitVec.eq_of_toNat_eq hp
    rw [hp, Nat.zero_add, Nat.mod_eq_of_lt hsz] at hnull
    by_cases hcmp : s.stop.toNat < sz.toNat
    · exact Or.inl hcmp
    · rw [if_neg hcmp] at hnull
      have hsame := congrArg Kmem.cur (hnull hp0)
      rw [hp0, BitVec.zero_add] at hsame
      exact Or.inr hsame

/-- In a run whose calls all fit, the blocks lie in the heap, are aligned and apart from
    each other; and the next call, with any size and alignment, does what it has to if and
    only if it fits. -/
theorem kmem_blocks {h : Heap} {s : Kmem} {bs : List Block} (r : KmemRun h Fits s bs) :
    (∀ b ∈ bs, b.Good h) ∧ bs.Pairwise Block.Apart ∧ ∀ sz align, AllocGood h s bs sz align ↔ Fits s sz align := by
  have hi := kmemInv_run r
  exact ⟨hi.good, hi.apart, fun sz align => ⟨hi.fits_of_allocGood, hi.allocGood⟩⟩

/-! ## A size near 2^64 -/

/-- The heap of kernel.ld's size. -/
def exampleHeap : Heap := ⟨0x40100000#64, 0x40200000#64, by decide, by decide⟩

theorem kmem_blocks_one :
    (∀ b ∈ [Block.mk 0x40100000#64 4096#64 16#64], b.Good exampleHeap) ∧
      ∀ sz align, AllocGood exampleHeap ⟨0x40101000#64, 0x40200000#64⟩ [Block.mk 0x40100000#64 4096#64 16#64] sz align ↔
        Fits ⟨0x40101000#64, 0x40200000#64⟩ sz align := by
  have hfit : Fits (Kmem.init exampleHeap) 4096#64 16#64 := by
    have hclog : effAlign 16#64 = 16 := by decide
    have hplace : (Kmem.init exampleHeap).place 16#64 = 0x40100000 := by
      unfold Kmem.place
      rw [hclog]
      decide
    unfold Fits
    rw [hplace]
    decide
  have r := KmemRun.block 4096#64 16#64 (KmemRun.init (h := exampleHeap)) hfit (by decide)
  obtain ⟨hgood, -, hiff⟩ := kmem_blocks r
  exact ⟨hgood, hiff⟩

/-- `thread_create_prio` with a stack size of 2^64 - 8192: behind a first block, the call
    returns a block that leaves the heap, and the next call returns the first block's
    address again. -/
theorem kmem_wraps :
    ∃ bs s, KmemRun exampleHeap (fun _ _ _ => True) s bs ∧ (∃ b ∈ bs, ¬ b.Good exampleHeap) ∧ ¬ bs.Pairwise Block.Apart := by
  have r1 := KmemRun.block 4096#64 16#64 (KmemRun.init (h := exampleHeap) (C := fun _ _ _ => True)) trivial (by decide)
  have r2 := KmemRun.block (BitVec.ofNat 64 (2 ^ 64 - 4096)) 4096#64 r1 trivial (by decide)
  have r3 := KmemRun.block 16#64 8#64 r2 trivial (by decide)
  refine ⟨_, _, r3, ?_, ?_⟩
  · refine ⟨_, List.mem_cons_of_mem _ List.mem_cons_self, ?_⟩
    intro hgood
    exact absurd hgood.high (by decide)
  · intro hapart
    have hfirst := (List.pairwise_cons.mp hapart).1 _ (List.mem_cons_of_mem _ List.mem_cons_self)
    apply hfirst 0x40100000
    unfold Block.Has
    decide

end Microkernel

/-
  Microkernel.Mmu.Tables — the page tables of src/arch/aarch64/mmu.cc and mmu_rpi4.cc.

  The two files are one program on two memory maps: RAM is the second GiB on `virt` and the
  first on `rpi4`, and the level 1 table, the range checks and the test of the DMA window
  differ with it. RAM is mapped through one level 2 table. The blocks of the DMA window
  are split when the tables are built; `mmu_guard_page` splits any other block when it
  first needs a page of it, into one of eight tables.

  The tables are memory: what the code stores is what the walk reads. The accesses that
  the code itself makes to the tables are not translated here; a call whose own access
  faults does not return.
-/

import Mathlib
import Microkernel.Lib.Align
import Microkernel.Lib.Translation

namespace Microkernel.Mmu

open Translation

/-! ## The constants -/

def kPtePxN : BitVec 64 := 1#64 <<< 53
def kPteUxN : BitVec 64 := 1#64 <<< 54

def kAttrIdxNormal : BitVec 64 := 0#64
def kAttrIdxDevice : BitVec 64 := 1#64
def kAttrIdxNormalNc : BitVec 64 := 2#64

def kMairAttrNormalWbWa : BitVec 64 := 0xFF#64
def kMairAttrDevice_nGnRE : BitVec 64 := 0x04#64
def kMairAttrNormalNc : BitVec 64 := 0x44#64

def mairValue : BitVec 64 :=
  (kMairAttrNormalWbWa <<< (8#64 * kAttrIdxNormal)) ||| (kMairAttrDevice_nGnRE <<< (8#64 * kAttrIdxDevice)) |||
    (kMairAttrNormalNc <<< (8#64 * kAttrIdxNormalNc))

/-- `tcr_value`, from ID_AA64MMFR0_EL1. -/
def tcrValue (mmfr0 : BitVec 64) : BitVec 64 :=
  let parange := mmfr0 &&& 0xF#64
  let parange := if 6#64 < parange then 5#64 else parange
  16#64 ||| (1#64 <<< 23) ||| (1#64 <<< 8) ||| (1#64 <<< 10) ||| (3#64 <<< 12) ||| (0#64 <<< 14) ||| (parange <<< 32)

def kAf : BitVec 64 := 1#64 <<< 10
def kApKernelRw : BitVec 64 := 0#64 <<< 6

def pteTable (nextTablePhys : BitVec 64) : BitVec 64 := (nextTablePhys &&& 0x0000FFFFFFFFF000#64) ||| 0b11#64

def ptePage (physBase attrIndex sh : BitVec 64) : BitVec 64 :=
  (physBase &&& 0x0000FFFFFFFFF000#64) ||| 0b11#64 ||| (attrIndex <<< 2) ||| kApKernelRw ||| (sh <<< 8) ||| kAf

def pteBlock (physBase attrIndex sh : BitVec 64) : BitVec 64 :=
  (physBase &&& 0x0000FFFFFFFFF000#64) ||| 0b01#64 ||| (attrIndex <<< 2) ||| kApKernelRw ||| (sh <<< 8) ||| kAf

def kL2BlockSize : BitVec 64 := 1#64 <<< 21
def kPageSize : BitVec 64 := 1#64 <<< 12
def kL1BlockSize : BitVec 64 := 1#64 <<< 30

/-! ## The two boards -/

inductive Board where
  | virt
  | rpi4

/-- `DMA_WINDOW_POLICY`. -/
inductive Policy where
  | cacheable
  | noncacheable
  deriving DecidableEq

/-- Where RAM starts, as a number. -/
def Board.ram : Board → Nat
  | .virt => 0x40000000
  | .rpi4 => 0

/-- The DMA window of 128 KiB, anywhere in RAM. -/
structure Window (b : Board) where
  /-- `__dma_nc_start`. -/
  start : BitVec 64
  policy : Policy
  aligned : 4096 ∣ start.toNat
  above : b.ram ≤ start.toNat
  below : start.toNat + 0x20000 ≤ b.ram + 2 ^ 30

/-- `__dma_nc_end`. -/
def Window.stop {b : Board} (w : Window b) : BitVec 64 := w.start + 0x20000#64

/-- A window across a block boundary. -/
def sampleWindow : Window .virt where
  start := 0x401F0000#64
  policy := .noncacheable
  aligned := by decide
  above := by decide
  below := by decide

/-- The table arrays. -/
inductive Table where
  | l0
  | l1
  /-- `g_l2_ram`, `g_l2_lowram`. -/
  | l2
  | dma0
  | dma1
  | extra (k : Fin 8)
  deriving DecidableEq

/-- Where the linker put them. -/
structure Layout where
  addr : Table → BitVec 64
  aligned : ∀ t, 4096 ∣ (addr t).toNat
  small : ∀ t, (addr t).toNat < 2 ^ 48
  distinct : ∀ t t', addr t = addr t' → t = t'

/-- `kRamBase`; mmu_rpi4.cc has none, for its RAM starts at 0. -/
def Board.ramBase : Board → BitVec 64
  | .virt => 0x40000000#64
  | .rpi4 => 0#64

/-- The level 1 entries that are not 0. -/
def Board.l1 (L : Layout) : Board → List (Nat × BitVec 64)
  | .virt => [(0, pteBlock 0#64 kAttrIdxDevice 0#64 ||| kPtePxN ||| kPteUxN), (1, pteTable (L.addr .l2)),
      (2, pteBlock 0x40000000#64 kAttrIdxNormalNc 3#64 ||| kPtePxN ||| kPteUxN)]
  | .rpi4 => [(0, pteTable (L.addr .l2)), (1, pteBlock 0#64 kAttrIdxNormalNc 3#64 ||| kPtePxN ||| kPteUxN),
      (3, pteBlock 0xC0000000#64 kAttrIdxDevice 0#64 ||| kPtePxN ||| kPteUxN)]

/-- The test under which the window's blocks are split. -/
def Board.splits (dmaStart dmaEnd : BitVec 64) : Board → Bool
  | .virt => 0x40000000#64 ≤ dmaStart ∧ dmaStart < dmaEnd ∧ dmaEnd ≤ 0x80000000#64
  | .rpi4 => dmaStart < dmaEnd ∧ dmaStart / kL1BlockSize = 0#64 ∧ (dmaEnd - 1#64) / kL1BlockSize = 0#64

/-- The range check of `mmu_guard_page`. -/
def Board.guardable (va : BitVec 64) : Board → Bool
  | .virt => ¬ (va < 0x40000000#64 ∨ 0x80000000#64 ≤ va)
  | .rpi4 => ¬ kL1BlockSize ≤ va

/-! ## Building the tables -/

structure State where
  mem : Words
  /-- `g_l3_extra_next`. -/
  extraNext : Nat
  mair : BitVec 64
  tcr : BitVec 64
  ttbr0 : BitVec 64
  sctlr : BitVec 64


/-- The first loop clears entry `i` of five tables each time round. -/
def clearFive (L : Layout) (m : Words) : Nat → Words
  | 0 => m
  | n + 1 =>
    let m := clearFive L m n
    let m := setEntry m (L.addr .l0) n 0#64
    let m := setEntry m (L.addr .l1) n 0#64
    let m := setEntry m (L.addr .l2) n 0#64
    let m := setEntry m (L.addr .dma0) n 0#64
    setEntry m (L.addr .dma1) n 0#64

/-- The second loop, over the tables of the pool. -/
def clearExtra (L : Layout) (m : Words) : Words :=
  (List.finRange 8).foldl (fun m t => fillTable m (L.addr (.extra t)) (fun _ => 0#64) 512) m

/-- The address of the 2 MiB block `j` of RAM. -/
def blockAddr (b : Board) (j : Nat) : BitVec 64 := b.ramBase + BitVec.ofNat 64 j * kL2BlockSize

/-- The address of page `i` of the block at `blockBase`. -/
def pageAddr (blockBase : BitVec 64) (i : Nat) : BitVec 64 := blockBase + BitVec.ofNat 64 i * kPageSize

/-- The page descriptor of a block of the window. -/
def windowPte {b : Board} (w : Window b) (va : BitVec 64) : BitVec 64 :=
  let inside := w.start ≤ va ∧ va < w.stop
  let xn := if inside then kPtePxN ||| kPteUxN else 0#64
  let attr := if inside ∧ w.policy = .noncacheable then kAttrIdxNormalNc else kAttrIdxNormal
  ptePage va attr 3#64 ||| xn

/-- One turn of the loop over the window's blocks: fill the table, then link it. -/
def splitWindowBlock (b : Board) (L : Layout) (w : Window b) (m : Words) (blockBase : BitVec 64) (l3 : BitVec 64) : Words :=
  let l2Index := ((blockBase - b.ramBase) / kL2BlockSize).toNat
  let m := fillTable m l3 (fun i => windowPte w (pageAddr blockBase i)) 512
  setEntry m (L.addr .l2) l2Index (pteTable l3)

/-- `build_identity_map` and `build_map` up to the window: RAM is mapped in blocks. -/
def buildBlocks (b : Board) (L : Layout) (m : Words) : Words :=
  let m := clearExtra L (clearFive L m 512)
  let m := setEntry m (L.addr .l0) 0 (pteTable (L.addr .l1))
  let m := setEntries m (L.addr .l1) (b.l1 L)
  fillTable m (L.addr .l2) (fun i => pteBlock (blockAddr b i) kAttrIdxNormal 3#64) 512

/-- `build_identity_map` and `build_map`. -/
def buildMap (b : Board) (L : Layout) (w : Window b) (m : Words) : Words :=
  let m := buildBlocks b L m
  if b.splits w.start w.stop then
    let first := w.start &&& ~~~(kL2BlockSize - 1#64)
    let last := (w.stop - 1#64) &&& ~~~(kL2BlockSize - 1#64)
    let m := splitWindowBlock b L w m first (L.addr .dma0)
    if first = last then m else splitWindowBlock b L w m last (L.addr .dma1)
  else m

/-- `mmu_enabled`. -/
def State.enabled (s : State) : Bool := s.sctlr &&& 1#64 ≠ 0#64

/-- `mmu_init`. -/
def mmuInit (b : Board) (L : Layout) (w : Window b) (mmfr0 : BitVec 64) (enable : Bool) (s : State) : State :=
  if !enable then s
  else if s.sctlr &&& 1#64 ≠ 0#64 then s
  else
    { mem := buildMap b L w s.mem
      extraNext := 0
      mair := mairValue
      tcr := tcrValue mmfr0
      ttbr0 := L.addr .l0
      sctlr := s.sctlr ||| (1#64 <<< 0) ||| (1#64 <<< 2) ||| (1#64 <<< 12) }

/-! ## Guard pages -/

/-- `ensure_l3_for_ram_block`, `ensure_l3_for_lowram_block`; the result 0 is null. -/
def ensureL3 (b : Board) (L : Layout) (s : State) (l2Index : Nat) : State × BitVec 64 :=
  if 512 ≤ l2Index then (s, 0#64)
  else
    let e := entry s.mem (L.addr .l2) l2Index
    let type := e &&& 0b11#64
    if type = 0b11#64 then (s, e &&& 0x0000FFFFFFFFF000#64)
    else if type ≠ 0b01#64 then (s, 0#64)
    else if h : s.extraNext < 8 then
      let l3 := L.addr (.extra ⟨s.extraNext, h⟩)
      let attrIndex := (e >>> 2) &&& 0x7#64
      let sh := (e >>> 8) &&& 0x3#64
      let xn := e &&& (kPtePxN ||| kPteUxN)
      let m := fillTable s.mem l3 (fun i => ptePage (pageAddr (blockAddr b l2Index) i) attrIndex sh ||| xn) 512
      ({ s with mem := setEntry m (L.addr .l2) l2Index (pteTable l3), extraNext := s.extraNext + 1 }, l3)
    else (s, 0#64)

/-- `mmu_guard_page`. -/
def guardPage (b : Board) (L : Layout) (s : State) (addr : BitVec 64) : State × Int :=
  if addr = 0#64 then (s, -1)
  else if !s.enabled then (s, -1)
  else
    let va := addr &&& ~~~(kPageSize - 1#64)
    if !b.guardable va then (s, -1)
    else
      let off := va - b.ramBase
      let l2Index := (off / kL2BlockSize).toNat
      let l3Index := (off % kL2BlockSize / kPageSize).toNat
      let (s, l3) := ensureL3 b L s l2Index
      if l3 = 0#64 then (s, -1) else ({ s with mem := setEntry s.mem l3 l3Index 0#64 }, 0)

/-! ## Translation -/

/-- TCR_EL1 asks for T0SZ 16, 4 KiB granules and no walks from TTBR1_EL1. -/
theorem tcr_fields (mmfr0 : BitVec 64) :
    tcrValue mmfr0 &&& 0x3F#64 = 16#64 ∧ tcrValue mmfr0 &&& 0xC000#64 = 0#64 ∧
      tcrValue mmfr0 &&& (1#64 <<< 23) = 1#64 <<< 23 := by
  unfold tcrValue
  dsimp only
  simp only [BitVec.and_or_distrib_right]
  refine ⟨?_, ?_, ?_⟩ <;> rw [shiftLeft_and_low _ (by decide)] <;> decide

/-- The walk from TTBR0_EL1, for what TCR_EL1 asks: 48 bits and four levels. -/
def State.translate (s : State) (va : Nat) : Option Page := walk s.mem s.mair 3 (base s.ttbr0) va

end Microkernel.Mmu

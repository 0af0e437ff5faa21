/-
  Microkernel.Mem.FirstFit — the first-fit heap of src/mem_lab.cc.

  Blocks lie one behind the other in a region, each behind a header of 16 bytes: a magic
  number, the flags (bit 0 is set when the block is free) and the size of the payload.
  The three walks go from header to header; as nothing but the headers' contents ends
  them, each is given a number of rounds, and is `none` when these are used up.

  The region is what `Blocks` calls a tiling (`Holds`), with headers in memory that say
  so. Proved, one lemma for each function: on such a region allocation is
  `Blocks.firstFit` on the rounded request (`alloc_spec`), `heap_free` is
  `Blocks.release` and `Blocks.coalesce` (`free_spec`), `heap_stats` folds the free
  blocks (`stats_spec`), and each comes back within a round for every block and one more.
-/

import Microkernel.Lib.Align
import Microkernel.Lib.Blocks
import Microkernel.Lib.Bytes

namespace Microkernel.FirstFit

open Align Blocks Bytes

/-! ## src/mem_lab.cc -/

def kHeapMagic : BitVec 32 := 0x6d656d31#32
def kHeapFree : BitVec 32 := 1#32

/-! The fields of a `heap_block`. -/

def magic (m : Mem) (b : Addr) : BitVec 32 := BitVec.ofNat 32 (load m 4 b)

def flags (m : Mem) (b : Addr) : BitVec 32 := BitVec.ofNat 32 (load m 4 (b + 4#64))

def size (m : Mem) (b : Addr) : BitVec 64 := load64 m (b + 8#64)

def setMagic (m : Mem) (b : Addr) (v : BitVec 32) : Mem := store m 4 b v.toNat

def setFlags (m : Mem) (b : Addr) (v : BitVec 32) : Mem := store m 4 (b + 4#64) v.toNat

def setSize (m : Mem) (b : Addr) (v : BitVec 64) : Mem := store64 m (b + 8#64) v

def heapNext (m : Mem) (b : Addr) : Addr := roundUp (b + 16#64 + size m b) 16#64

def heapInit (m : Mem) (mem : Addr) (bytes : BitVec 64) : Mem :=
  setSize (setFlags (setMagic m mem kHeapMagic) mem kHeapFree) mem (bytes - 16#64)

/-- The block that was found, split if there is room. -/
def takeBlock (m : Mem) (b : Addr) (req : BitVec 64) : Mem :=
  let payload := b + 16#64
  let oldEnd := roundUp (payload + size m b) 16#64
  let newHdr := roundUp (payload + req) 16#64
  let newPayload := newHdr + 16#64
  let m :=
    if newPayload + 16#64 ≤ oldEnd then
      setSize (setSize (setFlags (setMagic m newHdr kHeapMagic) newHdr kHeapFree) newHdr (oldEnd - newPayload)) b req
    else m
  setFlags m b (flags m b &&& ~~~kHeapFree)

/-- The memory, the result (0 is null) and what is stored in `*out_steps`. -/
structure Alloc where
  mem : Mem
  ptr : Addr
  steps : Option (BitVec 64)

def fitFrom (stop : Addr) (req : BitVec 64) (m : Mem) : Nat → Addr → BitVec 64 → Option Alloc
  | 0, _, _ => none
  | k + 1, b, steps =>
    if ¬ b + 16#64 ≤ stop ∨ magic m b ≠ kHeapMagic then some ⟨m, 0#64, some steps⟩
    else if flags m b &&& kHeapFree = 0#32 ∨ size m b < req then fitFrom stop req m k (heapNext m b) (steps + 1#64)
    else some ⟨takeBlock m b req, b + 16#64, some (steps + 1#64)⟩

def heapAllocFirstFit (k : Nat) (m : Mem) (heap heapBytes req : BitVec 64) : Option Alloc :=
  if heap = 0#64 ∨ req = 0#64 then some ⟨m, 0#64, none⟩
  else fitFrom (heap + heapBytes) (roundUp req 16#64) m k heap 0#64

def coalesceFrom (stop : Addr) : Nat → Addr → Mem → Option Mem
  | 0, _, _ => none
  | k + 1, b, m =>
    if ¬ b + 16#64 ≤ stop ∨ magic m b ≠ kHeapMagic then some m
    else
      let n := heapNext m b
      if n + 16#64 > stop ∨ magic m n ≠ kHeapMagic then some m
      else if flags m b &&& kHeapFree ≠ 0#32 ∧ flags m n &&& kHeapFree ≠ 0#32 then
        -- the loop goes on with the same block
        let gap := n + 16#64 - (b + 16#64 + size m b)
        coalesceFrom stop k b (setSize m b (size m b + gap + size m n))
      else coalesceFrom stop k n m

def heapCoalesce (k : Nat) (m : Mem) (heap heapBytes : BitVec 64) : Option Mem := coalesceFrom (heap + heapBytes) k heap m

def heapFree (k : Nat) (m : Mem) (heap heapBytes p : BitVec 64) : Option Mem :=
  if heap = 0#64 ∨ p = 0#64 then some m
  else if p < heap + 16#64 ∨ p ≥ heap + heapBytes then some m
  else
    let b := p - 16#64
    if magic m b ≠ kHeapMagic then some m else heapCoalesce k (setFlags m b (flags m b ||| kHeapFree)) heap heapBytes

structure Stats where
  totalFree : BitVec 64
  largestFree : BitVec 64
  freeBlocks : BitVec 64

/-- A free block of `sz` bytes. -/
def Stats.add (s : Stats) (sz : BitVec 64) : Stats :=
  ⟨s.totalFree + sz, if sz > s.largestFree then sz else s.largestFree, s.freeBlocks + 1#64⟩

def statsFrom (stop : Addr) (m : Mem) : Nat → Addr → Stats → Option Stats
  | 0, _, _ => none
  | k + 1, b, s =>
    if ¬ b + 16#64 ≤ stop ∨ magic m b ≠ kHeapMagic then some s
    else statsFrom stop m k (heapNext m b) (if flags m b &&& kHeapFree = 0#32 then s else s.add (size m b))

/-- With all three results asked for. -/
def heapStats (k : Nat) (m : Mem) (heap heapBytes : BitVec 64) : Option Stats := statsFrom (heap + heapBytes) m k heap ⟨0#64, 0#64, 0#64⟩

/-! ## Fields -/

section Fields

variable {m m' : Mem} {b : Addr}

@[simp] theorem magic_setMagic (v : BitVec 32) : magic (setMagic m b v) b = v := by
  have hv : v.toNat < 256 ^ 4 := v.isLt
  unfold magic setMagic
  rw [load_store m (by decide), Nat.mod_eq_of_lt hv, BitVec.ofNat_toNat, BitVec.setWidth_eq]

@[simp] theorem flags_setFlags (v : BitVec 32) : flags (setFlags m b v) b = v := by
  have hv : v.toNat < 256 ^ 4 := v.isLt
  unfold flags setFlags
  rw [load_store m (by decide), Nat.mod_eq_of_lt hv, BitVec.ofNat_toNat, BitVec.setWidth_eq]

@[simp] theorem size_setSize (v : BitVec 64) : size (setSize m b v) b = v := load64_store64 m _ v

@[simp] theorem magic_setFlags (v : BitVec 32) : magic (setFlags m b v) b = magic m b := by
  unfold magic setFlags
  rw [load_store_apart (by decide) fun c hc => by bv_omega]

@[simp] theorem magic_setSize (v : BitVec 64) : magic (setSize m b v) b = magic m b := by
  unfold magic setSize store64
  rw [load_store_apart (by decide) fun c hc => by bv_omega]

@[simp] theorem flags_setSize (v : BitVec 64) : flags (setSize m b v) b = flags m b := by
  unfold flags setSize store64
  rw [load_store_apart (by decide) fun c hc => by bv_omega]

@[simp] theorem size_setFlags (v : BitVec 32) : size (setFlags m b v) b = size m b := by
  unfold size setFlags load64
  rw [load_store_apart (by decide) fun c hc => by bv_omega]

/-! Each lies in the 16 bytes of its header. -/

theorem setMagic_outside {v : BitVec 32} {x : Addr} (h : 16 ≤ (x - b).toNat) : setMagic m b v x = m x :=
  store_outside (by omega)

theorem setFlags_outside {v : BitVec 32} {x : Addr} (h : 16 ≤ (x - b).toNat) : setFlags m b v x = m x :=
  store_outside (by bv_omega)

theorem setSize_outside {v : BitVec 64} {x : Addr} (h : 16 ≤ (x - b).toNat) : setSize m b v x = m x :=
  store_outside (by bv_omega)

theorem fields_congr (h : ∀ x, (x - b).toNat < 16 → m' x = m x) :
    magic m' b = magic m b ∧ flags m' b = flags m b ∧ size m' b = size m b := by
  refine ⟨?_, ?_, ?_⟩
  · unfold magic
    rw [load_congr (by decide) fun x hx => h x (by omega)]
  · unfold flags
    rw [load_congr (by decide) fun x hx => h x (by bv_omega)]
  · exact load64_congr fun x hx => h x (by bv_omega)

end Fields

/-! ## Blocks in memory -/

/-- The memory of a heap. It comes from `kmem_alloc_aligned`, and behind `_heap_end` the
    linker scripts put the DMA window. -/
structure Arena where
  base : Addr
  bytes : BitVec 64
  pos : 0 < base.toNat
  aligned : 16 ∣ base.toNat
  whole : 16 ∣ bytes.toNat
  room : base.toNat + bytes.toNat + 32 < 2 ^ 64

/-- One byte behind it. -/
def Arena.hi (a : Arena) : Nat := a.base.toNat + a.bytes.toNat

theorem Arena.hi_lt (a : Arena) : a.hi + 32 < 2 ^ 64 := a.room

theorem Arena.base_eq (a : Arena) : a.base = BitVec.ofNat 64 a.base.toNat := by
  rw [BitVec.ofNat_toNat, BitVec.setWidth_eq]

theorem Arena.stop_eq (a : Arena) : a.base + a.bytes = BitVec.ofNat 64 a.hi := by
  apply BitVec.eq_of_toNat_eq
  rw [BitVec.toNat_add, BitVec.toNat_ofNat, Arena.hi]

theorem Arena.base_ne (a : Arena) : a.base ≠ 0#64 := by
  have hpos := a.pos
  intro h0
  rw [h0] at hpos
  exact absurd hpos (by decide)

structure HeaderAt (m : Mem) (b : Block) : Prop where
  magic : magic m (BitVec.ofNat 64 b.addr) = kHeapMagic
  flags : flags m (BitVec.ofNat 64 b.addr) = if b.free then kHeapFree else 0#32
  size : size m (BitVec.ofNat 64 b.addr) = BitVec.ofNat 64 b.size

/-- The blocks from `lo` to `hi`, and their headers. -/
structure Holds (hi : Nat) (m : Mem) (lo : Nat) (l : List Block) : Prop where
  tiles : Tiles 16 lo l hi
  start : 16 ∣ lo
  whole : ∀ b ∈ l, 16 ∣ b.size
  headers : ∀ b ∈ l, HeaderAt m b

/-- `m'` differs from `m` between `lo` and `hi` only. -/
def Within (lo hi : Nat) (m m' : Mem) : Prop := ∀ x : Addr, x.toNat < lo ∨ hi ≤ x.toNat → m' x = m x

theorem ceilTo_of_dvd {n : Nat} (h : 16 ∣ n) : ceilTo 16 n = n := by
  unfold ceilTo
  omega

theorem toNat_roundUp_16 (v : BitVec 64) :
    (roundUp v 16#64).toNat = if ceilTo 16 v.toNat < 2 ^ 64 then ceilTo 16 v.toNat else 0 := by
  have hpow : BitVec.twoPow 64 4 = 16#64 := by decide
  have hround := toNat_roundUp (show 4 < 64 by decide) v
  rw [hpow] at hround
  exact hround

theorem roundUp_16 {n : Nat} (hd : 16 ∣ n) (hlt : n < 2 ^ 64) : roundUp (BitVec.ofNat 64 n) 16#64 = BitVec.ofNat 64 n := by
  apply BitVec.eq_of_toNat_eq
  rw [toNat_roundUp_16, toNat_word hlt, ceilTo_of_dvd hd, if_pos hlt]

section Header

variable {m m' : Mem} {b : Block} {lo hi : Nat}

/-- A header outside of what has changed. -/
theorem HeaderAt.within (hh : HeaderAt m b) (hw : Within lo hi m m') (hlt : b.addr + 16 ≤ 2 ^ 64) (h : b.addr + 16 ≤ lo ∨ hi ≤ b.addr) :
    HeaderAt m' b := by
  have hsame : ∀ x, (x - BitVec.ofNat 64 b.addr).toNat < 16 → m' x = m x := by
    intro x hx
    have hword := toNat_word (show b.addr < 2 ^ 64 by omega)
    apply hw
    bv_omega
  obtain ⟨h1, h2, h3⟩ := fields_congr hsame
  exact ⟨h1.trans hh.magic, h2.trans hh.flags, h3.trans hh.size⟩

theorem HeaderAt.free_iff (hh : HeaderAt m b) : FirstFit.flags m (BitVec.ofNat 64 b.addr) &&& kHeapFree = 0#32 ↔ b.free = false := by
  rw [hh.flags]
  cases b.free <;> decide

theorem HeaderAt.taken (hh : HeaderAt m b) :
    HeaderAt (setFlags m (BitVec.ofNat 64 b.addr) (FirstFit.flags m (BitVec.ofNat 64 b.addr) &&& ~~~kHeapFree)) ⟨b.addr, b.size, false⟩ := by
  refine ⟨?_, ?_, ?_⟩
  · rw [magic_setFlags, hh.magic]
  · rw [flags_setFlags, hh.flags]
    cases b.free <;> rfl
  · rw [size_setFlags, hh.size]

theorem HeaderAt.freed (hh : HeaderAt m b) :
    HeaderAt (setFlags m (BitVec.ofNat 64 b.addr) (FirstFit.flags m (BitVec.ofNat 64 b.addr) ||| kHeapFree)) { b with free := true } := by
  refine ⟨?_, ?_, ?_⟩
  · rw [magic_setFlags, hh.magic]
  · rw [flags_setFlags, hh.flags]
    cases b.free <;> rfl
  · rw [size_setFlags, hh.size]

theorem HeaderAt.resized (hh : HeaderAt m b) (s : Nat) :
    HeaderAt (setSize m (BitVec.ofNat 64 b.addr) (BitVec.ofNat 64 s)) { b with size := s } := by
  refine ⟨?_, ?_, ?_⟩
  · rw [magic_setSize, hh.magic]
  · rw [flags_setSize, hh.flags]
  · rw [size_setSize]

/-- `heap_init` and a split write a whole header. -/
theorem headerAt_heapInit {n s : Nat} :
    HeaderAt (heapInit m (BitVec.ofNat 64 n) (BitVec.ofNat 64 (s + 16))) ⟨n, s, true⟩ := by
  have hsize : BitVec.ofNat 64 (s + 16) - 16#64 = BitVec.ofNat 64 s := by
    rw [BitVec.ofNat_add, BitVec.add_sub_cancel]
  unfold heapInit
  rw [hsize]
  constructor <;> simp

/-! What the stores to a header change. -/

theorem Within.mono {lo' hi' : Nat} (hw : Within lo hi m m') (hlo : lo' ≤ lo) (hhi : hi ≤ hi') : Within lo' hi' m m' := by
  intro x hx
  apply hw
  omega

theorem Within.trans {m'' : Mem} (h1 : Within lo hi m m') (h2 : Within lo hi m' m'') : Within lo hi m m'' := by
  intro x hx
  rw [h2 x hx, h1 x hx]

theorem within_header {n : Nat} (hn : n + 16 ≤ 2 ^ 64) (h : ∀ x, 16 ≤ (x - BitVec.ofNat 64 n).toNat → m' x = m x) : Within n (n + 16) m m' := by
  intro x hx
  have hword := toNat_word (show n < 2 ^ 64 by omega)
  apply h
  bv_omega

theorem within_setFlags {n : Nat} (hn : n + 16 ≤ 2 ^ 64) (v : BitVec 32) : Within n (n + 16) m (setFlags m (BitVec.ofNat 64 n) v) :=
  within_header hn fun _ hx => setFlags_outside hx

theorem within_setSize {n : Nat} (hn : n + 16 ≤ 2 ^ 64) (v : BitVec 64) : Within n (n + 16) m (setSize m (BitVec.ofNat 64 n) v) :=
  within_header hn fun _ hx => setSize_outside hx

theorem within_heapInit {n : Nat} (hn : n + 16 ≤ 2 ^ 64) (v : BitVec 64) : Within n (n + 16) m (heapInit m (BitVec.ofNat 64 n) v) := by
  refine within_header hn fun x hx => ?_
  rw [heapInit, setSize_outside hx, setFlags_outside hx, setMagic_outside hx]

/-- The alignment of `heap_next` never skips a byte. -/
theorem HeaderAt.next (hh : HeaderAt m b) (ha : 16 ∣ b.addr) (hs : 16 ∣ b.size) (hlt : b.stop 16 < 2 ^ 64) :
    heapNext m (BitVec.ofNat 64 b.addr) = BitVec.ofNat 64 (b.stop 16) := by
  have hdvd : 16 ∣ b.stop 16 := Nat.dvd_add (Nat.dvd_add ha (by decide)) hs
  rw [← roundUp_16 hdvd hlt, heapNext, hh.size]
  unfold Block.stop
  rw [BitVec.ofNat_add, BitVec.ofNat_add]

end Header

section Holds

variable {m m' : Mem} {b : Block} {l l₁ l₂ : List Block} {lo hi : Nat}

theorem Holds.tail (h : Holds hi m lo (b :: l)) : Holds hi m (b.stop 16) l := by
  obtain ⟨⟨ha, ht⟩, hstart, hw, hh⟩ := h
  have hnext : 16 ∣ b.stop 16 := by
    have hs := hw b List.mem_cons_self
    unfold Block.stop
    omega
  exact ⟨ht, hnext, fun c hc => hw c (List.mem_cons_of_mem b hc), fun c hc => hh c (List.mem_cons_of_mem b hc)⟩

theorem Holds.addr (h : Holds hi m lo (b :: l)) : b.addr = lo := h.tiles.1

theorem Holds.stop_le (h : Holds hi m lo (b :: l)) : b.stop 16 ≤ hi := h.tiles.2.le

theorem Holds.dvd (h : Holds hi m lo l) (hb : b ∈ l) : 16 ∣ b.addr := h.tiles.dvd_addr (by decide) h.start h.whole hb

theorem Holds.next (hhi : hi < 2 ^ 64) (h : Holds hi m lo (b :: l)) :
    heapNext m (BitVec.ofNat 64 lo) = BitVec.ofNat 64 (b.stop 16) := by
  have hstop := h.stop_le
  have hb := List.mem_cons_self (a := b) (l := l)
  rw [← h.addr]
  exact (h.headers b hb).next (h.dvd hb) (h.whole b hb) (by omega)

/-- The condition of the loops. -/
theorem more_iff {x : Nat} (hhi : hi + 32 < 2 ^ 64) (hx : x ≤ hi) : BitVec.ofNat 64 x + 16#64 ≤ BitVec.ofNat 64 hi ↔ x + 16 ≤ hi := by
  rw [BitVec.le_def, BitVec.toNat_add, toNat_word (by omega), toNat_word (by omega), BitVec.toNat_ofNat]
  omega

/-- At the end of the blocks they leave. -/
theorem Holds.leaves (hhi : hi + 32 < 2 ^ 64) (h : Holds hi m lo []) : ¬ BitVec.ofNat 64 lo + 16#64 ≤ BitVec.ofNat 64 hi := by
  have heq : lo = hi := h.tiles
  rw [more_iff hhi (by omega)]
  omega

theorem Holds.stays (hhi : hi + 32 < 2 ^ 64) (h : Holds hi m lo (b :: l)) :
    ¬ (¬ BitVec.ofNat 64 lo + 16#64 ≤ BitVec.ofNat 64 hi ∨ magic m (BitVec.ofNat 64 lo) ≠ kHeapMagic) := by
  have hstop := h.stop_le
  have haddr := h.addr
  unfold Block.stop at hstop
  rw [not_or, not_not, not_not, more_iff hhi (by omega)]
  refine ⟨by omega, ?_⟩
  rw [← haddr]
  exact (h.headers b List.mem_cons_self).magic

theorem Holds.cons (hstart : 16 ∣ lo) (ha : b.addr = lo) (hs : 16 ∣ b.size) (hh : HeaderAt m b) (h : Holds hi m (b.stop 16) l) :
    Holds hi m lo (b :: l) :=
  ⟨⟨ha, h.tiles⟩, hstart, List.forall_mem_cons.mpr ⟨hs, h.whole⟩, List.forall_mem_cons.mpr ⟨hh, h.headers⟩⟩

/-- Changes that reach no header. -/
theorem Holds.within {lo' hi' : Nat} (h : Holds hi m lo l) (hhi : hi < 2 ^ 64) (hw : Within lo' hi' m m')
    (hout : ∀ b ∈ l, b.addr + 16 ≤ lo' ∨ hi' ≤ b.addr) : Holds hi m' lo l := by
  refine ⟨h.tiles, h.start, h.whole, fun b hb => (h.headers b hb).within hw ?_ (hout b hb)⟩
  have hstop := (h.tiles.mem hb).2
  unfold Block.stop at hstop
  omega

/-- Also in a payload. -/
theorem Holds.write (h : Holds hi m lo l) (hhi : hi < 2 ^ 64) (hb : b ∈ l) (hw : Within (b.addr + 16) (b.stop 16) m m') :
    Holds hi m' lo l := by
  refine h.within hhi hw fun c hc => ?_
  by_cases heq : b = c
  · subst heq
    exact Or.inl (Nat.le_refl _)
  · have hapart := h.tiles.apart hb hc heq
    unfold Block.stop at hapart ⊢
    omega

/-! ## `heap_alloc_first_fit` -/

theorem Holds.skip_iff {r : Nat} (hhi : hi < 2 ^ 64) (hr : r < 2 ^ 64) (h : Holds hi m lo (b :: l)) :
    flags m (BitVec.ofNat 64 lo) &&& kHeapFree = 0#32 ∨ size m (BitVec.ofNat 64 lo) < BitVec.ofNat 64 r ↔ ¬ Fits r b := by
  have hstop := h.stop_le
  have hh := h.headers b List.mem_cons_self
  unfold Block.stop at hstop
  rw [← h.addr, hh.free_iff, hh.size, BitVec.lt_def, toNat_word (by omega), toNat_word hr]
  unfold Fits
  rw [not_and_or, Bool.not_eq_true, not_le]

/-- The walk finds what `firstFit` finds. -/
theorem fitFrom_spec {r : Nat} (hhi : hi + 32 < 2 ^ 64) (hr : r < 2 ^ 64) (k : Nat) (steps : BitVec 64) (h : Holds hi m lo l) :
    (fitFrom (BitVec.ofNat 64 hi) (BitVec.ofNat 64 r) m k (BitVec.ofNat 64 lo) steps = none ∧ k ≤ l.length) ∨
    ∃ n, fitFrom (BitVec.ofNat 64 hi) (BitVec.ofNat 64 r) m k (BitVec.ofNat 64 lo) steps =
      match firstFit 16 16 r l with
      | none => some ⟨m, 0#64, some n⟩
      | some x => some ⟨takeBlock m (BitVec.ofNat 64 x.2) (BitVec.ofNat 64 r), BitVec.ofNat 64 x.2 + 16#64, some n⟩ := by
  induction l generalizing lo k steps with
  | nil =>
    cases k with
    | zero => exact Or.inl ⟨rfl, Nat.le_refl 0⟩
    | succ k =>
      refine Or.inr ⟨steps, ?_⟩
      rw [fitFrom, if_pos (Or.inl (h.leaves hhi))]
      rfl
  | cons b l ih =>
    cases k with
    | zero => exact Or.inl ⟨rfl, Nat.zero_le _⟩
    | succ k =>
      rw [fitFrom, if_neg (h.stays hhi), firstFit]
      by_cases hb : Fits r b
      · refine Or.inr ⟨steps + 1#64, ?_⟩
        rw [if_neg (not_not.mpr hb ∘ (h.skip_iff (by omega) hr).mp), if_pos hb, ← h.addr]
      · rw [if_pos ((h.skip_iff (by omega) hr).mpr hb), if_neg hb, h.next (by omega)]
        rcases ih k (steps + 1#64) h.tail with ⟨hnone, hk⟩ | ⟨n, hsome⟩
        · exact Or.inl ⟨hnone, Nat.succ_le_succ hk⟩
        · refine Or.inr ⟨n, ?_⟩
          rw [hsome]
          cases firstFit 16 16 r l <;> rfl

/-- `takeBlock` on numbers. -/
theorem takeBlock_eq {r : Nat} (hh : HeaderAt m b) (ha : 16 ∣ b.addr) (hs : 16 ∣ b.size) (hr : 16 ∣ r) (hle : r ≤ b.size)
    (hlt : b.stop 16 + 32 < 2 ^ 64) :
    takeBlock m (BitVec.ofNat 64 b.addr) (BitVec.ofNat 64 r) =
      (let m' :=
        if r + 16 + 16 ≤ b.size then
          setSize (heapInit m (BitVec.ofNat 64 (b.addr + 16 + r)) (BitVec.ofNat 64 (b.size - r - 16 + 16))) (BitVec.ofNat 64 b.addr)
            (BitVec.ofNat 64 r)
        else m
       setFlags m' (BitVec.ofNat 64 b.addr) (flags m' (BitVec.ofNat 64 b.addr) &&& ~~~kHeapFree)) := by
  unfold Block.stop at hlt
  have hend : roundUp (BitVec.ofNat 64 b.addr + 16#64 + BitVec.ofNat 64 b.size) 16#64 = BitVec.ofNat 64 (b.addr + 16 + b.size) := by
    rw [← BitVec.ofNat_add, ← BitVec.ofNat_add]
    exact roundUp_16 (by omega) (by omega)
  have hnew : roundUp (BitVec.ofNat 64 b.addr + 16#64 + BitVec.ofNat 64 r) 16#64 = BitVec.ofNat 64 (b.addr + 16 + r) := by
    rw [← BitVec.ofNat_add, ← BitVec.ofNat_add]
    exact roundUp_16 (by omega) (by omega)
  have hroom : BitVec.ofNat 64 (b.addr + 16 + r) + 16#64 + 16#64 ≤ BitVec.ofNat 64 (b.addr + 16 + b.size) ↔ r + 16 + 16 ≤ b.size := by
    rw [← BitVec.ofNat_add, ← BitVec.ofNat_add, BitVec.le_def, toNat_word (by omega), toNat_word (by omega)]
    omega
  unfold takeBlock heapInit
  simp only [hh.size, hend, hnew, hroom]
  by_cases hsplit : r + 16 + 16 ≤ b.size
  · have hend' : BitVec.ofNat 64 (b.addr + 16 + b.size) = BitVec.ofNat 64 (b.size - r - 16) + (BitVec.ofNat 64 (b.addr + 16 + r) + 16#64) := by
      rw [← BitVec.ofNat_add, ← BitVec.ofNat_add]
      congr 1
      omega
    have hrest : BitVec.ofNat 64 (b.addr + 16 + b.size) - (BitVec.ofNat 64 (b.addr + 16 + r) + 16#64) =
        BitVec.ofNat 64 (b.size - r - 16 + 16) - 16#64 := by
      rw [hend', BitVec.add_sub_cancel, BitVec.ofNat_add (b.size - r - 16) 16, BitVec.add_sub_cancel]
    simp only [if_pos hsplit, hrest]
  · simp only [if_neg hsplit]

theorem takeBlock_spec {r : Nat} (hh : HeaderAt m b) (ha : 16 ∣ b.addr) (hs : 16 ∣ b.size) (hr : 16 ∣ r) (hle : r ≤ b.size)
    (hlt : b.stop 16 + 32 < 2 ^ 64) :
    (∀ c ∈ carve 16 16 r b, HeaderAt (takeBlock m (BitVec.ofNat 64 b.addr) (BitVec.ofNat 64 r)) c) ∧
      Within b.addr (b.stop 16) m (takeBlock m (BitVec.ofNat 64 b.addr) (BitVec.ofNat 64 r)) := by
  rw [takeBlock_eq hh ha hs hr hle hlt]
  unfold Block.stop at hlt ⊢
  unfold carve
  by_cases hsplit : r + 16 + 16 ≤ b.size
  · simp only [if_pos hsplit]
    -- the new header, then two stores to the old one
    have hw0 : Within (b.addr + 16 + r) (b.addr + 16 + r + 16) m
        (heapInit m (BitVec.ofNat 64 (b.addr + 16 + r)) (BitVec.ofNat 64 (b.size - r - 16 + 16))) := within_heapInit (by omega) _
    have hnew := @headerAt_heapInit m (b.addr + 16 + r) (b.size - r - 16)
    have hold := hh.within hw0 (by omega) (by omega)
    revert hw0 hnew hold
    generalize heapInit m (BitVec.ofNat 64 (b.addr + 16 + r)) (BitVec.ofNat 64 (b.size - r - 16 + 16)) = m0
    intro hw0 hnew hold
    have hsized := hold.resized r
    have hw1 : Within b.addr (b.addr + 16) m0 (setSize m0 (BitVec.ofNat 64 b.addr) (BitVec.ofNat 64 r)) := within_setSize (by omega) _
    revert hw1 hsized
    generalize setSize m0 (BitVec.ofNat 64 b.addr) (BitVec.ofNat 64 r) = m1
    intro hsized hw1
    have hw2 : Within b.addr (b.addr + 16) m1 (setFlags m1 (BitVec.ofNat 64 b.addr) (flags m1 (BitVec.ofNat 64 b.addr) &&& ~~~kHeapFree)) :=
      within_setFlags (by omega) _
    have hw12 := hw1.trans hw2
    constructor
    · intro c hc
      simp only [List.mem_cons, List.not_mem_nil, or_false] at hc
      rcases hc with rfl | rfl
      · exact hsized.taken
      · exact hnew.within hw12 (by dsimp only; omega) (Or.inr (by dsimp only; omega))
    · exact (hw0.mono (by omega) (by omega)).trans (hw12.mono (by omega) (by omega))
  · simp only [if_neg hsplit]
    constructor
    · intro c hc
      rw [List.mem_singleton] at hc
      subst hc
      exact hh.taken
    · exact (within_setFlags (by omega) _).mono (by omega) (by omega)

theorem Holds.take {r p : Nat} {l' : List Block} (hhi : hi + 32 < 2 ^ 64) (hr : 16 ∣ r) (h : Holds hi m lo l)
    (hf : firstFit 16 16 r l = some (l', p)) : Holds hi (takeBlock m (BitVec.ofNat 64 p) (BitVec.ofNat 64 r)) lo l' := by
  obtain ⟨l₁, b, l₂, rfl, hb, rfl, rfl⟩ := firstFit_some hf
  have hmem : b ∈ l₁ ++ b :: l₂ := by simp
  have hstop := (h.tiles.mem hmem).2
  obtain ⟨hcarved, hw⟩ := takeBlock_spec (h.headers b hmem) (h.dvd hmem) (h.whole b hmem) hr hb.2 (by omega)
  have hwhole : ∀ c ∈ l₁ ++ (carve 16 16 r b ++ l₂), 16 ∣ c.size :=
    sizes_carve (P := fun s => 16 ∣ s) hr (fun s hs hle => by omega) h.whole
  refine ⟨tiles_carve h.tiles, h.start, hwhole, fun c hc => ?_⟩
  rw [List.mem_append, List.mem_append] at hc
  have hother : c ∈ l₁ ++ b :: l₂ → c ≠ b → HeaderAt (takeBlock m (BitVec.ofNat 64 b.addr) (BitVec.ofNat 64 r)) c := by
    intro hc hne
    have hcstop := (h.tiles.mem hc).2
    have hapart := h.tiles.apart hc hmem hne
    unfold Block.stop at hapart hcstop
    exact (h.headers c hc).within hw (by omega) (by unfold Block.stop; omega)
  have hpair := h.tiles.pairwise
  rw [List.pairwise_append, List.pairwise_cons] at hpair
  obtain ⟨-, ⟨hafter, -⟩, hbefore⟩ := hpair
  rcases hc with hc | hc | hc
  · have hlt := hbefore c hc b List.mem_cons_self
    refine hother (by simp [hc]) ?_
    rintro rfl
    unfold Block.stop at hlt
    omega
  · exact hcarved c hc
  · have hlt := hafter c hc
    refine hother (by simp [hc]) ?_
    rintro rfl
    unfold Block.stop at hlt
    omega

/-- What the request is rounded to. -/
def rounded (req : BitVec 64) : Nat := (roundUp req 16#64).toNat

theorem dvd_rounded (req : BitVec 64) : 16 ∣ rounded req := by
  unfold rounded
  rw [toNat_roundUp_16]
  split
  · exact dvd_ceilTo 16 _
  · exact Nat.dvd_zero 16

/-- On a heap, with a request that is not 0. -/
theorem alloc_spec {a : Arena} {req : BitVec 64} (hreq : req ≠ 0#64) (k : Nat) (h : Holds a.hi m a.base.toNat l) :
    (heapAllocFirstFit k m a.base a.bytes req = none ∧ k ≤ l.length) ∨
    (firstFit 16 16 (rounded req) l = none ∧ ∃ n, heapAllocFirstFit k m a.base a.bytes req = some ⟨m, 0#64, some n⟩) ∨
    ∃ l' p m' n, firstFit 16 16 (rounded req) l = some (l', p) ∧
      heapAllocFirstFit k m a.base a.bytes req = some ⟨m', BitVec.ofNat 64 (p + 16), some n⟩ ∧ Holds a.hi m' a.base.toNat l' := by
  have hhi := a.hi_lt
  have hargs : ¬ (a.base = 0#64 ∨ req = 0#64) := not_or.mpr ⟨a.base_ne, hreq⟩
  have hround : BitVec.ofNat 64 (rounded req) = roundUp req 16#64 := by rw [rounded, BitVec.ofNat_toNat, BitVec.setWidth_eq]
  have hcall : heapAllocFirstFit k m a.base a.bytes req =
      fitFrom (BitVec.ofNat 64 a.hi) (BitVec.ofNat 64 (rounded req)) m k (BitVec.ofNat 64 a.base.toNat) 0#64 := by
    rw [heapAllocFirstFit, if_neg hargs, hround, ← a.stop_eq, ← a.base_eq]
  rw [hcall]
  rcases fitFrom_spec hhi (roundUp req 16#64).isLt k 0#64 h with hnone | ⟨n, hsome⟩
  · exact Or.inl hnone
  · refine Or.inr ?_
    cases hf : firstFit 16 16 (rounded req) l with
    | none =>
      rw [rounded] at hf
      rw [hf] at hsome
      exact Or.inl ⟨rfl, n, hsome⟩
    | some x =>
      have hf' := hf
      rw [rounded] at hf'
      rw [hf'] at hsome
      refine Or.inr ⟨x.1, x.2, _, n, rfl, ?_, h.take hhi (dvd_rounded req) hf⟩
      rw [BitVec.ofNat_add]
      exact hsome

/-! ## `heap_coalesce` -/

/-- The two blocks become one: the gap between them is the header of the second. -/
theorem Holds.join {x y : Block} (hhi : hi + 32 < 2 ^ 64) (h : Holds hi m lo (x :: y :: l)) :
    Holds hi (setSize m (BitVec.ofNat 64 x.addr) (BitVec.ofNat 64 (x.size + 16 + y.size))) lo ({ x with size := x.size + 16 + y.size } :: l) ∧
      Within lo hi m (setSize m (BitVec.ofNat 64 x.addr) (BitVec.ofNat 64 (x.size + 16 + y.size))) := by
  have hx := h.addr
  have hy : y.addr = x.stop 16 := h.tail.addr
  have hend := h.tail.stop_le
  have hrest := h.tail.tail
  have hsx := h.whole x List.mem_cons_self
  have hsy := h.whole y (by simp)
  have hstart := h.start
  have hw : Within x.addr (x.addr + 16) m (setSize m (BitVec.ofNat 64 x.addr) (BitVec.ofNat 64 (x.size + 16 + y.size))) := by
    unfold Block.stop at hy hend
    exact within_setSize (by omega) _
  have hstop : Block.stop 16 { x with size := x.size + 16 + y.size } = y.stop 16 := by
    unfold Block.stop at hy ⊢
    dsimp only
    omega
  constructor
  · refine Holds.cons hstart hx ?_ ((h.headers x List.mem_cons_self).resized _) ?_
    · dsimp only
      omega
    · rw [hstop]
      refine hrest.within (by omega) hw fun b hb => Or.inr ?_
      have hle := (hrest.tiles.mem hb).1
      unfold Block.stop at hy hle
      omega
  · unfold Block.stop at hy hend
    exact hw.mono (by omega) (by omega)

theorem coalesceFrom_spec {x : Block} (hhi : hi + 32 < 2 ^ 64) (k : Nat) (h : Holds hi m lo (x :: l)) :
    (coalesceFrom (BitVec.ofNat 64 hi) k (BitVec.ofNat 64 lo) m = none ∧ k ≤ l.length + 1) ∨
    ∃ m', coalesceFrom (BitVec.ofNat 64 hi) k (BitVec.ofNat 64 lo) m = some m' ∧ Holds hi m' lo (mergeFrom 16 x l) ∧ Within lo hi m m' := by
  induction l generalizing x lo m k with
  | nil =>
    cases k with
    | zero => exact Or.inl ⟨rfl, Nat.zero_le _⟩
    | succ k =>
      have hleave := h.tail.leaves hhi
      refine Or.inr ⟨m, ?_, h, fun _ _ => rfl⟩
      rw [coalesceFrom, if_neg (h.stays hhi)]
      simp only [h.next (by omega)]
      rw [if_pos (Or.inl (BitVec.not_le.mp hleave))]
  | cons y l ih =>
    cases k with
    | zero => exact Or.inl ⟨rfl, Nat.zero_le _⟩
    | succ k =>
      have hx := h.addr
      have hy : y.addr = x.stop 16 := h.tail.addr
      have hend := h.tail.stop_le
      have hhx := h.headers x List.mem_cons_self
      have hhy := h.headers y (by simp)
      have hstay := h.tail.stays hhi
      rw [BitVec.not_le] at hstay
      have hfree : flags m (BitVec.ofNat 64 lo) &&& kHeapFree ≠ 0#32 ∧ flags m (BitVec.ofNat 64 (x.stop 16)) &&& kHeapFree ≠ 0#32 ↔
          x.free = true ∧ y.free = true := by
        rw [← hx, ← hy, Ne, Ne, hhx.free_iff, hhy.free_iff, Bool.not_eq_false, Bool.not_eq_false]
      rw [coalesceFrom, if_neg (h.stays hhi), mergeFrom]
      simp only [h.next (by omega)]
      rw [if_neg hstay]
      by_cases hboth : x.free = true ∧ y.free = true
      · rw [if_pos (hfree.mpr hboth), if_pos hboth]
        obtain ⟨hjoin, hw⟩ := h.join hhi
        have hvalue : size m (BitVec.ofNat 64 lo) +
            (BitVec.ofNat 64 (x.stop 16) + 16#64 - (BitVec.ofNat 64 lo + 16#64 + size m (BitVec.ofNat 64 lo))) +
            size m (BitVec.ofNat 64 (x.stop 16)) = BitVec.ofNat 64 (x.size + 16 + y.size) := by
          rw [← hy, hhy.size, hy, ← hx, hhx.size]
          unfold Block.stop
          rw [BitVec.ofNat_add, BitVec.ofNat_add, BitVec.ofNat_add, BitVec.ofNat_add, BitVec.add_comm _ 16#64, BitVec.add_sub_cancel]
        rw [hvalue, ← hx]
        rw [← hx] at hjoin hw
        rcases ih k hjoin with ⟨hnone, hk⟩ | ⟨m', hsome, hm', hw'⟩
        · exact Or.inl ⟨hnone, Nat.succ_le_succ hk⟩
        · exact Or.inr ⟨m', hsome, hm', hw.trans hw'⟩
      · rw [if_neg (fun hc => hboth (hfree.mp hc)), if_neg hboth]
        rcases ih k h.tail with ⟨hnone, hk⟩ | ⟨m', hsome, hm', hw⟩
        · exact Or.inl ⟨hnone, Nat.succ_le_succ hk⟩
        · have hlow : lo + 16 ≤ x.stop 16 := by
            unfold Block.stop
            omega
          have hxend := h.stop_le
          have hhx' : HeaderAt m' x := hhx.within hw (by omega) (Or.inl (by omega))
          exact Or.inr ⟨m', hsome, Holds.cons h.start hx (h.whole x List.mem_cons_self) hhx' hm', hw.mono (by omega) (Nat.le_refl hi)⟩

theorem heapCoalesce_spec {a : Arena} (k : Nat) (h : Holds a.hi m a.base.toNat l) :
    (heapCoalesce k m a.base a.bytes = none ∧ k ≤ l.length) ∨
    ∃ m', heapCoalesce k m a.base a.bytes = some m' ∧ Holds a.hi m' a.base.toNat (coalesce 16 l) := by
  have hhi := a.hi_lt
  have hcall : heapCoalesce k m a.base a.bytes = coalesceFrom (BitVec.ofNat 64 a.hi) k (BitVec.ofNat 64 a.base.toNat) m := by
    rw [heapCoalesce, ← a.stop_eq, ← a.base_eq]
  rw [hcall]
  cases l with
  | nil =>
    cases k with
    | zero => exact Or.inl ⟨rfl, Nat.le_refl 0⟩
    | succ k =>
      refine Or.inr ⟨m, ?_, h⟩
      rw [coalesceFrom, if_pos (Or.inl (h.leaves hhi))]
  | cons x l =>
    rcases coalesceFrom_spec hhi k h with hnone | ⟨m', hsome, hm', -⟩
    · exact Or.inl hnone
    · exact Or.inr ⟨m', hsome, hm'⟩

/-! ## `heap_free` -/

theorem Holds.release (hhi : hi + 32 < 2 ^ 64) (h : Holds hi m lo l) (hb : b ∈ l) :
    Holds hi (setFlags m (BitVec.ofNat 64 b.addr) (flags m (BitVec.ofNat 64 b.addr) ||| kHeapFree)) lo (Blocks.release b.addr l) := by
  have hstop := (h.tiles.mem hb).2
  unfold Block.stop at hstop
  refine ⟨tiles_release h.tiles, h.start, sizes_release (P := fun s => 16 ∣ s) h.whole, fun c hc => ?_⟩
  obtain ⟨x, hx, rfl⟩ := List.mem_map.mp hc
  by_cases haddr : x.addr = b.addr
  · have heq := h.tiles.addr_inj (by decide) hx hb haddr
    subst heq
    rw [if_pos rfl]
    exact (h.headers x hx).freed
  · rw [if_neg haddr]
    have hxstop := (h.tiles.mem hx).2
    have hapart := h.tiles.apart hx hb (fun heq => haddr (congrArg Block.addr heq))
    unfold Block.stop at hapart hxstop
    exact (h.headers x hx).within (within_setFlags (by omega) _) (by omega) (by omega)

/-- A block whose payload is behind the end is not freed. -/
theorem free_spec {a : Arena} (k : Nat) (h : Holds a.hi m a.base.toNat l) (hb : b ∈ l) :
    (a.hi ≤ b.addr + 16 ∧ heapFree k m a.base a.bytes (BitVec.ofNat 64 (b.addr + 16)) = some m) ∨
    (b.addr + 16 < a.hi ∧ heapFree k m a.base a.bytes (BitVec.ofNat 64 (b.addr + 16)) = none ∧ k ≤ l.length) ∨
    (b.addr + 16 < a.hi ∧ ∃ m', heapFree k m a.base a.bytes (BitVec.ofNat 64 (b.addr + 16)) = some m' ∧
      Holds a.hi m' a.base.toNat (coalesce 16 (Blocks.release b.addr l))) := by
  have hhi := a.hi_lt
  obtain ⟨hlow, hstop⟩ := h.tiles.mem hb
  unfold Block.stop at hstop
  have hword : (BitVec.ofNat 64 (b.addr + 16)).toNat = b.addr + 16 := toNat_word (by omega)
  have hend : (a.base + a.bytes).toNat = a.hi := by rw [a.stop_eq, toNat_word (by omega)]
  have hargs : ¬ (a.base = 0#64 ∨ BitVec.ofNat 64 (b.addr + 16) = 0#64) := by
    refine not_or.mpr ⟨a.base_ne, fun h0 => ?_⟩
    rw [h0] at hword
    exact absurd hword (by simp)
  have hrange : BitVec.ofNat 64 (b.addr + 16) < a.base + 16#64 ∨ BitVec.ofNat 64 (b.addr + 16) ≥ a.base + a.bytes ↔ a.hi ≤ b.addr + 16 := by
    rw [BitVec.lt_def, ge_iff_le, BitVec.le_def, hword, hend]
    have hfirst : (a.base + 16#64).toNat = a.base.toNat + 16 := by
      rw [BitVec.toNat_add]
      exact Nat.mod_eq_of_lt (show a.base.toNat + 16 < 2 ^ 64 by omega)
    omega
  by_cases hlast : a.hi ≤ b.addr + 16
  · refine Or.inl ⟨hlast, ?_⟩
    rw [heapFree, if_neg hargs, if_pos (hrange.mpr hlast)]
  · refine Or.inr ?_
    have hlt := not_le.mp hlast
    have hhdr : BitVec.ofNat 64 (b.addr + 16) - 16#64 = BitVec.ofNat 64 b.addr := by rw [BitVec.ofNat_add, BitVec.add_sub_cancel]
    have hmagic := (h.headers b hb).magic
    have hcall : heapFree k m a.base a.bytes (BitVec.ofNat 64 (b.addr + 16)) =
        heapCoalesce k (setFlags m (BitVec.ofNat 64 b.addr) (flags m (BitVec.ofNat 64 b.addr) ||| kHeapFree)) a.base a.bytes := by
      rw [heapFree, if_neg hargs, if_neg (fun hc => hlast (hrange.mp hc))]
      simp only [hhdr]
      rw [if_neg (not_not.mpr hmagic)]
    rw [hcall]
    rcases heapCoalesce_spec k (h.release hhi hb) with ⟨hnone, hk⟩ | ⟨m', hsome, hm'⟩
    · rw [Blocks.release, List.length_map] at hk
      exact Or.inl ⟨hlt, hnone, hk⟩
    · exact Or.inr ⟨hlt, m', hsome, hm'⟩

/-! ## `heap_stats` -/

theorem statsFrom_spec (hhi : hi + 32 < 2 ^ 64) (k : Nat) (s : Stats) (h : Holds hi m lo l) :
    (statsFrom (BitVec.ofNat 64 hi) m k (BitVec.ofNat 64 lo) s = none ∧ k ≤ l.length) ∨
    statsFrom (BitVec.ofNat 64 hi) m k (BitVec.ofNat 64 lo) s =
      some ((l.filter (·.free)).foldl (fun s b => s.add (BitVec.ofNat 64 b.size)) s) := by
  induction l generalizing lo k s with
  | nil =>
    cases k with
    | zero => exact Or.inl ⟨rfl, Nat.le_refl 0⟩
    | succ k =>
      refine Or.inr ?_
      rw [statsFrom, if_pos (Or.inl (h.leaves hhi))]
      rfl
  | cons b l ih =>
    cases k with
    | zero => exact Or.inl ⟨rfl, Nat.zero_le _⟩
    | succ k =>
      have hh := h.headers b List.mem_cons_self
      have hb := h.addr
      have hstep : (if flags m (BitVec.ofNat 64 lo) &&& kHeapFree = 0#32 then s else s.add (size m (BitVec.ofNat 64 lo))) =
          if b.free = true then s.add (BitVec.ofNat 64 b.size) else s := by
        rw [← hb, hh.size]
        by_cases hfree : b.free = true
        · rw [if_pos hfree, if_neg (by rw [hh.free_iff, hfree]; decide)]
        · rw [if_neg hfree, if_pos (hh.free_iff.mpr (Bool.eq_false_iff.mpr hfree))]
      rw [statsFrom, if_neg (h.stays hhi), h.next (by omega), hstep]
      rcases ih k (if b.free = true then s.add (BitVec.ofNat 64 b.size) else s) h.tail with ⟨hnone, hk⟩ | hsome
      · exact Or.inl ⟨hnone, Nat.succ_le_succ hk⟩
      · refine Or.inr (hsome.trans ?_)
        cases hfree : b.free <;> simp [hfree]

theorem stats_spec {a : Arena} (k : Nat) (h : Holds a.hi m a.base.toNat l) :
    (heapStats k m a.base a.bytes = none ∧ k ≤ l.length) ∨
    heapStats k m a.base a.bytes =
      some ((l.filter (·.free)).foldl (fun s b => s.add (BitVec.ofNat 64 b.size)) ⟨0#64, 0#64, 0#64⟩) := by
  have hcall : heapStats k m a.base a.bytes =
      statsFrom (BitVec.ofNat 64 a.hi) m k (BitVec.ofNat 64 a.base.toNat) ⟨0#64, 0#64, 0#64⟩ := by
    rw [heapStats, ← a.stop_eq, ← a.base_eq]
  rw [hcall]
  exact statsFrom_spec a.hi_lt k _ h

/-- The largest of them. -/
theorem le_largest_iff {n : Nat} (l : List Block) (s : Stats) (hl : ∀ b ∈ l, b.size < 2 ^ 64) :
    n ≤ (l.foldl (fun s b => s.add (BitVec.ofNat 64 b.size)) s).largestFree.toNat ↔ n ≤ s.largestFree.toNat ∨ ∃ b ∈ l, n ≤ b.size := by
  induction l generalizing s with
  | nil => simp
  | cons b l ih =>
    rw [List.forall_mem_cons] at hl
    rw [List.foldl_cons, ih _ hl.2, List.exists_mem_cons_iff, ← or_assoc]
    have hmax : n ≤ (s.add (BitVec.ofNat 64 b.size)).largestFree.toNat ↔ n ≤ s.largestFree.toNat ∨ n ≤ b.size := by
      unfold Stats.add
      dsimp only
      split
      · rename_i hgt
        rw [gt_iff_lt, BitVec.lt_def, toNat_word hl.1] at hgt
        rw [toNat_word hl.1]
        omega
      · rename_i hle
        rw [gt_iff_lt, BitVec.lt_def, toNat_word hl.1] at hle
        omega
    rw [hmax]

end Holds

/-! ## `heap_init` -/

/-- One free block, if there is room for its header. -/
def initial (a : Arena) : List Block := if a.bytes = 0#64 then [] else [⟨a.base.toNat, a.bytes.toNat - 16, true⟩]

theorem init_spec (a : Arena) (m : Mem) : Holds a.hi (heapInit m a.base a.bytes) a.base.toNat (initial a) := by
  have hw := a.whole
  unfold initial
  by_cases h0 : a.bytes = 0#64
  · rw [if_pos h0]
    refine ⟨?_, a.aligned, by simp, by simp⟩
    rw [Arena.hi, h0]
    rfl
  · have hpos : 16 ≤ a.bytes.toNat := by
      have hne : a.bytes.toNat ≠ 0 := fun hz => h0 (BitVec.eq_of_toNat_eq hz)
      omega
    have hbytes : a.bytes = BitVec.ofNat 64 (a.bytes.toNat - 16 + 16) := by
      rw [Nat.sub_add_cancel hpos, BitVec.ofNat_toNat, BitVec.setWidth_eq]
    have hh := @headerAt_heapInit m a.base.toNat (a.bytes.toNat - 16)
    rw [← hbytes, ← a.base_eq] at hh
    rw [if_neg h0]
    refine ⟨⟨rfl, ?_⟩, a.aligned, ?_, ?_⟩
    · unfold Tiles Block.stop Arena.hi
      dsimp only
      omega
    · intro b hb
      rw [List.mem_singleton.mp hb]
      dsimp only
      omega
    · intro b hb
      rw [List.mem_singleton.mp hb]
      exact hh

end Microkernel.FirstFit

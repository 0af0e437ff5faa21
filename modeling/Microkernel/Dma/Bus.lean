/-
  Microkernel.Dma.Bus — what the DMA code does to memory and to the cache.

  The CPU reaches RAM through a write-back cache, the device only through the alias, past
  the cache. `dma_submit_memcpy` and one turn of the loop of `dma_poll_complete` are here as
  the list of the accesses and maintenance operations that they make, at virtual addresses;
  `Mmu.baseMap` says where these go and whether they are cached. The maintenance of a range
  is the loop of `dc_range_common` (src/arch/aarch64/barrier.cc).

  Accesses to the globals and the log are left out: they reach neither the buffers nor the
  descriptors.

  Proved: in RAM addresses are physical, the device's view of a buffer is not cached,
  maintenance is allowed on cacheable buffers, and the maintenance of a range is one
  operation on each line that has a byte of the range (`exec_range`).
-/

import Microkernel.Dma.Queue
import Microkernel.Lib.Cache
import Microkernel.Mmu.Map

namespace Microkernel.Dma

open Bytes Align Cache Translation
open Mmu (Board Window Policy baseMap)

/-! ## The CPU's view of memory -/

structure Cpu where
  /-- `CTR_EL0.DminLine`. -/
  dminline : Fin 16
  /-- `SCTLR_EL1.M` and `SCTLR_EL1.C`. -/
  mmuOn : Bool
  dcacheOn : Bool

namespace Cpu

/-- `dcache_line_size`. -/
def dcacheLineSize (c : Cpu) : Addr := BitVec.twoPow 64 (c.dminline.val + 2)

/-- The line of a physical address. -/
def line (c : Cpu) (pa : Nat) : Nat := pa / 2 ^ (c.dminline.val + 2)

end Cpu

abbrev Memory := Cached Nat (BitVec 8) Nat

section
variable (c : Cpu) {b : Board} (w : Window b)

/-- The physical address of a virtual one, and whether accesses are cached. -/
def view (va : Addr) : Option (Nat × Bool) :=
  if c.mmuOn then (baseMap w va.toNat).map fun p => (p.pa, c.dcacheOn && decide (p.type = .normalWb)) else some (va.toNat, false)

def loadByte (s : Memory) (va : Addr) : BitVec 8 :=
  match view c w va with
  | some (pa, true) => read c.line s pa
  | some (pa, false) => s.mem pa
  | none => 0#8

def storeByte (s : Memory) (va : Addr) (v : BitVec 8) : Memory :=
  match view c w va with
  | some (pa, true) => write c.line s pa v
  | some (pa, false) => writeMem s pa v
  | none => s

inductive Op where
  | store (va v : Addr)
  | copyByte (dst src : Addr)
  | cvac (va : Addr)
  | ivac (va : Addr)

def exec : Op → Memory → Memory
  | .store va v, s => (List.range 8).foldl (fun s i => storeByte c w s (va + BitVec.ofNat 64 i) (v.extractLsb' (8 * i) 8)) s
  | .copyByte d a, s => storeByte c w s d (loadByte c w s a)
  | .cvac va, s =>
    match view c w va with
    | some (pa, _) => clean c.line s (c.line pa)
    | none => s
  | .ivac va, s =>
    match view c w va with
    | some (pa, _) => drop s (c.line pa)
    | none => s

/-! ## src/arch/aarch64/barrier.cc -/

def alignDown (value alignment : Addr) : Addr := value &&& ~~~(alignment - 1#64)

/-- `for (addr = start; addr < end; addr += line)`, for at most so many turns. -/
def dcLoop (line stop : Addr) : Nat → Addr → List Addr
  | 0, _ => []
  | n + 1, a => if a < stop then a :: dcLoop line stop n (a + line) else []

/-- `dc_range_common`; `align_up` is `Align.roundUp`. -/
def dcRangeCommon (p len : Addr) (op : Addr → Op) : List Op :=
  if len = 0#64 ∨ c.dcacheOn = false then []
  else
    let line := c.dcacheLineSize
    let start := alignDown p line
    let stop := roundUp (p + len) line
    (dcLoop line stop (stop.toNat / line.toNat) start).map op

def dcCvacRange (p len : Addr) : List Op := dcRangeCommon c p len .cvac

def dcIvacRange (p len : Addr) : List Op := dcRangeCommon c p len .ivac

/-! ## src/dma.cc -/

/-- `dma_cache_maint_allowed`. -/
def dmaCacheMaintAllowed (buf len : Addr) : Bool :=
  if buf = 0#64 ∨ len = 0#64 then false
  else
    let stop := buf + (len - 1#64)
    if stop < buf then false
    else if kAliasStart ≤ buf ∧ stop < kAliasEnd then false
    else if ¬ (kNormalStart ≤ buf ∧ stop < kNormalEnd) then false
    else if w.policy = .noncacheable ∧ w.start ≤ stop ∧ buf < w.stop then false
    else true

def dmaPrepareToDevice (buf len : Addr) : List Op := if dmaCacheMaintAllowed w buf len then dcCvacRange c buf len else []

def dmaCompleteFromDevice (buf len : Addr) : List Op := if dmaCacheMaintAllowed w buf len then dcIvacRange c buf len else []

/-- `sizeof(dma_desc)`. -/
def sizeofDesc : Addr := BitVec.ofNat 64 descSize

/-- `dma_submit_memcpy` for the request `r`, whose descriptor is linked behind `prevTail`. -/
def submitOps (r : Req) (prevTail : Addr) : List Op :=
  r.words.map (fun e => .store (r.desc + BitVec.ofNat 64 e.1) e.2) ++ dmaPrepareToDevice c w r.src r.len ++
    dmaPrepareToDevice c w r.desc sizeofDesc ++
    if prevTail = 0#64 then [] else .store (prevTail + BitVec.ofNat 64 offNext) r.desc :: dmaPrepareToDevice c w prevTail sizeofDesc

/-- `dma_memcpy`. -/
def memcpyOps (dst src : Addr) (n : Nat) : List Op :=
  (List.range n).map fun i => .copyByte (dst + BitVec.ofNat 64 i) (src + BitVec.ofNat 64 i)

/-- One turn of the loop of `dma_poll_complete`, up to the callback. -/
def pollOps (r : Req) : List Op :=
  let devDst := deviceView c.mmuOn r.dst r.len
  let devSrc := deviceView c.mmuOn r.src r.len
  .store (r.desc + BitVec.ofNat 64 offNext) 0#64 ::
    (if r.len = 0#64 then []
      else memcpyOps devDst devSrc r.len.toNat ++
        (if devDst = r.dst ∧ dmaCacheMaintAllowed w r.dst r.len = true then dcCvacRange c r.dst r.len else []) ++
        dmaCompleteFromDevice c w r.dst r.len) ++
    .store (r.desc + BitVec.ofNat 64 offStatus) 0#64 :: dmaPrepareToDevice c w r.desc sizeofDesc

end

/-! ## Addresses of RAM -/

variable {c : Cpu} {w : Window .virt}

theorem lineSize_toNat (c : Cpu) : c.dcacheLineSize.toNat = 2 ^ (c.dminline.val + 2) := by
  have hlt := c.dminline.isLt
  unfold Cpu.dcacheLineSize
  rw [BitVec.toNat_twoPow]
  exact Nat.mod_eq_of_lt (Nat.pow_lt_pow_right (by decide) (by omega))

theorem lineSize_le (c : Cpu) : 2 ^ (c.dminline.val + 2) ≤ 2 ^ 17 := by
  have hlt := c.dminline.isLt
  exact Nat.pow_le_pow_right (by decide) (by omega)

/-- RAM starts at a line. -/
theorem lineSize_dvd (c : Cpu) : 2 ^ (c.dminline.val + 2) ∣ 0x40000000 := by
  have hlt := c.dminline.isLt
  have hram : 0x40000000 = 2 ^ 30 := by decide
  rw [hram]
  exact Nat.pow_dvd_pow 2 (by omega)

def InRam (a : Nat) : Prop := 0x40000000 ≤ a ∧ a < 0x80000000

theorem baseMap_ram (w : Window .virt) {a : Nat} (h : InRam a) : baseMap w a = some (Mmu.ramPage w a) := by
  unfold Mmu.baseMap
  dsimp only
  rw [if_neg (by unfold InRam at h; omega), if_pos h.2]

theorem ramPage_pa (w : Window .virt) (a : Nat) : (Mmu.ramPage w a).pa = a := by
  unfold Mmu.ramPage
  split <;> rfl

/-- In RAM addresses are physical. -/
theorem view_ram (hon : c.mmuOn = true) (va : Addr) (h : InRam va.toNat) : ∃ b, view c w va = some (va.toNat, b) := by
  unfold view
  rw [if_pos hon, baseMap_ram w h]
  exact ⟨_, by rw [Option.map_some, ramPage_pa]⟩

theorem devicePage_type (pa : Nat) : (Mmu.devicePage pa).type ≠ .normalWb := fun h => by cases h

theorem aliasPage_type (pa : Nat) : (Mmu.aliasPage pa).type ≠ .normalWb := fun h => by cases h

/-- The alias of RAM is never cached. -/
theorem view_alias (hon : c.mmuOn = true) (va : Addr) (h : 0x80000000 ≤ va.toNat ∧ va.toNat < 0xC0000000) :
    view c w va = some (va.toNat - 0x40000000, false) := by
  unfold view Mmu.baseMap
  dsimp only
  rw [if_pos hon, if_neg (by omega), if_neg (by omega), if_pos h.2, Option.map_some]
  rw [decide_eq_false (aliasPage_type _), Bool.and_false]
  rfl

/-- A buffer in RAM, mapped Normal write-back. -/
def Cacheable (w : Window .virt) (p len : Addr) : Prop :=
  ∀ i < len.toNat, ∃ pg, baseMap w (p.toNat + i) = some pg ∧ pg.type = .normalWb

/-- Only RAM is mapped so, and of the window only under its policy. -/
theorem normalWb_ram {a : Nat} {pg : Page} (h : baseMap w a = some pg) (ht : pg.type = .normalWb) :
    InRam a ∧ (w.policy = .noncacheable → ¬ w.Inside a) := by
  unfold Mmu.baseMap at h
  dsimp only at h
  by_cases h1 : a < 0x40000000
  · rw [if_pos h1] at h
    exact absurd (Option.some.inj h ▸ ht) (devicePage_type a)
  rw [if_neg h1] at h
  by_cases h2 : a < 0x80000000
  · rw [if_pos h2] at h
    refine ⟨⟨Nat.le_of_not_lt h1, h2⟩, fun hnc hin => ?_⟩
    rw [← Option.some.inj h] at ht
    unfold Mmu.ramPage at ht
    rw [if_pos hin, if_pos hnc] at ht
    cases ht
  rw [if_neg h2] at h
  by_cases h3 : a < 0xC0000000
  · rw [if_pos h3] at h
    exact absurd (Option.some.inj h ▸ ht) (aliasPage_type _)
  · rw [if_neg h3] at h
    cases h

theorem Cacheable.ram {p len : Addr} (h : Cacheable w p len) {i : Nat} (hi : i < len.toNat) : InRam (p.toNat + i) := by
  obtain ⟨pg, hb, ht⟩ := h i hi
  exact (normalWb_ram hb ht).1

/-- The first and the last byte. -/
theorem Cacheable.range {p len : Addr} (h : Cacheable w p len) (hlen : len ≠ 0#64) :
    0x40000000 ≤ p.toNat ∧ 0 < len.toNat ∧ p.toNat + len.toNat ≤ 0x80000000 := by
  have hpos : 0 < len.toNat := BitVec.toNat_pos_of_ne_zero hlen
  have hfirst := h.ram (i := 0) hpos
  have hlast := h.ram (i := len.toNat - 1) (by omega)
  unfold InRam at hfirst hlast
  omega

/-- Under the CACHEABLE policy that is every buffer in RAM. -/
theorem cacheable_ram (hp : w.policy = .cacheable) {p len : Addr} (hlo : 0x40000000 ≤ p.toNat) (hhi : p.toNat + len.toNat ≤ 0x80000000) :
    Cacheable w p len := by
  intro i hi
  refine ⟨_, baseMap_ram w (by unfold InRam; omega), ?_⟩
  unfold Mmu.ramPage
  rw [hp]
  split <;> rfl

/-- `p + i` in a buffer of RAM. -/
theorem add_toNat {p : Addr} {i n : Nat} (hi : i < n) (hp : p.toNat + n ≤ 0xC0000000) : (p + BitVec.ofNat 64 i).toNat = p.toNat + i := by
  rw [BitVec.toNat_add, BitVec.toNat_ofNat]
  omega

/-- The device sees a buffer of RAM through the alias. -/
theorem deviceView_ram {p len : Addr} (hp : 0x40000000 ≤ p.toNat) (hpos : 0 < len.toNat) (hend : p.toNat + len.toNat ≤ 0x80000000) :
    deviceView true p len = p + kAliasOffset ∧ (p + kAliasOffset).toNat = p.toNat + 0x40000000 := by
  have hlast : (p + (len - 1#64)).toNat = p.toNat + len.toNat - 1 := by bv_omega
  have halias : (p + kAliasOffset).toNat = p.toNat + 0x40000000 := by
    unfold kAliasOffset
    bv_omega
  refine ⟨?_, halias⟩
  unfold deviceView
  rw [if_neg ?_, Bool.not_true, if_neg Bool.false_ne_true]
  · dsimp only
    unfold kAliasStart kAliasEnd kNormalStart kNormalEnd
    simp only [BitVec.le_def, BitVec.lt_def, hlast, BitVec.toNat_ofNat]
    rw [if_neg (by omega), if_neg (by omega), if_pos (by omega)]
  · rintro (hz | hz)
    · rw [hz] at hp
      simp at hp
    · rw [hz] at hpos
      simp at hpos

/-- Maintenance is allowed on cacheable buffers. -/
theorem maintAllowed {p len : Addr} (h : Cacheable w p len) (hlen : len ≠ 0#64) : dmaCacheMaintAllowed w p len = true := by
  obtain ⟨hp, hpos, hend⟩ := h.range hlen
  have hlast : (p + (len - 1#64)).toNat = p.toNat + len.toNat - 1 := by bv_omega
  have hstop := Mmu.stop_toNat w
  have hpz : p ≠ 0#64 := by
    rintro rfl
    simp at hp
  have hwin : ¬ (w.policy = .noncacheable ∧ w.start ≤ p + (len - 1#64) ∧ p < w.stop) := by
    rintro ⟨hnc, hlo, hhi⟩
    rw [BitVec.le_def, hlast] at hlo
    rw [BitVec.lt_def, hstop] at hhi
    -- some byte of the buffer would lie in the window
    obtain ⟨i, hi, hin⟩ : ∃ i < len.toNat, w.Inside (p.toNat + i) := by
      unfold Window.Inside
      by_cases hle : w.start.toNat ≤ p.toNat
      · exact ⟨0, hpos, by omega, by omega⟩
      · exact ⟨w.start.toNat - p.toNat, by omega, by omega, by omega⟩
    obtain ⟨pg, hb, ht⟩ := h i hi
    exact (normalWb_ram hb ht).2 hnc hin
  unfold dmaCacheMaintAllowed
  rw [if_neg fun hz => hz.elim hpz hlen]
  dsimp only
  rw [if_neg hwin]
  unfold kAliasStart kAliasEnd kNormalStart kNormalEnd
  simp only [BitVec.le_def, BitVec.lt_def, hlast, BitVec.toNat_ofNat]
  rw [if_neg (by omega), if_neg (by omega), if_neg (by omega)]

/-! ## Ranges of lines -/

/-- The loop visits the multiples of the line size from `a` up to `stop`. -/
theorem mem_dcLoop {line stop : Addr} {n k e : Nat} {a x : Addr} (hl : 0 < line.toNat) (hs : stop.toNat = line.toNat * e)
    (hlt : stop.toNat + line.toNat < 2 ^ 64) (ha : a.toNat = line.toNat * k) (hn : e ≤ k + n) :
    x ∈ dcLoop line stop n a ↔ ∃ j, k ≤ j ∧ j < e ∧ x.toNat = line.toNat * j := by
  induction n generalizing k a with
  | zero =>
    simp only [dcLoop, List.not_mem_nil, false_iff]
    rintro ⟨j, hk, hj, -⟩
    omega
  | succ n ih =>
    have hiff : a < stop ↔ k < e := by
      rw [BitVec.lt_def, hs, ha]
      exact Nat.mul_lt_mul_left hl
    unfold dcLoop
    by_cases hk : k < e
    · have hnext : (a + line).toNat = line.toNat * (k + 1) := by
        have hle := Nat.mul_le_mul_left line.toNat hk.le
        rw [BitVec.toNat_add, ha, Nat.mul_succ]
        omega
      rw [if_pos (hiff.mpr hk), List.mem_cons, ih hnext (by omega)]
      constructor
      · rintro (rfl | ⟨j, hj, hje, hx⟩)
        · exact ⟨k, le_refl _, hk, ha⟩
        · exact ⟨j, by omega, hje, hx⟩
      · rintro ⟨j, hj, hje, hx⟩
        by_cases hjk : j = k
        · rw [hjk] at hx
          exact Or.inl (BitVec.eq_of_toNat_eq (hx.trans ha.symm))
        · exact Or.inr ⟨j, by omega, hje, hx⟩
    · rw [if_neg fun h => hk (hiff.mp h)]
      simp only [List.not_mem_nil, false_iff]
      rintro ⟨j, hj, hje, -⟩
      omega

/-- The addresses that `dc_range_common` visits for a range of RAM: one in each line of it. -/
theorem mem_dcRange (c : Cpu) {p len x : Addr} (hpos : 0 < len.toNat) (hend : p.toNat + len.toNat ≤ 0x80000000) :
    x ∈ dcLoop c.dcacheLineSize (roundUp (p + len) c.dcacheLineSize)
        ((roundUp (p + len) c.dcacheLineSize).toNat / c.dcacheLineSize.toNat) (alignDown p c.dcacheLineSize) ↔
      c.dcacheLineSize.toNat ∣ x.toNat ∧ ∃ i < len.toNat, c.line x.toNat = c.line (p.toNat + i) := by
  have hlt := c.dminline.isLt
  have hl := lineSize_toNat c
  have hle := lineSize_le c
  have hsum : (p + len).toNat = p.toNat + len.toNat := by bv_omega
  have hk : c.dminline.val + 2 < 64 := by omega
  unfold Cpu.line
  unfold Cpu.dcacheLineSize at hl ⊢
  generalize c.dminline.val + 2 = k at hl hle hk ⊢
  have hp2 : 0 < 2 ^ k := Nat.two_pow_pos k
  have hstart : (alignDown p (BitVec.twoPow 64 k)).toNat = 2 ^ k * (p.toNat / 2 ^ k) := by
    unfold alignDown
    rw [toNat_and_not_mask hk, Nat.mul_comm]
  have hup := le_ceilTo hp2 (p.toNat + len.toNat)
  have hup' := ceilTo_lt hp2 (p.toNat + len.toNat)
  have hstop : (roundUp (p + len) (BitVec.twoPow 64 k)).toNat = ceilTo (2 ^ k) (p.toNat + len.toNat) := by
    rw [toNat_roundUp hk, hsum, if_pos (by omega)]
  obtain ⟨e, he⟩ := dvd_ceilTo (2 ^ k) (p.toNat + len.toNat)
  rw [he] at hstop hup hup'
  rw [mem_dcLoop (by omega) (hl ▸ hstop) (by omega) (hl ▸ hstart) ?_, hl]
  · constructor
    · rintro ⟨j, hj, hje, hx⟩
      refine ⟨⟨j, hx⟩, ?_⟩
      have hxj : x.toNat / 2 ^ k = j := by rw [hx, Nat.mul_div_cancel_left _ hp2]
      rw [hxj]
      -- the line's first byte in the range
      by_cases hfirst : 2 ^ k * j ≤ p.toNat
      · refine ⟨0, hpos, ?_⟩
        have hjle : j ≤ p.toNat / 2 ^ k := (Nat.le_div_iff_mul_le hp2).mpr (by rw [Nat.mul_comm]; exact hfirst)
        rw [Nat.add_zero]
        exact le_antisymm hjle hj
      · refine ⟨2 ^ k * j - p.toNat, ?_, ?_⟩
        · have hmul := Nat.mul_le_mul_left (2 ^ k) (Nat.succ_le_of_lt hje)
          rw [Nat.mul_succ] at hmul
          omega
        · rw [show p.toNat + (2 ^ k * j - p.toNat) = 2 ^ k * j by omega, Nat.mul_div_cancel_left _ hp2]
    · rintro ⟨⟨j, hx⟩, i, hi, hline⟩
      have hxj : x.toNat / 2 ^ k = j := by rw [hx, Nat.mul_div_cancel_left _ hp2]
      rw [hxj] at hline
      refine ⟨j, ?_, ?_, hx⟩
      · rw [hline]
        exact Nat.div_le_div_right (by omega)
      · rw [hline]
        exact (Nat.div_lt_iff_lt_mul hp2).mpr (by rw [Nat.mul_comm]; omega)
  · rw [hstop, hl, Nat.mul_div_cancel_left _ hp2]
    exact Nat.le_add_left _ _

/-- The lines of a range of RAM. -/
def HasLine (c : Cpu) (p len : Addr) (k : Nat) : Prop := ∃ i < len.toNat, k = c.line (p.toNat + i)

/-- What each byte of a store keeps, the store keeps. -/
theorem exec_store_keeps {p : Memory → Prop} {va v : Addr} (h : ∀ i < 8, ∀ s x, p s → p (storeByte c w s (va + BitVec.ofNat 64 i) x))
    (s : Memory) (hs : p s) : p (exec c w (.store va v) s) := by
  have hall : ∀ l : List Nat, (∀ i ∈ l, i < 8) → ∀ s, p s →
      p (l.foldl (fun s i => storeByte c w s (va + BitVec.ofNat 64 i) (v.extractLsb' (8 * i) 8)) s) := by
    intro l
    induction l with
    | nil => exact fun _ s hs => hs
    | cons i l ih =>
      intro hl s hs
      exact ih (fun j hj => hl j (List.mem_cons_of_mem i hj)) _ (h i (hl i List.mem_cons_self) s _ hs)
  exact hall (List.range 8) (fun i hi => List.mem_range.mp hi) s hs

/-- A byte of a field of a descriptor in RAM. -/
theorem view_field (hon : c.mmuOn = true) {d : Addr} (hlo : 0x40000000 ≤ d.toNat) (hhi : d.toNat + descSize ≤ 0x80000000) {o i : Nat}
    (ho : o + 8 ≤ descSize) (hi : i < 8) :
    ∃ b, view c w (d + BitVec.ofNat 64 o + BitVec.ofNat 64 i) = some (d.toNat + (o + i), b) := by
  have hnat : (d + BitVec.ofNat 64 o + BitVec.ofNat 64 i).toNat = d.toNat + (o + i) := by
    rw [BitVec.add_assoc, ← BitVec.ofNat_add]
    exact add_toNat (n := descSize) (by omega) (by omega)
  obtain ⟨b, hv⟩ := view_ram (w := w) hon (d + BitVec.ofNat 64 o + BitVec.ofNat 64 i) (by unfold InRam; unfold descSize at *; omega)
  exact ⟨b, by rw [hv, hnat]⟩

theorem exec_cvac {va : Addr} {pa : Nat} {b : Bool} (hv : view c w va = some (pa, b)) (s : Memory) :
    exec c w (.cvac va) s = clean c.line s (c.line pa) := by simp only [exec, hv]

theorem exec_ivac {va : Addr} {pa : Nat} {b : Bool} (hv : view c w va = some (pa, b)) (s : Memory) :
    exec c w (.ivac va) s = drop s (c.line pa) := by simp only [exec, hv]

/-- Maintenance of a range of RAM: the same operation on each of its lines. -/
theorem exec_range (hon : c.mmuOn = true) (hdc : c.dcacheOn = true) {p len : Addr} (hlo : 0x40000000 ≤ p.toNat)
    (hpos : 0 < len.toNat) (hend : p.toNat + len.toNat ≤ 0x80000000) {op : Addr → Op} {f : Memory → Nat → Memory}
    (hop : ∀ va pa b, view c w va = some (pa, b) → ∀ s, exec c w (op va) s = f s (c.line pa)) :
    ∃ ks : List Nat, (dcRangeCommon c p len op).map (exec c w) = ks.map (fun k s => f s k) ∧ ∀ k, k ∈ ks ↔ HasLine c p len k := by
  have hlen : ¬ (len = 0#64 ∨ c.dcacheOn = false) := by
    rintro (h | h)
    · rw [h] at hpos
      simp at hpos
    · rw [hdc] at h
      cases h
  have hmem := fun x => mem_dcRange c (x := x) hpos hend
  have hl := lineSize_toNat c
  have hp2 : 0 < 2 ^ (c.dminline.val + 2) := Nat.two_pow_pos _
  obtain ⟨u, hu⟩ := lineSize_dvd c
  unfold dcRangeCommon
  rw [if_neg hlen]
  dsimp only
  generalize dcLoop _ _ _ _ = xs at hmem ⊢
  -- every address visited is in RAM
  have hram : ∀ x ∈ xs, InRam x.toNat := by
    intro x hx
    obtain ⟨⟨j, hj⟩, i, hi, hline⟩ := (hmem x).mp hx
    rw [hl] at hj
    unfold Cpu.line at hline
    rw [hj, Nat.mul_div_cancel_left _ hp2] at hline
    unfold InRam
    rw [hj, hline]
    constructor
    · rw [hu]
      refine Nat.mul_le_mul_left _ ((Nat.le_div_iff_mul_le hp2).mpr ?_)
      rw [Nat.mul_comm, ← hu]
      omega
    · have hdiv := Nat.mul_div_le (p.toNat + i) (2 ^ (c.dminline.val + 2))
      omega
  refine ⟨xs.map fun x => c.line x.toNat, ?_, fun k => ?_⟩
  · rw [List.map_map, List.map_map]
    refine List.map_congr_left fun x hx => ?_
    obtain ⟨b, hb⟩ := view_ram (w := w) hon x (hram x hx)
    funext s
    exact hop x _ b hb s
  · rw [List.mem_map]
    constructor
    · rintro ⟨x, hx, rfl⟩
      exact ((hmem x).mp hx).2
    · rintro ⟨i, hi, rfl⟩
      refine ⟨BitVec.ofNat 64 (2 ^ (c.dminline.val + 2) * c.line (p.toNat + i)), ?_⟩
      have hdiv := Nat.mul_div_le (p.toNat + i) (2 ^ (c.dminline.val + 2))
      have hnat : (BitVec.ofNat 64 (2 ^ (c.dminline.val + 2) * c.line (p.toNat + i))).toNat =
          2 ^ (c.dminline.val + 2) * c.line (p.toNat + i) := by
        rw [BitVec.toNat_ofNat]
        unfold Cpu.line
        omega
      have hsame : c.line (2 ^ (c.dminline.val + 2) * c.line (p.toNat + i)) = c.line (p.toNat + i) := by
        conv_lhs => unfold Cpu.line
        rw [Nat.mul_div_cancel_left _ hp2]
        rfl
      rw [hmem, hnat, hl, hsame]
      exact ⟨⟨Nat.dvd_mul_right _ _, i, hi, rfl⟩, rfl⟩

/-! ## A cacheable buffer -/

/-- The device reads and writes it in memory. -/
theorem view_device (hon : c.mmuOn = true) {p len : Addr} (hlo : 0x40000000 ≤ p.toNat) (hpos : 0 < len.toNat)
    (hend : p.toNat + len.toNat ≤ 0x80000000) {i : Nat} (hi : i < len.toNat) :
    view c w (deviceView true p len + BitVec.ofNat 64 i) = some (p.toNat + i, false) := by
  obtain ⟨hview, hbase⟩ := deviceView_ram hlo hpos hend
  have haddr : (deviceView true p len + BitVec.ofNat 64 i).toNat = p.toNat + 0x40000000 + i := by
    rw [hview, add_toNat hi (by omega), hbase]
  have hsub : p.toNat + 0x40000000 + i - 0x40000000 = p.toNat + i := by omega
  rw [view_alias hon _ (by omega), haddr, hsub]

/-- `dma_poll_complete` does not take its fallback to the CPU's own view. -/
theorem Cacheable.not_fallback {p len : Addr} (h : Cacheable w p len) (hlen : len ≠ 0#64) :
    ¬ (deviceView true p len = p ∧ dmaCacheMaintAllowed w p len = true) := by
  obtain ⟨hlo, hpos, hend⟩ := h.range hlen
  obtain ⟨hview, hbase⟩ := deviceView_ram hlo hpos hend
  rintro ⟨hsame, -⟩
  rw [hview] at hsame
  rw [hsame] at hbase
  omega

theorem Cacheable.prepare {p len : Addr} (h : Cacheable w p len) (hlen : len ≠ 0#64) (hon : c.mmuOn = true) (hdc : c.dcacheOn = true) :
    ∃ ks, (dmaPrepareToDevice c w p len).map (exec c w) = cleanAll c.line ks ∧ ∀ k, k ∈ ks ↔ HasLine c p len k := by
  obtain ⟨hlo, hpos, hend⟩ := h.range hlen
  unfold dmaPrepareToDevice
  rw [if_pos (maintAllowed h hlen)]
  exact exec_range hon hdc hlo hpos hend fun _ _ _ hv => exec_cvac hv

theorem Cacheable.complete {p len : Addr} (h : Cacheable w p len) (hlen : len ≠ 0#64) (hon : c.mmuOn = true) (hdc : c.dcacheOn = true) :
    ∃ ks, (dmaCompleteFromDevice c w p len).map (exec c w) = dropAll ks ∧ ∀ k, k ∈ ks ↔ HasLine c p len k := by
  obtain ⟨hlo, hpos, hend⟩ := h.range hlen
  unfold dmaCompleteFromDevice
  rw [if_pos (maintAllowed h hlen)]
  exact exec_range hon hdc hlo hpos hend fun _ _ _ hv => exec_ivac hv

end Microkernel.Dma

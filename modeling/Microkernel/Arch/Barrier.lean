/-
  Microkernel.Arch.Barrier — `dc_range_common` of src/arch/aarch64/barrier.cc with the
  system registers it reads, its barriers, and a loop that may not come to its end.

  The line size is 4 << CTR_EL0.DminLine. The loop goes from the range's start, rounded
  down to a line, to its end, rounded up, one line a turn; the rounding and the turn are
  modulo 2^64.

  Proved (`range_exact`): if the end of the range and one more line are addresses, the loop
  ends, and operates on each line that meets the range, once, from the lowest up, and on no
  other. `Microkernel.Dma.Bus`'s maintenance is the same list (`dma_range`).
-/

import Microkernel.Dma.Bus

namespace Microkernel.Arch

open Align Bytes

/-! ## src/arch/aarch64/barrier.cc -/

structure SysRegs where
  ctrEl0 : BitVec 64
  sctlrEl1 : BitVec 64

/-- What `dc_range_common` issues. -/
inductive Issued where
  | dmbIsh
  | op (addr : Addr)
  | dsbIsh
  deriving DecidableEq

def alignDown (value alignment : Addr) : Addr := value &&& ~~~(alignment - 1#64)

/-- `align_up`. -/
abbrev alignUp (value alignment : Addr) : Addr := roundUp value alignment

def dcacheEnabled (r : SysRegs) : Bool := r.sctlrEl1 &&& (1#32 <<< 2).setWidth 64 ≠ 0#64

/-- `(ctr >> 16) & 0xF`. -/
def dminline (r : SysRegs) : BitVec 64 := (r.ctrEl0 >>> 16) &&& 0xF#64

def dcacheLineSize (r : SysRegs) : Addr :=
  let lineSize : Addr := (4#32 <<< dminline r).setWidth 64
  if lineSize = 0#64 then 64#64 else lineSize

/-- `for (addr = start; addr < end; addr += line) op(addr)`; `none` when the turns are used up. -/
def rangeLoop (line stop : Addr) : Nat → Addr → Option (List Addr)
  | 0, _ => none
  | fuel + 1, addr => if addr < stop then (rangeLoop line stop fuel (addr + line)).map (addr :: ·) else some []

def dcRangeCommon (r : SysRegs) (fuel : Nat) (p len : Addr) : Option (List Issued) :=
  if len = 0#64 ∨ dcacheEnabled r = false then some [.dmbIsh, .dsbIsh]
  else
    let line := dcacheLineSize r
    let line := if line = 0#64 then 64#64 else line
    let start := alignDown p line
    let stop := alignUp (p + len) line
    (rangeLoop line stop fuel start).map fun as => .dmbIsh :: as.map .op ++ [.dsbIsh]

/-! ## The line size -/

theorem dminline_lt (r : SysRegs) : (dminline r).toNat < 16 := by
  have h : (dminline r).toNat ≤ (0xF#64).toNat := by
    rw [dminline, BitVec.toNat_and]
    exact Nat.and_le_right
  exact Nat.lt_succ_of_le h

/-- The two tests for 0 never hold. -/
theorem dcacheLineSize_eq (r : SysRegs) : dcacheLineSize r = BitVec.twoPow 64 ((dminline r).toNat + 2) := by
  have hlt := dminline_lt r
  have hword : ((4#32 <<< dminline r).setWidth 64 : Addr) = BitVec.twoPow 64 ((dminline r).toNat + 2) := by
    rw [BitVec.shiftLeft_eq']
    generalize (dminline r).toNat = d at hlt
    interval_cases d <;> rfl
  have hne : BitVec.twoPow 64 ((dminline r).toNat + 2) ≠ 0#64 := by
    generalize (dminline r).toNat = d at hlt
    interval_cases d <;> decide
  unfold dcacheLineSize
  rw [hword]
  exact if_neg hne

theorem lineSize_pow (r : SysRegs) : (dcacheLineSize r).toNat = 4 <<< (dminline r).toNat := by
  have hlt := dminline_lt r
  rw [dcacheLineSize_eq]
  generalize (dminline r).toNat = d at hlt
  interval_cases d <;> rfl

theorem lineSize_pos (r : SysRegs) : 0 < (dcacheLineSize r).toNat := by
  rw [lineSize_pow, Nat.shiftLeft_eq]
  exact Nat.mul_pos (by decide) (Nat.two_pow_pos _)

/-! ## The loop -/

/-- `n` lines from line `k` up. -/
def linesFrom (line k n : Nat) : List Addr := (List.range' k n).map fun j => BitVec.ofNat 64 (line * j)

theorem rangeLoop_lines {line stop a : Addr} {k n fuel : Nat} (hl : 0 < line.toNat) (ha : a.toNat = line.toNat * k)
    (hs : stop.toNat = line.toNat * (k + n)) (hf : n < fuel) : rangeLoop line stop fuel a = some (linesFrom line.toNat k n) := by
  have hword := stop.isLt
  induction n generalizing a k fuel with
  | zero =>
    have hge : ¬ a < stop := by
      rw [BitVec.lt_def, ha, hs, Nat.add_zero]
      exact lt_irrefl _
    cases fuel with
    | zero => omega
    | succ fuel => simp [rangeLoop, hge, linesFrom]
  | succ n ih =>
    have hnext : line.toNat * k + line.toNat ≤ stop.toNat := by
      rw [hs, ← Nat.mul_succ]
      exact Nat.mul_le_mul_left _ (by omega)
    have hless : a < stop := by
      rw [BitVec.lt_def, ha]
      omega
    have hadd : (a + line).toNat = line.toNat * (k + 1) := by
      rw [BitVec.toNat_add, ha, Nat.mul_succ]
      exact Nat.mod_eq_of_lt (by omega)
    have hfirst : a = BitVec.ofNat 64 (line.toNat * k) := by
      rw [← ha, BitVec.ofNat_toNat, BitVec.setWidth_eq]
    cases fuel with
    | zero => omega
    | succ fuel =>
      rw [rangeLoop, if_pos hless, ih hadd (by rw [hs, Nat.add_right_comm, Nat.add_assoc]) (by omega)]
      simp [linesFrom, List.range'_succ, hfirst]

theorem mem_linesFrom {line k n : Nat} {a : Addr} (h : line * (k + n) < 2 ^ 64) :
    a ∈ linesFrom line k n ↔ ∃ j, k ≤ j ∧ j < k + n ∧ a.toNat = line * j := by
  simp only [linesFrom, List.mem_map, List.mem_range'_1]
  constructor
  · intro ha
    obtain ⟨j, ⟨hk, hj⟩, rfl⟩ := ha
    have hle := Nat.mul_le_mul_left line hj.le
    exact ⟨j, hk, hj, by rw [BitVec.toNat_ofNat, Nat.mod_eq_of_lt (by omega)]⟩
  · intro ha
    obtain ⟨j, hk, hj, ha⟩ := ha
    exact ⟨j, ⟨hk, hj⟩, by rw [← ha, BitVec.ofNat_toNat, BitVec.setWidth_eq]⟩

theorem linesFrom_sorted {line k n : Nat} (hl : 0 < line) (h : line * (k + n) < 2 ^ 64) : (linesFrom line k n).Pairwise (· < ·) := by
  rw [linesFrom, List.pairwise_map]
  refine List.Pairwise.imp_of_mem ?_ List.pairwise_lt_range'
  intro i j hi hj hij
  have hj := (List.mem_range'_1.mp hj).2
  have hmul := (Nat.mul_lt_mul_left hl).mpr hij
  have hle := Nat.mul_le_mul_left line hj.le
  rw [BitVec.lt_def, BitVec.toNat_ofNat, BitVec.toNat_ofNat, Nat.mod_eq_of_lt (by omega), Nat.mod_eq_of_lt (by omega)]
  exact hmul

/-! ## The range -/

/-- The first line of a range and the number of lines up to its end: those are the lines
    that meet it. -/
theorem range_lines {s : Nat} (hs : s < 64) {p len : Addr} (hfit : p.toNat + len.toNat + 2 ^ s ≤ 2 ^ 64) :
    ∃ k n, (alignDown p (BitVec.twoPow 64 s)).toNat = 2 ^ s * k ∧ (alignUp (p + len) (BitVec.twoPow 64 s)).toNat = 2 ^ s * (k + n) ∧
      ∀ j, k ≤ j ∧ j < k + n ↔ p.toNat < 2 ^ s * j + 2 ^ s ∧ 2 ^ s * j < p.toNat + len.toNat := by
  have hpos := Nat.two_pow_pos s
  have hsum : (p + len).toNat = p.toNat + len.toNat := by
    rw [BitVec.toNat_add]
    exact Nat.mod_eq_of_lt (by omega)
  have hle := le_ceilTo hpos (p.toNat + len.toNat)
  have hlt := ceilTo_lt hpos (p.toNat + len.toNat)
  have hstart : (alignDown p (BitVec.twoPow 64 s)).toNat = 2 ^ s * (p.toNat / 2 ^ s) := by
    rw [alignDown, toNat_and_not_mask hs, Nat.mul_comm]
  have hstop : (alignUp (p + len) (BitVec.twoPow 64 s)).toNat = ceilTo (2 ^ s) (p.toNat + len.toNat) := by
    rw [toNat_roundUp hs, hsum, if_pos (by omega)]
  obtain ⟨e, he⟩ := dvd_ceilTo (2 ^ s) (p.toNat + len.toNat)
  rw [he] at hstop hle hlt
  -- the range does not end below its first line
  have hke : p.toNat / 2 ^ s ≤ e := by
    have hdiv := Nat.div_mul_le_self p.toNat (2 ^ s)
    apply Nat.le_of_mul_le_mul_left _ hpos
    rw [Nat.mul_comm]
    omega
  refine ⟨p.toNat / 2 ^ s, e - p.toNat / 2 ^ s, hstart, ?_, fun j => and_congr ?_ ?_⟩
  · rw [Nat.add_sub_cancel' hke, hstop]
  · rw [← Nat.lt_succ_iff, Nat.div_lt_iff_lt_mul hpos, Nat.mul_comm, Nat.mul_succ]
  · rw [Nat.add_sub_cancel' hke]
    constructor
    · intro hj
      have hmul := Nat.mul_le_mul_left (2 ^ s) (Nat.succ_le_of_lt hj)
      rw [Nat.mul_succ] at hmul
      omega
    · intro hj
      exact Nat.lt_of_mul_lt_mul_left (lt_of_lt_of_le hj hle)

/-- The loop of a range goes through those lines. -/
theorem range_loop (r : SysRegs) {p len : Addr} (hfit : p.toNat + len.toNat + (dcacheLineSize r).toNat ≤ 2 ^ 64) :
    ∃ k n, (alignUp (p + len) (dcacheLineSize r)).toNat = (dcacheLineSize r).toNat * (k + n) ∧
      (∀ fuel, n < fuel → rangeLoop (dcacheLineSize r) (alignUp (p + len) (dcacheLineSize r)) fuel (alignDown p (dcacheLineSize r)) =
        some (linesFrom (dcacheLineSize r).toNat k n)) ∧
      ∀ j, k ≤ j ∧ j < k + n ↔ p.toNat < (dcacheLineSize r).toNat * j + (dcacheLineSize r).toNat ∧
        (dcacheLineSize r).toNat * j < p.toNat + len.toNat := by
  have hs : (dminline r).toNat + 2 < 64 := by
    have hlt := dminline_lt r
    omega
  have hnat : (dcacheLineSize r).toNat = 2 ^ ((dminline r).toNat + 2) := by
    rw [dcacheLineSize_eq, BitVec.toNat_twoPow]
    exact Nat.mod_eq_of_lt (Nat.pow_lt_pow_right (by decide) hs)
  have hpos := Nat.two_pow_pos ((dminline r).toNat + 2)
  rw [hnat] at hfit
  obtain ⟨k, n, hstart, hstop, hlines⟩ := range_lines hs hfit
  rw [← dcacheLineSize_eq, ← hnat] at hstart hstop
  rw [← hnat] at hlines hpos
  exact ⟨k, n, hstop, fun fuel hf => rangeLoop_lines hpos hstart hstop hf, hlines⟩

theorem dcRangeCommon_on (r : SysRegs) {p len : Addr} (hlen : 0 < len.toNat) (hon : dcacheEnabled r = true) (fuel : Nat) :
    dcRangeCommon r fuel p len =
      (rangeLoop (dcacheLineSize r) (alignUp (p + len) (dcacheLineSize r)) fuel (alignDown p (dcacheLineSize r))).map
        fun as => .dmbIsh :: as.map .op ++ [.dsbIsh] := by
  have hargs : ¬ (len = 0#64 ∨ dcacheEnabled r = false) := by
    rintro (h0 | h0)
    · rw [h0] at hlen
      exact absurd hlen (by decide)
    · rw [hon] at h0
      cases h0
  have hline : dcacheLineSize r ≠ 0#64 := by
    intro h0
    have hpos := lineSize_pos r
    rw [h0] at hpos
    exact absurd hpos (by decide)
  simp only [dcRangeCommon, if_neg hargs, if_neg hline]

/-- With the cache on, for a range that is not empty: the lines that meet it, each once, from
    the lowest up, between the two barriers. -/
theorem range_exact (r : SysRegs) {p len : Addr} (hlen : 0 < len.toNat) (hon : dcacheEnabled r = true)
    (hfit : p.toNat + len.toNat + (4 <<< (dminline r).toNat) ≤ 2 ^ 64) :
    ∃ as : List Addr, (∀ fuel, as.length < fuel → dcRangeCommon r fuel p len = some (.dmbIsh :: as.map .op ++ [.dsbIsh])) ∧
      as.Pairwise (· < ·) ∧
      ∀ a : Addr, a ∈ as ↔ (4 <<< (dminline r).toNat) ∣ a.toNat ∧
        ∃ x, (a.toNat ≤ x ∧ x < a.toNat + (4 <<< (dminline r).toNat)) ∧ p.toNat ≤ x ∧ x < p.toNat + len.toNat := by
  rw [← lineSize_pow] at hfit ⊢
  have hpos := lineSize_pos r
  obtain ⟨k, n, hstop, hloop, hlines⟩ := range_loop r hfit
  have hend : (dcacheLineSize r).toNat * (k + n) < 2 ^ 64 := hstop ▸ BitVec.isLt _
  refine ⟨linesFrom (dcacheLineSize r).toNat k n, ?_, linesFrom_sorted hpos hend, ?_⟩
  · intro fuel hf
    rw [dcRangeCommon_on r hlen hon, hloop fuel (by simpa [linesFrom] using hf)]
    rfl
  · intro a
    rw [mem_linesFrom hend]
    constructor
    · intro ha
      obtain ⟨j, hk, hj, ha⟩ := ha
      obtain ⟨hlo, hhi⟩ := (hlines j).mp ⟨hk, hj⟩
      exact ⟨⟨j, ha⟩, max a.toNat p.toNat, by omega, by omega⟩
    · intro ha
      obtain ⟨⟨j, ha⟩, x, hx, hp⟩ := ha
      obtain ⟨hk, hj⟩ := (hlines j).mpr (by omega)
      exact ⟨j, hk, hj, ha⟩

/-- 100 bytes from 0x1030, with lines of 64 bytes: the lines at 0x1000, 0x1040 and 0x1080. -/
theorem range_exact_three_lines :
    ∃ as : List Addr, dcRangeCommon ⟨0x40000#64, 4#64⟩ (as.length + 1) 0x1030#64 100#64 = some (.dmbIsh :: as.map .op ++ [.dsbIsh]) ∧
      0x1000#64 ∈ as ∧ 0x1080#64 ∈ as ∧ 0xfc0#64 ∉ as ∧ 0x10c0#64 ∉ as := by
  obtain ⟨as, hrun, -, hmem⟩ := range_exact ⟨0x40000#64, 4#64⟩ (show 0 < (100#64).toNat by decide) (by decide)
    (show (0x1030#64).toNat + (100#64).toNat + _ ≤ 2 ^ 64 by decide)
  have hpow : 4 <<< (dminline ⟨0x40000#64, 4#64⟩).toNat = 64 := by decide
  rw [hpow] at hmem
  refine ⟨as, hrun _ (Nat.lt_succ_self _), ?_, ?_, ?_, ?_⟩
  · rw [hmem]
    exact ⟨by decide, 0x1030, by decide⟩
  · rw [hmem]
    exact ⟨by decide, 0x1080, by decide⟩
  · rw [hmem]
    rintro ⟨-, x, hx⟩
    simp at hx
    omega
  · rw [hmem]
    rintro ⟨-, x, hx⟩
    simp at hx
    omega

/-! ## As the DMA code uses it -/

/-- A loop that ends is the one with a bound that it does not reach. -/
theorem dcLoop_eq {line stop a : Addr} {fuel n : Nat} {as : List Addr} (h : rangeLoop line stop fuel a = some as) (hn : as.length ≤ n) :
    Dma.dcLoop line stop n a = as := by
  induction fuel generalizing a n as with
  | zero => simp [rangeLoop] at h
  | succ fuel ih =>
    rw [rangeLoop] at h
    split at h
    · rename_i hlt
      obtain ⟨rest, hrest, rfl⟩ := Option.map_eq_some_iff.mp h
      cases n with
      | zero => simp at hn
      | succ n =>
        rw [Dma.dcLoop, if_pos hlt, ih hrest (by simpa using hn)]
    · rename_i hge
      cases h
      cases n with
      | zero => rfl
      | succ n => rw [Dma.dcLoop, if_neg hge]

/-- The maintenance of a range in the DMA model is what these registers give. -/
theorem dma_range (r : SysRegs) {c : Dma.Cpu} (hd : (dminline r).toNat = c.dminline.val) (hon : dcacheEnabled r = c.dcacheOn) {p len : Addr}
    (hfit : p.toNat + len.toNat + (dcacheLineSize r).toNat ≤ 2 ^ 64) (op : Addr → Dma.Op) :
    ∃ as : List Addr, (∀ fuel, as.length < fuel → dcRangeCommon r fuel p len = some (.dmbIsh :: as.map .op ++ [.dsbIsh])) ∧
      Dma.dcRangeCommon c p len op = as.map op := by
  have hline : c.dcacheLineSize = dcacheLineSize r := by rw [dcacheLineSize_eq, hd, Dma.Cpu.dcacheLineSize]
  by_cases hargs : len = 0#64 ∨ c.dcacheOn = false
  · refine ⟨[], fun fuel _ => ?_, ?_⟩
    · rw [dcRangeCommon, if_pos (hon ▸ hargs)]
      rfl
    · rw [Dma.dcRangeCommon, if_pos hargs]
      rfl
  · obtain ⟨hlen, hoff⟩ := not_or.mp hargs
    have hpos : 0 < len.toNat := BitVec.toNat_pos_of_ne_zero hlen
    obtain ⟨k, n, hstop, hloop, -⟩ := range_loop r hfit
    refine ⟨linesFrom (dcacheLineSize r).toNat k n, fun fuel hf => ?_, ?_⟩
    · rw [dcRangeCommon_on r hpos (hon.trans (by simpa using hoff)), hloop fuel (by simpa [linesFrom] using hf)]
      rfl
    · have hcount : n ≤ (alignUp (p + len) (dcacheLineSize r)).toNat / (dcacheLineSize r).toNat := by
        rw [hstop, Nat.mul_div_cancel_left _ (lineSize_pos r)]
        exact Nat.le_add_left n k
      rw [Dma.dcRangeCommon, if_neg hargs, hline]
      exact congrArg (List.map op) (dcLoop_eq (hloop (n + 1) (Nat.lt_succ_self n)) (by simpa [linesFrom] using hcount))

end Microkernel.Arch

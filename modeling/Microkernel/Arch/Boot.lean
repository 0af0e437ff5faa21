/-
  Microkernel.Arch.Boot — from `_start` to `kmain`: boot/start.S, boot/rpi4_start.S and the
  addresses that boot/kernel.ld and boot/kernel_rpi4.ld give the symbols.

  An image has sections of any size; the linker scripts put .bss, the boot stack, the IRQ
  stack, the heap and the DMA window after them. `.text.boot` comes first in the image, so
  the first instruction of rpi4_start.S is at the load address; it is `pl011_putc_early`,
  and `_start` follows it.

  The board supplies the rest: RAM that no device takes and, on the Raspberry Pi, a UART
  whose flag register may read as anything, each read for itself.

  Proved: on QEMU virt, `_start` comes to `kmain` from every state at EL1 or above, and to
  nowhere else (`start_enters_kmain`), with its stack, the vectors, .bss and FP set up. On
  the Raspberry Pi it comes there on core 0 only, at EL2 with room in the UART twice or at
  EL1 with room once, and then `kmain` runs at EL1 (`rpi4_start_outcome`). From the load
  address of the image the way to `kmain` is where x30 points (`image_start_iff`).
-/

import Mathlib
import Microkernel.Lib.Align
import Microkernel.Lib.Bare

namespace Microkernel.Boot

open Align (ceilTo le_ceilTo dvd_ceilTo)
open Bare Bytes

/-! ## boot/kernel.ld and boot/kernel_rpi4.ld -/

/-- Where the linker put `kmain` and the vectors, the location counter after .data and the
    size of the .bss input. -/
structure Sections where
  kmain : Nat
  vecBase : Nat
  dataEnd : Nat
  bssSize : Nat

namespace Sections

variable (s : Sections)

def bssStart : Nat := ceilTo 8 s.dataEnd

def bssEnd : Nat := ceilTo 8 (s.bssStart + s.bssSize)

def bootStackTop : Nat := ceilTo 16 s.bssEnd + 0x4000

def irqStackCpu0 : Nat := ceilTo 64 s.bootStackTop

def irqStackCpu0Top : Nat := s.irqStackCpu0 + 0x4000

def heapStart : Nat := ceilTo 4096 s.irqStackCpu0Top

def heapEnd : Nat := s.heapStart + 0x100000

def dmaNcStart : Nat := ceilTo 4096 s.heapEnd

def dmaNcEnd : Nat := s.dmaNcStart + 0x20000

theorem bssStart_ge : s.dataEnd ≤ s.bssStart := le_ceilTo (by decide) _

theorem bssStart_le : s.bssStart ≤ s.bssEnd := (Nat.le_add_right ..).trans (le_ceilTo (by decide) _)

/-- The regions after .data follow each other. -/
theorem regions : s.bssEnd + 0x4000 ≤ s.bootStackTop ∧ s.bootStackTop ≤ s.irqStackCpu0 ∧ s.irqStackCpu0Top ≤ s.heapStart ∧
    s.heapEnd ≤ s.dmaNcStart := by
  have h1 : s.bssEnd ≤ ceilTo 16 s.bssEnd := le_ceilTo (by decide) _
  have h2 : s.bootStackTop ≤ s.irqStackCpu0 := le_ceilTo (by decide) _
  have h3 : s.irqStackCpu0Top ≤ s.heapStart := le_ceilTo (by decide) _
  have h4 : s.heapEnd ≤ s.dmaNcStart := le_ceilTo (by decide) _
  refine ⟨?_, h2, h3, h4⟩
  unfold bootStackTop
  omega

theorem bootStackTop_lt : s.bootStackTop + 0x124000 ≤ s.dmaNcEnd := by
  obtain ⟨h1, h2, h3, h4⟩ := s.regions
  unfold irqStackCpu0Top at h3
  unfold heapEnd at h4
  unfold dmaNcEnd
  omega

/-- The number of words of .bss. -/
def bssWords : Nat := (s.bssEnd - s.bssStart) / 8

theorem bss_words : s.bssEnd = s.bssStart + 8 * s.bssWords := by
  have h1 : 8 ∣ s.bssStart := dvd_ceilTo 8 _
  have h2 : 8 ∣ s.bssEnd := dvd_ceilTo 8 _
  have hle := s.bssStart_le
  unfold bssWords
  omega

theorem bootStackTop_mod : s.bootStackTop % 16 = 0 := by
  have h : 16 ∣ ceilTo 16 s.bssEnd := dvd_ceilTo 16 _
  unfold bootStackTop
  omega

end Sections

/-- An image for a board: `boot` instructions come first, at `origin`, and everything ends by `top`. -/
structure Image (origin boot top : Nat) extends Sections where
  kmain_ge : origin + 4 * boot ≤ kmain
  kmain_lt : kmain < dataEnd
  fits : toSections.dmaNcEnd ≤ top
  top_le : top ≤ 2 ^ 64

/-! ## The code -/

/-- From "Install vector base" to the end, at position `i`: the same in both files. -/
def entryCode (s : Sections) (i : Nat) : List Instr :=
  [.const 1 (BitVec.ofNat 64 s.vecBase),
   .msr .vbarEl1 1,
   .isb,
   .const 1 (BitVec.ofNat 64 s.bssStart),
   .const 2 (BitVec.ofNat 64 s.bssEnd),
   .cmp 1 2,
   .bCond .hs (i + 10),
   .strZeroPost 1,
   .cmp 1 2,
   .bCond .lo (i + 7),
   .mrs 3 .cpacrEl1,
   .orrImm 3 3 (0b11 <<< 20),
   .msr .cpacrEl1 3,
   .isb,
   .bl (BitVec.ofNat 64 s.kmain),
   .wfe,
   .b (i + 15)]

/-- boot/start.S. -/
def startCode (s : Sections) : List Instr :=
  [.const 0 (BitVec.ofNat 64 s.bootStackTop),
   .movSp 0]
  ++ entryCode s 2

def uartBase : Addr := 0xFE201000

/-- boot/rpi4_start.S, placed at `base`: `pl011_putc_early` at 0, `_start` at 6, `el1_entry`
    at 36. -/
def rpi4StartCode (s : Sections) (base : Addr) : List Instr :=
  [.const 1 uartBase,
   .ldrW 2 1 0x18,
   .tstW 2 (1 <<< 5),
   .bCond .ne 1,
   .strW 0 1 0,
   .ret,
   .mrs 0 .mpidrEl1,
   .andImm 0 0 0xFF,
   .cbz 0 11,
   .wfe,
   .b 9,
   .const 0 (BitVec.ofNat 64 s.bootStackTop),
   .movSp 0,
   .mrsCurrentEl 0,
   .lsrImm 0 0 2,
   .andImm 0 0 3,
   .cmpImm 0 1,
   .bCond .eq 36,
   .cmpImm 0 2,
   .bCond .ne 19,
   .const 0 0x32,
   .bl (place base 0),
   .const 0 (1 <<< 31),
   .msr .hcrEl2 0,
   .const 0 3,
   .msr .cnthctlEl2 0,
   .msrZero .cntvoffEl2,
   .msrZero .cptrEl2,
   .const 0 (BitVec.ofNat 64 s.bootStackTop),
   .msr .spEl1 0,
   .const 0 (0x3C0 ||| 0x5),
   .msr .spsrEl2 0,
   .const 0 (place base 36),
   .msr .elrEl2 0,
   .isb,
   .eret,
   .const 0 0x31,
   .bl (place base 0)]
  ++ entryCode s 38

/-! ## From the vectors to `kmain` -/

/-- What `entryCode` leaves in `c'`. -/
structure Entered {σ : Type} (s : Sections) (c c' : Cpu σ) : Prop where
  vbar : c'.sys .vbarEl1 = BitVec.ofNat 64 s.vecBase
  cpacr : c'.sys .cpacrEl1 = c.sys .cpacrEl1 ||| 0b11 <<< 20
  sys : ∀ r, r ≠ .vbarEl1 → r ≠ .cpacrEl1 → c'.sys r = c.sys r
  mem : c'.mem = fill c.mem (BitVec.ofNat 64 s.bssStart) (8 * s.bssWords) 0
  sp : c'.sp = c.sp
  pstate : c'.pstate = { c.pstate with flags := c'.pstate.flags }
  dev : c'.dev = c.dev

section Entry

variable {σ : Type} {p : Program σ} {s : Sections} {i : Nat} {c : Cpu σ}

theorem entry_getElem {k : Nat} {ins : Instr} (h : entryCode s i <+: p.code.drop i) (hk : (entryCode s i)[k]? = some ins) :
    p.code[i + k]? = some ins := by
  obtain ⟨rest, hrest⟩ := h
  have hlt : k < (entryCode s i).length := (List.getElem?_eq_some_iff.mp hk).1
  rw [← List.getElem?_drop, ← hrest, List.getElem?_append_left hlt, hk]

theorem entry_block (h : entryCode s i <+: p.code.drop i) (k n : Nat) : ((entryCode s i).drop k).take n <+: p.code.drop (i + k) := by
  rw [← List.drop_drop]
  exact (List.take_prefix _ _).trans (h.drop k)

/-- Up to `b.hs 2f`. -/
def vectored (s : Sections) (c : Cpu σ) : Cpu σ :=
  { c with
    x := Function.update (Function.update c.x 1 (BitVec.ofNat 64 s.bssStart)) 2 (BitVec.ofNat 64 s.bssEnd)
    sys := Function.update c.sys .vbarEl1 (BitVec.ofNat 64 s.vecBase)
    pstate := { c.pstate with flags := compare (BitVec.ofNat 64 s.bssStart) (BitVec.ofNat 64 s.bssEnd) } }

theorem entry_vectored (h : entryCode s i <+: p.code.drop i) (hel : c.pstate.el ≠ 0#2) :
    p.Reaches (p.label i, c) (p.label (i + 6), vectored s c) := by
  refine .block (entry_block h 0 6) ?_
  simp [entryCode, exec, Cpu.writeSys, SysReg.level, vectored, hel, Cpu.setX, Cpu.setFlags]

/-- From label 2. -/
def fpEnabled (c : Cpu σ) (ret : Addr) : Cpu σ :=
  let v := c.sys .cpacrEl1 ||| 0b11 <<< 20
  { c with x := Function.update (Function.update c.x 3 v) 30 ret, sys := Function.update c.sys .cpacrEl1 v }

theorem entry_fp (h : entryCode s i <+: p.code.drop i) (hel : c.pstate.el ≠ 0#2) :
    p.Reaches (p.label (i + 10), c) (BitVec.ofNat 64 s.kmain, fpEnabled c (p.label (i + 15))) := by
  let v := c.sys .cpacrEl1 ||| 0b11 <<< 20
  let c1 : Cpu σ := { c with x := Function.update c.x 3 v, sys := Function.update c.sys .cpacrEl1 v }
  have hblock : p.Reaches (p.label (i + 10), c) (p.label (i + 14), c1) := by
    refine .block (entry_block h 10 4) ?_
    simp [entryCode, exec, Cpu.readSys, Cpu.writeSys, SysReg.level, hel, Cpu.setX, c1, v]
  exact hblock.trans (.single (Program.step_bl (entry_getElem h (k := 14) rfl)))

/-- The loop, or nothing where .bss is empty. -/
theorem entry_cleared (h : entryCode s i <+: p.code.drop i) (hlt : s.bssEnd < 2 ^ 64)
    (hdev : ∀ j < 8 * s.bssWords, p.dev.owns (BitVec.ofNat 64 (s.bssStart + j)) = false) :
    ∃ x f, p.Reaches (p.label (i + 6), vectored s c)
      (p.label (i + 10), { vectored s c with
        x := x
        pstate := { c.pstate with flags := f }
        mem := fill c.mem (BitVec.ofNat 64 s.bssStart) (8 * s.bssWords) 0 }) := by
  have hend := s.bss_words
  have hstart : (BitVec.ofNat 64 s.bssStart).toNat = s.bssStart := toNat_word (by omega)
  have hstop : (BitVec.ofNat 64 s.bssEnd).toNat = s.bssEnd := toNat_word hlt
  have hbranch := Program.step_bCond (p := p) (c := vectored s c) (entry_getElem h (k := 6) rfl)
  have hhs : Cond.hs.holds (vectored s c).pstate.flags = decide (s.bssEnd ≤ s.bssStart) := by
    show (BitVec.ofNat 64 s.bssEnd).ule (BitVec.ofNat 64 s.bssStart) = _
    rw [BitVec.ule, hstart, hstop]
  rw [hhs] at hbranch
  cases hk : s.bssWords with
  | zero =>
    rw [hk] at hend
    rw [decide_eq_true (by omega), if_pos rfl] at hbranch
    exact ⟨_, _, .single hbranch⟩
  | succ k =>
    rw [hk] at hend hdev
    rw [decide_eq_false (by omega)] at hbranch
    have hx1 : (vectored s c).x 1 = BitVec.ofNat 64 s.bssStart := rfl
    have hx2 : (vectored s c).x 2 = BitVec.ofNat 64 s.bssEnd := rfl
    have hmod : 8 ∣ s.bssStart := dvd_ceilTo 8 _
    have hloop := Program.clear_loop (p := p) (c := vectored s c) (n := 1) (m := 2) (k := k) (by decide) (entry_getElem h (k := 7) rfl)
      (entry_getElem h (k := 8) rfl) (entry_getElem h (k := 9) rfl) (by rw [hx1, hx2, hend, BitVec.ofNat_add])
      (by rw [hx1, hstart]; omega) (by rw [hx1, hstart]; omega) (by rw [hx1]; intro j hj; rw [← BitVec.ofNat_add]; exact hdev j hj)
    exact ⟨_, _, .head hbranch hloop⟩

/-- From the vectors to `kmain`. -/
theorem entry_reaches (h : entryCode s i <+: p.code.drop i) (hel : c.pstate.el ≠ 0#2) (hlt : s.bssEnd < 2 ^ 64)
    (hdev : ∀ j < 8 * s.bssWords, p.dev.owns (BitVec.ofNat 64 (s.bssStart + j)) = false) :
    ∃ c', p.Reaches (p.label i, c) (BitVec.ofNat 64 s.kmain, c') ∧ Entered s c c' := by
  obtain ⟨x, f, hclear⟩ := entry_cleared (c := c) h hlt hdev
  have hrun := (entry_vectored h hel).trans (hclear.trans (entry_fp h hel))
  refine ⟨_, hrun, ?_⟩
  constructor
  · simp [fpEnabled, vectored]
  · simp [fpEnabled, vectored]
  · intro r h1 h2
    simp [fpEnabled, vectored, h1, h2]
  · rfl
  · rfl
  · rfl
  · rfl

end Entry

/-! ## At `kmain` -/

/-- What `kmain` finds: its stack, the vectors, FP enabled, and .bss zero in the memory `m`. -/
structure Ready {σ : Type} (s : Sections) (m : Mem) (c : Cpu σ) : Prop where
  sp : c.sp c.spLevel = BitVec.ofNat 64 s.bootStackTop
  aligned : (c.sp c.spLevel).toNat % 16 = 0
  vbar : c.sys .vbarEl1 = BitVec.ofNat 64 s.vecBase
  fp : (c.sys .cpacrEl1).extractLsb' 20 2 = 3
  bss : ∀ a, s.bssStart ≤ a.toNat → a.toNat < s.bssEnd → c.mem a = 0
  rest : ∀ a, a.toNat < s.bssStart ∨ s.bssEnd ≤ a.toNat → c.mem a = m a

theorem Entered.ready {σ : Type} {s : Sections} {c c' : Cpu σ} (h : Entered s c c') (hlt : s.bootStackTop < 2 ^ 64)
    (hsp : c.sp c.spLevel = BitVec.ofNat 64 s.bootStackTop) : Ready s c.mem c' := by
  have hend := s.bss_words
  have hstack := s.regions.1
  have hstart : (BitVec.ofNat 64 s.bssStart).toNat = s.bssStart := toNat_word (by omega)
  have hlevel : c'.spLevel = c.spLevel := by
    unfold Cpu.spLevel
    rw [h.pstate]
  have hsp' : c'.sp c'.spLevel = BitVec.ofNat 64 s.bootStackTop := by rw [h.sp, hlevel, hsp]
  refine ⟨hsp', ?_, h.vbar, ?_, fun a h1 h2 => ?_, fun a ha => ?_⟩
  · rw [hsp', toNat_word hlt]
    exact s.bootStackTop_mod
  · have hbits : (0b11 <<< 20 : BitVec 64).extractLsb' 20 2 = BitVec.allOnes 2 := by decide
    rw [h.cpacr, BitVec.extractLsb'_or, hbits, BitVec.or_allOnes]
    rfl
  · rw [h.mem]
    refine fill_apply ?_
    bv_omega
  · rw [h.mem]
    refine fill_outside ?_
    bv_omega

namespace Image

variable {origin boot top : Nat} (g : Image origin boot top)

theorem bootStackTop_lt_top : g.bootStackTop + 0x124000 ≤ top := g.toSections.bootStackTop_lt.trans g.fits

theorem bssEnd_lt_top : g.bssEnd + 0x128000 ≤ top := by
  have h1 := g.bootStackTop_lt_top
  have h2 := g.toSections.regions.1
  omega

theorem origin_lt : origin + 4 * boot < g.bssStart := by
  have h1 := g.kmain_ge
  have h2 := g.kmain_lt
  have h3 := g.toSections.bssStart_ge
  omega

/-- `kmain` is not in the file. -/
theorem fetch_kmain {σ : Type} {p : Program σ} (hb : p.base = BitVec.ofNat 64 origin) (hl : p.code.length = boot) :
    p.fetch (BitVec.ofNat 64 g.kmain) = none := by
  have h1 := g.kmain_ge
  have h2 := g.kmain_lt
  have h3 := g.toSections.bssStart_ge
  have h4 := g.toSections.bssStart_le
  have h5 := g.bssEnd_lt_top
  have h6 := g.top_le
  have hdist : (BitVec.ofNat 64 g.kmain - p.base).toNat = g.kmain - origin := by
    have hk : (BitVec.ofNat 64 g.kmain).toNat = g.kmain := toNat_word (by omega)
    have ho : (BitVec.ofNat 64 origin).toNat = origin := toNat_word (by omega)
    rw [hb]
    bv_omega
  unfold Program.fetch
  rw [hdist, List.getElem?_eq_none (by omega), ite_self]

end Image

/-! ## QEMU virt -/

/-- The devices lie below RAM; boot/start.S does not use them. -/
def virtDevices : Device Unit where
  owns a := a.toNat < 0x40000000
  read _ _ := none
  write _ _ _ := none

/-- RAM as the Makefile's `-m 512` gives it. -/
abbrev VirtImage := Image 0x40080000 19 0x60000000

def start (g : VirtImage) : Program Unit where
  base := 0x40080000
  code := startCode g.toSections
  dev := virtDevices
  small := show 19 ≤ 2 ^ 32 by decide

/-- `_start` is the first instruction. -/
def startState (g : VirtImage) (c : Cpu Unit) : Addr × Cpu Unit := ((start g).label 0, c)

theorem start_enters_kmain (g : VirtImage) (c : Cpu Unit) (hel : c.pstate.el ≠ 0#2) :
    ∃ c', (∀ t, (start g).Reaches (startState g c) t → (start g).Reaches t (BitVec.ofNat 64 g.kmain, c')) ∧
      Ready g.toSections c.mem c' ∧ c'.pstate = { c.pstate with flags := c'.pstate.flags } ∧
      ∀ r, r ≠ .vbarEl1 → r ≠ .cpacrEl1 → c'.sys r = c.sys r := by
  have htop := g.bssEnd_lt_top
  have hstacktop := g.bootStackTop_lt_top
  have hlow := g.origin_lt
  have hend := g.toSections.bss_words
  let c1 : Cpu Unit := { c with
    x := Function.update c.x 0 (BitVec.ofNat 64 g.bootStackTop)
    sp := Function.update c.sp c.spLevel (BitVec.ofNat 64 g.bootStackTop) }
  have hstack : (start g).Reaches (startState g c) ((start g).label 2, c1) := by
    refine .block (l := (startCode g.toSections).take 2) (List.take_prefix _ _) ?_
    simp [startCode, exec, c1, Cpu.setX, Cpu.spLevel]
  have hdev : ∀ j < 8 * g.bssWords, (start g).dev.owns (BitVec.ofNat 64 (g.bssStart + j)) = false := by
    intro j hj
    have ha : (BitVec.ofNat 64 (g.bssStart + j)).toNat = g.bssStart + j := toNat_word (by omega)
    show decide ((BitVec.ofNat 64 (g.bssStart + j)).toNat < 0x40000000) = false
    rw [ha]
    exact decide_eq_false (by omega)
  obtain ⟨c', hrun, hc'⟩ := entry_reaches (p := start g) (i := 2) (c := c1) (List.prefix_refl _) hel (by omega) hdev
  refine ⟨c', fun t ht => ?_, hc'.ready (by omega) ?_, hc'.pstate, hc'.sys⟩
  · exact (hstack.trans hrun).stuck (Program.step_outside (g.fetch_kmain rfl rfl)) ht
  · exact Function.update_self ..

def smallImage : VirtImage where
  kmain := 0x40081000
  vecBase := 0x40080800
  dataEnd := 0x40090003
  bssSize := 0x2345
  kmain_ge := by decide
  kmain_lt := by decide
  fits := by decide
  top_le := by decide

/-- EL1h with everything masked and memory not zero. -/
def resetCpu : Cpu Unit where
  x _ := 0
  sp _ := 0
  pstate := { el := 1, spsel := true, daif := 0b1111, flags := { n := false, z := false, c := false, v := false } }
  sys _ := 0
  mem _ := 0xFF
  dev := ()

theorem start_enters_kmain_reset :
    ∃ c', (start smallImage).Reaches (startState smallImage resetCpu) (0x40081000, c') ∧ Ready smallImage.toSections resetCpu.mem c' := by
  obtain ⟨c', hrun, hready, _⟩ := start_enters_kmain smallImage resetCpu (by decide)
  exact ⟨c', hrun _ (.refl _), hready⟩

/-! ## Raspberry Pi 4 -/

/-- The UART: what the flag register reads as each time, how often it was read, and the
    bytes that were written to the data register. -/
structure Pl011 where
  fr : Nat → BitVec 32
  reads : Nat
  sent : List (BitVec 8)

/-- TXFF in the next read but `k`. -/
def Pl011.full (u : Pl011) (k : Nat) : Bool := (u.fr (u.reads + k)).getLsbD 5

def pl011 : Device Pl011 where
  owns a := (a - uartBase).toNat < 0x1000
  read u a := if a = uartBase + 0x18 then some (u.fr u.reads, { u with reads := u.reads + 1 }) else none
  write u a v := if a = uartBase then some { u with sent := u.sent ++ [v.setWidth 8] } else none

/-- RAM below the peripherals. -/
abbrev Rpi4Image := Image 0x80000 55 0xFC000000

def rpi4Start (g : Rpi4Image) : Program Pl011 where
  base := 0x80000
  code := rpi4StartCode g.toSections 0x80000
  dev := pl011
  small := show 55 ≤ 2 ^ 32 by decide

section Rpi4

variable {g : Rpi4Image} {c : Cpu Pl011}

/-! ### `pl011_putc_early` -/

/-- The flag register is read into w2 and tested. -/
def readFr (c : Cpu Pl011) : Cpu Pl011 :=
  { c with
    x := Function.update c.x 2 ((c.dev.fr c.dev.reads).setWidth 64)
    pstate := { c.pstate with flags := test (c.dev.fr c.dev.reads) (1 <<< 5) }
    dev := { c.dev with reads := c.dev.reads + 1 } }

theorem test_txff (w : BitVec 32) : (test w (1 <<< 5)).z = !w.getLsbD 5 := by
  have hbit : (1 <<< 5 : BitVec 32) = BitVec.twoPow 32 5 := by decide
  rw [test, hbit, BitVec.and_twoPow]
  cases w.getLsbD 5 <;> decide

theorem readFr_full (c : Cpu Pl011) (k : Nat) : (readFr c).dev.full k = c.dev.full (k + 1) := by
  show (c.dev.fr (c.dev.reads + 1 + k)).getLsbD 5 = (c.dev.fr (c.dev.reads + (k + 1))).getLsbD 5
  rw [Nat.add_right_comm, Nat.add_assoc]

theorem exec_ldrFr (hx : c.x 1 = uartBase) :
    exec pl011 c (.ldrW 2 1 0x18) =
      some { c with x := Function.update c.x 2 ((c.dev.fr c.dev.reads).setWidth 64), dev := { c.dev with reads := c.dev.reads + 1 } } := by
  have hown : pl011.owns (uartBase + 0x18) = true := by decide
  have hread : pl011.read c.dev (uartBase + 0x18) = some (c.dev.fr c.dev.reads, { c.dev with reads := c.dev.reads + 1 }) := by simp [pl011]
  simp only [exec, hx, hown, hread]
  rfl

/-- One turn of the loop. -/
theorem poll_turn (hx : c.x 1 = uartBase) :
    (rpi4Start g).Reaches ((rpi4Start g).label 1, c)
      (if c.dev.full 0 then (rpi4Start g).label 1 else (rpi4Start g).label 4, readFr c) := by
  have htst : exec pl011 { c with x := Function.update c.x 2 ((c.dev.fr c.dev.reads).setWidth 64), dev := { c.dev with reads := c.dev.reads + 1 } }
      (.tstW 2 (1 <<< 5)) = some (readFr c) := by
    simp [exec, readFr, Cpu.setFlags]
  have hne : Cond.ne.holds (readFr c).pstate.flags = c.dev.full 0 := by
    show (!(test (c.dev.fr c.dev.reads) (1 <<< 5)).z) = _
    rw [test_txff, Bool.not_not]
    rfl
  refine .head (Program.step_exec (i := 1) rfl (exec_ldrFr hx)) (.head (Program.step_exec (i := 2) rfl htst) (.single ?_))
  rw [Program.step_bCond (i := 3) rfl, hne]

/-- The loop ends at the first read without TXFF. -/
theorem poll_ends {k : Nat} (hx : c.x 1 = uartBase) (hfull : ∀ j < k, c.dev.full j = true) (hfree : c.dev.full k = false) :
    (rpi4Start g).Reaches ((rpi4Start g).label 1, c) ((rpi4Start g).label 4, readFr^[k + 1] c) := by
  induction k generalizing c with
  | zero =>
    have hturn := poll_turn (g := g) hx
    rw [hfree] at hturn
    exact hturn
  | succ k ih =>
    have hturn := poll_turn (g := g) hx
    rw [hfull 0 (by omega), if_pos rfl] at hturn
    refine hturn.trans (ih (c := readFr c) hx (fun j hj => ?_) ?_)
    · rw [readFr_full]
      exact hfull (j + 1) (by omega)
    · rw [readFr_full, hfree]

/-- What differs after the flag register was read `n` times and `bs` was sent, the
    registers aside. -/
structure Put (c c' : Cpu Pl011) (n : Nat) (bs : List (BitVec 8)) : Prop where
  sp : c'.sp = c.sp
  sys : c'.sys = c.sys
  mem : c'.mem = c.mem
  pstate : c'.pstate = { c.pstate with flags := c'.pstate.flags }
  dev : c'.dev = { c.dev with reads := c.dev.reads + n, sent := c.dev.sent ++ bs }

theorem Put.full {c c' : Cpu Pl011} {n : Nat} {bs : List (BitVec 8)} (h : Put c c' n bs) (k : Nat) : c'.dev.full k = c.dev.full (n + k) := by
  rw [h.dev, Pl011.full, Nat.add_assoc]
  rfl

theorem readFr_put (c : Cpu Pl011) (n : Nat) : Put c (readFr^[n] c) n [] := by
  induction n with
  | zero => exact ⟨rfl, rfl, rfl, rfl, by simp⟩
  | succ n ih =>
    rw [Function.iterate_succ_apply']
    refine ⟨ih.sp, ih.sys, ih.mem, ?_, ?_⟩
    · show { (readFr^[n] c).pstate with flags := (readFr (readFr^[n] c)).pstate.flags } = _
      rw [ih.pstate]
    · simp only [readFr, ih.dev, Nat.add_assoc]

theorem readFr_x (c : Cpu Pl011) (n : Nat) {r : Aarch64.Reg} (hr : r ≠ 2) : (readFr^[n] c).x r = c.x r := by
  induction n with
  | zero => rfl
  | succ n ih =>
    rw [Function.iterate_succ_apply', ← ih]
    exact Function.update_of_ne hr ..

theorem putc_sends {k : Nat} (hfull : ∀ j < k, c.dev.full j = true) (hfree : c.dev.full k = false) :
    ∃ c', (rpi4Start g).Reaches ((rpi4Start g).label 0, c) (c.x 30, c') ∧ Put c c' (k + 1) [(c.x 0).setWidth 8] := by
  let c1 := c.setX 1 uartBase
  let c2 := readFr^[k + 1] c1
  have hput : Put c1 c2 (k + 1) [] := readFr_put c1 (k + 1)
  have hx1 : c2.x 1 = uartBase := readFr_x c1 (k + 1) (by decide)
  have hpoll : (rpi4Start g).Reaches ((rpi4Start g).label 1, c1) ((rpi4Start g).label 4, c2) := poll_ends rfl hfull hfree
  let c3 : Cpu Pl011 := { c2 with dev := { c2.dev with sent := c2.dev.sent ++ [(c.x 0).setWidth 8] } }
  have hsend : exec pl011 c2 (.strW 0 1 0) = some c3 := by
    have hx0 : c2.x 0 = c.x 0 := readFr_x c1 (k + 1) (by decide)
    have hown : pl011.owns (uartBase + 0) = true := by decide
    have hbyte : ((c.x 0).setWidth 32).setWidth 8 = (c.x 0).setWidth 8 := BitVec.setWidth_setWidth_of_le _ (by decide)
    have hwrite : pl011.write c2.dev (uartBase + 0) ((c.x 0).setWidth 32) = some c3.dev := by simp [pl011, c3, hbyte]
    simp only [exec, hx1, hx0, hown, hwrite]
    rfl
  have hret : c3.x 30 = c.x 30 := readFr_x c1 (k + 1) (by decide)
  refine ⟨c3, ?_, hput.sp, hput.sys, hput.mem, hput.pstate, ?_⟩
  · refine .head (Program.step_exec (i := 0) rfl rfl) (hpoll.trans (.head (Program.step_exec (i := 4) rfl hsend) ?_))
    rw [← hret]
    exact .single (Program.step_ret (i := 5) rfl)
  · simp only [c3, hput.dev, List.append_nil]
    rfl

/-! ### Never at `kmain` -/

/-- No run from `s` comes to `kmain`. -/
def Lost (g : Rpi4Image) (s : Addr × Cpu Pl011) : Prop := ∀ c', ¬(rpi4Start g).Reaches s (BitVec.ofNat 64 g.kmain, c')

theorem step_kmain (g : Rpi4Image) (c : Cpu Pl011) : (rpi4Start g).step (BitVec.ofNat 64 g.kmain, c) = none :=
  Program.step_outside (g.fetch_kmain rfl rfl)

theorem Lost.of_reaches {s t : Addr × Cpu Pl011} (h : (rpi4Start g).Reaches s t) (ht : Lost g t) : Lost g s :=
  fun c' hc' => ht c' (hc'.stuck (step_kmain g c') h)

/-- A set of states in the file that no step leaves. -/
theorem lost_of_invariant {I : Addr × Cpu Pl011 → Prop} (hI : ∀ s t, (rpi4Start g).step s = some t → I s → I t)
    (hin : ∀ s, I s → (rpi4Start g).fetch s.1 ≠ none) {s : Addr × Cpu Pl011} (h0 : I s) : Lost g s :=
  fun _ hrun => hin _ (hrun.invariant hI h0) (g.fetch_kmain rfl rfl)

/-- In the loop of `pl011_putc_early` with no room to come. -/
inductive Polling (g : Rpi4Image) : Addr × Cpu Pl011 → Prop
  | ldr {c : Cpu Pl011} (hx : c.x 1 = uartBase) (hf : ∀ k, c.dev.full k = true) : Polling g ((rpi4Start g).label 1, c)
  | tst {c : Cpu Pl011} (hx : c.x 1 = uartBase) (hf : ∀ k, c.dev.full k = true) (hw : (c.x 2).getLsbD 5 = true) :
      Polling g ((rpi4Start g).label 2, c)
  | bne {c : Cpu Pl011} (hx : c.x 1 = uartBase) (hf : ∀ k, c.dev.full k = true) (hz : c.pstate.flags.z = false) :
      Polling g ((rpi4Start g).label 3, c)

theorem Polling.step {s t : Addr × Cpu Pl011} (hs : (rpi4Start g).step s = some t) (h : Polling g s) : Polling g t := by
  cases h with
  | @ldr c hx hf =>
    rw [Program.step_exec (i := 1) rfl (exec_ldrFr hx)] at hs
    cases hs
    refine .tst ?_ (fun k => ?_) ?_
    · exact hx
    · exact (readFr_full c k).trans (hf (k + 1))
    · have h0 := hf 0
      rw [Pl011.full, Nat.add_zero] at h0
      simpa using h0
  | @tst c hx hf hw =>
    have htst : exec pl011 c (.tstW 2 (1 <<< 5)) = some (c.setFlags (test ((c.x 2).setWidth 32) (1 <<< 5))) := rfl
    rw [Program.step_exec (i := 2) rfl htst] at hs
    cases hs
    refine .bne hx hf ?_
    show (test ((c.x 2).setWidth 32) (1 <<< 5)).z = false
    rw [test_txff, Bool.not_eq_false', BitVec.getLsbD_setWidth, hw]
    rfl
  | @bne c hx hf hz =>
    rw [Program.step_bCond (i := 3) rfl, Cond.holds, hz] at hs
    cases hs
    exact .ldr hx hf

theorem putc_lost (hf : ∀ k, c.dev.full k = true) : Lost g ((rpi4Start g).label 0, c) := by
  refine Lost.of_reaches (.single (Program.step_exec (i := 0) rfl rfl)) (lost_of_invariant (fun _ _ => Polling.step) ?_ (.ldr rfl hf))
  intro s hs
  cases hs with
  | ldr => exact Option.ne_none_iff_exists'.mpr ⟨_, Program.fetch_label (i := 1) rfl⟩
  | tst => exact Option.ne_none_iff_exists'.mpr ⟨_, Program.fetch_label (i := 2) rfl⟩
  | bne => exact Option.ne_none_iff_exists'.mpr ⟨_, Program.fetch_label (i := 3) rfl⟩

/-! ### The markers -/

/-- `mov w0, #b; bl pl011_putc_early` at position `i`. -/
structure CallsPutc (g : Rpi4Image) (i : Nat) (b : BitVec 64) : Prop where
  mov : (rpi4Start g).code[i]? = some (.const 0 b)
  bl : (rpi4Start g).code[i + 1]? = some (.bl ((rpi4Start g).label 0))

theorem call_enters {i : Nat} {b : BitVec 64} (h : CallsPutc g i b) :
    (rpi4Start g).Reaches ((rpi4Start g).label i, c)
      ((rpi4Start g).label 0, (c.setX 0 b).setX 30 ((rpi4Start g).label (i + 2))) :=
  .head (Program.step_exec h.mov rfl) (.single (Program.step_bl h.bl))

theorem call_sends {i k : Nat} {b : BitVec 64} (h : CallsPutc g i b) (hfull : ∀ j < k, c.dev.full j = true) (hfree : c.dev.full k = false) :
    ∃ c', (rpi4Start g).Reaches ((rpi4Start g).label i, c) ((rpi4Start g).label (i + 2), c') ∧ Put c c' (k + 1) [b.setWidth 8] := by
  obtain ⟨c', hrun, hput⟩ := putc_sends (g := g) (c := (c.setX 0 b).setX 30 ((rpi4Start g).label (i + 2))) hfull hfree
  exact ⟨c', (call_enters h).trans hrun, hput.sp, hput.sys, hput.mem, hput.pstate, hput.dev⟩

theorem call_lost {i : Nat} {b : BitVec 64} (h : CallsPutc g i b) (hf : ∀ k, c.dev.full k = true) : Lost g ((rpi4Start g).label i, c) :=
  .of_reaches (call_enters h) (putc_lost hf)

theorem calls_two (g : Rpi4Image) : CallsPutc g 20 0x32 := ⟨rfl, rfl⟩

theorem calls_one (g : Rpi4Image) : CallsPutc g 36 0x31 := ⟨rfl, rfl⟩

/-- The first read without TXFF. -/
theorem first_free {u : Pl011} (h : ∃ k, u.full k = false) : ∃ k, (∀ j < k, u.full j = true) ∧ u.full k = false :=
  ⟨Nat.find h, fun j hj => by simpa using Nat.find_min h hj, Nat.find_spec h⟩

/-! ### From `el1_entry` -/

theorem bss_not_uart (g : Rpi4Image) : ∀ j < 8 * g.bssWords, (rpi4Start g).dev.owns (BitVec.ofNat 64 (g.bssStart + j)) = false := by
  intro j hj
  have htop := g.bssEnd_lt_top
  have hend := g.toSections.bss_words
  have ha : (BitVec.ofNat 64 (g.bssStart + j)).toNat = g.bssStart + j := toNat_word (by omega)
  refine decide_eq_false ?_
  unfold uartBase
  bv_omega

/-- What `el1_entry` does on the way to `kmain`, the registers aside. -/
structure Booted (g : Rpi4Image) (c c' : Cpu Pl011) (n : Nat) : Prop where
  ready : Ready g.toSections c.mem c'
  pstate : c'.pstate = { c.pstate with flags := c'.pstate.flags }
  sys : ∀ r, r ≠ .vbarEl1 → r ≠ .cpacrEl1 → c'.sys r = c.sys r
  dev : c'.dev = { c.dev with reads := c.dev.reads + n, sent := c.dev.sent ++ [0x31] }

theorem el1_boots (hel : c.pstate.el ≠ 0#2) (hsp : c.sp c.spLevel = BitVec.ofNat 64 g.bootStackTop) (hfree : ∃ k, c.dev.full k = false) :
    ∃ c' n, (rpi4Start g).Reaches ((rpi4Start g).label 36, c) (BitVec.ofNat 64 g.kmain, c') ∧ Booted g c c' n := by
  obtain ⟨k, hfull, hk⟩ := first_free hfree
  obtain ⟨c1, hsend, hput⟩ := call_sends (calls_one g) hfull hk
  have htop := g.bssEnd_lt_top
  have hstacktop := g.bootStackTop_lt_top
  have hel1 : c1.pstate.el ≠ 0#2 := by rwa [hput.pstate]
  obtain ⟨c', hrun, hc'⟩ := entry_reaches (p := rpi4Start g) (i := 38) (c := c1) (List.prefix_refl _) hel1 (by omega) (bss_not_uart g)
  have hlevel : c1.spLevel = c.spLevel := by
    unfold Cpu.spLevel
    rw [hput.pstate]
  have hready := hc'.ready (by omega) (by rw [hput.sp, hlevel, hsp])
  rw [hput.mem] at hready
  refine ⟨c', k + 1, hsend.trans hrun, hready, ?_, fun r h1 h2 => ?_, ?_⟩
  · rw [hc'.pstate, hput.pstate]
  · rw [hc'.sys r h1 h2, hput.sys]
  · rw [hc'.dev, hput.dev]
    rfl

/-! ### From `_start` -/

/-- At `b.eq el1_entry`. -/
def located (g : Rpi4Image) (c : Cpu Pl011) : Cpu Pl011 :=
  { c with
    x := Function.update c.x 0 (c.pstate.el.setWidth 64)
    sp := Function.update c.sp c.spLevel (BitVec.ofNat 64 g.bootStackTop)
    pstate := { c.pstate with flags := compare (c.pstate.el.setWidth 64) 1 } }

theorem start_parks (hel : c.pstate.el ≠ 0#2) : (rpi4Start g).Reaches ((rpi4Start g).label 6, c)
    ((rpi4Start g).label (if c.sys .mpidrEl1 &&& 0xFF = 0 then 11 else 9), c.setX 0 (c.sys .mpidrEl1 &&& 0xFF)) := by
  have hblock : (rpi4Start g).Reaches ((rpi4Start g).label 6, c) ((rpi4Start g).label 8, c.setX 0 (c.sys .mpidrEl1 &&& 0xFF)) := by
    refine .block (l := [.mrs 0 .mpidrEl1, .andImm 0 0 0xFF]) ⟨_, rfl⟩ ?_
    simp [exec, Cpu.readSys, SysReg.level, hel, Cpu.setX]
  refine hblock.trans (.single ?_)
  rw [Program.step_cbz (i := 8) rfl]
  simp only [Cpu.setX_x, Function.update_self]
  split <;> rfl

theorem el_field (v : BitVec 2) : (v.setWidth 64 <<< 2) >>> 2 &&& 3#64 = v.setWidth 64 := by
  revert v
  decide

theorem start_locates (hel : c.pstate.el ≠ 0#2) :
    (rpi4Start g).Reaches ((rpi4Start g).label 11, c) ((rpi4Start g).label 17, located g c) := by
  refine .block (l := ((rpi4StartCode g.toSections 0x80000).drop 11).take 6) (List.take_prefix _ _) ?_
  simp [rpi4StartCode, exec, hel, Cpu.setX, Cpu.setFlags, located, el_field, Cpu.spLevel]

/-- A loop of two instructions, or of one, that leaves the state alone. -/
theorem loop_lost {I : Addr → Prop} (hI : ∀ a, I a → ∀ t, (rpi4Start g).step (a, c) = some t → I t.1 ∧ t.2 = c)
    (hin : ∀ a, I a → (rpi4Start g).fetch a ≠ none) {a : Addr} (h0 : I a) : Lost g (a, c) := by
  refine lost_of_invariant (I := fun s => I s.1 ∧ s.2 = c) ?_ (fun s hs => hin s.1 hs.1) ⟨h0, rfl⟩
  rintro ⟨a, c1⟩ t hstep ⟨ha, rfl⟩
  exact hI a ha t hstep

/-- A secondary core. -/
theorem parked_lost : Lost g ((rpi4Start g).label 9, c) := by
  refine loop_lost (I := fun a => a = (rpi4Start g).label 9 ∨ a = (rpi4Start g).label 10) ?_ ?_ (Or.inl rfl)
  · rintro a (rfl | rfl) t ht
    · rw [Program.step_exec (i := 9) (e := .wfe) rfl rfl] at ht
      cases ht
      exact ⟨Or.inr rfl, rfl⟩
    · rw [Program.step_b (i := 10) rfl] at ht
      cases ht
      exact ⟨Or.inl rfl, rfl⟩
  · rintro a (rfl | rfl)
    · rw [Program.fetch_label (i := 9) (e := .wfe) rfl]
      exact Option.some_ne_none _
    · rw [Program.fetch_label (i := 10) (e := .b 9) rfl]
      exact Option.some_ne_none _

/-- `b.ne .`. -/
theorem branch_self_lost (hz : c.pstate.flags.z = false) : Lost g ((rpi4Start g).label 19, c) := by
  refine loop_lost (I := fun a => a = (rpi4Start g).label 19) ?_ ?_ rfl
  · rintro a rfl t ht
    rw [Program.step_bCond (i := 19) (k := .ne) (l := 19) rfl, Cond.holds, hz] at ht
    cases ht
    exact ⟨rfl, rfl⟩
  · rintro a rfl
    rw [Program.fetch_label (i := 19) (e := .bCond .ne 19) rfl]
    exact Option.some_ne_none _

/-- What the EL2 code leaves before `eret`, and after it. -/
def el2Done (g : Rpi4Image) (c : Cpu Pl011) : Cpu Pl011 :=
  { c with
    x := Function.update c.x 0 ((rpi4Start g).label 36)
    sp := Function.update c.sp 1 (BitVec.ofNat 64 g.bootStackTop)
    sys := Function.update (Function.update (Function.update (Function.update (Function.update (Function.update c.sys
      .hcrEl2 (1 <<< 31)) .cnthctlEl2 3) .cntvoffEl2 0) .cptrEl2 0) .spsrEl2 (0x3C0 ||| 0x5)) .elrEl2 ((rpi4Start g).label 36) }

/-- EL1h with everything masked. -/
def droppedPstate : Pstate :=
  { el := 1, spsel := true, daif := 0b1111, flags := { n := false, z := false, c := false, v := false } }

/-- At `el1_entry`, from EL2. -/
def dropped (g : Rpi4Image) (c : Cpu Pl011) : Cpu Pl011 := { el2Done g c with pstate := droppedPstate }

theorem dropped_sp (g : Rpi4Image) (c : Cpu Pl011) : (dropped g c).sp (dropped g c).spLevel = BitVec.ofNat 64 g.bootStackTop := by
  have hlevel : (dropped g c).spLevel = 1 := rfl
  rw [hlevel]
  exact Function.update_self (1 : BitVec 2) _ c.sp

theorem spsr_dropped : Pstate.ofSpsr 965#64 = droppedPstate := by decide

theorem el2_drops (hel : c.pstate.el = 2#2) : (rpi4Start g).Reaches ((rpi4Start g).label 22, c)
    ((rpi4Start g).label 36, dropped g c) := by
  have hblock : (rpi4Start g).Reaches ((rpi4Start g).label 22, c) ((rpi4Start g).label 35, el2Done g c) := by
    refine .block (l := ((rpi4StartCode g.toSections 0x80000).drop 22).take 13) (List.take_prefix _ _) ?_
    simp [rpi4StartCode, exec, Cpu.writeSys, SysReg.level, hel, Cpu.setX, el2Done]
    exact ⟨rfl, rfl⟩
  refine hblock.trans (.single ?_)
  rw [Program.step_eret (i := 35) rfl]
  simp [Cpu.exceptionReturn, dropped, el2Done, hel, spsr_dropped, droppedPstate]

/-- What differs at `kmain` between a start at EL1 and one at EL2. -/
structure Handed (g : Rpi4Image) (c c' : Cpu Pl011) : Prop where
  ready : Ready g.toSections c.mem c'
  el : c'.pstate.el = 1
  /-- From EL1: only "1" is sent, and nothing else changes. -/
  fromEl1 : c.pstate.el = 1 → c'.dev.sent = c.dev.sent ++ [0x31] ∧ c'.pstate.daif = c.pstate.daif ∧ c'.pstate.spsel = c.pstate.spsel ∧
    ∀ r, r ≠ .vbarEl1 → r ≠ .cpacrEl1 → c'.sys r = c.sys r
  /-- From EL2: "21" is sent, everything is masked, EL1 is AArch64 with its timers and FP untrapped. -/
  fromEl2 : c.pstate.el = 2 → c'.dev.sent = c.dev.sent ++ [0x32, 0x31] ∧ c'.pstate.daif = 0b1111 ∧ c'.pstate.spsel = true ∧
    c'.sys .hcrEl2 = 1 <<< 31 ∧ c'.sys .cnthctlEl2 = 3 ∧ c'.sys .cntvoffEl2 = 0 ∧ c'.sys .cptrEl2 = 0

/-- The states from which `_start` comes to `kmain`. -/
def Boots (c : Cpu Pl011) : Prop :=
  c.sys .mpidrEl1 &&& 0xFF = 0 ∧
    (c.pstate.el = 1 ∧ (∃ k, c.dev.full k = false) ∨ c.pstate.el = 2 ∧ ∃ j k, j < k ∧ c.dev.full j = false ∧ c.dev.full k = false)

theorem located_el1 (hel : c.pstate.el = 1) (hfree : ∃ k, c.dev.full k = false) :
    ∃ c', (rpi4Start g).Reaches ((rpi4Start g).label 17, located g c) (BitVec.ofNat 64 g.kmain, c') ∧ Handed g c c' := by
  have hbranch : (rpi4Start g).step ((rpi4Start g).label 17, located g c) = some ((rpi4Start g).label 36, located g c) := by
    rw [Program.step_bCond (i := 17) (k := .eq) (l := 36) rfl]
    simp [located, hel]
  have hel0 : (located g c).pstate.el ≠ 0#2 := by
    show c.pstate.el ≠ 0#2
    rw [hel]
    decide
  obtain ⟨c', n, hrun, hb⟩ := el1_boots (g := g) (c := located g c) hel0 (Function.update_self ..) hfree
  refine ⟨c', .head hbranch hrun, hb.ready, ?_, fun _ => ⟨?_, ?_, ?_, hb.sys⟩, fun h => ?_⟩
  · rw [hb.pstate]
    exact hel
  · rw [hb.dev]
    rfl
  · rw [hb.pstate]
    rfl
  · rw [hb.pstate]
    rfl
  · rw [hel] at h
    exact absurd h (by decide)

/-- At `b.ne .`. -/
def notEl1 (g : Rpi4Image) (c : Cpu Pl011) : Cpu Pl011 := (located g c).setFlags (compare (c.pstate.el.setWidth 64) 2)

theorem el_eq_iff (v w : BitVec 2) : (v.setWidth 64 == (w.setWidth 64 : BitVec 64)) = decide (v = w) := by
  revert v w
  decide

theorem located_notEl1 (hel : c.pstate.el ≠ 1) :
    (rpi4Start g).Reaches ((rpi4Start g).label 17, located g c) ((rpi4Start g).label 19, notEl1 g c) := by
  have hbranch : (rpi4Start g).step ((rpi4Start g).label 17, located g c) = some ((rpi4Start g).label 18, located g c) := by
    rw [Program.step_bCond (i := 17) (k := .eq) (l := 36) rfl]
    have heq : Cond.eq.holds (located g c).pstate.flags = decide (c.pstate.el = 1) := el_eq_iff c.pstate.el 1
    rw [heq, decide_eq_false hel]
    rfl
  have hcmp : exec pl011 (located g c) (.cmpImm 0 2) = some (notEl1 g c) := by
    have hx : (located g c).x 0 = c.pstate.el.setWidth 64 := by simp [located]
    simp only [exec, hx, notEl1]
  exact .head hbranch (.single (Program.step_exec (i := 18) rfl hcmp))

theorem notEl1_z : (notEl1 g c).pstate.flags.z = decide (c.pstate.el = 2) := el_eq_iff c.pstate.el 2

theorem located_el2 (hel : c.pstate.el = 2) (hfree : ∃ j k, j < k ∧ c.dev.full j = false ∧ c.dev.full k = false) :
    ∃ c', (rpi4Start g).Reaches ((rpi4Start g).label 17, located g c) (BitVec.ofNat 64 g.kmain, c') ∧ Handed g c c' := by
  have h17 := located_notEl1 (g := g) (c := c) (by rw [hel]; decide)
  have h19 : (rpi4Start g).step ((rpi4Start g).label 19, notEl1 g c) = some ((rpi4Start g).label 20, notEl1 g c) := by
    rw [Program.step_bCond (i := 19) (k := .ne) (l := 19) rfl, Cond.holds, notEl1_z, hel]
    rfl
  obtain ⟨j, k, hjk, hj, hk⟩ := hfree
  obtain ⟨n, hfull, hn⟩ := first_free ⟨j, hj⟩
  obtain ⟨c1, hsend, hput⟩ := call_sends (c := notEl1 g c) (calls_two g) hfull hn
  have hel1 : c1.pstate.el = 2#2 := by
    rw [hput.pstate]
    exact hel
  have hdrop := el2_drops (g := g) hel1
  -- the first read with room was the first of two
  have hnj : n ≤ j := by
    by_contra hlt
    have hfj := hfull j (by omega)
    rw [hj] at hfj
    cases hfj
  have hfree1 : ∃ i, c1.dev.full i = false := by
    refine ⟨k - (n + 1), ?_⟩
    rw [hput.full, Nat.add_sub_cancel' (by omega)]
    exact hk
  obtain ⟨c', m, hrun, hb⟩ := el1_boots (g := g) (c := dropped g c1) (show (1 : BitVec 2) ≠ 0 by decide) (dropped_sp g c1) hfree1
  refine ⟨c', h17.trans (.head h19 (hsend.trans (hdrop.trans hrun))), ?_, ?_, fun h => ?_, fun _ => ?_⟩
  · have hmem : c1.mem = c.mem := hput.mem
    have hready := hb.ready
    rwa [show (dropped g c1).mem = c.mem from hmem] at hready
  · rw [hb.pstate]
    rfl
  · rw [hel] at h
    exact absurd h (by decide)
  · refine ⟨?_, ?_, ?_, ?_, ?_, ?_, ?_⟩
    · rw [hb.dev]
      show c1.dev.sent ++ [0x31] = _
      rw [hput.dev]
      show c.dev.sent ++ [0x32] ++ [0x31] = _
      simp
    · rw [hb.pstate]
      rfl
    · rw [hb.pstate]
      rfl
    · rw [hb.sys _ (by decide) (by decide)]
      simp [dropped, el2Done]
    · rw [hb.sys _ (by decide) (by decide)]
      simp [dropped, el2Done]
    · rw [hb.sys _ (by decide) (by decide)]
      simp [dropped, el2Done]
    · rw [hb.sys _ (by decide) (by decide)]
      simp [dropped, el2Done]

theorem undefined_lost (hel : c.pstate.el = 0) : Lost g ((rpi4Start g).label 6, c) := by
  have hstuck : (rpi4Start g).step ((rpi4Start g).label 6, c) = none := by
    simp only [Program.step, Program.fetch_label (p := rpi4Start g) (i := 6) rfl]
    simp [exec, Cpu.readSys, SysReg.level, hel]
  refine lost_of_invariant (I := fun s => s = ((rpi4Start g).label 6, c)) (fun s t hstep hs => ?_) (fun s hs => ?_) rfl
  · rw [hs, hstuck] at hstep
    cases hstep
  · rw [hs, Program.fetch_label (p := rpi4Start g) (i := 6) rfl]
    exact Option.some_ne_none _

theorem located_el1_lost (hel : c.pstate.el = 1) (hf : ∀ k, c.dev.full k = true) : Lost g ((rpi4Start g).label 17, located g c) := by
  have hbranch : (rpi4Start g).step ((rpi4Start g).label 17, located g c) = some ((rpi4Start g).label 36, located g c) := by
    rw [Program.step_bCond (i := 17) (k := .eq) (l := 36) rfl]
    simp [located, hel]
  exact .of_reaches (.single hbranch) (call_lost (calls_one g) hf)

theorem located_el2_lost (hel : c.pstate.el = 2) (hf : ∀ j k, j < k → c.dev.full j = false → c.dev.full k = true) :
    Lost g ((rpi4Start g).label 17, located g c) := by
  have h17 := located_notEl1 (g := g) (c := c) (by rw [hel]; decide)
  have h19 : (rpi4Start g).step ((rpi4Start g).label 19, notEl1 g c) = some ((rpi4Start g).label 20, notEl1 g c) := by
    rw [Program.step_bCond (i := 19) (k := .ne) (l := 19) rfl, Cond.holds, notEl1_z, hel]
    rfl
  refine .of_reaches (h17.trans (.single h19)) ?_
  by_cases hany : ∃ k, c.dev.full k = false
  · -- the second marker waits for ever
    obtain ⟨n, hfull, hn⟩ := first_free hany
    obtain ⟨c1, hsend, hput⟩ := call_sends (c := notEl1 g c) (calls_two g) hfull hn
    have hel1 : c1.pstate.el = 2#2 := by
      rw [hput.pstate]
      exact hel
    refine .of_reaches (hsend.trans (el2_drops hel1)) (call_lost (calls_one g) fun k => ?_)
    show c1.dev.full k = true
    rw [hput.full]
    exact hf n (n + 1 + k) (by omega) hn
  · refine call_lost (calls_two g) fun k => ?_
    have hk := not_exists.mp hany k
    rw [Bool.not_eq_false] at hk
    exact hk

theorem start_lost (h : ¬Boots c) : Lost g ((rpi4Start g).label 6, c) := by
  by_cases h0 : c.pstate.el = 0
  · exact undefined_lost h0
  have hpark := start_parks (g := g) (c := c) h0
  by_cases hcore : c.sys .mpidrEl1 &&& 0xFF = 0
  · rw [if_pos hcore] at hpark
    have hlocate := start_locates (g := g) (c := c.setX 0 (c.sys .mpidrEl1 &&& 0xFF)) h0
    refine .of_reaches (hpark.trans hlocate) ?_
    have hlevels : c.pstate.el = 1 ∨ c.pstate.el = 2 ∨ c.pstate.el = 3 := by
      revert h0
      generalize c.pstate.el = v
      revert v
      decide
    rcases hlevels with hel | hel | hel
    · refine located_el1_lost hel fun k => ?_
      by_contra hk
      exact h ⟨hcore, Or.inl ⟨hel, k, by simpa using hk⟩⟩
    · refine located_el2_lost hel fun j k hjk hj => ?_
      by_contra hk
      exact h ⟨hcore, Or.inr ⟨hel, j, k, hjk, hj, by simpa using hk⟩⟩
    · refine .of_reaches (located_notEl1 (by show c.pstate.el ≠ 1; rw [hel]; decide)) (branch_self_lost ?_)
      rw [notEl1_z]
      show decide (c.pstate.el = 2) = false
      rw [hel]
      rfl
  · rw [if_neg hcore] at hpark
    exact .of_reaches hpark parked_lost

theorem start_boots (h : Boots c) :
    ∃ c', (rpi4Start g).Reaches ((rpi4Start g).label 6, c) (BitVec.ofNat 64 g.kmain, c') ∧ Handed g c c' := by
  obtain ⟨hcore, hlevel⟩ := h
  have h0 : c.pstate.el ≠ 0#2 := by
    rcases hlevel with ⟨hel, _⟩ | ⟨hel, _⟩ <;> rw [hel] <;> decide
  have hpark := start_parks (g := g) (c := c) h0
  rw [if_pos hcore] at hpark
  have hlocate := hpark.trans (start_locates (g := g) (c := c.setX 0 (c.sys .mpidrEl1 &&& 0xFF)) h0)
  rcases hlevel with ⟨hel, hfree⟩ | ⟨hel, hfree⟩
  · obtain ⟨c', hrun, hc'⟩ := located_el1 (g := g) (c := c.setX 0 (c.sys .mpidrEl1 &&& 0xFF)) hel hfree
    exact ⟨c', hlocate.trans hrun, hc'.ready, hc'.el, hc'.fromEl1, hc'.fromEl2⟩
  · obtain ⟨c', hrun, hc'⟩ := located_el2 (g := g) (c := c.setX 0 (c.sys .mpidrEl1 &&& 0xFF)) hel hfree
    exact ⟨c', hlocate.trans hrun, hc'.ready, hc'.el, hc'.fromEl1, hc'.fromEl2⟩

theorem rpi4_start_outcome (g : Rpi4Image) (c : Cpu Pl011) :
    (Boots c → ∃ c', Handed g c c' ∧
      ∀ t, (rpi4Start g).Reaches ((rpi4Start g).label 6, c) t → (rpi4Start g).Reaches t (BitVec.ofNat 64 g.kmain, c')) ∧
    (¬Boots c → Lost g ((rpi4Start g).label 6, c)) := by
  refine ⟨fun h => ?_, start_lost⟩
  obtain ⟨c', hrun, hc'⟩ := start_boots (g := g) h
  exact ⟨c', hc', fun t ht => hrun.stuck (step_kmain g c') ht⟩

/-! ### From the load address -/

/-- The first instruction of the image is in `pl011_putc_early`: with room in the UART a byte of
    x0 is sent and x30 is the next PC, with nothing set up. -/
theorem image_start_iff (g : Rpi4Image) (c : Cpu Pl011) :
    (∃ c', (rpi4Start g).Reaches (BitVec.ofNat 64 0x80000, c) (BitVec.ofNat 64 g.kmain, c')) ↔
      ∃ k c1, Put c c1 (k + 1) [(c.x 0).setWidth 8] ∧ (rpi4Start g).Reaches (BitVec.ofNat 64 0x80000, c) (c.x 30, c1) ∧
        ∃ c', (rpi4Start g).Reaches (c.x 30, c1) (BitVec.ofNat 64 g.kmain, c') := by
  have hload : BitVec.ofNat 64 0x80000 = (rpi4Start g).label 0 := rfl
  rw [hload]
  constructor
  · rintro ⟨c', hrun⟩
    have hany : ∃ k, c.dev.full k = false := by
      by_contra hnone
      refine putc_lost (fun k => ?_) c' hrun
      have hk := not_exists.mp hnone k
      rwa [Bool.not_eq_false] at hk
    obtain ⟨k, hfull, hk⟩ := first_free hany
    obtain ⟨c1, hsend, hput⟩ := putc_sends (g := g) hfull hk
    exact ⟨k, c1, hput, hsend, c', hrun.stuck (step_kmain g c') hsend⟩
  · rintro ⟨k, c1, _, hsend, c', hrun⟩
    exact ⟨c', hsend.trans hrun⟩

end Rpi4

end Microkernel.Boot

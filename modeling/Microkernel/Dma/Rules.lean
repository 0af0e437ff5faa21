/-
  Microkernel.Dma.Rules — the driver's address rules against the page tables.

  dma.cc decides from constants which ranges are cacheable and where the device sees them,
  and include/dma.h converts between the window and its alias; src/arch/aarch64/mmu.cc and
  mmu_rpi4.cc build the tables. `Rules` is what the driver relies on, about a range whose
  bytes the tables map.

  - `rules_match_virt`: on virt the rules hold of every range, the maintenance test is exact
    on all 64-bit addresses, and the two conversions of the window are inverse.
  - `rules_match_rpi4`: the constants are virt's. On the Raspberry Pi 4, where RAM is at
    0 and its alias at 1 GiB, they hold of the ranges that are neither.
  - `lowram_refused`: a buffer in low RAM.
-/

import Microkernel.Dma.Bus
import Microkernel.Mmu.Guard

namespace Microkernel.Mmu

open Translation

/-- What an access to a 64-bit address finds: TTBR0_EL1 translates as many bits as T0SZ says,
    and walks of TTBR1_EL1 are disabled. -/
def State.access (s : State) (va : BitVec 64) : Option Page :=
  if va.toNat < 2 ^ (64 - (s.tcr &&& 0x3F#64).toNat) then s.translate va.toNat else none

variable {b : Board} {L : Layout} {w : Window b} {s : State}

/-- With the tables as built every address is the documented one. -/
theorem access_built (w : Window b) (mmfr0 : BitVec 64) (hoff : s.enabled = false) (va : BitVec 64) :
    (mmuInit b L w mmfr0 true s).access va = baseMap w va.toNat := by
  have hmapped := mmuInit_mapped (L := L) w mmfr0 hoff
  have htcr : (mmuInit b L w mmfr0 true s).tcr = tcrValue mmfr0 := by
    have hbit : ¬ s.sctlr &&& 1#64 ≠ 0#64 := fun h => by
      unfold State.enabled at hoff
      exact absurd (of_decide_eq_false hoff) (not_not.mpr h)
    unfold mmuInit
    rw [if_neg (by decide), if_neg hbit]
  unfold State.access
  rw [htcr, (tcr_fields mmfr0).1]
  have hbits : 64 - (16#64).toNat = 48 := by decide
  rw [hbits]
  by_cases hva : va.toNat < 2 ^ 48
  · rw [if_pos hva]
    exact (hmapped.translate hva).2 (Set.notMem_empty _)
  · rw [if_neg hva, baseMap_high w (by omega)]

end Microkernel.Mmu

namespace Microkernel.Dma

open Bytes Translation
open Mmu (Board Window Layout State mmuInit baseMap)

/-! ## include/dma.h -/

section
variable {b : Board} (w : Window b)

/-- `dma_window_contains_range`. -/
def windowContainsRange (p len : Addr) : Bool :=
  if p = 0#64 ∨ len = 0#64 then false
  else
    let stop := p + (len - 1#64)
    if stop < p then false else w.start ≤ p ∧ stop < w.stop

/-- `dma_window_to_nocache_alias`; the result 0 is null. -/
def windowToNocacheAlias (p len : Addr) : Addr := if !windowContainsRange w p len then 0#64 else p + kAliasOffset

/-- `dma_window_from_nocache_alias`; the result 0 is null. -/
def windowFromNocacheAlias (p len : Addr) : Addr :=
  if p = 0#64 ∨ len = 0#64 then 0#64
  else
    let base := p - kAliasOffset
    if p < base then 0#64 else if windowContainsRange w base len then base else 0#64

end

/-! ## Ranges -/

/-- The range lies between two addresses. -/
def Between (lo hi : Nat) (p len : Addr) : Prop := lo ≤ p.toNat ∧ p.toNat + len.toNat ≤ hi

/-- Every byte of the range is mapped. -/
def AllMapped (s : State) (p len : Addr) : Prop := ∀ i < len.toNat, (s.access (p + BitVec.ofNat 64 i)).isSome

/-- Every byte of the range is mapped Normal write-back. -/
def AllCacheable (s : State) (p len : Addr) : Prop :=
  ∀ i < len.toNat, ∃ pg, s.access (p + BitVec.ofNat 64 i) = some pg ∧ pg.type = .normalWb

/-- The range at `q` reaches the same physical bytes as the one at `p`, and its mappings
    satisfy `φ`. -/
def SameBytes (s : State) (p q len : Addr) (φ : Page → Prop) : Prop :=
  ∀ i < len.toNat, ∃ pg pg', s.access (p + BitVec.ofNat 64 i) = some pg ∧ s.access (q + BitVec.ofNat 64 i) = some pg' ∧
    pg'.pa = pg.pa ∧ φ pg'

variable {w : Window .virt} {s : State} {p q len : Addr}

/-- The last byte, and whether the range wraps around. -/
theorem last_toNat (hlen : len ≠ 0#64) :
    (p + (len - 1#64)).toNat = if p.toNat + len.toNat ≤ 2 ^ 64 then p.toNat + len.toNat - 1 else p.toNat + len.toNat - 1 - 2 ^ 64 := by
  have hpos := BitVec.toNat_pos_of_ne_zero hlen
  split <;> bv_omega

/-- `dma_cache_maint_allowed` on numbers. -/
theorem maint_iff {b : Board} (w : Window b) (p len : Addr) :
    dmaCacheMaintAllowed w p len = true ↔ len ≠ 0#64 ∧ Between 0x40000000 0x80000000 p len ∧
      ¬ (w.policy = .noncacheable ∧ w.start.toNat < p.toNat + len.toNat ∧ p.toNat < w.start.toNat + 0x20000) := by
  unfold dmaCacheMaintAllowed Between
  by_cases hlen : len = 0#64
  · simp [hlen]
  by_cases hp : p = 0#64
  · simp [hp]
  have hlast := last_toNat (p := p) hlen
  have hpos := BitVec.toNat_pos_of_ne_zero hlen
  have hstop := Mmu.stop_toNat w
  have hp' := p.isLt
  have hlen' := len.isLt
  rw [if_neg (by simp [hp, hlen])]
  dsimp only
  by_cases hwrap : p.toNat + len.toNat ≤ 2 ^ 64
  · rw [if_pos hwrap] at hlast
    unfold kAliasStart kAliasEnd kNormalStart kNormalEnd
    simp only [BitVec.le_def, BitVec.lt_def, hlast, hstop, BitVec.toNat_ofNat]
    rw [if_neg (by omega)]
    by_cases hram : 0x40000000 ≤ p.toNat ∧ p.toNat + len.toNat ≤ 0x80000000
    · rw [if_neg (by omega), if_neg (by omega)]
      split
      · rename_i hwin
        simp only [Bool.false_eq_true, false_iff]
        rintro ⟨-, -, hout⟩
        exact hout ⟨hwin.1, by omega, hwin.2.2⟩
      · rename_i hwin
        simp only [true_iff]
        exact ⟨hlen, hram, fun hin => hwin ⟨hin.1, by omega, hin.2.2⟩⟩
    · rw [if_pos (by omega : ¬ (_ ∧ _))]
      simp [hram]
  · rw [if_neg hwrap] at hlast
    rw [if_pos (by rw [BitVec.lt_def, hlast]; omega)]
    simp only [Bool.false_eq_true, false_iff]
    omega

/-- `dma_device_view` on numbers. -/
theorem deviceView_cases (p len : Addr) :
    (len ≠ 0#64 ∧ Between 0x40000000 0x80000000 p len ∧ deviceView true p len = p + kAliasOffset) ∨
      (len = 0#64 ∨ ¬ Between 0x40000000 0x80000000 p len) ∧ deviceView true p len = p := by
  by_cases hlen : len = 0#64
  · refine Or.inr ⟨Or.inl hlen, ?_⟩
    unfold deviceView
    rw [if_pos (Or.inr hlen)]
  by_cases hram : Between 0x40000000 0x80000000 p len
  · exact Or.inl ⟨hlen, hram, (deviceView_ram hram.1 (BitVec.toNat_pos_of_ne_zero hlen) hram.2).1⟩
  · refine Or.inr ⟨Or.inr hram, ?_⟩
    have hlast := last_toNat (p := p) hlen
    have hpos := BitVec.toNat_pos_of_ne_zero hlen
    unfold Between at hram
    unfold deviceView
    split
    · rfl
    rw [Bool.not_true, if_neg Bool.false_ne_true]
    dsimp only
    by_cases hwrap : p.toNat + len.toNat ≤ 2 ^ 64
    · rw [if_pos hwrap] at hlast
      unfold kAliasStart kAliasEnd kNormalStart kNormalEnd
      simp only [BitVec.le_def, BitVec.lt_def, hlast, BitVec.toNat_ofNat]
      split
      · rfl
      split
      · rfl
      · rw [if_neg (by omega)]
    · rw [if_neg hwrap] at hlast
      rw [if_pos (by rw [BitVec.lt_def, hlast]; omega)]

/-! ## virt -/

variable {L : Layout} {mmfr0 : BitVec 64}

theorem byte_toNat {i : Nat} (h : p.toNat + len.toNat ≤ 2 ^ 64) (hi : i < len.toNat) : (p + BitVec.ofNat 64 i).toNat = p.toNat + i := by
  rw [BitVec.toNat_add, BitVec.toNat_ofNat]
  omega

/-- A range whose bytes are mapped does not wrap around. -/
theorem mapped_no_wrap {b : Board} {w : Window b} (hs : ∀ va : Addr, s.access va = baseMap w va.toNat) (h : AllMapped s p len) :
    p.toNat + len.toNat ≤ 2 ^ 64 := by
  by_contra hwrap
  have hp := p.isLt
  have hlen := len.isLt
  have hlast := h (2 ^ 64 - 1 - p.toNat) (by omega)
  have htop : (p + BitVec.ofNat 64 (2 ^ 64 - 1 - p.toNat)).toNat = 2 ^ 64 - 1 := by
    rw [BitVec.toNat_add, BitVec.toNat_ofNat]
    omega
  rw [hs, htop, Mmu.baseMap_high w (by decide)] at hlast
  cases hlast

/-- The test of the driver is exact. -/
theorem maint_exact (hs : ∀ va : Addr, s.access va = baseMap w va.toNat) (p len : Addr) :
    dmaCacheMaintAllowed w p len = true ↔ p ≠ 0#64 ∧ len ≠ 0#64 ∧ p.toNat + len.toNat ≤ 2 ^ 64 ∧ AllCacheable s p len := by
  rw [maint_iff]
  constructor
  · rintro ⟨hlen, hram, hwin⟩
    obtain ⟨hlo, hhi⟩ := hram
    have hwrap : p.toNat + len.toNat ≤ 2 ^ 64 := by omega
    refine ⟨?_, hlen, hwrap, fun i hi => ?_⟩
    · rintro rfl
      simp at hlo
    · refine ⟨_, (hs _).trans (baseMap_ram w ?_), ?_⟩
      · rw [byte_toNat hwrap hi]
        exact ⟨by omega, by omega⟩
      · rw [byte_toNat hwrap hi]
        unfold Mmu.ramPage
        split
        · rename_i hin
          exact if_neg fun hnc => hwin ⟨hnc, by unfold Window.Inside at hin; omega, by unfold Window.Inside at hin; omega⟩
        · rfl
  · rintro ⟨-, hlen, hwrap, hall⟩
    have hcache : Cacheable w p len := by
      intro i hi
      obtain ⟨pg, hpg, ht⟩ := hall i hi
      rw [hs, byte_toNat hwrap hi] at hpg
      exact ⟨pg, hpg, ht⟩
    exact (maint_iff w p len).mp (maintAllowed hcache hlen)

/-- A range of RAM and its alias. -/
theorem alias_bytes (hs : ∀ va : Addr, s.access va = baseMap w va.toNat) (h : Between 0x40000000 0x80000000 p len) {i : Nat}
    (hi : i < len.toNat) :
    s.access (p + BitVec.ofNat 64 i) = some (Mmu.ramPage w (p.toNat + i)) ∧
      s.access (p + kAliasOffset + BitVec.ofNat 64 i) = some (Mmu.aliasPage (p.toNat + i)) := by
  obtain ⟨hlo, hhi⟩ := h
  obtain ⟨-, hoff⟩ := deviceView_ram hlo (by omega) hhi
  have hram : InRam (p.toNat + i) := ⟨by omega, by omega⟩
  have halias : (p + kAliasOffset + BitVec.ofNat 64 i).toNat = p.toNat + i + 0x40000000 := by
    rw [add_toNat hi (by omega), hoff]
    omega
  refine ⟨?_, ?_⟩
  · rw [hs, byte_toNat (by omega) hi]
    exact baseMap_ram w hram
  · obtain ⟨h1, h2⟩ := hram
    rw [hs, halias]
    unfold Mmu.baseMap
    dsimp only
    rw [if_neg (by omega), if_neg (by omega), if_pos (by omega), Nat.add_sub_cancel]

/-- The device sees the same bytes, and RAM past the cache. -/
theorem view_exact (hs : ∀ va : Addr, s.access va = baseMap w va.toNat) (h : AllMapped s p len) :
    SameBytes s p (deviceView true p len) len fun pg =>
      Between 0x40000000 0x80000000 p len ∨ Between 0x80000000 0xC0000000 p len → pg.type = .normalNc := by
  intro i hi
  rcases deviceView_cases p len with ⟨-, hram, hv⟩ | ⟨hout, hv⟩
  · obtain ⟨hbyte, halias⟩ := alias_bytes hs hram hi
    rw [hv]
    exact ⟨_, _, hbyte, halias, (ramPage_pa w _).symm, fun _ => rfl⟩
  · obtain ⟨pg, hpg⟩ := Option.isSome_iff_exists.mp (h i hi)
    rw [hv]
    refine ⟨pg, pg, hpg, hpg, rfl, ?_⟩
    rintro (hram | ⟨hlo, hhi⟩)
    · rcases hout with rfl | hout
      · simp at hi
      · exact absurd hram hout
    · rw [hs, byte_toNat (by omega) hi] at hpg
      unfold Mmu.baseMap at hpg
      dsimp only at hpg
      rw [if_neg (by omega), if_neg (by omega), if_pos (by omega)] at hpg
      rw [← Option.some.inj hpg]
      rfl

/-! ## The window and its alias -/

theorem contains_iff : windowContainsRange w p len = true ↔ len ≠ 0#64 ∧ Between w.start.toNat (w.start.toNat + 0x20000) p len := by
  have habove := w.above
  have hbelow := w.below
  rw [Mmu.ram_virt] at habove hbelow
  unfold windowContainsRange Between
  by_cases hlen : len = 0#64
  · simp [hlen]
  by_cases hp : p = 0#64
  · subst hp
    simp
    omega
  have hlast := last_toNat (p := p) hlen
  have hpos := BitVec.toNat_pos_of_ne_zero hlen
  have hstop := Mmu.stop_toNat w
  rw [if_neg (by simp [hp, hlen])]
  dsimp only
  by_cases hwrap : p.toNat + len.toNat ≤ 2 ^ 64
  · rw [if_pos hwrap] at hlast
    rw [if_neg (by rw [BitVec.lt_def, hlast]; omega)]
    simp only [BitVec.le_def, BitVec.lt_def, hlast, hstop, decide_eq_true_eq]
    refine ⟨fun h => ⟨hlen, h.1, by omega⟩, fun h => ⟨h.2.1, by omega⟩⟩
  · rw [if_neg hwrap] at hlast
    have hp' := p.isLt
    have hlen' := len.isLt
    rw [if_pos (by rw [BitVec.lt_def, hlast]; omega)]
    simp only [Bool.false_eq_true, false_iff]
    omega

theorem contains_ram (h : windowContainsRange w p len = true) : Between 0x40000000 0x80000000 p len := by
  have habove := w.above
  have hbelow := w.below
  rw [Mmu.ram_virt] at habove hbelow
  obtain ⟨-, hlo, hhi⟩ := contains_iff.mp h
  exact ⟨by omega, by omega⟩

theorem contains_ne_zero (h : windowContainsRange w p len = true) : p ≠ 0#64 := by
  rintro rfl
  have hlo := (contains_ram h).1
  simp at hlo

/-- The conversion to the alias, where it is not null. -/
theorem to_alias_iff : windowToNocacheAlias w p len = q ∧ q ≠ 0#64 ↔ windowContainsRange w p len = true ∧ q = p + kAliasOffset := by
  unfold windowToNocacheAlias
  constructor
  · rintro ⟨he, hne⟩
    cases hc : windowContainsRange w p len with
    | true =>
      rw [hc] at he
      exact ⟨rfl, he.symm⟩
    | false =>
      rw [hc] at he
      exact absurd he.symm hne
  · rintro ⟨hc, rfl⟩
    refine ⟨by rw [hc]; rfl, fun hz => ?_⟩
    obtain ⟨hlo, hhi⟩ := contains_ram hc
    have hn := (deviceView_ram hlo (BitVec.toNat_pos_of_ne_zero (contains_iff.mp hc).1) hhi).2
    rw [hz] at hn
    simp at hn

/-- The conversion back. -/
theorem from_alias_iff : windowFromNocacheAlias w q len = p ∧ p ≠ 0#64 ↔ windowContainsRange w p len = true ∧ q = p + kAliasOffset := by
  unfold windowFromNocacheAlias
  constructor
  · rintro ⟨he, hne⟩
    split at he
    · exact absurd he.symm hne
    dsimp only at he
    split at he
    · exact absurd he.symm hne
    split at he
    · rename_i hc
      subst he
      exact ⟨hc, (BitVec.sub_add_cancel _ _).symm⟩
    · exact absurd he.symm hne
  · rintro ⟨hc, rfl⟩
    obtain ⟨hlen, -⟩ := contains_iff.mp hc
    obtain ⟨hlo, hhi⟩ := contains_ram hc
    have hn := (deviceView_ram hlo (BitVec.toNat_pos_of_ne_zero hlen) hhi).2
    refine ⟨?_, contains_ne_zero hc⟩
    rw [if_neg, BitVec.add_sub_cancel]
    · dsimp only
      rw [if_neg (by rw [BitVec.lt_def, hn]; omega), if_pos hc]
    · rintro (hz | hz)
      · rw [hz] at hn
        simp at hn
      · exact hlen hz

/-- The ranges that are converted back are the images of those of the window. -/
theorem from_alias_range : windowFromNocacheAlias w q len ≠ 0#64 ↔
    len ≠ 0#64 ∧ Between (w.start.toNat + 0x40000000) (w.start.toNat + 0x20000 + 0x40000000) q len := by
  have habove := w.above
  have hbelow := w.below
  rw [Mmu.ram_virt] at habove hbelow
  constructor
  · intro h
    obtain ⟨hc, hq⟩ := from_alias_iff.mp ⟨rfl, h⟩
    obtain ⟨hlen, hlo, hhi⟩ := contains_iff.mp hc
    obtain ⟨hram, hram'⟩ := contains_ram hc
    have hn := (deviceView_ram hram (BitVec.toNat_pos_of_ne_zero hlen) hram').2
    rw [← hq] at hn
    exact ⟨hlen, by omega, by omega⟩
  · rintro ⟨hlen, hlo, hhi⟩
    have hn : (q - kAliasOffset).toNat = q.toNat - 0x40000000 := by
      unfold kAliasOffset
      bv_omega
    have hc : windowContainsRange w (q - kAliasOffset) len = true := contains_iff.mpr ⟨hlen, by omega, by omega⟩
    obtain ⟨he, hne⟩ := from_alias_iff.mpr ⟨hc, (BitVec.sub_add_cancel q kAliasOffset).symm⟩
    rw [he]
    exact hne

/-- On virt, with the tables as built, the rules of the driver and of the header are those
    of the page tables. -/
theorem rules_match_virt (L : Layout) (w : Window .virt) (mmfr0 : BitVec 64) (s : State) (hoff : s.enabled = false) :
    let s₀ := mmuInit .virt L w mmfr0 true s
    (∀ p len : Addr, dmaCacheMaintAllowed w p len = true ↔
      p ≠ 0#64 ∧ len ≠ 0#64 ∧ p.toNat + len.toNat ≤ 2 ^ 64 ∧ AllCacheable s₀ p len) ∧
    (∀ p len : Addr, AllMapped s₀ p len → SameBytes s₀ p (deviceView s₀.enabled p len) len fun pg =>
      Between 0x40000000 0x80000000 p len ∨ Between 0x80000000 0xC0000000 p len → pg.type = .normalNc) ∧
    (∀ p len : Addr, windowToNocacheAlias w p len ≠ 0#64 ↔ len ≠ 0#64 ∧ Between w.start.toNat (w.start.toNat + 0x20000) p len) ∧
    (∀ q len : Addr, windowFromNocacheAlias w q len ≠ 0#64 ↔
      len ≠ 0#64 ∧ Between (w.start.toNat + 0x40000000) (w.start.toNat + 0x20000 + 0x40000000) q len) ∧
    (∀ p q len : Addr, windowToNocacheAlias w p len = q ∧ q ≠ 0#64 ↔ windowFromNocacheAlias w q len = p ∧ p ≠ 0#64) ∧
    ∀ p len : Addr, windowToNocacheAlias w p len ≠ 0#64 → SameBytes s₀ p (windowToNocacheAlias w p len) len fun _ => True := by
  intro s₀
  have hs : ∀ va : Addr, s₀.access va = baseMap w va.toNat := Mmu.access_built w mmfr0 hoff
  have hon : s₀.enabled = true := (Mmu.mmuInit_mapped w mmfr0 hoff).enabled
  rw [hon]
  refine ⟨fun p len => maint_exact hs p len, fun p len h => view_exact hs h, fun p len => ?_, fun q len => ?_,
    fun p q len => to_alias_iff.trans from_alias_iff.symm, fun p len h => ?_⟩
  · rw [← contains_iff]
    exact ⟨fun h => (to_alias_iff.mp ⟨rfl, h⟩).1, fun h => (to_alias_iff.mpr ⟨h, rfl⟩).1 ▸ (to_alias_iff.mpr ⟨h, rfl⟩).2⟩
  · exact from_alias_range
  · obtain ⟨hc, hq⟩ := to_alias_iff.mp ⟨rfl, h⟩
    rw [hq]
    intro i hi
    obtain ⟨hbyte, halias⟩ := alias_bytes hs (contains_ram hc) hi
    exact ⟨_, _, hbyte, halias, (ramPage_pa w _).symm, trivial⟩

/-! ## The Raspberry Pi 4 -/

section
variable {w : Window .rpi4}

theorem baseMap_low {a : Nat} (h : a < 0x40000000) : baseMap w a = some (Mmu.ramPage w a) := by
  unfold Mmu.baseMap
  exact if_pos h

theorem baseMap_lowAlias {a : Nat} (h : 0x40000000 ≤ a) (h' : a < 0x80000000) : baseMap w a = some (Mmu.aliasPage (a - 0x40000000)) := by
  unfold Mmu.baseMap
  dsimp only
  rw [if_neg (by omega), if_pos h']

theorem baseMap_gap {a : Nat} (h : 0x80000000 ≤ a) (h' : a < 0xC0000000) : baseMap w a = none := by
  unfold Mmu.baseMap
  dsimp only
  rw [if_neg (by omega), if_neg (by omega), if_pos h']

theorem baseMap_device {a : Nat} (h : 0xC0000000 ≤ a) {pg : Page} (hm : baseMap w a = some pg) : pg.type ≠ .normalWb := by
  unfold Mmu.baseMap at hm
  dsimp only at hm
  rw [if_neg (by omega), if_neg (by omega), if_neg (by omega)] at hm
  split at hm
  · rw [← Option.some.inj hm]
    exact devicePage_type a
  · cases hm

/-- The driver's rules about one range of mapped bytes. -/
def Rules (s : State) (w : Window .rpi4) (p len : Addr) : Prop :=
  (dmaCacheMaintAllowed w p len = true ↔ AllCacheable s p len) ∧
    SameBytes s p (deviceView s.enabled p len) len fun pg =>
      Between 0 0x40000000 p len ∨ Between 0x40000000 0x80000000 p len → pg.type = .normalNc

/-- The ranges for which virt's constants are right: across the boundary of RAM and alias,
    among the devices, or in a window that is not cacheable. -/
def Exempt (w : Window .rpi4) (p len : Addr) : Prop :=
  len ≠ 0#64 ∧
    (p.toNat < 0x40000000 ∧ 0x40000000 < p.toNat + len.toNat ∨ 0x80000000 ≤ p.toNat ∨
      w.policy = .noncacheable ∧ Between w.start.toNat (w.start.toNat + 0x20000) p len)

/-- Mapped ranges lie in the lower two GiB or among the devices. -/
theorem mapped_regions (hs : ∀ va : Addr, s.access va = baseMap w va.toNat) (hlen : len ≠ 0#64) (h : AllMapped s p len) :
    p.toNat + len.toNat ≤ 2 ^ 64 ∧ (p.toNat + len.toNat ≤ 0x80000000 ∨ 0xC0000000 ≤ p.toNat) := by
  have hwrap := mapped_no_wrap hs h
  have hpos := BitVec.toNat_pos_of_ne_zero hlen
  have hbyte : ∀ i < len.toNat, 0x80000000 ≤ p.toNat + i → p.toNat + i < 0xC0000000 → False := by
    intro i hi h1 h2
    have hm := h i hi
    rw [hs, byte_toNat hwrap hi, baseMap_gap h1 h2] at hm
    cases hm
  refine ⟨hwrap, ?_⟩
  by_contra hno
  by_cases hlow : p.toNat < 0x80000000
  · exact hbyte (0x80000000 - p.toNat) (by omega) (by omega) (by omega)
  · exact hbyte 0 hpos (by omega) (by omega)

/-- A range that the device view leaves as it is. -/
theorem same_view (hm : AllMapped s p len) (hon : s.enabled = true) (hout : ¬ Between 0x40000000 0x80000000 p len) {φ : Page → Prop}
    (hφ : ∀ i < len.toNat, ∀ pg, s.access (p + BitVec.ofNat 64 i) = some pg → φ pg) :
    SameBytes s p (deviceView s.enabled p len) len φ := by
  intro i hi
  obtain ⟨pg, hpg⟩ := Option.isSome_iff_exists.mp (hm i hi)
  rcases deviceView_cases p len with ⟨-, hram, -⟩ | ⟨-, hv⟩
  · exact absurd hram hout
  · rw [hon, hv]
    exact ⟨pg, pg, hpg, hpg, rfl, hφ i hi pg hpg⟩

theorem not_cacheable (hs : ∀ va : Addr, s.access va = baseMap w va.toNat) (hwrap : p.toNat + len.toNat ≤ 2 ^ 64) {i : Nat}
    (hi : i < len.toNat) (ht : ∀ pg, baseMap w (p.toNat + i) = some pg → pg.type ≠ .normalWb) : ¬ AllCacheable s p len := by
  intro hall
  obtain ⟨pg, hpg, hwb⟩ := hall i hi
  rw [hs, byte_toNat hwrap hi] at hpg
  exact ht pg hpg hwb

theorem lowAlias_type {a : Nat} (h : 0x40000000 ≤ a) (h' : a < 0x80000000) {pg : Page} (hm : baseMap w a = some pg) : pg.type ≠ .normalWb := by
  rw [baseMap_lowAlias h h'] at hm
  rw [← Option.some.inj hm]
  exact aliasPage_type _

/-- Outside the constants' RAM maintenance is refused. -/
theorem maint_refused (hout : ¬ Between 0x40000000 0x80000000 p len) : ¬ dmaCacheMaintAllowed w p len = true :=
  fun h => hout ((maint_iff w p len).mp h).2.1

/-- In low RAM the rules hold in a window that is not cacheable, and nowhere else. -/
theorem rules_lowram (hs : ∀ va : Addr, s.access va = baseMap w va.toNat) (hon : s.enabled = true) (hlen : len ≠ 0#64)
    (hm : AllMapped s p len) (hlow : p.toNat + len.toNat ≤ 0x40000000) :
    Rules s w p len ↔ w.policy = .noncacheable ∧ Between w.start.toNat (w.start.toNat + 0x20000) p len := by
  have hpos := BitVec.toNat_pos_of_ne_zero hlen
  have hout : ¬ Between 0x40000000 0x80000000 p len := fun h => by unfold Between at h; omega
  have hbyte : ∀ i < len.toNat, s.access (p + BitVec.ofNat 64 i) = some (Mmu.ramPage w (p.toNat + i)) := by
    intro i hi
    rw [hs, byte_toNat (by omega) hi]
    exact baseMap_low (by omega)
  constructor
  · rintro ⟨-, hview⟩
    -- the bytes are seen in their place, and must not be cacheable there
    have hin : ∀ i < len.toNat, w.Inside (p.toNat + i) ∧ w.policy = .noncacheable := by
      intro i hi
      obtain ⟨-, pg, -, hpg, -, ht⟩ := hview i hi
      rcases deviceView_cases p len with ⟨-, hram, -⟩ | ⟨-, hv⟩
      · exact absurd hram hout
      rw [hon, hv, hbyte i hi] at hpg
      have hnc := ht (Or.inl ⟨Nat.zero_le _, hlow⟩)
      rw [← Option.some.inj hpg] at hnc
      unfold Mmu.ramPage at hnc
      split at hnc
      · rename_i hinside
        dsimp only at hnc
        split at hnc
        · rename_i hpol
          exact ⟨hinside, hpol⟩
        · cases hnc
      · cases hnc
    have hfirst := hin 0 hpos
    have hlast := hin (len.toNat - 1) (by omega)
    obtain ⟨⟨hlo, -⟩, hpol⟩ := hfirst
    obtain ⟨⟨-, hhi⟩, -⟩ := hlast
    exact ⟨hpol, by omega, by omega⟩
  · rintro ⟨hpol, hlo, hhi⟩
    have hnc : ∀ i < len.toNat, (Mmu.ramPage w (p.toNat + i)).type = .normalNc := by
      intro i hi
      unfold Mmu.ramPage
      rw [if_pos ⟨by omega, by omega⟩, if_pos hpol]
    refine ⟨iff_of_false (maint_refused hout) ?_, same_view hm hon hout fun i hi pg hpg _ => ?_⟩
    · refine not_cacheable hs (by omega) hpos fun pg hpg => ?_
      rw [baseMap_low (by omega)] at hpg
      rw [← Option.some.inj hpg, hnc 0 hpos]
      exact fun h => by cases h
    · rw [hbyte i hi] at hpg
      rw [← Option.some.inj hpg]
      exact hnc i hi

/-- On the Raspberry Pi 4, with the tables as built, the driver's rules hold of a range of
    mapped bytes if and only if virt's constants happen not to matter for it. -/
theorem rules_match_rpi4 (L : Layout) (w : Window .rpi4) (mmfr0 : BitVec 64) (s : State) (hoff : s.enabled = false) (p len : Addr)
    (hm : AllMapped (mmuInit .rpi4 L w mmfr0 true s) p len) : Rules (mmuInit .rpi4 L w mmfr0 true s) w p len ↔ Exempt w p len := by
  have hs : ∀ va : Addr, (mmuInit .rpi4 L w mmfr0 true s).access va = baseMap w va.toNat := Mmu.access_built w mmfr0 hoff
  have hon : (mmuInit .rpi4 L w mmfr0 true s).enabled = true := (Mmu.mmuInit_mapped w mmfr0 hoff).enabled
  generalize mmuInit .rpi4 L w mmfr0 true s = s₀ at hm hs hon ⊢
  have hbelow := w.below
  have hram : Board.rpi4.ram = 0 := rfl
  rw [hram] at hbelow
  unfold Exempt
  by_cases hlen : len = 0#64
  · -- the empty range is refused, though all of its bytes are cacheable
    subst hlen
    refine iff_of_false (fun h => ?_) fun h => h.1 rfl
    exact ((maint_iff w p 0#64).mp (h.1.mpr fun i hi => absurd hi (by simp))).1 rfl
  have hpos := BitVec.toNat_pos_of_ne_zero hlen
  obtain ⟨hwrap, hregion⟩ := mapped_regions hs hlen hm
  by_cases hlow : p.toNat + len.toNat ≤ 0x40000000
  · rw [rules_lowram hs hon hlen hm hlow]
    refine ⟨fun h => ⟨hlen, Or.inr (Or.inr h)⟩, fun h => ?_⟩
    rcases h.2 with h | h | h
    · omega
    · omega
    · exact h
  by_cases halias : Between 0x40000000 0x80000000 p len
  · -- maintenance is allowed on the alias
    obtain ⟨hlo, hhi⟩ := halias
    refine iff_of_false (fun h => ?_) fun h => ?_
    · have hallowed := (maint_iff w p len).mpr ⟨hlen, ⟨hlo, hhi⟩, fun hwin => by omega⟩
      exact not_cacheable hs hwrap hpos (fun pg hpg => lowAlias_type (by omega) (by omega) hpg) (h.1.mp hallowed)
    · rcases h.2 with h | h | ⟨-, h⟩
      · omega
      · omega
      · unfold Between at h
        omega
  · have hexempt : p.toNat < 0x40000000 ∧ 0x40000000 < p.toNat + len.toNat ∨ 0x80000000 ≤ p.toNat := by
      unfold Between at halias
      omega
    refine iff_of_true ⟨iff_of_false (maint_refused halias) ?_, same_view hm hon halias fun i hi pg hpg hin => ?_⟩
      ⟨hlen, hexempt.imp_right Or.inl⟩
    · rcases hexempt with ⟨h1, h2⟩ | h
      · refine not_cacheable hs hwrap (i := 0x40000000 - p.toNat) (by omega) fun pg hpg => lowAlias_type (by omega) (by omega) hpg
      · exact not_cacheable hs hwrap hpos fun pg hpg => baseMap_device (by omega) hpg
    · unfold Between at hin halias
      omega

end

/-! ## A buffer in low RAM -/

def lowWindow : Window .rpi4 where
  start := 0x00200000#64
  policy := .cacheable
  aligned := by decide
  above := by decide
  below := by decide

/-- The Raspberry Pi 4 after mmu_init. -/
def lowBoot : State := mmuInit .rpi4 Mmu.sampleLayout lowWindow 0#64 true ⟨fun _ => 0#64, 0, 0#64, 0#64, 0#64, 0#64⟩

theorem lowBoot_access (va : Addr) : lowBoot.access va = baseMap lowWindow va.toNat := Mmu.access_built lowWindow 0#64 rfl va

/-- The 64 bytes at 0x1000. -/
theorem lowBoot_bytes : ∀ i < (64#64 : Addr).toNat, ∃ pg, lowBoot.access (0x1000#64 + BitVec.ofNat 64 i) = some pg ∧ pg.type = .normalWb := by
  intro i hi
  have hlt : i < 64 := hi
  refine ⟨_, (lowBoot_access _).trans (baseMap_low ?_), ?_⟩
  · rw [byte_toNat (by decide) hi]
    exact (by omega : 0x1000 + i < 0x40000000)
  · unfold Mmu.ramPage
    split <;> rfl

theorem rules_match_rpi4_low : Rules lowBoot lowWindow 0x1000#64 64#64 ↔ Exempt lowWindow 0x1000#64 64#64 := by
  refine rules_match_rpi4 Mmu.sampleLayout lowWindow 0#64 _ rfl _ _ fun i hi => ?_
  obtain ⟨pg, hpg, -⟩ := lowBoot_bytes i hi
  exact Option.isSome_iff_exists.mpr ⟨pg, hpg⟩

/-- Every byte of it is cacheable, and the driver does no maintenance there. -/
theorem lowram_refused : AllCacheable lowBoot 0x1000#64 64#64 ∧ dmaCacheMaintAllowed lowWindow 0x1000#64 64#64 = false :=
  ⟨lowBoot_bytes, by decide⟩

/-- A buffer in RAM of virt. -/
theorem rules_match_virt_ram :
    let s₀ := mmuInit .virt Mmu.sampleLayout Mmu.sampleWindow 0#64 true ⟨fun _ => 0#64, 0, 0#64, 0#64, 0#64, 0#64⟩
    AllCacheable s₀ 0x40000000#64 64#64 := by
  intro s₀
  obtain ⟨hmaint, -⟩ := rules_match_virt Mmu.sampleLayout Mmu.sampleWindow 0#64 ⟨fun _ => 0#64, 0, 0#64, 0#64, 0#64, 0#64⟩ rfl
  exact ((hmaint _ _).mp (by decide)).2.2.2

end Microkernel.Dma

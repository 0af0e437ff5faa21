/-
  Microkernel.Mmu.Map — the tables mean the memory map (see `Mmu.Tables`).

  `baseMap` is the map that the comments of the two files describe, as a function of the
  address. `Mapped` says how the tables hold it: every 2 MiB block of RAM is a block
  descriptor or has a table of its own, whose entries are the block's pages, cleared for
  the pages that are guarded. Splitting a block only changes which of the two it is, so
  the walk gives the same (`Mapped.translate`).

  - `build_mapped`: the tables as built satisfy it, with no page guarded.
  - `guard_mapped`: `mmu_guard_page` keeps it, and adds the page if it returns 0.
  - `tables_mean_map`: so after any calls the walk is the base map without the pages for
    which a call returned 0.
-/

import Microkernel.Mmu.Tables

namespace Microkernel.Mmu

open Translation

/-! ## The documented map -/

def devicePage (pa : Nat) : Page := ⟨pa, .deviceNGnRE, 0#64, false, false, true, true⟩

/-- The alias is neither cacheable nor executable. -/
def aliasPage (pa : Nat) : Page := ⟨pa, .normalNc, 3#64, false, false, true, true⟩

def Window.Inside {b : Board} (w : Window b) (va : Nat) : Prop := w.start.toNat ≤ va ∧ va < w.start.toNat + 0x20000

instance {b : Board} (w : Window b) (va : Nat) : Decidable (w.Inside va) := inferInstanceAs (Decidable (_ ∧ _))

/-- RAM in its place: the window is not executable, and cacheable as its policy says. -/
def ramPage {b : Board} (w : Window b) (va : Nat) : Page :=
  if w.Inside va then ⟨va, if w.policy = .noncacheable then .normalNc else .normalWb, 3#64, false, false, true, true⟩
  else ⟨va, .normalWb, 3#64, false, false, false, false⟩

def baseMap {b : Board} (w : Window b) (va : Nat) : Option Page :=
  match b with
  | .virt =>
    if va < 0x40000000 then some (devicePage va)
    else if va < 0x80000000 then some (ramPage w va)
    else if va < 0xC0000000 then some (aliasPage (va - 0x40000000))
    else none
  | .rpi4 =>
    if va < 0x40000000 then some (ramPage w va)
    else if va < 0x80000000 then some (aliasPage (va - 0x40000000))
    else if va < 0xC0000000 then none
    else if va < 0x100000000 then some (devicePage va)
    else none

variable {b : Board} {L : Layout} {w : Window b} {m : Words} {s : State}

/-! ## Descriptors -/

/-- The attribute bits of a page or block descriptor. -/
def leafAttrs (type attrIndex sh xn : BitVec 64) : BitVec 64 :=
  type ||| (attrIndex <<< 2) ||| kApKernelRw ||| (sh <<< 8) ||| kAf ||| xn

theorem pteTable_eq (x : BitVec 64) : pteTable x = desc x 3#64 := rfl

theorem ptePage_eq (p a sh xn : BitVec 64) : ptePage p a sh ||| xn = desc p (leafAttrs 3#64 a sh xn) := by
  unfold ptePage desc leafAttrs addrMask
  simp only [BitVec.or_assoc]

theorem pteBlock_eq (p a sh xn : BitVec 64) : pteBlock p a sh ||| xn = desc p (leafAttrs 1#64 a sh xn) := by
  unfold pteBlock desc leafAttrs addrMask
  simp only [BitVec.or_assoc]

theorem leaf_desc (mair : BitVec 64) (n : Nat) (p : BitVec 64) {a : BitVec 64} (va : Nat) (ha : a &&& addrMask = 0#64)
    (haf : a.getLsbD 10 = true) :
    leaf mair n (desc p a) va = some ⟨(p &&& addrMask).toNat / span n * span n + va % span n, memType (mairByte mair a),
      (a >>> 8) &&& 3#64, a.getLsbD 7, a.getLsbD 6, a.getLsbD 53, a.getLsbD 54⟩ := by
  unfold leaf
  rw [attrs_desc p ha, base_desc p ha]
  dsimp only
  rw [if_pos haf]

/-- The page that a leaf descriptor of this kernel stands for. -/
def attrPage (a : BitVec 64) (pa : Nat) : Page :=
  ⟨pa, memType (mairByte mairValue a), (a >>> 8) &&& 3#64, a.getLsbD 7, a.getLsbD 6, a.getLsbD 53, a.getLsbD 54⟩

/-- An aligned descriptor maps its whole span. -/
theorem leaf_aligned {n : Nat} {p a : BitVec 64} {va : Nat} (ha : a &&& addrMask = 0#64) (haf : a.getLsbD 10 = true)
    (hp : 4096 ∣ p.toNat) (hlt : p.toNat < 2 ^ 48) (hs : span n ∣ p.toNat) :
    leaf mairValue n (desc p a) va = some (attrPage a (p.toNat + va % span n)) := by
  rw [leaf_desc _ _ _ _ ha haf, and_addrMask hp hlt, Nat.div_mul_cancel hs]
  rfl

/-- What a table descriptor of this kernel takes away: nothing. -/
theorem restrict_table (x : BitVec 64) (p : Page) : restrict (pteTable x) p = p := by
  unfold restrict
  rw [pteTable_eq, attrs_desc x (by decide)]
  have h1 : (3#64).getLsbD 62 = false := by decide
  have h2 : (3#64).getLsbD 61 = false := by decide
  have h3 : (3#64).getLsbD 59 = false := by decide
  have h4 : (3#64).getLsbD 60 = false := by decide
  dsimp only
  rw [h1, h2, h3, h4]
  simp

/-- Following a table descriptor. -/
theorem walk_pteTable {t : BitVec 64} {n va : Nat} (tb : Table) (h : entry m t (index (n + 1) va) = pteTable (L.addr tb)) :
    walk m mairValue (n + 1) t va = walk m mairValue n (L.addr tb) va := by
  have hd : attrs (pteTable (L.addr tb)) &&& 3#64 = 3#64 := by
    rw [pteTable_eq, attrs_desc _ (by decide)]
    decide
  have hb : base (pteTable (L.addr tb)) = L.addr tb := by
    rw [pteTable_eq, base_desc _ (by decide), and_addrMask (L.aligned tb) (L.small tb)]
  rw [walk_table h hd, hb]
  cases walk m mairValue n (L.addr tb) va with
  | none => rfl
  | some p => exact congrArg some (restrict_table _ p)

theorem walk_zero {t : BitVec 64} {n va : Nat} (h : entry m t (index n va) = 0#64) : walk m mairValue n t va = none :=
  walk_invalid h (by decide)

/-! ## Addresses -/

theorem ramBase_toNat (b : Board) : b.ramBase.toNat = b.ram := by cases b <;> rfl

theorem ram_virt : Board.virt.ram = 0x40000000 := rfl

theorem ram_rpi4 : Board.rpi4.ram = 0 := rfl

theorem ram_le (b : Board) : b.ram ≤ 2 ^ 30 := by cases b <;> decide

theorem ram_dvd (b : Board) : 2 ^ 30 ∣ b.ram := by cases b <;> decide

theorem blockAddr_toNat {j : Nat} (hj : j < 512) : (blockAddr b j).toNat = b.ram + j * 2 ^ 21 := by
  have hle := ram_le b
  have hsize : kL2BlockSize.toNat = 2 ^ 21 := by decide
  unfold blockAddr
  rw [BitVec.toNat_add, BitVec.toNat_mul, BitVec.toNat_ofNat, ramBase_toNat, hsize]
  omega

theorem pageAddr_toNat {a : BitVec 64} {i : Nat} (hi : i < 512) (ha : a.toNat < 2 ^ 32) : (pageAddr a i).toNat = a.toNat + i * 2 ^ 12 := by
  have hsize : kPageSize.toNat = 2 ^ 12 := by decide
  unfold pageAddr
  rw [BitVec.toNat_add, BitVec.toNat_mul, BitVec.toNat_ofNat, hsize]
  omega

/-- Page `i` of block `j`. -/
theorem ramAddr_toNat {i j : Nat} (hj : j < 512) (hi : i < 512) : (pageAddr (blockAddr b j) i).toNat = b.ram + j * 2 ^ 21 + i * 2 ^ 12 := by
  have hle := ram_le b
  have hb := blockAddr_toNat (b := b) hj
  rw [pageAddr_toNat hi (by omega), hb]

theorem span_zero : span 0 = 2 ^ 12 := rfl
theorem span_one : span 1 = 2 ^ 21 := rfl
theorem span_two : span 2 = 2 ^ 30 := rfl
theorem span_three : span 3 = 2 ^ 39 := rfl

theorem stop_toNat (w : Window b) : w.stop.toNat = w.start.toNat + 0x20000 := by
  have hbelow := w.below
  have hle := ram_le b
  unfold Window.stop
  rw [BitVec.toNat_add, BitVec.toNat_ofNat]
  omega

/-- An address of RAM is in the block that the walk selects. -/
theorem ram_block {va : Nat} (hlo : b.ram ≤ va) (hhi : va < b.ram + 2 ^ 30) : b.ram + index 1 va * 2 ^ 21 + va % 2 ^ 21 = va := by
  obtain ⟨c, hc⟩ := ram_dvd b
  unfold index
  rw [span_one]
  omega

/-- And in the page. -/
theorem ram_page {va : Nat} (hlo : b.ram ≤ va) (hhi : va < b.ram + 2 ^ 30) :
    b.ram + index 1 va * 2 ^ 21 + index 0 va * 2 ^ 12 = va / 4096 * 4096 := by
  obtain ⟨c, hc⟩ := ram_dvd b
  unfold index
  rw [span_zero, span_one]
  omega

/-- Whole pages are in the window or off it. -/
theorem inside_page (w : Window b) {p va : Nat} (h : va / 4096 = p / 4096) : w.Inside va ↔ w.Inside p := by
  obtain ⟨c, hc⟩ := w.aligned
  unfold Window.Inside
  rw [hc]
  omega

/-! ## What the tables hold -/

/-- The number of page `i` of block `j`. -/
def pageNo (b : Board) (j i : Nat) : Nat := b.ram / 4096 + j * 512 + i

/-- The levels 0 and 1. -/
structure Top (b : Board) (L : Layout) (m : Words) : Prop where
  l0 : entry m (L.addr .l0) 0 = pteTable (L.addr .l1)
  l0_rest : ∀ i, 0 < i → i < 512 → entry m (L.addr .l0) i = 0#64
  l1 : ∀ e ∈ b.l1 L, entry m (L.addr .l1) e.1 = e.2
  l1_rest : ∀ i < 512, (∀ e ∈ b.l1 L, e.1 ≠ i) → entry m (L.addr .l1) i = 0#64

/-- Block `j` of RAM, with its table if it has one; `G` are the guarded pages. -/
def Block (L : Layout) (w : Window b) (m : Words) (G : Set Nat) (j : Nat) : Option Table → Prop
  | none => entry m (L.addr .l2) j = pteBlock (blockAddr b j) kAttrIdxNormal 3#64 ∧
      ∀ i < 512, pageNo b j i ∉ G ∧ ¬ w.Inside (b.ram + j * 2 ^ 21 + i * 2 ^ 12)
  | some t => entry m (L.addr .l2) j = pteTable (L.addr t) ∧
      ∀ i < 512, (pageNo b j i ∈ G → entry m (L.addr t) i = 0#64) ∧
        (pageNo b j i ∉ G → entry m (L.addr t) i = windowPte w (pageAddr (blockAddr b j) i))

/-- A table that has been handed out for a block. -/
def Table.Used (next : Nat) : Table → Prop
  | .dma0 => True
  | .dma1 => True
  | .extra k => k.val < next
  | _ => False

/-- The blocks, of which no two share a table. -/
structure Split (L : Layout) (w : Window b) (m : Words) (next : Nat) (G : Set Nat) (tbl : Nat → Option Table) : Prop where
  block : ∀ j < 512, Block L w m G j (tbl j)
  used : ∀ j < 512, ∀ t, tbl j = some t → t.Used next
  own : ∀ j < 512, ∀ j' < 512, ∀ t, tbl j = some t → tbl j' = some t → j = j'

structure Mapped (L : Layout) (w : Window b) (s : State) (G : Set Nat) : Prop where
  enabled : s.enabled = true
  mair : s.mair = mairValue
  ttbr0 : s.ttbr0 = L.addr .l0
  top : Top b L s.mem
  split : ∃ tbl, Split L w s.mem s.extraNext G tbl
  guards : ∀ p ∈ G, b.ram / 4096 ≤ p ∧ p < b.ram / 4096 + 2 ^ 18

/-! ## The walk -/

theorem Top.walk_zero (h : Top b L m) {va : Nat} (hva : va < 2 ^ 48) :
    walk m mairValue 3 (L.addr .l0) va = if va < 2 ^ 39 then walk m mairValue 2 (L.addr .l1) va else none := by
  by_cases hlow : va < 2 ^ 39
  · have hi : index 3 va = 0 := by
      unfold index
      rw [span_three]
      omega
    rw [if_pos hlow]
    exact walk_pteTable .l1 (by rw [hi]; exact h.l0)
  · rw [if_neg hlow]
    refine Mmu.walk_zero (h.l0_rest _ ?_ (index_lt 3 va))
    unfold index
    rw [span_three]
    omega

/-- A level 1 entry that is 0. -/
theorem Top.walk_rest (h : Top b L m) {va : Nat} (hi : ∀ e ∈ b.l1 L, e.1 ≠ index 2 va) : walk m mairValue 2 (L.addr .l1) va = none :=
  Mmu.walk_zero (h.l1_rest _ (index_lt 2 va) hi)

/-- A level 1 block. -/
theorem Top.walk_block (h : Top b L m) {i va : Nat} {p a sh xn : BitVec 64} (he : (i, pteBlock p a sh ||| xn) ∈ b.l1 L)
    (hi : index 2 va = i) (ha : leafAttrs 1#64 a sh xn &&& addrMask = 0#64) (haf : (leafAttrs 1#64 a sh xn).getLsbD 10 = true)
    (hblock : leafAttrs 1#64 a sh xn &&& 3#64 = 1#64) (hp : 2 ^ 30 ∣ p.toNat) (hlt : p.toNat < 2 ^ 48) :
    walk m mairValue 2 (L.addr .l1) va = some (attrPage (leafAttrs 1#64 a sh xn) (p.toNat + va % 2 ^ 30)) := by
  have hentry : entry m (L.addr .l1) (index 2 va) = desc p (leafAttrs 1#64 a sh xn) := by
    rw [hi, ← pteBlock_eq]
    exact h.l1 _ he
  have hpage : 4096 ∣ p.toNat := Nat.dvd_trans (by decide) hp
  have hleaf : leaf mairValue 2 (desc p (leafAttrs 1#64 a sh xn)) va = _ := leaf_aligned ha haf hpage hlt (span_two ▸ hp)
  rw [Translation.walk_block hentry (by rw [attrs_desc p ha]; exact hblock) (by decide), hleaf, span_two]

/-- The level 1 entry of RAM. -/
theorem Top.walk_ram (h : Top b L m) {va : Nat} (hlo : b.ram ≤ va) (hhi : va < b.ram + 2 ^ 30) :
    walk m mairValue 2 (L.addr .l1) va = walk m mairValue 1 (L.addr .l2) va := by
  refine walk_pteTable .l2 ?_
  cases b with
  | virt =>
    rw [ram_virt] at hlo hhi
    have hi : index 2 va = 1 := by
      unfold index
      rw [span_two]
      omega
    rw [hi]
    exact h.l1 (1, pteTable (L.addr .l2)) (by simp [Board.l1])
  | rpi4 =>
    rw [ram_rpi4] at hhi
    have hi : index 2 va = 0 := by
      unfold index
      rw [span_two]
      omega
    rw [hi]
    exact h.l1 (0, pteTable (L.addr .l2)) (by simp [Board.l1])

/-- The descriptor of a page of RAM maps it as the base map does. -/
theorem leaf_windowPte (w : Window b) {va : Nat} {p : BitVec 64} (hp : p.toNat = va / 4096 * 4096) (hva : va < 2 ^ 48) :
    attrs (windowPte w p) &&& 3#64 = 3#64 ∧ leaf mairValue 0 (windowPte w p) va = some (ramPage w va) := by
  have hdvd : 4096 ∣ p.toNat := ⟨va / 4096, by omega⟩
  have hlt : p.toNat < 2 ^ 48 := by omega
  have hpa : p.toNat + va % span 0 = va := by
    rw [span_zero, hp]
    omega
  have hleaf : ∀ a : BitVec 64, a &&& addrMask = 0#64 → a.getLsbD 10 = true → a &&& 3#64 = 3#64 →
      attrs (desc p a) &&& 3#64 = 3#64 ∧ leaf mairValue 0 (desc p a) va = some (attrPage a va) := by
    intro a ha haf hpage
    have hal : leaf mairValue 0 (desc p a) va = _ := leaf_aligned ha haf hdvd hlt hdvd
    rw [hal, hpa, attrs_desc p ha]
    exact ⟨hpage, rfl⟩
  have hin : w.Inside va ↔ w.start ≤ p ∧ p < w.stop := by
    rw [inside_page w (p := p.toNat) (by omega), BitVec.le_def, BitVec.lt_def, stop_toNat]
    rfl
  unfold windowPte ramPage
  dsimp only
  rw [ptePage_eq]
  by_cases h : w.start ≤ p ∧ p < w.stop
  · rw [if_pos (hin.mpr h), if_pos h]
    by_cases hnc : w.policy = .noncacheable
    · rw [if_pos ⟨h, hnc⟩, if_pos hnc]
      exact hleaf _ (by decide) (by decide) (by decide)
    · rw [if_neg fun hc => hnc hc.2, if_neg hnc]
      exact hleaf _ (by decide) (by decide) (by decide)
  · rw [if_neg fun hc => h (hin.mp hc), if_neg h, if_neg fun hc => h hc.1]
    exact hleaf _ (by decide) (by decide) (by decide)

/-- The levels 2 and 3. -/
theorem Split.walk {next : Nat} {G : Set Nat} {tbl : Nat → Option Table} (h : Split L w m next G tbl) {va : Nat} (hlo : b.ram ≤ va)
    (hhi : va < b.ram + 2 ^ 30) :
    (va / 4096 ∈ G → walk m mairValue 1 (L.addr .l2) va = none) ∧
      (va / 4096 ∉ G → walk m mairValue 1 (L.addr .l2) va = some (ramPage w va)) := by
  obtain ⟨c, hc⟩ := ram_dvd b
  have hram := ram_le b
  have hi := index_lt 0 va
  have hj := index_lt 1 va
  -- the block and the page that the walk selects
  have haddr := ram_page hlo hhi
  have hno : pageNo b (index 1 va) (index 0 va) = va / 4096 := by
    unfold pageNo
    omega
  have hblock := h.block _ hj
  cases htbl : tbl (index 1 va) with
  | none =>
    rw [htbl] at hblock
    obtain ⟨he, hfree⟩ := hblock
    obtain ⟨hg, hout⟩ := hfree _ hi
    rw [hno] at hg
    refine ⟨fun hmem => absurd hmem hg, fun _ => ?_⟩
    have hout' : ¬ w.Inside va := by
      rw [inside_page w (p := b.ram + index 1 va * 2 ^ 21 + index 0 va * 2 ^ 12) (by omega)]
      exact hout
    have hb := blockAddr_toNat (b := b) hj
    have hdesc : entry m (L.addr .l2) (index 1 va) = desc (blockAddr b (index 1 va)) (leafAttrs 1#64 kAttrIdxNormal 3#64 0#64) := by
      rw [he, ← pteBlock_eq, BitVec.or_zero]
    have hspan : span 1 ∣ (blockAddr b (index 1 va)).toNat := by
      rw [hb, hc, span_one]
      exact ⟨c * 2 ^ 9 + index 1 va, by omega⟩
    have hpa : (blockAddr b (index 1 va)).toNat + va % span 1 = va := by
      rw [hb, span_one]
      exact ram_block hlo hhi
    have hpage : 4096 ∣ span 1 := ⟨512, span_one⟩
    have hleaf : leaf mairValue 1 _ va = _ := leaf_aligned (a := leafAttrs 1#64 kAttrIdxNormal 3#64 0#64) (by decide) (by decide)
      (hpage.trans hspan) (by omega) hspan
    rw [Translation.walk_block hdesc (by rw [attrs_desc _ (by decide)]; decide) (by decide), hleaf, hpa]
    unfold ramPage
    rw [if_neg hout']
    rfl
  | some t =>
    rw [htbl] at hblock
    obtain ⟨he, hpages⟩ := hblock
    obtain ⟨hg, hfree⟩ := hpages _ hi
    rw [hno] at hg hfree
    rw [walk_pteTable t he]
    refine ⟨fun hmem => Mmu.walk_zero (hg hmem), fun hmem => ?_⟩
    have hp : (pageAddr (blockAddr b (index 1 va)) (index 0 va)).toNat = va / 4096 * 4096 := by rw [ramAddr_toNat hj hi, haddr]
    obtain ⟨hpage, hleaf⟩ := leaf_windowPte w hp (by omega)
    rw [walk_page (hfree hmem) hpage, hleaf]

/-- A Device block of level 1. -/
theorem Top.walk_device (h : Top b L m) {i va : Nat} {p : BitVec 64}
    (he : (i, pteBlock p kAttrIdxDevice 0#64 ||| kPtePxN ||| kPteUxN) ∈ b.l1 L) (hi : index 2 va = i) (hp : 2 ^ 30 ∣ p.toNat)
    (hlt : p.toNat < 2 ^ 48) : walk m mairValue 2 (L.addr .l1) va = some (devicePage (p.toNat + va % 2 ^ 30)) := by
  rw [BitVec.or_assoc] at he
  exact h.walk_block he hi (by decide) (by decide) (by decide) hp hlt

/-- The alias of level 1. -/
theorem Top.walk_alias (h : Top b L m) {i va : Nat} {p : BitVec 64}
    (he : (i, pteBlock p kAttrIdxNormalNc 3#64 ||| kPtePxN ||| kPteUxN) ∈ b.l1 L) (hi : index 2 va = i) (hp : 2 ^ 30 ∣ p.toNat)
    (hlt : p.toNat < 2 ^ 48) : walk m mairValue 2 (L.addr .l1) va = some (aliasPage (p.toNat + va % 2 ^ 30)) := by
  rw [BitVec.or_assoc] at he
  exact h.walk_block he hi (by decide) (by decide) (by decide) hp hlt

/-- Off RAM the level 1 table decides. -/
theorem Top.walk_off (h : Top b L m) (w : Window b) {va : Nat} (hva : va < 2 ^ 39)
    (hram : ¬ (b.ram ≤ va ∧ va < b.ram + 2 ^ 30)) : walk m mairValue 2 (L.addr .l1) va = baseMap w va := by
  have hi : index 2 va = va / 2 ^ 30 := by
    unfold index
    rw [span_two]
    omega
  cases b with
  | virt =>
    rw [ram_virt] at hram
    unfold baseMap
    dsimp only
    by_cases h0 : va < 0x40000000
    · have hpa : (0#64).toNat + va % 2 ^ 30 = va := by
        rw [BitVec.toNat_ofNat]
        omega
      rw [if_pos h0, h.walk_device (i := 0) (p := 0#64) (by simp [Board.l1]) (by omega) (by decide) (by decide), hpa]
    rw [if_neg h0, if_neg (by omega)]
    by_cases h2 : va < 0xC0000000
    · have hpa : (0x40000000#64).toNat + va % 2 ^ 30 = va - 0x40000000 := by
        rw [BitVec.toNat_ofNat]
        omega
      rw [if_pos h2, h.walk_alias (i := 2) (p := 0x40000000#64) (by simp [Board.l1]) (by omega) (by decide) (by decide), hpa]
    · rw [if_neg h2]
      refine h.walk_rest fun e he => ?_
      simp only [Board.l1, List.mem_cons, List.not_mem_nil, or_false] at he
      rcases he with rfl | rfl | rfl <;> (dsimp only; omega)
  | rpi4 =>
    rw [ram_rpi4] at hram
    unfold baseMap
    dsimp only
    rw [if_neg (by omega)]
    by_cases h1 : va < 0x80000000
    · have hpa : (0#64).toNat + va % 2 ^ 30 = va - 0x40000000 := by
        rw [BitVec.toNat_ofNat]
        omega
      rw [if_pos h1, h.walk_alias (i := 1) (p := 0#64) (by simp [Board.l1]) (by omega) (by decide) (by decide), hpa]
    rw [if_neg h1]
    by_cases h3 : 0xC0000000 ≤ va ∧ va < 0x100000000
    · have hpa : (0xC0000000#64).toNat + va % 2 ^ 30 = va := by
        rw [BitVec.toNat_ofNat]
        omega
      rw [if_neg (by omega), if_pos h3.2,
        h.walk_device (i := 3) (p := 0xC0000000#64) (by simp [Board.l1]) (by omega) (by decide) (by decide), hpa]
    · have hnone : (if va < 0xC0000000 then none else if va < 0x100000000 then some (devicePage va) else none) = none := by
        by_cases h2 : va < 0xC0000000
        · rw [if_pos h2]
        · rw [if_neg h2, if_neg fun h4 => h3 ⟨by omega, h4⟩]
      rw [hnone]
      refine h.walk_rest fun e he => ?_
      simp only [Board.l1, List.mem_cons, List.not_mem_nil, or_false] at he
      rcases he with rfl | rfl | rfl <;> (dsimp only; omega)

/-- Nothing is mapped above the first 4 GiB. -/
theorem baseMap_high (w : Window b) {va : Nat} (hva : 0x100000000 ≤ va) : baseMap w va = none := by
  cases b with
  | virt =>
    unfold baseMap
    dsimp only
    rw [if_neg (by omega), if_neg (by omega), if_neg (by omega)]
  | rpi4 =>
    unfold baseMap
    dsimp only
    rw [if_neg (by omega), if_neg (by omega), if_neg (by omega), if_neg (by omega)]

/-- The walk is the base map without the guarded pages. -/
theorem Mapped.translate {G : Set Nat} (h : Mapped L w s G) {va : Nat} (hva : va < 2 ^ 48) :
    (va / 4096 ∈ G → s.translate va = none) ∧ (va / 4096 ∉ G → s.translate va = baseMap w va) := by
  obtain ⟨tbl, hsplit⟩ := h.split
  have htop := h.top
  have hguards := h.guards
  have hbase : base (L.addr .l0) = L.addr .l0 := and_addrMask (L.aligned .l0) (L.small .l0)
  unfold State.translate
  rw [h.mair, h.ttbr0, hbase, htop.walk_zero hva]
  by_cases hram : b.ram ≤ va ∧ va < b.ram + 2 ^ 30
  · obtain ⟨hlo, hhi⟩ := hram
    have hle := ram_le b
    rw [if_pos (by omega), htop.walk_ram hlo hhi]
    obtain ⟨hg, hfree⟩ := hsplit.walk hlo hhi
    refine ⟨hg, fun hmem => (hfree hmem).trans ?_⟩
    cases b with
    | virt =>
      rw [ram_virt] at hlo hhi
      unfold baseMap
      dsimp only
      rw [if_neg (by omega), if_pos (by omega)]
    | rpi4 =>
      rw [ram_rpi4] at hhi
      unfold baseMap
      dsimp only
      rw [if_pos (by omega)]
  · refine ⟨fun hmem => ?_, fun _ => ?_⟩
    · obtain ⟨hlo, hhi⟩ := hguards _ hmem
      obtain ⟨c, hc⟩ := ram_dvd b
      exact absurd ⟨by omega, by omega⟩ hram
    · by_cases hlow : va < 2 ^ 39
      · rw [if_pos hlow]
        exact htop.walk_off w hlow hram
      · rw [if_neg hlow]
        exact (baseMap_high w (by omega)).symm

end Microkernel.Mmu

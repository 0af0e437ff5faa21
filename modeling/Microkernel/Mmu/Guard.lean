/-
  Microkernel.Mmu.Guard — building the tables and guarding pages (see `Mmu.Map`).

  - `build_mapped`: the tables as built hold the base map, with no page guarded. The
    window fills at most two blocks, and each has its own table.
  - `ensureL3_mapped`: splitting a block changes nothing that is mapped; when the pool is
    empty or the table is null nothing is split that would be needed.
  - `guard_mapped`: `mmu_guard_page` adds the page if it returns 0, and otherwise maps
    what was mapped.
  - `tables_mean_map`: so after any calls the walk is the base map without the pages for
    which a call returned 0.
-/

import Microkernel.Mmu.Map

namespace Microkernel.Mmu

open Translation

variable {b : Board} {L : Layout} {w : Window b} {m m' : Words} {s : State} {G : Set Nat} {next : Nat}

/-! ## Tables of the layout -/

theorem entry_set_ne (L : Layout) (m : Words) {t t' : Table} {i i' : Nat} (v : BitVec 64) (hi : i < 512) (hi' : i' < 512)
    (h : t' ≠ t ∨ i' ≠ i) : entry (setEntry m (L.addr t) i v) (L.addr t') i' = entry m (L.addr t') i' :=
  entry_setEntry_ne m v (L.aligned t) (L.aligned t') hi hi' (h.imp_left fun hne he => hne (L.distinct _ _ he))

theorem entry_fill (L : Layout) (m : Words) (t : Table) (f : Nat → BitVec 64) {i : Nat} (hi : i < 512) :
    entry (fillTable m (L.addr t) f 512) (L.addr t) i = f i := by
  rw [entry_fillTable m f (L.aligned t) (le_refl _) hi, if_pos hi]

theorem entry_fill_ne (L : Layout) (m : Words) {t t' : Table} (f : Nat → BitVec 64) {i : Nat} (hi : i < 512) (h : t' ≠ t) :
    entry (fillTable m (L.addr t) f 512) (L.addr t') i = entry m (L.addr t') i :=
  entry_fillTable_ne m f (L.aligned t) (L.aligned t') (le_refl _) hi fun he => h (L.distinct _ _ he)

/-- The levels 0 and 1 do not change with the other tables. -/
theorem Top.congr (h : Top b L m) (h0 : ∀ i < 512, entry m' (L.addr .l0) i = entry m (L.addr .l0) i)
    (h1 : ∀ i < 512, entry m' (L.addr .l1) i = entry m (L.addr .l1) i) : Top b L m' := by
  have hlt : ∀ e ∈ b.l1 L, e.1 < 512 := by
    cases b <;> simp [Board.l1]
  refine ⟨(h0 0 (by decide)).trans h.l0, fun i hpos hi => (h0 i hi).trans (h.l0_rest i hpos hi), ?_, ?_⟩
  · exact fun e he => (h1 e.1 (hlt e he)).trans (h.l1 e he)
  · exact fun i hi hne => (h1 i hi).trans (h.l1_rest i hi hne)

/-! ## Building -/

theorem entry_clearFive (L : Layout) (m : Words) {t : Table} (ht : t = .l0 ∨ t = .l1) {n i : Nat} (hn : n ≤ 512) (hi : i < n) :
    entry (clearFive L m n) (L.addr t) i = 0#64 := by
  induction n with
  | zero => omega
  | succ n ih =>
    have hi' : i < 512 := by omega
    have hn' : n < 512 := by omega
    unfold clearFive
    dsimp only
    by_cases he : i = n
    · subst he
      rcases ht with rfl | rfl
      · rw [entry_set_ne L _ _ hn' hi' (Or.inl (by decide)), entry_set_ne L _ _ hn' hi' (Or.inl (by decide)),
          entry_set_ne L _ _ hn' hi' (Or.inl (by decide)), entry_set_ne L _ _ hn' hi' (Or.inl (by decide)), entry_setEntry_same]
      · rw [entry_set_ne L _ _ hn' hi' (Or.inl (by decide)), entry_set_ne L _ _ hn' hi' (Or.inl (by decide)),
          entry_set_ne L _ _ hn' hi' (Or.inl (by decide)), entry_setEntry_same]
    · rw [entry_set_ne L _ _ hn' hi' (Or.inr he), entry_set_ne L _ _ hn' hi' (Or.inr he), entry_set_ne L _ _ hn' hi' (Or.inr he),
        entry_set_ne L _ _ hn' hi' (Or.inr he), entry_set_ne L _ _ hn' hi' (Or.inr he)]
      exact ih (by omega) (by omega)

theorem entry_clearExtra (L : Layout) (m : Words) {t : Table} (ht : ∀ k, t ≠ .extra k) {i : Nat} (hi : i < 512) :
    entry (clearExtra L m) (L.addr t) i = entry m (L.addr t) i := by
  unfold clearExtra
  generalize List.finRange 8 = ks
  induction ks generalizing m with
  | nil => rfl
  | cons k ks ih => rw [List.foldl_cons, ih, entry_fill_ne L m _ hi (ht k)]

/-- The window's test always holds, for the window lies in RAM. -/
theorem splits_window (w : Window b) : b.splits w.start w.stop = true := by
  have habove := w.above
  have hbelow := w.below
  have hstop := stop_toNat w
  cases b with
  | virt =>
    rw [ram_virt] at habove hbelow
    simp only [Board.splits, decide_eq_true_eq, BitVec.le_def, BitVec.lt_def, BitVec.toNat_ofNat]
    omega
  | rpi4 =>
    rw [ram_rpi4] at habove hbelow
    have hsize : kL1BlockSize.toNat = 2 ^ 30 := by decide
    have hlast : (w.stop - 1#64).toNat = w.stop.toNat - 1 := by bv_omega
    simp only [Board.splits, decide_eq_true_eq, BitVec.lt_def, ← BitVec.toNat_inj, BitVec.toNat_udiv, hsize, hlast, BitVec.toNat_ofNat]
    omega

/-- `x & ~(kL2BlockSize - 1)` is the address of the block that `x` lies in. -/
theorem and_block {x : BitVec 64} (hlo : b.ram ≤ x.toNat) (hhi : x.toNat < b.ram + 2 ^ 30) :
    x &&& ~~~(kL2BlockSize - 1#64) = blockAddr b ((x.toNat - b.ram) / 2 ^ 21) := by
  obtain ⟨c, hc⟩ := ram_dvd b
  have hpow : kL2BlockSize = BitVec.twoPow 64 21 := by decide
  apply BitVec.eq_of_toNat_eq
  rw [blockAddr_toNat (by omega), hpow, Align.toNat_and_not_mask (by decide)]
  omega

theorem l1_lt (b : Board) (L : Layout) : ∀ e ∈ b.l1 L, e.1 < 512 := by
  cases b <;> simp [Board.l1]

theorem l1_nodup (b : Board) (L : Layout) : ((b.l1 L).map Prod.fst).Nodup := by
  cases b <;> simp [Board.l1]

theorem buildBlocks_l2 (b : Board) (L : Layout) (m : Words) {j : Nat} (hj : j < 512) :
    entry (buildBlocks b L m) (L.addr .l2) j = pteBlock (blockAddr b j) kAttrIdxNormal 3#64 :=
  entry_fill L _ .l2 _ hj

theorem buildBlocks_top (b : Board) (L : Layout) (m : Words) : Top b L (buildBlocks b L m) := by
  have h01 : L.addr .l0 ≠ L.addr .l1 := fun he => by cases L.distinct _ _ he
  have hclear : ∀ t, t = .l0 ∨ t = .l1 → ∀ i < 512, entry (clearExtra L (clearFive L m 512)) (L.addr t) i = 0#64 := by
    intro t ht i hi
    have hextra : ∀ k, t ≠ .extra k := by
      rintro k rfl
      rcases ht with ht | ht <;> cases ht
    rw [entry_clearExtra L _ hextra hi]
    exact entry_clearFive L m ht (le_refl _) hi
  unfold buildBlocks
  dsimp only
  generalize clearExtra L (clearFive L m 512) = m₀ at hclear ⊢
  have h0 : ∀ i < 512, entry (setEntries (setEntry m₀ (L.addr .l0) 0 (pteTable (L.addr .l1))) (L.addr .l1) (b.l1 L)) (L.addr .l0) i =
      entry (setEntry m₀ (L.addr .l0) 0 (pteTable (L.addr .l1))) (L.addr .l0) i := fun i hi =>
    entry_setEntries_ne _ (L.aligned .l1) (L.aligned .l0) (l1_lt b L) hi (Or.inl h01)
  refine ⟨?_, ?_, ?_, ?_⟩
  · rw [entry_fill_ne L _ _ (by decide) (by decide), h0 0 (by decide), entry_setEntry_same]
  · intro i hpos hi
    rw [entry_fill_ne L _ _ hi (by decide), h0 i hi, entry_set_ne L _ _ (by decide) hi (Or.inr (by omega))]
    exact hclear .l0 (Or.inl rfl) i hi
  · intro e he
    rw [entry_fill_ne L _ _ (l1_lt b L e he) (by decide)]
    exact entry_setEntries _ (L.aligned .l1) (l1_lt b L) (l1_nodup b L) e he
  · intro i hi hne
    rw [entry_fill_ne L _ _ hi (by decide), entry_setEntries_ne _ (L.aligned .l1) (L.aligned .l1) (l1_lt b L) hi (Or.inr hne),
      entry_set_ne L _ _ (by decide) hi (Or.inl (by decide))]
    exact hclear .l1 (Or.inr rfl) i hi

/-! ## A table for a block -/

/-- Filling the table `t` with `f` and putting it in the place of block `j`. -/
def linkTable (L : Layout) (m : Words) (j : Nat) (t : Table) (f : Nat → BitVec 64) : Words :=
  setEntry (fillTable m (L.addr t) f 512) (L.addr .l2) j (pteTable (L.addr t))

section
variable {t : Table} {f : Nat → BitVec 64} {j : Nat}

theorem linkTable_l2 : entry (linkTable L m j t f) (L.addr .l2) j = pteTable (L.addr t) := entry_setEntry_same _ _ _ _

theorem linkTable_l2_ne (ht : t ≠ .l2) (hj : j < 512) {j' : Nat} (hj' : j' < 512) (h : j' ≠ j) :
    entry (linkTable L m j t f) (L.addr .l2) j' = entry m (L.addr .l2) j' := by
  unfold linkTable
  rw [entry_set_ne L _ _ hj hj' (Or.inr h), entry_fill_ne L m f hj' ht.symm]

theorem linkTable_page (ht : t ≠ .l2) (hj : j < 512) {i : Nat} (hi : i < 512) :
    entry (linkTable L m j t f) (L.addr t) i = f i := by
  unfold linkTable
  rw [entry_set_ne L _ _ hj hi (Or.inl ht), entry_fill L m t f hi]

theorem linkTable_other (hj : j < 512) {t' : Table} {i : Nat} (hi : i < 512) (h : t' ≠ t) (h2 : t' ≠ .l2) :
    entry (linkTable L m j t f) (L.addr t') i = entry m (L.addr t') i := by
  unfold linkTable
  rw [entry_set_ne L _ _ hj hi (Or.inl h2), entry_fill_ne L m f hi h]

theorem linkTable_top (h : Top b L m) (hj : j < 512) (h0 : t ≠ .l0) (h1 : t ≠ .l1) : Top b L (linkTable L m j t f) :=
  h.congr (fun _ hi => linkTable_other hj hi h0.symm (by decide)) fun _ hi => linkTable_other hj hi h1.symm (by decide)

end

/-- Splitting block `j` of the window. -/
theorem splitWindowBlock_eq (w : Window b) (m : Words) {j : Nat} (hj : j < 512) (t : Table) :
    splitWindowBlock b L w m (blockAddr b j) (L.addr t) = linkTable L m j t fun i => windowPte w (pageAddr (blockAddr b j) i) := by
  have hle := ram_le b
  have hb := blockAddr_toNat (b := b) hj
  have hbase := ramBase_toNat b
  have hsize : kL2BlockSize.toNat = 2 ^ 21 := by decide
  have hindex : ((blockAddr b j - b.ramBase) / kL2BlockSize).toNat = j := by
    rw [BitVec.toNat_udiv, hsize, BitVec.toNat_sub_of_le (by rw [BitVec.le_def]; omega), hb, hbase]
    omega
  unfold splitWindowBlock linkTable
  rw [hindex]

/-! ## The tables as built -/

/-- The blocks that the window's first and last byte lie in. -/
def Window.firstBlock (w : Window b) : Nat := (w.start.toNat - b.ram) / 2 ^ 21

def Window.lastBlock (w : Window b) : Nat := (w.start.toNat + 0x1FFFF - b.ram) / 2 ^ 21

theorem firstBlock_lt (w : Window b) : w.firstBlock < 512 := by
  have hbelow := w.below
  unfold Window.firstBlock
  omega

theorem lastBlock_lt (w : Window b) : w.lastBlock < 512 := by
  have hbelow := w.below
  unfold Window.lastBlock
  omega

/-- The window's pages lie in these two. -/
theorem inside_block (w : Window b) {j i : Nat} (hi : i < 512) (h : w.Inside (b.ram + j * 2 ^ 21 + i * 2 ^ 12)) :
    j = w.firstBlock ∨ j = w.lastBlock := by
  have habove := w.above
  unfold Window.Inside at h
  unfold Window.firstBlock Window.lastBlock
  omega

/-- What `build_identity_map` computes for the window. -/
theorem buildMap_eq (w : Window b) (m : Words) :
    buildMap b L w m =
      let m := linkTable L (buildBlocks b L m) w.firstBlock .dma0 fun i => windowPte w (pageAddr (blockAddr b w.firstBlock) i)
      if w.firstBlock = w.lastBlock then m
      else linkTable L m w.lastBlock .dma1 fun i => windowPte w (pageAddr (blockAddr b w.lastBlock) i) := by
  have habove := w.above
  have hbelow := w.below
  have hle := ram_le b
  have hstop := stop_toNat w
  have hend : (w.stop - 1#64).toNat = w.start.toNat + 0x1FFFF := by bv_omega
  have hfirst : w.start &&& ~~~(kL2BlockSize - 1#64) = blockAddr b w.firstBlock := and_block habove (by omega)
  have hlast : (w.stop - 1#64) &&& ~~~(kL2BlockSize - 1#64) = blockAddr b w.lastBlock := by
    rw [and_block (b := b) (by omega) (by omega), hend]
    rfl
  have hsame : blockAddr b w.firstBlock = blockAddr b w.lastBlock ↔ w.firstBlock = w.lastBlock := by
    constructor
    · intro he
      have hn := congrArg BitVec.toNat he
      rw [blockAddr_toNat (firstBlock_lt w), blockAddr_toNat (lastBlock_lt w)] at hn
      omega
    · intro he
      rw [he]
  unfold buildMap
  dsimp only
  rw [if_pos (splits_window w), hfirst, hlast, splitWindowBlock_eq w _ (firstBlock_lt w), splitWindowBlock_eq w _ (lastBlock_lt w)]
  by_cases he : w.firstBlock = w.lastBlock
  · rw [if_pos (hsame.mpr he), if_pos he]
  · rw [if_neg fun h => he (hsame.mp h), if_neg he]

/-- Which table a block has after building. -/
def Window.tables (w : Window b) (j : Nat) : Option Table :=
  if j = w.firstBlock then some .dma0 else if j = w.lastBlock then some .dma1 else none

theorem tables_some {j : Nat} {t : Table} (h : w.tables j = some t) :
    j = w.firstBlock ∧ t = .dma0 ∨ j ≠ w.firstBlock ∧ j = w.lastBlock ∧ t = .dma1 := by
  unfold Window.tables at h
  by_cases hf : j = w.firstBlock
  · rw [if_pos hf] at h
    exact Or.inl ⟨hf, (Option.some.inj h).symm⟩
  · rw [if_neg hf] at h
    by_cases hl : j = w.lastBlock
    · rw [if_pos hl] at h
      exact Or.inr ⟨hf, hl, (Option.some.inj h).symm⟩
    · rw [if_neg hl] at h
      cases h

/-- The three kinds of blocks after building. -/
theorem build_blocks (w : Window b) (hl2 : ∀ j < 512, entry m (L.addr .l2) j = pteBlock (blockAddr b j) kAttrIdxNormal 3#64)
    (hm : m' = let m₁ := linkTable L m w.firstBlock .dma0 fun i => windowPte w (pageAddr (blockAddr b w.firstBlock) i)
      if w.firstBlock = w.lastBlock then m₁
      else linkTable L m₁ w.lastBlock .dma1 fun i => windowPte w (pageAddr (blockAddr b w.lastBlock) i)) :
    ∀ j < 512, Block L w m' ∅ j (w.tables j) := by
  have h0 := firstBlock_lt w
  have h1 := lastBlock_lt w
  intro j hj
  unfold Window.tables
  by_cases hf : j = w.firstBlock
  · rw [if_pos hf]
    subst hf
    by_cases hsame : w.firstBlock = w.lastBlock
    · rw [hm]
      dsimp only
      rw [if_pos hsame]
      exact ⟨linkTable_l2, fun i hi => ⟨fun hmem => absurd hmem (Set.notMem_empty _), fun _ => linkTable_page (by decide) hj hi⟩⟩
    · rw [hm]
      dsimp only
      rw [if_neg hsame]
      refine ⟨?_, fun i hi => ⟨fun hmem => absurd hmem (Set.notMem_empty _), fun _ => ?_⟩⟩
      · rw [linkTable_l2_ne (by decide) h1 hj hsame, linkTable_l2]
      · rw [linkTable_other h1 hi (by decide) (by decide), linkTable_page (by decide) hj hi]
  rw [if_neg hf]
  by_cases hl : j = w.lastBlock
  · rw [if_pos hl]
    subst hl
    rw [hm]
    dsimp only
    rw [if_neg (Ne.symm hf)]
    exact ⟨linkTable_l2, fun i hi => ⟨fun hmem => absurd hmem (Set.notMem_empty _), fun _ => linkTable_page (by decide) hj hi⟩⟩
  · rw [if_neg hl]
    refine ⟨?_, fun i hi => ⟨Set.notMem_empty _, fun hin => ?_⟩⟩
    · rw [hm]
      dsimp only
      split
      · rw [linkTable_l2_ne (by decide) h0 hj hf, hl2 j hj]
      · rw [linkTable_l2_ne (by decide) h1 hj hl, linkTable_l2_ne (by decide) h0 hj hf, hl2 j hj]
    · rcases inside_block w hi hin with h | h
      · exact hf h
      · exact hl h

theorem build_mapped (w : Window b) (m : Words) : Top b L (buildMap b L w m) ∧ Split L w (buildMap b L w m) 0 ∅ w.tables := by
  refine ⟨?_, build_blocks w (fun _ hj => buildBlocks_l2 b L m hj) (buildMap_eq w m), ?_, ?_⟩
  · have htop := linkTable_top (f := fun i => windowPte w (pageAddr (blockAddr b w.firstBlock) i)) (buildBlocks_top b L m)
      (firstBlock_lt w) (t := .dma0) (by decide) (by decide)
    rw [buildMap_eq]
    dsimp only
    split
    · exact htop
    · exact linkTable_top htop (lastBlock_lt w) (by decide) (by decide)
  · intro j _ t ht
    rcases tables_some ht with ⟨-, rfl⟩ | ⟨-, -, rfl⟩ <;> trivial
  · intro j _ j' _ t ht ht'
    rcases tables_some ht with ⟨hj, rfl⟩ | ⟨-, hj, rfl⟩
    · rcases tables_some ht' with ⟨hj', -⟩ | ⟨-, -, h⟩
      · rw [hj, hj']
      · cases h
    · rcases tables_some ht' with ⟨-, h⟩ | ⟨-, hj', -⟩
      · cases h
      · rw [hj, hj']

/-! ## Splitting a block -/

theorem pteTable_type (x : BitVec 64) : pteTable x &&& 0b11#64 = 0b11#64 := by
  rw [pteTable_eq, desc_and x _ (by decide)]
  decide

/-- The address that `ensure_l3_for_ram_block` reads out of a table descriptor. -/
theorem pteTable_addr (L : Layout) (t : Table) : pteTable (L.addr t) &&& 0x0000FFFFFFFFF000#64 = L.addr t :=
  (base_desc (L.addr t) (by decide)).trans (and_addrMask (L.aligned t) (L.small t))

/-- What it reads out of a block descriptor: the attributes that RAM is mapped with. -/
theorem pteBlock_fields (p : BitVec 64) :
    pteBlock p kAttrIdxNormal 3#64 &&& 0b11#64 = 0b01#64 ∧ (pteBlock p kAttrIdxNormal 3#64 >>> 2) &&& 0x7#64 = kAttrIdxNormal ∧
      (pteBlock p kAttrIdxNormal 3#64 >>> 8) &&& 0x3#64 = 3#64 ∧ pteBlock p kAttrIdxNormal 3#64 &&& (kPtePxN ||| kPteUxN) = 0#64 := by
  have hd : pteBlock p kAttrIdxNormal 3#64 = desc p (leafAttrs 1#64 kAttrIdxNormal 3#64 0#64) := by
    rw [← pteBlock_eq, BitVec.or_zero]
  have hattr : (0x7#64 : BitVec 64) = 0x1C#64 >>> 2 := by decide
  have hsh : (0x3#64 : BitVec 64) = 0x300#64 >>> 8 := by decide
  rw [hd]
  refine ⟨?_, ?_, ?_, ?_⟩
  · rw [desc_and _ _ (by decide)]
    decide
  · rw [hattr, ← BitVec.ushiftRight_and_distrib, desc_and _ _ (by decide)]
    decide
  · rw [hsh, ← BitVec.ushiftRight_and_distrib, desc_and _ _ (by decide)]
    decide
  · rw [desc_and _ _ (by decide)]
    decide

/-- Giving block `j` the next table of the pool. -/
theorem Split.extra {tbl : Nat → Option Table} (h : Split L w m next G tbl) {j : Nat} (hj : j < 512) (hn : next < 8)
    (hfree : tbl j = none) :
    Split L w (linkTable L m j (.extra ⟨next, hn⟩) fun i => windowPte w (pageAddr (blockAddr b j) i)) (next + 1) G
      (Function.update tbl j (some (.extra ⟨next, hn⟩))) := by
  have hextra : Table.extra ⟨next, hn⟩ ≠ .l2 := fun he => by cases he
  have hnew : ∀ j' < 512, ∀ t, tbl j' = some t → t ≠ .extra ⟨next, hn⟩ ∧ t ≠ .l2 := by
    intro j' hj' t ht
    have hused := h.used j' hj' t ht
    constructor
    · rintro rfl
      exact lt_irrefl next hused
    · rintro rfl
      exact hused
  refine ⟨fun j' hj' => ?_, fun j' hj' t ht => ?_, fun j₁ h₁ j₂ h₂ t ht₁ ht₂ => ?_⟩
  · by_cases he : j' = j
    · subst he
      have hblock := h.block j' hj
      rw [hfree] at hblock
      rw [Function.update_self]
      exact ⟨linkTable_l2, fun i hi => ⟨fun hmem => absurd hmem (hblock.2 i hi).1, fun _ => linkTable_page hextra hj hi⟩⟩
    · have hblock := h.block j' hj'
      rw [Function.update_of_ne he]
      cases htbl : tbl j' with
      | none =>
        rw [htbl] at hblock
        exact ⟨(linkTable_l2_ne hextra hj hj' he).trans hblock.1, hblock.2⟩
      | some t =>
        rw [htbl] at hblock
        obtain ⟨hne, hl2⟩ := hnew j' hj' t htbl
        refine ⟨(linkTable_l2_ne hextra hj hj' he).trans hblock.1, fun i hi => ?_⟩
        rw [linkTable_other hj hi hne hl2]
        exact hblock.2 i hi
  · by_cases he : j' = j
    · rw [he, Function.update_self] at ht
      cases Option.some.inj ht
      exact Nat.lt_succ_self next
    · rw [Function.update_of_ne he] at ht
      have hused := h.used j' hj' t ht
      cases t with
      | extra k => exact Nat.lt_succ_of_lt hused
      | dma0 => trivial
      | dma1 => trivial
      | l0 => exact hused
      | l1 => exact hused
      | l2 => exact hused
  · by_cases he₁ : j₁ = j
    · by_cases he₂ : j₂ = j
      · rw [he₁, he₂]
      · rw [he₁, Function.update_self] at ht₁
        rw [Function.update_of_ne he₂] at ht₂
        exact absurd (Option.some.inj ht₁).symm (hnew j₂ h₂ t ht₂).1
    · rw [Function.update_of_ne he₁] at ht₁
      by_cases he₂ : j₂ = j
      · rw [he₂, Function.update_self] at ht₂
        exact absurd (Option.some.inj ht₂).symm (hnew j₁ h₁ t ht₁).1
      · rw [Function.update_of_ne he₂] at ht₂
        exact h.own j₁ h₁ j₂ h₂ t ht₁ ht₂

/-- A block that has no table has no page in the window. -/
theorem windowPte_outside (w : Window b) {p : BitVec 64} (h : ¬ w.Inside p.toNat) :
    windowPte w p = ptePage p kAttrIdxNormal 3#64 ||| 0#64 := by
  have hout : ¬ (w.start ≤ p ∧ p < w.stop) := by
    rw [BitVec.le_def, BitVec.lt_def, stop_toNat]
    exact h
  unfold windowPte
  dsimp only
  rw [if_neg fun hc => hout hc.1, if_neg hout]

/-- Clearing page `i` of a block that has a table. -/
theorem Split.guard {tbl : Nat → Option Table} (h : Split L w m next G tbl) {j i : Nat} (hj : j < 512) (hi : i < 512) {t : Table}
    (ht : tbl j = some t) : Split L w (setEntry m (L.addr t) i 0#64) next (insert (pageNo b j i) G) tbl := by
  have hpage : ∀ {j' i' : Nat}, j' < 512 → i' < 512 → pageNo b j' i' = pageNo b j i → j' = j ∧ i' = i := by
    intro j' i' hj' hi' he
    unfold pageNo at he
    omega
  have hl2 : t ≠ .l2 := by
    rintro rfl
    exact h.used j hj _ ht
  refine ⟨fun j' hj' => ?_, h.used, h.own⟩
  have hblock := h.block j' hj'
  cases htbl : tbl j' with
  | none =>
    rw [htbl] at hblock
    refine ⟨(entry_set_ne L m _ hi hj' (Or.inl hl2.symm)).trans hblock.1, fun i' hi' => ⟨?_, (hblock.2 i' hi').2⟩⟩
    rintro (he | hmem)
    · obtain ⟨rfl, -⟩ := hpage hj' hi' he
      rw [ht] at htbl
      cases htbl
    · exact (hblock.2 i' hi').1 hmem
  | some t' =>
    rw [htbl] at hblock
    refine ⟨(entry_set_ne L m _ hi hj' (Or.inl hl2.symm)).trans hblock.1, fun i' hi' => ?_⟩
    by_cases he : pageNo b j' i' = pageNo b j i
    · -- the page itself
      obtain ⟨rfl, rfl⟩ := hpage hj' hi' he
      rw [ht] at htbl
      cases htbl
      exact ⟨fun _ => entry_setEntry_same _ _ _ _, fun hno => absurd (Set.mem_insert _ _) hno⟩
    · have hother : t' ≠ t ∨ i' ≠ i := by
        by_cases hjj : j' = j
        · refine Or.inr fun hii => he ?_
          rw [hjj, hii]
        · exact Or.inl fun htt => hjj (h.own j' hj' j hj t (htt ▸ htbl) ht)
      rw [entry_set_ne L m _ hi hi' hother]
      refine ⟨fun hmem => (hblock.2 i' hi').1 (hmem.resolve_left he), fun hno => (hblock.2 i' hi').2 fun hmem => hno (Or.inr hmem)⟩

/-- `ensure_l3_for_ram_block` maps what was mapped, and returns the block's table or null. -/
theorem ensureL3_mapped (h : Mapped L w s G) {j : Nat} (hj : j < 512) :
    Mapped L w (ensureL3 b L s j).1 G ∧
      ((ensureL3 b L s j).2 ≠ 0#64 → ∃ tbl t, Split L w (ensureL3 b L s j).1.mem (ensureL3 b L s j).1.extraNext G tbl ∧
        tbl j = some t ∧ (ensureL3 b L s j).2 = L.addr t) := by
  obtain ⟨tbl, hsplit⟩ := h.split
  have hblock := hsplit.block j hj
  unfold ensureL3
  rw [if_neg (by omega)]
  dsimp only
  cases htbl : tbl j with
  | some t =>
    rw [htbl] at hblock
    rw [hblock.1, if_pos (pteTable_type _), pteTable_addr]
    exact ⟨h, fun _ => ⟨tbl, t, hsplit, htbl, rfl⟩⟩
  | none =>
    rw [htbl] at hblock
    obtain ⟨he, hfree⟩ := hblock
    obtain ⟨htype, hattr, hsh, hxn⟩ := pteBlock_fields (blockAddr b j)
    rw [he, htype, if_neg (by decide), if_neg (by decide), hattr, hsh, hxn]
    by_cases hn : s.extraNext < 8
    · rw [dif_pos hn]
      -- off the window the pages are those of a window block
      have hfill : fillTable s.mem (L.addr (.extra ⟨s.extraNext, hn⟩))
          (fun i => ptePage (pageAddr (blockAddr b j) i) kAttrIdxNormal 3#64 ||| 0#64) 512 =
          fillTable s.mem (L.addr (.extra ⟨s.extraNext, hn⟩)) (fun i => windowPte w (pageAddr (blockAddr b j) i)) 512 := by
        refine fillTable_congr _ _ fun i hi => (windowPte_outside w ?_).symm
        rw [ramAddr_toNat hj hi]
        exact (hfree i hi).2
      have hsplit' := hsplit.extra hj hn htbl
      have htop := linkTable_top (f := fun i => windowPte w (pageAddr (blockAddr b j) i)) (t := .extra ⟨s.extraNext, hn⟩) h.top hj
        (fun he => by cases he) (fun he => by cases he)
      rw [hfill]
      exact ⟨⟨h.enabled, h.mair, h.ttbr0, htop, ⟨_, hsplit'⟩, h.guards⟩, fun _ => ⟨_, _, hsplit', Function.update_self _ _ _, rfl⟩⟩
    · rw [dif_neg hn]
      exact ⟨h, fun hne => absurd rfl hne⟩

/-! ## Guarding a page -/

/-- `mmu_guard_page` accepts the addresses of RAM. -/
theorem guardable_iff (b : Board) (va : BitVec 64) : b.guardable va = true ↔ b.ram ≤ va.toNat ∧ va.toNat < b.ram + 2 ^ 30 := by
  cases b with
  | virt =>
    rw [ram_virt]
    simp only [Board.guardable, decide_eq_true_eq, BitVec.le_def, BitVec.lt_def, BitVec.toNat_ofNat]
    omega
  | rpi4 =>
    have hsize : kL1BlockSize.toNat = 2 ^ 30 := by decide
    rw [ram_rpi4]
    simp only [Board.guardable, decide_eq_true_eq, BitVec.le_def, hsize]
    omega

/-- The block and the page of an address of RAM, as the code computes them. -/
theorem guard_index {va : BitVec 64} (hlo : b.ram ≤ va.toNat) (hhi : va.toNat < b.ram + 2 ^ 30) (hpage : 4096 ∣ va.toNat) :
    ((va - b.ramBase) / kL2BlockSize).toNat < 512 ∧ ((va - b.ramBase) % kL2BlockSize / kPageSize).toNat < 512 ∧
      pageNo b ((va - b.ramBase) / kL2BlockSize).toNat ((va - b.ramBase) % kL2BlockSize / kPageSize).toNat = va.toNat / 4096 := by
  obtain ⟨c, hc⟩ := ram_dvd b
  obtain ⟨d, hd⟩ := hpage
  have hbase := ramBase_toNat b
  have hblock : kL2BlockSize.toNat = 2 ^ 21 := by decide
  have hsize : kPageSize.toNat = 2 ^ 12 := by decide
  have hsub : (va - b.ramBase).toNat = va.toNat - b.ram := by
    rw [BitVec.toNat_sub_of_le (by rw [BitVec.le_def]; omega), hbase]
  unfold pageNo
  rw [BitVec.toNat_udiv, BitVec.toNat_udiv, BitVec.toNat_umod, hsub, hblock, hsize]
  omega

theorem guard_mapped (h : Mapped L w s G) (addr : BitVec 64) :
    (guardPage b L s addr).2 = -1 ∧ Mapped L w (guardPage b L s addr).1 G ∨
      (guardPage b L s addr).2 = 0 ∧ Mapped L w (guardPage b L s addr).1 (insert (addr.toNat / 4096) G) := by
  have hva : (addr &&& ~~~(kPageSize - 1#64)).toNat = addr.toNat / 4096 * 4096 := by
    have hpow : kPageSize = BitVec.twoPow 64 12 := by decide
    rw [hpow, Align.toNat_and_not_mask (by decide)]
    rfl
  unfold guardPage
  by_cases hnull : addr = 0#64
  · rw [if_pos hnull]
    exact Or.inl ⟨rfl, h⟩
  rw [if_neg hnull, h.enabled, Bool.not_true, if_neg Bool.false_ne_true]
  dsimp only
  generalize addr &&& ~~~(kPageSize - 1#64) = va at hva ⊢
  by_cases hrange : b.guardable va = true
  swap
  · rw [Bool.eq_false_iff.mpr hrange, Bool.not_false, if_pos rfl]
    exact Or.inl ⟨rfl, h⟩
  obtain ⟨hlo, hhi⟩ := (guardable_iff b va).mp hrange
  obtain ⟨hj, hi, hno⟩ := guard_index hlo hhi ⟨addr.toNat / 4096, by omega⟩
  rw [hrange, Bool.not_true, if_neg Bool.false_ne_true]
  generalize ((va - b.ramBase) / kL2BlockSize).toNat = j at hj hno ⊢
  generalize ((va - b.ramBase) % kL2BlockSize / kPageSize).toNat = i at hi hno ⊢
  obtain ⟨hmapped, htable⟩ := ensureL3_mapped h hj
  generalize ensureL3 b L s j = r at hmapped htable ⊢
  obtain ⟨s', l3⟩ := r
  dsimp only at hmapped htable ⊢
  by_cases hz : l3 = 0#64
  · rw [if_pos hz]
    exact Or.inl ⟨rfl, hmapped⟩
  · rw [if_neg hz]
    obtain ⟨tbl, t, hsplit, ht, rfl⟩ := htable hz
    have hguard := hsplit.guard hj hi ht
    have hpage : pageNo b j i = addr.toNat / 4096 := by omega
    rw [hpage] at hguard
    have h0 : ∀ t', t' = .l0 ∨ t' = .l1 → t' ≠ t := by
      rintro t' ht' rfl
      have hused := hsplit.used j hj _ ht
      rcases ht' with rfl | rfl <;> exact hused
    refine Or.inr ⟨rfl, hmapped.enabled, hmapped.mair, hmapped.ttbr0, ?_, ⟨tbl, hguard⟩, ?_⟩
    · exact hmapped.top.congr (fun i' hi' => entry_set_ne L _ _ hi hi' (Or.inl (h0 .l0 (Or.inl rfl))))
        fun i' hi' => entry_set_ne L _ _ hi hi' (Or.inl (h0 .l1 (Or.inr rfl)))
    · rintro p (rfl | hp)
      · rw [← hpage]
        unfold pageNo
        omega
      · exact hmapped.guards p hp

/-! ## Runs -/

/-- The calls of `mmu_guard_page`, in order. -/
def guardAll (b : Board) (L : Layout) (s : State) : List (BitVec 64) → State
  | [] => s
  | a :: as => guardAll b L (guardPage b L s a).1 as

/-- One of the calls returned 0 for the page of `va`. -/
def Guarded (b : Board) (L : Layout) (s : State) (as : List (BitVec 64)) (va : Nat) : Prop :=
  ∃ pre a post, as = pre ++ a :: post ∧ (guardPage b L (guardAll b L s pre) a).2 = 0 ∧ va / 4096 = a.toNat / 4096

/-- The calls add their pages to those that were guarded. -/
theorem guardAll_mapped (h : Mapped L w s G) (as : List (BitVec 64)) :
    ∃ G', Mapped L w (guardAll b L s as) G' ∧ ∀ va, va / 4096 ∈ G' ↔ va / 4096 ∈ G ∨ Guarded b L s as va := by
  induction as generalizing s G with
  | nil =>
    refine ⟨G, h, fun va => ⟨Or.inl, ?_⟩⟩
    rintro (hmem | ⟨pre, a, post, he, -⟩)
    · exact hmem
    · cases pre <;> cases he
  | cons a as ih =>
    -- the first call, and the calls after it
    have hcons : ∀ va, Guarded b L s (a :: as) va ↔
        (guardPage b L s a).2 = 0 ∧ va / 4096 = a.toNat / 4096 ∨ Guarded b L (guardPage b L s a).1 as va := by
      intro va
      constructor
      · rintro ⟨pre, u, post, he, hr, hp⟩
        cases pre with
        | nil =>
          cases he
          exact Or.inl ⟨hr, hp⟩
        | cons v pre =>
          cases he
          exact Or.inr ⟨pre, u, post, rfl, hr, hp⟩
      · rintro (⟨hr, hp⟩ | ⟨pre, u, post, rfl, hr, hp⟩)
        · exact ⟨[], a, as, rfl, hr, hp⟩
        · exact ⟨a :: pre, u, post, rfl, hr, hp⟩
    rcases guard_mapped h a with ⟨hr, hm⟩ | ⟨hr, hm⟩
    · obtain ⟨G', hm', hG⟩ := ih hm
      refine ⟨G', hm', fun va => ?_⟩
      rw [hG, hcons, hr]
      simp
    · obtain ⟨G', hm', hG⟩ := ih hm
      refine ⟨G', hm', fun va => ?_⟩
      rw [hG, hcons, hr, Set.mem_insert_iff]
      simp only [true_and]
      tauto

theorem mmuInit_mapped (w : Window b) (mmfr0 : BitVec 64) (hoff : s.enabled = false) :
    Mapped L w (mmuInit b L w mmfr0 true s) ∅ := by
  obtain ⟨htop, hsplit⟩ := build_mapped (L := L) w s.mem
  have hclear : ¬ (s.sctlr &&& 1#64 ≠ 0#64) := by
    unfold State.enabled at hoff
    simpa using hoff
  unfold mmuInit
  rw [Bool.not_true, if_neg Bool.false_ne_true, if_neg hclear]
  refine ⟨?_, rfl, rfl, htop, ⟨_, hsplit⟩, fun p hp => absurd hp (Set.notMem_empty p)⟩
  unfold State.enabled
  dsimp only
  simp only [BitVec.and_or_distrib_right]
  rw [decide_eq_true_eq]
  intro hz
  have hbit := congrArg (fun x => x.getLsbD 0) hz
  simp at hbit

/-- The order of the arrays in the source. -/
def Table.no : Table → Nat
  | .l0 => 0
  | .l1 => 1
  | .l2 => 2
  | .dma0 => 3
  | .dma1 => 4
  | .extra k => 5 + k.val

theorem no_lt (t : Table) : t.no < 13 := by
  cases t <;> simp only [Table.no] <;> omega

theorem no_inj {t t' : Table} (h : t.no = t'.no) : t = t' := by
  cases t <;> cases t' <;> simp only [Table.no] at h <;> first | rfl | omega | skip
  rename_i k k'
  have hk : k = k' := Fin.ext (by omega)
  rw [hk]

/-- Tables one after the other. -/
def sampleLayout : Layout where
  addr t := BitVec.ofNat 64 (0x40100000 + 4096 * t.no)
  aligned := by
    intro t
    have hlt := no_lt t
    rw [BitVec.toNat_ofNat]
    omega
  small := by
    intro t
    have hlt := no_lt t
    rw [BitVec.toNat_ofNat]
    omega
  distinct := by
    intro t t' h
    have hlt := no_lt t
    have hlt' := no_lt t'
    have hn := congrArg BitVec.toNat h
    rw [BitVec.toNat_ofNat, BitVec.toNat_ofNat] at hn
    exact no_inj (by omega)

end Microkernel.Mmu

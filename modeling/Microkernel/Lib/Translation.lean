/-
  Microkernel.Lib.Translation — stage 1 translation with 4 KiB pages.

  A descriptor is an address field, bits 47 to 12, and attributes, the other bits. The
  walk goes from level 0 to level 3, with 512 entries in a table; `n` counts the levels
  below, so that an entry covers `span n` bytes: a page at level 3, 2 MiB blocks at level
  2, 1 GiB blocks at level 1. Its result is a `Page`, or nothing for a fault.

  Addresses that are translated are numbers, of which the walk reads the low 48 bits.
  Memory is words at their addresses; a table is 512 of them, and tables of different
  pages do not share one (`entry_setEntry`).
-/

import Mathlib
import Microkernel.Lib.Align

namespace Microkernel.Translation

abbrev Words := BitVec 64 → BitVec 64

/-! ## Descriptors -/

def addrMask : BitVec 64 := 0x0000FFFFFFFFF000#64

def base (d : BitVec 64) : BitVec 64 := d &&& addrMask

def attrs (d : BitVec 64) : BitVec 64 := d &&& ~~~addrMask

/-- A descriptor put together. -/
def desc (phys a : BitVec 64) : BitVec 64 := (phys &&& addrMask) ||| a

theorem base_desc (phys : BitVec 64) {a : BitVec 64} (ha : a &&& addrMask = 0#64) : base (desc phys a) = phys &&& addrMask := by
  unfold base desc
  rw [BitVec.and_or_distrib_right, BitVec.and_assoc, BitVec.and_self, ha, BitVec.or_zero]

theorem attrs_desc (phys : BitVec 64) {a : BitVec 64} (ha : a &&& addrMask = 0#64) : attrs (desc phys a) = a := by
  have hnone : addrMask &&& ~~~addrMask = 0#64 := by decide
  have hself : a &&& ~~~addrMask = a := by
    ext i hi
    have hbit := congrArg (fun x => x[i]) ha
    simp only [BitVec.getElem_and, BitVec.getElem_zero] at hbit
    simp only [BitVec.getElem_and, BitVec.getElem_not]
    cases hx : a[i] <;> simp_all
  unfold attrs desc
  rw [BitVec.and_or_distrib_right, BitVec.and_assoc, hnone, BitVec.and_zero, BitVec.zero_or, hself]

/-- Attribute bits can be read in place. -/
theorem desc_and (phys a : BitVec 64) {k : BitVec 64} (hk : addrMask &&& k = 0#64) : desc phys a &&& k = a &&& k := by
  unfold desc
  rw [BitVec.and_or_distrib_right, BitVec.and_assoc, hk, BitVec.and_zero, BitVec.zero_or]

/-- A field above bit 31 has no bits below it. -/
theorem shiftLeft_and_low (p : BitVec 64) {k : BitVec 64} (hk : k.toNat < 2 ^ 32) : (p <<< 32) &&& k = 0#64 := by
  have hshift : p.toNat * 2 ^ 32 % 2 ^ 64 = p.toNat % 2 ^ 32 * 2 ^ 32 := by omega
  apply BitVec.eq_of_toNat_eq
  rw [BitVec.toNat_and, BitVec.toNat_shiftLeft, Nat.shiftLeft_eq, hshift]
  apply Nat.eq_of_testBit_eq
  intro i
  rw [Nat.testBit_and, Nat.testBit_mul_two_pow]
  by_cases hi : i < 32
  · simp [hi]
  · rw [Nat.testBit_lt_two_pow (lt_of_lt_of_le hk (Nat.pow_le_pow_right (by decide) (by omega)))]
    simp

/-- A page-aligned address below 2^48 is what its address field holds. -/
theorem and_addrMask {x : BitVec 64} (ha : 4096 ∣ x.toNat) (hx : x.toNat < 2 ^ 48) : x &&& addrMask = x := by
  have hmask : addrMask = ~~~(BitVec.twoPow 64 12 - 1#64) &&& (BitVec.twoPow 64 48 - 1#64) := by decide
  have hlow : x &&& ~~~(BitVec.twoPow 64 12 - 1#64) = x := by
    apply BitVec.eq_of_toNat_eq
    rw [Align.toNat_and_not_mask (by decide)]
    exact Nat.div_mul_cancel ha
  have hhigh : x &&& (BitVec.twoPow 64 48 - 1#64) = x := by
    apply BitVec.eq_of_toNat_eq
    rw [BitVec.toNat_and, Align.toNat_twoPow_sub_one (by decide), Nat.and_two_pow_sub_one_eq_mod, Nat.mod_eq_of_lt hx]
  rw [hmask, ← BitVec.and_assoc, hlow, hhigh]

/-! ## What a leaf says -/

/-- The memory type of a byte of MAIR_EL1. -/
inductive MemType where
  | deviceNGnRE
  | normalNc
  | normalWb
  | other (byte : BitVec 64)
  deriving DecidableEq

def memType (byte : BitVec 64) : MemType :=
  if byte = 0x04#64 then .deviceNGnRE
  else if byte = 0x44#64 then .normalNc
  else if byte = 0xFF#64 then .normalWb
  else .other byte

/-- The byte that `AttrIndx` selects. -/
def mairByte (mair a : BitVec 64) : BitVec 64 := mair >>> (8 * ((a >>> 2) &&& 7#64)) &&& 0xFF#64

/-- Where an address goes, and how. -/
structure Page where
  pa : Nat
  type : MemType
  sh : BitVec 64
  ro : Bool
  el0 : Bool
  pxn : Bool
  uxn : Bool
  deriving DecidableEq

/-- The bytes that an entry with `n` levels below it covers. -/
def span (n : Nat) : Nat := 2 ^ (12 + 9 * n)

/-- The page of a block or page descriptor; a clear access flag is a fault. -/
def leaf (mair : BitVec 64) (n : Nat) (d : BitVec 64) (va : Nat) : Option Page :=
  let a := attrs d
  if a.getLsbD 10 then
    some ⟨(base d).toNat / span n * span n + va % span n, memType (mairByte mair a), (a >>> 8) &&& 3#64, a.getLsbD 7, a.getLsbD 6,
      a.getLsbD 53, a.getLsbD 54⟩
  else none

/-- What a table descriptor takes from the pages below it. -/
def restrict (d : BitVec 64) (p : Page) : Page :=
  let a := attrs d
  { p with ro := p.ro || a.getLsbD 62, el0 := p.el0 && !a.getLsbD 61, pxn := p.pxn || a.getLsbD 59, uxn := p.uxn || a.getLsbD 60 }

/-! ## Tables -/

def slot (t : BitVec 64) (i : Nat) : BitVec 64 := t + BitVec.ofNat 64 (8 * i)

def entry (m : Words) (t : BitVec 64) (i : Nat) : BitVec 64 := m (slot t i)

def setEntry (m : Words) (t : BitVec 64) (i : Nat) (v : BitVec 64) : Words := Function.update m (slot t i) v

@[simp] theorem entry_setEntry_same (m : Words) (t : BitVec 64) (i : Nat) (v : BitVec 64) : entry (setEntry m t i v) t i = v :=
  Function.update_self _ _ _

/-- Another entry of the table, or an entry of another table. -/
theorem entry_setEntry_ne (m : Words) {t t' : BitVec 64} {i i' : Nat} (v : BitVec 64) (ht : 4096 ∣ t.toNat) (ht' : 4096 ∣ t'.toNat)
    (hi : i < 512) (hi' : i' < 512) (h : t' ≠ t ∨ i' ≠ i) : entry (setEntry m t i v) t' i' = entry m t' i' := by
  refine Function.update_of_ne (fun he => ?_) _ _
  unfold slot at he
  obtain ⟨c, hc⟩ := ht
  obtain ⟨c', hc'⟩ := ht'
  have hn : (BitVec.ofNat 64 (8 * i)).toNat = 8 * i := by
    rw [BitVec.toNat_ofNat]
    omega
  have hn' : (BitVec.ofNat 64 (8 * i')).toNat = 8 * i' := by
    rw [BitVec.toNat_ofNat]
    omega
  have hsum : t'.toNat + 8 * i' = t.toNat + 8 * i := by
    have hlt := t.isLt
    have hlt' := t'.isLt
    have hsame := congrArg BitVec.toNat he
    rw [BitVec.toNat_add, BitVec.toNat_add, hn, hn'] at hsame
    omega
  rcases h with h | h
  · exact h (BitVec.eq_of_toNat_eq (by omega))
  · omega

/-- Storing the entries from 0 to `n`, upwards. -/
def fillTable (m : Words) (t : BitVec 64) (f : Nat → BitVec 64) : Nat → Words
  | 0 => m
  | n + 1 => setEntry (fillTable m t f n) t n (f n)

theorem fillTable_congr (m : Words) (t : BitVec 64) {f g : Nat → BitVec 64} {n : Nat} (h : ∀ i < n, f i = g i) :
    fillTable m t f n = fillTable m t g n := by
  induction n with
  | zero => rfl
  | succ n ih => rw [fillTable, fillTable, ih fun i hi => h i (by omega), h n (by omega)]

theorem entry_fillTable (m : Words) {t : BitVec 64} (f : Nat → BitVec 64) {n i : Nat} (ht : 4096 ∣ t.toNat) (hn : n ≤ 512) (hi : i < 512) :
    entry (fillTable m t f n) t i = if i < n then f i else entry m t i := by
  induction n with
  | zero => rfl
  | succ n ih =>
    rw [fillTable]
    by_cases he : i = n
    · rw [he, entry_setEntry_same, if_pos (by omega)]
    · rw [entry_setEntry_ne _ _ ht ht (by omega) hi (Or.inr he), ih (by omega)]
      by_cases hlt : i < n
      · rw [if_pos hlt, if_pos (by omega)]
      · rw [if_neg hlt, if_neg (by omega)]

/-- Other tables stay as they are. -/
theorem entry_fillTable_ne (m : Words) {t t' : BitVec 64} (f : Nat → BitVec 64) {n i : Nat} (ht : 4096 ∣ t.toNat) (ht' : 4096 ∣ t'.toNat)
    (hn : n ≤ 512) (hi : i < 512) (h : t' ≠ t) : entry (fillTable m t f n) t' i = entry m t' i := by
  induction n with
  | zero => rfl
  | succ n ih => rw [fillTable, entry_setEntry_ne _ _ ht ht' (by omega) hi (Or.inl h), ih (by omega)]

/-- Storing some entries, one after the other. -/
def setEntries (m : Words) (t : BitVec 64) (es : List (Nat × BitVec 64)) : Words := es.foldl (fun m e => setEntry m t e.1 e.2) m

theorem entry_setEntries_ne (m : Words) {t t' : BitVec 64} {es : List (Nat × BitVec 64)} {i : Nat} (ht : 4096 ∣ t.toNat)
    (ht' : 4096 ∣ t'.toNat) (hes : ∀ e ∈ es, e.1 < 512) (hi : i < 512) (h : t' ≠ t ∨ ∀ e ∈ es, e.1 ≠ i) :
    entry (setEntries m t es) t' i = entry m t' i := by
  induction es generalizing m with
  | nil => rfl
  | cons e es ih =>
    have hrest : t' ≠ t ∨ ∀ u ∈ es, u.1 ≠ i := h.imp_right fun hne u hu => hne u (List.mem_cons_of_mem e hu)
    have hfirst : t' ≠ t ∨ i ≠ e.1 := h.imp_right fun hne => (hne e List.mem_cons_self).symm
    rw [setEntries, List.foldl_cons, ← setEntries, ih _ (fun u hu => hes u (List.mem_cons_of_mem e hu)) hrest,
      entry_setEntry_ne _ _ ht ht' (hes e List.mem_cons_self) hi hfirst]

theorem entry_setEntries (m : Words) {t : BitVec 64} {es : List (Nat × BitVec 64)} (ht : 4096 ∣ t.toNat)
    (hes : ∀ e ∈ es, e.1 < 512) (hd : (es.map Prod.fst).Nodup) : ∀ e ∈ es, entry (setEntries m t es) t e.1 = e.2 := by
  induction es generalizing m with
  | nil =>
    intro e he
    cases he
  | cons u es ih =>
    rw [List.map_cons, List.nodup_cons] at hd
    have hrest : ∀ e ∈ es, e.1 < 512 := fun e he => hes e (List.mem_cons_of_mem u he)
    intro e he
    rw [setEntries, List.foldl_cons, ← setEntries]
    rcases List.mem_cons.mp he with hu | hu
    · -- the later entries are others
      subst hu
      rw [entry_setEntries_ne _ ht ht hrest (hes e List.mem_cons_self) (Or.inr fun u hu heq => ?_), entry_setEntry_same]
      exact hd.1 (heq ▸ List.mem_map_of_mem hu)
    · exact ih _ hrest hd.2 e hu

/-! ## The walk -/

/-- The entry that `va` selects with `n` levels below. -/
def index (n va : Nat) : Nat := va / span n % 512

theorem index_lt (n va : Nat) : index n va < 512 := Nat.mod_lt _ (by decide)

/-- Blocks exist at the levels 1 and 2, pages at level 3. -/
def walk (m : Words) (mair : BitVec 64) : Nat → BitVec 64 → Nat → Option Page
  | 0, t, va =>
    let d := entry m t (index 0 va)
    if attrs d &&& 3#64 = 3#64 then leaf mair 0 d va else none
  | n + 1, t, va =>
    let d := entry m t (index (n + 1) va)
    if attrs d &&& 3#64 = 3#64 then (walk m mair n (base d) va).map (restrict d)
    else if attrs d &&& 3#64 = 1#64 ∧ n < 2 then leaf mair (n + 1) d va
    else none

section
variable {m : Words} {mair t d : BitVec 64} {n va : Nat}

/-- An entry whose valid bit is clear. -/
theorem walk_invalid (h : entry m t (index n va) = d) (hd : attrs d &&& 3#64 ≠ 3#64 ∧ attrs d &&& 3#64 ≠ 1#64) :
    walk m mair n t va = none := by
  cases n with
  | zero =>
    unfold walk
    dsimp only
    rw [h, if_neg hd.1]
  | succ n =>
    unfold walk
    dsimp only
    rw [h, if_neg hd.1, if_neg fun h1 => hd.2 h1.1]

theorem walk_table (h : entry m t (index (n + 1) va) = d) (hd : attrs d &&& 3#64 = 3#64) :
    walk m mair (n + 1) t va = (walk m mair n (base d) va).map (restrict d) := by
  rw [walk]
  rw [h, if_pos hd]

theorem walk_block (h : entry m t (index (n + 1) va) = d) (hd : attrs d &&& 3#64 = 1#64) (hn : n < 2) :
    walk m mair (n + 1) t va = leaf mair (n + 1) d va := by
  rw [walk]
  rw [h, hd, if_neg (by decide), if_pos ⟨rfl, hn⟩]

theorem walk_page (h : entry m t (index 0 va) = d) (hd : attrs d &&& 3#64 = 3#64) : walk m mair 0 t va = leaf mair 0 d va := by
  rw [walk]
  rw [h, if_pos hd]

end

end Microkernel.Translation

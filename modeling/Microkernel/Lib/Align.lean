/-
  Microkernel.Lib.Align — rounding with masks on machine words.

  `(v + a - 1) & ~(a - 1)` rounds `v` up to a multiple of `a`, `a & (a - 1)` is 0 for a
  power of two, and or-ing a word with its own shifts fills in every bit below its highest
  one. Each is stated as arithmetic on naturals: the words are `toNat`s, and what wraps
  around is said.

  Proved: the mask form is the next multiple, modulo the word size (`toNat_roundUp`); the
  bit test is being a power of two (`isPow2_iff`); the filled word plus one is the next
  power of two (`fill_succ`).
-/

import Mathlib

namespace Microkernel.Align

/-! ## Multiples of a power of two -/

/-- The least multiple of `a` from `n` on. -/
def ceilTo (a n : Nat) : Nat := (n + a - 1) / a * a

theorem le_ceilTo {a : Nat} (ha : 0 < a) (n : Nat) : n ≤ ceilTo a n := by
  have h := Nat.div_add_mod (n + a - 1) a
  have hlt := Nat.mod_lt (n + a - 1) ha
  unfold ceilTo
  rw [Nat.mul_comm]
  omega

theorem ceilTo_lt {a : Nat} (ha : 0 < a) (n : Nat) : ceilTo a n < n + a := by
  have h := Nat.div_mul_le_self (n + a - 1) a
  unfold ceilTo
  omega

theorem dvd_ceilTo (a n : Nat) : a ∣ ceilTo a n := Nat.dvd_mul_left a _

/-- It is the least one. -/
theorem ceilTo_le {a n m : Nat} (ha : 0 < a) (hd : a ∣ m) (h : n ≤ m) : ceilTo a n ≤ m := by
  obtain ⟨c, rfl⟩ := hd
  have hlt : n + a - 1 < a * (c + 1) := by
    rw [Nat.mul_succ]
    omega
  have hdiv : (n + a - 1) / a < c + 1 := (Nat.div_lt_iff_lt_mul ha).mpr (by rwa [Nat.mul_comm])
  unfold ceilTo
  rw [Nat.mul_comm]
  exact Nat.mul_le_mul_left a (by omega)

variable {w : Nat}

theorem toNat_twoPow_sub_one {k : Nat} (hk : k < w) : (BitVec.twoPow w k - 1#w).toNat = 2 ^ k - 1 := by
  have hpow : 2 ^ k < 2 ^ w := Nat.pow_lt_pow_right (by decide) hk
  have hpos := Nat.two_pow_pos k
  rw [BitVec.toNat_sub, BitVec.toNat_twoPow, Nat.mod_eq_of_lt hpow, BitVec.toNat_ofNat, Nat.mod_eq_of_lt (a := 1) (by omega),
    show 2 ^ w - 1 + 2 ^ k = 2 ^ k - 1 + 2 ^ w by omega, Nat.add_mod_right]
  exact Nat.mod_eq_of_lt (by omega)

/-- `v & ~(2^k - 1)` drops the low bits. -/
theorem toNat_and_not_mask {k : Nat} (hk : k < w) (v : BitVec w) :
    (v &&& ~~~(BitVec.twoPow w k - 1#w)).toNat = v.toNat / 2 ^ k * 2 ^ k := by
  have hshift : v &&& ~~~(BitVec.twoPow w k - 1#w) = (v >>> k) <<< k := by
    ext i hi
    have hbit : (BitVec.twoPow w k - 1#w)[i] = decide (i < k) := by
      rw [← BitVec.getLsbD_eq_getElem, BitVec.getLsbD, toNat_twoPow_sub_one hk, Nat.testBit_two_pow_sub_one]
    by_cases hik : i < k
    · simp [hbit, hik]
    · have hki : k + (i - k) = i := by omega
      simp [hbit, hik, hki, BitVec.getLsbD_eq_getElem hi]
  rw [hshift, BitVec.toNat_shiftLeft, BitVec.toNat_ushiftRight, Nat.shiftLeft_eq, Nat.shiftRight_eq_div_pow]
  exact Nat.mod_eq_of_lt (lt_of_le_of_lt (Nat.div_mul_le_self _ _) v.isLt)

/-- The usual mask form. -/
def roundUp (v a : BitVec w) : BitVec w := (v + a - 1#w) &&& ~~~(a - 1#w)

/-- It is the next multiple if that is a word, and 0 if not. -/
theorem toNat_roundUp {k : Nat} (hk : k < w) (v : BitVec w) :
    (roundUp v (BitVec.twoPow w k)).toNat = if ceilTo (2 ^ k) v.toNat < 2 ^ w then ceilTo (2 ^ k) v.toNat else 0 := by
  have hpow : 2 ^ k < 2 ^ w := Nat.pow_lt_pow_right (by decide) hk
  have hpos := Nat.two_pow_pos k
  have hv := v.isLt
  have hsum : (v + BitVec.twoPow w k - 1#w).toNat = (v.toNat + 2 ^ k - 1) % 2 ^ w := by
    rw [BitVec.toNat_sub, BitVec.toNat_add, BitVec.toNat_twoPow, Nat.mod_eq_of_lt hpow, BitVec.toNat_ofNat,
      Nat.mod_eq_of_lt (a := 1) (by omega), Nat.add_mod_mod, show 2 ^ w - 1 + (v.toNat + 2 ^ k) = v.toNat + 2 ^ k - 1 + 2 ^ w by omega,
      Nat.add_mod_right]
  rw [roundUp, toNat_and_not_mask hk, hsum]
  by_cases hfit : v.toNat + 2 ^ k - 1 < 2 ^ w
  · have hlt : ceilTo (2 ^ k) v.toNat < 2 ^ w := lt_of_le_of_lt (Nat.div_mul_le_self _ _) hfit
    rw [if_pos hlt, Nat.mod_eq_of_lt hfit, ceilTo]
  · -- the sum wraps to something below `2^k`
    have hdvd : 2 ^ k ∣ 2 ^ w := Nat.pow_dvd_pow 2 hk.le
    have hge : ¬ ceilTo (2 ^ k) v.toNat < 2 ^ w := by
      obtain ⟨c, hc⟩ := hdvd
      have hcdiv : c ≤ (v.toNat + 2 ^ k - 1) / 2 ^ k := (Nat.le_div_iff_mul_le hpos).mpr (by rw [Nat.mul_comm, ← hc]; omega)
      have hmul := Nat.mul_le_mul_left (2 ^ k) hcdiv
      rw [← hc, Nat.mul_comm] at hmul
      unfold ceilTo
      omega
    have hwrap : (v.toNat + 2 ^ k - 1) % 2 ^ w = v.toNat + 2 ^ k - 1 - 2 ^ w := by
      rw [Nat.mod_eq_sub_mod (by omega)]
      exact Nat.mod_eq_of_lt (by omega)
    rw [if_neg hge, hwrap, Nat.div_eq_of_lt (by omega), Nat.zero_mul]

/-! ## Powers of two -/

/-- `a != 0 && (a & (a - 1)) == 0`. -/
def isPow2 (a : BitVec w) : Bool := a ≠ 0#w ∧ a &&& (a - 1#w) = 0#w

theorem isPow2_iff {a : BitVec w} : isPow2 a = true ↔ ∃ k < w, a = BitVec.twoPow w k := by
  have hnat : isPow2 a = true ↔ a.toNat ≠ 0 ∧ a.toNat &&& (a.toNat - 1) = 0 := by
    have hz : a = 0#w ↔ a.toNat = 0 := by
      rw [← BitVec.toNat_inj, BitVec.toNat_ofNat, Nat.zero_mod]
    unfold isPow2
    rw [decide_eq_true_eq, ne_eq, hz]
    refine and_congr_right fun h0 => ?_
    have hlt := a.isLt
    have hsub : (a - 1#w).toNat = a.toNat - 1 := by
      rw [BitVec.toNat_sub, BitVec.toNat_ofNat, Nat.mod_eq_of_lt (a := 1) (by omega),
        show 2 ^ w - 1 + a.toNat = a.toNat - 1 + 2 ^ w by omega, Nat.add_mod_right]
      exact Nat.mod_eq_of_lt (by omega)
    rw [← BitVec.toNat_inj, BitVec.toNat_and, hsub, BitVec.toNat_ofNat, Nat.zero_mod]
  rw [hnat, Nat.ne_zero_and_sub_one_eq_zero_iff_isPowerOfTwo]
  constructor
  · intro h
    obtain ⟨k, hk⟩ := h
    have hlt := a.isLt
    have hkw : k < w := by
      rw [hk] at hlt
      exact (Nat.pow_lt_pow_iff_right (by decide)).mp hlt
    refine ⟨k, hkw, BitVec.eq_of_toNat_eq ?_⟩
    rw [BitVec.toNat_twoPow, hk, Nat.mod_eq_of_lt (hk ▸ hlt)]
  · intro h
    obtain ⟨k, hk, rfl⟩ := h
    exact ⟨k, by rw [BitVec.toNat_twoPow, Nat.mod_eq_of_lt (Nat.pow_lt_pow_right (by decide) hk)]⟩

/-- Bit `i` of the word is whether one of the bits `i`, …, `i + n - 1` of `x` is set. -/
def Filled (x : BitVec w) (n : Nat) (y : BitVec w) : Prop := ∀ i, y.getLsbD i = true ↔ ∃ j < n, x.getLsbD (i + j) = true

theorem filled_one (x : BitVec w) : Filled x 1 x := by
  intro i
  constructor
  · exact fun h => ⟨0, by decide, h⟩
  · intro h
    obtain ⟨j, hj, h⟩ := h
    have hj0 : j = 0 := by omega
    rwa [hj0] at h

/-- One step of the fill doubles the reach. -/
theorem Filled.double {x y : BitVec w} {n m : Nat} (h : Filled x n y) (hm : m = 2 * n) : Filled x m (y ||| y >>> n) := by
  intro i
  rw [BitVec.getLsbD_or, BitVec.getLsbD_ushiftRight, Bool.or_eq_true, h i, h (n + i)]
  constructor
  · intro h
    rcases h with ⟨j, hj, hx⟩ | ⟨j, hj, hx⟩
    · exact ⟨j, by omega, hx⟩
    · exact ⟨n + j, by omega, by rwa [show i + (n + j) = n + i + j by omega]⟩
  · intro h
    obtain ⟨j, hj, hx⟩ := h
    by_cases hjn : j < n
    · exact Or.inl ⟨j, hjn, hx⟩
    · exact Or.inr ⟨j - n, by omega, by rwa [show n + i + (j - n) = i + j by omega]⟩

/-- With a reach of the whole word, every bit up to the highest is set. -/
theorem Filled.toNat {x y : BitVec w} {n : Nat} (h : Filled x n y) (hn : w ≤ n) : y.toNat = 2 ^ x.toNat.size - 1 := by
  apply Nat.eq_of_testBit_eq
  intro i
  rw [Nat.testBit_two_pow_sub_one, Bool.eq_iff_iff, decide_eq_true_eq, ← BitVec.getLsbD, h i]
  constructor
  · intro h
    obtain ⟨j, -, hx⟩ := h
    have hle : 2 ^ (i + j) ≤ x.toNat := Nat.ge_two_pow_of_testBit hx
    have hlt := Nat.lt_size.mpr hle
    omega
  · intro hi
    -- the highest bit
    have hlt : x.toNat < 2 ^ x.toNat.size := Nat.lt_size_self _
    have hge : 2 ^ (x.toNat.size - 1) ≤ x.toNat := Nat.lt_size.mp (by omega)
    have htop : x.toNat.testBit (x.toNat.size - 1) = true := by
      rw [Nat.testBit_eq_decide_div_mod_eq, decide_eq_true_eq]
      have hdiv : x.toNat / 2 ^ (x.toNat.size - 1) = 1 := by
        apply Nat.div_eq_of_lt_le
        · rwa [Nat.one_mul]
        · rwa [← Nat.pow_succ', Nat.succ_eq_add_one, Nat.sub_add_cancel (by omega)]
      rw [hdiv]
    have hsize : x.toNat.size ≤ w := Nat.size_le.mpr x.isLt
    exact ⟨x.toNat.size - 1 - i, by omega, by rwa [show i + (x.toNat.size - 1 - i) = x.toNat.size - 1 by omega]⟩

/-- The word filled in steps of 1, 2, 4, 8, 16, 32. -/
def fill (a : BitVec 64) : BitVec 64 :=
  let a := a ||| a >>> 1
  let a := a ||| a >>> 2
  let a := a ||| a >>> 4
  let a := a ||| a >>> 8
  let a := a ||| a >>> 16
  a ||| a >>> 32

theorem filled_fill (a : BitVec 64) : Filled a 64 (fill a) := by
  have h2 : Filled a 2 _ := (filled_one a).double rfl
  have h4 : Filled a 4 _ := h2.double rfl
  have h8 : Filled a 8 _ := h4.double rfl
  have h16 : Filled a 16 _ := h8.double rfl
  have h32 : Filled a 32 _ := h16.double rfl
  exact h32.double rfl

theorem size_pred {n : Nat} (hn : 0 < n) : (n - 1).size = Nat.clog 2 n := by
  apply Nat.le_antisymm
  · rw [Nat.size_le]
    have := Nat.le_pow_clog (b := 2) (by decide) n
    omega
  · rw [Nat.clog_le_iff_le_pow (by decide)]
    have := Nat.lt_size_self (n - 1)
    omega

/-- Filling `a - 1` and adding 1 gives the least power of two from `a` on, modulo the word
    size. -/
theorem fill_succ {a : BitVec 64} (ha : 0 < a.toNat) : fill (a - 1#64) + 1#64 = BitVec.ofNat 64 (2 ^ Nat.clog 2 a.toNat) := by
  have hpred : (a - 1#64).toNat = a.toNat - 1 := by bv_omega
  have hfill := (filled_fill (a - 1#64)).toNat (Nat.le_refl 64)
  have hpos := Nat.two_pow_pos (Nat.clog 2 a.toNat)
  rw [hpred, size_pred ha] at hfill
  apply BitVec.eq_of_toNat_eq
  rw [BitVec.toNat_add, hfill, BitVec.toNat_ofNat, BitVec.toNat_ofNat, Nat.mod_eq_of_lt (a := 1) (by decide), Nat.sub_add_cancel hpos]

end Microkernel.Align

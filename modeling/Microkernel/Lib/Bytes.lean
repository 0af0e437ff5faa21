/-
  Microkernel.Lib.Bytes — byte-addressed memory and little-endian words.

  A memory is a function from addresses to bytes; addresses wrap around. `load m n a` is
  the number in the `n` bytes from `a`, `store m n a v` writes it. The distance
  `(b - a).toNat` says where `b` lies after `a`, so that no bound on an address is
  needed.

  Proved: a load reads what the last store to the same bytes wrote, and a store does not
  change bytes outside; a number is in memory if and only if each of its bytes is
  (`load_eq_iff_bytes`); words stored at pairwise distinct offsets of one base are all
  read back (`load64_storeWords`).
-/

import Mathlib

namespace Microkernel.Bytes

abbrev Addr := BitVec 64

abbrev Mem := Addr → BitVec 8

theorem toNat_word {n : Nat} (h : n < 2 ^ 64) : (BitVec.ofNat 64 n).toNat = n := by
  rw [BitVec.toNat_ofNat, Nat.mod_eq_of_lt h]

/-- The `n` bytes from `a`, little-endian. -/
def load (m : Mem) : Nat → Addr → Nat
  | 0, _ => 0
  | n + 1, a => (m a).toNat + 256 * load m n (a + 1)

def store (m : Mem) : Nat → Addr → Nat → Mem
  | 0, _, _ => m
  | n + 1, a, v => Function.update (store m n (a + 1) (v / 256)) a (BitVec.ofNat 8 v)

/-- A load only reads its own bytes. -/
theorem load_congr {m m' : Mem} {n : Nat} {a : Addr} (hn : n ≤ 2 ^ 64) (h : ∀ b, (b - a).toNat < n → m' b = m b) :
    load m' n a = load m n a := by
  induction n generalizing a with
  | zero => rfl
  | succ n ih =>
    have ha : m' a = m a := h a (by simp)
    have hrest : load m' n (a + 1) = load m n (a + 1) := by
      refine ih (by omega) fun b hb => h b ?_
      bv_omega
    simp only [load, ha, hrest]

/-- A store only writes its own bytes. -/
theorem store_outside {m : Mem} {n : Nat} {a b : Addr} {v : Nat} (h : n ≤ (b - a).toNat) : store m n a v b = m b := by
  induction n generalizing a v with
  | zero => rfl
  | succ n ih =>
    have hne : b ≠ a := by
      intro e
      subst e
      simp at h
    rw [store, Function.update_of_ne hne]
    apply ih
    bv_omega

/-- A store that is made in two memories leaves a byte equal. -/
theorem store_congr {m m' : Mem} {n : Nat} {a b : Addr} {v : Nat} (h : m' b = m b) : store m' n a v b = store m n a v b := by
  induction n generalizing a v with
  | zero => exact h
  | succ n ih =>
    rw [store, store, Function.update_apply, Function.update_apply, ih]

theorem load_store (m : Mem) {n : Nat} {a : Addr} {v : Nat} (hn : n ≤ 2 ^ 64) : load (store m n a v) n a = v % 256 ^ n := by
  induction n generalizing a v with
  | zero => simp [load, Nat.mod_one]
  | succ n ih =>
    have hrest : load (store m (n + 1) a v) n (a + 1) = v / 256 % 256 ^ n := by
      rw [← ih (by omega)]
      refine load_congr (by omega) fun b hb => ?_
      -- the first byte is not among the others
      have hne : b ≠ a := by
        intro e
        subst e
        bv_omega
      rw [store, Function.update_of_ne hne]
    have hfirst : (store m (n + 1) a v a).toNat = v % 256 := by
      rw [store, Function.update_self, BitVec.toNat_ofNat]
    rw [load, hfirst, hrest, Nat.pow_succ, Nat.mul_comm (256 ^ n), Nat.mod_mul]

theorem add_ofNat_succ (a : Addr) (j : Nat) : a + BitVec.ofNat 64 (j + 1) = a + 1 + BitVec.ofNat 64 j := by
  rw [BitVec.ofNat_add, BitVec.add_comm (BitVec.ofNat 64 j), BitVec.add_assoc]
  rfl

/-- The bytes that a store leaves. -/
theorem store_apply {m : Mem} {n j : Nat} {a : Addr} {v : Nat} (hn : n ≤ 2 ^ 64) (hj : j < n) :
    store m n a v (a + BitVec.ofNat 64 j) = BitVec.ofNat 8 (v >>> (8 * j)) := by
  induction n generalizing a v j with
  | zero => omega
  | succ n ih =>
    cases j with
    | zero => simp [store]
    | succ j =>
      have hne : a + BitVec.ofNat 64 (j + 1) ≠ a := by
        intro he
        have ho : (BitVec.ofNat 64 (j + 1)).toNat = j + 1 := toNat_word (by omega)
        bv_omega
      have hshift : (v / 256) >>> (8 * j) = v >>> (8 * (j + 1)) := by
        rw [Nat.shiftRight_eq_div_pow, Nat.shiftRight_eq_div_pow, Nat.div_div_eq_div_mul, Nat.mul_add, Nat.pow_add, Nat.mul_comm]
      rw [store, Function.update_of_ne hne, add_ofNat_succ, ih (by omega) (by omega), hshift]

/-- Two memories agree on a word if and only if they agree on its bytes. -/
theorem load_eq_iff {m m' : Mem} {n : Nat} {a : Addr} :
    load m' n a = load m n a ↔ ∀ j < n, m' (a + BitVec.ofNat 64 j) = m (a + BitVec.ofNat 64 j) := by
  induction n generalizing a with
  | zero => simp [load]
  | succ n ih =>
    have hfirst := (m a).isLt
    have hfirst' := (m' a).isLt
    have hsplit : load m' (n + 1) a = load m (n + 1) a ↔ m' a = m a ∧ load m' n (a + 1) = load m n (a + 1) := by
      rw [load, load, BitVec.toNat_inj.symm]
      omega
    rw [hsplit, ih]
    constructor
    · rintro ⟨h0, hrest⟩ j hj
      cases j with
      | zero => simpa using h0
      | succ j => simpa only [add_ofNat_succ] using hrest j (by omega)
    · intro h
      refine ⟨by simpa using h 0 (by omega), fun j hj => ?_⟩
      rw [← add_ofNat_succ]
      exact h (j + 1) (by omega)

/-- A store to other bytes. -/
theorem load_store_apart {m : Mem} {n k : Nat} {a b : Addr} {v : Nat} (hn : n ≤ 2 ^ 64)
    (h : ∀ c, (c - b).toNat < n → k ≤ (c - a).toNat) : load (store m k a v) n b = load m n b :=
  load_congr hn fun c hc => store_outside (h c hc)

theorem load_lt (m : Mem) (n : Nat) (a : Addr) : load m n a < 256 ^ n := by
  induction n generalizing a with
  | zero => simp [load]
  | succ n ih =>
    have hbyte := (m a).isLt
    have hrest := ih (a + 1)
    rw [load, Nat.pow_succ]
    omega

/-- A number in memory, byte by byte. -/
theorem load_eq_iff_bytes {m : Mem} {n : Nat} {a : Addr} {v : Nat} (hn : n ≤ 2 ^ 64) (hv : v < 256 ^ n) :
    load m n a = v ↔ ∀ j < n, m (a + BitVec.ofNat 64 j) = BitVec.ofNat 8 (v >>> (8 * j)) := by
  have hstored : load (store m n a v) n a = v := by rw [load_store m hn, Nat.mod_eq_of_lt hv]
  have hiff := @load_eq_iff (store m n a v) m n a
  rw [hstored] at hiff
  rw [hiff]
  refine forall₂_congr fun j hj => ?_
  rw [store_apply hn hj]

/-! ## Words of 64 bits -/

def load64 (m : Mem) (a : Addr) : BitVec 64 := BitVec.ofNat 64 (load m 8 a)

def store64 (m : Mem) (a : Addr) (v : BitVec 64) : Mem := store m 8 a v.toNat

@[simp] theorem load64_store64 (m : Mem) (a : Addr) (v : BitVec 64) : load64 (store64 m a v) a = v := by
  have hlt : v.toNat < 256 ^ 8 := v.isLt
  unfold load64 store64
  rw [load_store m (by decide), Nat.mod_eq_of_lt hlt, BitVec.ofNat_toNat, BitVec.setWidth_eq]

theorem load64_eq_ofNat {m : Mem} {a : Addr} {v : Nat} (hv : v < 2 ^ 64) : load64 m a = BitVec.ofNat 64 v ↔ load m 8 a = v := by
  have hlt := load_lt m 8 a
  unfold load64
  rw [← BitVec.toNat_inj, BitVec.toNat_ofNat, BitVec.toNat_ofNat]
  omega

theorem load64_congr {m m' : Mem} {a : Addr} (h : ∀ b, (b - a).toNat < 8 → m' b = m b) : load64 m' a = load64 m a := by
  unfold load64
  rw [load_congr (by decide) h]

/-- A store to other bytes. -/
theorem load64_store64_apart (m : Mem) {a b : Addr} (v : BitVec 64) (h0 : 8 ≤ (b - a).toNat) (h1 : 8 ≤ (a - b).toNat) :
    load64 (store64 m a v) b = load64 m b := by
  apply load64_congr
  intro c hc
  apply store_outside
  bv_omega

/-! ## Words at offsets from a base -/

/-- Store the words of `ws` in order, each at its offset from `p`. -/
def storeWords (m : Mem) (p : Addr) (ws : List (Nat × BitVec 64)) : Mem :=
  ws.foldl (fun m w => store64 m (p + BitVec.ofNat 64 w.1) w.2) m

/-- Offsets of words that do not overlap and do not wrap around. -/
def Apart (os : List Nat) : Prop := os.Pairwise (fun o o' => o + 8 ≤ o' ∨ o' + 8 ≤ o) ∧ ∀ o ∈ os, o + 8 ≤ 2 ^ 32

instance (os : List Nat) : Decidable (Apart os) := inferInstanceAs (Decidable (_ ∧ _))

theorem offset_distance {p : Addr} {o o' : Nat} (h : o + 8 ≤ o' ∨ o' + 8 ≤ o) (ho : o + 8 ≤ 2 ^ 32) (ho' : o' + 8 ≤ 2 ^ 32) :
    8 ≤ ((p + BitVec.ofNat 64 o') - (p + BitVec.ofNat 64 o)).toNat := by
  have h1 : (BitVec.ofNat 64 o).toNat = o := toNat_word (by omega)
  have h2 : (BitVec.ofNat 64 o').toNat = o' := toNat_word (by omega)
  bv_omega

theorem load64_storeWords_other {p : Addr} {o : Nat} {ws : List (Nat × BitVec 64)} (m : Mem) (ho : o + 8 ≤ 2 ^ 32)
    (h : ∀ w ∈ ws, (o + 8 ≤ w.1 ∨ w.1 + 8 ≤ o) ∧ w.1 + 8 ≤ 2 ^ 32) :
    load64 (storeWords m p ws) (p + BitVec.ofNat 64 o) = load64 m (p + BitVec.ofNat 64 o) := by
  induction ws generalizing m with
  | nil => rfl
  | cons w ws ih =>
    obtain ⟨hw, hlt⟩ := h w List.mem_cons_self
    rw [storeWords, List.foldl_cons, ← storeWords, ih _ fun u hu => h u (List.mem_cons_of_mem w hu)]
    exact load64_store64_apart m w.2 (offset_distance hw.symm hlt ho) (offset_distance hw ho hlt)

/-- Every word is read back. -/
theorem load64_storeWords {p : Addr} {ws : List (Nat × BitVec 64)} (m : Mem) (ha : Apart (ws.map Prod.fst)) {o : Nat}
    {v : BitVec 64} (hm : (o, v) ∈ ws) : load64 (storeWords m p ws) (p + BitVec.ofNat 64 o) = v := by
  induction ws generalizing m with
  | nil => cases hm
  | cons w ws ih =>
    obtain ⟨hp, hlt⟩ := ha
    rw [List.map_cons, List.pairwise_cons] at hp
    have htail : Apart (ws.map Prod.fst) := ⟨hp.2, fun o ho => hlt o (List.mem_cons_of_mem _ ho)⟩
    rw [storeWords, List.foldl_cons, ← storeWords]
    rcases List.mem_cons.mp hm with hm | hm
    · -- the later words lie elsewhere
      subst hm
      have hfirst : o + 8 ≤ 2 ^ 32 := hlt o List.mem_cons_self
      rw [load64_storeWords_other _ hfirst fun u hu => ?_, load64_store64]
      have hmem : u.1 ∈ ws.map Prod.fst := List.mem_map_of_mem hu
      exact ⟨hp.1 u.1 hmem, hlt u.1 (List.mem_cons_of_mem _ hmem)⟩
    · exact ih _ htail hm

theorem storeWords_congr {m m' : Mem} {p b : Addr} {ws : List (Nat × BitVec 64)} (h : m' b = m b) :
    storeWords m' p ws b = storeWords m p ws b := by
  induction ws generalizing m m' with
  | nil => exact h
  | cons w ws ih => exact ih (store_congr h)

/-- Bytes outside the words do not change. -/
theorem storeWords_outside {m : Mem} {p b : Addr} {n : Nat} {ws : List (Nat × BitVec 64)} (h : ∀ w ∈ ws, w.1 + 8 ≤ n)
    (hb : n ≤ (b - p).toNat) : storeWords m p ws b = m b := by
  induction ws generalizing m with
  | nil => rfl
  | cons w ws ih =>
    have hw := h w List.mem_cons_self
    have hout : 8 ≤ (b - (p + BitVec.ofNat 64 w.1)).toNat := by
      have hdist := (b - p).isLt
      have h1 : (BitVec.ofNat 64 w.1).toNat = w.1 := toNat_word (by omega)
      bv_omega
    rw [storeWords, List.foldl_cons, ← storeWords, ih fun u hu => h u (List.mem_cons_of_mem w hu)]
    exact store_outside hout

/-! ## Runs of one byte -/

def fill (m : Mem) : Addr → Nat → BitVec 8 → Mem
  | _, 0, _ => m
  | a, n + 1, v => Function.update (fill m (a + 1) n v) a v

theorem fill_outside {m : Mem} {n : Nat} {a b : Addr} {v : BitVec 8} (h : n ≤ (b - a).toNat) : fill m a n v b = m b := by
  induction n generalizing a with
  | zero => rfl
  | succ n ih =>
    have hne : b ≠ a := by
      intro e
      subst e
      simp at h
    rw [fill, Function.update_of_ne hne]
    apply ih
    bv_omega

theorem fill_apply {m : Mem} {n : Nat} {a b : Addr} {v : BitVec 8} (h : (b - a).toNat < n) : fill m a n v b = v := by
  induction n generalizing a with
  | zero => omega
  | succ n ih =>
    rw [fill, Function.update_apply]
    split
    · rfl
    · rename_i hne
      apply ih
      bv_omega

theorem fill_eq (m : Mem) (a b : Addr) (n : Nat) (v : BitVec 8) : fill m a n v b = if (b - a).toNat < n then v else m b := by
  split
  · exact fill_apply ‹_›
  · exact fill_outside (by omega)

/-- A run is written in two parts. -/
theorem fill_append (m : Mem) (a : Addr) (v : BitVec 8) {n k : Nat} (h : n + k ≤ 2 ^ 64) :
    fill (fill m a n v) (a + BitVec.ofNat 64 n) k v = fill m a (n + k) v := by
  funext b
  rw [fill_eq, fill_eq, fill_eq]
  by_cases hfirst : (b - a).toNat < n
  · rw [if_pos hfirst, if_pos (show (b - a).toNat < n + k by omega), ite_self]
  · rw [if_neg hfirst]
    have hdist : k = 0 ∨ (b - (a + BitVec.ofNat 64 n)).toNat = (b - a).toNat - n := by
      have hlt := (b - a).isLt
      by_cases hk : k = 0
      · exact Or.inl hk
      · have hn : (BitVec.ofNat 64 n).toNat = n := toNat_word (by omega)
        exact Or.inr (by bv_omega)
    rcases hdist with rfl | hdist
    · rw [if_neg (Nat.not_lt_zero _), Nat.add_zero, if_neg hfirst]
    · have hiff : (b - a).toNat - n < k ↔ (b - a).toNat < n + k := by omega
      simp only [hdist, hiff]

theorem store_zero (m : Mem) (n : Nat) (a : Addr) : store m n a 0 = fill m a n 0 := by
  induction n generalizing a with
  | zero => rfl
  | succ n ih =>
    rw [store, fill, Nat.zero_div, ih]
    rfl

@[simp] theorem store64_zero (m : Mem) (a : Addr) : store64 m a 0 = fill m a 8 0 := store_zero m 8 a

end Microkernel.Bytes

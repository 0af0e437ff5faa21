/-
  Microkernel.Threads.Watermark — what the stack diagnostics of src/thread.cc say about a
  stack that has been written to (`stack_guard_ok`, `stack_high_watermark_bytes`).

  `stack_init_guard_and_watermark` writes the guard word by word, the last one byte by byte
  where the stack is smaller than the guard, and the watermark above it. The two checkers
  read whatever memory there is later: nothing is assumed of it but that the `Thread` still
  names the stack.

  Proved: byte `k` of the guard is byte `k % 8` of the magic number, for every size
  (`stackInit_guardByte`), and the checker accepts these bytes and no others
  (`stackGuardOk_iff`); the watermark loop stops at the first byte that is not the
  watermark (`unusedFrom_stop`, `unusedFrom_all`). So the diagnostics report exactly what
  was touched (`diagnostics_exact`).
-/

import Microkernel.Threads.Create

namespace Microkernel.Threads

open Arch Bytes

/-! ## src/thread.cc -/

/-- `for (i = ..; i < stack_size; ++i)`: the rounds that are left, `i` and `unused`. -/
def unusedFrom (m : Mem) (p : Addr) : Nat → Nat → Nat → Nat
  | 0, _, unused => unused
  | n + 1, i, unused => if m (p + BitVec.ofNat 64 i) ≠ kStackWatermark then unused else unusedFrom m p n (i + 1) (unused + 1)

/-- `stack_high_watermark_bytes`. -/
def stackHighWatermarkBytes (m : Mem) (t : Addr) : Nat :=
  let base := load64 m (t + 40)
  let size := (load64 m (t + 48)).toNat
  if t = 0#64 ∨ base = 0#64 ∨ size = 0 then 0
  else if size ≤ kStackGuardBytes then size
  else
    let unused := unusedFrom m base (size - kStackGuardBytes) kStackGuardBytes 0
    let usable := size - kStackGuardBytes
    if unused ≤ usable then usable - unused else usable

def threadStackHighWatermarkBytes (m : Mem) (t : Addr) : Nat := stackHighWatermarkBytes m t

/-! ## The guard -/

/-- Byte `k` of the guard. -/
def guardByte (k : Nat) : BitVec 8 := BitVec.ofNat 8 (kStackGuardMagic >>> (8 * (k % 8)))

/-- The bytes of a guard that has come as far as `n` words. -/
theorem guardWords_byte {m : Mem} {p : Addr} {guard n k : Nat} (hg : guard ≤ 64) (hn : n ≤ (guard + 7) / 8) (hk : k < guard) (hkn : k < 8 * n) :
    (List.range n).foldl
      (fun m i =>
        let remain := guard - 8 * i
        if remain < 8 then store m remain (p + BitVec.ofNat 64 (8 * i)) kStackGuardMagic
        else store m 8 (p + BitVec.ofNat 64 (8 * i)) kStackGuardMagic) m (p + BitVec.ofNat 64 k) = guardByte k := by
  induction n with
  | zero => omega
  | succ n ih =>
    have hword : (BitVec.ofNat 64 (8 * n)).toNat = 8 * n := toNat_word (by omega)
    have hbyte : (BitVec.ofNat 64 k).toNat = k := toNat_word (by omega)
    rw [List.range_succ, List.foldl_append, List.foldl_cons, List.foldl_nil]
    by_cases hlast : 8 * n ≤ k
    · -- a byte of the last word
      have hin : p + BitVec.ofNat 64 k = p + BitVec.ofNat 64 (8 * n) + BitVec.ofNat 64 (k - 8 * n) := by
        rw [BitVec.add_assoc, ← BitVec.ofNat_add]
        congr 2
        omega
      have hmod : k - 8 * n = k % 8 := by omega
      unfold guardByte
      rw [hin, ← hmod]
      simp only
      split
      · exact store_apply (by omega) (by omega)
      · exact store_apply (by decide) (by omega)
    · -- a byte of an earlier one
      simp only
      split
      · rw [store_outside (by bv_omega)]
        exact ih (by omega) (by omega)
      · rw [store_outside (by bv_omega)]
        exact ih (by omega) (by omega)

theorem stackGuard_byte {m : Mem} {p : Addr} {guard k : Nat} (hg : guard ≤ 64) (hk : k < guard) :
    stackGuard m p guard (p + BitVec.ofNat 64 k) = guardByte k :=
  guardWords_byte hg (by omega) hk (by omega)

theorem guardBytes_eq (size : Nat) : (if size ≥ kStackGuardBytes then kStackGuardBytes else size) = min 64 size := by
  unfold kStackGuardBytes
  split <;> omega

theorem stackInit_eq (m : Mem) {base : Addr} {size : Nat} (hbase : base ≠ 0#64) (hsize : 0 < size) :
    stackInitGuardAndWatermark m base size =
      fill (stackGuard m base (min 64 size)) (base + BitVec.ofNat 64 (min 64 size)) (size - min 64 size) kStackWatermark := by
  have hargs : ¬ (base = 0 ∨ size = 0) := by
    rintro (h0 | h0)
    · exact hbase h0
    · omega
  unfold stackInitGuardAndWatermark
  rw [if_neg hargs, guardBytes_eq]

/-- For every size, also one that is not a number of words. -/
theorem stackInit_guardByte {m : Mem} {base : Addr} {size k : Nat} (hbase : base ≠ 0#64) (hlt : size < 2 ^ 64) (hk : k < min 64 size) :
    stackInitGuardAndWatermark m base size (base + BitVec.ofNat 64 k) = guardByte k := by
  have hg : (BitVec.ofNat 64 (min 64 size)).toNat = min 64 size := toNat_word (by omega)
  have hbyte : (BitVec.ofNat 64 k).toNat = k := toNat_word (by omega)
  rw [stackInit_eq m hbase (by omega), fill_outside (by bv_omega)]
  exact stackGuard_byte (by omega) hk

theorem stackInit_watermark {m : Mem} {base : Addr} {size k : Nat} (hbase : base ≠ 0#64) (hlt : size < 2 ^ 64) (hlow : 64 ≤ k) (hk : k < size) :
    stackInitGuardAndWatermark m base size (base + BitVec.ofNat 64 k) = kStackWatermark := by
  have hbyte : (BitVec.ofNat 64 k).toNat = k := toNat_word (by omega)
  have hg : min 64 size = 64 := by omega
  rw [stackInit_eq m hbase (by omega), hg]
  exact fill_apply (by bv_omega)

section Checks

variable {m : Mem} {t base : Addr} {size : BitVec 64}

/-- The checkers look at the stack. -/
theorem args_ok (ht : t ≠ 0#64) (hbase : base ≠ 0#64) (hsize : 0 < size.toNat) : ¬ (t = 0#64 ∨ base = 0#64 ∨ size.toNat = 0) := by
  rintro (h0 | h0 | h0)
  · exact ht h0
  · exact hbase h0
  · omega

theorem stackGuardOk_iff (ht : t ≠ 0#64) (hbase : base ≠ 0#64) (hsize : 0 < size.toNat) (hb : load64 m (t + 40) = base)
    (hs : load64 m (t + 48) = size) :
    stackGuardOk m t = true ↔ ∀ k < min 64 size.toNat, m (base + BitVec.ofNat 64 k) = guardByte k := by
  have hoff : ∀ i j, base + BitVec.ofNat 64 (8 * i) + BitVec.ofNat 64 j = base + BitVec.ofNat 64 (8 * i + j) := by
    intro i j
    rw [BitVec.add_assoc, ← BitVec.ofNat_add]
  have hmagic : kStackGuardMagic < 256 ^ 8 := by decide
  unfold stackGuardOk
  simp only [hb, hs, guardBytes_eq]
  rw [if_neg (args_ok ht hbase hsize), List.all_eq_true]
  constructor
  · intro h k hk
    have hword := h (k / 8) (List.mem_range.mpr (by omega))
    unfold guardByte
    split at hword
    · -- the tail
      rw [List.all_eq_true] at hword
      have hbyte := of_decide_eq_true (hword (k % 8) (List.mem_range.mpr (by omega)))
      rw [Nat.div_add_mod] at hbyte
      exact hbyte
    · rw [decide_eq_true_eq, load64_eq_ofNat hmagic, load_eq_iff_bytes (by decide) hmagic] at hword
      have hbyte := hword (k % 8) (by omega)
      rw [hoff, Nat.div_add_mod] at hbyte
      exact hbyte
  · intro h i hi
    have hi := List.mem_range.mp hi
    split
    · rw [List.all_eq_true]
      intro j hj
      have hj := List.mem_range.mp hj
      have hbyte := h (8 * i + j) (by omega)
      have hmod : (8 * i + j) % 8 = j := by omega
      rw [guardByte, hmod] at hbyte
      exact decide_eq_true hbyte
    · rw [decide_eq_true_eq, load64_eq_ofNat hmagic, load_eq_iff_bytes (by decide) hmagic]
      intro j hj
      have hbyte := h (8 * i + j) (by omega)
      have hmod : (8 * i + j) % 8 = j := by omega
      rw [guardByte, hmod] at hbyte
      rw [hoff]
      exact hbyte

/-! ## The watermark -/

theorem unusedFrom_stop {p : Addr} {n i k unused : Nat} (hi : i ≤ k) (hk : k < i + n)
    (h : ∀ j, i ≤ j → j < k → m (p + BitVec.ofNat 64 j) = kStackWatermark) (hne : m (p + BitVec.ofNat 64 k) ≠ kStackWatermark) :
    unusedFrom m p n i unused = unused + (k - i) := by
  induction n generalizing i unused with
  | zero => omega
  | succ n ih =>
    rw [unusedFrom]
    by_cases heq : i = k
    · subst heq
      rw [if_pos hne]
      omega
    · rw [if_neg (not_not.mpr (h i (by omega) (by omega)))]
      rw [ih (by omega) (by omega) fun j hj => h j (by omega)]
      omega

theorem unusedFrom_all {p : Addr} {n i unused : Nat} (h : ∀ j, i ≤ j → j < i + n → m (p + BitVec.ofNat 64 j) = kStackWatermark) :
    unusedFrom m p n i unused = unused + n := by
  induction n generalizing i unused with
  | zero => rfl
  | succ n ih =>
    rw [unusedFrom, if_neg (not_not.mpr (h i (by omega) (by omega)))]
    rw [ih fun j hj hlt => h j (by omega) (by omega)]
    omega

theorem highWatermark_eq (ht : t ≠ 0#64) (hbase : base ≠ 0#64) (hsize : 64 < size.toNat) (hb : load64 m (t + 40) = base)
    (hs : load64 m (t + 48) = size) (hle : unusedFrom m base (size.toNat - 64) 64 0 ≤ size.toNat - 64) :
    stackHighWatermarkBytes m t = size.toNat - 64 - unusedFrom m base (size.toNat - 64) 64 0 := by
  unfold stackHighWatermarkBytes kStackGuardBytes
  simp only [hb, hs]
  rw [if_neg (args_ok ht hbase (by omega)), if_neg (by omega), if_pos hle]

theorem highWatermark_stop (ht : t ≠ 0#64) (hbase : base ≠ 0#64) (hb : load64 m (t + 40) = base) (hs : load64 m (t + 48) = size) {k : Nat}
    (hlow : 64 ≤ k) (hk : k < size.toNat) (hne : m (base + BitVec.ofNat 64 k) ≠ kStackWatermark)
    (h : ∀ j, 64 ≤ j → j < k → m (base + BitVec.ofNat 64 j) = kStackWatermark) : stackHighWatermarkBytes m t = size.toNat - k := by
  have hstop : unusedFrom m base (size.toNat - 64) 64 0 = 0 + (k - 64) := unusedFrom_stop hlow (by omega) h hne
  rw [highWatermark_eq ht hbase (by omega) hb hs (by omega), hstop]
  omega

theorem highWatermark_all (ht : t ≠ 0#64) (hbase : base ≠ 0#64) (hsize : 64 < size.toNat) (hb : load64 m (t + 40) = base)
    (hs : load64 m (t + 48) = size) (h : ∀ j, 64 ≤ j → j < size.toNat → m (base + BitVec.ofNat 64 j) = kStackWatermark) :
    stackHighWatermarkBytes m t = 0 := by
  have hall : unusedFrom m base (size.toNat - 64) 64 0 = 0 + (size.toNat - 64) :=
    unusedFrom_all fun j hj hlt => h j hj (by omega)
  rw [highWatermark_eq ht hbase hsize hb hs (by omega), hall]
  omega

/-- `m'` is any memory after the initialisation of the stack, whatever was written since, in
    which the `Thread` has the stack. -/
theorem diagnostics_exact {m' : Mem} (ht : t ≠ 0#64) (hbase : base ≠ 0#64) (hsize : 0 < size.toNat) (hb : load64 m' (t + 40) = base)
    (hs : load64 m' (t + 48) = size) :
    (stackGuardOk m' t = true ↔
      ∀ k < min 64 size.toNat,
        m' (base + BitVec.ofNat 64 k) = stackInitGuardAndWatermark m base size.toNat (base + BitVec.ofNat 64 k)) ∧
    (64 < size.toNat →
      (∀ k, 64 ≤ k → k < size.toNat → m' (base + BitVec.ofNat 64 k) ≠ 0xA5 →
        (∀ j, 64 ≤ j → j < k → m' (base + BitVec.ofNat 64 j) = 0xA5) → stackHighWatermarkBytes m' t = size.toNat - k) ∧
      ((∀ j, 64 ≤ j → j < size.toNat → m' (base + BitVec.ofNat 64 j) = 0xA5) → stackHighWatermarkBytes m' t = 0)) := by
  constructor
  · rw [stackGuardOk_iff ht hbase hsize hb hs]
    refine forall₂_congr fun k hk => ?_
    rw [stackInit_guardByte hbase size.isLt hk]
  · intro hlarge
    constructor
    · intro k hlow hk hne h
      exact highWatermark_stop ht hbase hb hs hlow hk hne h
    · intro h
      exact highWatermark_all ht hbase hlarge hb hs h

/-- Before anything is written, the guard is intact and nothing counts as used. -/
theorem diagnostics_untouched {m' : Mem} (ht : t ≠ 0#64) (hbase : base ≠ 0#64) (hsize : 64 < size.toNat) (hb : load64 m' (t + 40) = base)
    (hs : load64 m' (t + 48) = size)
    (h : ∀ k < size.toNat, m' (base + BitVec.ofNat 64 k) = stackInitGuardAndWatermark m base size.toNat (base + BitVec.ofNat 64 k)) :
    stackGuardOk m' t = true ∧ stackHighWatermarkBytes m' t = 0 := by
  constructor
  · rw [stackGuardOk_iff ht hbase (by omega) hb hs]
    intro k hk
    rw [h k (by omega)]
    exact stackInit_guardByte hbase size.isLt hk
  · refine highWatermark_all ht hbase hsize hb hs fun j hlow hj => ?_
    rw [h j hj]
    exact stackInit_watermark hbase size.isLt hlow hj

end Checks

/-- A stack of 70 bytes whose byte 66 was written. -/
def touchedStack : Mem :=
  Function.update
    (store64 (store64 (stackInitGuardAndWatermark (fun _ => 0) 0x2000#64 70) 0x1028#64 0x2000#64) 0x1030#64 70#64) 0x2042#64 7

theorem diagnostics_exact_touched :
    (stackGuardOk touchedStack 0x1000#64 = true ↔
      ∀ k < min 64 70,
        touchedStack (0x2000#64 + BitVec.ofNat 64 k) =
          stackInitGuardAndWatermark (fun _ => 0) 0x2000#64 70 (0x2000#64 + BitVec.ofNat 64 k)) ∧
    stackHighWatermarkBytes touchedStack 0x1000#64 = 4 := by
  obtain ⟨hguard, hmark⟩ := @diagnostics_exact (fun _ => 0) 0x1000#64 0x2000#64 70#64 touchedStack
    (by decide) (by decide) (by decide) (by decide) (by decide)
  refine ⟨hguard, (hmark (by decide)).1 66 (by decide) (by decide) (by decide) ?_⟩
  intro j hj hlt
  interval_cases j <;> decide

end Microkernel.Threads

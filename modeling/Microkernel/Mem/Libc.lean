/-
  Microkernel.Mem.Libc — `memcpy` and `memmove` of src/libc.cc, byte by byte.

  A loop is what it has done to memory after so many rounds: upwards the last round is the
  one of the highest byte, downwards that of the lowest. Each round reads the memory that
  the rounds before it left.

  Proved: a loop writes its destination only (`copyUp_outside`, `copyDown_outside`); upwards
  it copies if the destination does not begin inside the source, downwards if it does not
  begin below it (`copyUp_copied`, `copyDown_copied`), since then the bytes still to be read
  are none of those written; `memmove` takes the right one for any two ranges
  (`memmove_copies`), `memcpy` needs one of the two not to reach into the other
  (`memcpy_copies`).
-/

import Microkernel.Lib.Bytes

namespace Microkernel.Libc

open Bytes

/-! ## src/libc.cc -/

/-- `for (i = 0; i < n; ++i) d[i] = s[i]`. -/
def copyUp (m : Mem) (d s : Addr) : Nat → Mem
  | 0 => m
  | n + 1 => Function.update (copyUp m d s n) (d + BitVec.ofNat 64 n) (copyUp m d s n (s + BitVec.ofNat 64 n))

/-- `for (i = n; i != 0; --i) d[i - 1] = s[i - 1]`. -/
def copyDown (m : Mem) (d s : Addr) : Nat → Mem
  | 0 => m
  | i + 1 => copyDown (Function.update m (d + BitVec.ofNat 64 i) (m (s + BitVec.ofNat 64 i))) d s i

/-- The memory, and the result. -/
def memcpy (m : Mem) (dst src n : BitVec 64) : Mem × Addr := (copyUp m dst src n.toNat, dst)

def memmove (m : Mem) (dst src n : BitVec 64) : Mem × Addr :=
  if dst = src ∨ n = 0#64 then (m, dst)
  else if dst < src then (copyUp m dst src n.toNat, dst)
  else (copyDown m dst src n.toNat, dst)

/-! ## The two loops -/

/-- `m'` has at `d` the `n` bytes that `m` has at `s`, and is `m` elsewhere. -/
structure Copied (m m' : Mem) (d s : Addr) (n : Nat) : Prop where
  copied : ∀ i < n, m' (d + BitVec.ofNat 64 i) = m (s + BitVec.ofNat 64 i)
  outside : ∀ a, (∀ i < n, a ≠ d + BitVec.ofNat 64 i) → m' a = m a

/-- Two bytes of a range that does not wrap around. -/
theorem add_ofNat_toNat {p : Addr} {i n : Nat} (hi : i < n) (hp : p.toNat + n ≤ 2 ^ 64) : (p + BitVec.ofNat 64 i).toNat = p.toNat + i := by
  rw [BitVec.toNat_add, BitVec.toNat_ofNat]
  omega

theorem copyUp_outside {m : Mem} {d s a : Addr} {n : Nat} (h : ∀ i < n, a ≠ d + BitVec.ofNat 64 i) : copyUp m d s n a = m a := by
  induction n with
  | zero => rfl
  | succ n ih =>
    rw [copyUp, Function.update_of_ne (h n (by omega))]
    exact ih fun i hi => h i (by omega)

theorem copyDown_outside {m : Mem} {d s a : Addr} {n : Nat} (h : ∀ i < n, a ≠ d + BitVec.ofNat 64 i) : copyDown m d s n a = m a := by
  induction n generalizing m with
  | zero => rfl
  | succ n ih =>
    rw [copyDown, ih fun i hi => h i (by omega)]
    exact Function.update_of_ne (h n (by omega)) _ _

section Loops

variable {m : Mem} {d s : Addr} {n : Nat}

/-- Upwards, a byte above the ones written is still the old one. -/
theorem copyUp_unread (hd : d.toNat + n ≤ 2 ^ 64) (hs : s.toNat + n ≤ 2 ^ 64) (hds : d.toNat ≤ s.toNat ∨ s.toNat + n ≤ d.toNat)
    {k i : Nat} (hk : k ≤ i) (hi : i < n) : copyUp m d s k (s + BitVec.ofNat 64 i) = m (s + BitVec.ofNat 64 i) := by
  apply copyUp_outside
  intro j hj he
  have he := congrArg BitVec.toNat he
  rw [add_ofNat_toNat hi hs, add_ofNat_toNat (n := n) (by omega) hd] at he
  omega

theorem copyUp_copied (hd : d.toNat + n ≤ 2 ^ 64) (hs : s.toNat + n ≤ 2 ^ 64) (hds : d.toNat ≤ s.toNat ∨ s.toNat + n ≤ d.toNat) :
    Copied m (copyUp m d s n) d s n := by
  refine ⟨?_, fun a h => copyUp_outside h⟩
  -- the bytes below the counter are copied
  have hdone : ∀ k ≤ n, ∀ i < k, copyUp m d s k (d + BitVec.ofNat 64 i) = m (s + BitVec.ofNat 64 i) := by
    intro k
    induction k with
    | zero =>
      intro _ i hi
      omega
    | succ k ih =>
      intro hk i hi
      rw [copyUp]
      by_cases hik : i = k
      · subst hik
        rw [Function.update_self]
        exact copyUp_unread hd hs hds (le_refl i) (by omega)
      · rw [Function.update_of_ne]
        · exact ih (by omega) i (by omega)
        · intro he
          have he := congrArg BitVec.toNat he
          rw [add_ofNat_toNat (n := n) (by omega) hd, add_ofNat_toNat (n := n) (by omega) hd] at he
          omega
  exact hdone n (le_refl n)

/-- Downwards, the rounds to come read below the byte just written. -/
theorem copyDown_copied (hd : d.toNat + n ≤ 2 ^ 64) (hs : s.toNat + n ≤ 2 ^ 64) (hds : s.toNat ≤ d.toNat) :
    Copied m (copyDown m d s n) d s n := by
  refine ⟨?_, fun a h => copyDown_outside h⟩
  induction n generalizing m with
  | zero =>
    intro i hi
    omega
  | succ n ih =>
    intro i hi
    rw [copyDown]
    by_cases hin : i = n
    · -- the first round's byte is not written again
      subst hin
      rw [copyDown_outside, Function.update_self]
      intro j hj he
      have he := congrArg BitVec.toNat he
      rw [add_ofNat_toNat hi hd, add_ofNat_toNat (n := i + 1) (by omega) hd] at he
      omega
    · rw [ih (by omega) (by omega) i (by omega)]
      apply Function.update_of_ne
      intro he
      have he := congrArg BitVec.toNat he
      rw [add_ofNat_toNat hi hs, add_ofNat_toNat (n := n + 1) (by omega) hd] at he
      omega

end Loops

/-! ## The two functions -/

theorem copied_self (m : Mem) (d : Addr) (n : Nat) : Copied m m d d n := ⟨fun _ _ => rfl, fun _ _ => rfl⟩

theorem copied_none (m : Mem) (d s : Addr) : Copied m m d s 0 := by
  refine ⟨fun i hi => ?_, fun _ _ => rfl⟩
  omega

/-- For ranges that do not wrap around, whatever their distance: the destination gets the
    source's old bytes, and no other byte changes. -/
theorem memmove_copies (m : Mem) {dst src n : BitVec 64} (hd : dst.toNat + n.toNat ≤ 2 ^ 64) (hs : src.toNat + n.toNat ≤ 2 ^ 64) :
    (memmove m dst src n).2 = dst ∧ Copied m (memmove m dst src n).1 dst src n.toNat := by
  unfold memmove
  by_cases htriv : dst = src ∨ n = 0#64
  · rw [if_pos htriv]
    refine ⟨rfl, ?_⟩
    rcases htriv with rfl | rfl
    · exact copied_self m dst n.toNat
    · exact copied_none m dst src
  · rw [if_neg htriv]
    by_cases hlt : dst < src
    · rw [if_pos hlt]
      exact ⟨rfl, copyUp_copied hd hs (Or.inl (le_of_lt hlt))⟩
    · rw [if_neg hlt]
      refine ⟨rfl, copyDown_copied hd hs ?_⟩
      rw [BitVec.lt_def] at hlt
      omega

/-- Eight bytes moved up by three, over five of themselves. -/
theorem memmove_copies_up :
    (memmove (fun a => a.setWidth 8) 0x1003#64 0x1000#64 8#64).1 0x100a#64 = 7#8 ∧
      (memmove (fun a => a.setWidth 8) 0x1003#64 0x1000#64 8#64).1 0x1002#64 = 2#8 := by
  obtain ⟨-, hcopied, houtside⟩ := memmove_copies (fun a => a.setWidth 8)
    (show (0x1003#64).toNat + (8#64).toNat ≤ 2 ^ 64 by decide) (show (0x1000#64).toNat + (8#64).toNat ≤ 2 ^ 64 by decide)
  exact ⟨hcopied 7 (by decide), houtside 0x1002#64 (by decide)⟩

theorem memcpy_copies (m : Mem) {dst src n : BitVec 64} (hd : dst.toNat + n.toNat ≤ 2 ^ 64) (hs : src.toNat + n.toNat ≤ 2 ^ 64)
    (hds : dst.toNat ≤ src.toNat ∨ src.toNat + n.toNat ≤ dst.toNat) :
    (memcpy m dst src n).2 = dst ∧ Copied m (memcpy m dst src n).1 dst src n.toNat :=
  ⟨rfl, copyUp_copied hd hs hds⟩

end Microkernel.Libc

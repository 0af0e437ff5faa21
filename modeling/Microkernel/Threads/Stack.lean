/-
  Microkernel.Threads.Stack — where a created thread starts (`thread_create_prio`,
  `stack_init_guard_and_watermark` and `stack_guard_ok` of src/thread.cc).

  Three things lie in one stack: 64 bytes of guard words at its bottom, the watermark
  above, and at the top, rounded down to 16, the frame of 96 bytes that the first
  `arch_switch` pops. Below it is the page that `mmu_guard_page` was asked to unmap, with
  whatever result. `thread_create_prio` only rejects a size of 0.

  Proved: in every state of the allocators and for every size that fits into the heap,
  creation succeeds, and the thread starts inside its stack, with nothing stored in the
  page below and the guard words intact, if and only if the stack has 160 bytes or more
  (`starts_inside`). With 80 bytes the frame reaches into the page
  (`starts_below_the_stack`).
-/

import Microkernel.Threads.Allocators
import Microkernel.Mmu.Guard

namespace Microkernel.Threads

open Align Arch Bytes Statics

/-- `t->sp`, `t->stack_base` and `t->stack_size` are read from the `Thread`; `stores` makes
    the stores after `mmu_guard_page`, with values that do not depend on the memory, so a
    byte that one falls on is changed in some memory. -/
structure StartsInside (m : Mem) (stores : Mem → Mem) (t : Addr) : Prop where
  aligned : 16 ∣ (load64 m t).toNat
  above_guard : (load64 m (t + 40)).toNat + 64 ≤ (load64 m t).toNat
  below_top : (load64 m t).toNat + 96 ≤ (load64 m (t + 40)).toNat + (load64 m (t + 48)).toNat
  guard_page : ∀ m' a, (load64 m (t + 40)).toNat ≤ a.toNat + 4096 → a.toNat < (load64 m (t + 40)).toNat → stores m' a = m' a
  guard_ok : threadStackGuardOk m t = 1

section Layout

variable {trampoline : Addr} {d : Created} {id : Nat} {prio : Int} {m : Mem}

/-- The top of a stack that starts on a page. -/
theorem top_of_page (hpage : 4096 ∣ d.base.toNat) (hend : d.base.toNat + d.size.toNat < 2 ^ 64) :
    d.top.toNat = d.base.toNat + d.size.toNat / 16 * 16 := by
  obtain ⟨c, hc⟩ := hpage
  rw [top_toNat, BitVec.toNat_add, Nat.mod_eq_of_lt hend]
  omega

/-- The stack and the `Thread` of a creation. -/
structure OwnStack (d : Created) : Prop where
  tcb : d.tcb ≠ 0#64
  page : 4096 ∣ d.base.toNat
  low : 4096 ≤ d.base.toNat
  fits : d.base.toNat + d.size.toNat < 2 ^ 64
  apart : d.tcb.toNat + threadBytes + 4096 ≤ d.base.toNat

/-- Bytes from the page below the stack up to the frame are not the `Thread`'s. -/
theorem OwnStack.tcb_apart (hd : OwnStack d) {a : Addr} (ha : d.base.toNat ≤ a.toNat + 4096) : threadBytes ≤ (a - d.tcb).toNat := by
  have hapart := hd.apart
  unfold threadBytes at hapart ⊢
  bv_omega

theorem OwnStack.frame (hd : OwnStack d) : (d.top - 96).toNat = d.base.toNat + d.size.toNat / 16 * 16 - 96 := by
  have htop := top_of_page hd.page hd.fits
  have hlow := hd.low
  have hfits := hd.fits
  bv_omega

/-- The guard words are written first, and nothing behind them falls on them. -/
theorem OwnStack.guard_word (hd : OwnStack d) (hsize : 160 ≤ d.size.toNat) {i : Nat} (hi : i < 8) :
    load64 (createThread trampoline d id prio m) (d.base + BitVec.ofNat 64 (8 * i)) = BitVec.ofNat 64 kStackGuardMagic := by
  have hlow := hd.low
  have hfits := hd.fits
  have hframe := hd.frame
  have hbase : d.base ≠ 0 := by
    intro h0
    rw [h0] at hlow
    exact absurd hlow (by decide)
  rw [← stackInit_guard (m := m) hbase (show 64 ≤ d.size.toNat by omega) d.size.isLt hi, createThread_eq]
  refine load64_congr fun b hb => ?_
  have ho : (BitVec.ofNat 64 (8 * i)).toNat = 8 * i := toNat_word (by omega)
  have hb : b.toNat < d.base.toNat + 64 ∧ d.base.toNat ≤ b.toNat := by bv_omega
  rw [fields_outside (hd.tcb_apart (by omega)), storeWords_outside (n := 96) Aarch64.pairWords_lt (by bv_omega)]

theorem OwnStack.guard_ok (hd : OwnStack d) (hsize : 160 ≤ d.size.toNat) :
    threadStackGuardOk (createThread trampoline d id prio m) d.tcb = 1 := by
  have hbase : load64 (createThread trampoline d id prio m) (d.tcb + 40) = d.base := createThread_stack.1
  have hds : load64 (createThread trampoline d id prio m) (d.tcb + 48) = d.size := createThread_stack.2
  have hlow := hd.low
  have hargs : ¬ (d.tcb = 0#64 ∨ d.base = 0#64 ∨ d.size.toNat = 0) := by
    rintro (h0 | h0 | h0)
    · exact hd.tcb h0
    · rw [h0] at hlow
      exact absurd hlow (by decide)
    · omega
  have hall : stackGuardOk (createThread trampoline d id prio m) d.tcb = true := by
    unfold stackGuardOk kStackGuardBytes
    simp only [hbase, hds]
    rw [if_neg hargs, if_pos (show d.size.toNat ≥ 64 by omega), List.all_eq_true]
    intro i hi
    have hi := List.mem_range.mp hi
    rw [if_neg (by omega), hd.guard_word hsize (by omega)]
    exact decide_eq_true rfl
  unfold threadStackGuardOk
  rw [if_pos hall]

theorem OwnStack.starts_iff (hd : OwnStack d) :
    StartsInside (createThread trampoline d id prio m) (createThread trampoline d id prio) d.tcb ↔ 160 ≤ d.size.toNat := by
  have hsp : load64 (createThread trampoline d id prio m) d.tcb = d.top - 96 := createThread_fields.1
  have hbase : load64 (createThread trampoline d id prio m) (d.tcb + 40) = d.base := createThread_stack.1
  have hds : load64 (createThread trampoline d id prio m) (d.tcb + 48) = d.size := createThread_stack.2
  have hlow := hd.low
  have hfits := hd.fits
  have hframe := hd.frame
  constructor
  · intro h
    have habove := h.above_guard
    rw [hsp, hbase, hframe] at habove
    omega
  · intro hsize
    refine ⟨?_, ?_, ?_, ?_, hd.guard_ok hsize⟩
    · obtain ⟨c, hc⟩ := hd.page
      rw [hsp, hframe]
      exact ⟨256 * c + d.size.toNat / 16 - 6, by omega⟩
    · rw [hsp, hbase, hframe]
      omega
    · rw [hsp, hbase, hds, hframe]
      omega
    · rw [hbase]
      intro m' a hpage hbelow
      exact createThread_outside hsize (by bv_omega) (hd.tcb_apart hpage)

end Layout

/-- In every state of a run, a creation whose memory lies in the heap succeeds, and its
    thread starts inside its stack if and only if that has 160 bytes or more. -/
theorem starts_inside {b : Mmu.Board} {L : Mmu.Layout} {trampoline : Addr} {h : PageHeap} {s : Statics}
    (r : CreateRun b L trampoline h s) {entry stackSize : BitVec 64} (arg : BitVec 64) (prio : Int) (hentry : entry ≠ 0#64)
    (hsize : 0 < stackSize.toNat) (hfit : s.FitsHeap stackSize) :
    ∃ s' d m, s.threadCreatePrio b L trampoline entry arg stackSize prio = (s', some d) ∧ d.tcb ≠ 0#64 ∧
      s'.mem = createThread trampoline d s.nextThreadId prio m ∧
      (StartsInside s'.mem (createThread trampoline d s.nextThreadId prio) d.tcb ↔ 160 ≤ stackSize.toNat) := by
  obtain ⟨backing, held, hi⟩ := allocInv_run r
  obtain ⟨s', d, m, held', heq, htcb, hds, hbase, hbelow, hmem, -⟩ := hi.create b L trampoline arg prio hentry hsize hfit
  have hword := s.kmem.stop.isLt
  have hceil := le_ceilTo (a := 4096) (by decide) s.stackCur
  have hdvd := dvd_ceilTo 4096 s.stackCur
  unfold FitsHeap at hfit
  have hd : OwnStack d := by
    refine ⟨htcb, ?_, by omega, ?_, by omega⟩
    · rw [hbase]
      exact Nat.dvd_add hdvd (Nat.dvd_refl 4096)
    · rw [hbase, hds]
      omega
  refine ⟨s', d, m, heq, htcb, hmem, ?_⟩
  rw [hmem, ← hds]
  exact hd.starts_iff

/-! ## Two sizes -/

def sampleHeap : PageHeap := ⟨⟨0x40400000#64, 0x40500000#64, by decide, by decide⟩, by decide⟩

/-- After `kmem_init` and `sched_init`. -/
def sampleStatics : Statics :=
  Statics.schedInit ⟨fun _ => 0#8, ⟨0#64, 0#64, 0#64, 0#64, 0#64⟩, false, 0, Kmem.init sampleHeap.toHeap, ⟨fun _ => 0#64, 0, 0#64, 0#64, 0#64, 0#64⟩⟩

theorem sampleStatics_run : CreateRun .virt Mmu.sampleLayout 0x40080000#64 sampleHeap sampleStatics := by
  refine CreateRun.boot KmemRun.init ?_
  have hclog : effAlign kThreadPoolAlign = 16 := by decide
  have hplace : (Kmem.init sampleHeap.toHeap).place kThreadPoolAlign = 0x40400000 := by
    unfold Kmem.place
    rw [hclog]
    decide
  unfold Fits
  rw [hplace]
  decide

/-- 16 KiB, as in kmain.cc. -/
theorem starts_inside_16k :
    ∃ s' d, sampleStatics.threadCreatePrio .virt Mmu.sampleLayout 0x40080000#64 0x40081000#64 0#64 16384#64 10 = (s', some d) ∧
      StartsInside s'.mem (createThread 0x40080000#64 d sampleStatics.nextThreadId 10) d.tcb := by
  obtain ⟨s', d, m, heq, -, -, hiff⟩ := starts_inside sampleStatics_run 0#64 10 (show 0x40081000#64 ≠ 0#64 by decide)
    (show 0 < (16384#64).toNat by decide) (by unfold FitsHeap; decide +kernel)
  exact ⟨s', d, heq, hiff.mpr (by decide)⟩

/-- 80 bytes: the frame starts 16 bytes below the stack, and the guard words are gone. -/
theorem starts_below_the_stack :
    CreateRun .virt Mmu.sampleLayout 0x40080000#64 sampleHeap sampleStatics ∧ sampleStatics.FitsHeap 80#64 ∧
      ∃ d, (sampleStatics.threadCreatePrio .virt Mmu.sampleLayout 0x40080000#64 0x40081000#64 0#64 80#64 10).2 = some d ∧
        (load64 (sampleStatics.threadCreatePrio .virt Mmu.sampleLayout 0x40080000#64 0x40081000#64 0#64 80#64 10).1.mem d.tcb).toNat + 16 =
          d.base.toNat ∧
        threadStackGuardOk (sampleStatics.threadCreatePrio .virt Mmu.sampleLayout 0x40080000#64 0x40081000#64 0#64 80#64 10).1.mem d.tcb = 0 := by
  refine ⟨sampleStatics_run, by unfold FitsHeap; decide +kernel, ⟨0x40404d80#64, 0x40407000#64, 80#64, 0x40081000#64, 0#64⟩, ?_, ?_, ?_⟩
  · decide +kernel
  · decide +kernel
  · decide +kernel

end Microkernel.Threads

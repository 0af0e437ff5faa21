/-
  Microkernel.Arch.Context — the context of a thread in memory: `arch_switch` and
  `thread_trampoline` of src/arch/aarch64/ctx.S, and what `thread_create_prio`,
  `sched_start` and `do_switch` of src/thread.cc store for them.

  Memory is bytes. `arch_switch` pushes x19..x30 on the stack of the outgoing thread,
  stores SP in its `Thread::sp`, takes SP from the argument and pops. `thread_create_prio`
  forges such a frame at the top of a new stack. Offsets in `Thread` are those that
  include/thread.h asserts, and the compiler's for the rest.

  Proved: `arch_switch` leaves x19..x30 in a frame below the old SP (`switched_saves`) and
  takes them from the frame at the new one (`switched_loads`); a new thread has a frame that
  returns to `thread_trampoline` (`createThread_frame`, `createThread_fields`).
-/

import Mathlib
import Microkernel.Lib.Aarch64
import Microkernel.Lib.Align
import Microkernel.Preempt.Machine

namespace Microkernel.Arch

open Aarch64 Bytes

/-! ## src/arch/aarch64/ctx.S -/

def archSwitchCode : List Instr :=
  [.stpPre 19 20 .sp 16,
   .stpPre 21 22 .sp 16,
   .stpPre 23 24 .sp 16,
   .stpPre 25 26 .sp 16,
   .stpPre 27 28 .sp 16,
   .stpPre 29 30 .sp 16,
   .mov (.x 2) .sp,
   .str 2 (.x 0) 0,
   .mov .sp (.x 1),
   .ldpPost 29 30 .sp 16,
   .ldpPost 27 28 .sp 16,
   .ldpPost 25 26 .sp 16,
   .ldpPost 23 24 .sp 16,
   .ldpPost 21 22 .sp 16,
   .ldpPost 19 20 .sp 16,
   .ret]

/-- Up to the call of the entry; after it `bl thread_exit`, and label 1 waits for ever. -/
def threadTrampolineCode : List Instr :=
  [.mrs 0 .tpidrEl1,
   .ldr 1 (.x 0) 8,
   .ldr 2 (.x 1) 8,
   .ldr 3 (.x 1) 16,
   .mov (.x 0) (.x 3),
   .blr 2,
   .bl,
   .b 7]

def archSwitch (at_ : Addr) (c : Cpu) : Option Cpu := run archSwitchCode at_ id archSwitchCode.length 0 c

def threadTrampoline (at_ : Addr) (c : Cpu) : Option Cpu := run threadTrampolineCode at_ id threadTrampolineCode.length 0 c

/-! ## `arch_switch` -/

/-- The pairs in the order they are pushed. -/
def savedPairs : List (Reg × Reg) := [(19, 20), (21, 22), (23, 24), (25, 26), (27, 28), (29, 30)]

/-- x19..x30 at their offsets in a frame. -/
def savedSlots : List (Reg × Nat) := popLoads 0 savedPairs.reverse

/-- A frame with x19..x30 of `x` lies at `sp`. -/
def SavedFrame (m : Mem) (sp : Addr) (x : Reg → BitVec 64) : Prop := ∀ l ∈ savedSlots, load64 m (sp + BitVec.ofNat 64 l.2) = x l.1

theorem savedSlots_mem : ∀ r : Reg, 19 ≤ r.val → r.val ≤ 30 → ∃ o, o + 8 ≤ 96 ∧ (r, o) ∈ savedSlots := by
  have h : ∀ r : Reg, 19 ≤ r.val → r.val ≤ 30 → ∃ l ∈ savedSlots, l.1 = r ∧ l.2 + 8 ≤ 96 := by decide
  intro r h1 h2
  obtain ⟨l, hl, rfl, ho⟩ := h r h1 h2
  exact ⟨l.2, ho, hl⟩

theorem savedSlots_range : ∀ l ∈ savedSlots, l.2 + 8 ≤ 96 ∧ 19 ≤ l.1.val := by decide

theorem savedSlots_nodup : (savedSlots.map Prod.fst).Nodup := by decide

theorem SavedFrame.congr {m m' : Mem} {sp : Addr} {x : Reg → BitVec 64} (h : SavedFrame m sp x)
    (hm : ∀ a, (a - sp).toNat < 96 → m' a = m a) : SavedFrame m' sp x := by
  intro l hl
  rw [← h l hl]
  have ho := (savedSlots_range l hl).1
  refine load64_congr fun b hb => hm b ?_
  have h1 : (BitVec.ofNat 64 l.2).toNat = l.2 := toNat_word (by omega)
  bv_omega

/-- What `arch_switch` does. -/
def switched (c : Cpu) : Cpu :=
  let pushed := (pairsOf c.x savedPairs).foldl pushPair (c.mem, c.sp)
  let m := store64 pushed.1 (c.x 0) pushed.2
  let x := loadWords m (c.x 1) savedSlots (Function.update c.x 2 pushed.2)
  { c with mem := m, x := x, sp := c.x 1 + 96, pc := x 30 }

theorem archSwitch_eq (at_ : Addr) (c : Cpu) : archSwitch at_ c = some (switched c) := by
  let mid : List Instr := [.mov (.x 2) .sp, .str 2 (.x 0) 0, .mov .sp (.x 1)]
  have hblock := @run_block archSwitchCode at_ id 1 0 c (pushes savedPairs ++ mid ++ pops savedPairs.reverse) (by decide)
  have hret := @run_ret archSwitchCode at_ id 0 15 (execAll c (pushes savedPairs ++ mid ++ pops savedPairs.reverse)) rfl
  have hrun : archSwitch at_ c = _ := hblock.trans hret
  rw [hrun]
  let pushed := (pairsOf c.x savedPairs).foldl pushPair (c.mem, c.sp)
  let c1 : Cpu := { c with x := Function.update c.x 2 pushed.2, sp := c.x 1, mem := store64 pushed.1 (c.x 0) pushed.2 }
  have hmid : execAll c (pushes savedPairs ++ mid) = c1 := by
    rw [execAll_append, execAll_pushes]
    simp only [mid, execAll, List.foldl, exec, Cpu.set, Cpu.get, Cpu.setX, Function.update_self, BitVec.add_zero, c1]
    rfl
  have hpops := execAll_pops (c := c1) (p := c.x 1) (o := 0) savedPairs.reverse (BitVec.add_zero _).symm
  rw [execAll_append, hmid, hpops]
  rfl

section Switched

variable {c : Cpu}

theorem pushed_eq (x : Reg → BitVec 64) (m : Mem) (sp : Addr) :
    (pairsOf x savedPairs).foldl pushPair (m, sp) = (storeWords m (sp - 96) (pairWords (pairsOf x savedPairs)), sp - 96) :=
  foldl_pushPair m sp (pairsOf x savedPairs)

theorem switched_mem (c : Cpu) :
    (switched c).mem = store64 (storeWords c.mem (c.sp - 96) (pairWords (pairsOf c.x savedPairs))) (c.x 0) (c.sp - 96) := by
  simp only [switched, pushed_eq]

theorem switched_outside {a : Addr} (hf : 96 ≤ (a - (c.sp - 96)).toNat) (hw : 8 ≤ (a - c.x 0).toNat) : (switched c).mem a = c.mem a := by
  rw [switched_mem, store64, store_outside hw]
  exact storeWords_outside pairWords_lt hf

/-- `str x2, [x0]`. -/
theorem switched_word (c : Cpu) : load64 (switched c).mem (c.x 0) = c.sp - 96 := by
  rw [switched_mem, load64_store64]

/-- The outgoing thread's frame. -/
theorem switched_saves (h : ∀ a, (a - (c.sp - 96)).toNat < 96 → 8 ≤ (a - c.x 0).toNat) :
    SavedFrame (switched c).mem (c.sp - 96) c.x := by
  have hpushed : SavedFrame (storeWords c.mem (c.sp - 96) (pairWords (pairsOf c.x savedPairs))) (c.sp - 96) c.x := by
    intro l hl
    have hlen : 16 * (pairsOf c.x savedPairs).length ≤ 2 ^ 32 := show 96 ≤ 2 ^ 32 by decide
    exact load64_storeWords _ (pairWords_apart hlen) (mem_pairWords hl)
  rw [switched_mem]
  exact hpushed.congr fun a ha => store_outside (h a ha)

/-- The incoming thread's registers. -/
theorem switched_x (c : Cpu) :
    (switched c).x = loadWords (switched c).mem (c.x 1) savedSlots (Function.update c.x 2 (c.sp - 96)) := by
  rw [switched_mem]
  simp only [switched, pushed_eq]

/-- The incoming thread's registers. -/
theorem switched_loads {x : Reg → BitVec 64} (h : SavedFrame (switched c).mem (c.x 1) x) :
    ∀ r : Reg, 19 ≤ r.val → r.val ≤ 30 → (switched c).x r = x r := by
  intro r h1 h2
  obtain ⟨o, -, hm⟩ := savedSlots_mem r h1 h2
  have hload : loadWords (switched c).mem (c.x 1) savedSlots (Function.update c.x 2 (c.sp - 96)) r =
      load64 (switched c).mem (c.x 1 + BitVec.ofNat 64 o) := loadWords_mem savedSlots_nodup hm
  have hword := h (r, o) hm
  rw [switched_x]
  exact hload.trans hword

end Switched

/-! ## `thread_trampoline` -/

/-- The entry of `current_thread` is called with its argument. -/
theorem threadTrampoline_eq (at_ : Addr) (c : Cpu) : ∃ c', threadTrampoline at_ c = some c' ∧
    c'.pc = load64 c.mem (load64 c.mem (c.tpidr + 8) + 8) ∧ c'.x 0 = load64 c.mem (load64 c.mem (c.tpidr + 8) + 16) ∧ c'.sp = c.sp := by
  have hblock := @run_block threadTrampolineCode at_ id 3 0 c (threadTrampolineCode.take 5) (by decide)
  have hblr := @run_blr threadTrampolineCode at_ id 2 5 (execAll c (threadTrampolineCode.take 5)) 2 rfl
  exact ⟨_, hblock.trans hblr, rfl, rfl, rfl⟩

/-! ## src/thread.cc -/

def kStackGuardMagic : Nat := 0x737461636b677561
def kStackGuardBytes : Nat := 64
def kStackGuardPageBytes : Nat := 4096
def kStackWatermark : BitVec 8 := 0xA5

/-- `sizeof(Thread)`. -/
def threadBytes : Nat := 640

/-- The loop over the guard's words; what is left of the last one is written byte by byte. -/
def stackGuard (m : Mem) (p : Addr) (guard : Nat) : Mem :=
  (List.range ((guard + 7) / 8)).foldl
    (fun m i =>
      let remain := guard - 8 * i
      if remain < 8 then store m remain (p + BitVec.ofNat 64 (8 * i)) kStackGuardMagic
      else store m 8 (p + BitVec.ofNat 64 (8 * i)) kStackGuardMagic) m

def stackInitGuardAndWatermark (m : Mem) (base : Addr) (size : Nat) : Mem :=
  if base = 0 ∨ size = 0 then m
  else
    let guard := if size ≥ kStackGuardBytes then kStackGuardBytes else size
    fill (stackGuard m base guard) (base + BitVec.ofNat 64 guard) (size - guard) kStackWatermark

/-- What `thread_create_prio` has made: a `Thread` and its stack. -/
structure Created where
  tcb : Addr
  base : Addr
  size : BitVec 64
  entry : BitVec 64
  arg : BitVec 64
  deriving DecidableEq

namespace Created

/-- `stack_base + stack_size` rounded down to 16. -/
def top (d : Created) : Addr := (d.base + d.size) &&& ~~~0xF

def onStack (d : Created) (a : Addr) : Prop := (a - d.base).toNat < d.size.toNat

/-- At or above `sp`. -/
def above (d : Created) (sp a : Addr) : Prop := (sp - d.base).toNat ≤ (a - d.base).toNat

end Created

/-- The fields that are stored after the frame, after `sp`, `entry` and `arg`: offset, size, value. -/
def createdFields (d : Created) (id prio : Nat) : List (Nat × Nat × Nat) :=
  [(24, 8, 0), (32, 4, id), (40, 8, d.base.toNat), (48, 8, d.size.toNat), (56, 4, 5), (60, 4, prio), (64, 4, prio), (68, 4, 0), (72, 8, 0),
   (80, 8, 0), (88, 8, 0)]

def storeFields (m : Mem) (t : Addr) (fs : List (Nat × Nat × Nat)) : Mem :=
  fs.foldl (fun m f => store m f.2.1 (t + BitVec.ofNat 64 f.1) f.2.2) m

/-- The part of `thread_create_prio` after both allocations. -/
def createThread (trampoline : Addr) (d : Created) (id : Nat) (prio : Int) (m : Mem) : Mem :=
  let m := stackInitGuardAndWatermark m d.base d.size.toNat
  let pushed := [(0, 0), (0, 0), (0, 0), (0, 0), (0, 0), (0, trampoline)].foldl pushPair (m, d.top)
  let m := store64 (store64 (store64 pushed.1 d.tcb pushed.2) (d.tcb + 8) d.entry) (d.tcb + 16) d.arg
  storeFields m d.tcb (createdFields d id (clampPriority prio).val.toNat)

/-- `thread_create_prio`, given what its two allocations return. -/
def threadCreatePrio (trampoline entry arg : Addr) (stackSize : BitVec 64) (prio : Int) (id : Nat) (thread stackAlloc : Option Addr) (m : Mem) :
    Mem × Option Created :=
  if entry = 0 ∨ stackSize = 0 then (m, none)
  else
    match thread with
    | none => (m, none)
    | some t =>
      let m := fill m t threadBytes 0
      if stackSize > -1#64 - BitVec.ofNat 64 kStackGuardPageBytes then (m, none)
      else
        match stackAlloc with
        | none => (m, none)
        | some a =>
          let d : Created := ⟨t, a + BitVec.ofNat 64 kStackGuardPageBytes, stackSize, entry, arg⟩
          (createThread trampoline d id prio m, some d)

/-! ## What creation leaves -/

/-- Two regions without a common byte. -/
def Sep (a : Addr) (n : Nat) (b : Addr) (k : Nat) : Prop := ∀ x, (x - a).toNat < n → k ≤ (x - b).toNat

theorem Sep.symm {a b : Addr} {n k : Nat} (h : Sep a n b k) : Sep b k a n := by
  intro x hx
  by_contra hlt
  have := h x (by omega)
  omega

/-- A part of a region. -/
theorem Sep.mono {a b a' b' : Addr} {n k n' k' : Nat} (h : Sep a n b k) (ha : ∀ x, (x - a').toNat < n' → (x - a).toNat < n)
    (hb : ∀ x, (x - b').toNat < k' → (x - b).toNat < k) : Sep a' n' b' k' := by
  intro x hx
  have hk := h x (ha x hx)
  by_contra hlt
  have := hb x (by omega)
  omega

theorem foldl_outside {α : Type} {f : Mem → α → Mem} {l : List α} {m : Mem} {a : Addr} (h : ∀ m, ∀ x ∈ l, f m x a = m a) :
    l.foldl f m a = m a := by
  induction l generalizing m with
  | nil => rfl
  | cons x l ih =>
    rw [List.foldl_cons, ih fun m y hy => h m y (List.mem_cons_of_mem x hy)]
    exact h m x List.mem_cons_self

theorem stackGuard_outside {m : Mem} {p a : Addr} {guard : Nat} (hg : guard ≤ 64) (h : guard ≤ (a - p).toNat) : stackGuard m p guard a = m a := by
  refine foldl_outside fun m i hi => ?_
  have hi := List.mem_range.mp hi
  have h1 : (BitVec.ofNat 64 (8 * i)).toNat = 8 * i := toNat_word (by omega)
  split
  · exact store_outside (by bv_omega)
  · exact store_outside (by bv_omega)

theorem stackInit_outside {m : Mem} {base a : Addr} {size : Nat} (hs : size < 2 ^ 64) (h : size ≤ (a - base).toNat) :
    stackInitGuardAndWatermark m base size a = m a := by
  unfold stackInitGuardAndWatermark
  split
  · rfl
  · have hguard : (if size ≥ kStackGuardBytes then kStackGuardBytes else size) ≤ 64 ∧
        (if size ≥ kStackGuardBytes then kStackGuardBytes else size) ≤ size := by
      unfold kStackGuardBytes
      split <;> omega
    revert hguard
    generalize (if size ≥ kStackGuardBytes then kStackGuardBytes else size) = guard
    intro hguard
    have hn : (BitVec.ofNat 64 guard).toNat = guard := toNat_word (by omega)
    rw [fill_outside (by bv_omega), stackGuard_outside hguard.1 (by omega)]

theorem storeFields_outside {m : Mem} {t a : Addr} {fs : List (Nat × Nat × Nat)} {lo hi : Nat} (hlt : hi < 2 ^ 64)
    (hf : ∀ f ∈ fs, lo ≤ f.1 ∧ f.1 + f.2.1 ≤ hi) (h : (a - t).toNat < lo ∨ hi ≤ (a - t).toNat) : storeFields m t fs a = m a := by
  refine foldl_outside fun m f hm => ?_
  obtain ⟨h1, h2⟩ := hf f hm
  have ho : (BitVec.ofNat 64 f.1).toNat = f.1 := toNat_word (by omega)
  by_cases hn : f.2.1 = 0
  · rw [hn]
    rfl
  · exact store_outside (by bv_omega)

/-- A field is read back if the later ones lie behind it. -/
theorem load_storeFields {t : Addr} {fs : List (Nat × Nat × Nat)} {f : Nat × Nat × Nat} {hi : Nat} (m : Mem) (hlt : hi < 2 ^ 64)
    (hs : fs.Pairwise fun f g => f.1 + f.2.1 ≤ g.1) (hr : ∀ g ∈ fs, g.1 + g.2.1 ≤ hi) (hf : f ∈ fs) :
    load (storeFields m t fs) f.2.1 (t + BitVec.ofNat 64 f.1) = f.2.2 % 256 ^ f.2.1 := by
  induction fs generalizing m with
  | nil => cases hf
  | cons g fs ih =>
    rw [List.pairwise_cons] at hs
    rw [List.forall_mem_cons] at hr
    rw [storeFields, List.foldl_cons, ← storeFields]
    rcases List.mem_cons.mp hf with rfl | hf
    · have ho : (BitVec.ofNat 64 f.1).toNat = f.1 := toNat_word (by omega)
      have hlater := load_congr (m := store m f.2.1 (t + BitVec.ofNat 64 f.1) f.2.2) (a := t + BitVec.ofNat 64 f.1)
        (show f.2.1 ≤ 2 ^ 64 by omega) fun b hb =>
        storeFields_outside hlt (fun g hg => ⟨hs.1 g hg, hr.2 g hg⟩) (Or.inl (show (b - t).toNat < f.1 + f.2.1 by bv_omega))
      rw [hlater, load_store m (by omega)]
    · exact ih _ hs.2 hr.2 hf

theorem createdFields_range (d : Created) (id prio : Nat) : ∀ f ∈ createdFields d id prio, 24 ≤ f.1 ∧ f.1 + f.2.1 ≤ threadBytes := by
  unfold createdFields threadBytes
  simp

/-- x19..x30 of a thread that has never run. -/
def firstRegs (trampoline : Addr) (r : Reg) : BitVec 64 := if r = 30 then trampoline else 0

section Create

variable {trampoline : Addr} {d : Created} {id : Nat} {prio : Int} {m : Mem}

theorem top_toNat (d : Created) : d.top.toNat = (d.base + d.size).toNat / 16 * 16 := by
  have hmask : ~~~(BitVec.twoPow 64 4 - 1#64) = ~~~0xF#64 := by decide
  have hdrop := Align.toNat_and_not_mask (show 4 < 64 by decide) (d.base + d.size)
  rw [hmask] at hdrop
  exact hdrop

theorem top_sub_base (h : 160 ≤ d.size.toNat) : (d.top - d.base).toNat ≤ d.size.toNat ∧ d.size.toNat < (d.top - d.base).toNat + 16 := by
  have htop := top_toNat d
  have hlt := d.size.isLt
  bv_omega

/-- The first frame lies on the stack. -/
theorem top_room (h : 160 ≤ d.size.toNat) : ((d.top - 96) - d.base).toNat + 96 ≤ d.size.toNat := by
  obtain ⟨h1, h2⟩ := top_sub_base h
  bv_omega

/-- Up to the frame, and the fields after it. -/
theorem createThread_eq : createThread trampoline d id prio m =
    storeFields (store64 (store64 (store64
      (storeWords (stackInitGuardAndWatermark m d.base d.size.toNat) (d.top - 96) (pairWords (pairsOf (firstRegs trampoline) savedPairs)))
      d.tcb (d.top - 96)) (d.tcb + 8) d.entry) (d.tcb + 16) d.arg) d.tcb (createdFields d id (clampPriority prio).val.toNat) := by
  have hpush := pushed_eq (firstRegs trampoline) (stackInitGuardAndWatermark m d.base d.size.toNat) d.top
  have hpairs : pairsOf (firstRegs trampoline) savedPairs = [(0, 0), (0, 0), (0, 0), (0, 0), (0, 0), (0, trampoline)] := rfl
  rw [hpairs] at hpush
  rw [hpairs]
  simp only [createThread, hpush]

/-- The fields are stored in the `Thread`. -/
theorem fields_outside {sp a : Addr} (h : threadBytes ≤ (a - d.tcb).toNat) :
    storeFields (store64 (store64 (store64 m d.tcb sp) (d.tcb + 8) d.entry) (d.tcb + 16) d.arg) d.tcb
      (createdFields d id (clampPriority prio).val.toNat) a = m a := by
  unfold threadBytes at h
  rw [storeFields_outside (by decide) (createdFields_range d id _) (Or.inr h)]
  rw [store64, store_outside (by bv_omega), store64, store_outside (by bv_omega), store64, store_outside (by bv_omega)]

/-- The stack, the frame and the `Thread` are all that is written. -/
theorem createThread_untouched {a : Addr} (hs : d.size.toNat ≤ (a - d.base).toNat) (hf : 96 ≤ (a - (d.top - 96)).toNat)
    (ht : threadBytes ≤ (a - d.tcb).toNat) : createThread trampoline d id prio m a = m a := by
  rw [createThread_eq, fields_outside ht, storeWords_outside (n := 96) pairWords_lt hf, stackInit_outside d.size.isLt hs]

theorem createThread_outside {a : Addr} (hsize : 160 ≤ d.size.toNat) (hs : d.size.toNat ≤ (a - d.base).toNat)
    (ht : threadBytes ≤ (a - d.tcb).toNat) : createThread trampoline d id prio m a = m a := by
  obtain ⟨h1, h2⟩ := top_sub_base hsize
  exact createThread_untouched hs (by bv_omega) ht

theorem createThread_frame (hsize : 160 ≤ d.size.toNat) (hsep : Sep d.base d.size.toNat d.tcb threadBytes) :
    SavedFrame (createThread trampoline d id prio m) (d.top - 96) (firstRegs trampoline) := by
  have hlen : 16 * (pairsOf (firstRegs trampoline) savedPairs).length ≤ 2 ^ 32 := show 96 ≤ 2 ^ 32 by decide
  have hpushed : SavedFrame (storeWords (stackInitGuardAndWatermark m d.base d.size.toNat) (d.top - 96)
      (pairWords (pairsOf (firstRegs trampoline) savedPairs))) (d.top - 96) (firstRegs trampoline) := by
    intro l hl
    exact load64_storeWords _ (pairWords_apart hlen) (mem_pairWords hl)
  obtain ⟨h1, h2⟩ := top_sub_base hsize
  rw [createThread_eq]
  exact hpushed.congr fun a ha => fields_outside (hsep a (by bv_omega))

/-- `sp`, `entry` and `arg`. -/
theorem createThread_fields :
    load64 (createThread trampoline d id prio m) d.tcb = d.top - 96 ∧ load64 (createThread trampoline d id prio m) (d.tcb + 8) = d.entry ∧
      load64 (createThread trampoline d id prio m) (d.tcb + 16) = d.arg := by
  rw [createThread_eq]
  have hrest : ∀ (m : Mem) (o : Nat), o + 8 ≤ 24 → load64 (storeFields m d.tcb (createdFields d id (clampPriority prio).val.toNat))
      (d.tcb + BitVec.ofNat 64 o) = load64 m (d.tcb + BitVec.ofNat 64 o) := by
    intro m o ho
    refine load64_congr fun b hb => storeFields_outside (by decide) (createdFields_range d id _) (Or.inl ?_)
    have h1 : (BitVec.ofNat 64 o).toNat = o := toNat_word (by omega)
    bv_omega
  refine ⟨?_, ?_, ?_⟩
  · have hsp := hrest (store64 (store64 (store64 (storeWords (stackInitGuardAndWatermark m d.base d.size.toNat) (d.top - 96)
      (pairWords (pairsOf (firstRegs trampoline) savedPairs))) d.tcb (d.top - 96)) (d.tcb + 8) d.entry) (d.tcb + 16) d.arg) 0 (by decide)
    rw [BitVec.add_zero] at hsp
    rw [hsp, load64_store64_apart _ _ (by bv_omega) (by bv_omega), load64_store64_apart _ _ (by bv_omega) (by bv_omega), load64_store64]
  · refine (hrest _ 8 (by decide)).trans ?_
    show load64 _ (d.tcb + 8) = _
    rw [load64_store64_apart _ _ (by bv_omega) (by bv_omega), load64_store64]
  · refine (hrest _ 16 (by decide)).trans ?_
    show load64 _ (d.tcb + 16) = _
    rw [load64_store64]

/-- `stack_base` and `stack_size`. -/
theorem createThread_stack :
    load64 (createThread trampoline d id prio m) (d.tcb + 40) = d.base ∧ load64 (createThread trampoline d id prio m) (d.tcb + 48) = d.size := by
  have hsorted : (createdFields d id (clampPriority prio).val.toNat).Pairwise fun f g => f.1 + f.2.1 ≤ g.1 := by simp [createdFields]
  have hfield : ∀ (o : Nat) (v : BitVec 64), (o, 8, v.toNat) ∈ createdFields d id (clampPriority prio).val.toNat →
      load64 (createThread trampoline d id prio m) (d.tcb + BitVec.ofNat 64 o) = v := by
    intro o v hmem
    have hload := fun m => load_storeFields (t := d.tcb) m (show threadBytes < 2 ^ 64 by decide) hsorted
      (fun f hf => (createdFields_range d id _ f hf).2) hmem
    rw [createThread_eq, load64]
    simp only at hload
    rw [hload, Nat.mod_eq_of_lt (show v.toNat < 256 ^ 8 from v.isLt), BitVec.ofNat_toNat, BitVec.setWidth_eq]
  exact ⟨hfield 40 d.base (by simp [createdFields]), hfield 48 d.size (by simp [createdFields])⟩

/-- The words of the guard of a stack that is large enough for all of them. -/
theorem stackInit_guard {base : Addr} {size i : Nat} (hbase : base ≠ 0) (hsize : 64 ≤ size) (hlt : size < 2 ^ 64) (hi : i < 8) :
    load64 (stackInitGuardAndWatermark m base size) (base + BitVec.ofNat 64 (8 * i)) = BitVec.ofNat 64 kStackGuardMagic := by
  have hwords : stackGuard m base 64 =
      storeWords m base ((List.range 8).map fun i => (8 * i, BitVec.ofNat 64 kStackGuardMagic)) := rfl
  have hload : load64 (stackGuard m base 64) (base + BitVec.ofNat 64 (8 * i)) = BitVec.ofNat 64 kStackGuardMagic := by
    rw [hwords]
    exact load64_storeWords m (by decide) (List.mem_map.mpr ⟨i, List.mem_range.mpr hi, rfl⟩)
  have hargs : ¬ (base = 0 ∨ size = 0) := by
    rintro (h0 | h0)
    · exact hbase h0
    · omega
  unfold stackInitGuardAndWatermark kStackGuardBytes
  rw [if_neg hargs, if_pos hsize]
  refine (load64_congr fun b hb => fill_outside ?_).trans hload
  have ho : (BitVec.ofNat 64 (8 * i)).toNat = 8 * i := toNat_word (by omega)
  bv_omega

end Create

/-! ## `do_switch` and `sched_start`, up to `arch_switch` -/

/-- `cpu_local()->current_thread` lies here. -/
def currentThread (c : Cpu) : Addr := c.tpidr + 8

/-- `fpsimd_save`, with these registers. -/
def fpsimdSave (fp : FpRegs) (c : Cpu) : Mem :=
  let t := load64 c.mem (currentThread c)
  if c.tpidr = 0 ∨ t = 0 then c.mem
  else
    let m := store64 (store64 c.mem (t + 624) fp.fpcr) (t + 632) fp.fpsr
    let m := (List.finRange 32).foldl (fun m i => store m 16 (t + BitVec.ofNat 64 (112 + 16 * i.val)) (fp.q i).toNat) m
    store m 4 (t + 96) 1

/-- `do_switch` has called `arch_switch(&cur->sp, next->sp)`. -/
def doSwitchCall (fp : FpRegs) (cur next : Addr) (c : Cpu) : Cpu :=
  let m := store64 (fpsimdSave fp c) (currentThread c) next
  { c with mem := m, x := Function.update (Function.update c.x 0 cur) 1 (load64 m next) }

/-- `sched_start` has called `arch_switch(&boot_sp, cur->sp)`. -/
def schedStartCall (bootSp cur : Addr) (c : Cpu) : Cpu :=
  let m := store64 (store64 (store c.mem 4 (cur + 56) kQuantumTicks.toNat) (currentThread c) cur) bootSp 0
  { c with mem := m, x := Function.update (Function.update c.x 0 bootSp) 1 (load64 m cur) }

end Microkernel.Arch

/-
  Microkernel.Lib.Bare — A64 code that runs with the MMU off, before and after a return to
  a lower exception level.

  The state has x0..x30, the stack pointers of the levels, PSTATE as fields, system
  registers, memory and the state of one device. PC is an address; the program is placed at
  a base, and a label is a position in it. Code outside the program is an address outside:
  no step is taken there. With the MMU off every access must be aligned. What the
  architecture does on an access that is not, on an undefined instruction or on an illegal
  return is not modelled: no step. `wfe` may always go on. Interrupts are not taken.

  Proved: instructions without control flow run as one block (`reaches_block`); where the
  program leaves itself is one place (`reaches_stuck`); a loop that stores zero clears the
  words from one register to the other (`clear_loop`).
-/

import Mathlib
import Microkernel.Lib.Aarch64

namespace Microkernel.Bare

open Bytes

open Aarch64 (Reg)

inductive SysReg where
  | vbarEl1
  | cpacrEl1
  | mpidrEl1
  | spEl1
  | hcrEl2
  | cnthctlEl2
  | cntvoffEl2
  | cptrEl2
  | spsrEl2
  | elrEl2
  deriving DecidableEq, Repr

/-- The lowest level that may access the register. -/
def SysReg.level : SysReg → BitVec 2
  | .vbarEl1 => 1
  | .cpacrEl1 => 1
  | .mpidrEl1 => 1
  | _ => 2

structure Flags where
  n : Bool
  z : Bool
  c : Bool
  v : Bool
  deriving DecidableEq, Repr

structure Pstate where
  el : BitVec 2
  /-- SP_ELx is selected, not SP_EL0. -/
  spsel : Bool
  daif : BitVec 4
  flags : Flags
  deriving DecidableEq, Repr

/-- PSTATE as a saved program status. -/
def Pstate.ofSpsr (w : BitVec 64) : Pstate :=
  { el := w.extractLsb' 2 2
    spsel := w.getLsbD 0
    daif := w.extractLsb' 6 4
    flags := { n := w.getLsbD 31, z := w.getLsbD 30, c := w.getLsbD 29, v := w.getLsbD 28 } }

/-- A device: the addresses that are its own, and what a 32-bit access does to its state,
    where that is modelled. -/
structure Device (σ : Type) where
  owns : Addr → Bool
  read : σ → Addr → Option (BitVec 32 × σ)
  write : σ → Addr → BitVec 32 → Option σ

structure Cpu (σ : Type) where
  x : Reg → BitVec 64
  sp : BitVec 2 → BitVec 64
  pstate : Pstate
  /-- Without SP_EL1, which is `sp 1`. -/
  sys : SysReg → BitVec 64
  mem : Mem
  dev : σ

namespace Cpu

variable {σ : Type}

def setX (c : Cpu σ) (r : Reg) (v : BitVec 64) : Cpu σ := { c with x := Function.update c.x r v }

@[simp] theorem setX_x (c : Cpu σ) (r : Reg) (v : BitVec 64) : (c.setX r v).x = Function.update c.x r v := rfl
@[simp] theorem setX_sp (c : Cpu σ) (r : Reg) (v : BitVec 64) : (c.setX r v).sp = c.sp := rfl
@[simp] theorem setX_pstate (c : Cpu σ) (r : Reg) (v : BitVec 64) : (c.setX r v).pstate = c.pstate := rfl
@[simp] theorem setX_sys (c : Cpu σ) (r : Reg) (v : BitVec 64) : (c.setX r v).sys = c.sys := rfl
@[simp] theorem setX_mem (c : Cpu σ) (r : Reg) (v : BitVec 64) : (c.setX r v).mem = c.mem := rfl
@[simp] theorem setX_dev (c : Cpu σ) (r : Reg) (v : BitVec 64) : (c.setX r v).dev = c.dev := rfl

/-- The stack pointer that `sp` names. -/
def spLevel (c : Cpu σ) : BitVec 2 := if c.pstate.spsel then c.pstate.el else 0

def setFlags (c : Cpu σ) (f : Flags) : Cpu σ := { c with pstate := { c.pstate with flags := f } }

@[simp] theorem setFlags_x (c : Cpu σ) (f : Flags) : (c.setFlags f).x = c.x := rfl
@[simp] theorem setFlags_sp (c : Cpu σ) (f : Flags) : (c.setFlags f).sp = c.sp := rfl
@[simp] theorem setFlags_pstate (c : Cpu σ) (f : Flags) : (c.setFlags f).pstate = { c.pstate with flags := f } := rfl
@[simp] theorem setFlags_sys (c : Cpu σ) (f : Flags) : (c.setFlags f).sys = c.sys := rfl
@[simp] theorem setFlags_mem (c : Cpu σ) (f : Flags) : (c.setFlags f).mem = c.mem := rfl
@[simp] theorem setFlags_dev (c : Cpu σ) (f : Flags) : (c.setFlags f).dev = c.dev := rfl

def readSys (c : Cpu σ) (s : SysReg) : Option (BitVec 64) :=
  if c.pstate.el < s.level then none else some (if s = .spEl1 then c.sp 1 else c.sys s)

def writeSys (c : Cpu σ) (s : SysReg) (v : BitVec 64) : Option (Cpu σ) :=
  if c.pstate.el < s.level ∨ s = .mpidrEl1 then none
  else some (if s = .spEl1 then { c with sp := Function.update c.sp 1 v } else { c with sys := Function.update c.sys s v })

/-- `eret` at EL2: to EL2 itself, or to an EL1 that HCR_EL2.RW makes AArch64. -/
def exceptionReturn (c : Cpu σ) : Option (Addr × Cpu σ) :=
  let w := c.sys .spsrEl2
  let p := Pstate.ofSpsr w
  if c.pstate.el = 2 ∧ w.extractLsb' 4 1 = 0 ∧ w.extractLsb' 1 1 = 0 ∧ (p.el = 2 ∨ p.el = 1 ∧ (c.sys .hcrEl2).getLsbD 31) then
    some (c.sys .elrEl2, { c with pstate := p })
  else none

end Cpu

/-! ## Instructions -/

inductive Cond where
  | eq
  | ne
  | hs
  | lo
  deriving DecidableEq, Repr

def Cond.holds (f : Flags) : Cond → Bool
  | .eq => f.z
  | .ne => !f.z
  | .hs => f.c
  | .lo => !f.c

/-- The flags of `cmp`. -/
def compare (a b : BitVec 64) : Flags :=
  { n := (a - b).msb, z := a == b, c := b.ule a, v := (a.msb != b.msb) && ((a - b).msb != a.msb) }

@[simp] theorem compare_hs (a b : BitVec 64) : Cond.hs.holds (compare a b) = b.ule a := rfl
@[simp] theorem compare_lo (a b : BitVec 64) : Cond.lo.holds (compare a b) = !b.ule a := rfl
@[simp] theorem compare_eq (a b : BitVec 64) : Cond.eq.holds (compare a b) = (a == b) := rfl
@[simp] theorem compare_ne (a b : BitVec 64) : Cond.ne.holds (compare a b) = !(a == b) := rfl

/-- The flags of `tst` on 32 bits. -/
def test (a b : BitVec 32) : Flags := { n := (a &&& b).msb, z := a &&& b == 0, c := false, v := false }

inductive Instr where
  /-- `mov d, #v`, `ldr d, =v` and `adr d, v`. -/
  | const (d : Reg) (v : BitVec 64)
  | movSp (n : Reg)
  | mrs (d : Reg) (s : SysReg)
  | mrsCurrentEl (d : Reg)
  | msr (s : SysReg) (n : Reg)
  /-- `msr s, xzr`. -/
  | msrZero (s : SysReg)
  | andImm (d n : Reg) (imm : BitVec 64)
  | orrImm (d n : Reg) (imm : BitVec 64)
  | lsrImm (d n : Reg) (k : Nat)
  | cmp (n m : Reg)
  | cmpImm (n : Reg) (imm : BitVec 64)
  /-- `tst` on the 32-bit register. -/
  | tstW (n : Reg) (imm : BitVec 32)
  | ldrW (t n : Reg) (imm : BitVec 64)
  | strW (t n : Reg) (imm : BitVec 64)
  /-- `str xzr, [n], #8`. -/
  | strZeroPost (n : Reg)
  | isb
  | wfe
  | b (label : Nat)
  | bCond (k : Cond) (label : Nat)
  | cbz (t : Reg) (label : Nat)
  | bl (a : Addr)
  | ret
  | eret
  deriving DecidableEq, Repr

section Exec

variable {σ : Type} (d : Device σ)

/-- None of the `n` bytes from `a` is the device's. -/
def Device.avoids (a : Addr) (n : Nat) : Bool := (List.range n).all fun j => !d.owns (a + BitVec.ofNat 64 j)

theorem Device.avoids_iff {a : Addr} {n : Nat} : d.avoids a n = true ↔ ∀ j < n, d.owns (a + BitVec.ofNat 64 j) = false := by
  simp [Device.avoids]

/-- An instruction that goes on to the next one. -/
def exec (c : Cpu σ) : Instr → Option (Cpu σ)
  | .const t v => some (c.setX t v)
  | .movSp n => some { c with sp := Function.update c.sp c.spLevel (c.x n) }
  | .mrs t s => (c.readSys s).map (c.setX t)
  | .mrsCurrentEl t => if c.pstate.el = 0 then none else some (c.setX t (c.pstate.el.setWidth 64 <<< 2))
  | .msr s n => c.writeSys s (c.x n)
  | .msrZero s => c.writeSys s 0
  | .andImm t n imm => some (c.setX t (c.x n &&& imm))
  | .orrImm t n imm => some (c.setX t (c.x n ||| imm))
  | .lsrImm t n k => some (c.setX t (c.x n >>> k))
  | .cmp n m => some (c.setFlags (compare (c.x n) (c.x m)))
  | .cmpImm n imm => some (c.setFlags (compare (c.x n) imm))
  | .tstW n imm => some (c.setFlags (test ((c.x n).setWidth 32) imm))
  | .ldrW t n imm =>
    let a := c.x n + imm
    if a.toNat % 4 ≠ 0 then none
    else if d.owns a then (d.read c.dev a).map fun r => { c.setX t (r.1.setWidth 64) with dev := r.2 }
    else if d.avoids a 4 then some (c.setX t (BitVec.ofNat 64 (load c.mem 4 a)))
    else none
  | .strW t n imm =>
    let a := c.x n + imm
    if a.toNat % 4 ≠ 0 then none
    else if d.owns a then (d.write c.dev a ((c.x t).setWidth 32)).map fun s => { c with dev := s }
    else if d.avoids a 4 then some { c with mem := store c.mem 4 a ((c.x t).toNat % 2 ^ 32) }
    else none
  | .strZeroPost n =>
    let a := c.x n
    if a.toNat % 8 = 0 ∧ d.avoids a 8 then some { c.setX n (a + 8) with mem := store64 c.mem a 0 } else none
  | .isb => some c
  | .wfe => some c
  | .b _ => none
  | .bCond _ _ => none
  | .cbz _ _ => none
  | .bl _ => none
  | .ret => none
  | .eret => none

end Exec

/-! ## Programs -/

/-- Where the instruction at position `i` stands in code at `base`. -/
def place (base : Addr) (i : Nat) : Addr := base + BitVec.ofNat 64 (4 * i)

structure Program (σ : Type) where
  base : Addr
  code : List Instr
  dev : Device σ
  small : code.length ≤ 2 ^ 32

namespace Program

variable {σ : Type} (p : Program σ)

/-- The address of a label. -/
def label (i : Nat) : Addr := place p.base i

def fetch (a : Addr) : Option Instr := if (a - p.base).toNat % 4 = 0 then p.code[(a - p.base).toNat / 4]? else none

def step (s : Addr × Cpu σ) : Option (Addr × Cpu σ) :=
  match p.fetch s.1 with
  | none => none
  | some (.b l) => some (p.label l, s.2)
  | some (.bCond k l) => some (if k.holds s.2.pstate.flags then p.label l else s.1 + 4, s.2)
  | some (.cbz t l) => some (if s.2.x t = 0 then p.label l else s.1 + 4, s.2)
  | some (.bl a) => some (a, s.2.setX 30 (s.1 + 4))
  | some .ret => some (s.2.x 30, s.2)
  | some .eret => s.2.exceptionReturn
  | some ins => (exec p.dev s.2 ins).map fun c => (s.1 + 4, c)

def Reaches (s t : Addr × Cpu σ) : Prop := Relation.ReflTransGen (fun s t => p.step s = some t) s t

variable {p} {s t u : Addr × Cpu σ} {c c' : Cpu σ} {i : Nat}

theorem label_succ (i : Nat) : p.label i + 4 = p.label (i + 1) := by
  unfold label place
  bv_omega

theorem fetch_label {e : Instr} (h : p.code[i]? = some e) : p.fetch (p.label i) = some e := by
  have hi : i < p.code.length := (List.getElem?_eq_some_iff.mp h).1
  have hlt := p.small
  have hoff : (p.label i - p.base).toNat = 4 * i := by
    have ho : (BitVec.ofNat 64 (4 * i)).toNat = 4 * i := toNat_word (by omega)
    unfold label place
    bv_omega
  unfold fetch
  rw [hoff, if_pos (Nat.mul_mod_right 4 i), Nat.mul_div_cancel_left i (by decide), h]

/-! ## One step -/

theorem step_b {l : Nat} (h : p.code[i]? = some (.b l)) : p.step (p.label i, c) = some (p.label l, c) := by
  simp only [step, fetch_label h]

theorem step_bCond {k : Cond} {l : Nat} (h : p.code[i]? = some (.bCond k l)) :
    p.step (p.label i, c) = some (if k.holds c.pstate.flags then p.label l else p.label (i + 1), c) := by
  simp only [step, fetch_label h, label_succ]

theorem step_cbz {r : Reg} {l : Nat} (h : p.code[i]? = some (.cbz r l)) :
    p.step (p.label i, c) = some (if c.x r = 0 then p.label l else p.label (i + 1), c) := by
  simp only [step, fetch_label h, label_succ]

theorem step_bl {a : Addr} (h : p.code[i]? = some (.bl a)) : p.step (p.label i, c) = some (a, c.setX 30 (p.label (i + 1))) := by
  simp only [step, fetch_label h, label_succ]

theorem step_ret (h : p.code[i]? = some .ret) : p.step (p.label i, c) = some (c.x 30, c) := by
  simp only [step, fetch_label h]

theorem step_eret (h : p.code[i]? = some .eret) : p.step (p.label i, c) = c.exceptionReturn := by
  simp only [step, fetch_label h]

theorem step_exec {e : Instr} (h : p.code[i]? = some e) (he : exec p.dev c e = some c') :
    p.step (p.label i, c) = some (p.label (i + 1), c') := by
  cases e with
  | b l => cases he
  | bCond k l => cases he
  | cbz t l => cases he
  | bl a => cases he
  | ret => cases he
  | eret => cases he
  | _ => simp only [step, fetch_label h, he, Option.map_some, label_succ]

/-! ## Runs -/

namespace Reaches

theorem refl (s : Addr × Cpu σ) : p.Reaches s s := Relation.ReflTransGen.refl

theorem trans (h : p.Reaches s t) (h' : p.Reaches t u) : p.Reaches s u := Relation.ReflTransGen.trans h h'

theorem single (h : p.step s = some t) : p.Reaches s t := Relation.ReflTransGen.single h

theorem head (h : p.step s = some t) (h' : p.Reaches t u) : p.Reaches s u := Relation.ReflTransGen.head h h'

/-- What every step keeps, a run keeps. -/
theorem invariant {I : Addr × Cpu σ → Prop} (hI : ∀ s t, p.step s = some t → I s → I t) (h : p.Reaches s t) (h0 : I s) : I t := by
  induction h with
  | refl => exact h0
  | tail _ hstep ih => exact hI _ _ hstep ih

/-- A program has one run. -/
theorem total (h : p.Reaches s t) (h' : p.Reaches s u) : p.Reaches t u ∨ p.Reaches u t :=
  Relation.ReflTransGen.total_of_right_unique (fun _ _ _ h h' => Option.some.inj (h.symm.trans h')) h h'

/-- A run ends in one place. -/
theorem stuck (h : p.Reaches s t) (ht : p.step t = none) (h' : p.Reaches s u) : p.Reaches u t := by
  rcases h.total h' with h | h
  · rcases Relation.ReflTransGen.cases_head h with rfl | ⟨v, hstep, _⟩
    · exact refl _
    · rw [ht] at hstep
      cases hstep
  · exact h

theorem stuck_unique (h : p.Reaches s t) (ht : p.step t = none) (h' : p.Reaches s u) (hu : p.step u = none) : t = u := by
  rcases Relation.ReflTransGen.cases_head (h.stuck ht h') with rfl | ⟨v, hstep, _⟩
  · rfl
  · rw [hu] at hstep
    cases hstep

/-- The instructions of `l` stand at position `i` and run through. -/
theorem block {l : List Instr} (hcode : l <+: p.code.drop i) (he : l.foldlM (exec p.dev) c = some c') :
    p.Reaches (p.label i, c) (p.label (i + l.length), c') := by
  induction l generalizing i c with
  | nil =>
    cases he
    exact refl _
  | cons e l ih =>
    obtain ⟨rest, hrest⟩ := hcode
    have h0 : p.code[i]? = some e := by
      have hd : (p.code.drop i)[0]? = some e := by rw [← hrest]; rfl
      simpa using hd
    have htail : l <+: p.code.drop (i + 1) := by
      refine ⟨rest, ?_⟩
      rw [← List.tail_drop, ← hrest, List.cons_append, List.tail_cons]
    rw [List.foldlM_cons] at he
    obtain ⟨c1, h1, h2⟩ := Option.bind_eq_some_iff.mp he
    have hnext := ih htail h2
    rw [Nat.add_right_comm] at hnext
    exact head (step_exec h0 h1) hnext

end Reaches

theorem step_outside {a : Addr} (h : p.fetch a = none) : p.step (a, c) = none := by
  simp only [step, h]

/-! ## Clearing memory -/

section Clear

variable {n m : Reg}

/-- One turn of the loop. -/
def clearedWord (n m : Reg) (c : Cpu σ) : Cpu σ :=
  { c.setX n (c.x n + 8) with
    pstate := { c.pstate with flags := compare (c.x n + 8) (c.x m) }
    mem := fill c.mem (c.x n) 8 0 }

theorem clear_turn (hnm : n ≠ m) (h0 : p.code[i]? = some (.strZeroPost n)) (h1 : p.code[i + 1]? = some (.cmp n m))
    (h2 : p.code[i + 2]? = some (.bCond .lo i)) (ha : (c.x n).toNat % 8 = 0)
    (hdev : ∀ j < 8, p.dev.owns (c.x n + BitVec.ofNat 64 j) = false) :
    p.Reaches (p.label i, c)
      (if (c.x m).ule (c.x n + 8) then p.label (i + 3) else p.label i, clearedWord n m c) := by
  have hstore : exec p.dev c (.strZeroPost n) = some { c.setX n (c.x n + 8) with mem := fill c.mem (c.x n) 8 0 } := by
    have hok : (c.x n).toNat % 8 = 0 ∧ p.dev.avoids (c.x n) 8 = true := ⟨ha, (p.dev.avoids_iff).mpr hdev⟩
    simp only [exec, if_pos hok, store64_zero]
  have hcmp : exec p.dev { c.setX n (c.x n + 8) with mem := fill c.mem (c.x n) 8 0 } (.cmp n m) = some (clearedWord n m c) := by
    simp [exec, clearedWord, Cpu.setFlags, Function.update_of_ne hnm.symm]
  refine .head (step_exec h0 hstore) (.head (step_exec h1 hcmp) (.single ?_))
  have hlo : Cond.lo.holds (clearedWord n m c).pstate.flags = !(c.x m).ule (c.x n + 8) := rfl
  rw [step_bCond h2, hlo]
  cases (c.x m).ule (c.x n + 8) <;> rfl

/-- `l: str xzr, [n], #8; cmp n, m; b.lo l`. -/
theorem clear_loop (hnm : n ≠ m) (h0 : p.code[i]? = some (.strZeroPost n)) (h1 : p.code[i + 1]? = some (.cmp n m))
    (h2 : p.code[i + 2]? = some (.bCond .lo i)) {k : Nat} (hend : c.x m = c.x n + BitVec.ofNat 64 (8 * (k + 1)))
    (hlt : (c.x n).toNat + 8 * (k + 1) < 2 ^ 64) (ha : (c.x n).toNat % 8 = 0)
    (hdev : ∀ j < 8 * (k + 1), p.dev.owns (c.x n + BitVec.ofNat 64 j) = false) :
    p.Reaches (p.label i, c)
      (p.label (i + 3), { c.setX n (c.x m) with
        pstate := { c.pstate with flags := compare (c.x m) (c.x m) }
        mem := fill c.mem (c.x n) (8 * (k + 1)) 0 }) := by
  induction k generalizing c with
  | zero =>
    have hturn := clear_turn hnm h0 h1 h2 ha hdev
    -- the last word
    have hlast : c.x n + 8 = c.x m := hend.symm
    have hle : (c.x m).ule (c.x n + 8) = true := by
      rw [hlast, BitVec.ule]
      exact decide_eq_true (Nat.le_refl _)
    rw [hle, if_pos rfl, clearedWord, hlast] at hturn
    exact hturn
  | succ k ih =>
    have hnext : (c.x n + 8).toNat = (c.x n).toNat + 8 := by bv_omega
    have hmore : (c.x m).ule (c.x n + 8) = false := by
      have hk : (BitVec.ofNat 64 (8 * (k + 1 + 1))).toNat = 8 * (k + 1 + 1) := toNat_word (by omega)
      have hm : (c.x m).toNat = (c.x n).toNat + 8 * (k + 1 + 1) := by
        rw [hend]
        bv_omega
      rw [BitVec.ule, decide_eq_false_iff_not]
      omega
    have hturn := clear_turn hnm h0 h1 h2 ha fun j hj => hdev j (by omega)
    rw [hmore] at hturn
    have hxn : (clearedWord n m c).x n = c.x n + 8 := Function.update_self ..
    have hxm : (clearedWord n m c).x m = c.x m := Function.update_of_ne hnm.symm ..
    have hend' : (clearedWord n m c).x m = (clearedWord n m c).x n + BitVec.ofNat 64 (8 * (k + 1)) := by
      rw [hxm, hxn, hend]
      bv_omega
    have hdev' : ∀ j < 8 * (k + 1), p.dev.owns ((clearedWord n m c).x n + BitVec.ofNat 64 j) = false := by
      intro j hj
      have hadd : c.x n + 8 + BitVec.ofNat 64 j = c.x n + BitVec.ofNat 64 (8 + j) := by bv_omega
      rw [hxn, hadd]
      exact hdev (8 + j) (by omega)
    have hlt' : ((clearedWord n m c).x n).toNat + 8 * (k + 1) < 2 ^ 64 := by
      rw [hxn, hnext]
      omega
    have ha' : ((clearedWord n m c).x n).toNat % 8 = 0 := by
      rw [hxn, hnext]
      omega
    have hrest := ih hend' hlt' ha' hdev'
    have hmem : fill (fill c.mem (c.x n) 8 0) (c.x n + 8) (8 * (k + 1)) 0 = fill c.mem (c.x n) (8 * (k + 1 + 1)) 0 := by
      have h := fill_append c.mem (c.x n) (0 : BitVec 8) (n := 8) (k := 8 * (k + 1)) (by omega)
      rw [show 8 * (k + 1 + 1) = 8 + 8 * (k + 1) by omega]
      exact h
    have hx : Function.update (clearedWord n m c).x n (c.x m) = Function.update c.x n (c.x m) := Function.update_idem ..
    refine hturn.trans ?_
    rw [hxn, hxm] at hrest
    simp only [Cpu.setX, hx] at hrest ⊢
    rw [← hmem]
    exact hrest

end Clear

end Program

end Microkernel.Bare

/-
  Microkernel.Lib.Aarch64 — a part of the A64 instruction set at EL1.

  The state has x0..x30, the selected stack pointer, PC, PSTATE, the exception
  registers ELR_EL1, SPSR_EL1 and TPIDR_EL1, and memory. A routine is a list of
  instructions; inside it the position in the list stands for PC, and a label is a
  position. `bl` calls a routine of another language: a function on states. An IRQ from
  EL1 with SP_EL1 selected saves PC and PSTATE and masks exceptions; `eret` restores
  them. Alignment and translation faults are not modelled.

  Proved: instructions without control flow run as one block (`run_block`); each
  instruction with control flow has its one-step lemma. A block of loads relative to one
  register reads every word it names (`execAll_loads`, `loadWords_mem`).
-/

import Mathlib
import Microkernel.Lib.Bytes

namespace Microkernel.Aarch64

open Bytes

/-- x0 to x30. -/
abbrev Reg := Fin 31

instance instNeZeroRegs : NeZero 31 := ⟨by decide⟩

inductive SysReg where
  | tpidrEl1
  | elrEl1
  | spsrEl1
  deriving DecidableEq, Repr

/-- A register or the stack pointer. -/
inductive Base where
  | x (r : Reg)
  | sp
  deriving DecidableEq, Repr

structure Cpu where
  x : Reg → BitVec 64
  sp : BitVec 64
  pc : BitVec 64
  pstate : BitVec 64
  elr : BitVec 64
  spsr : BitVec 64
  tpidr : BitVec 64
  mem : Mem

namespace Cpu

def setX (c : Cpu) (r : Reg) (v : BitVec 64) : Cpu := { c with x := Function.update c.x r v }

@[simp] theorem setX_x (c : Cpu) (r : Reg) (v : BitVec 64) : (c.setX r v).x = Function.update c.x r v := rfl
@[simp] theorem setX_sp (c : Cpu) (r : Reg) (v : BitVec 64) : (c.setX r v).sp = c.sp := rfl
@[simp] theorem setX_mem (c : Cpu) (r : Reg) (v : BitVec 64) : (c.setX r v).mem = c.mem := rfl

def get (c : Cpu) : Base → BitVec 64
  | .x r => c.x r
  | .sp => c.sp

def set (c : Cpu) (v : BitVec 64) : Base → Cpu
  | .x r => c.setX r v
  | .sp => { c with sp := v }

def getSys (c : Cpu) : SysReg → BitVec 64
  | .tpidrEl1 => c.tpidr
  | .elrEl1 => c.elr
  | .spsrEl1 => c.spsr

def setSys (c : Cpu) (v : BitVec 64) : SysReg → Cpu
  | .tpidrEl1 => { c with tpidr := v }
  | .elrEl1 => { c with elr := v }
  | .spsrEl1 => { c with spsr := v }

/-- The D, A, I and F bits of PSTATE. -/
def daif : BitVec 64 := 0x3C0

/-- An IRQ is taken to the code at `vector`. -/
def takeIrq (c : Cpu) (vector : BitVec 64) : Cpu :=
  { c with elr := c.pc, spsr := c.pstate, pstate := c.pstate ||| daif, pc := vector }

end Cpu

/-! ## Instructions -/

inductive Instr where
  /-- `msr daifset, #imm`. -/
  | daifset (imm : BitVec 4)
  | mrs (d : Reg) (s : SysReg)
  | msr (s : SysReg) (n : Reg)
  | mov (d n : Base)
  | addImm (d n : Base) (imm : Nat)
  | subImm (d n : Base) (imm : Nat)
  | ldr (t : Reg) (n : Base) (imm : Nat)
  | str (t : Reg) (n : Base) (imm : Nat)
  | ldp (t t' : Reg) (n : Base) (imm : Nat)
  | stp (t t' : Reg) (n : Base) (imm : Nat)
  | cbz (t : Reg) (label : Nat)
  | b (label : Nat)
  | bl
  | eret
  /-- `stp t, t', [n, #-imm]!` and `ldp t, t', [n], #imm`. -/
  | stpPre (t t' : Reg) (n : Base) (imm : Nat)
  | ldpPost (t t' : Reg) (n : Base) (imm : Nat)
  | blr (n : Reg)
  | ret
  deriving DecidableEq, Repr

/-- An instruction that goes on to the next one. -/
def exec (c : Cpu) : Instr → Cpu
  | .daifset imm => { c with pstate := c.pstate ||| (imm.setWidth 64 <<< 6) }
  | .mrs d s => c.setX d (c.getSys s)
  | .msr s n => c.setSys (c.x n) s
  | .mov d n => c.set (c.get n) d
  | .addImm d n imm => c.set (c.get n + BitVec.ofNat 64 imm) d
  | .subImm d n imm => c.set (c.get n - BitVec.ofNat 64 imm) d
  | .ldr t n imm => c.setX t (load64 c.mem (c.get n + BitVec.ofNat 64 imm))
  | .str t n imm => { c with mem := store64 c.mem (c.get n + BitVec.ofNat 64 imm) (c.x t) }
  | .ldp t t' n imm =>
    (c.setX t (load64 c.mem (c.get n + BitVec.ofNat 64 imm))).setX t' (load64 c.mem (c.get n + BitVec.ofNat 64 (imm + 8)))
  | .stp t t' n imm =>
    let m := store64 c.mem (c.get n + BitVec.ofNat 64 imm) (c.x t)
    { c with mem := store64 m (c.get n + BitVec.ofNat 64 (imm + 8)) (c.x t') }
  | .cbz _ _ => c
  | .b _ => c
  | .bl => c
  | .eret => c
  | .stpPre t t' n imm =>
    let a := c.get n - BitVec.ofNat 64 imm
    { c with mem := store64 (store64 c.mem a (c.x t)) (a + 8) (c.x t') }.set a n
  | .ldpPost t t' n imm =>
    let a := c.get n
    ((c.setX t (load64 c.mem a)).setX t' (load64 c.mem (a + 8))).set (a + BitVec.ofNat 64 imm) n
  | .blr _ => c
  | .ret => c

def Instr.straight : Instr → Bool
  | .cbz _ _ => false
  | .b _ => false
  | .bl => false
  | .eret => false
  | .blr _ => false
  | .ret => false
  | _ => true

/-- Run the routine `code`, placed at `at_`, from position `i` to its `eret` or `ret`, or to
    the function that it calls through a register. -/
def run (code : List Instr) (at_ : BitVec 64) (call : Cpu → Cpu) : Nat → Nat → Cpu → Option Cpu
  | 0, _, _ => none
  | fuel + 1, i, c =>
    match code[i]? with
    | none => none
    | some (.cbz t label) => run code at_ call fuel (if c.x t = 0 then label else i + 1) c
    | some (.b label) => run code at_ call fuel label c
    | some .bl =>
      let c := call (c.setX 30 (at_ + BitVec.ofNat 64 (4 * (i + 1))))
      run code at_ call fuel (i + 1) c
    | some .eret => some { c with pc := c.elr, pstate := c.spsr }
    | some (.blr n) => some { c.setX 30 (at_ + BitVec.ofNat 64 (4 * (i + 1))) with pc := c.x n }
    | some .ret => some { c with pc := c.x 30 }
    | some ins => run code at_ call fuel (i + 1) (exec c ins)

/-! ## Straight blocks -/

def execAll (c : Cpu) (blk : List Instr) : Cpu := blk.foldl exec c

theorem execAll_append (c : Cpu) (l₁ l₂ : List Instr) : execAll c (l₁ ++ l₂) = execAll (execAll c l₁) l₂ := List.foldl_append ..

section Run

variable {code : List Instr} {at_ : BitVec 64} {call : Cpu → Cpu} {fuel i : Nat} {c : Cpu}

theorem run_straight {ins : Instr} (h : code[i]? = some ins) (hs : ins.straight = true) :
    run code at_ call (fuel + 1) i c = run code at_ call fuel (i + 1) (exec c ins) := by
  cases ins with
  | cbz t label => cases hs
  | b label => cases hs
  | bl => cases hs
  | eret => cases hs
  | blr n => cases hs
  | ret => cases hs
  | _ => rw [run, h]

theorem run_cbz {t : Reg} {label : Nat} (h : code[i]? = some (.cbz t label)) :
    run code at_ call (fuel + 1) i c = run code at_ call fuel (if c.x t = 0 then label else i + 1) c := by
  rw [run, h]

theorem run_b {label : Nat} (h : code[i]? = some (.b label)) :
    run code at_ call (fuel + 1) i c = run code at_ call fuel label c := by
  rw [run, h]

theorem run_bl (h : code[i]? = some .bl) :
    run code at_ call (fuel + 1) i c =
      run code at_ call fuel (i + 1) (call (c.setX 30 (at_ + BitVec.ofNat 64 (4 * (i + 1))))) := by
  rw [run, h]

theorem run_eret (h : code[i]? = some .eret) : run code at_ call (fuel + 1) i c = some { c with pc := c.elr, pstate := c.spsr } := by
  rw [run, h]

theorem run_blr {n : Reg} (h : code[i]? = some (.blr n)) :
    run code at_ call (fuel + 1) i c = some { c.setX 30 (at_ + BitVec.ofNat 64 (4 * (i + 1))) with pc := c.x n } := by
  rw [run, h]

theorem run_ret (h : code[i]? = some .ret) : run code at_ call (fuel + 1) i c = some { c with pc := c.x 30 } := by
  rw [run, h]

/-- `blk` stands at position `i` and has no control flow. -/
def BlockAt (code : List Instr) (i : Nat) (blk : List Instr) : Prop :=
  (code.drop i).take blk.length = blk ∧ blk.all Instr.straight = true

instance (code : List Instr) (i : Nat) (blk : List Instr) : Decidable (BlockAt code i blk) := inferInstanceAs (Decidable (_ ∧ _))

theorem run_block {blk : List Instr} (h : BlockAt code i blk) :
    run code at_ call (fuel + blk.length) i c = run code at_ call fuel (i + blk.length) (execAll c blk) := by
  induction blk generalizing i c with
  | nil => rfl
  | cons ins blk ih =>
    obtain ⟨hcode, hs⟩ := h
    rw [List.all_cons, Bool.and_eq_true] at hs
    cases hdrop : code.drop i with
    | nil =>
      rw [hdrop] at hcode
      cases hcode
    | cons ins' rest =>
      rw [hdrop, List.length_cons, List.take_succ_cons, List.cons.injEq] at hcode
      obtain ⟨rfl, hrest⟩ := hcode
      have h0 : code[i]? = some ins' := by
        have hd : (code.drop i)[0]? = some ins' := by rw [hdrop]; rfl
        simpa using hd
      have htail : code.drop (i + 1) = rest := by
        rw [← List.tail_drop, hdrop, List.tail_cons]
      have hexec : execAll c (ins' :: blk) = execAll (exec c ins') blk := rfl
      rw [List.length_cons, ← Nat.add_assoc, run_straight h0 hs.1, ih ⟨by rw [htail, hrest], hs.2⟩, hexec, Nat.add_assoc i 1,
        Nat.add_comm 1]

end Run

/-! ## Blocks of loads -/

/-- Registers that take the words at offsets from `p`. -/
def loadWords (m : Mem) (p : Addr) (ls : List (Reg × Nat)) (x : Reg → BitVec 64) : Reg → BitVec 64 :=
  ls.foldl (fun x l => Function.update x l.1 (load64 m (p + BitVec.ofNat 64 l.2))) x

theorem loadWords_append (m : Mem) (p : Addr) (l₁ l₂ : List (Reg × Nat)) (x : Reg → BitVec 64) :
    loadWords m p (l₁ ++ l₂) x = loadWords m p l₂ (loadWords m p l₁ x) := List.foldl_append ..

theorem loadWords_other {m : Mem} {p : Addr} {ls : List (Reg × Nat)} {x : Reg → BitVec 64} {r : Reg} (h : r ∉ ls.map Prod.fst) :
    loadWords m p ls x r = x r := by
  induction ls generalizing x with
  | nil => rfl
  | cons l ls ih =>
    rw [List.map_cons, List.mem_cons, not_or] at h
    rw [loadWords, List.foldl_cons, ← loadWords, ih h.2, Function.update_of_ne h.1]

theorem loadWords_mem {m : Mem} {p : Addr} {ls : List (Reg × Nat)} {x : Reg → BitVec 64} {r : Reg} {o : Nat}
    (hn : (ls.map Prod.fst).Nodup) (h : (r, o) ∈ ls) : loadWords m p ls x r = load64 m (p + BitVec.ofNat 64 o) := by
  induction ls generalizing x with
  | nil => cases h
  | cons l ls ih =>
    rw [List.map_cons, List.nodup_cons] at hn
    rw [loadWords, List.foldl_cons, ← loadWords]
    rcases List.mem_cons.mp h with h | h
    · subst h
      rw [loadWords_other hn.1, Function.update_self]
    · exact ih hn.2 h

/-- The loads of an instruction that loads relative to `n` and does nothing else. -/
def Instr.loads (n : Reg) : Instr → Option (List (Reg × Nat))
  | .ldr t (.x n') imm => if n' = n then some [(t, imm)] else none
  | .ldp t t' (.x n') imm => if n' = n then some [(t, imm), (t', imm + 8)] else none
  | _ => none

theorem exec_loads {c : Cpu} {n : Reg} {ins : Instr} {ls : List (Reg × Nat)} (h : ins.loads n = some ls) :
    exec c ins = { c with x := loadWords c.mem (c.x n) ls c.x } := by
  unfold Instr.loads at h
  split at h
  · split at h
    · cases h
      subst n
      rfl
    · cases h
  · split at h
    · cases h
      subst n
      rfl
    · cases h
  · cases h

/-- A block of loads that does not load its base. -/
theorem execAll_loads {c : Cpu} {n : Reg} {blk : List Instr} {l : List (List (Reg × Nat))}
    (h : blk.map (Instr.loads n) = l.map some) (hn : n ∉ l.flatten.map Prod.fst) :
    execAll c blk = { c with x := loadWords c.mem (c.x n) l.flatten c.x } := by
  induction blk generalizing c l with
  | nil =>
    rw [List.map_nil] at h
    rw [List.map_eq_nil_iff.mp h.symm]
    rfl
  | cons ins blk ih =>
    cases l with
    | nil => cases h
    | cons ls l =>
      rw [List.map_cons, List.map_cons, List.cons.injEq] at h
      rw [List.flatten_cons, List.map_append, List.mem_append, not_or] at hn
      have hbase : loadWords c.mem (c.x n) ls c.x n = c.x n := loadWords_other hn.1
      rw [execAll, List.foldl_cons, ← execAll, exec_loads h.1, ih h.2 hn.2]
      dsimp only
      rw [hbase, List.flatten_cons, loadWords_append]

/-! ## Registers on a stack -/

/-- Two words below the stack pointer. -/
def pushPair (s : Mem × Addr) (v : BitVec 64 × BitVec 64) : Mem × Addr :=
  (store64 (store64 s.1 (s.2 - 16) v.1) (s.2 - 16 + 8) v.2, s.2 - 16)

/-- The words of pairs that are pushed, at their offsets from where the stack pointer ends. -/
def pairWords : List (BitVec 64 × BitVec 64) → List (Nat × BitVec 64)
  | [] => []
  | v :: vs => (16 * vs.length, v.1) :: (16 * vs.length + 8, v.2) :: pairWords vs

/-- The loads of pairs that are popped. -/
def popLoads : Nat → List (Reg × Reg) → List (Reg × Nat)
  | _, [] => []
  | o, p :: ps => (p.1, o) :: (p.2, o + 8) :: popLoads (o + 16) ps

def pushes (ps : List (Reg × Reg)) : List Instr := ps.map fun p => .stpPre p.1 p.2 .sp 16

def pops (ps : List (Reg × Reg)) : List Instr := ps.map fun p => .ldpPost p.1 p.2 .sp 16

/-- The values of pairs of registers. -/
def pairsOf (x : Reg → BitVec 64) (ps : List (Reg × Reg)) : List (BitVec 64 × BitVec 64) := ps.map fun p => (x p.1, x p.2)

theorem foldl_pushPair (m : Mem) (sp : Addr) (vs : List (BitVec 64 × BitVec 64)) :
    vs.foldl pushPair (m, sp) =
      (storeWords m (sp - BitVec.ofNat 64 (16 * vs.length)) (pairWords vs), sp - BitVec.ofNat 64 (16 * vs.length)) := by
  induction vs generalizing m sp with
  | nil => simp [pairWords, storeWords]
  | cons v vs ih =>
    have hend : sp - 16 - BitVec.ofNat 64 (16 * vs.length) = sp - BitVec.ofNat 64 (16 * (v :: vs).length) := by
      rw [List.length_cons]
      bv_omega
    have hfirst : sp - BitVec.ofNat 64 (16 * (v :: vs).length) + BitVec.ofNat 64 (16 * vs.length) = sp - 16 := by
      rw [← hend]
      bv_omega
    have hsecond : sp - BitVec.ofNat 64 (16 * (v :: vs).length) + BitVec.ofNat 64 (16 * vs.length + 8) = sp - 16 + 8 := by
      rw [← hfirst]
      bv_omega
    rw [List.foldl_cons, pushPair, ih, hend]
    simp only [pairWords, storeWords, List.foldl_cons, hfirst, hsecond]

theorem execAll_pushes (c : Cpu) (ps : List (Reg × Reg)) :
    execAll c (pushes ps) =
      { c with mem := ((pairsOf c.x ps).foldl pushPair (c.mem, c.sp)).1, sp := ((pairsOf c.x ps).foldl pushPair (c.mem, c.sp)).2 } := by
  induction ps generalizing c with
  | nil => rfl
  | cons p ps ih =>
    have hcons : execAll c (pushes (p :: ps)) = execAll (exec c (.stpPre p.1 p.2 .sp 16)) (pushes ps) := rfl
    rw [hcons, ih]
    rfl

theorem execAll_pops {c : Cpu} {p : Addr} {o : Nat} (ps : List (Reg × Reg)) (h : c.sp = p + BitVec.ofNat 64 o) :
    execAll c (pops ps) = { c with x := loadWords c.mem p (popLoads o ps) c.x, sp := p + BitVec.ofNat 64 (o + 16 * ps.length) } := by
  induction ps generalizing c o with
  | nil =>
    rw [← Nat.add_zero o] at h
    exact congrArg (fun a => { c with sp := a }) h
  | cons r ps ih =>
    have hcons : execAll c (pops (r :: ps)) = execAll (exec c (.ldpPost r.1 r.2 .sp 16)) (pops ps) := rfl
    have hsecond : c.sp + 8 = p + BitVec.ofNat 64 (o + 8) := by
      rw [h]
      bv_omega
    have hnext : (exec c (.ldpPost r.1 r.2 .sp 16)).sp = p + BitVec.ofNat 64 (o + 16) := by
      show c.sp + 16 = _
      rw [h]
      bv_omega
    have hx : (exec c (.ldpPost r.1 r.2 .sp 16)).x = loadWords c.mem p [(r.1, o), (r.2, o + 8)] c.x := by
      show Function.update (Function.update c.x r.1 (load64 c.mem c.sp)) r.2 (load64 c.mem (c.sp + 8)) = _
      rw [hsecond, h]
      rfl
    have hlen : o + 16 + 16 * ps.length = o + 16 * (r :: ps).length := by
      rw [List.length_cons]
      omega
    rw [hcons, ih hnext, hx, hlen]
    rfl

theorem pairWords_lt {vs : List (BitVec 64 × BitVec 64)} : ∀ w ∈ pairWords vs, w.1 + 8 ≤ 16 * vs.length := by
  induction vs with
  | nil => exact fun w hw => by cases hw
  | cons v vs ih =>
    intro w hw
    rw [List.length_cons]
    rcases List.mem_cons.mp hw with rfl | hw
    · show 16 * vs.length + 8 ≤ _
      omega
    · rcases List.mem_cons.mp hw with rfl | hw
      · show 16 * vs.length + 8 + 8 ≤ _
        omega
      · have := ih w hw
        omega

theorem pairWords_apart {vs : List (BitVec 64 × BitVec 64)} (h : 16 * vs.length ≤ 2 ^ 32) : Apart ((pairWords vs).map Prod.fst) := by
  have hlt : ∀ o ∈ (pairWords vs).map Prod.fst, o + 8 ≤ 16 * vs.length := by
    intro o ho
    obtain ⟨w, hw, rfl⟩ := List.mem_map.mp ho
    exact pairWords_lt w hw
  refine ⟨?_, fun o ho => (hlt o ho).trans h⟩
  clear hlt h
  induction vs with
  | nil => exact .nil
  | cons v vs ih =>
    have hbelow : ∀ o ∈ (pairWords vs).map Prod.fst, o + 8 ≤ 16 * vs.length := by
      intro o ho
      obtain ⟨w, hw, rfl⟩ := List.mem_map.mp ho
      exact pairWords_lt w hw
    refine .cons (fun o ho => ?_) (.cons (fun o ho => ?_) ih)
    · rcases List.mem_cons.mp ho with rfl | ho
      · exact Or.inl (by omega)
      · exact Or.inr (hbelow o ho)
    · have := hbelow o ho
      exact Or.inr (by omega)

theorem popLoads_append (o : Nat) (ps qs : List (Reg × Reg)) : popLoads o (ps ++ qs) = popLoads o ps ++ popLoads (o + 16 * ps.length) qs := by
  induction ps generalizing o with
  | nil => rfl
  | cons p ps ih =>
    rw [List.cons_append, popLoads, ih, popLoads, List.length_cons, List.cons_append, List.cons_append]
    rw [show o + 16 + 16 * ps.length = o + 16 * (ps.length + 1) by omega]

/-- What is popped in the opposite order is what was pushed. -/
theorem mem_pairWords {x : Reg → BitVec 64} {ps : List (Reg × Reg)} {l : Reg × Nat} (h : l ∈ popLoads 0 ps.reverse) :
    (l.2, x l.1) ∈ pairWords (pairsOf x ps) := by
  induction ps with
  | nil => cases h
  | cons p ps ih =>
    have hlen : (pairsOf x ps).length = ps.length := List.length_map ..
    rw [List.reverse_cons, popLoads_append, List.length_reverse, Nat.zero_add] at h
    show (l.2, x l.1) ∈ (16 * (pairsOf x ps).length, x p.1) :: (16 * (pairsOf x ps).length + 8, x p.2) :: pairWords (pairsOf x ps)
    rw [hlen]
    rcases List.mem_append.mp h with h | h
    · exact List.mem_cons_of_mem _ (List.mem_cons_of_mem _ (ih h))
    · rcases List.mem_cons.mp h with rfl | h
      · exact List.mem_cons_self
      · rw [List.mem_singleton.mp h]
        exact List.mem_cons_of_mem _ List.mem_cons_self

end Microkernel.Aarch64

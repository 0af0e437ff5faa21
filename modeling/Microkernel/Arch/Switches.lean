/-
  Microkernel.Arch.Switches — sequences of context switches in one memory.

  Any number of threads are created at any time, with regions that do not overlap; the
  running thread changes registers and memory as it likes, but no other thread's stack, no
  thread's `sp`, `entry` and `arg`, and not `current_thread`; and it switches, with 96 bytes
  left on its stack. No IRQ is taken inside a switch.

  Proved: a thread that is switched to has x19..x30, SP and its stack as they were when it
  called `arch_switch`, or, the first time, runs `thread_trampoline` on an empty stack,
  which calls its entry with its argument (`context_preserved`).
-/

import Microkernel.Arch.Context

namespace Microkernel.Arch

open Aarch64 Bytes

/-! ## Runs -/

structure World where
  cpu : Cpu
  threads : List Created
  /-- Whose stack the CPU is on, once `sched_start` has run. -/
  running : Option Created
  /-- The state of each `Thread` at its last call of `arch_switch`. -/
  saved : Addr → Option Cpu

/-- The regions of a thread, apart from each other and from `current_thread`. -/
structure Placed (c : Cpu) (d : Created) : Prop where
  size : 160 ≤ d.size.toNat
  own : Sep d.base d.size.toNat d.tcb threadBytes
  stack : Sep d.base d.size.toNat (currentThread c) 8
  tcb : Sep d.tcb threadBytes (currentThread c) 8

/-- The regions of two threads. -/
structure RegionsApart (d e : Created) : Prop where
  bases : Sep d.base d.size.toNat e.base e.size.toNat
  tcbs : Sep d.tcb threadBytes e.tcb threadBytes
  baseTcb : Sep d.base d.size.toNat e.tcb threadBytes
  tcbBase : Sep d.tcb threadBytes e.base e.size.toNat

/-- What only the kernel changes while a thread runs: the stacks of the others, every `sp`,
    `entry` and `arg`, and `current_thread`. -/
def World.kernelOwned (w : World) (a : Addr) : Prop :=
  (∃ d ∈ w.threads, w.running ≠ some d ∧ d.onStack a) ∨ (∃ d ∈ w.threads, (a - d.tcb).toNat < 24) ∨ (a - currentThread w.cpu).toNat < 8

/-- A region of the boot code, apart from every thread and from `current_thread`. -/
def World.free (w : World) (a : Addr) (n : Nat) : Prop :=
  (∀ d ∈ w.threads, Sep a n d.base d.size.toNat ∧ Sep a n d.tcb threadBytes) ∧ Sep a n (currentThread w.cpu) 8

/-- 96 bytes are left below SP. -/
def Created.room (d : Created) (sp : Addr) : Prop := ((sp - 96) - d.base).toNat + 96 ≤ d.size.toNat

inductive World.Step (switchAt trampoline : Addr) (w : World) : World → Prop
  /-- The running code changes registers and memory. -/
  | compute (c : Cpu) : c.tpidr = w.cpu.tpidr → (∀ a, w.kernelOwned a → c.mem a = w.cpu.mem a) →
      World.Step switchAt trampoline w { w with cpu := c }
  /-- It creates a thread. -/
  | create (entry arg : Addr) (stackSize : BitVec 64) (prio : Int) (id : Nat) (thread stackAlloc : Option Addr) (m : Mem) (d : Created) :
      threadCreatePrio trampoline entry arg stackSize prio id thread stackAlloc w.cpu.mem = (m, some d) →
      Placed w.cpu d → (∀ e ∈ w.threads, RegionsApart d e) →
      World.Step switchAt trampoline w
        { w with cpu := { w.cpu with mem := m }, threads := d :: w.threads, saved := Function.update w.saved d.tcb none }
  | start (bootSp : Addr) (next : Created) (c : Cpu) : w.running = none → next ∈ w.threads →
      w.free (w.cpu.sp - 96) 96 → w.free bootSp 8 → archSwitch switchAt (schedStartCall bootSp next.tcb w.cpu) = some c →
      World.Step switchAt trampoline w { w with cpu := c, running := some next }
  | switch (fp : FpRegs) (cur next : Created) (c : Cpu) : w.running = some cur → next ∈ w.threads → next ≠ cur →
      cur.room w.cpu.sp → archSwitch switchAt (doSwitchCall fp cur.tcb next.tcb w.cpu) = some c →
      World.Step switchAt trampoline w
        { w with
          cpu := c
          running := some next
          saved := Function.update w.saved cur.tcb (some (doSwitchCall fp cur.tcb next.tcb w.cpu)) }

inductive World.Reachable (switchAt trampoline : Addr) : World → Prop
  | boot (c : Cpu) : World.Reachable switchAt trampoline ⟨c, [], none, fun _ => none⟩
  | step {w w' : World} : World.Reachable switchAt trampoline w → World.Step switchAt trampoline w w' →
      World.Reachable switchAt trampoline w'

theorem RegionsApart.symm {d e : Created} (h : RegionsApart d e) : RegionsApart e d :=
  ⟨h.bases.symm, h.tcbs.symm, h.tcbBase.symm, h.baseTcb.symm⟩

/-! ## The invariant -/

/-- `d` can go on at `sp` with the registers `x`. -/
structure Kept (m : Mem) (d : Created) (sp : Addr) (x : Reg → BitVec 64) : Prop where
  word : load64 m d.tcb = sp - 96
  room : d.room sp
  frame : SavedFrame m (sp - 96) x

/-- `d` is suspended in the call it made, or has never run. -/
def Suspended (trampoline : Addr) (m : Mem) (d : Created) : Option Cpu → Prop
  | some call => Kept m d call.sp call.x ∧ ∀ a, d.onStack a → d.above call.sp a → m a = call.mem a
  | none => Kept m d d.top (firstRegs trampoline)

structure WorldInv (trampoline : Addr) (w : World) : Prop where
  placed : ∀ d ∈ w.threads, Placed w.cpu d
  apart : ∀ d ∈ w.threads, ∀ e ∈ w.threads, d ≠ e → RegionsApart d e
  running : ∀ d, w.running = some d → d ∈ w.threads ∧ load64 w.cpu.mem (currentThread w.cpu) = d.tcb
  fields : ∀ d ∈ w.threads, load64 w.cpu.mem (d.tcb + 8) = d.entry ∧ load64 w.cpu.mem (d.tcb + 16) = d.arg
  suspended : ∀ d ∈ w.threads, w.running ≠ some d → Suspended trampoline w.cpu.mem d (w.saved d.tcb)

section Invariant

variable {switchAt trampoline : Addr} {w w' : World} {d e : Created} {m m' : Mem}

theorem Kept.congr {sp : Addr} {x : Reg → BitVec 64} (h : Kept m d sp x) (hs : ∀ a, d.onStack a → m' a = m a)
    (ht : ∀ a, (a - d.tcb).toNat < 8 → m' a = m a) : Kept m' d sp x := by
  refine ⟨(load64_congr ht).trans h.word, h.room, h.frame.congr fun a ha => hs a ?_⟩
  have hroom := h.room
  unfold Created.room at hroom
  unfold Created.onStack
  bv_omega

theorem Suspended.congr {o : Option Cpu} (h : Suspended trampoline m d o) (hs : ∀ a, d.onStack a → m' a = m a)
    (ht : ∀ a, (a - d.tcb).toNat < 8 → m' a = m a) : Suspended trampoline m' d o := by
  cases o with
  | none => exact Kept.congr h hs ht
  | some call => exact ⟨h.1.congr hs ht, fun a ha hab => (hs a ha).trans (h.2 a ha hab)⟩

theorem fields_congr {v v' : BitVec 64} (h : load64 m (d.tcb + 8) = v ∧ load64 m (d.tcb + 16) = v')
    (ht : ∀ a, 8 ≤ (a - d.tcb).toNat → (a - d.tcb).toNat < 24 → m' a = m a) :
    load64 m' (d.tcb + 8) = v ∧ load64 m' (d.tcb + 16) = v' := by
  refine ⟨(load64_congr fun b hb => ht b ?_ ?_).trans h.1, (load64_congr fun b hb => ht b ?_ ?_).trans h.2⟩ <;> bv_omega

/-! ### Other code runs -/

theorem WorldInv.compute {c : Cpu} (h : WorldInv trampoline w) (ht : c.tpidr = w.cpu.tpidr)
    (hm : ∀ a, w.kernelOwned a → c.mem a = w.cpu.mem a) : WorldInv trampoline { w with cpu := c } := by
  have hcur : currentThread c = currentThread w.cpu := by rw [currentThread, ht, currentThread]
  have hword : ∀ d ∈ w.threads, ∀ a, (a - d.tcb).toNat < 24 → c.mem a = w.cpu.mem a := fun d hd a ha => hm a (Or.inr (Or.inl ⟨d, hd, ha⟩))
  refine ⟨fun d hd => ?_, h.apart, fun d hd => ?_, fun d hd => ?_, fun d hd hr => ?_⟩
  · obtain ⟨hsize, hown, hstack, htcb⟩ := h.placed d hd
    refine ⟨hsize, hown, ?_, ?_⟩
    · show Sep _ _ (currentThread c) 8
      rw [hcur]
      exact hstack
    · show Sep _ _ (currentThread c) 8
      rw [hcur]
      exact htcb
  · refine ⟨(h.running d hd).1, ?_⟩
    show load64 c.mem (currentThread c) = d.tcb
    rw [hcur, load64_congr fun b hb => hm b (Or.inr (Or.inr hb))]
    exact (h.running d hd).2
  · exact fields_congr (h.fields d hd) fun a _ ha => hword d hd a ha
  · refine (h.suspended d hd hr).congr (fun a ha => hm a (Or.inl ⟨d, hd, hr, ha⟩)) fun a ha => hword d hd a (by omega)

theorem threadCreatePrio_some {entry arg : Addr} {stackSize : BitVec 64} {prio : Int} {id : Nat} {thread stackAlloc : Option Addr}
    (h : threadCreatePrio trampoline entry arg stackSize prio id thread stackAlloc m = (m', some d)) :
    m' = createThread trampoline d id prio (fill m d.tcb threadBytes 0) ∧ d.entry = entry ∧ d.arg = arg ∧ d.size = stackSize := by
  unfold threadCreatePrio at h
  split at h
  · cases h
  · split at h
    · cases h
    · dsimp only at h
      split at h
      · cases h
      · split at h
        · cases h
        · cases h
          exact ⟨rfl, rfl, rfl, rfl⟩

theorem tcb_ne (h : RegionsApart d e) : e.tcb ≠ d.tcb := by
  intro he
  have := h.tcbs d.tcb (by simp [threadBytes])
  rw [he] at this
  simp [threadBytes] at this

theorem WorldInv.create {id : Nat} {prio : Int} (h : WorldInv trampoline w) (hp : Placed w.cpu d) (ha : ∀ e ∈ w.threads, RegionsApart d e)
    (hm : m = createThread trampoline d id prio (fill w.cpu.mem d.tcb threadBytes 0)) :
    WorldInv trampoline
      { w with cpu := { w.cpu with mem := m }, threads := d :: w.threads, saved := Function.update w.saved d.tcb none } := by
  have hout : ∀ a, d.size.toNat ≤ (a - d.base).toNat → threadBytes ≤ (a - d.tcb).toNat → m a = w.cpu.mem a := by
    intro a h1 h2
    rw [hm, createThread_outside hp.size h1 h2, fill_outside h2]
  have htcb : ∀ e ∈ w.threads, ∀ a, (a - e.tcb).toNat < threadBytes → m a = w.cpu.mem a := fun e he a hae =>
    hout a ((ha e he).baseTcb.symm a hae) ((ha e he).tcbs.symm a hae)
  have hne : ∀ e ∈ w.threads, e ≠ d := by
    intro e he hed
    exact tcb_ne (ha e he) (by rw [hed])
  refine ⟨?_, ?_, fun e he => ?_, ?_, ?_⟩
  · intro e he
    rcases List.mem_cons.mp he with rfl | he
    · exact ⟨hp.size, hp.own, hp.stack, hp.tcb⟩
    · have hpe := h.placed e he
      exact ⟨hpe.size, hpe.own, hpe.stack, hpe.tcb⟩
  · intro e he f hf hef
    rcases List.mem_cons.mp he with rfl | he
    · rcases List.mem_cons.mp hf with rfl | hf
      · exact absurd rfl hef
      · exact ha f hf
    · rcases List.mem_cons.mp hf with hfd | hf
      · rw [hfd]
        exact (ha e he).symm
      · exact h.apart e he f hf hef
  · obtain ⟨hmem, hcur⟩ := h.running e he
    refine ⟨List.mem_cons_of_mem d hmem, ?_⟩
    show load64 m (currentThread w.cpu) = e.tcb
    rw [load64_congr fun b hb => hout b (hp.stack.symm b hb) (hp.tcb.symm b hb)]
    exact hcur
  · intro e he
    rcases List.mem_cons.mp he with rfl | he
    · show load64 m (e.tcb + 8) = e.entry ∧ load64 m (e.tcb + 16) = e.arg
      rw [hm]
      exact createThread_fields.2
    · refine fields_congr (h.fields e he) fun a _ hae => htcb e he a ?_
      unfold threadBytes
      omega
  · intro e he hr
    rcases List.mem_cons.mp he with rfl | he
    · simp only [Function.update_self]
      show Kept m e e.top (firstRegs trampoline)
      rw [hm]
      exact ⟨createThread_fields.1, top_room hp.size, createThread_frame hp.size hp.own⟩
    · simp only [Function.update_of_ne (tcb_ne (ha e he))]
      refine (h.suspended e he hr).congr (fun a hae => hout a ((ha e he).bases.symm a hae) ((ha e he).tcbBase.symm a hae)) fun a hae =>
        htcb e he a ?_
      unfold threadBytes
      omega

/-! ### A thread comes in -/

/-- `d` goes on after its call, or for the first time. -/
def Resumed (trampoline : Addr) (d : Created) (c : Cpu) : Option Cpu → Prop
  | some call =>
    (∀ r : Reg, 19 ≤ r.val → r.val ≤ 30 → c.x r = call.x r) ∧ c.sp = call.sp ∧ c.pc = call.x 30 ∧
      ∀ a, d.onStack a → d.above call.sp a → c.mem a = call.mem a
  | none =>
    c.pc = trampoline ∧ c.sp = d.top ∧ (∀ r : Reg, 19 ≤ r.val → r.val ≤ 29 → c.x r = 0) ∧
      ∃ c', threadTrampoline trampoline c = some c' ∧ c'.pc = d.entry ∧ c'.x 0 = d.arg ∧ c'.sp = d.top

theorem switched_sp {call : Cpu} {sp : Addr} (h : call.x 1 = sp - 96) : (switched call).sp = sp := by
  show call.x 1 + 96 = sp
  rw [h]
  exact BitVec.sub_add_cancel sp 96

/-- Where the frame is that SP is taken from, the thread goes on. -/
theorem arrive {call : Cpu} {o : Option Cpu} (hs : Suspended trampoline (switched call).mem d o)
    (hx : call.x 1 = load64 (switched call).mem d.tcb) (hc : load64 (switched call).mem (currentThread call) = d.tcb)
    (hf : load64 (switched call).mem (d.tcb + 8) = d.entry ∧ load64 (switched call).mem (d.tcb + 16) = d.arg) :
    Resumed trampoline d (switched call) o := by
  have hregs : ∀ sp x, Kept (switched call).mem d sp x →
      (∀ r : Reg, 19 ≤ r.val → r.val ≤ 30 → (switched call).x r = x r) ∧ (switched call).sp = sp ∧ (switched call).pc = x 30 := by
    intro sp x hk
    have hx1 : call.x 1 = sp - 96 := hx.trans hk.word
    have hframe := hk.frame
    rw [← hx1] at hframe
    have hload := switched_loads hframe
    exact ⟨hload, switched_sp hx1, hload 30 (by decide) (by decide)⟩
  cases o with
  | some c0 =>
    obtain ⟨hr, hsp, hpc⟩ := hregs _ _ hs.1
    exact ⟨hr, hsp, hpc, hs.2⟩
  | none =>
    obtain ⟨hr, hsp, hpc⟩ := hregs _ _ hs
    obtain ⟨c', hrun, hpc', hx0, hsp'⟩ := threadTrampoline_eq trampoline (switched call)
    have hcur : load64 (switched call).mem ((switched call).tpidr + 8) = d.tcb := hc
    rw [hcur] at hpc' hx0
    refine ⟨hpc, hsp, fun r h1 h2 => ?_, c', hrun, hpc'.trans hf.1, hx0.trans hf.2, hsp'.trans hsp⟩
    have hne : r ≠ 30 := by
      intro e
      subst e
      omega
    rw [hr r h1 (by omega), firstRegs, if_neg hne]

/-- Another thread comes in: the threads that were suspended keep what they need, and so
    does the one that leaves. -/
theorem WorldInv.enter {call : Cpu} {next : Created} {saved : Addr → Option Cpu} (h : WorldInv trampoline w) (hn : next ∈ w.threads)
    (hrn : w.running ≠ some next) (hcc : currentThread call = currentThread w.cpu) (hx : call.x 1 = load64 call.mem next.tcb)
    (hcur : load64 call.mem (currentThread w.cpu) = next.tcb)
    (hswap : ∀ a, (a - currentThread w.cpu).toNat < 8 ∨ (a - next.tcb).toNat < 8 → (switched call).mem a = call.mem a)
    (hother : ∀ d ∈ w.threads, w.running ≠ some d → saved d.tcb = w.saved d.tcb ∧
      ∀ a, d.onStack a ∨ (a - d.tcb).toNat < 24 → (switched call).mem a = w.cpu.mem a)
    (hrun : ∀ d, w.running = some d → Suspended trampoline (switched call).mem d (saved d.tcb) ∧
      ∀ a, 8 ≤ (a - d.tcb).toNat → (a - d.tcb).toNat < 24 → (switched call).mem a = w.cpu.mem a) :
    WorldInv trampoline { w with cpu := switched call, running := some next, saved := saved } ∧
      Resumed trampoline next (switched call) (w.saved next.tcb) := by
  have hcur' : load64 (switched call).mem (currentThread w.cpu) = next.tcb :=
    (load64_congr fun b hb => hswap b (Or.inl hb)).trans hcur
  have hx' : call.x 1 = load64 (switched call).mem next.tcb := hx.trans (load64_congr fun b hb => (hswap b (Or.inr hb)).symm)
  have hfields : ∀ d ∈ w.threads, load64 (switched call).mem (d.tcb + 8) = d.entry ∧ load64 (switched call).mem (d.tcb + 16) = d.arg := by
    intro d hd
    refine fields_congr (h.fields d hd) fun a h1 h2 => ?_
    by_cases hr : w.running = some d
    · exact (hrun d hr).2 a h1 h2
    · exact (hother d hd hr).2 a (Or.inr h2)
  have hsus : ∀ d ∈ w.threads, w.running ≠ some d → Suspended trampoline (switched call).mem d (w.saved d.tcb) := by
    intro d hd hr
    have hsame := (hother d hd hr).2
    exact (h.suspended d hd hr).congr (fun a ha => hsame a (Or.inl ha)) fun a ha => hsame a (Or.inr (by omega))
  refine ⟨⟨fun d hd => ?_, h.apart, fun d hd => ?_, hfields, fun d hd _ => ?_⟩, ?_⟩
  · obtain ⟨hsize, hown, hst, ht⟩ := h.placed d hd
    rw [← hcc] at hst ht
    exact ⟨hsize, hown, hst, ht⟩
  · cases hd
    rw [← hcc] at hcur'
    exact ⟨hn, hcur'⟩
  · by_cases hr : w.running = some d
    · exact (hrun d hr).1
    · show Suspended trampoline (switched call).mem d (saved d.tcb)
      rw [(hother d hd hr).1]
      exact hsus d hd hr
  · rw [← hcc] at hcur'
    exact arrive (hsus next hn hrn) hx' hcur' (hfields next hn)

/-! ### `do_switch` -/

theorem fpsimdSave_outside {fp : FpRegs} {c : Cpu} {a : Addr}
    (h : (a - load64 c.mem (currentThread c)).toNat < 96 ∨ threadBytes ≤ (a - load64 c.mem (currentThread c)).toNat) :
    fpsimdSave fp c a = c.mem a := by
  unfold threadBytes at h
  unfold fpsimdSave
  dsimp only
  split
  · rfl
  · generalize load64 c.mem (currentThread c) = t at h
    rw [store_outside (by bv_omega), foldl_outside, store64, store_outside (by bv_omega), store64, store_outside (by bv_omega)]
    intro m i _
    have hi := i.isLt
    have h1 : (BitVec.ofNat 64 (112 + 16 * i.val)).toNat = 112 + 16 * i.val := toNat_word (by omega)
    exact store_outside (by bv_omega)

section Switch

variable {fp : FpRegs} {cur next : Created}

/-- What `do_switch` changes before the swap: saved registers in `cur`, and `current_thread`. -/
theorem doSwitchCall_outside {c : Cpu} {a : Addr} (hc : load64 c.mem (currentThread c) = cur.tcb)
    (h1 : (a - cur.tcb).toNat < 96 ∨ threadBytes ≤ (a - cur.tcb).toNat) (h2 : 8 ≤ (a - currentThread c).toNat) :
    (doSwitchCall fp cur.tcb next.tcb c).mem a = c.mem a := by
  show store64 (fpsimdSave fp c) (currentThread c) next.tcb a = c.mem a
  rw [store64, store_outside h2, fpsimdSave_outside]
  rw [hc]
  exact h1

/-- And with `arch_switch`: a frame on the stack of `cur`, and its `sp`. -/
theorem doSwitch_outside {c : Cpu} {a : Addr} (hc : load64 c.mem (currentThread c) = cur.tcb) (h0 : 96 ≤ (a - (c.sp - 96)).toNat)
    (h1 : 8 ≤ (a - cur.tcb).toNat ∧ (a - cur.tcb).toNat < 96 ∨ threadBytes ≤ (a - cur.tcb).toNat) (h2 : 8 ≤ (a - currentThread c).toNat) :
    (switched (doSwitchCall fp cur.tcb next.tcb c)).mem a = c.mem a := by
  have hx0 : (doSwitchCall fp cur.tcb next.tcb c).x 0 = cur.tcb := rfl
  unfold threadBytes at h1
  have h8 : 8 ≤ (a - (doSwitchCall fp cur.tcb next.tcb c).x 0).toNat := by
    rw [hx0]
    omega
  refine (switched_outside (c := doSwitchCall fp cur.tcb next.tcb c) h0 h8).trans (doSwitchCall_outside hc ?_ h2)
  unfold threadBytes
  omega

/-- The stack of `cur` holds what is below SP and what is above it. -/
theorem room_frame {sp a : Addr} (h : cur.room sp) (ha : (a - (sp - 96)).toNat < 96) : cur.onStack a := by
  unfold Created.room at h
  unfold Created.onStack
  bv_omega

theorem above_frame {sp a : Addr} (h : cur.room sp) (ha : cur.onStack a) (hab : cur.above sp a) : 96 ≤ (a - (sp - 96)).toNat := by
  unfold Created.room at h
  unfold Created.onStack at ha
  unfold Created.above at hab
  have := cur.size.isLt
  bv_omega

theorem WorldInv.switch (h : WorldInv trampoline w) (hr : w.running = some cur) (hn : next ∈ w.threads) (hne : next ≠ cur)
    (hroom : cur.room w.cpu.sp) :
    WorldInv trampoline
        { w with
          cpu := switched (doSwitchCall fp cur.tcb next.tcb w.cpu)
          running := some next
          saved := Function.update w.saved cur.tcb (some (doSwitchCall fp cur.tcb next.tcb w.cpu)) } ∧
      Resumed trampoline next (switched (doSwitchCall fp cur.tcb next.tcb w.cpu)) (w.saved next.tcb) := by
  obtain ⟨hcm, hcw⟩ := h.running cur hr
  have hcp := h.placed cur hcm
  have hout : ∀ a, 96 ≤ (a - (w.cpu.sp - 96)).toNat → 8 ≤ (a - cur.tcb).toNat ∧ (a - cur.tcb).toNat < 96 ∨ threadBytes ≤ (a - cur.tcb).toNat →
      8 ≤ (a - currentThread w.cpu).toNat → (switched (doSwitchCall fp cur.tcb next.tcb w.cpu)).mem a = w.cpu.mem a :=
    fun a => doSwitch_outside hcw
  have hcur : load64 (doSwitchCall fp cur.tcb next.tcb w.cpu).mem (currentThread w.cpu) = next.tcb := load64_store64 _ _ _
  generalize hcall : doSwitchCall fp cur.tcb next.tcb w.cpu = call at hout hcur ⊢
  have hx0 : call.x 0 = cur.tcb := hcall ▸ rfl
  have hx1 : call.x 1 = load64 call.mem next.tcb := hcall ▸ rfl
  have hsp : call.sp = w.cpu.sp := hcall ▸ rfl
  have hcc : currentThread call = currentThread w.cpu := hcall ▸ rfl
  have hoff : ∀ a, cur.size.toNat ≤ (a - cur.base).toNat → 96 ≤ (a - (w.cpu.sp - 96)).toNat := by
    intro a ha
    by_contra hlt
    have hon := room_frame hroom (Nat.lt_of_not_le hlt)
    unfold Created.onStack at hon
    omega
  -- the frame and `cur->sp` lie in the regions of `cur`
  have hswap : ∀ a, 96 ≤ (a - (w.cpu.sp - 96)).toNat → threadBytes ≤ (a - cur.tcb).toNat → (switched call).mem a = call.mem a := by
    intro a h1 h2
    unfold threadBytes at h2
    refine switched_outside ?_ ?_
    · rw [hsp]
      exact h1
    · rw [hx0]
      omega
  refine h.enter hn ?_ hcc hx1 hcur (fun a ha => ?_) (fun d hd hrd => ?_) (fun d hrd => ?_)
  · rw [hr]
    exact fun e => hne (Option.some.inj e).symm
  · rcases ha with ha | ha
    · exact hswap a (hoff a (hcp.stack.symm a ha)) (hcp.tcb.symm a ha)
    · have hap := h.apart next hn cur hcm hne
      have hin : (a - next.tcb).toNat < threadBytes := by
        unfold threadBytes
        omega
      exact hswap a (hoff a (hap.tcbBase a hin)) (hap.tcbs a hin)
  · have hdc : d ≠ cur := by
      intro e
      exact hrd (by rw [hr, e])
    have hap := h.apart d hd cur hcm hdc
    refine ⟨Function.update_of_ne (tcb_ne hap.symm) _ _, fun a ha => ?_⟩
    rcases ha with ha | ha
    · exact hout a (hoff a (hap.bases a ha)) (Or.inr (hap.baseTcb a ha)) ((h.placed d hd).stack a ha)
    · have hin : (a - d.tcb).toNat < threadBytes := by
        unfold threadBytes
        omega
      exact hout a (hoff a (hap.tcbBase a hin)) (Or.inr (hap.tcbs a hin)) ((h.placed d hd).tcb a hin)
  · cases hr.symm.trans hrd
    refine ⟨?_, fun a h1 h2 => ?_⟩
    · rw [Function.update_self]
      refine ⟨⟨?_, ?_, ?_⟩, fun a ha hab => ?_⟩
      · rw [← hx0]
        exact switched_word call
      · rw [hsp]
        exact hroom
      · refine switched_saves fun a ha => ?_
        rw [hsp] at ha
        rw [hx0]
        have hapart := hcp.own a (room_frame hroom ha)
        unfold threadBytes at hapart
        omega
      · rw [hsp] at hab
        exact hswap a (above_frame hroom ha hab) (hcp.own a ha)
    · have hin : (a - cur.tcb).toNat < threadBytes := by
        unfold threadBytes
        omega
      exact hout a (hoff a (hcp.own.symm a hin)) (Or.inl ⟨h1, by omega⟩) (hcp.tcb a hin)

/-! ### `sched_start` -/

theorem World.free.symm {a : Addr} {n : Nat} (h : w.free a n) (x : Addr)
    (hx : (∃ d ∈ w.threads, d.onStack x ∨ (x - d.tcb).toNat < threadBytes) ∨ (x - currentThread w.cpu).toNat < 8) : n ≤ (x - a).toNat := by
  rcases hx with ⟨d, hd, hx | hx⟩ | hx
  · exact (h.1 d hd).1.symm x hx
  · exact (h.1 d hd).2.symm x hx
  · exact h.2.symm x hx

theorem WorldInv.start {bootSp : Addr} (h : WorldInv trampoline w) (hr : w.running = none) (hn : next ∈ w.threads)
    (hframe : w.free (w.cpu.sp - 96) 96) (hboot : w.free bootSp 8) :
    WorldInv trampoline { w with cpu := switched (schedStartCall bootSp next.tcb w.cpu), running := some next } ∧
      Resumed trampoline next (switched (schedStartCall bootSp next.tcb w.cpu)) (w.saved next.tcb) := by
  have hoff : ∀ a, (∃ d ∈ w.threads, d.onStack a ∨ (a - d.tcb).toNat < threadBytes) ∨ (a - currentThread w.cpu).toNat < 8 →
      96 ≤ (a - (w.cpu.sp - 96)).toNat ∧ 8 ≤ (a - bootSp).toNat := fun a ha => ⟨hframe.symm a ha, hboot.symm a ha⟩
  have hmem : ∀ a, 8 ≤ (a - bootSp).toNat → 8 ≤ (a - currentThread w.cpu).toNat →
      ((a - next.tcb).toNat < 56 ∨ threadBytes ≤ (a - next.tcb).toNat) → (schedStartCall bootSp next.tcb w.cpu).mem a = w.cpu.mem a := by
    intro a h1 h2 h3
    unfold threadBytes at h3
    show store64 (store64 (store w.cpu.mem 4 (next.tcb + 56) kQuantumTicks.toNat) (currentThread w.cpu) next.tcb) bootSp 0 a = w.cpu.mem a
    rw [store64, store_outside h1, store64, store_outside h2, store_outside (by bv_omega)]
  have hcur : load64 (schedStartCall bootSp next.tcb w.cpu).mem (currentThread w.cpu) = next.tcb := by
    refine (load64_congr fun b hb => ?_).trans (load64_store64 (store w.cpu.mem 4 (next.tcb + 56) kQuantumTicks.toNat) _ _)
    exact store_outside (hoff b (Or.inr hb)).2
  generalize hcall : schedStartCall bootSp next.tcb w.cpu = call at hmem hcur ⊢
  have hx0 : call.x 0 = bootSp := hcall ▸ rfl
  have hx1 : call.x 1 = load64 call.mem next.tcb := hcall ▸ rfl
  have hsp : call.sp = w.cpu.sp := hcall ▸ rfl
  have hcc : currentThread call = currentThread w.cpu := hcall ▸ rfl
  have hswap : ∀ a, 96 ≤ (a - (w.cpu.sp - 96)).toNat ∧ 8 ≤ (a - bootSp).toNat → (switched call).mem a = call.mem a := by
    intro a ha
    refine switched_outside ?_ ?_
    · rw [hsp]
      exact ha.1
    · rw [hx0]
      exact ha.2
  have hnone : ∀ d, w.running ≠ some d := by
    intro d
    rw [hr]
    exact fun e => by cases e
  refine h.enter hn (hnone next) hcc hx1 hcur (fun a ha => hswap a ?_) (fun d hd _ => ⟨rfl, fun a ha => ?_⟩) fun d hrd => absurd hrd (hnone d)
  · rcases ha with ha | ha
    · exact hoff a (Or.inr ha)
    · refine hoff a (Or.inl ⟨next, hn, Or.inr ?_⟩)
      unfold threadBytes
      omega
  · have hpd := h.placed d hd
    have hin : d.onStack a ∨ (a - d.tcb).toNat < threadBytes := by
      rcases ha with ha | ha
      · exact Or.inl ha
      · refine Or.inr ?_
        unfold threadBytes
        omega
    have haway := hoff a (Or.inl ⟨d, hd, hin⟩)
    rw [hswap a haway]
    refine hmem a haway.2 ?_ ?_
    · rcases hin with ha | ha
      · exact hpd.stack a ha
      · exact hpd.tcb a ha
    · by_cases hdn : d = next
      · subst hdn
        rcases ha with ha | ha
        · exact Or.inr (hpd.own a ha)
        · exact Or.inl (by omega)
      · have hap := h.apart d hd next hn hdn
        rcases ha with ha | ha
        · exact Or.inr (hap.baseTcb a ha)
        · refine Or.inr (hap.tcbs a ?_)
          unfold threadBytes
          omega

end Switch

/-- What a step keeps, and how it lets another thread in. -/
theorem WorldInv.step (h : WorldInv trampoline w) (hs : World.Step switchAt trampoline w w') :
    WorldInv trampoline w' ∧
      (w'.running = w.running ∨ ∃ next, w'.running = some next ∧ Resumed trampoline next w'.cpu (w.saved next.tcb)) := by
  cases hs with
  | compute c ht hm => exact ⟨h.compute ht hm, Or.inl rfl⟩
  | create entry arg stackSize prio id thread stackAlloc m d hc hp ha =>
    exact ⟨h.create hp ha (threadCreatePrio_some hc).1, Or.inl rfl⟩
  | start bootSp next c hr hn hframe hboot hc =>
    cases (archSwitch_eq switchAt _).symm.trans hc
    obtain ⟨hinv, hres⟩ := h.start hr hn hframe hboot
    exact ⟨hinv, Or.inr ⟨next, rfl, hres⟩⟩
  | switch fp cur next c hr hn hne hroom hc =>
    cases (archSwitch_eq switchAt _).symm.trans hc
    obtain ⟨hinv, hres⟩ := h.switch hr hn hne hroom
    exact ⟨hinv, Or.inr ⟨next, rfl, hres⟩⟩

theorem world_reachable (h : World.Reachable switchAt trampoline w) : WorldInv trampoline w := by
  induction h with
  | boot c => refine ⟨?_, ?_, ?_, ?_, ?_⟩ <;> exact fun d hd => by cases hd
  | step _ hs ih => exact (ih.step hs).1

/-- A thread that is switched to has x19..x30, SP and its stack as at its call of
    `arch_switch`; one that has never run enters `thread_trampoline` on its empty stack with
    x19..x29 zero, and its entry is called with its argument. -/
theorem context_preserved {next : Created} (h : World.Reachable switchAt trampoline w) (hs : World.Step switchAt trampoline w w')
    (hn : w'.running = some next) (ho : w.running ≠ some next) : Resumed trampoline next w'.cpu (w.saved next.tcb) := by
  rcases ((world_reachable h).step hs).2 with hsame | ⟨next', hn', hres⟩
  · rw [hsame] at hn
    exact absurd hn ho
  · cases hn.symm.trans hn'
    exact hres

end Invariant

/-! ## Two threads -/

theorem sep_of {a b : Addr} {n k : Nat} (h : n ≤ (b - a).toNat ∧ k ≤ (a - b).toNat) : Sep a n b k := by
  intro x hx
  obtain ⟨h1, h2⟩ := h
  bv_omega

/-- A thread is created, started, creates a second one with the least stack and switches to
    it; when the second one switches back, the first one is where it was. -/
theorem context_preserved_back : ∃ (w w' : World) (call : Cpu) (d : Created), World.Reachable 0x1000 0x2000 w ∧
    World.Step 0x1000 0x2000 w w' ∧ w'.running = some d ∧ w.running ≠ some d ∧ w.saved d.tcb = some call ∧ call.x 19 = 7 ∧
    w'.cpu.x 19 = 7 ∧ w'.cpu.sp = call.sp ∧ w'.cpu.pc = call.x 30 := by
  let c0 : Cpu := ⟨fun _ => 0, 0x9000, 0, 0, 0, 0, 0x8000, fun _ => 0⟩
  let d : Created := ⟨0x10000, 0x21000, 160, 0x3000, 1⟩
  let e : Created := ⟨0x11000, 0x31000, 160, 0x4000, 2⟩
  have hde : RegionsApart e d := ⟨sep_of (by decide), sep_of (by decide), sep_of (by decide), sep_of (by decide)⟩
  have hstarted : ∃ w, World.Reachable 0x1000 0x2000 w ∧ w.threads = [d] ∧ w.running = some d ∧ w.cpu.tpidr = 0x8000 := by
    have h0 : World.Reachable 0x1000 0x2000 ⟨c0, [], none, fun _ => none⟩ := .boot c0
    have hplaced : Placed c0 d := ⟨by decide, sep_of (by decide), sep_of (by decide), sep_of (by decide)⟩
    have h1 := h0.step (.create 0x3000 1 160 10 1 (some 0x10000) (some 0x20000) _ d rfl hplaced fun e he => by cases he)
    have hfree : ∀ a n, Sep a n d.base 160 ∧ Sep a n d.tcb threadBytes → Sep a n 0x8008 8 → ∀ m saved,
        World.free ⟨{ c0 with mem := m }, [d], none, saved⟩ a n := by
      intro a n hd hc m saved
      refine ⟨fun x hx => ?_, hc⟩
      rw [List.mem_singleton.mp hx]
      exact hd
    exact ⟨_, h1.step (.start 0x9008 d _ rfl List.mem_cons_self
      (hfree _ _ ⟨sep_of (by decide), sep_of (by decide)⟩ (sep_of (by decide)) _ _)
      (hfree _ _ ⟨sep_of (by decide), sep_of (by decide)⟩ (sep_of (by decide)) _ _) (archSwitch_eq _ _)), rfl, rfl, rfl⟩
  obtain ⟨w, hw, hthreads, hrun, htp⟩ := hstarted
  have hcur : w.cpu.tpidr + 8 = 0x8008 := by
    rw [htp]
    rfl
  have hplaced : Placed w.cpu e := by
    refine ⟨by decide, sep_of (by decide), ?_, ?_⟩
    · rw [currentThread, hcur]
      exact sep_of (by decide)
    · rw [currentThread, hcur]
      exact sep_of (by decide)
  have happart : ∀ x ∈ w.threads, RegionsApart e x := by
    intro x hx
    rw [hthreads] at hx
    rw [List.mem_singleton.mp hx]
    exact hde
  have hroom : ∀ x : Created, x.size = 160 → x.room (x.base + 160) := by
    intro x hx
    unfold Created.room
    bv_omega
  have hcreated : ∃ w, World.Reachable 0x1000 0x2000 w ∧ w.threads = [e, d] ∧ w.running = some d ∧ w.cpu.x 19 = 7 ∧ d.room w.cpu.sp := by
    have h1 := hw.step (.compute { w.cpu with x := fun _ => 7, sp := d.base + 160 } rfl fun _ _ => rfl)
    have h2 := h1.step (.create 0x4000 2 160 10 2 (some 0x11000) (some 0x30000) _ e rfl ⟨hplaced.1, hplaced.2, hplaced.3, hplaced.4⟩ happart)
    exact ⟨_, h2, congrArg (List.cons e) hthreads, hrun, rfl, hroom d rfl⟩
  obtain ⟨w2, hw2, hthreads2, hrun2, hx2, hroom2⟩ := hcreated
  have hmem : d ∈ w2.threads ∧ e ∈ w2.threads := by simp [hthreads2]
  have hback : ∃ w call, World.Reachable 0x1000 0x2000 w ∧ d ∈ w.threads ∧ w.running = some e ∧ w.saved d.tcb = some call ∧
      call.x 19 = 7 ∧ e.room w.cpu.sp := by
    have h3 := hw2.step (.switch FpRegs.zero d e _ hrun2 hmem.2 (by decide) hroom2 (archSwitch_eq _ _))
    have h4 := h3.step (.compute { switched (doSwitchCall FpRegs.zero d.tcb e.tcb w2.cpu) with sp := e.base + 160 } rfl fun _ _ => rfl)
    have hsaved : Function.update w2.saved d.tcb (some (doSwitchCall FpRegs.zero d.tcb e.tcb w2.cpu)) d.tcb =
        some (doSwitchCall FpRegs.zero d.tcb e.tcb w2.cpu) := Function.update_self _ _ _
    exact ⟨_, doSwitchCall FpRegs.zero d.tcb e.tcb w2.cpu, h4, hmem.1, rfl, hsaved, hx2, hroom e rfl⟩
  obtain ⟨w3, call, hw3, hmem3, hrun3, hsaved, hx3, hroom3⟩ := hback
  have hne : w3.running ≠ some d := by
    rw [hrun3]
    decide
  have hstep : World.Step 0x1000 0x2000 w3 _ := .switch FpRegs.zero e d _ hrun3 hmem3 (by decide) hroom3 (archSwitch_eq _ _)
  have hres := context_preserved hw3 hstep rfl hne
  rw [hsaved] at hres
  obtain ⟨hx, hsp, hpc, -⟩ := hres
  exact ⟨w3, _, call, d, hw3, hstep, rfl, hne, hsaved, hx3, (hx 19 (by decide) (by decide)).trans hx3, hsp, hpc⟩

end Microkernel.Arch

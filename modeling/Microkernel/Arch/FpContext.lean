/-
  Microkernel.Arch.FpContext — q0..q31, FPCR and FPSR across context switches, in the bytes
  of the `Thread`s (src/arch/aarch64/fpsimd.cc).

  `World` (Microkernel.Arch.Switches) with the FP registers beside it. `do_switch` runs
  `fpsimd_save` before `arch_switch` and `fpsimd_load` after it; a thread that has never run
  comes out of `arch_switch` into `thread_trampoline` and not into `fpsimd_load`. The running
  thread changes the FP registers as it likes, and no byte of a `Thread` from `fpsimd_valid`
  on. There is a `cpu_local`, and no `Thread` lies at address 0.

  Proved: in every run, a thread that is switched to again has the FP registers it had when
  it called `do_switch`, and one that is switched to for the first time has those of the
  code before it (`fp_preserved`).
-/

import Microkernel.Arch.Switches

namespace Microkernel.Arch

open Aarch64 Bytes

/-! ## src/arch/aarch64/fpsimd.cc -/

/-- `fpsimd_load`, with these registers before it. -/
def fpsimdLoad (fp : FpRegs) (c : Cpu) : FpRegs :=
  let t := load64 c.mem (currentThread c)
  if c.tpidr = 0 ∨ t = 0 then fp
  else
    { q := fun i => if load c.mem 4 (t + 96) = 0 then 0 else BitVec.ofNat 128 (load c.mem 16 (t + BitVec.ofNat 64 (112 + 16 * i.val)))
      fpcr := load64 c.mem (t + 624)
      fpsr := load64 c.mem (t + 632) }

/-- The `Thread` at `t` holds the registers `r`. -/
structure FpSaved (m : Mem) (t : Addr) (r : FpRegs) : Prop where
  valid : load m 4 (t + 96) = 1
  vregs : ∀ i : Fin 32, load m 16 (t + BitVec.ofNat 64 (112 + 16 * i.val)) = (r.q i).toNat
  fpcr : load64 m (t + 624) = r.fpcr
  fpsr : load64 m (t + 632) = r.fpsr

section Save

variable {fp r : FpRegs} {c : Cpu} {m m' : Mem} {t : Addr}

/-- They lie between `fpsimd_valid` and the end. -/
theorem FpSaved.congr (h : FpSaved m t r) (hm : ∀ a, 96 ≤ (a - t).toNat → (a - t).toNat < threadBytes → m' a = m a) : FpSaved m' t r := by
  unfold threadBytes at hm
  refine ⟨?_, fun i => ?_, ?_, ?_⟩
  · rw [load_congr (by decide) fun b hb => hm b (by bv_omega) (by bv_omega)]
    exact h.valid
  · have hi := i.isLt
    have ho : (BitVec.ofNat 64 (112 + 16 * i.val)).toNat = 112 + 16 * i.val := toNat_word (by omega)
    rw [load_congr (by decide) fun b hb => hm b (by bv_omega) (by bv_omega)]
    exact h.vregs i
  · rw [load64_congr fun b hb => hm b (by bv_omega) (by bv_omega)]
    exact h.fpcr
  · rw [load64_congr fun b hb => hm b (by bv_omega) (by bv_omega)]
    exact h.fpsr

/-- What `fpsimd_load` finds. -/
theorem FpSaved.load (h : FpSaved c.mem t r) (htp : c.tpidr ≠ 0) (hcur : load64 c.mem (currentThread c) = t) (ht : t ≠ 0) :
    fpsimdLoad fp c = r := by
  unfold fpsimdLoad
  rw [hcur, if_neg (not_or.mpr ⟨htp, ht⟩), h.valid, h.fpcr, h.fpsr]
  have hq : (fun i : Fin 32 => if (1 : Nat) = 0 then (0 : BitVec 128) else
      BitVec.ofNat 128 (Bytes.load c.mem 16 (t + BitVec.ofNat 64 (112 + 16 * i.val)))) = r.q := by
    funext i
    rw [if_neg (by decide), h.vregs i, BitVec.ofNat_toNat, BitVec.setWidth_eq]
  rw [hq]

/-- The `stp` of all of q0..q31, as stores of fields. -/
def vregFields (fp : FpRegs) : List (Nat × Nat × Nat) := (List.finRange 32).map fun i => (112 + 16 * i.val, 16, (fp.q i).toNat)

theorem vregFields_range : ∀ f ∈ vregFields fp, 112 ≤ f.1 ∧ f.1 + f.2.1 ≤ 624 := by
  intro f hf
  obtain ⟨i, -, rfl⟩ := List.mem_map.mp hf
  have hi := i.isLt
  dsimp only
  omega

theorem vregFields_sorted : (vregFields fp).Pairwise fun f g => f.1 + f.2.1 ≤ g.1 := by
  unfold vregFields
  rw [List.pairwise_map]
  refine List.Pairwise.imp ?_ (List.pairwise_lt_finRange 32)
  intro i j hij
  have hlt : i.val < j.val := hij
  dsimp only
  omega

theorem fpsimdSave_eq (htp : c.tpidr ≠ 0) (hcur : load64 c.mem (currentThread c) = t) (ht : t ≠ 0) :
    fpsimdSave fp c = store (storeFields (store64 (store64 c.mem (t + 624) fp.fpcr) (t + 632) fp.fpsr) t (vregFields fp)) 4 (t + 96) 1 := by
  unfold fpsimdSave
  rw [hcur, if_neg (not_or.mpr ⟨htp, ht⟩), storeFields, vregFields, List.foldl_map]

theorem fpsimdSave_saved (htp : c.tpidr ≠ 0) (hcur : load64 c.mem (currentThread c) = t) (ht : t ≠ 0) : FpSaved (fpsimdSave fp c) t fp := by
  rw [fpsimdSave_eq htp hcur ht]
  refine ⟨?_, fun i => ?_, ?_, ?_⟩
  · rw [load_store _ (by decide)]
    rfl
  · have hi := i.isLt
    have ho : (BitVec.ofNat 64 (112 + 16 * i.val)).toNat = 112 + 16 * i.val := toNat_word (by omega)
    have hmem : (112 + 16 * i.val, 16, (fp.q i).toNat) ∈ vregFields fp := List.mem_map.mpr ⟨i, List.mem_finRange i, rfl⟩
    have hfield := load_storeFields (t := t) (store64 (store64 c.mem (t + 624) fp.fpcr) (t + 632) fp.fpsr) (show 624 < 2 ^ 64 by decide)
      vregFields_sorted (fun f hf => (vregFields_range f hf).2) hmem
    rw [load_store_apart (by decide) fun b hb => by bv_omega]
    exact hfield.trans (Nat.mod_eq_of_lt (fp.q i).isLt)
  · rw [load64_congr fun b hb => store_outside (by bv_omega)]
    rw [load64_congr fun b hb => storeFields_outside (show 624 < 2 ^ 64 by decide) vregFields_range (Or.inr (by bv_omega))]
    rw [load64_store64_apart _ _ (by bv_omega) (by bv_omega), load64_store64]
  · rw [load64_congr fun b hb => store_outside (by bv_omega)]
    rw [load64_congr fun b hb => storeFields_outside (show 624 < 2 ^ 64 by decide) vregFields_range (Or.inr (by bv_omega))]
    rw [load64_store64]

end Save

/-! ## Runs -/

structure FpWorld where
  world : World
  fp : FpRegs
  /-- The FP registers of each `Thread` at its last call of `do_switch`. -/
  left : Addr → Option FpRegs

/-- From `fpsimd_valid` on, in a `Thread`. -/
def World.fpOwned (w : World) (a : Addr) : Prop := ∃ d ∈ w.threads, 96 ≤ (a - d.tcb).toNat ∧ (a - d.tcb).toNat < threadBytes

inductive FpWorld.Step (switchAt trampoline : Addr) (s : FpWorld) : FpWorld → Prop
  | compute (c : Cpu) (fp : FpRegs) : c.tpidr = s.world.cpu.tpidr →
      (∀ a, s.world.kernelOwned a ∨ s.world.fpOwned a → c.mem a = s.world.cpu.mem a) →
      FpWorld.Step switchAt trampoline s { s with world := { s.world with cpu := c }, fp := fp }
  | create (entry arg : Addr) (stackSize : BitVec 64) (prio : Int) (id : Nat) (thread stackAlloc : Option Addr) (m : Mem) (d : Created) :
      threadCreatePrio trampoline entry arg stackSize prio id thread stackAlloc s.world.cpu.mem = (m, some d) →
      d.tcb ≠ 0 → Placed s.world.cpu d → (∀ e ∈ s.world.threads, RegionsApart d e) →
      FpWorld.Step switchAt trampoline s
        { s with
          world := { s.world with
            cpu := { s.world.cpu with mem := m }, threads := d :: s.world.threads, saved := Function.update s.world.saved d.tcb none }
          left := Function.update s.left d.tcb none }
  | start (bootSp : Addr) (next : Created) (c : Cpu) : s.world.running = none → next ∈ s.world.threads →
      s.world.free (s.world.cpu.sp - 96) 96 → s.world.free bootSp 8 →
      archSwitch switchAt (schedStartCall bootSp next.tcb s.world.cpu) = some c →
      FpWorld.Step switchAt trampoline s { s with world := { s.world with cpu := c, running := some next } }
  | switch (cur next : Created) (c : Cpu) : s.world.running = some cur → next ∈ s.world.threads → next ≠ cur →
      cur.room s.world.cpu.sp → archSwitch switchAt (doSwitchCall s.fp cur.tcb next.tcb s.world.cpu) = some c →
      FpWorld.Step switchAt trampoline s
        { world := { s.world with
            cpu := c
            running := some next
            saved := Function.update s.world.saved cur.tcb (some (doSwitchCall s.fp cur.tcb next.tcb s.world.cpu)) }
          -- a thread that has called `arch_switch` returns from it to `fpsimd_load`
          fp := if (s.world.saved next.tcb).isSome then fpsimdLoad s.fp c else s.fp
          left := Function.update s.left cur.tcb (some s.fp) }

inductive FpWorld.Reachable (switchAt trampoline : Addr) : FpWorld → Prop
  | boot (c : Cpu) (fp : FpRegs) : c.tpidr ≠ 0 → FpWorld.Reachable switchAt trampoline ⟨⟨c, [], none, fun _ => none⟩, fp, fun _ => none⟩
  | step {s s' : FpWorld} : FpWorld.Reachable switchAt trampoline s → FpWorld.Step switchAt trampoline s s' →
      FpWorld.Reachable switchAt trampoline s'

structure FpWorldInv (trampoline : Addr) (s : FpWorld) : Prop where
  world : WorldInv trampoline s.world
  cpuLocal : s.world.cpu.tpidr ≠ 0
  tcbs : ∀ d ∈ s.world.threads, d.tcb ≠ 0
  /-- A thread has left FP registers if it has called `arch_switch`. -/
  called : ∀ d ∈ s.world.threads, (s.left d.tcb).isSome = (s.world.saved d.tcb).isSome
  unstarted : s.world.running = none → ∀ d ∈ s.world.threads, s.left d.tcb = none
  suspended : ∀ d ∈ s.world.threads, s.world.running ≠ some d → ∀ r, s.left d.tcb = some r → FpSaved s.world.cpu.mem d.tcb r

section Invariant

variable {switchAt trampoline : Addr} {s s' : FpWorld} {cur next d : Created} {r : FpRegs}

/-- Without the FP registers it is a step of the world. -/
theorem FpWorld.Step.world (hs : FpWorld.Step switchAt trampoline s s') : World.Step switchAt trampoline s.world s'.world := by
  cases hs with
  | compute c fp ht hm => exact .compute c ht fun a ha => hm a (Or.inl ha)
  | create entry arg stackSize prio id thread stackAlloc m d hc _ hp ha => exact .create entry arg stackSize prio id thread stackAlloc m d hc hp ha
  | start bootSp next c hr hn hframe hboot hc => exact .start bootSp next c hr hn hframe hboot hc
  | switch cur next c hr hn hne hroom hc => exact .switch s.fp cur next c hr hn hne hroom hc

/-- Off the regions of `cur` and `current_thread` a switch changes nothing. -/
theorem FpWorldInv.switch_other (next : Created) (h : FpWorldInv trampoline s) (hr : s.world.running = some cur) (hd : d ∈ s.world.threads) (hdc : d ≠ cur)
    (hroom : cur.room s.world.cpu.sp) {a : Addr} (ha : (a - d.tcb).toNat < threadBytes) :
    (switched (doSwitchCall s.fp cur.tcb next.tcb s.world.cpu)).mem a = s.world.cpu.mem a := by
  obtain ⟨hcm, hcw⟩ := h.world.running cur hr
  have hap := h.world.apart d hd cur hcm hdc
  refine doSwitch_outside hcw ?_ (Or.inr (hap.tcbs a ha)) ((h.world.placed d hd).tcb a ha)
  by_contra hlt
  exact absurd (room_frame hroom (Nat.lt_of_not_le hlt)) (by
    have hoff := hap.tcbBase a ha
    unfold Created.onStack
    omega)

/-- `fpsimd_save` of the thread that leaves. -/
theorem FpWorldInv.switch_saves (h : FpWorldInv trampoline s) (hr : s.world.running = some cur) (hroom : cur.room s.world.cpu.sp) :
    FpSaved (switched (doSwitchCall s.fp cur.tcb next.tcb s.world.cpu)).mem cur.tcb s.fp := by
  obtain ⟨hcm, hcw⟩ := h.world.running cur hr
  have hcp := h.world.placed cur hcm
  have hsave : FpSaved (fpsimdSave s.fp s.world.cpu) cur.tcb s.fp := fpsimdSave_saved h.cpuLocal hcw (h.tcbs cur hcm)
  refine hsave.congr fun a h1 h2 => ?_
  have hx0 : (doSwitchCall s.fp cur.tcb next.tcb s.world.cpu).x 0 = cur.tcb := rfl
  have hswap : (switched (doSwitchCall s.fp cur.tcb next.tcb s.world.cpu)).mem a = (doSwitchCall s.fp cur.tcb next.tcb s.world.cpu).mem a := by
    refine switched_outside ?_ ?_
    · by_contra hlt
      have hon := room_frame hroom (Nat.lt_of_not_le hlt)
      have hoff := hcp.own a hon
      omega
    · rw [hx0]
      omega
  rw [hswap]
  exact store_outside (hcp.tcb a h2)

theorem FpWorldInv.compute {c : Cpu} {fp : FpRegs} (h : FpWorldInv trampoline s) (ht : c.tpidr = s.world.cpu.tpidr)
    (hm : ∀ a, s.world.kernelOwned a ∨ s.world.fpOwned a → c.mem a = s.world.cpu.mem a) :
    FpWorldInv trampoline { s with world := { s.world with cpu := c }, fp := fp } := by
  refine ⟨h.world.compute ht fun a ha => hm a (Or.inl ha), ?_, h.tcbs, h.called, h.unstarted, fun d hd hr r hl => ?_⟩
  · show c.tpidr ≠ 0
    rw [ht]
    exact h.cpuLocal
  · exact (h.suspended d hd hr r hl).congr fun a h1 h2 => hm a (Or.inr ⟨d, hd, h1, h2⟩)

theorem FpWorldInv.create {id : Nat} {prio : Int} {m : Mem} (h : FpWorldInv trampoline s) (h0 : d.tcb ≠ 0) (hp : Placed s.world.cpu d)
    (ha : ∀ e ∈ s.world.threads, RegionsApart d e) (hm : m = createThread trampoline d id prio (fill s.world.cpu.mem d.tcb threadBytes 0)) :
    FpWorldInv trampoline
      { s with
        world := { s.world with
          cpu := { s.world.cpu with mem := m }, threads := d :: s.world.threads, saved := Function.update s.world.saved d.tcb none }
        left := Function.update s.left d.tcb none } := by
  refine ⟨h.world.create hp ha hm, h.cpuLocal, ?_, ?_, ?_, ?_⟩
  · intro e he
    rcases List.mem_cons.mp he with rfl | he
    · exact h0
    · exact h.tcbs e he
  · intro e he
    dsimp only
    rcases List.mem_cons.mp he with rfl | he
    · rw [Function.update_self, Function.update_self]
      rfl
    · rw [Function.update_of_ne (tcb_ne (ha e he)), Function.update_of_ne (tcb_ne (ha e he))]
      exact h.called e he
  · intro hr e he
    dsimp only
    rcases List.mem_cons.mp he with rfl | he
    · exact Function.update_self ..
    · rw [Function.update_of_ne (tcb_ne (ha e he))]
      exact h.unstarted hr e he
  · intro e he hr r hl
    dsimp only at hl ⊢
    rcases List.mem_cons.mp he with rfl | he
    · rw [Function.update_self] at hl
      cases hl
    · rw [Function.update_of_ne (tcb_ne (ha e he))] at hl
      refine (h.suspended e he hr r hl).congr fun a _ h2 => ?_
      rw [hm, createThread_outside hp.size ((ha e he).baseTcb.symm a h2) ((ha e he).tcbs.symm a h2), fill_outside ((ha e he).tcbs.symm a h2)]

theorem FpWorldInv.start {bootSp : Addr} (h : FpWorldInv trampoline s) (hr : s.world.running = none) (hn : next ∈ s.world.threads)
    (hframe : s.world.free (s.world.cpu.sp - 96) 96) (hboot : s.world.free bootSp 8) :
    FpWorldInv trampoline
      { s with world := { s.world with cpu := switched (schedStartCall bootSp next.tcb s.world.cpu), running := some next } } := by
  refine ⟨(h.world.start hr hn hframe hboot).1, h.cpuLocal, h.tcbs, h.called, fun hnone => ?_, fun d hd _ r hl => ?_⟩
  · cases hnone
  · rw [show s.left d.tcb = none from h.unstarted hr d hd] at hl
    cases hl

theorem FpWorldInv.switch (fp : FpRegs) (h : FpWorldInv trampoline s) (hr : s.world.running = some cur) (hn : next ∈ s.world.threads)
    (hne : next ≠ cur) (hroom : cur.room s.world.cpu.sp) :
    FpWorldInv trampoline
      { world := { s.world with
          cpu := switched (doSwitchCall s.fp cur.tcb next.tcb s.world.cpu)
          running := some next
          saved := Function.update s.world.saved cur.tcb (some (doSwitchCall s.fp cur.tcb next.tcb s.world.cpu)) }
        fp := fp
        left := Function.update s.left cur.tcb (some s.fp) } := by
  have hcm := (h.world.running cur hr).1
  refine ⟨(h.world.switch hr hn hne hroom).1, h.cpuLocal, h.tcbs, fun d hd => ?_, fun hnone => ?_, fun d hd _ r hl => ?_⟩
  · dsimp only
    by_cases hdc : d = cur
    · rw [hdc, Function.update_self, Function.update_self]
      rfl
    · have hap := h.world.apart d hd cur hcm hdc
      rw [Function.update_of_ne (tcb_ne hap.symm), Function.update_of_ne (tcb_ne hap.symm)]
      exact h.called d hd
  · cases hnone
  · dsimp only at hl ⊢
    by_cases hdc : d = cur
    · rw [hdc, Function.update_self] at hl
      cases hl
      rw [hdc]
      exact h.switch_saves hr hroom
    · have hap := h.world.apart d hd cur hcm hdc
      rw [Function.update_of_ne (tcb_ne hap.symm)] at hl
      have hrd : s.world.running ≠ some d := by
        rw [hr]
        exact fun e => hdc (Option.some.inj e).symm
      exact (h.suspended d hd hrd r hl).congr fun a _ h2 => h.switch_other next hr hd hdc hroom h2

theorem FpWorldInv.step (h : FpWorldInv trampoline s) (hs : FpWorld.Step switchAt trampoline s s') : FpWorldInv trampoline s' := by
  cases hs with
  | compute c fp ht hm => exact h.compute ht hm
  | create entry arg stackSize prio id thread stackAlloc m d hc h0 hp ha => exact h.create h0 hp ha (threadCreatePrio_some hc).1
  | start bootSp next c hr hn hframe hboot hc =>
    cases (archSwitch_eq switchAt _).symm.trans hc
    exact h.start hr hn hframe hboot
  | switch cur next c hr hn hne hroom hc =>
    cases (archSwitch_eq switchAt _).symm.trans hc
    exact h.switch _ hr hn hne hroom

theorem fpWorld_reachable (h : FpWorld.Reachable switchAt trampoline s) : FpWorldInv trampoline s := by
  induction h with
  | boot c fp htp =>
    have hboot : World.Reachable switchAt trampoline ⟨c, [], none, fun _ => none⟩ := .boot c
    refine ⟨world_reachable hboot, htp, ?_, ?_, ?_, ?_⟩
    · exact fun d hd => by cases hd
    · exact fun d hd => by cases hd
    · exact fun _ d hd => by cases hd
    · exact fun d hd => by cases hd
  | step _ hs ih => exact ih.step hs

/-- A thread that is switched to again has the FP registers of its call of `do_switch`; one
    that has never run has those that were there. -/
theorem fp_preserved (h : FpWorld.Reachable switchAt trampoline s) (hs : FpWorld.Step switchAt trampoline s s')
    (hn : s'.world.running = some next) (ho : s.world.running ≠ some next) : s'.fp = (s.left next.tcb).getD s.fp := by
  have hinv := fpWorld_reachable h
  cases hs with
  | compute c fp ht hm => exact absurd hn ho
  | create entry arg stackSize prio id thread stackAlloc m d hc h0 hp ha => exact absurd hn ho
  | start bootSp next' c hr hmem hframe hboot hc =>
    cases hn
    rw [hinv.unstarted hr next hmem]
    rfl
  | switch cur next' c hr hmem hne hroom hc =>
    cases hn
    cases (archSwitch_eq switchAt _).symm.trans hc
    have hcalled := hinv.called next hmem
    cases hleft : s.left next.tcb with
    | none =>
      rw [hleft] at hcalled
      simp only [← hcalled]
      rfl
    | some r =>
      rw [hleft] at hcalled
      have hsaved := (hinv.switch s.fp hr hmem hne hroom).world
      have hload := (hinv.suspended next hmem ho r hleft).congr fun a _ h2 => hinv.switch_other next hr hmem hne hroom h2
      simp only [← hcalled]
      exact hload.load hinv.cpuLocal (hsaved.running next rfl).2 (hinv.tcbs next hmem)

end Invariant

/-! ## Two threads -/

/-- The first thread leaves FPSR 7, the second one sets it to 9; back in the first it is 7. -/
theorem fp_preserved_back : ∃ (s s' : FpWorld) (d : Created), FpWorld.Reachable 0x1000 0x2000 s ∧ FpWorld.Step 0x1000 0x2000 s s' ∧
    s'.world.running = some d ∧ s.fp.fpsr = 9 ∧ s'.fp.fpsr = 7 := by
  let c0 : Cpu := ⟨fun _ => 0, 0x9000, 0, 0, 0, 0, 0x8000, fun _ => 0⟩
  let d : Created := ⟨0x10000, 0x21000, 160, 0x3000, 1⟩
  let e : Created := ⟨0x11000, 0x31000, 160, 0x4000, 2⟩
  let fp : BitVec 64 → FpRegs := fun v => ⟨fun _ => 0, 0, v⟩
  have hde : RegionsApart e d := ⟨sep_of (by decide), sep_of (by decide), sep_of (by decide), sep_of (by decide)⟩
  have hplaced : ∀ m, Placed { c0 with mem := m } d ∧ Placed { c0 with mem := m } e := by
    intro m
    have hcur : currentThread { c0 with mem := m } = 0x8008 := rfl
    refine ⟨⟨by decide, sep_of (by decide), ?_, ?_⟩, ⟨by decide, sep_of (by decide), ?_, ?_⟩⟩ <;> rw [hcur] <;> exact sep_of (by decide)
  have hroom : ∀ x : Created, x.size = 160 → x.room (x.base + 160) := by
    intro x hx
    unfold Created.room
    bv_omega
  -- both are created and the first one is started
  have hstarted : ∃ s, FpWorld.Reachable 0x1000 0x2000 s ∧ s.world.threads = [e, d] ∧ s.world.running = some d := by
    have h0 : FpWorld.Reachable 0x1000 0x2000 ⟨⟨c0, [], none, fun _ => none⟩, fp 0, fun _ => none⟩ := .boot c0 (fp 0) (by decide)
    have h1 := h0.step (.create 0x3000 1 160 10 1 (some 0x10000) (some 0x20000) _ d rfl (by decide) (hplaced _).1 fun x hx => by cases hx)
    have happart : ∀ x ∈ [d], RegionsApart e x := by
      intro x hx
      rw [List.mem_singleton.mp hx]
      exact hde
    have h2 := h1.step (.create 0x4000 2 160 10 2 (some 0x11000) (some 0x30000) _ e rfl (by decide) (hplaced _).2 happart)
    have hfree : ∀ a n, (Sep a n d.base 160 ∧ Sep a n d.tcb threadBytes) → (Sep a n e.base 160 ∧ Sep a n e.tcb threadBytes) →
        Sep a n 0x8008 8 → ∀ m saved, World.free ⟨{ c0 with mem := m }, [e, d], none, saved⟩ a n := by
      intro a n hd he hc m saved
      refine ⟨fun x hx => ?_, hc⟩
      rcases List.mem_cons.mp hx with rfl | hx
      · exact he
      · rw [List.mem_singleton.mp hx]
        exact hd
    exact ⟨_, h2.step (.start 0x9008 d _ rfl (by simp)
      (hfree _ _ ⟨sep_of (by decide), sep_of (by decide)⟩ ⟨sep_of (by decide), sep_of (by decide)⟩ (sep_of (by decide)) _ _)
      (hfree _ _ ⟨sep_of (by decide), sep_of (by decide)⟩ ⟨sep_of (by decide), sep_of (by decide)⟩ (sep_of (by decide)) _ _)
      (archSwitch_eq _ _)), rfl, rfl⟩
  obtain ⟨s, hs, hthreads, hrun⟩ := hstarted
  have h1 := hs.step (.compute { s.world.cpu with sp := d.base + 160 } (fp 7) rfl fun _ _ => rfl)
  have h2 := h1.step (.switch d e _ hrun (by simp [hthreads]) (by decide) (hroom d rfl) (archSwitch_eq _ _))
  have h3 := h2.step (.compute { switched (doSwitchCall (fp 7) d.tcb e.tcb { s.world.cpu with sp := d.base + 160 }) with sp := e.base + 160 } (fp 9)
    rfl fun _ _ => rfl)
  have hmem : d ∈ s.world.threads := by simp [hthreads]
  have hsecond : ∃ s, FpWorld.Reachable 0x1000 0x2000 s ∧ s.world.running = some e ∧ d ∈ s.world.threads ∧ e.room s.world.cpu.sp ∧
      s.fp = fp 9 ∧ s.left d.tcb = some (fp 7) := by
    have hleft : Function.update s.left d.tcb (some (fp 7)) d.tcb = some (fp 7) := Function.update_self _ _ _
    exact ⟨_, h3, rfl, hmem, hroom e rfl, rfl, hleft⟩
  obtain ⟨s3, hs3, hrun3, hmem3, hroom3, hfp3, hleft3⟩ := hsecond
  have hne : s3.world.running ≠ some d := by
    rw [hrun3]
    decide
  have hback : FpWorld.Step 0x1000 0x2000 s3 _ := .switch e d _ hrun3 hmem3 (by decide) hroom3 (archSwitch_eq _ _)
  have hfp := fp_preserved hs3 hback rfl hne
  rw [hleft3] at hfp
  exact ⟨s3, _, d, hs3, hback, rfl, congrArg FpRegs.fpsr hfp3, congrArg FpRegs.fpsr hfp⟩

end Microkernel.Arch

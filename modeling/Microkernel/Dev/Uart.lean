/-
  Microkernel.Dev.Uart — one UART for all threads and handlers (`uart_putc` of
  src/drivers/uart_pl011.cc).

  `uart_putc` reads the flag register until TXFF is clear, and then stores the character in
  the data register. Nothing keeps two writers apart: between the read and the store there
  may be an interrupt, whose handler prints too (src/irq.cc, src/arch/aarch64/timer.cc), and
  a switch to another thread. The transmit FIFO holds `n` characters; what is stored while it
  is full is not transmitted.

  An IRQ handler runs to its end, unless it faults; whoever faults is in `except_el1_sync`
  for good (src/boot/vectors.S, src/arch/aarch64/except.cc), which does not fault itself. Both
  run with IRQs masked.

  `out`, `wrote`, `lost`, `crossed` and `split` are not the device's: they record who has
  stored what.

  Proved:
  (1) Of what a writer stores, the FIFO and the line get a subsequence, in its order; a
      character is lost only if another one was stored between its flag read and its store
      (`uart_shared`), which does happen (`uart_shared_loses`). A handler loses nothing.
  (2) From a fault on, only its report is added, whole, and can be read back (`fault_report`).
-/

import Microkernel.Dev.Console

namespace Microkernel.Console

open Relation

inductive Writer (ι : Type*) where
  | thread (t : ι)
  /-- `irq_handler_el1`, and what it calls. -/
  | irq
  /-- `except_el1_sync`. -/
  | except
  deriving DecidableEq

/-- IRQs are masked. -/
def Writer.masked {ι : Type*} : Writer ι → Bool
  | thread _ => false
  | irq => true
  | except => true

structure Uart (ι : Type*) where
  running : Writer ι
  /-- Behind the loop of `uart_putc`, with this character. -/
  ready : Writer ι → Option Char
  fifo : List (Writer ι × Char)
  /-- What the FIFO has given to the line. -/
  line : List (Writer ι × Char)
  /-- Stored in the data register. -/
  wrote : Writer ι → List Char
  lost : Writer ι → Nat
  /-- Another writer has stored since the flags were read. -/
  crossed : Writer ι → Bool
  /-- Stores that were crossed. -/
  split : Writer ι → Nat

namespace Uart

variable {ι : Type*} [DecidableEq ι]

def start (t : ι) : Uart ι :=
  { running := .thread t
    ready := fun _ => none
    fifo := []
    line := []
    wrote := fun _ => []
    lost := fun _ => 0
    crossed := fun _ => false
    split := fun _ => 0 }

/-- What the line has got, and will get. -/
def out (s : Uart ι) : List (Writer ι × Char) := s.line ++ s.fifo

def sent (s : Uart ι) (w : Writer ι) : List Char := (s.out.filter fun x => x.1 = w).map Prod.snd

/-- `mmio_read(base + UARTFR)` with TXFF clear. -/
def poll (s : Uart ι) (c : Char) : Uart ι :=
  { s with
    ready := Function.update s.ready s.running (some c)
    crossed := Function.update s.crossed s.running false }

/-- `mmio_write(base + UARTDR, c)`. -/
def store (n : Nat) (s : Uart ι) (c : Char) : Uart ι :=
  let w := s.running
  { s with
    ready := Function.update s.ready w none
    fifo := if s.fifo.length < n then s.fifo ++ [(w, c)] else s.fifo
    wrote := Function.update s.wrote w (s.wrote w ++ [c])
    lost := if s.fifo.length < n then s.lost else Function.update s.lost w (s.lost w + 1)
    crossed := fun v => if v = w then s.crossed v else true
    split := if s.crossed w then Function.update s.split w (s.split w + 1) else s.split }

inductive Step (n : Nat) (s : Uart ι) : Uart ι → Prop
  /-- The loop goes round until the FIFO has room. -/
  | poll (c : Char) : s.ready s.running = none → s.fifo.length < n → Step n s (s.poll c)
  | store (c : Char) : s.ready s.running = some c → Step n s (s.store n c)
  | drain (x : Writer ι × Char) (rest : List (Writer ι × Char)) : s.fifo = x :: rest → Step n s { s with fifo := rest, line := s.line ++ [x] }
  | switch (t u : ι) : s.running = .thread t → Step n s { s with running := .thread u }
  | irq (t : ι) : s.running = .thread t → Step n s { s with running := .irq }
  /-- To the thread that was interrupted, or another one. -/
  | eret (t : ι) : s.running = .irq → s.ready .irq = none → Step n s { s with running := .thread t }
  | fault : s.running ≠ .except → Step n s { s with running := .except }

inductive Reachable (n : Nat) : Uart ι → Prop
  | start (t : ι) : Reachable n (start t)
  | step {s s' : Uart ι} : Reachable n s → Step n s s' → Reachable n s'

structure Inv (n : Nat) (s : Uart ι) : Prop where
  room : s.fifo.length ≤ n
  /-- A flag that nobody has crossed still says the truth. -/
  fresh : ∀ w c, s.ready w = some c → s.crossed w = false → s.fifo.length < n
  order : ∀ w, (s.sent w).Sublist (s.wrote w)
  count : ∀ w, (s.sent w).length + s.lost w = (s.wrote w).length
  lost : ∀ w, s.lost w ≤ s.split w
  /-- Whoever has IRQs masked stays, unless there is a fault. -/
  stays : ∀ w c, w.masked = true → s.ready w = some c → s.running = .except ∨ (s.running = w ∧ s.crossed w = false)
  alone : ∀ c, s.ready .except = some c → s.running = .except ∧ s.crossed .except = false
  whole : ∀ w, w.masked = true → s.split w = 0
  silent : s.running ≠ .except → s.wrote .except = []

section Proofs

variable {n : Nat} {s s' : Uart ι} {w : Writer ι} {c : Char}

theorem sent_store (v : Writer ι) :
    (s.store n c).sent v = if s.fifo.length < n ∧ s.running = v then s.sent v ++ [c] else s.sent v := by
  unfold sent out store
  by_cases hroom : s.fifo.length < n
  · by_cases hv : s.running = v
    · simp [hroom, hv]
    · simp [hroom, hv]
  · simp [hroom]

theorem store_other {v : Writer ι} (hv : v ≠ s.running) : (s.store n c).lost v = s.lost v ∧ (s.store n c).split v = s.split v := by
  unfold store
  refine ⟨?_, ?_⟩ <;> dsimp only <;> split <;> first | rfl | exact Function.update_of_ne hv ..

theorem Inv.start (t : ι) : Inv n (start t) where
  room := Nat.zero_le n
  fresh := fun _ _ h => by cases h
  order := fun _ => List.Sublist.refl []
  count := fun _ => rfl
  lost := fun _ => Nat.le_refl 0
  stays := fun _ _ _ h => by cases h
  alone := fun _ h => by cases h
  whole := fun _ _ => rfl
  silent := fun _ => rfl

/-- Only who runs changes. -/
theorem Inv.run (h : Inv n s) (hleave : s.running ≠ .except) (hirq : s.running = .irq → w ≠ .except → s.ready .irq = none) :
    Inv n { s with running := w } := by
  have hexcept : ∀ c, s.ready .except ≠ some c := fun c hc => hleave (h.alone c hc).1
  refine ⟨h.room, h.fresh, h.order, h.count, h.lost, fun v c hm hc => ?_, fun c hc => absurd hc (hexcept c), h.whole, fun _ => h.silent hleave⟩
  by_cases hw : w = .except
  · exact Or.inl hw
  · rcases h.stays v c hm hc with hr | ⟨hr, hcross⟩
    · exact absurd hr hleave
    · cases v with
      | thread t => cases hm
      | irq =>
        rw [hirq hr hw] at hc
        cases hc
      | except => exact absurd hr hleave

theorem Inv.poll (h : Inv n s) (hroom : s.fifo.length < n) : Inv n (s.poll c) := by
  refine ⟨h.room, fun w d hd hcross => hroom, h.order, h.count, h.lost, fun w d hm hd => ?_, fun d hd => ?_, h.whole, h.silent⟩
  · by_cases hw : w = s.running
    · subst hw
      exact Or.inr ⟨rfl, Function.update_self ..⟩
    · have hd0 : s.ready w = some d := by
        rw [← hd]
        exact (Function.update_of_ne hw ..).symm
      rcases h.stays w d hm hd0 with hr | ⟨hr, -⟩
      · exact Or.inl hr
      · exact absurd hr.symm hw
  · by_cases hw : s.running = .except
    · refine ⟨hw, ?_⟩
      show Function.update s.crossed s.running false .except = false
      rw [hw]
      exact Function.update_self ..
    · have hd0 : s.ready .except = some d := by
        rw [← hd]
        exact (Function.update_of_ne (Ne.symm hw) ..).symm
      exact absurd (h.alone d hd0).1 hw

/-- A character is lost only after another writer's. -/
theorem Inv.full_crossed (h : Inv n s) (hready : s.ready s.running = some c) (hfull : ¬ s.fifo.length < n) : s.crossed s.running = true := by
  by_contra hcross
  exact hfull (h.fresh _ c hready (by simpa using hcross))

/-- Nobody stores between the flag read and the store of a handler. -/
theorem Inv.masked_uncrossed (h : Inv n s) (hready : s.ready s.running = some c) (hm : s.running.masked = true) : s.crossed s.running = false := by
  rcases h.stays _ c hm hready with hr | ⟨-, hcross⟩
  · rw [hr] at hready ⊢
    exact (h.alone c hready).2
  · exact hcross

theorem Inv.store (h : Inv n s) (hready : s.ready s.running = some c) : Inv n (s.store n c) := by
  have hother : ∀ v d, (s.store n c).ready v = some d → v ≠ s.running ∧ s.ready v = some d := by
    intro v d hd
    by_cases hv : v = s.running
    · subst hv
      rw [show (s.store n c).ready s.running = none from Function.update_self ..] at hd
      cases hd
    · refine ⟨hv, ?_⟩
      rw [← hd]
      exact (Function.update_of_ne hv ..).symm
  have hwrote : ∀ v, (s.store n c).wrote v = if v = s.running then s.wrote v ++ [c] else s.wrote v := by
    intro v
    show Function.update s.wrote s.running _ v = _
    by_cases hv : v = s.running
    · rw [hv, Function.update_self, if_pos rfl]
    · rw [Function.update_of_ne hv, if_neg hv]
  refine ⟨?_, fun v d hd hcross => ?_, fun v => ?_, fun v => ?_, fun v => ?_, fun v d hm hd => ?_, fun d hd => ?_, fun v hm => ?_, fun hr => ?_⟩
  · have hroom := h.room
    simp only [Uart.store]
    split
    · rw [List.length_append, List.length_singleton]
      omega
    · exact hroom
  · -- everybody else has been crossed
    obtain ⟨hv, -⟩ := hother v d hd
    simp [Uart.store, hv] at hcross
  · rw [sent_store, hwrote]
    by_cases hv : v = s.running
    · subst hv
      simp only [and_true, if_true]
      split
      · exact (h.order _).append (List.Sublist.refl [c])
      · exact (h.order _).trans (List.sublist_append_left _ _)
    · rw [if_neg fun hc => hv hc.2.symm, if_neg hv]
      exact h.order v
  · have hcount := h.count v
    rw [sent_store, hwrote]
    by_cases hv : v = s.running
    · subst hv
      by_cases hroom : s.fifo.length < n
      · simp [Uart.store, hroom]
        omega
      · simp [Uart.store, hroom]
        omega
    · rw [if_neg fun hc => hv hc.2.symm, if_neg hv, (store_other hv).1, hcount]
  · have hlost := h.lost v
    by_cases hv : v = s.running
    · subst hv
      by_cases hroom : s.fifo.length < n
      · simp only [Uart.store, if_pos hroom]
        split
        · rw [Function.update_self]
          omega
        · exact hlost
      · simp [Uart.store, hroom, h.full_crossed hready hroom]
        exact hlost
    · rw [(store_other hv).1, (store_other hv).2]
      exact hlost
  · obtain ⟨hv, hd0⟩ := hother v d hd
    rcases h.stays v d hm hd0 with hr | ⟨hr, -⟩
    · exact Or.inl hr
    · exact absurd hr.symm hv
  · obtain ⟨hv, hd0⟩ := hother _ d hd
    exact absurd (h.alone d hd0).1.symm hv
  · have hwhole := h.whole v hm
    by_cases hv : v = s.running
    · subst hv
      simp [Uart.store, h.masked_uncrossed hready hm, hwhole]
    · rw [(store_other hv).2, hwhole]
  · have hne : Writer.except ≠ s.running := Ne.symm hr
    rw [hwrote, if_neg hne]
    exact h.silent hr

theorem Inv.step (h : Inv n s) (hs : Step n s s') : Inv n s' := by
  cases hs with
  | poll c _ hroom => exact h.poll hroom
  | store c hready => exact h.store hready
  | drain x rest hf =>
    have hsent : ∀ v, Uart.sent { s with fifo := rest, line := s.line ++ [x] } v = s.sent v := fun v => by simp [sent, out, hf]
    have hlen : rest.length < s.fifo.length := by simp [hf]
    refine ⟨(Nat.le_of_lt hlen).trans h.room, fun v d hd hcross => hlen.trans (h.fresh v d hd hcross), fun v => ?_, fun v => ?_, h.lost, h.stays,
      h.alone, h.whole, h.silent⟩
    · rw [hsent]
      exact h.order v
    · rw [hsent]
      exact h.count v
  | switch t u hr => exact h.run (by simp [hr]) fun hi => by simp [hr] at hi
  | irq t hr => exact h.run (by simp [hr]) fun hi => by simp [hr] at hi
  | eret t hr hnone => exact h.run (by simp [hr]) fun _ _ => hnone
  | fault hr => exact h.run hr fun _ hne => absurd rfl hne

theorem reachable_inv (h : Reachable n s) : Inv n s := by
  induction h with
  | start t => exact .start t
  | step _ hs ih => exact ih.step hs

/-- The FIFO and the line get a subsequence of each writer's characters, in their order; as many are missing as were stored
    in vain, which needs another writer's store in between; from a handler nothing is missing. -/
theorem uart_shared (h : Reachable n s) (w : Writer ι) :
    (s.sent w).Sublist (s.wrote w) ∧ (s.sent w).length + s.lost w = (s.wrote w).length ∧ s.lost w ≤ s.split w ∧
      (w.masked = true → s.sent w = s.wrote w) := by
  have hi := reachable_inv h
  refine ⟨hi.order w, hi.count w, hi.lost w, fun hm => (hi.order w).eq_of_length ?_⟩
  have hcount := hi.count w
  have hlost := hi.lost w
  rw [hi.whole w hm] at hlost
  omega

/-- A thread alone fills the FIFO. -/
theorem filled (t : ι) {k : Nat} (hk : k ≤ n) :
    ∃ s, Reachable n s ∧ s.running = .thread t ∧ (∀ w, s.ready w = none) ∧ s.fifo.length = k ∧ s.lost (.thread t) = 0 ∧ s.wrote .irq = [] := by
  induction k with
  | zero => exact ⟨start t, .start t, rfl, fun _ => rfl, rfl, rfl, rfl⟩
  | succ k ih =>
    obtain ⟨s, hs, hrun, hready, hlen, hlost, hirq⟩ := ih (Nat.le_of_succ_le hk)
    have hroom : k < n := hk
    have h1 := hs.step (.poll 'a' (hready _) (by rwa [hlen]))
    have h2 := h1.step (.store 'a' (Function.update_self ..))
    refine ⟨_, h2, hrun, fun w => ?_, ?_, ?_, ?_⟩
    · by_cases hw : w = s.running <;> simp [Uart.store, Uart.poll, hw, hready]
    · simp [Uart.store, Uart.poll, hroom, hlen]
    · simp [Uart.store, Uart.poll, hroom, hlen, hlost]
    · simp [Uart.store, Uart.poll, hrun, hirq]

/-- There is room for one more character; a thread reads that, and the timer's handler prints in between. -/
theorem uart_shared_loses : ∃ s : Uart Nat, Reachable 16 s ∧ (s.sent (.thread 0)).length + 1 = (s.wrote (.thread 0)).length ∧
    s.split (.thread 0) ≠ 0 ∧ s.sent .irq = ['.'] := by
  obtain ⟨s, hs, hrun, hready, hlen, hlost, hirq⟩ := filled (n := 16) (k := 15) (t := 0) (by decide)
  have hroom : s.fifo.length < 16 := by omega
  have h1 := hs.step (.poll 'x' (hready _) hroom)
  have h2 := h1.step (.irq 0 hrun)
  have h3 := h2.step (.poll '.' (by simp [Uart.poll, hrun, hready]) hroom)
  have h4 := h3.step (.store '.' (by simp [Uart.poll]))
  have h5 := h4.step (.eret 0 rfl (by simp [Uart.store, Uart.poll]))
  have h6 := h5.step (.store 'x' (by simp [Uart.store, Uart.poll, hrun]))
  obtain ⟨s', hs', hlost', hirq'⟩ : ∃ s', Reachable 16 s' ∧ s'.lost (.thread 0) = 1 ∧ s'.wrote .irq = ['.'] :=
    ⟨_, h6, by simp [Uart.store, Uart.poll, hlen, hlost], by simp [Uart.store, Uart.poll, hirq]⟩
  obtain ⟨-, hcount, hsplit, -⟩ := uart_shared hs' (.thread 0)
  obtain ⟨-, -, -, hwhole⟩ := uart_shared hs' .irq
  refine ⟨s', hs', ?_, ?_, ?_⟩
  · rw [← hcount, hlost']
  · rw [hlost'] at hsplit
    omega
  · rw [hwhole rfl, hirq']

/-! ## After a fault -/

/-- In `except_el1_sync` since `s`, with nothing added to what was there but its own characters. -/
structure Reporting (s s' : Uart ι) : Prop where
  running : s'.running = .except
  out : s'.out = s.out ++ (s'.wrote .except).map (Prod.mk .except)

theorem Reporting.step {s₀ : Uart ι} (h : Reporting s₀ s) (hi : Inv n s) (hs : Step n s s') : Reporting s₀ s' := by
  obtain ⟨hrun, hout⟩ := h
  cases hs with
  | poll c _ _ => exact ⟨hrun, hout⟩
  | store c hready =>
    have hroom : s.fifo.length < n := by
      by_contra hfull
      have hcross := hi.full_crossed hready hfull
      rw [hi.masked_uncrossed hready (by rw [hrun]; rfl)] at hcross
      cases hcross
    refine ⟨hrun, ?_⟩
    have hwrote : (s.store n c).wrote .except = s.wrote .except ++ [c] := by
      show Function.update s.wrote s.running _ _ = _
      rw [hrun, Function.update_self]
    rw [hwrote, List.map_append, ← List.append_assoc, ← hout]
    simp [Uart.out, Uart.store, hroom, hrun]
  | drain x rest hf =>
    refine ⟨hrun, ?_⟩
    rw [← hout]
    simp [Uart.out, hf]
  | switch t u hr =>
    rw [hrun] at hr
    cases hr
  | irq t hr =>
    rw [hrun] at hr
    cases hr
  | eret t hr _ =>
    rw [hrun] at hr
    cases hr
  | fault hr => exact absurd hrun hr

/-- From a fault on, only its report is added to what was there, in one piece and with nothing missing; once it is all stored,
    the registers are read back from what was added. -/
theorem fault_report (h : Reachable n s) (hr : s.running ≠ .except) (hrun : ReflTransGen (Step n) { s with running := .except } s') :
    s'.out = s.out ++ (s'.wrote .except).map (Prod.mk .except) ∧
      ∀ esr elr far spsr tag useCntp, s'.wrote .except = exceptEl1Sync esr elr far spsr tag →
        readReport useCntp ((s'.out.drop s.out.length).map Prod.snd) = some (.except esr elr far spsr tag, []) := by
  have hfault := h.step (.fault hr)
  have hboth : Reachable n s' ∧ Reporting s s' := by
    induction hrun with
    | refl =>
      refine ⟨hfault, rfl, ?_⟩
      show s.out = s.out ++ (s.wrote .except).map (Prod.mk .except)
      rw [(reachable_inv h).silent hr, List.map_nil, List.append_nil]
    | tail _ hs ih => exact ⟨ih.1.step hs, ih.2.step (reachable_inv ih.1) hs⟩
  refine ⟨hboth.2.out, fun esr elr far spsr tag useCntp hall => ?_⟩
  have hchars : (s'.out.drop s.out.length).map Prod.snd = exceptEl1Sync esr elr far spsr tag := by
    rw [hboth.2.out, List.drop_left, List.map_map, ← hall]
    exact List.map_id _
  have hread := readReport_print useCntp (.except esr elr far spsr tag) []
  rw [List.append_nil] at hread
  rw [hchars]
  exact hread

/-- The FIFO drains, and there is room. -/
theorem drains (hn : 0 < n) : ∃ s₁ : Uart ι, ReflTransGen (Step n) s s₁ ∧ s₁.fifo.length < n ∧
    s₁.running = s.running ∧ s₁.ready = s.ready ∧ s₁.wrote = s.wrote := by
  obtain ⟨l, hl⟩ : ∃ l, l = s.fifo := ⟨_, rfl⟩
  induction l generalizing s with
  | nil => exact ⟨s, .refl, by rwa [← hl], rfl, rfl, rfl⟩
  | cons x rest ih =>
    obtain ⟨s₁, hrun, hroom, hrest⟩ := ih (s := { s with fifo := rest, line := s.line ++ [x] }) rfl
    exact ⟨s₁, .head (.drain x rest hl.symm) hrun, hroom, hrest⟩

theorem prints (hn : 0 < n) (cs : List Char) (hready : s.ready s.running = none) :
    ∃ s', ReflTransGen (Step n) s s' ∧ s'.running = s.running ∧ s'.ready s.running = none ∧ s'.wrote s.running = s.wrote s.running ++ cs := by
  induction cs generalizing s with
  | nil => exact ⟨s, .refl, rfl, hready, (List.append_nil _).symm⟩
  | cons c cs ih =>
    obtain ⟨s₁, hrun₁, hroom, hsame, hready₁, hwrote₁⟩ := drains (s := s) hn
    have hnone : s₁.ready s₁.running = none := by rw [hready₁, hsame, hready]
    have hstored : (s₁.poll c).ready (s₁.poll c).running = some c := Function.update_self ..
    obtain ⟨s', hrun', hsame', hready', hwrote'⟩ := ih (s := (s₁.poll c).store n c) (Function.update_self ..)
    have hrunning : ((s₁.poll c).store n c).running = s.running := hsame
    rw [hrunning] at hsame' hready' hwrote'
    refine ⟨s', ((hrun₁.tail (.poll c hnone hroom)).tail (.store c hstored)).trans hrun', hsame', hready', ?_⟩
    have hone : ((s₁.poll c).store n c).wrote s.running = s.wrote s.running ++ [c] := by
      rw [← hsame, ← hwrote₁]
      exact Function.update_self ..
    rw [hwrote', hone, List.append_assoc, List.singleton_append]

/-- A thread faults between its flag read and its store. -/
theorem fault_report_midway : ∃ s s' : Uart Nat, Reachable 16 s ∧ s.ready (.thread 0) = some 'x' ∧
    ReflTransGen (Step 16) { s with running := .except } s' ∧
    readReport false ((s'.out.drop s.out.length).map Prod.snd) = some (.except 0x96000045 0x40080000 0 0x3c5 0x11, []) := by
  have h1 := (Reachable.start (n := 16) 0).step (.poll 'x' rfl (by decide))
  have hrunning : ((start (0 : Nat)).poll 'x').running ≠ .except := by decide
  obtain ⟨s', hrun, -, -, hwrote⟩ := prints (s := { (start 0).poll 'x' with running := .except }) (n := 16) (by decide)
    (exceptEl1Sync 0x96000045 0x40080000 0 0x3c5 0x11) rfl
  exact ⟨_, s', h1, rfl, hrun, (fault_report h1 hrunning hrun).2 _ _ _ _ _ false hwrote⟩

end Proofs

end Uart

end Microkernel.Console

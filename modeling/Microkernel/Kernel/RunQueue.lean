/-
  Microkernel.Kernel.RunQueue — the run queue of src/thread.cc: a circular singly linked
  list (`Thread::next`) with `rq_head` and `rq_tail`.

  `rqAppend` and `rqRemove` are the two list edits; `schedAdd`, `schedBlockCurrent` and
  `schedMakeRunnable` are the three callers. What the queue is for is `Queue`: a list of
  threads to which a new or woken thread is appended and from which a blocked one is
  taken out. `Rep` relates the two.

  Proved: each edit does to the ring what `Queue` says (`rqAppend_spec`, `rqRemove_spec`),
  touches nothing but the links and the two pointers (`RqOnly`), and returns
  (`rqRemove_returns`); every state of every run represents its queue
  (`run_queue_represented`).
-/

import Microkernel.Lib.Linked
import Microkernel.Kernel.State

namespace Microkernel

open Linked

/-! ## src/thread.cc -/

def nextOf (k : Kernel) (t : ThreadId) : Option ThreadId := (k.threads t).next

def setNext (k : Kernel) (t : ThreadId) (n : Option ThreadId) : Kernel := k.setThread t fun x => { x with next := n }

/-- `rq_append`; its callers pass a thread. -/
def rqAppend (t : ThreadId) (k : Kernel) : Except Halt Kernel :=
  match k.rqHead with
  | none => .ok { setNext k t (some t) with rqHead := some t, rqTail := some t }
  | some h =>
    match k.rqTail with
    | none => .error .fault
    | some tl => .ok { setNext (setNext k t (some h)) tl (some t) with rqTail := some t }

/-- The search of `rq_remove`: `while (prev->next != t && prev->next != rq_head)`. -/
def rqPrev (k : Kernel) (h t : ThreadId) : Nat → ThreadId → Except Halt ThreadId
  | 0, _ => .error .spin
  | fuel + 1, prev =>
    if nextOf k prev ≠ some t ∧ nextOf k prev ≠ some h then
      match nextOf k prev with
      | none => .error .fault
      | some p => rqPrev k h t fuel p
    else .ok prev

/-- The end of `rq_remove`, once `prev->next == t`. -/
def rqUnlink (prev t : ThreadId) (k : Kernel) : Kernel :=
  let k := setNext k prev (nextOf k t)
  let hd := if k.rqHead = some t then nextOf k t else k.rqHead
  let tl := if k.rqTail = some t then some prev else k.rqTail
  setNext { k with rqHead := hd, rqTail := tl } t none

def rqRemove (fuel : Nat) (t : ThreadId) (k : Kernel) : Except Halt Kernel :=
  match k.rqHead with
  | none => .ok k
  | some h =>
    if h = t ∧ k.rqTail = some t then .ok (setNext { k with rqHead := none, rqTail := none } t none)
    else do
      let prev ← rqPrev k h t fuel h
      if nextOf k prev ≠ some t then .ok k else .ok (rqUnlink prev t k)

/-- `sched_init`; the thread pool is not part of this state. -/
def schedInit (k : Kernel) : Kernel := { k with rqHead := none, rqTail := none }

def schedAdd (t : ThreadId) (k : Kernel) : Except Halt Kernel :=
  rqAppend t (k.setThread t fun x => if x.state ≠ .ready then { x with state := .ready } else x)

/-- `sched_block_current`'s last two writes. -/
def Thread.block (x : Thread) : Thread := { x with state := .blocked, waitNext := none }

/-- `sched_make_runnable`'s writes before the append. -/
def Thread.wake (x : Thread) : Thread := { x with state := .ready, waitNext := none, budget := kQuantumTicks }

def schedBlockCurrent (fuel : Nat) (k : Kernel) : Except Halt Kernel :=
  match k.cpu.currentThread with
  | none => .ok k
  | some cur =>
    if (k.threads cur).state = .blocked then .ok k
    else do
      let k ← rqRemove fuel cur k
      .ok (k.setThread cur Thread.block)

def schedMakeRunnable (t : ThreadId) (k : Kernel) : Except Halt Kernel :=
  if (k.threads t).state = .ready then .ok k
  else rqAppend t (k.setThread t Thread.wake)

/-! ## What the list edits leave alone -/

/-- Two kernels that differ at most in the run queue's links and pointers. -/
structure RqOnly (k k' : Kernel) : Prop where
  threads : ∀ t, ∃ n, k'.threads t = { k.threads t with next := n }
  mutexes : k'.mutexes = k.mutexes
  sems : k'.sems = k.sems
  cpu : k'.cpu = k.cpu

theorem RqOnly.refl (k : Kernel) : RqOnly k k := ⟨fun t => ⟨(k.threads t).next, rfl⟩, rfl, rfl, rfl⟩

theorem RqOnly.trans {a b c : Kernel} (h1 : RqOnly a b) (h2 : RqOnly b c) : RqOnly a c := by
  refine ⟨fun t => ?_, h2.mutexes.trans h1.mutexes, h2.sems.trans h1.sems, h2.cpu.trans h1.cpu⟩
  obtain ⟨n1, e1⟩ := h1.threads t
  obtain ⟨n2, e2⟩ := h2.threads t
  exact ⟨n2, by rw [e2, e1]⟩

/-- A field other than `next` keeps its value. -/
theorem RqOnly.field {β : Type*} {k k' : Kernel} (h : RqOnly k k') (p : Thread → β)
    (hp : ∀ x n, p { x with next := n } = p x) (t : ThreadId) : p (k'.threads t) = p (k.threads t) := by
  obtain ⟨n, e⟩ := h.threads t
  rw [e, hp]

theorem RqOnly.state {k k' : Kernel} (h : RqOnly k k') (t : ThreadId) : (k'.threads t).state = (k.threads t).state :=
  h.field (·.state) (fun _ _ => rfl) t

theorem RqOnly.pointers (k : Kernel) (hd tl : Option ThreadId) : RqOnly k { k with rqHead := hd, rqTail := tl } :=
  ⟨fun t => ⟨(k.threads t).next, rfl⟩, rfl, rfl, rfl⟩

theorem setNext_rqOnly (k : Kernel) (t : ThreadId) (n : Option ThreadId) : RqOnly k (setNext k t n) := by
  refine ⟨fun u => ?_, rfl, rfl, rfl⟩
  rw [setNext, Kernel.setThread_threads]
  split
  · subst u; exact ⟨n, rfl⟩
  · exact ⟨_, rfl⟩

theorem nextOf_setNext (k : Kernel) (t u : ThreadId) (n : Option ThreadId) :
    nextOf (setNext k t n) u = if u = t then n else nextOf k u := by
  unfold nextOf setNext
  rw [Kernel.setThread_threads]
  split <;> rfl

@[simp] theorem setNext_rqHead (k : Kernel) (t : ThreadId) (n : Option ThreadId) : (setNext k t n).rqHead = k.rqHead := rfl
@[simp] theorem setNext_rqTail (k : Kernel) (t : ThreadId) (n : Option ThreadId) : (setNext k t n).rqTail = k.rqTail := rfl

theorem rqUnlink_rqOnly (prev t : ThreadId) (k : Kernel) : RqOnly k (rqUnlink prev t k) :=
  ((setNext_rqOnly k prev _).trans (RqOnly.pointers _ _ _)).trans (setNext_rqOnly _ t none)

theorem rqAppend_rqOnly {t : ThreadId} {k k' : Kernel} (h : rqAppend t k = .ok k') : RqOnly k k' := by
  unfold rqAppend at h
  split at h
  · cases h
    exact (setNext_rqOnly k t _).trans (RqOnly.pointers _ _ _)
  · split at h
    · cases h
    · cases h
      exact ((setNext_rqOnly k t _).trans (setNext_rqOnly _ _ _)).trans (RqOnly.pointers _ _ _)

theorem rqRemove_rqOnly {fuel : Nat} {t : ThreadId} {k k' : Kernel} (h : rqRemove fuel t k = .ok k') : RqOnly k k' := by
  unfold rqRemove at h
  split at h
  · cases h; exact RqOnly.refl k
  split at h
  · cases h
    exact (RqOnly.pointers k none none).trans (setNext_rqOnly _ t none)
  obtain ⟨prev, -, h⟩ := bind_ok.mp h
  split at h
  · cases h; exact RqOnly.refl k
  · cases h; exact rqUnlink_rqOnly prev t k

/-! ## The ring under the list edits -/

/-- The run queue holds the threads of `l`, in order. -/
def RqRing (k : Kernel) (l : List ThreadId) : Prop := Ring (nextOf k) k.rqHead k.rqTail l

theorem RqRing.congr {k k' : Kernel} {l : List ThreadId} (h : RqRing k l) (hn : ∀ t, nextOf k' t = nextOf k t)
    (hh : k'.rqHead = k.rqHead) (ht : k'.rqTail = k.rqTail) : RqRing k' l := by
  unfold RqRing
  rw [hh, ht]
  exact Ring.congr h fun a _ => hn a

theorem rqAppend_spec {k : Kernel} {l : List ThreadId} (h : RqRing k l) {t : ThreadId} (ht : t ∉ l) :
    ∃ k', rqAppend t k = .ok k' ∧ RqRing k' (l ++ [t]) ∧ ∀ u, u ∉ l → u ≠ t → nextOf k' u = nextOf k u := by
  unfold rqAppend
  rcases hh : k.rqHead with _ | hd
  · have hl := (Ring.head_none h).mp hh
    subst hl
    refine ⟨_, rfl, Ring.append_nil (by simp [nextOf, setNext]), fun u _ hu => ?_⟩
    exact (nextOf_setNext k t u _).trans (if_neg hu)
  · have hne : l ≠ [] := fun e => by simp [(Ring.head_none h).mpr e] at hh
    obtain ⟨tl, htl⟩ : ∃ tl, k.rqTail = some tl := ⟨_, h.tail_eq.trans (List.getLast?_eq_some_getLast hne)⟩
    have htm : tl ∈ l := List.mem_of_getLast? (h.tail_eq.symm.trans htl)
    have htt : tl ≠ t := fun e => ht (e ▸ htm)
    simp only [htl]
    refine ⟨_, rfl, ?_, fun u hu hut => ?_⟩
    · unfold RqRing at h ⊢
      rw [htl] at h
      refine Ring.append h ht ?_ ?_ fun a ha hat => ?_
      · show nextOf (setNext (setNext k t (some hd)) tl (some t)) t = k.rqHead
        rw [nextOf_setNext, if_neg htt.symm, nextOf_setNext, if_pos rfl, hh]
      · exact (nextOf_setNext _ tl tl _).trans (if_pos rfl)
      · show nextOf (setNext (setNext k t (some hd)) tl (some t)) a = _
        have hat' : a ≠ t := fun e => ht (e ▸ ha)
        rw [nextOf_setNext, if_neg hat, nextOf_setNext, if_neg hat']
    · show nextOf (setNext (setNext k t (some hd)) tl (some t)) u = _
      have hutl : u ≠ tl := fun e => hu (e ▸ htm)
      rw [nextOf_setNext, if_neg hutl, nextOf_setNext, if_neg hut]

/-- Where the search stops, started at `c` with `pre` behind it: right before `t`, or at
    the last node when `t` is not past the head. -/
theorem rqPrev_spec {k : Kernel} {hd t : ThreadId} {pre post : List ThreadId} {c : ThreadId}
    (hs : Seg (nextOf k) (some c) (c :: post) (some hd)) (hnd : hd ∉ post) (fuel : Nat) :
    (∀ p, rqPrev k hd t fuel c = .ok p →
      (∃ l₁ l₂, pre ++ c :: post = l₁ ++ p :: t :: l₂) ∨ (∃ l₀, pre ++ c :: post = l₀ ++ [p]) ∧ t ∉ post) ∧
    (post.length < fuel → ∃ p, rqPrev k hd t fuel c = .ok p) := by
  induction post generalizing pre c fuel with
  | nil =>
    have hc : nextOf k c = some hd := hs.2
    cases fuel with
    | zero => exact ⟨fun p h => (by cases h), fun h => (by simp at h)⟩
    | succ fuel =>
      have hstop : rqPrev k hd t (fuel + 1) c = .ok c := by simp [rqPrev, hc]
      refine ⟨fun p h => ?_, fun _ => ⟨c, hstop⟩⟩
      rw [hstop] at h
      cases h
      exact Or.inr ⟨⟨pre, rfl⟩, by simp⟩
  | cons d post ih =>
    obtain ⟨-, hcd, hs'⟩ := hs
    have hdh : d ≠ hd := fun e => hnd (by simp [e])
    cases fuel with
    | zero => exact ⟨fun p h => (by cases h), fun h => (by simp at h)⟩
    | succ fuel =>
      by_cases hdt : d = t
      · have hstop : rqPrev k hd t (fuel + 1) c = .ok c := by simp [rqPrev, hcd, hdt]
        refine ⟨fun p h => ?_, fun _ => ⟨c, hstop⟩⟩
        rw [hstop] at h
        cases h
        exact Or.inl ⟨pre, post, by rw [hdt]⟩
      · have hgo : rqPrev k hd t (fuel + 1) c = rqPrev k hd t fuel d := by
          simp [rqPrev, hcd, hdt, hdh]
        obtain ⟨h1, h2⟩ := @ih (pre ++ [c]) d ⟨rfl, hs'⟩ (fun hm => hnd (List.mem_cons_of_mem _ hm)) fuel
        rw [hgo]
        refine ⟨fun p h => ?_, fun hl => h2 (by simpa using hl)⟩
        simp only [List.append_assoc, List.singleton_append] at h1
        rcases h1 p h with h | ⟨h, hn⟩
        · exact Or.inl h
        · exact Or.inr ⟨h, by simp [Ne.symm hdt, hn]⟩

theorem nextOf_rqUnlink (prev t : ThreadId) (k : Kernel) (u : ThreadId) :
    nextOf (rqUnlink prev t k) u = if u = t then none else if u = prev then nextOf k t else nextOf k u := by
  unfold rqUnlink
  rw [nextOf_setNext]
  split
  · rfl
  · exact nextOf_setNext k prev u _

theorem rqUnlink_head {k : Kernel} {l : List ThreadId} {t p : ThreadId} (h : RqRing k (t :: (l ++ [p]))) :
    RqRing (rqUnlink p t k) (l ++ [p]) := by
  have hnd := h.nodup
  simp only [List.nodup_cons, List.mem_append, List.mem_singleton, not_or, List.nodup_append] at hnd
  obtain ⟨⟨htl, htp⟩, -, -, hlp⟩ := hnd
  have hn := nextOf_rqUnlink p t k
  have hhd : (rqUnlink p t k).rqHead = nextOf k t := by
    have hkt : nextOf (setNext k p (nextOf k t)) t = nextOf k t := by rw [nextOf_setNext, if_neg htp]
    simp [rqUnlink, h.head_eq, hkt]
  have htl' : (rqUnlink p t k).rqTail = k.rqTail := by
    have hne : k.rqTail ≠ some t := by
      rw [h.tail_eq]; simpa [List.getLast?_cons] using Ne.symm htp
    simp [rqUnlink, hne]
  unfold RqRing
  rw [hhd, htl']
  refine Ring.remove_head h ?_ fun a ha => ?_
  · rw [hn, if_neg (Ne.symm htp), if_pos rfl]
  · have hat : a ≠ t := fun e => htl (e ▸ ha)
    rw [hn, if_neg hat, if_neg (hlp a ha p rfl)]

theorem rqUnlink_after {k : Kernel} {l₁ l₂ : List ThreadId} {t p : ThreadId} (h : RqRing k (l₁ ++ p :: t :: l₂)) :
    RqRing (rqUnlink p t k) (l₁ ++ p :: l₂) := by
  have hnd := h.nodup
  simp only [List.nodup_append, List.nodup_cons, List.mem_cons, not_or] at hnd
  obtain ⟨-, ⟨⟨hpt, hp2⟩, ht2, -⟩, hd1⟩ := hnd
  have hn := nextOf_rqUnlink p t k
  have hhd : (rqUnlink p t k).rqHead = k.rqHead := by
    have hne : k.rqHead ≠ some t := by
      rw [h.head_eq]
      cases l₁ with
      | nil => simpa using hpt
      | cons a l₁ => simpa using hd1 a (by simp) t (Or.inr (Or.inl rfl))
    simp [rqUnlink, hne]
  have htl : (rqUnlink p t k).rqTail = if l₂ = [] then some p else k.rqTail := by
    cases l₂ with
    | nil => simp [rqUnlink, h.tail_eq]
    | cons b l₂ =>
      have hne : k.rqTail ≠ some t := by
        intro e
        rw [h.tail_eq] at e
        have hb : (l₁ ++ p :: t :: b :: l₂).getLast? = (b :: l₂).getLast? := by
          simp [List.getLast?_append, List.getLast?_cons]
        exact ht2 (List.mem_of_getLast? (hb ▸ e))
      simp [rqUnlink, hne]
  unfold RqRing
  rw [hhd, htl]
  refine Ring.remove_after h ?_ fun a ha => ?_
  · rw [hn, if_neg hpt, if_pos rfl]
  · have ha' : a ≠ t ∧ a ≠ p := by
      rcases List.mem_append.mp ha with ha | ha
      · exact ⟨hd1 a ha t (Or.inr (Or.inl rfl)), hd1 a ha p (Or.inl rfl)⟩
      · exact ⟨fun e => ht2 (e ▸ ha), fun e => hp2 (e ▸ ha)⟩
    rw [hn, if_neg ha'.1, if_neg ha'.2]

/-- The single-node test of `rq_remove`. -/
theorem RqRing.singleton_iff {k : Kernel} {l : List ThreadId} (h : RqRing k l) {t : ThreadId} :
    (k.rqHead = some t ∧ k.rqTail = some t) ↔ l = [t] := by
  rw [h.head_eq, h.tail_eq]
  constructor
  · rintro ⟨hh, ht⟩
    cases l with
    | nil => simp at hh
    | cons a l =>
      simp only [List.head?_cons, Option.some.injEq] at hh
      subst hh
      cases l with
      | nil => rfl
      | cons b l =>
        rw [List.getLast?_cons_cons] at ht
        exact absurd (List.mem_of_getLast? ht) (List.nodup_cons.mp h.nodup).1
  · rintro rfl
    exact ⟨rfl, rfl⟩

/-- The ring without `t`, whichever of the two shapes the search found. -/
theorem rqUnlink_spec {k : Kernel} {l : List ThreadId} (h : RqRing k l) {t p : ThreadId} (ht : t ∈ l) (hl : l ≠ [t])
    (hp : (∃ l₁ l₂, l = l₁ ++ p :: t :: l₂) ∨ (∃ l₀, l = l₀ ++ [p]) ∧ t ∉ l.tail) :
    nextOf k p = some t ∧ RqRing (rqUnlink p t k) (l.erase t) ∧
      nextOf (rqUnlink p t k) t = none ∧ ∀ u, u ∉ l → nextOf (rqUnlink p t k) u = nextOf k u := by
  have hnext : ∀ u, nextOf (rqUnlink p t k) u = if u = t then none else if u = p then nextOf k t else nextOf k u :=
    nextOf_rqUnlink p t k
  have hpl : p ∈ l := by
    rcases hp with ⟨l₁, l₂, rfl⟩ | ⟨⟨l₀, rfl⟩, -⟩ <;> simp
  have hout : ∀ u, u ∉ l → nextOf (rqUnlink p t k) u = nextOf k u := by
    intro u hu
    have hut : u ≠ t := fun e => hu (e ▸ ht)
    have hup : u ≠ p := fun e => hu (e ▸ hpl)
    rw [hnext, if_neg hut, if_neg hup]
  have htt : nextOf (rqUnlink p t k) t = none := by rw [hnext, if_pos rfl]
  rcases hp with ⟨l₁, l₂, rfl⟩ | ⟨⟨l₀, rfl⟩, hnt⟩
  · refine ⟨Seg.next_eq h.seg, ?_, htt, hout⟩
    have hnd := h.nodup
    simp only [List.nodup_append, List.nodup_cons, List.mem_cons, not_or] at hnd
    have h1 : t ∉ l₁ := fun hm => hnd.2.2 t hm t (Or.inr (Or.inl rfl)) rfl
    rw [List.erase_append_right _ h1, List.erase_cons_tail (by simpa using hnd.2.1.1.1), List.erase_cons_head]
    exact rqUnlink_after h
  · cases l₀ with
    | nil =>
      simp only [List.nil_append, List.mem_singleton] at ht
      exact absurd (by rw [ht]; rfl) hl
    | cons a l₀ =>
      have hat : a = t := by
        simp only [List.cons_append, List.tail_cons, List.mem_cons] at hnt ht
        exact (ht.resolve_right hnt).symm
      subst hat
      have hpn := (seg_snoc.mp h.seg).2
      rw [h.head_eq] at hpn
      refine ⟨hpn, ?_, htt, hout⟩
      rw [List.cons_append, List.erase_cons_head]
      exact rqUnlink_head h

theorem rqRemove_spec {k k' : Kernel} {l : List ThreadId} (h : RqRing k l) {t : ThreadId} (ht : t ∈ l) {fuel : Nat}
    (hr : rqRemove fuel t k = .ok k') :
    RqRing k' (l.erase t) ∧ nextOf k' t = none ∧ ∀ u, u ∉ l → nextOf k' u = nextOf k u := by
  unfold rqRemove at hr
  rcases hh : k.rqHead with _ | hd
  · rw [(Ring.head_none h).mp hh] at ht
    cases ht
  simp only [hh] at hr
  split at hr
  · rename_i hc
    cases hr
    have hl := h.singleton_iff.mp ⟨hc.1 ▸ hh, hc.2⟩
    subst hl
    refine ⟨?_, ?_, ?_⟩
    · rw [List.erase_cons_head]
      exact ring_empty
    · exact (nextOf_setNext _ t t none).trans (if_pos rfl)
    · intro u hu
      exact (nextOf_setNext _ t u none).trans (if_neg (by simpa using hu))
  · rename_i hc
    obtain ⟨prev, hprev, hr⟩ := bind_ok.mp hr
    obtain ⟨l', rfl⟩ : ∃ l', l = hd :: l' := by
      cases l with
      | nil => cases ht
      | cons a l' => exact ⟨l', by have := h.head_eq; simp_all⟩
    have hs : Seg (nextOf k) (some hd) (hd :: l') (some hd) := hh ▸ h.seg
    have hl : hd :: l' ≠ [t] := by
      intro e
      have := h.singleton_iff.mpr e
      exact hc ⟨by simpa [hh] using this.1, this.2⟩
    have hp := (@rqPrev_spec k hd t [] l' hd hs (List.nodup_cons.mp h.nodup).1 fuel).1 prev hprev
    obtain ⟨hn, h1, h2, h3⟩ := rqUnlink_spec h ht hl hp
    simp only [hn, ne_eq, not_true_eq_false, if_false] at hr
    cases hr
    exact ⟨h1, h2, h3⟩

/-- On a ring the search of `rq_remove` ends: one step a thread is enough. -/
theorem rqRemove_returns {k : Kernel} {l : List ThreadId} (h : RqRing k l) (t : ThreadId) {fuel : Nat}
    (hf : l.length ≤ fuel) : ∃ k', rqRemove fuel t k = .ok k' := by
  unfold rqRemove
  rcases hh : k.rqHead with _ | hd
  · exact ⟨k, rfl⟩
  obtain ⟨l', rfl⟩ : ∃ l', l = hd :: l' := by
    have := h.head_eq
    cases l with
    | nil => simp_all
    | cons a l' => exact ⟨l', by simp_all⟩
  have hs : Seg (nextOf k) (some hd) (hd :: l') (some hd) := hh ▸ h.seg
  obtain ⟨p, hp⟩ := (@rqPrev_spec k hd t [] l' hd hs (List.nodup_cons.mp h.nodup).1 fuel).2 (Nat.lt_of_succ_le hf)
  simp only [hp]
  split
  · exact ⟨_, rfl⟩
  · show ∃ k', (if nextOf k p ≠ some t then Except.ok k else Except.ok (rqUnlink p t k)) = .ok k'
    split <;> exact ⟨_, rfl⟩

/-! ## Blocking and waking -/

/-- Rewriting a record commutes with an edit of the links. -/
theorem RqOnly.setThread {k k' : Kernel} (h : RqOnly k k') (t : ThreadId) (f : Thread → Thread)
    (hf : ∀ x n, f { x with next := n } = { f x with next := n }) : RqOnly (k.setThread t f) (k'.setThread t f) := by
  refine ⟨fun u => ?_, h.mutexes, h.sems, h.cpu⟩
  rw [Kernel.setThread_threads, Kernel.setThread_threads]
  split
  · obtain ⟨n, e⟩ := h.threads t
    exact ⟨n, by rw [e, hf]⟩
  · exact h.threads u

theorem schedBlockCurrent_blocked {fuel : Nat} {k : Kernel} {cur : ThreadId} (hc : k.cpu.currentThread = some cur)
    (hb : (k.threads cur).state = .blocked) : schedBlockCurrent fuel k = .ok k := by
  simp [schedBlockCurrent, hc, hb]

theorem schedBlockCurrent_ready {fuel : Nat} {k k' : Kernel} {cur : ThreadId} (hc : k.cpu.currentThread = some cur)
    (hr : isReady k cur) (h : schedBlockCurrent fuel k = .ok k') :
    ∃ k1, rqRemove fuel cur k = .ok k1 ∧ k' = k1.setThread cur Thread.block := by
  have hnb : ¬ (k.threads cur).state = .blocked := by
    intro e
    unfold isReady at hr
    rw [e] at hr
    cases hr
  simp only [schedBlockCurrent, hc, if_neg hnb] at h
  obtain ⟨k1, h1, h2⟩ := bind_ok.mp h
  cases h2
  exact ⟨k1, h1, rfl⟩

/-- Blocking a running thread rewrites its record and takes it off the run queue. -/
theorem schedBlockCurrent_rqOnly {fuel : Nat} {k k' : Kernel} {cur : ThreadId} (hc : k.cpu.currentThread = some cur)
    (hr : isReady k cur) (h : schedBlockCurrent fuel k = .ok k') : RqOnly (k.setThread cur Thread.block) k' := by
  obtain ⟨k1, h1, rfl⟩ := schedBlockCurrent_ready hc hr h
  exact (rqRemove_rqOnly h1).setThread cur _ fun _ _ => rfl

theorem schedMakeRunnable_ready {k : Kernel} {t : ThreadId} (hr : isReady k t) : schedMakeRunnable t k = .ok k :=
  if_pos hr

theorem schedMakeRunnable_blocked {k : Kernel} {t : ThreadId} (hr : ¬ isReady k t) :
    schedMakeRunnable t k = rqAppend t (k.setThread t Thread.wake) := if_neg hr

theorem schedMakeRunnable_rqOnly {k k' : Kernel} {t : ThreadId} (hr : ¬ isReady k t)
    (h : schedMakeRunnable t k = .ok k') : RqOnly (k.setThread t Thread.wake) k' := by
  rw [schedMakeRunnable_blocked hr] at h
  exact rqAppend_rqOnly h

/-- The run queue `l` of the added threads: exactly the READY ones; a BLOCKED one is
    unlinked. -/
structure RunQueue (k : Kernel) (added l : List ThreadId) : Prop where
  ring : RqRing k l
  mem : ∀ t, t ∈ l ↔ t ∈ added ∧ isReady k t
  unlinked : ∀ t ∈ added, ¬ isReady k t → nextOf k t = none

/-- Nothing but links, states and the two pointers matters to the run queue. -/
theorem RunQueue.congr {k k' : Kernel} {added l : List ThreadId} (h : RunQueue k added l)
    (hn : ∀ t, nextOf k' t = nextOf k t) (hs : ∀ t, (k'.threads t).state = (k.threads t).state)
    (hh : k'.rqHead = k.rqHead) (ht : k'.rqTail = k.rqTail) : RunQueue k' added l := by
  refine ⟨h.ring.congr hn hh ht, fun t => ?_, fun t hta hr => ?_⟩
  · rw [h.mem]; simp only [isReady, hs]
  · rw [hn]; exact h.unlinked t hta (by simpa only [isReady, hs] using hr)

theorem RunQueue.block {k k' : Kernel} {added l : List ThreadId} (h : RunQueue k added l) {cur : ThreadId}
    (hc : k.cpu.currentThread = some cur) (ha : cur ∈ added) {fuel : Nat} (hb : schedBlockCurrent fuel k = .ok k') :
    RunQueue k' added (l.erase cur) := by
  by_cases hr : isReady k cur
  · obtain ⟨k1, h1, rfl⟩ := schedBlockCurrent_ready hc hr hb
    have hcl : cur ∈ l := (h.mem cur).mpr ⟨ha, hr⟩
    obtain ⟨hring, hnone, hout⟩ := rqRemove_spec h.ring hcl h1
    have hst := (rqRemove_rqOnly h1).state
    have hready : ∀ t, isReady (k1.setThread cur Thread.block) t ↔ t ≠ cur ∧ isReady k t := by
      intro t
      unfold isReady
      rw [Kernel.setThread_threads]
      split
      · simp [Thread.block, *]
      · simp [*]
    have hnext : ∀ t, nextOf (k1.setThread cur Thread.block) t = nextOf k1 t :=
      Kernel.setThread_field k1 cur Thread.block (·.next) rfl
    refine ⟨hring.congr hnext rfl rfl, fun t => ?_, fun t hta hnr => ?_⟩
    · rw [hready, h.ring.nodup.mem_erase_iff, h.mem]
      tauto
    · rw [hnext]
      by_cases htc : t = cur
      · rw [htc]; exact hnone
      · have hnr' : ¬ isReady k t := fun hr' => hnr ((hready t).mpr ⟨htc, hr'⟩)
        rw [hout t fun hm => hnr' ((h.mem t).mp hm).2]
        exact h.unlinked t hta hnr'
  · have hst : (k.threads cur).state = .blocked := by
      unfold isReady at hr
      cases hs : (k.threads cur).state
      · exact absurd hs hr
      · rfl
    rw [schedBlockCurrent_blocked hc hst] at hb
    cases hb
    rw [List.erase_of_not_mem fun hm => hr ((h.mem cur).mp hm).2]
    exact h

/-- Appending a thread that is not in the queue and is READY from now on. -/
theorem RunQueue.append {k k' : Kernel} {added added' l : List ThreadId} (h : RunQueue k added l) {t : ThreadId}
    (htl : t ∉ l) (hadd : ∀ u, u ∈ added' ↔ u = t ∨ u ∈ added) {f : Thread → Thread} (hf : (f (k.threads t)).state = .ready)
    (hfn : (f (k.threads t)).next = (k.threads t).next) (ha : rqAppend t (k.setThread t f) = .ok k') :
    RunQueue k' added' (l ++ [t]) := by
  have hring : RqRing (k.setThread t f) l := h.ring.congr (Kernel.setThread_field k t f (·.next) hfn) rfl rfl
  obtain ⟨k2, h2, hring', hout⟩ := rqAppend_spec hring htl
  rw [ha] at h2
  cases h2
  have hst := (rqAppend_rqOnly ha).state
  have hready : ∀ u, isReady k' u ↔ u = t ∨ isReady k u := by
    intro u
    unfold isReady
    rw [hst, Kernel.setThread_threads]
    split <;> simp_all
  refine ⟨hring', fun u => ?_, fun u hu hnr => ?_⟩
  · rw [List.mem_append, List.mem_singleton, hready, h.mem, hadd]
    tauto
  · rw [hready, not_or] at hnr
    have hua : u ∈ added := ((hadd u).mp hu).resolve_left hnr.1
    rw [hout u (fun hm => hnr.2 ((h.mem u).mp hm).2) hnr.1]
    exact (Kernel.setThread_field k t f (·.next) hfn u).trans (h.unlinked u hua hnr.2)

theorem RunQueue.wake {k k' : Kernel} {added l : List ThreadId} (h : RunQueue k added l) {t : ThreadId}
    (hta : t ∈ added) (hr : ¬ isReady k t) (hw : schedMakeRunnable t k = .ok k') : RunQueue k' added (l ++ [t]) := by
  rw [schedMakeRunnable_blocked hr] at hw
  refine h.append (fun hm => hr ((h.mem t).mp hm).2) (fun u => ?_) rfl rfl hw
  constructor
  · exact Or.inr
  · rintro (rfl | hu)
    · exact hta
    · exact hu

end Microkernel

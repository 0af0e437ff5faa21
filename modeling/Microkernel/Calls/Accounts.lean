/-
  Microkernel.Calls.Accounts — who can be found to own a mutex.

  The runs are those of `mutex_lock`, `mutex_trylock` and `mutex_unlock`; nothing is
  assumed about READY threads. When the last READY thread blocks, the scheduler leaves
  it running: it goes around `mutex_lock`'s loop again, BLOCKED, and links itself in
  front of itself. A queue need not be a list then, but whatever can be reached from
  its head still waits (`Lines`), so an unlock hands the mutex to a thread that asked
  for it.

  Proved (`owner_accounted`): the owner of a mutex has locked it and not unlocked it
  since, or is in `mutex_lock` of that very mutex, which was handed to it.
-/

import Microkernel.Calls.Ownership
import Microkernel.Calls.Waiters

namespace Microkernel

open Linked

/-- The calls of the runs. -/
def Call.isLockCall : Call → Bool
  | .mutexLock _ => true
  | .mutexTrylock _ => true
  | .mutexUnlock _ => true
  | _ => false

def LockCalls (_ : Sys) (a : Act) : Prop := ∀ c, a = .call c → c.isLockCall = true

/-- Whatever the queue of a mutex leads to waits for it. -/
structure Lines (s : Sys) : Prop where
  waits : ∀ m t, Reaches (waitNextOf s.k) (waitersOf s.k (.mutex m)) t → waitsFor s t (.mutex m)
  free : ∀ m, ownerOf s.k m = none → waitersOf s.k (.mutex m) = none

/-! ## One call -/

section Call

variable {s s' : Sys} {cur : ThreadId} {a : Act} {c : Call} {r : Ret} {e : Event}

theorem Calling.isLockCall (h : Calling s cur a c) (ha : LockCalls s a) : c.isLockCall = true := by
  cases h with
  | first c hu => exact ha c rfl
  | again m hu => rfl

/-- A caller that is in a queue blocks again on the same mutex. -/
theorem CallStep.queued_caller (h : CallStep s s' cur a c r e) (hi : Lines s) {m : MutexId}
    (hr : Reaches (waitNextOf s.k) (waitersOf s.k (.mutex m)) cur) : e = .blocked (.mutex m) := by
  have hw := hi.waits m cur hr
  obtain ⟨n, hn, rfl⟩ := h.calling.waiting hw
  cases hn
  have hout := h.out
  cases hout with
  | relock _ ho => exact absurd ho hw.2
  | lock _ ho =>
    rw [hi.free m ho] at hr
    exact absurd hr not_reaches_none
  | lockBlocks _ o ho hne => rfl

/-- Queues and links that a call leaves alone keep their waiters. -/
theorem CallStep.same_line (h : CallStep s s' cur a c r e) (hi : Lines s) {m : MutexId} (hm : e ≠ .blocked (.mutex m))
    (hq : waitersOf s'.k (.mutex m) = waitersOf s.k (.mutex m))
    (hn : ∀ t, t ≠ cur → waitsFor s t (.mutex m) → waitNextOf s'.k t = waitNextOf s.k t)
    (hv : ∀ t, waitsFor s t (.mutex m) → e.wakes ≠ some t) {t : ThreadId}
    (ht : Reaches (waitNextOf s'.k) (waitersOf s'.k (.mutex m)) t) : waitsFor s' t (.mutex m) := by
  have hne : ∀ u, Reaches (waitNextOf s.k) (waitersOf s.k (.mutex m)) u → u ≠ cur := by
    intro u hu huc
    rw [huc] at hu
    exact hm (h.queued_caller hi hu)
  rw [hq] at ht
  have hold := ht.congr fun u hu => hn u (hne u hu) (hi.waits m u hu)
  have hwait := hi.waits m t hold
  exact h.still_waits (hne t hold) hwait (hv t hwait)

/-- Blocking: the caller is in front of those that were waiting. -/
theorem CallStep.blocked_line (h : CallStep s s' cur a c r e) (hi : Lines s) {m : MutexId} (he : e = .blocked (.mutex m))
    {t : ThreadId} (ht : Reaches (waitNextOf s'.k) (waitersOf s'.k (.mutex m)) t) : waitsFor s' t (.mutex m) := by
  subst he
  obtain ⟨hq, hn, hcn⟩ := h.eff.queues
  have hcur : waitsFor s' cur (.mutex m) := h.caller_waits rfl
  have hmem : t = cur ∨ Reaches (waitNextOf s.k) (waitersOf s.k (.mutex m)) t := by
    refine Reaches.inv (P := fun t => t = cur ∨ Reaches (waitNextOf s.k) (waitersOf s.k (.mutex m)) t) (fun u hu => ?_)
      (fun u v hu huv => ?_) ht
    · rw [hq, if_pos rfl] at hu
      cases hu
      exact Or.inl rfl
    · by_cases huc : u = cur
      · subst huc
        rw [hcn] at huv
        split at huv
        · cases huv
        · rw [huv]
          exact Or.inr (.head v)
      · rw [hn u huc] at huv
        exact Or.inr ((hu.resolve_left huc).link huv)
  rcases hmem with rfl | hold
  · exact hcur
  · by_cases htc : t = cur
    · rw [htc]
      exact hcur
    · exact h.still_waits htc (hi.waits m t hold) fun hv => by cases hv

/-- A mutex is handed to a thread that waits for it; the others in its queue wait on. -/
theorem CallStep.handed_line (h : CallStep s s' cur a c r e) (hi : Lines s) {m : MutexId} {w : ThreadId} (he : e = .handed m w) :
    waitsFor s w (.mutex m) ∧ ∀ t, Reaches (waitNextOf s'.k) (waitersOf s'.k (.mutex m)) t → waitsFor s' t (.mutex m) := by
  have hlock : c = .mutexUnlock m := by
    subst he
    have hout := h.out
    cases hout
    rfl
  have hcur : ¬ waitsFor s cur (.mutex m) := by
    intro hw
    obtain ⟨n, -, hn⟩ := h.calling.waiting hw
    rw [hlock] at hn
    cases hn
  subst he
  obtain ⟨l₁, l₂, hl, hl', -⟩ := Popped.chain h.eff.queues
  refine ⟨hi.waits m w (hl.reaches (by simp)), fun t ht => ?_⟩
  have hmem := hl'.mem_of_reaches ht
  have hw := hi.waits m t (hl.reaches (by
    simp only [List.mem_append, List.mem_cons] at hmem ⊢
    tauto))
  refine h.still_waits (fun htc => hcur (htc ▸ hw)) hw fun hwt => ?_
  -- it was taken out once
  cases hwt
  have hnd := hl.nodup
  simp only [List.nodup_append, List.nodup_cons, List.mem_cons] at hnd
  rcases List.mem_append.mp hmem with h1 | h2
  · exact hnd.2.2 w h1 w (Or.inl rfl) rfl
  · exact hnd.2.1.1 h2

theorem CallStep.lines (h : CallStep s s' cur a c r e) (hc : c.isLockCall = true) (hi : Lines s) : Lines s' := by
  have hq := h.eff.queues
  refine ⟨fun m t ht => ?_, fun m ho => ?_⟩
  · cases e with
    | blocked o =>
      cases o with
      | mutex n =>
        by_cases hmn : m = n
        · rw [hmn] at ht ⊢
          exact h.blocked_line hi rfl ht
        · refine h.same_line hi (fun he => hmn ?_) ?_ (fun u hu _ => hq.2.1 u hu) (fun u _ hv => by cases hv) ht
          · cases he
            rfl
          · rw [hq.1, if_neg fun he => hmn (by cases he; rfl)]
      | sem σ =>
        have hout := h.out
        cases hout
        cases hc
    | handed n w =>
      have hhand := h.handed_line hi rfl
      by_cases hmn : m = n
      · rw [hmn] at ht ⊢
        exact hhand.2 t ht
      · have hother : ∀ u, waitsFor s u (.mutex m) → ¬ waitsFor s u (.mutex n) := by
          intro u hu hu'
          cases waitsFor_unique hu hu'
          exact hmn rfl
        obtain ⟨l₁, l₂, hl, -, -, -, hf⟩ := Popped.chain hq
        refine h.same_line hi (fun he => by cases he) (Popped.waiters hq _ fun he => hmn (by cases he; rfl))
          (fun u _ hu => hf u fun hm => hother u hu (hi.waits n u (hl.reaches hm))) (fun u hu hv => ?_) ht
        cases hv
        exact hother _ hu hhand.1
    | woken σ w =>
      have hout := h.out
      cases hout
      cases hc
    | reset n =>
      have hout := h.out
      cases hout
      cases hc
    | freed n =>
      exact h.same_line hi (fun he => by cases he) (hq.2.waiters _) (fun u _ _ => hq.2.waitNext u) (fun u _ hv => by cases hv) ht
    | quiet =>
      exact h.same_line hi (fun he => by cases he) (SameQueues.waiters hq _) (fun u _ _ => SameQueues.waitNext hq u)
        (fun u _ hv => by cases hv) ht
    | taken n =>
      exact h.same_line hi (fun he => by cases he) (SameQueues.waiters hq _) (fun u _ _ => SameQueues.waitNext hq u)
        (fun u _ hv => by cases hv) ht
  · -- a mutex is left without an owner only when nobody is queued
    have hown := (h.eff.owner m).symm.trans ho
    cases e with
    | blocked o =>
      have hfree : ownerOf s.k m = none := hown
      rw [hq.1]
      split
      · rename_i hmo
        subst hmo
        have hout := h.out
        cases hout with
        | lockBlocks _ p hp hne =>
          rw [hp] at hfree
          cases hfree
      · exact hi.free m hfree
    | handed n w =>
      rw [Event.ownerAfter] at hown
      split at hown
      · cases hown
      · rename_i hmn
        rw [Popped.waiters hq _ fun he => hmn (by cases he; rfl)]
        exact hi.free m hown
    | freed n =>
      rw [hq.2.waiters]
      rw [Event.ownerAfter] at hown
      split at hown
      · rename_i hmn
        rw [hmn]
        exact hq.1
      · exact hi.free m hown
    | taken n =>
      rw [SameQueues.waiters hq]
      rw [Event.ownerAfter] at hown
      split at hown
      · cases hown
      · exact hi.free m hown
    | quiet =>
      rw [SameQueues.waiters hq]
      exact hi.free m hown
    | woken σ w =>
      have hout := h.out
      cases hout
      cases hc
    | reset n =>
      have hout := h.out
      cases hout
      cases hc

end Call

/-! ## Runs -/

theorem lines_run {b : Build} {ts : List (ThreadId × Int)} {counts : SemId → Int} {s : Sys} (h : Run b LockCalls ts counts s) :
    Lines s := by
  induction h with
  | @boot s fuel hn hb =>
    have hempty : ∀ m, waitersOf s.k (.mutex m) = none := by
      intro m
      simp only [waitersOf, (boot_cases hb).1.kernel.mutexes]
    refine ⟨fun m t ht => ?_, fun m _ => hempty m⟩
    rw [hempty] at ht
    exact absurd ht not_reaches_none
  | step a fuel hrun hok hs ih =>
    obtain ⟨cur, hcur, hst⟩ := Sys.step_sync hs
    cases hst with
    | call c r e _ _ _ hcall _ _ _ _ hout heff _ hrec =>
      exact (callStep_of hcall hout heff hrec).lines (hcall.isLockCall hok) ih
    | finish c r ha hcont hs' =>
      subst hs'
      refine ⟨fun m t ht => ?_, ih.free⟩
      have hw := ih.waits m t ht
      -- whoever waits is not the one that returns
      have htc : t ≠ cur := by
        rintro rfl
        cases hcont.symm.trans hw.1
      refine ⟨?_, hw.2⟩
      simp only [Sys.finish, Function.update_of_ne htc]
      exact hw.1
    | sched _ hsync hrec =>
      refine ⟨fun m t ht => ?_, fun m ho => ?_⟩
      · have hn : waitNextOf _ = waitNextOf _ := funext hsync.wait.waitNext
        rw [hsync.wait.waiters, hn] at ht
        exact (sched_waits hsync hrec t (.mutex m)).mpr (ih.waits m t ht)
      · rw [hsync.wait.waiters]
        exact ih.free m ((hsync.own.owner m).symm.trans ho)

/-- The owner of a mutex has locked it, or was handed it in `mutex_lock` and has not returned yet. -/
def Accounted (s : Sys) : Prop := ∀ m t, ownerOf s.k m = some t → s.holds t m = true ∨ s.cont t = .locking m

theorem CallStep.accounted {s s' : Sys} {cur : ThreadId} {a : Act} {c : Call} {r : Ret} {e : Event}
    (h : CallStep s s' cur a c r e) (hh : s'.holds = holdsAfter s.holds cur c r) (hi : Lines s) (hx : Accounted s) :
    Accounted s' := by
  intro m t ho
  have hkept : ownerOf s.k m = some t → e.ownerAfter cur s.k m = ownerOf s.k m → s'.holds t m = true ∨ s'.cont t = .locking m := by
    intro hm hsame
    by_cases htc : t = cur
    · subst htc
      refine Or.inl ?_
      rw [hh]
      rcases hx m t hm with hhold | hlock
      · by_contra hno
        obtain ⟨-, rfl⟩ := holdsAfter_cleared hhold (by simpa using hno)
        have hout := h.out
        cases hout with
        | foreign _ hf => exact hf hm
        | unlock _ hf =>
          rw [hm] at hsame
          cases (if_pos rfl : (if m = m then none else ownerOf s.k m) = none).symm.trans hsame
        | handover _ w hf =>
          -- the caller is not in the queue of a mutex it owns
          rw [hm] at hsame
          cases (if_pos rfl : (if m = m then some w else ownerOf s.k m) = some w).symm.trans hsame
          exact (h.handed_line hi rfl).1.2 hm
      · -- it goes around the loop once more, and finds that it is the owner
        have hc := h.calling
        cases hc with
        | first c hu => cases hlock.symm.trans hu
        | again n hu =>
          cases hlock.symm.trans hu
          have hout := h.out
          cases hout with
          | relock _ hr => exact took_holds s.holds (Or.inl ⟨rfl, 0, rfl⟩)
          | lock _ hr =>
            rw [hm] at hr
            cases hr
          | lockBlocks _ o hr hne =>
            rw [hm] at hr
            cases hr
            exact absurd rfl hne
    · rw [hh, holdsAfter_other _ htc, h.cont, if_neg htc]
      exact hx m t hm
  have hafter := (h.eff.owner m).symm.trans ho
  cases e with
  | taken n =>
    rw [Event.ownerAfter] at hafter
    split at hafter
    · rename_i hmn
      cases hafter
      subst hmn
      rw [hh]
      have hout := h.out
      cases hout with
      | lock _ hr => exact Or.inl (took_holds s.holds (Or.inl ⟨rfl, 0, rfl⟩))
      | trylock _ hr => exact Or.inl (took_holds s.holds (Or.inr ⟨rfl, rfl⟩))
    · rename_i hmn
      exact hkept hafter (if_neg hmn)
  | freed n =>
    rw [Event.ownerAfter] at hafter
    split at hafter
    · cases hafter
    · rename_i hmn
      exact hkept hafter (if_neg hmn)
  | handed n w =>
    rw [Event.ownerAfter] at hafter
    split at hafter
    · rename_i hmn
      cases hafter
      subst hmn
      have hw := (h.handed_line hi rfl).1
      have htc : t ≠ cur := by
        rintro rfl
        have hout := h.out
        cases hout with
        | handover _ _ hf => exact hw.2 hf
      refine Or.inr ?_
      rw [h.cont, if_neg htc]
      exact hw.1
    · rename_i hmn
      exact hkept hafter (if_neg hmn)
  | _ => exact hkept hafter rfl

theorem owner_accounted {b : Build} {ts : List (ThreadId × Int)} {counts : SemId → Int} {s : Sys}
    (h : Run b LockCalls ts counts s) : Accounted s := by
  induction h with
  | boot fuel hn hb =>
    intro m t ho
    rw [ownerOf, (boot_cases hb).1.kernel.mutexes] at ho
    cases ho
  | step a fuel hrun hok hs ih =>
    have hi := lines_run hrun
    obtain ⟨cur, hcur, hst⟩ := Sys.step_sync hs
    cases hst with
    | call c r e _ _ _ hcall _ _ _ _ hout heff _ hrec =>
      exact (callStep_of hcall hout heff hrec).accounted hrec.holds hi ih
    | finish c r ha hcont hs' =>
      subst hs'
      intro m t ho
      rcases ih m t ho with hh | hl
      · exact Or.inl hh
      · have htc : t ≠ cur := by
          rintro rfl
          cases hcont.symm.trans hl
        refine Or.inr ?_
        simp only [Sys.finish, Function.update_of_ne htc]
        exact hl
    | sched _ hsync hrec =>
      intro m t ho
      rw [hrec.holds, hrec.cont]
      exact ih m t ((hsync.own.owner m).symm.trans ho)

end Microkernel

/-
  Microkernel.Calls.Ownership — mutex ownership over whole runs.

  Any threads call `mutex_init`, `mutex_lock`, `mutex_trylock`, `mutex_unlock` and
  `mutex_set_pi_enabled` on any mutexes in any order, re-locking by the owner and
  unlocking by others included, with semaphores, yields and interrupts in between.

  Proved (`ownership_mirrored`): every thread's owned list is finite and holds exactly the
  mutexes it owns; an owner changes only from nobody to the caller, or from the calling
  owner, in its `mutex_unlock`, to nobody or to a thread of the wait queue; and who has
  locked a mutex owns it until its own unlock.
-/

import Microkernel.Calls.Steps

namespace Microkernel

open Linked

/-- All states reached from boot. -/
abbrev Reach (b : Build) (ts : List (ThreadId × Int)) (counts : SemId → Int) (s : Sys) : Prop :=
  Run b (fun _ _ => True) ts counts s

/-- The ways a step of `cur` can change the owner of `m`. -/
inductive OwnerStep (s s' : Sys) (cur : ThreadId) (a : Act) (m : MutexId) : Prop
  | same : ownerOf s'.k m = ownerOf s.k m → OwnerStep s s' cur a m
  | taken : ownerOf s.k m = none → ownerOf s'.k m = some cur → OwnerStep s s' cur a m
  | freed : a = .call (.mutexUnlock m) → ownerOf s.k m = some cur → ownerOf s'.k m = none → OwnerStep s s' cur a m
  | handed (w : ThreadId) (l : List ThreadId) : a = .call (.mutexUnlock m) → ownerOf s.k m = some cur →
      Chain (waitNextOf s.k) (waitersOf s.k (.mutex m)) l → w ∈ l → ownerOf s'.k m = some w → OwnerStep s s' cur a m

structure OwnInv (s : Sys) : Prop where
  lists : OwnerLists s.k none
  holds : ∀ t m, s.holds t m = true → ownerOf s.k m = some t
  locked : ∀ t m r, s.cont t = .returning (.mutexLock m) r → s.holds t m = true
  tried : ∀ t m, s.cont t = .returning (.mutexTrylock m) 0 → s.holds t m = true

theorem setHolds_apply (h : ThreadId → MutexId → Bool) (t : ThreadId) (m : MutexId) (v : Bool) (u : ThreadId) (n : MutexId) :
    setHolds h t m v u n = if u = t ∧ n = m then v else h u n := by
  unfold setHolds
  by_cases hu : u = t
  · subst hu
    by_cases hn : n = m
    · subst hn
      simp
    · simp [hn]
  · simp [hu]

/-- Another thread's locks are not the caller's business. -/
theorem holdsAfter_other (h : ThreadId → MutexId → Bool) {cur u : ThreadId} (hu : u ≠ cur) (c : Call) (r : Ret) (n : MutexId) :
    holdsAfter h cur c r u n = h u n := by
  unfold holdsAfter
  split
  · rw [setHolds_apply, if_neg fun e => hu e.1]
  · split
    · rw [setHolds_apply, if_neg fun e => hu e.1]
    · rfl
  · rw [setHolds_apply, if_neg fun e => hu e.1]
  · rfl

/-- A call that took `m`. -/
def Took (c : Call) (r : Ret) (m : MutexId) : Prop := (c = .mutexLock m ∧ ∃ v, r = .value v) ∨ c = .mutexTrylock m ∧ r = .value 0

theorem holdsAfter_cases {h : ThreadId → MutexId → Bool} {cur t : ThreadId} {c : Call} {r : Ret} {m : MutexId}
    (hh : holdsAfter h cur c r t m = true) :
    (h t m = true ∧ (c = .mutexUnlock m → t ≠ cur)) ∨ t = cur ∧ Took c r m := by
  by_cases ht : t = cur
  · subst ht
    cases c with
    | mutexLock n =>
      cases r with
      | value v =>
        simp only [holdsAfter, setHolds_apply] at hh
        by_cases hn : m = n
        · subst hn
          exact Or.inr ⟨rfl, Or.inl ⟨rfl, v, rfl⟩⟩
        · rw [if_neg fun e => hn e.2] at hh
          exact Or.inl ⟨hh, fun e => by cases e⟩
      | again n => exact Or.inl ⟨hh, fun e => by cases e⟩
    | mutexTrylock n =>
      cases r with
      | value v =>
        simp only [holdsAfter] at hh
        split at hh
        · rename_i hv
          rw [setHolds_apply] at hh
          by_cases hn : m = n
          · subst hn
            exact Or.inr ⟨rfl, Or.inr ⟨rfl, by rw [hv]⟩⟩
          · rw [if_neg fun e => hn e.2] at hh
            exact Or.inl ⟨hh, fun e => by cases e⟩
        · exact Or.inl ⟨hh, fun e => by cases e⟩
      | again n => exact Or.inl ⟨hh, fun e => by cases e⟩
    | mutexUnlock n =>
      simp only [holdsAfter, setHolds_apply] at hh
      by_cases hn : m = n
      · rw [if_pos ⟨trivial, hn⟩] at hh
        cases hh
      · rw [if_neg fun e => hn e.2] at hh
        exact Or.inl ⟨hh, fun e => absurd (Call.mutexUnlock.inj e).symm hn⟩
    | mutexInit n => exact Or.inl ⟨hh, fun e => by cases e⟩
    | mutexSetPiEnabled n en => exact Or.inl ⟨hh, fun e => by cases e⟩
    | semDown σ => exact Or.inl ⟨hh, fun e => by cases e⟩
    | semUp σ => exact Or.inl ⟨hh, fun e => by cases e⟩
  · rw [holdsAfter_other h ht] at hh
    exact Or.inl ⟨hh, fun _ => ht⟩

/-- Only its own unlock ends a hold. -/
theorem holdsAfter_cleared {h : ThreadId → MutexId → Bool} {cur t : ThreadId} {c : Call} {r : Ret} {m : MutexId}
    (hh : h t m = true) (hn : holdsAfter h cur c r t m = false) : t = cur ∧ c = .mutexUnlock m := by
  by_cases ht : t = cur
  · subst ht
    refine ⟨rfl, ?_⟩
    unfold holdsAfter at hn
    split at hn
    · rw [setHolds_apply] at hn
      split at hn
      · cases hn
      · rw [hh] at hn
        cases hn
    · split at hn
      · rw [setHolds_apply] at hn
        split at hn
        · cases hn
        · rw [hh] at hn
          cases hn
      · rw [hh] at hn
        cases hn
    · rw [setHolds_apply] at hn
      split at hn
      · rename_i he
        rw [he.2]
      · rw [hh] at hn
        cases hn
    · rw [hh] at hn
      cases hn
  · rw [holdsAfter_other h ht, hh] at hn
    cases hn

theorem took_holds (h : ThreadId → MutexId → Bool) {cur : ThreadId} {c : Call} {r : Ret} {m : MutexId} (ht : Took c r m) :
    holdsAfter h cur c r cur m = true := by
  rcases ht with ⟨rfl, v, rfl⟩ | ⟨rfl, rfl⟩
  · exact (setHolds_apply h cur m true cur m).trans (if_pos ⟨rfl, rfl⟩)
  · exact (setHolds_apply h cur m true cur m).trans (if_pos ⟨rfl, rfl⟩)

/-- A call that took `m` leaves the caller its owner. -/
theorem took_owner {k : Kernel} {cur : ThreadId} {c : Call} {r : Ret} {e : Event} {m : MutexId} (ho : Outcome k cur c r e)
    (ht : Took c r m) : e.ownerAfter cur k m = some cur := by
  rcases ht with ⟨rfl, v, rfl⟩ | ⟨rfl, rfl⟩
  · cases ho with
    | relock _ h => exact h
    | lock _ h => exact if_pos rfl
  · cases ho with
    | retry _ h => exact h
    | trylock _ h => exact if_pos rfl

/-! ## Steps and runs -/

theorem ownInv_boot {b : Build} {counts : SemId → Int} {s : Sys} (h : Booted b counts s) : OwnInv s := by
  refine ⟨fun t => ⟨[], ?_, fun m => ?_⟩, fun t m hh => ?_, fun t m r hc => ?_, fun t m hc => ?_⟩
  · rw [h.kernel.owned]
    rfl
  · simp only [ownerOf, h.kernel.mutexes]
    simp
  · rw [h.holds] at hh
    cases hh
  · rw [h.cont] at hc
    cases hc
  · rw [h.cont] at hc
    cases hc

theorem SyncStep.ownInv {b : Build} {s s' : Sys} {cur : ThreadId} {a : Act} (hst : SyncStep b s s' cur a) (h : OwnInv s) : OwnInv s' := by
  cases hst with
  | call c r e _ k0 k2 hcall _ _ _ _ hout heff _ hrec =>
    have hholds : s'.holds = holdsAfter s.holds cur c r := hrec.holds
    have hcont : ∀ t, s'.cont t = if t = cur then r.cont c else s.cont t := by
      intro t
      rw [hrec.cont, cont_record]
    refine ⟨heff.lists h.lists, fun t m hh => ?_, fun t m v hc => ?_, fun t m hc => ?_⟩
    · rw [hholds] at hh
      rw [heff.owner]
      rcases holdsAfter_cases hh with ⟨hh, hun⟩ | ⟨rfl, ht⟩
      · rcases owner_kept hout (h.holds t m hh) with hk | ⟨hcu, htc⟩
        · exact hk
        · exact absurd htc (hun hcu)
      · exact took_owner hout ht
    · rw [hholds]
      rw [hcont] at hc
      by_cases ht : t = cur
      · subst ht
        rw [if_pos rfl] at hc
        cases r with
        | value x =>
          cases hc
          exact took_holds s.holds (Or.inl ⟨rfl, v, rfl⟩)
        | again n => cases hc
      · rw [if_neg ht] at hc
        rw [holdsAfter_other _ ht]
        exact h.locked t m v hc
    · rw [hholds]
      rw [hcont] at hc
      by_cases ht : t = cur
      · subst ht
        rw [if_pos rfl] at hc
        cases r with
        | value x =>
          cases hc
          exact took_holds s.holds (Or.inr ⟨rfl, rfl⟩)
        | again n => cases hc
      · rw [if_neg ht] at hc
        rw [holdsAfter_other _ ht]
        exact h.tried t m hc
  | finish c r ha hcont hs =>
    subst hs
    refine ⟨h.lists, h.holds, fun t m v hc => ?_, fun t m hc => ?_⟩
    · by_cases ht : t = cur
      · simp [Sys.finish, ht] at hc
      · exact h.locked t m v (by simpa [Sys.finish, ht] using hc)
    · by_cases ht : t = cur
      · simp [Sys.finish, ht] at hc
      · exact h.tried t m (by simpa [Sys.finish, ht] using hc)
  | sched _ hsync hrec =>
    refine ⟨h.lists.congr hsync.own, fun t m hh => ?_, fun t m r hc => ?_, fun t m hc => ?_⟩
    · rw [hsync.own.owner]
      exact h.holds t m (by rwa [hrec.holds] at hh)
    · rw [hrec.holds]
      exact h.locked t m r (by rwa [hrec.cont] at hc)
    · rw [hrec.holds]
      exact h.tried t m (by rwa [hrec.cont] at hc)

theorem ownInv_step {b : Build} {fuel : Nat} {s s' : Sys} {a : Act} (h : OwnInv s) (hs : s.step b fuel a = .ok s') : OwnInv s' := by
  obtain ⟨cur, -, hst⟩ := Sys.step_sync hs
  exact hst.ownInv h

theorem ownInv_run {b : Build} {ok : Sys → Act → Prop} {ts : List (ThreadId × Int)} {counts : SemId → Int} {s : Sys}
    (h : Run b ok ts counts s) : OwnInv s := by
  induction h with
  | boot fuel _ hb => exact ownInv_boot (boot_cases hb).1
  | step a fuel _ _ hs ih => exact ownInv_step ih hs

theorem SyncStep.ownerStep {b : Build} {s s' : Sys} {cur : ThreadId} {a : Act} (hst : SyncStep b s s' cur a) (m : MutexId) :
    OwnerStep s s' cur a m := by
  cases hst with
  | call c r e _ k0 k2 hcall _ _ _ _ hout heff _ _ =>
    have ho := heff.owner m
    cases hout with
    | lock n h =>
      by_cases hn : m = n
      · subst hn
        exact .taken h (ho.trans (if_pos rfl))
      · exact .same (ho.trans (if_neg hn))
    | trylock n h =>
      by_cases hn : m = n
      · subst hn
        exact .taken h (ho.trans (if_pos rfl))
      · exact .same (ho.trans (if_neg hn))
    | unlock n h =>
      by_cases hn : m = n
      · subst hn
        cases hcall
        exact .freed rfl h (ho.trans (if_pos rfl))
      · exact .same (ho.trans (if_neg hn))
    | handover n w h =>
      by_cases hn : m = n
      · subst hn
        cases hcall
        obtain ⟨l₁, l₂, hl, -⟩ := Popped.chain heff.queues
        exact .handed w (l₁ ++ w :: l₂) rfl h hl (by simp) (ho.trans (if_pos rfl))
      · exact .same (ho.trans (if_neg hn))
    | init n h => exact .same ho
    | relock n h => exact .same ho
    | lockBlocks n o h hne => exact .same ho
    | retry n h => exact .same ho
    | busy n h => exact .same ho
    | foreign n h => exact .same ho
    | setPi n en => exact .same ho
    | down σ h => exact .same ho
    | downBlocks σ h => exact .same ho
    | up σ h => exact .same ho
    | upWakes σ w h => exact .same ho
  | finish c r ha hcont hs =>
    subst hs
    exact .same rfl
  | sched _ hsync _ => exact .same (hsync.own.owner m)

/-- One step changes an owner only in the ways of `OwnerStep`. -/
theorem owner_step {b : Build} {fuel : Nat} {s s' : Sys} {a : Act} {cur : ThreadId} (hcur : s.k.cpu.currentThread = some cur)
    (hs : s.step b fuel a = .ok s') (m : MutexId) : OwnerStep s s' cur a m := by
  obtain ⟨cur', hcur', hst⟩ := Sys.step_sync hs
  rw [hcur] at hcur'
  cases hcur'
  exact hst.ownerStep m

/-- In every reachable state a thread's owned list is finite and visits exactly the
    mutexes it owns, once each; every owner change is one of `OwnerStep`; a thread that
    has locked or try-locked `m` with success owns it until its own unlock. -/
theorem ownership_mirrored {b : Build} {ts : List (ThreadId × Int)} {counts : SemId → Int} {s : Sys} (h : Reach b ts counts s) :
    (∀ t, ∃ l, Chain (ownerNextOf s.k) (ownedOf s.k t) l ∧ l.Nodup ∧ ∀ m, m ∈ l ↔ ownerOf s.k m = some t) ∧
    (∀ t m r, s.cont t = .returning (.mutexLock m) r → s.holds t m = true) ∧
    (∀ t m, s.cont t = .returning (.mutexTrylock m) 0 → s.holds t m = true) ∧
    (∀ t m, s.holds t m = true → ownerOf s.k m = some t) ∧
    ∀ a fuel s' cur, s.k.cpu.currentThread = some cur → s.step b fuel a = .ok s' → ∀ m,
      OwnerStep s s' cur a m ∧ ∀ t, s.holds t m = true → s'.holds t m = false → t = cur ∧ a = .call (.mutexUnlock m) := by
  have hi := ownInv_run h
  refine ⟨fun t => ?_, hi.locked, hi.tried, hi.holds, fun a fuel s' cur hcur hs m => ⟨owner_step hcur hs m, ?_⟩⟩
  · obtain ⟨l, hl, hm⟩ := hi.lists t
    exact ⟨l, hl, Chain.nodup hl, fun m => by simp [hm]⟩
  · intro t hh hn
    obtain ⟨cur', hcur', hst⟩ := Sys.step_sync hs
    rw [hcur] at hcur'
    cases hcur'
    cases hst with
    | call c r e _ k0 k2 hcall _ _ _ _ _ _ _ hrec =>
      rw [hrec.holds] at hn
      obtain ⟨htc, hc⟩ := holdsAfter_cleared hh hn
      subst hc
      cases hcall
      exact ⟨htc, rfl⟩
    | finish c r ha hcont hs =>
      subst hs
      rw [show (s.finish cur c).holds = s.holds from rfl, hh] at hn
      cases hn
    | sched _ _ hrec =>
      rw [hrec.holds, hh] at hn
      cases hn

/-- Thread 0 locks two mutexes and unlocks the first. -/
theorem ownership_mirrored_two_locks :
    ∃ s, Reach ⟨.rr, true, false⟩ [(0, 10), (1, 20)] (fun _ => 0) s ∧ ownedOf s.k 0 = some 1 ∧ s.holds 0 1 = true ∧
      ∀ t, ∃ l, Chain (ownerNextOf s.k) (ownedOf s.k t) l ∧ l.Nodup ∧ ∀ m, m ∈ l ↔ ownerOf s.k m = some t := by
  have h0 : Reach ⟨.rr, true, false⟩ [(0, 10), (1, 20)] (fun _ => 0) _ := .boot 4 (by decide) rfl
  have h2 := (h0.step (.call (.mutexLock 0)) 4 trivial rfl).step .resume 4 trivial rfl
  have h4 := (h2.step (.call (.mutexTrylock 1)) 4 trivial rfl).step .resume 4 trivial rfl
  have h5 := h4.step (.call (.mutexUnlock 0)) 4 trivial rfl
  exact ⟨_, h5, rfl, rfl, (ownership_mirrored h5).1⟩

end Microkernel

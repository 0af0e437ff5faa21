/-
  Microkernel.Calls.Tokens — semaphores neither create nor lose tokens.

  The count may go negative, and a thread that `sem_down` has put to sleep has taken a
  token that is not there yet. `sleepers` is what bridges the two: the count plus the
  threads asleep in `sem_down` never goes below zero, because a wake-up gives up one
  sleeper for one token. A sleeper cannot return: some READY thread runs whenever a
  thread has blocked (`awake_run`).

  Proved (`sem_tokens_conserved`): the count is the initial count plus the ups minus the
  downs entered, and no more downs have returned than there were tokens.
-/

import Mathlib.Data.List.Count
import Microkernel.Calls.Waiters

namespace Microkernel

/-! ## Counting threads -/

/-- A predicate that changes at one element. -/
theorem countP_change {l : List ThreadId} (hn : l.Nodup) {t : ThreadId} (ht : t ∈ l) {p q : ThreadId → Bool}
    (hpq : ∀ u, u ≠ t → q u = p u) : l.countP q + (p t).toNat = l.countP p + (q t).toNat := by
  obtain ⟨l₁, l₂, rfl⟩ := List.append_of_mem ht
  simp only [List.nodup_append, List.nodup_cons, List.mem_cons] at hn
  have h1 : l₁.countP q = l₁.countP p :=
    List.countP_congr fun u hu => by rw [hpq u (hn.2.2 u hu t (Or.inl rfl))]
  have h2 : l₂.countP q = l₂.countP p :=
    List.countP_congr fun u hu => by rw [hpq u fun e => hn.2.1.1 (e ▸ hu)]
  simp only [List.countP_append, List.countP_cons, h1, h2]
  cases p t <;> cases q t <;> simp <;> omega

theorem countP_same {l : List ThreadId} {p q : ThreadId → Bool} (h : ∀ u, q u = p u) : l.countP q = l.countP p :=
  List.countP_congr fun u _ => by rw [h u]

/-- The thread is past `sem_down`'s count, and has not returned. -/
def Cont.inDown (σ : SemId) : Cont → Bool
  | .returning (.semDown τ) _ => τ == σ
  | _ => false

def pending (ids : List ThreadId) (s : Sys) (σ : SemId) : Nat := ids.countP fun t => (s.cont t).inDown σ

def sleepers (ids : List ThreadId) (s : Sys) (σ : SemId) : Nat := ids.countP fun t => decide (waitsFor s t (.sem σ))

theorem sleepers_le_pending (ids : List ThreadId) (s : Sys) (σ : SemId) : sleepers ids s σ ≤ pending ids s σ := by
  refine List.countP_mono_left fun t _ ht => ?_
  have hw := of_decide_eq_true ht
  rw [hw.1]
  simp [Cont.inDown]

structure Tokens (ids : List ThreadId) (counts : SemId → Int) (s : Sys) (σ : SemId) : Prop where
  count : (s.k.sems σ).count = counts σ + s.ups σ - s.entered σ
  inside : s.entered σ = s.returned σ + pending ids s σ
  owed : 0 ≤ (s.k.sems σ).count + sleepers ids s σ

theorem Tokens.bound {ids : List ThreadId} {counts : SemId → Int} {s : Sys} {σ : SemId} (h : Tokens ids counts s σ) :
    (s.returned σ : Int) ≤ counts σ + s.ups σ := by
  have h1 := sleepers_le_pending ids s σ
  have h2 := h.count
  have h3 := h.inside
  have h4 := h.owed
  omega

/-! ## Steps -/

theorem bump_apply (f : SemId → Nat) (s σ : SemId) : bump f s σ = f σ + if σ = s then 1 else 0 := by
  unfold bump
  rw [Function.update_apply]
  split
  · rename_i h
    rw [h]
  · rfl

section Call

variable {ids : List ThreadId} {s s' : Sys} {cur : ThreadId} {a : Act} {c : Call} {r : Ret} {e : Event}

/-- A caller that goes on is not inside `sem_down` yet. -/
theorem Calling.not_inDown (h : Calling s cur a c) (σ : SemId) : (s.cont cur).inDown σ = false := by
  cases h with
  | first c hu => rw [hu]; rfl
  | again m hu => rw [hu]; rfl

/-- A call adds its caller to the threads inside `sem_down` exactly when it is one. -/
theorem pending_call (h : CallStep s s' cur a c r e) (hn : ids.Nodup) (hc : cur ∈ ids) (σ : SemId) :
    pending ids s' σ = pending ids s σ + if c = .semDown σ then 1 else 0 := by
  have hch := countP_change hn hc (p := fun t => (s.cont t).inDown σ) (q := fun t => (s'.cont t).inDown σ)
    fun u hu => by rw [h.cont, if_neg hu]
  have hnow : (s'.cont cur).inDown σ = decide (c = .semDown σ) := by
    rw [h.cont, if_pos rfl]
    have hout := h.out
    cases hout with
    | down τ _ => simp [Ret.cont, Cont.inDown, beq_eq_decide]
    | downBlocks τ _ => simp [Ret.cont, Cont.inDown, beq_eq_decide]
    | _ => simp [Ret.cont, Cont.inDown]
  simp only [h.calling.not_inDown σ, hnow, Bool.toNat_false] at hch
  unfold pending
  by_cases hd : c = .semDown σ
  · simp only [hd, decide_true, Bool.toNat_true, if_true] at hch ⊢
    omega
  · simp only [hd, decide_false, Bool.toNat_false, if_false] at hch ⊢
    omega

/-- Who sleeps in `sem_down(σ)` after a call. -/
theorem sleeps_iff (h : CallStep s s' cur a c r e) (hi : WaitInv s) (hr : isReady s.k cur) (σ : SemId) (t : ThreadId) :
    waitsFor s' t (.sem σ) ↔ (e = .blocked (.sem σ) ∧ t = cur) ∨ waitsFor s t (.sem σ) ∧ e ≠ .woken σ t := by
  constructor
  · intro hw
    by_cases ht : t = cur
    · subst ht
      exact Or.inl ⟨h.caller_blocked (Steady.of_ready hr) hw, rfl⟩
    · have hw0 := h.waited ht hw
      refine Or.inr ⟨hw0, fun he => ?_⟩
      obtain ⟨o, hwo, -, hno, -⟩ := h.woken_waited hi (w := t) (by rw [he]; rfl)
      rw [waitsFor_unique hw0 hwo] at hw
      exact hno hw
  · intro hor
    rcases hor with ⟨he, rfl⟩ | ⟨hw, hne⟩
    · exact h.caller_waits he
    · have ht : t ≠ cur := fun e => not_ready_iff.mpr (hi.asleep t _ hw) (e ▸ hr)
      refine h.still_waits ht hw fun hwk => ?_
      obtain ⟨o, hwo, -, -, hor⟩ := h.woken_waited hi hwk
      have ho := waitsFor_unique hw hwo
      subst ho
      rcases hor with ⟨m, hm, -⟩ | ⟨τ, hτ, he⟩
      · cases hm
      · cases hτ
        exact hne he

/-- A call adds its caller to the sleepers when it blocks, and removes the one it wakes. -/
theorem sleepers_call (h : CallStep s s' cur a c r e) (hi : WaitInv s) (hr : isReady s.k cur) (hn : ids.Nodup)
    (hc : cur ∈ ids) (hin : ∀ t, s.cont t ≠ .user → t ∈ ids) (σ : SemId) :
    (e = .blocked (.sem σ) → sleepers ids s' σ = sleepers ids s σ + 1) ∧
    (∀ w, e = .woken σ w → sleepers ids s' σ + 1 = sleepers ids s σ) ∧
    (e ≠ .blocked (.sem σ) → (∀ w, e ≠ .woken σ w) → sleepers ids s' σ = sleepers ids s σ) := by
  have hiff := sleeps_iff h hi hr σ
  refine ⟨fun he => ?_, fun w he => ?_, fun hnb hnw => ?_⟩
  · have hwc : ¬ waitsFor s cur (.sem σ) := fun hw => not_ready_iff.mpr (hi.asleep cur _ hw) hr
    have hwc' : waitsFor s' cur (.sem σ) := (hiff cur).mpr (Or.inl ⟨he, rfl⟩)
    have hch := countP_change hn hc (p := fun t => decide (waitsFor s t (.sem σ)))
      (q := fun t => decide (waitsFor s' t (.sem σ))) fun u hu => by
        refine decide_eq_decide.mpr ((hiff u).trans ⟨fun hor => ?_, fun hw => Or.inr ⟨hw, fun e' => ?_⟩⟩)
        · rcases hor with ⟨-, huc⟩ | ⟨hw, -⟩
          · exact absurd huc hu
          · exact hw
        · rw [he] at e'
          cases e'
    simp only [hwc, hwc', decide_true, decide_false, Bool.toNat_true, Bool.toNat_false] at hch
    unfold sleepers
    omega
  · obtain ⟨o, hwo, -, hno, hor⟩ := h.woken_waited hi (w := w) (by rw [he]; rfl)
    have ho : o = .sem σ := by
      rcases hor with ⟨m, -, hm⟩ | ⟨τ, hτ, hτe⟩
      · rw [he] at hm
        cases hm
      · rw [he] at hτe
        cases hτe
        exact hτ
    subst ho
    have hch := countP_change hn (hin w (waitsFor_inside hwo)) (p := fun t => decide (waitsFor s t (.sem σ)))
      (q := fun t => decide (waitsFor s' t (.sem σ))) fun u hu => by
        refine decide_eq_decide.mpr ((hiff u).trans ⟨fun hor => ?_, fun hw => Or.inr ⟨hw, fun e' => ?_⟩⟩)
        · rcases hor with ⟨hb, -⟩ | ⟨hw, -⟩
          · rw [he] at hb
            cases hb
          · exact hw
        · rw [he] at e'
          cases e'
          exact hu rfl
    simp only [hwo, hno, decide_true, decide_false, Bool.toNat_true, Bool.toNat_false] at hch
    unfold sleepers
    omega
  · refine countP_same fun u => decide_eq_decide.mpr ((hiff u).trans ⟨fun hor => ?_, fun hw => Or.inr ⟨hw, hnw u⟩⟩)
    rcases hor with ⟨hb, -⟩ | ⟨hw, -⟩
    · exact absurd hb hnb
    · exact hw

theorem record_entered (s : Sys) (cur : ThreadId) (c : Call) (r : Ret) (σ : SemId) :
    (s.record cur c r).entered σ = s.entered σ + if c = .semDown σ then 1 else 0 := by
  cases c with
  | semDown τ =>
    refine (bump_apply s.entered τ σ).trans ?_
    simp only [Call.semDown.injEq, eq_comm]
  | _ => rfl

theorem record_ups (s : Sys) (cur : ThreadId) (c : Call) (r : Ret) (σ : SemId) :
    (s.record cur c r).ups σ = s.ups σ + if c = .semUp σ then 1 else 0 := by
  cases c with
  | semUp τ =>
    refine (bump_apply s.ups τ σ).trans ?_
    simp only [Call.semUp.injEq, eq_comm]
  | _ => rfl

/-- The three ways a call can be about `σ`. -/
theorem countDelta_eq (σ : SemId) (c : Call) :
    countDelta σ c = (if c = .semUp σ then 1 else 0) - if c = .semDown σ then 1 else 0 := by
  cases c with
  | semDown τ =>
    simp only [countDelta, Call.semDown.injEq, eq_comm]
    split <;> simp
  | semUp τ =>
    simp only [countDelta, Call.semUp.injEq, eq_comm]
    split <;> simp
  | _ => simp [countDelta]

theorem tokens_call {counts : SemId → Int} {σ : SemId} (ht : Tokens ids counts s σ) (h : CallStep s s' cur a c r e)
    (hi : WaitInv s) (hr : isReady s.k cur) (hn : ids.Nodup) (hc : cur ∈ ids) (hin : ∀ t, s.cont t ≠ .user → t ∈ ids)
    (hcount : (s'.k.sems σ).count = (s.k.sems σ).count + countDelta σ c) (hrec : SameRecord (s.record cur c r) s') :
    Tokens ids counts s' σ := by
  have hent : s'.entered σ = s.entered σ + if c = .semDown σ then 1 else 0 := by
    rw [hrec.entered, record_entered]
  have hups : s'.ups σ = s.ups σ + if c = .semUp σ then 1 else 0 := by
    rw [hrec.ups, record_ups]
  have hret : s'.returned σ = s.returned σ := by
    rw [hrec.returned]
    rfl
  have hpend := pending_call h hn hc σ
  obtain ⟨hs1, hs2, hs3⟩ := sleepers_call h hi hr hn hc hin σ
  have h1 := ht.count
  have h2 := ht.inside
  have h3 := ht.owed
  rw [countDelta_eq] at hcount
  refine ⟨?_, ?_, ?_⟩
  · rw [hcount, hent, hups, h1]
    split <;> split <;> push_cast <;> omega
  · rw [hent, hret, hpend, h2]
    omega
  · -- a debt is created together with its sleeper, and paid together with it
    rw [hcount]
    have hout := h.out
    cases hout with
    | down τ hn =>
      have hsl := hs3 (fun e => by cases e) fun w e => by cases e
      by_cases hτ : τ = σ
      · subst hτ
        simp only [reduceCtorEq, if_false, if_true]
        omega
      · simp only [reduceCtorEq, Call.semDown.injEq, hτ, if_false]
        omega
    | downBlocks τ hn =>
      by_cases hτ : τ = σ
      · subst hτ
        have hsl := hs1 rfl
        simp only [reduceCtorEq, if_false, if_true]
        omega
      · have hsl := hs3 (fun e => hτ (by cases e; rfl)) fun w e => by cases e
        simp only [reduceCtorEq, Call.semDown.injEq, hτ, if_false]
        omega
    | up τ hn =>
      have hsl := hs3 (fun e => by cases e) fun w e => by cases e
      simp only [reduceCtorEq, if_false]
      split <;> omega
    | upWakes τ w hn =>
      by_cases hτ : τ = σ
      · subst hτ
        have hsl := hs2 w rfl
        simp only [reduceCtorEq, if_false, if_true]
        omega
      · have hsl := hs3 (fun e => by cases e) fun v e => hτ (by cases e; rfl)
        simp only [reduceCtorEq, Call.semUp.injEq, hτ, if_false]
        omega
    | _ =>
      have hsl := hs3 (fun e => by cases e) fun w e => by cases e
      simp only [reduceCtorEq, if_false]
      omega

end Call

/-- A return from `sem_down` is one thread less inside it. -/
theorem tokens_finish {ids : List ThreadId} {counts : SemId → Int} {s : Sys} {cur : ThreadId} {c : Call} {r : Int} {a : Act}
    {σ : SemId} (ht : Tokens ids counts s σ) (ha : a = .resume) (hcont : s.cont cur = .returning c r)
    (hr : isReady s.k cur) (hn : ids.Nodup) (hc : cur ∈ ids) : Tokens ids counts (s.finish cur c) σ := by
  have hsl : sleepers ids (s.finish cur c) σ = sleepers ids s σ :=
    countP_same fun u => decide_eq_decide.mpr (finish_waits ha hcont (Steady.of_ready hr) u _)
  have hch := countP_change hn hc (p := fun t => (s.cont t).inDown σ) (q := fun t => ((s.finish cur c).cont t).inDown σ)
    fun u hu => by simp [Sys.finish, hu]
  have hout : ((s.finish cur c).cont cur).inDown σ = false := by simp [Sys.finish, Cont.inDown]
  have hin : (s.cont cur).inDown σ = decide (c = .semDown σ) := by
    rw [hcont]
    cases c with
    | semDown τ => simp [Cont.inDown, beq_eq_decide]
    | _ => simp [Cont.inDown]
  have hret : (s.finish cur c).returned σ = s.returned σ + if c = .semDown σ then 1 else 0 := by
    cases c with
    | semDown τ =>
      refine (bump_apply s.returned τ σ).trans ?_
      simp only [Call.semDown.injEq, eq_comm]
    | _ => rfl
  have hp : pending ids (s.finish cur c) σ + (if c = .semDown σ then 1 else 0) = pending ids s σ := by
    simp only [hout, hin, Bool.toNat_false] at hch
    unfold pending
    by_cases hd : c = .semDown σ
    · simp only [hd, decide_true, Bool.toNat_true, if_true] at hch ⊢
      omega
    · simp only [hd, decide_false, Bool.toNat_false, if_false] at hch ⊢
      omega
  refine ⟨ht.count, ?_, ?_⟩
  · show s.entered σ = _
    rw [hret, ht.inside]
    omega
  · rw [hsl]
    exact ht.owed

/-- Without a call nothing changes. -/
theorem Tokens.sched {ids : List ThreadId} {counts : SemId → Int} {s s' : Sys} {σ : SemId} (ht : Tokens ids counts s σ)
    (hsync : SameSync s.k s'.k) (hrec : SameRecord s s') : Tokens ids counts s' σ := by
  refine ⟨?_, ?_, ?_⟩
  · rw [hsync.wait.count, hrec.ups, hrec.entered]
    exact ht.count
  · rw [hrec.entered, hrec.returned]
    simp only [pending, hrec.cont]
    exact ht.inside
  · rw [hsync.wait.count]
    unfold sleepers
    rw [countP_same fun u => decide_eq_decide.mpr (sched_waits hsync hrec u _)]
    exact ht.owed

theorem tokens_boot {b : Build} {counts : SemId → Int} {s : Sys} (ids : List ThreadId) (hbt : Booted b counts s) {σ : SemId}
    (h0 : 0 ≤ counts σ) : Tokens ids counts s σ := by
  have hpend : pending ids s σ = 0 := List.countP_eq_zero.mpr fun t _ => by
    rw [hbt.cont]
    simp [Cont.inDown]
  refine ⟨?_, ?_, ?_⟩
  · rw [hbt.kernel.sems, hbt.ups, hbt.entered]
    simp
  · rw [hbt.entered, hbt.returned, hpend]
  · rw [hbt.kernel.sems]
    show 0 ≤ counts σ + _
    omega

theorem tokens_run {b : Build} {ts : List (ThreadId × Int)} {counts : SemId → Int} {s : Sys}
    (h : Run b (OtherReady ts) ts counts s) {σ : SemId} (h0 : 0 ≤ counts σ) :
    (ts.map Prod.fst).Nodup ∧ Tokens (ts.map Prod.fst) counts s σ := by
  induction h with
  | boot fuel hn hb =>
    obtain ⟨hbt, -⟩ := boot_cases hb
    exact ⟨hn, tokens_boot _ hbt h0⟩
  | step a fuel hrun hoka hs ih =>
    obtain ⟨hn, ht⟩ := ih
    obtain ⟨hi, l, cur, hl, hr⟩ := awake_run (fun _ _ h => h) hrun
    obtain ⟨cur', hcur', hcase⟩ := Sys.step_sync hs
    rw [hl.current] at hcur'
    cases hcur'
    refine ⟨hn, ?_⟩
    cases hcase with
    | call c r e _ _ _ hcall _ _ _ _ hout heff hcount hrec =>
      exact tokens_call ht (callStep_of hcall hout heff hrec) hi hr hn hl.currentIn hl.inside (hcount σ) hrec
    | finish c r ha hcont hs' =>
      subst hs'
      exact tokens_finish ht ha hcont hr hn hl.currentIn
    | sched _ hsync hrec => exact ht.sched hsync hrec

/-- With another READY thread whenever one blocks: a semaphore's count is its initial count
    plus the `sem_up` calls minus the `sem_down` calls entered, and the `sem_down` calls
    that have returned are at most its initial count plus the `sem_up` calls. -/
theorem sem_tokens_conserved {b : Build} {ts : List (ThreadId × Int)} {counts : SemId → Int} {s : Sys}
    (h : Run b (OtherReady ts) ts counts s) (σ : SemId) (h0 : 0 ≤ counts σ) :
    (s.returned σ : Int) ≤ counts σ + s.ups σ ∧ (s.k.sems σ).count = counts σ + s.ups σ - s.entered σ :=
  ⟨(tokens_run h h0).2.bound, (tokens_run h h0).2.count⟩

/-- Thread 1 sleeps in `sem_down`; thread 0 wakes it; it returns. -/
theorem sem_tokens_conserved_wake :
    ∃ s, Run ⟨.rr, true, false⟩ (OtherReady [(0, 10), (1, 10)]) [(0, 10), (1, 10)] (fun _ => 0) s ∧ s.entered 0 = 1 ∧
      s.returned 0 = 1 ∧ (s.returned 0 : Int) ≤ 0 + s.ups 0 := by
  have h0 : Run ⟨.rr, true, false⟩ (OtherReady [(0, 10), (1, 10)]) [(0, 10), (1, 10)] (fun _ => 0) _ :=
    .boot 4 (by decide) rfl
  have h2 := (h0.step .yield 4 (by decide) rfl).step (.call (.semDown 0)) 4 (by decide) rfl
  have h4 := (h2.step (.call (.semUp 0)) 4 (by decide) rfl).step .resume 4 (by decide) rfl
  have h6 := (h4.step .yield 4 (by decide) rfl).step .resume 4 (by decide) rfl
  exact ⟨_, h6, rfl, rfl, (sem_tokens_conserved h6 0 (by decide)).1⟩

end Microkernel

/-
  Microkernel.Calls.Waiters — the wait queues over whole runs.

  `mutex_lock` and `sem_down` link the caller in front of the queue
  (`wait_next = waiters; waiters = cur`), then call `sched_block_current`, which ends
  with `cur->wait_next = nullptr`: a queue that was not empty loses every earlier waiter.

  Proved:
  (1) A queue never holds more than its newest waiter, asleep on that very object
      (`WaitInv`).
  (2) In runs in which a thread only blocks on an object nobody waits for, every queue
      holds exactly its waiters (`wait_queues_exact`), and such a run's next step keeps
      that if and only if it does not block on an object with a waiter.
  (3) The second waiter of a mutex makes the first one disappear (`waiter_lost`).
-/

import Microkernel.Calls.Steps

namespace Microkernel

open Linked

/-- Following `wait_next` from `waiters` visits exactly the threads that have blocked and
    have not been handed the mutex or woken, each once. -/
def WaitQueuesExact (s : Sys) : Prop :=
  ∀ o, ∃ l, Chain (waitNextOf s.k) (waitersOf s.k o) l ∧ l.Nodup ∧ ∀ t, t ∈ l ↔ waitsFor s t o

structure WaitInv (s : Sys) : Prop where
  head : ∀ o w, waitersOf s.k o = some w → waitsFor s w o ∧ waitNextOf s.k w = none
  free : ∀ m, ownerOf s.k m = none → waitersOf s.k (.mutex m) = none
  asleep : ∀ t o, waitsFor s t o → stateOf s.k t = .blocked

instance (s : Sys) (a : Act) (ts : List (ThreadId × Int)) : Decidable (OtherReady ts s a) :=
  inferInstanceAs (Decidable (blocksOn s a ≠ none → ∃ t ∈ ts.map Prod.fst, s.k.cpu.currentThread ≠ some t ∧ isReady s.k t))

instance (s : Sys) (a : Act) : Decidable (QuietBlock s a) :=
  decidable_of_iff (∀ o ∈ blocksOn s a, waitersOf s.k o = none) Iff.rfl

/-- Nobody is missing from the queues. -/
def NoneLost (s : Sys) : Prop := ∀ o t, waitsFor s t o → waitersOf s.k o = some t

/-- The caller does not run `sem_down`, nor return from one, while it is BLOCKED. -/
def Steady (s : Sys) (a : Act) (cur : ThreadId) : Prop :=
  ∀ σ, (a = .call (.semDown σ) ∨ (a = .resume ∧ ∃ r, s.cont cur = .returning (.semDown σ) r)) → isReady s.k cur

theorem Steady.of_ready {s : Sys} {a : Act} {cur : ThreadId} (h : isReady s.k cur) : Steady s a cur := fun _ _ => h

/-- With single-waiter queues a pop empties the queue. -/
theorem Popped.single {o : WaitObj} {w : ThreadId} {k k' : Kernel} (h : Popped o w k k')
    (hs : ∀ v, waitersOf k o = some v → waitNextOf k v = none) :
    waitersOf k o = some w ∧ waitersOf k' o = none ∧ ∀ u, u ≠ w → waitNextOf k' u = waitNextOf k u := by
  obtain ⟨l₁, l₂, hl, hl', -, -, hf⟩ := h.chain
  have hone : l₁ ++ w :: l₂ = [w] := by
    cases hw : waitersOf k o with
    | none =>
      rw [hw, chain_none] at hl
      simp at hl
    | some v =>
      have hc : Chain (waitNextOf k) (waitersOf k o) [v] := ⟨hw, hs v hw⟩
      have he := Chain.unique hl hc
      have hwv : w = v := by
        have hm : w ∈ l₁ ++ w :: l₂ := by simp
        rw [he] at hm
        simpa using hm
      rw [he, hwv]
  have hnil : l₁ = [] ∧ l₂ = [] := by
    have hlen := congrArg List.length hone
    simp only [List.length_append, List.length_cons, List.length_nil] at hlen
    exact ⟨List.eq_nil_of_length_eq_zero (by omega), List.eq_nil_of_length_eq_zero (by omega)⟩
  obtain ⟨rfl, rfl⟩ := hnil
  exact ⟨hl.1, hl', fun u hu => hf u (by simpa using hu)⟩

theorem waitInv_boot {b : Build} {counts : SemId → Int} {s : Sys} (h : Booted b counts s) : WaitInv s ∧ NoneLost s := by
  have hno : ∀ t o, ¬ waitsFor s t o := by
    intro t o hw
    cases o with
    | mutex m =>
      have := hw.1
      rw [h.cont] at this
      cases this
    | sem σ =>
      have := hw.1
      rw [h.cont] at this
      cases this
  have hempty : ∀ o, waitersOf s.k o = none := by
    intro o
    cases o with
    | mutex m => simp only [waitersOf, h.kernel.mutexes]
    | sem σ => simp only [waitersOf, h.kernel.sems]
  refine ⟨⟨fun o w hw => ?_, fun m _ => hempty _, fun t o hw => absurd hw (hno t o)⟩, fun o t hw => absurd hw (hno t o)⟩
  rw [hempty] at hw
  cases hw

theorem waitsFor_unique {s : Sys} {t : ThreadId} {o p : WaitObj} (ho : waitsFor s t o) (hp : waitsFor s t p) : o = p := by
  cases o with
  | mutex m =>
    cases p with
    | mutex n =>
      have := ho.1.symm.trans hp.1
      cases this
      rfl
    | sem σ =>
      have := ho.1.symm.trans hp.1
      cases this
  | sem σ =>
    cases p with
    | mutex n =>
      have := ho.1.symm.trans hp.1
      cases this
    | sem τ =>
      have := ho.1.symm.trans hp.1
      cases this
      rfl

/-! ## One call -/

/-- What a call's step says about waiting. -/
structure CallStep (s s' : Sys) (cur : ThreadId) (a : Act) (c : Call) (r : Ret) (e : Event) : Prop where
  calling : Calling s cur a c
  out : Outcome s.k cur c r e
  eff : Effect cur s.k s'.k e
  cont : ∀ t, s'.cont t = if t = cur then r.cont c else s.cont t

namespace CallStep

variable {s s' : Sys} {cur : ThreadId} {a : Act} {c : Call} {r : Ret} {e : Event}

/-- Another thread goes on waiting unless it is woken. -/
theorem still_waits (h : CallStep s s' cur a c r e) {t : ThreadId} (ht : t ≠ cur) {o : WaitObj} (hw : waitsFor s t o)
    (hn : e.wakes ≠ some t) : waitsFor s' t o := by
  have hc : s'.cont t = s.cont t := by rw [h.cont, if_neg ht]
  cases o with
  | mutex m =>
    refine ⟨hc.trans hw.1, ?_⟩
    rw [h.eff.owner]
    have hcur : some cur ≠ some t := fun e => ht (Option.some.inj e).symm
    cases e with
    | taken n =>
      show (if m = n then some cur else ownerOf s.k m) ≠ some t
      split
      · exact hcur
      · exact hw.2
    | freed n =>
      show (if m = n then none else ownerOf s.k m) ≠ some t
      split
      · simp
      · exact hw.2
    | handed n w =>
      show (if m = n then some w else ownerOf s.k m) ≠ some t
      split
      · exact hn
      · exact hw.2
    | quiet => exact hw.2
    | blocked p => exact hw.2
    | woken σ w => exact hw.2
    | reset n => exact hw.2
  | sem σ =>
    refine ⟨hc.trans hw.1, ?_⟩
    rw [h.eff.state]
    have hne : ∀ w, e.wakes = some w → t ≠ w := fun w hw e => hn (by rw [hw, e])
    cases e with
    | blocked p => exact (if_neg ht).trans hw.2
    | handed n w => exact (if_neg (hne w rfl)).trans hw.2
    | woken τ w => exact (if_neg (hne w rfl)).trans hw.2
    | quiet => exact hw.2
    | taken n => exact hw.2
    | freed n => exact hw.2
    | reset n => exact hw.2

/-- Nobody but the caller begins to wait. -/
theorem waited (h : CallStep s s' cur a c r e) {t : ThreadId} (ht : t ≠ cur) {o : WaitObj} (hw : waitsFor s' t o) :
    waitsFor s t o := by
  have hc : s'.cont t = s.cont t := by rw [h.cont, if_neg ht]
  cases o with
  | mutex m =>
    refine ⟨hc.symm.trans hw.1, fun hown => ?_⟩
    rcases owner_kept h.out hown with hk | ⟨-, htc⟩
    · exact hw.2 ((h.eff.owner m).trans hk)
    · exact ht htc
  | sem σ =>
    refine ⟨hc.symm.trans hw.1, ?_⟩
    have hst := hw.2
    rw [h.eff.state] at hst
    cases e with
    | blocked p => rwa [Event.stateAfter, if_neg ht] at hst
    | handed n w =>
      rw [Event.stateAfter] at hst
      split at hst
      · cases hst
      · exact hst
    | woken τ w =>
      rw [Event.stateAfter] at hst
      split at hst
      · cases hst
      · exact hst
    | quiet => exact hst
    | taken n => exact hst
    | freed n => exact hst
    | reset n => exact hst

/-- The caller waits for what it blocked on. -/
theorem caller_waits (h : CallStep s s' cur a c r e) {o : WaitObj} (he : e = .blocked o) : waitsFor s' cur o := by
  subst he
  have hc : s'.cont cur = r.cont c := by rw [h.cont, if_pos rfl]
  have hst : stateOf s'.k cur = .blocked := (h.eff.state cur).trans (if_pos rfl)
  cases h.out with
  | lockBlocks m p ho hne =>
    refine ⟨hc, ?_⟩
    rw [h.eff.owner]
    show ownerOf s.k m ≠ some cur
    rw [ho]
    exact fun e => hne (Option.some.inj e)
  | downBlocks σ hn => exact ⟨hc, hst⟩

theorem caller_blocked (h : CallStep s s' cur a c r e) (hs : Steady s a cur) {o : WaitObj} (hw : waitsFor s' cur o) :
    e = .blocked o := by
  have hc : s'.cont cur = r.cont c := by rw [h.cont, if_pos rfl]
  cases o with
  | mutex m =>
    have hr : r = .again m := by
      have := hc.symm.trans hw.1
      cases r with
      | value v => cases this
      | again n =>
        cases this
        rfl
    subst hr
    have hout := h.out
    cases hout with
    | lockBlocks _ p ho hne => rfl
  | sem σ =>
    have hr : r = .value 0 ∧ c = .semDown σ := by
      have := hc.symm.trans hw.1
      cases r with
      | value v =>
        cases this
        exact ⟨rfl, rfl⟩
      | again n => cases this
    obtain ⟨rfl, rfl⟩ := hr
    have hout := h.out
    cases hout with
    | downBlocks _ hn => rfl
    | down _ hn =>
      -- a READY caller stays READY
      have hst : stateOf s.k cur = .blocked := (h.eff.state cur).symm.trans hw.2
      have ha : a = .call (.semDown σ) := by
        have hcall := h.calling
        cases hcall
        rfl
      exact absurd (hs σ (Or.inl ha)) (not_ready_iff.mpr hst)

/-- The queues after a call: what the caller blocked on has the caller, a popped queue is
    empty, the others are as before. -/
theorem queues (h : CallStep s s' cur a c r e) (hi : WaitInv s) (o : WaitObj) :
    (e = .blocked o ∧ waitersOf s'.k o = some cur) ∨
    (∃ w, e.wakes = some w ∧ waitersOf s.k o = some w ∧ waitersOf s'.k o = none ∧
      (∀ m, o = .mutex m → e = .handed m w) ∧ ∀ σ, o = .sem σ → e = .woken σ w) ∨
    waitersOf s'.k o = waitersOf s.k o ∧ e ≠ .blocked o := by
  have hq := h.eff.queues
  have hsingle : ∀ p v, waitersOf s.k p = some v → waitNextOf s.k v = none := fun p v hv => (hi.head p v hv).2
  cases e with
  | blocked p =>
    by_cases ho : o = p
    · subst ho
      exact Or.inl ⟨rfl, (hq.1 o).trans (if_pos rfl)⟩
    · refine Or.inr (Or.inr ⟨(hq.1 o).trans (if_neg ho), fun e => ho ?_⟩)
      cases e
      rfl
  | handed n w =>
    by_cases ho : o = .mutex n
    · subst ho
      obtain ⟨h1, h2, -⟩ := Popped.single hq (hsingle _)
      refine Or.inr (Or.inl ⟨w, rfl, h1, h2, fun m hm => ?_, fun σ hσ => ?_⟩)
      · cases hm
        rfl
      · cases hσ
    · exact Or.inr (Or.inr ⟨Popped.waiters hq o ho, fun e => by cases e⟩)
  | woken σ w =>
    by_cases ho : o = .sem σ
    · subst ho
      obtain ⟨h1, h2, -⟩ := Popped.single hq (hsingle _)
      refine Or.inr (Or.inl ⟨w, rfl, h1, h2, fun m hm => ?_, fun τ hτ => ?_⟩)
      · cases hm
      · cases hτ
        rfl
    · exact Or.inr (Or.inr ⟨Popped.waiters hq o ho, fun e => by cases e⟩)
  | reset n =>
    refine Or.inr (Or.inr ⟨(hq.1 o).trans ?_, fun e => by cases e⟩)
    split
    · rename_i ho
      have hout := h.out
      cases hout with
      | init _ hn => rw [ho, hi.free n hn]
    · rfl
  | quiet => exact Or.inr (Or.inr ⟨SameQueues.waiters hq o, fun e => by cases e⟩)
  | taken n => exact Or.inr (Or.inr ⟨SameQueues.waiters hq o, fun e => by cases e⟩)
  | freed n => exact Or.inr (Or.inr ⟨SameQueues.waiters hq.2 o, fun e => by cases e⟩)

/-- Links of other threads that are not popped stay. -/
theorem waitNext_other (h : CallStep s s' cur a c r e) (hi : WaitInv s) {t : ThreadId} (ht : t ≠ cur) (hn : e.wakes ≠ some t) :
    waitNextOf s'.k t = waitNextOf s.k t := by
  have hq := h.eff.queues
  have hsingle : ∀ p v, waitersOf s.k p = some v → waitNextOf s.k v = none := fun p v hv => (hi.head p v hv).2
  cases e with
  | blocked p => exact hq.2.1 t ht
  | handed n w => exact (Popped.single hq (hsingle _)).2.2 t fun e => hn (by rw [e]; rfl)
  | woken σ w => exact (Popped.single hq (hsingle _)).2.2 t fun e => hn (by rw [e]; rfl)
  | reset n => exact hq.2 t
  | quiet => exact SameQueues.waitNext hq t
  | taken n => exact SameQueues.waitNext hq t
  | freed n => exact SameQueues.waitNext hq.2 t

/-- A woken thread was at the head of the queue it waited in. -/
theorem woken_waited (h : CallStep s s' cur a c r e) (hi : WaitInv s) {w : ThreadId} (hw : e.wakes = some w) :
    ∃ o, waitsFor s w o ∧ waitersOf s.k o = some w ∧ ¬ waitsFor s' w o ∧
      ((∃ m, o = .mutex m ∧ e = .handed m w) ∨ ∃ σ, o = .sem σ ∧ e = .woken σ w) := by
  have hq := h.eff.queues
  have hsingle : ∀ p v, waitersOf s.k p = some v → waitNextOf s.k v = none := fun p v hv => (hi.head p v hv).2
  cases e with
  | handed n v =>
    cases hw
    have h1 := (Popped.single hq (hsingle _)).1
    refine ⟨.mutex n, (hi.head _ _ h1).1, h1, fun hn => hn.2 ?_, Or.inl ⟨n, rfl, rfl⟩⟩
    rw [h.eff.owner]
    exact if_pos rfl
  | woken σ v =>
    cases hw
    have h1 := (Popped.single hq (hsingle _)).1
    refine ⟨.sem σ, (hi.head _ _ h1).1, h1, fun hn => ?_, Or.inr ⟨σ, rfl, rfl⟩⟩
    have hst := hn.2
    rw [h.eff.state] at hst
    have hr : Event.stateAfter cur s.k w (.woken σ w) = .ready := if_pos rfl
    rw [hr] at hst
    cases hst
  | quiet => cases hw
  | taken n => cases hw
  | blocked p => cases hw
  | freed n => cases hw
  | reset n => cases hw

/-- A head that stays is another thread that is still waiting. -/
theorem head_stays (h : CallStep s s' cur a c r e) (hi : WaitInv s) {o : WaitObj} {w : ThreadId}
    (hw : waitersOf s.k o = some w) (he : e ≠ .blocked o) (hn : e.wakes ≠ some w) :
    w ≠ cur ∧ waitsFor s' w o ∧ waitNextOf s'.k w = none := by
  obtain ⟨hwait, hnext⟩ := hi.head o w hw
  have hne : w ≠ cur := by
    intro hwc
    subst hwc
    -- it is in `mutex_lock` again, and the mutex has another owner: it blocks
    obtain ⟨m, rfl, rfl⟩ := h.calling.waiting hwait
    have hout := h.out
    cases hout with
    | relock _ ho => exact hwait.2 ho
    | lock _ ho =>
      rw [hi.free m ho] at hw
      cases hw
    | lockBlocks _ p ho hp => exact he rfl
  exact ⟨hne, h.still_waits hne hwait hn, (h.waitNext_other hi hne hn).trans hnext⟩

theorem waitInv (h : CallStep s s' cur a c r e) (hi : WaitInv s) (hs : Steady s a cur)
    (hb : ∀ o, e = .blocked o → isReady s.k cur ∨ waitersOf s.k o = none) : WaitInv s' := by
  refine ⟨fun o w hw => ?_, fun m ho => ?_, fun t o hw => ?_⟩
  · rcases h.queues hi o with ⟨he, hq⟩ | ⟨v, -, -, hq, -⟩ | ⟨hq, he⟩
    · rw [hq] at hw
      cases hw
      refine ⟨h.caller_waits he, ?_⟩
      subst he
      refine h.eff.queues.2.2.trans ?_
      rcases hb o rfl with hr | hnone
      · exact if_pos hr
      · rw [hnone, ite_self]
    · rw [hq] at hw
      cases hw
    · rw [hq] at hw
      refine (h.head_stays hi hw he fun hv => ?_).2
      -- a woken head leaves its queue empty
      obtain ⟨p, hwp, -, -, hp⟩ := h.woken_waited hi hv
      have hop := waitsFor_unique (hi.head o w hw).1 hwp
      subst hop
      rcases h.queues hi o with ⟨he', -⟩ | ⟨-, -, -, hq', -⟩ | ⟨-, -⟩
      · exact he he'
      · rw [hq, hw] at hq'
        cases hq'
      · have hqs := h.eff.queues
        have hsingle : ∀ p v, waitersOf s.k p = some v → waitNextOf s.k v = none := fun p v hv => (hi.head p v hv).2
        rcases hp with ⟨m, rfl, rfl⟩ | ⟨σ, rfl, rfl⟩
        · rw [(Popped.single hqs (hsingle _)).2.1, hw] at hq
          cases hq
        · rw [(Popped.single hqs (hsingle _)).2.1, hw] at hq
          cases hq
  · -- a mutex without owner has an empty queue
    have hown := (h.eff.owner m).symm.trans ho
    rcases h.queues hi (.mutex m) with ⟨he, -⟩ | ⟨v, -, -, hq, -⟩ | ⟨hq, -⟩
    · subst he
      have hout := h.out
      cases hout with
      | lockBlocks _ p hp _ =>
        have : ownerOf s.k m = none := hown
        rw [hp] at this
        cases this
    · exact hq
    · rw [hq]
      have hq0 := h.eff.queues
      cases e with
      | freed n =>
        by_cases hn : m = n
        · rw [hn]
          exact hq0.1
        · exact hi.free m ((if_neg hn).symm.trans hown)
      | taken n =>
        by_cases hn : m = n
        · have : some cur = none := (if_pos hn).symm.trans hown
          cases this
        · exact hi.free m ((if_neg hn).symm.trans hown)
      | handed n w =>
        by_cases hn : m = n
        · have : some w = none := (if_pos hn).symm.trans hown
          cases this
        · exact hi.free m ((if_neg hn).symm.trans hown)
      | quiet => exact hi.free m hown
      | blocked p => exact hi.free m hown
      | woken σ w => exact hi.free m hown
      | reset n => exact hi.free m hown
  · -- whoever waits is BLOCKED
    by_cases ht : t = cur
    · subst ht
      have he := h.caller_blocked hs hw
      subst he
      exact (h.eff.state t).trans (if_pos rfl)
    · have hw0 := h.waited ht hw
      have hst := hi.asleep t o hw0
      have hnw : e.wakes ≠ some t := by
        intro hv
        obtain ⟨p, hwp, -, hnp, -⟩ := h.woken_waited hi hv
        rw [waitsFor_unique hw0 hwp] at hw
        exact hnp hw
      rw [h.eff.state]
      have hne : ∀ w, e.wakes = some w → t ≠ w := fun w hv e => hnw (by rw [hv, e])
      cases e with
      | blocked p => exact (if_neg ht).trans hst
      | handed n w => exact (if_neg (hne w rfl)).trans hst
      | woken σ w => exact (if_neg (hne w rfl)).trans hst
      | quiet => exact hst
      | taken n => exact hst
      | freed n => exact hst
      | reset n => exact hst

theorem noneLost (h : CallStep s s' cur a c r e) (hi : WaitInv s) (hl : NoneLost s) (hs : Steady s a cur)
    (hq : ∀ o, e = .blocked o → waitersOf s.k o = none) : NoneLost s' := by
  intro o t hw
  by_cases ht : t = cur
  · subst ht
    have he := h.caller_blocked hs hw
    subst he
    exact (h.eff.queues.1 o).trans (if_pos rfl)
  · have hw0 := h.waited ht hw
    have hhead := hl o t hw0
    rcases h.queues hi o with ⟨he, -⟩ | ⟨v, hv, hvo, -, hm⟩ | ⟨hsame, -⟩
    · rw [hq o he] at hhead
      cases hhead
    · -- the popped head is `t`, which no longer waits
      rw [hhead] at hvo
      cases hvo
      obtain ⟨p, hwp, -, hnp, -⟩ := h.woken_waited hi hv
      rw [waitsFor_unique hw0 hwp] at hw
      exact absurd hw hnp
    · rw [hsame]
      exact hhead

end CallStep

/-! ## Any step -/

theorem callStep_of {s s' : Sys} {cur : ThreadId} {a : Act} {c : Call} {r : Ret} {e : Event} (hc : Calling s cur a c)
    (ho : Outcome s.k cur c r e) (he : Effect cur s.k s'.k e) (hr : SameRecord (s.record cur c r) s') :
    CallStep s s' cur a c r e :=
  ⟨hc, ho, he, fun t => by rw [hr.cont, cont_record]⟩

/-- The return of a call, unless the caller still sleeps. -/
theorem finish_waits {s : Sys} {cur : ThreadId} {a : Act} {c : Call} {r : Int} (ha : a = .resume)
    (hcont : s.cont cur = .returning c r) (hs : Steady s a cur) (t : ThreadId) (o : WaitObj) :
    waitsFor (s.finish cur c) t o ↔ waitsFor s t o := by
  by_cases ht : t = cur
  · subst ht
    have hno : ¬ waitsFor (s.finish t c) t o := by
      cases o with
      | mutex m => exact fun h => by simp [waitsFor, Sys.finish] at h
      | sem σ => exact fun h => by simp [waitsFor, Sys.finish] at h
    refine ⟨fun h => absurd h hno, fun h => ?_⟩
    cases o with
    | mutex m =>
      have := hcont.symm.trans h.1
      cases this
    | sem σ =>
      have hr := hs σ (Or.inr ⟨ha, 0, h.1⟩)
      exact absurd hr (not_ready_iff.mpr h.2)
  · have hc : (s.finish cur c).cont t = s.cont t := by simp [Sys.finish, ht]
    cases o with
    | mutex m => simp only [waitsFor, hc]; rfl
    | sem σ => simp only [waitsFor, hc]; rfl

theorem sched_waits {s s' : Sys} (hs : SameSync s.k s'.k) (hr : SameRecord s s') (t : ThreadId) (o : WaitObj) :
    waitsFor s' t o ↔ waitsFor s t o := by
  cases o with
  | mutex m => simp only [waitsFor, hr.cont, hs.own.owner]
  | sem σ => simp only [waitsFor, hr.cont, hs.wait.state]

theorem WaitInv.congr {s s' : Sys} (hi : WaitInv s) (hk : SameSync s.k s'.k)
    (hw : ∀ t o, waitsFor s' t o ↔ waitsFor s t o) : WaitInv s' := by
  refine ⟨fun o w h => ?_, fun m h => ?_, fun t o h => ?_⟩
  · rw [hk.wait.waiters] at h
    rw [hw, hk.wait.waitNext]
    exact hi.head o w h
  · rw [hk.wait.waiters]
    exact hi.free m ((hk.own.owner m).symm.trans h)
  · rw [hk.wait.state]
    exact hi.asleep t o ((hw t o).mp h)

theorem NoneLost.congr {s s' : Sys} (hl : NoneLost s) (hk : SameSync s.k s'.k)
    (hw : ∀ t o, waitsFor s' t o ↔ waitsFor s t o) : NoneLost s' := by
  intro o t h
  rw [hk.wait.waiters]
  exact hl o t ((hw t o).mp h)

/-- A step keeps `WaitInv` if the running thread is READY where that matters. -/
theorem waitInv_step {b : Build} {fuel : Nat} {s s' : Sys} {a : Act} {cur : ThreadId} (hi : WaitInv s)
    (hcur : s.k.cpu.currentThread = some cur) (hst : Steady s a cur)
    (hb : ∀ o, blocksOn s a = some o → isReady s.k cur ∨ waitersOf s.k o = none) (hs : s.step b fuel a = .ok s') :
    WaitInv s' := by
  obtain ⟨cur', hcur', hcase⟩ := Sys.step_sync hs
  rw [hcur] at hcur'
  cases hcur'
  cases hcase with
  | call c r e _ _ _ hcall _ _ _ _ hout heff _ hrec =>
    refine (callStep_of hcall hout heff hrec).waitInv hi hst fun o he => hb o ?_
    rw [hcall.blocksOn hcur, hout.blocks, he]
    rfl
  | finish c r ha hcont hs' =>
    subst hs'
    exact hi.congr (SameSync.refl s.k) (finish_waits ha hcont hst)
  | sched _ hsync hrec => exact hi.congr hsync (sched_waits hsync hrec)

theorem noneLost_step {b : Build} {fuel : Nat} {s s' : Sys} {a : Act} {cur : ThreadId} (hi : WaitInv s) (hl : NoneLost s)
    (hcur : s.k.cpu.currentThread = some cur) (hst : Steady s a cur) (hq : QuietBlock s a)
    (hs : s.step b fuel a = .ok s') : NoneLost s' := by
  obtain ⟨cur', hcur', hcase⟩ := Sys.step_sync hs
  rw [hcur] at hcur'
  cases hcur'
  cases hcase with
  | call c r e _ _ _ hcall _ _ _ _ hout heff _ hrec =>
    refine (callStep_of hcall hout heff hrec).noneLost hi hl hst fun o he => hq o ?_
    rw [hcall.blocksOn hcur, hout.blocks, he]
    rfl
  | finish c r ha hcont hs' =>
    subst hs'
    exact hl.congr (SameSync.refl s.k) (finish_waits ha hcont hst)
  | sched _ hsync hrec => exact hl.congr hsync (sched_waits hsync hrec)

/-! ## The running thread -/

/-- A woken thread is one of those that wait. -/
theorem woken_known {s : Sys} {cur w : ThreadId} {k' : Kernel} {e : Event} (hi : WaitInv s) (hq : e.Queues cur s.k k')
    (hw : e.wakes = some w) : ∃ o, waitsFor s w o := by
  have hsingle : ∀ p v, waitersOf s.k p = some v → waitNextOf s.k v = none := fun p v hv => (hi.head p v hv).2
  cases e with
  | handed n v =>
    cases hw
    exact ⟨_, (hi.head _ _ (Popped.single hq (hsingle _)).1).1⟩
  | woken σ v =>
    cases hw
    exact ⟨_, (hi.head _ _ (Popped.single hq (hsingle _)).1).1⟩
  | quiet => cases hw
  | taken n => cases hw
  | blocked p => cases hw
  | freed n => cases hw
  | reset n => cases hw

theorem waitsFor_inside {s : Sys} {t : ThreadId} {o : WaitObj} (h : waitsFor s t o) : s.cont t ≠ .user := by
  cases o with
  | mutex m =>
    rw [h.1]
    exact fun e => by cases e
  | sem σ =>
    rw [h.1]
    exact fun e => by cases e

/-- A call that does not block leaves its caller READY. -/
theorem Effect.caller_ready {cur : ThreadId} {k k' : Kernel} {e : Event} (h : Effect cur k k' e) (hr : isReady k cur)
    (he : ∀ o, e ≠ .blocked o) : isReady k' cur := by
  have hst : stateOf k' cur = .ready := by
    rw [h.state]
    have hr' : stateOf k cur = .ready := hr
    cases e with
    | blocked o => exact absurd rfl (he o)
    | handed n w =>
      show (if cur = w then TState.ready else stateOf k cur) = .ready
      split
      · rfl
      · exact hr'
    | woken σ w =>
      show (if cur = w then TState.ready else stateOf k cur) = .ready
      split
      · rfl
      · exact hr'
    | quiet => exact hr'
    | taken n => exact hr'
    | freed n => exact hr'
    | reset n => exact hr'
  exact hst

/-- Every step keeps the run queue sound and some thread running; with another READY
    thread whenever the running one blocks, the running thread is always READY. -/
theorem live_step {b : Build} {fuel : Nat} {ts l : List ThreadId} {s s' : Sys} {a : Act} {cur : ThreadId} (hl : Live ts s l cur)
    (hi : WaitInv s) (hs : s.step b fuel a = .ok s') :
    ∃ l' n, Live ts s' l' n ∧
      (isReady s.k cur → (blocksOn s a ≠ none → ∃ t ∈ ts, t ≠ cur ∧ isReady s.k t) → isReady s'.k n) := by
  obtain ⟨cur', hcur', hcase⟩ := Sys.step_cases hs
  rw [hl.current] at hcur'
  cases hcur'
  cases hcase with
  | call c r k0 k2 k3 hcall hb hcl hs' =>
    subst hs'
    have h0 : SameSync s.k k0 ∧ k0.cpu.currentThread = some cur ∧ RunQueue k0 ts l ∧ k0.cpu.irqDepth = 0 := by
      rcases hcl.before with rfl | rfl
      · exact ⟨SameSync.refl _, hl.current, hl.queue, hl.irqDepth⟩
      · exact ⟨SameSync.setPreemptCnt _ _, hl.current, hl.queue.congr (fun _ => rfl) (fun _ => rfl) rfl rfl, hl.irqDepth⟩
    obtain ⟨e, hout, hdid⟩ := callBody_outcome h0.2.1 hb
    have hq := hdid.line ts l h0.2.2.1 hl.currentIn fun w hw => by
      obtain ⟨o, ho⟩ := woken_known hi (hdid.queues.before h0.1) hw
      exact hl.inside w (waitsFor_inside ho)
    have hin : ∀ t, (s.record cur c r).cont t ≠ .user → t ∈ ts := by
      intro t ht
      by_cases htc : t = cur
      · rw [htc]
        exact hl.currentIn
      · rw [cont_record, if_neg htc] at ht
        exact hl.inside t ht
    have hready : (∀ o, e ≠ .blocked o) → isReady s.k cur → isReady k2 cur := fun he hr =>
      hdid.toEffect.caller_ready ((h0.1.wait.ready cur).mpr hr) he
    cases hcl with
    | unprotected m hc hk0 hk3 =>
      subst hk3 hk0 hc
      refine ⟨_, cur, Live.settle .tail hq (hdid.current.trans hl.current) hl.currentIn (hdid.preemptCnt.trans hl.preemptCnt)
        (hdid.irqDepth.trans hl.irqDepth) hin, fun hr _ => settle_ready (hready (fun o he => ?_) hr)⟩
      subst he
      cases hout
    | enable hk0 hen =>
      subst hk0
      have hcnt : k2.cpu.preemptCnt = 1 := by
        rw [hdid.preemptCnt]
        show s.k.cpu.preemptCnt + 1 = 1
        rw [hl.preemptCnt]
      have hcur2 := hdid.current.trans hl.current
      have hd2 := hdid.irqDepth.trans hl.irqDepth
      have hsw := preemptEnable_switched hq hcur2 hl.currentIn hcnt hd2 hen
      have hq2 : RunQueue (k2.setPreemptCnt 0) ts (e.lineAfter cur (preemptDisable s.k) l) :=
        hq.congr (fun _ => rfl) (fun _ => rfl) rfl rfl
      obtain ⟨n, hlive, hrd⟩ := hsw.live .tail hq2 hl.currentIn rfl hd2 hin
      refine ⟨_, n, hlive, fun hr hother => hrd fun hstay => ?_⟩
      -- a caller that blocked cannot be the one that goes on
      by_cases he : ∃ o, e = .blocked o
      · have hreq := hdid.request (Or.inr he)
        obtain ⟨o, rfl⟩ := he
        have hblk : blocksOn s a ≠ none := by
          rw [hcall.blocksOn hl.current, (hout.before h0.1).blocks]
          exact fun e => by cases e
        obtain ⟨t, hts, htc, htr⟩ := hother hblk
        have htl : t ∈ l.erase cur := (List.mem_erase_of_ne htc).mpr ((hl.queue.mem t).mpr ⟨hts, htr⟩)
        rcases hstay with h | h | h
        · exact absurd h hreq
        · exact absurd h (fun hm => (hl.queue.ring.nodup.mem_erase_iff.mp hm).1 rfl)
        · have h' : l.erase cur = [] := h
          rw [h'] at htl
          cases htl
      · exact hready (fun o ho => he ⟨o, ho⟩) hr
  | finish c r ha hcont hs' =>
    subst hs'
    refine ⟨l, cur, ⟨hl.queue, hl.current, hl.currentIn, hl.preemptCnt, hl.irqDepth, fun t ht => ?_⟩, fun hr _ => hr⟩
    by_cases htc : t = cur
    · rw [htc]
      exact hl.currentIn
    · exact hl.inside t (by simpa [Sys.finish, htc] using ht)
  | yield k ha hk hs' =>
    subst hs'
    have hsw := threadYield_switched hl.queue hl.current hl.currentIn hk
    obtain ⟨n, hlive, hrd⟩ := hsw.live .yield hl.queue hl.currentIn hl.preemptCnt hl.irqDepth hl.inside
    exact ⟨l, n, hlive, fun hr _ => hrd fun _ => hr⟩
  | irq intid guardOk r k1 k ha h1 hk hs' =>
    subst hs'
    have hsw := irq_switched hl.queue hl.current hl.currentIn h1 hk
    obtain ⟨n, hlive, hrd⟩ := hsw.live .tail hl.queue hl.currentIn hl.preemptCnt hl.irqDepth hl.inside
    exact ⟨l, n, hlive, fun hr _ => hrd fun _ => hr⟩

/-! ## Runs -/

/-- Some thread runs, and it is READY. -/
def Awake (ts : List (ThreadId × Int)) (s : Sys) : Prop := ∃ l cur, Live (ts.map Prod.fst) s l cur ∧ isReady s.k cur

theorem OtherReady.other {ts : List (ThreadId × Int)} {s : Sys} {a : Act} {cur : ThreadId} (h : OtherReady ts s a)
    (hc : s.k.cpu.currentThread = some cur) (hb : blocksOn s a ≠ none) :
    ∃ t ∈ ts.map Prod.fst, t ≠ cur ∧ isReady s.k t := by
  obtain ⟨t, ht, htc, hr⟩ := h hb
  exact ⟨t, ht, fun e => htc (by rw [hc, e]), hr⟩

/-- With another READY thread whenever one blocks, a READY thread runs. -/
theorem awake_run {b : Build} {ok : Sys → Act → Prop} {ts : List (ThreadId × Int)} {counts : SemId → Int} {s : Sys}
    (hok : ∀ s a, ok s a → OtherReady ts s a) (h : Run b ok ts counts s) : WaitInv s ∧ Awake ts s := by
  induction h with
  | boot fuel hn hb => exact ⟨(waitInv_boot (boot_cases hb).1).1, boot_live hn hb⟩
  | step a fuel _ hoka hs ih =>
    obtain ⟨hi, l, cur, hl, hr⟩ := ih
    refine ⟨waitInv_step hi hl.current (Steady.of_ready hr) (fun _ _ => Or.inl hr) hs, ?_⟩
    obtain ⟨l', n, hl', hr'⟩ := live_step hl hi hs
    exact ⟨l', n, hl', hr' hr fun hb => (hok _ a hoka).other hl.current hb⟩

theorem noneLost_run {b : Build} {ts : List (ThreadId × Int)} {counts : SemId → Int} {s : Sys}
    (h : Run b (fun s a => OtherReady ts s a ∧ QuietBlock s a) ts counts s) : NoneLost s := by
  induction h with
  | boot fuel hn hb => exact (waitInv_boot (boot_cases hb).1).2
  | step a fuel hrun hoka hs ih =>
    obtain ⟨hi, l, cur, hl, hr⟩ := awake_run (fun _ _ h => h.1) hrun
    exact noneLost_step hi ih hl.current (Steady.of_ready hr) hoka.2 hs

/-- One waiter a queue, and nobody lost: the queues are exact. -/
theorem exact_of_noneLost {s : Sys} (hi : WaitInv s) (hl : NoneLost s) : WaitQueuesExact s := by
  intro o
  cases hw : waitersOf s.k o with
  | none =>
    refine ⟨[], rfl, List.nodup_nil, fun t => ⟨fun h => (by cases h), fun h => ?_⟩⟩
    rw [hl o t h] at hw
    cases hw
  | some w =>
    obtain ⟨hwait, hnext⟩ := hi.head o w hw
    refine ⟨[w], ⟨rfl, hnext⟩, List.nodup_singleton w, fun t => ⟨fun h => ?_, fun h => ?_⟩⟩
    · rw [List.mem_singleton.mp h]
      exact hwait
    · rw [hl o t h] at hw
      cases hw
      exact List.mem_cons_self

/-- Blocking on an object with a waiter loses that waiter. -/
theorem blocking_loses {b : Build} {fuel : Nat} {s s' : Sys} {a : Act} {cur w : ThreadId} {o : WaitObj} (hi : WaitInv s)
    (hcur : s.k.cpu.currentThread = some cur) (hr : isReady s.k cur) (hb : blocksOn s a = some o)
    (hw : waitersOf s.k o = some w) (hs : s.step b fuel a = .ok s') : waitsFor s' w o ∧ ¬ WaitQueuesExact s' := by
  obtain ⟨cur', hcur', hcase⟩ := Sys.step_sync hs
  rw [hcur] at hcur'
  cases hcur'
  cases hcase with
  | call c r e _ _ _ hcall _ _ _ _ hout heff _ hrec =>
    have hc := callStep_of hcall hout heff hrec
    rw [hcall.blocksOn hcur, hout.blocks] at hb
    have he : e = .blocked o := by
      cases e with
      | blocked p =>
        cases hb
        rfl
      | quiet => cases hb
      | taken m => cases hb
      | freed m => cases hb
      | handed m v => cases hb
      | woken σ v => cases hb
      | reset m => cases hb
    subst he
    have hwait := (hi.head o w hw).1
    have hwc : w ≠ cur := fun e => not_ready_iff.mpr (hi.asleep w o hwait) (e ▸ hr)
    have hstill := hc.still_waits hwc hwait fun e => by cases e
    refine ⟨hstill, fun hex => ?_⟩
    -- the new queue is the caller alone
    obtain ⟨l, hl, -, hmem⟩ := hex o
    obtain ⟨hq, -, hnext⟩ := heff.queues
    have hone : Chain (waitNextOf s'.k) (waitersOf s'.k o) [cur] := ⟨(hq o).trans (if_pos rfl), hnext.trans (if_pos hr)⟩
    rw [Chain.unique hl hone] at hmem
    exact hwc (List.mem_singleton.mp ((hmem w).mpr hstill))
  | finish c r ha hcont hs' =>
    have hno := not_calling_blocksOn hcur (a := a) fun c hc => by
      rw [ha] at hc
      cases hc with
      | again m hm => rw [hcont] at hm; cases hm
    rw [hno] at hb
    cases hb
  | sched hno _ _ =>
    rw [not_calling_blocksOn hcur hno] at hb
    cases hb

/-- In runs in which, whenever a thread blocks, another one is READY and nobody waits for
    the object yet, every wait queue holds exactly the threads that have blocked and not
    been handed the mutex or woken, each once; the next step keeps that if and only if it
    does not block on an object that has a waiter. -/
theorem wait_queues_exact {b : Build} {ts : List (ThreadId × Int)} {counts : SemId → Int} {s : Sys}
    (h : Run b (fun s a => OtherReady ts s a ∧ QuietBlock s a) ts counts s) :
    WaitQueuesExact s ∧ ∀ a fuel s', s.step b fuel a = .ok s' → (WaitQueuesExact s' ↔ QuietBlock s a) := by
  have hlost := noneLost_run h
  obtain ⟨hi, l, cur, hl, hr⟩ := awake_run (fun _ _ h => h.1) h
  refine ⟨exact_of_noneLost hi hlost, fun a fuel s' hs => ⟨fun hex o hb => ?_, fun hq => ?_⟩⟩
  · cases hw : waitersOf s.k o with
    | none => rfl
    | some w => exact absurd hex (blocking_loses hi hl.current hr hb hw hs).2
  · have hi' := waitInv_step hi hl.current (Steady.of_ready hr) (fun _ _ => Or.inl hr) hs
    exact exact_of_noneLost hi' (noneLost_step hi hlost hl.current (Steady.of_ready hr) hq hs)

/-- Thread 0 owns a mutex and thread 1 waits for it. -/
theorem wait_queues_exact_one_waiter :
    ∃ s, Run ⟨.rr, true, false⟩ (fun s a => OtherReady [(0, 10), (1, 10)] s a ∧ QuietBlock s a) [(0, 10), (1, 10)] (fun _ => 0) s ∧
      waitsFor s 1 (.mutex 0) ∧ WaitQueuesExact s := by
  have h0 : Run ⟨.rr, true, false⟩ (fun s a => OtherReady [(0, 10), (1, 10)] s a ∧ QuietBlock s a) [(0, 10), (1, 10)]
    (fun _ => 0) _ := .boot 4 (by decide) rfl
  have h2 := (h0.step (.call (.mutexLock 0)) 4 (by decide) rfl).step .resume 4 (by decide) rfl
  have h4 := (h2.step .yield 4 (by decide) rfl).step (.call (.mutexLock 0)) 4 (by decide) rfl
  exact ⟨_, h4, by decide, (wait_queues_exact h4).1⟩

/-- Thread 0 owns a mutex, threads 1 and 2 block on it, and its queue is thread 2 alone. -/
theorem waiter_lost :
    ∃ s, Run ⟨.rr, true, false⟩ (OtherReady [(0, 10), (1, 10), (2, 10)]) [(0, 10), (1, 10), (2, 10)] (fun _ => 0) s ∧
      waitsFor s 1 (.mutex 0) ∧ waitersOf s.k (.mutex 0) = some 2 ∧ waitNextOf s.k 2 = none ∧ ¬ WaitQueuesExact s := by
  have h0 : Run ⟨.rr, true, false⟩ (OtherReady [(0, 10), (1, 10), (2, 10)]) [(0, 10), (1, 10), (2, 10)] (fun _ => 0) _ :=
    .boot 4 (by decide) rfl
  have h2 := (h0.step (.call (.mutexLock 0)) 4 (by decide) rfl).step .resume 4 (by decide) rfl
  have h4 := (h2.step .yield 4 (by decide) rfl).step (.call (.mutexLock 0)) 4 (by decide) rfl
  have h6 := (h4.step .yield 4 (by decide) rfl).step (.call (.mutexLock 0)) 4 (by decide) rfl
  refine ⟨_, h6, by decide, rfl, rfl, fun hex => ?_⟩
  obtain ⟨l, hl, -, hm⟩ := hex (.mutex 0)
  rw [Chain.unique hl (show Chain _ _ [2] from ⟨rfl, rfl⟩)] at hm
  exact absurd ((hm 1).mpr (by decide)) (by decide)

end Microkernel

/-
  Microkernel.Calls.TwoLocks — the two deadlock fixes of src/sync_lab.cc.

  Any threads, any mutexes. A thread that holds no mutex picks two and takes them by
  `dl_lock_two_ordered` (the one at the lower address first) or by
  `dl_lock_two_trylock_backoff` (`mutex_lock` the first, `mutex_trylock` the second, on
  failure unlock, spin, yield and start over); later it releases both, by
  `dl_unlock_two_ordered` or by two `mutex_unlock` calls. A `MutexId` stands for the
  mutex's address. `Pos` is where a thread is in these functions: `Pos.call` is the call
  it makes there, `Pos.next` where the call's result takes it. The spinning time
  (`backoff_base`, `attempt`) has no effect on the state.

  Who waits for whom: in `mutex_lock` a thread of the first kind holds at most a mutex
  below the one it asks for, a thread of the second kind holds none (`Pos.keeps`). So
  along a chain of waiting threads the mutexes asked for go up.

  Proved (`two_locks`): in every reachable state no threads wait for each other in a
  cycle, and who has returned from either function owns both mutexes.
-/

import Mathlib
import Microkernel.Calls.Accounts
import Microkernel.Lib.WaitGraph

namespace Microkernel

open WaitGraph

/-! ## src/sync_lab.cc -/

inductive Pos where
  /-- In its own code, holding nothing. -/
  | out
  /-- `dl_lock_two_ordered(a, a)`. -/
  | same (a : MutexId)
  /-- `dl_lock_two_ordered(a, b)`, at its first and its second `mutex_lock`. -/
  | lower (a b : MutexId)
  | upper (a b : MutexId)
  /-- `dl_lock_two_trylock_backoff`, at its four calls. -/
  | first (first second : MutexId)
  | second (first second : MutexId)
  | back (first second : MutexId)
  | pause (first second : MutexId)
  /-- Either function has returned. -/
  | both (a b : MutexId)
  /-- At the first and the last `mutex_unlock`. -/
  | release (m n : MutexId)
  | releaseLast (m : MutexId)
  deriving DecidableEq, Repr

def dlLockTwoOrdered (a b : MutexId) : Pos := if a = b then .same a else .lower a b

def dlLockTwoTrylockBackoff (first second : MutexId) : Pos := .first first second

/-- Unlocks in reverse order. -/
def dlUnlockTwoOrdered (a b : MutexId) : Pos :=
  if a = b then .releaseLast a else if a < b then .release b a else .release a b

namespace Pos

def call : Pos → Option Call
  | same a => some (.mutexLock a)
  | lower a b => some (.mutexLock (if a < b then a else b))
  | upper a b => some (.mutexLock (if a < b then b else a))
  | first f _ => some (.mutexLock f)
  | second _ s => some (.mutexTrylock s)
  | back f _ => some (.mutexUnlock f)
  | release m _ => some (.mutexUnlock m)
  | releaseLast m => some (.mutexUnlock m)
  | _ => none

def next (r : Int) : Pos → Pos
  | same a => both a a
  | lower a b => upper a b
  | upper a b => both a b
  | first f s => second f s
  | second f s => if r = 0 then both f s else back f s
  | back f s => pause f s
  | release _ n => releaseLast n
  | releaseLast _ => out
  | p => p

end Pos

structure Lab where
  sys : Sys
  pos : ThreadId → Pos

/-- What the running thread does next. -/
inductive Move where
  | lockOrdered (a b : MutexId)
  | lockBackoff (first second : MutexId)
  | unlockOrdered
  | unlockEach (swap : Bool)
  /-- Go on: make the call of its position, or finish the one it is in. -/
  | run
  | yield
  | irq (intid : Nat) (guardOk : Bool)
  deriving DecidableEq, Repr

def Lab.goto (l : Lab) (t : ThreadId) (p : Pos) : Lab := { l with pos := Function.update l.pos t p }

/-- A step of the system in which the thread keeps its position, or goes to another. -/
def Lab.act (b : Build) (fuel : Nat) (a : Act) (t : ThreadId) (p : Pos) (l : Lab) : Except Halt Lab := do
  let s ← l.sys.step b fuel a
  .ok { sys := s, pos := Function.update l.pos t p }

def Lab.step (b : Build) (fuel : Nat) (mv : Move) (l : Lab) : Except Halt Lab :=
  match l.sys.k.cpu.currentThread with
  | none => .error .disabled
  | some cur =>
    match mv, l.sys.cont cur, l.pos cur with
    | .lockOrdered a b, .user, .out => .ok (l.goto cur (dlLockTwoOrdered a b))
    | .lockBackoff f s, .user, .out => .ok (l.goto cur (dlLockTwoTrylockBackoff f s))
    | .unlockOrdered, .user, .both a b => .ok (l.goto cur (dlUnlockTwoOrdered a b))
    | .unlockEach swap, .user, .both a b => .ok (l.goto cur (if swap then .release b a else .release a b))
    | .run, .user, .pause f s => l.act b fuel .yield cur (.first f s)
    | .run, .user, p =>
      match p.call with
      | some c => l.act b fuel (.call c) cur p
      | none => .error .disabled
    | .run, .locking _, p => l.act b fuel .resume cur p
    | .run, .returning _ r, p => l.act b fuel .resume cur (p.next r)
    | .yield, .user, p => l.act b fuel .yield cur p
    | .irq intid guardOk, _, p => l.act b fuel (.irq intid guardOk) cur p
    | _, _, _ => .error .disabled

/-- The states reached from boot. -/
inductive LabRun (b : Build) (ts : List (ThreadId × Int)) (counts : SemId → Int) : Lab → Prop
  | boot {s : Sys} (fuel : Nat) : (ts.map Prod.fst).Nodup → boot b fuel ts counts = .ok s → LabRun b ts counts ⟨s, fun _ => .out⟩
  | step {l l' : Lab} (mv : Move) (fuel : Nat) : LabRun b ts counts l → l.step b fuel mv = .ok l' → LabRun b ts counts l'

/-- `t` is blocked in `mutex_lock` on a mutex of `u`. -/
def blockedOn (s : Sys) (t u : ThreadId) : Prop := ∃ m, waitsFor s t (.mutex m) ∧ ownerOf s.k m = some u

/-! ## Steps -/

/-- The ways a step goes. -/
inductive LabStep (b : Build) (fuel : Nat) (l l' : Lab) (cur : ThreadId) : Prop
  | acquire (p : Pos) : l.sys.cont cur = .user → l.pos cur = .out →
      (∃ x y, p = dlLockTwoOrdered x y ∨ p = dlLockTwoTrylockBackoff x y) → l' = l.goto cur p → LabStep b fuel l l' cur
  | letGo (x y : MutexId) (p : Pos) : l.sys.cont cur = .user → l.pos cur = .both x y →
      (p = dlUnlockTwoOrdered x y ∨ p = .release x y ∨ p = .release y x) → l' = l.goto cur p → LabStep b fuel l l' cur
  | call (a : Act) (c : Call) : Calling l.sys cur a c → (l.sys.cont cur = .user → (l.pos cur).call = some c) →
      l.sys.step b fuel a = .ok l'.sys → l'.pos = l.pos → LabStep b fuel l l' cur
  | finish (c : Call) (r : Int) : l.sys.cont cur = .returning c r → l.sys.step b fuel .resume = .ok l'.sys →
      l'.pos = Function.update l.pos cur ((l.pos cur).next r) → LabStep b fuel l l' cur
  | sched (a : Act) (p : Pos) : (∀ c, a ≠ .call c) → a ≠ .resume → l.sys.step b fuel a = .ok l'.sys →
      (p = l.pos cur ∨ l.sys.cont cur = .user ∧ ∃ f s, l.pos cur = .pause f s ∧ p = .first f s) →
      l'.pos = Function.update l.pos cur p → LabStep b fuel l l' cur

theorem Lab.act_cases {b : Build} {fuel : Nat} {a : Act} {t : ThreadId} {p : Pos} {l l' : Lab}
    (h : l.act b fuel a t p = .ok l') : l.sys.step b fuel a = .ok l'.sys ∧ l'.pos = Function.update l.pos t p := by
  obtain ⟨s, hs, h⟩ := bind_ok.mp h
  cases h
  exact ⟨hs, rfl⟩

theorem Lab.step_cases {b : Build} {fuel : Nat} {mv : Move} {l l' : Lab} (h : l.step b fuel mv = .ok l') :
    ∃ cur, l.sys.k.cpu.currentThread = some cur ∧ LabStep b fuel l l' cur := by
  unfold Lab.step at h
  split at h
  · cases h
  rename_i cur hcur
  refine ⟨cur, hcur, ?_⟩
  split at h
  · rename_i x y hu hp
    cases h
    exact .acquire _ hu hp ⟨x, y, Or.inl rfl⟩ rfl
  · rename_i f s hu hp
    cases h
    exact .acquire _ hu hp ⟨f, s, Or.inr rfl⟩ rfl
  · rename_i x y hu hp
    cases h
    exact .letGo x y _ hu hp (Or.inl rfl) rfl
  · rename_i swap x y hu hp
    cases h
    refine .letGo x y _ hu hp (Or.inr ?_) rfl
    cases swap
    · exact Or.inl rfl
    · exact Or.inr rfl
  · rename_i f s hu hp
    obtain ⟨hs, hpos⟩ := Lab.act_cases h
    exact .sched _ _ (fun c e => by cases e) (fun e => by cases e) hs (Or.inr ⟨hu, f, s, hp, rfl⟩) hpos
  · rename_i hu _
    split at h
    · rename_i c hc
      obtain ⟨hs, hpos⟩ := Lab.act_cases h
      exact .call _ c (.first c hu) (fun _ => hc) hs (by rw [hpos, Function.update_eq_self])
    · cases h
  · rename_i m hl
    obtain ⟨hs, hpos⟩ := Lab.act_cases h
    refine .call _ (.mutexLock m) (.again m hl) (fun hu => ?_) hs (by rw [hpos, Function.update_eq_self])
    cases hl.symm.trans hu
  · rename_i c r hr
    obtain ⟨hs, hpos⟩ := Lab.act_cases h
    exact .finish c r hr hs hpos
  · obtain ⟨hs, hpos⟩ := Lab.act_cases h
    exact .sched _ _ (fun c e => by cases e) (fun e => by cases e) hs (Or.inl rfl) hpos
  · obtain ⟨hs, hpos⟩ := Lab.act_cases h
    exact .sched _ _ (fun c e => by cases e) (fun e => by cases e) hs (Or.inl rfl) hpos
  · cases h

/-! ## What a position holds -/

namespace Pos

/-- The mutexes held when the call of the position is made. -/
def keeps : Pos → List MutexId
  | upper a b => [if a < b then a else b]
  | second f _ => [f]
  | back f _ => [f]
  | both a b => [a, b]
  | release m n => [m, n]
  | releaseLast m => [m]
  | _ => []

/-- Not on its way to release the pair (a pair of equal mutexes is released by the first unlock). -/
def acquiring : Pos → Bool
  | release _ _ => false
  | releaseLast _ => false
  | _ => true

theorem call_isLockCall {p : Pos} {c : Call} (h : p.call = some c) : c.isLockCall = true := by
  cases p <;> simp [call] at h <;> subst h <;> rfl

section Return

variable {h : ThreadId → MutexId → Bool} {t : ThreadId} {p : Pos} {c : Call} (v : Int)

/-- After a call the thread holds at most what its next position keeps. -/
theorem holdsAfter_keeps (hp : p.call = some c) (hk : ∀ m, h t m = true → m ∈ p.keeps) {m : MutexId}
    (hm : holdsAfter h t c (.value v) t m = true) : m ∈ (p.next v).keeps := by
  rcases holdsAfter_cases hm with ⟨hold, hun⟩ | ⟨-, htook⟩
  · have hmem := hk m hold
    cases p with
    | upper a b =>
      simp only [keeps, List.mem_singleton] at hmem
      simp only [next, keeps, List.mem_cons, List.not_mem_nil, or_false]
      split at hmem
      · exact Or.inl hmem
      · exact Or.inr hmem
    | second f s =>
      simp only [keeps, List.mem_singleton] at hmem
      simp only [next]
      split <;> simp [keeps, hmem]
    | back f s =>
      -- `first` itself is the one that is unlocked
      simp only [keeps, List.mem_singleton] at hmem
      simp only [call, Option.some.injEq] at hp
      exact absurd rfl (hun (by rw [← hp, hmem]))
    | release x y =>
      simp only [call, Option.some.injEq] at hp
      simp only [keeps, List.mem_cons, List.not_mem_nil, or_false] at hmem
      rcases hmem with rfl | rfl
      · exact absurd rfl (hun hp.symm)
      · simp [next, keeps]
    | releaseLast x =>
      simp only [keeps, List.mem_singleton] at hmem
      simp only [call, Option.some.injEq] at hp
      exact absurd rfl (hun (by rw [← hp, hmem]))
    | both a b => cases hp
    | out => cases hp
    | pause f s => cases hp
    | _ => simp [keeps] at hmem
  · -- it holds what the call took
    rcases htook with ⟨rfl, -⟩ | ⟨rfl, hv⟩
    · cases p <;> simp [call] at hp <;> subst hp <;> simp [next, keeps]
      rename_i a b
      by_cases hab : a < b
      · exact Or.inr fun hba => absurd hab (not_lt.mpr hba)
      · exact Or.inl fun hlt => absurd hlt hab
    · cases p <;> simp [call] at hp
      cases hv
      subst hp
      simp [next, keeps]

/-- A thread that is not releasing holds all its next position keeps. -/
theorem keeps_holdsAfter (hp : p.call = some c) (hk : ∀ m ∈ p.keeps, p.acquiring = true → h t m = true)
    (hn : (p.next v).acquiring = true) {m : MutexId} (hm : m ∈ (p.next v).keeps) : holdsAfter h t c (.value v) t m = true := by
  cases p with
  | same a =>
    cases hp
    simp only [next, keeps, List.mem_cons, List.not_mem_nil, or_false, or_self] at hm
    simp [holdsAfter, setHolds_apply, hm]
  | lower a b =>
    cases hp
    simp only [next, keeps, List.mem_singleton] at hm
    simp [holdsAfter, setHolds_apply, hm]
  | upper a b =>
    cases hp
    have hlow := hk (if a < b then a else b) (by simp only [keeps, List.mem_singleton]) rfl
    simp only [next, keeps, List.mem_cons, List.not_mem_nil, or_false] at hm
    simp only [holdsAfter, setHolds_apply, true_and]
    by_cases hab : a < b
    · simp only [if_pos hab] at hlow ⊢
      rcases hm with rfl | rfl <;> simp [hlow]
    · simp only [if_neg hab] at hlow ⊢
      rcases hm with rfl | rfl <;> simp [hlow]
  | first f s =>
    cases hp
    simp only [next, keeps, List.mem_singleton] at hm
    simp [holdsAfter, setHolds_apply, hm]
  | second f s =>
    cases hp
    have hf := hk f (by simp only [keeps, List.mem_singleton]) rfl
    simp only [next] at hm
    by_cases hv : v = 0
    · simp only [hv, if_true, keeps, List.mem_cons, List.not_mem_nil, or_false] at hm
      simp only [holdsAfter, hv, if_true, setHolds_apply, true_and]
      rcases hm with rfl | rfl <;> simp [hf]
    · simp only [hv, if_false, keeps, List.mem_singleton] at hm
      simp [holdsAfter, hv, hm, hf]
  | back f s => simp [next, keeps] at hm
  | release x y => cases hn
  | releaseLast x => simp [next, keeps] at hm
  | both a b => cases hp
  | out => cases hp
  | pause f s => cases hp

end Return

/-- Whoever asks for a mutex in `mutex_lock` holds only lower ones. -/
theorem keeps_below {p : Pos} {m n : MutexId} (hp : p.call = some (.mutexLock m)) (hn : n ∈ p.keeps) (hne : n ≠ m) : n < m := by
  cases p with
  | upper a b =>
    simp only [call, Option.some.injEq, Call.mutexLock.injEq] at hp
    simp only [keeps, List.mem_singleton] at hn
    split at hp
    · rename_i hab
      rw [if_pos hab] at hn
      rw [hn, ← hp]
      exact hab
    · rename_i hab
      rw [if_neg hab] at hn
      rw [hn, ← hp] at hne ⊢
      exact lt_of_le_of_ne (not_lt.mp hab) hne
  | _ => simp [call, keeps] at hp hn

end Pos

/-! ## The invariant -/

/-- The position a thread is at, or goes to when the call it is in returns. -/
def Lab.now (l : Lab) (t : ThreadId) : Pos :=
  match l.sys.cont t with
  | .returning _ r => (l.pos t).next r
  | _ => l.pos t

structure Placed (l : Lab) (t : ThreadId) : Prop where
  locking : ∀ m, l.sys.cont t = .locking m → (l.pos t).call = some (.mutexLock m)
  may : ∀ m, l.sys.holds t m = true → m ∈ (l.now t).keeps
  must : ∀ m ∈ (l.now t).keeps, (l.now t).acquiring = true → l.sys.holds t m = true

section Steps

variable {b : Build} {fuel : Nat} {l l' : Lab} {cur t : ThreadId}

theorem Placed.congr (h : Placed l t) (hc : l'.sys.cont t = l.sys.cont t) (hh : l'.sys.holds t = l.sys.holds t)
    (hp : l'.pos t = l.pos t) : Placed l' t := by
  have hnow : l'.now t = l.now t := by
    unfold Lab.now
    rw [hc, hp]
  refine ⟨fun m hm => ?_, fun m hm => ?_, fun m hm ha => ?_⟩
  · rw [hp]
    exact h.locking m (hc.symm.trans hm)
  · rw [hnow]
    exact h.may m (by rwa [hh] at hm)
  · rw [hnow] at hm ha
    rw [hh]
    exact h.must m hm ha

/-- Another position with the same mutexes, at a moment the thread is in no call. -/
theorem Placed.moved (h : Placed l t) {p : Pos} (hu : l'.sys.cont t = .user) (hh : l'.sys.holds t = l.sys.holds t)
    (hp : l'.pos t = p) (hmay : ∀ m, m ∈ (l.now t).keeps → m ∈ p.keeps)
    (hmust : ∀ m, m ∈ p.keeps → p.acquiring = true → (l.now t).acquiring = true ∧ m ∈ (l.now t).keeps) : Placed l' t := by
  have hnow : l'.now t = p := by
    unfold Lab.now
    rw [hu, hp]
  refine ⟨fun m hm => ?_, fun m hm => ?_, fun m hm ha => ?_⟩
  · cases hu.symm.trans hm
  · rw [hnow]
    rw [hh] at hm
    exact hmay m (h.may m hm)
  · rw [hnow] at hm ha
    rw [hh]
    obtain ⟨hacq, hmem⟩ := hmust m hm ha
    exact h.must m hmem hacq

/-- A call by the thread itself. -/
theorem Placed.called (h : Placed l cur) {a : Act} {c : Call} {r : Ret} {e : Event} (hcall : Calling l.sys cur a c)
    (hpos : (l.pos cur).call = some c) (hout : Outcome l.sys.k cur c r e) (hc : l'.sys.cont cur = r.cont c)
    (hh : l'.sys.holds cur = holdsAfter l.sys.holds cur c r cur) (hp : l'.pos = l.pos) : Placed l' cur := by
  have hnow : l.now cur = l.pos cur := by
    unfold Lab.now
    cases hcall with
    | first c hu => rw [hu]
    | again m hl => rw [hl]
  have hmay := h.may
  have hmust := h.must
  rw [hnow] at hmay hmust
  cases r with
  | value v =>
    have hnow' : l'.now cur = (l.pos cur).next v := by
      unfold Lab.now
      rw [hc, hp]
      rfl
    refine ⟨fun m hm => ?_, fun m hm => ?_, fun m hm ha => ?_⟩
    · cases hc.symm.trans hm
    · rw [hnow']
      rw [hh] at hm
      exact Pos.holdsAfter_keeps v hpos hmay hm
    · rw [hnow'] at hm ha
      rw [hh]
      exact Pos.keeps_holdsAfter v hpos hmust ha hm
  | again n =>
    -- it blocked: nothing changes hands
    have hlock : c = .mutexLock n := by
      cases hout
      rfl
    subst hlock
    have hnow' : l'.now cur = l.pos cur := by
      unfold Lab.now
      rw [hc, hp]
      rfl
    have hsame : l'.sys.holds cur = l.sys.holds cur := hh
    refine ⟨fun m hm => ?_, fun m hm => ?_, fun m hm ha => ?_⟩
    · cases hc.symm.trans hm
      rw [hp]
      exact hpos
    · rw [hnow']
      rw [hsame] at hm
      exact hmay m hm
    · rw [hnow'] at hm ha
      rw [hsame]
      exact hmust m hm ha

theorem placed_step (h : ∀ t, Placed l t) (hcur : l.sys.k.cpu.currentThread = some cur) (hs : LabStep b fuel l l' cur) :
    ∀ t, Placed l' t := by
  intro t
  cases hs with
  | acquire p hu hout hp hl =>
    subst hl
    by_cases htc : t = cur
    · subst htc
      have hnow : l.now t = .out := by
        unfold Lab.now
        rw [hu]
        exact hout
      have hkeeps : p.keeps = [] := by
        obtain ⟨x, y, rfl | rfl⟩ := hp
        · unfold dlLockTwoOrdered
          split <;> rfl
        · rfl
      refine (h t).moved (p := p) hu rfl (by simp [Lab.goto]) (fun m hm => ?_) fun m hm => ?_
      · rw [hnow] at hm
        cases hm
      · rw [hkeeps] at hm
        cases hm
    · exact (h t).congr rfl rfl (by simp [Lab.goto, htc])
  | letGo x y p hu hboth hp hl =>
    subst hl
    by_cases htc : t = cur
    · subst htc
      have hnow : l.now t = .both x y := by
        unfold Lab.now
        rw [hu]
        exact hboth
      have hrel : p.acquiring = false ∧ ∀ m, m = x ∨ m = y → m ∈ p.keeps := by
        rcases hp with rfl | rfl | rfl
        · unfold dlUnlockTwoOrdered
          split
          · rename_i hxy
            simp [Pos.acquiring, Pos.keeps, hxy]
          · split <;> simp [Pos.acquiring, Pos.keeps, or_comm]
        · simp [Pos.acquiring, Pos.keeps]
        · simp [Pos.acquiring, Pos.keeps, or_comm]
      refine (h t).moved (p := p) hu rfl (by simp [Lab.goto]) (fun m hm => ?_) fun m hm ha => ?_
      · rw [hnow] at hm
        exact hrel.2 m (by simpa [Pos.keeps] using hm)
      · rw [hrel.1] at ha
        cases ha
    · exact (h t).congr rfl rfl (by simp [Lab.goto, htc])
  | call a c hcall huser hstep hp =>
    have hpos : (l.pos cur).call = some c := by
      cases hcall with
      | first c hu => exact huser hu
      | again m hl => exact (h cur).locking m hl
    obtain ⟨cur', hcur', hst⟩ := Sys.step_sync hstep
    rw [hcur] at hcur'
    cases hcur'
    cases hst with
    | call c' r e _ _ _ hcall' _ _ _ _ hout _ _ hrec =>
      have hsame : c' = c := by
        cases hcall with
        | first c hu =>
          cases hcall'
          rfl
        | again m hl =>
          cases hcall' with
          | again n hn =>
            cases hl.symm.trans hn
            rfl
      subst hsame
      by_cases htc : t = cur
      · subst htc
        refine (h t).called hcall hpos hout ?_ (by rw [hrec.holds]; rfl) hp
        rw [hrec.cont, cont_record, if_pos rfl]
      · refine (h t).congr ?_ (funext fun m => ?_) (by rw [hp])
        · rw [hrec.cont, cont_record, if_neg htc]
        · rw [hrec.holds]
          exact holdsAfter_other l.sys.holds htc c' r m
    | finish c' r ha hcont _ =>
      cases hcall with
      | first c hu => cases hu.symm.trans hcont
      | again m hl => cases hl.symm.trans hcont
    | sched hno _ _ => exact absurd hcall (hno c)
  | finish c r hcont hstep hp =>
    obtain ⟨cur', hcur', hst⟩ := Sys.step_sync hstep
    rw [hcur] at hcur'
    cases hcur'
    have hfin : l'.sys = l.sys.finish cur c := by
      cases hst with
      | call c' _ _ _ _ _ hcall' _ _ _ _ _ _ _ _ =>
        cases hcall' with
        | again n hn => cases hcont.symm.trans hn
      | finish c' r' _ hcont' hs' =>
        cases hcont.symm.trans hcont'
        exact hs'
      | sched _ _ hrec =>
        simp only [Sys.step, hcur, hcont] at hstep
        exact (Except.ok.inj hstep).symm
    by_cases htc : t = cur
    · subst htc
      have hnow : l.now t = (l.pos t).next r := by
        unfold Lab.now
        rw [hcont]
      refine (h t).moved (p := (l.pos t).next r) ?_ ?_ ?_ (fun m hm => ?_) fun m hm ha => ?_
      · rw [hfin]
        simp [Sys.finish]
      · rw [hfin]
        rfl
      · rw [hp]
        simp
      · rwa [hnow] at hm
      · rw [hnow]
        exact ⟨ha, hm⟩
    · refine (h t).congr ?_ ?_ ?_
      · rw [hfin]
        simp [Sys.finish, htc]
      · rw [hfin]
        rfl
      · rw [hp]
        simp [htc]
  | sched a p hno hres hstep hp hpos =>
    obtain ⟨cur', hcur', hst⟩ := Sys.step_sync hstep
    rw [hcur] at hcur'
    cases hcur'
    have hrec : SameRecord l.sys l'.sys := by
      cases hst with
      | call c' _ _ _ _ _ hcall' _ _ _ _ _ _ _ _ =>
        cases hcall' with
        | first c hu => exact absurd rfl (hno _)
        | again n hn => exact absurd rfl hres
      | finish c' r' ha _ _ => exact absurd ha hres
      | sched _ _ hrec => exact hrec
    by_cases htc : t = cur
    · subst htc
      rcases hp with rfl | ⟨hu, f, s, hpause, rfl⟩
      · exact (h t).congr (by rw [hrec.cont]) (by rw [hrec.holds]) (by rw [hpos]; simp)
      · have hnow : l.now t = .pause f s := by
          unfold Lab.now
          rw [hu]
          exact hpause
        refine (h t).moved (p := .first f s) (by rw [hrec.cont, hu]) (by rw [hrec.holds]) (by rw [hpos]; simp)
          (fun m hm => ?_) fun m hm => by cases hm
        rw [hnow] at hm
        cases hm
    · exact (h t).congr (by rw [hrec.cont]) (by rw [hrec.holds]) (by rw [hpos]; simp [htc])

end Steps

/-! ## Runs -/

section Runs

variable {b : Build} {ts : List (ThreadId × Int)} {counts : SemId → Int} {l : Lab}

theorem placed_run (h : LabRun b ts counts l) : ∀ t, Placed l t := by
  induction h with
  | boot fuel hn hb =>
    intro t
    have hboot := (boot_cases hb).1
    refine ⟨fun m hm => ?_, fun m hm => ?_, fun m hm => ?_⟩
    · cases (hboot.cont t).symm.trans hm
    · cases (hboot.holds t m).symm.trans hm
    · rw [Lab.now, hboot.cont] at hm
      cases hm
  | step mv fuel _ hs ih =>
    obtain ⟨cur, hcur, hst⟩ := Lab.step_cases hs
    exact placed_step ih hcur hst

/-- Below the positions is a run of lock calls. -/
theorem LabRun.sys (h : LabRun b ts counts l) : Run b LockCalls ts counts l.sys := by
  induction h with
  | boot fuel hn hb => exact .boot fuel hn hb
  | @step l l' mv fuel hrun hs ih =>
    obtain ⟨cur, hcur, hst⟩ := Lab.step_cases hs
    cases hst with
    | acquire p _ _ _ hl =>
      subst hl
      exact ih
    | letGo x y p _ _ _ hl =>
      subst hl
      exact ih
    | call a c hcall huser hstep _ =>
      refine ih.step a fuel (fun c' hc' => ?_) hstep
      subst hc'
      cases hcall with
      | first c hu => exact Pos.call_isLockCall (huser hu)
    | finish c r _ hstep _ => exact ih.step .resume fuel (fun c hc => by cases hc) hstep
    | sched a p hno _ hstep _ _ => exact ih.step a fuel (fun c hc => absurd hc (hno c)) hstep

/-- A thread that waits holds only mutexes below the one it waits for. -/
theorem waits_above (h : LabRun b ts counts l) {t : ThreadId} {m n : MutexId} (hw : waitsFor l.sys t (.mutex m))
    (ho : ownerOf l.sys.k n = some t) : n < m := by
  have hp := placed_run h t
  have hne : n ≠ m := by
    rintro rfl
    exact hw.2 ho
  rcases owner_accounted h.sys n t ho with hold | hlock
  · have hmem := hp.may n hold
    rw [Lab.now, hw.1] at hmem
    exact Pos.keeps_below (hp.locking m hw.1) hmem hne
  · cases hw.1.symm.trans hlock
    exact absurd rfl hne

/-- The mutex a thread waits for; above all of them for a thread that waits for none. -/
def asks (s : Sys) (t : ThreadId) : WithTop MutexId :=
  match s.cont t with
  | .locking m => if ownerOf s.k m = some t then ⊤ else m
  | _ => ⊤

theorem asks_of_waits {s : Sys} {t : ThreadId} {m : MutexId} (hw : waitsFor s t (.mutex m)) : asks s t = m := by
  unfold asks
  rw [hw.1]
  exact if_neg hw.2

theorem asks_cases (s : Sys) (t : ThreadId) : asks s t = ⊤ ∨ ∃ m, waitsFor s t (.mutex m) := by
  unfold asks
  split
  · rename_i m hl
    split
    · exact Or.inl rfl
    · rename_i ho
      exact Or.inr ⟨m, hl, ho⟩
  · exact Or.inl rfl

/-- In every run in which any threads take pairs of mutexes by either function, and release them by either way, no
    threads are blocked in `mutex_lock` on each other's mutexes in a cycle, and a thread that has returned from either
    function owns both mutexes. -/
theorem two_locks (h : LabRun b ts counts l) :
    Acyclic (blockedOn l.sys) ∧
      ∀ t x y, l.pos t = .both x y → ownerOf l.sys.k x = some t ∧ ownerOf l.sys.k y = some t := by
  constructor
  · apply Acyclic.of_rank (asks l.sys)
    intro t u htu
    obtain ⟨m, hw, ho⟩ := htu
    rw [asks_of_waits hw]
    rcases asks_cases l.sys u with htop | ⟨n, hn⟩
    · rw [htop]
      exact WithTop.coe_lt_top m
    · rw [asks_of_waits hn]
      exact WithTop.coe_lt_coe.mpr (waits_above h hn ho)
  · intro t x y hpos
    have hp := placed_run h t
    have hnow : l.now t = .both x y := by
      unfold Lab.now
      split <;> simp [hpos, Pos.next]
    have hold : ∀ m, m = x ∨ m = y → ownerOf l.sys.k m = some t := by
      intro m hm
      apply (ownInv_run h.sys).holds t m
      apply hp.must m
      · rw [hnow]
        simpa [Pos.keeps] using hm
      · rw [hnow]
        rfl
    exact ⟨hold x (Or.inl rfl), hold y (Or.inr rfl)⟩

end Runs

/-- Thread 0 has taken mutexes 0 and 1 in order and is waited for by thread 1, which tries them the other way round. -/
theorem two_locks_blocked :
    ∃ l, LabRun ⟨.rr, true, false⟩ [(0, 10), (1, 10)] (fun _ => 0) l ∧ l.pos 0 = .both 1 0 ∧ blockedOn l.sys 1 0 ∧
      ownerOf l.sys.k 1 = some 0 ∧ Acyclic (blockedOn l.sys) := by
  have h0 : LabRun ⟨.rr, true, false⟩ [(0, 10), (1, 10)] (fun _ => 0) _ := .boot 4 (by decide) rfl
  have h2 := (h0.step (.lockOrdered 1 0) 4 rfl).step .run 4 rfl
  have h5 := ((h2.step .run 4 rfl).step .run 4 rfl).step .run 4 rfl
  have h6 := h5.step .yield 4 rfl
  have h8 := (h6.step (.lockBackoff 1 0) 4 rfl).step .run 4 rfl
  exact ⟨_, h8, rfl, ⟨1, by decide, rfl⟩, ((two_locks h8).2 0 1 0 rfl).1, (two_locks h8).1⟩

end Microkernel

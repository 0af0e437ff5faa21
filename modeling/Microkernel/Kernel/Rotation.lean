/-
  Microkernel.Kernel.Rotation — `prio_pick_next` with `exclude_current` and `rotate_equal`,
  again and again: what `thread_yield` and a used-up time slice do under PRIO.

  A pick starts behind the current thread and takes the first top thread on the way round,
  the current thread last (`pick_first`). So the picks go through the top threads in ring
  order, and come round (`pickRun_eq`). Lower threads and BLOCKED ones may stand anywhere
  between them.

  Proved (`rotation_fair`): every selection is a top thread; the n-th one is at place n,
  modulo their number, in the ring order from the current thread; and any window of as many
  selections as there are top threads has each of them once.
-/

import Microkernel.Kernel.SchedProofs

namespace Microkernel

open Linked

instance (k : Kernel) (l : List ThreadId) : DecidablePred (IsTop k l) := fun t =>
  inferInstanceAs (Decidable (t ∈ l ∧ isReady k t ∧ ∀ u ∈ l, isReady k u → effPrio k u ≤ effPrio k t))

/-- `cur = prio_pick_next(cur, true, true)`, so many times, on a queue that does not change. -/
def pickRun (fuel : Nat) (k : Kernel) : Nat → Option ThreadId → Except Halt (Option ThreadId)
  | 0, cur => .ok cur
  | n + 1, cur => do
    let next ← prioPickNext fuel k cur true true
    pickRun fuel k n next

/-- The top threads of the queue `l`, in the order of `order`. -/
def topsOf (k : Kernel) (l order : List ThreadId) : List ThreadId := order.filter fun t => IsTop k l t

section Picks

variable {k : Kernel} {l : List ThreadId} {fuel : Nat}

theorem mem_topsOf {order : List ThreadId} (hm : ∀ t ∈ l, t ∈ order) (t : ThreadId) : t ∈ topsOf k l order ↔ IsTop k l t := by
  simp only [topsOf, List.mem_filter, decide_eq_true_eq]
  constructor
  · intro h
    exact h.2
  · intro h
    exact ⟨hm t h.1, h⟩

/-- A top thread is a READY one of the best priority. -/
theorem isTop_iff {best : Int} (hle : ∀ t ∈ l, isReady k t → effPrio k t ≤ best) {top : ThreadId} (htop : IsTop k l top)
    (hbest : effPrio k top = best) {t : ThreadId} (ht : t ∈ l) : IsTop k l t ↔ isReady k t ∧ effPrio k t = best := by
  constructor
  · intro h
    exact ⟨h.2.1, (h.unique_prio htop).trans hbest⟩
  · intro h
    exact ⟨ht, h.1, fun u hu hr => h.2 ▸ hle u hu hr⟩

/-- The pick is the first top thread behind the current one, which itself comes last. -/
theorem pick_first (h : RqRing k l) {u : ThreadId} (hu : u ∈ l) (hr : isReady k u) {cur : ThreadId} {others : List ThreadId}
    (hs : Seg (nextOf k) (nextOf k cur) others (some cur)) (hp : (others ++ [cur]).Perm l) (hf : l.length ≤ fuel) :
    prioPickNext fuel k (some cur) true true = .ok (topsOf k l (others ++ [cur])).head? := by
  obtain ⟨hd, hh⟩ : ∃ hd, k.rqHead = some hd := by
    cases l with
    | nil => cases hu
    | cons a l => exact ⟨a, h.cons.1⟩
  obtain ⟨hmax, hmaxT⟩ := rqMaxReadyPriority_spec h hu hr fuel
  obtain ⟨best, hbest⟩ := hmaxT hf
  obtain ⟨hb0, hble, top, htop, htopb⟩ := hmax best hbest
  -- the ring from the successor of the current thread
  have hround : Seg (nextOf k) (nextOf k cur) (others ++ [cur]) (nextOf k cur) := seg_snoc.mpr ⟨hs, rfl⟩
  have hnd : (others ++ [cur]).Nodup := hp.nodup_iff.mpr h.nodup
  have hcur : cur ∉ others := fun hm => (List.nodup_append.mp hnd).2.2 cur hm cur (by simp) rfl
  obtain ⟨s, post, hlist⟩ : ∃ s post, others ++ [cur] = s :: post := by
    cases others with
    | nil => exact ⟨cur, [], rfl⟩
    | cons a others => exact ⟨a, others ++ [cur], rfl⟩
  rw [hlist] at hround hnd
  have hstart : nextOf k cur = some s := hround.1
  rw [hstart] at hround
  have hlen : post.length < fuel := by
    have hperm := hp.length_eq
    rw [hlist, List.length_cons] at hperm
    omega
  have hfind := (ringFind_spec (fun t => decide (isReady k t ∧ effPrio k t = best ∧ (!true ∨ some t ≠ some cur))) hround
    (List.nodup_cons.mp hnd).1 fuel).2 hlen
  -- among the others, what the loop looks for is a top thread
  have hothers : others.find? (fun t => decide (isReady k t ∧ effPrio k t = best ∧ (!true ∨ some t ≠ some cur))) =
      (topsOf k l others).head? := by
    rw [topsOf, ← List.head?_filter]
    congr 1
    apply List.filter_congr
    intro t ht
    have htl : t ∈ l := hp.mem_iff.mp (by simp [ht])
    have hne : t ≠ cur := fun e => hcur (e ▸ ht)
    simp [isTop_iff hble htop htopb htl, hne]
  rw [← hlist, List.find?_append, hothers] at hfind
  have htops : topsOf k l (others ++ [cur]) = topsOf k l others ++ topsOf k l [cur] := List.filter_append ..
  simp only [prioPickNext, hh, hbest, bind, Except.bind, Option.bind_some, hstart, Bool.or_self, if_true, Option.getD_some]
  rw [if_neg (by omega), if_neg (by simp), hfind, htops]
  cases hfirst : topsOf k l others with
  | cons t rest => simp [orSpin]
  | nil =>
    -- then the current thread is the only one
    have honly : IsTop k l cur := by
      have hmem := (mem_topsOf (fun t ht => hp.mem_iff.mpr ht) top).mpr htop
      rw [htops, hfirst, List.nil_append] at hmem
      have heq : top = cur := by simpa using (List.mem_filter.mp hmem).1
      exact heq ▸ htop
    have hbc : curIsBest k (some cur) best = true :=
      curIsBest_iff.mpr ⟨cur, rfl, (isTop_iff hble htop htopb honly.1).mp honly⟩
    simp [orSpin, hbc, topsOf, honly]

/-- The next round starts behind the thread that was picked: the order is turned by one. -/
theorem topsOf_turn {cur t : ThreadId} {l₁ l₂ : List ThreadId} (hskip : topsOf k l l₁ = []) (ht : IsTop k l t) :
    topsOf k l (l₁ ++ t :: l₂ ++ [cur]) = t :: topsOf k l (l₂ ++ [cur]) ∧
      topsOf k l (l₂ ++ cur :: l₁ ++ [t]) = topsOf k l (l₂ ++ [cur]) ++ [t] := by
  unfold topsOf at hskip ⊢
  constructor
  · simp [hskip, ht]
  · simp only [List.filter_append, List.filter_cons, hskip, ht, decide_true, if_true, List.filter_nil]

theorem topsOf_split {order rest : List ThreadId} {t : ThreadId} (h : topsOf k l order = t :: rest) :
    ∃ l₁ l₂, order = l₁ ++ t :: l₂ ∧ topsOf k l l₁ = [] ∧ IsTop k l t := by
  obtain ⟨l₁, l₂, horder, hskip, htop, -⟩ := List.filter_eq_cons_iff.mp h
  refine ⟨l₁, l₂, horder, ?_, of_decide_eq_true htop⟩
  rw [topsOf, List.filter_eq_nil_iff]
  exact hskip

theorem turned_getElem? (t : ThreadId) (rest : List ThreadId) (n : Nat) :
    (rest ++ [t])[n % (rest ++ [t]).length]? = (t :: rest)[(n + 1) % (t :: rest).length]? := by
  have hturn : rest ++ [t] = (t :: rest).rotate 1 := by simp
  have hpos : 0 < (t :: rest).length := by simp
  rw [hturn, List.length_rotate, List.getElem?_rotate (Nat.mod_lt n hpos), Nat.mod_add_mod]

/-- The n-th selection, counted from 0. -/
theorem pickRun_eq (h : RqRing k l) {u : ThreadId} (hu : u ∈ l) (hr : isReady k u) (hf : l.length ≤ fuel) (n : Nat)
    {cur : ThreadId} {others : List ThreadId} (hs : Seg (nextOf k) (nextOf k cur) others (some cur))
    (hp : (others ++ [cur]).Perm l) (hne : topsOf k l (others ++ [cur]) ≠ []) :
    pickRun fuel k (n + 1) (some cur) =
      .ok (topsOf k l (others ++ [cur]))[n % (topsOf k l (others ++ [cur])).length]? := by
  have hpick := pick_first h hu hr hs hp hf
  induction n generalizing cur others with
  | zero =>
    simp only [pickRun, hpick, bind, Except.bind, Nat.zero_mod]
    rw [List.head?_eq_getElem?]
  | succ n ih =>
    obtain ⟨t, rest, htops⟩ := List.exists_cons_of_ne_nil hne
    obtain ⟨l₁, l₂, horder, hskip, htop⟩ := topsOf_split htops
    have hstep : pickRun fuel k (n + 1 + 1) (some cur) = pickRun fuel k (n + 1) (some t) := by
      rw [pickRun, hpick, htops]
      rfl
    rw [hstep]
    rcases List.eq_nil_or_concat l₂ with hnil | ⟨l₂', c, hlast⟩
    · -- the current thread is the only top thread
      subst hnil
      obtain ⟨rfl, hct⟩ := List.append_inj' horder rfl
      have hct : cur = t := by simpa using hct
      subst hct
      have hone : topsOf k l (others ++ [cur]) = [cur] := by
        rw [topsOf, List.filter_append, ← topsOf, hskip]
        simp [htop]
      rw [ih hs hp hne hpick, hone]
      simp [Nat.mod_one]
    · -- another one: the round goes on behind it
      rw [List.concat_eq_append] at hlast
      subst hlast
      rw [← List.cons_append, ← List.append_assoc] at horder
      obtain ⟨rfl, hct⟩ := List.append_inj' horder rfl
      have hct : cur = c := by simpa using hct
      subst hct
      obtain ⟨hfirst, hturn⟩ := @topsOf_turn k l cur t l₁ l₂' hskip htop
      have hs' := Seg.others hs
      have hp' : (l₂' ++ cur :: l₁ ++ [t]).Perm l := by
        refine List.Perm.trans ?_ hp
        rw [List.perm_iff_count]
        intro a
        simp only [List.count_append, List.count_cons, List.count_nil]
        omega
      have hpick' := pick_first h hu hr hs' hp' hf
      have hne' : topsOf k l (l₂' ++ cur :: l₁ ++ [t]) ≠ [] := by
        rw [hturn]
        simp
      rw [ih hs' hp' hne' hpick', hturn, hfirst, turned_getElem?]

end Picks

/-- A window of a list that is gone through again and again is the list, turned. -/
theorem window_eq {α : Type*} {order : List α} {sel : Nat → α} (h : ∀ n, order[n % order.length]? = some (sel n)) (i : Nat) :
    ((List.range order.length).map fun j => sel (i + j)) = order.rotate i := by
  apply List.ext_getElem?
  intro j
  by_cases hj : j < order.length
  · rw [List.getElem?_map, List.getElem?_range hj, List.getElem?_rotate hj, h, Nat.add_comm]
    rfl
  · rw [List.getElem?_eq_none (by simpa using hj), List.getElem?_eq_none (by simpa using hj)]

/-- From any thread of a run queue with a READY thread, the selections go through the top
    threads in ring order, beginning behind the starting thread, and any window of as many
    selections as there are top threads has each of them once. -/
theorem rotation_fair {k : Kernel} {l : List ThreadId} (h : RqRing k l) {u : ThreadId} (hu : u ∈ l) (hr : isReady k u)
    {cur : ThreadId} (hc : cur ∈ l) {fuel : Nat} (hf : l.length ≤ fuel) :
    ∃ l₁ l₂ tops, l = l₁ ++ cur :: l₂ ∧ tops = topsOf k l (l₂ ++ l₁ ++ [cur]) ∧ ∃ sel : Nat → ThreadId,
      (∀ n, pickRun fuel k (n + 1) (some cur) = .ok (some (sel n))) ∧
      (∀ n, IsTop k l (sel n)) ∧
      (∀ n, tops[n % tops.length]? = some (sel n)) ∧
      ∀ i, ((List.range tops.length).map fun j => sel (i + j)).Nodup ∧
        ∀ t, IsTop k l t → t ∈ (List.range tops.length).map fun j => sel (i + j) := by
  obtain ⟨l₁, l₂, rfl⟩ := List.append_of_mem hc
  have hp : (l₂ ++ l₁ ++ [cur]).Perm (l₁ ++ cur :: l₂) := by
    rw [List.perm_iff_count]
    intro a
    simp only [List.count_append, List.count_cons, List.count_nil]
    omega
  obtain ⟨best, hbest⟩ := (rqMaxReadyPriority_spec h hu hr fuel).2 hf
  obtain ⟨-, -, top, htop, -⟩ := (rqMaxReadyPriority_spec h hu hr fuel).1 best hbest
  have hmem := mem_topsOf (k := k) fun t ht => hp.mem_iff.mpr ht
  have hnd : (topsOf k (l₁ ++ cur :: l₂) (l₂ ++ l₁ ++ [cur])).Nodup := (hp.nodup_iff.mpr h.nodup).filter _
  have hne := List.ne_nil_of_mem ((hmem top).mpr htop)
  have hrun := fun n => pickRun_eq h hu hr hf n (Ring.others h) hp hne
  refine ⟨l₁, l₂, _, rfl, rfl, ?_⟩
  generalize topsOf k (l₁ ++ cur :: l₂) (l₂ ++ l₁ ++ [cur]) = tops at hmem hnd hne hrun ⊢
  have hget : ∀ n, ∃ t, tops[n % tops.length]? = some t := by
    intro n
    exact ⟨_, List.getElem?_eq_getElem (Nat.mod_lt n (List.length_pos_of_ne_nil hne))⟩
  choose sel hsel using hget
  refine ⟨sel, ?_, ?_, hsel, ?_⟩
  · intro n
    rw [hrun n, hsel n]
  · intro n
    exact (hmem _).mp (List.mem_of_getElem? (hsel n))
  · intro i
    rw [window_eq hsel, List.nodup_rotate]
    refine ⟨hnd, fun t ht => ?_⟩
    rw [List.mem_rotate]
    exact (hmem t).mpr ht

/-- Threads 0, 1 and 2 of priorities 10, 5 and 10, thread 1 current: 2, 0, 2, and so on. -/
theorem rotation_fair_two :
    ∃ k, RqRun k ⟨[2, 1, 0], [2, 1, 0], [0, 1, 2], none⟩ ∧ ∃ sel : Nat → ThreadId,
      (∀ n, pickRun 3 k (n + 1) (some 1) = .ok (some (sel n))) ∧ sel 0 = 2 ∧ sel 1 = 0 ∧ sel 2 = 2 := by
  have h0 : RqRun (schedInit Kernel.zero) Queue.init := .init Kernel.zero rfl
  have h1 := (h0.step (.create 0 10) 3 (by decide) rfl).step (.add 0) 3 (by decide) rfl
  have h2 := (h1.step (.create 1 5) 3 (by decide) rfl).step (.add 1) 3 (by decide) rfl
  have h3 := (h2.step (.create 2 10) 3 (by decide) rfl).step (.add 2) 3 (by decide) rfl
  obtain ⟨l₁, l₂, tops, hl, htops, sel, hsel, -, horder, -⟩ := rotation_fair (rep_run h3).queue.ring (u := 0) (by decide)
    (by decide) (show 1 ∈ [0, 1, 2] by decide) (show [0, 1, 2].length ≤ 3 by decide)
  obtain ⟨rfl, rfl⟩ : l₁ = [0] ∧ l₂ = [2] := by
    rcases l₁ with _ | ⟨a, _ | ⟨b, _ | ⟨c, l₁⟩⟩⟩ <;> simp_all [Queue.step, Queue.init]
  have htwo : tops = [2, 0] := htops.trans (by decide)
  subst htwo
  refine ⟨_, h3, sel, hsel, ?_, ?_, ?_⟩
  · simpa using (horder 0).symm
  · simpa using (horder 1).symm
  · simpa using (horder 2).symm

end Microkernel

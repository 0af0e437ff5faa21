/-
  Microkernel.Lib.Rounds — taking turns on a line.

  Distinct members stand in a line; one of them has the turn. The turn goes to the member
  behind (`Behind`: the first one is behind the last one), new members join at the end,
  and a member that leaves while it has the turn gives it to the first of the line.

  A leave can take the turn back from a member that was close to it, but a member ahead of
  it on the line is then gone for good. `delay N l a t` counts both, on a line of at most
  `N`: each turn and each leave lowers it, and joining does not change it, so nobody waits
  for more than `N * N` of them (`delay_lt`).
-/

import Mathlib.Data.List.Basic
import Mathlib.Tactic.Ring
import Mathlib.Tactic.Tauto

namespace Microkernel.Rounds

variable {α : Type*} {l : List α} {a n t : α} {N : ℕ}

/-- `n` stands behind `a`. -/
def Behind (l : List α) (a n : α) : Prop := ∃ l₁ l₂, l = l₁ ++ a :: l₂ ∧ (l₂ ++ l₁ ++ [a]).head? = some n

theorem Behind.mem (h : Behind l a n) : n ∈ l := by
  obtain ⟨l₁, l₂, rfl, hn⟩ := h
  have hm := List.mem_of_head? hn
  simp only [List.append_assoc, List.mem_append, List.mem_cons] at hm ⊢
  tauto

variable [DecidableEq α]

/-- The turns from `a` to `t`, if the line may grow to `N`. -/
def turns (N : ℕ) (l : List α) (a t : α) : ℕ :=
  if l.idxOf a ≤ l.idxOf t then l.idxOf t - l.idxOf a else N - l.idxOf a + l.idxOf t

def delay (N : ℕ) (l : List α) (a t : α) : ℕ := N * l.idxOf t + turns N l a t

/-! ## Places -/

theorem idxOf_split {l₁ l₂ : List α} (h : a ∉ l₁) : (l₁ ++ a :: l₂).idxOf a = l₁.length := by
  rw [List.idxOf_append_of_notMem h, List.idxOf_cons_self, Nat.add_zero]

/-- The place behind, and the first place behind the last. -/
theorem Behind.place (h : Behind l a n) (hl : l.Nodup) :
    l.idxOf n = l.idxOf a + 1 ∨ l.idxOf a + 1 = l.length ∧ l.idxOf n = 0 := by
  obtain ⟨l₁, l₂, rfl, hn⟩ := h
  rw [List.nodup_append, List.nodup_cons] at hl
  have ha : a ∉ l₁ := fun hm => hl.2.2 a hm a (List.mem_cons_self) rfl
  rw [idxOf_split ha]
  cases l₂ with
  | cons b l₂ =>
    cases hn
    have hn₁ : n ∉ l₁ := fun hm => hl.2.2 n hm n (by simp) rfl
    have hna : a ≠ n := fun e => hl.2.1.1 (e ▸ List.mem_cons_self)
    refine Or.inl ?_
    rw [List.idxOf_append_of_notMem hn₁, List.idxOf_cons_ne _ hna, List.idxOf_cons_self]
  | nil =>
    refine Or.inr ⟨by simp, ?_⟩
    cases l₁ with
    | nil =>
      cases hn
      simp
    | cons b l₁ =>
      cases hn
      simp

theorem idxOf_erase (ha : a ∈ l) (hta : t ≠ a) :
    (l.erase a).idxOf t = if l.idxOf a < l.idxOf t then l.idxOf t - 1 else l.idxOf t := by
  obtain ⟨l₁, l₂, hnot, rfl, he⟩ := List.exists_erase_eq ha
  rw [he, idxOf_split hnot]
  by_cases ht : t ∈ l₁
  · have hlt := List.idxOf_lt_length_of_mem ht
    rw [List.idxOf_append_of_mem ht, List.idxOf_append_of_mem ht, if_neg (by omega)]
  · rw [List.idxOf_append_of_notMem ht, List.idxOf_append_of_notMem ht, List.idxOf_cons_ne _ (Ne.symm hta), if_pos (by omega)]
    omega

/-! ## What lowers the delay -/

theorem turns_lt (ha : a ∈ l) (ht : t ∈ l) (hN : l.length ≤ N) : turns N l a t < N := by
  have hpa := List.idxOf_lt_length_of_mem ha
  have hpt := List.idxOf_lt_length_of_mem ht
  unfold turns
  split <;> omega

theorem delay_lt (ha : a ∈ l) (ht : t ∈ l) (hN : l.length ≤ N) : delay N l a t < N * N := by
  have hturns := turns_lt ha ht hN
  have hpt := List.idxOf_lt_length_of_mem ht
  calc delay N l a t < N * l.idxOf t + N := Nat.add_lt_add_left hturns _
    _ = N * (l.idxOf t + 1) := by ring
    _ ≤ N * N := Nat.mul_le_mul_left N (by omega)

theorem delay_pass (hl : l.Nodup) (hb : Behind l a n) (ht : t ∈ l) (hta : t ≠ a) (hN : l.length ≤ N) :
    delay N l n t < delay N l a t := by
  have ha : a ∈ l := by
    obtain ⟨l₁, l₂, rfl, -⟩ := hb
    simp
  have hpa := List.idxOf_lt_length_of_mem ha
  have hpt := List.idxOf_lt_length_of_mem ht
  have hne : l.idxOf t ≠ l.idxOf a := fun e => hta ((List.idxOf_inj ht).mp e)
  have hlt : turns N l n t < turns N l a t := by
    unfold turns
    rcases hb.place hl with hn | ⟨hlast, hn⟩
    · rw [hn]
      split <;> split <;> omega
    · rw [hn]
      split <;> split <;> omega
  exact Nat.add_lt_add_left hlt _

theorem delay_leave (ha : a ∈ l) (ht : t ∈ l) (hta : t ≠ a) (hn : (l.erase a).head? = some n) (hN : l.length ≤ N) :
    delay N (l.erase a) n t < delay N l a t := by
  have hpa := List.idxOf_lt_length_of_mem ha
  have hpt := List.idxOf_lt_length_of_mem ht
  have hfirst : (l.erase a).idxOf n = 0 := by
    cases hl : l.erase a with
    | nil =>
      rw [hl] at hn
      cases hn
    | cons b l' =>
      rw [hl] at hn
      cases hn
      exact List.idxOf_cons_self
  unfold delay turns
  rw [hfirst, if_pos (Nat.zero_le _), idxOf_erase ha hta]
  split
  · -- it was ahead: one place less to go
    rename_i hlt
    rw [if_pos (by omega)]
    have hmul : N * l.idxOf t = N * (l.idxOf t - 1) + N := by
      obtain ⟨p, hp⟩ := Nat.exists_eq_succ_of_ne_zero (by omega : l.idxOf t ≠ 0)
      rw [hp]
      simp [Nat.mul_succ]
    omega
  · rename_i hlt
    have hne : l.idxOf t ≠ l.idxOf a := fun e => hta ((List.idxOf_inj ht).mp e)
    rw [if_neg (by omega)]
    omega

theorem delay_join (ha : a ∈ l) (ht : t ∈ l) (b : α) : delay N (l ++ [b]) a t = delay N l a t := by
  unfold delay turns
  rw [List.idxOf_append_of_mem ha, List.idxOf_append_of_mem ht]

end Microkernel.Rounds

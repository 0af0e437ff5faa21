/-
  Microkernel.Lib.WaitGraph — who waits for whom.

  A relation on any type, read as `a` waits for `b`. A deadlock is a cycle. `Acyclic`
  graphs stay so when edges go away, when nodes begin to wait for a node that waits for
  nobody, and when a node `c` begins to wait for an `o` that does not lead back to `c`
  (`acyclic_wait_iff`); a graph whose edges all climb some order has no cycle
  (`Acyclic.of_rank`).

  Where every node waits for at most one other, `chase f t n` follows the edges for at
  most `n` nodes, looking for `t`. Proved (`chase_iff`): in an acyclic graph, and if the
  nodes it can meet are at most `n`, it finds `t` exactly when there is a path to `t`.

  In any graph it finds `t` exactly when `t` is fewer than `n` edges away
  (`chase_hops_iff`). `NoShort r n`: no cycle of at most `n` edges; it stays true as
  `Acyclic` does, but for cycles of that length (`noShort_wait_iff`).

  A `Knot` is a set whose members all wait for a member: the nodes of a cycle, and with
  them every node that leads there (`knot_of_cycle`).
-/

import Mathlib.Data.List.Basic
import Mathlib.Logic.Relation
import Mathlib.Order.Basic

namespace Microkernel.WaitGraph

open Relation

variable {α : Type*} {r r' : α → α → Prop}

def Acyclic (r : α → α → Prop) : Prop := ∀ a, ¬ TransGen r a a

/-! ## Changing edges -/

theorem Acyclic.mono (h : Acyclic r) (hr : ∀ a b, r' a b → r a b) : Acyclic r' := fun a ha => h a (TransGen.mono hr a a ha)

theorem Acyclic.of_rank {β : Type*} [Preorder β] (rank : α → β) (h : ∀ a b, r a b → rank a < rank b) : Acyclic r := by
  have hclimb : ∀ a b, TransGen r a b → rank a < rank b := by
    intro a b hab
    induction hab with
    | single hab => exact h _ _ hab
    | tail _ hbc ih => exact ih.trans (h _ _ hbc)
  intro a ha
  exact lt_irrefl _ (hclimb a a ha)

/-- A path in the new graph that does not end in `w` is a path in the old one. -/
theorem path_before {w : α} (hr : ∀ a b, r' a b → r a b ∨ b = w) (hw : ∀ b, ¬ r' w b) {a b : α} (h : TransGen r' a b) :
    TransGen r a b ∨ b = w := by
  induction h with
  | single hab =>
    rcases hr _ _ hab with hab | hb
    · exact Or.inl (TransGen.single hab)
    · exact Or.inr hb
  | tail _ hbc ih =>
    rcases hr _ _ hbc with hrbc | hc
    · rcases ih with hab | hb
      · exact Or.inl (hab.tail hrbc)
      · rw [hb] at hbc
        exact absurd hbc (hw _)
    · exact Or.inr hc

/-- Edges into a node that waits for nobody close no cycle. -/
theorem Acyclic.into_sink {w : α} (h : Acyclic r) (hr : ∀ a b, r' a b → r a b ∨ b = w) (hw : ∀ b, ¬ r' w b) : Acyclic r' := by
  intro a ha
  rcases path_before hr hw ha with hra | haw
  · exact h a hra
  · rw [haw] at ha
    obtain ⟨b, hb, -⟩ := TransGen.head'_iff.mp ha
    exact hw b hb

section Wait

variable {c o : α}

/-- A path of the graph in which `c` waits for `o` takes that edge a last time, or never. -/
theorem path_after_wait (hr : ∀ a b, r' a b → a = c ∧ b = o ∨ r a b) {a b : α} (h : TransGen r' a b) :
    TransGen r a b ∨ ReflTransGen r o b := by
  induction h with
  | single hab =>
    rcases hr _ _ hab with ⟨-, rfl⟩ | hab
    · exact Or.inr ReflTransGen.refl
    · exact Or.inl (TransGen.single hab)
  | tail _ hbd ih =>
    rcases hr _ _ hbd with ⟨-, rfl⟩ | hbd
    · exact Or.inr ReflTransGen.refl
    · exact ih.imp (fun hab => hab.tail hbd) fun hob => hob.tail hbd

/-- Such a path takes that edge a first time, or never. -/
theorem path_before_wait (hr : ∀ a b, r' a b → a = c ∧ b = o ∨ r a b) {a b : α} (h : TransGen r' a b) :
    TransGen r a b ∨ ReflTransGen r a c := by
  induction h using TransGen.head_induction_on with
  | single hab =>
    rcases hr _ _ hab with ⟨rfl, -⟩ | hab
    · exact Or.inr ReflTransGen.refl
    · exact Or.inl (TransGen.single hab)
  | head had _ ih =>
    rcases hr _ _ had with ⟨rfl, -⟩ | had
    · exact Or.inr ReflTransGen.refl
    · exact ih.imp (fun hdb => hdb.head had) fun hdc => hdc.head had

/-- A node that begins to wait for `o` closes a cycle exactly when `o` leads back to it. -/
theorem acyclic_wait_iff (h : Acyclic r) (hr : ∀ a b, r' a b ↔ a = c ∧ b = o ∨ a ≠ c ∧ r a b) :
    Acyclic r' ↔ ¬ ReflTransGen r o c := by
  have hold : ∀ a b, r' a b → a = c ∧ b = o ∨ r a b := fun a b hab => ((hr a b).mp hab).imp_right And.right
  constructor
  · intro h' hpath
    have hkeep : ∀ a, ReflTransGen r a c → ReflTransGen r' a c := by
      intro a ha
      induction ha using ReflTransGen.head_induction_on with
      | refl => exact ReflTransGen.refl
      | @head a b hab _ ih =>
        by_cases hac : a = c
        · rw [hac]
        · exact ih.head ((hr a b).mpr (Or.inr ⟨hac, hab⟩))
    exact h' c (TransGen.head' ((hr c o).mpr (Or.inl ⟨rfl, rfl⟩)) (hkeep o hpath))
  · intro hno a ha
    rcases path_after_wait hold ha with hra | hoa
    · exact h a hra
    · rcases path_before_wait hold ha with hra | hac
      · exact h a hra
      · exact hno (hoa.trans hac)

end Wait

/-! ## At most one edge from each node -/

/-- The graph of a partial function. -/
def Edge (f : α → Option α) (a b : α) : Prop := f a = some b

/-- Follow `f` from `p` for at most `n` nodes, looking for `t`. -/
def chase [DecidableEq α] (f : α → Option α) (t : α) : Nat → Option α → Bool
  | 0, _ => false
  | _ + 1, none => false
  | n + 1, some a => if a = t then true else chase f t n (f a)

section Chase

variable [DecidableEq α] {f : α → Option α} {t : α}

theorem chase_sound {n : Nat} {a : α} (h : chase f t n (some a) = true) : ReflTransGen (Edge f) a t := by
  induction n generalizing a with
  | zero => cases h
  | succ n ih =>
    unfold chase at h
    split at h
    · rename_i hat
      rw [hat]
    · cases hb : f a with
      | none =>
        rw [hb] at h
        cases n <;> cases h
      | some b =>
        rw [hb] at h
        exact (ih h).head hb

/-- The induction is on the bound: the nodes that can still be met are one fewer after each step, since an acyclic
    graph does not come back. -/
theorem chase_complete (h : Acyclic (Edge f)) {n : Nat} {a : α} {l : List α} (hl : l.length ≤ n)
    (hin : ∀ b, ReflTransGen (Edge f) a b → b ∈ l) (hpath : ReflTransGen (Edge f) a t) : chase f t n (some a) = true := by
  induction n generalizing a l with
  | zero =>
    have ha := hin a ReflTransGen.refl
    rw [List.eq_nil_of_length_eq_zero (by omega : l.length = 0)] at ha
    cases ha
  | succ n ih =>
    unfold chase
    split
    · rfl
    · rename_i hat
      rcases hpath.cases_head with hat' | ⟨b, hab, hbt⟩
      · exact absurd hat' hat
      · have hb : f a = some b := hab
        rw [hb]
        have hlen := List.length_erase_of_mem (hin a ReflTransGen.refl)
        refine ih (l := l.erase a) (by omega) (fun c hbc => ?_) hbt
        have hca : c ≠ a := by
          intro hca
          rw [hca] at hbc
          exact h a (TransGen.head' hab hbc)
        exact (List.mem_erase_of_ne hca).mpr (hin c (hbc.head hab))

/-- In an acyclic graph with at most `n` nodes ahead, the bounded walk is exact. -/
theorem chase_iff (h : Acyclic (Edge f)) {n : Nat} {a : α} {l : List α} (hl : l.length ≤ n)
    (hin : ∀ b, ReflTransGen (Edge f) a b → b ∈ l) : chase f t n (some a) = true ↔ ReflTransGen (Edge f) a t :=
  ⟨chase_sound, chase_complete h hl hin⟩

end Chase

/-! ## Short cycles -/

/-- A path of `n` edges. -/
def Hops (r : α → α → Prop) : ℕ → α → α → Prop
  | 0, a, b => a = b
  | n + 1, a, b => ∃ c, r a c ∧ Hops r n c b

/-- No cycle of at most `n` edges. -/
def NoShort (r : α → α → Prop) (n : ℕ) : Prop := ∀ i a, 0 < i → i ≤ n → ¬ Hops r i a a

theorem hops_trans {i j : ℕ} {a b c : α} (hab : Hops r i a b) (hbc : Hops r j b c) : Hops r (i + j) a c := by
  induction i generalizing a with
  | zero =>
    cases hab
    rwa [Nat.zero_add]
  | succ i ih =>
    obtain ⟨d, had, hdb⟩ := hab
    rw [Nat.succ_add]
    exact ⟨d, had, ih hdb⟩

theorem hops_path {i : ℕ} {a b : α} (h : Hops r i a b) : ReflTransGen r a b := by
  induction i generalizing a with
  | zero =>
    cases h
    exact ReflTransGen.refl
  | succ i ih =>
    obtain ⟨c, hac, hcb⟩ := h
    exact (ih hcb).head hac

theorem Hops.imp {i : ℕ} {a b : α} (h : Hops r i a b) (hr : ∀ a b, r a b → r' a b) : Hops r' i a b := by
  induction i generalizing a with
  | zero => exact h
  | succ i ih =>
    obtain ⟨c, hac, hcb⟩ := h
    exact ⟨c, hr a c hac, ih hcb⟩

theorem noShort_of_acyclic (h : Acyclic r) (n : ℕ) : NoShort r n := by
  intro i a hi _ ha
  obtain ⟨j, rfl⟩ := Nat.exists_eq_succ_of_ne_zero (by omega : i ≠ 0)
  obtain ⟨b, hab, hba⟩ := ha
  exact h a (TransGen.head' hab (hops_path hba))

theorem NoShort.mono {n : ℕ} (h : NoShort r n) (hr : ∀ a b, r' a b → r a b) : NoShort r' n :=
  fun i a hi hn ha => h i a hi hn (ha.imp hr)

theorem hops_before {w : α} (hr : ∀ a b, r' a b → r a b ∨ b = w) (hw : ∀ b, ¬ r' w b) {i : ℕ} {a b : α} (h : Hops r' i a b) :
    Hops r i a b ∨ b = w := by
  induction i generalizing a with
  | zero => exact Or.inl h
  | succ i ih =>
    obtain ⟨c, hac, hcb⟩ := h
    rcases hr a c hac with hac | rfl
    · exact (ih hcb).imp_left fun hcb => ⟨c, hac, hcb⟩
    · -- the path ends in `w`, which has no edge
      cases i with
      | zero => exact Or.inr (Eq.symm hcb)
      | succ i =>
        obtain ⟨d, hcd, -⟩ := hcb
        exact absurd hcd (hw d)

theorem NoShort.into_sink {n : ℕ} {w : α} (h : NoShort r n) (hr : ∀ a b, r' a b → r a b ∨ b = w) (hw : ∀ b, ¬ r' w b) :
    NoShort r' n := by
  intro i a hi hn ha
  rcases hops_before hr hw ha with hra | rfl
  · exact h i a hi hn hra
  · obtain ⟨j, rfl⟩ := Nat.exists_eq_succ_of_ne_zero (by omega : i ≠ 0)
    obtain ⟨b, hb, -⟩ := ha
    exact hw b hb

section Wait

variable {c o : α}

/-- A path of the graph in which `c` waits for `o` never takes that edge, or is an old path up to the first time, and
    one from the last time on. -/
theorem hops_around (hr : ∀ a b, r' a b → a = c ∧ b = o ∨ r a b) {i : ℕ} {a b : α} (h : Hops r' i a b) :
    Hops r i a b ∨ ∃ p q, p + q < i ∧ Hops r p a c ∧ Hops r q o b := by
  induction i generalizing a with
  | zero => exact Or.inl h
  | succ i ih =>
    obtain ⟨d, had, hdb⟩ := h
    rcases hr a d had with ⟨rfl, rfl⟩ | had
    · rcases ih hdb with hdb | ⟨p, q, hpq, -, hq⟩
      · exact Or.inr ⟨0, i, by omega, rfl, hdb⟩
      · exact Or.inr ⟨0, q, by omega, rfl, hq⟩
    · rcases ih hdb with hdb | ⟨p, q, hpq, hp, hq⟩
      · exact Or.inl ⟨d, had, hdb⟩
      · exact Or.inr ⟨p + 1, q, by omega, ⟨d, had, hp⟩, hq⟩

/-- Cut off at its first visit to `c`, an old path takes no edge of `c`. -/
theorem hops_until (hr : ∀ a b, a ≠ c → r a b → r' a b) {i : ℕ} {a : α} (h : Hops r i a c) : ∃ j ≤ i, Hops r' j a c := by
  induction i generalizing a with
  | zero => exact ⟨0, Nat.le_refl 0, h⟩
  | succ i ih =>
    obtain ⟨d, had, hdc⟩ := h
    by_cases hac : a = c
    · exact ⟨0, by omega, hac⟩
    · obtain ⟨j, hj, hjd⟩ := ih hdc
      exact ⟨j + 1, by omega, d, hr a d hac had, hjd⟩

/-- A node that begins to wait for `o` closes a cycle of at most `n` edges exactly when it is fewer than `n` edges
    behind `o`. -/
theorem noShort_wait_iff {n : ℕ} (h : NoShort r n) (hr : ∀ a b, r' a b ↔ a = c ∧ b = o ∨ a ≠ c ∧ r a b) :
    NoShort r' n ↔ ¬ ∃ i < n, Hops r i o c := by
  constructor
  · intro h' hpath
    obtain ⟨i, hi, hoc⟩ := hpath
    have hkeep : ∀ a b, a ≠ c → r a b → r' a b := fun a b hac hab => (hr a b).mpr (Or.inr ⟨hac, hab⟩)
    obtain ⟨j, hj, hoc'⟩ := hops_until hkeep hoc
    exact h' (j + 1) c (by omega) (by omega) ⟨o, (hr c o).mpr (Or.inl ⟨rfl, rfl⟩), hoc'⟩
  · intro hno i a hi hn ha
    rcases hops_around (fun a b hab => ((hr a b).mp hab).imp_right And.right) ha with hra | ⟨p, q, hpq, hp, hq⟩
    · exact h i a hi hn hra
    · exact hno ⟨q + p, by omega, hops_trans hq hp⟩

end Wait

/-- Whatever the graph, the bounded walk finds the nodes fewer than `n` edges away. -/
theorem chase_hops_iff [DecidableEq α] {f : α → Option α} {t : α} {n : ℕ} {a : α} :
    chase f t n (some a) = true ↔ ∃ i < n, Hops (Edge f) i a t := by
  induction n generalizing a with
  | zero => exact iff_of_false (fun h => by cases h) fun ⟨i, hi, _⟩ => by omega
  | succ n ih =>
    unfold chase
    split
    · rename_i hat
      exact iff_of_true rfl ⟨0, by omega, hat⟩
    rename_i hat
    have hsplit : (∃ i < n + 1, Hops (Edge f) i a t) ↔ ∃ b, f a = some b ∧ ∃ i < n, Hops (Edge f) i b t := by
      constructor
      · intro h
        obtain ⟨i, hi, hit⟩ := h
        cases i with
        | zero => exact absurd hit hat
        | succ i =>
          obtain ⟨b, hab, hbt⟩ := hit
          exact ⟨b, hab, i, by omega, hbt⟩
      · intro h
        obtain ⟨b, hab, i, hi, hbt⟩ := h
        exact ⟨i + 1, by omega, b, hab, hbt⟩
    rw [hsplit]
    cases hb : f a with
    | none => cases n <;> simp [chase]
    | some b => simp [ih]

/-! ## Knots -/

/-- Every member waits for a member. -/
def Knot (r : α → α → Prop) (S : α → Prop) : Prop := ∀ a, S a → ∃ b, S b ∧ r a b

/-- All that lead to a node of a cycle are a knot. -/
theorem knot_of_cycle {t : α} (h : TransGen r t t) : Knot r fun a => ReflTransGen r a t := by
  intro a ha
  rcases ha.cases_head with rfl | ⟨b, hab, hbt⟩
  · obtain ⟨b, hab, hba⟩ := TransGen.head'_iff.mp h
    exact ⟨b, hba, hab⟩
  · exact ⟨b, hbt, hab⟩

end Microkernel.WaitGraph

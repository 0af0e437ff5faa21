/-
  Microkernel.Lib.Blocks — blocks with headers that tile a region.

  A region is a list of blocks in the order of their addresses: a header of `h` bytes, a
  payload, and then the next block. `firstFit` takes the first free block with room for
  `r` bytes and splits off what is left, if it has room for a header and `k` bytes;
  `release` marks a block free; `coalesce` joins free neighbours, from the front.

  Proved: each of the three leaves a tiling of the same region (`tiles_carve`,
  `tiles_release`, `tiles_coalesce`) and says what becomes of the used blocks
  (`used_carve`, `mem_used_release`, `used_coalesce`); after `coalesce` no two neighbours
  are free (`merged_coalesce`), and `firstFit` keeps it so (`merged_carve`); a region
  without used blocks is then one block (`single_of_merged`).
-/

import Mathlib

namespace Microkernel.Blocks

structure Block where
  addr : Nat
  size : Nat
  free : Bool
  deriving DecidableEq

/-- One byte behind the payload. -/
def Block.stop (h : Nat) (b : Block) : Nat := b.addr + h + b.size

/-- `l` are the blocks from `lo` to `hi`, without a gap. -/
def Tiles (h : Nat) : Nat → List Block → Nat → Prop
  | lo, [], hi => lo = hi
  | lo, b :: l, hi => b.addr = lo ∧ Tiles h (b.stop h) l hi

def used (l : List Block) : List Block := l.filter fun b => !b.free

/-- No two neighbours are both free. -/
def Merged (l : List Block) : Prop := l.IsChain fun a b => ¬ (a.free = true ∧ b.free = true)

variable {h k r lo hi : Nat} {l l₁ l₂ : List Block} {b c : Block}

/-! ## Tilings -/

theorem mem_used : b ∈ used l ↔ b ∈ l ∧ b.free = false := by
  unfold used
  simp

theorem Tiles.le (ht : Tiles h lo l hi) : lo ≤ hi := by
  induction l generalizing lo with
  | nil => exact ht.le
  | cons b l ih =>
    obtain ⟨rfl, ht⟩ := ht
    have hle := ih ht
    unfold Block.stop at hle
    omega

theorem tiles_append : Tiles h lo (l₁ ++ l₂) hi ↔ ∃ mid, Tiles h lo l₁ mid ∧ Tiles h mid l₂ hi := by
  induction l₁ generalizing lo with
  | nil =>
    constructor
    · intro ht
      exact ⟨lo, rfl, ht⟩
    · rintro ⟨mid, rfl, ht⟩
      exact ht
  | cons b l₁ ih =>
    constructor
    · rintro ⟨ha, ht⟩
      obtain ⟨mid, h1, h2⟩ := ih.mp ht
      exact ⟨mid, ⟨ha, h1⟩, h2⟩
    · rintro ⟨mid, ⟨ha, h1⟩, h2⟩
      exact ⟨ha, ih.mpr ⟨mid, h1, h2⟩⟩

theorem Tiles.mem (ht : Tiles h lo l hi) (hb : b ∈ l) : lo ≤ b.addr ∧ b.stop h ≤ hi := by
  obtain ⟨l₁, l₂, rfl⟩ := List.append_of_mem hb
  obtain ⟨mid, h1, ha, h2⟩ := tiles_append.mp ht
  have hle := h1.le
  exact ⟨by omega, h2.le⟩

/-- There is room for the headers. -/
theorem Tiles.length_le (ht : Tiles h lo l hi) : lo + h * l.length ≤ hi := by
  induction l generalizing lo with
  | nil => exact ht.le
  | cons b l ih =>
    obtain ⟨rfl, ht⟩ := ht
    have hle := ih ht
    unfold Block.stop at hle
    rw [List.length_cons, Nat.mul_succ]
    omega

/-- A later block lies behind an earlier one. -/
theorem Tiles.pairwise (ht : Tiles h lo l hi) : l.Pairwise fun b c => b.stop h ≤ c.addr := by
  induction l generalizing lo with
  | nil => exact List.Pairwise.nil
  | cons b l ih =>
    obtain ⟨-, ht⟩ := ht
    exact List.Pairwise.cons (fun c hc => (ht.mem hc).1) (ih ht)

theorem Tiles.apart (ht : Tiles h lo l hi) (hb : b ∈ l) (hc : c ∈ l) (hne : b ≠ c) : b.stop h ≤ c.addr ∨ c.stop h ≤ b.addr := by
  have hsym : Std.Symm fun b c : Block => b.stop h ≤ c.addr ∨ c.stop h ≤ b.addr := ⟨fun _ _ => Or.symm⟩
  have hpair : l.Pairwise fun b c => b.stop h ≤ c.addr ∨ c.stop h ≤ b.addr := ht.pairwise.imp Or.inl
  exact hpair.forall hb hc hne

theorem Tiles.addr_inj (hpos : 0 < h) (ht : Tiles h lo l hi) (hb : b ∈ l) (hc : c ∈ l) (ha : b.addr = c.addr) : b = c := by
  by_contra hne
  have hapart := ht.apart hb hc hne
  unfold Block.stop at hapart
  omega

theorem Tiles.dvd_addr {g : Nat} (ht : Tiles h lo l hi) (hh : g ∣ h) (hlo : g ∣ lo) (hs : ∀ b ∈ l, g ∣ b.size) (hb : b ∈ l) : g ∣ b.addr := by
  induction l generalizing lo with
  | nil => cases hb
  | cons x l ih =>
    obtain ⟨rfl, ht⟩ := ht
    rcases List.mem_cons.mp hb with rfl | hb
    · exact hlo
    · have hnext : g ∣ x.stop h := Nat.dvd_add (Nat.dvd_add hlo hh) (hs x List.mem_cons_self)
      exact ih ht hnext (fun c hc => hs c (List.mem_cons_of_mem x hc)) hb

/-! ## First fit -/

def Fits (r : Nat) (b : Block) : Prop := b.free = true ∧ r ≤ b.size

instance (r : Nat) : DecidablePred (Fits r) := fun _ => inferInstanceAs (Decidable (_ ∧ _))

/-- A free block once `r` bytes of it are used. -/
def carve (h k r : Nat) (b : Block) : List Block :=
  if r + h + k ≤ b.size then [⟨b.addr, r, false⟩, ⟨b.addr + h + r, b.size - r - h, true⟩] else [⟨b.addr, b.size, false⟩]

/-- The blocks afterwards, and the address of the one that was taken. -/
def firstFit (h k r : Nat) : List Block → Option (List Block × Nat)
  | [] => none
  | b :: l => if Fits r b then some (carve h k r b ++ l, b.addr) else (firstFit h k r l).map fun x => (b :: x.1, x.2)

theorem firstFit_none : firstFit h k r l = none ↔ ∀ b ∈ l, ¬ Fits r b := by
  induction l with
  | nil => simp [firstFit]
  | cons b l ih =>
    rw [firstFit, List.forall_mem_cons]
    by_cases hb : Fits r b
    · rw [if_pos hb]
      exact iff_of_false (by simp) fun hall => hall.1 hb
    · rw [if_neg hb, Option.map_eq_none_iff, ih]
      exact (and_iff_right hb).symm

theorem firstFit_some {l' : List Block} {p : Nat} (hf : firstFit h k r l = some (l', p)) :
    ∃ l₁ b l₂, l = l₁ ++ b :: l₂ ∧ Fits r b ∧ l' = l₁ ++ (carve h k r b ++ l₂) ∧ p = b.addr := by
  induction l generalizing l' with
  | nil => cases hf
  | cons b l ih =>
    rw [firstFit] at hf
    by_cases hb : Fits r b
    · rw [if_pos hb] at hf
      cases hf
      exact ⟨[], b, l, rfl, hb, rfl, rfl⟩
    · rw [if_neg hb, Option.map_eq_some_iff] at hf
      obtain ⟨⟨l'', q⟩, hf, heq⟩ := hf
      cases heq
      obtain ⟨l₁, c, l₂, rfl, hc, rfl, rfl⟩ := ih hf
      exact ⟨b :: l₁, c, l₂, rfl, hc, rfl, rfl⟩

theorem tiles_carve (ht : Tiles h lo (l₁ ++ b :: l₂) hi) : Tiles h lo (l₁ ++ (carve h k r b ++ l₂)) hi := by
  obtain ⟨mid, h1, ha, h2⟩ := tiles_append.mp ht
  refine tiles_append.mpr ⟨mid, h1, ?_⟩
  unfold carve
  split
  · have hend : Block.stop h ⟨b.addr + h + r, b.size - r - h, true⟩ = b.stop h := by
      unfold Block.stop
      dsimp only
      omega
    refine ⟨ha, rfl, ?_⟩
    rw [hend]
    exact h2
  · exact ⟨ha, h2⟩

/-- The block that is used has the room, and the others stay. -/
theorem used_carve (hb : Fits r b) :
    ∃ s, r ≤ s ∧ used (l₁ ++ (carve h k r b ++ l₂)) = used l₁ ++ ⟨b.addr, s, false⟩ :: used l₂ ∧
      used (l₁ ++ b :: l₂) = used l₁ ++ used l₂ := by
  have hold : used (l₁ ++ b :: l₂) = used l₁ ++ used l₂ := by simp [used, hb.1]
  by_cases hk : r + h + k ≤ b.size
  · refine ⟨r, Nat.le_refl r, ?_, hold⟩
    simp [used, carve, hk]
  · refine ⟨b.size, hb.2, ?_, hold⟩
    simp [used, carve, hk]

/-- The block that was taken was free. -/
theorem firstFit_fits {l' : List Block} {p : Nat} (hf : firstFit h k r l = some (l', p)) : ∃ b ∈ l, Fits r b ∧ b.addr = p := by
  obtain ⟨l₁, b, l₂, rfl, hb, -, rfl⟩ := firstFit_some hf
  exact ⟨b, by simp, hb, rfl⟩

theorem mem_used_firstFit {l' : List Block} {p : Nat} (hf : firstFit h k r l = some (l', p)) :
    ∃ s, r ≤ s ∧ ∀ c, c ∈ used l' ↔ c = ⟨p, s, false⟩ ∨ c ∈ used l := by
  obtain ⟨l₁, b, l₂, rfl, hb, rfl, rfl⟩ := firstFit_some hf
  obtain ⟨s, hs, hnew, hold⟩ := @used_carve h k r l₁ l₂ b hb
  refine ⟨s, hs, fun c => ?_⟩
  rw [hnew, hold, List.mem_append, List.mem_append, List.mem_cons]
  exact or_left_comm

theorem sizes_carve {P : Nat → Prop} (hr : P r) (hrest : ∀ s, P s → r + h + k ≤ s → P (s - r - h)) (hs : ∀ c ∈ l₁ ++ b :: l₂, P c.size) :
    ∀ c ∈ l₁ ++ (carve h k r b ++ l₂), P c.size := by
  have hb : P b.size := hs b (by simp)
  intro c hc
  rw [List.mem_append, List.mem_append] at hc
  rcases hc with hc | hc | hc
  · exact hs c (by simp [hc])
  · unfold carve at hc
    split at hc
    · rename_i hle
      simp only [List.mem_cons, List.not_mem_nil, or_false] at hc
      rcases hc with rfl | rfl
      · exact hr
      · exact hrest b.size hb hle
    · rw [List.mem_singleton] at hc
      subst hc
      exact hb
  · exact hs c (by simp [hc])

/-- The block behind a free one is used, so what is left has no free neighbour. -/
theorem merged_carve (hb : b.free = true) (hm : Merged (l₁ ++ b :: l₂)) : Merged (l₁ ++ (carve h k r b ++ l₂)) := by
  unfold Merged at hm ⊢
  rw [List.isChain_append] at hm ⊢
  obtain ⟨h1, h2, -⟩ := hm
  rw [List.isChain_cons] at h2
  refine ⟨h1, ?_, ?_⟩
  · unfold carve
    split
    · refine List.isChain_cons_cons.mpr ⟨by simp, List.isChain_cons.mpr ⟨fun c hc => ?_, h2.2⟩⟩
      have hnext := h2.1 c hc
      rwa [hb] at hnext
    · exact List.isChain_cons.mpr ⟨fun c _ => by simp, h2.2⟩
  · intro x _ y hy
    have hused : y.free = false := by
      unfold carve at hy
      split at hy <;> cases hy <;> rfl
    simp [hused]

/-! ## Release -/

def release (a : Nat) (l : List Block) : List Block := l.map fun b => if b.addr = a then { b with free := true } else b

theorem release_apply (a : Nat) (b : Block) :
    (if b.addr = a then { b with free := true } else b).addr = b.addr ∧ (if b.addr = a then { b with free := true } else b).size = b.size := by
  split <;> exact ⟨rfl, rfl⟩

theorem tiles_release {a : Nat} (ht : Tiles h lo l hi) : Tiles h lo (release a l) hi := by
  induction l generalizing lo with
  | nil => exact ht
  | cons b l ih =>
    obtain ⟨ha, ht⟩ := ht
    obtain ⟨haddr, hsize⟩ := release_apply a b
    have hstop : Block.stop h (if b.addr = a then { b with free := true } else b) = b.stop h := by
      unfold Block.stop
      rw [haddr, hsize]
    refine ⟨haddr.trans ha, ?_⟩
    rw [hstop]
    exact ih ht

theorem sizes_release {P : Nat → Prop} {a : Nat} (hs : ∀ b ∈ l, P b.size) : ∀ b ∈ release a l, P b.size := by
  intro c hc
  obtain ⟨b, hb, rfl⟩ := List.mem_map.mp hc
  rw [(release_apply a b).2]
  exact hs b hb

theorem mem_used_release {a : Nat} : c ∈ used (release a l) ↔ c ∈ used l ∧ c.addr ≠ a := by
  rw [mem_used, mem_used]
  constructor
  · rintro ⟨hc, hused⟩
    obtain ⟨b, hb, rfl⟩ := List.mem_map.mp hc
    by_cases ha : b.addr = a
    · rw [if_pos ha] at hused
      cases hused
    · rw [if_neg ha] at hused ⊢
      exact ⟨⟨hb, hused⟩, ha⟩
  · rintro ⟨⟨hc, hused⟩, ha⟩
    exact ⟨List.mem_map.mpr ⟨c, hc, if_neg ha⟩, hused⟩

/-! ## Coalescing -/

/-- From the block `x` on, with `l` behind it. -/
def mergeFrom (h : Nat) : Block → List Block → List Block
  | x, [] => [x]
  | x, y :: l => if x.free = true ∧ y.free = true then mergeFrom h { x with size := x.size + h + y.size } l else x :: mergeFrom h y l

def coalesce (h : Nat) : List Block → List Block
  | [] => []
  | x :: l => mergeFrom h x l

/-- The first block stays where it is, free or used. -/
theorem mergeFrom_head (h : Nat) (x : Block) (l : List Block) : ∃ s l', mergeFrom h x l = ⟨x.addr, s, x.free⟩ :: l' := by
  induction l generalizing x with
  | nil => exact ⟨x.size, [], rfl⟩
  | cons y l ih =>
    rw [mergeFrom]
    split
    · exact ih _
    · exact ⟨x.size, mergeFrom h y l, rfl⟩

theorem tiles_mergeFrom {x : Block} (ht : Tiles h lo (x :: l) hi) : Tiles h lo (mergeFrom h x l) hi := by
  induction l generalizing x lo with
  | nil => exact ht
  | cons y l ih =>
    obtain ⟨hx, hy, ht⟩ := ht
    rw [mergeFrom]
    split
    · have hstop : Block.stop h { x with size := x.size + h + y.size } = y.stop h := by
        unfold Block.stop at hy ⊢
        dsimp only
        omega
      refine ih ⟨hx, ?_⟩
      rw [hstop]
      exact ht
    · exact ⟨hx, ih ⟨hy, ht⟩⟩

theorem tiles_coalesce (ht : Tiles h lo l hi) : Tiles h lo (coalesce h l) hi := by
  cases l with
  | nil => exact ht
  | cons x l => exact tiles_mergeFrom ht

theorem used_mergeFrom (x : Block) : used (mergeFrom h x l) = used (x :: l) := by
  induction l generalizing x with
  | nil => rfl
  | cons y l ih =>
    rw [mergeFrom]
    split
    · rename_i hfree
      rw [ih]
      simp [used, hfree.1, hfree.2]
    · unfold used at ih ⊢
      rw [List.filter_cons, List.filter_cons, ih]

theorem used_coalesce : used (coalesce h l) = used l := by
  cases l with
  | nil => rfl
  | cons x l => exact used_mergeFrom x

theorem sizes_mergeFrom {P : Nat → Prop} {x : Block} (hadd : ∀ s t, P s → P t → P (s + h + t)) (hs : ∀ b ∈ x :: l, P b.size) :
    ∀ b ∈ mergeFrom h x l, P b.size := by
  induction l generalizing x with
  | nil => exact hs
  | cons y l ih =>
    rw [List.forall_mem_cons, List.forall_mem_cons] at hs
    rw [mergeFrom]
    split
    · exact ih (List.forall_mem_cons.mpr ⟨hadd _ _ hs.1 hs.2.1, hs.2.2⟩)
    · exact List.forall_mem_cons.mpr ⟨hs.1, ih (List.forall_mem_cons.mpr hs.2)⟩

theorem sizes_coalesce {P : Nat → Prop} (hadd : ∀ s t, P s → P t → P (s + h + t)) (hs : ∀ b ∈ l, P b.size) :
    ∀ b ∈ coalesce h l, P b.size := by
  cases l with
  | nil => exact hs
  | cons x l => exact sizes_mergeFrom hadd hs

theorem merged_mergeFrom (x : Block) : Merged (mergeFrom h x l) := by
  induction l generalizing x with
  | nil => exact List.isChain_singleton x
  | cons y l ih =>
    rw [mergeFrom]
    split
    · exact ih _
    · rename_i hne
      obtain ⟨s, l', heq⟩ := mergeFrom_head h y l
      have hrest := ih y
      unfold Merged at hrest ⊢
      rw [heq] at hrest ⊢
      exact List.isChain_cons_cons.mpr ⟨hne, hrest⟩

theorem merged_coalesce : Merged (coalesce h l) := by
  cases l with
  | nil => exact List.isChain_nil
  | cons x l => exact merged_mergeFrom x

theorem single_of_merged (hlt : lo < hi) (ht : Tiles h lo l hi) (hm : Merged l) (hu : used l = []) : l = [⟨lo, hi - lo - h, true⟩] := by
  have hfree : ∀ b ∈ l, b.free = true := by
    intro b hb
    by_contra hne
    have hmem : b ∈ used l := mem_used.mpr ⟨hb, Bool.eq_false_iff.mpr hne⟩
    rw [hu] at hmem
    cases hmem
  cases l with
  | nil => exact absurd ht hlt.ne
  | cons b l =>
    have hb := hfree b List.mem_cons_self
    cases l with
    | nil =>
      obtain ⟨ha, hend⟩ := ht
      obtain ⟨addr, size, free⟩ := b
      have hend : addr + h + size = hi := hend
      dsimp only at ha hb
      subst ha hb
      congr
      omega
    | cons c l => exact absurd ⟨hb, hfree c (by simp)⟩ (List.isChain_cons_cons.mp hm).1

end Microkernel.Blocks

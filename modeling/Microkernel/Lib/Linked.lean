/-
  Microkernel.Lib.Linked — singly linked structures held in a link function.

  `next : α → Option α` is the link field of every node of a heap (`none` is the null
  pointer). `Seg next p l q` says that following `next` from `p` visits the nodes of
  `l` in order and arrives at `q`; `Chain` is a segment that ends at null, `Fifo` a chain
  with a pointer to its last node, `Ring` a circular list with separate head and tail
  pointers. Nothing here depends on what the nodes are.

  Proved: a chain is duplicate-free and determined by its first pointer; both shapes
  only depend on the links of their own nodes; pushing, unlinking and appending a node
  do to the list what the corresponding list operation does; a ring can be read from
  any of its nodes.
-/

import Mathlib.Data.List.Nodup
import Mathlib.Data.List.Rotate
import Mathlib.Order.Bounds.Basic

namespace Microkernel.Linked

variable {α : Type*} {next next' : α → Option α}

/-- Following `next` from `p` visits exactly `l`, in order, and arrives at `q`. -/
def Seg (next : α → Option α) : Option α → List α → Option α → Prop
  | p, [], q => p = q
  | p, a :: l, q => p = some a ∧ Seg next (next a) l q

/-- A null-terminated list. -/
abbrev Chain (next : α → Option α) (p : Option α) (l : List α) : Prop := Seg next p l none

/-! ## Segments -/

@[simp] theorem seg_nil {p q : Option α} : Seg next p [] q ↔ p = q := Iff.rfl

@[simp] theorem seg_cons {p q : Option α} {a : α} {l : List α} :
    Seg next p (a :: l) q ↔ p = some a ∧ Seg next (next a) l q := Iff.rfl

theorem seg_append {p q : Option α} {l₁ l₂ : List α} :
    Seg next p (l₁ ++ l₂) q ↔ ∃ r, Seg next p l₁ r ∧ Seg next r l₂ q := by
  induction l₁ generalizing p with
  | nil => simp
  | cons a l₁ ih =>
    simp only [List.cons_append, seg_cons, ih]
    constructor
    · rintro ⟨hp, r, h1, h2⟩
      exact ⟨r, ⟨hp, h1⟩, h2⟩
    · rintro ⟨r, ⟨hp, h1⟩, h2⟩
      exact ⟨hp, r, h1, h2⟩

theorem seg_snoc {p q : Option α} {l : List α} {a : α} :
    Seg next p (l ++ [a]) q ↔ Seg next p l (some a) ∧ next a = q := by
  rw [seg_append]
  constructor
  · rintro ⟨r, h1, rfl, h2⟩
    exact ⟨h1, h2⟩
  · rintro ⟨h1, h2⟩
    exact ⟨some a, h1, rfl, h2⟩

/-- Only the links of the visited nodes matter. -/
theorem Seg.congr {p q : Option α} {l : List α} (h : Seg next p l q) (hn : ∀ a ∈ l, next' a = next a) :
    Seg next' p l q := by
  induction l generalizing p with
  | nil => exact h
  | cons a l ih =>
    refine ⟨h.1, ?_⟩
    rw [hn a (by simp)]
    exact ih h.2 fun b hb => hn b (List.mem_cons_of_mem _ hb)

theorem Seg.head? {p q : Option α} {l : List α} (h : Seg next p l q) (hl : l ≠ []) : p = l.head? := by
  cases l with
  | nil => exact absurd rfl hl
  | cons a l => exact h.1

/-- The link of a node inside a segment is the node that follows it. -/
theorem Seg.next_eq {p q : Option α} {l₁ l₂ : List α} {a b : α} (h : Seg next p (l₁ ++ a :: b :: l₂) q) :
    next a = some b := by
  obtain ⟨r, -, -, h2, -⟩ := seg_append.mp h
  exact h2

/-- A set that is closed under the links has all of a segment if it has the first node. -/
theorem Seg.forall_mem {P : α → Prop} {p q : Option α} {l : List α} (h : Seg next p l q) (hp : ∀ a, p = some a → P a)
    (hn : ∀ a b, next a = some b → P b) : ∀ a ∈ l, P a := by
  induction l generalizing p with
  | nil =>
    intro a ha
    cases ha
  | cons a l ih =>
    intro b hb
    rcases List.mem_cons.mp hb with hb | hb
    · rw [hb]
      exact hp a h.1
    · exact ih h.2 (hn a) b hb

/-! ## Chains -/

theorem Chain.unique {p : Option α} {l l' : List α} (h : Chain next p l) (h' : Chain next p l') : l = l' := by
  induction l generalizing p l' with
  | nil =>
    cases l' with
    | nil => rfl
    | cons b l' => simp_all
  | cons a l ih =>
    cases l' with
    | nil => simp_all
    | cons b l' =>
      obtain ⟨rfl, h2⟩ := h
      obtain ⟨he, h2'⟩ := h'
      cases he
      rw [ih h2 h2']

/-- A chain cannot meet a node twice: it would never reach null. -/
theorem Chain.nodup {p : Option α} {l : List α} (h : Chain next p l) : l.Nodup := by
  induction l generalizing p with
  | nil => exact List.nodup_nil
  | cons a l ih =>
    refine List.nodup_cons.mpr ⟨fun ha => ?_, ih h.2⟩
    obtain ⟨l₁, l₂, rfl⟩ := List.append_of_mem ha
    obtain ⟨r, -, h2⟩ := seg_append.mp h.2
    have hr : r = some a := h2.1
    have h2' : Chain next (some a) (a :: l₂) := hr ▸ h2
    have h3 : Chain next (some a) (a :: (l₁ ++ a :: l₂)) := ⟨rfl, h.2⟩
    have hlen := congrArg List.length (Chain.unique h2' h3)
    simp only [List.length_cons, List.length_append] at hlen
    omega

theorem Chain.head_mem {l : List α} {a : α} (h : Chain next (some a) l) : a ∈ l := by
  cases l with
  | nil => cases h
  | cons b l =>
    cases h.1
    exact List.mem_cons_self

/-- What follows a node of a chain is in the chain. -/
theorem Chain.next_mem {p : Option α} {l : List α} {a b : α} (h : Chain next p l) (ha : a ∈ l) (hb : next a = some b) : b ∈ l := by
  obtain ⟨l₁, l₂, rfl⟩ := List.append_of_mem ha
  obtain ⟨r, -, h2⟩ := seg_append.mp h
  have h3 : Chain next (some b) l₂ := hb ▸ h2.2
  simp [h3.head_mem]

@[simp] theorem chain_none {l : List α} : Chain next none l ↔ l = [] := by
  cases l <;> simp [Chain]

theorem Chain.push {p : Option α} {l : List α} {a : α} (h : Chain next p l) (hn : next' a = p)
    (hf : ∀ b ∈ l, next' b = next b) : Chain next' (some a) (a :: l) := by
  refine ⟨rfl, ?_⟩
  rw [hn]
  exact h.congr hf

/-- Unlinking the first node. -/
theorem Chain.pop {p : Option α} {l : List α} {a : α} (h : Chain next p (a :: l))
    (hf : ∀ b ∈ l, next' b = next b) : Chain next' (next a) l :=
  Seg.congr h.2 hf

/-- Unlinking the node after `b`. -/
theorem Chain.unlink {p : Option α} {l₁ l₂ : List α} {a b : α} (h : Chain next p (l₁ ++ b :: a :: l₂))
    (hb : next' b = next a) (hf : ∀ c, c ≠ a → c ≠ b → next' c = next c) : Chain next' p (l₁ ++ b :: l₂) := by
  have hd := Chain.nodup h
  simp only [List.nodup_append, List.nodup_cons, List.mem_cons] at hd
  obtain ⟨-, ⟨hb2, ha2, -⟩, hd1⟩ := hd
  obtain ⟨r, h1, rfl, -, h3⟩ := seg_append.mp h
  refine seg_append.mpr ⟨some b, h1.congr fun c hc => hf c ?_ ?_, rfl, ?_⟩
  · exact hd1 c hc a (Or.inr (Or.inl rfl))
  · exact hd1 c hc b (Or.inl rfl)
  · rw [hb]
    exact h3.congr fun c hc => hf c (fun e => ha2 (e ▸ hc)) (fun e => hb2 (Or.inr (e ▸ hc)))

/-! ## Nodes ahead -/

/-- Following `next` from `p` arrives at the node; unlike `Chain`, this also speaks of lists that do not end. -/
inductive Reaches (next : α → Option α) : Option α → α → Prop
  | head (a : α) : Reaches next (some a) a
  | link {p : Option α} {a b : α} : Reaches next p a → next a = some b → Reaches next p b

theorem Reaches.inv {P : α → Prop} {p : Option α} (hp : ∀ a, p = some a → P a) (hn : ∀ a b, P a → next a = some b → P b)
    {a : α} (h : Reaches next p a) : P a := by
  induction h with
  | head a => exact hp a rfl
  | link _ hab ih => exact hn _ _ (ih hp) hab

theorem not_reaches_none {a : α} : ¬ Reaches next none a :=
  fun h => Reaches.inv (P := fun _ => False) (fun a ha => by cases ha) (fun _ _ h _ => h) h

/-- Links of other nodes do not matter. -/
theorem Reaches.congr {p : Option α} (hn : ∀ a, Reaches next p a → next' a = next a) {a : α} (h : Reaches next' p a) :
    Reaches next p a := by
  induction h with
  | head a => exact .head a
  | link _ hab ih =>
    rw [hn _ (ih hn)] at hab
    exact (ih hn).link hab

theorem Chain.mem_of_reaches {p : Option α} {l : List α} (h : Chain next p l) {a : α} (ha : Reaches next p a) : a ∈ l := by
  refine ha.inv (fun a hp => ?_) fun a b ha hab => h.next_mem ha hab
  subst hp
  exact h.head_mem

theorem Chain.reaches {p : Option α} {l : List α} (h : Chain next p l) {a : α} (ha : a ∈ l) : Reaches next p a := by
  obtain ⟨l₁, l₂, rfl⟩ := List.append_of_mem ha
  clear ha
  -- the node is at the end of the part before it
  induction l₁ using List.reverseRecOn generalizing a l₂ with
  | nil =>
    rw [h.1]
    exact .head a
  | append_singleton l₁ b ih =>
    rw [List.append_assoc, List.singleton_append] at h
    exact (ih (a :: l₂) h).link (Seg.next_eq h)

/-! ## Queues -/

/-- A chain with a pointer to its last node, null when it is empty. -/
structure Fifo (next : α → Option α) (head tail : Option α) (l : List α) : Prop where
  chain : Chain next head l
  tail_eq : tail = l.getLast?

theorem fifo_empty : Fifo next none none ([] : List α) := ⟨rfl, rfl⟩

theorem Fifo.congr {head tail : Option α} {l : List α} (h : Fifo next head tail l) (hn : ∀ a ∈ l, next' a = next a) :
    Fifo next' head tail l :=
  ⟨h.chain.congr hn, h.tail_eq⟩

theorem Fifo.nil {tail : Option α} {l : List α} (h : Fifo next none tail l) : l = [] := chain_none.mp h.chain

/-- Both pointers are null together. -/
theorem Fifo.tail_none {head tail : Option α} {l : List α} (h : Fifo next head tail l) : tail = none ↔ head = none := by
  rw [h.tail_eq, List.getLast?_eq_none_iff]
  constructor
  · rintro rfl
    exact h.chain
  · rintro rfl
    exact h.nil

/-- Unlinking the first node; the tail pointer is cleared when it was the last. -/
theorem Fifo.pop {tail tail' : Option α} {l : List α} {a : α} (h : Fifo next (some a) tail l)
    (hf : ∀ b, b ≠ a → next' b = next b) (hlast : next a = none → tail' = none) (hmore : next a ≠ none → tail' = tail) :
    ∃ l', l = a :: l' ∧ Fifo next' (next a) tail' l' := by
  obtain ⟨hc, ht⟩ := h
  cases l with
  | nil => cases hc
  | cons b l' =>
    have hb : a = b := Option.some.inj hc.1
    subst hb
    have hnd := List.nodup_cons.mp hc.nodup
    refine ⟨l', rfl, hc.pop fun c hl => hf c fun e => hnd.1 (e ▸ hl), ?_⟩
    have hrest : Chain next (next a) l' := hc.2
    cases l' with
    | nil => exact hlast hrest
    | cons c l' =>
      have hn : next a = some c := hrest.1
      rw [hmore (by simp [hn]), ht, List.getLast?_cons_cons]

/-- Linking a first node. -/
theorem Fifo.push_nil {a : α} (ha : next' a = none) : Fifo next' (some a) (some a) [a] := ⟨⟨rfl, ha⟩, rfl⟩

/-- Linking a new node behind the last one. -/
theorem Fifo.push {head : Option α} {l : List α} {a tl : α} (h : Fifo next head (some tl) l) (ha : next' a = none)
    (htl : next' tl = some a) (hf : ∀ b ∈ l, b ≠ tl → next' b = next b) : Fifo next' head (some a) (l ++ [a]) := by
  obtain ⟨hc, ht⟩ := h
  obtain ⟨l₀, rfl⟩ := List.getLast?_eq_some_iff.mp ht.symm
  have hnd := hc.nodup
  obtain ⟨hs, -⟩ := seg_snoc.mp hc
  refine ⟨seg_snoc.mpr ⟨seg_snoc.mpr ⟨hs.congr fun b hb => hf b (by simp [hb]) ?_, htl⟩, ha⟩, by simp⟩
  rintro rfl
  rw [List.nodup_append] at hnd
  exact hnd.2.2 b hb b (by simp) rfl

/-! ## Rings -/

/-- A circular list `l` with its head and tail pointers; the empty ring has both null. -/
structure Ring (next : α → Option α) (head tail : Option α) (l : List α) : Prop where
  nodup : l.Nodup
  head_eq : head = l.head?
  tail_eq : tail = l.getLast?
  seg : Seg next head l head

theorem ring_empty : Ring next none none ([] : List α) := ⟨List.nodup_nil, rfl, rfl, rfl⟩

theorem Ring.head_none {head tail : Option α} {l : List α} (h : Ring next head tail l) : head = none ↔ l = [] := by
  rw [h.head_eq]; exact List.head?_eq_none_iff

theorem Ring.congr {head tail : Option α} {l : List α} (h : Ring next head tail l)
    (hn : ∀ a ∈ l, next' a = next a) : Ring next' head tail l :=
  ⟨h.nodup, h.head_eq, h.tail_eq, h.seg.congr hn⟩

/-- Every node of a ring has a successor in the ring. -/
theorem Ring.next_mem {head tail : Option α} {l : List α} (h : Ring next head tail l) {a : α} (ha : a ∈ l) :
    ∃ b ∈ l, next a = some b := by
  obtain ⟨l₁, l₂, rfl⟩ := List.append_of_mem ha
  cases l₂ with
  | nil =>
    have hs := (seg_snoc.mp h.seg).2
    have hm : (l₁ ++ [a]).head (by simp) ∈ l₁ ++ [a] := List.head_mem _
    refine ⟨_, hm, ?_⟩
    rw [hs, h.head_eq, List.head?_eq_some_head]
  | cons b l₂ => exact ⟨b, by simp, Seg.next_eq h.seg⟩

/-- Reading the ring from one of its nodes. -/
theorem Ring.rotate {head tail : Option α} {l₁ l₂ : List α} {a : α} (h : Ring next head tail (l₁ ++ a :: l₂)) :
    Seg next (some a) (a :: l₂ ++ l₁) (some a) := by
  obtain ⟨r, h1, h2⟩ := seg_append.mp h.seg
  have hr : r = some a := h2.1
  subst hr
  exact seg_append.mpr ⟨head, h2, h1⟩

/-- Behind `a` the other nodes follow, up to `a` again. -/
theorem Ring.others {head tail : Option α} {l₁ l₂ : List α} {a : α} (h : Ring next head tail (l₁ ++ a :: l₂)) :
    Seg next (next a) (l₂ ++ l₁) (some a) := by
  have hs := Ring.rotate h
  rw [List.cons_append] at hs
  exact hs.2

/-- Going on from one of them. -/
theorem Seg.others {l₁ l₂ : List α} {a b : α} (h : Seg next (next a) (l₁ ++ b :: l₂) (some a)) :
    Seg next (next b) (l₂ ++ a :: l₁) (some b) := by
  obtain ⟨r, h1, rfl, h2⟩ := seg_append.mp h
  exact seg_append.mpr ⟨some a, h2, rfl, h1⟩

theorem Ring.append_nil {t : α} (ht : next' t = some t) : Ring next' (some t) (some t) [t] :=
  ⟨List.nodup_singleton t, rfl, rfl, rfl, ht⟩

/-- Linking a new node behind the tail. -/
theorem Ring.append {head : Option α} {l : List α} {t tl : α} (h : Ring next head (some tl) l) (ht : t ∉ l)
    (hn : next' t = head) (htl : next' tl = some t) (hf : ∀ a ∈ l, a ≠ tl → next' a = next a) :
    Ring next' head (some t) (l ++ [t]) := by
  obtain ⟨l₀, rfl⟩ : ∃ l₀, l = l₀ ++ [tl] := by
    obtain ⟨l₀, hl⟩ := List.getLast?_eq_some_iff.mp h.tail_eq.symm
    exact ⟨l₀, hl⟩
  obtain ⟨hs, -⟩ := seg_snoc.mp h.seg
  have hnd := h.nodup
  refine ⟨?_, ?_, by simp, ?_⟩
  · rw [List.nodup_append]
    exact ⟨hnd, List.nodup_singleton t, by rintro a ha b hb rfl; simp at hb; subst hb; exact ht ha⟩
  · rw [h.head_eq]; cases l₀ <;> rfl
  · refine seg_snoc.mpr ⟨seg_snoc.mpr ⟨hs.congr fun a ha => hf a (by simp [ha]) ?_, htl⟩, hn⟩
    rintro rfl
    rw [List.nodup_append] at hnd
    exact hnd.2.2 a ha a (by simp) rfl

/-- Unlinking the first node of a ring of at least two; `p` is the last. -/
theorem Ring.remove_head {head tail : Option α} {l : List α} {t p : α} (h : Ring next head tail (t :: (l ++ [p])))
    (hp : next' p = next t) (hf : ∀ a ∈ l, next' a = next a) : Ring next' (next t) tail (l ++ [p]) := by
  obtain ⟨hnd, -, htl, -, hs⟩ := h
  have hh : next t = (l ++ [p]).head? := hs.head? (by simp)
  refine ⟨(List.nodup_cons.mp hnd).2, hh, by rw [htl]; simp [List.getLast?_cons], ?_⟩
  exact seg_snoc.mpr ⟨(seg_snoc.mp hs).1.congr hf, hp⟩

/-- Unlinking the node `t` after `p`; the tail pointer moves back when `t` was the last. -/
theorem Ring.remove_after {head tail : Option α} {l₁ l₂ : List α} {t p : α}
    (h : Ring next head tail (l₁ ++ p :: t :: l₂)) (hp : next' p = next t)
    (hf : ∀ a ∈ l₁ ++ l₂, next' a = next a) :
    Ring next' head (if l₂ = [] then some p else tail) (l₁ ++ p :: l₂) := by
  obtain ⟨hnd, hhd, htl, hs⟩ := h
  have hd : (l₁ ++ p :: l₂).Nodup :=
    hnd.sublist (List.Sublist.append_left (List.Sublist.cons_cons p (List.sublist_cons_self t l₂)) l₁)
  obtain ⟨r, h1, rfl, -, h3⟩ := seg_append.mp hs
  refine ⟨hd, by rw [hhd]; cases l₁ <;> rfl, ?_, ?_⟩
  · cases l₂ with
    | nil => simp
    | cons b l₂ => simpa [List.getLast?_append, List.getLast?_cons_cons] using htl
  · refine seg_append.mpr ⟨some p, h1.congr fun a ha => hf a (List.mem_append_left _ ha), rfl, ?_⟩
    rw [hp]
    exact h3.congr fun a ha => hf a (List.mem_append_right _ ha)

/-! ## Loops around a ring

`do { … t = next t; } while (t && t != start)`, with a bound on the number of rounds;
`none` when it is used up. -/

section Walk

variable [DecidableEq α] (next)

/-- The loop that accumulates. -/
def ringFold {σ : Type*} (f : σ → α → σ) (start : α) : Nat → α → σ → Option σ
  | 0, _, _ => none
  | fuel + 1, t, s =>
    match next t with
    | none => some (f s t)
    | some u => if u = start then some (f s t) else ringFold f start fuel u (f s t)

/-- The loop that returns the first node satisfying `p`. -/
def ringFind (p : α → Bool) (start : α) : Nat → α → Option (Option α)
  | 0, _ => none
  | fuel + 1, t =>
    if p t then some (some t)
    else
      match next t with
      | none => some none
      | some u => if u = start then some none else ringFind p start fuel u

variable {next}

/-- From `t`, with `post` still ahead before `start` comes round again. -/
theorem ringFold_spec {σ : Type*} (f : σ → α → σ) {start t : α} {post : List α}
    (hs : Seg next (some t) (t :: post) (some start)) (hn : start ∉ post) (fuel : Nat) (s : σ) :
    (∀ r, ringFold next f start fuel t s = some r → r = (t :: post).foldl f s) ∧
    (post.length < fuel → ringFold next f start fuel t s = some ((t :: post).foldl f s)) := by
  induction post generalizing t fuel s with
  | nil =>
    have ht : next t = some start := hs.2
    cases fuel with
    | zero => simp [ringFold]
    | succ fuel => simp [ringFold, ht]
  | cons u post ih =>
    obtain ⟨-, htu, hs'⟩ := hs
    have hus : u ≠ start := fun e => hn (by simp [e])
    cases fuel with
    | zero => simp [ringFold]
    | succ fuel =>
      have hgo : ringFold next f start (fuel + 1) t s = ringFold next f start fuel u (f s t) := by
        simp [ringFold, htu, hus]
      obtain ⟨h1, h2⟩ := ih ⟨rfl, hs'⟩ (fun hm => hn (List.mem_cons_of_mem _ hm)) fuel (f s t)
      rw [hgo]
      exact ⟨h1, fun hl => h2 (Nat.lt_of_succ_lt_succ hl)⟩

theorem ringFind_spec (p : α → Bool) {start t : α} {post : List α} (hs : Seg next (some t) (t :: post) (some start))
    (hn : start ∉ post) (fuel : Nat) :
    (∀ r, ringFind next p start fuel t = some r → r = (t :: post).find? p) ∧
    (post.length < fuel → ringFind next p start fuel t = some ((t :: post).find? p)) := by
  induction post generalizing t fuel with
  | nil =>
    have ht : next t = some start := hs.2
    cases fuel with
    | zero => simp [ringFind]
    | succ fuel => cases hp : p t <;> simp [ringFind, ht, hp]
  | cons u post ih =>
    obtain ⟨-, htu, hs'⟩ := hs
    have hus : u ≠ start := fun e => hn (by simp [e])
    cases fuel with
    | zero => simp [ringFind]
    | succ fuel =>
      cases hp : p t with
      | true => simp [ringFind, hp]
      | false =>
        have hgo : ringFind next p start (fuel + 1) t = ringFind next p start fuel u := by
          simp [ringFind, htu, hus, hp]
        have hfind : (t :: u :: post).find? p = (u :: post).find? p := by simp [hp]
        obtain ⟨h1, h2⟩ := ih ⟨rfl, hs'⟩ (fun hm => hn (List.mem_cons_of_mem _ hm)) fuel
        rw [hgo, hfind]
        exact ⟨h1, fun hl => h2 (Nat.lt_of_succ_lt_succ hl)⟩

end Walk

/-! ## A loop that keeps the best value so far -/

section RunMax

variable {β : Type*} [LinearOrder β] (p : α → Prop) [DecidablePred p] (f : α → β)

/-- `if (p(a) && f(a) > best) best = f(a)`. -/
def runMax (best : β) (a : α) : β := if p a ∧ best < f a then f a else best

theorem runMax_isGreatest (best : β) (a : α) : IsGreatest (insert best {v | p a ∧ f a = v}) (runMax p f best a) := by
  unfold runMax
  split
  · rename_i h
    refine ⟨Or.inr ⟨h.1, rfl⟩, fun v hv => ?_⟩
    rcases hv with hv | ⟨-, hv⟩
    · rw [hv]
      exact le_of_lt h.2
    · exact le_of_eq hv.symm
  · rename_i h
    refine ⟨Or.inl rfl, fun v hv => ?_⟩
    rcases hv with hv | ⟨hp, hv⟩
    · exact le_of_eq hv
    · rw [← hv]
      exact le_of_not_gt fun hlt => h ⟨hp, hlt⟩

/-- One round's greatest value, then the rest's. -/
theorem isGreatest_insert_trans {s t : Set β} {a b c : β} (h1 : IsGreatest (insert a s) b) (h2 : IsGreatest (insert b t) c) :
    IsGreatest (insert a (s ∪ t)) c := by
  have hbc : b ≤ c := h2.2 (Or.inl rfl)
  constructor
  · rcases h2.1 with hc | hc
    · subst hc
      rcases h1.1 with hb | hb
      · exact Or.inl hb
      · exact Or.inr (Or.inl hb)
    · exact Or.inr (Or.inr hc)
  · intro v hv
    rcases hv with hv | hv | hv
    · exact le_trans (h1.2 (Or.inl hv)) hbc
    · exact le_trans (h1.2 (Or.inr hv)) hbc
    · exact h2.2 (Or.inr hv)

theorem foldl_runMax_isGreatest (l : List α) (best : β) :
    IsGreatest (insert best {v | ∃ a ∈ l, p a ∧ f a = v}) (l.foldl (runMax p f) best) := by
  induction l generalizing best with
  | nil => simp
  | cons a l ih =>
    have h := isGreatest_insert_trans (runMax_isGreatest p f best a) (ih (runMax p f best a))
    have hset : {v | ∃ c ∈ a :: l, p c ∧ f c = v} = {v | p a ∧ f a = v} ∪ {v | ∃ c ∈ l, p c ∧ f c = v} := by
      ext v
      simp
    rw [hset]
    exact h

end RunMax

/-! ## Loops along a chain

`for (it = p; it; it = next it)`, with a bound on the number of rounds; `none` when it is
used up. -/

section ChainWalk

variable (next)

/-- The loop that accumulates; its body may itself run out of fuel. -/
def chainFold {σ : Type*} (f : σ → α → Option σ) : Nat → Option α → σ → Option σ
  | _, none, s => some s
  | 0, some _, _ => none
  | fuel + 1, some a, s => (f s a).bind (chainFold f fuel (next a))

/-- The loop that looks for `x` and remembers the node before it: `some none` when the
    chain has no `x`. -/
def chainFindPrev [DecidableEq α] (x : α) : Nat → Option α → Option α → Option (Option (Option α))
  | _, _, none => some none
  | 0, _, some _ => none
  | fuel + 1, prev, some a => if a = x then some (some prev) else chainFindPrev x fuel (some a) (next a)

variable {next}

/-- A loop that comes back has walked a null-terminated list. -/
theorem chainFold_chain {σ : Type*} {f : σ → α → Option σ} {fuel : Nat} {p : Option α} {s r : σ}
    (h : chainFold next f fuel p s = some r) : ∃ l, Chain next p l ∧ l.foldlM f s = some r := by
  induction fuel generalizing p s with
  | zero =>
    cases p with
    | none => exact ⟨[], rfl, by simpa [chainFold] using h⟩
    | some a => simp [chainFold] at h
  | succ fuel ih =>
    cases p with
    | none => exact ⟨[], rfl, by simpa [chainFold] using h⟩
    | some a =>
      simp only [chainFold, Option.bind_eq_some_iff] at h
      obtain ⟨s', hs', h⟩ := h
      obtain ⟨l, hl, hr⟩ := ih h
      exact ⟨a :: l, ⟨rfl, hl⟩, by simp [List.foldlM_cons, hs', hr]⟩

theorem chainFold_eq {σ : Type*} {f : σ → α → Option σ} {fuel : Nat} {p : Option α} {l : List α} {s r : σ}
    (hl : Chain next p l) (h : chainFold next f fuel p s = some r) : l.foldlM f s = some r := by
  obtain ⟨l', hl', hr⟩ := chainFold_chain h
  rw [Chain.unique hl hl']
  exact hr

/-- On a null-terminated list the loop comes back, given a round for each node. -/
theorem chainFold_returns {σ : Type*} {f : σ → α → σ} {fuel : Nat} {p : Option α} {l : List α} (h : Chain next p l)
    (hf : l.length ≤ fuel) (s : σ) : chainFold next (fun s a => some (f s a)) fuel p s = some (l.foldl f s) := by
  induction l generalizing fuel p s with
  | nil =>
    rw [seg_nil.mp h]
    cases fuel <;> rfl
  | cons a l ih =>
    obtain ⟨rfl, hl⟩ := h
    cases fuel with
    | zero => simp at hf
    | succ fuel =>
      simp only [chainFold, Option.bind_some, List.foldl_cons]
      exact ih hl (Nat.le_of_succ_le_succ hf) (f s a)

/-- A loop comes back if one along the same links does whose body comes back where its does. -/
theorem chainFold_isSome {σ τ : Type*} {f : σ → α → Option σ} {g : τ → α → Option τ} {fuel : Nat} {p : Option α} {s r : σ}
    (h : chainFold next f fuel p s = some r) (hfg : ∀ s a s', f s a = some s' → ∀ t, ∃ t', g t a = some t') (t : τ) :
    ∃ r', chainFold next g fuel p t = some r' := by
  induction fuel generalizing p s t with
  | zero =>
    cases p with
    | none => exact ⟨t, by simp [chainFold]⟩
    | some a => simp [chainFold] at h
  | succ fuel ih =>
    cases p with
    | none => exact ⟨t, by simp [chainFold]⟩
    | some a =>
      simp only [chainFold, Option.bind_eq_some_iff] at h
      obtain ⟨s', hs', h⟩ := h
      obtain ⟨t', ht'⟩ := hfg s a s' hs' t
      obtain ⟨r', hr'⟩ := ih h t'
      exact ⟨r', by simp [chainFold, ht', hr']⟩

theorem foldlM_some {σ : Type*} (f : σ → α → σ) (l : List α) (s : σ) :
    l.foldlM (fun s a => some (f s a)) s = some (l.foldl f s) := by
  induction l generalizing s with
  | nil => rfl
  | cons a l ih => simp [List.foldlM_cons, ih]

/-- The node remembered is the last one of the part before `x`. -/
theorem chainFindPrev_spec [DecidableEq α] {x : α} {fuel : Nat} {prev p : Option α} {l : List α} (h : Chain next p l)
    {r : Option (Option α)} (hr : chainFindPrev next x fuel prev p = some r) :
    (x ∉ l ∧ r = none) ∨ ∃ l₁ l₂, l = l₁ ++ x :: l₂ ∧ r = some (l₁.getLast?.or prev) := by
  induction l generalizing fuel prev p with
  | nil =>
    cases h
    refine Or.inl ⟨by simp, ?_⟩
    cases fuel <;> simpa [chainFindPrev] using hr.symm
  | cons a l ih =>
    obtain ⟨rfl, hl⟩ := h
    cases fuel with
    | zero => simp [chainFindPrev] at hr
    | succ fuel =>
      simp only [chainFindPrev] at hr
      split at hr
      · rename_i hax
        exact Or.inr ⟨[], l, by rw [hax]; rfl, by simpa using hr.symm⟩
      · rename_i hax
        rcases ih hl hr with ⟨hx, hn⟩ | ⟨l₁, l₂, rfl, hs⟩
        · exact Or.inl ⟨by simp [Ne.symm hax, hx], hn⟩
        · refine Or.inr ⟨a :: l₁, l₂, rfl, ?_⟩
          rw [hs]
          cases l₁ <;> simp [List.getLast?_cons]

end ChainWalk

end Microkernel.Linked

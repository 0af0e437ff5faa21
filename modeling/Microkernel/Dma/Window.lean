/-
  Microkernel.Dma.Window — what the DMA window hands out.

  Descriptors go up from the window's start, data buffers come down from its end; each
  side stops at the other's cursor. `WindowRun` is any sequence of `dma_alloc_buffer` and
  `dma_submit_memcpy` calls with any arguments, and of whatever other code does to the
  request list and to memory in between; `Grant` is a part of the window that a call
  handed out, with the size and the alignment it was asked with.

  Proved (`window_grants`): with a window that does not start at 0 and ends 64 bytes below
  2^64 or earlier (`Platform`), all grants lie in the window, are aligned and pairwise
  disjoint, and a call that grants nothing leaves both cursors where they were. The
  linker scripts place the window in RAM. At the two ends of the address space the law
  fails (`window_at_the_ends`): address 0 is null, and `aligned + sizeof(dma_desc)` wraps
  around.
-/

import Microkernel.Dma.Descs

namespace Microkernel.Dma

open Bytes Align

/-- A buffer or a descriptor. -/
structure Grant where
  addr : Addr
  len : Addr
  align : Addr
  deriving DecidableEq

namespace Grant

def Has (g : Grant) (a : Nat) : Prop := g.addr.toNat ≤ a ∧ a < g.addr.toNat + g.len.toNat

structure Good (start stop : Addr) (g : Grant) : Prop where
  low : start.toNat ≤ g.addr.toNat
  high : g.addr.toNat + g.len.toNat ≤ stop.toNat
  /-- An alignment of 0 means 1. -/
  aligned : g.align ≠ 0#64 → g.align.toNat ∣ g.addr.toNat

def Apart (g h : Grant) : Prop := ∀ a, ¬ (g.Has a ∧ h.Has a)

theorem apart_of_le {g h : Grant} (hle : g.addr.toNat + g.len.toNat ≤ h.addr.toNat) : g.Apart h := by
  intro a hboth
  obtain ⟨⟨-, hg⟩, hh, -⟩ := hboth
  omega

theorem Apart.symm {g h : Grant} (ha : g.Apart h) : h.Apart g := fun a hboth => ha a hboth.symm

end Grant

inductive Request where
  | buffer (len align : Addr)
  | submit (dst src len cb user : Addr)
  deriving DecidableEq

/-- `alignof(dma_desc)`. -/
def descAlign : Nat := 8

/-- A call, and what it hands out. -/
def Queue.serve (q : Queue) : Request → Queue × Option Grant
  | .buffer len align =>
    let (q, p) := q.allocBuffer len align
    (q, if p = 0#64 then none else some ⟨p, len, align⟩)
  | .submit dst src len cb user =>
    let (q, code) := q.submitMemcpy dst src len cb user
    (q, if code = 0 then some ⟨q.tail, BitVec.ofNat 64 descSize, BitVec.ofNat 64 descAlign⟩ else none)

/-- The window `[start, stop)` from the initial cursors on, with the grants, newest first. -/
inductive WindowRun (start stop : Addr) : Queue → List Grant → Prop
  | init (head tail : Addr) (m : Mem) : WindowRun start stop ⟨start, stop, head, tail, m⟩ []
  | none {q : Queue} {gs : List Grant} (r : Request) : WindowRun start stop q gs → (q.serve r).2 = none →
      WindowRun start stop (q.serve r).1 gs
  | grant {q : Queue} {gs : List Grant} (r : Request) (g : Grant) : WindowRun start stop q gs → (q.serve r).2 = some g →
      WindowRun start stop (q.serve r).1 (g :: gs)
  | other {q : Queue} {gs : List Grant} (head tail : Addr) (m : Mem) : WindowRun start stop q gs →
      WindowRun start stop { q with head := head, tail := tail, mem := m } gs

def SameCursors (q q' : Queue) : Prop := q'.descNext = q.descNext ∧ q'.bufEnd = q.bufEnd

/-- The law of the window in a state of a run. -/
structure Lawful (start stop : Addr) (q : Queue) (gs : List Grant) : Prop where
  good : ∀ g ∈ gs, g.Good start stop
  apart : gs.Pairwise Grant.Apart
  none : ∀ r, (q.serve r).2 = none → SameCursors q (q.serve r).1

/-! ## One call -/

/-- Descriptors below the one cursor, buffers above the other. -/
structure Split (P : Platform) (q : Queue) (gs : List Grant) : Prop where
  start_le : P.ncStart.toNat ≤ q.descNext.toNat
  next_le : q.descNext.toNat ≤ q.bufEnd.toNat
  end_le : q.bufEnd.toNat ≤ P.ncEnd.toNat
  good : ∀ g ∈ gs, g.Good P.ncStart P.ncEnd
  sides : ∀ g ∈ gs, g.addr.toNat + g.len.toNat ≤ q.descNext.toNat ∨ q.bufEnd.toNat ≤ g.addr.toNat
  apart : gs.Pairwise Grant.Apart

section Calls

variable {P : Platform} {q : Queue} {gs : List Grant}

theorem Split.congr {q' : Queue} (h : Split P q gs) (hc : SameCursors q q') : Split P q' gs := by
  obtain ⟨hn, he⟩ := hc
  obtain ⟨h1, h2, h3, h4, h5, h6⟩ := h
  refine ⟨?_, ?_, ?_, h4, ?_, h6⟩
  · rwa [hn]
  · rwa [hn, he]
  · rwa [he]
  · rwa [hn, he]

/-- A new grant between the cursors. -/
theorem Split.add (h : Split P q gs) {g : Grant} {q' : Queue} (hlow : q.descNext.toNat ≤ g.addr.toNat)
    (hhigh : g.addr.toNat + g.len.toNat ≤ q.bufEnd.toNat) (ha : g.align ≠ 0#64 → g.align.toNat ∣ g.addr.toNat)
    (hside : q'.descNext.toNat = g.addr.toNat + g.len.toNat ∧ q'.bufEnd = q.bufEnd ∨
      q'.descNext = q.descNext ∧ q'.bufEnd.toNat = g.addr.toNat) : Split P q' (g :: gs) := by
  have h1 := h.start_le
  have h2 := h.next_le
  have h3 := h.end_le
  have hgood : g.Good P.ncStart P.ncEnd := ⟨by omega, by omega, ha⟩
  refine ⟨?_, ?_, ?_, ?_, ?_, List.pairwise_cons.mpr ⟨?_, h.apart⟩⟩
  · rcases hside with ⟨hn, -⟩ | ⟨hn, -⟩
    · omega
    · rwa [hn]
  · rcases hside with ⟨hn, he⟩ | ⟨hn, he⟩
    · rwa [hn, he]
    · rwa [hn, he]
  · rcases hside with ⟨-, he⟩ | ⟨-, he⟩
    · rwa [he]
    · omega
  · intro f hf
    rcases List.mem_cons.mp hf with rfl | hf
    · exact hgood
    · exact h.good f hf
  · intro f hf
    rcases List.mem_cons.mp hf with rfl | hf
    · rcases hside with ⟨hn, -⟩ | ⟨-, he⟩
      · exact Or.inl (by omega)
      · exact Or.inr (by omega)
    · rcases h.sides f hf with hb | hb
      · rcases hside with ⟨hn, -⟩ | ⟨hn, -⟩
        · exact Or.inl (by omega)
        · exact Or.inl (by rwa [hn])
      · rcases hside with ⟨-, he⟩ | ⟨-, he⟩
        · exact Or.inr (by rwa [he])
        · exact Or.inr (by omega)
  · intro f hf
    rcases h.sides f hf with hb | hb
    · exact (Grant.apart_of_le (by omega : f.addr.toNat + f.len.toNat ≤ g.addr.toNat)).symm
    · exact Grant.apart_of_le (by omega)

theorem link_cursors (q : Queue) (d : Addr) : SameCursors q (q.link d) := by
  unfold Queue.link
  split
  · exact ⟨rfl, rfl⟩
  · exact ⟨rfl, rfl⟩

/-- What a call does to the cursors. -/
theorem Split.serve (h : Split P q gs) (r : Request) :
    ((q.serve r).2 = none ∧ SameCursors q (q.serve r).1) ∨ ∃ g, (q.serve r).2 = some g ∧ Split P (q.serve r).1 (g :: gs) := by
  have hpos := P.pos
  have hlow := h.start_le
  cases r with
  | buffer len align =>
    simp only [Queue.serve]
    rcases allocBuffer_spec q len align with hnone | ⟨p, hp, hge, hle, hdvd⟩
    · rw [hnone]
      exact Or.inl ⟨if_pos rfl, rfl, rfl⟩
    · have hne : p ≠ 0#64 := by
        rintro rfl
        simp only [BitVec.toNat_ofNat, Nat.zero_mod] at hge
        omega
      rw [hp]
      exact Or.inr ⟨⟨p, len, align⟩, if_neg hne, h.add hge hle hdvd (Or.inr ⟨rfl, rfl⟩)⟩
  | submit dst src len cb user =>
    simp only [Queue.serve, Queue.submitMemcpy]
    by_cases harg : dst = 0#64 ∨ src = 0#64 ∨ len = 0#64
    · rw [if_pos harg]
      exact Or.inl ⟨rfl, rfl, rfl⟩
    rw [if_neg harg]
    rcases allocDesc_spec h.next_le h.end_le with hnone | ⟨d, hd, hdvd, hge, hle, hsum⟩
    · rw [hnone]
      exact Or.inl ⟨rfl, rfl, rfl⟩
    · have hne : d ≠ 0#64 := by
        rintro rfl
        simp only [BitVec.toNat_ofNat, Nat.zero_mod] at hge
        omega
      rw [hd]
      simp only [hne, if_false, if_true]
      right
      refine ⟨_, rfl, ?_⟩
      rw [link_tail]
      obtain ⟨hn, he⟩ := link_cursors { q with
        descNext := d + BitVec.ofNat 64 descSize
        mem := Queue.fillDesc q.mem ⟨d, dst, src, len, cb, user⟩ } d
      refine h.add hge hle (fun _ => hdvd) (Or.inl ⟨?_, he⟩)
      rw [hn]
      exact hsum

theorem Split.lawful (h : Split P q gs) : Lawful P.ncStart P.ncEnd q gs := by
  refine ⟨h.good, h.apart, fun r hr => ?_⟩
  rcases h.serve r with ⟨-, hc⟩ | ⟨g, hg, -⟩
  · exact hc
  · rw [hr] at hg
    cases hg

end Calls

/-! ## Runs -/

theorem split_run {P : Platform} {q : Queue} {gs : List Grant} (h : WindowRun P.ncStart P.ncEnd q gs) : Split P q gs := by
  induction h with
  | init head tail m =>
    have hno : ∀ g ∈ ([] : List Grant), False := fun g hg => by cases hg
    exact ⟨le_refl _, P.le, le_refl _, fun g hg => (hno g hg).elim, fun g hg => (hno g hg).elim, List.Pairwise.nil⟩
  | none r _ hr ih =>
    rcases ih.serve r with ⟨-, hc⟩ | ⟨g, hg, -⟩
    · exact ih.congr hc
    · rw [hr] at hg
      cases hg
  | grant r g _ hr ih =>
    rcases ih.serve r with ⟨hn, -⟩ | ⟨f, hf, hsplit⟩
    · rw [hr] at hn
      cases hn
    · rw [hr] at hf
      cases hf
      exact hsplit
  | other head tail m _ ih => exact ih.congr ⟨rfl, rfl⟩

/-- In every run with a window that does not start at 0 and ends at least 64 bytes below 2^64, buffers and descriptors
    lie in the window, have their alignment and do not overlap; a call that returns null, or no descriptor, changes
    neither cursor. -/
theorem window_grants {P : Platform} {q : Queue} {gs : List Grant} (h : WindowRun P.ncStart P.ncEnd q gs) :
    Lawful P.ncStart P.ncEnd q gs := (split_run h).lawful

/-- A window of 128 KiB. -/
def sampleWindow : Platform := ⟨0x40190000#64, 0x401B0000#64, by decide, by decide, by decide, true, id⟩

/-- A buffer of 100 bytes at a multiple of 64, and a descriptor. -/
theorem window_grants_two :
    ∃ q gs, gs.length = 2 ∧ WindowRun sampleWindow.ncStart sampleWindow.ncEnd q gs ∧
      Lawful sampleWindow.ncStart sampleWindow.ncEnd q gs := by
  have h0 : WindowRun sampleWindow.ncStart sampleWindow.ncEnd _ [] := .init 0#64 0#64 fun _ => 0#8
  have h1 := h0.grant (.buffer 100#64 64#64) ⟨0x401AFF80#64, 100#64, 64#64⟩ (by decide +kernel)
  have h2 := h1.grant (.submit 0x40000000#64 0x40001000#64 8#64 0#64 0#64)
    ⟨0x40190000#64, BitVec.ofNat 64 descSize, BitVec.ofNat 64 descAlign⟩ (by decide +kernel)
  exact ⟨_, _, rfl, h2, window_grants h2⟩

/-- A window from address 0, whose first descriptor is taken for null though its room is gone, and one that ends 8 bytes
    below 2^64, whose second descriptor leaves it. -/
theorem window_at_the_ends :
    (∃ q gs, WindowRun 0#64 0x1000#64 q gs ∧ ¬ Lawful 0#64 0x1000#64 q gs) ∧
      ∃ q gs, WindowRun 0xFFFFFFFFFFFFFFB8#64 0xFFFFFFFFFFFFFFF8#64 q gs ∧
        ¬ Lawful 0xFFFFFFFFFFFFFFB8#64 0xFFFFFFFFFFFFFFF8#64 q gs := by
  constructor
  · refine ⟨_, _, .init 0#64 0#64 fun _ => 0#8, fun h => ?_⟩
    have hc := (h.none (.submit 0x40000000#64 0x40001000#64 8#64 0#64 0#64) (by decide +kernel)).1
    exact absurd hc (by decide +kernel)
  · have h0 : WindowRun 0xFFFFFFFFFFFFFFB8#64 0xFFFFFFFFFFFFFFF8#64 _ [] := .init 0#64 0#64 fun _ => 0#8
    have h1 := h0.grant (.submit 0x40000000#64 0x40001000#64 8#64 0#64 0#64)
      ⟨0xFFFFFFFFFFFFFFB8#64, BitVec.ofNat 64 descSize, BitVec.ofNat 64 descAlign⟩ (by decide +kernel)
    have h2 := h1.grant (.submit 0x40000000#64 0x40001000#64 8#64 0#64 0#64)
      ⟨0xFFFFFFFFFFFFFFF0#64, BitVec.ofNat 64 descSize, BitVec.ofNat 64 descAlign⟩ (by decide +kernel)
    refine ⟨_, _, h2, fun h => ?_⟩
    have hhigh := (h.good _ List.mem_cons_self).high
    exact absurd hhigh (by decide +kernel)

end Microkernel.Dma

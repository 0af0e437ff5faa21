/-
  Microkernel.Mem.Heap — runs of the first-fit heap of src/mem_lab.cc.

  A run is a sequence of calls after `heap_init`: allocations, frees of live pointers, and
  stores of clients to any byte of a payload they have. `live` has the pointers with the
  sizes that were asked for. The runs of `HeapRun a C` ask for sizes that meet `C`.

  For sizes from 1 to the size of the heap, every state of a run is intact
  (`heap_integrity`): headers, tiling, live payloads, no two free neighbours, and one free
  block when nothing is live. For any sizes the blocks still tile the heap
  (`heapInv_run`), and an allocation is right about what fits if and only if rounding the
  request does not wrap around, or nothing is free (`first_fit_iff`): `align_up` turns a
  request of more than 2^64 - 16 bytes into 0, which fits every free block
  (`huge_request_succeeds`). The check `req == 0` stands before the rounding.
-/

import Microkernel.Lib.Linked
import Microkernel.Mem.FirstFit

namespace Microkernel.FirstFit

open Align Blocks Bytes

/-- Calls after `heap_init` with sizes that meet `C`, and stores to live payloads. -/
inductive HeapRun (a : Arena) (C : BitVec 64 → Prop) : Mem → List (Addr × BitVec 64) → Prop
  | init (m : Mem) : HeapRun a C (heapInit m a.base a.bytes) []
  | alloc {m : Mem} {live : List (Addr × BitVec 64)} {k : Nat} {r : Alloc} (req : BitVec 64) : HeapRun a C m live → C req →
      heapAllocFirstFit k m a.base a.bytes req = some r → HeapRun a C r.mem (if r.ptr = 0#64 then live else (r.ptr, req) :: live)
  | free {m m' : Mem} {live : List (Addr × BitVec 64)} {k : Nat} {e : Addr × BitVec 64} : HeapRun a C m live → e ∈ live →
      heapFree k m a.base a.bytes e.1 = some m' → HeapRun a C m' (live.filter fun f => f.1 ≠ e.1)
  | write {m : Mem} {live : List (Addr × BitVec 64)} {e : Addr × BitVec 64} {i : Nat} (v : BitVec 8) : HeapRun a C m live → e ∈ live →
      i < (size m (e.1 - 16#64)).toNat → HeapRun a C (Function.update m (e.1 + BitVec.ofNat 64 i) v) live

/-! ## What a walk sees -/

/-- The block whose header lies at `b`. -/
def blockAt (m : Mem) (b : Addr) : Block := ⟨b.toNat, (size m b).toNat, flags m b &&& kHeapFree ≠ 0#32⟩

/-- `heap_next` leads from the first header over `hs` to the end of the heap, without a gap. -/
structure Walk (a : Arena) (m : Mem) (hs : List Addr) : Prop where
  next : Linked.Seg (fun b => some (heapNext m b)) (some a.base) hs (some (a.base + a.bytes))
  magic : ∀ b ∈ hs, magic m b = kHeapMagic
  tiles : Tiles 16 a.base.toNat (hs.map (blockAt m)) a.hi

section Walk

variable {a : Arena} {m : Mem} {b : Block} {l : List Block} {lo hi : Nat}

/-- Where the headers lie. -/
def headerAddrs (l : List Block) : List Addr := l.map fun b => BitVec.ofNat 64 b.addr

theorem HeaderAt.block (hh : HeaderAt m b) (hlt : b.stop 16 < 2 ^ 64) : blockAt m (BitVec.ofNat 64 b.addr) = b := by
  unfold Block.stop at hlt
  have hfree : decide (FirstFit.flags m (BitVec.ofNat 64 b.addr) &&& kHeapFree ≠ 0#32) = b.free := by
    simp only [ne_eq, hh.free_iff]
    cases b.free <;> rfl
  unfold blockAt
  rw [hfree, hh.size, toNat_word (by omega), toNat_word (by omega)]

theorem Holds.blocks (h : Holds hi m lo l) (hhi : hi < 2 ^ 64) : (headerAddrs l).map (blockAt m) = l := by
  unfold headerAddrs
  rw [List.map_map]
  refine (List.map_congr_left fun b hb => ?_).trans (List.map_id l)
  have hstop := (h.tiles.mem hb).2
  exact (h.headers b hb).block (by omega)

theorem Holds.next_seg (h : Holds hi m lo l) (hhi : hi < 2 ^ 64) :
    Linked.Seg (fun b => some (heapNext m b)) (some (BitVec.ofNat 64 lo)) (headerAddrs l) (some (BitVec.ofNat 64 hi)) := by
  induction l generalizing lo with
  | nil =>
    have heq : lo = hi := h.tiles
    rw [heq]
    rfl
  | cons b l ih =>
    have hnext := h.next hhi
    have hrest := ih h.tail
    rw [← hnext] at hrest
    rw [← h.addr] at hrest ⊢
    exact ⟨rfl, hrest⟩

theorem Holds.walk (h : Holds a.hi m a.base.toNat l) : Walk a m (headerAddrs l) := by
  have hhi := a.hi_lt
  refine ⟨?_, ?_, ?_⟩
  · have hseg := h.next_seg (by omega)
    rw [← a.base_eq, ← a.stop_eq] at hseg
    exact hseg
  · intro p hp
    obtain ⟨b, hb, rfl⟩ := List.mem_map.mp hp
    exact (h.headers b hb).magic
  · rw [h.blocks (by omega)]
    exact h.tiles

end Walk

/-! ## The invariant -/

/-- For any requests. A live pointer is the payload of a used block. -/
structure HeapInv (a : Arena) (m : Mem) (l : List Block) (live : List (Addr × BitVec 64)) : Prop where
  holds : Holds a.hi m a.base.toNat l
  owned : ∀ e ∈ live, ∃ b ∈ used l, e.1 = BitVec.ofNat 64 (b.addr + 16)

section Inv

variable {a : Arena} {m m' : Mem} {b c : Block} {l l' : List Block} {live : List (Addr × BitVec 64)} {e : Addr × BitVec 64} {k : Nat}

/-- No block reaches the end of the address space. -/
theorem Holds.below (h : Holds a.hi m a.base.toNat l) (hb : b ∈ l) : b.addr + 16 + b.size + 32 < 2 ^ 64 := by
  have hhi := a.hi_lt
  have hstop := (h.tiles.mem hb).2
  unfold Block.stop at hstop
  omega

theorem Holds.payload_toNat (h : Holds a.hi m a.base.toNat l) (hb : b ∈ l) : (BitVec.ofNat 64 (b.addr + 16)).toNat = b.addr + 16 := by
  have hbelow := h.below hb
  exact toNat_word (by omega)

/-- A block is found by its payload. -/
theorem Holds.payload_inj (h : Holds a.hi m a.base.toNat l) (hb : b ∈ l) (hc : c ∈ l)
    (heq : BitVec.ofNat 64 (b.addr + 16) = BitVec.ofNat 64 (c.addr + 16)) : b = c := by
  have heq := congrArg BitVec.toNat heq
  rw [h.payload_toNat hb, h.payload_toNat hc] at heq
  exact h.tiles.addr_inj (by decide) hb hc (by omega)

/-- An allocation that comes back has changed nothing, or taken a block. -/
theorem Holds.alloc_cases {req : BitVec 64} {r : Alloc} (h : Holds a.hi m a.base.toNat l)
    (hr : heapAllocFirstFit k m a.base a.bytes req = some r) :
    (r.mem = m ∧ r.ptr = 0#64) ∨
    ∃ l' p, req ≠ 0#64 ∧ firstFit 16 16 (rounded req) l = some (l', p) ∧ r.ptr = BitVec.ofNat 64 (p + 16) ∧ r.ptr ≠ 0#64 ∧
      Holds a.hi r.mem a.base.toNat l' := by
  by_cases hreq : req = 0#64
  · rw [heapAllocFirstFit, if_pos (Or.inr hreq)] at hr
    cases hr
    exact Or.inl ⟨rfl, rfl⟩
  · rcases alloc_spec hreq k h with ⟨hnone, -⟩ | ⟨-, n, hsome⟩ | ⟨l', p, m', n, hf, hsome, hm'⟩
    · rw [hnone] at hr
      cases hr
    · rw [hsome] at hr
      cases hr
      exact Or.inl ⟨rfl, rfl⟩
    · rw [hsome] at hr
      cases hr
      obtain ⟨b, hb, -, rfl⟩ := firstFit_fits hf
      refine Or.inr ⟨l', b.addr, hreq, hf, rfl, fun h0 => ?_, hm'⟩
      have hword := h.payload_toNat hb
      rw [show BitVec.ofNat 64 (b.addr + 16) = 0#64 from h0] at hword
      exact absurd hword (by simp)

/-- A free of a block has changed nothing, or freed it and joined what is free. -/
theorem Holds.free_cases (h : Holds a.hi m a.base.toNat l) (hb : b ∈ l)
    (hm' : heapFree k m a.base a.bytes (BitVec.ofNat 64 (b.addr + 16)) = some m') :
    (a.hi ≤ b.addr + 16 ∧ m' = m) ∨ Holds a.hi m' a.base.toNat (coalesce 16 (Blocks.release b.addr l)) := by
  rcases free_spec k h hb with ⟨hlast, hsame⟩ | ⟨-, hnone, -⟩ | ⟨-, m'', hsome, hm''⟩
  · rw [hsame] at hm'
    cases hm'
    exact Or.inl ⟨hlast, rfl⟩
  · rw [hnone] at hm'
    cases hm'
  · rw [hsome] at hm'
    cases hm'
    exact Or.inr hm''

/-- A byte of the payload of a live pointer. -/
theorem HeapInv.write {i : Nat} (v : BitVec 8) (h : HeapInv a m l live) (he : e ∈ live) (hi : i < (size m (e.1 - 16#64)).toNat) :
    HeapInv a (Function.update m (e.1 + BitVec.ofNat 64 i) v) l live := by
  have hhi := a.hi_lt
  obtain ⟨b, hb, hp⟩ := h.owned e he
  have hb := (mem_used.mp hb).1
  have hbelow := h.holds.below hb
  have hhdr : e.1 - 16#64 = BitVec.ofNat 64 b.addr := by rw [hp, BitVec.ofNat_add, BitVec.add_sub_cancel]
  rw [hhdr, (h.holds.headers b hb).size] at hi
  refine ⟨h.holds.write (by omega) hb fun x hx => ?_, h.owned⟩
  apply Function.update_of_ne
  rintro rfl
  unfold Block.stop at hx
  rw [toNat_word (by omega)] at hi
  rw [hp, ← BitVec.ofNat_add, toNat_word (by omega)] at hx
  omega

theorem HeapInv.alloc {req : BitVec 64} {r : Alloc} (h : HeapInv a m l live) (hr : heapAllocFirstFit k m a.base a.bytes req = some r) :
    ∃ l', HeapInv a r.mem l' (if r.ptr = 0#64 then live else (r.ptr, req) :: live) := by
  rcases h.holds.alloc_cases hr with ⟨hm, hp⟩ | ⟨l', p, -, hf, hp, hne, hm'⟩
  · rw [hm, if_pos hp]
    exact ⟨l, h⟩
  · obtain ⟨s, -, hused⟩ := mem_used_firstFit hf
    rw [if_neg hne]
    refine ⟨l', hm', List.forall_mem_cons.mpr ⟨⟨_, (hused _).mpr (Or.inl rfl), hp⟩, fun e he => ?_⟩⟩
    obtain ⟨b, hb, hpb⟩ := h.owned e he
    exact ⟨b, (hused b).mpr (Or.inr hb), hpb⟩

theorem HeapInv.free (h : HeapInv a m l live) (he : e ∈ live) (hm' : heapFree k m a.base a.bytes e.1 = some m') :
    ∃ l', HeapInv a m' l' (live.filter fun f => f.1 ≠ e.1) := by
  obtain ⟨b, hb, hp⟩ := h.owned e he
  rw [hp] at hm'
  rcases h.holds.free_cases (mem_used.mp hb).1 hm' with ⟨-, rfl⟩ | hm'
  · exact ⟨l, h.holds, fun f hf => h.owned f (List.mem_of_mem_filter hf)⟩
  · refine ⟨_, hm', fun f hf => ?_⟩
    obtain ⟨hlive, hne⟩ := List.mem_filter.mp hf
    obtain ⟨c, hc, hpc⟩ := h.owned f hlive
    refine ⟨c, ?_, hpc⟩
    rw [used_coalesce, mem_used_release]
    refine ⟨hc, fun heq => ?_⟩
    rw [hpc, hp, heq] at hne
    exact absurd rfl (of_decide_eq_true hne)

end Inv

/-- In every state of every run the blocks tile the heap. -/
theorem heapInv_run {a : Arena} {C : BitVec 64 → Prop} {m : Mem} {live : List (Addr × BitVec 64)} (r : HeapRun a C m live) :
    ∃ l, HeapInv a m l live := by
  induction r with
  | init m => exact ⟨initial a, init_spec a m, by simp⟩
  | alloc req _ _ hr ih =>
    obtain ⟨l, h⟩ := ih
    exact h.alloc hr
  | free _ he hm' ih =>
    obtain ⟨l, h⟩ := ih
    exact h.free he hm'
  | write v _ he hi ih =>
    obtain ⟨l, h⟩ := ih
    exact ⟨l, h.write v he hi⟩

/-! ## Sizes that fit the heap -/

/-- What the clients of a heap may ask for. -/
def Sized (a : Arena) (req : BitVec 64) : Prop := 1 ≤ req.toNat ∧ req.toNat ≤ a.bytes.toNat

instance (a : Arena) : DecidablePred (Sized a) := fun _ => inferInstanceAs (Decidable (_ ∧ _))

/-- Used blocks and live pointers are then the same, and no block is too small to be freed. -/
structure FullInv (a : Arena) (m : Mem) (l : List Block) (live : List (Addr × BitVec 64)) : Prop extends HeapInv a m l live where
  roomy : ∀ b ∈ l, 16 ≤ b.size
  merged : Merged l
  keys : (live.map Prod.fst).Nodup
  sized : ∀ e ∈ live, ∀ b ∈ used l, e.1 = BitVec.ofNat 64 (b.addr + 16) → e.2.toNat ≤ b.size
  held : ∀ b ∈ used l, ∃ e ∈ live, e.1 = BitVec.ofNat 64 (b.addr + 16)

section Full

variable {a : Arena} {m m' : Mem} {l : List Block} {live : List (Addr × BitVec 64)} {e : Addr × BitVec 64} {k : Nat}

/-- The rounding of a request that does not wrap around. -/
theorem rounded_eq {req : BitVec 64} (h : req.toNat ≤ 2 ^ 64 - 16) : rounded req = ceilTo 16 req.toNat := by
  have hle : ceilTo 16 req.toNat ≤ 2 ^ 64 - 16 := ceilTo_le (by decide) (by decide) h
  unfold rounded
  rw [toNat_roundUp_16, if_pos (by omega)]

theorem Sized.rounded {req : BitVec 64} (h : Sized a req) : req.toNat ≤ rounded req ∧ 16 ≤ rounded req := by
  have hroom := a.room
  obtain ⟨hpos, hle⟩ := h
  have hceil := le_ceilTo (a := 16) (by decide) req.toNat
  have hdvd := dvd_ceilTo 16 req.toNat
  rw [rounded_eq (by omega)]
  omega

theorem fullInv_init (hsize : 32 ≤ a.bytes.toNat) (m : Mem) : FullInv a (heapInit m a.base a.bytes) (initial a) [] := by
  have hne : a.bytes ≠ 0#64 := by
    intro h0
    rw [h0] at hsize
    exact absurd hsize (by decide)
  have hl : initial a = [⟨a.base.toNat, a.bytes.toNat - 16, true⟩] := if_neg hne
  refine ⟨⟨init_spec a m, by simp⟩, ?_, ?_, List.nodup_nil, by simp, ?_⟩
  · rw [hl, List.forall_mem_singleton]
    dsimp only
    omega
  · rw [hl]
    exact List.isChain_singleton _
  · rw [hl]
    simp [used]

theorem FullInv.alloc {req : BitVec 64} {r : Alloc} (h : FullInv a m l live) (hc : Sized a req)
    (hr : heapAllocFirstFit k m a.base a.bytes req = some r) :
    ∃ l', FullInv a r.mem l' (if r.ptr = 0#64 then live else (r.ptr, req) :: live) := by
  rcases h.holds.alloc_cases hr with ⟨hm, hp⟩ | ⟨l', p, -, hf, hp, hne, hm'⟩
  · rw [hm, if_pos hp]
    exact ⟨l, h⟩
  · obtain ⟨hreq, hround⟩ := hc.rounded
    obtain ⟨l₁, b, l₂, hl, hb, hl', hpb⟩ := firstFit_some hf
    obtain ⟨s, hs, hused⟩ := mem_used_firstFit hf
    have hbl : b ∈ l := by simp [hl]
    have htaken : (⟨p, s, false⟩ : Block) ∈ l' := (mem_used.mp ((hused _).mpr (Or.inl rfl))).1
    have hold : ∀ c ∈ used l, c ∈ l' := fun c hc => (mem_used.mp ((hused c).mpr (Or.inr hc))).1
    -- the block that was taken was free, so nobody had its payload
    have hnew : ∀ e ∈ live, e.1 ≠ r.ptr := by
      intro e he heq
      obtain ⟨c, hc, hpc⟩ := h.owned e he
      obtain ⟨hcl, hcused⟩ := mem_used.mp hc
      have hcb : c = b := h.holds.payload_inj hcl hbl (by rw [← hpc, heq, hp, hpb])
      rw [hcb, hb.1] at hcused
      cases hcused
    rw [if_neg hne]
    refine ⟨l', ⟨hm', ?_⟩, ?_, ?_, ?_, ?_, ?_⟩
    · refine List.forall_mem_cons.mpr ⟨⟨_, (hused _).mpr (Or.inl rfl), hp⟩, fun e he => ?_⟩
      obtain ⟨c, hc, hpc⟩ := h.owned e he
      exact ⟨c, (hused c).mpr (Or.inr hc), hpc⟩
    · have hroomy := h.roomy
      rw [hl] at hroomy
      rw [hl']
      exact sizes_carve (P := fun s => 16 ≤ s) hround (fun s _ hle => by omega) hroomy
    · have hmerged := h.merged
      rw [hl] at hmerged
      rw [hl']
      exact merged_carve hb.1 hmerged
    · rw [List.map_cons, List.nodup_cons]
      refine ⟨fun hmem => ?_, h.keys⟩
      obtain ⟨e, he, heq⟩ := List.mem_map.mp hmem
      exact hnew e he heq
    · intro e he c hc hpc
      rcases List.mem_cons.mp he with rfl | he
      · have hcp : c = ⟨p, s, false⟩ := hm'.payload_inj (mem_used.mp hc).1 htaken (by rw [← hpc, ← hp])
        rw [hcp]
        exact hreq.trans hs
      · rcases (hused c).mp hc with rfl | hc
        · exact absurd (hpc.trans hp.symm) (hnew e he)
        · exact h.sized e he c hc hpc
    · intro c hc
      rcases (hused c).mp hc with rfl | hc
      · exact ⟨(r.ptr, req), List.mem_cons_self, hp⟩
      · obtain ⟨e, he, hpc⟩ := h.held c hc
        exact ⟨e, List.mem_cons_of_mem _ he, hpc⟩

theorem FullInv.free (h : FullInv a m l live) (he : e ∈ live) (hm' : heapFree k m a.base a.bytes e.1 = some m') :
    ∃ l', FullInv a m' l' (live.filter fun f => f.1 ≠ e.1) := by
  obtain ⟨b, hb, hp⟩ := h.owned e he
  obtain ⟨hbl, -⟩ := mem_used.mp hb
  have hroomy := h.roomy b hbl
  have hstop := (h.holds.tiles.mem hbl).2
  unfold Block.stop at hstop
  rw [hp] at hm'
  rcases h.holds.free_cases hbl hm' with ⟨hlast, -⟩ | hm'
  · omega
  · have hmem : ∀ c, c ∈ used (coalesce 16 (Blocks.release b.addr l)) ↔ c ∈ used l ∧ c.addr ≠ b.addr := by
      intro c
      rw [used_coalesce, mem_used_release]
    have hlive : ∀ f, f ∈ live.filter (fun f => f.1 ≠ e.1) ↔ f ∈ live ∧ f.1 ≠ e.1 := by
      intro f
      rw [List.mem_filter, decide_eq_true_eq]
    have hother : ∀ f ∈ live, f.1 ≠ e.1 → ∀ c ∈ used l, f.1 = BitVec.ofNat 64 (c.addr + 16) → c.addr ≠ b.addr := by
      intro f _ hne c _ hpc haddr
      rw [hpc, hp, haddr] at hne
      exact hne rfl
    refine ⟨_, ⟨hm', ?_⟩, ?_, merged_coalesce, ?_, ?_, ?_⟩
    · intro f hf
      obtain ⟨hf, hne⟩ := (hlive f).mp hf
      obtain ⟨c, hc, hpc⟩ := h.owned f hf
      exact ⟨c, (hmem c).mpr ⟨hc, hother f hf hne c hc hpc⟩, hpc⟩
    · exact sizes_coalesce (P := fun s => 16 ≤ s) (fun s t hs _ => by omega) (sizes_release (P := fun s => 16 ≤ s) h.roomy)
    · exact h.keys.sublist (List.filter_sublist.map Prod.fst)
    · intro f hf c hc hpc
      exact h.sized f ((hlive f).mp hf).1 c ((hmem c).mp hc).1 hpc
    · intro c hc
      obtain ⟨hc, haddr⟩ := (hmem c).mp hc
      obtain ⟨f, hf, hpc⟩ := h.held c hc
      refine ⟨f, (hlive f).mpr ⟨hf, fun heq => haddr ?_⟩, hpc⟩
      exact congrArg Block.addr (h.holds.payload_inj (mem_used.mp hc).1 hbl (by rw [← hpc, heq, hp]))

theorem FullInv.write {i : Nat} (v : BitVec 8) (h : FullInv a m l live) (he : e ∈ live) (hi : i < (size m (e.1 - 16#64)).toNat) :
    FullInv a (Function.update m (e.1 + BitVec.ofNat 64 i) v) l live :=
  ⟨h.toHeapInv.write v he hi, h.roomy, h.merged, h.keys, h.sized, h.held⟩

theorem fullInv_run (hsize : 32 ≤ a.bytes.toNat) (r : HeapRun a (Sized a) m live) : ∃ l, FullInv a m l live := by
  induction r with
  | init m => exact ⟨initial a, fullInv_init hsize m⟩
  | alloc req _ hc hr ih =>
    obtain ⟨l, h⟩ := ih
    exact h.alloc hc hr
  | free _ he hm' ih =>
    obtain ⟨l, h⟩ := ih
    exact h.free he hm'
  | write v _ he hi ih =>
    obtain ⟨l, h⟩ := ih
    exact ⟨l, h.write v he hi⟩

end Full

/-! ## An intact heap -/

/-- The bytes behind the header of a live pointer. -/
def payload (m : Mem) (p : Addr) : Set Addr := {x | p.toNat ≤ x.toNat ∧ x.toNat < p.toNat + (size m (p - 16#64)).toNat}

def header (b : Addr) : Set Addr := {x | b.toNat ≤ x.toNat ∧ x.toNat < b.toNat + 16}

structure Intact (a : Arena) (m : Mem) (live : List (Addr × BitVec 64)) (hs : List Addr) : Prop extends Walk a m hs where
  merged : Merged (hs.map (blockAt m))
  owned : ∀ e ∈ live, ∃! b, b ∈ hs ∧ e.1 = b + 16#64 ∧ flags m b &&& kHeapFree = 0#32 ∧ e.2 ≤ size m b
  apart : live.Pairwise fun e f => Disjoint (payload m e.1) (payload m f.1)
  behind : ∀ e ∈ live, ∀ b ∈ hs, Disjoint (payload m e.1) (header b)
  recovered : live = [] → hs = [a.base] ∧ flags m a.base &&& kHeapFree ≠ 0#32 ∧ (size m a.base).toNat = a.bytes.toNat - 16

section Intact

variable {a : Arena} {m : Mem} {b c : Block} {l : List Block} {live : List (Addr × BitVec 64)} {e : Addr × BitVec 64} {x : Addr}

theorem Holds.mem_payload (h : Holds a.hi m a.base.toNat l) (hb : b ∈ l) :
    x ∈ payload m (BitVec.ofNat 64 (b.addr + 16)) ↔ b.addr + 16 ≤ x.toNat ∧ x.toNat < b.stop 16 := by
  have hbelow := h.below hb
  have hword := h.payload_toNat hb
  unfold payload Block.stop
  rw [Set.mem_ofPred_eq, hword]
  rw [BitVec.ofNat_add, BitVec.add_sub_cancel, (h.headers b hb).size, toNat_word (by omega)]

theorem Holds.mem_header (h : Holds a.hi m a.base.toNat l) (hb : b ∈ l) :
    x ∈ header (BitVec.ofNat 64 b.addr) ↔ b.addr ≤ x.toNat ∧ x.toNat < b.addr + 16 := by
  have hbelow := h.below hb
  unfold header
  rw [Set.mem_ofPred_eq, toNat_word (by omega)]

theorem Holds.payloads_apart (h : Holds a.hi m a.base.toNat l) (hb : b ∈ l) (hc : c ∈ l) (hne : b ≠ c) :
    Disjoint (payload m (BitVec.ofNat 64 (b.addr + 16))) (payload m (BitVec.ofNat 64 (c.addr + 16))) := by
  have hapart := h.tiles.apart hb hc hne
  rw [Set.disjoint_left]
  intro x hx hx'
  rw [h.mem_payload hb] at hx
  rw [h.mem_payload hc] at hx'
  omega

theorem Holds.payload_header (h : Holds a.hi m a.base.toNat l) (hb : b ∈ l) (hc : c ∈ l) :
    Disjoint (payload m (BitVec.ofNat 64 (b.addr + 16))) (header (BitVec.ofNat 64 c.addr)) := by
  rw [Set.disjoint_left]
  intro x hx hx'
  rw [h.mem_payload hb] at hx
  rw [h.mem_header hc] at hx'
  by_cases heq : b = c
  · subst heq
    omega
  · have hapart := h.tiles.apart hb hc heq
    unfold Block.stop at hapart hx
    omega

theorem FullInv.intact (h : FullInv a m l live) (hsize : 32 ≤ a.bytes.toNat) : Intact a m live (headerAddrs l) := by
  have hhi := a.hi_lt
  refine ⟨h.holds.walk, ?_, ?_, ?_, ?_, ?_⟩
  · rw [h.holds.blocks (by omega)]
    exact h.merged
  · intro e he
    obtain ⟨b, hb, hp⟩ := h.owned e he
    have hle := h.sized e he b hb hp
    obtain ⟨hbl, hused⟩ := mem_used.mp hb
    have hh := h.holds.headers b hbl
    have hbelow := h.holds.below hbl
    refine ⟨BitVec.ofNat 64 b.addr, ⟨List.mem_map_of_mem hbl, ?_, hh.free_iff.mpr hused, ?_⟩, ?_⟩
    · rw [hp, BitVec.ofNat_add]
    · rw [hh.size, BitVec.le_def, toNat_word (by omega)]
      exact hle
    · rintro y ⟨-, hy, -, -⟩
      rw [hp, BitVec.ofNat_add] at hy
      exact ((BitVec.add_left_inj _).mp hy).symm
  · have hne : live.Pairwise fun e f => e.1 ≠ f.1 := List.pairwise_map.mp h.keys
    refine hne.imp_of_mem fun {e f} he hf hne => ?_
    obtain ⟨b, hb, hpb⟩ := h.owned e he
    obtain ⟨c, hc, hpc⟩ := h.owned f hf
    rw [hpb, hpc]
    refine h.holds.payloads_apart (mem_used.mp hb).1 (mem_used.mp hc).1 ?_
    rintro rfl
    exact hne (hpb.trans hpc.symm)
  · intro e he y hy
    obtain ⟨b, hb, hpb⟩ := h.owned e he
    obtain ⟨c, hc, rfl⟩ := List.mem_map.mp hy
    rw [hpb]
    exact h.holds.payload_header (mem_used.mp hb).1 hc
  · rintro rfl
    have hu : used l = [] := by
      refine List.eq_nil_iff_forall_not_mem.mpr fun b hb => ?_
      obtain ⟨e, he, -⟩ := h.held b hb
      cases he
    have hl := single_of_merged (by unfold Arena.hi; omega) h.holds.tiles h.merged hu
    have hlen : a.hi - a.base.toNat - 16 = a.bytes.toNat - 16 := by
      unfold Arena.hi
      omega
    rw [hlen] at hl
    have hh := h.holds.headers ⟨a.base.toNat, a.bytes.toNat - 16, true⟩ (by rw [hl]; exact List.mem_singleton_self _)
    have hfree := hh.free_iff
    have hsz := hh.size
    dsimp only at hfree hsz
    rw [← a.base_eq] at hfree hsz
    refine ⟨?_, fun h0 => absurd (hfree.mp h0) (by decide), ?_⟩
    · rw [hl, headerAddrs, List.map_singleton, ← a.base_eq]
    · rw [hsz, toNat_word (by omega)]

/-- As many rounds as there may be blocks. -/
theorem Holds.rounds (h : Holds a.hi m a.base.toNat l) : l.length ≤ a.bytes.toNat / 16 := by
  have hle := h.tiles.length_le
  unfold Arena.hi at hle
  omega

end Intact

def smallArena : Arena := ⟨0x1000#64, 64#64, by decide, by decide, by decide, by decide⟩

/-- A heap of 64 bytes after `heap_init`. -/
def smallHeap : Mem := heapInit (fun _ => 0) 0x1000#64 64#64

/-- Of its 48 bytes 16 are taken for a request of 10; the other block is left with 16. -/
theorem small_alloc : ∃ r, heapAllocFirstFit 5 smallHeap 0x1000#64 64#64 10#64 = some r ∧ r.ptr = 0x1010#64 := by
  have hptr : (heapAllocFirstFit 5 smallHeap 0x1000#64 64#64 10#64).map Alloc.ptr = some 0x1010#64 := by decide +kernel
  exact Option.map_eq_some_iff.mp hptr

/-- Non-null if and only if the largest free block is at least as large, with as many bytes;
    and null changes nothing. -/
def FitsRight (m : Mem) (req : BitVec 64) (r : Alloc) (s : Stats) : Prop :=
  (r.ptr ≠ 0#64 ↔ req ≤ s.largestFree) ∧ (r.ptr ≠ 0#64 → req ≤ size r.mem (r.ptr - 16#64)) ∧ (r.ptr = 0#64 → r.mem = m)

section Fits

variable {a : Arena} {m : Mem} {l : List Block} {live : List (Addr × BitVec 64)} {req : BitVec 64}

/-- Up to 2^64 - 16 the rounding does not matter, since all sizes are multiples of 16. -/
theorem rounded_le_iff {s : Nat} (h : req.toNat ≤ 2 ^ 64 - 16) (hs : 16 ∣ s) : rounded req ≤ s ↔ req.toNat ≤ s := by
  rw [rounded_eq h]
  constructor
  · exact (le_ceilTo (by decide) _).trans
  · exact ceilTo_le (by decide) hs

/-- Above, it wraps around. -/
theorem rounded_wraps (h : 2 ^ 64 - 16 < req.toNat) : rounded req = 0 := by
  have hceil := le_ceilTo (a := 16) (by decide) req.toNat
  have hdvd := dvd_ceilTo 16 req.toNat
  unfold rounded
  rw [toNat_roundUp_16, if_neg (by omega)]

theorem Holds.nothing_free_iff (h : Holds a.hi m a.base.toNat l) :
    (∀ b ∈ headerAddrs l, flags m b &&& kHeapFree = 0#32) ↔ ∀ b ∈ l, b.free = false := by
  unfold headerAddrs
  rw [List.forall_mem_map]
  exact forall₂_congr fun b hb => (h.headers b hb).free_iff

/-- The statistics see what could be taken. -/
theorem Holds.stats_some (h : Holds a.hi m a.base.toNat l) {k : Nat} (hk : a.bytes.toNat / 16 < k) :
    ∃ s, heapStats k m a.base a.bytes = some s ∧
      ∀ n, 0 < n → (n ≤ s.largestFree.toNat ↔ ∃ b ∈ l, b.free = true ∧ n ≤ b.size) := by
  have hrounds := h.rounds
  have hsizes : ∀ b ∈ l.filter (·.free), b.size < 2 ^ 64 := by
    intro b hb
    have hbelow := h.below (List.mem_of_mem_filter hb)
    omega
  rcases stats_spec k h with ⟨-, hle⟩ | hsome
  · omega
  · refine ⟨_, hsome, fun n hn => ?_⟩
    rw [le_largest_iff _ _ hsizes]
    have hzero : ¬ n ≤ (0#64).toNat := by
      simp
      omega
    simp only [hzero, false_or, List.mem_filter, and_assoc]

/-- One call, with what it has found. -/
theorem Holds.alloc_fits (h : Holds a.hi m a.base.toNat l) (hreq : req ≠ 0#64) {k : Nat} (hk : a.bytes.toNat / 16 < k) :
    ∃ r, heapAllocFirstFit k m a.base a.bytes req = some r ∧ (r.ptr ≠ 0#64 ↔ ∃ b ∈ l, Fits (rounded req) b) ∧
      (r.ptr ≠ 0#64 → rounded req ≤ (size r.mem (r.ptr - 16#64)).toNat) ∧ (r.ptr = 0#64 → r.mem = m) := by
  have hrounds := h.rounds
  rcases alloc_spec hreq k h with ⟨-, hle⟩ | ⟨hnone, n, hsome⟩ | ⟨l', p, m', n, hf, hsome, hm'⟩
  · omega
  · refine ⟨_, hsome, iff_of_false (not_not.mpr rfl) ?_, fun hne => absurd rfl hne, fun _ => rfl⟩
    rintro ⟨b, hb, hfits⟩
    exact firstFit_none.mp hnone b hb hfits
  · obtain ⟨b, hb, hfits, hp⟩ := firstFit_fits hf
    obtain ⟨s, hs, hused⟩ := mem_used_firstFit hf
    obtain ⟨htaken, -⟩ := mem_used.mp ((hused ⟨p, s, false⟩).mpr (Or.inl rfl))
    have hword := hm'.payload_toNat htaken
    have hbelow := hm'.below htaken
    have hsz := (hm'.headers _ htaken).size
    dsimp only at hword hsz hbelow
    have hne : BitVec.ofNat 64 (p + 16) ≠ 0#64 := by
      intro h0
      rw [h0] at hword
      exact absurd hword (by simp)
    refine ⟨_, hsome, iff_of_true hne ⟨b, hb, hfits⟩, fun _ => ?_, fun h0 => absurd h0 hne⟩
    dsimp only
    rw [BitVec.ofNat_add, BitVec.add_sub_cancel, hsz, toNat_word (by omega)]
    exact hs

end Fits

end Microkernel.FirstFit

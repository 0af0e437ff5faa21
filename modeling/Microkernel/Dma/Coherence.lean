/-
  Microkernel.Dma.Coherence — when a completed copy is visible to the CPU (see `Dma.Bus`).

  `dma_submit_memcpy` cleans the source and `dma_poll_complete` invalidates the destination
  after the copy. Nothing is done to the destination before the copy: a line of it that is
  dirty at submission may be written back between the copy and the invalidation, over the
  data. dma_lab.cc cleans the destination first where it models a device that writes.

  Between any two operations the cache does what it likes, and the rest of the machine
  what it likes to lines that hold no byte of the two buffers (`Cache.Noise`).

  - `ops_eq`: of the operations of the two calls only three ranges concern the buffers:
    the source is cleaned, the bytes are copied, the destination is invalidated.
  - `copy_visible`: the CPU reads in `dst` what it read in `src` on every such run if and
    only if no clean line of `src` is stale and no dirty line of `dst` holds anything else
    at submission.
  - `dirty_line_written_back`: a run on which it does not.
-/

import Microkernel.Dma.Bus

namespace Microkernel.Dma

open Bytes Cache Translation
open Mmu (Window baseMap)

variable {c : Cpu} {w : Window .virt} {r : Req} {prev : Addr}

/-! ## The request -/

/-- The lines of the two buffers. -/
def BufferLine (c : Cpu) (r : Req) (k : Nat) : Prop := HasLine c r.src r.len k ∨ HasLine c r.dst r.len k

/-- A descriptor of the window that shares no line with the buffers. -/
structure DescOff (c : Cpu) (w : Window .virt) (r : Req) (d : Addr) : Prop where
  above : w.start.toNat ≤ d.toNat
  below : d.toNat + descSize ≤ w.start.toNat + 0x20000
  off : ∀ k, HasLine c d sizeofDesc k → ¬ BufferLine c r k

/-- A request between two cacheable buffers of whole lines. -/
structure Transfer (c : Cpu) (w : Window .virt) (r : Req) (prev : Addr) : Prop where
  mmuOn : c.mmuOn = true
  dcacheOn : c.dcacheOn = true
  len : r.len ≠ 0#64
  src : Cacheable w r.src r.len
  dst : Cacheable w r.dst r.len
  apart : ∀ k, HasLine c r.src r.len k → ¬ HasLine c r.dst r.len k
  desc : DescOff c w r r.desc
  prev : prev ≠ 0#64 → DescOff c w r prev

/-- The accesses of the two calls, in order. -/
def requestOps (c : Cpu) (w : Window .virt) (r : Req) (prev : Addr) : List (Memory → Memory) :=
  (submitOps c w r prev ++ pollOps c w r).map (exec c w)

/-- Every byte of `dst` reads as the byte of `src` did. -/
def Visible (c : Cpu) (r : Req) (s t : Memory) : Prop :=
  ∀ i < r.len.toNat, read c.line t (r.dst.toNat + i) = read c.line s (r.src.toNat + i)

/-! ## Operations on descriptors -/

/-- Operations that reach no line of the buffers. -/
def Quiet (c : Cpu) (r : Req) (fs : List (Memory → Memory)) : Prop := ∀ f ∈ fs, ∀ s, Elsewhere c.line (BufferLine c r) s (f s)

theorem Quiet.append {fs gs : List (Memory → Memory)} (h : Quiet c r fs) (h' : Quiet c r gs) : Quiet c r (fs ++ gs) := by
  intro f hf
  rcases List.mem_append.mp hf with hf | hf
  · exact h f hf
  · exact h' f hf

theorem quiet_cons {f : Memory → Memory} {fs : List (Memory → Memory)} (hf : ∀ s, Elsewhere c.line (BufferLine c r) s (f s))
    (h : Quiet c r fs) : Quiet c r (f :: fs) := List.forall_mem_cons.mpr ⟨hf, h⟩

theorem quiet_nil : Quiet c r [] := fun _ hf => by cases hf

theorem sizeofDesc_toNat : sizeofDesc.toNat = descSize := rfl

/-- The window lies in RAM. -/
theorem DescOff.ram {d : Addr} (h : DescOff c w r d) : 0x40000000 ≤ d.toNat ∧ d.toNat + descSize ≤ 0x80000000 := by
  have habove := w.above
  have hbelow := w.below
  have hd := h.above
  have hd' := h.below
  rw [Mmu.ram_virt] at habove hbelow
  omega

theorem storeByte_elsewhere (s : Memory) {va : Addr} (v : BitVec 8) (h : ∀ pa b, view c w va = some (pa, b) → ¬ BufferLine c r (c.line pa)) :
    Elsewhere c.line (BufferLine c r) s (storeByte c w s va v) := by
  unfold storeByte
  cases hv : view c w va with
  | none => exact .refl s
  | some p =>
    obtain ⟨pa, b⟩ := p
    have hoff := h pa b hv
    cases b with
    | true => exact write_elsewhere s v hoff
    | false => exact writeMem_elsewhere s v hoff

/-- A store to a field of a descriptor. -/
theorem DescOff.store {d : Addr} (h : DescOff c w r d) (hon : c.mmuOn = true) {o : Nat} (ho : o + 8 ≤ descSize) (v : Addr) (s : Memory) :
    Elsewhere c.line (BufferLine c r) s (exec c w (.store (d + BitVec.ofNat 64 o) v) s) := by
  obtain ⟨hlo, hhi⟩ := h.ram
  refine exec_store_keeps (p := fun t => Elsewhere c.line (BufferLine c r) s t) (fun i hi t x ht => ?_) s (.refl s)
  obtain ⟨b, hv⟩ := view_field (w := w) hon hlo hhi ho hi
  refine ht.trans (storeByte_elsewhere t x fun pa b' hv' => ?_)
  rw [hv] at hv'
  obtain rfl : d.toNat + (o + i) = pa := congrArg Prod.fst (Option.some.inj hv')
  exact h.off _ ⟨o + i, by rw [sizeofDesc_toNat]; omega, rfl⟩

/-- Cleaning a descriptor. -/
theorem DescOff.prepare {d : Addr} (h : DescOff c w r d) (hon : c.mmuOn = true) (hdc : c.dcacheOn = true) :
    Quiet c r ((dmaPrepareToDevice c w d sizeofDesc).map (exec c w)) := by
  obtain ⟨hlo, hhi⟩ := h.ram
  unfold dmaPrepareToDevice
  split
  · have hpos : 0 < sizeofDesc.toNat := by decide
    have hend : d.toNat + sizeofDesc.toNat ≤ 0x80000000 := hhi
    obtain ⟨ks, heq, hks⟩ := exec_range (w := w) hon hdc hlo hpos hend fun _ _ _ hv => exec_cvac hv
    unfold dcCvacRange
    rw [heq]
    intro f hf s
    obtain ⟨k, hk, rfl⟩ := List.mem_map.mp hf
    exact clean_elsewhere s (h.off k ((hks k).mp hk))
  · exact quiet_nil

/-! ## The three ranges -/

/-- The device's copy, at physical addresses. -/
def copyPairs (r : Req) : List (Nat × Nat) := (List.range r.len.toNat).map fun i => (r.dst.toNat + i, r.src.toNat + i)

/-- A copy between the aliases of two buffers of RAM is a copy in memory. -/
theorem memcpyOps_eq (hon : c.mmuOn = true) (hd : 0x40000000 ≤ r.dst.toNat ∧ r.dst.toNat + r.len.toNat ≤ 0x80000000)
    (hs : 0x40000000 ≤ r.src.toNat ∧ r.src.toNat + r.len.toNat ≤ 0x80000000) (hpos : 0 < r.len.toNat) :
    (memcpyOps (deviceView true r.dst r.len) (deviceView true r.src r.len) r.len.toNat).map (exec c w) = copyAll (copyPairs r) := by
  unfold memcpyOps copyAll copyPairs
  rw [List.map_map, List.map_map]
  refine List.map_congr_left fun i hi => ?_
  have hilt : i < r.len.toNat := List.mem_range.mp hi
  have hdview := view_device (w := w) hon hd.1 hpos hd.2 hilt
  have hsview := view_device (w := w) hon hs.1 hpos hs.2 hilt
  funext s
  simp only [Function.comp_apply, exec, storeByte, loadByte, hdview, hsview]

/-- The stores that fill a descriptor. -/
theorem DescOff.fill {d : Addr} (h : DescOff c w r d) (hon : c.mmuOn = true) (q : Req) :
    Quiet c r ((q.words.map fun e => Op.store (d + BitVec.ofNat 64 e.1) e.2).map (exec c w)) := by
  have hoffs : ∀ e ∈ q.words, e.1 + 8 ≤ descSize := by
    simp [Req.words, offSrc, offDst, offLen, offStatus, offCb, offUser, offNext, descSize]
  intro f hf s
  obtain ⟨op, hop, rfl⟩ := List.mem_map.mp hf
  obtain ⟨e, he, rfl⟩ := List.mem_map.mp hop
  exact h.store hon (hoffs e he) e.2 s

/-- Linking behind `prevTail`. -/
theorem Transfer.link (h : Transfer c w r prev) : Quiet c r ((if prev = 0#64 then [] else
      Op.store (prev + BitVec.ofNat 64 offNext) r.desc :: dmaPrepareToDevice c w prev sizeofDesc).map (exec c w)) := by
  split
  · exact quiet_nil
  · rename_i hp
    rw [List.map_cons]
    exact quiet_cons ((h.prev hp).store h.mmuOn (by decide) r.desc) ((h.prev hp).prepare h.mmuOn h.dcacheOn)

/-- Of the operations of the two calls only three ranges concern the buffers. -/
theorem ops_eq (h : Transfer c w r prev) : ∃ (before between after : List (Memory → Memory)) (ks kd : List Nat),
    requestOps c w r prev =
      before ++ (cleanAll c.line ks ++ (between ++ (copyAll (copyPairs r) ++ (dropAll kd ++ after)))) ∧
    (Quiet c r before ∧ Quiet c r between ∧ Quiet c r after) ∧
    (∀ k, k ∈ ks ↔ HasLine c r.src r.len k) ∧ ∀ k, k ∈ kd ↔ HasLine c r.dst r.len k := by
  obtain ⟨hslo, hpos, hshi⟩ := h.src.range h.len
  obtain ⟨hdlo, -, hdhi⟩ := h.dst.range h.len
  obtain ⟨ks, hclean, hksm⟩ := h.src.prepare h.len h.mmuOn h.dcacheOn
  obtain ⟨kd, hdrop, hkdm⟩ := h.dst.complete h.len h.mmuOn h.dcacheOn
  have hcopy := memcpyOps_eq (w := w) h.mmuOn ⟨hdlo, hdhi⟩ ⟨hslo, hshi⟩ hpos
  have hdesc := h.desc.prepare h.mmuOn h.dcacheOn
  have hnext := h.desc.store h.mmuOn (o := offNext) (by decide) 0#64
  have hstatus := h.desc.store h.mmuOn (o := offStatus) (by decide) 0#64
  refine ⟨_, (dmaPrepareToDevice c w r.desc sizeofDesc).map (exec c w) ++ (_ ++ [exec c w (.store (r.desc + BitVec.ofNat 64 offNext) 0#64)]),
    exec c w (.store (r.desc + BitVec.ofNat 64 offStatus) 0#64) :: (dmaPrepareToDevice c w r.desc sizeofDesc).map (exec c w), ks, kd, ?_,
    ⟨h.desc.fill h.mmuOn r, hdesc.append (h.link.append (quiet_cons hnext quiet_nil)), quiet_cons hstatus hdesc⟩, hksm, hkdm⟩
  unfold requestOps submitOps pollOps
  dsimp only
  rw [h.mmuOn, if_neg h.len, if_neg (h.dst.not_fallback h.len)]
  simp only [List.map_append, List.map_cons, hclean, hdrop, hcopy, List.append_assoc, List.nil_append, List.cons_append]

/-! ## Every run -/

/-- What the cache may hold of the two buffers at submission. -/
def Ready (c : Cpu) (r : Req) (s : Memory) : Prop :=
  ∀ i < r.len.toNat,
    (∀ l, s.cache (c.line (r.src.toNat + i)) = some l → l.dirty = false → l.data (r.src.toNat + i) = s.mem (r.src.toNat + i)) ∧
    ∀ l, s.cache (c.line (r.dst.toNat + i)) = some l → l.dirty = true → l.data (r.dst.toNat + i) = read c.line s (r.src.toNat + i)

theorem srcLine {i : Nat} (hi : i < r.len.toNat) : BufferLine c r (c.line (r.src.toNat + i)) := Or.inl ⟨i, hi, rfl⟩

theorem dstLine {i : Nat} (hi : i < r.len.toNat) : BufferLine c r (c.line (r.dst.toNat + i)) := Or.inr ⟨i, hi, rfl⟩

theorem Quiet.noise {fs : List (Memory → Memory)} (h : Quiet c r fs) : ∀ f ∈ fs, ∀ s, Noise c.line (BufferLine c r) s (f s) :=
  fun f hf s => .tail .refl (.elsewhere _ (h f hf s))

/-- A buffer's bytes are not in the other's lines. -/
theorem copyPairs_apart (h : Transfer c w r prev) : ((copyPairs r).map Prod.fst).Nodup ∧
    ∀ p ∈ copyPairs r, ∀ p' ∈ copyPairs r, p.1 ≠ p'.2 := by
  unfold copyPairs
  constructor
  · rw [List.map_map]
    refine List.Nodup.map (fun i j hij => ?_) List.nodup_range
    simpa using hij
  · intro p hp p' hp' he
    obtain ⟨i, hi, rfl⟩ := List.mem_map.mp hp
    obtain ⟨j, hj, rfl⟩ := List.mem_map.mp hp'
    exact h.apart (c.line (r.src.toNat + j)) ⟨j, List.mem_range.mp hj, rfl⟩ ⟨i, List.mem_range.mp hi, congrArg c.line he.symm⟩

theorem mem_copyPairs {i : Nat} (hi : i < r.len.toNat) : (r.dst.toNat + i, r.src.toNat + i) ∈ copyPairs r :=
  List.mem_map.mpr ⟨i, List.mem_range.mpr hi, rfl⟩

theorem Ready.slots {s : Memory} (h : Ready c r s) {i : Nat} (hi : i < r.len.toNat) :
    (slot c.line s (r.src.toNat + i)).Coherent (read c.line s (r.src.toNat + i)) ∧
      (slot c.line s (r.dst.toNat + i)).NoDirty (read c.line s (r.src.toNat + i)) := by
  obtain ⟨hs, hd⟩ := h i hi
  unfold Cache.read at hd ⊢
  unfold Cache.slot
  constructor
  · rcases hc : s.cache (c.line (r.src.toNat + i)) with _ | ⟨_ | _, data⟩
    · rfl
    · exact ⟨rfl, (hs _ hc rfl).symm⟩
    · rfl
  · rcases hc : s.cache (c.line (r.dst.toNat + i)) with _ | ⟨_ | _, data⟩
    · trivial
    · trivial
    · exact hd _ hc rfl

/-- From such a state the copy is visible on every run. -/
theorem Ready.visible {s t : Memory} (h : Ready c r s) (hT : Transfer c w r prev)
    (hr : Runs c.line (BufferLine c r) (requestOps c w r prev) s t) : Visible c r s t := by
  obtain ⟨before, between, after, ks, kd, heq, ⟨hb, hm, ha⟩, hks, hkd⟩ := ops_eq hT
  obtain ⟨hnodup, hsep⟩ := copyPairs_apart hT
  rw [heq] at hr
  obtain ⟨s₁, h₁, hr⟩ := runs_append.mp hr
  obtain ⟨s₂, h₂, hr⟩ := runs_append.mp hr
  obtain ⟨s₃, h₃, hr⟩ := runs_append.mp hr
  obtain ⟨s₄, h₄, hr⟩ := runs_append.mp hr
  obtain ⟨s₅, h₅, h₆⟩ := runs_append.mp hr
  intro i hi
  have hsl := srcLine (c := c) hi
  have hdl := dstLine (c := c) hi
  obtain ⟨hsrc, hdst⟩ := h.slots hi
  generalize Cache.read c.line s (r.src.toNat + i) = v at hsrc hdst ⊢
  -- up to the copy nothing dirty in `dst` holds anything else
  have hnd : (slot c.line s₃ (r.dst.toNat + i)).NoDirty v := by
    have hnd₁ := (h₁.noise hb.noise).slot (Slot.noDirty_stable v) hdl hdst
    have hnd₂ := (h₂.noise fun f hf s => ?_).slot (Slot.noDirty_stable v) hdl hnd₁
    · exact (h₃.noise hm.noise).slot (Slot.noDirty_stable v) hdl hnd₂
    · obtain ⟨k, -, rfl⟩ := List.mem_map.mp hf
      exact .tail .refl (.writeBack k)
  have hset : (slot c.line s₃ (r.src.toNat + i)).Settled v := by
    have hco := (h₁.noise hb.noise).slot (Slot.coherent_stable v) hsl hsrc
    have hset₂ := h₂.cleanAll hsl ((hks _).mpr ⟨i, hi, rfl⟩) hco
    exact (h₃.noise hm.noise).slot (Slot.settled_stable v) hsl hset₂
  have hland := h₄.copyAll hnodup hsep (mem_copyPairs hi) hdl hsl hset hnd
  have hdrop := h₅.dropAll hdl ((hkd _).mpr ⟨i, hi, rfl⟩) hland
  have hlast := (h₆.noise ha.noise).slot (Slot.settled_stable v) hdl hdrop
  rw [read_eq]
  exact hlast.read

/-- One run up to the end of the copy, and on from there. -/
theorem Transfer.through (h : Transfer c w r prev) (s : Memory) : ∃ mid : Memory,
    (∀ i < r.len.toNat, slot c.line mid (r.dst.toNat + i) =
      ((slot c.line s (r.dst.toNat + i)).1, (slot c.line s (r.src.toNat + i)).clean.2)) ∧
    ∀ mid' : Memory, Noise c.line (BufferLine c r) mid mid' → ∃ t : Memory,
      Runs c.line (BufferLine c r) (requestOps c w r prev) s t ∧
      ∀ i < r.len.toNat, Cache.read c.line t (r.dst.toNat + i) = mid'.mem (r.dst.toNat + i) := by
  obtain ⟨before, between, after, ks, kd, heq, ⟨hb, hm, ha⟩, hks, hkd⟩ := ops_eq h
  obtain ⟨hnodup, hsep⟩ := copyPairs_apart h
  have hquiet : ∀ fs, Quiet c r fs → ∀ a, BufferLine c r (c.line a) → ∀ s : Memory,
      slot c.line (fs.foldl (fun s f => f s) s) a = slot c.line s a := by
    intro fs hfs a hk s
    refine foldl_keeps (p := fun s' => slot c.line s' a = slot c.line s a) s (fun f hf s' hs' => ?_) rfl
    rw [← hs']
    unfold Cache.slot
    rw [(hfs f hf s').1 a hk, (hfs f hf s').2 _ hk]
  rw [heq]
  generalize hs₁ : before.foldl (fun s f => f s) s = s₁
  generalize hs₂ : (cleanAll c.line ks).foldl (fun s f => f s) s₁ = s₂
  generalize hs₃ : between.foldl (fun s f => f s) s₂ = s₃
  generalize hs₄ : (copyAll (copyPairs r)).foldl (fun s f => f s) s₃ = s₄
  refine ⟨s₄, fun i hi => ?_, fun mid' hn => ?_⟩
  · have hsl := srcLine (c := c) hi
    have hdl := dstLine (c := c) hi
    have hsrc : slot c.line s₃ (r.src.toNat + i) = (slot c.line s (r.src.toNat + i)).clean := by
      rw [← hs₃, hquiet between hm _ hsl, ← hs₂, foldl_cleanAll, if_pos ((hks _).mpr ⟨i, hi, rfl⟩), ← hs₁, hquiet before hb _ hsl]
    have hdst : slot c.line s₃ (r.dst.toNat + i) = slot c.line s (r.dst.toNat + i) := by
      have hnot : c.line (r.dst.toNat + i) ∉ ks := fun hk => h.apart _ ((hks _).mp hk) ⟨i, hi, rfl⟩
      rw [← hs₃, hquiet between hm _ hdl, ← hs₂, foldl_cleanAll, if_neg hnot, ← hs₁, hquiet before hb _ hdl]
    rw [← hs₄, foldl_copyAll hnodup hsep (mem_copyPairs hi) s₃, hdst, ← hsrc]
    rfl
  · generalize hs₅ : (dropAll kd).foldl (fun s f => f s) mid' = s₅
    refine ⟨after.foldl (fun s f => f s) s₅, ?_, fun i hi => ?_⟩
    · refine runs_append.mpr ⟨s₁, hs₁ ▸ runs_foldl _ _, runs_append.mpr ⟨s₂, hs₂ ▸ runs_foldl _ _, runs_append.mpr ⟨s₃, hs₃ ▸ runs_foldl _ _,
        runs_append.mpr ⟨s₄, hs₄ ▸ runs_foldl _ _, runs_append.mpr ⟨s₅, hs₅ ▸ (runs_foldl _ _).after hn, runs_foldl _ _⟩⟩⟩⟩⟩
    · have hdl := dstLine (c := c) hi
      have hkdi : c.line (r.dst.toNat + i) ∈ kd := (hkd _).mpr ⟨i, hi, rfl⟩
      rw [read_eq, hquiet after ha _ hdl, ← hs₅, foldl_dropAll hkdi]
      rfl

/-- The CPU reads in `dst` what it read in `src`, whatever the cache does, if and only if no
    clean line of `src` is stale and no dirty line of `dst` holds anything else when the
    request is submitted. -/
theorem copy_visible (h : Transfer c w r prev) (s : Memory) :
    (∀ t, Runs c.line (BufferLine c r) (requestOps c w r prev) s t → Visible c r s t) ↔ Ready c r s := by
  constructor
  · intro hall i hi
    obtain ⟨mid, hmid, hgo⟩ := h.through s
    constructor
    · -- no event at all: memory's byte arrives
      intro l hl hclean
      obtain ⟨t, hr, hread⟩ := hgo mid .refl
      have hvis := hall t hr i hi
      have hmem : mid.mem (r.dst.toNat + i) = (slot c.line s (r.src.toNat + i)).clean.2 := congrArg Prod.snd (hmid i hi)
      rw [hread i hi, hmem] at hvis
      obtain ⟨d, data⟩ := l
      dsimp only at hclean
      subst hclean
      simp only [Cache.slot, Cache.read, hl, Option.map_some, Slot.clean] at hvis ⊢
      exact hvis.symm
    · -- the dirty line is written back before it is invalidated
      intro l hl hdirty
      obtain ⟨t, hr, hread⟩ := hgo (clean c.line mid (c.line (r.dst.toNat + i))) (.tail .refl (.writeBack _))
      have hvis := hall t hr i hi
      obtain ⟨d, data⟩ := l
      dsimp only at hdirty
      subst hdirty
      have hslot := slot_clean c.line mid (c.line (r.dst.toNat + i)) (r.dst.toNat + i)
      rw [if_pos rfl, hmid i hi] at hslot
      have hmem := congrArg Prod.snd hslot
      simp only [Cache.slot, hl, Option.map_some, Slot.clean] at hmem
      rw [hread i hi, hmem] at hvis
      exact hvis
  · intro hs t hr
    exact hs.visible h hr

/-! ## A dirty line of `dst` -/

/-- Lines of 64 bytes. -/
def sampleCpu : Cpu := ⟨4, true, true⟩

def sampleBufferWindow : Window .virt where
  start := 0x401F0000#64
  policy := .cacheable
  aligned := Mmu.sampleWindow.aligned
  above := Mmu.sampleWindow.above
  below := Mmu.sampleWindow.below

def sampleReq : Req := ⟨0x401F0000#64, 0x40002000#64, 0x40001000#64, 64#64, 0#64, 0#64⟩

theorem sampleTransfer : Transfer sampleCpu sampleBufferWindow sampleReq 0#64 := by
  -- the line is the address by 64
  have hline : ∀ {p : Nat} {len : Addr} {k : Nat}, HasLine sampleCpu (BitVec.ofNat 64 p) len k → p < 2 ^ 64 →
      ∃ i < len.toNat, k = (p + i) / 64 := by
    rintro p len k ⟨i, hi, rfl⟩ hp
    refine ⟨i, hi, ?_⟩
    rw [BitVec.toNat_ofNat, Nat.mod_eq_of_lt hp]
    rfl
  have hlen : sampleReq.len.toNat = 64 := rfl
  have hdesc : sizeofDesc.toNat = 56 := rfl
  refine ⟨rfl, rfl, by decide, cacheable_ram rfl (by decide) (by decide), cacheable_ram rfl (by decide) (by decide), fun k hk hk' => ?_,
    ⟨by decide, by decide, fun k hk hk' => ?_⟩, fun h => absurd rfl h⟩
  · obtain ⟨i, hi, rfl⟩ := hline hk (by decide)
    obtain ⟨j, hj, he⟩ := hline hk' (by decide)
    omega
  · obtain ⟨i, hi, rfl⟩ := hline hk (by decide)
    rcases hk' with hk' | hk'
    · obtain ⟨j, hj, he⟩ := hline hk' (by decide)
      omega
    · obtain ⟨j, hj, he⟩ := hline hk' (by decide)
      omega

/-- Zeros just written to `dst` are still in its line; `src` holds sevens. -/
def sampleMemory : Memory where
  mem a := if a < 0x40002000 then 7#8 else 0#8
  cache k := if k = 0x40002000 / 64 then some ⟨true, fun _ => 0#8⟩ else none

theorem copy_visible_sample :
    (∀ t, Runs sampleCpu.line (BufferLine sampleCpu sampleReq) (requestOps sampleCpu sampleBufferWindow sampleReq 0#64) sampleMemory t →
      Visible sampleCpu sampleReq sampleMemory t) ↔ Ready sampleCpu sampleReq sampleMemory :=
  copy_visible sampleTransfer sampleMemory

/-- The zeros come back: the line is written back after the copy and then invalidated. -/
theorem dirty_line_written_back :
    Transfer sampleCpu sampleBufferWindow sampleReq 0#64 ∧
      ∃ t, Runs sampleCpu.line (BufferLine sampleCpu sampleReq) (requestOps sampleCpu sampleBufferWindow sampleReq 0#64) sampleMemory t ∧
        Cache.read sampleCpu.line sampleMemory sampleReq.src.toNat = 7#8 ∧ Cache.read sampleCpu.line t sampleReq.dst.toNat = 0#8 := by
  refine ⟨sampleTransfer, ?_⟩
  obtain ⟨mid, hmid, hgo⟩ := sampleTransfer.through sampleMemory
  obtain ⟨t, hr, hread⟩ := hgo (clean sampleCpu.line mid (sampleCpu.line (sampleReq.dst.toNat + 0))) (.tail .refl (.writeBack _))
  have hslot := slot_clean sampleCpu.line mid (sampleCpu.line (sampleReq.dst.toNat + 0)) (sampleReq.dst.toNat + 0)
  rw [if_pos rfl, hmid 0 (by decide)] at hslot
  have hfirst : (slot sampleCpu.line sampleMemory (sampleReq.dst.toNat + 0)).1 = some (true, 0#8) := by decide
  rw [hfirst] at hslot
  exact ⟨t, hr, by decide, (hread 0 (by decide)).trans (congrArg Prod.snd hslot)⟩

end Microkernel.Dma

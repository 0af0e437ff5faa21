/-
  Microkernel.Dma.Neighbours — what a completed transfer does to other memory (see `Dma.Bus`).

  `dma_alloc_buffer` hands out any number of bytes at any power of two, so two buffers may
  share a cache line. `dma_poll_complete` invalidates every line that has a byte of the
  destination, and what the CPU wrote beside it and the cache has not written back is lost.
  dma_lab.cc shows the same in its sixth case, with buffers of its own.

  Here nothing runs besides the poll, but the cache may still write back, evict and fill
  whatever it likes (`Cache.Noise`, with every line kept).

  - `poll_eq`: one turn of the loop as a list of operations.
  - `neighbours_kept`: every byte outside the destination and the descriptor reads as before
    on every such run if and only if no clean line is stale there, and no line of the
    destination is dirty with anything that memory has not.
  - `neighbour_lost`: two buffers of 16 bytes in one line.
-/

import Microkernel.Dma.Coherence

namespace Microkernel.Dma

open Bytes Cache Translation
open Mmu (Window baseMap)

variable {c : Cpu} {w : Window .virt} {r : Req}

/-! ## One turn of the loop -/

/-- A request whose destination is cacheable, and its descriptor in RAM. -/
structure Completion (c : Cpu) (w : Window .virt) (r : Req) : Prop where
  mmuOn : c.mmuOn = true
  dcacheOn : c.dcacheOn = true
  len : r.len ≠ 0#64
  dst : Cacheable w r.dst r.len
  desc_lo : 0x40000000 ≤ r.desc.toNat
  desc_hi : r.desc.toNat + descSize ≤ 0x80000000

/-- The bytes that the turn writes on purpose. -/
def Owned (r : Req) (a : Nat) : Prop :=
  r.dst.toNat ≤ a ∧ a < r.dst.toNat + r.len.toNat ∨ r.desc.toNat ≤ a ∧ a < r.desc.toNat + descSize

instance (r : Req) (a : Nat) : Decidable (Owned r a) := inferInstanceAs (Decidable (_ ∨ _))

def turnOps (c : Cpu) (w : Window .virt) (r : Req) : List (Memory → Memory) := (pollOps c w r).map (exec c w)

/-- Writes of the device to the destination. -/
def DeviceWrites (r : Req) (fs : List (Memory → Memory)) : Prop :=
  ∀ f ∈ fs, ∀ s, ∃ i < r.len.toNat, ∃ v, f s = writeMem s (r.dst.toNat + i) v

theorem memcpyOps_device (hon : c.mmuOn = true) (hlo : 0x40000000 ≤ r.dst.toNat) (hhi : r.dst.toNat + r.len.toNat ≤ 0x80000000)
    (hpos : 0 < r.len.toNat) (src : Addr) :
    DeviceWrites r ((memcpyOps (deviceView true r.dst r.len) src r.len.toNat).map (exec c w)) := by
  intro f hf s
  obtain ⟨op, hop, rfl⟩ := List.mem_map.mp hf
  obtain ⟨i, hi, rfl⟩ := List.mem_map.mp hop
  have hilt : i < r.len.toNat := List.mem_range.mp hi
  have hview := view_device (w := w) hon hlo hpos hhi hilt
  refine ⟨i, hilt, loadByte c w s (src + BitVec.ofNat 64 i), ?_⟩
  simp only [exec, storeByte, hview]

/-- The link is cleared, the device writes, the lines of the destination are dropped, the
    status is stored and the descriptor perhaps cleaned. -/
theorem poll_eq (h : Completion c w r) : ∃ (device : List (Memory → Memory)) (kd kc : List Nat),
    turnOps c w r = exec c w (.store (r.desc + BitVec.ofNat 64 offNext) 0#64) ::
      (device ++ (dropAll kd ++ exec c w (.store (r.desc + BitVec.ofNat 64 offStatus) 0#64) :: cleanAll c.line kc)) ∧
    DeviceWrites r device ∧ ∀ k, k ∈ kd ↔ HasLine c r.dst r.len k := by
  obtain ⟨hlo, hpos, hhi⟩ := h.dst.range h.len
  obtain ⟨kd, hdrop, hkdm⟩ := h.dst.complete h.len h.mmuOn h.dcacheOn
  obtain ⟨kc, hkc⟩ : ∃ kc, (dmaPrepareToDevice c w r.desc sizeofDesc).map (exec c w) = cleanAll c.line kc := by
    unfold dmaPrepareToDevice
    split
    · have hpos' : 0 < sizeofDesc.toNat := by decide
      have hend : r.desc.toNat + sizeofDesc.toNat ≤ 0x80000000 := h.desc_hi
      obtain ⟨kc, hkc, -⟩ := exec_range (w := w) h.mmuOn h.dcacheOn h.desc_lo hpos' hend fun _ _ _ hv => exec_cvac hv
      exact ⟨kc, hkc⟩
    · exact ⟨[], rfl⟩
  refine ⟨_, kd, kc, ?_, memcpyOps_device (w := w) h.mmuOn hlo hhi hpos (deviceView true r.src r.len), hkdm⟩
  unfold turnOps pollOps
  dsimp only
  rw [h.mmuOn, if_neg h.len, if_neg (h.dst.not_fallback h.len)]
  simp only [List.map_append, List.map_cons, hdrop, hkc, List.append_nil, List.append_assoc, List.cons_append]

/-! ## One byte beside -/

/-- Every line counts: what happens is the cache's doing. -/
def Every (_ : Nat) : Prop := True

/-- A property of the byte's slot that survives what the cache does and stores beside it. -/
structure Lasting (p : Slot (BitVec 8) → Prop) : Prop where
  stable : Slot.Stable p
  touch : ∀ x, p x → p x.touch

theorem coherent_lasting (v : BitVec 8) : Lasting (Slot.Coherent v) := ⟨Slot.coherent_stable v, fun _ h => h.touch⟩

theorem settled_lasting (v : BitVec 8) : Lasting (Slot.Settled v) := ⟨Slot.settled_stable v, fun _ h => h.touch⟩

variable {p : Slot (BitVec 8) → Prop} {a : Nat}

theorem storeByte_slot (s : Memory) {va : Addr} {pa : Nat} {b : Bool} (hv : view c w va = some (pa, b)) (v : BitVec 8) (ha : a ≠ pa) :
    slot c.line (storeByte c w s va v) a = slot c.line s a ∨ slot c.line (storeByte c w s va v) a = (slot c.line s a).touch := by
  unfold storeByte
  rw [hv]
  cases b with
  | true =>
    dsimp only
    rw [slot_write_ne c.line s pa v ha]
    split
    · exact Or.inr rfl
    · exact Or.inl rfl
  | false =>
    dsimp only
    rw [slot_writeMem, if_neg ha]
    exact Or.inl rfl

/-- A store to the descriptor. -/
theorem Completion.store (h : Completion c w r) (ha : ¬ Owned r a) {o : Nat} (ho : o + 8 ≤ descSize)
    (htouch : ∀ x, p x → p x.touch) (v : Addr) (s : Memory) (hs : p (slot c.line s a)) :
    p (slot c.line (exec c w (.store (r.desc + BitVec.ofNat 64 o) v) s) a) := by
  refine exec_store_keeps (p := fun s => p (slot c.line s a)) (fun i hi s x hs => ?_) s hs
  obtain ⟨b, hv⟩ := view_field (w := w) h.mmuOn h.desc_lo h.desc_hi ho hi
  have hne : a ≠ r.desc.toNat + (o + i) := fun e => ha (Or.inr ⟨by omega, by omega⟩)
  rcases storeByte_slot s hv x hne with he | he
  · rw [he]
    exact hs
  · rw [he]
    exact htouch _ hs

/-- The device writes elsewhere. -/
theorem DeviceWrites.slot_eq {fs : List (Memory → Memory)} (hf : DeviceWrites r fs) (ha : ¬ Owned r a) {f : Memory → Memory}
    (hm : f ∈ fs) (s : Memory) : slot c.line (f s) a = slot c.line s a := by
  obtain ⟨i, hi, v, he⟩ := hf f hm s
  rw [he, slot_writeMem, if_neg]
  rintro rfl
  exact ha (Or.inl ⟨by omega, by omega⟩)

/-- All that is left to do once the lines of the destination are dropped. -/
theorem Completion.finish (h : Completion c w r) (ha : ¬ Owned r a) (hp : Lasting p) {kc : List Nat} {f : Memory → Memory}
    (hf : f ∈ exec c w (.store (r.desc + BitVec.ofNat 64 offStatus) 0#64) :: cleanAll c.line kc) (s : Memory) (hs : p (slot c.line s a)) :
    p (slot c.line (f s) a) := by
  rcases List.mem_cons.mp hf with rfl | hf
  · exact h.store ha (by decide) hp.touch _ s hs
  · obtain ⟨k, -, rfl⟩ := List.mem_map.mp hf
    exact slot_clean_stable hp.stable k hs

/-- What lasts beside the destination, if dropping its lines keeps it too. -/
theorem Completion.keeps (h : Completion c w r) (ha : ¬ Owned r a) (hp : Lasting p)
    (hdrop : HasLine c r.dst r.len (c.line a) → ∀ x, p x → p x.drop) {s t : Memory} (hr : Runs c.line Every (turnOps c w r) s t)
    (hs : p (slot c.line s a)) : p (slot c.line t a) := by
  obtain ⟨device, kd, kc, heq, hdev, hkd⟩ := poll_eq h
  rw [heq] at hr
  refine hr.keeps (fun s t hn hs => hn.slot hp.stable trivial hs) (fun f hf s hs => ?_) hs
  rcases List.mem_cons.mp hf with rfl | hf
  · exact h.store ha (by decide) hp.touch _ s hs
  rcases List.mem_append.mp hf with hf | hf
  · rw [hdev.slot_eq ha hf]
    exact hs
  rcases List.mem_append.mp hf with hf | hf
  · obtain ⟨k, hk, rfl⟩ := List.mem_map.mp hf
    rw [slot_drop]
    split
    · rename_i hline
      exact hdrop (hline ▸ (hkd k).mp hk) _ hs
    · exact hs
  · exact h.finish ha hp hf s hs

/-! ## Every run -/

/-- What the cache may hold outside the destination and the descriptor. -/
def Sheltered (c : Cpu) (r : Req) (s : Memory) : Prop :=
  ∀ a, ¬ Owned r a → ∀ l, s.cache (c.line a) = some l →
    l.data a = s.mem a ∨ l.dirty = true ∧ ¬ HasLine c r.dst r.len (c.line a)

/-- Every such byte reads as before. -/
def Undisturbed (c : Cpu) (r : Req) (s t : Memory) : Prop := ∀ a, ¬ Owned r a → Cache.read c.line t a = Cache.read c.line s a

theorem slot_cached {s : Memory} {l : Line Nat (BitVec 8)} (hl : s.cache (c.line a) = some l) :
    slot c.line s a = (some (l.dirty, l.data a), s.mem a) := by
  unfold Cache.slot
  rw [hl]
  rfl

theorem Sheltered.undisturbed {s t : Memory} (hs : Sheltered c r s) (h : Completion c w r) (hr : Runs c.line Every (turnOps c w r) s t) :
    Undisturbed c r s t := by
  intro a ha
  rw [read_eq, read_eq]
  cases hl : s.cache (c.line a) with
  | none =>
    have hslot : (slot c.line s a).Settled (s.mem a) := by
      unfold Cache.slot
      rw [hl]
      rfl
    rw [hslot.read, (h.keeps ha (settled_lasting _) (fun _ _ hx => hx.drop) hr hslot).read]
  | some l =>
    rcases hs a ha l hl with hsame | ⟨hdirty, hoff⟩
    · have hslot : (slot c.line s a).Settled (s.mem a) := by
        rw [slot_cached hl, hsame]
        exact ⟨rfl, rfl⟩
      rw [hslot.read, (h.keeps ha (settled_lasting _) (fun _ _ hx => hx.drop) hr hslot).read]
    · have hslot : (slot c.line s a).Coherent (l.data a) := by
        rw [slot_cached hl, hdirty]
        rfl
      rw [hslot.read, (h.keeps ha (coherent_lasting _) (fun hin => absurd hin hoff) hr hslot).read]

/-- The run without an event: in a line of the destination the byte is memory's afterwards. -/
theorem Completion.dropped (h : Completion c w r) (ha : ¬ Owned r a) (hin : HasLine c r.dst r.len (c.line a)) (s : Memory) :
    ∃ t, Runs c.line Every (turnOps c w r) s t ∧ Cache.read c.line t a = s.mem a := by
  obtain ⟨device, kd, kc, heq, hdev, hkd⟩ := poll_eq h
  refine ⟨_, runs_foldl _ s, ?_⟩
  rw [heq, List.foldl_cons, List.foldl_append, List.foldl_append, read_eq]
  generalize hs₁ : exec c w (.store (r.desc + BitVec.ofNat 64 offNext) 0#64) s = s₁
  generalize hs₂ : device.foldl (fun s f => f s) s₁ = s₂
  have hmem₁ : s₁.mem a = s.mem a := by
    have hkeep := h.store (p := fun x => x.2 = s.mem a) ha (o := offNext) (by decide) (fun _ hx => hx) 0#64 s rfl
    rw [hs₁] at hkeep
    exact hkeep
  have hmem₂ : s₂.mem a = s.mem a := by
    rw [← hs₂, ← hmem₁]
    have hkeep := foldl_keeps (p := fun s' => slot c.line s' a = slot c.line s₁ a) s₁
      (fun f (hf : f ∈ device) s' hs' => (hdev.slot_eq ha hf s').trans hs') rfl
    exact congrArg Prod.snd hkeep
  have hdropped : (slot c.line ((dropAll kd).foldl (fun s f => f s) s₂) a).Settled (s.mem a) := by
    rw [foldl_dropAll ((hkd _).mpr hin), hmem₂]
    rfl
  exact (foldl_keeps (p := fun s' => (slot c.line s' a).Settled (s.mem a)) _
    (fun f hf s' hs' => h.finish ha (settled_lasting _) hf s' hs') hdropped).read

/-- The run on which the byte's line, clean, is evicted first. -/
theorem Completion.evicted (h : Completion c w r) (ha : ¬ Owned r a) {s : Memory} {l : Line Nat (BitVec 8)}
    (hl : s.cache (c.line a) = some l) (hclean : l.dirty = false) :
    ∃ t, Runs c.line Every (turnOps c w r) s t ∧ Cache.read c.line t a = s.mem a := by
  have hslot : (slot c.line (drop (clean c.line s (c.line a)) (c.line a)) a).Settled (s.mem a) := by
    rw [slot_drop, if_pos rfl, slot_clean, if_pos rfl, slot_cached hl, hclean]
    rfl
  obtain ⟨t, hr⟩ : ∃ t, Runs c.line Every (turnOps c w r) (drop (clean c.line s (c.line a)) (c.line a)) t := ⟨_, runs_foldl _ _⟩
  refine ⟨t, hr.after (.tail .refl (.evict _)), ?_⟩
  rw [read_eq]
  exact (h.keeps ha (settled_lasting _) (fun _ _ hx => hx.drop) hr hslot).read

/-- Nothing beside the destination and the descriptor changes for the CPU, whatever the
    cache does, if and only if no clean line is stale there and no dirty line of the
    destination holds there what memory does not. -/
theorem neighbours_kept (h : Completion c w r) (s : Memory) :
    (∀ t, Runs c.line Every (turnOps c w r) s t → Undisturbed c r s t) ↔ Sheltered c r s := by
  constructor
  · intro hall a ha l hl
    have hread : Cache.read c.line s a = l.data a := by
      unfold Cache.read
      rw [hl]
    by_cases hin : HasLine c r.dst r.len (c.line a)
    · obtain ⟨t, hr, ht⟩ := h.dropped ha hin s
      exact Or.inl (hread.symm.trans ((hall t hr a ha).symm.trans ht))
    · cases hd : l.dirty with
      | true => exact Or.inr ⟨rfl, hin⟩
      | false =>
        obtain ⟨t, hr, ht⟩ := h.evicted ha hl hd
        exact Or.inl (hread.symm.trans ((hall t hr a ha).symm.trans ht))
  · intro hs t hr
    exact hs.undisturbed h hr

/-! ## Two buffers in one line -/

/-- The window of `sampleBufferWindow`, for the allocator. -/
def samplePlatform : Platform where
  ncStart := sampleBufferWindow.start
  ncEnd := sampleBufferWindow.stop
  pos := by decide
  le := by decide
  room := by decide
  mmuOn := true
  pa := id

/-- A transfer to the second of two buffers of 16 bytes, the first two allocated. -/
def neighbourReq : Req := ⟨0x401F0000#64, 0x4020FFE0#64, 0x40001000#64, 16#64, 0#64, 0#64⟩

theorem neighbourReq_completion : Completion sampleCpu sampleBufferWindow neighbourReq :=
  ⟨rfl, rfl, by decide, cacheable_ram rfl (by decide) (by decide), by decide, by decide⟩

/-- The CPU has filled the first buffer with sevens, and they are still in the line. -/
def neighbourMemory : Memory where
  mem _ := 0#8
  cache k := if k = 0x4020FFC0 / 64 then some ⟨true, fun a => if 0x4020FFF0 ≤ a then 7#8 else 0#8⟩ else none

theorem neighbours_kept_sample :
    (∀ t, Runs sampleCpu.line Every (turnOps sampleCpu sampleBufferWindow neighbourReq) neighbourMemory t →
      Undisturbed sampleCpu neighbourReq neighbourMemory t) ↔ Sheltered sampleCpu neighbourReq neighbourMemory :=
  neighbours_kept neighbourReq_completion neighbourMemory

/-- The sevens are gone. -/
theorem neighbour_lost :
    let q := Queue.init samplePlatform fun _ => 0#8
    (q.allocBuffer 16#64 16#64).2 = 0x4020FFF0#64 ∧
      ((q.allocBuffer 16#64 16#64).1.allocBuffer 16#64 16#64).2 = neighbourReq.dst ∧
      ∃ t, Runs sampleCpu.line Every (turnOps sampleCpu sampleBufferWindow neighbourReq) neighbourMemory t ∧
        Cache.read sampleCpu.line neighbourMemory 0x4020FFF0 = 7#8 ∧ Cache.read sampleCpu.line t 0x4020FFF0 = 0#8 := by
  have hout : ¬ Owned neighbourReq 0x4020FFF0 := by decide
  have hin : HasLine sampleCpu neighbourReq.dst neighbourReq.len (sampleCpu.line 0x4020FFF0) := ⟨0, by decide, by decide⟩
  obtain ⟨t, hr, ht⟩ := neighbourReq_completion.dropped hout hin neighbourMemory
  exact ⟨by decide, by decide, t, hr, by decide, ht⟩

end Microkernel.Dma

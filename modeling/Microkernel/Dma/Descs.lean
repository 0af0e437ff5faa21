/-
  Microkernel.Dma.Descs — descriptors in memory (see `Dma.Queue`).

  A descriptor is `descSize` bytes of the window, and descriptors do not overlap. So a
  store to one descriptor changes nothing that another one holds, and what is written off
  the descriptors changes none. On top of that each operation of the queue has one lemma
  that says what it does to the list of pending requests (`Pending`) and to the
  descriptors carved so far (`Arena`).
-/

import Microkernel.Dma.Queue

namespace Microkernel.Dma

open Bytes Align Linked

variable {P : Platform} {m m' : Mem} {q q' : Queue}

/-! ## What one descriptor holds -/

@[simp] theorem ptr_none {a : Addr} : ptr a = none ↔ a = 0#64 := by
  unfold ptr
  split <;> simp_all

theorem ptr_of_ne {a : Addr} (h : a ≠ 0#64) : ptr a = some a := if_neg h

/-- The bytes of the descriptor at `d` are the same. -/
def Same (m m' : Mem) (d : Addr) : Prop := ∀ b, (b - d).toNat < descSize → m' b = m b

/-- The descriptors at `d` and `e` do not overlap. -/
def Off (d e : Addr) : Prop := descSize ≤ (e - d).toNat ∧ descSize ≤ (d - e).toNat

theorem Off.symm {d e : Addr} (h : Off d e) : Off e d := ⟨h.2, h.1⟩

theorem off_of_le {d e : Addr} (h : d.toNat + descSize ≤ e.toNat) (he : e.toNat + descSize < 2 ^ 64) : Off d e := by
  unfold descSize at h he
  unfold Off descSize
  constructor <;> bv_omega

theorem reqAt_cb (m : Mem) (d : Addr) : (reqAt m d).cb = field m d offCb := rfl

theorem reqAt_user (m : Mem) (d : Addr) : (reqAt m d).user = field m d offUser := rfl

theorem Same.field_eq {d : Addr} (h : Same m m' d) {o : Nat} (ho : o + 8 ≤ descSize) : field m' d o = field m d o := by
  unfold descSize at ho
  apply load64_congr
  intro b hb
  apply h
  have hn : (BitVec.ofNat 64 o).toNat = o := toNat_word (by omega)
  unfold descSize
  bv_omega

theorem Same.reqAt_eq {d : Addr} (h : Same m m' d) : reqAt m' d = reqAt m d := by
  unfold reqAt
  rw [h.field_eq (by decide), h.field_eq (by decide), h.field_eq (by decide), h.field_eq (by decide), h.field_eq (by decide)]

theorem Same.linkOf_eq {d : Addr} (h : Same m m' d) : linkOf m' d = linkOf m d := by
  unfold linkOf
  rw [h.field_eq (by decide)]

/-- A store to a field leaves the other descriptors alone. -/
theorem setField_same (m : Mem) {d e : Addr} (h : Off d e) {o : Nat} (ho : o + 8 ≤ descSize) (v : Addr) :
    Same m (setField m d o v) e := by
  intro b hb
  unfold descSize at ho hb
  apply store_outside
  have hn : (BitVec.ofNat 64 o).toNat = o := toNat_word (by omega)
  unfold Off descSize at h
  bv_omega

@[simp] theorem field_setField (m : Mem) (d : Addr) (o : Nat) (v : Addr) : field (setField m d o v) d o = v :=
  load64_store64 m _ v

theorem field_setField_ne (m : Mem) (d : Addr) {o o' : Nat} (v : Addr) (h : o + 8 ≤ o' ∨ o' + 8 ≤ o) (ho : o + 8 ≤ descSize)
    (ho' : o' + 8 ≤ descSize) : field (setField m d o v) d o' = field m d o' := by
  unfold descSize at ho ho'
  exact load64_store64_apart m v (offset_distance h (by omega) (by omega)) (offset_distance h.symm (by omega) (by omega))

/-- Neither the link nor the status is part of the request. -/
theorem reqAt_setField (m : Mem) (d : Addr) {o : Nat} (ho : o = offNext ∨ o = offStatus) (v : Addr) :
    reqAt (setField m d o v) d = reqAt m d := by
  unfold reqAt
  rcases ho with rfl | rfl <;>
    rw [field_setField_ne m d v (by decide) (by decide) (by decide), field_setField_ne m d v (by decide) (by decide) (by decide),
      field_setField_ne m d v (by decide) (by decide) (by decide), field_setField_ne m d v (by decide) (by decide) (by decide),
      field_setField_ne m d v (by decide) (by decide) (by decide)]

theorem field_fillDesc (m : Mem) (r : Req) {o : Nat} {v : Addr} (h : (o, v) ∈ r.words) :
    field (Queue.fillDesc m r) r.desc o = v := by
  have hapart : Apart (r.words.map Prod.fst) :=
    show Apart [offSrc, offDst, offLen, offStatus, offCb, offUser, offNext] by decide
  exact load64_storeWords m hapart h

theorem reqAt_fillDesc (m : Mem) (r : Req) : reqAt (Queue.fillDesc m r) r.desc = r := by
  have hsrc : field (Queue.fillDesc m r) r.desc offSrc = r.src := field_fillDesc m r (by simp [Req.words])
  have hdst : field (Queue.fillDesc m r) r.desc offDst = r.dst := field_fillDesc m r (by simp [Req.words])
  have hlen : field (Queue.fillDesc m r) r.desc offLen = r.len := field_fillDesc m r (by simp [Req.words])
  have hcb : field (Queue.fillDesc m r) r.desc offCb = r.cb := field_fillDesc m r (by simp [Req.words])
  have huser : field (Queue.fillDesc m r) r.desc offUser = r.user := field_fillDesc m r (by simp [Req.words])
  unfold reqAt
  rw [hsrc, hdst, hlen, hcb, huser]

theorem linkOf_fillDesc (m : Mem) (r : Req) : linkOf (Queue.fillDesc m r) r.desc = none := by
  have hnext : field (Queue.fillDesc m r) r.desc offNext = 0#64 := field_fillDesc m r (by simp [Req.words])
  exact ptr_none.mpr hnext

theorem fillDesc_same (m : Mem) {r : Req} {e : Addr} (h : Off r.desc e) : Same m (Queue.fillDesc m r) e := by
  intro b hb
  refine storeWords_outside (n := descSize) ?_ ?_
  · intro w hw
    have ho : w.1 ∈ [offSrc, offDst, offLen, offStatus, offCb, offUser, offNext] := List.mem_map_of_mem (f := Prod.fst) hw
    have hall : ∀ o ∈ [offSrc, offDst, offLen, offStatus, offCb, offUser, offNext], o + 8 ≤ descSize := by decide
    exact hall _ ho
  · unfold Off at h
    unfold descSize at h hb ⊢
    bv_omega

/-- The copy only writes the bytes at its destination. -/
theorem dmaMemcpy_outside {pa : Addr → Addr} {n : Nat} {m : Mem} {d s b : Addr}
    (h : ∀ i < n, b ≠ pa (d + BitVec.ofNat 64 i)) : dmaMemcpy pa n m d s b = m b := by
  induction n generalizing m d s with
  | zero => rfl
  | succ n ih =>
    have hfirst : b ≠ pa d := by simpa using h 0 (by omega)
    rw [dmaMemcpy, ih fun i hi => ?_, Function.update_of_ne hfirst]
    have hnext : d + 1#64 + BitVec.ofNat 64 i = d + BitVec.ofNat 64 (i + 1) := by
      rw [BitVec.add_assoc, BitVec.add_comm 1#64, ← BitVec.ofNat_add]
    rw [hnext]
    exact h (i + 1) (by omega)

/-! ## The arena -/

/-- The descriptors `ds` were carved below `g_dma_desc_next`. -/
structure Arena (P : Platform) (q : Queue) (ds : List Addr) : Prop where
  next_le : q.descNext.toNat ≤ q.bufEnd.toNat
  end_le : q.bufEnd.toNat ≤ P.ncEnd.toNat
  start_le : P.ncStart.toNat ≤ q.descNext.toNat
  within : ∀ d ∈ ds, P.ncStart.toNat ≤ d.toNat ∧ d.toNat + descSize ≤ q.descNext.toNat
  apart : ds.Pairwise fun d e => d.toNat + descSize ≤ e.toNat ∨ e.toNat + descSize ≤ d.toNat

instance : Std.Symm Off := ⟨fun _ _ => Off.symm⟩

theorem Arena.off {ds : List Addr} (h : Arena P q ds) {d e : Addr} (hd : d ∈ ds) (he : e ∈ ds) (hne : d ≠ e) : Off d e := by
  have hlt : ∀ d ∈ ds, d.toNat + descSize < 2 ^ 64 := fun d hd => lt_of_le_of_lt (h.within d hd).2 q.descNext.isLt
  refine (h.apart.imp_of_mem fun hd he hde => ?_).forall hd he hne
  rcases hde with hde | hde
  · exact off_of_le hde (hlt _ he)
  · exact (off_of_le hde (hlt _ hd)).symm

/-- The order does not matter. -/
theorem Arena.perm {ds ds' : List Addr} (h : Arena P q ds) (hp : ds.Perm ds') : Arena P q ds' :=
  ⟨h.next_le, h.end_le, h.start_le, fun d hd => h.within d (hp.mem_iff.mpr hd), (hp.pairwise_iff fun hde => hde.symm).mp h.apart⟩

theorem Arena.nodup {ds : List Addr} (h : Arena P q ds) : ds.Nodup := by
  refine h.apart.imp fun hde => ?_
  rintro rfl
  unfold descSize at hde
  rcases hde with hde | hde <;> omega

theorem Arena.ne_zero {ds : List Addr} (h : Arena P q ds) {d : Addr} (hd : d ∈ ds) : d ≠ 0#64 := by
  rintro rfl
  have hpos := P.pos
  have hle := (h.within _ hd).1
  simp at hle
  omega

/-- Bytes off the descriptors. -/
theorem Arena.same {ds : List Addr} (h : Arena P q ds) (hm : ∀ a, Carved P q a → m a = q.mem a) {d : Addr} (hd : d ∈ ds) :
    Same q.mem m d := by
  intro b hb
  have hw := h.within d hd
  unfold descSize at hb hw
  refine hm b ⟨?_, ?_⟩
  · rw [BitVec.le_def]
    bv_omega
  · rw [BitVec.lt_def]
    bv_omega

/-- Only the globals that the arena reads matter. -/
theorem Arena.congr {ds : List Addr} (h : Arena P q ds) (hn : q'.descNext = q.descNext) (he : q'.bufEnd = q.bufEnd) :
    Arena P q' ds := by
  obtain ⟨h1, h2, h3, h4, h5⟩ := h
  refine ⟨?_, ?_, ?_, ?_, h5⟩
  · rw [hn, he]
    exact h1
  · rw [he]
    exact h2
  · rw [hn]
    exact h3
  · rw [hn]
    exact h4

/-- The memory that is left for descriptors. -/
def Queue.room (q : Queue) : Nat := q.bufEnd.toNat - q.descNext.toNat

/-- A new descriptor is carved from the bottom, or nothing changes. -/
theorem allocDesc_spec (hle : q.descNext.toNat ≤ q.bufEnd.toNat) (hend : q.bufEnd.toNat ≤ P.ncEnd.toNat) :
    q.allocDesc = (q, 0#64) ∨
      ∃ d, q.allocDesc = ({ q with descNext := d + BitVec.ofNat 64 descSize }, d) ∧ 8 ∣ d.toNat ∧ q.descNext.toNat ≤ d.toNat ∧
        d.toNat + descSize ≤ q.bufEnd.toNat ∧ (d + BitVec.ofNat 64 descSize).toNat = d.toNat + descSize := by
  have hroom := P.room
  have hup := le_ceilTo (a := 8) (by decide) q.descNext.toNat
  have hlt := ceilTo_lt (a := 8) (by decide) q.descNext.toNat
  have height : (8#64 : BitVec 64) = BitVec.twoPow 64 3 := by decide
  have haligned : (roundUp q.descNext 8#64).toNat = ceilTo 8 q.descNext.toNat := by
    have hfit : ceilTo (2 ^ 3) q.descNext.toNat < 2 ^ 64 := lt_of_lt_of_le hlt (by omega)
    rw [height, toNat_roundUp (by decide), if_pos hfit]
    rfl
  have hsum : (roundUp q.descNext 8#64 + BitVec.ofNat 64 descSize).toNat = ceilTo 8 q.descNext.toNat + descSize := by
    rw [BitVec.toNat_add, haligned]
    unfold descSize
    simp only [BitVec.toNat_ofNat]
    omega
  unfold Queue.allocDesc
  by_cases hfull : q.bufEnd < roundUp q.descNext 8#64 + BitVec.ofNat 64 descSize
  · exact Or.inl (if_pos hfull)
  · right
    refine ⟨roundUp q.descNext 8#64, if_neg hfull, ?_, ?_, ?_, ?_⟩
    · rw [haligned]
      exact dvd_ceilTo 8 _
    · rw [haligned]
      exact hup
    · rw [BitVec.lt_def, hsum] at hfull
      rw [haligned]
      omega
    · rw [haligned]
      exact hsum

/-- `(end - len) & ~(align - 1)`. -/
theorem alignDown_spec {v align : Addr} (h : align &&& (align - 1#64) = 0#64) (hne : align ≠ 0#64) :
    (v &&& ~~~(align - 1#64)).toNat ≤ v.toNat ∧ align.toNat ∣ (v &&& ~~~(align - 1#64)).toNat := by
  obtain ⟨k, hk, rfl⟩ := isPow2_iff.mp (decide_eq_true ⟨hne, h⟩ : isPow2 align = true)
  rw [toNat_and_not_mask hk, BitVec.toNat_twoPow, Nat.mod_eq_of_lt (Nat.pow_lt_pow_right (by decide) hk)]
  exact ⟨Nat.div_mul_le_self _ _, Nat.dvd_mul_left _ _⟩

/-- A data buffer is taken from the top, or nothing changes. -/
theorem allocBuffer_spec (q : Queue) (len align : Addr) :
    q.allocBuffer len align = (q, 0#64) ∨
      ∃ p, q.allocBuffer len align = ({ q with bufEnd := p }, p) ∧ q.descNext.toNat ≤ p.toNat ∧
        p.toNat + len.toNat ≤ q.bufEnd.toNat ∧ (align ≠ 0#64 → align.toNat ∣ p.toNat) := by
  unfold Queue.allocBuffer
  by_cases hlen : len = 0#64
  · exact Or.inl (if_pos hlen)
  rw [if_neg hlen]
  have hne : (if align = 0#64 then 1#64 else align) ≠ 0#64 := by
    split
    · decide
    · rename_i hne
      exact hne
  have hsame : align ≠ 0#64 → (if align = 0#64 then 1#64 else align) = align := fun hne => if_neg hne
  generalize (if align = 0#64 then 1#64 else align) = a at hne hsame ⊢
  dsimp only
  by_cases hpow : a &&& (a - 1#64) ≠ 0#64
  · exact Or.inl (if_pos hpow)
  rw [if_neg hpow]
  by_cases hend : q.bufEnd < len
  · exact Or.inl (if_pos hend)
  rw [if_neg hend]
  by_cases hstart : (q.bufEnd - len) &&& ~~~(a - 1#64) < q.descNext
  · exact Or.inl (if_pos hstart)
  rw [if_neg hstart]
  obtain ⟨hdown, hdvd⟩ := alignDown_spec (v := q.bufEnd - len) (not_not.mp hpow) hne
  rw [BitVec.lt_def] at hend hstart
  rw [BitVec.toNat_sub_of_le (by rw [BitVec.le_def]; omega)] at hdown
  exact Or.inr ⟨_, rfl, by omega, by omega, fun h => hsame h ▸ hdvd⟩

/-- A new descriptor lies behind the others, and the arena has shrunk. -/
theorem Arena.allocDesc {ds : List Addr} (h : Arena P q ds) :
    q.allocDesc = (q, 0#64) ∨
      ∃ d, q.allocDesc = ({ q with descNext := d + BitVec.ofNat 64 descSize }, d) ∧ d ≠ 0#64 ∧
        Arena P { q with descNext := d + BitVec.ofNat 64 descSize } (ds ++ [d]) ∧
        Queue.room { q with descNext := d + BitVec.ofNat 64 descSize } + descSize ≤ q.room := by
  obtain ⟨h1, h2, h3, h4, h5⟩ := h
  have hpos := P.pos
  rcases allocDesc_spec h1 h2 with hnone | ⟨d, hd, -, hlow, hhigh, hsum⟩
  · exact Or.inl hnone
  refine Or.inr ⟨d, hd, ?_, ⟨?_, h2, ?_, ?_, ?_⟩, ?_⟩
  · rintro rfl
    simp only [BitVec.toNat_ofNat, Nat.zero_mod] at hlow
    omega
  · simp only [hsum]
    exact hhigh
  · simp only [hsum]
    omega
  · intro e he
    simp only [hsum]
    rcases List.mem_append.mp he with he | he
    · have := h4 e he
      omega
    · rw [List.mem_singleton.mp he]
      omega
  · refine List.pairwise_append.mpr ⟨h5, List.pairwise_singleton _ _, ?_⟩
    intro e he f hf
    rw [List.mem_singleton.mp hf]
    have := h4 e he
    exact Or.inl (by omega)
  · unfold Queue.room
    simp only [hsum]
    omega

/-- A data buffer takes from the other end. -/
theorem Arena.allocBuffer {ds : List Addr} (h : Arena P q ds) (len align : Addr) :
    ∃ e, (q.allocBuffer len align).1 = { q with bufEnd := e } ∧ Arena P { q with bufEnd := e } ds ∧
      e.toNat ≤ q.bufEnd.toNat := by
  rcases allocBuffer_spec q len align with hnone | ⟨p, hp, hlow, hhigh, -⟩
  · exact ⟨q.bufEnd, by rw [hnone], h, le_refl _⟩
  · have hle := h.end_le
    refine ⟨p, by rw [hp], ⟨hlow, ?_, h.start_le, h.within, h.apart⟩, by omega⟩
    dsimp only
    omega

/-- What the descriptors `ds` hold is the same. -/
def Kept (ds : List Addr) (q q' : Queue) : Prop := ∀ d ∈ ds, Same q.mem q'.mem d

theorem kept_refl (ds : List Addr) (q : Queue) : Kept ds q q := fun _ _ _ _ => rfl

theorem Kept.trans {ds : List Addr} {q'' : Queue} (h : Kept ds q q') (h' : Kept ds q' q'') : Kept ds q q'' :=
  fun d hd b hb => (h' d hd b hb).trans (h d hd b hb)

/-! ## The pending requests -/

/-- The list from `g_pending_head` holds the requests `l`. -/
structure Pending (q : Queue) (l : List Req) : Prop where
  fifo : Fifo (linkOf q.mem) (ptr q.head) (ptr q.tail) (l.map Req.desc)
  holds : ∀ r ∈ l, reqAt q.mem r.desc = r

theorem pending_init (P : Platform) (m : Mem) : Pending (Queue.init P m) [] := by
  refine ⟨fifo_empty, ?_⟩
  intro r hr
  cases hr

/-- Memory may change off the pending descriptors. -/
theorem Pending.congr {l : List Req} (h : Pending q l) (hh : q'.head = q.head) (ht : q'.tail = q.tail)
    (hm : ∀ r ∈ l, Same q.mem q'.mem r.desc) : Pending q' l := by
  obtain ⟨hf, hr⟩ := h
  refine ⟨?_, fun r hm' => ((hm r hm').reqAt_eq).trans (hr r hm')⟩
  rw [hh, ht]
  refine hf.congr fun d hd => ?_
  obtain ⟨r, hm', rfl⟩ := List.mem_map.mp hd
  exact (hm r hm').linkOf_eq

theorem Pending.empty {l : List Req} (h : Pending q l) (hz : q.head = 0#64) : l = [] := by
  have hf := h.fifo
  rw [ptr_none.mpr hz] at hf
  exact List.map_eq_nil_iff.mp hf.nil

@[simp] theorem link_tail (q : Queue) (d : Addr) : (q.link d).tail = d := by
  unfold Queue.link
  split <;> rfl

/-- Linking a filled descriptor that is none of the pending ones. -/
theorem Pending.link {l : List Req} (h : Pending q l) {r : Req} (hd : r.desc ≠ 0#64) (hr : reqAt q.mem r.desc = r)
    (hn : linkOf q.mem r.desc = none) (hoff : ∀ s ∈ l, Off s.desc r.desc)
    (hl : ∀ s ∈ l, ∀ t ∈ l, s.desc ≠ t.desc → Off s.desc t.desc) : Pending (q.link r.desc) (l ++ [r]) := by
  obtain ⟨hf, hh⟩ := h
  unfold Queue.link
  by_cases ht : q.tail = 0#64
  · have hhead : ptr q.head = none := hf.tail_none.mp (ptr_none.mpr ht)
    have hl0 : l = [] := Pending.empty ⟨hf, hh⟩ (ptr_none.mp hhead)
    rw [if_pos ht, hl0]
    refine ⟨?_, ?_⟩
    · simp only [ptr_of_ne hd]
      exact Fifo.push_nil hn
    · intro s hs
      have hsr : s = r := by simpa using hs
      rw [hsr]
      exact hr
  · rw [if_neg ht]
    have hft := hf
    rw [ptr_of_ne ht] at hft
    -- the tail is one of the pending descriptors
    obtain ⟨tl, htm, htd⟩ : ∃ tl ∈ l, tl.desc = q.tail :=
      List.mem_map.mp (List.mem_of_getLast? hft.tail_eq.symm)
    have hsame : ∀ d, Off q.tail d → Same q.mem (setField q.mem q.tail offNext r.desc) d := fun d ho =>
      setField_same q.mem ho (by decide) _
    have hnew : Off q.tail r.desc := htd ▸ hoff tl htm
    refine ⟨?_, ?_⟩
    · rw [List.map_append, ptr_of_ne hd]
      refine hft.push ?_ ?_ ?_
      · rw [(hsame _ hnew).linkOf_eq]
        exact hn
      · unfold linkOf
        rw [field_setField]
        exact ptr_of_ne hd
      · intro d hdm hne
        obtain ⟨s, hs, rfl⟩ := List.mem_map.mp hdm
        exact (hsame _ (htd ▸ hl tl htm s hs (by rw [htd]; exact Ne.symm hne))).linkOf_eq
    · intro s hs
      rcases List.mem_append.mp hs with hs | hs
      · by_cases he : s.desc = q.tail
        · have hkeep := hh s hs
          rw [he] at hkeep ⊢
          rw [reqAt_setField _ _ (Or.inl rfl)]
          exact hkeep
        · exact (hsame _ (htd ▸ hl tl htm s hs (by rw [htd]; exact Ne.symm he))).reqAt_eq.trans (hh s hs)
      · rw [List.mem_singleton.mp hs]
        exact (hsame _ hnew).reqAt_eq.trans hr

@[simp] theorem pop_descNext (q : Queue) : q.pop.descNext = q.descNext := by
  unfold Queue.pop
  rfl

@[simp] theorem pop_bufEnd (q : Queue) : q.pop.bufEnd = q.bufEnd := by
  unfold Queue.pop
  rfl

/-- Taking the first request off the list. -/
theorem Pending.pop {l : List Req} (h : Pending q l) (hne : q.head ≠ 0#64)
    (hl : ∀ s ∈ l, ∀ t ∈ l, s.desc ≠ t.desc → Off s.desc t.desc) :
    ∃ r l', l = r :: l' ∧ r.desc = q.head ∧ Pending q.pop l' ∧ reqAt q.pop.mem r.desc = r := by
  obtain ⟨hf, hh⟩ := h
  rw [ptr_of_ne hne] at hf
  cases l with
  | nil => cases hf.chain
  | cons r l' =>
    have hrd : r.desc = q.head := (Option.some.inj hf.chain.1).symm
    have hnd : (r.desc :: l'.map Req.desc).Nodup := hf.chain.nodup
    have hsame : ∀ s ∈ l', Same q.mem (setField q.mem q.head offNext 0#64) s.desc := fun s hs =>
      setField_same q.mem (hrd ▸ hl r List.mem_cons_self s (List.mem_cons_of_mem r hs) fun e =>
        (List.nodup_cons.mp hnd).1 (e ▸ List.mem_map_of_mem hs)) (by decide) _
    refine ⟨r, l', rfl, hrd, ⟨?_, ?_⟩, ?_⟩
    · have hlast : linkOf q.mem q.head = none → ptr q.pop.tail = none := by
        intro hn
        unfold Queue.pop
        dsimp only
        rw [if_pos (ptr_none.mp hn)]
        rfl
      have hmore : linkOf q.mem q.head ≠ none → ptr q.pop.tail = ptr q.tail := by
        intro hn
        unfold Queue.pop
        dsimp only
        rw [if_neg fun e => hn (ptr_none.mpr e)]
      have hrefl : ∀ d, d ≠ q.head → linkOf q.mem d = linkOf q.mem d := fun _ _ => rfl
      obtain ⟨l'', he, hp⟩ := hf.pop hrefl hlast hmore
      rw [List.map_cons] at he
      rw [← (List.cons.inj he).2] at hp
      refine hp.congr fun d hd => ?_
      obtain ⟨s, hs, rfl⟩ := List.mem_map.mp hd
      exact (hsame s hs).linkOf_eq
    · intro s hs
      exact (hsame s hs).reqAt_eq.trans (hh s (List.mem_cons_of_mem r hs))
    · rw [hrd]
      unfold Queue.pop
      dsimp only
      rw [reqAt_setField _ _ (Or.inl rfl), ← hrd]
      exact hh r List.mem_cons_self

end Microkernel.Dma

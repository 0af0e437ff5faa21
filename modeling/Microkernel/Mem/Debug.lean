/-
  Microkernel.Mem.Debug — the pool of src/mem_pool.cc with MEM_POOL_DEBUG 1.

  `mem_pool_free` then walks the free list before it takes a block. The list lies in the
  memory that clients write, so the walk has a bound on its rounds, and `none` is a walk
  that has used it up. In a `DebugRun` a client frees any pointer at any time.

  Proved, over every such run (`pool_debug`): the pool is what it is for a client of the
  plain build that keeps to the rules, and the walk ends after a round for each block. A
  free is accepted if and only if the block is held (and the pool does not end at 2^64);
  any other pointer, one freed before among them, changes nothing. Where the client keeps
  to the rules, the two builds do the same (`freeDebug_eq_free`).
-/

import Microkernel.Mem.Frees

namespace Microkernel

open Bytes Linked

namespace MemPool

/-- `for (it = head; it; it = load_next(it))`. -/
def freelistContains (m : Mem) (p : Addr) : Nat → BitVec 64 → Option Bool
  | 0, it => if it = 0#64 then some false else none
  | n + 1, it => if it = 0#64 then some false else if it = p then some true else freelistContains m p n (loadNext m it)

/-- `mem_pool_free` with MEM_POOL_DEBUG. -/
def freeDebug (s : MemPool) (fuel : Nat) (m : Mem) (p : BitVec 64) : Option (MemPool × Mem × Bool) :=
  if p = 0#64 then some (s, m, false)
  else if !s.owns p then some (s, m, false)
  else if s.blockCount ≤ s.freeCount then some (s, m, false)
  else
    match freelistContains m p fuel s.freeList with
    | none => none
    | some true => some (s, m, false)
    | some false => some ({ s with freeList := p, freeCount := s.freeCount + 1#64 }, storeNext m p s.freeList, true)

end MemPool

/-- Calls with any pointers, and writes to held blocks and outside the blocks. -/
inductive DebugRun (backing backingSize blockSize : BitVec 64) : MemPool → Mem → Set Addr → Prop
  | init {s : MemPool} {m m' : Mem} : MemPool.init m backing backingSize blockSize = some (s, m') →
      DebugRun backing backingSize blockSize s m' ∅
  | alloc {s : MemPool} {m : Mem} {held : Set Addr} : DebugRun backing backingSize blockSize s m held →
      DebugRun backing backingSize blockSize (s.alloc m).1 (s.alloc m).2.1
        (if (s.alloc m).2.2 = 0#64 then held else insert (s.alloc m).2.2 held)
  | free {s s' : MemPool} {m m' : Mem} {held : Set Addr} {ok : Bool} (fuel : Nat) (p : BitVec 64) :
      DebugRun backing backingSize blockSize s m held → s.freeDebug fuel m p = some (s', m', ok) →
      DebugRun backing backingSize blockSize s' m' (if ok = true then held \ {p} else held)
  | write {s : MemPool} {m : Mem} {held : Set Addr} (a : Addr) (v : BitVec 8) : DebugRun backing backingSize blockSize s m held →
      (∃ p ∈ held, s.InBlock p a) ∨ (¬ ∃ p, s.IsBlock p ∧ s.InBlock p a) →
      DebugRun backing backingSize blockSize s (Function.update m a v) held

namespace MemPool

variable {backing backingSize blockSize : BitVec 64} {s : MemPool} {m : Mem} {held : Set Addr} {p : Addr} {fuel : Nat}

/-- On a list of blocks the walk finds its elements, given a round for each. -/
theorem freelistContains_eq {l : List Addr} {it : BitVec 64} (h : Chain (nextFree m) (ptr it) l) (hfuel : l.length ≤ fuel) :
    freelistContains m p fuel it = some (decide (p ∈ l)) := by
  induction l generalizing fuel it with
  | nil =>
    rw [ptr_eq_none.mp h]
    cases fuel <;> rfl
  | cons a l ih =>
    obtain ⟨hhead, htail⟩ := h
    have hit : it ≠ 0#64 := by
      intro h0
      rw [ptr_eq_none.mpr h0] at hhead
      cases hhead
    rw [ptr_of_ne hit] at hhead
    cases hhead
    cases fuel with
    | zero => simp at hfuel
    | succ fuel =>
      rw [List.length_cons] at hfuel
      rw [freelistContains, if_neg hit]
      by_cases hp : a = p
      · subst hp
        simp
      · rw [if_neg hp, ih htail (by omega)]
        simp [Ne.symm hp]

/-- The walk, where the free list is sound. -/
theorem FreeList.walk {l : List Addr} (hs : Shape backing backingSize blockSize s) (hf : FreeList s m held l)
    (hfuel : s.blockCount.toNat ≤ fuel) : freelistContains m p fuel s.freeList = some (decide (p ∈ l)) := by
  have hlen := hs.length_le (Chain.nodup hf.chain) fun q hq => ((hf.mem q).mp hq).1
  exact freelistContains_eq hf.chain (hlen.trans hfuel)

/-- The debug build asks one more question, of the pointers that the plain build takes. -/
theorem freeDebug_eq (s : MemPool) (fuel : Nat) (m : Mem) (p : BitVec 64) :
    s.freeDebug fuel m p = if (s.free m p).2.2 = true then
        (freelistContains m p fuel s.freeList).map fun found => if found = true then (s, m, false) else s.free m p
      else some (s, m, false) := by
  unfold freeDebug free
  by_cases h0 : p = 0#64
  · simp [h0]
  by_cases ho : s.owns p = true
  · by_cases hc : s.blockCount ≤ s.freeCount
    · simp [h0, ho, hc]
    · simp only [if_neg h0, ho, Bool.not_true, Bool.false_eq_true, if_false, if_neg hc, if_true]
      cases freelistContains m p fuel s.freeList with
      | none => rfl
      | some found => cases found <;> rfl
  · simp [h0, ho]

/-- More rounds do not change the answer. -/
theorem freelistContains_mono {it : BitVec 64} {n : Nat} {found : Bool} (h : freelistContains m p fuel it = some found) (hn : fuel ≤ n) :
    freelistContains m p n it = some found := by
  induction fuel generalizing it n with
  | zero =>
    rw [freelistContains] at h
    split at h
    · rename_i h0
      cases n with
      | zero => rwa [freelistContains, if_pos h0]
      | succ n => rwa [freelistContains, if_pos h0]
    · cases h
  | succ fuel ih =>
    obtain ⟨k, rfl⟩ : ∃ k, n = k + 1 := ⟨n - 1, by omega⟩
    rw [freelistContains] at h ⊢
    split at h
    · rw [if_pos ‹_›, h]
    · split at h
      · rw [if_neg ‹_›, if_pos ‹_›, h]
      · rw [if_neg ‹_›, if_neg ‹_›]
        exact ih h (by omega)

theorem freeDebug_mono {n : Nat} {r : MemPool × Mem × Bool} (h : s.freeDebug fuel m p = some r) (hn : fuel ≤ n) : s.freeDebug n m p = some r := by
  rw [freeDebug_eq] at h ⊢
  split at h
  · rename_i htaken
    obtain ⟨found, hwalk, hr⟩ := Option.map_eq_some_iff.mp h
    rw [if_pos htaken, freelistContains_mono hwalk hn, Option.map_some, hr]
  · rw [if_neg ‹_›, h]

/-- What the debug build does with a pointer. -/
theorem PoolInv.freeDebug (hi : PoolInv backing backingSize blockSize s m held) (hfuel : s.blockCount.toNat ≤ fuel) (p : BitVec 64) :
    (p ∈ held ∧ s.base.toNat + s.blockCount.toNat * s.blockSize.toNat < 2 ^ 64 →
      s.freeDebug fuel m p = some (s.free m p) ∧ (s.free m p).2.2 = true) ∧
    (¬(p ∈ held ∧ s.base.toNat + s.blockCount.toNat * s.blockSize.toNat < 2 ^ 64) → s.freeDebug fuel m p = some (s, m, false)) := by
  obtain ⟨hs, hh, l, hf⟩ := hi
  have hacc := hf.accepts_iff hs hh (p := p)
  have hwalk := hf.walk hs hfuel (p := p)
  rw [freeDebug_eq, hwalk, Option.map_some]
  refine ⟨fun ⟨hp, hlt⟩ => ?_, fun hno => ?_⟩
  · have htaken : (s.free m p).2.2 = true := hacc.mpr ⟨hh p hp, Set.nonempty_iff_ne_empty.mp ⟨p, hp⟩, hlt⟩
    have hnot : p ∉ l := fun hl => ((hf.mem p).mp hl).2 hp
    simp [htaken, hnot]
  · split
    · rename_i htaken
      obtain ⟨hb, -, hlt⟩ := hacc.mp htaken
      have hin : p ∈ l := (hf.mem p).mpr ⟨hb, fun hp => hno ⟨hp, hlt⟩⟩
      simp [hin]
    · rfl

/-- For a pointer that is held, or no block, the two builds do the same. -/
theorem PoolInv.freeDebug_eq_free (hi : PoolInv backing backingSize blockSize s m held) (hfuel : s.blockCount.toNat ≤ fuel)
    (hp : p ∈ held ∨ ¬ s.IsBlock p) : s.freeDebug fuel m p = some (s.free m p) := by
  have hboth := hi.freeDebug hfuel p
  obtain ⟨hs, hh, l, hf⟩ := hi
  have hiff := hf.free_iff hs hh hp
  by_cases hacc : p ∈ held ∧ s.base.toNat + s.blockCount.toNat * s.blockSize.toNat < 2 ^ 64
  · exact (hboth.1 hacc).1
  · have hfalse : (s.free m p).2.2 = false := by
      rw [← Bool.not_eq_true, hiff]
      exact hacc
    rw [hboth.2 hacc, free_false hfalse]

end MemPool

open MemPool

variable {backing backingSize blockSize : BitVec 64} {s : MemPool} {m : Mem} {held : Set Addr}

/-- Whatever its clients free, the debug build makes a run of the plain build whose clients
    keep to the rules. -/
theorem DebugRun.poolRun (hw : backing.toNat + backingSize.toNat ≤ 2 ^ 64) (r : DebugRun backing backingSize blockSize s m held) :
    PoolRun backing backingSize blockSize s m held := by
  induction r with
  | init h => exact .init h
  | @alloc s m held _ ih =>
    split
    · rename_i hnull
      exact .allocNull ih hnull
    · rename_i hsome
      exact .alloc ih hsome
  | @free s s' m m' held ok fuel p _ hfree ih =>
    have hi := poolInv_run hw ih
    have hboth := hi.freeDebug (le_max_right fuel s.blockCount.toNat) p
    have hmore := freeDebug_mono hfree (le_max_left fuel s.blockCount.toNat)
    by_cases hacc : p ∈ held ∧ s.base.toNat + s.blockCount.toNat * s.blockSize.toNat < 2 ^ 64
    · obtain ⟨heq, htaken⟩ := hboth.1 hacc
      have hr := Option.some.inj (hmore.symm.trans heq)
      have hrun := PoolRun.free p ih (Or.inl hacc.1) htaken
      rw [← hr] at hrun htaken
      rwa [if_pos htaken]
    · -- rejected: nothing happens
      cases Option.some.inj (hmore.symm.trans (hboth.2 hacc))
      exact ih
  | write a v _ ha ih => exact .write a v ih ha

/-- Every run with any frees is one of the plain build with clients that keep to the rules; in
    its states alloc returns a block that is not held, or null if there is none, and a free
    is accepted if and only if its pointer is held and otherwise changes nothing. -/
theorem pool_debug (hw : backing.toNat + backingSize.toNat ≤ 2 ^ 64) (r : DebugRun backing backingSize blockSize s m held) :
    PoolRun backing backingSize blockSize s m held ∧
      ((s.alloc m).2.2 ≠ 0#64 → s.IsBlock (s.alloc m).2.2 ∧ (s.alloc m).2.2 ∉ held) ∧
      ((s.alloc m).2.2 = 0#64 ↔ ∀ p, s.IsBlock p → p ∈ held) ∧
      ∀ fuel p, s.blockCount.toNat ≤ fuel →
        (p ∈ held ∧ s.base.toNat + s.blockCount.toNat * s.blockSize.toNat < 2 ^ 64 →
          s.freeDebug fuel m p = some (s.free m p) ∧ (s.free m p).2.2 = true) ∧
        (¬(p ∈ held ∧ s.base.toNat + s.blockCount.toNat * s.blockSize.toNat < 2 ^ 64) → s.freeDebug fuel m p = some (s, m, false)) := by
  have hrun := r.poolRun hw
  have hi := poolInv_run hw hrun
  obtain ⟨halloc, hnull⟩ := hi.alloc_good
  exact ⟨hrun, halloc, hnull, fun fuel p hfuel => hi.freeDebug hfuel p⟩

/-- Of five blocks one is handed out. A free of another one is without effect. -/
theorem pool_debug_five :
    ∃ s m, s.freeCount = 4#64 ∧ s.freeDebug 5 m 0x1040#64 = some (s, m, false) ∧ (s.free m 0x1050#64).2.2 = true ∧
      PoolRun 0x1001#64 100#64 9#64 s m (insert 0x1050#64 ∅) := by
  have hfirst : (fiveBlocks.alloc fiveLinks).2.2 = 0x1050#64 := by decide +kernel
  have r := (DebugRun.init init_five).alloc
  rw [hfirst, if_neg (by decide)] at r
  obtain ⟨hrun, -, -, hfree⟩ := pool_debug (by decide) r
  refine ⟨_, _, by decide +kernel, (hfree 5 0x1040#64 (by decide +kernel)).2 ?_, ((hfree 5 0x1050#64 (by decide +kernel)).1 ?_).2, hrun⟩
  · rintro ⟨h, -⟩
    simp at h
  · exact ⟨Set.mem_insert _ _, by decide +kernel⟩

end Microkernel

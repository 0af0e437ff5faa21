/-
  Microkernel.Lib.Cache — a write-back cache over a memory.

  A line holds the data of all addresses `a` with `line a` equal to it, clean or dirty. The
  cache may at any moment write a dirty line back, evict a line, or fill a clean line from
  memory; and what is not in the lines one looks at (`keep`) may change in any way
  (`Elsewhere`). `Noise` is any number of such events, `Runs fs` the operations `fs` in
  order with noise around each.

  For one address the four predicates say where its value `v` is: `Coherent` (the CPU reads
  `v`, and a clean line agrees with memory), `Settled` (memory has `v`, and the line too if
  there is one), `Landed` (memory has `v`, and only a clean line may disagree), `NoDirty`
  (a dirty line has nothing but `v`). All four survive noise; cleaning leads from the first
  to the second, a copy into memory from the last to the third, and invalidating from there
  to the second.
-/

import Mathlib

namespace Microkernel.Cache

variable {α β κ : Type*}

structure Line (α β : Type*) where
  dirty : Bool
  data : α → β

structure Cached (α β κ : Type*) where
  mem : α → β
  cache : κ → Option (Line α β)

variable [DecidableEq κ] (line : α → κ) (keep : κ → Prop)

/-! ## Operations -/

/-- What the CPU reads. -/
def read (s : Cached α β κ) (a : α) : β :=
  match s.cache (line a) with
  | some l => l.data a
  | none => s.mem a

/-- A store of the CPU: into the line, which is filled if it was not there. -/
def write [DecidableEq α] (s : Cached α β κ) (a : α) (v : β) : Cached α β κ :=
  let data := match s.cache (line a) with
    | some l => l.data
    | none => s.mem
  { s with cache := Function.update s.cache (line a) (some ⟨true, Function.update data a v⟩) }

/-- An access that bypasses the cache. -/
def writeMem [DecidableEq α] (s : Cached α β κ) (a : α) (v : β) : Cached α β κ := { s with mem := Function.update s.mem a v }

/-- Writing line `k` back if it is dirty. -/
def clean (s : Cached α β κ) (k : κ) : Cached α β κ :=
  match s.cache k with
  | some ⟨true, data⟩ => ⟨fun a => if line a = k then data a else s.mem a, Function.update s.cache k (some ⟨false, data⟩)⟩
  | _ => s

/-- Dropping line `k` without writing it back. -/
def drop (s : Cached α β κ) (k : κ) : Cached α β κ := { s with cache := Function.update s.cache k none }

/-- Filling line `k` from memory. -/
def fill (s : Cached α β κ) (k : κ) : Cached α β κ := { s with cache := Function.update s.cache k (some ⟨false, s.mem⟩) }

/-- Nothing has changed in the lines of `keep`. -/
def Elsewhere (s t : Cached α β κ) : Prop := (∀ a, keep (line a) → t.mem a = s.mem a) ∧ ∀ k, keep k → t.cache k = s.cache k

inductive Event (s : Cached α β κ) : Cached α β κ → Prop
  | writeBack (k : κ) : Event s (clean line s k)
  | evict (k : κ) : Event s (drop (clean line s k) k)
  | refill (k : κ) : s.cache k = none → Event s (fill s k)
  | elsewhere (t : Cached α β κ) : Elsewhere line keep s t → Event s t

/-- Any number of events. -/
inductive Noise (s : Cached α β κ) : Cached α β κ → Prop
  | refl : Noise s s
  | tail {t u : Cached α β κ} : Noise s t → Event line keep t u → Noise s u

/-- The operations in order, with noise before, between and after them. -/
inductive Runs : List (Cached α β κ → Cached α β κ) → Cached α β κ → Cached α β κ → Prop
  | nil {s t : Cached α β κ} : Noise line keep s t → Runs [] s t
  | cons {f : Cached α β κ → Cached α β κ} {fs : List (Cached α β κ → Cached α β κ)} {s t u : Cached α β κ} :
      Noise line keep s t → Runs fs (f t) u → Runs (f :: fs) s u

variable {line keep} {s t u : Cached α β κ} {a : α} {v : β} {k : κ} {fs gs : List (Cached α β κ → Cached α β κ)}

/-! ## Noise and runs -/

theorem Noise.trans (h : Noise line keep s t) (h' : Noise line keep t u) : Noise line keep s u := by
  induction h' with
  | refl => exact h
  | tail _ he ih => exact .tail ih he

theorem Runs.after (hn : Noise line keep s t) (h : Runs line keep fs t u) : Runs line keep fs s u := by
  cases h with
  | nil h => exact .nil (hn.trans h)
  | cons h hr => exact .cons (hn.trans h) hr

theorem runs_append : Runs line keep (fs ++ gs) s u ↔ ∃ t, Runs line keep fs s t ∧ Runs line keep gs t u := by
  induction fs generalizing s with
  | nil =>
    constructor
    · intro h
      exact ⟨s, .nil .refl, h⟩
    · rintro ⟨t, h, hr⟩
      cases h with
      | nil h => exact hr.after h
  | cons f fs ih =>
    constructor
    · intro h
      cases h with
      | cons hn hr =>
        obtain ⟨t, h1, h2⟩ := ih.mp hr
        exact ⟨t, .cons hn h1, h2⟩
    · rintro ⟨t, h, hr⟩
      cases h with
      | cons hn h1 => exact .cons hn (ih.mpr ⟨t, h1, hr⟩)

/-- Operations that are noise themselves. -/
theorem Runs.noise (h : Runs line keep fs s t) (hf : ∀ f ∈ fs, ∀ s, Noise line keep s (f s)) : Noise line keep s t := by
  induction h with
  | nil h => exact h
  | @cons f fs s t u hn _ ih =>
    exact (hn.trans (hf f List.mem_cons_self t)).trans (ih fun g hg => hf g (List.mem_cons_of_mem f hg))

/-- The run without any noise. -/
theorem runs_foldl (fs : List (Cached α β κ → Cached α β κ)) (s : Cached α β κ) : Runs line keep fs s (fs.foldl (fun s f => f s) s) := by
  induction fs generalizing s with
  | nil => exact .nil .refl
  | cons f fs ih => exact .cons .refl (ih (f s))

/-- What noise and every operation keep, a run keeps. -/
theorem Runs.keeps {p : Cached α β κ → Prop} (h : Runs line keep fs s t) (hn : ∀ s t, Noise line keep s t → p s → p t)
    (hf : ∀ f ∈ fs, ∀ s, p s → p (f s)) (hp : p s) : p t := by
  induction h with
  | nil h => exact hn _ _ h hp
  | @cons f fs s t u h _ ih =>
    exact ih (fun g hg => hf g (List.mem_cons_of_mem f hg)) (hf f List.mem_cons_self t (hn _ _ h hp))

/-! ## Elsewhere -/

omit [DecidableEq κ] in
theorem Elsewhere.refl (s : Cached α β κ) : Elsewhere line keep s s := ⟨fun _ _ => rfl, fun _ _ => rfl⟩

omit [DecidableEq κ] in
theorem Elsewhere.trans (h : Elsewhere line keep s t) (h' : Elsewhere line keep t u) : Elsewhere line keep s u :=
  ⟨fun a ha => (h'.1 a ha).trans (h.1 a ha), fun k hk => (h'.2 k hk).trans (h.2 k hk)⟩

theorem write_elsewhere [DecidableEq α] (s : Cached α β κ) (v : β) (ha : ¬ keep (line a)) : Elsewhere line keep s (write line s a v) := by
  refine ⟨fun _ _ => rfl, fun k hk => Function.update_of_ne ?_ _ _⟩
  rintro rfl
  exact ha hk

omit [DecidableEq κ] in
theorem writeMem_elsewhere [DecidableEq α] (s : Cached α β κ) (v : β) (ha : ¬ keep (line a)) : Elsewhere line keep s (writeMem s a v) := by
  refine ⟨fun b hb => Function.update_of_ne ?_ _ _, fun _ _ => rfl⟩
  rintro rfl
  exact ha hb

theorem clean_elsewhere (s : Cached α β κ) (hk : ¬ keep k) : Elsewhere line keep s (clean line s k) := by
  unfold clean
  split
  · constructor
    · intro a ha
      refine if_neg ?_
      rintro rfl
      exact hk ha
    · intro k' hk'
      refine Function.update_of_ne ?_ _ _
      rintro rfl
      exact hk hk'
  · exact .refl s

/-! ## One address -/

/-- What the line holds for an address, dirty or not, and what memory holds. -/
abbrev Slot (β : Type*) := Option (Bool × β) × β

/-- The slot of `a`. -/
def slot (line : α → κ) (s : Cached α β κ) (a : α) : Slot β := ((s.cache (line a)).map fun l => (l.dirty, l.data a), s.mem a)

namespace Slot

def read : Slot β → β
  | (some (_, x), _) => x
  | (none, m) => m

def clean : Slot β → Slot β
  | (some (true, x), _) => (some (false, x), x)
  | c => c

def drop : Slot β → Slot β
  | (_, m) => (none, m)

def fill : Slot β → Slot β
  | (_, m) => (some (false, m), m)

/-- A store to another address of the line. -/
def touch (c : Slot β) : Slot β := (some (true, c.read), c.2)

def Coherent (v : β) : Slot β → Prop
  | (some (true, x), _) => x = v
  | (some (false, x), m) => x = v ∧ m = v
  | (none, m) => m = v

def Settled (v : β) : Slot β → Prop
  | (some (_, x), m) => x = v ∧ m = v
  | (none, m) => m = v

def Landed (v : β) : Slot β → Prop
  | (some (true, x), m) => x = v ∧ m = v
  | (_, m) => m = v

def NoDirty (v : β) : Slot β → Prop
  | (some (true, x), _) => x = v
  | _ => True

/-- What noise can do to a slot. -/
def Stable (p : Slot β → Prop) : Prop := ∀ c, p c → p c.clean ∧ p c.clean.drop ∧ (c.1 = none → p c.fill)

theorem coherent_stable (v : β) : Stable (Coherent v) := by
  rintro ⟨_ | ⟨_ | _, x⟩, m⟩ h <;> simp_all [Coherent, clean, drop, fill]

theorem settled_stable (v : β) : Stable (Settled v) := by
  rintro ⟨_ | ⟨_ | _, x⟩, m⟩ h <;> simp_all [Settled, clean, drop, fill]

theorem landed_stable (v : β) : Stable (Landed v) := by
  rintro ⟨_ | ⟨_ | _, x⟩, m⟩ h <;> simp_all [Landed, clean, drop, fill]

theorem noDirty_stable (v : β) : Stable (NoDirty v) := by
  rintro ⟨_ | ⟨_ | _, x⟩, m⟩ h <;> simp_all [NoDirty, clean, drop, fill]

@[simp]
theorem clean_clean (c : Slot β) : c.clean.clean = c.clean := by rcases c with ⟨_ | ⟨_ | _, x⟩, m⟩ <;> rfl

theorem Coherent.clean {v : β} {c : Slot β} (h : Coherent v c) : Settled v c.clean := by
  obtain ⟨_ | ⟨_ | _, x⟩, m⟩ := c <;> simp_all [Coherent, Settled, Slot.clean]

theorem Landed.drop {v : β} {c : Slot β} (h : Landed v c) : Settled v c.drop := by
  obtain ⟨_ | ⟨_ | _, x⟩, m⟩ := c <;> simp_all [Landed, Settled, Slot.drop]

theorem NoDirty.land {v : β} {c : Slot β} (h : NoDirty v c) : Landed v (c.1, v) := by
  obtain ⟨_ | ⟨_ | _, x⟩, m⟩ := c <;> simp_all [NoDirty, Landed]

theorem Coherent.touch {v : β} {c : Slot β} (h : Coherent v c) : Coherent v c.touch := by
  obtain ⟨_ | ⟨_ | _, x⟩, m⟩ := c <;> simp_all [Coherent, Slot.touch, Slot.read]

theorem Settled.touch {v : β} {c : Slot β} (h : Settled v c) : Settled v c.touch := by
  obtain ⟨_ | ⟨_ | _, x⟩, m⟩ := c <;> simp_all [Settled, Slot.touch, Slot.read]

theorem Coherent.read {v : β} {c : Slot β} (h : Coherent v c) : c.read = v := by
  obtain ⟨_ | ⟨_ | _, x⟩, m⟩ := c <;> simp_all [Coherent, Slot.read]

theorem Settled.drop {v : β} {c : Slot β} (h : Settled v c) : Settled v c.drop := by
  obtain ⟨_ | ⟨_, x⟩, m⟩ := c
  · exact h
  · exact h.2

theorem Settled.mem {v : β} {c : Slot β} (h : Settled v c) : c.2 = v := by
  obtain ⟨_ | ⟨d, x⟩, m⟩ := c
  · exact h
  · exact h.2

theorem Settled.read {v : β} {c : Slot β} (h : Settled v c) : c.read = v := by
  obtain ⟨_ | ⟨d, x⟩, m⟩ := c
  · exact h
  · exact h.1

end Slot

omit [DecidableEq κ] in
theorem read_eq (line : α → κ) (s : Cached α β κ) (a : α) : read line s a = (slot line s a).read := by
  unfold read slot
  cases s.cache (line a) <;> rfl

theorem slot_clean (line : α → κ) (s : Cached α β κ) (k : κ) (a : α) :
    slot line (clean line s k) a = if line a = k then (slot line s a).clean else slot line s a := by
  unfold clean
  by_cases hk : line a = k
  · subst hk
    rw [if_pos rfl]
    unfold slot
    split
    · rename_i data hc
      simp [hc, Slot.clean]
    · rename_i hc
      cases h : s.cache (line a) with
      | none => rfl
      | some l =>
        obtain ⟨d, data⟩ := l
        cases d with
        | false => rfl
        | true => exact absurd h (hc data)
  · rw [if_neg hk]
    unfold slot
    split
    · simp [hk]
    · rfl

theorem slot_drop (line : α → κ) (s : Cached α β κ) (k : κ) (a : α) :
    slot line (drop s k) a = if line a = k then (slot line s a).drop else slot line s a := by
  unfold slot drop
  by_cases hk : line a = k
  · subst hk
    simp [Slot.drop]
  · simp [hk]

theorem slot_fill (line : α → κ) (s : Cached α β κ) (k : κ) (a : α) :
    slot line (fill s k) a = if line a = k then (slot line s a).fill else slot line s a := by
  unfold slot fill
  by_cases hk : line a = k
  · subst hk
    simp [Slot.fill]
  · simp [hk]

omit [DecidableEq κ] in
theorem slot_writeMem [DecidableEq α] (line : α → κ) (s : Cached α β κ) (b : α) (v : β) (a : α) :
    slot line (writeMem s b v) a = if a = b then ((slot line s a).1, v) else slot line s a := by
  unfold slot writeMem
  by_cases h : a = b
  · subst h
    simp
  · simp [h]

theorem slot_write_ne [DecidableEq α] (line : α → κ) (s : Cached α β κ) (b : α) (v : β) (h : a ≠ b) :
    slot line (write line s b v) a = if line a = line b then (slot line s a).touch else slot line s a := by
  unfold slot write
  by_cases hk : line a = line b
  · cases hc : s.cache (line b) <;> simp [hk, hc, h, Slot.touch, Slot.read]
  · simp [hk]

/-- A stable property of a kept address survives noise. -/
theorem Noise.slot {p : Slot β → Prop} (h : Noise line keep s t) (hp : Slot.Stable p) (ha : keep (line a))
    (hs : p (slot line s a)) : p (slot line t a) := by
  induction h with
  | refl => exact hs
  | @tail t u _ he ih =>
    obtain ⟨hclean, hevict, hfill⟩ := hp _ ih
    cases he with
    | writeBack k =>
      rw [slot_clean]
      split
      · exact hclean
      · exact ih
    | evict k =>
      rw [slot_drop, slot_clean]
      split
      · exact hevict
      · exact ih
    | refill k hk =>
      rw [slot_fill]
      split
      · rename_i hl
        refine hfill ?_
        rw [Cache.slot, hl, hk]
        rfl
      · exact ih
    | elsewhere u he =>
      have hsame : Cache.slot line u a = Cache.slot line t a := by
        unfold Cache.slot
        rw [he.1 a ha, he.2 _ ha]
      rw [hsame]
      exact ih

/-- Cleaning is noise. -/
theorem slot_clean_stable {p : Slot β → Prop} (hp : Slot.Stable p) (k : κ) (hs : p (slot line s a)) : p (slot line (clean line s k) a) := by
  rw [slot_clean]
  split
  · exact (hp _ hs).1
  · exact hs

/-! ## Ranges -/

def cleanAll (line : α → κ) (ks : List κ) : List (Cached α β κ → Cached α β κ) := ks.map fun k s => clean line s k

def dropAll (ks : List κ) : List (Cached α β κ → Cached α β κ) := ks.map fun k s => drop s k

/-- A copy in memory, from the second address of each pair to the first. -/
def copyAll [DecidableEq α] (ps : List (α × α)) : List (Cached α β κ → Cached α β κ) :=
  ps.map fun p s => writeMem s p.1 (s.mem p.2)

/-- Cleaning a range settles what the CPU reads there. -/
theorem Runs.cleanAll {ks : List κ} (h : Runs line keep (cleanAll line ks) s t) (ha : keep (line a)) (hk : line a ∈ ks)
    (hs : (slot line s a).Coherent v) : (slot line t a).Settled v := by
  induction ks generalizing s with
  | nil => cases hk
  | cons k ks ih =>
    cases h with
    | @cons _ _ _ s₁ _ hn hr =>
      have hco : (slot line s₁ a).Coherent v := hn.slot (Slot.coherent_stable v) ha hs
      by_cases he : line a = k
      · have hset : (slot line (clean line s₁ k) a).Settled v := by
          rw [slot_clean, if_pos he]
          exact hco.clean
        refine hr.keeps (fun _ _ hn' hp => hn'.slot (Slot.settled_stable v) ha hp) (fun f hf s' hp => ?_) hset
        obtain ⟨k', -, rfl⟩ := List.mem_map.mp hf
        exact slot_clean_stable (Slot.settled_stable v) k' hp
      · refine ih hr ((List.mem_cons.mp hk).resolve_left he) ?_
        rw [slot_clean, if_neg he]
        exact hco

/-- Invalidating a range leaves what has landed in memory. -/
theorem Runs.dropAll {ks : List κ} (h : Runs line keep (dropAll ks) s t) (ha : keep (line a)) (hk : line a ∈ ks)
    (hs : (slot line s a).Landed v) : (slot line t a).Settled v := by
  induction ks generalizing s with
  | nil => cases hk
  | cons k ks ih =>
    cases h with
    | @cons _ _ _ s₁ _ hn hr =>
      have hla : (slot line s₁ a).Landed v := hn.slot (Slot.landed_stable v) ha hs
      by_cases he : line a = k
      · have hset : (slot line (drop s₁ k) a).Settled v := by
          rw [slot_drop, if_pos he]
          exact hla.drop
        refine hr.keeps (fun _ _ hn' hp => hn'.slot (Slot.settled_stable v) ha hp) (fun f hf s' hp => ?_) hset
        obtain ⟨k', -, rfl⟩ := List.mem_map.mp hf
        rw [slot_drop]
        split
        · exact hp.drop
        · exact hp
      · refine ih hr ((List.mem_cons.mp hk).resolve_left he) ?_
        rw [slot_drop, if_neg he]
        exact hla

/-- A copy lands, whatever the cache does meanwhile, if its source is settled and no dirty
    line of its destination holds anything else. -/
theorem Runs.copyAll [DecidableEq α] {ps : List (α × α)} (h : Runs line keep (copyAll ps) s t) (hd : (ps.map Prod.fst).Nodup)
    (hsep : ∀ p ∈ ps, ∀ p' ∈ ps, p.1 ≠ p'.2) {p : α × α} (hp : p ∈ ps) (h1 : keep (line p.1)) (h2 : keep (line p.2))
    (hsrc : (slot line s p.2).Settled v) (hdst : (slot line s p.1).NoDirty v) : (slot line t p.1).Landed v := by
  induction ps generalizing s with
  | nil => cases hp
  | cons q ps ih =>
    rw [List.map_cons, List.nodup_cons] at hd
    cases h with
    | @cons _ _ _ s₁ _ hn hr =>
      have hsrc₁ : (slot line s₁ p.2).Settled v := hn.slot (Slot.settled_stable v) h2 hsrc
      have hdst₁ : (slot line s₁ p.1).NoDirty v := hn.slot (Slot.noDirty_stable v) h1 hdst
      by_cases he : p = q
      · subst he
        have hland : (slot line (writeMem s₁ p.1 (s₁.mem p.2)) p.1).Landed v := by
          rw [slot_writeMem, if_pos rfl, show s₁.mem p.2 = v from hsrc₁.mem]
          exact hdst₁.land
        refine hr.keeps (fun _ _ hn' hl => hn'.slot (Slot.landed_stable v) h1 hl) (fun f hf s' hl => ?_) hland
        obtain ⟨q', hq', rfl⟩ := List.mem_map.mp hf
        have hne : p.1 ≠ q'.1 := fun e => hd.1 (e ▸ List.mem_map_of_mem hq')
        rw [slot_writeMem, if_neg hne]
        exact hl
      · have hps : p ∈ ps := (List.mem_cons.mp hp).resolve_left he
        have hne : p.1 ≠ q.1 := fun e => hd.1 (e ▸ List.mem_map_of_mem hps)
        refine ih hr hd.2 (fun r hr r' hr' => hsep r (List.mem_cons_of_mem q hr) r' (List.mem_cons_of_mem q hr')) hps ?_ ?_
        · rw [slot_writeMem, if_neg fun e => hsep q List.mem_cons_self p hp e.symm]
          exact hsrc₁
        · rw [slot_writeMem, if_neg hne]
          exact hdst₁

/-! ## Without noise -/

omit [DecidableEq κ] in
theorem foldl_keeps {p : Cached α β κ → Prop} (s : Cached α β κ) (hf : ∀ f ∈ fs, ∀ s, p s → p (f s)) (hp : p s) : p (fs.foldl (fun s f => f s) s) := by
  induction fs generalizing s with
  | nil => exact hp
  | cons f fs ih => exact ih (f s) (fun g hg => hf g (List.mem_cons_of_mem f hg)) (hf f List.mem_cons_self s hp)

theorem foldl_cleanAll (ks : List κ) (s : Cached α β κ) :
    slot line ((cleanAll line ks).foldl (fun s f => f s) s) a = if line a ∈ ks then (slot line s a).clean else slot line s a := by
  induction ks generalizing s with
  | nil => rfl
  | cons k ks ih =>
    refine (ih (clean line s k)).trans ?_
    rw [slot_clean]
    by_cases hk : line a = k
    · subst hk
      simp
    · simp [hk]

theorem foldl_dropAll {ks : List κ} (hk : line a ∈ ks) (s : Cached α β κ) :
    slot line ((dropAll ks).foldl (fun s f => f s) s) a = (none, s.mem a) := by
  induction ks generalizing s with
  | nil => cases hk
  | cons k ks ih =>
    by_cases he : line a ∈ ks
    · exact ih he (drop s k)
    · have hka : line a = k := (List.mem_cons.mp hk).resolve_right he
      -- the rest drops other lines
      have hfirst : slot line (drop s k) a = (none, s.mem a) := by
        rw [slot_drop, if_pos hka]
        rfl
      refine foldl_keeps (p := fun s' => slot line s' a = (none, s.mem a)) (drop s k) (fun f hf s' hs' => ?_) hfirst
      obtain ⟨k', -, rfl⟩ := List.mem_map.mp hf
      rw [slot_drop, hs']
      split <;> rfl

omit [DecidableEq κ] in
theorem foldl_copyAll [DecidableEq α] {ps : List (α × α)} (hd : (ps.map Prod.fst).Nodup) (hsep : ∀ p ∈ ps, ∀ p' ∈ ps, p.1 ≠ p'.2) {p : α × α}
    (hp : p ∈ ps) (s : Cached α β κ) :
    slot line ((copyAll ps).foldl (fun s f => f s) s) p.1 = ((slot line s p.1).1, s.mem p.2) := by
  induction ps generalizing s with
  | nil => cases hp
  | cons q ps ih =>
    rw [List.map_cons, List.nodup_cons] at hd
    by_cases he : p = q
    · subst he
      have hfirst : slot line (writeMem s p.1 (s.mem p.2)) p.1 = ((slot line s p.1).1, s.mem p.2) := by
        rw [slot_writeMem, if_pos rfl]
      refine foldl_keeps (p := fun s' => slot line s' p.1 = _) (writeMem s p.1 (s.mem p.2)) (fun f hf s' hs' => ?_) hfirst
      obtain ⟨q', hq', rfl⟩ := List.mem_map.mp hf
      have hne : p.1 ≠ q'.1 := fun e => hd.1 (e ▸ List.mem_map_of_mem hq')
      rw [slot_writeMem, if_neg hne, hs']
    · have hps : p ∈ ps := (List.mem_cons.mp hp).resolve_left he
      have hne : p.1 ≠ q.1 := fun e => hd.1 (e ▸ List.mem_map_of_mem hps)
      have hsrc : p.2 ≠ q.1 := fun e => hsep q List.mem_cons_self p hp e.symm
      have hrest := ih hd.2 (fun r hr r' hr' => hsep r (List.mem_cons_of_mem q hr) r' (List.mem_cons_of_mem q hr')) hps
        (writeMem s q.1 (s.mem q.2))
      rw [slot_writeMem, if_neg hne] at hrest
      have hmem : (writeMem s q.1 (s.mem q.2)).mem p.2 = s.mem p.2 := Function.update_of_ne hsrc _ _
      rw [hmem] at hrest
      exact hrest

end Microkernel.Cache

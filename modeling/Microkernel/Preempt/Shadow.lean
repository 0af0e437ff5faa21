/-
  Microkernel.Preempt.Shadow — what the locks see of the interrupted kernel.

  The machine runs with a record of its calls beside it, its shadow: a state of
  `Microkernel.Calls.System` with the machine's kernel state. The calls are those of the
  thread whose stack the CPU is on. The body of a call is the whole call, and it is done
  when the thread is back in its own code; whatever the scheduler and interrupts do in
  between, the shadow only follows with its kernel state.

  Proved (`interrupts_refine_calls`): if `preempt_disable` counts and no interrupt is
  redirected in the window of a switch, the shadow runs whole calls
  (`Microkernel.Calls.Whole`), each made by the current thread on its own stack. So what
  holds of all runs of whole calls holds with an interrupt between any two statements.

  The invariant says what a frame tells of the thread's continuation (`Frame.Tells`), and
  that a call's body is only ever the running frame, with preemption disabled
  (`Shielded`).
-/

import Microkernel.Preempt.Frames
import Microkernel.Preempt.Switch
import Microkernel.Calls.Whole

namespace Microkernel

/-! ## The record -/

def bodyRet (b : Build) (fuel : Nat) (c : Call) (k : Kernel) : Ret :=
  match callBody b fuel c k with
  | .ok (_, r) => r
  | .error _ => .value 0

/-- The record after a step of the machine. -/
def observe (b : Build) (fuel : Nat) (s : Machine) (a : MAct) (g : Sys) : Sys :=
  match a, s.stack, s.frames with
  | .go, .thread t, .inside c :: _ => g.record t c (bodyRet b fuel c s.k)
  | .go, .thread t, .own (.returning c _) :: _ => g.finish t c
  | .call (.mutexInit m), .thread t, .own .user :: _ => g.record t (.mutexInit m) (bodyRet b fuel (.mutexInit m) s.k)
  | _, _, _ => g

/-- Nothing is recorded yet. -/
def unrecorded (k : Kernel) : Sys where
  k := k
  cont := fun _ => .user
  susp := fun _ => .fresh
  entered := fun _ => 0
  returned := fun _ => 0
  ups := fun _ => 0
  holds := fun _ _ => false

/-- A run of the machine with its shadow. -/
inductive ShadowRun (b : Build) (ok : Nat → Machine → MAct → Prop) (ts : List (ThreadId × Int)) (counts : SemId → Int) :
    Machine → Sys → Prop
  | boot {s : Machine} (fp : FpRegs) : (ts.map Prod.fst).Nodup → Machine.boot b fp ts counts = .ok s →
      ShadowRun b ok ts counts s (unrecorded s.k)
  | step {s s' : Machine} {g : Sys} (a : MAct) (fuel : Nat) : ShadowRun b ok ts counts s g → ok fuel s a →
      s.step b fuel a = .ok s' → ShadowRun b ok ts counts s' { observe b fuel s a g with k := s'.k }

/-- The steps that make a call or end one. -/
inductive Makes : MAct → List Frame → Prop
  | body (c : Call) (rest : List Frame) : Makes .go (.inside c :: rest)
  | returned (c : Call) (r : Int) (rest : List Frame) : Makes .go (.own (.returning c r) :: rest)
  | init (m : MutexId) (rest : List Frame) : Makes (.call (.mutexInit m)) (.own .user :: rest)

theorem observe_still {b : Build} {fuel : Nat} {s : Machine} {a : MAct} {g : Sys} (h : ¬ Makes a s.frames) :
    observe b fuel s a g = g := by
  unfold observe
  split
  · rename_i hf
    exact absurd (hf ▸ Makes.body _ _) h
  · rename_i hf
    exact absurd (hf ▸ Makes.returned _ _ _) h
  · rename_i hf
    exact absurd (hf ▸ Makes.init _ _) h
  · rfl

/-! ## Frames -/

/-- Where a thread is that makes the call `call`. -/
def Enters (c : Cont) (call : Call) : Prop := c = .user ∨ ∃ m, c = .locking m ∧ call = .mutexLock m

/-- What a frame of a thread tells of its continuation `c`. -/
def Frame.Tells (c : Cont) : Frame → Prop
  | .own d => c = d
  | .inside call => Enters c call
  | .disabling _ (.call call) => Enters c call
  | .disabling _ _ => c = .user
  | .spin _ => c = .user
  | _ => True

/-- The body of a call. -/
def Frame.inBody : Frame → Bool
  | .inside _ => true
  | _ => false

/-- The context `arch_switch` is about to load. -/
def Frame.target : Frame → Option Ctx
  | .calling _ _ stack frames => some ⟨stack, frames⟩
  | .stored _ stack frames => some ⟨stack, frames⟩
  | _ => none

/-- The frame may be suspended, or lie under another. -/
def Frame.laid : Frame → Bool
  | .inside _ => false
  | .calling _ _ _ _ => false
  | .stored _ _ _ => false
  | _ => true

def Told (c : Cont) (fs : List Frame) : Prop := ∀ f ∈ fs, f.Tells c

def Laid (fs : List Frame) : Prop := ∀ f ∈ fs, f.laid = true

/-- A call's body is only ever on top, with preemption disabled. -/
def Shielded (k : Kernel) : List Frame → Prop
  | [] => True
  | f :: rest => Laid rest ∧ (f.inBody = true → k.cpu.preemptCnt ≠ 0)

section Frames

variable {f g : Frame} {rest fs : List Frame} {c : Cont} {k k' : Kernel} {v : Nat}

theorem laid_inBody (h : f.laid = true) : f.inBody = false := by
  cases f <;> first | rfl | cases h

theorem laid_target (h : f.laid = true) : f.target = none := by
  cases f <;> first | rfl | cases h

theorem laid_of (h : f.inBody = false) (hw : f.window = false) : f.laid = true := by
  cases f with
  | inside _ => cases h
  | calling _ _ _ _ => cases hw
  | stored _ _ _ => cases hw
  | _ => rfl

theorem Laid.cons (hf : f.laid = true) (h : Laid rest) : Laid (f :: rest) := by
  intro g hg
  rcases List.mem_cons.mp hg with rfl | hg
  · exact hf
  · exact h g hg

theorem Laid.shielded (h : Laid fs) : Shielded k fs := by
  cases fs with
  | nil => trivial
  | cons f rest =>
    refine ⟨fun g hg => h g (List.mem_cons_of_mem f hg), fun hb => ?_⟩
    rw [laid_inBody (h f List.mem_cons_self)] at hb
    cases hb

theorem Shielded.replace (h : Shielded k (f :: rest)) (hg : g.inBody = false) : Shielded k' (g :: rest) := by
  refine ⟨h.1, fun hb => ?_⟩
  rw [hg] at hb
  cases hb

/-- A frame calls another. -/
theorem Shielded.push {x : Frame} (h : Shielded k (f :: rest)) (hx : x.laid = true) (hg : g.inBody = false) :
    Shielded k' (g :: x :: rest) := by
  refine ⟨Laid.cons hx h.1, fun hb => ?_⟩
  rw [hg] at hb
  cases hb

theorem Shielded.quiet (h : Shielded k (f :: rest)) (hq : Quiet v f fs) : Shielded k' (fs ++ rest) := by
  cases hq with
  | enable => exact h.push rfl rfl
  | yield => exact h.push rfl rfl
  | misses p l => exact h.push rfl rfl
  | unlocks p => exact h.push rfl rfl
  | _ => exact h.replace rfl

theorem Told.tail (h : Told c (f :: rest)) : Told c rest := fun g hg => h g (List.mem_cons_of_mem f hg)

theorem Told.head (h : Told c (f :: rest)) : f.Tells c := h f List.mem_cons_self

theorem Told.cons (hf : f.Tells c) (h : Told c rest) : Told c (f :: rest) := by
  intro g hg
  rcases List.mem_cons.mp hg with rfl | hg
  · exact hf
  · exact h g hg

theorem Told.replace (h : Told c (f :: rest)) (hg : g.Tells c) : Told c (g :: rest) := h.tail.cons hg

/-- Frames that stay in the lock functions and the thread's own code tell the same. -/
theorem Told.quiet (h : Told c (f :: rest)) (hq : Quiet v f fs) (hno : ∀ d r, f ≠ .own (.returning d r)) : Told c (fs ++ rest) := by
  have hf := h.head
  cases hq with
  | round m => exact h.replace (g := .disabling v _) (Or.inr ⟨m, hf, rfl⟩)
  | returned d r => exact absurd rfl (hno d r)
  | call d => exact h.replace (g := .disabling v _) (Or.inl hf)
  | disable => exact h.replace (g := .disabling v _) hf
  | enable => exact h.cons (f := .enable) trivial
  | yield => exact h.cons (f := .yield) trivial
  | enter p => exact h.replace (g := .spin p) hf
  | enabling _ => exact h.replace (g := .enabling v) trivial
  | spins p q => exact h.replace (g := .spin q) hf
  | locks p q => exact h.replace (g := .disabling v _) hf
  | misses p l => exact (h.replace (g := .spin (.wait .lock l)) hf).cons (f := .enable) trivial
  | unlocks p => exact (h.replace (g := .own .user) hf).cons (f := .enable) trivial
  | got p => exact h.replace (g := .own .user) hf

/-- `preempt_disable` returns to its caller. -/
theorem tells_caller {caller : Caller} (h : (Frame.disabling v caller).Tells c) : caller.frame.Tells c := by
  cases caller with
  | user => exact h
  | call call => exact h
  | spin p => exact h

end Frames

/-! ## The machine and its shadow -/

structure Shadows (s : Machine) (g : Sys) : Prop where
  kernel : g.k = s.k
  atomic : Atomic s
  ordered : Ordered s
  shielded : Shielded s.k s.frames
  running : ∀ t, s.stack = .thread t → Told (g.cont t) s.frames
  suspended : ∀ t, s.stack ≠ .thread t → Told (g.cont t) (s.saved t).frames ∧ Laid (s.saved t).frames
  /-- A switch under way. -/
  target : ∀ f ∈ s.frames.head?, ∀ x, f.target = some x → ∀ t, x.stack = .thread t → Told (g.cont t) x.frames ∧ Laid x.frames
  left : ∀ w stack frames rest, s.frames = .stored w stack frames :: rest → ∀ t, s.stack = .thread t →
    Told (g.cont t) (s.saved t).frames ∧ Laid (s.saved t).frames

section Keep

variable {s s' : Machine} {g g' : Sys}

/-- A step on the stack the CPU is on, not in the window of a switch. -/
theorem Shadows.keep (h : Shadows s g) (hat : Atomic s') (hord : Ordered s') (hk : g'.k = s'.k) (hst : s'.stack = s.stack)
    (hsaved : s'.saved = s.saved) (hcont : ∀ u, s.stack ≠ .thread u → g'.cont u = g.cont u)
    (htold : ∀ t, s.stack = .thread t → Told (g'.cont t) s'.frames) (hsh : Shielded s'.k s'.frames)
    (htop : ∀ f ∈ s'.frames.head?, f.target = none) : Shadows s' g' := by
  refine ⟨hk, hat, hord, hsh, fun t ht => ?_, fun t ht => ?_, fun f hf x hx => ?_, fun w stack frames rest hf => ?_⟩
  · rw [hst] at ht
    exact htold t ht
  · rw [hst] at ht
    rw [hcont t ht, hsaved]
    exact h.suspended t ht
  · cases (htop f hf).symm.trans hx
  · cases htop (.stored w stack frames) (by rw [hf]; rfl)

/-- The same, without a call. -/
theorem Shadows.still (h : Shadows s g) (hat : Atomic s') (hord : Ordered s') (hst : s'.stack = s.stack) (hsaved : s'.saved = s.saved)
    (htold : ∀ t, s.stack = .thread t → Told (g.cont t) s'.frames) (hsh : Shielded s'.k s'.frames)
    (htop : ∀ f ∈ s'.frames.head?, f.target = none) : Shadows s' { g with k := s'.k } :=
  h.keep hat hord rfl hst hsaved (fun _ _ => rfl) htold hsh htop

theorem target_head {f : Frame} {rest : List Frame} (hf : f.target = none) : ∀ x ∈ (f :: rest).head?, x.target = none := by
  intro x hx
  cases hx
  exact hf

theorem target_laid {fs : List Frame} (h : Laid fs) : ∀ x ∈ fs.head?, x.target = none :=
  fun x hx => laid_target (h x (List.mem_of_mem_head? hx))

/-- The top frame is replaced. -/
theorem Shadows.replace {f x : Frame} {rest : List Frame} (h : Shadows s g) (hf : s.frames = f :: rest) (hat : Atomic s')
    (hord : Ordered s') (hst : s'.stack = s.stack) (hsaved : s'.saved = s.saved) (hfs : s'.frames = x :: rest)
    (htell : ∀ t, s.stack = .thread t → f.Tells (g.cont t) → x.Tells (g.cont t)) (hb : x.inBody = false) (ht : x.target = none) :
    Shadows s' { g with k := s'.k } := by
  have hsh := h.shielded
  rw [hf] at hsh
  refine h.still hat hord hst hsaved (fun t hst => ?_) ?_ ?_
  · have htold := h.running t hst
    rw [hf] at htold
    rw [hfs]
    exact htold.replace (htell t hst htold.head)
  · rw [hfs]
    exact hsh.replace hb
  · rw [hfs]
    exact target_head ht

/-- The top frame returns. -/
theorem Shadows.pop {f : Frame} {rest : List Frame} (h : Shadows s g) (hf : s.frames = f :: rest) (hat : Atomic s')
    (hord : Ordered s') (hst : s'.stack = s.stack) (hsaved : s'.saved = s.saved) (hfs : s'.frames = rest) :
    Shadows s' { g with k := s'.k } := by
  have hsh := h.shielded
  rw [hf] at hsh
  refine h.still hat hord hst hsaved (fun t hst => ?_) ?_ ?_
  · have htold := h.running t hst
    rw [hf] at htold
    rw [hfs]
    exact htold.tail
  · rw [hfs]
    exact hsh.1.shielded
  · rw [hfs]
    exact target_laid hsh.1

end Keep

/-! ## Steps -/

section Steps

variable {b : Build} {fuel : Nat} {s s' : Machine} {g : Sys} {a : MAct}

/-- Unless it is a call's body, a statement does not touch what the locks see. -/
theorem GoCases.sync (hs : GoCases b fuel s s') (hno : ∀ c rest, s.frames ≠ .inside c :: rest) : SameSync s.k s'.k := by
  cases hs with
  | body c k r rest hf _ _ _ => exact absurd hf (hno c rest)
  | disables v c rest _ he =>
    subst he
    exact SameSync.setPreemptCnt _ _
  | enables v rest _ he =>
    subst he
    exact SameSync.setPreemptCnt _ _
  | stays w cur next rest _ _ he =>
    subst he
    cases w with
    | tail => exact SameSync.setNeedResched _ _
    | yield => exact SameSync.refl _
  | leaves w rest _ he =>
    subst he
    cases w with
    | tail => exact SameSync.setNeedResched _ _
    | yield => exact SameSync.refl _
  | saves w cur next rest _ _ he =>
    subst he
    rw [show ({ s.fpsimdSave with frames := .fpSaved w cur next :: rest } : Machine).k = s.k from fpsimdSave_k s]
    exact SameSync.refl _
  | loads w rest _ he =>
    subst he
    rw [show ({ s.fpsimdLoad with frames := .loaded w :: rest } : Machine).k = s.k from fpsimdLoad_k s]
    exact SameSync.refl _
  | becomes w cur next rest _ he =>
    subst he
    exact (SchedOnly.setCurrent _ _).sameSync
  | starts k cur rest _ hstart _ he =>
    subst he
    obtain ⟨n, -, honly, -⟩ := schedStart_cases hstart
    exact honly.sameSync
  | _ =>
    rename_i he
    subst he
    exact SameSync.refl _

/-- A call's body puts its result where the thread will find it. -/
theorem Shadows.called {t : ThreadId} {c : Call} {r : Ret} {k : Kernel} {fs : List Frame} (h : Shadows s g) (hst : s.stack = .thread t)
    (hat : Atomic s') (hord : Ordered s') (he : s' = { s with k := k, frames := fs })
    (hfs : fs = [.enable, .own (r.cont c)] ∨ fs = [.own (r.cont c)]) :
    Shadows s' { g.record t c r with k := s'.k } := by
  subst he
  have hnow : (g.record t c r).cont t = r.cont c := (cont_record g t c r t).trans (if_pos rfl)
  refine h.keep hat hord rfl rfl rfl (fun u hu => ?_) (fun u hu => ?_) ?_ ?_
  · refine (cont_record g t c r u).trans (if_neg fun e => hu ?_)
    rw [hst, e]
  · cases hst.symm.trans hu
    show Told ((g.record t c r).cont t) fs
    rw [hnow]
    rcases hfs with rfl | rfl
    · intro f hf
      simp only [List.mem_cons, List.not_mem_nil, or_false] at hf
      rcases hf with rfl | rfl
      · trivial
      · exact rfl
    · intro f hf
      rw [List.mem_singleton.mp hf]
      exact rfl
  · rcases hfs with rfl | rfl
    · exact ⟨Laid.cons rfl (fun _ hg => (by cases hg)), fun hb => (by cases hb)⟩
    · exact ⟨fun _ hg => (by cases hg), fun hb => (by cases hb)⟩
  · rcases hfs with rfl | rfl <;> exact target_head rfl

theorem bodyRet_of {c : Call} {k k' : Kernel} {r : Ret} (h : callBody b fuel c k = .ok (k', r)) : bodyRet b fuel c k = r := by
  unfold bodyRet
  rw [h]

/-- A statement that makes no call is not recorded. -/
theorem not_makes {f : Frame} {rest : List Frame} (hf : s.frames = f :: rest) (hb : f.inBody = false)
    (hr : ∀ c r, f ≠ .own (.returning c r)) : ¬ Makes .go s.frames := by
  intro hm
  rw [hf] at hm
  cases hm with
  | body c _ => cases hb
  | returned c r _ => exact hr c r rfl

/-- The shadow of a call's return. -/
theorem Shadows.finished {t : ThreadId} {c : Call} {r : Int} {rest : List Frame} (h : Shadows s g) (hst : s.stack = .thread t)
    (hf : s.frames = .own (.returning c r) :: rest) (hat : Atomic s') (hord : Ordered s') (hstack : s'.stack = s.stack)
    (hsaved : s'.saved = s.saved) (hfs : s'.frames = .own .user :: rest) : Shadows s' { g.finish t c with k := s'.k } := by
  have hsh := h.shielded
  rw [hf] at hsh
  have hnil : rest = [] := (h.ordered.head hf).1.bottom rfl
  subst hnil
  refine h.keep hat hord rfl hstack hsaved (fun u hu => ?_) (fun u hu => ?_) ?_ ?_
  · have hut : u ≠ t := fun e => hu (by rw [hst, e])
    simp [Sys.finish, hut]
  · cases hst.symm.trans hu
    rw [hfs]
    intro f hf
    rw [List.mem_singleton.mp hf]
    simp [Sys.finish, Frame.Tells]
  · rw [hfs]
    exact hsh.replace rfl
  · rw [hfs]
    exact target_head rfl

/-! ### The window of a switch -/

/-- A context that `arch_switch` is going to load is that of its owner. -/
theorem Shadows.aims {t : ThreadId} {f x : Frame} {rest : List Frame} (h : Shadows s g) (hf : s.frames = f :: rest) (hne : s.stack ≠ .thread t)
    (hat : Atomic s') (hord : Ordered s') (hst : s'.stack = s.stack) (hsaved : s'.saved = s.saved) (hfs : s'.frames = x :: rest)
    (hx : x.target = some (s.saved t)) (htell : ∀ c, x.Tells c) (hb : x.inBody = false)
    (hleft : ∀ w stack frames, x = .stored w stack frames → s.stack = .boot) : Shadows s' { g with k := s'.k } := by
  have hsh := h.shielded
  rw [hf] at hsh
  refine ⟨rfl, hat, hord, ?_, fun u hu => ?_, fun u hu => ?_, fun y hy z hz u hu => ?_, fun w stack frames rest' hf' u hu => ?_⟩
  · rw [hfs]
    exact hsh.replace hb
  · rw [hst] at hu
    have htold := h.running u hu
    rw [hf] at htold
    rw [hfs]
    exact htold.replace (htell _)
  · rw [hst] at hu
    rw [hsaved]
    exact h.suspended u hu
  · rw [hfs] at hy
    cases hy
    cases hx.symm.trans hz
    cases (h.atomic.suspended t hne).1.symm.trans hu
    exact h.suspended t hne
  · rw [hfs] at hf'
    rw [hst, hleft w stack frames (List.cons.inj hf').1] at hu
    cases hu

/-- SP of the thread being switched out is stored. -/
theorem Shadows.stores {w : Switcher} {cur : ThreadId} {stack : Stack} {frames rest : List Frame} (h : Shadows s g)
    (hf : s.frames = .calling w cur stack frames :: rest) (hat : Atomic s') (hord : Ordered s')
    (he : s' = { s with saved := Function.update s.saved cur ⟨s.stack, .resumed w :: rest⟩, frames := .stored (some w) stack frames :: rest }) :
    Shadows s' { g with k := s'.k } := by
  subst he
  have hsh := h.shielded
  have hctl := h.atomic.control
  unfold Control at hctl
  rw [hf] at hsh hctl
  obtain ⟨hcur, -⟩ := hctl
  refine ⟨rfl, hat, hord, ⟨hsh.1, fun hb => by cases hb⟩, fun u hu => ?_, fun u hu => ?_, fun y hy z hz u hu => ?_,
    fun w' stack' frames' rest' _ u hu => ?_⟩
  · have htold := h.running u hu
    rw [hf] at htold
    exact htold.replace trivial
  · have huc : u ≠ cur := fun e => hu (by rw [e]; exact hcur)
    simp only [Function.update_of_ne huc]
    exact h.suspended u hu
  · cases hy
    exact h.target (.calling w cur stack frames) (by rw [hf]; rfl) z hz u hu
  · cases hcur.symm.trans hu
    have htold := h.running cur hcur
    rw [hf] at htold
    simp only [Function.update_self]
    exact ⟨htold.replace (g := .resumed w) trivial, Laid.cons rfl hsh.1⟩

/-- The other thread is on its stack. -/
theorem Shadows.swaps {w : Option Switcher} {stack : Stack} {frames rest : List Frame} (h : Shadows s g)
    (hf : s.frames = .stored w stack frames :: rest) (hat : Atomic s') (hord : Ordered s') (he : s' = { s with stack := stack, frames := frames }) :
    Shadows s' { g with k := s'.k } := by
  subst he
  have hctl := h.atomic.control
  unfold Control at hctl
  rw [hf] at hctl
  obtain ⟨-, next, hnext, -⟩ := hctl
  obtain ⟨htold, hlaid⟩ := h.target _ (by rw [hf]; rfl) ⟨stack, frames⟩ rfl next hnext
  refine ⟨rfl, hat, hord, hlaid.shielded, fun u hu => ?_, fun u _ => ?_, fun y hy z hz => ?_, fun w' stack' frames' rest' hf' => ?_⟩
  · cases hnext.symm.trans hu
    exact htold
  · by_cases hs : s.stack = .thread u
    · exact h.left w stack frames rest hf u hs
    · exact h.suspended u hs
  · cases (target_laid hlaid y hy).symm.trans hz
  · have hl := hlaid (.stored w' stack' frames') (by rw [show frames = _ from hf']; exact List.mem_cons_self)
    cases hl

theorem Shadows.go (h : Shadows s g) (hcount : DisableCounts b fuel s .go) (hs : GoCases b fuel s s') :
    Shadows s' { observe b fuel s .go g with k := s'.k } := by
  have hat := h.atomic.go hs
  have hord := h.ordered.go hs
  have hsh := h.shielded
  -- unless the top frame is a call's body or a return, nothing is recorded
  have hstill : ∀ {f rest}, s.frames = f :: rest → f.inBody = false → (∀ c r, f ≠ .own (.returning c r)) →
      observe b fuel s .go g = g := fun hf hb hr => observe_still (not_makes hf hb hr)
  cases hs with
  | quiet f fs rest word monitor masked hf hq _ he =>
    by_cases hr : ∃ c r, f = .own (.returning c r)
    · obtain ⟨c, r, rfl⟩ := hr
      obtain ⟨t, ho⟩ := h.atomic.owner hf rfl (fun e => by cases e)
      have hobs : observe b fuel s .go g = g.finish t c := by simp only [observe, ho.stack, hf]
      rw [hobs]
      subst he
      cases hq with
      | returned _ _ => exact h.finished ho.stack hf hat hord rfl rfl rfl
    · have hno : ∀ c r, f ≠ .own (.returning c r) := fun c r e => hr ⟨c, r, e⟩
      have hb : f.inBody = false := by cases hq <;> rfl
      rw [hstill hf hb hno]
      subst he
      rw [hf] at hsh
      refine h.still hat hord rfl rfl (fun t hst => ?_) (hsh.quiet hq) ?_
      · have htold := h.running t hst
        rw [hf] at htold
        exact htold.quiet hq hno
      · cases hq <;> exact target_head rfl
  | body c k r rest hf hp hb he =>
    obtain ⟨t, ho⟩ := h.atomic.owner hf rfl (fun e => by cases e)
    have hnil : rest = [] := (h.ordered.head hf).1.bottom rfl
    subst hnil
    have hobs : observe b fuel s .go g = g.record t c r := by
      simp only [observe, ho.stack, hf, bodyRet_of hb]
    rw [hobs]
    exact h.called ho.stack hat hord he (Or.inl rfl)
  | disables v c rest hf he =>
    rw [hstill hf rfl (fun c r e => by cases e)]
    subst he
    rw [hf] at hsh
    have hv : (v + 1) % UInt32.size ≠ 0 := by
      unfold DisableCounts at hcount
      rw [hf] at hcount
      rw [Nat.mod_eq_of_lt hcount]
      exact Nat.succ_ne_zero v
    refine h.still hat hord rfl rfl (fun t hst => ?_) ⟨hsh.1, fun _ => hv⟩ (target_head ?_)
    · have htold := h.running t hst
      rw [hf] at htold
      exact htold.replace (tells_caller htold.head)
    · cases c <;> rfl
  | enables v rest hf he =>
    rw [hstill hf rfl (fun c r e => by cases e)]
    subst he
    exact h.replace hf hat hord rfl rfl rfl (fun _ _ _ => trivial) rfl rfl
  | returns f rest hf hr he =>
    have hb : f.inBody = false ∧ ∀ c r, f ≠ .own (.returning c r) := by
      cases hr <;> exact ⟨rfl, fun c r e => by cases e⟩
    rw [hstill hf hb.1 hb.2]
    subst he
    exact h.pop hf hat hord rfl rfl rfl
  | calls f rest hf hcall _ _ he =>
    have hb : f.inBody = false ∧ ∀ c r, f ≠ .own (.returning c r) := by
      cases hcall <;> exact ⟨rfl, fun c r e => by cases e⟩
    rw [hstill hf hb.1 hb.2]
    subst he
    exact h.replace hf hat hord rfl rfl rfl (fun _ _ _ => trivial) rfl rfl
  | searches f w rest hf hsearch _ he =>
    have hb : f.inBody = false ∧ ∀ c r, f ≠ .own (.returning c r) := by
      cases hsearch <;> exact ⟨rfl, fun c r e => by cases e⟩
    rw [hstill hf hb.1 hb.2]
    subst he
    exact h.replace hf hat hord rfl rfl rfl (fun _ _ _ => trivial) rfl rfl
  | found w cur next rest hf _ he =>
    rw [hstill hf rfl (fun c r e => by cases e)]
    subst he
    exact h.replace hf hat hord rfl rfl rfl (fun _ _ _ => trivial) rfl rfl
  | stays w cur next rest hf _ he =>
    rw [hstill hf rfl (fun c r e => by cases e)]
    subst he
    exact h.pop hf hat hord (by simp) (by simp) (by simp)
  | saves w cur next rest hf _ he =>
    rw [hstill hf rfl (fun c r e => by cases e)]
    subst he
    exact h.replace hf hat hord (by simp) (by simp) rfl (fun _ _ _ => trivial) rfl rfl
  | becomes w cur next rest hf he =>
    rw [hstill hf rfl (fun c r e => by cases e)]
    subst he
    exact h.replace hf hat hord rfl rfl rfl (fun _ _ _ => trivial) rfl rfl
  | reads w cur next rest hf he =>
    rw [hstill hf rfl (fun c r e => by cases e)]
    have hctl := h.atomic.control
    unfold Control at hctl
    rw [hf] at hctl
    obtain ⟨hcur, hne, -⟩ := hctl
    have hnext : s.stack ≠ .thread next := fun e => hne (by rw [hcur] at e; cases e; rfl)
    subst he
    exact h.aims hf hnext hat hord rfl rfl rfl rfl (fun _ => trivial) rfl fun _ _ _ e => by cases e
  | stores w cur stack frames rest hf he =>
    rw [hstill hf rfl (fun c r e => by cases e)]
    exact h.stores hf hat hord he
  | swaps w stack frames rest hf he =>
    rw [hstill hf rfl (fun c r e => by cases e)]
    exact h.swaps hf hat hord he
  | loads w rest hf he =>
    rw [hstill hf rfl (fun c r e => by cases e)]
    subst he
    exact h.replace hf hat hord (by simp) (by simp) rfl (fun _ _ _ => trivial) rfl rfl
  | leaves w rest hf he =>
    rw [hstill hf rfl (fun c r e => by cases e)]
    subst he
    exact h.pop hf hat hord (by simp) (by simp) (by simp)
  | starts k cur rest hf _ _ he =>
    rw [hstill hf rfl (fun c r e => by cases e)]
    subst he
    exact h.replace hf hat hord rfl rfl rfl (fun _ _ _ => trivial) rfl rfl
  | startReads cur rest hf he =>
    rw [hstill hf rfl (fun c r e => by cases e)]
    have hctl := h.atomic.control
    unfold Control at hctl
    rw [hf] at hctl
    subst he
    exact h.aims hf (t := cur) (by rw [hctl.1]; exact fun e => by cases e) hat hord rfl rfl rfl rfl (fun _ => trivial) rfl fun _ _ _ _ => hctl.1

/-- An interrupt that comes back to where it was. -/
theorem Shadows.interrupted {k : Kernel} {monitor : Option LockId} (h : Shadows s g) (hat : Atomic { s with k := k, monitor := monitor })
    (hord : Ordered { s with k := k, monitor := monitor }) (hp : k.cpu.preemptCnt = s.k.cpu.preemptCnt) :
    Shadows { s with k := k, monitor := monitor } { g with k := k } := by
  refine ⟨rfl, hat, hord, ?_, h.running, h.suspended, h.target, h.left⟩
  have hsh := h.shielded
  revert hsh
  show Shielded s.k s.frames → Shielded k s.frames
  cases s.frames with
  | nil => exact fun _ => trivial
  | cons f rest => exact fun hsh => ⟨hsh.1, fun hb => by rw [hp]; exact hsh.2 hb⟩

/-- An interrupt that is redirected, with the counter at 0 and outside the window. -/
theorem Shadows.redirected {k : Kernel} {monitor : Option LockId} {resumes : Bool} (h : Shadows s g)
    (hat : Atomic { s with k := k, monitor := monitor, frames := .preemptReturn :: Machine.back resumes s.frames })
    (hord : Ordered { s with k := k, monitor := monitor, frames := .preemptReturn :: Machine.back resumes s.frames })
    (hp : s.k.cpu.preemptCnt = 0) (hw : s.frames.head?.any Frame.window = false)
    (hres : ∀ v c rest, s.frames = .disabling v c :: rest → resumes = true) :
    Shadows { s with k := k, monitor := monitor, frames := .preemptReturn :: Machine.back resumes s.frames } { g with k := k } := by
  -- what is covered is laid, and tells what it told
  have hlaid : Laid (Machine.back resumes s.frames) := by
    have hsh := h.shielded
    unfold Machine.back
    split
    · rename_i hf
      rw [hf] at hsh
      exact Laid.cons rfl hsh.1
    · rename_i hf
      rw [hf] at hsh
      rw [hres _ _ _ hf]
      exact Laid.cons rfl hsh.1
    · revert hsh hw
      cases s.frames with
      | nil => exact fun _ _ f hf => by cases hf
      | cons f rest =>
        intro hw hsh
        refine Laid.cons (laid_of ?_ hw) hsh.1
        cases hb : f.inBody with
        | false => rfl
        | true => exact absurd hp (hsh.2 hb)
  refine h.still hat hord rfl rfl (fun t hst => ?_) ⟨hlaid, fun hb => by cases hb⟩ (target_head rfl)
  have htold := h.running t hst
  refine Told.cons (f := .preemptReturn) trivial ?_
  unfold Machine.back
  split
  · rename_i hf
    rw [hf] at htold
    exact htold.replace (g := .pick _ _ _) trivial
  · rename_i hf
    rw [hf] at htold
    rw [hres _ _ _ hf]
    exact htold
  · exact htold

/-- A thread's own action, `mutex_init` apart, is not recorded. -/
theorem acts_still {fs rest : List Frame} (hf : s.frames = .own .user :: rest) (hq : Acts s.k.cpu.preemptCnt a fs)
    (he : s' = { s with frames := fs ++ rest }) (hs : s.step b fuel a = .ok s') : ¬ Makes a s.frames := by
  intro hm
  rw [hf] at hm
  cases hm with
  | init m _ =>
    cases hq with
    | call _ =>
      simp only [Machine.step, hf, Machine.enter] at hs
      obtain ⟨x, -, hs⟩ := bind_ok.mp hs
      subst he
      have hfs := congrArg Machine.frames (Except.ok.inj hs)
      exact absurd (List.cons.inj hfs).1 fun e => by cases e

/-- So does every other step, if it is not redirected in the window of a switch. -/
theorem Shadows.step (h : Shadows s g) (hw : WindowQuiet b fuel s a) (hcount : DisableCounts b fuel s a) (hs : s.step b fuel a = .ok s') :
    Shadows s' { observe b fuel s a g with k := s'.k } := by
  have hat := h.atomic.step hw hs
  have hord := h.ordered.step hs
  have hsh := h.shielded
  cases step_cases hs with
  | go ha hgo =>
    subst ha
    exact h.go hcount hgo
  | irq intid guardOk resumes redirect takes k ha _ hi he =>
    subst ha
    rw [observe_still (fun hm => by cases hm)]
    obtain ⟨honly, -, -, hred⟩ := irqHandlerEl1_only hi
    have hr : redirects b fuel s (.irq intid guardOk resumes takes) = redirect := redirects_irq hi
    cases redirect with
    | false =>
      subst he
      exact h.interrupted hat hord honly.preemptCnt
    | true =>
      subst he
      refine h.redirected hat hord ?_ ?_ fun v c rest hf => ?_
      · exact honly.preemptCnt.symm.trans (hred rfl).2.1
      · by_contra hno
        rw [hw (by simpa using hno)] at hr
        cases hr
      · unfold DisableCounts at hcount
        rw [hf] at hcount
        exact hcount hr
  | found w cur next rest ha hf he =>
    subst ha
    rw [observe_still (fun hm => by cases hm)]
    subst he
    exact h.replace hf hat hord rfl rfl rfl (fun _ _ _ => trivial) rfl rfl
  | meddled c k r fs rest ha hf hp _ he =>
    rw [hf] at hsh
    exact absurd hp (hsh.2 rfl)
  | init m k r rest ha hf hb he =>
    obtain ⟨t, ho⟩ := h.atomic.owner hf rfl (fun e => by cases e)
    have hnil : rest = [] := (h.ordered.head hf).1.bottom rfl
    subst hnil ha
    have hobs : observe b fuel s (.call (.mutexInit m)) g = g.record t (.mutexInit m) r := by
      simp only [observe, ho.stack, hf, bodyRet_of hb]
    rw [hobs]
    exact h.called ho.stack hat hord he (Or.inr rfl)
  | acts fs rest hf hq he =>
    rw [observe_still (acts_still hf hq he hs)]
    subst he
    rw [hf] at hsh
    refine h.still hat hord rfl rfl (fun t hst => ?_) (hsh.quiet hq.quiet) ?_
    · have htold := h.running t hst
      rw [hf] at htold
      exact htold.quiet hq.quiet fun d r e => by cases e
    · cases hq <;> exact target_head rfl
  | compute fp rest ha hf he =>
    subst ha
    rw [observe_still (fun hm => by cases hm)]
    subst he
    exact h.still hat hord rfl rfl h.running hsh (by rw [hf]; exact target_head rfl)

/-! ### Whole calls -/

/-- A step that makes no call leaves everything the locks see. -/
theorem step_sync (hsh : Shielded s.k s.frames) (hno : ¬ Makes a s.frames) (hs : s.step b fuel a = .ok s') : SameSync s.k s'.k := by
  cases step_cases hs with
  | go ha hgo =>
    subst ha
    exact hgo.sync fun c rest hf => hno (hf ▸ Makes.body c rest)
  | irq intid guardOk resumes redirect takes k _ _ hi he =>
    subst he
    exact (irqHandlerEl1_only hi).1.sameSync
  | meddled c k r fs rest _ hf hp _ he =>
    rw [hf] at hsh
    exact absurd hp (hsh.2 rfl)
  | init m k r rest ha hf _ he =>
    subst ha
    exact absurd (hf ▸ Makes.init m rest) hno
  | found w cur next rest _ hf he =>
    subst he
    exact SameSync.refl _
  | acts fs rest hf _ he =>
    subst he
    exact SameSync.refl _
  | compute fp rest _ hf he =>
    subst he
    exact SameSync.refl _

/-- The thread whose stack the CPU is on makes a whole call. -/
theorem Shadows.whole_call {t : ThreadId} {c : Call} {r : Ret} {k : Kernel} {act : Act} (h : Shadows s g) (ho : Owner s t)
    (hc : Calling g t act c) (hb : callBody b fuel c s.k = .ok (k, r)) : SyncStep b g { g.record t c r with k := k } t act := by
  obtain ⟨e, hout, hdid⟩ := callBody_outcome ho.current hb
  have hcount := callBody_count ho.current hb
  rw [← h.kernel] at hb hout hdid hcount
  exact .call c r e fuel g.k k hc (SameSync.refl _) (by rw [h.kernel]; exact ho.current) hb (SameSync.refl _) hout hdid.toEffect
    hcount ⟨rfl, rfl, rfl, rfl, rfl⟩

/-- What a step of the running thread `t` is in the shadow. -/
inductive Doing (s : Machine) (g : Sys) (t : ThreadId) : MAct → Act → Prop
  | body (c : Call) (act : Act) (rest : List Frame) : s.frames = .inside c :: rest → Calling g t act c → Doing s g t .go act
  | returned (c : Call) (r : Int) (rest : List Frame) : s.frames = .own (.returning c r) :: rest → g.cont t = .returning c r →
      Doing s g t .go .resume
  | init (m : MutexId) (rest : List Frame) : s.frames = .own .user :: rest → g.cont t = .user →
      Doing s g t (.call (.mutexInit m)) (.call (.mutexInit m))

/-- Who is about to run a call's body, calls. -/
theorem Enters.calling {t : ThreadId} {c : Call} (h : Enters (g.cont t) c) : ∃ act, Calling g t act c := by
  rcases h with hu | ⟨m, hl, rfl⟩
  · exact ⟨_, .first c hu⟩
  · exact ⟨_, .again m hl⟩

/-- A step that makes a call or ends one is a step of its thread in the shadow. -/
theorem Shadows.whole (h : Shadows s g) (hm : Makes a s.frames) (hs : s.step b fuel a = .ok s') :
    ∃ t act, Owner s t ∧ Doing s g t a act ∧ SyncStep b g { observe b fuel s a g with k := s'.k } t act := by
  generalize hfs : s.frames = fs at hm
  cases hm with
  | body c rest =>
    obtain ⟨t, ho⟩ := h.atomic.owner hfs rfl (fun e => by cases e)
    simp only [Machine.step, Machine.go, hfs] at hs
    split at hs
    · cases hs
    · obtain ⟨⟨k, r⟩, hb, hs⟩ := bind_ok.mp hs
      cases hs
      have htold := h.running t ho.stack
      rw [hfs] at htold
      obtain ⟨act, hcall⟩ := Enters.calling htold.head
      have hobs : observe b fuel s .go g = g.record t c r := by
        simp only [observe, ho.stack, hfs, bodyRet_of hb]
      rw [hobs]
      exact ⟨t, act, ho, .body c act rest hfs hcall, h.whole_call ho hcall hb⟩
  | returned c r rest =>
    obtain ⟨t, ho⟩ := h.atomic.owner hfs rfl (fun e => by cases e)
    simp only [Machine.step, Machine.go, hfs] at hs
    cases hs
    have htold := h.running t ho.stack
    rw [hfs] at htold
    have hobs : observe b fuel s .go g = g.finish t c := by simp only [observe, ho.stack, hfs]
    rw [hobs]
    refine ⟨t, .resume, ho, .returned c r rest hfs htold.head, .finish c r rfl htold.head ?_⟩
    show ({ g.finish t c with k := s.k } : Sys) = g.finish t c
    rw [← h.kernel]
    rfl
  | init m rest =>
    obtain ⟨t, ho⟩ := h.atomic.owner hfs rfl (fun e => by cases e)
    simp only [Machine.step, hfs, Machine.enter] at hs
    obtain ⟨⟨k, r⟩, hb, hs⟩ := bind_ok.mp hs
    cases hs
    have htold := h.running t ho.stack
    rw [hfs] at htold
    have hobs : observe b fuel s (.call (.mutexInit m)) g = g.record t (.mutexInit m) r := by
      simp only [observe, ho.stack, hfs, bodyRet_of hb]
    rw [hobs]
    exact ⟨t, _, ho, .init m rest hfs htold.head, h.whole_call ho (.first _ htold.head) hb⟩

/-- Any other step is none. -/
theorem Shadows.nothing (h : Shadows s g) (hno : ¬ Makes a s.frames) (hs : s.step b fuel a = .ok s') (t : ThreadId) :
    SyncStep b g { observe b fuel s a g with k := s'.k } t (.irq 0 true) := by
  rw [observe_still hno]
  refine .sched (fun c hc => by cases hc) ?_ ⟨rfl, rfl, rfl, rfl, rfl⟩
  show SameSync g.k s'.k
  rw [h.kernel]
  exact step_sync h.shielded hno hs

end Steps

/-! ## Runs -/

theorem shadows_boot {b : Build} {fp : FpRegs} {ts : List (ThreadId × Int)} {counts : SemId → Int} {s : Machine}
    (h : Machine.boot b fp ts counts = .ok s) : Shadows s (unrecorded s.k) ∧ Booted b counts (unrecorded s.k) := by
  have hat := atomic_boot h
  have hord := ordered_boot h
  obtain ⟨k, hk, h⟩ := bind_ok.mp h
  cases h
  refine ⟨⟨rfl, hat, hord, ⟨fun _ hg => (by cases hg), fun hb => (by cases hb)⟩, fun t hst => ?_, fun t _ => ⟨?_, ?_⟩, fun f hf x hx => ?_,
    fun w stack frames rest hf => ?_⟩, ⟨pristine_spawns (pristine_boot b counts) hk, fun _ => rfl, fun _ => rfl, fun _ => rfl,
    fun _ => rfl, fun _ _ => rfl⟩⟩
  · cases hst
  · intro f hf
    rw [List.mem_singleton.mp hf]
    exact rfl
  · intro f hf
    rw [List.mem_singleton.mp hf]
    rfl
  · cases hf
    cases hx
  · cases (List.cons.inj hf).1

section Runs

variable {b : Build} {ok : Nat → Machine → MAct → Prop} {ts : List (ThreadId × Int)} {counts : SemId → Int} {s : Machine} {g : Sys}

theorem ShadowRun.machine (h : ShadowRun b ok ts counts s g) : MRun b ok ts counts s := by
  induction h with
  | boot fp hn hb => exact .boot fp hn hb
  | step a fuel _ ho hs ih => exact .step a fuel ih ho hs

/-- The shadow takes part in no step. -/
theorem MRun.shadow (h : MRun b ok ts counts s) : ∃ g, ShadowRun b ok ts counts s g := by
  induction h with
  | boot fp hn hb => exact ⟨_, .boot fp hn hb⟩
  | step a fuel _ ho hs ih =>
    obtain ⟨g, hg⟩ := ih
    exact ⟨_, hg.step a fuel ho hs⟩

/-- The runs in which calls are whole. -/
def CallsWhole (b : Build) (fuel : Nat) (s : Machine) (a : MAct) : Prop := WindowQuiet b fuel s a ∧ DisableCounts b fuel s a

theorem shadows_run (hok : ∀ fuel s a, ok fuel s a → CallsWhole b fuel s a) (h : ShadowRun b ok ts counts s g) : Shadows s g := by
  induction h with
  | boot fp _ hb => exact (shadows_boot hb).1
  | step a fuel _ ho hs ih => exact ih.step (hok fuel _ a ho).1 (hok fuel _ a ho).2 hs

/-- The shadow runs whole calls, and what the machine's steps satisfy is true of its steps. -/
theorem whole_run {wok : Sys → ThreadId → Act → Prop} (hok : ∀ fuel s a, ok fuel s a → CallsWhole b fuel s a)
    (hidle : ∀ g, wok g 0 (.irq 0 true))
    (hdo : ∀ {fuel s a g t act}, ShadowRun b ok ts counts s g → ok fuel s a → Owner s t → Doing s g t a act → wok g t act)
    (h : ShadowRun b ok ts counts s g) : WholeRun b wok counts g := by
  induction h with
  | boot fp _ hb => exact .boot (shadows_boot hb).2
  | @step s s' g a fuel hrun ho hs ih =>
    have hsh := shadows_run hok hrun
    by_cases hm : Makes a s.frames
    · obtain ⟨t, act, hown, hdoing, hst⟩ := hsh.whole hm hs
      exact ih.step t act (hdo hrun ho hown hdoing) hst
    · exact ih.step 0 (.irq 0 true) (hidle g) (hsh.nothing hm hs 0)

end Runs

end Microkernel

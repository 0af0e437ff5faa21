/-
  Microkernel.Preempt.Fp — the FP/SIMD registers of a thread.

  `do_switch` saves the registers of `current_thread` before it changes it, and loads those
  of `current_thread` after `arch_switch`, on the stack of the incoming thread. A thread
  that has never run comes in through `thread_trampoline`, where nothing is loaded.

  A run records what the thread of every stack has last put in the registers, zeros at
  first (`view`).

  Proved, of runs in which no interrupt is redirected to `preempt_return` between the store
  of `current_thread` and the end of `fpsimd_load`, and the registers are zero whenever a
  thread that has never run is switched to: a thread's code sees its own view, and has it
  when it is switched out (`fp_private`). A new thread sees the registers of the thread
  before it (`fp_leaked`).
-/

import Microkernel.Preempt.Frames
import Microkernel.Preempt.Switch

namespace Microkernel

/-! ## Runs -/

abbrev View := ThreadId → FpRegs

/-- What a thread puts in the registers. -/
def viewAfter (s : Machine) (a : MAct) (view : View) : View :=
  match a, s.stack with
  | .compute fp, .thread t => Function.update view t fp
  | _, _ => view

inductive FpRun (b : Build) (ok : Nat → Machine → MAct → Prop) (ts : List (ThreadId × Int)) (counts : SemId → Int) : Machine → View → Prop
  | boot {s : Machine} (fp : FpRegs) : (ts.map Prod.fst).Nodup → Machine.boot b fp ts counts = .ok s →
      FpRun b ok ts counts s (fun _ => FpRegs.zero)
  | step {s s' : Machine} {view : View} (a : MAct) (fuel : Nat) : FpRun b ok ts counts s view → ok fuel s a →
      s.step b fuel a = .ok s' → FpRun b ok ts counts s' (viewAfter s a view)

/-- `fpsimd_load` of the incoming thread is due. -/
def Frame.back : Frame → Bool
  | .resumed _ => true
  | _ => false

/-- The registers and `current_thread` belong together when an interrupt is redirected. -/
def FpQuiet (b : Build) (fuel : Nat) (s : Machine) (a : MAct) : Prop :=
  s.frames.head?.any Frame.back = true → redirects b fuel s a = false

/-- A thread that comes in through `thread_trampoline` finds zeros. -/
def FreshClean (s : Machine) (a : MAct) : Prop :=
  match a, s.frames with
  | .go, .stored _ _ frames :: _ => frames.head?.any Frame.back = false → s.fp = FpRegs.zero
  | _, _ => True

def FpKept (b : Build) (fuel : Nat) (s : Machine) (a : MAct) : Prop := WindowQuiet b fuel s a ∧ FpQuiet b fuel s a ∧ FreshClean s a

/-! ## The invariant -/

/-- The registers have been saved, and are what they were. -/
def Frame.keeps : Frame → Bool
  | .fpSaved _ _ _ => true
  | .resumed _ => true
  | _ => false

/-- Neither in a switch nor in `sched_start`. -/
def Frame.plain : Frame → Bool
  | .fpSaved _ _ _ => false
  | .switching _ _ _ => false
  | .calling _ _ _ _ => false
  | .stored _ _ _ => false
  | .resumed _ => false
  | .start => false
  | .starting _ => false
  | _ => true

/-- `t` is suspended with these frames: in `arch_switch`, or it has never run. -/
def Parked (fpsimd : ThreadId → Option FpRegs) (view : View) (t : ThreadId) (fs : List Frame) : Prop :=
  (∃ w rest, fs = .resumed w :: rest ∧ fpsimd t = some (view t)) ∨ (fs = [.own .user] ∧ view t = FpRegs.zero)

/-- `t` runs. -/
structure Loaded (s : Machine) (view : View) (t : ThreadId) : Prop where
  regs : s.frames.head?.any Frame.back = true ∨ s.fp = view t
  kept : (∃ f ∈ s.frames, f.keeps = true) → s.fpsimd t = some (view t)

/-- By the top frame. -/
def FpControl (s : Machine) (view : View) : Prop :=
  match s.frames with
  | .start :: _ => True
  | .starting _ :: _ => True
  | .switching _ cur _ :: _ => s.fp = view cur ∧ s.fpsimd cur = some (view cur)
  | .calling _ cur stack frames :: _ =>
    s.fp = view cur ∧ s.fpsimd cur = some (view cur) ∧ ∃ next, stack = .thread next ∧ Parked s.fpsimd view next frames
  | .stored _ stack frames :: _ =>
    (∀ t, s.stack = .thread t → s.fp = view t ∧ Parked s.fpsimd view t (s.saved t).frames) ∧
      ∃ next, stack = .thread next ∧ Parked s.fpsimd view next frames
  | _ => ∀ t, s.stack = .thread t → Loaded s view t

structure FpInv (s : Machine) (view : View) : Prop where
  ordered : Ordered s
  atomic : Atomic s
  suspended : ∀ t, s.stack ≠ .thread t → Parked s.fpsimd view t (s.saved t).frames
  control : FpControl s view

section Steps

variable {b : Build} {fuel : Nat} {s s' : Machine} {view : View} {f : Frame} {rest : List Frame} {t : ThreadId}

theorem plain_cases (h : f.plain = true) : f.window = false ∧ f.keeps = false ∧ f ≠ .start := by
  cases f with
  | fpSaved w cur next => cases h
  | switching w cur next => cases h
  | calling w cur stack frames => cases h
  | stored w stack frames => cases h
  | resumed w => cases h
  | start => cases h
  | starting cur => cases h
  | _ => exact ⟨rfl, rfl, fun e => by cases e⟩

theorem back_keeps (h : f.keeps = false) : f.back = false := by
  cases f <;> first | rfl | cases h

/-- Whoever is not in a switch has the registers loaded. -/
theorem FpInv.owner (h : FpInv s view) (hf : s.frames = f :: rest) (hw : f.window = false) (hs : f ≠ .start) :
    ∃ t, Owner s t ∧ Loaded s view t := by
  obtain ⟨t, ho⟩ := h.atomic.owner hf hw hs
  have hc := h.control
  unfold FpControl at hc
  rw [hf] at hc
  refine ⟨t, ho, ?_⟩
  cases f with
  | start => exact absurd rfl hs
  | switching w cur next => cases hw
  | calling w cur stack frames => cases hw
  | stored w stack frames => cases hw
  | starting c => cases hw
  | _ => exact hc t ho.stack

/-- The registers of a thread that is not about to load them. -/
theorem Loaded.fp (h : Loaded s view t) (hf : s.frames = f :: rest) (hb : f.back = false) : s.fp = view t := by
  refine h.regs.resolve_left ?_
  rw [hf]
  simp [hb]

theorem Loaded.control (h : Loaded s view t) (hst : s.stack = .thread t) (hm : Mine t s.frames) : FpControl s view := by
  have hall : ∀ u, s.stack = .thread u → Loaded s view u := by
    intro u hu
    cases hst.symm.trans hu
    exact h
  unfold FpControl
  split
  all_goals first
    | exact hall
    | rename_i hf
      rw [hf] at hm
      exact hm.head.elim

theorem of_settled (h : f.of t) : f.window = false ∧ f ≠ .start := by
  cases f with
  | switching w cur next => exact h.elim
  | calling w cur stack frames => exact h.elim
  | stored w stack frames => exact h.elim
  | start => exact h.elim
  | starting cur => exact h.elim
  | _ => exact ⟨rfl, fun e => by cases e⟩

theorem Atomic.settled (h : Atomic s) (hw : ∀ x ∈ s.frames.head?, x.window = false ∧ x ≠ .start) : ∃ t, Owner s t := by
  cases hf : s.frames with
  | nil =>
    have hc := h.control
    unfold Control at hc
    rwa [hf] at hc
  | cons x rest =>
    obtain ⟨hx, hs⟩ := hw x (by rw [hf]; rfl)
    exact h.owner hf hx hs

/-- A step on the same stack that changes neither the saved registers nor a context. -/
theorem FpInv.hold (h : FpInv s view) (hord : Ordered s') (hat : Atomic s') (ho : Owner s' t) (hl : Loaded s' view t)
    (hst : s'.stack = s.stack) (hsaved : s'.saved = s.saved) (hsimd : s'.fpsimd = s.fpsimd) : FpInv s' view := by
  refine ⟨hord, hat, ?_, hl.control ho.stack ho.mine⟩
  rw [hst, hsimd, hsaved]
  exact h.suspended

/-- The top frame is replaced by plain ones. -/
theorem FpInv.stay (fs : List Frame) (h : FpInv s view) (hord : Ordered s') (hat : Atomic s') (hf : s.frames = f :: rest)
    (hp : f.plain = true) (hst : s'.stack = s.stack) (hsaved : s'.saved = s.saved) (hfp : s'.fp = s.fp) (hsimd : s'.fpsimd = s.fpsimd)
    (hr : s'.frames = fs ++ rest) (hfs : ∀ x ∈ fs, x.plain = true) : FpInv s' view := by
  obtain ⟨hw, hk, hs⟩ := plain_cases hp
  obtain ⟨t, ho, hl⟩ := h.owner hf hw hs
  have hm : Mine t (f :: rest) := hf ▸ ho.mine
  have hl' : Loaded s' view t := by
    refine ⟨Or.inr (hfp.trans (hl.fp hf (back_keeps hk))), fun hex => ?_⟩
    obtain ⟨x, hx, hkx⟩ := hex
    rw [hsimd]
    rw [hr] at hx
    rcases List.mem_append.mp hx with hx | hx
    · rw [(plain_cases (hfs x hx)).2.1] at hkx
      cases hkx
    · refine hl.kept ⟨x, ?_, hkx⟩
      rw [hf]
      exact List.mem_cons_of_mem f hx
  obtain ⟨u, ho'⟩ := hat.settled fun x hx => by
    rw [hr] at hx
    rcases List.mem_append.mp (List.mem_of_mem_head? hx) with hx | hx
    · exact ⟨(plain_cases (hfs x hx)).1, (plain_cases (hfs x hx)).2.2⟩
    · exact of_settled (hm.tail x hx)
  cases ho'.stack.symm.trans (hst.trans ho.stack)
  exact h.hold hord hat ho' hl' hst hsaved hsimd

/-- `fpsimd_save`. -/
theorem FpInv.saves {w : Switcher} {cur next : ThreadId} (h : FpInv s view) (hf : s.frames = .picked w (some cur) (some next) :: rest)
    (hord : Ordered { s.fpsimdSave with frames := .fpSaved w cur next :: rest })
    (hat : Atomic { s.fpsimdSave with frames := .fpSaved w cur next :: rest }) :
    FpInv { s.fpsimdSave with frames := .fpSaved w cur next :: rest } view := by
  obtain ⟨t, ho, hl⟩ := h.owner hf rfl (fun e => by cases e)
  have hfp : s.fp = view t := hl.fp hf rfl
  have hsave : s.fpsimdSave = { s with fpsimd := Function.update s.fpsimd t (some (view t)) } := by
    unfold Machine.fpsimdSave
    rw [ho.current, hfp]
  rw [hsave] at hord hat ⊢
  obtain ⟨u, ho'⟩ := hat.owner rfl rfl (fun e => by cases e)
  cases ho'.stack.symm.trans ho.stack
  refine ⟨hord, hat, fun v hv => ?_, Loaded.control ⟨Or.inr hfp, fun _ => Function.update_self ..⟩ ho.stack ho'.mine⟩
  have hvt : v ≠ t := fun e => hv (by rw [e]; exact ho.stack)
  unfold Parked
  simp only [Function.update_of_ne hvt]
  exact h.suspended v hv

/-- `fpsimd_load`. -/
theorem FpInv.loads {w : Switcher} (h : FpInv s view) (hf : s.frames = .resumed w :: rest)
    (hord : Ordered { s.fpsimdLoad with frames := .loaded w :: rest }) (hat : Atomic { s.fpsimdLoad with frames := .loaded w :: rest }) :
    FpInv { s.fpsimdLoad with frames := .loaded w :: rest } view := by
  obtain ⟨t, ho, hl⟩ := h.owner hf rfl (fun e => by cases e)
  have hkept := hl.kept ⟨.resumed w, by rw [hf]; exact List.mem_cons_self, rfl⟩
  have hload : s.fpsimdLoad = { s with fp := view t } := by
    unfold Machine.fpsimdLoad
    rw [ho.current]
    simp only [hkept, Option.getD_some]
  rw [hload] at hord hat ⊢
  obtain ⟨u, ho'⟩ := hat.owner rfl rfl (fun e => by cases e)
  cases ho'.stack.symm.trans ho.stack
  exact h.hold hord hat ho' ⟨Or.inr rfl, fun _ => hkept⟩ rfl rfl rfl

/-- The stacks are swapped: the incoming thread is about to load its registers, or finds zeros. -/
theorem FpInv.swaps {w : Option Switcher} {stack : Stack} {frames : List Frame} (h : FpInv s view)
    (hf : s.frames = .stored w stack frames :: rest) (hclean : FreshClean s .go)
    (hord : Ordered { s with stack := stack, frames := frames }) (hat : Atomic { s with stack := stack, frames := frames }) :
    FpInv { s with stack := stack, frames := frames } view := by
  have hc := h.control
  unfold FpControl at hc
  rw [hf] at hc
  obtain ⟨hout, next, hstack, hin⟩ := hc
  unfold FreshClean at hclean
  rw [hf] at hclean
  have hsus : ∀ t, stack ≠ .thread t → Parked s.fpsimd view t (s.saved t).frames := by
    intro t _
    by_cases ht : s.stack = .thread t
    · exact (hout t ht).2
    · exact h.suspended t ht
  obtain ⟨u, ho⟩ := hat.settled fun x hx => by
    rcases hin with ⟨w', rest', rfl, -⟩ | ⟨rfl, -⟩
    · cases hx
      exact ⟨rfl, fun e => by cases e⟩
    · cases hx
      exact ⟨rfl, fun e => by cases e⟩
  cases ho.stack.symm.trans hstack
  refine ⟨hord, hat, hsus, Loaded.control ⟨?_, fun hex => ?_⟩ hstack ho.mine⟩
  · rcases hin with ⟨w', rest', rfl, -⟩ | ⟨rfl, hzero⟩
    · exact Or.inl rfl
    · exact Or.inr ((hclean rfl).trans hzero.symm)
  · rcases hin with ⟨w', rest', rfl, hkept⟩ | ⟨rfl, -⟩
    · exact hkept
    · obtain ⟨x, hx, hkx⟩ := hex
      rw [List.mem_singleton.mp hx] at hkx
      cases hkx

theorem quiet_plain {v : Nat} {fs : List Frame} (hq : Quiet v f fs) : f.plain = true ∧ ∀ x ∈ fs, x.plain = true := by
  cases hq <;> simp [Frame.plain]

theorem FpInv.go (h : FpInv s view) (hclean : FreshClean s .go) (hs : GoCases b fuel s s') : FpInv s' view := by
  have hord := h.ordered.go hs
  have hat := h.atomic.go hs
  have hctl := h.control
  unfold FpControl at hctl
  have hsingle : ∀ g : Frame, g.plain = true → ∀ x ∈ [g], x.plain = true := by
    intro g hg x hx
    rw [List.mem_singleton.mp hx]
    exact hg
  cases hs with
  | quiet f fs rest word monitor masked hf hq _ he =>
    subst he
    exact h.stay fs hord hat hf (quiet_plain hq).1 rfl rfl rfl rfl rfl (quiet_plain hq).2
  | body c k r rest hf _ _ he =>
    subst he
    exact h.stay [.enable, .own (r.cont c)] hord hat hf rfl rfl rfl rfl rfl rfl (by simp [Frame.plain])
  | disables v c rest hf he =>
    subst he
    exact h.stay [c.frame] hord hat hf rfl rfl rfl rfl rfl rfl (hsingle _ (by cases c <;> rfl))
  | enables v rest hf he =>
    subst he
    exact h.stay [.enabled] hord hat hf rfl rfl rfl rfl rfl rfl (hsingle _ rfl)
  | returns f rest hf hr he =>
    subst he
    exact h.stay [] hord hat hf (by cases hr <;> rfl) rfl rfl rfl rfl rfl (fun x hx => by cases hx)
  | calls f rest hf hcall _ _ he =>
    subst he
    exact h.stay [.tail] hord hat hf (by cases hcall <;> rfl) rfl rfl rfl rfl rfl (hsingle _ rfl)
  | searches f w rest hf hsearch _ he =>
    subst he
    exact h.stay [.pick w _ false] hord hat hf (by cases hsearch <;> rfl) rfl rfl rfl rfl rfl (hsingle _ rfl)
  | found w cur next rest hf _ he =>
    subst he
    exact h.stay [.picked w cur next] hord hat hf rfl rfl rfl rfl rfl rfl (hsingle _ rfl)
  | stays w cur next rest hf _ he =>
    subst he
    exact h.stay [] hord hat hf rfl (by simp) (by simp) (by cases w <;> rfl) (by cases w <;> rfl) (by simp) (fun x hx => by cases hx)
  | leaves w rest hf he =>
    subst he
    exact h.stay [] hord hat hf rfl (by simp) (by simp) (by cases w <;> rfl) (by cases w <;> rfl) (by simp) (fun x hx => by cases hx)
  | saves w cur next rest hf _ he =>
    subst he
    exact h.saves hf hord hat
  | becomes w cur next rest hf he =>
    subst he
    obtain ⟨t, ho, hl⟩ := h.owner hf rfl (fun e => by cases e)
    have hcur : cur = t := (hf ▸ ho.mine : Mine t (.fpSaved w cur next :: rest)).head.1
    subst hcur
    exact ⟨hord, hat, h.suspended, hl.fp hf rfl, hl.kept ⟨_, by rw [hf]; exact List.mem_cons_self, rfl⟩⟩
  | reads w cur next rest hf he =>
    subst he
    rw [hf] at hctl
    have hcontrol := h.atomic.control
    unfold Control at hcontrol
    rw [hf] at hcontrol
    obtain ⟨hst, hne, -, -⟩ := hcontrol
    have hsus : s.stack ≠ .thread next := by
      rw [hst]
      exact fun e => hne (Stack.thread.inj e).symm
    exact ⟨hord, hat, h.suspended, hctl.1, hctl.2, next, (h.atomic.suspended next hsus).1, h.suspended next hsus⟩
  | stores w cur stack frames rest hf he =>
    subst he
    rw [hf] at hctl
    obtain ⟨hfp, hkept, hnext⟩ := hctl
    have hcontrol := h.atomic.control
    unfold Control at hcontrol
    rw [hf] at hcontrol
    obtain ⟨hst, -, -⟩ := hcontrol
    refine ⟨hord, hat, fun t ht => ?_, fun t ht => ?_, hnext⟩
    · have htc : t ≠ cur := fun e => ht (by rw [e]; exact hst)
      simp only [Function.update_of_ne htc]
      exact h.suspended t ht
    · have htc : cur = t := Stack.thread.inj (hst.symm.trans ht)
      subst htc
      simp only [Function.update_self]
      exact ⟨hfp, Or.inl ⟨w, rest, rfl, hkept⟩⟩
  | swaps w stack frames rest hf he =>
    subst he
    exact h.swaps hf hclean hord hat
  | loads w rest hf he =>
    subst he
    exact h.loads hf hord hat
  | starts k cur rest hf _ _ he =>
    subst he
    exact ⟨hord, hat, h.suspended, trivial⟩
  | startReads cur rest hf he =>
    subst he
    have hcontrol := h.atomic.control
    unfold Control at hcontrol
    rw [hf] at hcontrol
    obtain ⟨hst, -⟩ := hcontrol
    have hsus : s.stack ≠ .thread cur := by
      rw [hst]
      exact fun e => by cases e
    refine ⟨hord, hat, h.suspended, fun t ht => ?_, cur, (h.atomic.suspended cur hsus).1, h.suspended cur hsus⟩
    cases hst.symm.trans ht

/-- Nothing that the registers belong to changes. -/
theorem FpInv.congr (h : FpInv s view) (hord : Ordered s') (hat : Atomic s') (hst : s'.stack = s.stack) (hsaved : s'.saved = s.saved)
    (hfp : s'.fp = s.fp) (hsimd : s'.fpsimd = s.fpsimd) (hf : s'.frames = s.frames) : FpInv s' view := by
  have hctl := h.control
  have hl : ∀ t, Loaded s view t → Loaded s' view t := by
    intro t hl
    refine ⟨?_, ?_⟩
    · rw [hf, hfp]
      exact hl.regs
    · rw [hf, hsimd]
      exact hl.kept
  refine ⟨hord, hat, ?_, ?_⟩
  · rw [hst, hsaved, hsimd]
    exact h.suspended
  · unfold FpControl at hctl ⊢
    rw [hf, hst, hfp, hsimd, hsaved]
    split at hctl
    all_goals first
      | exact hctl
      | exact fun t ht => hl t (hctl t ht)

/-- An interrupt is redirected when the registers are loaded. -/
theorem FpInv.redirected {k : Kernel} {resumes : Bool} (h : FpInv s view) (hw : s.frames.head?.any Frame.window = false)
    (hb : s.frames.head?.any Frame.back = false) (hc : s.k.cpu.currentThread.isSome)
    (hord : Ordered { s with k := k, monitor := none, frames := .preemptReturn :: Machine.back resumes s.frames })
    (hat : Atomic { s with k := k, monitor := none, frames := .preemptReturn :: Machine.back resumes s.frames }) :
    FpInv { s with k := k, monitor := none, frames := .preemptReturn :: Machine.back resumes s.frames } view := by
  obtain ⟨t, ho⟩ := h.atomic.interrupted hw hc
  obtain ⟨u, ho'⟩ := hat.owner rfl rfl (fun e => by cases e)
  cases ho'.stack.symm.trans ho.stack
  have hl : Loaded s view t := by
    have hctl := h.control
    unfold FpControl at hctl
    have hm := ho.mine
    split at hctl
    all_goals first
      | exact hctl t ho.stack
      | rename_i hf
        rw [hf] at hm
        exact hm.head.elim
  have hfp : s.fp = view t := hl.regs.resolve_left (by simp [hb])
  refine h.hold hord hat ho' ⟨Or.inr hfp, fun hex => hl.kept ?_⟩ rfl rfl rfl
  obtain ⟨x, hx, hkx⟩ := hex
  have hx : x ∈ Machine.back resumes s.frames := by
    rcases List.mem_cons.mp hx with rfl | hx
    · cases hkx
    · exact hx
  refine ⟨x, ?_, hkx⟩
  unfold Machine.back at hx
  split at hx
  · rename_i w cur torn rest hf
    rcases List.mem_cons.mp hx with rfl | hx
    · cases hkx
    · rw [hf]
      exact List.mem_cons_of_mem _ hx
  · rename_i v c rest hf
    rcases List.mem_cons.mp hx with rfl | hx
    · cases resumes <;> cases c <;> cases hkx
    · rw [hf]
      exact List.mem_cons_of_mem _ hx
  · exact hx

/-- A thread's own code puts something in the registers. -/
theorem FpInv.compute {fp : FpRegs} (h : FpInv s view) (hf : s.frames = .own .user :: rest) (hord : Ordered { s with fp := fp })
    (hat : Atomic { s with fp := fp }) : FpInv { s with fp := fp } (viewAfter s (.compute fp) view) := by
  obtain ⟨t, ho, hl⟩ := h.owner hf rfl (fun e => by cases e)
  have hview : viewAfter s (.compute fp) view = Function.update view t fp := by
    unfold viewAfter
    rw [ho.stack]
  obtain ⟨u, ho'⟩ := hat.owner hf rfl (fun e => by cases e)
  cases ho'.stack.symm.trans ho.stack
  have hown : Function.update view t fp t = fp := Function.update_self ..
  rw [hview]
  refine ⟨hord, hat, fun v hv => ?_, Loaded.control ⟨Or.inr hown.symm, fun hex => ?_⟩ ho.stack ho'.mine⟩
  · have hvt : v ≠ t := fun e => hv (by rw [e]; exact ho.stack)
    unfold Parked
    rw [Function.update_of_ne hvt]
    exact h.suspended v hv
  · -- a thread's own code is its innermost frame only if it is the only one
    obtain ⟨x, hx, hkx⟩ := hex
    have hx : x ∈ s.frames := hx
    have hbottom : rest = [] := (h.ordered.head hf).1.bottom rfl
    rw [hf, hbottom] at hx
    rw [List.mem_singleton.mp hx] at hkx
    cases hkx

theorem FpInv.step {a : MAct} (h : FpInv s view) (hok : FpKept b fuel s a) (hs : s.step b fuel a = .ok s') :
    FpInv s' (viewAfter s a view) := by
  obtain ⟨hw, hq, hclean⟩ := hok
  have hord := h.ordered.step hs
  have hat := h.atomic.step hw hs
  cases step_cases hs with
  | go ha hgo =>
    subst ha
    exact h.go hclean hgo
  | irq intid guardOk resumes redirect takes k ha _ hi he =>
    subst ha he
    cases redirect with
    | false => exact h.congr hord hat rfl rfl rfl rfl rfl
    | true =>
      obtain ⟨-, hcur, -, hred⟩ := irqHandlerEl1_only hi
      unfold WindowQuiet at hw
      unfold FpQuiet at hq
      rw [redirects_irq hi] at hw hq
      refine h.redirected ?_ ?_ (hcur ▸ (hred rfl).1) hord hat
      · exact Bool.eq_false_iff.mpr fun e => by cases hw e
      · exact Bool.eq_false_iff.mpr fun e => by cases hq e
  | found w cur next rest ha hf he =>
    subst ha he
    exact h.stay [.picked w cur next] hord hat hf rfl rfl rfl rfl rfl rfl (by simp [Frame.plain])
  | meddled c k r fs rest ha hf _ hfs he =>
    subst ha he
    refine h.stay fs hord hat hf rfl rfl rfl rfl rfl rfl ?_
    rcases hfs with rfl | ⟨r, rfl⟩ <;> simp [Frame.plain]
  | init m k r rest ha hf _ he =>
    subst ha he
    exact h.stay [.own _] hord hat hf rfl rfl rfl rfl rfl rfl (by simp [Frame.plain])
  | acts fs rest hf ha he =>
    subst he
    have hview : viewAfter s a view = view := by
      cases ha <;> rfl
    rw [hview]
    exact h.stay fs hord hat hf rfl rfl rfl rfl rfl rfl (quiet_plain ha.quiet).2
  | compute fp rest ha hf he =>
    subst ha he
    exact h.compute hf hord hat

end Steps

theorem fp_boot {b : Build} {fp : FpRegs} {ts : List (ThreadId × Int)} {counts : SemId → Int} {s : Machine}
    (h : Machine.boot b fp ts counts = .ok s) : FpInv s fun _ => FpRegs.zero := by
  have hord := ordered_boot h
  have hat := atomic_boot h
  obtain ⟨k, hk, h⟩ := bind_ok.mp h
  cases h
  exact ⟨hord, hat, fun t _ => Or.inr ⟨rfl, rfl⟩, trivial⟩

theorem fp_run {b : Build} {ts : List (ThreadId × Int)} {counts : SemId → Int} {s : Machine} {view : View}
    (h : FpRun b (FpKept b) ts counts s view) : FpInv s view := by
  induction h with
  | boot fp _ hb => exact fp_boot hb
  | step a fuel _ hok hs ih => exact ih.step hok hs

/-- A step that is no redirected interrupt. -/
theorem FpRun.next {b : Build} {ts : List (ThreadId × Int)} {counts : SemId → Int} {s s' : Machine} {view : View}
    (h : FpRun b (FpKept b) ts counts s view) (a : MAct) (hr : redirects b 3 s a = false) (hc : FreshClean s a)
    (hs : s.step b 3 a = .ok s') : FpRun b (FpKept b) ts counts s' (viewAfter s a view) :=
  h.step a 3 ⟨fun _ => hr, fun _ => hr, hc⟩ hs

end Microkernel

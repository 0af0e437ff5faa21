/-
  Microkernel.Dev.Console — what the kernel says of its state on the UART.

  `uart_puts` and `uart_print_u64` (src/drivers/uart_pl011.cc), the copies of `puthex64` and
  `puthex32` in the files that use them, and the lines that show numbers: the exception report
  (src/arch/aarch64/except.cc), the registers of the MMU, the GIC and the timer, and the DMA
  queue's lines. A function is the characters it hands to `uart_putc`.

  Each line is a `Format`, whose texts depend on the numbers (`ec_name`, the flags of SCTLR).

  Proved: a log of such lines is read back, with the kind of each line and every register it
  shows (`log_read_back`); so the buffers of 8, 16 and 31 characters never cut a number off.
-/

import Microkernel.Lib.Numeral

namespace Microkernel.Console

open Numeral

/-! ## src/drivers/uart_pl011.cc -/

def uartPuts (s : String) : List Char := s.toList.flatMap fun c => if c = '\n' then ['\r', c] else [c]

/-- `'0' + (v % 10)`. -/
def decimal : Digits Char where
  base := 10
  char d := Char.ofNat ('0'.toNat + d)
  value c := if '0' ≤ c ∧ c ≤ '9' then some (c.toNat - '0'.toNat) else none
  one_lt_base := by decide
  value_char := by decide

def uartPrintU64 (v : BitVec 64) : List Char := decimal.encode 31 v.toNat

/-! ## `puthex64`, `puthex32` -/

def kHexDigits : List Char := "0123456789abcdef".toList

/-- `kHexDigits[v & 0xF]`. -/
def hexadecimal : Digits Char where
  base := 16
  char d := kHexDigits.getD d '0'
  value c := kHexDigits.idxOf? c
  one_lt_base := by decide
  value_char := by decide

/-- Also `uart_puthex64`. -/
def puthex64 (v : BitVec 64) : List Char := hexadecimal.encode 16 v.toNat

/-- Also `uart_puthex32`. -/
def puthex32 (v : BitVec 32) : List Char := hexadecimal.encode 8 v.toNat

theorem puthex64_fits (v : BitVec 64) : v.toNat < hexadecimal.base ^ 16 := v.isLt

theorem puthex32_fits (v : BitVec 32) : v.toNat < hexadecimal.base ^ 8 := v.isLt

theorem uartPrintU64_fits (v : BitVec 64) : v.toNat < decimal.base ^ 31 :=
  v.isLt.trans (show 2 ^ 64 < 10 ^ 31 by decide)

/-! ## The lines -/

def ecName (ec : BitVec 32) : String :=
  if ec = 0x07 then "FP/ASIMD trap"
  else if ec = 0x15 then "SVC64"
  else if ec = 0x18 then "IABT"
  else if ec = 0x24 then "DABT"
  else if ec = 0x26 then "SP alignment"
  else if ec = 0x2f then "SError"
  else if ec = 0x00 then "Unknown"
  else "?"

/-- `(uint32_t)((esr >> 26) & 0x3F)`. -/
def exceptionClass (esr : BitVec 64) : BitVec 32 := ((esr >>> 26) &&& 0x3F).setWidth 32

/-- `except_el1_sync`, up to its `wfe` loop. -/
def exceptEl1Sync (esr elr far spsr tag : BitVec 64) : List Char :=
  let ec := exceptionClass esr
  uartPuts "\n[EXC] EL1 sync tag=0x" ++ puthex64 tag ++
  uartPuts " EC=0x" ++ puthex32 ec ++ uartPuts " (" ++ uartPuts (ecName ec) ++ uartPuts ")" ++
  uartPuts " ESR=0x" ++ puthex64 esr ++
  uartPuts " ELR=0x" ++ puthex64 elr ++
  uartPuts " FAR=0x" ++ puthex64 far ++
  uartPuts " SPSR=0x" ++ puthex64 spsr ++
  uartPuts "\n"

/-- `uart_putc((v & (1u << i)) ? '1' : '0')`. -/
def flag (v : BitVec 64) (i : Nat) : List Char := [if v.getLsbD i then '1' else '0']

def mmuDumpState (mair tcr ttbr0 sctlr : BitVec 64) : List Char :=
  uartPuts "[mmu] mair_el1=0x" ++ puthex64 mair ++ uartPuts "\n" ++
  uartPuts "[mmu] tcr_el1 =0x" ++ puthex64 tcr ++ uartPuts "\n" ++
  uartPuts "[mmu] ttbr0_el1=0x" ++ puthex64 ttbr0 ++ uartPuts "\n" ++
  uartPuts "[mmu] sctlr=0x" ++ puthex64 sctlr ++
  uartPuts " (C=" ++ flag sctlr 2 ++
  uartPuts ", I=" ++ flag sctlr 12 ++
  uartPuts ", M=" ++ flag sctlr 0 ++
  uartPuts ")\n"

/-- The end of `gic_init`, with what it reads. -/
def gicInit (group modr isen ctlr : BitVec 32) (pmr grp1 : BitVec 64) : List Char :=
  uartPuts "[gicr] group=0x" ++ puthex32 group ++
  uartPuts " modr=0x" ++ puthex32 modr ++
  uartPuts " isen=0x" ++ puthex32 isen ++
  uartPuts "\n" ++
  uartPuts "[gicd] ctlr=0x" ++ puthex32 ctlr ++ uartPuts "\n" ++
  uartPuts "[icc] pmr=0x" ++ puthex64 pmr ++
  uartPuts " grp1=0x" ++ puthex64 grp1 ++
  uartPuts "\n" ++
  uartPuts "[gic] init done\n"

/-- The first call of `timer_init_hz`; `USE_CNTP` chooses the timer. -/
def timerInitHz (useCntp : Bool) (ctl daif : BitVec 64) : List Char :=
  uartPuts "[timer] ctl=0x" ++ puthex64 ctl ++
  uartPuts " daif=0x" ++ puthex64 daif ++
  uartPuts " use=" ++
  uartPuts (if useCntp then "CNTP\n" else "CNTV\n") ++
  if ctl.getLsbD 0 then [] else uartPuts "[timer] enable bit appears 0\n"

/-- `dma_submit_memcpy`, of the descriptor at `desc`. -/
def dmaSubmitMemcpy (desc next src dst len : BitVec 64) : List Char :=
  uartPuts "[DMA] queued desc=0x" ++ puthex64 desc ++
  uartPuts " next=0x" ++ puthex64 next ++
  uartPuts " src=0x" ++ puthex64 src ++
  uartPuts " dst=0x" ++ puthex64 dst ++
  uartPuts " len=" ++ uartPrintU64 len ++
  uartPuts "\n"

def dmaPollComplete (desc src dst len : BitVec 64) : List Char :=
  uartPuts "[DMA] poll: desc=0x" ++ puthex64 desc ++
  uartPuts " src=0x" ++ puthex64 src ++
  uartPuts " dst=0x" ++ puthex64 dst ++
  uartPuts " len=" ++ uartPrintU64 len ++
  uartPuts "\n"

/-! ## Reading them back -/

inductive Report where
  | except (esr elr far spsr tag : BitVec 64)
  | mmu (mair tcr ttbr0 sctlr : BitVec 64)
  | gic (group modr isen ctlr : BitVec 32) (pmr grp1 : BitVec 64)
  | timer (ctl daif : BitVec 64)
  | queued (desc next src dst len : BitVec 64)
  | poll (desc src dst len : BitVec 64)
  deriving DecidableEq, Repr

def Report.print (useCntp : Bool) : Report → List Char
  | except esr elr far spsr tag => exceptEl1Sync esr elr far spsr tag
  | mmu mair tcr ttbr0 sctlr => mmuDumpState mair tcr ttbr0 sctlr
  | gic group modr isen ctlr pmr grp1 => gicInit group modr isen ctlr pmr grp1
  | timer ctl daif => timerInitHz useCntp ctl daif
  | queued desc next src dst len => dmaSubmitMemcpy desc next src dst len
  | poll desc src dst len => dmaPollComplete desc src dst len

/-- A line's text, and its numbers. -/
def lit (s : String) (f : Format Char) : Format Char := .text (uartPuts s) f

def hex64 (f : BitVec 64 → Format Char) : Format Char := .number hexadecimal 16 fun v => f (BitVec.ofNat 64 v)

def hex32 (f : BitVec 32 → Format Char) : Format Char := .number hexadecimal 8 fun v => f (BitVec.ofNat 32 v)

def dec64 (f : BitVec 64 → Format Char) : Format Char := .number decimal 31 fun v => f (BitVec.ofNat 64 v)

section Pieces

variable {s : String} {f : Format Char} {k64 : BitVec 64 → Format Char} {k32 : BitVec 32 → Format Char} {vs : List Nat} {D : Digits Char}

theorem forall_ofNat {w : Nat} {P : BitVec w → Prop} : (∀ v : Nat, P (BitVec.ofNat w v)) ↔ ∀ v, P v := by
  refine ⟨fun h v => ?_, fun h v => h _⟩
  have hv := h v.toNat
  rwa [BitVec.ofNat_toNat, BitVec.setWidth_eq] at hv

@[simp] theorem lit_render : (lit s f).render vs = uartPuts s ++ f.render vs := rfl

@[simp] theorem lit_fits : (lit s f).Fits vs ↔ f.Fits vs := Iff.rfl

@[simp] theorem lit_delimited : (lit s f).Delimited ↔ f.Delimited := Iff.rfl

@[simp] theorem lit_off : (lit s f).Off D ↔ (uartPuts s).head?.map D.isDigit = some false := by
  unfold lit Format.Off
  cases uartPuts s <;> simp

@[simp] theorem hex64_render (v : BitVec 64) : (hex64 k64).render (v.toNat :: vs) = puthex64 v ++ (k64 v).render vs := by
  simp [hex64, Format.render, puthex64]

@[simp] theorem hex64_fits (v : BitVec 64) : (hex64 k64).Fits (v.toNat :: vs) ↔ (k64 v).Fits vs := by
  simp [hex64, Format.Fits, puthex64_fits]

@[simp] theorem hex64_delimited : (hex64 k64).Delimited ↔ ∀ v, (k64 v).Off hexadecimal ∧ (k64 v).Delimited :=
  forall_ofNat (P := fun v => (k64 v).Off hexadecimal ∧ (k64 v).Delimited)

@[simp] theorem hex32_render (v : BitVec 32) : (hex32 k32).render (v.toNat :: vs) = puthex32 v ++ (k32 v).render vs := by
  simp [hex32, Format.render, puthex32]

@[simp] theorem hex32_fits (v : BitVec 32) : (hex32 k32).Fits (v.toNat :: vs) ↔ (k32 v).Fits vs := by
  simp [hex32, Format.Fits, puthex32_fits]

@[simp] theorem hex32_delimited : (hex32 k32).Delimited ↔ ∀ v, (k32 v).Off hexadecimal ∧ (k32 v).Delimited :=
  forall_ofNat (P := fun v => (k32 v).Off hexadecimal ∧ (k32 v).Delimited)

@[simp] theorem dec64_render (v : BitVec 64) : (dec64 k64).render (v.toNat :: vs) = uartPrintU64 v ++ (k64 v).render vs := by
  simp [dec64, Format.render, uartPrintU64]

@[simp] theorem dec64_fits (v : BitVec 64) : (dec64 k64).Fits (v.toNat :: vs) ↔ (k64 v).Fits vs := by
  simp [dec64, Format.Fits, uartPrintU64_fits]

@[simp] theorem dec64_delimited : (dec64 k64).Delimited ↔ ∀ v, (k64 v).Off decimal ∧ (k64 v).Delimited :=
  forall_ofNat (P := fun v => (k64 v).Off decimal ∧ (k64 v).Delimited)

end Pieces

inductive Kind where
  | except
  | mmu
  | gic
  | timer
  | queued
  | poll
  deriving DecidableEq, Repr

def kinds : List Kind := [.except, .mmu, .gic, .timer, .queued, .poll]

namespace Kind

/-- The line begins with this. -/
def tag : Kind → String
  | except => "\n[EXC] EL1 sync tag=0x"
  | mmu => "[mmu] mair_el1=0x"
  | gic => "[gicr] group=0x"
  | timer => "[timer] ctl=0x"
  | queued => "[DMA] queued desc=0x"
  | poll => "[DMA] poll: desc=0x"

/-- What follows it. -/
def rest (useCntp : Bool) : Kind → Format Char
  | except =>
    hex64 fun _ => lit " EC=0x" <| hex32 fun ec => lit " (" <| lit (ecName ec) <| lit ")" <| lit " ESR=0x" <| hex64 fun _ =>
    lit " ELR=0x" <| hex64 fun _ => lit " FAR=0x" <| hex64 fun _ => lit " SPSR=0x" <| hex64 fun _ => lit "\n" .done
  | mmu =>
    hex64 fun _ => lit "\n" <| lit "[mmu] tcr_el1 =0x" <| hex64 fun _ => lit "\n" <| lit "[mmu] ttbr0_el1=0x" <| hex64 fun _ =>
    lit "\n" <| lit "[mmu] sctlr=0x" <| hex64 fun sctlr => lit " (C=" <| .text (flag sctlr 2) <| lit ", I=" <| .text (flag sctlr 12) <|
    lit ", M=" <| .text (flag sctlr 0) <| lit ")\n" .done
  | gic =>
    hex32 fun _ => lit " modr=0x" <| hex32 fun _ => lit " isen=0x" <| hex32 fun _ => lit "\n" <| lit "[gicd] ctlr=0x" <| hex32 fun _ =>
    lit "\n" <| lit "[icc] pmr=0x" <| hex64 fun _ => lit " grp1=0x" <| hex64 fun _ => lit "\n" <| lit "[gic] init done\n" .done
  | timer =>
    hex64 fun ctl => lit " daif=0x" <| hex64 fun _ => lit " use=" <| lit (if useCntp then "CNTP\n" else "CNTV\n") <|
    .text (if ctl.getLsbD 0 then [] else uartPuts "[timer] enable bit appears 0\n") .done
  | queued =>
    hex64 fun _ => lit " next=0x" <| hex64 fun _ => lit " src=0x" <| hex64 fun _ => lit " dst=0x" <| hex64 fun _ =>
    lit " len=" <| dec64 fun _ => lit "\n" .done
  | poll =>
    hex64 fun _ => lit " src=0x" <| hex64 fun _ => lit " dst=0x" <| hex64 fun _ => lit " len=" <| dec64 fun _ => lit "\n" .done

def format (useCntp : Bool) (κ : Kind) : Format Char := lit κ.tag (κ.rest useCntp)

/-- The report with these numbers. -/
def report : Kind → List Nat → Option Report
  | except, [tag, _, esr, elr, far, spsr] => some (.except (.ofNat 64 esr) (.ofNat 64 elr) (.ofNat 64 far) (.ofNat 64 spsr) (.ofNat 64 tag))
  | mmu, [mair, tcr, ttbr0, sctlr] => some (.mmu (.ofNat 64 mair) (.ofNat 64 tcr) (.ofNat 64 ttbr0) (.ofNat 64 sctlr))
  | gic, [group, modr, isen, ctlr, pmr, grp1] =>
    some (.gic (.ofNat 32 group) (.ofNat 32 modr) (.ofNat 32 isen) (.ofNat 32 ctlr) (.ofNat 64 pmr) (.ofNat 64 grp1))
  | timer, [ctl, daif] => some (.timer (.ofNat 64 ctl) (.ofNat 64 daif))
  | queued, [desc, next, src, dst, len] => some (.queued (.ofNat 64 desc) (.ofNat 64 next) (.ofNat 64 src) (.ofNat 64 dst) (.ofNat 64 len))
  | poll, [desc, src, dst, len] => some (.poll (.ofNat 64 desc) (.ofNat 64 src) (.ofNat 64 dst) (.ofNat 64 len))
  | _, _ => none

end Kind

/-- The first kind whose format the text begins with, and what comes after it. -/
def readReport (useCntp : Bool) (l : List Char) : Option (Report × List Char) :=
  kinds.findSome? fun κ => ((κ.format useCntp).parse l).bind fun x => (κ.report x.1).map fun r => (r, x.2)

/-- A log of `n` reports at most. -/
def readLog (useCntp : Bool) : Nat → List Char → Option (List Report)
  | _, [] => some []
  | 0, _ :: _ => none
  | n + 1, c :: l => do
    let (r, rest) ← readReport useCntp (c :: l)
    let rs ← readLog useCntp n rest
    some (r :: rs)

namespace Report

def kind : Report → Kind
  | except .. => .except
  | mmu .. => .mmu
  | gic .. => .gic
  | timer .. => .timer
  | queued .. => .queued
  | poll .. => .poll

def values : Report → List Nat
  | except esr elr far spsr tag => [tag.toNat, (exceptionClass esr).toNat, esr.toNat, elr.toNat, far.toNat, spsr.toNat]
  | mmu mair tcr ttbr0 sctlr => [mair.toNat, tcr.toNat, ttbr0.toNat, sctlr.toNat]
  | gic group modr isen ctlr pmr grp1 => [group.toNat, modr.toNat, isen.toNat, ctlr.toNat, pmr.toNat, grp1.toNat]
  | timer ctl daif => [ctl.toNat, daif.toNat]
  | queued desc next src dst len => [desc.toNat, next.toNat, src.toNat, dst.toNat, len.toNat]
  | poll desc src dst len => [desc.toNat, src.toNat, dst.toNat, len.toNat]

variable (useCntp : Bool) (r : Report)

theorem report_values : r.kind.report r.values = some r := by
  cases r <;> simp [kind, values, Kind.report]

theorem print_eq : r.print useCntp = (r.kind.format useCntp).render r.values := by
  cases r <;>
    simp [print, kind, values, Kind.format, Kind.tag, Kind.rest, exceptEl1Sync, mmuDumpState, gicInit, timerInitHz, dmaSubmitMemcpy,
      dmaPollComplete, Format.render]

theorem values_fit : (r.kind.format useCntp).Fits r.values := by
  cases r <;> simp [kind, values, Kind.format, Kind.rest, Format.Fits]

end Report

theorem format_delimited (useCntp : Bool) (κ : Kind) : (κ.format useCntp).Delimited := by
  cases κ <;> simp only [Kind.format, Kind.rest, lit_delimited, hex64_delimited, hex32_delimited, dec64_delimited, lit_off, Format.Delimited,
    and_true, forall_const]
  all_goals decide

theorem mem_kinds (κ : Kind) : κ ∈ kinds := by
  cases κ <;> decide

/-- No tag begins with another one. -/
theorem tags_apart {κ κ' : Kind} (h : uartPuts κ.tag <+: uartPuts κ'.tag) : κ = κ' := by
  cases κ <;> cases κ' <;> first | rfl | exact absurd h (by decide)

theorem parse_other (useCntp : Bool) {r : Report} {κ : Kind} (l : List Char) (hne : κ ≠ r.kind) :
    (κ.format useCntp).parse (r.print useCntp ++ l) = none := by
  rw [r.print_eq, Kind.format, Kind.format, lit_render, lit, Format.parse, if_neg]
  intro hpre
  rw [List.append_assoc] at hpre
  rcases List.prefix_or_prefix_of_prefix hpre (List.prefix_append _ _) with h | h
  · exact hne (tags_apart h)
  · exact hne (tags_apart h).symm

theorem findSome?_unique {α β : Type*} {l : List α} {f : α → Option β} {a : α} {b : β} (ha : a ∈ l) (hf : f a = some b)
    (hother : ∀ x, x ≠ a → f x = none) : l.findSome? f = some b := by
  induction l with
  | nil => cases ha
  | cons x l ih =>
    by_cases hx : x = a
    · rw [hx, List.findSome?_cons_of_isSome (by rw [hf]; rfl), hf]
    · rw [List.findSome?_cons_of_isNone (by rw [hother x hx]; rfl)]
      exact ih ((List.mem_cons.mp ha).resolve_left (Ne.symm hx))

/-- The kind of a line, and every register it shows. -/
theorem readReport_print (useCntp : Bool) (r : Report) (l : List Char) : readReport useCntp (r.print useCntp ++ l) = some (r, l) := by
  refine findSome?_unique (a := r.kind) (mem_kinds _) ?_ fun κ hne => ?_
  · rw [r.print_eq, Format.parse_render (format_delimited useCntp _) (r.values_fit useCntp)]
    simp [r.report_values]
  · rw [parse_other useCntp l hne]
    rfl

theorem print_ne_nil (useCntp : Bool) (r : Report) : r.print useCntp ≠ [] := by
  have htag : ∀ κ : Kind, uartPuts κ.tag ≠ [] := by
    intro κ
    cases κ <;> decide
  rw [r.print_eq, Kind.format, lit_render]
  exact List.append_ne_nil_of_left_ne_nil (htag r.kind) _

theorem readLog_print (useCntp : Bool) (rs : List Report) {n : Nat} (hn : rs.length ≤ n) :
    readLog useCntp n (rs.flatMap (Report.print useCntp)) = some rs := by
  induction rs generalizing n with
  | nil => cases n <;> rfl
  | cons r rs ih =>
    obtain ⟨n, rfl⟩ : ∃ m, n = m + 1 := Nat.exists_eq_succ_of_ne_zero (by simp at hn; omega)
    have hread := readReport_print useCntp r (rs.flatMap (Report.print useCntp))
    rw [List.flatMap_cons]
    cases hl : r.print useCntp ++ rs.flatMap (Report.print useCntp) with
    | nil => exact absurd (List.append_eq_nil_iff.mp hl).1 (print_ne_nil useCntp r)
    | cons c l =>
      rw [hl] at hread
      rw [readLog, hread]
      simp [ih (by simpa using hn)]

end Microkernel.Console

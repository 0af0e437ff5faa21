/-
  Microkernel.Lib.Numeral — numbers in text: digits through a buffer of fixed size, and lines
  made of texts and numbers.

  The digits of a number are put into a buffer from the lowest on, until the number is 0 or
  the buffer full, and are written from the highest on. A line is a `Format`; what follows a
  number may depend on the number.

  Proved: a number that fits in the buffer is read back from what is written (`decode_encode`);
  where every number of a line ends at a character that is no digit, the line is read back,
  whatever comes after it (`parse_render`).
-/

import Mathlib

namespace Microkernel.Numeral

/-- The digits of a base; a character is at most one digit. -/
structure Digits (γ : Type*) where
  base : Nat
  char : Nat → γ
  value : γ → Option Nat
  one_lt_base : 1 < base
  value_char : ∀ d < base, value (char d) = some d

/-- `while (v && i < cap) { buf[i++] = v % b; v /= b; }`. -/
def fill (b : Nat) : Nat → Nat → List Nat
  | 0, _ => []
  | n + 1, v => if v = 0 then [] else v % b :: fill b n (v / b)

theorem fill_eq_digits {b cap v : Nat} (hb : 1 < b) (hv : v < b ^ cap) : fill b cap v = Nat.digits b v := by
  induction cap generalizing v with
  | zero =>
    rw [pow_zero, Nat.lt_one_iff] at hv
    rw [hv, Nat.digits_zero, fill]
  | succ n ih =>
    rw [fill]
    split
    · rename_i h0
      rw [h0, Nat.digits_zero]
    · rename_i h0
      have hrest : v / b < b ^ n := Nat.div_lt_of_lt_mul (by rwa [← Nat.pow_succ'])
      rw [ih hrest, Nat.digits_eq_cons_digits_div hb h0]

namespace Digits

variable {γ : Type*} (D : Digits γ)

/-- The buffer from its end, and one digit for 0. -/
def encode (cap v : Nat) : List γ := if v = 0 then [D.char 0] else ((fill D.base cap v).map D.char).reverse

/-- The number that is read from its highest digit on. -/
def decode (l : List γ) : Option Nat := l.foldlM (fun v c => (D.value c).map fun d => v * D.base + d) 0

def isDigit (c : γ) : Bool := (D.value c).isSome

variable {D} {cap v : Nat}

theorem encode_eq (hv : v < D.base ^ cap) (h0 : v ≠ 0) : D.encode cap v = ((Nat.digits D.base v).map D.char).reverse := by
  rw [encode, if_neg h0, fill_eq_digits D.one_lt_base hv]

theorem decode_append (l₁ l₂ : List γ) :
    D.decode (l₁ ++ l₂) = (D.decode l₁).bind fun v => l₂.foldlM (fun v c => (D.value c).map fun d => v * D.base + d) v := by
  simp [decode, List.foldlM_append]

theorem decode_digits {l : List Nat} (hl : ∀ d ∈ l, d < D.base) : D.decode (l.map D.char).reverse = some (Nat.ofDigits D.base l) := by
  induction l with
  | nil => rfl
  | cons d l ih =>
    rw [List.forall_mem_cons] at hl
    rw [List.map_cons, List.reverse_cons, decode_append, ih hl.2]
    simp [D.value_char d hl.1, Nat.ofDigits_cons]
    ring

theorem decode_encode (hv : v < D.base ^ cap) : D.decode (D.encode cap v) = some v := by
  by_cases h0 : v = 0
  · have hpos := D.one_lt_base
    simp [encode, decode, h0, D.value_char 0 (by omega)]
  · rw [encode_eq hv h0, decode_digits fun d hd => Nat.digits_lt_base D.one_lt_base hd, Nat.ofDigits_digits]

theorem encode_isDigit {c : γ} (hv : v < D.base ^ cap) (hc : c ∈ D.encode cap v) : D.isDigit c = true := by
  have hpos := D.one_lt_base
  by_cases h0 : v = 0
  · rw [encode, if_pos h0, List.mem_singleton] at hc
    rw [hc, isDigit, D.value_char 0 (by omega), Option.isSome_some]
  · rw [encode_eq hv h0, List.mem_reverse] at hc
    obtain ⟨d, hd, rfl⟩ := List.mem_map.mp hc
    rw [isDigit, D.value_char d (Nat.digits_lt_base hpos hd), Option.isSome_some]

end Digits

/-! ## Lines -/

inductive Format (γ : Type*) where
  | done
  | text (s : List γ) (rest : Format γ)
  /-- A number, through a buffer of `cap` digits. -/
  | number (D : Digits γ) (cap : Nat) (rest : Nat → Format γ)

namespace Format

variable {γ : Type*}

def render : Format γ → List Nat → List γ
  | done, _ => []
  | text s f, vs => s ++ f.render vs
  | number D cap f, v :: vs => D.encode cap v ++ (f v).render vs
  | number .., [] => []

/-- The numbers are as many as the line has, and fit in their buffers. -/
def Fits : Format γ → List Nat → Prop
  | done, vs => vs = []
  | text _ f, vs => f.Fits vs
  | number D cap f, v :: vs => v < D.base ^ cap ∧ (f v).Fits vs
  | number .., [] => False

/-- The numbers, and what comes after the line. -/
def parse [DecidableEq γ] : Format γ → List γ → Option (List Nat × List γ)
  | done, l => some ([], l)
  | text s f, l => if s <+: l then f.parse (l.drop s.length) else none
  | number D _ f, l =>
    (D.decode (l.takeWhile D.isDigit)).bind fun v => ((f v).parse (l.dropWhile D.isDigit)).map fun x => (v :: x.1, x.2)

/-- What is written begins with no digit. -/
def Off (D : Digits γ) : Format γ → Prop
  | text (c :: _) _ => D.isDigit c = false
  | _ => False

/-- Every number ends where its digits end. -/
def Delimited : Format γ → Prop
  | done => True
  | text _ f => f.Delimited
  | number D _ f => ∀ v, (f v).Off D ∧ (f v).Delimited

theorem Off.head {D : Digits γ} {f : Format γ} (h : f.Off D) (vs : List Nat) (l : List γ) :
    ∀ c ∈ (f.render vs ++ l).head?, D.isDigit c = false := by
  cases f with
  | done => exact absurd h id
  | text s f =>
    cases s with
    | nil => exact absurd h id
    | cons c s =>
      intro x hx
      cases hx
      exact h
  | number D' cap f => exact absurd h id

theorem takeWhile_dropWhile_append {p : γ → Bool} {l₁ l₂ : List γ} (h₁ : ∀ c ∈ l₁, p c = true)
    (h₂ : ∀ c ∈ l₂.head?, p c = false) :
    (l₁ ++ l₂).takeWhile p = l₁ ∧ (l₁ ++ l₂).dropWhile p = l₂ := by
  rw [List.takeWhile_append_of_pos h₁, List.dropWhile_append_of_pos h₁]
  cases l₂ with
  | nil => simp
  | cons c l =>
    have hc := h₂ c rfl
    simp [hc]

theorem parse_render [DecidableEq γ] {f : Format γ} {vs : List Nat} {l : List γ} (hd : f.Delimited) (hf : f.Fits vs) :
    f.parse (f.render vs ++ l) = some (vs, l) := by
  induction f generalizing vs with
  | done =>
    cases (show vs = [] from hf)
    rfl
  | text s f ih =>
    rw [render, parse, List.append_assoc, if_pos (List.prefix_append s _), List.drop_left]
    exact ih hd hf
  | number D cap f ih =>
    cases vs with
    | nil => exact absurd hf id
    | cons v vs =>
      obtain ⟨hv, hrest⟩ := hf
      obtain ⟨hoff, hdel⟩ := hd v
      obtain ⟨htake, hdrop⟩ := takeWhile_dropWhile_append (fun c hc => D.encode_isDigit hv hc) (hoff.head vs l)
      rw [render, parse, List.append_assoc, htake, hdrop, D.decode_encode hv]
      simp [ih v hdel hrest]

end Format

end Microkernel.Numeral

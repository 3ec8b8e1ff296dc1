import BowerBird.Firmware.Printf
import Mathlib.Data.List.TakeWhile

/-!
# Decimal numerals

What `%ld` prints and what `strtoul` reads. A number printed by the one is read
back by the other, up to the limit of the word.
-/

namespace Firmware

open CString Printf
set_option autoImplicit false

theorem decimal_natCast (n : Nat) :
    decimal n = (Nat.toDigits 10 n).map fun c => BitVec.ofNat 8 c.toNat := by
  have hpos : ¬ ((n : Int) < 0) := by omega
  rw [decimal, if_neg hpos, Int.natAbs_natCast]

theorem decimal_of_neg {n : Int} (h : n < 0) : decimal n = 0x2d#8 :: decimal n.natAbs := by
  rw [decimal_natCast, decimal, if_pos h]
  rfl

theorem decimal_ne_nil (n : Nat) : decimal n ≠ [] := by
  rw [decimal_natCast]
  simp

theorem decimal_length_le {n : Nat} (h : n < 0x100000000) : (decimal n).length ≤ 10 := by
  rw [decimal_natCast, List.length_map]
  apply (Nat.length_toDigits_le_iff (by decide) (by decide)).mpr
  omega

/-- A decimal digit as a byte. -/
theorem toNat_digit {c : Char} (h : c.isDigit = true) :
    (BitVec.ofNat 8 c.toNat).toNat = c.toNat ∧ 0x30 ≤ c.toNat ∧ c.toNat ≤ 0x39 := by
  simp only [Char.isDigit, Bool.and_eq_true, decide_eq_true_eq] at h
  have hlow : 0x30 ≤ c.toNat := h.1
  have hhigh : c.toNat ≤ 0x39 := h.2
  rw [BitVec.toNat_ofNat]
  omega

theorem isDigit_iff {b : Byte} : isDigit b = true ↔ 0x30 ≤ b.toNat ∧ b.toNat ≤ 0x39 := by
  simp only [isDigit, Bool.decide_and, Bool.and_eq_true, decide_eq_true_eq, BitVec.le_def]
  rfl

theorem isDigit_of_mem_decimal {n : Nat} {b : Byte} (h : b ∈ decimal n) : isDigit b = true := by
  rw [decimal_natCast] at h
  obtain ⟨c, hc, rfl⟩ := List.mem_map.mp h
  obtain ⟨hb, hrange⟩ := toNat_digit (Nat.isDigit_of_mem_toDigits (by decide) (by decide) hc)
  rwa [isDigit_iff, hb]

theorem foldl_digits {cs : List Char} (h : ∀ c ∈ cs, c.isDigit = true) (v : Nat) :
    (cs.map fun c => BitVec.ofNat 8 c.toNat).foldl (fun v d => 10 * v + (d.toNat - 0x30)) v =
      Nat.ofDigitChars 10 cs v := by
  induction cs generalizing v with
  | nil => rfl
  | cons c cs ih =>
    obtain ⟨hc, -⟩ := toNat_digit (h c List.mem_cons_self)
    rw [Nat.ofDigitChars_cons, ← ih fun d hd => h d (List.mem_cons_of_mem c hd)]
    simp only [List.map_cons, List.foldl_cons, hc]
    rfl

theorem digitsValue_decimal (n : Nat) : digitsValue (decimal n) = n := by
  rw [decimal_natCast, digitsValue, foldl_digits, Nat.ofDigitChars_ten_toDigits]
  exact fun c hc => Nat.isDigit_of_mem_toDigits (by decide) (by decide) hc

/-- Decimal digits that stand for `n`. -/
structure Numeral (ds : List Byte) (n : Nat) : Prop where
  nonempty : ds ≠ []
  digits : ∀ b ∈ ds, isDigit b = true
  value : digitsValue ds = n

theorem numeral_zeros (zeros n : Nat) :
    Numeral (List.replicate zeros 0x30#8 ++ decimal n) n where
  nonempty := by simp [decimal_ne_nil]
  digits := by
    intro b hb
    rcases List.mem_append.mp hb with hb | hb
    · rw [List.eq_of_mem_replicate hb]
      rfl
    · exact isDigit_of_mem_decimal hb
  value := by
    have hzero : digitsValue (List.replicate zeros 0x30#8) = 0 := by
      induction zeros with
      | zero => rfl
      | succ k ih => exact ih
    have hsplit : ∀ ds es, digitsValue (ds ++ es) =
        es.foldl (fun v d => 10 * v + (d.toNat - 0x30)) (digitsValue ds) :=
      fun ds es => List.foldl_append ..
    rw [hsplit, hzero]
    exact digitsValue_decimal n

/-- The sign and the number that a text starts with, after white space. -/
def leadingNumber (s : List Byte) : Bool × Nat :=
  let (minus, body) := signOf (s.dropWhile isSpace)
  (minus, digitsValue (body.takeWhile isDigit))

/-- A signed number as a word: a minus wraps round, what does not fit saturates. -/
def wordOf (minus : Bool) (n : Nat) : BitVec 32 :=
  if n ≤ ulongMax then (if minus then - BitVec.ofNat 32 n else BitVec.ofNat 32 n)
  else BitVec.allOnes 32

theorem strtoul_value (s : List Byte) :
    (strtoul s).1 = wordOf (leadingNumber s).1 (leadingNumber s).2 := by
  unfold strtoul leadingNumber
  rcases signOf (s.dropWhile isSpace) with ⟨minus, body⟩
  simp only
  cases hds : body.takeWhile isDigit with
  | nil =>
    cases minus with
    | false => rfl
    | true => rfl
  | cons d ds => rfl

theorem strtoul_blank {s : List Byte} (h : ∀ b ∈ s, isSpace b = true) : strtoul s = (0, s) := by
  have hall : s.dropWhile isSpace = [] := List.dropWhile_eq_nil_iff.mpr h
  unfold strtoul
  rw [hall]
  rfl

section Digit
variable {c : Byte} (h : isDigit c = true)
include h

theorem isSpace_of_isDigit : isSpace c = false := by
  have hrange := isDigit_iff.mp h
  simp only [isSpace, decide_eq_false_iff_not, BitVec.le_def, not_or]
  constructor
  · rintro rfl
    exact absurd hrange.1 (by decide)
  · rintro ⟨-, hhigh⟩
    have hlt : c.toNat ≤ 0x0d := hhigh
    omega

theorem signOf_digit (cs : List Byte) : signOf (c :: cs) = (false, c :: cs) := by
  have hrange := isDigit_iff.mp h
  have hminus : c ≠ 0x2d := by
    rintro rfl
    exact absurd hrange.1 (by decide)
  have hplus : c ≠ 0x2b := by
    rintro rfl
    exact absurd hrange.1 (by decide)
  rw [signOf, if_neg hminus, if_neg hplus]

end Digit

theorem strtoul_numeral {spaces ds rest : List Byte} {n : Nat}
    (hspaces : ∀ b ∈ spaces, isSpace b = true) (hds : Numeral ds n)
    (hrest : ∀ b, rest.head? = some b → isDigit b = false) :
    strtoul (spaces ++ (ds ++ rest)) = (wordOf false n, rest) := by
  obtain ⟨hne, hdigits, hvalue⟩ := hds
  obtain ⟨c, cs, rfl⟩ := List.exists_cons_of_ne_nil hne
  have hc := hdigits c List.mem_cons_self
  have hstop : rest.takeWhile isDigit = [] ∧ rest.dropWhile isDigit = rest := by
    cases rest with
    | nil => exact ⟨rfl, rfl⟩
    | cons b bs =>
      have hb : ¬ isDigit b = true := by
        rw [hrest b rfl]
        decide
      exact ⟨List.takeWhile_cons_of_neg hb, List.dropWhile_cons_of_neg hb⟩
  have hskip : (spaces ++ (c :: cs ++ rest)).dropWhile isSpace = c :: cs ++ rest := by
    rw [List.dropWhile_append_of_pos hspaces, List.cons_append, List.dropWhile_cons_of_neg]
    rw [isSpace_of_isDigit hc]
    decide
  have hsign : signOf (c :: cs ++ rest) = (false, c :: cs ++ rest) := signOf_digit hc (cs ++ rest)
  have htake : (c :: cs ++ rest).takeWhile isDigit = c :: cs := by
    rw [List.takeWhile_append_of_pos hdigits, hstop.1, List.append_nil]
  have hdrop : (c :: cs ++ rest).dropWhile isDigit = rest := by
    rw [List.dropWhile_append_of_pos hdigits, hstop.2]
  unfold strtoul
  simp only [hskip, hsign, htake, hdrop, hvalue]
  rfl

theorem toNat_wordOf_plus (n : Nat) : (wordOf false n).toNat = min n ulongMax := by
  unfold wordOf
  split
  · rename_i h
    rw [Nat.min_eq_left h]
    simp only [Bool.false_eq_true, if_false, BitVec.toNat_ofNat]
    unfold ulongMax at h
    omega
  · rename_i h
    rw [Nat.min_eq_right (Nat.le_of_not_le h)]
    rfl

/-- The words whose signed reading is the same: below the sign bit. -/
def FitsLong (minus : Bool) (n : Nat) : Prop :=
  if minus then n = 0 ∨ 0x80000000 < n ∧ n ≤ ulongMax else n < 0x80000000

theorem fitsLong_iff (minus : Bool) (n : Nat) :
    (wordOf minus n).toNat < 0x80000000 ↔ FitsLong minus n := by
  unfold FitsLong
  cases minus with
  | false =>
    rw [toNat_wordOf_plus, ulongMax]
    simp only [Bool.false_eq_true, if_false]
    omega
  | true =>
    unfold wordOf ulongMax
    simp only [if_true]
    split
    · rw [BitVec.toNat_neg, BitVec.toNat_ofNat]
      omega
    · have hall : (BitVec.allOnes 32).toNat = 0xffffffff := rfl
      rw [hall]
      omega

section Signed
variable {w : BitVec 32}

theorem decimal_toInt_of_lt (h : w.toNat < 0x80000000) : decimal w.toInt = decimal w.toNat := by
  have hint : w.toInt = w.toNat := by
    rw [BitVec.toInt_eq_toNat_cond]
    omega
  rw [hint]

theorem decimal_toInt_of_ge (h : ¬ w.toNat < 0x80000000) :
    ∃ n < 0x100000000, decimal w.toInt = 0x2d#8 :: decimal (n : Nat) := by
  have hlt : w.toNat < 0x100000000 := w.isLt
  have hneg : w.toInt < 0 := by
    rw [BitVec.toInt_eq_toNat_cond]
    omega
  refine ⟨w.toInt.natAbs, ?_, decimal_of_neg hneg⟩
  rw [BitVec.toInt_eq_toNat_cond] at hneg ⊢
  omega

/-- A word from the sign bit on is printed with a minus, which no unsigned number starts with. -/
theorem lt_of_decimal_append {x y : List Byte}
    (h : decimal w.toInt ++ x = decimal w.toNat ++ y) : w.toNat < 0x80000000 := by
  by_contra hge
  obtain ⟨n, -, hminus⟩ := decimal_toInt_of_ge hge
  obtain ⟨c, cs, hcs⟩ := List.exists_cons_of_ne_nil (decimal_ne_nil w.toNat)
  have hc := isDigit_of_mem_decimal (n := w.toNat) (b := c) (by rw [hcs]; exact List.mem_cons_self)
  rw [hminus, hcs, List.cons_append, List.cons_append, List.cons.injEq] at h
  rw [← h.1] at hc
  cases hc

theorem decimal_toInt_length_le (w : BitVec 32) : (decimal w.toInt).length ≤ 11 := by
  by_cases h : w.toNat < 0x80000000
  · have hle := decimal_length_le (n := w.toNat) w.isLt
    rw [decimal_toInt_of_lt h]
    omega
  · obtain ⟨n, hn, hminus⟩ := decimal_toInt_of_ge h
    have hle := decimal_length_le hn
    rw [hminus, List.length_cons]
    omega

end Signed

end Firmware

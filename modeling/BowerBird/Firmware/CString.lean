import Mathlib.Data.List.Basic

/-!
# Strings in memory

A pointer into an object is modelled by the bytes of the object from the pointer
to its end. A read past the end of the object is undefined, which the functions
below report as `none`.
-/

namespace Firmware

set_option autoImplicit false

abbrev Byte := BitVec 8

/-- The bytes of a string literal, without the terminating NUL. -/
def ascii (s : String) : List Byte := s.toList.map fun c => BitVec.ofNat 8 c.toNat

namespace CString

/-- `strncmp`: the difference of the first unequal bytes, compared as unsigned. -/
def strncmp : List Byte → List Byte → Nat → Option Int
  | _, _, 0 => some 0
  | a :: as, b :: bs, n + 1 =>
    if a ≠ b then some ((a.toNat : Int) - b.toNat)
    else if a = 0#8 then some 0
    else strncmp as bs n
  | _, _, _ + 1 => none

/-- The string a pointer points to, up to its NUL. -/
def text : List Byte → Option (List Byte)
  | [] => none
  | c :: cs => if c = 0#8 then some [] else (text cs).map (c :: ·)

theorem text_append {t : List Byte} (ht : 0#8 ∉ t) (rest : List Byte) :
    text (t ++ 0#8 :: rest) = some t := by
  induction t with
  | nil => simp [text]
  | cons c cs ih =>
    simp only [List.mem_cons, not_or] at ht
    simp [text, Ne.symm ht.1, ih ht.2]

theorem text_eq_some_iff {mem t : List Byte} :
    text mem = some t ↔ 0#8 ∉ t ∧ ∃ rest, mem = t ++ 0#8 :: rest := by
  constructor
  · intro h
    induction mem generalizing t with
    | nil => simp [text] at h
    | cons c cs ih =>
      simp only [text] at h
      split at h
      · rename_i hc
        simp only [Option.some.injEq] at h
        subst h hc
        exact ⟨by simp, cs, rfl⟩
      · rename_i hc
        obtain ⟨u, hu, rfl⟩ := Option.map_eq_some_iff.mp h
        obtain ⟨hnul, rest, rfl⟩ := ih hu
        exact ⟨by simp [hnul, Ne.symm hc], rest, rfl⟩
  · rintro ⟨ht, rest, rfl⟩
    exact text_append ht rest

theorem text_isSome_iff {mem : List Byte} : (text mem).isSome ↔ 0#8 ∈ mem := by
  induction mem with
  | nil => simp [text]
  | cons c cs ih =>
    by_cases hc : c = 0#8
    · simp [text, hc]
    · simp [text, hc, ih, Ne.symm hc]

theorem text_frame {mem t : List Byte} (h : text mem = some t) (more : List Byte) :
    text (mem ++ more) = some t := by
  obtain ⟨ht, rest, rfl⟩ := text_eq_some_iff.mp h
  simpa using text_append ht (rest ++ more)

theorem strncmp_frame {as bs : List Byte} {n : Nat} {r : Int}
    (h : strncmp as bs n = some r) (more : List Byte) : strncmp (as ++ more) bs n = some r := by
  induction n generalizing as bs with
  | zero => simpa [strncmp] using h
  | succ n ih =>
    cases as with
    | nil => simp [strncmp] at h
    | cons a as =>
      cases bs with
      | nil => simp [strncmp] at h
      | cons b bs =>
        simp only [strncmp, List.cons_append] at h ⊢
        split at h
        · rename_i hab
          simpa [hab] using h
        · rename_i hab
          rw [if_neg hab]
          split at h
          · rename_i ha
            simpa [ha] using h
          · rename_i ha
            rw [if_neg ha]
            exact ih h

section Keyword
variable {kw : List Byte} (hkw : 0#8 ∉ kw)
include hkw

/-- Comparing against a keyword over its own length asks whether it is a prefix. -/
theorem strncmp_eq_zero_iff {mem : List Byte} :
    strncmp mem (kw ++ [0#8]) kw.length = some 0 ↔ kw <+: mem := by
  induction kw generalizing mem with
  | nil => simp [strncmp]
  | cons k ks ih =>
    simp only [List.mem_cons, not_or] at hkw
    cases mem with
    | nil => simp [strncmp]
    | cons a as =>
      simp only [List.cons_append, List.length_cons, strncmp, List.cons_prefix_cons]
      by_cases hak : a = k
      · subst hak
        simp [Ne.symm hkw.1, ih hkw.2]
      · have hne : a.toNat ≠ k.toNat := fun h => hak (BitVec.eq_of_toNat_eq h)
        simp only [hak, Ne.symm hak, ne_eq, not_false_eq_true, ↓reduceIte, Option.some.injEq,
          false_and, iff_false]
        omega

theorem strncmp_isSome {mem : List Byte} (hmem : 0#8 ∈ mem) :
    (strncmp mem (kw ++ [0#8]) kw.length).isSome := by
  induction kw generalizing mem with
  | nil => simp [strncmp]
  | cons k ks ih =>
    simp only [List.mem_cons, not_or] at hkw
    cases mem with
    | nil => simp at hmem
    | cons a as =>
      simp only [List.cons_append, List.length_cons, strncmp]
      split
      · rfl
      · split
        · rfl
        · rename_i ha
          apply ih hkw.2
          simpa [Ne.symm ha] using hmem

end Keyword

def isSpace (b : Byte) : Bool := b = 0x20 ∨ 0x09 ≤ b ∧ b ≤ 0x0d

def isDigit (b : Byte) : Bool := 0x30 ≤ b ∧ b ≤ 0x39

def digitsValue (ds : List Byte) : Nat := ds.foldl (fun v d => 10 * v + (d.toNat - 0x30)) 0

def signOf : List Byte → Bool × List Byte
  | [] => (false, [])
  | c :: cs => if c = 0x2d then (true, cs) else if c = 0x2b then (false, cs) else (false, c :: cs)

def ulongMax : Nat := 0xffffffff

/-- `strtoul(s, &end, 10)` with a 32-bit `unsigned long`: the value and the string
from `end` on. A minus negates modulo `2 ^ 32`, a value out of range saturates. -/
def strtoul (s : List Byte) : BitVec 32 × List Byte :=
  let (minus, body) := signOf (s.dropWhile isSpace)
  let digits := body.takeWhile isDigit
  if digits.isEmpty then (0, s)
  else
    let n := digitsValue digits
    let value := if n ≤ ulongMax then (if minus then - BitVec.ofNat 32 n else BitVec.ofNat 32 n)
      else BitVec.allOnes 32
    (value, body.dropWhile isDigit)

example : strtoul (ascii " 12 7x") = (12#32, ascii " 7x") := by decide

example : strtoul (ascii "-1") = (4294967295#32, []) := by decide

end CString

end Firmware

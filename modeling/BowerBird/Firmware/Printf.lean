import BowerBird.Firmware.CString

/-!
# Formatted output

The conversions `%s`, `%d`, `%ld` and `%%`. A variable argument is a string or a
32-bit word; a format whose conversions do not fit its arguments is undefined.
-/

namespace Firmware.Printf

set_option autoImplicit false

inductive Arg where
  | str (s : List Byte)
  | word (w : BitVec 32)
  deriving Repr, DecidableEq

inductive Kind where
  | str
  | word
  deriving Repr, DecidableEq

def Arg.kind : Arg → Kind
  | .str _ => .str
  | .word _ => .word

inductive Directive where
  | lit (b : Byte)
  | str
  | word
  | unknown
  deriving Repr, DecidableEq

/-- A format as literal bytes and conversions. `int` and `long` are both 32 bits. -/
def directives : List Byte → List Directive
  | [] => []
  | c :: cs =>
    if c ≠ 0x25 then .lit c :: directives cs
    else match cs with
      | [] => [.unknown]
      | d :: ds =>
        if d = 0x25 then .lit d :: directives ds
        else if d = 0x73 then .str :: directives ds
        else if d = 0x64 then .word :: directives ds
        else if d = 0x6c then match ds with
          | [] => [.unknown]
          | e :: es => if e = 0x64 then .word :: directives es else .unknown :: directives es
        else .unknown :: directives ds

theorem directives_lit {c : Byte} (hc : c ≠ 0x25#8) (cs : List Byte) :
    directives (c :: cs) = .lit c :: directives cs := by
  rw [directives.eq_def]
  simp [hc]

def decimal (n : Int) : List Byte :=
  if n < 0 then 0x2d :: (Nat.toDigits 10 n.natAbs).map (fun c => BitVec.ofNat 8 c.toNat)
  else (Nat.toDigits 10 n.natAbs).map fun c => BitVec.ofNat 8 c.toNat

def render : List Directive → List Arg → Option (List Byte)
  | [], _ => some []
  | .lit b :: ds, args => (render ds args).map (b :: ·)
  | .str :: ds, .str s :: args => (render ds args).map (s ++ ·)
  | .word :: ds, .word w :: args => (render ds args).map (decimal w.toInt ++ ·)
  | _ :: _, _ => none

/-- `vsnprintf(buf, n, format, args)`: what `buf` then holds before its NUL. -/
def vsnprintf (n : Nat) (format : List Byte) (args : List Arg) : Option (List Byte) :=
  (render (directives format) args).map (·.take (n - 1))

def conversions : List Directive → Option (List Kind)
  | [] => some []
  | .lit _ :: ds => conversions ds
  | .str :: ds => (conversions ds).map (.str :: ·)
  | .word :: ds => (conversions ds).map (.word :: ·)
  | .unknown :: _ => none

/-- The arguments are, in number and kind, those the conversions ask for. -/
def Matches (format : List Byte) (args : List Arg) : Prop :=
  conversions (directives format) = some (args.map Arg.kind)

theorem render_isSome {ds : List Directive} {args : List Arg}
    (h : conversions ds = some (args.map Arg.kind)) : (render ds args).isSome := by
  induction ds generalizing args with
  | nil => rfl
  | cons d ds ih =>
    cases d with
    | lit b => simpa [render] using ih h
    | unknown => simp [conversions] at h
    | str =>
      obtain ⟨ks, hks, hcons⟩ := Option.map_eq_some_iff.mp h
      rcases args with _ | ⟨_ | _, args⟩ <;> simp [Arg.kind] at hcons
      subst hcons
      simpa [render] using ih hks
    | word =>
      obtain ⟨ks, hks, hcons⟩ := Option.map_eq_some_iff.mp h
      rcases args with _ | ⟨_ | _, args⟩ <;> simp [Arg.kind] at hcons
      subst hcons
      simpa [render] using ih hks

theorem vsnprintf_isSome {n : Nat} {format : List Byte} {args : List Arg}
    (h : Matches format args) : (vsnprintf n format args).isSome := by
  rw [vsnprintf, Option.isSome_map]
  exact render_isSome h

theorem render_lits (bs : List Byte) (ds : List Directive) (args : List Arg) :
    render (bs.map .lit ++ ds) args = (render ds args).map (bs ++ ·) := by
  induction bs with
  | nil => simp
  | cons b bs ih =>
    simp only [List.map_cons, List.cons_append, render, ih, Option.map_map]
    rfl

theorem render_text (bs : List Byte) (args : List Arg) : render (bs.map .lit) args = some bs := by
  simpa [render] using render_lits bs [] args

/-- A format that starts with a character that is not a conversion prints something. -/
theorem vsnprintf_head {n : Nat} (hn : 1 < n) {c : Byte} {cs : List Byte} (hc : c ≠ 0x25#8)
    {args : List Arg} {t : List Byte} (h : vsnprintf n (c :: cs) args = some t) :
    ∃ u, t = c :: u := by
  obtain ⟨k, rfl⟩ : ∃ k, n = k + 2 := ⟨n - 2, by omega⟩
  simp only [vsnprintf, directives_lit hc, render, Option.map_map, Option.map_eq_some_iff] at h
  obtain ⟨rest, -, rfl⟩ := h
  exact ⟨rest.take k, rfl⟩

/-- A text in which every `%` is doubled. -/
inductive Plain : List Byte → Prop
  | nil : Plain []
  | lit {c : Byte} {cs : List Byte} (hc : c ≠ 0x25#8) (h : Plain cs) : Plain (c :: cs)
  | percent {cs : List Byte} (h : Plain cs) : Plain (0x25#8 :: 0x25#8 :: cs)

theorem plain_of_conversions {t : List Byte} (h : conversions (directives t) = some []) :
    Plain t := by
  fun_induction directives t with
  | case1 => exact .nil
  | case2 c cs hc ih => exact .lit hc (ih h)
  | case4 c hc cs ih =>
    rw [Decidable.not_not] at hc
    rw [hc]
    exact .percent (ih h)
  | _ =>
    -- any other directive asks for an argument or is unknown
    simp [conversions] at h

/-- A text is a format without arguments exactly if every `%` in it is doubled. -/
theorem matches_nil_iff {t : List Byte} : Matches t [] ↔ Plain t := by
  constructor
  · exact plain_of_conversions
  · intro h
    unfold Matches
    induction h with
    | nil => rfl
    | lit hc _ ih =>
      rw [directives_lit hc]
      exact ih
    | percent _ ih =>
      rw [directives.eq_def]
      exact ih

example : vsnprintf 64 (ascii "%s[%d] sw%d") [.str (ascii "pin"), .word 7, .word 12] =
    some (ascii "pin[7] sw12") := by decide +kernel

end Firmware.Printf

import BowerBird.CommsLines

/-!
# Lookups in part of the buffer

A lookup that stays inside a part of `CommandBuffer` does the same in the whole. The
line and its terminator are such a part, unless the line ends where a keyword does.
-/

namespace BowerBird.Comms

open Firmware Firmware.CString Firmware.Exec
set_option autoImplicit false

/-- A view that does not depend on what the buffer holds. -/
structure Event.Blind {κ : Type} (view : Event → Option κ) : Prop where
  dispatch : ∀ mem mem', view (.dispatch mem) = view (.dispatch mem')
  argument : ∀ p o o', view (.argument p o) = view (.argument p o')

theorem call?_blind : Event.Blind Event.call? := ⟨fun _ _ => rfl, fun _ _ _ => rfl⟩

section Frame
variable {κ : Type} {view : Event → Option κ} (mem more : List Byte)

theorem startsWith_frame (p : Nat) (kw : List Byte) :
    Refines view (startsWith mem p kw) (startsWith (mem ++ more) p kw) := by
  refine Refines.bind _ (Refines.ofOption _ fun r hr => ?_) fun _ => Refines.refl _ _
  rw [List.drop_append]
  exact strncmp_frame hr _

theorem stringAt_frame (p : Nat) :
    Refines view (stringAt mem p) (stringAt (mem ++ more) p) := by
  refine Refines.ofOption _ fun t ht => ?_
  rw [List.drop_append]
  exact text_frame ht _

theorem byteAt_frame (p : Nat) : Refines view (byteAt mem p) (byteAt (mem ++ more) p) := by
  refine Refines.ofOption _ fun c hc => ?_
  obtain ⟨hlt, -⟩ := List.getElem?_eq_some_iff.mp hc
  rwa [List.getElem?_append_left hlt]

theorem processBeaglePowerDownCommand_frame (cmd : Nat) :
    Refines view (processBeaglePowerDownCommand mem cmd)
      (processBeaglePowerDownCommand (mem ++ more) cmd) :=
  (stringAt_frame mem more cmd).bind _ fun _ => Refines.refl _ _

theorem processPowerDevice_frame (newPowerState : Bool) (cmd : Nat) :
    Refines view (processPowerDevice mem newPowerState cmd)
      (processPowerDevice (mem ++ more) newPowerState cmd) := by
  refine (byteAt_frame mem more cmd).bind _ fun c => ?_
  split
  · exact Refines.refl _ _
  refine (startsWith_frame mem more cmd _).bind _ fun mic => ?_
  split
  · exact Refines.refl _ _
  refine (startsWith_frame mem more cmd _).bind _ fun lcd => ?_
  split
  · exact Refines.refl _ _
  exact (stringAt_frame mem more cmd).bind _ fun _ => Refines.refl _ _

theorem processLCDCommand_frame (cmd : Nat) :
    Refines view (processLCDCommand mem cmd) (processLCDCommand (mem ++ more) cmd) := by
  refine (startsWith_frame mem more cmd _).bind _ fun clear => ?_
  split
  · exact Refines.refl _ _
  exact (stringAt_frame mem more cmd).bind _ fun _ => Refines.refl _ _

theorem processWatchdogCommand_frame (cmd : Nat) :
    Refines view (processWatchdogCommand mem cmd) (processWatchdogCommand (mem ++ more) cmd) := by
  refine (startsWith_frame mem more cmd _).bind _ fun enable => ?_
  split
  · exact Refines.refl _ _
  refine (startsWith_frame mem more cmd _).bind _ fun disable => ?_
  split
  · exact Refines.refl _ _
  refine (startsWith_frame mem more cmd _).bind _ fun pulse => ?_
  split
  · exact Refines.refl _ _
  exact (stringAt_frame mem more cmd).bind _ fun _ => Refines.refl _ _

variable (hview : Event.Blind view)
include hview

theorem argument_frame (p : Nat) : Refines view (argument mem p) (argument (mem ++ more) p) :=
  Refines.emit _ (hview.argument _ _ _)

theorem processPowerCommand_frame (cmd : Nat) :
    Refines view (processPowerCommand mem cmd) (processPowerCommand (mem ++ more) cmd) := by
  refine (startsWith_frame mem more cmd _).bind _ fun on => ?_
  split
  · exact (argument_frame mem more hview _).bind _ fun _ => processPowerDevice_frame mem more _ _
  refine (startsWith_frame mem more cmd _).bind _ fun off => ?_
  split
  · exact (argument_frame mem more hview _).bind _ fun _ => processPowerDevice_frame mem more _ _
  exact (stringAt_frame mem more cmd).bind _ fun _ => Refines.refl _ _

/-- A lookup that stays inside a small object does the same in a larger one. -/
theorem dispatchCommand_frame :
    Refines view (dispatchCommand mem) (dispatchCommand (mem ++ more)) := by
  have hlookup : Refines view (Exec.emit (Event.dispatch mem))
      (Exec.emit (Event.dispatch (mem ++ more))) := Refines.emit _ (hview.dispatch _ _)
  refine hlookup.bind _ fun _ => ?_
  refine (startsWith_frame mem more 0 _).bind _ fun beagle => ?_
  split
  · exact (argument_frame mem more hview _).bind _ fun _ =>
      processBeaglePowerDownCommand_frame mem more _
  refine (startsWith_frame mem more 0 _).bind _ fun power => ?_
  split
  · exact (argument_frame mem more hview _).bind _ fun _ =>
      processPowerCommand_frame mem more hview _
  refine (startsWith_frame mem more 0 _).bind _ fun lcd => ?_
  split
  · exact (argument_frame mem more hview _).bind _ fun _ => processLCDCommand_frame mem more _
  refine (startsWith_frame mem more 0 _).bind _ fun watchdog => ?_
  split
  · exact (argument_frame mem more hview _).bind _ fun _ => processWatchdogCommand_frame mem more _
  refine (startsWith_frame mem more 0 _).bind _ fun reset => ?_
  split
  · exact Refines.refl _ _
  exact (stringAt_frame mem more 0).bind _ fun _ => Refines.refl _ _

end Frame

/-- The line is a keyword with no argument, or `power`, any byte, and `on` or `off`. -/
def EndsAtKeyword (line : List Byte) : Prop :=
  line ∈ [beagleResetCmd, powerCmd, lcdCmd, watchdogCmd] ∨
    ∃ c, line = powerCmd ++ c :: powerOn ∨ line = powerCmd ++ c :: powerOff

instance (line : List Byte) : Decidable (EndsAtKeyword line) :=
  decidable_of_iff (line ∈ [beagleResetCmd, powerCmd, lcdCmd, watchdogCmd] ∨
      ∃ c ∈ line, line = powerCmd ++ c :: powerOn ∨ line = powerCmd ++ c :: powerOff) <|
    or_congr_right <| exists_congr fun c => and_iff_right_of_imp fun h => by
      rcases h with rfl | rfl <;> simp

theorem nul_line {line : List Byte} {p : Nat} (h : p ≤ line.length) : Nul (line ++ [0#8]) p := by
  rw [Nul, List.drop_append_of_le_length h]
  simp

theorem length_lt_of_isPrefix {kw line : List Byte} (h : kw <+: line) (hne : line ≠ kw) :
    kw.length + 1 ≤ line.length := by
  obtain ⟨more, rfl⟩ := h
  cases more with
  | nil => simp at hne
  | cons c more => simp

theorem length_lt_of_subkeyword {kw line : List Byte} (h : powerCmd <+: line)
    (hne : line ≠ powerCmd) (hsub : kw <+: (line ++ [0#8]).drop (powerCmd.length + 1))
    (hend : ∀ c, line ≠ powerCmd ++ c :: kw) (hkw : 0#8 ∉ kw := by decide) :
    powerCmd.length + 1 + kw.length + 1 ≤ line.length := by
  obtain ⟨more, rfl⟩ := h
  cases more with
  | nil => simp at hne
  | cons c more =>
    have hdrop : (powerCmd ++ c :: more ++ [0#8]).drop (powerCmd.length + 1) = more ++ [0#8] := by
      rw [List.append_assoc, List.drop_append]
      simp
    rw [hdrop] at hsub
    have hpre : kw <+: more := (prefix_of_prefix_line hkw).mp hsub
    have hlt := length_lt_of_isPrefix hpre fun heq => hend c (by rw [heq])
    simp only [List.length_append, List.length_cons]
    omega

theorem skipsInside_line {line : List Byte} (h : ¬ EndsAtKeyword line) :
    SkipsInside (line ++ [0#8]) := by
  simp only [EndsAtKeyword, List.mem_cons, List.not_mem_nil, or_false, not_or, not_exists] at h
  obtain ⟨⟨hbeagle, hpower, hlcd, hwatchdog⟩, hsub⟩ := h
  constructor
  · exact fun hpre => nul_line (length_lt_of_isPrefix (Iff.mp prefix_of_prefix_line hpre) hbeagle)
  · exact fun hpre => nul_line (length_lt_of_isPrefix (Iff.mp prefix_of_prefix_line hpre) hpower)
  · exact fun hpre hon => nul_line (length_lt_of_subkeyword (Iff.mp prefix_of_prefix_line hpre) hpower
      hon fun c => (hsub c).1)
  · exact fun hpre hoff => nul_line (length_lt_of_subkeyword (Iff.mp prefix_of_prefix_line hpre) hpower
      hoff fun c => (hsub c).2)
  · exact fun hpre => nul_line (length_lt_of_isPrefix (Iff.mp prefix_of_prefix_line hpre) hlcd)
  · exact fun hpre => nul_line (length_lt_of_isPrefix (Iff.mp prefix_of_prefix_line hpre) hwatchdog)

theorem dispatchCommand_line_inside {line : List Byte} (hfit : Short line)
    (h : ¬ EndsAtKeyword line) (hreset : ¬ resetCmd <+: line) :
    ∃ es, (∀ e ∈ es, e.OfHandler) ∧
      dispatchCommand (line ++ [0#8]) = ⟨.dispatch (line ++ [0#8]) :: es, .ret ⟨⟩⟩ := by
  have hlen : (line ++ [0#8]).length ≤ maxLineLength := by
    rw [List.length_append]
    exact hfit
  apply dispatchCommand_returns hlen (nul_line (Nat.zero_le _)) (skipsInside_line h)
  exact fun hpre => hreset (Iff.mp prefix_of_prefix_line hpre)

theorem dispatchCommand_line_defined {line : List Byte} (hfit : Short line)
    (h : ¬ EndsAtKeyword line) : (dispatchCommand (line ++ [0#8])).outcome ≠ .fault := by
  by_cases hreset : resetCmd <+: line
  · have hreset' : resetCmd <+: line ++ [0#8] := hreset.trans (List.prefix_append line _)
    rw [dispatchCommand_reset (nul_line (Nat.zero_le _)) hreset']
    simp
  · obtain ⟨es, -, hx⟩ := dispatchCommand_line_inside hfit h hreset
    rw [hx]
    simp

theorem calls_of_start {mem small more : List Byte} (hmem : mem = small ++ more)
    (h : (dispatchCommand small).outcome ≠ .fault) :
    (dispatchCommand mem).events.filterMap Event.call? =
      (dispatchCommand small).events.filterMap Event.call? := by
  subst hmem
  exact (dispatchCommand_frame small more call?_blind h).2

end BowerBird.Comms

import BowerBird.Comms

/-!
# Accesses to the command buffer

A handler skips a keyword and one more byte without looking for the terminator.
It stays inside the buffer exactly as long as each skip lands before some NUL,
which need not be that of its own line.
-/

namespace BowerBird.Comms

open Firmware Firmware.CString Firmware.Exec
set_option autoImplicit false

/-- Stores go to an element of the buffer, strings end in it. -/
def Event.InBounds : Event → Prop
  | .store i _ => i < maxLineLength
  | .argument p text => p < maxLineLength ∧ text.isSome
  | _ => True

/-- What a handler may do: it stays in the buffer and looks up no further line. -/
structure Event.OfHandler (e : Event) : Prop where
  inBounds : e.InBounds
  noDispatch : e.dispatch? = none

/-- From `p` on there is a NUL in the buffer. -/
def Nul (mem : List Byte) (p : Nat) : Prop := 0#8 ∈ mem.drop p

theorem Nul.mono {mem : List Byte} {p q : Nat} (h : Nul mem q) (hpq : p ≤ q) : Nul mem p := by
  have hdrop : mem.drop q = (mem.drop p).drop (q - p) := by
    rw [List.drop_drop]
    congr 1
    omega
  unfold Nul at h ⊢
  rw [hdrop] at h
  exact List.mem_of_mem_drop h

theorem Nul.start {mem : List Byte} {p : Nat} (h : Nul mem p) : Nul mem 0 := h.mono (Nat.zero_le p)

theorem Nul.lt_length {mem : List Byte} {p : Nat} (h : Nul mem p) : p < mem.length := by
  have hpos := List.length_pos_of_mem h
  rw [List.length_drop] at hpos
  omega

theorem startsWith_eq {mem : List Byte} {p : Nat} {kw : List Byte} (h : Nul mem p)
    (hkw : 0#8 ∉ kw := by decide) : startsWith mem p kw = pure (decide (kw <+: mem.drop p)) := by
  obtain ⟨r, hr⟩ := Option.isSome_iff_exists.mp (strncmp_isSome hkw h)
  have hiff : strncmp (mem.drop p) (kw ++ [0#8]) kw.length = some 0 ↔ kw <+: mem.drop p :=
    strncmp_eq_zero_iff hkw
  rw [hr, Option.some.injEq] at hiff
  have hr0 : (r == 0) = decide (kw <+: mem.drop p) := by
    rw [Bool.eq_iff_iff]
    simpa using hiff
  simp only [startsWith, hr, ofOption_some, pure_bind, hr0]

theorem stringAt_eq {mem : List Byte} {p : Nat} (h : Nul mem p) :
    ∃ t, text (mem.drop p) = some t ∧ stringAt mem p = pure t := by
  obtain ⟨t, ht⟩ := Option.isSome_iff_exists.mp (text_isSome_iff.mpr h)
  exact ⟨t, ht, by simp [stringAt, ht]⟩

section Primitives
variable {mem : List Byte} {p : Nat}

theorem startsWith_ensures {kw : List Byte} (h : Nul mem p) (hkw : 0#8 ∉ kw := by decide) :
    (startsWith mem p kw).Ensures Event.OfHandler (fun b => b = true ↔ kw <+: mem.drop p) := by
  rw [startsWith_eq h hkw]
  exact .pure (by simp)

theorem stringAt_ensures (h : Nul mem p) :
    (stringAt mem p).Ensures Event.OfHandler (fun t => text (mem.drop p) = some t) := by
  obtain ⟨t, ht, heq⟩ := stringAt_eq h
  rw [heq]
  exact .pure ht

theorem byteAt_ensures (h : Nul mem p) :
    (byteAt mem p).Ensures Event.OfHandler (fun c => mem[p]? = some c) := by
  have hlt := h.lt_length
  simp only [byteAt, List.getElem?_eq_getElem hlt, ofOption_some]
  exact .pure rfl

theorem argument_ensures (hlen : mem.length ≤ maxLineLength) (h : Nul mem p) :
    (argument mem p).Ensures Event.OfHandler (fun _ => True) :=
  .emit ⟨⟨Nat.lt_of_lt_of_le h.lt_length hlen, text_isSome_iff.mpr h⟩, rfl⟩ trivial

theorem writeStringToUSB_ensures (format : String) (args : List Printf.Arg) :
    (writeStringToUSB format args).Ensures Event.OfHandler (fun _ => True) :=
  .emit ⟨trivial, rfl⟩ trivial

theorem writeStringToLCD_ensures (format : List Byte) (args : List Printf.Arg) :
    (writeStringToLCD format args).Ensures Event.OfHandler (fun _ => True) :=
  .emit ⟨trivial, rfl⟩ trivial

end Primitives

theorem refusal_ensures (format : String) (args : List Printf.Arg) (heading s : List Byte) :
    (do writeStringToUSB format args; writeStringToLCD heading []; writeStringToLCD s []).Ensures
      Event.OfHandler (fun _ => True) := by
  refine (writeStringToUSB_ensures _ _).bind fun _ _ => ?_
  refine (writeStringToLCD_ensures _ _).bind fun _ _ => ?_
  exact writeStringToLCD_ensures _ _

section Handlers
variable {mem : List Byte} {cmd : Nat}

theorem processBeaglePowerDownCommand_ensures (h : Nul mem cmd) :
    (processBeaglePowerDownCommand mem cmd).Ensures Event.OfHandler (fun _ => True) := by
  refine (stringAt_ensures h).bind fun s _ => ?_
  refine (writeStringToUSB_ensures _ _).bind fun _ _ => ?_
  refine (writeStringToUSB_ensures _ _).bind fun _ _ => ?_
  refine (writeStringToLCD_ensures _ _).bind fun _ _ => ?_
  exact .emit ⟨trivial, rfl⟩ trivial

theorem powerReport_ensures (newPowerState isOnPowerPort : Bool) (deviceName : List Byte)
    (pin sw : Int) :
    (powerReport newPowerState isOnPowerPort deviceName pin sw).Ensures Event.OfHandler
      (fun _ => True) := by
  refine (Ensures.emit (Q := fun _ => True) ⟨trivial, rfl⟩ trivial).bind fun _ _ => ?_
  refine (writeStringToUSB_ensures _ _).bind fun _ _ => ?_
  exact writeStringToLCD_ensures _ _

theorem processPowerDevice_ensures (newPowerState : Bool) (h : Nul mem cmd) :
    (processPowerDevice mem newPowerState cmd).Ensures Event.OfHandler (fun _ => True) := by
  refine (byteAt_ensures h).bind fun c _ => ?_
  split
  · exact powerReport_ensures _ _ _ _ _
  refine (startsWith_ensures h).bind fun mic _ => ?_
  split
  · exact powerReport_ensures _ _ _ _ _
  refine (startsWith_ensures h).bind fun lcd _ => ?_
  split
  · exact powerReport_ensures _ _ _ _ _
  exact (stringAt_ensures h).bind fun s _ => refusal_ensures _ _ _ _

theorem processPowerCommand_ensures (hlen : mem.length ≤ maxLineLength) (h : Nul mem cmd)
    (hon : powerOn <+: mem.drop cmd → Nul mem (cmd + powerOn.length + 1))
    (hoff : powerOff <+: mem.drop cmd → Nul mem (cmd + powerOff.length + 1)) :
    (processPowerCommand mem cmd).Ensures Event.OfHandler (fun _ => True) := by
  refine (startsWith_ensures h).bind fun on hon' => ?_
  split
  · rename_i hc
    refine (argument_ensures hlen (hon (hon'.mp hc))).bind fun _ _ => ?_
    exact processPowerDevice_ensures true (hon (hon'.mp hc))
  refine (startsWith_ensures h).bind fun off hoff' => ?_
  split
  · rename_i hc
    refine (argument_ensures hlen (hoff (hoff'.mp hc))).bind fun _ _ => ?_
    exact processPowerDevice_ensures false (hoff (hoff'.mp hc))
  exact (stringAt_ensures h).bind fun s _ => refusal_ensures _ _ _ _

theorem processLCDCommand_ensures (h : Nul mem cmd) :
    (processLCDCommand mem cmd).Ensures Event.OfHandler (fun _ => True) := by
  refine (startsWith_ensures h).bind fun clear _ => ?_
  split
  · refine (Ensures.emit (Q := fun _ => True) ⟨trivial, rfl⟩ trivial).bind fun _ _ => ?_
    exact writeStringToUSB_ensures _ _
  refine (stringAt_ensures h).bind fun s _ => ?_
  refine (writeStringToLCD_ensures _ _).bind fun _ _ => ?_
  exact writeStringToUSB_ensures _ _

theorem processWatchdogCommand_ensures (h : Nul mem cmd) :
    (processWatchdogCommand mem cmd).Ensures Event.OfHandler (fun _ => True) := by
  refine (startsWith_ensures h).bind fun enable _ => ?_
  split
  · exact .emit ⟨trivial, rfl⟩ trivial
  refine (startsWith_ensures h).bind fun disable _ => ?_
  split
  · exact .emit ⟨trivial, rfl⟩ trivial
  refine (startsWith_ensures h).bind fun pulse _ => ?_
  split
  · refine (Ensures.emit (Q := fun _ => True) ⟨trivial, rfl⟩ trivial).bind fun _ _ => ?_
    refine (writeStringToUSB_ensures _ _).bind fun _ _ => ?_
    exact writeStringToLCD_ensures _ _
  exact (stringAt_ensures h).bind fun s _ => refusal_ensures _ _ _ _

end Handlers

theorem not_prefix_of_isPrefix {as bs mem : List Byte} (h : as <+: mem)
    (hab : ¬ as <+: bs := by decide) (hba : ¬ bs <+: as := by decide) : ¬ bs <+: mem := by
  intro hb
  rcases Nat.le_total as.length bs.length with hle | hle
  · exact hab (List.prefix_of_prefix_length_le h hb hle)
  · exact hba (List.prefix_of_prefix_length_le hb h hle)

theorem prefix_of_prefix_line {kw line rest : List Byte} (hkw : 0#8 ∉ kw := by decide) :
    kw <+: line ++ 0#8 :: rest ↔ kw <+: line := by
  constructor
  · intro h
    rcases List.prefix_or_prefix_of_prefix h (List.prefix_append line (0#8 :: rest)) with
      hle | ⟨more, rfl⟩
    · exact hle
    cases more with
    | nil => simp
    | cons c more =>
      have hc := (List.prefix_append_right_inj line).mp h
      rw [List.cons_prefix_cons] at hc
      exact absurd (by simp [hc.1]) hkw
  · intro h
    exact h.trans (List.prefix_append line _)

theorem dispatchCommand_reset {mem : List Byte} (hmem : Nul mem 0) (h : resetCmd <+: mem) :
    dispatchCommand mem = ⟨[.dispatch mem, .call (.wdtEnable wdtTimeoutPeriodUs)], .hang⟩ := by
  have hbeagle : ¬ beagleResetCmd <+: mem := not_prefix_of_isPrefix h
  have hpower : ¬ powerCmd <+: mem := not_prefix_of_isPrefix h
  have hlcd : ¬ lcdCmd <+: mem := not_prefix_of_isPrefix h
  have hwatchdog : ¬ watchdogCmd <+: mem := not_prefix_of_isPrefix h
  simp only [dispatchCommand, emit_bind]
  rw [startsWith_eq hmem, startsWith_eq hmem, startsWith_eq hmem,
    startsWith_eq hmem, startsWith_eq hmem]
  simp [hbeagle, hpower, hlcd, hwatchdog, h, processResetCommand, Exec.hang]

/-- Each skip past a keyword lands before a NUL. -/
structure SkipsInside (mem : List Byte) : Prop where
  beagle : beagleResetCmd <+: mem → Nul mem (beagleResetCmd.length + 1)
  power : powerCmd <+: mem → Nul mem (powerCmd.length + 1)
  on : powerCmd <+: mem → powerOn <+: mem.drop (powerCmd.length + 1) →
    Nul mem (powerCmd.length + 1 + powerOn.length + 1)
  off : powerCmd <+: mem → powerOff <+: mem.drop (powerCmd.length + 1) →
    Nul mem (powerCmd.length + 1 + powerOff.length + 1)
  lcd : lcdCmd <+: mem → Nul mem (lcdCmd.length + 1)
  watchdog : watchdogCmd <+: mem → Nul mem (watchdogCmd.length + 1)

/-- The NUL that no line of the right length overwrites stops every skip. -/
theorem SkipsInside.of_last {mem : List Byte} (h : Nul mem 1023) : SkipsInside mem where
  beagle _ := h.mono (by decide)
  power _ := h.mono (by decide)
  on _ _ := h.mono (by decide)
  off _ _ := h.mono (by decide)
  lcd _ := h.mono (by decide)
  watchdog _ := h.mono (by decide)

/-- A line that is not the AVR reset command is looked up once and handled to the end. -/
theorem dispatchCommand_ensures {mem : List Byte} (hlen : mem.length ≤ maxLineLength)
    (h0 : Nul mem 0) (hskip : SkipsInside mem) (hreset : ¬ resetCmd <+: mem) :
    ∃ x, dispatchCommand mem = (Exec.emit (.dispatch mem) >>= fun _ => x) ∧
      x.Ensures Event.OfHandler (fun _ => True) := by
  refine ⟨_, rfl, ?_⟩
  refine (startsWith_ensures h0).bind fun beagle hbeagle => ?_
  split
  · rename_i hc
    have h1 := hskip.beagle (hbeagle.mp hc)
    exact (argument_ensures hlen h1).bind fun _ _ => processBeaglePowerDownCommand_ensures h1
  refine (startsWith_ensures h0).bind fun power hpower => ?_
  split
  · rename_i hc
    have hp : powerCmd <+: mem := hpower.mp hc
    refine (argument_ensures hlen (hskip.power hp)).bind fun _ _ => ?_
    exact processPowerCommand_ensures hlen (hskip.power hp) (hskip.on hp) (hskip.off hp)
  refine (startsWith_ensures h0).bind fun lcd hlcd => ?_
  split
  · rename_i hc
    have h1 := hskip.lcd (hlcd.mp hc)
    exact (argument_ensures hlen h1).bind fun _ _ => processLCDCommand_ensures h1
  refine (startsWith_ensures h0).bind fun watchdog hwatchdog => ?_
  split
  · rename_i hc
    have h1 := hskip.watchdog (hwatchdog.mp hc)
    exact (argument_ensures hlen h1).bind fun _ _ => processWatchdogCommand_ensures h1
  refine (startsWith_ensures h0).bind fun reset hreset' => ?_
  split
  · rename_i hc
    exact absurd (hreset'.mp hc) hreset
  exact (stringAt_ensures h0).bind fun s _ => refusal_ensures _ _ _ _

theorem dispatchCommand_returns {mem : List Byte} (hlen : mem.length ≤ maxLineLength)
    (h0 : Nul mem 0) (hskip : SkipsInside mem) (hreset : ¬ resetCmd <+: mem) :
    ∃ es, (∀ e ∈ es, e.OfHandler) ∧ dispatchCommand mem = ⟨.dispatch mem :: es, .ret ⟨⟩⟩ := by
  obtain ⟨⟨es, o⟩, hx, hes, _, hret, -⟩ := dispatchCommand_ensures hlen h0 hskip hreset
  obtain rfl : o = .ret ⟨⟩ := hret
  exact ⟨es, hes, hx⟩

end BowerBird.Comms

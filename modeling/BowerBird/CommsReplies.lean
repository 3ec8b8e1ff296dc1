import BowerBird.CommsLines

/-!
# Which lines are answered

Every way through the handlers reports to the host before it returns, but for
`watchdog enable` and `watchdog disable`.
-/

namespace BowerBird.Comms

open Firmware Firmware.CString Firmware.Exec
set_option autoImplicit false

/-- A report whose text does not start with a conversion or the end of the string. -/
def Event.Replies : Event → Prop
  | .call (.writeStringToUSB format _) => ∃ c cs, format = c :: cs ∧ c ≠ 0x25#8 ∧ c ≠ 0#8
  | _ => False

def Quiet (mem : List Byte) : Prop :=
  watchdogCmd <+: mem ∧ (watchdogEnable <+: mem.drop (watchdogCmd.length + 1) ∨
    watchdogDisable <+: mem.drop (watchdogCmd.length + 1))

instance (mem : List Byte) : Decidable (Quiet mem) := inferInstanceAs (Decidable (_ ∧ _))

section Handlers
variable {mem : List Byte} {cmd : Nat}

theorem writeStringToUSB_replies {format : String} {args : List Printf.Arg} (c : Byte)
    (hc : (ascii format).head? = some c := by rfl) (hpercent : c ≠ 0x25#8 := by decide)
    (hnul : c ≠ 0#8 := by decide) :
    (writeStringToUSB format args).Inevitably Event.Replies := by
  obtain ⟨cs, hcs⟩ := List.head?_eq_some_iff.mp hc
  exact .emit ⟨c, cs, hcs, hpercent, hnul⟩

theorem processBeaglePowerDownCommand_replies :
    (processBeaglePowerDownCommand mem cmd).Inevitably Event.Replies :=
  Inevitably.bind_right fun _ =>
    (writeStringToUSB_replies 0x50#8).bind_left

theorem powerReport_replies (newPowerState isOnPowerPort : Bool) (deviceName : List Byte)
    (pin sw : Int) :
    (powerReport newPowerState isOnPowerPort deviceName pin sw).Inevitably Event.Replies :=
  Inevitably.bind_right fun _ =>
    (writeStringToUSB_replies 0x0d#8).bind_left

theorem processPowerDevice_replies (newPowerState : Bool) :
    (processPowerDevice mem newPowerState cmd).Inevitably Event.Replies := by
  refine Inevitably.bind_right fun c => ?_
  split
  · exact powerReport_replies _ _ _ _ _
  refine Inevitably.bind_right fun mic => ?_
  split
  · exact powerReport_replies _ _ _ _ _
  refine Inevitably.bind_right fun lcd => ?_
  split
  · exact powerReport_replies _ _ _ _ _
  exact Inevitably.bind_right fun s =>
    (writeStringToUSB_replies 0x0d#8).bind_left

theorem processPowerCommand_replies : (processPowerCommand mem cmd).Inevitably Event.Replies := by
  refine Inevitably.bind_right fun on => ?_
  split
  · exact Inevitably.bind_right fun _ => processPowerDevice_replies _
  refine Inevitably.bind_right fun off => ?_
  split
  · exact Inevitably.bind_right fun _ => processPowerDevice_replies _
  exact Inevitably.bind_right fun s =>
    (writeStringToUSB_replies 0x0d#8).bind_left

theorem processLCDCommand_replies : (processLCDCommand mem cmd).Inevitably Event.Replies := by
  refine Inevitably.bind_right fun clear => ?_
  split
  · exact Inevitably.bind_right fun _ =>
      writeStringToUSB_replies 0x0d#8
  exact Inevitably.bind_right fun s => Inevitably.bind_right fun _ =>
    writeStringToUSB_replies 0x0d#8

theorem processWatchdogCommand_replies (h : Nul mem cmd) (henable : ¬ watchdogEnable <+: mem.drop cmd)
    (hdisable : ¬ watchdogDisable <+: mem.drop cmd) :
    (processWatchdogCommand mem cmd).Inevitably Event.Replies := by
  unfold processWatchdogCommand
  rw [startsWith_eq h, startsWith_eq h]
  simp only [henable, hdisable, decide_false, pure_bind, Bool.false_eq_true, if_false]
  refine Inevitably.bind_right fun pulse => ?_
  split
  · exact Inevitably.bind_right fun _ =>
      (writeStringToUSB_replies 0x57#8).bind_left
  exact Inevitably.bind_right fun s =>
    (writeStringToUSB_replies 0x0d#8).bind_left

end Handlers

/-- A line that is not carried out in silence is answered, or is the AVR reset command. -/
theorem dispatchCommand_replies {mem : List Byte} (h0 : Nul mem 0) (hskip : SkipsInside mem)
    (hquiet : ¬ Quiet mem) : (dispatchCommand mem).Inevitably Event.Replies := by
  refine Inevitably.bind_right fun _ => ?_
  refine Inevitably.bind_right fun beagle => ?_
  split
  · exact Inevitably.bind_right fun _ => processBeaglePowerDownCommand_replies
  refine Inevitably.bind_right fun power => ?_
  split
  · exact Inevitably.bind_right fun _ => processPowerCommand_replies
  refine Inevitably.bind_right fun lcd => ?_
  split
  · exact Inevitably.bind_right fun _ => processLCDCommand_replies
  rw [startsWith_eq h0, pure_bind]
  split
  · rename_i hwatchdog
    have hw : watchdogCmd <+: mem := by simpa using hwatchdog
    refine Inevitably.bind_right fun _ => ?_
    exact processWatchdogCommand_replies (hskip.watchdog hw) (fun h => hquiet ⟨hw, .inl h⟩)
      (fun h => hquiet ⟨hw, .inr h⟩)
  refine Inevitably.bind_right fun reset => ?_
  split
  · exact Inevitably.bind_right fun _ => Inevitably.hang
  exact Inevitably.bind_right fun s =>
    (writeStringToUSB_replies 0x0d#8).bind_left

theorem dispatchCommand_watchdog {mem : List Byte} (h0 : Nul mem 0) (hw : watchdogCmd <+: mem) :
    dispatchCommand mem = (do
      Exec.emit (.dispatch mem)
      argument mem (watchdogCmd.length + 1)
      processWatchdogCommand mem (watchdogCmd.length + 1)) := by
  have hbeagle : ¬ beagleResetCmd <+: mem := not_prefix_of_isPrefix hw
  have hpower : ¬ powerCmd <+: mem := not_prefix_of_isPrefix hw
  have hlcd : ¬ lcdCmd <+: mem := not_prefix_of_isPrefix hw
  rw [dispatchCommand, startsWith_eq h0, startsWith_eq h0,
    startsWith_eq h0, startsWith_eq h0]
  simp only [List.drop_zero, hbeagle, hpower, hlcd, hw, decide_true, decide_false, pure_bind,
    Bool.false_eq_true, if_false, if_true]

theorem dispatchCommand_quiet {mem : List Byte} (h0 : Nul mem 0) (hskip : SkipsInside mem)
    (hquiet : Quiet mem) :
    ∃ c, (c = .startBeagleWatchdog ∨ c = .stopBeagleWatchdog) ∧
      dispatchCommand mem = ⟨[.dispatch mem, .argument (watchdogCmd.length + 1)
        (text (mem.drop (watchdogCmd.length + 1))), .call c], .ret ⟨⟩⟩ := by
  obtain ⟨hw, hsub⟩ := hquiet
  have hcmd := hskip.watchdog hw
  rw [dispatchCommand_watchdog h0 hw, processWatchdogCommand, startsWith_eq hcmd,
    startsWith_eq hcmd]
  by_cases henable : watchdogEnable <+: mem.drop (watchdogCmd.length + 1)
  · refine ⟨.startBeagleWatchdog, .inl rfl, ?_⟩
    simp only [henable, decide_true, pure_bind, if_true]
    rfl
  · have hdisable := hsub.resolve_left henable
    refine ⟨.stopBeagleWatchdog, .inr rfl, ?_⟩
    simp only [henable, hdisable, decide_true, decide_false, pure_bind, Bool.false_eq_true,
      if_false, if_true]
    rfl

end BowerBird.Comms

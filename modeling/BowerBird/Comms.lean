import BowerBird.Firmware.Exec
import BowerBird.Firmware.Printf

/-!
# The command parser of the power board

The functions of `comms.c`, with the globals of that file as an explicit state.
A call is an `Exec`: its events are the accesses to `CommandBuffer` and the calls
it makes to other files. `LCD_Buffer` and `LCD_Lines` are only ever set to the
value they start with and never read, so they are not part of the state.

`WATCHDOG_RESET_ON_ALL_COMMS` is not defined and `NEW_CABLE` is, as in the source.
-/

namespace BowerBird.Comms

open Firmware Firmware.CString Firmware.Printf
set_option autoImplicit false

def maxLineLength : Nat := 1024

def commandPrefix : List Byte := ascii "avr://"

def watchdogCmd : List Byte := ascii "watchdog"
def watchdogEnable : List Byte := ascii "enable"
def watchdogDisable : List Byte := ascii "disable"
def watchdogPulse : List Byte := ascii "pulse"

def lcdCmd : List Byte := ascii "lcd"
def lcdClearCmd : List Byte := ascii "clear"
def powerLcd : List Byte := ascii "lcd"
def deviceNameLcd : List Byte := ascii "LCD Panel"

def beagleResetCmd : List Byte := ascii "REALLY reset the Beagleboard"
def beagleResetDurationInS : BitVec 32 := 10#32

def powerPinMic : Int := 0
def powerCmd : List Byte := ascii "power"
def powerOn : List Byte := ascii "on"
def powerOff : List Byte := ascii "off"
def powerMic : List Byte := ascii "usbmic"
def deviceNameMic : List Byte := ascii "USB Microphones"

def resetCmd : List Byte := ascii "REALLY reset the AVR"

def wdtTimeoutPeriodUs : Nat := 500000

/-- The calls a handler makes. A string argument is the text it points to. The bodies
of the watchdog and power-down functions are empty. -/
inductive Call where
  | writeStringToUSB (format : List Byte) (args : List Arg)
  | writeStringToLCD (format : List Byte) (args : List Arg)
  | startBeagleWatchdog
  | stopBeagleWatchdog
  | resetBeagleWatchdog
  | setDelayedBeaglePowerDown (waitSeconds powerDownSeconds : BitVec 32)
  | wdtEnable (usTimeoutPeriod : Nat)
  deriving Repr, DecidableEq

inductive Event where
  /-- `CommandBuffer[i] = b` -/
  | store (i : Nat) (b : Byte)
  /-- a complete line is looked up, with `CommandBuffer` as it is then -/
  | dispatch (mem : List Byte)
  /-- `CommandBuffer + p` is used as a string, which it is if it meets a NUL in the buffer -/
  | argument (p : Nat) (text : Option (List Byte))
  /-- `LCD_Buffer[0] = '\0'; LCD_Lines = 0` -/
  | clearLCD
  /-- `ProcessPowerCommand` is about to carry out a command -/
  | carryOut (newPowerState isOnPowerPort : Bool) (pin sw : Int)
  | call (c : Call)
  deriving Repr, DecidableEq

def Event.call? : Event → Option Call
  | .call c => some c
  | _ => none

def Event.dispatch? : Event → Option (List Byte)
  | .dispatch mem => some mem
  | _ => none

structure State where
  commandBuffer : Vector Byte maxLineLength
  commandBufferIndex : Nat
  commandPrefixIndex : Nat
  inCommand : Bool

def powerUp : State := ⟨Vector.replicate maxLineLength 0#8, 0, 0, false⟩

def store (buf : Vector Byte maxLineLength) (i : Nat) (b : Byte) :
    Exec Event (Vector Byte maxLineLength) := do
  Exec.emit (.store i b)
  if h : i < maxLineLength then pure (buf.set i b h) else Exec.fault

/-- `strncmp(CommandBuffer + p, kw, strlen(kw)) == 0` -/
def startsWith (mem : List Byte) (p : Nat) (kw : List Byte) : Exec Event Bool := do
  let r ← Exec.ofOption (strncmp (mem.drop p) (kw ++ [0#8]) kw.length)
  pure (r == 0)

/-- The callee reads the string at `CommandBuffer + p` up to its NUL. -/
def stringAt (mem : List Byte) (p : Nat) : Exec Event (List Byte) :=
  Exec.ofOption (text (mem.drop p))

def byteAt (mem : List Byte) (p : Nat) : Exec Event Byte := Exec.ofOption mem[p]?

/-- The pointer `CommandBuffer + p` is handed on as a string. -/
def argument (mem : List Byte) (p : Nat) : Exec Event PUnit :=
  Exec.emit (.argument p (text (mem.drop p)))

def writeStringToUSB (format : String) (args : List Arg) : Exec Event PUnit :=
  Exec.emit (.call (.writeStringToUSB (ascii format) args))

def writeStringToLCD (format : List Byte) (args : List Arg) : Exec Event PUnit :=
  Exec.emit (.call (.writeStringToLCD format args))

def processBeaglePowerDownCommand (mem : List Byte) (cmd : Nat) : Exec Event PUnit := do
  let s ← stringAt mem cmd
  writeStringToUSB "ProcessBeaglePowerDownCommand='%s'\r\n" [.str s]
  let waitSeconds := (strtoul s).1
  -- the second conversion starts where the first one stopped
  let p := (strtoul s).2
  let powerDownSeconds := if (strtoul p).1 = 0 then beagleResetDurationInS else (strtoul p).1
  writeStringToUSB "\r\nIn (%ld) seconds powering Beagleboard off for (%ld) seconds\r\n"
    [.word waitSeconds, .word powerDownSeconds]
  writeStringToLCD (ascii "Beagleboard -> wait") []
  Exec.emit (.call (.setDelayedBeaglePowerDown waitSeconds powerDownSeconds))

/-- The end of `ProcessPowerCommand`: carry out the command and report it. -/
def powerReport (newPowerState isOnPowerPort : Bool) (deviceName : List Byte) (pin sw : Int) :
    Exec Event PUnit := do
  Exec.emit (.carryOut newPowerState isOnPowerPort pin sw)
  writeStringToUSB "\r\nAVR Power System: Turned %s %s[%d] sw%d\r\n"
    [.str (if newPowerState then ascii "on" else ascii "off"), .str deviceName,
      .word (BitVec.ofInt 32 pin), .word (BitVec.ofInt 32 sw)]
  writeStringToLCD (ascii "%s: %s[%d] sw%d")
    [.str (if newPowerState then ascii "ON" else ascii "OFF"), .str deviceName,
      .word (BitVec.ofInt 32 pin), .word (BitVec.ofInt 32 sw)]

/-- `ProcessPowerCommand` from `sw = 0` on, where `cmd` points at the device. -/
def processPowerDevice (mem : List Byte) (newPowerState : Bool) (cmd : Nat) :
    Exec Event PUnit := do
  let c ← byteAt mem cmd
  if 0x31#8 ≤ c ∧ c ≤ 0x39#8 then
    let pin : Int := (c.toNat : Int) - 0x31
    -- `sw` is taken from the pin before the pin is renumbered for the new cable
    powerReport newPowerState true (ascii "pin") (7 - pin) (pin + 1)
  else if ← startsWith mem cmd powerMic then
    powerReport newPowerState true deviceNameMic powerPinMic 0
  else if ← startsWith mem cmd powerLcd then
    powerReport newPowerState false deviceNameLcd 0 0
  else
    let s ← stringAt mem cmd
    writeStringToUSB "\r\nGot request to turn %s unknown device: '%s'\r\n"
      [.str (if newPowerState then ascii "on" else ascii "off"), .str s]
    writeStringToLCD (ascii "Unknown power device:") []
    writeStringToLCD s []

def processPowerCommand (mem : List Byte) (cmd : Nat) : Exec Event PUnit := do
  if ← startsWith mem cmd powerOn then
    argument mem (cmd + powerOn.length + 1)
    processPowerDevice mem true (cmd + powerOn.length + 1)
  else if ← startsWith mem cmd powerOff then
    argument mem (cmd + powerOff.length + 1)
    processPowerDevice mem false (cmd + powerOff.length + 1)
  else
    let s ← stringAt mem cmd
    writeStringToUSB "\r\nGot unrecognised POWER command '%s'\r\n" [.str s]
    writeStringToLCD (ascii "Unknown power command:") []
    writeStringToLCD s []

def processLCDCommand (mem : List Byte) (cmd : Nat) : Exec Event PUnit := do
  if ← startsWith mem cmd lcdClearCmd then
    Exec.emit .clearLCD
    writeStringToUSB "\r\nCleared LCD screen\r\n" []
  else
    let s ← stringAt mem cmd
    writeStringToLCD s []
    writeStringToUSB "\r\nSent to LCD: '%s'\r\n" [.str s]

def processWatchdogCommand (mem : List Byte) (cmd : Nat) : Exec Event PUnit := do
  if ← startsWith mem cmd watchdogEnable then
    Exec.emit (.call .startBeagleWatchdog)
  else if ← startsWith mem cmd watchdogDisable then
    Exec.emit (.call .stopBeagleWatchdog)
  else if ← startsWith mem cmd watchdogPulse then
    Exec.emit (.call .resetBeagleWatchdog)
    writeStringToUSB "WATCHDOG pulse\n" []
    writeStringToLCD (ascii "WATCHDOG pulse\n") []
  else
    let s ← stringAt mem cmd
    writeStringToUSB "\r\nGot unrecognised WATCHDOG command '%s'\r\n" [.str s]
    writeStringToLCD (ascii "Unknown watchdog command:") []
    writeStringToLCD s []

/-- The AVR resets half a second into `while (1)`. -/
def processResetCommand : Exec Event PUnit := do
  Exec.emit (.call (.wdtEnable wdtTimeoutPeriodUs))
  Exec.hang

/-- The keyword chain of `ProcessByte`, on a line that ends in a NUL. -/
def dispatchCommand (mem : List Byte) : Exec Event PUnit := do
  Exec.emit (.dispatch mem)
  if ← startsWith mem 0 beagleResetCmd then
    argument mem (beagleResetCmd.length + 1)
    processBeaglePowerDownCommand mem (beagleResetCmd.length + 1)
  else if ← startsWith mem 0 powerCmd then
    argument mem (powerCmd.length + 1)
    processPowerCommand mem (powerCmd.length + 1)
  else if ← startsWith mem 0 lcdCmd then
    argument mem (lcdCmd.length + 1)
    processLCDCommand mem (lcdCmd.length + 1)
  else if ← startsWith mem 0 watchdogCmd then
    argument mem (watchdogCmd.length + 1)
    processWatchdogCommand mem (watchdogCmd.length + 1)
  else if ← startsWith mem 0 resetCmd then
    processResetCommand
  else
    let s ← stringAt mem 0
    writeStringToUSB "\r\nGot unknown AVR command '%s'\r\n" [.str s]
    writeStringToLCD (ascii "Unknown command:") []
    writeStringToLCD s []

def isLineEnd (b : Byte) : Bool := b = 0x0a#8 ∨ b = 0x0d#8

def processByte (s : State) (b : Byte) : Exec Event State :=
  if s.inCommand then
    if isLineEnd b then do
      let buf ← store s.commandBuffer s.commandBufferIndex 0#8
      dispatchCommand buf.toList
      pure { s with commandBuffer := buf, commandBufferIndex := 0, inCommand := false }
    else if s.commandBufferIndex < maxLineLength then do
      let buf ← store s.commandBuffer s.commandBufferIndex b
      pure { s with commandBuffer := buf, commandBufferIndex := s.commandBufferIndex + 1 }
    else pure s
  else do
    -- the literal `COMMAND_PREFIX` has a NUL behind its last character
    let c ← Exec.ofOption (commandPrefix ++ [0#8])[s.commandPrefixIndex]?
    if b = c then
      if commandPrefix.length ≤ s.commandPrefixIndex + 1 then
        pure { s with commandPrefixIndex := 0, inCommand := true }
      else pure { s with commandPrefixIndex := s.commandPrefixIndex + 1 }
    else pure { s with commandPrefixIndex := 0 }

def feed (s : State) (bs : List Byte) : Exec Event State := Exec.feed processByte s bs

/-- The states between two calls of `ProcessByte`, in runs that are defined so far. -/
def Reachable (s : State) : Prop := ∃ bs, (feed powerUp bs).outcome = .ret s

/-- Waiting for a command prefix, with nothing of it seen. -/
def Idle (s : State) : Prop := s.inCommand = false ∧ s.commandPrefixIndex = 0

end BowerBird.Comms

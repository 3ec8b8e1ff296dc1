import BowerBird.Comms
import BowerBird.Firmware.Runs
import BowerBird.Firmware.Buffers

/-!
# The main loop of the power board

The interrupt handler and the main loop of `main.c` beside the USART they read
and write. An input lets one of the parties go on: a character arrives, the
interrupt is taken, the handler reads once, or the main loop runs its next block.

A busy-wait consumes the answers of `udi_cdc_is_tx_ready` one by one. A list of
answers that runs out leaves the main loop inside the wait.
-/

namespace BowerBird.Power

open Firmware Firmware.CString Firmware.Printf
set_option autoImplicit false

def fifoBufferSize : Nat := 64

inductive Line where
  | good (b : Byte)
  | framingError (b : Byte)
  | parityError (b : Byte)
  deriving Repr, DecidableEq

def Line.byte : Line → Byte
  | .good b => b
  | .framingError b => b
  | .parityError b => b

/-- The receiver holds one unread character and three error flags. Nothing in the
program resets the flags. -/
structure Usart where
  rhr : Option Byte
  ovre : Bool
  frame : Bool
  pare : Bool
  deriving Repr, DecidableEq

def Usart.error (u : Usart) : Bool := u.ovre || u.frame || u.pare

/-- A character that finds another one unread takes its place. -/
def Usart.receive (u : Usart) (c : Line) : Usart where
  rhr := some c.byte
  ovre := u.ovre || u.rhr.isSome
  frame := u.frame || c matches .framingError _
  pare := u.pare || c matches .parityError _

inductive ReadResult where
  | success (b : Byte)
  | rxError
  | rxEmpty
  deriving Repr, DecidableEq

def usartReadChar (u : Usart) : ReadResult × Usart :=
  if u.error then (.rxError, u)
  else
    match u.rhr with
    | some b => (.success b, { u with rhr := none })
    | none => (.rxEmpty, u)

/-- The block of `main_loop` that comes next. `waiting` is a main loop that has not
come back from the handling of a byte. -/
inductive Block where
  | usbInput
  | usartOutput
  | beagleInput
  | waiting
  deriving Repr, DecidableEq

structure Board where
  usart : Usart
  inHandler : Bool
  beagleInFIFO : Fifo fifoBufferSize Byte
  beagleOutFIFO : Fifo fifoBufferSize Byte
  comms : Comms.State
  next : Block

inductive Event where
  /-- a character arrives: whether `beagleInFIFO` is full, and whether another one is unread -/
  | received (c : Line) (fifoFull overrun : Bool)
  /-- `usart_int_handler` returns and leaves this character unread -/
  | handlerReturned (unread : Option Byte)
  /-- `udi_cdc_getc` -/
  | getc (b : Byte)
  /-- `usart_write_char` -/
  | usartWriteChar (b : Byte)
  | processByte (b : Byte)
  /-- `udi_cdc_putc` -/
  | putc (b : Byte)
  deriving Repr, DecidableEq

/-- What the main loop finds: the byte the USB host sends if `udi_cdc_is_rx_ready`,
`usart_tx_ready`, and the answers of `udi_cdc_is_tx_ready` from here on. -/
structure Env where
  rx : Option Byte
  usartTxReady : Bool
  cdcTxReady : List Bool

inductive Input where
  | receive (c : Line)
  | interrupt
  | handlerRead
  | mainLoop (env : Env)

def powerUp : Board where
  usart := ⟨none, false, false, false⟩
  inHandler := false
  beagleInFIFO := .empty
  beagleOutFIFO := .empty
  comms := Comms.powerUp
  next := .usbInput

def handlerRead (b : Board) : Exec Event Board :=
  match usartReadChar b.usart with
  | (.success c, u) => pure { b with usart := u, beagleInFIFO := b.beagleInFIFO.push c }
  | (_, u) => do
    Exec.emit (.handlerReturned u.rhr)
    pure { b with usart := u, inHandler := false }

/-- `while (!udi_cdc_is_tx_ready());` -/
def waitTxReady : List Bool → Exec Event (List Bool)
  | [] => Exec.hang
  | true :: answers => pure answers
  | false :: answers => waitTxReady answers

def putString : List Byte → List Bool → Exec Event (List Bool)
  | [], answers => pure answers
  | c :: cs, answers => do
    let answers ← waitTxReady answers
    Exec.emit (.putc c)
    putString cs answers

def writeStringToUSB (format : List Byte) (args : List Arg) (answers : List Bool) :
    Exec Event (List Bool) := do
  let string ← Exec.ofOption (vsnprintf Comms.maxLineLength format args)
  -- `strlen` stops at a NUL that a directive put there
  putString (string.takeWhile (· ≠ 0#8)) answers

def perform (c : Comms.Call) (answers : List Bool) : Exec Event (List Bool) :=
  match c with
  | .writeStringToUSB format args => writeStringToUSB format args answers
  | .writeStringToLCD _ _ => pure answers
  | .startBeagleWatchdog => pure answers
  | .stopBeagleWatchdog => pure answers
  | .resetBeagleWatchdog => pure answers
  | .setDelayedBeaglePowerDown _ _ => pure answers
  | .wdtEnable _ => pure answers

def performAll : List Comms.Call → List Bool → Exec Event (List Bool)
  | [], answers => pure answers
  | c :: cs, answers => do
    let answers ← perform c answers
    performAll cs answers

/-- `ProcessByte` with the calls it makes, none of which touches the state of the parser. -/
def processByte (s : Comms.State) (c : Byte) (answers : List Bool) :
    Exec Event (Comms.State × List Bool) := do
  let x := Comms.processByte s c
  let answers ← performAll (x.events.filterMap Comms.Event.call?) answers
  let s ← Exec.ofOutcome x.outcome
  pure (s, answers)

/-- The echo asks `udi_cdc_is_tx_ready` once. -/
def echo (c : Byte) : List Bool → Exec Event PUnit
  | [] => Exec.hang
  | true :: _ => Exec.emit (.putc c)
  | false :: _ => pure ⟨⟩

def handleByte (s : Comms.State) (c : Byte) (answers : List Bool) : Exec Event Comms.State := do
  Exec.emit (.processByte c)
  let (s, answers) ← processByte s c answers
  echo c answers
  pure s

def mainLoop (b : Board) (env : Env) : Exec Event Board :=
  match b.next with
  | .usbInput =>
    match env.rx with
    | some c => do
      Exec.emit (.getc c)
      pure { b with beagleOutFIFO := b.beagleOutFIFO.push c, next := .usartOutput }
    | none => pure { b with next := .usartOutput }
  | .usartOutput =>
    match b.beagleOutFIFO.pull?, env.usartTxReady with
    | some (c, q), true => do
      Exec.emit (.usartWriteChar c)
      pure { b with beagleOutFIFO := q, next := .beagleInput }
    | _, _ => pure { b with next := .beagleInput }
  | .beagleInput =>
    match b.beagleInFIFO.pull? with
    | some (c, q) =>
      match handleByte b.comms c env.cdcTxReady with
      | ⟨es, .ret s⟩ => ⟨es, .ret { b with beagleInFIFO := q, comms := s, next := .usbInput }⟩
      | ⟨es, .hang⟩ => ⟨es, .ret { b with beagleInFIFO := q, next := .waiting }⟩
      | ⟨es, .fault⟩ => ⟨es, .fault⟩
    | none => pure { b with next := .usbInput }
  | .waiting => pure b

/-- The handler runs to its end before the main loop goes on. An interrupt inside a
block would only add to `beagleInFIFO`, which the block does not look at again, so
it can as well come after it. -/
def step (b : Board) : Input → Exec Event Board
  | .receive c => do
    Exec.emit (.received c (b.beagleInFIFO.contents.length == fifoBufferSize) b.usart.rhr.isSome)
    pure { b with usart := b.usart.receive c }
  | .interrupt => pure { b with inHandler := true }
  | .handlerRead => if b.inHandler then handlerRead b else pure b
  | .mainLoop env => if b.inHandler then pure b else mainLoop b env

end BowerBird.Power

import BowerBird.CommsLines
import BowerBird.Firmware.Runs

/-!
# What the command interpreter is asked to do

A request is the meaning of a command, and its effects are what the program does
for it. The interpreter does for the contents of its buffer what they request,
as long as each skip past a keyword lands before a NUL.
-/

namespace BowerBird.Comms

open Firmware Firmware.CString Firmware.Exec Firmware.Printf
set_option autoImplicit false

inductive Device where
  /-- a line of the power port, by the number of its switch -/
  | switch (d : Nat) (h : 1 ≤ d ∧ d ≤ 9)
  | usbMic
  | lcdPanel
  deriving Repr, DecidableEq

inductive Request where
  | powerDown (argument : List Byte)
  | turn (on : Bool) (device : Device)
  | unknownDevice (on : Bool) (name : List Byte)
  | unknownPower (argument : List Byte)
  | clearLCD
  | sendToLCD (text : List Byte)
  | enableWatchdog
  | disableWatchdog
  | pulseWatchdog
  | unknownWatchdog (argument : List Byte)
  | resetAVR
  | unknown (line : List Byte)
  deriving Repr, DecidableEq

def Device.name : Device → List Byte
  | .switch _ _ => ascii "pin"
  | .usbMic => deviceNameMic
  | .lcdPanel => deviceNameLcd

def Device.isOnPowerPort : Device → Bool
  | .lcdPanel => false
  | _ => true

/-- The new cable has the lines of the power port in reverse order. -/
def Device.pin : Device → Int
  | .switch d _ => 8 - d
  | _ => 0

def Device.sw : Device → Int
  | .switch d _ => d
  | _ => 0

def waitSeconds (argument : List Byte) : BitVec 32 := (strtoul argument).1

def powerDownSeconds (argument : List Byte) : BitVec 32 :=
  if (strtoul (strtoul argument).2).1 = 0 then beagleResetDurationInS
  else (strtoul (strtoul argument).2).1

def reportToUSB (format : String) (args : List Arg) : Event :=
  .call (.writeStringToUSB (ascii format) args)

def reportToLCD (format : List Byte) (args : List Arg) : Event :=
  .call (.writeStringToLCD format args)

/-- The report of a text that the interpreter does not know. -/
def refusal (format : String) (args : List Arg) (heading : String) (s : List Byte) : List Event :=
  [reportToUSB format args, reportToLCD (ascii heading) [], reportToLCD s []]

def onOff (on : Bool) : List Byte := if on then ascii "on" else ascii "off"

def Request.effects : Request → List Event
  | .powerDown s =>
    [reportToUSB "ProcessBeaglePowerDownCommand='%s'\r\n" [.str s],
      reportToUSB "\r\nIn (%ld) seconds powering Beagleboard off for (%ld) seconds\r\n"
        [.word (waitSeconds s), .word (powerDownSeconds s)],
      reportToLCD (ascii "Beagleboard -> wait") [],
      .call (.setDelayedBeaglePowerDown (waitSeconds s) (powerDownSeconds s))]
  | .turn on d =>
    [.carryOut on d.isOnPowerPort d.pin d.sw,
      reportToUSB "\r\nAVR Power System: Turned %s %s[%d] sw%d\r\n"
        [.str (onOff on), .str d.name, .word (BitVec.ofInt 32 d.pin), .word (BitVec.ofInt 32 d.sw)],
      reportToLCD (ascii "%s: %s[%d] sw%d")
        [.str (if on then ascii "ON" else ascii "OFF"), .str d.name,
          .word (BitVec.ofInt 32 d.pin), .word (BitVec.ofInt 32 d.sw)]]
  | .unknownDevice on s =>
    refusal "\r\nGot request to turn %s unknown device: '%s'\r\n" [.str (onOff on), .str s]
      "Unknown power device:" s
  | .unknownPower s =>
    refusal "\r\nGot unrecognised POWER command '%s'\r\n" [.str s] "Unknown power command:" s
  | .clearLCD => [.clearLCD, reportToUSB "\r\nCleared LCD screen\r\n" []]
  | .sendToLCD s => [reportToLCD s [], reportToUSB "\r\nSent to LCD: '%s'\r\n" [.str s]]
  | .enableWatchdog => [.call .startBeagleWatchdog]
  | .disableWatchdog => [.call .stopBeagleWatchdog]
  | .pulseWatchdog =>
    [.call .resetBeagleWatchdog, reportToUSB "WATCHDOG pulse\n" [],
      reportToLCD (ascii "WATCHDOG pulse\n") []]
  | .unknownWatchdog s =>
    refusal "\r\nGot unrecognised WATCHDOG command '%s'\r\n" [.str s] "Unknown watchdog command:" s
  | .resetAVR => [.call (.wdtEnable wdtTimeoutPeriodUs)]
  | .unknown s => refusal "\r\nGot unknown AVR command '%s'\r\n" [.str s] "Unknown command:" s

/-- Only the reset command does not come back. -/
def Request.outcome : Request → Outcome PUnit
  | .resetAVR => .hang
  | _ => .ret ⟨⟩

theorem Request.outcome_of_ne {r : Request} (h : r ≠ .resetAVR) : r.outcome = .ret ⟨⟩ := by
  cases r with
  | resetAVR => exact absurd rfl h
  | _ => rfl

def Event.effect? : Event → Option Event
  | .clearLCD => some .clearLCD
  | .carryOut newPowerState isOnPowerPort pin sw => some (.carryOut newPowerState isOnPowerPort pin sw)
  | .call c => some (.call c)
  | _ => none

def textAt (mem : List Byte) (p : Nat) : List Byte := (mem.drop p).takeWhile (· ≠ 0#8)

theorem switch_of_digit {c : Byte} (h : 0x31#8 ≤ c ∧ c ≤ 0x39#8) :
    1 ≤ c.toNat - 0x30 ∧ c.toNat - 0x30 ≤ 9 := by
  have hlow := BitVec.le_def.mp h.1
  have hhigh := BitVec.le_def.mp h.2
  simp only [BitVec.toNat_ofNat] at hlow hhigh
  omega

def device? (name : List Byte) : Option Device :=
  match name with
  | [] => none
  | c :: _ =>
    if h : 0x31#8 ≤ c ∧ c ≤ 0x39#8 then
      some (.switch (c.toNat - 0x30) (switch_of_digit h))
    else if powerMic <+: name then some .usbMic
    else if powerLcd <+: name then some .lcdPanel
    else none

def powerRequest (on : Bool) (name : List Byte) : Request :=
  match device? name with
  | some d => .turn on d
  | none => .unknownDevice on name

/-- What the contents of the buffer request. -/
def request (mem : List Byte) : Request :=
  if beagleResetCmd <+: mem then .powerDown (textAt mem (beagleResetCmd.length + 1))
  else if powerCmd <+: mem then
    if powerOn <+: mem.drop (powerCmd.length + 1) then
      powerRequest true (textAt mem (powerCmd.length + 1 + powerOn.length + 1))
    else if powerOff <+: mem.drop (powerCmd.length + 1) then
      powerRequest false (textAt mem (powerCmd.length + 1 + powerOff.length + 1))
    else .unknownPower (textAt mem (powerCmd.length + 1))
  else if lcdCmd <+: mem then
    if lcdClearCmd <+: mem.drop (lcdCmd.length + 1) then .clearLCD
    else .sendToLCD (textAt mem (lcdCmd.length + 1))
  else if watchdogCmd <+: mem then
    if watchdogEnable <+: mem.drop (watchdogCmd.length + 1) then .enableWatchdog
    else if watchdogDisable <+: mem.drop (watchdogCmd.length + 1) then .disableWatchdog
    else if watchdogPulse <+: mem.drop (watchdogCmd.length + 1) then .pulseWatchdog
    else .unknownWatchdog (textAt mem (watchdogCmd.length + 1))
  else if resetCmd <+: mem then .resetAVR
  else .unknown (textAt mem 0)

example : request (ascii "power on 3" ++ [0#8]) = .turn true (.switch 3 (by decide)) := by
  decide +kernel

/-- The call ends as the request demands, and has its effects. -/
def Does (x : Exec Event PUnit) (r : Request) : Prop :=
  x.outcome = r.outcome ∧ seen Event.effect? x = r.effects

theorem text_eq_textAt {mem : List Byte} {p : Nat} (h : Nul mem p) :
    text (mem.drop p) = some (textAt mem p) := by
  obtain ⟨t, ht⟩ := Option.isSome_iff_exists.mp (text_isSome_iff.mpr h)
  obtain ⟨hnul, rest, heq⟩ := text_eq_some_iff.mp ht
  rw [ht, textAt, heq, List.takeWhile_append_of_pos]
  · simp
  · intro b hb
    rw [decide_eq_true_eq]
    rintro rfl
    exact hnul hb

theorem stringAt_textAt {mem : List Byte} {p : Nat} (h : Nul mem p) :
    stringAt mem p = pure (textAt mem p) := by
  rw [stringAt, text_eq_textAt h, ofOption_some]

theorem drop_eq_textAt {mem : List Byte} {p : Nat} (h : Nul mem p) :
    ∃ rest, mem.drop p = textAt mem p ++ 0#8 :: rest :=
  (text_eq_some_iff.mp (text_eq_textAt h)).2

theorem does_argument {mem : List Byte} {p : Nat} {x : Exec Event PUnit} {r : Request}
    (h : Does x r) : Does (argument mem p >>= fun _ => x) r := by
  rw [argument, emit_bind]
  exact ⟨h.1, h.2⟩

theorem does_if {mem kw : List Byte} {p : Nat} {x y : Exec Event PUnit} {r r' : Request}
    (h : Nul mem p) (hx : kw <+: mem.drop p → Does x r) (hy : ¬ kw <+: mem.drop p → Does y r')
    (hkw : 0#8 ∉ kw := by decide) :
    Does (startsWith mem p kw >>= fun b => if b then x else y)
      (if kw <+: mem.drop p then r else r') := by
  rw [startsWith_eq h hkw, pure_bind]
  by_cases hpre : kw <+: mem.drop p
  · simp only [hpre, decide_true, if_true]
    exact hx hpre
  · simp only [hpre, decide_false, Bool.false_eq_true, if_false]
    exact hy hpre

theorem does_stringAt {mem : List Byte} {p : Nat} {f : List Byte → Exec Event PUnit} {r : Request}
    (h : Nul mem p) (hf : Does (f (textAt mem p)) r) : Does (stringAt mem p >>= f) r := by
  rw [stringAt_textAt h, pure_bind]
  exact hf

section Handlers
variable {mem : List Byte} {cmd : Nat}

theorem processBeaglePowerDownCommand_does (h : Nul mem cmd) :
    Does (processBeaglePowerDownCommand mem cmd) (.powerDown (textAt mem cmd)) :=
  does_stringAt h ⟨rfl, rfl⟩

theorem byteAt_head {c : Byte} {cs : List Byte} (h : mem.drop cmd = c :: cs) :
    byteAt mem cmd = pure c := by
  rw [byteAt, ← List.head?_drop, h]
  rfl

theorem device?_switch {c : Byte} (cs : List Byte) (hdigit : 0x31#8 ≤ c ∧ c ≤ 0x39#8) :
    ∃ hd, device? (c :: cs) = some (.switch (c.toNat - 0x30) hd) :=
  ⟨_, dif_pos hdigit⟩

theorem device?_name {name : List Byte}
    (h : ∀ c cs, name = c :: cs → ¬ (0x31#8 ≤ c ∧ c ≤ 0x39#8)) :
    device? name =
      if powerMic <+: name then some .usbMic
      else if powerLcd <+: name then some .lcdPanel
      else none := by
  cases name with
  | nil => rfl
  | cons c cs => exact dif_neg (h c cs rfl)

theorem powerRequest_name (on : Bool) {name : List Byte}
    (h : ∀ c cs, name = c :: cs → ¬ (0x31#8 ≤ c ∧ c ≤ 0x39#8)) :
    powerRequest on name =
      if powerMic <+: name then .turn on .usbMic
      else if powerLcd <+: name then .turn on .lcdPanel
      else .unknownDevice on name := by
  rw [powerRequest, device?_name h]
  by_cases hmic : powerMic <+: name
  · simp only [hmic, if_true]
  · by_cases hlcd : powerLcd <+: name
    · simp only [hmic, hlcd, if_true, if_false]
    · simp only [hmic, hlcd, if_false]

theorem isPrefix_drop_iff {kw : List Byte} (h : Nul mem cmd) (hkw : 0#8 ∉ kw := by decide) :
    kw <+: mem.drop cmd ↔ kw <+: textAt mem cmd := by
  obtain ⟨rest, hrest⟩ := drop_eq_textAt h
  rw [hrest, prefix_of_prefix_line hkw]

theorem processPowerDevice_does (newPowerState : Bool) (h : Nul mem cmd) :
    Does (processPowerDevice mem newPowerState cmd)
      (powerRequest newPowerState (textAt mem cmd)) := by
  obtain ⟨rest, hrest⟩ := drop_eq_textAt h
  obtain ⟨c, cs, hc⟩ := List.exists_cons_of_length_pos (List.length_pos_of_mem h)
  rw [processPowerDevice, byteAt_head hc, pure_bind]
  rw [hrest] at hc
  by_cases hdigit : 0x31#8 ≤ c ∧ c ≤ 0x39#8
  · obtain ⟨ds, hds⟩ : ∃ ds, textAt mem cmd = c :: ds := by
      cases htext : textAt mem cmd with
      | nil =>
        rw [htext, List.nil_append, List.cons.injEq] at hc
        rw [← hc.1] at hdigit
        exact absurd hdigit (by decide)
      | cons d ds =>
        rw [htext, List.cons_append, List.cons.injEq] at hc
        exact ⟨ds, by rw [hc.1]⟩
    obtain ⟨hd, hdevice⟩ := device?_switch ds hdigit
    have hpin : (7 : Int) - (c.toNat - 0x31) = 8 - ((c.toNat - 0x30 : Nat) : Int) := by omega
    have hsw : (c.toNat : Int) - 0x31 + 1 = ((c.toNat - 0x30 : Nat) : Int) := by omega
    rw [if_pos hdigit, hds, powerRequest, hdevice]
    simp only [hpin, hsw]
    exact ⟨rfl, rfl⟩
  · have hname : ∀ d ds, textAt mem cmd = d :: ds → ¬ (0x31#8 ≤ d ∧ d ≤ 0x39#8) := by
      intro d ds htext
      rw [htext, List.cons_append, List.cons.injEq] at hc
      rwa [hc.1]
    rw [if_neg hdigit, powerRequest_name newPowerState hname]
    have hmic : powerMic <+: mem.drop cmd ↔ powerMic <+: textAt mem cmd := isPrefix_drop_iff h
    have hlcd : powerLcd <+: mem.drop cmd ↔ powerLcd <+: textAt mem cmd := isPrefix_drop_iff h
    simp only [← hmic, ← hlcd]
    refine does_if h (fun _ => ⟨rfl, rfl⟩) fun _ => ?_
    refine does_if h (fun _ => ⟨rfl, rfl⟩) fun _ => ?_
    exact does_stringAt h ⟨rfl, rfl⟩

theorem processPowerCommand_does (h : Nul mem cmd)
    (hon : powerOn <+: mem.drop cmd → Nul mem (cmd + powerOn.length + 1))
    (hoff : powerOff <+: mem.drop cmd → Nul mem (cmd + powerOff.length + 1)) :
    Does (processPowerCommand mem cmd)
      (if powerOn <+: mem.drop cmd then
        powerRequest true (textAt mem (cmd + powerOn.length + 1))
      else if powerOff <+: mem.drop cmd then
        powerRequest false (textAt mem (cmd + powerOff.length + 1))
      else .unknownPower (textAt mem cmd)) := by
  refine does_if h (fun hpre => ?_) fun _ => ?_
  · exact does_argument (processPowerDevice_does true (hon hpre))
  refine does_if h (fun hpre => ?_) fun _ => ?_
  · exact does_argument (processPowerDevice_does false (hoff hpre))
  exact does_stringAt h ⟨rfl, rfl⟩

theorem processLCDCommand_does (h : Nul mem cmd) :
    Does (processLCDCommand mem cmd)
      (if lcdClearCmd <+: mem.drop cmd then .clearLCD else .sendToLCD (textAt mem cmd)) := by
  refine does_if h (fun _ => ⟨rfl, rfl⟩) fun _ => ?_
  exact does_stringAt h ⟨rfl, rfl⟩

theorem processWatchdogCommand_does (h : Nul mem cmd) :
    Does (processWatchdogCommand mem cmd)
      (if watchdogEnable <+: mem.drop cmd then .enableWatchdog
      else if watchdogDisable <+: mem.drop cmd then .disableWatchdog
      else if watchdogPulse <+: mem.drop cmd then .pulseWatchdog
      else .unknownWatchdog (textAt mem cmd)) := by
  refine does_if h (fun _ => ⟨rfl, rfl⟩) fun _ => ?_
  refine does_if h (fun _ => ⟨rfl, rfl⟩) fun _ => ?_
  refine does_if h (fun _ => ⟨rfl, rfl⟩) fun _ => ?_
  exact does_stringAt h ⟨rfl, rfl⟩

end Handlers

theorem dispatchCommand_does {mem : List Byte} (h0 : Nul mem 0) (hskip : SkipsInside mem) :
    Does (dispatchCommand mem) (request mem) := by
  have hchain : ∀ {x : Exec Event PUnit}, Does x (request mem) →
      Does (Exec.emit (.dispatch mem) >>= fun _ => x) (request mem) :=
    fun h => ⟨h.1, h.2⟩
  apply hchain
  refine does_if h0 (fun hpre => ?_) fun _ => ?_
  · exact does_argument (processBeaglePowerDownCommand_does (hskip.beagle hpre))
  refine does_if h0 (fun hpre => ?_) fun _ => ?_
  · exact does_argument (processPowerCommand_does (hskip.power hpre) (hskip.on hpre) (hskip.off hpre))
  refine does_if h0 (fun hpre => ?_) fun _ => ?_
  · exact does_argument (processLCDCommand_does (hskip.lcd hpre))
  refine does_if h0 (fun hpre => ?_) fun _ => ?_
  · exact does_argument (processWatchdogCommand_does (hskip.watchdog hpre))
  refine does_if h0 (fun _ => ⟨rfl, rfl⟩) fun _ => ?_
  exact does_stringAt h0 ⟨rfl, rfl⟩

/-- The request that a byte completes, if it ends a line that fits. -/
def completed (s : State) (b : Byte) : Option Request :=
  if s.inCommand = true ∧ isLineEnd b = true ∧ s.commandBufferIndex < maxLineLength then
    some (request (s.commandBuffer.setIfInBounds s.commandBufferIndex 0#8).toList)
  else none

theorem processByte_does {s : State} {line : List Byte} {b : Byte} (h : Tracks s (.reading line))
    (hfit : Short line) (hb : isLineEnd b = true) :
    ∃ mem, mem = line ++ 0#8 :: s.commandBuffer.toList.drop (line.length + 1) ∧
      completed s b = some (request mem) ∧
      seen Event.effect? (processByte s b) = (request mem).effects ∧
      (request mem = .resetAVR → (processByte s b).outcome = .hang) ∧
      (request mem ≠ .resetAVR → ∃ t, (processByte s b).outcome = .ret t ∧ Idle t) := by
  obtain ⟨hidx, htake⟩ := tracks_reading h hfit
  obtain ⟨buf, hbuf, hnul, heq⟩ := processByte_lineEnd h hfit hb
  have hroom : line.length < maxLineLength := hfit
  have hset : (s.commandBuffer.setIfInBounds line.length 0#8).toList = buf.toList := by
    rw [Vector.toList_setIfInBounds, List.set_eq_take_append_cons_drop, htake, hbuf, if_pos]
    rwa [Vector.length_toList]
  obtain ⟨hout, hseen⟩ := dispatchCommand_does hnul.start (.of_last hnul)
  refine ⟨buf.toList, hbuf, ?_, ?_, ?_, ?_⟩
  · rw [completed, hidx, if_pos ⟨h.1, hb, hroom⟩, hset]
  all_goals rw [heq, emit_bind]
  · rw [← hseen]
    rcases dispatchCommand buf.toList with ⟨es, _ | _ | _⟩ <;>
      simp [seen, pure_def, List.filterMap_cons, Event.effect?]
  · intro hreset
    rw [hreset] at hout
    rcases hx : dispatchCommand buf.toList with ⟨es, _ | _ | _⟩ <;> rw [hx] at hout <;> cases hout
    rfl
  · intro hgoes
    have hret := hout.trans (Request.outcome_of_ne hgoes)
    rcases hx : dispatchCommand buf.toList with ⟨es, _ | _ | _⟩ <;> rw [hx] at hret <;> cases hret
    exact ⟨_, rfl, rfl, h.2.1⟩

theorem store_stores (buf : Vector Byte maxLineLength) (i : Nat) (b : Byte) :
    (store buf i b).Always fun e => ∃ j c, e = .store j c := by
  apply Always.bind
  · exact Always.emit ⟨i, b, rfl⟩
  · intro _
    split
    · exact Always.pure _
    · exact Always.fault

theorem processByte_stores (s : State) {b : Byte} (h : isLineEnd b = false ∨ s.inCommand = false) :
    (processByte s b).Always fun e => ∃ j c, e = .store j c := by
  unfold processByte
  split
  · rename_i hin
    have hb : isLineEnd b = false := by
      rcases h with h | h
      · exact h
      · rw [hin] at h
        cases h
    rw [hb, if_neg Bool.false_ne_true]
    split
    · exact (store_stores _ _ _).bind fun _ => Always.pure _
    · exact Always.pure _
  · apply Always.bind
    · exact Always.ofOption _
    · intro c
      split
      · split
        · exact Always.pure _
        · exact Always.pure _
      · exact Always.pure _

theorem processByte_silent (s : State) {b : Byte} (h : isLineEnd b = false ∨ s.inCommand = false) :
    (processByte s b).Always fun e => e.effect? = none := by
  intro e he
  obtain ⟨i, c, rfl⟩ := processByte_stores s h e he
  rfl

theorem seen_of_silent {α : Type} {x : Exec Event α} (h : x.Always fun e => e.effect? = none) :
    seen Event.effect? x = [] :=
  List.filterMap_eq_nil_iff.mpr h

/-- In every reachable state, the effects of a byte are those of the request it completes. -/
theorem processByte_effects {s : State} (hs : Reachable s) (b : Byte) :
    seen Event.effect? (processByte s b) = (completed s b).elim [] Request.effects := by
  obtain ⟨m, hm⟩ := hs.tracks
  by_cases hend : isLineEnd b = true ∧ s.inCommand = true
  · cases m with
    | hunting k =>
      have hin := hm.1
      rw [hend.2] at hin
      cases hin
    | stopped => exact absurd hm id
    | reading line =>
      by_cases hfit : Short line
      · obtain ⟨mem, -, hcompleted, hseen, -⟩ := processByte_does hm hfit hend.1
        rw [hcompleted, hseen]
        rfl
      · have hfull : ¬ s.commandBufferIndex < maxLineLength :=
          fun hidx => hfit (short_of_tracks hm hidx)
        rw [processByte_overlong hm hfit hend.1, completed, if_neg fun h => hfull h.2.2]
        rfl
  · have hsilent : isLineEnd b = false ∨ s.inCommand = false := by
      cases hb : isLineEnd b with
      | false => exact .inl rfl
      | true =>
        cases hin : s.inCommand with
        | false => exact .inr rfl
        | true => exact absurd ⟨hb, hin⟩ hend
    rw [seen_of_silent (processByte_silent s hsilent), completed, if_neg fun h => hend ⟨h.2.1, h.1⟩]
    rfl

theorem Runs.reachable {bs : List Byte} {es : List Event} {s : State}
    (h : Runs processByte powerUp bs es s) : Reachable s :=
  ⟨bs, by rw [feed, h]⟩

theorem effect?_eq_some {e e' : Event} (h : e.effect? = some e') : e' = e := by
  cases e <;> cases h <;> rfl

theorem seen_eq_effects {κ α : Type} {view : Event → Option κ}
    (hview : ∀ e, e.effect? = none → view e = none) (x : Exec Event α) :
    seen view x = (seen Event.effect? x).filterMap view := by
  unfold seen
  rw [List.filterMap_filterMap]
  congr 1
  funext e
  cases he : e.effect? with
  | none => exact hview e he
  | some e' => rw [effect?_eq_some he, Option.bind_some]

theorem always_iff_effects {P : Event → Prop} (hP : ∀ e, e.effect? = none → P e) {α : Type}
    (x : Exec Event α) : x.Always P ↔ ∀ e ∈ seen Event.effect? x, P e := by
  constructor
  · intro h e he
    obtain ⟨e', he', hsome⟩ := List.mem_filterMap.mp he
    rw [effect?_eq_some hsome]
    exact h e' he'
  · intro h e he
    cases hsome : e.effect? with
    | none => exact hP e hsome
    | some e' =>
      have hmem := h e' (List.mem_filterMap.mpr ⟨e, he, hsome⟩)
      rwa [effect?_eq_some hsome] at hmem

/-- A property of effects holds in a whole stream exactly if all requests completed in it
have only such effects. -/
theorem always_feed_effects_iff {P : Event → Prop} (hP : ∀ e, e.effect? = none → P e)
    (bs : List Byte) :
    (∀ e ∈ (feed powerUp bs).events, P e) ↔
      Along processByte (fun s b => ∀ r, completed s b = some r → ∀ e ∈ r.effects, P e)
        powerUp bs := by
  change (Exec.feed processByte powerUp bs).Always P ↔ _
  rw [always_feed_iff]
  apply along_congr
  intro is es s b hs
  rw [always_iff_effects hP, processByte_effects (Runs.reachable hs)]
  cases completed s b with
  | none => simp
  | some r => simp

end BowerBird.Comms

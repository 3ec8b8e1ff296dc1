import BowerBird.CommsHistory
import BowerBird.CommsRequests

/-!
# The command language

A grammar of command lines, written down without the parser. Every line in which
no keyword stands at the end has exactly one reading, and from any idle state the
parser does what that reading requests.
-/

namespace BowerBird.Comms

open Firmware Firmware.CString Firmware.Exec
set_option autoImplicit false

inductive Names : List Byte → Device → Prop
  | switch (d : Nat) (h : 1 ≤ d ∧ d ≤ 9) (more : List Byte) :
      Names (BitVec.ofNat 8 (0x30 + d) :: more) (.switch d h)
  | usbMic (more : List Byte) : Names (powerMic ++ more) .usbMic
  | lcdPanel (more : List Byte) : Names (powerLcd ++ more) .lcdPanel

/-- One arbitrary byte stands behind a keyword that takes an argument. -/
inductive Denotes : List Byte → Request → Prop
  | powerDown (x : Byte) (s : List Byte) : Denotes (beagleResetCmd ++ x :: s) (.powerDown s)
  | turn (on : Bool) (x y : Byte) {name : List Byte} {device : Device} (h : Names name device) :
      Denotes (powerCmd ++ x :: (onOff on ++ y :: name)) (.turn on device)
  | unknownDevice (on : Bool) (x y : Byte) {name : List Byte} (h : ∀ device, ¬ Names name device) :
      Denotes (powerCmd ++ x :: (onOff on ++ y :: name)) (.unknownDevice on name)
  | unknownPower (x : Byte) {s : List Byte} (h : ∀ on, ¬ onOff on <+: s) :
      Denotes (powerCmd ++ x :: s) (.unknownPower s)
  | clearLCD (x : Byte) (more : List Byte) :
      Denotes (lcdCmd ++ x :: (lcdClearCmd ++ more)) .clearLCD
  | sendToLCD (x : Byte) {s : List Byte} (h : ¬ lcdClearCmd <+: s) :
      Denotes (lcdCmd ++ x :: s) (.sendToLCD s)
  | enableWatchdog (x : Byte) (more : List Byte) :
      Denotes (watchdogCmd ++ x :: (watchdogEnable ++ more)) .enableWatchdog
  | disableWatchdog (x : Byte) (more : List Byte) :
      Denotes (watchdogCmd ++ x :: (watchdogDisable ++ more)) .disableWatchdog
  | pulseWatchdog (x : Byte) (more : List Byte) :
      Denotes (watchdogCmd ++ x :: (watchdogPulse ++ more)) .pulseWatchdog
  | unknownWatchdog (x : Byte) {s : List Byte} (henable : ¬ watchdogEnable <+: s)
      (hdisable : ¬ watchdogDisable <+: s) (hpulse : ¬ watchdogPulse <+: s) :
      Denotes (watchdogCmd ++ x :: s) (.unknownWatchdog s)
  | resetAVR (more : List Byte) : Denotes (resetCmd ++ more) .resetAVR
  | unknown {line : List Byte}
      (h : ∀ kw ∈ [beagleResetCmd, powerCmd, lcdCmd, watchdogCmd, resetCmd], ¬ kw <+: line) :
      Denotes line (.unknown line)

theorem device?_eq_some_iff {name : List Byte} {d : Device} :
    device? name = some d ↔ Names name d := by
  constructor
  · intro h
    cases name with
    | nil => cases h
    | cons c cs =>
      by_cases hdigit : 0x31#8 ≤ c ∧ c ≤ 0x39#8
      · obtain ⟨hd, hdevice⟩ := device?_switch cs hdigit
        have hc : c = BitVec.ofNat 8 (0x30 + (c.toNat - 0x30)) := by
          apply BitVec.eq_of_toNat_eq
          rw [BitVec.toNat_ofNat]
          omega
        rw [hdevice, Option.some.injEq] at h
        subst h
        have hnames := Names.switch (c.toNat - 0x30) hd cs
        rwa [← hc] at hnames
      · rw [device?_name fun b bs hb => by cases hb; exact hdigit] at h
        split at h
        · rename_i hmic
          cases h
          obtain ⟨more, hmore⟩ := hmic
          rw [← hmore]
          exact .usbMic more
        · split at h
          · rename_i hlcd
            cases h
            obtain ⟨more, hmore⟩ := hlcd
            rw [← hmore]
            exact .lcdPanel more
          · cases h
  · rintro (⟨d, hd, more⟩ | more | more)
    · have htoNat : (BitVec.ofNat 8 (0x30 + d)).toNat = 0x30 + d := by
        rw [BitVec.toNat_ofNat]
        omega
      have hdigit : 0x31#8 ≤ BitVec.ofNat 8 (0x30 + d) ∧ BitVec.ofNat 8 (0x30 + d) ≤ 0x39#8 := by
        rw [BitVec.le_def, BitVec.le_def, htoNat]
        simp only [BitVec.toNat_ofNat]
        omega
      obtain ⟨hd', hdevice⟩ := device?_switch more hdigit
      rw [hdevice]
      simp only [htoNat, Nat.add_sub_cancel_left]
    · rfl
    · rfl

theorem powerRequest_of_names {name : List Byte} {d : Device} (on : Bool) (h : Names name d) :
    powerRequest on name = .turn on d := by
  rw [powerRequest, device?_eq_some_iff.mpr h]

theorem powerRequest_of_unknown {name : List Byte} (on : Bool) (h : ∀ d, ¬ Names name d) :
    powerRequest on name = .unknownDevice on name := by
  cases hd : device? name with
  | none => rw [powerRequest, hd]
  | some d => exact absurd (device?_eq_some_iff.mp hd) (h d)

theorem textAt_of_drop {mem t rest : List Byte} {p : Nat} (h : mem.drop p = t ++ 0#8 :: rest)
    (ht : 0#8 ∉ t) : textAt mem p = t := by
  have hnul : Nul mem p := by
    rw [Nul, h]
    simp
  have htext := text_eq_textAt hnul
  rw [h, text_append ht rest, Option.some.injEq] at htext
  exact htext.symm

theorem drop_keyword (kw s : List Byte) (x : Byte) :
    (kw ++ x :: s).drop (kw.length + 1) = s := by
  rw [← List.drop_drop, List.drop_left]
  rfl

section Keywords
variable {s : List Byte} (hs : 0#8 ∉ s) (x : Byte) (rest : List Byte)
include hs

theorem request_powerDown :
    request (beagleResetCmd ++ x :: (s ++ 0#8 :: rest)) = .powerDown s := by
  rw [request, if_pos (List.prefix_append _ _), textAt_of_drop (drop_keyword _ _ x) hs]

theorem request_power :
    request (powerCmd ++ x :: (s ++ 0#8 :: rest)) =
      if powerOn <+: s then
        powerRequest true (textAt (powerCmd ++ x :: (s ++ 0#8 :: rest))
          (powerCmd.length + 1 + powerOn.length + 1))
      else if powerOff <+: s then
        powerRequest false (textAt (powerCmd ++ x :: (s ++ 0#8 :: rest))
          (powerCmd.length + 1 + powerOff.length + 1))
      else .unknownPower s := by
  have hpre := List.prefix_append powerCmd (x :: (s ++ 0#8 :: rest))
  have hon : powerOn <+: s ++ 0#8 :: rest ↔ powerOn <+: s := prefix_of_prefix_line
  have hoff : powerOff <+: s ++ 0#8 :: rest ↔ powerOff <+: s := prefix_of_prefix_line
  rw [request, if_neg (not_prefix_of_isPrefix hpre), if_pos hpre,
    textAt_of_drop (drop_keyword powerCmd _ x) hs]
  simp only [drop_keyword, hon, hoff]

theorem request_lcd :
    request (lcdCmd ++ x :: (s ++ 0#8 :: rest)) =
      if lcdClearCmd <+: s then .clearLCD else .sendToLCD s := by
  have hpre := List.prefix_append lcdCmd (x :: (s ++ 0#8 :: rest))
  have hclear : lcdClearCmd <+: s ++ 0#8 :: rest ↔ lcdClearCmd <+: s := prefix_of_prefix_line
  rw [request, if_neg (not_prefix_of_isPrefix hpre), if_neg (not_prefix_of_isPrefix hpre),
    if_pos hpre, textAt_of_drop (drop_keyword lcdCmd _ x) hs]
  simp only [drop_keyword, hclear]

theorem request_watchdog :
    request (watchdogCmd ++ x :: (s ++ 0#8 :: rest)) =
      if watchdogEnable <+: s then .enableWatchdog
      else if watchdogDisable <+: s then .disableWatchdog
      else if watchdogPulse <+: s then .pulseWatchdog
      else .unknownWatchdog s := by
  have hpre := List.prefix_append watchdogCmd (x :: (s ++ 0#8 :: rest))
  have henable : watchdogEnable <+: s ++ 0#8 :: rest ↔ watchdogEnable <+: s := prefix_of_prefix_line
  have hdisable : watchdogDisable <+: s ++ 0#8 :: rest ↔ watchdogDisable <+: s :=
    prefix_of_prefix_line
  have hpulse : watchdogPulse <+: s ++ 0#8 :: rest ↔ watchdogPulse <+: s := prefix_of_prefix_line
  rw [request, if_neg (not_prefix_of_isPrefix hpre), if_neg (not_prefix_of_isPrefix hpre),
    if_neg (not_prefix_of_isPrefix hpre), if_pos hpre, textAt_of_drop (drop_keyword watchdogCmd _ x) hs]
  simp only [drop_keyword, henable, hdisable, hpulse]

end Keywords

theorem request_reset {mem : List Byte} (h : resetCmd <+: mem) : request mem = .resetAVR := by
  rw [request, if_neg (not_prefix_of_isPrefix h), if_neg (not_prefix_of_isPrefix h),
    if_neg (not_prefix_of_isPrefix h), if_neg (not_prefix_of_isPrefix h), if_pos h]

theorem request_unknown {line : List Byte} (hline : 0#8 ∉ line) (rest : List Byte)
    (h : ∀ kw ∈ [beagleResetCmd, powerCmd, lcdCmd, watchdogCmd, resetCmd], ¬ kw <+: line) :
    request (line ++ 0#8 :: rest) = .unknown line := by
  have hline' : ∀ kw, 0#8 ∉ kw → ¬ kw <+: line → ¬ kw <+: line ++ 0#8 :: rest :=
    fun kw hkw hno hpre => hno ((prefix_of_prefix_line hkw).mp hpre)
  simp only [List.forall_mem_cons] at h
  obtain ⟨hbeagle, hpower, hlcd, hwatchdog, hreset, -⟩ := h
  replace hbeagle := hline' beagleResetCmd (by decide) hbeagle
  replace hpower := hline' powerCmd (by decide) hpower
  replace hlcd := hline' lcdCmd (by decide) hlcd
  replace hwatchdog := hline' watchdogCmd (by decide) hwatchdog
  replace hreset := hline' resetCmd (by decide) hreset
  rw [request, if_neg hbeagle, if_neg hpower, if_neg hlcd, if_neg hwatchdog, if_neg hreset,
    textAt_of_drop (List.drop_zero ..) hline]

theorem drop_subkeyword (kw sub s : List Byte) (x y : Byte) :
    (kw ++ x :: (sub ++ y :: s)).drop (kw.length + 1 + sub.length + 1) = s := by
  rw [Nat.add_assoc (kw.length + 1), ← List.drop_drop, drop_keyword, drop_keyword]

theorem request_turn (on : Bool) (x y : Byte) {name : List Byte}
    (hs : 0#8 ∉ onOff on ++ y :: name) (rest : List Byte) :
    request (powerCmd ++ x :: (onOff on ++ y :: name ++ 0#8 :: rest)) = powerRequest on name := by
  have hname : 0#8 ∉ name := by
    simp only [List.mem_append, List.mem_cons, not_or] at hs
    exact hs.2.2
  rw [request_power hs, List.append_assoc, List.cons_append]
  have hdrop := drop_subkeyword powerCmd (onOff on) (name ++ 0#8 :: rest) x y
  cases on with
  | true =>
    have hon : powerOn <+: onOff true ++ y :: name := List.prefix_append powerOn _
    rw [if_pos hon]
    exact congrArg (powerRequest true) (textAt_of_drop hdrop hname)
  | false =>
    have hoff : powerOff <+: onOff false ++ y :: name := List.prefix_append powerOff _
    rw [if_neg (not_prefix_of_isPrefix hoff), if_pos hoff]
    exact congrArg (powerRequest false) (textAt_of_drop hdrop hname)

/-- The parser reads a line as the grammar does, whatever stands behind its terminator. -/
theorem request_of_denotes {line : List Byte} {r : Request} (h : Denotes line r)
    (hline : 0#8 ∉ line) (rest : List Byte) : request (line ++ 0#8 :: rest) = r := by
  have harg : ∀ {kw s : List Byte} {x : Byte}, 0#8 ∉ kw ++ x :: s → 0#8 ∉ s := by
    intro kw s x h hs
    exact h (List.mem_append_right kw (List.mem_cons_of_mem x hs))
  cases h with
  | powerDown x s =>
    rw [List.append_assoc, List.cons_append, request_powerDown (harg hline)]
  | turn on x y h =>
    rw [List.append_assoc, List.cons_append, request_turn on x y (harg hline),
      powerRequest_of_names on h]
  | unknownDevice on x y h =>
    rw [List.append_assoc, List.cons_append, request_turn on x y (harg hline),
      powerRequest_of_unknown on h]
  | @unknownPower x s h =>
    have hon : ¬ powerOn <+: s := h true
    have hoff : ¬ powerOff <+: s := h false
    rw [List.append_assoc, List.cons_append, request_power (harg hline), if_neg hon, if_neg hoff]
  | clearLCD x more =>
    rw [List.append_assoc, List.cons_append, request_lcd (harg hline),
      if_pos (List.prefix_append _ _)]
  | sendToLCD x h =>
    rw [List.append_assoc, List.cons_append, request_lcd (harg hline), if_neg h]
  | enableWatchdog x more =>
    rw [List.append_assoc, List.cons_append, request_watchdog (harg hline),
      if_pos (List.prefix_append _ _)]
  | disableWatchdog x more =>
    have hpre := List.prefix_append watchdogDisable more
    rw [List.append_assoc, List.cons_append, request_watchdog (harg hline),
      if_neg (not_prefix_of_isPrefix hpre), if_pos hpre]
  | pulseWatchdog x more =>
    have hpre := List.prefix_append watchdogPulse more
    rw [List.append_assoc, List.cons_append, request_watchdog (harg hline),
      if_neg (not_prefix_of_isPrefix hpre), if_neg (not_prefix_of_isPrefix hpre), if_pos hpre]
  | unknownWatchdog x henable hdisable hpulse =>
    rw [List.append_assoc, List.cons_append, request_watchdog (harg hline), if_neg henable,
      if_neg hdisable, if_neg hpulse]
  | resetAVR more =>
    rw [List.append_assoc]
    exact request_reset (List.prefix_append _ _)
  | unknown h => exact request_unknown hline rest h

theorem exists_argument {kw line : List Byte} (h : kw <+: line) (hne : line ≠ kw) :
    ∃ x s, line = kw ++ x :: s := by
  obtain ⟨s, rfl⟩ := h
  cases s with
  | nil => simp at hne
  | cons x s => exact ⟨x, s, rfl⟩

theorem denotes_power {x : Byte} {s : List Byte}
    (hend : ∀ on, s ≠ onOff on) : ∃ r, Denotes (powerCmd ++ x :: s) r := by
  by_cases hsub : ∃ on, onOff on <+: s
  · obtain ⟨on, hon⟩ := hsub
    obtain ⟨y, name, rfl⟩ := exists_argument hon (hend on)
    by_cases hname : ∃ d, Names name d
    · obtain ⟨d, hd⟩ := hname
      exact ⟨_, .turn on x y hd⟩
    · push Not at hname
      exact ⟨_, .unknownDevice on x y hname⟩
  · push Not at hsub
    exact ⟨_, .unknownPower x hsub⟩

theorem denotes_lcd (x : Byte) (s : List Byte) : ∃ r, Denotes (lcdCmd ++ x :: s) r := by
  by_cases hclear : lcdClearCmd <+: s
  · obtain ⟨more, rfl⟩ := hclear
    exact ⟨_, .clearLCD x more⟩
  · exact ⟨_, .sendToLCD x hclear⟩

theorem denotes_watchdog (x : Byte) (s : List Byte) : ∃ r, Denotes (watchdogCmd ++ x :: s) r := by
  by_cases henable : watchdogEnable <+: s
  · obtain ⟨more, rfl⟩ := henable
    exact ⟨_, .enableWatchdog x more⟩
  by_cases hdisable : watchdogDisable <+: s
  · obtain ⟨more, rfl⟩ := hdisable
    exact ⟨_, .disableWatchdog x more⟩
  by_cases hpulse : watchdogPulse <+: s
  · obtain ⟨more, rfl⟩ := hpulse
    exact ⟨_, .pulseWatchdog x more⟩
  exact ⟨_, .unknownWatchdog x henable hdisable hpulse⟩

theorem exists_denotes {line : List Byte} (h : ¬ EndsAtKeyword line) : ∃ r, Denotes line r := by
  simp only [EndsAtKeyword, List.mem_cons, List.not_mem_nil, or_false, not_or, not_exists] at h
  obtain ⟨⟨hbeagle, hpower, hlcd, hwatchdog⟩, hsub⟩ := h
  by_cases h1 : beagleResetCmd <+: line
  · obtain ⟨x, s, rfl⟩ := exists_argument h1 hbeagle
    exact ⟨_, .powerDown x s⟩
  by_cases h2 : powerCmd <+: line
  · obtain ⟨x, s, rfl⟩ := exists_argument h2 hpower
    apply denotes_power
    rintro on rfl
    cases on with
    | true => exact (hsub x).1 rfl
    | false => exact (hsub x).2 rfl
  by_cases h3 : lcdCmd <+: line
  · obtain ⟨x, s, rfl⟩ := exists_argument h3 hlcd
    exact denotes_lcd x s
  by_cases h4 : watchdogCmd <+: line
  · obtain ⟨x, s, rfl⟩ := exists_argument h4 hwatchdog
    exact denotes_watchdog x s
  by_cases h5 : resetCmd <+: line
  · obtain ⟨more, rfl⟩ := h5
    exact ⟨_, .resetAVR more⟩
  exact ⟨_, .unknown (by simp [h1, h2, h3, h4, h5])⟩

theorem feed_silent {bs : List Byte} (hbs : ∀ b ∈ bs, isLineEnd b = false) (s : State) :
    (feed s bs).Always fun e => e.effect? = none := by
  induction bs generalizing s with
  | nil => exact Always.pure s
  | cons b bs ih =>
    apply Always.bind (processByte_silent s (.inl (hbs b List.mem_cons_self)))
    intro t
    exact ih (fun c hc => hbs c (List.mem_cons_of_mem b hc)) t

theorem feed_command_does {s : State} (h : Tracks s (.hunting 0)) {line : List Byte}
    (hfit : Short line) (hline : ∀ b ∈ line, isLineEnd b = false) :
    ∃ mem, mem = line ++ 0#8 :: s.commandBuffer.toList.drop (line.length + 1) ∧
      seen Event.effect? (feed s (command line)) = (request mem).effects ∧
      (request mem = .resetAVR → (feed s (command line)).outcome = .hang) ∧
      (request mem ≠ .resetAVR → ∃ t, (feed s (command line)).outcome = .ret t ∧ Idle t) := by
  obtain ⟨t, es, hfeed, ht, -, hrest⟩ := feed_line h hfit hline
  obtain ⟨mem, hmem, -, hseen, hreset, hgoes⟩ := processByte_does ht hfit (b := 0x0a#8) rfl
  have hmagic : ∀ b ∈ ascii "avr://", isLineEnd b = false := by decide
  have hopen : ∀ b ∈ ascii "avr://" ++ line, isLineEnd b = false := by
    intro b hb
    rcases List.mem_append.mp hb with hb | hb
    · exact hmagic b hb
    · exact hline b hb
  have hsilent := seen_of_silent (feed_silent hopen s)
  rw [hfeed] at hsilent
  rw [feed_command_eq hfeed]
  refine ⟨mem, by rw [hmem, hrest], ?_, hreset, hgoes⟩
  rw [← hseen]
  unfold seen at hsilent ⊢
  rw [List.filterMap_append, hsilent, List.nil_append]

/-- Every line in which no keyword stands at the end has one reading, and in every idle
state it has the effects of that reading and comes back, unless it resets the AVR. -/
theorem line_carried_out {s : State} (hs : Reachable s) (hidle : Idle s) {line : List Byte}
    (hlen : line.length ≤ 1023) (hline : ∀ b ∈ line, b ≠ 0#8 ∧ b ≠ 0x0a#8 ∧ b ≠ 0x0d#8)
    (hskip : ¬ EndsAtKeyword line) :
    (∃! r, Denotes line r) ∧ ∀ r, Denotes line r →
      seen Event.effect? (feed s (command line)) = r.effects ∧
      (r = .resetAVR → (feed s (command line)).outcome = .hang) ∧
      (r ≠ .resetAVR → ∃ t, (feed s (command line)).outcome = .ret t ∧ Idle t) := by
  have hnul : 0#8 ∉ line := fun h => (hline _ h).1 rfl
  constructor
  · obtain ⟨r, hr⟩ := exists_denotes hskip
    refine ⟨r, hr, fun r' hr' => ?_⟩
    rw [← request_of_denotes hr hnul [], ← request_of_denotes hr' hnul []]
  · intro r hr
    obtain ⟨mem, hmem, hdoes⟩ := feed_command_does (hs.tracks_idle hidle) (short_iff.mpr hlen)
      (lineEnd_of_ne fun b hb => (hline b hb).2)
    rwa [hmem, request_of_denotes hr hnul] at hdoes

theorem line_carried_out_switch :
    ∃ t, (feed powerUp (command (ascii "power on 3"))).outcome = .ret t ∧ Idle t ∧
      seen Event.effect? (feed powerUp (command (ascii "power on 3"))) =
        (Request.turn true (.switch 3 (by decide))).effects := by
  have hkey : ¬ EndsAtKeyword (ascii "power on 3") := by decide
  have hdenotes : Denotes (ascii "power on 3") (.turn true (.switch 3 (by decide))) :=
    .turn true 0x20#8 0x20#8 (.switch 3 (by decide) [])
  obtain ⟨-, hdoes⟩ := line_carried_out ⟨[], rfl⟩ ⟨rfl, rfl⟩ (by decide) (by decide) hkey
  obtain ⟨hseen, -, hret⟩ := hdoes _ hdenotes
  obtain ⟨t, ht, hidle⟩ := hret (by simp)
  exact ⟨t, ht, hidle, hseen⟩

end BowerBird.Comms

import BowerBird.CommsKeywords
import BowerBird.CommsRequests

/-!
# Where the strings of the handlers come from

A handler gets a pointer into the buffer, which holds the line it is called for
and, behind the NUL of that line, what is left of earlier ones. The pointer is
inside the line, unless the line ends where a keyword does.
-/

namespace BowerBird.Comms

open Firmware Firmware.CString Firmware.Exec
set_option autoImplicit false

/-- A report has the arguments that its format asks for. -/
def Event.Formatted : Event → Prop
  | .call (.writeStringToUSB format args) => Printf.Matches format args
  | _ => True

/-- What a lookup in the buffer may do: a string that is handed on is what the buffer
holds at its pointer, and reports are well formed. -/
def Event.OfLookup (mem : List Byte) : Event → Prop
  | .dispatch buf => buf = mem
  | .argument p t => t = text (mem.drop p)
  | .call c => (Event.call c).Formatted
  | _ => True

theorem Event.OfLookup.formatted {mem : List Byte} {e : Event} (h : e.OfLookup mem) :
    e.Formatted := by
  cases e with
  | call c => exact h
  | _ => trivial

section Handlers
variable {mem buf : List Byte} {cmd : Nat}

theorem startsWith_lookup (kw : List Byte) :
    (startsWith mem cmd kw).Always (Event.OfLookup buf) :=
  (Always.ofOption _).bind fun _ => Always.pure _

theorem stringAt_lookup : (stringAt mem cmd).Always (Event.OfLookup buf) := Always.ofOption _

theorem writeStringToUSB_lookup {format : String} {args : List Printf.Arg}
    (kinds : List Printf.Kind) (hkinds : args.map Printf.Arg.kind = kinds := by rfl)
    (h : Printf.conversions (Printf.directives (ascii format)) = some kinds := by decide +kernel) :
    (writeStringToUSB format args).Always (Event.OfLookup buf) := by
  apply Always.emit
  change Printf.conversions _ = _
  rw [h, hkinds]

theorem writeStringToLCD_lookup (format : List Byte) (args : List Printf.Arg) :
    (writeStringToLCD format args).Always (Event.OfLookup buf) :=
  Always.emit trivial

theorem refusal_lookup {format : String} {args : List Printf.Arg} (heading s : List Byte)
    (kinds : List Printf.Kind) (hkinds : args.map Printf.Arg.kind = kinds := by rfl)
    (h : Printf.conversions (Printf.directives (ascii format)) = some kinds := by decide +kernel) :
    (do writeStringToUSB format args; writeStringToLCD heading []; writeStringToLCD s []).Always
      (Event.OfLookup buf) := by
  refine (writeStringToUSB_lookup kinds hkinds h).bind fun _ => ?_
  refine (writeStringToLCD_lookup _ _).bind fun _ => ?_
  exact writeStringToLCD_lookup _ _

theorem argument_lookup : (argument mem cmd).Always (Event.OfLookup mem) := Always.emit rfl

theorem processBeaglePowerDownCommand_lookup :
    (processBeaglePowerDownCommand mem cmd).Always (Event.OfLookup mem) := by
  refine stringAt_lookup.bind fun s => ?_
  refine (writeStringToUSB_lookup [.str]).bind fun _ => ?_
  refine (writeStringToUSB_lookup [.word, .word]).bind fun _ => ?_
  refine (writeStringToLCD_lookup _ _).bind fun _ => ?_
  exact Always.emit trivial

theorem powerReport_lookup (newPowerState isOnPowerPort : Bool) (deviceName : List Byte)
    (pin sw : Int) :
    (powerReport newPowerState isOnPowerPort deviceName pin sw).Always (Event.OfLookup buf) := by
  refine Always.bind (Always.emit trivial) fun _ => ?_
  refine (writeStringToUSB_lookup [.str, .str, .word, .word]).bind fun _ => ?_
  exact writeStringToLCD_lookup _ _

theorem processPowerDevice_lookup (newPowerState : Bool) :
    (processPowerDevice mem newPowerState cmd).Always (Event.OfLookup mem) := by
  refine Always.bind (Always.ofOption _) fun c => ?_
  split
  · exact powerReport_lookup _ _ _ _ _
  refine (startsWith_lookup _).bind fun mic => ?_
  split
  · exact powerReport_lookup _ _ _ _ _
  refine (startsWith_lookup _).bind fun lcd => ?_
  split
  · exact powerReport_lookup _ _ _ _ _
  exact stringAt_lookup.bind fun s => refusal_lookup _ _ [.str, .str]

theorem processPowerCommand_lookup :
    (processPowerCommand mem cmd).Always (Event.OfLookup mem) := by
  refine (startsWith_lookup _).bind fun on => ?_
  split
  · exact argument_lookup.bind fun _ => processPowerDevice_lookup _
  refine (startsWith_lookup _).bind fun off => ?_
  split
  · exact argument_lookup.bind fun _ => processPowerDevice_lookup _
  exact stringAt_lookup.bind fun s => refusal_lookup _ _ [.str]

theorem processLCDCommand_lookup : (processLCDCommand mem cmd).Always (Event.OfLookup mem) := by
  refine (startsWith_lookup _).bind fun clear => ?_
  split
  · exact (Always.emit trivial).bind fun _ => writeStringToUSB_lookup []
  refine stringAt_lookup.bind fun s => ?_
  exact (writeStringToLCD_lookup _ _).bind fun _ => writeStringToUSB_lookup [.str]

theorem processWatchdogCommand_lookup :
    (processWatchdogCommand mem cmd).Always (Event.OfLookup mem) := by
  refine (startsWith_lookup _).bind fun enable => ?_
  split
  · exact Always.emit trivial
  refine (startsWith_lookup _).bind fun disable => ?_
  split
  · exact Always.emit trivial
  refine (startsWith_lookup _).bind fun pulse => ?_
  split
  · refine Always.bind (Always.emit trivial) fun _ => ?_
    exact (writeStringToUSB_lookup []).bind fun _ => writeStringToLCD_lookup _ _
  exact stringAt_lookup.bind fun s => refusal_lookup _ _ [.str]

end Handlers

theorem dispatchCommand_lookup (mem : List Byte) :
    (dispatchCommand mem).Always (Event.OfLookup mem) := by
  refine Always.bind (Always.emit rfl) fun _ => ?_
  refine (startsWith_lookup _).bind fun beagle => ?_
  split
  · exact argument_lookup.bind fun _ => processBeaglePowerDownCommand_lookup
  refine (startsWith_lookup _).bind fun power => ?_
  split
  · exact argument_lookup.bind fun _ => processPowerCommand_lookup
  refine (startsWith_lookup _).bind fun lcd => ?_
  split
  · exact argument_lookup.bind fun _ => processLCDCommand_lookup
  refine (startsWith_lookup _).bind fun watchdog => ?_
  split
  · exact argument_lookup.bind fun _ => processWatchdogCommand_lookup
  refine (startsWith_lookup _).bind fun reset => ?_
  split
  · exact (Always.emit trivial).bind fun _ => Always.hang
  exact stringAt_lookup.bind fun s => refusal_lookup _ _ [.str]

/-- A lookup is of the line, and what is handed on is in it, up to its end or a NUL. -/
def Event.RunsOn (line : List Byte) : Event → Prop
  | .dispatch mem => HoldsLine mem line
  | .argument p o => p ≤ line.length ∧ o = text (line.drop p ++ [0#8])
  | _ => True

def Event.pointer? : Event → Option Nat
  | .argument p _ => some p
  | _ => none

theorem pointer?_blind : Event.Blind Event.pointer? := ⟨fun _ _ => rfl, fun _ _ _ => rfl⟩

theorem pointer?_eq_some_iff {e : Event} {p : Nat} :
    e.pointer? = some p ↔ ∃ o, e = .argument p o := by
  cases e with
  | argument q o => simp [Event.pointer?, eq_comm]
  | _ => simp [Event.pointer?]

section Line
variable {line : List Byte}

theorem text_line {p : Nat} (hp : p ≤ line.length) (rest : List Byte) :
    text ((line ++ 0#8 :: rest).drop p) = text (line.drop p ++ [0#8]) := by
  have hnul : 0#8 ∈ line.drop p ++ [0#8] := by simp
  obtain ⟨t, ht⟩ := Option.isSome_iff_exists.mp (text_isSome_iff.mpr hnul)
  rw [List.drop_append_of_le_length hp, List.append_cons, text_frame ht, ht]

theorem pointer_le_length (hfit : Short line) (hkey : ¬ EndsAtKeyword line)
    (hreset : ¬ resetCmd <+: line) (rest : List Byte) {p : Nat} {o : Option (List Byte)}
    (h : .argument p o ∈ (dispatchCommand (line ++ 0#8 :: rest)).events) : p ≤ line.length := by
  obtain ⟨es, hes, hsmall⟩ := dispatchCommand_line_inside hfit hkey hreset
  have hframe := dispatchCommand_frame (line ++ [0#8]) rest pointer?_blind (by simp [hsmall])
  rw [← List.append_cons] at hframe
  have hseen : p ∈ seen Event.pointer? (dispatchCommand (line ++ [0#8])) := by
    rw [← hframe.2]
    exact List.mem_filterMap.mpr ⟨_, h, rfl⟩
  obtain ⟨e, he, hp⟩ := List.mem_filterMap.mp hseen
  obtain ⟨o', rfl⟩ := pointer?_eq_some_iff.mp hp
  -- in the line alone, the pointer meets a NUL
  have hpoints : o' = text ((line ++ [0#8]).drop p) := dispatchCommand_lookup _ _ he
  have hbounds : Event.InBounds (.argument p o') := by
    rw [hsmall] at he
    rcases List.mem_cons.mp he with heq | he
    · cases heq
    · exact (hes _ he).inBounds
  have hnul := text_isSome_iff.mp (hpoints ▸ hbounds.2)
  have hlt := Nul.lt_length hnul
  rw [List.length_append, List.length_singleton] at hlt
  omega

theorem argument_behind_line (h : EndsAtKeyword line) (rest : List Byte) :
    ∃ o, .argument (line.length + 1) o ∈ (dispatchCommand (line ++ 0#8 :: rest)).events := by
  rcases h with h | ⟨c, rfl | rfl⟩
  · simp only [List.mem_cons, List.not_mem_nil, or_false] at h
    rcases h with rfl | rfl | rfl | rfl
    · exact ⟨_, List.mem_cons_of_mem _ List.mem_cons_self⟩
    · exact ⟨_, List.mem_cons_of_mem _ List.mem_cons_self⟩
    · exact ⟨_, List.mem_cons_of_mem _ List.mem_cons_self⟩
    · exact ⟨_, List.mem_cons_of_mem _ List.mem_cons_self⟩
  -- the first pointer is behind `power`, the second one behind the line
  · exact ⟨_, List.mem_cons_of_mem _ (List.mem_cons_of_mem _ List.mem_cons_self)⟩
  · exact ⟨_, List.mem_cons_of_mem _ (List.mem_cons_of_mem _ List.mem_cons_self)⟩

/-- The handlers run on the line alone exactly if it does not end where a keyword does. -/
theorem dispatchCommand_runsOn_iff (hfit : Short line) (hreset : ¬ resetCmd <+: line)
    (rest : List Byte) :
    (dispatchCommand (line ++ 0#8 :: rest)).Always (Event.RunsOn line) ↔ ¬ EndsAtKeyword line := by
  constructor
  · intro hon hkey
    obtain ⟨o, ho⟩ := argument_behind_line hkey rest
    have hle := (hon _ ho).1
    omega
  · intro hkey e he
    cases e with
    | dispatch mem => exact ⟨rest, dispatchCommand_lookup _ _ he⟩
    | argument p o =>
      have hp := pointer_le_length hfit hkey hreset rest he
      have ho : o = text ((line ++ 0#8 :: rest).drop p) := dispatchCommand_lookup _ _ he
      exact ⟨hp, by rw [ho, text_line hp]⟩
    | _ => trivial

end Line

theorem processByte_formatted (s : State) (b : Byte) : (processByte s b).Always Event.Formatted := by
  by_cases h : isLineEnd b = false ∨ s.inCommand = false
  · intro e he
    obtain ⟨j, c, rfl⟩ := processByte_stores s h e he
    trivial
  · push Not at h
    rw [processByte, if_pos (by simpa using h.2), if_pos (by simpa using h.1)]
    apply Always.bind
    · intro e he
      obtain ⟨j, c, rfl⟩ := store_stores _ _ _ e he
      trivial
    · intro buf
      refine Always.bind ?_ fun _ => Always.pure _
      exact fun e he => (dispatchCommand_lookup _ e he).formatted

section Run
variable {bs : List Byte} {es : List Event} {s : State}

theorem runs_tracks (h : Runs processByte powerUp bs es s) :
    Tracks s (commandFraming.run (.hunting 0) bs) := by
  apply feed_ret_tracks powerUp_tracks
  rw [feed, h]

theorem commandLines_concat (bs : List Byte) (b : Byte) :
    commandLines (bs ++ [b]) =
      commandLines bs ++ (commandFraming.step (commandFraming.run (.hunting 0) bs) b).2 := by
  rw [commandLines, Framing.lines_append, Framing.lines_cons, Framing.lines, List.append_nil]
  rfl

end Run

end BowerBird.Comms

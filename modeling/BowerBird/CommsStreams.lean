import BowerBird.CommsGrammar
import BowerBird.CommsMagic

/-!
# What a stream of commands means

A stream is carried out as the readings of its lines, one after the other, up to an
AVR reset. Every line end brings the parser back to its start, so that what is sent
as one line is carried out alike wherever it stands.
-/

namespace BowerBird.Comms

open Firmware Firmware.CString Firmware.Exec
set_option autoImplicit false

/-- A line that means the same in every history. -/
structure Readable (line : List Byte) : Prop where
  short : Short line
  text : 0#8 ∉ line
  keyword : ¬ EndsAtKeyword line

/-- The reading of a readable line. -/
def meaning (line : List Byte) : Request := request (line ++ [0#8])

theorem denotes_iff {line : List Byte} (h : Readable line) {r : Request} :
    Denotes line r ↔ r = meaning line := by
  constructor
  · intro hr
    exact (request_of_denotes hr h.text []).symm
  · rintro rfl
    obtain ⟨r, hr⟩ := exists_denotes h.keyword
    rwa [meaning, request_of_denotes hr h.text []]

theorem resetCmd_of_meaning {line : List Byte} (h : Readable line)
    (hreset : .resetAVR = meaning line) : resetCmd <+: line := by
  cases (denotes_iff h).mpr hreset with
  | resetAVR more => exact List.prefix_append resetCmd more

theorem forall₂_denotes_iff {lines : List (List Byte)} (h : ∀ line ∈ lines, Readable line)
    {rs : List Request} : List.Forall₂ Denotes lines rs ↔ rs = lines.map meaning := by
  induction lines generalizing rs with
  | nil => rw [List.forall₂_nil_left_iff, List.map_nil]
  | cons line lines ih =>
    have hrest : ∀ l ∈ lines, Readable l := fun l hl => h l (List.mem_cons_of_mem line hl)
    rw [List.forall₂_cons_left_iff]
    simp only [denotes_iff (h line List.mem_cons_self), ih hrest]
    constructor
    · rintro ⟨r, rest, rfl, rfl, rfl⟩
      rfl
    · rintro rfl
      exact ⟨_, _, rfl, rfl, rfl⟩

/-- The call has the effects of these requests, in order, and comes back unless one of
them resets the AVR. -/
structure CarriesOut (x : Exec Event State) (rs : List Request) : Prop where
  effects : seen Event.effect? x = rs.flatMap Request.effects
  hangs : .resetAVR ∈ rs → x.outcome = .hang
  returns : .resetAVR ∉ rs → ∃ t, x.outcome = .ret t

theorem CarriesOut.bind {x : Exec Event State} {f : State → Exec Event State}
    {rs rs' : List Request} (hx : CarriesOut x rs)
    (hf : ∀ t, x.outcome = .ret t → CarriesOut (f t) rs') (hstop : x.outcome = .hang → rs' = []) :
    CarriesOut (x >>= f) (rs ++ rs') := by
  obtain ⟨hseen, hhang, hret⟩ := hx
  obtain ⟨es, t | _ | _⟩ := x
  · obtain ⟨hseen', hhang', hret'⟩ := hf t rfl
    have hgoes : .resetAVR ∉ rs := by
      intro h
      cases hhang h
    refine ⟨?_, ?_, ?_⟩
    · simp only [seen, ret_bind, List.filterMap_append, List.flatMap_append] at hseen hseen' ⊢
      rw [hseen, hseen']
    · intro h
      exact hhang' ((List.mem_append.mp h).resolve_left hgoes)
    · intro h
      exact hret' fun h' => h (List.mem_append_right rs h')
  · obtain rfl := hstop rfl
    rw [List.append_nil, hang_bind]
    exact ⟨hseen, hhang, hret⟩
  · by_cases h : .resetAVR ∈ rs
    · cases hhang h
    · obtain ⟨t, ht⟩ := hret h
      cases ht

theorem processByte_open {s : State} {m : Framing.Mode Byte} (h : Tracks s m) {b : Byte}
    (hopen : (commandFraming.step m b).2 = []) : CarriesOut (processByte s b) [] := by
  cases m with
  | hunting k =>
    obtain ⟨t, ht, -⟩ := processByte_hunting h b
    rw [ht]
    exact ⟨rfl, by simp, fun _ => ⟨t, rfl⟩⟩
  | stopped => exact absurd h id
  | reading line =>
    cases hb : isLineEnd b with
    | true =>
      rw [Framing.step_end commandFraming line hb] at hopen
      cases hopen
    | false =>
      obtain ⟨t, es, ht, -⟩ := processByte_data h hb
      refine ⟨seen_of_silent (processByte_silent s (.inl hb)), by simp, fun _ => ⟨t, ?_⟩⟩
      rw [ht]

theorem processByte_carriesOut {s : State} {m : Framing.Mode Byte} (h : Tracks s m) {b : Byte}
    (hread : ∀ line ∈ (commandFraming.step m b).2, Readable line) :
    CarriesOut (processByte s b) ((commandFraming.step m b).2.map meaning) := by
  cases hls : (commandFraming.step m b).2 with
  | nil => exact processByte_open h hls
  | cons line ls =>
    have hmem : line ∈ (commandFraming.step m b).2 := by
      rw [hls]
      exact List.mem_cons_self
    have hreadable := hread line hmem
    obtain ⟨rfl, hb⟩ := Framing.of_mem_step commandFraming hmem
    rw [Framing.step_end commandFraming line hb, List.cons.injEq] at hls
    obtain ⟨-, rfl⟩ := hls
    obtain ⟨mem, hmem, -, hseen, hreset, hgoes⟩ := processByte_does h hreadable.short hb
    obtain ⟨r, hr⟩ := exists_denotes hreadable.keyword
    have hmeaning : request mem = meaning line := by
      rw [hmem, meaning, request_of_denotes hr hreadable.text, request_of_denotes hr hreadable.text]
    rw [hmeaning] at hseen hreset hgoes
    refine ⟨by simpa using hseen, ?_, ?_⟩
    · intro hmem
      exact hreset (List.mem_singleton.mp hmem).symm
    · intro hmem
      obtain ⟨t, ht, -⟩ := hgoes fun heq => hmem (List.mem_singleton.mpr heq.symm)
      exact ⟨t, ht⟩

theorem feed_carriesOut {s : State} {m : Framing.Mode Byte} (h : Tracks s m) {bs : List Byte}
    (hread : ∀ line ∈ commandFraming.lines m bs, Readable line) :
    CarriesOut (feed s bs) ((commandFraming.lines m bs).map meaning) := by
  induction bs generalizing s m with
  | nil => exact ⟨rfl, by simp [Framing.lines], fun _ => ⟨s, rfl⟩⟩
  | cons b bs ih =>
    rw [Framing.lines_cons] at hread ⊢
    have hfirst : ∀ line ∈ (commandFraming.step m b).2, Readable line :=
      fun line hl => hread line (List.mem_append_left _ hl)
    have hfollows := (processByte_refines h b fun line hl => (hfirst line hl).short).follows
    rw [List.map_append]
    refine (processByte_carriesOut h hfirst).bind ?_ ?_
    · intro t ht
      rw [ht] at hfollows
      exact ih hfollows fun line hl => hread line (List.mem_append_right _ hl)
    · intro hhang
      rw [hhang] at hfollows
      have hstop : (commandFraming.step m b).1 = .stopped := hfollows
      rw [hstop, Framing.lines_stopped, List.map_nil]

/-- A stream whose lines are readable has one reading, and is carried out as it demands:
all effects in order, and an end only at the AVR reset command. -/
theorem stream_carried_out {bs : List Byte} (h : ∀ line ∈ commandLines bs, Readable line) :
    (∃! rs, List.Forall₂ Denotes (commandLines bs) rs) ∧
      ∀ rs, List.Forall₂ Denotes (commandLines bs) rs → CarriesOut (feed powerUp bs) rs := by
  simp only [forall₂_denotes_iff h]
  constructor
  · exact ⟨_, rfl, fun _ heq => heq⟩
  · rintro rs rfl
    exact feed_carriesOut powerUp_tracks h

instance (line : List Byte) : Decidable (Readable line) :=
  decidable_of_iff (Short line ∧ 0#8 ∉ line ∧ ¬ EndsAtKeyword line)
    ⟨fun ⟨hshort, htext, hkey⟩ => ⟨hshort, htext, hkey⟩, fun h => ⟨h.short, h.text, h.keyword⟩⟩

theorem stream_carried_out_clear_on :
    CarriesOut (feed powerUp (ascii "!avr://lcd clear\r\n?avr://power on 3\navr:"))
      [.clearLCD, .turn true (.switch 3 (by decide))] := by
  have hlines : commandLines (ascii "!avr://lcd clear\r\n?avr://power on 3\navr:") =
      [ascii "lcd clear", ascii "power on 3"] := by
    decide +kernel
  have hclear : Denotes (ascii "lcd clear") .clearLCD := .clearLCD 0x20#8 []
  have hturn : Denotes (ascii "power on 3") (.turn true (.switch 3 (by decide))) :=
    .turn true 0x20#8 0x20#8 (.switch 3 (by decide) [])
  apply (stream_carried_out (by rw [hlines]; decide)).2
  rw [hlines]
  exact .cons hclear (.cons hturn .nil)

/-- The bytes up to a line end, and the line end. -/
def SentLine (seg : List Byte) : Prop := commandFraming.Terminated seg

/-- Lines that are sent one after the other are carried out as each would be alone after
power-up, whatever else stands in them, and an unfinished one has no effect. -/
theorem sent_lines_apart {segs : List (List Byte)} {tail : List Byte}
    (hsegs : ∀ seg ∈ segs, SentLine seg) (htail : ∀ b ∈ tail, isLineEnd b = false)
    (hread : ∀ seg ∈ segs, ∀ line ∈ commandLines seg, Readable line ∧ ¬ resetCmd <+: line) :
    (∃ t, (feed powerUp (segs.flatten ++ tail)).outcome = .ret t) ∧
      seen Event.effect? (feed powerUp (segs.flatten ++ tail)) =
        segs.flatMap fun seg => seen Event.effect? (feed powerUp seg) := by
  have hgo : ∀ seg ∈ segs, ∀ line ∈ commandFraming.lines (.hunting 0) seg,
      commandFraming.stops line = false := by
    intro seg hseg line hline
    rw [← Bool.not_eq_true]
    exact fun hstop => (hread seg hseg line hline).2 (List.isPrefixOf_iff_prefix.mp hstop)
  obtain ⟨hrun, hlines⟩ :=
    Framing.reads_terminated_lines commandFraming commandFraming_distinct.noEnd hsegs hgo
  have hall : commandFraming.lines (.hunting 0) (segs.flatten ++ tail) =
      segs.flatMap commandLines := by
    rw [Framing.lines_append, hrun, hlines, Framing.lines_open commandFraming htail, List.append_nil]
    rfl
  have hreadable : ∀ line ∈ segs.flatMap commandLines, Readable line ∧ ¬ resetCmd <+: line := by
    intro line hline
    obtain ⟨seg, hseg, hline⟩ := List.mem_flatMap.mp hline
    exact hread seg hseg line hline
  have hstream : CarriesOut (feed powerUp (segs.flatten ++ tail))
      ((commandFraming.lines (.hunting 0) (segs.flatten ++ tail)).map meaning) := by
    apply feed_carriesOut powerUp_tracks
    rw [hall]
    exact fun line hline => (hreadable line hline).1
  rw [hall] at hstream
  constructor
  · apply hstream.returns
    intro hreset
    obtain ⟨line, hline, hmeaning⟩ := List.mem_map.mp hreset
    obtain ⟨hline, hno⟩ := hreadable line hline
    exact hno (resetCmd_of_meaning hline hmeaning.symm)
  · rw [hstream.effects, List.map_flatMap, List.flatMap_assoc]
    apply List.flatMap_congr
    intro seg hseg
    have hseg : CarriesOut (feed powerUp seg) ((commandLines seg).map meaning) :=
      feed_carriesOut powerUp_tracks fun line hline => (hread seg hseg line hline).1
    rw [hseg.effects]

theorem sent_lines_apart_after_missed :
    seen Event.effect? (feed powerUp
      (ascii "aavr://lcd clear\n" ++ ascii "avr://lcd clear\n" ++ ascii "avr:")) =
      Request.clearLCD.effects := by
  have hmissed : commandLines (ascii "aavr://lcd clear\n") = [] := by decide +kernel
  have hseen : commandLines (ascii "avr://lcd clear\n") = [ascii "lcd clear"] := by decide +kernel
  have hsent : ∀ seg ∈ [ascii "aavr://lcd clear\n", ascii "avr://lcd clear\n"], SentLine seg := by
    intro seg hseg
    simp only [List.mem_cons, List.not_mem_nil, or_false] at hseg
    rcases hseg with rfl | rfl
    · exact ⟨ascii "aavr://lcd clear", 0x0a#8, by decide, by decide, by decide⟩
    · exact ⟨ascii "avr://lcd clear", 0x0a#8, by decide, by decide, by decide⟩
  have hread : ∀ seg ∈ [ascii "aavr://lcd clear\n", ascii "avr://lcd clear\n"],
      ∀ line ∈ commandLines seg, Readable line ∧ ¬ resetCmd <+: line := by
    intro seg hseg line hline
    simp only [List.mem_cons, List.not_mem_nil, or_false] at hseg
    rcases hseg with rfl | rfl
    · rw [hmissed] at hline
      cases hline
    · rw [hseen, List.mem_singleton] at hline
      rw [hline]
      exact ⟨by decide, by decide⟩
  have htail : ∀ b ∈ ascii "avr:", isLineEnd b = false := by decide
  obtain ⟨-, heffects⟩ := sent_lines_apart hsent htail hread
  have hflat : [ascii "aavr://lcd clear\n", ascii "avr://lcd clear\n"].flatten =
      ascii "aavr://lcd clear\n" ++ ascii "avr://lcd clear\n" := by simp
  rw [hflat] at heffects
  rw [heffects]
  decide +kernel

end BowerBird.Comms

import BowerBird.CommsBounds
import BowerBird.Firmware.Framing
import Mathlib.Data.List.Forall2

/-!
# The parser as a reader of framed lines

The state of the parser is computed from the mode of a reader of lines of any
length: it keeps the first `maxLineLength` bytes of the open line. As long as
the closed lines fit, the parser looks up the lines of that reader, in order.
-/

namespace BowerBird.Comms

open Firmware Firmware.CString Firmware.Exec
set_option autoImplicit false

/-- `avr://`, a line, and its end; nothing is read after the AVR reset command. -/
def commandFraming : Framing Byte where
  magic := commandPrefix
  isEnd := isLineEnd
  stops := resetCmd.isPrefixOf

def commandLines (bs : List Byte) : List (List Byte) := commandFraming.lines (.hunting 0) bs

def Short (line : List Byte) : Prop := line.length < maxLineLength

instance (line : List Byte) : Decidable (Short line) := inferInstanceAs (Decidable (_ < _))

theorem short_iff {line : List Byte} : Short line ↔ line.length ≤ 1023 := Nat.lt_succ_iff

/-- The state that belongs to a mode of the reader. -/
def Tracks (s : State) : Framing.Mode Byte → Prop
  | .hunting k => s.inCommand = false ∧ s.commandPrefixIndex = k ∧ k < commandPrefix.length ∧
      s.commandBufferIndex = 0 ∧ Nul s.commandBuffer.toList 1023
  | .reading line => s.inCommand = true ∧ s.commandPrefixIndex = 0 ∧
      s.commandBufferIndex = min line.length maxLineLength ∧
      s.commandBuffer.toList.take s.commandBufferIndex = line.take maxLineLength ∧
      (Short line → Nul s.commandBuffer.toList 1023)
  | .stopped => False

def Follows : Outcome State → Framing.Mode Byte → Prop
  | .ret s, m => Tracks s m
  | .hang, m => m = .stopped
  | .fault, _ => False

theorem Follows.returns {o : Outcome State} {m : Framing.Mode Byte} (h : Follows o m)
    (hm : m ≠ .stopped) : ∃ s, o = .ret s ∧ Tracks s m := by
  cases o with
  | ret s => exact ⟨s, rfl, h⟩
  | hang => exact absurd h hm
  | fault => exact absurd h id

def HoldsLine (mem line : List Byte) : Prop := ∃ rest, mem = line ++ 0#8 :: rest

theorem powerUp_tracks : Tracks powerUp (.hunting 0) := by
  refine ⟨rfl, rfl, by decide, rfl, ?_⟩
  rw [Nul, powerUp, Vector.toList_replicate, List.drop_replicate]
  exact List.mem_replicate.mpr ⟨by decide, rfl⟩

section Store
variable {buf : Vector Byte maxLineLength} {i : Nat} {b : Byte}

theorem store_inside (hi : i < maxLineLength) :
    store buf i b = ⟨[.store i b], .ret (buf.set i b hi)⟩ := by
  simp [store, hi, pure_def]

theorem store_outside (hi : ¬ i < maxLineLength) : store buf i b = ⟨[.store i b], .fault⟩ := by
  simp [store, hi, fault]

theorem toList_store (hi : i < maxLineLength) :
    (buf.set i b hi).toList = buf.toList.take i ++ b :: buf.toList.drop (i + 1) := by
  rw [Vector.toList_set, List.set_eq_take_append_cons_drop, if_pos (by simpa using hi)]

theorem nul_store (hi : i < 1023) (h : Nul buf.toList 1023) :
    Nul (buf.set i b (by unfold maxLineLength; omega)).toList 1023 := by
  unfold Nul at h ⊢
  rwa [Vector.toList_set, List.drop_set_of_lt hi]

/-- The terminator of a line that fits is the NUL, or leaves it alone. -/
theorem nul_terminate (hi : i < maxLineLength) (h : Nul buf.toList 1023) :
    Nul (buf.set i 0#8 hi).toList 1023 := by
  by_cases hlt : i < 1023
  · exact nul_store hlt h
  · have hi' : i = 1023 := by
      unfold maxLineLength at hi
      omega
    subst hi'
    have hlen : (buf.toList.take 1023).length = 1023 := by
      rw [List.length_take, Vector.length_toList]
      rfl
    rw [Nul, toList_store hi, List.drop_left' hlen]
    exact List.mem_cons_self

end Store

theorem tracks_reading {s : State} {line : List Byte} (h : Tracks s (.reading line))
    (hfit : Short line) : s.commandBufferIndex = line.length ∧
      s.commandBuffer.toList.take line.length = line := by
  obtain ⟨-, -, hidx, htake, -⟩ := h
  have hle : line.length ≤ maxLineLength := Nat.le_of_lt hfit
  rw [Nat.min_eq_left hle] at hidx
  rw [hidx, List.take_of_length_le hle] at htake
  exact ⟨hidx, htake⟩

theorem short_of_tracks {s : State} {line : List Byte} (h : Tracks s (.reading line))
    (hidx : s.commandBufferIndex < maxLineLength) : Short line := by
  rw [h.2.2.1] at hidx
  unfold Short
  omega

/-- The end of a line that fits: the line is terminated, looked up, and dropped. -/
theorem processByte_lineEnd {s : State} {line : List Byte} {b : Byte}
    (h : Tracks s (.reading line)) (hfit : Short line) (hb : isLineEnd b = true) :
    ∃ buf : Vector Byte maxLineLength,
      buf.toList = line ++ 0#8 :: s.commandBuffer.toList.drop (line.length + 1) ∧
      Nul buf.toList 1023 ∧
      processByte s b = (Exec.emit (.store line.length 0#8) >>= fun _ =>
        dispatchCommand buf.toList >>= fun _ =>
        pure { s with commandBuffer := buf, commandBufferIndex := 0, inCommand := false }) := by
  obtain ⟨hidx, htake⟩ := tracks_reading h hfit
  obtain ⟨hin, -, -, -, hnul⟩ := h
  have hroom : line.length < maxLineLength := hfit
  refine ⟨s.commandBuffer.set line.length 0#8 hroom, ?_, nul_terminate hroom (hnul hfit), ?_⟩
  · rw [toList_store hroom, htake]
  · simp only [processByte, hin, hb, if_true, hidx, store_inside hroom, ret_bind, emit_bind,
      List.singleton_append]

theorem processByte_lineEnd_returns {s : State} {line : List Byte} {b : Byte}
    (h : Tracks s (.reading line)) (hfit : Short line) (hb : isLineEnd b = true)
    (hreset : ¬ resetCmd <+: line) :
    ∃ (buf : Vector Byte maxLineLength) (es : List Event),
      buf.toList = line ++ 0#8 :: s.commandBuffer.toList.drop (line.length + 1) ∧
      Nul buf.toList 1023 ∧ (∀ e ∈ es, e.OfHandler) ∧
      processByte s b = ⟨.store line.length 0#8 :: .dispatch buf.toList :: es,
        .ret { s with commandBuffer := buf, commandBufferIndex := 0, inCommand := false }⟩ := by
  obtain ⟨buf, hbuf, hnul, heq⟩ := processByte_lineEnd h hfit hb
  have hreset' : ¬ resetCmd <+: buf.toList := by rwa [hbuf, prefix_of_prefix_line]
  obtain ⟨es, hes, hx⟩ :=
    dispatchCommand_returns (by simp) hnul.start (.of_last hnul) hreset'
  refine ⟨buf, es, hbuf, hnul, hes, ?_⟩
  rw [heq, hx, ret_bind, emit_bind]
  simp [pure_def]

theorem processByte_overlong {s : State} {line : List Byte} {b : Byte}
    (h : Tracks s (.reading line)) (hlong : ¬ Short line) (hb : isLineEnd b = true) :
    processByte s b = ⟨[.store maxLineLength 0#8], .fault⟩ := by
  obtain ⟨hin, -, hidx, -, -⟩ := h
  rw [Nat.min_eq_right (Nat.le_of_not_lt hlong)] at hidx
  simp only [processByte, hin, hb, if_true, hidx, store_outside (Nat.lt_irrefl _), fault_bind]

theorem take_concat_of_take {mem line : List Byte} {b : Byte} (h : mem.take line.length = line)
    (hlt : line.length < mem.length) :
    (mem.take line.length ++ b :: mem.drop (line.length + 1)).take (line.length + 1) =
      line ++ [b] := by
  have hlen : (mem.take line.length).length = line.length := by
    rw [List.length_take]
    omega
  rw [List.take_append, List.take_of_length_le (by omega), hlen, Nat.add_sub_cancel_left, h]
  rfl

/-- A byte inside a line is stored if there is room, and dropped if there is none. -/
theorem processByte_data {s : State} {line : List Byte} {b : Byte}
    (h : Tracks s (.reading line)) (hb : isLineEnd b = false) :
    ∃ s' es, processByte s b = ⟨es, .ret s'⟩ ∧ Tracks s' (.reading (line ++ [b])) ∧
      (∀ e ∈ es, e.OfHandler) ∧ es.filterMap Event.call? = [] ∧
      (Short line → s'.commandBuffer.toList.drop (line.length + 1) =
        s.commandBuffer.toList.drop (line.length + 1)) := by
  have htracks := h
  obtain ⟨hin, hpre, hidx, htake, hnul⟩ := h
  by_cases hfit : Short line
  · obtain ⟨hidx', htake'⟩ := tracks_reading htracks hfit
    have hroom : line.length < maxLineLength := hfit
    have hmem : line.length < s.commandBuffer.toList.length := by simpa using hroom
    have hlen : (line ++ [b]).length = line.length + 1 := by simp
    refine ⟨{ s with
        commandBuffer := s.commandBuffer.set line.length b hroom
        commandBufferIndex := line.length + 1 }, [.store line.length b], ?_, ?_, ?_, rfl, ?_⟩
    · simp only [processByte, hin, hb, hidx', hroom, store_inside hroom, ret_bind,
        pure_def, Bool.false_eq_true, ↓reduceIte, List.append_nil]
    · refine ⟨hin, hpre, ?_, ?_, ?_⟩
      · rw [hlen, Nat.min_eq_left hroom]
      · rw [toList_store hroom, take_concat_of_take htake' hmem, List.take_of_length_le]
        rw [hlen]
        exact hroom
      · intro hshort
        rw [short_iff, hlen] at hshort
        exact nul_store hshort (hnul hfit)
    · intro e he
      rw [List.mem_singleton] at he
      subst he
      exact ⟨hroom, rfl⟩
    · intro _
      rw [toList_store hroom, htake', List.append_cons, List.drop_left' hlen]
  · have hfull : s.commandBufferIndex = maxLineLength := by
      rw [hidx]
      exact Nat.min_eq_right (Nat.le_of_not_lt hfit)
    have hlong : maxLineLength ≤ line.length := Nat.le_of_not_lt hfit
    refine ⟨s, [], ?_, ?_, by simp, rfl, fun hshort => absurd hshort hfit⟩
    · simp [processByte, hin, hb, hfull, pure_def]
    · refine ⟨hin, hpre, ?_, ?_, ?_⟩
      · rw [hfull, List.length_append]
        omega
      · rw [htake, List.take_append_of_le_length hlong]
      · intro hshort
        rw [Short, List.length_append] at hshort
        omega

theorem processByte_hunting {s : State} {k : Nat} (h : Tracks s (.hunting k)) (b : Byte) :
    ∃ s', processByte s b = pure s' ∧ Tracks s' (commandFraming.step (.hunting k) b).1 ∧
      s'.commandBuffer = s.commandBuffer := by
  obtain ⟨hin, hpre, hk, hidx, hnul⟩ := h
  have hchar : (commandPrefix ++ [0#8])[k]? = some commandPrefix[k] := by
    rw [List.getElem?_append_left hk, List.getElem?_eq_getElem hk]
  have hmagic : commandFraming.magic[k]? = some b ↔ b = commandPrefix[k] := by
    change commandPrefix[k]? = some b ↔ _
    rw [List.getElem?_eq_getElem hk, Option.some.injEq, eq_comm]
  have hlen : commandFraming.magic.length = commandPrefix.length := rfl
  simp only [processByte, hin, hpre, hchar, ofOption_some, pure_bind, Framing.step, hmagic, hlen,
    Bool.false_eq_true, ↓reduceIte]
  by_cases hb : b = commandPrefix[k]
  · by_cases hlast : commandPrefix.length ≤ k + 1
    · refine ⟨{ s with commandPrefixIndex := 0, inCommand := true },
        by rw [if_pos hb, if_pos hlast], ?_, rfl⟩
      simp only [hb, hlast, ↓reduceIte]
      exact ⟨rfl, rfl, by simp [hidx], by simp [hidx], fun _ => hnul⟩
    · refine ⟨{ s with commandPrefixIndex := k + 1 },
        by rw [if_pos hb, if_neg hlast, hin], ?_, rfl⟩
      simp only [hb, hlast, ↓reduceIte]
      exact ⟨hin, rfl, by omega, hidx, hnul⟩
  · refine ⟨{ s with commandPrefixIndex := 0 }, by rw [if_neg hb, hin], ?_, rfl⟩
    simp only [hb, ↓reduceIte]
    exact ⟨hin, rfl, by decide, hidx, hnul⟩

/-- A call that behaves like a reader which ends in mode `m` and closes the lines `ls`. -/
structure Refined (x : Exec Event State) (m : Framing.Mode Byte) (ls : List (List Byte)) :
    Prop where
  inBounds : ∀ e ∈ x.events, e.InBounds
  follows : Follows x.outcome m
  dispatches : List.Forall₂ HoldsLine (seen Event.dispatch? x) ls

theorem Refined.bind {x : Exec Event State} {f : State → Exec Event State}
    {m m' : Framing.Mode Byte} {ls ls' : List (List Byte)} (hx : Refined x m ls)
    (hf : ∀ s, Tracks s m → Refined (f s) m' ls') (hstop : m = .stopped → m' = .stopped ∧ ls' = []) :
    Refined (x >>= f) m' (ls ++ ls') := by
  obtain ⟨hes, hout, hds⟩ := hx
  obtain ⟨es, s | _ | _⟩ := x
  · obtain ⟨hfs, hout', hds'⟩ := hf s hout
    refine ⟨?_, hout', ?_⟩
    · intro e he
      rcases List.mem_append.mp he with he | he
      · exact hes e he
      · exact hfs e he
    · simp only [seen, ret_bind, List.filterMap_append]
      exact List.rel_append hds hds'
  · obtain ⟨rfl, rfl⟩ := hstop hout
    rw [List.append_nil]
    exact ⟨hes, rfl, hds⟩
  · exact absurd hout id

theorem dispatch_of_handler {es : List Event} (h : ∀ e ∈ es, e.OfHandler) :
    es.filterMap Event.dispatch? = [] :=
  List.filterMap_eq_nil_iff.mpr fun e he => (h e he).noDispatch

theorem lineEnd_refines {s : State} {line : List Byte} {b : Byte} (h : Tracks s (.reading line))
    (hline : Short line) (hb : isLineEnd b = true) :
    Refined (processByte s b) (if resetCmd.isPrefixOf line then .stopped else .hunting 0)
      [line] := by
  by_cases hr : resetCmd <+: line
  · obtain ⟨buf, hbuf, hnul, heq⟩ := processByte_lineEnd h hline hb
    have hr' : resetCmd <+: buf.toList := by rwa [hbuf, prefix_of_prefix_line]
    rw [heq, dispatchCommand_reset hnul.start hr', if_pos (List.isPrefixOf_iff_prefix.mpr hr),
      hang_bind, emit_bind]
    refine ⟨?_, rfl, .cons ⟨_, hbuf⟩ .nil⟩
    intro e he
    simp only [List.mem_cons, List.not_mem_nil, or_false] at he
    rcases he with rfl | rfl | rfl
    · exact hline
    · trivial
    · trivial
  · obtain ⟨buf, es, hbuf, hnul, hes, heq⟩ := processByte_lineEnd_returns h hline hb hr
    rw [heq, if_neg (fun h => hr (List.isPrefixOf_iff_prefix.mp h))]
    refine ⟨?_, ⟨rfl, h.2.1, by decide, rfl, hnul⟩, ?_⟩
    · intro e he
      simp only [List.mem_cons] at he
      rcases he with rfl | rfl | he
      · exact hline
      · trivial
      · exact (hes e he).1
    · simp only [seen, List.filterMap_cons, Event.dispatch?, dispatch_of_handler hes]
      exact .cons ⟨_, hbuf⟩ .nil

theorem processByte_refines {s : State} {m : Framing.Mode Byte} (h : Tracks s m) (b : Byte)
    (hfit : ∀ line ∈ (commandFraming.step m b).2, Short line) :
    Refined (processByte s b) (commandFraming.step m b).1 (commandFraming.step m b).2 := by
  cases m with
  | hunting k =>
    obtain ⟨s', heq, htracks, -⟩ := processByte_hunting h b
    rw [heq, Framing.step_hunting]
    exact ⟨by simp [pure_def], htracks, by simp [seen, pure_def]⟩
  | stopped => exact absurd h id
  | reading line =>
    cases hb : isLineEnd b with
    | false =>
      obtain ⟨s', es, heq, htracks, hes, -, -⟩ := processByte_data h hb
      rw [heq, Framing.step_data commandFraming line hb]
      refine ⟨fun e he => (hes e he).1, htracks, ?_⟩
      simp [seen, dispatch_of_handler hes]
    | true =>
      rw [Framing.step_end commandFraming line hb] at hfit ⊢
      exact lineEnd_refines h (hfit line List.mem_cons_self) hb

/-- The parser looks up exactly the lines of the reader, and stays in its buffer. -/
theorem feed_refines {s : State} {m : Framing.Mode Byte} (h : Tracks s m) {bs : List Byte}
    (hfit : ∀ line ∈ commandFraming.lines m bs, Short line) :
    Refined (feed s bs) (commandFraming.run m bs) (commandFraming.lines m bs) := by
  induction bs generalizing s m with
  | nil => exact ⟨by simp [feed, pure_def], h, .nil⟩
  | cons b bs ih =>
    rw [Framing.lines_cons] at hfit ⊢
    have hstep := processByte_refines h b fun line hl => hfit line (List.mem_append_left _ hl)
    refine hstep.bind ?_ ?_
    · intro t ht
      exact ih ht fun line hl => hfit line (List.mem_append_right _ hl)
    · intro hstop
      rw [Framing.run_cons, hstop]
      exact ⟨Framing.run_stopped _ _, Framing.lines_stopped _ _⟩

theorem processByte_ret_short {s s' : State} {m : Framing.Mode Byte} (h : Tracks s m) {b : Byte}
    (hret : (processByte s b).outcome = .ret s') :
    ∀ line ∈ (commandFraming.step m b).2, Short line := by
  intro line hl
  obtain ⟨rfl, hb⟩ := Framing.of_mem_step commandFraming hl
  by_contra hlong
  rw [processByte_overlong h hlong hb] at hret
  cases hret

theorem feed_ret_tracks {s s' : State} {m : Framing.Mode Byte} (h : Tracks s m) {bs : List Byte}
    (hret : (feed s bs).outcome = .ret s') : Tracks s' (commandFraming.run m bs) := by
  induction bs generalizing s m with
  | nil =>
    cases hret
    exact h
  | cons b bs ih =>
    obtain ⟨t, ht, hrest⟩ := bind_returns.mp hret
    have hfollows := (processByte_refines h b (processByte_ret_short h ht)).follows
    rw [ht] at hfollows
    exact ih hfollows hrest

theorem Reachable.tracks {s : State} (h : Reachable s) : ∃ m, Tracks s m := by
  obtain ⟨bs, hbs⟩ := h
  exact ⟨_, feed_ret_tracks powerUp_tracks hbs⟩

theorem Reachable.byte_cases {s : State} (h : Reachable s) (b : Byte) :
    (∃ line, Tracks s (.reading line) ∧ isLineEnd b = true) ∨
      ¬ (s.inCommand = true ∧ isLineEnd b = true) ∧ ∃ t es, processByte s b = ⟨es, .ret t⟩ ∧
        (∀ e ∈ es, e.OfHandler) ∧ es.filterMap Event.call? = [] := by
  obtain ⟨m, hm⟩ := h.tracks
  cases m with
  | hunting k =>
    obtain ⟨t, ht, -⟩ := processByte_hunting hm b
    refine .inr ⟨fun hin => ?_, t, [], ht, by simp, rfl⟩
    rw [hm.1] at hin
    cases hin.1
  | stopped => exact absurd hm id
  | reading line =>
    cases hend : isLineEnd b with
    | false =>
      obtain ⟨t, es, ht, -, hes, hcalls, -⟩ := processByte_data hm hend
      exact .inr ⟨by simp, t, es, ht, hes, hcalls⟩
    | true => exact .inl ⟨line, hm, rfl⟩

theorem Reachable.tracks_idle {s : State} (h : Reachable s) (hidle : Idle s) :
    Tracks s (.hunting 0) := by
  obtain ⟨m, hm⟩ := h.tracks
  cases m with
  | hunting k =>
    obtain ⟨hin, hpre, hk, hidx, hnul⟩ := hm
    exact ⟨hin, hidle.2, by decide, hidx, hnul⟩
  | reading line =>
    have hin := hm.1
    rw [hidle.1] at hin
    exact absurd hin (by decide)
  | stopped => exact absurd hm id

end BowerBird.Comms

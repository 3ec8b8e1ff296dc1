import BowerBird.SoundPackets
import BowerBird.SoundStreaming

/-!
# Packets of a streaming session

A session begins where the stream becomes active. The fill level of the buffer
is not part of the interface's state: what an earlier session left in `samples`
stays there, and the first packet of the next session begins with it.
-/

namespace BowerBird.Sound

open Firmware Firmware.CString
set_option autoImplicit false

def waiting (b : Board) : List (BitVec 16) := b.samples.toList.take b.sampleIndex

/-- A run to `b` with the stream active, parted where it last became so. -/
structure Session (is : List Input) (b : Board) where
  before : List Input
  since : List Input
  shownBefore : List Event
  shown : List Event
  off : Board
  on : Board
  inputs_eq : is = before ++ .enable 1#8 :: since
  reached : Runs step powerUp before shownBefore off
  inactive : udiAudioIsActive off = false
  activated : on = { off with setting := 1 }
  run : Runs step on since shown b
  active : Along step (fun s _ => udiAudioIsActive s = true) on since

namespace Session
variable {is : List Input} {b : Board}

def taken (s : Session is b) (ok : Bool) : List (BitVec 16 × BitVec 16) :=
  gather step pairTaken s.on (s.since ++ [.tcInterrupt ok])

/-- What the next packet takes over from before the session. -/
def carried (s : Session is b) : List (BitVec 16) :=
  if (handed s.shown).isEmpty then waiting s.off else []

def extend (s : Session is b) {i : Input} {fs : List Event} {t : Board}
    (hb : udiAudioIsActive b = true) (hstep : step b i = ⟨fs, .ret t⟩) :
    Session (is ++ [i]) t :=
  { s with
    since := s.since ++ [i]
    shown := s.shown ++ fs
    inputs_eq := by
      have h := congrArg (fun js => js ++ [i]) s.inputs_eq
      rwa [List.append_assoc, List.cons_append] at h
    run := s.run.concat hstep
    active := s.active.concat fun es u hu => by
      have hrun := s.run
      rw [Runs] at hu hrun
      rw [hu] at hrun
      cases hrun
      exact hb }

def begin {es : List Event} (h : Runs step powerUp is es b) (hb : udiAudioIsActive b = false) :
    Session (is ++ [.enable 1#8]) { b with setting := 1 } where
  before := is
  since := []
  shownBefore := es
  shown := []
  off := b
  on := { b with setting := 1 }
  inputs_eq := rfl
  reached := h
  inactive := hb
  activated := rfl
  run := .refl _
  active := along_nil

end Session

theorem Move.active {b t : Board} {i : Input} {fs : List Event} (h : Move b i fs t)
    (ht : udiAudioIsActive t = true) :
    udiAudioIsActive b = true ∨
      udiAudioIsActive b = false ∧ i = .enable 1#8 ∧ t = { b with setting := 1 } := by
  rcases h.setting with hsame | ⟨alt, rfl, rfl⟩
  · left
    rw [udiAudioIsActive, ← hsame]
    exact ht
  · cases hb : udiAudioIsActive b with
    | true => exact .inl rfl
    | false =>
      obtain rfl : alt = 1#8 := by simpa using (enable_active_iff b alt).mp ht
      exact .inr ⟨rfl, rfl, rfl⟩

theorem session_exists {is : List Input} {es : List Event} {b : Board}
    (h : Runs step powerUp is es b) (hb : udiAudioIsActive b = true) : Nonempty (Session is b) := by
  induction is using List.reverseRecOn generalizing es b with
  | nil =>
    obtain ⟨-, rfl⟩ := runs_nil.mp h
    cases hb
  | append_singleton is i ih =>
    obtain ⟨es, s, fs, hs, hstep, rfl⟩ := runs_concat.mp h
    have hmove := move_of_step (runs_wellFormed hs) hstep
    rcases hmove.active hb with hactive | ⟨hoff, rfl, rfl⟩
    · obtain ⟨session⟩ := ih hs hactive
      exact ⟨session.extend hactive hstep⟩
    · exact ⟨.begin hs hoff⟩

theorem length_flatMap_entries (qs : List (BitVec 16 × BitVec 16)) :
    (qs.flatMap entries).length = 2 * qs.length := by
  induction qs with
  | nil => rfl
  | cons q qs ih =>
    rw [List.flatMap_cons, List.length_append, ih, List.length_cons]
    simp only [entries, List.length_cons, List.length_nil]
    omega

theorem drop_flatMap_entries (qs : List (BitVec 16 × BitVec 16)) (n : Nat) :
    (qs.drop n).flatMap entries = (qs.flatMap entries).drop (2 * n) := by
  induction qs generalizing n with
  | nil => simp
  | cons q qs ih =>
    cases n with
    | zero => rfl
    | succ n =>
      have hn : 2 * (n + 1) = (entries q).length + 2 * n := by
        simp only [entries, List.length_cons, List.length_nil]
        omega
      rw [List.drop_succ_cons, ih, hn, List.flatMap_cons, List.drop_append]
      simp

theorem pairs_of_suffix {qs : List (BitVec 16 × BitVec 16)} {xs p : List (BitVec 16)}
    (h : xs ++ p = qs.flatMap entries) (hp : 2 ∣ p.length) :
    ∃ q, q <:+ qs ∧ p = q.flatMap entries := by
  have hlen := congrArg List.length h
  rw [List.length_append, length_flatMap_entries] at hlen
  obtain ⟨n, hn⟩ := hp
  have hxs : xs.length = 2 * (qs.length - n) := by omega
  refine ⟨qs.drop (qs.length - n), List.drop_suffix _ _, ?_⟩
  rw [drop_flatMap_entries, ← h, ← hxs, List.drop_left]

theorem waiting_length_lt {b : Board} (h : WellFormed b) : (waiting b).length < samplesPerPacket := by
  have hidx := h.index
  simp only [waiting, List.length_take, Vector.length_toList]
  omega

theorem Move.handed_eq {b t : Board} {i : Input} {fs : List Event} (h : Move b i fs t)
    {p : List (BitVec 16)} (hp : p ∈ handed fs) : handed fs = [p] ∧ waiting t = [] := by
  cases h with
  | flush =>
    obtain rfl : (sampled b).toList = p := by simpa [handed, Event.handed?, eq_comm] using hp
    exact ⟨rfl, rfl⟩
  | spi hes => rcases hes with rfl | ⟨w, rfl⟩ <;> simp [handed, Event.handed?] at hp
  | _ => simp [handed, Event.handed?] at hp

namespace Session
variable {is : List Input} {b t : Board} {ok : Bool} {fs : List Event}

def announced : List Event :=
  [.printf (ascii "Changed to alt %d\r\n") [.word 1#32]]

theorem begins (s : Session is b) : Runs step s.off [.enable 1#8] announced s.on := by
  rw [runs_one, s.activated]
  rfl

theorem whole (s : Session is b) :
    Runs step powerUp is (s.shownBefore ++ (announced ++ s.shown)) b := by
  have hsince := runs_append.mpr ⟨_, _, _, s.begins, s.run, rfl⟩
  have hrun := runs_append.mpr ⟨_, _, _, s.reached, hsince, rfl⟩
  rwa [List.singleton_append, ← s.inputs_eq] at hrun

theorem pairsTaken_eq (s : Session is b) :
    pairsTaken (is ++ [.tcInterrupt ok]) = pairsTaken s.before ++ s.taken ok := by
  have hinputs : is ++ [.tcInterrupt ok] =
      s.before ++ ([.enable 1#8] ++ (s.since ++ [.tcInterrupt ok])) := by
    have h := congrArg (fun js => js ++ [Input.tcInterrupt ok]) s.inputs_eq
    rwa [List.append_assoc, List.cons_append] at h
  rw [pairsTaken, hinputs, gather_append _ s.reached, gather_append _ s.begins, gather_one]
  rfl

/-- The packets of a session hold what it found waiting and what it has taken. -/
theorem conserves (s : Session is b) (hstep : step b (.tcInterrupt ok) = ⟨fs, .ret t⟩) :
    (handed s.shown ++ handed fs).flatten ++ waiting t =
      waiting s.off ++ (s.taken ok).flatMap entries := by
  have hbefore := (runs_conserve s.reached).1
  have hwhole := (runs_conserve (s.whole.concat hstep)).1
  have hquiet : handed announced = [] := rfl
  unfold Conserves at hbefore hwhole
  rw [s.pairsTaken_eq, List.flatMap_append, ← hbefore] at hwhole
  simp only [handed_append, hquiet, List.nil_append, List.flatten_append,
    List.append_assoc] at hwhole ⊢
  exact List.append_cancel_left hwhole

theorem waiting_length_le (s : Session is b) (h : handed s.shown ≠ []) :
    (waiting s.off).length ≤ (handed s.shown).flatten.length := by
  obtain ⟨p, packets, hp⟩ := List.exists_cons_of_ne_nil h
  have hfull : p.length = samplesPerPacket := by
    apply (runs_conserve s.whole).2.2
    simp [handed_append, hp]
  have hwaiting := waiting_length_lt (runs_wellFormed s.reached)
  rw [hp, List.flatten_cons, List.length_append]
  omega

end Session

/-- Every packet holds the pairs of consecutive interrupts since the stream became
active, behind what waited then if it is the first one. -/
theorem packets_of_session (is : List Input) (ok : Bool) :
    ∃ es b fs t, Runs step powerUp is es b ∧ step b (.tcInterrupt ok) = ⟨fs, .ret t⟩ ∧
      ∀ p ∈ handed fs, ∃ s : Session is b, ∃ q, q <:+ s.taken ok ∧
        p = s.carried ++ q.flatMap entries ∧ (handed s.shown = [] → q = s.taken ok) := by
  obtain ⟨es, b, hb⟩ := runs_exist is
  have hwf := runs_wellFormed hb
  obtain ⟨fs, t, hstep, hmove⟩ := step_moves hwf (.tcInterrupt ok)
  refine ⟨es, b, fs, t, hb, hstep, fun p hp => ?_⟩
  have hactive : udiAudioIsActive b = true := by
    rw [← Bool.not_eq_false]
    intro hoff
    rw [inactive_hands_nothing hoff hstep] at hp
    cases hp
  obtain ⟨s⟩ := session_exists hb hactive
  obtain ⟨hfs, ht⟩ := hmove.handed_eq hp
  have hall := s.conserves hstep
  rw [hfs, ht, List.append_nil, List.flatten_append, List.flatten_singleton] at hall
  refine ⟨s, ?_⟩
  cases hshown : handed s.shown with
  | nil =>
    rw [hshown, List.flatten_nil, List.nil_append] at hall
    exact ⟨s.taken ok, List.suffix_refl _, by simpa [Session.carried, hshown] using hall, fun _ => rfl⟩
  | cons first packets =>
    have hne : handed s.shown ≠ [] := by simp [hshown]
    obtain ⟨left, hleft⟩ : waiting s.off <+: (handed s.shown).flatten :=
      List.prefix_of_prefix_length_le ⟨_, rfl⟩ ⟨_, hall⟩ (s.waiting_length_le hne)
    rw [← hleft, List.append_assoc] at hall
    have hfull : p.length = samplesPerPacket := hmove.handed_length p hp
    obtain ⟨q, hq, rfl⟩ := pairs_of_suffix (List.append_cancel_left hall) (hfull ▸ by decide)
    exact ⟨q, hq, by simp [Session.carried, hshown], by simp⟩

def stopped : List Input :=
  [.enable 1#8, .tcInterrupt true, .enable 0#8, .spiInterrupt true 0x0010#16 true,
    .spiInterrupt true 0x2010#16 true]

def restarted : List Input := .enable 1#8 :: List.replicate 31 (.tcInterrupt true)

/-- The first packet after the restart holds a sample that no interrupt after it took. -/
theorem restarted_sends_old_sample :
    ∃ es off fs b, Runs step powerUp stopped es off ∧ udiAudioIsActive off = false ∧
      Runs step off restarted fs b ∧
      ∃ p ∈ handed fs, ∃ v ∈ p, v ∉ (gather step pairTaken off restarted).flatMap entries := by
  obtain ⟨off, hoff, heval⟩ := runs_of_ret? step powerUp stopped (fun off =>
    (udiAudioIsActive off, (Exec.feed step off restarted).outcome.ret?.map fun _ =>
      (handed (Exec.feed step off restarted).events).any fun p => p.any fun v =>
        !((gather step pairTaken off restarted).flatMap entries).contains v))
    (v := (false, some true)) (by decide +kernel)
  obtain ⟨hinactive, hsent⟩ := Prod.mk.inj heval
  obtain ⟨b, hb, hold⟩ := runs_of_ret? step off restarted _ hsent
  rw [List.any_eq_true] at hold
  obtain ⟨p, hp, hv⟩ := hold
  rw [List.any_eq_true] at hv
  obtain ⟨v, hv, hnew⟩ := hv
  exact ⟨_, off, _, b, hoff, hinactive, hb, p, hp, v, hv, by simpa using hnew⟩

end BowerBird.Sound

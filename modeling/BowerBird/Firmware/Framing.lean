import Mathlib.Data.List.Basic
import Mathlib.Data.List.Induction

/-!
# Framed lines in a stream

A line is announced by a magic string and closed by an end symbol; everything
between a closed line and the next magic string is ignored. The reader matches
the magic string with one counter and no fallback. Lines have no length limit
here, and a reader that has read a stop line takes no further notice.
-/

namespace Firmware

set_option autoImplicit false

universe u

structure Framing (α : Type u) where
  magic : List α
  isEnd : α → Bool
  stops : List α → Bool

namespace Framing

inductive Mode (α : Type u) where
  | hunting (matched : Nat)
  | reading (line : List α)
  | stopped
  deriving Repr, DecidableEq

variable {α : Type u} [DecidableEq α] (F : Framing α)

/-- One symbol: the next mode, and the line it closes. -/
def step : Mode α → α → Mode α × List (List α)
  | .hunting k, b =>
    if F.magic[k]? = some b then
      if F.magic.length ≤ k + 1 then (.reading [], []) else (.hunting (k + 1), [])
    else (.hunting 0, [])
  | .reading line, b =>
    if F.isEnd b then (if F.stops line then .stopped else .hunting 0, [line])
    else (.reading (line ++ [b]), [])
  | .stopped, _ => (.stopped, [])

theorem step_hunting (k : Nat) (b : α) : (F.step (.hunting k) b).2 = [] := by
  simp only [step]
  split
  · split <;> rfl
  · rfl

theorem step_hunting_ne_stopped (k : Nat) (b : α) : (F.step (.hunting k) b).1 ≠ .stopped := by
  simp only [step]
  split
  · split <;> simp
  · simp

section Reading
variable {b : α} (line : List α)

theorem step_data (hb : F.isEnd b = false) :
    F.step (.reading line) b = (.reading (line ++ [b]), []) := by
  simp only [step, hb, Bool.false_eq_true, if_false]

theorem step_end (hb : F.isEnd b = true) :
    F.step (.reading line) b = (if F.stops line then .stopped else .hunting 0, [line]) := by
  simp only [step, hb, if_true]

end Reading

theorem of_mem_step {m : Mode α} {b : α} {line : List α} (h : line ∈ (F.step m b).2) :
    m = .reading line ∧ F.isEnd b = true := by
  cases m with
  | hunting k =>
    rw [step_hunting] at h
    cases h
  | stopped => cases h
  | reading line' =>
    cases hb : F.isEnd b with
    | false =>
      rw [step_data F line' hb] at h
      cases h
    | true =>
      rw [step_end F line' hb] at h
      obtain rfl := List.mem_singleton.mp h
      exact ⟨rfl, rfl⟩

def run : Mode α → List α → Mode α
  | m, [] => m
  | m, b :: bs => run (F.step m b).1 bs

def lines : Mode α → List α → List (List α)
  | _, [] => []
  | m, b :: bs => (F.step m b).2 ++ lines (F.step m b).1 bs

theorem run_append (m : Mode α) (xs ys : List α) :
    F.run m (xs ++ ys) = F.run (F.run m xs) ys := by
  induction xs generalizing m with
  | nil => rfl
  | cons b bs ih => exact ih (F.step m b).1

theorem lines_append (m : Mode α) (xs ys : List α) :
    F.lines m (xs ++ ys) = F.lines m xs ++ F.lines (F.run m xs) ys := by
  induction xs generalizing m with
  | nil => rfl
  | cons b bs ih => simp only [List.cons_append, lines, run, ih, List.append_assoc]

theorem run_cons (m : Mode α) (b : α) (bs : List α) :
    F.run m (b :: bs) = F.run (F.step m b).1 bs := rfl

theorem lines_cons (m : Mode α) (b : α) (bs : List α) :
    F.lines m (b :: bs) = (F.step m b).2 ++ F.lines (F.step m b).1 bs := rfl

@[simp] theorem run_stopped (bs : List α) : F.run .stopped bs = .stopped := by
  induction bs with
  | nil => rfl
  | cons b bs ih => simpa [run_cons, step] using ih

@[simp] theorem lines_stopped (bs : List α) : F.lines .stopped bs = [] := by
  induction bs with
  | nil => rfl
  | cons b bs ih => simpa [lines_cons, step] using ih

def Reads (m : Mode α) (bs : List α) (ls : List (List α)) (m' : Mode α) : Prop :=
  F.run m bs = m' ∧ F.lines m bs = ls

theorem Reads.append {F : Framing α} {m m' m'' : Mode α} {xs ys : List α} {ls ks : List (List α)}
    (h : F.Reads m xs ls m') (h' : F.Reads m' ys ks m'') :
    F.Reads m (xs ++ ys) (ls ++ ks) m'' := by
  obtain ⟨rfl, rfl⟩ := h
  obtain ⟨rfl, rfl⟩ := h'
  exact ⟨run_append F m xs ys, lines_append F m xs ys⟩

theorem reads_magic_from (pre post : List α) (h : F.magic = pre ++ post) (hne : post ≠ []) :
    F.Reads (.hunting pre.length) post [] (.reading []) := by
  induction post generalizing pre with
  | nil => exact absurd rfl hne
  | cons b post ih =>
    have hb : F.magic[pre.length]? = some b := by simp [h]
    cases post with
    | nil =>
      have hlast : F.magic.length ≤ pre.length + 1 := by simp [h]
      exact ⟨by simp [run, step, hb, hlast], by simp [lines, step, hb, hlast]⟩
    | cons c post =>
      have hmore : ¬ F.magic.length ≤ pre.length + 1 := by simp [h]
      have hnext := ih (pre ++ [b]) (by simp [h]) (by simp)
      rw [List.length_append, List.length_singleton] at hnext
      refine ⟨?_, ?_⟩
      · rw [run_cons]
        simpa [step, hb, hmore] using hnext.1
      · rw [lines_cons]
        simpa [step, hb, hmore] using hnext.2

theorem reads_magic (hne : F.magic ≠ []) : F.Reads (.hunting 0) F.magic [] (.reading []) :=
  reads_magic_from F [] F.magic rfl hne

theorem reads_data {bs : List α} (h : ∀ b ∈ bs, F.isEnd b = false) (line : List α) :
    F.Reads (.reading line) bs [] (.reading (line ++ bs)) := by
  induction bs generalizing line with
  | nil => exact ⟨by simp [run], rfl⟩
  | cons b bs ih =>
    have hb : F.isEnd b = false := h b List.mem_cons_self
    have hrest := ih (fun c hc => h c (List.mem_cons_of_mem b hc)) (line ++ [b])
    rw [List.append_assoc, List.singleton_append] at hrest
    exact ⟨by simpa [run_cons, step_data F line hb] using hrest.1,
      by simpa [lines_cons, step_data F line hb] using hrest.2⟩

theorem reads_end {b : α} (hb : F.isEnd b = true) {line : List α} (hgo : F.stops line = false) :
    F.Reads (.reading line) [b] [line] (.hunting 0) :=
  ⟨by simp [run, step_end F line hb, hgo], by simp [lines, step_end F line hb]⟩

/-- Symbols that cannot start the magic string. -/
def Filler (bs : List α) : Prop := ∀ b ∈ bs, F.magic.head? ≠ some b

theorem reads_filler {bs : List α} (h : F.Filler bs) :
    F.Reads (.hunting 0) bs [] (.hunting 0) := by
  induction bs with
  | nil => exact ⟨rfl, rfl⟩
  | cons b bs ih =>
    have hb : F.magic[0]? ≠ some b := by
      rw [← List.head?_eq_getElem?]
      exact h b List.mem_cons_self
    have hrest := ih fun c hc => h c (List.mem_cons_of_mem b hc)
    exact ⟨by simpa [run_cons, step, hb] using hrest.1, by simpa [lines_cons, step, hb] using hrest.2⟩

/-- A line on the wire: what precedes its magic string, the line, the symbol that
closes it, and what still belongs to the terminator. -/
structure Frame (α : Type u) where
  filler : List α
  line : List α
  close : α
  trailer : List α

def Frame.bytes (f : Frame α) : List α :=
  f.filler ++ F.magic ++ f.line ++ f.close :: f.trailer

structure Frame.Fits (f : Frame α) : Prop where
  filler : F.Filler f.filler
  line : ∀ b ∈ f.line, F.isEnd b = false
  close : F.isEnd f.close = true
  trailer : F.Filler f.trailer
  goesOn : F.stops f.line = false

theorem reads_frame (hne : F.magic ≠ []) {f : Frame α} (hf : f.Fits F) :
    F.Reads (.hunting 0) (f.bytes F) [f.line] (.hunting 0) := by
  have hhead := (reads_filler F hf.filler).append (reads_magic F hne)
  have hline := hhead.append (reads_data F hf.line [])
  have hclose := hline.append (reads_end F hf.close hf.goesOn)
  have hall := hclose.append (reads_filler F hf.trailer)
  simpa [Frame.bytes, List.append_assoc] using hall

/-- The round trip: a reader that starts afresh reads exactly the lines of the frames. -/
theorem reads_frames (hne : F.magic ≠ []) {fs : List (Frame α)} (hfs : ∀ f ∈ fs, f.Fits F) :
    F.Reads (.hunting 0) (fs.flatMap (Frame.bytes F)) (fs.map Frame.line) (.hunting 0) := by
  induction fs with
  | nil => exact ⟨rfl, rfl⟩
  | cons f fs ih =>
    have hrest := ih fun g hg => hfs g (List.mem_cons_of_mem f hg)
    have hall := (reads_frame F hne (hfs f List.mem_cons_self)).append hrest
    simpa using hall

def Mode.line? : Mode α → Option (List α)
  | .reading line => some line
  | _ => none

/-- The lines of a stream, with the one that is open at its end. -/
def started (m : Mode α) (bs : List α) : List (List α) :=
  F.lines m bs ++ (F.run m bs).line?.toList

/-- What has been received ends in what the mode has taken in. -/
def Holds : Mode α → List α → Prop
  | .hunting k, recent => k < F.magic.length ∧ F.magic.take k <:+ recent
  | .reading line, recent => (∃ u, recent = u ++ F.magic ++ line) ∧ ∀ b ∈ line, F.isEnd b = false
  | .stopped, _ => True

section Holds
variable {F} {m : Mode α} {recent : List α} {b : α}

omit [DecidableEq α] in
theorem holds_start (hne : F.magic ≠ []) (recent : List α) : F.Holds (.hunting 0) recent :=
  ⟨List.length_pos_of_ne_nil hne, List.nil_suffix⟩

theorem Holds.step_open (hne : F.magic ≠ []) (h : F.Holds m recent)
    (hopen : (F.step m b).2 = []) : F.Holds (F.step m b).1 (recent ++ [b]) := by
  cases m with
  | hunting k =>
    obtain ⟨hk, u, rfl⟩ := h
    by_cases hb : F.magic[k]? = some b
    · have htake : F.magic.take (k + 1) = F.magic.take k ++ [b] := by
        rw [List.take_add_one, hb]
        rfl
      by_cases hlast : F.magic.length ≤ k + 1
      · simp only [step, hb, hlast, if_true]
        rw [List.take_of_length_le hlast] at htake
        refine ⟨⟨u, ?_⟩, by simp⟩
        rw [List.append_nil, List.append_assoc, ← htake]
      · simp only [step, hb, hlast, if_true, if_false]
        refine ⟨by omega, u, ?_⟩
        rw [htake, List.append_assoc]
    · simp only [step, hb, if_false]
      exact holds_start hne _
  | reading line =>
    cases hb : F.isEnd b with
    | true =>
      rw [step_end F line hb] at hopen
      cases hopen
    | false =>
      obtain ⟨⟨u, rfl⟩, hline⟩ := h
      rw [step_data F line hb]
      refine ⟨⟨u, List.append_assoc _ _ _⟩, ?_⟩
      intro c hc
      rcases List.mem_append.mp hc with hc | hc
      · exact hline c hc
      · rw [List.mem_singleton.mp hc]
        exact hb
  | stopped => trivial

theorem holds_closed (hne : F.magic ≠ []) {line : List α} (h : line ∈ (F.step m b).2)
    (recent : List α) : F.Holds (F.step m b).1 recent := by
  obtain ⟨rfl, hb⟩ := of_mem_step F h
  rw [step_end F line hb]
  split
  · trivial
  · exact holds_start hne recent

end Holds

theorem run_holds (hne : F.magic ≠ []) (bs : List α) : F.Holds (F.run (.hunting 0) bs) bs := by
  induction bs using List.reverseRecOn with
  | nil => exact holds_start hne []
  | append_singleton bs b ih =>
    rw [run_append, run_cons]
    cases hout : (F.step (F.run (.hunting 0) bs) b).2 with
    | nil => exact ih.step_open hne hout
    | cons line ls =>
      have hline : line ∈ (F.step (F.run (.hunting 0) bs) b).2 := by
        rw [hout]
        exact List.mem_cons_self
      exact holds_closed hne hline _

/-- Every line of a stream is open when the symbol that closes it arrives. -/
theorem exists_closing {m : Mode α} {bs line : List α} (h : line ∈ F.lines m bs) :
    ∃ pre b post, bs = pre ++ b :: post ∧ F.run m pre = .reading line ∧ F.isEnd b = true := by
  induction bs generalizing m with
  | nil => cases h
  | cons b bs ih =>
    rw [lines_cons] at h
    rcases List.mem_append.mp h with h | h
    · obtain ⟨rfl, hb⟩ := of_mem_step F h
      exact ⟨[], b, bs, rfl, rfl, hb⟩
    · obtain ⟨pre, c, post, rfl, hrun, hc⟩ := ih h
      exact ⟨b :: pre, c, post, rfl, hrun, hc⟩

theorem run_of_no_magic (hne : F.magic ≠ []) {bs : List α} (h : ¬ F.magic <:+: bs) :
    ∃ k, F.run (.hunting 0) bs = .hunting k := by
  induction bs using List.reverseRecOn with
  | nil => exact ⟨0, rfl⟩
  | append_singleton bs b ih =>
    obtain ⟨k, hk⟩ := ih fun hbs => h (hbs.trans (List.prefix_append bs [b]).isInfix)
    have hrun : F.run (.hunting 0) (bs ++ [b]) = (F.step (.hunting k) b).1 := by
      rw [run_append, hk]
      rfl
    have hholds := run_holds F hne (bs ++ [b])
    cases hm : F.run (.hunting 0) (bs ++ [b]) with
    | hunting j => exact ⟨j, rfl⟩
    | reading line =>
      rw [hm] at hholds
      obtain ⟨⟨u, hu⟩, -⟩ := hholds
      exact absurd ⟨u, line, hu.symm⟩ h
    | stopped =>
      rw [hm] at hrun
      exact absurd hrun.symm (step_hunting_ne_stopped F k b)

theorem run_ne_stopped {m : Mode α} {bs : List α} (hm : m ≠ .stopped)
    (h : ∀ line ∈ F.lines m bs, F.stops line = false) : F.run m bs ≠ .stopped := by
  induction bs generalizing m with
  | nil => exact hm
  | cons b bs ih =>
    rw [lines_cons] at h
    apply ih
    · cases m with
      | hunting k => exact step_hunting_ne_stopped F k b
      | reading line =>
        cases hb : F.isEnd b with
        | false =>
          rw [step_data F line hb]
          simp
        | true =>
          have hgo : F.stops line = false := by
            apply h
            rw [step_end F line hb]
            simp
          rw [step_end F line hb, hgo]
          simp
      | stopped => exact absurd rfl hm
    · exact fun line hl => h line (List.mem_append_right _ hl)

theorem started_reading (line ys : List α) :
    ∃ more ∈ F.started (.reading line) ys, line <+: more := by
  induction ys generalizing line with
  | nil => exact ⟨line, by simp [started, run, lines, Mode.line?], List.prefix_refl line⟩
  | cons b ys ih =>
    unfold started at ih ⊢
    rw [lines_cons, run_cons]
    cases hb : F.isEnd b with
    | false =>
      rw [step_data F line hb]
      obtain ⟨more, hmore, hpre⟩ := ih (line ++ [b])
      exact ⟨more, hmore, (List.prefix_append line [b]).trans hpre⟩
    | true =>
      rw [step_end F line hb]
      exact ⟨line, by simp, List.prefix_refl line⟩

theorem started_append {m : Mode α} {xs line : List α} (ys : List α) (h : line ∈ F.started m xs) :
    ∃ more ∈ F.started m (xs ++ ys), line <+: more := by
  unfold started at h ⊢
  rw [lines_append, run_append]
  rcases List.mem_append.mp h with h | h
  · refine ⟨line, ?_, List.prefix_refl line⟩
    rw [List.append_assoc]
    exact List.mem_append_left _ h
  · cases hm : F.run m xs with
    | reading line' =>
      rw [hm] at h
      obtain rfl : line = line' := by simpa [Mode.line?] using h
      obtain ⟨more, hmore, hpre⟩ := F.started_reading line ys
      refine ⟨more, ?_, hpre⟩
      rw [List.append_assoc]
      exact List.mem_append_right _ hmore
    | hunting k =>
      rw [hm] at h
      cases h
    | stopped =>
      rw [hm] at h
      cases h

/-- A line in the sense of the sender: it ends in its only end symbol. -/
def Terminated (seg : List α) : Prop :=
  ∃ body e, seg = body ++ [e] ∧ (∀ b ∈ body, F.isEnd b = false) ∧ F.isEnd e = true

theorem lines_open {m : Mode α} {body : List α} (h : ∀ b ∈ body, F.isEnd b = false) :
    F.lines m body = [] := by
  induction body generalizing m with
  | nil => rfl
  | cons b body ih =>
    rw [lines_cons, ih fun c hc => h c (List.mem_cons_of_mem b hc), List.append_nil,
      List.eq_nil_iff_forall_not_mem]
    intro line hline
    have hb := (of_mem_step F hline).2
    rw [h b List.mem_cons_self] at hb
    cases hb

section LineEnds
variable (hmagic : ∀ b ∈ F.magic, F.isEnd b = false)
include hmagic

/-- Every line end brings a reader that goes on back to its start. -/
theorem step_restarts {m : Mode α} {e : α} (he : F.isEnd e = true) (hm : m ≠ .stopped)
    (hgo : ∀ line ∈ (F.step m e).2, F.stops line = false) : (F.step m e).1 = .hunting 0 := by
  cases m with
  | hunting k =>
    have hk : F.magic[k]? ≠ some e := by
      intro h
      rw [hmagic e (List.mem_of_getElem? h)] at he
      cases he
    simp only [step, hk, if_false]
  | reading line =>
    rw [step_end F line he] at hgo ⊢
    simp only [hgo line List.mem_cons_self, Bool.false_eq_true, if_false]
  | stopped => exact absurd rfl hm

theorem reads_terminated {seg : List α} (h : F.Terminated seg)
    (hgo : ∀ line ∈ F.lines (.hunting 0) seg, F.stops line = false) :
    F.Reads (.hunting 0) seg (F.lines (.hunting 0) seg) (.hunting 0) := by
  obtain ⟨body, e, rfl, hbody, he⟩ := h
  have hopen : F.lines (.hunting 0) body = [] := lines_open F hbody
  have hm : F.run (.hunting 0) body ≠ .stopped := by
    apply run_ne_stopped
    · simp
    · simp [hopen]
  refine ⟨?_, rfl⟩
  rw [lines_append, hopen, List.nil_append, lines_cons, lines, List.append_nil] at hgo
  rw [run_append, run_cons]
  exact step_restarts F hmagic he hm hgo

theorem reads_terminated_lines {segs : List (List α)} (h : ∀ seg ∈ segs, F.Terminated seg)
    (hgo : ∀ seg ∈ segs, ∀ line ∈ F.lines (.hunting 0) seg, F.stops line = false) :
    F.Reads (.hunting 0) segs.flatten (segs.flatMap (F.lines (.hunting 0))) (.hunting 0) := by
  induction segs with
  | nil => exact ⟨rfl, rfl⟩
  | cons seg segs ih =>
    have hfirst := reads_terminated F hmagic (h seg List.mem_cons_self) (hgo seg List.mem_cons_self)
    have hrest := ih (fun s hs => h s (List.mem_cons_of_mem seg hs))
      fun s hs => hgo s (List.mem_cons_of_mem seg hs)
    exact hfirst.append hrest

end LineEnds

end Framing

end Firmware

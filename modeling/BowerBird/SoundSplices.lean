import BowerBird.Firmware.Splices
import BowerBird.SoundPackets
import BowerBird.SoundTransfers

/-!
# What a disturbed transfer carries

A packet that is refused has still been copied into `gBuffer`, and the running transfer
goes on with it. So what the host gets is a splice: the accepted packet up to some byte,
and from there on later ones. A sample may be torn, but no byte changes its place, and so
none gets into the other channel.
-/

namespace BowerBird.Sound

open Firmware Firmware.CString
set_option autoImplicit false

variable {b u : Board} {i : Input} {is : List Input} {es fs : List Event}
variable {p bytes : List Byte} {ps : List (List Byte)}

def Event.offered? : Event → Option (List Byte)
  | .epRun packet _ => some packet
  | _ => none

/-- The packets for which the driver was asked. -/
def offered (es : List Event) : List (List Byte) := es.filterMap Event.offered?

/-- The transfer of `p` is the last that was started and has not completed, and `ps` were
refused while it ran. -/
def Since (es : List Event) (p : List Byte) (ps : List (List Byte)) : Prop :=
  ∃ before during, es = before ++ .epRun p true :: during ∧ accepted during = [] ∧
    transmitted during = [] ∧ offered during = ps

theorem Since.append (h : Since es p ps) (haccepted : accepted fs = [])
    (htransmitted : transmitted fs = []) : Since (es ++ fs) p (ps ++ offered fs) := by
  obtain ⟨before, during, rfl, ha, ht, rfl⟩ := h
  refine ⟨before, during ++ fs, by simp, ?_, ?_, List.filterMap_append⟩
  · rw [accepted, List.filterMap_append]
    exact List.append_eq_nil_iff.mpr ⟨ha, haccepted⟩
  · rw [transmitted, List.filterMap_append]
    exact List.append_eq_nil_iff.mpr ⟨ht, htransmitted⟩

/-- The running transfer has read a splice of the packets that were in `gBuffer` while it
ran, of which the last one is there now. -/
def Reads (es : List Event) (b : Board) : Prop :=
  ∀ t, b.running = some t → ∃ p ps, Since es p ps ∧
    (p :: ps).getLast? = some b.gBuffer.toList ∧ Splice (p :: ps) t.fetched

/-- What a completed transfer carried. -/
def Carries (es : List Event) (bytes : List Byte) : Prop :=
  ∃ p ps, Since es p ps ∧ bytes.length = epSizeIn ∧ Splice (p :: ps) bytes ∧ (ps = [] → bytes = p)

theorem Reads.of_quiet (h : Reads es b) (hrunning : u.running = b.running)
    (hbuffer : u.gBuffer = b.gBuffer) (haccepted : accepted fs = [])
    (htransmitted : transmitted fs = []) (hoffered : offered fs = []) : Reads (es ++ fs) u := by
  intro t ht
  rw [hrunning] at ht
  obtain ⟨p, ps, hsince, hlast, hsplice⟩ := h t ht
  have hsince' := hsince.append haccepted htransmitted
  rw [hoffered, List.append_nil] at hsince'
  refine ⟨p, ps, hsince', ?_, hsplice⟩
  rw [hbuffer, hlast]

theorem Reads.flush (h : Reads es b) {ok : Bool} {j k : Nat} {v w : BitVec 16}
    {samples : List (BitVec 16)} {g : Vector Byte epSizeIn} (hbuffer : u.gBuffer = g)
    (hrunning : u.running = nextTransfer b.running ok) :
    Reads (es ++ [.store j v, .store k w, .sendSamples samples,
      .epRun g.toList (b.running.isNone && ok)]) u := by
  intro t ht
  rw [hrunning] at ht
  cases hr : b.running with
  | none =>
    rw [hr] at ht
    cases ok with
    | false => cases ht
    | true =>
      cases ht
      refine ⟨g.toList, [], ?_, by rw [hbuffer]; rfl, Splice.nil _⟩
      exact ⟨es ++ [.store j v, .store k w, .sendSamples samples], [], by simp, rfl, rfl, rfl⟩
  | some t' =>
    rw [hr] at ht
    obtain rfl : t' = t := Option.some.inj ht
    obtain ⟨p, ps, hsince, -, hsplice⟩ := h t' hr
    refine ⟨p, ps ++ [g.toList], hsince.append rfl rfl, ?_, hsplice.over g.toList⟩
    rw [hbuffer, ← List.cons_append, List.getLast?_concat]

theorem Reads.fetch (h : Reads es b) {t : Transfer} {c : Byte} (ht : b.running = some t)
    (hc : b.gBuffer.toList[t.fetched.length]? = some c) :
    Reads es { b with running := some { t with fetched := t.fetched ++ [c] } } := by
  intro t' ht'
  cases ht'
  obtain ⟨p, ps, hsince, hlast, hsplice⟩ := h t ht
  refine ⟨p, ps, hsince, hlast, hsplice.read hlast ?_⟩
  rw [drop_eq_cons hc]
  exact ⟨_, rfl⟩

theorem Reads.complete (h : Reads es b) (hwf : WellFormed b) {t : Transfer}
    (ht : b.running = some t) :
    Carries es (t.fetched ++ b.gBuffer.toList.drop t.fetched.length) := by
  obtain ⟨p, ps, hsince, hlast, hsplice⟩ := h t ht
  have hle := (hwf.transfer t ht).2
  have hlen : (t.fetched ++ b.gBuffer.toList.drop t.fetched.length).length = epSizeIn := by
    rw [List.length_append, List.length_drop, Vector.length_toList]
    omega
  have hall := hsplice.read hlast (List.prefix_refl _)
  refine ⟨p, ps, hsince, hlen, hall, ?_⟩
  rintro rfl
  apply hall.eq
  have hp : p = b.gBuffer.toList := Option.some.inj hlast
  rw [hlen, hp, Vector.length_toList]

theorem Move.reads (h : Move b i fs u) (hes : Reads es b) : Reads (es ++ fs) u := by
  cases h with
  | spi hfs =>
    rcases hfs with rfl | ⟨w, rfl⟩
    · exact hes.of_quiet rfl rfl rfl rfl rfl
    · exact hes.of_quiet rfl rfl rfl rfl rfl
  | flush => exact hes.flush rfl rfl
  | fetch ht hc =>
    rw [List.append_nil]
    exact hes.fetch ht hc
  | complete =>
    intro t ht
    cases ht
  | _ => exact hes.of_quiet rfl rfl rfl rfl rfl

theorem Move.carries (h : Move b i fs u) (hwf : WellFormed b) (hes : Reads es b)
    {pre post : List Event} (hfs : fs = pre ++ .transmitted bytes :: post) :
    Carries (es ++ pre) bytes := by
  have hmem : Event.transmitted bytes ∈ fs := by simp [hfs]
  cases h with
  | spi hspi => rcases hspi with rfl | ⟨w, rfl⟩ <;> simp at hmem
  | complete ht =>
    cases pre with
    | nil =>
      obtain ⟨heq, -⟩ := List.cons.inj hfs
      cases heq
      rw [List.append_nil]
      exact hes.complete hwf ht
    | cons e pre => simp at hfs
  | _ => simp at hmem

theorem runs_carry (h : Runs step powerUp is es b) {pre post : List Event}
    (hes : es = pre ++ .transmitted bytes :: post) : Carries pre bytes := by
  have hboth := runs_history (C := fun _ _ => True) (H := fun _ es b => Reads es b ∧
    ∀ pre bytes post, es = pre ++ .transmitted bytes :: post → Carries pre bytes) ?_ ?_
    along_true h
  · exact hboth.2 pre bytes post hes
  · constructor
    · intro t ht
      cases ht
    · intro pre bytes post hnil
      simp at hnil
  · rintro is es s i fs u hr ⟨hreads, hcarries⟩ - hmove
    refine ⟨hmove.reads hreads, ?_⟩
    intro pre bytes post heq
    rcases List.append_eq_append_iff.mp heq with ⟨mid, rfl, hfs⟩ | ⟨mid, rfl, hpost⟩
    · exact hmove.carries (runs_wellFormed hr) hreads hfs
    · cases mid with
      | nil =>
        have hfs : fs = [] ++ .transmitted bytes :: post := hpost.symm
        simpa using hmove.carries (runs_wellFormed hr) hreads hfs
      | cons e mid =>
        obtain ⟨rfl, -⟩ := List.cons.inj hpost
        exact hcarries pre bytes mid rfl

def tornTransfer : List Input :=
  [.enable 1#8] ++ List.replicate 32 (.tcInterrupt true) ++ List.replicate 5 .fetch ++
    [.spiInterrupt true 0x0002#16 true] ++ List.replicate 32 (.tcInterrupt true) ++ [.complete]

def tornBytes : List Byte :=
  List.replicate 5 0xff#8 ++ [0x00#8, 0xff#8, 0xff#8] ++
    (List.replicate 30 [0x10#8, 0x00#8, 0xff#8, 0xff#8]).flatten

theorem tornTransfer_runs :
    ∃ pre b, Runs step powerUp tornTransfer (pre ++ [.transmitted tornBytes]) b := by
  obtain ⟨b, hb, -⟩ := runs_of_ret? step powerUp tornTransfer (fun b => b.running.isSome)
    (v := false) (by decide +kernel)
  have hes : (Exec.feed step powerUp tornTransfer).events =
      (Exec.feed step powerUp tornTransfer).events.dropLast ++ [.transmitted tornBytes] := by
    decide +kernel
  rw [hes] at hb
  exact ⟨_, b, hb⟩

theorem Since.mem_offered (h : Since es p ps) {v : List Byte} (hv : v ∈ p :: ps) :
    v ∈ offered es := by
  obtain ⟨before, during, rfl, -, -, rfl⟩ := h
  have hsplit : offered (before ++ .epRun p true :: during) =
      offered before ++ p :: offered during := List.filterMap_append
  rw [hsplit]
  exact List.mem_append_right _ hv

theorem Move.offers (h : Move b i fs u) : offered fs = (handed fs).map memoryImage := by
  cases h with
  | spi hes => rcases hes with rfl | ⟨w, rfl⟩ <;> rfl
  | _ => rfl

theorem runs_offered (h : Runs step powerUp is es b) :
    offered es = (handed es).map memoryImage := by
  refine runs_history (C := fun _ _ => True) (H := fun _ es _ =>
    offered es = (handed es).map memoryImage) rfl ?_ along_true h
  intro is es s i fs u _ hs _ hmove
  rw [handed_append, List.map_append, ← hs, ← hmove.offers]
  exact List.filterMap_append

theorem getElem?_memoryImage (xs : List (BitVec 16)) (k : Nat) :
    (memoryImage xs)[k]? = xs[k / 2]?.bind fun x => (memoryBytes x)[k % 2]? := by
  induction xs generalizing k with
  | nil => simp [memoryImage]
  | cons x xs ih =>
    rcases k with _ | _ | k
    · rfl
    · rfl
    · have hdiv : (k + 1 + 1) / 2 = k / 2 + 1 := by omega
      have hmod : (k + 1 + 1) % 2 = k % 2 := by omega
      rw [hdiv, hmod, List.getElem?_cons_succ, ← ih k]
      rfl

/-- However slow the host is, what it gets at the place of a channel is of that channel. -/
theorem channels_stay_apart (h : Runs step powerUp is es b) (hbytes : bytes ∈ transmitted es)
    {k : Nat} {c : Byte} (hc : bytes[k]? = some c) :
    ∃ q ∈ pairsTaken is, (memoryBytes (if k / 2 % 2 = 0 then q.1 else q.2))[k % 2]? = some c := by
  obtain ⟨e, he, hebytes⟩ := List.mem_filterMap.mp hbytes
  have hev : e = .transmitted bytes := by
    cases e <;> cases hebytes
    rfl
  obtain ⟨pre, post, hes⟩ := List.append_of_mem (hev ▸ he)
  obtain ⟨p, ps, hsince, -, ⟨f, -, hsplice⟩, -⟩ := runs_carry h hes
  obtain ⟨v, hv, hvc⟩ := hsplice k c hc
  have hoffered : v ∈ offered es := by
    rw [hes, offered, List.filterMap_append]
    exact List.mem_append_left _ (hsince.mem_offered (List.mem_of_getElem? hv))
  rw [runs_offered h] at hoffered
  obtain ⟨g, hg, rfl⟩ := List.mem_map.mp hoffered
  obtain ⟨n, hn⟩ := List.mem_iff_getElem?.mp hg
  obtain ⟨hconserves, -, hlen⟩ := runs_conserve h
  obtain ⟨hglen, haligned⟩ := aligned_of_conserves hconserves hlen n g hn
  rw [getElem?_memoryImage] at hvc
  obtain ⟨x, hx, hxc⟩ := Option.bind_eq_some_iff.mp hvc
  have hk : k / 2 < samplesPerPacket := by
    rw [← hglen]
    exact (List.getElem?_eq_some_iff.mp hx).1
  obtain ⟨q, hq, hgx⟩ := haligned (k / 2) hk
  rw [hx, Option.some.injEq] at hgx
  refine ⟨q, List.mem_of_getElem? hq, ?_⟩
  rw [← hxc, hgx]
  rfl

theorem channels_stay_apart_torn :
    ∃ pre b, Runs step powerUp tornTransfer (pre ++ [.transmitted tornBytes]) b ∧
      tornBytes[5]? = some 0x00#8 ∧ ∃ q ∈ pairsTaken tornTransfer,
        (memoryBytes q.1)[1]? = some 0x00#8 := by
  obtain ⟨pre, b, hb⟩ := tornTransfer_runs
  have hmem : tornBytes ∈ transmitted (pre ++ [.transmitted tornBytes]) := by
    rw [transmitted, List.filterMap_append]
    exact List.mem_append_right _ (List.mem_singleton_self _)
  obtain ⟨q, hq, hbyte⟩ := channels_stay_apart (k := 5) (c := 0x00#8) hb hmem (by decide)
  exact ⟨pre, b, hb, by decide, q, hq, hbyte⟩

end BowerBird.Sound

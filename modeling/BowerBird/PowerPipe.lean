import BowerBird.PowerSteps

/-!
# The pipe from the USB host to the Beagle

The bytes taken from the host are the bytes written to the USART followed by those
in `beagleOutFIFO`, exactly as long as every byte is taken when there is room for
it.
-/

namespace BowerBird.Power

open Firmware Firmware.CString
set_option autoImplicit false

def Event.getc? : Event → Option Byte
  | .getc c => some c
  | _ => none

def Event.usartWriteChar? : Event → Option Byte
  | .usartWriteChar c => some c
  | _ => none

def hostBytes (es : List Event) : List Byte := es.filterMap Event.getc?

def beagleBytes (es : List Event) : List Byte := es.filterMap Event.usartWriteChar?

def Lossless (is : List Input) : Prop :=
  ∀ es b, Runs step powerUp is es b → hostBytes es = beagleBytes es ++ b.beagleOutFIFO.contents

/-- A byte that the main loop is about to take from the host has room in the queue. -/
def RoomForHost (b : Board) (i : Input) : Prop :=
  ∀ env, i = .mainLoop env → b.inHandler = false → b.next = .usbInput → env.rx ≠ none →
    b.beagleOutFIFO.contents.length < fifoBufferSize

theorem Move.pipes {b t : Board} {i : Input} {fs : List Event} (h : Move b i fs t)
    (hroom : RoomForHost b i) :
    b.beagleOutFIFO.contents ++ hostBytes fs = beagleBytes fs ++ t.beagleOutFIFO.contents := by
  cases h with
  | @fromHost env c hin hnext hc =>
    have hlt := hroom env rfl hin hnext (by simp [hc])
    change _ ++ [c] = [] ++ (b.beagleOutFIFO.push c).contents
    rw [Fifo.contents_push, if_pos hlt, List.nil_append]
  | @toBeagle env c q hin hnext hc =>
    change _ ++ [] = [c] ++ q.contents
    rw [Fifo.contents_of_pull? hc]
    simp
  | @handled env c q es s n hin hnext hc hes =>
    have hhost : hostBytes es = [] := filterMap_putc (fun _ => rfl) hes
    have hbeagle : beagleBytes es = [] := filterMap_putc (fun _ => rfl) hes
    change _ ++ hostBytes es = beagleBytes es ++ _
    rw [hhost, hbeagle, List.append_nil, List.nil_append]
  | _ => exact List.append_nil _

theorem runs_lossless {is : List Input} (hC : Along step RoomForHost powerUp is) :
    Lossless is := by
  intro es b h
  refine Runs.history (H := fun _ es b => hostBytes es = beagleBytes es ++ b.beagleOutFIFO.contents)
    rfl ?_ hC h
  intro is es s i fs u _ hs hCi hstep
  have hmove := (step_moves hstep).pipes hCi
  unfold hostBytes beagleBytes at *
  rw [List.filterMap_append, List.filterMap_append, hs, List.append_assoc, hmove, List.append_assoc]

/-- Nothing is lost, duplicated or reordered in a run exactly if the main loop finds
room for every byte it takes from the host. -/
theorem lossless_iff (is : List Input) :
    (∀ pre, pre <+: is → Lossless pre) ↔ Along step RoomForHost powerUp is := by
  refine forall_prefix_iff_along (fun is hC => runs_lossless hC) ?_ is
  rintro is i es b hC hb hlossless env rfl hin hnext hrx
  obtain ⟨c, hc⟩ := Option.ne_none_iff_exists'.mp hrx
  by_contra hfull
  have hstep : step b (.mainLoop env) = ⟨[.getc c],
      .ret { b with beagleOutFIFO := b.beagleOutFIFO.push c, next := .usartOutput }⟩ := by
    simp [step, hin, mainLoop, hnext, hc, Exec.pure_def]
  have hbefore := runs_lossless hC es b hb
  have hafter : hostBytes (es ++ [.getc c]) =
      beagleBytes (es ++ [.getc c]) ++ (b.beagleOutFIFO.push c).contents :=
    hlossless _ _ (hb.concat hstep)
  have hhost : hostBytes (es ++ [.getc c]) = hostBytes es ++ [c] := List.filterMap_append ..
  have hbeagle : beagleBytes (es ++ [.getc c]) = beagleBytes es ++ [] := List.filterMap_append ..
  -- the byte taken is neither written nor kept
  rw [hhost, hbeagle, Fifo.contents_push, if_neg hfull, List.append_nil, ← hbefore] at hafter
  simp at hafter

def hostSends (c : Byte) : List Input := List.replicate 3 (.mainLoop ⟨some c, false, []⟩)

def fastHost : List Input :=
  (List.replicate 64 (hostSends 0x61#8)).flatten ++ hostSends 0x62#8

/-- The 65th byte is taken and dropped. -/
theorem fastHost_loses_byte :
    ∃ es b, Runs step powerUp fastHost es b ∧
      hostBytes es = List.replicate 64 0x61#8 ++ [0x62#8] ∧ beagleBytes es = [] ∧
      b.beagleOutFIFO.contents = List.replicate 64 0x61#8 := by
  obtain ⟨b, hb, hcontents⟩ := runs_of_ret? step powerUp fastHost
    (fun b => b.beagleOutFIFO.contents) (v := List.replicate 64 0x61#8) (by decide +kernel)
  exact ⟨_, b, hb, by decide +kernel, by decide +kernel, hcontents⟩

end BowerBird.Power

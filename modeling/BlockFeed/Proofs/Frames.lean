import BlockFeed.Bytes.Endian
import Mathlib.Algebra.Ring.Nat
import Mathlib.Data.List.Forall2

/-! Byte strings with parts left open. A frame is what stands around one open part, and frames one
behind the other are what stands around several. Whatever agrees with filled frames outside the open
parts is the same frames filled in another way. -/

namespace BlockFeed

namespace Bytes

/-- The `count` bytes from `start` on. -/
def slice (bytes : Bytes) (start count : Nat) : Bytes := (bytes.drop start).take count

theorem slice_middle (front middle back : Bytes) :
    slice (front ++ middle ++ back) front.length middle.length = middle := by
  rw [slice, List.append_assoc, List.drop_left, List.take_left]

/-- The second byte string is as long as the first, and differs from it at hidden positions only. -/
structure AgreesExcept (hidden : Nat → Prop) (first second : Bytes) : Prop where
  length : second.length = first.length
  outside : ∀ position, ¬hidden position → second[position]? = first[position]?

namespace AgreesExcept

variable {hidden : Nat → Prop} {first second : Bytes}

theorem eq (h : AgreesExcept hidden first second)
    (hNone : ∀ position < first.length, ¬hidden position) : second = first := by
  refine List.ext_getElem? fun position => ?_
  by_cases hInside : position < first.length
  · exact h.outside position (hNone position hInside)
  · have hSecond : second.length ≤ position := h.length ▸ Nat.le_of_not_lt hInside
    rw [List.getElem?_eq_none hSecond, List.getElem?_eq_none (Nat.le_of_not_lt hInside)]

theorem mono {hidden' : Nat → Prop} (h : AgreesExcept hidden first second)
    (hHidden : ∀ position, hidden position → hidden' position) : AgreesExcept hidden' first second where
  length := h.length
  outside position hPosition := h.outside position fun hOwn => hPosition (hHidden position hOwn)

theorem exists_append {front back : Bytes} (h : AgreesExcept hidden (front ++ back) second) :
    ∃ front' back', second = front' ++ back' ∧ AgreesExcept hidden front front' ∧
      AgreesExcept (fun position => hidden (front.length + position)) back back' := by
  have hLength := h.length
  rw [List.length_append] at hLength
  refine ⟨second.take front.length, second.drop front.length, (List.take_append_drop _ _).symm,
    ⟨by rw [List.length_take]; omega, fun position hPosition => ?_⟩,
    ⟨by rw [List.length_drop]; omega, fun position hPosition => ?_⟩⟩
  · by_cases hInside : position < front.length
    · rw [List.getElem?_take_of_lt hInside, h.outside position hPosition,
        List.getElem?_append_left hInside]
    · rw [List.getElem?_eq_none (by rw [List.length_take]; omega),
        List.getElem?_eq_none (Nat.le_of_not_lt hInside)]
  · rw [List.getElem?_drop, h.outside _ hPosition, List.getElem?_append_right (Nat.le_add_right _ _),
      Nat.add_sub_cancel_left]

/-- A part that is not hidden is found unchanged in front of the others. -/
theorem exists_append_of_visible {front back : Bytes}
    (h : AgreesExcept hidden (front ++ back) second)
    (hVisible : ∀ position < front.length, ¬hidden position) :
    ∃ back', second = front ++ back' ∧
      AgreesExcept (fun position => hidden (front.length + position)) back back' := by
  obtain ⟨front', back', rfl, hFront, hBack⟩ := h.exists_append
  rw [hFront.eq hVisible]
  exact ⟨back', rfl, hBack⟩

end AgreesExcept

end Bytes

open Bytes

/-- A byte string with `size` bytes left open. -/
structure Frame where
  front : Bytes
  size : Nat
  back : Bytes

namespace Frame

/-- The bytes fit into the open part. -/
def Fits (frame : Frame) (payload : Bytes) : Prop := payload.length = frame.size

/-- The frame with its open part filled. -/
def fill (frame : Frame) (payload : Bytes) : Bytes := frame.front ++ payload ++ frame.back

/-- The length of the frame, its open part included. -/
def length (frame : Frame) : Nat := frame.front.length + frame.size + frame.back.length

/-- Frames one behind the other, each with its open part filled. -/
def fillAll (frames : List Frame) (payloads : List Bytes) : Bytes :=
  (List.zipWith fill frames payloads).flatten

/-- Where the open part of each frame starts. -/
def start : List Frame → Nat → Nat
  | [], _ => 0
  | frame :: _, 0 => frame.front.length
  | frame :: frames, i + 1 => frame.length + start frames i

/-- The position is in the open part of some frame. -/
def Open (frames : List Frame) (position : Nat) : Prop :=
  ∃ i, ∃ h : i < frames.length, start frames i ≤ position ∧ position < start frames i + frames[i].size

variable {frame : Frame} {frames : List Frame} {payload : Bytes} {payloads : List Bytes}

theorem length_fill (hFits : frame.Fits payload) : (frame.fill payload).length = frame.length := by
  rw [fill, List.length_append, List.length_append, hFits, length]

theorem fillAll_cons (frame : Frame) (frames : List Frame) (payload : Bytes) (payloads : List Bytes) :
    fillAll (frame :: frames) (payload :: payloads) =
      frame.front ++ (payload ++ (frame.back ++ fillAll frames payloads)) := by
  simp [fillAll, fill]

theorem open_cons_cases {position : Nat} (h : Open (frame :: frames) position) :
    (frame.front.length ≤ position ∧ position < frame.front.length + frame.size) ∨
      ∃ rest, position = frame.length + rest ∧ Open frames rest := by
  obtain ⟨i, hIndex, hLower, hUpper⟩ := h
  cases i with
  | zero => exact Or.inl ⟨hLower, hUpper⟩
  | succ i =>
      rw [start] at hLower hUpper
      rw [List.getElem_cons_succ] at hUpper
      exact Or.inr ⟨position - frame.length, by omega, i, Nat.lt_of_succ_lt_succ hIndex,
        by omega, by omega⟩

theorem visible_front (frame : Frame) (frames : List Frame) :
    ∀ position < frame.front.length, ¬Open (frame :: frames) position := by
  intro position hPosition hOpen
  rcases open_cons_cases hOpen with ⟨hLower, -⟩ | ⟨rest, hRest, -⟩
  · omega
  · rw [length] at hRest
    omega

theorem visible_back (frame : Frame) (frames : List Frame) : ∀ position < frame.back.length,
    ¬Open (frame :: frames) (frame.front.length + (frame.size + position)) := by
  intro position hPosition hOpen
  rcases open_cons_cases hOpen with ⟨-, hUpper⟩ | ⟨rest, hRest, -⟩
  · omega
  · rw [length] at hRest
    omega

theorem open_of_behind {position : Nat} (h : Open (frame :: frames)
    (frame.front.length + (frame.size + (frame.back.length + position)))) : Open frames position := by
  rcases open_cons_cases h with ⟨-, hUpper⟩ | ⟨rest, hRest, hOpen⟩
  · omega
  · rw [length] at hRest
    obtain rfl : position = rest := by omega
    exact hOpen

/-- What stands before an open part has the length at which the part starts. -/
theorem exists_split (hFits : List.Forall₂ Fits frames payloads) {i : Nat}
    (hIndex : i < payloads.length) (header tail : Bytes) : ∃ front back,
      header ++ fillAll frames payloads ++ tail = front ++ payloads[i] ++ back ∧
        front.length = header.length + start frames i := by
  induction hFits generalizing i header with
  | nil => cases hIndex
  | @cons frame payload frames payloads hHead _ ih =>
      cases i with
      | zero =>
          refine ⟨header ++ frame.front, frame.back ++ fillAll frames payloads ++ tail, ?_, ?_⟩
          · simp [fillAll_cons]
          · rw [List.length_append, start]
      | succ i =>
          obtain ⟨front, back, hSplit, hFront⟩ :=
            ih (Nat.lt_of_succ_lt_succ hIndex) (header ++ frame.fill payload)
          refine ⟨front, back, ?_, ?_⟩
          · rw [List.getElem_cons_succ, ← hSplit, fillAll_cons]
            simp [fill]
          · rw [hFront, List.length_append, length_fill hHead, start, Nat.add_assoc]

theorem start_add_size_le {i : Nat} (hIndex : i + 1 < frames.length) :
    start frames i + frames[i].size ≤ start frames (i + 1) := by
  induction frames generalizing i with
  | nil => cases hIndex
  | cons frame frames ih =>
      cases i with
      | zero =>
          rw [start, start, length, List.getElem_cons_zero]
          omega
      | succ i =>
          have hRest := ih (Nat.lt_of_succ_lt_succ hIndex)
          rw [start, start, List.getElem_cons_succ]
          omega

/-- Frames that have a byte in front of their open parts are longer than these by their number. -/
theorem length_add_sum_le (hFits : List.Forall₂ Fits frames payloads)
    (hFront : ∀ frame ∈ frames, 0 < frame.front.length) :
    payloads.length + (payloads.map List.length).sum ≤ (fillAll frames payloads).length := by
  induction hFits with
  | nil => exact Nat.le_refl _
  | cons _ _ ih =>
      obtain ⟨hHead, hTail⟩ := List.forall_mem_cons.mp hFront
      have hRest := ih hTail
      simp only [fillAll_cons, List.length_cons, List.map_cons, List.sum_cons, List.length_append]
      omega

/-- Bytes that agree with filled frames outside the open parts are the frames, filled with others. -/
theorem exists_fillAll (hFits : List.Forall₂ Fits frames payloads) {tail other : Bytes}
    (hAgrees : AgreesExcept (Open frames) (fillAll frames payloads ++ tail) other) :
    ∃ payloads', List.Forall₂ Fits frames payloads' ∧ other = fillAll frames payloads' ++ tail := by
  induction hFits generalizing other with
  | nil =>
      refine ⟨[], .nil, hAgrees.eq fun position _ => ?_⟩
      rintro ⟨i, hIndex, -⟩
      cases hIndex
  | @cons frame payload frames payloads hHead _ ih =>
      have hSize : payload.length = frame.size := hHead
      rw [fillAll_cons, List.append_assoc, List.append_assoc, List.append_assoc] at hAgrees
      obtain ⟨_, rfl, hMiddle⟩ := hAgrees.exists_append_of_visible (visible_front frame frames)
      obtain ⟨payload', _, rfl, hPayload, hBack⟩ := hMiddle.exists_append
      rw [hSize] at hBack
      obtain ⟨_, rfl, hOthers⟩ := hBack.exists_append_of_visible (visible_back frame frames)
      obtain ⟨payloads', hFits', rfl⟩ := ih (hOthers.mono fun _ hOpen => open_of_behind hOpen)
      refine ⟨payload' :: payloads', .cons (hPayload.length.trans hSize) hFits', ?_⟩
      rw [fillAll_cons]
      simp

end Frame

end BlockFeed

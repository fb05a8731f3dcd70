import BlockFeed.Proofs.Simulation
import BlockFeed.Proofs.MessagePack.Values

/-! What a reader of MessagePack makes of the front of an input it makes of the whole, unless it runs
out of bytes. The tests that hold a declared number against the bytes left are no exception: they
only ever end in a truncation, and pass more easily the more bytes there are. -/

namespace BlockFeed

/-- The longer input has `more` bytes at its end. -/
def Input.Extends (more : Bytes) (input longer : Input) : Prop :=
  longer.bytes = input.bytes ++ more

theorem Input.Extends.size_le {more : Bytes} {input longer : Input}
    (h : Input.Extends more input longer) : input.size ≤ longer.size := by
  rw [input.size_eq, longer.size_eq, h, List.length_append]
  omega

namespace Reader

variable {ε α β : Type} {more : Bytes} {Tolerated : ε → Prop}

/-- A reader on an input follows itself on the input's front. -/
abbrev Stable (more : Bytes) (Tolerated : ε → Prop) (reader : Reader ε α) : Prop :=
  Follows (Input.Extends more) Tolerated reader reader

/-- The words of a reader do not depend on what is behind them, so only its errors are in question. -/
theorem Reads.stable {reader : Reader ε α} {Word : α → Bytes → Prop} (hReads : Reads reader Word)
    (hError : ∀ input error, reader input = .error error → Tolerated error) :
    Stable more Tolerated reader := by
  intro input longer hLonger
  cases hRead : reader input with
  | error error => exact .tolerated (hError input error hRead) _
  | ok outcome =>
      obtain ⟨value, rest⟩ := outcome
      obtain ⟨word, hWord, hInput⟩ := (hReads input rest value).mp hRead
      have hBytes : longer.bytes = word ++ (Input.ofBytes (rest.bytes ++ more)).bytes := by
        rw [hLonger, hInput, List.append_assoc, Input.bytes_ofBytes]
      rw [hReads.ok hWord hBytes]
      exact .ok rfl

theorem Follows.map {Related : Input → Input → Prop} {first second : Reader ε α} (f : α → β)
    (hFollows : Follows Related Tolerated first second) :
    Follows Related Tolerated (f <$> first) (f <$> second) := by
  rw [map_eq_pure_bind, map_eq_pure_bind]
  exact hFollows.bind fun value => follows_pure (f value)

end Reader

namespace MessagePack

open Reader

variable {more : Bytes}

theorem stable_take (count : Nat) :
    Stable more (· = Fault.truncated) (take Fault.truncated count) := by
  refine (reads_take _ count).stable fun input error hRead => ?_
  rw [take] at hRead
  split at hRead
  · cases hRead
  · cases hRead
    rfl

theorem stable_byte : Stable more (· = Fault.truncated) (byte Fault.truncated) := by
  refine (reads_byte _).stable fun input error hRead => ?_
  rw [byte] at hRead
  split at hRead
  · cases hRead
  · cases hRead
    rfl

theorem stable_marker : Stable more (· = .truncated) marker :=
  stable_byte.map _

theorem CountField.stable (field : CountField) : Stable more (· = .truncated) field.read := by
  cases field with
  | inMarker own => exact follows_pure own
  | after width => exact (stable_take width).map _

theorem stable_header (expected : Shape) (field? : Marker → Option CountField) :
    Stable more (· = .truncated) (header expected field?) := by
  refine stable_marker.bind fun marker => ?_
  cases field? marker with
  | some field => exact field.stable
  | none => exact follows_throw _

theorem stable_text : Stable more (· = .truncated) text :=
  (stable_header _ _).bind fun length => stable_take length

theorem IntegerField.stable (field : IntegerField) : Stable more (· = .truncated) field.read := by
  cases field with
  | inMarker own => exact follows_pure own
  | unsigned width | signed width => exact (stable_take width).map _

theorem stable_int64 : Stable more (· = .truncated) int64 := by
  refine stable_marker.bind fun marker => ?_
  cases marker.integerField? with
  | none => exact follows_throw _
  | some field =>
      refine field.stable.bind fun value => ?_
      split
      · exact follows_pure _
      · exact follows_throw _

theorem Layout.stable (layout : Layout) : Stable more (· = .truncated) layout.read := by
  cases layout with
  | payload length extra =>
      exact length.stable.bind fun count => (stable_take (count + extra)).bind fun _ =>
        follows_pure 0
  | values count each => exact count.stable.bind fun entries => follows_pure (each * entries)

theorem stable_valueHead : Stable more (· = .truncated) valueHead := by
  refine stable_marker.bind fun marker => ?_
  cases marker.layout? with
  | some layout => exact layout.stable
  | none => exact follows_throw _

/-- More pending values than bytes are a truncation, which says nothing about the longer input. With
enough bytes at the front there are enough in the whole. -/
theorem stable_skipValues (pending : Nat) : Stable more (· = .truncated) (skipValues pending) := by
  intro input longer hLonger
  induction pending, input using skipValues.induct generalizing longer with
  | case1 input =>
      rw [skipValues, skipValues]
      exact .ok hLonger
  | case2 input others hGuard =>
      rw [skipValues_succ, if_pos hGuard]
      exact .tolerated (by rfl) _
  | case3 input others hGuard fault hRead =>
      have hSize := hLonger.size_le
      rw [skipValues_succ, if_neg hGuard, skipValues_succ, if_neg (by omega)]
      refine (stable_valueHead input longer hLonger).bind fun inner rest rest' hInner _ => ?_
      rw [hRead] at hInner
      cases hInner
  | case4 input others hGuard inner middle hRead ih =>
      have hSize := hLonger.size_le
      rw [skipValues_succ, if_neg hGuard, skipValues_succ, if_neg (by omega)]
      refine (stable_valueHead input longer hLonger).bind fun inner' rest rest' hInner hRest => ?_
      rw [hRead] at hInner
      cases hInner
      exact ih rest' hRest

theorem stable_skip : Stable more (· = .truncated) skip :=
  stable_skipValues 1

end MessagePack

end BlockFeed

import RecordLayout.Bits.Source

/-!
# Devices that serve chunks

A device answers a call with some of the bytes it has, as many as it likes and as there is room for,
or with an interruption. A source is what a device comes to when every call that needs more is made
again: its bytes and interruptions one by one. Both ways of reading, byte by byte and in one run, get
the same from the device as from its source, however the bytes are cut into chunks and however much
room each call of a run has.
-/

namespace RecordLayout

/-- What a device has ready for a call. -/
inductive Device.Serving where
  /-- At least one byte. -/
  | chunk (first : UInt8) (more : List UInt8)
  | interrupted

/-- A device that serves one thing after another and then ends, or fails on every further call. -/
structure Device where
  servings : List Device.Serving
  failure : Option String

namespace Device

/-- The events of one serving. -/
def Serving.events : Serving → List Source.Event
  | chunk first more => .byte first :: more.map .byte
  | interrupted => [.interrupted]

/-- The source that a device comes to. -/
def source (d : Device) : Source := ⟨d.servings.flatMap Serving.events, d.failure⟩

/-- The answer to one call. -/
inductive Answer where
  | bytes (first : UInt8) (more : List UInt8) (rest : Device)
  | interrupted (rest : Device)
  | ended
  | failed (message : String)

/-- One call with room for a byte and `room` more. What there is no room for stays ready. -/
def call (room : Nat) (d : Device) : Answer :=
  match d.servings with
  | [] =>
    match d.failure with
    | none => .ended
    | some message => .failed message
  | .interrupted :: rest => .interrupted { d with servings := rest }
  | .chunk first more :: rest =>
    match more.drop room with
    | [] => .bytes first more { d with servings := rest }
    | next :: left => .bytes first (more.take room) { d with servings := .chunk next left :: rest }

/-- How many events a device has still to serve. -/
def size (d : Device) : Nat := d.source.events.length

/-- What one call takes, its source has in front. -/
theorem call_spec (room : Nat) (d : Device) :
    match d.call room with
    | .bytes first more rest =>
      d.source = ⟨.byte first :: more.map .byte ++ rest.source.events, rest.source.failure⟩ ∧
        more.length ≤ room
    | .interrupted rest => d.source = ⟨.interrupted :: rest.source.events, rest.source.failure⟩
    | .ended => d.source = ⟨[], none⟩
    | .failed message => d.source = ⟨[], some message⟩ := by
  rcases d with ⟨servings, failure⟩
  cases servings with
  | nil => cases failure <;> rfl
  | cons serving rest =>
    cases serving with
    | interrupted => rfl
    | chunk first more =>
      have hmore := List.take_append_drop room more
      simp only [call]
      cases hleft : more.drop room with
      | nil =>
        have hlength := congrArg List.length hleft
        rw [List.length_drop, List.length_nil] at hlength
        exact ⟨rfl, by omega⟩
      | cons next left =>
        rw [hleft] at hmore
        refine ⟨?_, List.length_take_le room more⟩
        have hevents := congrArg (List.map Source.Event.byte) hmore
        simp only [List.map_append, List.map_cons] at hevents
        simp only [source, List.flatMap_cons, Serving.events, List.cons_append, List.append_assoc,
          ← hevents]

/-- Every call that is answered leaves less to serve. -/
theorem size_lt_of_call (room : Nat) (d : Device) :
    match d.call room with
    | .bytes _ _ rest => rest.size < d.size
    | .interrupted rest => rest.size < d.size
    | _ => True := by
  have hspec := call_spec room d
  unfold size
  cases hcall : d.call room with
  | bytes first more rest =>
    rw [hcall] at hspec
    rw [hspec.1]
    simp only [List.length_append, List.length_cons]
    omega
  | interrupted rest =>
    rw [hcall] at hspec
    rw [hspec]
    exact Nat.lt_succ_self _
  | ended => trivial
  | failed message => trivial

/-- The next byte of a device: a call that was interrupted is made again. -/
def next (d : Device) : Source.Answer :=
  match _hcall : d.call 0 with
  | .bytes first _ rest => .byte first rest.source
  | .interrupted rest => rest.next
  | .ended => .ended
  | .failed message => .failed message
termination_by d.size
decreasing_by
  have hless := size_lt_of_call 0 d
  rw [_hcall] at hless
  exact hless

/-- Byte by byte a device gives what its source gives. -/
theorem next_eq (d : Device) : d.next = d.source.next := by
  induction hsize : d.size using Nat.strongRecOn generalizing d with
  | ind size ih =>
    have hspec := call_spec 0 d
    have hless := size_lt_of_call 0 d
    rw [next]
    cases hcall : d.call 0 with
    | bytes first more rest =>
      rw [hcall] at hspec
      obtain ⟨hsource, hroom⟩ := hspec
      obtain rfl : more = [] := List.length_eq_zero_iff.mp (by omega)
      rw [hsource]
      rfl
    | interrupted rest =>
      rw [hcall] at hspec hless
      rw [hspec]
      exact ih rest.size (hsize ▸ hless) rest rfl
    | ended =>
      rw [hcall] at hspec
      rw [hspec]
      rfl
    | failed message =>
      rw [hcall] at hspec
      rw [hspec]
      rfl

/-- A run of at most `count` bytes: calls are made until it is complete or the device ends or fails.
The first call has room for `rooms 0` bytes behind the first one, if the run needs so many, the next
one for `rooms 1`, and so on. -/
def run (rooms : Nat → Nat) (count : Nat) (d : Device) : List UInt8 × Device :=
  if count = 0 then ([], d)
  else
    match hcall : d.call (min (rooms 0) (count - 1)) with
    | .bytes first more rest =>
      let (found, left) := run (fun i => rooms (i + 1)) (count - (more.length + 1)) rest
      (first :: more ++ found, left)
    | .interrupted rest => run (fun i => rooms (i + 1)) count rest
    | .ended => ([], d)
    | .failed _ => ([], d)
termination_by d.size
decreasing_by
  all_goals
    have hless := size_lt_of_call (min (rooms 0) (count - 1)) d
    rw [hcall] at hless
    exact hless

/-- Bytes in front of the events are the first ones of a run. -/
theorem takeUpTo_append (bs : List UInt8) (count : Nat) (events : List Source.Event) :
    Source.takeUpTo (bs.length + count) (bs.map .byte ++ events) =
      (bs ++ (Source.takeUpTo count events).1, (Source.takeUpTo count events).2) := by
  induction bs with
  | nil => rw [List.length_nil, Nat.zero_add]; rfl
  | cons b bs ih =>
    rw [List.length_cons, Nat.add_right_comm, List.map_cons, List.cons_append, Source.takeUpTo, ih]
    rfl

/-- In a run a device gives what its source gives. -/
theorem run_eq (rooms : Nat → Nat) (count : Nat) (d : Device) :
    Source.takeUpTo count d.source.events =
        ((d.run rooms count).1, (d.run rooms count).2.source.events) ∧
      (d.run rooms count).2.failure = d.failure := by
  induction hsize : d.size using Nat.strongRecOn generalizing d rooms count with
  | ind size ih =>
    rw [run]
    split
    · rename_i hzero
      subst hzero
      refine ⟨?_, rfl⟩
      cases d.source.events <;> rfl
    · rename_i hcount
      -- What a call leaves is smaller, even if it was interrupted.
      have hspec := call_spec (min (rooms 0) (count - 1)) d
      have hless := size_lt_of_call (min (rooms 0) (count - 1)) d
      obtain ⟨count, rfl⟩ := Nat.exists_eq_succ_of_ne_zero hcount
      cases hcall : d.call (min (rooms 0) (count + 1 - 1)) with
      | bytes first more rest =>
        rw [hcall] at hspec hless
        obtain ⟨hsource, hroom⟩ := hspec
        obtain ⟨hrun, hfailure⟩ :=
          ih rest.size (hsize ▸ hless) (fun i => rooms (i + 1)) (count + 1 - (more.length + 1)) rest rfl
        have hsplit : count + 1 = (first :: more).length + (count + 1 - (more.length + 1)) := by
          rw [List.length_cons]
          omega
        have htake := takeUpTo_append (first :: more) (count + 1 - (more.length + 1))
          rest.source.events
        rw [← hsplit, hrun] at htake
        refine ⟨?_, ?_⟩
        · rw [hsource]
          exact htake
        · exact hfailure.trans (congrArg Source.failure hsource).symm
      | interrupted rest =>
        -- An interruption is passed over, and as many bytes are asked for again.
        rw [hcall] at hspec hless
        obtain ⟨hrun, hfailure⟩ :=
          ih rest.size (hsize ▸ hless) (fun i => rooms (i + 1)) (count + 1) rest rfl
        refine ⟨?_, hfailure.trans (congrArg Source.failure hspec).symm⟩
        rw [hspec]
        exact hrun
      | ended =>
        rw [hcall] at hspec
        refine ⟨?_, rfl⟩
        rw [hspec]
        rfl
      | failed message =>
        rw [hcall] at hspec
        refine ⟨?_, rfl⟩
        rw [hspec]
        rfl

/-- Both ways of reading get the same from the device as from the source, and what the device has
left comes to what the source has left. -/
structure ReadsAs (d : Device) (s : Source) : Prop where
  next : d.next = s.next
  run : ∀ rooms count, Source.takeUpTo count s.events =
    ((d.run rooms count).1, (d.run rooms count).2.source.events)
  failure : ∀ rooms count, (d.run rooms count).2.failure = s.failure

theorem readsAs_source (d : Device) : d.ReadsAs d.source where
  next := d.next_eq
  run rooms count := (d.run_eq rooms count).1
  failure rooms count := (d.run_eq rooms count).2

end Device

end RecordLayout

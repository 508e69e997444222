/-
# PacedAudio.Session.Playlist — what ought to be played

A playlist reads the events of a session, without a look at rings, markers and cursors: which
frames have been stored since transmission was started, which of them still wait, which have been
played, and what the transmitter was sent last. So it can say, before a frame is sent, which one
it ought to be (`expected`).

Frames are told apart by the packet that they are from and by their place in it. A playlist never
plays one of them twice or out of order, and each is four consecutive bytes of one packet
(`sound_after`).
-/

import PacedAudio.Session.Trace

namespace PacedAudio

/-! ## Frames -/

/-- The frames in a list of bytes, little-endian. Bytes that are left over at the end are not a
frame. -/
def frames : List UInt8 → List UInt32
  | a :: b :: c :: d :: rest => UInt32.ofNat (LittleEndian.value [a, b, c, d]) :: frames rest
  | _ => []

/-- Four bytes or more begin with a frame. -/
theorem frames_of_le {bytes : List UInt8} (h : playedFrameBytes ≤ bytes.length) :
    frames bytes
      = UInt32.ofNat (LittleEndian.value (bytes.take playedFrameBytes))
        :: frames (bytes.drop playedFrameBytes) := by
  rcases bytes with _ | ⟨a, _ | ⟨b, _ | ⟨c, _ | ⟨d, rest⟩⟩⟩⟩
  · simp [playedFrameBytes] at h
  · simp [playedFrameBytes] at h
  · simp [playedFrameBytes] at h
  · simp [playedFrameBytes] at h
  · rfl

/-- What is not a frame and more is short of a frame. -/
theorem length_lt_of_not_frame {bytes : List UInt8}
    (h : ∀ a b c d rest, bytes = a :: b :: c :: d :: rest → False) :
    bytes.length < playedFrameBytes := by
  rcases bytes with _ | ⟨a, _ | ⟨b, _ | ⟨c, _ | ⟨d, rest⟩⟩⟩⟩
  · simp [playedFrameBytes]
  · simp [playedFrameBytes]
  · simp [playedFrameBytes]
  · simp [playedFrameBytes]
  · exact absurd rfl (h a b c d rest)

/-- A frame is never made of bytes from both lists, if the first is a whole number of frames. -/
theorem frames_append {first : List UInt8} (h : playedFrameBytes ∣ first.length)
    (second : List UInt8) : frames (first ++ second) = frames first ++ frames second := by
  revert h
  fun_induction frames first with
  | case1 a b c d rest ih =>
    intro h
    have hrest : playedFrameBytes ∣ rest.length := (Nat.dvd_add_left (Nat.dvd_refl 4)).mp h
    rw [List.cons_append, List.cons_append, List.cons_append, List.cons_append, frames, ih hrest]
    rfl
  | case2 first hshort =>
    intro h
    -- A whole number of frames and short of one: there is nothing.
    have hnil : first.length = 0 := Nat.eq_zero_of_dvd_of_lt h (length_lt_of_not_frame hshort)
    rw [List.length_eq_zero_iff.mp hnil]
    rfl

theorem length_frames (bytes : List UInt8) :
    (frames bytes).length = bytes.length / playedFrameBytes := by
  fun_induction frames bytes with
  | case1 a b c d rest ih =>
    simp only [List.length_cons, ih, playedFrameBytes]
    omega
  | case2 bytes hshort => exact (Nat.div_eq_of_lt (length_lt_of_not_frame hshort)).symm

/-- The frame at a place is made of the four bytes there. -/
theorem frames_getElem? {bytes : List UInt8} {place : Nat} {value : UInt32}
    (h : (frames bytes)[place]? = some value) :
    playedFrameBytes * (place + 1) ≤ bytes.length
      ∧ value = UInt32.ofNat (LittleEndian.value
        ((bytes.drop (playedFrameBytes * place)).take playedFrameBytes)) := by
  revert h
  fun_induction frames bytes generalizing place with
  | case1 a b c d rest ih =>
    intro h
    cases place with
    | zero =>
      cases h
      exact ⟨by simp [playedFrameBytes], rfl⟩
    | succ place =>
      obtain ⟨hlength, hvalue⟩ := ih h
      refine ⟨?_, hvalue⟩
      simp only [List.length_cons, playedFrameBytes] at hlength ⊢
      omega
  | case2 bytes hshort =>
    intro h
    cases h

/-- If the event is a packet, it is a whole number of frames. -/
def Event.Aligned : Event → Prop
  | .packet bytes _ => playedFrameBytes ∣ bytes.length
  | _ => True

instance (e : Event) : Decidable e.Aligned := by
  cases e <;> unfold Event.Aligned <;> infer_instance

/-- A frame of a stored packet. -/
structure Slot where
  /-- The packet's number, in the order of arrival. -/
  packet : Nat
  /-- The frame's place in the packet. -/
  place : Nat
  value : UInt32
deriving DecidableEq, Repr

namespace Slot

/-- The frames of a packet. -/
def ofPacket (packet : Nat) (bytes : List UInt8) : List Slot :=
  (frames bytes).zipIdx.map fun (value, place) => ⟨packet, place, value⟩

/-- The order of arrival. -/
def Before (a b : Slot) : Prop := a.packet < b.packet ∨ a.packet = b.packet ∧ a.place < b.place

/-- A slot's value is that of the four bytes at its place in its packet. -/
def FrameOf (slot : Slot) (packets : List (List UInt8)) : Prop :=
  ∃ bytes, packets[slot.packet]? = some bytes
    ∧ playedFrameBytes * (slot.place + 1) ≤ bytes.length
    ∧ slot.value = UInt32.ofNat (LittleEndian.value
        ((bytes.drop (playedFrameBytes * slot.place)).take playedFrameBytes))

theorem map_value_ofPacket (packet : Nat) (bytes : List UInt8) :
    (ofPacket packet bytes).map value = frames bytes := by
  rw [ofPacket, List.map_map]
  exact List.zipIdx_map_fst 0 (frames bytes)

theorem packet_of_mem {packet : Nat} {bytes : List UInt8} {slot : Slot}
    (h : slot ∈ ofPacket packet bytes) : slot.packet = packet := by
  obtain ⟨pair, -, rfl⟩ := List.mem_map.mp h
  rfl

/-- The frames of a packet are in order. -/
theorem pairwise_ofPacket (packet : Nat) (bytes : List UInt8) :
    (ofPacket packet bytes).Pairwise Before := by
  have hplaces : ((frames bytes).zipIdx.map Prod.snd).Pairwise (· < ·) := by
    rw [List.zipIdx_map_snd]
    exact List.pairwise_lt_range'
  rw [ofPacket, List.pairwise_map]
  exact (List.pairwise_map.mp hplaces).imp fun hplace => Or.inr ⟨rfl, hplace⟩

theorem frameOf_of_mem {packets : List (List UInt8)} {bytes : List UInt8} {slot : Slot}
    (h : slot ∈ ofPacket packets.length bytes) : slot.FrameOf (packets ++ [bytes]) := by
  obtain ⟨⟨value, place⟩, hpair, rfl⟩ := List.mem_map.mp h
  obtain ⟨hlength, hvalue⟩ := frames_getElem? (List.mem_zipIdx_iff_getElem?.mp hpair)
  refine ⟨bytes, ?_, hlength, hvalue⟩
  rw [List.getElem?_append_right (Nat.le_refl _), Nat.sub_self]
  rfl

/-- A stored packet stays stored. -/
theorem FrameOf.append {slot : Slot} {packets : List (List UInt8)} (h : slot.FrameOf packets)
    (more : List (List UInt8)) : slot.FrameOf (packets ++ more) := by
  obtain ⟨bytes, hpacket, hframe⟩ := h
  have hlt := (List.getElem?_eq_some_iff.mp hpacket).1
  exact ⟨bytes, (List.getElem?_append_left hlt).trans hpacket, hframe⟩

theorem FrameOf.packet_lt {slot : Slot} {packets : List (List UInt8)} (h : slot.FrameOf packets) :
    slot.packet < packets.length := by
  obtain ⟨bytes, hpacket, -⟩ := h
  exact (List.getElem?_eq_some_iff.mp hpacket).1

end Slot

/-! ## Playlists -/

/-- What has been stored and played since transmission was started. -/
structure Playlist where
  /-- The packets that were stored. -/
  packets : List (List UInt8)
  /-- Their frames that are neither played nor discarded. -/
  waiting : List Slot
  /-- Their frames that are played. -/
  played : List Slot
  /-- What was sent last, zero if nothing was. -/
  last : UInt32
deriving DecidableEq, Repr

namespace Playlist

/-- The playlist of a transmission that starts. -/
def empty : Playlist := ⟨[], [], [], 0⟩

/-- A packet is stored. -/
def store (p : Playlist) (bytes : List UInt8) : Playlist :=
  { p with
    packets := p.packets ++ [bytes]
    waiting := p.waiting ++ Slot.ofPacket p.packets.length bytes }

/-- What waits is discarded. -/
def discard (p : Playlist) : Playlist := { p with waiting := [] }

/-- What ought to be sent: the first frame that waits, and if none does, what was sent last. -/
def expected (p : Playlist) : UInt32 :=
  match p.waiting with
  | slot :: _ => slot.value
  | [] => p.last

/-- Something is sent; the first frame that waits, if any does, is played by that. -/
def send (p : Playlist) (value : UInt32) : Playlist :=
  { p with waiting := p.waiting.tail, played := p.played ++ p.waiting.take 1, last := value }

/-- The playlist after an event. -/
def next (p : Playlist) : Event → Playlist
  | .call .start => empty
  | .call (.send value) => p.send value
  | .call _ => p
  | .packet bytes (.ok .stored) => p.store bytes
  | .packet _ (.ok .dropped) => p
  | .packet _ _ => p.discard
  | .boundary => p.discard

/-- The playlist after a trace. -/
def after (events : List Event) : Playlist := events.foldl next empty

theorem after_concat (past : List Event) (e : Event) :
    after (past ++ [e]) = (after past).next e := by
  rw [after, List.foldl_append]
  rfl

/-! ## Never twice, never out of order, never across packets -/

/-- The slots that are played and those that wait are in the order of arrival, each of them once,
and each is a frame of a stored packet. -/
structure Sound (p : Playlist) : Prop where
  ordered : (p.played ++ p.waiting).Pairwise Slot.Before
  whole : ∀ slot ∈ p.played ++ p.waiting, slot.FrameOf p.packets

theorem sound_empty : empty.Sound where
  ordered := List.Pairwise.nil
  whole := fun _ h => absurd h List.not_mem_nil

theorem Sound.store {p : Playlist} (h : p.Sound) (bytes : List UInt8) : (p.store bytes).Sound where
  ordered := by
    show (p.played ++ (p.waiting ++ Slot.ofPacket p.packets.length bytes)).Pairwise Slot.Before
    rw [← List.append_assoc, List.pairwise_append]
    refine ⟨h.ordered, Slot.pairwise_ofPacket _ _, ?_⟩
    intro old hold new hnew
    -- The new packet is numbered after all that are stored.
    left
    rw [Slot.packet_of_mem hnew]
    exact (h.whole old hold).packet_lt
  whole := by
    intro slot hslot
    have hsplit : slot ∈ (p.played ++ p.waiting) ++ Slot.ofPacket p.packets.length bytes := by
      rw [List.append_assoc]
      exact hslot
    rcases List.mem_append.mp hsplit with hold | hnew
    · exact (h.whole slot hold).append _
    · exact Slot.frameOf_of_mem hnew

theorem Sound.discard {p : Playlist} (h : p.Sound) : p.discard.Sound where
  ordered := by
    show (p.played ++ []).Pairwise Slot.Before
    rw [List.append_nil]
    exact (List.pairwise_append.mp h.ordered).1
  whole := by
    intro slot hslot
    have hplayed : slot ∈ p.played := by rwa [Playlist.discard, List.append_nil] at hslot
    exact h.whole slot (List.mem_append_left _ hplayed)

/-- Sending moves a slot from one list to the other. -/
theorem Sound.send {p : Playlist} (h : p.Sound) (value : UInt32) : (p.send value).Sound := by
  have hslots : (p.send value).played ++ (p.send value).waiting = p.played ++ p.waiting := by
    show (p.played ++ p.waiting.take 1) ++ p.waiting.tail = _
    rw [List.append_assoc, ← List.drop_one, List.take_append_drop]
  refine ⟨?_, ?_⟩
  · rw [hslots]
    exact h.ordered
  · rw [hslots]
    exact h.whole

theorem Sound.next {p : Playlist} (h : p.Sound) (e : Event) : (p.next e).Sound := by
  rw [Playlist.next.eq_def]
  split
  · exact sound_empty
  · exact h.send _
  · exact h
  · exact h.store _
  · exact h
  · exact h.discard
  · exact h.discard

/-- A playlist never plays a frame twice, out of order or across packets, whatever happens. -/
theorem sound_after (events : List Event) : (after events).Sound := by
  have hfold : ∀ p : Playlist, p.Sound → (events.foldl next p).Sound := by
    induction events with
    | nil => exact fun p h => h
    | cons e rest ih => exact fun p h => ih _ (h.next e)
  exact hfold empty sound_empty

end Playlist

end PacedAudio

/-
# PacedAudio.Proofs.Ring.Alike — rings that differ only in what is never read

A ring that is resized keeps the bytes of its storage, so two rings of different pasts have
different storage still. Each byte that a reader gets has been stored since, though. `Reaches`
says how far storage has been written: up to some `limit`, which no cursor is past, or all around.
`Alike` rings have the same cursors and markers and agree on the bytes below such a limit, and
each operation does the same to both of them. What is said here holds however many flushes the
reader has missed.

The counters of alike rings may differ.
-/

import PacedAudio.Ring.Contents

namespace PacedAudio

/-! ## Storage that agrees below a limit -/

namespace Storage

variable {n : Nat} {s s' : Storage n} {limit : Nat}

/-- The bytes below `limit` are the same. -/
def AgreeBelow (limit : Nat) (s s' : Storage n) : Prop :=
  ∀ index, index < limit → byte s index = byte s' index

theorem load_congr (h : AgreeBelow limit s s') {stretch : Stretch}
    (hwithin : stretch.Within limit) : load s stretch = load s' stretch := by
  apply List.map_congr_left
  intro index hindex
  have hwithin : stretch.start + stretch.length ≤ limit := hwithin
  have hlt := (List.mem_range'_1.mp hindex).2
  exact h index (by omega)

/-- After the same run is stored in both, they agree on its bytes, and on whatever they agreed on
before. -/
theorem byte_storeAround_congr {capacity : Nat} (h : 0 < capacity) (hn : capacity ≤ n)
    (cursor : Nat) (bytes : List UInt8) (hlength : bytes.length ≤ capacity) {place : Nat}
    (hplace : byte s place = byte s' place
      ∨ ∃ i, i < bytes.length ∧ index capacity cursor i = place) :
    byte (storeAround s capacity cursor bytes) place
      = byte (storeAround s' capacity cursor bytes) place := by
  by_cases hrun : ∃ i, i < bytes.length ∧ index capacity cursor i = place
  · obtain ⟨i, hi, rfl⟩ := hrun
    rw [byte_storeAround_of_lt s h hn cursor bytes hlength hi,
      byte_storeAround_of_lt s' h hn cursor bytes hlength hi]
  · have hout : ∀ i, i < bytes.length → index capacity cursor i ≠ place :=
      fun i hi heq => hrun ⟨i, hi, heq⟩
    rw [byte_storeAround_of_ne s h cursor bytes hlength hout,
      byte_storeAround_of_ne s' h cursor bytes hlength hout]
    exact hplace.resolve_right hrun

/-- What agrees before a run is stored agrees after it. -/
theorem AgreeBelow.storeAround (hagree : AgreeBelow limit s s') {capacity : Nat} (h : 0 < capacity)
    (hn : capacity ≤ n) (cursor : Nat) (bytes : List UInt8) (hlength : bytes.length ≤ capacity) :
    AgreeBelow limit (Storage.storeAround s capacity cursor bytes)
      (Storage.storeAround s' capacity cursor bytes) := by
  intro place hplace
  exact byte_storeAround_congr h hn cursor bytes hlength (Or.inl (hagree place hplace))

/-- A run that is stored at the limit moves it on, at most to the end of the circle. -/
theorem AgreeBelow.storeAround_limit (hagree : AgreeBelow limit s s') {capacity : Nat}
    (h : 0 < capacity) (hn : capacity ≤ n) (bytes : List UInt8)
    (hlength : bytes.length ≤ capacity) :
    AgreeBelow (min (limit + bytes.length) capacity)
      (Storage.storeAround s capacity limit bytes)
      (Storage.storeAround s' capacity limit bytes) := by
  intro place hplace
  apply byte_storeAround_congr h hn limit bytes hlength
  rcases Nat.lt_or_ge place limit with hbelow | habove
  · exact Or.inl (hagree place hbelow)
  · refine Or.inr ⟨place - limit, by omega, ?_⟩
    rw [index, Nat.add_sub_cancel' habove]
    exact Nat.mod_eq_of_lt (by omega)

end Storage

namespace Ring

variable {n : Nat} {r r' : Ring n}

/-! ## How far storage has been written -/

/-- Storage has been written up to `limit`, which is where the head is, or all around. Then no
cursor is past the limit. -/
def Reaches (r : Ring n) (limit : Nat) : Prop :=
  limit = r.capacity
    ∨ r.head = limit ∧ limit ≤ r.capacity ∧ r.tail ≤ limit ∧ r.marker.position ≤ limit

/-- As many bytes as are between the tail and the head lie in stretches that have been written. The
second of these is the whole circle at most, since the first has a byte at least. -/
theorem Reaches.stretches_within {limit : Nat} (h : r.Reaches limit) {count : Nat}
    (hgap : count ≤ r.gap r.tail r.head) (hcount : count ≤ r.capacity + 1) :
    (stretches r.capacity r.tail count).1.Within limit
      ∧ (stretches r.capacity r.tail count).2.Within limit := by
  have hpos := r.capacity_pos
  rcases h with rfl | ⟨hhead, hlimit, htail, -⟩
  · refine ⟨stretches_fst_within r.tail count hpos, ?_⟩
    have hlt := Nat.mod_lt r.tail hpos
    simp only [stretches, Stretch.Within]
    omega
  · rw [r.gap_eq r.tail_lt r.head_lt, if_pos (by omega)] at hgap
    rcases Nat.eq_zero_or_pos count with rfl | hsome
    · have hmod := Nat.mod_le r.tail r.capacity
      simp only [stretches, Stretch.Within]
      omega
    · have hmod : r.tail % r.capacity = r.tail := Nat.mod_eq_of_lt (by omega)
      simp only [stretches, Stretch.Within, hmod]
      omega

/-! ## Alike rings -/

/-- Nothing but the counters and bytes that have not been stored tell the two apart. -/
structure Alike (r r' : Ring n) : Prop where
  capacity : r'.capacity = r.capacity
  head : r'.head = r.head
  tail : r'.tail = r.tail
  marker : r'.marker = r.marker
  acknowledged : r'.acknowledged = r.acknowledged
  lastFrame : r'.lastFrame = r.lastFrame
  stored : ∃ limit, r.Reaches limit ∧ Storage.AgreeBelow limit r.storage r'.storage

namespace Alike

/-- Rings of any past are alike once they are resized. -/
theorem resize (r r' : Ring n) (capacity : Nat) :
    (r.resize capacity).Alike (r'.resize capacity) where
  capacity := rfl
  head := rfl
  tail := rfl
  marker := rfl
  acknowledged := rfl
  lastFrame := rfl
  stored := ⟨0, Or.inr ⟨rfl, Nat.zero_le _, Nat.le_refl _, Nat.le_refl _⟩, fun _ hindex => by omega⟩

theorem pending (h : r.Alike r') : r'.pending = r.pending := by
  simp only [Ring.pending, h.acknowledged, h.marker]

theorem gap (h : r.Alike r') (source target : Nat) :
    r'.gap source target = r.gap source target := by
  simp only [Ring.gap, h.capacity]

theorem forward (h : r.Alike r') (cursor count : Nat) :
    r'.forward cursor count = r.forward cursor count := by
  simp only [Ring.forward, h.capacity]

theorem fill (h : r.Alike r') : r'.fill = r.fill := by
  simp only [Ring.fill, Ring.front, h.pending, h.marker, h.tail, h.head, h.gap]

theorem fits_iff (h : r.Alike r') (bytes : List UInt8) : r'.Fits bytes ↔ r.Fits bytes := by
  simp only [Fits, h.fill, h.capacity]

/-! ## The writer -/

theorem flush (h : r.Alike r') : r.flush.Alike r'.flush where
  capacity := h.capacity
  head := h.head
  tail := h.tail
  marker := by simp only [Ring.flush, h.marker, h.head]
  acknowledged := h.acknowledged
  lastFrame := h.lastFrame
  stored := by
    obtain ⟨limit, hreaches, hagree⟩ := h.stored
    refine ⟨limit, ?_, hagree⟩
    rcases hreaches with hall | ⟨hhead, hlimit, htail, -⟩
    · exact Or.inl hall
    · exact Or.inr ⟨hhead, hlimit, htail, Nat.le_of_eq hhead⟩

/-- Where storage has been written after a packet that fits. -/
theorem stored_push (h : r.Alike r') {bytes : List UInt8} (hfits : r.Fits bytes) :
    ∃ limit, (r.push bytes).2.Reaches limit
      ∧ Storage.AgreeBelow limit (r.push bytes).2.storage (r'.push bytes).2.storage := by
  obtain ⟨limit, hreaches, hagree⟩ := h.stored
  have hpos := r.capacity_pos
  have hlength : bytes.length ≤ r.capacity := Nat.le_trans (Nat.le_add_left _ _) hfits
  rw [storage_push hfits, storage_push ((h.fits_iff bytes).mpr hfits), h.capacity, h.head]
  rcases hreaches with rfl | ⟨rfl, hlimit, htail, hmarker⟩
  · exact ⟨r.capacity, Or.inl (capacity_push r bytes).symm,
      hagree.storeAround hpos r.capacity_le r.head bytes hlength⟩
  · have hnext := hagree.storeAround_limit hpos r.capacity_le bytes hlength
    -- The packet ends inside the circle, or it closes the circle.
    rcases Nat.le_total (r.head + bytes.length) r.capacity with hinside | haround
    · rw [Nat.min_eq_left hinside] at hnext
      refine ⟨r.head + bytes.length, Or.inr ⟨?_, ?_, ?_, ?_⟩, hnext⟩
      · rw [head_push hfits, r.forward_eq r.head_lt (by omega), if_pos (by omega)]
      · rwa [capacity_push]
      · rw [tail_push hfits]
        omega
      · rw [marker_push hfits]
        omega
    · rw [Nat.min_eq_right haround] at hnext
      exact ⟨r.capacity, Or.inl (capacity_push r bytes).symm, hnext⟩

theorem push (h : r.Alike r') (bytes : List UInt8) :
    (r.push bytes).2.Alike (r'.push bytes).2 := by
  by_cases hfits : r.Fits bytes
  · have hfits' := (h.fits_iff bytes).mpr hfits
    have hstored := h.stored_push hfits
    rw [Ring.push, Ring.push, if_neg (Nat.not_lt.mpr hfits), if_neg (Nat.not_lt.mpr hfits')] at *
    exact { h with
      head := by simp only [h.forward, h.head]
      stored := hstored }
  · rw [push_of_not_fits hfits, push_of_not_fits (mt (h.fits_iff bytes).mp hfits)]
    -- Both are flushed; that an overrun is counted makes no difference.
    exact { h.flush with }

/-! ## The reader -/

theorem follow (h : r.Alike r') : r.follow.Alike r'.follow := by
  by_cases hpending : r.pending = true
  · have hpending' : r'.pending = true := h.pending.trans hpending
    rw [Ring.follow, Ring.follow, if_pos hpending, if_pos hpending']
    refine { h with tail := ?_, acknowledged := ?_, stored := ?_ }
    · simp only [h.marker]
    · simp only [h.marker]
    · obtain ⟨limit, hreaches, hagree⟩ := h.stored
      refine ⟨limit, ?_, hagree⟩
      rcases hreaches with hall | ⟨hhead, hlimit, -, hmarker⟩
      · exact Or.inl hall
      · exact Or.inr ⟨hhead, hlimit, hmarker, hmarker⟩
  · rw [Ring.follow, Ring.follow, if_neg hpending, if_neg (h.pending ▸ hpending)]
    exact h

/-- What is read is the same, if there is as much between tail and head. -/
theorem loadAround (h : r.Alike r') {count : Nat} (hgap : count ≤ r.gap r.tail r.head)
    (hcount : count ≤ r.capacity + 1) :
    Storage.loadAround r'.storage r'.capacity r'.tail count
      = Storage.loadAround r.storage r.capacity r.tail count := by
  obtain ⟨limit, hreaches, hagree⟩ := h.stored
  obtain ⟨hfirst, hsecond⟩ := hreaches.stretches_within hgap hcount
  rw [h.capacity, h.tail]
  simp only [Storage.loadAround, Storage.load_congr hagree hfirst,
    Storage.load_congr hagree hsecond]

/-- The tail may go forward as far as the head. -/
theorem forward_tail (h : r.Alike r') {count : Nat} (hgap : count ≤ r.gap r.tail r.head) :
    Ring.Alike
      { r with tail := r.forward r.tail count, tail_lt := r.forward_lt _ _ }
      { r' with tail := r'.forward r'.tail count, tail_lt := r'.forward_lt _ _ } := by
  refine { h with tail := ?_, stored := ?_ }
  · simp only [h.forward, h.tail]
  · obtain ⟨limit, hreaches, hagree⟩ := h.stored
    refine ⟨limit, ?_, hagree⟩
    rcases hreaches with hall | ⟨hhead, hlimit, htail, hmarker⟩
    · exact Or.inl hall
    · refine Or.inr ⟨hhead, hlimit, ?_, hmarker⟩
      rw [r.gap_eq r.tail_lt r.head_lt, if_pos (by omega)] at hgap
      show r.forward r.tail count ≤ limit
      have hpos := r.capacity_pos
      rw [r.forward_eq r.tail_lt (by omega), if_pos (by omega)]
      omega

/-- As many bytes as wait, and no more than one over the capacity, are the same bytes. -/
theorem take (h : r.Alike r') {count : Nat} (hcount : count ≤ r.fill → count ≤ r.capacity + 1) :
    (r'.take count).1 = (r.take count).1 ∧ (r.take count).2.Alike (r'.take count).2 := by
  have hfollow := h.follow
  have hgap : r.follow.gap r.follow.tail r.follow.head = r.fill := by
    rw [gap_of_unread (unread_follow r), fill_follow]
  have hgap' : r'.follow.gap r'.follow.tail r'.follow.head = r.fill := by
    rw [gap_of_unread (unread_follow r'), fill_follow, h.fill]
  rcases Nat.lt_or_ge r.fill count with hshort | henough
  · rw [take_of_lt hshort, take_of_lt (h.fill.symm ▸ hshort)]
    exact ⟨rfl, hfollow⟩
  · have hwaits : count ≤ r.follow.gap r.follow.tail r.follow.head := by
      rwa [hgap]
    have hbytes := hfollow.loadAround hwaits (by
      rw [follow_capacity]
      exact hcount henough)
    rw [Ring.take, Ring.take]
    simp only [hgap, hgap', if_neg (Nat.not_lt.mpr henough), hbytes]
    exact ⟨trivial, hfollow.forward_tail hwaits⟩

theorem takeFrame (h : r.Alike r') :
    r'.takeFrame.1 = r.takeFrame.1 ∧ r.takeFrame.2.Alike r'.takeFrame.2 := by
  have hcount : playedFrameBytes ≤ r.fill → playedFrameBytes ≤ r.capacity + 1 := by
    have hlt := r.fill_lt
    rw [playedFrameBytes]
    omega
  obtain ⟨hbytes, halike⟩ := h.take hcount
  revert hbytes halike
  rw [Ring.takeFrame, Ring.takeFrame]
  rcases r.take playedFrameBytes with ⟨bytes, rest⟩
  rcases r'.take playedFrameBytes with ⟨bytes', rest'⟩
  rintro (rfl : bytes' = bytes) halike
  cases bytes' with
  | none => exact ⟨congrArg Frame.again halike.lastFrame, { halike with }⟩
  | some bytes => exact ⟨rfl, { halike with lastFrame := rfl }⟩

end Alike

end Ring

end PacedAudio

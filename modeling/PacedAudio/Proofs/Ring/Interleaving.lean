/-
# PacedAudio.Proofs.Ring.Interleaving — it does not matter whose turn it is

Writer and reader of a ring take turns in any order. Whether a packet fits and whether a buffer can
be filled depends on that order, but nothing else does: as long as every packet is stored and every
buffer is filled, what the reader gets and the ring that is left are the same
(`interleavings_agree`).

The reason is that each of the two keeps to its own half of the ring. What a packet that fits does
is `append`, what a buffer that can be filled does is `skip`, and the two commute (`append_skip`):
in any order they come to the packets first and the buffers afterwards (`Interleaves.after_eq`).
The bytes are the consecutive pieces of what waited at the start followed by the packets
(`Interleaves.fillings_eq`), since a packet that fits never lies over bytes that wait.
-/

import Mathlib.Data.List.SplitLengths
import PacedAudio.Proofs.Ring.Refinement

namespace PacedAudio.Ring

variable {n : Nat} {r : Ring n} {packets : List (List UInt8)} {counts : List Nat}
  {operations : List Operation}

/-! ## Turns -/

/-- The operations append some packets and fill buffers of some lengths, each in their order. -/
inductive Interleaves : List (List UInt8) → List Nat → List Operation → Prop where
  | nil : Interleaves [] [] []
  /-- It is the writer's turn. -/
  | push {packets : List (List UInt8)} {counts : List Nat} {operations : List Operation}
      (bytes : List UInt8) (h : Interleaves packets counts operations) :
      Interleaves (bytes :: packets) counts (.push bytes :: operations)
  /-- It is the reader's turn. -/
  | fillBuffer {packets : List (List UInt8)} {counts : List Nat} {operations : List Operation}
      (buffer : List UInt8) (h : Interleaves packets counts operations) :
      Interleaves packets (buffer.length :: counts) (.fillBuffer buffer :: operations)

/-- Whether a packet is stored, or a buffer filled. -/
def Answer.succeeds : Answer → Bool
  | .pushed (.ok .stored) => true
  | .filled complete _ => complete
  | _ => false

/-- The bytes that a buffer is filled with. -/
def Answer.filling? : Answer → Option (List UInt8)
  | .filled true bytes => some bytes
  | _ => none

/-- Every packet is stored and every buffer filled. -/
def Succeeds (r : Ring n) (operations : List Operation) : Prop :=
  ∀ answer ∈ r.answers operations, answer.succeeds = true

instance (r : Ring n) (operations : List Operation) : Decidable (r.Succeeds operations) :=
  inferInstanceAs (Decidable (∀ answer ∈ _, _))

/-- What the buffers are filled with, one after the other. -/
def fillings (r : Ring n) (operations : List Operation) : List (List UInt8) :=
  (r.answers operations).filterMap Answer.filling?

theorem succeeds_cons {operation : Operation} :
    r.Succeeds (operation :: operations)
      ↔ (r.perform operation).1.succeeds = true
        ∧ (r.perform operation).2.Succeeds operations := by
  rw [Succeeds, answers_cons, List.forall_mem_cons]
  rfl

theorem fits_of_succeeds {bytes : List UInt8}
    (h : (r.perform (.push bytes)).1.succeeds = true) : r.Fits bytes := by
  have hanswer : (Answer.pushed (r.push bytes).1).succeeds = true := h
  rcases r.push_cases bytes with ⟨hfits, -⟩ | ⟨-, hover | ⟨fault, hfault⟩⟩
  · exact hfits
  · rw [hover] at hanswer
    cases hanswer
  · rw [hfault] at hanswer
    cases hanswer

theorem le_fill_of_succeeds {buffer : List UInt8}
    (h : (r.perform (.fillBuffer buffer)).1.succeeds = true) : buffer.length ≤ r.fill := by
  refine Nat.le_of_not_lt fun hshort => ?_
  rw [perform, fillBuffer, take_of_lt hshort] at h
  cases h

/-! ## The two halves of a ring -/

theorem forward_head_lt (r : Ring n) (bytes : List UInt8) :
    r.forward r.head bytes.length < 2 * r.capacity :=
  r.forward_lt r.head bytes.length

/-- Appends a packet, without a look at the room. -/
def append (r : Ring n) (bytes : List UInt8) : Ring n :=
  { r with
    storage := Storage.storeAround r.storage r.capacity r.head bytes
    head := r.forward r.head bytes.length
    head_lt := r.forward_head_lt bytes }

/-- Goes on by some bytes, without a look at how many wait. -/
def skip (r : Ring n) (count : Nat) : Ring n :=
  { r.follow with
    tail := r.follow.forward r.front count
    tail_lt := r.follow.forward_lt _ _ }

theorem push_of_fits {bytes : List UInt8} (h : r.Fits bytes) :
    r.push bytes = (.ok .stored, r.append bytes) := by
  rw [push, if_neg (Nat.not_lt.mpr h)]
  rfl

theorem fillBuffer_of_le {buffer : List UInt8} (h : buffer.length ≤ r.fill) :
    r.fillBuffer buffer
      = (true, Storage.loadAround r.storage r.capacity r.front buffer.length,
          r.skip buffer.length) := by
  rw [fillBuffer, take_of_le h]
  rfl

theorem follow_append (r : Ring n) (bytes : List UInt8) :
    (r.append bytes).follow = r.follow.append bytes := by
  have hpending : (r.append bytes).pending = r.pending := rfl
  rw [follow, follow, hpending]
  split <;> rfl

/-- Neither half of the ring has a part in the other's turn. -/
theorem append_skip (r : Ring n) (bytes : List UInt8) (count : Nat) :
    (r.append bytes).skip count = (r.skip count).append bytes := by
  have hfront : (r.append bytes).front = r.front := rfl
  simp only [skip, hfront, follow_append]
  rfl

theorem foldl_append_skip (r : Ring n) (packets : List (List UInt8)) (count : Nat) :
    (packets.foldl append r).skip count = packets.foldl append (r.skip count) := by
  induction packets generalizing r with
  | nil => rfl
  | cons bytes rest ih => rw [List.foldl_cons, List.foldl_cons, ih, append_skip]

/-- In whatever order they come, the packets may as well come first. -/
theorem Interleaves.after_eq (h : Interleaves packets counts operations)
    (hsucceeds : r.Succeeds operations) :
    r.after operations = counts.foldl skip (packets.foldl append r) := by
  induction h generalizing r with
  | nil => rfl
  | push bytes h ih =>
    obtain ⟨hpush, hrest⟩ := succeeds_cons.mp hsucceeds
    have hring : (r.perform (.push bytes)).2 = r.append bytes :=
      congrArg Prod.snd (push_of_fits (fits_of_succeeds hpush))
    rw [hring] at hrest
    rw [after_cons, hring]
    exact ih hrest
  | @fillBuffer packets counts operations buffer h ih =>
    obtain ⟨hfill, hrest⟩ := succeeds_cons.mp hsucceeds
    have hring : (r.perform (.fillBuffer buffer)).2 = r.skip buffer.length := by
      rw [perform, fillBuffer_of_le (le_fill_of_succeeds hfill)]
    rw [hring] at hrest
    -- The buffer is filled before the later packets here, and after them there.
    rw [after_cons, hring, ih hrest, List.foldl_cons, foldl_append_skip]

/-! ## What the reader gets -/

/-- The buffers are filled with what waits and what comes, piece by piece, and what is left over
waits on. -/
theorem Interleaves.fillings_eq (h : Interleaves packets counts operations) (hsound : r.Sound)
    (hsucceeds : r.Succeeds operations) :
    r.fillings operations = counts.splitLengths (r.contents ++ packets.flatten)
      ∧ (r.fillings operations).flatten ++ (r.after operations).contents
        = r.contents ++ packets.flatten := by
  induction h generalizing r with
  | nil => simp [fillings]
  | push bytes h ih =>
    obtain ⟨hpush, hrest⟩ := succeeds_cons.mp hsucceeds
    have hfits := fits_of_succeeds hpush
    have hsound' : (r.push bytes).2.Sound := by
      show (r.push bytes).2.fill ≤ (r.push bytes).2.capacity
      rw [fill_push hfits, capacity_push]
      exact hfits
    obtain ⟨hfillings, hcontents⟩ := ih hsound' hrest
    rw [contents_push hfits, List.append_assoc] at hfillings hcontents
    exact ⟨hfillings, hcontents⟩
  | @fillBuffer packets counts operations buffer h ih =>
    obtain ⟨hfill, hrest⟩ := succeeds_cons.mp hsucceeds
    have hle := le_fill_of_succeeds hfill
    have htaken := take_fst hsound buffer.length
    have hleft := contents_take hsound hle
    have hsound' : (r.take buffer.length).2.Sound := by
      show (r.take buffer.length).2.fill ≤ (r.take buffer.length).2.capacity
      rw [fill_take hle, capacity_take]
      exact Nat.le_trans (Nat.sub_le _ _) hsound
    have hperform : r.perform (.fillBuffer buffer)
        = (.filled true (r.contents.take buffer.length), (r.take buffer.length).2) := by
      rw [if_pos hle] at htaken
      rw [perform, Ring.fillBuffer]
      revert htaken
      rcases r.take buffer.length with ⟨taken, rest⟩
      rintro rfl
      rfl
    have hpieces : r.fillings (.fillBuffer buffer :: operations)
        = r.contents.take buffer.length :: (r.take buffer.length).2.fillings operations := by
      rw [fillings, answers_cons, hperform]
      rfl
    rw [hperform] at hrest
    obtain ⟨hfillings, hcontents⟩ := ih hsound' hrest
    have hlength : buffer.length ≤ r.contents.length := by rwa [length_contents]
    rw [hleft] at hfillings hcontents
    rw [hpieces]
    constructor
    · -- The piece is taken from what waits, so the packets are not touched by it.
      rw [List.splitLengths_cons, hfillings, List.take_append_of_le_length hlength,
        List.drop_append_of_le_length hlength]
    · rw [after_cons, hperform, List.flatten_cons, List.append_assoc, hcontents,
        ← List.append_assoc, List.take_append_drop]

/-! ## Any two orders -/

/-- A new ring has gone through a sequence of operations in which fewer than 65536 flushes are ever
missed in a row. Then packets come and buffers are filled in two different orders, and in both of
them every packet is stored and every buffer filled. The reader gets the same bytes, buffer by
buffer: the consecutive pieces of what waited and what has come. The two rings that are left hold
the same bytes, those that the reader did not get, and whatever is asked of them from then on, they
answer alike and read alike. -/
theorem interleavings_agree (h : 0 < n) (past : List Operation)
    (hmissed : ∀ before, before <+: past →
      ((Watched.empty n h).after before).lag.missed < 65536)
    {first second : List Operation} (hfirst : Interleaves packets counts first)
    (hsecond : Interleaves packets counts second)
    (hsucceeds : ((empty n h).after past).Succeeds first)
    (hsucceeds' : ((empty n h).after past).Succeeds second) :
    let r := (empty n h).after past
    r.fillings first = r.fillings second
      ∧ r.fillings first = counts.splitLengths (r.contents ++ packets.flatten)
      ∧ (r.after first).fill = (r.after second).fill
      ∧ (r.after first).contents = (r.after second).contents
      ∧ (r.fillings first).flatten ++ (r.after first).contents = r.contents ++ packets.flatten
      ∧ ∀ later, (r.after first).answers later = (r.after second).answers later
        ∧ ((r.after first).after later).gauge = ((r.after second).after later).gauge := by
  intro r
  have hsound : r.Sound := sound_of_missed h hmissed
  obtain ⟨hfillings, hcontents⟩ := hfirst.fillings_eq hsound hsucceeds
  obtain ⟨hfillings', -⟩ := hsecond.fillings_eq hsound hsucceeds'
  -- Even what cannot be seen of the two rings is the same.
  have hring : r.after first = r.after second := by
    rw [hfirst.after_eq hsucceeds, hsecond.after_eq hsucceeds']
  rw [← hring]
  exact ⟨hfillings.trans hfillings'.symm, hfillings, rfl, rfl, hcontents, fun _ => ⟨rfl, rfl⟩⟩

/-- Five bytes, at the start of which a flush has yet to be followed. In one order both packets are
there before a buffer is filled, in the other the ring is full in between, and in either the second
packet lies across the end of storage. -/
theorem interleavings_agree_wrapped :
    let past : List Operation := [.push [1, 2, 3], .flush, .push [4, 5]]
    let first : List Operation :=
      [.push [6], .push [7, 8], .fillBuffer [0, 0], .fillBuffer [], .fillBuffer [0, 0]]
    let second : List Operation :=
      [.fillBuffer [9, 9], .push [6], .fillBuffer [], .push [7, 8], .fillBuffer [9, 9]]
    let r := (empty 5 (by decide)).after past
    0 < 5
      ∧ (∀ before, before <+: past →
        ((Watched.empty 5 (by decide)).after before).lag.missed < 65536)
      ∧ Interleaves [[6], [7, 8]] [2, 0, 2] first ∧ Interleaves [[6], [7, 8]] [2, 0, 2] second
      ∧ r.Succeeds first ∧ r.Succeeds second
      ∧ r.fillings first = [[4, 5], [], [6, 7]] ∧ r.fillings second = [[4, 5], [], [6, 7]]
      ∧ (r.after first).contents = [8] ∧ (r.after second).contents = [8]
      ∧ (r.after first).answers [.takeFrame, .push [10, 11, 12], .takeFrame]
        = (r.after second).answers [.takeFrame, .push [10, 11, 12], .takeFrame] := by
  intro past first second r
  have hmissed : ∀ before, before <+: past →
      ((Watched.empty 5 (by decide)).after before).lag.missed < 65536 :=
    Watched.missed_lt_of_length (by decide) (by decide)
  have hfirst : Interleaves [[6], [7, 8]] [2, 0, 2] first :=
    .push _ (.push _ (.fillBuffer [0, 0] (.fillBuffer [] (.fillBuffer [0, 0] .nil))))
  have hsecond : Interleaves [[6], [7, 8]] [2, 0, 2] second :=
    .fillBuffer [9, 9] (.push _ (.fillBuffer [] (.push _ (.fillBuffer [9, 9] .nil))))
  have hsucceeds : r.Succeeds first := by decide
  have hsucceeds' : r.Succeeds second := by decide
  obtain ⟨hsame, hpieces, -, hcontents, hleft, hlater⟩ :=
    interleavings_agree (by decide) past hmissed hfirst hsecond hsucceeds hsucceeds'
  have hwaits : r.contents = [4, 5] := by decide
  have hpieces' : r.fillings first = [[4, 5], [], [6, 7]] := hpieces.trans (by rw [hwaits]; rfl)
  have hleft' : (r.after first).contents = [8] := by
    rw [hpieces', hwaits] at hleft
    have happend : [4, 5, 6, 7] ++ (r.after first).contents = [4, 5, 6, 7] ++ [8] := hleft
    exact List.append_cancel_left happend
  exact ⟨by decide, hmissed, hfirst, hsecond, hsucceeds, hsucceeds', hpieces',
    hsame.symm.trans hpieces', hleft', hcontents.symm.trans hleft', (hlater _).1⟩

end PacedAudio.Ring

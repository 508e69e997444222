/-
# PacedAudio.Proofs.RateTable.Entries — what a table can play

The entries of a table that is built are the searches of the listed rates, one each
(`entryFor_of_find?`). So a table as a device makes it plays none but the five playable rates, and
only in a format whose frames fit the transmitter's queue (`Made.mem_playedRates`,
`Made.bytesPerFrame`).
-/

import PacedAudio.RateTable

namespace PacedAudio.RateTable

variable {clock : ReferenceClock} {format : PcmFormat} {table : RateTable} {rate : UInt32}
  {divider : Divider}

theorem mem_playedRates_iff :
    rate ∈ playedRates ↔ rate ∈ listedRates ∧ rate ∉ unplayedRates := by
  simp only [playedRates, listedRates, unplayedRates, List.mem_cons, List.not_mem_nil, or_false]
  constructor
  · rintro (rfl | rfl | rfl | rfl | rfl) <;> decide
  · rintro ⟨rfl | rfl | rfl | rfl | rfl | rfl | rfl, hunplayed⟩ <;> simp at hunplayed ⊢

/-- Entries that are made one for each key are looked up by making the entry of the key. -/
theorem lookup_mapM {β : Type} {entry : UInt32 → Checked (UInt32 × β)}
    (hkey : ∀ rate made, entry rate = .ok made → made.1 = rate) {rates : List UInt32}
    {entries : List (UInt32 × β)} (h : rates.mapM entry = .ok entries) {found : β}
    (hfound : entries.lookup rate = some found) :
    rate ∈ rates ∧ entry rate = .ok (rate, found) := by
  induction rates generalizing entries with
  | nil =>
    cases h
    cases hfound
  | cons first rest ih =>
    rw [List.mapM_cons] at h
    obtain ⟨⟨key, value⟩, hfirst, hmore⟩ := Checked.bind_eq_ok.mp h
    obtain ⟨later, hrest, hentries⟩ := Checked.bind_eq_ok.mp hmore
    cases hentries
    obtain rfl : key = first := hkey first _ hfirst
    rw [List.lookup_cons] at hfound
    split at hfound
    · next hsame =>
      obtain rfl : rate = key := by simpa using hsame
      cases hfound
      exact ⟨List.mem_cons_self, hfirst⟩
    · obtain ⟨hmem, hentry⟩ := ih hrest hfound
      exact ⟨List.mem_cons_of_mem _ hmem, hentry⟩

theorem entryFor_fst {made : UInt32 × Option Divider}
    (h : entryFor clock format rate = .ok made) : made.1 = rate := by
  rw [entryFor] at h
  split at h
  · cases h
    rfl
  · obtain ⟨target, -, hsearch⟩ := Checked.bind_eq_ok.mp h
    obtain ⟨found, -, hmade⟩ := Checked.bind_eq_ok.mp hsearch
    cases hmade
    rfl

/-- What is found in a table that was built is what the search has found for the rate. -/
theorem entryFor_of_find? (h : build clock format = .ok table)
    (hfind : table.find? rate = some divider) :
    format.bytesPerFrame = playedFrameBytes ∧ table.format = format ∧ rate ∈ listedRates
      ∧ entryFor clock format rate = .ok (rate, some divider) := by
  rw [build] at h
  split at h
  · next hbytes =>
    obtain ⟨entries, hentries, htable⟩ := Checked.bind_eq_ok.mp h
    cases htable
    have hlookup : entries.lookup rate = some (some divider) := Option.join_eq_some_iff.mp hfind
    obtain ⟨hmem, hentry⟩ := lookup_mapM (fun _ _ => entryFor_fst) hentries hlookup
    exact ⟨hbytes, rfl, hmem, hentry⟩
  · cases h
    rw [find?_blank] at hfind
    cases hfind

/-- A rate that is never played has no divider. -/
theorem entryFor_of_unplayed (h : rate ∈ unplayedRates) :
    entryFor clock format rate = .ok (rate, none) :=
  if_pos h

/-! ## Tables as a device makes them -/

theorem Made.mem_playedRates (h : table.Made) (hfind : table.find? rate = some divider) :
    rate ∈ playedRates := by
  rcases h with rfl | ⟨clock, format, hbuild⟩
  · rw [empty, find?_blank] at hfind
    cases hfind
  · obtain ⟨-, -, hlisted, hentry⟩ := entryFor_of_find? hbuild hfind
    refine mem_playedRates_iff.mpr ⟨hlisted, fun hunplayed => ?_⟩
    rw [entryFor_of_unplayed hunplayed] at hentry
    cases hentry

theorem Made.bytesPerFrame (h : table.Made) (hfind : table.find? rate = some divider) :
    table.format.bytesPerFrame = playedFrameBytes := by
  rcases h with rfl | ⟨clock, format, hbuild⟩
  · rfl
  · obtain ⟨hbytes, hformat, -, -⟩ := entryFor_of_find? hbuild hfind
    rw [hformat]
    exact hbytes

/-! ## A table -/

/-- What the LPC18xx can play, in sixteen-bit stereo. -/
def lpc18xx : RateTable where
  entries :=
    [(8000, some ⟨0x3F, ⟨0x02, 0x0B⟩, ⟨0x2D, 0xF7⟩⟩),
      (11025, some ⟨0x3F, ⟨0x01, 0x04⟩, ⟨0x40, 0xFF⟩⟩),
      (16000, none),
      (22050, some ⟨0x3F, ⟨0x01, 0x02⟩, ⟨0x80, 0xFF⟩⟩),
      (32000, none),
      (44100, some ⟨0x3E, ⟨0x51, 0x52⟩, ⟨0xF4, 0xF7⟩⟩),
      (48000, some ⟨0x39, ⟨0xC3, 0xC5⟩, ⟨0x62, 0x63⟩⟩)]
  clock := 180000000
  format := .stereo16

theorem build_lpc18xx : build .lpc18xx .stereo16 = .ok lpc18xx := by
  have hsome : (build .lpc18xx .stereo16).toOption = some lpc18xx := by decide +kernel
  cases hbuild : build .lpc18xx .stereo16 with
  | error fault =>
    rw [hbuild] at hsome
    cases hsome
  | ok table =>
    rw [hbuild] at hsome
    cases hsome
    rfl

theorem made_lpc18xx : lpc18xx.Made :=
  Or.inr ⟨.lpc18xx, .stereo16, build_lpc18xx⟩

end PacedAudio.RateTable

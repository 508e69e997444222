/-
# PacedAudio.Proofs.RateTable.Support — what exactly a table can play

A table is built for every peripheral clock, trim and format but one kind: the trim must leave the
highest rate in 32 bits if a divider is to be searched for it (`build_eq_error_iff`). The table
holds the search of each rate that is played (`find?_searched`), so it plays exactly those whose
master clock is below the peripheral clock (`plays_iff`), and reading it by rate or from one end to
the other comes to the same (`mem_playable_iff`). All of it is one statement, `table_of_clock`.

A lower rate has a lower master clock, so what can be played is closed downwards, and a faster
peripheral clock loses none of it.
-/

import PacedAudio.Proofs.RateTable.Accuracy

namespace PacedAudio

/-! ## The search of one rate -/

/-- The search of a rate comes to an end without a fault, and it finds a divider exactly if the
master clock is positive and below the peripheral clock. -/
theorem Divider.find?_eq_ok (rate : UInt32) (format : PcmFormat) (clock : UInt32) :
    ∃ found, find? rate format clock = .ok found
      ∧ (found.isSome = true
        ↔ 0 < masterClock rate format ∧ masterClock rate format < clock.toNat) := by
  by_cases h : 0 < masterClock rate format ∧ masterClock rate format < clock.toNat
  · obtain ⟨stages, share, -, hchosen, hfind⟩ := find?_of_lt h.1 h.2
    obtain ⟨divider, hfound, -⟩ := found?_eq_some hchosen
    refine ⟨_, hfind, ?_⟩
    rw [hfound]
    exact ⟨fun _ => h, fun _ => rfl⟩
  · exact ⟨none, find?_of_not h, ⟨nofun, fun hrealisable => absurd hrealisable h⟩⟩

/-- The search that finds a divider succeeds with it. -/
theorem Divider.forRate_of_find? {rate : UInt32} {format : PcmFormat} {clock : UInt32}
    {divider : Divider} (h : find? rate format clock = .ok (some divider)) :
    forRate rate format clock = .ok (.ok divider) := by
  rw [forRate, h]
  rfl

namespace ReferenceClock

variable {clock : ReferenceClock} {rate lower target : UInt32}

/-- The greatest trim that leaves 48000 Hz in 32 bits. -/
def maxTrim : Nat := Word.bound 32 - 1 - 48000

theorem maxTrim_eq : maxTrim = 4294919295 := rfl

theorem target_of_le (h : clock.trim.toNat ≤ maxTrim) (rate : UInt32) :
    clock.target rate = .ok (UInt32.ofNat (clock.searched rate)) := by
  rw [target, searched]
  by_cases htrimmed : rate = 44100 ∨ rate = 48000
  · have hfits : rate.toNat + clock.trim.toNat < Word.bound 32 := by
      have hrate : rate.toNat ≤ 48000 := by
        rcases htrimmed with rfl | rfl <;> simp
      rw [maxTrim_eq] at h
      rw [Word.bound_eq]
      omega
    rw [if_pos (RateTable.mem_trimmedRates.mpr htrimmed), if_pos htrimmed, Word.add_of_lt hfits]
    rfl
  · rw [if_neg (mt RateTable.mem_trimmedRates.mp htrimmed), if_neg htrimmed,
      UInt32.ofNat_toNat]

/-- No rate is searched with any other fault than that it does not fit. -/
theorem fault_of_target {fault : Fault} (h : clock.target rate = .error fault) :
    fault = .sumOutOfRange := by
  rw [target, Word.add] at h
  split at h
  · split at h
    · cases h
    · cases h
      rfl
  · cases h

/-- A trim beyond the greatest one is too much for 48000 Hz. -/
theorem target_of_lt (h : maxTrim < clock.trim.toNat) :
    clock.target 48000 = .error .sumOutOfRange := by
  have hover : Word.bound 32 ≤ (48000 : UInt32).toNat + clock.trim.toNat := by
    have hrate : (48000 : UInt32).toNat = 48000 := rfl
    rw [maxTrim_eq] at h
    rw [hrate, Word.bound_eq]
    omega
  rw [target, if_pos (by decide), Word.add_of_le hover]
  rfl

/-- Of two rates that are played the lower one is searched lower, trimmed or not. -/
theorem searched_le_searched (hlower : lower ∈ RateTable.playedRates)
    (hrate : rate ∈ RateTable.playedRates) (hle : lower ≤ rate) :
    clock.searched lower ≤ clock.searched rate := by
  have hnat : lower.toNat ≤ rate.toNat := UInt32.le_iff_toNat_le.mp hle
  have htrimmed : lower = 44100 ∨ lower = 48000 → rate = 44100 ∨ rate = 48000 := by
    simp only [RateTable.playedRates, List.mem_cons, List.not_mem_nil, or_false] at hlower hrate
    rcases hlower with rfl | rfl | rfl | rfl | rfl <;>
      rcases hrate with rfl | rfl | rfl | rfl | rfl <;> revert hle <;> decide
  rw [searched, searched]
  split
  · next h => rw [if_pos (htrimmed h)]; exact Nat.add_le_add_right hnat _
  · split
    · exact Nat.le_add_right_of_le hnat
    · exact hnat

end ReferenceClock

namespace RateTable

variable {clock : ReferenceClock} {format : PcmFormat} {table : RateTable} {rate lower : UInt32}
  {divider : Divider}

/-! ## Entries made one for each key -/

section Keys

variable {β : Type} {entry : UInt32 → Checked (UInt32 × β)} {rates : List UInt32}
  {entries : List (UInt32 × β)} {fault : Fault}

theorem mapM_eq_ok (h : ∀ rate ∈ rates, ∃ made, entry rate = .ok made) :
    ∃ entries, rates.mapM entry = .ok entries := by
  induction rates with
  | nil => exact ⟨[], rfl⟩
  | cons first rest ih =>
    obtain ⟨hfirst, hrest⟩ := List.forall_mem_cons.mp h
    obtain ⟨made, hmade⟩ := hfirst
    obtain ⟨later, hlater⟩ := ih hrest
    refine ⟨made :: later, ?_⟩
    rw [List.mapM_cons, hmade, Checked.ok_bind, hlater]
    rfl

/-- Whichever entry fails first, the fault is the one that all of them fail with. -/
theorem mapM_eq_error
    (hfault : ∀ rate fault', entry rate = .error fault' → fault' = fault)
    (hmem : rate ∈ rates) (h : entry rate = .error fault) : rates.mapM entry = .error fault := by
  induction rates with
  | nil => cases hmem
  | cons first rest ih =>
    rw [List.mapM_cons]
    cases hfirst : entry first with
    | error fault' => rw [hfault first fault' hfirst]; rfl
    | ok made =>
      rcases List.mem_cons.mp hmem with rfl | hrest
      · rw [h] at hfirst
        cases hfirst
      · rw [Checked.ok_bind, ih hrest]
        rfl

theorem keys_mapM (hkey : ∀ rate made, entry rate = .ok made → made.1 = rate)
    (h : rates.mapM entry = .ok entries) : entries.map Prod.fst = rates := by
  induction rates generalizing entries with
  | nil =>
    cases h
    rfl
  | cons first rest ih =>
    rw [List.mapM_cons] at h
    obtain ⟨made, hfirst, hmore⟩ := Checked.bind_eq_ok.mp h
    obtain ⟨later, hrest, hentries⟩ := Checked.bind_eq_ok.mp hmore
    cases hentries
    rw [List.map_cons, hkey first made hfirst, ih hrest]

/-- With each key there once, an entry is looked up by its key. -/
theorem lookup_eq_some_iff_mem (hkeys : (entries.map Prod.fst).Nodup) {found : β} :
    entries.lookup rate = some found ↔ (rate, found) ∈ entries := by
  induction entries with
  | nil => simp
  | cons first rest ih =>
    obtain ⟨hfirst, hrest⟩ := List.nodup_cons.mp hkeys
    rw [List.lookup_cons, List.mem_cons]
    by_cases hsame : rate = first.1
    · have habsent : (rate, found) ∉ rest := fun hmem =>
        hfirst (List.mem_map.mpr ⟨(rate, found), hmem, hsame⟩)
      obtain ⟨key, value⟩ := first
      obtain rfl : rate = key := hsame
      simp [habsent, eq_comm]
    · have hdiffers : (rate == first.1) = false := beq_eq_false_iff_ne.mpr hsame
      have hother : (rate, found) ≠ first := fun heq => hsame (congrArg Prod.fst heq)
      rw [hdiffers]
      simp only [hother, false_or]
      exact ih hrest

end Keys

/-! ## Whether a table is built -/

theorem fault_of_entryFor {fault : Fault} (h : entryFor clock format rate = .error fault) :
    fault = .sumOutOfRange := by
  rw [entryFor] at h
  split at h
  · cases h
  · cases htarget : clock.target rate with
    | error fault' =>
      rw [htarget] at h
      cases h
      exact ReferenceClock.fault_of_target htarget
    | ok target =>
      obtain ⟨found, hfound, -⟩ := Divider.find?_eq_ok target format clock.hertz
      rw [htarget, Checked.ok_bind, hfound] at h
      cases h

theorem entryFor_of_le (h : clock.trim.toNat ≤ ReferenceClock.maxTrim) (rate : UInt32) :
    ∃ made, entryFor clock format rate = .ok made := by
  rw [entryFor]
  split
  · exact ⟨_, rfl⟩
  · obtain ⟨found, hfound, -⟩ :=
      Divider.find?_eq_ok (UInt32.ofNat (clock.searched rate)) format clock.hertz
    rw [ReferenceClock.target_of_le h, Checked.ok_bind, hfound]
    exact ⟨_, rfl⟩

theorem entryFor_of_lt (h : ReferenceClock.maxTrim < clock.trim.toNat) :
    entryFor clock format 48000 = .error .sumOutOfRange := by
  rw [entryFor, if_neg (by decide), ReferenceClock.target_of_lt h]
  rfl

theorem build_of_ne (h : format.bytesPerFrame ≠ playedFrameBytes) (clock : ReferenceClock) :
    build clock format = .ok (blank clock.hertz format) :=
  if_neg h

theorem build_of_le (h : clock.trim.toNat ≤ ReferenceClock.maxTrim) (format : PcmFormat) :
    ∃ table, build clock format = .ok table := by
  rw [build]
  split
  · have hmade : ∀ rate ∈ listedRates, ∃ made, entryFor clock format rate = .ok made :=
      fun rate _ => entryFor_of_le h rate
    obtain ⟨entries, hentries⟩ := mapM_eq_ok hmade
    rw [hentries]
    exact ⟨_, rfl⟩
  · exact ⟨_, rfl⟩

theorem build_of_lt (hbytes : format.bytesPerFrame = playedFrameBytes)
    (h : ReferenceClock.maxTrim < clock.trim.toNat) :
    build clock format = .error .sumOutOfRange := by
  have hentries : listedRates.mapM (entryFor clock format) = .error .sumOutOfRange :=
    mapM_eq_error (fun _ _ => fault_of_entryFor) (by decide) (entryFor_of_lt h)
  rw [build, if_pos hbytes, hentries]
  rfl

/-- Only a trim that is too much for 48000 Hz stops a table from being built. -/
theorem build_eq_error_iff (hbytes : format.bytesPerFrame = playedFrameBytes) :
    build clock format = .error .sumOutOfRange ↔ ReferenceClock.maxTrim < clock.trim.toNat := by
  constructor
  · intro h
    refine Nat.lt_of_not_le fun hle => ?_
    obtain ⟨table, htable⟩ := build_of_le hle format
    rw [htable] at h
    cases h
  · exact build_of_lt hbytes

/-! ## What it holds -/

/-- The entries of a table stand for the listed rates, in order. -/
theorem keys_of_build (h : build clock format = .ok table) :
    table.entries.map Prod.fst = listedRates := by
  rw [build] at h
  split at h
  · obtain ⟨entries, hentries, htable⟩ := Checked.bind_eq_ok.mp h
    cases htable
    exact keys_mapM (fun _ _ => entryFor_fst) hentries
  · cases h
    rfl

/-- For a rate that is played the table has what the search of it has found. -/
theorem find?_searched (h : build clock format = .ok table)
    (hbytes : format.bytesPerFrame = playedFrameBytes) (hplayed : rate ∈ playedRates) :
    ∃ target : UInt32, target.toNat = clock.searched rate
      ∧ Divider.find? target format clock.hertz = .ok (table.find? rate) := by
  obtain ⟨hlisted, hsearched⟩ := mem_playedRates_iff.mp hplayed
  have hkeys := keys_of_build h
  have hnodup : (table.entries.map Prod.fst).Nodup := hkeys ▸ by decide
  obtain ⟨⟨key, found⟩, hmem, rfl⟩ := List.mem_map.mp (hkeys ▸ hlisted)
  have hlookup : table.entries.lookup key = some found :=
    (lookup_eq_some_iff_mem hnodup).mpr hmem
  have hfind : table.find? key = found := by rw [find?, hlookup, Option.join_some]
  rw [build, if_pos hbytes] at h
  obtain ⟨entries, hentries, htable⟩ := Checked.bind_eq_ok.mp h
  cases htable
  obtain ⟨-, hentry⟩ := lookup_mapM (fun _ _ => entryFor_fst) hentries hlookup
  rw [entryFor, if_neg hsearched] at hentry
  obtain ⟨target, htarget, hsearch⟩ := Checked.bind_eq_ok.mp hentry
  obtain ⟨found', hfound, hmade⟩ := Checked.bind_eq_ok.mp hsearch
  cases hmade
  exact ⟨target, toNat_target htarget, hfind ▸ hfound⟩

/-- A table plays a rate exactly if it is one that is played, a frame fits the transmitter's queue,
and the master clock of the searched rate is below the peripheral clock. -/
theorem plays_iff (h : build clock format = .ok table) :
    table.plays rate = true ↔ format.bytesPerFrame = playedFrameBytes ∧ rate ∈ playedRates
      ∧ clock.searched rate * format.clocksPerFrame < clock.hertz.toNat := by
  by_cases hplayed : format.bytesPerFrame = playedFrameBytes ∧ rate ∈ playedRates
  · obtain ⟨hbytes, hrate⟩ := hplayed
    obtain ⟨target, htarget, hsearch⟩ := find?_searched h hbytes hrate
    obtain ⟨found, hfound, hsome⟩ := Divider.find?_eq_ok target format clock.hertz
    obtain rfl : table.find? rate = found := Except.ok.inj (hsearch.symm.trans hfound)
    have hclocks : 0 < format.clocksPerFrame := by
      rw [PcmFormat.bytesPerFrame, playedFrameBytes] at hbytes
      rw [PcmFormat.clocksPerFrame]
      omega
    have hpos : 0 < clock.searched rate * format.clocksPerFrame :=
      Nat.mul_pos (Nat.lt_of_lt_of_le (by decide)
        (le_searched clock (mem_playedRates_iff.mp hrate).1)) hclocks
    rw [Divider.masterClock, htarget] at hsome
    rw [plays, hsome]
    exact ⟨fun hbelow => ⟨hbytes, hrate, hbelow.2⟩, fun hbelow => ⟨hpos, hbelow.2.2⟩⟩
  · refine ⟨fun hplays => ?_, fun hplays => absurd ⟨hplays.1, hplays.2.1⟩ hplayed⟩
    obtain ⟨divider, hfind⟩ := Option.isSome_iff_exists.mp hplays
    exact absurd ⟨(entryFor_of_find? h hfind).1,
      Made.mem_playedRates (Or.inr ⟨clock, format, h⟩) hfind⟩ hplayed

/-! ## The two ways to read it -/

/-- From one end to the other a table reads as it does rate by rate. -/
theorem mem_playable_iff (h : build clock format = .ok table) :
    (rate, divider) ∈ table.playable ↔ table.find? rate = some divider := by
  have hnodup : (table.entries.map Prod.fst).Nodup := keys_of_build h ▸ by decide
  rw [find?, Option.join_eq_some_iff, lookup_eq_some_iff_mem hnodup, playable,
    List.mem_filterMap]
  simp

/-- And in ascending order. -/
theorem playable_ascends (h : build clock format = .ok table) :
    table.playable.Pairwise fun earlier later => earlier.1 < later.1 := by
  have hascends : table.entries.Pairwise fun earlier later => earlier.1 < later.1 := by
    rw [← List.pairwise_map, keys_of_build h]
    decide
  refine hascends.filterMap _ fun earlier later hlt made hmade made' hmade' => ?_
  simp only [Option.map_eq_some_iff] at hmade hmade'
  obtain ⟨_, -, rfl⟩ := hmade
  obtain ⟨_, -, rfl⟩ := hmade'
  exact hlt

/-! ## Lower rates and faster clocks -/

theorem plays_lower (h : build clock format = .ok table) (hlower : lower ∈ playedRates)
    (hle : lower ≤ rate) (hplays : table.plays rate = true) : table.plays lower = true := by
  obtain ⟨hbytes, hrate, hbelow⟩ := (plays_iff h).mp hplays
  have hsearched : clock.searched lower ≤ clock.searched rate :=
    ReferenceClock.searched_le_searched hlower hrate hle
  exact (plays_iff h).mpr
    ⟨hbytes, hlower, Nat.lt_of_le_of_lt (Nat.mul_le_mul_right _ hsearched) hbelow⟩

theorem plays_faster (h : build clock format = .ok table) {hertz : UInt32}
    (hfaster : clock.hertz ≤ hertz) :
    ∃ faster, build ⟨hertz, clock.trim⟩ format = .ok faster
      ∧ ∀ rate, table.plays rate = true → faster.plays rate = true := by
  let raised : ReferenceClock := ⟨hertz, clock.trim⟩
  have hbuilt : ∃ faster, build raised format = .ok faster := by
    by_cases hbytes : format.bytesPerFrame = playedFrameBytes
    · have htrim : raised.trim.toNat ≤ ReferenceClock.maxTrim := by
        show clock.trim.toNat ≤ ReferenceClock.maxTrim
        refine Nat.le_of_not_lt fun hover => ?_
        rw [build_of_lt hbytes hover] at h
        cases h
      exact build_of_le htrim format
    · exact ⟨_, build_of_ne hbytes _⟩
  obtain ⟨faster, hbuild⟩ := hbuilt
  refine ⟨faster, hbuild, fun rate hplays => ?_⟩
  obtain ⟨hbytes, hrate, hbelow⟩ := (plays_iff h).mp hplays
  exact (plays_iff hbuild).mpr
    ⟨hbytes, hrate, Nat.lt_of_lt_of_le hbelow (UInt32.le_iff_toNat_le.mp hfaster)⟩

/-- For every clock and format: if a frame does not fit the transmitter's queue, there is a table,
and it finds no divider. If it does, there is a table unless the trim is too much for 48000 Hz to
stay in 32 bits, and then the sum is the fault. A table finds a divider for exactly those rates
that are played and whose searched rate has a master clock below the peripheral clock, and it is
the one that the search succeeds with. The pairs that it lists are these, in strictly ascending
order. With a rate it plays every lower one, and a faster peripheral clock loses none. -/
theorem table_of_clock (clock : ReferenceClock) (format : PcmFormat) :
    (format.bytesPerFrame ≠ playedFrameBytes →
        ∃ table, build clock format = .ok table ∧ ∀ rate, table.find? rate = none)
      ∧ (format.bytesPerFrame = playedFrameBytes →
        (build clock format = .error .sumOutOfRange ↔ 2 ^ 32 - 1 - 48000 < clock.trim.toNat)
          ∧ (clock.trim.toNat ≤ 2 ^ 32 - 1 - 48000 → ∃ table, build clock format = .ok table))
      ∧ ∀ table, build clock format = .ok table →
        (∀ rate, table.plays rate = true
          ↔ format.bytesPerFrame = playedFrameBytes ∧ rate ∈ playedRates
            ∧ clock.searched rate * format.clocksPerFrame < clock.hertz.toNat)
          ∧ (∀ rate divider, table.find? rate = some divider →
            ∃ target : UInt32, target.toNat = clock.searched rate
              ∧ Divider.forRate target format clock.hertz = .ok (.ok divider))
          ∧ (∀ rate divider,
            (rate, divider) ∈ table.playable ↔ table.find? rate = some divider)
          ∧ (table.playable.Pairwise fun earlier later => earlier.1 < later.1)
          ∧ (∀ lower rate, lower ∈ playedRates → lower ≤ rate → table.plays rate = true →
            table.plays lower = true)
          ∧ ∀ hertz, clock.hertz ≤ hertz →
            ∃ faster, build ⟨hertz, clock.trim⟩ format = .ok faster
              ∧ ∀ rate, table.plays rate = true → faster.plays rate = true := by
  have htrim : (2 : Nat) ^ 32 - 1 - 48000 = ReferenceClock.maxTrim := rfl
  rw [htrim]
  refine ⟨fun hbytes => ⟨_, build_of_ne hbytes clock, find?_blank _ _⟩,
    fun hbytes => ⟨build_eq_error_iff hbytes, fun hle => build_of_le hle format⟩,
    fun table hbuild => ⟨fun rate => plays_iff hbuild, fun rate divider hfind => ?_,
      fun rate divider => mem_playable_iff hbuild, playable_ascends hbuild,
      fun lower rate => plays_lower hbuild, fun hertz => plays_faster hbuild⟩⟩
  obtain ⟨hbytes, hplayed, -⟩ := (plays_iff hbuild).mp (Option.isSome_iff_exists.mpr ⟨_, hfind⟩)
  obtain ⟨target, htarget, hsearch⟩ := find?_searched hbuild hbytes hplayed
  exact ⟨target, htarget, Divider.forRate_of_find? (hfind ▸ hsearch)⟩

/-- One channel of 39 bits takes four whole bytes and is played. With a peripheral clock of two
megahertz the three lower rates are, at 78 cycles a frame, and 44100 Hz is not. A trim of one hertz
more than the greatest stops the table from being built, and with two channels of 24 bits nothing
is played, whatever the trim. -/
theorem table_of_clock_odd_width :
    (∃ table, build ⟨2000000, 1⟩ ⟨1, 39⟩ = .ok table
        ∧ table.plays 22050 = true ∧ table.plays 11025 = true ∧ table.plays 44100 = false
        ∧ table.plays 16000 = false
        ∧ ∃ faster, build ⟨4000000, 1⟩ ⟨1, 39⟩ = .ok faster
          ∧ faster.plays 22050 = true ∧ faster.plays 48000 = true)
      ∧ (∃ table, build ⟨2000000, 4294919295⟩ ⟨1, 39⟩ = .ok table)
      ∧ build ⟨2000000, 4294919296⟩ ⟨1, 39⟩ = .error .sumOutOfRange
      ∧ ∃ table, build ⟨2000000, 4294919296⟩ ⟨2, 24⟩ = .ok table
        ∧ ∀ rate, table.find? rate = none := by
  obtain ⟨-, hfits, htable⟩ := table_of_clock ⟨2000000, 1⟩ ⟨1, 39⟩
  obtain ⟨table, hbuild⟩ := (hfits (by decide)).2 (by decide)
  obtain ⟨hplays, -, -, -, hlower, hfaster⟩ := htable table hbuild
  obtain ⟨faster, hbuild', hkept⟩ := hfaster 4000000 (by decide)
  obtain ⟨-, -, hfast⟩ := table_of_clock ⟨4000000, 1⟩ ⟨1, 39⟩
  have hplays' := (hfast faster hbuild').1
  have hmiddle : table.plays 22050 = true := (hplays 22050).mpr (by decide)
  have hhigh : ¬ table.plays 44100 = true := mt (hplays 44100).mp (by decide)
  have hskipped : ¬ table.plays 16000 = true := mt (hplays 16000).mp (by decide)
  obtain ⟨-, hgreatest, -⟩ := table_of_clock ⟨2000000, 4294919295⟩ ⟨1, 39⟩
  obtain ⟨-, hbeyond, -⟩ := table_of_clock ⟨2000000, 4294919296⟩ ⟨1, 39⟩
  obtain ⟨hwide, -, -⟩ := table_of_clock ⟨2000000, 4294919296⟩ ⟨2, 24⟩
  exact ⟨⟨table, hbuild, hmiddle, hlower 11025 22050 (by decide) (by decide) hmiddle,
      Bool.eq_false_iff.mpr hhigh, Bool.eq_false_iff.mpr hskipped, faster, hbuild',
      hkept 22050 hmiddle, (hplays' 48000).mpr (by decide)⟩,
    (hgreatest (by decide)).2 (by decide), (hbeyond (by decide)).1.mpr (by decide),
    hwide (by decide)⟩

end RateTable

end PacedAudio

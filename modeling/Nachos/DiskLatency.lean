import Nachos.FileHeader

/-! How long a request to the simulated disk takes: `TimeToSeek`, `ModuloDiff`, `ComputeLatency` and `UpdateLast` of
`machine/disk.cc`. The clock has 64 bits, the times of the disk are kept in `int`. -/

namespace Nachos

def rotationTime : Int := 500
def seekTime : Int := 500
def sectorsPerTrack : Int := 32

/-- The conversion to an `int`. -/
def asInt (z : Int) : Int := z.bmod (2 ^ 32)

/-- The arithmetic of `long long`. -/
def asLong (z : Int) : Int := z.bmod (2 ^ 64)

/-- What the `Disk` keeps of the requests so far. -/
structure DiskHead where
  lastSector : Int
  bufferInit : Int

namespace DiskHead

/-- `Disk::TimeToSeek`: the seek, and the rotation to the next sector boundary. -/
def timeToSeek (head : DiskHead) (totalTicks newSector : Int) : Int × Int :=
  let newTrack := newSector.tdiv sectorsPerTrack
  let oldTrack := head.lastSector.tdiv sectorsPerTrack
  let seek := ((newTrack - oldTrack).natAbs : Int) * seekTime
  let overTime := asInt ((asLong (totalTicks + seek)).tmod rotationTime)
  (seek, if overTime > 0 then rotationTime - overTime else 0)

/-- `Disk::ModuloDiff`. -/
def moduloDiff (target current : Int) : Int :=
  ((target.tmod sectorsPerTrack - current.tmod sectorsPerTrack) + sectorsPerTrack).tmod sectorsPerTrack

/-- `Disk::ComputeLatency`, with the track buffer. -/
def computeLatency (head : DiskHead) (totalTicks newSector : Int) (writing : Bool) : Int :=
  let (seek, rotation) := head.timeToSeek totalTicks newSector
  let timeAfter := asInt (asLong (asLong (totalTicks + seek) + rotation))
  if writing = false ∧ seek = 0 ∧ (asInt (timeAfter - head.bufferInit)).tdiv rotationTime >
      moduloDiff newSector (head.bufferInit.tdiv rotationTime) then rotationTime
  else seek + (rotation + moduloDiff newSector (timeAfter.tdiv rotationTime) * rotationTime) + rotationTime

/-- `Disk::UpdateLast`. -/
def updateLast (head : DiskHead) (totalTicks newSector : Int) : DiskHead :=
  let (seek, rotate) := head.timeToSeek totalTicks newSector
  { lastSector := newSector
    bufferInit := if seek ≠ 0 then asInt (asLong (asLong (totalTicks + seek) + rotate)) else head.bufferInit }

end DiskHead

section Arithmetic

theorem asLong_eq {z : Int} (hlower : 0 ≤ z) (hupper : z < 2 ^ 63) : asLong z = z := by
  unfold asLong
  rw [Int.bmod_def]
  omega

theorem asInt_eq {z : Int} (hlower : 0 ≤ z) (hupper : z < 2 ^ 31) : asInt z = z := by
  unfold asInt
  rw [Int.bmod_def]
  omega

/-- The sectors from the current one on to the target, on the track. -/
theorem moduloDiff_eq {target : Int} (htarget : 0 ≤ target) (current : Int) :
    DiskHead.moduloDiff target current = (target - current) % 32 := by
  have hoffset : target.tmod 32 = target % 32 := Int.tmod_eq_emod_of_nonneg htarget
  have hcurrent : current.tmod 32 = current % 32 ∨ current.tmod 32 = current % 32 - 32 := by
    rw [Int.tmod_eq_emod]
    split_ifs
    · exact .inl (Int.sub_zero _)
    · exact .inr rfl
  unfold DiskHead.moduloDiff sectorsPerTrack
  rw [hoffset]
  rcases hcurrent with h | h
  · rw [h, Int.tmod_eq_emod_of_nonneg (by omega)]
    omega
  · rw [h, Int.tmod_eq_emod_of_nonneg (by omega)]
    omega

/-- The next sector boundary. -/
def boundary (z : Int) : Int := (z + 499) / 500 * 500

/-- How often an `int` is left behind at this time. -/
def wraps (time : Int) : Int := (time + 2 ^ 31) / 2 ^ 32

/-- The conversion of a time to an `int` has lost whole turns of the disk. -/
def TurnsKept (time : Int) : Prop :=
  if 2 ^ 32 * wraps time ≤ time then (2 ^ 32 * wraps time + 499) / 500 % 32 = 0 else 2 ^ 32 * wraps time / 500 % 32 = 0

/-- Nothing is lost before the clock leaves the range of an `int`. -/
theorem turnsKept_of_lt {time : Int} (hlower : 0 ≤ time) (hupper : time < 2 ^ 31) : TurnsKept time := by
  have hwraps : wraps time = 0 := by
    unfold wraps
    omega
  unfold TurnsKept
  rw [hwraps, if_pos (by omega)]
  decide

/-- When the sector that the disk computes from an `int` is the one under the head. -/
theorem turnsKept_iff {time : Int} (hboundary : time % 500 = 0) :
    (asInt time).tdiv 500 % 32 = time / 500 % 32 ↔ TurnsKept time := by
  have hlost : asInt time = time - 2 ^ 32 * wraps time := by
    unfold asInt wraps
    rw [Int.bmod_def]
    omega
  obtain ⟨q, rfl⟩ : ∃ q, time = 500 * q := ⟨time / 500, by omega⟩
  have hsector : 500 * q / 500 = q := by omega
  unfold TurnsKept
  rw [hlost, hsector]
  generalize 2 ^ 32 * wraps (500 * q) = lost
  split_ifs with hle
  · have hturns : (500 * q - lost) / 500 = q - (lost + 499) / 500 := by omega
    rw [Int.tdiv_eq_ediv_of_nonneg (by omega), hturns]
    omega
  · have hturns : (lost - 500 * q) / 500 = lost / 500 - q := by omega
    rw [← Int.neg_neg (500 * q - lost), Int.neg_tdiv, Int.neg_sub, Int.tdiv_eq_ediv_of_nonneg (by omega), hturns]
    omega

end Arithmetic

section Latency

/-- The seek of a request. -/
def DiskHead.seek (head : DiskHead) (newSector : Int) : Int := (head.timeToSeek 0 newSector).1

/-- The seek over the distance of two tracks. -/
def trackSeek (previous target : Int) : Int := seekTime * (target / sectorsPerTrack - previous / sectorsPerTrack).natAbs

/-- At the end of a request of this length the disk is at the end of the target, on the track and after the seek. -/
structure Passes (totalTicks seek target latency : Int) : Prop where
  sought : seek + rotationTime ≤ latency
  boundary : (totalTicks + latency) % rotationTime = 0
  under : ((totalTicks + latency) / rotationTime - 1) % sectorsPerTrack = target % sectorsPerTrack

variable {head : DiskHead} {totalTicks target : Int}

theorem seek_nonneg (head : DiskHead) (target : Int) : 0 ≤ head.seek target := by
  unfold DiskHead.seek DiskHead.timeToSeek seekTime
  dsimp only
  omega

theorem timeToSeek_eq (ht : 0 ≤ totalTicks) (hclock : totalTicks + head.seek target < 2 ^ 63) :
    head.timeToSeek totalTicks target =
      (head.seek target, boundary (totalTicks + head.seek target) - (totalTicks + head.seek target)) := by
  have hnonneg := seek_nonneg head target
  have hover : asInt ((asLong (totalTicks + head.seek target)).tmod 500) = (totalTicks + head.seek target) % 500 := by
    rw [asLong_eq (by omega) hclock, Int.tmod_eq_emod_of_nonneg (by omega), asInt_eq (by omega) (by omega)]
  unfold DiskHead.timeToSeek
  dsimp only
  change (head.seek target, if asInt ((asLong (totalTicks + head.seek target)).tmod 500) > 0 then
    500 - asInt ((asLong (totalTicks + head.seek target)).tmod 500) else 0) = _
  rw [hover]
  unfold boundary
  congr 1
  split_ifs <;> omega

/-- The rotation is not negative, whatever the clock is. -/
theorem rotation_nonneg (head : DiskHead) (totalTicks target : Int) : 0 ≤ (head.timeToSeek totalTicks target).2 := by
  unfold DiskHead.timeToSeek rotationTime
  dsimp only
  generalize asLong _ = now
  have hlt : now.tmod 500 < 500 := Int.tmod_lt_of_pos now (by decide)
  split_ifs with hover
  · by_cases hneg : now.tmod 500 < 0
    · have hnow : -500 < now.tmod 500 := Int.lt_tmod_of_pos now (by decide)
      unfold asInt
      rw [Int.bmod_def]
      omega
    · rw [asInt_eq (by omega) (by omega)]
      omega
  · exact Int.le_refl 0

theorem computeLatency_write (htarget : 0 ≤ target) : head.computeLatency totalTicks target true =
    head.seek target + ((head.timeToSeek totalTicks target).2 + (target - (asInt (asLong (asLong
      (totalTicks + head.seek target) + (head.timeToSeek totalTicks target).2))).tdiv 500) % 32 * 500) + 500 := by
  unfold DiskHead.computeLatency
  dsimp only
  rw [if_neg (fun h => Bool.false_ne_true h.1.symm), moduloDiff_eq htarget]
  rfl

/-- The clock holds the time after the seek if it holds the time after the request. -/
theorem clock_after_seek (htarget : 0 ≤ target)
    (hclock : totalTicks + head.computeLatency totalTicks target true < 2 ^ 63) :
    totalTicks + head.seek target < 2 ^ 63 := by
  have hrotation := rotation_nonneg head totalTicks target
  rw [computeLatency_write htarget] at hclock
  omega

/-- The request ends so many sectors behind the boundary after the seek. -/
theorem computeLatency_eq (ht : 0 ≤ totalTicks) (htarget : 0 ≤ target)
    (hclock : totalTicks + head.computeLatency totalTicks target true < 2 ^ 63) :
    totalTicks + head.computeLatency totalTicks target true = boundary (totalTicks + head.seek target) +
      500 * ((target - (asInt (boundary (totalTicks + head.seek target))).tdiv 500) % 32 + 1) := by
  have hnonneg := seek_nonneg head target
  have hseek := clock_after_seek htarget hclock
  have hboundary : totalTicks + head.seek target ≤ boundary (totalTicks + head.seek target) := by
    unfold boundary
    omega
  rw [computeLatency_write htarget, timeToSeek_eq ht hseek] at hclock ⊢
  dsimp only at hclock ⊢
  rw [asLong_eq (z := totalTicks + head.seek target) (by omega) hseek] at hclock ⊢
  have hafter : totalTicks + head.seek target + (boundary (totalTicks + head.seek target) -
      (totalTicks + head.seek target)) = boundary (totalTicks + head.seek target) := by omega
  rw [hafter] at hclock ⊢
  rw [asLong_eq (by omega) (by omega)]
  omega

theorem seek_eq (hlast : 0 ≤ head.lastSector) (htarget : 0 ≤ target) :
    head.seek target = trackSeek head.lastSector target := by
  unfold DiskHead.seek DiskHead.timeToSeek trackSeek
  dsimp only
  rw [Int.tdiv_eq_ediv_of_nonneg htarget, Int.tdiv_eq_ediv_of_nonneg hlast, Int.mul_comm]

/-- The head after a request is over its sector. -/
theorem seek_updateLast (head : DiskHead) (totalTicks : Int) {previous : Int} (hprevious : 0 ≤ previous)
    (htarget : 0 ≤ target) : (head.updateLast totalTicks previous).seek target = trackSeek previous target :=
  seek_eq hprevious htarget

/-- The latency of a write is the least after which the disk has passed the target, exactly when the conversions to
`int` have lost no part of a turn. -/
theorem write_latency_iff (head : DiskHead) (totalTicks target : Int) (ht : 0 ≤ totalTicks)
    (hlast : 0 ≤ head.lastSector ∧ head.lastSector < numSectors) (htarget : 0 ≤ target ∧ target < numSectors)
    (hclock : totalTicks + head.computeLatency totalTicks target true < 2 ^ 63) :
    (0 < head.computeLatency totalTicks target true ∧
      Passes totalTicks (trackSeek head.lastSector target) target (head.computeLatency totalTicks target true) ∧
      ∀ latency, Passes totalTicks (trackSeek head.lastSector target) target latency →
        head.computeLatency totalTicks target true ≤ latency) ↔
      TurnsKept (boundary (totalTicks + trackSeek head.lastSector target)) := by
  rw [← seek_eq hlast.1 htarget.1]
  have hnonneg := seek_nonneg head target
  have hend := computeLatency_eq ht htarget.1 hclock
  generalize head.computeLatency totalTicks target true = latency at hend ⊢
  obtain ⟨q, hq⟩ : ∃ q, boundary (totalTicks + head.seek target) = 500 * q :=
    ⟨(totalTicks + head.seek target + 499) / 500, Int.mul_comm _ _⟩
  have hbounds : totalTicks + head.seek target ≤ 500 * q ∧ 500 * q < totalTicks + head.seek target + 500 := by
    rw [← hq]
    unfold boundary
    omega
  rw [← turnsKept_iff (by rw [hq]; omega)]
  rw [hq] at hend ⊢
  generalize (asInt (500 * q)).tdiv 500 = sector at hend ⊢
  constructor
  · rintro ⟨-, hpasses, -⟩
    have hunder := hpasses.under
    unfold rotationTime sectorsPerTrack at hunder
    rw [hend] at hunder
    omega
  · intro hkept
    refine ⟨by omega, ⟨?_, ?_, ?_⟩, ?_⟩
    · unfold rotationTime
      omega
    · unfold rotationTime
      omega
    · unfold rotationTime sectorsPerTrack
      rw [hend]
      omega
    · rintro latency' ⟨hsought, hboundary, hunder⟩
      unfold rotationTime at hsought hboundary hunder
      unfold sectorsPerTrack at hunder
      omega

theorem write_latency_short : (⟨70, 0⟩ : DiskHead).computeLatency 1234 5 true = 1766 ∧
    ∀ latency, Passes 1234 1000 5 latency → 1766 ≤ latency := by
  have hiff := write_latency_iff ⟨70, 0⟩ 1234 5 (by decide) (by decide) (by decide) (by decide)
  obtain ⟨-, -, hleast⟩ := hiff.mpr (turnsKept_of_lt (by decide) (by decide))
  exact ⟨by decide, hleast⟩

/-- When the clock has left the range of an `int`, the disk waits for another sector. -/
theorem late_write_latency : (⟨0, 0⟩ : DiskHead).computeLatency (2 ^ 31) 0 true = 11852 ∧
    ¬Passes (2 ^ 31) (trackSeek 0 0) 0 11852 ∧ Passes (2 ^ 31) (trackSeek 0 0) 0 4852 := by
  refine ⟨by decide, fun h => ?_, ⟨by decide, by decide, by decide⟩⟩
  exact absurd h.under (by decide)

end Latency

end Nachos

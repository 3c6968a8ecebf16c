import Nachos.AbortedCalls
import Nachos.SharedDevice
import Nachos.SynchDisk

/-! The file system on a disk that several threads use. A thread that reads and writes sectors which no other thread
writes has them as if it were alone. -/

namespace Nachos

open Interleaving BlockProgram

/-- What the disk holds in a sector. -/
def Disk.sector (d : Disk) (n : SectorNumber) : Sector :=
  ⟨Image.load d (sectorSize * n) sectorSize, Image.length_load⟩

theorem sectorDevice_read (d : Disk) (n : SectorNumber) : sectorDevice.read d n.val = some (d.sector n) := by
  have hlt := n.isLt
  simp only [sectorDevice, Int.toNat_natCast]
  rw [if_pos ⟨by omega, by omega⟩]
  rfl

theorem sectorDevice_write {d : Disk} (n : SectorNumber) (sector : Sector) :
    sectorDevice.write d n.val sector = some (Image.store d (sectorSize * n) sector.1) := by
  have hlt := n.isLt
  simp only [sectorDevice, Int.toNat_natCast]
  rw [if_pos ⟨by omega, by omega⟩]

/-- An access that does not fail is to a sector of the disk. -/
theorem sector_of_read {d : Disk} {n : Int} {sector : Sector} (h : sectorDevice.read d n = some sector) :
    ∃ m : SectorNumber, n = m.val := by
  simp only [sectorDevice] at h
  split at h
  · rename_i hn
    obtain ⟨m, rfl⟩ := Int.eq_ofNat_of_zero_le hn.1
    exact ⟨⟨m, by omega⟩, rfl⟩
  · cases h

theorem sector_of_write {d d' : Disk} {n : Int} {sector : Sector} (h : sectorDevice.write d n sector = some d') :
    ∃ m : SectorNumber, n = m.val := by
  simp only [sectorDevice] at h
  split at h
  · rename_i hn
    obtain ⟨m, rfl⟩ := Int.eq_ofNat_of_zero_le hn.1
    exact ⟨⟨m, by omega⟩, rfl⟩
  · cases h

theorem sector_store (d : Disk) (m n : SectorNumber) (sector : Sector) :
    Disk.sector (Image.store d (sectorSize * m) sector.1) n = if m = n then sector else d.sector n := by
  have hload : Image.load (Image.ofList sector.1 0) 0 sectorSize = sector.1 := by
    apply Image.load_eq sector.2
    intro j hj
    rw [Image.ofList_apply, Nat.zero_add, List.getElem?_eq_getElem hj, Option.getD_some]
  have hwrite := load_writeSector d m n (Image.ofList sector.1 0)
  rw [writeSector_val, hload] at hwrite
  apply Subtype.ext
  rw [apply_ite Subtype.val]
  exact hwrite

theorem sectorDevice_lawful : sectorDevice.Lawful := by
  constructor
  · intro d n sector t h
    obtain ⟨m, rfl⟩ := sector_of_write h
    rw [sectorDevice_write] at h
    obtain rfl := Option.some.inj h
    rw [sectorDevice_read, sector_store, if_pos rfl]
  · intro d n sector t k h hne
    obtain ⟨m, rfl⟩ := sector_of_write h
    rw [sectorDevice_write] at h
    obtain rfl := Option.some.inj h
    by_cases hk : 0 ≤ k ∧ k < numSectors
    · obtain ⟨j, rfl⟩ := Int.eq_ofNat_of_zero_le hk.1
      have hj : j < numSectors := by omega
      have hread := sectorDevice_read (Image.store d (sectorSize * m) sector.1) ⟨j, hj⟩
      rw [sector_store, if_neg (fun heq => hne (by rw [heq]))] at hread
      exact hread.trans (sectorDevice_read d ⟨j, hj⟩).symm
    · simp only [sectorDevice]
      rw [if_neg hk, if_neg hk]
  · intro d n old sector h
    obtain ⟨m, rfl⟩ := sector_of_read h
    exact ⟨_, sectorDevice_write m sector⟩
  · intro d n sector t h
    obtain ⟨m, rfl⟩ := sector_of_write h
    exact ⟨_, sectorDevice_read d m⟩

/-- The calls whose requests have been made, in their order: each has been followed by its interrupt, or will be. -/
def served (s : Kernel DiskSem DiskCall DiskWorld Unit Empty) : List (ThreadId × DiskCall) :=
  (acquisitions .lock s.log).take (interrupts .semaphore s.log + s.shared.pending)

def callsOf (t : ThreadId) (calls : List (ThreadId × DiskCall)) : List DiskCall :=
  calls.filterMap fun a => if a.1 = t then some a.2 else none

def readingsOf (t : ThreadId) (readings : List (ThreadId × SectorNumber × List Byte)) : List (List Byte) :=
  readings.filterMap fun a => if a.1 = t then some a.2.2 else none

/-- The calls of a thread, with what they read, are those of a program, which then goes on as the second one. -/
inductive DiskProgram.Follows {α : Type} :
    DiskProgram α → List DiskCall → List (List Byte) → DiskProgram α → Prop where
  | nil (p : DiskProgram α) : Follows p [] [] p
  | readSector {n : SectorNumber} {k : Sector → DiskProgram α} {sector : Sector} {calls : List DiskCall}
      {readings : List (List Byte)} {q : DiskProgram α} (hrest : Follows (k sector) calls readings q) :
      Follows (BlockProgram.read n.val k) (.readSector n :: calls) (sector.1 :: readings) q
  | writeSector {n : SectorNumber} {data : Image Byte} {k : DiskProgram α} {calls : List DiskCall}
      {readings : List (List Byte)} {q : DiskProgram α} (hrest : Follows k calls readings q) :
      Follows (BlockProgram.write n.val ⟨Image.load data 0 sectorSize, Image.length_load⟩ k)
        (.writeSector n data :: calls) readings q

theorem serve_served {disk : Disk} {space : Bool} {s : Kernel DiskSem DiskCall DiskWorld Unit Empty}
    (h : (kernel (diskSystem disk) space).Reachable s) :
    (diskDevice disk).serve (served s) = (s.shared.disk, s.shared.readings) := by
  have habstract := Kernel.reachable_abstraction (.inr inferInstance) h
  have horder : acquisitions .lock s.abstraction.log = acquisitions .lock s.log :=
    Kernel.acquisitions_abstraction .lock s
  obtain ⟨calls, waits, signals, hserves, -, hcalls⟩ := (diskDevice disk).served habstract
  have hlength : interrupts .semaphore s.log + s.shared.pending = calls.length := by
    have hpending : s.shared.pending = waits := hserves.pending
    rw [← interrupts_abstraction, hpending]
    exact hserves.interrupts
  have hserved : served s = calls := by
    unfold served
    rw [hlength, ← horder]
    rcases hcalls with hcalls | ⟨last, hcalls⟩
    · rw [show acquisitions DiskSem.lock s.abstraction.log = calls from hcalls, List.take_length]
    · rw [show acquisitions DiskSem.lock s.abstraction.log = calls ++ [last] from hcalls, List.take_left']
      rfl
  rw [hserved]
  exact hserves.contents.symm

variable {α : Type}

theorem callsOf_self (t : ThreadId) (c : DiskCall) (rest : List (ThreadId × DiskCall)) :
    callsOf t ((t, c) :: rest) = c :: callsOf t rest := by
  unfold callsOf
  rw [List.filterMap_cons, if_pos rfl]

theorem callsOf_other {t u : ThreadId} (h : u ≠ t) (c : DiskCall) (rest : List (ThreadId × DiskCall)) :
    callsOf t ((u, c) :: rest) = callsOf t rest := by
  unfold callsOf
  rw [List.filterMap_cons, if_neg h]

theorem readingsOf_self (t : ThreadId) (n : SectorNumber) (bytes : List Byte)
    (rest : List (ThreadId × SectorNumber × List Byte)) :
    readingsOf t ((t, n, bytes) :: rest) = bytes :: readingsOf t rest := by
  unfold readingsOf
  rw [List.filterMap_cons, if_pos rfl]

theorem readingsOf_other {t u : ThreadId} (h : u ≠ t) (n : SectorNumber) (bytes : List Byte)
    (rest : List (ThreadId × SectorNumber × List Byte)) :
    readingsOf t ((u, n, bytes) :: rest) = readingsOf t rest := by
  unfold readingsOf
  rw [List.filterMap_cons, if_neg h]

/-- The calls that are served one at a time, as accesses to the sectors. -/
structure Accesses (calls : List (ThreadId × DiskCall)) (readings : List (ThreadId × SectorNumber × List Byte))
    (history : List (ThreadId × BlockAccess Sector)) : Prop where
  follows : ∀ t {α : Type} (p q : DiskProgram α), p.Follows (callsOf t calls) (readingsOf t readings) q →
    p.Performs (BlockDevice.accessesOf t history) q
  writes : ∀ u a, (u, a) ∈ history → ∀ n, a.Writes n →
    ∃ m data, n = (m : SectorNumber).val ∧ (u, .writeSector m data) ∈ calls

theorem serves_calls (disk : Disk) (calls : List (ThreadId × DiskCall)) (d : Disk)
    (before : List (ThreadId × SectorNumber × List Byte)) :
    ∃ history d' readings, calls.foldl (diskDevice disk).effect (d, before) = (d', before ++ readings) ∧
      sectorDevice.Serves d history d' ∧ Accesses calls readings history := by
  induction calls generalizing d before with
  | nil =>
      refine ⟨[], d, [], ?_, .nil d, ?_, nofun⟩
      · rw [List.foldl_nil, List.append_nil]
      · rintro t α p q ⟨⟩
        exact .nil p
  | cons a rest ih =>
      obtain ⟨u, c⟩ := a
      rw [List.foldl_cons]
      -- a call that is not made to the disk does nothing there
      have hnone : ∀ c : DiskCall, c.usesDisk = false →
          (diskDevice disk).effect (d, before) (u, c) = (d, before) →
          ∃ history d' readings,
            rest.foldl (diskDevice disk).effect ((diskDevice disk).effect (d, before) (u, c)) =
              (d', before ++ readings) ∧
            sectorDevice.Serves d history d' ∧ Accesses ((u, c) :: rest) readings history := by
        intro c huses heffect
        obtain ⟨history, d', readings, hfold, hserves, haccesses⟩ := ih d before
        refine ⟨history, d', readings, by rw [heffect, hfold], hserves, ?_, ?_⟩
        · intro t α p q hfollows
          by_cases hu : u = t
          · subst hu
            rw [callsOf_self] at hfollows
            generalize readingsOf u readings = read at hfollows
            cases hfollows with
            | readSector => cases huses
            | writeSector => cases huses
          · rw [callsOf_other hu] at hfollows
            exact haccesses.follows t p q hfollows
        · intro v a ha m hwrites
          obtain ⟨k, data, hm, hmem⟩ := haccesses.writes v a ha m hwrites
          exact ⟨k, data, hm, List.mem_cons_of_mem _ hmem⟩
      cases c with
      | readSector n =>
          have heffect : (diskDevice disk).effect (d, before) (u, .readSector n) =
              (d, before ++ [(u, n, (d.sector n).1)]) := by
            show (d, before ++ [(u, n, (d.readSector n.val).getD [])]) = _
            rw [readSector_val]
            rfl
          obtain ⟨history, d', readings, hfold, hserves, haccesses⟩ := ih d (before ++ [(u, n, (d.sector n).1)])
          refine ⟨(u, .read n.val (d.sector n)) :: history, d', (u, n, (d.sector n).1) :: readings, ?_,
            .read (sectorDevice_read d n) hserves, ?_, ?_⟩
          · rw [heffect, hfold, List.append_assoc, List.singleton_append]
          · intro t α p q hfollows
            by_cases hu : u = t
            · subst hu
              rw [callsOf_self, readingsOf_self] at hfollows
              rw [BlockDevice.accessesOf_self]
              generalize hbytes : (d.sector n).1 = bytes at hfollows
              cases hfollows with
              | @readSector _ k sector _ _ _ hfollows =>
                  obtain rfl : d.sector n = sector := Subtype.ext hbytes
                  exact .read (haccesses.follows u _ q hfollows)
            · rw [callsOf_other hu, readingsOf_other hu] at hfollows
              rw [BlockDevice.accessesOf_other hu]
              exact haccesses.follows t p q hfollows
          · intro v a ha m hwrites
            rcases List.mem_cons.mp ha with heq | ha
            · cases heq
              obtain ⟨block, hblock⟩ := hwrites
              cases hblock
            · obtain ⟨k, data, hm, hmem⟩ := haccesses.writes v a ha m hwrites
              exact ⟨k, data, hm, List.mem_cons_of_mem _ hmem⟩
      | writeSector n data =>
          have heffect : (diskDevice disk).effect (d, before) (u, .writeSector n data) =
              (Image.store d (sectorSize * n) (Image.load data 0 sectorSize), before) := by
            show ((d.writeSector n.val data).getD d, before) = _
            rw [writeSector_val]
          obtain ⟨history, d', readings, hfold, hserves, haccesses⟩ :=
            ih (Image.store d (sectorSize * n) (Image.load data 0 sectorSize)) before
          refine ⟨(u, .write n.val ⟨Image.load data 0 sectorSize, Image.length_load⟩) :: history, d', readings, ?_,
            .write (sectorDevice_write n ⟨Image.load data 0 sectorSize, Image.length_load⟩) hserves, ?_, ?_⟩
          · rw [heffect, hfold]
          · intro t α p q hfollows
            by_cases hu : u = t
            · subst hu
              rw [callsOf_self] at hfollows
              rw [BlockDevice.accessesOf_self]
              cases hfollows with
              | writeSector hfollows => exact .write (haccesses.follows u _ q hfollows)
            · rw [callsOf_other hu] at hfollows
              rw [BlockDevice.accessesOf_other hu]
              exact haccesses.follows t p q hfollows
          · intro v a ha m hwrites
            rcases List.mem_cons.mp ha with heq | ha
            · cases heq
              obtain ⟨block, hblock⟩ := hwrites
              cases hblock
              exact ⟨n, data, rfl, List.mem_cons_self⟩
            · obtain ⟨k, data', hm, hmem⟩ := haccesses.writes v a ha m hwrites
              exact ⟨k, data', hm, List.mem_cons_of_mem _ hmem⟩
      | compute => exact hnone .compute rfl rfl
      | fork => exact hnone .fork rfl rfl
      | exit => exact hnone .exit rfl rfl

section Alone

variable {disk : Disk} {space : Bool} {s₁ s₂ : Kernel DiskSem DiskCall DiskWorld Unit Empty}
  {calls : List (ThreadId × DiskCall)} {readings : List (ThreadId × SectorNumber × List Byte)} {t : ThreadId}
  {α : Type} {p q : DiskProgram α} {used : SectorNumber → Prop}

/-- No thread but `t` writes one of the sectors. -/
def SoleWriter (t : ThreadId) (calls : List (ThreadId × DiskCall)) (used : SectorNumber → Prop) : Prop :=
  ∀ u n data, (u, .writeSector n data) ∈ calls → u ≠ t → ¬used n

/-- The part of a program that a thread executes between two states, on sectors that no other thread writes, has the
result that it has alone, from the sectors of the first state, and leaves the sectors of the second one. -/
theorem program_as_alone (h₁ : (kernel (diskSystem disk) space).Reachable s₁)
    (h₂ : (kernel (diskSystem disk) space).Reachable s₂) (hcalls : served s₂ = served s₁ ++ calls)
    (hreadings : s₂.shared.readings = s₁.shared.readings ++ readings)
    (hfollows : p.Follows (callsOf t calls) (readingsOf t readings) q)
    (hwithin : p.Within fun n => ∃ m : SectorNumber, n = m.val ∧ used m) (halone : SoleWriter t calls used) :
    ∃ d, p.run sectorDevice s₁.shared.disk = q.run sectorDevice d ∧
      ∀ n, used n → d.sector n = s₂.shared.disk.sector n := by
  obtain ⟨history, d', readings', hfold, hserves, haccesses⟩ :=
    serves_calls disk calls s₁.shared.disk s₁.shared.readings
  have hserve := serve_served h₂
  rw [hcalls, LockedDevice.serve, List.foldl_append] at hserve
  change calls.foldl _ ((diskDevice disk).serve (served s₁)) = _ at hserve
  rw [serve_served h₁, hfold, hreadings] at hserve
  obtain ⟨rfl, hsame⟩ := Prod.mk.inj hserve
  obtain rfl := List.append_cancel_left hsame
  have hperforms := haccesses.follows t p q hfollows
  obtain ⟨d, hrun, hagree⟩ := BlockProgram.run_undisturbed sectorDevice_lawful hserves
    (fun n => ∃ m : SectorNumber, n = m.val ∧ used m) (hperforms.within hwithin)
    (by
      rintro v a ha hv _ ⟨m, rfl, hm⟩ hwrites
      obtain ⟨k, data, hk, hmem⟩ := haccesses.writes v a ha _ hwrites
      obtain rfl : m = k := Fin.ext (by exact_mod_cast hk)
      exact halone v m data hmem hv hm)
    hperforms fun _ _ => rfl
  refine ⟨d, hrun, ?_⟩
  intro n hn
  have hread := hagree n.val ⟨n, rfl, hn⟩
  rw [sectorDevice_read, sectorDevice_read] at hread
  exact Option.some.inj hread

end Alone

namespace DiskProgram

variable {f : OpenFile} {used : Int → Prop}

theorem within_pure {α : Type} (a : α) : (pure a : DiskProgram α).Within used := trivial

theorem within_readSectors (h : f.hdr.WellFormed) (hused : ∀ s ∈ f.hdr.sectors, used s) (left i : Nat)
    (hi : i + left ≤ f.hdr.sectors.length) : (readSectors f i left).Within used := by
  induction left generalizing i with
  | zero => trivial
  | succ left ih =>
      have hlt : i < f.hdr.sectors.length := by omega
      rw [readSectors, (FileHeader.byteToSector_eq h hlt).1]
      refine Within.bind (p := readSector ↑f.hdr.sectors[i])
        ⟨hused _ (List.getElem_mem hlt), fun _ => trivial⟩ fun data => ?_
      exact (ih (i + 1) (by omega)).bind fun rest => within_pure _

theorem within_writeSectors (h : f.hdr.WellFormed) (hused : ∀ s ∈ f.hdr.sectors, used s) (buf : Image Byte)
    (firstSector left i : Nat) (hi : i + left ≤ f.hdr.sectors.length) :
    (writeSectors f buf firstSector i left).Within used := by
  induction left generalizing i with
  | zero => trivial
  | succ left ih =>
      have hlt : i < f.hdr.sectors.length := by omega
      rw [writeSectors, (FileHeader.byteToSector_eq h hlt).1]
      exact ⟨hused _ (List.getElem_mem hlt), ih (i + 1) (by omega)⟩

/-- A read accesses the sectors of the file only. -/
theorem within_readAt (h : f.hdr.WellFormed) (hused : ∀ s ∈ f.hdr.sectors, used s) (numBytes : Int) (position : Nat) :
    (readAt f numBytes position).Within used := by
  unfold readAt
  rw [FileHeader.fileLength_eq h]
  by_cases hnone : numBytes ≤ 0 ∨ (position : Int) ≥ f.hdr.numBytes.toNat
  · rw [if_pos hnone]
    trivial
  rw [if_neg hnone]
  simp only [OpenFile.clipped hnone]
  generalize hn : min numBytes.toNat (f.hdr.numBytes.toNat - position) = n
  have hlast : (↑position + (n : Int) - 1).toNat = position + n - 1 := by omega
  rw [if_neg (by omega), Int.toNat_natCast, hlast]
  have hlt := FileHeader.div_lt_length_sectors h (show position + n - 1 < f.hdr.numBytes.toNat by omega)
  have hle : position / sectorSize ≤ (position + n - 1) / sectorSize := Nat.div_le_div_right (by omega)
  exact (within_readSectors h hused _ _ (by omega)).bind fun buf => within_pure _

theorem within_writeBuffer (h : f.hdr.WellFormed) (hused : ∀ s ∈ f.hdr.sectors, used s) (garbage data : Image Byte)
    (numBytes position : Int) : (writeBuffer f garbage data numBytes position).Within used := by
  unfold writeBuffer
  simp only
  have hlast : ∀ buf : Image Byte, (do
      let bytes ← readAt f sectorSize ↑((position + numBytes - 1).toNat / sectorSize * sectorSize)
      let buf ← pure (Image.store buf
        (((position + numBytes - 1).toNat / sectorSize - position.toNat / sectorSize) * sectorSize) bytes)
      pure (Image.store buf (position.toNat - position.toNat / sectorSize * sectorSize)
        (Image.load data 0 numBytes.toNat)) : DiskProgram (Image Byte)).Within used := fun buf =>
    (within_readAt h hused _ _).bind fun _ => (within_pure _).bind fun _ => within_pure _
  split
  · refine (within_readAt h hused _ _).bind fun bytes => (within_pure _).bind fun buf => ?_
    split
    · exact hlast buf
    · trivial
  · split
    · exact hlast garbage
    · trivial

/-- A write accesses the sectors of the file only. -/
theorem within_writeAt (h : f.hdr.WellFormed) (hused : ∀ s ∈ f.hdr.sectors, used s) (garbage data : Image Byte)
    (numBytes : Int) (position : Nat) : (writeAt f garbage data numBytes position).Within used := by
  unfold writeAt
  rw [FileHeader.fileLength_eq h]
  by_cases hnone : numBytes ≤ 0 ∨ (position : Int) ≥ f.hdr.numBytes.toNat
  · rw [if_pos hnone]
    trivial
  rw [if_neg hnone]
  simp only [OpenFile.clipped hnone]
  generalize hn : min numBytes.toNat (f.hdr.numBytes.toNat - position) = n
  have hlast : (↑position + (n : Int) - 1).toNat = position + n - 1 := by omega
  rw [if_neg (by omega), Int.toNat_natCast, hlast]
  have hlt := FileHeader.div_lt_length_sectors h (show position + n - 1 < f.hdr.numBytes.toNat by omega)
  have hle : position / sectorSize ≤ (position + n - 1) / sectorSize := Nat.div_le_div_right (by omega)
  exact (within_writeBuffer h hused _ _ _ _).bind fun buf =>
    (within_writeSectors h hused _ _ _ _ (by omega)).bind fun _ => within_pure _

end DiskProgram

section Files

variable {disk : Disk} {space : Bool} {s₁ s₂ : Kernel DiskSem DiskCall DiskWorld Unit Empty}
  {calls : List (ThreadId × DiskCall)} {readings : List (ThreadId × SectorNumber × List Byte)} {t : ThreadId}
  {f : OpenFile}

theorem sameSector_of_sector {d d' : Disk} {n : SectorNumber} (h : d'.sector n = d.sector n) :
    Disk.SameSector d d' n := by
  intro k hk
  have hbytes := congrArg (fun sector : Sector => sector.1[k]?) h
  simp only [Disk.sector, Image.getElem?_load, if_pos hk] at hbytes
  exact Option.some.inj hbytes

/-- Between two states a thread reads or writes an open file whose sectors no other thread writes. It reads the
contents that the file had in the first state, and its write is there in the second one, whatever the other threads do
to other sectors in the meantime. -/
theorem file_as_alone (h₁ : (kernel (diskSystem disk) space).Reachable s₁)
    (h₂ : (kernel (diskSystem disk) space).Reachable s₂) (hcalls : served s₂ = served s₁ ++ calls)
    (hreadings : s₂.shared.readings = s₁.shared.readings ++ readings) (hwell : f.hdr.WellFormed)
    (halone : SoleWriter t calls fun n => n.val ∈ f.hdr.sectors) (numBytes : Int) (position : Nat) :
    (∀ bytes, (DiskProgram.readAt f numBytes position).Follows (callsOf t calls) (readingsOf t readings) (pure bytes) →
        bytes = ((f.hdr.contents s₁.shared.disk).drop position).take numBytes.toNat ∧
          f.hdr.contents s₂.shared.disk = f.hdr.contents s₁.shared.disk) ∧
      ∀ garbage data result, (DiskProgram.writeAt f garbage data numBytes position).Follows (callsOf t calls)
          (readingsOf t readings) (pure result) →
        result = min numBytes.toNat (f.hdr.numBytes.toNat - position) ∧
          f.hdr.contents s₂.shared.disk =
            Volume.overwrite (f.hdr.contents s₁.shared.disk) position (Image.load data 0 result.toNat) := by
  have hused : ∀ s ∈ f.hdr.sectors, ∃ m : SectorNumber, (s : Int) = m.val ∧ m.val ∈ f.hdr.sectors := fun s hs =>
    ⟨⟨s, hwell.sector_lt s hs⟩, rfl, hs⟩
  have hcontents : ∀ d, (∀ n : SectorNumber, n.val ∈ f.hdr.sectors → d.sector n = s₂.shared.disk.sector n) →
      f.hdr.contents s₂.shared.disk = f.hdr.contents d := by
    intro d hagree
    apply FileHeader.contents_congr hwell
    intro s hs
    exact sameSector_of_sector (n := ⟨s, hwell.sector_lt s hs⟩) (hagree _ hs).symm
  refine ⟨?_, ?_⟩
  · intro bytes hfollows
    obtain ⟨d, hrun, hagree⟩ := program_as_alone h₁ h₂ hcalls hreadings hfollows
      (DiskProgram.within_readAt hwell hused numBytes position) halone
    rw [DiskProgram.run_readAt, OpenFile.readAt_contents hwell] at hrun
    obtain ⟨rfl, rfl⟩ := Prod.mk.inj (Option.some.inj hrun)
    exact ⟨rfl, hcontents _ hagree⟩
  · intro garbage data result hfollows
    obtain ⟨d, hrun, hagree⟩ := program_as_alone h₁ h₂ hcalls hreadings hfollows
      (DiskProgram.within_writeAt hwell hused garbage data numBytes position) halone
    obtain ⟨d', heq, hwritten⟩ := OpenFile.writeAt_spec hwell s₁.shared.disk garbage data numBytes position
    rw [DiskProgram.run_writeAt, heq] at hrun
    obtain ⟨rfl, rfl⟩ := Prod.mk.inj (Option.some.inj hrun)
    refine ⟨rfl, ?_⟩
    rw [hcontents _ hagree, Int.toNat_natCast]
    unfold Volume.overwrite
    rw [Image.length_load]
    rcases Nat.lt_or_ge f.hdr.numBytes.toNat position with hlt | hle
    · have hnone : min numBytes.toNat (f.hdr.numBytes.toNat - position) = 0 := by omega
      rw [hnone] at hwritten ⊢
      have hsame : f.hdr.contents d' = f.hdr.contents s₁.shared.disk := by
        apply Image.load_congr
        intro k hk
        rw [Nat.zero_add, hwritten.image k hk, if_neg (by omega)]
      rw [hsame, Nat.add_zero]
      show _ = _ ++ [] ++ _
      rw [List.append_nil, List.take_append_drop]
    · exact hwritten.contents_eq (by omega)

/-- A file of one sector. -/
def smallFile : OpenFile where
  hdr :=
    { numBytes := 128
      numSectors := 1
      dataSectors := 3 :: List.replicate 29 0
      length_dataSectors := by decide }
  seekPosition := 0

theorem wellFormed_smallFile : smallFile.hdr.WellFormed :=
  ⟨by decide, by decide, by decide, by decide⟩

/-- The call that writes a sector full of one byte, from the start of the buffer that `WriteAt` has allocated. -/
def fillSector (n : SectorNumber) (b : Byte) : DiskCall :=
  .writeSector n fun k => Image.store (fun _ => 0) 0 (Image.load (fun _ => b) 0 sectorSize) (0 + k)

def forkRun : List (Choice DiskCall Unit Unit) := [.call .fork, .alloc 2 (), .exec, .resume, .exec]

/-- The main thread writes a sector. The second thread makes a call in the meantime, which waits for the lock and is
then executed. -/
def sharedRun (c : DiskCall) : List (Choice DiskCall Unit Unit) :=
  [.call (fillSector ⟨5, by decide⟩ 1), .exec, .resume, .exec, .exec, .resume, .call c, .exec, .interrupt (), .dispatch,
    .exec, .resume, .exec, .preempt, .exec, .resume, .exec]

theorem soleWriter_fillSector (c : DiskCall) :
    SoleWriter 2 [(1, fillSector ⟨5, by decide⟩ 1), (2, c)] fun n => n.val ∈ smallFile.hdr.sectors := by
  intro u n data hmem hne
  rcases List.mem_cons.mp hmem with heq | hmem
  · obtain ⟨-, heq⟩ := Prod.mk.inj heq
    obtain ⟨rfl, -⟩ := DiskCall.writeSector.inj heq
    decide
  · exact absurd (congrArg Prod.fst (List.mem_singleton.mp hmem)) hne

/-- The states of the run before and after the two calls. -/
structure Shared (c : DiskCall) (s₁ s₂ : Kernel DiskSem DiskCall DiskWorld Unit Empty) : Prop where
  fork : Kernel.runChoices (diskSystem fun _ => 7) forkRun (Kernel.initial (diskSystem fun _ => 7) false) = some s₁
  shared : Kernel.runChoices (diskSystem fun _ => 7) (sharedRun c) s₁ = some s₂
  calls : served s₂ = served s₁ ++ [(1, fillSector ⟨5, by decide⟩ 1), (2, c)]
  readings : s₁.shared.readings = []

theorem shared_read : ∃ s₁ s₂, Shared (.readSector ⟨3, by decide⟩) s₁ s₂ := ⟨_, _, rfl, rfl, rfl, rfl⟩

theorem shared_write : ∃ s₁ s₂, Shared (fillSector ⟨3, by decide⟩ 9) s₁ s₂ ∧ s₂.shared.readings = [] :=
  ⟨_, _, ⟨rfl, rfl, rfl, rfl⟩, rfl⟩

theorem shared_readings {s₁ s₂ : Kernel DiskSem DiskCall DiskWorld Unit Empty}
    (h : Shared (.readSector ⟨3, by decide⟩) s₁ s₂) :
    s₂.shared.readings = [(2, ⟨3, by decide⟩, List.replicate sectorSize 7)] := by
  have hreadings : ((Kernel.runChoices (diskSystem fun _ => 7) forkRun
      (Kernel.initial (diskSystem fun _ => 7) false)).bind fun s =>
        (Kernel.runChoices (diskSystem fun _ => 7) (sharedRun (.readSector ⟨3, by decide⟩)) s).map fun s =>
          s.shared.readings) = some [(2, ⟨3, by decide⟩, List.replicate sectorSize 7)] := by decide +kernel
  rw [h.fork, Option.bind_some, h.shared] at hreadings
  exact Option.some.inj hreadings

/-- The second thread reads the file, or writes it, while the main thread writes another sector. -/
theorem file_as_alone_shared :
    (∃ s₁ s₂, Shared (.readSector ⟨3, by decide⟩) s₁ s₂ ∧
      s₂.shared.readings = [(2, ⟨3, by decide⟩, smallFile.hdr.contents s₁.shared.disk)] ∧
      smallFile.hdr.contents s₂.shared.disk = smallFile.hdr.contents s₁.shared.disk) ∧
    ∃ s₁ s₂, Shared (fillSector ⟨3, by decide⟩ 9) s₁ s₂ ∧ smallFile.hdr.contents s₂.shared.disk =
      Volume.overwrite (smallFile.hdr.contents s₁.shared.disk) 0 (Image.load (fun _ => 9) 0 sectorSize) := by
  have hlt : 3 < numSectors := by decide
  have hinit : (kernel (diskSystem fun _ => 7) false).Reachable (Kernel.initial _ false) := .init rfl
  constructor
  · obtain ⟨s₁, s₂, hshared⟩ := shared_read
    have hreadings := shared_readings hshared
    have h₁ := Kernel.reachable_runChoices hinit hshared.fork
    have hprogram : DiskProgram.readAt smallFile 128 ((0 : Nat) : Int) =
        BlockProgram.read ((⟨3, hlt⟩ : SectorNumber).val : Int) fun sector =>
          pure (((sector.1 ++ []).drop 0).take 128) := rfl
    have hreads : DiskProgram.Follows (DiskProgram.readAt smallFile 128 ((0 : Nat) : Int))
        (callsOf 2 [(1, fillSector ⟨5, by decide⟩ 1), (2, .readSector ⟨3, hlt⟩)])
        (readingsOf 2 [(2, ⟨3, hlt⟩, List.replicate sectorSize 7)]) (pure (List.replicate sectorSize 7)) := by
      rw [hprogram]
      exact @DiskProgram.Follows.readSector _ ⟨3, hlt⟩ _ ⟨List.replicate sectorSize 7, rfl⟩ _ _ _
        (.nil _)
    obtain ⟨hbytes, hsame⟩ := (file_as_alone h₁ (Kernel.reachable_runChoices h₁ hshared.shared) hshared.calls
      (hreadings.trans (by rw [hshared.readings]; rfl)) wellFormed_smallFile (soleWriter_fillSector _) 128 0).1 _ hreads
    rw [List.drop_zero, List.take_of_length_le (by rw [FileHeader.length_contents]; decide)] at hbytes
    refine ⟨s₁, s₂, hshared, ?_, hsame⟩
    rw [← hbytes]
    exact hreadings
  · obtain ⟨s₁, s₂, hshared, hreadings⟩ := shared_write
    have h₁ := Kernel.reachable_runChoices hinit hshared.fork
    have hwrites : DiskProgram.Follows (DiskProgram.writeAt smallFile (fun _ => 0) (fun _ => 9) 128 ((0 : Nat) : Int))
        (callsOf 2 [(1, fillSector ⟨5, by decide⟩ 1), (2, fillSector ⟨3, hlt⟩ 9)]) (readingsOf 2 []) (pure 128) :=
      DiskProgram.Follows.writeSector (n := ⟨3, hlt⟩) (.nil _)
    have hsame : s₂.shared.readings = s₁.shared.readings ++ [] := by
      rw [hshared.readings, hreadings]
      rfl
    exact ⟨s₁, s₂, hshared, ((file_as_alone h₁ (Kernel.reachable_runChoices h₁ hshared.shared) hshared.calls hsame
      wellFormed_smallFile (soleWriter_fillSector _) 128 0).2 _ _ _ hwrites).2⟩

end Files

end Nachos

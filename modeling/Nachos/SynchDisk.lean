import Nachos.FileHeader
import Nachos.LockedDevice
import Nachos.Refinement

/-! The disk of `machine/disk.cc` behind `filesys/synchdisk.cc`, used by any number of threads. The host file
is an array of sectors. -/

namespace Nachos

open Interleaving

abbrev SectorNumber := Fin numSectors

/-- The calls of the threads, on sectors of the disk. `data` is what the memory holds from the pointer on when
the request is made. -/
inductive DiskCall where
  | readSector (sectorNumber : SectorNumber)
  | writeSector (sectorNumber : SectorNumber) (data : Image Byte)
  | compute
  | fork
  | exit

/-- The flag of the `Disk`, the interrupts `DiskInt` that it has scheduled, the host file, and what the calls of
`ReadSector` have put into the buffers of their callers. -/
structure DiskWorld where
  active : Bool
  pending : Nat
  disk : Disk
  readings : List (ThreadId × SectorNumber × List Byte)

inductive DiskSem where
  | lock
  | semaphore
  deriving DecidableEq

namespace DiskWorld

/-- `Disk::ReadRequest` and `Disk::WriteRequest`, after their assertions, for the thread `t`. -/
def request : DiskCall → ThreadId → DiskWorld → DiskWorld
  | .readSector n, t, world =>
      { world with
        active := true
        pending := world.pending + 1
        readings := world.readings ++ [(t, n, (world.disk.readSector n.val).getD [])] }
  | .writeSector n data, _, world =>
      { world with
        active := true
        pending := world.pending + 1
        disk := (world.disk.writeSector n.val data).getD world.disk }
  | _, _, world => world

/-- `Disk::HandleInterrupt`, up to the call of the handler. -/
def handleInterrupt (world : DiskWorld) : DiskWorld :=
  { world with active := false, pending := world.pending - 1 }

end DiskWorld

/-- `SynchDisk::ReadSector` and `SynchDisk::WriteSector`. -/
def synchDiskCall (c : DiskCall) : Program DiskSem DiskWorld Unit Empty :=
  .semP .lock <| .act (fun t world _ => (if world.active then world else world.request c t, (), []))
    fun _ world _ => if !world.active then .semP .semaphore (.semV .lock .ret) else .abort

/-- Any number of threads that use one `SynchDisk`, on a host file with any contents. -/
def diskSystem (disk : Disk) : ThreadSystem DiskSem DiskCall Unit DiskWorld Unit Empty where
  menu
    | .readSector n => synchDiskCall (.readSector n)
    | .writeSector n data => synchDiskCall (.writeSector n data)
    | .compute => .tick .ret
    | .fork => .newThread fun
        | none => .ret
        | some t => .start t .ret .ret
    | .exit => .finish
  handler _ world := if 0 < world.pending then some (world.handleInterrupt, [.semaphore]) else none
  initialValue
    | .lock => 1
    | .semaphore => 0
  initialShared := ⟨false, 0, disk, []⟩
  initialPrivate := ()
  construct := id
  main := 1

/-- What a call writes into the sector. -/
def DiskCall.written (n : SectorNumber) : DiskCall → Option (List Byte)
  | .writeSector m data => if m = n then some (Image.load data 0 sectorSize) else none
  | _ => none

/-- The contents that the last of the calls to write the sector has given it. -/
def sectorAfter (disk : Disk) (calls : List (ThreadId × DiskCall)) (n : SectorNumber) : List Byte :=
  (calls.reverse.findSome? fun a => a.2.written n).getD (Image.load disk (sectorSize * n) sectorSize)

/-- What the call at position `i` returns when the calls are executed one at a time. -/
def readingAt (disk : Disk) (calls : List (ThreadId × DiskCall)) (i : Nat) :
    Option (ThreadId × SectorNumber × List Byte) :=
  match calls[i]? with
  | some (t, .readSector n) => some (t, n, sectorAfter disk (calls.take i) n)
  | _ => none

/-- What the calls return when they are executed one at a time. -/
def serialReadings (disk : Disk) (calls : List (ThreadId × DiskCall)) :
    List (ThreadId × SectorNumber × List Byte) :=
  (List.range calls.length).filterMap (readingAt disk calls)

/-- The host file and the readings, after one more call. -/
def DiskCall.effect : Disk × List (ThreadId × SectorNumber × List Byte) → ThreadId × DiskCall →
    Disk × List (ThreadId × SectorNumber × List Byte)
  | (disk, readings), (t, .readSector n) => (disk, readings ++ [(t, n, (disk.readSector n.val).getD [])])
  | (disk, readings), (_, .writeSector n data) => ((disk.writeSector n.val data).getD disk, readings)
  | before, _ => before

def DiskCall.usesDisk : DiskCall → Bool
  | .readSector _ => true
  | .writeSector _ _ => true
  | _ => false

/-- The disk as a device behind the lock. -/
def diskDevice (disk : Disk) :
    LockedDevice (diskSystem disk) (Disk × List (ThreadId × SectorNumber × List Byte)) where
  lock := .lock
  done := .semaphore
  pending := DiskWorld.pending
  busy := DiskWorld.active
  contents world := (world.disk, world.readings)
  uses := DiskCall.usesDisk
  ready _ world := !world.active
  request c t world _ := (if world.active then world else world.request c t, (), [])
  effect := DiskCall.effect
  lock_ne_done := by decide
  menu_uses := by
    intro c huses
    cases c with
    | readSector n => rfl
    | writeSector n data => rfl
    | _ => cases huses
  menu_free := by
    intro c huses
    cases c with
    | readSector n => cases huses
    | writeSector n data => cases huses
    | compute => trivial
    | fork =>
        refine ⟨rfl, ?_⟩
        intro u
        cases u with
        | none => trivial
        | some u => exact ⟨rfl, trivial, trivial⟩
    | exit => exact rfl
  request_ready := by
    intro c world huses hactive
    rw [hactive]
    rfl
  request_pending := by
    intro c t world priv huses hactive
    rw [hactive]
    cases c with
    | readSector n => rfl
    | writeSector n data => rfl
    | _ => cases huses
  request_contents := by
    intro c t world priv huses hactive
    cases c with
    | readSector n => simp only [hactive, Bool.false_eq_true, if_false, DiskWorld.request, DiskCall.effect]
    | writeSector n data => simp only [hactive, Bool.false_eq_true, if_false, DiskWorld.request, DiskCall.effect]
    | _ => cases huses
  handler := by
    intro i world world' released hhandler
    change (if _ then _ else _) = _ at hhandler
    split at hhandler
    · cases hhandler
      exact .inr ⟨‹_›, rfl, rfl, rfl, rfl⟩
    · cases hhandler
  initial_lock := rfl
  initial_done := rfl
  initial_pending := rfl
  initial_busy := rfl

variable {disk : Disk} {calls : List (ThreadId × DiskCall)} {n : SectorNumber}

theorem sectorAfter_append (a : ThreadId × DiskCall) :
    sectorAfter disk (calls ++ [a]) n = (a.2.written n).getD (sectorAfter disk calls n) := by
  unfold sectorAfter
  rw [List.reverse_append, List.reverse_singleton, List.singleton_append, List.findSome?_cons]
  cases a.2.written n with
  | none => rfl
  | some data => rfl

theorem serialReadings_append (a : ThreadId × DiskCall) :
    serialReadings disk (calls ++ [a]) =
      serialReadings disk calls ++ (readingAt disk (calls ++ [a]) calls.length).toList := by
  unfold serialReadings
  rw [List.length_append, List.length_singleton, List.range_succ, List.filterMap_append]
  congr 1
  · apply List.filterMap_congr
    intro i hi
    have hlt := List.mem_range.mp hi
    unfold readingAt
    rw [List.getElem?_append_left hlt, List.take_append_of_le_length (by omega)]

theorem readSector_val (d : Disk) (n : SectorNumber) :
    (d.readSector n.val).getD [] = Image.load d (sectorSize * n) sectorSize := by
  have hlt := n.isLt
  rw [Disk.readSector, if_pos ⟨by omega, by omega⟩, Option.getD_some, Int.toNat_natCast]

theorem writeSector_val (d : Disk) (n : SectorNumber) (data : Image Byte) :
    (d.writeSector n.val data).getD d = Image.store d (sectorSize * n) (Image.load data 0 sectorSize) := by
  have hlt := n.isLt
  rw [Disk.writeSector, if_pos ⟨by omega, by omega⟩, Option.getD_some, Int.toNat_natCast]

/-- Writing a sector changes that sector only. -/
theorem load_writeSector (d : Disk) (m n : SectorNumber) (data : Image Byte) :
    Image.load ((d.writeSector m.val data).getD d) (sectorSize * n) sectorSize =
      if m = n then Image.load data 0 sectorSize else Image.load d (sectorSize * n) sectorSize := by
  rw [writeSector_val]
  split_ifs with hmn
  · subst hmn
    apply Image.load_congr
    intro j hj
    rw [Image.store_load, if_pos ⟨by omega, by omega⟩, Nat.add_sub_cancel_left]
  · apply Image.load_congr
    intro j hj
    have hne : m.val ≠ n.val := fun heq => hmn (Fin.ext heq)
    rw [Image.store_load, if_neg]
    intro hin
    rcases Nat.lt_or_gt_of_ne hne with hlt | hlt
    · have hle := Nat.mul_le_mul_left sectorSize hlt
      rw [Nat.mul_succ] at hle
      omega
    · have hle := Nat.mul_le_mul_left sectorSize hlt
      rw [Nat.mul_succ] at hle
      omega

/-- The calls executed one at a time: the sectors and the readings. -/
theorem serve_disk (disk : Disk) (calls : List (ThreadId × DiskCall)) :
    (∀ n : SectorNumber, Image.load ((diskDevice disk).serve calls).1 (sectorSize * n) sectorSize =
      sectorAfter disk calls n) ∧
    ((diskDevice disk).serve calls).2 = serialReadings disk calls := by
  induction calls using List.reverseRecOn with
  | nil => exact ⟨fun _ => rfl, rfl⟩
  | append_singleton calls a ih =>
      obtain ⟨hsectors, hreadings⟩ := ih
      rw [LockedDevice.serve_append]
      have hlast : (calls ++ [a])[calls.length]? = some a := by
        rw [List.getElem?_append_right (Nat.le_refl _), Nat.sub_self]
        rfl
      rw [serialReadings_append, ← hreadings]
      generalize (diskDevice disk).serve calls = before at *
      obtain ⟨d, readings⟩ := before
      obtain ⟨t, c⟩ := a
      cases c with
      | readSector m =>
          constructor
          · intro n
            rw [sectorAfter_append]
            exact hsectors n
          · change readings ++ [(t, m, (d.readSector m.val).getD [])] = _
            rw [readingAt, hlast, List.take_left', readSector_val, hsectors m]
            · rfl
            · rfl
      | writeSector m data =>
          constructor
          · intro n
            simp only [diskDevice, DiskCall.effect]
            rw [sectorAfter_append, load_writeSector, DiskCall.written]
            split_ifs
            · rfl
            · exact hsectors n
          · rw [readingAt, hlast]
            exact (List.append_nil readings).symm
      | _ =>
          constructor
          · intro n
            rw [sectorAfter_append]
            exact hsectors n
          · rw [readingAt, hlast]
            exact (List.append_nil readings).symm

/-- A `SynchDisk` in a state of the kernel, on a host file that was `disk` at the beginning. -/
structure SerialDisk (disk : Disk) (s : Kernel DiskSem DiskCall DiskWorld Unit Empty) : Prop where
  /-- The assertions of `Disk::ReadRequest` and `Disk::WriteRequest` do not fail. -/
  ready : ∀ choice, s.step (diskSystem disk) choice ≠ some (.error .client)
  pending : s.shared.pending ≤ 1
  /-- The requests have had the effects of the calls one at a time, in the order in which they acquired the lock;
  the last of these may not have made its request yet. One `DiskInt` follows each request. -/
  serial : ∃ calls, (acquisitions .lock s.log = calls ∨ ∃ last, acquisitions .lock s.log = calls ++ [last]) ∧
    (∀ n : SectorNumber, Image.load s.shared.disk (sectorSize * n) sectorSize = sectorAfter disk calls n) ∧
    s.shared.readings = serialReadings disk calls ∧
    interrupts .semaphore s.log + s.shared.pending = calls.length
  /-- A call that is about to return has waited once, and the interrupt for its request has arrived. -/
  returning : ∀ t th c, s.thread t = some th → th.kont = .run .ret → th.call = some c → c.usesDisk = true →
    sinceCall t s.log = [.passed .lock t (some c), .passed .semaphore t (some c), .released .lock (some t)] ∧
    ∃ before after, acquisitions .lock s.log = before ++ (t, c) :: after ∧ (∀ a ∈ after, a.1 ≠ t) ∧
      before.length + 1 ≤ interrupts .semaphore s.log

theorem interrupts_abstraction (x : DiskSem) (s : Kernel DiskSem DiskCall DiskWorld Unit Empty) :
    interrupts x s.abstraction.log = interrupts x s.log :=
  LockedDevice.interrupts_filter rfl s.log

/-- The calls on a `SynchDisk` are executed one at a time, in the order in which they acquire the lock. -/
theorem disk_serial {disk : Disk} {space : Bool} {s : Kernel DiskSem DiskCall DiskWorld Unit Empty}
    (h : (kernel (diskSystem disk) space).Reachable s) : SerialDisk disk s := by
  have habstract := Kernel.reachable_abstraction (.inr inferInstance) h
  have horder : acquisitions .lock s.abstraction.log = acquisitions .lock s.log :=
    Kernel.acquisitions_abstraction .lock s
  refine ⟨?_, (diskDevice disk).pending_le_one habstract, ?_, ?_⟩
  · intro choice hstep
    obtain ⟨th, hth, habort⟩ := Kernel.client_fault h hstep
    exact (diskDevice disk).code_ne_abort habstract hth habort
  · obtain ⟨calls, waits, signals, hserves, -, hcalls⟩ := (diskDevice disk).served habstract
    obtain ⟨hsectors, hreadings⟩ := serve_disk disk calls
    have hdisk : s.shared.disk = ((diskDevice disk).serve calls).1 := congrArg Prod.fst hserves.contents
    have hread : s.shared.readings = ((diskDevice disk).serve calls).2 := congrArg Prod.snd hserves.contents
    refine ⟨calls, ?_, ?_, hread.trans hreadings, ?_⟩
    · rw [← horder]
      exact hcalls
    · intro n
      rw [hdisk]
      exact hsectors n
    · have hpending : s.shared.pending = waits := hserves.pending
      rw [← interrupts_abstraction, hpending]
      exact hserves.interrupts
  · intro t th c hth hkont hcall huses
    obtain ⟨new, hnew, hret, hnewcall, -⟩ := Kernel.abstraction_running hth hkont
    obtain ⟨shown, htrace⟩ := (diskDevice disk).trace_of_returning habstract hnew hret (hnewcall.trans hcall) huses
    obtain ⟨before, after, hacquired, hafter, harrived⟩ :=
      (diskDevice disk).returning habstract hnew hret (hnewcall.trans hcall) huses
    cases shown with
    | cons o rest => exact o.elim
    | nil =>
        rw [Kernel.sinceCall_abstraction] at htrace
        refine ⟨htrace, before, after, horder.symm.trans hacquired, hafter, ?_⟩
        rw [← interrupts_abstraction]
        exact harrived

/-- A run in which the main thread writes a sector and another thread, which waits for the lock in the meantime, reads
it. -/
def writeReadRun : List (Choice DiskCall Unit Unit) :=
  [.call .fork, .alloc 2 (), .exec, .resume, .exec, .call (.writeSector ⟨3, by decide⟩ fun _ => 7), .exec, .resume,
    .exec, .exec, .resume, .call (.readSector ⟨3, by decide⟩), .exec, .interrupt (), .dispatch, .exec, .resume, .exec,
    .preempt, .exec, .resume, .exec, .exec, .interrupt (), .preempt, .exec, .resume, .exec, .resume]

theorem disk_serial_writeRead :
    ∃ s, Kernel.runChoices (diskSystem fun _ => 0) writeReadRun (Kernel.initial (diskSystem fun _ => 0) false) = some s ∧
      s.shared.readings = [(2, ⟨3, by decide⟩, List.replicate sectorSize 7)] ∧ SerialDisk (fun _ => 0) s := by
  have hreadings : (Kernel.runChoices (diskSystem fun _ => 0) writeReadRun
      (Kernel.initial (diskSystem fun _ => 0) false)).map (fun s => s.shared.readings) =
        some [(2, ⟨3, by decide⟩, List.replicate sectorSize 7)] := by decide +kernel
  obtain ⟨s, hrun, hreadings⟩ := Option.map_eq_some_iff.mp hreadings
  have hinit : (kernel (diskSystem fun _ => 0) false).Reachable (Kernel.initial _ false) := .init rfl
  exact ⟨s, hrun, hreadings, disk_serial (Kernel.reachable_runChoices hinit hrun)⟩

end Nachos

import Nachos.FileSystemVolume

/-! Sequential writes and reads, and the programs `Copy` and `Print` of `filesys/fstest.cc` on top of them. A
file that is written in pieces and read in pieces gives back its bytes, wherever the pieces end. -/

namespace Nachos

namespace OpenFile

/-- Consecutive calls of `Write`, and what they return. -/
def writeAll (f : OpenFile) (d : Disk) (garbage : Nat → Image Byte) :
    List (List Byte) → Option (List Int × OpenFile × Disk)
  | [] => some ([], f, d)
  | piece :: rest => do
      let (result, f, d) ← f.write d (garbage 0) (Image.ofList piece 0) piece.length
      let (results, f, d) ← f.writeAll d (fun i => garbage (i + 1)) rest
      some (result :: results, f, d)

/-- Consecutive calls of `Read`, and what they return. -/
def readAll (f : OpenFile) (d : Disk) : List Int → Option (List (List Byte) × OpenFile)
  | [] => some ([], f)
  | numBytes :: rest => do
      let (bytes, f) ← f.read d numBytes
      let (results, f) ← f.readAll d rest
      some (bytes :: results, f)

/-- The pieces fit into the file: every call writes its piece, one after the other. -/
theorem writeAll_spec (pieces : List (List Byte)) : ∀ (f : OpenFile) (d : Disk) (garbage : Nat → Image Byte)
    (position : Nat), f.hdr.WellFormed → f.seekPosition = position →
    position + pieces.flatten.length ≤ f.hdr.numBytes.toNat →
    ∃ d', f.writeAll d garbage pieces = some (pieces.map fun piece => (piece.length : Int),
        { f with seekPosition := ↑(position + pieces.flatten.length) }, d') ∧
      Written f.hdr d (Image.ofList pieces.flatten 0) position pieces.flatten.length d' := by
  induction pieces with
  | nil =>
      intro f d garbage position h hposition _
      refine ⟨d, ?_, ?_, fun _ _ _ _ => rfl⟩
      · rw [writeAll, List.flatten_nil, List.length_nil, Nat.add_zero, ← hposition]
        rfl
      · intro k _
        rw [if_neg (by simp)]
  | cons piece rest ih =>
      intro f d garbage position h hposition hle
      rw [List.flatten_cons, List.length_append] at hle ⊢
      obtain ⟨d₁, hwrite, hwritten⟩ := write_spec h d (garbage 0) (Image.ofList piece 0) piece.length hposition
      have hmin : min (piece.length : Int).toNat (f.hdr.numBytes.toNat - position) = piece.length := by omega
      rw [hmin] at hwrite hwritten
      obtain ⟨d', hall, hrest⟩ := ih { f with seekPosition := ↑(position + piece.length) } d₁
        (fun i => garbage (i + 1)) (position + piece.length) h rfl
        (show position + piece.length + rest.flatten.length ≤ f.hdr.numBytes.toNat by omega)
      refine ⟨d', ?_, ?_, ?_⟩
      · rw [writeAll, hwrite]
        simp only [Option.bind_eq_bind, Option.bind_some, hall, Nat.add_assoc, List.map_cons]
      · intro k hk
        rw [hrest.image k hk, hwritten.image k hk]
        simp only [Image.ofList_apply]
        by_cases hfirst : position ≤ k ∧ k < position + piece.length
        · rw [if_neg (by omega), if_pos hfirst, if_pos (by omega), List.getElem?_append_left (by omega)]
        · by_cases hsecond : position + piece.length ≤ k ∧ k < position + piece.length + rest.flatten.length
          · rw [if_pos hsecond, if_pos (by omega), List.getElem?_append_right (by omega), Nat.sub_add_eq]
          · rw [if_neg hsecond, if_neg hfirst, if_neg (by omega)]
      · intro s hs
        exact (hwritten.frame s hs).trans (hrest.frame s hs)

/-- The calls return the bytes from the position on, as far as they reach. -/
theorem readAll_spec (sizes : List Int) (d : Disk) : ∀ (f : OpenFile) (position : Nat), f.hdr.WellFormed →
    f.seekPosition = position →
    ∃ chunks, f.readAll d sizes = some (chunks,
        { f with seekPosition := ↑(position + chunks.flatten.length) }) ∧
      chunks.flatten = ((f.hdr.contents d).drop position).take (sizes.map Int.toNat).sum := by
  induction sizes with
  | nil =>
      intro f position h hposition
      refine ⟨[], ?_, by simp⟩
      rw [readAll, List.flatten_nil, List.length_nil, Nat.add_zero, ← hposition]
  | cons numBytes rest ih =>
      intro f position h hposition
      have hread := read_contents h d numBytes hposition
      generalize hbytes : ((f.hdr.contents d).drop position).take numBytes.toNat = bytes at hread
      obtain ⟨chunks, hall, hflatten⟩ := ih { f with seekPosition := ↑(position + bytes.length) }
        (position + bytes.length) h rfl
      refine ⟨bytes :: chunks, ?_, ?_⟩
      · rw [readAll, hread]
        simp only [Option.bind_eq_bind, Option.bind_some, hall, List.flatten_cons, List.length_append, Nat.add_assoc]
      · rw [List.flatten_cons, hflatten, List.map_cons, List.sum_cons, List.take_add, hbytes, List.drop_drop]
        congr 1
        -- a short read has reached the end of the file
        have hlen := congrArg List.length hbytes
        rw [List.length_take, List.length_drop] at hlen
        rcases Nat.le_total numBytes.toNat ((f.hdr.contents d).length - position) with hle | hle
        · rw [show bytes.length = numBytes.toNat by omega]
        · have hend : (f.hdr.contents d).length ≤ position + bytes.length := by omega
          rw [List.drop_eq_nil_of_le hend, List.drop_eq_nil_of_le (by omega)]

end OpenFile

def transferSize : Nat := 10

/-- The characters of a message. -/
def text (s : String) : List Byte := s.toList.map fun c => BitVec.ofNat 8 c.toNat

/-- The loop of `Copy`, with what is left of the UNIX file. -/
def copyLoop (f : OpenFile) (d : Disk) (garbage : Nat → Image Byte) (rest : List Byte) : Option (OpenFile × Disk) :=
  let buffer := rest.take transferSize
  if 0 < buffer.length then do
    let (_, f, d) ← f.write d (garbage 0) (Image.ofList buffer 0) buffer.length
    copyLoop f d (fun i => garbage (i + 1)) (rest.drop transferSize)
  else some (f, d)
termination_by rest.length
decreasing_by
  rename_i hpos
  rw [List.length_take] at hpos
  rw [List.length_drop]
  simp only [transferSize] at *
  omega

/-- `Copy`: what it prints, and the disk. The UNIX file has the contents, or cannot be opened. -/
def copy (fs : FileSystem) (d : Disk) (fresh : Nat → Fresh) (unixFile : Option (List Byte))
    (source target : List Byte) : Option (List Byte × Disk) :=
  match unixFile with
  | none => some (text "Copy: couldn't open input file " ++ source ++ text "\n", d)
  | some contents => do
      let (created, d) ← fs.create d (fresh 0) (Image.ofList target 0) contents.length
      if !created then some (text "Copy: couldn't create output file " ++ target ++ text "\n", d)
      else
        -- the assertion that the file can be opened
        let openFile ← (← fs.openFile d (fresh 1) (Image.ofList target 0))
        let (_, d) ← copyLoop openFile d (fresh 2) contents
        some ([], d)

theorem OpenFile.read_progress {f f' : OpenFile} {d : Disk} {numBytes : Int} {bytes : List Byte}
    (h : f.read d numBytes = some (bytes, f')) (hpos : 0 < bytes.length) :
    (f'.hdr.fileLength - f'.seekPosition).toNat < (f.hdr.fileLength - f.seekPosition).toNat := by
  obtain ⟨result, hread, heq⟩ := Option.map_eq_some_iff.mp h
  obtain ⟨rfl, rfl⟩ := Prod.mk.inj heq
  have hlt : f.seekPosition < f.hdr.fileLength := by
    by_contra hge
    unfold OpenFile.readAt at hread
    rw [if_pos (.inr (by omega))] at hread
    rw [← Option.some.inj hread] at hpos
    exact absurd hpos (Nat.lt_irrefl 0)
  change (f.hdr.fileLength - (f.seekPosition + result.length)).toNat < _
  omega

/-- The loop of `Print`: what it prints. -/
def printLoop (f : OpenFile) (d : Disk) : Option (List Byte) :=
  match _h : f.read d transferSize with
  | none => none
  | some (bytes, f') =>
      if _hpos : 0 < bytes.length then (printLoop f' d).map (bytes ++ ·) else some []
termination_by (f.hdr.fileLength - f.seekPosition).toNat
decreasing_by exact OpenFile.read_progress _h _hpos

/-- `Print`: what it prints. -/
def print (fs : FileSystem) (d : Disk) (fresh : Fresh) (name : List Byte) : Option (List Byte) := do
  match ← fs.openFile d fresh (Image.ofList name 0) with
  | none => some (text "Print: unable to open file " ++ name ++ text "\n")
  | some openFile => printLoop openFile d

/-- The loop of `Copy` writes pieces of the UNIX file. -/
theorem copyLoop_eq (rest : List Byte) : ∃ pieces : List (List Byte), pieces.flatten = rest ∧
    ∀ (f : OpenFile) (d : Disk) (garbage : Nat → Image Byte),
      copyLoop f d garbage rest = (f.writeAll d garbage pieces).map Prod.snd := by
  induction hn : rest.length using Nat.strong_induction_on generalizing rest with
  | _ n ih =>
      by_cases hpos : 0 < (rest.take transferSize).length
      · have hlt : (rest.drop transferSize).length < n := by
          rw [List.length_take] at hpos
          rw [List.length_drop]
          simp only [transferSize] at *
          omega
        obtain ⟨pieces, hflatten, hloop⟩ := ih _ hlt (rest.drop transferSize) rfl
        refine ⟨rest.take transferSize :: pieces, ?_, ?_⟩
        · rw [List.flatten_cons, hflatten, List.take_append_drop]
        · intro f d garbage
          rw [copyLoop]
          simp only [if_pos hpos]
          rw [OpenFile.writeAll]
          cases f.write d (garbage 0) (Image.ofList (rest.take transferSize) 0) (rest.take transferSize).length with
          | none => rfl
          | some result =>
              simp only [Option.bind_eq_bind, Option.bind_some, hloop]
              cases result.2.1.writeAll result.2.2 (fun i => garbage (i + 1)) pieces <;> rfl
      · refine ⟨[], ?_, ?_⟩
        · rw [List.length_take] at hpos
          simp only [transferSize] at hpos
          exact (List.length_eq_zero_iff.mp (by omega)).symm
        · intro f d garbage
          rw [copyLoop]
          simp only [if_neg hpos]
          rfl

theorem printLoop_of_read {f f' : OpenFile} {d : Disk} {bytes : List Byte}
    (hread : f.read d transferSize = some (bytes, f')) :
    printLoop f d = if 0 < bytes.length then (printLoop f' d).map (bytes ++ ·) else some [] := by
  rw [printLoop]
  split
  · rename_i hnone
    rw [hread] at hnone
    cases hnone
  · rename_i bytes' f'' hsome
    rw [hread] at hsome
    obtain ⟨rfl, rfl⟩ := Prod.mk.inj (Option.some.inj hsome)
    rfl

/-- The loop of `Print` prints the rest of the file. -/
theorem printLoop_eq (d : Disk) (left : Nat) : ∀ (f : OpenFile) (position : Nat), f.hdr.WellFormed →
    f.seekPosition = position → (f.hdr.contents d).length - position = left →
    printLoop f d = some ((f.hdr.contents d).drop position) := by
  induction left using Nat.strong_induction_on with
  | _ left ih =>
      intro f position h hposition hleft
      have hlen : (((f.hdr.contents d).drop position).take transferSize).length = min transferSize left := by
        rw [List.length_take, List.length_drop, hleft]
      rw [printLoop_of_read (OpenFile.read_contents h d transferSize hposition)]
      simp only [Int.toNat_natCast]
      rw [hlen]
      split_ifs with hpos
      · have hrest := ih ((f.hdr.contents d).length - (position + min transferSize left)) (by omega)
          { f with seekPosition := ↑(position + min transferSize left) } _ h rfl rfl
        rw [hrest, Option.map_some]
        congr 1
        change _ ++ (f.hdr.contents d).drop _ = _
        rcases Nat.le_total transferSize left with hle | hle
        · rw [Nat.min_eq_left hle, ← List.drop_drop, List.take_append_drop]
        · have hend : (f.hdr.contents d).drop (position + min transferSize left) = [] :=
            List.drop_eq_nil_of_le (by omega)
          rw [hend, List.append_nil, List.take_of_length_le (by rw [List.length_drop, hleft]; exact hle)]
      · have hend : (f.hdr.contents d).length ≤ position := by
          simp only [transferSize] at hpos
          omega
        rw [List.drop_eq_nil_of_le hend]

/-- The calls that write to the file of the name or remove it. -/
def FileState.Disturbs (s : FileState) (name : List Byte) : FileCall → Prop
  | .remove _ name' => fileName name' = name
  | call => ∃ h, s.written call = some h ∧ h.name = name

/-- A run of allowed calls that neither write to the file of the name nor remove it. -/
def FileState.Undisturbed (name : List Byte) : FileState → FileState → Prop :=
  Relation.ReflTransGen fun s t => ∃ call, s.Allowed call ∧ ¬s.Disturbs name call ∧ s.exec call = some t

theorem FileState.Undisturbed.volume_eq {name bytes : List Byte} {s t : FileState} (hrun : Undisturbed name s t)
    (hs : s.Ok) (hfile : s.disk.volume name = some bytes) : t.Ok ∧ t.disk.volume name = some bytes := by
  induction hrun with
  | refl => exact ⟨hs, hfile⟩
  | tail _ hstep ih =>
      obtain ⟨hok, hvolume⟩ := ih
      obtain ⟨call, hallowed, hnot, hexec⟩ := hstep
      obtain ⟨t, hexec', ht⟩ := exec_ok hok hallowed
      rw [hexec] at hexec'
      obtain rfl := Option.some.inj hexec'
      refine ⟨ht, ?_⟩
      rcases exec_volume hok hallowed hexec with hsame | ⟨fresh, name', size, contents, -, hnew, hupdate⟩ |
        ⟨fresh, name', rfl, hupdate⟩ | ⟨h, contents, position, written, hwritten, -, -, hupdate⟩
      · rw [hsame, hvolume]
      · have hne : name ≠ fileName name' := by
          rintro rfl
          rw [hvolume] at hnew
          cases hnew
        rw [hupdate, Function.update_of_ne hne, hvolume]
      · have hne : name ≠ fileName name' := fun heq => hnot heq.symm
        rw [hupdate, Function.update_of_ne hne, hvolume]
      · have hne : name ≠ h.name := by
          intro heq
          cases call with
          | remove => cases hwritten
          | _ => exact hnot ⟨h, hwritten, heq.symm⟩
        rw [hupdate, Function.update_of_ne hne, hvolume]

/-- The file opens, and reading it in pieces gives the bytes and then nothing. -/
def ReadsBack (fs : FileSystem) (d : Disk) (name bytes : List Byte) : Prop :=
  ∀ fresh, ∃ f, fs.openFile d fresh (Image.ofList name 0) = some (some f) ∧
    ∀ sizes : List Int, (∀ numBytes ∈ sizes, 0 < numBytes) → ∃ chunks f', f.readAll d sizes = some (chunks, f') ∧
      chunks.flatten = bytes.take (sizes.map Int.toNat).sum ∧
      (bytes.length ≤ (sizes.map Int.toNat).sum → ∀ numBytes, 0 < numBytes → ∃ f'', f'.read d numBytes = some ([], f''))

theorem readsBack_of_volume {fs : FileSystem} {d : Disk} {name bytes : List Byte} (h : Consistent fs d)
    (hfile : d.volume (fileName (Image.ofList name 0)) = some bytes) : ReadsBack fs d name bytes := by
  intro fresh
  rcases h.openFile_spec fresh (Image.ofList name 0) with ⟨hnone, -⟩ | ⟨e, he, hkey, hopen⟩
  · rw [Disk.volume_eq_none hnone] at hfile
    cases hfile
  have hbytes : (d.headerOf e).contents d = bytes := by
    rw [← hkey, Disk.volume_key h he] at hfile
    exact Option.some.inj hfile
  refine ⟨_, hopen, ?_⟩
  intro sizes _
  have hwell := h.wellFormed e he
  obtain ⟨chunks, hread, hflatten⟩ := OpenFile.readAll_spec sizes d ⟨d.headerOf e, 0⟩ 0 hwell rfl
  refine ⟨chunks, _, hread, ?_, ?_⟩
  · rw [hflatten, List.drop_zero, hbytes]
  · intro hle numBytes _
    have hend : bytes.length ≤ 0 + chunks.flatten.length := by
      rw [hflatten, List.drop_zero, hbytes, List.length_take]
      omega
    have hnext := OpenFile.read_contents
      (f := ⟨d.headerOf e, ↑(0 + chunks.flatten.length)⟩) hwell d numBytes rfl
    rw [hbytes, List.drop_eq_nil_of_le hend, List.take_nil] at hnext
    exact ⟨_, hnext⟩

theorem print_of_volume {fs : FileSystem} {d : Disk} {name bytes : List Byte} (h : Consistent fs d)
    (hfile : d.volume (fileName (Image.ofList name 0)) = some bytes) (fresh : Fresh) :
    print fs d fresh name = some bytes := by
  rcases h.openFile_spec fresh (Image.ofList name 0) with ⟨hnone, -⟩ | ⟨e, he, hkey, hopen⟩
  · rw [Disk.volume_eq_none hnone] at hfile
    cases hfile
  have hbytes : (d.headerOf e).contents d = bytes := by
    rw [← hkey, Disk.volume_key h he] at hfile
    exact Option.some.inj hfile
  have hloop := printLoop_eq d _ ⟨d.headerOf e, 0⟩ 0 (h.wellFormed e he) rfl rfl
  unfold print
  rw [hopen]
  simp only [Option.bind_eq_bind, Option.bind_some]
  rw [hloop, List.drop_zero, hbytes]

namespace FileState

variable {s : FileState}

/-- A new file is written in pieces from its beginning. -/
theorem write_created (hs : s.Ok) {fresh : Fresh} {name bytes : List Byte} {d₁ : Disk}
    (hlen : bytes.length ≤ maxFileSize)
    (hcreate : s.fs.create s.disk fresh (Image.ofList name 0) bytes.length = some (true, d₁)) (fresh₁ : Fresh) :
    ∃ f, s.fs.openFile d₁ fresh₁ (Image.ofList name 0) = some (some f) ∧
      ∀ (pieces : List (List Byte)) (garbage : Nat → Image Byte), pieces.flatten = bytes →
        ∃ f' d₂, f.writeAll d₁ garbage pieces = some (pieces.map fun piece => (piece.length : Int), f', d₂) ∧
          Ok ⟨s.fs, d₂, s.opened ++ [⟨fileName (Image.ofList name 0), f', false⟩]⟩ ∧
          d₂.volume (fileName (Image.ofList name 0)) = some bytes := by
  rcases hs.consistent.create_spec fresh (Image.ofList name 0) hlen with ⟨-, heq⟩ | ⟨-, d', e, heq, hcreated⟩
  · rw [hcreate] at heq
    cases heq
  rw [hcreate] at heq
  obtain ⟨-, rfl⟩ := Prod.mk.inj (Option.some.inj heq)
  have he : e ∈ d₁.files := hcreated.files.mem_iff.mpr List.mem_cons_self
  rcases hcreated.consistent.openFile_spec fresh₁ (Image.ofList name 0) with ⟨hnone, -⟩ | ⟨e', he', hkey, hopen⟩
  · exact absurd hcreated.key (hnone e he)
  obtain rfl : e' = e := List.inj_on_of_nodup_map hcreated.consistent.names he' he (hkey.trans hcreated.key.symm)
  refine ⟨_, hopen, ?_⟩
  intro pieces garbage hflatten
  have hwell := hcreated.consistent.wellFormed e' he
  have hfull : 0 + pieces.flatten.length = (d₁.headerOf e').numBytes.toNat := by
    rw [hflatten, hcreated.size_eq, Nat.zero_add]
  obtain ⟨d₂, hwrite, hwritten⟩ := OpenFile.writeAll_spec pieces ⟨d₁.headerOf e', 0⟩ d₁ garbage 0 hwell rfl
    (Nat.le_of_eq hfull)
  have hdata := hcreated.consistent.dataWritten he hwritten.frame
  have hcontents : (d₁.headerOf e').contents d₂ = bytes := by
    unfold FileHeader.contents
    apply Image.load_eq (by rw [hcreated.size_eq])
    intro j hj
    rw [Nat.zero_add, hwritten.image j (by rw [hcreated.size_eq]; exact hj), if_pos (by rw [hflatten]; omega),
      hflatten, Nat.sub_zero, Image.ofList_apply, List.getElem?_eq_getElem hj, Option.getD_some]
  refine ⟨_, d₂, hwrite, ⟨hdata.consistent, ?_⟩, ?_⟩
  · intro h hh
    rcases List.mem_append.mp hh with hh | hh
    · exact ((hs.opened h hh).created hcreated).dataWritten hdata
    · rw [List.mem_singleton.mp hh]
      exact ⟨hwell, Int.natCast_nonneg _, fun _ => ⟨e', hdata.files_eq ▸ he, hkey, hdata.header e' he⟩⟩
  · rw [← hkey, hdata.volume_eq hcreated.consistent he, Function.update_self, hcontents]

/-- `Copy` writes the UNIX file to a new file. -/
theorem copy_created (hs : s.Ok) {fresh : Fresh} {name bytes : List Byte} {d₁ : Disk}
    (hlen : bytes.length ≤ maxFileSize)
    (hcreate : s.fs.create s.disk fresh (Image.ofList name 0) bytes.length = some (true, d₁))
    (memory : Nat → Fresh) (source : List Byte) :
    ∃ d₂, copy s.fs s.disk memory (some bytes) source name = some ([], d₂) ∧ Consistent s.fs d₂ ∧
      d₂.volume (fileName (Image.ofList name 0)) = some bytes := by
  -- whether there is room does not depend on the memory
  have hcreate' : ∃ d', s.fs.create s.disk (memory 0) (Image.ofList name 0) bytes.length = some (true, d') := by
    rcases hs.consistent.create_spec fresh (Image.ofList name 0) hlen with ⟨-, heq⟩ | ⟨hcreatable, -⟩
    · rw [hcreate] at heq
      cases heq
    rcases hs.consistent.create_spec (memory 0) (Image.ofList name 0) hlen with ⟨hnot, -⟩ | ⟨-, d', e, heq, -⟩
    · exact absurd hcreatable hnot
    · exact ⟨d', heq⟩
  obtain ⟨d', hcreate'⟩ := hcreate'
  obtain ⟨f, hopen, hwrites⟩ := write_created hs hlen hcreate' (memory 1)
  obtain ⟨pieces, hflatten, hloop⟩ := copyLoop_eq bytes
  obtain ⟨f', d₂, hwrite, hok, hfile⟩ := hwrites pieces (memory 2) hflatten
  refine ⟨d₂, ?_, hok.consistent, hfile⟩
  simp only [copy, Option.bind_eq_bind, hcreate', Option.bind_some, hopen, hloop, hwrite]
  rfl

/-- A file that is written in any pieces to a new file reads back in any pieces, also after other files have
been created, written and removed. `Copy` and then `Print` reproduce a UNIX file. -/
theorem write_read_round_trip (h : system.Reachable s) {fresh : Fresh} {name bytes : List Byte} {d₁ : Disk}
    (hlen : bytes.length ≤ maxFileSize)
    (hcreate : s.fs.create s.disk fresh (Image.ofList name 0) bytes.length = some (true, d₁)) :
    (∀ fresh₁, ∃ f, s.fs.openFile d₁ fresh₁ (Image.ofList name 0) = some (some f) ∧
      ∀ (pieces : List (List Byte)) (garbage : Nat → Image Byte), pieces.flatten = bytes →
        ∃ f' d₂, f.writeAll d₁ garbage pieces = some (pieces.map fun piece => (piece.length : Int), f', d₂) ∧
          ∀ t, Undisturbed (fileName (Image.ofList name 0))
              ⟨s.fs, d₂, s.opened ++ [⟨fileName (Image.ofList name 0), f', false⟩]⟩ t →
            ReadsBack t.fs t.disk name bytes) ∧
      ∀ memory source, ∃ d₂, copy s.fs s.disk memory (some bytes) source name = some ([], d₂) ∧
        ∀ fresh₂, print s.fs d₂ fresh₂ name = some bytes := by
  have hs := reachable_ok h
  constructor
  · intro fresh₁
    obtain ⟨f, hopen, hwrites⟩ := write_created hs hlen hcreate fresh₁
    refine ⟨f, hopen, ?_⟩
    intro pieces garbage hflatten
    obtain ⟨f', d₂, hwrite, hok, hfile⟩ := hwrites pieces garbage hflatten
    refine ⟨f', d₂, hwrite, ?_⟩
    intro t hrun
    obtain ⟨hok', hfile'⟩ := hrun.volume_eq hok hfile
    exact readsBack_of_volume hok'.consistent hfile'
  · intro memory source
    obtain ⟨d₂, hcopy, hconsistent, hfile⟩ := copy_created hs hlen hcreate memory source
    exact ⟨d₂, hcopy, fun fresh₂ => print_of_volume hconsistent hfile fresh₂⟩

/-- The round trip on an empty disk, for a file of two sectors and a half. -/
theorem write_read_round_trip_formatted : ∃ s d₁, system.Reachable s ∧
    s.fs.create s.disk (fun _ _ => 0) (Image.ofList [97] 0) (List.replicate 300 (7 : Byte)).length =
      some (true, d₁) ∧
    (∀ fresh₁, ∃ f, s.fs.openFile d₁ fresh₁ (Image.ofList [97] 0) = some (some f) ∧
      ∀ (pieces : List (List Byte)) (garbage : Nat → Image Byte), pieces.flatten = List.replicate 300 7 →
        ∃ f' d₂, f.writeAll d₁ garbage pieces = some (pieces.map fun piece => (piece.length : Int), f', d₂) ∧
          ∀ t, Undisturbed (fileName (Image.ofList [97] 0))
              ⟨s.fs, d₂, s.opened ++ [⟨fileName (Image.ofList [97] 0), f', false⟩]⟩ t →
            ReadsBack t.fs t.disk [97] (List.replicate 300 7)) ∧
      ∀ memory source, ∃ d₂, copy s.fs s.disk memory (some (List.replicate 300 7)) source [97] = some ([], d₂) ∧
        ∀ fresh₂, print s.fs d₂ fresh₂ [97] = some (List.replicate 300 7) := by
  obtain ⟨fs, d, hformat, hformatted⟩ := format_spec (fun _ => 0) fun _ _ => 0
  have hs : system.Reachable ⟨fs, d, []⟩ := .init ⟨_, _, hformat, rfl⟩
  have hlen : (List.replicate 300 (7 : Byte)).length ≤ maxFileSize := by
    rw [List.length_replicate]
    decide
  rcases hformatted.consistent.create_spec (fun _ _ => 0) (Image.ofList [97] 0) hlen with
    ⟨hnot, -⟩ | ⟨-, d₁, -, hcreate, -⟩
  · exact absurd (hformatted.creatable _ hlen) hnot
  · exact ⟨_, d₁, hs, hcreate, write_read_round_trip hs hlen hcreate⟩

end FileState

end Nachos

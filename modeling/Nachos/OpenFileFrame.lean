import Nachos.FileSystemVolume

/-! What a write through an open file changes: the contents of that file and nothing else, as long as the
file has not been removed. Nothing tells an open file that its file is gone. Its header then names sectors
that `Create` may have given to another file. -/

namespace Nachos

namespace FileState

variable {s t : FileState}

/-- The call changed no file but the one of the name, and of that one only the contents. -/
structure OnlyContents (s t : FileState) (name : List Byte) : Prop where
  directory : t.disk.directory = s.disk.directory
  freeMap : t.disk.freeMap = s.disk.freeMap
  systemHeaders : Disk.SameSector s.disk t.disk freeMapSector ∧ Disk.SameSector s.disk t.disk directorySector
  headers : ∀ e ∈ s.disk.files, Disk.SameSector s.disk t.disk e.sector.toNat
  contents : ∀ e ∈ s.disk.files, e.key ≠ name →
    (t.disk.headerOf e).contents t.disk = (s.disk.headerOf e).contents s.disk

theorem onlyContents_of_written (hs : s.Ok) {h : Handle} (hok : HandleOk s.disk h) (hlive : h.removed = false)
    {data : Image Byte} {position n : Nat}
    (hwritten : OpenFile.Written h.file.hdr s.disk data position n t.disk) : OnlyContents s t h.name := by
  obtain ⟨e, he, hkey, -, hdata⟩ := hok.writes hs.consistent hlive hwritten
  have hsystem : ∀ sector ∈ s.disk.systemSectors, Disk.SameSector s.disk t.disk sector := fun sector hin =>
    hdata.frame sector fun hdata => hs.consistent.not_mem_systemSectors he (List.mem_cons_of_mem _ hdata) hin
  refine ⟨hdata.directory, hdata.freeMap, ⟨hsystem _ ?_, hsystem _ ?_⟩, ?_, ?_⟩
  · exact List.mem_cons_self
  · exact List.mem_cons_of_mem _ List.mem_cons_self
  · intro f hf
    exact hdata.frame _ (hs.consistent.header_not_mem_sectors he hf)
  · intro f hf hne
    exact hdata.contents f hf fun heq => hne (heq ▸ hkey)

/-- A write through an open file whose file has not been removed changes the contents of that file only. -/
theorem write_changes_only_contents (hs : system.Reachable s) {call : FileCall} {h : Handle}
    (hallowed : s.Allowed call) (hwritten : s.written call = some h) (hexec : s.exec call = some t) :
    OnlyContents s t h.name := by
  have hok := reachable_ok hs
  have hlive := hallowed.current h hwritten
  have hdomain := hallowed.inDomain
  cases call with
  | write i garbage data numBytes =>
      obtain ⟨h', hget, hposition, -⟩ := hdomain
      have hget' : s.opened[i]? = some h := hwritten
      obtain rfl : h' = h := Option.some.inj (hget.symm.trans hget')
      have hhandle := hok.opened h' (List.mem_of_getElem? hget)
      obtain ⟨position, hp⟩ := Int.eq_ofNat_of_zero_le hposition
      obtain ⟨d', heq, hbytes⟩ := OpenFile.write_spec hhandle.wellFormed s.disk garbage data numBytes hp
      simp only [exec, hget, Option.bind_eq_bind, Option.bind_some, heq] at hexec
      cases hexec
      exact onlyContents_of_written hok hhandle hlive hbytes
  | writeAt i garbage data numBytes position =>
      obtain ⟨-, hposition, -⟩ := hdomain
      have hget : s.opened[i]? = some h := hwritten
      have hhandle := hok.opened h (List.mem_of_getElem? hget)
      obtain ⟨position, rfl⟩ := Int.eq_ofNat_of_zero_le hposition
      obtain ⟨d', heq, hbytes⟩ := OpenFile.writeAt_spec hhandle.wellFormed s.disk garbage data numBytes position
      simp only [exec, hget, Option.bind_eq_bind, Option.bind_some, heq] at hexec
      cases hexec
      exact onlyContents_of_written hok hhandle hlive hbytes
  | create => cases hwritten
  | remove => cases hwritten
  | openFile => cases hwritten
  | close => cases hwritten
  | seek => cases hwritten
  | read => cases hwritten
  | readAt => cases hwritten

theorem write_changes_only_contents_create : ∃ s t h call, system.Reachable s ∧ s.written call = some h ∧
    s.exec call = some t ∧ OnlyContents s t h.name := by
  obtain ⟨s, e, hs, hfiles, hkey, -, hopened⟩ := reachable_create (Image.ofList [97] 0)
    (show 200 ≤ maxFileSize by decide)
  have he : e ∈ s.disk.files := by
    rw [hfiles]
    exact List.mem_cons_self
  obtain ⟨hnone, -⟩ | ⟨f, -, -, hopen⟩ :=
    (reachable_ok hs).consistent.openFile_spec (fun _ _ => 0) (Image.ofList [97] 0)
  · exact absurd hkey (hnone e he)
  have hs' : system.Reachable
      { s with opened := s.opened ++ [⟨fileName (Image.ofList [97] 0), ⟨s.disk.headerOf f, 0⟩, false⟩] } :=
    hs.step ⟨.openFile (fun _ _ => 0) (Image.ofList [97] 0), ⟨trivial, fun _ hnone => by cases hnone⟩,
      by rw [exec, hopen]; rfl⟩
  rw [hopened, List.nil_append] at hs'
  have hallowed : Allowed
      { s with opened := [⟨fileName (Image.ofList [97] 0), ⟨s.disk.headerOf f, 0⟩, false⟩] }
      (.writeAt 0 (fun _ => 0) (fun _ => 7) 100 50) := by
    refine ⟨⟨by simp, by decide, by decide⟩, ?_⟩
    intro h hh
    cases hh
    rfl
  obtain ⟨t, hexec, -⟩ := exec_ok (reachable_ok hs') hallowed
  exact ⟨_, t, _, _, hs', rfl, hexec, write_changes_only_contents hs' hallowed rfl hexec⟩

/-- The runs in which files may also be written after they have been removed. -/
def anyCalls : TransitionSystem FileState where
  init := Init
  step s t := ∃ call, s.InDomain call ∧ s.exec call = some t

/-- Removing a new file gives its sectors back: the free map is as it was. -/
theorem freeMap_eq_of_removed {fs : FileSystem} {d d₁ d₂ : Disk} {fresh : Fresh} {name : Image Byte} {size : Nat}
    {e : DirectoryEntry} (h : Consistent fs d) (hcreated : Consistent.Created fs d fresh name size e d₁)
    (hremoved : Consistent.Removed fs d₁ e d₂) : d₂.freeMap = d.freeMap := by
  have hperm : d.allocated.Perm d₂.allocated :=
    (List.perm_append_left_iff _).mp (hcreated.allocated.symm.trans hremoved.allocated)
  refine BitMap.eq_of_bit (show d₂.freeMap.numBits = d.freeMap.numBits from rfl)
    (show numSectors % bitsInWord = 0 by decide) ?_
  intro s hs
  have hs : s < numSectors := hs
  rw [Bool.eq_iff_iff, hremoved.consistent.bit s hs, h.bit s hs, hperm.mem_iff]

/-- A file is created, opened and removed, and a second file is created: the open file shows the sectors of
the second file. -/
theorem reachable_stale : ∃ s h e, anyCalls.Reachable s ∧ s.opened[0]? = some h ∧ e ∈ s.disk.files ∧
    Consistent s.fs s.disk ∧ h.name = [97] ∧ e.key = [98] ∧ h.file = ⟨s.disk.headerOf e, 0⟩ ∧
      (s.disk.headerOf e).numBytes.toNat = 1 := by
  obtain ⟨fs, d, hformat, hformatted⟩ := format_spec (fun _ => 0) fun _ _ => 0
  have h₀ : anyCalls.Reachable ⟨fs, d, []⟩ := .init ⟨_, _, hformat, rfl⟩
  have hsize : 1 ≤ maxFileSize := by decide
  have hkey : fileName (Image.ofList [97] 0) = [97] := by decide
  have hkey' : fileName (Image.ofList [98] 0) = [98] := by decide
  -- create and open the first file
  obtain ⟨hnot, -⟩ | ⟨-, d₁, e, hcreate, hcreated⟩ :=
    hformatted.consistent.create_spec (fun _ _ => 0) (Image.ofList [97] 0) hsize
  · exact absurd (hformatted.creatable _ hsize) hnot
  have h₁ : anyCalls.Reachable ⟨fs, d₁, []⟩ :=
    h₀.step ⟨.create (fun _ _ => 0) (Image.ofList [97] 0) ((1 : Nat) : Int), ⟨by omega, by omega⟩, by rw [exec, hcreate]; rfl⟩
  have hfiles : d₁.files = [e] := by
    have hperm := hcreated.files
    rw [files_eq_nil hformatted.unused] at hperm
    exact List.perm_singleton.mp hperm
  obtain ⟨hnone, -⟩ | ⟨e', he', -, hopen⟩ :=
    hcreated.consistent.openFile_spec (fun _ _ => 0) (Image.ofList [97] 0)
  · exact absurd hcreated.key (hnone e (by rw [hfiles]; exact List.mem_cons_self))
  rw [hfiles, List.mem_singleton] at he'
  subst he'
  have h₂ : anyCalls.Reachable ⟨fs, d₁, [⟨fileName (Image.ofList [97] 0), ⟨d₁.headerOf e', 0⟩, false⟩]⟩ :=
    h₁.step ⟨.openFile (fun _ _ => 0) (Image.ofList [97] 0), trivial, by rw [exec, hopen]; rfl⟩
  -- remove it
  obtain ⟨hnone, -⟩ | ⟨e₁, he₁, -, d₂, hremove, hremoved⟩ :=
    hcreated.consistent.remove_spec (fun _ _ => 0) (Image.ofList [97] 0)
  · exact absurd hcreated.key (hnone e' (by rw [hfiles]; exact List.mem_cons_self))
  rw [hfiles, List.mem_singleton] at he₁
  subst he₁
  have h₃ : anyCalls.Reachable ⟨fs, d₂, [⟨fileName (Image.ofList [97] 0), ⟨d₁.headerOf e₁, 0⟩, true⟩]⟩ :=
    h₂.step ⟨.remove (fun _ _ => 0) (Image.ofList [97] 0), trivial, by rw [exec, hremove]; simp⟩
  -- create the second file
  have hmap := freeMap_eq_of_removed hformatted.consistent hcreated hremoved
  have hnil : d₂.files = [] := by
    have hperm := hremoved.files
    rw [hfiles, List.perm_comm, List.perm_singleton] at hperm
    exact (List.cons.inj hperm).2
  have hcreatable : Consistent.Creatable d₂ (Image.ofList [98] 0) 1 := by
    refine ⟨by simp [hnil], ?_, ?_⟩
    · have hlen : d₂.directory.length = numDirEntries := Layout.length_readArray _
      have hpos : 0 < d₂.directory.length := by
        rw [hlen]
        decide
      refine ⟨d₂.directory[0], List.getElem_mem hpos, ?_⟩
      have hfilter := List.filter_eq_nil_iff.mp hnil _ (List.getElem_mem hpos)
      simpa using hfilter
    · rw [hmap]
      exact (hformatted.creatable (Image.ofList [98] 0) hsize).sectors_free
  obtain ⟨hnot, -⟩ | ⟨-, d₃, f, hcreate', hcreated'⟩ :=
    hremoved.consistent.create_spec (fun _ _ => 0) (Image.ofList [98] 0) hsize
  · exact absurd hcreatable hnot
  have h₄ : anyCalls.Reachable ⟨fs, d₃, [⟨fileName (Image.ofList [97] 0), ⟨d₁.headerOf e₁, 0⟩, true⟩]⟩ :=
    h₃.step ⟨.create (fun _ _ => 0) (Image.ofList [98] 0) ((1 : Nat) : Int), ⟨by omega, by omega⟩, by rw [exec, hcreate']; rfl⟩
  have hsame : d₁.headerOf e₁ = d₃.headerOf f := by
    obtain ⟨m, hallocate⟩ := hcreated.header
    obtain ⟨m', hallocate'⟩ := hcreated'.header
    rw [hmap, hallocate] at hallocate'
    exact (Prod.mk.inj (Prod.mk.inj (Option.some.inj hallocate')).2).1
  exact ⟨_, _, f, h₄, rfl, hcreated'.files.mem_iff.mpr List.mem_cons_self, hcreated'.consistent, hkey,
    hcreated'.key.trans hkey', by rw [hsame], hcreated'.size_eq⟩

/-- A write through the open file then changes the second file. -/
theorem write_after_remove_changes_another_file :
    ¬∀ s, anyCalls.Reachable s → ∀ call h t, s.InDomain call → s.written call = some h → s.exec call = some t →
      OnlyContents s t h.name := by
  intro hclaim
  obtain ⟨s, h, e, hs, hget, he, hconsistent, hname, hkey, hfile, hlen⟩ := reachable_stale
  have hwell := hconsistent.wellFormed e he
  have hhdr : h.file.hdr = s.disk.headerOf e := by rw [hfile]
  have hposition : h.file.seekPosition = ((0 : Nat) : Int) := by
    rw [hfile]
    rfl
  obtain ⟨d', heq, hwritten⟩ := OpenFile.write_spec (f := h.file) (hhdr ▸ hwell) s.disk (fun _ => 0)
    (fun _ => (s.disk.headerOf e).image s.disk 0 + 1) 1 hposition
  rw [hhdr] at hwritten
  have hexec : s.exec (.write 0 (fun _ => 0) (fun _ => (s.disk.headerOf e).image s.disk 0 + 1) 1) =
      some { s with
        disk := d'
        opened := s.opened.set 0 { h with file :=
          { h.file with seekPosition := ↑(0 + min (1 : Int).toNat (h.file.hdr.numBytes.toNat - 0)) } } } := by
    simp only [exec, hget, Option.bind_eq_bind, Option.bind_some, heq]
  have hdomain : s.InDomain (.write 0 (fun _ => 0) (fun _ => (s.disk.headerOf e).image s.disk 0 + 1) 1) := by
    refine ⟨h, hget, ?_, ?_⟩ <;> rw [hposition] <;> decide
  have honly := hclaim s hs _ h _ hdomain hget hexec
  have hsame := honly.contents e he (by rw [hkey, hname]; decide)
  rw [Disk.headerOf_congr (honly.headers e he)] at hsame
  -- the first byte of the second file is the one that was written
  have hbyte := hwritten.image 0 (by omega)
  rw [if_pos (by rw [hlen]; decide)] at hbyte
  have hbyte' : (s.disk.headerOf e).image d' 0 = (s.disk.headerOf e).image s.disk 0 := by
    have hget0 := congrArg (fun l => l[0]?) hsame
    simp only [FileHeader.contents, Image.getElem?_load, hlen] at hget0
    exact Option.some.inj hget0
  rw [hbyte'] at hbyte
  have hne : ∀ b : Byte, b ≠ b + 1 := by decide
  exact hne _ hbyte

end FileState

end Nachos

import Mathlib
import Backpatch.Proofs.Files

/-!
# Files that are written in place

A file is made of zeros at its final size, and then written at any offsets, in any order. The end of
a range is computed in words of 64 bits, where it may be cut off, but no host grants a file for which
this would matter (`Host.Bounded`). So a write is refused just if its range leaves the file, and then
nothing changes. The file ends as the zeros with all other writes laid over them, one after another
(`FileWrite.lay`).
-/

namespace Backpatch

open Failable

theorem Image.toList_splice {data : Array UInt8} {offset : Nat} {bs : Bytes}
    (h : offset + bs.length ≤ data.size) :
    (splice data offset bs).toList =
      data.toList.take offset ++ bs ++ data.toList.drop (offset + bs.length) := by
  simpa only [bytes, data_replace] using bytes_replace { data } offset bs {} h

/-- The host grants no file with a byte beyond the greatest offset in a file. -/
def Host.Bounded (host : Host) : Prop :=
  ∀ size, host.sizeFault size = none → size ≤ maxFileSize

theorem Host.folder_bounded : folder.Bounded := by
  intro size h
  by_contra hsize
  simp [folder, Nat.not_le.1 hsize] at h

/-- In a file of this size it makes no difference that the end of a range may be cut off. -/
theorem ImageFile.lt_rangeEnd_iff {size : Nat} (h : size ≤ Host.maxFileSize) (offset length : Nat) :
    size < rangeEnd offset length ↔ size < offset + length := by
  rw [rangeEnd, lt_min_iff, and_iff_left]
  exact h.trans_lt (by decide)

/-! ## Writes -/

/-- A write to an open file: bytes, or a little-endian word of two or four bytes. -/
inductive FileWrite where
  | bytes (offset : UInt64) (data : Bytes)
  | half (offset : UInt64) (n : UInt16)
  | word (offset : UInt64) (n : UInt32)

namespace FileWrite

def offset : FileWrite → Nat
  | bytes offset _ | half offset _ | word offset _ => offset.toNat

def data : FileWrite → Bytes
  | bytes _ data => data
  | half _ n => [n.toUInt8, (n >>> 8).toUInt8]
  | word _ n => [n.toUInt8, (n >>> 8).toUInt8, (n >>> 16).toUInt8, (n >>> 24).toUInt8]

/-- Where the range of the write ends, be it an offset or not. -/
def stop (w : FileWrite) : Nat := w.offset + w.data.length

def run (f : ImageFile) : FileWrite → Failable Disk Unit
  | bytes offset data => f.writeAt offset.toNat data
  | half offset n => f.writeWordAt 2 offset.toNat n.toNat
  | word offset n => f.writeWordAt 4 offset.toNat n.toNat

/-- What a write to a file of `size` bytes answers. -/
def answer (size : Nat) (w : FileWrite) : Except Error Unit :=
  if w.stop ≤ size then .ok () else .error (.outOfBounds w.offset w.data.length size)

/-- The bytes of a file of `size` bytes after a write. -/
def lay (size : Nat) (bytes : Bytes) (w : FileWrite) : Bytes :=
  if w.stop ≤ size then bytes.take w.offset ++ w.data ++ bytes.drop w.stop else bytes

theorem length_lay {size : Nat} {bytes : Bytes} (h : bytes.length = size) (w : FileWrite) :
    (lay size bytes w).length = size := by
  unfold lay
  split_ifs with hw
  · simp only [stop, List.length_append, List.length_take, List.length_drop, h] at hw ⊢
    omega
  · exact h

theorem length_foldl_lay {size : Nat} {bytes : Bytes} (h : bytes.length = size)
    (writes : List FileWrite) : (writes.foldl (lay size) bytes).length = size := by
  induction writes generalizing bytes with
  | nil => exact h
  | cons w rest ih => exact ih (length_lay h w)

theorem littleEndian_half (n : UInt16) :
    Bytes.littleEndian 2 n.toNat = [n.toUInt8, (n >>> 8).toUInt8] := by
  simp only [Bytes.littleEndian, List.cons.injEq, ← UInt8.toNat_inj, and_true]
  constructor
  · simp
  · simp [Nat.shiftRight_eq_div_pow]

theorem littleEndian_word (n : UInt32) : Bytes.littleEndian 4 n.toNat =
    [n.toUInt8, (n >>> 8).toUInt8, (n >>> 16).toUInt8, (n >>> 24).toUInt8] := by
  simp only [Bytes.littleEndian, List.cons.injEq, ← UInt8.toNat_inj, and_true]
  refine ⟨?_, ?_, ?_, ?_⟩ <;> simp [Nat.shiftRight_eq_div_pow, Nat.div_div_eq_div_mul]

/-- Words are written as their bytes are. -/
theorem run_eq (f : ImageFile) (w : FileWrite) : w.run f = f.writeAt w.offset w.data := by
  cases w with
  | bytes => rfl
  | half offset n => rw [run, ImageFile.writeWordAt, littleEndian_half, FileWrite.offset, data]
  | word offset n => rw [run, ImageFile.writeWordAt, littleEndian_word, FileWrite.offset, data]

end FileWrite

/-! ## Files on a disk -/

namespace Disk

/-- Every name leads to a file. -/
def Linked (d : Disk) : Prop := ∀ p ∈ d.names, p.2 < d.contents.size

/-- The path leads to `file` in `d'`; all other paths lead where they did, and all other files are
as they were. -/
structure Opened (d : Disk) (path : String) (file : Nat) (d' : Disk) : Prop where
  linked : d'.Linked
  found : d'.find? path = some file
  paths : ∀ other, Path.parse other ≠ Path.parse path → d'.find? other = d.find? other
  files : ∀ k, k ≠ file → d'.contents[k]? = d.contents[k]?

variable {d d' : Disk} {path : String} {file : Nat} {data : Array UInt8}

theorem Linked.lt_of_find? (h : d.Linked) (hfile : d.find? path = some file) :
    file < d.contents.size := by
  obtain ⟨xs, ys, hnames, -⟩ := List.lookup_eq_some_iff.1 hfile
  exact h (Path.parse path, file) (by simp [hnames])

theorem Opened.lt (h : Opened d path file d') : file < d'.contents.size :=
  h.linked.lt_of_find? h.found

theorem Opened.setContents (h : Opened d path file d') (data : Array UInt8) :
    Opened d path file (d'.setContents file data) where
  linked p hp := by simpa [Disk.setContents] using h.linked p hp
  found := h.found
  paths := h.paths
  files k hk := by
    rw [Disk.setContents, Array.getElem?_setIfInBounds_ne hk.symm]
    exact h.files k hk

theorem Opened.traced (h : Opened d path file d') (trace : Array Event) :
    Opened d path file { d' with trace } :=
  ⟨h.linked, h.found, h.paths, h.files⟩

theorem Opened.getElem?_setContents (h : Opened d path file d') (data : Array UInt8) :
    (d'.setContents file data).contents[file]? = some data := by
  simp [Disk.setContents, h.lt]

/-- A path that leads to another file still leads to the same content. -/
theorem Opened.read?_other (h : Opened d path file d') {other : String}
    (hpath : Path.parse other ≠ Path.parse path) (hfile : d.find? other ≠ some file) :
    d'.read? other = d.read? other := by
  unfold read?
  rw [h.paths other hpath]
  cases hfound : d.find? other with
  | none => rfl
  | some k => simp [h.files k fun hk => hfile (hk ▸ hfound)]

theorem openEmpty_opened (path : String) (hd : d.Linked) :
    ∃ file d', openEmpty path d = .ok file d' ∧ Opened d path file d' := by
  cases hfile : d.find? path with
  | some file =>
    refine ⟨file, d.setContents file #[], ?_, ?_⟩
    · simp [openEmpty, modifyGet, MonadStateOf.modifyGet, EStateM.modifyGet, hfile]
    · exact Opened.setContents ⟨hd, hfile, fun _ _ => rfl, fun _ _ => rfl⟩ #[]
  | none =>
    refine ⟨_, _, openEmpty_run hfile, ?_, find?_added, fun other hother => ?_, fun k hk => ?_⟩
    · intro p hp
      obtain rfl | hp := List.mem_cons.1 hp
      · simp [added]
      · exact (hd p hp).trans (by simp [added])
    · rw [find?, added, List.lookup_cons, beq_false_of_ne hother]
      rfl
    · simp [added, Array.getElem?_push, hk]

theorem setContents_setContents (d : Disk) (file : Nat) (data data' : Array UInt8) :
    (d.setContents file data).setContents file data' = d.setContents file data' := by
  simp [setContents]

theorem setContents_self (h : d.contents[file]? = some data) : d.setContents file data = d := by
  obtain ⟨hlt, rfl⟩ := Array.getElem?_eq_some_iff.1 h
  simp [setContents, Array.setIfInBounds, hlt]

theorem modify_contents (h : d.contents[file]? = some data) (f : Array UInt8 → Array UInt8) :
    { d with contents := d.contents.modify file f } = d.setContents file (f data) := by
  obtain ⟨hlt, rfl⟩ := Array.getElem?_eq_some_iff.1 h
  have hcontents : d.contents.modify file f =
      d.contents.setIfInBounds file (f d.contents[file]) := by
    apply Array.ext_getElem?
    intro k
    rw [Array.getElem?_modify, Array.getElem?_setIfInBounds]
    split_ifs with hk
    · subst hk
      simp [hlt]
    · rfl
  rw [setContents, hcontents]

end Disk

/-! ## Writing -/

namespace ImageFile

/-- Carries out all writes, whether they fail or not, and returns what they answer. -/
def writeAll (f : ImageFile) (writes : List FileWrite) : Failable Disk (List (Except Error Unit)) :=
  writes.mapM fun w => attempt (w.run f)

variable {f : ImageFile} {d : Disk} {bytes : Bytes}

theorem run_of_lt_stop (hsize : f.size ≤ Host.maxFileSize) {w : FileWrite} (h : f.size < w.stop)
    (d : Disk) : w.run f d = .error (.outOfBounds w.offset w.data.length f.size) d := by
  rw [FileWrite.run_eq, writeAt, if_pos ((lt_rangeEnd_iff hsize ..).2 h)]
  rfl

theorem run_of_stop_le (hsize : f.size ≤ Host.maxFileSize) (hlength : bytes.length = f.size)
    (hfile : d.contents[f.file]? = some bytes.toArray) {w : FileWrite} (h : w.stop ≤ f.size) :
    w.run f d = .ok () (d.setContents f.file (w.lay f.size bytes).toArray) := by
  have hfits : w.offset + w.data.length ≤ bytes.toArray.size := by
    rw [List.size_toArray, hlength]
    exact h
  have hlay : Image.splice bytes.toArray w.offset w.data = (w.lay f.size bytes).toArray := by
    rw [← Array.toList_inj, Image.toList_splice hfits, FileWrite.lay, if_pos h]
    rfl
  rw [FileWrite.run_eq, writeAt,
    if_neg fun hlt => Nat.not_lt.2 h ((lt_rangeEnd_iff hsize ..).1 hlt), ← hlay]
  exact congrArg (EStateM.Result.ok ())
    (Disk.modify_contents hfile (Image.splice · w.offset w.data))

/-- One write: its answer, and the file with the write laid over it. -/
theorem attempt_run (hsize : f.size ≤ Host.maxFileSize) (hlength : bytes.length = f.size)
    (hfile : d.contents[f.file]? = some bytes.toArray) (w : FileWrite) :
    attempt (w.run f) d =
      .ok (w.answer f.size) (d.setContents f.file (w.lay f.size bytes).toArray) := by
  by_cases h : w.stop ≤ f.size
  · simp [attempt, run_of_stop_le hsize hlength hfile h, FileWrite.answer, h]
  · rw [FileWrite.lay, if_neg h, Disk.setContents_self hfile]
    simp [attempt, run_of_lt_stop hsize (Nat.not_le.1 h), FileWrite.answer, h]

/-- All writes, one after another. -/
theorem writeAll_run (hsize : f.size ≤ Host.maxFileSize) (hlength : bytes.length = f.size)
    (hfile : d.contents[f.file]? = some bytes.toArray) (writes : List FileWrite) :
    f.writeAll writes d = .ok (writes.map (FileWrite.answer f.size))
      (d.setContents f.file (writes.foldl (FileWrite.lay f.size) bytes).toArray) := by
  induction writes generalizing d bytes with
  | nil =>
    rw [List.foldl_nil, Disk.setContents_self hfile]
    rfl
  | cons w rest ih =>
    have hlt := (Array.getElem?_eq_some_iff.1 hfile).1
    have hrest := ih (d := d.setContents f.file (w.lay f.size bytes).toArray)
      (FileWrite.length_lay hlength w) (by simp [Disk.setContents, hlt])
    rw [Disk.setContents_setContents] at hrest
    rw [writeAll] at hrest ⊢
    rw [List.mapM_cons, bind_run, attempt_run hsize hlength hfile w]
    simp only [bind_run, hrest, pure_run, List.map_cons, List.foldl_cons]

/-- A file that was made is full of zeros, and its size was granted. -/
theorem create_eq_ok {host : Host} {path : String} {size : Nat} {d' : Disk} (hd : d.Linked)
    (h : create host path size d = .ok f d') :
    f.path = path ∧ f.size = size ∧ host.sizeFault size = none ∧
      Disk.Opened d path f.file d' ∧
      d'.contents[f.file]? = some (List.replicate size (0 : UInt8)).toArray := by
  obtain ⟨file, d₀, hopen, hopened⟩ := Disk.openEmpty_opened path hd
  cases hfault : host.openFault d path with
  | some reason => simp [create, hfault] at h
  | none =>
    cases hsize : host.sizeFault size with
    | some reason => simp [create, hfault, hopen, hsize] at h
    | none =>
      have hmade : create host path size d = .ok ⟨path, file, size⟩
          { d₀.setContents file (Array.replicate size 0) with
            trace := d₀.trace.push (.createdFile path size) } := by
        simp only [create, bind_run, get_run, modify_run, hfault, hopen, hsize]
        by_cases hzero : size = 0
        · subst hzero
          rfl
        · cases hmap : host.mapFault size with
          | some reason => simp [create, hfault, hopen, hsize, hzero, hmap] at h
          | none =>
            simp only [ne_eq, hzero, not_false_eq_true, if_true]
            rfl
      obtain ⟨rfl, rfl⟩ := EStateM.Result.ok.inj (h.symm.trans hmade)
      refine ⟨rfl, rfl, rfl, (hopened.setContents _).traced _, ?_⟩
      rw [List.toArray_replicate]
      exact hopened.getElem?_setContents _

end ImageFile

open ImageFile in
/-- A file that is made and then written in place holds exactly `size` bytes in the end: the zeros
with all writes laid over them, in order, whose range ends within the file. All others are refused
as out of bounds and change nothing, however far beyond the greatest offset their range would end.
No other file is touched. -/
theorem mapped_file_holds_writes {host : Host} {d d₁ : Disk} {path : String} {size : Nat}
    {f : ImageFile} (hhost : host.Bounded) (hd : d.Linked)
    (hcreate : create host path size d = .ok f d₁) (writes : List FileWrite) :
    ∃ d₂ d₃, f.writeAll writes d₁ = .ok (writes.map (·.answer size)) d₂ ∧
      f.finalize d₂ = .ok () d₃ ∧
      d₃.read? path = some (writes.foldl (FileWrite.lay size) (List.replicate size 0)) ∧
      (writes.foldl (FileWrite.lay size) (List.replicate size 0)).length = size ∧
      (∀ w ∈ writes, size < w.stop →
        ∀ d', w.run f d' = .error (.outOfBounds w.offset w.data.length size) d') ∧
      (∀ other, Path.parse other ≠ Path.parse path → d.find? other ≠ some f.file →
        d₃.read? other = d.read? other) ∧
      d₃.Linked := by
  obtain ⟨-, rfl, hgranted, hopened, hzeros⟩ := create_eq_ok hd hcreate
  have hsize := hhost f.size hgranted
  have hlength : (List.replicate f.size (0 : UInt8)).length = f.size := List.length_replicate
  have hwritten := hopened.setContents
    (writes.foldl (FileWrite.lay f.size) (List.replicate f.size 0)).toArray
  have hfinal (trace : Array Event) := hwritten.traced trace
  refine ⟨_, _, writeAll_run hsize hlength hzeros writes, rfl, ?_,
    FileWrite.length_foldl_lay hlength writes, fun w _ hw => run_of_lt_stop hsize hw,
    fun other hpath hfile => (hfinal _).read?_other hpath hfile, (hfinal _).linked⟩
  simp only [Disk.read?, (hfinal _).found]
  simp [hopened.getElem?_setContents]

/-! The file is there already and is emptied first. The last two writes leave it: one by a byte, and
one whose end would be offset 1 again if it were not cut off. -/

def crowdedDisk : Disk where
  names := [(Path.parse "k.bin", 0), (Path.parse "old.bin", 1)]
  contents := #[#[7, 7], #[8]]

def overlappingWrites : List FileWrite :=
  [.word 2 0x04030201, .half 1 0xBBAA, .bytes 6 [], .word 3 5, .bytes 0xFFFFFFFFFFFFFFFF [9, 9]]

open ImageFile in
theorem mapped_file_holds_writes_overlapping :
    ∃ f d₁ d₂ d₃, create Host.folder "k.bin" 6 crowdedDisk = .ok f d₁ ∧
      f.writeAll overlappingWrites d₁ = .ok [.ok (), .ok (), .ok (),
        .error (.outOfBounds 3 4 6), .error (.outOfBounds 0xFFFFFFFFFFFFFFFF 2 6)] d₂ ∧
      f.finalize d₂ = .ok () d₃ ∧ d₃.read? "k.bin" = some [0, 0xAA, 0xBB, 2, 3, 4] ∧
      d₃.read? "old.bin" = some [8] := by
  have hlinked : crowdedDisk.Linked := by simp [Disk.Linked, crowdedDisk]
  have hmade : ((create Host.folder "k.bin" 6).run' crowdedDisk).map id =
      some ⟨"k.bin", 0, 6⟩ := by decide +kernel
  obtain ⟨_, d₁, hcreate, rfl⟩ := exists_ok_of_run' hmade
  obtain ⟨d₂, d₃, hwrites, hfinalize, hread, -, -, hothers, -⟩ :=
    mapped_file_holds_writes Host.folder_bounded hlinked hcreate overlappingWrites
  refine ⟨_, d₁, d₂, d₃, hcreate, hwrites, hfinalize, hread, ?_⟩
  rw [hothers "old.bin" (by decide +kernel) (by decide +kernel)]
  decide +kernel

end Backpatch

import Mathlib
import Backpatch.Proofs.Failable
import Backpatch.Proofs.Image
import Backpatch.Session.Snapshots

/-!
# Saved files

Saving an image to a path that leads nowhere opens a file, sizes it, maps it and writes the bytes.
The host may refuse each of the first three. A file is given up only through the `ImageFile` that
stands for it, and that exists from the mapping on: so a save that fails leaves no file just if the
file could not be opened (`Saved`). What is left behind otherwise holds no byte of the image.
-/

namespace Backpatch

open Failable

namespace Disk

/-- The disk with a new file. -/
def added (d : Disk) (path : String) (data : Array UInt8) : Disk :=
  { d with
    names := (Path.parse path, d.contents.size) :: d.names
    contents := d.contents.push data }

section Added

variable {d : Disk} {path : String} {data : Array UInt8}

theorem openEmpty_run (h : d.find? path = none) :
    openEmpty path d = .ok d.contents.size (d.added path #[]) := by
  simp [openEmpty, modifyGet, MonadStateOf.modifyGet, EStateM.modifyGet, h, added]

@[simp] theorem setContents_added (data' : Array UInt8) :
    (d.added path data).setContents d.contents.size data' = d.added path data' := by
  simp [added, setContents, Array.setIfInBounds, Array.set_push]

@[simp] theorem find?_added : (d.added path data).find? path = some d.contents.size := by
  simp [find?, added]

@[simp] theorem read?_added : (d.added path data).read? path = some data.toList := by
  simp [read?, added, find?]

/-- A new file leaves the others as they are. -/
theorem read?_added_of_read? {other : String} {bs : Bytes} (hnew : d.find? path = none)
    (h : d.read? other = some bs) : (d.added path data).read? other = some bs := by
  obtain ⟨file, hfile, h⟩ := Option.bind_eq_some_iff.1 h
  obtain ⟨content, hcontent, h⟩ := Option.bind_eq_some_iff.1 h
  have hne : Path.parse other ≠ Path.parse path := by
    intro hpath
    rw [find?, hpath] at hfile
    exact absurd (hnew.symm.trans hfile) (by simp)
  have hfind : (d.added path data).find? other = some file := by
    rw [find?, added, List.lookup_cons, beq_false_of_ne hne]
    exact hfile
  have hlt := (Array.getElem?_eq_some_iff.1 hcontent).1
  have hkept : (d.contents.push data)[file]? = some content := by
    rw [Array.getElem?_push, if_neg (Nat.ne_of_lt hlt), hcontent]
  simp only [read?, hfind, Option.bind_eq_bind, Option.bind_some]
  change (d.contents.push data)[file]?.bind _ = _
  rw [hkept]
  exact h

end Added

end Disk

/-- The host refuses nothing on the way to a file of `size` bytes. -/
structure Host.Admits (host : Host) (d : Disk) (path : String) (size : Nat) : Prop where
  opens : host.openFault d path = none
  sizes : host.sizeFault size = none
  maps : size ≠ 0 → host.mapFault size = none

namespace ImageFile

variable {d : Disk} {path : String}

/-- What the host refuses decides how far the making of a file gets. -/
theorem create_cases (host : Host) (size : Nat) (hnew : d.find? path = none) :
    (host.openFault d path ≠ none ∧
      ∃ message, create host path size d = .error (.mappingFailed message) d) ∨
    (host.openFault d path = none ∧ ¬ host.Admits d path size ∧
      ∃ message n, create host path size d =
        .error (.mappingFailed message) (d.added path (Array.replicate n 0))) ∨
    (host.Admits d path size ∧ create host path size d =
      .ok ⟨path, d.contents.size, size⟩ { d.added path (Array.replicate size 0) with
        trace := d.trace.push (.createdFile path size) }) := by
  cases hopen : host.openFault d path with
  | some reason =>
    refine .inl ⟨by simp, "Failed to create target file: " ++ reason, ?_⟩
    simp only [create, bind_run, get_run, hopen, throw_run]
  | none =>
    cases hsize : host.sizeFault size with
    | some reason =>
      refine .inr (.inl ⟨rfl, fun h => ?_, "Failed to set file size: " ++ reason, 0, ?_⟩)
      · simp [h.sizes] at hsize
      · simp only [create, bind_run, get_run, hopen, Disk.openEmpty_run hnew, hsize, throw_run]
        rfl
    | none =>
      by_cases hmapped : size ≠ 0 → host.mapFault size = none
      · refine .inr (.inr ⟨⟨hopen, hsize, hmapped⟩, ?_⟩)
        by_cases hzero : size = 0
        · subst hzero
          simp [create, hopen, Disk.openEmpty_run hnew, hsize, Disk.emit]
          rfl
        · simp [create, hopen, Disk.openEmpty_run hnew, hsize, hzero, hmapped hzero, Disk.emit]
          rfl
      · obtain ⟨hzero, hmap⟩ := Classical.not_imp.1 hmapped
        obtain ⟨reason, hmap⟩ := Option.ne_none_iff_exists'.1 hmap
        refine .inr (.inl ⟨rfl, fun h => hmapped h.maps,
          "Failed to create memory mapping: " ++ reason, size, ?_⟩)
        simp [create, hopen, Disk.openEmpty_run hnew, hsize, hzero, hmap]

end ImageFile

theorem Image.splice_whole {data : Array UInt8} {bs : Bytes} (h : data.size = bs.length) :
    splice data 0 bs = bs.toArray := by
  apply Array.ext_getElem?
  intro k
  rw [getElem?_splice data 0 bs k (by omega), Nat.zero_add]
  split_ifs with hk
  · simp
  · simp only [Array.getElem?_eq_none (show data.size ≤ k by omega),
      List.getElem?_toArray, List.getElem?_eq_none (show bs.length ≤ k by omega)]

/-- What becomes of the disk `d` when `bytes` are saved to a path that leads nowhere, and the
failure, if there is one. -/
structure Saved (host : Host) (d : Disk) (path : String) (bytes : Bytes) (failure : Option Error)
    (d' : Disk) : Prop where
  /-- Saving succeeds unless the host refuses something. -/
  done : failure = none ↔ host.Admits d path bytes.length
  content : failure = none → d'.read? path = some bytes
  message : ∀ e, failure = some e → ∃ text, e = .mappingFailed text
  /-- A failure leaves no file just if the file could not be opened. -/
  absent : failure ≠ none → (d'.find? path = none ↔ host.openFault d path ≠ none)
  /-- A file that a failure leaves behind holds zeros only. -/
  blank : failure ≠ none → ∀ bs, d'.read? path = some bs → ∀ b ∈ bs, b = 0
  others : ∀ other bs, d.read? other = some bs → d'.read? other = some bs

/-- A file that was made is filled and kept. -/
theorem Disk.save_of_created {host : Host} {d : Disk} {path : String} {bytes : Bytes}
    {trace : Array Event} (h : ImageFile.create host path bytes.length d =
      .ok ⟨path, d.contents.size, bytes.length⟩
        { d.added path (Array.replicate bytes.length 0) with trace }) :
    save host path bytes d = .ok () { d.added path bytes.toArray with
      trace := trace.push (.finalizedFile path) } := by
  have hmodify : (d.contents.push (Array.replicate bytes.length 0)).modify d.contents.size
      (Image.splice · 0 bytes) = d.contents.push bytes.toArray := by
    have hsplice : Image.splice (Array.replicate bytes.length 0) 0 bytes = bytes.toArray :=
      Image.splice_whole (by simp)
    apply Array.ext_getElem?
    intro k
    rw [Array.getElem?_modify, Array.getElem?_push, Array.getElem?_push]
    obtain rfl | hk := eq_or_ne k d.contents.size
    · simp [hsplice]
    · rw [if_neg hk.symm, if_neg hk, if_neg hk]
  have hwrite : (⟨path, d.contents.size, bytes.length⟩ : ImageFile).writeAt 0 bytes
      { d.added path (Array.replicate bytes.length 0) with trace } =
        .ok () { d.added path bytes.toArray with trace } := by
    simp [ImageFile.writeAt, added, hmodify]
  simp only [save, bind_run, h, onFailure, hwrite]
  rfl

/-- Saving to a path that leads nowhere. -/
theorem Disk.save_saved (host : Host) {d : Disk} {path : String} (bytes : Bytes)
    (hnew : d.find? path = none) :
    (∃ d', save host path bytes d = .ok () d' ∧ Saved host d path bytes none d') ∨
      ∃ e d', save host path bytes d = .error e d' ∧ Saved host d path bytes (some e) d' := by
  obtain ⟨hopen, text, hcreate⟩ | ⟨hopen, hfails, text, n, hcreate⟩ | ⟨hadmits, hcreate⟩ :=
    ImageFile.create_cases host bytes.length hnew
  · refine .inr ⟨.mappingFailed text, d, by simp only [save, bind_run, hcreate], ?_⟩
    exact {
      done := by simpa using fun h => hopen h.opens
      content := by simp
      message := fun e he => ⟨text, (Option.some.inj he).symm⟩
      absent := fun _ => ⟨fun _ => hopen, fun _ => hnew⟩
      blank := fun _ bs hread => by simp [read?, hnew] at hread
      others := fun _ _ h => h }
  · refine .inr ⟨.mappingFailed text, d.added path (Array.replicate n 0),
      by simp only [save, bind_run, hcreate], ?_⟩
    exact {
      done := by simpa using hfails
      content := by simp
      message := fun e he => ⟨text, (Option.some.inj he).symm⟩
      absent := fun _ => by simp [hopen]
      blank := fun _ bs hread => by
        rw [read?_added] at hread
        obtain rfl := Option.some.inj hread
        simp
      others := fun _ _ h => read?_added_of_read? hnew h }
  · refine .inl ⟨_, save_of_created hcreate, ?_⟩
    exact {
      done := by simp [hadmits]
      content := fun _ => read?_added
      message := by simp
      absent := by simp
      blank := by simp
      others := fun _ _ h => read?_added_of_read? hnew h }

/-! ## Steps that save -/

namespace Session

variable {s t u : Session} {file : String}

section Scripts

variable {α β : Type}

theorem get_run (s : Session) : (get : Script Session) s = .ok s s := rfl

theorem bind_of_ok {x : Script α} {f : α → Script β} {a : α} (h : x s = .ok a t) :
    (x >>= f) s = f a t := by
  simp [bind, EStateM.bind, h]

theorem bind_of_error {x : Script α} {f : α → Script β} {e : Fault} (h : x s = .error e t) :
    (x >>= f) s = .error e t := by
  simp [bind, EStateM.bind, h]

theorem find_of_lookup {names : Session → Names α} {name : String} {a : α}
    (h : (names s).lookup name = some a) : Script.find names name s = .ok a s := by
  rw [Script.find, bind_of_ok (get_run s), h]
  rfl

theorem op_of_ok {x : Op α} {a : α} {store : Store} (h : x s.store = .ok a store) :
    Script.op x s = .ok a { s with store } := by
  simp [Script.op, h]

theorem op_of_error {x : Op α} {e : Error} {store : Store} (h : x s.store = .error e store) :
    Script.op x s = .error (.failed e) { s with store } := by
  simp [Script.op, h]

theorem onDisk_of_ok {x : Failable Disk α} {a : α} {d : Disk} (h : x s.disk = .ok a d) :
    Script.onDisk x s = .ok a { s with disk := d } := by
  simp [Script.onDisk, h]

theorem onDisk_of_error {x : Failable Disk α} {e : Error} {d : Disk}
    (h : x s.disk = .error e d) : Script.onDisk x s = .error (.failed e) { s with disk := d } := by
  simp [Script.onDisk, h]

theorem withFile_of_ok {x : Script Outcome} {result : Outcome} (h : x s = .ok result t) :
    withFile file x s = .ok (.stored result (t.disk.read? file)) t := by
  have houtcome : Script.outcome x s = .ok result t := by simp [Script.outcome, h]
  rw [withFile, bind_of_ok houtcome]
  rfl

theorem withFile_of_failed {x : Script Outcome} {e : Error} (h : x s = .error (.failed e) t) :
    withFile file x s = .ok (.stored (.failed e) (t.disk.read? file)) t := by
  have houtcome : Script.outcome x s = .ok (.failed e) t := by simp [Script.outcome, h]
  rw [withFile, bind_of_ok houtcome]
  rfl

end Scripts

/-- The operation goes on to save `bytes`, and returns `success` if that works. -/
theorem withFile_saveBytes {x : Script Outcome} {bytes : Bytes} {success : Outcome}
    (hx : x s = (do saveBytes file bytes; return success) u) (hnew : u.disk.find? file = none) :
    ∃ failure t, withFile file x s =
        .ok (.stored (failure.elim success .failed) (t.disk.read? file)) t ∧
      Saved u.host u.disk file bytes failure t.disk := by
  obtain ⟨d, hsave, hsaved⟩ | ⟨e, d, hsave, hsaved⟩ := Disk.save_saved u.host bytes hnew
  · refine ⟨none, { u with disk := d }, withFile_of_ok ?_, hsaved⟩
    have hbytes : saveBytes file bytes u = .ok () { u with disk := d } := by
      rw [saveBytes, bind_of_ok (get_run u)]
      exact onDisk_of_ok hsave
    rw [hx, bind_of_ok hbytes]
    rfl
  · refine ⟨some e, { u with disk := d }, withFile_of_failed ?_, hsaved⟩
    have hbytes : saveBytes file bytes u = .error (.failed e) { u with disk := d } := by
      rw [saveBytes, bind_of_ok (get_run u)]
      exact onDisk_of_error hsave
    rw [hx, bind_of_error hbytes]

end Session

open Session in
/-- Files are saved as a whole, as far as opening them goes. To a path that leads nowhere, an image
or a snapshot is saved, or a snapshot is built and written: this succeeds only if the file then
holds exactly the bytes. A build that fails and a file that cannot be opened leave nothing behind.
A file that could be opened and then neither sized nor mapped stays, without a byte of the image. -/
theorem files_saved_whole {s : Session} {file : String} (hnew : s.disk.find? file = none) :
    (∀ image i, s.images.lookup image = some i →
      ∃ failure t, (SnapshotStep.saveImage image file).run s =
          .ok (.stored (failure.elim .done .failed) (t.disk.read? file)) t ∧
        Saved s.host s.disk file (s.store.image i).bytes failure t.disk) ∧
    (∀ name snapshot, s.snapshots.lookup name = some snapshot →
      ∃ failure t, (SnapshotStep.save name file).run s =
          .ok (.stored (failure.elim .done .failed) (t.disk.read? file)) t ∧
        Saved s.host s.disk file snapshot.bytes failure t.disk) ∧
    ∀ name b config, s.builders.lookup name = some b →
      (∀ e store, b.build config s.store = .error e store →
        ∃ t, (SnapshotStep.writeTo name config file).run s = .ok (.stored (.failed e) none) t ∧
          t.disk = s.disk) ∧
      ∀ snapshot store, b.build config s.store = .ok snapshot store →
        ∃ failure t, (SnapshotStep.writeTo name config file).run s =
            .ok (.stored (failure.elim (.snapshot snapshot) .failed) (t.disk.read? file)) t ∧
          Saved s.host s.disk file snapshot.bytes failure t.disk := by
  refine ⟨fun image i himage => ?_, fun name snapshot hname => ?_, fun name b config hname => ?_⟩
  · have hfound : Script.image image s = .ok i s := by
      rw [Script.image, bind_of_ok (get_run s), himage]
      rfl
    rw [SnapshotStep.run, bind_of_ok hfound]
    exact withFile_saveBytes (bind_of_ok (get_run s)) hnew
  · rw [SnapshotStep.run, bind_of_ok (find_of_lookup hname)]
    exact withFile_saveBytes rfl hnew
  · have htake : takeBuilder name s =
        .ok b { s with builders := Names.drop s.builders name } := by
      rw [takeBuilder, bind_of_ok (find_of_lookup hname)]
      rfl
    rw [SnapshotStep.run, bind_of_ok htake]
    generalize hu : { s with builders := Names.drop s.builders name } = u
    obtain ⟨hstore, hhost, hdisk⟩ : u.store = s.store ∧ u.host = s.host ∧ u.disk = s.disk := by
      simp [← hu]
    rw [← hstore, ← hhost, ← hdisk]
    rw [← hdisk] at hnew
    refine ⟨fun e store hbuild => ?_, fun snapshot store hbuild => ?_⟩
    · have hnothing : u.disk.read? file = none := by simp [Disk.read?, hnew]
      refine ⟨{ u with store }, ?_, rfl⟩
      rw [withFile_of_failed (bind_of_error (op_of_error hbuild)), hnothing]
    · exact withFile_saveBytes (u := { u with store }) (bind_of_ok (op_of_ok hbuild)) hnew

/-! A host that grants eight bytes to a file: an image of two bytes is saved, and the snapshot of no
sections, which is a header of sixteen bytes, is not. -/

def quotaSession : Session where
  store := { images := #[{ data := #[1, 2] }] }
  host := { Host.folder with
    sizeFault := fun size => if 8 < size then some "File too large (os error 27)" else none }
  images := [("k", 0)]
  builders := [("b", {})]

open Session in
theorem files_saved_whole_quota :
    quotaSession.disk.find? "k.bin" = none ∧
      ∃ t, (SnapshotStep.saveImage "k" "k.bin").run quotaSession =
        .ok (.stored .done (some [1, 2])) t := by
  have hnew : quotaSession.disk.find? "k.bin" = none := rfl
  have hadmits : quotaSession.host.Admits quotaSession.disk "k.bin" 2 :=
    ⟨by decide +kernel, rfl, fun _ => rfl⟩
  obtain ⟨failure, t, hrun, hsaved⟩ := (files_saved_whole hnew).1 "k" 0 rfl
  obtain rfl := hsaved.done.2 hadmits
  rw [hsaved.content rfl] at hrun
  exact ⟨hnew, t, hrun⟩

open Session in
/-- The file of a snapshot for which there is no room stays behind, and is empty. -/
theorem refused_size_leaves_file :
    quotaSession.disk.find? "b.snap" = none ∧
      ∃ e t, (SnapshotStep.writeTo "b" .strict "b.snap").run quotaSession =
        .ok (.stored (.failed e) (some [])) t := by
  have hrun : (match (SnapshotStep.writeTo "b" .strict "b.snap").run quotaSession with
      | .ok (.stored result content) _ => result.isFailure && decide (content = some [])
      | .ok .. | .error .. => false) = true := by decide +kernel
  refine ⟨rfl, ?_⟩
  cases hok : (SnapshotStep.writeTo "b" .strict "b.snap").run quotaSession with
  | error e t => simp [hok] at hrun
  | ok outcome t =>
    cases outcome with
    | stored result content =>
      simp only [hok, Bool.and_eq_true, decide_eq_true_eq] at hrun
      obtain ⟨hfailed, rfl⟩ := hrun
      cases result with
      | failed e => exact ⟨e, t, rfl⟩
      | _ => cases hfailed
    | _ => simp [hok] at hrun

end Backpatch

import Mathlib
import Backpatch.Proofs.Capacity

/-!
# Parts of a snapshot that are always known

After its region is flattened, a builder looks up the bounds of each section and the checksum, and
subtracts the start of a section from its end. None of these can be missing at that point, whatever
callbacks do to the cells of the sections: they do not get hold of the cells of the snapshot. So a
build fails only where its preparation or the flattening of its region fails.
-/

namespace Backpatch

open Store Failable

namespace Snapshot.Builder

variable {b : Builder} {s t u v : Store} {refs : References} {crc : CellId} {r : Region}
  {config : FlattenConfig} {summary : FlattenSummary}

/-! ## Bounds of sections -/

/-- The offset and the size of a section are told by its bounds. -/
def Spans (s : Store) (bounds : CellId × CellId) (info : SectionInfo) : Prop :=
  s.offset? bounds.1 = some info.offset ∧ s.offset? bounds.2 = some (info.offset + info.size)

/-- Sections that were laid out have their names, and sizes that add up. -/
theorem Sections.spans {i : ImageId} {c d o a z : Nat} {parts : List PendingSection}
    {infos : List SectionInfo} (h : Sections s i c d o a z parts)
    (hv : ∀ c, t.value? c = s.value? c)
    (hinfos : ((parts.zip (boundsFrom c parts.length)).mapM fun p => sectionInfo p.1 p.2) t =
      .ok infos u) :
    List.Forall₂ (Spans t) (boundsFrom c parts.length) infos ∧
      infos.map (·.name) = parts.map (·.name) := by
  induction parts generalizing c d o a infos with
  | nil =>
    cases hinfos
    exact ⟨.nil, rfl⟩
  | cons part rest ih =>
    obtain ⟨stop, hle, -, hstart, hstop, -, hrest⟩ := h
    have hstart' : t.offset? c = some a := by
      rw [offset?, hv, hstart]
      rfl
    have hstop' : t.offset? (c + 1) = some stop := by
      rw [offset?, hv, hstop]
      rfl
    have hinfo : sectionInfo part (c, c + 1) t = .ok ⟨part.name, a, stop - a⟩ t := by
      simp [sectionInfo, hstart', hstop']
    rw [List.length_cons, boundsFrom, List.zip_cons_cons, List.mapM_cons, bind_run, hinfo]
      at hinfos
    obtain ⟨infos', u', hinfos', hpure⟩ := bind_eq_ok.1 hinfos
    cases hpure
    obtain ⟨hspans, hnames⟩ := ih hrest hinfos'
    refine ⟨.cons ⟨hstart', ?_⟩ hspans, by rw [List.map_cons, List.map_cons, hnames]⟩
    -- The difference is not cut off.
    rw [Nat.add_sub_cancel' hle]
    exact hstop'

/-! ## After flattening -/

/-- Strict flattening that succeeds leaves no field of a snapshot open. -/
theorem unresolved_of_strict (hv : Valid s []) (hb : b.Within s.cells.size)
    (hprepare : b.prepare s = .ok (refs, crc, r) u) (hstrict : config.enforceComplete = true)
    (hflatten : r.flatten u.images.size config { u with images := u.images.push {} } =
      .ok summary v) : summary.unresolved = [] := by
  obtain ⟨l, w, x, hlayout, hfinalize, -, -⟩ := Region.flattenObserved_eq_ok hflatten
  have hstage := stage_newImage hv hprepare
  have hwithin : r.Within u.cells.size := prepare_within hprepare hb
  have hsteps : Steps Move.Plain { u with images := u.images.push {} } w :=
    after_of_ok hlayout ▸
      Region.steps_layoutObserved config.observer hstage.valid hstage.image hwithin
  have hentries : l.entries = r.entries := by rw [(Region.layoutObserved_eq_ok hlayout).2]
  have hw : ∀ e ∈ l.entries, e.Within w.cells.size := by
    rw [hentries]
    exact fun e he => (Segment.WithinAll.entries hwithin e he).mono hsteps.grows.cells
  exact (l.strictOutcome_of_finalizeObserved (hsteps.valid hstage.valid) hw hstrict
    hfinalize).unresolved

/-- What a builder looks up after its region was flattened. -/
theorem known_of_flatten (hv : Valid s []) (hb : b.Within s.cells.size)
    (hprepare : b.prepare s = .ok (refs, crc, r) u)
    (hflatten : r.flatten u.images.size config { u with images := u.images.push {} } =
      .ok summary v) :
    (config.enforceComplete = true → (v.offset? crc).isSome) ∧
      ∃ infos, ((b.sections.toList.zip refs.bounds).mapM fun p => sectionInfo p.1 p.2) v =
          .ok infos v ∧
        List.Forall₂ (Spans v) refs.bounds infos ∧
        infos.map (·.name) = b.sections.toList.map (·.name) := by
  obtain ⟨l, w, hlaid, hcases, hunresolved, -, hvalues⟩ :=
    sealed_or_unsealed hv hb hprepare hflatten
  have hstrict : config.enforceComplete = true → summary.unresolved = [] :=
    fun h => unresolved_of_strict hv hb hprepare h hflatten
  obtain ⟨rfl, rfl, -⟩ := prepare_prepared hprepare
  obtain ⟨infos, hinfos, -⟩ := hlaid.sections.infos hvalues
  have hspans := hlaid.sections.spans hvalues hinfos
  rw [Array.length_toList] at hinfos hspans
  refine ⟨fun h => ?_, infos, hinfos, hspans⟩
  exact checksum_known hcases (hunresolved.symm.trans (hstrict h)) hvalues

theorem build_run (hprepare : b.prepare s = .ok (refs, crc, r) u) :
    b.build config s = (r.flatten u.images.size config >>= b.collect config refs crc
      u.images.size) { u with images := u.images.push {} } := by
  rw [build, bind_run, hprepare]
  rfl

/-- Once its region is flattened, a snapshot is built. -/
theorem build_of_flatten (hv : Valid s []) (hb : b.Within s.cells.size)
    (hprepare : b.prepare s = .ok (refs, crc, r) u)
    (hflatten : r.flatten u.images.size config { u with images := u.images.push {} } =
      .ok summary v) :
    ∃ snap t, b.build config s = .ok snap t ∧ snap.summary = summary ∧
      List.Forall₂ (Spans v) refs.bounds snap.sections ∧
      snap.sections.map (·.name) = b.sections.toList.map (·.name) ∧
      (config.enforceComplete = true → snap.crc.isSome) := by
  obtain ⟨hcrc, infos, hinfos, hspans, hnames⟩ := known_of_flatten hv hb hprepare hflatten
  obtain ⟨snap, t, hcollect⟩ :
      ∃ snap t, b.collect config refs crc u.images.size summary v = .ok snap t :=
    collect_ok hinfos hcrc
  obtain ⟨-, hcrc', rfl, rfl, -⟩ := collect_eq_ok hinfos hcollect
  refine ⟨snap, t, ?_, rfl, hspans, hnames, hcrc' ▸ hcrc⟩
  rw [build_run hprepare]
  exact bind_eq_ok.2 ⟨snap.summary, v, hflatten, hcollect⟩

end Snapshot.Builder

open Snapshot in
/-- Once its region is flattened, a snapshot is built. The bounds of every section are known, their
difference is its size, and in a strict run the checksum is known. A build that fails has too many
sections for the word that counts them, or it fails with the error of flattening. -/
theorem snapshot_parts_always_known {calls : List Call} {s : Store} {b : Builder}
    (hbefore : Run {} calls s) (hb : b.Within s.cells.size) (config : FlattenConfig) :
    (∀ refs crc r u summary v, b.prepare s = .ok (refs, crc, r) u →
      r.flatten u.images.size config { u with images := u.images.push {} } = .ok summary v →
      ∃ snap t, b.build config s = .ok snap t ∧ snap.summary = summary ∧
        List.Forall₂ (Builder.Spans v) refs.bounds snap.sections ∧
        snap.sections.map (·.name) = b.sections.toList.map (·.name) ∧
        (config.enforceComplete = true → snap.crc.isSome)) ∧
    ∀ e t, b.build config s = .error e t →
      (65536 ≤ b.sections.size ∧ ∃ value format, e = .valueOutOfRange value format) ∨
      ∃ refs crc r u, b.prepare s = .ok (refs, crc, r) u ∧
        r.flatten u.images.size config { u with images := u.images.push {} } = .error e t := by
  refine ⟨fun refs crc r u summary v hprepare hflatten =>
    Builder.build_of_flatten hbefore.valid hb hprepare hflatten, fun e t hbuild => ?_⟩
  obtain ⟨-, ⟨refs, crc, r⟩, u, hprepare⟩ | ⟨hmany, value, format, t', hprepare⟩ :=
    Builder.prepare_succeedsIff b s
  · refine .inr ⟨refs, crc, r, u, hprepare, ?_⟩
    cases hflatten : r.flatten u.images.size config { u with images := u.images.push {} } with
    | ok summary v =>
      obtain ⟨snap, t', hok, -⟩ :=
        Builder.build_of_flatten hbefore.valid hb hprepare hflatten
      cases hok.symm.trans hbuild
    | error e' t' =>
      rw [Builder.build_run hprepare, bind_run, hflatten] at hbuild
      cases hbuild
      rfl
  · rw [Builder.build, bind_run, hprepare] at hbuild
    cases hbuild
    exact .inl ⟨Nat.not_lt.1 hmany, value, format, rfl⟩

/-! A callback takes the mark of its section back and resolves a field that was laid out before. The
mark of another section has a callback that fails, as a builder does that lost a section. -/

def lostSection : Error := Snapshot.Builder.malformed 152 "Section 'late' was never placed"

def stirredCalls : List Call :=
  [.newCell .offset none false, .newCell (.int .i64) none false, .newCell .offset none false,
    .onResolve 0 (.andThen (.unresolve (.cell 0)) (.resolve (.cell 1) { number := some 7 })),
    .onResolve 2 (.fail lostSection)]

def stirredStore : Store := stirredCalls.foldl (fun s call => call.run.after s) {}

def earlySection : Snapshot.PendingSection :=
  ⟨"early", ⟨[.deferred (.int .u8) 1 none, .mark 0, .direct [1, 2] {}]⟩⟩

def lateSection : Snapshot.PendingSection := ⟨"late", ⟨[.mark 2]⟩⟩

def earlyBuilder : Snapshot.Builder := { sections := #[earlySection] }

def lateBuilder : Snapshot.Builder := { sections := #[earlySection, lateSection] }

theorem stirredStore_run : Run {} stirredCalls stirredStore :=
  .cons trivial (.cons trivial (.cons trivial (.cons (show 0 < 3 ∧ 0 < 3 ∧ 1 < 3 by decide)
    (.cons (show 2 < 3 ∧ True by decide) (.nil _)))))

open Snapshot in
theorem snapshot_parts_always_known_stirred :
    (∃ snap t, earlyBuilder.build .strict stirredStore = .ok snap t ∧
      snap.sections = [⟨"early", 18, 3⟩] ∧ snap.bytes.drop 18 = [7, 1, 2] ∧ t.value? 0 = none ∧
      snap.crc.isSome) ∧
    ∃ refs crc r u e t, lateBuilder.prepare stirredStore = .ok (refs, crc, r) u ∧
      r.flatten u.images.size .strict { u with images := u.images.push {} } = .error e t ∧
      e.message = lostSection.message := by
  have hsize : stirredStore.cells.size = 3 := by decide +kernel
  have hearly : earlyBuilder.Within stirredStore.cells.size := by
    simp [earlyBuilder, earlySection, Builder.Within, Region.Within, Segment.WithinAll,
      Segment.Within, hsize]
  have hlate : lateBuilder.Within stirredStore.cells.size := by
    simp [lateBuilder, earlySection, lateSection, Builder.Within, Region.Within,
      Segment.WithinAll, Segment.Within, hsize]
  constructor
  · have hrun : ((earlyBuilder.build .strict).run' stirredStore).map (fun snap =>
        (snap.sections, snap.bytes.drop 18)) = some ([⟨"early", 18, 3⟩], [7, 1, 2]) := by
      decide +kernel
    have hcleared : ((earlyBuilder.build .strict).after stirredStore).value? 0 = none := by
      decide +kernel
    obtain ⟨snap, t, hbuild, hparts⟩ := exists_ok_of_run' hrun
    rw [Prod.mk.injEq] at hparts
    rw [after_of_ok hbuild] at hcleared
    obtain ⟨refs, crc, r, u, summary, v, hprepare, hflatten, -⟩ := Builder.build_eq_ok hbuild
    obtain ⟨snap', t', hbuild', -, -, -, hcrc⟩ :=
      (snapshot_parts_always_known stirredStore_run hearly .strict).1 _ _ _ _ _ _ hprepare hflatten
    cases hbuild.symm.trans hbuild'
    exact ⟨snap, t, hbuild, hparts.1, hparts.2, hcleared, hcrc rfl⟩
  · have hrun : ((failures (discard (lateBuilder.build .strict))).run' stirredStore).map
        (·.map Error.message) = some [lostSection.message] := by decide +kernel
    obtain ⟨e, t, hbuild, hmessage⟩ := exists_error_of_failures hrun
    obtain ⟨hmany, -⟩ | ⟨refs, crc, r, u, hprepare, hflatten⟩ :=
      (snapshot_parts_always_known stirredStore_run hlate .strict).2 _ _ hbuild
    · exact absurd hmany (by decide)
    · exact ⟨refs, crc, r, u, e, t, hprepare, hflatten, hmessage⟩

end Backpatch

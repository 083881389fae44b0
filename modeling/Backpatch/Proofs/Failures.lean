import Mathlib
import Backpatch.Proofs.Dispatch
import Backpatch.Proofs.Finalization

/-!
# Failures of callbacks surface

Operations start dispatches: resolving a cell starts one, laying a region out one for each mark that
is not confirmed, finalizing it one for each result. A subscriber that fails in such a dispatch, at
any depth, makes the operation fail, and the failure of the operation has all single failures of
the subscriber (`Surfaces`). The failure must have one: an aggregate that holds nothing, at any
depth, is lost as soon as it is collected.
-/

namespace Backpatch

open Store Failable

/-- A dispatch: the store in which it starts, the cell and its value. -/
structure Start where
  store : Store
  cell : CellId
  value : Datum

/-- Some subscriber that runs in the dispatch, at any depth, fails with `e`. -/
def Start.Raises (x : Start) (e : Error) : Prop :=
  ∃ account errors t c id v, Executes x.store (.settle x.cell x.value) account errors t ∧
    .served c id v (some e) ∈ account

/-- If a subscriber fails in one of the dispatches, then the operation fails, and reports the single
failures of the subscriber. -/
def Surfaces {α : Type} (starts : List Start) (r : EStateM.Result Error Store α) : Prop :=
  ∀ x ∈ starts, ∀ e, x.Raises e → e.isHollow = false →
    ∃ e' t, r = .error e' t ∧ e.leaves ⊆ e'.leaves

/-- What is started after an operation, if it succeeds. -/
def startsAfter {α : Type} (r : EStateM.Result Error Store α) (next : α → Store → List Start) :
    List Start :=
  match r with
  | .ok a t => next a t
  | .error .. => []

section Surfaces

variable {α β : Type} {s : Store} {starts : List Start} {r : EStateM.Result Error Store α}

theorem Surfaces.nil : Surfaces [] r := by
  simp [Surfaces]

theorem Surfaces.bind {x : Op α} {f : α → Op β} {next : α → Store → List Start}
    (hx : Surfaces starts (x s)) (hf : ∀ a t, x s = .ok a t → Surfaces (next a t) (f a t)) :
    Surfaces (starts ++ startsAfter (x s) next) ((x >>= f) s) := by
  intro start hstart e hraises hsolid
  rw [bind_run]
  obtain hstart | hstart := List.mem_append.1 hstart
  · obtain ⟨e', t, hr, hleaves⟩ := hx start hstart e hraises hsolid
    exact ⟨e', t, by rw [hr], hleaves⟩
  · cases hr : x s with
    | ok a t =>
      rw [hr] at hstart
      exact hf a t hr start hstart e hraises hsolid
    | error e' t => simp [hr, startsAfter] at hstart

theorem Surfaces.bind_left {x : Op α} {f : α → Op β} (hx : Surfaces starts (x s)) :
    Surfaces starts ((x >>= f) s) := by
  have h : Surfaces (starts ++ startsAfter (x s) fun _ _ => []) ((x >>= f) s) :=
    hx.bind fun _ _ _ => .nil
  have hnone : startsAfter (x s) (fun _ _ => []) = [] := by
    unfold startsAfter
    cases x s <;> rfl
  rwa [hnone, List.append_nil] at h

/-- Settling a cell reports what its subscribers fail with. -/
theorem surfaces_settle (c : CellId) (v : Datum) (hi : s.load ≤ s.issued) :
    Surfaces [⟨s, c, v⟩] (settle c v s) := by
  intro x hx e hraises hsolid
  obtain rfl := List.mem_singleton.1 hx
  obtain ⟨account, errors, t, d, id, w, hexec, hserved⟩ := hraises
  obtain ⟨account', errors', t', hexec', hr⟩ := executed_settle c v hi
  obtain ⟨rfl, rfl, rfl⟩ := hexec.unique hexec'
  have hleaves : e.leaves ⊆ errors.flatMap Error.leaves :=
    hexec.leaves ▸ hexec.leaves_served hserved
  have hlength := hexec.length_errors_le (by simp)
  match errors with
  | [] =>
    have hnone := (Error.leaves_eq_nil_iff e).1 (List.subset_nil.1 hleaves)
    simp [hsolid] at hnone
  | [e'] => exact ⟨e', t, hr, by simpa using hleaves⟩
  | _ :: _ :: _ => simp at hlength

/-- The dispatch that settling a cell starts, unless the cell holds the value. -/
def Store.confirmStarts (c : CellId) (v : Datum) (s : Store) : List Start :=
  if (s.cell c).holds v then [] else [⟨s, c, v⟩]

theorem surfaces_settleOrConfirm (c : CellId) (v : Datum) (hi : s.load ≤ s.issued) :
    Surfaces (confirmStarts c v s) (settleOrConfirm c v s) := by
  unfold confirmStarts settleOrConfirm
  cases hh : (s.cell c).holds v with
  | true => exact .nil
  | false => simpa [hh] using surfaces_settle c v hi

end Surfaces

/-! ## Resolving -/

namespace Store

/-- The dispatch that resolving a cell starts; a derived cell is refused. -/
def resolveStarts (c : CellId) (v : Datum) (s : Store) : List Start :=
  if (s.cell c).derived then [] else [⟨s, c, v⟩]

variable {s : Store}

theorem surfaces_resolve (c : CellId) (v : Datum) (hi : s.load ≤ s.issued) :
    Surfaces (resolveStarts c v s) (Store.resolve c v s) := by
  unfold resolveStarts Store.resolve resolveBy
  cases hd : (s.cell c).derived with
  | true => exact .nil
  | false => simpa [hd] using surfaces_settle c v hi

theorem surfaces_confirm (c : CellId) (v : Datum) (hi : s.load ≤ s.issued) :
    Surfaces (if (s.cell c).holds v then [] else resolveStarts c v s)
      (Store.confirm c v s) := by
  unfold Store.confirm confirmBy
  cases hh : (s.cell c).holds v with
  | true => exact .nil
  | false => simpa [hh, Store.resolve] using surfaces_resolve c v hi

/-! ## Laying out -/

mutual

/-- The dispatches that emitting a segment starts. -/
def emitStarts (i : ImageId) : Segment → Store → List Start
  | .mark c, s => confirmStarts c (.int (s.image i).size) s
  | .nested segments, s => emitAllStarts i segments s
  | .direct .., _ | .deferred .., _ | .postProcess _, _ => []

def emitAllStarts (i : ImageId) : List Segment → Store → List Start
  | [], _ => []
  | segment :: rest, s => emitStarts i segment s ++
    startsAfter (emitSegment i segment s) fun _ t => emitAllStarts i rest t

end

/-- The same with a checkpoint after each segment. -/
def observedStarts (observer : Observer) (i : ImageId) : Nat → List Segment → Store → List Start
  | _, [], _ => []
  | index, segment :: rest, s => emitStarts i segment s ++
    startsAfter (emitSegment i segment s) fun _ t => observedStarts observer i (index + 1) rest
      ((checkpoint observer i (.segment index (t.image i).size)).after t)

variable {i : ImageId} {n : Nat}

mutual

theorem surfaces_emitSegment {s : Store} {segment : Segment} (h : Valid s [])
    (hi : i < s.images.size) (hn : n ≤ s.cells.size) (hw : segment.Within n) :
    Surfaces (emitStarts i segment s) (emitSegment i segment s) := by
  cases segment with
  | direct | deferred | postProcess => exact .nil
  | mark c => exact surfaces_settleOrConfirm c (.int (s.image i).size) h.load
  | nested segments => exact surfaces_emitAll h hi hn hw

theorem surfaces_emitAll {s : Store} {segments : List Segment} (h : Valid s [])
    (hi : i < s.images.size) (hn : n ≤ s.cells.size) (hw : Segment.WithinAll n segments) :
    Surfaces (emitAllStarts i segments s) (emitAll i segments s) := by
  cases segments with
  | nil => exact .nil
  | cons segment rest =>
    refine Surfaces.bind (surfaces_emitSegment h hi hn hw.1) fun _ t ht => ?_
    have hst : Steps (Move.Writes i n) s t := after_of_ok ht ▸ steps_emitSegment h hi hn hw.1
    exact surfaces_emitAll (hst.valid h) (hi.trans_le hst.grows.images) (hn.trans hst.grows.cells)
      hw.2

end

theorem surfaces_emitObserved (observer : Observer) {segments : List Segment} (index : Nat)
    (h : Valid s []) (hi : i < s.images.size) (hn : n ≤ s.cells.size)
    (hw : Segment.WithinAll n segments) :
    Surfaces (observedStarts observer i index segments s)
      (emitObserved observer i index segments s) := by
  induction segments generalizing index s with
  | nil => exact .nil
  | cons segment rest ih =>
    refine Surfaces.bind (surfaces_emitSegment h hi hn hw.1) fun _ t ht => ?_
    have hst : Steps (Move.Writes i n) s t := after_of_ok ht ▸ steps_emitSegment h hi hn hw.1
    have hsu := hst.trans (steps_checkpoint (s := t) observer i (.segment index (t.image i).size)
      fun _ _ _ => trivial)
    obtain ⟨log, trace, reports, hcheck⟩ :=
      checkpoint_run observer i (.segment index (t.image i).size) t
    have hrest := ih (index + 1) (hsu.valid h) (hi.trans_le hsu.grows.images)
      (hn.trans hsu.grows.cells) hw.2
    rw [after_of_ok hcheck] at hrest ⊢
    simpa [imageSize, hcheck] using hrest

end Store

/-- The dispatches that laying a region out starts. -/
def Region.starts (r : Region) (i : ImageId) (observer : Observer) (s : Store) : List Start :=
  observedStarts observer i 0 r.segments
    ((emit (.flattening r.segments.length (s.image i).size)).after s)

theorem Region.surfaces_layoutObserved {r : Region} {i : ImageId} (observer : Observer) {s : Store}
    (h : Valid s []) (hi : i < s.images.size) (hw : r.Within s.cells.size) :
    Surfaces (r.starts i observer s) (r.layoutObserved i observer s) := by
  intro x hx e hraises hsolid
  obtain ⟨e', t, hr, hleaves⟩ := surfaces_emitObserved observer 0
    (s := (emit (.flattening r.segments.length (s.image i).size)).after s)
    ((steps_emit (P := fun _ => True) _ fun _ _ _ => trivial).valid h) hi le_rfl hw x hx e hraises
    hsolid
  cases hlayout : r.layoutObserved i observer s with
  | ok l u => cases hr.symm.trans (Region.layoutObserved_eq_ok hlayout).1
  | error e'' u =>
    obtain ⟨u', hemit, -⟩ := Region.layoutObserved_eq_error hlayout
    cases hr.symm.trans hemit
    exact ⟨e', u, rfl, hleaves⟩

/-! ## Finalizing -/

namespace Layout

/-- The dispatch that an entry starts at its turn. -/
def entryStarts (l : Layout) (e : Entry) (s : Store) : List Start :=
  match bounds e s with
  | (some start, some stop) =>
    if (l.pending s).any (·.overlaps start stop) then []
    else
      match (s.image l.image).read start stop with
      | .ok bytes => confirmStarts e.result (e.digest bytes) s
      | .error _ => []
  | _ => []

/-- The dispatches that finalizing a layout starts. -/
def starts (l : Layout) (config : FlattenConfig) (s : Store) : List Start :=
  (l.turns config.enforceComplete 0 l.entries s).flatMap fun turn => l.entryStarts turn.1 turn.2

variable {l : Layout} {s u : Store} {enforce : Bool} {index : Nat} {tally tally' : Tally}

theorem surfaces_applyEntry {e : Entry} {start stop : Nat} (h : Valid s [])
    (hb : bounds e s = (some start, some stop)) :
    Surfaces (l.entryStarts e s) (l.applyEntry e start stop s) := by
  unfold entryStarts applyEntry
  rw [hb]
  simp only [bind_run, get_run]
  split_ifs
  · exact .nil
  · cases hread : (s.image l.image).read start stop with
    | ok bytes => exact surfaces_settleOrConfirm e.result (e.digest bytes) h.load
    | error => exact .nil

/-- The failure of an entry is put down. -/
theorem runEntry_surfaces {e : Entry} (h : Valid s [])
    (hrun : l.runEntry enforce index e tally s = .ok tally' u) :
    tally.errors ⊆ tally'.errors ∧ ∀ x ∈ l.entryStarts e s, ∀ y, x.Raises y →
      y.isHollow = false → y.leaves ⊆ tally'.errors.flatMap Error.leaves := by
  have quiet : ∀ {start stop}, bounds e s = (start, stop) → start = none ∨ stop = none →
      l.entryStarts e s = [] := by
    rintro start stop hb (rfl | rfl)
    · simp [entryStarts, hb]
    · cases start <;> simp [entryStarts, hb]
  rw [runEntry_run] at hrun
  split at hrun
  next start stop hb =>
    split_ifs at hrun with hcovered
    · cases hrun
      simp [entryStarts, hb, hcovered]
    · have happly := surfaces_applyEntry (l := l) h hb
      cases hr : l.applyEntry e start stop s with
      | ok _ t =>
        simp only [hr] at hrun
        cases hrun
        refine ⟨fun _ hx => hx, fun x hx y hy hsolid => ?_⟩
        obtain ⟨e', t', he', -⟩ := happly x hx y hy hsolid
        cases hr.symm.trans he'
      | error x t =>
        simp only [hr] at hrun
        cases hrun
        refine ⟨List.subset_append_left .., fun x hx y hy hsolid => ?_⟩
        obtain ⟨e', t', he', hleaves⟩ := happly x hx y hy hsolid
        cases hr.symm.trans he'
        rw [List.flatMap_append]
        exact List.subset_append_of_subset_right _ (by simpa using hleaves)
  next start stop hnone hb =>
    have hmissing : start = none ∨ stop = none := by
      cases start with
      | none => exact .inl rfl
      | some start =>
        cases stop with
        | none => exact .inr rfl
        | some stop => exact absurd rfl (hnone start stop · rfl)
    rw [quiet hb hmissing]
    split_ifs at hrun <;> cases hrun <;> simp

theorem runEntries_surfaces {entries : List Entry} (h : Valid s [])
    (hw : ∀ e ∈ entries, e.Within s.cells.size)
    (hrun : l.runEntries enforce index entries tally s = .ok tally' u) :
    tally.errors ⊆ tally'.errors ∧
    ∀ x ∈ (l.turns enforce index entries s).flatMap fun turn => l.entryStarts turn.1 turn.2,
      ∀ y, x.Raises y → y.isHollow = false → y.leaves ⊆ tally'.errors.flatMap Error.leaves := by
  induction entries generalizing index tally s with
  | nil =>
    cases hrun
    exact ⟨fun _ hx => hx, by simp [turns]⟩
  | cons e rest ih =>
    obtain ⟨mid, t, hturn, hrest⟩ := bind_eq_ok.1 hrun
    have hst : Steps (Move.Settles s.cells.size) s t :=
      after_of_ok hturn ▸ steps_runEntry l enforce index tally h le_rfl (hw e (.head _))
    obtain ⟨hfirst, hsurfaces⟩ := runEntry_surfaces h hturn
    obtain ⟨hlater, hsurfaces'⟩ := ih (hst.valid h)
      (fun e he => (hw e (.tail _ he)).mono hst.grows.cells) hrest
    have hafter : (l.runEntry enforce index e {}).after s = t := by
      rw [← after_runEntry enforce tally, after_of_ok hturn]
    refine ⟨fun _ hx => hlater (hfirst hx), fun x hx y hy hsolid => ?_⟩
    rw [turns, hafter, List.flatMap_cons] at hx
    obtain hx | hx := List.mem_append.1 hx
    · intro z hz
      obtain ⟨e', he', hz⟩ := List.mem_flatMap.1 (hsurfaces x hx y hy hsolid hz)
      exact List.mem_flatMap.2 ⟨e', hlater he', hz⟩
    · exact hsurfaces' x hx y hy hsolid

theorem surfaces_finalizeObserved (config : FlattenConfig) (observer : Observer) (h : Valid s [])
    (hw : ∀ e ∈ l.entries, e.Within s.cells.size) :
    Surfaces (l.starts config s) (l.finalizeObserved config observer s) := by
  intro x hx y hy hsolid
  obtain ⟨tally, u, hentries⟩ := runEntries_isOk l config.enforceComplete 0 l.entries {} s
  obtain ⟨log, trace, reports, hclose⟩ := close_run (s := u) l config observer tally
  have hleaves : y.leaves ⊆
      (Error.ofMany? (l.complaints config tally u)).toList.flatMap Error.leaves := by
    rw [Error.leaves_ofMany?, complaints, List.flatMap_append]
    exact List.subset_append_of_subset_left _
      ((runEntries_surfaces h hw hentries).2 x hx y hy hsolid)
  cases hmany : Error.ofMany? (l.complaints config tally u) with
  | none =>
    rw [hmany] at hleaves
    have hnone := (Error.leaves_eq_nil_iff y).1 (List.subset_nil.1 hleaves)
    simp [hsolid] at hnone
  | some e' =>
    refine ⟨e', { u.released (l.placeholders u).toList with log, trace, reports }, ?_, ?_⟩
    · simp [finalizeObserved, hentries, hclose, raise, hmany]
    · simpa [hmany] using hleaves

end Layout

namespace Region

/-- The dispatches that flattening a region starts. -/
def flattenStarts (r : Region) (i : ImageId) (config : FlattenConfig) (observer : Observer)
    (s : Store) : List Start :=
  r.starts i observer s ++ startsAfter (r.layoutObserved i observer s) fun l t => l.starts config t

theorem surfaces_flattenObserved {r : Region} {i : ImageId} (config : FlattenConfig)
    (observer : Observer) {s : Store} (h : Valid s []) (hi : i < s.images.size)
    (hw : r.Within s.cells.size) :
    Surfaces (r.flattenStarts i config observer s) (r.flattenObserved i config observer s) := by
  refine Surfaces.bind (surfaces_layoutObserved observer h hi hw) fun l t ht => ?_
  have hst : Steps Move.Plain s t :=
    after_of_ok ht ▸ Region.steps_layoutObserved observer h hi hw
  obtain ⟨-, rfl⟩ := Region.layoutObserved_eq_ok ht
  exact (Layout.surfaces_finalizeObserved config observer (hst.valid h)
    fun e he => (hw.entries e he).mono hst.grows.cells).bind_left

end Region

/-! ## What surfaces and what is lost -/

/-- A subscriber that fails, at any depth, makes the operation fail that set it off, and the failure
of the operation has its single failures, if it has any. Resolving a pending cell succeeds just if
none of its subscribers fails with anything but the empty aggregate. -/
theorem callback_failures_surface {calls : List Call} {s : Store} (hrun : Run {} calls s) :
    (∀ c v, Surfaces (resolveStarts c v s) (Store.resolve c v s)) ∧
    (∀ c v, Surfaces (if (s.cell c).holds v then [] else resolveStarts c v s)
      (Store.confirm c v s)) ∧
    (∀ (r : Region) i observer, i < s.images.size → r.Within s.cells.size →
      Surfaces (r.starts i observer s) (r.layoutObserved i observer s)) ∧
    (∀ (l : Layout) config observer, (∀ e ∈ l.entries, e.Within s.cells.size) →
      Surfaces (l.starts config s) (l.finalizeObserved config observer s)) ∧
    (∀ (r : Region) i config observer, i < s.images.size → r.Within s.cells.size →
      Surfaces (r.flattenStarts i config observer s) (r.flattenObserved i config observer s)) ∧
    ∀ c v, c < s.cells.size → (s.cell c).derived = false → s.value? c = none →
      ((∃ t, Store.resolve c v s = .ok () t) ↔
        ∀ x ∈ servings v (s.cell c).queue (s.delivered c v), ∀ e, x.failure = some e →
          e = .aggregate []) := by
  have h := hrun.valid
  refine ⟨fun c v => surfaces_resolve c v h.load, fun c v => surfaces_confirm c v h.load,
    fun r i observer hi hw => r.surfaces_layoutObserved observer h hi hw,
    fun l config observer hw => l.surfaces_finalizeObserved config observer h hw,
    fun r i config observer hi hw => r.surfaces_flattenObserved config observer h hi hw,
    fun c v hc hd hv => ?_⟩
  obtain ⟨ho, hn⟩ := hrun.ordered
  obtain ⟨account, errors, t, hdispatched⟩ := h.dispatched v ho hn hc hd hv
  have hok : (∃ t, Store.resolve c v s = .ok () t) ↔ errors = [] := by
    rw [hdispatched.result]
    cases errors with
    | nil => simp [report]
    | cons e es => simp [report]
  rw [hok, hdispatched.failures, Option.toList_eq_nil_iff, Error.ofMany?_eq_none_iff]
  simp only [List.mem_filterMap]
  constructor
  · exact fun hall x hx e he => hall e ⟨x, hx, he⟩
  · rintro hall e ⟨x, hx, he⟩
    exact hall x hx e he

theorem Dispatched.raises {s t : Store} {c : CellId} {v : Datum} {account : List Incident}
    {errors : List Error} {x : Serving} {e : Error} (h : Dispatched s c v account errors t)
    (hx : x ∈ servings v (s.cell c).queue (s.delivered c v)) (he : x.failure = some e) :
    Start.Raises ⟨s, c, v⟩ e := by
  have hmem : x.incident c v ∈ account.filter (·.serves c (s.cell c).next) :=
    h.once ▸ List.mem_map_of_mem hx
  exact ⟨account, errors, t, c, x.number, v, h.executes, he ▸ List.mem_of_mem_filter hmem⟩

def surfacingCalls : List Call :=
  [.newCell (.int .i64) none false, .newCell .offset none false, .newCell .offset none false,
    .onResolve 0 (.fail (.invalidText "a")),
    .tryMap 0 (.int .i64) fun _ => .error (.invalidText "b"), .newImage]

def surfacingStore : Store := surfacingCalls.foldl (fun s call => call.run.after s) {}

def surfacingRegion : Region :=
  ⟨[.mark 1, .direct [5] {}, .nested [.mark 2], .postProcess ⟨1, 2, fun bs => .int bs.length, 0⟩]⟩

theorem surfacingStore_run : Run {} surfacingCalls surfacingStore :=
  .cons trivial (.cons trivial (.cons trivial (.cons ⟨show 0 < _ by decide +kernel, trivial⟩
    (.cons (show 0 < _ by decide +kernel) (.cons trivial (.nil _))))))

theorem callback_failures_surface_flattening :
    Start.Raises ⟨surfacingStore, 0, .int 1⟩ (.invalidText "a") ∧
    Surfaces [⟨surfacingStore, 0, .int 1⟩] (Store.resolve 0 (.int 1) surfacingStore) ∧
    (surfacingRegion.flattenStarts 0 .strict .silent surfacingStore).map (·.cell) = [1, 2, 0] ∧
    Surfaces (surfacingRegion.flattenStarts 0 .strict .silent surfacingStore)
      (surfacingRegion.flattenObserved 0 .strict .silent surfacingStore) ∧
    (match surfacingRegion.flattenObserved 0 .strict .silent surfacingStore with
      | .ok .. => []
      | .error e _ => e.leaves.map Error.message) =
        ["a", "b"].map (Error.message ∘ .invalidText) := by
  obtain ⟨ho, hn⟩ := surfacingStore_run.ordered
  obtain ⟨account, errors, t, h⟩ := surfacingStore_run.valid.dispatched (c := 0) (.int 1) ho hn
    (by decide +kernel) (by decide +kernel) (by decide +kernel)
  have hwithin : surfacingRegion.Within surfacingStore.cells.size := by
    have hsize : surfacingStore.cells.size = 4 := by decide +kernel
    simp [surfacingRegion, Region.Within, Segment.WithinAll, Segment.Within, Entry.Within, hsize]
  obtain ⟨hresolve, -, -, -, hflatten, -⟩ := callback_failures_surface surfacingStore_run
  exact ⟨h.raises (.head _) rfl, hresolve 0 (.int 1), by decide +kernel,
    hflatten surfacingRegion 0 .strict .silent (by decide +kernel) hwithin, by decide +kernel⟩

def hollowCalls : List Call :=
  [.newCell (.int .i64) none false, .onResolve 0 (.fail (.aggregate []))]

def hollowStore : Store := hollowCalls.foldl (fun s call => call.run.after s) {}

/-- A callback fails with the empty aggregate, and resolving the cell succeeds. -/
theorem empty_aggregate_lost :
    Run {} hollowCalls hollowStore ∧
    Start.Raises ⟨hollowStore, 0, .int 1⟩ (.aggregate []) ∧
    ∃ t, Store.resolve 0 (.int 1) hollowStore = .ok () t := by
  have hrun : Run {} hollowCalls hollowStore :=
    .cons trivial (.cons ⟨show 0 < _ by decide +kernel, trivial⟩ (.nil _))
  obtain ⟨ho, hn⟩ := hrun.ordered
  obtain ⟨account, errors, t, h⟩ := hrun.valid.dispatched (c := 0) (.int 1) ho hn
    (by decide +kernel) (by decide +kernel) (by decide +kernel)
  exact ⟨hrun, h.raises (.head _) rfl, _, rfl⟩

end Backpatch

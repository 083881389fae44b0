import Mathlib
import Backpatch.Proofs.Failures

/-!
# What finalization reports

Every entry has a verdict at its turn: it is applied, passed over, or it fails. The outcome of all
entries is the list of their verdicts in order (`Layout.runEntries_eq`), and with the fields that are
still pending in the end it decides what finalization returns (`Layout.finalizeObserved_eq`).
-/

namespace Backpatch

open Store Failable

/-! ## The fields that an error reports -/

namespace Error

mutual

theorem unresolvedFields_eq (e : Error) :
    e.unresolvedFields = e.leaves.flatMap unresolvedFields := by
  cases e with
  | aggregate errors => exact allUnresolvedFields_eq errors
  | _ => simp [leaves, unresolvedFields]

theorem allUnresolvedFields_eq (errors : List Error) :
    allUnresolvedFields errors = (allLeaves errors).flatMap unresolvedFields := by
  cases errors with
  | nil => rfl
  | cons e es =>
    rw [allUnresolvedFields, allLeaves, List.flatMap_append, unresolvedFields_eq e,
      allUnresolvedFields_eq es]

end

/-- A report of several failures has the fields of all of them. -/
theorem unresolvedFields_ofMany? (errors : List Error) :
    (ofMany? errors).toList.flatMap unresolvedFields = errors.flatMap unresolvedFields := by
  have hleaves : ∀ errors : List Error, errors.flatMap unresolvedFields =
      (errors.flatMap leaves).flatMap unresolvedFields := by
    intro errors
    rw [List.flatMap_assoc]
    exact congrArg (List.flatMap · errors) (funext unresolvedFields_eq)
  rw [hleaves, leaves_ofMany?, ← hleaves]

/-- A single failure behind others is the last part of their report. -/
theorem parts_ofMany?_snoc (errors : List Error) {e : Error} (he : e.isPlain = true) :
    ∃ x, ofMany? (errors ++ [e]) = some x ∧ x.parts = errors.flatMap parts ++ [e] := by
  have hparts : e.parts = [e] := by
    cases e with
    | aggregate => cases he
    | _ => rfl
  have hall : (errors ++ [e]).flatMap parts = errors.flatMap parts ++ [e] := by
    rw [List.flatMap_append, List.flatMap_singleton, hparts]
  unfold ofMany?
  rw [hall]
  cases errors.flatMap parts with
  | nil => exact ⟨e, rfl, hparts⟩
  | cons x xs =>
    refine ⟨aggregate (x :: xs ++ [e]), ?_, rfl⟩
    cases xs <;> rfl

end Error

theorem Image.unresolvedFields_of_read {image : Image} {start stop : Nat} {e : Error}
    (h : image.read start stop = .error e) : e.unresolvedFields = [] := by
  unfold Image.read Image.checkRange at h
  split_ifs at h <;> cases h <;> rfl

/-! ## Fields that callbacks report -/

section Callbacks

variable {s t : Store} {c : CellId} {v : Datum} {account : List Incident} {errors : List Error}

/-- What a queue fails with is what one of its subscribers failed with. -/
theorem Executes.served_of_queue {waiting : List (Nat × Subscriber)}
    (h : Executes s (.queue c waiting v) account errors t) :
    ∀ e ∈ errors, ∃ id, .served c id v (some e) ∈ account := by
  induction waiting generalizing s account errors with
  | nil =>
    cases h with
    | effect he => simp [Job.effect?] at he
    | fault hf => simp [Job.fault?] at hf
    | nil => simp
  | cons q rest ih =>
    cases h with
    | effect he => simp [Job.effect?] at he
    | fault hf => simp [Job.fault?] at hf
    | @cons _ _ _ _ id _ _ _ first others errors' _ hfirst hrest =>
      intro e he
      obtain he | he := List.mem_append.1 he
      · have hlength := hfirst.length_errors_le (by simp)
        have hhead : errors'.head? = some e := by
          cases errors' with
          | nil => cases he
          | cons x xs =>
            obtain rfl : xs = [] := by simpa using hlength
            exact congrArg some (List.mem_singleton.1 he).symm
        exact ⟨id, hhead ▸ List.mem_append_right _ (.head _)⟩
      · obtain ⟨id', hserved⟩ := ih hrest e he
        exact ⟨id', List.mem_append_right _ (.tail _ hserved)⟩

/-- If no subscriber reports fields as unresolved, then settling the cell does not either. -/
theorem Store.unresolvedFields_of_settle {x : Error} (hi : s.load ≤ s.issued)
    (hraises : ∀ e, Start.Raises ⟨s, c, v⟩ e → e.unresolvedFields = [])
    (h : settle c v s = .error x t) : x.unresolvedFields = [] := by
  obtain ⟨account, errors, u, hexec, hrun⟩ := executed_settle c v hi
  rw [h] at hrun
  cases hexec' : hexec with
  | effect he => simp [Job.effect?] at he
  | fault hf =>
    cases hrun
    simp only [Job.fault?] at hf
    split at hf <;> cases hf
    rfl
  | @settle _ _ _ _ _ failures hv hqueue =>
    have hx : Error.ofMany? failures = some x := by
      cases hmany : Error.ofMany? failures with
      | none => simp [hmany, report] at hrun
      | some e => simp_all [report]
    have hnone : failures.flatMap Error.unresolvedFields = [] := by
      rw [List.flatMap_eq_nil_iff]
      intro e he
      obtain ⟨id, hserved⟩ := hqueue.served_of_queue e he
      exact hraises e ⟨account, _, u, c, id, v, hexec, hserved⟩
    have hfields := Error.unresolvedFields_ofMany? failures
    rw [hnone, hx] at hfields
    simpa using hfields

end Callbacks

/-! ## Verdicts -/

/-- How the turn of an entry ends. -/
inductive Verdict where
  | applied
  /-- The range of the entry holds a field that is still pending. -/
  | covered
  /-- The range of the entry is not known. -/
  | unbounded (start stop : Option Nat)
  | failed (e : Error)

namespace Verdict

def isApplied : Verdict → Bool
  | applied => true
  | _ => false

def isSkipped : Verdict → Bool
  | covered | unbounded .. => true
  | _ => false

def isFailed : Verdict → Bool
  | failed _ => true
  | _ => false

/-- The errors that are put down about the entry with the given number. -/
def errors (enforce : Bool) (index : Nat) : Verdict → List Error
  | applied | covered => []
  | unbounded start stop => if enforce then [.postProcessingRange index start stop] else []
  | failed e => [e]

end Verdict

/-- The outcome with one more verdict. -/
def Tally.add (tally : Tally) (enforce : Bool) (index : Nat) (verdict : Verdict) : Tally where
  applied := tally.applied + verdict.isApplied.toNat
  skipped := tally.skipped + verdict.isSkipped.toNat
  errors := tally.errors ++ verdict.errors enforce index

/-- The outcome with the verdicts on all entries from `index` on. -/
def Tally.addAll (tally : Tally) (enforce : Bool) (index : Nat) (verdicts : List Verdict) :
    Tally where
  applied := tally.applied + verdicts.countP Verdict.isApplied
  skipped := tally.skipped + verdicts.countP Verdict.isSkipped
  errors := tally.errors ++ (verdicts.zipIdx index).flatMap fun x => x.1.errors enforce x.2

theorem Tally.addAll_nil (tally : Tally) (enforce : Bool) (index : Nat) :
    tally.addAll enforce index [] = tally := by
  simp [addAll]

theorem Tally.addAll_cons (tally : Tally) (enforce : Bool) (index : Nat) (verdict : Verdict)
    (verdicts : List Verdict) : tally.addAll enforce index (verdict :: verdicts) =
      (tally.add enforce index verdict).addAll enforce (index + 1) verdicts := by
  simp only [addAll, add, List.countP_cons, List.zipIdx_cons, List.flatMap_cons,
    List.append_assoc, Tally.mk.injEq, and_true]
  have hcount : ∀ (b : Bool) (m n : Nat),
      m + (n + if b = true then 1 else 0) = m + b.toNat + n := by
    intro b m n
    cases b with
    | false => simp
    | true =>
      rw [if_pos rfl, Bool.toNat_true]
      omega
  exact ⟨hcount .., hcount ..⟩

namespace Layout

def verdict (l : Layout) (e : Entry) (s : Store) : Verdict :=
  match bounds e s with
  | (some start, some stop) =>
    if (l.pending s).any (·.overlaps start stop) then .covered
    else
      match l.applyEntry e start stop s with
      | .ok .. => .applied
      | .error x _ => .failed x
  | (start, stop) => .unbounded start stop

/-- The verdicts on the entries from `index` on, each at its turn. -/
def verdicts (l : Layout) (enforce : Bool) (index : Nat) (entries : List Entry) (s : Store) :
    List Verdict :=
  (l.turns enforce index entries s).map fun turn => l.verdict turn.1 turn.2

variable {l : Layout} {s : Store} {enforce : Bool} {index : Nat}

theorem runEntry_eq (l : Layout) (enforce : Bool) (index : Nat) (e : Entry) (tally : Tally)
    (s : Store) : l.runEntry enforce index e tally s =
      .ok (tally.add enforce index (l.verdict e s)) ((l.runEntry enforce index e {}).after s) := by
  unfold after verdict
  rw [runEntry_run, runEntry_run]
  rcases bounds e s with ⟨_ | start, _ | stop⟩
  case some.some =>
    dsimp only
    split_ifs
    · simp [Tally.add, Verdict.isApplied, Verdict.isSkipped, Verdict.errors]
    · cases l.applyEntry e start stop s <;>
        simp [Tally.add, Verdict.isApplied, Verdict.isSkipped, Verdict.errors]
  all_goals
    cases enforce <;> simp [Tally.add, Verdict.isApplied, Verdict.isSkipped, Verdict.errors]

/-- The outcome of the entries is made of the verdicts on them, one after another. -/
theorem runEntries_eq (l : Layout) (enforce : Bool) (index : Nat) (entries : List Entry)
    (tally : Tally) (s : Store) : ∃ u, l.runEntries enforce index entries tally s =
      .ok (tally.addAll enforce index (l.verdicts enforce index entries s)) u := by
  induction entries generalizing index tally s with
  | nil => exact ⟨s, congrArg (EStateM.Result.ok · s) (tally.addAll_nil enforce index).symm⟩
  | cons e rest ih =>
    obtain ⟨u, hrest⟩ := ih (index + 1) (tally.add enforce index (l.verdict e s))
      ((l.runEntry enforce index e {}).after s)
    refine ⟨u, (bind_eq_ok.2 ⟨_, _, runEntry_eq l enforce index e tally s, hrest⟩).trans ?_⟩
    rw [verdicts, verdicts, turns, List.map_cons, Tally.addAll_cons]

/-- An entry without known bounds gives one error in strict mode, with its number, and no error in
tolerant mode. -/
theorem errors_of_unbounded {e : Entry} {start stop : Option Nat}
    (hb : bounds e s = (start, stop)) (hnone : start = none ∨ stop = none) :
    (l.verdict e s).errors enforce index =
      if enforce then [.postProcessingRange index start stop] else [] := by
  unfold verdict
  rw [hb]
  rcases hnone with rfl | rfl
  · rfl
  · cases start <;> rfl

/-- An entry whose turn starts a dispatch without reports of unresolved fields has none either. -/
theorem unresolvedFields_of_verdict {e : Entry} (h : Valid s [])
    (hraises : ∀ x ∈ l.entryStarts e s, ∀ y, x.Raises y → y.unresolvedFields = []) :
    ∀ x ∈ (l.verdict e s).errors enforce index, x.unresolvedFields = [] := by
  unfold verdict
  rcases hb : bounds e s with ⟨_ | start, _ | stop⟩
  case some.some =>
    dsimp only
    split_ifs with hcovered
    · simp [Verdict.errors]
    · cases happly : l.applyEntry e start stop s with
      | ok => simp [Verdict.errors]
      | error y u =>
        refine List.forall_mem_singleton.2 ?_
        cases hread : (s.image l.image).read start stop with
        | error z =>
          simp only [applyEntry, bind_run, get_run, hread, ofExcept_error_run] at happly
          cases happly
          exact Image.unresolvedFields_of_read hread
        | ok bytes =>
          simp only [applyEntry, settleOrConfirm, bind_run, get_run, hread,
            ofExcept_ok_run] at happly
          split_ifs at happly with hholds
          · cases happly
          · refine unresolvedFields_of_settle h.load (hraises ⟨_, _, _⟩ ?_) happly
            simp [entryStarts, hb, hcovered, hread, confirmStarts, hholds]
  all_goals cases enforce <;> simp [Verdict.errors, Error.unresolvedFields]

theorem unresolvedFields_of_turns {entries : List Entry} (h : Valid s [])
    (hw : ∀ e ∈ entries, e.Within s.cells.size)
    (hraises : ∀ x ∈ (l.turns enforce index entries s).flatMap
      fun turn => l.entryStarts turn.1 turn.2, ∀ y, x.Raises y → y.unresolvedFields = []) :
    (((l.verdicts enforce index entries s).zipIdx index).flatMap
      fun x => x.1.errors enforce x.2).flatMap Error.unresolvedFields = [] := by
  induction entries generalizing index s with
  | nil => rfl
  | cons e rest ih =>
    have hst : Steps (Move.Settles s.cells.size) s ((l.runEntry enforce index e {}).after s) :=
      steps_runEntry l enforce index {} h le_rfl (hw e (.head _))
    rw [turns, List.flatMap_cons] at hraises
    have hrest := ih (hst.valid h) (fun e he => (hw e (.tail _ he)).mono hst.grows.cells)
      fun x hx => hraises x (List.mem_append_right _ hx)
    have hfirst : ∀ x ∈ (l.verdict e s).errors enforce index,
        x.unresolvedFields = [] :=
      unresolvedFields_of_verdict h fun x hx => hraises x (List.mem_append_left _ hx)
    rw [verdicts, turns, List.map_cons, List.zipIdx_cons, List.flatMap_cons, List.flatMap_append]
    rw [List.flatMap_eq_nil_iff.2 hfirst]
    exact hrest

/-- Finalization succeeds if there is nothing to complain about, and reports all complaints
otherwise: those about entries and, if it is strict, about the fields that are still pending. -/
theorem finalizeObserved_cases (l : Layout) (config : FlattenConfig) (observer : Observer)
    (s : Store) :
    let tally := Tally.addAll {} config.enforceComplete 0
      (l.verdicts config.enforceComplete 0 l.entries s)
    let v := (l.runEntries config.enforceComplete 0 l.entries {}).after s
    (∃ w, l.finalizeObserved config observer s = .ok (l.summary tally v) w ∧
      Error.ofMany? (l.complaints config tally v) = none) ∨
    ∃ e w, l.finalizeObserved config observer s = .error e w ∧
      Error.ofMany? (l.complaints config tally v) = some e := by
  intro tally v
  obtain ⟨u, hentries⟩ := runEntries_eq l config.enforceComplete 0 l.entries {} s
  obtain rfl : v = u := after_of_ok hentries
  obtain ⟨log, trace, reports, hclose⟩ := close_run (s := v) l config observer tally
  have hrun : l.finalizeObserved config observer s = l.close config observer tally v := by
    rw [finalizeObserved, bind_run, hentries]
  rw [hrun, hclose, bind_run, raise]
  cases hmany : Error.ofMany? (l.complaints config tally v) with
  | none => exact .inl ⟨_, rfl, rfl⟩
  | some e => exact .inr ⟨e, _, rfl, rfl⟩

theorem map_fst_turns (l : Layout) (enforce : Bool) (index : Nat) (entries : List Entry)
    (s : Store) : (l.turns enforce index entries s).map Prod.fst = entries := by
  induction entries generalizing index s with
  | nil => rfl
  | cons e rest ih => rw [turns, List.map_cons, ih]

theorem length_verdicts (l : Layout) (enforce : Bool) (index : Nat) (entries : List Entry)
    (s : Store) : (l.verdicts enforce index entries s).length = entries.length := by
  rw [verdicts, List.length_map, ← List.length_map Prod.fst, map_fst_turns]

/-- A field that is still pending is reported as it was recorded when it was placed. -/
theorem pendingFields_recorded {t v : Store} (h : Grows t v)
    (hlast : l.last ≤ t.placeholders.size) :
    l.pendingFields v = ((l.placeholders t).toList.zip (l.placeholders v).toList).filterMap
      fun x => if x.2.patched then none else some x.1.report := by
  have hsame : List.Forall₂ (fun p q : Placeholder => q.report = p.report)
      (l.placeholders t).toList (l.placeholders v).toList := by
    have hlength : ∀ w : Store, l.last ≤ w.placeholders.size →
        (l.placeholders w).toList.length = l.last - l.first := by
      intro w hw
      rw [placeholders, Array.length_toList, Array.size_extract, Nat.min_eq_left hw]
    have ht := hlength t hlast
    refine List.forall₂_iff_get.2 ⟨ht.trans (hlength v (hlast.trans h.placeholders)).symm,
      fun k hk hk' => ?_⟩
    simp only [placeholders, List.get_eq_getElem, Array.getElem_toList, Array.getElem_extract]
    have hp : l.first + k < t.placeholders.size :=
      (Nat.add_lt_of_lt_sub' (ht ▸ hk)).trans_le hlast
    obtain ⟨b, hb⟩ := h.fields (l.first + k) _ (Array.getElem?_eq_getElem hp)
    rw [(Array.getElem?_eq_some_iff.1 hb).2]
    rfl
  rw [pendingFields, pending]
  generalize (l.placeholders t).toList = ps at hsame
  generalize (l.placeholders v).toList = qs at hsame
  induction hsame with
  | nil => rfl
  | @cons p q ps qs hreport _ ih =>
    rw [List.zip_cons_cons, List.filterMap_cons, ← ih]
    cases hq : q.patched <;> simp [hq, hreport]

end Layout

/-- Every turn ends in one way. -/
theorem Verdict.count (verdicts : List Verdict) :
    verdicts.countP isApplied + verdicts.countP isSkipped + verdicts.countP isFailed =
      verdicts.length := by
  induction verdicts with
  | nil => rfl
  | cons verdict rest ih =>
    rw [List.length_cons, ← ih, List.countP_cons, List.countP_cons, List.countP_cons]
    cases verdict <;> simp [isApplied, isSkipped, isFailed] <;> omega

/-- What finalization reports. The fields that are still unpatched after post-processing come as
they were recorded, in the order in which they were placed. They are part of the summary, or if
finalization is strict of the error, behind the errors of the entries; and if no callback reports
unresolved fields of its own, then the error has no others. Every entry counts as applied or skipped,
unless its callbacks fail: this shows in the error, too, except for the empty aggregate. An entry
without known bounds is an error with its number, or none if finalization is tolerant. -/
theorem finalization_accounts {before later : List Call} {s t u : Store} {r : Region} {i : ImageId}
    {l : Layout} {observer : Observer} (config : FlattenConfig) (observer' : Observer)
    (hbefore : Run {} before s) (hi : i < s.images.size) (hw : r.Within s.cells.size)
    (hlayout : r.layoutObserved i observer s = .ok l t) (hlater : Run t later u) :
    let strict := config.enforceComplete
    let v := (l.runEntries strict 0 l.entries {}).after u
    let turns := l.turns strict 0 l.entries u
    let verdicts := l.verdicts strict 0 l.entries u
    let errors := verdicts.zipIdx.flatMap fun x => x.1.errors strict x.2
    let unresolved := l.pendingFields v
    let complaints := errors ++ if !unresolved.isEmpty && strict then [.unresolved unresolved] else []
    let result := l.finalizeObserved config observer' u
    turns.map Prod.fst = r.entries ∧
    (unresolved = ((l.placeholders t).toList.zip (l.placeholders v).toList).filterMap
      fun x => if x.2.patched then none else some x.1.report) ∧
    ((∃ summary w, result = .ok summary w ∧ Error.ofMany? complaints = none) ∨
      ∃ e w, result = .error e w ∧ Error.ofMany? complaints = some e) ∧
    (∀ summary w, result = .ok summary w →
      summary.unresolved = unresolved ∧ (strict = true → unresolved = []) ∧
      summary.deferredFields = t.placeholders.size - s.placeholders.size ∧
      (∀ e, .failed e ∈ verdicts → e = .aggregate []) ∧
      summary.postProcessed + summary.skipped + verdicts.countP Verdict.isFailed =
        r.entries.length) ∧
    (strict = true → unresolved ≠ [] → ∃ e w, result = .error e w ∧
      e.parts = errors.flatMap Error.parts ++ [.unresolved unresolved] ∧
      ((∀ x ∈ l.starts config u, ∀ y, x.Raises y → y.unresolvedFields = []) →
        e.unresolvedFields = unresolved)) ∧
    ∀ k e w start stop, turns[k]? = some (e, w) → Layout.bounds e w = (start, stop) →
      start = none ∨ stop = none →
      (l.verdict e w).errors strict k =
        if strict then [.postProcessingRange k start stop] else [] := by
  intro strict v turns verdicts errors unresolved complaints result
  have hl := (Region.layoutObserved_eq_ok hlayout).2
  have hqueued : l.entries = r.entries := by rw [hl]
  have hst : Steps Move.Plain s t :=
    after_of_ok hlayout ▸ Region.steps_layoutObserved observer hbefore.valid hi hw
  have hvalid := hst.valid hbefore.valid
  have htu := hlater.steps (P := fun _ => True) hvalid fun _ _ _ _ => trivial
  have hentries : ∀ e ∈ l.entries, e.Within u.cells.size := by
    rw [hqueued]
    exact fun e he => (hw.entries e he).mono (hst.grows.cells.trans htu.grows.cells)
  have huv : Steps (Move.Settles u.cells.size) u v :=
    l.steps_runEntries strict 0 {} (htu.valid hvalid) le_rfl hentries
  have hcases := l.finalizeObserved_cases config observer' u
  refine ⟨hqueued ▸ l.map_fst_turns .., l.pendingFields_recorded (htu.grows.trans huv.grows)
    (by rw [hl]), hcases.imp_left fun h => ⟨_, h⟩, ?_, ?_, ?_⟩
  · intro summary w hok
    obtain ⟨w', hsuccess, hnone⟩ | ⟨e, w', herror, -⟩ := hcases
    · cases hok.symm.trans hsuccess
      refine ⟨rfl, fun hstrict => Layout.pendingFields_of_complaints hstrict hnone, by rw [hl]; rfl,
        fun e he => ?_, ?_⟩
      · obtain ⟨k, hk⟩ := List.mem_iff_getElem?.1 he
        refine Error.ofMany?_eq_none_iff.1 hnone e (List.mem_append_left _ (List.mem_flatMap.2
          ⟨(.failed e, k), List.mem_zipIdx_iff_getElem?.2 hk, .head _⟩))
      · have hcount := Verdict.count verdicts
        rw [Layout.length_verdicts, hqueued] at hcount
        simpa only [Layout.summary, Tally.addAll, Nat.zero_add] using hcount
    · cases hok.symm.trans herror
  · intro hstrict hmissing
    have hreported : complaints = errors ++ [.unresolved unresolved] := by
      simp [complaints, hstrict, hmissing]
    obtain ⟨e, hmany, hparts⟩ := Error.parts_ofMany?_snoc errors (e := .unresolved unresolved) rfl
    rw [← hreported] at hmany
    obtain ⟨w, -, hnone⟩ | ⟨e', w, herror, hsome⟩ := hcases
    · cases hnone.symm.trans hmany
    · cases hsome.symm.trans hmany
      refine ⟨e, w, herror, hparts, fun hraises => ?_⟩
      have hquiet : errors.flatMap Error.unresolvedFields = [] :=
        Layout.unresolvedFields_of_turns (htu.valid hvalid) hentries hraises
      have hfields := Error.unresolvedFields_ofMany? complaints
      rw [hmany, hreported, List.flatMap_append, hquiet] at hfields
      simpa [Error.unresolvedFields] using hfields
  · intro k e w start stop _ hb hnone
    exact Layout.errors_of_unbounded hb hnone

/-- If one callback waits that fails, then this is what comes up. -/
theorem Start.Raises.eq_of_fail {s : Store} {c : CellId} {v : Datum} {n : Nat} {e y : Error}
    (h : Start.Raises ⟨s, c, v⟩ y) (hv : s.value? c = none)
    (hqueue : (s.cell c).queue = [(n, .act (.fail e))]) : y = e := by
  obtain ⟨account, errors, t, d, id, w, hexec, hserved⟩ := h
  have hfail : Executes s (.settle c v) ([.raised e] ++ [.served c n v (some e)])
      (Error.ofMany? [e]).toList (s.delivered c v) := by
    refine .settle hv ?_
    rw [hqueue]
    exact .cons (.callback (.fault rfl)) .nil
  rw [(hexec.unique hfail).1] at hserved
  obtain hserved | hserved := List.mem_append.1 hserved
  · cases List.mem_singleton.1 hserved
  · exact Option.some.inj (Incident.served.inj (List.mem_singleton.1 hserved)).2.2.2

/-- The bytes between two marks are counted, and a callback waits for the result. Behind them stands a
field whose value never comes, and a second range has no end. -/
def reportCalls (e : Error) : List Call :=
  [.newCell (.int .i64) none true, .newCell .offset none false, .newCell .offset none false,
    .newCell (.int .i64) none false, .newCell .offset none false, .newCell (.int .i64) none true,
    .onResolve 0 (.fail e), .newImage]

def reportStore (e : Error) : Store := (reportCalls e).foldl (fun s call => call.run.after s) {}

def countedRegion : Region :=
  ⟨[.mark 1, .direct [5] {}, .mark 2, .postProcess ⟨1, 2, fun bs => .int bs.length, 0⟩]⟩

def reportRegion : Region :=
  ⟨countedRegion.segments ++ [.deferred (.int .u8) 3 (some "late"),
    .postProcess ⟨1, 4, fun bs => .int bs.length, 5⟩]⟩

theorem reportStore_run (e : Error) : Run {} (reportCalls e) (reportStore e) :=
  .cons trivial (.cons trivial (.cons trivial (.cons trivial (.cons trivial (.cons trivial
    (.cons ⟨show 0 < _ by decide, trivial⟩ (.cons trivial (.nil _))))))))

/-- The region is laid out; its last field is placed and waits. -/
def reportLaid (e : Error) : Store := (reportRegion.layoutObserved 0 .silent).after (reportStore e)

def reportLayout : Layout := ⟨0, 0, 1, reportRegion.entries⟩

theorem finalization_accounts_late :
    ∃ e w, reportRegion.layoutObserved 0 .silent (reportStore (.invalidText "sum")) =
        .ok reportLayout (reportLaid (.invalidText "sum")) ∧
      (∀ x ∈ reportLayout.starts .strict (reportLaid (.invalidText "sum")), ∀ y, x.Raises y →
        y.unresolvedFields = []) ∧
      reportLayout.finalizeObserved .strict .silent (reportLaid (.invalidText "sum")) =
        .error e w ∧
      e.parts.map Error.message = [.invalidText "sum", .postProcessingRange 1 (some 0) none,
        .unresolved [⟨1, 1, some "late"⟩]].map Error.message ∧
      e.unresolvedFields = [⟨1, 1, some "late"⟩] := by
  have hwithin : reportRegion.Within (reportStore (.invalidText "sum")).cells.size := by
    have hsize : (reportStore (.invalidText "sum")).cells.size = 6 := by decide +kernel
    simp [reportRegion, countedRegion, Region.Within, Segment.WithinAll, Segment.Within,
      Entry.Within, hsize]
  have hlayout : reportRegion.layoutObserved 0 .silent (reportStore (.invalidText "sum")) =
      .ok reportLayout (reportLaid (.invalidText "sum")) := rfl
  have hquiet : ∀ x ∈ reportLayout.starts .strict (reportLaid (.invalidText "sum")), ∀ y,
      x.Raises y → y.unresolvedFields = [] := by
    have hstarts : reportLayout.starts .strict (reportLaid (.invalidText "sum")) =
        [⟨reportLaid (.invalidText "sum"), 0, .int 1⟩] := rfl
    rw [hstarts]
    intro x hx y hraises
    obtain rfl := List.mem_singleton.1 hx
    obtain rfl := hraises.eq_of_fail (by decide +kernel) (n := 1) rfl
    rfl
  obtain ⟨-, -, -, -, hstrict, -⟩ := finalization_accounts .strict .silent
    (reportStore_run (.invalidText "sum")) (by decide +kernel) hwithin hlayout (.nil _)
  obtain ⟨e, w, herror, hparts, hfields⟩ := hstrict rfl (by decide +kernel)
  have hunresolved : reportLayout.pendingFields ((reportLayout.runEntries true 0
      reportLayout.entries {}).after (reportLaid (.invalidText "sum"))) =
        [⟨1, 1, some "late"⟩] := by decide +kernel
  refine ⟨e, w, hlayout, hquiet, herror, ?_, (hfields hquiet).trans hunresolved⟩
  rw [hparts]
  decide +kernel

def hollowReport : Error := .aggregate [.aggregate []]

def countedLaid : Store := (countedRegion.layoutObserved 0 .silent).after (reportStore hollowReport)

def countedLayout : Layout := ⟨0, 0, 0, countedRegion.entries⟩

/-- A callback fails with an aggregate that holds an empty one. The entry that set it off counts
neither as applied nor as skipped, and strict finalization succeeds. -/
theorem hollow_entry_uncounted :
    Run {} (reportCalls hollowReport) (reportStore hollowReport) ∧
    countedRegion.layoutObserved 0 .silent (reportStore hollowReport) =
      .ok countedLayout countedLaid ∧
    (∀ x ∈ countedLayout.starts .strict countedLaid, ∀ y, x.Raises y → y.unresolvedFields = []) ∧
    countedRegion.entries.length = 1 ∧
    ∃ summary w, countedLayout.finalizeObserved .strict .silent countedLaid = .ok summary w ∧
      summary.postProcessed + summary.skipped = 0 := by
  refine ⟨reportStore_run hollowReport, rfl, ?_, rfl, ?_⟩
  · have hstarts : countedLayout.starts .strict countedLaid = [⟨countedLaid, 0, .int 1⟩] := rfl
    rw [hstarts]
    intro x hx y hraises
    obtain rfl := List.mem_singleton.1 hx
    obtain rfl := hraises.eq_of_fail (by decide +kernel) (n := 1) rfl
    rfl
  · obtain ⟨w, hok, -⟩ | ⟨e, w, -, hsome⟩ :=
      countedLayout.finalizeObserved_cases .strict .silent countedLaid
    · exact ⟨_, w, hok, by decide +kernel⟩
    · exact absurd (Option.isSome_of_eq_some hsome) (by decide +kernel)

end Backpatch

import Mathlib
import Backpatch.Proofs.Waiting
import Backpatch.Proofs.Stability

/-!
# Digests stay valid

An entry is applied at its turn if its bounds are known, no pending placeholder of its layout has a
byte in its range, and its digest is taken over as its result (`Layout.applies`). From then on
nothing changes a byte of that range: a field whose patch is still to come is not patched, and so
stands apart from the range. The result of the entry is then the digest of the final bytes
(`Layout.Attested`).
-/

namespace Backpatch

open Store Failable

/-! ## Ranges that no patch can reach -/

/-- The range is in the image, and every field that is not patched stands apart from it. -/
structure Sealed (s : Store) (i : ImageId) (a n : Nat) : Prop where
  inside : a + n ≤ (s.image i).size
  apart : ∀ (f : FieldId) (p : Placeholder), s.placeholders[f]? = some p → p.image = i →
    p.patched = false → a + n ≤ p.offset ∨ p.offset + p.width ≤ a

section Sealed

variable {s t : Store} {task : Task} {ts k : List Task} {i : ImageId} {a n : Nat}

theorem Sealed.step (hr : Reacts s task t ts) (h : Sealed s i a n) : Sealed t i a n where
  inside := h.inside.trans (hr.grows.sizes i)
  apart f p hp hpi hpatched := by
    obtain ⟨q, b, hq, rfl⟩ | ⟨j, format, c, label, -, -, -, -, rfl⟩ := hr.placeholder_cases hp
    · exact h.apart f q hq hpi (Bool.or_eq_false_iff.1 hpatched).1
    · obtain rfl : j = i := hpi
      exact .inl h.inside

/-- Only a field that is not patched can be patched, so the bytes of the range stay. -/
theorem Sealed.slice_step (ho : Once s (task :: k)) (hr : Reacts s task t ts)
    (hw : ∀ o bs note, task ≠ .move (.overwrite i o bs note)) (h : Sealed s i a n) :
    (t.image i).slice a n = (s.image i).slice a n := by
  refine hr.slice_eq h.inside hw ?_
  rintro c f v p rfl hp hpi
  exact h.apart f p hp hpi (ho.patch.2 p hp)

theorem Sealed.slice_eq {P : Move → Prop} (hst : Steps P s t)
    (hP : ∀ m, P m → ∀ o bs note, m ≠ .overwrite i o bs note) (hv : Valid s []) (ho : Once s [])
    (h : Sealed s i a n) : (t.image i).slice a n = (s.image i).slice a n := by
  refine (hst.invariant (I := fun u tasks => (Valid u tasks ∧ Once u tasks ∧ Sealed u i a n) ∧
    (∀ m, .move m ∈ tasks → P m) ∧ (u.image i).slice a n = (s.image i).slice a n)
    (fun hm hi => ⟨⟨hi.1.1.start _, hi.1.2.1.start _, hi.1.2.2⟩, by simpa using hm, hi.2.2⟩)
    (fun {u task v ts k} hr hi => ?_) ⟨⟨hv, ho, h⟩, by simp, rfl⟩).2.2
  obtain ⟨⟨hv, ho, hsealed⟩, hmoves, hslice⟩ := hi
  refine ⟨⟨Valid.step hr hv, Once.step hv hr ho, hsealed.step hr⟩, ?_, ?_⟩
  · exact fun m hm => hmoves m (hr.move_mem hm)
  · refine (hsealed.slice_step ho hr ?_).trans hslice
    rintro o bs note rfl
    exact hP _ (hmoves _ (.head k)) o bs note rfl

end Sealed

theorem Image.read_eq_ok {image : Image} {start stop : Nat} {bytes : Bytes}
    (h : image.read start stop = .ok bytes) :
    start ≤ stop ∧ stop ≤ image.size ∧ bytes = image.slice start (stop - start) := by
  unfold Image.read at h
  split_ifs at h with hlt
  · cases h
  · unfold Image.checkRange at h
    split_ifs at h with hrange
    · cases h
      refine ⟨by omega, by omega, ?_⟩
      rw [Image.slice, Image.bytes, Array.toList_extract, List.extract_eq_take_drop]
    · cases h

/-- Whether an operation succeeds in the given state. -/
def Failable.isOk {σ α : Type} (x : Failable σ α) (s : σ) : Bool :=
  match x s with
  | .ok .. => true
  | .error .. => false

theorem Failable.isOk_of_ok {σ α : Type} {x : Failable σ α} {s t : σ} {a : α}
    (h : x s = .ok a t) : isOk x s = true := by
  simp [isOk, h]

theorem Failable.isOk_of_error {σ α : Type} {x : Failable σ α} {s t : σ} {e : Error}
    (h : x s = .error e t) : isOk x s = false := by
  simp [isOk, h]

namespace Layout

/-- The entry is applied in this store: its bounds are known, no pending placeholder of the layout
is in its range, and its result can be the digest of that range. -/
def applies (l : Layout) (e : Entry) (s : Store) : Bool :=
  match bounds e s with
  | (some start, some stop) => !(l.pending s).any (·.overlaps start stop) &&
    Failable.isOk (l.applyEntry e start stop) s
  | _ => false

/-- The turns at which a finalization applies an entry. -/
def appliedTurns (l : Layout) (enforce : Bool) (s : Store) : List (Entry × Store) :=
  (l.turns enforce 0 l.entries s).filter fun turn => l.applies turn.1 turn.2

/-- No other layout has fields in the image of this one. -/
def Sole (l : Layout) (s : Store) : Prop :=
  ∀ (f : FieldId) (p : Placeholder), s.placeholders[f]? = some p → p.image = l.image →
    l.first ≤ f ∧ f < l.last

/-- The entry was applied in the store `u` with the given bounds: at that moment no byte of its
range belonged to a pending placeholder. In the later store `t` its range is the same, and so are
the bytes there, and its result is their digest, or a value that counts as equal. -/
structure Attested (l : Layout) (e : Entry) (u t : Store) (start stop : Nat) : Prop where
  bounds : bounds e u = (some start, some stop)
  inside : start ≤ stop ∧ stop ≤ (u.image l.image).size
  clear : ∀ p ∈ l.pending u, ∀ k, start ≤ k → k < stop → ¬ (p.offset ≤ k ∧ k < p.offset + p.width)
  lasting : Layout.bounds e t = (some start, some stop)
  bytes : (t.image l.image).slice start (stop - start) =
    (u.image l.image).slice start (stop - start)
  result : ∃ v, t.value? e.result = some v ∧
    (v = e.digest ((t.image l.image).slice start (stop - start)) ∨
      v.same (e.digest ((t.image l.image).slice start (stop - start))) = true)

/-- Every entry that a finalization applied, which began in `s` and led to `t`, is attested. -/
def Attests (l : Layout) (config : FlattenConfig) (s t : Store) : Prop :=
  ∀ turn ∈ l.appliedTurns config.enforceComplete s,
    ∃ start stop, l.Attested turn.1 turn.2 t start stop

variable {l : Layout} {e : Entry} {s t u : Store} {tally tally' : Tally} {index : Nat}
  {enforce : Bool}

/-! ## Counting applied entries -/

theorem runEntry_applied (hrun : l.runEntry enforce index e tally s = .ok tally' u) :
    tally'.applied = tally.applied + if l.applies e s then 1 else 0 := by
  rw [runEntry_run] at hrun
  unfold applies
  rcases hb : Layout.bounds e s with ⟨_ | start, _ | stop⟩
  case some.some =>
    simp only [hb] at hrun ⊢
    by_cases hcovered : (l.pending s).any (·.overlaps start stop) = true
    · rw [if_pos hcovered] at hrun
      cases hrun
      simp [hcovered]
    · rw [if_neg hcovered] at hrun
      cases happly : l.applyEntry e start stop s with
      | ok _ t =>
        simp only [happly] at hrun
        cases hrun
        simp [hcovered, isOk_of_ok happly]
      | error x t =>
        simp only [happly] at hrun
        cases hrun
        simp [isOk_of_error happly]
  all_goals
    simp only [hb] at hrun
    split_ifs at hrun <;> cases hrun <;> rfl

theorem runEntries_applied {entries : List Entry}
    (hrun : l.runEntries enforce index entries tally s = .ok tally' u) :
    tally'.applied = tally.applied +
      ((l.turns enforce index entries s).filter fun turn => l.applies turn.1 turn.2).length := by
  induction entries generalizing index tally s with
  | nil =>
    cases hrun
    simp [turns]
  | cons e rest ih =>
    obtain ⟨mid, t, hturn, hrest⟩ := bind_eq_ok.1 hrun
    have hafter : (l.runEntry enforce index e {}).after s = t := by
      rw [← after_runEntry enforce tally, after_of_ok hturn]
    rw [ih hrest, runEntry_applied hturn, turns, hafter, List.filter_cons]
    split_ifs
    · simp only [List.length_cons]
      omega
    · omega

/-! ## Applied entries -/

theorem applies_cases (h : l.applies e s = true) :
    ∃ start stop u, Layout.bounds e s = (some start, some stop) ∧
      (∀ p ∈ l.pending s, p.overlaps start stop = false) ∧
      l.applyEntry e start stop s = .ok () u := by
  unfold applies at h
  rcases hb : Layout.bounds e s with ⟨_ | start, _ | stop⟩
  case some.some =>
    simp only [hb, Bool.and_eq_true, Bool.not_eq_true', List.any_eq_false,
      Bool.not_eq_true] at h
    cases happly : l.applyEntry e start stop s with
    | ok _ u => exact ⟨start, stop, u, rfl, h.1, happly⟩
    | error x u => simp [isOk_of_error happly] at h
  all_goals simp [hb] at h

/-- What an applied entry read, and what became of its digest. -/
theorem applyEntry_eq_ok {start stop : Nat} (h : l.applyEntry e start stop s = .ok () u) :
    start ≤ stop ∧ stop ≤ (s.image l.image).size ∧
      settleOrConfirm e.result (e.digest ((s.image l.image).slice start (stop - start))) s =
        .ok () u := by
  obtain ⟨s', u', hget, h⟩ := bind_eq_ok.1 h
  cases hget
  obtain ⟨bytes, u', hread, h⟩ := bind_eq_ok.1 h
  obtain ⟨hbytes, rfl⟩ := ofExcept_eq_ok.1 hread
  obtain ⟨hle, hsize, rfl⟩ := Image.read_eq_ok hbytes
  exact ⟨hle, hsize, h⟩

theorem after_runEntry_of_applyEntry {start stop : Nat}
    (hb : Layout.bounds e s = (some start, some stop))
    (hclear : ∀ p ∈ l.pending s, p.overlaps start stop = false)
    (h : l.applyEntry e start stop s = .ok () u) :
    (l.runEntry enforce index e tally).after s = u := by
  have hfree : ¬ (l.pending s).any (·.overlaps start stop) = true := by simpa using hclear
  unfold after
  rw [runEntry_run]
  simp only [hb, if_neg hfree, h]

/-- Where no other layout has fields, the range of an applied entry is out of reach for patches. -/
theorem Sole.isSealed {start stop : Nat} (h : l.Sole s) (hle : start ≤ stop)
    (hsize : stop ≤ (s.image l.image).size)
    (hclear : ∀ p ∈ l.pending s, p.overlaps start stop = false) :
    Sealed s l.image start (stop - start) where
  inside := by omega
  apart f p hp hpi hpatched := by
    obtain ⟨hfirst, hlast⟩ := h f p hp hpi
    have hfree := hclear p (mem_pending.2 ⟨f, hfirst, hlast, hp, hpatched⟩)
    simp only [Placeholder.overlaps, Bool.and_eq_false_iff, decide_eq_false_iff_not,
      not_lt] at hfree
    omega

theorem Sole.steps {P : Move → Prop} (h : l.Sole s) (hst : Steps P s t)
    (hP : ∀ m, P m → ¬ m.Draws) : l.Sole t := by
  intro f p hp hpi
  have hf : f < s.placeholders.size := by
    rw [← hst.size_placeholders hP]
    exact (Array.getElem?_eq_some_iff.1 hp).1
  obtain ⟨b, hb⟩ := hst.grows.fields f _ (Array.getElem?_eq_getElem hf)
  obtain rfl := Option.some.inj (hp.symm.trans hb)
  exact h f _ (Array.getElem?_eq_getElem hf) hpi

/-- Bounds that are known stay the same where no less is known. -/
theorem bounds_eq_some {n start stop : Nat} (hw : e.Within n)
    (h : Layout.bounds e s = (some start, some stop))
    (hvalues : ∀ c v, c < n → s.value? c = some v → t.value? c = some v) :
    Layout.bounds e t = (some start, some stop) := by
  have offset : ∀ c k, c < n → s.offset? c = some k → t.offset? c = some k := by
    intro c k hc hk
    obtain ⟨v, hv, ho⟩ := Option.bind_eq_some_iff.1 hk
    exact Option.bind_eq_some_iff.2 ⟨v, hvalues c v hc hv, ho⟩
  obtain ⟨hstart, hstop⟩ := Prod.mk.inj h
  exact Prod.ext (offset _ _ hw.1 hstart) (offset _ _ hw.2.1 hstop)

/-- The digest of an applied entry stays that of its range, whatever happens next. -/
theorem attested_of_applies (hl : Lasting s []) (ho : Once s []) (hsole : l.Sole s)
    (hw : e.Within s.cells.size) (ha : l.applies e s = true)
    (ht : Steps Move.Plain ((l.runEntry enforce index e tally).after s) t) :
    ∃ start stop, l.Attested e s t start stop := by
  obtain ⟨start, stop, u, hb, hclear, happly⟩ := applies_cases ha
  obtain ⟨hle, hsize, hsettle⟩ := applyEntry_eq_ok happly
  have hsu : Steps (Move.Settles s.cells.size) s u :=
    after_of_ok happly ▸ steps_applyEntry l start stop hl.toValid le_rfl hw
  rw [after_runEntry_of_applyEntry hb hclear happly] at ht
  have hst : Steps Move.Plain s t := (hsu.mono fun _ => Move.Settles.plain).trans ht
  have hvalues : ∀ c v, s.value? c = some v → t.value? c = some v :=
    fun c v => hst.value?_eq (fun _ hm => hm.lasting) hl
  have hslice := (hsole.isSealed hle hsize hclear).slice_eq hst
    (fun m hm o bs note heq => by rw [heq] at hm; exact hm.elim) hl.toValid ho
  refine ⟨start, stop, hb, ⟨hle, hsize⟩, ?_, bounds_eq_some hw hb fun c v _ => hvalues c v, hslice,
    ?_⟩
  · intro p hp k hstart hstop hin
    have hfree := hclear p hp
    simp only [Placeholder.overlaps, Bool.and_eq_false_iff, decide_eq_false_iff_not,
      not_lt] at hfree
    omega
  · rw [hslice]
    obtain ⟨-, -, hv⟩ | ⟨x, hx, hsame, rfl⟩ := settleOrConfirm_cases hl hw.2.2 hsettle
    · exact ⟨_, ht.value?_eq (fun _ hm => hm.lasting)
        (hsu.lasting (fun _ hm => hm.plain.lasting) hl) hv, .inl rfl⟩
    · exact ⟨x, hvalues _ x hx, .inr hsame⟩

theorem attested_of_turns {entries : List Entry} (hl : Lasting s []) (ho : Once s [])
    (hsole : l.Sole s) (hw : ∀ e ∈ entries, e.Within s.cells.size)
    (hrun : l.runEntries enforce index entries tally s = .ok tally' u)
    (hut : Steps Move.Plain u t) :
    ∀ turn ∈ l.turns enforce index entries s, l.applies turn.1 turn.2 = true →
      ∃ start stop, l.Attested turn.1 turn.2 t start stop := by
  induction entries generalizing index tally s with
  | nil => simp [turns]
  | cons e rest ih =>
    obtain ⟨mid, v, hturn, hrest⟩ := bind_eq_ok.1 hrun
    have hafter : (l.runEntry enforce index e {}).after s = v := by
      rw [← after_runEntry enforce tally, after_of_ok hturn]
    have hsv : Steps (Move.Settles s.cells.size) s v :=
      after_of_ok hturn ▸ steps_runEntry l enforce index tally hl.toValid le_rfl (hw e (.head _))
    have hv := hsv.lasting (fun _ hm => hm.plain.lasting) hl
    have hwv : ∀ e ∈ rest, e.Within v.cells.size :=
      fun e he => (hw e (.tail _ he)).mono hsv.grows.cells
    have hvu : Steps (Move.Settles v.cells.size) v u :=
      after_of_ok hrest ▸ steps_runEntries l enforce (index + 1) mid hv.toValid le_rfl hwv
    intro turn hmem ha
    rw [turns, hafter] at hmem
    obtain rfl | hmem := List.mem_cons.1 hmem
    · have hlater : Steps Move.Plain ((l.runEntry enforce index e {}).after s) t := by
        rw [hafter]
        exact (hvu.mono fun _ => Move.Settles.plain).trans hut
      exact attested_of_applies hl ho hsole (hw e (.head _)) ha hlater
    · exact ih hv (hsv.once hl.toValid ho) (hsole.steps hsv fun _ => Move.Settles.not_draws) hwv
        hrest turn hmem ha

/-- The outcome of a finalization: the entries ran, and the layout was closed. -/
theorem finalizeObserved_attests {config : FlattenConfig} (observer : Observer) (hl : Lasting s [])
    (ho : Once s []) (hsole : l.Sole s) (hw : ∀ e ∈ l.entries, e.Within s.cells.size)
    (ht : Steps Move.Closes ((l.finalizeObserved config observer).after s) t) :
    l.Attests config s t ∧
      ∀ summary u, l.finalizeObserved config observer s = .ok summary u →
        summary.postProcessed = (l.appliedTurns config.enforceComplete s).length := by
  obtain ⟨tally, u, hrun⟩ := runEntries_isOk l config.enforceComplete 0 l.entries {} s
  have hsu : Steps (Move.Settles s.cells.size) s u :=
    after_of_ok hrun ▸ steps_runEntries l _ 0 {} hl.toValid le_rfl hw
  have hclose := steps_close l config observer tally (hsu.valid hl.toValid)
  constructor
  · have hafter : (l.finalizeObserved config observer).after s =
        (l.close config observer tally).after u := by
      rw [finalizeObserved, after_bind, hrun]
    rw [hafter] at ht
    intro turn hturn
    obtain ⟨hturn, ha⟩ := List.mem_filter.1 hturn
    exact attested_of_turns hl ho hsole hw hrun ((hclose.trans ht).mono fun _ => Move.Closes.plain)
      turn hturn ha
  · intro summary v hfinal
    obtain ⟨tally', u', hrun', -, rfl, -⟩ := finalizeObserved_eq_ok hl.toValid hw hfinal
    cases hrun.symm.trans hrun'
    exact (runEntries_applied hrun).trans (Nat.zero_add _)

end Layout

theorem Run.once {calls : List Call} {s t : Store} (h : Run s calls t) (hv : Valid s [])
    (ho : Once s []) : Once t [] :=
  (h.steps (P := fun _ => True) hv fun _ _ _ _ => trivial).once hv ho

/-- Digests stay valid. Where values last and no other layout has fields in the image: when an entry
is applied, no byte of its range belongs to a pending placeholder, and after the finalization,
whether it succeeds or not, the result of the entry is the digest of the final bytes of its range.
The applied entries are those that a successful finalization counts. -/
theorem applied_digests_hold (config : FlattenConfig) (observer' : Observer)
    {before between : List Call} {s s₁ s₂ : Store} {r : Region} {i : ImageId} {observer : Observer}
    {l : Layout} (hbefore : Run {} before s) (hlasting : ∀ call ∈ before, call.Lasting)
    (hi : i < s.images.size) (hr : r.Within s.cells.size)
    (hlayout : r.layoutObserved i observer s = .ok l s₁) (hbetween : Run s₁ between s₂)
    (hkeeps : ∀ call ∈ between, call.Lasting) (hsole : l.Sole s₂) :
    (l.Attests config s₂ ((l.finalizeObserved config observer').after s₂) ∧
      ∀ summary t, l.finalizeObserved config observer' s₂ = .ok summary t →
        summary.postProcessed = (l.appliedTurns config.enforceComplete s₂).length) ∧
    (l.Sole s₁ → l.Attests config s₁ ((r.flattenObserved i config observer).after s) ∧
      ∀ summary t, r.flattenObserved i config observer s = .ok summary t →
        summary.postProcessed = (l.appliedTurns config.enforceComplete s₁).length) := by
  have hl := hbefore.lasting Lasting.empty hlasting
  have hs₁ : Steps Move.Plain s s₁ :=
    after_of_ok hlayout ▸ Region.steps_layoutObserved observer hl.toValid hi hr
  have hl₁ := hs₁.lasting (fun _ hm => hm.lasting) hl
  have hl₂ := hbetween.lasting hl₁ hkeeps
  have ho₁ := hs₁.once hl.toValid (hbefore.once Valid.empty Once.empty)
  have hs₂ : Steps Move.Lasting s₁ s₂ :=
    hbetween.steps hl₁.toValid fun call hc _ => (hkeeps call hc).makes
  have hentries : ∀ e ∈ l.entries, e.Within s₁.cells.size := by
    obtain ⟨-, rfl⟩ := Region.layoutObserved_eq_ok hlayout
    exact fun e he => (Segment.WithinAll.entries hr e he).mono hs₁.grows.cells
  refine ⟨?_, fun hsole₁ => ?_⟩
  · exact Layout.finalizeObserved_attests observer' hl₂ (hbetween.once hl₁.toValid ho₁) hsole
      (fun e he => (hentries e he).mono hs₂.grows.cells) (.refl _)
  · -- Flattening is laying out, finalizing, and a note at the end.
    have hflatten : Steps Move.Closes ((l.finalizeObserved config observer).after s₁)
        ((r.flattenObserved i config observer).after s) := by
      simp only [Region.flattenObserved, after_bind, hlayout]
      cases hfinal : l.finalizeObserved config observer s₁ with
      | error e t =>
        rw [after_of_error hfinal]
        exact .refl t
      | ok summary t =>
        rw [after_of_ok hfinal]
        exact steps_emit _ fun _ _ _ => trivial
    obtain ⟨hattests, hcount⟩ :=
      Layout.finalizeObserved_attests observer hl₁ ho₁ hsole₁ hentries hflatten
    refine ⟨hattests, fun summary t hrun => ?_⟩
    obtain ⟨l', u, v, hlayout', hfinal, -, -⟩ := Region.flattenObserved_eq_ok hrun
    cases hlayout.symm.trans hlayout'
    exact hcount summary v hfinal

/-! A sum inside of another one: the inner sum is a field in the range of the outer one, and the
outer sum a field in front of both ranges. -/

def nestedSumCalls : List Call :=
  [.newCell .offset none false, .newCell .offset none false, .newCell .offset none false,
    .newCell (.int .u8) none true, .newCell (.int .u8) none true, .tryMap 3 (.int .i64) .ok,
    .tryMap 4 (.int .i64) .ok, .onResolve 3 (.log "inner"), .newImage]

def nestedSumStore : Store := nestedSumCalls.foldl (fun s call => call.run.after s) {}

def nestedSumRegion : Region :=
  let sum (bytes : Bytes) : Datum := .int (Digest.sum8 bytes).toNat
  ⟨[.postProcess ⟨1, 2, sum, 3⟩, .postProcess ⟨0, 2, sum, 4⟩, .deferred (.int .u8) 6 none, .mark 0,
    .deferred (.int .u8) 5 none, .mark 1, .direct [1, 2] {}, .mark 2]⟩

theorem applied_digests_hold_nested :
    ∃ l u summary t, nestedSumRegion.layoutObserved 0 .silent nestedSumStore = .ok l u ∧
      nestedSumRegion.flattenObserved 0 .strict .silent nestedSumStore = .ok summary t ∧
      (t.image 0).bytes = [6, 3, 1, 2] ∧ summary.postProcessed = 2 ∧
      (l.appliedTurns true u).length = 2 ∧ l.Attests .strict u t := by
  have hrun : (match nestedSumRegion.flattenObserved 0 .strict .silent nestedSumStore with
      | .ok summary t => decide ((t.image 0).bytes = [6, 3, 1, 2] ∧ summary.postProcessed = 2)
      | .error .. => false) = true := by decide +kernel
  cases hflatten : nestedSumRegion.flattenObserved 0 .strict .silent nestedSumStore with
  | error e t => simp [hflatten] at hrun
  | ok summary t =>
    simp only [hflatten, decide_eq_true_eq] at hrun
    obtain ⟨l, u, v, hlayout, -, -, -⟩ := Region.flattenObserved_eq_ok hflatten
    have hbefore : Run {} nestedSumCalls nestedSumStore :=
      .cons trivial (.cons trivial (.cons trivial (.cons trivial (.cons trivial
        (.cons (show 3 < _ by decide +kernel) (.cons (show 4 < _ by decide +kernel)
          (.cons ⟨show 3 < _ by decide +kernel, trivial⟩ (.cons trivial (.nil _)))))))))
    have hwithin : nestedSumRegion.Within nestedSumStore.cells.size := by
      have hsize : nestedSumStore.cells.size = 7 := by decide +kernel
      simp [nestedSumRegion, Region.Within, Segment.WithinAll, Segment.Within, Entry.Within, hsize]
    have hsole : l.Sole u := by
      obtain ⟨-, rfl⟩ := Region.layoutObserved_eq_ok hlayout
      have hfirst : nestedSumStore.placeholders.size = 0 := by decide +kernel
      intro f p hp _
      exact ⟨hfirst ▸ Nat.zero_le f, (Array.getElem?_eq_some_iff.1 hp).1⟩
    obtain ⟨-, hholds⟩ := applied_digests_hold .strict .silent hbefore
      (by simp [nestedSumCalls, Call.Lasting, Action.Lasting]) (by decide +kernel) hwithin hlayout
      (.nil u) (by simp) hsole
    obtain ⟨hattests, hcount⟩ := hholds hsole
    rw [after_of_ok hflatten] at hattests
    exact ⟨l, u, summary, t, hlayout, rfl, hrun.1, hrun.2,
      (hcount summary t hflatten).symm.trans hrun.2, hattests⟩

end Backpatch

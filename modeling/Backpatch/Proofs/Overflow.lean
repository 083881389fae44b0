import Mathlib
import Backpatch.Proofs.Differences

/-!
# Overflowing differences

Both operands of a difference get their values and the difference itself is made, in any order. The
last of the three steps computes the difference. If it does not fit, the last step alone reports it,
both operands keep their values, and the cell of the difference, if there is one, never gets a value
(`overflow_reported_once`). This needs the other subscribers of the operands to leave these alone: a
callback that resolves the other operand forestalls the caller (`meddling_callback_forestalls`).
-/

namespace Backpatch

open Store Failable

namespace Subtraction

/-! ## The last step -/

/-- How the last step ends in `s`. If the difference fits, the step succeeds and the result holds
it. Otherwise the step fails for this reason, both operands keep their values, and a result that was
made before stays pending, whatever the caller does: only a region that marks it can settle it. -/
structure Concludes (m : Subtraction) (held results : List CellId) (last : Part) (s : Store) :
    Prop where
  fits : m.kind.holds (m.x - m.y) = true → ∃ t d, (m.call last).run s = .ok () t ∧ results = [d] ∧
    t.value? d = some (.int (m.x - m.y))
  overflow : m.kind.holds (m.x - m.y) = false → ∃ t,
    (m.call last).run s =
      .error (.valueOutOfRange (toString m.x ++ " - " ++ toString m.y) m.kind.name) t ∧
    t.value? m.minuend = some (.int m.x) ∧ t.value? m.subtrahend = some (.int m.y) ∧
    ∀ d ∈ results, ∀ later held' u, Program (results ++ held) t later held' u →
      (∀ use ∈ later, use.Marks (· ≠ d)) → u.value? d = none

section Last

variable {m : Subtraction} {known : CellId → Option Datum} {s t : Store} {d e : CellId}
  {held : List CellId} {id n : Nat}

theorem difference_of_fits (h : m.kind.holds (m.x - m.y) = true) :
    Datum.difference m.kind (.int m.x) (.int m.y) = .ok (.int (m.x - m.y)) := by
  simp [Datum.difference, IntKind.difference, h]

theorem difference_of_overflow (h : m.kind.holds (m.x - m.y) = false) :
    Datum.difference m.kind (.int m.x) (.int m.y) =
      .error (.valueOutOfRange (toString m.x ++ " - " ++ toString m.y) m.kind.name) := by
  simp [Datum.difference, IntKind.difference, h]

theorem Computed.concludes {last : Part}
    (h : m.Computed d n (Datum.difference m.kind (.int m.x) (.int m.y)) t [])
    (hrun : (m.call last).run s =
      (raise (failure? (Datum.difference m.kind (.int m.x) (.int m.y))).toList : Op Unit) t)
    (ht : Maintained t []) (hk : m.Known known t) (hx : known m.minuend = some (.int m.x))
    (hy : known m.subtrahend = some (.int m.y)) (hheld : ∀ c ∈ held, c < n) :
    m.Concludes held [d] last s where
  fits hfits := by
    rw [difference_of_fits hfits] at h hrun
    refine ⟨t, d, hrun, rfl, ?_⟩
    rw [value?, h.unreferenced.same]
  overflow hover := by
    rw [difference_of_overflow hover] at h hrun
    refine ⟨t, hrun, (hk.values _ (.head _)).trans hx,
      (hk.values _ (.tail _ (.head _))).trans hy, fun d' hd' later held' u hlater hmarks => ?_⟩
    obtain rfl := List.mem_singleton.1 hd'
    obtain ⟨O, hunsettleable, hd, hO⟩ := h.unsettleable
    refine (hlater.unsettleable (T := (· = d')) ht.valid (fun c hc ho => ?_) hmarks
      hunsettleable).pending
      d' hd
    obtain rfl | hc := List.mem_cons.1 hc
    · rfl
    · exact (hO c ho).resolve_right (Nat.not_le.2 (hheld c hc))

theorem Direct.concludes (hne : m.minuend ≠ m.subtrahend)
    (h : m.Direct d m.pending [(m.minuend, id, .minus d m.kind m.subtrahend)] s [])
    (hs : Maintained s []) (hk : m.Known known s) (ha : known m.minuend = none)
    (hb : known m.subtrahend = some (.int m.y)) (hheld : ∀ c ∈ held, c < n)
    (hundisturbed : m.Undisturbed [d] m.minuend (.int m.x) s) :
    m.Concludes held [d] .minuend s := by
  obtain ⟨t, hrun, ht, hk, hcomputed⟩ := h.resolve_last (n := n) hne hs hk ha hb hundisturbed
  exact hcomputed.concludes hrun ht hk (Function.update_self ..)
    ((Function.update_of_ne hne.symm ..).trans hb) hheld

theorem Nested.concludes (hne : m.minuend ≠ m.subtrahend)
    (h : m.Nested d e [(m.subtrahend, id, .derive e (Datum.difference m.kind (.int m.x)))] s [])
    (hn : n ≤ e) (hs : Maintained s []) (hk : m.Known known s)
    (ha : known m.minuend = some (.int m.x)) (hb : known m.subtrahend = none)
    (hheld : ∀ c ∈ held, c < n) (hundisturbed : m.Undisturbed [d] m.subtrahend (.int m.y) s) :
    m.Concludes held [d] .subtrahend s := by
  obtain ⟨t, hrun, ht, hk, hcomputed⟩ := h.resolve_last hn hs hk hb hundisturbed
  exact hcomputed.concludes hrun ht hk ((Function.update_of_ne hne ..).trans ha)
    (Function.update_self ..) hheld

theorem call_difference (h : Store.subtract m.kind m.minuend m.subtrahend s = .ok d t) :
    (m.call .difference).run s = .ok () t ∧ (Use.call (m.call .difference)).hands s = [d] := by
  constructor
  · simp [call, Call.run, h]
  · simp [call, Use.hands, Use.returned, h]

theorem concludes_difference (hk : m.Known known s) (ha : known m.minuend = some (.int m.x))
    (hb : known m.subtrahend = some (.int m.y)) :
    m.Concludes held ((Use.call (m.call .difference)).hands s) .difference s := by
  obtain ⟨hfits, hover⟩ := subtract_known hk ha hb
  refine ⟨fun h => ?_, fun h => ?_⟩
  · obtain ⟨d, t, hrun, hvalue⟩ := hfits _ (difference_of_fits h)
    exact ⟨t, d, (call_difference hrun).1, (call_difference hrun).2, hvalue⟩
  · have hrun := hover _ (difference_of_overflow h)
    refine ⟨s, by simp [call, Call.run, hrun], (hk.values _ (.head _)).trans ha,
      (hk.values _ (.tail _ (.head _))).trans hb, ?_⟩
    simp [call, Use.hands, Use.returned, hrun]

/-- A step that is taken leaves the operands there, and what it returns is new. -/
theorem exist_after (hs : Maintained s []) (hexist : ∀ c ∈ m.operands, c < s.cells.size)
    (part : Part) :
    Maintained ((m.call part).run.after s) [] ∧
      (∀ c ∈ m.operands, c < ((m.call part).run.after s).cells.size) ∧
      s.cells.size ≤ ((m.call part).run.after s).cells.size ∧
      ∀ d ∈ (Use.call (m.call part)).hands s, s.cells.size ≤ d := by
  have hadmissible : (Use.call (m.call part)).Admissible s := by
    cases part with
    | minuend => exact hexist _ (.head _)
    | subtrahend => exact hexist _ (.tail _ (.head _))
    | difference => exact ⟨hexist _ (.head _), hexist _ (.tail _ (.head _))⟩
  have hmarks : (Use.call (m.call part)).Marks fun _ => True := by
    cases part <;> trivial
  have hsteps := Use.steps hs.valid hadmissible
  exact ⟨(hs.steps hsteps).1, fun c hc => (hexist c hc).trans_le hsteps.grows.cells,
    hsteps.grows.cells, fun d hd => (Use.hands_new hs.valid hadmissible hmarks d hd).1⟩

end Last

/-! ## Where the difference is made -/

section Order

variable {m : Subtraction} {s : Store} {held : List CellId} {p q r : Part}

theorem hands_operand (h : p ≠ .difference) : (Use.call (m.call p)).hands s = [] := by
  cases p with
  | minuend | subtrahend => rfl
  | difference => exact absurd rfl h

/-- The difference is made before the operands have their values. -/
theorem made_first (hs : Maintained s []) (hheld : ∀ c ∈ held, c < s.cells.size)
    (hne : m.minuend ≠ m.subtrahend) (hk : m.Known (fun _ => none) s)
    (horder : [.difference, q, r].Nodup) :
    ∃ t d, (m.call .difference).run s = .ok () t ∧
      (Use.call (m.call .difference)).hands s = [d] ∧
      (m.StepUndisturbed [d] t q → ∃ u, (m.call q).run t = .ok () u ∧
        (m.StepUndisturbed [d] u r → m.Concludes held [d] r u)) := by
  obtain ⟨t, id, hsub, ht, hk, hdirect⟩ := subtract_direct hs hk rfl
  obtain ⟨hrun, hhands⟩ := call_difference hsub
  refine ⟨t, _, hrun, hhands, fun hq => ?_⟩
  cases q with
  | difference => simp at horder
  | minuend =>
    cases r with
    | difference | minuend => simp at horder
    | subtrahend =>
      obtain ⟨u, e, id, hrun, hu, hk, he, hnested⟩ := hdirect.resolve_first hne ht hk rfl rfl hq
      exact ⟨u, hrun, hnested.concludes hne he hu hk (Function.update_self ..)
        (Function.update_of_ne hne.symm ..) hheld⟩
  | subtrahend =>
    cases r with
    | difference | subtrahend => simp at horder
    | minuend =>
      obtain ⟨u, hrun, hu, hk, hdirect⟩ :=
        hdirect.resolve_other ht hk (.tail _ (.head _)) rfl (by simpa using hne) hq
      exact ⟨u, hrun, hdirect.concludes hne hu hk (Function.update_of_ne hne ..)
        (Function.update_self ..) hheld⟩

/-- The difference is made when one operand has its value. -/
theorem made_second (hs : Maintained s []) (hheld : ∀ c ∈ held, c < s.cells.size)
    (hne : m.minuend ≠ m.subtrahend) (hk : m.Known (fun _ => none) s)
    (horder : [p, .difference, r].Nodup)
    (hp : m.StepUndisturbed ((Use.call (m.call .difference)).hands ((m.call p).run.after s)) s p) :
    ∃ t u d, (m.call p).run s = .ok () t ∧ (m.call .difference).run t = .ok () u ∧
      (Use.call (m.call .difference)).hands t = [d] ∧
      (m.StepUndisturbed [d] u r → m.Concludes held [d] r u) := by
  obtain ⟨hafter, hexist, hsize, -⟩ := exist_after hs hk.exist p
  have hnew := (exist_after hafter hexist .difference).2.2.2
  cases p with
  | difference => simp at horder
  | minuend =>
    cases r with
    | difference | minuend => simp at horder
    | subtrahend =>
      obtain ⟨t, hrun, ht, hk⟩ := resolve_absent hs hk (.head _) rfl hnew hp
      rw [show (m.call .minuend).run.after s = t from after_of_ok hrun] at hsize
      obtain ⟨u, d, e, id, hsub, -, he, hu, hk, hnested⟩ := subtract_nested ht hk
        (Function.update_self ..) (Function.update_of_ne hne.symm ..)
      obtain ⟨hrun', hhands⟩ := call_difference hsub
      exact ⟨t, u, d, hrun, hrun', hhands, hnested.concludes hne (hsize.trans he) hu hk
        (Function.update_self ..) (Function.update_of_ne hne.symm ..) hheld⟩
  | subtrahend =>
    cases r with
    | difference | subtrahend => simp at horder
    | minuend =>
      obtain ⟨t, hrun, ht, hk⟩ := resolve_absent hs hk (.tail _ (.head _)) rfl hnew hp
      obtain ⟨u, id, hsub, hu, hk, hdirect⟩ := subtract_direct ht hk (Function.update_of_ne hne ..)
      obtain ⟨hrun', hhands⟩ := call_difference hsub
      exact ⟨t, u, _, hrun, hrun', hhands, hdirect.concludes hne hu hk
        (Function.update_of_ne hne ..) (Function.update_self ..) hheld⟩

/-- The difference is made when both operands have their values. -/
theorem made_last (hs : Maintained s []) (hne : m.minuend ≠ m.subtrahend)
    (hk : m.Known (fun _ => none) s) (horder : [p, q, .difference].Nodup) {results : List CellId}
    (hresults : results = (Use.call (m.call .difference)).hands
      ((m.call q).run.after ((m.call p).run.after s)))
    (hp : m.StepUndisturbed results s p)
    (hq : m.StepUndisturbed results ((m.call p).run.after s) q) :
    ∃ t u, (m.call p).run s = .ok () t ∧ (m.call q).run t = .ok () u ∧
      m.Concludes held ((Use.call (m.call .difference)).hands u) .difference u := by
  obtain ⟨hafter, hexist, -, -⟩ := exist_after hs hk.exist p
  obtain ⟨hafter', hexist', hsize, -⟩ := exist_after hafter hexist q
  have hnew := (exist_after hafter' hexist' .difference).2.2.2
  rw [← hresults] at hnew
  have hnew' := fun d hd => And.intro (hsize.trans (hnew d hd)) (hnew d hd)
  cases p with
  | difference => simp at horder
  | minuend =>
    cases q with
    | difference | minuend => simp at horder
    | subtrahend =>
      obtain ⟨t, u, hrun, hrun', hk⟩ := resolve_both hs hk (.head _) (.tail _ (.head _)) hne.symm
        hnew' hp hq
      exact ⟨t, u, hrun, hrun', concludes_difference hk
        ((Function.update_of_ne hne ..).trans (Function.update_self ..)) (Function.update_self ..)⟩
  | subtrahend =>
    cases q with
    | difference | subtrahend => simp at horder
    | minuend =>
      obtain ⟨t, u, hrun, hrun', hk⟩ := resolve_both hs hk (.tail _ (.head _)) (.head _) hne
        hnew' hp hq
      exact ⟨t, u, hrun, hrun', concludes_difference hk (Function.update_self ..)
        ((Function.update_of_ne hne.symm ..).trans (Function.update_self ..))⟩

theorem made_of_nodup (horder : [p, q, r].Nodup) :
    p = .difference ∨ q = .difference ∨ r = .difference := by
  cases p <;> cases q <;> cases r <;> simp at horder ⊢

end Order

end Subtraction

/-- Both operands of a difference get their values and the difference is made, in any order, while
the other subscribers of the operands succeed and leave the operands alone. Then the first two steps
succeed; the third one succeeds with the difference, or it alone reports that there is none. -/
theorem overflow_reported_once (m : Subtraction) {before : List Use} {held : List CellId}
    {s : Store} (hbefore : Program [] {} before held s) (hne : m.minuend ≠ m.subtrahend)
    (hplain : m.Known (fun _ => none) s) {p q r : Subtraction.Part} (horder : [p, q, r].Nodup) :
    let s₁ := (m.call p).run.after s
    let s₂ := (m.call q).run.after s₁
    let results := (Use.call (m.call p)).hands s ++ (Use.call (m.call q)).hands s₁ ++
      (Use.call (m.call r)).hands s₂
    m.StepUndisturbed results s p → m.StepUndisturbed results s₁ q →
    m.StepUndisturbed results s₂ r →
    (m.call p).run s = .ok () s₁ ∧ (m.call q).run s₁ = .ok () s₂ ∧
      m.Concludes held results r s₂ := by
  intro s₁ s₂ results hp hq hr
  obtain ⟨hs, hheld⟩ := hbefore.maintained .empty (by simp)
  obtain rfl | rfl | rfl := Subtraction.made_of_nodup horder
  · obtain ⟨t, d, hrun, hhands, hrest⟩ := Subtraction.made_first hs hheld hne hplain horder
    have hresults : results = [d] := by
      simp only [List.nodup_cons, List.mem_cons, not_or] at horder
      simp only [results, hhands, Subtraction.hands_operand (Ne.symm horder.1.1),
        Subtraction.hands_operand (Ne.symm horder.1.2.1), List.append_nil]
    rw [hresults] at hq hr ⊢
    obtain rfl : t = s₁ := (after_of_ok hrun).symm
    obtain ⟨u, hrun', hlast⟩ := hrest hq
    obtain rfl : u = s₂ := (after_of_ok hrun').symm
    exact ⟨hrun, hrun', hlast hr⟩
  · have hresults : results = (Use.call (m.call .difference)).hands s₁ := by
      simp only [List.nodup_cons, List.mem_cons, not_or] at horder
      simp only [results, Subtraction.hands_operand horder.1.1,
        Subtraction.hands_operand (Ne.symm horder.2.1.1), List.append_nil, List.nil_append]
    rw [hresults] at hp hr ⊢
    obtain ⟨t, u, d, hrun, hrun', hhands, hlast⟩ :=
      Subtraction.made_second hs hheld hne hplain horder hp
    obtain rfl : t = s₁ := (after_of_ok hrun).symm
    obtain rfl : u = s₂ := (after_of_ok hrun').symm
    rw [hhands] at hr ⊢
    exact ⟨hrun, hrun', hlast hr⟩
  · have hresults : results = (Use.call (m.call .difference)).hands s₂ := by
      simp only [List.nodup_cons, List.mem_cons, not_or] at horder
      simp only [results, Subtraction.hands_operand horder.1.2.1,
        Subtraction.hands_operand horder.2.1.1, List.nil_append]
    obtain ⟨t, u, hrun, hrun', hlast⟩ :=
      Subtraction.made_last hs hne hplain horder hresults hp hq
    obtain rfl : t = s₁ := (after_of_ok hrun).symm
    obtain rfl : u = s₂ := (after_of_ok hrun').symm
    exact ⟨hrun, hrun', hresults ▸ hlast⟩

/-! The minuend is less than the subtrahend, so their difference is no word without a sign.
Callbacks wait for both. -/

def shortSubtraction : Subtraction := ⟨.u8, 0, 1, 3, 5⟩

def loggedOperands : List Use :=
  [.call (.newCell (.int .u8) none false), .call (.newCell (.int .u8) none false),
    .call (.onResolve 0 (.log "minuend")), .call (.onResolve 1 (.log "subtrahend"))]

/-- Callbacks that log leave the operands alone. -/
theorem Subtraction.leavesOperands_log (m : Subtraction) (results : List CellId) (v : Datum)
    (number : Nat)
    (tag : String) (s : Store) : m.LeavesOperands results v ⟨number, .act (.log tag), s, none⟩ :=
  ⟨rfl, fun _ _ => rfl, fun _ _ _ hq _ => hq⟩

theorem overflow_reported_once_short :
    ∃ held s₁ s₂ s₃, Program [] {} loggedOperands held (runUses loggedOperands {}) ∧
      (shortSubtraction.call .difference).run (runUses loggedOperands {}) = .ok () s₁ ∧
      Store.resolve 0 (.int 3) s₁ = .ok () s₂ ∧
      Store.resolve 1 (.int 5) s₂ = .error (.valueOutOfRange "3 - 5" "u8") s₃ ∧
      s₃.value? 0 = some (.int 3) ∧ s₃.value? 1 = some (.int 5) ∧ s₃.value? 2 = none := by
  have hbefore : ∃ held, Program [] {} loggedOperands held (runUses loggedOperands {}) :=
    ⟨_, .cons trivial trivial (.cons trivial trivial (.cons ⟨show 0 < _ by decide, trivial⟩ trivial
      (.cons ⟨show 1 < _ by decide, trivial⟩ trivial (.nil _ _))))⟩
  obtain ⟨held, hbefore⟩ := hbefore
  have hplain : shortSubtraction.Known (fun _ => none) (runUses loggedOperands {}) :=
    ⟨by decide +kernel, by decide +kernel, by decide +kernel⟩
  let s₁ := (shortSubtraction.call .difference).run.after (runUses loggedOperands {})
  let s₂ := (shortSubtraction.call .minuend).run.after s₁
  have hfirst : shortSubtraction.StepUndisturbed [2] s₁ .minuend := by
    intro x hx
    have hqueue : (s₁.cell 0).queue = [(1, .act (.log "minuend")), (2, .minus 2 .u8 1)] := rfl
    change x ∈ servings (.int 3) (s₁.cell 0).queue _ at hx
    rw [hqueue] at hx
    obtain rfl | hx := List.mem_cons.1 hx
    · exact .inr (Subtraction.leavesOperands_log ..)
    · obtain rfl := List.mem_singleton.1 hx
      exact .inl ⟨2, rfl, .inl (.head _)⟩
  have hsecond : shortSubtraction.StepUndisturbed [2] s₂ .subtrahend := by
    intro x hx
    have hqueue : (s₂.cell 1).queue = [(1, .act (.log "subtrahend")),
        (2, .derive 3 (Datum.difference .u8 (.int 3)))] := rfl
    change x ∈ servings (.int 5) (s₂.cell 1).queue _ at hx
    rw [hqueue] at hx
    obtain rfl | hx := List.mem_cons.1 hx
    · exact .inr (Subtraction.leavesOperands_log ..)
    · obtain rfl := List.mem_singleton.1 hx
      exact .inl ⟨3, rfl, .inr ⟨(1, .derive 2 .ok), .head _, 2, .head _, rfl⟩⟩
  obtain ⟨hrun₁, hrun₂, hlast⟩ := overflow_reported_once shortSubtraction hbefore (by decide) hplain
    (p := .difference) (q := .minuend) (r := .subtrahend) (by simp) trivial hfirst hsecond
  obtain ⟨s₃, hrun₃, hx, hy, hlater⟩ := hlast.overflow (by decide)
  exact ⟨held, s₁, s₂, s₃, hbefore, hrun₁, hrun₂, hrun₃, hx, hy,
    hlater 2 (.head _) [] _ s₃ (.nil _ _) (by simp)⟩

/-! A callback of the minuend resolves the subtrahend. -/

def meddledSubtraction : Subtraction := ⟨.i64, 0, 1, 5, 3⟩

def meddledOperands : List Use :=
  [.call (.newCell (.int .i64) none false), .call (.newCell (.int .i64) none false),
    .call (.onResolve 0 (.resolve (.cell 1) { number := some 7 }))]

/-- The difference is made, and both the callback and the difference wait for the minuend. -/
def meddledStore : Store :=
  (meddledSubtraction.call .difference).run.after (runUses meddledOperands {})

/-- No subscriber of the operands fails, and the difference fits. Still the last step fails, because
a callback has resolved the subtrahend before. -/
theorem meddling_callback_forestalls :
    ∃ held t, Program [] {} meddledOperands held (runUses meddledOperands {}) ∧
      meddledSubtraction.Known (fun _ => none) (runUses meddledOperands {}) ∧
      meddledSubtraction.kind.holds (meddledSubtraction.x - meddledSubtraction.y) = true ∧
      (meddledSubtraction.call .difference).run (runUses meddledOperands {}) =
        .ok () meddledStore ∧
      (∀ x ∈ servings (.int 5) (meddledStore.cell 0).queue (meddledStore.delivered 0 (.int 5)),
        x.failure = none) ∧
      (meddledSubtraction.call .minuend).run meddledStore = .ok () t ∧
      (meddledStore.cell 1).queue = [] ∧ (t.cell 1).queue = [] ∧
      (meddledSubtraction.call .subtrahend).run t = .error (.alreadyResolved "7" "3") t := by
  have hbefore : ∃ held, Program [] {} meddledOperands held (runUses meddledOperands {}) :=
    ⟨_, .cons trivial trivial (.cons trivial trivial
      (.cons ⟨show 0 < _ by decide, show 1 < _ by decide⟩ trivial (.nil _ _)))⟩
  obtain ⟨held, hbefore⟩ := hbefore
  refine ⟨held, (meddledSubtraction.call .minuend).run.after meddledStore, hbefore,
    ⟨by decide +kernel, by decide +kernel, by decide +kernel⟩, by decide, rfl, fun x hx => ?_, rfl,
    rfl, rfl, rfl⟩
  have hqueue : (meddledStore.cell 0).queue =
    [(1, .act (.resolve (.cell 1) { number := some 7 })), (2, .minus 2 .i64 1)] := rfl
  rw [hqueue] at hx
  obtain rfl | hx := List.mem_cons.1 hx
  · rfl
  · obtain rfl := List.mem_singleton.1 hx
    rfl

end Backpatch

import Mathlib
import Backpatch.Proofs.Programs

/-!
# Derived values come from their sources

A cell that was returned as derived from others, and that no region marks, has a value only if its
sources have theirs, and then the one that its link gives. This holds in every store on the way of
every program that takes no value back. Marks and entries settle their cells without asking whether
these are derived, so a derived cell that a region marks can get a value that has nothing to do with
its sources.
-/

namespace Backpatch

open Store Failable

/-- How the cell that a call returns depends on others. -/
def Call.link? : Call → Option Link
  | .tryMap source _ f => some (.derive source f)
  | .tryBind source _ choose => some (.follow source choose)
  | .subtract kind minuend subtrahend => some (.minus kind minuend subtrahend)
  | _ => none

section Made

variable {held : List CellId} {s : Store} {call : Call} {link : Link} {t : CellId}

/-- A derived cell is guarded from the moment it is returned. -/
theorem Holding.made (h : Holding held s) (ha : call.Admissible s) (hlink : call.link? = some link)
    (ht : t ∈ (Use.call call).hands s) :
    link.Guarded (fun c => c ∈ t :: held ∧ c ≠ t) (call.run.after s) [] t := by
  have hM : ∀ c, c ∈ t :: held ∧ c ≠ t → c < s.cells.size := by
    rintro c ⟨hc, hne⟩
    exact h.exist c ((List.mem_cons.1 hc).resolve_left hne)
  have hfresh : ¬ (s.cells.size ∈ t :: held ∧ s.cells.size ≠ t) :=
    fun hsize => lt_irrefl _ (hM _ hsize)
  cases call with
  | tryMap source kind f =>
    cases hlink
    rw [Call.run, after_discard]
    exact (tryMap_sourced h.lasting ha hfresh (Use.hands_of_returned ht)).guarded
  | tryBind source kind choose =>
    cases hlink
    rw [Call.run, after_discard]
    exact tryBind_guarded h.lasting ha.1 ha.2 hfresh (Use.hands_of_returned ht)
  | subtract kind minuend subtrahend =>
    cases hlink
    rw [Call.run, after_discard]
    exact subtract_guarded h.lasting ha.1 ha.2 hM (Use.hands_of_returned ht)
  | _ => cases hlink

end Made

theorem Store.resolve_of_derived {s : Store} {c : CellId} (h : (s.cell c).derived = true)
    (w : Datum) : Store.resolve c w s = .error .derivedResolve s := by
  simp [Store.resolve, resolveBy, h]

/-- Derived values are driven by their sources. A caller runs any program that takes no value back,
derives a cell `t` from others, and goes on with any program that does not mark `t`. Then `t` has a
value only if its link gives one, and it is the same; no one can resolve `t` directly. That holds in
the end and in every store on the way of whatever comes next, while callbacks run. -/
theorem derived_cells_follow_sources {before after : List Use} {held held' : List CellId}
    {s u : Store} {call : Call} {link : Link} {t : CellId}
    (hbefore : Program [] {} before held s) (ha : call.Admissible s)
    (hlink : call.link? = some link) (ht : (Use.call call).hands s = [t])
    (hafter : Program (t :: held) (call.run.after s) after held' u)
    (hlasting : ∀ use ∈ before ++ after, use.Lasting) (hfree : ∀ use ∈ after, use.Marks (· ≠ t)) :
    (∀ w, u.value? t = some w → link.value u = some w) ∧
    (∀ w, Store.resolve t w u = .error .derivedResolve u) ∧
    ∀ use : Use, use.Admissible u → use.Lasting → use.Marks (fun c => c ∈ held' ∧ c ≠ t) →
      ∃ n, Passes (fun c => c ∈ held' ∧ c ≠ t) u n (use.run.after u) [] ∧
        ∀ v tasks, Passes (fun c => c ∈ held' ∧ c ≠ t) u n v tasks →
          ∀ w, v.value? t = some w → link.value v = some w := by
  have hs := hbefore.holding .empty fun use huse => hlasting use (List.mem_append_left _ huse)
  have hmade := hs.made ha hlink (ht ▸ List.mem_singleton_self t)
  have hs' : Holding (t :: held) (call.run.after s) := by
    have hcall : (Use.call call).Lasting ∧ (Use.call call).Marks (· ∈ held) := by
      cases call with
      | tryMap | tryBind | subtract => exact ⟨trivial, trivial⟩
      | _ => cases hlink
    have hstep := hs.step (.call call) ha hcall.1 hcall.2
    rwa [ht] at hstep
  have hlater : ∀ use ∈ after, use.Lasting :=
    fun use huse => hlasting use (List.mem_append_right _ huse)
  have hu := hafter.holding hs' hlater
  have hg := hafter.guarded (T := (· = t)) hs' hlater hfree hmade
  refine ⟨hg.value, resolve_of_derived hg.derived, fun use hadmissible hl hm => ?_⟩
  obtain ⟨n, hpasses, -⟩ := use.passes hu.lasting.toValid hadmissible hl hm
  exact ⟨n, hpasses, fun v tasks hv =>
    (hv.guarded (fun c hc => hu.exist c hc.1) hu.lasting hg).value⟩

/-! The minuend of a difference is marked in front of the subtrahend, so the difference goes through
a cell of its own. -/

def differenceCells : List Use :=
  [.call (.newCell .offset none false), .call (.newCell .offset none false)]

def differenceRegion : Region := ⟨[.mark 1, .direct [7, 7, 7] {}, .mark 0]⟩

def differenceLayout : List Use :=
  [.call .newImage, .call (.flatten differenceRegion 0 .strict .silent)]

theorem derived_cells_follow_sources_difference :
    ∃ held held' s u, Program [] {} differenceCells held s ∧
      (Use.call (.subtract .i64 1 0)).hands s = [2] ∧
      Program (2 :: held) ((Call.subtract .i64 1 0).run.after s) differenceLayout held' u ∧
      u.value? 2 = some (.int (-3)) ∧ (Link.minus .i64 1 0).value u = some (.int (-3)) ∧
      Store.resolve 2 (.int 5) u = .error .derivedResolve u := by
  have hbefore : ∃ held, Program [] {} differenceCells held (runUses differenceCells {}) ∧
      0 ∈ held ∧ 1 ∈ held :=
    ⟨_, .cons trivial trivial (.cons trivial trivial (.nil _ _)), by decide +kernel,
      by decide +kernel⟩
  obtain ⟨held, hbefore, hzero, hone⟩ := hbefore
  have ha : (Call.subtract .i64 1 0).Admissible (runUses differenceCells {}) :=
    ⟨show 1 < _ by decide +kernel, show 0 < _ by decide +kernel⟩
  have ht : (Use.call (.subtract .i64 1 0)).hands (runUses differenceCells {}) = [2] := by
    decide +kernel
  have hafter : Program (2 :: held)
      ((Call.subtract .i64 1 0).run.after (runUses differenceCells {})) differenceLayout
      (2 :: held) (runUses differenceLayout
        ((Call.subtract .i64 1 0).run.after (runUses differenceCells {}))) := by
    refine .cons trivial trivial (.cons ⟨show 0 < _ by decide +kernel, ?_⟩ ?_ (.nil _ _))
    · exact ⟨show 1 < _ by decide +kernel, trivial, show 0 < _ by decide +kernel, trivial⟩
    · exact ⟨.tail _ hone, trivial, .tail _ hzero, trivial⟩
  have hvalue : (runUses differenceLayout ((Call.subtract .i64 1 0).run.after
      (runUses differenceCells {}))).value? 2 = some (.int (-3)) := by decide +kernel
  have hlink : (Call.subtract .i64 1 0).link? = some (.minus .i64 1 0) := rfl
  obtain ⟨hsource, hresolve, -⟩ := derived_cells_follow_sources hbefore ha hlink ht hafter
    (by simp [differenceCells, differenceLayout, Use.Lasting, Call.Lasting])
    (by simp [differenceLayout, Use.Marks, differenceRegion, Segment.SettlesAll, Segment.Settles])
  exact ⟨_, _, _, _, hbefore, ht, hafter, hvalue, hsource _ hvalue, hresolve _⟩

/-! A region marks a cell that is derived from one which is never resolved. -/

def strayMap : Call := .tryMap 0 .offset fun v => .ok (v.advance 1)

def strayUses : List Use :=
  [.call (.newCell .offset none false), .call strayMap, .call .newImage,
    .call (.flatten ⟨[.direct [1, 2] {}, .mark 1]⟩ 0 .strict .silent)]

/-- A derived cell that is marked has the offset of its mark, though its source is pending. -/
theorem marked_cell_without_source :
    ∃ held u link, Program [] {} strayUses held u ∧ (∀ use ∈ strayUses, use.Lasting) ∧
      (Use.call strayMap).hands (runUses (strayUses.take 1) {}) = [1] ∧
      strayMap.link? = some link ∧ u.value? 0 = none ∧ link.value u = none ∧
      u.value? 1 = some (.int 2) := by
  have hprogram : ∃ held, Program [] {} strayUses held (runUses strayUses {}) := by
    refine ⟨_, .cons trivial trivial (.cons (show 0 < _ by decide +kernel) trivial
      (.cons trivial trivial (.cons ⟨show 0 < _ by decide +kernel, ?_⟩ ?_ (.nil _ _))))⟩
    · exact ⟨trivial, show 1 < _ by decide +kernel, trivial⟩
    · exact ⟨trivial, show 1 ∈ _ by decide +kernel, trivial⟩
  obtain ⟨held, hprogram⟩ := hprogram
  exact ⟨held, runUses strayUses {}, _, hprogram,
    by simp [strayUses, strayMap, Use.Lasting, Call.Lasting], by decide +kernel, rfl,
    by decide +kernel, by decide +kernel, by decide +kernel⟩

end Backpatch

import Mathlib
import Backpatch.Proofs.Placeholders
import Backpatch.Proofs.Rendition

/-!
# Partial images are faithful

A flattening that puts up with missing values leaves an image in which some fields are still zero,
and lists them. Every other byte is final: it comes from a direct segment, or from a value that
lasts. So the image agrees, outside of the listed fields, with any complete image of the same region
that is made later.
-/

namespace Backpatch

open Store Failable

/-- Fields from `first` on hold zeros until they are patched. -/
def BlankFrom (first : FieldId) (s : Store) : Prop :=
  ∀ (f : FieldId) (p : Placeholder), first ≤ f → s.placeholders[f]? = some p →
    p.patched = false → (s.image p.image).slice p.offset p.width = p.format.placeholder

theorem BlankFrom.start (s : Store) : BlankFrom s.placeholders.size s :=
  fun _ _ hf hp => absurd (Array.getElem?_eq_some_iff.1 hp).1 (Nat.not_lt.2 hf)

theorem BlankFrom.steps {P : Move → Prop} {s t : Store} {first : FieldId} (hst : Steps P s t)
    (hP : ∀ m, P m → m.Indirect) (hv : Valid s []) (h : BlankFrom first s) :
    BlankFrom first t := by
  have hsteps := hst.invariant (I := fun u tasks => Valid u tasks ∧
    (∀ m, .move m ∈ tasks → m.Indirect) ∧ BlankFrom first u)
    (fun hm hi => ⟨hi.1.start _, by simpa using hP _ hm, hi.2.2⟩)
    (fun {u task v ts k} hr hi => by
      refine ⟨Valid.step hr hi.1, fun m hm => hi.2.1 m (hr.move_mem hm),
        fun f p hf hp hpatched => ?_⟩
      obtain ⟨hold, hbytes⟩ | hnew :=
        hr.blank_cases hi.1 (fun m hm => hi.2.1 m (hm ▸ .head k)) hp hpatched
      · exact hbytes.trans (hi.2.2 f p hf hold hpatched)
      · exact hnew)
    ⟨hv, by simp, h⟩
  exact hsteps.2.2

/-! ## A flattening that succeeds -/

/-- What is known of a region that was laid out in the empty image `i` as `l`, after its entries
have run: every segment is in its place, patched fields hold their values, all others zeros. -/
structure Layout.Drafted (l : Layout) (r : Region) (i : ImageId) (w : Store) : Prop where
  size : (w.image i).size = r.size
  placed : Segment.PlacedAll w i l.first l.last 0 r.segments
  filled : Filled w i l.first
  blank : BlankFrom l.first w
  image : ∀ (f : FieldId) (p : Placeholder), l.first ≤ f → w.placeholders[f]? = some p →
    p.image = i

section Flattening

variable {s t w : Store} {i : ImageId} {r : Region} {config : FlattenConfig} {observer : Observer}
  {summary : FlattenSummary} {l : Layout}

/-- A region that was laid out in an empty image is drafted there, whatever is settled next. -/
theorem Region.layoutObserved_drafted {u : Store} {n : Nat} (hl : Lasting s [])
    (hi : i < s.images.size) (hr : r.Within s.cells.size) (hempty : (s.image i).size = 0)
    (hlayout : r.layoutObserved i observer s = .ok l u) (huw : Steps (Move.Settles n) u w) :
    l.Drafted r i w := by
  obtain ⟨hplaced, hsize⟩ := Region.layoutObserved_placed hl hi hr hlayout
  rw [hempty] at hplaced hsize
  have hsu : Steps (Move.Flattens i) s u :=
    after_of_ok hlayout ▸ r.layoutObserved_flattens observer hl.toValid hi hr
  have huw' : Steps (Move.Flattens i) u w := huw.mono fun m hm => by
    cases m with
    | journal | settle => trivial
    | _ => exact hm.elim
  have hsw := hsu.trans huw'
  have hlu := hsu.lasting (fun _ hm => hm.plain.lasting) hl
  have keeps : ∀ {x y}, Steps (Move.Flattens i) x y → Steps (Move.Keeps i) x y :=
    fun hst => hst.mono fun _ hm => hm.plain.keeps i
  have hfirst : l.first = s.placeholders.size := by
    obtain ⟨-, rfl⟩ := Region.layoutObserved_eq_ok hlayout
    rfl
  exact {
    size := (huw.size_image fun _ hm => hm.not_draws).trans (hsize.trans (Nat.zero_add _))
    placed := hplaced.keep hlu (keeps huw')
    filled := by
      refine Filled.keep hl (keeps hsw) fun f p hf hp => ?_
      exact absurd (Array.getElem?_eq_some_iff.1 hp).1 (Nat.not_lt.2 (hfirst ▸ hf))
    blank := hfirst ▸ (BlankFrom.start s).steps hsw (fun m hm => Ledger.indirect_of_flattens hm)
      hl.toValid
    image := fun f p hf hp => Ledger.image_eq hsw (hfirst ▸ hf) hp }

/-- A flattening that succeeds has drafted the region before it gives up what is pending. -/
theorem Region.flattenObserved_drafted (hl : Lasting s []) (hi : i < s.images.size)
    (hr : r.Within s.cells.size) (hempty : (s.image i).size = 0)
    (h : r.flattenObserved i config observer s = .ok summary t) :
    ∃ (l : Layout) (tally : Tally) (w : Store), l.Drafted r i w ∧ Steps Move.Plain s w ∧
      Error.ofMany? (l.complaints config tally w) = none ∧ summary = l.summary tally w ∧
      t.images = w.images ∧ ∀ c, t.value? c = w.value? c := by
  obtain ⟨l, u, v, hlayout, hfinalize, himages, hvalues⟩ := Region.flattenObserved_eq_ok h
  have hsu : Steps Move.Plain s u :=
    after_of_ok hlayout ▸ Region.steps_layoutObserved observer hl.toValid hi hr
  have hvu := hsu.valid hl.toValid
  have hentries : ∀ e ∈ l.entries, e.Within u.cells.size := by
    obtain ⟨-, rfl⟩ := Region.layoutObserved_eq_ok hlayout
    exact fun e he => (Segment.WithinAll.entries hr e he).mono hsu.grows.cells
  obtain ⟨tally, w, hrun, hnone, hsummary, hclose⟩ :=
    Layout.finalizeObserved_eq_ok hvu hentries hfinalize
  have huw : Steps (Move.Settles u.cells.size) u w :=
    after_of_ok hrun ▸ Layout.steps_runEntries l _ 0 {} hvu le_rfl hentries
  exact ⟨l, tally, w, Region.layoutObserved_drafted hl hi hr hempty hlayout huw,
    hsu.trans (huw.mono fun _ hm => hm.plain), hnone, hsummary, himages.trans hclose.closes.1,
    fun c => (hvalues c).trans (hclose.closes.2.2 c)⟩

/-- A complete draft shows the content of the region. -/
theorem Layout.Drafted.content {tally : Tally} (h : l.Drafted r i w)
    (hstrict : config.enforceComplete = true)
    (hnone : Error.ofMany? (l.complaints config tally w) = none) :
    Segment.contentAll w r.segments = some (w.image i).bytes := by
  have hpending := Layout.pendingFields_of_complaints hstrict hnone
  have hcontent := h.placed.content h.filled fun f p hf hlast hp =>
    Layout.patched_of_pendingFields hpending hf hlast hp
  rwa [← Image.slice_size, h.size]

/-- The fields that the draft lists are zero. -/
theorem Layout.Drafted.zero {x : UnresolvedField} {k : Nat} (h : l.Drafted r i w)
    (hx : x ∈ l.pendingFields w) (hk : x.offset ≤ k) (hk' : k < x.offset + x.width) :
    (w.image i).bytes[k]? = some 0 := by
  obtain ⟨p, hp, rfl⟩ := List.mem_map.1 hx
  obtain ⟨f, hf, -, hfield, hpatched⟩ := Layout.mem_pending.1 hp
  have hbytes := h.blank f p hf hfield hpatched
  rw [h.image f p hf hfield] at hbytes
  have hoffset : p.offset + (k - p.offset) = k := Nat.add_sub_cancel' hk
  have hwidth : k - p.offset < p.width := Nat.sub_lt_left_of_lt_add hk hk'
  have hbyte : ((w.image i).slice p.offset p.width)[k - p.offset]? = some 0 := by
    rw [hbytes]
    exact List.getElem?_replicate_of_lt hwidth
  rwa [Image.getElem?_slice, if_pos hwidth, hoffset] at hbyte

/-- A byte that no listed field covers is the one that a later content has there. -/
theorem Layout.Drafted.agree {n k : Nat} {bs : Bytes} (h : l.Drafted r i w) (hr : r.Within n)
    (hle : ∀ c v, c < n → w.value? c = some v → t.value? c = some v)
    (hc : Segment.contentAll t r.segments = some bs)
    (hk : ∀ x ∈ l.pendingFields w, ¬(x.offset ≤ k ∧ k < x.offset + x.width)) :
    (w.image i).bytes[k]? = bs[k]? := by
  have hlength : bs.length = r.size := Segment.length_contentAll hc
  rcases Nat.lt_or_ge k r.size with hlt | hge
  · have hclear : Clear w i l.first l.last (0 + k) := by
      intro f p hf hlast hp _ hpatched
      rw [Nat.zero_add]
      exact hk _ (List.mem_map_of_mem (Layout.mem_pending.2 ⟨f, hf, hlast, hp, hpatched⟩))
    simpa using Segment.PlacedAll.agree h.filled hle hr hc h.placed hlt hclear
  · have hsize : (w.image i).bytes.length ≤ k := h.size.trans_le hge
    rw [List.getElem?_eq_none hsize, List.getElem?_eq_none (hlength.trans_le hge)]

end Flattening

/-- A region is flattened into an empty image, whatever is missing, and later, after any calls that
take no value back, into an empty image again, this time completely. Then the two images are equally
long, they agree at every byte that is in no field that the first flattening lists, and the listed
fields are zero in the first image. -/
theorem partial_image_faithful {before between : List Call} {s s₁ s₂ s₃ : Store} {r : Region}
    {i j : ImageId} {config config' : FlattenConfig} {observer observer' : Observer}
    {summary summary' : FlattenSummary} (hbefore : Run {} before s)
    (hlasting : ∀ call ∈ before, call.Lasting) (hi : i < s.images.size)
    (hempty : (s.image i).size = 0) (hr : r.Within s.cells.size)
    (hpartial : r.flattenObserved i config observer s = .ok summary s₁)
    (hbetween : Run s₁ between s₂) (hlasting' : ∀ call ∈ between, call.Lasting)
    (hj : j < s₂.images.size) (hempty' : (s₂.image j).size = 0)
    (hstrict : config'.enforceComplete = true)
    (hcomplete : r.flattenObserved j config' observer' s₂ = .ok summary' s₃) :
    (s₁.image i).size = (s₃.image j).size ∧
      (∀ k, (∀ x ∈ summary.unresolved, ¬(x.offset ≤ k ∧ k < x.offset + x.width)) →
        (s₁.image i).bytes[k]? = (s₃.image j).bytes[k]?) ∧
      ∀ x ∈ summary.unresolved, ∀ k, x.offset ≤ k → k < x.offset + x.width →
        (s₁.image i).bytes[k]? = some 0 := by
  have hl := hbefore.lasting Lasting.empty hlasting
  obtain ⟨l, tally, w, hdraft, -, -, hsummary, himages, hvalues⟩ :=
    Region.flattenObserved_drafted hl hi hr hempty hpartial
  have hflattens : Steps (Move.Flattens i) s s₁ :=
    after_of_ok hpartial ▸ r.flattenObserved_flattens config observer hl.toValid hi hr
  have hl₁ := hflattens.lasting (fun _ hm => hm.plain.lasting) hl
  have hs₂ : Steps Move.Lasting s₁ s₂ :=
    hbetween.steps hl₁.toValid fun call hc _ => (hlasting' call hc).makes
  have hl₂ := hs₂.lasting (fun _ hm => hm) hl₁
  obtain ⟨l', tally', w', hdraft', hsw', hnone, -, himages', -⟩ :=
    Region.flattenObserved_drafted hl₂ hj
      (hr.mono (hflattens.grows.cells.trans hs₂.grows.cells)) hempty' hcomplete
  have hcontent := hdraft'.content hstrict hnone
  have hle : ∀ c v, c < s.cells.size → w.value? c = some v → w'.value? c = some v := by
    intro c v _ hv
    have hv₂ := hs₂.value?_eq (fun _ hm => hm) hl₁ ((hvalues c).trans hv)
    exact hsw'.value?_eq (fun _ hm => hm.lasting) hl₂ hv₂
  have himage : s₁.image i = w.image i := by rw [Store.image, himages, Store.image]
  have himage' : s₃.image j = w'.image j := by rw [Store.image, himages', Store.image]
  rw [himage, himage', hsummary]
  exact ⟨hdraft.size.trans hdraft'.size.symm, fun k hk => hdraft.agree hr hle hcontent hk,
    fun x hx k hk hk' => hdraft.zero hx hk hk'⟩

/-! A header whose length is open, in both of its places, when it is flattened first. -/

def openCalls : List Call :=
  [.newCell (.int .i64) none false, .newCell (.int .i64) none false, .newCell .offset none true,
    .tryMap 2 (.int .i64) Datum.signedOffset, .onResolve 0 (.forward (.cell 1)), .newImage,
    .newImage]

def openStore : Store := openCalls.foldl (fun s call => call.run.after s) {}

def openRegion : Region :=
  ⟨[.direct [1, 2] {}, .deferred (.int .u16le) 0 none,
    .nested [.mark 2, .deferred (.int .u8) 3 none, .deferred (.int .u8) 1 none], .direct [7] {}]⟩

def openFlattening : Op (FlattenSummary × Store × FlattenSummary) := do
  let summary ← openRegion.flattenObserved 0 .quiet .silent
  let s ← get
  Store.resolve 0 (.int 9)
  return (summary, s, ← openRegion.flattenObserved 1 .strict .silent)

theorem partial_image_faithful_header :
    ∃ summary s₁ summary' s₃, openRegion.flattenObserved 0 .quiet .silent openStore =
        .ok summary s₁ ∧
      openRegion.flattenObserved 1 .strict .silent ((Call.resolve 0 (.int 9)).run.after s₁) =
        .ok summary' s₃ ∧
      summary.unresolved.map (fun x => (x.offset, x.width)) = [(2, 2), (5, 1)] ∧
      (s₁.image 0).bytes = [1, 2, 0, 0, 4, 0, 7] ∧ (s₃.image 1).bytes = [1, 2, 9, 0, 4, 9, 7] ∧
      (∀ k, (∀ x ∈ summary.unresolved, ¬(x.offset ≤ k ∧ k < x.offset + x.width)) →
        (s₁.image 0).bytes[k]? = (s₃.image 1).bytes[k]?) := by
  have hrun : (match openFlattening openStore with
      | .ok (summary, s, _) t =>
        decide (summary.unresolved.map (fun x => (x.offset, x.width)) = [(2, 2), (5, 1)] ∧
          (s.image 0).bytes = [1, 2, 0, 0, 4, 0, 7] ∧ (t.image 1).bytes = [1, 2, 9, 0, 4, 9, 7] ∧
          0 < s.cells.size ∧ 1 < ((Call.resolve 0 (.int 9)).run.after s).images.size ∧
          (((Call.resolve 0 (.int 9)).run.after s).image 1).size = 0)
      | .error .. => false) = true := by decide +kernel
  cases hopen : openFlattening openStore with
  | error e t => simp [hopen] at hrun
  | ok result s₃ =>
    obtain ⟨summary, s₁, hpartial, hrest⟩ := bind_eq_ok.1 hopen
    obtain ⟨_, _, hget, hrest⟩ := bind_eq_ok.1 hrest
    cases hget
    obtain ⟨_, s₂, hresolve, hrest⟩ := bind_eq_ok.1 hrest
    obtain ⟨summary', t, hcomplete, hrest⟩ := bind_eq_ok.1 hrest
    cases hrest
    obtain rfl := after_of_ok hresolve
    simp only [hopen, decide_eq_true_eq] at hrun
    obtain ⟨hunresolved, hbytes, hbytes', hcell, himages, hempty⟩ := hrun
    have hbefore : Run {} openCalls openStore :=
      .cons trivial (.cons trivial (.cons trivial (.cons (show 2 < _ by decide +kernel)
        (.cons ⟨show 0 < _ by decide +kernel, show 1 < _ by decide +kernel⟩ (.cons trivial
          (.cons trivial (.nil _)))))))
    have hwithin : openRegion.Within openStore.cells.size := by
      have hsize : openStore.cells.size = 4 := by decide +kernel
      simp [openRegion, Region.Within, Segment.WithinAll, Segment.Within, hsize]
    have hbetween : Run s₁ [.resolve 0 (.int 9)] ((Call.resolve 0 (.int 9)).run.after s₁) :=
      .cons hcell (.nil _)
    have hfaithful := partial_image_faithful hbefore
      (by simp [openCalls, Call.Lasting, Action.Lasting]) (by decide +kernel) (by decide +kernel)
      hwithin hpartial hbetween (by simp [Call.Lasting]) himages hempty rfl hcomplete
    exact ⟨summary, s₁, summary', s₃, hpartial, hcomplete, hunresolved, hbytes, hbytes',
      hfaithful.2.1⟩

end Backpatch

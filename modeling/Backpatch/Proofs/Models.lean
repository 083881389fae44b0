import Mathlib
import Backpatch.Proofs.SmoothSteps

/-!
# Models

Values for the cells of a store are a model of it if every subscriber that waits agrees with them
(`Model`). A smooth run that settles cells as the model says never leaves the model: its values stay
below those of the model (`Model.le`), and settling a pending cell succeeds (`Model.settle_isOk`). The
values at the end of a smooth run are a model themselves, so two runs can be compared.
-/

namespace Backpatch

open Store Failable

/-- The moves of a run that renders regions: cells are settled as `S` says, and fields are placed
for the formats and cells of `E`. -/
def Move.Renders (E : FixedFormat → CellId → Prop) (S : CellId → Datum → Prop) : Move → Prop
  | .resolve c v | .settle c v => S c v
  | .place _ format c _ => E format c
  | .journal .. | .newImage | .append .. | .unsubscribe .. => True
  | _ => False

theorem Move.Renders.mono {E : FixedFormat → CellId → Prop} {S S' : CellId → Datum → Prop}
    (hS : ∀ c v, S c v → S' c v) {m : Move} (h : m.Renders E S) : m.Renders E S' := by
  cases m with
  | resolve | settle => exact hS _ _ h
  | place => exact h
  | journal | newImage | append | unsubscribe => trivial
  | _ => exact h.elim

/-- The values `U` agree with all that waits in `o`, with the settled cells `S`, and with the fields
`E`. -/
structure Model (o : Store) (E : FixedFormat → CellId → Prop) (S : CellId → Datum → Prop)
    (U : CellId → Option Datum) : Prop where
  smoothFrom : SmoothFrom o o []
  agrees : ∀ c, ∀ q ∈ (o.cell c).queue, q.2.Agrees o U c
  values : ∀ c v, o.value? c = some v → U c = some v
  settles : ∀ c v, S c v → c < o.cells.size ∧ U c = some v
  encodes : ∀ format c, E format c → c < o.cells.size ∧
    ∀ x, U c = some x → ∃ bs, format.encode x = .ok bs

/-- The values `W`, which go beyond `U` only for cells that are new, bound those of the store, and
all that waits or is about to run agrees with them. -/
structure Bounds (o : Store) (U W : CellId → Option Datum) (s : Store) (tasks : List Task) :
    Prop where
  static : ∀ c, c < o.cells.size → W c = U c
  values : ∀ c v, s.value? c = some v → W c = some v
  agrees : ∀ c sub, Due s tasks c sub → sub.Agrees s W c

section Due

variable {s : Store} {k : List Task} {c d t : CellId} {sub sub' : Subscriber}

theorem Due.tail {task : Task} (h : Due s k c sub) : Due s (task :: k) c sub :=
  h.imp_right fun ⟨v, hx⟩ => ⟨v, .tail _ hx⟩

theorem Due.of_fire {w : Datum} (h : Due (s.fire d w).1 ((s.fire d w).2 ++ k) c sub) :
    Due s k c sub := by
  obtain ⟨id, hq⟩ | ⟨v, hx⟩ := h
  · exact .inl ⟨id, mem_queue_fire s d c w hq⟩
  · obtain hx | hx := List.mem_append.1 hx
    · obtain ⟨q, hq, heq, -⟩ := mem_fire s d w hx
      cases heq
      exact .inl ⟨q.1, hq⟩
    · exact .inr ⟨v, hx⟩

theorem Due.of_enqueue (h : Due (s.enqueue d sub') k c sub) :
    Due s k c sub ∨ c = d ∧ sub = sub' := by
  obtain ⟨id, hq⟩ | hx := h
  · obtain hq | ⟨hc, hsub⟩ := mem_queue_enqueue s d c sub' hq
    · exact .inl (.inl ⟨id, hq⟩)
    · exact .inr ⟨hc, hsub⟩
  · exact .inl (.inr hx)

theorem Due.of_newDerived {kind : Kind} {value : Option Datum}
    (h : Due (s.newDerived kind value) k c sub) : Due s k c sub :=
  h.imp_left fun ⟨id, hq⟩ => ⟨id, mem_queue_addCell s c hq⟩

/-- What waits or is about to run is a driver of its target. -/
theorem Due.drivers (h : Due s k c sub) (ht : sub.target? = some t) :
    0 < s.drivers k t := by
  have hone : sub.drives t = 1 := by simp [Subscriber.drives, ht]
  obtain ⟨id, hq⟩ | ⟨v, hx⟩ := h
  · have := le_total s c sub (Subscriber.drives t) hq
    unfold Store.drivers
    omega
  · have : 1 ≤ (k.map (Task.drives t)).sum :=
      hone ▸ List.single_le_sum (by simp) _ (List.mem_map.2 ⟨_, hx, rfl⟩)
    unfold Store.drivers
    omega

theorem Lasting.due (hl : Lasting s k) (h : Due s k c sub) :
    sub.Sound s c ∧ c < s.cells.size := by
  obtain ⟨id, hq⟩ | ⟨v, hx⟩ := h
  · exact ⟨hl.queues c _ hq, lt_size_of_queue s c hq⟩
  · exact ⟨hl.running c sub v hx, lt_size_of_value? s c (hl.values c sub v hx)⟩

end Due

/-! ## Bounds are kept -/

section Bounds

variable {o s t : Store} {U W W' : CellId → Option Datum} {task : Task} {ts k : List Task}

theorem Subscriber.Agrees.mono {sub : Subscriber} {c : CellId} (h : sub.Agrees s W c)
    (hs : sub.Sound s c) (hc : c < s.cells.size) (hW : ∀ d, d < s.cells.size → W' d = W d)
    (hg : Grows s t)
    (hpending : ∀ d, sub.target? = some d → s.value? d = none → t.value? d = none) :
    sub.Agrees t W' c := by
  cases sub with
  | derive target f =>
    intro x hx
    obtain ⟨w, hf, hw, hv⟩ := h x (hW c hc ▸ hx)
    exact ⟨w, hf, (hW target hs.1).trans hw, hpending target rfl hv⟩
  | follow target choose =>
    intro x hx
    obtain ⟨inner, hinner, hlater⟩ := h x (hW c hc ▸ hx)
    refine ⟨inner, hinner, fun w hw => ?_⟩
    obtain ⟨hw, hv⟩ := hlater w (hW inner (hs.2.2 x inner hinner) ▸ hw)
    exact ⟨(hW target hs.1).trans hw, hpending target rfl hv⟩
  | minus target kind subtrahend =>
    intro x y hx hy
    obtain ⟨w, hd, hw, hv⟩ := h x y (hW c hc ▸ hx) (hW subtrahend hs.2.2 ▸ hy)
    exact ⟨w, hd, (hW target hs.1).trans hw, hpending target rfl hv⟩
  | patch f =>
    intro x p hx hp
    obtain ⟨q, hq, -⟩ := hs
    obtain ⟨b, hb⟩ := hg.fields f q hq
    obtain rfl := Option.some.inj (hp.symm.trans hb)
    exact h x q (hW c hc ▸ hx) hq
  | act => exact h.elim

/-- Bounds after a change of the store: values that come are those of the bound, no cell that is
still to be settled gets one, and what comes to wait agrees. -/
theorem Bounds.change {rest : List Task} (h : SmoothFrom o s (task :: k))
    (hb : Bounds o U W s (task :: k)) (hg : Grows s t) (hW : ∀ d, d < s.cells.size → W' d = W d)
    (hvalues : ∀ c v, t.value? c = some v → W' c = some v)
    (hpending : ∀ d, 0 < s.drivers k d → s.value? d = none → t.value? d = none)
    (hdue : ∀ c sub, Due t rest c sub → Due s k c sub ∨ sub.Agrees t W' c) :
    Bounds o U W' t rest where
  static c hc := (hW c (hc.trans_le h.grows.cells)).trans (hb.static c hc)
  values := hvalues
  agrees c sub ha := by
    obtain ha | ha := hdue c sub ha
    · obtain ⟨hsound, hc⟩ := h.toLasting.due ha.tail
      exact (hb.agrees c sub ha.tail).mono hsound hc hW hg fun d hd =>
        hpending d (ha.drivers hd)
    · exact ha

/-- Settling a cell, as the bound says, that nothing else is going to settle. -/
theorem Bounds.fire {c : CellId} {w : Datum} (h : SmoothFrom o s (task :: k))
    (hb : Bounds o U W s (task :: k)) (hw : W c = some w) (hd : s.drivers k c = 0) :
    Bounds o U W (s.fire c w).1 ((s.fire c w).2 ++ k) := by
  refine hb.change h (.fire ..) (fun _ _ => rfl) (fun d v hv => ?_) (fun d hpos hv => ?_)
    fun d sub ha => .inl ha.of_fire
  · obtain ⟨x, -, hf⟩ | ⟨-, hf⟩ := fire_cases s c w
    · rw [hf] at hv
      exact hb.values d v hv
    · by_cases hdc : d = c
      · subst hdc
        rw [hf] at hv
        have hc : d < s.cells.size := by simpa using lt_size_of_value? _ _ hv
        rw [value?_delivered s d d w hc, if_pos rfl] at hv
        rw [hw, hv]
      · rw [value?, cell_fire_of_ne s w hdc] at hv
        exact hb.values d v hv
  · have hdc : d ≠ c := by
      rintro rfl
      omega
    rwa [value?, cell_fire_of_ne s w hdc]

theorem Bounds.enqueue {c : CellId} {sub : Subscriber} (h : SmoothFrom o s (task :: k))
    (hb : Bounds o U W s (task :: k)) (hsub : sub.Agrees (s.enqueue c sub) W c) :
    Bounds o U W (s.enqueue c sub) k := by
  refine hb.change h (.enqueue ..) (fun _ _ => rfl) (fun d v hv => ?_) (fun d _ hv => ?_)
    fun d sub' ha => ?_
  · exact hb.values d v ((value?_enqueue ..).symm.trans hv)
  · exact (value?_enqueue ..).trans hv
  · obtain ha | ⟨rfl, rfl⟩ := ha.of_enqueue
    · exact .inl ha
    · exact .inr hsub

/-- A change that concerns neither values nor what waits. -/
theorem Bounds.of_cells (h : SmoothFrom o s (task :: k)) (hb : Bounds o U W s (task :: k))
    (hg : Grows s t) (hc : t.cells = s.cells) : Bounds o U W t k := by
  have hcell : ∀ c, t.cell c = s.cell c := fun c => by simp only [cell, hc]
  refine hb.change h hg (fun _ _ => rfl) (fun d v hv => ?_) (fun d _ hv => ?_) fun d sub ha => ?_
  · rw [value?, hcell] at hv
    exact hb.values d v hv
  · rw [value?, hcell]
    exact hv
  · rw [Due, hcell] at ha
    exact .inl ha

/-- The cell that the running subscriber is to settle has no other driver. -/
theorem SmoothFrom.drivers_target {source target : CellId} {sub : Subscriber} {v : Datum}
    (h : SmoothFrom o s (.notify source sub v :: k)) (ht : sub.target? = some target) :
    s.drivers k target = 0 := by
  have hle := h.driven target
  have hone : Task.drives target (.notify source sub v) = 1 := by
    simp [Task.drives, Subscriber.drives, ht]
  rw [drivers_cons] at hle
  omega

/-- Only derived cells have drivers. -/
theorem Valid.drivers_of_not_derived {c : CellId} (h : Valid s k)
    (hc : (s.cell c).derived = false) : s.drivers k c = 0 :=
  h.drivers_eq_zero fun _ _ hsound ht => by simp [hsound.target_derived ht] at hc

/-- A difference is settled at once, by way of a new cell that holds it. -/
theorem Bounds.minus {source target subtrahend : CellId} {kind : IntKind} {v y w : Datum}
    (h : SmoothFrom o s (.notify source (.minus target kind subtrahend) v :: k))
    (hb : Bounds o U W s (.notify source (.minus target kind subtrahend) v :: k))
    (hy : s.value? subtrahend = some y) (hw : Datum.difference kind v y = .ok w) :
    Bounds o U (Function.update W s.cells.size (some w))
      ((s.newDerived (.int kind) (some w)).fire target w).1
      (((s.newDerived (.int kind) (some w)).fire target w).2 ++ k) := by
  have htarget : target < s.cells.size := (h.running source _ v (.head k)).1
  obtain ⟨w', hw', hWt, -⟩ := hb.agrees source _ (.inr ⟨v, .head k⟩) v y
    (hb.values source v (h.values source _ v (.head k))) (hb.values subtrahend y hy)
  obtain rfl := Except.ok.inj (hw.symm.trans hw')
  have hzero : s.drivers k target = 0 := h.drivers_target rfl
  refine hb.change h ((Grows.newDerived s _ _).trans (.fire ..)) (fun d hd => ?_) (fun c x hx => ?_)
    (fun d hpos hv => ?_) fun c sub ha => .inl ha.of_fire.of_newDerived
  · exact Function.update_of_ne (Nat.ne_of_lt hd) ..
  · by_cases hc : c = target
    · subst hc
      rw [Function.update_of_ne (Nat.ne_of_lt htarget), hWt]
      obtain ⟨z, hz, hf⟩ | ⟨-, hf⟩ := fire_cases (s.newDerived (.int kind) (some w)) c w
      · rw [hf, hz] at hx
        rw [value?_newDerived, if_neg (Nat.ne_of_lt htarget)] at hz
        rw [← hx, ← hb.values c z hz, hWt]
      · rw [hf, value?_delivered _ _ _ _ (htarget.trans_le (by simp)), if_pos rfl] at hx
        exact hx
    · rw [value?, cell_fire_of_ne _ _ hc] at hx
      change (s.newDerived (.int kind) (some w)).value? c = some x at hx
      rw [value?_newDerived] at hx
      split_ifs at hx with hsize
      · subst hsize
        rw [Function.update_self, hx]
      · rw [Function.update_of_ne hsize]
        exact hb.values c x hx
  · have hne : d ≠ target := by
      rintro rfl
      omega
    have hsize : d ≠ s.cells.size := by
      rintro rfl
      have hnone := h.drivers_of_size_le (c := s.cells.size) le_rfl
      rw [drivers_cons] at hnone
      omega
    rw [value?, cell_fire_of_ne _ _ hne]
    change (s.newDerived (.int kind) (some w)).value? d = none
    rwa [value?_newDerived, if_neg hsize]

/-- A difference whose subtrahend is pending: the new cell is to hold it when it is known. -/
theorem Bounds.minusLater {source target subtrahend : CellId} {kind : IntKind} {v : Datum}
    (h : SmoothFrom o s (.notify source (.minus target kind subtrahend) v :: k))
    (hb : Bounds o U W s (.notify source (.minus target kind subtrahend) v :: k)) :
    Bounds o U (Function.update W s.cells.size
        ((W subtrahend).bind fun y => (Datum.difference kind v y).toOption))
      (((s.newDerived (.int kind) none).enqueue subtrahend
        (.derive s.cells.size (Datum.difference kind v))).enqueue s.cells.size
          (.derive target .ok)) k := by
  have hsound := h.running source _ v (.head k)
  have htarget : target ≠ s.cells.size := Nat.ne_of_lt hsound.1
  have hsub : subtrahend ≠ s.cells.size := Nat.ne_of_lt hsound.2.2
  have hv := hb.values source v (h.values source _ v (.head k))
  have hask := hb.agrees source _ (.inr ⟨v, .head k⟩)
  have hvalue : ∀ d, (((s.newDerived (.int kind) none).enqueue subtrahend
      (.derive s.cells.size (Datum.difference kind v))).enqueue s.cells.size
        (.derive target .ok)).value? d = if d = s.cells.size then none else s.value? d := by
    intro d
    rw [value?_enqueue, value?_enqueue, value?_newDerived]
  refine hb.change h ((Grows.newDerived s _ _).trans ((Grows.enqueue ..).trans (.enqueue ..)))
    (fun d hd => ?_) (fun c x hx => ?_) (fun d hpos hd => ?_) fun c sub ha => ?_
  · exact Function.update_of_ne (Nat.ne_of_lt hd) ..
  · rw [hvalue] at hx
    split_ifs at hx with hc
    rw [Function.update_of_ne hc]
    exact hb.values c x hx
  · rw [hvalue]
    split_ifs
    · rfl
    · exact hd
  · obtain ha | ⟨rfl, rfl⟩ := ha.of_enqueue
    · obtain ha | ⟨rfl, rfl⟩ := ha.of_enqueue
      · exact .inl ha.of_newDerived
      · -- The new cell is derived from the subtrahend,
        refine .inr fun y hy => ?_
        rw [Function.update_of_ne hsub] at hy
        obtain ⟨w, hw, -⟩ := hask v y hv hy
        refine ⟨w, hw, ?_, (hvalue _).trans (if_pos rfl)⟩
        simp [hy, hw, Except.toOption]
    · -- and the target follows it.
      refine .inr fun x hx => ⟨x, rfl, ?_⟩
      rw [Function.update_self] at hx
      obtain ⟨y, hy, hx⟩ := Option.bind_eq_some_iff.1 hx
      obtain ⟨w, hw, ht, hpending⟩ := hask v y hv hy
      rw [hw] at hx
      cases hx
      rw [Function.update_of_ne htarget, hvalue, if_neg htarget]
      exact ⟨ht, hpending⟩

/-- A move that renders, as the model says, keeps the bound. -/
theorem Model.bounds_move {E : FixedFormat → CellId → Prop} {S : CellId → Datum → Prop} {m : Move}
    (M : Model o E S U) (h : SmoothFrom o s (.move m :: k)) (hs : m.Smooth o s) (hf : m.Fits s)
    (hm : m.Renders E S) (hb : Bounds o U W s (.move m :: k)) :
    Bounds o U W (m.apply s).1 ((m.apply s).2 ++ k) := by
  cases m with
  | journal | newImage | append => exact hb.of_cells h (Move.grows s _) rfl
  | resolve c v =>
    obtain ⟨hc, hv⟩ := M.settles c v hm
    refine hb.fire h ((hb.static c hc).trans hv) ?_
    have hzero := h.drivers_of_not_derived hf.2
    rw [drivers_cons] at hzero
    omega
  | settle c v =>
    obtain ⟨hc, hv⟩ := M.settles c v hm
    refine hb.fire h ((hb.static c hc).trans hv) ?_
    have hzero := h.undriven c hc hs.2.2
    rw [drivers_cons] at hzero
    omega
  | unsubscribe c id =>
    refine hb.change h (.withdrawn ..) (fun _ _ => rfl) (fun d v hv => ?_) (fun d _ hv => ?_)
      fun d sub ha => .inl (ha.imp_left fun ⟨id', hq⟩ => ⟨id', mem_queue_withdrawn s c d hq⟩)
    · exact hb.values d v ((value?_withdrawn s c d id).symm.trans hv)
    · exact (value?_withdrawn s c d id).trans hv
  | place i format c label =>
    have hvalue : ∀ d, (s.placed c i format label).value? d = s.value? d :=
      fun d => value?_enqueue (s.modifyImage i _) c d _
    refine hb.change h (Grows.placed ..) (fun _ _ => rfl) (fun d v hv => ?_) (fun d _ hv => ?_)
      fun d sub ha => ?_
    · exact hb.values d v ((hvalue d).symm.trans hv)
    · exact (hvalue d).trans hv
    · obtain ha | ⟨rfl, rfl⟩ := Due.of_enqueue (s := s.modifyImage i _) ha
      · exact .inl ha
      · refine .inr fun x p hx hp => ?_
        obtain ⟨hd, hencodes⟩ := M.encodes format d hm
        obtain rfl : s.nextPlaceholder d i format label = p := by
          simpa [Move.apply, placed] using hp
        exact hencodes x ((hb.static d hd).symm.trans hx)
  | _ => exact hm.elim

/-- A smooth reaction keeps the values below those of a model. -/
theorem Model.bounds_step {E : FixedFormat → CellId → Prop} {S : CellId → Datum → Prop}
    (M : Model o E S U) (h : SmoothFrom o s (task :: k)) (hs : task.Smooth o s)
    (hr : Reacts s task t ts)
    (hm : ∀ m, task = .move m → m.Renders E S) (hb : Bounds o U W s (task :: k)) :
    ∃ W', Bounds o U W' t (ts ++ k) := by
  cases hr with
  | move hf => exact ⟨W, M.bounds_move h hs hf (hm _ rfl) hb⟩
  | refuse => exact ⟨W, hb.of_cells h (.refl s) rfl⟩
  | patch => exact ⟨W, hb.of_cells h (.patched ..) rfl⟩
  | @derive source target f v w hf =>
    obtain ⟨w', hw', ht, -⟩ := hb.agrees source _ (.inr ⟨v, .head k⟩) v
      (hb.values source v (h.values source _ v (.head k)))
    obtain rfl := Except.ok.inj (hf.symm.trans hw')
    exact ⟨W, hb.fire h ht (h.drivers_target rfl)⟩
  | @follow source target choose v inner w hc hw =>
    obtain ⟨inner', hinner, hlater⟩ := hb.agrees source _ (.inr ⟨v, .head k⟩) v
      (hb.values source v (h.values source _ v (.head k)))
    obtain rfl := Except.ok.inj (hc.symm.trans hinner)
    exact ⟨W, hb.fire h (hlater w (hb.values inner w hw)).1 (h.drivers_target rfl)⟩
  | @followLater source target choose v inner hc hw =>
    obtain ⟨inner', hinner, hlater⟩ := hb.agrees source _ (.inr ⟨v, .head k⟩) v
      (hb.values source v (h.values source _ v (.head k)))
    obtain rfl := Except.ok.inj (hc.symm.trans hinner)
    refine ⟨W, hb.enqueue h fun x hx => ⟨x, rfl, (hlater x hx).1, ?_⟩⟩
    exact (value?_enqueue ..).trans (hlater x hx).2
  | minus hy hw => exact ⟨_, hb.minus h hy hw⟩
  | minusLater => exact ⟨_, hb.minusLater h⟩
  | start | log | assign | unresolve | watch | watchLater | unsubscribe | andThen => exact hs.elim

/-- What is below a model runs smoothly. -/
theorem Bounds.smooth {source : CellId} {sub : Subscriber} {v : Datum}
    (h : SmoothFrom o s (.notify source sub v :: k))
    (hb : Bounds o U W s (.notify source sub v :: k)) :
    (Task.notify source sub v).Smooth o s := by
  have hv := hb.values source v (h.values source _ v (.head k))
  have hask := hb.agrees source sub (.inr ⟨v, .head k⟩)
  cases sub with
  | derive target f =>
    obtain ⟨w, hw, -, hpending⟩ := hask v hv
    exact ⟨⟨w, hw⟩, hpending⟩
  | follow target choose =>
    obtain ⟨inner, hinner, hlater⟩ := hask v hv
    exact ⟨inner, hinner, fun w hw => (hlater w (hb.values inner w hw)).2⟩
  | minus target kind subtrahend =>
    intro y hy
    obtain ⟨w, hw, -, hpending⟩ := hask v y hv (hb.values subtrahend y hy)
    exact ⟨⟨w, hw⟩, hpending⟩
  | patch f =>
    obtain ⟨p, hp, -⟩ := h.running source (.patch f) v (.head k)
    obtain ⟨bs, hbs⟩ := hask v p hv hp
    refine ⟨p, bs, hp, hbs, ?_⟩
    rw [FixedFormat.length_encode hbs]
    exact (h.fields f p hp).2.2
  | act => exact hask.elim

end Bounds

/-! ## Settling cells -/

section Settling

variable {o s t : Store} {E : FixedFormat → CellId → Prop} {S : CellId → Datum → Prop}
  {U : CellId → Option Datum} {c : CellId} {v : Datum} {m : Move}

/-- A move that sets the queue of a pending cell off, if settling that cell succeeds. -/
theorem SmoothFrom.smoothCascade (h : SmoothFrom o s []) (hs : m.Smooth o s) (hf : m.Fits s)
    (hfire : m.apply s = s.fire c v) (hc : c < s.cells.size) (hv : s.value? c = none)
    (hrun : Store.settle c v s = .ok () t) : SmoothCascade o s [.move m] t [] := by
  have hreveals := settle_reveals o (h.derivations_fire (v := v) hc) h.load hv
  rw [hrun, ← hfire] at hreveals
  refine .step hs (.move hf) ?_
  rw [List.append_nil]
  exact hreveals

/-- The values of a run that renders as the model says are below those of the model. -/
theorem Model.bounds (M : Model o E S U) (hg : SmoothSteps o (Move.Renders E S) o s) :
    ∃ W, Bounds o U W s [] := by
  refine (hg.invariant_moves (I := fun s tasks => SmoothFrom o s tasks ∧ ∃ W, Bounds o U W s tasks)
    (fun {s m} _ hm hi => ⟨hi.1.start hm.lasting, ?_⟩)
    (fun hm hs hr hi => ⟨hi.1.step hs hr, ?_⟩) ⟨M.smoothFrom, U, ?_⟩).2
  · obtain ⟨W, hb⟩ := hi.2
    refine ⟨W, hb.static, hb.values, fun d sub ha => hb.agrees d sub (ha.imp_right ?_)⟩
    simp
  · obtain ⟨W, hb⟩ := hi.2
    exact M.bounds_step hi.1 hs hr hm hb
  · refine ⟨fun _ _ => rfl, M.values, fun d sub ha => ?_⟩
    obtain ⟨id, hq⟩ | ⟨w, hx⟩ := ha
    · exact M.agrees d _ hq
    · simp at hx

theorem Model.le (M : Model o E S U) (hg : SmoothSteps o (Move.Renders E S) o s)
    (hc : c < o.cells.size) (hv : s.value? c = some v) : U c = some v := by
  obtain ⟨W, hb⟩ := M.bounds hg
  exact (hb.static c hc).symm.trans (hb.values c v hv)

/-- Settling a pending cell as the model says succeeds. -/
theorem Model.settle_isOk (M : Model o E S U) (hg : SmoothSteps o (Move.Renders E S) o s)
    (hs : m.Smooth o s) (hf : m.Fits s) (hm : m.Renders E S) (hfire : m.apply s = s.fire c v)
    (hc : c < s.cells.size) (hv : s.value? c = none) : ∃ t, Store.settle c v s = .ok () t := by
  have hfrom := hg.smoothFrom M.smoothFrom
  have hderivations := hfrom.derivations_fire (v := v) hc
  have hreveals := settle_reveals o hderivations hfrom.load hv
  cases hrun : Store.settle c v s with
  | ok _ t => exact ⟨t, rfl⟩
  | error e t =>
    -- All that the move sets off is below the model, so it does not fail.
    rw [hrun] at hreveals
    obtain ⟨-, u, task, k, hreactions, hrough⟩ := hreveals
    have hstart : SmoothFrom o (s.fire c v).1 (s.fire c v).2 := by
      have hstep := SmoothFrom.step (show (Task.move m).Smooth o s from hs) (.move hf)
        (hfrom.start hs.lasting)
      rwa [List.append_nil, hfire] at hstep
    have hbounds : ∃ W, Bounds o U W (s.fire c v).1 (s.fire c v).2 := by
      obtain ⟨W, hb⟩ := M.bounds hg
      have hstep := M.bounds_move (hfrom.start hs.lasting) hs hf hm
        ⟨hb.static, hb.values, fun d sub ha => hb.agrees d sub (ha.imp_right (by simp))⟩
      rw [List.append_nil, hfire] at hstep
      exact ⟨W, hstep⟩
    obtain ⟨hu, hfu, W, hb⟩ := hreactions.invariant
      (I := fun s tasks =>
        SmoothFrom o s tasks ∧ SolidDerivations s tasks ∧ ∃ W, Bounds o U W s tasks)
      (fun {s task t ts k} hs hr hi => by
        obtain ⟨hi, hfi, W, hb⟩ := hi
        obtain ⟨d, sub, w, rfl, -⟩ := hfi.ready task (.head k)
        exact ⟨hi.step hs hr, hfi.step hr, M.bounds_step hi hs hr (by simp) hb⟩)
      ⟨hstart, hderivations, hbounds⟩
    obtain ⟨d, sub, w, rfl, -⟩ := hfu.ready task (.head k)
    exact absurd (hb.smooth hu) hrough

/-- The values at the end of a smooth run are a model. -/
theorem SmoothSteps.model (h : SmoothSteps o (Move.Renders E S) o t) (ho : SmoothFrom o o [])
    (hE : ∀ format c, E format c → c < o.cells.size ∧
      ∀ x, t.value? c = some x → ∃ bs, format.encode x = .ok bs) :
    Model o E (fun c v => c < o.cells.size ∧ t.value? c = some v) t.value? where
  smoothFrom := ho
  agrees := h.agrees ho
  values := (h.smoothFrom ho).lasts
  settles _ _ h := h
  encodes := hE

end Settling

end Backpatch

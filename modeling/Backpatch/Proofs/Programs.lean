import Mathlib
import Backpatch.Instruction
import Backpatch.Proofs.Preparation
import Backpatch.Proofs.Sources

/-!
# Programs

A `Program` is a list of uses of the library by a caller who starts with nothing: calls, and writing
instructions. The caller holds the cells that were handed out, and the regions that are laid out
mark held cells only. Cells that the library makes for itself, such as those inside of a difference,
are never held. So a derived cell that no region marks stays guarded along the whole program.
-/

namespace Backpatch

open Store Failable Instruction

def FieldValue.Within (n : Nat) : FieldValue → Prop
  | .known _ => True
  | .deferred c => c < n

def Instruction.Within (n : Nat) : Instruction → Prop
  | .op .. | .ex1 _ | .callShort _ | .callShort8 _ => True
  | .ex2 _ payload | .ex2Signed _ payload | .ex3 _ payload | .ex3Signed _ payload =>
    payload.Within n
  | .label target | .branch8 target | .jump8 target | .branch16 target | .jump16 target
  | .callGeneral target _ => target < n

/-- The instruction holds the distance to a target. -/
def Instruction.isRelative : Instruction → Bool
  | .branch8 _ | .jump8 _ | .branch16 _ | .jump16 _ => true
  | _ => false

/-- One thing that a caller does. -/
inductive Use where
  | call (call : Call)
  | write (r : Region) (instruction : Instruction)

namespace Use

def run : Use → Op Unit
  | call c => c.run
  | write r instruction => discard (r.writeInstruction instruction)

/-- The handles that are used exist. -/
def Admissible (s : Store) : Use → Prop
  | call c => c.Admissible s
  | write _ instruction => instruction.Within s.cells.size

def Lasting : Use → Prop
  | call c => c.Lasting
  | write .. => True

/-- The cells that the regions of the use mark, or their entries settle, are in `S`. -/
def Marks (S : CellId → Prop) : Use → Prop
  | call (.layout r _ _) | call (.flatten r _ _ _) => Segment.SettlesAll S r.segments
  | call (.finalize l _ _) => ∀ e ∈ l.entries, S e.result
  | call (.build b _) => ∀ part ∈ b.sections, Segment.SettlesAll S part.region.segments
  | _ => True

/-- The cell that an operation returns. -/
def returned (op : Op CellId) (s : Store) : List CellId :=
  match op s with
  | .ok c _ => [c]
  | .error .. => []

/-- The cells that the caller holds afterwards: those returned, and the one by which a relative
instruction marks its end. -/
def hands (s : Store) : Use → List CellId
  | call (.newCell kind value derived) => returned (Store.newCell kind value derived) s
  | call (.tryMap source kind f) => returned (Store.tryMap source kind f) s
  | call (.tryBind source kind choose) => returned (Store.tryBind source kind choose) s
  | call (.subtract kind minuend subtrahend) =>
    returned (Store.subtract kind minuend subtrahend) s
  | write _ instruction => if instruction.isRelative then [s.cells.size] else []
  | call _ => []

end Use

/-- Uses one after another, whether they fail or not, with the cells that the caller holds before
and after. -/
inductive Program : List CellId → Store → List Use → List CellId → Store → Prop where
  | nil (held : List CellId) (s : Store) : Program held s [] held s
  | cons {held held' s use uses t} (ha : use.Admissible s) (hm : use.Marks (· ∈ held))
      (rest : Program (use.hands s ++ held) (use.run.after s) uses held' t) :
      Program held s (use :: uses) held' t

/-- The store that uses lead to. -/
def runUses (uses : List Use) (s : Store) : Store := uses.foldl (fun s use => use.run.after s) s

/-! ## Writing instructions -/

section Writing

variable {s : Store}

/-- Operations that leave the store as it is do so one after another. -/
theorem after_bind_self {α β : Type} {x : Op α} {f : α → Op β} (hx : x.after s = s)
    (hf : ∀ a, (f a).after s = s) : (x >>= f).after s = s := by
  rw [after_bind]
  cases h : x s with
  | ok a t =>
    obtain rfl := (after_of_ok h).symm.trans hx
    exact hf a
  | error e t => exact (after_of_error h).symm.trans hx

theorem after_check (format : IntFormat) (payload : FieldValue) :
    (check format payload).after s = s := by
  cases payload with
  | known v => simp [check]
  | deferred c =>
    simp only [check, after_bind, valueOf_run]
    cases s.value? c <;> simp

theorem after_writePaged {α : Type} [Table α] (r : Region) (page : Opcode) (sub : α)
    (format : IntFormat) (payload : FieldValue) (label : Option String) :
    (writePaged r page sub format payload label).after s = s :=
  after_bind_self (after_check ..) fun _ => after_bind_self (after_ofExcept ..)
    fun _ => after_ofExcept ..

/-- A relative instruction makes the cell of its end first. -/
theorem steps_writeRelative {α : Type} [Table α] (r : Region) (page : Opcode) (sub : α)
    (format : IntFormat) {target : CellId} (ht : target < s.cells.size) :
    Steps Move.Creates (s.addCell { kind := .offset })
      ((writeRelative r page sub format target).after s) := by
  rw [writeRelative, after_bind, newCell_run]
  refine Steps.bind ?_ fun payload s₂ _ _ => ?_
  · refine Steps.bind (steps_tryMap (ht.trans (by simp)) ..) fun a s₂ ha hs₂ => ?_
    refine Steps.bind (steps_tryMap (Nat.lt_of_lt_of_le (by simp) hs₂.grows.cells) ..)
      fun b s₃ hb hs₃ => ?_
    obtain ⟨rfl, hsize₂⟩ := tryMap_eq_ok ha
    obtain ⟨rfl, hsize₃⟩ := tryMap_eq_ok hb
    exact steps_subtract _
      (show (s.addCell { kind := .offset }).cells.size < s₃.cells.size by omega)
      (show s₂.cells.size < s₃.cells.size by omega)
  · rw [after_bind_self (after_writePaged ..) fun _ => after_pure ..]
    exact .refl s₂

theorem steps_writeInstruction (r : Region) {instruction : Instruction}
    (hw : instruction.Within s.cells.size) :
    Steps Move.Creates s ((r.writeInstruction instruction).after s) := by
  cases instruction with
  | op | callShort =>
    rw [Region.writeInstruction, after_ofExcept]
    exact .refl s
  | ex1 =>
    rw [Region.writeInstruction, writeByte, after_ofExcept]
    exact .refl s
  | ex2 | ex2Signed | ex3 | ex3Signed | callShort8 =>
    rw [Region.writeInstruction, after_writePaged]
    exact .refl s
  | label => exact .refl s
  | branch8 | jump8 | branch16 | jump16 =>
    exact Steps.trans (.quiet (m := .create .offset none false) trivial trivial rfl)
      (steps_writeRelative r _ _ _ hw)
  | callGeneral target argc =>
    refine Steps.bind (steps_tryMap hw ..) fun a s₁ _ _ => ?_
    rw [after_bind_self (after_check ..) fun _ => after_bind_self (after_writePaged ..)
      fun _ => after_ofExcept ..]
    exact .refl s₁

end Writing

/-! ## The way of a use -/

/-- Some cells are made first, up to the number `n`. Then come moves that let values last, and
settle only cells in `S` and the new ones directly. -/
def Passes (S : CellId → Prop) (s : Store) (n : Nat) (u : Store) (tasks : List Task) : Prop :=
  ∃ v, v.cells.size = n ∧ Visits Move.Prepares s v [] ∧
    Visits (Move.SettlesOnly fun c => S c ∨ s.cells.size ≤ c ∧ c < n) v u tasks

section Ways

variable {S : CellId → Prop} {s u : Store} {n : Nat} {tasks : List Task} {t : CellId} {l : Link}

theorem Passes.of_prepares (h : Steps Move.Prepares s u) : Passes S s u.cells.size u [] :=
  ⟨u, rfl, h.visits, .start⟩

theorem Passes.of_settlesOnly (h : Steps (Move.SettlesOnly S) s u) :
    Passes S s s.cells.size u [] := by
  refine ⟨s, rfl, .start, (h.mono fun m hm => ?_).visits⟩
  cases m with
  | settle c => exact Or.inl hm
  | _ => exact hm

theorem Passes.lasting (h : Passes S s n u tasks) (hl : Lasting s []) :
    Lasting u tasks ∧ n ≤ u.cells.size := by
  obtain ⟨v, rfl, hmade, hrest⟩ := h
  have hlv := hmade.invariant hl (fun hm hs => hs.start hm.plain.lasting) Lasting.step
  exact ⟨hrest.invariant hlv (fun hm hs => hs.start hm.lasting) Lasting.step, hrest.grows.cells⟩

/-- What is guarded stays guarded on the way, also from the new cells. -/
theorem Passes.guarded (h : Passes S s n u tasks) (hS : ∀ c, S c → c < s.cells.size)
    (hl : Lasting s []) (hg : l.Guarded S s [] t) :
    l.Guarded (fun c => S c ∨ s.cells.size ≤ c ∧ c < n) u tasks t := by
  obtain ⟨v, rfl, hmade, hrest⟩ := h
  have hextended : l.Guarded (fun c => S c ∨ s.cells.size ≤ c ∧ c < v.cells.size) s [] t :=
    hg.extend fun c hc => hc.imp_right And.left
  obtain ⟨hlv, hgv⟩ := hmade.guarded_quiet hl hextended
  refine (hrest.guarded (fun c hc => ?_) hlv hgv).2
  obtain hc | ⟨-, hc⟩ := hc
  · exact (hS c hc).trans_le hmade.grows.cells
  · exact hc

theorem Move.settlesOnly_of_prepares {m : Move} (h : m.Prepares) : m.SettlesOnly S := by
  cases m with
  | watch => exact h
  | settle => exact h.elim
  | _ => trivial

theorem Move.settlesOnly_of_closes {m : Move} (h : m.Closes) : m.SettlesOnly S := by
  cases m with
  | journal | unsubscribe => trivial
  | _ => exact h.elim

theorem Move.emits_settlesOnly (i : ImageId) (n : Nat) (S : CellId → Prop) :
    Move.Emits i n S (Move.SettlesOnly S) :=
  ⟨fun _ _ _ => trivial, fun _ _ => trivial, fun _ _ _ _ => trivial, fun _ _ hc => hc⟩

end Ways

section Building

variable {S T U : CellId → Prop} {s t : Store}

mutual

theorem Segment.Settles.and_mono {segment : Segment} (h : segment.Settles S)
    (g : segment.Settles T) (hU : ∀ c, S c → T c → U c) : segment.Settles U := by
  cases segment with
  | direct | deferred => trivial
  | mark => exact hU _ h g
  | postProcess => exact hU _ h g
  | nested segments => exact Segment.SettlesAll.and_mono h g hU

theorem Segment.SettlesAll.and_mono {segments : List Segment} (h : Segment.SettlesAll S segments)
    (g : Segment.SettlesAll T segments) (hU : ∀ c, S c → T c → U c) :
    Segment.SettlesAll U segments := by
  cases segments with
  | nil => trivial
  | cons segment rest =>
    exact ⟨Segment.Settles.and_mono h.1 g.1 hU, Segment.SettlesAll.and_mono h.2 g.2 hU⟩

end

theorem Segment.SettlesAll.mono {segments : List Segment} (h : Segment.SettlesAll S segments)
    (hU : ∀ c, S c → U c) : Segment.SettlesAll U segments :=
  h.and_mono h fun c hc _ => hU c hc

theorem Segment.settlesAll_iff {segments : List Segment} :
    Segment.SettlesAll S segments ↔ ∀ x ∈ segments, x.Settles S := by
  induction segments with
  | nil => simp [Segment.SettlesAll]
  | cons x rest ih => simp [Segment.SettlesAll, ih]

namespace Snapshot.Builder

theorem le_of_mem_boundsFrom {m n : Nat} {p : CellId × CellId} (h : p ∈ boundsFrom m n) :
    m ≤ p.1 ∧ m ≤ p.2 := by
  induction n generalizing m with
  | zero => cases h
  | succ n ih =>
    obtain rfl | h := List.mem_cons.1 h
    · exact ⟨le_rfl, Nat.le_succ m⟩
    · have := ih h
      omega

/-- A snapshot marks the cells that its sections mark, and cells of its own. -/
theorem prepare_settles {b : Builder} {refs : References} {crc : CellId} {r : Region}
    (h : b.prepare s = .ok (refs, crc, r) t) (hb : b.Within s.cells.size)
    (hS : ∀ part ∈ b.sections, Segment.SettlesAll S part.region.segments) :
    Segment.SettlesAll (fun c => S c ∨ s.cells.size ≤ c ∧ c < t.cells.size) r.segments := by
  have hwithin := prepare_within h hb
  obtain ⟨rfl, rfl, -, hseg, -⟩ := prepare_prepared h
  have hfresh : Segment.SettlesAll (fun c => S c ∨ s.cells.size ≤ c) r.segments := by
    rw [Segment.settlesAll_iff, hseg]
    intro x hx
    simp only [segments, fixedSegments, List.mem_append, List.mem_cons, List.mem_flatten,
      List.not_mem_nil, or_false, or_assoc] at hx
    obtain rfl | rfl | rfl | rfl | rfl | rfl | hx | rfl | ⟨part, hpart, hx⟩ | rfl | rfl := hx
    · trivial
    · trivial
    · trivial
    · trivial
    · trivial
    · trivial
    · rw [← List.map_uncurry_zip_eq_zipWith] at hx
      obtain ⟨⟨part, c⟩, -, rfl⟩ := List.mem_map.1 hx
      trivial
    · exact .inr le_rfl
    · rw [← List.map_uncurry_zip_eq_zipWith] at hpart
      obtain ⟨⟨part, bounds⟩, hp, rfl⟩ := List.mem_map.1 hpart
      obtain ⟨hpart, hbounds⟩ := List.of_mem_zip hp
      obtain ⟨hstart, hstop⟩ := le_of_mem_boundsFrom hbounds
      simp only [Function.uncurry, body, List.mem_cons, List.not_mem_nil, or_false] at hx
      obtain rfl | rfl | rfl := hx
      · exact .inr (by omega)
      · exact (hS part (by simpa using hpart)).mono fun c hc => .inl hc
      · exact .inr (by omega)
    · exact .inr (Nat.le_succ _)
    · exact .inr (by change s.cells.size ≤ s.cells.size + 5 + 3 * b.sections.size; omega)
  exact hfresh.and_mono hwithin.settles fun c hc hlt => hc.imp_right fun hle => ⟨hle, hlt⟩

theorem build_passes {b : Builder} (config : FlattenConfig) (h : Valid s [])
    (hb : b.Within s.cells.size)
    (hS : ∀ part ∈ b.sections, Segment.SettlesAll S part.region.segments) :
    ∃ n, Passes S s n ((b.build config).after s) [] := by
  have hprepare := prepare_prepares b s
  rw [build, after_bind]
  cases hrun : b.prepare s with
  | error e t =>
    rw [after_of_error hrun] at hprepare
    exact ⟨_, .of_prepares hprepare⟩
  | ok result t =>
    obtain ⟨refs, crc, r⟩ := result
    rw [after_of_ok hrun] at hprepare
    have himage : Steps Move.Prepares t { t with images := t.images.push {} } :=
      .quiet (m := .newImage) trivial trivial rfl
    have hmade := hprepare.trans himage
    have hsettles := prepare_settles hrun hb hS
    refine ⟨t.cells.size, { t with images := t.images.push {} }, rfl, hmade.visits,
      Steps.visits ?_⟩
    change Steps _ { t with images := t.images.push {} } ((do
      b.collect config refs crc t.images.size (← r.flatten t.images.size config) :
        Op Snapshot).after { t with images := t.images.push {} })
    refine Steps.bind (Region.flattenObserved_makes config _ (Move.emits_settlesOnly ..)
      (fun _ => Move.settlesOnly_of_closes) (hmade.valid h) (by simp)
      (show r.Within t.cells.size from prepare_within hrun hb) hsettles) fun summary v _ _ => ?_
    exact (steps_collect ..).mono fun _ => Move.settlesOnly_of_prepares

end Snapshot.Builder

/-! ## What is handed out -/

/-- A cell that a derivation returns is the last one of its store. -/
theorem Store.tryBind_eq_ok {source c : CellId} {kind : Kind} {choose : Datum → Except Error CellId}
    (h : Store.tryBind source kind choose s = .ok c t) :
    s.cells.size ≤ c ∧ t.cells.size = c + 1 := by
  simp only [tryBind, bind_run, valueOf_run] at h
  cases hv : s.value? source with
  | none =>
    simp only [hv] at h
    cases h
    simp [modifyCell]
  | some v =>
    simp only [hv] at h
    obtain ⟨inner, s', hi, h⟩ := bind_eq_ok.1 h
    obtain ⟨-, rfl⟩ := ofExcept_eq_ok.1 hi
    simp only [follow, bind_run, kindOf_run] at h
    obtain ⟨rfl, hsize⟩ := tryMap_eq_ok h
    exact ⟨le_rfl, hsize⟩

theorem Store.subtract_eq_ok {minuend subtrahend c : CellId} {kind : IntKind}
    (h : Store.subtract kind minuend subtrahend s = .ok c t) :
    s.cells.size ≤ c ∧ t.cells.size = c + 1 := by
  simp only [subtract, bind_run, valueOf_run] at h
  cases hv : s.value? minuend with
  | none =>
    simp only [hv] at h
    cases h
    simp [modifyCell]
  | some v =>
    simp only [hv] at h
    obtain ⟨inner, s', hi, h⟩ := bind_eq_ok.1 h
    simp only [follow, bind_run, kindOf_run] at h
    obtain ⟨rfl, hsize⟩ := tryMap_eq_ok hi
    obtain ⟨rfl, hsize'⟩ := tryMap_eq_ok h
    exact ⟨by omega, hsize'⟩

namespace Use

theorem hands_of_returned {op : Op CellId} {c : CellId} (h : c ∈ returned op s) :
    op s = .ok c (op.after s) := by
  unfold returned at h
  cases hrun : op s with
  | ok a u =>
    rw [hrun] at h
    obtain rfl := List.mem_singleton.1 h
    rw [after_of_ok hrun]
  | error e u =>
    rw [hrun] at h
    cases h

/-- Every use makes its way, and what it hands out is new. -/
theorem passes {use : Use} (h : Valid s []) (ha : use.Admissible s) (hl : use.Lasting)
    (hm : use.Marks S) :
    ∃ n, Passes S s n (use.run.after s) [] ∧ ∀ c ∈ use.hands s, s.cells.size ≤ c ∧ c < n := by
  cases use with
  | write r instruction =>
    have hsteps := steps_writeInstruction r ha
    rw [run, after_discard]
    refine ⟨_, .of_prepares (hsteps.mono fun _ => Move.Creates.prepares), fun c hc => ?_⟩
    cases instruction with
    | branch8 | jump8 | branch16 | jump16 =>
      obtain rfl := List.mem_singleton.1 hc
      exact ⟨le_rfl, Nat.lt_of_lt_of_le (by simp) (steps_writeRelative r _ _ _ ha).grows.cells⟩
    | _ => cases hc
  | call c =>
    have hcauses := Call.causes h ha
    -- Calls that make cells set nothing off.
    have makes : ∀ {op : Op CellId}, c.run = discard op → (∀ m, c.Causes s m → m.Creates) →
        (∀ d t, op s = .ok d t → s.cells.size ≤ d ∧ d < t.cells.size) →
        (call c).hands s = returned op s → ∃ n, Passes S s n (c.run.after s) [] ∧
          ∀ d ∈ (call c).hands s, s.cells.size ≤ d ∧ d < n := by
      intro op hrun hcreates hnew hhands
      refine ⟨_, .of_prepares (hcauses.mono fun m hm => (hcreates m hm).prepares),
        fun d hd => ?_⟩
      rw [hrun, after_discard]
      exact hnew d _ (hands_of_returned (hhands ▸ hd))
    have settles : Steps (Move.SettlesOnly S) s (c.run.after s) → (call c).hands s = [] →
        ∃ n, Passes S s n (c.run.after s) [] ∧
          ∀ d ∈ (call c).hands s, s.cells.size ≤ d ∧ d < n := by
      intro hsteps hhands
      exact ⟨_, .of_settlesOnly hsteps, by simp [hhands]⟩
    cases c with
    | newCell kind value derived =>
      refine makes rfl (fun _ hm => hm) (fun d t hd => ?_) rfl
      cases hd
      exact ⟨le_rfl, by simp⟩
    | tryMap source kind f =>
      refine makes rfl (fun _ hm => hm) (fun d t hd => ?_) rfl
      obtain ⟨rfl, hsize⟩ := tryMap_eq_ok hd
      exact ⟨le_rfl, hsize ▸ Nat.lt_succ_self _⟩
    | tryBind source kind choose =>
      refine makes rfl (fun _ hm => hm) (fun d t hd => ?_) rfl
      obtain ⟨hle, hsize⟩ := tryBind_eq_ok hd
      exact ⟨hle, hsize ▸ Nat.lt_succ_self _⟩
    | subtract kind minuend subtrahend =>
      refine makes rfl (fun _ hm => hm) (fun d t hd => ?_) rfl
      obtain ⟨hle, hsize⟩ := subtract_eq_ok hd
      exact ⟨hle, hsize ▸ Nat.lt_succ_self _⟩
    | resolve | confirm | unsubscribe | define | newImage | append | overwrite =>
      refine settles (hcauses.mono fun m hm => ?_) rfl
      rw [show m = _ from hm]
      trivial
    | unresolve => exact hl.elim
    | onResolve c a =>
      refine settles (hcauses.mono fun m hm => ?_) rfl
      obtain rfl | ⟨v, rfl⟩ := hm
      · exact hl
      · exact hl
    | layout r i observer =>
      refine settles ?_ rfl
      rw [Call.run, after_discard]
      exact r.layoutObserved_makes observer (Move.emits_settlesOnly ..)
        (fun _ => Move.settlesOnly_of_closes) h
        ha.1 ha.2 hm
    | finalize l config observer =>
      refine settles ?_ rfl
      rw [Call.run, after_discard]
      exact l.finalizeObserved_makes config observer (fun _ => Move.settlesOnly_of_closes)
        (fun e he _ => hm e he) h ha
    | drop l => exact settles ((l.steps_drop h).mono fun _ => Move.settlesOnly_of_closes) rfl
    | flatten r i config observer =>
      refine settles ?_ rfl
      rw [Call.run, after_discard]
      exact r.flattenObserved_makes config observer (Move.emits_settlesOnly ..)
        (fun _ => Move.settlesOnly_of_closes) h ha.1 ha.2 hm
    | build b config =>
      obtain ⟨n, hn⟩ := Snapshot.Builder.build_passes config h ha hm
      refine ⟨n, ?_, by simp [hands]⟩
      rwa [run, Call.run, after_discard]

end Use

end Building

/-! ## Along a program -/

/-- Values last, and the cells that the caller holds exist. -/
structure Holding (held : List CellId) (s : Store) : Prop where
  lasting : Lasting s []
  exist : ∀ c ∈ held, c < s.cells.size

theorem Holding.empty : Holding [] {} := ⟨Lasting.empty, by simp⟩

section Along

variable {S T : CellId → Prop} {held held' : List CellId} {s u : Store} {use : Use}
  {uses : List Use} {t : CellId} {l : Link}

theorem Use.Marks.and_mono {U : CellId → Prop} (h : use.Marks S) (g : use.Marks T)
    (hU : ∀ c, S c → T c → U c) : use.Marks U := by
  cases use with
  | write => trivial
  | call c =>
    cases c with
    | layout | flatten => exact Segment.SettlesAll.and_mono h g hU
    | finalize => exact fun e he => hU _ (h e he) (g e he)
    | build => exact fun part hp => (h part hp).and_mono (g part hp) hU
    | _ => trivial

theorem Holding.step (h : Holding held s) (use : Use) (ha : use.Admissible s) (hl : use.Lasting)
    (hm : use.Marks (· ∈ held)) : Holding (use.hands s ++ held) (use.run.after s) := by
  obtain ⟨n, hpasses, hnew⟩ := use.passes h.lasting.toValid ha hl hm
  obtain ⟨hlasting, hn⟩ := hpasses.lasting h.lasting
  refine ⟨hlasting, fun c hc => ?_⟩
  obtain hc | hc := List.mem_append.1 hc
  · exact (hnew c hc).2.trans_le hn
  · obtain ⟨v, -, hmade, hrest⟩ := hpasses
    exact (h.exist c hc).trans_le (hmade.grows.trans hrest.grows).cells

/-- A cell that is guarded, also from a use that marks no cell in `T`, is guarded afterwards. -/
theorem Holding.guarded (h : Holding held s) (use : Use) (ha : use.Admissible s) (hl : use.Lasting)
    (hm : use.Marks (· ∈ held)) (hT : use.Marks (¬ T ·))
    (hg : l.Guarded (fun c => c ∈ held ∧ ¬ T c) s [] t) :
    l.Guarded (fun c => c ∈ use.hands s ++ held ∧ ¬ T c) (use.run.after s) [] t := by
  have hboth : use.Marks fun c => c ∈ held ∧ ¬ T c := hm.and_mono hT fun _ h g => ⟨h, g⟩
  obtain ⟨n, hpasses, hnew⟩ := use.passes h.lasting.toValid ha hl hboth
  refine (hpasses.guarded (fun c hc => h.exist c hc.1) h.lasting hg).extend fun c hc => .inl ?_
  obtain ⟨hc, hnot⟩ := hc
  obtain hc | hc := List.mem_append.1 hc
  · exact .inr (hnew c hc)
  · exact .inl ⟨hc, hnot⟩

theorem Program.holding (h : Program held s uses held' u) (hs : Holding held s)
    (hl : ∀ use ∈ uses, use.Lasting) : Holding held' u := by
  induction h with
  | nil => exact hs
  | cons ha hm _ ih =>
    exact ih (hs.step _ ha (hl _ (.head _)) hm) fun use huse => hl use (.tail _ huse)

theorem Program.guarded (h : Program held s uses held' u) (hs : Holding held s)
    (hl : ∀ use ∈ uses, use.Lasting) (hT : ∀ use ∈ uses, use.Marks (¬ T ·))
    (hg : l.Guarded (fun c => c ∈ held ∧ ¬ T c) s [] t) :
    l.Guarded (fun c => c ∈ held' ∧ ¬ T c) u [] t := by
  induction h with
  | nil => exact hg
  | cons ha hm _ ih =>
    have hlasting := hl _ (.head _)
    exact ih (hs.step _ ha hlasting hm) (fun use huse => hl use (.tail _ huse))
      (fun use huse => hT use (.tail _ huse)) (hs.guarded _ ha hlasting hm (hT _ (.head _)) hg)

end Along

end Backpatch

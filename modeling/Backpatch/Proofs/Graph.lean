import Mathlib
import Backpatch.Proofs.Links

/-!
# Graphs of derived cells

A graph defines each of its nodes in terms of earlier ones. Its cells can be made and its sources
resolved in any order. `Graph.eval` says what the value of a node is, given the values of the
sources, and `Graph.Blocked` why it may have none; neither knows of cells, queues or an order of
events. Every run ends with these values.
-/

namespace Backpatch

open Store Failable

/-- How a node is made from nodes with smaller numbers. A function that picks a node picks one of
those that it has captured. -/
inductive Definition (node : Nat) where
  | source (kind : Kind) (value : Option Datum)
  | map (operand : Fin node) (kind : Kind) (f : Datum → Datum)
  | tryMap (operand : Fin node) (kind : Kind) (f : Datum → Except Error Datum)
  | bind (operand : Fin node) (kind : Kind) (captured : List (Fin node))
      (choose : Datum → { j // j ∈ captured })
  | tryBind (operand : Fin node) (kind : Kind) (captured : List (Fin node))
      (choose : Datum → Except Error { j // j ∈ captured })
  | subtract (kind : IntKind) (minuend subtrahend : Fin node)
  | signedOffset (operand : Fin node)

namespace Definition

variable {node : Nat}

def isSource : Definition node → Bool
  | source .. => true
  | _ => false

/-- The nodes that must be there before this one is made. -/
def operands : Definition node → List (Fin node)
  | source .. => []
  | map i .. | tryMap i .. | signedOffset i => [i]
  | bind i _ captured _ | tryBind i _ captured _ => i :: captured
  | subtract _ i j => [i, j]

/-- Makes the cell of the node, given the cells of its operands. -/
def make (cell : Fin node → CellId) : Definition node → Op CellId
  | source kind value => Store.newCell kind value false
  | map i kind f => Store.map (cell i) kind f
  | tryMap i kind f => Store.tryMap (cell i) kind f
  | bind i kind _ choose => Store.bind (cell i) kind fun v => cell (choose v)
  | tryBind i kind _ choose =>
    Store.tryBind (cell i) kind fun v => (choose v).map fun j => cell j.1
  | subtract kind i j => Store.subtract kind (cell i) (cell j)
  | signedOffset i => Store.signedOffset (cell i)

/-- The value of the node, given the values of earlier nodes, and its own if it is a source. -/
def eval (value : Fin node → Option Datum) (given : Option Datum) : Definition node → Option Datum
  | source .. => given
  | map i _ f => (value i).map f
  | tryMap i _ f => (value i).bind fun v => (f v).toOption
  | bind i _ _ choose => (value i).bind fun v => value (choose v)
  | tryBind i _ _ choose => (value i).bind fun v => (choose v).toOption.bind fun j => value j.1
  | subtract kind i j =>
    (value i).bind fun x => (value j).bind fun y => (Datum.difference kind x y).toOption
  | signedOffset i => (value i).bind fun v => v.signedOffset.toOption

/-- The node depends on the value of `j`. Binding depends on the node that it picks. -/
def DependsOn (value : Fin node → Option Datum) (j : Fin node) : Definition node → Prop
  | source .. => False
  | map i .. | tryMap i .. | signedOffset i => j = i
  | bind i _ _ choose => j = i ∨ ∃ v, value i = some v ∧ j = choose v
  | tryBind i _ _ choose => j = i ∨ ∃ v j', value i = some v ∧ choose v = .ok j' ∧ j = j'
  | subtract _ i i' => j = i ∨ j = i'

/-- The function of the node fails on the values of its operands. -/
def Fails (value : Fin node → Option Datum) : Definition node → Prop
  | source .. | map .. | bind .. => False
  | tryMap i _ f => ∃ v e, value i = some v ∧ f v = .error e
  | tryBind i _ _ choose => ∃ v e, value i = some v ∧ choose v = .error e
  | subtract kind i j =>
    ∃ x y e, value i = some x ∧ value j = some y ∧ Datum.difference kind x y = .error e
  | signedOffset i => ∃ v e, value i = some v ∧ v.signedOffset = .error e

/-- How the cell of the node is linked to those of its operands. -/
def link (cell : Fin node → CellId) : Definition node → Option Link
  | source .. => none
  | map i _ f => some (.derive (cell i) fun v => .ok (f v))
  | tryMap i _ f => some (.derive (cell i) f)
  | bind i _ _ choose => some (.follow (cell i) fun v => .ok (cell (choose v)))
  | tryBind i _ _ choose => some (.follow (cell i) fun v => (choose v).map fun j => cell j.1)
  | subtract kind i j => some (.minus kind (cell i) (cell j))
  | signedOffset i => some (.derive (cell i) Datum.signedOffset)

end Definition

/-- A definition for each node. -/
abbrev Graph := (node : Nat) → Definition node

/-- What has become of a graph so far: the cells of the nodes that were made, and the store. -/
structure Assembly where
  cells : Nat → Option CellId := fun _ => none
  store : Store := {}

def Assembly.cell (a : Assembly) (node : Nat) : CellId := (a.cells node).getD 0

def Assembly.value (a : Assembly) (node : Nat) : Option Datum :=
  (a.cells node).bind a.store.value?

namespace Graph

inductive Step where
  | make (node : Nat)
  | resolve (node : Nat) (v : Datum)
  | confirm (node : Nat) (v : Datum)

/-- A node is made once, and only if its operands are there. Where making it fails there is no
cell. -/
def step (g : Graph) (a : Assembly) : Step → Assembly
  | .make node =>
    if (a.cells node).isSome || (g node).operands.any fun j => (a.cells j).isNone then a
    else match (g node).make (fun j => a.cell j) a.store with
      | .ok c t => ⟨Function.update a.cells node (some c), t⟩
      | .error _ t => ⟨a.cells, t⟩
  | .resolve node v =>
    match a.cells node with
    | some c => ⟨a.cells, (Store.resolve c v).after a.store⟩
    | none => a
  | .confirm node v =>
    match a.cells node with
    | some c => ⟨a.cells, (Store.confirm c v).after a.store⟩
    | none => a

/-- Makes nodes and resolves them, in the given order. -/
def run (g : Graph) (steps : List Step) : Assembly := steps.foldl g.step {}

/-- The values of the sources. -/
def given (g : Graph) (a : Assembly) (node : Nat) : Option Datum :=
  if (g node).isSource then a.value node else none

/-- The value of a node, given the values of the sources. -/
def eval (g : Graph) (given : Nat → Option Datum) (node : Nat) : Option Datum :=
  (g node).eval (fun j => g.eval given j) (given node)
termination_by node
decreasing_by exact j.isLt

/-- The node depends on an unresolved source or a failing function. -/
inductive Blocked (g : Graph) (given : Nat → Option Datum) : Nat → Prop where
  | unresolved {node} (hs : (g node).isSource = true) (h : given node = none) : Blocked g given node
  | failing {node} (h : (g node).Fails fun j => g.eval given j) : Blocked g given node
  | depends {node} {j : Fin node} (h : (g node).DependsOn (fun j => g.eval given j) j)
      (hj : Blocked g given j) : Blocked g given node

end Graph

/-! ## Why a node has no value -/

theorem Definition.eval_eq_none_iff {node : Nat} (d : Definition node)
    (value : Fin node → Option Datum) (given : Option Datum) :
    d.eval value given = none ↔ (d.isSource = true ∧ given = none) ∨ d.Fails value ∨
      ∃ j, d.DependsOn value j ∧ value j = none := by
  cases d with
  | source => simp [eval, isSource, Fails, DependsOn]
  | map i kind f => simp [eval, isSource, Fails, DependsOn]
  | tryMap i kind f =>
    cases hv : value i with
    | none => simp [eval, isSource, DependsOn, hv]
    | some v => cases hf : f v <;> simp [eval, isSource, Fails, DependsOn, hv, hf, Except.toOption]
  | bind i kind captured choose =>
    cases hv : value i with
    | none => simp [eval, isSource, DependsOn, hv]
    | some v => simp [eval, isSource, Fails, DependsOn, hv]
  | tryBind i kind captured choose =>
    cases hv : value i with
    | none => simp [eval, isSource, DependsOn, hv]
    | some v =>
      cases hc : choose v <;> simp [eval, isSource, Fails, DependsOn, hv, hc, Except.toOption]
  | subtract kind i j =>
    cases hx : value i with
    | none => simp [eval, isSource, DependsOn, hx]
    | some x =>
      cases hy : value j with
      | none => simp [eval, isSource, DependsOn, hx, hy]
      | some y =>
        cases hd : Datum.difference kind x y <;>
          simp [eval, isSource, Fails, DependsOn, hx, hy, hd, Except.toOption]
  | signedOffset i =>
    cases hv : value i with
    | none => simp [eval, isSource, DependsOn, hv]
    | some v =>
      cases hf : v.signedOffset <;>
        simp [eval, isSource, Fails, DependsOn, hv, hf, Except.toOption]

theorem Graph.eval_eq_none_iff (g : Graph) (given : Nat → Option Datum) (node : Nat) :
    g.eval given node = none ↔ g.Blocked given node := by
  constructor
  · intro h
    induction node using Nat.strong_induction_on with
    | _ node ih =>
      rw [Graph.eval, Definition.eval_eq_none_iff] at h
      obtain ⟨hs, hg⟩ | hf | ⟨j, hj, hv⟩ := h
      · exact .unresolved hs hg
      · exact .failing hf
      · exact .depends hj (ih j j.isLt hv)
  · intro h
    induction h with
    | unresolved hs hg =>
      rw [Graph.eval, Definition.eval_eq_none_iff]
      exact .inl ⟨hs, hg⟩
    | failing hf =>
      rw [Graph.eval, Definition.eval_eq_none_iff]
      exact .inr (.inl hf)
    | depends hj _ ih =>
      rw [Graph.eval, Definition.eval_eq_none_iff]
      exact .inr (.inr ⟨_, hj, ih⟩)

/-! ## New cells are linked -/

section Make

variable {s u : Store} {c source : CellId} {kind : Kind}

theorem Move.Creates.orderly {m : Move} (h : m.Creates) : m.Orderly := by
  cases m <;> trivial

theorem Store.attach_pends (sub : CellId → Subscriber) (hs : source < s.cells.size)
    (hv : s.value? source = none) :
    Pends ((s.newDerived kind none).enqueue source (sub s.cells.size)) [] s.cells.size source
      (sub s.cells.size) := by
  refine ⟨by simp [value?_newDerived], .inl ⟨?_, mem_queue_enqueue_self _ _ (hs.trans (by simp))⟩⟩
  rw [value?_enqueue, value?_newDerived, if_neg (Nat.ne_of_lt hs)]
  exact hv

theorem Store.tryMap_derives {f : Datum → Except Error Datum} (hs : source < s.cells.size)
    (h : Store.tryMap source kind f s = .ok c u) : Derives u [] c source f := by
  rw [tryMap_run] at h
  cases hv : s.value? source with
  | none =>
    simp only [hv] at h
    cases h
    exact .inl (attach_pends (.derive · f) hs hv)
  | some v =>
    cases hf : f v with
    | error e => simp [hv, hf] at h
    | ok w =>
      simp only [hv, hf] at h
      cases h
      refine .inr ⟨v, value?_newDerived_of_some s kind (some w) hv, fun x hx => ?_, by simp [hf]⟩
      obtain rfl := Except.ok.inj (hf.symm.trans hx)
      simp [value?_newDerived]

theorem Store.follow_derives {inner : CellId} (hi : inner < s.cells.size)
    (h : Store.follow inner s = .ok c u) : Derives u [] c inner .ok :=
  tryMap_derives hi h

theorem Store.tryBind_follows {choose : Datum → Except Error CellId} (ho : Orderly s [])
    (hs : source < s.cells.size) (hch : ∀ v inner, choose v = .ok inner → inner < s.cells.size)
    (h : Store.tryBind source kind choose s = .ok c u) : Follows u [] c source choose := by
  obtain ⟨_, _, hv, h⟩ := bind_eq_ok.1 h
  cases hv
  cases hv : s.value? source with
  | none =>
    simp only [hv] at h
    cases h
    exact .inl (attach_pends (.follow · choose) hs hv)
  | some v =>
    simp only [hv] at h
    obtain ⟨inner, t, hc, h⟩ := bind_eq_ok.1 h
    obtain ⟨hinner, rfl⟩ := ofExcept_eq_ok.1 hc
    have hlt := hch v inner hinner
    have hst : Steps Move.Creates s u := after_of_ok h ▸ steps_follow hlt
    refine .inr ⟨v, hst.value?_eq (fun _ hm => hm.orderly.lasting) ho.toLasting hv,
      fun inner' hc' => ?_, by simp [hinner]⟩
    obtain rfl := Except.ok.inj (hinner.symm.trans hc')
    exact follow_derives hlt h

theorem Store.subtract_subtracts {kind : IntKind} {subtrahend : CellId} (ho : Orderly s [])
    (hm : source < s.cells.size) (hs : subtrahend < s.cells.size)
    (h : Store.subtract kind source subtrahend s = .ok c u) :
    Subtracts u [] c kind source subtrahend := by
  obtain ⟨_, _, hv, h⟩ := bind_eq_ok.1 h
  cases hv
  cases hv : s.value? source with
  | none =>
    simp only [hv] at h
    cases h
    exact .inl (attach_pends (.minus · kind subtrahend) hm hv)
  | some v =>
    simp only [hv] at h
    obtain ⟨m, t, ht, h⟩ := bind_eq_ok.1 h
    obtain ⟨rfl, hsize⟩ := tryMap_eq_ok ht
    have hlt : s.cells.size < t.cells.size := hsize ▸ Nat.lt_succ_self _
    have hst : Steps Move.Creates s t := after_of_ok ht ▸ steps_tryMap hs ..
    have htu : Steps Move.Creates t u := after_of_ok h ▸ steps_follow hlt
    have hvalue := (hst.trans htu).value?_eq (fun _ hm => hm.orderly.lasting) ho.toLasting hv
    have hlink := htu.link (l := .derive subtrahend (Datum.difference kind v))
      (fun _ hm => hm.orderly) (hst.orderly (fun _ hm => hm.orderly) ho) (tryMap_derives hs ht)
    exact .inr ⟨v, hvalue, .inl ⟨s.cells.size, hlink, follow_derives hlt h⟩⟩

namespace Definition

variable {node : Nat} {cell : Fin node → CellId}

theorem picked_lt {n : Nat} {captured : List (Fin node)}
    {x : Except Error { j // j ∈ captured }} (h : ∀ j ∈ captured, cell j < n)
    (hc : x.map (fun j => cell j.1) = .ok c) : c < n := by
  cases x with
  | ok j =>
    obtain rfl := Except.ok.inj hc
    exact h j j.2
  | error e => cases hc

theorem steps_make (d : Definition node) (h : ∀ j ∈ d.operands, cell j < s.cells.size) :
    Steps Move.Creates s ((d.make cell).after s) := by
  cases d with
  | source kind value => exact .quiet (m := .create kind value false) trivial trivial rfl
  | map i kind f => exact steps_tryMap (h i (.head _)) ..
  | tryMap i kind f => exact steps_tryMap (h i (.head _)) ..
  | bind i kind captured choose =>
    exact steps_tryBind (h i (.head _)) kind fun v _ hi =>
      picked_lt (x := .ok (choose v)) (fun j hj => h j (.tail _ hj)) hi
  | tryBind i kind captured choose =>
    exact steps_tryBind (h i (.head _)) kind fun _ _ hi =>
      picked_lt (fun j hj => h j (.tail _ hj)) hi
  | subtract kind i j => exact steps_subtract kind (h i (.head _)) (h j (.tail _ (.head _)))
  | signedOffset i => exact steps_tryMap (h i (.head _)) ..

/-- The cell of a node that is no source is linked to those of its operands. -/
theorem make_holds (d : Definition node) {l : Link} (ho : Orderly s [])
    (h : ∀ j ∈ d.operands, cell j < s.cells.size) (hm : d.make cell s = .ok c u)
    (hl : d.link cell = some l) : l.Holds u [] c := by
  cases d with
  | source => simp [link] at hl
  | map i kind f =>
    obtain rfl := Option.some.inj hl
    exact tryMap_derives (h i (.head _)) hm
  | tryMap i kind f =>
    obtain rfl := Option.some.inj hl
    exact tryMap_derives (h i (.head _)) hm
  | bind i kind captured choose =>
    obtain rfl := Option.some.inj hl
    refine tryBind_follows ho (h i (.head _)) (fun v _ hi => ?_) hm
    exact picked_lt (x := .ok (choose v)) (fun j hj => h j (.tail _ hj)) hi
  | tryBind i kind captured choose =>
    obtain rfl := Option.some.inj hl
    refine tryBind_follows ho (h i (.head _)) (fun _ _ hi => ?_) hm
    exact picked_lt (fun j hj => h j (.tail _ hj)) hi
  | subtract kind i j =>
    obtain rfl := Option.some.inj hl
    exact subtract_subtracts ho (h i (.head _)) (h j (.tail _ (.head _))) hm
  | signedOffset i =>
    obtain rfl := Option.some.inj hl
    exact tryMap_derives (h i (.head _)) hm

theorem lt_size_of_make (d : Definition node) (ho : Orderly s [])
    (h : ∀ j ∈ d.operands, cell j < s.cells.size) (hm : d.make cell s = .ok c u) :
    c < u.cells.size := by
  cases hl : d.link cell with
  | none =>
    cases d with
    | source kind value =>
      cases hm
      simp
    | _ => simp [link] at hl
  | some l =>
    have hst : Steps Move.Creates s u := after_of_ok hm ▸ d.steps_make h
    exact (d.make_holds ho h hm hl).lt_size (hst.orderly (fun _ hm => hm.orderly) ho)

/-- A link depends on the cells of the operands only. -/
theorem link_congr (d : Definition node) {cell' : Fin node → CellId}
    (h : ∀ j ∈ d.operands, cell j = cell' j) : d.link cell = d.link cell' := by
  cases d with
  | source => rfl
  | map i | tryMap i | signedOffset i => simp only [link, h i (.head _)]
  | bind i kind captured choose =>
    have hc : ∀ v, cell (choose v) = cell' (choose v) := fun v => h _ (.tail _ (choose v).2)
    simp only [link, h i (.head _), hc]
  | tryBind i kind captured choose =>
    have hc : ∀ j : { j // j ∈ captured }, cell j = cell' j := fun j => h j (.tail _ j.2)
    simp only [link, h i (.head _), hc]
  | subtract kind i j => simp only [link, h i (.head _), h j (.tail _ (.head _))]

/-- A node evaluates to what its link gives. -/
theorem value_link (d : Definition node) (given : Option Datum) {l : Link}
    (hl : d.link cell = some l) : l.value s = d.eval (fun j => s.value? (cell j)) given := by
  cases d with
  | source => simp [link] at hl
  | map i | bind i =>
    obtain rfl := Option.some.inj hl
    simp only [Link.value, eval, Except.toOption]
    cases s.value? (cell i) <;> rfl
  | tryBind i kind captured choose =>
    obtain rfl := Option.some.inj hl
    simp only [Link.value, eval]
    congr 1
    funext v
    cases choose v <;> rfl
  | tryMap | subtract | signedOffset =>
    obtain rfl := Option.some.inj hl
    rfl

theorem eval_congr (d : Definition node) (given : Option Datum)
    {value value' : Fin node → Option Datum} (h : ∀ j ∈ d.operands, value j = value' j) :
    d.eval value given = d.eval value' given := by
  cases d with
  | source => rfl
  | map i | tryMap i | signedOffset i => simp only [eval, h i (.head _)]
  | bind i kind captured choose =>
    have hc : ∀ v, value (choose v) = value' (choose v) := fun v => h _ (.tail _ (choose v).2)
    simp only [eval, h i (.head _), hc]
  | tryBind i kind captured choose =>
    have hc : ∀ j : { j // j ∈ captured }, value j = value' j := fun j => h j (.tail _ j.2)
    simp only [eval, h i (.head _), hc]
  | subtract kind i j => simp only [eval, h i (.head _), h j (.tail _ (.head _))]

end Definition

end Make

/-! ## Every run evaluates the graph -/

/-- The cells of an assembly are linked as the graph says. -/
structure Graph.Sound (g : Graph) (a : Assembly) : Prop where
  orderly : Orderly a.store []
  exist : ∀ node c, a.cells node = some c → c < a.store.cells.size
  operands : ∀ node c, a.cells node = some c → ∀ j ∈ (g node).operands, ∃ d, a.cells j = some d
  linked : ∀ node c, a.cells node = some c →
    ∀ l, (g node).link (fun j => a.cell j) = some l → l.Holds a.store [] c

namespace Graph.Sound

variable {g : Graph} {a : Assembly} {u : Store}

theorem empty (g : Graph) : g.Sound {} :=
  { orderly := .empty
    exist := by simp
    operands := by simp
    linked := by simp }

/-- Moves that make cells and resolve them leave the links as they are. -/
theorem steps {P : Move → Prop} (h : g.Sound a) (hst : Steps P a.store u)
    (hP : ∀ m, P m → m.Orderly) : g.Sound ⟨a.cells, u⟩ :=
  { orderly := hst.orderly hP h.orderly
    exist := fun node c hc => (h.exist node c hc).trans_le hst.grows.cells
    operands := h.operands
    linked := fun node c hc l hl => hst.link hP h.orderly (h.linked node c hc l hl) }

theorem add (h : g.Sound a) {node : Nat} {c : CellId} (hnew : a.cells node = none)
    (hops : ∀ j ∈ (g node).operands, ∃ d, a.cells j = some d) (hc : c < a.store.cells.size)
    (hl : ∀ l, (g node).link (fun j => a.cell j) = some l → l.Holds a.store [] c) :
    g.Sound ⟨Function.update a.cells node (some c), a.store⟩ := by
  have old : ∀ {n d}, a.cells n = some d → Function.update a.cells node (some c) n = some d := by
    intro n d hn
    rw [Function.update_of_ne]
    · exact hn
    · rintro rfl
      simp [hnew] at hn
  have ops : ∀ n, (∀ j ∈ (g n).operands, ∃ d, a.cells j = some d) → (g n).link
      (fun j => Assembly.cell ⟨Function.update a.cells node (some c), a.store⟩ j) =
        (g n).link fun j => a.cell j := by
    intro n hn
    refine (g n).link_congr fun j hj => ?_
    obtain ⟨d, hd⟩ := hn j hj
    simp only [Assembly.cell, hd, old hd]
  have cases : ∀ {n d}, Function.update a.cells node (some c) n = some d →
      (n = node ∧ d = c) ∨ a.cells n = some d := by
    intro n d hn
    by_cases hnode : n = node
    · subst hnode
      rw [Function.update_self] at hn
      exact .inl ⟨rfl, (Option.some.inj hn).symm⟩
    · rw [Function.update_of_ne hnode] at hn
      exact .inr hn
  refine ⟨h.orderly, fun n d hd => ?_, fun n d hd j hj => ?_, fun n d hd l hlink => ?_⟩
  · obtain ⟨-, rfl⟩ | hd := cases hd
    · exact hc
    · exact h.exist n d hd
  · obtain ⟨e, he⟩ : ∃ e, a.cells j = some e := by
      obtain ⟨rfl, -⟩ | hd := cases hd
      · exact hops j hj
      · exact h.operands n d hd j hj
    exact ⟨e, old he⟩
  · obtain ⟨rfl, rfl⟩ | hd := cases hd
    · exact hl l ((ops n hops).symm.trans hlink)
    · exact h.linked n d hd l ((ops n (h.operands n d hd)).symm.trans hlink)

theorem step (h : g.Sound a) (st : Graph.Step) : g.Sound (g.step a st) := by
  cases st with
  | make node =>
    simp only [Graph.step]
    split_ifs with hnode
    · exact h
    simp only [Bool.or_eq_true, List.any_eq_true, Option.isNone_iff_eq_none, not_or, not_exists,
      not_and, Bool.not_eq_true, Option.isSome_eq_false_iff] at hnode
    obtain ⟨hnew, hops⟩ := hnode
    have hops : ∀ j ∈ (g node).operands, ∃ d, a.cells j = some d :=
      fun j hj => Option.ne_none_iff_exists'.1 (hops j hj)
    have hlt : ∀ j ∈ (g node).operands, a.cell j < a.store.cells.size := by
      intro j hj
      obtain ⟨d, hd⟩ := hops j hj
      rw [Assembly.cell, hd]
      exact h.exist j d hd
    have hst : Steps Move.Creates a.store (((g node).make fun j => a.cell j).after a.store) :=
      (g node).steps_make hlt
    split
    next c t hm =>
      rw [after_of_ok hm] at hst
      exact (h.steps hst fun _ hm => hm.orderly).add hnew hops
        ((g node).lt_size_of_make h.orderly hlt hm)
        fun l hl => (g node).make_holds h.orderly hlt hm hl
    next e t hm =>
      rw [after_of_error hm] at hst
      exact h.steps hst fun _ hm => hm.orderly
  | resolve node v =>
    simp only [Graph.step]
    split
    next c hc =>
      exact h.steps (P := Move.Orderly)
        (steps_resolve h.orderly.toValid (h.exist node c hc) trivial) fun _ hm => hm
    next => exact h
  | confirm node v =>
    simp only [Graph.step]
    split
    next c hc =>
      exact h.steps (P := Move.Orderly)
        (steps_confirm h.orderly.toValid (h.exist node c hc) trivial) fun _ hm => hm
    next => exact h

theorem run (g : Graph) (steps : List Graph.Step) : g.Sound (g.run steps) := by
  have : ∀ {a}, g.Sound a → g.Sound (steps.foldl g.step a) := by
    induction steps with
    | nil => exact fun h => h
    | cons st steps ih => exact fun h => ih (h.step st)
  exact this (empty g)

/-- The cell of a node has the value of the node. -/
theorem value (h : g.Sound a) {node : Nat} {c : CellId} (hc : a.cells node = some c) :
    a.store.value? c = g.eval (g.given a) node := by
  induction node using Nat.strong_induction_on generalizing c with
  | _ node ih =>
    have hops : ∀ j ∈ (g node).operands, a.store.value? (a.cell j) = g.eval (g.given a) j := by
      intro j hj
      obtain ⟨d, hd⟩ := h.operands node c hc j hj
      rw [Assembly.cell, hd]
      exact ih j j.isLt hd
    rw [Graph.eval, ← (g node).eval_congr _ hops]
    cases hl : (g node).link (fun j => a.cell j) with
    | some l => rw [(h.linked node c hc l hl).value, (g node).value_link _ hl]
    | none =>
      cases hd : g node with
      | source => simp [Definition.eval, Graph.given, hd, Definition.isSource, Assembly.value, hc]
      | _ => simp [hd, Definition.link] at hl

end Graph.Sound

/-- However the making of the nodes and the resolving of the sources are interleaved, a node ends
with its value, and without one just if it is blocked. Only the values of the sources matter. -/
theorem derived_values_order_independent (g : Graph) (steps : List Graph.Step) :
    (∀ node c, (g.run steps).cells node = some c →
      (g.run steps).store.value? c = g.eval (g.given (g.run steps)) node ∧
      ((g.run steps).store.value? c = none ↔ g.Blocked (g.given (g.run steps)) node)) ∧
    ∀ steps', g.given (g.run steps') = g.given (g.run steps) →
      ∀ node c c', (g.run steps).cells node = some c → (g.run steps').cells node = some c' →
        (g.run steps').store.value? c' = (g.run steps).store.value? c := by
  have hsound := Graph.Sound.run g steps
  refine ⟨fun node c hc => ?_, fun steps' hgiven node c c' hc hc' => ?_⟩
  · have hvalue := hsound.value hc
    exact ⟨hvalue, by rw [hvalue, g.eval_eq_none_iff]⟩
  · rw [hsound.value hc, (Graph.Sound.run g steps').value hc', hgiven]

/-- Two sources, their difference, and a node that follows one of them or the other. -/
def pickGraph : Graph
  | 2 => .subtract .i64 0 1
  | 3 => .bind 2 (.int .i64) [0, 1] fun v =>
      if v = .int 4 then ⟨0, .head _⟩ else ⟨1, .tail _ (.head _)⟩
  | _ => .source (.int .i64) none

def pickEarly : List Graph.Step :=
  [.make 0, .make 1, .make 2, .make 3, .resolve 1 (.int 3), .resolve 0 (.int 7)]

def pickLate : List Graph.Step :=
  [.make 1, .make 0, .resolve 0 (.int 7), .make 2, .resolve 1 (.int 3), .make 3]

theorem derived_values_order_independent_pick :
    pickGraph.given (pickGraph.run pickLate) = pickGraph.given (pickGraph.run pickEarly) ∧
      (pickGraph.run pickEarly).value 3 = some (.int 7) ∧
      (pickGraph.run pickEarly).cells 3 = some 3 ∧ (pickGraph.run pickLate).cells 3 = some 4 ∧
      (pickGraph.run pickLate).store.value? 4 = (pickGraph.run pickEarly).store.value? 3 := by
  have hgiven : pickGraph.given (pickGraph.run pickLate) =
      pickGraph.given (pickGraph.run pickEarly) := by
    funext node
    match node with
    | 0 | 1 | 2 | 3 => decide +kernel
    | n + 4 => rfl
  have hearly : (pickGraph.run pickEarly).cells 3 = some 3 := by decide +kernel
  have hlate : (pickGraph.run pickLate).cells 3 = some 4 := by decide +kernel
  exact ⟨hgiven, by decide +kernel, hearly, hlate,
    (derived_values_order_independent pickGraph pickEarly).2 pickLate hgiven 3 3 4 hearly hlate⟩

end Backpatch

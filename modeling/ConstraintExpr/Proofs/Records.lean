import ConstraintExpr.Proofs.Callbacks

/-!
# The records of a walk

A walk records each visit just before it calls back. So its journal tells which nodes
have been called back for, in which order and at which depth, also when the walk ends
with a failure.

* `Visitor.journal_marking`: what a visitor adds to the journal itself comes after the
  record of the visit;
* `Visitor.journal_walkJournaled`: the records are those of the frames called back for;
* `Visitor.forall₂_records`: they tell the kinds and the depths of the nodes that are
  due, up to the first one whose callback fails;
* `Visitor.records_mirror_callbacks` puts them together with what an unlimited walk that
  succeeds leaves, one record for each node, the deepest one on the last level.
-/

namespace ConstraintExpr

/-- What is recorded before the node of the frame is called back for. -/
def Frame.record (frame : Frame) : Record :=
  .event (.visit frame.expr.kind frame.depth)

namespace Visitor

variable {σ ε : Type}

/-- The visitor with a journal at hand, to which it adds records of its own whenever it
is called back for a node. -/
def marking (v : Visitor σ ε) (mark : Expr → List Record) : Visitor (σ × Journal) ε :=
  .ofVisit v.onTraversal fun e (state, journal) =>
    let (result, next) := v.visit e state
    (result, next, journal ++ (mark e).toArray)

/-- What a walk records on behalf of a frame: the visit, then what the visitor adds. -/
def marked (mark : Expr → List Record) (frame : Frame) : List Record :=
  frame.record :: mark frame.expr

theorem unrecorded_eq_marking (v : Visitor σ ε) : v.unrecorded = v.marking fun _ => [] := by
  refine ext_visit rfl fun e => ?_
  rw [unrecorded, marking, visit_ofVisit, visit_ofVisit]
  funext recorded
  obtain ⟨state, journal⟩ := recorded
  show _ = ((v.visit e state).1, (v.visit e state).2, journal ++ #[])
  rw [Array.append_empty]
  rfl

/-- A journal gains the records for each frame that is noted. -/
theorem lockstep_noting (v : Visitor σ ε) (mark : Expr → List Record) (journal : Journal) :
    (v.marking mark).recording.Lockstep
      (fun recorded noted =>
        recorded.1 = noted.1 ∧ recorded.2 = journal ++ (noted.2.flatMap (marked mark)).toArray)
      v.callback.noting := by
  refine ⟨rfl, fun depth e recorded noted h => ?_⟩
  obtain ⟨state, current⟩ := recorded
  obtain ⟨other, frames⟩ := noted
  obtain ⟨rfl, rfl⟩ : state = other ∧ current = _ := h
  rw [recording_call, marking, visit_ofVisit]
  refine ⟨rfl, rfl, ?_⟩
  show (journal ++ (frames.flatMap (marked mark)).toArray).push (.event (.visit e.kind depth)) ++
      (mark e).toArray =
    journal ++ ((frames ++ [Frame.mk e depth true]).flatMap (marked mark)).toArray
  rw [List.flatMap_append, List.flatMap_singleton, ← List.append_toArray]
  simp [marked, Frame.record]

/-- Each visit is recorded before the visitor adds anything to the journal. -/
theorem journal_marking (v : Visitor σ ε) (mark : Expr → List Record) (limit : Option Nat)
    (e : Expr) (state : σ) (journal : Journal) :
    ((v.marking mark).recording.walk limit e (state, journal)).2.2 =
      journal ++ ((v.called limit e state).flatMap (marked mark)).toArray := by
  have hjournal := ((v.lockstep_noting mark journal).walk limit e (state, journal) (state, [])
    ⟨rfl, by simp⟩).2.2
  rw [Callback.walk, Callback.walk, Walk.run_noting, List.nil_append] at hjournal
  exact hjournal

/-- A walk records the frames that it calls back for, and nothing else. -/
theorem journal_walkJournaled (v : Visitor σ ε) (limit : Option Nat) (e : Expr) (state : σ)
    (journal : Journal) :
    (v.walkJournaled limit e state journal).2 =
      journal ++ ((v.called limit e state).map Frame.record).toArray := by
  have hjournal := v.journal_marking (fun _ => []) limit e state journal
  rw [← v.unrecorded_eq_marking] at hjournal
  rw [List.map_eq_flatMap]
  exact hjournal

/-- The records tell the nodes called back for, each with its kind and its depth. -/
theorem forall₂_records {v : Visitor σ ε} {limit : Option Nat} {e : Expr} {state : σ}
    {due : List Address} (hdue : e.DueWithin limit due)
    (hcalled : v.called limit e state =
      (v.callback.upToFailure e 1 due state).filterMap (e.frameAt 1)) :
    List.Forall₂
      (fun a record => ∃ node, e.node? a = some node ∧
        record = .event (.visit node.kind (a.length + 1)))
      (v.callback.upToFailure e 1 due state) ((v.called limit e state).map Frame.record) := by
  have hnodes : ∀ a ∈ v.callback.upToFailure e 1 due state, (e.node? a).isSome := by
    intro a ha
    exact Expr.mem_addresses.mp
      (((v.callback.upToFailure_prefix e 1 due state).trans hdue.inOrder).subset ha)
  rw [hcalled, List.forall₂_map_right_iff]
  refine (Expr.forall₂_frameAt hnodes 1).imp fun a frame hframe => ?_
  obtain ⟨node, hnode, rfl⟩ := Option.map_eq_some_iff.mp hframe
  exact ⟨node, hnode, by rw [Frame.record, Nat.add_comm]⟩

/-! ### Walks that succeed -/

/-- In the records of an unlimited walk that succeeds, the depth of the tree is the
greatest depth. -/
theorem greatest_depth {v : Visitor σ ε} {e : Expr} {state final : σ}
    (h : v.walk none e state = (.ok (), final)) :
    (∀ kind depth, .event (.visit kind depth) ∈ (v.called none e state).map Frame.record →
        depth ≤ e.depth) ∧
      ∃ kind, .event (.visit kind e.depth) ∈ (v.called none e state).map Frame.record := by
  rw [called_none_of_ok h, e.depth_eq_height]
  constructor
  · intro kind depth hmem
    obtain ⟨frame, hframe, hrecord⟩ := List.mem_map.mp hmem
    obtain ⟨a, ha, hat⟩ := List.mem_filterMap.mp hframe
    obtain ⟨node, _, rfl⟩ := Option.map_eq_some_iff.mp hat
    have hdepth : 1 + a.length = depth := by
      rw [Frame.record] at hrecord
      injection hrecord with hevent
      injection hevent
    have := Expr.length_lt_height (Expr.mem_addresses.mp ha)
    omega
  · have hpos := e.height_pos
    obtain ⟨a, ha, hlength⟩ :=
      Expr.exists_node_of_lt_height (show e.height - 1 < e.height by omega)
    obtain ⟨node, hnode⟩ := Option.isSome_iff_exists.mp ha
    have hdepth : 1 + a.length = e.height := by omega
    refine ⟨node.kind, List.mem_map.mpr ⟨⟨node, e.height, true⟩,
      List.mem_filterMap.mpr ⟨a, Expr.mem_addresses.mpr ha, ?_⟩, rfl⟩⟩
    rw [Expr.frameAt, hnode, Option.map_some, hdepth]

/-- A visit is recorded, and then the node is called back for, so that what a visitor adds
to the journal itself stands right behind the record of its visit. A walk adds to the
journal one record for each callback that it makes, in their order and with the one that
fails as the last; each tells the kind of its node and how deep the node lies in the tree,
and nothing is recorded for the nodes that are not due within the limit or come after a
failure. An unlimited walk that succeeds makes as many records as the tree has nodes, and
the greatest depth recorded is the depth of the tree. -/
theorem records_mirror_callbacks (v : Visitor σ ε) (limit : Option Nat) (e : Expr) (state : σ)
    (journal : Journal) :
    (∀ depth node, v.journaled.call depth node =
        (Action.record (.event (.visit node.kind depth))).andThen
          (Action.unrecorded (v.visit node))) ∧
      (∀ mark : Expr → List Record,
        ((v.marking mark).recording.walk limit e (state, journal)).2.2 =
          journal ++ ((v.called limit e state).flatMap (marked mark)).toArray) ∧
      ∃ records : List Record,
        (v.walkJournaled limit e state journal).2 = journal ++ records.toArray ∧
          records = (v.called limit e state).map Frame.record ∧
          (∃ due, e.DueWithin limit due ∧
            List.Forall₂
              (fun a record => ∃ node, e.node? a = some node ∧
                record = .event (.visit node.kind (a.length + 1)))
              (v.callback.upToFailure e 1 due state) records) ∧
          (limit = none → ∀ final, v.walk none e state = (.ok (), final) →
            records.length = e.nodeCount ∧
              (∀ kind depth, .event (.visit kind depth) ∈ records → depth ≤ e.depth) ∧
              ∃ kind, .event (.visit kind e.depth) ∈ records) := by
  obtain ⟨due, hdue, hcalled⟩ := v.callback.exists_called_eq limit e state
  refine ⟨v.journaled_call, fun mark => v.journal_marking mark limit e state journal, _,
    v.journal_walkJournaled limit e state journal, rfl,
    ⟨due, hdue, forall₂_records hdue hcalled⟩, ?_⟩
  rintro rfl final hwalk
  obtain ⟨hbound, hdeepest⟩ := greatest_depth hwalk
  exact ⟨by rw [List.length_map, Expr.length_called hwalk], hbound, hdeepest⟩

end Visitor

end ConstraintExpr

import Mathlib.Data.List.Perm.Subperm
import ConstraintExpr.Proofs.Callbacks
import ConstraintExpr.Proofs.Reachability
import ConstraintExpr.Proofs.Subtree

/-!
# The frames on the stack of a walk

A frame has the tree that it stands for but not its place. The sites of a walk are its
frames with their places, and its trail tells after each turn of the loop which sites
are on the stack and which nodes have been called back for. It is the same for all
visitors and limits, until the walk ends (`Walk.After.trail`).

* `Trail.Ordered` is what every turn preserves: a site lies beneath each site further down
  the stack that has been expanded, and to the left of each other one;
* `Trail.InPlace` says what follows for the nodes on the stack;
* `Walk.After.weight_add_turns` counts the turns: each of them lowers the weight of the
  stack by one.
-/

namespace ConstraintExpr

namespace Address

/-- The node lies on the way down to the other one, above it. -/
def Above (a b : Address) : Prop :=
  a <+: b ∧ a ≠ b

theorem Above.trans_isPrefix {a b c : Address} (h : a.Above b) (hb : b <+: c) : a.Above c := by
  refine ⟨h.1.trans hb, fun heq => h.2 ?_⟩
  rw [heq] at h ⊢
  exact h.1.eq_of_length_le hb.length_le

/-- A node above a child is the parent or above the parent. -/
theorem above_concat_iff {a b : Address} {i : Nat} :
    a.Above (b ++ [i]) ↔ a = b ∨ a.Above b := by
  rw [Above, List.prefix_concat_iff]
  constructor
  · rintro ⟨heq | h, hne⟩
    · exact absurd heq hne
    · exact or_iff_not_imp_left.mpr fun hb => ⟨h, hb⟩
  · have hparent : b.Above (b ++ [i]) := ⟨List.prefix_append b [i], by simp⟩
    rintro (rfl | h)
    · exact ⟨.inr (List.prefix_refl a), hparent.2⟩
    · exact ⟨.inr h.1, (h.trans_isPrefix hparent.1).2⟩

end Address

theorem Subtree.above_iff_of_mem_children {s t : Subtree} (h : t ∈ s.children) {a : Address} :
    a.Above t.address ↔ a = s.address ∨ a.Above s.address := by
  obtain ⟨i, _, haddress⟩ := mem_children.mp h
  rw [haddress, Address.above_concat_iff]

theorem Subtree.above_of_mem_children {s t : Subtree} (h : t ∈ s.children) :
    s.address.Above t.address :=
  (above_iff_of_mem_children h).mpr (.inl rfl)

/-! ### Turns of the loop -/

namespace Walk

variable {σ ε : Type} {limit : Option Nat} {c : Callback σ ε} {first now : Configuration σ}
  {turns : Nat}

/-- What the loop works on after a number of turns, none of which has failed. -/
inductive After (limit : Option Nat) (c : Callback σ ε) (first : Configuration σ) :
    Nat → Configuration σ → Prop
  | start : After limit c first 0 first
  | turn {turns now next} :
      After limit c first turns now → Turn limit c now next → After limit c first (turns + 1) next

theorem exists_after_of_reaches {last : Configuration σ} (h : Reaches limit c first last) :
    ∃ turns, After limit c first turns last := by
  induction h with
  | refl => exact ⟨0, .start⟩
  | tail _ hlast ih =>
      obtain ⟨turns, hturns⟩ := ih
      exact ⟨turns + 1, hturns.turn hlast⟩

/-- The turns made and the weight of what is left on the stack add up. -/
theorem After.weight_add (h : After limit c first turns now) :
    weight now.1 + turns = weight first.1 := by
  induction h with
  | start => rfl
  | turn _ hlast ih =>
      obtain ⟨hstep⟩ := hlast
      rw [← ih, ← weight_step hstep, Nat.add_right_comm, Nat.add_assoc]

/-- Without a limit, and when no callback fails, the walk succeeds. -/
theorem exists_run_eq_ok (hcall : ∀ depth e state, ∃ next, c.call depth e state = (.ok (), next))
    (frames : List Frame) (state : σ) :
    ∃ final, run none c frames state = (.ok (), final) := by
  cases hrun : run none c frames state with
  | mk result final =>
      cases result with
      | ok => exact ⟨final, rfl⟩
      | error error =>
          obtain ⟨frame, below, last, _, hstep⟩ := exists_of_run_error hrun
          rcases step_eq_error hstep with ⟨_, hfailure⟩ | ⟨_, _, deepest, hexceeded, _⟩
          · obtain ⟨next, hnext⟩ := hcall frame.depth frame.expr last
            rw [hnext] at hfailure
            cases hfailure
          · cases hexceeded

end Walk

/-! ### Sites -/

/-- A subtree on the stack of a walk. -/
structure Site extends Subtree where
  /-- Whether the children of the root have been put on the stack. -/
  expanded : Bool

namespace Site

/-- The site of a node that has not been reached yet. -/
def pending (s : Subtree) : Site := ⟨s, false⟩

/-- The frame of the site, in a walk that begins at the root. -/
def frame (s : Site) : Frame := ⟨s.tree, s.address.length + 1, s.expanded⟩

/-- The sites that take the place of a site when its node is reached. -/
def expand (s : Site) : List Site :=
  s.children.map pending ++ [{ s with expanded := true }]

theorem map_frame_expand (s : Site) : s.expand.map frame = s.frame.expand := by
  have hchildren : (s.children.map pending).map frame =
      s.tree.children.map fun child => Frame.pending child (s.address.length + 1 + 1) := by
    rw [← s.map_tree_children, List.map_map, List.map_map]
    refine List.map_congr_left fun t ht => ?_
    obtain ⟨i, _, haddress⟩ := Subtree.mem_children.mp ht
    have hlength : t.address.length = s.address.length + 1 := by simp [haddress]
    simp [pending, frame, Frame.pending, hlength]
  rw [expand, List.map_append, hchildren]
  rfl

/-- How a site lies to one further down the stack: beneath it when that one has been
expanded, and to the left of it otherwise. -/
structure Over (upper lower : Site) : Prop where
  beneath : lower.expanded = true → lower.address.Above upper.address
  leftOf : lower.expanded = false → upper.address.LeftOf lower.address

/-- What lies beneath a site lies to the others as the site does. -/
theorem Over.of_isPrefix {upper lower inner : Site} (h : upper.Over lower)
    (hinner : upper.address <+: inner.address) : inner.Over lower := by
  refine ⟨fun hlower => (h.beneath hlower).trans_isPrefix hinner, fun hlower => ?_⟩
  obtain ⟨b, hb⟩ := hinner
  rw [← hb]
  exact (h.leftOf hlower).append b

theorem pairwise_expand (s : Site) : s.expand.Pairwise Over := by
  refine List.pairwise_append.mpr ⟨?_, List.pairwise_singleton _ _, ?_⟩
  · exact s.pairwise_children.map pending fun _ _ hleft =>
      ⟨fun h => absurd h Bool.false_ne_true, fun _ => hleft⟩
  · intro child hchild lower hlower
    obtain ⟨t, ht, rfl⟩ := List.mem_map.mp hchild
    obtain rfl := List.mem_singleton.mp hlower
    exact ⟨fun _ => Subtree.above_of_mem_children ht, fun h => absurd h Bool.true_eq_false.mp⟩

end Site

/-! ### Trails -/

/-- What a walk has come to. -/
structure Trail where
  /-- The sites on the stack, the top one first. -/
  stack : List Site
  /-- The nodes called back for, the first one first. -/
  called : List Address

namespace Trail

/-- One more turn: the node on top is called back for if it has been expanded, and
expanded otherwise. -/
def next : Trail → Trail
  | ⟨[], called⟩ => ⟨[], called⟩
  | ⟨top :: below, called⟩ =>
      if top.expanded then ⟨below, called ++ [top.address]⟩ else ⟨top.expand ++ below, called⟩

/-- The trail of the walk of a tree after a number of turns. -/
def after (e : Expr) : Nat → Trail
  | 0 => ⟨[.pending (.whole e)], []⟩
  | turns + 1 => (after e turns).next

theorem next_of_expanded {top : Site} (h : top.expanded = true) (below : List Site)
    (called : List Address) : next ⟨top :: below, called⟩ = ⟨below, called ++ [top.address]⟩ :=
  if_pos h

theorem next_of_pending {top : Site} (h : top.expanded = false) (below : List Site)
    (called : List Address) : next ⟨top :: below, called⟩ = ⟨top.expand ++ below, called⟩ :=
  if_neg (by simp [h])

/-- What every turn preserves. -/
structure Ordered (e : Expr) (t : Trail) : Prop where
  isIn : ∀ site ∈ t.stack, site.IsIn e
  stacked : t.stack.Pairwise Site.Over
  above : ∀ site ∈ t.stack, ∀ a : Address, a.Above site.address →
    ∃ upper ∈ t.stack, upper.expanded = true ∧ upper.address = a
  uncalled : ∀ site ∈ t.stack, site.expanded = false → ∀ a ∈ t.called, ¬ site.address <+: a

variable {e : Expr} {top : Site} {below : List Site} {called : List Address}

theorem Ordered.call (h : Ordered e ⟨top :: below, called⟩) (htop : top.expanded = true) :
    Ordered e ⟨below, called ++ [top.address]⟩ := by
  obtain ⟨hover, hbelow⟩ := List.pairwise_cons.mp h.stacked
  constructor
  case isIn => exact fun site hsite => h.isIn site (List.mem_cons_of_mem _ hsite)
  case stacked => exact hbelow
  case above =>
    intro site hsite a ha
    obtain ⟨upper, hupper, hexpanded, rfl⟩ := h.above site (List.mem_cons_of_mem _ hsite) a ha
    rcases List.mem_cons.mp hupper with rfl | hupper
    · -- no node above one further down the stack is on top
      exfalso
      have hsite := hover site hsite
      cases hlower : site.expanded with
      | true => exact (ha.trans_isPrefix (hsite.beneath hlower).1).2 rfl
      | false => exact (hsite.leftOf hlower).not_isPrefix ha.1 (List.prefix_refl _)
    · exact ⟨upper, hupper, hexpanded, rfl⟩
  case uncalled =>
    intro site hsite hpending a ha
    rcases List.mem_append.mp ha with ha | ha
    · exact h.uncalled site (List.mem_cons_of_mem _ hsite) hpending a ha
    · obtain rfl := List.mem_singleton.mp ha
      exact ((hover site hsite).leftOf hpending).not_isPrefix (List.prefix_refl _)

/-- What holds of the sites that take the place of a site if it holds of the children
and of the root. -/
theorem forall_mem_expand {P : Site → Prop} {site : Site}
    (hchildren : ∀ t ∈ site.children, P (.pending t)) (hroot : P { site with expanded := true }) :
    ∀ s ∈ site.expand, P s := by
  intro s hs
  rcases List.mem_append.mp hs with hs | hs
  · obtain ⟨t, ht, rfl⟩ := List.mem_map.mp hs
    exact hchildren t ht
  · rw [List.mem_singleton.mp hs]
    exact hroot

theorem Ordered.reach (h : Ordered e ⟨top :: below, called⟩) (htop : top.expanded = false) :
    Ordered e ⟨top.expand ++ below, called⟩ := by
  obtain ⟨hover, hbelow⟩ := List.pairwise_cons.mp h.stacked
  have hroot : { top with expanded := true } ∈ top.expand :=
    List.mem_append_right _ (List.mem_singleton.mpr rfl)
  -- the site on top has not been expanded, and so it is above no other one
  have habove : ∀ site ∈ top :: below, ∀ a : Address, a.Above site.address →
      ∃ upper ∈ top.expand ++ below, upper.expanded = true ∧ upper.address = a := by
    intro site hsite a ha
    obtain ⟨upper, hupper, hexpanded, rfl⟩ := h.above site hsite a ha
    rcases List.mem_cons.mp hupper with rfl | hupper
    · rw [htop] at hexpanded
      cases hexpanded
    · exact ⟨upper, List.mem_append_right _ hupper, hexpanded, rfl⟩
  constructor
  case isIn =>
    have hin : top.IsIn e := h.isIn top List.mem_cons_self
    exact List.forall_mem_append.mpr ⟨forall_mem_expand (fun t ht => hin.child ht) hin,
      fun site hsite => h.isIn site (List.mem_cons_of_mem _ hsite)⟩
  case stacked =>
    refine List.pairwise_append.mpr ⟨top.pairwise_expand, hbelow, ?_⟩
    exact forall_mem_expand
      (fun t ht lower hlower =>
        (hover lower hlower).of_isPrefix (Subtree.above_of_mem_children ht).1)
      fun lower hlower => (hover lower hlower).of_isPrefix (List.prefix_refl _)
  case above =>
    refine List.forall_mem_append.mpr ⟨forall_mem_expand (fun t ht a ha => ?_) ?_,
      fun site hsite => habove site (List.mem_cons_of_mem _ hsite)⟩
    · rcases (Subtree.above_iff_of_mem_children ht).mp ha with rfl | ha
      · exact ⟨_, List.mem_append_left _ hroot, rfl, rfl⟩
      · exact habove top List.mem_cons_self a ha
    · exact habove top List.mem_cons_self
  case uncalled =>
    refine List.forall_mem_append.mpr ⟨forall_mem_expand (fun t ht _ a ha hprefix => ?_) ?_,
      fun site hsite => h.uncalled site (List.mem_cons_of_mem _ hsite)⟩
    · have hbelow := (Subtree.above_of_mem_children ht).1
      exact h.uncalled top List.mem_cons_self htop a ha (hbelow.trans hprefix)
    · intro hpending
      cases hpending

theorem Ordered.next {t : Trail} (h : t.Ordered e) : t.next.Ordered e := by
  rcases t with ⟨_ | ⟨top, below⟩, called⟩
  · exact h
  · cases htop : top.expanded with
    | true =>
        rw [next_of_expanded htop]
        exact h.call htop
    | false =>
        rw [next_of_pending htop]
        exact h.reach htop

theorem ordered_after (e : Expr) (turns : Nat) : (after e turns).Ordered e := by
  induction turns with
  | zero =>
      refine ⟨?_, List.pairwise_singleton _ _, ?_, fun _ _ _ a ha => absurd ha List.not_mem_nil⟩
      · intro site hsite
        rw [List.mem_singleton.mp hsite]
        exact Subtree.isIn_whole e
      · intro site hsite a ha
        rw [List.mem_singleton.mp hsite] at ha
        exact absurd (List.prefix_nil.mp ha.1) ha.2
  | succ turns ih => exact ih.next

/-! ### The nodes on the stack -/

/-- How the nodes on the stack lie in the tree. -/
structure InPlace (e : Expr) (t : Trail) : Prop where
  /-- The sites are subtrees of the tree, in different places. -/
  isIn : ∀ site ∈ t.stack, site.IsIn e
  distinct : (t.stack.map fun site => site.address).Nodup
  /-- Those expanded are the nodes above the one on top, and the one on top itself
  when it is to be called back for. -/
  expanded : ∀ top below, t.stack = top :: below → ∀ a : Address,
    (∃ site ∈ t.stack, site.expanded = true ∧ site.address = a) ↔
      a.Above top.address ∨ top.expanded = true ∧ a = top.address
  /-- The others have no nodes in common, and none that has been called back for. -/
  disjoint : (t.stack.filter fun site => !site.expanded).Pairwise fun s u =>
    s.nodes.Disjoint u.nodes
  uncalled : ∀ site ∈ t.stack, site.expanded = false → site.nodes.Disjoint t.called

theorem Ordered.inPlace {t : Trail} (h : t.Ordered e) : t.InPlace e := by
  constructor
  case isIn => exact h.isIn
  case distinct =>
    refine List.pairwise_map.mpr (h.stacked.imp fun {upper lower} hover => ?_)
    cases hlower : lower.expanded with
    | true => exact (hover.beneath hlower).2.symm
    | false =>
        intro heq
        have hleft := hover.leftOf hlower
        rw [heq] at hleft
        exact hleft.not_isPrefix (List.prefix_refl _) (List.prefix_refl _)
  case expanded =>
    rintro top below hstack a
    rw [hstack]
    have hover := (List.pairwise_cons.mp (hstack ▸ h.stacked)).1
    constructor
    · rintro ⟨site, hsite, hexpanded, rfl⟩
      rcases List.mem_cons.mp hsite with rfl | hsite
      · exact .inr ⟨hexpanded, rfl⟩
      · exact .inl ((hover site hsite).beneath hexpanded)
    · rintro (habove | ⟨hexpanded, rfl⟩)
      · rw [← hstack]
        exact h.above top (hstack ▸ List.mem_cons_self) a habove
      · exact ⟨top, List.mem_cons_self, hexpanded, rfl⟩
  case disjoint =>
    refine List.pairwise_filter.mpr (h.stacked.imp fun hover _ hpending a ha ha' => ?_)
    have hleft := hover.leftOf (by simpa using hpending)
    exact hleft.not_isPrefix (Subtree.prefix_of_mem_nodes ha) (Subtree.prefix_of_mem_nodes ha')
  case uncalled =>
    intro site hsite hpending a ha hcalled
    exact h.uncalled site hsite hpending a hcalled (Subtree.prefix_of_mem_nodes ha)

/-- The stack holds no more sites than the tree has nodes. -/
theorem InPlace.length_le {t : Trail} (h : t.InPlace e) : t.stack.length ≤ e.nodeCount := by
  have hsubset : (t.stack.map fun site => site.address) ⊆ e.addresses := by
    intro a ha
    obtain ⟨site, hsite, rfl⟩ := List.mem_map.mp ha
    exact (h.isIn site hsite).nodes_subset site.address_mem_nodes
  have hlength := (List.subperm_of_subset h.distinct hsubset).length_le
  rw [List.length_map, Expr.length_addresses, ← Expr.nodeCount_eq_size] at hlength
  exact hlength

end Trail

/-! ### The trail of a walk -/

namespace Walk

variable {σ ε : Type} {limit : Option Nat} {c : Callback σ ε} {e : Expr} {state : σ} {turns : Nat}
  {now next : Configuration σ}

/-- A turn of the loop is one of the trail; it calls back for the node on top if that
has been expanded, and leaves the state alone otherwise. -/
theorem Turn.trail (h : Turn limit c now next) {t : Trail} (ht : t.Ordered e)
    (hframes : now.1 = t.stack.map Site.frame) :
    next.1 = t.next.stack.map Site.frame ∧ ∃ more, t.next.called = t.called ++ more ∧
      c.callEach e 1 more now.2 = (.ok (), next.2) := by
  obtain ⟨hstep⟩ := h
  rename_i frame below frames state left
  rcases t with ⟨_ | ⟨top, rest⟩, called⟩
  · cases hframes
  · obtain ⟨rfl, rfl⟩ := List.cons.inj hframes
    rcases step_eq_ok hstep with ⟨htop, hcall, rfl⟩ | ⟨htop, _, rfl, rfl⟩
    · rw [Trail.next_of_expanded htop]
      refine ⟨rfl, [top.address], rfl, ?_⟩
      have hnode : e.node? top.address = some top.tree := ht.isIn top List.mem_cons_self
      rw [Callback.callEach, List.map_singleton, Action.sequence_singleton, Callback.callAt, hnode,
        Nat.add_comm]
      exact hcall
    · rw [Trail.next_of_pending htop, List.map_append, Site.map_frame_expand]
      exact ⟨rfl, [], (List.append_nil called).symm, rfl⟩

/-- The frames on the stack are those of the sites, and the callbacks made are those for
the nodes of the trail. -/
theorem After.trail (h : After limit c ([.pending e 1], state) turns now) :
    now.1 = (Trail.after e turns).stack.map Site.frame ∧
      c.callEach e 1 (Trail.after e turns).called state = (.ok (), now.2) := by
  induction h with
  | start => exact ⟨rfl, rfl⟩
  | @turn turns now next _ hlast ih =>
      obtain ⟨hframes, more, hcalled, hmore⟩ := hlast.trail (Trail.ordered_after e turns) ih.1
      refine ⟨hframes, ?_⟩
      rw [Trail.after, hcalled, Callback.callEach_append, Action.andThen_of_ok ih.2]
      exact hmore

/-- Twice the number of nodes is the number of turns made and left to make. -/
theorem After.weight_add_turns (h : After limit c ([.pending e 1], state) turns now) :
    weight now.1 + turns = 2 * e.nodeCount := by
  rw [h.weight_add, e.nodeCount_eq_size]
  rfl

end Walk

/-- At every turn of a walk, the frames on the stack stand for different nodes of the
tree: those expanded for the nodes above the one on top, and for that one too when it is
to be called back for, the others for subtrees that have no nodes in common and none
that has been called back for. So the stack never holds more frames than the tree has
nodes. Each turn lowers the weight of the stack, twice the number of nodes in the
beginning, by one; without a limit, and when no callback fails, the walk goes on until
nothing is left. -/
theorem Visitor.frames_in_place {σ ε : Type} (v : Visitor σ ε) (limit : Option Nat) (e : Expr)
    (state : σ) :
    (∀ turns now, Walk.After limit v.callback ([.pending e 1], state) turns now →
        now.1 = (Trail.after e turns).stack.map Site.frame ∧
          v.callback.callEach e 1 (Trail.after e turns).called state = (.ok (), now.2) ∧
          (Trail.after e turns).InPlace e ∧ now.1.length ≤ e.nodeCount ∧
          Walk.weight now.1 + turns = 2 * e.nodeCount) ∧
      ((∀ node before, ∃ after, v.visit node before = (.ok (), after)) →
        ∃ final, v.walk none e state = (.ok (), final) ∧
          Walk.After none v.callback ([.pending e 1], state) (2 * e.nodeCount) ([], final)) := by
  refine ⟨fun turns now h => ?_, fun hvisit => ?_⟩
  · obtain ⟨hframes, hcalled⟩ := h.trail
    have hplace := (Trail.ordered_after e turns).inPlace
    refine ⟨hframes, hcalled, hplace, ?_, h.weight_add_turns⟩
    rw [hframes, List.length_map]
    exact hplace.length_le
  · obtain ⟨final, hwalk⟩ : ∃ final, v.walk none e state = (.ok (), final) :=
      Walk.exists_run_eq_ok (fun _ => hvisit) [.pending e 1] state
    obtain ⟨turns, hafter⟩ := Walk.exists_after_of_reaches (Walk.reaches_of_run hwalk)
    have hturns : 0 + turns = 2 * e.nodeCount := hafter.weight_add_turns
    rw [Nat.zero_add] at hturns
    exact ⟨final, hwalk, hturns ▸ hafter⟩

end ConstraintExpr

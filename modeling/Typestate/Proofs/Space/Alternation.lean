import Typestate.Proofs.SortedMap
import Typestate.Proofs.Space.Orthogonality

set_option autoImplicit false

/-!
The shape of a space, whatever steps it was built by and however far those that failed had come:
a tree rooted at `alive` in which states and dimensions alternate, with the markers among the states
and every mapped field at a node of the tree.
-/

namespace Typestate

namespace Space

/-- A tree of states and dimensions, as the queries of a space show it. -/
structure Alternating (s : Space) : Prop where
  distinct : s.nodes.Nodup
  rooted : s.nodes.head? = some alive
  known_iff : ∀ n, s.isKnown n = true ↔ n ∈ s.nodes
  /-- A parent comes before its child. -/
  parent_before : ∀ before n after, s.nodes = before ++ n :: after → n ≠ alive →
    ∃ p ∈ before, s.parent? n = some p
  child_iff : ∀ n c, c ∈ s.children n ↔ c ∈ s.nodes ∧ s.parent? c = some n
  children_distinct : ∀ n, (s.children n).Nodup
  under_state : ∀ n, s.isDimension n = true →
    ∃ p, s.parent? n = some p ∧ s.isKnown p = true ∧ s.isDimension p = false
  under_dimension : ∀ n, s.isKnown n = true → n ≠ alive → s.isDimension n = false →
    ∃ p, s.parent? n = some p ∧ s.isDimension p = true
  marked : ∀ n, s.isMarker n = true → s.isKnown n = true ∧ s.isDimension n = false
  mapped : ∀ entry ∈ s.fields, s.isKnown entry.2 = true
  /-- Going from parent to parent comes to an end from every name, known or not. -/
  climb_ends : WellFounded fun upper lower => s.parent? lower = some upper
  ancestors_eq : ∀ n, s.ancestors n = n :: ((s.parent? n).map s.ancestors).getD []
  ancestors_end : ∀ n, (s.ancestors n).getLast? = some alive

section Steps

/-- What a step of building adds: nodes in front of the old ones, with markers only on states. -/
structure Draft.Extends (d next : Draft) : Prop where
  fields : next.space.fieldNodes = d.space.fieldNodes
  nodes : ∃ more, next.space.added = more ++ d.space.added ∧
    ∀ e ∈ more, e.isMarker = true → e.isDimension = false

namespace Draft.Extends

theorem of_space_eq {d next : Draft} (same : next.space = d.space) : d.Extends next :=
  ⟨by rw [same], [], by rw [same, List.nil_append], by simp⟩

theorem trans {a b c : Draft} (first : a.Extends b) (second : b.Extends c) : a.Extends c := by
  obtain ⟨old, oldNodes, oldMarks⟩ := first.nodes
  obtain ⟨new, newNodes, newMarks⟩ := second.nodes
  refine ⟨second.fields.trans first.fields, new ++ old, ?_, fun e member => ?_⟩
  · rw [newNodes, oldNodes, List.append_assoc]
  · exact (List.mem_append.mp member).elim (newMarks e) (oldMarks e)

theorem addNode {d next : Draft} {node : SpaceNode} (added : d.addNode node = .ok next)
    (mark : node.isMarker = true → node.isDimension = false) : d.Extends next := by
  unfold Draft.addNode at added
  split at added
  · simp at added
  · rw [← Except.ok.inj added]
    exact ⟨rfl, [node], rfl, by simpa using mark⟩

theorem addStates (dimension : String) (marker : Bool) (states : List String) (d : Draft) :
    d.Extends (addStates dimension marker states d).1 := by
  induction states generalizing d with
  | nil => exact of_space_eq rfl
  | cons state rest ih =>
      unfold Draft.addStates
      cases added : d.addNode ⟨state, dimension, false, marker⟩ with
      | error _ => exact of_space_eq rfl
      | ok next => exact (addNode added fun _ => rfl).trans (ih next)

theorem addDimension (d : Draft) (name : Option String) (refined : String) (states : List String)
    (marker : Bool) : d.Extends (d.addDimension name refined states marker).1 := by
  unfold Draft.addDimension
  split
  · exact of_space_eq rfl
  · split
    · exact of_space_eq rfl
    · split
      next draft dimension naming =>
      have named : d.Extends draft := of_space_eq <| by
        rw [← nameDimension_space d name, naming]
      split
      · exact named
      · cases added : draft.addNode ⟨dimension, refined, true, false⟩ with
        | error _ => exact named
        | ok next =>
            have begun := addNode added fun mark => by simp at mark
            exact named.trans (begun.trans (addStates dimension marker states next))

theorem isKnown {d next : Draft} (later : d.Extends next) {n : String}
    (known : d.space.isKnown n = true) : next.space.isKnown n = true := by
  obtain ⟨more, nodes, -⟩ := later.nodes
  simp only [Space.isKnown, Bool.or_eq_true, decide_eq_true_eq, node?_isSome_iff] at known ⊢
  refine known.imp_right ?_
  rintro ⟨e, member, name⟩
  rw [nodes]
  exact ⟨e, List.mem_append_right more member, name⟩

end Draft.Extends

/-- Markers are on states only, and fields are mapped to known nodes. -/
structure Annotated (s : Space) : Prop where
  markers : ∀ e ∈ s.added, e.isMarker = true → e.isDimension = false
  fields : ∀ entry ∈ s.fieldNodes.entries, s.isKnown entry.2 = true

theorem Annotated.extended {d next : Draft} (annotated : d.space.Annotated)
    (more : d.Extends next) : next.space.Annotated := by
  constructor
  case markers =>
    obtain ⟨new, nodes, marks⟩ := more.nodes
    intro e member
    rw [nodes] at member
    exact (List.mem_append.mp member).elim (marks e) (annotated.markers e)
  case fields =>
    rw [more.fields]
    exact fun entry member => more.isKnown (annotated.fields entry member)

theorem Annotated.mapField {d next : Draft} {field node : String} (annotated : d.space.Annotated)
    (mapped : d.mapField field node = .ok next) : next.space.Annotated := by
  unfold Draft.mapField at mapped
  split at mapped
  · next known =>
      rw [← Except.ok.inj mapped]
      refine ⟨annotated.markers, fun entry member => ?_⟩
      rcases SortedMap.mem_insert member with rfl | old
      · exact known
      · exact annotated.fields entry old
  · simp at mapped

theorem Draft.Made.annotated {d : Draft} (made : d.Made) : d.space.Annotated := by
  induction made with
  | new name => exact ⟨by simp [Draft.new], by simp [Draft.new, SortedMap.empty]⟩
  | addDimension _ name refined states marker ih =>
      exact ih.extended (.addDimension _ name refined states marker)
  | addState _ state refined ih =>
      exact ih.extended (.addDimension _ none refined [state] false)
  | mapField _ mapped ih => exact ih.mapField mapped

end Steps

section Queries

variable {s : Space}

theorem isKnown_iff (s : Space) (n : String) : s.isKnown n = true ↔ n ∈ s.nodes := by
  simp [isKnown, nodes, node?_isSome_iff]

theorem isKnown_of_mem {e : SpaceNode} (member : e ∈ s.added) : s.isKnown e.name = true := by
  rw [isKnown_iff]
  exact List.mem_cons_of_mem _ (List.mem_reverse.mpr (List.mem_map_of_mem member))

theorem mem_of_isKnown {n : String} (known : s.isKnown n = true) (notAlive : n ≠ alive) :
    ∃ e ∈ s.added, e.name = n := by
  simpa [isKnown, notAlive, node?_isSome_iff] using known

theorem mem_of_isMarker {n : String} (marker : s.isMarker n = true) :
    ∃ e ∈ s.added, e.name = n ∧ e.isMarker = true := by
  unfold isMarker at marker
  cases found : s.node? n with
  | none => simp [found] at marker
  | some e =>
      exact ⟨e, List.mem_of_find?_eq_some found, by simpa using List.find?_some found,
        by simpa [found] using marker⟩

theorem parent?_eq (s : Space) {n : String} (notAlive : n ≠ alive) :
    s.parent? n = some (s.parentOf n) := by
  simp [parentOf, parent?, notAlive]

theorem ne_alive_of_parent? {n p : String} (up : s.parent? n = some p) : n ≠ alive := by
  rintro rfl
  simp [parent?] at up

theorem Layered.parent_before {nodes : List SpaceNode} (layered : Layered nodes)
    {before after : List String} {n : String}
    (split : alive :: (nodes.map SpaceNode.name).reverse = before ++ n :: after)
    (notAlive : n ≠ alive) : ∃ e ∈ nodes, e.name = n ∧ e.parent ∈ before := by
  induction layered generalizing after with
  | nil =>
      have member : n ∈ [alive] := by
        rw [show [alive] = before ++ n :: after from split]
        simp
      exact absurd (List.mem_singleton.mp member) notAlive
  | @cons e earlier _ _ _ under ih =>
      rw [List.map_cons, List.reverse_cons, ← List.cons_append] at split
      rcases List.eq_nil_or_concat' after with rfl | ⟨rest, last, rfl⟩
      · -- The node is the latest one, and all that were there before stand before it.
        obtain ⟨same, name⟩ := List.append_inj' split rfl
        refine ⟨e, List.mem_cons_self, by simpa using name, ?_⟩
        rw [← same]
        rcases under with ⟨root, -⟩ | ⟨d, member, parent, -⟩
        · rw [root]
          exact List.mem_cons_self
        · rw [← parent]
          exact List.mem_cons_of_mem _ (List.mem_reverse.mpr (List.mem_map_of_mem member))
      · rw [← List.cons_append, ← List.append_assoc] at split
        obtain ⟨found, member, named⟩ := ih (List.append_inj' split rfl).1
        exact ⟨found, List.mem_cons_of_mem _ member, named⟩

variable (grown : s.Grown)

include grown

theorem Grown.parent?_of_mem {e : SpaceNode} (member : e ∈ s.added) :
    s.parent? e.name = some e.parent := by
  rw [s.parent?_eq (grown.notAlive e member), grown.parentOf_of_mem member]

theorem Grown.isDimension_of_mem {e : SpaceNode} (member : e ∈ s.added) :
    s.isDimension e.name = e.isDimension := by
  simp [isDimension, grown.node?_of_mem member]

theorem Grown.nodes_nodup : s.nodes.Nodup := by
  rw [nodes, List.nodup_cons, List.mem_reverse, List.nodup_reverse]
  refine ⟨fun member => ?_, grown.names_nodup⟩
  obtain ⟨e, added, name⟩ := List.mem_map.mp member
  exact grown.notAlive e added name

theorem Grown.mem_children_iff (n c : String) :
    c ∈ s.children n ↔ c ∈ s.nodes ∧ s.parent? c = some n := by
  constructor
  · intro child
    simp only [children, List.mem_reverse, List.mem_map, List.mem_filter,
      decide_eq_true_eq] at child
    obtain ⟨e, ⟨member, rfl⟩, rfl⟩ := child
    exact ⟨(s.isKnown_iff _).mp (isKnown_of_mem member), grown.parent?_of_mem member⟩
  · rintro ⟨known, parent⟩
    obtain ⟨e, member, rfl⟩ := mem_of_isKnown ((s.isKnown_iff c).mpr known)
      (ne_alive_of_parent? parent)
    rw [grown.parent?_of_mem member, Option.some_inj] at parent
    simp only [children, List.mem_reverse, List.mem_map, List.mem_filter, decide_eq_true_eq]
    exact ⟨e, ⟨member, parent⟩, rfl⟩

/-- States and dimensions take turns on the way up. -/
theorem Grown.parent_alternates {n : String} (known : s.isKnown n = true) (notAlive : n ≠ alive) :
    s.isKnown (s.parentOf n) = true ∧ s.isDimension n = !s.isDimension (s.parentOf n) := by
  obtain ⟨e, member, rfl⟩ := mem_of_isKnown known notAlive
  rw [grown.parentOf_of_mem member, grown.isDimension_of_mem member]
  rcases grown.parent_among e member with ⟨root, dimension⟩ | ⟨d, older, name, turn⟩
  · rw [root, dimension, grown.isDimension_alive]
    exact ⟨by simp [isKnown], rfl⟩
  · rw [← name, grown.isDimension_of_mem older]
    exact ⟨isKnown_of_mem older, turn⟩

theorem Grown.climb_wellFounded : WellFounded fun upper lower => s.parent? lower = some upper := by
  refine ⟨fun n => ?_⟩
  induction n using grown.climb with
  | root => exact ⟨_, fun upper up => absurd rfl (ne_alive_of_parent? up)⟩
  | step n notAlive ih =>
      refine ⟨_, fun upper up => ?_⟩
      rw [s.parent?_eq notAlive, Option.some_inj] at up
      exact up ▸ ih

theorem Grown.ancestors_unfold (n : String) :
    s.ancestors n = n :: ((s.parent? n).map s.ancestors).getD [] := by
  by_cases root : n = alive
  · rw [root, grown.ancestors_alive]
    simp [parent?]
  · rw [grown.ancestors_of_ne root, s.parent?_eq root]
    rfl

theorem Grown.ancestors_getLast (n : String) : (s.ancestors n).getLast? = some alive := by
  induction n using grown.climb with
  | root =>
      rw [grown.ancestors_alive]
      rfl
  | step n notAlive ih =>
      rw [grown.ancestors_of_ne notAlive, List.getLast?_cons, ih, Option.getD_some]

end Queries

section Shape

variable {s : Space}

/-- Whatever steps a space was built by, the failed ones included, it is a tree that alternates
states and dimensions. -/
theorem alternating_of_built (built : s.Built) : s.Alternating := by
  have grown := built.grown
  obtain ⟨d, made, rfl⟩ := built
  constructor
  case distinct => exact grown.nodes_nodup
  case rooted => rfl
  case known_iff => exact d.space.isKnown_iff
  case parent_before =>
    intro before n after split notAlive
    obtain ⟨e, member, rfl, parent⟩ := grown.parent_before split notAlive
    exact ⟨e.parent, parent, grown.parent?_of_mem member⟩
  case child_iff => exact grown.mem_children_iff
  case children_distinct => exact grown.children_nodup
  case under_state =>
    intro n dimension
    obtain ⟨e, member, rfl, -⟩ := mem_of_isDimension dimension
    have notAlive := grown.notAlive e member
    obtain ⟨known, turn⟩ := grown.parent_alternates (isKnown_of_mem member) notAlive
    exact ⟨_, parent?_eq _ notAlive, known, by simpa [dimension] using turn⟩
  case under_dimension =>
    intro n known notAlive state
    obtain ⟨-, turn⟩ := grown.parent_alternates known notAlive
    exact ⟨_, parent?_eq _ notAlive, by simpa [state] using turn⟩
  case marked =>
    intro n marker
    obtain ⟨e, member, rfl, mark⟩ := mem_of_isMarker marker
    rw [grown.isDimension_of_mem member]
    exact ⟨isKnown_of_mem member, made.annotated.markers e member mark⟩
  case mapped => exact made.annotated.fields
  case climb_ends => exact grown.climb_wellFounded
  case ancestors_eq => exact grown.ancestors_unfold
  case ancestors_end => exact grown.ancestors_getLast

/-- The second step comes as far as `shut`, which is known already, and leaves `work` and `reading`
behind; a third one refines `reading`. -/
def Draft.brokenOff : Draft :=
  let begun := ((new "Stream").addDimension (some "use") alive ["open", "shut"] true).1
  let halted := (begun.addDimension (some "work") "open" ["reading", "shut", "idle"] false).1
  (halted.addState "eof" "reading").1

theorem alternating_after_failure :
    ∃ d, Draft.brokenOff.mapField "position" "reading" = .ok d ∧
      d.space.nodes = [alive, "use", "open", "shut", "work", "reading", "dim$1", "eof"] ∧
      d.space.Alternating := by
  have made : Draft.brokenOff.Made :=
    .addState (.addDimension (.addDimension (.new "Stream") ..) ..) ..
  have mapped : Draft.brokenOff.mapField "position" "reading" = .ok _ := rfl
  exact ⟨_, mapped, by decide +kernel, alternating_of_built ⟨_, made.mapField mapped, rfl⟩⟩

end Shape

end Space

end Typestate

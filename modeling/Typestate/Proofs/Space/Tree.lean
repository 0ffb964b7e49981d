import Mathlib.Data.List.Infix
import Typestate.Space.Draft

set_option autoImplicit false

/-!
Built spaces are trees in which states and dimensions alternate. The nodes above a node are found by
going from parent to parent, for names that the space does not know too.
-/

namespace Typestate

namespace Space

/-- Nodes that were added one after the other, latest first: each with a name of its own under a
node that was there, a dimension under a state and a state under a dimension. -/
inductive Layered : List SpaceNode → Prop
  | nil : Layered []
  | cons {e : SpaceNode} {earlier : List SpaceNode} (layered : Layered earlier)
      (notAlive : e.name ≠ alive) (new : ∀ d ∈ earlier, d.name ≠ e.name)
      (under : e.parent = alive ∧ e.isDimension = true ∨
        ∃ d ∈ earlier, d.name = e.parent ∧ e.isDimension = !d.isDimension) :
      Layered (e :: earlier)

def Grown (s : Space) : Prop := Layered s.added

/-- Where the steps of building a space lead, those that fail included. -/
inductive Draft.Made : Draft → Prop
  | new (name : String) : Made (.new name)
  | addDimension {d : Draft} (made : Made d) (name : Option String) (refined : String)
      (states : List String) (marker : Bool) :
      Made (d.addDimension name refined states marker).1
  | addState {d : Draft} (made : Made d) (state refined : String) :
      Made (d.addState state refined).1
  | mapField {d next : Draft} (made : Made d) {field node : String}
      (mapped : d.mapField field node = .ok next) : Made next

def Built (s : Space) : Prop := ∃ d, Draft.Made d ∧ d.space = s

section Building

theorem node?_isSome_iff (s : Space) (n : String) :
    (s.node? n).isSome = true ↔ ∃ e ∈ s.added, e.name = n := by
  simp [node?]

theorem Draft.addNode_layered {d next : Draft} {node : SpaceNode}
    (layered : Layered d.space.added)
    (under : node.parent = alive ∧ node.isDimension = true ∨
      ∃ e ∈ d.space.added, e.name = node.parent ∧ node.isDimension = !e.isDimension)
    (added : d.addNode node = .ok next) :
    Layered next.space.added ∧ next.space.added = node :: d.space.added := by
  unfold addNode at added
  split at added
  · simp at added
  · next unknown =>
      have shape := Except.ok.inj added
      simp only [isKnown, Bool.or_eq_true, decide_eq_true_eq, not_or, node?_isSome_iff] at unknown
      rw [← shape]
      refine ⟨.cons layered unknown.1 (fun e member same => ?_) under, rfl⟩
      exact unknown.2 ⟨e, member, same⟩

theorem Draft.addStates_layered (dimension : String) (marker : Bool) (states : List String)
    (d : Draft) (layered : Layered d.space.added)
    (present : ∃ e ∈ d.space.added, e.name = dimension ∧ e.isDimension = true) :
    Layered (addStates dimension marker states d).1.space.added := by
  induction states generalizing d with
  | nil => exact layered
  | cons state rest ih =>
      unfold addStates
      cases added : d.addNode ⟨state, dimension, false, marker⟩ with
      | error _ => exact layered
      | ok next =>
          obtain ⟨e, member, name, isDimension⟩ := present
          obtain ⟨grown, shape⟩ := addNode_layered layered
            (.inr ⟨e, member, name, by simp [isDimension]⟩) added
          refine ih next grown ⟨e, ?_, name, isDimension⟩
          rw [shape]
          exact List.mem_cons_of_mem _ member

theorem Draft.nameDimension_space (d : Draft) (name : Option String) :
    (d.nameDimension name).1.space = d.space := by
  cases name <;> rfl

theorem Draft.addDimension_layered {d : Draft} (layered : Layered d.space.added)
    (name : Option String) (refined : String) (states : List String) (marker : Bool) :
    Layered (d.addDimension name refined states marker).1.space.added := by
  have named : Layered (d.nameDimension name).1.space.added := by
    rw [nameDimension_space]
    exact layered
  unfold addDimension
  split
  · exact layered
  · next known =>
      split
      · exact layered
      · next isState =>
          split
          next draft dimension naming =>
          rw [naming] at named
          have space : draft.space = d.space := by
            rw [← nameDimension_space d name, naming]
          split
          · exact named
          · -- The refined state is the root, or a known node that is not a dimension.
            have under : refined = alive ∧ true = true ∨
                ∃ e ∈ draft.space.added, e.name = refined ∧ true = !e.isDimension := by
              rw [space]
              by_cases root : refined = alive
              · exact .inl ⟨root, rfl⟩
              · cases found : d.space.node? refined with
                | none => simp [isKnown, root, found] at known
                | some e =>
                    have name : e.name = refined := by simpa using List.find?_some found
                    simp only [Space.isDimension, found, Option.map_some,
                      Option.getD_some] at isState
                    exact .inr ⟨e, List.mem_of_find?_eq_some found, name, by simpa using isState⟩
            cases added : draft.addNode ⟨dimension, refined, true, false⟩ with
            | error _ => exact named
            | ok next =>
                obtain ⟨grown, shape⟩ := addNode_layered named under added
                refine addStates_layered dimension marker states next grown
                  ⟨⟨dimension, refined, true, false⟩, ?_, rfl, rfl⟩
                rw [shape]
                exact List.mem_cons_self

theorem Draft.Made.layered {d : Draft} (made : d.Made) : Layered d.space.added := by
  induction made with
  | new name => exact .nil
  | addDimension _ name refined states marker ih =>
      exact addDimension_layered ih name refined states marker
  | addState _ state refined ih => exact addDimension_layered ih none refined [state] false
  | mapField _ mapped ih =>
      unfold Draft.mapField at mapped
      split at mapped
      · rw [← Except.ok.inj mapped]
        exact ih
      · simp at mapped

theorem Built.grown {s : Space} (built : s.Built) : s.Grown := by
  obtain ⟨d, made, space⟩ := built
  rw [← space]
  exact made.layered

end Building

/-- The node right above a node; the root stands above itself. -/
def parentOf (s : Space) (n : String) : String := (s.parent? n).getD alive

variable {s : Space}

section Lookup

theorem Layered.find_of_mem {nodes : List SpaceNode} (layered : Layered nodes) {e : SpaceNode}
    (member : e ∈ nodes) : nodes.find? (fun d => d.name = e.name) = some e := by
  induction layered with
  | nil => simp at member
  | cons _ _ new _ ih =>
      rcases List.mem_cons.mp member with rfl | earlier
      · simp
      · have apart := new e earlier
        rw [List.find?_cons_of_neg (by simpa using apart.symm)]
        exact ih earlier

theorem Layered.notAlive {nodes : List SpaceNode} (layered : Layered nodes) :
    ∀ e ∈ nodes, e.name ≠ alive := by
  induction layered with
  | nil => simp
  | cons _ notAlive _ _ ih =>
      intro d member
      rcases List.mem_cons.mp member with rfl | earlier
      · exact notAlive
      · exact ih d earlier

theorem Layered.names_nodup {nodes : List SpaceNode} (layered : Layered nodes) :
    (nodes.map SpaceNode.name).Nodup := by
  induction layered with
  | nil => exact List.nodup_nil
  | cons _ _ new _ ih =>
      rw [List.map_cons, List.nodup_cons]
      refine ⟨fun member => ?_, ih⟩
      obtain ⟨d, earlier, same⟩ := List.mem_map.mp member
      exact new d earlier same

theorem Layered.parent_among {nodes : List SpaceNode} (layered : Layered nodes) :
    ∀ e ∈ nodes, e.parent = alive ∧ e.isDimension = true ∨
      ∃ d ∈ nodes, d.name = e.parent ∧ e.isDimension = !d.isDimension := by
  induction layered with
  | nil => simp
  | cons _ _ _ under ih =>
      intro e member
      rcases List.mem_cons.mp member with rfl | earlier
      · exact under.imp id fun ⟨d, older, rest⟩ => ⟨d, List.mem_cons_of_mem _ older, rest⟩
      · exact (ih e earlier).imp id fun ⟨d, older, rest⟩ => ⟨d, List.mem_cons_of_mem _ older, rest⟩

variable (grown : s.Grown)

include grown

theorem Grown.node?_of_mem {e : SpaceNode} (member : e ∈ s.added) : s.node? e.name = some e :=
  grown.find_of_mem member

theorem Grown.parentOf_of_mem {e : SpaceNode} (member : e ∈ s.added) :
    s.parentOf e.name = e.parent := by
  simp [parentOf, parent?, grown.notAlive e member, grown.node?_of_mem member]

end Lookup

section Ancestors

theorem Layered.ancestorsAmong_alive {nodes : List SpaceNode} (layered : Layered nodes) :
    ancestorsAmong alive nodes = [alive] := by
  induction layered with
  | nil => rfl
  | cons _ notAlive _ _ ih => rw [ancestorsAmong, if_neg notAlive, ih]

theorem Layered.ancestorsAmong_of_ne {nodes : List SpaceNode} (layered : Layered nodes)
    {n : String} (notAlive : n ≠ alive) :
    ancestorsAmong n nodes =
      n :: ancestorsAmong
        (((nodes.find? fun e => e.name = n).map SpaceNode.parent).getD alive) nodes := by
  induction layered with
  | nil => simp [ancestorsAmong, notAlive]
  | @cons e earlier layered named new under ih =>
      by_cases here : e.name = n
      · -- The node is found here, and climbing on among the earlier ones does not meet it again.
        have apart : e.name ≠ e.parent := by
          rcases under with ⟨root, -⟩ | ⟨d, member, name, -⟩
          · rw [root]
            exact named
          · rw [← name]
            exact (new d member).symm
        rw [here] at apart
        simp [ancestorsAmong, here, apart]
      · -- The node is an earlier one, and so is its parent; the new one is on neither way.
        have apart : e.name ≠
            ((earlier.find? fun d => d.name = n).map SpaceNode.parent).getD alive := by
          cases found : earlier.find? fun d => d.name = n with
          | none => exact named
          | some d =>
              rcases layered.parent_among d (List.mem_of_find?_eq_some found) with
                ⟨root, -⟩ | ⟨upper, member, name, -⟩
              · simpa [root] using named
              · simpa [← name] using (new upper member).symm
        rw [ancestorsAmong, if_neg here, ih, List.find?_cons_of_neg (by simpa using here),
          ancestorsAmong, if_neg apart]

variable (grown : s.Grown)

include grown

theorem Grown.ancestors_alive : s.ancestors alive = [alive] := grown.ancestorsAmong_alive

theorem Grown.ancestors_of_ne {n : String} (notAlive : n ≠ alive) :
    s.ancestors n = n :: s.ancestors (s.parentOf n) := by
  have rise := grown.ancestorsAmong_of_ne notAlive
  simpa [parentOf, parent?, notAlive, ancestors, node?] using rise

theorem Grown.climb {property : String → Prop} (root : property alive)
    (step : ∀ n, n ≠ alive → property (s.parentOf n) → property n) (n : String) : property n := by
  -- The induction is on the length of the way up, which is shorter for the parent.
  generalize depth : (s.ancestors n).length = length
  induction length using Nat.strongRecOn generalizing n with
  | ind length ih =>
      by_cases notAlive : n = alive
      · rw [notAlive]
        exact root
      · refine step n notAlive (ih _ ?_ (s.parentOf n) rfl)
        rw [grown.ancestors_of_ne notAlive, List.length_cons] at depth
        omega

end Ancestors

/-- The first node is the second or lies above it. -/
def Above (s : Space) (upper lower : String) : Prop := upper ∈ s.ancestors lower

theorem covers_iff (s : Space) (upper lower : String) :
    s.covers upper lower = true ↔ s.Above upper lower := by
  simp [covers, Above]

section Order

variable (grown : s.Grown)

include grown

theorem Grown.above_refl (n : String) : s.Above n n := by
  by_cases root : n = alive
  · rw [Above, root, grown.ancestors_alive]
    exact List.mem_singleton_self _
  · rw [Above, grown.ancestors_of_ne root]
    exact List.mem_cons_self

theorem Grown.above_alive (n : String) : s.Above alive n := by
  induction n using grown.climb with
  | root => exact grown.above_refl alive
  | step n notAlive ih =>
      rw [Above, grown.ancestors_of_ne notAlive]
      exact List.mem_cons_of_mem _ ih

theorem Grown.above_iff_of_ne {upper n : String} (notAlive : n ≠ alive) :
    s.Above upper n ↔ upper = n ∨ s.Above upper (s.parentOf n) := by
  rw [Above, grown.ancestors_of_ne notAlive, List.mem_cons]
  rfl

theorem Grown.above_parentOf (n : String) : s.Above (s.parentOf n) n := by
  by_cases root : n = alive
  · rw [root, show s.parentOf alive = alive from rfl]
    exact grown.above_refl alive
  · exact (grown.above_iff_of_ne root).mpr (.inr (grown.above_refl _))

theorem Grown.eq_of_above_alive {upper : String} (atop : s.Above upper alive) : upper = alive := by
  rw [Above, grown.ancestors_alive] at atop
  exact List.mem_singleton.mp atop

theorem Grown.ancestors_suffix {upper n : String} (atop : s.Above upper n) :
    s.ancestors upper <:+ s.ancestors n := by
  induction n using grown.climb with
  | root => rw [grown.eq_of_above_alive atop]
  | step n notAlive ih =>
      rcases (grown.above_iff_of_ne notAlive).mp atop with same | higher
      · rw [same]
      · rw [grown.ancestors_of_ne notAlive]
        exact (ih higher).trans (List.suffix_cons _ _)

theorem Grown.above_trans {a b c : String} (first : s.Above a b) (second : s.Above b c) :
    s.Above a c :=
  (grown.ancestors_suffix second).subset first

theorem Grown.head_ancestors (n : String) : (s.ancestors n).head? = some n := by
  by_cases root : n = alive
  · rw [root, grown.ancestors_alive]
    rfl
  · rw [grown.ancestors_of_ne root]
    rfl

theorem Grown.eq_of_above_of_length_le {a b : String} (atop : s.Above a b)
    (longer : (s.ancestors b).length ≤ (s.ancestors a).length) : a = b := by
  have same := (grown.ancestors_suffix atop).eq_of_length_le longer
  have heads := grown.head_ancestors a
  rw [same, grown.head_ancestors b] at heads
  exact (Option.some.inj heads).symm

theorem Grown.above_antisymm {a b : String} (first : s.Above a b) (second : s.Above b a) :
    a = b :=
  grown.eq_of_above_of_length_le first (grown.ancestors_suffix second).length_le

theorem Grown.above_total {a b n : String} (first : s.Above a n) (second : s.Above b n) :
    s.Above a b ∨ s.Above b a := by
  rcases List.suffix_or_suffix_of_suffix (grown.ancestors_suffix first)
    (grown.ancestors_suffix second) with inside | inside
  · exact .inl (inside.subset (grown.above_refl a))
  · exact .inr (inside.subset (grown.above_refl b))

theorem Grown.not_above_parent {n : String} (notAlive : n ≠ alive) :
    ¬s.Above n (s.parentOf n) := by
  intro atop
  have shorter := (grown.ancestors_suffix atop).length_le
  rw [grown.ancestors_of_ne notAlive, List.length_cons] at shorter
  omega

theorem Grown.ancestors_pairwise (n : String) :
    (s.ancestors n).Pairwise fun lower upper => s.Above upper lower ∧ lower ≠ upper := by
  induction n using grown.climb with
  | root =>
      rw [grown.ancestors_alive]
      exact List.pairwise_singleton _ _
  | step n notAlive ih =>
      rw [grown.ancestors_of_ne notAlive, List.pairwise_cons]
      refine ⟨fun upper atop => ⟨?_, fun same => ?_⟩, ih⟩
      · exact (grown.above_iff_of_ne notAlive).mpr (.inr atop)
      · rw [← same] at atop
        exact grown.not_above_parent notAlive atop

theorem Grown.ancestors_eq_append {upper n : String} (atop : s.Above upper n) (apart : upper ≠ n) :
    ∃ way child, s.ancestors n = way ++ child :: s.ancestors upper ∧
      s.parentOf child = upper ∧ child ≠ alive := by
  induction n using grown.climb with
  | root => exact absurd (grown.eq_of_above_alive atop) apart
  | step n notAlive ih =>
      rw [grown.ancestors_of_ne notAlive]
      by_cases here : upper = s.parentOf n
      · exact ⟨[], n, by rw [here]; rfl, here.symm, notAlive⟩
      · have higher := ((grown.above_iff_of_ne notAlive).mp atop).resolve_left apart
        obtain ⟨way, child, shape, parent, named⟩ := ih higher here
        exact ⟨n :: way, child, by rw [shape]; rfl, parent, named⟩

end Order

end Space

end Typestate

import Mathlib.Data.List.Nodup
import Typestate.Proofs.Space.Tree

set_option autoImplicit false

/-!
Two nodes are orthogonal exactly if they lie below two different dimensions of one state. So what
lies below orthogonal nodes is orthogonal, and a node with its siblings along the way down from
another node divides what lies below that one into orthogonal parts.
-/

namespace Typestate

namespace Space

variable {s : Space}

/-- The ways to the nodes part at two different dimensions of one state. -/
def Parted (s : Space) (a b : String) : Prop :=
  ∃ x y, s.isDimension x = true ∧ s.isDimension y = true ∧ s.parentOf x = s.parentOf y ∧ x ≠ y ∧
    s.Above x a ∧ s.Above y b

section Dimensions

theorem ne_of_isDimension {n d : String} (plain : s.isDimension n = false)
    (dimension : s.isDimension d = true) : n ≠ d := by
  rintro rfl
  rw [plain] at dimension
  cases dimension

theorem mem_of_isDimension {n : String} (dimension : s.isDimension n = true) :
    ∃ e ∈ s.added, e.name = n ∧ e.isDimension = true := by
  unfold isDimension at dimension
  cases found : s.node? n with
  | none => simp [found] at dimension
  | some e =>
      exact ⟨e, List.mem_of_find?_eq_some found, by simpa using List.find?_some found,
        by simpa [found] using dimension⟩

variable (grown : s.Grown)

include grown

theorem Grown.ne_alive_of_isDimension {n : String} (dimension : s.isDimension n = true) :
    n ≠ alive := by
  obtain ⟨e, member, name, -⟩ := mem_of_isDimension dimension
  rw [← name]
  exact grown.notAlive e member

theorem Grown.isDimension_alive : s.isDimension alive = false := by
  by_contra dimension
  exact grown.ne_alive_of_isDimension (by simpa using dimension) rfl

theorem Grown.mem_dimensions_iff {n state : String} :
    n ∈ s.dimensions state ↔ s.isDimension n = true ∧ s.parentOf n = state := by
  simp only [dimensions, children, List.mem_filter, List.mem_reverse, List.mem_map,
    decide_eq_true_eq]
  constructor
  · rintro ⟨⟨e, ⟨member, parent⟩, name⟩, dimension⟩
    rw [← name, grown.parentOf_of_mem member]
    exact ⟨name ▸ dimension, parent⟩
  · rintro ⟨dimension, parent⟩
    obtain ⟨e, member, name, -⟩ := mem_of_isDimension dimension
    refine ⟨⟨e, ⟨member, ?_⟩, name⟩, dimension⟩
    rw [← grown.parentOf_of_mem member, name, parent]

theorem Grown.isDimension_of_parentOf {n : String} (dimension : s.isDimension (s.parentOf n) = true) :
    s.isDimension n = false := by
  by_contra refined
  obtain ⟨e, member, rfl, kind⟩ := mem_of_isDimension (by simpa using refined)
  rw [grown.parentOf_of_mem member] at dimension
  rcases grown.parent_among e member with ⟨parent, -⟩ | ⟨d, among, name, alternates⟩
  · exact grown.ne_alive_of_isDimension dimension parent
  · rw [← name] at dimension
    simp [isDimension, grown.node?_of_mem among, kind] at dimension alternates
    simp [dimension] at alternates

theorem Grown.parentOf_of_isDimension {n : String} (dimension : s.isDimension n = true) :
    s.isDimension (s.parentOf n) = false := by
  by_contra kind
  rw [grown.isDimension_of_parentOf (by simpa using kind)] at dimension
  cases dimension

theorem Grown.lower_of_mem_dimensions {n state : String} (member : n ∈ s.dimensions state) :
    s.Above state n ∧ n ≠ state := by
  obtain ⟨dimension, parent⟩ := grown.mem_dimensions_iff.mp member
  refine ⟨parent ▸ grown.above_parentOf n, fun same => ?_⟩
  rw [← same] at parent
  refine grown.not_above_parent (grown.ne_alive_of_isDimension dimension) ?_
  rw [parent]
  exact grown.above_refl n

theorem Grown.children_nodup (n : String) : (s.children n).Nodup := by
  have kept := (List.filter_sublist (p := fun e => decide (e.parent = n))
    (l := s.added)).map SpaceNode.name
  exact List.nodup_reverse.mpr (kept.nodup grown.names_nodup)

theorem Grown.dimensions_nodup (state : String) : (s.dimensions state).Nodup :=
  (grown.children_nodup state).filter _

theorem Grown.eq_of_parentOf_eq {x y n : String} (first : x ≠ alive) (second : y ≠ alive)
    (same : s.parentOf x = s.parentOf y) (left : s.Above x n) (right : s.Above y n) : x = y := by
  by_contra apart
  rcases grown.above_total left right with atop | atop
  · have higher := ((grown.above_iff_of_ne second).mp atop).resolve_left apart
    exact grown.not_above_parent first (same ▸ higher)
  · have higher := ((grown.above_iff_of_ne first).mp atop).resolve_left (Ne.symm apart)
    exact grown.not_above_parent second (same ▸ higher)

end Dimensions

theorem Parted.symm {a b : String} (parted : s.Parted a b) : s.Parted b a := by
  obtain ⟨x, y, first, second, parents, apart, left, right⟩ := parted
  exact ⟨y, x, second, first, parents.symm, apart.symm, right, left⟩

section Parting

variable (grown : s.Grown)

include grown

theorem Grown.parted_mono {a b lower other : String} (parted : s.Parted a b)
    (left : s.Above a lower) (right : s.Above b other) : s.Parted lower other := by
  obtain ⟨x, y, first, second, parents, apart, overA, overB⟩ := parted
  exact ⟨x, y, first, second, parents, apart, grown.above_trans overA left,
    grown.above_trans overB right⟩

theorem Grown.not_parted_self (n : String) : ¬s.Parted n n := by
  rintro ⟨x, y, first, second, parents, apart, left, right⟩
  exact apart (grown.eq_of_parentOf_eq (grown.ne_alive_of_isDimension first)
    (grown.ne_alive_of_isDimension second) parents left right)

theorem Grown.not_above_of_parted {a b : String} (parted : s.Parted a b) : ¬s.Above a b :=
  fun atop => grown.not_parted_self b (grown.parted_mono parted atop (grown.above_refl b))

theorem Grown.above_or_parted {a b n : String} (parted : s.Parted a b) (atop : s.Above n a) :
    s.Above n b ∨ s.Parted b n := by
  obtain ⟨x, y, dimX, dimY, parents, apart, overA, overB⟩ := parted
  by_cases lower : s.Above x n
  · exact .inr ⟨y, x, dimY, dimX, parents.symm, apart.symm, overB, lower⟩
  · have higher := (grown.above_total atop overA).resolve_right lower
    have parent := ((grown.above_iff_of_ne (grown.ne_alive_of_isDimension dimX)).mp
      higher).resolve_left fun same => lower (same ▸ grown.above_refl n)
    rw [parents] at parent
    exact .inl (grown.above_trans (grown.above_trans parent (grown.above_parentOf y)) overB)

theorem Grown.above_or_parted_of_dimensions {state n : String} (some : s.dimensions state ≠ [])
    (plain : s.isDimension n = false)
    (each : ∀ d ∈ s.dimensions state, s.Above n d ∨ s.Parted d n) :
    s.Above n state ∨ s.Parted state n := by
  obtain ⟨d, member⟩ := List.exists_mem_of_ne_nil _ some
  obtain ⟨dimD, parent⟩ := grown.mem_dimensions_iff.mp member
  have notAlive := grown.ne_alive_of_isDimension dimD
  rcases each d member with atop | ⟨x, y, dimX, dimY, parents, apart, overD, overN⟩
  · exact .inl (parent ▸ ((grown.above_iff_of_ne notAlive).mp atop).resolve_left
      (ne_of_isDimension plain dimD))
  · rcases (grown.above_iff_of_ne notAlive).mp overD with rfl | higher
    · -- The node is below another dimension of the state, so it is neither above nor beside that.
      have sibling := grown.mem_dimensions_iff.mpr ⟨dimY, parents.symm.trans parent⟩
      rcases each y sibling with atop | beside
      · exact absurd (grown.above_antisymm atop overN) (ne_of_isDimension plain dimY)
      · exact absurd overN (grown.not_above_of_parted beside)
    · exact .inr ⟨x, y, dimX, dimY, parents, apart, parent ▸ higher, overN⟩

theorem Grown.not_parted_of_plain {d child : String} (dimension : s.isDimension d = true)
    (plain : s.isDimension child = false) (notAlive : child ≠ alive)
    (same : s.parentOf child = s.parentOf d) : ¬s.Parted d child := by
  rintro ⟨x, y, dimX, dimY, parents, apart, overD, overChild⟩
  have higher := ((grown.above_iff_of_ne notAlive).mp overChild).resolve_left
    (ne_of_isDimension plain dimY).symm
  rcases (grown.above_iff_of_ne (grown.ne_alive_of_isDimension dimension)).mp overD with rfl | along
  · rw [same, parents] at higher
    exact grown.not_above_parent (grown.ne_alive_of_isDimension dimY) higher
  · rw [same] at higher
    exact apart (grown.eq_of_parentOf_eq (grown.ne_alive_of_isDimension dimX)
      (grown.ne_alive_of_isDimension dimY) parents along higher)

end Parting

theorem upTo_append {upper : String} (way rest : List String) (absent : upper ∉ way) :
    upTo upper (way ++ upper :: rest) = way ++ [upper] := by
  induction way with
  | nil => simp [upTo]
  | cons n way ih =>
      rw [List.mem_cons, not_or] at absent
      rw [List.cons_append, upTo, if_neg (Ne.symm absent.1), ih absent.2]
      cases way <;> rfl

/-- The ways down from a node part: each of two nodes is reached through another child. -/
structure Fork (s : Space) (meet a b x y : String) : Prop where
  left : s.parentOf x = meet
  right : s.parentOf y = meet
  leftNode : x ≠ alive
  rightNode : y ≠ alive
  apart : x ≠ y
  overLeft : s.Above x a
  overRight : s.Above y b

theorem Fork.symm {meet a b x y : String} (fork : s.Fork meet a b x y) : s.Fork meet b a y x :=
  ⟨fork.right, fork.left, fork.rightNode, fork.leftNode, fork.apart.symm, fork.overRight,
    fork.overLeft⟩

section Orthogonal

variable (grown : s.Grown)

include grown

theorem Grown.path_eq {upper n : String} (atop : s.Above upper n) (apart : upper ≠ n) :
    ∃ way child, s.path upper n = way ++ [child, upper] ∧ s.parentOf child = upper ∧
      child ≠ alive ∧ s.ancestors n = way ++ child :: s.ancestors upper := by
  obtain ⟨way, child, shape, parent, named⟩ := grown.ancestors_eq_append atop apart
  obtain ⟨tail, first⟩ : ∃ tail, s.ancestors upper = upper :: tail := by
    have head := grown.head_ancestors upper
    cases list : s.ancestors upper with
    | nil => simp [list] at head
    | cons n tail => exact ⟨tail, by rw [list] at head; simpa using head⟩
  have absent : upper ∉ way ++ [child] := by
    intro member
    have order := grown.ancestors_pairwise n
    rw [shape, first, List.append_cons, List.pairwise_append] at order
    exact (order.2.2 upper member upper List.mem_cons_self).2 rfl
  refine ⟨way, child, ?_, parent, named, shape⟩
  rw [path, shape, first, List.append_cons, upTo_append _ _ absent, List.append_assoc]
  rfl

theorem Grown.eq_iff_above {a b : String} : a = b ↔ s.Above b a ∧ s.Above a b := by
  constructor
  · rintro rfl
    exact ⟨grown.above_refl a, grown.above_refl a⟩
  · rintro ⟨first, second⟩
    exact grown.above_antisymm second first

theorem Grown.mem_path_iff {upper lower : String} (n : String) :
    n ∈ s.path upper lower ↔ s.Above upper n ∧ s.Above n lower := by
  induction lower using grown.climb generalizing n with
  | root =>
    have shape : s.path upper alive = if alive = upper then [alive] else [] := by
      rw [path, grown.ancestors_alive]
      rfl
    rw [shape]
    by_cases same : alive = upper
    · subst same
      rw [if_pos rfl, List.mem_singleton, grown.eq_iff_above]
    · rw [if_neg same]
      constructor
      · intro member
        cases member
      · rintro ⟨first, second⟩
        exact absurd (grown.eq_of_above_alive (grown.above_trans first second)).symm same
  | step lower notAlive ih =>
    rw [path, grown.ancestors_of_ne notAlive]
    by_cases same : lower = upper
    · subst same
      rw [upTo, if_pos rfl, List.mem_singleton, grown.eq_iff_above]
    · rw [upTo, if_neg same, grown.above_iff_of_ne notAlive]
      cases way : s.path upper (s.parentOf lower) with
      | nil =>
        rw [show upTo upper (s.ancestors (s.parentOf lower)) = [] from way]
        constructor
        · intro member
          cases member
        · -- A node that is above the lower one would be on the way to its parent.
          rintro ⟨first, second⟩
          have atop := grown.above_trans first ((grown.above_iff_of_ne notAlive).mpr second)
          have higher := ((grown.above_iff_of_ne notAlive).mp atop).resolve_left (Ne.symm same)
          have member := (ih upper).mpr ⟨grown.above_refl upper, higher⟩
          rw [way] at member
          cases member
      | cons m rest =>
        have among := (ih m).mp (way ▸ List.mem_cons_self)
        have higher := grown.above_trans among.1 among.2
        have atop : s.Above upper lower := (grown.above_iff_of_ne notAlive).mpr (.inr higher)
        rw [show upTo upper (s.ancestors (s.parentOf lower)) = m :: rest from way, List.mem_cons,
          ← way, ih n]
        constructor
        · rintro (rfl | ⟨first, second⟩)
          · exact ⟨atop, .inl rfl⟩
          · exact ⟨first, .inr second⟩
        · rintro ⟨first, rfl | second⟩
          · exact .inl rfl
          · exact .inr ⟨first, second⟩

theorem Grown.childToward?_eq_some {upper n : String} (atop : s.Above upper n)
    (apart : upper ≠ n) :
    ∃ child, s.childToward? upper n = some child ∧ s.parentOf child = upper ∧ child ≠ alive ∧
      s.Above child n := by
  obtain ⟨way, child, shape, parent, named, whole⟩ := grown.path_eq atop apart
  refine ⟨child, by simp [childToward?, shape], parent, named, ?_⟩
  rw [Above, whole]
  simp

theorem Grown.lowestCommonAncestor_spec (a b : String) :
    s.Above (s.lowestCommonAncestor a b) a ∧ s.Above (s.lowestCommonAncestor a b) b ∧
      ∀ n, s.Above n a → s.Above n b → s.Above n (s.lowestCommonAncestor a b) := by
  unfold lowestCommonAncestor
  cases found : (s.ancestors b).find? fun n => s.covers n a with
  | none =>
      have none := List.find?_eq_none.mp found alive (grown.above_alive b)
      exact absurd ((s.covers_iff alive a).mpr (grown.above_alive a)) none
  | some meet =>
      obtain ⟨atop, before, after, shape, first⟩ := List.find?_eq_some_iff_append.mp found
      refine ⟨(s.covers_iff meet a).mp atop, List.mem_of_find?_eq_some found, ?_⟩
      intro n left right
      have order := grown.ancestors_pairwise b
      rw [Above, shape, List.mem_append, List.mem_cons] at right
      rcases right with lower | same | higher
      · -- A lower common ancestor would have been found before.
        have missed := first n lower
        rw [(s.covers_iff n a).mpr left] at missed
        simp at missed
      · rw [same]
        exact grown.above_refl meet
      · rw [shape, List.pairwise_append, List.pairwise_cons] at order
        exact (order.2.1.1 n higher).1

theorem Grown.childToward?_parentOf {n z : String} (atop : s.Above z n) (named : z ≠ alive) :
    s.childToward? (s.parentOf z) n = some z := by
  have strict : s.parentOf z ≠ n := fun same => grown.not_above_parent named (same ▸ atop)
  obtain ⟨w, toward, parent, namedW, aboveN⟩ := grown.childToward?_eq_some
    (grown.above_trans (grown.above_parentOf z) atop) strict
  rw [toward, grown.eq_of_parentOf_eq namedW named parent aboveN atop]

theorem Grown.not_above_of_fork {meet a b x y : String} (fork : s.Fork meet a b x y) :
    ¬s.Above a b := fun atop =>
  fork.apart (grown.eq_of_parentOf_eq fork.leftNode fork.rightNode
    (fork.left.trans fork.right.symm) (grown.above_trans fork.overLeft atop) fork.overRight)

/-- Ways part at the lowest node above both. -/
theorem Grown.lowestCommonAncestor_of_fork {meet a b x y : String} (fork : s.Fork meet a b x y) :
    s.lowestCommonAncestor a b = meet := by
  obtain ⟨overA, overB, lowest⟩ := grown.lowestCommonAncestor_spec a b
  have below : s.Above x b → False := fun atop =>
    fork.apart (grown.eq_of_parentOf_eq fork.leftNode fork.rightNode
      (fork.left.trans fork.right.symm) atop fork.overRight)
  have meetA : s.Above meet a :=
    grown.above_trans (fork.left ▸ grown.above_parentOf x) fork.overLeft
  have meetB : s.Above meet b :=
    grown.above_trans (fork.right ▸ grown.above_parentOf y) fork.overRight
  refine grown.above_antisymm ?_ (lowest meet meetA meetB)
  rcases grown.above_total overA fork.overLeft with atop | atop
  · rw [← fork.left]
    refine ((grown.above_iff_of_ne fork.leftNode).mp atop).resolve_left fun same => ?_
    exact below (same ▸ overB)
  · exact (below (grown.above_trans atop overB)).elim

theorem Grown.exists_fork {a b : String} (notOver : ¬s.Above a b) (notUnder : ¬s.Above b a) :
    ∃ x y, s.Fork (s.lowestCommonAncestor a b) a b x y := by
  obtain ⟨overA, overB, lowest⟩ := grown.lowestCommonAncestor_spec a b
  have apartA : s.lowestCommonAncestor a b ≠ a := fun same => notOver (same ▸ overB)
  have apartB : s.lowestCommonAncestor a b ≠ b := fun same => notUnder (same ▸ overA)
  obtain ⟨x, -, parentX, namedX, aboveA⟩ := grown.childToward?_eq_some overA apartA
  obtain ⟨y, -, parentY, namedY, aboveB⟩ := grown.childToward?_eq_some overB apartB
  refine ⟨x, y, parentX, parentY, namedX, namedY, fun same => ?_, aboveA, aboveB⟩
  -- One child for both would be a lower common ancestor.
  have lower := lowest x aboveA (same ▸ aboveB)
  exact grown.not_above_parent namedX (parentX.symm ▸ lower)

/-- Two nodes are orthogonal exactly if the ways to them part at dimensions. -/
theorem Grown.orthogonal_of_fork {meet a b x y : String} (fork : s.Fork meet a b x y) :
    s.orthogonal a b = (s.isDimension x && s.isDimension y) := by
  have notOver := grown.not_above_of_fork fork
  have notUnder := grown.not_above_of_fork fork.symm
  have different : a ≠ b := fun same => notOver (same ▸ grown.above_refl a)
  have rootA : a ≠ alive := fun same => notOver (same ▸ grown.above_alive b)
  have rootB : b ≠ alive := fun same => notUnder (same ▸ grown.above_alive a)
  have related : ¬(a = b || a = alive || b = alive || s.covers a b || s.covers b a) = true := by
    simp only [Bool.or_eq_true, decide_eq_true_eq, not_or, covers_iff]
    exact ⟨⟨⟨⟨different, rootA⟩, rootB⟩, notOver⟩, notUnder⟩
  have towardA : s.childToward? meet a = some x :=
    fork.left ▸ grown.childToward?_parentOf fork.overLeft fork.leftNode
  have towardB : s.childToward? meet b = some y :=
    fork.right ▸ grown.childToward?_parentOf fork.overRight fork.rightNode
  simp only [orthogonal, if_neg related, grown.lowestCommonAncestor_of_fork fork, towardA, towardB]

theorem Grown.fork_of_parted {a b : String} (parted : s.Parted a b) :
    ∃ meet x y, s.Fork meet a b x y ∧ s.isDimension x = true ∧ s.isDimension y = true := by
  obtain ⟨x, y, first, second, parents, apart, aboveA, aboveB⟩ := parted
  exact ⟨s.parentOf x, x, y, ⟨rfl, parents.symm, grown.ne_alive_of_isDimension first,
    grown.ne_alive_of_isDimension second, apart, aboveA, aboveB⟩, first, second⟩

theorem Grown.orthogonal_iff (a b : String) : s.orthogonal a b = true ↔ s.Parted a b := by
  constructor
  · intro holds
    have related : ¬(a = b || a = alive || b = alive || s.covers a b || s.covers b a) = true := by
      intro related
      simp [orthogonal, related] at holds
    simp only [Bool.or_eq_true, decide_eq_true_eq, not_or, covers_iff] at related
    obtain ⟨⟨-, notOver⟩, notUnder⟩ := related
    obtain ⟨x, y, fork⟩ := grown.exists_fork notOver notUnder
    rw [grown.orthogonal_of_fork fork, Bool.and_eq_true] at holds
    exact ⟨x, y, holds.1, holds.2, fork.left.trans fork.right.symm, fork.apart, fork.overLeft,
      fork.overRight⟩
  · intro parted
    obtain ⟨meet, x, y, fork, first, second⟩ := grown.fork_of_parted parted
    rw [grown.orthogonal_of_fork fork, first, second]
    rfl

theorem Grown.allOrthogonal_iff (nodes : List String) :
    s.allOrthogonal nodes = true ↔ nodes.Pairwise s.Parted := by
  induction nodes with
  | nil => simp [allOrthogonal]
  | cons n rest ih => simp [allOrthogonal, ih, grown.orthogonal_iff]

end Orthogonal

end Space

end Typestate

import Typestate.Proofs.Space.Alternation
import Typestate.Proofs.Space.Implication

set_option autoImplicit false

/-!
How the nodes of a space relate. Two of them are on one way up, or the ways down to them part at a
node: at a state, where an object can be in both, or at a dimension, where it cannot. The node at
which the ways to several nodes part is the lowest one above them, in whatever order they are taken.
Lying above is a partial order, and implication the preorder that it gives on the states that names
stand for.
-/

namespace Typestate

namespace Space

/-- One of the nodes is the other or lies above it. -/
def Related (s : Space) (a b : String) : Prop := s.covers a b = true ∨ s.covers b a = true

/-- The nodes are below two different states of one dimension. -/
def Exclusive (s : Space) (a b : String) : Prop :=
  ∃ d, s.isDimension d = true ∧ ∃ x ∈ s.children d, ∃ y ∈ s.children d,
    x ≠ y ∧ s.covers x a = true ∧ s.covers y b = true

section Parting

variable {s : Space} (grown : s.Grown)

include grown

theorem Grown.isKnown_of_above {upper n : String} (atop : s.Above upper n)
    (known : s.isKnown n = true) : s.isKnown upper = true := by
  induction n using grown.climb with
  | root => rwa [grown.eq_of_above_alive atop]
  | step n notAlive ih =>
    rcases (grown.above_iff_of_ne notAlive).mp atop with same | higher
    · rwa [same]
    · exact ih higher (grown.parent_alternates known notAlive).1

theorem Grown.isKnown_of_parted {a b : String} (parted : s.Parted a b) : s.isKnown a = true := by
  obtain ⟨x, -, dimension, -, -, -, overA, -⟩ := parted
  by_contra unknown
  -- Above a name that is not known there are only the name itself and the root.
  have notAlive : a ≠ alive := by
    rintro rfl
    simp [isKnown] at unknown
  have parent : s.parentOf a = alive := by
    have missing : s.node? a = none := by simpa [isKnown, notAlive] using unknown
    simp [parentOf, parent?, notAlive, missing]
  rcases (grown.above_iff_of_ne notAlive).mp overA with rfl | higher
  · obtain ⟨e, member, name, -⟩ := mem_of_isDimension dimension
    exact unknown (name ▸ isKnown_of_mem member)
  · rw [parent] at higher
    exact grown.ne_alive_of_isDimension dimension (grown.eq_of_above_alive higher)

theorem Grown.exclusive_of_fork {meet a b x y : String} (fork : s.Fork meet a b x y)
    (knownX : s.isKnown x = true) (knownY : s.isKnown y = true)
    (dimension : s.isDimension meet = true) : s.Exclusive a b := by
  have child {z : String} (known : s.isKnown z = true) (named : z ≠ alive)
      (parent : s.parentOf z = meet) : z ∈ s.children meet := by
    rw [grown.mem_children_iff, s.parent?_eq named, parent]
    exact ⟨(s.isKnown_iff z).mp known, rfl⟩
  exact ⟨meet, dimension, x, child knownX fork.leftNode fork.left, y,
    child knownY fork.rightNode fork.right, fork.apart, (s.covers_iff x a).mpr fork.overLeft,
    (s.covers_iff y b).mpr fork.overRight⟩

theorem Grown.fork_of_exclusive {a b : String} (exclusive : s.Exclusive a b) :
    ∃ meet x y, s.Fork meet a b x y ∧ s.isDimension meet = true := by
  obtain ⟨meet, dimension, x, childX, y, childY, apart, overA, overB⟩ := exclusive
  have parent {z : String} (child : z ∈ s.children meet) : z ≠ alive ∧ s.parentOf z = meet := by
    have up := ((grown.mem_children_iff meet z).mp child).2
    have named := ne_alive_of_parent? up
    rw [s.parent?_eq named, Option.some_inj] at up
    exact ⟨named, up⟩
  exact ⟨meet, x, y, ⟨(parent childX).2, (parent childY).2, (parent childX).1, (parent childY).1,
    apart, (s.covers_iff x a).mp overA, (s.covers_iff y b).mp overB⟩, dimension⟩

theorem Grown.not_related_of_fork {meet a b x y : String} (fork : s.Fork meet a b x y) :
    ¬s.Related a b := by
  rintro (atop | atop)
  · exact grown.not_above_of_fork fork ((s.covers_iff a b).mp atop)
  · exact grown.not_above_of_fork fork.symm ((s.covers_iff b a).mp atop)

theorem Grown.orthogonal_or_exclusive {a b : String} (knownA : s.isKnown a = true)
    (knownB : s.isKnown b = true) (unrelated : ¬s.Related a b) :
    s.orthogonal a b = true ∨ s.Exclusive a b := by
  simp only [Related, covers_iff, not_or] at unrelated
  obtain ⟨x, y, fork⟩ := grown.exists_fork unrelated.1 unrelated.2
  have knownX := grown.isKnown_of_above fork.overLeft knownA
  have knownY := grown.isKnown_of_above fork.overRight knownB
  -- Below a dimension there are states, and below a state there are dimensions.
  cases dimension : s.isDimension (s.lowestCommonAncestor a b) with
  | true => exact .inr (grown.exclusive_of_fork fork knownX knownY dimension)
  | false =>
    have turnX := (grown.parent_alternates knownX fork.leftNode).2
    have turnY := (grown.parent_alternates knownY fork.rightNode).2
    rw [fork.left, dimension] at turnX
    rw [fork.right, dimension] at turnY
    rw [grown.orthogonal_of_fork fork, turnX, turnY]
    exact .inl rfl

theorem Grown.not_orthogonal_of_exclusive {a b : String} (exclusive : s.Exclusive a b) :
    ¬s.orthogonal a b = true := by
  intro orthogonal
  -- The ways to the nodes part at one node only, and that is a state or a dimension.
  obtain ⟨meet, x, y, fork, dimension⟩ := grown.fork_of_exclusive exclusive
  rw [grown.orthogonal_of_fork fork, Bool.and_eq_true] at orthogonal
  have state := grown.isDimension_of_parentOf (fork.left.symm ▸ dimension)
  exact ne_of_isDimension state orthogonal.1 rfl

theorem Grown.not_related_of_orthogonal {a b : String} (orthogonal : s.orthogonal a b = true) :
    ¬s.Related a b := by
  obtain ⟨meet, x, y, fork, -⟩ := grown.fork_of_parted ((grown.orthogonal_iff a b).mp orthogonal)
  exact grown.not_related_of_fork fork

theorem Grown.not_related_of_exclusive {a b : String} (exclusive : s.Exclusive a b) :
    ¬s.Related a b := by
  obtain ⟨meet, x, y, fork, -⟩ := grown.fork_of_exclusive exclusive
  exact grown.not_related_of_fork fork

end Parting

section Meeting

variable {s : Space} (grown : s.Grown)

include grown

theorem Grown.above_lowestCommonAncestor_iff (upper a b : String) :
    s.Above upper (s.lowestCommonAncestor a b) ↔ s.Above upper a ∧ s.Above upper b := by
  obtain ⟨overA, overB, lowest⟩ := grown.lowestCommonAncestor_spec a b
  constructor
  · intro atop
    exact ⟨grown.above_trans atop overA, grown.above_trans atop overB⟩
  · rintro ⟨left, right⟩
    exact lowest upper left right

theorem Grown.above_foldl_iff (upper : String) (rest : List String) (first : String) :
    s.Above upper (rest.foldl s.lowestCommonAncestor first) ↔
      ∀ n ∈ first :: rest, s.Above upper n := by
  induction rest generalizing first with
  | nil => simp
  | cons n rest ih => simp [ih, grown.above_lowestCommonAncestor_iff, and_assoc]

theorem Grown.above_commonAncestor_iff {nodes : List String} (some : nodes ≠ []) (upper : String) :
    s.Above upper (s.commonAncestor nodes) ↔ ∀ n ∈ nodes, s.Above upper n := by
  cases nodes with
  | nil => exact absurd rfl some
  | cons first rest => exact grown.above_foldl_iff upper rest first

theorem Grown.eq_of_above_iff {a b : String} (same : ∀ n, s.Above n a ↔ s.Above n b) : a = b :=
  grown.above_antisymm ((same a).mp (grown.above_refl a)) ((same b).mpr (grown.above_refl b))

theorem Grown.commonAncestor_congr {nodes others : List String} (some : nodes ≠ [])
    (same : ∀ n, n ∈ others ↔ n ∈ nodes) : s.commonAncestor others = s.commonAncestor nodes := by
  have some' : others ≠ [] := by
    rintro rfl
    exact some (List.eq_nil_iff_forall_not_mem.mpr fun n member => by simpa using (same n).mpr member)
  refine grown.eq_of_above_iff fun n => ?_
  simp only [grown.above_commonAncestor_iff some', grown.above_commonAncestor_iff some, same]

theorem Grown.above_lowestCommonState_iff {upper : String} (plain : s.isDimension upper = false)
    (a b : String) :
    s.Above upper (s.lowestCommonState a b) ↔ s.Above upper a ∧ s.Above upper b := by
  rw [lowestCommonState, grown.above_stateOf_iff plain, grown.above_lowestCommonAncestor_iff]

end Meeting

section Results

variable {s : Space}

/-- Orthogonality holds both ways and of all that lies below, and two known nodes that are not
orthogonal are either on one way up or in states that exclude each other. A name that is not known
is orthogonal to none. -/
theorem orthogonal_trichotomy (built : s.Built) :
    (∀ a b, s.orthogonal a b = s.orthogonal b a) ∧
    (∀ a b, s.orthogonal a b = true → ∀ lower other, s.covers a lower = true →
      s.covers b other = true → s.orthogonal lower other = true) ∧
    (∀ a b, s.isKnown a = true → s.isKnown b = true →
      (s.Related a b ∨ s.orthogonal a b = true ∨ s.Exclusive a b) ∧
        ¬(s.Related a b ∧ s.orthogonal a b = true) ∧ ¬(s.Related a b ∧ s.Exclusive a b) ∧
        ¬(s.orthogonal a b = true ∧ s.Exclusive a b)) ∧
    ∀ a b, s.isKnown a = false → s.orthogonal a b = false := by
  have grown := built.grown
  refine ⟨fun a b => ?_, fun a b orthogonal lower other left right => ?_,
    fun a b knownA knownB => ⟨?_, ?_, ?_, ?_⟩, fun a b unknown => ?_⟩
  · rw [Bool.eq_iff_iff, grown.orthogonal_iff, grown.orthogonal_iff]
    exact ⟨Parted.symm, Parted.symm⟩
  · rw [grown.orthogonal_iff] at orthogonal ⊢
    rw [covers_iff] at left right
    exact grown.parted_mono orthogonal left right
  · by_cases related : s.Related a b
    · exact .inl related
    · exact .inr (grown.orthogonal_or_exclusive knownA knownB related)
  · rintro ⟨related, orthogonal⟩
    exact grown.not_related_of_orthogonal orthogonal related
  · rintro ⟨related, exclusive⟩
    exact grown.not_related_of_exclusive exclusive related
  · rintro ⟨orthogonal, exclusive⟩
    exact grown.not_orthogonal_of_exclusive exclusive orthogonal
  · by_contra orthogonal
    have parted := (grown.orthogonal_iff a b).mp (by simpa using orthogonal)
    rw [grown.isKnown_of_parted parted] at unknown
    cases unknown

/-- A lamp that is on has a colour and a brightness, and a bright one may be steady or not. -/
def lamp : Space :=
  (((Draft.new "Lamp").addDimension (some "power") alive ["on", "off"] false).1
    |>.addDimension (some "colour") "on" ["red", "white"] false).1
    |>.addDimension (some "light") "on" ["dim", "bright"] false |>.1.addState "steady" "bright"
    |>.1.space

theorem lamp_built : lamp.Built :=
  ⟨_, .addState (.addDimension (.addDimension (.addDimension (.new "Lamp") ..) ..) ..) .., rfl⟩

theorem orthogonal_trichotomy_of_lamp :
    lamp.orthogonal "colour" "light" = true ∧ lamp.orthogonal "steady" "red" = true ∧
      lamp.Exclusive "steady" "off" ∧ lamp.orthogonal "steady" "off" = false ∧
      lamp.orthogonal "blue" "light" = false := by
  obtain ⟨symmetric, inherited, decided, unknown⟩ := orthogonal_trichotomy lamp_built
  have dimensions : lamp.orthogonal "colour" "light" = true := by decide +kernel
  have unrelated : ¬lamp.Related "steady" "off" := by
    unfold Related
    decide +kernel
  have apart : lamp.orthogonal "steady" "off" = false := by decide +kernel
  obtain ⟨one, -⟩ := decided "steady" "off" (by decide +kernel) (by decide +kernel)
  refine ⟨dimensions, ?_, ?_, apart, unknown "blue" "light" (by decide +kernel)⟩
  · rw [symmetric]
    exact inherited "colour" "light" dimensions "red" "steady" (by decide +kernel)
      (by decide +kernel)
  · simpa [unrelated, apart] using one

/-- The common ancestor of some nodes is the lowest node above all of them, so neither order nor
repetition matters. That of two nodes is lifted to the lowest node above them that is no
dimension. -/
theorem commonAncestor_is_lowest (built : s.Built) :
    (∀ nodes, nodes ≠ [] →
      (∀ n ∈ nodes, s.covers (s.commonAncestor nodes) n = true) ∧
      (∀ upper, (∀ n ∈ nodes, s.covers upper n = true) →
        s.covers upper (s.commonAncestor nodes) = true) ∧
      ∀ others, (∀ n, n ∈ others ↔ n ∈ nodes) →
        s.commonAncestor others = s.commonAncestor nodes) ∧
    ∀ a b, s.isDimension (s.lowestCommonState a b) = false ∧
      s.covers (s.lowestCommonState a b) a = true ∧ s.covers (s.lowestCommonState a b) b = true ∧
      ∀ upper, s.isDimension upper = false → s.covers upper a = true → s.covers upper b = true →
        s.covers upper (s.lowestCommonState a b) = true := by
  have grown := built.grown
  simp only [covers_iff]
  -- The common ancestor is above itself, so it is above all that it is the common ancestor of.
  refine ⟨fun nodes some => ⟨?_, fun upper => ?_, fun others => grown.commonAncestor_congr some⟩,
    fun a b => ?_⟩
  · exact (grown.above_commonAncestor_iff some _).mp (grown.above_refl _)
  · exact (grown.above_commonAncestor_iff some upper).mpr
  · obtain ⟨left, right⟩ := grown.lowestCommonState_above a b
    refine ⟨grown.isDimension_stateOf _, left, right, fun upper plain overA overB => ?_⟩
    exact (grown.above_lowestCommonState_iff plain a b).mpr ⟨overA, overB⟩

theorem commonAncestor_is_lowest_of_lamp :
    lamp.commonAncestor ["steady", "dim", "steady"] = "light" ∧
      lamp.commonAncestor ["dim", "steady"] = "light" ∧
      lamp.covers "on" (lamp.commonAncestor ["steady", "dim", "steady"]) = true ∧
      lamp.lowestCommonState "steady" "dim" = "on" ∧
      lamp.covers "on" (lamp.lowestCommonState "steady" "dim") = true := by
  obtain ⟨several, two⟩ := commonAncestor_is_lowest lamp_built
  obtain ⟨-, lowest, unordered⟩ := several ["steady", "dim", "steady"] (by simp)
  have light : lamp.commonAncestor ["steady", "dim", "steady"] = "light" := by decide +kernel
  refine ⟨light, ?_, ?_, by decide +kernel, ?_⟩
  · rw [unordered ["dim", "steady"] fun n => by grind, light]
  · exact lowest "on" (by decide +kernel)
  · exact (two "steady" "dim").2.2.2 "on" (by decide +kernel) (by decide +kernel)
      (by decide +kernel)

/-- Implication is a preorder on all names, and two of them imply each other exactly if they stand
for one state. Covering is a partial order. -/
theorem implies_preorder_covers_order (built : s.Built) :
    (∀ n, s.implies n n = true) ∧
    (∀ a b c, s.implies a b = true → s.implies b c = true → s.implies a c = true) ∧
    (∀ a b, s.implies a b = true ∧ s.implies b a = true ↔ s.stateOf a = s.stateOf b) ∧
    (∀ n, s.covers n n = true) ∧
    (∀ a b, s.covers a b = true → s.covers b a = true → a = b) ∧
    ∀ a b c, s.covers a b = true → s.covers b c = true → s.covers a c = true := by
  have grown := built.grown
  simp only [covers_iff]
  exact ⟨grown.implies_self, fun a b c => grown.implies_trans, fun a b => grown.implies_both_iff,
    grown.above_refl, fun a b => grown.above_antisymm, fun a b c => grown.above_trans⟩

theorem implies_preorder_covers_order_of_lamp :
    lamp.implies "steady" "light" = true ∧ lamp.implies "light" "colour" = true ∧
      lamp.implies "steady" "colour" = true ∧ lamp.implies "colour" "light" = true ∧
      lamp.implies "blue" "blue" = true ∧ lamp.covers "blue" "blue" = true ∧
      lamp.covers "on" "steady" = true ∧ lamp.covers "steady" "light" = false := by
  obtain ⟨self, chain, both, selfCovers, antisymmetric, chainCovers⟩ :=
    implies_preorder_covers_order lamp_built
  have first : lamp.implies "steady" "light" = true := by decide +kernel
  have dimensions := (both "light" "colour").mpr (by decide +kernel)
  have below : lamp.covers "light" "steady" = true := by decide +kernel
  refine ⟨first, dimensions.1, chain _ _ _ first dimensions.1, dimensions.2, self _, selfCovers _,
    chainCovers _ _ _ (by decide +kernel) below, ?_⟩
  by_contra above
  have same := antisymmetric "steady" "light" (by simpa using above) below
  simp at same

-- Where a dimension refines a dimension, which no built space has, implication is not transitive.
example :
    let nested : Space :=
      ⟨"Lamp", [⟨"shade", "colour", true, false⟩, ⟨"colour", alive, true, false⟩], .empty⟩
    nested.implies alive "colour" = true ∧ nested.implies "colour" "shade" = true ∧
      nested.implies alive "shade" = false := by
  decide +kernel

end Results

end Space

end Typestate

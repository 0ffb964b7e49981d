import Typestate.Proofs.Permission.Asking
import Typestate.Proofs.Permission.Granting

set_option autoImplicit false

/-!
What is handed out whole is handed out once. A request that gets all there is at a node leaves
nothing for other requests that were split off from what covered the same part of the space, and
nothing is held there any more.
-/

namespace Typestate

open Permission

variable {V : Type} {S : Space}

/-- The fraction for a node, or without one that for all nodes below the root. -/
def Shares.fractionAt (s : Shares) : Option String → Fraction
  | none => s.below
  | some n => s.get n

/-- Spots at nodes that are above a root or below it. -/
def Space.Near (S : Space) (root : String) (spot : Option String) : Prop :=
  ∀ n, spot = some n → S.Above n root ∨ S.Above root n

/-- Spots on the way up from a node. -/
def Space.Over (S : Space) (fair : String → Prop) (m : String) (spot : Option String) : Prop :=
  ∀ n, spot = some n → S.Above n m ∧ fair n

theorem Space.over_some {fair : String → Prop} {m n : String} (atop : S.Above n m) (here : fair n) :
    S.Over fair m (some n) := by
  rintro _ ⟨⟩
  exact ⟨atop, here⟩

section Spots

variable (grown : S.Grown) {spot : Option String}

include grown

theorem Space.Over.near {fair : String → Prop} {m root : String} (along : S.Over fair m spot)
    (near : S.Above root m ∨ S.Above m root) : S.Near root spot := by
  intro n here
  rcases near with higher | lower
  · exact grown.above_total (along n here).1 higher
  · exact .inl (grown.above_trans (along n here).1 lower)

theorem Permission.IsPartOf.fractionAt {part whole : Permission} (isPart : part.IsPartOf S whole)
    (space : whole.space = S) (laid : whole.shares.Laid) (near : S.Near part.root spot) :
    part.shares.fractionAt spot = whole.shares.fractionAt spot := by
  subst space
  rw [isPart.shares]
  cases spot with
  | none => rfl
  | some n => exact Shares.get_reroot grown laid isPart.atop (near n rfl)

theorem Shares.Combined.fractionAt {p q : Permission} {rest : Shares}
    {holds : Fraction → Fraction → Fraction → Prop} (combined : Combined p.shares q.shares holds rest)
    (spaceP : p.space = S) (laidP : p.shares.Laid) (spaceQ : q.space = S) (laidQ : q.shares.Laid)
    (atop : S.Above q.root p.root) (near : S.Near p.root spot) :
    holds (p.shares.fractionAt spot) (q.shares.fractionAt spot) (rest.fractionAt spot) := by
  have space : rest.space = S := combined.space.trans spaceP
  have laid := combined.laid laidP
  cases spot with
  | none => exact combined.below
  | some n =>
      by_cases higher : S.Above n p.root
      · have entry := p.mem_values grown spaceP laidP higher
        obtain ⟨new, member, name, known⟩ := exists_right_of_forall₂ combined.values entry
        have here := Shares.get_of_mem (space ▸ grown) laid member
        rw [name] at here
        simpa only [Shares.fractionAt, here] using known
      · -- Below the root there is one fraction for all nodes, for the request as well.
        have lower := (near n rfl).resolve_left higher
        have apart {root : String} (above : S.Above root p.root) : n ≠ root := by
          rintro rfl
          exact higher above
        have left := p.get_of_below grown spaceP laidP lower (apart (grown.above_refl p.root))
        have right := q.get_of_below grown spaceQ laidQ (grown.above_trans atop lower) (apart atop)
        have root : rest.root = p.root := combined.root
        have outcome : rest.get n = rest.below := by
          refine Shares.get_of_below (space ▸ grown) laid ?_ (root ▸ apart (grown.above_refl p.root))
          rw [space, root]
          exact lower
        simpa only [Shares.fractionAt, left, right, outcome] using combined.below

end Spots

/-- A request that was granted, and the root of what it was split off. -/
structure Charge where
  request : Request
  site : String

namespace Charge

def fractionAt (c : Charge) (spot : Option String) : Fraction :=
  c.request.permission.shares.fractionAt spot

/-- Only to look on is something taken from below the root of the request. -/
structure Sited (S : Space) (c : Charge) : Prop where
  space : c.request.permission.space = S
  laid : c.request.permission.shares.Laid
  atop : S.Above c.request.root c.site
  low : c.site = c.request.root ∨ c.request.kind = .pure
  looks : c.request.kind = .pure → c.request.permission.shares.below = .zero

end Charge

theorem Excludes.mono {value : Term → V} {f g h : Fraction} (excludes : Excludes value f g)
    (fits : Fits value h g) : Excludes value f h :=
  ⟨fun one => fits.1 (excludes.1 one), fun one => excludes.2 (fits.2 one)⟩

theorem Excludes.zero_of_one {value : Term → V} {f g : Fraction} (excludes : Excludes value f g)
    (one : f = .one) : value g = value (.single .zero) := by
  subst one
  exact excludes.1 rfl

/-- Requests exclude each other and what is held, along every way up from a node that they were
split off above. Some nodes may be left out of account. -/
structure Exclusive (S : Space) (value : Term → V) (fair : String → Prop) (charges : List Charge)
    (pool : Pool) : Prop where
  sited : ∀ c ∈ charges, c.Sited S
  /-- Where something was taken from inside a state, nothing is held for its dimension as a whole. -/
  cut : ∀ c ∈ charges, ∀ n, S.Above n c.site → S.isDimension n = false →
    ∀ p ∈ pool, S.Above n p.root ∨ S.Parted p.root n
  later : charges.Pairwise fun c d => ∀ n, S.Above n c.site → S.isDimension n = false →
    S.Above n d.site ∨ S.Parted d.site n
  charged : ∀ m spot, S.Over fair m spot → charges.Pairwise fun c d =>
    S.Above c.site m → S.Above d.site m → Excludes value (c.fractionAt spot) (d.fractionAt spot)
  held : ∀ m spot, S.Over fair m spot → ∀ c ∈ charges, S.Above c.site m →
    ∀ p ∈ pool, (S.Above p.root m ∨ S.Above m p.root) →
      Excludes value (c.fractionAt spot) (p.shares.fractionAt spot)

namespace Exclusive

variable {value : Term → V} {fair : String → Prop} {charges : List Charge} {pool : Pool}
  {frame : Bool}

theorem start (S : Space) (value : Term → V) (fair : String → Prop) (pool : Pool) :
    Exclusive S value fair [] pool where
  sited _ member := absurd member List.not_mem_nil
  cut _ member := absurd member List.not_mem_nil
  later := .nil
  charged _ _ _ := .nil
  held _ _ _ _ member := absurd member List.not_mem_nil

variable (grown : S.Grown)

include grown

theorem divide (exclusive : Exclusive S value fair charges pool) (orderly : pool.Orderly S frame)
    {next : Pool} (parts : ∀ part ∈ next, ∃ whole ∈ pool, part.IsPartOf S whole) :
    Exclusive S value fair charges next := by
  refine { exclusive with
    cut := fun c member n atop plain part inside => ?_
    held := fun m spot along c member site part inside near => ?_ }
  · obtain ⟨whole, among, isPart⟩ := parts part inside
    -- What lies inside the whole lies inside what the whole is parted from.
    rcases exclusive.cut c member n atop plain whole among with higher | beside
    · exact .inl (grown.above_trans higher isPart.atop)
    · exact .inr (grown.parted_mono beside isPart.atop (grown.above_refl n))
  · obtain ⟨whole, among, isPart⟩ := parts part inside
    rw [isPart.fractionAt grown (orderly.space whole among) (orderly.laid whole among)
      (along.near grown near)]
    refine exclusive.held m spot along c member site whole among ?_
    rcases near with higher | lower
    · exact .inl (grown.above_trans isPart.atop higher)
    · exact grown.above_total isPart.atop lower

theorem charge {p : Permission} {others : Pool}
    (exclusive : Exclusive S value fair charges (p :: others))
    (orderly : Pool.Orderly S frame (p :: others)) {q : Request}
    (sited : Charge.Sited S ⟨q, p.root⟩) {rest : Shares}
    (divided : Shares.Combined p.shares q.permission.shares (Divided value) rest) {next : Pool}
    (members : ∀ r ∈ next, r ∈ others ∨ r.shares = rest) :
    Exclusive S value fair (charges ++ [⟨q, p.root⟩]) next := by
  have first : p ∈ p :: others := List.mem_cons_self
  have beside : ∀ o ∈ others, S.Parted p.root o.root := (List.pairwise_cons.mp orderly.apart).1
  have parts {spot : Option String} (near : S.Near p.root spot) :
      Divided value (p.shares.fractionAt spot) (q.permission.shares.fractionAt spot)
        (rest.fractionAt spot) :=
    divided.fractionAt grown (orderly.space p first) (orderly.laid p first) sited.space sited.laid
      sited.atop near
  have root {r : Permission} (same : r.shares = rest) : r.root = p.root :=
    (congrArg Shares.root same).trans divided.root
  refine ⟨fun c member => ?_, fun c member n atop plain r inside => ?_, ?_, fun m spot along => ?_,
    fun m spot along c member site r inside near => ?_⟩
  · rcases List.mem_append.mp member with old | new
    · exact exclusive.sited c old
    · rw [List.mem_singleton.mp new]
      exact sited
  · rcases List.mem_append.mp member with old | new
    · rcases members r inside with other | same
      · exact exclusive.cut c old n atop plain r (List.mem_cons_of_mem _ other)
      · rw [root same]
        exact exclusive.cut c old n atop plain p first
    · rw [List.mem_singleton.mp new] at atop
      rcases members r inside with other | same
      · exact grown.above_or_parted (beside r other) atop
      · rw [root same]
        exact .inl atop
  · refine List.pairwise_append.mpr ⟨exclusive.later, List.pairwise_singleton _ _,
      fun c old d new n atop plain => ?_⟩
    rw [List.mem_singleton.mp new]
    exact exclusive.cut c old n atop plain p first
  · refine List.pairwise_append.mpr ⟨exclusive.charged m spot along, List.pairwise_singleton _ _,
      fun c old d new site here => ?_⟩
    -- The new request takes no more than was held, and that was excluded.
    rw [List.mem_singleton.mp new] at here ⊢
    exact (exclusive.held m spot along c old site p first (.inl here)).mono
      (parts (along.near grown (.inl here))).taken
  · rcases List.mem_append.mp member with old | new
    · rcases members r inside with other | same
      · exact exclusive.held m spot along c old site r (List.mem_cons_of_mem _ other) near
      · rw [root same] at near
        rw [same]
        exact (exclusive.held m spot along c old site p first near).mono
          (parts (along.near grown near)).rest
    · rw [List.mem_singleton.mp new] at site ⊢
      rcases members r inside with other | same
      · -- Two permissions of a pool do not lie on one way.
        have parted := beside r other
        rcases near with higher | lower
        · rcases grown.above_total site higher with along | along
          · exact absurd along (grown.not_above_of_parted parted)
          · exact absurd along (grown.not_above_of_parted parted.symm)
        · exact absurd (grown.above_trans site lower) (grown.not_above_of_parted parted)
      · rw [root same] at near
        rw [same]
        exact (parts (along.near grown near)).apart

theorem request_above (exclusive : Exclusive S value fair charges pool) {p : Permission}
    (inside : p ∈ pool) (kind : S.isDimension p.root = true) {c : Charge} (member : c ∈ charges)
    {m : String} (site : S.Above c.site m) (near : S.Above p.root m) :
    S.Above c.request.root p.root := by
  have atop := (exclusive.sited c member).atop
  rcases grown.above_total (grown.above_trans atop site) near with higher | lower
  · exact higher
  · by_contra below
    have apart : p.root ≠ c.request.root := by
      intro same
      rw [same] at below
      exact below (grown.above_refl _)
    -- A state of the dimension is on the way to the request, and the state is cut out.
    obtain ⟨state, -, parent, notAlive, along⟩ := grown.childToward?_eq_some lower apart
    have plain := grown.isDimension_of_parentOf (parent ▸ kind)
    rcases exclusive.cut c member state (grown.above_trans along atop) plain p inside with up | beside
    · exact grown.not_above_parent notAlive (parent ▸ up)
    · exact grown.not_above_of_parted beside (parent ▸ grown.above_parentOf state)

section Combining

variable (exclusive : Exclusive S value fair charges pool) {state : String} {w : Permission}
  (space : w.space = S) (made : IsWhole value state (pool.parts S state) w)

include exclusive space made

theorem part_excludes {p : Permission} (part : p ∈ pool.parts S state) {c : Charge}
    (member : c ∈ charges) {m : String} {spot : Option String} (along : S.Over fair m spot)
    (site : S.Above c.site m) (near : S.Above p.root m ∨ S.Above m p.root)
    (high : ∀ n, spot = some n → S.Above n state) :
    Excludes value (c.fractionAt spot) (w.shares.fractionAt spot) := by
  -- From the state up, and for what is below, the whole has no more than each of its parts.
  refine (exclusive.held m spot along c member site p (Pool.mem_parts_iff.mp part).1 near).mono ?_
  cases spot with
  | none => exact made.below p part
  | some n =>
      have entry := w.mem_values grown space made.laid (made.root ▸ high n rfl)
      exact made.values _ entry p part

theorem whole_excludes_dimension {p : Permission} (part : p ∈ pool.parts S state)
    (orderly : pool.Orderly S frame) {c : Charge} (member : c ∈ charges)
    (elsewhere : fair p.root → c.request.root ≠ p.root) {m : String} {spot : Option String}
    (along : S.Over fair m spot) (site : S.Above c.site m) (near : S.Above p.root m) :
    Excludes value (c.fractionAt spot) (w.shares.fractionAt spot) := by
  obtain ⟨inside, dimension⟩ := Pool.mem_parts_iff.mp part
  obtain ⟨kind, parent⟩ := grown.mem_dimensions_iff.mp dimension
  obtain ⟨below, strict⟩ := grown.lower_of_mem_dimensions dimension
  have lowest {n : String} (lower : S.Above p.root n) : w.shares.get n = w.shares.below := by
    refine w.get_of_below grown space made.laid (made.root ▸ grown.above_trans below lower) ?_
    rw [made.root]
    rintro rfl
    exact strict (grown.above_antisymm lower below)
  cases spot with
  | none => exact exclusive.part_excludes grown space made part member along site (.inl near) nofun
  | some n =>
      obtain ⟨atop, isFair⟩ := along n rfl
      by_cases same : n = p.root
      · -- What the part has for the dimension itself is lost, so the request must not be for it.
        subst same
        have sited := exclusive.sited c member
        have none := exclusive.part_excludes grown space made part member
          (nofun : S.Over fair m none) site (.inl near) nofun
        have requested := c.request.permission.get_of_below grown sited.space sited.laid
          (exclusive.request_above grown inside kind member site near) (elsewhere isFair).symm
        simpa only [Charge.fractionAt, Shares.fractionAt, requested,
          lowest (grown.above_refl p.root)] using none
      · rcases grown.above_total atop near with higher | lower
        · have state := ((grown.above_iff_of_ne (grown.ne_alive_of_isDimension kind)).mp
            higher).resolve_left same
          refine exclusive.part_excludes grown space made part member along site (.inl near) ?_
          rintro n ⟨⟩
          exact parent ▸ state
        · have excludes := exclusive.held m (some n) along c member site p inside (.inl near)
          have held := p.get_of_below grown (orderly.space p inside) (orderly.laid p inside) lower
            same
          simp only [Shares.fractionAt, held] at excludes
          simpa only [Shares.fractionAt, lowest lower] using excludes.mono (made.below p part)

theorem whole_excludes_plain {p : Permission} (part : p ∈ pool.parts S state) {c : Charge}
    (member : c ∈ charges) {child : String} (notAlive : child ≠ alive)
    (parent : S.parentOf child = state) (plain : S.isDimension child = false) {m : String}
    {spot : Option String} (along : S.Over fair m spot) (site : S.Above c.site m)
    (near : S.Above child m) :
    Excludes value (c.fractionAt spot) (w.shares.fractionAt spot) := by
  obtain ⟨inside, dimension⟩ := Pool.mem_parts_iff.mp part
  obtain ⟨kind, parentP⟩ := grown.mem_dimensions_iff.mp dimension
  have strict : ¬S.Above child state := parent ▸ grown.not_above_parent notAlive
  -- Below a child that is no dimension nothing was split off, or the parts would not be there.
  have uncut : ¬S.Above child c.site := by
    intro cut
    rcases exclusive.cut c member child cut plain p inside with up | beside
    · have higher := ((grown.above_iff_of_ne (grown.ne_alive_of_isDimension kind)).mp
        up).resolve_left (Space.ne_of_isDimension plain kind)
      exact strict (parentP ▸ higher)
    · exact grown.not_parted_of_plain kind plain notAlive (parent.trans parentP.symm) beside
  have siteState : S.Above c.site state := by
    have higher := (grown.above_total site near).resolve_right uncut
    have apart : c.site ≠ child := by
      rintro rfl
      exact uncut (grown.above_refl _)
    exact parent ▸ ((grown.above_iff_of_ne notAlive).mp higher).resolve_left apart
  have below : S.Above state p.root := (grown.lower_of_mem_dimensions dimension).1
  by_cases high : ∀ n, spot = some n → S.Above n state
  · refine exclusive.part_excludes grown space made part member ?_ siteState (.inr below) high
    exact fun n here => ⟨high n here, (along n here).2⟩
  · -- Below the state, where request and whole have one fraction each for all nodes.
    simp only [not_forall] at high
    obtain ⟨n, rfl, low⟩ := high
    have lower : S.Above state n := by
      rcases grown.above_total (along n rfl).1 near with up | down
      · rcases (grown.above_iff_of_ne notAlive).mp up with rfl | higher
        · exact parent ▸ grown.above_parentOf n
        · exact absurd (parent ▸ higher) low
      · exact grown.above_trans (parent ▸ grown.above_parentOf child) down
    have apart {root : String} (above : S.Above root state) : n ≠ root := by
      rintro rfl
      exact low above
    have sited := exclusive.sited c member
    have root := grown.above_trans sited.atop siteState
    have requested := c.request.permission.get_of_below grown sited.space sited.laid
      (grown.above_trans root lower) (apart root)
    have held := w.get_of_below grown space made.laid (made.root ▸ lower)
      (made.root ▸ apart (grown.above_refl state))
    have none := exclusive.part_excludes grown space made part member
      (nofun : S.Over fair state none) siteState (.inr below) nofun
    simpa only [Charge.fractionAt, Shares.fractionAt, requested, held] using none

/-- Putting parts together changes nothing, if no request was for one of the dimensions itself. -/
theorem combine (orderly : pool.Orderly S frame) (holds : pool.HoldsDimensions S state)
    (elsewhere : ∀ d ∈ S.dimensions state, fair d → ∀ c ∈ charges, c.request.root ≠ d)
    {others : Pool} (kept : ∀ p ∈ others, p ∈ pool) :
    Exclusive S value fair charges (w :: others) := by
  have parts {d : String} (member : d ∈ S.dimensions state) :
      ∃ p ∈ pool.parts S state, p.root = d := by
    obtain ⟨p, inside, rfl⟩ := holds.2 d member
    exact ⟨p, Pool.mem_parts_iff.mpr ⟨inside, member⟩, rfl⟩
  refine { exclusive with
    cut := fun c member n atop plain p inside => ?_
    held := fun m spot along c member site p inside near => ?_ }
  · rcases List.mem_cons.mp inside with rfl | other
    · rw [made.root]
      refine grown.above_or_parted_of_dimensions holds.1 plain fun d dimension => ?_
      obtain ⟨part, among, rfl⟩ := holds.2 d dimension
      exact exclusive.cut c member n atop plain part among
    · exact exclusive.cut c member n atop plain p (kept p other)
  · rcases List.mem_cons.mp inside with rfl | other
    · rw [made.root] at near
      -- At or above the state any part will do. Below it the part for the dimension on the way to
      -- `m` is needed, unless a plain child is on the way.
      by_cases above : S.Above m state
      · obtain ⟨d, dimension⟩ := List.exists_mem_of_ne_nil _ holds.1
        obtain ⟨part, among, rfl⟩ := parts dimension
        refine exclusive.part_excludes grown space made among member along site
          (.inr (grown.above_trans above (grown.lower_of_mem_dimensions dimension).1)) ?_
        exact fun n here => grown.above_trans (along n here).1 above
      · have under := near.resolve_right above
        have apart : state ≠ m := by
          rintro rfl
          exact above (grown.above_refl _)
        obtain ⟨child, -, parent, notAlive, overM⟩ := grown.childToward?_eq_some under apart
        by_cases kind : S.isDimension child = true
        · have dimension := grown.mem_dimensions_iff.mpr ⟨kind, parent⟩
          obtain ⟨part, among, rfl⟩ := parts dimension
          exact exclusive.whole_excludes_dimension grown space made among orderly member
            (fun isFair => elsewhere _ dimension isFair c member) along site overM
        · obtain ⟨d, dimension⟩ := List.exists_mem_of_ne_nil _ holds.1
          obtain ⟨part, among, -⟩ := parts dimension
          exact exclusive.whole_excludes_plain grown space made among member notAlive parent
            (by simpa using kind) along site overM
    · exact exclusive.held m spot along c member site p (kept p other) near

end Combining

end Exclusive

/-- No permission but one to look on was handed out for the node above after one for a node
itself. -/
def Undisturbed (S : Space) (n : String) (handed : List Request) : Prop :=
  handed.Pairwise fun earlier later =>
    earlier.root = n → later.root = S.parentOf n → later.kind = .pure

namespace Pool

variable {value : Term → V} {frame : Bool} (grown : S.Grown) {pool : Pool}
  (orderly : pool.Orderly S frame)

include grown orderly

omit orderly in
theorem splitFound_exclusive (distinct : value (.single .zero) ≠ value (.single .one))
    (s : Solution) {q : Request} {p : Permission} {others : Pool}
    (orderly : Orderly S frame (p :: others)) (sited : Charge.Sited S ⟨q, p.root⟩) :
    Reveals value (splitFound s q p others) fun next => ∀ fair charges,
      Exclusive S value fair charges (p :: others) →
        Exclusive S value fair (charges ++ [⟨q, p.root⟩]) next := by
  refine (p.split_divides distinct q s).bind fun remainder => ?_
  cases remainder with
  | none =>
      refine .pure ?_
      rintro ⟨-, rest, divided, -⟩ fair charges exclusive
      exact exclusive.charge grown orderly sited divided fun r member => .inl member
  | some r =>
      refine .pure ?_
      rintro ⟨-, rest, divided, same⟩ fair charges exclusive
      refine exclusive.charge grown orderly sited divided fun r' member => ?_
      rcases List.mem_append.mp member with other | last
      · exact .inl other
      · rw [List.mem_singleton.mp last]
        exact .inr (same r rfl)

theorem Orderly.splitCombined_exclusive (distinct : value (.single .zero) ≠ value (.single .one))
    (s : Solution) {q : Request} {first last : Nat} {cs : Constraints}
    (fresh : q.Fresh S first last cs) :
    Reveals value (splitCombined s q pool) fun next =>
      pool.HoldsDimensions S q.root ∧ ∀ fair charges, Exclusive S value fair charges pool →
        (∀ d ∈ S.dimensions q.root, fair d → ∀ c ∈ charges, c.request.root ≠ d) →
          ∃ site, Exclusive S value fair (charges ++ [⟨q, site⟩]) next := by
  by_cases holds : pool.HoldsDimensions S q.root
  · have yields : Yields (combineUp q.root (pool.parts S q.root)) fun whole =>
        ∀ w, whole = some w → ∃ p ∈ pool.parts S q.root, w.space = p.space ∧
          w.root = q.root ∧ w.frame = p.frame ∧ w.shares.Laid := by
      intro l w made
      obtain ⟨p, part, known⟩ := combineUp_yields q.root _ l w made
      exact ⟨p, part, known.1, known.2.1, known.2.2, combineUp_laid q.root _ l w made⟩
    rw [orderly.splitCombined_of_holds s q holds]
    refine (combineUp_reveals q.root (pool.parts S q.root)).bindYields yields
      fun whole possible => ?_
    cases whole with
    | none => exact turnDown_reveals q _ _
    | some w =>
        obtain ⟨p, part, same, root, framed, laidW⟩ := possible w rfl
        have inside := (mem_parts_iff.mp part).1
        have sited : Charge.Sited S ⟨q, w.root⟩ :=
          ⟨fresh.space, fresh.laid, root ▸ grown.above_refl _, .inl root, fresh.looks⟩
        refine (splitFound_exclusive grown distinct s
          (orderly.cons_combined grown holds inside same root framed laidW) sited).mono
          fun next known made => ⟨holds, fun fair charges exclusive elsewhere => ?_⟩
        refine ⟨w.root, known fair charges (exclusive.combine grown
          (same.trans (orderly.space p inside)) (made w rfl) orderly holds elsewhere ?_)⟩
        exact fun o member => (List.mem_filter.mp member).1
  · rw [orderly.splitCombined_of_not_holds s q holds]
    exact turnDown_reveals q pool _

theorem Orderly.splitOne_exclusive (distinct : value (.single .zero) ≠ value (.single .one))
    (s : Solution) {q : Request} {first last : Nat} {cs : Constraints}
    (fresh : q.Fresh S first last cs) :
    Reveals value (pool.splitOne s q) fun next => ∀ fair charges,
      Exclusive S value fair charges pool →
        (∀ n, fair n → S.isDimension n = true → ∀ c ∈ charges, c.request.root = n →
          q.root = S.parentOf n → q.kind = .pure) →
        ∃ site, Exclusive S value fair (charges ++ [⟨q, site⟩]) next := by
  rcases orderly.take?_cases grown q with
    ⟨whole, member, atop, p, others, taken, readOnly, shares⟩ |
    ⟨-, ⟨looks, p, others, taken, under⟩ | ⟨missing, nothing⟩⟩
  · have root : p.root = q.root := by
      rw [Permission.root, shares]
      rfl
    obtain ⟨ordered, parts⟩ := orderly.take?_parts grown taken
    rw [splitOne_of_take? taken]
    refine (splitFound_exclusive grown distinct s ordered
      ⟨fresh.space, fresh.laid, root ▸ grown.above_refl _, .inl root, fresh.looks⟩).mono
      fun next known fair charges exclusive _ => ⟨p.root, ?_⟩
    exact known fair charges (exclusive.divide grown orderly parts)
  · obtain ⟨ordered, parts⟩ := orderly.take?_parts grown taken
    have below := (mem_under_iff.mp (List.mem_of_head? under)).2.1
    rw [splitOne_of_take? taken]
    refine (splitFound_exclusive grown distinct s ordered
      ⟨fresh.space, fresh.laid, below, .inr looks, fresh.looks⟩).mono
      fun next known fair charges exclusive _ => ⟨p.root, ?_⟩
    exact known fair charges (exclusive.divide grown orderly parts)
  · rw [splitOne_of_take?_none missing]
    refine (orderly.splitCombined_exclusive grown distinct s fresh).mono ?_
    rintro next ⟨holds, known⟩ fair charges exclusive steady
    refine known fair charges exclusive fun d dimension isFair c member same => ?_
    -- Only to look on could something have been taken from below, and there is something below.
    obtain ⟨kind, parent⟩ := grown.mem_dimensions_iff.mp dimension
    have looks := steady d isFair kind c member same parent.symm
    obtain ⟨p, under⟩ := holds.exists_under grown
    rw [nothing looks] at under
    cases under

/-- Requests that are split off one after the other exclude each other. -/
theorem Orderly.split_exclusive (distinct : value (.single .zero) ≠ value (.single .one))
    (s : Solution) {first last : Nat} {cs : Constraints} (requests : List Request)
    (fresh : ∀ q ∈ requests, q.Fresh S first last cs) :
    Reveals value (pool.split s requests) fun next => ∀ (fair : String → Prop) charges,
      Exclusive S value fair charges pool →
        (∀ n, fair n → S.isDimension n = true →
          Undisturbed S n (charges.map Charge.request ++ requests)) →
        ∃ more : List Charge, more.map Charge.request = requests ∧
          Exclusive S value fair (charges ++ more) next := by
  induction requests generalizing pool with
  | nil =>
      refine .pure fun fair charges exclusive _ => ⟨[], rfl, ?_⟩
      rw [List.append_nil]
      exact exclusive
  | cons q rest ih =>
      have head := fresh q List.mem_cons_self
      unfold Pool.split
      rw [List.foldlM_cons]
      refine (orderly.splitOne_exclusive grown distinct s head).bindYields
        (orderly.splitOne grown s q) fun next possible => ?_
      refine (ih possible.1 fun q' later => fresh q' (List.mem_cons_of_mem _ later)).mono
        fun final known step fair charges exclusive steady => ?_
      -- No request before `q` was for a dimension that `q` puts together.
      obtain ⟨site, charged⟩ := step fair charges exclusive fun n isFair dimension c member => by
        have pairs := (List.pairwise_append.mp (steady n isFair dimension)).2.2
        exact pairs c.request (List.mem_map_of_mem member) q List.mem_cons_self
      obtain ⟨more, same, done⟩ := known fair _ charged fun n isFair dimension => by
        simpa using steady n isFair dimension
      refine ⟨⟨q, site⟩ :: more, by rw [List.map_cons, same], ?_⟩
      simpa using done

end Pool

end Typestate

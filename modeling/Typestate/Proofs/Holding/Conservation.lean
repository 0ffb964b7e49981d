import Typestate.Proofs.Holding.Dealing
import Typestate.Proofs.Holding.JoinSoundness

set_option autoImplicit false

/-!
Nothing is handed out twice. However one permission for all of an object is dealt out, there are
numbers that meet all demands and under which the requests add up to at most one at a node.
-/

namespace Typestate

variable {V : Type} {S : Space}

namespace Request

/-- Requests that count at a node. One for all of a part of the space counts inside that part only,
for above it has copies of what was held there. -/
def countsAt (S : Space) (n : String) (q : Request) : Bool :=
  q.kind != .unique || S.covers q.root n

/-- A request for all below the state that a dimension refines, after one for the dimension that
leaves what is below to others. -/
def reclaims (S : Space) (n : String) (earlier later : Request) : Bool :=
  earlier.root = n && (earlier.kind = .pure || earlier.kind = .share) &&
    later.root = S.parentOf n && (later.kind = .full || later.kind = .unique)

/-- A request with fractions of its own, and with its demands met. -/
def Served (S : Space) (value : Term → V) (q : Request) : Prop :=
  ∃ first last cs, q.Fresh S first last cs ∧ cs.MetBy value

namespace Served

variable {value : Term → V} {q : Request} (served : q.Served S value)

include served

theorem root_ne_zero (grown : S.Grown) :
    value (q.permission.shares.get q.root) ≠ value (.single .zero) := by
  obtain ⟨first, last, cs, fresh, met⟩ := served
  rw [Request.root, q.permission.get_root grown fresh.space fresh.laid]
  exact met.ne_zero fresh.used

theorem kind_of_below_one (one : q.permission.shares.below = .one) :
    q.kind = .full ∨ q.kind = .unique := by
  obtain ⟨first, last, cs, fresh, -⟩ := served
  exact fresh.owns one

theorem kind_of_below_zero (zero : value q.permission.shares.below = value (.single .zero)) :
    q.kind = .pure ∨ q.kind = .share := by
  obtain ⟨first, last, cs, fresh, met⟩ := served
  by_contra other
  rw [not_or] at other
  exact met.ne_zero (fresh.reads other.1 other.2) zero

theorem above_of_one (grown : S.Grown) {n : String} (counts : q.countsAt S n = true)
    (one : q.permission.shares.get n = .one) :
    S.Above q.root n ∧ q.permission.shares.below = .one := by
  obtain ⟨first, last, cs, fresh, -⟩ := served
  by_cases higher : S.Above n q.root
  · have unique : q.kind = .unique := by
      by_contra some
      exact fresh.proper some _ (q.permission.mem_values grown fresh.space fresh.laid higher) one
    refine ⟨(S.covers_iff q.root n).mp ?_, fresh.whole unique _ (Shares.below_mem_fractions _)⟩
    simpa [Request.countsAt, unique] using counts
  · by_cases lower : S.Above q.root n
    · have apart : n ≠ q.root := fun same => higher (same ▸ grown.above_refl _)
      have below := q.permission.get_of_below grown fresh.space fresh.laid lower apart
      exact ⟨lower, below.symm.trans one⟩
    · rw [q.permission.get_of_beside fresh.space fresh.laid higher lower] at one
      cases one

theorem get_of_root (grown : S.Grown) (one : q.permission.shares.get q.root = .one) {n : String}
    (above : S.Above n q.root) : q.permission.shares.get n = .one := by
  obtain ⟨first, last, cs, fresh, -⟩ := served
  have entry {k : String} := q.permission.mem_values (n := k) grown fresh.space fresh.laid
  have unique : q.kind = .unique := by
    by_contra some
    exact fresh.proper some _ (entry (grown.above_refl _)) one
  exact fresh.whole unique _ (Shares.mem_fractions_of_mem (entry above))

end Served

end Request

/-- What requests add up to at a node. -/
def Valuation.sumAt (v : Valuation) (n : String) (handed : List Request) : ℚ :=
  (handed.map fun q => v.number (q.permission.shares.get n)).sum

namespace Valuation

variable (v : Valuation) {n : String} {handed : List Request}

theorem sumAt_of_map {shares : List Fraction}
    (same : (handed.map fun q => q.permission.shares.get n) = shares) :
    v.sumAt n handed = (shares.map v.number).sum := by
  rw [← same, List.map_map]
  rfl

theorem sumAt_le {ε : ℚ} (little : ∀ q ∈ handed, v.number (q.permission.shares.get n) ≤ ε) :
    v.sumAt n handed ≤ handed.length * ε := by
  have sum := List.sum_le_card_nsmul _ ε (List.forall_mem_map.mpr little)
  rwa [List.length_map, nsmul_eq_mul] at sum

theorem sumAt_of_alone {before after : List Request} {q : Request}
    (alone : ∀ r ∈ before ++ after, v.number (r.permission.shares.get n) = 0) :
    v.sumAt n (before ++ q :: after) = v.number (q.permission.shares.get n) := by
  have nothing {rest : List Request} (inside : ∀ r ∈ rest, r ∈ before ++ after) :
      v.sumAt n rest = 0 :=
    List.sum_eq_zero (List.forall_mem_map.mpr fun r member => alone r (inside r member))
  calc v.sumAt n (before ++ q :: after)
      = v.sumAt n before + (v.number (q.permission.shares.get n) + v.sumAt n after) := by
        simp [sumAt]
    _ = v.number (q.permission.shares.get n) := by
        rw [nothing fun r => List.mem_append_left _, nothing fun r => List.mem_append_right _,
          zero_add, add_zero]

end Valuation

namespace Charge.Sited

variable {c : Charge} (sited : c.Sited S)

include sited

theorem site_eq (kind : c.request.kind ≠ .pure) : c.site = c.request.root :=
  sited.low.resolve_right kind

theorem site_eq_of_below (below : c.request.permission.shares.below = .one) :
    c.site = c.request.root := by
  refine sited.site_eq fun looks => ?_
  rw [sited.looks looks] at below
  cases below

theorem fractionAt_eq_zero (grown : S.Grown) {n : String} (higher : ¬S.Above n c.site)
    (lower : ¬S.Above c.site n) : c.fractionAt (some n) = .zero := by
  have outside : ¬S.Above n c.request.root := fun atop => higher (grown.above_trans atop sited.atop)
  by_cases inside : S.Above c.request.root n
  · have apart : n ≠ c.request.root := fun same => outside (same ▸ grown.above_refl _)
    refine (c.request.permission.get_of_below grown sited.space sited.laid inside apart).trans ?_
    exact sited.looks (sited.low.resolve_left fun same => lower (same ▸ inside))
  · exact c.request.permission.get_of_beside sited.space sited.laid outside inside

end Charge.Sited

namespace Exclusive

variable {value : Term → V} {fair : String → Prop} {pool : Pool} {n : String}

section Pairs

variable (grown : S.Grown) {charges : List Charge}
  (exclusive : Exclusive S value fair charges pool) {c z : Charge} (first : c ∈ charges)
  (last : z ∈ charges)

include exclusive first last

theorem excludes (different : z.request.root ≠ c.request.root) {m : String} {spot : Option String}
    (along : S.Over fair m spot) (site : S.Above z.site m) (here : S.Above c.site m) :
    Excludes value (z.fractionAt spot) (c.fractionAt spot) := by
  let related (a b : Charge) : Prop :=
    S.Above a.site m → S.Above b.site m → Excludes value (a.fractionAt spot) (b.fractionAt spot)
  have : Std.Symm related := ⟨fun _ _ excludes left right => (excludes right left).symm⟩
  have pairs : charges.Pairwise related := exclusive.charged m spot along
  refine pairs.forall last first ?_ site here
  rintro rfl
  exact different rfl

include grown

theorem root_ne_of_disturbed (dimension : S.isDimension n = true) (plain : fair (S.parentOf n))
    (served : z.request.Served S value) (other : c.request.Served S value)
    (one : z.fractionAt (some n) = .one) (up : c.request.root = S.parentOf n)
    (kind : c.request.kind ≠ .pure) : z.request.root ≠ n := by
  rintro rfl
  have parent := grown.above_parentOf z.request.root
  have apart : z.request.root ≠ c.request.root := by
    intro same
    refine grown.not_above_parent (grown.ne_alive_of_isDimension dimension) ?_
    rw [← up, ← same]
    exact grown.above_refl _
  -- All of the dimension means all of the state too, of which the other request has something.
  have below := (served.above_of_one grown (by simp [Request.countsAt, S.covers_iff,
    grown.above_refl]) one).2
  have site := (exclusive.sited z last).site_eq_of_below below
  have here := ((exclusive.sited c first).site_eq kind).trans up
  have excludes := exclusive.excludes first last apart (Space.over_some parent plain)
    (site ▸ grown.above_refl _) (here ▸ parent)
  have some := other.root_ne_zero grown
  rw [up] at some
  exact some (excludes.zero_of_one (served.get_of_root grown one parent))

theorem below_eq_zero (site : S.Above z.site n) (below : z.request.permission.shares.below = .one)
    (root : c.request.root = n) (apart : z.request.root ≠ n) :
    value c.request.permission.shares.below = value (.single .zero) := by
  have atop : S.Above n c.site := root ▸ (exclusive.sited c first).atop
  have excludes := exclusive.excludes first last (root ▸ apart)
    (nofun : S.Over fair c.site none) (grown.above_trans site atop) (grown.above_refl _)
  exact excludes.zero_of_one below

theorem root_ne_of_one (here : fair n) (served : c.request.Served S value)
    (site : S.Above z.site n) (one : z.fractionAt (some n) = .one) (apart : z.request.root ≠ n) :
    c.request.root ≠ n := by
  rintro rfl
  have atop := (exclusive.sited c first).atop
  have excludes := exclusive.excludes first last apart (Space.over_some atop here)
    (grown.above_trans site atop) (grown.above_refl _)
  exact served.root_ne_zero grown (excludes.zero_of_one one)

end Pairs

theorem root_eq_parentOf (grown : S.Grown) {before after : List Charge} {c z : Charge}
    (exclusive : Exclusive S value fair (before ++ after) pool) (first : c ∈ before)
    (last : z ∈ after) (dimension : S.isDimension n = true) (root : c.request.root = n)
    (site : z.site = z.request.root) (above : S.Above z.request.root n)
    (apart : z.request.root ≠ n) : z.request.root = S.parentOf n := by
  have notAlive := grown.ne_alive_of_isDimension dimension
  have higher := ((grown.above_iff_of_ne notAlive).mp above).resolve_left apart
  have sited := exclusive.sited c (List.mem_append_left _ first)
  have atop := grown.above_trans (grown.above_parentOf n) (root ▸ sited.atop)
  -- The state is cut out by the first request, so what comes later comes from it or from beside.
  rcases (List.pairwise_append.mp exclusive.later).2.2 c first z last _ atop
      (grown.parentOf_of_isDimension dimension) with lower | beside
  · exact grown.above_antisymm higher (site ▸ lower)
  · exact absurd higher (site ▸ grown.not_above_of_parted beside)

theorem eq_zero_of_one (grown : S.Grown) {before after : List Charge} {c d : Charge}
    (exclusive : Exclusive S value fair (before ++ c :: after) pool) (here : fair n)
    (site : S.Above c.site n) (one : c.fractionAt (some n) = .one) (other : d ∈ before ++ after) :
    value (d.fractionAt (some n)) = value (.single .zero) := by
  have sited : d.Sited S := exclusive.sited d (by grind)
  have excluded {m : String} (below : S.Above n m) (atop : S.Above d.site m) :
      value (d.fractionAt (some n)) = value (.single .zero) := by
    have pairs := (List.pairwise_middle fun excludes left right => (excludes right left).symm).mp
      (exclusive.charged m (some n) (Space.over_some below here))
    have excludes := (List.pairwise_cons.mp pairs).1 d other (grown.above_trans site below) atop
    exact excludes.zero_of_one one
  -- The two requests were split off along one way through the node, or the other is not for it.
  by_cases lower : S.Above d.site n
  · exact excluded (grown.above_refl n) lower
  · by_cases higher : S.Above n d.site
    · exact excluded higher (grown.above_refl d.site)
    · rw [sited.fractionAt_eq_zero grown higher lower]

variable {v : Valuation} {asked : Nat → Prop} {ε : ℚ} {m : Nat} {cs : Constraints}

theorem sumAt_le_one (grown : S.Grown) {charges : List Charge}
    (exclusive : Exclusive S value fair charges pool)
    (here : ∀ c ∈ charges, c.request.countsAt S n = true → c.fractionAt (some n) = .one → fair n)
    (sparing : v.Sparing value asked ε m) (positive : 0 < ε) (met : cs.MetBy value)
    (requests : ∀ c ∈ charges, c.request.IsAsked asked m)
    (served : ∀ c ∈ charges, c.request.Served S value)
    (few : charges.length * ε ≤ 1) :
    v.sumAt n ((charges.map Charge.request).filter (·.countsAt S n)) ≤ 1 := by
  have request {c : Charge} (member : c ∈ charges) : (c.fractionAt (some n)).IsAsked asked m := by
    rcases c.request.permission.shares.get_mem n with inside | zero
    · exact requests c member _ inside
    · change (c.request.permission.shares.get n).IsAsked asked m
      rw [zero]
      trivial
  by_cases whole : ∃ c ∈ charges, c.request.countsAt S n = true ∧ c.fractionAt (some n) = .one
  -- If one request is for everything, the others got nothing.
  · obtain ⟨c, member, counts, one⟩ := whole
    obtain ⟨atop, below⟩ := (served c member).above_of_one grown counts one
    obtain ⟨before, after, rfl⟩ := List.append_of_mem member
    have same := (exclusive.sited c member).site_eq_of_below below
    rw [List.map_append, List.map_cons, List.filter_append, List.filter_cons_of_pos counts,
      v.sumAt_of_alone fun r among => ?_]
    · exact v.le_one _
    · rw [← List.filter_append, ← List.map_append] at among
      obtain ⟨d, other, rfl⟩ := List.mem_map.mp (List.mem_filter.mp among).1
      exact sparing.asked_nothing met (request (by grind))
        (exclusive.eq_zero_of_one grown (here c member counts one) (same ▸ atop) one other)
  -- Otherwise each of them got at most `ε`, and there are few enough.
  · have little : ∀ q ∈ (charges.map Charge.request).filter (·.countsAt S n),
        v.number (q.permission.shares.get n) ≤ ε := by
      intro q member
      obtain ⟨among, counts⟩ := List.mem_filter.mp member
      obtain ⟨c, inside, rfl⟩ := List.mem_map.mp among
      exact sparing.asked_little positive (request inside) fun one =>
        whole ⟨c, inside, counts, one⟩
    have shorter := List.length_filter_le (·.countsAt S n) (charges.map Charge.request)
    rw [List.length_map] at shorter
    calc v.sumAt n ((charges.map Charge.request).filter (·.countsAt S n))
        ≤ ((charges.map Charge.request).filter (·.countsAt S n)).length * ε := v.sumAt_le little
      _ ≤ charges.length * ε := by gcongr
      _ ≤ 1 := few

end Exclusive

namespace Held.Spent

variable {inFrame frame : Bool} {next : Nat} {h : Held} {handed : List Request}

theorem served (spent : h.Spent S inFrame frame next handed) {value : Term → V}
    (met : h.constraints.MetBy value) : ∀ q ∈ handed, q.Served S value := by
  intro q member
  obtain ⟨first, last, cs, fresh, kept⟩ := spent.fresh q member
  exact ⟨first, last, cs, fresh, kept met⟩

section Whole

variable (grown : S.Grown) {n : String} (dimension : S.isDimension n = true) {z : Request}
  (counts : z.countsAt S n = true) (one : z.permission.shares.get n = .one)

include grown dimension counts one

theorem root_ne_of_disturbed (spent : h.Spent S inFrame frame next handed) (last : z ∈ handed)
    {e : Request} (among : e ∈ handed) (up : e.root = S.parentOf n) (kind : e.kind ≠ .pure) :
    z.root ≠ n := by
  obtain ⟨V, value, met⟩ := Constraints.isUnsatisfiable_eq_false_iff.mp spent.satisfiable
  obtain ⟨charges, rfl, exclusive⟩ := spent.exclusive met (S.isDimension · = false)
    fun k plain kind => absurd kind (by simp [plain])
  have served := spent.served met
  obtain ⟨c, first, rfl⟩ := List.mem_map.mp among
  obtain ⟨z, inside, rfl⟩ := List.mem_map.mp last
  exact exclusive.root_ne_of_disturbed grown first inside dimension
    (grown.parentOf_of_isDimension dimension) (served _ last) (served _ among) one up kind

omit dimension in
theorem root_ne_of_undisturbed (spent : h.Spent S inFrame frame next handed) (last : z ∈ handed)
    (undisturbed : Undisturbed S n handed) (apart : z.root ≠ n) {c : Request}
    (first : c ∈ handed) : c.root ≠ n := by
  obtain ⟨V, value, met⟩ := Constraints.isUnsatisfiable_eq_false_iff.mp spent.satisfiable
  obtain ⟨charges, rfl, exclusive⟩ := spent.exclusive met (Undisturbed S · handed)
    fun k fair _ => fair
  have served := spent.served met
  obtain ⟨atop, below⟩ := (served z last).above_of_one grown counts one
  obtain ⟨c, inside, rfl⟩ := List.mem_map.mp first
  obtain ⟨z, among, rfl⟩ := List.mem_map.mp last
  have site := (exclusive.sited z among).site_eq_of_below below
  exact exclusive.root_ne_of_one grown inside among undisturbed (served _ first) (site ▸ atop) one
    apart

theorem reclaims_of_later {more : List Request}
    (spent : h.Spent S inFrame frame next (handed ++ more)) (last : z ∈ more) (apart : z.root ≠ n)
    {c : Request} (first : c ∈ handed) (root : c.root = n) :
    Request.reclaims S n c z = true := by
  obtain ⟨V, value, met⟩ := Constraints.isUnsatisfiable_eq_false_iff.mp spent.satisfiable
  obtain ⟨charges, same, exclusive⟩ := spent.exclusive met (S.isDimension · = false)
    fun k plain kind => absurd kind (by simp [plain])
  have served := spent.served met
  have servedC := served c (List.mem_append_left _ first)
  have servedZ := served z (List.mem_append_right _ last)
  obtain ⟨atop, below⟩ := servedZ.above_of_one grown counts one
  obtain ⟨before, after, rfl, rfl, rfl⟩ := List.map_eq_append_iff.mp same
  obtain ⟨c, earlier, rfl⟩ := List.mem_map.mp first
  obtain ⟨z, later, rfl⟩ := List.mem_map.mp last
  have inside : z ∈ before ++ after := List.mem_append_right _ later
  have site := (exclusive.sited z inside).site_eq_of_below below
  have up := exclusive.root_eq_parentOf grown earlier later dimension root site atop apart
  -- `z` got all there is below, so `c` got nothing there.
  have zero := exclusive.below_eq_zero grown (List.mem_append_left _ earlier) inside
    (site ▸ atop) below root apart
  rcases servedC.kind_of_below_zero zero with kind | kind <;>
    rcases servedZ.kind_of_below_one below with owns | owns <;>
      simp [Request.reclaims, root, up, kind, owns]

end Whole

end Held.Spent

namespace Holding

/-- A dimension of which all is handed out is left as it is, unless something of it is reclaimed. -/
theorem Dealt.undisturbed (grown : S.Grown) {inFrame frame : Bool} {states : List String}
    {next : Nat} {x : Holding} {handed : List Request}
    (dealt : Dealt S (whole S inFrame frame states) next x handed) {n : String}
    (dimension : S.isDimension n = true)
    (left : handed.Pairwise fun earlier later => Request.reclaims S n earlier later = false)
    {z : Request} (member : z ∈ handed) (counts : z.countsAt S n = true)
    (one : z.permission.shares.get n = .one) : Undisturbed S n handed := by
  induction dealt with
  | start next => exact .nil
  | @split next first last x handed r supply dealt asked fresh later past satisfiable ih =>
      obtain ⟨h, rfl, spent⟩ := dealt.spent grown
      obtain ⟨h', -, further⟩ := spent.split grown asked fresh later past satisfiable
      obtain ⟨leftBefore, -, leftNow⟩ := List.pairwise_append.mp left
      have now : Undisturbed S n r.all := by
        refine (spent.toAlone.parted grown (asked.fresh grown) satisfiable).imp ?_
        intro p q parted root up
        rw [root, up] at parted
        exact absurd (grown.above_parentOf n) (grown.not_above_of_parted parted.symm)
      rcases List.mem_append.mp member with before | among
      · -- The node was left alone so far, and with all handed out no request for it can be there.
        have undisturbed := ih leftBefore before
        refine List.pairwise_append.mpr ⟨undisturbed, now, fun c old e new root up => ?_⟩
        by_contra kind
        have apart := further.root_ne_of_disturbed grown dimension counts one member
          (List.mem_append_right _ new) up kind
        exact spent.root_ne_of_undisturbed grown counts one before undisturbed apart old
          root
      · -- All is handed out only now, after what would have to leave it.
        have steady {c : Request} (old : c ∈ handed) {e : Request} (any : e ∈ handed ++ r.all)
            (root : c.root = n) (up : e.root = S.parentOf n) : e.kind = .pure := by
          by_contra kind
          have apart := further.root_ne_of_disturbed grown dimension counts one member any up kind
          have reclaims := further.reclaims_of_later grown dimension counts one among apart old root
          rw [leftNow c old z among] at reclaims
          cases reclaims
        refine List.pairwise_append.mpr ⟨List.pairwise_of_forall_mem_list fun c old e later => ?_, now,
          fun c old e new => ?_⟩
        · exact steady old (List.mem_append_left _ later)
        · exact steady old (List.mem_append_right _ new)

/-- However one permission for all of an object is dealt out, some solution of the demands lets the
requests that count at a node add up to at most one. -/
theorem Dealt.exists_sumAt_le_one (built : S.Built) {inFrame frame : Bool} {states : List String}
    {next : Nat} {x : Holding} {handed : List Request}
    (dealt : Dealt S (whole S inFrame frame states) next x handed) :
    ∃ v : Valuation, v.Solves x.constraints ∧ ∀ n,
      (S.isDimension n = true →
        handed.Pairwise fun earlier later => Request.reclaims S n earlier later = false) →
      v.sumAt n (handed.filter (·.countsAt S n)) ≤ 1 := by
  have grown := built.grown
  obtain ⟨h, rfl, spent⟩ := dealt.spent grown
  obtain ⟨asked, -, steps, -, requests⟩ := spent.steps
  obtain ⟨V, value, met⟩ := Constraints.isUnsatisfiable_eq_false_iff.mp spent.satisfiable
  obtain ⟨charges, rfl, exclusive⟩ := spent.exclusive met
    (fun n => S.isDimension n = true → Undisturbed S n handed) fun n fair dimension => fair dimension
  -- Shares of this size are small enough for all demands and for all requests together.
  let parts : ℚ := next + charges.length + 1
  have positive : 0 < 1 / parts := by positivity
  obtain ⟨v, sparing, solves⟩ := steps.exists_solves positive
    (by rw [mul_one_div, div_le_one (by positivity)]; simp [parts]) met
  refine ⟨v, solves, fun n left => exclusive.sumAt_le_one grown
    (fun c member counts one dimension => dealt.undisturbed grown dimension (left dimension)
      (List.mem_map_of_mem member) counts one) sparing positive met
    (fun c member => requests _ (List.mem_map_of_mem member))
    (fun c member => spent.served met _ (List.mem_map_of_mem member)) ?_⟩
  rw [mul_one_div, div_le_one (by positivity)]
  simp only [parts]
  linarith [(Nat.cast_nonneg next : (0 : ℚ) ≤ next)]

/-- Requests by their specifications, split off one after the other as long as this succeeds. -/
def deal (S : Space) : List Spec → Nat × Holding × List Request →
    Option (Nat × Holding × List Request)
  | [], state => some state
  | spec :: rest, (next, x, handed) =>
      let asked := (RequestSet.ofSpec S spec false).run ⟨next⟩
      let split := (x.split asked.1).run asked.2
      if split.1.isUnsatisfiable = false ∧ ∀ f ∈ x.fractions, f.IsBelow next then
        deal S rest (split.2.next, split.1, handed ++ asked.1.all)
      else none

theorem Dealt.deal (grown : S.Grown) {start : Holding} {specs : List Spec}
    {state final : Nat × Holding × List Request} (dealt : Dealt S start state.1 state.2.1 state.2.2)
    (done : deal S specs state = some final) : Dealt S start final.1 final.2.1 final.2.2 := by
  induction specs generalizing state with
  | nil =>
      rw [← Option.some.inj done]
      exact dealt
  | cons spec rest ih =>
      simp only [Holding.deal] at done
      split at done
      · next fine =>
          have asked := RequestSet.Asked.ofSpec (S := S) spec false state.1
          exact ih (.split dealt asked (fun id member => .inl (fine.2 _ member))
            (asked.fresh grown).order (Nat.le_refl _) fine.1) done
      · cases done

namespace Crossing

/-- What becomes of all of an object once permissions were handed out. -/
def dealing (specs : List Spec) : Option (Nat × Holding × List Request) :=
  deal space specs (0, whole space false false [], [])

theorem dealing_dealt {specs : List Spec} {final : Nat × Holding × List Request}
    (done : dealing specs = some final) :
    Dealt space (whole space false false []) final.1 final.2.1 final.2.2 :=
  Dealt.deal built.grown (.start 0) done

theorem shared_among_four :
    ∃ next x handed, Dealt space (whole space false false []) next x handed ∧
      handed.map Request.kind = [.unique, .pure, .full, .pure] ∧
      (∀ n, space.isDimension n = true →
        handed.Pairwise fun earlier later => Request.reclaims space n earlier later = false) ∧
      ∃ v : Valuation, v.Solves x.constraints ∧
        ∀ n, v.sumAt n (handed.filter (·.countsAt space n)) ≤ 1 := by
  have checked : (dealing [⟨.unique, "a", [], false⟩, ⟨.pure, alive, [], false⟩,
      ⟨.full, "b", [], false⟩, ⟨.pure, "b", [], false⟩]).map (fun final =>
        (final.2.2.map Request.kind, space.added.all fun e => decide (final.2.2.Pairwise
          fun earlier later => Request.reclaims space e.name earlier later = false))) =
      some ([.unique, .pure, .full, .pure], true) := by decide +kernel
  obtain ⟨⟨next, x, handed⟩, done, facts⟩ := Option.map_eq_some_iff.mp checked
  obtain ⟨kinds, left⟩ := Prod.mk.inj facts
  have dealt := dealing_dealt done
  have kept (n : String) (dimension : space.isDimension n = true) :
      handed.Pairwise fun earlier later => Request.reclaims space n earlier later = false := by
    obtain ⟨e, member, rfl, -⟩ := Space.mem_of_isDimension dimension
    exact of_decide_eq_true (List.all_eq_true.mp left e member)
  obtain ⟨v, solves, small⟩ := Dealt.exists_sumAt_le_one built dealt
  exact ⟨next, x, handed, dealt, kinds, kept, v, solves, fun n => small n (kept n)⟩

/-- Permissions that were handed out can add up to more than there is. -/
theorem dealt_beyond_one :
    -- Unique permissions for both dimensions have copies of what was held for the node above.
    (∃ next x handed, Dealt space (whole space false false []) next x handed ∧
      ∀ v : Valuation, v.Solves x.constraints → 1 < v.sumAt alive handed) ∧
    -- All below a node can be had although someone looks on one of its dimensions.
    ∃ next x handed, Dealt space (whole space false false []) next x handed ∧
      ∀ v : Valuation, v.Solves x.constraints →
        1 < v.sumAt "a" (handed.filter (·.countsAt space "a")) := by
  constructor
  · have checked : (dealing [⟨.unique, "a", [], false⟩, ⟨.unique, "b", [], false⟩]).map
        (fun final => final.2.2.map fun q => q.permission.shares.get alive) =
        some [.one, .one] := by decide +kernel
    obtain ⟨⟨next, x, handed⟩, done, shares⟩ := Option.map_eq_some_iff.mp checked
    refine ⟨next, x, handed, dealing_dealt done, fun v _ => ?_⟩
    rw [v.sumAt_of_map shares]
    simp [v.one]
  · have checked : (dealing [⟨.pure, "a", [], false⟩, ⟨.full, alive, [], false⟩]).map
        (fun final => ((final.2.2.filter (·.countsAt space "a")).map fun q =>
          q.permission.shares.get "a", final.2.1.constraints.items.head?)) =
        some ([.unknown 0, .one], some (.nonZero (.single (.unknown 0)))) := by decide +kernel
    obtain ⟨⟨next, x, handed⟩, done, facts⟩ := Option.map_eq_some_iff.mp checked
    obtain ⟨shares, first⟩ := Prod.mk.inj facts
    refine ⟨next, x, handed, dealing_dealt done, fun v solves => ?_⟩
    have positive : 0 < v.number (.unknown 0) := solves _ (List.mem_of_head? first)
    rw [v.sumAt_of_map shares]
    simpa [v.one] using positive

end Crossing

end Holding

end Typestate

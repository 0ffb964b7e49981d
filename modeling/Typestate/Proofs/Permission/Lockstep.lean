import Typestate.Proofs.Permission.Backing

set_option autoImplicit false

/-!
The same split off two pools, where the permissions of the first are backed by those of the second.
The second gives what the first one gives unless a kind of its own stands in the way or it looks on
from somewhere else, and what is left is backed again.
-/

namespace Typestate

open Permission

variable {V W : Type} {S : Space} {frame : Bool}

namespace Pool

/-- The kind of what is there for a node: of the permission that covers it, or of what its parts are
put together to. -/
def kindFor (S : Space) (s : Solution) (root : String) (pool : Pool) : Kind :=
  match pool.find? fun p => S.covers p.root root with
  | some p => (p.reroot root).kind s
  | none => combinedKind s root (pool.parts S root)

/-- What can stand in the way of a request that another pool grants: the kind of what is there, or,
to look on, that the first permission below the root is for another node. -/
inductive Hinders (S : Space) (s : Solution) (joined pool : Pool) (kind : Kind) (root : String) :
    Prop
  | kind (writes : kind ≠ .share) (looks : kind ≠ .pure)
      (weak : (pool.kindFor S s root).split kind = .impossible)
  | lower (looks : kind = .pure)
      (elsewhere : (pool.under S root).head?.map Permission.root ≠
        (joined.under S root).head?.map Permission.root)

def IsBacked (S : Space) (fits : Fraction → Fraction → Prop) (n : Nat) (joined pool : Pool) :
    Prop :=
  ∀ j ∈ joined, ∃ p ∈ pool, j.IsBacked S fits n p

def Backs (S : Space) (value : Term → V) (joined pool : Pool) (n : Nat)
    (other : Term → Option W) : Prop :=
  ∀ j ∈ joined, ∃ p ∈ pool, j.Backs S value p n other

theorem Backs.lasting (value : Term → V) (joined pool : Pool) :
    Lasting (Backs S value joined pool (W := W)) := by
  intro n m other next more agree backs j member
  obtain ⟨p, among, known⟩ := backs j member
  exact ⟨p, among, Permission.Backs.lasting S value j p more agree known⟩

theorem Backs.isBacked {value : Term → V} {joined pool : Pool} {n : Nat} {other : Term → Option W}
    (backs : Backs S value joined pool n other) :
    Pool.IsBacked S (Dominated value other) n joined pool := by
  intro j member
  obtain ⟨p, among, known⟩ := backs j member
  exact ⟨p, among, known.toIsBacked⟩

theorem IsBacked.append {fits : Fraction → Fraction → Prop} {n : Nat} {joined pool : Pool}
    (backed : Pool.IsBacked S fits n joined pool) {joinedLeft left : Option Permission}
    (last : ∀ j ∈ joinedLeft, ∃ p ∈ left, j.IsBacked S fits n p) :
    Pool.IsBacked S fits n (joined ++ joinedLeft.toList) (pool ++ left.toList) := by
  intro j member
  rcases List.mem_append.mp member with old | new
  · obtain ⟨p, among, known⟩ := backed j old
    exact ⟨p, List.mem_append_left _ among, known⟩
  · obtain ⟨p, among, known⟩ := last j (Option.mem_toList.mp new)
    exact ⟨p, List.mem_append_right _ (Option.mem_toList.mpr among), known⟩

section Taking

variable (grown : S.Grown) {pool : Pool} (orderly : pool.Orderly S frame) {root : String}

include grown orderly

theorem Orderly.mem_others_iff {test : Permission → Bool} {p o : Permission} {others : Pool}
    (found : pool.extract? test = some (p, others)) : o ∈ others ↔ o ∈ pool ∧ o ≠ p := by
  obtain ⟨perm, -⟩ := extract?_perm found
  have apart := (tidy_cons.mp (orderly.toTidy.perm perm)).2.2.1
  rw [perm.mem_iff, List.mem_cons]
  constructor
  · intro member
    refine ⟨.inr member, ?_⟩
    rintro rfl
    exact grown.not_parted_self _ (apart o member)
  · rintro ⟨same | member, different⟩
    · exact absurd same different
    · exact member

theorem Orderly.take?_of_above {p : Permission} (member : p ∈ pool) (atop : S.Above p.root root)
    (tolerates : Bool) : ∃ others, pool.take? root tolerates = some (p.lowered root, others) ∧
      ∀ o, o ∈ others ↔ o ∈ pool ∧ o ≠ p ∨ p.root ≠ root ∧ ∃ d ∈ p.beside root, o = p.reroot d := by
  -- Only one permission of the pool is above the node, so whatever is extracted is `p`.
  have covering {test : Permission → Bool} {p' : Permission} {others : Pool}
      (found : pool.extract? test = some (p', others)) (over' : S.Above p'.root root) : p' = p :=
    orderly.eq_of_above grown ((extract?_perm found).1.mem_iff.mpr List.mem_cons_self) member over'
      atop
  unfold Pool.take?
  cases atRoot : pool.extract? fun p => p.root == root with
  | some found =>
    obtain ⟨p', others⟩ := found
    have same : p'.root = root := by simpa using (extract?_perm atRoot).2
    obtain rfl := covering atRoot (same ▸ grown.above_refl p'.root)
    refine ⟨others, ?_, fun o => ?_⟩
    · rw [Permission.lowered, if_pos same]
    · rw [orderly.mem_others_iff grown atRoot]
      simp [same]
  | none =>
    have apart : p.root ≠ root := by simpa using extract?_eq_none atRoot p member
    cases above : pool.extract? fun p => p.covers root with
    | none =>
      have uncovered := extract?_eq_none above p member
      rw [← Bool.not_eq_true, Permission.covers_iff (orderly.space p member)] at uncovered
      exact absurd atop uncovered
    | some found =>
      obtain ⟨p', others⟩ := found
      obtain ⟨perm, covers⟩ := extract?_perm above
      have inside : p' ∈ pool := perm.mem_iff.mpr List.mem_cons_self
      obtain rfl := covering above ((Permission.covers_iff (orderly.space p' inside)).mp covers)
      refine ⟨others ++ (p'.moveDown root).2, ?_, fun o => ?_⟩
      · rw [Permission.lowered, if_neg apart]
        rfl
      · rw [List.mem_append, orderly.mem_others_iff grown above]
        simp [Permission.moveDown, apart, eq_comm]

theorem Orderly.find?_of_above {p : Permission} (member : p ∈ pool) (atop : S.Above p.root root) :
    pool.find? (fun p => S.covers p.root root) = some p := by
  cases found : pool.find? fun p => S.covers p.root root with
  | none => exact absurd ((S.covers_iff _ _).mpr atop) (List.find?_eq_none.mp found p member)
  | some other =>
    have covers : S.Above other.root root := by
      simpa [S.covers_iff] using List.find?_some found
    rw [orderly.eq_of_above grown (List.mem_of_find?_eq_some found) member covers atop]

omit grown in
theorem Orderly.mem_others_of_lower (none : ∀ p ∈ pool, ¬S.Above p.root root) (grown : S.Grown)
    {p : Permission} {others : Pool} {tolerates : Bool}
    (taken : pool.take? root tolerates = some (p, others)) (o : Permission) :
    o ∈ others ↔ o ∈ pool ∧ o ≠ p := by
  cases taking_of_take? taken with
  | here found => exact orderly.mem_others_iff grown found
  | above _ inside covers =>
    exact absurd ((Permission.covers_iff (orderly.space _ inside)).mp covers) (none _ inside)
  | below _ found => exact orderly.mem_others_iff grown found

theorem Orderly.take?_of_uncovered {q : Request} (none : ∀ p ∈ pool, ¬S.Above p.root q.root)
    (looks : q.kind ≠ .pure) : pool.take? q.root q.toleratesSmallerRoot = Option.none := by
  rcases orderly.take?_cases grown q with ⟨p, member, atop, -⟩ | ⟨-, ⟨pure, -⟩ | ⟨nothing, -⟩⟩
  · exact absurd atop (none p member)
  · exact absurd pure looks
  · exact nothing

theorem Orderly.not_above_of_isBacked {joined : Pool} {fits : Fraction → Fraction → Prop} {n : Nat}
    (backed : Pool.IsBacked S fits n joined pool) {j : Permission} (under : j ∈ joined.under S root) :
    ∀ p ∈ pool, ¬S.Above p.root root := by
  obtain ⟨member, lower, strict⟩ := mem_under_iff.mp under
  obtain ⟨p, among, known⟩ := backed j member
  rw [known.root] at lower strict
  exact fun other inside => orderly.not_above_of_under grown
    (mem_under_iff.mpr ⟨among, lower, strict⟩) inside

end Taking

section Parts

theorem combineUp_states (root : String) (parts : Pool) :
    Yields (combineUp root parts) fun whole => ∀ w, whole = some w →
      ∀ s ∈ w.states, ∃ p ∈ parts, s ∈ p.states := by
  cases parts with
  | nil => exact .pure nofun
  | cons first rest =>
    refine .ite (fun _ => .pure nofun) fun _ => .after fun shares => .pure ?_
    rintro w ⟨⟩ s member
    exact List.mem_flatMap.mp (Space.mem_cleanStates.mp member).1

variable (grown : S.Grown) {pool : Pool} (orderly : pool.Orderly S frame) {root : String}

include grown orderly in
theorem Orderly.combineUp_common (s : Solution) (holds : pool.HoldsDimensions S root) :
    Admits (fun n (value : Term → V) => s.Silent n ∧
        value (.single .zero) ≠ value (.single .one) ∧
        ∀ p ∈ pool.parts S root, p.shares.IsDrawn n)
      (combineUp root (pool.parts S root)) fun whole n value => ∃ w, whole = some w ∧
        IsCommon s S root (pool.parts S root) w n value := by
  obtain ⟨first, rest, shape, rfl, count, all⟩ := orderly.exists_parts_eq grown holds
  rw [shape]
  exact combineUp_meets s root holds.1 count all

variable {joined : Pool}

include grown orderly in
theorem Orderly.exists_part (holds : joined.HoldsDimensions S root)
    {related : Permission → Permission → Prop} (roots : ∀ j p, related j p → j.root = p.root)
    (matched : ∀ j ∈ joined, ∃ p ∈ pool, related j p) {p : Permission}
    (part : p ∈ pool.parts S root) : ∃ j ∈ joined.parts S root, related j p := by
  obtain ⟨member, dimension⟩ := mem_parts_iff.mp part
  obtain ⟨j, inside, same⟩ := holds.2 p.root dimension
  obtain ⟨p', among, known⟩ := matched j inside
  have equal := orderly.eq_of_root grown member among ((roots j p' known).symm.trans same)
  exact ⟨j, mem_parts_iff.mpr ⟨inside, same ▸ dimension⟩, equal ▸ known⟩

variable {fits : Fraction → Fraction → Prop} {n : Nat} (backed : Pool.IsBacked S fits n joined pool)

include backed

theorem IsBacked.holdsDimensions (holds : joined.HoldsDimensions S root) :
    pool.HoldsDimensions S root := by
  refine ⟨holds.1, fun d dimension => ?_⟩
  obtain ⟨j, member, rfl⟩ := holds.2 d dimension
  obtain ⟨p, among, known⟩ := backed j member
  exact ⟨p, among, known.root.symm⟩

theorem IsBacked.parts : Pool.IsBacked S fits n (joined.parts S root) (pool.parts S root) := by
  intro j part
  obtain ⟨member, dimension⟩ := mem_parts_iff.mp part
  obtain ⟨p, among, known⟩ := backed j member
  exact ⟨p, mem_parts_iff.mpr ⟨among, known.root ▸ dimension⟩, known⟩

end Parts

section Common

variable (grown : S.Grown) {joined pool : Pool} (orderly : pool.Orderly S frame)
  (neat : ∀ p ∈ pool, p.Neat S) {root : String} {value : Term → V} {other : Term → W} {n : Nat}
  (backed : Pool.IsBacked S (Dominated value other) n joined pool)
  (holds : joined.HoldsDimensions S root) {j w : Permission} {s : Solution}
  (whole : IsWhole value root (joined.parts S root) j)
  (common : IsCommon s S root (pool.parts S root) w n other) (space : j.space = S)
  (listed : ∀ m ∈ j.states, ∃ part ∈ joined.parts S root, m ∈ part.states)

include grown orderly backed holds

include common whole space in
theorem IsBacked.isWeaker_common : j.IsWeaker S (Dominated value other) w := by
  have source {p : Permission} (part : p ∈ pool.parts S root) :=
    orderly.exists_part grown holds (fun _ _ known => known.root) backed part
  refine ⟨whole.root.trans common.root.symm, fun writable => ?_, fun m node => ?_, ?_⟩
  · rw [whole.readOnly, List.any_eq_false] at writable
    rw [common.readOnly, List.any_eq_false]
    intro p part
    obtain ⟨j', partJ, known⟩ := source part
    simpa using known.writable (by simpa using writable j' partJ)
  · have nodeJ : S.Above m j.root := by
      rw [whole.root, ← common.root]
      exact node
    have entry := w.mem_values grown common.space common.laid node
    have entryJ := j.mem_values grown space whole.laid nodeJ
    refine .of_isMeet ((joined.parts S root).map (·.shares.get m)) (fun f among => ?_)
      (common.nodes _ entry) fun g among => ?_
    · obtain ⟨part, member, rfl⟩ := List.mem_map.mp among
      exact whole.values _ entryJ part member
    · obtain ⟨p, part, rfl⟩ := List.mem_map.mp among
      obtain ⟨j', partJ, known⟩ := source part
      refine ⟨_, List.mem_map_of_mem partJ, known.above m ?_⟩
      rw [common.root] at node
      exact grown.above_trans node
        (grown.lower_of_mem_dimensions (mem_parts_iff.mp part).2).1
  · refine .of_isMeet ((joined.parts S root).map (·.shares.below)) (fun f among => ?_)
      common.lowest fun g among => ?_
    · obtain ⟨part, member, rfl⟩ := List.mem_map.mp among
      exact whole.below part member
    · obtain ⟨p, part, rfl⟩ := List.mem_map.mp among
      obtain ⟨j', partJ, known⟩ := source part
      exact ⟨_, List.mem_map_of_mem partJ, known.below⟩

include neat common whole space listed in
theorem IsBacked.isBacked_common (joinedSpace : ∀ j ∈ joined, j.space = S) :
    j.IsBacked S (Dominated value other) n w := by
  refine ⟨backed.isWeaker_common grown orderly holds whole common space, fun m implied => ?_,
    common.drawn⟩
  have known := (j.impliesState_iff m).mp implied
  refine (w.impliesState_iff m).mpr ?_
  rw [space, whole.root] at known
  rw [common.space, common.root, common.known]
  rcases known with atRoot | ⟨state, member, lower⟩
  · exact .inl atRoot
  · obtain ⟨part, partJ, own⟩ := listed state member
    have spaceJ := joinedSpace part (mem_parts_iff.mp partJ).1
    obtain ⟨p, partP, backing⟩ := backed.parts part partJ
    obtain ⟨inside, dimension⟩ := mem_parts_iff.mp partP
    have reached := backing.states m
      ((part.impliesState_iff m).mpr (.inr ⟨state, own, spaceJ ▸ lower⟩))
    rw [impliesState_iff, orderly.space p inside] at reached
    rcases reached with higher | ⟨t, stated, further⟩
    · -- A dimension implies what the state it refines implies.
      obtain ⟨dim, parent⟩ := grown.mem_dimensions_iff.mp dimension
      have refined : S.stateOf p.root = root := by
        rw [Space.stateOf_of_isDimension dim, parent]
      have plain : S.stateOf root = root := by
        rw [← refined, Space.stateOf_of_plain (grown.isDimension_stateOf _)]
      rw [grown.implies_iff, refined] at higher
      rw [grown.implies_iff, plain]
      exact .inl higher
    · refine cleaned_of_part grown (fun q part => (mem_parts_iff.mp part).2)
        (fun q part => neat q (mem_parts_iff.mp part).1) (fun q left r right same => ?_) partP stated
        further
      exact (orderly.eq_of_root grown (mem_parts_iff.mp left).1 (mem_parts_iff.mp right).1
        same.symm).symm

end Common

section Steps

variable (grown : S.Grown) {joined pool : Pool} (joinedOrderly : joined.Orderly S frame)
  (orderly : pool.Orderly S frame) (neat : ∀ p ∈ pool, p.Neat S) {q r : Request}
  {granting own : Solution} {value : Term → V}
  (distinct : value (.single .zero) ≠ value (.single .one))

include grown distinct

theorem splitFound_backs_all {j p : Permission} {joinedOthers others : Pool} {rest : Shares}
    (spaceJ : j.space = S) (spaceP : p.space = S) (laidJ : j.shares.Laid) (laidP : p.shares.Laid)
    (divided : Shares.Combined j.shares q.permission.shares (Divided value) rest)
    (allowed : (p.kind own).split r.kind ≠ .impossible) :
    Admits (fun n (other : Term → Option W) =>
        (j.Backs S value p n other ∧ q.Allots value r n other) ∧
          Backs S value joinedOthers others n other)
      (splitFound own r p others) fun next n other =>
        Pool.IsBacked S (Dominated value other) n
          (joinedOthers ++ (((j.kind granting).split q.kind).leave j rest).toList) next := by
  refine ((splitFound_backs grown spaceJ spaceP laidJ laidP distinct divided granting allowed).frame
    (Backs.lasting value joinedOthers others)).mono (fun _ _ => id) ?_
  rintro next n other ⟨⟨left, rfl, leaves⟩, backs⟩
  exact backs.isBacked.append leaves

include orderly

omit distinct in
theorem Orderly.lowered_split_allowed {j p : Permission} {n : Nat} {other : Term → Option W}
    (known : j.Backs S value p n other) (among : p ∈ pool) (atop : S.Above p.root q.root)
    (allowed : ((j.lowered q.root).kind granting).split q.kind ≠ .impossible)
    (free : ¬Hinders S own joined pool q.kind q.root) :
    ((p.lowered q.root).kind own).split q.kind ≠ .impossible := by
  by_cases writes : q.kind = .share
  · rw [writes, Kind.split_share_iff, isReadOnly_kind, lowered_readOnly] at allowed ⊢
    exact known.writable allowed
  · by_cases looks : q.kind = .pure
    · rw [looks]
      exact Kind.split_pure _
    · intro weak
      refine free (.kind writes looks ?_)
      rw [kindFor, orderly.find?_of_above grown among atop]
      rwa [lowered_kind grown (orderly.space p among) (orderly.laid p among)] at weak

include joinedOrderly neat

omit distinct in
theorem Orderly.backs_beside {j p : Permission} {n : Nat} {other : Term → Option W} {root : String}
    (spare : Spare other) (backs : Backs S value joined pool n other) (member : j ∈ joined)
    (atop : S.Above j.root root) (among : p ∈ pool) (known : j.Backs S value p n other)
    {joinedOthers others : Pool}
    (joinedStays : ∀ o, o ∈ joinedOthers ↔
      o ∈ joined ∧ o ≠ j ∨ j.root ≠ root ∧ ∃ d ∈ j.beside root, o = j.reroot d)
    (stays : ∀ o, o ∈ others ↔
      o ∈ pool ∧ o ≠ p ∨ p.root ≠ root ∧ ∃ d ∈ p.beside root, o = p.reroot d) :
    Backs S value joinedOthers others n other := by
  have spaceJ := joinedOrderly.space j member
  have spaceP := orderly.space p among
  intro o stayed
  rcases (joinedStays o).mp stayed with ⟨inside, different⟩ | ⟨apart, d, beside, rfl⟩
  · -- Another permission of the pool is for another root, and so is what backs it.
    obtain ⟨p', inside', known'⟩ := backs o inside
    refine ⟨p', (stays p').mpr (.inl ⟨inside', ?_⟩), known'⟩
    rintro rfl
    exact different (joinedOrderly.eq_of_root grown member inside
      (known'.root.trans known.root.symm))
  · have shared : p.beside root = j.beside root := by
      rw [Permission.beside, Permission.beside, spaceJ, spaceP, known.root]
    obtain ⟨way, ways, shape⟩ := Permission.beside_eq grown spaceJ atop apart
    have lower : S.Above j.root d :=
      ((grown.siblings_parted shape).2 d (ways ▸ beside)).2
    refine ⟨p.reroot d, (stays _).mpr (.inr ⟨known.root ▸ apart, d, shared ▸ beside, rfl⟩), ?_⟩
    exact known.reroot grown spare spaceJ spaceP (joinedOrderly.laid j member)
      (orderly.laid p among) (neat p among) (known.root ▸ lower)

/-- A request that is split off what covers its root in both pools. -/
theorem Orderly.splitOne_backs_held {j : Permission} (member : j ∈ joined)
    (atop : S.Above j.root q.root) :
    Reveals value (joined.splitOne granting q) fun joinedNext =>
      ¬Hinders S own joined pool q.kind q.root →
      Admits (fun n (other : Term → Option W) =>
          Backs S value joined pool n other ∧ q.Allots value r n other)
        (pool.splitOne own r) fun next n other =>
          Pool.IsBacked S (Dominated value other) n joinedNext next := by
  obtain ⟨joinedOthers, joinedTaken, joinedStays⟩ :=
    joinedOrderly.take?_of_above grown member atop q.toleratesSmallerRoot
  rw [splitOne_of_take? joinedTaken]
  refine (splitFound_divides distinct granting q _ joinedOthers).mono ?_
  rintro _ ⟨allowed, rest, divided, rfl⟩ free l other met ⟨backs, allots⟩
  obtain ⟨p, among, known⟩ := backs j member
  have atopP : S.Above p.root q.root := known.root ▸ atop
  have spaceJ := joinedOrderly.space j member
  have spaceP := orderly.space p among
  have laidJ := joinedOrderly.laid j member
  have laidP := orderly.laid p among
  -- The partner has the same root, so it is taken from in the same way.
  obtain ⟨others, taken, stays⟩ :=
    orderly.take?_of_above grown among atopP q.toleratesSmallerRoot
  have same : r.toleratesSmallerRoot = q.toleratesSmallerRoot := by
    simp only [Request.toleratesSmallerRoot, allots.kind]
  have fair := orderly.lowered_split_allowed grown known among atopP allowed free
  rw [← same, ← allots.root] at taken
  rw [← allots.kind] at fair
  rw [splitOne_of_take? taken]
  rw [allots.root] at *
  refine splitFound_backs_all grown distinct ((j.lowered_space q.root).trans spaceJ)
    ((p.lowered_space q.root).trans spaceP) (lowered_laid laidJ q.root) (lowered_laid laidP q.root)
    divided fair l other met ⟨⟨?_, allots⟩, ?_⟩
  · exact known.lowered grown spaceP allots.spare spaceJ laidJ laidP (neat p among) atopP
  · exact joinedOrderly.backs_beside grown orderly neat allots.spare backs member atop among known
      joinedStays stays

omit joinedOrderly neat distinct in
theorem Orderly.take?_under_of_backs {j : Permission} {n : Nat} {other : Term → Option W}
    (backs : Backs S value joined pool n other) (allots : q.Allots value r n other)
    (looks : q.kind = .pure) (under : j ∈ joined.under S q.root) :
    ∃ p others, pool.take? r.root r.toleratesSmallerRoot = some (p, others) ∧
      (pool.under S q.root).head? = some p := by
  have uncovered := orderly.not_above_of_isBacked grown backs.isBacked under
  rcases orderly.take?_cases grown r with ⟨p, inside, atop, -⟩ | ⟨-, ⟨-, found⟩ | ⟨-, empty⟩⟩
  · exact absurd (allots.root ▸ atop) (uncovered p inside)
  · rw [← allots.root]
    exact found
  · obtain ⟨member, lower⟩ := mem_under_iff.mp under
    obtain ⟨p, among, known⟩ := backs j member
    have inside : p ∈ pool.under S r.root := by
      rw [allots.root, mem_under_iff, ← known.root]
      exact ⟨among, lower⟩
    rw [empty (allots.kind.trans looks)] at inside
    cases inside

omit neat in
/-- A request to look on that is split off the first permission below its root in both pools. -/
theorem Orderly.splitOne_backs_lower (none : ∀ j ∈ joined, ¬S.Above j.root q.root)
    (looks : q.kind = .pure) :
    Reveals value (joined.splitOne granting q) fun joinedNext =>
      ¬Hinders S own joined pool q.kind q.root →
      Admits (fun n (other : Term → Option W) =>
          Backs S value joined pool n other ∧ q.Allots value r n other)
        (pool.splitOne own r) fun next n other =>
          Pool.IsBacked S (Dominated value other) n joinedNext next := by
  rcases joinedOrderly.take?_cases grown q with ⟨j, member, atop, -⟩ | ⟨-, lower | nothing⟩
  · exact absurd atop (none j member)
  · obtain ⟨-, j, joinedOthers, joinedTaken, joinedFirst⟩ := lower
    have under := List.mem_of_head? joinedFirst
    have member := (mem_under_iff.mp under).1
    rw [splitOne_of_take? joinedTaken]
    refine (splitFound_divides distinct granting q j joinedOthers).mono ?_
    rintro _ ⟨allowed, rest, divided, rfl⟩ free l other met ⟨backs, allots⟩
    have uncovered := orderly.not_above_of_isBacked grown backs.isBacked under
    obtain ⟨p, among, known⟩ := backs j member
    obtain ⟨p', others, taken, first⟩ :=
      orderly.take?_under_of_backs grown backs allots looks under
    -- Unless it is hindered, the pool looks on from a permission for the same node.
    have root : p'.root = j.root := by
      by_contra different
      refine free (.lower looks ?_)
      rw [first, joinedFirst]
      simpa using different
    have inside := (mem_under_iff.mp (List.mem_of_head? first)).1
    have equal : p' = p := orderly.eq_of_root grown among inside (root.trans known.root)
    subst equal
    rw [splitOne_of_take? taken]
    refine splitFound_backs_all grown distinct (joinedOrderly.space j member)
      (orderly.space p' inside) (joinedOrderly.laid j member) (orderly.laid p' inside) divided ?_
      l other met ⟨⟨known, allots⟩, fun o stayed => ?_⟩
    · rw [allots.kind, looks]
      exact Kind.split_pure _
    · have uncoveredR : ∀ p ∈ pool, ¬S.Above p.root r.root := allots.root ▸ uncovered
      obtain ⟨old, different⟩ :=
        (joinedOrderly.mem_others_of_lower none grown joinedTaken o).mp stayed
      obtain ⟨p, own, backing⟩ := backs o old
      refine ⟨p, (orderly.mem_others_of_lower uncoveredR grown taken p).mpr ⟨own, ?_⟩, backing⟩
      rintro rfl
      exact different (joinedOrderly.eq_of_root grown member old
        (backing.root.trans known.root.symm))
  · rw [splitOne_of_take?_none nothing.1, joinedOrderly.splitCombined_of_not_holds]
    · exact turnDown_reveals q joined _
    · intro holds
      obtain ⟨p, under⟩ := holds.exists_under grown
      rw [nothing.2 looks] at under
      cases under

omit grown joinedOrderly orderly neat distinct in
theorem combined_split_allowed (grown : S.Grown) {j w : Permission} (looks : q.kind ≠ .pure)
    (uncovered : ∀ p ∈ pool, ¬S.Above p.root q.root)
    (writable : j.readOnly = false → w.readOnly = false)
    (combined : IsCombined own S q.root (pool.parts S q.root) w)
    (allowed : (j.kind granting).split q.kind ≠ .impossible)
    (free : ¬Hinders S own joined pool q.kind q.root) :
    (w.kind own).split q.kind ≠ .impossible := by
  by_cases writes : q.kind = .share
  · rw [writes, Kind.split_share_iff, isReadOnly_kind] at allowed ⊢
    exact writable allowed
  · intro weak
    refine free (.kind writes looks ?_)
    rw [kindFor, List.find?_eq_none.mpr fun p member => ?_]
    · rwa [combined.kind grown] at weak
    · rw [S.covers_iff]
      exact uncovered p member

theorem Orderly.splitCombined_backs {j : Permission} {rest : Shares} (looks : q.kind ≠ .pure)
    (holds : joined.HoldsDimensions S q.root) (space : j.space = S)
    (listed : ∀ m ∈ j.states, ∃ part ∈ joined.parts S q.root, m ∈ part.states)
    (whole : IsWhole value q.root (joined.parts S q.root) j)
    (allowed : (j.kind granting).split q.kind ≠ .impossible)
    (divided : Shares.Combined j.shares q.permission.shares (Divided value) rest)
    (free : ¬Hinders S own joined pool q.kind q.root) :
    Admits (fun n (other : Term → Option W) =>
        own.Silent n ∧ Backs S value joined pool n other ∧ q.Allots value r n other)
      (pool.splitOne own r) fun next n other =>
        Pool.IsBacked S (Dominated value other) n (joined.remaining S q.root ++
          (((j.kind granting).split q.kind).leave j rest).toList) next := by
  rintro l other met ⟨silent, backs, allots⟩
  have holdsP := backs.isBacked.holdsDimensions holds
  obtain ⟨part, under⟩ := holds.exists_under grown
  -- The pool holds the dimensions too, so nothing in it covers the root.
  have uncovered := orderly.not_above_of_isBacked grown backs.isBacked under
  rw [splitOne_of_take?_none (orderly.take?_of_uncovered grown (allots.root ▸ uncovered)
    (allots.kind ▸ looks)), orderly.splitCombined_of_holds own r (allots.root ▸ holdsP),
    allots.root]
  let known (n : Nat) (other : Term → Option W) : Prop :=
    own.Silent n ∧ Backs S value joined pool n other ∧ q.Allots value r n other
  have lasting : Lasting known := by
    rintro n m other next more agree ⟨silent, backs, allots⟩
    exact ⟨silent.mono more, Backs.lasting value joined pool more agree backs,
      Request.Allots.lasting value q r more agree allots⟩
  have source {n : Nat} {other : Term → Option W} (backs : Backs S value joined pool n other)
      (p : Permission) (part : p ∈ pool.parts S q.root) :
      ∃ j ∈ joined.parts S q.root, j.Backs S value p n other :=
    orderly.exists_part grown holds (fun _ _ known => known.root) backs part
  suffices step : Admits known _ fun next n other =>
      Pool.IsBacked S (Dominated value other) n (joined.remaining S q.root ++
        (((j.kind granting).split q.kind).leave j rest).toList) next from
    step l other met ⟨silent, backs, allots⟩
  refine ((orderly.combineUp_common grown own holdsP).keeping lasting ?_).bind fun taken => ?_
  · rintro n other ⟨silent, backs, allots⟩
    refine ⟨silent, allots.spare.distinct, fun p part => ?_⟩
    obtain ⟨_, _, backing⟩ := source backs p part
    exact backing.drawn
  · rintro l other met ⟨⟨w, rfl, common⟩, -, backs, allots⟩
    have backed := backs.isBacked.isBacked_common grown orderly neat holds whole common space
      listed joinedOrderly.space
    have fair : (w.kind own).split r.kind ≠ .impossible := allots.kind ▸
      combined_split_allowed grown looks uncovered backed.writable common.toIsCombined allowed free
    refine splitFound_backs_all grown distinct space common.space whole.laid common.laid divided
      fair l other met ⟨⟨⟨backed, common.held allots.spare fun p part => ?_⟩, allots⟩,
        fun o stayed => ?_⟩
    · obtain ⟨_, _, backing⟩ := source backs p part
      exact backing.held
    · obtain ⟨inside, outside⟩ := List.mem_filter.mp stayed
      obtain ⟨p, among, known⟩ := backs o inside
      exact ⟨p, List.mem_filter.mpr ⟨among, known.root ▸ outside⟩, known⟩

/-- A request that is split off what the parts are put together to in both pools. -/
theorem Orderly.splitOne_backs_combined (none : ∀ j ∈ joined, ¬S.Above j.root q.root)
    (looks : q.kind ≠ .pure) :
    Reveals value (joined.splitOne granting q) fun joinedNext =>
      ¬Hinders S own joined pool q.kind q.root →
      Admits (fun n (other : Term → Option W) =>
          own.Silent n ∧ Backs S value joined pool n other ∧ q.Allots value r n other)
        (pool.splitOne own r) fun next n other =>
          Pool.IsBacked S (Dominated value other) n joinedNext next := by
  rw [splitOne_of_take?_none (joinedOrderly.take?_of_uncovered grown none looks)]
  by_cases holds : joined.HoldsDimensions S q.root
  · rw [joinedOrderly.splitCombined_of_holds granting q holds]
    have possible : Yields (combineUp q.root (joined.parts S q.root)) fun whole =>
        ∀ j, whole = some j → j.space = S ∧
          ∀ m ∈ j.states, ∃ part ∈ joined.parts S q.root, m ∈ part.states := by
      intro l j made
      obtain ⟨part, member, space, -⟩ := combineUp_yields q.root _ l j made
      exact ⟨space.trans (joinedOrderly.space part (mem_parts_iff.mp member).1),
        combineUp_states q.root _ l j made⟩
    refine (combineUp_reveals q.root (joined.parts S q.root)).bindYields possible
      fun whole known => ?_
    cases whole with
    | none => exact turnDown_reveals q _ _
    | some j =>
      obtain ⟨space, listed⟩ := known j rfl
      refine (splitFound_divides distinct granting q j _).mono ?_
      rintro _ ⟨allowed, rest, divided, rfl⟩ made free
      exact joinedOrderly.splitCombined_backs grown orderly neat distinct looks holds space listed
        (made j rfl) allowed divided free
  · rw [joinedOrderly.splitCombined_of_not_holds granting q holds]
    exact turnDown_reveals q joined _

/-- What a pool gives, one that backs it gives too unless it is hindered, and backs what is left. -/
theorem Orderly.splitOne_backs (granting own : Solution) (q r : Request) :
    Reveals value (joined.splitOne granting q) fun joinedNext =>
      ¬Hinders S own joined pool q.kind q.root →
      Admits (fun n (other : Term → Option W) =>
          own.Silent n ∧ Backs S value joined pool n other ∧ q.Allots value r n other)
        (pool.splitOne own r) fun next n other =>
          Pool.IsBacked S (Dominated value other) n joinedNext next := by
  by_cases held : ∃ j ∈ joined, S.Above j.root q.root
  · obtain ⟨j, member, atop⟩ := held
    exact (joinedOrderly.splitOne_backs_held grown orderly neat distinct member atop).mono
      fun _ admits free => (admits free).mono (fun _ _ => And.right) fun _ _ _ => id
  · have none : ∀ j ∈ joined, ¬S.Above j.root q.root := fun j member atop => held ⟨j, member, atop⟩
    by_cases looks : q.kind = .pure
    · exact (joinedOrderly.splitOne_backs_lower grown orderly distinct none looks).mono
        fun _ admits free => (admits free).mono (fun _ _ => And.right) fun _ _ _ => id
    · exact joinedOrderly.splitOne_backs_combined grown orderly neat distinct none looks

end Steps

end Pool

end Typestate

import Typestate.Proofs.Permission.Comparing
import Typestate.Proofs.Permission.StateInfo

set_option autoImplicit false

/-!
What a pool knows of states stays clean and near the roots when something is split off.
-/

namespace Typestate

open Permission

variable {S : Space} {frame : Bool}

/-- What is known of the states is clean, and each of them is above or below the root. -/
structure Permission.Neat (S : Space) (p : Permission) : Prop where
  clean : S.cleanStates p.states = p.states
  along : ∀ s ∈ p.states, S.Above s p.root ∨ S.Above p.root s

section States

variable {p : Permission}

theorem Permission.Neat.sole (neat : p.Neat S) {s t : String} (left : s ∈ p.states)
    (right : t ∈ p.states) (implied : S.implies t s = true) : t = s := by
  rw [← neat.clean] at left
  exact (Space.mem_cleanStates.mp left).2.2 t right implied

theorem Permission.Neat.mem_clean (neat : p.Neat S) {states : List String}
    (inside : ∀ s ∈ states, s ∈ p.states) {s : String} (member : s ∈ states) :
    s ∈ S.cleanStates states := by
  have own := inside s member
  rw [← neat.clean] at own
  exact Space.mem_cleanStates.mpr ⟨member, (Space.mem_cleanStates.mp own).2.1,
    fun t among implied => neat.sole (inside s member) (inside t among) implied⟩

theorem Permission.mem_reroot_states (space : p.space = S) {n s : String} :
    s ∈ (p.reroot n).states ↔
      s ∈ S.cleanStates (p.states.filter fun s => S.covers n s || S.covers s n) := by
  subst space
  rfl

theorem Permission.reroot_neat (space : p.space = S) (n : String) : (p.reroot n).Neat S := by
  constructor
  · subst space
    exact p.space.cleanStates_cleanStates _
  · intro s member
    obtain ⟨among, -⟩ := Space.mem_cleanStates.mp ((mem_reroot_states space).mp member)
    obtain ⟨-, near⟩ := List.mem_filter.mp among
    simp only [Bool.or_eq_true, S.covers_iff] at near
    exact near.symm

end States

namespace Pool

section Splitting

variable {pool : Pool} (space : ∀ p ∈ pool, p.space = S) (neat : ∀ p ∈ pool, p.Neat S)

include space neat

theorem take?_neat {root : String} {tolerates : Bool} {p : Permission} {others : Pool}
    (taken : pool.take? root tolerates = some (p, others)) : ∀ o ∈ p :: others, o.Neat S := by
  intro o member
  rcases (taking_of_take? taken).mem_or_reroot o member with inside | ⟨whole, inside, n, rfl⟩
  · exact neat o inside
  · exact reroot_neat (space whole inside) n

theorem combineUp_neat (grown : S.Grown) (root : String) :
    Yields (combineUp root (pool.parts S root)) fun whole => ∀ w, whole = some w → w.Neat S := by
  have listed : ∀ p ∈ pool.parts S root, p ∈ pool ∧ p.root ∈ S.dimensions root :=
    fun p => mem_parts_iff.mp
  generalize pool.parts S root = parts at listed
  cases parts with
  | nil => exact .pure nofun
  | cons first rest =>
    refine .ite (fun _ => .pure nofun) fun _ => (Shares.tabulate_yields _ _ _ _).bind
      fun shares made => .pure ?_
    rintro w ⟨⟩
    have shared : shares.space = S := made.1.trans (space first (listed first List.mem_cons_self).1)
    refine ⟨?_, fun s member => ?_⟩
    · rw [← shared]
      exact shares.space.cleanStates_cleanStates _
    · obtain ⟨p, part, own⟩ := List.mem_flatMap.mp (Space.mem_cleanStates.mp member).1
      obtain ⟨inside, dimension⟩ := listed p part
      have lower := (grown.lower_of_mem_dimensions dimension).1
      obtain ⟨dim, parent⟩ := grown.mem_dimensions_iff.mp dimension
      have root : shares.root = root := made.2
      change S.Above s shares.root ∨ S.Above shares.root s
      rw [root]
      -- What is above the dimension `p.root` is that dimension or above the state it refines.
      rcases (neat p inside).along s own with higher | below
      · rcases (grown.above_iff_of_ne (grown.ne_alive_of_isDimension dim)).mp higher with
          same | upper
        · exact .inr (same ▸ lower)
        · exact .inl (parent ▸ upper)
      · exact .inr (grown.above_trans lower below)

omit space neat in
theorem split_neat {p : Permission} (neat : p.Neat S) (q : Request) (s : Solution) :
    Yields (p.split q s) fun remainder => ∀ left, remainder = some left → left.Neat S := by
  refine split_leaves neat fun l readOnly => ⟨neat.clean, fun state member => ?_⟩
  have root := (p.shares.combine_yields q.permission.shares splitFraction l).2
  change S.Above state (Shares.root _) ∨ S.Above (Shares.root _) state
  rw [root]
  exact neat.along state member

omit space neat in
theorem Orderly.splitOne_neat (grown : S.Grown) (orderly : pool.Orderly S frame)
    (neat : ∀ p ∈ pool, p.Neat S) (s : Solution) (q : Request) :
    Yields (pool.splitOne s q) fun next => ∀ p ∈ next, p.Neat S := by
  have found {p : Permission} {others : Pool} (all : ∀ o ∈ p :: others, o.Neat S) :
      Yields (splitFound s q p others) fun next => ∀ o ∈ next, o.Neat S := by
    refine (split_neat (all p List.mem_cons_self) q s).bind fun remainder left => ?_
    have rest : ∀ o ∈ others, o.Neat S := fun o member => all o (List.mem_cons_of_mem p member)
    cases remainder with
    | none => exact .pure rest
    | some r =>
      refine .pure fun o member => ?_
      rcases List.mem_append.mp member with other | last
      · exact rest o other
      · rw [List.mem_singleton.mp last]
        exact left r rfl
  cases taken : pool.take? q.root q.toleratesSmallerRoot with
  | some claimed =>
    rw [splitOne_of_take? taken]
    exact found (take?_neat orderly.space neat taken)
  | none =>
    rw [splitOne_of_take?_none taken]
    by_cases holds : pool.HoldsDimensions S q.root
    · rw [orderly.splitCombined_of_holds s q holds]
      have rest : ∀ o ∈ pool.remaining S q.root, o.Neat S :=
        fun o member => neat o (List.mem_filter.mp member).1
      refine (combineUp_neat orderly.space neat grown q.root).bind fun whole made => ?_
      cases whole with
      | none => exact .after fun _ => .pure rest
      | some w => exact found (List.forall_mem_cons.mpr ⟨made w rfl, rest⟩)
    · rw [orderly.splitCombined_of_not_holds s q holds]
      exact .after fun _ => .pure neat

end Splitting

end Pool

end Typestate

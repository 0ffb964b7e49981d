import Mathlib.Data.Finset.Max
import Mathlib.Data.List.Sort
import Typestate.Permission.Basic
import Typestate.Proofs.Space.Implication

set_option autoImplicit false

/-!
What is known of states, how it is cleaned, and how a new state changes it. Cleaning keeps the names
that no other one implies. A state and its dimensions imply each other, so if two of them are listed
cleaning drops both; nothing else is lost. A new state takes the place of all that is not orthogonal
to it.
-/

namespace Typestate

section Names

theorem mem_insertName {name s : String} {names : List String} :
    s ∈ insertName name names ↔ s = name ∨ s ∈ names := by
  induction names with
  | nil => simp [insertName]
  | cons other rest ih =>
      simp only [insertName]
      split
      · next same => simp [same]
      · split
        · simp
        · simp only [List.mem_cons, ih, or_left_comm]

theorem insertName_ascending {names : List String} (ascending : names.Pairwise (· < ·))
    (name : String) : (insertName name names).Pairwise (· < ·) := by
  induction names with
  | nil => exact List.pairwise_singleton _ _
  | cons other rest ih =>
      obtain ⟨first, later⟩ := List.pairwise_cons.mp ascending
      unfold insertName
      split
      · exact ascending
      · next apart =>
          split
          · next less =>
              refine List.pairwise_cons.mpr ⟨fun s member => ?_, ascending⟩
              rcases List.mem_cons.mp member with rfl | inside
              · exact less
              · exact Std.lt_trans less (first s inside)
          · next notLess =>
              refine List.pairwise_cons.mpr ⟨fun s member => ?_, ih later⟩
              rcases mem_insertName.mp member with rfl | inside
              · exact Decidable.byContradiction fun notGreater =>
                  apart (Std.Trichotomous.trichotomous _ _ notLess notGreater)
              · exact first s inside

theorem mem_foldr_insertName {s : String} {names : List String} :
    s ∈ names.foldr insertName [] ↔ s ∈ names := by
  induction names with
  | nil => rfl
  | cons name rest ih => rw [List.foldr_cons, mem_insertName, ih, List.mem_cons]

theorem foldr_insertName_ascending (names : List String) :
    (names.foldr insertName []).Pairwise (· < ·) := by
  induction names with
  | nil => exact .nil
  | cons name rest ih => exact insertName_ascending ih name

end Names

namespace Space

/-- Another of the names stands for the same state. -/
def Rivalled (S : Space) (names : List String) (name : String) : Prop :=
  ∃ other ∈ names, other ≠ name ∧ S.stateOf other = S.stateOf name

/-- None of the names stands for a state below that of the given one. -/
def Lowest (S : Space) (names : List String) (name : String) : Prop :=
  ∀ other ∈ names, S.implies other name = true → S.stateOf other = S.stateOf name

variable {S : Space} {states : List String}

section Cleaning

theorem cleanStates_ascending (S : Space) (states : List String) :
    (S.cleanStates states).Pairwise (· < ·) := foldr_insertName_ascending _

theorem mem_cleanStates {s : String} :
    s ∈ S.cleanStates states ↔
      s ∈ states ∧ s ≠ alive ∧ ∀ t ∈ states, S.implies t s = true → t = s := by
  rw [cleanStates, mem_foldr_insertName, List.mem_filter]
  simp only [Bool.and_eq_true, bne_iff_ne, Bool.not_eq_true', List.any_eq_false, not_and', not_not]

theorem cleanStates_cleanStates (S : Space) (states : List String) :
    S.cleanStates (S.cleanStates states) = S.cleanStates states := by
  refine (S.cleanStates_ascending _).eq_of_mem_iff (S.cleanStates_ascending _) fun s => ?_
  rw [mem_cleanStates]
  refine ⟨And.left, fun member => ⟨member, ?_⟩⟩
  obtain ⟨-, top, sole⟩ := mem_cleanStates.mp member
  exact ⟨top, fun t among => sole t (mem_cleanStates.mp among).1⟩

theorem not_rivalled_of_plain {name : String} (plain : ∀ s ∈ states, S.isDimension s = false)
    (member : name ∈ states) : ¬S.Rivalled states name := by
  rintro ⟨other, among, apart, same⟩
  rw [stateOf_of_plain (plain other among), stateOf_of_plain (plain name member)] at same
  exact apart same

variable (grown : S.Grown)

include grown

theorem Grown.mem_cleanStates_iff {s : String} :
    s ∈ S.cleanStates states ↔
      s ∈ states ∧ s ≠ alive ∧ S.Lowest states s ∧ ¬S.Rivalled states s := by
  rw [mem_cleanStates]
  refine and_congr_right fun _ => and_congr_right fun _ => ?_
  constructor
  · intro alone
    refine ⟨fun t among implied => by rw [alone t among implied], ?_⟩
    rintro ⟨t, among, apart, same⟩
    exact apart (alone t among (grown.implies_both_iff.mpr same).1)
  · rintro ⟨lowest, sole⟩ t among implied
    by_contra apart
    exact sole ⟨t, among, apart, lowest t among implied⟩

theorem Grown.exists_lowest {s n : String} (member : s ∈ states) (implied : S.implies s n = true) :
    ∃ t ∈ states, S.implies t n = true ∧ S.Lowest states t := by
  let candidates := (states.filter fun t => S.implies t n).toFinset
  have among (t : String) : t ∈ candidates ↔ t ∈ states ∧ S.implies t n = true := by
    simp [candidates]
  obtain ⟨t, found, longest⟩ := candidates.exists_max_image
    (fun t => (S.ancestors (S.stateOf t)).length) ⟨s, (among s).mpr ⟨member, implied⟩⟩
  obtain ⟨inside, below⟩ := (among t).mp found
  refine ⟨t, inside, below, fun other listed lower => ?_⟩
  have further := longest other ((among other).mpr ⟨listed, grown.implies_trans lower below⟩)
  exact (grown.eq_of_above_of_length_le ((grown.implies_iff other t).mp lower) further).symm

/-- What a name implies is still implied after cleaning if the lowest names for it have no rivals. -/
theorem Grown.exists_mem_cleanStates {s n : String} (below : S.stateOf n ≠ alive)
    (member : s ∈ states) (implied : S.implies s n = true)
    (sole : ∀ t ∈ states, S.implies t n = true → S.Lowest states t → ¬S.Rivalled states t) :
    ∃ t ∈ S.cleanStates states, S.implies t n = true := by
  obtain ⟨t, inside, lower, lowest⟩ := grown.exists_lowest member implied
  exact ⟨t, grown.mem_cleanStates_iff.mpr ⟨inside, grown.ne_alive_of_implies below lower, lowest,
    sole t inside lower lowest⟩, lower⟩

end Cleaning

instance : DecidablePred (S.Rivalled states) := fun name =>
  inferInstanceAs (Decidable (∃ other ∈ states, other ≠ name ∧ S.stateOf other = S.stateOf name))

instance : DecidablePred (S.Lowest states) := fun name =>
  inferInstanceAs (Decidable (∀ other ∈ states, S.implies other name = true →
    S.stateOf other = S.stateOf name))

/-- Cleaning gives names in order and none twice, without the root and without any that another one
implies. A node is still implied exactly if one of the lowest names that imply it has no rival. So
nothing is lost of names that all stand for different states. -/
theorem cleanStates_keeps_iff (built : S.Built) (states : List String) :
    (S.cleanStates states).Pairwise (· < ·) ∧ alive ∉ S.cleanStates states ∧
      (∀ a ∈ S.cleanStates states, ∀ b ∈ S.cleanStates states, S.implies a b = true → a = b) ∧
      ∀ n, n ≠ alive → n ∉ S.dimensions alive →
        ((∃ s ∈ S.cleanStates states, S.implies s n = true) ↔
          ∃ s ∈ states, S.implies s n = true ∧ S.Lowest states s ∧ ¬S.Rivalled states s) ∧
        ((∀ s ∈ states, ¬S.Rivalled states s) → (∃ s ∈ states, S.implies s n = true) →
          ∃ s ∈ S.cleanStates states, S.implies s n = true) := by
  have grown := built.grown
  refine ⟨S.cleanStates_ascending states, fun member => (mem_cleanStates.mp member).2.1 rfl,
    fun a first b second => (mem_cleanStates.mp second).2.2 a (mem_cleanStates.mp first).1,
    fun n notAlive outside => ?_⟩
  have below : S.stateOf n ≠ alive := fun same =>
    (grown.stateOf_eq_alive_iff.mp same).elim notAlive outside
  refine ⟨⟨?_, ?_⟩, ?_⟩
  · rintro ⟨s, member, implied⟩
    obtain ⟨inside, -, lowest, sole⟩ := grown.mem_cleanStates_iff.mp member
    exact ⟨s, inside, implied, lowest, sole⟩
  · rintro ⟨s, inside, implied, lowest, sole⟩
    exact ⟨s, grown.mem_cleanStates_iff.mpr
      ⟨inside, grown.ne_alive_of_implies below implied, lowest, sole⟩, implied⟩
  · rintro sole ⟨s, inside, implied⟩
    exact grown.exists_mem_cleanStates below inside implied fun t among _ _ => sole t among

/-- A protocol with a state that two dimensions refine. -/
def streams : Space :=
  (((Draft.new "Stream").addDimension (some "use") alive ["open", "shut"] false).1
    |>.addDimension (some "work") "open" ["reading", "idle"] false).1
    |>.addDimension (some "mode") "open" ["binary", "text"] false |>.1.space

theorem streams_built : streams.Built :=
  ⟨_, .addDimension (.addDimension (.addDimension (.new "Stream") ..) ..) .., rfl⟩

/-- The state and one of its dimensions drop out together, but a lower state implies it. -/
theorem cleanStates_keeps_open :
    let states := ["reading", "open", alive, "mode", "reading", "elsewhere"]
    streams.Rivalled states "open" ∧ streams.Rivalled states "mode" ∧
      streams.cleanStates states = ["elsewhere", "reading"] ∧
      ∃ s ∈ streams.cleanStates states, streams.implies s "open" = true := by
  intro states
  have kept := (cleanStates_keeps_iff streams_built states).2.2.2 "open" (by decide)
    (by decide +kernel)
  exact ⟨by decide +kernel, by decide +kernel, by decide +kernel,
    kept.1.mpr ⟨"reading", by decide +kernel⟩⟩

/-- A state next to one of its dimensions, or two of them, and no name is left to imply it. -/
theorem cleanStates_loses_rivals :
    streams.Built ∧ "open" ≠ alive ∧ "open" ∉ streams.dimensions alive ∧
      ∀ states ∈ [["open", "work"], ["work", "mode"]],
        (∃ s ∈ states, streams.implies s "open" = true) ∧
          ¬∃ s ∈ streams.cleanStates states, streams.implies s "open" = true :=
  ⟨streams_built, by decide, by decide +kernel, by decide +kernel⟩

end Space

namespace Permission

theorem impliesState_iff (p : Permission) (state : String) :
    p.impliesState state = true ↔ p.space.implies p.root state = true ∨
      ∃ known ∈ p.states, p.space.implies known state = true := by
  simp [impliesState]

variable {p : Permission}

section Learning

variable (grown : p.space.Grown)

include grown

theorem impliesState_of_mem {state : String} (member : state ∈ p.states) :
    p.impliesState state = true :=
  (p.impliesState_iff state).mpr (.inr ⟨state, member, grown.implies_self state⟩)

theorem impliesState_of_implies {known needed : String} (implied : p.impliesState known = true)
    (further : p.space.implies known needed = true) : p.impliesState needed = true := by
  rw [impliesState_iff] at implied ⊢
  exact implied.imp (grown.implies_trans · further) fun ⟨state, member, lower⟩ =>
    ⟨state, member, grown.implies_trans lower further⟩

theorem withStates_impliesState_iff {states : List String}
    (sole : ∀ s ∈ states, ¬p.space.Rivalled states s) (t : String) :
    (p.withStates states).impliesState t = true ↔
      p.space.implies p.root t = true ∨ ∃ s ∈ states, p.space.implies s t = true := by
  have cleaned : (p.withStates states).impliesState t = true ↔ p.space.implies p.root t = true ∨
      ∃ s ∈ p.space.cleanStates states, p.space.implies s t = true :=
    (p.withStates states).impliesState_iff t
  rw [cleaned]
  constructor
  · refine Or.imp_right fun ⟨s, member, implied⟩ => ?_
    exact ⟨s, (Space.mem_cleanStates.mp member).1, implied⟩
  · rintro (atRoot | ⟨s, member, implied⟩)
    · exact .inl atRoot
    · by_cases top : p.space.stateOf t = alive
      · refine .inl ((grown.implies_iff p.root t).mpr ?_)
        rw [top]
        exact grown.above_alive _
      · exact .inr (grown.exists_mem_cleanStates top member implied fun u among _ _ => sole u among)

/-- After a state is learned, what is above it is known, and what was known of orthogonal ones. -/
theorem learn_impliesState_iff (plain : ∀ k ∈ p.states, p.space.isDimension k = false) {s : String}
    (state : p.space.isDimension s = false) (inside : p.covers s = true) {t : String}
    (plainT : p.space.isDimension t = false) :
    (p.learn s).impliesState t = true ↔
      p.space.Above t s ∨ p.space.Parted t s ∧ p.impliesState t = true := by
  have root : p.space.Above p.root s := (p.space.covers_iff p.root s).mp inside
  have all : ∀ k ∈ (p.states.filter fun k => p.space.orthogonal k s) ++ [s],
      p.space.isDimension k = false := by
    intro k member
    rcases List.mem_append.mp member with kept | new
    · exact plain k (List.mem_filter.mp kept).1
    · rwa [List.mem_singleton.mp new]
  rw [learn, withStates_impliesState_iff grown fun k => Space.not_rivalled_of_plain all,
    impliesState_iff]
  simp only [List.mem_append, List.mem_filter, List.mem_singleton, grown.orthogonal_iff,
    Space.implies_iff_of_plain plainT]
  constructor
  · rintro (atop | ⟨k, ⟨member, apart⟩ | rfl, atop⟩)
    · exact .inl (grown.above_trans atop root)
    · exact (grown.above_or_parted apart atop).imp_right fun beside =>
        ⟨beside.symm, .inr ⟨k, member, atop⟩⟩
    · exact .inl atop
  · rintro (atop | ⟨apart, atop | ⟨k, member, atop⟩⟩)
    · exact .inr ⟨s, .inr rfl, atop⟩
    · exact .inl atop
    · -- What lies below something orthogonal is orthogonal, so it was not replaced.
      exact .inr ⟨k, .inl ⟨member, grown.parted_mono apart atop (grown.above_refl s)⟩, atop⟩

end Learning

/-- A state that is learned is known from then on. What is orthogonal to it is known exactly if it was
before, and of the rest only what is above the new state. -/
theorem learn_replaces (built : p.space.Built)
    (plain : ∀ k ∈ p.states, p.space.isDimension k = false) {s : String}
    (state : p.space.isDimension s = false) (inside : p.covers s = true) :
    (p.learn s).impliesState s = true ∧
      (∀ t, p.space.isDimension t = false → p.space.orthogonal t s = true →
        ((p.learn s).impliesState t = true ↔ p.impliesState t = true)) ∧
      ∀ t, p.space.isDimension t = false → p.space.covers t s = false →
        p.space.orthogonal t s = false → (p.learn s).impliesState t = false := by
  have grown := built.grown
  refine ⟨?_, fun t plainT apart => ?_, fun t plainT notAbove beside => ?_⟩
  · exact (learn_impliesState_iff grown plain state inside state).mpr (.inl (grown.above_refl s))
  · rw [grown.orthogonal_iff] at apart
    simp [learn_impliesState_iff grown plain state inside plainT, apart,
      grown.not_above_of_parted apart]
  · rw [← Bool.not_eq_true, Space.covers_iff] at notAbove
    rw [← Bool.not_eq_true, grown.orthogonal_iff] at beside
    simp [← Bool.not_eq_true, learn_impliesState_iff grown plain state inside plainT, notAbove,
      beside]

theorem learn_replaces_reading :
    let p := make (.constant Space.streams alive .one) false false ["reading", "text"]
    p.impliesState "reading" = true ∧ p.impliesState "text" = true ∧
      (p.learn "idle").impliesState "idle" = true ∧ (p.learn "idle").impliesState "text" = true ∧
      (p.learn "idle").impliesState "reading" = false := by
  intro p
  have text : p.impliesState "text" = true := by decide +kernel
  obtain ⟨new, kept, gone⟩ := learn_replaces (p := p) (s := "idle") Space.streams_built
    (by decide +kernel) (by decide +kernel) (by decide +kernel)
  exact ⟨by decide +kernel, text, new, (kept "text" (by decide +kernel) (by decide +kernel)).mpr text,
    gone "reading" (by decide +kernel) (by decide +kernel) (by decide +kernel)⟩

end Permission

end Typestate

import Typestate.Proofs.Context.Leaves
import Typestate.Proofs.Context.Verdict

set_option autoImplicit false

/-!
How much a frozen context still knows. What freezing leaves out of a choice lies below one of the
elements that stay, as long as precision of tuples is transitive, and what it leaves out of an
obligation was not needed to be above it. So a frozen context knows as much as the one it was made
from if it knows as much as itself, which choices of tensors do and obligations do not.
-/

namespace Typestate

section Reflexivity

instance : ReflBEq Space := ⟨fun {s} => beq_self_eq_true s.name⟩

instance {κ ν : Type} [BEq κ] [BEq ν] [ReflBEq κ] [ReflBEq ν] : ReflBEq (SortedMap κ ν) :=
  ⟨fun {m} => beq_self_eq_true m.entries⟩

instance : ReflBEq Constraints where
  rfl {cs} := by
    change cs.same cs = true
    simp [Constraints.same, Constraints.contains]

deriving instance ReflBEq for Shares, Permission, Held, Holding, Tuple

theorem Tuple.atLeastAsPrecise_refl (t : Tuple) : t.atLeastAsPrecise t = true := by
  simp [Tuple.atLeastAsPrecise]

end Reflexivity

/-- Precision is transitive among the tuples with a property. -/
def Tuple.TransitiveOn (P : Tuple → Prop) : Prop :=
  ∀ t u v : Tuple, P t → P u → P v → t.atLeastAsPrecise u = true → u.atLeastAsPrecise v = true →
    t.atLeastAsPrecise v = true

namespace Context

section Nodes

variable {c : Context} {es : List Context}

theorem covers_choice {t : Tuple} :
    (choice es).covers t = true ↔ ∃ e ∈ es, e.covers t = true := by
  simp [covers, anyCovers_eq]

theorem covers_all {t : Tuple} : (all es).covers t = true ↔ ∀ e ∈ es, e.covers t = true := by
  simp [covers, allCover_eq]

theorem precise_choice : c.precise (choice es) = true ↔ ∀ e ∈ es, c.precise e = true := by
  simp [precise, preciseAll_eq]

theorem precise_all :
    c.precise (all es) = true ↔ es = [] ∨ ∃ e ∈ es, c.precise e = true := by
  simp [precise, preciseAny_eq]

theorem precise_of_mem_all {e : Context} (member : e ∈ es) (precise : c.precise e = true) :
    c.precise (all es) = true :=
  precise_all.mpr (.inr ⟨e, member, precise⟩)

theorem precise_of_isStuck (c : Context) {other : Context} (stuck : other.isStuck = true) :
    c.precise other = true := by
  induction other using leaf_induction with
  | stuck | packFailed | unreachable => rfl
  | tensor => cases stuck
  | node j es ih =>
    cases j with
    | choice =>
      rw [Junction.node, isStuck, allStuck_eq, List.all_eq_true] at stuck
      exact precise_choice.mpr fun e member => ih e member (stuck e member)
    | all =>
      rw [Junction.node, isStuck, anyStuck_eq, List.any_eq_true] at stuck
      obtain ⟨e, member, failed⟩ := stuck
      exact precise_of_mem_all member (ih e member failed)

theorem atLeastAsPrecise_of_precise {other : Context} (precise : c.precise other = true) :
    c.atLeastAsPrecise other = true := by
  simp [atLeastAsPrecise, precise]

theorem IsOpen.precise {other : Context} (opened : c.IsOpen)
    (atLeast : c.atLeastAsPrecise other = true) : c.precise other = true := by
  rw [atLeastAsPrecise, Bool.or_eq_true] at atLeast
  rcases atLeast with anything | precise
  · cases c with
    | unreachable => cases opened.2
    | all es =>
      cases es with
      | nil => cases opened.2
      | cons e rest => cases anything
    | stuck | packFailed | tensor | choice => cases anything
  · exact precise

theorem Normal.of_node {freeze : Bool} {j : Junction} (normal : (j.node es).Normal freeze)
    (some : es ≠ []) :
    2 ≤ es.length ∧ (∀ e ∈ es, e.IsOpen) ∧ es.Pairwise (Apart freeze) := by
  generalize shape : j.node es = x at normal
  cases normal with
  | leaf leaf => cases j <;> cases shape <;> cases leaf
  | empty i =>
    obtain ⟨-, rfl⟩ := Junction.node_injective shape
    exact absurd rfl some
  | node i several _ opened _ apart =>
    obtain ⟨-, rfl⟩ := Junction.node_injective shape
    exact ⟨several, opened, apart⟩

theorem Normal.provesAnything {freeze : Bool} (normal : c.Normal freeze)
    (unreachable : c.isUnreachable = true) : c.provesAnything = true := by
  cases c with
  | unreachable => rfl
  | stuck | packFailed | tensor => cases unreachable
  | choice es =>
    rw [isUnreachable, anyUnreachable_eq, List.any_eq_true] at unreachable
    obtain ⟨e, member, never⟩ := unreachable
    obtain ⟨-, opened, -⟩ := Normal.of_node (j := .choice) normal (List.ne_nil_of_mem member)
    simp [(opened e member).2] at never
  | all es =>
    match es with
    | [] => rfl
    | e :: rest =>
      obtain ⟨-, opened, -⟩ := Normal.of_node (j := .all) normal nofun
      rw [isUnreachable, allUnreachable_eq, List.all_eq_true] at unreachable
      have never := unreachable e List.mem_cons_self
      simp [(opened e List.mem_cons_self).2] at never

end Nodes

section Transitivity

variable {P : Tuple → Prop} (transitive : Tuple.TransitiveOn P)

include transitive

theorem covers_of_atLeastAsPrecise {t u : Tuple} (upper : P u) (lower : P t)
    (below : u.atLeastAsPrecise t = true) (c : Context) (every : c.Every P)
    (covered : c.covers u = true) : c.covers t = true := by
  induction c using leaf_induction with
  | stuck | packFailed => cases covered
  | unreachable => rfl
  | tensor v b => exact transitive v u t (every v List.mem_cons_self) upper lower covered below
  | node j es ih =>
    have inside := (every_node j es).mp every
    cases j with
    | choice =>
      obtain ⟨e, member, covers⟩ := covers_choice.mp covered
      exact covers_choice.mpr ⟨e, member, ih e member (inside e member) covers⟩
    | all =>
      have covers := covers_all.mp covered
      exact covers_all.mpr fun e member => ih e member (inside e member) (covers e member)

theorem covers_of_precise (c : Context) (every : c.Every P) {t : Tuple} (lower : P t)
    {middle : Context} (normal : middle.Normal true) (opened : middle.IsOpen)
    (between : middle.Every P) (precise : c.precise middle = true)
    (covered : middle.covers t = true) : c.covers t = true := by
  revert between precise covered
  -- The induction is on the context in the middle. An unreachable one would lie below and above
  -- everything, so it must be open.
  refine Normal.open_induction (motive := fun middle => middle.Every P → c.precise middle = true →
    middle.covers t = true → c.covers t = true) ?_ ?_ normal opened
  · intro u b between precise covered
    exact covers_of_atLeastAsPrecise transitive (between u List.mem_cons_self) lower covered c
      every precise
  · intro j es some ih between precise covered
    have inside := (every_node j es).mp between
    cases j with
    | choice =>
      obtain ⟨e, member, covers⟩ := covers_choice.mp covered
      exact ih e member (inside e member) (precise_choice.mp precise e member) covers
    | all =>
      obtain ⟨e, member, above⟩ := (precise_all.mp precise).resolve_left some
      exact ih e member (inside e member) above (covers_all.mp covered e member)

theorem precise_trans {c middle other : Context} (every : c.Every P) (normal : middle.Normal true)
    (opened : middle.IsOpen) (between : middle.Every P) (lower : other.Every P)
    (upper : c.precise middle = true) (below : middle.precise other = true) :
    c.precise other = true := by
  induction other using leaf_induction with
  | stuck | packFailed | unreachable => rfl
  | tensor t b =>
    exact covers_of_precise transitive c every (lower t List.mem_cons_self) normal opened between
      upper below
  | node j es ih =>
    have inside := (every_node j es).mp lower
    cases j with
    | choice =>
      have each := precise_choice.mp below
      exact precise_choice.mpr fun e member => ih e member (inside e member) (each e member)
    | all =>
      rcases precise_all.mp below with rfl | ⟨e, member, precise⟩
      · rfl
      · exact precise_of_mem_all member (ih e member (inside e member) precise)

end Transitivity

end Context

namespace Junction

open Context

variable {j : Junction} {es : List Context}

theorem compact_of_absorbs {freeze : Bool} {e : Context} (found : es.find? j.absorbs = some e) :
    j.compact freeze es = e := by
  rw [compact, found]

theorem compact_eq_close (freeze : Bool) (absorbs : es.find? j.absorbs = none) :
    j.compact freeze es = j.close (es.find? j.ignores)
      (((es.filter fun e => !j.ignores e).flatMap j.elements).foldl (j.keep freeze) []) := by
  rw [compact, absorbs]
  rfl

theorem precise_elements_choice {c e : Context} :
    c.precise e = true ↔ ∀ k ∈ Junction.choice.elements e, c.precise k = true := by
  rcases Junction.choice.elements_cases e with ⟨inner, rfl⟩ | same
  · rw [elements_node]
    exact precise_choice
  · simp [same]

theorem precise_of_mem_elements_all {c e k : Context} (among : k ∈ Junction.all.elements e)
    (precise : c.precise k = true) : c.precise e = true := by
  rcases Junction.all.elements_cases e with ⟨inner, rfl⟩ | same
  · rw [elements_node] at among
    exact precise_of_mem_all among precise
  · rw [same, List.mem_singleton] at among
    rwa [← among]

theorem keep_stands_for {survivors : List Context} {c k : Context}
    (known : k ∈ survivors ∨ k = c) :
    ∃ s ∈ j.keep true survivors c, s = k ∨ j.prefers s k = true := by
  simp only [keep, keepBest, if_true]
  split
  · next better =>
    rcases known with old | rfl
    · exact ⟨k, old, .inl rfl⟩
    · obtain ⟨s, member, prefers⟩ := List.any_eq_true.mp better
      exact ⟨s, member, .inr prefers⟩
  · rcases known with old | rfl
    · by_cases dropped : j.prefers c k = true
      · exact ⟨c, by simp, .inr dropped⟩
      · exact ⟨k, by simp [old, dropped], .inl rfl⟩
    · exact ⟨k, by simp, .inl rfl⟩

theorem keepAll_stands_for {Q : Context → Prop}
    (transitive : ∀ a b c, Q a → Q b → Q c → j.prefers a b = true → j.prefers b c = true →
      j.prefers a c = true)
    {candidates survivors : List Context} (old : ∀ s ∈ survivors, Q s)
    (new : ∀ c ∈ candidates, Q c) {k : Context} (known : k ∈ survivors ∨ k ∈ candidates) :
    ∃ s ∈ candidates.foldl (j.keep true) survivors, s = k ∨ j.prefers s k = true := by
  induction candidates generalizing survivors k with
  | nil => exact ⟨k, known.resolve_right nofun, .inl rfl⟩
  | cons c rest ih =>
    have next : ∀ s ∈ j.keep true survivors c, Q s := by
      intro s member
      rcases mem_keep member with before | rfl
      · exact old s before
      · exact new s List.mem_cons_self
    have later : ∀ d ∈ rest, Q d := fun d member => new d (List.mem_cons_of_mem c member)
    have continued {d : Context} (kept : d ∈ j.keep true survivors c ∨ d ∈ rest) :=
      ih next later kept
    by_cases coming : k ∈ rest
    · exact continued (.inr coming)
    · have present : k ∈ survivors ∨ k = c := by simp_all
      have fine : Q k := present.elim (old k) fun same => same ▸ new c List.mem_cons_self
      -- `s` stands for `k` after this step, and `r` for `s` in the end. Since `s` may itself be
      -- dropped for a third element, the preference has to be transitive.
      obtain ⟨s, kept, first⟩ := keep_stands_for (j := j) present
      obtain ⟨r, final, second⟩ := continued (.inl kept)
      have stays : Q r := (keepAll_subset rest _ r final).elim (next r) (later r)
      refine ⟨r, final, ?_⟩
      rcases first with rfl | first
      · exact second
      · rcases second with rfl | second
        · exact .inr first
        · exact .inr (transitive r s k stays (next s kept) fine second first)

theorem precise_of_close_choice {c : Context} {dropped : Option Context}
    {survivors : List Context}
    (precise : c.precise (Junction.choice.close dropped survivors) = true) :
    ∀ s ∈ survivors, c.precise s = true := by
  cases survivors with
  | nil => rintro s ⟨⟩
  | cons s rest =>
    cases rest with
    | nil => exact List.forall_mem_singleton.mpr precise
    | cons r others => exact precise_choice.mp precise

theorem precise_of_close_all {c : Context} {dropped : Option Context} {survivors : List Context}
    (ignored : ∀ e, dropped = some e → e.isUnreachable = true)
    (reached : (Junction.all.close dropped survivors).isUnreachable = false)
    (precise : c.precise (Junction.all.close dropped survivors) = true) :
    ∃ s ∈ survivors, c.precise s = true := by
  cases survivors with
  | nil =>
    -- The node is empty, or an element that is never reached stands for it.
    cases dropped with
    | none => cases reached
    | some e => simp [close, ignored e rfl] at reached
  | cons s rest =>
    cases rest with
    | nil => exact ⟨s, List.mem_cons_self, precise⟩
    | cons r others => exact (precise_all.mp precise).resolve_left (List.cons_ne_nil _ _)

variable {P : Tuple → Prop}

theorem prefers_trans_choice (transitive : Tuple.TransitiveOn P) {a b c : Context}
    (first : Junction.choice.Fit true a ∧ a.Every P)
    (second : Junction.choice.Fit true b ∧ b.Every P) (third : c.Every P)
    (upper : Junction.choice.prefers a b = true) (lower : Junction.choice.prefers b c = true) :
    Junction.choice.prefers a c = true := by
  have above := first.1.opened.precise upper
  have below := second.1.opened.precise lower
  exact atLeastAsPrecise_of_precise (precise_trans transitive first.2 second.1.normal
    second.1.opened second.2 third above below)

theorem every_of_mem_elements {e k : Context} (every : e.Every P) (among : k ∈ j.elements e) :
    k.Every P := by
  rcases j.elements_cases e with ⟨inner, rfl⟩ | same
  · rw [elements_node] at among
    exact (every_node j inner).mp every k among
  · rw [same, List.mem_singleton] at among
    rwa [among]

theorem precise_of_compact_choice (transitive : Tuple.TransitiveOn P) {c : Context}
    (every : c.Every P) (normal : ∀ e ∈ es, e.Normal true) (inside : ∀ e ∈ es, e.Every P)
    (reached : (Junction.choice.compact true es).isUnreachable = false)
    (precise : c.precise (Junction.choice.compact true es) = true) :
    ∀ e ∈ es, e.isUnreachable = false ∧ c.precise e = true := by
  cases found : es.find? Junction.choice.absorbs with
  | some e =>
    -- An absorbing element would make the whole choice unreachable.
    have unreachable : e.isUnreachable = true := List.find?_some found
    rw [compact_of_absorbs found, unreachable] at reached
    cases reached
  | none =>
    have absorbs : ∀ e ∈ es, Junction.choice.absorbs e = false := by
      simpa using List.find?_eq_none.mp found
    rw [compact_eq_close true found] at precise
    have survive := precise_of_close_choice precise
    set candidates := (es.filter fun e => !Junction.choice.ignores e).flatMap
      Junction.choice.elements
    have fit : ∀ k ∈ candidates, Junction.choice.Fit true k ∧ k.Every P := by
      intro k member
      obtain ⟨e, among, opened, element⟩ := candidates_open absorbs member
      exact ⟨fit_of_mem_elements (normal e among) opened element,
        every_of_mem_elements (inside e among) element⟩
    intro e member
    refine ⟨absorbs e member, ?_⟩
    by_cases stuck : e.isStuck = true
    · exact precise_of_isStuck c stuck
    refine precise_elements_choice.mpr fun k among => ?_
    have candidate : k ∈ candidates :=
      List.mem_flatMap.mpr ⟨e, List.mem_filter.mpr ⟨member, by simpa [ignores] using stuck⟩, among⟩
    have none : ∀ s ∈ ([] : List Context), Junction.choice.Fit true s ∧ s.Every P := by
      rintro s ⟨⟩
    obtain ⟨s, final, stands⟩ := keepAll_stands_for
      (fun a b c first second third => prefers_trans_choice transitive first second third.2)
      none fit (.inr candidate)
    have kept := fit s ((keepAll_subset candidates [] s final).resolve_left List.not_mem_nil)
    -- What stands for `k` in the end is preferred to it, and `c` knows as much as that.
    rcases stands with rfl | prefers
    · exact survive s final
    · exact precise_trans transitive every kept.1.normal kept.1.opened kept.2 (fit k candidate).2
        (survive s final) (kept.1.opened.precise prefers)

theorem precise_of_compact_all {c : Context}
    (reached : (Junction.all.compact true es).isUnreachable = false)
    (precise : c.precise (Junction.all.compact true es) = true) :
    ∃ e ∈ es, e.isUnreachable = false ∧ c.precise e = true := by
  cases found : es.find? Junction.all.absorbs with
  | some e =>
    rw [compact_of_absorbs found] at reached precise
    exact ⟨e, List.mem_of_find?_eq_some found, reached, precise⟩
  | none =>
    have absorbs : ∀ e ∈ es, Junction.all.absorbs e = false := by
      simpa using List.find?_eq_none.mp found
    rw [compact_eq_close true found] at precise reached
    obtain ⟨s, member, above⟩ :=
      precise_of_close_all (fun e dropped => List.find?_some dropped) reached precise
    obtain ⟨e, among, opened, element⟩ :=
      candidates_open absorbs ((keepAll_subset _ [] s member).resolve_left nofun)
    exact ⟨e, among, opened.2, precise_of_mem_elements_all element above⟩

end Junction

namespace Context

variable {P : Tuple → Prop}

/-- What knows as much as the frozen form knows as much as the context itself. -/
theorem precise_of_freeze (transitive : Tuple.TransitiveOn P) {c : Context} (every : c.Every P)
    {x : Context} (inside : x.Every P) (reached : x.freeze.isUnreachable = false)
    (precise : c.precise x.freeze = true) : c.precise x = true := by
  unfold freeze at reached precise
  induction x using tree_induction with
  | leaf x leaf => rwa [compact_leaf true leaf] at precise
  | node j es ih =>
    have below := (every_node j es).mp inside
    rw [compact_node] at reached precise
    cases j with
    | choice =>
      have each := Junction.precise_of_compact_choice transitive every
        (List.forall_mem_map.mpr fun e _ => compact_normal true e)
        (List.forall_mem_map.mpr fun e member => (below e member).compact true) reached precise
      exact precise_choice.mpr fun e member => by
        obtain ⟨live, above⟩ := each _ (List.mem_map_of_mem member)
        exact ih e member (below e member) live above
    | all =>
      obtain ⟨e, member, live, above⟩ := Junction.precise_of_compact_all reached precise
      obtain ⟨d, among, rfl⟩ := List.mem_map.mp member
      exact precise_of_mem_all among (ih d among (below d among) live above)

theorem precise_of_all_precise {es : List Context} (other : Context)
    (precise : (all es).precise other = true) : ∀ e ∈ es, e.precise other = true := by
  induction other using leaf_induction with
  | stuck | packFailed | unreachable => exact fun _ _ => rfl
  | tensor => exact covers_all.mp precise
  | node j fs ih =>
    intro e member
    cases j with
    | choice =>
      have each := precise_choice.mp precise
      exact precise_choice.mpr fun f inside => ih f inside (each f inside) e member
    | all =>
      rcases precise_all.mp precise with rfl | ⟨f, inside, above⟩
      · rfl
      · exact precise_of_mem_all inside (ih f inside above e member)

theorem Normal.all_not_precise {es : List Context} (normal : (all es).Normal true)
    (some : es ≠ []) : (all es).atLeastAsPrecise (all es) = false := by
  obtain ⟨several, -, apart⟩ := Normal.of_node (j := .all) normal some
  match es, several with
  | d :: e :: rest, _ =>
    rw [← Bool.not_eq_true]
    intro reflexive
    have precise : (all (d :: e :: rest)).precise (all (d :: e :: rest)) = true := reflexive
    -- An obligation knows as much as one of its elements only if all of them do, and in a frozen
    -- one no two are comparable.
    obtain ⟨f, member, above⟩ := (precise_all.mp precise).resolve_left nofun
    have each := precise_of_all_precise f above
    have first (g : Context) (later : g ∈ e :: rest) :=
      (Junction.choice.apart_iff d g).mp ((List.pairwise_cons.mp apart).1 g later)
    -- Another element than this one is as precise as it.
    rcases List.mem_cons.mp member with rfl | later
    · have other := atLeastAsPrecise_of_precise (each e (by simp))
      have apart : e.atLeastAsPrecise f = false := (first e List.mem_cons_self).2
      simp [other] at apart
    · have other := atLeastAsPrecise_of_precise (each d List.mem_cons_self)
      have apart : d.atLeastAsPrecise f = false := (first f later).1
      simp [other] at apart

theorem atLeastAsPrecise_self_of_leaves {x : Context}
    (leaves : ∀ e ∈ Junction.choice.elements x, e.branch?.isSome = true) :
    x.atLeastAsPrecise x = true := by
  refine atLeastAsPrecise_of_precise (Junction.precise_elements_choice.mpr fun e member => ?_)
  have leaf := leaves e member
  cases e with
  | stuck | packFailed | unreachable => rfl
  | tensor t b =>
    change x.covers t = true
    rcases Junction.choice.elements_cases x with ⟨es, rfl⟩ | same
    · rw [Junction.elements_node] at member
      exact covers_choice.mpr ⟨_, member, t.atLeastAsPrecise_refl⟩
    · rw [same, List.mem_singleton] at member
      exact member ▸ t.atLeastAsPrecise_refl
  | choice | all => cases leaf

/-- Among tuples on which precision is transitive, freezing loses nothing if the frozen form knows
as much as itself. It does if it is a choice of leaves or one leaf; an obligation that is left over
never does. -/
theorem freeze_atLeastAsPrecise (x : Context)
    (transitive : ∀ t ∈ x.tuples, ∀ u ∈ x.tuples, ∀ v ∈ x.tuples, t.atLeastAsPrecise u = true →
      u.atLeastAsPrecise v = true → t.atLeastAsPrecise v = true) :
    (x.freeze.atLeastAsPrecise x.freeze = true → x.freeze.atLeastAsPrecise x = true) ∧
    ((∀ e ∈ Junction.choice.elements x.freeze, e.branch?.isSome = true) →
      x.freeze.atLeastAsPrecise x = true) ∧
    ∀ es, x.freeze = all es → es ≠ [] → x.freeze.atLeastAsPrecise x.freeze = false := by
  have normal : x.freeze.Normal true := compact_normal true x
  have self : x.Every (· ∈ x.tuples) := fun t member => member
  have reduces (reflexive : x.freeze.atLeastAsPrecise x.freeze = true) :
      x.freeze.atLeastAsPrecise x = true := by
    rw [atLeastAsPrecise, Bool.or_eq_true] at reflexive ⊢
    cases unreachable : x.freeze.isUnreachable with
    | true => exact .inl (normal.provesAnything unreachable)
    | false =>
      have among : Tuple.TransitiveOn (· ∈ x.tuples) :=
        fun t u v first second third => transitive t first u second v third
      exact reflexive.imp_right (precise_of_freeze among (self.compact true) self unreachable)
  refine ⟨reduces, fun leaves => reduces (atLeastAsPrecise_self_of_leaves leaves), ?_⟩
  intro es shape some
  rw [shape] at normal ⊢
  exact normal.all_not_precise some

/-- A protocol of two states, one of them with two states of its own. -/
def files : Space :=
  (((Space.Draft.new "File").addDimension (some "use") alive ["open", "shut"] false).1
    |>.addDimension (some "work") "open" ["reading", "idle"] false).1.space

def fileIn (f : Fraction) (states : List String) (constraints : Constraints) : Tuple :=
  Tuple.empty.set ⟨0⟩
    (.held ⟨[.make (.constant files alive f) false false states], [], none, constraints⟩)

theorem freeze_atLeastAsPrecise_of_files :
    let known (state : String) : Context := .tensor (fileIn .one [state] .empty) .root
    let x : Context := .choice [known "open", .stuck .root, known "shut",
      .all [known "reading", .choice [known "open", known "idle"]], known "idle"]
    x.tuples.length = 6 ∧ (x.freeze == .choice [known "shut", known "idle"]) = true ∧
      x.freeze.atLeastAsPrecise x = true := by
  intro known x
  have transitive : ∀ t ∈ x.tuples, ∀ u ∈ x.tuples, ∀ v ∈ x.tuples,
      t.atLeastAsPrecise u = true → u.atLeastAsPrecise v = true →
        t.atLeastAsPrecise v = true := by decide +kernel
  have leaves : ∀ e ∈ Junction.choice.elements x.freeze, e.branch?.isSome = true := by
    decide +kernel
  exact ⟨rfl, by decide +kernel, (freeze_atLeastAsPrecise x transitive).2.1 leaves⟩

/-- An obligation for two states that exclude each other is frozen and does not know as much as
itself. And where equal fractions are linked by the constraints of a tuple in the middle only, an
element is dropped for a second one and that for a third, which does not know as much as the
first. -/
theorem freeze_loses_information :
    let known (state : String) : Context := .tensor (fileIn .one [state] .empty) .root
    let either : Context := .all [known "open", known "shut"]
    let linked (n : Nat) : Constraints :=
      ⟨[.equal [.single (.unknown (n + 1)), .single (.unknown n)]], none⟩
    let chain : Context :=
      .choice [.tensor (fileIn (.unknown 0) [] .empty) .root,
        .tensor (fileIn (.unknown 1) ["open"] (linked 0)) .root,
        .tensor (fileIn (.unknown 2) ["reading"] (linked 1)) .root]
    (either.freeze == either) = true ∧ either.freeze.atLeastAsPrecise either = false ∧
      chain.freeze.atLeastAsPrecise chain.freeze = true ∧
      chain.freeze.atLeastAsPrecise chain = false := by
  decide +kernel

end Context

end Typestate

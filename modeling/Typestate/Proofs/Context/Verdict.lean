import Typestate.Proofs.Context.NormalForm
import Typestate.Space.Registry

set_option autoImplicit false

/-!
What checks make of contexts. Making a context compact keeps the verdict of every check that does
not tell equal tensors apart, and freezing it that of every check that more precise tuples pass if
less precise ones do.
-/

namespace Typestate

namespace Context

/-- Whether a check without effects passes. -/
def accepted (f : Tuple → Branch → CheckResult) (c : Context) : Bool :=
  (Id.run (c.check f)).isOk

section Verdict

variable (f : Tuple → Branch → CheckResult)

theorem checkAny_isNone (es : List Context) :
    (Id.run (checkAny f es)).isNone = es.any (accepted f) := by
  induction es with
  | nil => rfl
  | cons e rest ih =>
      rw [List.any_cons, ← ih, accepted, checkAny, Id.run_bind]
      cases Id.run (e.check f) with
      | ok done => rfl
      | error d => exact Option.isNone_map

theorem checkAll_isEmpty (es : List Context) :
    (Id.run (checkAll f es)).isEmpty = es.all (accepted f) := by
  induction es with
  | nil => rfl
  | cons e rest ih =>
      rw [List.all_cons, ← ih, accepted, checkAll, Id.run_bind]
      cases Id.run (e.check f) with
      | ok done => rfl
      | error d => rfl

theorem accepted_choice (es : List Context) :
    (choice es).accepted f = es.any (accepted f) := by
  rw [← checkAny_isNone, accepted, check, Id.run_bind]
  match Id.run (checkAny f es) with
  | none | some [] | some (_ :: _) => rfl

theorem accepted_all (es : List Context) : (all es).accepted f = es.all (accepted f) := by
  rw [← checkAll_isEmpty, accepted, check, Id.run_bind]
  match Id.run (checkAll f es) with
  | [] | _ :: _ => rfl

theorem anyCovers_eq (t : Tuple) (es : List Context) : anyCovers t es = es.any (covers t) := by
  induction es with
  | nil => rfl
  | cons e rest ih => rw [anyCovers, ih, List.any_cons]

theorem allCover_eq (t : Tuple) (es : List Context) : allCover t es = es.all (covers t) := by
  induction es with
  | nil => rfl
  | cons e rest ih => rw [allCover, ih, List.all_cons]

theorem preciseAll_eq (c : Context) (es : List Context) : preciseAll c es = es.all c.precise := by
  induction es with
  | nil => rfl
  | cons e rest ih => rw [preciseAll, ih, List.all_cons]

theorem preciseAny_eq (c : Context) (es : List Context) : preciseAny c es = es.any c.precise := by
  induction es with
  | nil => rfl
  | cons e rest ih => rw [preciseAny, ih, List.any_cons]

/-- Nothing passes where nothing usable is left, and everything where the point is never reached. -/
theorem accepted_of_decided (c : Context) :
    (c.isStuck = true → c.accepted f = false) ∧ (c.isUnreachable = true → c.accepted f = true) := by
  induction c using leaf_induction with
  | stuck | packFailed =>
      refine ⟨fun _ => rfl, ?_⟩
      rintro ⟨⟩
  | unreachable =>
      refine ⟨?_, fun _ => rfl⟩
      rintro ⟨⟩
  | tensor =>
      constructor
      · rintro ⟨⟩
      · rintro ⟨⟩
  | node j es ih =>
      cases j with
      | choice =>
          rw [Junction.node, isStuck, isUnreachable, allStuck_eq, anyUnreachable_eq,
            accepted_choice]
          simp only [List.all_eq_true, List.any_eq_true, List.any_eq_false, Bool.not_eq_true]
          refine ⟨fun failed e member => (ih e member).1 (failed e member), ?_⟩
          rintro ⟨e, member, never⟩
          exact ⟨e, member, (ih e member).2 never⟩
      | all =>
          rw [Junction.node, isStuck, isUnreachable, anyStuck_eq, allUnreachable_eq, accepted_all]
          simp only [List.all_eq_true, List.any_eq_true, List.all_eq_false, Bool.not_eq_true]
          refine ⟨?_, fun never e member => (ih e member).2 (never e member)⟩
          rintro ⟨e, member, failed⟩
          exact ⟨e, member, (ih e member).1 failed⟩

end Verdict

/-- What a check must not tell apart for its verdict to outlast that a context is made compact. -/
def Respects (freeze : Bool) (f : Tuple → Branch → CheckResult) : Prop :=
  if freeze then
    ∀ t u b d, t.atLeastAsPrecise u = true → (f u d).isOk = true → (f t b).isOk = true
  else ∀ t u b, (t == u) = true → (f t b).isOk = (f u b).isOk

mutual

theorem accepted_of_beq {f : Tuple → Branch → CheckResult} (respects : Respects false f) :
    ∀ a b : Context, a.beq b = true → a.accepted f = b.accepted f
  | .choice xs, .choice ys, same => by
      rw [accepted_choice, accepted_choice]
      exact (accepted_of_beqList respects xs ys same).1
  | .all xs, .all ys, same => by
      rw [accepted_all, accepted_all]
      exact (accepted_of_beqList respects xs ys same).2
  | .stuck _, .stuck _, _ => rfl
  | .packFailed _ _, .packFailed _ _, _ => rfl
  | .unreachable _, .unreachable _, _ => rfl
  | .tensor t a, .tensor u b, same => by
      rw [beq, Bool.and_eq_true] at same
      have branch : a = b := eq_of_beq same.2
      exact branch ▸ respects t u a same.1

theorem accepted_of_beqList {f : Tuple → Branch → CheckResult} (respects : Respects false f) :
    ∀ xs ys : List Context, beqList xs ys = true →
      xs.any (accepted f) = ys.any (accepted f) ∧ xs.all (accepted f) = ys.all (accepted f)
  | [], [], _ => ⟨rfl, rfl⟩
  | x :: xs, y :: ys, same => by
      rw [beqList, Bool.and_eq_true] at same
      have first := accepted_of_beq respects x y same.1
      have rest := accepted_of_beqList respects xs ys same.2
      simp only [List.any_cons, List.all_cons, first, rest, and_self]

end

section Precise

variable {f : Tuple → Branch → CheckResult} (respects : Respects true f)

include respects

theorem accepted_of_covers {t : Tuple} {d : Branch} (passed : (f t d).isOk = true) (c : Context) :
    c.covers t = true → c.accepted f = true := by
  induction c using leaf_induction with
  | stuck | packFailed => rintro ⟨⟩
  | unreachable => exact fun _ => rfl
  | tensor u b => exact fun covered => respects u t b d covered passed
  | node j es ih =>
      cases j with
      | choice =>
          rw [Junction.node, covers, anyCovers_eq, accepted_choice, List.any_eq_true,
            List.any_eq_true]
          rintro ⟨e, member, covered⟩
          exact ⟨e, member, ih e member covered⟩
      | all =>
          rw [Junction.node, covers, allCover_eq, accepted_all, List.all_eq_true, List.all_eq_true]
          exact fun covered e member => ih e member (covered e member)

theorem accepted_of_precise (c : Context) {other : Context} (normal : other.Normal true)
    (opened : other.IsOpen) : c.precise other = true → other.accepted f = true →
      c.accepted f = true := by
  -- What is never reached is no better than anything, so it must not occur.
  refine Normal.open_induction (motive := fun other => c.precise other = true →
    other.accepted f = true → c.accepted f = true) ?_ ?_ normal opened
  · exact fun t b covered passed => accepted_of_covers respects passed c covered
  · intro j es some ih
    cases j with
    | choice =>
        rw [Junction.node, precise, preciseAll_eq, accepted_choice, List.all_eq_true,
          List.any_eq_true]
        rintro precise ⟨e, member, passed⟩
        exact ih e member (precise e member) passed
    | all =>
        rw [Junction.node, precise, preciseAny_eq, List.isEmpty_eq_false_iff.mpr some, Bool.false_or,
          accepted_all, List.any_eq_true, List.all_eq_true]
        rintro ⟨e, member, precise⟩ passed
        exact ih e member precise (passed e member)

theorem accepted_of_atLeastAsPrecise {c other : Context} (normal : other.Normal true)
    (opened : other.IsOpen) (precise : c.atLeastAsPrecise other = true)
    (passed : other.accepted f = true) : c.accepted f = true := by
  rw [atLeastAsPrecise, Bool.or_eq_true] at precise
  rcases precise with anything | precise
  · match c, anything with
    | .unreachable _, _ => rfl
    | .all [], _ => rfl
  · exact accepted_of_precise respects c normal opened precise passed

end Precise

end Context

namespace Junction

open Context

/-- Whether the verdict on an element is the one that settles the node. -/
def settles (j : Junction) (f : Tuple → Branch → CheckResult) (c : Context) : Bool :=
  match j with
  | .choice => c.accepted f
  | .all => !c.accepted f

variable {j : Junction} {f : Tuple → Branch → CheckResult} {freeze : Bool}

theorem settles_node (j : Junction) (f : Tuple → Branch → CheckResult) (es : List Context) :
    j.settles f (j.node es) = es.any (j.settles f) := by
  cases j with
  | choice => exact accepted_choice f es
  | all =>
      change (!(Context.all es).accepted f) = es.any fun e => !e.accepted f
      rw [accepted_all, List.not_all_eq_any_not]

theorem settles_elements (j : Junction) (f : Tuple → Branch → CheckResult) (c : Context) :
    (j.elements c).any (j.settles f) = j.settles f c := by
  rcases j.elements_cases c with ⟨inner, rfl⟩ | same
  · rw [elements_node, settles_node]
  · rw [same, List.any_cons, List.any_nil, Bool.or_false]

theorem settles_of_absorbs {c : Context} (absorbs : j.absorbs c = true) :
    j.settles f c = true := by
  cases j with
  | choice => exact (accepted_of_decided f c).2 absorbs
  | all => exact Bool.not_eq_true' _ |>.mpr ((accepted_of_decided f c).1 absorbs)

theorem settles_of_ignores {c : Context} (ignores : j.ignores c = true) :
    j.settles f c = false := by
  cases j with
  | choice => exact (accepted_of_decided f c).1 ignores
  | all => exact Bool.not_eq_false' _ |>.mpr ((accepted_of_decided f c).2 ignores)

theorem settles_of_beq (respects : Respects false f) {a b : Context} (same : (a == b) = true) :
    j.settles f a = j.settles f b := by
  have verdict := accepted_of_beq respects a b same
  cases j with
  | choice => exact verdict
  | all => exact congrArg not verdict

theorem settles_of_prefers (respects : Respects true f) {a b : Context} (first : j.Fit true a)
    (second : j.Fit true b) (prefers : j.prefers a b = true) (settled : j.settles f b = true) :
    j.settles f a = true := by
  cases j with
  | choice =>
      exact accepted_of_atLeastAsPrecise respects second.normal second.opened prefers settled
  | all =>
      rw [settles, Bool.not_eq_true'] at settled ⊢
      rw [← Bool.not_eq_true] at settled ⊢
      exact mt (accepted_of_atLeastAsPrecise respects first.normal first.opened prefers) settled

theorem keep_settles (respects : Respects freeze f) {survivors : List Context} {c : Context}
    (fit : ∀ s ∈ survivors, j.Fit freeze s) (new : j.Fit freeze c) :
    (j.keep freeze survivors c).any (j.settles f) =
      (survivors.any (j.settles f) || j.settles f c) := by
  cases freeze with
  | false =>
      simp only [keep, keepNew, Bool.false_eq_true, if_false]
      split
      · next present =>
          obtain ⟨s, member, same⟩ := List.contains_iff_exists_mem_beq.mp present
          rw [settles_of_beq respects same]
          cases settled : j.settles f s with
          | false => rw [Bool.or_false]
          | true => rw [List.any_eq_true.mpr ⟨s, member, settled⟩, Bool.true_or]
      · simp
  | true =>
      simp only [keep, keepBest, if_true]
      split
      · next better =>
          obtain ⟨s, member, prefers⟩ := List.any_eq_true.mp better
          cases settled : j.settles f c with
          | false => rw [Bool.or_false]
          | true =>
              have other := settles_of_prefers respects (fit s member) new prefers settled
              rw [List.any_eq_true.mpr ⟨s, member, other⟩, Bool.true_or]
      · rw [List.any_append, List.any_cons, List.any_nil, Bool.or_false]
        cases settled : j.settles f c with
        | true => rw [Bool.or_true, Bool.or_true]
        | false =>
            -- Whatever the newcomer drops cannot have settled the node either.
            have kept (s : Context) (member : s ∈ survivors) (other : j.settles f s = true) :
                j.prefers c s = false := by
              rw [← Bool.not_eq_true]
              intro prefers
              have both := settles_of_prefers respects new (fit s member) prefers other
              rw [settled] at both
              cases both
            rw [Bool.or_false, Bool.or_false, Bool.eq_iff_iff, List.any_eq_true, List.any_eq_true]
            constructor
            · rintro ⟨s, inside, other⟩
              exact ⟨s, (List.mem_filter.mp inside).1, other⟩
            · rintro ⟨s, member, other⟩
              exact ⟨s, List.mem_filter.mpr ⟨member, by simp [kept s member other]⟩, other⟩

theorem keepAll_settles (respects : Respects freeze f) {candidates survivors : List Context}
    (old : ∀ s ∈ survivors, j.Fit freeze s) (fit : ∀ c ∈ candidates, j.Fit freeze c) :
    (candidates.foldl (j.keep freeze) survivors).any (j.settles f) =
      (survivors.any (j.settles f) || candidates.any (j.settles f)) := by
  induction candidates generalizing survivors with
  | nil => simp
  | cons c rest ih =>
      have new := fit c List.mem_cons_self
      have next : ∀ s ∈ j.keep freeze survivors c, j.Fit freeze s := by
        intro s member
        rcases mem_keep member with before | rfl
        · exact old s before
        · exact new
      rw [List.foldl_cons, ih next fun d member => fit d (List.mem_cons_of_mem c member),
        keep_settles respects old new, List.any_cons, Bool.or_assoc]

theorem close_settles {dropped : Option Context}
    (ignored : ∀ c, dropped = some c → j.ignores c = true) (survivors : List Context) :
    j.settles f (j.close dropped survivors) = survivors.any (j.settles f) := by
  match survivors with
  | [] =>
      cases dropped with
      | none => exact settles_node j f []
      | some c => exact settles_of_ignores (ignored c rfl)
  | [c] => simp [close]
  | c :: d :: rest => exact settles_node j f _

theorem compact_settles (respects : Respects freeze f) {es : List Context}
    (normal : ∀ e ∈ es, e.Normal freeze) :
    j.settles f (j.compact freeze es) = es.any (j.settles f) := by
  unfold compact
  cases found : es.find? j.absorbs with
  | some e =>
      have settled := settles_of_absorbs (f := f) (List.find?_some found)
      exact settled.trans (List.any_eq_true.mpr ⟨e, List.mem_of_find?_eq_some found, settled⟩).symm
  | none =>
      have absorbs : ∀ e ∈ es, j.absorbs e = false := by simpa using List.find?_eq_none.mp found
      have ignored (c : Context) (first : es.find? j.ignores = some c) : j.ignores c = true :=
        List.find?_some first
      have none : ∀ s ∈ ([] : List Context), j.Fit freeze s := by
        rintro s ⟨⟩
      have fit : ∀ c ∈ (es.filter fun e => !j.ignores e).flatMap j.elements, j.Fit freeze c := by
        intro c member
        obtain ⟨e, inside, opened, among⟩ := candidates_open absorbs member
        exact fit_of_mem_elements (normal e inside) opened among
      change j.settles f (j.close _ (List.foldl (j.keep freeze) [] _)) = _
      rw [close_settles ignored, keepAll_settles respects none fit,
        List.any_nil, Bool.false_or, List.any_flatMap]
      simp only [settles_elements]
      rw [Bool.eq_iff_iff, List.any_eq_true, List.any_eq_true]
      constructor
      · rintro ⟨e, kept, settled⟩
        exact ⟨e, (List.mem_filter.mp kept).1, settled⟩
      · rintro ⟨e, member, settled⟩
        -- What was filtered out is ignored, and so it settles nothing.
        by_cases ignores : j.ignores e = true
        · rw [settles_of_ignores ignores] at settled
          cases settled
        · exact ⟨e, List.mem_filter.mpr ⟨member, by simpa using ignores⟩, settled⟩

theorem accepted_eq_of_settles {c d : Context} (same : j.settles f c = j.settles f d) :
    c.accepted f = d.accepted f := by
  cases j with
  | choice => exact same
  | all => exact Bool.not_inj same

end Junction

namespace Context

theorem Respects.compact_accepted {freeze : Bool} {f : Tuple → Branch → CheckResult}
    (respects : Respects freeze f) (c : Context) :
    (c.compact freeze).accepted f = c.accepted f := by
  induction c using tree_induction with
  | leaf c leaf => rw [compact_leaf freeze leaf]
  | node j es ih =>
      have normal : ∀ e ∈ es.map (compact freeze), e.Normal freeze :=
        List.forall_mem_map.mpr fun e _ => compact_normal freeze e
      have each (e : Context) (member : e ∈ es) :
          j.settles f (e.compact freeze) = j.settles f e := by
        cases j <;> simp only [Junction.settles, ih e member]
      refine Junction.accepted_eq_of_settles (j := j) ?_
      rw [compact_node, Junction.compact_settles respects normal, Junction.settles_node,
        List.any_map, Bool.eq_iff_iff, List.any_eq_true, List.any_eq_true]
      exact exists_congr fun e => and_congr_right fun member => by rw [Function.comp, each e member]

/-- Making a context compact keeps the verdict of every check that answers alike on equal tuples,
and freezing it that of every check on tuples that a more precise tuple passes if a less precise
one does. -/
theorem compact_keeps_verdict :
    (∀ f : Tuple → Branch → CheckResult,
      (∀ t u b, (t == u) = true → (f t b).isOk = (f u b).isOk) →
        ∀ c : Context, (c.compact false).accepted f = c.accepted f) ∧
    ∀ g : Tuple → CheckResult,
      (∀ t u, t.atLeastAsPrecise u = true → (g u).isOk = true → (g t).isOk = true) →
        ∀ c : Context, (c.compact true).accepted (fun t _ => g t) = c.accepted fun t _ => g t := by
  constructor
  · intro f alike
    have respects : Respects false f := alike
    exact respects.compact_accepted
  · intro g monotone
    have respects : Respects true fun t _ => g t := fun t u _ _ => monotone t u
    exact respects.compact_accepted

theorem compact_keeps_receiver_check :
    let f : Tuple → Branch → CheckResult := fun t _ =>
      if t.receiver.isSome then .ok () else .error noContext
    let known : Context := .tensor (Tuple.empty.withReceiver ⟨0⟩) .root
    let c : Context := .choice [.stuck .root, .tensor .empty .root, .all [known, known]]
    (∀ t u b, (t == u) = true → (f t b).isOk = (f u b).isOk) ∧
      (c.compact false).accepted f = c.accepted f := by
  intro f known c
  have alike (t u : Tuple) (b : Branch) (same : (t == u) = true) :
      (f t b).isOk = (f u b).isOk := by
    have parts : (t.holdings == u.holdings && (t.receiver == u.receiver && t.fields == u.fields)) =
        true := same
    simp only [Bool.and_eq_true, beq_iff_eq] at parts
    simp only [f, parts.2.1]
  exact ⟨alike, compact_keeps_verdict.1 f alike c⟩

/-- A protocol for a type with the name of the type without one. -/
def streams : Space :=
  (((Space.Draft.new Space.top.name).addDimension (some "use") alive ["open", "shut"] false).1
    |>.addDimension (some "work") "open" ["reading", "idle"] false).1.space

def readingIn (space : Space) : Tuple :=
  Tuple.empty.set ⟨0⟩
    (.held ⟨[.make (.constant space alive .one) false false ["reading"]], [], none, .empty⟩)

def needsOpen (t : Tuple) (_ : Branch) : CheckResult :=
  if (t.get ⟨0⟩).isInStates ["open"] false then .ok () else .error noContext

/-- Spaces count as equal if their names do, so a check can tell equal tensors apart, and it then
matters which of them is kept. -/
theorem compact_drops_namesake :
    let c : Context := .choice [.tensor (readingIn .top) .root, .tensor (readingIn streams) .root]
    c.accepted needsOpen = true ∧ (c.compact false).accepted needsOpen = false := by
  decide +kernel

end Context

end Typestate

import Typestate.Proofs.Flow.JoinedStates

set_option autoImplicit false

/-!
Where a program can go on after a join. A failure on one of the ways that meet is a failure after
both, and a point that is never reached on either way is not reached after them. An obligation
without elements is never reached as well, but joins take it for an obligation and not for a point
without a way on, so it takes the place of what it is joined with.
-/

namespace Typestate

open Analysis

namespace Context

mutual

/-- Whether obligations without elements alone make it a point that is never reached, whatever
stands at the leaves. -/
def isVacuous : Context → Bool
  | .choice es => anyVacuous es
  | .all es => allVacuous es
  | _ => false

def allVacuous : List Context → Bool
  | [] => true
  | e :: es => e.isVacuous && allVacuous es

def anyVacuous : List Context → Bool
  | [] => false
  | e :: es => e.isVacuous || anyVacuous es

end

/-- A failure that stands by itself. -/
def hasFailed : Context → Bool
  | .stuck _ | .packFailed _ _ => true
  | _ => false

theorem hasFailed_outcome {c : Context} (failed : c.hasFailed = true) :
    c.isStuck = true ∧ c.isUnreachable = false ∧ c.isVacuous = false := by
  cases c with
  | stuck | packFailed => exact ⟨rfl, rfl, rfl⟩
  | unreachable | tensor | choice | all => cases failed

theorem allVacuous_eq (es : List Context) : allVacuous es = es.all isVacuous := by
  induction es with
  | nil => rfl
  | cons e rest ih => rw [allVacuous, ih, List.all_cons]

theorem anyVacuous_eq (es : List Context) : anyVacuous es = es.any isVacuous := by
  induction es with
  | nil => rfl
  | cons e rest ih => rw [anyVacuous, ih, List.any_cons]

theorem weighs_isVacuous : Weighs isVacuous := by
  intro j es
  rw [Junction.weigh_map]
  cases j with
  | choice => exact anyVacuous_eq es
  | all => exact allVacuous_eq es

theorem isUnreachable_of_isVacuous {c : Context} (vacuous : c.isVacuous = true) :
    c.isUnreachable = true := by
  induction c using leaf_induction with
  | stuck | packFailed | unreachable | tensor => cases vacuous
  | node j es ih =>
    rw [weighs_isVacuous, Junction.weigh_map] at vacuous
    rw [weighs_isUnreachable, Junction.weigh_map]
    cases j with
    | choice =>
      obtain ⟨e, member, holds⟩ := List.any_eq_true.mp vacuous
      exact List.any_eq_true.mpr ⟨e, member, ih e member holds⟩
    | all =>
      have each := List.all_eq_true.mp vacuous
      exact List.all_eq_true.mpr fun e member => ih e member (each e member)

section Joining

variable {tree : BranchTree} (point : MergePoint)

/-- A tensor that is joined with a context stands for its unreachable leaves, so that only
obligations without elements are left as points that are never reached. -/
theorem joinTensor_outcome (t : Tuple) (b : Branch) (d : Context) :
    Grows tree (joinTensor point t b d) fun _ joined =>
      joined.isStuck = d.isStuck ∧ joined.isUnreachable = d.isVacuous := by
  induction d using leaf_induction with
  | stuck | packFailed | unreachable => exact .pure fun _ _ => ⟨rfl, rfl⟩
  | tensor u c =>
    refine Grows.bind (.liftGuarded fun work _ => .any work) fun _ _ _ _ => ?_
    exact (joinBranch_grows b c).bind fun _ _ _ _ => .pure fun _ _ => ⟨rfl, rfl⟩
  | node j es ih =>
    rw [joinTensor_node]
    refine (Grows.mapM (fun _ => id) es fun e member => ih e member).bind
      fun _ ds _ paired => .pure fun _ _ => ⟨?_, ?_⟩
    · exact isStuck_node_congr j (paired.imp fun _ _ known => known.1)
    · exact weighs_isVacuous.node_congr weighs_isUnreachable j (paired.imp fun _ _ known => known.2)

theorem join_of_hasFailed (c : Context) {d : Context} (failed : d.hasFailed = true) :
    Grows tree (c.join point d) fun _ joined => joined.isStuck = true := by
  cases d with
  | stuck | packFailed => cases c <;> exact .pure fun _ _ => rfl
  | unreachable | tensor | choice | all => cases failed

/-- One test of a join and another one of its left side that agree where the left side is a leaf. -/
structure Mirrors (d : Context) (m n : Context → Bool) : Prop where
  failed : ∀ c : Context, c.hasFailed = true → n c = m c
  unreached : ∀ b, n d = m (.unreachable b)
  tensor : ∀ t b joined, joined.isStuck = d.isStuck → joined.isUnreachable = d.isVacuous →
    n joined = m (.tensor t b)
  /-- With nothing on the right the join is the left side. -/
  idle : ∀ b, d = .unreachable b → n = m

theorem Mirrors.join {d : Context} {m n : Context → Bool} (mirrors : Mirrors d m n)
    (first : Weighs m) (second : Weighs n) (running : d.hasFailed = false) (c : Context) :
    Grows tree (c.join point d) fun _ joined => n joined = m c := by
  induction c using leaf_induction with
  | stuck | packFailed => exact .pure fun _ _ => mirrors.failed _ rfl
  | unreachable b => exact .pure fun _ _ => mirrors.unreached b
  | tensor t b =>
    exact (joinTensor_outcome point t b d).imp fun _ joined _ known =>
      mirrors.tensor t b joined known.1 known.2
  | node j es ih =>
    -- The right side goes to every element, unless it is a single failure or adds nothing.
    rw [join_node]
    split
    · cases running
    · cases running
    · next b => exact .pure fun _ _ => congrFun (mirrors.idle b rfl) _
    · refine (Grows.mapM (fun _ => id) es fun e member => ih e member).bind
        fun _ ds _ paired => .pure fun _ _ => ?_
      exact first.node_congr second j paired

-- A right side that is stuck fails every leaf on the left, so the join goes on only where there is
-- no leaf to fail.
theorem mirrors_stuck {d : Context} (stuck : d.isStuck = true) :
    Mirrors d isVacuous fun joined => !joined.isStuck where
  failed c failed := by simp [hasFailed_outcome failed]
  unreached b := by simp [stuck, isVacuous]
  tensor t b joined same _ := by simp [same, stuck, isVacuous]
  idle b shape := by simp [shape, isStuck] at stuck

theorem mirrors_way {d : Context} (way : d.isStuck = false) :
    Mirrors d (fun c => !c.isStuck) fun joined => !joined.isStuck where
  failed _ _ := rfl
  unreached b := by simp [way, isStuck]
  tensor t b joined same _ := by simp [same, way, isStuck]
  idle _ _ := rfl

-- Obligations without elements take the place of every leaf that is not a failure.
theorem mirrors_vacuous {d : Context} (vacuous : d.isVacuous = true) :
    Mirrors d (fun c => !c.isStuck) isUnreachable where
  failed c failed := by simp [hasFailed_outcome failed]
  unreached b := by simp [isUnreachable_of_isVacuous vacuous, isStuck]
  tensor t b joined _ same := by simp [same, vacuous, isStuck]
  idle b shape := by simp [shape, isVacuous] at vacuous

theorem mirrors_unreachable {d : Context} (filled : d.isVacuous = false)
    (unreachable : d.isUnreachable = true) : Mirrors d isUnreachable isUnreachable where
  failed _ _ := rfl
  unreached b := by simp [unreachable, isUnreachable]
  tensor t b joined _ same := by simp [same, filled, isUnreachable]
  idle _ _ := rfl

theorem mirrors_reachable {d : Context} (filled : d.isVacuous = false)
    (reachable : d.isUnreachable = false) : Mirrors d isVacuous isUnreachable where
  failed c failed := by simp [hasFailed_outcome failed]
  unreached b := by simp [reachable, isVacuous]
  tensor t b joined _ same := by simp [same, filled, isVacuous]
  idle b shape := by simp [shape, isUnreachable] at reachable

theorem join_isStuck (c : Context) {d : Context} (running : d.hasFailed = false) :
    Grows tree (c.join point d) fun _ joined =>
      joined.isStuck = if d.isStuck then !c.isVacuous else c.isStuck := by
  cases stuck : d.isStuck with
  | true =>
    have outcome : Grows tree (c.join point d) fun _ joined => (!joined.isStuck) = c.isVacuous :=
      (mirrors_stuck stuck).join point weighs_isVacuous weighs_not_isStuck running c
    exact outcome.imp fun _ joined _ known => by simp [← known]
  | false =>
    have outcome : Grows tree (c.join point d) fun _ joined => (!joined.isStuck) = !c.isStuck :=
      (mirrors_way stuck).join point weighs_not_isStuck weighs_not_isStuck running c
    exact outcome.imp fun _ joined _ known => by simpa using known

theorem join_isUnreachable (c : Context) {d : Context} (running : d.hasFailed = false) :
    Grows tree (c.join point d) fun _ joined =>
      joined.isUnreachable = if d.isVacuous then !c.isStuck
        else if d.isUnreachable then c.isUnreachable else c.isVacuous := by
  cases filled : d.isVacuous with
  | true => exact (mirrors_vacuous filled).join point weighs_not_isStuck weighs_isUnreachable running c
  | false =>
    cases reach : d.isUnreachable with
    | true =>
      exact (mirrors_unreachable filled reach).join point weighs_isUnreachable weighs_isUnreachable
        running c
    | false =>
      exact (mirrors_reachable filled reach).join point weighs_isVacuous weighs_isUnreachable
        running c

end Joining

/-- A join is stuck exactly if one of the sides is, and else unreachable exactly if both are, unless
obligations without elements take the place of the other side: of one with a way on, or, if they are
on the left, of one that is stuck as a whole and not by a single failure. -/
theorem join_agrees_iff {c d joined : Context} {point : MergePoint} {session next : Session}
    (ran : (c.join point d).run.run session = (.ok joined, next)) :
    ((joined.isStuck = true ↔ c.isStuck = true ∨ d.isStuck = true) ∧
      (joined.isStuck = false →
        (joined.isUnreachable = true ↔ c.isUnreachable = true ∧ d.isUnreachable = true))) ↔
    (c.isVacuous = true → d.isUnreachable = true ∨ d.hasFailed = true) ∧
      (d.isVacuous = true → c.isStuck = true ∨ c.isUnreachable = true) := by
  cases failed : d.hasFailed with
  | true =>
    have stuck : joined.isStuck = true :=
      ((join_of_hasFailed point c failed).ran ran).2 joined rfl
    simp [stuck, (hasFailed_outcome failed).1, (hasFailed_outcome failed).2.2]
  | false =>
    have stuck := ((join_isStuck point c failed).ran ran).2 joined rfl
    have unreachable := ((join_isUnreachable point c failed).ran ran).2 joined rfl
    have apartC := not_stuck_and_unreachable c
    have apartD := not_stuck_and_unreachable d
    have belowC : c.isVacuous = true → c.isUnreachable = true := isUnreachable_of_isVacuous
    have belowD : d.isVacuous = true → d.isUnreachable = true := isUnreachable_of_isVacuous
    rw [stuck, unreachable]
    -- Six answers about the two sides decide the rest, with what they have to do with each other.
    generalize c.isStuck = stuckC, c.isUnreachable = unreachableC, c.isVacuous = vacuousC at *
    generalize d.isStuck = stuckD, d.isUnreachable = unreachableD, d.isVacuous = vacuousD at *
    clear stuck unreachable
    revert stuckC unreachableC vacuousC stuckD unreachableD vacuousD
    decide

/-- Nodes of all kinds on both sides, a choice without elements among them: there is a way on where
both sides have one. -/
theorem join_agrees_iff_of_mixed :
    let c : Context := .choice [.stuck .root, .all [.tensor .empty .root, .unreachable .root]]
    let d : Context := .all [.unreachable .root, .choice [.tensor .empty .root, .choice []]]
    c.isVacuous = false ∧ d.isVacuous = false ∧
      ∃ joined next, (c.join .loop d).run.run Session.new = (.ok joined, next) ∧
        joined.isStuck = false ∧ joined.isUnreachable = false := by
  intro c d
  have runs : leadsTo (c.join .loop d) Session.new (fun _ _ => true) = true := by decide +kernel
  obtain ⟨joined, next, ran, -⟩ := exists_of_leadsTo runs
  have vacuousC : c.isVacuous = false := by decide
  have vacuousD : d.isVacuous = false := by decide
  obtain ⟨stuck, unreachable⟩ := (join_agrees_iff ran).mpr (by simp [vacuousC, vacuousD])
  have way : joined.isStuck = false := by
    rw [← Bool.not_eq_true, stuck]
    decide
  refine ⟨vacuousC, vacuousD, joined, next, ran, way, ?_⟩
  rw [← Bool.not_eq_true, unreachable way]
  decide

/-- An obligation without elements takes the place of a tensor on either side, so that there is no
way on, and of a choice that is stuck. -/
theorem join_with_empty_obligation :
    (∃ joined next, ((Context.all []).join .branch (.tensor .empty .root)).run.run Session.new =
        (.ok joined, next) ∧ joined.isStuck = false ∧ joined.isUnreachable = true ∧
      (Context.tensor .empty .root).isUnreachable = false) ∧
    (∃ joined next, ((Context.tensor .empty .root).join .branch (.all [])).run.run Session.new =
        (.ok joined, next) ∧ joined.isStuck = false ∧ joined.isUnreachable = true ∧
      (Context.tensor .empty .root).isUnreachable = false) ∧
    ∃ joined next, ((Context.all []).join .branch (.choice [])).run.run Session.new =
        (.ok joined, next) ∧ joined.isStuck = false ∧ (Context.choice []).isStuck = true :=
  ⟨⟨.all [], _, rfl, rfl, rfl, rfl⟩, ⟨.all [], _, rfl, rfl, rfl, rfl⟩,
    ⟨.all [], _, rfl, rfl, rfl⟩⟩

end Context

end Typestate

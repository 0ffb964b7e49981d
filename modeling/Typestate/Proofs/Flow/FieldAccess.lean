import Typestate.Flow.Field
import Typestate.Proofs.Tuple.Reaching

set_option autoImplicit false

/-!
What a field access leads to. Where the object is unpacked already the access goes through as it is
or not at all; elsewhere the object is unpacked for the field first.
-/

namespace Typestate

open Analysis

namespace Flow

section Accesses

variable {t : Tuple} {c : ClassDecl} {access : FieldAccess} {write : Bool} {node : String}

/-- What an access goes to: a tuple that is accessible as it is, or one that unpacking it for the
field has led to. -/
inductive Prepared (c : ClassDecl) (object : Location) (write : Bool) (node : String) (t : Tuple) :
    Tuple → Prop
  | already (receiver : t.receiver = some object)
      (accessible : isAccessible c write node t = true) : Prepared c object write node t t
  | anew {u : Tuple} {b : Branch} {session next : Session} {context : Context}
      (receiver : t.receiver = some object) (reached : (t.get object).isBottom = false)
      (refused : isAccessible c write node t = false)
      (ran : (t.unpackToReach c b node false).run.run session = (.ok context, next))
      (leaf : u ∈ context.tuples) : Prepared c object write node t u

theorem isAccessible_of_unpacked {object : Location} {u : Permission}
    (receiver : t.receiver = some object) (unpacked : (t.get object).unpacked = some u) :
    isAccessible c write node t = (!write || c.space.covers u.root node) := by
  have shape : t.unpacked? = some u := by rw [Tuple.unpacked?, receiver, ← unpacked]; rfl
  rw [isAccessible, shape]

section Following

variable {P : Tuple → Prop}

theorem accessTuple_delivers (b : Branch) (other : t.receiver ≠ some access.object → P t)
    (unreached : (t.get access.object).isBottom = true → P t)
    (accessed : ∀ u b, Prepared c access.object write node t u →
      Delivers (accessUnpacked c access write node u b) (Context.Every P)) :
    Delivers (accessTuple c access write node t b) (Context.Every P) := by
  unfold accessTuple
  refine .ite (fun elsewhere => ?_) fun here => .ite (fun bottom => ?_) fun held =>
    .ite (fun accessible => ?_) fun refused => ?_
  · exact (Delivers.remark _).bind fun _ _ => .pure (Context.every_tensor (other elsewhere))
  · exact .pure (Context.every_tensor (unreached bottom))
  · exact accessed t b (.already (not_not.mp here) accessible)
  · have receiver := not_not.mp here
    have reached := Bool.eq_false_iff.mpr held
    have reaching := (Tuple.unpackToReach_delivers c b receiver reached node).origin
    refine reaching.bind fun context found => ?_
    obtain ⟨-, session, next, ran⟩ := found
    refine Context.mapTensors_delivers (P := (· ∈ context.tuples)) (fun u d leaf => ?_)
      fun u leaf => leaf
    exact accessed u d (.anew receiver reached (Bool.eq_false_iff.mpr refused) ran leaf)

theorem fieldAccess_delivers (mapped : c.space.fieldNode? access.field = some node)
    {context : Context} (each : ∀ t ∈ context.tuples, ∀ b,
      Delivers (accessTuple c access write node t b) (Context.Every P)) :
    Delivers (fieldAccess (some c) access write context) (Context.Every P) := by
  unfold fieldAccess
  refine (Delivers.log _).bind fun _ _ => ?_
  simp only [mapped]
  refine (Context.mapTensors_delivers (P := (· ∈ context.tuples))
    (fun t b member => each t member b) fun t member => member).bind fun result every => ?_
  exact .pure (every.compact false)

end Following

theorem readUnpacked_meeting {u : Permission} (unpacked : (t.get access.object).unpacked = some u)
    (meets : c.space.orthogonal u.root node = false) (b : Branch) :
    ∃ v, readUnpacked c access node t b = .tensor v b ∧
      v.get access.object = t.get access.object := by
  unfold readUnpacked
  rw [unpacked]
  simp only [meets, Bool.false_eq_true, if_false]
  split
  · exact ⟨_, rfl, rfl⟩
  · exact ⟨_, rfl, rfl⟩

theorem readUnpacked_every (t : Tuple) (b : Branch) :
    (readUnpacked c access node t b).Every fun v =>
      v.get access.object = t.get access.object ∧
      ∃ u, (t.get access.object).unpacked = some u ∧ c.space.orthogonal u.root node = false := by
  cases unpacked : (t.get access.object).unpacked with
  | none =>
    unfold readUnpacked
    rw [unpacked]
    nofun
  | some u =>
    cases meets : c.space.orthogonal u.root node with
    | true =>
      unfold readUnpacked
      simp only [unpacked, meets]
      nofun
    | false =>
      obtain ⟨v, tensor, same⟩ := readUnpacked_meeting unpacked meets b
      rw [tensor]
      exact Context.every_tensor ⟨same, u, rfl, meets⟩

theorem writeUnpacked_covered {u : Permission} (unpacked : (t.get access.object).unpacked = some u)
    (covers : c.space.covers u.root node = true) (b : Branch) :
    Delivers (writeUnpacked c access node t b) fun result => ∃ v, result = .tensor v b ∧
      ((u.readOnly = false ∧ v.get access.object = t.get access.object) ∨
        (u.readOnly = true ∧ (v.get access.object).isUnsatisfiable = true)) := by
  obtain ⟨work, done, yields⟩ := Holding.makeUnpackedModifiable_yields unpacked
  unfold writeUnpacked
  simp only [unpacked, covers]
  refine (Delivers.liftGuarded done yields).bind fun x known => .pure ⟨_, rfl, ?_⟩
  have same : ((access.source.map ((t.set access.object x).mapField access.field)).getD
      (t.set access.object x)).get access.object = x := by
    cases access.source with
    | none => exact Tuple.get_set_self t access.object x
    | some source => exact Tuple.get_set_self t access.object x
  rw [same]
  exact known

theorem writeUnpacked_delivers (t : Tuple) (b : Branch) :
    Delivers (writeUnpacked c access node t b) (Context.Every fun v =>
      ∃ u, (t.get access.object).unpacked = some u ∧ c.space.covers u.root node = true ∧
        ((u.readOnly = false ∧ v.get access.object = t.get access.object) ∨
          (u.readOnly = true ∧ (v.get access.object).isUnsatisfiable = true))) := by
  cases unpacked : (t.get access.object).unpacked with
  | none =>
    unfold writeUnpacked
    rw [unpacked]
    exact .pure nofun
  | some u =>
    cases covers : c.space.covers u.root node with
    | false =>
      unfold writeUnpacked
      simp only [unpacked, covers]
      exact .pure nofun
    | true =>
      refine (writeUnpacked_covered unpacked covers b).imp fun result found => ?_
      obtain ⟨v, rfl, known⟩ := found
      exact Context.every_tensor ⟨u, rfl, covers, known⟩

variable (mapped : c.space.fieldNode? access.field = some node)

include mapped

theorem fieldAccess_unpacked {u : Permission} (receiver : t.receiver = some access.object)
    (unpacked : (t.get access.object).unpacked = some u)
    (accessible : (!write || c.space.covers u.root node) = true) (b : Branch)
    {shown : Context → Prop}
    (delivers : Delivers (accessUnpacked c access write node t b) fun result =>
      shown (result.compact false)) :
    Delivers (fieldAccess (some c) access write (.tensor t b)) shown := by
  have stands : t.Stands access.object true := ⟨receiver, Holding.isUnpacked_of_some unpacked⟩
  have through : accessTuple c access write node t b = accessUnpacked c access write node t b := by
    unfold accessTuple
    rw [if_neg (not_not.mpr receiver), if_neg (Bool.eq_false_iff.mp stands.reached),
      isAccessible_of_unpacked receiver unpacked, if_pos accessible]
  unfold fieldAccess
  refine (Delivers.log _).bind fun _ _ => ?_
  simp only [mapped, Context.mapTensors, through]
  exact delivers.bind fun result known => .pure known

theorem fieldAccess_read_delivers (context : Context) :
    Delivers (fieldAccess (some c) access false context) (Context.Every fun v =>
      v.receiver = some access.object → (v.get access.object).isBottom = false →
      ∃ p, (v.get access.object).unpacked = some p ∧ c.space.orthogonal p.root node = false ∧
        ((p.root = node ∨ c.space.covers p.root node = true ∨ c.space.covers node p.root = true) ∨
          ∃ t ∈ context.tuples, t.receiver = some access.object ∧
            v.get access.object = t.get access.object)) := by
  refine fieldAccess_delivers mapped fun t member b => accessTuple_delivers b
    (fun other here => absurd here other)
    (fun bottom _ reached => absurd bottom (Bool.eq_false_iff.mp reached)) fun u d prepared => ?_
  refine .pure fun v leaf _ _ => ?_
  obtain ⟨same, p, unpacked, meets⟩ := readUnpacked_every u d v leaf
  refine ⟨p, same ▸ unpacked, meets, ?_⟩
  cases prepared with
  | already receiver accessible => exact .inr ⟨t, member, receiver, same⟩
  | anew receiver reached refused ran inside =>
    -- What is open there already would have been accessible, so it was unpacked to some `n`.
    rcases (Tuple.unpackToReach_delivers c _ receiver reached node).result ran u inside with
      ⟨rfl, w, open_, -⟩ | ⟨n, related, unfolded⟩
    · rw [isAccessible_of_unpacked receiver open_] at refused
      cases refused
    · obtain ⟨q, opens⟩ := unfolded.opens
      have root : p.root = n := by
        rw [← opens.root, Option.some.inj (unpacked.symm.trans opens.unpacked)]
      rw [root]
      exact .inl (related.imp_right .inr)

theorem fieldAccess_write_delivers (context : Context) :
    Delivers (fieldAccess (some c) access true context) (Context.Every fun v =>
      v.receiver = some access.object → (v.get access.object).isBottom = false →
      (v.get access.object).isUnsatisfiable = false →
      ∃ p, (v.get access.object).unpacked = some p ∧ c.space.covers p.root node = true ∧
        p.readOnly = false ∧ ∃ t ∈ context.tuples, t.receiver = some access.object ∧
          (v.get access.object = t.get access.object ∨
            (v.get access.object).constraints.solution.isNonZero p.shares.rootValue = true ∧
            ∃ b session next reached u,
              (t.unpackToReach c b node false).run.run session = (.ok reached, next) ∧
              u ∈ reached.tuples ∧ v.get access.object = u.get access.object)) := by
  refine fieldAccess_delivers mapped fun t member b => accessTuple_delivers b
    (fun other here => absurd here other)
    (fun bottom _ reached => absurd bottom (Bool.eq_false_iff.mp reached)) fun u d prepared => ?_
  refine (writeUnpacked_delivers u d).imp fun result every v leaf _ _ satisfiable => ?_
  obtain ⟨p, unpacked, covers, kept⟩ := every v leaf
  rcases kept with ⟨writable, same⟩ | ⟨-, never⟩
  · refine ⟨p, same ▸ unpacked, covers, writable, t, member, ?_⟩
    cases prepared with
    | already receiver accessible => exact ⟨receiver, .inl same⟩
    | anew receiver reached refused ran inside =>
      refine ⟨receiver, .inr ⟨?_, _, _, _, _, u, ran, inside, same⟩⟩
      rcases (Tuple.unpackToReach_delivers c _ receiver reached node).result ran u inside with
        ⟨rfl, -⟩ | ⟨n, related, unfolded⟩
      · -- One that is left as it is covers the field only if it was accessible.
        rw [isAccessible_of_unpacked receiver unpacked, covers] at refused
        cases refused
      · obtain ⟨q, opens⟩ := unfolded.opens
        rw [same] at satisfiable ⊢
        rw [Option.some.inj (unpacked.symm.trans opens.unpacked)]
        exact opens.isNonZero satisfiable
  · rw [never] at satisfiable
    cases satisfiable

end Accesses

namespace Valve

def space : Space :=
  { ((Space.Draft.new "Valve").addDimension (some "use") alive ["open", "shut"] false).1.space with
    fieldNodes := ⟨[("name", alive), ("rate", "open")]⟩ }

/-- Valves have a name, and a rate while they are open. -/
def valve : ClassDecl := ⟨"Valve", space, []⟩

def toField (field : String) : FieldAccess := ⟨⟨0⟩, field, none⟩

def permission (root : String) (value : Fraction) : Permission :=
  .make (.constant space root value) false true []

/-- All there is to know is what is held of the receiver. -/
def holding (x : Held) : Context := .tensor ⟨⟨[(⟨0⟩, .held x)]⟩, some ⟨0⟩, .empty⟩ .root

/-- Packed, with a share of its frame as a caller provides it. -/
def shared : Context :=
  let request := ((RequestSet.ofSpec space ⟨.share, alive, [], true⟩ false).run ⟨0⟩).1
  holding ⟨[], request.frames.map Request.permission, none, request.constraints⟩

/-- Unpacked at a root, with a fraction that nothing is known about. -/
def unpackedAt (root : String) : Context :=
  holding ⟨[], [], some (permission root (.unknown 0)), .empty⟩

/-- Whether an access leads to a valve that is unpacked with a permission that passes a test. -/
def leadsOpen (field : String) (write : Bool) (context : Context)
    (test : Solution → Permission → Bool) : Bool :=
  leadsTo (fieldAccess (some valve) (toField field) write context) Session.new fun result _ =>
    result.tuples.any fun v => v.receiver == some ⟨0⟩ && !(v.get ⟨0⟩).isBottom &&
      !(v.get ⟨0⟩).isUnsatisfiable &&
      (v.get ⟨0⟩).unpacked.any (test (v.get ⟨0⟩).constraints.solution)

theorem exists_of_leadsOpen {field : String} {write : Bool} {context : Context}
    {test : Solution → Permission → Bool} (leads : leadsOpen field write context test = true) :
    ∃ result next,
      (fieldAccess (some valve) (toField field) write context).run.run Session.new =
        (.ok result, next) ∧
      ∃ v ∈ result.tuples, v.receiver = some ⟨0⟩ ∧ (v.get ⟨0⟩).isBottom = false ∧
        (v.get ⟨0⟩).isUnsatisfiable = false ∧ ∃ p, (v.get ⟨0⟩).unpacked = some p ∧
          test (v.get ⟨0⟩).constraints.solution p = true := by
  obtain ⟨result, next, ran, shows⟩ := exists_of_leadsTo leads
  simp only [List.any_eq_true, Bool.and_eq_true, beq_iff_eq, Bool.not_eq_true',
    Option.any_eq_true] at shows
  obtain ⟨v, member, ⟨⟨receiver, reached⟩, satisfiable⟩, p, unpacked, passes⟩ := shows
  exact ⟨result, next, ran, v, member, receiver, reached, satisfiable, p, unpacked, passes⟩

end Valve

section Reads

variable {c : ClassDecl} {access : FieldAccess} {node : String}
  (mapped : c.space.fieldNode? access.field = some node)

include mapped

/-- A field is read through an unpacked root that is not independent of its node. Whoever unpacks
the object for the field gets a root on one line with the node; a root that was unpacked before may
also be a state that the node excludes, and the read goes through there as well. -/
theorem fieldAccess_reads_through_meeting_root (context : Context) (session : Session) :
    (session.logging = false → ∃ result next,
      (fieldAccess (some c) access false context).run.run session = (.ok result, next)) ∧
    (∀ result next,
      (fieldAccess (some c) access false context).run.run session = (.ok result, next) →
      ∀ v ∈ result.tuples, v.receiver = some access.object →
        (v.get access.object).isBottom = false →
        ∃ p, (v.get access.object).unpacked = some p ∧ c.space.orthogonal p.root node = false ∧
          ((p.root = node ∨ c.space.covers p.root node = true ∨
              c.space.covers node p.root = true) ∨
            ∃ t ∈ context.tuples, t.receiver = some access.object ∧
              v.get access.object = t.get access.object)) ∧
    ∀ t b u, t.receiver = some access.object → (t.get access.object).unpacked = some u →
      c.space.orthogonal u.root node = false → session.logging = false →
      ∃ v next, (fieldAccess (some c) access false (.tensor t b)).run.run session =
          (.ok (.tensor v b), next) ∧ v.get access.object = t.get access.object := by
  have delivers := fieldAccess_read_delivers mapped context
  refine ⟨fun quiet => ?_, fun result next ran => delivers.result ran,
    fun t b u receiver unpacked meets quiet => ?_⟩
  · obtain ⟨result, next, ran, -⟩ := delivers.returns quiet
    exact ⟨result, next, ran⟩
  · obtain ⟨v, tensor, same⟩ := readUnpacked_meeting unpacked meets b
    have reads : Delivers (fieldAccess (some c) access false (.tensor t b)) (· = .tensor v b) :=
      fieldAccess_unpacked mapped receiver unpacked rfl b (.pure (by rw [tensor]; rfl))
    obtain ⟨result, next, ran, -⟩ := reads.returns quiet
    exact ⟨v, next, reads.result ran ▸ ran, same⟩

end Reads

section Rates

open Valve

/-- A valve is unpacked as an open one for its rate. -/
theorem fieldAccess_reads_rate :
    ∃ result next v p,
      (fieldAccess (some valve) (toField "rate") false shared).run.run Session.new =
        (.ok result, next) ∧ v ∈ result.tuples ∧ (v.get ⟨0⟩).unpacked = some p ∧
      space.orthogonal p.root "open" = false ∧ p.root = "open" := by
  have leads : leadsOpen "rate" false shared (fun _ p => p.root == "open") = true := by
    decide +kernel
  obtain ⟨result, next, ran, v, member, receiver, reached, -, p, unpacked, root⟩ :=
    exists_of_leadsOpen leads
  have mapped : valve.space.fieldNode? (toField "rate").field = some "open" := rfl
  have reads := (fieldAccess_reads_through_meeting_root mapped shared Session.new).2.1
  obtain ⟨q, found, meets, -⟩ := reads result next ran v member receiver reached
  cases unpacked.symm.trans found
  exact ⟨result, next, v, p, ran, member, unpacked, meets, eq_of_beq root⟩

/-- The rate of a valve that is unpacked as a shut one can be read. -/
theorem fieldAccess_reads_excluded_state :
    ∃ result next,
      (fieldAccess (some valve) (toField "rate") false (unpackedAt "shut")).run.run Session.new =
        (.ok result, next) ∧
      ∃ v ∈ result.tuples, v.receiver = some (toField "rate").object ∧
        (v.get (toField "rate").object).isBottom = false ∧
        ∃ p, (v.get (toField "rate").object).unpacked = some p ∧
          valve.space.fieldNode? "rate" = some "open" ∧
          ¬(p.root = "open" ∨ valve.space.covers p.root "open" = true ∨
            valve.space.covers "open" p.root = true) := by
  have leads : leadsOpen "rate" false (unpackedAt "shut") (fun _ p => !(p.root == "open" ||
      space.covers p.root "open" || space.covers "open" p.root)) = true := by
    decide +kernel
  obtain ⟨result, next, ran, v, member, receiver, reached, -, p, unpacked, apart⟩ :=
    exists_of_leadsOpen leads
  refine ⟨result, next, ran, v, member, receiver, reached, p, unpacked, rfl, ?_⟩
  simpa [valve, and_assoc] using apart

end Rates

section Writes

variable {c : ClassDecl} {access : FieldAccess} {node : String}
  (mapped : c.space.fieldNode? access.field = some node)

include mapped

/-- Wherever a write can go on, the object is unpacked at a root that covers the field, with a
permission that allows writing. The write demands nothing itself: what is held is what was held
before, or what unpacking has led to, and then more than nothing is held at the root. Nothing is
demanded below the root. -/
theorem fieldAccess_writes_as_held (context : Context) (session : Session) :
    (session.logging = false → ∃ result next,
      (fieldAccess (some c) access true context).run.run session = (.ok result, next)) ∧
    (∀ result next,
      (fieldAccess (some c) access true context).run.run session = (.ok result, next) →
      ∀ v ∈ result.tuples, v.receiver = some access.object →
        (v.get access.object).isBottom = false →
        (v.get access.object).isUnsatisfiable = false →
        ∃ p, (v.get access.object).unpacked = some p ∧ c.space.covers p.root node = true ∧
          p.readOnly = false ∧ ∃ t ∈ context.tuples, t.receiver = some access.object ∧
            (v.get access.object = t.get access.object ∨
              (v.get access.object).constraints.solution.isNonZero p.shares.rootValue = true ∧
              ∃ b before after reached u,
                (t.unpackToReach c b node false).run.run before = (.ok reached, after) ∧
                u ∈ reached.tuples ∧ v.get access.object = u.get access.object)) ∧
    ∀ t b u, t.receiver = some access.object → (t.get access.object).unpacked = some u →
      c.space.covers u.root node = true → u.readOnly = false → session.logging = false →
      ∃ v next, (fieldAccess (some c) access true (.tensor t b)).run.run session =
          (.ok (.tensor v b), next) ∧ v.get access.object = t.get access.object := by
  have delivers := fieldAccess_write_delivers mapped context
  refine ⟨fun quiet => ?_, fun result next ran => delivers.result ran,
    fun t b u receiver unpacked covers writable quiet => ?_⟩
  · obtain ⟨result, next, ran, -⟩ := delivers.returns quiet
    exact ⟨result, next, ran⟩
  · have writes : Delivers (fieldAccess (some c) access true (.tensor t b)) fun result =>
        ∃ v, result = .tensor v b ∧ v.get access.object = t.get access.object := by
      refine fieldAccess_unpacked mapped receiver unpacked (by simp [covers]) b ?_
      refine (writeUnpacked_covered unpacked covers b).imp fun result found => ?_
      obtain ⟨v, rfl, ⟨-, same⟩ | ⟨readOnly, -⟩⟩ := found
      · exact ⟨v, rfl, same⟩
      · rw [writable] at readOnly
        cases readOnly
    obtain ⟨result, next, ran, -⟩ := writes.returns quiet
    obtain ⟨v, rfl, same⟩ := writes.result ran
    exact ⟨v, next, ran, same⟩

end Writes

section Names

open Valve

/-- A valve is unpacked as a whole for its name. -/
theorem fieldAccess_writes_name :
    ∃ result next v p,
      (fieldAccess (some valve) (toField "name") true shared).run.run Session.new =
        (.ok result, next) ∧ v ∈ result.tuples ∧ (v.get ⟨0⟩).unpacked = some p ∧
      space.covers p.root alive = true ∧ p.readOnly = false ∧ p.root = alive := by
  have leads : leadsOpen "name" true shared (fun _ p => p.root == alive) = true := by
    decide +kernel
  obtain ⟨result, next, ran, v, member, receiver, reached, satisfiable, p, unpacked, root⟩ :=
    exists_of_leadsOpen leads
  have mapped : valve.space.fieldNode? (toField "name").field = some alive := rfl
  have writes := (fieldAccess_writes_as_held mapped shared Session.new).2.1
  obtain ⟨q, found, covers, writable, -⟩ :=
    writes result next ran v member receiver reached satisfiable
  cases unpacked.symm.trans found
  exact ⟨result, next, v, p, ran, member, unpacked, covers, writable, eq_of_beq root⟩

/-- A name can be written though nothing need be held below the root and, if the valve was unpacked
before, though nothing need be held at the root either. -/
theorem fieldAccess_writes_with_nothing_known :
    (∃ result next, (fieldAccess (some valve) (toField "name") true shared).run.run Session.new =
        (.ok result, next) ∧
      ∃ v ∈ result.tuples, v.receiver = some ⟨0⟩ ∧ (v.get ⟨0⟩).isBottom = false ∧
        (v.get ⟨0⟩).isUnsatisfiable = false ∧ ∃ p, (v.get ⟨0⟩).unpacked = some p ∧
          (v.get ⟨0⟩).constraints.solution.isNonZero p.shares.below = false) ∧
    ∃ result next,
      (fieldAccess (some valve) (toField "name") true (unpackedAt alive)).run.run Session.new =
        (.ok result, next) ∧
      ∃ v ∈ result.tuples, v.receiver = some ⟨0⟩ ∧ (v.get ⟨0⟩).isBottom = false ∧
        (v.get ⟨0⟩).isUnsatisfiable = false ∧ ∃ p, (v.get ⟨0⟩).unpacked = some p ∧
          (v.get ⟨0⟩).constraints.solution.isNonZero p.shares.rootValue = false := by
  have below : leadsOpen "name" true shared (fun s p => !s.isNonZero p.shares.below) = true := by
    decide +kernel
  have root : leadsOpen "name" true (unpackedAt alive)
      (fun s p => !s.isNonZero p.shares.rootValue) = true := by
    decide +kernel
  simpa only [Bool.not_eq_true'] using And.intro (exists_of_leadsOpen below)
    (exists_of_leadsOpen root)

end Names

end Flow

end Typestate

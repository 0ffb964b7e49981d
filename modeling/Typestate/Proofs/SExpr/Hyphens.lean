import Mathlib.Data.List.Chain
import Typestate.Context.Basic
import Typestate.Proofs.Space.Tree
import Typestate.Space.Printer

set_option autoImplicit false

/-!
What hyphens do to written names. A phrase is written as it was put together unless two neighbours
are joined, so fields and failures are told apart unless one of their names ends in a hyphen or is
one.
-/

namespace Typestate

namespace SExpr

/-- No hyphen joins two neighbours. -/
def Apart (items : List SExpr) : Prop := items.IsChain fun first second => fuse? first second = none

/-- One of the items of a list. -/
def Lists (whole part : SExpr) : Prop := ∃ items, whole = .list items ∧ part ∈ items

section Joining

variable (item : SExpr) (rest : List SExpr)

theorem length_joinHyphensAfter_le :
    (joinHyphensAfter item rest).length ≤ rest.length + 1 := by
  induction rest generalizing item with
  | nil => exact Nat.le_refl 1
  | cons next rest ih =>
    unfold joinHyphensAfter
    split
    · next both _ =>
      have shorter := ih both
      rw [List.length_cons]
      omega
    · have shorter := ih next
      rw [List.length_cons, List.length_cons]
      omega

theorem joinHyphensAfter_of_apart (apart : Apart (item :: rest)) :
    joinHyphensAfter item rest = item :: rest := by
  induction rest generalizing item with
  | nil => rfl
  | cons next rest ih =>
    obtain ⟨here, later⟩ := List.isChain_cons_cons.mp apart
    rw [joinHyphensAfter, here]
    exact congrArg (item :: ·) (ih next later)

theorem apart_of_length (whole : (joinHyphensAfter item rest).length = rest.length + 1) :
    Apart (item :: rest) := by
  induction rest generalizing item with
  | nil => exact .singleton item
  | cons next rest ih =>
    unfold joinHyphensAfter at whole
    split at whole
    · next both _ =>
      -- Neighbours that are joined would make the list shorter.
      have shorter := length_joinHyphensAfter_le both rest
      rw [List.length_cons] at whole
      omega
    · next separate =>
      rw [List.length_cons, List.length_cons, Nat.add_right_cancel_iff] at whole
      exact List.isChain_cons_cons.mpr ⟨separate, ih next whole⟩

theorem phrase_eq_list_iff (items : List SExpr) (same : items.length = rest.length + 1) :
    phrase (item :: rest) = .list items ↔ Apart (item :: rest) ∧ items = item :: rest := by
  rw [phrase, joinHyphens, SExpr.list.injEq]
  constructor
  · intro shape
    have apart := apart_of_length item rest (by rw [shape, same])
    exact ⟨apart, by rw [← shape, joinHyphensAfter_of_apart item rest apart]⟩
  · rintro ⟨apart, rfl⟩
    exact joinHyphensAfter_of_apart item rest apart

end Joining

theorem fuse?_atom_eq_none {first second : String} :
    fuse? (.atom first) (.atom second) = none ↔
      second ≠ "-" ∧ (first = "-" ∨ first.toList.getLast? ≠ some '-') := by
  simp [fuse?, fuses, Classical.or_iff_not_imp_left]

end SExpr

theorem Branch.text_ends (b : Branch) : b.text.toList.getLast? ≠ some '-' := by
  obtain ⟨d, last⟩ : ∃ d, (Nat.toDigits 10 b.choice).getLast? = some d := by
    cases shape : (Nat.toDigits 10 b.choice).getLast? with
    | none => exact absurd (List.getLast?_eq_none_iff.mp shape) Nat.toDigits_ne_nil
    | some d => exact ⟨d, rfl⟩
  have digit : d.isDigit = true :=
    Nat.isDigit_of_mem_toDigits (by decide) (by decide) (List.mem_of_getLast? last)
  rw [text, String.toList_append, List.getLast?_append, Nat.toString_eq_repr, Nat.toList_repr,
    last, Option.some_or, ne_eq, Option.some_inj]
  rintro rfl
  cases digit

theorem Branch.text_ne_hyphen (b : Branch) : b.text ≠ "-" := by
  intro same
  exact b.text_ends (by rw [same]; rfl)

open SExpr

theorem Space.apart_field_iff (field node : String) :
    SExpr.Apart [.atom "field", .atom field, .atom node] ↔
      field.toList.getLast? ≠ some '-' ∧ node ≠ "-" := by
  simp only [SExpr.Apart, List.isChain_cons_cons, fuse?_atom_eq_none, List.IsChain.singleton,
    and_true]
  constructor
  · rintro ⟨⟨notHyphen, -⟩, other, ending⟩
    exact ⟨ending.resolve_left notHyphen, other⟩
  · rintro ⟨ending, other⟩
    refine ⟨⟨?_, .inr (by decide)⟩, other, .inr ending⟩
    rintro rfl
    exact ending rfl

theorem Space.lists_fieldSExpr {s : Space} {field node : String}
    (mapped : (field, node) ∈ s.fields) : s.toSExpr.Lists (fieldSExpr field node) :=
  ⟨_, rfl, List.mem_append_right _ (List.mem_map.mpr ⟨(field, node), mapped, rfl⟩)⟩

theorem Space.lists_field_iff (s : Space) (field node : String) :
    s.toSExpr.Lists (.list [.atom "field", .atom field, .atom node]) ↔
      (field, node) ∈ s.fields ∧ SExpr.Apart [.atom "field", .atom field, .atom node] := by
  have whole (entry : String × String) :
      fieldSExpr entry.1 entry.2 = .list [.atom "field", .atom field, .atom node] ↔
        SExpr.Apart [.atom "field", .atom entry.1, .atom entry.2] ∧ (field, node) = entry := by
    rw [fieldSExpr, phrase_eq_list_iff _ _ _ rfl]
    simp [Prod.ext_iff]
  constructor
  · rintro ⟨items, shape, member⟩
    rw [toSExpr, SExpr.list.injEq] at shape
    rw [← shape] at member
    simp only [List.mem_append, List.mem_map, List.mem_cons, dimensionSExpr] at member
    -- Before the fields there are atoms, and dimensions as lists of four.
    rcases member with (((same | same | same) | ⟨d, -, same⟩) | ⟨entry, inside, same⟩)
    · cases same
    · cases same
    · cases same
    · simp at same
    · obtain ⟨apart, rfl⟩ := (whole entry).mp same
      exact ⟨inside, apart⟩
  · rintro ⟨inside, apart⟩
    rw [← (whole (field, node)).mpr ⟨apart, rfl⟩]
    exact lists_fieldSExpr inside

theorem Context.apart_packFailed_iff (failed : FailedPack) (b : Branch) :
    SExpr.Apart [.atom "failed-pack", .atom b.text, .atom failed.state,
        .ofQuoted failed.invariant] ↔
      failed.state.toList.getLast? ≠ some '-' := by
  have quoted : "\"" ++ failed.invariant ++ "\"" ≠ "-" := by
    intro same
    have first := congrArg (·.toList.head?) same
    simp at first
  simp only [SExpr.Apart, List.isChain_cons_cons, ofQuoted, fuse?_atom_eq_none,
    List.IsChain.singleton, and_true]
  constructor
  · rintro ⟨-, ⟨notHyphen, -⟩, -, ending⟩
    exact ending.resolve_left notHyphen
  · intro ending
    refine ⟨⟨b.text_ne_hyphen, .inr (by decide)⟩, ⟨?_, .inr b.text_ends⟩, quoted, .inr ending⟩
    intro same
    rw [same] at ending
    exact ending rfl

namespace SExpr

/-- The entry of a field is written as three parts exactly if the name of the field does not end in
a hyphen and its node is not called one. A failure to pack is written as four parts exactly if the
name of its state does not end in a hyphen. -/
theorem written_apart_iff (s : Space) {field node : String} (mapped : (field, node) ∈ s.fields)
    (failed : FailedPack) (b : Branch) :
    (s.toSExpr.Lists (.list [.atom "field", .atom field, .atom node]) ↔
      field.toList.getLast? ≠ some '-' ∧ node ≠ "-") ∧
    ((Context.packFailed failed b).toSExpr =
        .list [.atom "failed-pack", .atom b.text, .atom failed.state,
          .ofQuoted failed.invariant] ↔
      failed.state.toList.getLast? ≠ some '-') := by
  constructor
  · rw [s.lists_field_iff, Space.apart_field_iff, and_iff_right mapped]
  · rw [Context.toSExpr, phrase_eq_list_iff _ _ _ rfl, Context.apart_packFailed_iff,
      and_iff_left rfl]

/-- A number with a sign, to which fields of its own belong. -/
def signed : Space :=
  { ((Space.Draft.new "Number").addDimension (some "sign") alive ["-", "+"] false).1.space with
    fieldNodes := ((SortedMap.empty.insert "digits" "+").insert "carry-" "+").insert "debt" "-" }

theorem signed_built : signed.Built := by
  have named := Space.Draft.Made.addDimension (.new "Number") (some "sign") alive ["-", "+"] false
  have digits := named.mapField (show Space.Draft.mapField _ "digits" "+" = .ok _ from rfl)
  have carry := digits.mapField (show Space.Draft.mapField _ "carry-" "+" = .ok _ from rfl)
  exact ⟨_, carry.mapField (show Space.Draft.mapField _ "debt" "-" = .ok _ from rfl), rfl⟩

theorem signed_written_apart :
    ("digits", "+") ∈ signed.fields ∧
      signed.toSExpr.Lists (.list [.atom "field", .atom "digits", .atom "+"]) ∧
      (Context.packFailed ⟨"open", "true"⟩ .root).toSExpr =
        .list [.atom "failed-pack", .atom Branch.root.text, .atom "open", .ofQuoted "true"] := by
  have mapped : ("digits", "+") ∈ signed.fields := by decide +kernel
  obtain ⟨entry, failure⟩ := written_apart_iff signed mapped ⟨"open", "true"⟩ .root
  exact ⟨mapped, entry.mpr (by decide), failure.mpr (by decide)⟩

/-- Two of the fields and a failure for a state are written with fewer parts than they have. -/
theorem hyphens_join_names :
    signed.Built ∧
      (("carry-", "+") ∈ signed.fields ∧
        signed.toSExpr.Lists (.list [.atom "field", .atom "carry-+"]) ∧
        ¬signed.toSExpr.Lists (.list [.atom "field", .atom "carry-", .atom "+"])) ∧
      (("debt", "-") ∈ signed.fields ∧
        signed.toSExpr.Lists (.list [.atom "field", .atom "debt-"]) ∧
        ¬signed.toSExpr.Lists (.list [.atom "field", .atom "debt", .atom "-"])) ∧
      (Context.packFailed ⟨"open-", "true"⟩ .root).toSExpr =
        .list [.atom "failed-pack", .atom "c0/c0", .atom "open-\"true\""] ∧
      (Context.packFailed ⟨"open-", "true"⟩ .root).toSExpr ≠
        .list [.atom "failed-pack", .atom Branch.root.text, .atom "open-", .ofQuoted "true"] := by
  have carry : ("carry-", "+") ∈ signed.fields := by decide +kernel
  have debt : ("debt", "-") ∈ signed.fields := by decide +kernel
  have failure : (Context.packFailed ⟨"open-", "true"⟩ .root).toSExpr =
      .list [.atom "failed-pack", .atom "c0/c0", .atom "open-\"true\""] := rfl
  refine ⟨signed_built, ⟨carry, Space.lists_fieldSExpr carry, ?_⟩,
    ⟨debt, Space.lists_fieldSExpr debt, ?_⟩, failure, ?_⟩
  · rw [Space.lists_field_iff, Space.apart_field_iff]
    decide
  · rw [Space.lists_field_iff, Space.apart_field_iff]
    decide
  · rw [failure]
    simp

end SExpr

end Typestate

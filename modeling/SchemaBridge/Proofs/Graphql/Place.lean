import Mathlib.Data.List.Nodup
import Mathlib.Tactic.SplitIfs
import SchemaBridge.Proofs.Graphql.FieldMap

/-!
# Places

Two fields of a document may look alike. What tells them apart is where they stand.

* `Place`, `Place.Beneath`: where a selection stands in a document, and whether it stands beneath
  another one;
* `Node`, `nodes`: the fields of a selection tree with their places, each once
  (`nodup_place_nodes`). Spreads are not followed;
* `StandApart`: fields of which none stands in the place of another one, or beneath it;
* `Document.nodesOf`, `Document.visited`: the nodes of one definition, and those of one name in
  the order in which an edit comes to them, each once (`Document.nodup_place_visited`).
-/

namespace SchemaBridge.Graphql

/-- Where a selection stands: in which definition, at which index among its siblings, and the
indices of the selections that it stands beneath, the nearest first. -/
structure Place where
  definition : Nat
  index : Nat
  above : List Nat
deriving DecidableEq

namespace Place

/-- The place of the first selection of a definition. -/
def root (k : Nat) : Place :=
  ⟨k, 0, []⟩

/-- The place of the next sibling. -/
def next (p : Place) : Place :=
  { p with index := p.index + 1 }

/-- The place of the first selection beneath. -/
def beneath (p : Place) : Place :=
  ⟨p.definition, 0, p.index :: p.above⟩

/-- The place is that of a selection, of a later sibling of it, or of something beneath these. -/
def From (q p : Place) : Prop :=
  q.definition = p.definition ∧
    ∃ below i, q.index :: q.above = below ++ i :: p.above ∧ p.index ≤ i

/-- A selection stands where it stands. -/
theorem from_self (p : Place) : p.From p :=
  ⟨rfl, [], p.index, rfl, Nat.le_refl _⟩

/-- What follows a later sibling follows the selection. -/
theorem From.of_next {q p : Place} (h : q.From p.next) : q.From p := by
  obtain ⟨hdefinition, below, i, hpath, hle⟩ := h
  exact ⟨hdefinition, below, i, hpath, Nat.le_of_succ_le hle⟩

/-- What stands beneath a selection follows it. -/
theorem From.of_beneath {q p : Place} (h : q.From p.beneath) : q.From p := by
  obtain ⟨hdefinition, below, i, hpath, -⟩ := h
  refine ⟨hdefinition, below ++ [i], p.index, ?_, Nat.le_refl _⟩
  rw [hpath, List.append_assoc]
  rfl

/-- A selection does not stand beneath itself. -/
theorem not_from_beneath (p : Place) : ¬ p.From p.beneath := by
  rintro ⟨-, below, i, hpath, -⟩
  have := congrArg List.length hpath
  simp only [beneath, List.length_append, List.length_cons] at this
  omega

/-- A selection does not follow its siblings. -/
theorem not_from_next (p : Place) : ¬ p.From p.next := by
  rintro ⟨-, below, i, hpath, hle⟩
  cases below with
  | nil =>
      have hindex : p.index = i := (List.cons.inj hpath).1
      simp only [next] at hle
      omega
  | cons j below =>
      have := congrArg List.length hpath
      simp only [next, List.length_append, List.length_cons] at this
      omega

/-- What stands beneath a selection does not follow its siblings. -/
theorem From.not_next_of_beneath {q p : Place} (h : q.From p.beneath) : ¬ q.From p.next := by
  rintro ⟨-, below, i, hpath, hle⟩
  obtain ⟨-, below', i', hpath', -⟩ := h
  -- the index at the level of the siblings is that of the selection, and not a later one
  have heq : below' ++ [i'] ++ [p.index] ++ p.above = below ++ [i] ++ p.above := by
    simpa [beneath, next] using hpath'.symm.trans hpath
  have hindex : p.index = i := (List.append_singleton_inj.mp (List.append_cancel_right heq)).2
  simp only [next] at hle
  omega

/-- A selection stands beneath another one, at any depth. -/
def Beneath (q p : Place) : Prop :=
  q.definition = p.definition ∧ p.index :: p.above <:+ q.above

instance (q p : Place) : Decidable (q.Beneath p) :=
  inferInstanceAs (Decidable (_ ∧ _))

/-- What stands beneath a selection follows the place of the first one there. -/
theorem beneath_iff {q p : Place} : q.Beneath p ↔ q.From p.beneath := by
  constructor
  · rintro ⟨hdefinition, between, habove⟩
    refine ⟨hdefinition, ?_⟩
    rcases List.eq_nil_or_concat between with rfl | ⟨below, i, rfl⟩
    · exact ⟨[], q.index, congrArg (q.index :: ·) habove.symm, Nat.zero_le _⟩
    · refine ⟨q.index :: below, i, ?_, Nat.zero_le _⟩
      rw [← habove, List.concat_eq_append, List.append_assoc]
      rfl
  · rintro ⟨hdefinition, below, i, hpath, -⟩
    refine ⟨hdefinition, ?_⟩
    cases below with
    | nil => exact (List.cons.inj hpath).2 ▸ List.suffix_rfl
    | cons j below =>
        refine ⟨below ++ [i], ?_⟩
        rw [(List.cons.inj hpath).2, List.append_assoc]
        rfl

/-- What follows a selection that follows another one follows that one. -/
theorem From.trans {r q p : Place} (h : r.From q) (h' : q.From p) : r.From p := by
  obtain ⟨hdefinition, below, i, hpath, hle⟩ := h
  obtain ⟨hdefinition', below', i', hpath', hle'⟩ := h'
  refine ⟨hdefinition.trans hdefinition', ?_⟩
  cases below' with
  | nil =>
      obtain ⟨rfl, habove⟩ := List.cons.inj hpath'
      exact ⟨below, i, habove ▸ hpath, Nat.le_trans hle' hle⟩
  | cons j below' =>
      refine ⟨below ++ i :: below', i', ?_, hle'⟩
      rw [hpath, (List.cons.inj hpath').2, List.append_assoc]
      rfl

/-- What stands beneath a selection follows whatever that one follows. -/
theorem Beneath.from {r q p : Place} (h : r.Beneath q) (h' : q.From p) : r.From p :=
  (beneath_iff.mp h).trans (q.beneath.from_self.of_beneath.trans h')

end Place

/-! ### The nodes of a document -/

/-- A field where it stands, with the selections beneath it. -/
structure Node where
  place : Place
  head : Field
  selections : List Selection

/-- The fields in selections of which the first stands at a place. -/
def nodes (p : Place) : List Selection → List Node
  | [] => []
  | .field head selections :: rest =>
    ⟨p, head, selections⟩ :: (nodes p.beneath selections ++ nodes p.next rest)
  | .inlineFragment _ _ selections :: rest => nodes p.beneath selections ++ nodes p.next rest
  | .spread _ _ :: rest => nodes p.next rest

/-- The fields of a name among some. -/
def named (name : String) (xs : List Node) : List Node :=
  xs.filter fun x => x.head.name = name

/-- A field is among those of a name if it has the name. -/
@[simp] theorem mem_named {name : String} {xs : List Node} {x : Node} :
    x ∈ named name xs ↔ x ∈ xs ∧ x.head.name = name := by
  simp [named]

/-- A field of the name is among those of the name. -/
theorem named_cons_of_eq {name : String} {x : Node} (h : x.head.name = name) (xs : List Node) :
    named name (x :: xs) = x :: named name xs := by
  simp [named, h]

/-- A field of another name is not among those of the name. -/
theorem named_cons_of_ne {name : String} {x : Node} (h : x.head.name ≠ name) (xs : List Node) :
    named name (x :: xs) = named name xs := by
  simp [named, h]

/-- The fields of a name in two parts. -/
@[simp] theorem named_append (name : String) (xs ys : List Node) :
    named name (xs ++ ys) = named name xs ++ named name ys :=
  List.filter_append ..

/-- The fields in selections follow the place of the first. -/
theorem from_of_mem_nodes {p : Place} {selections : List Selection} {x : Node}
    (h : x ∈ nodes p selections) : x.place.From p := by
  induction p, selections using nodes.induct with
  | case1 p => simp [nodes] at h
  | case2 p head selections rest ihBeneath ihRest =>
      rw [nodes] at h
      rcases List.mem_cons.mp h with rfl | h
      · exact p.from_self
      rcases List.mem_append.mp h with h | h
      · exact (ihBeneath h).of_beneath
      · exact (ihRest h).of_next
  | case3 p condition? ds selections rest ihBeneath ihRest =>
      rw [nodes] at h
      rcases List.mem_append.mp h with h | h
      · exact (ihBeneath h).of_beneath
      · exact (ihRest h).of_next
  | case4 p fragment ds rest ihRest =>
      rw [nodes] at h
      exact (ihRest h).of_next

/-- Of the fields in two lists none is, or stands beneath, one in the other list. -/
def StandApart (xs ys : List Node) : Prop :=
  ∀ x ∈ xs, ∀ y ∈ ys, x.place ≠ y.place ∧ ¬ x.place.Beneath y.place ∧ ¬ y.place.Beneath x.place

/-- Fields that are apart stand at different places. -/
theorem StandApart.disjoint {xs ys : List Node} (h : StandApart xs ys) :
    List.Disjoint (xs.map Node.place) (ys.map Node.place) := by
  intro q hxs hys
  obtain ⟨x, hx, rfl⟩ := List.mem_map.mp hxs
  obtain ⟨y, hy, hplace⟩ := List.mem_map.mp hys
  exact (h x hx y hy).1 hplace.symm

/-- Some of the fields that are apart are apart. -/
theorem StandApart.named {xs ys : List Node} (h : StandApart xs ys) (name : String) :
    StandApart (named name xs) (named name ys) :=
  fun x hx y hy => h x (mem_named.mp hx).1 y (mem_named.mp hy).1

/-- Fields beneath a selection and fields beside it are apart. -/
theorem standApart_beneath_next (p : Place) (selections rest : List Selection) :
    StandApart (nodes p.beneath selections) (nodes p.next rest) := by
  intro x hx y hy
  have hx := from_of_mem_nodes hx
  have hy := from_of_mem_nodes hy
  refine ⟨fun h => ?_, fun h => ?_, fun h => ?_⟩
  · exact hx.not_next_of_beneath (h ▸ hy)
  · exact hx.not_next_of_beneath (h.from hy)
  · exact (h.from hx).not_next_of_beneath hy

/-- A field, those beneath it and those beside it: the first two are apart from the third. -/
theorem standApart_cons_next (p : Place) (head : Field) (selections rest : List Selection) :
    StandApart (⟨p, head, selections⟩ :: nodes p.beneath selections) (nodes p.next rest) := by
  intro x hx y hy
  rcases List.mem_cons.mp hx with rfl | hx
  · have hy := from_of_mem_nodes hy
    refine ⟨fun h => ?_, fun h => ?_, fun h => ?_⟩
    · exact p.not_from_next ((congrArg (Place.From · p.next) h).mpr hy)
    · exact p.not_from_next (h.from hy)
    · exact (Place.beneath_iff.mp h).not_next_of_beneath hy
  · exact standApart_beneath_next p selections rest x hx y hy

/-- The fields in selections stand at different places. -/
theorem nodup_place_nodes (p : Place) (selections : List Selection) :
    ((nodes p selections).map Node.place).Nodup := by
  induction p, selections using nodes.induct with
  | case1 p =>
      rw [nodes]
      exact List.nodup_nil
  | case2 p head selections rest ihBeneath ihRest =>
      rw [nodes, ← List.cons_append, List.map_append]
      refine List.Nodup.append ?_ ihRest (standApart_cons_next p head selections rest).disjoint
      rw [List.map_cons, List.nodup_cons]
      refine ⟨fun h => ?_, ihBeneath⟩
      obtain ⟨x, hx, hplace⟩ := List.mem_map.mp h
      have hfrom := from_of_mem_nodes hx
      rw [hplace] at hfrom
      exact p.not_from_beneath hfrom
  | case3 p condition? ds selections rest ihBeneath ihRest =>
      rw [nodes, List.map_append]
      exact ihBeneath.append ihRest (standApart_beneath_next p selections rest).disjoint
  | case4 p fragment ds rest ihRest =>
      rw [nodes]
      exact ihRest

/-- The selections of a definition. -/
def Definition.selections : Definition → List Selection
  | .operation o => o.selections
  | .fragment f => f.selections

/-- The fields of the definition at an index, if there is one. -/
def Document.nodesOf (d : Document) (k : Nat) : List Node :=
  match d.definitions[k]? with
  | none => []
  | some definition => nodes (.root k) definition.selections

/-- The fields of the definition at an index. -/
theorem Document.mem_nodesOf {d : Document} {k : Nat} {x : Node} :
    x ∈ d.nodesOf k ↔ ∃ definition, d.definitions[k]? = some definition ∧
      x ∈ nodes (.root k) definition.selections := by
  rw [nodesOf]
  cases d.definitions[k]? <;> simp

/-- Whether a definition is an operation. -/
def Definition.isOperation : Definition → Bool
  | .operation _ => true
  | .fragment _ => false

/-- The fields of some of the definitions in a list of which the first has an index. -/
def nodesWhere (keep : Definition → Bool) : Nat → List Definition → List Node
  | _, [] => []
  | k, definition :: rest =>
    (if keep definition then nodes (.root k) definition.selections else []) ++
      nodesWhere keep (k + 1) rest

/-- The fields of a name in a document in the order of an edit: those of all operations, then
those of all fragments. -/
def Document.visited (d : Document) (name : String) : List Node :=
  named name (nodesWhere Definition.isOperation 0 d.definitions ++
    nodesWhere (fun definition => !definition.isOperation) 0 d.definitions)

/-- The fields of some definitions, one definition after the other. -/
theorem mem_nodesWhere {keep : Definition → Bool} {k : Nat} {definitions : List Definition}
    {x : Node} :
    x ∈ nodesWhere keep k definitions ↔ ∃ i definition, definitions[i]? = some definition ∧
      keep definition = true ∧ x ∈ nodes (.root (k + i)) definition.selections := by
  induction definitions generalizing k with
  | nil => simp [nodesWhere]
  | cons definition rest ih =>
      rw [nodesWhere, List.mem_append, ih]
      constructor
      · rintro (h | ⟨i, definition', hi, hkeep, hx⟩)
        · split at h
          · exact ⟨0, definition, rfl, ‹_›, h⟩
          · exact absurd h List.not_mem_nil
        · refine ⟨i + 1, definition', hi, hkeep, ?_⟩
          rwa [Nat.add_right_comm] at hx
      · rintro ⟨i, definition', hi, hkeep, hx⟩
        cases i with
        | zero =>
            obtain rfl : definition = definition' := Option.some.inj hi
            rw [if_pos hkeep]
            exact .inl hx
        | succ i =>
            refine .inr ⟨i, definition', hi, hkeep, ?_⟩
            rwa [Nat.add_right_comm]

/-- Fields of different definitions are apart. -/
theorem standApart_of_definition_ne {xs ys : List Node}
    (h : ∀ x ∈ xs, ∀ y ∈ ys, x.place.definition ≠ y.place.definition) : StandApart xs ys :=
  fun x hx y hy => ⟨fun heq => h x hx y hy (congrArg Place.definition heq),
    fun hbeneath => h x hx y hy hbeneath.1, fun hbeneath => h x hx y hy hbeneath.1.symm⟩

/-- The fields of one definition and those of later ones are apart. -/
theorem standApart_nodesWhere {keep : Definition → Bool} {k l : Nat} (definition : Definition)
    (definitions : List Definition) (h : k < l) :
    StandApart (nodes (.root k) definition.selections) (nodesWhere keep l definitions) := by
  refine standApart_of_definition_ne fun x hx y hy heq => ?_
  obtain ⟨i, definition', -, -, hy⟩ := mem_nodesWhere.mp hy
  rw [(from_of_mem_nodes hx).1, (from_of_mem_nodes hy).1] at heq
  simp only [Place.root] at heq
  omega

/-- The fields of operations and those of fragments are apart. -/
theorem standApart_operations_fragments (k : Nat) (definitions : List Definition) :
    StandApart (nodesWhere Definition.isOperation k definitions)
      (nodesWhere (fun definition => !definition.isOperation) k definitions) := by
  refine standApart_of_definition_ne fun x hx y hy heq => ?_
  obtain ⟨i, definition, hi, hoperation, hx⟩ := mem_nodesWhere.mp hx
  obtain ⟨j, definition', hj, hfragment, hy⟩ := mem_nodesWhere.mp hy
  have hindex : i = j := by
    rw [(from_of_mem_nodes hx).1, (from_of_mem_nodes hy).1] at heq
    simpa [Place.root] using heq
  rw [hindex, hj] at hi
  obtain rfl := Option.some.inj hi
  simp [hoperation] at hfragment

/-- The fields of some definitions stand at different places. -/
theorem nodup_place_nodesWhere (keep : Definition → Bool) (k : Nat)
    (definitions : List Definition) :
    ((nodesWhere keep k definitions).map Node.place).Nodup := by
  induction definitions generalizing k with
  | nil => exact List.nodup_nil
  | cons definition rest ih =>
      rw [nodesWhere, List.map_append]
      split_ifs
      · exact (nodup_place_nodes _ _).append (ih (k + 1))
          (standApart_nodesWhere definition rest k.lt_succ_self).disjoint
      · exact ih (k + 1)

namespace Document

/-- The fields of a name are those of that name in any definition. -/
theorem mem_visited {d : Document} {name : String} {x : Node} :
    x ∈ d.visited name ↔ x.head.name = name ∧ ∃ k, x ∈ d.nodesOf k := by
  rw [visited, mem_named, and_comm, List.mem_append, mem_nodesWhere, mem_nodesWhere]
  simp only [mem_nodesOf, Nat.zero_add]
  refine and_congr_right fun _ => ⟨?_, ?_⟩
  · rintro (⟨k, definition, hk, -, hx⟩ | ⟨k, definition, hk, -, hx⟩)
    · exact ⟨k, definition, hk, hx⟩
    · exact ⟨k, definition, hk, hx⟩
  · rintro ⟨k, definition, hk, hx⟩
    cases hkind : definition.isOperation with
    | true => exact .inl ⟨k, definition, hk, hkind, hx⟩
    | false => exact .inr ⟨k, definition, hk, by simp [hkind], hx⟩

/-- An edit comes to every field once. -/
theorem nodup_place_visited (d : Document) (name : String) :
    ((d.visited name).map Node.place).Nodup := by
  refine List.Nodup.sublist (List.Sublist.map _ List.filter_sublist) ?_
  rw [List.map_append]
  exact (nodup_place_nodesWhere _ _ _).append (nodup_place_nodesWhere _ _ _)
    (standApart_operations_fragments 0 d.definitions).disjoint

end Document

end SchemaBridge.Graphql

import Mathlib.Data.List.Nodup
import Mathlib.Data.List.Perm.Basic
import SchemaBridge.Proofs.Graphql.FieldMap
import SchemaBridge.Proofs.Graphql.Reachability

/-!
# Documents in another order

The definitions of a document are looked up by their names, and no two fragments are meant to share
one. Where the definitions stand then makes no difference to a walk.

* `Document.reordered`: the document with its definitions in another order;
* `Fragment.named?_perm`: a name refers to the same fragment, wherever that stands;
* `walk_congr_of_mentions`: a walk depends on what the names refer to that are within its reach, and
  on nothing else of the fragments;
* `Document.walk_reordered`: the walk through an operation stays.
-/

namespace SchemaBridge.Graphql

/-! ### Fragments by name -/

/-- A name refers to nothing exactly if no fragment has it. -/
theorem Fragment.named?_eq_none_iff {name : String} {fs : List Fragment} :
    Fragment.named? name fs = none ↔ ∀ f ∈ fs, f.name ≠ name := by
  induction fs with
  | nil => simp [named?]
  | cons g rest ih =>
      rw [named?, List.forall_mem_cons, ← ih]
      cases named? name rest with
      | some later => simp
      | none => simp

/-- A name refers to a fragment that has it. -/
theorem Fragment.mem_of_named? {name : String} {fs : List Fragment} {f : Fragment}
    (h : Fragment.named? name fs = some f) : f ∈ fs ∧ f.name = name := by
  induction fs with
  | nil => simp [named?] at h
  | cons g rest ih =>
      rw [named?] at h
      cases hrest : named? name rest with
      | some later =>
          rw [hrest] at h
          obtain ⟨hmem, hname⟩ := ih (hrest.trans h)
          exact ⟨List.mem_cons_of_mem _ hmem, hname⟩
      | none =>
          rw [hrest] at h
          by_cases hname : g.name = name
          · obtain rfl : g = f := by simpa [hname] using h
            exact ⟨List.mem_cons_self, hname⟩
          · simp [hname] at h

/-- If no two fragments share a name, a name refers to the one that has it. -/
theorem Fragment.named?_eq_some_iff {fs : List Fragment} (hnodup : (fs.map (·.name)).Nodup)
    {name : String} {f : Fragment} :
    Fragment.named? name fs = some f ↔ f ∈ fs ∧ f.name = name := by
  refine ⟨mem_of_named?, fun ⟨hmem, hname⟩ => ?_⟩
  cases h : named? name fs with
  | none => exact absurd hname (named?_eq_none_iff.mp h f hmem)
  | some g =>
      obtain ⟨hg, hgname⟩ := mem_of_named? h
      exact congrArg some (List.inj_on_of_nodup_map hnodup hg hmem (hgname.trans hname.symm))

/-- If no two fragments share a name, a name refers to the same fragment in any order. -/
theorem Fragment.named?_perm {fs gs : List Fragment} (hperm : fs.Perm gs)
    (hnodup : (fs.map (·.name)).Nodup) (name : String) :
    Fragment.named? name fs = Fragment.named? name gs := by
  refine Option.ext fun f => ?_
  have hnodup' : (gs.map (·.name)).Nodup := (hperm.map _).nodup_iff.mp hnodup
  rw [named?_eq_some_iff hnodup, named?_eq_some_iff hnodup', hperm.mem_iff]

/-! ### Walks -/

/-- A name is spread in selections, or in a fragment that a chain of spreads leads to from there. -/
def Mentions (available : List Fragment) (selections : List Selection) (name : String) : Prop :=
  name ∈ spreadNames selections ∨
    ∃ other f, ChainsTo available selections other f ∧ name ∈ spreadNames f.selections

/-- What is mentioned in some selections is mentioned in more. -/
theorem Mentions.mono {available : List Fragment} {selections selections' : List Selection}
    (hspread : spreadNames selections ⊆ spreadNames selections') {name : String}
    (h : Mentions available selections name) : Mentions available selections' name := by
  obtain hname | ⟨other, f, hchain, hname⟩ := h
  · exact .inl (hspread hname)
  · exact .inr ⟨other, f, hchain.mono (fun _ _ => id) hspread, hname⟩

/-- What is mentioned in either of two parts is mentioned in the whole. -/
theorem Mentions.of_append {available : List Fragment}
    {selections beneath after : List Selection} {name : String}
    (hspread : spreadNames selections = spreadNames beneath ++ spreadNames after)
    (h : Mentions available beneath name ∨ Mentions available after name) :
    Mentions available selections name := by
  obtain h | h := h
  · exact h.mono (hspread ▸ List.subset_append_left _ _)
  · exact h.mono (hspread ▸ List.subset_append_right _ _)

/-- What is mentioned after a spread is mentioned in the selections that begin with it. -/
theorem Mentions.after_spread {available : List Fragment} {rest : List Selection} {other : String}
    (h : Mentions available rest other) (name : String) (ds : List Directive) :
    Mentions available (.spread name ds :: rest) other := by
  refine h.mono ?_
  rw [spreadNames]
  exact List.subset_cons_self _ _

/-- What is mentioned among the fragments of other names is mentioned among all. -/
theorem Mentions.of_without {available : List Fragment} {selections : List Selection}
    {other name : String} (h : Mentions (Fragment.without other available) selections name) :
    Mentions available selections name := by
  refine h.imp_right fun ⟨through, f, hchain, hname⟩ => ⟨through, f, ?_, hname⟩
  exact hchain.mono (fun _ _ => Fragment.named?_of_without) (List.Subset.refl _)

/-- What is mentioned in a fragment is mentioned where it is spread. -/
theorem Mentions.of_spread {available : List Fragment} {selections : List Selection}
    {first name : String} {f : Fragment} (hfirst : first ∈ spreadNames selections)
    (hf : Fragment.named? first available = some f) (h : Mentions available f.selections name) :
    Mentions available selections name := by
  obtain hname | ⟨other, g, hchain, hname⟩ := h
  · exact .inr ⟨first, f, .spread hfirst hf, hname⟩
  · exact .inr ⟨other, g, .of_spread hfirst hf hchain, hname⟩

/-- A chain leads to a fragment that is mentioned. -/
theorem Mentions.chainsTo {available : List Fragment} {selections : List Selection} {name : String}
    {f : Fragment} (h : Mentions available selections name)
    (hf : Fragment.named? name available = some f) : ChainsTo available selections name f := by
  obtain hname | ⟨other, g, hchain, hname⟩ := h
  · exact .spread hname hf
  · exact .onward hchain hname hf

/-- A walk depends on what the names refer to that are mentioned in the selections, and on nothing
else of the available fragments. -/
theorem walk_congr_of_mentions {available available' : List Fragment} {path : List String}
    {selections : List Selection} (h : ∀ name, Mentions available selections name →
      Fragment.named? name available = Fragment.named? name available') :
    walk available path selections = walk available' path selections := by
  induction available, path, selections using walk.induct generalizing available' with
  | case1 available path => rw [walk, walk]
  | case2 available path head selections rest ihBeneath ihRest =>
      have hmentions : ∀ {name}, Mentions available selections name ∨ Mentions available rest name →
          Mentions available (.field head selections :: rest) name :=
        Mentions.of_append (by rw [spreadNames])
      rw [walk, walk, ihBeneath fun name hname => h name (hmentions (.inl hname)),
        ihRest fun name hname => h name (hmentions (.inr hname))]
  | case3 available path condition? ds selections rest ihBeneath ihRest =>
      have hmentions : ∀ {name}, Mentions available selections name ∨ Mentions available rest name →
          Mentions available (.inlineFragment condition? ds selections :: rest) name :=
        Mentions.of_append (by rw [spreadNames])
      rw [walk, walk, ihBeneath fun name hname => h name (hmentions (.inl hname)),
        ihRest fun name hname => h name (hmentions (.inr hname))]
  | case4 available path name ds rest found ihRest =>
      have hmem : name ∈ spreadNames (.spread name ds :: rest) := by
        rw [spreadNames]
        exact List.mem_cons_self
      have found' : Fragment.named? name available' = none := (h name (.inl hmem)).symm.trans found
      rw [walk_spread_of_none found, walk_spread_of_none found',
        ihRest fun other hother => h other (hother.after_spread name ds)]
  | case5 available path name ds rest fragment found _ ihFragment ihRest =>
      have hmem : name ∈ spreadNames (.spread name ds :: rest) := by
        rw [spreadNames]
        exact List.mem_cons_self
      have found' : Fragment.named? name available' = some fragment :=
        (h name (.inl hmem)).symm.trans found
      have hwithout : ∀ other,
          Mentions (Fragment.without name available) fragment.selections other →
          Fragment.named? other (Fragment.without name available) =
            Fragment.named? other (Fragment.without name available') := by
        intro other hother
        rw [Fragment.named?_without, Fragment.named?_without,
          h other (hother.of_without.of_spread hmem found)]
      rw [walk_spread_of_some found, walk_spread_of_some found', ihFragment hwithout,
        ihRest fun other hother => h other (hother.after_spread name ds)]

/-- A walk depends on what names refer to, and on nothing else of the available fragments. -/
theorem walk_congr {available available' : List Fragment}
    (h : ∀ name, Fragment.named? name available = Fragment.named? name available')
    (path : List String) (selections : List Selection) :
    walk available path selections = walk available' path selections :=
  walk_congr_of_mentions fun name _ => h name

/-! ### Definitions in another order -/

/-- The elements of a list at all its indices are the list. -/
theorem filterMap_getElem?_range {α : Type} (l : List α) :
    (List.range l.length).filterMap (fun k => l[k]?) = l := by
  induction l with
  | nil => rfl
  | cons a rest ih =>
      rw [List.length_cons, List.range_succ_eq_map, List.filterMap_cons, List.filterMap_map]
      simpa using ih

/-- The elements of a list at all its indices, in any order, are those of the list. -/
theorem filterMap_getElem?_perm {α : Type} {l : List α} {order : List Nat}
    (h : order.Perm (List.range l.length)) : (order.filterMap fun k => l[k]?).Perm l :=
  (h.filterMap _).trans (.of_eq (filterMap_getElem?_range l))

namespace Document

/-- The document with its definitions in another order: `order` tells for each place the index of
the definition that comes to stand there. -/
def reordered (d : Document) (order : List Nat) : Document :=
  ⟨order.filterMap fun k => d.definitions[k]?⟩

variable {d : Document} {order : List Nat}

/-- A change of each definition may be made before or after. -/
theorem map_reordered (f : Definition → Definition) (d : Document) (order : List Nat) :
    (⟨(d.reordered order).definitions.map f⟩ : Document) =
      (⟨d.definitions.map f⟩ : Document).reordered order := by
  simp [reordered, List.map_filterMap]

/-- The operations are the same, in another order. -/
theorem operations_reordered (h : order.Perm (List.range d.definitions.length)) :
    (d.reordered order).operations.Perm d.operations :=
  (filterMap_getElem?_perm h).filterMap _

/-- The fragments are the same, in another order. -/
theorem fragments_reordered (h : order.Perm (List.range d.definitions.length)) :
    (d.reordered order).fragments.Perm d.fragments :=
  (filterMap_getElem?_perm h).filterMap _

/-- A change of each field may be made before or after. -/
theorem mapFields_reordered (f : Field → Field) (d : Document) (order : List Nat) :
    (d.reordered order).mapFields f = (d.mapFields f).reordered order :=
  map_reordered (Definition.mapFields f) d order

/-- If no two fragments share a name, the walk through an operation stays. -/
theorem walk_reordered (hnames : (d.fragments.map (·.name)).Nodup)
    (h : order.Perm (List.range d.definitions.length)) (o : Operation) :
    (d.reordered order).walk o = d.walk o :=
  (walk_congr (Fragment.named?_perm (fragments_reordered h).symm hnames) [] o.selections).symm

end Document

end SchemaBridge.Graphql

import SchemaBridge.Proofs.Graphql.Reorder

/-!
# Fragments written out

A fragment may be written out where it is spread, as an inline fragment with its selections. As long
as it does not spread itself, the same fields are found.

* `WritesOut`: some spreads of a name are written out in selections, wherever they stand, or left
  out if the name refers to nothing; `Document.WritesOut` is the same for a document;
* `Step.met?`: what is met in a step of a walk, apart from the selections beneath it;
* `InStep.walk_writesOut`: a walk meets the same before and after;
* `Document.findFields_writesOut`: so does a search for fields.
-/

namespace SchemaBridge.Graphql

/-! ### Spreads written out -/

/-- Some spreads of a name, at any depth, are written out: an inline fragment with the selections of
the fragment that the name refers to, under any condition and any directives, takes the place of the
spread. If the name refers to nothing, the spread is left out. -/
inductive WritesOut (name : String) (fragment? : Option Fragment) :
    List Selection → List Selection → Prop
  | nil : WritesOut name fragment? [] []
  | field {head selections selections' rest rest'} :
      WritesOut name fragment? selections selections' → WritesOut name fragment? rest rest' →
      WritesOut name fragment? (.field head selections :: rest) (.field head selections' :: rest')
  | inlineFragment {condition? directives selections selections' rest rest'} :
      WritesOut name fragment? selections selections' → WritesOut name fragment? rest rest' →
      WritesOut name fragment? (.inlineFragment condition? directives selections :: rest)
        (.inlineFragment condition? directives selections' :: rest')
  | kept {other directives rest rest'} :
      WritesOut name fragment? rest rest' →
      WritesOut name fragment? (.spread other directives :: rest)
        (.spread other directives :: rest')
  | written {directives condition? directives' fragment rest rest'} :
      fragment? = some fragment → WritesOut name fragment? rest rest' →
      WritesOut name fragment? (.spread name directives :: rest)
        (.inlineFragment condition? directives' fragment.selections :: rest')
  | dropped {directives rest rest'} :
      fragment? = none → WritesOut name fragment? rest rest' →
      WritesOut name fragment? (.spread name directives :: rest) rest'

/-- Some spreads of a name are written out in a fragment. -/
inductive Fragment.WritesOut (name : String) (fragment? : Option Fragment) :
    Fragment → Fragment → Prop
  | intro {own condition directives selections selections'} :
      Graphql.WritesOut name fragment? selections selections' →
      Fragment.WritesOut name fragment? ⟨own, condition, directives, selections⟩
        ⟨own, condition, directives, selections'⟩

/-- Some spreads of a name are written out in a definition. -/
inductive Definition.WritesOut (name : String) (fragment? : Option Fragment) :
    Definition → Definition → Prop
  | operation {header? selections selections'} :
      Graphql.WritesOut name fragment? selections selections' →
      Definition.WritesOut name fragment? (.operation ⟨header?, selections⟩)
        (.operation ⟨header?, selections'⟩)
  | fragment {f f'} : Fragment.WritesOut name fragment? f f' →
      Definition.WritesOut name fragment? (.fragment f) (.fragment f')

/-- Some spreads of a name are written out in a document, in its operations and in its fragments. -/
def Document.WritesOut (d : Document) (name : String) (d' : Document) : Prop :=
  List.Forall₂ (Definition.WritesOut name (Fragment.named? name d.fragments)) d.definitions
    d'.definitions

section

variable {name : String} {fragment? : Option Fragment}

/-- Selections without a spread of the name stay. -/
theorem WritesOut.eq_of_not_mem {selections selections' : List Selection}
    (h : WritesOut name fragment? selections selections')
    (hname : name ∉ spreadNames selections) : selections' = selections := by
  induction h with
  | nil => rfl
  | field _ _ ihBeneath ihRest =>
      rw [spreadNames, List.mem_append, not_or] at hname
      rw [ihBeneath hname.1, ihRest hname.2]
  | inlineFragment _ _ ihBeneath ihRest =>
      rw [spreadNames, List.mem_append, not_or] at hname
      rw [ihBeneath hname.1, ihRest hname.2]
  | kept _ ihRest =>
      rw [spreadNames, List.mem_cons, not_or] at hname
      rw [ihRest hname.2]
  | written _ _ _ =>
      rw [spreadNames] at hname
      exact absurd List.mem_cons_self hname
  | dropped _ _ _ =>
      rw [spreadNames] at hname
      exact absurd List.mem_cons_self hname

/-- No spread need be written out. -/
theorem WritesOut.refl (selections : List Selection) :
    WritesOut name fragment? selections selections := by
  induction selections using spreadNames.induct with
  | case1 => exact .nil
  | case2 head selections rest ihBeneath ihRest => exact .field ihBeneath ihRest
  | case3 condition? ds selections rest ihBeneath ihRest => exact .inlineFragment ihBeneath ihRest
  | case4 other ds rest ihRest => exact .kept ihRest

/-- A fragment without a spread of the name stays. -/
theorem Fragment.WritesOut.eq_of_not_mem {f f' : Fragment}
    (h : Fragment.WritesOut name fragment? f f') (hname : name ∉ spreadNames f.selections) :
    f' = f := by
  obtain ⟨h⟩ := h
  rw [Graphql.WritesOut.eq_of_not_mem h hname]

/-- Fragments keep their names. -/
theorem Fragment.WritesOut.name_eq {f f' : Fragment} (h : Fragment.WritesOut name fragment? f f') :
    f'.name = f.name := by
  obtain ⟨-⟩ := h
  rfl

/-- A name refers to nothing before and after, or to a fragment in which spreads are written out. -/
theorem named?_writesOut {definitions definitions' : List Definition}
    (h : List.Forall₂ (Definition.WritesOut name fragment?) definitions definitions')
    (other : String) :
    (Fragment.named? other (Document.fragments ⟨definitions⟩) = none ∧
      Fragment.named? other (Document.fragments ⟨definitions'⟩) = none) ∨
    ∃ f f', Fragment.named? other (Document.fragments ⟨definitions⟩) = some f ∧
      Fragment.named? other (Document.fragments ⟨definitions'⟩) = some f' ∧
      Fragment.WritesOut name fragment? f f' := by
  induction h with
  | nil => exact .inl ⟨rfl, rfl⟩
  | @cons _ _ rest rest' hfirst _ ih =>
      cases hfirst with
      | operation _ => exact ih
      | @fragment g g' hg =>
          have hfragments : Document.fragments ⟨.fragment g :: rest⟩ =
            g :: Document.fragments ⟨rest⟩ := rfl
          have hfragments' : Document.fragments ⟨.fragment g' :: rest'⟩ =
            g' :: Document.fragments ⟨rest'⟩ := rfl
          rw [hfragments, hfragments', Fragment.named?, Fragment.named?, hg.name_eq]
          -- a later fragment of the name counts, if there is one
          obtain ⟨hnone, hnone'⟩ | ⟨f, f', hf, hf', hwrites⟩ := ih
          · rw [hnone, hnone']
            by_cases hname : g.name = other
            · exact .inr ⟨g, g', if_pos hname, if_pos hname, hg⟩
            · exact .inl ⟨if_neg hname, if_neg hname⟩
          · rw [hf, hf']
            exact .inr ⟨f, f', rfl, rfl, hwrites⟩

/-! ### Walks -/

/-- The path and the field that are met in a step of a walk. -/
def Step.met? : Step → Option (List String × Field)
  | .field occurrence => some (occurrence.path, occurrence.head)
  | .skipped _ => none

/-- The fragments that are available on two walks, the second one through selections in which
spreads of a name have been written out. The fragment that the name refers to does not spread
itself. -/
structure InStep (name : String) (fragment? : Option Fragment)
    (available available' : List Fragment) : Prop where
  alike : ∀ other,
    (Fragment.named? other available = none ∧ Fragment.named? other available' = none) ∨
    ∃ f f', Fragment.named? other available = some f ∧ Fragment.named? other available' = some f' ∧
      Fragment.WritesOut name fragment? f f'
  refers : Fragment.named? name available = fragment?
  acyclic : ∀ f, fragment? = some f → ¬ Mentions available f.selections name

namespace InStep

variable {available available' : List Fragment}

/-- The fragment of another name may be entered. -/
theorem without (h : InStep name fragment? available available') {other : String}
    (hne : name ≠ other) :
    InStep name fragment? (Fragment.without other available)
      (Fragment.without other available') := by
  refine ⟨fun through => ?_, ?_, fun f hf hmentions => h.acyclic f hf hmentions.of_without⟩
  · rw [Fragment.named?_without, Fragment.named?_without]
    by_cases hthrough : through = other
    · exact .inl ⟨if_pos hthrough, if_pos hthrough⟩
    · rw [if_neg hthrough, if_neg hthrough]
      exact h.alike through
  · rw [Fragment.named?_without, if_neg hne, h.refers]

/-- What is mentioned in the fragment of the name refers to the same before and after. -/
theorem named?_eq_of_mentions (h : InStep name fragment? available available') {f : Fragment}
    (hf : fragment? = some f) {other : String} (hother : Mentions available f.selections other) :
    Fragment.named? other available' = Fragment.named? other available := by
  obtain ⟨hnone, hnone'⟩ | ⟨g, g', hg, hg', hwrites⟩ := h.alike other
  · rw [hnone, hnone']
  · -- a fragment that is mentioned there does not spread the name, so that it stays
    have hname : name ∉ spreadNames g.selections := fun hname =>
      h.acyclic f hf (.inr ⟨other, g, hother.chainsTo hg, hname⟩)
    rw [hg, hg', hwrites.eq_of_not_mem hname]

/-- The fragment of the name is walked through alike, whether it is available or not. -/
theorem walk_eq (h : InStep name fragment? available available') {f : Fragment}
    (hf : fragment? = some f) (path : List String) :
    walk (Fragment.without name available) path f.selections =
        walk available' path f.selections ∧
      walk (Fragment.without name available) path f.selections =
        walk (Fragment.without name available') path f.selections := by
  have hmentions : ∀ other, Mentions (Fragment.without name available) f.selections other →
      other ≠ name ∧ Fragment.named? other available = Fragment.named? other available' := by
    intro other hother
    refine ⟨?_, (h.named?_eq_of_mentions hf hother.of_without).symm⟩
    rintro rfl
    exact h.acyclic f hf hother.of_without
  refine ⟨walk_congr_of_mentions fun other hother => ?_,
    walk_congr_of_mentions fun other hother => ?_⟩
  · obtain ⟨hne, heq⟩ := hmentions other hother
    rw [Fragment.named?_without, if_neg hne, heq]
  · obtain ⟨hne, heq⟩ := hmentions other hother
    rw [Fragment.named?_without, Fragment.named?_without, if_neg hne, if_neg hne, heq]

/-- **A walk meets the same before and after.** -/
theorem walk_writesOut (h : InStep name fragment? available available') (path : List String)
    {selections selections' : List Selection}
    (hselections : WritesOut name fragment? selections selections') :
    (walk available' path selections').filterMap Step.met? =
      (walk available path selections).filterMap Step.met? := by
  induction available, path, selections using walk.induct generalizing available' selections' with
  | case1 available path =>
      cases hselections
      rw [walk, walk]
  | case2 available path head selections rest ihBeneath ihRest =>
      cases hselections with
      | field hbeneath hrest =>
          rw [walk, walk, List.filterMap_cons, List.filterMap_cons, List.filterMap_append,
            List.filterMap_append, ihBeneath h hbeneath, ihRest h hrest]
          rfl
  | case3 available path condition? ds selections rest ihBeneath ihRest =>
      cases hselections with
      | inlineFragment hbeneath hrest =>
          rw [walk, walk, List.filterMap_append, List.filterMap_append, ihBeneath h hbeneath,
            ihRest h hrest]
  | case4 available path other ds rest found ihRest =>
      rw [walk_spread_of_none found, List.filterMap_cons_none rfl]
      cases hselections with
      | kept hrest =>
          obtain ⟨-, found'⟩ | ⟨f, -, hf, -⟩ := h.alike other
          · rw [walk_spread_of_none found', List.filterMap_cons_none rfl, ihRest h hrest]
          · exact absurd (found.symm.trans hf) (by simp)
      | written hf hrest => exact absurd (found.symm.trans (h.refers.trans hf)) (by simp)
      | dropped _ hrest => exact ihRest h hrest
  | case5 available path other ds rest f found _ ihFragment ihRest =>
      rw [walk_spread_of_some found, List.filterMap_append]
      cases hselections with
      | kept hrest =>
          obtain ⟨hnone, -⟩ | ⟨g, f', hg, found', hwrites⟩ := h.alike other
          · exact absurd (found.symm.trans hnone) (by simp)
          obtain rfl : f = g := Option.some.inj (found.symm.trans hg)
          rw [walk_spread_of_some found', List.filterMap_append, ihRest h hrest]
          by_cases hother : name = other
          · -- the fragment itself is entered, where no more spreads of it are met
            subst hother
            have hf : fragment? = some f := h.refers.symm.trans found
            rw [hwrites.eq_of_not_mem fun hname => h.acyclic f hf (.inl hname),
              (h.walk_eq hf path).2]
          · obtain ⟨hselections⟩ := hwrites
            rw [ihFragment (h.without hother) hselections]
      | written hf hrest =>
          -- its name is available on the second walk only, where it is not mentioned
          obtain rfl := Option.some.inj (found.symm.trans (h.refers.trans hf))
          rw [walk, List.filterMap_append, ← (h.walk_eq hf path).1, ihRest h hrest]
      | dropped hnone _ => exact absurd (found.symm.trans (h.refers.trans hnone)) (by simp)

end InStep

end

namespace Document

/-! ### Fields found -/

variable {d d' : Document} {name : String}

/-- What a search for a name finds, apart from the selections beneath it. -/
theorem map_findFields (d : Document) (o : Operation) (name : String) :
    (d.findFields o name).map (fun x => (x.path, x.head)) =
      ((d.walk o).filterMap Step.met?).filter fun m => m.2.name = name := by
  rw [findFields, List.map_filterMap, List.filter_filterMap]
  refine List.filterMap_congr fun step _ => ?_
  cases step with
  | field x =>
      by_cases hname : x.head.name = name <;> simp [Step.met?, Option.filter, hname]
  | skipped _ => rfl

/-- A fragment that does not lead to itself is not mentioned in itself. -/
theorem not_mentions_of_not_leads (hacyclic : ∀ k, d.Refers name k → ¬ d.Leads k k) {f : Fragment}
    (hf : Fragment.named? name d.fragments = some f) :
    ¬ Mentions d.fragments f.selections name := by
  intro hmentions
  obtain ⟨hrefers, hhome⟩ := definitions_home hf
  exact hacyclic _ hrefers ((leads_iff hhome).mpr ⟨name, f, hmentions.chainsTo hf, rfl⟩)

/-- An operation stays at its index when spreads are written out. -/
theorem WritesOut.exists_operation (h : d.WritesOut name d') {k : Nat} {o : Operation}
    (hk : d.definitions[k]? = some (.operation o)) :
    ∃ o', d'.definitions[k]? = some (.operation o') ∧
      Graphql.WritesOut name (Fragment.named? name d.fragments) o.selections o'.selections := by
  obtain ⟨hlt, hget⟩ := List.getElem?_eq_some_iff.mp hk
  have hlt' : k < d'.definitions.length := h.length_eq ▸ hlt
  have hdefinition : Definition.WritesOut name (Fragment.named? name d.fragments)
      (.operation o) d'.definitions[k] := by
    rw [← hget]
    exact List.Forall₂.get h hlt hlt'
  rw [List.getElem?_eq_getElem hlt']
  generalize d'.definitions[k] = definition' at hdefinition
  cases hdefinition with
  | operation hselections => exact ⟨_, rfl, hselections⟩

/-- **Writing a fragment out changes nothing that is found.** Any spreads of a name are written out
in a document, in its operations or within its fragments, as inline fragments with the selections of
the fragment that the name refers to, which does not spread itself, directly or through others. Then
each operation is found at its place again, and a search in it for any name finds fields with the
same aliases, names, arguments and directives at the same response paths, in the same order. If the
name refers to nothing, the same holds of its spreads being left out. -/
theorem findFields_writesOut (h : d.WritesOut name d')
    (hacyclic : ∀ k, d.Refers name k → ¬ d.Leads k k) {k : Nat} {o : Operation}
    (hk : d.definitions[k]? = some (.operation o)) :
    ∃ o', d'.definitions[k]? = some (.operation o') ∧ ∀ field,
      (d'.findFields o' field).map (fun x => (x.path, x.head)) =
        (d.findFields o field).map fun x => (x.path, x.head) := by
  obtain ⟨o', hk', hselections⟩ := h.exists_operation hk
  have hinStep : InStep name (Fragment.named? name d.fragments) d.fragments d'.fragments :=
    ⟨named?_writesOut h, rfl, fun f hf => not_mentions_of_not_leads hacyclic hf⟩
  refine ⟨o', hk', fun field => ?_⟩
  rw [map_findFields, map_findFields, walk, walk, hinStep.walk_writesOut [] hselections]

/-- `things { id }`. -/
def thingsById : List Selection :=
  [.field ⟨none, "things", [], []⟩ [.field ⟨none, "id", [], []⟩ []]]

/-- `{ things { ...Rest ...Loop } ...Owner }`, which goes on with further selections, and the
fragments `Rest on T`, which ends in the selection that is given, `Loop on T { things ...Loop }`,
and two of the name `Owner on T`: `{ other }`, and after it `{ things { id } }`. -/
def nestedSpreads (inRest : Selection) (further : List Selection) : Document :=
  ⟨[.fragment ⟨"Owner", "T", [], [.field ⟨none, "other", [], []⟩ []]⟩,
    .operation ⟨none, .field ⟨none, "things", [], []⟩ [.spread "Rest" [], .spread "Loop" []] ::
      .spread "Owner" [] :: further⟩,
    .fragment ⟨"Rest", "T", [], [.field ⟨none, "name", [], []⟩ [], inRest]⟩,
    .fragment ⟨"Loop", "T", [], [.field ⟨none, "things", [], []⟩ [], .spread "Loop" []]⟩,
    .fragment ⟨"Owner", "T", [], thingsById⟩]⟩

/-- `Rest on T { name ...Owner }`, and a spread of a fragment that is missing. -/
def nested : Document :=
  nestedSpreads (.spread "Owner" []) [.spread "Missing" []]

/-- One of two spreads is written out, within a fragment, while another fragment spreads itself;
and the spread of the fragment that is missing is left out. -/
theorem findFields_writesOut_nested :
    nested.WritesOut "Owner"
        (nestedSpreads (.inlineFragment (some "T") [] thingsById) [.spread "Missing" []]) ∧
      nested.WritesOut "Missing" (nestedSpreads (.spread "Owner" []) []) ∧
      nested.Refers "Owner" 4 ∧
      (∀ o ∈ nested.operations, (nested.findFields o "things").map (·.path) =
        [["things"], ["things", "things"], ["things", "things"], ["things"]]) ∧
      ∀ o, nested.definitions[1]? = some (.operation o) →
        ∀ d ∈ [nestedSpreads (.inlineFragment (some "T") [] thingsById) [.spread "Missing" []],
            nestedSpreads (.spread "Owner" []) []],
          ∃ o', d.definitions[1]? = some (.operation o') ∧
            (d.findFields o' "things").map (fun x => (x.path, x.head)) =
              (nested.findFields o "things").map fun x => (x.path, x.head) := by
  have howner : Fragment.named? "Owner" nested.fragments = some ⟨"Owner", "T", [], thingsById⟩ := by
    cbv
  have hmissing : Fragment.named? "Missing" nested.fragments = none := by cbv
  have hhome : nested.home "Owner" = 4 := by cbv
  have hwritten : nested.WritesOut "Owner"
      (nestedSpreads (.inlineFragment (some "T") [] thingsById) [.spread "Missing" []]) := by
    rw [WritesOut, howner]
    exact .cons (.fragment ⟨.refl _⟩) (.cons (.operation (.refl _))
      (.cons (.fragment ⟨.field .nil (.written rfl .nil)⟩)
        (.cons (.fragment ⟨.refl _⟩) (.cons (.fragment ⟨.refl _⟩) .nil))))
  have hleft : nested.WritesOut "Missing" (nestedSpreads (.spread "Owner" []) []) := by
    rw [WritesOut, hmissing]
    exact .cons (.fragment ⟨.refl _⟩)
      (.cons (.operation (.field (.refl _) (.kept (.dropped rfl .nil))))
        (.cons (.fragment ⟨.refl _⟩)
          (.cons (.fragment ⟨.refl _⟩) (.cons (.fragment ⟨.refl _⟩) .nil))))
  have hacyclic : ∀ k, nested.Refers "Owner" k → ¬ nested.Leads k k := by
    intro k hrefers hleads
    obtain ⟨f, hf, -, hk⟩ := refers_iff.mp hrefers
    obtain rfl := Option.some.inj (howner.symm.trans hf)
    -- nothing is spread in the fragment
    obtain ⟨other, g, hchain, -⟩ := (leads_iff hk).mp hleads
    obtain ⟨first, -, hfirst, -⟩ := hchain.exists_first
    exact absurd hfirst (by simp [Definition.selections, thingsById, spreadNames])
  have hundefined : ∀ k, nested.Refers "Missing" k → ¬ nested.Leads k k := by
    intro k hrefers
    obtain ⟨f, hf, -⟩ := refers_iff.mp hrefers
    exact absurd (hmissing.symm.trans hf) (by simp)
  refine ⟨hwritten, hleft, hhome ▸ (definitions_home howner).1, ?_, fun o ho d hd => ?_⟩
  · have hoperations : nested.operations = [⟨none, .field ⟨none, "things", [], []⟩
        [.spread "Rest" [], .spread "Loop" []] :: .spread "Owner" [] :: [.spread "Missing" []]⟩] :=
      rfl
    rw [hoperations]
    simp only [List.mem_singleton, forall_eq]
    cbv
  · simp only [List.mem_cons, List.not_mem_nil, or_false] at hd
    obtain rfl | rfl := hd
    · obtain ⟨o', hk, hfound⟩ := findFields_writesOut hwritten hacyclic ho
      exact ⟨o', hk, hfound "things"⟩
    · obtain ⟨o', hk, hfound⟩ := findFields_writesOut hleft hundefined ho
      exact ⟨o', hk, hfound "things"⟩

end Document

end SchemaBridge.Graphql

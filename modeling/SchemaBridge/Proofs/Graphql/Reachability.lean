import Mathlib.Logic.Relation
import SchemaBridge.Proofs.Graphql.Visits

/-!
# Fields within reach

Which fields does an operation select? Those of its own selection tree, and those of every fragment
that a chain of spreads leads to. A walk writes fragments out at their spreads and does not enter a
fragment that it is writing out already; this module shows that it misses nothing by that.

* `Expands`: a walk with nothing to bound it but the names of the fragments being written out. It
  ends, and its steps are those of `walk` (`expands_iff`);
* `Document.meetings`: the fields met on a walk, with their places;
* `Document.Spreads`, `Document.Leads`: spreads from one definition to another, and chains of them;
* `ChainsTo.split`: a chain to a fragment can be cut at its last visit to another one, so that no
  fragment need be entered twice;
* `Document.mem_found_iff`: a walk finds exactly the fields within reach;
* `Document.traversals_agree`: what walks find, and what an edit visits.
-/

namespace SchemaBridge.Graphql

/-! ### Walks that end -/

/-- The steps through selections that stand at a response path, while the fragments of some names
are being written out. A fragment is written out unless it is one of them already; nothing else
bounds the walk. -/
inductive Expands (fragments : List Fragment) :
    List String → List String → List Selection → List Step → Prop
  | nil {active path} : Expands fragments active path [] []
  | field {active path head selections rest beneath after} :
      Expands fragments active (path ++ [head.responseKey]) selections beneath →
      Expands fragments active path rest after →
      Expands fragments active path (.field head selections :: rest)
        (.field ⟨head, selections, path ++ [head.responseKey]⟩ :: (beneath ++ after))
  | inlineFragment {active path condition? directives selections rest inside after} :
      Expands fragments active path selections inside →
      Expands fragments active path rest after →
      Expands fragments active path (.inlineFragment condition? directives selections :: rest)
        (inside ++ after)
  | cyclic {active path name directives rest after} :
      name ∈ active →
      Expands fragments active path rest after →
      Expands fragments active path (.spread name directives :: rest) (.skipped name :: after)
  | undefined {active path name directives rest after} :
      name ∉ active → Fragment.named? name fragments = none →
      Expands fragments active path rest after →
      Expands fragments active path (.spread name directives :: rest) (.skipped name :: after)
  | spread {active path name directives rest fragment inside after} :
      name ∉ active → Fragment.named? name fragments = some fragment →
      Expands fragments (name :: active) path fragment.selections inside →
      Expands fragments active path rest after →
      Expands fragments active path (.spread name directives :: rest) (inside ++ after)

/-- The fragments without a name, by name. -/
theorem Fragment.named?_without (name other : String) (fs : List Fragment) :
    Fragment.named? other (Fragment.without name fs) =
      if other = name then none else Fragment.named? other fs := by
  induction fs with
  | nil => simp [without, named?]
  | cons f rest ih =>
      by_cases hname : f.name = name
      · rw [without, if_pos hname, ih, named?]
        by_cases hother : other = name
        · rw [if_pos hother, if_pos hother]
        · rw [if_neg hother, if_neg hother, if_neg (hname.trans_ne (Ne.symm hother))]
          cases named? other rest <;> rfl
      · rw [without, if_neg hname, named?, ih, named?]
        by_cases hother : other = name
        · rw [if_pos hother, if_pos hother, hother, if_neg hname]
        · rw [if_neg hother, if_neg hother]

/-- The steps of a walk are an expansion, if the fragments available are those of which the names
are not being written out. -/
theorem expands_walk {fragments available : List Fragment} {active : List String}
    (path : List String) (selections : List Selection)
    (h : ∀ name, Fragment.named? name available =
      if name ∈ active then none else Fragment.named? name fragments) :
    Expands fragments active path selections (walk available path selections) := by
  induction available, path, selections using walk.induct generalizing active with
  | case1 available path =>
      rw [walk]
      exact .nil
  | case2 available path head selections rest ihBeneath ihRest =>
      rw [walk]
      exact .field (ihBeneath h) (ihRest h)
  | case3 available path condition? ds selections rest ihBeneath ihRest =>
      rw [walk]
      exact .inlineFragment (ihBeneath h) (ihRest h)
  | case4 available path name ds rest found ihRest =>
      rw [walk_spread_of_none found]
      by_cases hactive : name ∈ active
      · exact .cyclic hactive (ihRest h)
      · refine .undefined hactive ?_ (ihRest h)
        rw [← found, h, if_neg hactive]
  | case5 available path name ds rest fragment found _ ihFragment ihRest =>
      have hactive : name ∉ active := by
        intro hactive
        rw [h, if_pos hactive] at found
        exact absurd found (by simp)
      rw [walk_spread_of_some found]
      refine .spread hactive ?_ (ihFragment fun other => ?_) (ihRest h)
      · rw [← found, h, if_neg hactive]
      · rw [Fragment.named?_without, h]
        by_cases hother : other = name <;> simp [hother]

/-- Expansions of the same selections have the same steps. -/
theorem Expands.unique {fragments : List Fragment} {active path : List String}
    {selections : List Selection} {steps steps' : List Step}
    (h : Expands fragments active path selections steps)
    (h' : Expands fragments active path selections steps') : steps = steps' := by
  induction h generalizing steps' with
  | nil =>
      cases h'
      rfl
  | field _ _ ihBeneath ihRest =>
      cases h' with
      | field hbeneath hrest => rw [ihBeneath hbeneath, ihRest hrest]
  | inlineFragment _ _ ihBeneath ihRest =>
      cases h' with
      | inlineFragment hbeneath hrest => rw [ihBeneath hbeneath, ihRest hrest]
  | cyclic hactive _ ihRest =>
      cases h' with
      | cyclic _ hrest => rw [ihRest hrest]
      | undefined hactive' _ _ => exact absurd hactive hactive'
      | spread hactive' _ _ _ => exact absurd hactive hactive'
  | undefined hactive hnone _ ihRest =>
      cases h' with
      | cyclic hactive' _ => exact absurd hactive' hactive
      | undefined _ _ hrest => rw [ihRest hrest]
      | spread _ hsome _ _ => exact absurd (hnone.symm.trans hsome) (by simp)
  | spread hactive hsome _ _ ihFragment ihRest =>
      cases h' with
      | cyclic hactive' _ => exact absurd hactive' hactive
      | undefined _ hnone _ => exact absurd (hnone.symm.trans hsome) (by simp)
      | spread _ hsome' hinside hrest =>
          obtain rfl := Option.some.inj (hsome.symm.trans hsome')
          rw [ihFragment hinside, ihRest hrest]

/-- Every operation is expanded in finitely many steps, and these are the steps of its walk. -/
theorem Document.expands_iff (d : Document) (o : Operation) {steps : List Step} :
    Expands d.fragments [] [] o.selections steps ↔ steps = d.walk o := by
  have hwalk : Expands d.fragments [] [] o.selections (d.walk o) :=
    expands_walk [] o.selections fun name => by simp
  constructor
  · intro h
    exact h.unique hwalk
  · rintro rfl
    exact hwalk

/-! ### Fields met on a walk -/

/-- A field met on a walk: where it stands, and the response path that leads to it. -/
structure Meeting where
  node : Node
  path : List String

/-- The occurrence that a field is met as. -/
def Meeting.occurrence (m : Meeting) : Occurrence :=
  ⟨m.node.head, m.node.selections, m.path⟩

/-- Where a walk has come to: the place of a selection, and the response path that it stands at. -/
structure Position where
  place : Place
  path : List String

/-- Positions are kept track of. A fragment stands in the definition that `home` tells for its
name. -/
def Meeting.tracker (home : String → Nat) : Tracker Position Meeting where
  met p head selections := ⟨⟨p.place, head, selections⟩, p.path ++ [head.responseKey]⟩
  beneath p head := ⟨p.place.beneath, p.path ++ [head.responseKey]⟩
  inside p := ⟨p.place.beneath, p.path⟩
  next p := ⟨p.place.next, p.path⟩
  spread p name := ⟨.root (home name), p.path⟩

/-- The response path can be told from a position. -/
theorem Meeting.keepsPaths (home : String → Nat) :
    (tracker home).KeepsPaths Position.path occurrence where
  met _ _ _ := rfl
  beneath _ _ := rfl
  inside _ := rfl
  next _ := rfl
  spread _ _ := rfl

/-- The names of the fragments that are spread in selections, at any depth. -/
def spreadNames : List Selection → List String
  | [] => []
  | .field _ selections :: rest => spreadNames selections ++ spreadNames rest
  | .inlineFragment _ _ selections :: rest => spreadNames selections ++ spreadNames rest
  | .spread name _ :: rest => name :: spreadNames rest

section Meetings

variable {home : String → Nat} {available : List Fragment} {selections : List Selection}

/-- Every field of a selection tree is met on the walk through it. -/
theorem exists_meeting_of_mem_nodes (home : String → Nat) (available : List Fragment)
    {p : Position} {selections : List Selection} {x : Node}
    (h : x ∈ nodes p.place selections) :
    ∃ m ∈ (Meeting.tracker home).track available p selections, m.node = x := by
  induction available, p, selections using Tracker.track.induct (Meeting.tracker home) with
  | case1 available p => simp [nodes] at h
  | case2 available p head selections rest ihBeneath ihRest =>
      rw [nodes] at h
      rw [Tracker.track]
      rcases List.mem_cons.mp h with rfl | h
      · exact ⟨_, List.mem_cons_self, rfl⟩
      rcases List.mem_append.mp h with h | h
      · obtain ⟨m, hm, hnode⟩ := ihBeneath h
        exact ⟨m, List.mem_cons_of_mem _ (List.mem_append_left _ hm), hnode⟩
      · obtain ⟨m, hm, hnode⟩ := ihRest h
        exact ⟨m, List.mem_cons_of_mem _ (List.mem_append_right _ hm), hnode⟩
  | case3 available p condition? ds selections rest ihBeneath ihRest =>
      rw [nodes] at h
      rw [Tracker.track]
      rcases List.mem_append.mp h with h | h
      · obtain ⟨m, hm, hnode⟩ := ihBeneath h
        exact ⟨m, List.mem_append_left _ hm, hnode⟩
      · obtain ⟨m, hm, hnode⟩ := ihRest h
        exact ⟨m, List.mem_append_right _ hm, hnode⟩
  | case4 available p name ds rest found ihRest =>
      rw [nodes] at h
      rw [Tracker.track_spread_of_none _ found]
      exact ihRest h
  | case5 available p name ds rest f found _ ihFragment ihRest =>
      rw [nodes] at h
      rw [Tracker.track_spread_of_some _ found]
      obtain ⟨m, hm, hnode⟩ := ihRest h
      exact ⟨m, List.mem_append_right _ hm, hnode⟩

/-- A fragment that is spread at any depth is written out somewhere on the walk, with the other
fragments available. -/
theorem exists_subset_track_of_spread {name : String} {f : Fragment}
    (hname : name ∈ spreadNames selections) (hf : Fragment.named? name available = some f)
    (p : Position) :
    ∃ path, (Meeting.tracker home).track (Fragment.without name available)
        ⟨.root (home name), path⟩ f.selections ⊆
      (Meeting.tracker home).track available p selections := by
  induction selections using spreadNames.induct generalizing p with
  | case1 => simp [spreadNames] at hname
  | case2 head selections rest ihBeneath ihRest =>
      rw [spreadNames] at hname
      rw [Tracker.track]
      rcases List.mem_append.mp hname with hname | hname
      · obtain ⟨path, hsub⟩ := ihBeneath hname ((Meeting.tracker home).beneath p head)
        exact ⟨path, fun m hm => List.mem_cons_of_mem _ (List.mem_append_left _ (hsub hm))⟩
      · obtain ⟨path, hsub⟩ := ihRest hname ((Meeting.tracker home).next p)
        exact ⟨path, fun m hm => List.mem_cons_of_mem _ (List.mem_append_right _ (hsub hm))⟩
  | case3 condition? ds selections rest ihInside ihRest =>
      rw [spreadNames] at hname
      rw [Tracker.track]
      rcases List.mem_append.mp hname with hname | hname
      · obtain ⟨path, hsub⟩ := ihInside hname ((Meeting.tracker home).inside p)
        exact ⟨path, fun m hm => List.mem_append_left _ (hsub hm)⟩
      · obtain ⟨path, hsub⟩ := ihRest hname ((Meeting.tracker home).next p)
        exact ⟨path, fun m hm => List.mem_append_right _ (hsub hm)⟩
  | case4 other ds rest ihRest =>
      rw [spreadNames] at hname
      rcases List.mem_cons.mp hname with rfl | hname
      · rw [Tracker.track_spread_of_some _ hf]
        exact ⟨p.path, List.subset_append_left _ _⟩
      · obtain ⟨path, hsub⟩ := ihRest hname ((Meeting.tracker home).next p)
        cases hother : Fragment.named? other available with
        | none =>
            rw [Tracker.track_spread_of_none _ hother]
            exact ⟨path, hsub⟩
        | some g =>
            rw [Tracker.track_spread_of_some _ hother]
            exact ⟨path, List.Subset.trans hsub (List.subset_append_right _ _)⟩

/-! ### Chains of spreads -/

/-- A chain of spreads leads from selections to a fragment, which the name at its end refers to. -/
inductive ChainsTo (available : List Fragment) (selections : List Selection) :
    String → Fragment → Prop
  | spread {name f} : name ∈ spreadNames selections → Fragment.named? name available = some f →
      ChainsTo available selections name f
  | onward {name f other g} : ChainsTo available selections name f →
      other ∈ spreadNames f.selections → Fragment.named? other available = some g →
      ChainsTo available selections other g

/-- The name at the end of a chain refers to the fragment there. -/
theorem ChainsTo.named?_eq {name : String} {f : Fragment}
    (h : ChainsTo available selections name f) : Fragment.named? name available = some f := by
  cases h with
  | spread _ hf => exact hf
  | onward _ _ hf => exact hf

/-- A chain stays one among more fragments and from more spreads. -/
theorem ChainsTo.mono {available' : List Fragment} {selections' : List Selection}
    (hnamed : ∀ name f, Fragment.named? name available = some f →
      Fragment.named? name available' = some f)
    (hspread : spreadNames selections ⊆ spreadNames selections') {name : String} {f : Fragment}
    (h : ChainsTo available selections name f) : ChainsTo available' selections' name f := by
  induction h with
  | spread hname hf => exact .spread (hspread hname) (hnamed _ _ hf)
  | onward _ hname hf ih => exact .onward ih hname (hnamed _ _ hf)

/-- A chain from a fragment goes on from a spread of it. -/
theorem ChainsTo.of_spread {first name : String} {f g : Fragment}
    (hfirst : first ∈ spreadNames selections) (hg : Fragment.named? first available = some g)
    (h : ChainsTo available g.selections name f) : ChainsTo available selections name f := by
  induction h with
  | spread hname hf => exact .onward (.spread hfirst hg) hname hf
  | onward _ hname hf ih => exact .onward ih hname hf

/-- A chain begins with a spread, and ends there or goes on from the fragment. -/
theorem ChainsTo.exists_first {name : String} {f : Fragment}
    (h : ChainsTo available selections name f) :
    ∃ first g, first ∈ spreadNames selections ∧ Fragment.named? first available = some g ∧
      ((first = name ∧ g = f) ∨ ChainsTo available g.selections name f) := by
  induction h with
  | @spread name f hname hf => exact ⟨name, f, hname, hf, .inl ⟨rfl, rfl⟩⟩
  | onward _ hname hf ih =>
      obtain ⟨first, g, hfirst, hg, ⟨rfl, rfl⟩ | hchain⟩ := ih
      · exact ⟨first, g, hfirst, hg, .inr (.spread hname hf)⟩
      · exact ⟨first, g, hfirst, hg, .inr (.onward hchain hname hf)⟩

/-- What a name refers to among the fragments of other names, it refers to among all. -/
theorem Fragment.named?_of_without {name other : String} {f : Fragment}
    (h : Fragment.named? other (Fragment.without name available) = some f) :
    Fragment.named? other available = some f := by
  rw [named?_without] at h
  by_cases hother : other = name
  · rw [if_pos hother] at h
    exact absurd h (by simp)
  · rwa [if_neg hother] at h

/-- **Cutting a chain.** A chain that leads to a fragment ends at a given name, or does without it,
or goes on from the fragment of that name without coming back to it. -/
theorem ChainsTo.split {through : String} {g : Fragment}
    (hg : Fragment.named? through available = some g) {name : String} {f : Fragment}
    (h : ChainsTo available selections name f) :
    name = through ∨ ChainsTo (Fragment.without through available) selections name f ∨
      ChainsTo (Fragment.without through available) g.selections name f := by
  have hkept : ∀ {other f}, other ≠ through → Fragment.named? other available = some f →
      Fragment.named? other (Fragment.without through available) = some f := by
    intro other f hne hf
    rw [Fragment.named?_without, if_neg hne, hf]
  induction h with
  | @spread name f hname hf =>
      by_cases heq : name = through
      · exact .inl heq
      · exact .inr (.inl (.spread hname (hkept heq hf)))
  | @onward name f other g' hchain hother hg' ih =>
      by_cases heq : other = through
      · exact .inl heq
      -- the last visit to the fragment is the last step before, or an earlier one
      obtain rfl | hwithout | hfrom := ih
      · obtain rfl : g = f := Option.some.inj (hg.symm.trans hchain.named?_eq)
        exact .inr (.inr (.spread hother (hkept heq hg')))
      · exact .inr (.inl (.onward hwithout hother (hkept heq hg')))
      · exact .inr (.inr (.onward hfrom hother (hkept heq hg')))

/-- **No field is missed.** The fields of every fragment that a chain leads to are met on the walk,
although no fragment is entered twice on a chain. -/
theorem exists_meeting_of_chainsTo {name : String} {f : Fragment}
    (h : ChainsTo available selections name f) {x : Node}
    (hx : x ∈ nodes (.root (home name)) f.selections) (p : Position) :
    ∃ m ∈ (Meeting.tracker home).track available p selections, m.node = x := by
  induction hlength : available.length using Nat.strongRecOn
    generalizing available selections p with
  | ind n ih =>
      obtain ⟨first, g, hfirst, hg, hrest⟩ := h.exists_first
      obtain ⟨path, hsub⟩ : ∃ path,
          (Meeting.tracker home).track (Fragment.without first available)
              ⟨.root (home first), path⟩ g.selections ⊆
            (Meeting.tracker home).track available p selections :=
        exists_subset_track_of_spread hfirst hg p
      have hlt := Fragment.length_without_lt hg
      have hinside : name = first ∨
          ChainsTo (Fragment.without first available) g.selections name f := by
        obtain ⟨rfl, -⟩ | hrest := hrest
        · exact .inl rfl
        · exact (hrest.split hg).imp_right (·.elim id id)
      obtain rfl | hinside := hinside
      · obtain rfl : f = g := Option.some.inj (h.named?_eq.symm.trans hg)
        obtain ⟨m, hm, hnode⟩ := exists_meeting_of_mem_nodes home _ (p := ⟨_, path⟩) hx
        exact ⟨m, hsub hm, hnode⟩
      · obtain ⟨m, hm, hnode⟩ := ih _ (hlength ▸ hlt) hinside ⟨.root (home first), path⟩ rfl
        exact ⟨m, hsub hm, hnode⟩

/-- A field is one of the selections, of which the first stands at a place, or of a fragment that a
chain leads to. -/
def WithinReach (home : String → Nat) (available : List Fragment) (p : Place)
    (selections : List Selection) (x : Node) : Prop :=
  x ∈ nodes p selections ∨ ∃ name f, ChainsTo available selections name f ∧
    x ∈ nodes (.root (home name)) f.selections

/-- What is within reach of some selections is within reach of more. -/
theorem WithinReach.mono {p p' : Place} {selections' : List Selection} {x : Node}
    (hnodes : nodes p selections ⊆ nodes p' selections')
    (hspread : spreadNames selections ⊆ spreadNames selections')
    (h : WithinReach home available p selections x) :
    WithinReach home available p' selections' x := by
  obtain hx | ⟨name, f, hchain, hx⟩ := h
  · exact .inl (hnodes hx)
  · exact .inr ⟨name, f, hchain.mono (fun _ _ => id) hspread, hx⟩

/-- What is within reach of a fragment is within reach of its spread. -/
theorem WithinReach.of_spread {p : Place} {name : String} {f : Fragment} {x : Node}
    (hname : name ∈ spreadNames selections) (hf : Fragment.named? name available = some f)
    (h : WithinReach home (Fragment.without name available) (.root (home name)) f.selections x) :
    WithinReach home available p selections x := by
  obtain hx | ⟨other, g, hchain, hx⟩ := h
  · exact .inr ⟨name, f, .spread hname hf, hx⟩
  · refine .inr ⟨other, g, .of_spread hname hf ?_, hx⟩
    exact hchain.mono (fun _ _ => Fragment.named?_of_without) (List.Subset.refl _)

/-- What is within reach after a spread is within reach of the selections that begin with it. -/
theorem WithinReach.of_after_spread {p : Place} {x : Node}
    (h : WithinReach home available p.next selections x) (name : String) (ds : List Directive) :
    WithinReach home available p (.spread name ds :: selections) x := by
  refine h.mono ?_ ?_
  · rw [nodes]
    exact List.Subset.refl _
  · rw [spreadNames]
    exact List.subset_cons_self _ _

/-- Every field met on a walk is within reach. -/
theorem withinReach_of_mem_track {p : Position} {m : Meeting}
    (h : m ∈ (Meeting.tracker home).track available p selections) :
    WithinReach home available p.place selections m.node := by
  induction available, p, selections using Tracker.track.induct (Meeting.tracker home) with
  | case1 available p => simp [Tracker.track] at h
  | case2 available p head selections rest ihBeneath ihRest =>
      rw [Tracker.track] at h
      rcases List.mem_cons.mp h with rfl | h
      · rw [WithinReach, nodes]
        exact .inl List.mem_cons_self
      rcases List.mem_append.mp h with h | h
      · refine (ihBeneath h).mono ?_ ?_
        · rw [nodes]
          exact List.subset_cons_of_subset _ (List.subset_append_left _ _)
        · rw [spreadNames]
          exact List.subset_append_left _ _
      · refine (ihRest h).mono ?_ ?_
        · rw [nodes]
          exact List.subset_cons_of_subset _ (List.subset_append_right _ _)
        · rw [spreadNames]
          exact List.subset_append_right _ _
  | case3 available p condition? ds selections rest ihBeneath ihRest =>
      rw [Tracker.track] at h
      rcases List.mem_append.mp h with h | h
      · refine (ihBeneath h).mono ?_ ?_
        · rw [nodes]
          exact List.subset_append_left _ _
        · rw [spreadNames]
          exact List.subset_append_left _ _
      · refine (ihRest h).mono ?_ ?_
        · rw [nodes]
          exact List.subset_append_right _ _
        · rw [spreadNames]
          exact List.subset_append_right _ _
  | case4 available p name ds rest found ihRest =>
      rw [Tracker.track_spread_of_none _ found] at h
      exact (ihRest h).of_after_spread name ds
  | case5 available p name ds rest f found _ ihFragment ihRest =>
      rw [Tracker.track_spread_of_some _ found] at h
      rcases List.mem_append.mp h with h | h
      · refine (ihFragment h).of_spread ?_ found
        rw [spreadNames]
        exact List.mem_cons_self
      · exact (ihRest h).of_after_spread name ds

/-- A walk meets exactly the fields within reach. -/
theorem exists_meeting_iff {p : Position} {x : Node} :
    (∃ m ∈ (Meeting.tracker home).track available p selections, m.node = x) ↔
      WithinReach home available p.place selections x := by
  constructor
  · rintro ⟨m, hm, rfl⟩
    exact withinReach_of_mem_track hm
  · rintro (hx | ⟨name, f, hchain, hx⟩)
    · exact exists_meeting_of_mem_nodes home available hx
    · exact exists_meeting_of_chainsTo hchain hx p

end Meetings

/-! ### Definitions that refer to each other -/

/-- The index of the last fragment of a name among some definitions of which the first has an
index. -/
def lastNamed? (name : String) : Nat → List Definition → Option Nat
  | _, [] => none
  | k, .operation _ :: rest => lastNamed? name (k + 1) rest
  | k, .fragment f :: rest =>
    match lastNamed? name (k + 1) rest with
    | some later => some later
    | none => if f.name = name then some k else none

/-- A name belongs to no fragment among some definitions, or it has a last fragment there, which is
the one that it refers to. -/
theorem lastNamed?_cases (name : String) (k : Nat) (definitions : List Definition) :
    (lastNamed? name k definitions = none ∧
      Fragment.named? name (Document.fragments ⟨definitions⟩) = none ∧
      ∀ (i : Nat) (f : Fragment), definitions[i]? = some (.fragment f) → f.name ≠ name) ∨
    ∃ i f, lastNamed? name k definitions = some (k + i) ∧
      Fragment.named? name (Document.fragments ⟨definitions⟩) = some f ∧
      definitions[i]? = some (.fragment f) ∧ f.name = name ∧
      ∀ j g, i < j → definitions[j]? = some (.fragment g) → g.name ≠ name := by
  induction definitions generalizing k with
  | nil => exact .inl ⟨rfl, rfl, by simp⟩
  | cons definition rest ih =>
      obtain ⟨hlast, hnamed, hnone⟩ | ⟨i, f, hlast, hnamed, hi, hname, hlater⟩ := ih (k + 1)
      · cases definition with
        | operation o =>
            refine .inl ⟨hlast, hnamed, fun i f hi => ?_⟩
            cases i with
            | zero => simp at hi
            | succ i => exact hnone i f hi
        | fragment f =>
            have hfragments : Document.fragments ⟨.fragment f :: rest⟩ =
              f :: Document.fragments ⟨rest⟩ := rfl
            rw [lastNamed?, hlast, hfragments, Fragment.named?, hnamed]
            by_cases hname : f.name = name
            · refine .inr ⟨0, f, if_pos hname, if_pos hname, rfl, hname, fun j g hj hg => ?_⟩
              cases j with
              | zero => omega
              | succ j => exact hnone j g hg
            · refine .inl ⟨if_neg hname, if_neg hname, fun i g hi => ?_⟩
              cases i with
              | zero =>
                  obtain rfl : f = g := by simpa using hi
                  exact hname
              | succ i => exact hnone i g hi
      · have hlater' : ∀ j g, i + 1 < j → (definition :: rest)[j]? = some (.fragment g) →
            g.name ≠ name := by
          intro j g hj hg
          cases j with
          | zero => omega
          | succ j => exact hlater j g (by omega) hg
        have hindex : k + 1 + i = k + (i + 1) := by omega
        rw [hindex] at hlast
        cases definition with
        | operation o => exact .inr ⟨i + 1, f, hlast, hnamed, hi, hname, hlater'⟩
        | fragment g =>
            have hfragments : Document.fragments ⟨.fragment g :: rest⟩ =
              g :: Document.fragments ⟨rest⟩ := rfl
            refine .inr ⟨i + 1, f, ?_, ?_, hi, hname, hlater'⟩
            · rw [lastNamed?, hlast]
            · rw [hfragments, Fragment.named?, hnamed]

namespace Document

/-- The index of the definition that a name refers to, or one past the end. -/
def home (d : Document) (name : String) : Nat :=
  (lastNamed? name 0 d.definitions).getD d.definitions.length

/-- A name refers to a definition: it is a fragment of that name, and the last one. -/
def Refers (d : Document) (name : String) (k : Nat) : Prop :=
  ∃ f, d.definitions[k]? = some (.fragment f) ∧ f.name = name ∧
    ∀ l g, k < l → d.definitions[l]? = some (.fragment g) → g.name ≠ name

/-- A name refers to the definition at which the fragment stands that is looked up under it. -/
theorem refers_iff {d : Document} {name : String} {k : Nat} :
    d.Refers name k ↔ ∃ f, Fragment.named? name d.fragments = some f ∧ d.home name = k ∧
      d.definitions[k]? = some (.fragment f) := by
  obtain ⟨definitions⟩ := d
  obtain ⟨-, hnamed, hnone⟩ | ⟨i, f, hlast, hnamed, hi, hname, hlater⟩ :=
    lastNamed?_cases name 0 definitions
  · constructor
    · rintro ⟨f, hk, hname, -⟩
      exact absurd hname (hnone k f hk)
    · rintro ⟨f, hf, -⟩
      exact absurd (hnamed.symm.trans hf) (by simp)
  · have hhome : home ⟨definitions⟩ name = i := by
      rw [home, hlast, Option.getD_some, Nat.zero_add]
    constructor
    · rintro ⟨g, hk, hname', hlater'⟩
      -- both are the last one
      have heq : i = k := by
        obtain hlt | heq | hlt := Nat.lt_trichotomy i k
        · exact absurd hname' (hlater k g hlt hk)
        · exact heq
        · exact absurd hname (hlater' i f hlt hi)
      subst heq
      exact ⟨f, hnamed, hhome, hi⟩
    · rintro ⟨g, hg, rfl, hk⟩
      rw [hhome]
      exact ⟨f, hi, hname, hlater⟩

/-- A fragment that is looked up under a name stands where the name refers to. -/
theorem definitions_home {d : Document} {name : String} {f : Fragment}
    (h : Fragment.named? name d.fragments = some f) :
    d.Refers name (d.home name) ∧ d.definitions[d.home name]? = some (.fragment f) := by
  obtain ⟨definitions⟩ := d
  obtain ⟨-, hnamed, -⟩ | ⟨i, g, hlast, hnamed, hi, hname, hlater⟩ :=
    lastNamed?_cases name 0 definitions
  · exact absurd (hnamed.symm.trans h) (by simp)
  · obtain rfl : g = f := Option.some.inj (hnamed.symm.trans h)
    have hhome : home ⟨definitions⟩ name = i := by
      rw [home, hlast, Option.getD_some, Nat.zero_add]
    rw [hhome]
    exact ⟨⟨g, hi, hname, hlater⟩, hi⟩

/-- Selections of a definition spread the fragment of another one. -/
def Spreads (d : Document) (k l : Nat) : Prop :=
  ∃ definition name, d.definitions[k]? = some definition ∧
    name ∈ spreadNames definition.selections ∧ d.Refers name l

/-- A chain of spreads leads from one definition to another. -/
def Leads (d : Document) : Nat → Nat → Prop :=
  Relation.TransGen d.Spreads

/-- A chain of spreads leads to the definitions of the fragments that it leads to. -/
theorem leads_iff {d : Document} {k : Nat} {definition : Definition}
    (hk : d.definitions[k]? = some definition) {l : Nat} :
    d.Leads k l ↔ ∃ name f, ChainsTo d.fragments definition.selections name f ∧
      d.home name = l := by
  constructor
  · intro h
    induction h with
    | single hspreads =>
        obtain ⟨definition', name, hk', hname, hrefers⟩ := hspreads
        obtain rfl := Option.some.inj (hk.symm.trans hk')
        obtain ⟨f, hf, hhome, -⟩ := refers_iff.mp hrefers
        exact ⟨name, f, .spread hname hf, hhome⟩
    | tail _ hspreads ih =>
        obtain ⟨name, f, hchain, rfl⟩ := ih
        obtain ⟨definition', other, hl, hother, hrefers⟩ := hspreads
        obtain ⟨-, hl'⟩ := definitions_home hchain.named?_eq
        obtain rfl := Option.some.inj (hl'.symm.trans hl)
        obtain ⟨g, hg, hhome, -⟩ := refers_iff.mp hrefers
        exact ⟨other, g, .onward hchain hother hg, hhome⟩
  · rintro ⟨name, f, hchain, rfl⟩
    induction hchain with
    | spread hname hf => exact .single ⟨definition, _, hk, hname, (definitions_home hf).1⟩
    | onward hchain hother hg ih =>
        obtain ⟨-, hl⟩ := definitions_home hchain.named?_eq
        exact .tail ih ⟨_, _, hl, hother, (definitions_home hg).1⟩

/-- The fields met on the walk through the operation at an index. -/
def meetings (d : Document) (k : Nat) : List Meeting :=
  match d.definitions[k]? with
  | none => []
  | some definition =>
    (Meeting.tracker d.home).track d.fragments ⟨.root k, []⟩ definition.selections

/-- The fields of a name met on the walk through the operation at an index. -/
def found (d : Document) (k : Nat) (name : String) : List Meeting :=
  (d.meetings k).filter fun m => m.node.head.name = name

/-- A field is selected by an operation: it is one of its selections, or of a fragment that a chain
of spreads leads to from there. -/
def Selects (d : Document) (k : Nat) (x : Node) : Prop :=
  x ∈ d.nodesOf k ∨ ∃ l, d.Leads k l ∧ x ∈ d.nodesOf l

/-! ### Fields found -/

variable {d : Document} {k : Nat} {o : Operation}

/-- The fields met on the walk through an operation are its occurrences, in the same order. -/
theorem occurrences_walk_eq_map (hk : d.definitions[k]? = some (.operation o)) :
    (d.walk o).filterMap Step.occurrence? = (d.meetings k).map Meeting.occurrence := by
  simp only [meetings, hk]
  exact (Meeting.keepsPaths d.home).occurrences_walk d.fragments ⟨.root k, []⟩ o.selections

/-- The fields found under a name, in order, are those of the name that are met. -/
theorem findFields_eq_map (hk : d.definitions[k]? = some (.operation o)) (name : String) :
    d.findFields o name = (d.found k name).map Meeting.occurrence := by
  have hfilter : d.findFields o name =
      ((d.walk o).filterMap Step.occurrence?).filter fun x => x.head.name = name := by
    rw [findFields, List.filter_filterMap]
    refine List.filterMap_congr fun step _ => ?_
    cases step with
    | field x => simp [Step.occurrence?, Option.filter]
    | skipped name => rfl
  rw [hfilter, occurrences_walk_eq_map hk, List.filter_map]
  rfl

/-- The fields met on the walk through an operation are those that it selects. -/
theorem exists_meeting_iff_selects (hk : d.definitions[k]? = some (.operation o)) {x : Node} :
    (∃ m ∈ d.meetings k, m.node = x) ↔ d.Selects k x := by
  simp only [meetings, hk]
  rw [exists_meeting_iff, WithinReach, Selects, nodesOf, hk]
  refine or_congr_right ⟨?_, ?_⟩
  · rintro ⟨name, f, hchain, hx⟩
    refine ⟨d.home name, (leads_iff hk).mpr ⟨name, f, hchain, rfl⟩, ?_⟩
    exact mem_nodesOf.mpr ⟨_, (definitions_home hchain.named?_eq).2, hx⟩
  · rintro ⟨l, hleads, hx⟩
    obtain ⟨name, f, hchain, rfl⟩ := (leads_iff hk).mp hleads
    obtain ⟨definition, hl, hx⟩ := mem_nodesOf.mp hx
    obtain rfl := Option.some.inj ((definitions_home hchain.named?_eq).2.symm.trans hl)
    exact ⟨name, f, hchain, hx⟩

/-- The fields found under a name are those of the name that the operation selects. -/
theorem mem_found_iff (hk : d.definitions[k]? = some (.operation o)) {name : String} {x : Node} :
    x ∈ (d.found k name).map Meeting.node ↔ x.head.name = name ∧ d.Selects k x := by
  rw [← exists_meeting_iff_selects hk, List.mem_map, and_comm]
  constructor
  · rintro ⟨m, hm, rfl⟩
    obtain ⟨hm, hname⟩ := List.mem_filter.mp hm
    exact ⟨⟨m, hm, rfl⟩, of_decide_eq_true hname⟩
  · rintro ⟨⟨m, hm, rfl⟩, hname⟩
    exact ⟨m, List.mem_filter.mpr ⟨hm, decide_eq_true hname⟩, rfl⟩

/-! ### Fields found and fields visited -/

/-- The fields of one definition stand in it. -/
theorem definition_eq_of_mem_nodesOf {l : Nat} {x : Node} (h : x ∈ d.nodesOf l) :
    x.place.definition = l := by
  obtain ⟨definition, -, hx⟩ := mem_nodesOf.mp h
  exact (from_of_mem_nodes hx).1

/-- An edit comes to the fields that some operation selects, and to those of fragments that no
operation leads to. -/
theorem mem_visited_iff {name : String} {x : Node} :
    x ∈ d.visited name ↔ x.head.name = name ∧
      ((∃ k o, d.definitions[k]? = some (.operation o) ∧ d.Selects k x) ∨
        ∃ l f, d.definitions[l]? = some (.fragment f) ∧ x ∈ d.nodesOf l ∧
          ∀ k o, d.definitions[k]? = some (.operation o) → ¬ d.Leads k l) := by
  rw [mem_visited]
  refine and_congr_right fun _ => ⟨?_, ?_⟩
  · rintro ⟨l, hx⟩
    obtain ⟨definition, hl, -⟩ := mem_nodesOf.mp hx
    cases definition with
    | operation o => exact .inl ⟨l, o, hl, .inl hx⟩
    | fragment f =>
        by_cases hleads : ∃ k o, d.definitions[k]? = some (.operation o) ∧ d.Leads k l
        · obtain ⟨k, o, hk, hleads⟩ := hleads
          exact .inl ⟨k, o, hk, .inr ⟨l, hleads, hx⟩⟩
        · exact .inr ⟨l, f, hl, hx, fun k o hk h => hleads ⟨k, o, hk, h⟩⟩
  · rintro (⟨k, o, -, hx | ⟨l, -, hx⟩⟩ | ⟨l, f, -, hx, -⟩)
    · exact ⟨k, hx⟩
    · exact ⟨l, hx⟩
    · exact ⟨l, hx⟩

/-- **Walks and edits come to the same fields.** Every operation is expanded in finitely many steps.
A field is found under a name exactly if it has the name, and stands in the operation itself or in a
fragment that a chain of spreads leads to from there, however the fragments spread each other. An
edit comes to the fields found from at least one operation and to those in fragments that no
operation leads to, and it comes to each of them once. -/
theorem traversals_agree (d : Document) (name : String) :
    (∀ k o, d.definitions[k]? = some (.operation o) →
      (∀ steps, Expands d.fragments [] [] o.selections steps ↔ steps = d.walk o) ∧
      d.findFields o name = (d.found k name).map Meeting.occurrence ∧
      ∀ x, x ∈ (d.found k name).map Meeting.node ↔
        x.head.name = name ∧ (x ∈ d.nodesOf k ∨ ∃ l, d.Leads k l ∧ x ∈ d.nodesOf l)) ∧
    (∀ {σ : Type} (visit : Visitor σ) (s : σ),
      visit.Visits (d.visited name) s ((d.editFields name visit).run s).2) ∧
    ((d.visited name).map Node.place).Nodup ∧
    ∀ x, x ∈ d.visited name ↔
      (∃ k o, d.definitions[k]? = some (.operation o) ∧
        x ∈ (d.found k name).map Meeting.node) ∨
      ∃ l f, d.definitions[l]? = some (.fragment f) ∧ x ∈ d.nodesOf l ∧ x.head.name = name ∧
        ∀ k o, d.definitions[k]? = some (.operation o) → ¬ d.Leads k l := by
  refine ⟨fun k o hk => ⟨fun steps => d.expands_iff o, findFields_eq_map hk name,
    fun x => mem_found_iff hk⟩, fun visit s => visits_editFields visit d name s,
    d.nodup_place_visited name, fun x => ?_⟩
  rw [mem_visited_iff]
  constructor
  · rintro ⟨hname, ⟨k, o, hk, hselects⟩ | ⟨l, f, hl, hx, hleads⟩⟩
    · exact .inl ⟨k, o, hk, (mem_found_iff hk).mpr ⟨hname, hselects⟩⟩
    · exact .inr ⟨l, f, hl, hx, hname, hleads⟩
  · rintro (⟨k, o, hk, hx⟩ | ⟨l, f, hl, hx, hname, hleads⟩)
    · obtain ⟨hname, hselects⟩ := (mem_found_iff hk).mp hx
      exact ⟨hname, .inl ⟨k, o, hk, hselects⟩⟩
    · exact ⟨hname, .inr ⟨l, f, hl, hx, hleads⟩⟩

/-- An operation `{ things { ...Owner } ...Missing }` between two fragments of one name,
`Owner on T { things }` before it and `Owner on T { things ...Rest }` after it, and at the end a
fragment `Rest on T { things { ...Owner } }`. -/
def cyclic : Document :=
  ⟨[.fragment ⟨"Owner", "T", [], [.field ⟨none, "things", [], []⟩ []]⟩,
    .operation ⟨none, [.field ⟨none, "things", [], []⟩ [.spread "Owner" []],
      .spread "Missing" []]⟩,
    .fragment ⟨"Owner", "T", [], [.field ⟨none, "things", [], []⟩ [], .spread "Rest" []]⟩,
    .fragment ⟨"Rest", "T", [], [.field ⟨none, "things", [], []⟩ [.spread "Owner" []]]⟩]⟩

/-- Two fragments that spread each other are entered once each, and the first fragment of a name
that is defined twice is visited although nothing leads to it. -/
theorem traversals_agree_cyclic :
    (cyclic.found 1 "things").map (·.node.place) = [.root 1, .root 2, .root 3] ∧
      (cyclic.visited "things").map Node.place = [.root 1, .root 0, .root 2, .root 3] ∧
      cyclic.Leads 1 3 := by
  have hfound : (cyclic.found 1 "things").map (·.node.place) = [.root 1, .root 2, .root 3] := by
    cbv
  refine ⟨hfound, by cbv, ?_⟩
  obtain ⟨m, hm, hplace⟩ : ∃ m ∈ cyclic.found 1 "things", m.node.place = .root 3 := by
    have hmem : Place.root 3 ∈ (cyclic.found 1 "things").map (·.node.place) := by simp [hfound]
    exact List.mem_map.mp hmem
  obtain ⟨-, hown | ⟨l, hleads, hx⟩⟩ :=
    (((traversals_agree cyclic "things").1 1 _ rfl).2.2 m.node).mp (List.mem_map_of_mem hm)
  · have := definition_eq_of_mem_nodesOf hown
    simp [hplace, Place.root] at this
  · have := definition_eq_of_mem_nodesOf hx
    obtain rfl : 3 = l := by simpa [hplace, Place.root] using this
    exact hleads

end Document

end SchemaBridge.Graphql

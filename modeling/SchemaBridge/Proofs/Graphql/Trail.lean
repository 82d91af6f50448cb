import Mathlib.Tactic.Simps.Basic
import SchemaBridge.Graphql.Occurrence

/-!
# Trails

A walk tells the response path of a field, but not which fields the keys on the way stand for. A
trail keeps these fields.

* `Tracker`: whatever is kept track of on a walk. What is noted of the fields are the occurrences of
  the walk, in order, if the response path is kept (`Tracker.KeepsPaths.occurrences_walk`);
* `Trail`: a field that is met on a walk, with the fields that lead to it;
* `Document.trail_induction`: each trail is the trail of its parent field with one more field, so
  that facts about trails follow field by field from the root;
* `Document.occurrences`, `Document.responsePaths`: the fields that a document selects, and their
  response paths, with all their beginnings (`Document.prefix_mem_responsePaths`).
-/

namespace SchemaBridge.Graphql

/-! ### The steps of a walk -/

/-- The field met in a step of a walk. -/
def Step.occurrence? : Step → Option Occurrence
  | .field occurrence => some occurrence
  | .skipped _ => none

/-- The steps of a spread that is not followed. -/
theorem walk_spread_of_none {available : List Fragment} {name : String}
    (h : Fragment.named? name available = none) (path : List String) (ds : List Directive)
    (rest : List Selection) :
    walk available path (.spread name ds :: rest) =
      .skipped name :: walk available path rest := by
  rw [walk]
  split
  · rfl
  · next found => exact absurd (h.symm.trans found) (by simp)

/-- The steps of a spread that is followed. -/
theorem walk_spread_of_some {available : List Fragment} {name : String} {f : Fragment}
    (h : Fragment.named? name available = some f) (path : List String) (ds : List Directive)
    (rest : List Selection) :
    walk available path (.spread name ds :: rest) =
      walk (Fragment.without name available) path f.selections ++ walk available path rest := by
  rw [walk]
  split
  · next found => exact absurd (h.symm.trans found) (by simp)
  · next g found =>
      obtain rfl : f = g := Option.some.inj (h.symm.trans found)
      rfl

/-! ### What is kept track of on a walk -/

/-- What is kept track of on a walk: what is noted of a field that is met at a position, and how the
position changes on the way beneath a field, into an inline fragment, to the next selection, and
into the fragment of a name. -/
structure Tracker (π α : Type) where
  met : π → Field → List Selection → α
  beneath : π → Field → π
  inside : π → π
  next : π → π
  spread : π → String → π

namespace Tracker

variable {π α : Type}

/-- What is noted on a walk through selections of which the first is met at a position. -/
def track (k : Tracker π α) (available : List Fragment) (p : π) : List Selection → List α
  | [] => []
  | .field head selections :: rest =>
    k.met p head selections ::
      (k.track available (k.beneath p head) selections ++ k.track available (k.next p) rest)
  | .inlineFragment _ _ selections :: rest =>
    k.track available (k.inside p) selections ++ k.track available (k.next p) rest
  | .spread name _ :: rest =>
    match found : Fragment.named? name available with
    | none => k.track available (k.next p) rest
    | some fragment =>
      have := Fragment.length_without_lt found
      k.track (Fragment.without name available) (k.spread p name) fragment.selections ++
        k.track available (k.next p) rest
termination_by selections => (available.length, sizeOf selections)

/-- Nothing is noted of a spread that is not followed. -/
theorem track_spread_of_none (k : Tracker π α) {available : List Fragment} {name : String}
    (h : Fragment.named? name available = none) (p : π) (ds : List Directive)
    (rest : List Selection) :
    k.track available p (.spread name ds :: rest) = k.track available (k.next p) rest := by
  rw [track]
  split
  · rfl
  · next found => exact absurd (h.symm.trans found) (by simp)

/-- What is noted of a spread that is followed. -/
theorem track_spread_of_some (k : Tracker π α) {available : List Fragment} {name : String}
    {f : Fragment} (h : Fragment.named? name available = some f) (p : π) (ds : List Directive)
    (rest : List Selection) :
    k.track available p (.spread name ds :: rest) =
      k.track (Fragment.without name available) (k.spread p name) f.selections ++
        k.track available (k.next p) rest := by
  rw [track]
  split
  · next found => exact absurd (h.symm.trans found) (by simp)
  · next g found =>
      obtain rfl : f = g := Option.some.inj (h.symm.trans found)
      rfl

/-- The response path can be told from the position that is kept track of, and the occurrence from
what is noted of a field. -/
structure KeepsPaths (k : Tracker π α) (path : π → List String) (occurrence : α → Occurrence) :
    Prop where
  met : ∀ p head selections,
    occurrence (k.met p head selections) = ⟨head, selections, path p ++ [head.responseKey]⟩
  beneath : ∀ p head, path (k.beneath p head) = path p ++ [head.responseKey]
  inside : ∀ p, path (k.inside p) = path p
  next : ∀ p, path (k.next p) = path p
  spread : ∀ p name, path (k.spread p name) = path p

/-- What is noted on a walk are its occurrences, in the same order. -/
theorem KeepsPaths.occurrences_walk {k : Tracker π α} {path : π → List String}
    {occurrence : α → Occurrence} (h : k.KeepsPaths path occurrence)
    (available : List Fragment) (p : π) (selections : List Selection) :
    (walk available (path p) selections).filterMap Step.occurrence? =
      (k.track available p selections).map occurrence := by
  induction available, p, selections using track.induct k with
  | case1 available p => simp [walk, track]
  | case2 available p head selections rest ihBeneath ihRest =>
      rw [h.beneath] at ihBeneath
      rw [h.next] at ihRest
      rw [walk, track, List.filterMap_cons, List.filterMap_append, ihBeneath, ihRest,
        List.map_cons, List.map_append, h.met]
      rfl
  | case3 available p condition? ds selections rest ihInside ihRest =>
      rw [h.inside] at ihInside
      rw [h.next] at ihRest
      rw [walk, track, List.filterMap_append, ihInside, ihRest, List.map_append]
  | case4 available p name ds rest found ihRest =>
      rw [h.next] at ihRest
      rw [walk_spread_of_none found, k.track_spread_of_none found, List.filterMap_cons_none rfl,
        ihRest]
  | case5 available p name ds rest f found _ ihFragment ihRest =>
      rw [h.spread] at ihFragment
      rw [h.next] at ihRest
      rw [walk_spread_of_some found, k.track_spread_of_some found, List.filterMap_append,
        ihFragment, ihRest, List.map_append]

end Tracker

/-! ### The trails of a walk -/

/-- A field met on a walk: the fields above it from the outermost on, the field, and the
selections beneath it. -/
structure Trail where
  above : List Field
  head : Field
  selections : List Selection

namespace Trail

/-- The fields of a trail, the one it leads to included. -/
def fields (t : Trail) : List Field :=
  t.above ++ [t.head]

/-- The response path of a trail. -/
def path (t : Trail) : List String :=
  t.fields.map Field.responseKey

/-- The occurrence that a trail leads to. -/
def occurrence (t : Trail) : Occurrence :=
  ⟨t.head, t.selections, t.path⟩

/-- The last key of a response path is that of the field it leads to. -/
theorem path_eq_concat (t : Trail) :
    t.path = t.above.map Field.responseKey ++ [t.head.responseKey] :=
  List.map_append

/-- The fields above a selection are kept track of. -/
@[simps]
def tracker : Tracker (List Field) Trail where
  met := Trail.mk
  beneath above head := above ++ [head]
  inside above := above
  next above := above
  spread above _ := above

/-- The fields above a selection have the keys of its response path. -/
theorem keepsPaths : tracker.KeepsPaths (·.map Field.responseKey) occurrence where
  met above head selections := by simp [occurrence, path_eq_concat]
  beneath above head := by simp
  inside _ := rfl
  next _ := rfl
  spread _ _ := rfl

/-- A trail begins beneath the given fields, or beneath the end of another trail. -/
theorem above_eq_or_mem {available : List Fragment} {above : List Field}
    {selections : List Selection} {t : Trail} (h : t ∈ tracker.track available above selections) :
    t.above = above ∨ ∃ p ∈ tracker.track available above selections, t.above = p.fields := by
  induction available, above, selections using Tracker.track.induct tracker with
  | case1 available above => simp [Tracker.track] at h
  | case2 available above head selections rest ihBeneath ihRest =>
      rw [Tracker.track] at h ⊢
      rcases List.mem_cons.mp h with rfl | h
      · exact .inl rfl
      rcases List.mem_append.mp h with h | h
      · obtain heq | ⟨p, hp, heq⟩ := ihBeneath h
        · exact .inr ⟨_, List.mem_cons_self, heq⟩
        · exact .inr ⟨p, List.mem_cons_of_mem _ (List.mem_append_left _ hp), heq⟩
      · obtain heq | ⟨p, hp, heq⟩ := ihRest h
        · exact .inl heq
        · exact .inr ⟨p, List.mem_cons_of_mem _ (List.mem_append_right _ hp), heq⟩
  | case3 available above condition? ds selections rest ihBeneath ihRest =>
      rw [Tracker.track] at h ⊢
      rcases List.mem_append.mp h with h | h
      · exact (ihBeneath h).imp_right fun ⟨p, hp, heq⟩ => ⟨p, List.mem_append_left _ hp, heq⟩
      · exact (ihRest h).imp_right fun ⟨p, hp, heq⟩ => ⟨p, List.mem_append_right _ hp, heq⟩
  | case4 available above name ds rest found ihRest =>
      rw [tracker.track_spread_of_none found] at h ⊢
      exact ihRest h
  | case5 available above name ds rest f found _ ihFragment ihRest =>
      rw [tracker.track_spread_of_some found] at h ⊢
      rcases List.mem_append.mp h with h | h
      · exact (ihFragment h).imp_right fun ⟨p, hp, heq⟩ => ⟨p, List.mem_append_left _ hp, heq⟩
      · exact (ihRest h).imp_right fun ⟨p, hp, heq⟩ => ⟨p, List.mem_append_right _ hp, heq⟩

end Trail

namespace Document

/-! ### The trails of a document -/

/-- The trails of an operation of a document. -/
def trails (d : Document) (o : Operation) : List Trail :=
  Trail.tracker.track d.fragments [] o.selections

/-- The trails of all operations of a document. -/
def allTrails (d : Document) : List Trail :=
  d.operations.flatMap d.trails

/-- The fields that the operations of a document select. -/
def occurrences (d : Document) : List Occurrence :=
  d.operations.flatMap fun o => (d.walk o).filterMap Step.occurrence?

/-- The response paths of the fields that the operations of a document select. -/
def responsePaths (d : Document) : List (List String) :=
  d.occurrences.map (·.path)

/-- The fields met on the walk through an operation. -/
theorem occurrences_walk (d : Document) (o : Operation) :
    (d.walk o).filterMap Step.occurrence? = (d.trails o).map Trail.occurrence :=
  Trail.keepsPaths.occurrences_walk d.fragments [] o.selections

/-- The fields that a document selects are those that its trails lead to. -/
theorem occurrences_eq_map (d : Document) : d.occurrences = d.allTrails.map Trail.occurrence := by
  simp only [occurrences, allTrails, List.map_flatMap, occurrences_walk]

/-- The response paths of a document are those of its trails. -/
theorem responsePaths_eq_map (d : Document) : d.responsePaths = d.allTrails.map Trail.path := by
  rw [responsePaths, occurrences_eq_map, List.map_map]
  rfl

/-- The fields found under a name, in order, are those that the trails lead to. -/
theorem findFields_eq_filterMap (d : Document) (o : Operation) (name : String) :
    d.findFields o name = (d.trails o).filterMap fun t =>
      if t.head.name = name then some t.occurrence else none := by
  have hwalk : d.findFields o name = ((d.walk o).filterMap Step.occurrence?).filterMap fun x =>
      if x.head.name = name then some x else none := by
    rw [findFields, List.filterMap_filterMap]
    refine congrArg (fun f => (d.walk o).filterMap f) (funext fun step => ?_)
    cases step <;> rfl
  rw [hwalk, occurrences_walk, List.filterMap_map]
  rfl

/-- A field is found under a name if a trail leads to it. -/
theorem mem_findFields {d : Document} {o : Operation} {name : String} {x : Occurrence} :
    x ∈ d.findFields o name ↔ ∃ t ∈ d.trails o, t.head.name = name ∧ t.occurrence = x := by
  simp [findFields_eq_filterMap]

/-- Trails from the root on: what holds of no fields, and with the fields above a field also with
that field, holds of the fields of every trail. -/
theorem trail_induction {d : Document} {o : Operation} {motive : List Field → Prop}
    (root : motive []) (step : ∀ t ∈ d.trails o, motive t.above → motive t.fields) :
    ∀ t ∈ d.trails o, motive t.fields := by
  intro t ht
  induction h : t.above.length generalizing t with
  | zero =>
      refine step t ht ?_
      rw [List.length_eq_zero_iff.mp h]
      exact root
  | succ n ih =>
      refine step t ht ?_
      obtain habove | ⟨p, hp, habove⟩ := Trail.above_eq_or_mem ht
      · rw [habove]
        exact root
      · rw [habove]
        refine ih p hp ?_
        have := congrArg List.length habove
        rw [h, Trail.fields, List.length_append, List.length_singleton] at this
        omega

/-- Every beginning of a trail is a trail. -/
theorem exists_trail_fields_eq {d : Document} {o : Operation} {t : Trail} (ht : t ∈ d.trails o)
    {fs : List Field} (hfs : fs ≠ []) (h : fs <+: t.fields) : ∃ p ∈ d.trails o, p.fields = fs := by
  revert h
  refine trail_induction (motive := fun gs => fs <+: gs → ∃ p ∈ d.trails o, p.fields = fs)
    (fun h => absurd (List.prefix_nil.mp h) hfs) (fun p hp ih h => ?_) t ht
  rcases List.prefix_concat_iff.mp h with rfl | h
  · exact ⟨p, hp, rfl⟩
  · exact ih h

/-- Every beginning of a response path is a response path. -/
theorem prefix_mem_responsePaths {d : Document} {p q : List String}
    (hp : p ∈ d.responsePaths) (hq : q ≠ []) (h : q <+: p) : q ∈ d.responsePaths := by
  rw [responsePaths_eq_map] at hp ⊢
  obtain ⟨t, ht, rfl⟩ := List.mem_map.mp hp
  obtain ⟨o, ho, ht⟩ := List.mem_flatMap.mp ht
  obtain ⟨fs, hfs, rfl⟩ := List.prefix_map_iff.mp h
  obtain ⟨u, hu, rfl⟩ := exists_trail_fields_eq ht (fun hnil => hq (by rw [hnil]; rfl)) hfs
  exact List.mem_map_of_mem (List.mem_flatMap.mpr ⟨o, ho, hu⟩)

/-- The path is a response path of the document, or that of its root. -/
def Reaches (d : Document) (p : List String) : Prop :=
  p = [] ∨ p ∈ d.responsePaths

/-- What stands before the last key of a response path is reached. -/
theorem reaches_of_concat {d : Document} {p : List String} {key : String}
    (h : p ++ [key] ∈ d.responsePaths) : d.Reaches p := by
  by_cases hnil : p = []
  · exact .inl hnil
  · exact .inr (prefix_mem_responsePaths h hnil (List.prefix_append p [key]))

end Document

end SchemaBridge.Graphql

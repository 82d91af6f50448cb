import Mathlib.Data.List.Forall2
import SchemaBridge.Proofs.Json.Entries
import SchemaBridge.RuleSpec

/-!
# Spellings of rules

A rule specification is written down as one object, and may be spelled in other ways as well: with
its entries in another order or among others, with its coercion named in another way, or as an
array.

* `RuleSpec.Spells`: the values that spell a specification;
* `RuleSpec.decode?_eq_some_iff`: these are the values that describe it, and there are no others;
* `RuleSpec.spells_encode`: what is written down is one of them.
-/

namespace SchemaBridge

open Json (Value)

/-! ### Lists of results -/

/-- Results for all items, one for each. -/
theorem mapM_eq_some_iff {α β : Type} {f : α → Option β} {xs : List α} {ys : List β} :
    xs.mapM f = some ys ↔ List.Forall₂ (fun x y => f x = some y) xs ys := by
  induction xs generalizing ys with
  | nil =>
      rw [List.mapM_nil, List.forall₂_nil_left_iff]
      exact Option.some_inj.trans eq_comm
  | cons x rest ih =>
      simp only [List.mapM_cons, Option.bind_eq_bind, Option.bind_eq_some_iff,
        List.forall₂_cons_left_iff, ih]
      constructor
      · rintro ⟨y, hy, ys', hys, heq⟩
        exact ⟨y, ys', hy, hys, (Option.some.inj heq).symm⟩
      · rintro ⟨y, ys', hy, hys, rfl⟩
        exact ⟨y, hy, ys', hys, rfl⟩

/-! ### Names -/

/-- A kind is found under its name only. -/
theorem RuleKind.ofName?_eq_some_iff {s : String} {kind : RuleKind} :
    RuleKind.ofName? s = some kind ↔ s = kind.name := by
  constructor
  · intro h
    rw [RuleKind.ofName?] at h
    split_ifs at h with h₁ h₂ h₃
    · exact Option.some.inj h ▸ h₁
    · exact Option.some.inj h ▸ h₂
    · exact Option.some.inj h ▸ h₃
  · rintro rfl
    cases kind <;> rfl

/-- A coercion is found under its name only. -/
theorem Coercion.ofName?_eq_some_iff {s : String} {c : Coercion} :
    Coercion.ofName? s = some c ↔ s = c.name := by
  constructor
  · intro h
    rw [Coercion.ofName?] at h
    split_ifs at h with h₁ h₂ h₃ h₄
    · exact Option.some.inj h ▸ h₁
    · exact Option.some.inj h ▸ h₂
    · exact Option.some.inj h ▸ h₃
    · exact Option.some.inj h ▸ h₄
  · rintro rfl
    cases c <;> rfl

/-- The keys of the entries that a rule of a kind is read from. -/
def RuleKind.keys : RuleKind → List String
  | argumentType => ["kind", "fieldName", "argName", "oldType", "newType", "coerceVariable"]
  | argumentName => ["kind", "fieldName", "oldArgName", "newArgName"]
  | fieldName => ["kind", "oldFieldName", "newFieldName"]

/-- They are the keys of the kind, of the texts, and of the coercion where there may be one. -/
theorem RuleKind.keys_eq (kind : RuleKind) :
    kind.keys = kindKey :: kind.textKeys ++ if kind = .argumentType then [coercionKey] else [] := by
  cases kind <;> rfl

/-! ### Coercions -/

/-- The values that name a coercion as an option, where `null` stands for none. -/
inductive NamesCoercion : Option Coercion → Value → Prop
  | null : NamesCoercion none .null
  | string (c : Coercion) : NamesCoercion (some c) (.string c.name)
  | object (c : Coercion) : NamesCoercion (some c) (.object [(c.name, .null)])
  | nested (c : Coercion) : NamesCoercion (some c) (.object [(c.name, .object [])])

/-- A value is read as the coercion that it names. -/
theorem Coercion.decodeOption?_eq_some_iff {v : Value} {c? : Option Coercion} :
    Coercion.decodeOption? v = some c? ↔ NamesCoercion c? v := by
  constructor
  · intro h
    rw [Coercion.decodeOption?.eq_def] at h
    split at h
    · exact Option.some.inj h ▸ .null
    · next s =>
        obtain ⟨c, hc, rfl⟩ := Option.map_eq_some_iff.mp h
        exact ofName?_eq_some_iff.mp hc ▸ .nested c
    · next v _ _ =>
        obtain ⟨c, hc, rfl⟩ := Option.map_eq_some_iff.mp h
        rw [Coercion.decode?.eq_def] at hc
        split at hc
        · exact ofName?_eq_some_iff.mp hc ▸ .string c
        · exact ofName?_eq_some_iff.mp hc ▸ .object c
        · cases hc
  · intro h
    cases h with
    | null => rfl
    | string c => cases c <;> rfl
    | object c => cases c <;> rfl
    | nested c => cases c <;> rfl

namespace RuleSpec

variable {spec : RuleSpec} {entries : List (String × Value)}

/-- The values that are given for the coercion of a rule. Only a rule about types may have one. -/
inductive GivesCoercion (spec : RuleSpec) : List Value → Prop
  | omitted (h : spec.coercion? = none) : GivesCoercion spec []
  | given {v : Value} (hkind : spec.kind = .argumentType) (h : NamesCoercion spec.coercion? v) :
      GivesCoercion spec [v]

/-- A rule of a kind without that option has no coercion. -/
theorem coercion?_eq_none (h : spec.kind ≠ .argumentType) : spec.coercion? = none := by
  cases spec with
  | argumentType field argument oldType newType coercion? => exact absurd rfl h
  | argumentName field oldName newName => rfl
  | fieldName oldName newName => rfl

/-- The values after the texts of an array are read as the coercion that they give. -/
theorem coercionAfter?_eq_some_iff {values : List Value} :
    coercionAfter? spec.kind values = some spec.coercion? ↔ spec.GivesCoercion values := by
  constructor
  · intro h
    rw [coercionAfter?.eq_def] at h
    split at h
    · exact .omitted (Option.some.inj h).symm
    · split_ifs at h with hkind
      exact .given hkind (Coercion.decodeOption?_eq_some_iff.mp h)
    · cases h
  · intro h
    cases h with
    | omitted hnone => rw [coercionAfter?, hnone]
    | given hkind hnames =>
        rw [coercionAfter?, if_pos hkind]
        exact Coercion.decodeOption?_eq_some_iff.mpr hnames

/-! ### Values under keys -/

section Keys

variable {key : String} {own further : List (String × Value)}

/-- The values under a key, for a first entry. -/
theorem valuesUnder_cons (key : String) (e : String × Value) (rest : List (String × Value)) :
    valuesUnder key (e :: rest) =
      if e.1 = key then e.2 :: valuesUnder key rest else valuesUnder key rest := by
  rw [valuesUnder, List.filter_cons]
  by_cases he : e.1 = key <;> simp [he, valuesUnder]

/-- The values under a key, in two parts. -/
theorem valuesUnder_append :
    valuesUnder key (own ++ further) = valuesUnder key own ++ valuesUnder key further := by
  rw [valuesUnder, List.filter_append, List.map_append, valuesUnder, valuesUnder]

/-- No values are under a key that no entry has. -/
theorem valuesUnder_eq_nil_iff : valuesUnder key entries = [] ↔ ∀ e ∈ entries, e.1 ≠ key := by
  rw [valuesUnder, List.map_eq_nil_iff, List.filter_eq_nil_iff]
  simp

/-- Entries in another order have the same values under a key in another order. -/
theorem valuesUnder_perm {others : List (String × Value)} (key : String) (h : entries.Perm others) :
    (valuesUnder key entries).Perm (valuesUnder key others) :=
  (h.filter _).map _

/-- An entry among others with different keys alone has its key. -/
theorem valuesUnder_of_mem {e : String × Value} (hkeys : (own.map Prod.fst).Nodup) (he : e ∈ own) :
    valuesUnder e.1 own = [e.2] := by
  induction own with
  | nil => cases he
  | cons f rest ih =>
      rw [List.map_cons, List.nodup_cons] at hkeys
      obtain ⟨hkey, hrest⟩ := hkeys
      rw [valuesUnder_cons]
      rcases List.mem_cons.mp he with rfl | he
      · have hnone : valuesUnder e.1 rest = [] :=
          valuesUnder_eq_nil_iff.mpr fun g hg heq => hkey (List.mem_map.mpr ⟨g, hg, heq⟩)
        rw [if_pos rfl, hnone]
      · have hne : f.1 ≠ e.1 := fun heq => hkey (List.mem_map.mpr ⟨e, he, heq.symm⟩)
        rw [if_neg hne, ih hrest he]

/-- So it does in any order, and among further entries with other keys. -/
theorem valuesUnder_of_perm {e : String × Value} (h : entries.Perm (own ++ further))
    (hkeys : (own.map Prod.fst).Nodup) (he : e ∈ own) (hfurther : ∀ f ∈ further, f.1 ≠ e.1) :
    valuesUnder e.1 entries = [e.2] := by
  have hperm := valuesUnder_perm e.1 h
  rw [valuesUnder_append, valuesUnder_eq_nil_iff.mpr hfurther, List.append_nil,
    valuesUnder_of_mem hkeys he] at hperm
  exact List.perm_singleton.mp hperm

/-- An entry that alone has its key can be taken out. -/
theorem perm_cons_of_valuesUnder {v : Value} (h : valuesUnder key entries = [v]) :
    entries.Perm ((key, v) :: entries.filter fun e => !decide (e.1 = key)) := by
  obtain ⟨⟨k, w⟩, hfilter, rfl⟩ := List.map_eq_singleton_iff.mp h
  have hk : k = key := by
    have hmem := List.mem_singleton_self (k, w)
    rw [← hfilter, List.mem_filter] at hmem
    simpa using hmem.2
  subst hk
  have hsplit := List.filter_append_perm (fun e : String × Value => decide (e.1 = k)) entries
  rw [hfilter] at hsplit
  exact hsplit.symm

/-- Entries with different keys that alone have them can be taken out. -/
theorem exists_perm_append {own : List (String × Value)} (hkeys : (own.map Prod.fst).Nodup)
    (h : ∀ e ∈ own, valuesUnder e.1 entries = [e.2]) :
    ∃ further, entries.Perm (own ++ further) ∧ ∀ e ∈ further, e.1 ∉ own.map Prod.fst := by
  induction own generalizing entries with
  | nil => exact ⟨entries, .refl _, fun _ _ => List.not_mem_nil⟩
  | cons e rest ih =>
      obtain ⟨key, v⟩ := e
      rw [List.map_cons, List.nodup_cons] at hkeys
      obtain ⟨hkey, hrest⟩ := hkeys
      have hout := perm_cons_of_valuesUnder (h (key, v) List.mem_cons_self)
      -- the others are still there
      have hothers : ∀ f ∈ rest,
          valuesUnder f.1 (entries.filter fun e => !decide (e.1 = key)) = [f.2] := by
        intro f hf
        have hne : key ≠ f.1 := fun heq => hkey (List.mem_map.mpr ⟨f, hf, heq.symm⟩)
        have hvalues := valuesUnder_perm f.1 hout
        rw [h f (List.mem_cons_of_mem _ hf), valuesUnder_cons, if_neg hne] at hvalues
        exact List.perm_singleton.mp hvalues.symm
      obtain ⟨further, hperm, hfurther⟩ := ih hrest hothers
      refine ⟨further, hout.trans (hperm.cons (key, v)), fun f hf hmem => ?_⟩
      rw [List.map_cons, List.mem_cons] at hmem
      rcases hmem with heq | hmem
      · have hfilter := hperm.symm.subset (List.mem_append_right _ hf)
        simpa [heq] using (List.mem_filter.mp hfilter).2
      · exact hfurther f hf hmem

end Keys

/-! ### Objects -/

/-- The entries for the kind and the options of a rule, with the values that are given for its
coercion. -/
def ownEntries (spec : RuleSpec) (coercion : List Value) : List (String × Value) :=
  let options := match spec with
    | argumentType field argument oldType newType _ =>
      [("kind", .string "fieldArgType"), ("fieldName", .string field),
        ("argName", .string argument), ("oldType", .string oldType), ("newType", .string newType)]
    | argumentName field oldName newName =>
      [("kind", .string "fieldArgName"), ("fieldName", .string field),
        ("oldArgName", .string oldName), ("newArgName", .string newName)]
    | fieldName oldName newName =>
      [("kind", .string "fieldName"), ("oldFieldName", .string oldName),
        ("newFieldName", .string newName)]
  options ++ coercion.map ("coerceVariable", ·)

/-- Each text of a rule stands under its key. -/
theorem ownEntries_eq (spec : RuleSpec) (coercion : List Value) :
    spec.ownEntries coercion =
      (kindKey, .string spec.kind.name) :: spec.kind.textKeys.zip (spec.texts.map .string) ++
        coercion.map (coercionKey, ·) := by
  cases spec <;> rfl

/-- As many texts as there are keys. -/
theorem length_texts (spec : RuleSpec) : spec.texts.length = spec.kind.textKeys.length := by
  cases spec <;> rfl

/-- The keys of the entries of a rule. -/
theorem map_fst_ownEntries (spec : RuleSpec) (coercion : List Value) :
    (spec.ownEntries coercion).map Prod.fst =
      kindKey :: spec.kind.textKeys ++ coercion.map fun _ => coercionKey := by
  have hlength : spec.kind.textKeys.length ≤ (spec.texts.map Value.string).length := by
    rw [List.length_map]
    exact Nat.le_of_eq (length_texts spec).symm
  rw [ownEntries_eq, List.map_append, List.map_cons, List.map_fst_zip hlength, List.map_map]
  rfl

/-- The values of the entries of a rule. -/
theorem map_snd_ownEntries (spec : RuleSpec) (coercion : List Value) :
    (spec.ownEntries coercion).map Prod.snd =
      .string spec.kind.name :: (spec.texts.map .string ++ coercion) := by
  have hlength : (spec.texts.map Value.string).length ≤ spec.kind.textKeys.length := by
    rw [List.length_map]
    exact Nat.le_of_eq (length_texts spec)
  have hcoercion : (coercion.map (coercionKey, ·)).map Prod.snd = coercion := by
    rw [List.map_map]
    exact List.map_id coercion
  rw [ownEntries_eq, List.map_append, hcoercion, List.map_cons, List.map_snd_zip hlength,
    List.cons_append]

/-- The entries of a rule have different keys. -/
theorem nodup_ownEntries {coercion : List Value} (h : spec.GivesCoercion coercion) :
    ((spec.ownEntries coercion).map Prod.fst).Nodup := by
  rw [map_fst_ownEntries]
  cases h with
  | omitted hnone => cases spec.kind <;> decide
  | given hkind hnames =>
      rw [hkind, List.map_singleton]
      decide

/-- The text under a key. -/
theorem textUnder?_eq_some_iff {key s : String} :
    textUnder? entries key = some s ↔ valuesUnder key entries = [.string s] := by
  rw [textUnder?]
  constructor
  · intro h
    split at h
    · next t heq => rw [heq, Option.some.inj h]
    · cases h
  · intro h
    rw [h]

/-- What is read of the entries for the coercion of a rule is what is read of the values under its
key. -/
theorem coercionFor?_eq (kind : RuleKind) (entries : List (String × Value)) :
    coercionFor? kind entries =
      coercionAfter? kind
        (if kind = .argumentType then valuesUnder coercionKey entries else []) := by
  rw [coercionFor?]
  split_ifs with hkind
  · simp only [coercionUnder?, coercionAfter?.eq_def, if_pos hkind]
  · rfl

/-- A rule is made of its kind, its texts and its coercion. -/
theorem ofTexts?_self (spec : RuleSpec) :
    ofTexts? spec.kind spec.texts spec.coercion? = some spec := by
  cases spec <;> rfl

/-- What a rule is made of. -/
theorem eq_of_ofTexts? {kind : RuleKind} {texts : List String} {c? : Option Coercion}
    (h : ofTexts? kind texts c? = some spec) :
    kind = spec.kind ∧ texts = spec.texts ∧ (kind = .argumentType → c? = spec.coercion?) := by
  rw [ofTexts?.eq_def] at h
  split at h
  · obtain rfl := Option.some.inj h
    exact ⟨rfl, rfl, fun _ => rfl⟩
  · obtain rfl := Option.some.inj h
    exact ⟨rfl, rfl, fun hkind => by cases hkind⟩
  · obtain rfl := Option.some.inj h
    exact ⟨rfl, rfl, fun hkind => by cases hkind⟩
  · cases h

/-- No coercion is read for a kind without that option. -/
theorem eq_none_of_coercionAfter? {kind : RuleKind} {values : List Value} {c? : Option Coercion}
    (hkind : kind ≠ .argumentType) (h : coercionAfter? kind values = some c?) : c? = none := by
  rw [coercionAfter?.eq_def] at h
  split at h
  · exact (Option.some.inj h).symm
  · rw [if_neg hkind] at h
    cases h
  · cases h

/-- The values that are given for a coercion are read as that coercion, so the texts and these
values make up the rule. -/
theorem exists_coercionAfter?_iff {kind : RuleKind} {texts : List String} {values : List Value} :
    (∃ c?, coercionAfter? kind values = some c? ∧ ofTexts? kind texts c? = some spec) ↔
      kind = spec.kind ∧ texts = spec.texts ∧ spec.GivesCoercion values := by
  constructor
  · rintro ⟨c?, hc, hspec⟩
    obtain ⟨rfl, rfl, hsame⟩ := eq_of_ofTexts? hspec
    refine ⟨rfl, rfl, coercionAfter?_eq_some_iff.mp ?_⟩
    by_cases hkind : spec.kind = .argumentType
    · rw [hc, hsame hkind]
    · rw [hc, eq_none_of_coercionAfter? hkind hc, coercion?_eq_none hkind]
  · rintro ⟨rfl, rfl, hgives⟩
    exact ⟨spec.coercion?, coercionAfter?_eq_some_iff.mpr hgives, ofTexts?_self spec⟩

/-- The entries that describe a rule. -/
theorem ofEntries?_eq_some_iff :
    ofEntries? entries = some spec ↔
      textUnder? entries kindKey = some spec.kind.name ∧
        List.Forall₂ (fun key text => textUnder? entries key = some text) spec.kind.textKeys
          spec.texts ∧
        spec.GivesCoercion
          (if spec.kind = .argumentType then valuesUnder coercionKey entries else []) := by
  simp only [ofEntries?, Option.bind_eq_bind, Option.bind_eq_some_iff,
    RuleKind.ofName?_eq_some_iff, mapM_eq_some_iff, coercionFor?_eq]
  constructor
  · rintro ⟨_, hname, kind, rfl, texts, htexts, hmade⟩
    obtain ⟨rfl, rfl, hgives⟩ := exists_coercionAfter?_iff.mp hmade
    exact ⟨hname, htexts, hgives⟩
  · rintro ⟨hname, htexts, hgives⟩
    exact ⟨_, hname, _, rfl, _, htexts, exists_coercionAfter?_iff.mpr ⟨rfl, rfl, hgives⟩⟩

/-- The keys from which a rule is read are those of its entries, and that of a coercion that may be
left out. -/
theorem mem_keys_iff {key : String} :
    key ∈ spec.kind.keys ↔
      key = kindKey ∨ key ∈ spec.kind.textKeys ∨
        (spec.kind = .argumentType ∧ key = coercionKey) := by
  rw [RuleKind.keys_eq, List.cons_append, List.mem_cons, List.mem_append]
  split_ifs with hkind <;> simp [hkind]

section Entries

variable {coercion : List Value} {further : List (String × Value)}

/-- The entries of a rule are found under their keys exactly if its kind, its texts and what is
given for its coercion are found there. -/
theorem forall_ownEntries_iff :
    (∀ e ∈ spec.ownEntries coercion, valuesUnder e.1 entries = [e.2]) ↔
      textUnder? entries kindKey = some spec.kind.name ∧
        List.Forall₂ (fun key text => textUnder? entries key = some text) spec.kind.textKeys
          spec.texts ∧
        ∀ v ∈ coercion, valuesUnder coercionKey entries = [v] := by
  rw [ownEntries_eq, List.cons_append, List.forall_mem_cons, List.forall_mem_append,
    List.zip_map_right, List.forall_mem_map, List.forall_mem_map, List.forall₂_iff_zip,
    textUnder?_eq_some_iff]
  refine and_congr_right fun _ => and_congr_left fun _ => ?_
  constructor
  · exact fun h => ⟨(length_texts spec).symm, fun hzip => textUnder?_eq_some_iff.mpr (h _ hzip)⟩
  · rintro ⟨-, h⟩ ⟨key, text⟩ hzip
    exact textUnder?_eq_some_iff.mp (h hzip)

/-- The entries of a rule have keys from which it is read. -/
theorem mem_keys_of_ownEntries (h : spec.GivesCoercion coercion) :
    ∀ e ∈ spec.ownEntries coercion, e.1 ∈ spec.kind.keys := by
  intro e he
  have hkey := List.mem_map_of_mem (f := Prod.fst) he
  rw [map_fst_ownEntries, List.cons_append, List.mem_cons, List.mem_append] at hkey
  rw [mem_keys_iff]
  cases h with
  | omitted hnone =>
      simp only [List.map_nil, List.not_mem_nil, or_false] at hkey
      exact hkey.imp_right .inl
  | given hkind hnames => simpa [hkind] using hkey

/-- Only what is given for the coercion of a rule is found under its key. -/
theorem valuesUnder_coercionKey (hgives : spec.GivesCoercion coercion)
    (hkind : spec.kind = .argumentType) (hfurther : ∀ e ∈ further, e.1 ∉ spec.kind.keys)
    (hperm : entries.Perm (spec.ownEntries coercion ++ further)) :
    valuesUnder coercionKey entries = coercion := by
  have hkey : coercionKey ∈ spec.kind.keys := mem_keys_iff.mpr (.inr (.inr ⟨hkind, rfl⟩))
  have hothers : ∀ e ∈ further, e.1 ≠ coercionKey := fun e he heq => hfurther e he (heq ▸ hkey)
  cases hgives with
  | omitted hnone =>
      refine valuesUnder_eq_nil_iff.mpr fun e he heq => ?_
      rcases List.mem_append.mp (hperm.subset he) with hown | hother
      · have hmem := List.mem_map_of_mem (f := Prod.fst) hown
        rw [map_fst_ownEntries, heq, hkind] at hmem
        exact absurd hmem (by decide)
      · exact hothers e hother heq
  | @given v _ hnames =>
      have hmem : (coercionKey, v) ∈ spec.ownEntries [v] := by
        rw [ownEntries_eq]
        exact List.mem_append_right _ (List.mem_singleton_self _)
      exact valuesUnder_of_perm hperm (nodup_ownEntries (.given hkind hnames)) hmem hothers

/-- An object describes a rule exactly if its entries are those of the rule, in any order, and
others with keys that a rule of its kind is not read from. -/
theorem ofEntries?_eq_some_iff_perm :
    ofEntries? entries = some spec ↔
      ∃ coercion further, spec.GivesCoercion coercion ∧ (∀ e ∈ further, e.1 ∉ spec.kind.keys) ∧
        entries.Perm (spec.ownEntries coercion ++ further) := by
  rw [ofEntries?_eq_some_iff]
  constructor
  · rintro ⟨hname, htexts, hgives⟩
    generalize hcoercion :
      (if spec.kind = .argumentType then valuesUnder coercionKey entries else []) = coercion
      at hgives
    have hvalues : ∀ v ∈ coercion, valuesUnder coercionKey entries = [v] := by
      intro v hv
      cases hgives with
      | omitted hnone => cases hv
      | given hkind hnames =>
          obtain rfl := List.mem_singleton.mp hv
          rwa [if_pos hkind] at hcoercion
    have hown := forall_ownEntries_iff.mpr ⟨hname, htexts, hvalues⟩
    obtain ⟨further, hperm, hfurther⟩ := exists_perm_append (nodup_ownEntries hgives) hown
    refine ⟨coercion, further, hgives, fun e he hkey => hfurther e he ?_, hperm⟩
    rw [map_fst_ownEntries, List.cons_append, List.mem_cons, List.mem_append]
    rcases mem_keys_iff.mp hkey with h | h | ⟨hkind, h⟩
    · exact .inl h
    · exact .inr (.inl h)
    · cases hgives with
      | omitted hnone =>
          -- no entry has the key of a coercion that was left out
          rw [if_pos hkind, valuesUnder_eq_nil_iff] at hcoercion
          exact absurd h (hcoercion e (hperm.symm.subset (List.mem_append_right _ he)))
      | given _ hnames => exact .inr (.inr (List.mem_singleton.mpr h))
  · rintro ⟨coercion, further, hgives, hfurther, hperm⟩
    have hown : ∀ e ∈ spec.ownEntries coercion, valuesUnder e.1 entries = [e.2] := by
      intro e he
      have hkey := mem_keys_of_ownEntries hgives e he
      exact valuesUnder_of_perm hperm (nodup_ownEntries hgives) he
        fun f hf heq => hfurther f hf (heq ▸ hkey)
    obtain ⟨hname, htexts, -⟩ := forall_ownEntries_iff.mp hown
    refine ⟨hname, htexts, ?_⟩
    split_ifs with hkind
    · rwa [valuesUnder_coercionKey hgives hkind hfurther hperm]
    · exact .omitted (coercion?_eq_none hkind)

end Entries

/-! ### Arrays -/

/-- Only a string has a text. -/
theorem textOf?_eq_some_iff {v : Value} {s : String} : textOf? v = some s ↔ v = .string s := by
  constructor
  · intro h
    rw [textOf?.eq_def] at h
    split at h
    · rw [Option.some.inj h]
    · cases h
  · rintro rfl
    rfl

/-- The texts of strings. -/
theorem mapM_textOf?_eq_some_iff {values : List Value} {texts : List String} :
    values.mapM textOf? = some texts ↔ values = texts.map .string := by
  rw [mapM_eq_some_iff]
  simp only [textOf?_eq_some_iff]
  rw [← List.forall₂_map_right_iff, List.forall₂_eq_eq_eq]

/-- An array describes a rule exactly if the texts of the rule follow its kind, and then what is
given for its coercion. -/
theorem ofItems?_eq_some_iff {kind : RuleKind} {items : List Value} :
    ofItems? kind items = some spec ↔
      kind = spec.kind ∧
        ∃ coercion, spec.GivesCoercion coercion ∧ items = spec.texts.map .string ++ coercion := by
  simp only [ofItems?, Option.bind_eq_bind, Option.bind_eq_some_iff, mapM_textOf?_eq_some_iff]
  constructor
  · rintro ⟨texts, htexts, hmade⟩
    obtain ⟨rfl, rfl, hgives⟩ := exists_coercionAfter?_iff.mp hmade
    refine ⟨rfl, _, hgives, ?_⟩
    rw [← htexts, List.take_append_drop]
  · rintro ⟨rfl, coercion, hgives, rfl⟩
    have hlength : (spec.texts.map Value.string).length = spec.kind.textKeys.length := by
      rw [List.length_map, length_texts]
    refine ⟨spec.texts, List.take_left' hlength, exists_coercionAfter?_iff.mpr ⟨rfl, rfl, ?_⟩⟩
    rwa [List.drop_left' hlength]

/-! ### Spellings -/

/-- The values that spell a rule: an object with the entries of the rule in any order, among others
that a rule of its kind is not read from, or an array of the same values in order. -/
inductive Spells (spec : RuleSpec) : Value → Prop
  | object {coercion : List Value} {further entries : List (String × Value)}
      (gives : spec.GivesCoercion coercion) (others : ∀ e ∈ further, e.1 ∉ spec.kind.keys)
      (order : entries.Perm (spec.ownEntries coercion ++ further)) : spec.Spells (.object entries)
  | array {coercion : List Value} (gives : spec.GivesCoercion coercion) :
      spec.Spells (.array ((spec.ownEntries coercion).map Prod.snd))

/-- A value describes a rule exactly if it spells it. -/
theorem decode?_eq_some_iff {v : Value} : decode? v = some spec ↔ spec.Spells v := by
  constructor
  · intro h
    rw [decode?.eq_def] at h
    split at h
    · obtain ⟨coercion, further, hgives, hothers, hperm⟩ := ofEntries?_eq_some_iff_perm.mp h
      exact .object hgives hothers hperm
    · simp only [Option.bind_eq_bind, Option.bind_eq_some_iff, RuleKind.ofName?_eq_some_iff,
        ofItems?_eq_some_iff] at h
      obtain ⟨_, rfl, rfl, coercion, hgives, rfl⟩ := h
      rw [← map_snd_ownEntries]
      exact .array hgives
    · cases h
  · intro h
    cases h with
    | object hgives hothers hperm =>
        exact ofEntries?_eq_some_iff_perm.mpr ⟨_, _, hgives, hothers, hperm⟩
    | array hgives =>
        rw [map_snd_ownEntries]
        simp only [decode?, Option.bind_eq_bind, Option.bind_eq_some_iff,
          RuleKind.ofName?_eq_some_iff, ofItems?_eq_some_iff]
        exact ⟨_, rfl, rfl, _, hgives, rfl⟩

/-! ### What is written down -/

/-- The value that is written down for the coercion of a rule, if it has one. -/
def encodedCoercion (spec : RuleSpec) : List Value :=
  spec.coercion?.toList.map fun c => .string c.name

/-- It names that coercion. -/
theorem givesCoercion_encodedCoercion (spec : RuleSpec) :
    spec.GivesCoercion spec.encodedCoercion := by
  cases spec with
  | argumentType field argument oldType newType coercion? =>
      cases coercion? with
      | none => exact .omitted rfl
      | some c => exact .given rfl (.string c)
  | argumentName field oldName newName => exact .omitted rfl
  | fieldName oldName newName => exact .omitted rfl

/-- The entries of a rule are written down in ascending order. -/
theorem encode_eq (spec : RuleSpec) :
    spec.encode = .object (Entries.ofList (spec.ownEntries spec.encodedCoercion)) := by
  cases spec with
  | argumentType field argument oldType newType coercion? => cases coercion? <;> rfl
  | argumentName field oldName newName => rfl
  | fieldName oldName newName => rfl

/-- They are the entries of the rule. -/
theorem perm_encode (spec : RuleSpec) :
    (Entries.ofList (spec.ownEntries spec.encodedCoercion)).Perm
      (spec.ownEntries spec.encodedCoercion) :=
  Entries.perm_ofList (nodup_ownEntries (givesCoercion_encodedCoercion spec))

/-- What is written down for a rule spells it. -/
theorem spells_encode (spec : RuleSpec) : spec.Spells spec.encode := by
  rw [encode_eq]
  refine .object (givesCoercion_encodedCoercion spec) (fun _ h => absurd h List.not_mem_nil) ?_
  rw [List.append_nil]
  exact perm_encode spec

end RuleSpec

end SchemaBridge

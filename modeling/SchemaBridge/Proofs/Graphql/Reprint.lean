import SchemaBridge.Proofs.Graphql.Nesting
import SchemaBridge.Proofs.Graphql.ReadDocument

/-!
# Printing changed documents

A change of fields that keeps them as the grammar forms them, and does not touch what is read again
between them, keeps the printed document readable: if the text of the document is read, so is the
text of the changed document, and if the former shows the selections of its document, so does the
latter.

* `Document.selections`: the selections of a document, definition by definition;
* `Reprints`: from one document to another, readable text stays readable and shows its selections;
* `KeepsText`: what is asked of a change of fields; `KeepsText.reprints`: that it is enough;
* `Reprints.exists_read?_print`: what `Reprints` says about texts.
-/

namespace SchemaBridge.Graphql

open Scanned

/-- The selections of a document, definition by definition. -/
def Document.selections (d : Document) : List (List Selection) :=
  d.definitions.map Definition.selections

/-- A document as the grammar forms it stays one, its tokens stay within the limit on brackets, and
if its selections are read again as they are, then so are those of the other document. -/
structure Reprints (d e : Document) : Prop where
  formed : e.Formed
  fits : d.scan.Fits maxNesting → e.scan.Fits maxNesting
  selections : d.reread.selections = d.selections → e.reread.selections = e.selections

/-- A document and itself. -/
theorem Reprints.refl {d : Document} (h : d.Formed) : Reprints d d :=
  ⟨h, id, id⟩

/-- From one document to another and on to a third one. -/
theorem Reprints.trans {d e f : Document} (h : Reprints d e) (h' : Reprints e f) : Reprints d f :=
  ⟨h'.formed, h'.fits ∘ h.fits, h'.selections ∘ h.selections⟩

/-- If the text of a document is read, so is the text of the other one, and it shows the selections
if the first one does. -/
theorem Reprints.exists_read?_print {d e d' : Document} (h : Reprints d e) (hd : d.Formed)
    (hread : Document.read? d.print = some d') :
    ∃ e', Document.read? e.print = some e' ∧
      (d'.selections = d.selections → e'.selections = e.selections) := by
  obtain ⟨hfits, rfl⟩ := hd.read?_print_eq_some_iff.mp hread
  exact ⟨e.reread, h.formed.read?_print_eq_some_iff.mpr ⟨h.fits hfits, rfl⟩, h.selections⟩

/-- A type that leaves no room for the parenthesis around it makes the text of a document
unreadable, if it is printed at all. -/
theorem Document.Formed.read?_print_eq_none {d : Document} (hd : d.Formed) {o : Operation}
    (ho : .operation o ∈ d.definitions) {header : OperationHeader}
    (hheader : o.header? = some header)
    {v : VariableDefinition} (hv : v ∈ header.printedVariables)
    (hdeep : maxNesting ≤ v.type.nesting) : Document.read? d.print = none := by
  by_contra hread
  obtain ⟨e, he⟩ := Option.ne_none_iff_exists'.mp hread
  obtain ⟨hfits, -⟩ := hd.read?_print_eq_some_iff.mp he
  have hdefinition := Document.fits_scan.mp hfits _ ho
  rw [Definition.scan, hheader, fits_append (balanced_head _)] at hdefinition
  have hvariables := (OperationHeader.fits_scan.mp hdefinition.1).1
  rcases fits_variables.mp hvariables with hempty | ⟨inner, hinner, hfits⟩
  · rw [hempty] at hv
    exact absurd hv List.not_mem_nil
  · have hnesting := (VariableDefinition.fits_scan.mp (hfits v hv)).1
    omega

/-! ### Changes of fields -/

/-- A change of fields keeps fields as the grammar forms them, opens no further brackets, and
changes what is read again as it changes the field itself. -/
structure KeepsText (f : Field → Field) : Prop where
  formed : ∀ {head : Field}, head.Formed → (f head).Formed
  noDeeper : ∀ (indent : Nat) (head : Field), NoDeeper (head.scan indent) ((f head).scan indent)
  reread : ∀ (indent : Nat) (head : Field), (f head).reread indent = f (head.reread indent)

/-- A change of fields leaves no braces empty that were not. -/
theorem mapSelections_eq_nil_iff {f : Field → Field} {selections : List Selection} :
    mapSelections f selections = [] ↔ selections = [] := by
  cases selections with
  | nil => simp [mapSelections]
  | cons s others => cases s <;> simp [mapSelections]

/-- A change of the fields of one name has to keep those fields as the grammar forms them. -/
theorem KeepsText.onlyNamed {f : Field → Field} {name : String}
    (formed : ∀ {head : Field}, head.Formed → head.name = name → (f head).Formed)
    (noDeeper : ∀ (indent : Nat) (head : Field),
      NoDeeper (head.scan indent) ((f head).scan indent))
    (reread : ∀ (indent : Nat) (head : Field), (f head).reread indent = f (head.reread indent)) :
    KeepsText (onlyNamed name f) where
  formed {head} hhead := by
    rw [Graphql.onlyNamed]
    split_ifs with hname
    · exact formed hhead hname
    · exact hhead
  noDeeper indent head := by
    rw [Graphql.onlyNamed]
    split_ifs
    · exact noDeeper indent head
    · exact .refl (head.balanced_scan indent)
  reread indent head := by
    have hname : (head.reread indent).name = head.name := rfl
    rw [Graphql.onlyNamed, Graphql.onlyNamed, hname]
    split_ifs
    · exact reread indent head
    · rfl

namespace KeepsText

variable {f : Field → Field} (h : KeepsText f)

include h

/-- Changed selections open no further brackets. -/
theorem noDeeper_mapSelections (indent : Nat) (selections : List Selection) :
    NoDeeper (selectionsScan indent selections)
      (selectionsScan indent (mapSelections f selections)) := by
  induction indent, selections using selectionsScan.induct with
  | case1 indent =>
      rw [mapSelections, selectionsScan]
      exact .refl balanced_nil
  | case2 indent head rest ihRest =>
      rw [mapSelections, mapSelections, selectionsScan, selectionsScan]
      exact (h.noDeeper indent head).append ihRest
  | case3 indent head selections rest hbranch ihBeneath ihRest =>
      have hbranch' : mapSelections f selections = [] → False :=
        hbranch ∘ mapSelections_eq_nil_iff.mp
      rw [mapSelections, selectionsScan.eq_3 _ _ _ _ hbranch, selectionsScan.eq_3 _ _ _ _ hbranch']
      exact ((h.noDeeper indent head).append ihBeneath.braces).append ihRest
  | case4 indent fragment ds rest ihRest =>
      rw [mapSelections, selectionsScan, selectionsScan]
      exact (NoDeeper.refl ((balanced_ellipsis.append (balanced_name fragment)).append
        (balanced_directives indent ds))).append ihRest
  | case5 indent condition? ds selections rest ihBeneath ihRest =>
      rw [mapSelections, selectionsScan, selectionsScan]
      exact ((NoDeeper.refl ((balanced_ellipsis.append (balanced_condition condition?)).append
        (balanced_directives indent ds))).append ihBeneath.braces).append ihRest

/-- Changed selections are read again as what is read again changes. -/
theorem rereadSelections_mapSelections (indent : Nat) (selections : List Selection) :
    rereadSelections indent (mapSelections f selections) =
      mapSelections f (rereadSelections indent selections) := by
  induction indent, selections using rereadSelections.induct with
  | case1 => rw [mapSelections, rereadSelections, mapSelections]
  | case2 indent head selections rest ihBeneath ihRest =>
      rw [mapSelections, rereadSelections, rereadSelections, mapSelections, ihBeneath, ihRest,
        h.reread]
  | case3 indent fragment ds rest ihRest =>
      rw [mapSelections, rereadSelections, rereadSelections, mapSelections, ihRest]
  | case4 indent condition? ds selections rest ihBeneath ihRest =>
      rw [mapSelections, rereadSelections, rereadSelections, mapSelections, ihBeneath, ihRest]

/-- A change of fields keeps selections as the grammar forms them. -/
theorem formed_mapSelections {selections : List Selection}
    (hselections : SelectionSet.Formed selections) :
    SelectionSet.Formed (mapSelections f selections) := by
  refine ⟨hselections.every.mapSelections fun s hs => ?_,
    mapSelections_eq_nil_iff.not.mpr hselections.nonempty⟩
  cases s with
  | field head beneath => exact h.formed hs
  | spread fragment ds => exact hs
  | inlineFragment condition? ds beneath =>
      exact ⟨hs.1, hs.2.1, mapSelections_eq_nil_iff.not.mpr hs.2.2⟩

/-- A change of fields keeps a definition as the grammar forms it. -/
theorem formed_mapFields {definition : Definition} (hformed : definition.Formed) :
    (definition.mapFields f).Formed := by
  cases definition with
  | operation o =>
      have ho : o.Formed := hformed
      exact (⟨ho.header, h.formed_mapSelections ho.selections⟩ : (o.mapFields f).Formed)
  | fragment g =>
      have hg : g.Formed := hformed
      exact (⟨hg.name, hg.condition, hg.directives, h.formed_mapSelections hg.selections⟩ :
        (g.mapFields f).Formed)

/-- A changed definition opens no further brackets. -/
theorem noDeeper_mapFields (definition : Definition) :
    NoDeeper definition.scan (definition.mapFields f).scan := by
  cases definition with
  | operation o =>
      exact (NoDeeper.refl (balanced_head o.header?)).append
        (h.noDeeper_mapSelections 2 o.selections).braces
  | fragment g =>
      exact (NoDeeper.refl (balanced_fragmentHead g)).append
        (h.noDeeper_mapSelections 2 g.selections).braces

/-- The selections of a changed definition are read again as what is read again changes. -/
theorem selections_reread_mapFields (definition : Definition) :
    (definition.mapFields f).reread.selections =
      mapSelections f definition.reread.selections := by
  cases definition with
  | operation o => exact h.rereadSelections_mapSelections 2 o.selections
  | fragment g => exact h.rereadSelections_mapSelections 2 g.selections

/-- **A change of fields that keeps the text of fields keeps the text of documents.** -/
theorem reprints {d : Document} (hd : d.Formed) : Reprints d (d.mapFields f) where
  formed := by
    refine ⟨fun definition hdefinition => ?_,
      fun hempty => hd.nonempty (List.map_eq_nil_iff.mp hempty)⟩
    obtain ⟨before, hbefore, rfl⟩ := List.mem_map.mp hdefinition
    exact h.formed_mapFields (hd.definitions before hbefore)
  fits hfits := by
    rw [Document.fits_scan] at hfits ⊢
    intro definition hdefinition
    obtain ⟨before, hbefore, rfl⟩ := List.mem_map.mp hdefinition
    exact (h.noDeeper_mapFields before).fits (hfits before hbefore)
  selections hselections := by
    simp only [Document.selections, Document.reread, Document.mapFields, List.map_map]
      at hselections ⊢
    refine List.map_congr_left fun definition hdefinition => ?_
    have hbefore := List.map_inj_left.mp hselections definition hdefinition
    simp only [Function.comp_apply] at hbefore ⊢
    rw [h.selections_reread_mapFields, hbefore]
    cases definition <;> rfl

end KeepsText

end SchemaBridge.Graphql

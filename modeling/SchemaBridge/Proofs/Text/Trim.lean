import Mathlib.Data.List.TakeWhile
import SchemaBridge.Text.Blank

/-!
# Trimming

What trimming takes away, and what it leaves.

* `isBlank_of_visible`: which characters are not blank;
* `Blank`: a run of blank characters, possibly none;
* `Trimmed`: a text without blank characters at its ends;
* `exists_eq_append_trim`: a text is what trimming leaves, between two runs of blanks;
* `trim_append`: trimming takes runs of blanks away from a text without blanks at its ends, and
  nothing else.
-/

namespace SchemaBridge.Text

/-- A run of blank characters, possibly none. -/
def Blank (cs : List Char) : Prop :=
  ∀ c ∈ cs, isBlank c = true

/-- The characters from the exclamation mark to the tilde are not blank. -/
theorem isBlank_of_visible {c : Char} (h : 0x21 ≤ c.toNat ∧ c.toNat ≤ 0x7E) :
    isBlank c = false := by
  by_contra hblank
  simp only [isBlank, CharRanges.contains, blankRanges, List.any_cons, List.any_nil,
    Bool.not_eq_false, Bool.or_eq_true, Bool.and_eq_true, decide_eq_true_eq, Bool.false_eq_true,
    or_false] at hblank
  omega

/-- The text begins with no blank character, and ends with none. -/
structure Trimmed (cs : List Char) : Prop where
  head : ∀ c ∈ cs.head?, isBlank c = false
  last : ∀ c ∈ cs.getLast?, isBlank c = false

/-- No characters are a run of blanks. -/
theorem blank_nil : Blank [] :=
  fun _ h => absurd h List.not_mem_nil

/-- Two runs of blanks are one. -/
theorem Blank.append {ws ws' : List Char} (h : Blank ws) (h' : Blank ws') : Blank (ws ++ ws') :=
  fun c hc => (List.mem_append.mp hc).elim (h c) (h' c)

/-- Blanks at the front are trimmed away. -/
theorem trimStart_append {ws : List Char} (h : Blank ws) (cs : List Char) :
    trimStart (ws ++ cs) = trimStart cs :=
  List.dropWhile_append_of_pos h

/-- Blanks at the back are trimmed away. -/
theorem trimEnd_append {ws : List Char} (h : Blank ws) (cs : List Char) :
    trimEnd (cs ++ ws) = trimEnd cs := by
  have hreverse : ∀ c ∈ ws.reverse, isBlank c = true := fun c hc => h c (List.mem_reverse.mp hc)
  rw [trimEnd, List.reverse_append, List.dropWhile_append_of_pos hreverse, trimEnd]

/-- A text that begins with no blank has nothing to be trimmed at the front. -/
theorem trimStart_eq_self {cs : List Char} (h : ∀ c ∈ cs.head?, isBlank c = false) :
    trimStart cs = cs := by
  cases cs with
  | nil => rfl
  | cons c rest => rw [trimStart, List.dropWhile_cons_of_neg (by simp [h c rfl])]

/-- A text that ends with no blank has nothing to be trimmed at the back. -/
theorem trimEnd_eq_self {cs : List Char} (h : ∀ c ∈ cs.getLast?, isBlank c = false) :
    trimEnd cs = cs := by
  have hreverse : trimStart cs.reverse = cs.reverse :=
    trimStart_eq_self (by rwa [List.head?_reverse])
  rw [trimStart] at hreverse
  rw [trimEnd, hreverse, List.reverse_reverse]

/-- Trimming takes away the blanks around a text that has none at its ends. -/
theorem trim_append {ws cs ws' : List Char} (hws : Blank ws) (hcs : Trimmed cs)
    (hws' : Blank ws') : trim (ws ++ cs ++ ws') = cs := by
  rw [trim, List.append_assoc, trimStart_append hws]
  cases cs with
  | nil =>
      -- nothing but blanks is left
      rw [List.nil_append, trimStart, List.dropWhile_eq_nil_iff.mpr hws']
      rfl
  | cons c rest =>
      have hhead : ∀ d ∈ (c :: rest ++ ws').head?, isBlank d = false := hcs.head
      rw [trimStart_eq_self hhead, trimEnd_append hws', trimEnd_eq_self hcs.last]

/-- A text is what is left by trimming it at the back, with blanks behind it. -/
theorem exists_eq_append_trimEnd (cs : List Char) :
    ∃ ws, Blank ws ∧ cs = trimEnd cs ++ ws := by
  refine ⟨(cs.reverse.takeWhile isBlank).reverse, fun c hc => ?_, ?_⟩
  · exact List.mem_takeWhile_imp (List.mem_reverse.mp hc)
  · rw [trimEnd, ← List.reverse_append, List.takeWhile_append_dropWhile, List.reverse_reverse]

/-- A text is what is left by trimming it, between two runs of blanks. -/
theorem exists_eq_append_trim (cs : List Char) :
    ∃ ws ws', Blank ws ∧ Blank ws' ∧ cs = ws ++ trim cs ++ ws' := by
  obtain ⟨ws', hws', heq⟩ := exists_eq_append_trimEnd (trimStart cs)
  refine ⟨cs.takeWhile isBlank, ws', fun c hc => List.mem_takeWhile_imp hc, hws', ?_⟩
  calc cs = cs.takeWhile isBlank ++ trimStart cs := List.takeWhile_append_dropWhile.symm
    _ = cs.takeWhile isBlank ++ (trim cs ++ ws') := congrArg _ heq
    _ = cs.takeWhile isBlank ++ trim cs ++ ws' := (List.append_assoc ..).symm

/-- What is left at the back ends with no blank. -/
theorem last_trimEnd (cs : List Char) : ∀ c ∈ (trimEnd cs).getLast?, isBlank c = false := by
  intro c hc
  rw [trimEnd, List.getLast?_reverse] at hc
  exact Bool.eq_false_iff.mpr fun h => by
    have := List.head?_dropWhile_not isBlank cs.reverse
    rw [Option.mem_def.mp hc] at this
    simp [h] at this

end SchemaBridge.Text

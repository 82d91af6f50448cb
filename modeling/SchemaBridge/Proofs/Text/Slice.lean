/-!
# Byte offsets

A text can be cut at a byte offset of its UTF-8 form only where a character begins or the text ends.

* `byteLength`: the number of bytes of a text;
* `cutAt?`: the two parts of a text cut at an offset, if no character is cut;
* `cutAt?_eq_some_iff`: a text is cut at the length of each part that it begins with, and nowhere
  else;
* `offset?`: where the first character with a property begins.
-/

namespace SchemaBridge.Text

/-- The number of bytes of a text. -/
def byteLength : List Char → Nat
  | [] => 0
  | c :: rest => c.utf8Size + byteLength rest

/-- The parts of a text before and after a byte offset; `none` if the offset lies within a character
or beyond the end. -/
def cutAt? : List Char → Nat → Option (List Char × List Char)
  | cs, 0 => some ([], cs)
  | [], _ + 1 => none
  | c :: rest, offset + 1 =>
    if offset + 1 < c.utf8Size then none
    else (cutAt? rest (offset + 1 - c.utf8Size)).map fun (before, after) => (c :: before, after)

/-- The byte offset at which the first character with a property begins. -/
def offset? (p : Char → Bool) : List Char → Option Nat
  | [] => none
  | c :: rest => if p c then some 0 else (offset? p rest).map (c.utf8Size + ·)

variable {cs before after : List Char} {offset : Nat}

/-- No characters have no bytes. -/
@[simp] theorem byteLength_nil : byteLength [] = 0 := rfl

/-- The bytes of the first character and of the others. -/
@[simp] theorem byteLength_cons (c : Char) (rest : List Char) :
    byteLength (c :: rest) = c.utf8Size + byteLength rest := rfl

/-- The bytes of two texts. -/
@[simp] theorem byteLength_append (cs ds : List Char) :
    byteLength (cs ++ ds) = byteLength cs + byteLength ds := by
  induction cs with
  | nil => rw [List.nil_append, byteLength_nil, Nat.zero_add]
  | cons c rest ih => rw [List.cons_append, byteLength_cons, ih, byteLength_cons, Nat.add_assoc]

/-- Only the empty text has no bytes. -/
theorem eq_nil_of_byteLength (h : byteLength cs = 0) : cs = [] := by
  cases cs with
  | nil => rfl
  | cons c rest =>
      have hpos := c.utf8Size_pos
      rw [byteLength_cons] at h
      omega

/-- A text is cut at the length of a part that it begins with. -/
theorem cutAt?_append (before after : List Char) :
    cutAt? (before ++ after) (byteLength before) = some (before, after) := by
  induction before with
  | nil => cases after <;> rfl
  | cons c rest ih =>
      obtain ⟨n, hn⟩ := Nat.exists_eq_succ_of_ne_zero
        (by have := c.utf8Size_pos; rw [byteLength_cons]; omega : byteLength (c :: rest) ≠ 0)
      have hlength : n + 1 - c.utf8Size = byteLength rest := by
        rw [byteLength_cons] at hn
        omega
      rw [hn, List.cons_append, cutAt?, hlength, ih, if_neg (by rw [byteLength_cons] at hn; omega)]
      rfl

/-- The parts of a text that is cut make up the text, and the offset is the length of the first
one. -/
theorem eq_append_of_cutAt? (h : cutAt? cs offset = some (before, after)) :
    cs = before ++ after ∧ byteLength before = offset := by
  induction cs, offset using cutAt?.induct generalizing before with
  | case1 cs =>
      rw [cutAt?] at h
      obtain ⟨rfl, rfl⟩ := Prod.mk.inj (Option.some.inj h)
      exact ⟨rfl, rfl⟩
  | case2 n => cases h
  | case3 c rest n hwithin =>
      rw [cutAt?, if_pos hwithin] at h
      cases h
  | case4 c rest n hwithin ih =>
      rw [cutAt?, if_neg hwithin] at h
      obtain ⟨⟨first, second⟩, hcut, heq⟩ := Option.map_eq_some_iff.mp h
      obtain ⟨rfl, rfl⟩ := Prod.mk.inj heq
      obtain ⟨rfl, hlength⟩ := ih hcut
      refine ⟨rfl, ?_⟩
      rw [byteLength_cons, hlength]
      omega

/-- A text is cut at the lengths of the parts that it begins with, and nowhere else. -/
theorem cutAt?_eq_some_iff :
    cutAt? cs offset = some (before, after) ↔
      cs = before ++ after ∧ byteLength before = offset := by
  refine ⟨eq_append_of_cutAt?, ?_⟩
  rintro ⟨rfl, rfl⟩
  exact cutAt?_append before after

/-- The first character with a property begins where the run of characters without it ends. -/
theorem getD_offset? (p : Char → Bool) (cs : List Char) :
    (offset? p cs).getD (byteLength cs) = byteLength (cs.takeWhile fun c => !p c) := by
  induction cs with
  | nil => rfl
  | cons c rest ih =>
      rw [offset?]
      by_cases hc : p c = true
      · rw [if_pos hc, List.takeWhile_cons_of_neg (by simp [hc])]
        rfl
      · rw [if_neg hc, List.takeWhile_cons_of_pos (by simpa using hc), byteLength_cons,
          byteLength_cons, ← ih]
        cases offset? p rest <;> rfl

end SchemaBridge.Text

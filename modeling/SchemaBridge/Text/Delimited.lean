/-!
# Delimited text

* `quotedBody?`: the characters up to a closing quote, where a backslash takes the quote after
  it into the text;
* `length_after_quotedBody`: what follows is shorter than the text from the opening quote on.
-/

namespace SchemaBridge.Text

/-- The characters up to the closing quote, with escapes untouched, and what follows it. -/
def quotedBody? : List Char → Option (List Char × List Char)
  | [] => none
  | '"' :: rest => some ([], rest)
  | '\\' :: c :: rest => (quotedBody? rest).map fun (body, after) => ('\\' :: c :: body, after)
  | c :: rest => (quotedBody? rest).map fun (body, after) => (c :: body, after)

/-- What follows a string is shorter than the text from the opening quote on. -/
theorem length_after_quotedBody {cs body after : List Char}
    (h : quotedBody? cs = some (body, after)) : after.length < cs.length := by
  fun_induction quotedBody? cs generalizing body after with
  | case1 => simp at h
  | case2 rest =>
    simp only [Option.some.injEq, Prod.mk.injEq] at h
    simp [h.2]
  | case3 c rest ih =>
    simp only [Option.map_eq_some_iff, Prod.mk.injEq] at h
    obtain ⟨⟨b, a⟩, hb, -, rfl⟩ := h
    have := ih hb
    simp only [List.length_cons]
    omega
  | case4 c rest _ _ ih =>
    simp only [Option.map_eq_some_iff, Prod.mk.injEq] at h
    obtain ⟨⟨b, a⟩, hb, -, rfl⟩ := h
    have := ih hb
    simp only [List.length_cons]
    omega

end SchemaBridge.Text

import SchemaBridge.Proofs.Graphql.Scan

/-!
# Scanning strings

The written form of a string ends at its closing quotes and not before, since all quotes in it are
escaped. What it denotes need not be the string that was written.

* `PassedOver`: characters among which no string ends;
* `quotedBody?_lineBody`: a string on one line is scanned up to its closing quote;
* `blockBody?_blockBody`: a block is scanned up to its closing quotes;
* `writtenString?`: the string that a written form denotes;
* `scans_stringText`: the written form is scanned as that string.
-/

namespace SchemaBridge.Graphql

/-! ### Characters that end nothing -/

section PassedOver

/-- Characters that the search for the end of a string passes over, whatever follows them. -/
def PassedOver (body? : List Char → Option (List Char × List Char)) (cs : List Char) : Prop :=
  ∀ rest, body? (cs ++ rest) = (body? rest).map fun (body, after) => (cs ++ body, after)

variable {body? : List Char → Option (List Char × List Char)} {cs ds : List Char}

/-- No characters. -/
theorem passedOver_nil : PassedOver body? [] := fun rest => by
  cases h : body? rest <;> simp [h]

/-- Characters one after the other. -/
theorem PassedOver.append (hcs : PassedOver body? cs) (hds : PassedOver body? ds) :
    PassedOver body? (cs ++ ds) := by
  intro rest
  rw [List.append_assoc, hcs, hds, Option.map_map]
  refine Option.map_congr fun _ _ => ?_
  simp

/-- Many runs of characters. -/
theorem passedOver_flatMap {α : Type} {f : α → List Char} (items : List α)
    (h : ∀ item ∈ items, PassedOver body? (f item)) : PassedOver body? (items.flatMap f) := by
  induction items with
  | nil => exact passedOver_nil
  | cons item rest ih =>
      rw [List.flatMap_cons]
      exact (h item List.mem_cons_self).append
        (ih fun other hother => h other (List.mem_cons_of_mem _ hother))

/-- Characters each of which is passed over. -/
theorem passedOver_of_forall (h : ∀ c ∈ cs, PassedOver body? [c]) : PassedOver body? cs := by
  have hall := passedOver_flatMap cs h
  rwa [List.flatMap_singleton'] at hall

/-- Characters that are passed over are the string, if it ends after them. -/
theorem PassedOver.body?_eq (h : PassedOver body? cs) {rest after : List Char}
    (hend : body? rest = some ([], after)) : body? (cs ++ rest) = some (cs, after) := by
  rw [h, hend, Option.map_some]
  simp

end PassedOver

/-! ### Strings on one line -/

/-- A character that is neither a quote nor a backslash. -/
theorem passedOver_singleton {c : Char} (hquote : c ≠ '"') (hslash : c ≠ '\\') :
    PassedOver Text.quotedBody? [c] := by
  intro rest
  rw [List.singleton_append, Text.quotedBody?.eq_4 c rest hquote fun _ _ h _ => absurd h hslash]
  rfl

/-- A backslash and the character after it. -/
theorem passedOver_escape (c : Char) : PassedOver Text.quotedBody? ['\\', c] :=
  fun rest => Text.quotedBody?.eq_3 c rest

/-- A digit is neither a quote nor a backslash. -/
theorem ne_of_isDigit {c : Char} (h : c.isDigit = true) : c ≠ '"' ∧ c ≠ '\\' := by
  constructor <;>
  · rintro rfl
    exact absurd h (by decide)

/-- One character as it is written on one line. -/
theorem passedOver_escapedChar (c : Char) :
    PassedOver Text.quotedBody? (escapedChar c).toList := by
  have hdigits : ∀ d ∈ List.replicate (4 - (Text.digitsOf c.toNat).length) '0' ++
      Text.digitsOf c.toNat, d.isDigit = true := by
    intro d hd
    rcases List.mem_append.mp hd with hd | hd
    · rw [List.eq_of_mem_replicate hd]
      rfl
    · exact Nat.isDigit_of_mem_toDigits (by omega) (by omega) hd
  rw [escapedChar]
  split_ifs with h₁ h₂ h₃ h₄ h₅ h₆
  · exact passedOver_escape 'r'
  · exact passedOver_escape 'n'
  · exact passedOver_escape 't'
  · exact passedOver_escape '"'
  · exact passedOver_escape '\\'
  · exact String.toList_singleton c ▸ passedOver_singleton h₄ h₅
  · simp only [String.toList_append, String.toList_ofList]
    refine (passedOver_escape 'u').append (passedOver_of_forall fun d hd => ?_)
    obtain ⟨hquote, hslash⟩ := ne_of_isDigit (hdigits d hd)
    exact passedOver_singleton hquote hslash

/-- The characters of a string as they are written on one line, without the quotes. -/
def lineBody (s : String) : List Char :=
  s.toList.flatMap fun c => (escapedChar c).toList

/-- A string on one line is scanned up to its closing quote. -/
theorem quotedBody?_lineBody (s : String) (rest : List Char) :
    Text.quotedBody? (lineBody s ++ '"' :: rest) = some (lineBody s, rest) :=
  (passedOver_flatMap s.toList fun c _ => passedOver_escapedChar c).body?_eq
    (Text.quotedBody?.eq_2 rest)

/-! ### Blocks -/

/-- Where a run of two quotes begins in escaped text, two quotes were before. -/
theorem eq_of_escapeBlock_append {cs rest after : List Char}
    (h : escapeBlock cs ++ '\n' :: rest = '"' :: '"' :: after) : ∃ ds, cs = '"' :: '"' :: ds := by
  -- the first character that is not escaped stays where it is
  have hhead : ∀ {cs tail : List Char}, escapeBlock cs ++ '\n' :: rest = '"' :: tail →
      ∃ ds, cs = '"' :: ds ∧ escapeBlock ds ++ '\n' :: rest = tail := by
    intro cs tail h
    cases cs using escapeBlock.induct with
    | case1 => cases h
    | case2 ds => rw [escapeBlock.eq_2] at h; cases h
    | case3 c ds hplain =>
        rw [escapeBlock.eq_3 c ds hplain, List.cons_append, List.cons.injEq] at h
        exact ⟨ds, by rw [h.1], h.2⟩
  obtain ⟨ds, rfl, htail⟩ := hhead h
  obtain ⟨es, rfl, -⟩ := hhead htail
  exact ⟨es, rfl⟩

/-- A line of escaped text does not close a block, and what follows it is read as if nothing had
been before. -/
theorem blockBody?_escapeBlock (escaped : Bool) (cs rest : List Char) :
    blockBody? escaped (escapeBlock cs ++ '\n' :: rest) =
      (blockBody? false rest).map fun (body, after) =>
        (escapeBlock cs ++ '\n' :: body, after) := by
  induction cs using escapeBlock.induct generalizing escaped with
  | case1 => exact blockBody?.eq_3 escaped '\n' rest (by simp)
  | case2 tail ih =>
      rw [escapeBlock.eq_2, List.cons_append, blockBody?.eq_3 escaped '\\' _ (by simp),
        decide_eq_true rfl, List.cons_append, List.cons_append, List.cons_append, blockBody?.eq_2,
        if_pos rfl, ih, Option.map_map, Option.map_map]
      rfl
  | case3 c tail hplain ih =>
      have hopen : ∀ after, c = '"' → escapeBlock tail ++ '\n' :: rest = '"' :: '"' :: after →
          False := by
        intro after hc h
        obtain ⟨ds, rfl⟩ := eq_of_escapeBlock_append h
        exact hplain ds hc rfl
      rw [escapeBlock.eq_3 c tail hplain, List.cons_append, blockBody?.eq_3 escaped c _ hopen, ih,
        Option.map_map]
      rfl

/-- A space ends no block, and leaves no backslash open. -/
theorem passedOver_space : PassedOver (blockBody? false) [' '] :=
  fun rest => blockBody?.eq_3 false ' ' rest (by simp)

/-- A run of spaces. -/
theorem passedOver_replicate (n : Nat) : PassedOver (blockBody? false) (List.replicate n ' ') :=
  passedOver_of_forall fun _ hc => List.eq_of_mem_replicate hc ▸ passedOver_space

/-- One line of a block. -/
theorem passedOver_blockLine (indent : Nat) (line : List Char) :
    PassedOver (blockBody? false) (blockLine indent line).toList := by
  have hline : ∀ cs, PassedOver (blockBody? false) (escapeBlock cs ++ ['\n']) := by
    intro cs rest
    rw [List.append_assoc, List.singleton_append, blockBody?_escapeBlock]
    refine Option.map_congr fun _ _ => ?_
    simp
  rw [blockLine, String.toList_append]
  split_ifs
  · exact hline []
  · rw [String.toList_append, spaces, String.toList_ofList, String.toList_ofList, List.append_assoc]
    exact (passedOver_replicate indent).append (hline line)

/-- The characters of a string as they are written in a block, between the quotes. -/
def blockBody (indent : Nat) (s : String) : List Char :=
  '\n' :: ((Text.lines s.toList).flatMap (fun line => (blockLine (indent + 2) line).toList) ++
    List.replicate indent ' ')

/-- The characters of a string as they are written in a block do not close it. -/
theorem passedOver_blockBody (indent : Nat) (s : String) :
    PassedOver (blockBody? false) (blockBody indent s) := by
  have hfeed : PassedOver (blockBody? false) ['\n'] :=
    fun rest => blockBody?.eq_3 false '\n' rest (by simp)
  have hlines := passedOver_flatMap (Text.lines s.toList) fun line _ =>
    passedOver_blockLine (indent + 2) line
  exact hfeed.append (hlines.append (passedOver_replicate indent))

/-- A block is scanned up to its closing quotes. -/
theorem blockBody?_blockBody (indent : Nat) (s : String) (rest : List Char) :
    blockBody? false (blockBody indent s ++ '"' :: '"' :: '"' :: rest) =
      some (blockBody indent s, rest) :=
  (passedOver_blockBody indent s).body?_eq (blockBody?.eq_2 false rest)

/-! ### Written forms -/

/-- The string that the written form of a string denotes. -/
def writtenString? (indent : Nat) (s : String) : Option String :=
  if isBlockText s.toList then some (String.ofList (blockText (blockBody indent s)))
  else (unescapeLine? (lineBody s)).map String.ofList

/-- The written form of a string. -/
theorem toList_stringText (indent : Nat) (s : String) :
    (stringText indent s).toList =
      if isBlockText s.toList then '"' :: '"' :: '"' :: (blockBody indent s ++ ['"', '"', '"'])
      else '"' :: (lineBody s ++ ['"']) := by
  rw [stringText]
  split_ifs
  · simp only [String.toList_append, String.toList_join, blockBody, spaces, String.toList_ofList,
      List.flatMap_map]
    simp
  · simp only [String.toList_append, String.toList_join, lineBody, List.flatMap_map]
    simp

/-- The written form of a string is scanned as one token, if it denotes a string. -/
theorem scans_stringText (indent : Nat) (s : String) :
    Scans (stringText indent s) (.ofToken? ((writtenString? indent s).map .string)) := by
  intro rest hrest
  rw [toList_stringText, writtenString?, scanned]
  split_ifs with hblock
  · have hbody := blockBody?_blockBody indent s rest
    rw [List.cons_append, List.cons_append, List.cons_append, List.append_assoc, Token.scan?.eq_3]
    split
    · next found => exact absurd (found.symm.trans hbody) (by simp)
    · next body after found =>
        obtain ⟨rfl, rfl⟩ := Prod.mk.inj (Option.some.inj (found.symm.trans hbody))
        rw [scanned]
        cases Token.scan? after <;> rfl
  · have hbody := quotedBody?_lineBody s rest
    -- the closing quote of an empty string begins no block, since no quote follows
    have hopen : ∀ after, lineBody s ++ '"' :: rest = '"' :: '"' :: after → False := by
      intro after h
      rw [h, Text.quotedBody?.eq_2, Option.some.injEq, Prod.mk.injEq] at hbody
      rw [← hbody.1, List.nil_append, List.cons.injEq] at h
      rw [h.2, apart_cons] at hrest
      exact absurd hrest (by decide)
    rw [List.cons_append, List.append_assoc, List.singleton_append, Token.scan?.eq_4 _ hopen]
    split
    · next found => exact absurd (found.symm.trans hbody) (by simp)
    · next body after found =>
        obtain ⟨rfl, rfl⟩ := Prod.mk.inj (Option.some.inj (found.symm.trans hbody))
        rw [scanned]
        cases unescapeLine? (lineBody s) with
        | none => rfl
        | some cs => cases Token.scan? after <;> rfl

end SchemaBridge.Graphql

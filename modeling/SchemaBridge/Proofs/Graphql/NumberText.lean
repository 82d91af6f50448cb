import SchemaBridge.Graphql.Printer
import SchemaBridge.Proofs.Graphql.Scan

/-!
# Scanning numbers

The written form of a number begins with a digit, after a sign if there is one, and has no character
that ends a number. Whether it denotes a number, and which, is another question: an integer may be
out of range, and a whole number is written without a point.

* `UnsignedText`: the shape of a number without its sign;
* `numberText_intText`, `numberText_write`: integers and floating-point numbers have it.
-/

namespace SchemaBridge.Graphql

/-- The digits of a number are digits. -/
theorem isDigit_of_mem_digitsOf {n : Nat} {c : Char} (h : c ∈ Text.digitsOf n) :
    Text.isDigit c = true := by
  have hdigit : c.isDigit = true := Nat.isDigit_of_mem_toDigits (by omega) (by omega) h
  exact hdigit

/-- An unsigned text of a number: digits and points, of which the first is a digit. -/
structure UnsignedText (cs : List Char) : Prop where
  head : ∃ c ∈ cs.head?, Text.isDigit c = true
  parts : ∀ c ∈ cs, Text.isDigit c = true ∨ c = '.'

/-- Digits, at least one. -/
theorem unsignedText_of_digits {cs : List Char} (hne : cs ≠ [])
    (h : ∀ c ∈ cs, Text.isDigit c = true) : UnsignedText cs := by
  refine ⟨?_, fun c hc => .inl (h c hc)⟩
  cases cs with
  | nil => exact absurd rfl hne
  | cons c rest => exact ⟨c, rfl, h c List.mem_cons_self⟩

/-- An unsigned text may go on with digits and points. -/
theorem UnsignedText.append {cs ds : List Char} (hcs : UnsignedText cs)
    (hds : ∀ c ∈ ds, Text.isDigit c = true ∨ c = '.') : UnsignedText (cs ++ ds) := by
  obtain ⟨⟨c, hc, hdigit⟩, hparts⟩ := hcs
  refine ⟨⟨c, ?_, hdigit⟩, fun d hd => (List.mem_append.mp hd).elim (hparts d) (hds d)⟩
  cases cs with
  | nil => cases hc
  | cons d rest => exact hc

/-- A digit or a point does not end a number. -/
theorem endsNumber_of_digit {c : Char} (h : Text.isDigit c = true ∨ c = '.') :
    endsNumber c = false := by
  rcases h with h | rfl
  · exact endsNumber_of_isNamePart (by rw [isNamePart, h, Bool.or_true])
  · decide

/-- The text of a number, with a sign or without one. -/
theorem UnsignedText.numberText {cs : List Char} (h : UnsignedText cs) (negative : Bool) :
    NumberText ((if negative then "-" else "").toList ++ cs) := by
  obtain ⟨⟨c, hc, hdigit⟩, hparts⟩ := h
  cases negative with
  | false => exact ⟨⟨c, hc, .inr hdigit⟩, fun d hd => endsNumber_of_digit (hparts d hd)⟩
  | true =>
      refine ⟨⟨'-', rfl, .inl rfl⟩, fun d hd => ?_⟩
      rcases List.mem_cons.mp hd with rfl | hd
      · decide
      · exact endsNumber_of_digit (hparts d hd)

/-- The text of an integer is the text of a number. -/
theorem numberText_intText (n : Int) : NumberText (Text.intText n).toList := by
  have hdigits : UnsignedText (Text.digitsOf n.natAbs) :=
    unsignedText_of_digits Nat.toDigits_ne_nil fun c => isDigit_of_mem_digitsOf
  have h := hdigits.numberText (decide (n < 0))
  rw [Text.intText, String.toList_append, String.toList_ofList]
  simpa using h

/-- The shortest digits of a double are digits. -/
theorem isDigit_of_mem_shortest {tie : Tie} {x : Double} {c : Char}
    (h : c ∈ (x.shortest tie).digits) : Text.isDigit c = true := by
  rw [Double.shortest] at h
  split at h
  · next n unit found =>
      rw [Double.trimmedDigits, List.mem_reverse] at h
      exact isDigit_of_mem_digitsOf
        (List.mem_reverse.mp ((List.dropWhile_sublist _).subset h))
  · exact absurd h List.not_mem_nil

/-- Zeros are digits. -/
theorem isDigit_of_mem_zeros {n : Nat} {c : Char} (h : c ∈ (Layout.zeros n).toList) :
    Text.isDigit c = true := by
  rw [Layout.zeros, String.toList_ofList] at h
  rw [List.eq_of_mem_replicate h]
  decide

/-- A single zero. -/
theorem unsignedText_zero : UnsignedText ['0'] :=
  unsignedText_of_digits (List.cons_ne_nil _ _) fun c hc => by
    rw [List.mem_singleton.mp hc]
    decide

/-- The positional form of a number begins with a digit, and has no other characters than digits and
a point. -/
theorem unsignedText_positionalText {layout : Layout} (hsuffix : layout.wholeSuffix = "")
    {d : Digits} (hdigits : ∀ c ∈ d.digits, Text.isDigit c = true) :
    UnsignedText (layout.positionalText d).toList := by
  have hzeros : ∀ n, ∀ c ∈ (Layout.zeros n).toList, Text.isDigit c = true :=
    fun n c => isDigit_of_mem_zeros
  have hpoint : ∀ c ∈ ['.'], Text.isDigit c = true ∨ c = '.' :=
    fun c hc => .inr (List.mem_singleton.mp hc)
  rw [Layout.positionalText]
  split_ifs with hleading hwhole
  · -- all digits stand after the point
    have hbegin : UnsignedText "0.".toList := unsignedText_zero.append hpoint
    simp only [String.toList_append, String.toList_ofList]
    exact (hbegin.append fun c hc => .inl (hzeros _ c hc)).append fun c hc => .inl (hdigits c hc)
  · -- no digit stands after the point
    have hempty : "".toList = [] := rfl
    rw [String.toList_append, String.toList_append, String.toList_ofList, hsuffix, hempty,
      List.append_nil]
    refine unsignedText_of_digits (fun hnil => ?_) fun c hc =>
      (List.mem_append.mp hc).elim (hdigits c) (hzeros _ c)
    obtain ⟨hnone, hzeros⟩ := List.append_eq_nil_iff.mp hnil
    rw [Layout.zeros, String.toList_ofList, List.replicate_eq_nil_iff] at hzeros
    rw [hnone, List.length_nil] at hzeros
    omega
  · -- the point stands among the digits
    simp only [String.toList_append, String.toList_ofList]
    have htake : UnsignedText (d.digits.take d.point.toNat) := by
      refine unsignedText_of_digits (fun hnil => ?_) fun c hc => hdigits c (List.mem_of_mem_take hc)
      have hlength := congrArg List.length hnil
      rw [List.length_take, List.length_nil] at hlength
      omega
    exact (htake.append hpoint).append fun c hc => .inl (hdigits c (List.mem_of_mem_drop hc))

/-- The text of a floating-point number is the text of a number. -/
theorem numberText_write (x : Double) : NumberText (floatLayout.write x).toList := by
  have hunsigned : UnsignedText (if x.isZero then "0" ++ floatLayout.wholeSuffix
      else if floatLayout.isPositional (x.shortest floatLayout.tie).point then
        floatLayout.positionalText (x.shortest floatLayout.tie)
      else Layout.scientificText (x.shortest floatLayout.tie)).toList := by
    split_ifs with hzero hpositional
    · exact unsignedText_zero
    · exact unsignedText_positionalText rfl fun c => isDigit_of_mem_shortest
    · exact absurd rfl hpositional
  rw [Layout.write, String.toList_append]
  exact hunsigned.numberText x.negative

end SchemaBridge.Graphql

import ComponentTree.Json.Reader

/-!
Numbers in JSON text.

A token has a text of its own (`NumberToken.text`), and if its rows of digits are such as the
grammar has them, the reader finds just this token in its text, whatever follows that is no part of
a number (`readNumber_text`). Main statement (`Json.Number.exists_token`): every number of literal
data, integer or binary64 and in whichever layout, is written as such a token.
-/

namespace ComponentTree

namespace Json

variable {α β : Type}

@[simp] theorem ok_bind (a : α) (f : α → Except ReadError β) : (Except.ok a >>= f) = f a := rfl

@[simp] theorem pure_eq_ok (a : α) : (pure a : Except ReadError α) = .ok a := rfl

@[simp] theorem map_ok (f : α → β) (a : α) :
    (Except.ok a : Except ReadError α).map f = .ok (f a) := rfl

end Json

namespace NumberToken

/-- At least one digit, and nothing else. -/
def IsDigits (ds : List Char) : Prop := ds ≠ [] ∧ ∀ c ∈ ds, c.isDigit = true

/-- What stands in the text for a fraction. -/
def fractionText : Option (List Char) → List Char
  | none => []
  | some ds => '.' :: ds

/-- What stands in the text for an exponent, which always has its sign. -/
def exponentText : Option (Bool × List Char) → List Char
  | none => []
  | some (negative, ds) => 'e' :: (if negative then '-' else '+') :: ds

/-- A token as it is written. -/
def text (t : NumberToken) : List Char :=
  (if t.negative then ['-'] else []) ++
    (t.whole ++ (fractionText t.fraction ++ exponentText t.exponent))

/-- The rows of digits of a token are as the grammar has them: none is empty, and no zero stands in
front of the digits before the point. -/
structure Legible (t : NumberToken) : Prop where
  whole : IsDigits t.whole
  noLeadingZero : t.whole.head? = some '0' → t.whole = ['0']
  fraction : ∀ ds ∈ t.fraction, IsDigits ds
  exponent : ∀ e ∈ t.exponent, IsDigits e.2

/-- A text does not go on with digits. -/
def NoDigit (cs : List Char) : Prop := ∀ c ∈ cs.head?, c.isDigit = false

/-- A text does not go on with a part of a number. -/
def Ended (cs : List Char) : Prop :=
  ∀ c ∈ cs.head?, c.isDigit = false ∧ c ≠ '.' ∧ c ≠ 'e' ∧ c ≠ 'E'

theorem Ended.noDigit {cs : List Char} (h : Ended cs) : NoDigit cs := fun c hc => (h c hc).1

theorem ended_nil : Ended [] := by simp [Ended]

theorem ended_cons {c : Char} {cs : List Char}
    (h : c.isDigit = false ∧ c ≠ '.' ∧ c ≠ 'e' ∧ c ≠ 'E') : Ended (c :: cs) := by
  simpa [Ended] using h

theorem noDigit_cons {c : Char} {cs : List Char} (h : c.isDigit = false) : NoDigit (c :: cs) := by
  simpa [NoDigit] using h

/-! ### Reading a token -/

section Reading

variable {cutOff : ReadError} {ds rest : List Char}

/-- A row of digits is read up to its end. -/
theorem readDigits_append (hds : IsDigits ds) (hrest : NoDigit rest) :
    Json.readDigits cutOff (ds ++ rest) = .ok (ds, rest) := by
  have htake : rest.takeWhile Char.isDigit = [] ∧ rest.dropWhile Char.isDigit = rest := by
    cases rest with
    | nil => exact ⟨rfl, rfl⟩
    | cons c cs =>
      have hc : c.isDigit = false := hrest c rfl
      simp [hc]
  obtain ⟨hne, hall⟩ := hds
  cases ds with
  | nil => exact absurd rfl hne
  | cons d ds =>
    have hd : d.isDigit = true := hall d (List.mem_cons_self ..)
    have hsplit : Json.readDigits cutOff (d :: ds ++ rest) = .ok
        ((d :: ds ++ rest).takeWhile Char.isDigit, (d :: ds ++ rest).dropWhile Char.isDigit) := by
      simp [Json.readDigits, hd]
    rw [hsplit, List.takeWhile_append_of_pos hall, List.dropWhile_append_of_pos hall, htake.1,
      htake.2, List.append_nil]

theorem readWhole_append (hds : IsDigits ds) (hzero : ds.head? = some '0' → ds = ['0'])
    (hrest : NoDigit rest) : Json.readWhole cutOff (ds ++ rest) = .ok (ds, rest) := by
  unfold Json.readWhole
  split
  · rename_i c cs heq
    -- a zero in front is all there is, and what follows it is no digit
    have hds' : ds = ['0'] := by
      cases ds with
      | nil => exact absurd rfl hds.1
      | cons d ds => exact hzero (by rw [List.head?_cons, (List.cons.inj heq).1])
    subst hds'
    obtain rfl : rest = c :: cs := (List.cons.inj heq).2
    have hc : c.isDigit = false := hrest c rfl
    simp [hc]
  · exact readDigits_append hds hrest

theorem readFraction_append {fraction : Option (List Char)} (h : ∀ ds ∈ fraction, IsDigits ds)
    (hdigit : NoDigit rest) (hpoint : rest.head? ≠ some '.') :
    Json.readFraction cutOff (fractionText fraction ++ rest) = .ok (fraction, rest) := by
  cases fraction with
  | none =>
    cases rest with
    | nil => rfl
    | cons c cs =>
      have hc : c ≠ '.' := by simpa using hpoint
      simp [fractionText, Json.readFraction, hc]
  | some ds =>
    have hread : Json.readDigits cutOff (ds ++ rest) = .ok (ds, rest) :=
      readDigits_append (h ds rfl) hdigit
    simp [fractionText, Json.readFraction, hread]

theorem readExponent_append {exponent : Option (Bool × List Char)}
    (h : ∀ e ∈ exponent, IsDigits e.2) (hrest : Ended rest) :
    Json.readExponent cutOff (exponentText exponent ++ rest) = .ok (exponent, rest) := by
  cases exponent with
  | none =>
    cases rest with
    | nil => rfl
    | cons c cs =>
      obtain ⟨-, -, he, hE⟩ := hrest c rfl
      simp [exponentText, Json.readExponent, he, hE]
  | some e =>
    obtain ⟨negative, ds⟩ := e
    have hread : Json.readDigits cutOff (ds ++ rest) = .ok (ds, rest) :=
      readDigits_append (h _ rfl) hrest.noDigit
    cases negative <;>
      simp [exponentText, Json.readExponent, Json.readSign, hread]

end Reading

/-- A token is found in its text, with nothing of what follows. -/
theorem readNumber_text {t : NumberToken} (ht : t.Legible) {rest : List Char} (hrest : Ended rest)
    (cutOff : ReadError) : Json.readNumber cutOff (t.text ++ rest) = .ok (t, rest) := by
  obtain ⟨negative, whole, fraction, exponent⟩ := t
  obtain ⟨hwhole, hzero, hfraction, hexponent⟩ := ht
  dsimp only at hwhole hzero hfraction hexponent
  have hend : NoDigit (exponentText exponent ++ rest) ∧
      (exponentText exponent ++ rest).head? ≠ some '.' := by
    cases exponent with
    | none => exact ⟨hrest.noDigit, fun hpoint => (hrest '.' hpoint).2.1 rfl⟩
    | some e => exact ⟨noDigit_cons (by decide), by simp [exponentText]⟩
  have hafter : NoDigit (fractionText fraction ++ (exponentText exponent ++ rest)) := by
    cases fraction with
    | none => exact hend.1
    | some ds => exact noDigit_cons (by decide)
  have hunsigned : ∀ negative, Json.readUnsigned cutOff negative
      (whole ++ (fractionText fraction ++ (exponentText exponent ++ rest))) =
      .ok (⟨negative, whole, fraction, exponent⟩, rest) := by
    intro negative
    simp [Json.readUnsigned, readWhole_append hwhole hzero hafter,
      readFraction_append hfraction hend.1 hend.2, readExponent_append hexponent hrest]
  cases negative with
  | true => simpa [text, Json.readNumber] using hunsigned true
  | false =>
    obtain ⟨hne, hall⟩ := hwhole
    cases whole with
    | nil => exact absurd rfl hne
    | cons d ds =>
      have hd : d ≠ '-' := by
        rintro rfl
        exact absurd (hall '-' (List.mem_cons_self ..)) (by decide)
      simpa [text, Json.readNumber, hd] using hunsigned false

/-- The text of a token starts with a minus or a digit. -/
theorem exists_text_cons {t : NumberToken} (ht : t.Legible) :
    ∃ c cs, t.text = c :: cs ∧ (c = '-' ∨ c.isDigit = true) := by
  obtain ⟨hne, hall⟩ := ht.whole
  unfold text
  cases t.negative with
  | true => exact ⟨'-', _, rfl, Or.inl rfl⟩
  | false =>
    cases hwhole : t.whole with
    | nil => exact absurd hwhole hne
    | cons d ds => exact ⟨d, _, rfl, Or.inr (hall d (by simp [hwhole]))⟩

/-! ### The digits of natural numbers -/

theorem isDigits_toDigits (n : Nat) : IsDigits (Nat.toDigits 10 n) :=
  ⟨Nat.toDigits_ne_nil, fun _ hc => Nat.isDigit_of_mem_toDigits (by decide) (by decide) hc⟩

theorem head?_toDigits_ne {n : Nat} (hn : n ≠ 0) : (Nat.toDigits 10 n).head? ≠ some '0' := by
  induction n using Nat.strongRecOn with
  | ind n ih =>
    by_cases hlt : n < 10
    · simpa [Nat.toDigits_of_lt_base hlt] using hn
    · have hfront := ih (n / 10) (by omega) (by omega)
      rw [Nat.toDigits_of_base_le (by decide) (by omega), List.head?_append]
      cases hhead : (Nat.toDigits 10 (n / 10)).head? with
      | none => exact absurd (List.head?_eq_none_iff.mp hhead) Nat.toDigits_ne_nil
      | some c => simpa [hhead] using hfront

theorem toDigits_noLeadingZero {n : Nat} (h : (Nat.toDigits 10 n).head? = some '0') :
    Nat.toDigits 10 n = ['0'] := by
  by_cases hn : n = 0
  · rw [hn, Nat.toDigits_zero]
  · exact absurd h (head?_toDigits_ne hn)

end NumberToken

/-! ### Numbers are written as tokens -/

namespace Json.Number

open NumberToken

/-- An integer is written as a token without fraction and exponent. -/
theorem exists_token_integer (i : Int) :
    ∃ t : NumberToken, t.Legible ∧ t.text = (toString i).toList := by
  refine ⟨⟨decide (i < 0), Nat.toDigits 10 i.natAbs, none, none⟩,
    ⟨isDigits_toDigits _, toDigits_noLeadingZero, by simp, by simp⟩, ?_⟩
  cases i with
  | ofNat n => simp [NumberToken.text, fractionText, exponentText, Int.toString_eq_repr, Int.repr]
  | negSucc n =>
    simp [NumberToken.text, fractionText, exponentText, Int.toString_eq_repr, Int.repr]

section Layouts

variable {ds : List Char}

theorem isDigits_zero : IsDigits ['0'] := ⟨by simp, by simp⟩

theorem isDigit_of_mem_replicate {n : Nat} : ∀ c ∈ List.replicate n '0', c.isDigit = true := by
  intro c hc
  rw [List.eq_of_mem_replicate hc]
  rfl

/-- With an exponent there is one digit in front of the point, and the point is left out if there
are no further digits. -/
theorem exists_token_exponent (hds : IsDigits ds) (hhead : ds.head? ≠ some '0') (negative : Bool)
    (point : Int) : ∃ t : NumberToken, t.Legible ∧
      t.text = (if negative then ['-'] else []) ++ Layout.exponentText ds point := by
  obtain ⟨hne, hall⟩ := hds
  cases ds with
  | nil => exact absurd rfl hne
  | cons d ds =>
    have hexponent := isDigits_toDigits (point - 1).natAbs
    refine ⟨⟨negative, [d], if ds.isEmpty then none else some ds,
      some (decide (point - 1 < 0), Nat.toDigits 10 (point - 1).natAbs)⟩,
      ⟨⟨by simp, ?_⟩, ?_, ?_, ?_⟩, ?_⟩
    · simpa using hall d (List.mem_cons_self ..)
    · exact fun h => absurd h hhead
    · cases ds with
      | nil => simp
      | cons d' ds =>
        have hall' : ∀ c ∈ d' :: ds, c.isDigit = true := fun c hc =>
          hall c (List.mem_cons_of_mem _ hc)
        simpa [IsDigits] using hall'
    · simpa using hexponent
    · cases ds <;>
        simp [NumberToken.text, fractionText, NumberToken.exponentText, Layout.exponentText]

/-- Without an exponent there is always a point, with digits on both sides. -/
theorem exists_token_positional (hds : IsDigits ds) (hhead : ds.head? ≠ some '0') (negative : Bool)
    (point : Int) : ∃ t : NumberToken, t.Legible ∧
      t.text = (if negative then ['-'] else []) ++ layout.positionalText ds point := by
  obtain ⟨hne, hall⟩ := hds
  unfold Layout.positionalText
  by_cases hpoint : point ≤ 0
  · refine ⟨⟨negative, ['0'], some (List.replicate point.natAbs '0' ++ ds), none⟩,
      ⟨isDigits_zero, fun _ => rfl, ?_, by simp⟩, ?_⟩
    · rintro _ ⟨⟩
      refine ⟨by simp [hne], fun c hc => ?_⟩
      rcases List.mem_append.mp hc with hc | hc
      · exact isDigit_of_mem_replicate c hc
      · exact hall c hc
    · simp [hpoint, NumberToken.text, fractionText, exponentText]
  rw [if_neg hpoint]
  by_cases hlength : ds.length ≤ point.natAbs
  · refine ⟨⟨negative, ds ++ List.replicate (point.natAbs - ds.length) '0', some ['0'], none⟩,
      ⟨⟨by simp [hne], fun c hc => ?_⟩, ?_, by simp [isDigits_zero], by simp⟩, ?_⟩
    · rcases List.mem_append.mp hc with hc | hc
      · exact hall c hc
      · exact isDigit_of_mem_replicate c hc
    · cases ds with
      | nil => exact absurd rfl hne
      | cons d ds => exact fun h => absurd h hhead
    · simp [hlength, NumberToken.text, fractionText, exponentText, layout]
  · refine ⟨⟨negative, ds.take point.natAbs, some (ds.drop point.natAbs), none⟩,
      ⟨⟨?_, fun c hc => hall c (List.mem_of_mem_take hc)⟩, ?_, ?_, by simp⟩, ?_⟩
    · simpa [hne] using (by omega : point ≠ 0)
    · rw [List.head?_take]
      simp [hhead]
    · rintro _ ⟨⟩
      exact ⟨by simpa using hlength, fun c hc => hall c (List.mem_of_mem_drop hc)⟩
    · simp [hlength, NumberToken.text, fractionText, exponentText]

end Layouts

/-- A decimal is written as a token, with the sign that is put before it. -/
theorem exists_token_decimal (negative : Bool) (d : Decimal) :
    ∃ t : NumberToken, t.Legible ∧
      t.text = (if negative then ['-'] else []) ++ layout.decimalText d := by
  have hds : IsDigits d.digits := isDigits_toDigits _
  unfold Layout.decimalText
  by_cases hsig : d.significand = 0
  · refine ⟨⟨negative, ['0'], some ['0'], none⟩,
      ⟨isDigits_zero, fun _ => rfl, by simp [isDigits_zero], by simp⟩, ?_⟩
    simp [hsig, NumberToken.text, fractionText, exponentText, layout]
  · have hhead : d.digits.head? ≠ some '0' := head?_toDigits_ne hsig
    rw [if_neg hsig]
    by_cases hlayout : layout.positional d.point = true
    · rw [if_pos hlayout]
      exact exists_token_positional hds hhead negative d.point
    · rw [if_neg hlayout]
      exact exists_token_exponent hds hhead negative d.point

/-- Every number is written as a token that can be read. -/
theorem exists_token (n : Number) : ∃ t : NumberToken, t.Legible ∧ t.text = n.text.toList := by
  cases n with
  | integer n => exact exists_token_integer n.value
  | float x =>
    obtain ⟨t, ht, htext⟩ := exists_token_decimal x.negative (Decimal.shortest layout.tie x)
    exact ⟨t, ht, by rw [htext, text, Layout.finiteText, String.toList_ofList]⟩

end Json.Number

end ComponentTree

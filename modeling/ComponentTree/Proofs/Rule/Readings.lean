import ComponentTree.Rule.Selector

/-!
Selector texts and their readings.

A text is cut at its first double underscore, at a star in front of that, and at any underscore in
front of the star. Whatever is cut off is known from the pieces, so every reading of a text prints
as that text again (`text_of_mem_readings`). The other way round, a selector is a reading of its own
text if the text can only be cut where it was joined (`Clear`). A clear selector is therefore a
reading of one text and no other, however many underscores there are (`Clear.mem_readings_iff`), and
the selectors of a record with plain names are clear (`clear_of_mem_forRecord`).
-/

namespace ComponentTree

namespace Selector

/-! ### Cutting a text -/

theorem cutPart_join (cs : List Char) :
    (cutPart cs).1 ++ (cutPart cs).2.elim [] (fun part => '_' :: '_' :: part) = cs := by
  fun_induction cutPart cs with
  | case1 => rfl
  | case2 rest => rfl
  | case3 c rest hne head part hcut ih =>
    rw [hcut] at ih
    exact congrArg (c :: ·) ih

/-- Two underscores in a row in a joined text are in one of its halves, or they meet there. -/
theorem doubled_append : ∀ {a b : List Char}, ['_', '_'] <:+: a ++ b →
    ['_', '_'] <:+: a ∨ ['_', '_'] <:+: b ∨ (a.getLast? = some '_' ∧ b.head? = some '_')
  | [], b, h => Or.inr (Or.inl h)
  | c :: a, b, h => by
    rw [List.cons_append, List.infix_cons_iff, List.cons_prefix_cons] at h
    rcases h with ⟨rfl, h⟩ | h
    · -- the first underscore is the one in front
      cases a with
      | nil =>
        refine Or.inr (Or.inr ⟨rfl, ?_⟩)
        cases b with
        | nil => cases List.prefix_nil.mp h
        | cons d b =>
          obtain ⟨rfl, -⟩ := List.cons_prefix_cons.mp h
          rfl
      | cons d a =>
        obtain ⟨rfl, -⟩ := List.cons_prefix_cons.mp h
        exact Or.inl ⟨[], a, rfl⟩
    · rcases doubled_append h with h | h | ⟨hl, hh⟩
      · exact Or.inl (List.infix_cons h)
      · exact Or.inr (Or.inl h)
      · refine Or.inr (Or.inr ⟨?_, hh⟩)
        rw [List.getLast?_cons, hl]
        rfl

/-- Joined at an underscore, two texts make no double underscore that they have not themselves, if
none of them has an underscore next to it. -/
theorem single_join {a b : List Char} (ha : ¬ ['_', '_'] <:+: a) (hl : a.getLast? ≠ some '_')
    (hb : ¬ ['_', '_'] <:+: b) (hh : b.head? ≠ some '_') : ¬ ['_', '_'] <:+: a ++ '_' :: b := by
  intro h
  rcases doubled_append h with h | h | ⟨h, -⟩
  · exact ha h
  · rw [List.infix_cons_iff, List.cons_prefix_cons] at h
    rcases h with ⟨-, h⟩ | h
    · cases b with
      | nil => cases List.prefix_nil.mp h
      | cons c cs =>
        obtain ⟨rfl, -⟩ := List.cons_prefix_cons.mp h
        exact hh rfl
    · exact hb h
  · exact hl h

/-- A text without a double underscore is cut in front of the first one that follows it. -/
theorem cutPart_append {part : List Char} : ∀ {head : List Char}, ¬ ['_', '_'] <:+: head →
    head.getLast? ≠ some '_' → cutPart (head ++ '_' :: '_' :: part) = (head, some part)
  | [], _, _ => rfl
  | [c], _, hl => by
    rw [List.singleton_append, cutPart]
    · rfl
    · intro rest hc
      cases hc
      exact absurd rfl hl
  | c :: d :: rest, hd, hl => by
    have ih : cutPart (d :: rest ++ '_' :: '_' :: part) = (d :: rest, some part) :=
      cutPart_append (fun h => hd (List.infix_cons h)) (by rwa [List.getLast?_cons_cons] at hl)
    rw [List.cons_append, cutPart, ih]
    intro rest' hc
    rw [List.cons_append]
    intro hdr
    cases hc
    cases hdr
    exact hd ⟨[], rest, rfl⟩

theorem cutPart_self : ∀ {head : List Char}, ¬ ['_', '_'] <:+: head → cutPart head = (head, none)
  | [], _ => rfl
  | c :: rest, hd => by
    rw [cutPart, cutPart_self fun h => hd (List.infix_cons h)]
    rintro rest' rfl rfl
    exact hd ⟨[], rest', rfl⟩

theorem dropStar?_eq_some {cs stem : List Char} (h : dropStar? cs = some stem) :
    stem ++ ['*'] = cs := by
  unfold dropStar? at h
  split at h
  · rename_i hl
    obtain ⟨ys, rfl⟩ := List.getLast?_eq_some_iff.mp hl
    rw [List.dropLast_concat, Option.some.injEq] at h
    rw [h]
  · cases h

theorem dropStar?_append (stem : List Char) : dropStar? (stem ++ ['*']) = some stem := by
  rw [dropStar?, if_pos List.getLast?_concat, List.dropLast_concat]

theorem dropStar?_of_ne {cs : List Char} (h : cs.getLast? ≠ some '*') : dropStar? cs = none :=
  if_neg h

theorem mem_cuts : ∀ {cs a b : List Char}, (a, b) ∈ cuts cs ↔ a ++ '_' :: b = cs
  | [], a, b => by simp [cuts]
  | c :: rest, [], b => by
    by_cases hc : c = '_' <;> simp [cuts, hc, eq_comm]
  | c :: rest, d :: a, b => by
    have first : (d :: a, b) ∉ if c = '_' then [([], rest)] else [] := by split <;> simp
    rw [cuts, List.mem_append, or_iff_right first, List.mem_map]
    constructor
    · rintro ⟨⟨a', b'⟩, hm, he⟩
      cases he
      exact congrArg (c :: ·) (mem_cuts.mp hm)
    · intro h
      cases h
      exact ⟨(a, b), mem_cuts.mpr rfl, rfl⟩

/-- The pieces of a text make up the text. -/
theorem pieces_join {text : String} {stem : List Char} {star : Bool} {part : Option String}
    (h : pieces text = (stem, star, part)) :
    stem ++ (if star then ['*'] else []) ++ (partText part).toList = text.toList := by
  have hjoin := cutPart_join text.toList
  have hpart : ∀ p : Option (List Char), (partText (p.map String.ofList)).toList =
      p.elim [] (fun part => '_' :: '_' :: part) := by
    intro p
    cases p with
    | none => rfl
    | some p => simp [partText]
  unfold pieces at h
  dsimp only at h
  split at h
  · rename_i stem' hd
    cases h
    rw [hpart, if_pos rfl, dropStar?_eq_some hd]
    exact hjoin
  · cases h
    rw [hpart]
    simpa using hjoin

/-! ### Readings and texts -/

/-- Whether the text of a pattern ends in a star. -/
def starred : VariantPattern → Bool
  | .family _ | .any => true
  | .none | .exact _ => false

/-- The text in front of the star and of the part. -/
def stem (s : Selector) : List Char :=
  s.component.toList ++ match s.variant with
    | .exact v | .family v => '_' :: v.toList
    | .none | .any => []

/-- There is text on both sides of the underscore between a component and a variant. -/
def Named (s : Selector) : Prop :=
  match s.variant with
  | .exact v | .family v => s.component ≠ "" ∧ v ≠ ""
  | .none | .any => True

theorem toList_text (s : Selector) : s.text.toList =
    s.stem ++ (if starred s.variant then ['*'] else []) ++ (partText s.part).toList := by
  unfold text stem
  cases s.variant <;> simp [patternText, starred]

/-- The readings of a text are the selectors that have its pieces. -/
theorem mem_readings {text : String} {cs : List Char} {star : Bool} {part : Option String}
    (hp : pieces text = (cs, star, part)) {s : Selector} :
    s ∈ readings text ↔ s.Named ∧ s.stem = cs ∧ starred s.variant = star ∧ s.part = part := by
  have hne : ∀ n : String, (!n.toList.isEmpty) = true ↔ n ≠ "" := by
    intro n
    rw [Bool.not_eq_true', List.isEmpty_eq_false_iff, ne_eq, String.toList_eq_nil_iff]
  unfold readings
  rw [hp]
  dsimp only
  rw [List.mem_append, List.mem_map, List.mem_singleton]
  constructor
  · rintro (⟨⟨a, b⟩, hm, rfl⟩ | rfl)
    · rw [List.mem_filter, mem_cuts, Bool.and_eq_true] at hm
      obtain ⟨hcut, ha, hb⟩ := hm
      rw [← String.toList_ofList (l := a), hne] at ha
      rw [← String.toList_ofList (l := b), hne] at hb
      cases star <;> exact ⟨⟨ha, hb⟩, by simpa [stem, namedPattern] using hcut, rfl, rfl⟩
    · cases star <;> exact ⟨trivial, by simp [stem, unnamedPattern], rfl, rfl⟩
  · rintro ⟨hn, hs, hstar, hpart⟩
    obtain ⟨component, variant, part'⟩ := s
    subst hpart hstar
    have split : ∀ v : String, component ≠ "" ∧ v ≠ "" → component.toList ++ '_' :: v.toList = cs →
        (component.toList, v.toList) ∈ (cuts cs).filter fun p => !p.1.isEmpty && !p.2.isEmpty := by
      intro v hn hs
      rw [List.mem_filter, mem_cuts, Bool.and_eq_true, hne, hne]
      exact ⟨hs, hn⟩
    cases variant with
    | exact v => exact Or.inl ⟨_, split v hn hs, by simp [namedPattern, starred]⟩
    | family v => exact Or.inl ⟨_, split v hn hs, by simp [namedPattern, starred]⟩
    | none => exact Or.inr (by simp [← hs, stem, unnamedPattern, starred])
    | any => exact Or.inr (by simp [← hs, stem, unnamedPattern, starred])

/-- Every reading of a text prints as that text. -/
theorem text_of_mem_readings {text : String} {s : Selector} (h : s ∈ readings text) :
    s.text = text := by
  rcases hp : pieces text with ⟨cs, star, part⟩
  obtain ⟨-, rfl, rfl, rfl⟩ := (mem_readings hp).mp h
  rw [← String.toList_inj, toList_text]
  exact pieces_join hp

/-- The text of a selector is cut where it was joined, if there is no double underscore in front of
the star and the part, and, without a star, no underscore or star right in front of the part. -/
theorem pieces_text {s : Selector} (hsingle : ¬ ['_', '_'] <:+: s.stem)
    (hlast : starred s.variant = false →
      s.stem.getLast? ≠ some '_' ∧ s.stem.getLast? ≠ some '*') :
    pieces s.text = (s.stem, starred s.variant, s.part) := by
  -- the text in front of the part, with the star
  obtain ⟨head, hhead⟩ : ∃ head, head = s.stem ++ (if starred s.variant then ['*'] else []) :=
    ⟨_, rfl⟩
  have hhead_single : ¬ ['_', '_'] <:+: head := by
    intro hd
    rw [hhead] at hd
    rcases doubled_append hd with hd | hd | ⟨-, hd⟩
    · exact hsingle hd
    · split at hd <;> exact absurd hd (by decide)
    · split at hd <;> cases hd
  have hhead_last : head.getLast? ≠ some '_' := by
    rw [hhead]
    cases hs : starred s.variant with
    | true => simp
    | false => simpa using (hlast hs).1
  have hstar : dropStar? head = if starred s.variant then some s.stem else none := by
    rw [hhead]
    cases hs : starred s.variant with
    | true => exact dropStar?_append s.stem
    | false => exact dropStar?_of_ne (by simpa using (hlast hs).2)
  have hcut : cutPart s.text.toList = (head, s.part.map String.toList) := by
    rw [toList_text, ← hhead]
    cases s.part with
    | none => simpa [partText] using cutPart_self hhead_single
    | some p => simpa [partText] using cutPart_append hhead_single hhead_last
  unfold pieces
  rw [hcut]
  dsimp only
  rw [hstar]
  have hpart : (s.part.map String.toList).map String.ofList = s.part := by cases s.part <;> simp
  cases hs : starred s.variant with
  | true => simp [hpart]
  | false => simp [hhead, hs, hpart]

/-- The text of the selector can only be cut where it was joined. -/
structure Clear (s : Selector) : Prop where
  named : s.Named
  single : ¬ ['_', '_'] <:+: s.stem
  last : starred s.variant = false → s.stem.getLast? ≠ some '_' ∧ s.stem.getLast? ≠ some '*'

theorem Clear.pieces_text {s : Selector} (h : s.Clear) :
    pieces s.text = (s.stem, starred s.variant, s.part) :=
  Selector.pieces_text h.single h.last

/-- A clear selector is a reading of its own text and of no other. -/
theorem Clear.mem_readings_iff {s : Selector} (h : s.Clear) {text : String} :
    s ∈ readings text ↔ text = s.text := by
  constructor
  · exact fun hs => (text_of_mem_readings hs).symm
  · rintro rfl
    exact (mem_readings h.pieces_text).mpr ⟨h.named, rfl, rfl, rfl⟩

/-! ### The selectors of a record -/

/-- A name that keeps clear of underscores and stars at its ends and of double underscores. -/
structure Plain (name : String) : Prop where
  nonempty : name ≠ ""
  single : ¬ ['_', '_'] <:+: name.toList
  head : name.toList.head? ≠ some '_'
  last : name.toList.getLast? ≠ some '_'
  star : name.toList.getLast? ≠ some '*'

/-- A family is named like its variants up to the dash, so it begins like them. -/
theorem familyOf_head {v : String} (hv : v ≠ "") (hd : v.toList.head? ≠ some '-') :
    familyOf v ≠ "" ∧ (familyOf v).toList.head? = v.toList.head? := by
  have hf : (familyOf v).toList = v.toList.takeWhile (· ≠ '-') := String.toList_ofList
  rw [ne_eq, ← String.toList_eq_nil_iff, hf]
  rw [ne_eq, ← String.toList_eq_nil_iff] at hv
  cases hcs : v.toList with
  | nil => exact absurd hcs hv
  | cons c cs =>
    rw [hcs, List.head?_cons, ne_eq, Option.some.injEq] at hd
    simp [hd]

/-- Joined to a plain component, a name makes no double underscore that it has not itself, if it
does not begin with an underscore. -/
theorem Plain.single_join {component v : String} (hc : Plain component)
    (hv : ¬ ['_', '_'] <:+: v.toList) (hh : v.toList.head? ≠ some '_') :
    ¬ ['_', '_'] <:+: component.toList ++ '_' :: v.toList :=
  Selector.single_join hc.single hc.last hv hh

/-- A joined text ends like the name behind the underscore. -/
theorem getLast?_join {v : String} (hv : v ≠ "") (cs : List Char) :
    (cs ++ '_' :: v.toList).getLast? = v.toList.getLast? := by
  cases hcs : v.toList with
  | nil => exact absurd (String.toList_eq_nil_iff.mp hcs) hv
  | cons c cs => simp [List.getLast?_cons]

theorem clear_exact {component v : String} (part : Option String) (hc : Plain component)
    (hv : Plain v) : Clear ⟨component, .exact v, part⟩ := by
  refine ⟨⟨hc.nonempty, hv.nonempty⟩, hc.single_join hv.single hv.head, fun _ => ?_⟩
  rw [stem, getLast?_join hv.nonempty]
  exact ⟨hv.last, hv.star⟩

theorem clear_family {component v : String} (part : Option String) (hc : Plain component)
    (hv : Plain v) (hd : v.toList.head? ≠ some '-') :
    Clear ⟨component, .family (familyOf v), part⟩ := by
  obtain ⟨hne, hhead⟩ := familyOf_head hv.nonempty hd
  refine ⟨⟨hc.nonempty, hne⟩, hc.single_join (fun h => hv.single ?_) ?_, fun h => by cases h⟩
  · have hpre : (familyOf v).toList <+: v.toList := by
      rw [familyOf, String.toList_ofList]
      exact List.takeWhile_prefix _
    exact h.trans hpre.isInfix
  · rw [hhead]
    exact hv.head

/-- The selectors that match a record with a plain component and variant are clear. -/
theorem clear_of_mem_forRecord {component : String} {variant part : Option String}
    (hc : Plain component) (hv : ∀ v, variant = some v → Plain v ∧ v.toList.head? ≠ some '-')
    {s : Selector} (hs : s ∈ forRecord component variant part) : s.Clear := by
  have alone : component.toList ++ [] = component.toList := List.append_nil _
  unfold forRecord at hs
  rw [List.mem_append, List.mem_singleton] at hs
  rcases hs with hs | rfl
  · cases variant with
    | none =>
      rw [List.mem_singleton] at hs
      subst hs
      refine ⟨trivial, ?_, fun _ => ?_⟩ <;> rw [stem, alone]
      · exact hc.single
      · exact ⟨hc.last, hc.star⟩
    | some v =>
      obtain ⟨hp, hd⟩ := hv v rfl
      rw [List.mem_cons, List.mem_singleton] at hs
      rcases hs with rfl | rfl
      · exact clear_exact part hc hp
      · exact clear_family part hc hp hd
  · refine ⟨trivial, ?_, fun h => by cases h⟩
    rw [stem, alone]
    exact hc.single

/-- The texts of the selectors of a record, the most specific first. -/
def textsFor (component : String) (variant part : Option String) : List String :=
  match variant with
  | some v => [component ++ "_" ++ v ++ partText part,
      component ++ "_" ++ familyOf v ++ "*" ++ partText part, component ++ "*" ++ partText part]
  | none => [component ++ partText part, component ++ "*" ++ partText part]

theorem map_text_forRecord (component : String) (variant part : Option String) :
    (forRecord component variant part).map text = textsFor component variant part := by
  cases variant <;> simp [forRecord, textsFor, text, patternText, String.append_assoc]

end Selector

end ComponentTree

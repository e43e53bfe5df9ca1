import ComponentTree.Proofs.Markup.Attributes
import Mathlib.Data.Nat.Digits.Defs

/-!
Markup mirrors the tree.

The tags of a tree are those of its records in the order in which they come up: a tag that closes
itself if nothing is written inside, and otherwise an opening tag, the tags of the content, and the
closing tag (`tokens`). Main statement: a reader finds exactly these tags in the markup of a tree,
and they are nested, if tags and attributes have names, no text that is written as it is in an
attribute has a double quote, and no text of the content has an angle that opens a tag
(`tokensOf_render`).
-/

namespace ComponentTree

/-! ### Numbers as text -/

theorem Layout.mem_positionalText {layout : Layout} {ds : List Char} {point : Int} {c : Char}
    (h : c ∈ layout.positionalText ds point) :
    c ∈ ds ∨ c = '0' ∨ c = '.' ∨ c ∈ layout.afterIntegral := by
  unfold positionalText at h
  split at h
  · simp only [List.mem_cons, List.mem_append, List.mem_replicate] at h
    tauto
  · dsimp only at h
    split at h
    · simp only [List.mem_append, List.mem_replicate] at h
      tauto
    · simp only [List.mem_append, List.mem_cons] at h
      rcases h with h | h | h
      · exact Or.inl (List.mem_of_mem_take h)
      · exact Or.inr (Or.inr (Or.inl h))
      · exact Or.inl (List.mem_of_mem_drop h)

/-- The text of a number does not open a tag. -/
theorem Binary64.angle_notMem_display (x : Binary64) : '<' ∉ x.display.toList := by
  cases x with
  | nan => decide
  | infinity negative => cases negative <;> decide
  | finite x =>
    have hdecimal : ∀ d : Decimal, '<' ∉ Layout.plain.decimalText d := by
      intro d hd
      have hdigits : '<' ∉ d.digits := fun hm =>
        absurd (Nat.isDigit_of_mem_toDigits (by decide) (by decide) hm) (by decide)
      unfold Layout.decimalText at hd
      split at hd
      · exact absurd hd (by decide)
      · have hplain : Layout.plain.positional d.point = true := rfl
        rw [if_pos hplain] at hd
        rcases Layout.mem_positionalText hd with h | h | h | h
        · exact hdigits h
        · exact absurd h (by decide)
        · exact absurd h (by decide)
        · exact absurd h List.not_mem_nil
    rw [display, Layout.finiteText, String.toList_ofList, List.mem_append]
    rintro (h | h)
    · split at h <;> exact absurd h (by decide)
    · exact hdecimal _ h

namespace Markup

/-! ### The tags of a tree -/

mutual

/-- The tags of a tree. -/
def tokens : Node → List Token
  | .absent | .bool _ | .number _ | .text _ => []
  | .list items => tokensAll items
  | .record r => tokensRecord r

/-- The tags of the nodes, one after the other. -/
def tokensAll : List Node → List Token
  | [] => []
  | n :: ns => tokens n ++ tokensAll ns

/-- The tags of a record. -/
def tokensRecord : Record → List Token
  | ⟨key, component, part, variant, params, content, mixins, rendering⟩ =>
    let r : Record := ⟨key, component, part, variant, params, content, mixins, rendering⟩
    openingToken r (attributesOf Escape.attrValue r) ::
      if askedTag r ∈ contentless then [] else tokens content ++ [.closing (askedTag r)]

end

theorem tokensRecord_eq (r : Record) : tokensRecord r =
    openingToken r (attributesOf Escape.attrValue r) ::
      if askedTag r ∈ contentless then [] else tokens r.content ++ [.closing (askedTag r)] := by
  cases r
  rw [tokensRecord]

/-- Whether every closing tag closes the last one of the tags that are open, and none is open at the
end. -/
def closes : List String → List Token → Bool
  | unclosed, [] => unclosed.isEmpty
  | unclosed, .opening name _ :: rest => closes (name :: unclosed) rest
  | unclosed, .empty .. :: rest => closes unclosed rest
  | name :: unclosed, .closing name' :: rest => name == name' && closes unclosed rest
  | _, _ => false

mutual

/-- Whatever is open stays open over the tags of a tree. -/
theorem closes_tokens (unclosed : List String) (rest : List Token) : ∀ n : Node,
    closes unclosed (tokens n ++ rest) = closes unclosed rest
  | .absent | .bool _ | .number _ | .text _ => rfl
  | .list items => by rw [tokens, closes_tokensAll unclosed rest items]
  | .record r => by rw [tokens, closes_tokensRecord unclosed rest r]

theorem closes_tokensAll (unclosed : List String) (rest : List Token) : ∀ ns : List Node,
    closes unclosed (tokensAll ns ++ rest) = closes unclosed rest
  | [] => rfl
  | n :: ns => by
    rw [tokensAll, List.append_assoc, closes_tokens unclosed _ n, closes_tokensAll unclosed rest ns]

theorem closes_tokensRecord (unclosed : List String) (rest : List Token) : ∀ r : Record,
    closes unclosed (tokensRecord r ++ rest) = closes unclosed rest
  | ⟨key, component, part, variant, params, content, mixins, rendering⟩ => by
    rw [tokensRecord_eq, openingToken]
    dsimp only
    split
    · rfl
    · rw [List.cons_append, closes, List.append_assoc, closes_tokens _ _ content]
      simp [closes]

end

/-! ### Reading a tree back -/

/-- Tags and attributes have names, texts that are written as they are in attributes have no double
quote, and texts of the content have no angle that opens a tag. -/
inductive Legible : Node → Prop
  | absent : Legible .absent
  | bool (b : Bool) : Legible (.bool b)
  | number (x : Binary64) : Legible (.number x)
  | text {s : String} (h : '<' ∉ s.toList) : Legible (.text s)
  | list {items : List Node} (h : ∀ n ∈ items, Legible n) : Legible (.list items)
  | record {r : Record} (hname : Named r) (hquote : Spares '"' r) (hcontent : Legible r.content) :
    Legible (.record r)

mutual

theorem scan_render (rest : List Char) : ∀ n : Node, Legible n →
    scan .outside ((render n).toList ++ rest) = tokens n ++ scan .outside rest
  | .absent, _ => rfl
  | .bool b, _ => scan_outside rest (by cases b <;> decide)
  | .number x, _ => scan_outside rest x.angle_notMem_display
  | .text _, .text h => scan_outside rest h
  | .list items, .list h => by rw [render, tokens, scan_renderAll rest items h]
  | .record r, h => by rw [render, tokens, scan_renderLegible rest r h]

theorem scan_renderAll (rest : List Char) : ∀ ns : List Node, (∀ n ∈ ns, Legible n) →
    scan .outside ((renderAll ns).toList ++ rest) = tokensAll ns ++ scan .outside rest
  | [], _ => rfl
  | n :: ns, h => by
    have hrest := scan_renderAll rest ns fun m hm => h m (List.mem_cons_of_mem _ hm)
    rw [renderAll, tokensAll, String.toList_append, List.append_assoc, List.append_assoc,
      scan_render _ n (h n (List.mem_cons_self ..)), hrest]

theorem scan_renderLegible (rest : List Char) : ∀ r : Record, Legible (.record r) →
    scan .outside ((renderRecord r).toList ++ rest) = tokensRecord r ++ scan .outside rest
  | ⟨key, component, part, variant, params, content, mixins, rendering⟩,
    .record hname hquote hcontent => by
    rw [scan_renderRecord hname hquote, tokensRecord_eq]
    dsimp only
    split
    · rfl
    · rw [scan_render _ content hcontent, scan_closing hname.tag]
      simp

end

/-- In the markup of a legible tree a reader finds exactly the tags of the tree, and they are
nested. -/
theorem tokensOf_render {t : Node} (h : Legible t) :
    tokensOf (render t) = tokens t ∧ closes [] (tokensOf (render t)) = true := by
  have htokens : tokensOf (render t) = tokens t := by
    have hscan := scan_render [] t h
    rwa [List.append_nil, scan, List.append_nil] at hscan
  refine ⟨htokens, ?_⟩
  have hcloses := closes_tokens [] [] t
  rw [List.append_nil] at hcloses
  rw [htokens, hcloses]
  rfl

/-- A gallery with a photo, which is a void element, and a caption with an angle. -/
def gallery : Node :=
  .record { Record.blank with
    component := some "gallery"
    content := .list [.text "a > b", .record { Record.blank with
      component := some "photo"
      content := .text "not written"
      rendering := { tag := some "img", attrs := .ofList [("alt", .text "\"<b>\"")] } }]
    mixins := [.text "</div>"] }

/-- The void element closes itself and its content is left out. What looks like tags in the
attributes is not taken for any. -/
theorem tokensOf_gallery : Legible gallery ∧
    tokensOf (render gallery) =
      [.opening "div" [.quoted "class" "gallery _init", .quoted "data-block" "gallery",
          .quoted "data-options" "{&quot;mixins&quot;:[&quot;</div>&quot;]}"],
        .empty "img" [.quoted "class" "photo", .quoted "data-block" "photo",
          .quoted "alt" "&quot;<b>&quot;"],
        .closing "div"] ∧
    closes [] (tokensOf (render gallery)) = true := by
  have hlegible : Legible gallery := by
    refine .record (by decide) (by decide) (.list ?_)
    rintro _ (_ | ⟨_, _ | ⟨_, ⟨⟩⟩⟩)
    · exact .text (by decide)
    · exact .record (by decide) (by decide) (.text (by decide))
  obtain ⟨htokens, hcloses⟩ := tokensOf_render hlegible
  exact ⟨hlegible, htokens.trans (by decide +kernel), hcloses⟩

end Markup

end ComponentTree

import ComponentTree.Proofs.Json.Printed
import ComponentTree.Proofs.Markup.Attributes

/-!
The payload for the client, as the client gets it.

The payload goes through three encoders: trees become literal data, literal data becomes JSON text,
and the text is escaped for an attribute. The client undoes the last two. Main statement
(`render_payload`): the attribute is there whenever the init options are set or there are mixins,
and only then, and what the client reads from it are the options and the literal data of the mixins,
with every number as it was printed.
-/

namespace ComponentTree

/-- Numbers that are not finite are written as `null`. -/
theorem Node.toLiteral_of_not_finite {x : Binary64} (h : x.toFinite? = none) :
    (Node.number x).toLiteral = .null := by
  cases x with
  | finite y => exact absurd h (by simp [Binary64.toFinite?])
  | nan => rfl
  | infinity negative => rfl

namespace Markup

/-- Literal data as the client reads it, with its numbers as their texts. -/
def asRead (v : Literal) : Json String := v.map Json.Number.text

/-- What the client gets of the init options, if they were set. -/
def clientOptions (r : Record) : List (String × Json String) :=
  match r.rendering.initOptions with
  | some options => [("options", .object (options.entries.map fun e => (e.1, asRead e.2)))]
  | none => []

/-- What the client gets of the mixins, if there are any. -/
def clientMixins (r : Record) : List (String × Json String) :=
  if r.mixins.isEmpty then []
  else [("mixins", .array (r.mixins.map fun mixin => asRead mixin.toLiteral))]

/-- The client reads from the text of a payload what the payload was made from. -/
theorem read_payload {r : Record} {v : Literal} (h : askedPayload r = some v) :
    Json.read Json.verbatim (Literal.print v) =
      .ok (.object (clientOptions r ++ clientMixins r)) := by
  have hread : asRead v = .object (clientOptions r ++ clientMixins r) := by
    unfold askedPayload at h
    split at h
    · cases h
    · obtain rfl := Option.some.inj h
      cases hoptions : r.rendering.initOptions <;> cases hmixins : r.mixins <;>
        simp [asRead, clientData, clientOptions, clientMixins, hoptions, hmixins, Json.map,
          Json.mapMembers_eq, Json.mapItems_eq]
  rw [Json.read_print, ← hread]
  rfl

/-- There is a payload whenever there are options, be they empty, or mixins. -/
theorem askedPayload_isSome (r : Record) :
    (askedPayload r).isSome = true ↔ r.rendering.initOptions.isSome = true ∨ r.mixins ≠ [] := by
  unfold askedPayload clientData
  cases r.rendering.initOptions <;> cases r.mixins <;> simp

/-- The payload reaches the client intact, whatever the record is. The opening tag of its markup
ends with the attribute for the payload, which is there exactly if the init options are set, be they
empty, or there are mixins. Its value has no double quote, and decoded it is JSON text, from which
the client reads the options under their names and in their order, if they are set, and then the
literal data of the mixins, if there are any. -/
theorem render_payload (r : Record) :
    (openingTag r).toList <+: (render (.record r)).toList ∧
    (openingTag r).toList = '<' :: tagText (askedTag r) (classAttribute r ++ dataAttribute r ++
      r.rendering.attrs.entries.flatMap (ownAttribute Escape.attrValue) ++
      payloadAttribute Escape.attrValue r) ∧
    (r.rendering.initOptions.isSome = true ∨ r.mixins ≠ [] → ∃ value,
      payloadAttribute Escape.attrValue r = [.quoted "data-options" value] ∧
      '"' ∉ value.toList ∧
      Json.read Json.verbatim (String.ofList (Escape.decode value.toList)) =
        .ok (.object (clientOptions r ++ clientMixins r))) ∧
    (¬(r.rendering.initOptions.isSome = true ∨ r.mixins ≠ []) →
      payloadAttribute Escape.attrValue r = []) ∧
    (∀ x : Binary64, x.toFinite? = none → asRead (Node.number x).toLiteral = .null) := by
  refine ⟨?_, toList_openingTag r, fun hasked => ?_, fun hasked => ?_, fun x hx => ?_⟩
  · rw [render, renderRecord_eq]
    split
    · exact ⟨"/>".toList, String.toList_append.symm⟩
    · exact ⟨(">" ++ render r.content ++ "</" ++ tagOf r ++ ">").toList, by simp⟩
  · obtain ⟨v, hv⟩ := Option.isSome_iff_exists.mp ((askedPayload_isSome r).mpr hasked)
    refine ⟨Escape.attrValue (Literal.print v), by rw [payloadAttribute, hv],
      Escape.quote_notMem_attrValue _, ?_⟩
    rw [Escape.decode_attrValue, String.ofList_toList]
    exact read_payload hv
  · have hnone : askedPayload r = none := by
      rw [← Option.not_isSome_iff_eq_none, askedPayload_isSome]
      exact hasked
    rw [payloadAttribute, hnone]
  · rw [Node.toLiteral_of_not_finite hx]
    rfl

end Markup

end ComponentTree

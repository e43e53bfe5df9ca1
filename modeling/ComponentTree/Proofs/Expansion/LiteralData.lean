import ComponentTree.Proofs.Expansion.Unreplaced

/-!
Rules leave literal data alone.

What a rule writes goes into the content, the mixins and the rendering of its record. When it has
the record run ahead, the owner is settled once more, but a record whose owner was settled before
stays as it is. So all literal data stays, at any depth of passes, and in each of them the record
comes up with what it is matched by (`attentive_preserves`). Main statement: if no rule replaces the
record, then it is handed back with all its literal data (`applyRules_literal`).
-/

namespace ComponentTree

variable {σ α : Type}

/-! ### Records with the same literal data -/

/-- The identity and the literal data are those of `r`; content, mixins and rendering may differ. -/
structure Record.KeepsData (left r : Record) : Prop where
  key : left.key = r.key
  component : left.component = r.component
  part : left.part = r.part
  variant : left.variant = r.variant
  params : left.params = r.params

namespace Record.KeepsData

variable {r r' r'' : Record}

theorem refl (r : Record) : r.KeepsData r := ⟨rfl, rfl, rfl, rfl, rfl⟩

theorem trans (h' : r''.KeepsData r') (h : r'.KeepsData r) : r''.KeepsData r where
  key := h'.key.trans h.key
  component := h'.component.trans h.component
  part := h'.part.trans h.part
  variant := h'.variant.trans h.variant
  params := h'.params.trans h.params

theorem write (r : Record) (x : Write) : (r.write x).KeepsData r := by
  cases x <;> exact ⟨rfl, rfl, rfl, rfl, rfl⟩

/-- There is nothing else that could differ. -/
theorem eq (h : r'.KeepsData r) : r' = { r with
    content := r'.content, mixins := r'.mixins, rendering := r'.rendering } := by
  obtain ⟨hkey, hcomponent, hpart, hvariant, hparams⟩ := h
  rw [← hkey, ← hcomponent, ← hpart, ← hvariant, ← hparams]
  cases r'; rfl

end Record.KeepsData

/-- A visit looks for the rules that the record is matched by. -/
def Event.Fits (r : Record) : Event → Prop
  | .visited _ _ key component variant part =>
    key = r.key ∧ r.component = some component ∧ variant = r.variant ∧ part = r.part
  | _ => True

theorem Record.KeepsData.fits {left r : Record} (h : left.KeepsData r) {event : Event}
    (he : event.Fits left) : event.Fits r := by
  cases event with
  | visited pass path key component variant part =>
    unfold Event.Fits at he ⊢
    rwa [h.key, h.component, h.variant, h.part] at he
  | _ => trivial

namespace Engine

variable {e : Engine σ}

theorem Resolved.keepsData {left r : Record} (h : e.Resolved r) (hd : left.KeepsData r) :
    e.Resolved left := by
  intro hv
  rw [hd.component]
  exact h (hd.variant ▸ hv)

/-- The identity stays, and so does all literal data if the owner was settled. -/
structure Preserves (e : Engine σ) (r : Record) (_ : World σ) (left : Record) (_ : World σ) :
    Prop where
  key : left.key = r.key
  data : e.Resolved r → left.KeepsData r

theorem Preserves.of_keepsData {left r : Record} {w w' : World σ} (h : left.KeepsData r) :
    e.Preserves r w left w' := ⟨h.key, fun _ => h⟩

/-- The event fits the record if the owner was settled. -/
abbrev Expects (e : Engine σ) (r : Record) (event : Event) : Prop := e.Resolved r → event.Fits r

theorem attentive_preserved (e : Engine σ) : ComponentTree.Attentive e.Preserves e.Expects where
  refl r _ := .of_keepsData (.refl r)
  trans h h' := ⟨h'.key.trans h.key, fun hr =>
    (h'.data (hr.keepsData (h.data hr))).trans (h.data hr)⟩
  key h := h.key
  events h _ he hr := (h.data hr).fits (he (hr.keepsData (h.data hr)))

end Engine

/-- A program preserves literal data, if the passes do that it asks for. -/
theorem RuleM.exec_preserves {e : Engine σ} {run : Pass → Run σ Pass}
    (hahead : ∀ (c : Context) w, Attends e.Preserves e.Expects
      c.record w (c.runAhead run w) fun c' => some c'.record)
    {idPrefix : String} (body : RuleM σ α) : ∀ (c : Context) (w : World σ),
      Attends e.Preserves e.Expects c.record w
        (body.exec idPrefix run c w) fun x => some x.2.record := by
  have hA := e.attentive_preserved
  have quiet : ∀ (r : Record) {w w' : World σ}, w'.ledger = w.ledger →
      Attends e.Preserves e.Expects r w (.ok (), w')
        fun _ => some r :=
    fun r _ _ hl => .quiet (congrArg Ledger.journal hl) (.of_keepsData (.refl r))
  induction body with
  | done a => exact fun c w => .pure hA rfl
  | fail f => exact fun c w => .stop _
  | look next ih => exact fun c => ih c c
  | write x next ih =>
    exact fun c w => .changed hA (.of_keepsData (.write c.record x)) (ih (c.write x) w)
  | generateId next ih =>
    intro c w
    let event : Event := .identified (idPrefix ++ toString w.nextId.toNat)
    have hid : Attends e.Preserves e.Expects c.record w
        (.ok (), World.log { w with nextId := w.nextId + 1 } event) fun _ => some c.record :=
      .enter [event] rfl (List.forall_mem_singleton.mpr fun _ => trivial)
        (.of_keepsData (.refl c.record))
    exact hid.after hA rfl (ih _ c _)
  | issue tree next ih =>
    intro c w
    have hissue : Attends e.Preserves e.Expects c.record w
        (.ok (), { w with nextKey := (tree.reissue w.nextKey).2 }) fun _ => some c.record :=
      quiet c.record rfl
    exact hissue.after hA rfl (ih _ c _)
  | runAhead next ih =>
    intro c w
    have ha := hahead c w
    rw [exec_runAhead, Run.attempt_apply]
    rcases hc : c.runAhead run w with ⟨(f | _) | c', w'⟩ <;> rw [hc] at ha
    · -- the pass worked on a copy
      exact (ha.failed rfl (.of_keepsData (.refl c.record))).after hA rfl (ih (.error f) c w')
    · exact ha.error
    · exact ha.after hA rfl (ih (.ok ()) c' w')
  | «recall» next ih => exact fun c w => ih w.memory c w
  | remember memory next ih =>
    intro c w
    have hremember : Attends e.Preserves e.Expects c.record w (.ok (), { w with memory })
        fun _ => some c.record := quiet c.record rfl
    exact hremember.after hA rfl (ih c _)

namespace Engine

/-- The rules of an engine preserve literal data, and with it what the record is matched by. -/
theorem attentive_preserves (e : Engine σ) :
    e.Attentive e.Preserves e.Expects where
  toAttentive := e.attentive_preserved
  quiet r _ _ _ := .of_keepsData (.refl r)
  resolved r _ := by
    refine ⟨e.resolveOwner_key r _, fun hr => ?_⟩
    rw [resolveOwner_of_resolved hr]
    exact .refl r
  visited hc _ _ _ := ⟨rfl, hc, rfl, rfl⟩
  started _ _ _ _ _ _ := trivial
  replaced _ _ _ _ _ := trivial
  body hahead _ position r w :=
    RuleM.exec_preserves hahead _ { record := r, position, library := e.library } w

/-- Rules cannot touch literal data. A record whose owner was settled is given to the rules that it
is matched by. If none of them replaces it, and none that starts on it while it is run ahead, then
the record that is handed back has the same identity, component, part, variant and parameters,
whatever the rules did. -/
theorem applyRules_literal {e : Engine σ} {found r : Record} {inherited owner : Owner}
    (hr : e.resolveOwner found inherited = (r, owner)) {fuel number : Nat} {site : Site}
    {component : String} {variant : Option String} {w w' : World σ} {v : Verdict}
    (h : e.applyRules (e.runPass fuel) number site r component variant w = (.ok v, w'))
    {events : List Event} (he : w'.ledger.journal = events ++ w.ledger.journal)
    (hn : Unreplaced r.key events) :
    ∃ left, v = .kept left ∧ left = { r with
      content := left.content, mixins := left.mixins, rendering := left.rendering } := by
  have hresolved : e.Resolved r := by
    have hr' := e.resolveOwner_resolved found inherited
    rwa [hr] at hr'
  obtain ⟨events', he', -, hleft⟩ :=
    e.attentive_preserves.applyRules fuel number site r component variant w
  rw [h] at he' hleft
  obtain rfl := List.append_cancel_right (he'.symm.trans he)
  obtain ⟨left, hkept, hpreserves⟩ := hleft hn v rfl
  refine ⟨left, ?_, (hpreserves.data hresolved).eq⟩
  cases v with
  | kept => exact congrArg Verdict.kept (Option.some.inj hkept)
  | replaced => cases hkept

end Engine

/-- A crate with a parameter. -/
def Record.crate : Record :=
  { Record.blank with
    key := 1
    component := some "crate"
    params := OrderedMap.empty.insert "size" (.string "small") }

/-- An engine with a default variant for crates and two rules for them. The newer rule runs the
other one ahead and stops the crate; the other one gives it a tag, content and a mixin. -/
def Engine.furnishing : Engine Unit :=
  (((({} : Engine Unit).setDefaultVariant "crate" "wide").register [⟨"crate", .any, none⟩]
    (.write (.tag "p") (.write (.content (.text "new")) (.write (.mixin (.text "more"))
      (.done none))))).1.register [⟨"crate", .any, none⟩]
    (.runAhead fun _ => .write .stop (.done none))).1

/-- A crate that was run ahead has what both rules wrote, and its own data with the variant that it
had when it was given to the rules. -/
theorem Engine.applyRules_literal_furnished :
    let r : Record := { Record.crate with variant := some "wide" }
    let site : Site := ⟨[], .listed 0 1, {}, 1⟩
    let w : World Unit := { memory := (), ledger := { passes := 1 } }
    furnishing.resolveOwner .crate {} = (r, ⟨some "crate", some "wide"⟩) ∧ ∃ left w',
      furnishing.applyRules (furnishing.runPass 3) 0 site r "crate" (some "wide") w =
          (.ok (.kept left), w') ∧
        w'.ledger.passes = 2 ∧ Unreplaced r.key w'.ledger.journal ∧
        left.rendering.tag = some "p" ∧ left.rendering.stopped = true ∧
        left = { r with
          content := left.content, mixins := left.mixins, rendering := left.rendering } := by
  intro r site w
  have hr : furnishing.resolveOwner .crate {} = (r, ⟨some "crate", some "wide"⟩) := by rfl
  have hleft : (furnishing.applyRules (furnishing.runPass 3) 0 site r "crate" (some "wide")
      w).1.toOption.map (fun v => (v.left.rendering.tag, v.left.rendering.stopped)) =
        some (some "p", true) := by decide +kernel
  have hledger : (furnishing.applyRules (furnishing.runPass 3) 0 site r "crate" (some "wide")
      w).2.ledger.passes = 2 ∧ (furnishing.applyRules (furnishing.runPass 3) 0 site r "crate"
        (some "wide") w).2.ledger.journal = [.started 1 [] 1 0 (.listed 0 1),
          .visited 1 [] 1 "crate" (some "wide") none, .started 0 [] 1 1 (.listed 0 1)] := by
    decide +kernel
  rcases h : furnishing.applyRules (furnishing.runPass 3) 0 site r "crate" (some "wide") w with
    ⟨s | v, w'⟩ <;> rw [h] at hleft hledger
  · cases hleft
  obtain ⟨htag, hstopped⟩ := Prod.mk.inj (Option.some.inj hleft)
  obtain ⟨hpasses, hjournal⟩ := hledger
  have hn : Unreplaced r.key w'.ledger.journal := by
    rw [hjournal]
    intro pass path rule hmem
    simp at hmem
  obtain ⟨left, rfl, hdata⟩ := applyRules_literal hr h (List.append_nil _).symm hn
  exact ⟨hr, left, w', rfl, hpasses, hn, htag, hstopped, hdata⟩

end ComponentTree

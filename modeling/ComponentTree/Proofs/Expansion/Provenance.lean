import ComponentTree.Proofs.Engine.Owner
import ComponentTree.Proofs.Expansion.Recording
import ComponentTree.Proofs.Expansion.Rules
import ComponentTree.Proofs.Tree.Throughout

/-!
Where the records of a tree come from.

Rules bring records into a tree by writing them as content and by answering with them, and in no
other way. So in an engine that records, every record that a pass comes to is plain, or its identity
is one that the root or a tree in the notes has brought in. This is followed through programs,
rules, steps and passes (`Yields`). Main statement (`recording_visits`): the identities that come up
with a component in an expansion are all brought in by the root and the notes.
-/

namespace ComponentTree

variable {σ α β : Type}

/-- The record belongs to no component and is no part of one. -/
def Record.IsPlain (r : Record) : Prop := r.component = none ∧ r.part = none

instance (r : Record) : Decidable r.IsPlain := inferInstanceAs (Decidable (_ ∧ _))

/-! ### Where records come from -/

/-- One of the trees has a record of the identity that is not plain. -/
def Brought (trees : List Node) (key : Key) : Prop :=
  ∃ t ∈ trees, ∃ path r, t.at? path = some (.record r) ∧ ¬ r.IsPlain ∧ r.key = key

/-- All records in the tree are plain or have the identity of one in the given trees. -/
def Node.From (trees : List Node) (t : Node) : Prop :=
  ∀ path r, t.at? path = some (.record r) → r.IsPlain ∨ Brought trees r.key

namespace Node

variable {trees trees' : List Node}

theorem from_of_mem {t : Node} (h : t ∈ trees) : t.From trees := by
  intro path r hr
  by_cases hp : r.IsPlain
  · exact Or.inl hp
  · exact Or.inr ⟨t, h, path, r, hr, hp, rfl⟩

theorem From.mono {t : Node} (h : t.From trees) (hsub : trees ⊆ trees') : t.From trees' := by
  intro path r hr
  refine (h path r hr).imp id ?_
  rintro ⟨t', ht', rest⟩
  exact ⟨t', hsub ht', rest⟩

theorem from_iff_throughout {t : Node} :
    t.From trees ↔ t.Throughout (OfRecord fun r => r.IsPlain ∨ Brought trees r.key) :=
  throughout_ofRecord.symm

theorem ofSurface_from (trees : List Node) :
    OfSurface (OfRecord fun r => r.IsPlain ∨ Brought trees r.key) := .ofRecord fun _ _ h => h

theorem from_record_iff {r : Record} : (record r).From trees ↔
    (r.IsPlain ∨ Brought trees r.key) ∧ r.content.From trees := by
  rw [from_iff_throughout, from_iff_throughout, throughout_record_iff, ofRecord_record]

theorem From.at? {t n : Node} {path : Path} (h : t.From trees) (hn : t.at? path = some n) :
    n.From trees :=
  from_iff_throughout.mpr ((from_iff_throughout.mp h).at? hn)

theorem From.flattenContent {n : Node} (h : n.From trees) : n.flattenContent.From trees :=
  from_iff_throughout.mpr ((from_iff_throughout.mp h).flattenContent (ofSurface_from trees))

theorem From.put {new t : Node} {p : Path} (h : t.From trees) (hnew : new.From trees) :
    (put new p t).From trees :=
  from_iff_throughout.mpr
    ((from_iff_throughout.mp h).put (ofSurface_from trees) (from_iff_throughout.mp hnew) p)

/-- A record of the same identity, with the same content, is from the same trees, if it is plain
when the other one is. -/
theorem From.of_record {r r' : Record} (h : (record r).From trees) (hk : r'.key = r.key)
    (hp : r.IsPlain → r'.IsPlain) (hc : r'.content.From trees) : (record r').From trees := by
  rw [from_record_iff] at h ⊢
  rw [hk]
  exact ⟨h.1.imp hp id, hc⟩

end Node

/-! ### What runs yield -/

/-- The root of an expansion and the trees that rules have given so far. -/
def World.sources (root : Node) (w : World (σ × List Node)) : List Node := root :: w.memory.2

/-- The identities that came up with a component are brought in by the trees. -/
def Ledger.VisitsFrom (trees : List Node) (l : Ledger) : Prop :=
  ∀ pass path key component variant part,
    Event.visited pass path key component variant part ∈ l.journal → Brought trees key

/-- The world with one more note. -/
def World.noted (w : World (σ × List Node)) (tree : Node) : World (σ × List Node) :=
  { w with memory := (w.memory.1, tree :: w.memory.2) }

theorem Brought.mono {trees trees' : List Node} {key : Key} (h : Brought trees key)
    (hsub : trees ⊆ trees') : Brought trees' key := by
  obtain ⟨t, ht, rest⟩ := h
  exact ⟨t, hsub ht, rest⟩

/-- From `w` to `w'` all notes are kept, and only identities have come up that were brought in. -/
structure World.Leads (root : Node) (w w' : World (σ × List Node)) : Prop where
  sources : w.sources root ⊆ w'.sources root
  visits : w.ledger.VisitsFrom (w.sources root) → w'.ledger.VisitsFrom (w'.sources root)

namespace World.Leads

variable {root : Node} {w w' w'' : World (σ × List Node)}

theorem refl (root : Node) (w : World (σ × List Node)) : w.Leads root w := ⟨fun _ => id, id⟩

theorem trans (h : w.Leads root w') (h' : w'.Leads root w'') : w.Leads root w'' :=
  ⟨List.Subset.trans h.sources h'.sources, h'.visits ∘ h.visits⟩

/-- A change that adds no visit and loses no note. -/
theorem of_no_visit (hsub : w.sources root ⊆ w'.sources root)
    (h : ∀ pass path key component variant part,
      Event.visited pass path key component variant part ∈ w'.ledger.journal →
        Event.visited pass path key component variant part ∈ w.ledger.journal) :
    w.Leads root w' :=
  ⟨hsub, fun hw _ _ _ _ _ _ hv => (hw _ _ _ _ _ _ (h _ _ _ _ _ _ hv)).mono hsub⟩

/-- An event that is no visit is entered into the journal. -/
theorem log (h : w.Leads root w') {event : Event} (he : ∀ pass path key component variant part,
    event ≠ .visited pass path key component variant part) : w.Leads root (w'.log event) := by
  refine h.trans (of_no_visit (fun _ => id) fun _ _ _ _ _ _ hv => ?_)
  exact (List.mem_cons.mp hv).resolve_left fun hv => he _ _ _ _ _ _ hv.symm

theorem noted (tree : Node) : w.Leads root (w.noted tree) := by
  refine of_no_visit (fun x hx => ?_) fun _ _ _ _ _ _ => id
  rcases List.mem_cons.mp hx with rfl | hx
  · exact List.mem_cons_self ..
  · exact List.mem_cons_of_mem _ (List.mem_cons_of_mem _ hx)

end World.Leads

theorem World.from_noted (root : Node) (w : World (σ × List Node)) (tree : Node) :
    tree.From ((w.noted tree).sources root) :=
  Node.from_of_mem (List.mem_cons_of_mem _ (List.mem_cons_self ..))

/-- From the world `w` a run leads to a result, and an answer has the property `Q`, given the root
and all trees noted so far. -/
structure Yields (root : Node) (w : World (σ × List Node))
    (result : Except Stop α × World (σ × List Node)) (Q : List Node → α → Prop) : Prop where
  leads : w.Leads root result.2
  answer : ∀ a, result.1 = .ok a → Q (result.2.sources root) a

namespace Yields

variable {root : Node} {w w' : World (σ × List Node)} {Q : List Node → α → Prop}
  {Q' : List Node → β → Prop}

theorem pure {a : α} (h : Q (w.sources root) a) : Yields root w (.ok a, w) Q :=
  ⟨.refl root w, by rintro _ ⟨⟩; exact h⟩

theorem stop (s : Stop) : Yields root w (.error s, w) Q := ⟨.refl root w, by rintro _ ⟨⟩⟩

theorem after {result : Except Stop α × World (σ × List Node)} (h : Yields root w' result Q)
    (hw : w.Leads root w') : Yields root w result Q :=
  ⟨hw.trans h.leads, h.answer⟩

theorem bind {x : Run (σ × List Node) α} {f : α → Run (σ × List Node) β}
    (h : Yields root w (x w) Q)
    (hf : ∀ a w', w.Leads root w' → Q (w'.sources root) a → Yields root w' (f a w') Q') :
    Yields root w ((x >>= f) w) Q' := by
  rw [Run.bind_apply]
  generalize x w = result at h
  obtain ⟨s | a, w'⟩ := result
  · exact ⟨h.leads, by rintro _ ⟨⟩⟩
  · exact (hf a w' h.leads (h.answer a rfl)).after h.leads

theorem attempt {x : Run (σ × List Node) α} (h : Yields root w (x w) Q) :
    Yields root w (Run.attempt x w) fun trees r => ∀ a, r = .ok a → Q trees a := by
  rw [Run.attempt_apply]
  generalize x w = result at h
  obtain ⟨(f | _) | a, w'⟩ := result
  · exact ⟨h.leads, by rintro _ ⟨⟩ _ ⟨⟩⟩
  · exact ⟨h.leads, by rintro _ ⟨⟩⟩
  · exact ⟨h.leads, by rintro _ ⟨⟩ _ ⟨⟩; exact h.answer a rfl⟩

end Yields

/-! ### Programs, rules and passes -/

/-- All records of the pass are from the given trees. -/
structure Pass.From (trees : List Node) (pass : Pass) : Prop where
  tree : pass.tree.From trees
  formerRoot : ∀ r, pass.formerRoot = some r → (Node.record r).From trees

namespace Pass

variable {trees : List Node} {pass : Pass}

theorem From.mono {trees' : List Node} (h : pass.From trees) (hsub : trees ⊆ trees') :
    pass.From trees' :=
  ⟨h.tree.mono hsub, fun r hr => (h.formerRoot r hr).mono hsub⟩

theorem From.keep (h : pass.From trees) (site : Site) {r : Record} (owner : Owner)
    (hr : (Node.record r).From trees) : (pass.keep site r owner).From trees := by
  unfold Pass.keep
  split
  · exact ⟨h.tree.put hr, h.formerRoot⟩
  · exact ⟨h.tree.put (hr.of_record rfl id (Node.from_record_iff.mp hr).2.flattenContent),
      h.formerRoot⟩

theorem From.replace (h : pass.From trees) (site : Site) {r : Record} {replacement : Node}
    (owner : Owner) (hr : (Node.record r).From trees) (hn : replacement.From trees) :
    (pass.replace site r replacement owner).From trees := by
  refine ⟨h.tree.put hn, fun former hf => ?_⟩
  replace hf : (if pass.formerRoot.isNone && some r.key = pass.rootKey then some r
    else pass.formerRoot) = some former := hf
  split at hf
  · cases hf
    exact hr
  · exact h.formerRoot former hf

end Pass

theorem Context.settle_from {trees : List Node} {c : Context} {pass : Pass}
    (hc : (Node.record c.record).From trees) (hp : pass.From trees) :
    (Node.record (c.settle pass).record).From trees := by
  rcases c.settle_record pass with ⟨r, ht, -, hs⟩ | ⟨-, hs⟩ <;> rw [hs]
  · rw [← ht]
    exact hp.tree
  · cases hf : pass.formerRoot with
    | none => exact hc
    | some r => exact hp.formerRoot r hf

variable {root : Node} {run : Pass → Run (σ × List Node) Pass}

theorem Context.runAhead_yields
    (hrun : ∀ pass w, pass.From (w.sources root) →
      Yields root w (run pass w) fun trees pass => pass.From trees)
    (c : Context) {w : World (σ × List Node)} (hc : (Node.record c.record).From (w.sources root)) :
    Yields root w (c.runAhead run w) fun trees c' => (Node.record c'.record).From trees := by
  let w₁ : World (σ × List Node) :=
    { w with ledger := { w.ledger with passes := w.ledger.passes + 1 } }
  have hbegin : w.Leads root w₁ := .of_no_visit (fun _ => id) fun _ _ _ _ _ _ => id
  have hstart : (Pass.start w.ledger.passes ⟨c.record.component, none⟩ true
      (.record c.record.snapshot)).From (w₁.sources root) :=
    ⟨c.record.snapshot_eq.symm ▸ hc, by rintro _ ⟨⟩⟩
  have hpass : Yields root w₁ ((run (.start w.ledger.passes ⟨c.record.component, none⟩ true
      (.record c.record.snapshot)) >>= fun pass => pure (c.settle pass)) w₁)
      fun trees c' => (Node.record c'.record).From trees :=
    .bind (hrun _ w₁ hstart) fun pass w' hw hp =>
      .pure (Context.settle_from (hc.mono hw.sources) hp)
  exact hpass.after hbegin

/-- A program that records leaves a record whose parts were all brought in, and so is what it
answers with. -/
theorem RuleM.recording_yields {idPrefix : String}
    (hrun : ∀ pass w, pass.From (w.sources root) →
      Yields root w (run pass w) fun trees pass => pass.From trees)
    (body : RuleM σ (Option Node)) : ∀ (c : Context) (w : World (σ × List Node)),
      (Node.record c.record).From (w.sources root) →
        Yields root w (body.recording.exec idPrefix run c w) fun trees x =>
          (Node.record x.2.record).From trees ∧ ∀ t, x.1 = some t → t.From trees := by
  induction body with
  | done answer =>
    intro c w hc
    cases answer with
    | none => exact .pure ⟨hc, by rintro _ ⟨⟩⟩
    | some t =>
      have hnoted : w.Leads root (w.noted t) := .noted t
      refine Yields.after (.pure ⟨hc.mono hnoted.sources, ?_⟩) hnoted
      rintro _ ⟨⟩
      exact w.from_noted root t
  | fail f => exact fun c w _ => .stop _
  | look next ih => exact fun c => ih c c
  | write x next ih =>
    intro c w hc
    have hcontent := (Node.from_record_iff.mp hc).2
    cases x with
    | content t =>
      have hnoted : w.Leads root (w.noted t) := .noted t
      exact (ih (c.write (.content t)) (w.noted t) ((hc.mono hnoted.sources).of_record rfl id
        (w.from_noted root t))).after hnoted
    | _ => exact ih _ w (hc.of_record rfl id hcontent)
  | generateId next ih =>
    intro c w hc
    have hnext : w.Leads root { w with nextId := w.nextId + 1 } :=
      .of_no_visit (fun _ => id) fun _ _ _ _ _ _ => id
    have hid : w.Leads root (World.log { w with nextId := w.nextId + 1 }
        (.identified (idPrefix ++ toString w.nextId.toNat))) :=
      hnext.log (by rintro _ _ _ _ _ _ ⟨⟩)
    exact (ih _ c _ (hc.mono hid.sources)).after hid
  | issue tree next ih =>
    intro c w hc
    have hissue : w.Leads root { w with nextKey := (tree.reissue w.nextKey).2 } :=
      .of_no_visit (fun _ => id) fun _ _ _ _ _ _ => id
    exact (ih _ c { w with nextKey := (tree.reissue w.nextKey).2 } hc).after hissue
  | runAhead next ih =>
    intro c w hc
    unfold RuleM.recording RuleM.exec
    refine .bind (c.runAhead_yields hrun hc).attempt fun r w' hw hr => ?_
    cases r with
    | ok c' => exact ih (.ok ()) c' w' (hr c' rfl)
    | error f => exact ih (.error f) c w' (hc.mono hw.sources)
  | «recall» next ih => exact fun c w hc => ih _ c w hc
  | remember memory next ih =>
    intro c w hc
    have hremember : w.Leads root { w with memory := (memory, w.memory.2) } :=
      .of_no_visit (fun _ => id) fun _ _ _ _ _ _ => id
    exact (ih c { w with memory := (memory, w.memory.2) } hc).after hremember

namespace Engine

variable {e : Engine σ}

theorem answer_of_replacement? {answer : Option Node} {tree : Node}
    (h : replacement? answer = some tree) : answer = some tree := by
  unfold replacement? at h
  split at h
  · split at h
    · cases h
    · exact h
  · cases h

theorem recording_runRules_yields
    (hrun : ∀ pass w, pass.From (w.sources root) →
      Yields root w (run pass w) fun trees pass => pass.From trees)
    (pass : Nat) (site : Site) (key : Key) : ∀ (rules : List RuleId) (r : Record)
      (w : World (σ × List Node)), (Node.record r).From (w.sources root) →
        Yields root w (e.recording.runRules run pass site key rules r w) fun trees v =>
          (Node.record v.left).From trees ∧ ∀ left t, v = .replaced left t → t.From trees
  | [], r, w, hr => .pure ⟨hr, by rintro _ _ ⟨⟩⟩
  | rule :: rest, r, w, hr => by
    have hbody : e.recording.rulebook.body? rule =
        (e.rulebook.body? rule).map RuleM.recording := e.rulebook.recording_body? rule
    have hmark : w.Leads root (w.mark key rule) := .of_no_visit (fun _ => id) fun _ _ _ _ _ _ => id
    unfold runRules
    rw [Run.bind_apply, Run.mark_apply]
    by_cases hm : (key, rule) ∈ w.ledger.marks
    · simp only [hm, if_true]
      exact recording_runRules_yields hrun pass site key rest r w hr
    simp only [hm, if_false, if_true, hbody]
    cases hb : e.rulebook.body? rule with
    | none =>
      exact (recording_runRules_yields hrun pass site key rest r (w.mark key rule) hr).after hmark
    | some body =>
      have hstart : w.Leads root
          ((w.mark key rule).log (.started pass site.path key rule site.position)) :=
        hmark.log (by rintro _ _ _ _ _ _ ⟨⟩)
      dsimp only [Option.map_some]
      rw [Run.bind_apply, Run.log_apply]
      refine Yields.after (.bind (body.recording_yields hrun _ _ hr) fun x w' hw hx => ?_) hstart
      obtain ⟨answer, c⟩ := x
      dsimp only at hx ⊢
      cases hans : replacement? answer with
      | some tree =>
        have hlog : w'.Leads root (w'.log (.replaced pass site.path key rule)) :=
          (World.Leads.refl root w').log (by rintro _ _ _ _ _ _ ⟨⟩)
        refine Yields.after (.pure ⟨hx.1, ?_⟩) hlog
        rintro _ _ ⟨⟩
        exact hx.2 tree (answer_of_replacement? hans)
      | none =>
        dsimp only
        split
        · exact .pure ⟨hx.1, by rintro _ _ ⟨⟩⟩
        · exact recording_runRules_yields hrun pass site key rest c.record w' hx.1

theorem recording_applyRules_yields
    (hrun : ∀ pass w, pass.From (w.sources root) →
      Yields root w (run pass w) fun trees pass => pass.From trees)
    (pass : Nat) (site : Site) (r : Record) (component : String) (variant : Option String)
    (w : World (σ × List Node)) (hr : (Node.record r).From (w.sources root)) :
    Yields root w (e.recording.applyRules run pass site r component variant w) fun trees v =>
      (Node.record v.left).From trees ∧ ∀ left t, v = .replaced left t → t.From trees := by
  unfold applyRules
  rcases e.recording.rulebook.resolve component variant r.part with _ | ⟨s, rules⟩
  · exact .pure ⟨hr, by rintro _ _ ⟨⟩⟩
  · exact recording_runRules_yields hrun pass site r.key rules r w hr

/-- A plain record stays as it is when its owner is settled, and hands down what it was given. -/
theorem resolveOwner_of_plain {r : Record} (hp : r.IsPlain) (owner : Owner) :
    e.resolveOwner r owner = (r, owner) := by
  unfold resolveOwner
  rw [hp.1, hp.2]
  rfl

theorem resolveOwner_plain {found r : Record} {owner owner' : Owner}
    (h : e.resolveOwner found owner = (r, owner')) (hp : found.IsPlain) : r.IsPlain := by
  rw [resolveOwner_of_plain hp] at h
  cases h
  exact hp

theorem recording_visit_yields
    (hrun : ∀ pass w, pass.From (w.sources root) →
      Yields root w (run pass w) fun trees pass => pass.From trees)
    (pass : Pass) (site : Site) (found : Record) (w : World (σ × List Node))
    (hp : pass.From (w.sources root)) (hf : (Node.record found).From (w.sources root)) :
    Yields root w (e.recording.visit run pass site found w) fun trees pass => pass.From trees := by
  rcases hr : e.recording.resolveOwner found site.owner with ⟨r, owner⟩
  have hkey : r.key = found.key := by
    have hk := e.recording.resolveOwner_key found site.owner
    rwa [hr] at hk
  have hcontent : r.content.From (w.sources root) := by
    rw [content_of_resolveOwner hr]
    exact (Node.from_record_iff.mp hf).2
  have hfrom := hf.of_record hkey (resolveOwner_plain hr) hcontent
  rw [visit_apply hr]
  cases hc : r.component with
  | none => exact .pure (hp.keep site owner hfrom)
  | some component =>
    -- a record that comes up with a component is not plain, so its identity was brought in
    have hbrought : Brought (w.sources root) r.key :=
      (Node.from_record_iff.mp hfrom).1.resolve_left fun hplain => by
        rw [hplain.1] at hc
        cases hc
    have hvisit : w.Leads root (arrive pass site r owner component w) := by
      refine ⟨fun _ => id, fun hw number path key component' variant part hv => ?_⟩
      rcases List.mem_cons.mp hv with hv | hv
      · cases hv
        exact hbrought
      · exact hw _ _ _ _ _ _ hv
    dsimp only
    split
    · exact Yields.after (.stop _) hvisit
    split
    · exact Yields.after (.pure (hp.keep site owner hfrom)) hvisit
    have hrules := recording_applyRules_yields (e := e) hrun pass.number site.count r component
      owner.variant (arrive pass site r owner component w) hfrom
    generalize e.recording.applyRules run pass.number site.count r component owner.variant
      (arrive pass site r owner component w) = result at hrules
    have hp' : pass.From (result.2.sources root) := hp.mono (hvisit.trans hrules.leads).sources
    obtain ⟨s | ⟨left | ⟨left, tree⟩⟩, w'⟩ := result
    · exact ⟨hvisit.trans hrules.leads, by rintro _ ⟨⟩⟩
    · exact Yields.after (.pure (hp'.keep site owner (hrules.answer _ rfl).1))
        (hvisit.trans hrules.leads)
    · obtain ⟨hleft, htree⟩ := hrules.answer _ rfl
      exact Yields.after (.pure (hp'.replace site.count owner hleft (htree left tree rfl)))
        (hvisit.trans hrules.leads)

theorem recording_step_yields
    (hrun : ∀ pass w, pass.From (w.sources root) →
      Yields root w (run pass w) fun trees pass => pass.From trees)
    (pass : Pass) (site : Site) (w : World (σ × List Node)) (hp : pass.From (w.sources root)) :
    Yields root w (e.recording.step run pass site w) fun trees pass => pass.From trees := by
  unfold step
  cases ht : pass.tree.at? site.path with
  | none => exact .pure hp
  | some node =>
    cases node with
    | list items => exact .pure ⟨hp.tree, hp.formerRoot⟩
    | record found => exact recording_visit_yields hrun pass site found w hp (hp.tree.at? ht)
    | _ => exact .pure hp

theorem recording_runPass_yields : ∀ (fuel : Nat) (pass : Pass) (w : World (σ × List Node)),
    pass.From (w.sources root) →
      Yields root w (e.recording.runPass fuel pass w) fun trees pass => pass.From trees
  | 0, _, w, _ => .stop _
  | fuel + 1, pass, w, hp => by
    unfold runPass
    cases pass.queue with
    | nil => exact .pure hp
    | cons site queue =>
      exact .bind (recording_step_yields (recording_runPass_yields fuel) _ _ w
        ⟨hp.tree, hp.formerRoot⟩) fun next w' _ hnext => recording_runPass_yields fuel next w' hnext

/-- In an expansion by an engine that records, the identities that come up with a component are all
brought in by the root and the trees in the notes. -/
theorem recording_visits (e : Engine σ) (fuel : Nat) (nextKey : Key) (memory : σ) (root : Node) :
    (e.recording.expand fuel nextKey (memory, []) root).ledger.VisitsFrom
      (root :: (e.recording.expand fuel nextKey (memory, []) root).memory.2) := by
  let w : World (σ × List Node) :=
    { nextKey, nextId := e.nextId, memory := (memory, []), ledger := { passes := 1 } }
  have hstart : (Pass.start 0 {} false root).From (w.sources root) :=
    ⟨Node.from_of_mem (List.mem_cons_self ..), by rintro _ ⟨⟩⟩
  have hpass : Yields root w ((e.recording.runPass fuel (.start 0 {} false root) >>= fun pass =>
      pure pass.tree) w) fun _ _ => True :=
    .bind (recording_runPass_yields fuel _ w hstart) fun _ _ _ _ => .pure trivial
  exact hpass.leads.visits (by rintro _ _ _ _ _ _ ⟨⟩)

end Engine

end ComponentTree

import ComponentTree.Proofs.Expansion.AtMostOnce
import ComponentTree.Proofs.Expansion.Recording
import ComponentTree.Proofs.Expansion.Unreplaced

/-!
Noting the content that rules set.

To say which content a record was last given, an engine can be made to note it: its rules do the
same as before, and put every tree that they make the content of their record in front of their
notes. Which notes from a pass that a rule asks for are kept is a parameter; apart from the notes
nothing changes, whichever are (`runAhead_notingContent`). A pass that fails worked on a copy of the
record which is lost, so the notes that tell the content are those without the ones from failed
passes. Main statement (`runAhead_minds`): if no rule replaces anything while a record is run ahead,
then all rules that start run on the identity of the record, and the content of the record is the
latest of these notes, or the one from before if nothing was noted.
-/

namespace ComponentTree

variable {σ α β : Type}

namespace RuleM

/-- The program with notes of the trees that it makes the content. Notes from a pass that it asks
for are taken back if the outcome of the pass is none that keeps them. -/
def notingContent (keeps : Except Failure Unit → Bool) : RuleM σ α → RuleM (σ × List Node) α
  | .done a => .done a
  | .fail e => .fail e
  | .look next => .look fun c => (next c).notingContent keeps
  | .write (.content tree) next => note tree (.write (.content tree) (next.notingContent keeps))
  | .write x next => .write x (next.notingContent keeps)
  | .generateId next => .generateId fun id => (next id).notingContent keeps
  | .issue tree next => .issue tree fun t => (next t).notingContent keeps
  | .runAhead next => .recall fun before => .runAhead fun outcome => .recall fun m =>
      .remember (m.1, if keeps outcome then m.2 else before.2) ((next outcome).notingContent keeps)
  | .recall next => .recall fun m => (next m.1).notingContent keeps
  | .remember memory next => .recall fun m => .remember (memory, m.2) (next.notingContent keeps)

end RuleM

/-- The engine with all its rules noting the content that they set. -/
def Engine.notingContent (keeps : Except Failure Unit → Bool) (e : Engine σ) :
    Engine (σ × List Node) :=
  e.mapBodies (RuleM.notingContent keeps)

/-- The world before any notes. -/
def World.unnoted (w : World σ) : World (σ × List Node) :=
  { nextKey := w.nextKey, nextId := w.nextId, memory := (w.memory, []), ledger := w.ledger }

/-- The world with other notes. -/
def World.withNotes (w : World (σ × List Node)) (notes : List Node) : World (σ × List Node) :=
  { w with memory := (w.memory.1, notes) }

/-- After a pass, a program that notes content goes on with the notes that are kept. -/
theorem RuleM.exec_runAhead_notingContent (keeps : Except Failure Unit → Bool) {idPrefix : String}
    {run : Pass → Run (σ × List Node) Pass} (next : Except Failure Unit → RuleM σ α) (c : Context)
    (w : World (σ × List Node)) :
    ((RuleM.runAhead next).notingContent keeps).exec idPrefix run c w =
      match Run.attempt (c.runAhead run) w with
      | (.ok (.ok c'), w') => ((next (.ok ())).notingContent keeps).exec idPrefix run c'
          (w'.withNotes (if keeps (.ok ()) then w'.memory.2 else w.memory.2))
      | (.ok (.error f), w') => ((next (.error f)).notingContent keeps).exec idPrefix run c
          (w'.withNotes (if keeps (.error f) then w'.memory.2 else w.memory.2))
      | (.error s, w') => (.error s, w') := by
  rw [notingContent, exec_recall, exec_runAhead]
  rcases Run.attempt (c.runAhead run) w with ⟨_ | (_ | _), _⟩ <;> rfl

/-- A program that notes content does what the program does. -/
theorem RuleM.notingContent_exec {keeps : Except Failure Unit → Bool} {idPrefix : String}
    {run : Pass → Run σ Pass} {run' : Pass → Run (σ × List Node) Pass}
    (hrun : ∀ pass, (run pass).Forgets (run' pass)) (body : RuleM σ α) : ∀ c,
      (body.exec idPrefix run c).Forgets ((body.notingContent keeps).exec idPrefix run' c) := by
  induction body with
  | done a => exact fun c w => rfl
  | fail f => exact fun c w => rfl
  | look next ih => exact fun c => ih c c
  | write x next ih =>
    cases x with
    | content tree =>
      exact fun c w => ih (c.write (.content tree)) (w.withNotes (tree :: w.memory.2))
    | _ => exact fun c w => ih _ w
  | generateId next ih =>
    exact fun c => (Run.forgetting σ).bind ((Run.forgetting σ).freshId _) fun id => ih id c
  | issue tree next ih =>
    exact fun c => (Run.forgetting σ).bind ((Run.forgetting σ).fresh tree) fun t => ih t c
  | runAhead next ih =>
    intro c w
    have ha : (c.runAhead run).Forgets (c.runAhead run') :=
      c.runAhead_congr (C := (Run.forgetting σ).congruence) hrun
    rw [exec_runAhead, exec_runAhead_notingContent, (Run.forgetting σ).attempt ha w]
    rcases Run.attempt (c.runAhead run') w with ⟨_ | (f | c'), w'⟩
    · rfl
    · exact ih (.error f) c
        (w'.withNotes (if keeps (.error f) then w'.memory.2 else w.memory.2))
    · exact ih (.ok ()) c' (w'.withNotes (if keeps (.ok ()) then w'.memory.2 else w.memory.2))
  | «recall» next ih => exact fun c w => ih w.memory.1 c w
  | remember memory next ih => exact fun c w => ih c { w with memory := (memory, w.memory.2) }

namespace Engine

theorem alike_notingContent (keeps : Except Failure Unit → Bool) (e : Engine σ) :
    Alike (Run.forgetting σ) e (e.notingContent keeps) :=
  e.alike_mapBodies (Run.forgetting σ) (RuleM.notingContent keeps) fun body _ _ hrun =>
    body.notingContent_exec hrun

/-- An engine that notes content runs a record ahead with the same result. -/
theorem runAhead_notingContent (keeps : Except Failure Unit → Bool) (e : Engine σ) (fuel : Nat)
    (c : Context) :
    (c.runAhead (e.runPass fuel)).Forgets (c.runAhead ((e.notingContent keeps).runPass fuel)) := by
  have hcut : ∀ pass, (Run.forgetting σ).rel (e.runPass 0 pass)
      ((e.notingContent keeps).runPass 0 pass) := fun _ _ => rfl
  exact c.runAhead_congr (C := (Run.forgetting σ).congruence) fun pass =>
    (e.alike_notingContent keeps).parallel.runPass hcut fuel pass

end Engine

/-! ### What runs mind -/

/-- Whether a rule replaced its record. -/
def Event.isReplacement : Event → Bool
  | .replaced .. => true
  | _ => false

/-- Nothing was replaced. -/
def Calm (events : List Event) : Prop := ∀ event ∈ events, event.isReplacement = false

/-- All starts among the events are on records of one identity. -/
def StartsOn (key : Key) (events : List Event) : Prop :=
  ∀ start ∈ events.filterMap Event.start?, start.1 = key

/-- The content after the notes were taken, the latest first. -/
def contentAfter (notes : List Node) (before : Node) : Node := notes.head?.getD before

theorem contentAfter_append (later earlier : List Node) (before : Node) :
    contentAfter (later ++ earlier) before = contentAfter later (contentAfter earlier before) := by
  cases later <;> rfl

/-- A run from the world `w`, on a record of the given identity and content, has come to a result.
If nothing was replaced, then rules started on that identity only, and an answer leaves the content
that is told by the notes. -/
structure Minds (key : Key) (before : Node) (w : World (σ × List Node))
    (result : Except Stop α × World (σ × List Node)) (content? : α → Option Node) : Prop where
  grows : w.ledger.journal <:+ result.2.ledger.journal
  starts : ∀ events, result.2.ledger.journal = events ++ w.ledger.journal → Calm events →
    StartsOn key events
  content : ∀ events, result.2.ledger.journal = events ++ w.ledger.journal → Calm events →
    ∀ a, result.1 = .ok a → ∃ notes, result.2.memory.2 = notes ++ w.memory.2 ∧
      content? a = some (contentAfter notes before)

/-! ### Programs, rules and passes -/

/-- The identity stays, and the content is told by the notes that were taken. -/
structure Noted (r : Record) (w : World (σ × List Node)) (left : Record)
    (w' : World (σ × List Node)) : Prop where
  key : left.key = r.key
  content : ∃ notes, w'.memory.2 = notes ++ w.memory.2 ∧
    left.content = contentAfter notes r.content

/-- If the event is the start of a rule, the rule runs on the identity of the record. -/
def Event.StartsFor (r : Record) (event : Event) : Prop :=
  ∀ start, event.start? = some start → start.1 = r.key

/-- Nothing is noted. -/
theorem Noted.quiet {r left : Record} {w w' : World (σ × List Node)} (hk : left.key = r.key)
    (hc : left.content = r.content) (hn : w'.memory.2 = w.memory.2) : Noted r w left w' :=
  ⟨hk, [], hn, hc⟩

theorem attentive_noted : Attentive (Noted (σ := σ)) Event.StartsFor where
  refl r w := .quiet rfl rfl rfl
  trans := by
    rintro r w r₁ w₁ r₂ w₂ ⟨hk, notes, hn, hc⟩ ⟨hk', notes', hn', hc'⟩
    refine ⟨hk'.trans hk, notes' ++ notes, by rw [hn', hn, List.append_assoc], ?_⟩
    rw [hc', hc, contentAfter_append]
  key h := h.key
  events h _ he start hs := (he start hs).trans h.key

variable {e : Engine σ} {fuel : Nat}

/-- A program that notes content, and takes back the notes from passes that failed, attends to it if
the passes do that it asks for. -/
theorem RuleM.notingContent_attends {run : Pass → Run (σ × List Node) Pass}
    (hahead : ∀ (c : Context) w, Attends Noted Event.StartsFor c.record w (c.runAhead run w)
      fun c' => some c'.record)
    {idPrefix : String} (body : RuleM σ α) : ∀ (c : Context) (w : World (σ × List Node)),
      Attends Noted Event.StartsFor c.record w
        ((body.notingContent Except.isOk).exec idPrefix run c w) fun x => some x.2.record := by
  have quiet : ∀ (r : Record) {w w' : World (σ × List Node)}, w'.ledger = w.ledger →
      w'.memory.2 = w.memory.2 →
        Attends Noted Event.StartsFor r w (.ok (), w') fun _ => some r :=
    fun r _ _ hl hn => .quiet (congrArg Ledger.journal hl) (.quiet rfl rfl hn)
  induction body with
  | done a => exact fun c w => .pure attentive_noted rfl
  | fail f => exact fun c w => .stop _
  | look next ih => exact fun c => ih c c
  | write x next ih =>
    intro c w
    have hnext := ih (c.write x)
    cases x with
    | content tree =>
      have hnote : Attends Noted Event.StartsFor c.record w
          (.ok (), w.withNotes (tree :: w.memory.2))
          fun _ => some (c.write (.content tree)).record :=
        .quiet rfl ⟨rfl, [tree], rfl, rfl⟩
      exact hnote.after attentive_noted rfl (hnext _)
    | _ =>
      refine .changed attentive_noted ?_ (hnext w)
      exact .quiet rfl rfl rfl
  | generateId next ih =>
    intro c w
    let event : Event := .identified (idPrefix ++ toString w.nextId.toNat)
    have hid : Attends Noted Event.StartsFor c.record w
        (.ok (), World.log { w with nextId := w.nextId + 1 } event) fun _ => some c.record :=
      .enter [event] rfl (List.forall_mem_singleton.mpr (by rintro _ ⟨⟩)) (.quiet rfl rfl rfl)
    exact hid.after attentive_noted rfl (ih _ c _)
  | issue tree next ih =>
    intro c w
    have hissue : Attends Noted Event.StartsFor c.record w
        (.ok (), { w with nextKey := (tree.reissue w.nextKey).2 }) fun _ => some c.record :=
      quiet c.record rfl rfl
    exact hissue.after attentive_noted rfl (ih _ c _)
  | runAhead next ih =>
    intro c w
    have ha := hahead c w
    rw [exec_runAhead_notingContent, Run.attempt_apply]
    rcases hc : c.runAhead run w with ⟨(f | _) | c', w'⟩ <;> rw [hc] at ha
    · -- the notes of the pass are taken back
      have hfailed : Attends Noted Event.StartsFor c.record w
          (.ok (), w'.withNotes w.memory.2) fun _ => some c.record :=
        ha.failed rfl (.quiet rfl rfl rfl)
      exact hfailed.after attentive_noted rfl (ih (.error f) c _)
    · exact ha.error
    · exact ha.after attentive_noted rfl (ih (.ok ()) c' w')
  | «recall» next ih => exact fun c w => ih w.memory.1 c w
  | remember memory next ih =>
    intro c w
    have hremember : Attends Noted Event.StartsFor c.record w
        (.ok (), { w with memory := (memory, w.memory.2) }) fun _ => some c.record :=
      quiet c.record rfl rfl
    exact hremember.after attentive_noted rfl (ih c _)

namespace Engine

theorem notingContent_body? (keeps : Except Failure Unit → Bool) (e : Engine σ) (rule : RuleId) :
    (e.notingContent keeps).rulebook.body? rule =
      (e.rulebook.body? rule).map (RuleM.notingContent keeps) :=
  e.rulebook.mapBodies_body? _ rule

theorem attentive_notingContent (e : Engine σ) :
    (e.notingContent Except.isOk).Attentive Noted Event.StartsFor where
  toAttentive := attentive_noted
  quiet _ _ _ hm := .quiet rfl rfl (congrArg Prod.snd hm)
  resolved r _ := .quiet ((e.notingContent Except.isOk).resolveOwner_key r _)
    (content_of_resolveOwner rfl) rfl
  visited _ _ _ := by rintro _ ⟨⟩
  started _ _ _ _ _ := by rintro _ ⟨⟩; rfl
  replaced _ _ _ _ := by rintro _ ⟨⟩
  body hahead hb position r w := by
    rw [notingContent_body?, Option.map_eq_some_iff] at hb
    obtain ⟨body, -, rfl⟩ := hb
    exact body.notingContent_attends hahead
      { record := r, position, library := e.library } w

/-- If no rule replaces anything while a record is run ahead, then all rules that start run on its
identity, and its content is told by the notes. -/
theorem runAhead_minds (e : Engine σ) (fuel : Nat) (c : Context) (w : World (σ × List Node)) :
    Minds c.record.key c.record.content w
      (c.runAhead ((e.notingContent Except.isOk).runPass fuel) w)
      fun c' => some c'.record.content := by
  obtain ⟨events, he, hholds, hleft⟩ := e.attentive_notingContent.runAhead fuel c w
  have calm : ∀ {events'},
      (c.runAhead ((e.notingContent Except.isOk).runPass fuel) w).2.ledger.journal =
        events' ++ w.ledger.journal → Calm events' →
          events = events' ∧ Unreplaced c.record.key events' := by
    intro events' he' hcalm
    refine ⟨List.append_cancel_right (he.symm.trans he'), fun pass path rule hm => ?_⟩
    cases hcalm _ hm
  refine ⟨⟨events, he.symm⟩, fun events' he' hcalm => ?_, fun events' he' hcalm a ha => ?_⟩
  · obtain ⟨rfl, hn⟩ := calm he' hcalm
    intro start hs
    obtain ⟨event, hevent, hstart⟩ := List.mem_filterMap.mp hs
    exact hholds.holds hn event hevent start hstart
  · obtain ⟨rfl, hn⟩ := calm he' hcalm
    obtain ⟨left, hsome, -, notes, hnotes, hcontent⟩ := hleft hn a ha
    obtain rfl := Option.some.inj hsome
    exact ⟨notes, hnotes, congrArg some hcontent⟩

end Engine

end ComponentTree

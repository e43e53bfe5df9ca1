import ComponentTree.Proofs.Engine.Owner
import ComponentTree.Proofs.Expansion.Rules

/-!
Runs on a record that is not replaced.

A rule works on one record. It may run it ahead, in a pass that begins with the record, and rules of
that pass may do the same again. As long as none of all these rules replaces the record, every one
of them works on what the one before has left. So what holds of each single rule holds of all of
them: a relation between the record and what is left of it, and a property of the events that are
entered into the journal (`Attends`). It is enough to know this of the programs of the rules
(`Engine.Attentive`). Main statements: then it is so for all rules that a record is matched by
(`Attentive.applyRules`) and for the passes that run a record ahead (`Attentive.runAhead`), however
they end.
-/

namespace ComponentTree

variable {σ α β : Type}

/-! ### Events up to a replacement -/

/-- No rule replaced a record of the identity. -/
def Unreplaced (key : Key) (events : List Event) : Prop :=
  ∀ pass path rule, Event.replaced pass path key rule ∉ events

/-- The events, the latest first, have a property as long as no record of the identity was
replaced. -/
def UntilReplaced (key : Key) (P : Event → Prop) : List Event → Prop
  | [] => True
  | event :: earlier => (Unreplaced key earlier → P event) ∧ UntilReplaced key P earlier

section

variable {key : Key} {P Q : Event → Prop} {later earlier events : List Event}

theorem unreplaced_append :
    Unreplaced key (later ++ earlier) ↔ Unreplaced key later ∧ Unreplaced key earlier := by
  simp only [Unreplaced, List.mem_append, not_or, forall_and]

theorem UntilReplaced.of_forall : ∀ {events : List Event}, (∀ event ∈ events, P event) →
    UntilReplaced key P events
  | [], _ => trivial
  | _ :: _, h =>
    ⟨fun _ => h _ (List.mem_cons_self ..), of_forall fun x hx => h x (List.mem_cons_of_mem _ hx)⟩

theorem UntilReplaced.append (h : UntilReplaced key P earlier) : ∀ {later : List Event},
    (Unreplaced key earlier → UntilReplaced key P later) → UntilReplaced key P (later ++ earlier)
  | [], _ => h
  | event :: later, h' => by
    refine ⟨fun hn => ?_, h.append fun hearlier => (h' hearlier).2⟩
    obtain ⟨hlater, hearlier⟩ := unreplaced_append.mp hn
    exact (h' hearlier).1 hlater

theorem UntilReplaced.imp (hPQ : ∀ event, P event → Q event) : ∀ {events : List Event},
    UntilReplaced key P events → UntilReplaced key Q events
  | [], _ => trivial
  | _ :: _, h => ⟨fun hn => hPQ _ (h.1 hn), h.2.imp hPQ⟩

/-- If nothing was replaced, the property holds of all events. -/
theorem UntilReplaced.holds : ∀ {events : List Event}, UntilReplaced key P events →
    Unreplaced key events → ∀ event ∈ events, P event
  | [], _, _, _, h => absurd h List.not_mem_nil
  | _ :: events, h, hn, x, hx => by
    have hrest : Unreplaced key events :=
      fun pass path rule hm => hn pass path rule (List.mem_cons_of_mem _ hm)
    rcases List.mem_cons.mp hx with rfl | hx
    · exact h.1 hrest
    · exact h.2.holds hrest x hx

/-- The property holds of an event with nothing replaced before it. -/
theorem UntilReplaced.of_split : ∀ {later : List Event} {event : Event},
    UntilReplaced key P (later ++ event :: earlier) → Unreplaced key earlier → P event
  | [], _, h, hn => h.1 hn
  | _ :: _, _, h, hn => of_split h.2 hn

end

/-! ### Runs on a record -/

/-- What can be followed along runs on a record: `R` relates a record in a world to what has become
of both, and `P` tells which events are fit for a record. -/
structure Attentive (R : Record → World σ → Record → World σ → Prop)
    (P : Record → Event → Prop) : Prop where
  refl : ∀ r w, R r w r w
  trans : ∀ {r w r₁ w₁ r₂ w₂}, R r w r₁ w₁ → R r₁ w₁ r₂ w₂ → R r w r₂ w₂
  key : ∀ {r w r' w'}, R r w r' w' → r'.key = r.key
  events : ∀ {r w r' w'}, R r w r' w' → ∀ event, P r' event → P r event

/-- A run on the record `r`, from the world `w`, has come to a result. The events that it entered
are fit for `r` until a rule replaced it; and if none did, an answer leaves a record to which `r` is
related. -/
def Attends (R : Record → World σ → Record → World σ → Prop) (P : Record → Event → Prop)
    (r : Record) (w : World σ) (result : Except Stop α × World σ) (record? : α → Option Record) :
    Prop :=
  ∃ events, result.2.ledger.journal = events ++ w.ledger.journal ∧
    UntilReplaced r.key (P r) events ∧
      (Unreplaced r.key events → ∀ a, result.1 = .ok a →
        ∃ r', record? a = some r' ∧ R r w r' result.2)

namespace Attends

variable {R : Record → World σ → Record → World σ → Prop} {P : Record → Event → Prop}
  {r r' : Record} {w w' : World σ} {record? : α → Option Record} {record?' : β → Option Record}

/-- Fit events are entered into the journal. -/
theorem enter (events : List Event) (he : w'.ledger.journal = events ++ w.ledger.journal)
    (hP : ∀ event ∈ events, P r event) (hR : R r w r' w') :
    Attends R P r w (.ok (), w') fun _ => some r' :=
  ⟨events, he, .of_forall hP, fun _ _ _ => ⟨r', rfl, hR⟩⟩

/-- Nothing is entered into the journal. -/
theorem quiet (hj : w'.ledger.journal = w.ledger.journal) (hR : R r w r' w') :
    Attends R P r w (.ok (), w') fun _ => some r' :=
  enter [] hj (List.forall_mem_nil _) hR

theorem pure (hA : Attentive R P) {a : α} (h : record? a = some r) :
    Attends R P r w (.ok a, w) record? :=
  ⟨[], rfl, trivial, by rintro _ _ ⟨⟩; exact ⟨r, h, hA.refl r w⟩⟩

theorem stop (s : Stop) : Attends R P r w (.error s, w) record? :=
  ⟨[], rfl, trivial, by rintro _ _ ⟨⟩⟩

/-- A replacement is entered into the journal. -/
theorem replace {result : Except Stop α × World σ} {pass : Nat} {path : Path} {rule : RuleId}
    (h : result.2.ledger.journal = .replaced pass path r.key rule :: w.ledger.journal)
    (hP : P r (.replaced pass path r.key rule)) : Attends R P r w result record? :=
  ⟨[_], h, ⟨fun _ => hP, trivial⟩, fun hn => absurd (List.mem_singleton_self _) (hn pass path rule)⟩

/-- What a run that stops would have answered does not count. -/
theorem error {s : Stop} (h : Attends R P r w (.error s, w') record?) :
    Attends R P r w (.error s, w') record?' := by
  obtain ⟨events, he, hholds, -⟩ := h
  exact ⟨events, he, hholds, by rintro _ _ ⟨⟩⟩

/-- After a run that failed, the record is the one from before, and the world may be changed in
anything but the journal. -/
theorem failed {s : Stop} {w'' : World σ} (h : Attends R P r w (.error s, w') record?)
    (hj : w''.ledger.journal = w'.ledger.journal) (hR : R r w r w'') :
    Attends R P r w (.ok (), w'') fun _ => some r := by
  obtain ⟨events, he, hholds, -⟩ := h
  exact ⟨events, hj.trans he, hholds, fun _ _ _ => ⟨r, rfl, hR⟩⟩

/-- A run that comes after another one, which has left the record `r'`. -/
theorem after (hA : Attentive R P) {a : α} {result : Except Stop β × World σ}
    (h : Attends R P r w (.ok a, w') record?) (ha : record? a = some r')
    (h' : Attends R P r' w' result record?') : Attends R P r w result record?' := by
  obtain ⟨earlier, he, hholds, hleft⟩ := h
  obtain ⟨later, hl, hholds', hleft'⟩ := h'
  -- what was left is known only if nothing was replaced so far
  have hrelated : Unreplaced r.key earlier → R r w r' w' := by
    intro hn
    obtain ⟨left, hsome, hR⟩ := hleft hn a rfl
    obtain rfl := Option.some.inj (ha.symm.trans hsome)
    exact hR
  refine ⟨later ++ earlier, by rw [hl, he, List.append_assoc], ?_, fun hn b hb => ?_⟩
  · refine hholds.append fun hearlier => ?_
    have hR := hrelated hearlier
    rw [hA.key hR] at hholds'
    exact hholds'.imp (hA.events hR)
  · obtain ⟨hlater, hearlier⟩ := unreplaced_append.mp hn
    have hR := hrelated hearlier
    rw [hA.key hR] at hleft'
    obtain ⟨left, hsome, hR'⟩ := hleft' hlater b hb
    exact ⟨left, hsome, hA.trans hR hR'⟩

/-- A run that comes after a change of the record. -/
theorem changed (hA : Attentive R P) {result : Except Stop α × World σ} (hR : R r w r' w)
    (h : Attends R P r' w result record?) : Attends R P r w result record? := by
  have hchange : Attends R P r w (.ok (), w) fun _ => some r' := .quiet rfl hR
  exact hchange.after hA rfl h

/-- A run that comes after another one in which the record was replaced. -/
theorem unsettled {a : α} {result : Except Stop β × World σ}
    (h : Attends R P r w (.ok a, w') record?) (ha : record? a = none)
    (hg : w'.ledger.journal <:+ result.2.ledger.journal) : Attends R P r w result record?' := by
  obtain ⟨earlier, he, hholds, hleft⟩ := h
  obtain ⟨later, hl⟩ := hg
  have hreplaced : ¬ Unreplaced r.key earlier := by
    intro hn
    obtain ⟨left, hsome, -⟩ := hleft hn a rfl
    rw [ha] at hsome
    cases hsome
  refine ⟨later ++ earlier, by rw [← hl, he, List.append_assoc], ?_, fun hn => ?_⟩
  · exact hholds.append fun hn => absurd hn hreplaced
  · exact absurd (unreplaced_append.mp hn).2 hreplaced

theorem bind (hA : Attentive R P) {x : Run σ α} {f : α → Run σ β}
    (h : Attends R P r w (x w) record?)
    (hf : ∀ a w', x w = (.ok a, w') → ∃ r', record? a = some r' ∧
      Attends R P r' w' (f a w') record?') : Attends R P r w ((x >>= f) w) record?' := by
  rw [Run.bind_apply]
  rcases hx : x w with ⟨s | a, w'⟩ <;> rw [hx] at h
  · exact h.error
  · obtain ⟨r', ha, h'⟩ := hf a w' hx
    exact h.after hA ha h'

end Attends

/-! ### Rules and passes -/

/-- The record, if it was kept. -/
def Verdict.kept? : Verdict → Option Record
  | .kept r => some r
  | .replaced .. => none

/-- The root, if a pass is done and its root is a record. -/
def Pass.doneRecord? (pass : Pass) : Option Record :=
  if pass.queue.isEmpty then pass.tree.record? else none

namespace Engine

/-- The programs of an engine's rules attend to their records, if the passes do that they ask for;
and so does the engine when it looks at a record. -/
structure Attentive (e : Engine σ) (R : Record → World σ → Record → World σ → Prop)
    (P : Record → Event → Prop) : Prop extends ComponentTree.Attentive R P where
  /-- The ledger does not count for what has become of a record. -/
  quiet : ∀ r {w w' : World σ}, w'.memory = w.memory → R r w r w'
  /-- A record that comes up below its own component gets its owner. -/
  resolved : ∀ r w, R r w (e.resolveOwner r ⟨r.component, none⟩).1 w
  visited : ∀ {r component}, r.component = some component → ∀ pass path,
    P r (.visited pass path r.key component r.variant r.part)
  started : ∀ r pass path rule position, P r (.started pass path r.key rule position)
  replaced : ∀ r pass path rule, P r (.replaced pass path r.key rule)
  body : ∀ {fuel rule body}, (∀ (c : Context) w, Attends R P c.record w
      (c.runAhead (e.runPass fuel) w) fun c' => some c'.record) →
    e.rulebook.body? rule = some body → ∀ position r w, Attends R P r w
      (e.runBody (e.runPass fuel) body position r w) fun x => some x.2.record

namespace Attentive

variable {e : Engine σ} {R : Record → World σ → Record → World σ → Prop}
  {P : Record → Event → Prop} {fuel : Nat}

theorem runRules (h : e.Attentive R P)
    (hahead : ∀ (c : Context) w, Attends R P c.record w (c.runAhead (e.runPass fuel) w)
      fun c' => some c'.record)
    (pass : Nat) (site : Site) : ∀ (rules : List RuleId) (r : Record) (w : World σ),
      Attends R P r w (e.runRules (e.runPass fuel) pass site r.key rules r w) Verdict.kept?
  | [], r, w => .pure h.toAttentive rfl
  | rule :: rest, r, w => by
    unfold Engine.runRules
    rw [Run.bind_apply, Run.mark_apply]
    by_cases hm : (r.key, rule) ∈ w.ledger.marks
    · simp only [hm, if_true]
      exact runRules h hahead pass site rest r w
    simp only [hm, if_false, if_true]
    cases hb : e.rulebook.body? rule with
    | none =>
      have hmark : Attends R P r w (.ok (), w.mark r.key rule) fun _ => some r :=
        .quiet rfl (h.quiet r rfl)
      exact hmark.after h.toAttentive rfl (runRules h hahead pass site rest r (w.mark r.key rule))
    | some body =>
      let w₁ := (w.mark r.key rule).log (.started pass site.path r.key rule site.position)
      have hstart : Attends R P r w (.ok (), w₁) fun _ => some r :=
        .enter [.started pass site.path r.key rule site.position] rfl
          (List.forall_mem_singleton.mpr (h.started ..)) (h.quiet r rfl)
      have hbody := h.body hahead hb site.position r w₁
      dsimp only
      rw [Run.bind_apply, Run.log_apply]
      refine hstart.after h.toAttentive rfl (hbody.bind h.toAttentive fun x w' hx => ⟨_, rfl, ?_⟩)
      obtain ⟨answer, c⟩ := x
      have hkey : c.record.key = r.key := (e.carries_key fuel).exec (runPass_moves fuel) body hx
      dsimp only
      cases replacement? answer with
      | some tree =>
        rw [← hkey]
        exact .replace rfl (h.replaced ..)
      | none =>
        dsimp only
        split
        · exact .pure h.toAttentive rfl
        · have hrest := runRules h hahead pass site rest c.record w'
          rw [hkey] at hrest
          exact hrest

theorem applyRules_of_ahead (h : e.Attentive R P)
    (hahead : ∀ (c : Context) w, Attends R P c.record w (c.runAhead (e.runPass fuel) w)
      fun c' => some c'.record)
    (pass : Nat) (site : Site) (r : Record) (component : String) (variant : Option String)
    (w : World σ) : Attends R P r w
      (e.applyRules (e.runPass fuel) pass site r component variant w) Verdict.kept? := by
  unfold Engine.applyRules
  rcases e.rulebook.resolve component variant r.part with _ | ⟨_, rules⟩
  · exact .pure h.toAttentive rfl
  · exact h.runRules hahead pass site rules r w

/-- The first turn of a pass for a record alone. -/
theorem step (h : e.Attentive R P)
    (hahead : ∀ (c : Context) w, Attends R P c.record w (c.runAhead (e.runPass fuel) w)
      fun c' => some c'.record)
    {pass : Pass} {site : Site} {r : Record} (ht : pass.tree = .record r) (hp : site.path = [])
    (ho : site.owner = ⟨r.component, none⟩) (hq : pass.queue = []) (hro : pass.rootOnly = true)
    (w : World σ) :
    Attends R P r w (e.step (e.runPass fuel) pass site w) Pass.doneRecord? := by
  have hat : pass.tree.at? site.path = some (.record r) := by rw [ht, hp, Node.at?_nil]
  have kept : ∀ (left : Record) (owner : Owner),
      (pass.keep site left owner).doneRecord? = some left := by
    intro left owner
    simp [Pass.keep, hro, Pass.doneRecord?, Pass.put, hp, hq, Node.put, Node.record?]
  unfold Engine.step
  rw [hat]
  dsimp only
  rcases hr : e.resolveOwner r site.owner with ⟨r', owner⟩
  have hresolved := h.resolved r w
  rw [← ho, hr] at hresolved
  refine .changed h.toAttentive hresolved ?_
  rw [visit_apply hr]
  cases hc : r'.component with
  | none => exact .pure h.toAttentive (kept r' owner)
  | some component =>
    have howner : owner.variant = r'.variant := by
      rw [resolveOwner_owner hr (by rw [hc]; rfl)]
    let w₁ := arrive pass site r' owner component w
    have harrive : Attends R P r' w (.ok (), w₁) fun _ => some r' := by
      refine .enter [.visited pass.number site.path r'.key component owner.variant r'.part] rfl
        (List.forall_mem_singleton.mpr ?_) (h.quiet r' rfl)
      rw [howner]
      exact h.visited hc pass.number site.path
    refine harrive.after h.toAttentive rfl ?_
    dsimp only
    split
    · exact .stop _
    split
    · exact .pure h.toAttentive (kept r' owner)
    · have happly := h.applyRules_of_ahead hahead pass.number site.count r' component
        owner.variant w₁
      rcases hv : e.applyRules (e.runPass fuel) pass.number site.count r' component owner.variant w₁
        with ⟨s | (left | ⟨left, tree⟩), w₂⟩ <;> rw [hv] at happly
      · exact happly.error
      · exact happly.after h.toAttentive rfl (.pure h.toAttentive (kept left owner))
      · exact happly.unsettled rfl List.suffix_rfl

theorem beginPass (h : e.Attentive R P) (r : Record) (w : World σ) :
    Attends R P r w (.ok (), { w with ledger := { w.ledger with passes := w.ledger.passes + 1 } })
      fun _ => some r :=
  .quiet rfl (h.quiet r rfl)

/-- A record that is run ahead is attended to in the first turn of the pass. If it is kept, the pass
is done. -/
theorem runAhead (h : e.Attentive R P) : ∀ (fuel : Nat) (c : Context) (w : World σ),
    Attends R P c.record w (c.runAhead (e.runPass fuel) w) fun c' => some c'.record
  | 0, c, w => (h.beginPass c.record w).after h.toAttentive rfl (.stop .exhausted)
  | fuel + 1, c, w => by
    let pass : Pass :=
      { Pass.start w.ledger.passes ⟨c.record.component, none⟩ true (.record c.record) with
        queue := [] }
    let site : Site := ⟨[], .listed 0 1, ⟨c.record.component, none⟩, 0⟩
    let w₁ : World σ := { w with ledger := { w.ledger with passes := w.ledger.passes + 1 } }
    have hstep : Attends R P c.record w₁ (e.step (e.runPass fuel) pass site w₁)
        Pass.doneRecord? := h.step (h.runAhead fuel) rfl rfl rfl rfl rfl w₁
    refine (h.beginPass c.record w).after h.toAttentive rfl ?_
    have hq : (Pass.start w.ledger.passes ⟨c.record.component, none⟩ true
      (.record c.record)).queue = [site] := rfl
    rw [Context.runAhead_apply, runPass_cons hq]
    rcases hs : e.step (e.runPass fuel) pass site w₁ with ⟨s | pass', w₂⟩ <;> rw [hs] at hstep
    · exact hstep.error
    obtain ⟨deed, hd, rfl⟩ := step_does hs
    rcases hd.of_record rfl with ⟨left, owner, rfl⟩ | ⟨left, replacement, owner, rfl⟩
    · -- the pass is done, if it has a step left to see that
      have hsettle : (c.settle (pass.keep site left owner)).record = left := by
        rw [Context.settle_of_key (r := left) rfl (hd.key rfl)]
      cases fuel with
      | zero => exact hstep.after h.toAttentive rfl (.stop _)
      | succ fuel =>
        dsimp only
        rw [runPass_done rfl]
        exact hstep.after h.toAttentive rfl (.pure h.toAttentive (congrArg some hsettle))
    · -- whatever the pass does from here on, the record was replaced
      have hgrows := (runPass_moves (e := e) fuel
        (pass.after site (.replaced c.record left replacement owner)) w₂).grows.journal
      refine hstep.unsettled rfl ?_
      dsimp only
      rcases hp : e.runPass fuel (pass.after site (.replaced c.record left replacement owner)) w₂
        with ⟨_ | _, _⟩ <;> rw [hp] at hgrows <;> exact hgrows

theorem applyRules (h : e.Attentive R P) (fuel pass : Nat) (site : Site) (r : Record)
    (component : String) (variant : Option String) (w : World σ) :
    Attends R P r w (e.applyRules (e.runPass fuel) pass site r component variant w)
      Verdict.kept? :=
  h.applyRules_of_ahead (h.runAhead fuel) pass site r component variant w

end Attentive

end Engine

end ComponentTree

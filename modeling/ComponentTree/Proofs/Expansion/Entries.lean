import ComponentTree.Proofs.Expansion.Rules

/-!
What passes enter into the journal.

The journal only grows, and what a step enters is known from where it comes: it is about the site of
the step (`Event.Of`), it is an identifier, or it comes from a pass that a rule has asked for. So
what these keep is kept by programs, rules and steps (`World.Kept`, `step_keeps`), and a property of
events holds of all that a step enters, if it holds of these (`step_enters`). First use: a pass and
the passes that it asks for only enter events of passes that began no earlier than the pass
(`runPass_enters`), and a pass for a record alone enters none of a pass that had begun before
(`runAhead_enters`).
-/

namespace ComponentTree

variable {σ α : Type}

/-- The event happened in a pass whose number has a property. Giving out an identifier counts for
none. -/
def Event.InPass (p : Nat → Prop) : Event → Prop
  | .visited number .. | .started number .. | .replaced number .. => p number
  | .identified _ => True

theorem Event.InPass.mono {p q : Nat → Prop} (hpq : ∀ n, p n → q n) :
    ∀ {event : Event}, event.InPass p → event.InPass q
  | .visited .., h => hpq _ h
  | .started .., h => hpq _ h
  | .replaced .., h => hpq _ h
  | .identified _, _ => trivial

/-- What a pass enters about a site itself. -/
inductive Event.Of (number : Nat) (site : Site) : Event → Prop
  | visited (key : Key) (component : String) (variant part : Option String) :
      Of number site (.visited number site.path key component variant part)
  | started (key : Key) (rule : RuleId) :
      Of number site (.started number site.path key rule site.position)
  | replaced (key : Key) (rule : RuleId) : Of number site (.replaced number site.path key rule)

theorem Event.Of.inPass {number : Nat} {site : Site} {event : Event} (h : event.Of number site)
    {p : Nat → Prop} (hp : p number) : event.InPass p := by
  cases h <;> exact hp

/-- From `w` to `w'` events are entered for which `P` holds, and which happened in passes that have
begun. -/
structure World.Enters (P : Event → Prop) (w w' : World σ) : Prop where
  passes : w.ledger.passes ≤ w'.ledger.passes
  entered : ∃ new, w'.ledger.journal = new ++ w.ledger.journal ∧
    ∀ event ∈ new, P event ∧ event.InPass (· < w'.ledger.passes)

namespace World.Enters

variable {P Q : Event → Prop} {w w' w'' : World σ}

/-- Nothing is entered. -/
theorem quiet (hj : w'.ledger.journal = w.ledger.journal)
    (hp : w.ledger.passes ≤ w'.ledger.passes) : w.Enters P w' :=
  ⟨hp, [], hj, List.forall_mem_nil _⟩

theorem refl (w : World σ) : w.Enters P w := quiet rfl (Nat.le_refl _)

theorem trans (h : w.Enters P w') (h' : w'.Enters P w'') : w.Enters P w'' := by
  obtain ⟨hpasses, new, hnew, hin⟩ := h
  obtain ⟨hpasses', new', hnew', hin'⟩ := h'
  refine ⟨Nat.le_trans hpasses hpasses', new' ++ new, by rw [hnew', hnew, List.append_assoc],
    fun event he => ?_⟩
  rcases List.mem_append.mp he with he | he
  · exact hin' event he
  · exact ⟨(hin event he).1, (hin event he).2.mono fun _ hlt => Nat.lt_of_lt_of_le hlt hpasses'⟩

theorem mono (h : w.Enters P w') (hPQ : ∀ event, P event → Q event) : w.Enters Q w' := by
  obtain ⟨hpasses, new, hnew, hin⟩ := h
  exact ⟨hpasses, new, hnew, fun event he => ⟨hPQ event (hin event he).1, (hin event he).2⟩⟩

theorem log (h : w.Enters P w') {event : Event} (hP : P event)
    (hlt : event.InPass (· < w'.ledger.passes)) : w.Enters P (w'.log event) := by
  obtain ⟨hpasses, new, hnew, hin⟩ := h
  refine ⟨hpasses, event :: new, congrArg (event :: ·) hnew, ?_⟩
  exact List.forall_mem_cons.mpr ⟨⟨hP, hlt⟩, hin⟩

/-- Of an event, that it is in the journal now is no news, or it has been entered. -/
theorem mem (h : w.Enters P w') {event : Event} (he : event ∈ w'.ledger.journal) :
    event ∈ w.ledger.journal ∨ P event := by
  obtain ⟨-, new, hnew, hin⟩ := h
  rw [hnew, List.mem_append] at he
  exact he.elim (fun he => Or.inr (hin event he).1) Or.inl

end World.Enters

/-! ### What programs, rules and steps keep -/

/-- `I` depends on the journal and on the number of passes only. It is kept where an identifier is
given out, and where a record is run ahead. -/
structure World.Kept (run : Pass → Run σ Pass) (I : World σ → Prop) : Prop where
  quiet : ∀ {w w' : World σ}, I w → w'.ledger.journal = w.ledger.journal →
    w'.ledger.passes = w.ledger.passes → I w'
  identified : ∀ {w : World σ} (id : String), I w → I (w.log (.identified id))
  ahead : ∀ (c : Context) {w : World σ}, I w → I (c.runAhead run w).2

section

variable {e : Engine σ} {run : Pass → Run σ Pass} {I J : World σ → Prop} {P : Event → Prop}
  {least : Nat}

theorem RuleM.exec_keeps (hI : World.Kept run I) (idPrefix : String) (body : RuleM σ α) :
    ∀ (c : Context) {w : World σ}, I w → I (body.exec idPrefix run c w).2 := by
  induction body with
  | done a => exact fun _ _ hw => hw
  | fail f => exact fun _ _ hw => hw
  | look next ih => exact fun c => ih c c
  | write x next ih => exact fun c => ih (c.write x)
  | generateId next ih =>
    intro c w hw
    have hnext : I { w with nextId := w.nextId + 1 } := hI.quiet hw rfl rfl
    exact ih _ c (hI.identified _ hnext)
  | issue tree next ih =>
    intro c w hw
    have hissue : I { w with nextKey := (tree.reissue w.nextKey).2 } := hI.quiet hw rfl rfl
    exact ih _ c hissue
  | runAhead next ih =>
    intro c w hw
    have hahead : I (Run.attempt (c.runAhead run) w).2 := by
      rw [Run.attempt_world]
      exact hI.ahead c hw
    rw [exec_runAhead]
    generalize Run.attempt (c.runAhead run) w = result at hahead
    rcases result with ⟨_ | (f | c'), w'⟩
    · exact hahead
    · exact ih (.error f) c hahead
    · exact ih (.ok ()) c' hahead
  | «recall» next ih => exact fun c w => ih w.memory c
  | remember memory next ih =>
    intro c w hw
    have hremember : I { w with memory } := hI.quiet hw rfl rfl
    exact ih c hremember

namespace Engine

/-- Before the rules replace anything, `I` holds, and afterwards `J`. -/
theorem runRules_keeps (hI : World.Kept run I) (hIJ : ∀ {w}, I w → J w) {number : Nat} {site : Site}
    {key : Key}
    (hstart : ∀ {w} rule, I w → I (w.log (.started number site.path key rule site.position)))
    (hreplace : ∀ {w} rule, I w → J (w.log (.replaced number site.path key rule))) :
    ∀ (rules : List RuleId) (r : Record) {w : World σ}, I w →
      J (e.runRules run number site key rules r w).2
  | [], _, w, hw => hIJ hw
  | rule :: rest, r, w, hw => by
    have hmark : I (w.mark key rule) := hI.quiet hw rfl rfl
    unfold runRules
    rw [Run.bind_apply, Run.mark_apply]
    by_cases hm : (key, rule) ∈ w.ledger.marks
    · simp only [hm, if_true]
      exact runRules_keeps hI hIJ hstart hreplace rest r hw
    simp only [hm, if_false, if_true]
    cases hb : e.rulebook.body? rule with
    | none => exact runRules_keeps hI hIJ hstart hreplace rest r hmark
    | some body =>
      dsimp only
      rw [Run.bind_apply, Run.log_apply]
      dsimp only
      have hbody : I (e.runBody run body site.position r
          ((w.mark key rule).log (.started number site.path key rule site.position))).2 :=
        body.exec_keeps hI e.options.idPrefix _ (hstart rule hmark)
      rw [Run.bind_apply]
      generalize e.runBody run body site.position r
        ((w.mark key rule).log (.started number site.path key rule site.position)) = result at hbody
      rcases result with ⟨s | ⟨answer, c⟩, w'⟩
      · exact hIJ hbody
      · dsimp only
        cases replacement? answer with
        | some tree => exact hreplace rule hbody
        | none =>
          dsimp only
          split
          · exact hIJ hbody
          · exact runRules_keeps hI hIJ hstart hreplace rest c.record hbody

/-- The same of a step; it replaces something only where the guard admits the site. -/
theorem step_keeps (hI : World.Kept run I) (hIJ : ∀ {w}, I w → J w) {pass : Pass} {site : Site}
    (hvisit : ∀ {w} key component variant part,
      I w → I (w.log (.visited pass.number site.path key component variant part)))
    (hstart : ∀ {w} key rule,
      I w → I (w.log (.started pass.number site.path key rule site.position)))
    (hreplace : e.options.refuses site.count.rounds = false → ∀ {w} key rule,
      I w → J (w.log (.replaced pass.number site.path key rule)))
    {w : World σ} (hw : I w) : J (e.step run pass site w).2 := by
  unfold step
  rcases pass.tree.at? site.path with _ | node
  · exact hIJ hw
  cases node with
  | record found =>
    dsimp only
    rcases hr : e.resolveOwner found site.owner with ⟨r, owner⟩
    rw [visit_apply hr]
    cases r.component with
    | none => exact hIJ hw
    | some component =>
      have harrive : I (arrive pass site r owner component w) := hvisit _ _ _ _ hw
      dsimp only
      split
      · exact hIJ harrive
      rename_i hg
      rw [Bool.not_eq_true] at hg
      split
      · exact hIJ harrive
      · have hrules : J (e.applyRules run pass.number site.count r component owner.variant
            (arrive pass site r owner component w)).2 := by
          unfold applyRules
          rcases e.rulebook.resolve component owner.variant r.part with _ | ⟨_, rules⟩
          · exact hIJ harrive
          · refine runRules_keeps hI hIJ (fun rule => ?_) (fun rule => ?_) rules r harrive
            · exact hstart r.key rule
            · exact hreplace hg r.key rule
        generalize e.applyRules run pass.number site.count r component owner.variant
          (arrive pass site r owner component w) = x at hrules
        rcases x with ⟨_ | (_ | _), _⟩ <;> exact hrules
  | _ => exact hIJ hw

/-! ### What programs and steps enter -/

theorem enters_kept (hid : ∀ id, P (.identified id))
    (hahead : ∀ (c : Context) (w : World σ), least ≤ w.ledger.passes →
      w.Enters P (c.runAhead run w).2) {w : World σ} (hw : least ≤ w.ledger.passes) :
    World.Kept run (w.Enters P) where
  quiet h hj hp := h.trans (.quiet hj (Nat.le_of_eq hp.symm))
  identified id h := h.log (hid id) trivial
  ahead c _ h := h.trans (hahead c _ (Nat.le_trans hw h.passes))

/-- Apart from identifiers, what a step enters is about its site, or a pass has entered it that a
rule has asked for. -/
theorem step_enters (hid : ∀ id, P (.identified id))
    (hahead : ∀ (c : Context) (w : World σ), least ≤ w.ledger.passes →
      w.Enters P (c.runAhead run w).2) {pass : Pass} (hn : pass.number < least) {site : Site}
    (hown : ∀ event, event.Of pass.number site → P event) {w : World σ}
    (hw : least ≤ w.ledger.passes) : w.Enters P (e.step run pass site w).2 := by
  have own : ∀ {u : World σ} {event : Event}, event.Of pass.number site → w.Enters P u →
      w.Enters P (u.log event) := fun he hu =>
    hu.log (hown _ he) (he.inPass (Nat.lt_of_lt_of_le hn (Nat.le_trans hw hu.passes)))
  exact step_keeps (enters_kept hid hahead hw) id (fun _ _ _ _ => own (.visited ..))
    (fun _ _ => own (.started ..)) (fun _ _ _ _ => own (.replaced ..)) (.refl w)

end Engine

end

/-! ### What passes enter -/

/-- Running a record ahead does to the world what the pass does that it is. -/
theorem Context.runAhead_world (run : Pass → Run σ Pass) (c : Context) (w : World σ) :
    (c.runAhead run w).2 = (run
      (.start w.ledger.passes ⟨c.record.component, none⟩ true (.record c.record))
      { w with ledger := { w.ledger with passes := w.ledger.passes + 1 } }).2 := by
  rw [runAhead_apply]
  generalize run _ _ = result
  rcases result with ⟨_ | _, _⟩ <;> rfl

/-- The events are of the pass with a number, or of a later one. -/
abbrev Event.Since (number : Nat) : Event → Prop := Event.InPass (number ≤ ·)

theorem Context.runAhead_enters {run : Pass → Run σ Pass}
    (hrun : ∀ (pass : Pass) (w : World σ), pass.number < w.ledger.passes →
      w.Enters (Event.Since pass.number) (run pass w).2) (c : Context) (w : World σ) :
    w.Enters (Event.Since w.ledger.passes) (c.runAhead run w).2 := by
  have hbegin : w.Enters (Event.Since w.ledger.passes)
      { w with ledger := { w.ledger with passes := w.ledger.passes + 1 } } :=
    .quiet rfl (Nat.le_succ _)
  rw [runAhead_world]
  exact hbegin.trans (hrun (.start w.ledger.passes _ true _) _ (Nat.lt_succ_self _))

namespace Engine

theorem step_since {e : Engine σ} {run : Pass → Run σ Pass}
    (hrun : ∀ (pass : Pass) (w : World σ), pass.number < w.ledger.passes →
      w.Enters (Event.Since pass.number) (run pass w).2) (pass : Pass) (site : Site) {w : World σ}
    (hn : pass.number < w.ledger.passes) :
    w.Enters (Event.Since pass.number) (e.step run pass site w).2 := by
  refine e.step_enters (fun _ => trivial) (fun c u hu => ?_) hn
    (fun _ he => he.inPass (Nat.le_refl _)) (Nat.le_refl _)
  exact (c.runAhead_enters hrun u).mono fun _ he => he.mono fun _ =>
    Nat.le_trans (Nat.le_of_lt (Nat.lt_of_lt_of_le hn hu))

/-- What a pass enters, with the passes that it asks for, is of no earlier pass. -/
theorem runPass_enters (e : Engine σ) : ∀ (fuel : Nat) (pass : Pass) (w : World σ),
    pass.number < w.ledger.passes → w.Enters (Event.Since pass.number) (e.runPass fuel pass w).2
  | 0, _, w, _ => .refl w
  | fuel + 1, pass, w, hn => by
    cases hq : pass.queue with
    | nil =>
      rw [runPass_done hq]
      exact .refl w
    | cons site queue =>
      have hstep := e.step_since (runPass_enters e fuel) { pass with queue } site hn
      rw [runPass_cons hq]
      rcases hs : e.step (e.runPass fuel) { pass with queue } site w with ⟨s | pass', w'⟩ <;>
        rw [hs] at hstep
      · exact hstep
      · obtain ⟨deed, -, rfl⟩ := step_does hs
        have hnumber : (Pass.after { pass with queue } site deed).number = pass.number :=
          Pass.after_number ..
        have hrest := runPass_enters e fuel (Pass.after { pass with queue } site deed) w' (by
          rw [hnumber]
          exact Nat.lt_of_lt_of_le hn hstep.passes)
        rw [hnumber] at hrest
        exact hstep.trans hrest

/-- What is entered while a record is run ahead is of passes that had not begun. -/
theorem runAhead_enters (e : Engine σ) (fuel : Nat) (c : Context) (w : World σ) :
    w.Enters (Event.Since w.ledger.passes) (c.runAhead (e.runPass fuel) w).2 :=
  c.runAhead_enters (e.runPass_enters fuel) w

theorem Reaches.enters {e : Engine σ} {limit : Nat} {pass₀ pass : Pass} {w₀ w : World σ}
    {turns : List Turn} (h : e.Reaches limit pass₀ w₀ turns pass w)
    (hn : pass₀.number < w₀.ledger.passes) : w₀.Enters (Event.Since pass₀.number) w := by
  induction h with
  | start => exact .refl w₀
  | @turn _ pass w _ site queue fuel deed h _ _ hd ih =>
    have hnumber : ({ pass with queue } : Pass).number = pass₀.number := h.number_eq
    have hstep := e.step_since (e.runPass_enters fuel) { pass with queue } site (w := w) (by
      rw [hnumber]
      exact Nat.lt_of_lt_of_le hn ih.passes)
    rw [hd.step_eq, hnumber] at hstep
    exact ih.trans hstep

end Engine

/-! ### Numbers of passes -/

namespace World

/-- The events in the journal are of passes that have begun. -/
def Numbered (w : World σ) : Prop :=
  ∀ event ∈ w.ledger.journal, event.InPass (· < w.ledger.passes)

theorem Enters.numbered {P : Event → Prop} {w w' : World σ} (h : w.Enters P w')
    (hw : w.Numbered) : w'.Numbered := by
  obtain ⟨hpasses, new, hnew, hin⟩ := h
  intro event he
  rw [hnew, List.mem_append] at he
  rcases he with he | he
  · exact (hin event he).2
  · exact (hw event he).mono fun _ hlt => Nat.lt_of_lt_of_le hlt hpasses

theorem Enters.suffix {P : Event → Prop} {w w' : World σ} (h : w.Enters P w') :
    w.ledger.journal <:+ w'.ledger.journal := by
  obtain ⟨-, new, hnew, -⟩ := h
  exact ⟨new, hnew.symm⟩

end World

end ComponentTree

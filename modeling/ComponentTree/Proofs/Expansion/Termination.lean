import ComponentTree.Proofs.Expansion.AtMostOnce
import ComponentTree.Proofs.Expansion.Fuel
import ComponentTree.Proofs.Expansion.Worklist
import Mathlib.Logic.Hydra

/-!
When passes end.

A run is taken here at every number of steps at once. It halts within a bound if it is not cut off
at some number, provided that at every number the ledger keeps to the bound (`Run.Halts`). The
bodies of rules are finite programs, so they halt if the passes do that they ask for, and so do
lists of rules, visits and steps (`step_halts`). Such a pass begins only when a rule has started, so
later in the sense of `Ledger.Later` than the step that it belongs to.

A pass takes one site off its queue and puts other ones in. It cannot go on doing so if the new
sites rank below the old one, and it may now and then put in any sites if that uses up a budget,
which passes begun later have less of (`Engine.Descent`). Main statement: with such ranks and such a
budget all passes halt (`Descent.runPass_halts`).
-/

namespace ComponentTree

variable {σ α β : Type}

/-! ### Runs at all numbers of steps -/

/-- Something that ledgers may keep to; a ledger that keeps to it did so at all earlier times. -/
structure Ledger.Bound where
  holds : Ledger → Prop
  of_grows : ∀ {l l'}, l.GrowsTo l' → holds l' → holds l

namespace Run

/-- With more steps the run goes on. -/
def Rising (x : Nat → Run σ α) : Prop := ∀ n m, n ≤ m → (x n).GoesOn (x m)

/-- From `w` on, the ledger keeps to the bound, however many steps there are. -/
def StaysIn (bound : Ledger.Bound) (x : Nat → Run σ α) (w : World σ) : Prop :=
  ∀ n, bound.holds (x n w).2.ledger

/-- From `w` on, the run ends with steps enough, if its ledger keeps to the bound. -/
def Halts (bound : Ledger.Bound) (x : Nat → Run σ α) (w : World σ) : Prop :=
  StaysIn bound x w → ∃ n, (x n w).1 ≠ .error .exhausted

variable {bound : Ledger.Bound} {x : Nat → Run σ α} {f : Nat → α → Run σ β} {w : World σ}

theorem Halts.of_answer (n : Nat) (h : (x n w).1 ≠ .error .exhausted) : Halts bound x w :=
  fun _ => ⟨n, h⟩

theorem StaysIn.start (hx : Rising x) (h : StaysIn bound x w) : bound.holds w.ledger :=
  bound.of_grows ((hx 0 0 (Nat.le_refl 0)).grows w) (h 0)

/-- From `w` on, `x` does what `y` does from `w'` on. -/
theorem Halts.of_eq {y : Nat → Run σ α} {w' : World σ} (h : ∀ n, x n w = y n w')
    (hy : Halts bound y w') : Halts bound x w := by
  intro hin
  obtain ⟨n, hn⟩ := hy fun n => by
    rw [← h]
    exact hin n
  refine ⟨n, ?_⟩
  rwa [h]

/-- A run that is put together halts if its first half does, and its second half after every answer
that the first half can have. -/
theorem Halts.bind (hx : Rising x) (hf : ∀ a, Rising fun n => f n a) (h : Halts bound x w)
    (h' : ∀ n a w', x n w = (.ok a, w') → Halts bound (fun n => f n a) w') :
    Halts bound (fun n => x n >>= f n) w := by
  intro hin
  -- the first half keeps to the bound, since the second only adds to its ledger
  have hfirst : StaysIn bound x w := by
    refine fun n => bound.of_grows ?_ (hin n)
    dsimp only
    rw [bind_apply]
    rcases x n w with ⟨s | a, w'⟩
    · exact .refl _
    · exact (hf a n n (Nat.le_refl n)).grows w'
  obtain ⟨n, hn⟩ := h hfirst
  have hlast : ∀ m ≥ n, x m w = x n w := fun m hm => ((hx n m hm).same w).resolve_left hn
  rcases hw : x n w with ⟨s | a, w'⟩
  · rw [hw] at hn
    refine ⟨n, ?_⟩
    dsimp only
    rw [bind_apply, hw]
    rintro ⟨⟩
    exact hn rfl
  · have hbind : ∀ m ≥ n, (x m >>= f m) w = f m a w' := by
      intro m hm
      rw [bind_apply, hlast m hm, hw]
    have hsecond : StaysIn bound (fun n => f n a) w' := by
      refine fun m => bound.of_grows ((hf a m (max n m) (Nat.le_max_right n m)).later w') ?_
      dsimp only
      rw [← hbind _ (Nat.le_max_left n m)]
      exact hin _
    obtain ⟨m, hm⟩ := h' n a w' hw hsecond
    have hmax := ((hf a m _ (Nat.le_max_right n m)).same w').resolve_left hm
    refine ⟨max n m, ?_⟩
    dsimp only at hmax hm ⊢
    rw [hbind _ (Nat.le_max_left n m), hmax]
    exact hm

theorem Halts.attempt (h : Halts bound x w) : Halts bound (fun n => attempt (x n)) w := by
  intro hin
  obtain ⟨n, hn⟩ := h fun n => attempt_world (x n) w ▸ hin n
  refine ⟨n, ?_⟩
  dsimp only
  rw [attempt_apply]
  rcases hw : x n w with ⟨(_ | _) | a, w'⟩
  · rintro ⟨⟩
  · rw [hw] at hn
    exact absurd rfl hn
  · rintro ⟨⟩

/-- A run halts if it does with one step more. -/
theorem Halts.of_succ (h : Halts bound (fun n => x (n + 1)) w) : Halts bound x w := by
  intro hin
  obtain ⟨n, hn⟩ := h fun n => hin (n + 1)
  exact ⟨n + 1, hn⟩

theorem rising_pure (a : α) : Rising fun _ => (pure a : Run σ α) :=
  fun _ _ _ => (goingOn σ).pure a

end Run

open Run

namespace Engine

variable (e : Engine σ)

theorem rising_runPass (pass : Pass) : Rising fun n => e.runPass n pass :=
  fun _ _ h => runPass_goesOn h pass

theorem rising_runAhead (c : Context) : Rising fun n => c.runAhead (e.runPass n) :=
  fun _ _ h => c.runAhead_congr (C := (goingOn σ).congruence) (runPass_goesOn h)

theorem rising_exec (idPrefix : String) (body : RuleM σ α) (c : Context) :
    Rising fun n => body.exec idPrefix (e.runPass n) c :=
  fun _ _ h => body.exec_goesOn (runPass_goesOn h) c

theorem rising_runBody (body : RuleM σ (Option Node)) (position : Position) (r : Record) :
    Rising fun n => e.runBody (e.runPass n) body position r :=
  e.rising_exec e.options.idPrefix body _

theorem rising_runRules (pass : Nat) (site : Site) (key : Key) (rules : List RuleId) (r : Record) :
    Rising fun n => e.runRules (e.runPass n) pass site key rules r :=
  fun _ _ h => Parallel.runRules (runPass_goesOn h) pass site key rules r fun rule _ =>
    e.alike_goingOn.bodies rule

theorem rising_applyRules (pass : Nat) (site : Site) (r : Record) (component : String)
    (variant : Option String) :
    Rising fun n => e.applyRules (e.runPass n) pass site r component variant :=
  fun _ _ h => Parallel.applyRules (runPass_goesOn h) pass site
    (e.alike_goingOn.matchesAlike component variant r.part)

theorem rising_step (pass : Pass) (site : Site) : Rising fun n => e.step (e.runPass n) pass site :=
  fun _ _ h => e.alike_goingOn.parallel.step (runPass_goesOn h) pass site

end Engine

/-! ### Rules and steps -/

theorem Ledger.GrowsTo.starts {l l' : Ledger} (h : l.GrowsTo l') : l.starts <+: l'.starts := by
  obtain ⟨new, hnew⟩ := h.journal
  refine ⟨new.reverse.filterMap Event.start?, ?_⟩
  unfold Ledger.starts
  rw [← hnew, List.reverse_append, List.filterMap_append]

/-- Since `l`, some rule has started. -/
structure Ledger.StartedSince (l l' : Ledger) : Prop where
  grows : l.GrowsTo l'
  starts : l.starts.length < l'.starts.length

theorem Ledger.StartedSince.trans {l l' l'' : Ledger} (h : l.StartedSince l')
    (h' : l'.GrowsTo l'') : l.StartedSince l'' :=
  ⟨h.grows.trans h', Nat.lt_of_lt_of_le h.starts h'.starts.length_le⟩

theorem Ledger.GrowsTo.startedSince {l l' l'' : Ledger} (h : l.GrowsTo l')
    (h' : l'.StartedSince l'') : l.StartedSince l'' :=
  ⟨h.trans h'.grows, Nat.lt_of_le_of_lt h.starts.length_le h'.starts⟩

/-- Since `l`, some rule has started and some pass has begun. -/
structure Ledger.Later (l l' : Ledger) : Prop extends Ledger.StartedSince l l' where
  passes : l.passes < l'.passes

theorem World.startedSince_started {w : World σ} {l : Ledger} (h : l.GrowsTo w.ledger) (pass : Nat)
    (path : Path) (key : Key) (rule : RuleId) (position : Position) :
    l.StartedSince ((w.mark key rule).log (.started pass path key rule position)).ledger := by
  refine h.startedSince ⟨⟨List.suffix_cons .., Nat.le_refl _, List.suffix_cons ..⟩, ?_⟩
  rw [starts_log, starts_mark, List.length_append]
  exact Nat.lt_succ_self _

namespace Engine

/-- The passes for a record alone that begin later than `l` halt. -/
def AheadHalts (e : Engine σ) (bound : Ledger.Bound) (l : Ledger) : Prop :=
  ∀ number owner root (w : World σ), l.Later w.ledger →
    Halts bound (fun n => e.runPass n (.start number owner true root)) w

variable {e : Engine σ} {bound : Ledger.Bound} {l : Ledger}

theorem runAhead_halts (ha : e.AheadHalts bound l) (c : Context) {w : World σ}
    (hl : l.StartedSince w.ledger) : Halts bound (fun n => c.runAhead (e.runPass n)) w := by
  have hbegun : w.ledger.GrowsTo { w.ledger with passes := w.ledger.passes + 1 } :=
    ⟨List.suffix_rfl, Nat.le_succ _, List.suffix_rfl⟩
  refine Halts.of_eq (y := fun n => e.runPass n _ >>= fun pass => pure (c.settle pass))
    (fun n => rfl) ?_
  refine Halts.bind (e.rising_runPass _) (fun _ => rising_pure _)
    (ha w.ledger.passes _ _ { w with ledger := _ } ⟨hl.trans hbegun, ?_⟩)
    fun _ _ _ _ => .of_answer 0 (by rintro ⟨⟩)
  exact Nat.lt_succ_of_le hl.grows.passes

/-- A program halts if the passes do that it asks for. -/
theorem exec_halts (ha : e.AheadHalts bound l) (body : RuleM σ α) : ∀ (c : Context) {w : World σ},
    l.StartedSince w.ledger →
      Halts bound (fun n => body.exec e.options.idPrefix (e.runPass n) c) w := by
  induction body with
  | done a => exact fun c w _ => .of_answer 0 (by rintro ⟨⟩)
  | fail s => exact fun c w _ => .of_answer 0 (by rintro ⟨⟩)
  | look next ih => exact fun c w hl => ih c c hl
  | write x next ih => exact fun c w hl => ih _ hl
  | generateId next ih =>
    exact fun c w hl => .of_eq (fun n => rfl)
      (ih _ c (hl.trans ⟨List.suffix_rfl, Nat.le_refl _, List.suffix_cons ..⟩))
  | issue tree next ih => exact fun c w hl => .of_eq (fun n => rfl) (ih _ c (hl.trans (.refl _)))
  | runAhead next ih =>
    intro c w hl
    unfold RuleM.exec
    have hrising : Rising fun n => attempt (c.runAhead (e.runPass n)) :=
      fun n m h => (e.rising_runAhead c n m h).attempt
    refine Halts.bind hrising (fun r => ?_) (runAhead_halts ha c hl).attempt fun n r w' hw => ?_
    · cases r with
      | ok c' => exact e.rising_exec _ (next (.ok ())) c'
      | error f => exact e.rising_exec _ (next (.error f)) c
    · have hg := (hrising n n (Nat.le_refl n)).grows w
      dsimp only at hg
      rw [hw] at hg
      cases r with
      | ok c' => exact ih (.ok ()) c' (hl.trans hg)
      | error f => exact ih (.error f) c (hl.trans hg)
  | «recall» next ih => exact fun c w hl => .of_eq (fun n => rfl) (ih w.memory c hl)
  | remember memory next ih => exact fun c w hl => .of_eq (fun n => rfl) (ih c (hl.trans (.refl _)))

/-- What comes after a rule with a body: its answer replaces the record, or it has stopped the
record, or the next rule has its turn. -/
def proceed (e : Engine σ) (run : Pass → Run σ Pass) (pass : Nat) (site : Site) (key : Key)
    (rule : RuleId) (rest : List RuleId) (x : Option Node × Context) : Run σ Verdict :=
  match replacement? x.1 with
  | some tree => do
    Run.log (.replaced pass site.path key rule)
    return .replaced x.2.record tree
  | none =>
    if x.2.record.rendering.stopped then return .kept x.2.record
    else e.runRules run pass site key rest x.2.record

theorem runRules_of_body {run : Pass → Run σ Pass} {pass : Nat} {site : Site} {key : Key}
    {rule : RuleId} {rest : List RuleId} {r : Record} {body : RuleM σ (Option Node)} {w : World σ}
    (hm : (key, rule) ∉ w.ledger.marks) (hb : e.rulebook.body? rule = some body) :
    e.runRules run pass site key (rule :: rest) r w =
      (e.runBody run body site.position r >>= e.proceed run pass site key rule rest)
        ((w.mark key rule).log (.started pass site.path key rule site.position)) := by
  rw [runRules, Run.bind_apply, Run.mark_apply, if_neg hm]
  dsimp only
  rw [if_pos rfl, hb]
  dsimp only
  rw [Run.bind_apply, Run.log_apply]
  rfl

theorem rising_proceed (e : Engine σ) (pass : Nat) (site : Site) (key : Key) (rule : RuleId)
    (rest : List RuleId) (x : Option Node × Context) :
    Rising fun n => e.proceed (e.runPass n) pass site key rule rest x := by
  intro n m h
  unfold proceed
  split
  · exact ((goingOn σ).log _).bind fun _ => (goingOn σ).pure _
  · split
    · exact (goingOn σ).pure _
    · exact e.rising_runRules pass site key rest x.2.record n m h

theorem runRules_halts (ha : e.AheadHalts bound l) (pass : Nat) (site : Site) (key : Key) :
    ∀ (rules : List RuleId) (r : Record) {w : World σ}, l.GrowsTo w.ledger →
      Halts bound (fun n => e.runRules (e.runPass n) pass site key rules r) w
  | [], r, w, _ => .of_answer 0 (by rintro ⟨⟩)
  | rule :: rest, r, w, hl => by
    by_cases hm : (key, rule) ∈ w.ledger.marks
    · refine Halts.of_eq (fun n => ?_) (runRules_halts ha pass site key rest r hl)
      rw [runRules, Run.bind_apply, Run.mark_apply, if_pos hm]
      rfl
    cases hb : e.rulebook.body? rule with
    | none =>
      have hg : w.ledger.GrowsTo (w.mark key rule).ledger :=
        ⟨List.suffix_cons .., Nat.le_refl _, List.suffix_rfl⟩
      refine Halts.of_eq (fun n => ?_) (runRules_halts ha pass site key rest r (hl.trans hg))
      rw [runRules, Run.bind_apply, Run.mark_apply, if_neg hm]
      dsimp only
      rw [if_pos rfl, hb]
    | some body =>
      have hs := World.startedSince_started hl pass site.path key rule site.position
      have hrising := e.rising_runBody body site.position r
      refine Halts.of_eq (fun n => runRules_of_body hm hb) (Halts.bind hrising
        (e.rising_proceed pass site key rule rest) (exec_halts ha body _ hs) fun n x w' hw => ?_)
      have hg := (hrising n n (Nat.le_refl n)).grows
        ((w.mark key rule).log (.started pass site.path key rule site.position))
      dsimp only at hg
      rw [hw] at hg
      unfold proceed
      split
      · exact .of_answer 0 (by rintro ⟨⟩)
      · split
        · exact .of_answer 0 (by rintro ⟨⟩)
        · exact runRules_halts ha pass site key rest x.2.record (hs.grows.trans hg)

theorem applyRules_halts (ha : e.AheadHalts bound l) (pass : Nat) (site : Site) (r : Record)
    (component : String) (variant : Option String) {w : World σ} (hl : l.GrowsTo w.ledger) :
    Halts bound (fun n => e.applyRules (e.runPass n) pass site r component variant) w := by
  unfold applyRules
  split
  · exact .of_answer 0 (by rintro ⟨⟩)
  · exact runRules_halts ha pass site r.key _ r hl

/-- The pass after what the rules made of the record at a site. -/
def conclude (pass : Pass) (site : Site) (owner : Owner) : Verdict → Pass
  | .kept left => pass.keep site left owner
  | .replaced left tree => pass.replace site.count left tree owner

theorem visit_halts (pass : Pass) (site : Site) (found : Record) {w : World σ}
    (ha : e.AheadHalts bound w.ledger) :
    Halts bound (fun n => e.visit (e.runPass n) pass site found) w := by
  rcases hr : e.resolveOwner found site.owner with ⟨r, owner⟩
  cases hc : r.component with
  | none =>
    refine .of_answer 0 ?_
    rw [visit_apply hr, hc]
    rintro ⟨⟩
  | some component =>
    by_cases hg : e.options.refuses site.count.rounds = true
    · refine .of_answer 0 ?_
      rw [visit_apply hr, hc]
      simp [hg]
    by_cases hs : r.rendering.stopped = true
    · refine .of_answer 0 ?_
      rw [visit_apply hr, hc]
      simp [hg, hs]
    have hvisit : w.ledger.GrowsTo (arrive pass site r owner component w).ledger :=
      (World.Move.visit (e := e) ..).grows
    refine Halts.of_eq (y := fun n =>
      e.applyRules (e.runPass n) pass.number site.count r component owner.variant >>=
        fun verdict => pure (conclude pass site owner verdict)) (fun n => ?_)
      (Halts.bind (e.rising_applyRules _ _ _ _ _) (fun _ => rising_pure _)
        (applyRules_halts ha pass.number site.count r component owner.variant hvisit)
        fun _ _ _ _ => .of_answer 0 (by rintro ⟨⟩))
    rw [visit_apply hr, hc, Run.bind_apply]
    simp only [hg, hs, if_false, Bool.false_eq_true]
    rcases e.applyRules (e.runPass n) pass.number site.count r component owner.variant _ with
      ⟨_ | (_ | _), _⟩ <;> rfl

/-- A step halts if later passes do. -/
theorem step_halts (pass : Pass) (site : Site) {w : World σ} (ha : e.AheadHalts bound w.ledger) :
    Halts bound (fun n => e.step (e.runPass n) pass site) w := by
  unfold step
  split
  · exact .of_answer 0 (by rintro ⟨⟩)
  · exact visit_halts pass site _ ha
  · exact .of_answer 0 (by rintro ⟨⟩)

end Engine

/-! ### Passes -/

/-- The node at the place of a site; a path that leads nowhere counts as one to an absent node. -/
def Pass.nodeAt (pass : Pass) (site : Site) : Node := (pass.tree.at? site.path).getD .absent

/-- A reason for passes to end while the ledger keeps to a bound. Sites have ranks, which depend on
the nodes at them, and ledgers have a budget that is less the later they are. The sites that a deed
queues rank below the one that it is about, unless the deed has used up some of the budget. -/
structure Engine.Descent (e : Engine σ) (bound : Ledger.Bound) where
  /-- What sites are ranked by. -/
  Rank : Type
  lt : Rank → Rank → Prop
  wf : WellFounded lt
  rank : Site → Node → Rank
  budget : Ledger → Nat
  budget_le : ∀ {l l'}, bound.holds l' → l.GrowsTo l' → budget l' ≤ budget l
  budget_lt : ∀ {l l'}, bound.holds l' → l.Later l' → budget l' < budget l
  rank_lt : ∀ {fuel pass site w deed w'}, e.Does (e.runPass fuel) pass site w deed w' →
    (pass.tree.at? site.path).isSome → bound.holds w'.ledger →
      budget w'.ledger < budget w.ledger ∨ ∀ s ∈ deed.sites pass.rootOnly site,
        lt (rank s ((pass.after site deed).nodeAt s)) (rank site (pass.nodeAt site))

namespace Engine.Descent

open Engine

variable {e : Engine σ} {bound : Ledger.Bound}

/-- The ranks of the queued sites. -/
def ranks (d : e.Descent bound) (pass : Pass) : Multiset d.Rank :=
  (pass.queue : Multiset Site).map fun s => d.rank s (pass.nodeAt s)

/-- A turn takes the rank of its site away and puts lower ones in. -/
theorem cutExpand_turn (d : e.Descent bound) {pass : Pass} {site : Site} {queue : List Site}
    {deed : Deed} (hs : pass.Sound) (hq : pass.queue = site :: queue)
    (hlt : ∀ s ∈ deed.sites pass.rootOnly site,
      d.lt (d.rank s ((Pass.after { pass with queue } site deed).nodeAt s))
        (d.rank site (pass.nodeAt site))) :
    Relation.CutExpand d.lt (d.ranks (Pass.after { pass with queue } site deed))
      (d.ranks pass) := by
  refine ⟨(deed.sites pass.rootOnly site : Multiset Site).map fun s =>
    d.rank s ((Pass.after { pass with queue } site deed).nodeAt s),
    d.rank site (pass.nodeAt site), fun a ha => ?_, ?_⟩
  · obtain ⟨s, hs, rfl⟩ := Multiset.mem_map.mp ha
    exact hlt s (Multiset.mem_coe.mp hs)
  · -- the other sites keep their ranks
    have hold : (queue : Multiset Site).map (fun s =>
          d.rank s ((Pass.after { pass with queue } site deed).nodeAt s)) =
        (queue : Multiset Site).map fun s => d.rank s (pass.nodeAt s) := by
      refine Multiset.map_congr rfl fun s hsq => ?_
      unfold Pass.nodeAt
      rw [(hs.spares hq deed s (Multiset.mem_coe.mp hsq)).2]
    unfold ranks
    rw [Pass.after_queue, hq, ← Multiset.coe_add, Multiset.map_add, hold, ← Multiset.cons_coe,
      Multiset.map_cons, ← Multiset.singleton_add]
    rw [Multiset.add_comm, Multiset.add_assoc]

/-- While the ledger keeps to the bound, passes end with steps enough. -/
theorem runPass_halts (d : e.Descent bound) (pass : Pass) (w : World σ) (hs : pass.Sound) :
    Halts bound (fun n => e.runPass n pass) w := by
  induction hb : d.budget w.ledger using Nat.strong_induction_on generalizing pass w with
  | _ b later =>
  induction hr : d.ranks pass using d.wf.cutExpand.induction generalizing pass w with
  | _ ranks lower =>
  cases hq : pass.queue with
  | nil =>
    refine .of_answer 1 ?_
    rw [runPass, hq]
    rintro ⟨⟩
  | cons site queue =>
    have hturn : ∀ n, e.runPass (n + 1) pass w =
        (e.step (e.runPass n) { pass with queue } site >>= e.runPass n) w := by
      intro n
      rw [runPass, hq]
    refine Halts.of_succ (.of_eq (y := fun n =>
      e.step (e.runPass n) { pass with queue } site >>= e.runPass n) hturn ?_)
    refine Halts.bind (e.rising_step _ _) e.rising_runPass ?_ fun n next w' hstep => ?_
    · refine step_halts _ _ fun number owner root u hu hin => ?_
      have hbound := hin.start (e.rising_runPass _)
      exact later _ (hb ▸ d.budget_lt hbound hu) _ u (Pass.start_sound ..) rfl hin
    · intro hin
      have hbound := hin.start (e.rising_runPass _)
      have hgrows : w.ledger.GrowsTo w'.ledger := by
        have hm := e.step_moves (runPass_moves n) { pass with queue } site w
        rw [hstep] at hm
        exact hm.grows
      obtain ⟨deed, hd, rfl⟩ := step_does hstep
      have hnext := hs.turn hq hd
      have hle := d.budget_le hbound hgrows
      rcases d.rank_lt hd (hs.present_front hq) hbound with hlt | hlt
      · exact later _ (hb ▸ hlt) _ w' hnext rfl hin
      · rcases Nat.lt_or_eq_of_le hle with hlt' | heq
        · exact later _ (hb ▸ hlt') _ w' hnext rfl hin
        · exact lower _ (hr ▸ d.cutExpand_turn hs hq hlt) _ w' hnext (heq.trans hb) rfl hin

/-- If the ledger keeps to the bound at every number of steps, the expansion ends. -/
theorem expand_ends (d : e.Descent bound) {nextKey : Key} {memory : σ} {root : Node}
    (h : ∀ fuel, bound.holds (e.expand fuel nextKey memory root).ledger) :
    ∃ x, e.EndsWith nextKey memory root x := by
  have hhalts : Halts bound (fun n => e.expandIn n root) { nextKey, nextId := e.nextId, memory } :=
    .of_eq (y := fun n => e.runPass n (.start 0 {} false root) >>= fun pass => pure pass.tree)
      (fun n => rfl) (Halts.bind (e.rising_runPass _) (fun _ => rising_pure _)
      (d.runPass_halts _ { nextKey, nextId := e.nextId, memory, ledger := _ }
        (Pass.start_sound 0 {} false root)) fun _ _ _ _ => .of_answer 0 (by rintro ⟨⟩))
  obtain ⟨n, hn⟩ := hhalts h
  exact ⟨_, endsWith_of_answer hn⟩

end Engine.Descent

end ComponentTree

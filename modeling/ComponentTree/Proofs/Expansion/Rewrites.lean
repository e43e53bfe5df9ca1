import ComponentTree.Proofs.Expansion.Entries
import ComponentTree.Proofs.Expansion.Sizes

/-!
How often a place is rewritten.

A site counts its rounds: how often a pass has looked at the place. It is looked at again only after
a rule has replaced what was there, so as long as a site waits, its rounds are the number of
replacements that the journal holds for this place of this pass (`Pass.Tallied`). A site that is
queued anew counts from zero, and rightly so: its place lies below one that was kept, and nothing
was ever replaced below a place that is still looked at. Passes that rules ask for have numbers of
their own and do not count (`World.Enters.rewriteCount_eq`). Main statements: the rounds are right
at every turn (`Reaches.tallied`), so at a place that the guard refuses, rules have made just as
many replacements as the limit allows (`Pass.Tallied.rewriteCount_of_refuses`).
-/

namespace ComponentTree

variable {σ α : Type}

/-- Whether a rule replaced the record at a place of a pass. -/
def Event.replacesAt (number : Nat) (path : Path) : Event → Bool
  | .replaced n p _ _ => n == number && p == path
  | _ => false

/-- How often rules replaced what was at a place of a pass. -/
def rewriteCount (number : Nat) (path : Path) (journal : List Event) : Nat :=
  journal.countP (Event.replacesAt number path)

section

variable {number : Nat} {path : Path} {journal : List Event}

theorem rewriteCount_cons (event : Event) : rewriteCount number path (event :: journal) =
    rewriteCount number path journal + if event.replacesAt number path then 1 else 0 :=
  List.countP_cons

theorem rewriteCount_log (w : World σ) (event : Event) :
    rewriteCount number path (w.log event).ledger.journal =
      rewriteCount number path w.ledger.journal + if event.replacesAt number path then 1 else 0 :=
  rewriteCount_cons event

/-- Events of other passes do not count. -/
theorem rewriteCount_append_of_inPass {new : List Event} {p : Nat → Prop} (hp : ¬ p number)
    (hnew : ∀ event ∈ new, event.InPass p) :
    rewriteCount number path (new ++ journal) = rewriteCount number path journal := by
  have hnone : new.countP (Event.replacesAt number path) = 0 := by
    rw [List.countP_eq_zero]
    intro event he hr
    cases event with
    | replaced n q key rule =>
      rw [Event.replacesAt, Bool.and_eq_true, beq_iff_eq] at hr
      exact hp (hr.1 ▸ hnew _ he)
    | _ => cases hr
  rw [rewriteCount, List.countP_append, hnone, Nat.zero_add]
  rfl

/-- No pass of this number has entered anything. -/
theorem rewriteCount_eq_zero {p : Nat → Prop} (hp : ¬ p number)
    (h : ∀ event ∈ journal, event.InPass p) : rewriteCount number path journal = 0 := by
  have hnil : rewriteCount number path (journal ++ []) = rewriteCount number path [] :=
    rewriteCount_append_of_inPass hp h
  rwa [List.append_nil] at hnil

theorem World.Enters.rewriteCount_eq {w w' : World σ} {least : Nat}
    (h : w.Enters (Event.Since least) w') (hn : number < least) :
    rewriteCount number path w'.ledger.journal = rewriteCount number path w.ledger.journal := by
  obtain ⟨-, new, hnew, hin⟩ := h
  rw [hnew]
  exact rewriteCount_append_of_inPass (Nat.not_le_of_lt hn) fun event he => (hin event he).1

end

/-! ### What rules and steps rewrite -/

/-- Whether a rule replaced the record. -/
def Verdict.replaces : Verdict → Bool
  | .kept _ => false
  | .replaced .. => true

namespace Engine

variable {e : Engine σ}

theorem runBody_enters (e : Engine σ) (fuel : Nat) (body : RuleM σ (Option Node))
    (position : Position) (r : Record) (w : World σ) :
    w.Enters (Event.Since w.ledger.passes) (e.runBody (e.runPass fuel) body position r w).2 :=
  body.exec_keeps (enters_kept (fun _ => trivial) (fun c u hu => (e.runAhead_enters fuel c u).mono
    fun _ he => he.mono fun _ => Nat.le_trans hu) (Nat.le_refl _)) e.options.idPrefix _ (.refl w)

/-- Rules that come to a verdict have replaced what is at their site if this is the verdict, and
nothing else of their pass. -/
theorem Ran.rewriteCount_eq {fuel number : Nat} {site : Site} {key : Key} {rules : List RuleId}
    {r : Record} {w w' : World σ} {v : Verdict}
    (h : e.Ran (e.runPass fuel) number site key rules r w v w') (hn : number < w.ledger.passes)
    (path : Path) : rewriteCount number path w'.ledger.journal =
      rewriteCount number path w.ledger.journal +
        if v.replaces ∧ site.path = path then 1 else 0 := by
  -- a rule, from its mark to the end of its body
  have body : ∀ {rule : RuleId} {w w' : World σ} {r : Record} {b : RuleM σ (Option Node)}
      {x : Option Node × Context}, number < w.ledger.passes →
      e.runBody (e.runPass fuel) b site.position r
        ((w.mark key rule).log (.started number site.path key rule site.position)) = (.ok x, w') →
      number < w'.ledger.passes ∧
        rewriteCount number path w'.ledger.journal =
          rewriteCount number path w.ledger.journal := by
    intro rule w w' r b x hn hx
    have henters := e.runBody_enters fuel b site.position r
      ((w.mark key rule).log (.started number site.path key rule site.position))
    rw [hx] at henters
    refine ⟨Nat.lt_of_lt_of_le hn henters.passes, (henters.rewriteCount_eq hn).trans ?_⟩
    exact rewriteCount_log _ _
  induction h with
  | done => simp [Verdict.replaces]
  | marked _ _ ih => exact ih hn
  | missing _ _ _ ih => exact ih hn
  | replaced _ _ hx _ =>
    rw [rewriteCount_log, (body hn hx).2]
    simp [Verdict.replaces, Event.replacesAt]
  | stopped _ _ hx _ _ =>
    rw [(body hn hx).2]
    simp [Verdict.replaces]
  | went _ _ hx _ _ _ ih =>
    obtain ⟨hn', hcount⟩ := body hn hx
    rw [ih hn', hcount]

/-- A deed has replaced what is at its site if this is the deed, and nothing else of its pass. -/
theorem Does.rewriteCount_eq {fuel : Nat} {pass : Pass} {site : Site} {w w' : World σ} {deed : Deed}
    (h : e.Does (e.runPass fuel) pass site w deed w') (hn : pass.number < w.ledger.passes)
    (path : Path) : rewriteCount pass.number path w'.ledger.journal =
      rewriteCount pass.number path w.ledger.journal +
        if deed.replaces ∧ site.path = path then 1 else 0 := by
  have arrived : ∀ (r : Record) (owner : Owner) (component : String),
      rewriteCount pass.number path (arrive pass site r owner component w).ledger.journal =
        rewriteCount pass.number path w.ledger.journal :=
    fun _ _ _ => rewriteCount_log _ _
  have ruled : ∀ {r : Record} {owner : Owner} {component : String} {v : Verdict},
      e.applyRules (e.runPass fuel) pass.number site.count r component owner.variant
        (arrive pass site r owner component w) = (.ok v, w') →
      rewriteCount pass.number path w'.ledger.journal =
        rewriteCount pass.number path w.ledger.journal +
          if v.replaces ∧ site.path = path then 1 else 0 := by
    intro r owner component v hv
    rcases applyRules_eq_ok hv with ⟨-, rfl, rfl⟩ | ⟨s, rules, -, hran⟩
    · rw [arrived]
      simp [Verdict.replaces]
    · rw [hran.rewriteCount_eq hn, arrived]
      rfl
  cases h with
  | stopped => rw [arrived]; simp [Deed.replaces]
  | kept _ _ _ _ _ hv => exact ruled hv
  | replaced _ _ _ _ _ hv => exact ruled hv
  | _ => simp [Deed.replaces]

end Engine

/-! ### Rounds -/

/-- The rounds of every site that waits are the replacements made at its place, up to the number up
to which rounds are counted. The guard has admitted this many rounds, and below the place nothing
was replaced. -/
structure Pass.Tallied (e : Engine σ) (pass : Pass) (journal : List Event) : Prop where
  rounds : ∀ s ∈ pass.queue,
    s.rounds = min (rewriteCount pass.number s.path journal) Site.maxRounds
  admitted : ∀ s ∈ pass.queue, e.options.refuses s.rounds = false
  below : ∀ s ∈ pass.queue, ∀ path, s.path <+: path → s.path ≠ path →
    rewriteCount pass.number path journal = 0

/-- A record that was replaced has its site looked at again, with one more round. -/
theorem Deed.sites_of_replaces {rootOnly : Bool} {site s : Site} {deed : Deed}
    (hr : deed.replaces = true) (hs : s ∈ deed.sites rootOnly site) :
    ∃ owner, s = { site.count with owner } := by
  cases deed with
  | replaced found left replacement owner => exact ⟨owner, List.mem_singleton.mp hs⟩
  | _ => cases hr

theorem Engine.Does.admitted {e : Engine σ} {run : Pass → Run σ Pass} {pass : Pass} {site : Site}
    {deed : Deed} {w w' : World σ} (h : e.Does run pass site w deed w')
    (hr : deed.replaces = true) : e.options.refuses site.count.rounds = false := by
  cases h with
  | replaced _ _ _ hg => exact hg
  | _ => cases hr

/-- The guard is on, and its limit is below the number up to which rounds are counted. -/
structure Options.Guards (options : Options) : Prop where
  on : options.divergenceGuard = true
  limit_lt : options.divergenceLimit.toNat < Site.maxRounds

theorem Options.refuses_zero (options : Options) : options.refuses 0 = false := by
  simp [refuses]

namespace Pass.Tallied

variable {e : Engine σ} {pass : Pass} {site : Site} {queue : List Site} {deed : Deed}
  {fuel : Nat} {w w' : World σ}

/-- A turn keeps the rounds right. -/
theorem turn (h : pass.Tallied e w.ledger.journal) (hs : pass.Sound)
    (hn : pass.number < w.ledger.passes) (hq : pass.queue = site :: queue)
    (hd : e.Does (e.runPass fuel) { pass with queue } site w deed w') :
    (Pass.after { pass with queue } site deed).Tallied e w'.ledger.journal := by
  have hfront : site ∈ pass.queue := hq ▸ List.mem_cons_self ..
  have hcount : ∀ path, rewriteCount pass.number path w'.ledger.journal =
      rewriteCount pass.number path w.ledger.journal +
        if deed.replaces ∧ site.path = path then 1 else 0 := hd.rewriteCount_eq hn
  have helse : ∀ {path}, site.path ≠ path → rewriteCount pass.number path w'.ledger.journal =
      rewriteCount pass.number path w.ledger.journal := by
    intro path hne
    rw [hcount, if_neg fun h => hne h.2, Nat.add_zero]
  have hnumber : (Pass.after { pass with queue } site deed).number = pass.number :=
    Pass.after_number ..
  -- a site behind the one that was looked at
  have behind : ∀ {s}, s ∈ queue → s ∈ pass.queue ∧ ∀ {path}, s.path <+: path →
      rewriteCount pass.number path w'.ledger.journal =
        rewriteCount pass.number path w.ledger.journal := by
    intro s hmem
    refine ⟨hq ▸ List.mem_cons_of_mem _ hmem, fun hp => helse ?_⟩
    rintro rfl
    exact (hs.apart_front hq hmem).2 hp
  -- a site below the one that was looked at
  have deeper : ∀ {s}, deed.replaces = false → s ∈ deed.sites pass.rootOnly site →
      ∀ {path}, s.path <+: path → rewriteCount pass.number path w'.ledger.journal = 0 := by
    intro s hr hmem path hp
    have hlong := Nat.lt_of_lt_of_le (Deed.sites_deeper hr hmem) hp.length_le
    have hne : site.path ≠ path := fun heq => Nat.lt_irrefl _ (heq ▸ hlong)
    rw [helse hne]
    exact h.below site hfront path ((Deed.sites_below hmem).trans hp) hne
  refine ⟨fun s hmem => ?_, fun s hmem => ?_, fun s hmem path hp hne => ?_⟩ <;>
    rw [Pass.after_queue, List.mem_append] at hmem
  · rw [hnumber]
    rcases hmem with hmem | hmem
    · obtain ⟨hbehind, hsame⟩ := behind hmem
      rw [hsame List.prefix_rfl]
      exact h.rounds s hbehind
    · cases hr : deed.replaces with
      | false => rw [Deed.sites_rounds hr hmem, deeper hr hmem List.prefix_rfl, Nat.zero_min]
      | true =>
        obtain ⟨owner, rfl⟩ := Deed.sites_of_replaces hr hmem
        have hrounds := h.rounds site hfront
        have hmax : site.count.rounds = min (site.rounds + 1) Site.maxRounds := rfl
        rw [Site.count_path, hcount, if_pos ⟨hr, rfl⟩]
        dsimp only
        omega
  · rcases hmem with hmem | hmem
    · exact h.admitted s (behind hmem).1
    · cases hr : deed.replaces with
      | false => rw [Deed.sites_rounds hr hmem, Options.refuses_zero]
      | true =>
        obtain ⟨owner, rfl⟩ := Deed.sites_of_replaces hr hmem
        exact hd.admitted hr
  · rw [hnumber]
    rcases hmem with hmem | hmem
    · obtain ⟨hbehind, hsame⟩ := behind hmem
      rw [hsame hp]
      exact h.below s hbehind path hp hne
    · cases hr : deed.replaces with
      | false => exact deeper hr hmem hp
      | true =>
        obtain ⟨owner, rfl⟩ := Deed.sites_of_replaces hr hmem
        rw [helse hne]
        exact h.below site hfront path hp hne

/-- At a place that the guard refuses, rules have made as many replacements as the limit allows. -/
theorem rewriteCount_of_refuses (h : pass.Tallied e w.ledger.journal) (hs : site ∈ pass.queue)
    (hr : e.options.refuses site.count.rounds = true) :
    e.options.Guards ∧
      rewriteCount pass.number site.path w.ledger.journal = e.options.divergenceLimit.toNat := by
  have hrounds := h.rounds site hs
  have hadmitted := h.admitted site hs
  have hmax : site.count.rounds = min (site.rounds + 1) Site.maxRounds := rfl
  simp only [Options.refuses, Bool.and_eq_true, decide_eq_true_eq] at hr
  simp only [Options.refuses, hr.1, Bool.true_and, decide_eq_false_iff_not] at hadmitted
  exact ⟨⟨hr.1, by omega⟩, by omega⟩

end Pass.Tallied

/-- At every turn of a pass the rounds are right. -/
theorem Engine.Reaches.tallied {e : Engine σ} {limit number : Nat} {owner : Owner} {rootOnly : Bool}
    {root : Node} {pass : Pass} {w₀ w : World σ} {turns : List Turn}
    (h : e.Reaches limit (.start number owner rootOnly root) w₀ turns pass w)
    (hn : number < w₀.ledger.passes)
    (hnew : ∀ event ∈ w₀.ledger.journal, event.InPass (· < number)) :
    pass.Tallied e w.ledger.journal := by
  induction h with
  | start =>
    have hzero : ∀ path, rewriteCount number path w₀.ledger.journal = 0 :=
      fun path => rewriteCount_eq_zero (p := (· < number)) (Nat.lt_irrefl number) hnew
    refine ⟨fun s hs => ?_, fun s hs => ?_, fun s hs path _ _ => hzero path⟩ <;>
      rw [List.mem_singleton.mp hs]
    · exact (hzero _).symm ▸ rfl
    · exact Options.refuses_zero _
  | @turn turns pass w w' site queue fuel deed h hq hf hd ih =>
    have hnumber : pass.number = number := h.number_eq
    have hlt : number < w.ledger.passes := Nat.lt_of_lt_of_le hn (h.enters hn).passes
    exact ih.turn h.sound (hnumber.symm ▸ hlt) hq hd

/-! ### The guard caps rewrites -/

/-- No place was rewritten more than `n` times. -/
def Capped (n : Nat) (journal : List Event) : Prop :=
  ∀ number path, rewriteCount number path journal ≤ n

/-- No place was rewritten more than `n` times, and the place of the pass that has begun `count`
times. -/
structure World.Counting (n number : Nat) (path : Path) (count : Nat) (w : World σ) : Prop where
  numbered : w.Numbered
  capped : Capped n w.ledger.journal
  begun : number < w.ledger.passes
  count : rewriteCount number path w.ledger.journal = count

namespace World.Counting

variable {n number count : Nat} {path : Path} {w : World σ}

theorem log (h : w.Counting n number path count) {event : Event}
    (he : event.InPass (· < w.ledger.passes))
    (hr : ∀ m q, event.replacesAt m q = false) : (w.log event).Counting n number path count := by
  have hsame : ∀ m q, rewriteCount m q (w.log event).ledger.journal =
      rewriteCount m q w.ledger.journal := by
    intro m q
    rw [rewriteCount_log, hr]
    rfl
  refine ⟨List.forall_mem_cons.mpr ⟨he, h.numbered⟩, fun m q => ?_, h.begun, ?_⟩
  · rw [hsame]
    exact h.capped m q
  · rw [hsame]
    exact h.count

/-- If the cap is not reached, the place may be rewritten. -/
theorem capped_replaced (h : w.Counting n number path count) (hlt : count < n) (key : Key)
    (rule : RuleId) : Capped n (w.log (.replaced number path key rule)).ledger.journal := by
  intro m q
  rw [rewriteCount_log]
  split
  · rename_i hr
    rw [Event.replacesAt, Bool.and_eq_true, beq_iff_eq, beq_iff_eq] at hr
    rw [← hr.1, ← hr.2, h.count]
    exact hlt
  · exact h.capped m q

theorem kept {e : Engine σ} {fuel : Nat} (hahead : ∀ (c : Context) (w : World σ), w.Numbered →
      Capped n w.ledger.journal → Capped n (c.runAhead (e.runPass fuel) w).2.ledger.journal) :
    World.Kept (e.runPass fuel) (World.Counting n number path count) where
  quiet h hj hp := by
    refine ⟨fun event he => ?_, hj ▸ h.capped, hp ▸ h.begun, hj ▸ h.count⟩
    rw [hp]
    exact h.numbered event (hj ▸ he)
  identified id h := h.log trivial fun _ _ => rfl
  ahead c w h := by
    have henters := e.runAhead_enters fuel c w
    exact ⟨henters.numbered h.numbered, hahead c w h.numbered h.capped,
      Nat.lt_of_lt_of_le h.begun henters.passes,
      (henters.rewriteCount_eq h.begun).trans h.count⟩

end World.Counting

namespace Engine

variable {e : Engine σ}

/-- A site that the guard admits once more was rewritten less often than the limit allows. -/
theorem rewriteCount_lt_of_admitted (hg : e.options.Guards) {pass : Pass} {journal : List Event}
    (h : pass.Tallied e journal) {site : Site} (hs : site ∈ pass.queue)
    (hr : e.options.refuses site.count.rounds = false) :
    rewriteCount pass.number site.path journal < e.options.divergenceLimit.toNat := by
  have hrounds := h.rounds site hs
  have hmax : site.count.rounds = min (site.rounds + 1) Site.maxRounds := rfl
  have hlimit := hg.limit_lt
  simp only [Options.refuses, hg.on, Bool.true_and, decide_eq_false_iff_not] at hr
  omega

theorem step_capped (hg : e.options.Guards) {fuel : Nat}
    (hahead : ∀ (c : Context) (w : World σ), w.Numbered →
      Capped e.options.divergenceLimit.toNat w.ledger.journal →
        Capped e.options.divergenceLimit.toNat (c.runAhead (e.runPass fuel) w).2.ledger.journal)
    {pass : Pass} {site : Site} {queue : List Site} (hq : pass.queue = site :: queue)
    {w : World σ} (ht : pass.Tallied e w.ledger.journal) (hn : pass.number < w.ledger.passes)
    (hw : w.Numbered) (hcap : Capped e.options.divergenceLimit.toNat w.ledger.journal) :
    Capped e.options.divergenceLimit.toNat
      (e.step (e.runPass fuel) { pass with queue } site w).2.ledger.journal := by
  have hfront : site ∈ pass.queue := hq ▸ List.mem_cons_self ..
  exact e.step_keeps (World.Counting.kept hahead) (fun h => h.capped)
    (fun _ _ _ _ h => h.log h.begun fun _ _ => rfl) (fun _ _ h => h.log h.begun fun _ _ => rfl)
    (fun hr _ _ _ h => h.capped_replaced (rewriteCount_lt_of_admitted hg ht hfront hr) _ _)
    ⟨hw, hcap, hn, rfl⟩

/-- With the guard on and a limit that can be exceeded, a pass and the passes that it asks for
rewrite no place more often than the limit allows. -/
theorem runPass_capped (hg : e.options.Guards) (fuel number : Nat) (owner : Owner)
    (rootOnly : Bool) (root : Node) {w₀ : World σ} (hn : number < w₀.ledger.passes)
    (hnew : ∀ event ∈ w₀.ledger.journal, event.InPass (· < number))
    (hcap : Capped e.options.divergenceLimit.toNat w₀.ledger.journal) :
    Capped e.options.divergenceLimit.toNat
      (e.runPass fuel (.start number owner rootOnly root) w₀).2.ledger.journal := by
  have hahead : ∀ k < fuel, ∀ (c : Context) (w : World σ), w.Numbered →
      Capped e.options.divergenceLimit.toNat w.ledger.journal →
        Capped e.options.divergenceLimit.toNat (c.runAhead (e.runPass k) w).2.ledger.journal := by
    intro k hk c w hw hcap
    rw [Context.runAhead_world]
    refine runPass_capped hg k w.ledger.passes _ true _ ?_ hw hcap
    exact Nat.lt_succ_self w.ledger.passes
  have hnumbered : w₀.Numbered :=
    fun event he => (hnew event he).mono fun _ hlt => Nat.lt_trans hlt hn
  -- a turn of the pass, or the step that stops it
  have turn : ∀ {turns : List Turn} {pass : Pass} {w : World σ} {site : Site} {queue : List Site}
      {k : Nat}, e.Reaches fuel (.start number owner rootOnly root) w₀ turns pass w →
      Capped e.options.divergenceLimit.toNat w.ledger.journal → pass.queue = site :: queue →
      k < fuel → Capped e.options.divergenceLimit.toNat
        (e.step (e.runPass k) { pass with queue } site w).2.ledger.journal := by
    intro turns pass w site queue k hr hcap hq hk
    have henters : w₀.Enters _ w := hr.enters hn
    have hnumber : pass.number = number := hr.number_eq
    refine step_capped hg (hahead k hk) hq (hr.tallied hn hnew) ?_ (henters.numbered hnumbered)
      hcap
    rw [hnumber]
    exact Nat.lt_of_lt_of_le hn henters.passes
  have hreached : ∀ {turns : List Turn} {pass : Pass} {w : World σ},
      e.Reaches fuel (.start number owner rootOnly root) w₀ turns pass w →
      Capped e.options.divergenceLimit.toNat w.ledger.journal := by
    intro turns pass w hr
    induction hr with
    | start => exact hcap
    | turn hr hq hk hd ih =>
      have hstep := turn hr ih hq hk
      rwa [hd.step_eq] at hstep
  have hstart : e.Reaches fuel (.start number owner rootOnly root) w₀ [] _ w₀ := .start
  obtain ⟨turns, last, w, hr, hend⟩ := e.runPass_endsAt (Nat.le_refl fuel) hstart
  generalize e.runPass fuel (.start number owner rootOnly root) w₀ = result at hend
  cases hend with
  | done => exact hreached hr
  | exhausted => exact hreached hr
  | stopped hq hk hs =>
    have hstep := turn hr (hreached hr) hq hk
    rwa [hs] at hstep
termination_by fuel

end Engine

end ComponentTree

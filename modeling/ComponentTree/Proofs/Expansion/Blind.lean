import ComponentTree.Proofs.Expansion.Comparison
import ComponentTree.Proofs.Expansion.Renaming
import ComponentTree.Proofs.Script.Renaming
import Mathlib.Data.List.Nodup
import Mathlib.Data.List.Zip

/-!
Results do not depend on identities.

The rules of an engine are blind to identities if they are renamed to themselves under every
one-to-one relation between identities, with memories related accordingly (`Blind`): they may
compare identities, and cannot do anything with the numbers that stand for them. All rules that
scripts make up are blind (`blind_of_scripts`).

Main statement (`expand_renamed`): expansions of renamed trees, from any counters above the
identities in use and from renamed memories, end in the same error or in renamed trees, and the same
rules start in the same order on renamed records. If the rules use neither identifiers nor the
memory, then copies with new identities expand to the same, and so do trees whatever the engine
expanded before. A rule that writes the number of an identity somewhere tells a tree from its copies
(`expand_renamed_branding`).
-/

namespace ComponentTree

variable {σ : Type}

/-- The expansions came to the same but for identities. -/
structure Expansion.Renamed (M : Renaming σ) (x x' : Expansion σ) : Prop where
  answer : SameOutcome (Node.Renamed M.keys) x.answer x'.answer
  nextKey : Abreast M.keys x.nextKey x'.nextKey
  nextId : M.ids → x.engine.nextId = x'.engine.nextId
  memory : M.memory x.memory x'.memory
  ledger : x.ledger.Renamed M.keys x'.ledger

theorem SameOutcome.map_anonymous {ε : Type} {keys : Key → Key → Prop} {x x' : Except ε Node}
    (h : SameOutcome (Node.Renamed keys) x x') : x.map Node.anonymous = x'.map Node.anonymous := by
  cases h with
  | ok ht => exact congrArg Except.ok ht.same
  | error => rfl

/-! ### Identities to come -/

/-- Related identities, and those that two counters will give out next. -/
def WithNext (keys : Key → Key → Prop) (next next' : Key) (a a' : Key) : Prop :=
  keys a a' ∨ ∃ n, a = next + n ∧ a' = next' + n

variable {keys : Key → Key → Prop} {next next' : Key}

theorem abreast_withNext (keys : Key → Key → Prop) (next next' : Key) :
    Abreast (WithNext keys next next') next next' :=
  fun n => Or.inr ⟨n, rfl, rfl⟩

theorem rightUnique_withNext (hunique : Relator.RightUnique keys)
    (hbelow : ∀ a a', keys a a' → a < next) :
    Relator.RightUnique (WithNext keys next next') := by
  rintro a b c (hb | ⟨n, rfl, rfl⟩) (hc | ⟨m, hm, rfl⟩)
  · exact hunique hb hc
  · exact absurd (hm ▸ hbelow _ _ hb) (Nat.not_lt.mpr (Nat.le_add_right ..))
  · exact absurd (hbelow _ _ hc) (Nat.not_lt.mpr (Nat.le_add_right ..))
  · rw [Nat.add_left_cancel hm]

theorem withNext_flip {a a' : Key} (h : WithNext keys next next' a a') :
    WithNext (flip keys) next' next a' a :=
  h.imp_right fun ⟨n, ha, ha'⟩ => ⟨n, ha', ha⟩

theorem biUnique_withNext (hunique : Relator.BiUnique keys)
    (hbelow : ∀ a a', keys a a' → a < next ∧ a' < next') :
    Relator.BiUnique (WithNext keys next next') :=
  ⟨fun _ _ _ ha hb => rightUnique_withNext hunique.1.flip (fun a a' h => (hbelow a' a h).2)
      (withNext_flip ha) (withNext_flip hb),
    rightUnique_withNext hunique.2 fun a a' h => (hbelow a a' h).1⟩

theorem rightUnique_zip {l l' : List Key} (h : l.Nodup) :
    Relator.RightUnique fun a a' => (a, a') ∈ l.zip l' := by
  intro a b c hb hc
  obtain ⟨i, hi, hab⟩ := List.mem_iff_getElem.mp hb
  obtain ⟨j, hj, hac⟩ := List.mem_iff_getElem.mp hc
  rw [List.getElem_zip, Prod.mk.injEq] at hab hac
  obtain rfl := (List.Nodup.getElem_inj_iff h).mp (hab.1.trans hac.1.symm)
  exact hab.2.symm.trans hac.2

/-- Two lists of distinct identities are related one to one. -/
theorem biUnique_zip {l l' : List Key} (h : l.Nodup) (h' : l'.Nodup) :
    Relator.BiUnique fun a a' => (a, a') ∈ l.zip l' := by
  have hswap : ∀ {a a'}, (a, a') ∈ l.zip l' → (a', a) ∈ l'.zip l := fun ha => by
    rw [← List.zip_swap]
    exact List.mem_map_of_mem ha
  exact ⟨fun _ _ _ ha hb => rightUnique_zip h' (hswap ha) (hswap hb), rightUnique_zip h⟩

namespace Engine

variable {e : Engine σ}

/-- Rules that do nothing with identities but compare them: under every one-to-one relation between
identities they are renamed to themselves. What it means for memories to hold the same is said by
`keep`. -/
def Blind (e : Engine σ) (keep : (Key → Key → Prop) → σ → σ → Prop) : Prop :=
  ∀ keys, Relator.BiUnique keys → e.Respects ⟨keys, keep keys, True⟩

/-- Rules that use neither identifiers nor the memory. -/
def Forgetful (e : Engine σ) : Prop :=
  ∀ rule body, e.rulebook.body? rule = some body → body.Forgetful

/-- Expansions from counters and memories that go side by side come to the same but for
identities. -/
theorem renamed_expand {M : Renaming σ} (hunique : Relator.BiUnique M.keys) (he : e.Respects M)
    {nextId : UInt64} (hids : M.ids → e.nextId = nextId) {nextKey nextKey' : Key}
    (hnext : Abreast M.keys nextKey nextKey') {memory memory' : σ} (hm : M.memory memory memory')
    {root root' : Node} (hroot : root.Renamed M.keys root') (fuel : Nat) :
    (e.expand fuel nextKey memory root).Renamed M
      (({ e with nextId } : Engine σ).expand fuel nextKey' memory' root') := by
  have hworld : World.Renamed M { nextKey, nextId := e.nextId, memory }
      { nextKey := nextKey', nextId, memory := memory' } :=
    ⟨hnext, hids, hm, ⟨.nil, rfl, .nil⟩⟩
  obtain ⟨hanswer, hw⟩ := renamed_expandIn hunique he fuel hroot _ _ hworld
  unfold expand
  rw [expandIn_nextId e nextId]
  exact ⟨hanswer, hw.nextKey, hw.nextId, hw.memory, hw.ledger⟩

/-- Engines that earlier expansions leave, whatever they expanded and however they ended. -/
inductive After (e : Engine σ) : Engine σ → Prop
  | refl : After e e
  | expand {later : Engine σ} (h : After e later) (fuel : Nat) (nextKey : Key) (memory : σ)
      (root : Node) : After e (later.expand fuel nextKey memory root).engine

theorem After.eq_nextId {later : Engine σ} (h : e.After later) :
    ∃ nextId, later = { e with nextId } := by
  induction h with
  | refl => exact ⟨e.nextId, rfl⟩
  | expand _ fuel nextKey memory root ih =>
    obtain ⟨nextId, rfl⟩ := ih
    exact ⟨_, rfl⟩

/-- If the rules use neither identifiers nor the memory, earlier expansions and the memory have no
part in the answer. -/
theorem Blind.answer_of_forgetful {keep : (Key → Key → Prop) → σ → σ → Prop}
    (hblind : e.Blind keep) (hforget : e.Forgetful) {later : Engine σ} (hlater : e.After later)
    (hunique : Relator.BiUnique keys) {nextKey nextKey' : Key}
    (hbelow : ∀ a a', keys a a' → a < nextKey ∧ a' < nextKey') {root root' : Node}
    (hroot : root.Renamed keys root') (fuel : Nat) (memory memory' : σ) :
    (later.expand fuel nextKey' memory' root').answer.map Node.anonymous =
      (e.expand fuel nextKey memory root).answer.map Node.anonymous := by
  obtain ⟨nextId, rfl⟩ := hlater.eq_nextId
  have hunique' := biUnique_withNext hunique hbelow
  let M : Renaming σ := ⟨WithNext keys nextKey nextKey', fun _ _ => True, False⟩
  have hrespects : e.Respects M := fun rule body hbody =>
    (hblind _ hunique' rule body hbody).forget (hforget rule body hbody)
  have hm : M.memory memory memory' := trivial
  have hids : M.ids → e.nextId = nextId := False.elim
  have hexpand := renamed_expand hunique' hrespects hids
    (abreast_withNext keys nextKey nextKey') hm (hroot.mono fun _ _ => Or.inl) fuel
  exact hexpand.answer.map_anonymous.symm

/-- Identities have no part in what an expansion comes to: renamed trees are expanded alike from
any counters above the identities in use, with the same error or renamed trees, and the same rules
start in the same order. If the rules use neither identifiers nor the memory, what an engine expands
a tree to is the same whatever it expanded before, and the same for copies with new identities. -/
theorem expand_renamed {keep : (Key → Key → Prop) → σ → σ → Prop}
    (hkeep : ∀ keys keys' : Key → Key → Prop, (∀ a a', keys a a' → keys' a a') →
      ∀ m m', keep keys m m' → keep keys' m m')
    (hblind : e.Blind keep) :
    (∀ (keys : Key → Key → Prop) (nextKey nextKey' : Key) (memory memory' : σ) (root root' : Node),
      Relator.BiUnique keys → (∀ a a', keys a a' → a < nextKey ∧ a' < nextKey') →
        keep keys memory memory' → root.Renamed keys root' →
          ∃ keys', Relator.BiUnique keys' ∧ (∀ a a', keys a a' → keys' a a') ∧ ∀ fuel,
            (e.expand fuel nextKey memory root).Renamed ⟨keys', keep keys', True⟩
              (e.expand fuel nextKey' memory' root')) ∧
    (e.Forgetful → ∀ later, e.After later → ∀ (fuel : Nat) (nextKey nextKey' : Key)
      (memory memory' : σ) (root : Node), (∀ a ∈ root.keys, a < nextKey) →
        ((∀ a ∈ root.keys, a < nextKey') →
          (later.expand fuel nextKey' memory' root).answer.map Node.anonymous =
            (e.expand fuel nextKey memory root).answer.map Node.anonymous) ∧
        (root.keys.Nodup → ∀ next, (root.reissue next).2 ≤ nextKey' →
          (later.expand fuel nextKey' memory' (root.reissue next).1).answer.map Node.anonymous =
            (e.expand fuel nextKey memory root).answer.map Node.anonymous)) := by
  refine ⟨?_, ?_⟩
  · intro keys nextKey nextKey' memory memory' root root' hunique hbelow hm hroot
    have hunique' := biUnique_withNext hunique hbelow
    have hmono : ∀ a a', keys a a' → WithNext keys nextKey nextKey' a a' := fun _ _ => Or.inl
    refine ⟨WithNext keys nextKey nextKey', hunique', hmono, fun fuel => ?_⟩
    exact renamed_expand hunique' (hblind _ hunique') (fun _ => rfl)
      (abreast_withNext keys nextKey nextKey') (hkeep _ _ hmono _ _ hm) (hroot.mono hmono) fuel
  · intro hforget later hlater fuel nextKey nextKey' memory memory' root hbelow
    constructor
    · intro hbelow'
      have hunique : Relator.BiUnique fun a a' => a = a' ∧ a ∈ root.keys :=
        ⟨fun _ _ _ ha hb => ha.1.trans hb.1.symm, fun _ _ _ ha hb => ha.1.symm.trans hb.1⟩
      refine hblind.answer_of_forgetful hforget hlater hunique ?_ ⟨rfl, ?_⟩ fuel memory memory'
      · rintro a _ ⟨rfl, ha⟩
        exact ⟨hbelow a ha, hbelow' a ha⟩
      · exact List.forall₂_same.mpr fun a ha => ⟨rfl, ha⟩
    · intro hnodup first hfirst
      obtain ⟨hsame, hkeys, hnext⟩ := root.reissue_spec first
      have hcopy : (root.reissue first).1.keys.Nodup := hkeys ▸ List.nodup_range'
      have hlength : root.keys.length = (root.reissue first).1.keys.length := by
        rw [hkeys, List.length_range']
      refine hblind.answer_of_forgetful hforget hlater (biUnique_zip hnodup hcopy) ?_
        ⟨hsame.symm, List.forall₂_iff_zip.mpr ⟨hlength, fun h => h⟩⟩ fuel memory memory'
      intro a a' hzip
      obtain ⟨ha, ha'⟩ := List.of_mem_zip hzip
      rw [hkeys, List.mem_range'_1] at ha'
      exact ⟨hbelow a ha, Nat.lt_of_lt_of_le (hnext ▸ ha'.2) hfirst⟩

/-- The rules that scripts make up are blind to identities. -/
theorem blind_of_scripts {e : Engine Script.Memory}
    (h : ∀ rule body, e.rulebook.body? rule = some body → ∃ actions, body = Script.body actions) :
    e.Blind Script.Memory.Renamed := by
  intro keys _ rule body hbody
  obtain ⟨actions, rfl⟩ := h rule body hbody
  exact Script.renamed_body actions

/-- An engine with two scripts for cards. The newer one adds a mixin; the other one runs the rules
ahead and answers a frame around what they left of the content. -/
def framing : Engine Script.Memory where
  rulebook :=
    (((({} : Rulebook Script.Memory).register [⟨"card", .any, none⟩] (Script.body
      [.setTag (.lit (.string "p")), .runAhead,
        .answer (.nest 1 (.component "frame") .takeContent)])).1).register
      [⟨"card", .any, none⟩] (Script.body [.addMixin (.component "focus")])).1

theorem framing_scripts {rule : RuleId} {body : RuleM Script.Memory (Option Node)}
    (h : framing.rulebook.body? rule = some body) : ∃ actions, body = Script.body actions := by
  match rule with
  | 0 | 1 => exact ⟨_, (Option.some.inj h).symm⟩
  | _ + 2 => cases h

theorem framing_forgetful : framing.Forgetful := by
  intro rule body h
  match rule with
  | 0 =>
    obtain rfl := Option.some.inj h
    refine .write _ (.runAhead fun outcome => ?_)
    cases outcome with
    | error e => exact .fail e
    | ok => exact .look fun c => .write _ (.issue _ fun t => .done _)
  | 1 =>
    obtain rfl := Option.some.inj h
    exact .issue _ fun t => .write _ (.done _)
  | _ + 2 => cases h

end Engine

/-- A card in a card, with given identities. -/
def Node.cards (outer inner : Key) : Node :=
  .record { Record.blank with
    key := outer
    component := some "card"
    content := .list [.record { Record.blank with key := inner, component := some "card" }] }

/-- A memory that holds a plain record of a given identity. -/
def Script.Memory.keeping (key : Key) : Memory where
  saved := .ofList [("kept", .record { Record.blank with key })]

/-- Two cards whose identities are 1 and 2 become two frames whose identities are 4 and 6. They
expand alike if their identities are 9 and 5 and the counter starts higher, or if the engine has
expanded other cards before. -/
theorem Engine.expand_renamed_framing :
    framing.Blind Script.Memory.Renamed ∧ framing.Forgetful ∧
    (framing.expand 20 3 (.keeping 2) (.cards 1 2)).answer.toOption.map Node.keys = some [4, 6] ∧
    (∃ keys, Relator.BiUnique keys ∧ keys 1 9 ∧ keys 2 5 ∧ ∀ fuel,
      (framing.expand fuel 3 (.keeping 2) (.cards 1 2)).Renamed
        ⟨keys, Script.Memory.Renamed keys, True⟩
        (framing.expand fuel 20 (.keeping 5) (.cards 9 5))) ∧
    ∀ before : Expansion Script.Memory, before = framing.expand 9 13 {} (.cards 11 12) →
      (before.engine.expand 20 before.nextKey before.memory (.cards 1 2)).answer.map
          Node.anonymous =
        (framing.expand 20 3 (.keeping 2) (.cards 1 2)).answer.map Node.anonymous ∧
      (before.engine.expand 20 40 before.memory ((Node.cards 1 2).reissue 30).1).answer.map
          Node.anonymous =
        (framing.expand 20 3 (.keeping 2) (.cards 1 2)).answer.map Node.anonymous := by
  have hblind : framing.Blind Script.Memory.Renamed := blind_of_scripts fun _ _ => framing_scripts
  obtain ⟨hrenamed, hsame⟩ := expand_renamed (fun _ _ hkeys _ _ hm => hm.mono hkeys) hblind
  refine ⟨hblind, framing_forgetful, by decide +kernel, ?_, ?_⟩
  · have hbelow : ∀ a a', (a, a') ∈ [1, 2].zip [9, 5] → a < 3 ∧ a' < 20 := by
      intro a a' h
      obtain ⟨ha, ha'⟩ := List.of_mem_zip h
      simp only [List.mem_cons, List.not_mem_nil, or_false] at ha ha'
      omega
    have hmemory : Script.Memory.Renamed (fun a a' => (a, a') ∈ [1, 2].zip [9, 5])
        (.keeping 2) (.keeping 5) :=
      ⟨.cons ⟨rfl, rfl, .cons (by decide) .nil⟩ .nil, .nil⟩
    obtain ⟨keys, hunique, hkeys, hexpand⟩ := hrenamed
      (fun a a' => (a, a') ∈ [1, 2].zip [9, 5]) 3 20 (.keeping 2) (.keeping 5) (.cards 1 2)
      (.cards 9 5) (biUnique_zip (by decide) (by decide)) hbelow hmemory
      ⟨rfl, .cons (by decide) (.cons (by decide) .nil)⟩
    exact ⟨keys, hunique, hkeys 1 9 (by decide), hkeys 2 5 (by decide), hexpand⟩
  · rintro before rfl
    have hcards := hsame framing_forgetful _ (.expand .refl 9 13 {} (.cards 11 12)) 20 3
    have hbelow : ∀ a ∈ (Node.cards 1 2).keys, a < 3 := by decide
    exact ⟨(hcards _ _ _ _ hbelow).1 (by decide +kernel),
      (hcards 40 _ _ _ hbelow).2 (by decide) 30 (by decide)⟩

/-- An engine with one rule, which writes the number of a label's identity into an attribute. -/
def Engine.branding : Engine Unit where
  rulebook := (({} : Rulebook Unit).register [⟨"label", .none, none⟩]
    (.look fun c => .write (.attr "id" (.text ("#" ++ toString c.record.key))) (.done none))).1

/-- A label with a given identity. -/
def Node.label (key : Key) : Node :=
  .record { Record.blank with key, component := some "label" }

theorem Engine.branding_forgetful : branding.Forgetful := by
  intro rule body h
  match rule with
  | 0 =>
    obtain rfl := Option.some.inj h
    exact .look fun c => .write _ (.done _)
  | _ + 1 => cases h

/-- The attributes are different, and so is the markup. -/
theorem Engine.branding_tells :
    (branding.expand 3 9 () (.label 5)).answer.map Node.anonymous ≠
      (branding.expand 3 9 () (.label 1)).answer.map Node.anonymous := by
  intro h
  have hmarkup := congrArg (fun answer => answer.toOption.map Markup.render) h
  exact absurd hmarkup (by decide +kernel)

/-- Rules that are not blind can tell a tree from one that is renamed, and from a copy with new
identities. And a tree that is not a number is not equal to its copies, although no rule touches
it. -/
theorem Engine.expand_renamed_branding :
    (¬ ∀ (e : Engine Unit) (keys : Key → Key → Prop) (fuel : Nat) (nextKey nextKey' : Key)
      (root root' : Node), Relator.BiUnique keys →
        (∀ a a', keys a a' → a < nextKey ∧ a' < nextKey') → root.Renamed keys root' →
          ∃ keys' : Key → Key → Prop, Relator.BiUnique keys' ∧
            SameOutcome (Node.Renamed keys') (e.expand fuel nextKey () root).answer
              (e.expand fuel nextKey' () root').answer) ∧
    (¬ ∀ e : Engine Unit, e.Forgetful → ∀ (fuel : Nat) (nextKey next : Key) (root : Node),
      root.keys.Nodup → (∀ a ∈ root.keys, a < nextKey) → (root.reissue next).2 ≤ nextKey →
        (e.expand fuel nextKey () (root.reissue next).1).answer.map Node.anonymous =
          (e.expand fuel nextKey () root).answer.map Node.anonymous) ∧
    ¬ ∀ e : Engine Unit, e.Forgetful → ∀ (fuel : Nat) (nextKey next : Key) (root tree tree' : Node),
      e.rulebook.rules = [] → (e.expand fuel nextKey () root).answer = .ok tree →
        (e.expand fuel nextKey () (root.reissue next).1).answer = .ok tree' →
          tree'.same tree = true := by
  refine ⟨fun h => ?_, fun h => ?_, fun h => ?_⟩
  · have hunique : Relator.BiUnique fun a a' : Key => (a, a') ∈ [5].zip [1] :=
      biUnique_zip (by decide) (by decide)
    have hbelow : ∀ a a', (a, a') ∈ [5].zip [1] → a < 9 ∧ a' < 9 := by
      intro a a' ha
      cases List.mem_singleton.mp ha
      decide
    obtain ⟨keys', -, houtcome⟩ := h branding _ 3 9 9 (.label 5) (.label 1) hunique hbelow
      ⟨rfl, .cons (by decide) .nil⟩
    exact branding_tells houtcome.map_anonymous
  · exact branding_tells (h branding branding_forgetful 3 9 5 (.label 1) (by decide) (by decide)
      (by decide))
  · have hsame := h {} (fun _ _ hbody => nomatch hbody) 2 1 1 (.number .nan) (.number .nan)
      (.number .nan) rfl rfl rfl
    exact absurd hsame (by decide)

end ComponentTree

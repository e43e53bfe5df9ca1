import ComponentTree.Proofs.Expansion.ContentNotes
import ComponentTree.Proofs.Expansion.Fixpoint
import Mathlib.Logic.Basic

/-!
What is left after a record was run ahead.

The pass that runs a record ahead ends with a record of the same identity, and the rule goes on with
that one, or a rule of the pass has replaced the record. In this case the first turn of the pass has
done so, since the record is all that is queued at first, and the rule goes on with the record as it
was left in that turn (`RanAhead.xor`). Main statement (`runAhead_leaves`): either way the identity
is kept, and if nothing was replaced, the content is what the rules last made it, as told by an
engine that notes it. A rule may go on after a pass that it asked for has failed, and then with the
content from before that pass: what was set in it is lost, although it may have been set last. What
was set in a pass that has come to its end stays (`runAhead_leaves_filling`).
-/

namespace ComponentTree

variable {σ : Type}

/-- The rule goes on with the record that the pass ended with. -/
def Context.WentOn (c c' : Context) (pass : Pass) : Prop :=
  ∃ r, pass.tree = .record r ∧ r.key = c.record.key ∧ c'.record = r ∧ c'.tree = pass.tree

/-- The tree at the end of the pass took the place of the record, and the rule goes on with the
former root: the record as it was left in the first turn, which replaced it. -/
def Context.WasReplaced (c c' : Context) (pass : Pass) (turns : List Turn) : Prop :=
  (∀ r, pass.tree = .record r → r.key ≠ c.record.key) ∧ c'.tree = pass.tree ∧
    pass.formerRoot = some c'.record ∧ ∃ later replacement owner, turns = later ++
      [⟨⟨[], .listed 0 1, ⟨c.record.component, none⟩, 0⟩,
        .replaced c.record c'.record replacement owner⟩]

namespace Engine

/-- The record of the context was run ahead by a pass that came to its end by the given turns, the
latest first. -/
structure RanAhead (e : Engine σ) (fuel : Nat) (c : Context) (w : World σ) (turns : List Turn)
    (pass : Pass) (w' : World σ) : Prop where
  run : e.runPass fuel (.start w.ledger.passes ⟨c.record.component, none⟩ true (.record c.record))
    { w with ledger := { w.ledger with passes := w.ledger.passes + 1 } } = (.ok pass, w')
  reaches : e.Reaches fuel
    (.start w.ledger.passes ⟨c.record.component, none⟩ true (.record c.record))
    { w with ledger := { w.ledger with passes := w.ledger.passes + 1 } } turns pass w'

variable {e : Engine σ} {fuel : Nat} {c c' : Context} {w w' : World σ}

theorem runAhead_ranAhead (h : c.runAhead (e.runPass fuel) w = (.ok c', w')) :
    ∃ turns pass, e.RanAhead fuel c w turns pass w' ∧ pass.queue = [] ∧ c' = c.settle pass := by
  rw [Context.runAhead_apply] at h
  split at h
  · rename_i pass w₁ hp
    cases h
    obtain ⟨turns, hr, hq⟩ := runPass_reaches (Nat.le_refl fuel) .start hp
    exact ⟨turns, pass, ⟨hp, hr⟩, hq, rfl⟩
  · cases h

/-- Exactly one of the two is true of a pass that has run a record ahead. -/
theorem RanAhead.xor {turns : List Turn} {pass : Pass} (h : e.RanAhead fuel c w turns pass w')
    (hq : pass.queue = []) :
    Xor (c.WentOn (c.settle pass) pass) (c.WasReplaced (c.settle pass) pass turns) := by
  by_cases hk : ∃ r, pass.tree = .record r ∧ r.key = c.record.key
  · obtain ⟨r, ht, hk⟩ := hk
    refine Or.inl ⟨⟨r, ht, hk, ?_, ?_⟩, fun hreplaced => hreplaced.1 r ht hk⟩
    · rw [Context.settle_of_key ht hk]
    · rw [Context.settle_of_key ht hk, ht]
      exact congrArg Node.record r.snapshot_eq
  · have hne : ∀ r, pass.tree = .record r → r.key ≠ c.record.key := fun r ht hk' => hk ⟨r, ht, hk'⟩
    refine Or.inr ⟨⟨hne, ?_, ?_⟩, fun ⟨r, ht, hk', _⟩ => hne r ht hk'⟩
    · rw [Context.settle_of_ne hne]
      exact pass.tree.snapshot_eq
    · rcases h.reaches.root_first with
        rfl | ⟨-, left, ht, hk'⟩ | ⟨later, left, replacement, owner, hleft, rfl, -⟩
      · -- a pass that is done has looked at its root
        cases h.reaches
        cases hq
      · exact absurd hk' (hne left ht)
      · rw [Context.settle_of_ne hne, hleft]
        exact ⟨rfl, later, replacement, owner, rfl⟩

/-- What is left after a record was run ahead: its identity is kept, and either the pass ended with
a record of it, with which the rule goes on, or the tree at the end of the pass took its place, and
the rule goes on with the record as the first rule left it that replaced it. If nothing was
replaced, then all rules that were started ran on the one identity, and the content is what they
last made it outside of passes that failed, or the one from before. -/
theorem runAhead_leaves (h : c.runAhead (e.runPass fuel) w = (.ok c', w')) :
    c'.record.key = c.record.key ∧
      (∃ turns pass, e.RanAhead fuel c w turns pass w' ∧
        Xor (c.WentOn c' pass) (c.WasReplaced c' pass turns)) ∧
      ∃ events, w'.ledger.journal = events ++ w.ledger.journal ∧
        (Calm events → StartsOn c.record.key events ∧
          ∃ wₙ,
            c.runAhead ((e.notingContent Except.isOk).runPass fuel) w.unnoted = (.ok c', wₙ) ∧
            wₙ.forget = w' ∧
            c'.record.content = contentAfter wₙ.memory.2 c.record.content) := by
  refine ⟨runAhead_key h, ?_, ?_⟩
  · obtain ⟨turns, pass, hran, hq, rfl⟩ := runAhead_ranAhead h
    exact ⟨turns, pass, hran, hran.xor hq⟩
  · -- the same, with notes
    have hforget := e.runAhead_notingContent Except.isOk fuel c w.unnoted
    have hminds := e.runAhead_minds fuel c w.unnoted
    change c.runAhead (e.runPass fuel) w = _ at hforget
    rw [h] at hforget
    rcases hn : c.runAhead ((e.notingContent Except.isOk).runPass fuel) w.unnoted with ⟨answer, wₙ⟩
    rw [hn] at hforget hminds
    obtain ⟨ha, hw⟩ := Prod.mk.inj hforget
    dsimp only at ha hw
    subst ha hw
    obtain ⟨events, he⟩ := hminds.grows
    refine ⟨events, he.symm, fun hcalm => ⟨hminds.starts events he.symm hcalm, wₙ, rfl, rfl, ?_⟩⟩
    obtain ⟨notes, hnotes, hcontent⟩ := hminds.content events he.symm hcalm c' rfl
    rw [hnotes, Option.some.inj hcontent]
    exact congrArg (contentAfter · _) (List.append_nil notes).symm

end Engine

/-- The context of a rule that runs on a box. -/
def Context.box : Context := { record := .box, position := .listed 0 1, library := {} }

/-- An engine with two rules for boxes: the newer one gives a box a tag, and the older one puts
nothing in its place. -/
def Engine.discarding : Engine Unit :=
  ((({} : Engine Unit).register [⟨"box", .none, none⟩] (.done (some (.list [])))).1.register
    [⟨"box", .none, none⟩] (.write (.tag "p") (.done none))).1

/-- An engine with two rules for boxes: the newer one fills a box with feathers, has it run ahead
and does not mind if that fails; the older one fills it with stones and ends in the given way. -/
def Engine.filling (older : RuleM Unit (Option Node)) : Engine Unit :=
  ((({} : Engine Unit).register [⟨"box", .none, none⟩]
    (.write (.content (.text "stones")) older)).1.register [⟨"box", .none, none⟩]
    (.write (.content (.text "feathers")) (.runAhead fun _ => .done none))).1

/-- A box that is run ahead keeps its identity and the tag that it got before it was replaced. And
if nothing is replaced, a box keeps its feathers, since the stones came from a pass that failed. -/
theorem Engine.runAhead_leaves_discarded :
    let e := filling (.fail (.rule "box" "full"))
    (∃ (c' : Context) (w' : World Unit),
      Context.box.runAhead (discarding.runPass 4) { memory := () } = (.ok c', w') ∧
        c'.record.key = Record.box.key ∧ c'.record.rendering.tag = some "p" ∧
        c'.tree.isList = true ∧ ∃ turns pass, Context.box.WasReplaced c' pass turns) ∧
    ∃ (c' : Context) (w' : World Unit) (wₙ : World (Unit × List Node)),
      Context.box.runAhead (e.runPass 4) { memory := () } = (.ok c', w') ∧
        Calm w'.ledger.journal ∧ StartsOn Record.box.key w'.ledger.journal ∧
        Context.box.runAhead ((e.notingContent Except.isOk).runPass 4)
          (World.unnoted { memory := () }) = (.ok c', wₙ) ∧
        c'.record.content = contentAfter wₙ.memory.2 Record.box.content ∧
        Markup.render c'.record.content = "feathers" := by
  intro e
  constructor
  · have hleft : (Context.box.runAhead (discarding.runPass 4) { memory := () }).1.toOption.map
        (fun c' => (c'.record.rendering.tag, c'.tree.isList)) = some (some "p", true) := by
      decide +kernel
    rcases hrun : Context.box.runAhead (discarding.runPass 4) { memory := () } with
      ⟨_ | c', w'⟩ <;> rw [hrun] at hleft
    · cases hleft
    obtain ⟨htag, hlist⟩ := Prod.mk.inj (Option.some.inj hleft)
    obtain ⟨hkey, ⟨turns, pass, -, hxor⟩, -⟩ := runAhead_leaves hrun
    refine ⟨c', w', rfl, hkey, htag, hlist, turns, pass, ?_⟩
    rcases hxor with ⟨⟨r, ht, -, -, htree⟩, -⟩ | ⟨hreplaced, -⟩
    · rw [htree, ht] at hlist
      cases hlist
    · exact hreplaced
  · have hleft : (Context.box.runAhead (e.runPass 4) { memory := () }).1.toOption.map
        (fun c' => Markup.render c'.record.content) = some "feathers" := by
      decide +kernel
    have hcalm : ∀ event ∈
        (Context.box.runAhead (e.runPass 4) { memory := () }).2.ledger.journal,
        event.isReplacement = false := by
      decide +kernel
    rcases hrun : Context.box.runAhead (e.runPass 4) { memory := () } with ⟨_ | c', w'⟩ <;>
      rw [hrun] at hleft hcalm
    · cases hleft
    obtain ⟨-, -, events, hevents, hnotes⟩ := runAhead_leaves hrun
    obtain rfl : w'.ledger.journal = events := hevents.trans (List.append_nil events)
    obtain ⟨hstarts, wₙ, hnoted, -, hcontent⟩ := hnotes hcalm
    exact ⟨c', w', wₙ, rfl, hcalm, hstarts, hnoted, hcontent, Option.some.inj hleft⟩

/-- The notes that are kept tell the content of a record that was run ahead, if nothing was
replaced. -/
def NotesTell (keeps : Except Failure Unit → Bool) : Prop :=
  ∀ (e : Engine Unit) (fuel : Nat) (c c' : Context) (w : World (Unit × List Node)),
    c.runAhead ((e.notingContent keeps).runPass fuel) { memory := ((), []) } = (.ok c', w) →
      Calm w.ledger.journal → c'.record.content = contentAfter w.memory.2 c.record.content

/-- What comes of a box that is run ahead by rules that note content. -/
def Engine.runBox (keeps : Except Failure Unit → Bool) (e : Engine Unit) :
    Except Stop Context × World (Unit × List Node) :=
  Context.box.runAhead ((e.notingContent keeps).runPass 4) { memory := ((), []) }

/-- Notes do not tell the content if the latest one of a box is not what it is left with. -/
theorem not_notesTell {keeps : Except Failure Unit → Bool} (e : Engine Unit) (left : String)
    (hleft : (e.runBox keeps).1.toOption.map (fun c => Markup.render c.record.content) = some left)
    (hcalm : ∀ event ∈ (e.runBox keeps).2.ledger.journal, event.isReplacement = false)
    (hnotes : Markup.render (contentAfter (e.runBox keeps).2.memory.2 Record.box.content) ≠ left) :
    ¬ NotesTell keeps := by
  intro h
  rcases hrun : e.runBox keeps with ⟨_ | c, w⟩ <;> rw [hrun] at hleft hcalm hnotes
  · cases hleft
  · rw [← Option.some.inj hleft] at hnotes
    exact hnotes (congrArg Markup.render (h e 4 .box c w hrun hcalm)).symm

/-- The content need not be what rules set last: the stones of a pass that failed are lost. And it
need not be what the rules of the pass itself set last: the stones of a pass that one of them asked
for stay. -/
theorem Engine.runAhead_leaves_filling :
    ¬ NotesTell (fun _ => true) ∧ ¬ NotesTell (fun _ => false) := by
  constructor
  · exact not_notesTell (filling (.fail (.rule "box" "full"))) "feathers" (by decide +kernel)
      (by decide +kernel) (by decide +kernel)
  · exact not_notesTell (filling (.done none)) "stones" (by decide +kernel) (by decide +kernel)
      (by decide +kernel)

end ComponentTree

import QueueScript.Engine.Host
import QueueScript.Proofs.Discipline.Commands

/-!
# Sound commands

What the handlers of an engine may claim about themselves.  The built-in commands are sound, and so
is everything that is compiled with them.
-/

namespace QueueScript

/-! ## Handlers -/

/-- Whether a built-in command touches nothing but its queue and its entries. -/
def Behaviour.isLocal : Behaviour → Bool
  | .stub | .debug | .define | .determine | .stop | .condition | .loop => true
  | _ => false

/-- Only commands that set something going may leave their entry unfinished, and none of those may
run in a procedure. -/
def Handler.Sound (h : Handler) : Prop :=
  (h.isHoldable = true → h.behaviour.mayHold = true) ∧
    (h.isProcedural = true → h.behaviour.isLocal = true)

instance (h : Handler) : Decidable h.Sound :=
  inferInstanceAs (Decidable (_ ∧ _))

theorem Handler.stub_sound : Handler.stub.Sound := by
  decide

/-! ## Compiled commands -/

/-- The handlers of a command and of all commands in its blocks are sound. -/
inductive Compiled.Sound : Compiled → Prop where
  | mk {c : Compiled} : c.handler.Sound →
      (∀ bs, c.branches = some bs → ∀ b ∈ bs, ∀ c' ∈ b.body, Compiled.Sound c') → Compiled.Sound c

theorem Compiled.Sound.handler {c : Compiled} (h : c.Sound) : c.handler.Sound := by
  cases h with
  | mk handler _ => exact handler

theorem Compiled.Sound.enclosed {c c' : Compiled} (h : c.Sound) (hc : c.Encloses c') : c'.Sound := by
  obtain ⟨bs, hbs, b, hb, hc⟩ := hc
  cases h with
  | mk _ branches => exact branches bs hbs b hb c' hc

/-- All commands of a catalogue are sound, and marks are compiled as loops. -/
structure Catalogue.Sound (c : Catalogue) : Prop where
  handlers : ∀ p ∈ c, p.2.Sound
  loops : c.find? "repeat" = some Builtin.loop.handler

namespace Catalogue.Sound

variable {catalogue : Catalogue} (h : catalogue.Sound)

include h

theorem find? {word : String} {found : Handler} (hf : catalogue.find? word = some found) :
    found.Sound := by
  obtain ⟨p, hp, rfl⟩ := Option.map_eq_some_iff.1 hf
  exact h.handlers p (List.mem_of_find?_eq_some hp)

theorem assemble (script : Option ScriptRef) (command : String) (words before : List String)
    (blocks : List (Block Line)) (number : Int) :
    (assemble catalogue script command words before blocks number).command.handler.Sound := by
  have asked (found : Option Handler) (hf : ∀ x, found = some x → x.Sound) :
      (found.getD Handler.stub).Sound := by
    cases found with
    | none => exact Handler.stub_sound
    | some x => exact hf x rfl
  unfold QueueScript.assemble
  dsimp only
  split
  · exact Handler.stub_sound
  · exact asked _ fun x hx => h.find? hx

omit h

mutual

theorem buildLine (h : catalogue.Sound) (script : Option ScriptRef) (line : Line) :
    (buildLine catalogue script line).1.Sound := by
  match line with
  | ⟨command, args, blocks, number⟩ =>
    unfold QueueScript.buildLine
    dsimp only
    split
    · refine .mk (h.assemble script command (args ++ Line.flattenBlocks blocks) args blocks number) fun bs hbs => ?_
      cases hbs
      exact buildBlocks h script _ blocks
    · refine .mk (h.assemble script command (args ++ Line.flattenBlocks blocks) args blocks number) fun bs hbs => ?_
      cases hbs

theorem buildBlocks (h : catalogue.Sound) (script : Option ScriptRef) (first : Option (String × List String))
    (blocks : List (Block Line)) :
    ∀ b ∈ (buildBlocks catalogue script first blocks).1, ∀ c ∈ b.body, c.Sound := by
  match blocks with
  | [] =>
    unfold QueueScript.buildBlocks
    exact fun b hb => absurd hb List.not_mem_nil
  | ⟨header, lines⟩ :: rest =>
    unfold QueueScript.buildBlocks
    intro b hb
    rcases List.mem_cons.1 hb with rfl | hb
    · exact buildLines h script lines
    · exact buildBlocks h script none rest b hb

theorem buildLines (h : catalogue.Sound) (script : Option ScriptRef) (lines : List Line) :
    ∀ c ∈ (buildLines catalogue script lines).1, c.Sound := by
  match lines with
  | [] =>
    unfold QueueScript.buildLines
    exact fun c hc => absurd hc List.not_mem_nil
  | line :: rest =>
    unfold QueueScript.buildLines
    intro c hc
    rcases List.mem_cons.1 hc with rfl | hc
    · exact buildLine h script line
    · exact buildLines h script rest c hc

end

theorem buildFlat (h : catalogue.Sound) (script : Option ScriptRef) (command : String)
    (words : List String) (number : Int) :
    (buildFlat catalogue script command words number).1.Sound := by
  unfold QueueScript.buildFlat
  dsimp only
  split
  · refine .mk (h.assemble script command words _ _ number) fun bs hbs => ?_
    cases hbs
    exact h.buildBlocks script _ _
  · refine .mk (h.assemble script command words _ _ number) fun bs hbs => ?_
    cases hbs

end Catalogue.Sound

/-- What holds of all built-in handlers holds of all commands of an engine without further modules. -/
theorem Host.mem_create_catalogue {P : Handler → Prop}
    (builtin : ∀ m ∈ Builtin.modules, ∀ h ∈ m.handlers, P h) (config : Config) :
    ∀ p ∈ (Host.create config []).catalogue, P p.2 := by
  have handlers (hs : List Handler) (c : Catalogue) (hc : ∀ p ∈ c, P p.2) (hh : ∀ h ∈ hs, P h) :
      ∀ p ∈ hs.foldl Catalogue.register c, P p.2 := by
    induction hs generalizing c with
    | nil => exact hc
    | cons h rest ih =>
      refine ih _ (fun p hp => ?_) fun x hx => hh x (List.mem_cons_of_mem _ hx)
      rcases Keyed.mem_put hp with hp | rfl
      · exact hc p hp
      · exact hh h (by simp)
  have modules (ms : List CommandModule) (e : Engine) (he : ∀ p ∈ e.catalogue, P p.2)
      (hm : ∀ m ∈ ms, ∀ h ∈ m.handlers, P h) :
      ∀ p ∈ (ms.foldl Host.addModule e).catalogue, P p.2 := by
    induction ms generalizing e with
    | nil => exact he
    | cons m rest ih =>
      exact ih _ (handlers _ _ he (hm m (by simp))) fun x hx => hm x (List.mem_cons_of_mem _ hx)
  unfold Host.create
  rw [List.append_nil]
  exact modules _ _ (fun p hp => absurd hp List.not_mem_nil) builtin

/-- The built-in commands are sound. -/
theorem Host.create_catalogue_sound (config : Config) : (Host.create config []).catalogue.Sound :=
  ⟨Host.mem_create_catalogue (by decide) config, by rfl⟩

end QueueScript

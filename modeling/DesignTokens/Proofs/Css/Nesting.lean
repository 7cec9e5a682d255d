import DesignTokens.Css.Component

/-!
The shape of what lexemes are put together to. Every group is closed by its own bracket, except for
one chain of last components that the end of the text closes. Such components come back from their
own lexemes, so a component does not depend on what stands around it.
-/

namespace DesignTokens.Css

/-- A component that its own last lexeme completes, read with the bracket `around` open. -/
inductive Sealed : Option Bracket → Component → Prop where
  | token {around : Option Bracket} {lexeme : Lexeme} (plain : lexeme.token.opens = none)
      (kept : ∀ bracket, around = some bracket → lexeme.token.closes ≠ some bracket) :
      Sealed around (.token lexeme)
  | group {around : Option Bracket} {bracket : Bracket} {opener closer : Lexeme}
      {contents : List Component} (opens : opener.token.opens = some bracket)
      (inside : ∀ component ∈ contents, Sealed (some bracket) component)
      (closes : closer.token.closes = some bracket) :
      Sealed around (.group opener contents (some closer))

theorem sealed_token {around : Option Bracket} {lexeme : Lexeme} {token : Token}
    (read : lexeme.token = token) (plain : token.opens = none) (kept : token.closes = none) :
    Sealed around (.token lexeme) := by
  subst read
  exact .token plain fun bracket _ closes => Option.some_ne_none bracket (closes.symm.trans kept)

/-- Components of which only the last may still be open. -/
inductive Nested : Option Bracket → List Component → Prop where
  | complete {around : Option Bracket} {components : List Component}
      (all : ∀ component ∈ components, Sealed around component) : Nested around components
  | unclosed {around : Option Bracket} {bracket : Bracket} {opener : Lexeme}
      {before contents : List Component} (earlier : ∀ component ∈ before, Sealed around component)
      (opens : opener.token.opens = some bracket) (inside : Nested (some bracket) contents) :
      Nested around (before ++ [.group opener contents none])

def innermost (opened : List Opened) : Option Bracket :=
  opened.head?.map Opened.bracket

def OpenedSound : List Opened → Prop
  | [] => True
  | frame :: outer =>
    frame.opener.token.opens = some frame.bracket ∧
      (∀ component ∈ frame.before, Sealed (innermost outer) component) ∧ OpenedSound outer

def Nesting.Sound (nesting : Nesting) : Prop :=
  OpenedSound nesting.opened ∧
    ∀ component ∈ nesting.current, Sealed (innermost nesting.opened) component

theorem opens_of_closes {token : Token} {bracket : Bracket}
    (closes : token.closes = some bracket) : token.opens = none := by
  cases token <;> first | rfl | contradiction

theorem Nesting.sound_add {nesting : Nesting} {lexeme : Lexeme} (sound : nesting.Sound)
    (plain : lexeme.token.opens = none)
    (kept : ∀ bracket, innermost nesting.opened = some bracket →
      lexeme.token.closes ≠ some bracket) : (nesting.add lexeme).Sound := by
  refine ⟨sound.1, fun component member => ?_⟩
  rcases List.mem_cons.1 member with rfl | member
  · exact .token plain kept
  · exact sound.2 component member

theorem Nesting.sound_step {nesting : Nesting} (sound : nesting.Sound) (lexeme : Lexeme) :
    (nesting.step lexeme).Sound := by
  obtain ⟨opened, current⟩ := nesting
  unfold Nesting.step
  split
  · rename_i bracket opens
    exact ⟨⟨opens, sound.2, sound.1⟩, by simp⟩
  · rename_i plain
    cases opened with
    | nil => exact Nesting.sound_add sound plain (by simp [innermost])
    | cons frame outer =>
      dsimp only
      split
      · rename_i closes
        obtain ⟨⟨opens, before, below⟩, inside⟩ := sound
        refine ⟨below, fun component member => ?_⟩
        rcases List.mem_cons.1 member with rfl | member
        · exact .group opens (fun inner found => inside inner (List.mem_reverse.1 found)) closes
        · exact before component member
      · rename_i differs
        apply Nesting.sound_add sound plain
        intro bracket same
        cases same
        exact differs

theorem Nesting.sound_run {nesting : Nesting} (sound : nesting.Sound) (lexemes : List Lexeme) :
    (lexemes.foldl Nesting.step nesting).Sound := by
  induction lexemes generalizing nesting with
  | nil => exact sound
  | cons lexeme rest ih => exact ih (Nesting.sound_step sound lexeme)

/-- The end of the text closes the open brackets from the inside out. -/
theorem Nesting.nested_finish {opened : List Opened} {current : List Component}
    (below : OpenedSound opened) (nested : Nested (innermost opened) current.reverse) :
    Nested none (Nesting.finish ⟨opened, current⟩) := by
  induction opened generalizing current with
  | nil => exact nested
  | cons frame outer ih =>
    obtain ⟨opens, before, rest⟩ := below
    have closed : Nested (innermost outer)
        (.group frame.opener current.reverse none :: frame.before).reverse := by
      rw [List.reverse_cons]
      exact .unclosed (fun component member => before component (List.mem_reverse.1 member)) opens
        nested
    exact ih rest closed

theorem nested_nest (lexemes : List Lexeme) : Nested none (nest lexemes) := by
  have start : Nesting.Sound ⟨[], []⟩ := ⟨trivial, by simp⟩
  have sound := Nesting.sound_run start lexemes
  exact Nesting.nested_finish sound.1 (.complete fun component member =>
    sound.2 component (List.mem_reverse.1 member))

/-! The way back: such components are put together again from their lexemes. -/

theorem run_components {opened : List Opened} {components : List Component}
    (each : ∀ component ∈ components, ∀ current,
      component.lexemes.foldl Nesting.step ⟨opened, current⟩ = ⟨opened, component :: current⟩)
    (current : List Component) :
    (componentLexemes components).foldl Nesting.step ⟨opened, current⟩ =
      ⟨opened, components.reverse ++ current⟩ := by
  induction components generalizing current with
  | nil => simp [componentLexemes]
  | cons component rest ih =>
    rw [componentLexemes, List.foldl_append, each component (by simp),
      ih (fun other member => each other (by simp [member]))]
    simp

theorem Sealed.run {around : Option Bracket} {component : Component}
    (whole : Sealed around component) {opened : List Opened} (same : innermost opened = around)
    (current : List Component) :
    component.lexemes.foldl Nesting.step ⟨opened, current⟩ = ⟨opened, component :: current⟩ := by
  induction whole generalizing opened current with
  | @token around lexeme plain kept =>
    simp only [Component.lexemes, List.foldl_cons, List.foldl_nil, Nesting.step, plain]
    cases opened with
    | nil => rfl
    | cons frame outer => simp [kept frame.bracket same.symm, Nesting.add]
  | @group around bracket opener closer contents opens inside closes ih =>
    have entered : Nesting.step ⟨opened, current⟩ opener = ⟨⟨opener, bracket, current⟩ :: opened, []⟩ := by
      simp [Nesting.step, opens]
    have each : ∀ component ∈ contents, ∀ before, component.lexemes.foldl Nesting.step
        ⟨⟨opener, bracket, current⟩ :: opened, before⟩ =
          ⟨⟨opener, bracket, current⟩ :: opened, component :: before⟩ :=
      fun component member before => ih component member rfl before
    have filled := run_components each []
    simp only [Component.lexemes, Option.toList_some, List.cons_append, List.foldl_cons,
      List.foldl_append, List.foldl_nil, entered, filled]
    simp [Nesting.step, opens_of_closes closes, closes]

theorem Nested.run {around : Option Bracket} {components : List Component}
    (nested : Nested around components) {opened : List Opened} (same : innermost opened = around)
    (current : List Component) :
    Nesting.finish ((componentLexemes components).foldl Nesting.step ⟨opened, current⟩) =
      Nesting.finish ⟨opened, components.reverse ++ current⟩ := by
  induction nested generalizing opened current with
  | complete all =>
    rw [run_components fun component member current => (all component member).run same current]
  | @unclosed around bracket opener before contents earlier opens inside ih =>
    have entered (current : List Component) :
        Nesting.step ⟨opened, current⟩ opener = ⟨⟨opener, bracket, current⟩ :: opened, []⟩ := by
      simp [Nesting.step, opens]
    rw [componentLexemes_append, List.foldl_append,
      run_components fun component member current => (earlier component member).run same current]
    simp only [componentLexemes, Component.lexemes, Option.toList_none, List.append_nil,
      List.foldl_cons, entered]
    rw [ih rfl]
    simp [Nesting.finish]

theorem Nested.nest {components : List Component} (nested : Nested none components) :
    nest (componentLexemes components) = components := by
  rw [Css.nest, nested.run rfl]
  simp [Nesting.finish]

inductive Within (component : Component) : List Component → Prop where
  | here {components : List Component} (member : component ∈ components) :
      Within component components
  | inside {opener : Lexeme} {contents components : List Component} {closer : Option Lexeme}
      (member : .group opener contents closer ∈ components) (deeper : Within component contents) :
      Within component components

theorem componentLexemes_of_mem {component : Component} {components : List Component}
    (member : component ∈ components) :
    ∃ before after, componentLexemes components = before ++ component.lexemes ++ after := by
  obtain ⟨left, right, rfl⟩ := List.append_of_mem member
  exact ⟨componentLexemes left, componentLexemes right, by
    simp [componentLexemes_append, componentLexemes]⟩

theorem Within.lexemes {component : Component} {components : List Component}
    (within : Within component components) :
    ∃ before after, componentLexemes components = before ++ component.lexemes ++ after := by
  induction within with
  | here member => exact componentLexemes_of_mem member
  | @inside opener contents components closer member deeper ih =>
    obtain ⟨left, right, outer⟩ := componentLexemes_of_mem member
    obtain ⟨before, after, inner⟩ := ih
    exact ⟨left ++ opener :: before, after ++ closer.toList ++ right, by
      simp [outer, Component.lexemes, inner]⟩

theorem Within.sealed {component : Component} {components : List Component}
    (within : Within component components) {around : Option Bracket}
    (all : ∀ component ∈ components, Sealed around component) :
    ∃ around, Sealed around component := by
  induction within generalizing around with
  | here member => exact ⟨around, all component member⟩
  | inside member deeper ih =>
    cases all _ member with
    | group opens inside closes => exact ih inside

theorem Sealed.alone {around : Option Bracket} {opener : Lexeme} {contents : List Component}
    {closer : Option Lexeme} (whole : Sealed around (.group opener contents closer)) :
    Nested none [.group opener contents closer] := by
  apply Nested.complete
  intro component member
  rw [List.mem_singleton.1 member]
  cases whole with
  | group opens inside closes => exact .group opens inside closes

/-- A group is closed, or it reaches to the end. Either way it stands for itself. -/
theorem Within.group {opener : Lexeme} {contents components : List Component}
    {closer : Option Lexeme} (within : Within (.group opener contents closer) components)
    {around : Option Bracket} (nested : Nested around components) :
    Nested none [.group opener contents closer] ∧
      (closer = none → ∃ before,
        componentLexemes components =
          before ++ (Component.group opener contents closer).lexemes) := by
  have finished {around : Option Bracket}
      (whole : Sealed around (.group opener contents closer)) : closer ≠ none := by
    rintro rfl
    cases whole
  induction within generalizing around with
  | here member =>
    cases nested with
    | complete all =>
      exact ⟨(all _ member).alone, fun open_ => absurd open_ (finished (all _ member))⟩
    | @unclosed _ bracket last before inner earlier opens inside =>
      rcases List.mem_append.1 member with found | found
      · exact ⟨(earlier _ found).alone, fun open_ => absurd open_ (finished (earlier _ found))⟩
      · have same := List.mem_singleton.1 found
        rw [same]
        have alone : Nested none ([] ++ [.group last inner none]) :=
          .unclosed (by simp) opens inside
        refine ⟨alone, fun _ => ⟨componentLexemes before, ?_⟩⟩
        simp [componentLexemes_append, componentLexemes]
  | @inside last inner components ending member deeper ih =>
    have closedAbove {around : Option Bracket} (whole : Sealed around (.group last inner ending)) :
        Nested none [.group opener contents closer] ∧ closer ≠ none := by
      cases whole with
      | group opens inside closes =>
        obtain ⟨_, self⟩ := deeper.sealed inside
        exact ⟨self.alone, finished self⟩
    cases nested with
    | complete all =>
      have above := closedAbove (all _ member)
      exact ⟨above.1, fun open_ => absurd open_ above.2⟩
    | @unclosed _ bracket first before below earlier opens inside =>
      rcases List.mem_append.1 member with found | found
      · have above := closedAbove (earlier _ found)
        exact ⟨above.1, fun open_ => absurd open_ above.2⟩
      · obtain ⟨rfl, rfl, rfl⟩ := Component.group.inj (List.mem_singleton.1 found)
        obtain ⟨alone, reaches⟩ := ih inside
        refine ⟨alone, fun open_ => ?_⟩
        obtain ⟨left, equal⟩ := reaches open_
        refine ⟨componentLexemes before ++ last :: left, ?_⟩
        simp [componentLexemes_append, componentLexemes, Component.lexemes, equal]

/-- If the last component is not open, none is. -/
theorem Nested.all_sealed {around : Option Bracket} {components : List Component}
    (nested : Nested around components)
    (closed : ∀ opener contents, components.getLast? ≠ some (.group opener contents none)) :
    ∀ component ∈ components, Sealed around component := by
  cases nested with
  | complete all => exact all
  | unclosed earlier opens inside =>
    have last := closed _ _ List.getLast?_concat
    contradiction

theorem Nested.closes {around : Option Bracket} {opener closer : Lexeme} {contents : List Component}
    (nested : Nested around [.group opener contents (some closer)]) :
    ∃ bracket, closer.token.closes = some bracket := by
  generalize shape : [Component.group opener contents (some closer)] = components at nested
  cases nested with
  | complete all =>
    subst shape
    cases all _ (List.mem_singleton.2 rfl) with
    | group opens inside closes => exact ⟨_, closes⟩
  | unclosed earlier opens inside =>
    have last := congrArg List.getLast? shape
    simp at last

/-- Groups are opened by what opens something, and nothing else opens anything. -/
inductive Proper : Component → Prop where
  | token {lexeme : Lexeme} (plain : lexeme.token.opens = none) : Proper (.token lexeme)
  | group {bracket : Bracket} {opener : Lexeme} {contents : List Component}
      {closer : Option Lexeme} (opens : opener.token.opens = some bracket)
      (inside : ∀ component ∈ contents, Proper component)
      (closes : ∀ lexeme ∈ closer, lexeme.token.opens = none) :
      Proper (.group opener contents closer)

theorem Sealed.proper {around : Option Bracket} {component : Component}
    (whole : Sealed around component) : Proper component := by
  induction whole with
  | token plain => exact .token plain
  | group opens inside closes ih =>
    exact .group opens ih fun lexeme same => by
      cases same
      exact opens_of_closes closes

theorem Nested.proper {around : Option Bracket} {components : List Component}
    (nested : Nested around components) : ∀ component ∈ components, Proper component := by
  induction nested with
  | complete all => exact fun component member => (all component member).proper
  | unclosed earlier opens inside ih =>
    intro component member
    rcases List.mem_append.1 member with found | found
    · exact (earlier component found).proper
    · rw [List.mem_singleton.1 found]
      exact .group opens ih (by simp)

end DesignTokens.Css

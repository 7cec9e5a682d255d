import DesignTokens.Css.Scan

/-!
Component values: lexemes put into a tree by their brackets. A closing bracket that does not match
the innermost open one is an ordinary token, and the end of the text closes what is still open.
The components of a text hold every lexeme of it in order.
-/

namespace DesignTokens.Css

open DesignTokens.Text

inductive Component where
  | token (lexeme : Lexeme)
  | group (opener : Lexeme) (contents : List Component) (closer : Option Lexeme)

mutual

def Component.lexemes : Component → List Lexeme
  | .token lexeme => [lexeme]
  | .group opener contents closer => opener :: componentLexemes contents ++ closer.toList

def componentLexemes : List Component → List Lexeme
  | [] => []
  | component :: rest => component.lexemes ++ componentLexemes rest

end

mutual

/-- Where a component ends. Without a closing bracket it ends with its contents. -/
def Component.stop : Component → Nat
  | .token lexeme => lexeme.stop
  | .group opener contents none => stopOfContents opener.stop contents
  | .group _ _ (some closer) => closer.stop

def stopOfContents (offset : Nat) : List Component → Nat
  | [] => offset
  | [component] => component.stop
  | _ :: component :: rest => stopOfContents offset (component :: rest)

end

namespace Component

def text (component : Component) : List Char :=
  component.lexemes.flatMap Lexeme.text

def start : Component → Nat
  | .token lexeme => lexeme.start
  | .group opener _ _ => opener.start

def span (component : Component) : Span :=
  ⟨component.start, component.stop⟩

def head : Component → Token
  | .token lexeme => lexeme.token
  | .group opener _ _ => opener.token

end Component

/-- A bracket that is still open, with the components before it, the nearest first. -/
structure Opened where
  opener : Lexeme
  bracket : Bracket
  before : List Component

/-- How far a text is put together: the open brackets, innermost first, and the components inside
the innermost one, the latest first. -/
structure Nesting where
  opened : List Opened
  current : List Component

namespace Nesting

def add (nesting : Nesting) (lexeme : Lexeme) : Nesting :=
  { nesting with current := .token lexeme :: nesting.current }

def step (nesting : Nesting) (lexeme : Lexeme) : Nesting :=
  match lexeme.token.opens with
  | some bracket => ⟨⟨lexeme, bracket, nesting.current⟩ :: nesting.opened, []⟩
  | none =>
    match nesting.opened with
    | [] => nesting.add lexeme
    | innermost :: outer =>
      if lexeme.token.closes = some innermost.bracket then
        ⟨outer, .group innermost.opener nesting.current.reverse (some lexeme) :: innermost.before⟩
      else
        nesting.add lexeme

def finish (nesting : Nesting) : List Component :=
  (nesting.opened.foldl
    (fun current opened => .group opened.opener current.reverse none :: opened.before)
    nesting.current).reverse

end Nesting

def nest (lexemes : List Lexeme) : List Component :=
  (lexemes.foldl Nesting.step ⟨[], []⟩).finish

def components (text : List Char) : List Component :=
  nest (lexemes text)

theorem componentLexemes_append (left right : List Component) :
    componentLexemes (left ++ right) = componentLexemes left ++ componentLexemes right := by
  induction left with
  | nil => simp [componentLexemes]
  | cons component rest ih => simp [componentLexemes, ih]

def Nesting.lexemes (nesting : Nesting) : List Lexeme :=
  nesting.opened.foldr
    (fun opened outer => outer ++ componentLexemes opened.before.reverse ++ [opened.opener]) []
    ++ componentLexemes nesting.current.reverse

theorem Nesting.lexemes_add (nesting : Nesting) (lexeme : Lexeme) :
    (nesting.add lexeme).lexemes = nesting.lexemes ++ [lexeme] := by
  simp [Nesting.lexemes, Nesting.add, componentLexemes_append, componentLexemes,
    Component.lexemes]

theorem Nesting.lexemes_step (nesting : Nesting) (lexeme : Lexeme) :
    (nesting.step lexeme).lexemes = nesting.lexemes ++ [lexeme] := by
  unfold Nesting.step
  split
  · simp [Nesting.lexemes, componentLexemes]
  · split
    · exact nesting.lexemes_add lexeme
    · rename_i innermost outer open_
      split
      · simp [Nesting.lexemes, open_, componentLexemes_append, componentLexemes,
          Component.lexemes]
      · exact nesting.lexemes_add lexeme

theorem Nesting.lexemes_run (nesting : Nesting) (lexemes : List Lexeme) :
    (lexemes.foldl Nesting.step nesting).lexemes = nesting.lexemes ++ lexemes := by
  induction lexemes generalizing nesting with
  | nil => simp
  | cons lexeme rest ih => simp [ih, Nesting.lexemes_step]

theorem Nesting.componentLexemes_finish (nesting : Nesting) :
    componentLexemes nesting.finish = nesting.lexemes := by
  obtain ⟨opened, current⟩ := nesting
  induction opened generalizing current with
  | nil => simp [Nesting.finish, Nesting.lexemes]
  | cons innermost outer ih =>
    have closed := ih (.group innermost.opener current.reverse none :: innermost.before)
    simp only [Nesting.finish, List.foldl_cons] at closed ⊢
    rw [closed]
    simp [Nesting.lexemes, componentLexemes_append, componentLexemes, Component.lexemes]

theorem componentLexemes_nest (lexemes : List Lexeme) :
    componentLexemes (nest lexemes) = lexemes := by
  rw [nest, Nesting.componentLexemes_finish, Nesting.lexemes_run]
  simp [Nesting.lexemes, componentLexemes]

/-- No lexeme is lost, added or moved. -/
theorem componentLexemes_components (text : List Char) :
    componentLexemes (components text) = lexemes text :=
  componentLexemes_nest _

end DesignTokens.Css

import DesignTokens.Css.Character

/-!
Guards are the characters that are tokens of their own. A reader is decided by the text before a
guard if it either stops there, whatever comes after the guard and with the same value, or takes
the guard with it.
-/

namespace DesignTokens.Css

variable {α β : Type} {guard : Char}

/-- Brackets, the comma, the colon and the semicolon belong to no name, number or operator. -/
def isGuard (c : Char) : Bool :=
  [',', ':', ';', '(', ')', '[', ']', '{', '}'].contains c

theorem guard_cases (guarded : isGuard guard = true) :
    guard = ',' ∨ guard = ':' ∨ guard = ';' ∨ guard = '(' ∨ guard = ')' ∨ guard = '[' ∨
      guard = ']' ∨ guard = '{' ∨ guard = '}' := by
  simpa [isGuard] using guarded

theorem guard_not_name_char (guarded : isGuard guard = true) : isNameChar guard = false := by
  rcases guard_cases guarded with rfl | rfl | rfl | rfl | rfl | rfl | rfl | rfl | rfl <;> rfl

theorem guard_not_name_start (guarded : isGuard guard = true) : isNameStart guard = false := by
  have outside := guard_not_name_char guarded
  simp only [isNameChar, Bool.or_eq_false_iff] at outside
  exact outside.1.1

theorem guard_not_digit (guarded : isGuard guard = true) : guard.isDigit = false := by
  have outside := guard_not_name_char guarded
  simp only [isNameChar, Bool.or_eq_false_iff] at outside
  exact outside.1.2

theorem guard_not_space (guarded : isGuard guard = true) : isSpace guard = false := by
  rcases guard_cases guarded with rfl | rfl | rfl | rfl | rfl | rfl | rfl | rfl | rfl <;> rfl

theorem guard_not_newline (guarded : isGuard guard = true) : isNewline guard = false := by
  have outside := guard_not_space guarded
  simp only [isSpace, Bool.or_eq_false_iff] at outside
  exact outside.2

theorem guard_not_hex_digit (guarded : isGuard guard = true) : isHexDigit guard = false := by
  rcases guard_cases guarded with rfl | rfl | rfl | rfl | rfl | rfl | rfl | rfl | rfl <;> rfl

/-- Each character that some reader looks for by itself is not a guard. -/
theorem guard_ne {c : Char} (guarded : isGuard guard = true) (other : isGuard c = false) :
    guard ≠ c := by
  rintro rfl
  rw [guarded] at other
  contradiction

section Decisions

variable (guard)

/-- What a test of the text says does not hang on what comes after the guard. -/
def Settled (test : List Char → β) (before : List Char) : Prop :=
  ∃ value, ∀ after, test (before ++ guard :: after) = value

def Stops (reader : List Char → α × List Char) (before : List Char) : Prop :=
  ∃ value left, ∀ after, reader (before ++ guard :: after) = (value, left ++ guard :: after)

def Passes (reader : List Char → α × List Char) (before : List Char) : Prop :=
  ∀ after, (reader (before ++ guard :: after)).2 <:+ after

def Decided (reader : List Char → α × List Char) (before : List Char) : Prop :=
  Stops guard reader before ∨ Passes guard reader before

end Decisions

theorem Stops.left_length {reader : List Char → α × List Char} {before left : List Char}
    {value : α} (suffix : ∀ text, (reader text).2 <:+ text)
    (stops : ∀ after, reader (before ++ guard :: after) = (value, left ++ guard :: after)) :
    left.length ≤ before.length := by
  have shorter := (suffix (before ++ [guard])).length_le
  rw [stops []] at shorter
  simpa using shorter

theorem Decided.map {reader : List Char → α × List Char} {before : List Char} (f : α → β)
    (decided : Decided guard reader before) :
    Decided guard (fun text => (f (reader text).1, (reader text).2)) before := by
  rcases decided with ⟨value, left, stops⟩ | passes
  · exact Or.inl ⟨f value, left, fun after => by simp only [stops after]⟩
  · exact Or.inr passes

theorem Decided.andThen {first : List Char → α × List Char} {before : List Char}
    (decided : Decided guard first before) (second : α → List Char → β × List Char)
    (suffix : ∀ text, (first text).2 <:+ text)
    (following : ∀ value left, left.length ≤ before.length → Decided guard (second value) left)
    (shrinks : ∀ value text, (second value text).2 <:+ text) :
    Decided guard (fun text => second (first text).1 (first text).2) before := by
  rcases decided with ⟨value, left, stops⟩ | passes
  · rcases following value left (Stops.left_length suffix stops) with ⟨other, rest, goesOn⟩ | passes
    · exact Or.inl ⟨other, rest, fun after => by simp only [stops after, goesOn after]⟩
    · apply Or.inr
      intro after
      simp only [stops after]
      exact passes after
  · exact Or.inr fun after => (shrinks _ _).trans (passes after)

theorem Decided.ite {test : List Char → Bool} {yes no : List Char → α × List Char}
    {before : List Char} (settled : Settled guard test before)
    (left : Decided guard yes before) (right : Decided guard no before) :
    Decided guard (fun text => if test text then yes text else no text) before := by
  obtain ⟨answer, same⟩ := settled
  cases answer with
  | true =>
    rcases left with ⟨value, rest, stops⟩ | passes
    · exact Or.inl ⟨value, rest, fun after => by simp [same after, stops after]⟩
    · exact Or.inr fun after => by simpa [same after] using passes after
  | false =>
    rcases right with ⟨value, rest, stops⟩ | passes
    · exact Or.inl ⟨value, rest, fun after => by simp [same after, stops after]⟩
    · exact Or.inr fun after => by simpa [same after] using passes after

theorem Decided.congr {left right : List Char → α × List Char} {before : List Char}
    (decided : Decided guard left before)
    (same : ∀ after, right (before ++ guard :: after) = left (before ++ guard :: after)) :
    Decided guard right before := by
  rcases decided with ⟨value, rest, stops⟩ | passes
  · exact Or.inl ⟨value, rest, fun after => (same after).trans (stops after)⟩
  · exact Or.inr fun after => by simpa only [same after] using passes after

theorem Decided.after {drop : List Char → List Char} {reader : List Char → α × List Char}
    {before : List Char} (decided : Decided guard reader (drop before))
    (kept : ∀ after, drop (before ++ guard :: after) = drop before ++ guard :: after) :
    Decided guard (fun text => reader (drop text)) before := by
  rcases decided with ⟨value, rest, stops⟩ | passes
  · exact Or.inl ⟨value, rest, fun after => by simpa only [kept after] using stops after⟩
  · exact Or.inr fun after => by simpa only [kept after] using passes after

/-- Induction for readers that call themselves on some rest of the text. -/
theorem rest_induction {motive : List Char → Prop} (atEnd : motive [])
    (step : ∀ c rest, (∀ left : List Char, left.length ≤ rest.length → motive left) →
      motive (c :: rest)) (text : List Char) : motive text := by
  induction length : text.length using Nat.strongRecOn generalizing text with
  | ind count ih =>
    cases text with
    | nil => exact atEnd
    | cons c rest =>
      refine step c rest fun left bound => ih left.length ?_ left rfl
      simp only [← length, List.length_cons]
      omega

theorem decided_of_rest {reader : List Char → α × List Char} (atGuard : Decided guard reader [])
    (step : ∀ c rest, (∀ left : List Char, left.length ≤ rest.length → Decided guard reader left) →
      Decided guard (fun text => reader (c :: text)) rest)
    (before : List Char) : Decided guard reader before :=
  rest_induction atGuard step before

theorem stops_before (value : α) (kept before : List Char) :
    Decided guard (fun text => (value, kept ++ text)) before :=
  Or.inl ⟨value, kept ++ before, fun after => by simp⟩

theorem drop_decided (value : α) (count : Nat) (before : List Char) :
    Decided guard (fun text => (value, text.drop count)) before := by
  by_cases fits : count ≤ before.length
  · exact Or.inl ⟨value, before.drop count, fun after => by
      simp only [List.drop_append_of_le_length fits]⟩
  · apply Or.inr
    intro after
    obtain ⟨extra, more⟩ : ∃ extra, count - before.length = extra + 1 :=
      ⟨count - before.length - 1, by omega⟩
    have beyond : before.drop count = [] := List.drop_eq_nil_of_le (by omega)
    simp only [List.drop_append, beyond, more, List.nil_append, List.drop_succ_cons]
    exact List.drop_suffix _ _

theorem head?_settled (before : List Char) : Settled guard List.head? before := by
  cases before with
  | nil => exact ⟨some guard, fun after => rfl⟩
  | cons c rest => exact ⟨some c, fun after => rfl⟩

theorem Settled.map {test : List Char → α} {before : List Char} (f : α → β)
    (settled : Settled guard test before) : Settled guard (fun text => f (test text)) before := by
  obtain ⟨value, same⟩ := settled
  exact ⟨f value, fun after => by simp only [same after]⟩

theorem isPrefixOf_settled {word : List Char} (free : guard ∉ word) (before : List Char) :
    Settled guard word.isPrefixOf before := by
  induction word generalizing before with
  | nil => exact ⟨true, fun after => by simp⟩
  | cons c rest ih =>
    have other : c ≠ guard := fun same => free (by simp [same])
    cases before with
    | nil => exact ⟨false, fun after => by simp [List.isPrefixOf, other]⟩
    | cons d before =>
      obtain ⟨value, same⟩ := ih (fun member => free (by simp [member])) before
      exact ⟨c == d && value, fun after => by simp [List.isPrefixOf, same after]⟩

theorem takeWhile_guard {p : Char → Bool} (outside : p guard = false) (before after : List Char) :
    (before ++ guard :: after).takeWhile p = before.takeWhile p := by
  induction before with
  | nil => simp [outside]
  | cons c rest ih =>
    cases inside : p c <;> simp [inside, ih]

theorem dropWhile_guard {p : Char → Bool} (outside : p guard = false) (before after : List Char) :
    (before ++ guard :: after).dropWhile p = before.dropWhile p ++ guard :: after := by
  induction before with
  | nil => simp [outside]
  | cons c rest ih =>
    cases inside : p c <;> simp [inside, ih]

theorem take_takeWhile_guard {p : Char → Bool} (outside : p guard = false) (count : Nat)
    (before after : List Char) :
    ((before ++ guard :: after).take count).takeWhile p = (before.take count).takeWhile p := by
  induction before generalizing count with
  | nil => cases count <;> simp [outside]
  | cons c rest ih =>
    cases count with
    | zero => rfl
    | succ count => cases inside : p c <;> simp [inside, ih]

end DesignTokens.Css

import DesignTokens.Proofs.Css.LexemeRun

/-!
Function tokens. Such a token is a name and the round bracket after it, so which functions a text
calls is decided by the text up to its last round bracket.
-/

namespace DesignTokens.Css

open DesignTokens.Text

theorem name_of_callAfter {called rest : List Char} {name : String}
    (found : (callAfter called rest).1 = .function name) :
    name = String.ofList called ∧ rest = '(' :: (callAfter called rest).2 := by
  unfold callAfter at found ⊢
  split at found
  · rename_i rest
    split at found
    · rename_i address
      rw [if_pos address]
      unfold urlAfter at found ⊢
      split at found
      · rename_i quote
        rw [if_pos quote]
        exact ⟨(Token.function.inj found).symm, rfl⟩
      · dsimp only at found
        split at found <;> contradiction
    · rename_i ordinary
      rw [if_neg ordinary]
      exact ⟨(Token.function.inj found).symm, rfl⟩
  · contradiction

theorem name_of_function {c : Char} {rest : List Char} {called : String}
    (found : (scan c rest).1 = .function called) :
    startsWord c rest = true ∧ name (c :: rest) = (called.toList, '(' :: (scan c rest).2) := by
  rcases scan_mark (by rw [found]; rfl) with guarded | word
  · rw [scan_guard guarded] at found
    dsimp only at found
    unfold punctuation at found
    split at found <;> contradiction
  · have split : scan c rest = callAfter (name (c :: rest)).1 (name (c :: rest)).2 :=
      scan_word word
    rw [split] at found
    obtain ⟨same, bracket⟩ := name_of_callAfter found
    refine ⟨word, ?_⟩
    rw [same, String.toList_ofList, split, ← bracket]

theorem function_text {c : Char} {rest : List Char} {called : String}
    (found : (scan c rest).1 = .function called) :
    ∃ written, consumed (c :: rest) (scan c rest).2 = written ++ ['('] := by
  obtain ⟨written, whole⟩ := name_suffix (c :: rest)
  rw [(name_of_function found).2] at whole
  refine ⟨written, ?_⟩
  have cut := consumed_of_append (written ++ ['(']) (scan c rest).2
  rwa [List.append_assoc, List.singleton_append, whole] at cut

theorem round_guard : isGuard '(' = true := rfl

theorem startsWord_settled (c : Char) (before : List Char) :
    Settled '(' (startsWord c) before := by
  obtain ⟨number, one⟩ := startsNumber_settled round_guard (c :: before)
  obtain ⟨starts, two⟩ := startsName_settled round_guard (c :: before)
  obtain ⟨arrow, three⟩ : Settled '(' ['-', '-', '>'].isPrefixOf (c :: before) :=
    isPrefixOf_settled (by decide) (c :: before)
  refine ⟨!isSpace c && !(c = '"' || c = '\'') && c != '#' && c != '@' && !number && !arrow &&
    starts, fun after => ?_⟩
  simp only [startsWord, ← List.cons_append, one, two, three]

/-- A function is read the same whatever comes after its bracket, unless it is `url`. -/
theorem scan_function_elsewhere {c : Char} {before after : List Char} {called : String}
    (found : scan c (before ++ '(' :: after) = (.function called, after))
    (ordinary : sameIgnoringCase called "url" = false) (other : List Char) :
    scan c (before ++ '(' :: other) = (.function called, other) := by
  obtain ⟨word, named⟩ := name_of_function (congrArg Prod.fst found)
  obtain ⟨answer, same⟩ := startsWord_settled c before
  have again : startsWord c (before ++ '(' :: other) = true := by
    rw [same, ← same after, word]
  rw [found] at named
  have elsewhere : name (c :: (before ++ '(' :: other)) = (called.toList, '(' :: other) := by
    rcases name_decided round_guard (c :: before) with ⟨value, left, stops⟩ | passes
    · have here := stops after
      rw [List.cons_append, named, Prod.mk.injEq] at here
      have nothing : left = [] := by
        have length := congrArg List.length here.2
        simp at length
        exact length
      have there := stops other
      rwa [nothing, ← here.1] at there
    · have shorter := (passes after).length_le
      rw [List.cons_append, named, List.length_cons] at shorter
      exact absurd shorter (Nat.not_succ_le_self _)
  have split : scan c (before ++ '(' :: other) =
      callAfter (name (c :: (before ++ '(' :: other))).1
        (name (c :: (before ++ '(' :: other))).2 := scan_word again
  rw [split, elsewhere]
  simp [callAfter, ordinary]

/-- A function token that takes in a round bracket and none after it ends there. -/
theorem function_ends_at_round {c : Char} {before taken after : List Char} {called : String}
    (found : (scan c (before ++ '(' :: after)).1 = .function called)
    (whole : taken ++ (scan c (before ++ '(' :: after)).2 = after) (free : '(' ∉ taken) :
    scan c (before ++ '(' :: after) = (.function called, after) := by
  obtain ⟨written, text⟩ := name_suffix (c :: (before ++ '(' :: after))
  rw [(name_of_function found).2] at text
  generalize left : (scan c (before ++ '(' :: after)).2 = rest at text whole
  have same : written ++ ['('] ++ rest = c :: before ++ '(' :: taken ++ rest := by
    rw [List.append_assoc, List.singleton_append, text, ← whole]
    simp
  have nothing : taken = [] := by
    rcases List.eq_nil_or_concat taken with empty | ⟨inner, last, shape⟩
    · exact empty
    · have ends := congrArg List.getLast? (List.append_cancel_right same)
      rw [shape, List.concat_eq_append, List.getLast?_concat, ← List.cons_append,
        ← List.append_assoc, List.getLast?_concat, Option.some.injEq] at ends
      rw [shape, ← ends] at free
      simp at free
  rw [nothing, List.nil_append] at whole
  exact Prod.ext found (left.trans whole)

end DesignTokens.Css

import DesignTokens.Css.Scan
import DesignTokens.Proofs.Css.Guard

/-!
A token is decided by the text up to its end: every reader of the tokenizer is decided by the text
before a guard. So what comes after a guard can neither end a token that went on over it nor change
one that ended before it.
-/

namespace DesignTokens.Css

open DesignTokens.Text

variable {guard : Char}

def dropUnit (p : Char → Bool) : List Char → List Char
  | '\r' :: '\n' :: rest => rest
  | c :: rest => if p c then rest else c :: rest
  | [] => []

theorem dropUnit_cons (p : Char → Bool) (c : Char) (rest : List Char) :
    dropUnit p (c :: rest) =
      if c = '\r' ∧ rest.head? = some '\n' then rest.tail
      else if p c then rest else c :: rest := by
  by_cases pair : c = '\r' ∧ rest.head? = some '\n'
  · obtain ⟨rfl, first⟩ := pair
    obtain ⟨tail, rfl⟩ := List.head?_eq_some_iff.1 first
    rfl
  · rw [if_neg pair, dropUnit.eq_2]
    rintro tail rfl rfl
    exact pair ⟨rfl, rfl⟩

theorem name_cons (c : Char) (rest : List Char) :
    name (c :: rest) =
      if c = '\\' then
        if startsWithNewline rest then ([], c :: rest)
        else ((escape rest).1 :: (name (escape rest).2).1, (name (escape rest).2).2)
      else if isNameChar c then (readable c :: (name rest).1, (name rest).2)
      else ([], c :: rest) := by
  rw [name]

theorem startsName_cons (c : Char) (rest : List Char) :
    startsName (c :: rest) =
      if c = '\\' then !startsWithNewline rest
      else if c = '-' then rest.head?.any fun d => isNameStart d || d = '-' || d = '\\'
      else isNameStart c := by
  by_cases slash : c = '\\'
  · subst slash
    rfl
  by_cases hyphen : c = '-'
  · subst hyphen
    cases rest <;> rfl
  · rw [if_neg slash, if_neg hyphen, startsName.eq_3]
    · rintro d tail rfl
      exact absurd rfl hyphen
    · rintro rfl
      exact slash rfl

theorem startsDigits_cons (c : Char) (rest : List Char) :
    startsDigits (c :: rest) = if c = '.' then rest.head?.any Char.isDigit else c.isDigit := by
  by_cases point : c = '.'
  · subst point
    cases rest <;> rfl
  · rw [if_neg point, startsDigits.eq_2]
    rintro d tail rfl
    exact absurd rfl point

theorem quoted_cons (quote c : Char) (rest : List Char) :
    quoted quote (c :: rest) =
      if c = quote then (some [], rest)
      else if isNewline c then (none, c :: rest)
      else if c = '\\' then
        if rest.isEmpty then (some [], [])
        else if startsWithNewline rest then quoted quote (dropNewline rest)
        else ((quoted quote (escape rest).2).1.map ((escape rest).1 :: ·),
          (quoted quote (escape rest).2).2)
      else ((quoted quote rest).1.map (readable c :: ·), (quoted quote rest).2) := by
  rw [quoted.eq_def]
  cases rest <;> rfl

theorem urlRemnants_cons (c : Char) (rest : List Char) :
    urlRemnants (c :: rest) =
      if c = ')' then rest
      else if c = '\\' ∧ (rest.head? = some ')' ∨ rest.head? = some '\\') then
        urlRemnants rest.tail
      else urlRemnants rest := by
  by_cases closes : c = ')'
  · subst closes
    rfl
  rw [if_neg closes]
  by_cases escapes : c = '\\' ∧ (rest.head? = some ')' ∨ rest.head? = some '\\')
  · rw [if_pos escapes]
    obtain ⟨rfl, first | first⟩ := escapes
    · obtain ⟨tail, rfl⟩ := List.head?_eq_some_iff.1 first
      rfl
    · obtain ⟨tail, rfl⟩ := List.head?_eq_some_iff.1 first
      rfl
  · rw [if_neg escapes, urlRemnants.eq_5]
    · rintro rfl
      exact closes rfl
    · rintro tail rfl rfl
      exact escapes ⟨rfl, Or.inl rfl⟩
    · rintro tail rfl rfl
      exact escapes ⟨rfl, Or.inr rfl⟩

theorem urlRemnants_cons_suffix (c : Char) (rest : List Char) : urlRemnants (c :: rest) <:+ rest := by
  rw [urlRemnants_cons]
  split
  · exact List.suffix_refl _
  · split
    · exact (urlRemnants_suffix _).trans (List.tail_suffix _)
    · exact urlRemnants_suffix _

theorem unquoted_cons (c : Char) (rest : List Char) :
    unquoted (c :: rest) =
      if isSpace c then urlEnd (c :: rest)
      else if c = ')' then (some [], rest)
      else if isNonPrintable c || c = '"' || c = '\'' || c = '(' then (none, urlRemnants rest)
      else if c = '\\' then
        if startsWithNewline rest then (none, urlRemnants rest)
        else ((unquoted (escape rest).2).1.map ((escape rest).1 :: ·),
          (unquoted (escape rest).2).2)
      else ((unquoted rest).1.map (readable c :: ·), (unquoted rest).2) := by
  rw [unquoted]

theorem afterComment_cons (c : Char) (rest : List Char) :
    afterComment (c :: rest) =
      if c = '*' ∧ rest.head? = some '/' then rest.tail else afterComment rest := by
  by_cases closes : c = '*' ∧ rest.head? = some '/'
  · obtain ⟨rfl, first⟩ := closes
    obtain ⟨tail, rfl⟩ := List.head?_eq_some_iff.1 first
    rfl
  · rw [if_neg closes, afterComment.eq_3]
    rintro tail rfl rfl
    exact closes ⟨rfl, rfl⟩

def urlToken : Option (List Char) → Token
  | some address => .url (String.ofList address)
  | none => .unclassified

theorem urlAfter_eq (called : String) (text : List Char) :
    urlAfter called text =
      if startsWithQuote (text.dropWhile isSpace) then (.function called, text)
      else (urlToken (unquoted (text.dropWhile isSpace)).1,
        (unquoted (text.dropWhile isSpace)).2) := by
  unfold urlAfter
  split
  · rfl
  · obtain ⟨value, rest⟩ := unquoted (text.dropWhile isSpace)
    cases value <;> rfl

def callAfter (called : List Char) : List Char → Token × List Char
  | '(' :: rest =>
    if sameIgnoringCase (String.ofList called) "url" then urlAfter (String.ofList called) rest
    else (.function (String.ofList called), rest)
  | rest => (.ident (String.ofList called), rest)

theorem callAfter_cons (called : List Char) (c : Char) (rest : List Char) :
    callAfter called (c :: rest) =
      if c = '(' then
        if sameIgnoringCase (String.ofList called) "url" then urlAfter (String.ofList called) rest
        else (.function (String.ofList called), rest)
      else (.ident (String.ofList called), c :: rest) := by
  by_cases round : c = '('
  · subst round
    rfl
  · rw [if_neg round]
    unfold callAfter
    split
    · rename_i equal
      exact absurd (List.cons.inj equal).1 round
    · rfl

theorem callAfter_suffix (called text : List Char) : (callAfter called text).2 <:+ text := by
  unfold callAfter
  split
  · split
    · exact (urlAfter_suffix _ _).trans (List.suffix_cons _ _)
    · exact List.suffix_cons _ _
  · exact List.suffix_refl _

def unitAfter (number : Number.Numeral) : List Char → Token × List Char
  | '%' :: rest => (.percentage number, rest)
  | rest =>
    if startsName rest then (.dimension number (String.ofList (name rest).1), (name rest).2)
    else (.number number, rest)

theorem unitAfter_cons (number : Number.Numeral) {c : Char} (other : c ≠ '%') (rest : List Char) :
    unitAfter number (c :: rest) =
      if startsName (c :: rest) then
        (.dimension number (String.ofList (name (c :: rest)).1), (name (c :: rest)).2)
      else (.number number, c :: rest) := by
  unfold unitAfter
  split
  · rename_i equal
    exact absurd (List.cons.inj equal).1 other
  · rfl

theorem unitAfter_suffix (number : Number.Numeral) (text : List Char) :
    (unitAfter number text).2 <:+ text := by
  unfold unitAfter
  split
  · exact List.suffix_cons _ _
  · split
    · exact name_suffix _
    · exact List.suffix_refl _

def quotedBody : Option (List Char) → Token
  | some value => .quoted (String.ofList value)
  | none => .unclassified

theorem quotedToken_eq (quote : Char) (text : List Char) :
    quotedToken quote text = (quotedBody (quoted quote text).1, (quoted quote text).2) := by
  unfold quotedToken
  obtain ⟨value, rest⟩ := quoted quote text
  cases value <;> rfl

theorem hashToken_eq (text : List Char) :
    hashToken text =
      if startsName text || text.head?.any fun c => c.isDigit || c = '-' then
        (.hash (String.ofList (name text).1), (name text).2)
      else (.delimiter '#', text) := by
  cases text with
  | nil => rfl
  | cons c rest =>
    unfold hashToken
    simp only [List.head?_cons, Option.any_some, Bool.or_assoc]
    rfl

theorem symbol_eq (c : Char) (rest : List Char) :
    symbol c rest =
      if c = '/' && rest.head? = some '*' then (.comment, afterComment (rest.drop 1))
      else if c = '<' && ['!', '-', '-'].isPrefixOf rest then (.unclassified, rest.drop 3)
      else if rest.head? = some '=' && startsMatch c then (.unclassified, rest.drop 1)
      else (punctuation c, rest) := by
  unfold symbol
  split
  · simp
  · simp [List.isPrefixOf]
  · simp [List.isPrefixOf]
  · rename_i noMatch noComment noOpening
    have first : ¬ (c = '/' ∧ rest.head? = some '*') := fun both => by
      obtain ⟨tail, rfl⟩ := List.head?_eq_some_iff.1 both.2
      exact noComment tail both.1 rfl
    have second : ¬ (c = '<' ∧ ['!', '-', '-'] <+: rest) := fun both => by
      obtain ⟨tail, rfl⟩ := both.2
      exact noOpening tail both.1 rfl
    have third : rest.head? ≠ some '=' := fun equals => by
      obtain ⟨tail, rfl⟩ := List.head?_eq_some_iff.1 equals
      exact noMatch tail rfl
    simp [if_neg first, if_neg second, third]

section Readers

variable (guarded : isGuard guard = true)
include guarded

theorem not_startsName_guard (after : List Char) : startsName (guard :: after) = false := by
  have hyphen : guard ≠ '-' := guard_ne guarded rfl
  have slash : guard ≠ '\\' := guard_ne guarded rfl
  rw [startsName_cons, if_neg slash, if_neg hyphen, guard_not_name_start guarded]

theorem startsWithNewline_settled (before : List Char) :
    Settled guard startsWithNewline before := by
  cases before with
  | nil => exact ⟨false, fun after => guard_not_newline guarded⟩
  | cons c rest => exact ⟨isNewline c, fun after => rfl⟩

theorem dropUnit_guard {p : Char → Bool} (outside : p guard = false) (before after : List Char) :
    dropUnit p (before ++ guard :: after) = dropUnit p before ++ guard :: after := by
  have notReturn : guard ≠ '\r' := guard_ne guarded rfl
  have notFeed : guard ≠ '\n' := guard_ne guarded rfl
  match before with
  | [] =>
    rw [List.nil_append, dropUnit_cons, if_neg (fun both => notReturn both.1), outside]
    rfl
  | [c] =>
    simp only [List.cons_append, List.nil_append, dropUnit_cons, List.head?_cons,
      Option.some.injEq, notFeed, and_false, if_false, List.head?_nil, reduceCtorEq]
    cases p c <;> rfl
  | c :: d :: rest =>
    by_cases pair : c = '\r' ∧ d = '\n'
    · obtain ⟨rfl, rfl⟩ := pair
      rfl
    · simp only [List.cons_append, dropUnit_cons, List.head?_cons, Option.some.injEq, if_neg pair]
      cases p c <;> rfl

theorem dropNewline_guard (before after : List Char) :
    dropNewline (before ++ guard :: after) = dropNewline before ++ guard :: after :=
  dropUnit_guard guarded (guard_not_newline guarded) before after

theorem dropOneSpace_guard (before after : List Char) :
    dropOneSpace (before ++ guard :: after) = dropOneSpace before ++ guard :: after :=
  dropUnit_guard guarded (guard_not_space guarded) before after

theorem escape_decided (before : List Char) : Decided guard escape before := by
  cases before with
  | nil =>
    apply Or.inr
    intro after
    simp [escape, guard_not_hex_digit guarded]
  | cons c rest =>
    by_cases digit : isHexDigit c = true
    · have same := take_takeWhile_guard (guard_not_hex_digit guarded) 6 (c :: rest)
      generalize read : ((c :: rest).take 6).takeWhile isHexDigit = digits at same
      have fits : digits.length ≤ (c :: rest).length := by
        rw [← read]
        exact ((List.takeWhile_sublist _).trans (List.take_sublist _ _)).length_le
      refine Or.inl ⟨escapedCharacter (readHex digits),
        dropOneSpace ((c :: rest).drop digits.length), fun after => ?_⟩
      have kept : (c :: (rest ++ guard :: after)).drop digits.length =
          (c :: rest).drop digits.length ++ guard :: after :=
        List.drop_append_of_le_length fits
      rw [List.cons_append, escape, if_pos digit]
      simp only [show ((c :: (rest ++ guard :: after)).take 6).takeWhile isHexDigit = digits
        from same after, kept, dropOneSpace_guard guarded]
    · refine Or.inl ⟨readable c, rest, fun after => ?_⟩
      rw [List.cons_append, escape, if_neg digit]

theorem name_decided (before : List Char) : Decided guard name before := by
  refine decided_of_rest ?_ ?_ before
  · refine Or.inl ⟨[], [], fun after => ?_⟩
    have slash : guard ≠ '\\' := guard_ne guarded rfl
    rw [List.nil_append, name_cons, if_neg slash, guard_not_name_char guarded]
    rfl
  · intro c rest shorter
    simp only [name_cons]
    by_cases slash : c = '\\'
    · simp only [slash, if_true]
      refine Decided.ite (startsWithNewline_settled guarded rest) (stops_before [] ['\\'] rest) ?_
      exact (escape_decided guarded rest).andThen
        (fun value text => (value :: (name text).1, (name text).2)) escape_suffix
        (fun value left bound => (shorter left bound).map (value :: ·))
        (fun value text => name_suffix text)
    · simp only [if_neg slash]
      by_cases allowed : isNameChar c = true
      · simp only [if_pos allowed]
        exact (shorter rest (Nat.le_refl _)).map (readable c :: ·)
      · simp only [if_neg allowed]
        exact stops_before [] [c] rest

theorem startsName_settled (before : List Char) : Settled guard startsName before := by
  cases before with
  | nil => exact ⟨false, not_startsName_guard guarded⟩
  | cons c rest =>
    show Settled guard (fun text => startsName (c :: text)) rest
    simp only [startsName_cons]
    by_cases slash : c = '\\'
    · simp only [if_pos slash]
      exact (startsWithNewline_settled guarded rest).map not
    simp only [if_neg slash]
    by_cases hyphen : c = '-'
    · simp only [if_pos hyphen]
      exact (head?_settled rest).map _
    · simp only [if_neg hyphen]
      exact ⟨isNameStart c, fun after => rfl⟩

theorem startsDigits_settled (before : List Char) : Settled guard startsDigits before := by
  cases before with
  | nil =>
    refine ⟨false, fun after => ?_⟩
    have point : guard ≠ '.' := guard_ne guarded rfl
    rw [List.nil_append, startsDigits_cons, if_neg point, guard_not_digit guarded]
  | cons c rest =>
    show Settled guard (fun text => startsDigits (c :: text)) rest
    simp only [startsDigits_cons]
    by_cases point : c = '.'
    · simp only [if_pos point]
      exact (head?_settled rest).map _
    · simp only [if_neg point]
      exact ⟨c.isDigit, fun after => rfl⟩

theorem startsNumber_settled (before : List Char) : Settled guard startsNumber before := by
  have plus : guard ≠ '+' := guard_ne guarded rfl
  have minus : guard ≠ '-' := guard_ne guarded rfl
  match before with
  | [] =>
    obtain ⟨value, same⟩ := startsDigits_settled guarded []
    exact ⟨value, fun after => by simpa [startsNumber, plus, minus] using same after⟩
  | c :: rest =>
    by_cases signed : c = '+' ∨ c = '-'
    · obtain ⟨value, same⟩ := startsDigits_settled guarded rest
      refine ⟨value, fun after => ?_⟩
      rcases signed with rfl | rfl <;> simpa [startsNumber] using same after
    · obtain ⟨value, same⟩ := startsDigits_settled guarded (c :: rest)
      refine ⟨value, fun after => ?_⟩
      simp only [not_or] at signed
      simpa [startsNumber, signed.1, signed.2] using same after

theorem takeSign_guard (before after : List Char) :
    Number.takeSign (before ++ guard :: after) =
      ((Number.takeSign before).1, (Number.takeSign before).2 ++ guard :: after) := by
  have plus : guard ≠ '+' := guard_ne guarded rfl
  have minus : guard ≠ '-' := guard_ne guarded rfl
  cases before with
  | nil => simp [Number.takeSign, plus, minus]
  | cons c rest =>
    by_cases first : c = '+' <;> by_cases second : c = '-' <;>
      simp [Number.takeSign, first, second]

theorem fraction_guard (before after : List Char) :
    fraction (before ++ guard :: after) =
      ((fraction before).1, (fraction before).2 ++ guard :: after) := by
  have point : guard ≠ '.' := guard_ne guarded rfl
  cases before with
  | nil => simp [fraction, point]
  | cons c rest =>
    by_cases first : c = '.'
    · simp only [first, List.cons_append, fraction,
        takeWhile_guard (guard_not_digit guarded), dropWhile_guard (guard_not_digit guarded)]
      split <;> rfl
    · simp [fraction, first]

theorem exponent_guard (before after : List Char) :
    exponent (before ++ guard :: after) =
      ((exponent before).1, (exponent before).2 ++ guard :: after) := by
  have small : guard ≠ 'e' := guard_ne guarded rfl
  have large : guard ≠ 'E' := guard_ne guarded rfl
  cases before with
  | nil => simp [exponent, small, large]
  | cons c rest =>
    simp only [List.cons_append, exponent, takeSign_guard guarded,
      takeWhile_guard (guard_not_digit guarded), dropWhile_guard (guard_not_digit guarded)]
    split
    · split <;> rfl
    · rfl

theorem numeral_guard (before after : List Char) :
    numeral (before ++ guard :: after) =
      ((numeral before).1, (numeral before).2 ++ guard :: after) := by
  simp only [numeral, takeSign_guard guarded, takeWhile_guard (guard_not_digit guarded),
    dropWhile_guard (guard_not_digit guarded), fraction_guard guarded, exponent_guard guarded]

theorem quoted_decided {quote : Char} (free : isGuard quote = false) (before : List Char) :
    Decided guard (quoted quote) before := by
  have other : guard ≠ quote := guard_ne guarded free
  have slash : guard ≠ '\\' := guard_ne guarded rfl
  refine decided_of_rest ?_ ?_ before
  · apply Or.inr
    intro after
    rw [List.nil_append, quoted_cons, if_neg other, guard_not_newline guarded,
      if_neg Bool.false_ne_true, if_neg slash]
    exact quoted_suffix quote after
  · intro c rest shorter
    show Decided guard (fun text => quoted quote (c :: text)) rest
    simp only [quoted_cons]
    by_cases closes : c = quote
    · simp only [if_pos closes]
      exact stops_before (some []) [] rest
    simp only [if_neg closes]
    by_cases newline : isNewline c = true
    · simp only [if_pos newline]
      exact stops_before none [c] rest
    simp only [if_neg newline]
    by_cases escapes : c = '\\'
    · simp only [if_pos escapes]
      have newlineNext : Decided guard (fun text => quoted quote (dropNewline text)) rest := by
        have kept := (dropNewline_suffix rest).length_le
        exact (shorter (dropNewline rest) kept).after (dropNewline_guard guarded rest)
      have escaped := (escape_decided guarded rest).andThen
        (fun value text => ((quoted quote text).1.map (value :: ·), (quoted quote text).2))
        escape_suffix
        (fun value left bound => (shorter left bound).map (Option.map (value :: ·)))
        (fun value text => quoted_suffix quote text)
      exact (Decided.ite (startsWithNewline_settled guarded rest) newlineNext escaped).congr
        fun after => by simp
    · simp only [if_neg escapes]
      exact (shorter rest (Nat.le_refl _)).map (Option.map (readable c :: ·))

theorem urlRemnants_decided (value : Option (List Char)) (before : List Char) :
    Decided guard (fun text => (value, urlRemnants text)) before := by
  have slash : guard ≠ '\\' := guard_ne guarded rfl
  refine decided_of_rest ?_ ?_ before
  · exact Or.inr fun after => urlRemnants_cons_suffix guard after
  · intro c rest shorter
    show Decided guard (fun text => (value, urlRemnants (c :: text))) rest
    simp only [urlRemnants_cons]
    by_cases closes : c = ')'
    · simp only [if_pos closes]
      exact stops_before value [] rest
    simp only [if_neg closes]
    cases rest with
    | nil =>
      apply Or.inr
      intro after
      show (if c = '\\' ∧ (some guard = some ')' ∨ some guard = some '\\') then urlRemnants after
        else urlRemnants (guard :: after)) <:+ after
      split
      · exact urlRemnants_suffix after
      · exact urlRemnants_cons_suffix guard after
    | cons d rest =>
      show Decided guard (fun text => (value,
        if c = '\\' ∧ (some d = some ')' ∨ some d = some '\\') then urlRemnants text
        else urlRemnants (d :: text))) rest
      by_cases escapes : c = '\\' ∧ (some d = some ')' ∨ some d = some '\\')
      · simp only [if_pos escapes]
        exact shorter rest (by simp)
      · simp only [if_neg escapes]
        exact shorter (d :: rest) (Nat.le_refl _)

omit guarded in
theorem urlEnd_of_dropWhile {text rest : List Char} {c : Char}
    (found : text.dropWhile isSpace = c :: rest) :
    urlEnd text = if c = ')' then (some [], rest) else (none, urlRemnants rest) := by
  unfold urlEnd
  rw [found]
  split <;> simp_all

theorem urlEnd_decided (before : List Char) : Decided guard urlEnd before := by
  have close (c : Char) (rest : List Char) : Decided guard (fun text =>
      if c = ')' then ((some [] : Option (List Char)), text) else (none, urlRemnants text)) rest := by
    by_cases closes : c = ')'
    · simp only [if_pos closes]
      exact stops_before (some []) [] rest
    · simp only [if_neg closes]
      exact urlRemnants_decided guarded none rest
  have kept := dropWhile_guard (guard_not_space guarded) before
  cases dropped : before.dropWhile isSpace with
  | nil =>
    apply Or.inr
    intro after
    rw [urlEnd_of_dropWhile ((kept after).trans (by rw [dropped]; rfl))]
    split
    · exact List.suffix_refl _
    · exact urlRemnants_suffix after
  | cons c rest =>
    have read (after : List Char) := urlEnd_of_dropWhile ((kept after).trans (by rw [dropped]; rfl))
    rcases close c rest with ⟨value, left, stops⟩ | passes
    · exact Or.inl ⟨value, left, fun after => (read after).trans (stops after)⟩
    · exact Or.inr fun after => by rw [read after]; exact passes after

theorem unquoted_decided (before : List Char) : Decided guard unquoted before := by
  have slash : guard ≠ '\\' := guard_ne guarded rfl
  refine decided_of_rest ?_ ?_ before
  · apply Or.inr
    intro after
    rw [List.nil_append, unquoted_cons, guard_not_space guarded, if_neg Bool.false_ne_true,
      if_neg slash]
    split
    · exact List.suffix_refl _
    · split
      · exact urlRemnants_suffix after
      · exact unquoted_suffix after
  · intro c rest shorter
    show Decided guard (fun text => unquoted (c :: text)) rest
    simp only [unquoted_cons]
    by_cases space : isSpace c = true
    · simp only [if_pos space]
      exact urlEnd_decided guarded (c :: rest)
    simp only [if_neg space]
    by_cases closes : c = ')'
    · simp only [if_pos closes]
      exact stops_before (some []) [] rest
    simp only [if_neg closes]
    by_cases bad : (isNonPrintable c || c = '"' || c = '\'' || c = '(') = true
    · simp only [if_pos bad]
      exact urlRemnants_decided guarded none rest
    simp only [if_neg bad]
    by_cases escapes : c = '\\'
    · simp only [if_pos escapes]
      refine Decided.ite (startsWithNewline_settled guarded rest)
        (urlRemnants_decided guarded none rest) ?_
      exact (escape_decided guarded rest).andThen
        (fun value text => ((unquoted text).1.map (value :: ·), (unquoted text).2))
        escape_suffix (fun value left bound => (shorter left bound).map (Option.map (value :: ·)))
        (fun value text => unquoted_suffix text)
    · simp only [if_neg escapes]
      exact (shorter rest (Nat.le_refl _)).map (Option.map (readable c :: ·))

theorem afterComment_decided (value : Token) (before : List Char) :
    Decided guard (fun text => (value, afterComment text)) before := by
  have star : guard ≠ '*' := guard_ne guarded rfl
  have slash : guard ≠ '/' := guard_ne guarded rfl
  induction before with
  | nil =>
    apply Or.inr
    intro after
    simp only [List.nil_append, afterComment_cons, star, false_and, if_false]
    exact afterComment_suffix after
  | cons c rest ih =>
    cases rest with
    | nil =>
      apply Or.inr
      intro after
      simp only [List.cons_append, List.nil_append, afterComment_cons, List.head?_cons,
        Option.some.injEq, slash, star, and_false, false_and, if_false]
      exact afterComment_suffix after
    | cons d rest =>
      show Decided guard (fun text => (value, afterComment (c :: d :: text))) rest
      by_cases closes : c = '*' ∧ d = '/'
      · simp only [afterComment_cons c, List.head?_cons, Option.some.injEq, if_pos closes]
        exact stops_before value [] rest
      · simp only [afterComment_cons c, List.head?_cons, Option.some.injEq, if_neg closes]
        exact ih

theorem urlAfter_decided (called : String) (before : List Char) :
    Decided guard (urlAfter called) before := by
  have kept := dropWhile_guard (guard_not_space guarded) before
  have quoteAhead : Settled guard (fun text => startsWithQuote (text.dropWhile isSpace)) before := by
    cases dropped : before.dropWhile isSpace with
    | nil => exact ⟨startsWithQuote [guard], fun after => by simp only [kept after, dropped]; rfl⟩
    | cons c rest => exact ⟨startsWithQuote [c], fun after => by simp only [kept after, dropped]; rfl⟩
  have body := ((unquoted_decided guarded (before.dropWhile isSpace)).after kept).map urlToken
  exact (Decided.ite quoteAhead (stops_before _ [] before) body).congr fun after =>
    urlAfter_eq called _

theorem callAfter_decided (called : List Char) (before : List Char) :
    Decided guard (callAfter called) before := by
  cases before with
  | nil =>
    by_cases round : guard = '('
    · apply Or.inr
      intro after
      rw [List.nil_append, callAfter_cons, if_pos round]
      split
      · exact urlAfter_suffix _ after
      · exact List.suffix_refl _
    · refine Or.inl ⟨.ident (String.ofList called), [], fun after => ?_⟩
      rw [List.nil_append, callAfter_cons, if_neg round]
  | cons c rest =>
    show Decided guard (fun text => callAfter called (c :: text)) rest
    simp only [callAfter_cons]
    by_cases round : c = '('
    · simp only [if_pos round]
      by_cases url : sameIgnoringCase (String.ofList called) "url" = true
      · simp only [if_pos url]
        exact urlAfter_decided guarded _ rest
      · simp only [if_neg url]
        exact stops_before _ [] rest
    · simp only [if_neg round]
      exact stops_before _ [c] rest

theorem nameLike_decided (before : List Char) : Decided guard nameLike before :=
  (name_decided guarded before).andThen callAfter name_suffix
    (fun called left _ => callAfter_decided guarded called left) callAfter_suffix

theorem unitAfter_decided (number : Number.Numeral) (before : List Char) :
    Decided guard (unitAfter number) before := by
  have ordinary : Decided guard (fun text =>
      if startsName text then (Token.dimension number (String.ofList (name text).1), (name text).2)
      else (.number number, text)) before :=
    Decided.ite (startsName_settled guarded before)
      ((name_decided guarded before).map fun unit => Token.dimension number (String.ofList unit))
      (stops_before _ [] before)
  cases before with
  | nil =>
    have percent : guard ≠ '%' := guard_ne guarded rfl
    exact ordinary.congr fun after => unitAfter_cons number percent after
  | cons c rest =>
    by_cases sign : c = '%'
    · subst sign
      exact Or.inl ⟨.percentage number, rest, fun after => rfl⟩
    · exact ordinary.congr fun after => unitAfter_cons number sign _

theorem numeric_decided (before : List Char) : Decided guard numeric before := by
  have digits : Decided guard numeral before := Or.inl ⟨_, _, numeral_guard guarded before⟩
  exact digits.andThen unitAfter numeral_suffix
    (fun number left _ => unitAfter_decided guarded number left) unitAfter_suffix

theorem quotedToken_decided {quote : Char} (free : isGuard quote = false) (before : List Char) :
    Decided guard (quotedToken quote) before := by
  have body := (quoted_decided guarded free before).map quotedBody
  exact body.congr fun after => quotedToken_eq quote _

theorem hashToken_decided (before : List Char) : Decided guard hashToken before := by
  have test : Settled guard (fun text => startsName text ||
      text.head?.any fun c => c.isDigit || c = '-') before := by
    obtain ⟨starts, same⟩ := startsName_settled guarded before
    obtain ⟨first, also⟩ : Settled guard List.head? before := head?_settled before
    exact ⟨_, fun after => by simp only [same after, also after]; rfl⟩
  have named := (name_decided guarded before).map fun called => Token.hash (String.ofList called)
  exact (Decided.ite test named (stops_before (.delimiter '#') [] before)).congr
    fun after => hashToken_eq _

theorem symbol_decided (c : Char) (before : List Char) : Decided guard (symbol c) before := by
  have comment : Settled guard (fun text => c = '/' && text.head? = some '*') before :=
    (head?_settled before).map fun first => c = '/' && first = some '*'
  have free : guard ∉ ['!', '-', '-'] := by
    simpa using ⟨guard_ne guarded rfl, guard_ne guarded rfl⟩
  have opens : Settled guard (fun text => c = '<' && ['!', '-', '-'].isPrefixOf text) before :=
    (isPrefixOf_settled free before).map fun found => c = '<' && found
  have isMatch : Settled guard (fun text => text.head? = some '=' && startsMatch c) before :=
    (head?_settled before).map fun first => first = some '=' && startsMatch c
  have skipped : Decided guard (fun text => (Token.comment, afterComment (text.drop 1))) before :=
    (drop_decided () 1 before).andThen (fun _ text => (Token.comment, afterComment text))
      (fun text => List.drop_suffix 1 text)
      (fun _ left _ => afterComment_decided guarded .comment left)
      (fun _ text => afterComment_suffix text)
  exact (Decided.ite comment skipped (Decided.ite opens (drop_decided _ 3 before)
    (Decided.ite isMatch (drop_decided _ 1 before) (stops_before _ [] before)))).congr
      fun after => symbol_eq c _

theorem atToken_decided (before : List Char) : Decided guard atToken before :=
  Decided.ite (startsName_settled guarded before)
    ((name_decided guarded before).map fun called => Token.atKeyword (String.ofList called))
    (stops_before _ [] before)

/-- One token, like everything that is read on the way to it. -/
theorem scan_decided (c : Char) (before : List Char) : Decided guard (scan c) before := by
  unfold scan
  by_cases space : isSpace c = true
  · simp only [if_pos space]
    exact Or.inl ⟨.space, before.dropWhile isSpace, fun after => by
      simp only [dropWhile_guard (guard_not_space guarded)]⟩
  simp only [if_neg space]
  by_cases quote : (c = '"' || c = '\'') = true
  · simp only [if_pos quote]
    refine quotedToken_decided guarded ?_ before
    rcases (by simpa using quote : c = '"' ∨ c = '\'') with rfl | rfl <;> rfl
  simp only [if_neg quote]
  by_cases hash : c = '#'
  · simp only [if_pos hash]
    exact hashToken_decided guarded before
  simp only [if_neg hash]
  by_cases command : c = '@'
  · simp only [if_pos command]
    exact atToken_decided guarded before
  simp only [if_neg command]
  have free : guard ∉ ['-', '-', '>'] := by
    simpa using ⟨guard_ne guarded rfl, guard_ne guarded rfl⟩
  exact Decided.ite (startsNumber_settled guarded (c :: before))
    (numeric_decided guarded (c :: before))
    (Decided.ite (isPrefixOf_settled free (c :: before)) (drop_decided _ 2 before)
      (Decided.ite (startsName_settled guarded (c :: before))
        (nameLike_decided guarded (c :: before)) (symbol_decided guarded c before)))

end Readers

end DesignTokens.Css

import DesignTokens.Proofs.Css.LexemeRun
import Mathlib.Data.List.TakeWhile

/-!
What the end of a text leaves open. A string, a comment, a url or an escape that nothing finishes
goes on over whatever is put after the text. Any other token ends with the text, and it is read the
same before a semicolon.
-/

namespace DesignTokens.Css

open DesignTokens.Text

def bare : List Char → List Char
  | '\\' :: _ :: rest => bare rest
  | c :: rest => c :: bare rest
  | [] => []

/-- Whether a url is still open at the end of the text: its closing bracket, put after the text,
belongs to it. The text starts after the opening bracket. -/
def urlOpen (text : List Char) : Bool :=
  (unquoted (text.dropWhile isSpace ++ [')'])).2.isEmpty

/-- Whether the end of the text leaves a token open: a string without its closing quote, a comment
or a url without its end, or a name that ends with a backslash. -/
def Lexeme.leftOpen (lexeme : Lexeme) : Bool :=
  match lexeme.token with
  | .quoted _ => lexeme.text.head?.any fun quote => !(bare lexeme.text.tail).contains quote
  | .comment => !occursIn ['*', '/'] (lexeme.text.drop 2)
  | .url _ | .unclassified =>
    match (name lexeme.text).2 with
    | '(' :: body => urlOpen body
    | _ => false
  | .space => false
  | _ => (bare lexeme.text).contains '\\'

theorem bare_cons {c : Char} (plain : c ≠ '\\') (rest : List Char) :
    bare (c :: rest) = c :: bare rest := by
  rw [bare]
  rintro d tail rfl
  exact absurd rfl plain

theorem bare_append {plain : List Char} (free : '\\' ∉ plain) (rest : List Char) :
    bare (plain ++ rest) = plain ++ bare rest := by
  induction plain with
  | nil => rfl
  | cons c tail ih =>
    rw [List.mem_cons, not_or] at free
    rw [List.cons_append, bare_cons (Ne.symm free.1), ih free.2, List.cons_append]

section Ends

variable {α β : Type} (guard : Char)

def Continues (reader : List Char → α × List Char) (before : List Char) : Prop :=
  ∀ after, reader (before ++ guard :: after) =
    ((reader before).1, (reader before).2 ++ guard :: after)

/-- The reader stops before the guard, or it reads the whole text and leaves something open. -/
def Ends (reader : List Char → α × List Char) (isOpen : Prop) (before : List Char) : Prop :=
  Continues guard reader before ∨ (reader before).2 = [] ∧ isOpen

end Ends

section Combined

variable {α β : Type} {guard : Char} {before : List Char} {isOpen : Prop}

theorem Continues.ends {reader : List Char → α × List Char}
    (continues : Continues guard reader before) : Ends guard reader isOpen before :=
  Or.inl continues

theorem continues_before (value : α) (kept before : List Char) :
    Continues guard (fun text => (value, kept ++ text)) before :=
  fun after => by simp

theorem Continues.map {reader : List Char → α × List Char} (f : α → β)
    (continues : Continues guard reader before) :
    Continues guard (fun text => (f (reader text).1, (reader text).2)) before :=
  fun after => by simp only [continues after]

theorem Ends.map {reader : List Char → α × List Char} (f : α → β)
    (ends : Ends guard reader isOpen before) :
    Ends guard (fun text => (f (reader text).1, (reader text).2)) isOpen before :=
  ends.imp_left fun continues => continues.map f

theorem Ends.imp {reader : List Char → α × List Char} {other : Prop}
    (ends : Ends guard reader isOpen before)
    (weaker : (reader before).2 = [] → isOpen → other) : Ends guard reader other before :=
  ends.imp_right fun ⟨whole, found⟩ => ⟨whole, weaker whole found⟩

theorem Ends.congr {left right : List Char → α × List Char}
    (ends : Ends guard left isOpen before) (same : ∀ text, right text = left text) :
    Ends guard right isOpen before := by
  rw [show right = left from funext same]
  exact ends

theorem Ends.andThen {first : List Char → α × List Char} (second : α → List Char → β × List Char)
    (continues : Continues guard first before)
    (ends : Ends guard (second (first before).1) isOpen (first before).2) :
    Ends guard (fun text => second (first text).1 (first text).2) isOpen before := by
  rcases ends with further | ⟨whole, found⟩
  · exact Or.inl fun after => by simp only [continues after, further after]
  · exact Or.inr ⟨whole, found⟩

theorem Ends.ite {test : List Char → Bool} {yes no : List Char → α × List Char}
    (same : ∀ after, test (before ++ guard :: after) = test before)
    (left : test before = true → Ends guard yes isOpen before)
    (right : test before = false → Ends guard no isOpen before) :
    Ends guard (fun text => if test text then yes text else no text) isOpen before := by
  cases answer : test before with
  | true =>
    rcases left answer with continues | ⟨whole, found⟩
    · exact Or.inl fun after => by simp [same after, answer, continues after]
    · exact Or.inr ⟨by simpa [answer] using whole, found⟩
  | false =>
    rcases right answer with continues | ⟨whole, found⟩
    · exact Or.inl fun after => by simp [same after, answer, continues after]
    · exact Or.inr ⟨by simpa [answer] using whole, found⟩

theorem ends_of_rest {reader : List Char → α × List Char} (isOpen : List Char → Prop)
    (atEnd : Ends guard reader (isOpen []) [])
    (step : ∀ c rest, (∀ left : List Char, left.length ≤ rest.length →
        Ends guard reader (isOpen left) left) →
      Ends guard (fun text => reader (c :: text)) (isOpen (c :: rest)) rest)
    (before : List Char) : Ends guard reader (isOpen before) before :=
  rest_induction (motive := fun before => Ends guard reader (isOpen before) before) atEnd step
    before

theorem Ends.after (drop : List Char → List Char) {reader : List Char → α × List Char}
    (ends : Ends guard reader isOpen (drop before))
    (kept : ∀ after, drop (before ++ guard :: after) = drop before ++ guard :: after) :
    Ends guard (fun text => reader (drop text)) isOpen before := by
  rcases ends with continues | ⟨whole, found⟩
  · exact Or.inl fun after => by simpa only [kept after] using continues after
  · exact Or.inr ⟨whole, found⟩

end Combined

section Readers

variable {guard : Char} (guarded : isGuard guard = true)
include guarded

theorem startsName_before_guard (before after : List Char) :
    startsName (before ++ guard :: after) = startsName before := by
  have hyphen : guard ≠ '-' := guard_ne guarded rfl
  have slash : guard ≠ '\\' := guard_ne guarded rfl
  cases before with
  | nil => exact not_startsName_guard guarded after
  | cons c rest =>
    rw [List.cons_append, startsName_cons, startsName_cons]
    cases rest with
    | nil =>
      simp [startsWithNewline, guard_not_newline guarded, guard_not_name_start guarded, hyphen,
        slash]
    | cons d rest => rfl

theorem startsDigits_before_guard (before after : List Char) :
    startsDigits (before ++ guard :: after) = startsDigits before := by
  have point : guard ≠ '.' := guard_ne guarded rfl
  cases before with
  | nil =>
    rw [List.nil_append, startsDigits_cons, if_neg point, guard_not_digit guarded]
    rfl
  | cons c rest =>
    rw [List.cons_append, startsDigits_cons, startsDigits_cons]
    cases rest with
    | nil => simp [guard_not_digit guarded]
    | cons d rest => rfl

theorem startsNumber_before_guard (before after : List Char) :
    startsNumber (before ++ guard :: after) = startsNumber before := by
  cases before with
  | nil => exact not_startsNumber_guard guarded after
  | cons c rest =>
    have unsigned := startsDigits_before_guard guarded (c :: rest) after
    have signed := startsDigits_before_guard guarded rest after
    unfold startsNumber
    by_cases plus : c = '+'
    · subst plus
      exact signed
    by_cases minus : c = '-'
    · subst minus
      exact signed
    · simpa [plus, minus] using unsigned

omit guarded in
theorem isPrefixOf_before_guard {word : List Char} (free : guard ∉ word)
    (before after : List Char) :
    word.isPrefixOf (before ++ guard :: after) = word.isPrefixOf before := by
  induction word generalizing before with
  | nil => simp
  | cons c rest ih =>
    rw [List.mem_cons, not_or] at free
    cases before with
    | nil => simp [List.isPrefixOf, Ne.symm free.1]
    | cons d before => simp [List.isPrefixOf, ih free.2]

omit guarded in
theorem head?_before_guard {c : Char} (other : guard ≠ c) (before after : List Char) :
    ((before ++ guard :: after).head? = some c) ↔ before.head? = some c := by
  cases before <;> simp [other]

theorem escape_continues {before : List Char} (filled : before ≠ []) :
    Continues guard escape before := by
  cases before with
  | nil => contradiction
  | cons c rest =>
    intro after
    by_cases digit : isHexDigit c = true
    · have same := take_takeWhile_guard (guard_not_hex_digit guarded) 6 (c :: rest) after
      have fits : (((c :: rest).take 6).takeWhile isHexDigit).length ≤ (c :: rest).length :=
        ((List.takeWhile_sublist _).trans (List.take_sublist _ _)).length_le
      have kept : (c :: rest ++ guard :: after).drop
          (((c :: rest).take 6).takeWhile isHexDigit).length =
            (c :: rest).drop (((c :: rest).take 6).takeWhile isHexDigit).length ++
              guard :: after := List.drop_append_of_le_length fits
      rw [List.cons_append] at same kept ⊢
      simp only [escape, if_pos digit, same, kept, dropOneSpace_guard guarded]
    · rw [List.cons_append, escape, escape, if_neg digit, if_neg digit]

end Readers

def Skips (kind : Char → Bool) (text rest : List Char) : Prop :=
  ∃ plain, text = plain ++ rest ∧ ∀ c ∈ plain, kind c = true

namespace Skips

variable {kind : Char → Bool} {text rest : List Char}

theorem nothing : Skips kind text text :=
  ⟨[], rfl, by simp⟩

theorem one {c : Char} (inside : kind c = true) : Skips kind (c :: rest) rest :=
  ⟨[c], rfl, by simpa using inside⟩

theorem trans {middle : List Char} (first : Skips kind text middle)
    (second : Skips kind middle rest) : Skips kind text rest := by
  obtain ⟨left, rfl, before⟩ := first
  obtain ⟨right, rfl, after⟩ := second
  refine ⟨left ++ right, by rw [List.append_assoc], fun c member => ?_⟩
  exact (List.mem_append.1 member).elim (before c) (after c)

theorem dropWhile {p : Char → Bool} (inside : ∀ c, p c = true → kind c = true)
    (text : List Char) : Skips kind text (text.dropWhile p) :=
  ⟨text.takeWhile p, List.takeWhile_append_dropWhile.symm,
    fun c member => inside c (List.mem_takeWhile_imp member)⟩

/-- Characters of a kind without backslashes have no say in the other bare characters. -/
theorem mem_bare (skips : Skips kind text rest) (slash : kind '\\' = false) {mark : Char}
    (other : kind mark = false) : mark ∈ bare text ↔ mark ∈ bare rest := by
  obtain ⟨plain, rfl, inside⟩ := skips
  have free (c : Char) (outside : kind c = false) : c ∉ plain := fun member => by
    rw [inside c member] at outside
    contradiction
  rw [bare_append (free _ slash), List.mem_append]
  exact or_iff_right (free mark other)

end Skips

def isEscapeTail (c : Char) : Bool :=
  isHexDigit c || isSpace c

theorem dropOneSpace_skips (text : List Char) : Skips isEscapeTail text (dropOneSpace text) := by
  unfold dropOneSpace
  split
  · exact (Skips.one rfl).trans (Skips.one rfl)
  · split
    · rename_i c rest _ space
      exact Skips.one (by simp [isEscapeTail, space])
    · exact .nothing
  · exact .nothing

theorem escape_skips (c : Char) (rest : List Char) :
    Skips isEscapeTail rest (escape (c :: rest)).2 := by
  by_cases digit : isHexDigit c = true
  · have shape : ((c :: rest).take 6).takeWhile isHexDigit =
        c :: (rest.take 5).takeWhile isHexDigit := by
      rw [List.take_succ_cons, List.takeWhile_cons, if_pos digit]
    obtain ⟨left, whole⟩ : (rest.take 5).takeWhile isHexDigit <+: rest :=
      (List.takeWhile_prefix _).trans (List.take_prefix _ _)
    have dropped : rest.drop ((rest.take 5).takeWhile isHexDigit).length = left := by
      have cut : ((rest.take 5).takeWhile isHexDigit ++ left).drop
          ((rest.take 5).takeWhile isHexDigit).length = left := List.drop_left
      rwa [whole] at cut
    have digits : Skips isEscapeTail rest left := by
      refine ⟨(rest.take 5).takeWhile isHexDigit, whole.symm, fun d member => ?_⟩
      simp [isEscapeTail, List.mem_takeWhile_imp member]
    simp only [escape, if_pos digit, shape, List.length_cons, List.drop_succ_cons, dropped]
    exact digits.trans (dropOneSpace_skips left)
  · rw [escape, if_neg digit]
    exact .nothing

/-- What follows an escape has the same bare characters as what follows its first character,
hexadecimal digits and white space apart. -/
theorem mem_bare_escape {mark : Char} (other : isEscapeTail mark = false) (c : Char)
    (rest : List Char) : mark ∈ bare (escape (c :: rest)).2 ↔ mark ∈ bare rest :=
  ((escape_skips c rest).mem_bare rfl other).symm

theorem numeral_skips (text : List Char) :
    Skips (fun c => c != '\\') text (numeral text).2 := by
  have digits (rest : List Char) :
      Skips (fun c => c != '\\') rest (rest.dropWhile Char.isDigit) := by
    refine Skips.dropWhile (fun c digit => ?_) rest
    rw [bne_iff_ne]
    rintro rfl
    contradiction
  have sign (rest : List Char) : Skips (fun c => c != '\\') rest (Number.takeSign rest).2 := by
    unfold Number.takeSign
    split
    · exact .one rfl
    · exact .one rfl
    · exact .nothing
  have point (rest : List Char) : Skips (fun c => c != '\\') rest (fraction rest).2 := by
    unfold fraction
    split
    · split
      · exact .nothing
      · exact (Skips.one rfl).trans (digits _)
    · exact .nothing
  have power (rest : List Char) : Skips (fun c => c != '\\') rest (exponent rest).2 := by
    unfold exponent
    split
    · split
      · rename_i c tail letter
        dsimp only
        split
        · exact .nothing
        · refine Skips.trans (.one ?_) ((sign tail).trans (digits _))
          rcases (by simpa using letter : c = 'e' ∨ c = 'E') with rfl | rfl <;> rfl
      · exact .nothing
    · exact .nothing
  exact (sign text).trans ((digits _).trans ((point _).trans (power _)))

section Readers

variable {guard : Char} (guarded : isGuard guard = true)
include guarded

theorem startsWithNewline_before_guard (before after : List Char) :
    startsWithNewline (before ++ guard :: after) = startsWithNewline before := by
  cases before with
  | nil => exact guard_not_newline guarded
  | cons c rest => rfl

/-- A name reads on over what follows only from a backslash at the end of the text. -/
theorem name_ends (before : List Char) : Ends guard name ('\\' ∈ bare before) before := by
  refine ends_of_rest (fun before => '\\' ∈ bare before) ?_ ?_ before
  · have slash : guard ≠ '\\' := guard_ne guarded rfl
    refine Or.inl fun after => ?_
    rw [List.nil_append, name_cons, if_neg slash, guard_not_name_char guarded, name]
    rfl
  · intro c rest shorter
    simp only [name_cons]
    by_cases slash : c = '\\'
    · subst slash
      simp only [if_true]
      refine Ends.ite (startsWithNewline_before_guard guarded rest)
        (fun _ => (continues_before [] ['\\'] rest).ends) fun _ => ?_
      cases rest with
      | nil => exact Or.inr ⟨by simp [escape, name], List.mem_singleton.2 rfl⟩
      | cons d rest =>
        have further := (shorter (escape (d :: rest)).2 (escape_length _)).map
          ((escape (d :: rest)).1 :: ·)
        have named := further.imp fun _ found => (mem_bare_escape rfl d rest).1 found
        exact named.andThen (fun value text => (value :: (name text).1, (name text).2))
          (escape_continues guarded (by simp))
    · simp only [if_neg slash, bare_cons slash]
      by_cases allowed : isNameChar c = true
      · simp only [if_pos allowed]
        exact ((shorter rest (Nat.le_refl _)).map (readable c :: ·)).imp
          fun _ found => List.mem_cons_of_mem _ found
      · simp only [if_neg allowed]
        exact (continues_before [] [c] rest).ends

omit guarded in
theorem mem_bare_dropNewline {mark : Char} (newline : isNewline mark = false) (c : Char)
    (rest : List Char) (broken : isNewline c = true) :
    mark ∈ bare (dropNewline (c :: rest)) ↔ mark ∈ bare rest := by
  unfold dropNewline
  split
  · rename_i tail shape
    obtain ⟨rfl, rfl⟩ := List.cons.inj shape
    have other : mark ≠ '\n' := by
      rintro rfl
      contradiction
    rw [bare_cons (by decide), List.mem_cons]
    simp [other]
  · rename_i d tail _ shape
    obtain ⟨rfl, rfl⟩ := List.cons.inj shape
    rw [if_pos broken]
  · contradiction

/-- A string reads on over what follows unless a quote that is not escaped closes it. -/
theorem quoted_ends {quote : Char} (found : quote = '"' ∨ quote = '\'') (before : List Char) :
    Ends guard (quoted quote) (quote ∉ bare before) before := by
  have free : isGuard quote = false := by rcases found with rfl | rfl <;> rfl
  have plain : isEscapeTail quote = false := by rcases found with rfl | rfl <;> rfl
  have unbroken : isNewline quote = false := by rcases found with rfl | rfl <;> rfl
  have other : quote ≠ '\\' := by rcases found with rfl | rfl <;> decide
  refine ends_of_rest (fun before => quote ∉ bare before) ?_ ?_ before
  · exact Or.inr ⟨by rw [quoted], by simp [bare]⟩
  · intro c rest shorter
    simp only [quoted_cons]
    by_cases closes : c = quote
    · simp only [if_pos closes]
      exact (continues_before (some []) [] rest).ends
    simp only [if_neg closes]
    by_cases newline : isNewline c = true
    · simp only [if_pos newline]
      exact (continues_before none [c] rest).ends
    simp only [if_neg newline]
    by_cases escapes : c = '\\'
    · subst escapes
      cases rest with
      | nil => exact Or.inr ⟨rfl, by simp [bare, other]⟩
      | cons d rest =>
        refine Ends.ite (fun _ => rfl) (fun empty => by contradiction) fun _ => ?_
        refine Ends.ite (startsWithNewline_before_guard guarded (d :: rest)) (fun broken => ?_)
          fun _ => ?_
        · have below := (dropNewline_suffix (d :: rest)).length_le
          have further := (shorter _ below).after _ (dropNewline_guard guarded (d :: rest))
          exact further.imp fun _ missing found =>
            missing ((mem_bare_dropNewline unbroken d rest broken).2 found)
        · have further := (shorter (escape (d :: rest)).2 (escape_length _)).map
            (Option.map ((escape (d :: rest)).1 :: ·))
          have read := further.imp fun _ missing (found : quote ∈ bare rest) =>
            missing ((mem_bare_escape plain d rest).2 found)
          exact read.andThen
            (fun value text => ((quoted quote text).1.map (value :: ·), (quoted quote text).2))
            (escape_continues guarded (by simp))
    · simp only [if_neg escapes, bare_cons escapes]
      exact ((shorter rest (Nat.le_refl _)).map (Option.map (readable c :: ·))).imp
        fun _ missing => by simp [missing, Ne.symm closes]

theorem afterComment_ends (value : Token) (before : List Char) :
    Ends guard (fun text => (value, afterComment text)) (occursIn ['*', '/'] before = false)
      before := by
  have slash : guard ≠ '/' := guard_ne guarded rfl
  induction before with
  | nil => exact Or.inr ⟨rfl, rfl⟩
  | cons c rest ih =>
    show Ends guard (fun text => (value, afterComment (c :: text))) _ rest
    simp only [afterComment_cons]
    by_cases closes : c = '*' ∧ rest.head? = some '/'
    · obtain ⟨tail, rfl⟩ := List.head?_eq_some_iff.1 closes.2
      exact Or.inl fun after => by simp [closes.1]
    · rcases ih with continues | ⟨whole, missing⟩
      · refine Or.inl fun after => ?_
        have apart : ¬ (c = '*' ∧ (rest ++ guard :: after).head? = some '/') := by
          rwa [head?_before_guard slash]
        simpa only [if_neg apart, if_neg closes] using continues after
      · refine Or.inr ⟨by simpa only [if_neg closes] using whole, ?_⟩
        rw [occursIn, missing, Bool.or_false, Bool.eq_false_iff]
        intro found
        obtain ⟨tail, whole⟩ := List.isPrefixOf_iff_prefix.1 found
        obtain ⟨rfl, rfl⟩ := List.cons.inj whole
        exact closes ⟨rfl, rfl⟩

omit guarded in
/-- The rest of a malformed url reads on over what follows unless a bracket that is not escaped
closes it: one that is put after the text then closes it. -/
theorem urlRemnants_ends (value : Option (List Char)) (before : List Char) :
    Ends guard (fun text => (value, urlRemnants text)) (urlRemnants (before ++ [')']) = [])
      before := by
  refine ends_of_rest (fun before => urlRemnants (before ++ [')']) = []) ?_ ?_ before
  · exact Or.inr ⟨rfl, rfl⟩
  · intro c rest shorter
    show Ends guard (fun text => (value, urlRemnants (c :: text)))
      (urlRemnants (c :: (rest ++ [')'])) = []) rest
    simp only [urlRemnants_cons]
    by_cases closes : c = ')'
    · simp only [if_pos closes]
      exact (continues_before value [] rest).ends
    simp only [if_neg closes]
    cases rest with
    | nil =>
      refine Or.inr ⟨by simp [urlRemnants], ?_⟩
      simp [urlRemnants]
    | cons d rest =>
      show Ends guard (fun text => (value,
        if c = '\\' ∧ (some d = some ')' ∨ some d = some '\\') then urlRemnants text
        else urlRemnants (d :: text))) ((if c = '\\' ∧ (some d = some ')' ∨ some d = some '\\')
          then urlRemnants (rest ++ [')']) else urlRemnants (d :: (rest ++ [')']))) = []) rest
      by_cases escapes : c = '\\' ∧ (some d = some ')' ∨ some d = some '\\')
      · simp only [if_pos escapes]
        exact shorter rest (by simp)
      · simp only [if_neg escapes]
        exact shorter (d :: rest) (Nat.le_refl _)

theorem urlEnd_ends (before : List Char) :
    Ends guard urlEnd ((urlEnd (before ++ [')'])).2 = []) before := by
  have kept := dropWhile_guard (guard_not_space guarded) before
  have bracket := dropWhile_guard (show isSpace ')' = false from rfl) before []
  cases dropped : before.dropWhile isSpace with
  | nil =>
    rw [dropped, List.nil_append] at bracket
    refine Or.inr ⟨by simp [urlEnd, dropped], ?_⟩
    rw [urlEnd_of_dropWhile bracket, if_pos rfl]
  | cons c rest =>
    rw [dropped, List.cons_append] at bracket
    have here := urlEnd_of_dropWhile dropped
    have read (after : List Char) : urlEnd (before ++ guard :: after) =
        if c = ')' then (some [], rest ++ guard :: after)
        else (none, urlRemnants (rest ++ guard :: after)) :=
      urlEnd_of_dropWhile ((kept after).trans (by rw [dropped]; rfl))
    rw [urlEnd_of_dropWhile bracket]
    by_cases closes : c = ')'
    · exact Or.inl fun after => by rw [read after, here, if_pos closes, if_pos closes]
    · rw [if_neg closes] at here ⊢
      have remnants : Ends guard (fun text => ((none : Option (List Char)), urlRemnants text))
          (urlRemnants (rest ++ [')']) = []) rest := urlRemnants_ends none rest
      rcases remnants with continues | ⟨whole, open_⟩
      · exact Or.inl fun after => by
          rw [read after, here, if_neg closes]
          exact continues after
      · exact Or.inr ⟨by rw [here]; exact whole, open_⟩

theorem unquoted_ends (before : List Char) :
    Ends guard unquoted ((unquoted (before ++ [')'])).2 = []) before := by
  refine ends_of_rest (fun before => (unquoted (before ++ [')'])).2 = []) ?_ ?_ before
  · exact Or.inr ⟨by rw [unquoted], by rw [List.nil_append, unquoted_cons]; rfl⟩
  · intro c rest shorter
    show Ends guard (fun text => unquoted (c :: text))
      ((unquoted (c :: (rest ++ [')']))).2 = []) rest
    simp only [unquoted_cons]
    by_cases space : isSpace c = true
    · simp only [if_pos space]
      exact urlEnd_ends guarded (c :: rest)
    simp only [if_neg space]
    by_cases closes : c = ')'
    · simp only [if_pos closes]
      exact (continues_before (some []) [] rest).ends
    simp only [if_neg closes]
    by_cases bad : (isNonPrintable c || c = '"' || c = '\'' || c = '(') = true
    · simp only [if_pos bad]
      exact urlRemnants_ends none rest
    simp only [if_neg bad]
    by_cases escapes : c = '\\'
    · simp only [if_pos escapes]
      have round : isGuard ')' = true := rfl
      have same := startsWithNewline_before_guard round rest []
      refine Ends.ite (startsWithNewline_before_guard guarded rest) (fun broken => ?_)
        fun joined => ?_
      · rw [same, if_pos broken]
        exact urlRemnants_ends none rest
      · rw [same, joined, if_neg Bool.false_ne_true]
        cases rest with
        | nil => exact Or.inr ⟨by simp [escape, unquoted], by simp [escape, isHexDigit, unquoted]⟩
        | cons d rest =>
          rw [escape_continues round (by simp) []]
          have further := (shorter (escape (d :: rest)).2 (escape_length _)).map
            (Option.map ((escape (d :: rest)).1 :: ·))
          exact further.andThen
            (fun value text => ((unquoted text).1.map (value :: ·), (unquoted text).2))
            (escape_continues guarded (by simp))
    · simp only [if_neg escapes]
      exact (shorter rest (Nat.le_refl _)).map (Option.map (readable c :: ·))

theorem urlAfter_ends (called : String) (before : List Char) :
    Ends guard (urlAfter called) (urlOpen before = true ∧
      startsWithQuote (before.dropWhile isSpace) = false) before := by
  have kept := dropWhile_guard (guard_not_space guarded) before
  have single : guard ≠ '"' := guard_ne guarded rfl
  have double : guard ≠ '\'' := guard_ne guarded rfl
  have same (after : List Char) : startsWithQuote ((before ++ guard :: after).dropWhile isSpace) =
      startsWithQuote (before.dropWhile isSpace) := by
    rw [kept]
    cases before.dropWhile isSpace with
    | nil => simp [startsWithQuote, single, double]
    | cons c rest => rfl
  have body := ((unquoted_ends guarded (before.dropWhile isSpace)).after _ kept).map urlToken
  refine (Ends.ite same (fun _ => (continues_before _ [] before).ends) fun plain => ?_).congr
    (urlAfter_eq called)
  refine body.imp fun _ found => ⟨?_, plain⟩
  rw [urlOpen, found]
  rfl

omit guarded in
theorem urlAfter_token (called : String) {text : List Char}
    (plain : startsWithQuote (text.dropWhile isSpace) = false) :
    ∃ address, (urlAfter called text).1 = urlToken address := by
  rw [urlAfter_eq, plain]
  exact ⟨_, rfl⟩

omit guarded in
theorem leftOpen_url {text body : List Char} {address : Option (List Char)} {start : Nat}
    (bracket : (name text).2 = '(' :: body) (found : urlOpen body = true) :
    Lexeme.leftOpen ⟨urlToken address, text, start⟩ = true := by
  cases address <;> simpa [Lexeme.leftOpen, urlToken, bracket] using found

theorem nameLike_ends (apart : guard ≠ '(') (start : Nat) (before : List Char) :
    Ends guard nameLike (Lexeme.leftOpen ⟨(nameLike before).1, before, start⟩ = true) before := by
  have read (text : List Char) : nameLike text = callAfter (name text).1 (name text).2 := rfl
  rcases name_ends guarded before with continues | ⟨whole, found⟩
  · refine Ends.andThen callAfter continues ?_
    rw [read]
    generalize bracket : (name before).2 = left
    cases left with
    | nil => exact Or.inl fun after => by rw [List.nil_append, callAfter_cons, if_neg apart]; rfl
    | cons c rest =>
      show Ends guard (fun text => callAfter (name before).1 (c :: text)) _ rest
      simp only [callAfter_cons]
      by_cases round : c = '('
      · subst round
        simp only [if_true]
        by_cases url : sameIgnoringCase (String.ofList (name before).1) "url" = true
        · simp only [if_pos url]
          refine (urlAfter_ends guarded _ rest).imp fun _ ⟨found, plain⟩ => ?_
          obtain ⟨address, token⟩ := urlAfter_token (String.ofList (name before).1) plain
          rw [token]
          exact leftOpen_url bracket found
        · simp only [if_neg url]
          exact (continues_before _ [] rest).ends
      · simp only [if_neg round]
        exact (continues_before _ [c] rest).ends
  · refine Or.inr ?_
    rw [read, whole]
    exact ⟨rfl, by simpa [Lexeme.leftOpen, callAfter] using found⟩

theorem numeric_ends (start : Nat) (before : List Char) :
    Ends guard numeric (Lexeme.leftOpen ⟨(numeric before).1, before, start⟩ = true) before := by
  have percent : guard ≠ '%' := guard_ne guarded rfl
  have token : Lexeme.leftOpen ⟨(numeric before).1, before, start⟩ =
      (bare before).contains '\\' := by
    unfold numeric
    dsimp only
    split
    · rfl
    · split <;> rfl
  have unit (left : List Char) : Ends guard (fun text =>
      if startsName text then (Token.dimension (numeral before).1 (String.ofList (name text).1),
        (name text).2)
      else (.number (numeral before).1, text)) ('\\' ∈ bare left) left :=
    Ends.ite (startsName_before_guard guarded left)
      (fun _ => (name_ends guarded left).map fun unit => Token.dimension _ (String.ofList unit))
      fun _ => (continues_before _ [] left).ends
  rw [token, List.contains_iff_mem, (numeral_skips before).mem_bare rfl rfl]
  refine Ends.andThen unitAfter (numeral_guard guarded before) ?_
  generalize (numeral before).2 = left at unit ⊢
  have after (c : Char) (rest : List Char) (other : c ≠ '%') :=
    unitAfter_cons (numeral before).1 other rest
  cases left with
  | nil =>
    refine Or.inl fun after => ?_
    rw [List.nil_append, unitAfter_cons _ percent, not_startsName_guard guarded]
    rfl
  | cons c rest =>
    by_cases sign : c = '%'
    · subst sign
      exact Or.inl fun after => rfl
    · rcases unit (c :: rest) with continues | ⟨whole, found⟩
      · refine Or.inl fun following => ?_
        rw [List.cons_append, after _ _ sign, after _ _ sign]
        exact continues following
      · exact Or.inr ⟨by rw [after _ _ sign]; exact whole, found⟩

theorem hashToken_ends (start : Nat) (before : List Char) :
    Ends guard hashToken (Lexeme.leftOpen ⟨(hashToken before).1, '#' :: before, start⟩ = true)
      before := by
  have hyphen : guard ≠ '-' := guard_ne guarded rfl
  have token : Lexeme.leftOpen ⟨(hashToken before).1, '#' :: before, start⟩ =
      (bare ('#' :: before)).contains '\\' := by
    rw [hashToken_eq]
    split <;> rfl
  have test (after : List Char) : (startsName (before ++ guard :: after) ||
      (before ++ guard :: after).head?.any fun c => c.isDigit || c = '-') =
        (startsName before || before.head?.any fun c => c.isDigit || c = '-') := by
    rw [startsName_before_guard guarded]
    cases before <;> simp [guard_not_digit guarded, hyphen]
  rw [token, List.contains_iff_mem, bare_cons (by decide)]
  refine (Ends.ite test (fun _ => ?_) fun _ => ?_).congr hashToken_eq
  · exact ((name_ends guarded before).map fun called => Token.hash (String.ofList called)).imp
      fun _ found => List.mem_cons_of_mem _ found
  · exact (continues_before _ [] before).ends

theorem atToken_ends (start : Nat) (before : List Char) :
    Ends guard atToken (Lexeme.leftOpen ⟨(atToken before).1, '@' :: before, start⟩ = true)
      before := by
  have token : Lexeme.leftOpen ⟨(atToken before).1, '@' :: before, start⟩ =
      (bare ('@' :: before)).contains '\\' := by
    unfold atToken
    split <;> rfl
  rw [token, List.contains_iff_mem, bare_cons (by decide)]
  refine Ends.ite (startsName_before_guard guarded before) (fun _ => ?_)
    fun _ => (continues_before _ [] before).ends
  exact ((name_ends guarded before).map fun called => Token.atKeyword (String.ofList called)).imp
    fun _ found => List.mem_cons_of_mem _ found

omit guarded in
theorem quoted_broken {quote : Char} {text : List Char} (broken : (quoted quote text).1 = none) :
    (quoted quote text).2 ≠ [] := by
  fun_induction quoted quote text with
  | case1 => contradiction
  | case2 => contradiction
  | case3 => exact List.cons_ne_nil _ _
  | case4 => contradiction
  | case5 next after _ _ _ _ ih => exact ih broken
  | case6 next after _ _ _ _ following ih => exact ih (Option.map_eq_none_iff.1 broken)
  | case7 c rest _ _ _ following ih => exact ih (Option.map_eq_none_iff.1 broken)

theorem quotedToken_ends {quote : Char} (found : quote = '"' ∨ quote = '\'') (start : Nat)
    (before : List Char) : Ends guard (quotedToken quote)
      (Lexeme.leftOpen ⟨(quotedToken quote before).1, quote :: before, start⟩ = true) before := by
  refine (((quoted_ends guarded found before).map quotedBody).congr (quotedToken_eq quote)).imp
    fun whole missing => ?_
  rw [quotedToken_eq] at whole ⊢
  cases value : (quoted quote before).1 with
  | none => exact absurd whole (quoted_broken value)
  | some text => simpa [Lexeme.leftOpen, quotedBody] using missing

theorem symbol_ends (c : Char) (start : Nat) (before : List Char) :
    Ends guard (symbol c) (Lexeme.leftOpen ⟨(symbol c before).1, c :: before, start⟩ = true)
      before := by
  have star : guard ≠ '*' := guard_ne guarded rfl
  have equals : guard ≠ '=' := guard_ne guarded rfl
  have free : guard ∉ ['!', '-', '-'] := by
    simpa using ⟨guard_ne guarded rfl, guard_ne guarded rfl⟩
  -- Only a comment goes on over the end: the mark of a comment and the signs of a match are whole.
  refine Ends.congr (Ends.ite ?_ ?_ fun _ => Ends.ite ?_ ?_ fun _ => Ends.ite ?_ ?_ fun _ =>
    (continues_before _ [] before).ends) (symbol_eq c)
  · exact fun after => by simp only [head?_before_guard star]
  · intro comment
    obtain ⟨rfl, starts⟩ : c = '/' ∧ before.head? = some '*' := by simpa using comment
    obtain ⟨body, rfl⟩ := List.head?_eq_some_iff.1 starts
    have read : Ends guard (fun text => (Token.comment, afterComment text))
        (occursIn ['*', '/'] body = false) (('*' :: body).drop 1) :=
      afterComment_ends guarded .comment body
    exact (read.after (List.drop 1) fun after => rfl).imp fun _ missing => by
      show (!occursIn ['*', '/'] body) = true
      rw [missing]
      rfl
  · exact fun after => by rw [isPrefixOf_before_guard free]
  · intro mark
    obtain ⟨_, starts⟩ : c = '<' ∧ ['!', '-', '-'] <+: before := by simpa using mark
    obtain ⟨rest, rfl⟩ := starts
    exact Or.inl fun after => rfl
  · exact fun after => by simp only [head?_before_guard equals]
  · intro mark
    obtain ⟨starts, _⟩ : before.head? = some '=' ∧ startsMatch c = true := by simpa using mark
    obtain ⟨rest, rfl⟩ := List.head?_eq_some_iff.1 starts
    exact Or.inl fun after => rfl

/-- One token is read the same before a guard, or the end of the text leaves it open. -/
theorem scan_ends (apart : guard ≠ '(') (start : Nat) (c : Char) (before : List Char) :
    Ends guard (scan c) (Lexeme.leftOpen ⟨(scan c before).1, c :: before, start⟩ = true)
      before := by
  have free : guard ∉ ['-', '-', '>'] := by
    simpa using ⟨guard_ne guarded rfl, guard_ne guarded rfl⟩
  unfold scan
  by_cases space : isSpace c = true
  · simp only [if_pos space]
    exact Or.inl fun after => by simp only [dropWhile_guard (guard_not_space guarded)]
  simp only [if_neg space]
  by_cases quote : (c = '"' || c = '\'') = true
  · simp only [if_pos quote]
    exact quotedToken_ends guarded (by simpa using quote) start before
  simp only [if_neg quote]
  by_cases hash : c = '#'
  · subst hash
    exact hashToken_ends guarded start before
  simp only [if_neg hash]
  by_cases command : c = '@'
  · subst command
    exact atToken_ends guarded start before
  simp only [if_neg command]
  have never : ¬ (false = true) := Bool.false_ne_true
  refine Ends.ite (startsNumber_before_guard guarded (c :: before)) (fun number => ?_) fun number =>
    Ends.ite (isPrefixOf_before_guard free (c :: before)) (fun marks => ?_) fun marks =>
    Ends.ite (startsName_before_guard guarded (c :: before)) (fun named => ?_) fun named => ?_
  · rw [if_pos number]
    exact numeric_ends guarded start (c :: before)
  · obtain ⟨rest, whole⟩ := List.isPrefixOf_iff_prefix.1 marks
    obtain ⟨rfl, rfl⟩ := List.cons.inj whole
    exact Or.inl fun after => rfl
  · rw [number, marks, if_neg never, if_neg never, if_pos named]
    exact nameLike_ends guarded apart start (c :: before)
  · rw [number, marks, named, if_neg never, if_neg never, if_neg never]
    exact symbol_ends guarded c start before

theorem scan_before_guard (apart : guard ≠ '(') (start : Nat) {c : Char} {rest : List Char}
    (finished : (scan c rest).2 = [] → (firstLexeme start c rest).leftOpen = false) :
    Continues guard (scan c) rest := by
  rcases scan_ends guarded apart start c rest with continues | ⟨whole, found⟩
  · exact continues
  · have alone : firstLexeme start c rest = ⟨(scan c rest).1, c :: rest, start⟩ := by
      simp [firstLexeme, whole, consumed]
    rw [← alone, finished whole] at found
    contradiction

/-- A text whose last token is finished is read before a guard as it is read alone. -/
theorem lexemesFrom_finished (apart : guard ≠ '(') (start : Nat) (text after : List Char)
    (finished : ∀ last ∈ (lexemesFrom start text).getLast?, last.leftOpen = false) :
    lexemesFrom start (text ++ guard :: after) =
      lexemesFrom start text ++ lexemesFrom (start + byteLength text) (guard :: after) := by
  fun_induction lexemesFrom start text with
  | case1 start => rfl
  | case2 start c rest _ lexeme ih =>
    have continues : Continues guard (scan c) rest := by
      refine scan_before_guard guarded apart start fun whole => finished _ ?_
      rw [whole, lexemesFrom]
      rfl
    have taken := consumed_scan c rest
    have here : firstLexeme start c (rest ++ guard :: after) = lexeme := by
      rw [firstLexeme, continues after, ← List.cons_append, ← taken, List.append_assoc,
        consumed_of_append]
    have place : lexeme.stop + byteLength (scan c rest).2 = start + byteLength (c :: rest) := by
      rw [← taken, byteLength_append, ← Nat.add_assoc]
      rfl
    rw [List.cons_append, lexemesFrom_cons, here, continues after, List.cons_append, ← place]
    refine congrArg _ (ih fun last found => finished last ?_)
    rw [List.getLast?_cons, found]
    rfl

end Readers

end DesignTokens.Css

import DesignTokens.Proofs.Css.FunctionToken
import DesignTokens.Proofs.Css.NameAlone
import DesignTokens.Proofs.Naming
import Mathlib.Data.List.Count

/-!
Names of custom properties as tokens of a style sheet. Of a word only the dots are escaped, so after
two hyphens it is one identifier that reads as the word exactly when its other characters may stand
in an identifier as they are.
-/

namespace DesignTokens

open DesignTokens.Css DesignTokens.Text

def EndsName (tail : List Char) : Prop :=
  ∀ c ∈ tail.head?, isGuard c = true ∧ c ≠ '('

theorem endsName_nil : EndsName [] := by
  simp [EndsName]

theorem endsName_guard {guard : Char} (guarded : isGuard guard = true) (apart : guard ≠ '(')
    (rest : List Char) : EndsName (guard :: rest) := by
  simp [EndsName, guarded, apart]

namespace EndsName

variable {tail : List Char} (ends : EndsName tail)
include ends

theorem name_eq : name tail = ([], tail) := by
  cases tail with
  | nil => rw [name]
  | cons c rest =>
    obtain ⟨guarded, _⟩ := ends c rfl
    rw [name_cons, if_neg (guard_ne guarded rfl), guard_not_name_char guarded]
    rfl

theorem callAfter_eq (called : List Char) :
    callAfter called tail = (.ident (String.ofList called), tail) := by
  cases tail with
  | nil => rfl
  | cons c rest => rw [callAfter_cons, if_neg (ends c rfl).2]

theorem head_ne {c : Char} (other : isGuard c = false) : tail.head? ≠ some c := by
  intro head
  rw [(ends c head).1] at other
  contradiction

end EndsName

/-! Two hyphens start a name unless they start the mark of an HTML comment. -/

theorem startsWord_custom (rest : List Char) :
    startsWord '-' ('-' :: rest) = !(rest.head? == some '>') := by
  have number : startsNumber ('-' :: '-' :: rest) = false := by
    simp [startsNumber, startsDigits_cons]
  have arrow : ['-', '-', '>'].isPrefixOf ('-' :: '-' :: rest) = (rest.head? == some '>') := by
    cases rest with
    | nil => rfl
    | cons c rest => simp [List.isPrefixOf, BEq.comm]
  rw [startsWord, number, arrow]
  simp [isSpace, isNewline, startsName]

theorem name_custom (rest : List Char) :
    name ('-' :: '-' :: rest) = ('-' :: '-' :: (name rest).1, (name rest).2) := by
  have hyphen (text : List Char) : name ('-' :: text) = ('-' :: (name text).1, (name text).2) := by
    rw [name_cons, if_neg (by decide)]
    rfl
  rw [hyphen, hyphen]

theorem scan_custom {rest : List Char} (apart : rest.head? ≠ some '>') :
    scan '-' ('-' :: rest) = callAfter ('-' :: '-' :: (name rest).1) (name rest).2 := by
  have word : startsWord '-' ('-' :: rest) = true := by simpa [startsWord_custom] using apart
  rw [scan_word word]
  show callAfter _ _ = _
  rw [name_custom]

theorem ident_of_callAfter {called text : List Char} {name : String}
    (found : (callAfter called text).1 = .ident name) :
    name.toList = called ∧ (callAfter called text).2 = text := by
  unfold callAfter at found ⊢
  split at found
  · split at found
    · rw [urlAfter] at found
      split at found
      · contradiction
      · dsimp only at found
        split at found <;> contradiction
    · contradiction
  · rename_i apart
    exact ⟨by rw [← Token.ident.inj found, String.toList_ofList], rfl⟩

theorem name_of_custom {rest : List Char} {called : String}
    (found : (scan '-' ('-' :: rest)).1 = .ident called) :
    called.toList = '-' :: '-' :: (name rest).1 ∧ (scan '-' ('-' :: rest)).2 = (name rest).2 := by
  by_cases arrow : rest.head? = some '>'
  · obtain ⟨after, rfl⟩ := List.head?_eq_some_iff.1 arrow
    contradiction
  · rw [scan_custom arrow] at found ⊢
    exact ident_of_callAfter found

/-! Words that hold no other characters than those of identifiers, and dots. -/

section Plain

variable {word tail : List Char} (plain : ∀ c ∈ word, isPlain c = true) (ends : EndsName tail)
include plain ends

theorem scan_name :
    scan '-' ('-' :: (word.flatMap dotEscape ++ tail)) =
      (.ident (String.ofList ('-' :: '-' :: word)), tail) := by
  have apart : (word.flatMap dotEscape ++ tail).head? ≠ some '>' := by
    cases word with
    | nil => exact ends.head_ne rfl
    | cons c rest =>
      by_cases dot : c = '.'
      · simp [dotEscape, dot]
      · have other : c ≠ '>' := by
          rintro rfl
          exact absurd (plain '>' List.mem_cons_self) (by decide)
        simp [dotEscape, dot, other]
  rw [scan_custom apart, name_escaped plain ends.name_eq, ends.callAfter_eq]

theorem lexemesFrom_name (start : Nat) :
    lexemesFrom start ('-' :: '-' :: (word.flatMap dotEscape ++ tail)) =
      ⟨.ident (String.ofList ('-' :: '-' :: word)), '-' :: '-' :: word.flatMap dotEscape, start⟩ ::
        lexemesFrom (start + byteLength ('-' :: '-' :: word.flatMap dotEscape)) tail := by
  have taken : firstLexeme start '-' ('-' :: (word.flatMap dotEscape ++ tail)) =
      ⟨.ident (String.ofList ('-' :: '-' :: word)), '-' :: '-' :: word.flatMap dotEscape,
        start⟩ := by
    rw [firstLexeme, scan_name plain ends, ← List.cons_append, ← List.cons_append,
      consumed_of_append]
  rw [lexemesFrom_cons, taken, scan_name plain ends]
  rfl

end Plain

/-! The other direction. A name takes the dots of a word with the backslashes in front of them, so
none of its own characters is left for another backslash to take. -/

theorem countP_solid {c : Char} (solid : c ≠ '.') (rest : List Char) :
    (c :: rest).countP (· != '.') = rest.countP (· != '.') + 1 :=
  List.countP_cons_of_pos (by simpa using solid)

theorem name_count (text : List Char) :
    (name text).1.length + (name text).2.countP (· != '.') ≤ text.countP (· != '.') := by
  fun_induction name text with
  | case1 => simp
  | case2 => simp
  | case3 rest _ _ following ih =>
    have fewer := (escape_suffix rest).sublist.countP_le (p := (· != '.'))
    rw [countP_solid (by decide), List.length_cons]
    dsimp only [following]
    omega
  | case4 c rest _ inside following ih =>
    have solid : c ≠ '.' := by
      rintro rfl
      contradiction
    rw [countP_solid solid, List.length_cons]
    dsimp only [following]
    omega
  | case5 => simp

theorem countP_escaped (word tail : List Char) :
    (word.flatMap dotEscape ++ tail).countP (· != '.') = word.length + tail.countP (· != '.') := by
  induction word with
  | nil => simp
  | cons c rest ih =>
    have one : (dotEscape c).countP (· != '.') = 1 := by
      by_cases dot : c = '.'
      · rw [dotEscape, if_pos dot]
        rfl
      · simp [dotEscape, dot]
    rw [List.flatMap_cons, List.append_assoc, List.countP_append, ih, one, List.length_cons]
    omega

/-- A backslash of a word makes the name too short: what it takes is no dot. -/
theorem not_read_after_escape {word tail : List Char} (ends : EndsName tail)
    (given : (escape (word.flatMap dotEscape ++ tail)).1 = '\\') :
    name (escape (word.flatMap dotEscape ++ tail)).2 ≠ (word, tail) := by
  intro read
  have count := name_count (escape (word.flatMap dotEscape ++ tail)).2
  have total := countP_escaped word tail
  have head : (word.flatMap dotEscape ++ tail).head? ≠ some '.' := by
    cases word with
    | nil => exact ends.head_ne rfl
    | cons c rest => by_cases dot : c = '.' <;> simp [dotEscape, dot]
  rw [read] at count
  generalize word.flatMap dotEscape ++ tail = text at *
  cases text with
  | nil => contradiction
  | cons c rest =>
    have solid : c ≠ '.' := by simpa using head
    have fewer := (escape_cons_suffix c rest).sublist.countP_le (p := (· != '.'))
    rw [countP_solid solid] at total
    dsimp only at count
    omega

/-- What is read as its own name, dots escaped, holds plain characters only. -/
theorem plain_of_name {word tail : List Char} (ends : EndsName tail)
    (read : name (word.flatMap dotEscape ++ tail) = (word, tail)) :
    ∀ c ∈ word, isPlain c = true := by
  induction word with
  | nil => simp
  | cons c rest ih =>
    rw [List.flatMap_cons, List.append_assoc] at read
    rw [List.forall_mem_cons]
    by_cases dot : c = '.'
    · subst dot
      have escaped (after : List Char) : escape ('.' :: after) = ('.', after) := rfl
      have unbroken (after : List Char) : startsWithNewline ('.' :: after) = false := rfl
      rw [dotEscape, if_pos rfl, List.cons_append, List.singleton_append, name_cons, if_pos rfl,
        escaped, unbroken, if_neg Bool.false_ne_true, Prod.mk.injEq, List.cons.injEq] at read
      exact ⟨rfl, ih (Prod.ext read.1.2 read.2)⟩
    · rw [dotEscape, if_neg dot, List.singleton_append, name_cons] at read
      split at read
      · rename_i slash
        split at read
        · simp at read
        · rw [Prod.mk.injEq, List.cons.injEq, slash] at read
          exact absurd (Prod.ext read.1.2 read.2) (not_read_after_escape ends read.1.1)
      · split at read
        · rename_i inside
          rw [Prod.mk.injEq, List.cons.injEq] at read
          have present : c ≠ '\x00' := by
            rintro rfl
            exact absurd read.1.1 (by decide)
          exact ⟨(isPlain_iff dot).2 ⟨inside, present⟩, ih (Prod.ext read.1.2 read.2)⟩
        · simp at read

theorem scan_name_iff {word tail : List Char} (ends : EndsName tail) :
    scan '-' ('-' :: (word.flatMap dotEscape ++ tail)) =
        (.ident (String.ofList ('-' :: '-' :: word)), tail) ↔
      ∀ c ∈ word, isPlain c = true := by
  refine ⟨fun read => plain_of_name ends ?_, fun plain => scan_name plain ends⟩
  obtain ⟨called, left⟩ := name_of_custom (congrArg Prod.fst read)
  rw [String.toList_ofList] at called
  rw [read] at left
  exact Prod.ext (List.cons.inj (List.cons.inj called).2).2.symm left.symm

theorem tokens_cons {start : Nat} {c : Char} {rest : List Char} {first : Css.Token}
    {others : List Css.Token}
    (read : (lexemesFrom start (c :: rest)).map Lexeme.token = first :: others) :
    (scan c rest).1 = first ∧
      ∃ next, (lexemesFrom next (scan c rest).2).map Lexeme.token = others := by
  rw [lexemesFrom_cons, List.map_cons, List.cons.injEq] at read
  exact ⟨read.1, _, read.2⟩

theorem eq_nil_of_tokens {start : Nat} {text : List Char}
    (read : (lexemesFrom start text).map Lexeme.token = []) : text = [] := by
  cases text with
  | nil => rfl
  | cons c rest =>
    rw [lexemesFrom_cons] at read
    contradiction

theorem eq_round_of_tokens {start : Nat} {text : List Char}
    (read : (lexemesFrom start text).map Lexeme.token = [.closing .round]) : text = [')'] := by
  cases text with
  | nil => simp [lexemesFrom] at read
  | cons c rest =>
    obtain ⟨closes, next, none⟩ := tokens_cons read
    have guarded : isGuard c = true := guard_of_scan (by rw [closes]; rfl)
    rw [scan_guard guarded] at closes none
    change punctuation c = .closing .round at closes
    have nothing : rest = [] := eq_nil_of_tokens none
    have round : c = ')' := by
      rcases guard_cases guarded with rfl | rfl | rfl | rfl | rfl | rfl | rfl | rfl | rfl
      all_goals first | rfl | exact absurd closes (by decide)
    rw [nothing, round]

/-! What a name is followed by is left over, so the tokens tell whether the whole word is read. -/

section Word

variable {word : List Char}

theorem tokens_name_iff (start : Nat) :
    (lexemesFrom start ('-' :: '-' :: word.flatMap dotEscape)).map Lexeme.token =
        [.ident (String.ofList ('-' :: '-' :: word))] ↔
      ∀ c ∈ word, isPlain c = true := by
  constructor
  · intro read
    obtain ⟨first, next, none⟩ := tokens_cons read
    have left := eq_nil_of_tokens none
    rw [← List.append_nil (word.flatMap dotEscape)] at first left
    exact (scan_name_iff endsName_nil).1 (Prod.ext first left)
  · intro plain
    have read := lexemesFrom_name plain endsName_nil start
    rw [List.append_nil] at read
    rw [read, lexemesFrom]
    rfl

theorem lexemesFrom_argument (plain : ∀ c ∈ word, isPlain c = true) (start : Nat) :
    ∃ named closer : Lexeme, named.token = .ident (String.ofList ('-' :: '-' :: word)) ∧
      closer.token = .closing .round ∧
      lexemesFrom start ('-' :: '-' :: (word.flatMap dotEscape ++ [')'])) = [named, closer] := by
  have guarded : isGuard ')' = true := rfl
  have read := lexemesFrom_name plain (endsName_guard guarded (by decide) []) start
  rw [lexemesFrom_guard guarded, lexemesFrom] at read
  exact ⟨_, _, rfl, rfl, read⟩

theorem tokens_argument_iff (start : Nat) :
    (lexemesFrom start ('-' :: '-' :: (word.flatMap dotEscape ++ [')']))).map Lexeme.token =
        [.ident (String.ofList ('-' :: '-' :: word)), .closing .round] ↔
      ∀ c ∈ word, isPlain c = true := by
  constructor
  · intro read
    obtain ⟨first, next, last⟩ := tokens_cons read
    exact (scan_name_iff (endsName_guard rfl (by decide) [])).1
      (Prod.ext first (eq_round_of_tokens last))
  · intro plain
    obtain ⟨named, closer, ident, closes, read⟩ := lexemesFrom_argument plain start
    rw [read, List.map_cons, List.map_singleton, ident, closes]

end Word

end DesignTokens

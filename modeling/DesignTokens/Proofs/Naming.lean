import DesignTokens.TokenPath
import DesignTokens.Proofs.Css.Locality
import Mathlib.Data.List.Basic
import Mathlib.Tactic.Tauto

/-!
The names of custom properties. A name is the hyphen-joined word of a path with its dots escaped.
The escapes are read back, so two names are the same exactly when the words are; the word itself
does not tell a hyphen between segments from one inside a segment.
-/

namespace DesignTokens

open DesignTokens.Css

def TokenPath.word (path : TokenPath) : String :=
  joinWith ['-'] path.segments

/-- ASCII letters and digits, the underscore, the hyphen, the dot, and everything outside ASCII. -/
def isPlain (c : Char) : Bool :=
  c.isAlphanum || c = '_' || c = '-' || c = '.' || 0x80 ≤ c.toNat

/-- Dots apart, these are the characters that a name may hold as they are. -/
theorem isPlain_iff {c : Char} (solid : c ≠ '.') :
    isPlain c = true ↔ isNameChar c = true ∧ c ≠ '\x00' := by
  have present : isPlain '\x00' = false := rfl
  constructor
  · intro plain
    refine ⟨?_, fun nul => by simp [nul, present] at plain⟩
    simp only [isPlain, Char.isAlphanum, solid, decide_false, Bool.or_eq_true, decide_eq_true_eq,
      Bool.false_eq_true, or_false] at plain
    simp only [isNameChar, isNameStart, Bool.or_eq_true, decide_eq_true_eq]
    tauto
  · rintro ⟨inside, nul⟩
    simp only [isNameChar, isNameStart, Bool.or_eq_true, decide_eq_true_eq, nul, or_false] at inside
    simp only [isPlain, Char.isAlphanum, Bool.or_eq_true, decide_eq_true_eq]
    tauto

def dotEscape (c : Char) : List Char :=
  if c = '.' then ['\\', '.'] else [c]

theorem toList_escapeDots (text : String) :
    (escapeDots text).toList = text.toList.flatMap dotEscape := by
  rw [escapeDots, String.toList_ofList]
  rfl

theorem flatMap_intercalate {α β : Type} (f : α → List β) (separator : List α)
    (texts : List (List α)) :
    (separator.intercalate texts).flatMap f =
      (separator.flatMap f).intercalate (texts.map fun text => text.flatMap f) := by
  induction texts with
  | nil => rfl
  | cons first rest ih =>
    cases rest with
    | nil => simp
    | cons next rest =>
      simp only [List.map_cons, List.intercalate_cons_cons, List.flatMap_append] at ih ⊢
      rw [ih]

theorem TokenPath.cssVariable_eq (path : TokenPath) :
    path.cssVariable = "--" ++ escapeDots path.word := by
  refine congrArg ("--" ++ ·) (String.toList_injective ?_)
  rw [toList_escapeDots, TokenPath.word, joinWith, joinWith, String.toList_ofList,
    String.toList_ofList, flatMap_intercalate, List.map_map, List.map_map]
  refine congrArg _ (List.map_congr_left fun text _ => ?_)
  exact toList_escapeDots text

theorem TokenPath.toList_cssVariable (path : TokenPath) :
    path.cssVariable.toList = '-' :: '-' :: path.word.toList.flatMap dotEscape := by
  rw [cssVariable_eq, String.toList_append, toList_escapeDots]
  rfl

theorem TokenPath.custom_word (path : TokenPath) :
    "--" ++ path.word = String.ofList ('-' :: '-' :: path.word.toList) :=
  String.toList_injective (by simp)

def TokenPath.Plain (path : TokenPath) : Prop :=
  ∀ segment ∈ path.segments, ∀ c ∈ segment.toList, isPlain c = true

instance (path : TokenPath) : Decidable path.Plain :=
  decidable_of_iff (path.segments.all (·.toList.all isPlain) = true) (by
    simp only [List.all_eq_true, TokenPath.Plain])

/-- A hyphen is plain, so a word is plain just when its segments are. -/
theorem TokenPath.plain_word_iff {path : TokenPath} :
    (∀ c ∈ path.word.toList, isPlain c = true) ↔ path.Plain := by
  rw [TokenPath.word, TokenPath.Plain, joinWith, String.toList_ofList]
  obtain ⟨segments⟩ := path
  have hyphen : isPlain '-' = true := rfl
  induction segments with
  | nil => simp
  | cons first rest ih =>
    cases rest with
    | nil => simp
    | cons next rest =>
      simp only [List.map_cons, List.intercalate_cons_cons, List.append_assoc,
        List.forall_mem_append, List.singleton_append, List.forall_mem_cons, hyphen,
        true_and] at ih ⊢
      exact and_congr_right fun _ => ih

/-- A name that is read takes each escaped dot back, up to a text in which no name starts. -/
theorem name_escaped {text tail : List Char} (plain : ∀ c ∈ text, isPlain c = true)
    (ends : name tail = ([], tail)) : name (text.flatMap dotEscape ++ tail) = (text, tail) := by
  induction text with
  | nil => exact ends
  | cons c text ih =>
    have following := ih fun d member => plain d (List.mem_cons_of_mem _ member)
    have allowed := plain c List.mem_cons_self
    rw [List.flatMap_cons, List.append_assoc]
    by_cases dot : c = '.'
    · subst dot
      have escaped (after : List Char) : escape ('.' :: after) = ('.', after) := rfl
      simp only [dotEscape, if_true, List.cons_append, List.nil_append]
      rw [name_cons, if_pos rfl, escaped, following]
      rfl
    · obtain ⟨inside, present⟩ := (isPlain_iff dot).1 allowed
      have solid : c ≠ '\\' := by
        rintro rfl
        contradiction
      rw [dotEscape, if_neg dot, List.singleton_append, name_cons, if_neg solid, if_pos inside,
        following, readable, if_neg present]

/-- An escaped text starts with no dot, so a backslash before a dot is always that of an escape. -/
theorem dot_not_head (text : List Char) : (text.flatMap dotEscape).head? ≠ some '.' := by
  cases text with
  | nil => simp
  | cons c rest =>
    by_cases dot : c = '.'
    · simp [dotEscape, dot]
    · simp [dotEscape, dot]

def readDots : List Char → List Char
  | '\\' :: '.' :: rest => '.' :: readDots rest
  | c :: rest => c :: readDots rest
  | [] => []

theorem readDots_cons {c : Char} {rest : List Char} (plain : rest.head? ≠ some '.') :
    readDots (c :: rest) = c :: readDots rest := by
  cases rest with
  | nil => simp [readDots]
  | cons d rest =>
    have solid : d ≠ '.' := by simpa using plain
    rw [readDots]
    rintro _ rfl same
    exact solid (List.cons.inj same).1

theorem readDots_escaped (text : List Char) : readDots (text.flatMap dotEscape) = text := by
  induction text with
  | nil => rfl
  | cons c text ih =>
    rw [List.flatMap_cons]
    by_cases dot : c = '.'
    · subst dot
      exact congrArg ('.' :: ·) ih
    · rw [dotEscape, if_neg dot, List.singleton_append, readDots_cons (dot_not_head text), ih]

theorem escapeDots_inj {left right : String} : escapeDots left = escapeDots right ↔ left = right := by
  refine ⟨fun same => String.toList_injective ?_, fun same => by rw [same]⟩
  rw [← readDots_escaped left.toList, ← toList_escapeDots, same, toList_escapeDots,
    readDots_escaped]

def wordOfName (name : String) : String :=
  String.ofList (readDots (name.toList.drop 2))

theorem TokenPath.wordOfName_cssVariable (path : TokenPath) :
    wordOfName path.cssVariable = path.word := by
  refine String.toList_injective ?_
  rw [wordOfName, String.toList_ofList, TokenPath.toList_cssVariable]
  exact readDots_escaped path.word.toList

theorem TokenPath.cssVariable_inj {left right : TokenPath} :
    left.cssVariable = right.cssVariable ↔ left.word = right.word := by
  constructor
  · intro same
    rw [← left.wordOfName_cssVariable, same, right.wordOfName_cssVariable]
  · intro same
    rw [TokenPath.cssVariable_eq, TokenPath.cssVariable_eq, same]

theorem append_separator_inj {α : Type} {separator : α} {left right after later : List α}
    (here : separator ∉ left) (there : separator ∉ right)
    (same : left ++ separator :: after = right ++ separator :: later) :
    left = right ∧ after = later := by
  induction left generalizing right with
  | nil =>
    cases right with
    | nil => exact ⟨rfl, (List.cons.inj same).2⟩
    | cons d rest => exact absurd (List.cons.inj same).1 (List.ne_of_not_mem_cons there)
  | cons c rest ih =>
    cases right with
    | nil => exact absurd (List.cons.inj same).1.symm (List.ne_of_not_mem_cons here)
    | cons d others =>
      obtain ⟨first, tail⟩ := List.cons.inj same
      obtain ⟨equal, following⟩ := ih (List.not_mem_of_not_mem_cons here)
        (List.not_mem_of_not_mem_cons there) tail
      exact ⟨by rw [first, equal], following⟩

theorem joinWith_injective {separator : Char} {left right : List String} (filled : left ≠ [])
    (some : right ≠ []) (free : ∀ text ∈ left ++ right, separator ∉ text.toList)
    (same : joinWith [separator] left = joinWith [separator] right) : left = right := by
  have lists := congrArg String.toList same
  rw [joinWith, joinWith, String.toList_ofList, String.toList_ofList] at lists
  clear same
  induction left generalizing right with
  | nil => contradiction
  | cons first rest ih =>
    obtain ⟨other, others, rfl⟩ := List.exists_cons_of_ne_nil some
    have here : separator ∉ first.toList := free first (by simp)
    have there : separator ∉ other.toList := free other (by simp)
    cases rest with
    | nil =>
      cases others with
      | nil =>
        have texts : first.toList = other.toList := by simpa using lists
        rw [String.toList_injective texts]
      | cons next others =>
        simp only [List.map_cons, List.map_nil, List.intercalate_singleton,
          List.intercalate_cons_cons] at lists
        exact absurd (by rw [lists]; simp) here
    | cons next rest =>
      cases others with
      | nil =>
        simp only [List.map_cons, List.map_nil, List.intercalate_singleton,
          List.intercalate_cons_cons] at lists
        exact absurd (by rw [← lists]; simp) there
      | cons last others =>
        simp only [List.map_cons, List.intercalate_cons_cons, List.append_assoc,
          List.singleton_append] at lists ih
        obtain ⟨head, tail⟩ := append_separator_inj here there lists
        rw [String.toList_injective head]
        refine congrArg _ (ih (List.cons_ne_nil _ _) (List.cons_ne_nil _ _) (fun text member => ?_)
          tail)
        refine free text ?_
        simp only [List.mem_append, List.mem_cons] at member ⊢
        tauto

theorem eq_of_joinWith_empty {separator : Char} {texts : List String} (filled : texts ≠ [])
    (nothing : joinWith [separator] texts = "") : texts = [""] := by
  obtain ⟨first, others, rfl⟩ := List.exists_cons_of_ne_nil filled
  have letters := congrArg String.toList nothing
  rw [joinWith, String.toList_ofList] at letters
  cases others with
  | nil =>
    have none : first.toList = [] := by simpa using letters
    rw [String.toList_eq_nil_iff.1 none]
  | cons next others =>
    rw [List.map_cons, List.map_cons, List.intercalate_cons_cons] at letters
    exact absurd letters (by simp)

/-- Two paths with one word are the same unless a segment has a hyphen, or one of them has no
segment and the other one that is empty. -/
theorem TokenPath.hyphen_of_word {left right : TokenPath} (same : left.word = right.word)
    (different : left ≠ right) :
    (∃ segment ∈ left.segments ++ right.segments, '-' ∈ segment.toList) ∨
      left.segments ++ right.segments = [""] := by
  obtain ⟨left⟩ := left
  obtain ⟨right⟩ := right
  have apart : left ≠ right := fun equal => different (by rw [equal])
  simp only [TokenPath.word] at same
  by_cases first : left = []
  · subst first
    exact Or.inr (eq_of_joinWith_empty apart.symm same.symm)
  by_cases second : right = []
  · subst second
    rw [List.append_nil]
    exact Or.inr (eq_of_joinWith_empty apart same)
  refine Or.inl ?_
  by_contra none
  exact apart (joinWith_injective first second
    (fun segment member inside => none ⟨segment, member, inside⟩) same)

/-- Two paths have one name exactly when their segments are joined to one word, which can be read
back from the name. Escaping the dots keeps all texts apart, and so does joining as long as no
segment has a hyphen; but no segment is joined to the same word as one empty segment. -/
theorem same_name_iff_same_word (left right : TokenPath) :
    (left.cssVariable = right.cssVariable ↔
      joinWith ['-'] left.segments = joinWith ['-'] right.segments) ∧
    wordOfName left.cssVariable = joinWith ['-'] left.segments ∧
    (∀ one other, escapeDots one = escapeDots other ↔ one = other) ∧
    (left.cssVariable = right.cssVariable → left ≠ right →
      (∃ segment ∈ left.segments ++ right.segments, '-' ∈ segment.toList) ∨
        left.segments ++ right.segments = [""]) := by
  have named : left.cssVariable = right.cssVariable ↔ left.word = right.word :=
    TokenPath.cssVariable_inj
  refine ⟨named, left.wordOfName_cssVariable, fun one other => escapeDots_inj, ?_⟩
  intro same different
  exact TokenPath.hyphen_of_word (named.1 same) different

/-- A backslash before a dot is kept apart from the backslash of an escape. -/
example : (TokenPath.mk ["a\\.b"]).cssVariable ≠ (TokenPath.mk ["a.b"]).cssVariable ∧
    (TokenPath.mk ["a-b"]).cssVariable = (TokenPath.mk ["a", "b"]).cssVariable := by
  decide +kernel

end DesignTokens

import DesignTokens.Proofs.CallSites
import DesignTokens.Proofs.Text.Cutting
import Mathlib.Data.List.Basic

/-!
The call sites in a value. The blanks around a value hold no call and cut none short, so the calls
of a value are those of its trimmed text, as long as trimming takes off whole tokens at the start.
-/

namespace DesignTokens

open DesignTokens.Css DesignTokens.Text

def CallSite.moved (offset : Nat) (site : CallSite) : CallSite :=
  ⟨site.name, site.start + offset⟩

theorem lexemesFrom_callSites (offset : Nat) (text : List Char) :
    (lexemesFrom offset text).filterMap Lexeme.callSite? =
      (callSites text).map (CallSite.moved offset) := by
  have moved := lexemesFrom_shift 0 offset text
  rw [Nat.zero_add] at moved
  rw [moved, callSites, lexemes, List.filterMap_map, List.map_filterMap]
  apply List.filterMap_congr
  intro lexeme _
  simp only [Function.comp_apply, Lexeme.callSite?, Lexeme.shift, Option.map_map]
  rfl

/-- A reserved function starts with a hyphen or an escape. -/
theorem reserved_head {c : Char} {rest : List Char} {reserved : ReservedName}
    (found : (scan c rest).1 = .function reserved.text) : isBlank c = false := by
  have named := (name_of_function found).2
  rw [name_cons] at named
  by_cases escape : c = '\\'
  · rw [escape]
    rfl
  · rw [if_neg escape] at named
    split at named
    · have first := congrArg (fun read => read.1.head?) named
      have hyphen : reserved.text.toList.head? = some '-' := by cases reserved <;> rfl
      simp only [List.head?_cons, hyphen, Option.some.injEq, readable] at first
      split at first
      · exact absurd first (by decide)
      · rw [first]
        rfl
    · have empty := congrArg (fun read => read.1.length) named
      cases reserved <;> simp [ReservedName.text] at empty

theorem reserved_text {start : Nat} {text : List Char} {lexeme : Lexeme} {reserved : ReservedName}
    (member : lexeme ∈ lexemesFrom start text)
    (called : lexeme.token = .function reserved.text) :
    (∃ c rest, lexeme.text = c :: rest ∧ isBlank c = false) ∧
      ∃ written, lexeme.text = written ++ ['('] := by
  obtain ⟨begins, c, rest, rfl⟩ := lexeme_scanned member
  refine ⟨?_, function_text called⟩
  cases shape : consumed (c :: rest) (scan c rest).2 with
  | nil => exact absurd shape (consumed_scan_ne_nil c rest)
  | cons first more =>
    have whole := consumed_scan c rest
    rw [shape, List.cons_append, List.cons.injEq] at whole
    refine ⟨first, more, shape, ?_⟩
    rw [whole.1]
    exact reserved_head called

theorem callSite_in_trimmed {start : Nat} {text : List Char} {before after : List Lexeme}
    {lexeme : Lexeme} {reserved : ReservedName}
    (member : lexeme ∈ lexemesFrom start text)
    (called : lexeme.token = .function reserved.text) {lead kept trailing : List Char}
    (whole : lexemeText (before ++ lexeme :: after) = lead ++ kept ++ trailing)
    (clear : ∀ c ∈ lead, isBlank c = true) (clean : ∀ c ∈ trailing, isBlank c = true) :
    byteLength lead ≤ byteLength (lexemeText before) ∧
      byteLength (lexemeText before) < byteLength lead + byteLength kept := by
  obtain ⟨⟨c, rest, first, solid⟩, written, last⟩ := reserved_text member called
  rw [lexemeText_append, lexemeText_cons] at whole
  have width := byteLength_pos (List.append_ne_nil_of_right_ne_nil written (List.cons_ne_nil '(' []))
  rw [← last] at width
  constructor
  · rw [List.append_assoc] at whole
    rcases List.append_eq_append_iff.1 whole with ⟨middle, one, two⟩ | ⟨middle, one, two⟩
    · cases middle with
      | nil =>
        rw [one, List.append_nil]
      | cons d middle =>
        have same : c = d := by
          rw [first, List.cons_append, List.cons_append, List.cons.injEq] at two
          exact two.1
        have blank := clear d (by rw [one]; simp)
        rw [← same, solid] at blank
        contradiction
    · rw [one, byteLength_append]
      exact Nat.le_add_right _ _
  · rw [← List.append_assoc] at whole
    rcases List.append_eq_append_iff.1 whole with ⟨middle, one, two⟩ | ⟨middle, one, two⟩
    · have size := congrArg byteLength one
      simp only [byteLength_append] at size
      omega
    · rcases List.eq_nil_or_concat middle with rfl | ⟨inner, d, rfl⟩
      · have size := congrArg byteLength one
        simp only [byteLength_append, byteLength_nil] at size
        omega
      · have ends := congrArg List.getLast? one
        rw [last, List.concat_eq_append, ← List.append_assoc, List.getLast?_concat,
          ← List.append_assoc, List.getLast?_concat, Option.some.injEq] at ends
        have blank := clean d (by rw [two]; simp)
        rw [← ends] at blank
        contradiction

theorem filled_of_contiguous {start : Nat} {run : List Lexeme} (placed : Contiguous start run) :
    ∀ lexeme ∈ run, lexeme.text ≠ [] := by
  induction run generalizing start with
  | nil => simp
  | cons lexeme rest ih => exact List.forall_mem_cons.2 ⟨placed.2.1, ih placed.2.2⟩

theorem cut_order {left right first second : List Lexeme} (filled : ∀ lexeme ∈ left, lexeme.text ≠ [])
    (same : left ++ right = first ++ second)
    (shorter : byteLength (lexemeText left) ≤ byteLength (lexemeText first)) :
    ∃ middle, first = left ++ middle ∧ right = middle ++ second := by
  rcases List.append_eq_append_iff.1 same with ⟨middle, one, two⟩ | ⟨middle, one, two⟩
  · exact ⟨middle, one, two⟩
  · cases middle with
    | nil => exact ⟨[], by simpa using one.symm, by simpa using two.symm⟩
    | cons lexeme rest =>
      have positive := byteLength_pos (filled lexeme (by rw [one]; simp))
      rw [one, lexemeText_append, byteLength_append, lexemeText_cons, byteLength_append] at shorter
      omega

theorem cut_run {text : List Char} {before run after : List Lexeme}
    (whole : lexemes text = before ++ run ++ after) {lead rest : List Char}
    (spelled : lexemeText run = lead ++ rest) {lexeme : Lexeme} (member : lexeme ∈ lexemes text)
    (begins : lexeme.start = byteLength (lexemeText before) + byteLength lead) :
    ∃ one two, run = one ++ two ∧ lexemeText one = lead ∧ lexemeText two = rest := by
  have placed := contiguous_lexemesFrom 0 text
  have filled := filled_of_contiguous placed
  rw [show lexemesFrom 0 text = lexemes text from rfl] at placed filled
  obtain ⟨left, right, split⟩ := List.append_of_mem member
  have start : lexeme.start = byteLength (lexemeText left) := by
    rw [split, contiguous_append] at placed
    rw [placed.2.1, Nat.zero_add]
  rw [whole] at split filled
  rw [List.append_assoc] at split
  obtain ⟨one, shape, further⟩ := cut_order (fun lexeme found => filled lexeme (by simp [found]))
    split (by omega)
  have size : byteLength (lexemeText one) = byteLength lead := by
    rw [shape, lexemeText_append, byteLength_append] at start
    omega
  have width := congrArg byteLength spelled
  rw [byteLength_append] at width
  obtain ⟨two, cut, _⟩ := cut_order (fun lexeme found => filled lexeme (by
    have among : lexeme ∈ run ++ after := by
      rw [further]
      exact List.mem_append_left _ found
    rw [List.append_assoc]
    exact List.mem_append_right _ among)) further.symm (by omega)
  rw [cut, lexemeText_append] at spelled
  obtain ⟨here, there⟩ := append_inj_byteLength spelled size
  exact ⟨one, two, cut, here, there⟩

/-- The calls of a value are the calls of its trimmed text if a token starts where that does. -/
theorem value_callSites {text : List Char} {before run after : List Lexeme}
    (whole : lexemes text = before ++ run ++ after) {lead kept trailing : List Char}
    (spelled : lexemeText run = lead ++ kept ++ trailing)
    (clear : ∀ c ∈ lead, isBlank c = true) (clean : ∀ c ∈ trailing, isBlank c = true)
    {lexeme : Lexeme} (member : lexeme ∈ lexemes text)
    (begins : lexeme.start = byteLength (lexemeText before) + byteLength lead) :
    run.filterMap Lexeme.callSite? =
      (callSites kept).map
        (CallSite.moved (byteLength (lexemeText before) + byteLength lead)) := by
  have roundless {blanks : List Char} (all : ∀ c ∈ blanks, isBlank c = true) : '(' ∉ blanks :=
    fun found => absurd (all _ found) (by decide)
  rw [List.append_assoc] at spelled
  obtain ⟨one, two, rfl, first, second⟩ := cut_run whole spelled member begins
  have read : lexemesFrom 0 text = before ++ (one ++ (two ++ after)) := by
    rw [← List.append_assoc, ← List.append_assoc, List.append_assoc before]
    exact whole
  have leading := lexemesFrom_suffix read
  have nothing := no_callSites leading (by rw [first]; exact roundless clear)
  have following := lexemesFrom_suffix leading
  rw [lexemeText_append, second, first, Nat.zero_add] at following
  have same := callSites_run following second (roundless clean)
  rw [List.filterMap_append, nothing, List.nil_append, same, lexemesFrom_callSites]

end DesignTokens

import DesignTokens.Call
import DesignTokens.Proofs.Css.FunctionToken

/-!
The reserved function tokens of a text. They are what a style sheet calls, however deeply nested,
and they do not change with what comes after the last round bracket.
-/

namespace DesignTokens

open DesignTokens.Css DesignTokens.Text

structure CallSite where
  name : ReservedName
  start : Nat
  deriving DecidableEq, Repr

def reservedToken? : Css.Token → Option ReservedName
  | .function called => ReservedName.ofText? called
  | _ => none

def Css.Lexeme.callSite? (lexeme : Lexeme) : Option CallSite :=
  (reservedToken? lexeme.token).map fun name => ⟨name, lexeme.start⟩

def callSites (text : List Char) : List CallSite :=
  (lexemes text).filterMap Lexeme.callSite?

theorem function_of_reservedToken? {token : Css.Token} {name : ReservedName}
    (found : reservedToken? token = some name) : token = .function name.text := by
  unfold reservedToken? at found
  split at found
  · rw [ReservedName.eq_text_of_ofText? found]
  · contradiction

theorem reservedToken?_function (name : ReservedName) :
    reservedToken? (.function name.text) = some name :=
  ReservedName.ofText?_text name

theorem Css.Lexeme.callSite?_eq_some_iff {lexeme : Lexeme} {site : CallSite} :
    lexeme.callSite? = some site ↔
      lexeme.token = .function site.name.text ∧ lexeme.start = site.start := by
  rw [Lexeme.callSite?, Option.map_eq_some_iff]
  constructor
  · rintro ⟨name, found, rfl⟩
    exact ⟨function_of_reservedToken? found, rfl⟩
  · rintro ⟨called, start⟩
    refine ⟨site.name, ?_, ?_⟩
    · rw [called, reservedToken?_function]
    · rw [start]

theorem mem_callSites {text : List Char} {site : CallSite} :
    site ∈ callSites text ↔ ∃ lexeme ∈ lexemes text,
      lexeme.token = .function site.name.text ∧ lexeme.start = site.start := by
  simp only [callSites, List.mem_filterMap, Lexeme.callSite?_eq_some_iff]

theorem reserved_ordinary (name : ReservedName) : sameIgnoringCase name.text "url" = false := by
  cases name <;> decide +kernel

theorem no_callSites {start : Nat} {text : List Char} {run following : List Lexeme}
    (read : lexemesFrom start text = run ++ following) (free : '(' ∉ lexemeText run) :
    run.filterMap Lexeme.callSite? = [] := by
  apply List.filterMap_eq_nil_iff.2
  intro lexeme member
  cases found : lexeme.callSite? with
  | none => rfl
  | some site =>
    obtain ⟨begins, c, rest, rfl⟩ := lexeme_scanned (by
      rw [read]
      exact List.mem_append_left _ member)
    obtain ⟨written, text⟩ := function_text (Lexeme.callSite?_eq_some_iff.1 found).1
    refine absurd (List.mem_flatMap.2 ⟨_, member, ?_⟩) free
    rw [firstLexeme, text]
    simp

/-- A reserved function is read at a round bracket whatever comes after it. -/
theorem reservedToken?_elsewhere {c : Char} {before taken after : List Char} {name : ReservedName}
    (found : reservedToken? (scan c (before ++ '(' :: after)).1 = some name)
    (whole : taken ++ (scan c (before ++ '(' :: after)).2 = after) (free : '(' ∉ taken)
    (other : List Char) : reservedToken? (scan c (before ++ '(' :: other)).1 = some name := by
  have called := function_of_reservedToken? found
  have ends := function_ends_at_round called whole free
  rw [scan_function_elsewhere ends (reserved_ordinary name), reservedToken?_function]

theorem exists_last_round {text : List Char} (member : '(' ∈ text) :
    ∃ before tail, text = before ++ '(' :: tail ∧ '(' ∉ tail := by
  obtain ⟨tail, before, shape, free⟩ :=
    List.eq_append_cons_of_mem (List.mem_reverse.2 member)
  refine ⟨before.reverse, tail.reverse, ?_, by simpa using free⟩
  have turned := congrArg List.reverse shape
  simpa using turned

/-- Where a token takes in a round bracket, the call sites after it are those without the bracket,
and the token is the same call with any text after the bracket. -/
theorem callSites_passed {c : Char} {before tail : List Char} (free : '(' ∉ tail)
    (passes : Passes '(' (scan c) before) {start : Nat} {dropped after : List Char}
    (clean : '(' ∉ dropped) {lexeme : Lexeme} {run following : List Lexeme}
    (first : firstLexeme start c (before ++ '(' :: (tail ++ dropped ++ after)) = lexeme)
    (next : lexemesFrom lexeme.stop (scan c (before ++ '(' :: (tail ++ dropped ++ after))).2 =
      run ++ following)
    (text : lexeme.text ++ lexemeText run = c :: before ++ '(' :: tail ++ dropped) :
    (lexeme :: run).filterMap Lexeme.callSite? =
      (lexemesFrom start (c :: (before ++ '(' :: tail))).filterMap Lexeme.callSite? := by
  obtain ⟨taken, split⟩ := passes (tail ++ dropped ++ after)
  obtain ⟨short, also⟩ := passes tail
  have whole := consumed_scan c (before ++ '(' :: (tail ++ dropped ++ after))
  have spelled : lexeme.text = c :: before ++ '(' :: taken := by
    rw [← first]
    refine List.append_cancel_right (whole.trans ?_)
    calc c :: (before ++ '(' :: (tail ++ dropped ++ after))
        = c :: (before ++ '(' :: (taken ++
            (scan c (before ++ '(' :: (tail ++ dropped ++ after))).2)) := by rw [split]
      _ = _ := by simp
  have remaining : taken ++ lexemeText run = tail ++ dropped := by
    rw [spelled] at text
    simpa using text
  have absent : '(' ∉ taken ++ lexemeText run := by
    rw [remaining]
    simp [free, clean]
  rw [List.mem_append, not_or] at absent
  have absentElsewhere : '(' ∉ short ++ (scan c (before ++ '(' :: tail)).2 := by rwa [also]
  rw [List.mem_append, not_or] at absentElsewhere
  have nothing := no_callSites next absent.2
  have nothingElsewhere := no_callSites
    (lexemesFrom (firstLexeme start c (before ++ '(' :: tail)).stop
      (scan c (before ++ '(' :: tail)).2).append_nil.symm
    (by rw [lexemeText_lexemesFrom]; exact absentElsewhere.2)
  have same : lexeme.callSite? = (firstLexeme start c (before ++ '(' :: tail)).callSite? := by
    have token : reservedToken? (scan c (before ++ '(' :: (tail ++ dropped ++ after))).1 =
        reservedToken? (scan c (before ++ '(' :: tail)).1 := by
      ext name
      exact ⟨fun found => reservedToken?_elsewhere found split absent.1 tail,
        fun found => reservedToken?_elsewhere found also absentElsewhere.1 _⟩
    rw [← first]
    simp only [Lexeme.callSite?, firstLexeme, token]
  rw [lexemesFrom_cons, List.filterMap_cons, nothing, List.filterMap_cons, nothingElsewhere, same]

theorem lexeme_stopped {c : Char} {before left tail : List Char} {value : Css.Token}
    (stops : ∀ after, scan c (before ++ '(' :: after) = (value, left ++ '(' :: after)) {start : Nat}
    {dropped after : List Char} {lexeme : Lexeme} {run following : List Lexeme}
    (first : firstLexeme start c (before ++ '(' :: (tail ++ dropped ++ after)) = lexeme)
    (next : lexemesFrom lexeme.stop (scan c (before ++ '(' :: (tail ++ dropped ++ after))).2 =
      run ++ following)
    (text : lexeme.text ++ lexemeText run = c :: before ++ '(' :: tail ++ dropped) :
    firstLexeme start c (before ++ '(' :: tail) = lexeme ∧
      lexemesFrom lexeme.stop (left ++ '(' :: tail ++ dropped ++ after) = run ++ following ∧
      lexemeText run = left ++ '(' :: tail ++ dropped := by
  obtain ⟨taken, rfl⟩ : ∃ taken, taken ++ left = before := by
    obtain ⟨taken, whole⟩ := scan_suffix c (before ++ ['('])
    rw [stops [], ← List.append_assoc] at whole
    exact ⟨taken, List.append_cancel_right whole⟩
  have here := firstLexeme_before_guard round_guard start (congrArg Prod.snd (stops []))
  rw [stops] at next
  have spelled : lexeme.text = c :: taken := by
    rw [← first, (here _).1]
  refine ⟨by rw [← first, (here _).1, (here _).1], by simpa using next, ?_⟩
  rw [spelled] at text
  refine List.append_cancel_left (text.trans ?_)
  simp

/-- The call sites in a run of lexemes are those of its text alone, also without an end of the text
in which there is no round bracket. -/
theorem callSites_run {start : Nat} {kept dropped after : List Char} {run following : List Lexeme}
    (read : lexemesFrom start (kept ++ dropped ++ after) = run ++ following)
    (text : lexemeText run = kept ++ dropped) (free : '(' ∉ dropped) :
    run.filterMap Lexeme.callSite? = (lexemesFrom start kept).filterMap Lexeme.callSite? := by
  -- Only a token that takes in the last bracket can go on into what is dropped.
  induction run generalizing start kept with
  | nil =>
    have empty : kept = [] := (List.append_eq_nil_iff.1 text.symm).1
    rw [empty, lexemesFrom]
  | cons lexeme run ih =>
    by_cases round : '(' ∈ kept
    · obtain ⟨before, tail, rfl, last⟩ := exists_last_round round
      cases before with
      | nil =>
        simp only [List.nil_append, List.cons_append] at read text ⊢
        rw [lexemesFrom_guard round_guard, List.cons.injEq] at read
        obtain ⟨rfl, next⟩ := read
        have spelled : lexemeText run = tail ++ dropped := (List.cons.inj text).2
        have nothing := no_callSites next (by
          rw [spelled]
          simp [last, free])
        have also := no_callSites (lexemesFrom (start + '('.utf8Size) tail).append_nil.symm (by
          rwa [lexemeText_lexemesFrom])
        rw [lexemesFrom_guard round_guard, List.filterMap_cons, nothing, List.filterMap_cons, also]
      | cons c before =>
        have whole : c :: before ++ '(' :: tail ++ dropped ++ after =
            c :: (before ++ '(' :: (tail ++ dropped ++ after)) := by simp
        rw [whole, lexemesFrom_cons, List.cons_append, List.cons.injEq] at read
        obtain ⟨first, next⟩ := read
        rw [first] at next
        rcases scan_decided round_guard c before with ⟨value, left, stops⟩ | passes
        · obtain ⟨same, later, spelled⟩ := lexeme_stopped stops first next text
          rw [List.cons_append, lexemesFrom_cons, same, stops, List.filterMap_cons,
            List.filterMap_cons, ih later spelled]
        · exact callSites_passed last passes free first next text
    · have nothing := no_callSites read (by rw [text]; simp [round, free])
      have also := no_callSites (lexemesFrom start kept).append_nil.symm (by
        rwa [lexemeText_lexemesFrom])
      rw [nothing, also]

end DesignTokens

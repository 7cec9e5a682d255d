import DesignTokens.Proofs.Css.Locality

/-!
The text of a name by itself. A name that ends inside a longer text is read to its end as the same
name when nothing comes after it, whatever its escapes are. A name without escapes is its own text.
-/

namespace DesignTokens.Css

open DesignTokens.Text

theorem dropOneSpace_cons (c : Char) (rest : List Char) :
    dropOneSpace (c :: rest) =
      if c = '\r' ∧ rest.head? = some '\n' then rest.tail
      else if isSpace c then rest else c :: rest :=
  dropUnit_cons isSpace c rest

theorem dropOneSpace_solid {c : Char} (solid : isSpace c = false) (rest : List Char) :
    dropOneSpace (c :: rest) = c :: rest := by
  have other : c ≠ '\r' := by
    intro same
    rw [same] at solid
    contradiction
  rw [dropOneSpace_cons, if_neg (fun both => other both.1), solid, if_neg Bool.false_ne_true]

theorem dropOneSpace_blank {c : Char} (blank : isSpace c = true) (rest : List Char) :
    (dropOneSpace (c :: rest)).length < (c :: rest).length := by
  rw [dropOneSpace_cons, blank, List.length_cons]
  split
  · rw [List.length_tail]
    omega
  · exact Nat.lt_succ_self rest.length

/-! What a reader takes does not depend on how much of the text after it is there. -/

section Within

variable {kept more : List Char} (within : kept <+: more)
include within

theorem dropOneSpace_within {gone : List Char} (dropped : dropOneSpace (gone ++ more) = more) :
    dropOneSpace (gone ++ kept) = kept := by
  cases gone with
  | nil =>
    cases kept with
    | nil => rfl
    | cons c kept =>
      obtain ⟨beyond, rfl⟩ := within
      cases blank : isSpace c with
      | false => exact dropOneSpace_solid blank kept
      | true =>
        have shorter := dropOneSpace_blank blank (kept ++ beyond)
        rw [← List.cons_append, ← List.nil_append (c :: kept ++ beyond), dropped] at shorter
        exact absurd shorter (Nat.lt_irrefl _)
  | cons c gone =>
    rw [List.cons_append, dropOneSpace_cons] at dropped ⊢
    by_cases pair : c = '\r' ∧ (gone ++ more).head? = some '\n'
    · rw [if_pos pair] at dropped
      cases gone with
      | nil =>
        obtain ⟨rest, rfl⟩ := List.head?_eq_some_iff.1 pair.2
        have length := congrArg List.length dropped
        simp at length
      | cons d gone =>
        rw [List.cons_append, List.tail_cons, List.append_left_eq_self] at dropped
        rw [dropped]
        exact if_pos pair
    · rw [if_neg pair] at dropped
      split at dropped
      · rename_i blank
        rw [List.append_left_eq_self] at dropped
        subst dropped
        rw [List.nil_append, if_neg, if_pos blank]
        intro both
        refine pair ⟨both.1, ?_⟩
        obtain ⟨rest, rfl⟩ := List.head?_eq_some_iff.1 both.2
        obtain ⟨beyond, rfl⟩ := within
        rfl
      · have length := congrArg List.length dropped
        rw [List.length_cons, List.length_append] at length
        omega

theorem takeWhile_take_within {p : Char → Bool} {count : Nat} {digits : List Char}
    (taken : ((digits ++ more).take count).takeWhile p = digits) :
    ((digits ++ kept).take count).takeWhile p = digits := by
  induction digits generalizing count with
  | nil =>
    obtain ⟨beyond, rfl⟩ := within
    cases kept with
    | nil => simp
    | cons c kept =>
      cases count with
      | zero => rfl
      | succ count =>
        simp only [List.nil_append, List.cons_append, List.take_succ_cons, List.takeWhile_cons]
          at taken ⊢
        split at taken
        · contradiction
        · rename_i stop
          rw [if_neg stop]
  | cons d digits ih =>
    cases count with
    | zero => simp at taken
    | succ count =>
      rw [List.cons_append, List.take_succ_cons, List.takeWhile_cons] at taken ⊢
      split at taken
      · rename_i allowed
        rw [if_pos allowed, ih (List.cons.inj taken).2]
      · contradiction

theorem escape_within {taken : List Char} {c : Char} (filled : taken ≠ [])
    (read : escape (taken ++ more) = (c, more)) : escape (taken ++ kept) = (c, kept) := by
  obtain ⟨d, taken, rfl⟩ := List.exists_cons_of_ne_nil filled
  rw [List.cons_append, escape] at read ⊢
  split at read
  · rename_i hex
    rw [if_pos hex]
    dsimp only at read ⊢
    generalize found : ((d :: (taken ++ more)).take 6).takeWhile isHexDigit = digits at read
    obtain ⟨after, split⟩ : digits <+: d :: (taken ++ more) :=
      found ▸ (List.takeWhile_prefix _).trans (List.take_prefix _ _)
    rw [← split, List.drop_left, Prod.mk.injEq] at read
    obtain ⟨code, dropped⟩ := read
    obtain ⟨gone, parts⟩ := dropOneSpace_suffix after
    rw [dropped] at parts
    subst parts
    have text : digits ++ gone = d :: taken := by
      rw [← List.append_assoc, ← List.cons_append] at split
      exact List.append_cancel_right split
    have whole : d :: (taken ++ kept) = digits ++ (gone ++ kept) := by
      rw [← List.append_assoc, text, List.cons_append]
    have same : ((digits ++ (gone ++ kept)).take 6).takeWhile isHexDigit = digits := by
      apply takeWhile_take_within ((List.prefix_append_right_inj gone).2 within)
      rw [← List.append_assoc, text, List.cons_append, found]
    rw [whole, same, List.drop_left, dropOneSpace_within within dropped, code]
  · rename_i hex
    rw [if_neg hex]
    rw [Prod.mk.injEq, List.append_left_eq_self] at read
    rw [read.1, read.2, List.nil_append]

end Within

theorem startsWithNewline_append {text : List Char} (filled : text ≠ []) (rest : List Char) :
    startsWithNewline (text ++ rest) = startsWithNewline text := by
  obtain ⟨c, text, rfl⟩ := List.exists_cons_of_ne_nil filled
  rfl

theorem escape_cons_suffix (c : Char) (rest : List Char) : (escape (c :: rest)).2 <:+ rest := by
  rw [escape]
  split
  · rename_i digit
    have first : ((c :: rest).take 6).takeWhile isHexDigit =
        c :: (rest.take 5).takeWhile isHexDigit := by
      rw [List.take_succ_cons, List.takeWhile_cons_of_pos digit]
    simp only [first, List.length_cons, List.drop_succ_cons]
    exact (dropOneSpace_suffix _).trans (List.drop_suffix _ _)
  · exact List.suffix_refl _

theorem escape_taken {text rest : List Char} {c : Char} (filled : text ≠ [])
    (read : escape text = (c, rest)) : ∃ taken, taken ≠ [] ∧ text = taken ++ rest := by
  obtain ⟨d, text, rfl⟩ := List.exists_cons_of_ne_nil filled
  obtain ⟨taken, split⟩ := escape_cons_suffix d text
  rw [read] at split
  exact ⟨d :: taken, List.cons_ne_nil d taken, by rw [List.cons_append, split]⟩

/-- An escape that ends before a later text is read the same without that text. -/
theorem escape_alone {taken kept rest : List Char} {c : Char} (filled : rest ≠ [])
    (read : escape (taken ++ rest) = (c, kept ++ rest)) :
    taken ≠ [] ∧ escape taken = (c, kept) := by
  obtain ⟨gone, some_gone, split⟩ := escape_taken (by simp [filled]) read
  rw [← List.append_assoc] at split
  have parts := List.append_cancel_right split
  rw [parts] at read ⊢
  constructor
  · simp [some_gone]
  · apply escape_within (List.prefix_append kept rest) some_gone
    rwa [List.append_assoc] at read

/-- A name is read the same when nothing comes after it. -/
theorem name_alone {taken rest value : List Char} (read : name (taken ++ rest) = (value, rest)) :
    name taken = (value, []) := by
  cases rest with
  | nil => rwa [List.append_nil] at read
  | cons e rest =>
    generalize whole : taken ++ e :: rest = text at read
    revert taken value
    fun_induction name text with
    | case1 =>
      intro taken value whole read
      simp at whole
    | case2 text broken =>
      intro taken value whole read
      obtain ⟨rfl, same⟩ := Prod.mk.inj read
      rw [same, List.append_left_eq_self] at whole
      rw [whole, name]
    | case3 text unbroken _ following =>
      rename_i ih
      intro taken value whole read
      obtain ⟨same, last⟩ := Prod.mk.inj read
      obtain ⟨kept, inner⟩ := name_suffix (escape text).2
      rw [show (name (escape text).2).2 = e :: rest from last] at inner
      cases taken with
      | nil =>
        have length := congrArg List.length (List.cons.inj whole).2
        have longer := (escape_suffix text).length_le
        rw [← inner, ← length, List.length_append, List.length_cons] at longer
        omega
      | cons c taken =>
        obtain ⟨rfl, tail⟩ := List.cons.inj whole
        have read : escape (taken ++ e :: rest) = ((escape text).1, kept ++ e :: rest) :=
          Prod.ext (congrArg (fun text => (escape text).1) tail)
            ((congrArg (fun text => (escape text).2) tail).trans inner.symm)
        obtain ⟨filled, first⟩ := escape_alone (List.cons_ne_nil e rest) read
        have unbroken : ¬startsWithNewline taken = true := by
          rw [← startsWithNewline_append filled (e :: rest)]
          rwa [show taken ++ e :: rest = text from tail]
        rw [name_cons, if_pos rfl, if_neg unbroken, first, ih inner (Prod.ext rfl last), ← same]
    | case4 c text slash inside following =>
      rename_i ih
      intro taken value whole read
      obtain ⟨same, last⟩ := Prod.mk.inj read
      cases taken with
      | nil =>
        obtain ⟨rfl, tail⟩ := List.cons.inj whole
        have shorter := (name_suffix text).length_le
        rw [show (name text).2 = e :: rest from last, ← tail, List.length_cons] at shorter
        exact absurd shorter (Nat.not_succ_le_self _)
      | cons d taken =>
        obtain ⟨rfl, tail⟩ := List.cons.inj whole
        rw [name_cons, if_neg slash, if_pos inside, ih tail (Prod.ext rfl last), ← same]
    | case5 c text _ _ =>
      intro taken value whole read
      obtain ⟨rfl, same⟩ := Prod.mk.inj read
      rw [same, List.append_left_eq_self] at whole
      rw [whole, name]

theorem name_plain {text value : List Char} (slash : '\\' ∉ text) (nul : '\x00' ∉ text)
    (read : name text = (value, [])) : value = text := by
  induction text generalizing value with
  | nil =>
    rw [name] at read
    exact (Prod.mk.inj read).1.symm
  | cons c rest ih =>
    rw [List.mem_cons, not_or] at slash nul
    rw [name_cons, if_neg (Ne.symm slash.1)] at read
    split at read
    · obtain ⟨same, last⟩ := Prod.mk.inj read
      have tail : (name rest).1 = rest := ih slash.2 nul.2 (Prod.ext rfl last)
      rw [← same, readable, if_neg (Ne.symm nul.1), tail]
    · cases read

theorem utf8ByteSize_eq (text : String) : text.utf8ByteSize = byteLength text.toList := by
  rw [← String.ofList_toList (s := text)]
  generalize text.toList = characters
  rw [String.toList_ofList]
  induction characters with
  | nil => rfl
  | cons c rest ih =>
    rw [String.ofList_cons, String.utf8ByteSize_append, String.utf8ByteSize_singleton, ih,
      byteLength_cons]

end DesignTokens.Css

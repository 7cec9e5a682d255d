import DesignTokens.Proofs.Text.Cutting
import DesignTokens.Splice

/-!
What editing a text does. The edits that are made are exchanged all at once: each edited span gives
way to its replacement, and everything before, between and after these spans is kept in place. An
edit is left out only if its span does not fit the text or reaches into an edit already made. Making
the edits in one buffer gives the same text, and no exchange in the buffer ever fails.
-/

namespace DesignTokens

open DesignTokens.Text

/-- A text from an offset on, edits in it from left to right, and the text they lead to. -/
inductive Exchanged : Nat → List Char → List Edit → List Char → Prop where
  | kept {offset : Nat} {text : List Char} : Exchanged offset text [] text
  | edited {offset : Nat} {gap inside rest result : List Char} {edit : Edit} {edits : List Edit}
      (place : edit.span = ⟨offset + byteLength gap, offset + byteLength (gap ++ inside)⟩)
      (following : Exchanged (offset + byteLength (gap ++ inside)) rest edits result) :
      Exchanged offset (gap ++ inside ++ rest) (edit :: edits) (gap ++ edit.text ++ result)

theorem Exchanged.prepend {offset : Nat} {text result : List Char} {edits : List Edit}
    (kept : List Char) (exchanged : Exchanged (offset + byteLength kept) text edits result) :
    Exchanged offset (kept ++ text) edits (kept ++ result) := by
  cases exchanged with
  | kept => exact .kept
  | @edited _ gap inside rest result edit edits place following =>
    have moved : edit.span =
        ⟨offset + byteLength (kept ++ gap), offset + byteLength (kept ++ gap ++ inside)⟩ := by
      rw [place]
      simp [Nat.add_assoc]
    have further : Exchanged (offset + byteLength (kept ++ gap ++ inside)) rest edits result := by
      simpa [Nat.add_assoc] using following
    simpa [List.append_assoc] using Exchanged.edited moved further

theorem Exchanged.append {offset : Nat} {text other result last : List Char}
    {edits more : List Edit} (before : Exchanged offset text edits result)
    (after : Exchanged (offset + byteLength text) other more last) :
    Exchanged offset (text ++ other) (edits ++ more) (result ++ last) := by
  induction before with
  | kept => exact after.prepend _
  | @edited offset gap inside rest result edit edits place following ih =>
    have further := ih (by simpa [Nat.add_assoc] using after)
    simpa [List.append_assoc] using Exchanged.edited place further

theorem Exchanged.shift {start : Nat} {text result : List Char} {edits : List Edit}
    (exchanged : Exchanged start text edits result) (offset : Nat) :
    Exchanged (start + offset) text
      (edits.map fun edit => ⟨edit.span.shift offset, edit.text⟩) result := by
  induction exchanged with
  | kept => exact .kept
  | @edited start gap inside rest result edit edits place following ih =>
    refine .edited ?_ ?_
    · simp only [place, Span.shift, Span.mk.injEq]
      omega
    · rwa [Nat.add_right_comm] at ih

/-- The result depends on nothing but the text and the edits. -/
theorem Exchanged.unique {offset : Nat} {text result other : List Char} {edits : List Edit}
    (one : Exchanged offset text edits result) (two : Exchanged offset text edits other) :
    result = other := by
  induction one generalizing other with
  | kept =>
    cases two
    rfl
  | @edited offset gap inside rest result edit edits place following ih =>
    generalize whole : gap ++ inside ++ rest = text at two
    cases two with
    | @edited _ first middle last ending _ _ also further =>
      rw [place, Span.mk.injEq] at also
      obtain ⟨begins, ends⟩ := also
      obtain ⟨outer, tail⟩ := append_inj_byteLength whole (by omega)
      obtain ⟨rfl, rfl⟩ := append_inj_byteLength outer (by omega)
      subst tail
      rw [ih further]

/-- Whether an edit is made when nothing after the limit may be touched any more. -/
def Edit.admitted (text : List Char) (limit : Nat) (edit : Edit) : Bool :=
  edit.span.stop ≤ limit && edit.span.fits text

/-- The edits that are made out of some that come latest first. -/
def madeEdits (text : List Char) (limit : Nat) : List Edit → List Edit
  | [] => []
  | edit :: rest =>
    if edit.admitted text limit then edit :: madeEdits text edit.span.start rest
    else madeEdits text limit rest

/-- An edit fits into the untouched part exactly if it is admitted. -/
theorem cutSpan_of_admitted {untouched rest : List Char} {edit : Edit}
    (admitted : edit.admitted (untouched ++ rest) (byteLength untouched) = true) :
    ∃ before inside after, untouched = before ++ inside ++ after ∧
      edit.span = ⟨byteLength before, byteLength before + byteLength inside⟩ := by
  simp only [Edit.admitted, Bool.and_eq_true, decide_eq_true_eq, Span.fits_iff] at admitted
  obtain ⟨short, inside, found⟩ := admitted
  obtain ⟨before, after, whole, place⟩ := slice_eq_some_iff.1 found
  rw [place] at short
  have left : before ++ inside <+: untouched ++ rest := ⟨after, whole.symm⟩
  obtain ⟨remaining, split⟩ := prefix_of_byteLength_le left (List.prefix_append _ _)
    (by rwa [byteLength_append])
  exact ⟨before, inside, remaining, split.symm, place⟩

theorem not_admitted_of_cutSpan {untouched rest : List Char} {edit : Edit}
    (refused : edit.admitted (untouched ++ rest) (byteLength untouched) = false) :
    cutSpan untouched edit.span = none := by
  cases cut : cutSpan untouched edit.span with
  | none => rfl
  | some parts =>
    obtain ⟨before, inside, after⟩ := parts
    have found : slice untouched edit.span = some inside := by
      rw [slice, cut]
      rfl
    have fits := Span.fits_iff.2 ⟨inside, slice_append_right found rest⟩
    have short := slice_bound found
    simp [Edit.admitted, fits] at refused
    omega

theorem editing_exchanged {untouched tail finished : List Char} {made : List Edit}
    (exchanged : Exchanged (byteLength untouched) tail made finished) (edits : List Edit) :
    Exchanged 0 (untouched ++ tail)
      ((madeEdits (untouched ++ tail) (byteLength untouched) edits).reverse ++ made)
      ((edits.foldl Editing.step ⟨untouched, finished⟩).untouched ++
        (edits.foldl Editing.step ⟨untouched, finished⟩).finished) := by
  -- The finished part stands for the tail of the text, with the edits made so far.
  induction edits generalizing untouched tail finished made with
  | nil =>
    refine Exchanged.prepend untouched ?_
    rwa [Nat.zero_add]
  | cons edit rest ih =>
    rw [List.foldl_cons, madeEdits]
    cases decision : edit.admitted (untouched ++ tail) (byteLength untouched) with
    | true =>
      obtain ⟨before, inside, after, rfl, place⟩ := cutSpan_of_admitted decision
      have cut : cutSpan (before ++ inside ++ after) edit.span = some (before, inside, after) :=
        cutSpan_eq_some_iff.2 ⟨rfl, place⟩
      have further : Exchanged (byteLength before + byteLength inside) (after ++ tail) made
          (after ++ finished) := by
        refine Exchanged.prepend after ?_
        simpa [Nat.add_assoc] using exchanged
      have now : Exchanged (byteLength before) ([] ++ inside ++ (after ++ tail)) (edit :: made)
          ([] ++ edit.text ++ (after ++ finished)) := by
        refine .edited ?_ ?_
        · simpa using place
        · simpa using further
      have whole := ih now
      have start : edit.span.start = byteLength before := by rw [place]
      simp only [Editing.step, cut, if_true, start, List.reverse_cons]
      simpa [List.append_assoc] using whole
    | false =>
      have cut := not_admitted_of_cutSpan decision
      simpa [Editing.step, cut] using ih exchanged

theorem applyEdits_exchanged (text : List Char) (edits : List Edit) :
    Exchanged 0 text (madeEdits text (byteLength text) (latestFirst edits)).reverse
      (applyEdits text edits) := by
  have nothing : Exchanged (byteLength text) [] [] [] := .kept
  simpa [applyEdits] using editing_exchanged nothing (latestFirst edits)

/-- The text with some edits made, and the offset from which on it may no longer be touched. -/
structure Buffer where
  output : List Char
  limit : Nat

/-- Edits are checked against the original text and made in the buffer; there is no result if the
span of an edit that passes the check does not fit the buffer. -/
def Buffer.step (text : List Char) (buffer : Buffer) (edit : Edit) : Option Buffer :=
  if edit.admitted text buffer.limit then
    (exchange buffer.output edit.span edit.text).map fun output => ⟨output, edit.span.start⟩
  else
    some buffer

def editInPlace (text : List Char) (edits : List Edit) : Option (List Char) :=
  ((latestFirst edits).foldlM (Buffer.step text) ⟨text, byteLength text⟩).map Buffer.output

theorem buffer_run (untouched tail finished : List Char) (edits : List Edit) :
    (edits.foldlM (Buffer.step (untouched ++ tail))
      ⟨untouched ++ finished, byteLength untouched⟩).map Buffer.output =
      some ((edits.foldl Editing.step ⟨untouched, finished⟩).untouched ++
        (edits.foldl Editing.step ⟨untouched, finished⟩).finished) := by
  induction edits generalizing untouched tail finished with
  | nil => rfl
  | cons edit rest ih =>
    rw [List.foldlM_cons, List.foldl_cons]
    cases decision : edit.admitted (untouched ++ tail) (byteLength untouched) with
    | true =>
      obtain ⟨before, inside, after, rfl, place⟩ := cutSpan_of_admitted decision
      have cut : cutSpan (before ++ inside ++ after) edit.span = some (before, inside, after) :=
        cutSpan_eq_some_iff.2 ⟨rfl, place⟩
      have fits : cutSpan (before ++ inside ++ after ++ finished) edit.span =
          some (before, inside, after ++ finished) :=
        cutSpan_eq_some_iff.2 ⟨by simp, place⟩
      have start : edit.span.start = byteLength before := by rw [place]
      have further := ih before (inside ++ after ++ tail) (edit.text ++ after ++ finished)
      simp only [Buffer.step, decision, if_true, exchange, fits, Option.map_some, start,
        Editing.step, cut]
      simpa [List.append_assoc] using further
    | false =>
      have cut := not_admitted_of_cutSpan decision
      simpa [Buffer.step, decision, Editing.step, cut] using ih untouched tail finished

/-- Editing in one buffer never fails, and it gives the same text. -/
theorem editInPlace_eq (text : List Char) (edits : List Edit) :
    editInPlace text edits = some (applyEdits text edits) := by
  have run := buffer_run text [] [] (latestFirst edits)
  simpa [editInPlace, applyEdits] using run

end DesignTokens

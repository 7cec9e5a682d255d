import DesignTokens.Proofs.Outermost

/-!
Which edits are made when their spans are arbitrary. Gone through from the one that ends last, an
edit is kept if its span is one of the text and ends where the edit kept before it starts, or
earlier. The kept edits are exchanged all at once. Where no two edits end together, the order in
which they are given does not matter.
-/

namespace DesignTokens

open DesignTokens.Text

namespace Text

def isBoundary (text : List Char) (offset : Nat) : Bool :=
  (cutAt offset text).isSome

theorem isBoundary_iff {text : List Char} {offset : Nat} :
    isBoundary text offset = true ↔ ∃ before after, text = before ++ after ∧
      offset = byteLength before := by
  rw [isBoundary, Option.isSome_iff_exists]
  constructor
  · rintro ⟨⟨before, after⟩, cut⟩
    exact ⟨before, after, cutAt_eq_some_iff.1 cut⟩
  · rintro ⟨before, after, parts⟩
    exact ⟨(before, after), cutAt_eq_some_iff.2 parts⟩

/-- A span is valid for a text if it is in order and inside the text, with both ends between
characters. -/
def Span.isValid (span : Span) (text : List Char) : Bool :=
  span.start ≤ span.stop && span.stop ≤ byteLength text && isBoundary text span.start &&
    isBoundary text span.stop

theorem Span.isValid_eq_fits (span : Span) (text : List Char) :
    span.isValid text = span.fits text := by
  rw [Bool.eq_iff_iff, Span.fits_iff, isValid]
  simp only [Bool.and_eq_true, decide_eq_true_eq, isBoundary_iff]
  constructor
  · rintro ⟨⟨⟨ordered, _⟩, before, rest, whole, begins⟩, longer, after, again, ends⟩
    have first : before <+: text := ⟨rest, whole.symm⟩
    have second : longer <+: text := ⟨after, again.symm⟩
    obtain ⟨inside, split⟩ := prefix_of_byteLength_le first second (by omega)
    refine ⟨inside, slice_eq_some_iff.2 ⟨before, after, by rw [split, again], ?_⟩⟩
    rw [← byteLength_append, split, ← begins, ← ends]
  · rintro ⟨inside, cut⟩
    have bound := slice_bound cut
    obtain ⟨before, after, whole, rfl⟩ := slice_eq_some_iff.1 cut
    refine ⟨⟨⟨Nat.le_add_right _ _, bound⟩, before, inside ++ after, by simp [whole], rfl⟩,
      before ++ inside, after, whole, by simp⟩

end Text

/-- The edits that are kept of some, gone through in their order, when `last` was kept last. -/
def keptEdits (text : List Char) (last : Option Edit) : List Edit → List Edit
  | [] => []
  | edit :: rest =>
    if edit.span.isValid text && last.all fun kept => edit.span.stop ≤ kept.span.start then
      edit :: keptEdits text (some edit) rest
    else
      keptEdits text last rest

/-- Keeping edits apart from the one kept last is the same as keeping them under a limit. -/
theorem madeEdits_eq_keptEdits (text : List Char) (edits : List Edit) (last : Option Edit) :
    madeEdits text (last.elim (byteLength text) fun kept => kept.span.start) edits =
      keptEdits text last edits := by
  induction edits generalizing last with
  | nil => rfl
  | cons edit rest ih =>
    have same : edit.admitted text (last.elim (byteLength text) fun kept => kept.span.start) =
        (edit.span.isValid text && last.all fun kept => edit.span.stop ≤ kept.span.start) := by
      rw [Edit.admitted, ← Span.isValid_eq_fits, Bool.and_comm]
      cases last with
      | some kept => rfl
      | none =>
        cases valid : edit.span.isValid text with
        | false => rfl
        | true =>
          simp only [Span.isValid, Bool.and_eq_true, decide_eq_true_eq] at valid
          simp [valid.1.1.2]
    rw [madeEdits, keptEdits, same, ← ih (some edit), ← ih last]
    rfl

/-- Edits by decreasing end, those that end together in the order in which they are given. -/
structure ByDecreasingEnd (edits ordered : List Edit) : Prop where
  perm : ordered.Perm edits
  sorted : ordered.Pairwise fun left right => right.span.stop ≤ left.span.stop
  stable : ∀ stop, ordered.filter (fun edit => edit.span.stop = stop) =
    edits.filter fun edit => edit.span.stop = stop

theorem latestFirst_byDecreasingEnd (edits : List Edit) :
    ByDecreasingEnd edits (latestFirst edits) :=
  ⟨latestFirst_perm edits, latestFirst_sorted edits, latestFirst_stable edits⟩

theorem mem_iff_of_stops {one other : List Edit}
    (same : ∀ stop, one.filter (fun edit => edit.span.stop = stop) =
      other.filter fun edit => edit.span.stop = stop) (edit : Edit) :
    edit ∈ one ↔ edit ∈ other := by
  have both := congrArg (edit ∈ ·) (same edit.span.stop)
  simpa using both

theorem eq_of_sorted {one other : List Edit}
    (first : one.Pairwise fun left right => right.span.stop ≤ left.span.stop)
    (second : other.Pairwise fun left right => right.span.stop ≤ left.span.stop)
    (same : ∀ stop, one.filter (fun edit => edit.span.stop = stop) =
      other.filter fun edit => edit.span.stop = stop) : one = other := by
  induction one generalizing other with
  | nil =>
    cases other with
    | nil => rfl
    | cons edit rest => simpa using mem_iff_of_stops same edit
  | cons edit rest ih =>
    cases other with
    | nil => simpa using mem_iff_of_stops same edit
    | cons head tail =>
      rw [List.pairwise_cons] at first second
      have ends : edit.span.stop = head.span.stop := by
        have left : edit ∈ head :: tail := (mem_iff_of_stops same edit).1 List.mem_cons_self
        have right : head ∈ edit :: rest := (mem_iff_of_stops same head).2 List.mem_cons_self
        rcases List.mem_cons.1 left with rfl | below
        · rfl
        · rcases List.mem_cons.1 right with rfl | above
          · rfl
          · exact Nat.le_antisymm (second.1 edit below) (first.1 head above)
      have heads := same edit.span.stop
      rw [List.filter_cons_of_pos (by simp), List.filter_cons_of_pos (by simp [ends])] at heads
      obtain ⟨rfl, -⟩ := List.cons.inj heads
      have tails (stop : Nat) : rest.filter (fun edit => edit.span.stop = stop) =
          tail.filter fun edit => edit.span.stop = stop := by
        have whole := same stop
        simp only [List.filter_cons] at whole
        split at whole
        · exact (List.cons.inj whole).2
        · exact whole
      rw [ih first.2 second.2 tails]

theorem ByDecreasingEnd.unique {edits one other : List Edit} (first : ByDecreasingEnd edits one)
    (second : ByDecreasingEnd edits other) : one = other :=
  eq_of_sorted first.sorted second.sorted fun stop =>
    (first.stable stop).trans (second.stable stop).symm

/-- What becomes of a text when the kept edits are exchanged in it at once. -/
def ReplacesKept (text : List Char) (edits : List Edit) (result : List Char) : Prop :=
  ∃ ordered, ByDecreasingEnd edits ordered ∧
    Exchanged 0 text (keptEdits text none ordered).reverse result

theorem applyEdits_replacesKept (text : List Char) (edits : List Edit) :
    ReplacesKept text edits (applyEdits text edits) := by
  have exchanged := applyEdits_exchanged text edits
  have same := madeEdits_eq_keptEdits text (latestFirst edits) none
  rw [Option.elim_none] at same
  rw [same] at exchanged
  exact ⟨latestFirst edits, latestFirst_byDecreasingEnd edits, exchanged⟩

theorem ReplacesKept.unique {text result other : List Char} {edits : List Edit}
    (one : ReplacesKept text edits result) (two : ReplacesKept text edits other) :
    result = other := by
  obtain ⟨ordered, first, exchanged⟩ := one
  obtain ⟨again, second, further⟩ := two
  rw [second.unique first] at further
  exact exchanged.unique further

/-- Edits of which no two end together are put in one order, however they are given. -/
theorem latestFirst_of_perm {edits others : List Edit} (perm : others.Perm edits)
    (distinct : (edits.map fun edit => edit.span.stop).Nodup) :
    latestFirst others = latestFirst edits := by
  have same : (latestFirst others).Perm (latestFirst edits) :=
    (latestFirst_perm others).trans (perm.trans (latestFirst_perm edits).symm)
  refine same.eq_of_pairwise (fun one other left right below above => ?_)
    (latestFirst_sorted others) (latestFirst_sorted edits)
  have first : one ∈ edits := perm.subset ((latestFirst_perm others).subset left)
  have second : other ∈ edits := (latestFirst_perm edits).subset right
  exact List.inj_on_of_nodup_map distinct first second (Nat.le_antisymm above below)

theorem replaceCalls_of_perm (text : String) {tokens others : List ResolvedToken}
    (perm : others.Perm tokens)
    (distinct : (tokens.map fun token => token.location.stop).Nodup) :
    replaceCalls text others = replaceCalls text tokens := by
  have ends : ((tokens.map ResolvedToken.edit).map fun edit => edit.span.stop).Nodup := by
    rw [List.map_map]
    exact distinct
  rw [replaceCalls, replaceCalls, applyEdits, applyEdits,
    latestFirst_of_perm (perm.map ResolvedToken.edit) ends]

/-- Replacing never fails, whatever the spans are, and it exchanges the kept edits and nothing else.
Where no two spans end together, the order of the list does not matter. -/
theorem replaceCalls_replaces_kept (text : String) (tokens : List ResolvedToken) :
    editInPlace text.toList (tokens.map ResolvedToken.edit) =
        some (replaceCalls text tokens).toList ∧
      (∀ result, ReplacesKept text.toList (tokens.map ResolvedToken.edit) result ↔
        result = (replaceCalls text tokens).toList) ∧
      ((tokens.map fun token => token.location.stop).Nodup →
        ∀ others, others.Perm tokens → replaceCalls text others = replaceCalls text tokens) := by
  have kept : ReplacesKept text.toList (tokens.map ResolvedToken.edit)
      (replaceCalls text tokens).toList := by
    rw [replaceCalls, String.toList_ofList]
    exact applyEdits_replacesKept text.toList (tokens.map ResolvedToken.edit)
  refine ⟨?_, fun result => ⟨fun replaces => replaces.unique kept, fun same => same ▸ kept⟩,
    fun distinct others perm => replaceCalls_of_perm text perm distinct⟩
  rw [editInPlace_eq, replaceCalls, String.toList_ofList]

end DesignTokens

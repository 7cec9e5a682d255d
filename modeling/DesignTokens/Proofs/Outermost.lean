import DesignTokens.Proofs.Replacement
import DesignTokens.Proofs.Text.SpanOrder
import Mathlib.Data.List.Nodup
import Mathlib.Data.List.Pairwise

/-!
Which edits are made when their spans are in the order of a tree. Sorted by where they end, an outer
edit comes before the edits inside it, also where both end together, so the edits made are exactly
those that lie in no other.
-/

namespace DesignTokens

open DesignTokens.Text

/-- The tokens whose span lies in no span but their own. -/
def outermost (tokens : List ResolvedToken) : List ResolvedToken :=
  tokens.filter fun token =>
    tokens.countP (fun other => token.location.within other.location) = 1

def Edit.Later (first second : Edit) : Prop :=
  second.span.stop ≤ first.span.stop ∧
    (first.span.start < second.span.start ∨ second.span.stop ≤ first.span.start)

theorem latestFirst_perm (edits : List Edit) : (latestFirst edits).Perm edits :=
  List.mergeSort_perm edits _

theorem endsLater_trans (one two three : Edit) (first : decide (two.span.stop ≤ one.span.stop) = true)
    (second : decide (three.span.stop ≤ two.span.stop) = true) :
    decide (three.span.stop ≤ one.span.stop) = true := by
  simp only [decide_eq_true_eq] at first second ⊢
  exact Nat.le_trans second first

theorem endsLater_total (one two : Edit) :
    (decide (two.span.stop ≤ one.span.stop) || decide (one.span.stop ≤ two.span.stop)) = true := by
  simp only [Bool.or_eq_true, decide_eq_true_eq]
  exact Nat.le_total _ _

theorem latestFirst_sorted (edits : List Edit) :
    (latestFirst edits).Pairwise fun left right => right.span.stop ≤ left.span.stop :=
  (List.pairwise_mergeSort endsLater_trans endsLater_total edits).imp of_decide_eq_true

theorem latestFirst_stable (edits : List Edit) (stop : Nat) :
    (latestFirst edits).filter (fun edit => edit.span.stop = stop) =
      edits.filter fun edit => edit.span.stop = stop := by
  have together : (edits.filter fun edit => edit.span.stop = stop).Pairwise fun left right =>
      decide (right.span.stop ≤ left.span.stop) = true := by
    apply List.pairwise_of_forall_mem_list
    intro one found other also
    have first := (List.mem_filter.1 found).2
    have second := (List.mem_filter.1 also).2
    simp only [decide_eq_true_eq] at first second ⊢
    omega
  have kept := List.sublist_mergeSort endsLater_trans endsLater_total together List.filter_sublist
  have again := kept.filter fun edit => decide (edit.span.stop = stop)
  rw [List.filter_filter, List.filter_congr fun edit _ => Bool.and_self _] at again
  have size := ((latestFirst_perm edits).filter fun edit => decide (edit.span.stop = stop)).length_eq
  exact (again.eq_of_length size.symm).symm

/-- In the order of a tree, edits that come earlier stand before those that lie inside them. -/
theorem latestFirst_later {edits : List Edit} (ordered : edits.Pairwise fun one other =>
    one.span.Precedes other.span) (filled : ∀ edit ∈ edits, edit.span.start < edit.span.stop) :
    (latestFirst edits).Pairwise Edit.Later := by
  have distinct : edits.Nodup := nodup_of_rising (fun edit => edit.span.start) (ordered.imp And.left)
  apply List.pairwise_of_forall_sublist
  intro one other pair
  have sorted := (latestFirst_sorted edits).forall_sublist pair
  have apart : one ≠ other := by
    have both := ((latestFirst_perm edits).nodup_iff.2 distinct).sublist pair
    simpa using both
  have first : one ∈ edits := (latestFirst_perm edits).subset (pair.subset (by simp))
  have second : other ∈ edits := (latestFirst_perm edits).subset (pair.subset (by simp))
  have wide := filled one first
  have alsoWide := filled other second
  refine ⟨sorted, ?_⟩
  by_cases together : one.span.stop = other.span.stop
  -- Nothing but the stability of sorting puts the outer of two calls first that end together.
  · have filtered := pair.filter fun edit => decide (edit.span.stop = other.span.stop)
    rw [latestFirst_stable] at filtered
    have inside : [one, other].Sublist edits := by
      have shorter := filtered.trans List.filter_sublist
      simpa [together] using shorter
    have precedes := ordered.forall_sublist inside
    exact Or.inl precedes.1
  · have symmetric : Std.Symm fun one other : Edit =>
        one.span.Precedes other.span ∨ other.span.Precedes one.span := ⟨fun _ _ => Or.symm⟩
    have both : edits.Pairwise fun one other : Edit =>
        one.span.Precedes other.span ∨ other.span.Precedes one.span := ordered.imp Or.inl
    rcases both.forall first second apart with before | after
    · exact Or.inl before.1
    · have nested := after.2
      refine Or.inr ?_
      omega

theorem madeEdits_sublist (text : List Char) (limit : Nat) (edits : List Edit) :
    (madeEdits text limit edits).Sublist edits := by
  induction edits generalizing limit with
  | nil => exact .slnil
  | cons edit rest ih =>
    rw [madeEdits]
    split
    · exact (ih _).cons_cons edit
    · exact (ih _).cons edit

theorem madeEdits_bound {text : List Char} {limit : Nat} {edits : List Edit} {edit : Edit}
    (made : edit ∈ madeEdits text limit edits) : edit.span.stop ≤ limit := by
  induction edits generalizing limit with
  | nil => simp [madeEdits] at made
  | cons first rest ih =>
    rw [madeEdits] at made
    split at made
    · rename_i admitted
      simp only [Edit.admitted, Bool.and_eq_true, decide_eq_true_eq, Span.fits_iff] at admitted
      obtain ⟨short, inside, found⟩ := admitted
      rcases List.mem_cons.1 made with rfl | further
      · exact short
      · have bound := ih further
        have length := slice_length found
        omega
    · exact ih made

theorem madeEdits_ordered (text : List Char) (limit : Nat) (edits : List Edit) :
    (madeEdits text limit edits).Pairwise fun one other => other.span.stop ≤ one.span.start := by
  induction edits generalizing limit with
  | nil => exact .nil
  | cons edit rest ih =>
    rw [madeEdits]
    split
    · exact .cons (fun other made => madeEdits_bound made) (ih _)
    · exact ih _

/-- The edits made are those that lie in no other edit up to the limit. -/
theorem mem_madeEdits {text : List Char} {limit : Nat} {edits : List Edit}
    (later : edits.Pairwise Edit.Later) (filled : ∀ edit ∈ edits, edit.span.start < edit.span.stop)
    (fits : ∀ edit ∈ edits, edit.span.fits text = true) (edit : Edit) :
    edit ∈ madeEdits text limit edits ↔ edit ∈ edits ∧ edit.span.stop ≤ limit ∧
      ∀ other ∈ edits, edit.span.within other.span = true → other.span.stop ≤ limit →
        other = edit := by
  induction edits generalizing limit with
  | nil => simp [madeEdits]
  | cons first rest ih =>
    rw [List.pairwise_cons] at later
    obtain ⟨relative, later⟩ := later
    obtain ⟨wide, filled⟩ := List.forall_mem_cons.1 filled
    obtain ⟨fit, fits⟩ := List.forall_mem_cons.1 fits
    simp only [Span.within_iff] at ih ⊢
    rw [madeEdits, Edit.admitted, fit, Bool.and_true]
    by_cases short : first.span.stop ≤ limit
    · rw [if_pos (by simpa using short), List.mem_cons, ih later filled fits, List.mem_cons]
      constructor
      · rintro (rfl | ⟨member, bound, alone⟩)
        · refine ⟨Or.inl rfl, short, fun other among inside _ => ?_⟩
          rcases List.mem_cons.1 among with same | found
          · exact same
          · have place := (relative other found).2
            omega
        · have narrow := filled edit member
          refine ⟨Or.inr member, by omega, fun other among inside close => ?_⟩
          rcases List.mem_cons.1 among with rfl | found
          · omega
          · have place := (relative other found).2
            exact alone other found inside (by omega)
      · rintro ⟨rfl | member, bound, alone⟩
        · exact Or.inl rfl
        · obtain ⟨ends, place⟩ := relative edit member
          have outside : edit.span.stop ≤ first.span.start := by
            rcases place with nested | before
            · have same := alone first (by simp) ⟨Nat.le_of_lt nested, ends⟩ short
              rw [same] at nested
              exact absurd nested (Nat.lt_irrefl _)
            · exact before
          exact Or.inr ⟨member, outside, fun other found inside close =>
            alone other (.tail _ found) inside (by omega)⟩
    · rw [if_neg (by simpa using short), ih later filled fits]
      constructor
      · rintro ⟨member, bound, alone⟩
        refine ⟨.tail _ member, bound, fun other among inside close => ?_⟩
        rcases List.mem_cons.1 among with rfl | found
        · exact absurd close short
        · exact alone other found inside close
      · rintro ⟨member, bound, alone⟩
        rcases List.mem_cons.1 member with rfl | found
        · exact absurd bound short
        · exact ⟨found, bound, fun other among inside close =>
            alone other (.tail _ among) inside close⟩

theorem countP_eq_one_iff {α : Type} {list : List α} (distinct : list.Nodup) {test : α → Bool}
    {item : α} (member : item ∈ list) (passes : test item = true) :
    list.countP test = 1 ↔ ∀ other ∈ list, test other = true → other = item := by
  rw [List.countP_eq_length_filter, List.length_eq_one_iff]
  have found : item ∈ list.filter test := List.mem_filter.2 ⟨member, passes⟩
  constructor
  · rintro ⟨only, single⟩ other among also
    have second : other ∈ list.filter test := List.mem_filter.2 ⟨among, also⟩
    rw [single, List.mem_singleton] at found second
    rw [found, second]
  · intro alone
    refine ⟨item, List.perm_singleton.1 ((List.perm_ext_iff_of_nodup (distinct.filter test)
      (List.nodup_singleton item)).2 fun other => ?_)⟩
    rw [List.mem_filter, List.mem_singleton]
    exact ⟨fun ⟨among, also⟩ => alone other among also, fun same => same ▸ ⟨member, passes⟩⟩

theorem outermost_edits (tokens : List ResolvedToken) :
    (outermost tokens).map ResolvedToken.edit =
      (tokens.map ResolvedToken.edit).filter fun edit =>
        (tokens.map ResolvedToken.edit).countP (fun other => edit.span.within other.span) = 1 := by
  rw [List.filter_map, outermost]
  congr 1
  apply List.filter_congr
  intro token _
  rw [Function.comp_apply, List.countP_map]
  rfl

theorem madeEdits_outermost {text : List Char} {edits : List Edit}
    (order : SpanOrder 0 (byteLength text) (edits.map Edit.span))
    (fits : ∀ edit ∈ edits, edit.span.fits text = true) :
    (madeEdits text (byteLength text) (latestFirst edits)).reverse =
      edits.filter fun edit => edits.countP (fun other => edit.span.within other.span) = 1 := by
  have ordered : edits.Pairwise fun one other => one.span.Precedes other.span :=
    List.pairwise_map.1 order.ordered
  have bounds : ∀ edit ∈ edits, edit.span.start < edit.span.stop ∧
      edit.span.stop ≤ byteLength text := fun edit member =>
    (order.inside edit.span (List.mem_map_of_mem member)).2
  have perm := latestFirst_perm edits
  have later := latestFirst_later ordered fun edit member => (bounds edit member).1
  have distinct : edits.Nodup := nodup_of_rising (fun edit => edit.span.start) (ordered.imp And.left)
  have made (limit : Nat) (edit : Edit) :
      edit ∈ madeEdits text limit (latestFirst edits) ↔ _ :=
    mem_madeEdits later (fun edit member => (bounds edit (perm.subset member)).1)
      (fun edit member => fits edit (perm.subset member)) edit
  have rising : (madeEdits text (byteLength text) (latestFirst edits)).reverse.Pairwise
      fun one other => one.span.start < other.span.start := by
    rw [List.pairwise_reverse]
    apply (madeEdits_ordered text _ _).imp_of_mem
    intro one other _ member apart
    have found := (madeEdits_sublist text _ _).subset member
    have wide := (bounds other (perm.subset found)).1
    omega
  have alsoRising : (edits.filter fun edit => decide
      (edits.countP (fun other => edit.span.within other.span) = 1)).Pairwise
      fun one other => one.span.start < other.span.start :=
    (ordered.sublist List.filter_sublist).imp And.left
  apply eq_of_rising (fun edit => edit.span.start) rising alsoRising
  intro edit
  rw [List.mem_reverse, made, List.mem_filter, perm.mem_iff, decide_eq_true_eq]
  apply and_congr_right
  intro member
  have self : edit.span.within edit.span = true :=
    Span.within_iff.2 ⟨Nat.le_refl _, Nat.le_refl _⟩
  rw [countP_eq_one_iff distinct member self]
  constructor
  · rintro ⟨_, alone⟩ other among inside
    exact alone other (perm.mem_iff.2 among) inside (bounds other among).2
  · intro alone
    exact ⟨(bounds edit member).2, fun other among inside _ =>
      alone other (perm.subset among) inside⟩

/-- With spans in the order of a tree, the outermost calls are replaced and no others. -/
theorem applyEdits_outermost {text : List Char} {tokens : List ResolvedToken}
    (order : SpanOrder 0 (byteLength text) (tokens.map ResolvedToken.location))
    (fits : ∀ token ∈ tokens, token.location.fits text = true) :
    Exchanged 0 text ((outermost tokens).map ResolvedToken.edit)
      (applyEdits text (tokens.map ResolvedToken.edit)) := by
  have exchanged := applyEdits_exchanged text (tokens.map ResolvedToken.edit)
  have same : (tokens.map ResolvedToken.edit).map Edit.span =
      tokens.map ResolvedToken.location := by
    rw [List.map_map]
    rfl
  rw [madeEdits_outermost (by rwa [same]) (List.forall_mem_map.2 fits),
    ← outermost_edits] at exchanged
  exact exchanged

end DesignTokens

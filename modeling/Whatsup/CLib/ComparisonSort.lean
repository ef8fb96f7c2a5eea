import Mathlib.Data.List.Sort
import Mathlib.Tactic.Common

/-!
# Sorting with a comparison that writes

`qsort` calls a comparison function on pairs of elements and moves them. A comparison that writes to
what its arguments point to changes the elements on the way. `Compared` is what calls and moves can
do to an array, and `IsSort` what is relied on of `qsort`: the outcome arises from the array by
calls and moves; and if the comparison orders the elements by a key that no call changes, the
outcome is in the order of that key.

Every property of arrays that calls and moves keep is kept by a sort (`Compared.induct`).
`insertionSort` is an implementation, and `isSort_insertionSort` its proof.
-/

set_option autoImplicit false
set_option relaxedAutoImplicit false

namespace CLib

section

variable {α : Type} (cmp : α → α → ℤ × α × α)

/-! ### The contract -/

/-- What calls of a comparison on two elements of an array, and moves of elements, make of it. -/
inductive Compared : List α → List α → Prop
  | move {before after : List α} (h : before.Perm after) : Compared before after
  | call {before after rest : List α} {left right : α} (h : before.Perm (left :: right :: rest))
    (hrest : Compared ((cmp left right).2.1 :: (cmp left right).2.2 :: rest) after) :
    Compared before after

/-- A comparison agrees with a key on the elements of a kind, and no call changes the key or the
kind. -/
structure Respects {κ : Type} [LinearOrder κ] (key : α → κ) (kind : α → Prop) : Prop where
  nonpos_iff : ∀ left right, kind left → kind right →
    ((cmp left right).1 ≤ 0 ↔ key left ≤ key right)
  key_left : ∀ left right, kind left → kind right → key (cmp left right).2.1 = key left
  key_right : ∀ left right, kind left → kind right → key (cmp left right).2.2 = key right
  kind_left : ∀ left right, kind left → kind right → kind (cmp left right).2.1
  kind_right : ∀ left right, kind left → kind right → kind (cmp left right).2.2

/-- What is relied on of `qsort`. -/
structure IsSort (sort : List α → List α) : Prop where
  compared : ∀ array, Compared cmp array (sort array)
  sorted : ∀ {κ : Type} [LinearOrder κ] (key : α → κ) (kind : α → Prop), Respects cmp key kind →
    ∀ array, (∀ element ∈ array, kind element) →
      (sort array).Pairwise fun left right ↦ key left ≤ key right

variable {cmp}

/-- Assumes: a property of arrays that moves keep and calls keep. It is kept by what calls and moves
make of an array. -/
theorem Compared.induct {before after : List α} (h : Compared cmp before after)
    {property : List α → Prop}
    (hmove : ∀ array array' : List α, array.Perm array' → property array → property array')
    (hcall : ∀ left right rest, property (left :: right :: rest) →
      property ((cmp left right).2.1 :: (cmp left right).2.2 :: rest))
    (hbefore : property before) : property after := by
  induction h with
  | move hperm => exact hmove _ _ hperm hbefore
  | call hperm _ ih => exact ih (hcall _ _ _ (hmove _ _ hperm hbefore))

/-- Assumes: a property of elements that calls keep. Calls and moves keep it for all elements. -/
theorem Compared.forall_mem {before after : List α} (h : Compared cmp before after)
    {property : α → Prop}
    (hcall : ∀ left right, property left → property right →
      property (cmp left right).2.1 ∧ property (cmp left right).2.2)
    (hbefore : ∀ element ∈ before, property element) : ∀ element ∈ after, property element := by
  refine @Compared.induct _ _ _ _ h (fun array ↦ ∀ element ∈ array, property element)
    (fun array array' hperm harray element hmem ↦ harray element (hperm.mem_iff.mpr hmem))
    (fun left right rest harray ↦ ?_) hbefore
  obtain ⟨hleft, hright, hrest⟩ := List.forall_mem_cons.mp harray |>.imp_right
    List.forall_mem_cons.mp
  obtain ⟨hleft', hright'⟩ := hcall left right hleft hright
  exact List.forall_mem_cons.mpr ⟨hleft', List.forall_mem_cons.mpr ⟨hright', hrest⟩⟩

/-! ### An implementation -/

variable (cmp)

/-- Insertion of an element into a sorted list. -/
def orderedInsert (element : α) : List α → List α
  | [] => [element]
  | head :: tail =>
    let (order, element', head') := cmp element head
    if order ≤ 0 then element' :: head' :: tail else head' :: orderedInsert element' tail

/-- Insertion sort. -/
def insertionSort : List α → List α
  | [] => []
  | head :: tail => orderedInsert cmp head (insertionSort tail)

variable {cmp}

/-- Compared arrays are composed. -/
theorem Compared.trans {first second third : List α} (h : Compared cmp first second)
    (h' : Compared cmp second third) : Compared cmp first third := by
  induction h with
  | move hperm =>
    cases h' with
    | move hperm' => exact .move (hperm.trans hperm')
    | call hperm' hrest => exact .call (hperm.trans hperm') hrest
  | call hperm _ ih => exact .call hperm (ih h')

/-- Calls on a part of an array are calls on the array. -/
theorem Compared.cons {before after : List α} (element : α) (h : Compared cmp before after) :
    Compared cmp (element :: before) (element :: after) := by
  induction h with
  | move hperm => exact .move (hperm.cons element)
  | @call before after rest left right hperm _ ih =>
    have hfront : (element :: before).Perm (left :: right :: element :: rest) :=
      (hperm.cons element).trans ((List.Perm.swap left element _).trans
        ((List.Perm.swap right element rest).cons left))
    refine .call hfront (.trans (.move ?_) ih)
    exact ((List.Perm.swap _ _ rest).cons _).trans (List.Perm.swap _ _ _)

/-- An insertion arises from calls and moves. -/
theorem compared_orderedInsert (list : List α) :
    ∀ element, Compared cmp (element :: list) (orderedInsert cmp element list) := by
  induction list with
  | nil => exact fun element ↦ .move (List.Perm.refl _)
  | cons head tail ih =>
    intro element
    refine .call (List.Perm.refl _) ?_
    rw [orderedInsert]
    by_cases horder : (cmp element head).1 ≤ 0
    · simp only [horder, if_true]
      exact .move (List.Perm.refl _)
    · simp only [horder, if_false]
      exact .trans (.move (List.Perm.swap _ _ tail)) ((ih _).cons _)

/-- Insertion sort arises from calls and moves. -/
theorem compared_insertionSort (list : List α) :
    Compared cmp list (insertionSort cmp list) := by
  induction list with
  | nil => exact .move (List.Perm.refl _)
  | cons head tail ih => exact (ih.cons head).trans (compared_orderedInsert _ head)

section

variable {κ : Type} [LinearOrder κ] {key : α → κ} {kind : α → Prop}

/-- Assumes: a comparison that agrees with a key. Calls and moves keep the kind of the elements and
every lower bound of their keys. -/
theorem Respects.forall_mem (hrespects : Respects cmp key kind) {bound : κ} {before after : List α}
    (h : Compared cmp before after) (hbefore : ∀ x ∈ before, kind x ∧ bound ≤ key x) :
    ∀ x ∈ after, kind x ∧ bound ≤ key x :=
  h.forall_mem (fun _ _ hleft hright ↦
    ⟨⟨hrespects.kind_left _ _ hleft.1 hright.1,
      (hrespects.key_left _ _ hleft.1 hright.1).symm ▸ hleft.2⟩,
    hrespects.kind_right _ _ hleft.1 hright.1,
      (hrespects.key_right _ _ hleft.1 hright.1).symm ▸ hright.2⟩) hbefore

/-- Assumes: a comparison that agrees with a key. An insertion into a sorted list is sorted. -/
theorem pairwise_orderedInsert (hrespects : Respects cmp key kind) (list : List α) :
    ∀ element, kind element → (∀ x ∈ list, kind x) →
      list.Pairwise (fun left right ↦ key left ≤ key right) →
      (orderedInsert cmp element list).Pairwise fun left right ↦ key left ≤ key right := by
  induction list with
  | nil => exact fun element _ _ _ ↦ List.pairwise_singleton _ _
  | cons head tail ih =>
    intro element hkind hlist hsorted
    have hheadKind := hlist head List.mem_cons_self
    have hkeyLeft := hrespects.key_left _ _ hkind hheadKind
    have hkeyRight := hrespects.key_right _ _ hkind hheadKind
    have horderIff := hrespects.nonpos_iff _ _ hkind hheadKind
    obtain ⟨hheadLe, htail⟩ := List.pairwise_cons.mp hsorted
    rw [orderedInsert]
    by_cases horder : (cmp element head).1 ≤ 0
    · simp only [horder, if_true]
      have hle := horderIff.mp horder
      refine List.pairwise_cons.mpr ⟨fun x hx ↦ ?_, List.pairwise_cons.mpr ⟨fun x hx ↦ ?_, htail⟩⟩
      · rw [hkeyLeft]
        rcases List.mem_cons.mp hx with rfl | hx
        · rwa [hkeyRight]
        · exact hle.trans (hheadLe x hx)
      · rw [hkeyRight]
        exact hheadLe x hx
    · simp only [horder, if_false]
      have hlt : key head ≤ key element := le_of_lt (not_le.mp fun hle ↦ horder (horderIff.mpr hle))
      have htailKind : ∀ x ∈ tail, kind x := fun x hx ↦ hlist x (List.mem_cons_of_mem _ hx)
      have hleftKind := hrespects.kind_left _ _ hkind hheadKind
      refine List.pairwise_cons.mpr ⟨fun x hx ↦ ?_, ih _ hleftKind htailKind htail⟩
      rw [hkeyRight]
      refine (hrespects.forall_mem (compared_orderedInsert tail _) (fun y hy ↦ ?_) x hx).2
      rcases List.mem_cons.mp hy with rfl | hy
      · exact ⟨hleftKind, hkeyLeft.symm ▸ hlt⟩
      · exact ⟨htailKind y hy, hheadLe y hy⟩

/-- Assumes: a comparison that agrees with a key. Insertion sort sorts by it. -/
theorem pairwise_insertionSort (hrespects : Respects cmp key kind) (list : List α)
    (hlist : ∀ x ∈ list, kind x) :
    (insertionSort cmp list).Pairwise fun left right ↦ key left ≤ key right := by
  induction list with
  | nil => exact List.Pairwise.nil
  | cons head tail ih =>
    obtain ⟨hhead, htail⟩ := List.forall_mem_cons.mp hlist
    refine pairwise_orderedInsert hrespects _ head hhead ?_ (ih htail)
    exact (compared_insertionSort tail).forall_mem (fun left right hleft hright ↦
      ⟨hrespects.kind_left _ _ hleft hright, hrespects.kind_right _ _ hleft hright⟩) htail

end

/-- Insertion sort is a sort. -/
theorem isSort_insertionSort : IsSort cmp (insertionSort cmp) where
  compared := compared_insertionSort
  sorted := fun _ _ hrespects array hkind ↦ pairwise_insertionSort hrespects array hkind

end

end CLib

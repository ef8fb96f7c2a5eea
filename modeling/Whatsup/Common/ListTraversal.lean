import Whatsup.Common.ListCalls

/-!
# Going through a list that changes

An iterator goes through a list while items are inserted and removed, through it, through other
iterators and through the list itself. `listRun_traverses` says what it gives up to its end,
whatever calls come in between: of the items with some property, if none is put in ahead of the
iterator and none is taken out ahead of it, exactly those that were there when it was set to the
front, each once and in order. What the iterator itself inserts or removes is never ahead of it, so
that nothing is asked of that.
-/

set_option autoImplicit false
set_option relaxedAutoImplicit false

namespace Whatsup

open CLib

variable {α : Type}

/-! ### Calls and one cursor -/

/-- Where a call puts an item in. -/
def ItemList.insertPlace (s : ItemList α) : ListCall α → Option (ℕ × α)
  | .append _ x => some (s.items.length, x)
  | .prepend _ x => some (0, x)
  | .insert _ j x => (s.cursors.lookup j).map fun c ↦ (c.link, x)
  | _ => none

/-- Where a call takes one item out. -/
def ItemList.erasePlace (s : ItemList α) : ListCall α → Option ℕ
  | .pop => some 0
  | .remove j => (s.cursors.lookup j).bind fun c ↦ if c.held then some c.link else none
  | .delete j => (s.cursors.lookup j).bind fun c ↦ if c.held then some c.link else none
  | _ => none

/-- A call does not put in nor take out an item with a property ahead of a cursor. -/
structure ItemList.Undisturbed (s : ItemList α) (p : α → Bool) (c : Cursor)
    (call : ListCall α) : Prop where
  inserted : ∀ m x, s.insertPlace call = some (m, x) → m ≤ c.link ∨ p x = false
  erased : ∀ m, s.erasePlace call = some m → m < c.pos ∨ ∀ x ∈ s.items[m]?, p x = false
  erasedAll : ∀ f, call = .deleteAll f → ∀ x ∈ s.items.drop c.pos, f x = true → p x = false

/-- A call does not set an iterator but by `list_next`: it neither sorts the list nor resets,
destroys or moves the iterator otherwise. -/
def ListCall.LeavesCursor (i : ℕ) : ListCall α → Prop
  | .sort _ => False
  | .iteratorReset j => j ≠ i
  | .iteratorDestroy j => j ≠ i
  | .find _ j => j ≠ i
  | _ => True

/-- The items ahead of a cursor that have a property. -/
def ItemList.ahead (s : ItemList α) (p : α → Bool) (c : Cursor) : List α :=
  (s.items.drop c.pos).filter p

/-- A call through an iterator, or one that only reads the list. -/
def ListCall.Own (i : ℕ) : ListCall α → Prop
  | .next j => j = i
  | .insert _ j _ => j = i
  | .remove j => j = i
  | .delete j => j = i
  | .peek => True
  | .isEmpty => True
  | .count => True
  | .findFirst _ => True
  | .forEach _ => True
  | _ => False

/-- A run in which no call disturbs an iterator. -/
def ItemList.UndisturbedRun (p : α → Bool) (i : ℕ) : ItemList α → List (ListCall α) → Prop
  | _, [] => True
  | s, call :: calls =>
    (∀ c, s.cursors.lookup i = some c → s.Undisturbed p c call) ∧ call.LeavesCursor i ∧
      ∀ answer s', s.call call = some (answer, s') → ItemList.UndisturbedRun p i s' calls

/-- The items that the calls of `list_next` on an iterator give. -/
def givenBy (i : ℕ) : List (ListCall α) → List (ListAnswer α) → List α
  | .next j :: calls, answer :: answers => (if j = i then answer.data.toList else []) ++
    givenBy i calls answers
  | _ :: calls, _ :: answers => givenBy i calls answers
  | _, _ => []

theorem givenBy_next (i j : ℕ) (answer : ListAnswer α) :
    givenBy i [.next j] [answer] = if j = i then answer.data.toList else [] := by
  simp [givenBy]

/-! ### One call -/

/-- A cursor of the list when all cursors are moved. -/
theorem lookup_move {s : ItemList α} {i : ℕ} {c : Cursor} (hc : s.cursors.lookup i = some c)
    (move : Cursor → Cursor) :
    (s.cursors.map fun e ↦ (e.1, move e.2)).lookup i = some (move c) := by
  rw [lookup_map, hc, Option.map_some]

/-- Setting another cursor leaves a cursor as it is. -/
theorem lookup_setCursor_of_ne {s : ItemList α} {i j : ℕ} (h : j ≠ i) (c : Cursor) :
    (s.setCursor j c).cursors.lookup i = s.cursors.lookup i := by
  have hentries : ∀ entries : List (ℕ × Cursor),
      (entries.map fun e ↦ if e.1 = j then (j, c) else e).lookup i = entries.lookup i := by
    intro entries
    induction entries with
    | nil => rfl
    | cons e rest ih =>
      rw [List.map_cons, List.lookup_cons, List.lookup_cons, ih]
      split_ifs with hkey
      · have hother : (i == j) = false := by simpa using Ne.symm h
        rw [hkey, hother]
      · rfl
  exact hentries s.cursors

/-- Leaving out another cursor leaves a cursor as it is. -/
theorem lookup_filter_of_ne {i j : ℕ} (h : j ≠ i) : ∀ entries : List (ℕ × Cursor),
    (entries.filter fun e ↦ e.1 ≠ j).lookup i = entries.lookup i
  | [] => rfl
  | e :: rest => by
    rw [List.filter_cons, List.lookup_cons]
    split_ifs with hkey
    · rw [List.lookup_cons, lookup_filter_of_ne h rest]
    · have hsame : e.1 = j := by simpa using hkey
      have hother : (i == e.1) = false := by simpa [hsame] using Ne.symm h
      rw [hother, lookup_filter_of_ne h rest]

section

variable {s : ItemList α} {i : ℕ} {c : Cursor} (hc : s.cursors.lookup i = some c)
    (hwithin : c.Within s.items.length)
  {p : α → Bool}

include hc hwithin

/-- Assumes: an item that is put in behind the cursor, or that has not the property. -/
theorem ahead_insertAt {m : ℕ} {x : α} (h : m ≤ c.link ∨ p x = false) (memory : Bool) :
    ∃ c', (s.insertAt memory m x).2.cursors.lookup i = some c' ∧
      (s.insertAt memory m x).2.ahead p c' = s.ahead p c := by
  unfold ItemList.insertAt
  by_cases hfull : s.spare = 0 ∧ memory = false
  · rw [if_pos hfull]
    exact ⟨c, hc, rfl⟩
  · rw [if_neg hfull]
    refine ⟨c.inserted m, lookup_move hc _, ?_⟩
    change ((s.items.insertIdx m x).drop (c.inserted m).pos).filter p = _
    rcases h with hbehind | hnot
    · rw [Cursor.drop_inserted hwithin, if_pos hbehind]
      rfl
    · exact Cursor.filter_drop_inserted hwithin hnot m

/-- Assumes: an item that is behind the cursor, or that has not the property. -/
theorem ahead_eraseAt {m : ℕ} (h : m < c.pos ∨ ∀ x ∈ s.items[m]?, p x = false) :
    ∃ c', (s.eraseAt m).2.cursors.lookup i = some c' ∧ (s.eraseAt m).2.ahead p c' =
      s.ahead p c := by
  unfold ItemList.eraseAt
  cases hitem : s.items[m]? with
  | none => exact ⟨c, hc, rfl⟩
  | some x =>
    refine ⟨c.erased m, lookup_move hc _, ?_⟩
    change ((s.items.eraseIdx m).drop (c.erased m).pos).filter p = _
    rcases h with hbehind | hnot
    · rw [Cursor.drop_erased hwithin, if_neg (not_le.mpr hbehind)]
      rfl
    · exact Cursor.filter_drop_erased hwithin hnot

omit hwithin in
/-- The next item of the cursor. -/
theorem ahead_next : ∃ c', (s.setCursor i (nextItem s.items c).2).cursors.lookup i = some c' ∧
    (nextItem s.items c).1.toList.filter p ++ (s.setCursor i (nextItem s.items c).2).ahead p c' =
      s.ahead p c ∧
    ((nextItem s.items c).1 = none → s.ahead p c = []) := by
  refine ⟨_, lookup_setCursor hc _, ?_⟩
  change (nextItem s.items c).1.toList.filter p ++
    (s.items.drop (nextItem s.items c).2.pos).filter p = _ ∧ _
  unfold nextItem Cursor.advance ItemList.ahead
  cases hitem : s.items[c.pos]? with
  | none =>
    have hend := List.getElem?_eq_none_iff.mp hitem
    rw [if_neg (by omega), List.drop_eq_nil_of_le hend]
    exact ⟨rfl, fun _ ↦ rfl⟩
  | some x =>
    obtain ⟨hlt, hat⟩ := List.getElem?_eq_some_iff.mp hitem
    rw [if_pos hlt, List.drop_eq_getElem_cons hlt, hat]
    refine ⟨?_, fun h ↦ by simp at h⟩
    rw [Option.toList_some, ← List.filter_append, List.singleton_append]

end

/-- Assumes: that none of the items ahead of the cursor which are taken out has the property. -/
theorem ahead_eraseAll {i : ℕ} {p f : α → Bool} (rest : List α) :
    ∀ (m : ℕ) {s : ItemList α} {c : Cursor}, s.cursors.lookup i = some c → c.Within s.items.length →
      s.items.drop m = rest →
      (∀ x ∈ s.items.drop c.pos, f x = true → p x = false) →
      ∃ c', (ItemList.eraseAll f rest m s).2.cursors.lookup i = some c' ∧
        (ItemList.eraseAll f rest m s).2.ahead p c' = s.ahead p c := by
  induction rest with
  | nil => exact fun m s c hc _ _ _ ↦ ⟨c, hc, rfl⟩
  | cons x rest ih =>
    intro m s c hc hwithin hdrop hout
    have hitem : s.items[m]? = some x := by
      rw [← Nat.add_zero m, ← List.getElem?_drop, hdrop]
      rfl
    have hlt := (List.getElem?_eq_some_iff.mp hitem).1
    have hrest : s.items.drop (m + 1) = rest := by
      rw [← List.drop_drop, hdrop, List.drop_succ_cons, List.drop_zero]
    rw [ItemList.eraseAll]
    split_ifs with hf
    · have hplace : m < c.pos ∨ ∀ y ∈ s.items[m]?, p y = false := by
        refine (Nat.lt_or_ge m c.pos).imp_right fun hle y hy ↦ ?_
        obtain rfl := Option.some.inj (hitem.symm.trans hy)
        refine hout x ?_ hf
        refine List.mem_of_getElem? (i := m - c.pos) ?_
        rw [List.getElem?_drop, Nat.add_sub_cancel' hle, hitem]
      have hsame : (s.eraseAt m).2 = { s with
          items := s.items.eraseIdx m, cursors := s.cursors.map fun e ↦ (e.1, e.2.erased m),
              spare := s.spare + 1 } := by
        rw [ItemList.eraseAt, hitem]
      have hahead : (s.eraseAt m).2.ahead p (c.erased m) = s.ahead p c := by
        obtain ⟨c', hc', heq⟩ := ahead_eraseAt hc hwithin hplace
        rw [hsame] at hc' heq ⊢
        obtain rfl := Option.some.inj (hc'.symm.trans (lookup_move hc _))
        exact heq
      rw [← hahead, hsame]
      refine ih m (lookup_move hc _) ?_ ?_ fun y hy hfy ↦ ?_
      · rw [List.length_eraseIdx_of_lt hlt]
        exact hwithin.erased hlt
      · rw [← hrest]
        refine List.ext_getElem? fun k ↦ ?_
        rw [List.getElem?_drop, List.getElem?_drop, List.getElem?_eraseIdx_of_ge (by omega)]
        congr 1
        omega
      · change y ∈ (s.items.eraseIdx m).drop (c.erased m).pos at hy
        rw [Cursor.drop_erased hwithin] at hy
        split_ifs at hy
        · exact hout y (List.mem_of_mem_eraseIdx hy) hfy
        · exact hout y hy hfy
    · exact ih (m + 1) hc hwithin hrest hout

/-- Assumes: a cursor of the list. No call through it puts in or takes out anything ahead of it. -/
theorem undisturbed_of_own {s : ItemList α} {i : ℕ} {c : Cursor} {p : α → Bool}
    (hc : s.cursors.lookup i = some c)
    (hwithin : c.Within s.items.length) {call : ListCall α} (hown : call.Own i) :
      s.Undisturbed p c call := by
  have hlink := Cursor.link_cases hwithin
  have hremove : ∀ m, ((s.cursors.lookup i).bind fun c ↦ if c.held then some c.link else none) =
      some m → m < c.pos := by
    intro m hm
    rw [hc, Option.bind_some] at hm
    split_ifs at hm with hheld
    obtain rfl := Option.some.inj hm
    rw [hheld] at hlink
    simp only [Bool.true_eq_false, false_and, true_and, false_or] at hlink
    omega
  cases call with
  | insert memory j x =>
    obtain rfl : j = i := hown
    refine ⟨fun m y h ↦ Or.inl ?_, fun m h ↦ by simp [ItemList.erasePlace] at h,
      fun f h ↦ by simp at h⟩
    rw [ItemList.insertPlace, hc] at h
    exact (Prod.mk.inj (Option.some.inj h)).1.ge
  | remove j =>
    obtain rfl : j = i := hown
    exact ⟨fun m y h ↦ by simp [ItemList.insertPlace] at h, fun m h ↦ Or.inl (hremove m h),
      fun f h ↦ by simp at h⟩
  | delete j =>
    obtain rfl : j = i := hown
    exact ⟨fun m y h ↦ by simp [ItemList.insertPlace] at h, fun m h ↦ Or.inl (hremove m h),
      fun f h ↦ by simp at h⟩
  | next j =>
    exact ⟨fun m y h ↦ by simp [ItemList.insertPlace] at h, fun m h ↦ by
      simp [ItemList.erasePlace] at h, fun f h ↦ by simp at h⟩
  | peek =>
    exact ⟨fun m y h ↦ by simp [ItemList.insertPlace] at h, fun m h ↦ by
      simp [ItemList.erasePlace] at h, fun f h ↦ by simp at h⟩
  | isEmpty =>
    exact ⟨fun m y h ↦ by simp [ItemList.insertPlace] at h, fun m h ↦ by
      simp [ItemList.erasePlace] at h, fun f h ↦ by simp at h⟩
  | count =>
    exact ⟨fun m y h ↦ by simp [ItemList.insertPlace] at h, fun m h ↦ by
      simp [ItemList.erasePlace] at h, fun f h ↦ by simp at h⟩
  | findFirst f =>
    exact ⟨fun m y h ↦ by simp [ItemList.insertPlace] at h, fun m h ↦ by
      simp [ItemList.erasePlace] at h, fun f h ↦ by simp at h⟩
  | forEach f =>
    exact ⟨fun m y h ↦ by simp [ItemList.insertPlace] at h, fun m h ↦ by
      simp [ItemList.erasePlace] at h, fun f h ↦ by simp at h⟩
  | append | prepend | pop | deleteAll | sort | iteratorCreate | iteratorReset | iteratorDestroy
    | find => exact hown.elim

/-- Assumes: a call that does not disturb an iterator. What it gives of the items with the property,
if it is `list_next` on the iterator, and what is ahead of the iterator afterwards are what was
ahead before. -/
theorem ahead_call {s s' : ItemList α} {i : ℕ} {c : Cursor} {p : α → Bool} {call : ListCall α}
    {answer : ListAnswer α}
    (hc : s.cursors.lookup i = some c) (hwithin : c.Within s.items.length)
    (hun : s.Undisturbed p c call)
    (hleaves : call.LeavesCursor i) (hcall : s.call call = some (answer, s')) :
    ∃ c', s'.cursors.lookup i = some c' ∧ (givenBy i [call] [answer]).filter p ++ s'.ahead p c' =
      s.ahead p c ∧
      (call = .next i → answer.data = none → s.ahead p c = []) := by
  -- a call that gives nothing on the iterator
  have hquiet : ∀ {s1 : ItemList α}, (∃ c', s1.cursors.lookup i = some c' ∧
    s1.ahead p c' = s.ahead p c) → s1 = s' →
      givenBy i [call] [answer] = [] → call ≠ .next i →
      ∃ c', s'.cursors.lookup i = some c' ∧ (givenBy i [call] [answer]).filter p ++ s'.ahead p c' =
        s.ahead p c ∧
        (call = .next i → answer.data = none → s.ahead p c = []) := by
    rintro s1 ⟨c', hc', hahead⟩ rfl hgiven hnext
    exact ⟨c', hc', by rw [hgiven, List.filter_nil, List.nil_append, hahead], fun h ↦
      absurd h hnext⟩
  have hstays : ∃ c', s.cursors.lookup i = some c' ∧ s.ahead p c' = s.ahead p c := ⟨c, hc, rfl⟩
  have hother : ∀ (j : ℕ) (c' : Cursor), j ≠ i →
      ∃ c'', (s.setCursor j c').cursors.lookup i = some c'' ∧ (s.setCursor j c').ahead p c'' =
          s.ahead p c := fun j c' hj ↦
    ⟨c, (lookup_setCursor_of_ne hj c').trans hc, rfl⟩
  cases call with
  | append memory x =>
    refine hquiet (ahead_insertAt hc hwithin (hun.inserted _ _ rfl) memory)
      (congrArg Prod.snd (Option.some.inj hcall)) rfl
      (by simp)
  | prepend memory x =>
    refine hquiet (ahead_insertAt hc hwithin (hun.inserted _ _ rfl) memory)
      (congrArg Prod.snd (Option.some.inj hcall)) rfl
      (by simp)
  | pop =>
    refine hquiet (ahead_eraseAt hc hwithin (hun.erased _ rfl))
      (congrArg Prod.snd (Option.some.inj hcall)) rfl (by simp)
  | peek => exact hquiet hstays (congrArg Prod.snd (Option.some.inj hcall)) rfl (by simp)
  | isEmpty => exact hquiet hstays (congrArg Prod.snd (Option.some.inj hcall)) rfl (by simp)
  | count => exact hquiet hstays (congrArg Prod.snd (Option.some.inj hcall)) rfl (by simp)
  | findFirst f => exact hquiet hstays (congrArg Prod.snd (Option.some.inj hcall)) rfl (by simp)
  | deleteAll f =>
    exact hquiet (ahead_eraseAll s.items 0 hc hwithin List.drop_zero (hun.erasedAll f rfl))
      (congrArg Prod.snd (Option.some.inj hcall)) rfl (by simp)
  | forEach f => exact hquiet hstays (congrArg Prod.snd (Option.some.inj hcall)) rfl (by simp)
  | sort f => exact hleaves.elim
  | iteratorCreate j =>
    rw [ItemList.call] at hcall
    split_ifs at hcall with hnew
    have hne : j ≠ i := fun h ↦ hnew (by rw [h, hc]; rfl)
    have hbeq : (i == j) = false := by simpa using hne.symm
    refine @hquiet { s with cursors := (j, Cursor.start) :: s.cursors } ⟨c, ?_, rfl⟩
      (congrArg Prod.snd (Option.some.inj hcall)) rfl (by simp)
    rw [List.lookup_cons, hbeq]
    exact hc
  | iteratorReset j =>
    obtain ⟨c', -, hcall⟩ := Option.bind_eq_some_iff.mp hcall
    exact hquiet (hother j _ hleaves) (congrArg Prod.snd (Option.some.inj hcall)) rfl (by simp)
  | iteratorDestroy j =>
    obtain ⟨c', -, hcall⟩ := Option.bind_eq_some_iff.mp hcall
    exact @hquiet { s with cursors := s.cursors.filter fun e ↦ e.1 ≠ j }
      ⟨c, (lookup_filter_of_ne hleaves s.cursors).trans hc, rfl⟩
        (congrArg Prod.snd (Option.some.inj hcall)) rfl (by simp)
  | next j =>
    obtain ⟨c', hlookup, hcall⟩ := Option.bind_eq_some_iff.mp hcall
    obtain ⟨rfl, rfl⟩ := Prod.mk.inj (Option.some.inj hcall)
    by_cases hj : j = i
    · subst hj
      obtain rfl := Option.some.inj (hlookup.symm.trans hc)
      obtain ⟨c', hc', hahead, hnone⟩ := ahead_next (p := p) hc
      refine ⟨c', hc', ?_, fun _ ↦ hnone⟩
      rw [← hahead, givenBy_next, if_pos rfl]
      rfl
    · obtain ⟨c'', hc'', hahead⟩ := hother j (nextItem s.items c').2 hj
      refine ⟨c'', hc'', ?_, fun h ↦ absurd (ListCall.next.inj h) hj⟩
      rw [givenBy_next, if_neg hj]
      exact hahead
  | insert memory j x =>
    obtain ⟨c', hlookup, hcall⟩ := Option.bind_eq_some_iff.mp hcall
    refine hquiet (ahead_insertAt hc hwithin (hun.inserted c'.link x ?_) memory)
      (congrArg Prod.snd (Option.some.inj hcall)) rfl
      (by simp)
    rw [ItemList.insertPlace, hlookup]
    rfl
  | find f j =>
    obtain ⟨c', -, hcall⟩ := Option.bind_eq_some_iff.mp hcall
    exact hquiet (hother j _ hleaves) (congrArg Prod.snd (Option.some.inj hcall)) rfl (by simp)
  | remove j =>
    obtain ⟨c', hlookup, hcall⟩ := Option.bind_eq_some_iff.mp hcall
    refine @hquiet (s.removeHeld c').2 ?_ (congrArg Prod.snd (Option.some.inj hcall)) rfl (by simp)
    unfold ItemList.removeHeld
    split_ifs with hheld
    · refine ahead_eraseAt hc hwithin (hun.erased c'.link ?_)
      rw [ItemList.erasePlace, hlookup, Option.bind_some, if_pos hheld]
    · exact hstays
  | delete j =>
    obtain ⟨c', hlookup, hcall⟩ := Option.bind_eq_some_iff.mp hcall
    refine @hquiet (s.removeHeld c').2 ?_ (congrArg Prod.snd (Option.some.inj hcall)) rfl (by simp)
    unfold ItemList.removeHeld
    split_ifs with hheld
    · refine ahead_eraseAt hc hwithin (hun.erased c'.link ?_)
      rw [ItemList.erasePlace, hlookup, Option.bind_some, if_pos hheld]
    · exact hstays

/-! ### Runs -/

/-- The first call and its answer, and the others. -/
theorem givenBy_cons (i : ℕ) (call : ListCall α) (answer : ListAnswer α) (calls : List (ListCall α))
    (answers : List (ListAnswer α)) :
    givenBy i (call :: calls) (answer :: answers) = givenBy i [call]
      [answer] ++ givenBy i calls answers := by
  cases call <;> simp [givenBy]

/-- Assumes: calls none of which disturbs an iterator. What they give of the items with the
property, and what is ahead of the iterator afterwards, are what was ahead before. -/
theorem ahead_run {p : α → Bool} {i : ℕ} (calls : List (ListCall α)) :
    ∀ {l : LinkedList α} {cells : List (ℕ × α)} {s s' : ItemList α} {c : Cursor}
      {answers : List (ListAnswer α)},
      Represents l cells s → s.cursors.lookup i = some c → ItemList.UndisturbedRun p i s calls →
      s.run calls = some (answers, s') →
      ∃ c', s'.cursors.lookup i = some c' ∧ (givenBy i calls answers).filter p ++ s'.ahead p c' =
        s.ahead p c := by
  induction calls with
  | nil =>
    intro l cells s s' c answers _ hc _ hrun
    obtain ⟨rfl, rfl⟩ := Prod.mk.inj (Option.some.inj hrun)
    exact ⟨c, hc, rfl⟩
  | cons call calls ih =>
    intro l cells s s' c answers h hc hun hrun
    obtain ⟨hfirst, hleaves, hrest⟩ := hun
    obtain ⟨⟨answer, s1⟩, hcall, hlater⟩ := Option.bind_eq_some_iff.mp hrun
    obtain ⟨⟨others, s2⟩, hothers, hdone⟩ := Option.bind_eq_some_iff.mp hlater
    obtain ⟨rfl, rfl⟩ := Prod.mk.inj (Option.some.inj hdone)
    obtain ⟨l1, cells1, -, hrep⟩ := listCall_represents h hcall
    obtain ⟨c1, hc1, hahead1, -⟩ := ahead_call hc (h.within _ (mem_of_lookup hc))
      (hfirst c hc) hleaves hcall
    obtain ⟨c2, hc2, hahead2⟩ := ih hrep hc1 (hrest answer s1 hcall) hothers
    refine ⟨c2, hc2, ?_⟩
    rw [givenBy_cons, List.filter_append, List.append_assoc, hahead2, hahead1]

/-- Assumes: calls through an iterator of the list. None of them disturbs it. -/
theorem undisturbedRun_of_own {p : α → Bool} {i : ℕ} (calls : List (ListCall α)) :
    ∀ {l : LinkedList α} {cells : List (ℕ × α)} {s : ItemList α} {c : Cursor},
      Represents l cells s →
      s.cursors.lookup i = some c → (∀ call ∈ calls, call.Own i) →
      ItemList.UndisturbedRun p i s calls := by
  induction calls with
  | nil => exact fun _ _ _ ↦ trivial
  | cons call calls ih =>
    intro l cells s c h hc hown
    obtain ⟨hfirst, hlater⟩ := List.forall_mem_cons.mp hown
    have hwithin := h.within _ (mem_of_lookup hc)
    have hleaves : call.LeavesCursor i := by
      cases call <;> trivial
    refine ⟨fun c' hc' ↦ ?_, hleaves, fun answer s' hcall ↦ ?_⟩
    · obtain rfl := Option.some.inj (hc.symm.trans hc')
      exact undisturbed_of_own hc hwithin hfirst
    · obtain ⟨l', cells', -, hrep⟩ := listCall_represents h hcall
      obtain ⟨c', hc', -⟩ :=
        ahead_call hc hwithin (undisturbed_of_own (p := p) hc hwithin hfirst) hleaves hcall
      exact ih hrep hc' hlater

/-- Calls one after the other. -/
theorem ItemList.run_append (before : List (ListCall α)) :
    ∀ {s s' s'' : ItemList α} {later : List (ListCall α)} {answers answers' : List (ListAnswer α)},
      s.run before = some (answers, s') → s'.run later = some (answers', s'') →
      s.run (before ++ later) = some (answers ++ answers', s'') := by
  induction before with
  | nil =>
    intro s s' s'' later answers answers' hfirst hlater
    obtain ⟨rfl, rfl⟩ := Prod.mk.inj (Option.some.inj hfirst)
    exact hlater
  | cons call before ih =>
    intro s s' s'' later answers answers' hfirst hlater
    obtain ⟨⟨answer, s1⟩, hcall, hrest⟩ := Option.bind_eq_some_iff.mp hfirst
    obtain ⟨⟨others, s2⟩, hothers, hdone⟩ := Option.bind_eq_some_iff.mp hrest
    obtain ⟨rfl, rfl⟩ := Prod.mk.inj (Option.some.inj hdone)
    rw [List.cons_append, ItemList.run, hcall]
    simp only [bind, Option.bind_some, ih hothers hlater]
    rfl

/-- Assumes: a run of calls from a new list that leaves an iterator in front of the first item, and
then calls none of which puts an item with a property in or takes one out ahead of the iterator, or
sets it otherwise, until `list_next` on it gives the null pointer. Of the items with the property
the calls on the linked list give exactly those that were there at the start, each once and in
order. -/
theorem listRun_traverses {fDel : Bool} {p : α → Bool} {i : ℕ} {before during : List (ListCall α)}
    {s s' : ItemList α}
    {answers answers' : List (ListAnswer α)}
    (hbefore : (ItemList.empty fDel).run before = some (answers, s))
    (hstart : s.cursors.lookup i = some Cursor.start) (hun : ItemList.UndisturbedRun p i s during)
    (hduring : s.run during = some (answers', s'))
    (hend : (s'.call (.next i)).map Prod.fst = some (.ofData none)) :
    (∃ l, listRun (listCreate fDel) (before ++ (during ++ [.next i])) =
        .ok (answers ++ (answers' ++ [.ofData none]), l)) ∧
      (givenBy i during answers').filter p = s.items.filter p := by
  obtain ⟨⟨answer, s''⟩, hnext, rfl⟩ := Option.map_eq_some_iff.mp hend
  obtain ⟨l, cells, -, hrep⟩ := listRun_represents before (represents_listCreate fDel) hbefore
  obtain ⟨l', cells', -, hrep'⟩ := listRun_represents during hrep hduring
  constructor
  · have hlast : s'.run [.next i] = some ([.ofData none], s'') := by
      rw [ItemList.run, hnext]
      rfl
    obtain ⟨l'', -, hrun, -⟩ := listRun_represents _ (represents_listCreate fDel)
      (ItemList.run_append before hbefore (ItemList.run_append during hduring hlast))
    exact ⟨l'', hrun⟩
  · obtain ⟨c', hc', hahead⟩ := ahead_run during hrep hstart hun hduring
    have hquiet : s'.Undisturbed p c' (.next i) :=
      undisturbed_of_own hc' (hrep'.within _ (mem_of_lookup hc'))
        (show ListCall.Own i (.next i) from rfl)
    obtain ⟨-, -, -, hlast⟩ :=
      ahead_call hc' (hrep'.within _ (mem_of_lookup hc')) hquiet trivial hnext
    have hnone : s'.ahead p c' = [] := hlast rfl rfl
    rw [hnone, List.append_nil] at hahead
    exact hahead

/-- A list of three items: the first is taken out when it is given, and another is put in in front
of the second when that is given. -/
theorem listRun_traverses_three :
    (∃ l, listRun (listCreate false)
        ([.append true 1, .append true 2, .append true 3, .iteratorCreate 0] ++
          ([.next 0, .remove 0, .next 0, .insert true 0 9, .next 0] ++ [.next 0])) =
      .ok ([.ofData (some 1), .ofData (some 2), .ofData (some 3), .ofNumber 0] ++
        ([.ofData (some 1), .ofData (some 1), .ofData (some 2), .ofData (some 9),
          .ofData (some 3)] ++ [.ofData none]), l)) ∧
      [1, 2, 3].filter (fun _ ↦ true) = [1, 2, 3].filter fun _ ↦ true := by
  obtain ⟨l, cells, -, hrep⟩ :=
    listRun_represents [.append true 1, .append true 2, .append true 3, .iteratorCreate 0]
    (represents_listCreate false) rfl
  exact listRun_traverses (p := fun _ ↦ true) (i := 0) rfl rfl
    (undisturbedRun_of_own _ hrep rfl fun call hcall ↦ by
      simp only [List.mem_cons, List.not_mem_nil, or_false] at hcall
      rcases hcall with rfl | rfl | rfl | rfl | rfl <;> rfl) rfl rfl

end Whatsup

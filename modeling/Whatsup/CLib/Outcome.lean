import Mathlib.Data.List.Forall2
import Mathlib.Tactic.Common

/-!
# Steps that can fail

A step that can fail takes a state to a new one or ends with a fault. `foldlM_ok` is the induction
rule for a sequence of such steps that does not fail: what holds of the steps done and the state
reached is kept by every step. `exists_foldlM_ok` is the rule that says, besides, that none of the
steps fails. `mapM_eq_some_iff` takes apart a sequence of steps each of which gives a value or none.

An `Attempt` is a step that may also give up: it then keeps the state it has come to, as C code does
that jumps to its cleanup. `attempt_bind_some` takes a sequence of attempts apart, and `Preserves`
is the rule for what every part of an attempt leaves as it is. A `Candid` attempt does not read a
component of its state, an error number say, and sets it when it gives up.
-/

set_option autoImplicit false
set_option relaxedAutoImplicit false

namespace CLib

variable {ε α β σ : Type}

/-- A sequence of two steps succeeds exactly when both do. -/
theorem bind_eq_ok {first : Except ε α} {second : α → Except ε β} {result : β} :
    (first >>= second) = .ok result ↔ ∃ value, first = .ok value ∧ second value = .ok result := by
  cases first with
  | error fault =>
    constructor
    · rintro ⟨⟩
    · rintro ⟨_, ⟨⟩, -⟩
  | ok value =>
    constructor
    · exact fun h ↦ ⟨value, rfl, h⟩
    · rintro ⟨_, ⟨rfl⟩, h⟩
      exact h

/-- The value of a step that succeeds is mapped. -/
theorem map_eq_ok {step : Except ε α} {f : α → β} {result : β} :
    step.map f = .ok result ↔ ∃ value, step = .ok value ∧ f value = result := by
  cases step with
  | error fault => simp [Except.map]
  | ok value => simp [Except.map]

/-- Assumes: a property of the steps done and the state reached that every successful step keeps. A
sequence of steps that succeeds keeps it. -/
theorem foldlM_ok (P : List α → σ → Prop) {step : σ → α → Except ε σ}
    (hstep : ∀ done x s s', P done s → step s x = .ok s' → P (done ++ [x]) s')
    (done : List α) {s s' : σ}
    (hs : P done s) {xs : List α} (h : xs.foldlM step s = .ok s') : P (done ++ xs) s' := by
  induction xs generalizing s done with
  | nil =>
    obtain rfl := Except.ok.inj h
    rwa [List.append_nil]
  | cons x xs ih =>
    rw [List.foldlM_cons] at h
    obtain ⟨middle, hfirst, hrest⟩ := bind_eq_ok.mp h
    have hkept := ih (done ++ [x]) (hstep done x s middle hs hfirst) hrest
    rwa [List.append_assoc] at hkept

/-- Assumes: a property of the steps done and the state reached such that every step of the sequence
succeeds and keeps it. The sequence succeeds and keeps it. -/
theorem exists_foldlM_ok (P : List α → σ → Prop) {step : σ → α → Except ε σ} {xs : List α}
    (done : List α) (hstep : ∀ before x after s, done ++ xs = before ++ x :: after → P before s →
      ∃ s', step s x = .ok s' ∧ P (before ++ [x]) s') {s : σ} (hs : P done s) :
    ∃ s', xs.foldlM step s = .ok s' ∧ P (done ++ xs) s' := by
  induction xs generalizing s done with
  | nil =>
    refine ⟨s, rfl, ?_⟩
    rwa [List.append_nil]
  | cons x xs ih =>
    obtain ⟨middle, hfirst, hmiddle⟩ := hstep done x xs s rfl hs
    obtain ⟨s', hrest, hkept⟩ := ih (done ++ [x]) (fun before y after s hsplit ↦
      hstep before y after s (by rw [← hsplit, List.append_assoc]; rfl)) hmiddle
    refine ⟨s', ?_, ?_⟩
    · rw [List.foldlM_cons]
      exact bind_eq_ok.mpr ⟨middle, hfirst, hrest⟩
    · rwa [List.append_assoc] at hkept

/-! ### Steps that give a value or none -/

/-- A sequence of steps gives values exactly if each step gives its value. -/
theorem mapM_eq_some_iff {f : α → Option β} {items : List α} :
    ∀ {values : List β}, items.mapM f = some values ↔
      List.Forall₂ (fun item value ↦ f item = some value) items values := by
  induction items with
  | nil =>
    intro values
    rw [List.mapM_nil, List.forall₂_nil_left_iff]
    exact ⟨fun h ↦ (Option.some.inj h).symm, fun h ↦ h ▸ rfl⟩
  | cons item items ih =>
    intro values
    rw [List.mapM_cons]
    constructor
    · intro h
      obtain ⟨first, hfirst, h⟩ := Option.bind_eq_some_iff.mp h
      obtain ⟨rest, hrest, h⟩ := Option.bind_eq_some_iff.mp h
      obtain rfl := Option.some.inj h
      exact .cons hfirst (ih.mp hrest)
    · intro h
      obtain ⟨first, rest, hfirst, hrest, rfl⟩ := List.forall₂_cons_left_iff.mp h
      rw [hfirst, ih.mpr hrest]
      rfl

/-- The values of a sequence of steps come from its items. -/
theorem exists_of_mem_mapM {f : α → Option β} {items : List α} {values : List β}
    (h : items.mapM f = some values) {value : β} (hvalue : value ∈ values) : ∃ item ∈ items,
      f item = some value := by
  induction mapM_eq_some_iff.mp h with
  | nil => exact absurd hvalue List.not_mem_nil
  | @cons item first items rest hfirst hrest ih =>
    rcases List.mem_cons.mp hvalue with rfl | hvalue
    · exact ⟨item, List.mem_cons_self, hfirst⟩
    · obtain ⟨other, hother, hread⟩ := ih (mapM_eq_some_iff.mpr hrest) hvalue
      exact ⟨other, List.mem_cons_of_mem _ hother, hread⟩

/-- The items of a sequence of steps that gives values have values each. -/
theorem exists_of_mapM_mem {f : α → Option β} {items : List α} {values : List β}
    (h : items.mapM f = some values) {item : α} (hitem : item ∈ items) : ∃ value ∈ values, f item =
      some value := by
  induction mapM_eq_some_iff.mp h with
  | nil => exact absurd hitem List.not_mem_nil
  | @cons first value items values hfirst hrest ih =>
    rcases List.mem_cons.mp hitem with rfl | hitem
    · exact ⟨value, List.mem_cons_self, hfirst⟩
    · obtain ⟨other, hother, hread⟩ := ih (mapM_eq_some_iff.mpr hrest) hitem
      exact ⟨other, List.mem_cons_of_mem _ hother, hread⟩

/-- Assumes: steps that give values which the other steps give as well. So do their sequences. -/
theorem mapM_imp {f g : α → Option β} {items : List α} {values : List β}
    (h : items.mapM f = some values)
    (himp : ∀ item ∈ items, ∀ value ∈ values, f item = some value → g item = some value) :
      items.mapM g = some values := by
  rw [mapM_eq_some_iff] at h ⊢
  induction h with
  | nil => exact .nil
  | cons hfirst hrest ih =>
    refine .cons (himp _ List.mem_cons_self _ List.mem_cons_self hfirst)
      (ih fun item hitem value hvalue ↦ ?_)
    exact himp item (List.mem_cons_of_mem _ hitem) value (List.mem_cons_of_mem _ hvalue)

/-- Assumes: steps that all give a value. So does their sequence. -/
theorem mapM_eq_some {f : α → Option β} {g : α → β} {items : List α}
    (h : ∀ item ∈ items, f item = some (g item)) : items.mapM f = some (items.map g) := by
  induction items with
  | nil => rfl
  | cons item items ih =>
    obtain ⟨hitem, hitems⟩ := List.forall_mem_cons.mp h
    rw [List.mapM_cons, hitem, ih hitems]
    rfl

/-- A sequence of steps gives none exactly if one of them does. -/
theorem mapM_eq_none_iff {f : α → Option β} {items : List α} : items.mapM f = none ↔
    ∃ item ∈ items, f item = none := by
  induction items with
  | nil => exact ⟨fun h ↦ absurd h (by simp), fun ⟨_, hitem, _⟩ ↦ absurd hitem List.not_mem_nil⟩
  | cons item items ih =>
    rw [List.mapM_cons, List.exists_mem_cons_iff, ← ih]
    cases hitem : f item with
    | none => exact ⟨fun _ ↦ Or.inl rfl, fun _ ↦ rfl⟩
    | some value =>
      cases hitems : items.mapM f with
      | none => exact ⟨fun _ ↦ Or.inr rfl, fun _ ↦ rfl⟩
      | some values => exact ⟨fun h ↦ absurd h (by simp), fun h ↦ absurd h (by simp)⟩

/-! ### Attempts -/

/-- A step that ends with a value, gives up, or ends with a fault; in the first two cases in some
state. -/
def Attempt (ε σ α : Type) : Type :=
  σ → Except ε (Option α × σ)

/-- An attempt and, if it ends with a value, a second one. -/
def Attempt.andThen (first : Attempt ε σ α) (second : α → Attempt ε σ β) : Attempt ε σ β :=
  fun s ↦
    match first s with
    | .error fault => .error fault
    | .ok (none, s') => .ok (none, s')
    | .ok (some value, s') => second value s'

instance : Monad (Attempt ε σ) where
  pure value := fun s ↦ .ok (some value, s)
  bind := Attempt.andThen

/-- An attempt and what is done next, whether it succeeds or gives up. -/
def Attempt.whatever (first : Attempt ε σ α) (next : Option α → Attempt ε σ β) : Attempt ε σ β :=
  fun s ↦
    match first s with
    | .error fault => .error fault
    | .ok (value, s') => next value s'

/-- Give up, and change the state on the way. -/
def Attempt.giveUp (f : σ → σ) : Attempt ε σ α :=
  fun s ↦ .ok (none, f s)

/-- Change the state. -/
def Attempt.update (f : σ → σ) : Attempt ε σ Unit :=
  fun s ↦ .ok (some (), f s)

/-- Read the state. -/
def Attempt.look (f : σ → α) : Attempt ε σ α :=
  fun s ↦ .ok (some (f s), s)

/-- End with a fault. -/
def Attempt.fault (failure : ε) : Attempt ε σ α :=
  fun _ ↦ .error failure

/-- Assumes: an attempt that ends with a value. What is done next is done with the value. -/
theorem attempt_bind_ok {first : Attempt ε σ α} {second : α → Attempt ε σ β} {s s' : σ} {value : α}
    (h : first s = .ok (some value, s')) : (first >>= second) s = second value s' := by
  change first.andThen second s = _
  rw [Attempt.andThen, h]

/-- Assumes: an attempt that ends with a fault. Nothing is done next. -/
theorem attempt_bind_error {first : Attempt ε σ α} {second : α → Attempt ε σ β} {s : σ}
    {failure : ε}
    (h : first s = .error failure) : (first >>= second) s = .error failure := by
  change first.andThen second s = _
  rw [Attempt.andThen, h]

/-- A sequence of two attempts succeeds exactly when both do. -/
theorem attempt_bind_some {first : Attempt ε σ α} {second : α → Attempt ε σ β} {s s'' : σ}
    {result : β} :
    (first >>= second) s = .ok (some result, s'') ↔
      ∃ value s', first s = .ok (some value, s') ∧ second value s' = .ok (some result, s'') := by
  change first.andThen second s = _ ↔ _
  unfold Attempt.andThen
  split
  case h_1 hfirst => simp [hfirst]
  case h_2 hfirst => simp [hfirst]
  case h_3 value s' hfirst => simp [hfirst]

/-- A sequence of two attempts gives up exactly when one of them does. -/
theorem attempt_bind_none {first : Attempt ε σ α} {second : α → Attempt ε σ β} {s s'' : σ} :
    (first >>= second) s = .ok (none, s'') ↔ first s = .ok (none, s'') ∨
      ∃ value s', first s = .ok (some value, s') ∧ second value s' = .ok (none, s'') := by
  change first.andThen second s = _ ↔ _
  unfold Attempt.andThen
  split
  case h_1 hfirst => simp [hfirst]
  case h_2 hfirst => simp [hfirst]
  case h_3 value s' hfirst => simp [hfirst]

/-- Sequences of attempts can be regrouped. -/
theorem attempt_bind_assoc {γ : Type} (first : Attempt ε σ α) (second : α → Attempt ε σ β)
    (third : β → Attempt ε σ γ) :
    first >>= second >>= third = first >>= fun value ↦ second value >>= third := by
  funext s
  change (first.andThen second).andThen third s =
    first.andThen (fun value ↦ (second value).andThen third) s
  unfold Attempt.andThen
  rcases first s with failure | ⟨_ | value, s'⟩ <;> rfl

/-! ### What an attempt leaves as it is -/

/-- An attempt leaves a part of the state as it is, however it ends. -/
def Preserves {γ : Type} (part : σ → γ) (attempt : Attempt ε σ α) : Prop :=
  ∀ s value s', attempt s = .ok (value, s') → part s' = part s

section

variable {γ : Type} {part : σ → γ}

theorem preserves_pure (value : α) : Preserves part (pure value : Attempt ε σ α) := by
  rintro s _ _ ⟨rfl, rfl⟩
  rfl

theorem preserves_look (f : σ → α) : Preserves part (Attempt.look f : Attempt ε σ α) := by
  rintro s _ _ ⟨rfl, rfl⟩
  rfl

theorem preserves_fault (failure : ε) : Preserves part (Attempt.fault failure : Attempt ε σ α) := by
  rintro s _ _ ⟨⟩

theorem preserves_update {f : σ → σ} (hf : ∀ s, part (f s) = part s) :
    Preserves part (Attempt.update f : Attempt ε σ Unit) := by
  rintro s _ _ ⟨rfl, rfl⟩
  exact hf s

theorem preserves_giveUp {f : σ → σ} (hf : ∀ s, part (f s) = part s) :
    Preserves part (Attempt.giveUp f : Attempt ε σ α) := by
  rintro s _ _ ⟨rfl, rfl⟩
  exact hf s

/-- What depends on a part that is left as it is is left as it is. -/
theorem Preserves.comp {δ : Type} {attempt : Attempt ε σ α} (h : Preserves part attempt)
    (f : γ → δ) :
    Preserves (f ∘ part) attempt :=
  fun s value s' hrun ↦ congrArg f (h s value s' hrun)

/-- Assumes: two attempts that leave a part of the state as it is. So does their sequence. -/
theorem Preserves.bind {first : Attempt ε σ α} {second : α → Attempt ε σ β}
    (hfirst : Preserves part first)
    (hsecond : ∀ value, Preserves part (second value)) : Preserves part (first >>= second) := by
  intro s result s'' h
  cases result with
  | some result =>
    obtain ⟨value, s', hstart, hrest⟩ := attempt_bind_some.mp h
    exact (hsecond value s' _ s'' hrest).trans (hfirst s _ s' hstart)
  | none =>
    rcases attempt_bind_none.mp h with hstart | ⟨value, s', hstart, hrest⟩
    · exact hfirst s _ s'' hstart
    · exact (hsecond value s' _ s'' hrest).trans (hfirst s _ s' hstart)

theorem Preserves.map {attempt : Attempt ε σ α} (h : Preserves part attempt) (f : α → β) :
    Preserves part (f <$> attempt) :=
  h.bind fun _ ↦ preserves_pure _

end

/-! ### Where an attempt leads -/

/-- From a state with one property an attempt leads to a state with another, whether it succeeds or
gives up. -/
def Leads (P Q : σ → Prop) (attempt : Attempt ε σ α) : Prop :=
  ∀ s value s', P s → attempt s = .ok (value, s') → Q s'

/-- Assumes: an attempt that leaves a part of the state as it is. It keeps every property of that
part. -/
theorem Preserves.leads {γ : Type} {part : σ → γ} {attempt : Attempt ε σ α}
    (h : Preserves part attempt)
    {P : σ → Prop} (hP : ∀ s s', part s' = part s → P s → P s') : Leads P P attempt :=
  fun s value s' hs hrun ↦ hP s s' (h s value s' hrun) hs

/-- Assumes: two attempts, the second of which starts from where the first leads, and an end that
may be reached from there at once. So does their sequence. -/
theorem Leads.bind {P Q R : σ → Prop} {first : Attempt ε σ α} {second : α → Attempt ε σ β}
    (hfirst : Leads P Q first) (hgiveUp : ∀ s, Q s → R s)
    (hsecond : ∀ value, Leads Q R (second value)) :
    Leads P R (first >>= second) := by
  intro s result s'' hs h
  cases result with
  | some result =>
    obtain ⟨value, s', hstart, hrest⟩ := attempt_bind_some.mp h
    exact hsecond value s' _ s'' (hfirst s _ s' hs hstart) hrest
  | none =>
    rcases attempt_bind_none.mp h with hstart | ⟨value, s', hstart, hrest⟩
    · exact hgiveUp s'' (hfirst s _ s'' hs hstart)
    · exact hsecond value s' _ s'' (hfirst s _ s' hs hstart) hrest

/-! ### What an attempt says when it gives up -/

/-- An attempt that never reads a component of the state, which `set` overwrites. On a state with
the invariant it either succeeds and hands the component through, or it overwrites it; and if it
gives up it has told why. -/
def Candid {γ : Type} (set : γ → σ → σ) (Inv Told : σ → Prop) (attempt : Attempt ε σ α) : Prop :=
  ∀ s, Inv s →
    (∃ result, (∀ c, attempt (set c s) = result) ∧
      ∀ value s', result = .ok (value, s') → Inv s' ∧ (value = none → Told s')) ∨
    ∃ value s', Inv s' ∧ ∀ c, attempt (set c s) = .ok (some value, set c s')

section

variable {γ : Type} {set : γ → σ → σ} {Inv Told : σ → Prop}

theorem candid_pure (value : α) : Candid set Inv Told (pure value : Attempt ε σ α) :=
  fun s hs ↦ Or.inr ⟨value, s, hs, fun _ ↦ rfl⟩

theorem candid_fault (failure : ε) :
    Candid set Inv Told (Attempt.fault failure : Attempt ε σ α) := by
  refine fun s hs ↦ Or.inl ⟨.error failure, fun _ ↦ rfl, ?_⟩
  rintro _ _ ⟨⟩

/-- An update of the other components. -/
theorem candid_update {f : σ → σ} (hf : ∀ s c, f (set c s) = set c (f s))
    (hInv : ∀ s, Inv s → Inv (f s)) :
    Candid set Inv Told (Attempt.update f : Attempt ε σ Unit) :=
  fun s hs ↦ Or.inr ⟨(), f s, hInv s hs, fun c ↦ by rw [Attempt.update, hf]⟩

theorem candid_giveUp {f : σ → σ} (hf : ∀ s c, f (set c s) = f s)
    (hInv : ∀ s, Inv s → Inv (f s) ∧ Told (f s)) :
    Candid set Inv Told (Attempt.giveUp f : Attempt ε σ α) := by
  refine fun s hs ↦ Or.inl ⟨.ok (none, f s), fun c ↦ by rw [Attempt.giveUp, hf], ?_⟩
  rintro _ _ ⟨rfl, rfl⟩
  exact ⟨(hInv s hs).1, fun _ ↦ (hInv s hs).2⟩

/-- Assumes: on each state with the invariant the attempt does what some candid attempt does. It is
candid. -/
theorem candid_of_cases {attempt : Attempt ε σ α}
    (h : ∀ s, Inv s → ∃ like, Candid set Inv Told like ∧
    ∀ c, attempt (set c s) = like (set c s)) : Candid set Inv Told attempt := by
  intro s hs
  obtain ⟨like, hlike, hsame⟩ := h s hs
  rcases hlike s hs with ⟨result, hresult, htold⟩ | ⟨value, s', hs', hresult⟩
  · exact Or.inl ⟨result, fun c ↦ (hsame c).trans (hresult c), htold⟩
  · exact Or.inr ⟨value, s', hs', fun c ↦ (hsame c).trans (hresult c)⟩

end

section

variable {γ : Type} {set : γ → σ → σ} {Inv Told : σ → Prop}
  (hset : ∀ s, ∃ c, set c s = s) (hInv : ∀ c s, Inv s → Inv (set c s))

include hset

/-- An attempt that overwrites the component comes to the same whatever the component is. -/
theorem eq_of_overwritten {attempt : Attempt ε σ α} {s : σ} {result : Except ε (Option α × σ)}
    (h : ∀ c, attempt (set c s) = result) : attempt s = result := by
  obtain ⟨c, hc⟩ := hset s
  rw [← h c, hc]

include hInv

/-- What a candid attempt comes to has the invariant, and if it gives up it has told why. -/
theorem Candid.run {attempt : Attempt ε σ α} (h : Candid set Inv Told attempt) {s s' : σ}
    {value : Option α}
    (hs : Inv s) (hrun : attempt s = .ok (value, s')) : Inv s' ∧ (value = none → Told s') := by
  rcases h s hs with ⟨result, hresult, htold⟩ | ⟨value', t, ht, hresult⟩
  · exact htold value s' ((eq_of_overwritten hset hresult).symm.trans hrun)
  · obtain ⟨c, hc⟩ := hset s
    rw [← hc, hresult c] at hrun
    obtain ⟨rfl, rfl⟩ := Prod.mk.inj (Except.ok.inj hrun)
    exact ⟨hInv c t ht, fun hnone ↦ absurd hnone (by simp)⟩

/-- Assumes: a component that is set to something in every state, and an invariant that does not
depend on it. A sequence of two candid attempts is candid. -/
theorem Candid.bind {first : Attempt ε σ α} {second : α → Attempt ε σ β}
    (hfirst : Candid set Inv Told first)
    (hsecond : ∀ value, Candid set Inv Told (second value)) :
      Candid set Inv Told (first >>= second) := by
  intro s hs
  rcases hfirst s hs with ⟨result, hresult, htold⟩ | ⟨value, s', hs', hresult⟩
  · -- the component is overwritten: what follows starts from one state
    have hsame := eq_of_overwritten hset hresult
    refine Or.inl ⟨(first >>= second) s, fun c ↦ ?_, fun value s'' hrun ↦ ?_⟩
    · change Attempt.andThen first second (set c s) = Attempt.andThen first second s
      unfold Attempt.andThen
      rw [hresult c, hsame]
    · cases value with
      | none =>
        rcases attempt_bind_none.mp hrun with hstop | ⟨middle, s', hstart, hrest⟩
        · obtain ⟨hs'', htold''⟩ := htold none s'' (hsame.symm.trans hstop)
          exact ⟨hs'', fun _ ↦ htold'' rfl⟩
        · exact (hsecond middle).run hset hInv (htold _ s' (hsame.symm.trans hstart)).1 hrest
      | some last =>
        obtain ⟨middle, s', hstart, hrest⟩ := attempt_bind_some.mp hrun
        exact (hsecond middle).run hset hInv (htold _ s' (hsame.symm.trans hstart)).1 hrest
  · -- the component is handed through to what follows
    have hrest : ∀ c, (first >>= second) (set c s) = second value (set c s') := fun c ↦ by
      change Attempt.andThen first second (set c s) = _
      unfold Attempt.andThen
      rw [hresult c]
    rcases hsecond value s' hs' with ⟨result', hresult', htold'⟩ | ⟨value', t, ht, hresult'⟩
    · exact Or.inl ⟨result', fun c ↦ (hrest c).trans (hresult' c), htold'⟩
    · exact Or.inr ⟨value', t, ht, fun c ↦ (hrest c).trans (hresult' c)⟩

/-- A candid attempt and what is done next, whether it succeeds or gives up. -/
theorem Candid.whatever {first : Attempt ε σ α} {next : Option α → Attempt ε σ β}
    (hfirst : Candid set Inv Told first) (hnext : ∀ value, Candid set Inv Told (next value)) :
    Candid set Inv Told (first.whatever next) := by
  intro s hs
  rcases hfirst s hs with ⟨result, hresult, htold⟩ | ⟨value, s', hs', hresult⟩
  · have hsame := eq_of_overwritten hset hresult
    refine Or.inl ⟨first.whatever next s, fun c ↦ ?_, fun value s'' hrun ↦ ?_⟩
    · unfold Attempt.whatever
      rw [hresult c, hsame]
    · unfold Attempt.whatever at hrun
      rw [hsame] at hrun
      match result, htold, hrun with
      | .ok (middle, s'), htold, hrun =>
        exact (hnext middle).run hset hInv (htold middle s' rfl).1 hrun
  · have hrest : ∀ c, first.whatever next (set c s) = next (some value) (set c s') := fun c ↦ by
      unfold Attempt.whatever
      rw [hresult c]
    rcases hnext (some value) s' hs' with ⟨result', hresult', htold'⟩ | ⟨value', t, ht, hresult'⟩
    · exact Or.inl ⟨result', fun c ↦ (hrest c).trans (hresult' c), htold'⟩
    · exact Or.inr ⟨value', t, ht, fun c ↦ (hrest c).trans (hresult' c)⟩

end

end CLib

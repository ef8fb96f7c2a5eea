import Whatsup.Hostlist.Parse

/-!
# A node list is a list of names

The abstract model of a node list is a plain list of names, on which `push` appends, `find` gives
the index of the first equal name and `count` the length (`NodeListOp.runNames`). `runOps_eq` is the
refinement: for every sequence of operations that pushes bracket-free names, the range-compressed
list gives after each operation the answer of the plain list, as an `int`, and denotes that list.
Neither the merging of ranges nor the widths a search overwrites are visible.

The counter of hosts is an `int`. Up to `2 ^ 31 - 1` names the answers are those of the plain list
(`runOps_eq_runNames`); at `2 ^ 31` names the count is negative (`runOps_ne_runNames`).
-/

set_option autoImplicit false
set_option relaxedAutoImplicit false

namespace Whatsup

open CLib

/-! ### Operations -/

/-- The operations `_add_node` and its callers perform on a node list. -/
inductive NodeListOp
  | push (name : List Char)
  | find (hostname : List Char)
  | count
deriving DecidableEq

/-- Whether an operation is a push. -/
def NodeListOp.isPush : NodeListOp → Bool
  | .push _ => true
  | .find _ => false
  | .count => false

/-- One operation on a hostlist: its answer and the list afterwards; `none` if it does not
return. -/
def NodeListOp.run : NodeListOp → Hostlist → Option (ℤ × Hostlist)
  | .push name, hl => hostlistPush hl name
  | .find hostname, hl => some (hostlistFind hl hostname)
  | .count, hl => some (hostlistCount hl, hl)

/-- One operation on a plain list of names. -/
def NodeListOp.runNames : NodeListOp → List (List Char) → ℤ × List (List Char)
  | .push name, names => (1, names ++ [name])
  | .find hostname, names => (if hostname ∈ names then (names.idxOf hostname : ℤ) else -1, names)
  | .count, names => (names.length, names)

/-- A sequence of operations on a hostlist: after each one, its answer and the names denoted. -/
def runOps : List NodeListOp → Hostlist → Option (List (ℤ × List (List Char)))
  | [], _ => some []
  | op :: ops, hl =>
    match op.run hl with
    | none => none
    | some (answer, hl') => (runOps ops hl').map ((answer, hl'.hosts) :: ·)

/-- A sequence of operations on a plain list of names. -/
def runNames : List NodeListOp → List (List Char) → List (ℤ × List (List Char))
  | [], _ => []
  | op :: ops, names => op.runNames names :: runNames ops (op.runNames names).2

/-- Every name that a sequence of operations pushes is plain. -/
def PushesPlain (ops : List NodeListOp) : Prop :=
  ∀ name, NodeListOp.push name ∈ ops → PlainName name

/-! ### Refinement -/

/-- Assumes: a canonical list, and a plain name if the operation is a push. The operation returns
the answer of the plain list as an `int`; the list then denotes the plain list and is canonical. -/
theorem NodeListOp.run_eq {op : NodeListOp} {hl : Hostlist} (hcanonical : hl.Canonical)
    (hplain : ∀ name, op = .push name → PlainName name) :
    ∃ hl', op.run hl = some (toInt (op.runNames hl.hosts).1, hl') ∧
      hl'.hosts = (op.runNames hl.hosts).2 ∧ hl'.Canonical := by
  cases op with
  | push name =>
    obtain ⟨hl', hpush, hhosts, hl'_canonical⟩ := hostlistPush_name hcanonical (hplain name rfl)
    have hone : toInt 1 = 1 := toInt_eq_self (by decide) (by decide)
    exact ⟨hl', by rw [NodeListOp.run, hpush, NodeListOp.runNames, hone], hhosts, hl'_canonical⟩
  | find hostname =>
    obtain ⟨hanswer, hhosts, hl'_canonical⟩ := hostlistFind_spec hcanonical hostname
    have hneg : toInt (-1) = -1 := toInt_eq_self (by decide) (by decide)
    refine ⟨(hostlistFind hl hostname).2, ?_, hhosts, hl'_canonical⟩
    rw [NodeListOp.run, NodeListOp.runNames]
    simp only
    rw [apply_ite toInt, hneg, ← hanswer]
  | count =>
    exact ⟨hl, by rw [NodeListOp.run, hostlistCount, hcanonical.nhosts_eq]; rfl, rfl, hcanonical⟩

/-- Assumes: operations that push plain names, on a canonical list. After each operation the answer
is that of the plain list as an `int`, and the names denoted are those of the plain list. -/
theorem runOps_eq (ops : List NodeListOp) :
    ∀ hl : Hostlist, hl.Canonical → PushesPlain ops →
      runOps ops hl = some ((runNames ops hl.hosts).map fun state ↦ (toInt state.1, state.2)) := by
  induction ops with
  | nil => intro hl _ _; rfl
  | cons op ops ih =>
    intro hl hcanonical hplain
    obtain ⟨hl', hrun, hhosts, hl'_canonical⟩ := NodeListOp.run_eq hcanonical
      fun name hop ↦ hplain name (hop ▸ List.mem_cons_self)
    rw [runOps, hrun]
    simp only
    rw [ih hl' hl'_canonical fun name hmem ↦ hplain name (List.mem_cons_of_mem _ hmem), hhosts]
    rfl

/-- The answers of a plain list lie between `-1` and the number of names it can have reached. -/
theorem runNames_bounds (ops : List NodeListOp) :
    ∀ names, ∀ state ∈ runNames ops names, -1 ≤ state.1 ∧
      state.1 ≤ max 1 (names.length + ops.countP NodeListOp.isPush : ℤ) := by
  induction ops with
  | nil => intro names state h; exact absurd h List.not_mem_nil
  | cons op ops ih =>
    intro names state hstate
    rw [List.countP_cons]
    rcases List.mem_cons.mp hstate with rfl | hlater
    · cases op with
      | push name =>
        have hanswer : ((NodeListOp.push name).runNames names).1 = 1 := rfl
        rw [hanswer]
        exact ⟨by norm_num, le_max_left _ _⟩
      | find hostname =>
        by_cases hmem : hostname ∈ names
        · have hlt := List.idxOf_lt_length_iff.mpr hmem
          have hanswer : ((NodeListOp.find hostname).runNames names).1 = names.idxOf hostname := by
            simp only [NodeListOp.runNames, if_pos hmem]
          rw [hanswer]
          exact ⟨by omega, le_max_of_le_right (by push_cast; omega)⟩
        · have hanswer : ((NodeListOp.find hostname).runNames names).1 = -1 := by
            simp only [NodeListOp.runNames, if_neg hmem]
          rw [hanswer]
          exact ⟨le_rfl, le_max_of_le_left (by norm_num)⟩
      | count =>
        have hanswer : (NodeListOp.count.runNames names).1 = names.length := rfl
        rw [hanswer]
        exact ⟨by omega, le_max_of_le_right (by push_cast; omega)⟩
    · obtain ⟨hlow, hhigh⟩ := ih _ state hlater
      refine ⟨hlow, hhigh.trans (max_le_max le_rfl ?_)⟩
      cases op <;> simp [NodeListOp.runNames, NodeListOp.isPush]
      omega

/-- Assumes: fewer than `2 ^ 31` pushes, all of plain names. From the empty list on, the
range-compressed list answers every operation exactly as the plain list of names does, and denotes
that list after each of them. -/
theorem runOps_eq_runNames {ops : List NodeListOp} (hplain : PushesPlain ops)
    (hfew : ops.countP NodeListOp.isPush < 2147483648) :
    runOps ops hostlistNew = some (runNames ops []) := by
  rw [runOps_eq ops hostlistNew hostlistNew_canonical hplain, hosts_hostlistNew]
  congr 1
  refine (List.map_congr_left fun state hstate ↦ ?_).trans (List.map_id _)
  obtain ⟨hlow, hhigh⟩ := runNames_bounds ops [] state hstate
  rw [List.length_nil] at hhigh
  rw [toInt_eq_self (by omega) (by omega)]
  rfl

/-- Two pushes, a search for a padded variant of the second name, and a count. -/
theorem runOps_eq_runNames_padding :
    runOps [.push "node9".toList, .push "node10".toList, .find "node010".toList, .count]
        hostlistNew =
      some (runNames [.push "node9".toList, .push "node10".toList, .find "node010".toList, .count]
        []) :=
  runOps_eq_runNames
    (fun name hmem ↦ by
      have hcases : name = "node9".toList ∨ name = "node10".toList := by
        simpa using hmem
      rcases hcases with rfl | rfl <;> decide)
    (by decide)

/-- `2 ^ 31` pushes of names that share their ranges, and a count. -/
def pushesThenCount (pushes : ℕ) : List NodeListOp :=
  (List.range pushes).map (fun i ↦ NodeListOp.push ('n' :: Nat.toDigits 10 (i % 33554433))) ++
    [.count]

/-- The count at the end of pushes is reached by a plain list. -/
theorem mem_runNames_count (ops : List NodeListOp) :
    ∀ names, (∀ op ∈ ops, op.isPush = true) →
      ∃ all, ((names.length + ops.length : ℤ), all) ∈ runNames (ops ++ [.count]) names := by
  induction ops with
  | nil => intro names _; exact ⟨names, by simp [runNames, NodeListOp.runNames]⟩
  | cons op ops ih =>
    intro names hpushes
    obtain ⟨all, hmem⟩ := ih (op.runNames names).2
      fun o ho ↦ hpushes o (List.mem_cons_of_mem _ ho)
    have hop := hpushes op List.mem_cons_self
    refine ⟨all, List.mem_cons_of_mem _ ?_⟩
    cases op with
    | push name =>
      simp only [NodeListOp.runNames, List.length_append, List.length_singleton] at hmem
      push_cast at hmem
      rw [List.length_cons]
      push_cast
      rwa [show (names.length : ℤ) + (ops.length + 1) = names.length + 1 + ops.length by ring]
    | find hostname => exact Bool.noConfusion hop
    | count => exact Bool.noConfusion hop

/-- The range-compressed list is not a plain list of names for every sequence of pushes: after
`2 ^ 31` of them the count is `-2 ^ 31`. -/
theorem runOps_ne_runNames :
    ¬∀ ops, PushesPlain ops → runOps ops hostlistNew = some (runNames ops []) := by
  intro h
  have hplain : PushesPlain (pushesThenCount 2147483648) := by
    intro name hmem
    obtain ⟨i, -, hi⟩ : ∃ i ∈ List.range 2147483648,
        NodeListOp.push ('n' :: Nat.toDigits 10 (i % 33554433)) = .push name := by
      simpa [pushesThenCount] using hmem
    obtain rfl := NodeListOp.push.inj hi
    have hdigits : numDigits (i % 33554433) ≤ 8 := (numDigits_le_iff (by decide)).mpr (by omega)
    refine ⟨List.cons_ne_nil _ _, ?_, fun c hc ↦ ?_⟩
    · rw [List.length_cons]
      unfold numDigits at hdigits
      omega
    · rcases List.mem_cons.mp hc with rfl | hdigit
      · decide
      · have hbounds := digit_toNat_bounds
          (Nat.isDigit_of_mem_toDigits (by decide) (by decide) hdigit)
        have hne : ∀ d : Char, (d.toNat < 48 ∨ 57 < d.toNat) → c ≠ d := fun d hd hcd ↦ by
          rw [hcd] at hbounds
          omega
        simp only [isSep, Bool.or_eq_false_iff, decide_eq_false_iff_not]
        exact ⟨⟨⟨hne _ (by decide), hne _ (by decide)⟩, hne _ (by decide)⟩, hne _ (by decide),
          hne _ (by decide)⟩
  have hrun := h _ hplain
  rw [runOps_eq _ hostlistNew hostlistNew_canonical hplain, hosts_hostlistNew] at hrun
  obtain ⟨all, hmem⟩ := mem_runNames_count
    ((List.range 2147483648).map fun i ↦
      NodeListOp.push ('n' :: Nat.toDigits 10 (i % 33554433))) []
    (fun op hop ↦ by
      obtain ⟨i, -, rfl⟩ := List.mem_map.mp hop
      rfl)
  rw [List.length_map, List.length_range, List.length_nil] at hmem
  -- every answer of the plain list would have to be an `int`
  have hfixed := (List.map_eq_map_iff.mp ((Option.some.inj hrun).trans (List.map_id _).symm)) _ hmem
  have hwrap : toInt 2147483648 = -2147483648 := by decide
  have hfst := congrArg Prod.fst hfixed
  simp only [id_eq] at hfst
  norm_num [hwrap] at hfst

end Whatsup

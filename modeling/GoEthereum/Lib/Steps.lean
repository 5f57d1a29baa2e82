import Mathlib.Tactic

-- The values of a counter in a loop `for i := first; i <= last; i += step`.
def steps (first last step : Nat) : List Nat :=
  (List.range ((last + step - first) / step)).map (first + · * step)

section

variable {first last step i : Nat}

theorem steps_of_lt (h : last < first) : steps first last step = [] := by
  have : (last + step - first) / step = 0 := by
    by_cases hs : step = 0
    case pos => simp [hs]
    case neg => exact Nat.div_eq_of_lt (by omega)
  rw [steps, this, List.range_zero, List.map_nil]

theorem steps_of_le (hs : 0 < step) (h : first ≤ last) :
    steps first last step = first :: steps (first + step) last step := by
  have : (last + step - first) / step = (last + step - (first + step)) / step + 1 := by
    rw [show last + step - first = last + step - (first + step) + step by omega,
      Nat.add_div_right _ hs]
  simp only [steps, this, List.range_succ_eq_map, List.map_cons, List.map_map, zero_mul, add_zero]
  refine congrArg (first :: ·) (List.map_congr_left fun k _ => ?_)
  simp only [Function.comp_apply, Nat.succ_mul]
  omega

theorem steps_induction (last : Nat) (hs : 0 < step) {P : Nat → Prop} (hlt : ∀ first, last < first → P first)
    (hle : ∀ first, first ≤ last → P (first + step) → P first) (first : Nat) : P first := by
  by_cases h : first ≤ last
  case pos => exact hle first h (steps_induction last hs hlt hle (first + step))
  case neg => exact hlt first (by omega)
termination_by last + 1 - first

theorem le_of_mem_steps (h : i ∈ steps first last step) : i ≤ last := by
  obtain ⟨k, hk, rfl⟩ := List.mem_map.mp h
  have hs : 0 < step := by
    by_contra h₀
    simp [Nat.eq_zero_of_not_pos h₀] at hk
  have := (Nat.lt_div_iff_mul_lt hs).mp (List.mem_range.mp hk)
  omega

theorem mem_steps_one : i ∈ steps first last 1 ↔ first ≤ i ∧ i ≤ last := by
  simp only [steps, List.mem_map, List.mem_range, Nat.div_one, mul_one]
  constructor
  case mp =>
    omega
  case mpr =>
    intro h
    exact ⟨i - first, by omega, by omega⟩

theorem steps_one_append (mid : Nat) (h : first ≤ mid + 1) (h' : mid ≤ last) :
    steps first last 1 = steps first mid 1 ++ steps (mid + 1) last 1 := by
  induction first using steps_induction mid zero_lt_one
  case hlt first hlt =>
    rw [steps_of_lt hlt, List.nil_append, show first = mid + 1 by omega]
  case hle first hle hi =>
    rw [steps_of_le zero_lt_one (by omega), steps_of_le zero_lt_one hle, hi (by omega),
      List.cons_append]

-- Counting in batches of `step` numbers, cut off at both ends, is counting one by one.
theorem flatMap_steps (hs : 0 < step) {start : Nat} (h : first ≤ start) (h' : start ≤ first + step) :
    (steps first last step).flatMap (fun i => steps (max i start) (min (i + step - 1) last) 1) =
      steps start last 1 := by
  induction first using steps_induction last hs generalizing start
  case hlt first hlt =>
    rw [steps_of_lt hlt, List.flatMap_nil, steps_of_lt (by omega)]
  case hle first hle hi =>
    have hrest : (steps (first + step) last step).flatMap
        (fun i => steps (max i start) (min (i + step - 1) last) 1) = steps (first + step) last 1 := by
      rw [← hi le_rfl (by omega)]
      refine List.flatMap_congr fun i hi => ?_
      have : first + step ≤ i := by
        obtain ⟨k, -, rfl⟩ := List.mem_map.mp hi
        omega
      rw [max_eq_left (by omega), max_eq_left (by omega)]
    rw [steps_of_le hs hle, List.flatMap_cons, hrest, max_eq_right h]
    by_cases hl : first + step - 1 ≤ last
    case pos =>
      have hcut := steps_one_append (first + step - 1) (show start ≤ first + step - 1 + 1 by omega) hl
      rw [min_eq_left hl, hcut, Nat.sub_add_cancel (by omega)]
    case neg =>
      rw [min_eq_right (by omega), steps_of_lt (show last < first + step by omega), List.append_nil]

theorem List.findSome?_congr {α β : Type} {f g : α → Option β} {l : List α} (h : ∀ a ∈ l, f a = g a) :
    l.findSome? f = l.findSome? g := by
  induction l
  case nil => rfl
  case cons a l hi =>
    obtain ⟨ha, hl⟩ := List.forall_mem_cons.mp h
    rw [List.findSome?_cons, List.findSome?_cons, ha, hi hl]

theorem List.findSome?_flatMap {α β γ : Type} {f : β → Option γ} {g : α → List β} (l : List α) :
    (l.flatMap g).findSome? f = l.findSome? fun a => (g a).findSome? f := by
  induction l
  case nil => rfl
  case cons a l hi =>
    rw [List.flatMap_cons, List.findSome?_append, hi, List.findSome?_cons]
    cases (g a).findSome? f <;> rfl

end

section

variable {α β : Type} {key : α → Nat} {l : List α} {first last : Nat}

-- Of elements with increasing keys, the one with the first key stands in front.
theorem filter_keys_of_le (hl : l.Pairwise fun a b => key a < key b) (h : first ≤ last) :
    l.filter (fun a => first ≤ key a ∧ key a ≤ last) =
      (l.find? fun a => key a = first).toList ++
        l.filter (fun a => first + 1 ≤ key a ∧ key a ≤ last) := by
  induction l
  case nil => rfl
  case cons a l hi =>
    obtain ⟨ha, hl⟩ := List.pairwise_cons.mp hl
    obtain hlt | heq | hgt := lt_trichotomy (key a) first
    case inl =>
      rw [List.filter_cons_of_neg (by simp; omega), List.filter_cons_of_neg (by simp; omega),
        List.find?_cons_of_neg (by simp; omega), hi hl]
    case inr.inl =>
      have hrest : l.filter (fun a => first ≤ key a ∧ key a ≤ last) =
          l.filter (fun a => first + 1 ≤ key a ∧ key a ≤ last) := by
        refine List.filter_congr fun b hb => ?_
        have := ha b hb
        simp only [decide_eq_decide]
        omega
      rw [List.filter_cons_of_pos (by simp; omega), List.filter_cons_of_neg (by simp; omega),
        List.find?_cons_of_pos (by simp; omega), hrest]
      rfl
    case inr.inr =>
      have hnone : l.find? (fun a => key a = first) = none := by
        refine List.find?_eq_none.mpr fun b hb => ?_
        have := ha b hb
        simp only [decide_eq_true_eq]
        omega
      rw [List.find?_cons_of_neg (by simp; omega), hnone, Option.toList_none, List.nil_append]
      refine List.filter_congr fun b hb => ?_
      have : first < key b := by
        cases hb
        case head    => exact hgt
        case tail hb => exact hgt.trans (ha b hb)
      simp only [decide_eq_decide]
      omega

theorem flatMap_steps_find? (hl : l.Pairwise fun a b => key a < key b) (g : α → List β)
    (first : Nat) : (steps first last 1).flatMap (fun n => (l.find? fun a => key a = n).elim [] g) =
      (l.filter fun a => first ≤ key a ∧ key a ≤ last).flatMap g := by
  induction first using steps_induction last zero_lt_one
  case hlt first hlt =>
    have hnil : l.filter (fun a => first ≤ key a ∧ key a ≤ last) = [] := by
      simp only [List.filter_eq_nil_iff, decide_eq_true_eq, not_and]
      omega
    rw [steps_of_lt hlt, hnil]
    rfl
  case hle first hle hi =>
    rw [steps_of_le zero_lt_one hle, List.flatMap_cons, hi, filter_keys_of_le hl hle]
    cases l.find? fun a => key a = first <;> simp

end

import Mathlib.Data.Nat.Digits.Lemmas

-- Digits in a base, grouped into digits of a power of the base. The digits are in lists with the
-- lowest one first.

namespace Digits

variable {b k n w : Nat} {ws : List Nat}

-- The digits of a number without leading zeros, and one digit for zero.
def minimal (b w : Nat) : List Nat :=
  if w = 0 then [0] else Nat.digits b w

-- The digits of the groups one after the other, each without leading zeros.
def concat (b : Nat) (ws : List Nat) : List Nat :=
  ws.flatMap (minimal b)

def Full (b k : Nat) (ws : List Nat) : Prop :=
  ∀ w ∈ ws.dropLast, b ^ (k - 1) ≤ w

theorem minimal_ne_nil : minimal b w ≠ [] := by
  rw [minimal]
  split_ifs with h
  · exact List.cons_ne_nil _ _
  · exact Nat.digits_ne_nil_iff_ne_zero.mpr h

theorem ofDigits_minimal : Nat.ofDigits b (minimal b w) = w := by
  rw [minimal]
  split_ifs with h
  · rw [h, Nat.ofDigits_singleton]
  · exact Nat.ofDigits_digits b w

section

variable (hb : 1 < b)
include hb

theorem lt_of_mem_minimal {d : Nat} (h : d ∈ minimal b w) : d < b := by
  rw [minimal] at h
  split_ifs at h
  · rw [List.mem_singleton.mp h]
    exact Nat.zero_lt_of_lt hb
  · exact Nat.digits_lt_base hb h

theorem minimal_ofDigits {ds : List Nat} (hlt : ∀ d ∈ ds, d < b) (hne : ds ≠ [])
    (hl : 1 < ds.length → ds.getLast hne ≠ 0) : minimal b (Nat.ofDigits b ds) = ds := by
  by_cases hz : ds.getLast hne = 0
  · have h1 : ds.length = 1 := by
      have := List.length_pos_of_ne_nil hne
      by_contra h1
      exact hl (by omega) hz
    obtain ⟨d, rfl⟩ := List.length_eq_one_iff.mp h1
    obtain rfl : d = 0 := hz
    rfl
  · have hd := Nat.digits_ofDigits b hb ds hlt fun _ => hz
    have hn : Nat.ofDigits b ds ≠ 0 := by
      intro h0
      rw [h0, Nat.digits_zero] at hd
      exact hne hd.symm
    rw [minimal, if_neg hn, hd]

theorem lt_of_mem_concat {d : Nat} (h : d ∈ concat b ws) : d < b := by
  obtain ⟨w, -, hd⟩ := List.mem_flatMap.mp h
  exact lt_of_mem_minimal hb hd

theorem length_minimal_le (hk : 1 ≤ k) (h : w < b ^ k) :
    (minimal b w).length ≤ k := by
  rw [minimal]
  split_ifs with hw
  · exact hk
  · exact (Nat.digits_length_le_iff hb w).mpr h

theorem length_minimal_eq (hk : 1 ≤ k) (h₁ : b ^ (k - 1) ≤ w) (h₂ : w < b ^ k) :
    (minimal b w).length = k := by
  have hw : w ≠ 0 := by
    have := Nat.pow_pos (n := k - 1) (Nat.zero_lt_of_lt hb)
    omega
  have hlt := (Nat.lt_digits_length_iff hb w).mpr h₁
  have hle := length_minimal_le hb hk h₂
  rw [minimal, if_neg hw] at *
  omega

theorem ofDigits_concat (hk : 1 ≤ k) (hw : ∀ w ∈ ws, w < b ^ k) (h : Full b k ws) :
    Nat.ofDigits b (concat b ws) = Nat.ofDigits (b ^ k) ws := by
  induction ws
  case nil => rfl
  case cons w ws hi =>
    rw [concat, List.flatMap_cons, Nat.ofDigits_append, ofDigits_minimal]
    cases ws
    case nil => simp
    case cons w' ws =>
      have h₁ := h w (by simp)
      rw [length_minimal_eq hb hk h₁ (hw w (by simp))]
      congr 2
      apply hi
      · exact fun u hu => hw u (List.mem_cons_of_mem w hu)
      · intro u hu
        apply h u
        exact List.mem_cons_of_mem w hu

theorem pow_length_concat_le (hk : 2 ≤ k) (hw : ∀ w ∈ ws, w < b ^ k) (hne : ws ≠ [])
    (hl : ws.getLast hne ≠ 0) :
    b ^ (concat b ws).length ≤ b * Nat.ofDigits (b ^ k) ws ∧
      (¬ Full b k ws → b ^ (concat b ws).length ≤ Nat.ofDigits (b ^ k) ws) := by
  induction ws
  case nil => exact absurd rfl hne
  case cons w ws hi =>
    cases ws
    case nil =>
      have hw0 : w ≠ 0 := hl
      rw [concat, List.flatMap_singleton, minimal, if_neg hw0]
      exact ⟨Nat.base_pow_length_digits_le b w hb hw0, fun hf => absurd (by simp [Full]) hf⟩
    case cons w' ws =>
      obtain ⟨hle, hnf⟩ := hi (fun u hu => hw u (List.mem_cons_of_mem w hu)) (by simp) hl
      have hkk : b ^ k = b ^ (k - 1) * b := by
        rw [← Nat.pow_succ, Nat.succ_eq_add_one, Nat.sub_add_cancel (by omega)]
      have hpow : ∀ {j}, (minimal b w).length ≤ j → b ^ (minimal b w).length ≤ b ^ j :=
        Nat.pow_le_pow_right (Nat.zero_lt_of_lt hb)
      rw [concat, List.flatMap_cons, List.length_append, Nat.pow_add]
      constructor
      · calc b ^ (minimal b w).length * b ^ (concat b (w' :: ws)).length
          _ ≤ b ^ k * (b * Nat.ofDigits (b ^ k) (w' :: ws)) :=
            Nat.mul_le_mul (hpow (length_minimal_le hb (by omega) (hw w (by simp)))) hle
          _ = b * (b ^ k * Nat.ofDigits (b ^ k) (w' :: ws)) := Nat.mul_left_comm _ _ _
          _ ≤ b * (w + b ^ k * Nat.ofDigits (b ^ k) (w' :: ws)) :=
            Nat.mul_le_mul_left b (Nat.le_add_left _ _)
      · intro hf
        refine le_trans ?_ (Nat.le_add_left _ w)
        by_cases hw₁ : b ^ (k - 1) ≤ w
        · have hrest : ¬ Full b k (w' :: ws) := by
            intro hr
            apply hf
            exact List.forall_mem_cons.mpr ⟨hw₁, hr⟩
          exact Nat.mul_le_mul (hpow (length_minimal_le hb (by omega) (hw w (by simp)))) (hnf hrest)
        · calc b ^ (minimal b w).length * b ^ (concat b (w' :: ws)).length
            _ ≤ b ^ (k - 1) * (b * Nat.ofDigits (b ^ k) (w' :: ws)) :=
              Nat.mul_le_mul (hpow (length_minimal_le hb (by omega) (not_le.mp hw₁))) hle
            _ = b ^ k * Nat.ofDigits (b ^ k) (w' :: ws) := by rw [hkk, Nat.mul_assoc]

end

theorem concat_ne_nil (hne : ws ≠ []) : concat b ws ≠ [] := by
  obtain ⟨w, ws, rfl⟩ := List.exists_cons_of_ne_nil hne
  exact List.append_ne_nil_of_left_ne_nil minimal_ne_nil _

theorem getLast_concat (hne : ws ≠ []) (hl : ws.getLast hne ≠ 0) (hc : concat b ws ≠ []) :
    (concat b ws).getLast hc ≠ 0 := by
  have he : concat b ws = concat b ws.dropLast ++ Nat.digits b (ws.getLast hne) := by
    have h := congrArg (concat b) (List.dropLast_append_getLast hne)
    rw [← h, concat, List.flatMap_append, List.flatMap_singleton, minimal, if_neg hl]
    rfl
  have hd := Nat.digits_ne_nil_iff_ne_zero (b := b) |>.mpr hl
  simp only [he]
  rw [List.getLast_append_of_ne_nil _ hd]
  exact Nat.getLast_digit_ne_zero b hl

-- The digits of the number come out exactly when every group but the top one is full.
theorem concat_digits_iff (hb : 1 < b) (hk : 2 ≤ k) (n : Nat) :
    concat b (Nat.digits (b ^ k) n) = Nat.digits b n ↔ Full b k (Nat.digits (b ^ k) n) := by
  by_cases hn : n = 0
  · subst hn
    simp [concat, Full]
  have hbk : 1 < b ^ k := Nat.one_lt_pow (by omega) hb
  have hne := Nat.digits_ne_nil_iff_ne_zero (b := b ^ k) |>.mpr hn
  have hlt : ∀ w ∈ Nat.digits (b ^ k) n, w < b ^ k := fun w hw => Nat.digits_lt_base hbk hw
  have hlast := Nat.getLast_digit_ne_zero (b ^ k) hn
  constructor
  · intro he
    by_contra hf
    have hle := (pow_length_concat_le hb hk hlt hne hlast).right hf
    rw [he, Nat.ofDigits_digits] at hle
    exact absurd (Nat.lt_base_pow_length_digits hb) (not_lt_of_ge hle)
  · intro hf
    have hof := ofDigits_concat hb (by omega) hlt hf
    rw [Nat.ofDigits_digits] at hof
    rw [← Nat.digits_ofDigits b hb _ (fun d hd => lt_of_mem_concat hb hd)
      (getLast_concat hne hlast), hof]

theorem ofDigits_concat_digits_iff (hb : 1 < b) (hk : 2 ≤ k) (n : Nat) :
    Nat.ofDigits b (concat b (Nat.digits (b ^ k) n)) = n ↔ Full b k (Nat.digits (b ^ k) n) := by
  rw [← concat_digits_iff hb hk]
  constructor
  · intro he
    by_cases hn : n = 0
    · subst hn
      simp [concat]
    · have hne := Nat.digits_ne_nil_iff_ne_zero (b := b ^ k) |>.mpr hn
      conv_rhs => rw [← he]
      rw [Nat.digits_ofDigits b hb _ (fun d hd => lt_of_mem_concat hb hd)
        (getLast_concat hne (Nat.getLast_digit_ne_zero _ hn))]
  · intro he
    rw [he, Nat.ofDigits_digits]

end Digits

import HttpClient.Text.Numeral
import Mathlib.Data.List.Basic
set_option autoImplicit false

namespace HttpClient.Numeral

variable {base n k d : Nat}

theorem max_base (hb : 2 ≤ base) : max base 2 = base := Nat.max_eq_left hb

theorem digits_ne_nil (base n : Nat) : digits base n ≠ [] := by
  unfold digits
  split <;> simp

theorem digits_of_lt (hb : 2 ≤ base) (hn : n < base) : digits base n = [n] := by
  rw [digits, max_base hb, if_pos hn]

theorem digits_of_le (hb : 2 ≤ base) (hn : base ≤ n) :
    digits base n = digits base (n / base) ++ [n % base] := by
  rw [digits, max_base hb, if_neg (by omega)]

theorem value_concat (base : Nat) (ds : List Nat) (d : Nat) :
    value base (ds ++ [d]) = base * value base ds + d := by
  simp [value, List.foldl_append]

theorem value_digits (hb : 2 ≤ base) (n : Nat) : value base (digits base n) = n := by
  fun_induction digits base n with
  | case1 n h => simp [value]
  | case2 n h ih =>
    rw [max_base hb] at ih ⊢
    rw [value_concat, ih]
    exact Nat.div_add_mod n base

theorem digits_lt (hb : 2 ≤ base) (n : Nat) : ∀ d ∈ digits base n, d < base := by
  fun_induction digits base n with
  | case1 n h =>
    rw [max_base hb] at h
    simpa using h
  | case2 n h ih =>
    rw [max_base hb] at ih ⊢
    intro d hd
    rcases List.mem_append.1 hd with hd | hd
    · exact ih d hd
    · rw [List.mem_singleton.1 hd]
      exact Nat.mod_lt n (by omega)

theorem length_digits_le (hb : 2 ≤ base) (hn : n < Nat.pow base (k + 1)) :
    (digits base n).length ≤ k + 1 := by
  induction k generalizing n with
  | zero =>
    rw [digits_of_lt hb (by simpa [Nat.pow] using hn)]
    simp
  | succ k ih =>
    by_cases hlt : n < base
    · simp [digits_of_lt hb hlt]
    · have hdiv : n / base < Nat.pow base (k + 1) :=
        (Nat.div_lt_iff_lt_mul (by omega)).2 hn
      rw [digits_of_le hb (by omega), List.length_append, List.length_singleton]
      exact Nat.succ_le_succ (ih hdiv)

theorem digitOf?_digitChar (hb : base ≤ 16) (hd : d < base) :
    digitOf? base (digitChar d) = some d := by
  have hvalue : ∀ d < 16, digitValue? (digitChar d) = some d := by decide
  rw [digitOf?, hvalue d (by omega), Option.filter_some]
  simp [hd]

theorem mapM_digitChar (hb : base ≤ 16) {ds : List Nat} (h : ∀ d ∈ ds, d < base) :
    (ds.map digitChar).mapM (digitOf? base) = some ds := by
  induction ds with
  | nil => rfl
  | cons d ds ih =>
    have hd := digitOf?_digitChar hb (h d List.mem_cons_self)
    have hds := ih fun e he => h e (List.mem_cons_of_mem d he)
    simp [List.mapM_cons, hd, hds]

theorem read?_print (hb : 2 ≤ base) (hb' : base ≤ 16) (n : Nat) :
    read? base (print base n) = some n := by
  have hne : (print base n).isEmpty = false := by
    simpa [print] using digits_ne_nil base n
  rw [read?, hne, print, mapM_digitChar hb' (digits_lt hb n)]
  simp [value_digits hb]

theorem length_print (base n : Nat) : (print base n).length = (digits base n).length :=
  List.length_map _

theorem print_chars (hb : 2 ≤ base) (hb' : base ≤ 16) {p : Char → Prop}
    (hp : ∀ d < 16, p (digitChar d)) : ∀ c ∈ print base n, p c := by
  intro c hc
  obtain ⟨d, hd, rfl⟩ := List.mem_map.1 hc
  exact hp d (Nat.lt_of_lt_of_le (digits_lt hb n d hd) hb')

theorem print_ten (n : Nat) : print 10 n = Nat.toDigits 10 n := by
  have hdigit : ∀ d < 10, digitChar d = d.digitChar := by decide
  unfold print
  fun_induction digits 10 n with
  | case1 n h =>
    rw [max_base (by decide)] at h
    rw [Nat.toDigits_of_lt_base h, List.map_singleton, hdigit n h]
  | case2 n h ih =>
    rw [max_base (by decide)] at h ih ⊢
    rw [Nat.toDigits_of_base_le (by decide) (by omega), List.map_append, ih, List.map_singleton,
      hdigit _ (Nat.mod_lt n (by decide))]

theorem decimal_eq_toString (n : Nat) : decimal n = toString n := by
  rw [decimal, print_ten]
  rfl

end HttpClient.Numeral

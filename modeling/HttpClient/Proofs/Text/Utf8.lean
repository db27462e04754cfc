import HttpClient.Text.Utf8
import Mathlib.Data.List.Basic
set_option autoImplicit false

/-! Text that is written as UTF-8 is read back as the same text. -/

namespace HttpClient

namespace Text.Utf8

theorem lead_two {n : Nat} (h : 2 ≤ n) (h' : n < 32) :
    lead (.ofNat (n + 192)) = some ⟨1, 0x80, 0xBF, n, 1⟩ := by
  have hlead : ∀ n < 32, 2 ≤ n → lead (.ofNat (n + 192)) = some ⟨1, 0x80, 0xBF, n, 1⟩ := by decide
  exact hlead n h' h

/-- The octets after E0 begin no shorter character, those after ED no surrogate. -/
theorem lead_three {n : Nat} (h : n < 16) :
    lead (.ofNat (n + 224)) =
      some ⟨2, if n = 0 then 0xA0 else 0x80, if n = 13 then 0x9F else 0xBF, n, 1⟩ := by
  have hlead : ∀ n < 16, lead (.ofNat (n + 224)) =
      some ⟨2, if n = 0 then 0xA0 else 0x80, if n = 13 then 0x9F else 0xBF, n, 1⟩ := by decide
  exact hlead n h

/-- The octets after F0 begin no shorter character, those after F4 none over the last one. -/
theorem lead_four {n : Nat} (h : n < 5) :
    lead (.ofNat (n + 240)) =
      some ⟨3, if n = 0 then 0x90 else 0x80, if n = 4 then 0x8F else 0xBF, n, 1⟩ := by
  have hlead : ∀ n < 5, lead (.ofNat (n + 240)) =
      some ⟨3, if n = 0 then 0x90 else 0x80, if n = 4 then 0x8F else 0xBF, n, 1⟩ := by decide
  exact hlead n h

variable {b : UInt8} {p : Partial} {n missing : Nat}

theorem piecesFrom_lead (h : lead b = some p) (rest : Bytes) :
    piecesFrom none (b :: rest) = piecesFrom (some p) rest := by
  have hb : ¬b < 0x80 := by
    intro hb
    have hnone : lead b = none := by
      rw [UInt8.lt_iff_toNat_lt] at hb
      simp only [lead, UInt8.le_iff_toNat_le, ← UInt8.toNat_inj]
      repeat rw [if_neg (by simp at hb ⊢; omega)]
    rw [hnone] at h
    cases h
  simp [piecesFrom, step, start, hb, h]

theorem extend_tail (hl : p.low.toNat ≤ n + 128) (hh : n + 128 ≤ p.high.toNat) :
    extend p (.ofNat (n + 128)) =
      if p.missing ≤ 1 then ([.char (Char.ofNat (p.bits * 64 + n))], none)
      else ([], some ⟨p.missing - 1, 0x80, 0xBF, p.bits * 64 + n, p.width + 1⟩) := by
  have hn : (UInt8.ofNat (n + 128)).toNat = n + 128 := by
    have := p.high.toNat_lt
    rw [UInt8.toNat_ofNat']
    omega
  have hrange : p.low ≤ .ofNat (n + 128) ∧ .ofNat (n + 128) ≤ p.high := by
    rw [UInt8.le_iff_toNat_le, UInt8.le_iff_toNat_le, hn]
    exact ⟨hl, hh⟩
  simp only [extend, hrange, and_self, ite_true, hn, Nat.add_sub_cancel]

theorem piecesFrom_tail (hp : p.missing = missing + 2) (hl : p.low.toNat ≤ n + 128)
    (hh : n + 128 ≤ p.high.toNat) (rest : Bytes) :
    piecesFrom (some p) (.ofNat (n + 128) :: rest) =
      piecesFrom (some ⟨missing + 1, 0x80, 0xBF, p.bits * 64 + n, p.width + 1⟩) rest := by
  rw [piecesFrom, step, extend_tail hl hh]
  simp [hp]

theorem piecesFrom_last (hp : p.missing = 1) (hl : p.low.toNat ≤ n + 128)
    (hh : n + 128 ≤ p.high.toNat) (rest : Bytes) :
    piecesFrom (some p) (.ofNat (n + 128) :: rest) =
      .char (Char.ofNat (p.bits * 64 + n)) :: piecesFrom none rest := by
  rw [piecesFrom, step, extend_tail hl hh]
  simp [hp]

theorem piecesFrom_char (c : Char) (rest : Bytes) :
    piecesFrom none (String.utf8EncodeChar c ++ rest) = .char c :: piecesFrom none rest := by
  have hc : Char.ofNat c.val.toNat = c := Char.ofNat_toNat c
  have hvalid : c.val.toNat < 0xD800 ∨ 0xDFFF < c.val.toNat ∧ c.val.toNat < 0x110000 := c.valid
  simp only [String.utf8EncodeChar]
  generalize c.val.toNat = n at hc hvalid
  split
  · next h =>
    have hn : (UInt8.ofNat n).toNat = n := by rw [UInt8.toNat_ofNat']; omega
    have hlow : UInt8.ofNat n < 0x80 := by rw [UInt8.lt_iff_toNat_lt, hn]; simp; omega
    simp [piecesFrom, step, start, hlow, hn, hc]
  split
  · next h =>
    have hbits : n / 64 % 32 * 64 + n % 64 = n := by omega
    simp only [List.cons_append, List.nil_append]
    rw [piecesFrom_lead (lead_two (by omega) (by omega)),
      piecesFrom_last rfl (by simp) (by simp; omega), hbits, hc]
  split
  · next h =>
    have hbits : (n / 4096 % 16 * 64 + n / 64 % 64) * 64 + n % 64 = n := by omega
    simp only [List.cons_append, List.nil_append]
    rw [piecesFrom_lead (lead_three (by omega)),
      piecesFrom_tail rfl (by dsimp only; split <;> simp; omega)
        (by dsimp only; split <;> simp <;> omega),
      piecesFrom_last rfl (by simp) (by simp; omega), hbits, hc]
  · have hbits : ((n / 262144 % 8 * 64 + n / 4096 % 64) * 64 + n / 64 % 64) * 64 + n % 64 = n := by
      omega
    simp only [List.cons_append, List.nil_append]
    rw [piecesFrom_lead (lead_four (by omega)),
      piecesFrom_tail rfl (by dsimp only; split <;> simp; omega)
        (by dsimp only; split <;> simp <;> omega),
      piecesFrom_tail rfl (by simp) (by simp; omega),
      piecesFrom_last rfl (by simp) (by simp; omega), hbits, hc]

theorem pieces_ofChars (cs : List Char) : pieces (Bytes.ofChars cs) = cs.map .char := by
  unfold pieces
  induction cs with
  | nil => rfl
  | cons c cs ih => rw [Bytes.ofChars_cons, piecesFrom_char, ih, List.map_cons]

theorem readPieces_chars (index : Nat) (cs : List Char) :
    readPieces index (cs.map .char) = .ok cs := by
  induction cs generalizing index with
  | nil => rfl
  | cons c cs ih =>
    rw [List.map_cons, readPieces, ih]
    rfl

theorem decode_ofChars (cs : List Char) : decode (Bytes.ofChars cs) = .ok cs := by
  rw [decode, pieces_ofChars, readPieces_chars]

end Text.Utf8

namespace Bytes

variable {cs : List Char}

theorem eq_of_mem_encode {c : Char} {b : UInt8} (hb : b ∈ String.utf8EncodeChar c)
    (hlow : b.toNat < 128) : c.toNat = b.toNat := by
  have hc : c.toNat = c.val.toNat := rfl
  simp only [String.utf8EncodeChar] at hb
  rw [hc]
  generalize c.val.toNat = n at hb
  repeat' split at hb
  all_goals
    simp only [List.mem_cons, List.not_mem_nil, or_false] at hb
    rcases hb with rfl | rfl | rfl | rfl <;> rw [UInt8.toNat_ofNat'] at hlow ⊢ <;> omega

theorem not_mem_ofChars {c : Char} {b : UInt8} (hc : c ∉ cs) (hb : c.toNat = b.toNat)
    (hlow : b.toNat < 128) : b ∉ ofChars cs := by
  intro hm
  obtain ⟨d, hd, hbd⟩ := List.mem_flatMap.1 hm
  have hdc : d.toNat = c.toNat := (eq_of_mem_encode hbd hlow).trans hb.symm
  exact hc (Char.toNat_inj.1 hdc ▸ hd)

theorem cr_not_mem_ofChars (h : '\r' ∉ cs) : cr ∉ ofChars cs :=
  not_mem_ofChars h (by decide) (by decide)

theorem lf_not_mem_ofChars (h : '\n' ∉ cs) : lf ∉ ofChars cs :=
  not_mem_ofChars h (by decide) (by decide)

theorem ofChars_ascii (h : ∀ c ∈ cs, c.toNat < 128) :
    ofChars cs = cs.map fun c => UInt8.ofNat c.toNat := by
  induction cs with
  | nil => rfl
  | cons c cs ih =>
    have hc : c.val.toNat ≤ 127 := Nat.le_of_lt_succ (h c List.mem_cons_self)
    rw [ofChars_cons, ih fun d hd => h d (List.mem_cons_of_mem c hd), List.map_cons]
    simp only [String.utf8EncodeChar, hc, ite_true]
    rfl

end Bytes
end HttpClient

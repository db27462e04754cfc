import HttpClient.Proofs.Text.Numerals
import HttpClient.Proofs.Text.Utf8
import HttpClient.Proofs.Text.Words
import Mathlib.Data.List.Induction
set_option autoImplicit false

/-!
What a text was before it was read: octets that are read as characters are their encoding, figures
that are read as a number are how it is printed, and what trimming takes away is put back.
-/

namespace HttpClient

namespace Text.Utf8

variable {b : UInt8} {p : Partial} {index n : Nat} {bs rest : Bytes} {cs : List Char}

theorem toNat_ofNat (h : n < 0xD800 ∨ 0xDFFF < n ∧ n < 0x110000) :
    (Char.ofNat n).val.toNat = n := by
  have hv : n.isValidChar := h
  have hc : Char.ofNat n = Char.ofNatAux n hv := dif_pos hv
  rw [hc]
  rfl

theorem readPieces_char {c : Char} {ps : List Piece}
    (h : readPieces index (.char c :: ps) = .ok cs) :
    ∃ more, cs = c :: more ∧ readPieces (index + c.utf8Size) ps = .ok more := by
  rw [readPieces] at h
  cases hr : readPieces (index + c.utf8Size) ps with
  | error fault =>
    rw [hr] at h
    cases h
  | ok more =>
    rw [hr] at h
    cases h
    exact ⟨more, rfl, rfl⟩

theorem readPieces_begun (h : readPieces index (piecesFrom (some p) bs) = .ok cs) :
    ∃ b rest, bs = b :: rest ∧ p.low.toNat ≤ b.toNat ∧ b.toNat ≤ p.high.toNat ∧
      piecesFrom (some p) bs =
        if p.missing ≤ 1 then
          .char (Char.ofNat (p.bits * 64 + (b.toNat - 128))) :: piecesFrom none rest
        else piecesFrom (some ⟨p.missing - 1, 0x80, 0xBF, p.bits * 64 + (b.toNat - 128),
          p.width + 1⟩) rest := by
  cases bs with
  | nil => cases h
  | cons b rest =>
    simp only [piecesFrom, step, extend] at h ⊢
    by_cases hr : p.low ≤ b ∧ b ≤ p.high
    · refine ⟨b, rest, rfl, UInt8.le_iff_toNat_le.1 hr.1, UInt8.le_iff_toNat_le.1 hr.2, ?_⟩
      rw [if_pos hr]
      split <;> rfl
    · rw [if_neg hr] at h
      cases h

theorem lead_cases (h : lead b = some p) : 128 ≤ p.low.toNat ∧ p.high.toNat ≤ 191 ∧
    ((p.missing = 1 ∧ p.bits = b.toNat - 192 ∧ 194 ≤ b.toNat ∧ b.toNat < 224) ∨
      (p.missing = 2 ∧ p.bits = b.toNat - 224 ∧ 224 ≤ b.toNat ∧ b.toNat < 240 ∧
        (b.toNat = 224 → 160 ≤ p.low.toNat) ∧ (b.toNat = 237 → p.high.toNat ≤ 159)) ∨
      (p.missing = 3 ∧ p.bits = b.toNat - 240 ∧ 240 ≤ b.toNat ∧ b.toNat < 245 ∧
        (b.toNat = 240 → 144 ≤ p.low.toNat) ∧ (b.toNat = 244 → p.high.toNat ≤ 143))) := by
  simp only [lead, UInt8.le_iff_toNat_le, ← UInt8.toNat_inj, UInt8.toNat_ofNat,
    Nat.reducePow, Nat.reduceMod] at h
  repeat' split at h
  all_goals
    cases h
  all_goals
    simp only [UInt8.toNat_ofNat, Nat.reducePow, Nat.reduceMod]
    grind

theorem encode_ofNat_one (h : b.toNat < 128) :
    String.utf8EncodeChar (Char.ofNat b.toNat) = [b] := by
  have hn : b.toNat ≤ 127 := by omega
  simp only [String.utf8EncodeChar, toNat_ofNat (n := b.toNat) (by omega), hn, if_true,
    UInt8.ofNat_toNat]

variable {c d e : UInt8}

theorem encode_ofNat_two (hb : 194 ≤ b.toNat) (hb' : b.toNat < 224) (hc : 128 ≤ c.toNat)
    (hc' : c.toNat ≤ 191) :
    String.utf8EncodeChar (Char.ofNat ((b.toNat - 192) * 64 + (c.toNat - 128))) = [b, c] := by
  rw [String.utf8EncodeChar, toNat_ofNat (by omega), if_neg (by omega), if_pos (by omega)]
  simp only [List.cons.injEq, and_true, ← UInt8.toNat_inj, UInt8.toNat_ofNat']
  omega

theorem encode_ofNat_three (hb : 224 ≤ b.toNat) (hb' : b.toNat < 240) (hc : 128 ≤ c.toNat)
    (hc' : c.toNat ≤ 191) (hlow : b.toNat = 224 → 160 ≤ c.toNat)
    (hhigh : b.toNat = 237 → c.toNat ≤ 159) (hd : 128 ≤ d.toNat) (hd' : d.toNat ≤ 191) :
    String.utf8EncodeChar (Char.ofNat (((b.toNat - 224) * 64 + (c.toNat - 128)) * 64 +
      (d.toNat - 128))) = [b, c, d] := by
  rw [String.utf8EncodeChar, toNat_ofNat (by omega), if_neg (by omega), if_neg (by omega),
    if_pos (by omega)]
  simp only [List.cons.injEq, and_true, ← UInt8.toNat_inj, UInt8.toNat_ofNat']
  omega

theorem encode_ofNat_four (hb : 240 ≤ b.toNat) (hb' : b.toNat < 245) (hc : 128 ≤ c.toNat)
    (hc' : c.toNat ≤ 191) (hlow : b.toNat = 240 → 144 ≤ c.toNat)
    (hhigh : b.toNat = 244 → c.toNat ≤ 143) (hd : 128 ≤ d.toNat) (hd' : d.toNat ≤ 191)
    (he : 128 ≤ e.toNat) (he' : e.toNat ≤ 191) :
    String.utf8EncodeChar (Char.ofNat ((((b.toNat - 240) * 64 + (c.toNat - 128)) * 64 +
      (d.toNat - 128)) * 64 + (e.toNat - 128))) = [b, c, d, e] := by
  rw [String.utf8EncodeChar, toNat_ofNat (by omega), if_neg (by omega), if_neg (by omega),
    if_neg (by omega)]
  simp only [List.cons.injEq, and_true, ← UInt8.toNat_inj, UInt8.toNat_ofNat']
  omega

/-- A reading begins with the character that the first octets encode. -/
theorem readPieces_cons (h : readPieces index (piecesFrom none (b :: bs)) = .ok cs) :
    ∃ c more rest index', cs = c :: more ∧ b :: bs = String.utf8EncodeChar c ++ rest ∧
      readPieces index' (piecesFrom none rest) = .ok more := by
  by_cases hb : b < 0x80
  · have hone := encode_ofNat_one (b := b) (UInt8.lt_iff_toNat_lt.1 hb)
    simp only [piecesFrom, step, start, if_pos hb, List.singleton_append] at h
    obtain ⟨more, rfl, hmore⟩ := readPieces_char h
    exact ⟨_, more, bs, _, rfl, by rw [hone]; rfl, hmore⟩
  cases hl : lead b with
  | none =>
    simp only [piecesFrom, step, start, if_neg hb, hl] at h
    cases h
  | some p =>
    rw [piecesFrom_lead hl] at h
    obtain ⟨c, bs, rfl, hclow, hchigh, hp⟩ := readPieces_begun h
    rw [hp] at h
    obtain ⟨hplow, hphigh, ⟨hmissing, hbits, hlow, hhigh⟩ |
      ⟨hmissing, hbits, hlow, hhigh, hfirst, hlast⟩ |
      ⟨hmissing, hbits, hlow, hhigh, hfirst, hlast⟩⟩ := lead_cases hl
    all_goals
      have hc := Nat.le_trans hplow hclow
      have hc' := Nat.le_trans hchigh hphigh
    · rw [hmissing, hbits] at h
      have htwo := encode_ofNat_two hlow hhigh hc hc'
      obtain ⟨more, rfl, hmore⟩ := readPieces_char h
      exact ⟨_, more, bs, _, rfl, by rw [htwo]; rfl, hmore⟩
    · rw [hmissing, hbits] at h
      obtain ⟨d, bs, rfl, hdlow, hdhigh, hp⟩ := readPieces_begun h
      rw [hp] at h
      have hthree := encode_ofNat_three hlow hhigh hc hc' (fun hb => Nat.le_trans (hfirst hb) hclow)
        (fun hb => Nat.le_trans hchigh (hlast hb)) hdlow hdhigh
      obtain ⟨more, rfl, hmore⟩ := readPieces_char h
      exact ⟨_, more, bs, _, rfl, by rw [hthree]; rfl, hmore⟩
    · rw [hmissing, hbits] at h
      obtain ⟨d, bs, rfl, hdlow, hdhigh, hp⟩ := readPieces_begun h
      rw [hp] at h
      obtain ⟨e, bs, rfl, helow, hehigh, hp⟩ := readPieces_begun h
      rw [hp] at h
      have hfour := encode_ofNat_four hlow hhigh hc hc' (fun hb => Nat.le_trans (hfirst hb) hclow)
        (fun hb => Nat.le_trans hchigh (hlast hb)) hdlow hdhigh helow hehigh
      obtain ⟨more, rfl, hmore⟩ := readPieces_char h
      exact ⟨_, more, bs, _, rfl, by rw [hfour]; rfl, hmore⟩

theorem ofChars_of_readPieces (h : readPieces index (piecesFrom none bs) = .ok cs) :
    Bytes.ofChars cs = bs := by
  induction hn : bs.length using Nat.strongRecOn generalizing bs cs index with
  | ind n ih =>
    cases bs with
    | nil =>
      cases h
      rfl
    | cons b bs =>
      obtain ⟨c, more, rest, index', rfl, hbs, hmore⟩ := readPieces_cons h
      have hc := List.length_pos_iff.2 (String.utf8EncodeChar_ne_nil (c := c))
      have hlength : rest.length < n := by
        rw [← hn, hbs, List.length_append]
        omega
      rw [Bytes.ofChars_cons, ih _ hlength hmore rfl, hbs]

theorem ofChars_of_decode (h : decode bs = .ok cs) : Bytes.ofChars cs = bs :=
  ofChars_of_readPieces h

end Text.Utf8

namespace Numeral

variable {base n : Nat} {ds : List Nat} {cs : List Char}

theorem value_lt (h : ∀ d ∈ ds, d < base) :
    value base ds < Nat.pow base ds.length := by
  induction ds using List.reverseRecOn with
  | nil => exact Nat.one_pos
  | append_singleton ds d ih =>
    have hd : d < base := h d (by simp)
    have hds := ih fun e he => h e (List.mem_append_left _ he)
    rw [value_concat, List.length_append, List.length_singleton]
    calc base * value base ds + d < base * value base ds + base := by omega
      _ = base * (value base ds + 1) := by rw [Nat.mul_add, Nat.mul_one]
      _ ≤ base * Nat.pow base ds.length := Nat.mul_le_mul_left _ hds
      _ = Nat.pow base (ds.length + 1) := by rw [Nat.mul_comm]; rfl

theorem digits_value (hb : 2 ≤ base) (h : ∀ d ∈ ds, d < base) (hne : ds ≠ [])
    (hhead : ds.head? ≠ some 0) : digits base (value base ds) = ds := by
  induction ds using List.reverseRecOn with
  | nil => exact absurd rfl hne
  | append_singleton ds d ih =>
    have hd : d < base := h d (by simp)
    rw [value_concat]
    cases ds with
    | nil =>
      have hzero : value base [] = 0 := rfl
      rw [hzero, Nat.mul_zero, Nat.zero_add, digits_of_lt hb hd]
      rfl
    | cons e ds =>
      have hds := ih (fun d hd => h d (List.mem_append_left _ hd)) (by simp) hhead
      have hpos : value base (e :: ds) ≠ 0 := by
        intro hzero
        rw [hzero, digits_of_lt hb (by omega)] at hds
        exact hhead (by rw [← hds]; rfl)
      have hle : base ≤ base * value base (e :: ds) + d :=
        Nat.le_trans (Nat.le_mul_of_pos_right base (Nat.pos_of_ne_zero hpos)) (Nat.le_add_right ..)
      rw [digits_of_le hb hle, Nat.mul_add_div (by omega), Nat.div_eq_of_lt hd, Nat.add_zero, hds,
        Nat.mul_add_mod, Nat.mod_eq_of_lt hd]

theorem digitOf?_decimal {c : Char} {d : Nat} (h : digitOf? 10 c = some d) :
    d < 10 ∧ c = digitChar d := by
  simp only [digitOf?, Option.filter_eq_some_iff, decide_eq_true_eq] at h
  obtain ⟨hv, hlt⟩ := h
  refine ⟨hlt, ?_⟩
  simp only [digitValue?] at hv
  split at hv
  next hrange =>
    cases hv
    rw [digitChar, if_pos hlt, Nat.add_sub_cancel' hrange.1, Char.ofNat_toNat]
  next =>
    repeat' split at hv
    all_goals cases hv
    all_goals omega

theorem map_digitChar_of_mapM (h : cs.mapM (digitOf? 10) = some ds) :
    ds.map digitChar = cs ∧ ∀ d ∈ ds, d < 10 := by
  induction cs generalizing ds with
  | nil =>
    cases h
    exact ⟨rfl, by simp⟩
  | cons c cs ih =>
    simp only [List.mapM_cons, bind, Option.bind_eq_some_iff, pure, Option.some.injEq] at h
    obtain ⟨d, hd, ds, hds, rfl⟩ := h
    obtain ⟨hlt, rfl⟩ := digitOf?_decimal hd
    obtain ⟨rfl, hall⟩ := ih hds
    exact ⟨rfl, List.forall_mem_cons.2 ⟨hlt, hall⟩⟩

theorem eq_print_of_read? {k : Nat} (h : read? 10 cs = some n) (hlength : cs.length = k + 1)
    (hn : Nat.pow 10 k ≤ n) : cs = print 10 n := by
  unfold read? at h
  split at h
  · cases h
  obtain ⟨ds, hds, rfl⟩ := Option.map_eq_some_iff.1 h
  obtain ⟨rfl, hall⟩ := map_digitChar_of_mapM hds
  rw [List.length_map] at hlength
  cases ds with
  | nil => cases hlength
  | cons d ds =>
    have hhead : (d :: ds).head? ≠ some 0 := by
      rintro hzero
      cases hzero
      have hvalue : value 10 (0 :: ds) = value 10 ds := rfl
      have hlt := value_lt fun e he => hall e (List.mem_cons_of_mem 0 he)
      rw [List.length_cons] at hlength
      rw [hvalue, ← Nat.succ.inj hlength] at hn
      omega
    rw [print, digits_value (by decide) hall (by simp) hhead]

end Numeral

namespace Text

variable {sep : Char} {cs front back : List Char}

theorem eq_of_splitFirst {back : Option (List Char)} (h : splitFirst sep cs = (front, back)) :
    cs = front ++ back.elim [] (sep :: ·) := by
  induction cs generalizing front with
  | nil =>
    cases h
    rfl
  | cons c cs ih =>
    rcases hs : splitFirst sep cs with ⟨before, after⟩
    simp only [splitFirst, hs] at h
    split at h
    next hc =>
      cases h
      rw [hc]
      rfl
    next =>
      cases h
      rw [List.cons_append, ← ih hs]

theorem exists_stripped {α : Type} (p : α → Bool) (xs : List α) :
    ∃ before middle after, ((xs.dropWhile p).reverse.dropWhile p).reverse = middle ∧
      xs = before ++ middle ++ after ∧ (∀ x ∈ before ++ after, p x = true) ∧
      (∀ x, middle.head? = some x → p x = false) ∧
      ∀ x, middle.getLast? = some x → p x = false := by
  have hfirst (ys : List α) (x : α) (hx : (ys.dropWhile p).head? = some x) : p x = false := by
    have hnot := List.head?_dropWhile_not p ys
    rwa [hx] at hnot
  have hfront : ((xs.dropWhile p).reverse.dropWhile p).reverse <+: xs.dropWhile p := by
    simpa using List.reverse_prefix.2 (List.dropWhile_suffix p (l := (xs.dropWhile p).reverse))
  refine ⟨xs.takeWhile p, _, ((xs.dropWhile p).reverse.takeWhile p).reverse, rfl, ?_, ?_, ?_, ?_⟩
  · rw [List.append_assoc, ← List.reverse_append, List.takeWhile_append_dropWhile,
      List.reverse_reverse, List.takeWhile_append_dropWhile]
  · intro x hx
    rcases List.mem_append.1 hx with hx | hx
    · exact List.all_eq_true.1 List.all_takeWhile x hx
    · exact List.all_eq_true.1 List.all_takeWhile x (List.mem_reverse.1 hx)
  · intro x hx
    obtain ⟨tail, hmiddle⟩ := List.head?_eq_some_iff.1 hx
    obtain ⟨rest, hrest⟩ := hfront
    rw [hmiddle] at hrest
    exact hfirst xs x (by rw [← hrest]; rfl)
  · intro x hx
    rw [List.getLast?_reverse] at hx
    exact hfirst _ x hx

end Text
end HttpClient

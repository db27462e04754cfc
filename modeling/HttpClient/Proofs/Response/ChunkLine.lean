import HttpClient.Framing
set_option autoImplicit false

namespace HttpClient

namespace Numeral

theorem exists_of_mapM {α β : Type} {f : α → Option β} {xs : List α} {ys : List β}
    (h : xs.mapM f = some ys) :
    (∀ x ∈ xs, (f x).isSome = true) ∧ ∀ y ∈ ys, ∃ x ∈ xs, f x = some y := by
  induction xs generalizing ys with
  | nil =>
    simp only [List.mapM_nil, pure, Option.some.injEq] at h
    simp [← h]
  | cons x xs ih =>
    simp only [List.mapM_cons, bind, Option.bind_eq_some_iff, pure, Option.some.injEq] at h
    obtain ⟨y, hy, zs, hzs, rfl⟩ := h
    have ⟨hx, hz⟩ := ih hzs
    constructor
    · simpa [hy] using hx
    · intro z hm
      rcases List.mem_cons.1 hm with rfl | hm
      · exact ⟨x, List.mem_cons_self, hy⟩
      · obtain ⟨w, hw, hfw⟩ := hz z hm
        exact ⟨w, List.mem_cons_of_mem x hw, hfw⟩

theorem value_eq_zero (base : Nat) {ds : List Nat} (h : ∀ d ∈ ds, d = 0) : value base ds = 0 := by
  induction ds with
  | nil => rfl
  | cons d ds ih =>
    have hd : d = 0 := h d List.mem_cons_self
    simpa [value, hd] using ih fun e he => h e (List.mem_cons_of_mem d he)

theorem isSome_of_read? {base n : Nat} {cs : List Char} (h : read? base cs = some n) :
    ∀ c ∈ cs, (digitOf? base c).isSome = true := by
  unfold read? at h
  split at h
  · cases h
  · obtain ⟨ds, hds, -⟩ := Option.map_eq_some_iff.1 h
    exact (exists_of_mapM hds).1

theorem read?_zeros {base n : Nat} {cs : List Char} (hz : ∀ c ∈ cs, c = '0')
    (h : read? base cs = some n) : n = 0 := by
  unfold read? at h
  split at h
  · cases h
  · obtain ⟨ds, hds, rfl⟩ := Option.map_eq_some_iff.1 h
    refine value_eq_zero base fun d hd => ?_
    obtain ⟨c, hc, hcd⟩ := (exists_of_mapM hds).2 d hd
    rw [hz c hc, digitOf?, Option.filter_eq_some_iff] at hcd
    exact (Option.some.inj hcd.1).symm

end Numeral

namespace Bytes

theorem trim_prefix {b : UInt8} {bs : Bytes} (h : isBlank b = false) :
    trim (b :: bs) <+: b :: bs := by
  unfold trim
  rw [List.dropWhile_cons_of_neg (by simp [h])]
  have hs := List.dropWhile_suffix isBlank (l := (b :: bs).reverse)
  simpa using List.reverse_prefix.2 hs

end Bytes

namespace Chunk

def endsZeros (b : UInt8) : Prop := b = Bytes.cr ∨ b = 59

theorem endsZeros_not_digit {b : UInt8} (h : endsZeros b) :
    Numeral.digitOf? 16 (Char.ofUInt8 b) = none := by
  rcases h with rfl | rfl <;> decide

theorem of_isLastSoFar {line : Bytes} (h : isLastSoFar line = true) :
    ∃ zeros b more, endsZeros b ∧ (∀ z ∈ zeros, z = 48) ∧ line = 48 :: zeros ++ b :: more := by
  simp only [isLastSoFar, Bool.and_eq_true, beq_iff_eq, Bool.or_eq_true] at h
  obtain ⟨hhead, hend⟩ := h
  obtain ⟨tail, rfl⟩ := List.head?_eq_some_iff.1 hhead
  rw [List.dropWhile_cons_of_pos (by decide)] at hend
  refine ⟨tail.takeWhile (· == 48), ?_⟩
  have hz : ∀ z ∈ tail.takeWhile (· == 48), z = 48 := by
    intro z hm
    simpa using List.all_eq_true.1 List.all_takeWhile z hm
  have hb : ∃ b more, endsZeros b ∧ tail.dropWhile (· == 48) = b :: more := by
    rcases hend with hend | hend
    · obtain ⟨more, hm⟩ := List.head?_eq_some_iff.1 hend
      exact ⟨_, more, .inl rfl, hm⟩
    · obtain ⟨more, hm⟩ := List.head?_eq_some_iff.1 hend
      exact ⟨_, more, .inr rfl, hm⟩
  obtain ⟨b, more, hb, hm⟩ := hb
  refine ⟨b, more, hb, hz, ?_⟩
  rw [← hm, List.cons_append, List.takeWhile_append_dropWhile]

theorem isLastSoFar_append {line : Bytes} (h : isLastSoFar line = true) (more : Bytes) :
    isLastSoFar (line ++ more) = true := by
  obtain ⟨zeros, b, after, hb, hz, rfl⟩ := of_isLastSoFar h
  have hz' : ∀ z ∈ zeros, (z == 48) = true := by simpa using hz
  rcases hb with rfl | rfl <;>
    simp [isLastSoFar, List.dropWhile_append_of_pos hz', Bytes.cr]

theorem readSize_eq_zero {line : Bytes} {n : Nat} (hl : isLastSoFar (line ++ [Bytes.cr]) = true)
    (h : readSize line = .ok n) : n = 0 := by
  obtain ⟨zeros, b, more, hb, hz, he⟩ := of_isLastSoFar hl
  obtain ⟨tail, rfl⟩ : ∃ tail, line = 48 :: tail := by
    cases line with
    | nil => simp [Bytes.cr] at he
    | cons c tail => exact ⟨tail, by simp at he; simp [he.1]⟩
  have hdigits : ∃ size, size <+: 48 :: tail ∧
      Numeral.read? 16 (size.map Char.ofUInt8) = some n := by
    simp only [readSize] at h
    have ht : (48 :: tail).takeWhile (· != (59 : UInt8)) <+: 48 :: tail := List.takeWhile_prefix _
    rw [List.takeWhile_cons_of_pos (by decide)] at h ht
    refine ⟨_, (Bytes.trim_prefix (by decide)).trans ht, ?_⟩
    split at h
    · next m hm =>
      split at h
      · cases h; exact hm
      · cases h
    · cases h
  obtain ⟨size, hs, hr⟩ := hdigits
  -- no octet of the size ends the zeros, so the size is among them
  have hnot : b ∉ size := by
    intro hm
    have := Numeral.isSome_of_read? hr _ (List.mem_map_of_mem hm)
    rw [endsZeros_not_digit hb] at this
    cases this
  have hzeros : ∀ c ∈ size, c = 48 := by
    have h₁ : size <+: (48 :: zeros ++ [b]) ++ more := by
      rw [List.append_assoc, List.singleton_append, ← he]
      exact hs.trans (List.prefix_append _ _)
    intro c hc
    rcases List.prefix_or_prefix_of_prefix h₁ (List.prefix_append _ more) with hp | hp
    · have := hp.subset hc
      simp only [List.cons_append, List.mem_cons, List.mem_append, List.not_mem_nil,
        or_false] at this
      rcases this with hc' | hc' | hc'
      · exact hc'
      · exact hz c hc'
      · exact absurd (hc' ▸ hc) hnot
    · exact absurd (hp.subset (by simp)) hnot
  refine Numeral.read?_zeros (fun c hc => ?_) hr
  obtain ⟨d, hd, rfl⟩ := List.mem_map.1 hc
  rw [hzeros d hd]
  decide

end Chunk
end HttpClient

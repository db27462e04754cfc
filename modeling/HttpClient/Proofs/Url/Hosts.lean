import HttpClient.Proofs.Text.Numerals
import HttpClient.Proofs.Text.Words
import HttpClient.Url.Reader
set_option autoImplicit false

/-!
The characters of hosts that were read. All of them are printable, however they were escaped, and in
a domain there is no number sign, which would begin the fragment.
-/

namespace HttpClient

def Text.isPrintable (c : Char) : Bool := 0x20 ≤ c.toNat && c.toNat < 0x7F

def Text.Printable (s : String) : Prop := s.toList.all isPrintable = true

instance (s : String) : Decidable (Text.Printable s) :=
  inferInstanceAs (Decidable (s.toList.all Text.isPrintable = true))

namespace Text

variable {c : Char} {s t : String}

theorem isPrintable_iff : isPrintable c = true ↔ 32 ≤ c.toNat ∧ c.toNat < 127 := by
  simp [isPrintable]

theorem isPrintable_toLower (h : isPrintable c = true) : isPrintable c.toLower = true := by
  rw [isPrintable_iff] at h ⊢
  rw [toNat_toLower]
  split <;> omega

theorem isPrintable_of_isAlphanum (h : c.isAlphanum = true) : isPrintable c = true := by
  rw [isAlphanum_iff] at h
  rw [isPrintable_iff]
  omega

theorem printable_ofList {cs : List Char} :
    Printable (String.ofList cs) ↔ ∀ c ∈ cs, isPrintable c = true := by
  rw [Printable, String.toList_ofList, List.all_eq_true]

@[simp] theorem printable_append : Printable (s ++ t) ↔ Printable s ∧ Printable t := by
  simp only [Printable, String.toList_append, List.all_append, Bool.and_eq_true]

@[simp] theorem printable_empty : Printable "" := by simp [Printable]

theorem printable_decimal (n : Nat) : Printable (Numeral.decimal n) :=
  printable_ofList.2 (Numeral.print_chars (by decide) (by decide) (by decide))

end Text

theorem Percent.printable_encode {escaped : Char → Bool} {cs : List Char}
    (h : ∀ c ∈ cs, control c = true → escaped c = true) :
    ∀ c ∈ encode escaped cs, Text.isPrintable c = true := by
  have hdigit : ∀ d < 16, Text.isPrintable (upperDigit d) = true := by decide
  intro c hc
  obtain ⟨b, hb, hc⟩ := List.mem_flatMap.1 hc
  split at hc
  · obtain ⟨octet, -, hc⟩ := List.mem_flatMap.1 hc
    have hlow : octet.toNat % 16 < 16 := Nat.mod_lt _ (by decide)
    have hhigh : octet.toNat / 16 < 16 := by
      have := octet.toNat_lt
      omega
    simp only [encodeOctet, List.mem_cons, List.not_mem_nil, or_false] at hc
    rcases hc with rfl | rfl | rfl
    · decide
    · exact hdigit _ hhigh
    · exact hdigit _ hlow
  · next hplain =>
    rw [List.mem_singleton.1 hc, Text.isPrintable_iff]
    have hcontrol := mt (h b hb) hplain
    simp only [control, Bool.or_eq_true, decide_eq_true_eq, not_or] at hcontrol
    omega

namespace Host

def domainChar (c : Char) : Bool := Text.isPrintable c && c != '#'

variable {host : String} {cs : List Char}

theorem domainChar_print (base n : Nat) (hb : 2 ≤ base) (hb' : base ≤ 16) :
    ∀ c ∈ Numeral.print base n, domainChar c = true :=
  Numeral.print_chars hb hb' (by decide)

theorem domainChar_ipv4Text (value : Nat) : ∀ c ∈ (ipv4Text value).toList, domainChar c = true := by
  rw [ipv4Text, String.toList_intercalate]
  refine Text.forall_mem_intercalate (List.all_eq_true.1 (by decide)) fun part hm => ?_
  rw [List.map_map] at hm
  obtain ⟨n, -, rfl⟩ := List.mem_map.1 hm
  rw [Function.comp, Numeral.decimal, String.toList_ofList]
  exact domainChar_print 10 n (by decide) (by decide)

theorem domainChar_groupTexts (groups : List Nat) :
    ∀ c ∈ groupTexts groups, domainChar c = true := by
  refine Text.forall_mem_intercalate (List.all_eq_true.1 (by decide)) fun part hm => ?_
  obtain ⟨n, -, rfl⟩ := List.mem_map.1 hm
  exact domainChar_print 16 n (by decide) (by decide)

theorem domainChar_ipv6Text (groups : List Nat) :
    ∀ c ∈ (ipv6Text groups).toList, domainChar c = true := by
  unfold ipv6Text
  rw [String.toList_ofList]
  split
  · exact domainChar_groupTexts groups
  · have hgap : ∀ c ∈ [':', ':'], domainChar c = true := List.all_eq_true.1 (by decide)
    exact List.forall_mem_append.2 ⟨List.forall_mem_append.2 ⟨domainChar_groupTexts _, hgap⟩,
      domainChar_groupTexts _⟩

theorem domainChar_readIpv6 (h : readIpv6 cs = .ok host) :
    ∀ c ∈ host.toList, domainChar c = true := by
  unfold readIpv6 at h
  split at h
  · next groups _ =>
    cases h
    have hopen : ∀ c ∈ "[".toList, domainChar c = true := List.all_eq_true.1 (by decide)
    have hclose : ∀ c ∈ "]".toList, domainChar c = true := List.all_eq_true.1 (by decide)
    rw [String.toList_append, String.toList_append]
    exact List.forall_mem_append.2 ⟨List.forall_mem_append.2 ⟨hopen, domainChar_ipv6Text groups⟩,
      hclose⟩
  · cases h

theorem toLower_ne_hash {c : Char} (h : c ≠ '#') : c.toLower ≠ '#' := by
  intro hlower
  have hval := Text.toNat_toLower c
  rw [hlower] at hval
  split at hval
  · have hmark : '#'.toNat = 35 := rfl
    omega
  · exact h (Char.toNat_inj.1 hval.symm)

theorem domainChar_of_allowed {c : Char} (h : forbiddenInDomain c = false) :
    domainChar c.toLower = true := by
  simp only [forbiddenInDomain, Bool.or_eq_false_iff, decide_eq_false_iff_not] at h
  obtain ⟨⟨⟨hmark, hlow⟩, -⟩, hhigh⟩ := h
  have hprintable : Text.isPrintable c = true := Text.isPrintable_iff.2 (by omega)
  have hne : c ≠ '#' := by
    rintro rfl
    exact absurd hmark (by decide)
  simp [domainChar, Text.isPrintable_toLower hprintable, toLower_ne_hash hne]

theorem ipv4Text_of_readIpv4 (h : readIpv4 cs = some host) : ∃ value, host = ipv4Text value := by
  unfold readIpv4 at h
  dsimp only at h
  split at h
  · cases h
  · simp only [Option.bind_eq_bind, Option.bind_eq_some_iff, Option.pure_def,
      Option.some.injEq] at h
    obtain ⟨-, -, value, -, rfl⟩ := h
    exact ⟨value, rfl⟩

theorem domainChar_readDomain (h : readDomain cs = .ok host) :
    ∀ c ∈ host.toList, domainChar c = true := by
  unfold readDomain at h
  split at h
  · cases h
  · exact domainChar_readIpv6 h
  · dsimp only at h
    generalize Text.Utf8.decodeLossy (Percent.decode (Bytes.ofChars cs)) = name at h
    split at h
    · cases h
    · next hname =>
      split at h
      · cases h
      · split at h
        · split at h
          · next address hread =>
            cases h
            obtain ⟨value, rfl⟩ := ipv4Text_of_readIpv4 hread
            exact domainChar_ipv4Text value
          · cases h
        · cases h
          rw [String.toList_ofList]
          intro c hc
          obtain ⟨b, hb, rfl⟩ := List.mem_map.1 hc
          exact domainChar_of_allowed
            (Bool.eq_false_iff.2 fun hf => hname (List.any_eq_true.2 ⟨b, hb, hf⟩))

theorem printable_of_domainChar (h : ∀ c ∈ host.toList, domainChar c = true) :
    Text.Printable host :=
  List.all_eq_true.2 fun c hc => (Bool.and_eq_true_iff.1 (h c hc)).1

theorem hash_not_mem_of_domainChar (h : ∀ c ∈ cs, domainChar c = true) : '#' ∉ cs :=
  fun hm => absurd (h '#' hm) (by decide)

theorem printable_readForeign (h : readForeign cs = .ok host) : Text.Printable host := by
  unfold readForeign at h
  split at h
  · cases h
  · exact printable_of_domainChar (domainChar_readIpv6 h)
  · split at h
    · cases h
    · cases h
      exact Text.printable_ofList.2 (Percent.printable_encode fun _ _ hc => hc)

end Host
end HttpClient

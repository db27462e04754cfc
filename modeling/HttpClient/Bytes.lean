set_option autoImplicit false

namespace HttpClient

abbrev Bytes := List UInt8

namespace Bytes

def ofChars (cs : List Char) : Bytes := cs.flatMap String.utf8EncodeChar

@[simp] theorem ofChars_nil : ofChars [] = [] := rfl

@[simp] theorem ofChars_cons (c : Char) (cs : List Char) :
    ofChars (c :: cs) = String.utf8EncodeChar c ++ ofChars cs := rfl

@[simp] theorem ofChars_append (cs ds : List Char) :
    ofChars (cs ++ ds) = ofChars cs ++ ofChars ds := by simp [ofChars]

def ofText (s : String) : Bytes := ofChars s.toList

def cr : UInt8 := 13
def lf : UInt8 := 10

def crlf : Bytes := [cr, lf]

/-- The line before the first CRLF and the octets after it. -/
def splitLine : Bytes → Option (Bytes × Bytes)
  | [] => none
  | b :: rest =>
    if b = cr ∧ rest.head? = some lf then some ([], rest.tail)
    else (splitLine rest).map fun (line, after) => (b :: line, after)

theorem eq_of_splitLine {bs line rest : Bytes} (h : splitLine bs = some (line, rest)) :
    bs = line ++ crlf ++ rest := by
  induction bs generalizing line with
  | nil => simp [splitLine] at h
  | cons b bs ih =>
    simp only [splitLine] at h
    split at h
    · next hb =>
      obtain ⟨rfl, hd⟩ := hb
      cases bs with
      | nil => simp at hd
      | cons c cs =>
        simp at hd h
        simp [crlf, hd, h.1, ← h.2]
    · obtain ⟨⟨l, r⟩, hl, he⟩ := Option.map_eq_some_iff.1 h
      cases he
      simp [ih hl]

theorem length_of_splitLine {bs line rest : Bytes} (h : splitLine bs = some (line, rest)) :
    bs.length = line.length + 2 + rest.length := by
  rw [eq_of_splitLine h]; simp [crlf]; omega

/-- Blanks around a chunk size: space, tab, line feed, form feed and carriage return. -/
def isBlank (b : UInt8) : Bool := b == 32 || b == 9 || b == 10 || b == 12 || b == 13

def trim (bs : Bytes) : Bytes :=
  ((bs.dropWhile isBlank).reverse.dropWhile isBlank).reverse

def cut (n : Nat) (bs : Bytes) : List Bytes :=
  if _h : bs = [] ∨ n = 0 then [] else bs.take n :: cut n (bs.drop n)
termination_by bs.length
decreasing_by
  have : bs.length ≠ 0 := fun e => _h (.inl (List.length_eq_zero_iff.1 e))
  simp only [List.length_drop]; omega

end Bytes
end HttpClient

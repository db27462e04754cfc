set_option autoImplicit false

namespace HttpClient.Text

/-- The Unicode property White_Space. -/
def isBlank (c : Char) : Bool :=
  let n := c.toNat
  (9 ≤ n && n ≤ 13) || n == 0x20 || n == 0x85 || n == 0xA0 || n == 0x1680 ||
    (0x2000 ≤ n && n ≤ 0x200A) || n == 0x2028 || n == 0x2029 || n == 0x202F || n == 0x205F ||
    n == 0x3000

def trimBy (p : Char → Bool) (cs : List Char) : List Char :=
  ((cs.dropWhile p).reverse.dropWhile p).reverse

def trim (cs : List Char) : List Char := trimBy isBlank cs

def splitOn (sep : Char) : List Char → List (List Char)
  | [] => [[]]
  | c :: cs =>
    if c = sep then [] :: splitOn sep cs
    else match splitOn sep cs with
      | [] => [[c]]
      | part :: parts => (c :: part) :: parts

theorem splitOn_ne_nil (sep : Char) (cs : List Char) : splitOn sep cs ≠ [] := by
  cases cs with
  | nil => simp [splitOn]
  | cons c cs =>
    simp only [splitOn]
    split
    · simp
    · split <;> simp

def splitFirst (sep : Char) : List Char → List Char × Option (List Char)
  | [] => ([], none)
  | c :: cs =>
    if c = sep then ([], some cs)
    else let (front, back) := splitFirst sep cs; (c :: front, back)

/-- The text in ASCII lower case; other letters stay as they are. -/
def lower (s : String) : String := String.ofList (s.toList.map Char.toLower)

def sameWord (s t : String) : Bool := s.toList.map Char.toLower == t.toList.map Char.toLower

theorem sameWord_refl (s : String) : sameWord s s = true := by simp [sameWord]

theorem sameWord_comm (s t : String) : sameWord s t = sameWord t s := by
  simp only [sameWord, Bool.beq_comm]

theorem sameWord_trans {s t u : String} (h : sameWord s t = true) (h' : sameWord t u = true) :
    sameWord s u = true := by
  simp only [sameWord, beq_iff_eq] at *
  exact h.trans h'

end HttpClient.Text

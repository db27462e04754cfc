set_option autoImplicit false

namespace HttpClient.Numeral

def digits (base n : Nat) : List Nat :=
  if n < max base 2 then [n] else digits base (n / max base 2) ++ [n % max base 2]
termination_by n
decreasing_by
  apply Nat.div_lt_self
  · omega
  · omega

def digitChar (d : Nat) : Char := if d < 10 then Char.ofNat (48 + d) else Char.ofNat (87 + d)

def digitValue? (c : Char) : Option Nat :=
  let n := c.toNat
  if 48 ≤ n ∧ n ≤ 57 then some (n - 48)
  else if 97 ≤ n ∧ n ≤ 102 then some (n - 87)
  else if 65 ≤ n ∧ n ≤ 70 then some (n - 55)
  else none

def digitOf? (base : Nat) (c : Char) : Option Nat :=
  (digitValue? c).filter (· < base)

def value (base : Nat) (ds : List Nat) : Nat := ds.foldl (fun n d => base * n + d) 0

def print (base n : Nat) : List Char := (digits base n).map digitChar

def read? (base : Nat) (cs : List Char) : Option Nat :=
  if cs.isEmpty then none else (cs.mapM (digitOf? base)).map (value base)

def decimal (n : Nat) : String := String.ofList (print 10 n)

def wordLimit : Nat := 18446744073709551615

end HttpClient.Numeral

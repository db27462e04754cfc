import HttpClient.Coding.Inflate
import Mathlib.Data.List.Basic
set_option autoImplicit false

/-!
Deflate data of which more and more is there. What was read from the front of the input stays as it
is when more input follows; only where the input had run out does reading go on.
-/

namespace HttpClient.Inflate

/-- What a reader makes of some input, and of that input with more behind it: the same, with
`extend` for the input that is left, unless the input had run out. What was read satisfies `P`. -/
inductive Extends {β : Type} (extend : β → β) (P : β → Prop) :
    Except Stop β → Except Stop β → Prop where
  | ok (x : β) (holds : P x) : Extends extend P (.ok x) (.ok (extend x))
  | damaged : Extends extend P (.error .damaged) (.error .damaged)
  | starved (r : Except Stop β) : Extends extend P (.error .starved) r

def leaving {α : Type} (more : Bits) (x : α × Bits) : α × Bits := (x.1, x.2 ++ more)

section Extends

variable {β γ : Type} {extend : β → β} {extend' : γ → γ} {P Q : β → Prop} {R : γ → Prop}
  {r r' : Except Stop β} {g g' : β → Except Stop γ}

theorem Extends.mono (h : Extends extend P r r') (hPQ : ∀ x, P x → Q x) :
    Extends extend Q r r' := by
  cases h with
  | ok x holds => exact .ok x (hPQ x holds)
  | damaged => exact .damaged
  | starved _ => exact .starved _

theorem Extends.bind (h : Extends extend P r r')
    (hg : ∀ x, P x → Extends extend' R (g x) (g' (extend x))) :
    Extends extend' R (r >>= g) (r' >>= g') := by
  cases h with
  | ok x holds => exact hg x holds
  | damaged => exact .damaged
  | starved _ => exact .starved _

theorem Extends.ite {c : Prop} [Decidable c] {s s' : Except Stop β}
    (hpos : c → Extends extend P r r') (hneg : ¬c → Extends extend P s s') :
    Extends extend P (if c then r else s) (if c then r' else s') := by
  split
  · next hc => exact hpos hc
  · next hc => exact hneg hc

theorem Extends.map {f : β → γ} (h : Extends extend P r r')
    (hf : ∀ x, f (extend x) = extend' (f x)) (hR : ∀ x, P x → R (f x)) :
    Extends extend' R (r.map f) (r'.map f) := by
  cases h with
  | ok x holds =>
    simp only [Except.map, hf]
    exact .ok (f x) (hR x holds)
  | damaged => exact .damaged
  | starved _ => exact .starved _

end Extends

section Readers

variable (more : Bits)

theorem takeNumber_append (n : Nat) (bits : Bits) :
    Extends (leaving more) (fun x => x.2.length + n = bits.length) (takeNumber n bits)
      (takeNumber n (bits ++ more)) := by
  induction n, bits using takeNumber.induct with
  | case1 bits => exact .ok (0, bits) rfl
  | case2 n => exact .starved _
  | case3 n b bits ih =>
    refine ih.bind fun x hx => .ok (2 * x.1 + b.toNat, x.2) ?_
    simp only [List.length_cons]
    omega

theorem takeSymbolFrom_append (code : Code) (word first : Nat) (bits : Bits) :
    Extends (leaving more) (fun x => x.2.length < bits.length) (takeSymbolFrom code word first bits)
      (takeSymbolFrom code word first (bits ++ more)) := by
  induction code generalizing word first bits with
  | nil => exact .damaged
  | cons row longer ih =>
    unfold takeSymbolFrom
    split
    · exact .damaged
    · cases bits with
      | nil => exact .starved _
      | cons b bits =>
        simp only [List.cons_append, List.length_cons]
        split
        · next symbol _ => exact .ok (symbol, bits) (Nat.lt_succ_self bits.length)
        · exact (ih _ _ bits).mono fun x hx => Nat.lt_succ_of_lt hx

theorem takeSymbol_append (code : Code) (bits : Bits) :
    Extends (leaving more) (fun x => x.2.length < bits.length) (takeSymbol code bits)
      (takeSymbol code (bits ++ more)) :=
  takeSymbolFrom_append more code 0 0 bits

theorem takeScaled_append (table : Array (Nat × Nat)) (symbol : Nat) (bits : Bits) :
    Extends (leaving more) (fun x => x.2.length ≤ bits.length) (takeScaled table symbol bits)
      (takeScaled table symbol (bits ++ more)) := by
  unfold takeScaled
  split
  · exact .damaged
  · next least extra _ =>
    refine (takeNumber_append more extra bits).bind fun x hx => .ok (least + x.1, x.2) ?_
    simp only
    omega

theorem takeItem_append (literals distances : Code) (bits : Bits) :
    Extends (leaving more) (fun x => x.2.length < bits.length) (takeItem literals distances bits)
      (takeItem literals distances (bits ++ more)) := by
  unfold takeItem
  refine (takeSymbol_append more literals bits).bind fun symbol hs => ?_
  refine .ite (fun _ => .ok (Item.literal _, symbol.2) hs) fun _ => ?_
  refine .ite (fun _ => .ok (Item.ending, symbol.2) hs) fun _ => ?_
  refine (takeScaled_append more _ _ symbol.2).bind fun length hl => ?_
  refine (takeSymbol_append more distances length.2).bind fun far hf => ?_
  refine (takeScaled_append more _ _ far.2).bind fun distance hd => ?_
  refine .ok (Item.span length.1 distance.1, distance.2) ?_
  simp only
  omega

theorem takeNumbers_append (width n : Nat) (bits : Bits) :
    Extends (leaving more) (fun x => x.2.length ≤ bits.length) (takeNumbers width n bits)
      (takeNumbers width n (bits ++ more)) := by
  induction n generalizing bits with
  | zero => exact .ok ([], bits) (Nat.le_refl _)
  | succ n ih =>
    refine (takeNumber_append more width bits).bind fun x hx => ?_
    refine (ih x.2).bind fun y hy => .ok (x.1 :: y.1, y.2) ?_
    simp only
    omega

theorem takeZeroRun_append (symbol : Nat) (bits : Bits) :
    Extends (leaving more) (fun x => x.2.length ≤ bits.length) (takeZeroRun symbol bits)
      (takeZeroRun symbol (bits ++ more)) := by
  unfold takeZeroRun
  split
  · exact (takeNumber_append more 3 bits).map (fun _ => rfl) fun x hx => by simp only; omega
  · exact (takeNumber_append more 7 bits).map (fun _ => rfl) fun x hx => by simp only; omega

variable {fuel fuel' : Nat}

/-- Every round but the last one reads a bit, so there are rounds enough. -/
theorem takeLengths_append (code : Code) (count : Nat) (bits : Bits) (found : List Nat)
    (hf : bits.length < fuel) (hf' : (bits ++ more).length < fuel') :
    Extends (leaving more) (fun x => x.2.length ≤ bits.length)
      (takeLengths code count fuel bits found)
      (takeLengths code count fuel' (bits ++ more) found) := by
  -- Every round but the last one reads a bit, so neither run lacks rounds.
  induction fuel generalizing fuel' bits found with
  | zero => omega
  | succ fuel ih =>
    cases fuel' with
    | zero => omega
    | succ fuel' =>
    refine .ite (fun _ => .ok (found.reverse, bits) (Nat.le_refl _)) fun _ => ?_
    refine .ite (fun _ => .damaged) fun _ => ?_
    refine (takeSymbol_append more code bits).bind fun x hx => ?_
    have hround (y : Bits) (hy : y.length ≤ x.2.length) (found : List Nat) :
        Extends (leaving more) (fun z => z.2.length ≤ bits.length)
          (takeLengths code count fuel y found)
          (takeLengths code count fuel' (y ++ more) found) := by
      rw [List.length_append] at hf'
      refine (ih y found ?_ ?_).mono fun z hz => ?_
      · omega
      · rw [List.length_append]
        omega
      · omega
    refine .ite (fun _ => hround x.2 (Nat.le_refl _) _) fun _ => ?_
    refine .ite (fun _ => ?_) fun _ => ?_
    · cases found with
      | nil => exact .damaged
      | cons last found =>
        refine (takeNumber_append more 2 x.2).bind fun y hy => hround y.2 ?_ _
        omega
    · exact (takeZeroRun_append more x.1 x.2).bind fun y hy => hround y.2 hy _

theorem takeCodes_append (bits : Bits) :
    Extends (fun x : Code × Code × Bits => (x.1, x.2.1, x.2.2 ++ more))
      (fun x => x.2.2.length ≤ bits.length) (takeCodes bits) (takeCodes (bits ++ more)) := by
  unfold takeCodes
  refine (takeNumber_append more 5 bits).bind fun literals hl => ?_
  refine (takeNumber_append more 5 literals.2).bind fun distances hd => ?_
  refine (takeNumber_append more 4 distances.2).bind fun lengths hn => ?_
  refine .ite (fun _ => .damaged) fun _ => ?_
  refine (takeNumbers_append more 3 (lengths.1 + 4) lengths.2).bind fun widths hw => ?_
  refine .ite (fun _ => .damaged) fun _ => ?_
  have hfuel (y : Bits) : y.length < y.length + 2 := by omega
  refine (takeLengths_append more _ _ widths.2 [] (hfuel _) (hfuel _)).bind fun found hx => ?_
  refine .ite (fun _ => .damaged) fun _ => ?_
  refine .ok (_, _, found.2) ?_
  simp only
  omega

end Readers

theorem prefix_copy (out : Array UInt8) (distance n : Nat) :
    out.toList <+: (copy out distance n).toList := by
  induction n generalizing out with
  | zero => exact List.prefix_rfl
  | succ n ih =>
    simp only [copy]
    refine List.IsPrefix.trans ?_ (ih _)
    rw [Array.toList_push]
    exact List.prefix_append _ _

theorem prefix_push (out : Array UInt8) (b : UInt8) : out.toList <+: (out.push b).toList := by
  rw [Array.toList_push]
  exact List.prefix_append _ _

theorem prefix_goOn {α : Type} {front : Bytes} {out : Array UInt8} {r : Except Stop α}
    {go : α → Written Bits} (h : front <+: out.toList)
    (hgo : ∀ x, front <+: (go x).1.toList) : front <+: (goOn out r go).1.toList := by
  cases r with
  | error stop => exact h
  | ok x => exact hgo x

theorem prefix_compressed (literals distances : Code) (fuel : Nat) (bits : Bits)
    (out : Array UInt8) :
    out.toList <+: (compressed literals distances fuel bits out).1.toList := by
  induction fuel generalizing bits out with
  | zero => exact List.prefix_rfl
  | succ fuel ih =>
    refine prefix_goOn List.prefix_rfl ?_
    rintro ⟨item, rest⟩
    cases item with
    | literal b => exact (prefix_push out b).trans (ih _ _)
    | ending => exact List.prefix_rfl
    | span length distance => exact (prefix_copy out _ _).trans (ih _ _)

theorem prefix_verbatim (n : Nat) (bits : Bits) (out : Array UInt8) :
    out.toList <+: (verbatim n bits out).1.toList := by
  induction n generalizing bits out with
  | zero => exact List.prefix_rfl
  | succ n ih => exact prefix_goOn List.prefix_rfl fun x => (prefix_push out _).trans (ih _ _)

theorem prefix_block (kind : Nat) (bits : Bits) (out : Array UInt8) :
    out.toList <+: (block kind bits out).1.toList := by
  unfold block
  split
  · exact prefix_goOn List.prefix_rfl fun x => prefix_verbatim _ _ _
  split
  · exact prefix_compressed _ _ _ _ _
  split
  · exact prefix_goOn List.prefix_rfl fun x => prefix_compressed _ _ _ _ _
  · exact List.prefix_rfl

theorem prefix_blocks (fuel : Nat) (bits : Bits) (out : Array UInt8) :
    out.toList <+: (blocks fuel bits out).1.toList := by
  induction fuel generalizing bits out with
  | zero => exact List.prefix_rfl
  | succ fuel ih =>
    refine prefix_goOn List.prefix_rfl fun x => ?_
    have hblock := prefix_block (x.1 / 2) x.2 out
    refine prefix_goOn hblock fun rest => ?_
    split
    · exact hblock
    · exact hblock.trans (ih _ _)

inductive Grows (more : Bits) (n : Nat) : Written Bits → Written Bits → Prop where
  | ok (out : Array UInt8) (rest : Bits) (shorter : rest.length ≤ n) :
    Grows more n (out, .ok rest) (out, .ok (rest ++ more))
  | damaged (out : Array UInt8) : Grows more n (out, .error .damaged) (out, .error .damaged)
  | starved {out : Array UInt8} {w : Written Bits} (longer : out.toList <+: w.1.toList) :
    Grows more n (out, .error .starved) w

section Grows

variable {more : Bits} {n m fuel fuel' : Nat}

theorem Grows.mono {w w' : Written Bits} (h : Grows more n w w') (hn : n ≤ m) :
    Grows more m w w' := by
  cases h with
  | ok out rest shorter => exact .ok out rest (Nat.le_trans shorter hn)
  | damaged out => exact .damaged out
  | starved longer => exact .starved longer

theorem Extends.grows {β : Type} {extend : β → β} {P : β → Prop} {r r' : Except Stop β}
    {go go' : β → Written Bits} {out : Array UInt8} (h : Extends extend P r r')
    (hlonger : ∀ x, out.toList <+: (go' x).1.toList)
    (hgo : ∀ x, P x → Grows more n (go x) (go' (extend x))) :
    Grows more n (goOn out r go) (goOn out r' go') := by
  cases h with
  | ok x holds => exact hgo x holds
  | damaged => exact .damaged out
  | starved r => exact .starved (prefix_goOn List.prefix_rfl hlonger)

theorem compressed_append (literals distances : Code) (bits : Bits) (out : Array UInt8)
    (hf : bits.length < fuel) (hf' : (bits ++ more).length < fuel') :
    Grows more bits.length (compressed literals distances fuel bits out)
      (compressed literals distances fuel' (bits ++ more) out) := by
  induction fuel generalizing fuel' bits out with
  | zero => omega
  | succ fuel ih =>
    cases fuel' with
    | zero => omega
    | succ fuel' =>
    have hround (y : Bits) (hy : y.length < bits.length) (out : Array UInt8) :
        Grows more bits.length (compressed literals distances fuel y out)
          (compressed literals distances fuel' (y ++ more) out) := by
      rw [List.length_append] at hf'
      refine (ih y out ?_ ?_).mono (Nat.le_of_lt hy)
      · omega
      · rw [List.length_append]
        omega
    refine (takeItem_append more literals distances bits).grows ?_ ?_
    · rintro ⟨item, rest⟩
      cases item with
      | literal b => exact (prefix_push out b).trans (prefix_compressed _ _ _ _ _)
      | ending => exact List.prefix_rfl
      | span length distance => exact (prefix_copy out _ _).trans (prefix_compressed _ _ _ _ _)
    · rintro ⟨item, rest⟩ hx
      cases item with
      | literal b => exact hround rest hx _
      | ending => exact .ok out rest (Nat.le_of_lt hx)
      | span length distance => exact hround rest hx _

theorem verbatim_append (n : Nat) (bits : Bits) (out : Array UInt8) :
    Grows more bits.length (verbatim n bits out) (verbatim n (bits ++ more) out) := by
  induction n generalizing bits out with
  | zero => exact .ok out bits (Nat.le_refl _)
  | succ n ih =>
    refine (takeNumber_append more 8 bits).grows
      (fun x => (prefix_push out _).trans (prefix_verbatim _ _ _)) fun x hx => ?_
    exact (ih x.2 _).mono (by omega)

theorem takeStoredLength_append (hm : 8 ∣ more.length) (bits : Bits) :
    Extends (leaving more) (fun x => x.2.length ≤ bits.length) (takeStoredLength bits)
      (takeStoredLength (bits ++ more)) := by
  have hskip : (bits ++ more).drop ((bits ++ more).length % 8) =
      bits.drop (bits.length % 8) ++ more := by
    have hmod : (bits ++ more).length % 8 = bits.length % 8 := by
      rw [List.length_append]
      omega
    rw [hmod, List.drop_append_of_le_length (Nat.mod_le _ _)]
  have hle : (bits.drop (bits.length % 8)).length ≤ bits.length := by
    rw [List.length_drop]
    omega
  unfold takeStoredLength
  rw [hskip]
  refine (takeNumber_append more 16 _).bind fun length hl => ?_
  refine (takeNumber_append more 16 length.2).bind fun check hc => ?_
  refine .ite (fun _ => .damaged) fun _ => .ok (length.1, check.2) ?_
  simp only
  omega

theorem block_append (hm : 8 ∣ more.length) (kind : Nat) (bits : Bits) (out : Array UInt8) :
    Grows more bits.length (block kind bits out) (block kind (bits ++ more) out) := by
  unfold block
  split
  · exact (takeStoredLength_append hm bits).grows (fun x => prefix_verbatim _ _ _)
      fun x hx => (verbatim_append x.1 x.2 out).mono hx
  split
  · exact compressed_append _ _ bits out (Nat.lt_succ_self _) (Nat.lt_succ_self _)
  split
  · refine (takeCodes_append more bits).grows (fun x => prefix_compressed _ _ _ _ _) fun x hx => ?_
    exact (compressed_append _ _ x.2.2 out (Nat.lt_succ_self _) (Nat.lt_succ_self _)).mono hx
  · exact .damaged out

theorem blocks_append (hm : 8 ∣ more.length) (bits : Bits) (out : Array UInt8)
    (hf : bits.length < fuel) (hf' : (bits ++ more).length < fuel') :
    Grows more bits.length (blocks fuel bits out) (blocks fuel' (bits ++ more) out) := by
  induction fuel generalizing fuel' bits out with
  | zero => omega
  | succ fuel ih =>
    cases fuel' with
    | zero => omega
    | succ fuel' =>
    have hrest (front : Bytes) (out : Array UInt8) (head : Nat) (rest : Bits)
        (h : front <+: out.toList) : front <+: (if head % 2 = 1 then (out, .ok rest)
          else blocks fuel' rest out : Written Bits).1.toList := by
      split
      · exact h
      · exact h.trans (prefix_blocks _ _ _)
    refine (takeNumber_append more 3 bits).grows ?_ ?_
    · intro x
      have hblock := prefix_block (x.1 / 2) x.2 out
      exact prefix_goOn hblock fun rest => hrest _ _ _ _ hblock
    · intro x hx
      have hblock := block_append hm (x.1 / 2) x.2 out
      simp only [leaving]
      generalize block (x.1 / 2) x.2 out = w, block (x.1 / 2) (x.2 ++ more) out = w' at hblock ⊢
      cases hblock with
      | ok out rest shorter =>
        by_cases hlast : x.1 % 2 = 1
        · simp only [goOn, hlast, if_true]
          exact .ok out rest (by omega)
        · simp only [goOn, hlast, if_false]
          rw [List.length_append] at hf'
          refine (ih rest out ?_ ?_).mono ?_
          · omega
          · rw [List.length_append]
            omega
          · omega
      | damaged out => exact .damaged out
      | starved longer =>
        exact .starved (prefix_goOn longer fun rest => hrest _ _ _ _ longer)

theorem bitsOf_append (bs more : Bytes) : bitsOf (bs ++ more) = bitsOf bs ++ bitsOf more :=
  List.flatMap_append

theorem length_bitsOf (bs : Bytes) : (bitsOf bs).length = 8 * bs.length := by
  induction bs with
  | nil => rfl
  | cons b bs ih =>
    simp only [bitsOf, List.flatMap_cons, List.length_append, List.length_map, List.length_range,
      List.length_cons] at ih ⊢
    omega

inductive Goes (more : Bytes) : Bytes × Except Stop Bytes → Bytes × Except Stop Bytes → Prop where
  | ok (data after : Bytes) : Goes more (data, .ok after) (data, .ok (after ++ more))
  | damaged (data : Bytes) : Goes more (data, .error .damaged) (data, .error .damaged)
  | starved {data : Bytes} {w : Bytes × Except Stop Bytes} (longer : data <+: w.1) :
    Goes more (data, .error .starved) w

theorem inflate_append (bs more : Bytes) : Goes more (inflate bs) (inflate (bs ++ more)) := by
  have hm : 8 ∣ (bitsOf more).length := ⟨more.length, length_bitsOf more⟩
  have hblocks := blocks_append hm (bitsOf bs) #[] (Nat.lt_succ_self _)
    (Nat.lt_succ_self (bitsOf bs ++ bitsOf more).length)
  simp only [inflate, bitsOf_append]
  generalize blocks _ (bitsOf bs) #[] = w, blocks _ (bitsOf bs ++ bitsOf more) #[] = w'
    at hblocks ⊢
  cases hblocks with
  | ok out rest shorter =>
    rw [length_bitsOf] at shorter
    have hafter : (bs ++ more).drop ((bs ++ more).length - (rest ++ bitsOf more).length / 8) =
        bs.drop (bs.length - rest.length / 8) ++ more := by
      have hcount : (bs ++ more).length - (rest ++ bitsOf more).length / 8 =
          bs.length - rest.length / 8 := by
        rw [List.length_append, List.length_append, length_bitsOf]
        omega
      rw [hcount, List.drop_append_of_le_length (Nat.sub_le _ _)]
    simp only [Except.map, hafter]
    exact .ok _ _
  | damaged out => exact .damaged _
  | starved longer => exact .starved longer

end Grows

end HttpClient.Inflate

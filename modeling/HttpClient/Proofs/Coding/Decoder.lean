import HttpClient.Coding.Decoder
import HttpClient.Proofs.Coding.Inflate
set_option autoImplicit false

/-!
The decoders undo their codings: of gzip or zlib data that is complete, everything comes out,
however the data is divided.
-/

namespace HttpClient

namespace Wrapper

open Inflate (Extends)

def Skips (part : Bytes → Option Bytes) : Prop :=
  ∀ bs rest, part bs = some rest →
    rest.length ≤ bs.length ∧ ∀ more, part (bs ++ more) = some (rest ++ more)

section Header

variable {part next : Bytes → Option Bytes}

theorem skips_afterZero : Skips afterZero := by
  intro bs rest h
  induction bs with
  | nil => cases h
  | cons b bs ih =>
    simp only [afterZero] at h
    split at h
    · next hb =>
      cases h
      exact ⟨Nat.le_succ _, fun more => by simp [afterZero, hb]⟩
    · next hb =>
      obtain ⟨hle, hmore⟩ := ih h
      exact ⟨Nat.le_succ_of_le hle, fun more => by simp [afterZero, hb, hmore]⟩

theorem skips_afterExtra : Skips afterExtra := by
  intro bs rest h
  unfold afterExtra at h
  split at h
  · next a b bs =>
    dsimp only at h
    split at h
    · next hn =>
      cases h
      refine ⟨?_, fun more => ?_⟩
      · rw [List.length_drop, List.length_cons, List.length_cons]
        omega
      · have hlong : littleEndian [a, b] ≤ (bs ++ more).length := by
          rw [List.length_append]
          omega
        simp only [List.cons_append, afterExtra, hlong, if_true,
          List.drop_append_of_le_length hn]
    · cases h
  · cases h

theorem Skips.afterPart (h : Skips part) (present : Bool) : Skips (afterPart present part) := by
  cases present with
  | true => exact h
  | false =>
    intro bs rest heq
    cases heq
    exact ⟨Nat.le_refl _, fun more => rfl⟩

theorem Skips.bind (h : Skips part) (h' : Skips next) : Skips fun bs => part bs >>= next := by
  intro bs rest heq
  obtain ⟨between, hpart, hnext⟩ := Option.bind_eq_some_iff.1 heq
  obtain ⟨hle, hmore⟩ := h bs between hpart
  obtain ⟨hle', hmore'⟩ := h' between rest hnext
  refine ⟨Nat.le_trans hle' hle, fun more => ?_⟩
  exact Option.bind_eq_some_iff.2 ⟨_, hmore more, hmore' more⟩

theorem skips_afterParts (flags : UInt8) : Skips (afterParts flags) :=
  (skips_afterExtra.afterPart _).bind ((skips_afterZero.afterPart _).bind
    (skips_afterZero.afterPart _))

theorem afterZlibHeader_append (bs more : Bytes) :
    Extends (· ++ more) (fun _ => True) (afterZlibHeader bs) (afterZlibHeader (bs ++ more)) := by
  match bs with
  | [] => exact .starved _
  | [_] => exact .starved _
  | a :: b :: rest => exact .ite (fun _ => .ok rest trivial) fun _ => .damaged

def Begun (bs : Bytes) (flags : UInt8) (rest : Bytes) : Prop :=
  ∃ a b c d e f, bs = 31 :: 139 :: 8 :: flags :: a :: b :: c :: d :: e :: f :: rest

theorem afterGzipHeader_of_begun {bs rest : Bytes} {flags : UInt8} (h : Begun bs flags rest) :
    afterGzipHeader bs = afterFlags bs flags rest := by
  obtain ⟨a, b, c, d, e, f, rfl⟩ := h
  rfl

theorem afterGzipHeader_of_not_begun {bs : Bytes} (h : ∀ flags rest, ¬Begun bs flags rest) :
    afterGzipHeader bs = if bs.length < 10 then .error .starved else .error .damaged := by
  rw [afterGzipHeader]
  rintro flags a b c d e f rest rfl
  exact h flags rest ⟨a, b, c, d, e, f, rfl⟩

theorem Begun.append {bs rest : Bytes} {flags : UInt8} (h : Begun bs flags rest) (more : Bytes) :
    Begun (bs ++ more) flags (rest ++ more) := by
  obtain ⟨a, b, c, d, e, f, rfl⟩ := h
  exact ⟨a, b, c, d, e, f, rfl⟩

theorem begun_of_append {bs more rest : Bytes} {flags : UInt8} (h : Begun (bs ++ more) flags rest)
    (hlen : 10 ≤ bs.length) : ∃ rest, Begun bs flags rest := by
  obtain ⟨a, b, c, d, e, f, heq⟩ := h
  obtain ⟨n, hn⟩ := Nat.exists_eq_add_of_le' hlen
  have htake : bs = (bs ++ more).take bs.length := List.take_left.symm
  rw [heq, hn] at htake
  exact ⟨rest.take n, a, b, c, d, e, f, htake⟩

theorem afterFlags_append {bs rest : Bytes} (hrest : rest.length ≤ bs.length) (flags : UInt8)
    (more : Bytes) :
    Extends (· ++ more) (fun _ => True) (afterFlags bs flags rest)
      (afterFlags (bs ++ more) flags (rest ++ more)) := by
  refine .ite (fun _ => .damaged) fun _ => ?_
  cases hparts : afterParts flags rest with
  | none => exact .starved _
  | some after =>
    obtain ⟨hle, hmore⟩ := skips_afterParts flags rest after hparts
    have hheader : (bs ++ more).take ((bs ++ more).length - (after ++ more).length) =
        bs.take (bs.length - after.length) := by
      have hcount : (bs ++ more).length - (after ++ more).length = bs.length - after.length := by
        rw [List.length_append, List.length_append]
        omega
      rw [hcount, List.take_append_of_le_length (Nat.sub_le _ _)]
    simp only [hmore more, hheader]
    refine .ite (fun _ => ?_) fun _ => .ok after trivial
    match after with
    | [] => exact .starved _
    | [_] => exact .starved _
    | a :: b :: after => exact .ite (fun _ => .ok after trivial) fun _ => .damaged

theorem afterGzipHeader_append (bs more : Bytes) :
    Extends (· ++ more) (fun _ => True) (afterGzipHeader bs) (afterGzipHeader (bs ++ more)) := by
  by_cases hbegun : ∃ flags rest, Begun bs flags rest
  · obtain ⟨flags, rest, hbegun⟩ := hbegun
    have hrest : rest.length ≤ bs.length := by
      obtain ⟨a, b, c, d, e, f, rfl⟩ := hbegun
      simp only [List.length_cons]
      omega
    rw [afterGzipHeader_of_begun hbegun, afterGzipHeader_of_begun (hbegun.append more)]
    exact afterFlags_append hrest flags more
  · have hnot (flags : UInt8) (rest : Bytes) : ¬Begun bs flags rest :=
      fun h => hbegun ⟨flags, rest, h⟩
    rw [afterGzipHeader_of_not_begun hnot]
    by_cases hlen : bs.length < 10
    · rw [if_pos hlen]
      exact .starved _
    · have hlen' : ¬(bs ++ more).length < 10 := by
        rw [List.length_append]
        omega
      have hnot' (flags : UInt8) (rest : Bytes) : ¬Begun (bs ++ more) flags rest := by
        intro h
        obtain ⟨rest, h⟩ := begun_of_append h (Nat.le_of_not_lt hlen)
        exact hnot flags rest h
      rw [afterGzipHeader_of_not_begun hnot', if_neg hlen, if_neg hlen']
      exact .damaged

theorem afterHeader_append (w : Wrapper) (bs more : Bytes) :
    Extends (· ++ more) (fun _ => True) (w.afterHeader bs) (w.afterHeader (bs ++ more)) := by
  cases w with
  | gzip => exact afterGzipHeader_append bs more
  | zlib => exact afterZlibHeader_append bs more

end Header

inductive Goes (more : Bytes) : Bytes × Reach → Bytes × Reach → Prop where
  | unfinished {data : Bytes} {w : Bytes × Reach} (longer : data <+: w.1) :
    Goes more (data, .open) w
  | closed (data : Bytes) (sound : Bool) (surplus : Nat) :
    Goes more (data, .closed sound surplus) (data, .closed sound (surplus + more.length))
  | damaged (data : Bytes) : Goes more (data, .damaged) (data, .damaged)

theorem Goes.longer {more : Bytes} {r r' : Bytes × Reach} (h : Goes more r r') : r.1 <+: r'.1 := by
  cases h with
  | unfinished longer => exact longer
  | closed data sound surplus => exact List.prefix_rfl
  | damaged data => exact List.prefix_rfl

theorem Goes.reach_of_closed {more plain : Bytes} {sound : Bool} {r : Bytes × Reach}
    (h : Goes more r (plain, .closed sound 0)) : r.2 = .open ∨ r.2 = .closed sound 0 := by
  generalize hlast : (plain, Reach.closed sound 0) = last at h
  cases h with
  | unfinished longer => exact .inl rfl
  | closed data sound' surplus =>
    injection hlast with _ hreach
    injection hreach with hsound hsurplus
    obtain rfl : surplus = 0 := by omega
    exact .inr (by rw [hsound])
  | damaged data =>
    injection hlast with _ hreach
    cases hreach

theorem unwrap_append (w : Wrapper) (bs more : Bytes) :
    Goes more (w.unwrap bs) (w.unwrap (bs ++ more)) := by
  have hheader := afterHeader_append w bs more
  unfold unwrap
  generalize w.afterHeader bs = r, w.afterHeader (bs ++ more) = r' at hheader ⊢
  cases hheader with
  | damaged => exact .damaged []
  | starved _ => exact .unfinished List.nil_prefix
  | ok body _ =>
    have hbody := Inflate.inflate_append body more
    simp only
    generalize Inflate.inflate body = s, Inflate.inflate (body ++ more) = s' at hbody ⊢
    cases hbody with
    | damaged data => exact .damaged data
    | starved longer =>
      refine .unfinished (longer.trans ?_)
      repeat' split
      all_goals exact List.prefix_rfl
    | ok data after =>
      simp only
      by_cases hshort : after.length < w.trailer
      · rw [if_pos hshort]
        refine .unfinished ?_
        repeat' split
        all_goals exact List.prefix_rfl
      · have hlong : ¬(after ++ more).length < w.trailer := by
          rw [List.length_append]
          omega
        have hcheck : (after ++ more).take w.trailer = after.take w.trailer :=
          List.take_append_of_le_length (Nat.le_of_not_lt hshort)
        have hsurplus : (after ++ more).length - w.trailer =
            after.length - w.trailer + more.length := by
          rw [List.length_append]
          omega
        rw [if_neg hshort, if_neg hlong, hcheck, hsurplus]
        split
        · exact .damaged data
        · exact .closed data _ _

end Wrapper

namespace Decoder

/-- What was got from the decoder and what it still has are all that its input holds. -/
structure Held (d : Decoder) (got : Bytes) : Prop where
  whole : (d.wrapper.unwrap d.input).1 = got ++ d.late
  decoded : d.decoded = (got ++ d.late).length
  within : d.overrun = false

theorem Held.decode {d : Decoder} {got piece more plain : Bytes} (h : Held d got)
    (hp : piece ≠ []) (hc : d.wrapper.unwrap (d.input ++ piece ++ more) = (plain, .closed true 0)) :
    ∃ d', d.decode piece = (.ok d.late, d') ∧ d'.wrapper = d.wrapper ∧
      d'.input = d.input ++ piece ∧ Held d' (got ++ d.late) := by
  have hbefore := (d.wrapper.unwrap_append d.input piece).longer
  have hafter := d.wrapper.unwrap_append (d.input ++ piece) more
  rw [hc] at hafter
  have hreach := hafter.reach_of_closed
  rw [h.whole] at hbefore
  obtain ⟨fresh, hfresh⟩ := hbefore
  refine ⟨⟨d.wrapper, d.input ++ piece, (got ++ d.late ++ fresh).length, fresh, false⟩, ?_, rfl,
    rfl, ⟨hfresh.symm, rfl, rfl⟩⟩
  have hdrop : (got ++ d.late ++ fresh).drop d.decoded = fresh := by
    rw [h.decoded, List.drop_left]
  have hfull : piece.isEmpty = false := by simpa using hp
  unfold Decoder.decode
  rcases hu : d.wrapper.unwrap (d.input ++ piece) with ⟨data, reach⟩
  simp only [hu] at hreach hfresh ⊢
  subst hfresh
  rcases hreach with rfl | rfl
  · simp only [hfull, Bool.false_eq_true, if_false, hdrop, h.within]
  · simp only [hfull, Bool.false_eq_true, if_false, hdrop, h.within]

def run (d : Decoder) : List Bytes → Except IoFailure Bytes
  | [] => d.finish.1
  | piece :: more =>
    match d.decode piece with
    | (.error failure, _) => .error failure
    | (.ok out, d) => (d.run more).map (out ++ ·)

/-- However the coded data is divided, the plain data comes out. -/
def Undoes (d : Decoder) (coded plain : Bytes) : Prop :=
  ∀ pieces : List Bytes, pieces.flatten = coded → d.run pieces = .ok plain

theorem Held.run {d : Decoder} {got plain : Bytes} {pieces : List Bytes} (h : Held d got)
    (hc : d.wrapper.unwrap (d.input ++ pieces.flatten) = (plain, .closed true 0)) :
    ∃ left, d.run pieces = .ok left ∧ plain = got ++ left := by
  induction pieces generalizing d got with
  | nil =>
    rw [List.flatten_nil, List.append_nil] at hc
    refine ⟨d.late, ?_, ?_⟩
    · simp only [Decoder.run, finish, hc]
    · rw [← h.whole, hc]
  | cons piece pieces ih =>
    rw [List.flatten_cons, ← List.append_assoc] at hc
    by_cases hp : piece = []
    · subst hp
      rw [List.append_nil] at hc
      obtain ⟨left, hrun, hplain⟩ := ih h hc
      have hsame : d.decode [] = (.ok [], d) := by simp [Decoder.decode, h.within]
      exact ⟨left, by simp [Decoder.run, hsame, hrun, Except.map], hplain⟩
    · obtain ⟨d', hd, hw, hi, hheld⟩ := h.decode hp hc
      rw [← hi, ← hw] at hc
      obtain ⟨left, hrun, hplain⟩ := ih hheld hc
      refine ⟨d.late ++ left, ?_, by rw [hplain, List.append_assoc]⟩
      simp only [Decoder.run, hd, hrun, Except.map]

theorem undoes_of_unwrap {w : Wrapper} {coded plain : Bytes}
    (h : w.unwrap coded = (plain, .closed true 0)) : (new w).Undoes coded plain := by
  rintro pieces rfl
  have hstart : Held (new w) [] := by cases w <;> exact ⟨rfl, rfl, rfl⟩
  obtain ⟨left, hrun, rfl⟩ := hstart.run h
  exact hrun

end Decoder

end HttpClient

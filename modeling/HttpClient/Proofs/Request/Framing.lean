import HttpClient.Prepared
import HttpClient.Proofs.Fields.Framing
set_option autoImplicit false

/-!
Whether the fields of a request say how its body is written. A reader who takes them strictly, as
responses are taken here, gets the framing of the body exactly if what the caller gave is well
formed.
-/

namespace HttpClient

theorem RequestBody.names_of_fields {b : RequestBody} {h : Fields} (hb : b.fields = .ok h) :
    ∀ f ∈ h.entries, f.name = "Content-Type" := by
  cases b with
  | form form =>
    simp only [fields, bind, Except.bind] at hb
    split at hb
    · cases hb
    · rw [Fields.eq_push_of_append hb]
      simp [Fields.push, Fields.empty]
  | _ =>
    cases hb
    simp [Fields.empty]

namespace Prepared

def framingNames : List String := ["Transfer-Encoding", "Content-Length"]

def added (r : Request) (brought : Fields) : List (String × String) :=
  brought.entries.map (fun f => (f.name, f.value)) ++ automatic r

theorem foldlM_of_complete {r : Request} {defaults h : Fields} (hc : complete r defaults = .ok h) :
    ∃ brought, (bodyOf r).fields = .ok brought ∧
      (added r brought).foldlM (fun h (name, value) => h.setIfAbsent name value)
        (r.fields.mergeMissing defaults) = .ok h := by
  simp only [complete, bind, Except.bind] at hc
  split at hc
  · cases hc
  · next brought hb => exact ⟨brought, hb, hc⟩

theorem name_of_added {r : Request} {brought : Fields} (hb : (bodyOf r).fields = .ok brought) :
    ∀ pair ∈ added r brought,
      pair.1 ∈ ["Content-Type", "Host", "User-Agent", "Accept", "Accept-Encoding"] := by
  intro pair hp
  rcases List.mem_append.1 hp with hp | hp
  · obtain ⟨f, hf, rfl⟩ := List.mem_map.1 hp
    simp [RequestBody.names_of_fields hb f hf]
  · unfold automatic at hp
    rcases List.mem_append.1 hp with hp | hp
    · obtain ⟨host, -, rfl⟩ := List.mem_map.1 hp
      simp
    · simp only [List.mem_cons, List.not_mem_nil, or_false] at hp
      rcases hp with rfl | rfl | rfl <;> simp

theorem values_of_complete {r : Request} {defaults h : Fields} {n : String}
    (hc : complete r defaults = .ok h) (hn : n ∈ framingNames) :
    h.values n = (r.fields.mergeMissing defaults).values n := by
  obtain ⟨brought, hb, hf⟩ := foldlM_of_complete hc
  have hdistinct : ∀ m ∈ ["Content-Type", "Host", "User-Agent", "Accept", "Accept-Encoding"],
      ∀ n ∈ framingNames, Text.sameWord m n = false := by decide
  have hnone : (added r brought).find? (fun pair => Text.sameWord pair.1 n) = none := by
    rw [List.find?_eq_none]
    intro pair hp
    rw [hdistinct _ (name_of_added hb pair hp) n hn]
    exact Bool.false_ne_true
  rw [Fields.values_of_foldlM hf, hnone]
  split
  · rfl
  next habsent => exact ((Fields.values_eq_nil_iff _ n).2 (by simpa using habsent)).symm

/-- How the framing of a body is chosen, and what that does to the fields. -/
inductive Framed (h : Fields) : Fields → PayloadFraming → Prop where
  | coded (coding : h.contains "Transfer-Encoding" = true) :
      Framed h (h.without "Content-Length")
        (if h.hasToken "Transfer-Encoding" "chunked" then .chunked else .raw)
  | stated {value : String} {n : Nat} (uncoded : h.contains "Transfer-Encoding" = false)
      (given : h.get? "Content-Length" = some value) (reads : readLength value = some n) :
      Framed h h (.counted n)
  | announced (n : Nat) (uncoded : h.contains "Transfer-Encoding" = false)
      (unstated : h.contains "Content-Length" = false) :
      Framed h (h.push ⟨"Content-Length", Numeral.decimal n⟩) (.counted n)
  | silent (uncoded : h.contains "Transfer-Encoding" = false)
      (unstated : h.contains "Content-Length" = false) : Framed h h (.counted 0)
  | streamed (uncoded : h.contains "Transfer-Encoding" = false)
      (unstated : h.contains "Content-Length" = false) :
      Framed h (h.push ⟨"Transfer-Encoding", "chunked"⟩) .chunked

section Framed

variable {h h' : Fields} {framing : PayloadFraming} {r : Request} {n value : String}

theorem eq_push_of_set (hs : h.set n value = .ok h') (hn : h.contains n = false) :
    h' = h.push ⟨n, value⟩ := by
  rw [Fields.eq_of_set hs, hn]
  rfl

theorem announce_cases {method : String} {length : Option Nat}
    (ha : announce method length h = .ok (h', framing))
    (uncoded : h.contains "Transfer-Encoding" = false)
    (unstated : h.contains "Content-Length" = false) :
    (∃ n, length = some n ∧ framing = .counted n ∧
        (0 < n ∨ bodyMethods.any (Text.sameWord · method) = true) ∧
        h' = h.push ⟨"Content-Length", Numeral.decimal n⟩) ∨
      (length = some 0 ∧ framing = .counted 0 ∧
        bodyMethods.any (Text.sameWord · method) = false ∧ h' = h) ∨
      (length = none ∧ framing = .chunked ∧ h' = h.push ⟨"Transfer-Encoding", "chunked"⟩) := by
  have hset : ∀ {n value framing'}, (h.set n value).map (fun g => (g, framing')) =
      .ok (h', framing) → h.contains n = false →
      h' = h.push ⟨n, value⟩ ∧ framing = framing' := by
    intro n value framing' hm hn
    cases hs : h.set n value with
    | error error =>
      rw [hs] at hm
      cases hm
    | ok g =>
      rw [hs] at hm
      cases hm
      exact ⟨eq_push_of_set hs hn, rfl⟩
  unfold announce at ha
  split at ha
  · split at ha
    · next hmethod =>
      obtain ⟨rfl, rfl⟩ := hset ha unstated
      have hzero : Numeral.decimal 0 = "0" := by
        simp [Numeral.decimal, Numeral.print, Numeral.digits, Numeral.digitChar]
      exact .inl ⟨0, rfl, rfl, .inr hmethod, by rw [hzero]⟩
    · next hmethod =>
      cases ha
      exact .inr (.inl ⟨rfl, rfl, Bool.eq_false_iff.2 hmethod, rfl⟩)
  · next n hn =>
    obtain ⟨rfl, rfl⟩ := hset ha unstated
    exact .inl ⟨n, rfl, rfl, .inl (Nat.pos_of_ne_zero hn), rfl⟩
  · obtain ⟨rfl, rfl⟩ := hset ha uncoded
    exact .inr (.inr ⟨rfl, rfl, rfl⟩)

theorem framed_of_announce {method : String} {length : Option Nat}
    (ha : announce method length h = .ok (h', framing))
    (uncoded : h.contains "Transfer-Encoding" = false)
    (unstated : h.contains "Content-Length" = false) : Framed h h' framing := by
  rcases announce_cases ha uncoded unstated with
    ⟨n, -, rfl, -, rfl⟩ | ⟨-, rfl, -, rfl⟩ | ⟨-, rfl, rfl⟩
  · exact .announced n uncoded unstated
  · exact .silent uncoded unstated
  · exact .streamed uncoded unstated

theorem framed_of_frame (hf : frame r h = .ok (h', framing)) (ht : isTrace r.method = false) :
    Framed h h' framing := by
  simp only [frame, ht, Bool.false_eq_true, ite_false, bind, Except.bind, pure, Except.pure] at hf
  cases hc : h.contains "Transfer-Encoding" with
  | true =>
    simp only [hc, ite_true] at hf
    cases hf
    have htoken : (h.without "Content-Length").hasToken "Transfer-Encoding" "chunked" =
        h.hasToken "Transfer-Encoding" "chunked" := by
      simp only [Fields.hasToken, Fields.elements, Fields.values_without]
      rfl
    rw [htoken]
    exact .coded hc
  | false =>
    simp only [hc, Bool.false_eq_true, ite_false] at hf
    cases hg : h.get? "Content-Length" with
    | some value =>
      simp only [hg] at hf
      cases hr : readLength value with
      | none =>
        simp only [hr] at hf
        cases hf
      | some n =>
        simp only [hr] at hf
        cases hf
        exact .stated hc hg hr
    | none =>
      have hl : h.contains "Content-Length" = false := by
        rw [← h.values_eq_nil_iff, ← List.head?_eq_none_iff, ← h.get?_eq_head?, hg]
      simp only [hg] at hf
      cases hd : (bodyOf r).declaredLength with
      | error failure =>
        simp only [hd, Except.mapError] at hf
        cases hf
      | ok length =>
        simp only [hd, Except.mapError] at hf
        cases ha : announce r.method length h with
        | error error =>
          simp only [ha] at hf
          cases hf
        | ok result =>
          simp only [ha] at hf
          cases hf
          exact framed_of_announce ha hc hl

theorem frame_of_prepare {version : Version} {defaults : Fields} {p : Prepared}
    (hp : prepare r version defaults = .ok p) :
    ∃ completed, complete r defaults = .ok completed ∧
      frame r completed = .ok (p.head.fields, p.framing) ∧ p.sendsBody = !isTrace r.method := by
  simp only [prepare, bind, Except.bind, pure, Except.pure] at hp
  cases hc : complete r defaults with
  | error error =>
    simp only [hc, Except.mapError] at hp
    cases hp
  | ok completed =>
    simp only [hc, Except.mapError] at hp
    refine ⟨completed, rfl, ?_⟩
    cases hf : frame r completed with
    | error failure =>
      simp only [hf] at hp
      cases hp
    | ok result =>
      simp only [hf] at hp
      repeat' split at hp
      all_goals cases hp
      all_goals exact ⟨rfl, rfl⟩

theorem framed_of_prepare {version : Version} {defaults : Fields} {p : Prepared}
    (hp : prepare r version defaults = .ok p) (ht : isTrace r.method = false) :
    ∃ completed, complete r defaults = .ok completed ∧
      Framed completed p.head.fields p.framing := by
  obtain ⟨completed, hc, hf, -⟩ := frame_of_prepare hp
  exact ⟨completed, hc, framed_of_frame hf ht⟩

end Framed

/-- The fields say that a body is written like this. An empty one may go unmentioned. -/
def Denotes (h : Fields) : PayloadFraming → Prop
  | .chunked => h.contains "Content-Length" = false ∧ Framing.resolve h false = .ok .chunked
  | .counted n => h.contains "Transfer-Encoding" = false ∧
      (Framing.resolve h false = .ok (.length n) ∨
        n = 0 ∧ h.contains "Content-Length" = false)
  | .raw => True

/-- What the caller gave is well formed: the codings end with the only chunked, and all lengths are
plain numerals of the same number, which 64 bits hold. -/
def WellGiven (given : Fields) : PayloadFraming → Prop
  | .chunked => given.contains "Transfer-Encoding" = true →
      Framing.EndsOnce (given.elements "Transfer-Encoding")
  | .counted n => n ≤ Numeral.wordLimit ∧
      ∀ v ∈ given.values "Content-Length", Framing.Says n v
  | .raw => True

section Denotes

variable {h h' given : Fields} {framing : PayloadFraming} {n : Nat} {value : String}

theorem le_of_readLength (hr : readLength value = some n) : n ≤ Numeral.wordLimit := by
  unfold readLength at hr
  obtain ⟨-, hn⟩ := Option.filter_eq_some_iff.1 hr
  exact of_decide_eq_true hn

theorem Framed.apart (f : Framed h h' framing) :
    (framing = .chunked → h'.contains "Content-Length" = false) ∧
      ∀ n, framing = .counted n → h'.contains "Transfer-Encoding" = false := by
  cases f with
  | coded coding =>
    refine ⟨fun _ => h.contains_without_self _, fun n hn => ?_⟩
    split at hn <;> cases hn
  | stated uncoded given reads => exact ⟨by simp, fun _ _ => uncoded⟩
  | announced n uncoded unstated =>
    have hother : Text.sameWord "Content-Length" "Transfer-Encoding" = false := by decide
    refine ⟨by simp, fun _ _ => ?_⟩
    simp [Fields.contains_push, uncoded, Field.named, hother]
  | silent uncoded unstated => exact ⟨by simp, fun _ _ => uncoded⟩
  | streamed uncoded unstated =>
    have hother : Text.sameWord "Transfer-Encoding" "Content-Length" = false := by decide
    refine ⟨fun _ => ?_, by simp⟩
    simp [Fields.contains_push, unstated, Field.named, hother]

theorem Framed.denotes_iff (f : Framed h h' framing) :
    Denotes h' framing ↔ WellGiven h framing := by
  have hapart := f.apart
  cases f with
  | coded coding =>
    split
    · have hvalues : (h.without "Content-Length").values "Transfer-Encoding" =
          h.values "Transfer-Encoding" := by
        rw [Fields.values_without]
        rfl
      have hcoding := (Fields.contains_congr hvalues).trans coding
      have helements : (h.without "Content-Length").elements "Transfer-Encoding" =
          h.elements "Transfer-Encoding" := by
        simp only [Fields.elements, hvalues]
      have hlength := h.contains_without_self "Content-Length"
      simp only [Denotes, WellGiven, hlength, Framing.resolve_chunked_iff hlength hcoding,
        helements, coding, true_and, forall_const]
    · simp [Denotes, WellGiven]
  | @stated value n uncoded given reads =>
    have hne : h.values "Content-Length" ≠ [] := by
      intro he
      rw [h.get?_eq_head?, he] at given
      cases given
    have hcontains : h.contains "Content-Length" = true := by
      rw [← Bool.not_eq_false, ← h.values_eq_nil_iff]
      exact hne
    have hle := le_of_readLength reads
    simp [Denotes, WellGiven, uncoded, Framing.resolve_length_iff uncoded, hne, hcontains, hle]
  | announced n uncoded unstated =>
    have hnil := (h.values_eq_nil_iff _).2 unstated
    have hcontains : (h.push ⟨"Content-Length", Numeral.decimal n⟩).contains "Content-Length" =
        true := by
      simp [Fields.contains_push, Field.named, Text.sameWord_refl]
    simp [Denotes, WellGiven, hapart.2 n rfl, Framing.resolve_push_length_iff uncoded unstated,
      hnil, hcontains]
  | silent uncoded unstated =>
    have hnil := (h.values_eq_nil_iff _).2 unstated
    simp [Denotes, WellGiven, uncoded, unstated, hnil, Numeral.wordLimit]
  | streamed uncoded unstated =>
    have hresolve := Framing.resolve_push_chunked uncoded unstated
    simp [Denotes, WellGiven, hapart.1 rfl, hresolve, uncoded]

/-- Only the caller's own lists of codings and lengths can make the fields of a request say
something else than how its body is written. -/
theorem denotes_iff_wellGiven {r : Request} {version : Version} {defaults : Fields} {p : Prepared}
    (hp : prepare r version defaults = .ok p) (ht : isTrace r.method = false) :
    (p.framing = .chunked → p.head.fields.contains "Content-Length" = false) ∧
      (∀ n, p.framing = .counted n → p.head.fields.contains "Transfer-Encoding" = false) ∧
      (Denotes p.head.fields p.framing ↔
        WellGiven (r.fields.mergeMissing defaults) p.framing) := by
  obtain ⟨completed, hc, f⟩ := framed_of_prepare hp ht
  refine ⟨f.apart.1, f.apart.2, f.denotes_iff.trans ?_⟩
  have hcoding := values_of_complete hc (n := "Transfer-Encoding") (by decide)
  have hlength := values_of_complete hc (n := "Content-Length") (by decide)
  cases p.framing with
  | chunked =>
    simp only [WellGiven, Fields.contains_congr hcoding, Fields.elements, hcoding]
  | counted n => simp only [WellGiven, hlength]
  | raw => rfl

def posting (fields : List Field) (text : String) : Request :=
  let url : Url := ⟨"http", "", none, some "h", none, .segments [""], none, none⟩
  { Request.ofUrl "POST" url with fields := ⟨fields⟩, body := .memory (Bytes.ofText text) }

theorem denotes_of_posting :
    ∃ p, prepare (posting [⟨"Content-Length", "5"⟩] "hello") .http11 .empty = .ok p ∧
      p.framing = .counted 5 ∧ Denotes p.head.fields p.framing := by
  obtain ⟨p, hp, hf⟩ : ∃ p, prepare (posting [⟨"Content-Length", "5"⟩] "hello") .http11 .empty =
      .ok p ∧ p.framing = .counted 5 := by
    refine ⟨_, rfl, ?_⟩
    decide +kernel
  refine ⟨p, hp, hf, (denotes_iff_wellGiven hp (by decide)).2.2.2 ?_⟩
  rw [hf]
  exact ⟨by decide, by decide +kernel⟩

/-- Of two lengths the second is not looked at, and chunked counts in any place of the list. -/
theorem framing_misread :
    (∃ p, prepare (posting [⟨"Content-Length", "5"⟩, ⟨"Content-Length", "6"⟩] "hello") .http11
        .empty = .ok p ∧ p.framing = .counted 5 ∧
      Framing.resolve p.head.fields false = .error .lengthMismatch) ∧
    (∃ p, prepare (posting [⟨"Transfer-Encoding", "chunked, gzip"⟩] "hello") .http11 .empty =
        .ok p ∧ p.framing = .chunked ∧
      Framing.resolve p.head.fields false = .ok .untilClose) := by
  refine ⟨⟨_, rfl, ?_, ?_⟩, ⟨_, rfl, ?_, ?_⟩⟩ <;> decide +kernel

end Denotes

end Prepared
end HttpClient

import HttpClient.Proofs.Request.Bodies
import HttpClient.Proofs.Url.Plain
set_option autoImplicit false

/-!
How the fields of a request are completed. The caller's own fields come first and in their order; of
each name the caller's values win over the defaults', and those over what the request supplies. A
TRACE request carries neither a body nor credentials, whoever has given them.
-/

namespace HttpClient.Prepared

/-- A field that neither the caller nor the defaults have given: from the body, from the URL, or the
program's own. -/
inductive Supplied (r : Request) : Field → Prop where
  | brought {fields : Fields} {f : Field} (body : r.body.fields = .ok fields)
      (mem : f ∈ fields.entries) : Supplied r f
  | length {n : Nat} (declared : r.body.declaredLength = .ok (some n)) :
      Supplied r ⟨"Content-Length", Numeral.decimal n⟩
  | coding (undeclared : r.body.declaredLength = .ok none) :
      Supplied r ⟨"Transfer-Encoding", "chunked"⟩
  | host {host : String} (named : r.url.hostText = some host) (implied : r.url.port = none) :
      Supplied r ⟨"Host", host⟩
  | hostPort {host : String} {port : Nat} (named : r.url.hostText = some host)
      (stated : r.url.port = some port) (other : Url.defaultPort r.url.scheme ≠ some port) :
      Supplied r ⟨"Host", host ++ ":" ++ Numeral.decimal port⟩
  | agent : Supplied r ⟨"User-Agent", userAgent⟩
  | accept : Supplied r ⟨"Accept", "*/*"⟩
  | codings : Supplied r ⟨"Accept-Encoding", acceptEncoding⟩

inductive Sourced (r : Request) (defaults : Fields) (n : String) : List String → Prop where
  | caller (own : r.fields.contains n = true) : Sourced r defaults n (r.fields.values n)
  | default (free : r.fields.contains n = false) (given : defaults.contains n = true) :
      Sourced r defaults n (defaults.values n)
  | supplied {f : Field} (free : r.fields.contains n = false)
      (missing : defaults.contains n = false) (supplied : Supplied r f)
      (named : f.named n = true) : Sourced r defaults n [f.value]
  | absent (free : r.fields.contains n = false) (missing : defaults.contains n = false) :
      Sourced r defaults n []

/-- These fields complete those of the request. A length that was given does not outlast a transfer
coding. -/
structure Completes (r : Request) (defaults h : Fields) : Prop where
  own : (if h.contains "Transfer-Encoding" then r.fields.without "Content-Length"
    else r.fields).entries <+: h.entries
  sourced : ∀ n,
    ¬(Text.sameWord "Content-Length" n = true ∧ h.contains "Transfer-Encoding" = true) →
    Sourced r defaults n (h.values n)
  apart : ¬(h.contains "Transfer-Encoding" = true ∧ h.contains "Content-Length" = true)

section Complete

variable {r : Request} {defaults h h' : Fields} {n : String}

theorem supplied_hostValue {value : String} (hu : r.url.Given) (hv : r.hostValue = some value) :
    Supplied r ⟨"Host", value⟩ := by
  obtain ⟨host, hnamed, rfl⟩ := Option.map_eq_some_iff.1 hv
  cases hp : r.url.port with
  | none => simpa using Supplied.host hnamed hp
  | some port =>
    simpa [String.append_assoc] using Supplied.hostPort hnamed hp (hu.plain.port port hp)

theorem supplied_added {brought : Fields} (hu : r.url.Given) (hb : r.body.fields = .ok brought) :
    ∀ pair ∈ added r brought, Supplied r ⟨pair.1, pair.2⟩ := by
  intro pair hp
  rcases List.mem_append.1 hp with hp | hp
  · obtain ⟨f, hf, rfl⟩ := List.mem_map.1 hp
    exact .brought hb hf
  rcases List.mem_append.1 hp with hp | hp
  · obtain ⟨host, hhost, rfl⟩ := List.mem_map.1 hp
    exact supplied_hostValue hu (Option.mem_toList.1 hhost)
  · simp only [List.mem_cons, List.not_mem_nil, or_false] at hp
    rcases hp with rfl | rfl | rfl
    · exact .agent
    · exact .accept
    · exact .codings

theorem sourced_of_complete (hu : r.url.Given) (ht : isTrace r.method = false)
    (hc : complete r defaults = .ok h) (n : String) : Sourced r defaults n (h.values n) := by
  obtain ⟨brought, hb, hf⟩ := foldlM_of_complete hc
  have hbody : bodyOf r = r.body := by simp [bodyOf, ht]
  rw [hbody] at hb
  rw [Fields.values_of_foldlM hf n, Fields.values_mergeMissing, Fields.contains_mergeMissing]
  cases hown : r.fields.contains n with
  | true => exact .caller hown
  | false =>
    cases hgiven : defaults.contains n with
    | true => exact .default hown hgiven
    | false =>
      simp only [Bool.or_false, Bool.false_eq_true, if_false]
      cases hfind : (added r brought).find? fun pair => Text.sameWord pair.1 n with
      | none => exact .absent hown hgiven
      | some pair =>
        have hname : Text.sameWord pair.1 n = true := by simpa using List.find?_some hfind
        exact .supplied hown hgiven
          (supplied_added hu hb pair (List.mem_of_find?_eq_some hfind)) hname

theorem prefix_of_complete (hc : complete r defaults = .ok h) : r.fields.entries <+: h.entries := by
  obtain ⟨brought, -, hf⟩ := foldlM_of_complete hc
  exact (List.prefix_append ..).trans (Fields.prefix_of_foldlM hf)

theorem frame_cases {framing : PayloadFraming} (hf : frame r h = .ok (h', framing))
    (ht : isTrace r.method = false) :
    h.contains "Transfer-Encoding" = true ∧ h' = h.without "Content-Length" ∨
    h.contains "Transfer-Encoding" = false ∧ h' = h ∨
    h.contains "Transfer-Encoding" = false ∧ h.contains "Content-Length" = false ∧
      ∃ f, Supplied r f ∧ f.name ∈ framingNames ∧ h' = h.push f := by
  have hadds (uncoded : h.contains "Transfer-Encoding" = false)
      (unstated : h.contains "Content-Length" = false) :
      h' = h ∨ ∃ f, Supplied r f ∧ f.name ∈ framingNames ∧ h' = h.push f := by
    obtain ⟨length, hlength, ha⟩ := announce_of_frame hf ht uncoded unstated
    rcases announce_cases ha uncoded unstated with
      ⟨n, rfl, -, -, rfl⟩ | ⟨rfl, -, -, rfl⟩ | ⟨rfl, -, rfl⟩
    · exact .inr ⟨_, .length hlength, by simp [framingNames], rfl⟩
    · exact .inl rfl
    · exact .inr ⟨_, .coding hlength, by simp [framingNames], rfl⟩
  cases framed_of_frame hf ht with
  | coded coding => exact .inl ⟨coding, rfl⟩
  | stated uncoded given reads => exact .inr (.inl ⟨uncoded, rfl⟩)
  | silent uncoded unstated => exact .inr (.inl ⟨uncoded, rfl⟩)
  | announced n uncoded unstated | streamed uncoded unstated =>
    exact (hadds uncoded unstated).elim (fun he => .inr (.inl ⟨uncoded, he⟩))
      fun hf => .inr (.inr ⟨uncoded, unstated, hf⟩)

theorem absent_before {h h' : Fields} (hp : h.entries <+: h'.entries)
    (hn : h'.contains n = false) : h.contains n = false := by
  rw [Fields.contains, List.any_eq_false] at hn ⊢
  exact fun f hf => hn f (hp.subset hf)

theorem Sourced.missing {vs : List String} (h : Sourced r defaults n vs) (hvs : vs = []) :
    r.fields.contains n = false ∧ defaults.contains n = false := by
  cases h with
  | caller own => exact absurd ((Fields.values_eq_nil_iff _ n).1 hvs) (by simp [own])
  | default free given => exact absurd ((Fields.values_eq_nil_iff _ n).1 hvs) (by simp [given])
  | supplied free missing supplied named => cases hvs
  | absent free missing => exact ⟨free, missing⟩

theorem completes_coded (hp : r.fields.entries <+: h.entries)
    (hs : ∀ n, Sourced r defaults n (h.values n))
    (coding : h.contains "Transfer-Encoding" = true) :
    Completes r defaults (h.without "Content-Length") := by
  have hvalues : (h.without "Content-Length").values "Transfer-Encoding" =
      h.values "Transfer-Encoding" := by
    rw [Fields.values_without]
    rfl
  have hcoding := (Fields.contains_congr hvalues).trans coding
  refine ⟨?_, fun n hn => ?_, ?_⟩
  · rw [hcoding, if_pos rfl]
    exact hp.filter _
  · rw [Fields.values_without, if_neg fun hname => hn ⟨hname, hcoding⟩]
    exact hs n
  · rintro ⟨-, hlength⟩
    rw [Fields.contains_without_self] at hlength
    cases hlength

theorem completes_framed {f : Field} (hp : r.fields.entries <+: h.entries)
    (hs : ∀ n, Sourced r defaults n (h.values n))
    (uncoded : h.contains "Transfer-Encoding" = false)
    (unstated : h.contains "Content-Length" = false) (supplied : Supplied r f)
    (hf : f.name ∈ framingNames) : Completes r defaults (h.push f) := by
  have hnew : h.contains f.name = false := by
    simp only [framingNames, List.mem_cons, List.not_mem_nil, or_false] at hf
    rcases hf with hf | hf <;> rw [hf] <;> assumption
  refine ⟨?_, fun n hn => ?_, ?_⟩
  · have hkeeps : r.fields.without "Content-Length" = r.fields :=
      Fields.without_eq_self (absent_before hp unstated)
    rw [hkeeps, ite_self]
    exact hp.trans (List.prefix_append ..)
  · rw [Fields.values_push]
    split
    · next hnamed =>
      have habsent : h.contains n = false := (h.contains_congr_name hnamed).symm.trans hnew
      have hnone := (h.values_eq_nil_iff n).2 habsent
      obtain ⟨free, missing⟩ := (hs n).missing hnone
      rw [hnone]
      exact .supplied free missing supplied hnamed
    · rw [List.append_nil]
      exact hs n
  · rintro ⟨hcoding, hlength⟩
    rw [Fields.contains_push, uncoded, Bool.false_or] at hcoding
    rw [Fields.contains_push, unstated, Bool.false_or] at hlength
    have hother : Text.sameWord "Transfer-Encoding" "Content-Length" = false := by decide
    have hsame := Text.sameWord_trans ((Text.sameWord_comm _ _).trans hcoding) hlength
    rw [hother] at hsame
    cases hsame

theorem completes_of_prepare {version : Version} {p : Prepared} (hu : r.url.Given)
    (hp : prepare r version defaults = .ok p) (ht : isTrace r.method = false) :
    Completes r defaults p.head.fields := by
  obtain ⟨completed, hc, hf, -⟩ := frame_of_prepare hp
  have hprefix := prefix_of_complete hc
  have hsourced := sourced_of_complete hu ht hc
  rcases frame_cases hf ht with
    ⟨coding, he⟩ | ⟨uncoded, he⟩ | ⟨uncoded, unstated, f, supplied, hname, he⟩
  · rw [he]
    exact completes_coded hprefix hsourced coding
  · rw [he]
    refine ⟨?_, fun n _ => hsourced n, ?_⟩
    · rw [uncoded, if_neg Bool.false_ne_true]
      exact hprefix
    · rintro ⟨coding, -⟩
      rw [uncoded] at coding
      cases coding
  · rw [he]
    exact completes_framed hprefix hsourced uncoded unstated supplied hname

end Complete

section Trace

variable {r : Request} {version : Version} {defaults : Fields} {p : Prepared}

theorem prepare_of_isTrace (ht : isTrace r.method = true) (body : RequestBody) :
    prepare { r with body := body } version defaults = prepare r version defaults := by
  simp only [prepare, complete, frame, bodyOf, ht, if_true]
  rfl

theorem stripped_of_prepare (hp : prepare r version defaults = .ok p)
    (ht : isTrace r.method = true) : ∀ n ∈ traceStripped, p.head.fields.contains n = false := by
  obtain ⟨completed, -, hf, -⟩ := frame_of_prepare hp
  simp only [frame, ht, if_true, pure, Except.pure, Except.ok.injEq, Prod.mk.injEq] at hf
  intro n hn
  have hlisted : traceStripped.any (Text.sameWord · n) = true :=
    List.any_eq_true.2 ⟨n, hn, Text.sameWord_refl n⟩
  rw [← hf.1, ← Fields.values_eq_nil_iff, Fields.values_foldl_without, if_pos hlisted]

theorem ofRequest_of_isTrace (hp : prepare r version defaults = .ok p)
    (ht : isTrace r.method = true) (body : RequestBody) :
    Payload.ofRequest p body = ⟨[p.head.lines], none⟩ := by
  obtain ⟨-, -, -, hs⟩ := frame_of_prepare hp
  rw [ht] at hs
  simp [Payload.ofRequest, hs, Payload.write]

end Trace

/-- What the caller has given is respected, except that a TRACE request has no body and nothing that
is secret, whatever it was given. -/
theorem prepare_respects {r : Request} {version : Version} {defaults : Fields} {p : Prepared}
    (hu : r.url.Given) (hp : prepare r version defaults = .ok p) :
    (isTrace r.method = false → Completes r defaults p.head.fields) ∧
    (isTrace r.method = true →
      (∀ n ∈ traceStripped, p.head.fields.contains n = false) ∧
      ∀ body, prepare { r with body := body } version defaults = .ok p ∧
        Payload.ofRequest p body = ⟨[p.head.lines], none⟩) := by
  refine ⟨completes_of_prepare hu hp, fun ht => ⟨stripped_of_prepare hp ht, fun body => ⟨?_, ?_⟩⟩⟩
  · rw [prepare_of_isTrace ht, hp]
  · exact ofRequest_of_isTrace hp ht body

/-- A request that states a length besides a transfer coding, and carries a cookie. -/
def probe (method : String) : Request :=
  let url : Url := ⟨"http", "", none, some "h.example", some 8080, .segments [""], none, none⟩
  { Request.ofUrl method url with
    fields := ⟨[⟨"Content-Length", "5"⟩, ⟨"accept", "text/html"⟩, ⟨"Transfer-Encoding", "chunked"⟩,
      ⟨"Cookie", "a=1"⟩]⟩
    body := .memory (Bytes.ofText "hello") }

theorem prepare_respects_probe :
    (probe "trace").url.Given ∧
    (∃ p, prepare (probe "POST") .http11 ⟨[⟨"Accept", "*/*"⟩, ⟨"X-Tag", "1"⟩]⟩ = .ok p ∧
      Completes (probe "POST") ⟨[⟨"Accept", "*/*"⟩, ⟨"X-Tag", "1"⟩]⟩ p.head.fields) ∧
    ∃ p, prepare (probe "trace") .http11 .empty = .ok p ∧
      (∀ n ∈ traceStripped, p.head.fields.contains n = false) ∧
      Payload.ofRequest p (probe "trace").body = ⟨[p.head.lines], none⟩ := by
  have hparse : Url.parse "http://h.example:8080/" = .ok (probe "GET").url := by decide +kernel
  have hu (method : String) : (probe method).url.Given := .parse hparse
  have prepared (r : Request) (defaults : Fields)
      (hok : (prepare r .http11 defaults).toOption.isSome = true) :
      ∃ p, prepare r .http11 defaults = .ok p := by
    cases hp : prepare r .http11 defaults with
    | ok p => exact ⟨p, rfl⟩
    | error failure => simp [hp, Except.toOption] at hok
  obtain ⟨p, hp⟩ :=
    prepared (probe "POST") ⟨[⟨"Accept", "*/*"⟩, ⟨"X-Tag", "1"⟩]⟩ (by decide +kernel)
  obtain ⟨q, hq⟩ := prepared (probe "trace") .empty (by decide +kernel)
  have htrace := (prepare_respects (hu _) hq).2 (by decide)
  exact ⟨hu _, ⟨p, hp, (prepare_respects (hu _) hp).1 (by decide)⟩, q, hq, htrace.1,
    (htrace.2 _).2⟩

end HttpClient.Prepared
